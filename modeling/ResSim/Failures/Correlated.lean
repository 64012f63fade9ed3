import Mathlib.Data.Finset.Card
import ResSim.Lib.Cluster
import ResSim.Lib.Loop
import ResSim.Lib.Random
import ResSim.PortGraph

/-!
# Correlated failures

The first element fails at random, and each further one is a random neighbour of a random
failed element. If the drawn element has no neighbour left, another one is drawn, without a
bound. In a connected graph some failed element always has a neighbour left.
-/

namespace ResSim

open Relation

variable {α : Type} [DecidableEq α]

/-- State of the loop: the failed elements as a set and in the order in which they failed. -/
structure Correlated (α : Type) where
  failed : Finset α
  failedl : List α
  rnd : Rnd

/-- One draw of the inner loop. The outer loop is left only when the set has grown, so both
conditions are tested here. `none` where `random.choice` raises. -/
def correlatedStep (adj : α → List α) (numFailures : ℕ) (s : Correlated α) :
    Step (Correlated α) (Option (Finset α)) :=
  if s.failed.card < numFailures then
    match choice (s.rnd 0) s.failedl with
    | none => .done none
    | some curr =>
      let adjs := (adj curr).filter (fun x => x ∉ s.failed)
      if 0 < adjs.length then
        match choice (s.rnd 1) adjs with
        | none => .done none
        | some next => .next ⟨insert next s.failed, s.failedl ++ [next], s.rnd.next.next⟩
      else .next { s with rnd := s.rnd.next }
  else .done (some s.failed)

def correlatedStart (first : α) (rnd : Rnd) : Correlated α := ⟨{first}, [first], rnd⟩

/-- The failed elements, which are all of them if as many failures are asked for. -/
def correlatedFail (fuel : ℕ) (all : List α) (adj : α → List α) (numFailures : ℕ) (rnd : Rnd) :
    Option (Finset α) :=
  if numFailures = 0 then some ∅
  else if all.length ≤ numFailures then some all.toFinset
  else do
    let first ← choice (rnd 0) all
    (Loop.run (correlatedStep adj numFailures) fuel (correlatedStart first rnd.next)).join

variable {V E : Type} [DecidableEq V] [DecidableEq E]

/-- `v.edges.itervalues()`. -/
def edgesOf (G : PortGraph V E) (v : V) : List E := (G.portList v).filterMap (G.edges v)

/-- The links at the ends of a link, itself among them. -/
def adjEdges (G : PortGraph V E) (e : E) : List E := edgesOf G (G.v1 e) ++ edgesOf G (G.v2 e)

/-- `v.ports.itervalues()`. -/
def adjVertices (G : PortGraph V E) (v : V) : List V := (G.portList v).filterMap (G.ports v)

def correlatedEdgeFail (fuel : ℕ) (G : PortGraph V E) (numFailures : ℕ) (rnd : Rnd) :
    Option (Finset E) :=
  correlatedFail fuel G.links.dedup (adjEdges G) numFailures rnd

def correlatedVertexFail (fuel : ℕ) (G : PortGraph V E) (numFailures : ℕ) (rnd : Rnd) :
    Option (Finset V) :=
  correlatedFail fuel G.verts (adjVertices G) numFailures rnd

/-! ### Growth -/

/-- There is no early return, and the loop can be in the state. -/
def CorrelatedReaches (all : List α) (adj : α → List α) (numFailures : ℕ) (s : Correlated α) :
    Prop :=
  0 < numFailures ∧ numFailures < all.length ∧ ∃ first ∈ all, ∃ rnd,
    Loop.Reaches (correlatedStep adj numFailures) (correlatedStart first rnd) s

section Growth

variable {all : List α} {adj : α → List α} {numFailures : ℕ} {s s' : Correlated α}

/-- The failed elements are joined, and the set and the list have the same elements. -/
structure Correlated.Inv (all : List α) (adj : α → List α) (numFailures : ℕ)
    (s : Correlated α) : Prop where
  toFinset : s.failedl.toFinset = s.failed
  subset : s.failed ⊆ all.toFinset
  nonempty : s.failed.Nonempty
  card_le : s.failed.card ≤ numFailures
  joined : Joined (fun x y => y ∈ adj x) s.failed

/-- What one draw does: it adds a neighbour of a failed element or leaves all as it is. -/
lemma correlatedStep_cases (h : correlatedStep adj numFailures s = .next s') :
    s.failed.card < numFailures ∧
      ((∃ curr ∈ s.failedl, ∃ next ∈ adj curr, next ∉ s.failed ∧
        s' = ⟨insert next s.failed, s.failedl ++ [next], s.rnd.next.next⟩) ∨
      s' = { s with rnd := s.rnd.next }) := by
  unfold correlatedStep at h
  split at h
  · rename_i hcard
    refine ⟨hcard, ?_⟩
    cases hcurr : choice (s.rnd 0) s.failedl with
    | none => simp [hcurr] at h
    | some curr =>
      simp only [hcurr] at h
      split at h
      · cases hnext : choice (s.rnd 1) ((adj curr).filter (fun x => x ∉ s.failed)) with
        | none =>
          rw [hnext] at h
          cases h
        | some next =>
          simp only [hnext, Step.next.injEq] at h
          obtain ⟨hin, hnot⟩ := List.mem_filter.mp (choice_mem hnext)
          exact .inl ⟨curr, choice_mem hcurr, next, hin, of_decide_eq_true hnot, h.symm⟩
      · rw [Step.next.injEq] at h
        exact .inr h.symm
  · cases h

lemma Correlated.Inv.step (hsymm : ∀ x y, y ∈ adj x → x ∈ adj y) (hadj : ∀ x, adj x ⊆ all)
    (h : s.Inv all adj numFailures) (hstep : correlatedStep adj numFailures s = .next s') :
    s'.Inv all adj numFailures := by
  obtain ⟨hcard, ⟨curr, hcurr, next, hnext, hnot, rfl⟩ | rfl⟩ := correlatedStep_cases hstep
  · have hcurr' : curr ∈ s.failed := by
      rw [← h.toFinset]
      exact List.mem_toFinset.mpr hcurr
    constructor
    case toFinset => rw [List.toFinset_append, h.toFinset]; simp
    case subset =>
      exact Finset.insert_subset (List.mem_toFinset.mpr (hadj curr hnext)) h.subset
    case nonempty => exact Finset.insert_nonempty _ _
    case card_le =>
      rw [Finset.card_insert_of_notMem hnot]
      omega
    case joined => exact h.joined.grow hsymm hcurr' hnext
  · exact ⟨h.toFinset, h.subset, h.nonempty, h.card_le, h.joined⟩

lemma CorrelatedReaches.inv (hsymm : ∀ x y, y ∈ adj x → x ∈ adj y) (hadj : ∀ x, adj x ⊆ all)
    (h : CorrelatedReaches all adj numFailures s) : s.Inv all adj numFailures := by
  obtain ⟨hpos, _, first, hfirst, rnd, h⟩ := h
  apply h.invariant (Correlated.Inv all adj numFailures)
    (fun s s' hs hstep => hs.step hsymm hadj hstep)
  refine ⟨rfl, ?_, Finset.singleton_nonempty first, ?_, joined_singleton⟩
  · exact Finset.singleton_subset_iff.mpr (List.mem_toFinset.mpr hfirst)
  · rw [correlatedStart, Finset.card_singleton]
    omega

/-- Some failed element has a neighbour that has not failed, and a draw that picks them makes
the set larger by one. -/
lemma Correlated.Inv.grows (hconn : ∀ a ∈ all, ∀ b ∈ all, ReflTransGen (fun x y => y ∈ adj x) a b)
    (h : s.Inv all adj numFailures) (hless : numFailures < all.toFinset.card)
    (hcard : s.failed.card < numFailures) :
    (∃ x ∈ s.failedl, ∃ y ∈ adj x, y ∉ s.failed) ∧
      ∃ rnd s', correlatedStep adj numFailures { s with rnd := rnd } = .next s' ∧
        s'.failed.card = s.failed.card + 1 := by
  have hmem : ∀ x, x ∈ s.failedl ↔ x ∈ s.failed := by
    intro x
    rw [← h.toFinset, List.mem_toFinset]
  obtain ⟨a, ha⟩ := h.nonempty
  obtain ⟨b, hb, hnot⟩ := Finset.exists_mem_notMem_of_card_lt_card (hcard.trans hless)
  obtain ⟨x, hx, y, hxy, hy⟩ := exists_boundary
    (hconn a (List.mem_toFinset.mp (h.subset ha)) b (List.mem_toFinset.mp hb)) ha hnot
  have hfresh : y ∈ (adj x).filter (fun y => y ∉ s.failed) :=
    List.mem_filter.mpr ⟨hxy, decide_eq_true hy⟩
  refine ⟨⟨x, (hmem x).mpr hx, y, hxy, hy⟩, ?_⟩
  obtain ⟨i, hi, hxi⟩ := List.mem_iff_getElem.mp ((hmem x).mpr hx)
  refine ⟨fun n => if n = 0 then i else 0, ?_⟩
  have hcurr : choice i s.failedl = some x := by
    rw [choice, Nat.mod_eq_of_lt hi, List.getElem?_eq_getElem hi, hxi]
  obtain ⟨z, hz⟩ := exists_choice_of_ne_nil 0 (List.ne_nil_of_mem hfresh)
  have hz' : z ∉ s.failed := of_decide_eq_true (List.mem_filter.mp (choice_mem hz)).2
  refine ⟨⟨insert z s.failed, s.failedl ++ [z], fun _ => 0⟩, ?_, Finset.card_insert_of_notMem hz'⟩
  simp only [correlatedStep, if_pos hcard, if_true, hcurr,
    if_pos (List.length_pos_of_mem hfresh), one_ne_zero, if_false, hz]
  rfl

/-- The loop ends with the failed elements, and no draw raises. -/
lemma correlatedStep_done (h : s.Inv all adj numFailures) {r : Option (Finset α)}
    (hdone : correlatedStep adj numFailures s = .done r) :
    r = some s.failed ∧ s.failed.card = numFailures := by
  have hle := h.card_le
  unfold correlatedStep at hdone
  split at hdone
  · have hne : s.failedl ≠ [] := by
      rintro hnil
      have := h.nonempty
      simp [← h.toFinset, hnil] at this
    obtain ⟨curr, hcurr⟩ := exists_choice_of_ne_nil (s.rnd 0) hne
    simp only [hcurr] at hdone
    split at hdone
    · rename_i hpos
      obtain ⟨next, hnext⟩ := exists_choice_of_ne_nil (s.rnd 1) (List.length_pos_iff.mp hpos)
      rw [hnext] at hdone
      cases hdone
    · cases hdone
  · rw [Step.done.injEq] at hdone
    exact ⟨hdone.symm, by omega⟩

/-- A draw reads one or two numbers and works the same whatever follows them. -/
lemma correlatedStep_draws (h : correlatedStep adj numFailures s = .next s') :
    (s'.rnd = s.rnd.next ∧ ∀ rnd : Rnd,
      correlatedStep adj numFailures { s with rnd := rnd.cons (s.rnd 0) } =
        .next { s' with rnd := rnd }) ∨
    (s'.rnd = s.rnd.next.next ∧ ∀ rnd : Rnd,
      correlatedStep adj numFailures { s with rnd := (rnd.cons (s.rnd 1)).cons (s.rnd 0) } =
        .next { s' with rnd := rnd }) := by
  unfold correlatedStep at h
  split at h
  · rename_i hcard
    cases hcurr : choice (s.rnd 0) s.failedl with
    | none => simp [hcurr] at h
    | some curr =>
      simp only [hcurr] at h
      split at h
      · rename_i hpos
        cases hnext : choice (s.rnd 1) ((adj curr).filter (fun x => x ∉ s.failed)) with
        | none =>
          rw [hnext] at h
          cases h
        | some next =>
          simp only [hnext, Step.next.injEq] at h
          subst h
          refine .inr ⟨rfl, fun rnd => ?_⟩
          simp only [correlatedStep, if_pos hcard, Rnd.cons_zero, hcurr, if_pos hpos, Rnd.cons_one,
            hnext, Rnd.next_cons]
      · rename_i hpos
        rw [Step.next.injEq] at h
        subst h
        refine .inl ⟨rfl, fun rnd => ?_⟩
        simp only [correlatedStep, if_pos hcard, Rnd.cons_zero, hcurr, if_neg hpos, Rnd.next_cons]
  · cases h

/-- Numbers that lead on from the next state to a result do so after the numbers of the draw. -/
lemma returns_of_step (h : correlatedStep adj numFailures s = .next s') {draws : ℕ} {rnd : Rnd}
    {r : Option (Finset α)} (hsame : Rnd.SameFor (draws - 1) s'.rnd rnd)
    (hr : Loop.Returns (correlatedStep adj numFailures) { s' with rnd := rnd } r) :
    ∃ rnd', Rnd.SameFor draws s.rnd rnd' ∧
      Loop.Returns (correlatedStep adj numFailures) { s with rnd := rnd' } r := by
  rcases correlatedStep_draws h with ⟨hrnd, hstep⟩ | ⟨hrnd, hstep⟩
  · rw [hrnd] at hsame
    exact ⟨_, hsame.cons, .of_next (hstep rnd) hr⟩
  · rw [hrnd] at hsame
    refine ⟨_, Rnd.SameFor.cons (Rnd.SameFor.cons fun n hn => hsame n (by omega)), ?_⟩
    exact .of_next (hstep rnd) hr

/-- From here some numbers lead to a result. -/
lemma Correlated.Inv.ends (hsymm : ∀ x y, y ∈ adj x → x ∈ adj y) (hadj : ∀ x, adj x ⊆ all)
    (hconn : ∀ a ∈ all, ∀ b ∈ all, ReflTransGen (fun x y => y ∈ adj x) a b)
    (hless : numFailures < all.toFinset.card) (h : s.Inv all adj numFailures) :
    ∃ rnd failed, Loop.Returns (correlatedStep adj numFailures) { s with rnd := rnd }
      (some failed) := by
  -- by induction on the number of elements that still have to fail
  induction hk : numFailures - s.failed.card generalizing s with
  | zero =>
    refine ⟨s.rnd, s.failed, .of_done ?_⟩
    have hfull : ¬ s.failed.card < numFailures := by omega
    rw [correlatedStep, if_neg hfull]
  | succ k ih =>
    obtain ⟨_, rnd, s₁, hstep, hcard⟩ := h.grows hconn hless (by omega)
    have hrnd : ({ s with rnd := rnd } : Correlated α).Inv all adj numFailures :=
      ⟨h.toFinset, h.subset, h.nonempty, h.card_le, h.joined⟩
    have hleft : numFailures - s₁.failed.card = k := by omega
    obtain ⟨rnd₁, failed, hr⟩ := ih (hrnd.step hsymm hadj hstep) hleft
    have hsame : Rnd.SameFor (0 - 1) s₁.rnd rnd₁ := fun n hn => absurd hn (Nat.not_lt_zero n)
    obtain ⟨rnd', _, hr'⟩ := returns_of_step hstep hsame hr
    exact ⟨rnd', failed, hr'⟩

/-- Whatever numbers come first, some numbers behind them lead to a result. -/
lemma Correlated.Inv.ends_after (hsymm : ∀ x y, y ∈ adj x → x ∈ adj y) (hadj : ∀ x, adj x ⊆ all)
    (hconn : ∀ a ∈ all, ∀ b ∈ all, ReflTransGen (fun x y => y ∈ adj x) a b)
    (hless : numFailures < all.toFinset.card) (h : s.Inv all adj numFailures) (draws : ℕ) :
    ∃ rnd, Rnd.SameFor draws s.rnd rnd ∧ ∃ failed,
      Loop.Returns (correlatedStep adj numFailures) { s with rnd := rnd } (some failed) := by
  induction draws using Nat.strong_induction_on generalizing s with
  | _ draws ih =>
    by_cases hzero : draws = 0
    · obtain ⟨rnd, failed, hr⟩ := h.ends hsymm hadj hconn hless
      exact ⟨rnd, fun n hn => absurd hn (by omega), failed, hr⟩
    · cases hb : correlatedStep adj numFailures s with
      | done r =>
        obtain ⟨rfl, _⟩ := correlatedStep_done h hb
        exact ⟨s.rnd, fun _ _ => rfl, _, .of_done hb⟩
      | next s₁ =>
        obtain ⟨rnd, hsame, failed, hr⟩ := ih (draws - 1) (by omega) (h.step hsymm hadj hb)
        obtain ⟨rnd', hsame', hr'⟩ := returns_of_step hb hsame hr
        exact ⟨rnd', hsame', failed, hr'⟩

/-- In no state that the loop reaches it is stuck or raises, and from each some draws lead to a
result. Whatever was drawn first, more draws let the function return; it returns at once if no
failures or too many are asked for. A set that is returned has as many elements as were asked
for, or all, and is joined. -/
structure GrowsJoined (all : List α) (adj : α → List α) (numFailures : ℕ)
    (fail : ℕ → Rnd → Option (Finset α)) : Prop where
  grows : ∀ s, CorrelatedReaches all adj numFailures s → s.failed.card < numFailures →
    (∃ x ∈ s.failedl, ∃ y ∈ adj x, y ∉ s.failed) ∧
      ∃ rnd s', correlatedStep adj numFailures { s with rnd := rnd } = .next s' ∧
        s'.failed.card = s.failed.card + 1
  no_raise : ∀ s, CorrelatedReaches all adj numFailures s →
    correlatedStep adj numFailures s ≠ .done none
  ends : ∀ s, CorrelatedReaches all adj numFailures s → ∃ rnd failed,
    Loop.Returns (correlatedStep adj numFailures) { s with rnd := rnd } (some failed)
  returns : ∀ draws rnd, ∃ rnd', Rnd.SameFor draws rnd rnd' ∧
    ∃ fuel failed, fail fuel rnd' = some failed
  early : numFailures = 0 ∨ all.length ≤ numFailures → ∀ fuel rnd, ∃ failed,
    fail fuel rnd = some failed
  result : ∀ fuel rnd failed, fail fuel rnd = some failed →
    failed.card = min numFailures all.length ∧ Joined (fun x y => y ∈ adj x) failed

lemma correlatedFail_early (adj : α → List α)
    (h : numFailures = 0 ∨ all.length ≤ numFailures) (fuel : ℕ) (rnd : Rnd) :
    ∃ failed, correlatedFail fuel all adj numFailures rnd = some failed := by
  unfold correlatedFail
  split
  · exact ⟨_, rfl⟩
  · exact ⟨_, if_pos (by omega)⟩

lemma growsJoined (hn : all.Nodup) (hsymm : ∀ x y, y ∈ adj x → x ∈ adj y)
    (hadj : ∀ x, adj x ⊆ all)
    (hconn : ∀ a ∈ all, ∀ b ∈ all, ReflTransGen (fun x y => y ∈ adj x) a b) (numFailures : ℕ) :
    GrowsJoined all adj numFailures
      (fun fuel rnd => correlatedFail fuel all adj numFailures rnd) := by
  have hcard : all.toFinset.card = all.length := List.toFinset_card_of_nodup hn
  constructor
  case grows =>
    intro s hs
    exact (hs.inv hsymm hadj).grows hconn (hcard ▸ hs.2.1)
  case no_raise =>
    intro s hs hnone
    cases (correlatedStep_done (hs.inv hsymm hadj) hnone).1
  case ends =>
    intro s hs
    exact (hs.inv hsymm hadj).ends hsymm hadj hconn (hcard ▸ hs.2.1)
  case returns =>
    intro draws rnd
    by_cases hearly : numFailures = 0 ∨ all.length ≤ numFailures
    · obtain ⟨failed, hf⟩ := correlatedFail_early adj hearly 0 rnd
      exact ⟨rnd, fun _ _ => rfl, 0, failed, hf⟩
    · rw [not_or] at hearly
      have hne : all ≠ [] := List.ne_nil_of_length_pos (by omega)
      obtain ⟨first, hfirst⟩ := exists_choice_of_ne_nil (rnd 0) hne
      have hstart : CorrelatedReaches all adj numFailures (correlatedStart first rnd.next) :=
        ⟨by omega, by omega, first, choice_mem hfirst, rnd.next, .refl⟩
      obtain ⟨rnd₁, hsame, failed, fuel, hr⟩ := (hstart.inv hsymm hadj).ends_after hsymm hadj hconn
        (hcard ▸ hstart.2.1) (draws - 1)
      refine ⟨rnd₁.cons (rnd 0), hsame.cons, fuel, failed, ?_⟩
      rw [correlatedFail, if_neg hearly.1, if_neg hearly.2, Rnd.cons_zero, hfirst, Rnd.next_cons,
        Option.bind_eq_bind, Option.bind_some, Option.join_eq_some_iff]
      exact hr
  case early => exact fun hearly => correlatedFail_early adj hearly
  case result =>
    intro fuel rnd failed h
    unfold correlatedFail at h
    split at h
    · rename_i hzero
      obtain rfl := Option.some.inj h
      rw [hzero, Nat.zero_min]
      exact ⟨rfl, fun a ha => absurd ha (Finset.notMem_empty a)⟩
    · split at h
      · rename_i hall
        obtain rfl := Option.some.inj h
        refine ⟨by rw [hcard, Nat.min_eq_right hall], joined_of_connected ?_ ?_⟩
        · exact fun a ha b hb => hconn a (List.mem_toFinset.mp ha) b (List.mem_toFinset.mp hb)
        · exact fun x _ y hy => List.mem_toFinset.mpr (hadj x hy)
      · rename_i hpos hless
        obtain ⟨first, hfirst, h⟩ := Option.bind_eq_some_iff.mp h
        rw [Option.join_eq_some_iff] at h
        obtain ⟨s, hs, hdone⟩ := Loop.Returns.exists_last ⟨fuel, h⟩
        have hinv := CorrelatedReaches.inv hsymm hadj
          ⟨by omega, by omega, first, choice_mem hfirst, rnd.next, hs⟩
        obtain ⟨hsome, hlen⟩ := correlatedStep_done hinv hdone
        obtain rfl := Option.some.inj hsome
        exact ⟨by omega, hinv.joined⟩

end Growth

/-! ### Links and switches -/

/-- Every switch is reached from every other. -/
def PortGraph.Connected (G : PortGraph V E) : Prop :=
  ∀ v w, ReflTransGen (fun v w => ∃ p, G.ports v p = some w) v w

section Graph

variable {G : PortGraph V E} {v w : V} {e f : E}

omit [DecidableEq V] [DecidableEq E] in
lemma mem_edgesOf : e ∈ edgesOf G v ↔ G.v1 e = v ∨ G.v2 e = v := by
  rw [edgesOf, List.mem_filterMap]
  constructor
  · rintro ⟨p, _, hp⟩
    rcases (G.edges_iff v p e).mp hp with h | h
    · exact .inl (Prod.ext_iff.mp h).1
    · exact .inr (Prod.ext_iff.mp h).1
  · rintro (rfl | rfl)
    · have he := (G.edges_iff _ (G.p1 e) e).mpr (.inl rfl)
      exact ⟨_, (G.mem_portList ..).mpr ⟨e, he⟩, he⟩
    · have he := (G.edges_iff _ (G.p2 e) e).mpr (.inr rfl)
      exact ⟨_, (G.mem_portList ..).mpr ⟨e, he⟩, he⟩

omit [DecidableEq V] [DecidableEq E] in
lemma mem_adjEdges : f ∈ adjEdges G e ↔ ∃ v, e ∈ edgesOf G v ∧ f ∈ edgesOf G v := by
  simp only [adjEdges, List.mem_append, mem_edgesOf (e := e)]
  constructor
  · rintro (h | h)
    · exact ⟨_, .inl rfl, h⟩
    · exact ⟨_, .inr rfl, h⟩
  · rintro ⟨v, rfl | rfl, h⟩
    · exact .inl h
    · exact .inr h

omit [DecidableEq E] in
lemma mem_adjVertices : w ∈ adjVertices G v ↔ ∃ p, G.ports v p = some w := by
  rw [adjVertices, List.mem_filterMap]
  constructor
  · rintro ⟨p, _, hp⟩
    exact ⟨p, hp⟩
  · rintro ⟨p, hp⟩
    obtain ⟨h, hhop, _⟩ := Option.map_eq_some_iff.mp hp
    exact ⟨p, PortGraph.hop_mem_portList hhop, hp⟩

omit [DecidableEq E] in
lemma exists_hop_of_ports {p : ℕ} (h : G.ports v p = some w) :
    ∃ e q, G.hop v p = some (e, w, q) := by
  obtain ⟨⟨e, w', q⟩, hhop, rfl⟩ := Option.map_eq_some_iff.mp h
  exact ⟨e, q, hhop⟩

omit [DecidableEq E] in
lemma mem_edgesOf_of_hop {p q : ℕ} (h : G.hop v p = some (e, w, q)) :
    e ∈ edgesOf G v ∧ e ∈ edgesOf G w := by
  rw [mem_edgesOf, mem_edgesOf]
  rcases PortGraph.hop_iff.mp h with ⟨h₁, _, h₂, _⟩ | ⟨h₁, _, h₂, _⟩
  · exact ⟨.inl h₁, .inr h₂⟩
  · exact ⟨.inr h₁, .inl h₂⟩

omit [DecidableEq E] in
/-- Links at connected switches are connected by links that share a switch. -/
lemma reflTransGen_adjEdges (h : ReflTransGen (fun v w => ∃ p, G.ports v p = some w) v w)
    (he : e ∈ edgesOf G v) (hf : f ∈ edgesOf G w) :
    ReflTransGen (fun x y => y ∈ adjEdges G x) e f := by
  induction h generalizing f with
  | refl => exact .single (mem_adjEdges.mpr ⟨v, he, hf⟩)
  | @tail u w _ hstep ih =>
    obtain ⟨p, hp⟩ := hstep
    obtain ⟨g, q, hhop⟩ := exists_hop_of_ports hp
    obtain ⟨hgu, hgw⟩ := mem_edgesOf_of_hop hhop
    exact (ih hgu).tail (mem_adjEdges.mpr ⟨w, hgw, hf⟩)

/-- On a connected graph correlated failures of links and of switches grow without getting
stuck, and come to as many as were asked for, or all, which are joined. -/
theorem correlatedFail_grows (hconn : G.Connected) (numFailures : ℕ) :
    GrowsJoined G.links.dedup (adjEdges G) numFailures
        (fun fuel rnd => correlatedEdgeFail fuel G numFailures rnd) ∧
      GrowsJoined G.verts (adjVertices G) numFailures
        (fun fuel rnd => correlatedVertexFail fuel G numFailures rnd) := by
  constructor
  · apply growsJoined (List.nodup_dedup _)
    · intro e f hf
      obtain ⟨v, he, hf⟩ := mem_adjEdges.mp hf
      exact mem_adjEdges.mpr ⟨v, hf, he⟩
    · exact fun _ e _ => List.mem_dedup.mpr (G.mem_links e)
    · intro e _ f _
      exact reflTransGen_adjEdges (hconn (G.v1 e) (G.v1 f)) (mem_edgesOf.mpr (.inl rfl))
        (mem_edgesOf.mpr (.inl rfl))
  · apply growsJoined G.nodup_verts
    · intro v w hw
      obtain ⟨p, hp⟩ := mem_adjVertices.mp hw
      obtain ⟨e, q, hhop⟩ := exists_hop_of_ports hp
      exact mem_adjVertices.mpr ⟨q, PortGraph.ports_of_hop (PortGraph.hop_symm hhop)⟩
    · exact fun _ w _ => G.mem_verts w
    · intro v _ w _
      refine ReflTransGen.mono ?_ _ _ (hconn v w)
      exact fun _ _ h => mem_adjVertices.mpr h

end Graph

lemma connected_fourRing : fourRing.Connected := by
  have hstep : ∀ v, fourRing.ports v 0 = some (v + 1) := by decide
  have hall : ∀ v w : Fin 4, w = v ∨ w = v + 1 ∨ w = v + 1 + 1 ∨ w = v + 1 + 1 + 1 := by decide
  intro v w
  rcases hall v w with rfl | rfl | rfl | rfl
  · exact .refl
  · exact .single ⟨0, hstep _⟩
  · exact .tail (.single ⟨0, hstep _⟩) ⟨0, hstep _⟩
  · exact .tail (.tail (.single ⟨0, hstep _⟩) ⟨0, hstep _⟩) ⟨0, hstep _⟩

/-- Two failures on the ring: after the first, a neighbour of it is drawn. -/
theorem correlatedFail_grows_fourRing :
    GrowsJoined fourRing.links.dedup (adjEdges fourRing) 2
        (fun fuel rnd => correlatedEdgeFail fuel fourRing 2 rnd) ∧
      GrowsJoined fourRing.verts (adjVertices fourRing) 2
        (fun fuel rnd => correlatedVertexFail fuel fourRing 2 rnd) :=
  correlatedFail_grows connected_fourRing 2

end ResSim
