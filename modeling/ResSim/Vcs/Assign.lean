import Mathlib.Data.List.Flatten
import ResSim.Vcs.Cdg

/-!
# Assignment of virtual channels by cycle breaking

Each round puts all paths that are left into one virtual channel, breaks its cycles and
leaves the paths that were taken out to the next round. A round ends because every search
over a channel with a cycle removes an edge, and the rounds end because every round keeps a
path.
-/

namespace ResSim

variable {α : Type} [DecidableEq α]

/-- `vc.is_dag()`. -/
def Vc.isDag (vc : Vc α) : Bool := ResSim.isDag vc.pairs

/-- State of the inner loop: a channel, the paths taken out of it, and the draws left. -/
structure VcBreaking (α : Type) where
  vc : Vc α
  removed : List ℕ
  rnd : Rnd

/-- The body of the inner loop: one more search while the channel has a cycle. -/
def breakRound (fuel : ℕ) (s : VcBreaking α) : Step (VcBreaking α) (Option (VcBreaking α)) :=
  if s.vc.isDag then .done (some s)
  else
    match removeCyclesCdgVc fuel s.vc s.rnd with
    | none => .done none
    | some (vc, moreRemove, rnd) => .next ⟨vc, s.removed ++ moreRemove, rnd⟩

/-- The inner loop. -/
def breakAllCycles (fuel : ℕ) (vc : Vc α) (rnd : Rnd) : Option (VcBreaking α) :=
  (Loop.run (breakRound fuel) fuel ⟨vc, [], rnd⟩).join

/-- State of the outer loop: the path graphs left and the channels found so far. -/
structure VcAssignment (α : Type) where
  nextVcCdgs : List (PathCdg α)
  vcs : List (Vc α)
  rnd : Rnd

/-- One round: a channel from all path graphs left. -/
def makeVc (fuel : ℕ) (A : List α) (cdgs : List (PathCdg α)) (s : VcAssignment α) :
    Option (VcAssignment α) := do
  let vc ← buildCdgVc A s.nextVcCdgs
  let out ← breakAllCycles fuel vc s.rnd
  let nextVcCdgs ← out.removed.mapM (fun i => cdgs[i]?)
  some ⟨nextVcCdgs, s.vcs ++ [out.vc], out.rnd⟩

/-- The body of the outer loop. -/
def assignRound (fuel : ℕ) (A : List α) (cdgs : List (PathCdg α)) (s : VcAssignment α) :
    Step (VcAssignment α) (Option (List (Vc α))) :=
  if 0 < s.nextVcCdgs.length then
    match makeVc fuel A cdgs s with
    | none => .done none
    | some s' => .next s'
  else .done (some s.vcs)

/-- The assertion on the numbers: a path graph with edges carries its position. -/
def numbered (cdgs : List (PathCdg α)) : Bool :=
  cdgs.zipIdx.all (fun x => x.1.es.length = 0 ∨ x.1.cdgNum = x.2)

/-- Assigns every path graph to a virtual channel; `none` where an assertion fails, an index
is out of range or the passes are used up. -/
def assignVcs (fuel : ℕ) (A : List α) (cdgs : List (PathCdg α)) (rnd : Rnd) :
    Option (List (Vc α)) := do
  guard (numbered cdgs)
  let vcs ← (Loop.run (assignRound fuel A cdgs) fuel ⟨cdgs, [], rnd⟩).join
  guard (vcs.all Vc.isDag)
  some vcs

/-- The path graphs a call receives: numbered by their positions, over the arcs `A`. -/
structure Numbered (A : List α) (cdgs : List (PathCdg α)) : Prop where
  covers : Covers A cdgs
  cdgNum_eq : ∀ (i : ℕ) (c : PathCdg α), cdgs[i]? = some c → c.cdgNum = i

lemma Vc.isDag_iff {vc : Vc α} : vc.isDag = true ↔ Acyclic vc.Edge := by
  rw [Vc.isDag, ResSim.isDag_iff, Vc.edgeRel_pairs]

lemma cdgBreaker_edge (vc : Vc α) : cdgBreaker.Edge vc = vc.Edge := by
  funext a b
  exact propext Vc.mem_successors

section InnerLoop

variable {A : List α} {cdgs : List (PathCdg α)} {vc : Vc α} {removed : List ℕ}

/-- A search that starts from a channel with a cycle ends with fewer edges. -/
lemma Kept.removeCycles (hc : NumsNodup cdgs) (hA : Covers A cdgs)
    (h : Kept A cdgs vc removed) (hcyc : ¬ Acyclic vc.Edge) (rnd : Rnd) {fuel : ℕ}
    (hfuel : A.length * (vc.es.length + 2) < fuel) :
    ∃ vc' more rnd', removeCyclesCdgVc fuel vc rnd = some (vc', more, rnd') ∧
      Kept A cdgs vc' (removed ++ more) ∧ vc'.es.length < vc.es.length := by
  obtain ⟨vc', more, rnd', hrun, hkept, _, _, hlt⟩ :=
    (cdgBreaker_lawful A).pass_returns (h.closed hA) rnd hfuel
      (fun vc more => Kept A cdgs vc (removed ++ more))
      (fun g rem c rnd hcl hk => by rw [← List.append_assoc]; exact hk.breakCycle hc hcl rnd)
      (by rw [List.append_nil]; exact h)
  rw [cdgBreaker_edge] at hlt
  rw [← h.vs_eq] at hrun
  exact ⟨vc', more, rnd', hrun, hkept, hlt hcyc⟩

/-- The inner loop ends with an acyclic channel that keeps what every search keeps. -/
lemma breakAllCycles_spec (hc : NumsNodup cdgs) (hA : Covers A cdgs) (rnd : Rnd) {fuel E : ℕ}
    (hE : (cdgs.flatMap PathCdg.es).length ≤ E) (hfuel : (A.length + 1) * (E + 2) < fuel) :
    ∃ out, breakAllCycles fuel ⟨A, cdgs.flatMap PathCdg.es⟩ rnd = some out ∧
      Acyclic out.vc.Edge ∧ Kept A cdgs out.vc out.removed := by
  let Inv : VcBreaking α → Prop := fun s => Kept A cdgs s.vc s.removed ∧ s.vc.es.length ≤ E
  let Post : Option (VcBreaking α) → Prop := fun r =>
    ∃ out, r = some out ∧ Acyclic out.vc.Edge ∧ Kept A cdgs out.vc out.removed
  have hbody : ∀ s, Inv s → (∃ r, breakRound fuel s = .done r ∧ Post r) ∨
      ∃ s', breakRound fuel s = .next s' ∧ Inv s' ∧ s'.vc.es.length < s.vc.es.length := by
    rintro s ⟨hs, hsE⟩
    rw [breakRound]
    by_cases hdag : s.vc.isDag
    · left
      exact ⟨some s, if_pos hdag, s, rfl, Vc.isDag_iff.mp hdag, hs⟩
    · right
      have hmul := Nat.mul_le_mul_left A.length (show s.vc.es.length + 2 ≤ E + 2 by omega)
      rw [Nat.add_mul, Nat.one_mul] at hfuel
      obtain ⟨vc', more, rnd', hrun, hs', hlt⟩ := hs.removeCycles hc hA
        (fun hacyc => hdag (Vc.isDag_iff.mpr hacyc)) s.rnd (show _ < fuel by omega)
      refine ⟨⟨vc', s.removed ++ more, rnd'⟩, ?_, ⟨hs', by dsimp only; omega⟩, hlt⟩
      rw [if_neg hdag, hrun]
  have hwork : (cdgs.flatMap PathCdg.es).length < fuel := by
    have hle := Nat.mul_le_mul_right (E + 2) (show 1 ≤ A.length + 1 by omega)
    omega
  obtain ⟨r, hrun, out, rfl, hout⟩ := Loop.run_of_measure (fun s : VcBreaking α => s.vc.es.length)
    Inv Post hbody (s := ⟨⟨A, cdgs.flatMap PathCdg.es⟩, [], rnd⟩) ⟨kept_init A cdgs, hE⟩ hwork
  exact ⟨out, by rw [breakAllCycles, hrun]; rfl, hout⟩

end InnerLoop

section OuterLoop

variable {A : List α} {cdgs : List (PathCdg α)}

/-- All edges of a path graph are in one channel, and none in any other. -/
def PlacedOnce (vcs : List (Vc α)) (cdg : PathCdg α) : Prop :=
  ∃ pre vc post, vcs = pre ++ vc :: post ∧ (∀ ie ∈ cdg.es, ie ∈ vc.es) ∧
    ∀ vc' ∈ pre ++ post, ∀ ie ∈ vc'.es, ie.cdgNum ≠ cdg.cdgNum

/-- The invariant of the rounds: a path graph either waits and has no edge in a channel, or
is placed. -/
structure Assigning (cdgs : List (PathCdg α)) (s : VcAssignment α) : Prop where
  nodup : NumsNodup s.nextVcCdgs
  mem : ∀ c ∈ s.nextVcCdgs, c ∈ cdgs
  acyclic : ∀ vc ∈ s.vcs, Acyclic vc.Edge
  pending : ∀ c ∈ s.nextVcCdgs, ∀ vc ∈ s.vcs, ∀ ie ∈ vc.es, ie.cdgNum ≠ c.cdgNum
  placed : ∀ c ∈ cdgs, c ∉ s.nextVcCdgs → PlacedOnce s.vcs c

omit [DecidableEq α] in
lemma Numbered.getElem? (h : Numbered A cdgs) {c : PathCdg α} (hc : c ∈ cdgs) :
    cdgs[c.cdgNum]? = some c := by
  obtain ⟨i, hi⟩ := List.mem_iff_getElem?.mp hc
  rw [h.cdgNum_eq i c hi]
  exact hi

omit [DecidableEq α] in
lemma Numbered.nodup (h : Numbered A cdgs) : NumsNodup cdgs := by
  rw [NumsNodup, List.nodup_iff_injective_getElem]
  rintro ⟨i, hi⟩ ⟨j, hj⟩ hij
  rw [List.length_map] at hi hj
  simp only [List.getElem_map] at hij
  rw [h.cdgNum_eq i _ (List.getElem?_eq_getElem hi),
    h.cdgNum_eq j _ (List.getElem?_eq_getElem hj)] at hij
  exact Fin.ext hij

omit [DecidableEq α] in
lemma Numbered.numbered (h : Numbered A cdgs) : numbered cdgs = true := by
  rw [ResSim.numbered, List.all_eq_true]
  rintro ⟨c, i⟩ hx
  exact decide_eq_true (.inr (h.cdgNum_eq i c (List.mk_mem_zipIdx_iff_getElem?.mp hx)))

omit [DecidableEq α] in
/-- Looking up the numbers of path graphs gives path graphs with these numbers. -/
lemma Numbered.mapM_getElem? (h : Numbered A cdgs) {nums : List ℕ}
    (hn : ∀ n ∈ nums, ∃ c ∈ cdgs, c.cdgNum = n) :
    ∃ next, nums.mapM (fun i => cdgs[i]?) = some next ∧ next.map PathCdg.cdgNum = nums ∧
      ∀ c ∈ next, c ∈ cdgs := by
  induction nums with
  | nil => exact ⟨[], rfl, rfl, by simp⟩
  | cons n nums ih =>
    obtain ⟨c, hc, rfl⟩ := hn n (List.mem_cons_self ..)
    obtain ⟨next, hnext, hmap, hmem⟩ := ih (fun m hm => hn m (List.mem_cons_of_mem _ hm))
    refine ⟨c :: next, ?_, by rw [List.map_cons, hmap], ?_⟩
    · rw [List.mapM_cons, h.getElem? hc, hnext]
      rfl
    · exact List.forall_mem_cons.mpr ⟨hc, hmem⟩

omit [DecidableEq α] in
/-- The paths that were taken out are paths of the channel. -/
lemma Kept.exists_removed (h : Kept A cdgs vc removed) {n : ℕ} (hn : n ∈ removed) :
    ∃ c ∈ cdgs, c.cdgNum = n := by
  obtain ⟨ie, hie, rfl⟩ := h.removed_mem n hn
  obtain ⟨c, hc, hiec⟩ := List.mem_flatMap.mp hie
  exact ⟨c, hc, (PathCdg.mem_es.mp hiec).2.symm⟩

omit [DecidableEq α] in
/-- A channel leaves out fewer paths than it was given. -/
lemma Kept.length_removed_lt (h : Kept A cdgs vc removed) (hne : 0 < cdgs.length) :
    removed.length < cdgs.length := by
  rcases h.es_ne_nil with hnil | hes
  · rw [hnil]
    exact hne
  · obtain ⟨ie, hie⟩ := List.exists_mem_of_ne_nil _ hes
    obtain ⟨⟨c, hc, hiec⟩, hout⟩ := h.mem_es.mp hie
    have hsub : (ie.cdgNum :: removed) ⊆ cdgs.map PathCdg.cdgNum := by
      intro n hn
      rcases List.mem_cons.mp hn with rfl | hn
      · exact List.mem_map.mpr ⟨c, hc, (PathCdg.mem_es.mp hiec).2.symm⟩
      · obtain ⟨c', hc', rfl⟩ := h.exists_removed hn
        exact List.mem_map_of_mem hc'
    have hle := (List.subperm_of_subset (List.nodup_cons.mpr ⟨hout, h.nodup⟩) hsub).length_le
    rw [List.length_cons, List.length_map] at hle
    exact hle

lemma Assigning.makeVc (h : Numbered A cdgs) {s : VcAssignment α} (hs : Assigning cdgs s)
    (hne : 0 < s.nextVcCdgs.length) {fuel : ℕ}
    (hfuel : (A.length + 1) * ((cdgs.flatMap PathCdg.es).length + 2) < fuel) :
    ∃ s', makeVc fuel A cdgs s = some s' ∧ Assigning cdgs s' ∧
      s'.nextVcCdgs.length < s.nextVcCdgs.length := by
  have hA : Covers A s.nextVcCdgs := fun c hc => h.covers c (hs.mem c hc)
  have hE : (s.nextVcCdgs.flatMap PathCdg.es).length ≤ (cdgs.flatMap PathCdg.es).length := by
    obtain ⟨l, hperm, hsub⟩ := List.subperm_of_subset (List.Nodup.of_map _ hs.nodup) hs.mem
    rw [← (hperm.flatMap_right PathCdg.es).length_eq]
    exact (hsub.flatMap PathCdg.es).length_le
  obtain ⟨out, hout, hacyc, hkept⟩ := breakAllCycles_spec hs.nodup hA s.rnd hE hfuel
  have hnums : ∀ n ∈ out.removed, ∃ c ∈ cdgs, c.cdgNum = n := by
    intro n hn
    obtain ⟨c, hc, hcn⟩ := hkept.exists_removed hn
    exact ⟨c, hs.mem c hc, hcn⟩
  obtain ⟨next, hnext, hmap, hmem⟩ := h.mapM_getElem? hnums
  have hiff : ∀ c ∈ cdgs, c ∈ next ↔ c.cdgNum ∈ out.removed := by
    intro c hc
    rw [← hmap, List.mem_map]
    constructor
    · exact fun hcn => ⟨c, hcn, rfl⟩
    · rintro ⟨c', hc', he⟩
      rwa [← h.nodup.eq (hmem c' hc') hc he]
  have hold : ∀ c ∈ next, c ∈ s.nextVcCdgs := by
    intro c hc
    obtain ⟨c', hc', he⟩ := hkept.exists_removed ((hiff c (hmem c hc)).mp hc)
    rwa [← h.nodup.eq (hs.mem c' hc') (hmem c hc) he]
  have hrun : ResSim.makeVc fuel A cdgs s = some ⟨next, s.vcs ++ [out.vc], out.rnd⟩ := by
    simp only [ResSim.makeVc, buildCdgVc_eq hA, hout, hnext, Option.bind_eq_bind,
      Option.bind_some]
  have hlen : next.length < s.nextVcCdgs.length := by
    have hlt := hkept.length_removed_lt hne
    rwa [← hmap, List.length_map] at hlt
  refine ⟨_, hrun, ?_, hlen⟩
  constructor
  case nodup =>
    rw [NumsNodup, hmap]
    exact hkept.nodup
  case mem => exact hmem
  case acyclic =>
    intro vc hvc
    rcases List.mem_append.mp hvc with hvc | hvc
    · exact hs.acyclic vc hvc
    · rw [List.mem_singleton.mp hvc]
      exact hacyc
  case pending =>
    intro c hc vc hvc ie hie
    rcases List.mem_append.mp hvc with hvc | hvc
    · exact hs.pending c (hold c hc) vc hvc ie hie
    · rw [List.mem_singleton.mp hvc] at hie
      intro he
      exact (hkept.mem_es.mp hie).2 (he ▸ (hiff c (hmem c hc)).mp hc)
  case placed =>
    intro c hc hcn
    by_cases hcs : c ∈ s.nextVcCdgs
    · refine ⟨s.vcs, out.vc, [], rfl, fun ie hie => ?_, ?_⟩
      · refine hkept.mem_es.mpr ⟨⟨c, hcs, hie⟩, fun hn => hcn ((hiff c hc).mpr ?_)⟩
        rwa [← (PathCdg.mem_es.mp hie).2]
      · rw [List.append_nil]
        exact hs.pending c hcs
    · obtain ⟨pre, vc, post, heq, hall, hother⟩ := hs.placed c hc hcs
      refine ⟨pre, vc, post ++ [out.vc], by rw [heq]; simp, hall, ?_⟩
      intro vc' hvc' ie hie
      rw [← List.append_assoc, List.mem_append, List.mem_singleton] at hvc'
      rcases hvc' with hvc' | rfl
      · exact hother vc' hvc' ie hie
      · obtain ⟨⟨c', hc', hie'⟩, _⟩ := hkept.mem_es.mp hie
        intro he
        rw [(PathCdg.mem_es.mp hie').2] at he
        exact hcs (h.nodup.eq (hs.mem c' hc') hc he ▸ hc')

/-- Whatever is drawn, the assignment ends with acyclic channels, and every path graph has
all its edges in exactly one of them. -/
theorem assignVcs_complete (h : Numbered A cdgs) :
    ∃ passes, ∀ fuel, passes < fuel → ∀ rnd, ∃ vcs, assignVcs fuel A cdgs rnd = some vcs ∧
      (∀ vc ∈ vcs, Acyclic vc.Edge) ∧ ∀ c ∈ cdgs, PlacedOnce vcs c := by
  refine ⟨(A.length + 1) * ((cdgs.flatMap PathCdg.es).length + 2) + cdgs.length,
    fun fuel hfuel rnd => ?_⟩
  have hstart : Assigning cdgs ⟨cdgs, [], rnd⟩ :=
    ⟨h.nodup, fun c hc => hc, by simp, by simp, fun c hc hcn => absurd hc hcn⟩
  let Post : Option (List (Vc α)) → Prop := fun r => ∃ vcs, r = some vcs ∧
    (∀ vc ∈ vcs, Acyclic vc.Edge) ∧ ∀ c ∈ cdgs, PlacedOnce vcs c
  have hbody : ∀ s, Assigning cdgs s → (∃ r, assignRound fuel A cdgs s = .done r ∧ Post r) ∨
      ∃ s', assignRound fuel A cdgs s = .next s' ∧ Assigning cdgs s' ∧
        s'.nextVcCdgs.length < s.nextVcCdgs.length := by
    intro s hs
    rw [assignRound]
    by_cases hne : 0 < s.nextVcCdgs.length
    · right
      obtain ⟨s', hrun, hs', hlt⟩ := hs.makeVc h hne (show _ < fuel by omega)
      exact ⟨s', by rw [if_pos hne, hrun], hs', hlt⟩
    · left
      have hnil : s.nextVcCdgs = [] := List.length_eq_zero_iff.mp (by omega)
      refine ⟨_, if_neg hne, s.vcs, rfl, hs.acyclic, fun c hc => hs.placed c hc ?_⟩
      rw [hnil]
      exact List.not_mem_nil
  obtain ⟨r, hrun, vcs, rfl, hacyc, hplaced⟩ := Loop.run_of_measure
    (fun s : VcAssignment α => s.nextVcCdgs.length) (Assigning cdgs) Post hbody hstart
    (show _ < fuel by dsimp only; omega)
  refine ⟨vcs, ?_, hacyc, hplaced⟩
  have hdag : vcs.all Vc.isDag = true := by
    rw [List.all_eq_true]
    exact fun vc hvc => Vc.isDag_iff.mpr (hacyc vc hvc)
  rw [assignVcs, hrun, h.numbered]
  simp only [Option.join_some, Option.bind_eq_bind, Option.bind_some, hdag, guard, if_true]
  rfl

/-- Two paths over three arcs whose dependencies close a cycle together. -/
def triangleCdgs : List (PathCdg ℕ) :=
  [⟨0, [(0, 1), (1, 2)], by decide, by decide⟩, ⟨1, [(2, 0)], by decide, by decide⟩]

lemma triangleCdgs_numbered : Numbered [0, 1, 2] triangleCdgs := by
  refine ⟨by unfold Covers; decide, fun i c hc => ?_⟩
  match i, hc with
  | 0, rfl => rfl
  | 1, rfl => rfl

theorem assignVcs_complete_triangle : Numbered [0, 1, 2] triangleCdgs ∧
    ∃ passes, ∀ fuel, passes < fuel → ∀ rnd,
      ∃ vcs, assignVcs fuel [0, 1, 2] triangleCdgs rnd = some vcs ∧
        (∀ vc ∈ vcs, Acyclic vc.Edge) ∧ ∀ c ∈ triangleCdgs, PlacedOnce vcs c :=
  ⟨triangleCdgs_numbered, assignVcs_complete triangleCdgs_numbered⟩

end OuterLoop

end ResSim
