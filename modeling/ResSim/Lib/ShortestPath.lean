import Mathlib.Data.List.Induction
import Mathlib.Data.List.Perm.Subperm
import Mathlib.Data.List.Nodup
import Mathlib.Data.Nat.Find
import ResSim.Lib.Walk

/-!
# Breadth-first search

Finds shortest walks from a vertex round by round: after `n` rounds the search has seen the
vertices at most `n` edges away, each with a shortest walk to it.
-/

namespace ResSim

variable {V E : Type} [DecidableEq V]

/-- Keeps the first walk to every vertex that is not seen. -/
def addUnseen (seen : List (V × List E)) : List (V × List E) → List (V × List E) → List (V × List E)
  | new, [] => new
  | new, a :: rest =>
    if a.1 ∈ (seen ++ new).map Prod.fst then addUnseen seen new rest
    else addUnseen seen (new ++ [a]) rest

/-- The walks that continue those of the last round. -/
def continuations (adj : Adj V E) (front : List (V × List E)) : List (V × List E) :=
  front.flatMap (fun a => (adj a.1).map (fun b => (b.2, a.2 ++ [b.1])))

/-- The search: what was seen, and the part of it that the last round found. -/
def bfs (adj : Adj V E) : ℕ → List (V × List E) → List (V × List E) → List (V × List E)
  | 0, seen, _ => seen
  | n + 1, seen, front =>
    let new := addUnseen seen [] (continuations adj front)
    bfs adj n (seen ++ new) new

/-- A shortest walk between two vertices, no edges if there is none. -/
def bfsPath (verts : List V) (adj : Adj V E) (x y : V) : List E :=
  (((bfs adj verts.length [(x, [])] [(x, [])]).find? (fun a => a.1 = y)).map Prod.snd).getD []

variable {adj : Adj V E} {x : V} {seen new cands front : List (V × List E)}

omit [DecidableEq V] in
lemma mem_continuations {a : V × List E} :
    a ∈ continuations adj front ↔
      ∃ v p e, (v, p) ∈ front ∧ (e, a.1) ∈ adj v ∧ a.2 = p ++ [e] := by
  simp only [continuations, List.mem_flatMap, List.mem_map, Prod.exists]
  constructor
  · rintro ⟨v, p, hv, e, w, hw, rfl⟩
    exact ⟨v, p, e, hv, hw, rfl⟩
  · rintro ⟨v, p, e, hv, hw, hp⟩
    exact ⟨v, p, hv, e, a.1, hw, Prod.ext rfl hp.symm⟩

lemma addUnseen_spec (seen new cands : List (V × List E)) :
    (∀ a ∈ addUnseen seen new cands, a ∈ new ∨
      (a ∈ cands ∧ a.1 ∉ seen.map Prod.fst)) ∧
    (∀ a ∈ new, a ∈ addUnseen seen new cands) ∧
    ∀ a ∈ cands, a.1 ∈ (seen ++ addUnseen seen new cands).map Prod.fst := by
  induction cands generalizing new with
  | nil => exact ⟨fun a ha => .inl ha, fun a ha => ha, by simp⟩
  | cons c cands ih =>
    rw [addUnseen]
    split
    · rename_i hc
      obtain ⟨h₁, h₂, h₃⟩ := ih new
      refine ⟨fun a ha => (h₁ a ha).imp_right (fun h => ⟨List.mem_cons_of_mem _ h.1, h.2⟩), h₂,
        List.forall_mem_cons.mpr ⟨?_, h₃⟩⟩
      rw [List.map_append, List.mem_append] at hc ⊢
      exact hc.imp_right (fun h => List.map_subset _ (fun a ha => h₂ a ha) h)
    · rename_i hc
      obtain ⟨h₁, h₂, h₃⟩ := ih (new ++ [c])
      rw [List.map_append, List.mem_append, not_or] at hc
      refine ⟨fun a ha => ?_, fun a ha => h₂ a (List.mem_append_left _ ha),
        List.forall_mem_cons.mpr ⟨?_, h₃⟩⟩
      · rcases h₁ a ha with h | h
        · rcases List.mem_append.mp h with h | h
          · exact .inl h
          · rw [List.mem_singleton.mp h]
            exact .inr ⟨List.mem_cons_self .., hc.1⟩
        · exact .inr ⟨List.mem_cons_of_mem _ h.1, h.2⟩
      · have hin := h₂ c (List.mem_append_right _ (List.mem_singleton.mpr rfl))
        exact List.mem_map_of_mem (List.mem_append_right _ hin)

/-- The search after `n` rounds. -/
structure SeenTo (adj : Adj V E) (x : V) (n : ℕ) (seen front : List (V × List E)) : Prop where
  shortest : ∀ a ∈ seen, Shortest adj x a.2 a.1
  length_le : ∀ a ∈ seen, a.2.length ≤ n
  mem_front : ∀ a, a ∈ front ↔ a ∈ seen ∧ a.2.length = n
  complete : ∀ v q, EdgeWalk adj x q v → q.length ≤ n → v ∈ seen.map Prod.fst

lemma SeenTo.round {n : ℕ} (h : SeenTo adj x n seen front) :
    SeenTo adj x (n + 1) (seen ++ addUnseen seen [] (continuations adj front))
      (addUnseen seen [] (continuations adj front)) := by
  obtain ⟨hnew, _, hall⟩ := addUnseen_spec seen [] (continuations adj front)
  have hcand : ∀ a ∈ addUnseen seen [] (continuations adj front),
      EdgeWalk adj x a.2 a.1 ∧ a.2.length = n + 1 ∧ a.1 ∉ seen.map Prod.fst := by
    intro a ha
    rcases hnew a ha with hnil | ⟨hc, hunseen⟩
    · cases hnil
    · obtain ⟨v, p, e, hv, he, hp⟩ := mem_continuations.mp hc
      obtain ⟨hvs, hlen⟩ := (h.mem_front (v, p)).mp hv
      refine ⟨?_, ?_, hunseen⟩
      · rw [hp]
        exact edgeWalk_concat.mpr ⟨v, (h.shortest _ hvs).1, he⟩
      · rw [hp, List.length_append, List.length_singleton, hlen]
  have hmin : ∀ a ∈ addUnseen seen [] (continuations adj front), Shortest adj x a.2 a.1 := by
    intro a ha
    obtain ⟨hwalk, hlen, hunseen⟩ := hcand a ha
    refine ⟨hwalk, fun q hq => ?_⟩
    by_contra hlt
    exact hunseen (h.complete a.1 q hq (by omega))
  refine ⟨?_, ?_, ?_, ?_⟩
  · intro a ha
    rcases List.mem_append.mp ha with ha | ha
    · exact h.shortest a ha
    · exact hmin a ha
  · intro a ha
    rcases List.mem_append.mp ha with ha | ha
    · exact Nat.le_trans (h.length_le a ha) (Nat.le_succ n)
    · exact Nat.le_of_eq (hcand a ha).2.1
  · intro a
    constructor
    · exact fun ha => ⟨List.mem_append_right _ ha, (hcand a ha).2.1⟩
    · rintro ⟨ha, hlen⟩
      rcases List.mem_append.mp ha with ha | ha
      · have := h.length_le a ha
        omega
      · exact ha
  · intro v q hq hlen
    by_cases hle : q.length ≤ n
    · rw [List.map_append]
      exact List.mem_append_left _ (h.complete v q hq hle)
    · rcases List.eq_nil_or_concat q with rfl | ⟨q', e, rfl⟩
      · simp at hle
      · rw [List.concat_eq_append] at hq hlen hle
        obtain ⟨z, hz, he⟩ := edgeWalk_concat.mp hq
        rw [List.length_append, List.length_singleton] at hlen hle
        obtain ⟨⟨z', p⟩, hzp, rfl⟩ := List.mem_map.mp (h.complete z q' hz (by omega))
        by_cases hp : p.length = n
        · exact hall (v, p ++ [e]) (mem_continuations.mpr
            ⟨z', p, e, (h.mem_front _).mpr ⟨hzp, hp⟩, he, rfl⟩)
        · have hpn := h.length_le _ hzp
          have hwalk := edgeWalk_concat.mpr ⟨z', (h.shortest _ hzp).1, he⟩
          rw [List.map_append]
          refine List.mem_append_left _ (h.complete v (p ++ [e]) hwalk ?_)
          rw [List.length_append, List.length_singleton]
          dsimp only at hpn
          omega

lemma SeenTo.bfs {n : ℕ} (h : SeenTo adj x n seen front) (k : ℕ) :
    ∃ front', SeenTo adj x (n + k) (bfs adj k seen front) front' := by
  induction k generalizing n seen front with
  | zero => exact ⟨front, h⟩
  | succ k ih =>
    obtain ⟨front', h'⟩ := ih h.round
    exact ⟨front', by rwa [Nat.add_right_comm, Nat.add_assoc] at h'⟩

omit [DecidableEq V] in
lemma Shortest.take {p : List E} {y : V} (h : Shortest adj x p y) {i : ℕ} (hi : i ≤ p.length) :
    ∃ z, Shortest adj x (p.take i) z := by
  induction p using List.reverseRecOn generalizing y with
  | nil => exact ⟨y, by simpa using h⟩
  | append_singleton p e ih =>
    by_cases hle : i ≤ p.length
    · obtain ⟨z, _, hz⟩ := h.of_concat
      rw [List.take_append_of_le_length hle]
      exact ih hz hle
    · refine ⟨y, ?_⟩
      rw [List.take_of_length_le]
      · exact h
      · rw [List.length_append, List.length_singleton] at hi ⊢
        omega

omit [DecidableEq V] in
lemma Shortest.length_lt {verts : List V} (hverts : ∀ v, v ∈ verts) {p : List E} {y : V}
    (h : Shortest adj x p y) : p.length < verts.length := by
  have htake : ∀ i, ∃ z, i ≤ p.length → Shortest adj x (p.take i) z := by
    intro i
    by_cases hi : i ≤ p.length
    · obtain ⟨z, hz⟩ := h.take hi
      exact ⟨z, fun _ => hz⟩
    · exact ⟨y, fun hi' => absurd hi' hi⟩
  choose z hz using htake
  have hnodup : ((List.range (p.length + 1)).map z).Nodup := by
    apply List.nodup_range.map_on
    intro i hi j hj he
    rw [List.mem_range] at hi hj
    have hzi := hz i (by omega)
    have hzj := hz j (by omega)
    rw [he] at hzi
    have hlen := hzi.length_eq hzj
    rw [List.length_take, List.length_take] at hlen
    omega
  have hle := (List.subperm_of_subset hnodup (fun v _ => hverts v)).length_le
  rw [List.length_map, List.length_range] at hle
  exact hle

omit [DecidableEq V] in
lemma seenTo_start (adj : Adj V E) (x : V) : SeenTo adj x 0 [(x, [])] [(x, [])] := by
  refine ⟨?_, ?_, ?_, ?_⟩
  · intro a ha
    rw [List.mem_singleton.mp ha]
    exact shortest_nil
  · intro a ha
    rw [List.mem_singleton.mp ha]
    exact le_rfl
  · intro a
    constructor
    · intro ha
      exact ⟨ha, by rw [List.mem_singleton.mp ha]; rfl⟩
    · exact fun ha => ha.1
  · intro v q hq hlen
    rw [List.length_eq_zero_iff.mp (Nat.le_zero.mp hlen), edgeWalk_nil] at hq
    rw [← hq]
    exact List.mem_singleton.mpr rfl

omit [DecidableEq V] in
lemma exists_shortest {y : V} (h : ∃ p, EdgeWalk adj x p y) : ∃ p, Shortest adj x p y := by
  classical
  have hlen : ∃ n, ∃ p, EdgeWalk adj x p y ∧ p.length = n := by
    obtain ⟨p, hp⟩ := h
    exact ⟨p.length, p, hp, rfl⟩
  obtain ⟨p, hp, hpl⟩ := Nat.find_spec hlen
  refine ⟨p, hp, fun q hq => ?_⟩
  rw [hpl]
  exact Nat.find_min' hlen ⟨q, hq, rfl⟩

lemma bfsPath_shortest {verts : List V} (hverts : ∀ v, v ∈ verts) {y : V}
    (h : ∃ p, EdgeWalk adj x p y) : Shortest adj x (bfsPath verts adj x y) y := by
  obtain ⟨front', hs⟩ := (seenTo_start adj x).bfs verts.length
  obtain ⟨p, hp⟩ := exists_shortest h
  have hlt := hp.length_lt hverts
  have hmem := hs.complete y p hp.1 (by omega)
  rw [bfsPath]
  cases hfind : (bfs adj verts.length [(x, [])] [(x, [])]).find? (fun a => a.1 = y) with
  | none =>
    obtain ⟨a, ha, hay⟩ := List.mem_map.mp hmem
    exact absurd (decide_eq_true hay) (List.find?_eq_none.mp hfind a ha)
  | some a =>
    have hay : a.1 = y := by simpa using List.find?_some hfind
    rw [Option.map_some, Option.getD_some, ← hay]
    exact hs.shortest a (List.mem_of_find?_eq_some hfind)

lemma bfsPath_nil {verts : List V} {y : V} (h : ¬ ∃ p, EdgeWalk adj x p y) :
    bfsPath verts adj x y = [] := by
  obtain ⟨front', hs⟩ := (seenTo_start adj x).bfs verts.length
  rw [bfsPath]
  cases hfind : (bfs adj verts.length [(x, [])] [(x, [])]).find? (fun a => a.1 = y) with
  | none => rfl
  | some a =>
    have hay : a.1 = y := by simpa using List.find?_some hfind
    exact absurd ⟨a.2, hay ▸ (hs.shortest a (List.mem_of_find?_eq_some hfind)).1⟩ h

/-- Breadth-first search over all vertices finds shortest walks. -/
theorem isPathFinder_bfsPath {verts : List V} (hverts : ∀ v, v ∈ verts) :
    IsPathFinder (E := E) (bfsPath verts) :=
  ⟨fun _ _ _ h => bfsPath_shortest hverts h, fun _ _ _ h => bfsPath_nil h⟩

/-! ### Parents -/

/-- The contract of a search that gives parents: every other vertex that can be reached from
the root has a parent that is one edge closer. -/
def IsBfs (bfsParents : Adj V E → V → V → Option V) : Prop :=
  ∀ adj root v q, v ≠ root → Shortest adj root q v → ∃ p q' e,
    bfsParents adj root v = some p ∧ (e, v) ∈ adj p ∧ Shortest adj root q' p ∧
      q'.length + 1 = q.length

omit [DecidableEq V] in
/-- A search whose parents for one graph are exchanged. -/
lemma IsBfs.update [DecidableEq (Adj V E)] {bfsParents : Adj V E → V → V → Option V}
    (h : IsBfs bfsParents) {adj : Adj V E} {parents : V → V → Option V}
    (hparents : ∀ root v q, v ≠ root → Shortest adj root q v → ∃ p q' e,
      parents root v = some p ∧ (e, v) ∈ adj p ∧ Shortest adj root q' p ∧
        q'.length + 1 = q.length) :
    IsBfs (Function.update bfsParents adj parents) := by
  intro adj' root v q hv hq
  by_cases hadj : adj' = adj
  · subst hadj
    rw [Function.update_self]
    exact hparents root v q hv hq
  · rw [Function.update_of_ne hadj]
    exact h adj' root v q hv hq

/-- The first vertex with an edge to `v` that is one edge closer to the root. -/
def bfsParent (verts : List V) (adj : Adj V E) (root v : V) : Option V :=
  verts.find? (fun p => (adj p).any (fun a => a.2 = v) &&
    (p = root || !(bfsPath verts adj root p).isEmpty) &&
    (bfsPath verts adj root p).length + 1 = (bfsPath verts adj root v).length)

theorem isBfs_bfsParent {verts : List V} (hverts : ∀ v, v ∈ verts) :
    IsBfs (E := E) (bfsParent verts) := by
  intro adj root v q hv hq
  have hq' := bfsPath_shortest hverts ⟨q, hq.1⟩
  have hlen := hq'.length_eq hq
  have hfound : ∃ p, bfsParent verts adj root v = some p := by
    refine Option.isSome_iff_exists.mp (List.find?_isSome.mpr ?_)
    rcases List.eq_nil_or_concat q with rfl | ⟨q₀, e, rfl⟩
    · exact absurd hq.1 hv.symm
    · rw [List.concat_eq_append] at hq hlen
      obtain ⟨p, he, hp⟩ := hq.of_concat
      have hp' := bfsPath_shortest hverts ⟨q₀, hp.1⟩
      have hlen' := hp'.length_eq hp
      rw [List.length_append, List.length_singleton] at hlen
      refine ⟨p, hverts p, ?_⟩
      simp only [Bool.and_eq_true, Bool.or_eq_true, List.any_eq_true, decide_eq_true_iff,
        Bool.not_eq_true', List.isEmpty_eq_false_iff]
      refine ⟨⟨⟨(e, v), he, rfl⟩, ?_⟩, by omega⟩
      by_cases hroot : p = root
      · exact .inl hroot
      · right
        intro hnil
        rw [hnil] at hp'
        exact hroot hp'.1.symm
  obtain ⟨p, hp⟩ := hfound
  have hpred := List.find?_some hp
  simp only [Bool.and_eq_true, Bool.or_eq_true, List.any_eq_true, decide_eq_true_iff,
    Bool.not_eq_true', List.isEmpty_eq_false_iff] at hpred
  obtain ⟨⟨⟨⟨e, w⟩, he, hw⟩, hreach⟩, hclose⟩ := hpred
  dsimp only at hw
  subst hw
  have hwalk : ∃ q₀, EdgeWalk adj root q₀ p := by
    rcases hreach with rfl | hne
    · exact ⟨[], rfl⟩
    · by_contra hno
      exact hne (bfsPath_nil hno)
  exact ⟨p, _, e, hp, he, bfsPath_shortest hverts hwalk, hclose.trans hlen⟩

end ResSim
