import Mathlib.Data.List.Nodup
import Mathlib.Data.Nat.Basic
import Mathlib.Logic.Function.Basic

/-!
# Disjoint sets

Union-find with path compression and union by rank. `Represents` says which element stands for
the set of each element. Ranks increase along the parents, so `find` recurses no deeper than
there are elements of higher rank.
-/

namespace ResSim

/-- Parents and ranks. A root is its own parent. -/
structure DisjointSets (V : Type) where
  parent : V → V
  rank : V → ℕ

namespace DisjointSets

variable {V : Type} [DecidableEq V]

/-- Every element in a set of its own. -/
def makeSets : DisjointSets V := ⟨id, fun _ => 0⟩

/-- The root of the set of an element, which becomes the parent of all elements on the way;
`none` if the recursion is deeper than `fuel`. -/
def find : ℕ → V → DisjointSets V → Option (V × DisjointSets V)
  | 0, _, _ => none
  | fuel + 1, x, s =>
    if s.parent x = x then some (x, s)
    else do
      let (root, s) ← find fuel (s.parent x) s
      some (root, { s with parent := Function.update s.parent x root })

/-- Merges the sets of two roots. The root of higher rank stays one; `none` if it is a tie and
the roots are the same. -/
def link (x y : V) (s : DisjointSets V) : Option (V × DisjointSets V) :=
  if s.rank y < s.rank x then some (x, { s with parent := Function.update s.parent y x })
  else if s.rank x < s.rank y then some (y, { s with parent := Function.update s.parent x y })
  else if x ≠ y then
    some (x, ⟨Function.update s.parent y x, Function.update s.rank x (s.rank x + 1)⟩)
  else none

/-- `rep x` is the root of the set of `x`. -/
structure Represents (s : DisjointSets V) (rep : V → V) : Prop where
  rep_parent : ∀ x, rep (s.parent x) = rep x
  parent_eq_iff : ∀ x, s.parent x = x ↔ rep x = x
  rep_rep : ∀ x, rep (rep x) = rep x
  rank_lt : ∀ x, s.parent x ≠ x → s.rank x < s.rank (s.parent x)

/-- The representatives after the sets of the roots `x` and `y` have become that of `root`. -/
def merge (rep : V → V) (x y root : V) (v : V) : V :=
  if rep v = x ∨ rep v = y then root else rep v

/-- The number of elements of higher rank. -/
def above (elems : List V) (s : DisjointSets V) (x : V) : ℕ :=
  (elems.filter (fun v => s.rank x < s.rank v)).length

variable {s : DisjointSets V} {rep : V → V} {elems : List V} {x y root : V}

omit [DecidableEq V] in
lemma represents_makeSets : Represents (makeSets : DisjointSets V) id := by
  constructor <;> simp [makeSets]

section Find

omit [DecidableEq V] in
lemma above_le : above elems s x ≤ elems.length := List.length_filter_le _ _

omit [DecidableEq V] in
lemma above_lt (hall : ∀ v, v ∈ elems) (hlt : s.rank x < s.rank y) :
    above elems s y < above elems s x := by
  have hfilter : elems.filter (fun v => s.rank y < s.rank v) =
      (elems.filter (fun v => s.rank x < s.rank v)).filter (fun v => s.rank y < s.rank v) := by
    rw [List.filter_filter]
    apply List.filter_congr
    intro v _
    simp
    omega
  unfold above
  rw [hfilter]
  apply List.length_filter_lt_length_iff_exists.mpr
  exact ⟨y, by simp [hall y, hlt], by simp⟩

omit [DecidableEq V] in
lemma Represents.rank_lt_rep (h : Represents s rep) (hall : ∀ v, v ∈ elems)
    (hx : s.parent x ≠ x) : s.rank x < s.rank (rep x) := by
  induction hn : above elems s x using Nat.strong_induction_on generalizing x with
  | _ n ih =>
    have hlt := h.rank_lt x hx
    by_cases hp : s.parent (s.parent x) = s.parent x
    · have hrep := (h.parent_eq_iff (s.parent x)).mp hp
      rw [h.rep_parent] at hrep
      rwa [hrep]
    · have := ih _ (hn ▸ above_lt hall hlt) hp rfl
      rw [h.rep_parent] at this
      omega

lemma Represents.compress (h : Represents s rep) (hall : ∀ v, v ∈ elems) (hx : s.parent x ≠ x) :
    Represents { s with parent := Function.update s.parent x (rep x) } rep where
  rep_parent v := by
    by_cases hv : v = x
    · simp [hv, h.rep_rep]
    · simp [hv, h.rep_parent]
  parent_eq_iff v := by
    by_cases hv : v = x
    · simp [hv]
    · simp [hv, h.parent_eq_iff]
  rep_rep := h.rep_rep
  rank_lt v := by
    by_cases hv : v = x
    · intro _
      simpa [hv] using h.rank_lt_rep hall hx
    · simpa [hv] using h.rank_lt v

/-- `find` returns the representative and only compresses paths. -/
theorem Represents.find (h : Represents s rep) (hall : ∀ v, v ∈ elems) {fuel : ℕ}
    (hfuel : above elems s x < fuel) :
    ∃ s', DisjointSets.find fuel x s = some (rep x, s') ∧ Represents s' rep ∧ s'.rank = s.rank := by
  induction fuel generalizing x with
  | zero => omega
  | succ fuel ih =>
    by_cases hx : s.parent x = x
    · refine ⟨s, ?_, h, rfl⟩
      rw [DisjointSets.find, if_pos hx, (h.parent_eq_iff x).mp hx]
    · have hlt := above_lt hall (h.rank_lt x hx)
      obtain ⟨s', hfind, h', hrank⟩ := ih (x := s.parent x) (by omega)
      have hx' : s'.parent x ≠ x := by
        rw [ne_eq, h'.parent_eq_iff, ← h.parent_eq_iff]
        exact hx
      refine ⟨_, ?_, h'.compress hall hx', hrank⟩
      rw [DisjointSets.find, if_neg hx, hfind, h.rep_parent]
      rfl

end Find

section Link

/-- The root `y` may become a child of the root `x` if it is made to have a lower rank. -/
lemma Represents.attach (h : Represents s rep) (hx : rep x = x) (hy : rep y = y) (hne : x ≠ y)
    {rank : V → ℕ} (hrank : ∀ v, v ≠ x → rank v = s.rank v) (hle : s.rank x ≤ rank x)
    (hlt : s.rank y < rank x) :
    Represents ⟨Function.update s.parent y x, rank⟩ (merge rep x y x) where
  rep_parent v := by
    by_cases hv : v = y
    · simp [merge, hv, hx, hy]
    · simp [merge, hv, h.rep_parent]
  parent_eq_iff v := by
    by_cases hv : v = y
    · simp [merge, hv, hy]
    · by_cases hvx : rep v = x
      · have : x = v ↔ rep v = v := by rw [hvx]
        simp [merge, hv, hvx, h.parent_eq_iff]
      · have hxv : x ≠ v := fun heq => hvx (heq ▸ hx)
        by_cases hvy : rep v = y
        · simp [merge, hv, hvy, h.parent_eq_iff, hxv, Ne.symm hv]
        · simp [merge, hv, hvx, hvy, h.parent_eq_iff]
  rep_rep v := by
    by_cases hv : rep v = x ∨ rep v = y
    · simp [merge, hv, hx]
    · simp [merge, hv, h.rep_rep]
  rank_lt v := by
    by_cases hv : v = y
    · intro _
      simpa [hv, hrank y (Ne.symm hne)] using hlt
    · intro hp
      simp only [Function.update_of_ne hv] at hp ⊢
      have hvx : v ≠ x := fun heq => hp (heq ▸ (h.parent_eq_iff x).mpr hx)
      have := h.rank_lt v hp
      rw [hrank v hvx]
      by_cases hpx : s.parent v = x
      · rw [hpx] at this ⊢
        omega
      · rw [hrank _ hpx]
        exact this

lemma merge_eq_root {v : V} (hroot : root = x ∨ root = y) :
    merge rep x y root v = root ↔ rep v = x ∨ rep v = y := by
  unfold merge
  split
  · rename_i hv
    exact iff_of_true rfl hv
  · rename_i hv
    apply iff_of_false _ hv
    intro heq
    rw [heq] at hv
    exact hv hroot

/-- A root that is not merged keeps its elements. -/
lemma merge_eq_of_ne {r v : V} (hrep : ∀ v, rep (rep v) = rep v) (hr : merge rep x y root r = r)
    (hne : r ≠ root) : merge rep x y root v = r ↔ rep v = r := by
  unfold merge at *
  by_cases hv : rep v = x ∨ rep v = y
  · rw [if_pos hv]
    apply iff_of_false hne.symm
    rintro rfl
    rw [hrep, if_pos hv] at hr
    exact hne hr.symm
  · rw [if_neg hv]

lemma merge_comm : merge rep x y root = merge rep y x root := by
  funext v
  simp only [merge, or_comm]

/-- Two different roots are merged into one of them. -/
theorem Represents.link (h : Represents s rep) (hx : rep x = x) (hy : rep y = y) (hne : x ≠ y) :
    ∃ root s', DisjointSets.link x y s = some (root, s') ∧ (root = x ∨ root = y) ∧
      Represents s' (merge rep x y root) := by
  unfold DisjointSets.link
  split
  · exact ⟨x, _, rfl, .inl rfl, h.attach hx hy hne (fun _ _ => rfl) le_rfl ‹_›⟩
  · split
    · refine ⟨y, _, rfl, .inr rfl, ?_⟩
      rw [merge_comm]
      exact h.attach hy hx hne.symm (fun _ _ => rfl) le_rfl ‹_›
    · refine ⟨x, _, rfl, .inl rfl, h.attach hx hy hne ?_ ?_ ?_⟩
      · exact fun v hv => Function.update_of_ne hv _ _
      · simp
      · simp
        omega

/-- The roots. -/
def roots (elems : List V) (rep : V → V) : List V := elems.filter (fun v => rep v = v)

lemma length_roots_merge (hn : elems.Nodup) (hall : ∀ v, v ∈ elems) (hx : rep x = x)
    (hy : rep y = y) (hne : x ≠ y) (hroot : root = x ∨ root = y) :
    (roots elems (merge rep x y root)).length + 1 = (roots elems rep).length := by
  have hone : ∀ x y, rep x = x → rep y = y → x ≠ y →
      (roots elems (merge rep x y x)).length + 1 = (roots elems rep).length := by
    intro x y hx hy hne
    have hroots : roots elems (merge rep x y x) = (roots elems rep).erase y := by
      rw [roots, roots, (hn.filter _).erase_eq_filter, List.filter_filter]
      apply List.filter_congr
      intro v _
      by_cases hv : v = y
      · simp [merge, hv, hy, hne]
      · by_cases hvx : rep v = x
        · simp [merge, hv, hvx]
        · have hxv : x ≠ v := fun heq => hvx (heq ▸ hx)
          by_cases hvy : rep v = y
          · simp [merge, hvy, hxv, Ne.symm hv]
          · simp [merge, hv, hvx, hvy]
    have hmem : y ∈ roots elems rep := by simp [roots, hall, hy]
    have := List.length_pos_of_mem hmem
    rw [hroots, List.length_erase_of_mem hmem]
    omega
  rcases hroot with rfl | rfl
  · exact hone _ y hx hy hne
  · rw [merge_comm]
    exact hone _ x hy hx hne.symm

end Link

end DisjointSets

end ResSim
