import Mathlib.Data.List.Dedup
import Mathlib.Data.List.Perm.Subperm

/-!
# Neighbour lists

A multigraph in the form of the list of neighbours of every vertex. A link is described by what it
adds to the lists, so that taking it away is the same relation read backwards; splitting a link at
a third vertex is made of the two.
-/

namespace ResSim

variable {α : Type} [DecidableEq α]

/-- Every link is listed at both ends, and no vertex is linked to itself. -/
structure IsMultigraph (g : α → List α) : Prop where
  symm : ∀ x y, (g x).count y = (g y).count x
  loopless : ∀ x, x ∉ g x

/-- `g'` has the links of `g` and one more, between `i` and `j`. -/
def OneMore (g g' : α → List α) (i j : α) : Prop :=
  ∀ x, (g' x).Perm ((if x = i then [j] else []) ++ ((if x = j then [i] else []) ++ g x))

/-- In `g'` the link of `g` between `i` and `j` is replaced by links of `v` to both of them. -/
def Split (g g' : α → List α) (i j v : α) : Prop :=
  ∃ g₁ g₂, OneMore g₁ g i j ∧ OneMore g₁ g₂ i v ∧ OneMore g₂ g' j v

variable {g g' : α → List α} {i j v w x y : α}

lemma IsMultigraph.mem_comm (h : IsMultigraph g) : y ∈ g x ↔ x ∈ g y := by
  rw [← List.count_pos_iff, h.symm, List.count_pos_iff]

lemma isMultigraph_nil : IsMultigraph fun _ : α => [] :=
  ⟨fun _ _ => rfl, fun _ => List.not_mem_nil⟩

/-! ### One link more -/

lemma OneMore.length (h : OneMore g g' i j) (x : α) :
    (g' x).length = (g x).length + (if x = i then 1 else 0) + (if x = j then 1 else 0) := by
  rw [(h x).length_eq, List.length_append, List.length_append]
  split <;> split <;> simp only [List.length_singleton, List.length_nil] <;> omega

lemma OneMore.mem_iff (h : OneMore g g' i j) :
    y ∈ g' x ↔ y ∈ g x ∨ (x = i ∧ y = j) ∨ (x = j ∧ y = i) := by
  rw [(h x).mem_iff, List.mem_append, List.mem_append, List.mem_ite_nil_right,
    List.mem_ite_nil_right, List.mem_singleton, List.mem_singleton, ← or_assoc, or_comm]

lemma OneMore.count (h : OneMore g g' i j) (x y : α) :
    (g' x).count y = (g x).count y + (if x = i ∧ y = j then 1 else 0) +
      (if x = j ∧ y = i then 1 else 0) := by
  have hone : ∀ (b : α) (p : Prop) [Decidable p],
      (if p then [b] else []).count y = if p ∧ y = b then 1 else 0 := by
    intro b p _
    by_cases hp : p
    · by_cases hy : y = b
      · simp [hp, hy]
      · simp [hp, hy, List.count_eq_zero]
    · simp [hp]
  rw [(h x).count_eq, List.count_append, List.count_append, hone, hone]
  omega

/-- Links between different vertices may come and go. -/
lemma OneMore.isMultigraph_iff (h : OneMore g g' i j) (hij : i ≠ j) :
    IsMultigraph g' ↔ IsMultigraph g := by
  have hsymm : ∀ x y, (g' x).count y = (g' y).count x ↔ (g x).count y = (g y).count x := by
    intro x y
    have hi : (if y = i ∧ x = j then 1 else 0) = if x = j ∧ y = i then 1 else 0 :=
      if_congr and_comm rfl rfl
    have hj : (if y = j ∧ x = i then 1 else 0) = if x = i ∧ y = j then 1 else 0 :=
      if_congr and_comm rfl rfl
    rw [h.count, h.count, hi, hj]
    omega
  have hloop : ∀ x, x ∉ g' x ↔ x ∉ g x := by
    intro x
    rw [h.mem_iff, not_or, and_iff_left]
    rintro (⟨rfl, hx⟩ | ⟨rfl, hx⟩)
    · exact hij hx
    · exact hij hx.symm
  exact ⟨fun hg => ⟨fun x y => (hsymm x y).mp (hg.symm x y), fun x => (hloop x).mp (hg.loopless x)⟩,
    fun hg => ⟨fun x y => (hsymm x y).mpr (hg.symm x y), fun x => (hloop x).mpr (hg.loopless x)⟩⟩

lemma OneMore.nodup_of (h : OneMore g g' i j) (hn : ∀ x, (g' x).Nodup) (x : α) : (g x).Nodup := by
  have happ := (h x).nodup_iff.mp (hn x)
  exact (happ.of_append_right).of_append_right

lemma OneMore.nodup (h : OneMore g g' i j) (hn : ∀ x, (g x).Nodup) (hij : i ≠ j) (hj : j ∉ g i)
    (hi : i ∉ g j) (x : α) : (g' x).Nodup := by
  rw [(h x).nodup_iff]
  by_cases hxi : x = i
  · subst hxi
    simpa [hij] using ⟨hj, hn x⟩
  · by_cases hxj : x = j
    · subst hxj
      simpa [hxi] using ⟨hi, hn x⟩
    · simpa [hxi, hxj] using hn x

/-! ### A split link -/

lemma Split.length (h : Split g g' i j v) (x : α) :
    (g' x).length = (g x).length + if x = v then 2 else 0 := by
  obtain ⟨g₁, g₂, h₁, h₂, h₃⟩ := h
  have htwo : (if x = v then 2 else 0) = (if x = v then 1 else 0) + if x = v then 1 else 0 := by
    split <;> rfl
  rw [h₃.length, h₂.length, h₁.length, htwo]
  omega

/-- What is linked after a split was linked before or is linked to `v` now. -/
lemma Split.mem_of_mem (h : Split g g' i j v) (hy : y ∈ g' x) :
    y ∈ g x ∨ (x = v ∧ (y = i ∨ y = j)) ∨ (y = v ∧ (x = i ∨ x = j)) := by
  obtain ⟨g₁, g₂, h₁, h₂, h₃⟩ := h
  rw [h₃.mem_iff, h₂.mem_iff] at hy
  rcases hy with (hy | ⟨hx, hy⟩ | ⟨hx, hy⟩) | ⟨hx, hy⟩ | ⟨hx, hy⟩
  · exact .inl (h₁.mem_iff.mpr (.inl hy))
  · exact .inr (.inr ⟨hy, .inl hx⟩)
  · exact .inr (.inl ⟨hx, .inl hy⟩)
  · exact .inr (.inr ⟨hy, .inr hx⟩)
  · exact .inr (.inl ⟨hx, .inr hy⟩)

/-- Only the ends of the link that was split are not linked as before. -/
lemma Split.mem_iff (h : Split g g' i j v) (hij : ¬(x = i ∧ y = j)) (hji : ¬(x = j ∧ y = i)) :
    y ∈ g' x ↔ y ∈ g x ∨ (x = v ∧ (y = i ∨ y = j)) ∨ (y = v ∧ (x = i ∨ x = j)) := by
  refine ⟨h.mem_of_mem, fun hy => ?_⟩
  obtain ⟨g₁, g₂, h₁, h₂, h₃⟩ := h
  rw [h₃.mem_iff, h₂.mem_iff]
  rcases hy with hy | ⟨hx, hy | hy⟩ | ⟨hy, hx | hx⟩
  · exact .inl (.inl ((h₁.mem_iff.mp hy).resolve_right (not_or.mpr ⟨hij, hji⟩)))
  · exact .inl (.inr (.inr ⟨hx, hy⟩))
  · exact .inr (.inr ⟨hx, hy⟩)
  · exact .inl (.inr (.inl ⟨hx, hy⟩))
  · exact .inr (.inl ⟨hx, hy⟩)

lemma Split.isMultigraph (h : Split g g' i j v) (hg : IsMultigraph g) (hij : i ≠ j) (hi : i ≠ v)
    (hj : j ≠ v) : IsMultigraph g' := by
  obtain ⟨g₁, g₂, h₁, h₂, h₃⟩ := h
  exact (h₃.isMultigraph_iff hj).mpr
    ((h₂.isMultigraph_iff hi).mpr ((h₁.isMultigraph_iff hij).mp hg))

/-- Splitting at a vertex that is linked to neither end keeps the graph simple. -/
lemma Split.nodup (h : Split g g' i j v) (hg : IsMultigraph g) (hn : ∀ x, (g x).Nodup)
    (hij : i ≠ j) (hi : i ≠ v) (hj : j ≠ v) (hiv : i ∉ g v) (hjv : j ∉ g v) (x : α) :
    (g' x).Nodup := by
  obtain ⟨g₁, g₂, h₁, h₂, h₃⟩ := h
  have hsub : ∀ {x y}, y ∈ g₁ x → y ∈ g x := fun hy => h₁.mem_iff.mpr (.inl hy)
  have hvi : v ∉ g₁ i := fun hm => hiv (hg.mem_comm.mp (hsub hm))
  have hvj : v ∉ g₁ j := fun hm => hjv (hg.mem_comm.mp (hsub hm))
  have hn₂ := h₂.nodup (h₁.nodup_of hn) hi hvi (fun hm => hiv (hsub hm))
  refine h₃.nodup hn₂ hj (fun hm => ?_) (fun hm => ?_) x
  · rcases h₂.mem_iff.mp hm with hm | ⟨rfl, _⟩ | ⟨rfl, _⟩
    · exact hvj hm
    · exact hij rfl
    · exact hj rfl
  · rcases h₂.mem_iff.mp hm with hm | ⟨rfl, _⟩ | ⟨_, rfl⟩
    · exact hjv (hsub hm)
    · exact hi rfl
    · exact hij rfl

/-! ### Counting neighbours -/

/-- A vertex with more neighbours than `v` has one that is neither `v` nor linked to it. -/
lemma IsMultigraph.exists_beyond (h : IsMultigraph g) (hw : w ∉ g v)
    (hlt : (g v).dedup.length < (g w).dedup.length) : ∃ y ∈ g w, y ≠ v ∧ y ∉ g v := by
  by_contra hall
  push Not at hall
  have hsub : (g w).dedup ⊆ (g v).dedup := by
    intro y hy
    rw [List.mem_dedup] at hy ⊢
    refine hall y hy ?_
    rintro rfl
    exact hw (h.mem_comm.mp hy)
  have hle := ((List.nodup_dedup (g w)).subperm hsub).length_le
  omega

/-- A vertex with few neighbours is not linked to all others. -/
lemma exists_not_neighbour {vs : List α} (hn : vs.Nodup) (hlt : (g v).length + 1 < vs.length) :
    ∃ w ∈ vs, w ≠ v ∧ w ∉ g v := by
  by_contra hall
  push Not at hall
  have hsub : vs ⊆ v :: g v := by
    intro w hw
    by_cases hwv : w = v
    · exact hwv ▸ List.mem_cons_self
    · exact List.mem_cons_of_mem _ (hall w hw hwv)
  have hle := (hn.subperm hsub).length_le
  rw [List.length_cons] at hle
  omega

end ResSim
