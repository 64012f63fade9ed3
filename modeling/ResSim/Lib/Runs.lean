import Mathlib.Data.List.Destutter
import Mathlib.Data.List.Perm.Subperm
import Mathlib.Data.List.Sort

/-!
# Runs of equal elements

A list is contiguous if there are only equal elements between two equal elements, so that every
element has one run. A stable sort makes the labels of a list contiguous exactly if it never
puts an element between two elements that have another label.
-/

namespace ResSim

variable {α β : Type} {a b c : β} {l : List β}

/-- Between equal elements there are only equal elements. -/
def Contiguous (l : List β) : Prop := ∀ a b, [a, b, a].Sublist l → b = a

lemma contiguous_reverse : Contiguous l.reverse ↔ Contiguous l := by
  have hrev : ∀ a b : β, [a, b, a].Sublist l.reverse ↔ [a, b, a].Sublist l := by
    intro a b
    rw [← List.reverse_sublist, List.reverse_reverse]
    rfl
  simp only [Contiguous, hrev]

lemma contiguous_cons : Contiguous (a :: l) ↔
    Contiguous l ∧ ∀ b, [b, a].Sublist l → b = a := by
  constructor
  · intro h
    exact ⟨fun c b hs => h c b (hs.cons a), fun b hs => h a b (hs.cons_cons a)⟩
  · rintro ⟨hl, ha⟩ c b hs
    cases hs with
    | cons _ hs => exact hl c b hs
    | cons_cons _ hs => exact ha b hs

/-- Three elements of an image in their order. -/
lemma triple_sublist_map_iff {f : α → β} {l : List α} : [a, b, c].Sublist (l.map f) ↔
    ∃ x y z, [x, y, z].Sublist l ∧ f x = a ∧ f y = b ∧ f z = c := by
  rw [List.sublist_map_iff]
  constructor
  · rintro ⟨l', hl', heq⟩
    obtain ⟨x, y, z, rfl⟩ := List.length_eq_three.mp
      (show l'.length = 3 by simpa using (congrArg List.length heq).symm)
    simp only [List.map_cons, List.map_nil, List.cons.injEq, and_true] at heq
    exact ⟨x, y, z, hl', heq.1.symm, heq.2.1.symm, heq.2.2.symm⟩
  · rintro ⟨x, y, z, hs, rfl, rfl, rfl⟩
    exact ⟨[x, y, z], hs, rfl⟩

lemma contiguous_map {f : α → β} (hf : Function.Injective f) {l : List α} :
    Contiguous (l.map f) ↔ Contiguous l := by
  constructor
  · intro h a b hs
    exact hf (h (f a) (f b) (hs.map f))
  · intro h c d hs
    obtain ⟨x, y, z, hs', rfl, rfl, hzx⟩ := triple_sublist_map_iff.mp hs
    obtain rfl := hf hzx
    exact congrArg f (h z y hs')

/-- What is left of a contiguous list of options is contiguous. -/
lemma Contiguous.filterMap {f : α → Option β} {l : List α} (h : Contiguous (l.map f)) :
    Contiguous (l.filterMap f) := by
  have hsub : ((l.filterMap f).map some).Sublist (l.map f) := by
    clear h
    induction l with
    | nil => exact .slnil
    | cons a l ih =>
      cases hf : f a with
      | none =>
        rw [List.filterMap_cons_none hf, List.map_cons]
        exact ih.cons _
      | some b =>
        rw [List.filterMap_cons_some hf, List.map_cons, List.map_cons, hf]
        exact ih.cons_cons _
  intro a b hs
  exact Option.some.inj (h (some a) (some b) ((hs.map some).trans hsub))

section Destutter

variable [DecidableEq β]

lemma mem_destutter'_ne : c ∈ l.destutter' (· ≠ ·) a ↔ c = a ∨ c ∈ l := by
  induction l generalizing a with
  | nil => simp
  | cons b l ih =>
    by_cases hab : a = b
    · rw [List.destutter'_cons_neg _ (not_not.mpr hab), ih, List.mem_cons, hab]
      tauto
    · rw [List.destutter'_cons_pos _ hab, List.mem_cons, ih, List.mem_cons]

/-- A list is contiguous if the elements of its runs are different. -/
lemma nodup_destutter'_iff : (l.destutter' (· ≠ ·) a).Nodup ↔ Contiguous (a :: l) := by
  induction l generalizing a with
  | nil =>
    rw [List.destutter'_nil, contiguous_cons]
    simp [Contiguous]
  | cons b l ih =>
    by_cases hab : a = b
    · subst hab
      rw [List.destutter'_cons_neg _ (not_not.mpr rfl), ih, contiguous_cons (l := a :: l)]
      refine ⟨fun h => ⟨h, fun c hs => ?_⟩, fun h => h.1⟩
      cases hs with
      | cons _ hs => exact (contiguous_cons.mp h).2 c hs
      | cons_cons _ hs => rfl
    · rw [List.destutter'_cons_pos _ hab, List.nodup_cons, ih, contiguous_cons (l := b :: l),
        and_comm, mem_destutter'_ne, ← List.mem_cons]
      refine and_congr_right fun _ => ?_
      constructor
      · intro hmem c hs
        exact absurd (hs.subset (by simp)) hmem
      · intro h hmem
        have hl : a ∈ l := (List.mem_cons.mp hmem).resolve_left hab
        exact hab (h b ((List.singleton_sublist.mpr hl).cons_cons b)).symm

lemma nodup_destutter_iff : (l.destutter (· ≠ ·)).Nodup ↔ Contiguous l := by
  cases l with
  | nil => simp [Contiguous]
  | cons a l => rw [List.destutter_cons', nodup_destutter'_iff]

lemma mem_destutter_ne : c ∈ l.destutter (· ≠ ·) ↔ c ∈ l := by
  cases l with
  | nil => simp
  | cons a l => rw [List.destutter_cons', mem_destutter'_ne, List.mem_cons]

/-- A list is contiguous if every element heads one run. -/
lemma count_destutter_iff [BEq β] [LawfulBEq β] :
    (∀ c ∈ l, (l.destutter (· ≠ ·)).count c = 1) ↔ Contiguous l := by
  rw [← nodup_destutter_iff, List.nodup_iff_count_le_one]
  constructor
  · intro h c
    by_cases hc : c ∈ l
    · exact (h c hc).le
    · rw [List.count_eq_zero_of_not_mem (fun hd => hc (mem_destutter_ne.mp hd))]
      exact Nat.zero_le 1
  · intro h c hc
    exact le_antisymm (h c) (List.count_pos_iff.mpr (mem_destutter_ne.mpr hc))

end Destutter

/-! ### Stable sorts -/

section Stable

variable {le : α → α → Bool} {x y z : α × ℕ} {S : List (α × ℕ)}

/-- A stable sort puts `x` before `y`, where the second component is the place in the list. -/
def Precedes (le : α → α → Bool) (x y : α × ℕ) : Prop :=
  le x.1 y.1 ∧ (le y.1 x.1 → x.2 < y.2)

lemma Precedes.asymm (h : Precedes le x y) : ¬ Precedes le y x := by
  intro h'
  exact lt_asymm (h.2 h'.1) (h'.2 h.1)

lemma Precedes.trans (htrans : ∀ a b c, le a b → le b c → le a c) (h : Precedes le x y)
    (h' : Precedes le y z) : Precedes le x z := by
  refine ⟨htrans _ _ _ h.1 h'.1, fun hzx => ?_⟩
  exact (h.2 (htrans _ _ _ h'.1 hzx)).trans (h'.2 (htrans _ _ _ hzx h.1))

/-- In a list that is in order, three elements stand in their order. -/
lemma triple_sublist_iff (htrans : ∀ a b c, le a b → le b c → le a c)
    (hS : S.Pairwise (Precedes le)) : [x, y, z].Sublist S ↔
      x ∈ S ∧ y ∈ S ∧ z ∈ S ∧ Precedes le x y ∧ Precedes le y z := by
  constructor
  · intro hs
    have hpair := hS.sublist hs
    simp only [List.pairwise_cons, List.mem_cons, List.not_mem_nil, or_false, forall_eq_or_imp,
      forall_eq] at hpair
    exact ⟨hs.subset (by simp), hs.subset (by simp), hs.subset (by simp), hpair.1.1, hpair.2.1⟩
  · rintro ⟨hx, hy, hz, hxy, hyz⟩
    have hanti : Std.Antisymm (Precedes le) := ⟨fun a b h h' => absurd h' h.asymm⟩
    have hxz := hxy.trans htrans hyz
    have hpair : [x, y, z].Pairwise (Precedes le) := by
      simp [hxy, hxz, hyz]
    have hnodup : [x, y, z].Nodup := by
      refine hpair.imp fun {a b} hab heq => ?_
      subst heq
      exact hab.asymm hab
    refine List.sublist_of_subperm_of_pairwise (List.subperm_of_subset hnodup ?_) hpair hS
    simp [hx, hy, hz]

/-- The decorated list in the order of the sort. -/
lemma pairwise_mergeSort_zipIdx (htrans : ∀ a b c, le a b → le b c → le a c)
    (htotal : ∀ a b, le a b || le b a) (l : List α) :
    (l.zipIdx.mergeSort (List.zipIdxLE le)).Pairwise (Precedes le) := by
  have hsorted := List.pairwise_mergeSort (List.zipIdxLE_trans htrans)
    (List.zipIdxLE_total htotal) l.zipIdx
  have hplaces : (l.zipIdx.mergeSort (List.zipIdxLE le)).Pairwise (fun x y => x.2 ≠ y.2) := by
    rw [← List.pairwise_map (f := Prod.snd) (R := (· ≠ ·))]
    have hnodup : (l.zipIdx.map Prod.snd).Nodup := by
      rw [List.zipIdx_map_snd]
      exact List.nodup_range'
    exact ((List.mergeSort_perm _ _).map Prod.snd).nodup_iff.mpr hnodup
  refine (hsorted.and hplaces).imp fun {x y} h => ?_
  obtain ⟨hle, hne⟩ := h
  unfold List.zipIdxLE at hle
  by_cases hxy : le x.1 y.1
  · rw [if_pos hxy] at hle
    refine ⟨hxy, fun hyx => ?_⟩
    rw [if_pos hyx, decide_eq_true_eq] at hle
    exact lt_of_le_of_ne hle hne
  · rw [if_neg hxy] at hle
    cases hle

/-- Three elements stand in a stably sorted list in the order of the sort. -/
lemma triple_sublist_mergeSort_iff (htrans : ∀ a b c, le a b → le b c → le a c)
    (htotal : ∀ a b, le a b || le b a) {l : List α} {a b c : α} :
    [a, b, c].Sublist (l.mergeSort le) ↔ ∃ x ∈ l.zipIdx, ∃ y ∈ l.zipIdx, ∃ z ∈ l.zipIdx,
      Precedes le x y ∧ Precedes le y z ∧ x.1 = a ∧ y.1 = b ∧ z.1 = c := by
  have hS := pairwise_mergeSort_zipIdx htrans htotal l
  rw [← List.mergeSort_zipIdx, triple_sublist_map_iff]
  constructor
  · rintro ⟨x, y, z, hs, hlabels⟩
    obtain ⟨hx, hy, hz, hxy, hyz⟩ := (triple_sublist_iff htrans hS).mp hs
    exact ⟨x, List.mem_mergeSort.mp hx, y, List.mem_mergeSort.mp hy, z, List.mem_mergeSort.mp hz,
      hxy, hyz, hlabels⟩
  · rintro ⟨x, hx, y, hy, z, hz, hxy, hyz, hlabels⟩
    exact ⟨x, y, z, (triple_sublist_iff htrans hS).mpr ⟨List.mem_mergeSort.mpr hx,
      List.mem_mergeSort.mpr hy, List.mem_mergeSort.mpr hz, hxy, hyz⟩, hlabels⟩

/-- The labels of a sorted list are contiguous if no element is put between two elements of
another label. -/
theorem contiguous_mergeSort_iff (htrans : ∀ a b c, le a b → le b c → le a c)
    (htotal : ∀ a b, le a b || le b a) (f : α → β) (l : List α) :
    Contiguous ((l.mergeSort le).map f) ↔ ∀ x ∈ l.zipIdx, ∀ y ∈ l.zipIdx, ∀ z ∈ l.zipIdx,
      Precedes le x y → Precedes le y z → f x.1 = f z.1 → f y.1 = f x.1 := by
  constructor
  · intro h x hx y hy z hz hxy hyz hxz
    have hs := (triple_sublist_mergeSort_iff htrans htotal).mpr
      ⟨x, hx, y, hy, z, hz, hxy, hyz, rfl, rfl, rfl⟩
    exact h (f x.1) (f y.1) (triple_sublist_map_iff.mpr ⟨_, _, _, hs, rfl, rfl, hxz.symm⟩)
  · intro h a b hs
    obtain ⟨a', b', c', hs', rfl, rfl, hca⟩ := triple_sublist_map_iff.mp hs
    obtain ⟨x, hx, y, hy, z, hz, hxy, hyz, rfl, rfl, rfl⟩ :=
      (triple_sublist_mergeSort_iff htrans htotal).mp hs'
    exact h x hx y hy z hz hxy hyz hca.symm

end Stable

end ResSim
