import Mathlib.Data.List.Sort

/-!
# Stable sorting by a key

A stable sort keeps the order of elements with one key. So lists that agree for each key have
the same sorted list.
-/

namespace ResSim

variable {α κ : Type} [DecidableEq κ] {key : α → κ} {le : α → α → Prop} {A B : List α}

lemma eq_of_filter_key_eq (hanti : ∀ a b, le a b → le b a → key a = key b)
    (hA : A.Pairwise le) (hB : B.Pairwise le)
    (h : ∀ k, A.filter (fun a => key a = k) = B.filter (fun a => key a = k)) : A = B := by
  have hmem : ∀ {A B : List α}, (∀ k, A.filter (fun a => key a = k) =
      B.filter (fun a => key a = k)) → ∀ a ∈ A, a ∈ B := by
    intro A B h a ha
    have hin : a ∈ A.filter (fun b => key b = key a) :=
      List.mem_filter.mpr ⟨ha, decide_eq_true rfl⟩
    rw [h] at hin
    exact (List.mem_filter.mp hin).1
  induction A generalizing B with
  | nil =>
    symm
    apply List.eq_nil_iff_forall_not_mem.mpr
    intro b hb
    exact List.not_mem_nil (hmem (fun k => (h k).symm) b hb)
  | cons a A ih =>
    cases B with
    | nil => exact absurd (hmem h a List.mem_cons_self) List.not_mem_nil
    | cons b B =>
      obtain ⟨ha, hA'⟩ := List.pairwise_cons.mp hA
      obtain ⟨hb, hB'⟩ := List.pairwise_cons.mp hB
      have hkey : key a = key b := by
        rcases List.mem_cons.mp (hmem h a List.mem_cons_self) with rfl | hab
        · rfl
        · rcases List.mem_cons.mp (hmem (fun k => (h k).symm) b List.mem_cons_self) with rfl | hba
          · rfl
          · exact hanti a b (ha b hba) (hb a hab)
      have hhead := h (key a)
      rw [List.filter_cons_of_pos (by simp), List.filter_cons_of_pos (by simp [hkey]),
        List.cons.injEq] at hhead
      obtain ⟨rfl, _⟩ := hhead
      refine congrArg (a :: ·) (ih hA' hB' fun k => ?_)
      have hk := h k
      by_cases hak : key a = k
      · simpa [hak] using hk
      · simpa [hak] using hk

variable [DecidableRel le]

lemma filter_key_insertionSort (hkey : ∀ a b, key a = key b → le a b) (l : List α) (k : κ) :
    (l.insertionSort le).filter (fun a => key a = k) = l.filter (fun a => key a = k) := by
  have hpair : (l.filter (fun a => key a = k)).Pairwise le := by
    apply List.pairwise_of_forall_mem_list
    intro a ha b hb
    simp only [List.mem_filter, decide_eq_true_eq] at ha hb
    exact hkey a b (ha.2.trans hb.2.symm)
  have hsub := (List.sublist_insertionSort hpair List.filter_sublist).filter
    (fun a => decide (key a = k))
  rw [List.filter_filter] at hsub
  simp only [Bool.and_self] at hsub
  have hperm := (List.perm_insertionSort le l).filter (fun a => decide (key a = k))
  exact (hsub.eq_of_length hperm.length_eq.symm).symm

/-- Lists that agree for each key are sorted alike. -/
theorem insertionSort_eq_of_filter_key [Std.Total le] [IsTrans α le] (key : α → κ)
    (hkey : ∀ a b, key a = key b → le a b)
    (hanti : ∀ a b, le a b → le b a → key a = key b)
    (h : ∀ k, A.filter (fun a => key a = k) = B.filter (fun a => key a = k)) :
    A.insertionSort le = B.insertionSort le := by
  refine eq_of_filter_key_eq hanti (List.pairwise_insertionSort ..)
    (List.pairwise_insertionSort ..) fun k => ?_
  rw [filter_key_insertionSort hkey, filter_key_insertionSort hkey, h]

/-- The first element with a property, in the order of the keys, has a smallest key among the
ones with the property. -/
theorem find?_insertionSort {key : α → ℕ} {p : α → Bool} {l : List α} {a : α}
    (h : (l.insertionSort fun x y => key x ≤ key y).find? p = some a) :
    a ∈ l ∧ p a = true ∧ ∀ b ∈ l, key b < key a → p b = false := by
  have : Std.Total fun x y : α => key x ≤ key y := ⟨fun x y => Nat.le_total ..⟩
  have : IsTrans α fun x y => key x ≤ key y := ⟨fun x y z => Nat.le_trans⟩
  have hsorted := List.pairwise_insertionSort (fun x y : α => key x ≤ key y) l
  refine ⟨(List.mem_insertionSort _).mp (List.mem_of_find?_eq_some h), List.find?_some h, ?_⟩
  obtain ⟨_, as, bs, hl, has⟩ := List.find?_eq_some_iff_append.mp h
  intro b hb hlt
  rw [← List.mem_insertionSort (fun x y : α => key x ≤ key y), hl, List.mem_append] at hb
  rw [hl] at hsorted
  rcases hb with hb | hb
  · simpa using has b hb
  · rcases List.mem_cons.mp hb with rfl | hb
    · omega
    · have := (List.pairwise_cons.mp (List.pairwise_append.mp hsorted).2.1).1 b hb
      omega

end ResSim
