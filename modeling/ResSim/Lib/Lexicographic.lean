import Mathlib.Algebra.BigOperators.Group.List.Basic
import Mathlib.Algebra.Order.BigOperators.Group.List
import Mathlib.Data.List.Lex
import Mathlib.Tactic.Common

/-!
# Non-decreasing vectors in lexicographic order

What stands between a vector and its lexicographic successors, and how small the product of a
non-decreasing vector from some place of the order on can be.
-/

namespace ResSim

variable {A w x y : List ℕ} {a b c k l s : ℕ}

/-- For the order of `List ℕ` as a linear order. -/
lemma cons_lt_cons : a :: x < b :: y ↔ a < b ∨ a = b ∧ x < y :=
  List.cons_lt_cons_iff

lemma cons_le_cons : a :: x ≤ b :: y ↔ a < b ∨ a = b ∧ x ≤ y := by
  rw [← not_lt, cons_lt_cons, ← not_lt (a := y)]
  rcases lt_trichotomy a b with h | h | h
  · simp [h, h.not_gt, h.ne']
  · simp [h]
  · simp [h, h.not_gt, h.ne']

lemma append_lt_append : A ++ x < A ++ y ↔ x < y := by
  induction A with
  | nil => rfl
  | cons a A ih => simp [ih]

/-- Nothing of the same length stands between a vector and the one whose last coordinate is
larger by one. -/
lemma lt_append_succ_iff (h : w.length = A.length + 1) :
    w < A ++ [l + 1] ↔ w < A ++ [l] ∨ w = A ++ [l] := by
  induction A generalizing w with
  | nil =>
    obtain ⟨a, rfl⟩ := List.length_eq_one_iff.mp h
    simp only [List.nil_append, cons_lt_cons, lt_irrefl, and_false, or_false, List.cons.injEq,
      and_true]
    omega
  | cons a A ih =>
    cases w with
    | nil => simp at h
    | cons b w =>
      have hw := ih (w := w) (by simpa using h)
      simp only [List.cons_append, cons_lt_cons, List.cons.injEq, hw]
      tauto

/-- Between two vectors that begin in the same way stand only vectors that do so. -/
lemma exists_append_of_between (h : A ++ x ≤ w) (h' : w < A ++ y) :
    ∃ z, w = A ++ z ∧ x ≤ z ∧ z < y := by
  induction A generalizing w with
  | nil => exact ⟨w, rfl, h, h'⟩
  | cons a A ih =>
    cases w with
    | nil => exact absurd (List.nil_lt_cons ..) (not_lt.mpr h)
    | cons b w =>
      simp only [List.cons_append, cons_lt_cons, cons_le_cons] at h h'
      rcases h with hlt | ⟨rfl, h⟩
      · omega
      · obtain ⟨z, rfl, hz⟩ := ih h (by simpa using h')
        exact ⟨z, rfl, hz⟩

/-- A nonempty vector is constant, or ends in a constant run after a different coordinate. -/
lemma exists_run (h : x ≠ []) : (∃ k c, x = List.replicate k c ++ [c]) ∨
    ∃ A s k c, s ≠ c ∧ x = A ++ s :: (List.replicate k c ++ [c]) := by
  induction x with
  | nil => exact absurd rfl h
  | cons a x ih =>
    by_cases hx : x = []
    · exact .inl ⟨0, a, by simp [hx]⟩
    · rcases ih hx with ⟨k, c, rfl⟩ | ⟨A, s, k, c, hs, rfl⟩
      · by_cases hac : a = c
        · exact .inl ⟨k + 1, c, by simp [hac, List.replicate_succ]⟩
        · exact .inr ⟨[], a, k, c, hac, rfl⟩
      · exact .inr ⟨a :: A, s, k, c, hs, rfl⟩

lemma pow_le_prod (h : ∀ a ∈ w, c ≤ a) : c ^ w.length ≤ w.prod := by
  induction w with
  | nil => simp
  | cons a w ih =>
    rw [List.length_cons, List.prod_cons, pow_succ']
    exact Nat.mul_le_mul (h a List.mem_cons_self) (ih fun b hb => h b (List.mem_cons_of_mem _ hb))

/-- From `c, …, c, c + 1` on, the products of non-decreasing vectors are at least the one there. -/
lemma pow_mul_le_prod (hw : w.Pairwise (· ≤ ·)) (hlen : w.length = k + 1)
    (h : List.replicate k c ++ [c + 1] ≤ w) : c ^ k * (c + 1) ≤ w.prod := by
  induction k generalizing w with
  | zero =>
    obtain ⟨a, rfl⟩ := List.length_eq_one_iff.mp hlen
    simp only [List.replicate_zero, List.nil_append, cons_le_cons, le_refl, and_true] at h
    simp only [pow_zero, one_mul, List.prod_cons, List.prod_nil, mul_one]
    omega
  | succ k ih =>
    obtain ⟨a, w, rfl⟩ := List.exists_cons_of_length_eq_add_one hlen
    obtain ⟨ha, hw'⟩ := List.pairwise_cons.mp hw
    have hlen' : w.length = k + 1 := by simpa using hlen
    rw [List.replicate_succ, List.cons_append, cons_le_cons] at h
    rcases h with hlt | ⟨rfl, h⟩
    · have hprod : (c + 1) ^ (a :: w).length ≤ (a :: w).prod := by
        apply pow_le_prod
        intro b hb
        rcases List.mem_cons.mp hb with rfl | hb
        · exact hlt
        · exact Nat.le_trans hlt (ha b hb)
      calc c ^ (k + 1) * (c + 1) ≤ (c + 1) ^ (k + 1) * (c + 1) :=
            Nat.mul_le_mul_right _ (Nat.pow_le_pow_left (Nat.le_succ c) _)
        _ = (c + 1) ^ (a :: w).length := by rw [hlen, pow_succ (c + 1) (k + 1)]
        _ ≤ (a :: w).prod := hprod
    · rw [List.prod_cons, pow_succ', mul_assoc]
      exact Nat.mul_le_mul_left _ (ih hw' hlen' h)

lemma replicate_le (h : ∀ a ∈ w, c ≤ a) : List.replicate w.length c ≤ w := by
  induction w with
  | nil => exact le_rfl
  | cons a w ih =>
    rw [List.length_cons, List.replicate_succ, cons_le_cons]
    have hw := ih fun b hb => h b (List.mem_cons_of_mem _ hb)
    rcases (h a List.mem_cons_self).lt_or_eq with hlt | heq
    · exact .inl hlt
    · exact .inr ⟨heq, hw⟩

/-- The step to the next run: a non-decreasing vector from `A, s, c, …, c, c + 1` on and below
`A, s + 1, …, s + 1` still has `s` after `A`, so its product is at least the one it starts
from. -/
lemma prod_le_of_between (hw : w.Pairwise (· ≤ ·)) (hlen : w.length = A.length + (k + 2))
    (h : A ++ s :: (List.replicate k c ++ [c + 1]) ≤ w)
    (h' : w < A ++ List.replicate (k + 2) (s + 1)) :
    (A ++ s :: (List.replicate k c ++ [c + 1])).prod ≤ w.prod := by
  obtain ⟨z, rfl, hz, hz'⟩ := exists_append_of_between h h'
  obtain ⟨a, t, rfl⟩ := List.exists_cons_of_length_eq_add_one
    (show z.length = (k + 1) + 1 by simpa using hlen)
  obtain ⟨ha, ht⟩ := List.pairwise_cons.mp (List.pairwise_append.mp hw).2.1
  have hlen' : t.length = k + 1 := by simpa using hlen
  rw [cons_le_cons] at hz
  rw [List.replicate_succ, cons_lt_cons] at hz'
  have has : a = s := by
    rcases hz' with hlt | ⟨rfl, hlt⟩
    · omega
    · -- with `s + 1` after `A`, all further coordinates are at least `s + 1`
      have hle := replicate_le ha
      rw [hlen'] at hle
      exact absurd hlt (not_lt.mpr hle)
  subst has
  have ht' := pow_mul_le_prod ht hlen' (by simpa using hz)
  simp only [List.prod_append, List.prod_cons, List.prod_replicate, List.prod_nil, mul_one]
  exact Nat.mul_le_mul_left _ (Nat.mul_le_mul_left _ ht')

end ResSim
