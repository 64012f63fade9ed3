import Mathlib.Algebra.Order.Field.Rat
import Mathlib.Data.Nat.Choose.Basic
import Mathlib.Tactic.Positivity
import Mathlib.Tactic.Ring

/-!
# Ratios of binomials

The share of the `k`-element subsets of a set of `b` elements that lie in a given subset of `a`
elements. It grows with the subset and shrinks with `k`.
-/

namespace ResSim

/-- The share of the `k`-element subsets that avoid all but `a` of `b` elements. -/
def chooseRatio (a b k : ℕ) : ℚ := (a.choose k : ℚ) / b.choose k

variable {a a' b k k' : ℕ}

lemma chooseRatio_nonneg : 0 ≤ chooseRatio a b k := by
  unfold chooseRatio
  positivity

lemma chooseRatio_le_one (h : a ≤ b) : chooseRatio a b k ≤ 1 := by
  have hle : (a.choose k : ℚ) ≤ b.choose k := by exact_mod_cast Nat.choose_le_choose k h
  exact div_le_one_of_le₀ hle (by positivity)

lemma chooseRatio_mono (h : a ≤ a') : chooseRatio a b k ≤ chooseRatio a' b k := by
  have hle : (a.choose k : ℚ) ≤ a'.choose k := by exact_mod_cast Nat.choose_le_choose k h
  exact div_le_div_of_nonneg_right hle (by positivity)

/-- One element more is harder to avoid the larger the subset is. -/
lemma choose_succ_mul_choose_le (h : a ≤ b) :
    a.choose (k + 1) * b.choose k ≤ a.choose k * b.choose (k + 1) := by
  have ha := Nat.choose_succ_right_eq a k
  have hb := Nat.choose_succ_right_eq b k
  have hsub : a - k ≤ b - k := Nat.sub_le_sub_right h k
  refine Nat.le_of_mul_le_mul_right ?_ (Nat.succ_pos k)
  calc a.choose (k + 1) * b.choose k * (k + 1)
      = a.choose (k + 1) * (k + 1) * b.choose k := by ring
    _ = a.choose k * b.choose k * (a - k) := by rw [ha]; ring
    _ ≤ a.choose k * b.choose k * (b - k) := Nat.mul_le_mul_left _ hsub
    _ = a.choose k * (b.choose (k + 1) * (k + 1)) := by rw [hb]; ring
    _ = a.choose k * b.choose (k + 1) * (k + 1) := by ring

lemma chooseRatio_succ_le (h : a ≤ b) : chooseRatio a b (k + 1) ≤ chooseRatio a b k := by
  unfold chooseRatio
  by_cases hk : b.choose (k + 1) = 0
  · rw [hk, Nat.cast_zero, div_zero]
    positivity
  · have hlt : k + 1 ≤ b := by
      by_contra hlt
      exact hk (Nat.choose_eq_zero_of_lt (by omega))
    have hpos : 0 < b.choose k := Nat.choose_pos (by omega)
    have hpos' : 0 < b.choose (k + 1) := Nat.choose_pos hlt
    rw [div_le_div_iff₀ (by exact_mod_cast hpos') (by exact_mod_cast hpos)]
    exact_mod_cast choose_succ_mul_choose_le h

lemma chooseRatio_antitone (h : a ≤ b) (hk : k ≤ k') : chooseRatio a b k' ≤ chooseRatio a b k := by
  induction hk with
  | refl => exact le_rfl
  | step _ ih => exact (chooseRatio_succ_le h).trans ih

end ResSim
