import Mathlib.Algebra.BigOperators.Group.List.Basic
import Mathlib.Algebra.BigOperators.Intervals
import Mathlib.Data.List.SplitLengths

/-!
# Even shares

`n` things are dealt out to `m` places: the place `i` gets `(n + i) / m` of them. The shares add
up to `n`, and two of them differ by at most one.
-/

namespace ResSim

/-- What the places get. -/
def shares (n m : ℕ) : List ℕ := (List.range m).map fun i => (n + i) / m

variable {n m : ℕ}

@[simp] lemma length_shares (n m : ℕ) : (shares n m).length = m := by simp [shares]

/-- One more thing moves every share on by one place, and the last place gets one more than the
first one had. -/
theorem sum_shares (hm : 0 < m) (n : ℕ) : (shares n m).sum = n := by
  have hsum : ∀ n, (shares n m).sum = ∑ i ∈ Finset.range m, (n + i) / m := fun _ => rfl
  rw [hsum]
  induction n with
  | zero =>
    refine Finset.sum_eq_zero fun i hi => ?_
    rw [Nat.zero_add, Nat.div_eq_of_lt (Finset.mem_range.mp hi)]
  | succ n ih =>
    have hshift := (Finset.sum_range_succ (fun i => (n + i) / m) m).symm.trans
      (Finset.sum_range_succ' (fun i => (n + i) / m) m)
    rw [ih, Nat.add_div_right _ hm] at hshift
    have hnext : ∑ i ∈ Finset.range m, (n + 1 + i) / m =
        ∑ i ∈ Finset.range m, (n + (i + 1)) / m :=
      Finset.sum_congr rfl fun i _ => by rw [Nat.add_assoc, Nat.add_comm 1 i]
    rw [hnext]
    simp only [Nat.add_zero] at hshift
    omega

lemma share_le_succ {i j : ℕ} (hi : i < m) : (n + i) / m ≤ (n + j) / m + 1 := by
  rw [← Nat.add_div_right _ (Nat.zero_lt_of_lt hi)]
  exact Nat.div_le_div_right (by omega)

lemma share_le {i s : ℕ} (hi : i < m) (h : n ≤ m * s) : (n + i) / m ≤ s := by
  rw [← Nat.lt_succ_iff, Nat.div_lt_iff_lt_mul (Nat.zero_lt_of_lt hi), Nat.succ_mul, Nat.mul_comm s]
  omega

end ResSim
