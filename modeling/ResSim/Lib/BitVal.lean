import Mathlib.Tactic.Ring
import ResSim.Lib.Ternary

/-!
# Binary numerals

`bitVal` reads a list of bits as a number, the most significant bit first, and `binDigits`
writes a number. A pattern that has its wildcards at the end matches an interval of numbers.
-/

namespace ResSim

/-- The number that a list of bits stands for. -/
def bitVal : List Bool → ℕ
  | [] => 0
  | b :: bits => b.toNat * 2 ^ bits.length + bitVal bits

/-- The digits of a number, without leading zeros. -/
def binDigits : ℕ → ℕ → List Bool
  | 0, _ => []
  | fuel + 1, number =>
    if number = 0 then [] else binDigits fuel (number / 2) ++ [number % 2 == 1]

variable {xs ys bits key : List Bool} {k n fuel number : ℕ}

lemma bitVal_append (xs ys : List Bool) :
    bitVal (xs ++ ys) = bitVal xs * 2 ^ ys.length + bitVal ys := by
  induction xs with
  | nil => simp [bitVal]
  | cons b xs ih =>
    rw [List.cons_append, bitVal, bitVal, ih, List.length_append, pow_add]
    ring

lemma bitVal_lt (xs : List Bool) : bitVal xs < 2 ^ xs.length := by
  induction xs with
  | nil => simp [bitVal]
  | cons b xs ih =>
    rw [bitVal, List.length_cons, pow_succ]
    cases b <;> simp <;> omega

lemma bitVal_inj (hlen : xs.length = ys.length) (h : bitVal xs = bitVal ys) : xs = ys := by
  induction xs generalizing ys with
  | nil => exact (List.eq_nil_of_length_eq_zero hlen.symm).symm
  | cons b xs ih =>
    cases ys with
    | nil => simp at hlen
    | cons c ys =>
      have hlen' : xs.length = ys.length := by simpa using hlen
      rw [bitVal, bitVal, hlen'] at h
      have hx := hlen' ▸ bitVal_lt xs
      have hy := bitVal_lt ys
      cases b <;> cases c <;> simp at h
      · rw [ih hlen' h]
      · omega
      · omega
      · rw [ih hlen' h]

@[simp] lemma bitVal_replicate_false (k : ℕ) : bitVal (List.replicate k false) = 0 := by
  induction k with
  | zero => rfl
  | succ k ih => simp [List.replicate_succ, bitVal, ih]

@[simp] lemma bitVal_replicate_true (k : ℕ) : bitVal (List.replicate k true) = 2 ^ k - 1 := by
  induction k with
  | zero => rfl
  | succ k ih =>
    have := Nat.one_le_two_pow (n := k)
    rw [List.replicate_succ, bitVal, ih, List.length_replicate, pow_succ]
    simp
    omega

lemma bitVal_binDigits (h : number ≤ fuel) : bitVal (binDigits fuel number) = number := by
  induction fuel generalizing number with
  | zero => simp [binDigits, bitVal]; omega
  | succ fuel ih =>
    rw [binDigits]
    split
    · rename_i h0
      simp [bitVal, h0]
    · rw [bitVal_append, ih (by omega)]
      rcases Nat.mod_two_eq_zero_or_one number with h2 | h2 <;> simp [bitVal, h2] <;> omega

lemma length_binDigits (h : number < 2 ^ n) : (binDigits fuel number).length ≤ n := by
  induction fuel generalizing number n with
  | zero => simp [binDigits]
  | succ fuel ih =>
    rw [binDigits]
    split
    · simp
    · cases n with
      | zero => simp at h; omega
      | succ n =>
        have hhalf : number / 2 < 2 ^ n := by rw [pow_succ] at h; omega
        have := ih hhalf
        simp only [List.length_append, List.length_singleton]
        omega

/-- Every number below `2 ^ n` is written with `n` bits. -/
lemma exists_bitVal (h : number < 2 ^ n) : ∃ bits, bits.length = n ∧ bitVal bits = number := by
  have hlen : (binDigits number number).length ≤ n := length_binDigits h
  refine ⟨List.replicate (n - (binDigits number number).length) false ++
    binDigits number number, ?_, ?_⟩
  · rw [List.length_append, List.length_replicate]
    omega
  · rw [bitVal_append, bitVal_replicate_false, bitVal_binDigits le_rfl, Nat.zero_mul, Nat.zero_add]

/-! ### Patterns with the wildcards at the end -/

/-- Some bits, and wildcards after them. -/
def prefixPattern (bits : List Bool) (k : ℕ) : Pattern Bool :=
  bits.map some ++ List.replicate k none

@[simp] lemma prefixPattern_length : (prefixPattern bits k).length = bits.length + k := by
  simp [prefixPattern]

lemma eq_prefixPattern {p : Pattern Bool} (hp : p.Pairwise (fun a b => a = none → b = none)) :
    ∃ bits k, p = prefixPattern bits k := by
  induction p with
  | nil => exact ⟨[], 0, rfl⟩
  | cons a p ih =>
    obtain ⟨ha, htail⟩ := List.pairwise_cons.mp hp
    cases a with
    | none =>
      refine ⟨[], (none :: p).length, List.eq_replicate_of_mem fun b hb => ?_⟩
      exact (List.mem_cons.mp hb).elim id (fun hb => ha b hb rfl)
    | some b =>
      obtain ⟨bits, k, rfl⟩ := ih htail
      exact ⟨b :: bits, k, rfl⟩

lemma matches_replicate : Pattern.Matches (List.replicate k none) key ↔ key.length = k := by
  induction key generalizing k with
  | nil => cases k <;> simp [Pattern.Matches, Pattern.Within, List.replicate_succ]
  | cons b key ih =>
    cases k with
    | zero => simp [Pattern.Matches, Pattern.Within]
    | succ k =>
      rw [List.length_cons, Nat.succ_inj, ← ih]
      simp [Pattern.Matches, Pattern.Within, List.replicate_succ]

lemma matches_prefixPattern_append (hlen : xs.length = bits.length) :
    (prefixPattern bits k).Matches (xs ++ ys) ↔ xs = bits ∧ ys.length = k := by
  induction bits generalizing xs with
  | nil =>
    rw [List.eq_nil_of_length_eq_zero hlen]
    simpa [prefixPattern] using matches_replicate
  | cons b bits ih =>
    cases xs with
    | nil => simp at hlen
    | cons x xs =>
      have hlen' : xs.length = bits.length := by simpa using hlen
      have h := ih hlen'
      simp only [prefixPattern, Pattern.Matches, Pattern.Within, List.map_append] at h ⊢
      simp [h, and_assoc]

/-- Such a pattern matches the numbers of an interval. -/
theorem matches_prefixPattern (hlen : key.length = bits.length + k) :
    (prefixPattern bits k).Matches key ↔
      bitVal bits * 2 ^ k ≤ bitVal key ∧ bitVal key < (bitVal bits + 1) * 2 ^ k := by
  obtain ⟨xs, ys, rfl, hxs⟩ : ∃ xs ys, key = xs ++ ys ∧ xs.length = bits.length :=
    ⟨key.take bits.length, key.drop bits.length, (List.take_append_drop ..).symm, by simp; omega⟩
  have hys : ys.length = k := by simp at hlen; omega
  have hlt := bitVal_lt ys
  rw [matches_prefixPattern_append hxs, bitVal_append, hys, and_iff_left rfl]
  rw [hys] at hlt
  constructor
  · rintro rfl
    rw [add_mul, one_mul]
    omega
  · rintro ⟨hlo, hhi⟩
    have h1 : bitVal bits < bitVal xs + 1 := by
      by_contra hge
      have := Nat.mul_le_mul_right (2 ^ k) (not_lt.mp hge)
      rw [add_mul, one_mul] at this
      omega
    have h2 : bitVal xs < bitVal bits + 1 := by
      by_contra hge
      have := Nat.mul_le_mul_right (2 ^ k) (not_lt.mp hge)
      omega
    exact bitVal_inj hxs (by omega)

end ResSim
