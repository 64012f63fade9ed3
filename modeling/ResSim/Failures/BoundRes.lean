import Mathlib.Algebra.Order.BigOperators.GroupWithZero.Finset
import Mathlib.Data.Int.ConditionallyCompleteOrder
import Mathlib.Tactic.Linarith
import ResSim.Lib.ChooseRatio
import ResSim.Lib.Traverse

/-!
# Estimated probability of a failure

`estimate` multiplies, for a route and each of its `r` backups, the probability that some link
of a path of length `lp` is among the `f` links that failed. The result is a probability that
grows with the failures and the length of the path and shrinks with the resilience, also
where one of the early returns takes over.
-/

namespace ResSim

/-- A division, which raises on zero. -/
def divide (a b : ℚ) : Option ℚ := if b = 0 then none else some (a / b)

/-- What `estimate` relies on of `comb(n, k)`: it counts the choices of `k` out of `n`. -/
def IsComb (comb : ℤ → ℕ → ℚ) : Prop := ∀ n k : ℕ, comb n k = n.choose k

/-- `range(E, E - (r + 1), -1)`. -/
def rangeDown (E r : ℤ) : List ℤ := (List.range (r + 1).toNat).map (fun i : ℕ => E - i)

/-- `estimate`; `none` is a division by zero. -/
def estimate (comb : ℤ → ℕ → ℚ) (E r f : ℤ) (lp : ℕ) : Option ℚ :=
  if f ≤ r then some 0
  else if E - f < lp then some 1
  else do
    let probs ← (rangeDown E r).mapM (fun e => do
      let ratio ← divide (comb (E - f) lp) (comb e lp)
      some (1 - ratio))
    some (probs.foldl (fun x y => x * y) 1)

/-! ### The product -/

/-- The probability that the failures hit a path that avoids the links of `i` other paths. -/
def hitProb (E f : ℤ) (lp i : ℕ) : ℚ := 1 - chooseRatio (E - f).toNat (E - i).toNat lp

/-- The probability that the failures hit a path and each of its `r` backups. -/
def hitAll (E r f : ℤ) (lp : ℕ) : ℚ := ∏ i ∈ Finset.range (r + 1).toNat, hitProb E f lp i

/-- No early return: the failures are more than the backups, and a path fits into the links
that are left. -/
structure Between (E r f : ℤ) (lp : ℕ) : Prop where
  backups : r < f
  length : lp ≤ E - f

section Hit

variable {E r r' f f' : ℤ} {lp lp' : ℕ} {comb : ℤ → ℕ → ℚ}

lemma IsComb.eq (h : IsComb comb) {n : ℤ} (hn : 0 ≤ n) (k : ℕ) : comb n k = n.toNat.choose k := by
  rw [← h, Int.toNat_of_nonneg hn]

/-- Every binomial of the product is over at least the links that are left. -/
lemma Between.le_sub (h : Between E r f lp) {i : ℕ} (hi : i < (r + 1).toNat) :
    (E - f).toNat ≤ (E - i).toNat ∧ lp ≤ (E - i).toNat ∧ 0 ≤ E - i := by
  have := h.backups
  have := h.length
  omega

lemma Between.hitProb_mem (h : Between E r f lp) {i : ℕ} (hi : i < (r + 1).toNat) :
    0 ≤ hitProb E f lp i ∧ hitProb E f lp i ≤ 1 := by
  have hle := chooseRatio_le_one (k := lp) (h.le_sub hi).1
  have hnonneg := chooseRatio_nonneg (a := (E - f).toNat) (b := (E - i).toNat) (k := lp)
  unfold hitProb
  constructor <;> linarith

lemma Between.estimate_eq (hcomb : IsComb comb) (h : Between E r f lp) :
    estimate comb E r f lp = some (hitAll E r f lp) := by
  have hprobs : (rangeDown E r).mapM (fun e => do
      let ratio ← divide (comb (E - f) lp) (comb e lp)
      some (1 - ratio)) = some ((rangeDown E r).map (fun e =>
        1 - chooseRatio (E - f).toNat e.toNat lp)) := by
    apply mapM_eq_map
    intro e he
    obtain ⟨i, hi, rfl⟩ := List.mem_map.mp he
    obtain ⟨_, hlp, hpos⟩ := h.le_sub (List.mem_range.mp hi)
    have hleft : 0 ≤ E - f := by
      have := h.length
      omega
    have hne : (((E - i).toNat.choose lp : ℕ) : ℚ) ≠ 0 := by
      exact_mod_cast (Nat.choose_pos hlp).ne'
    simp only [hcomb.eq hleft, hcomb.eq hpos, divide, if_neg hne]
    rfl
  rw [estimate, if_neg (not_le.mpr h.backups), if_neg (not_lt.mpr h.length), hprobs,
    Option.bind_eq_bind, Option.bind_some, ← List.prod_eq_foldl, rangeDown, List.map_map]
  rfl

lemma Between.hitAll_nonneg (h : Between E r f lp) : 0 ≤ hitAll E r f lp :=
  Finset.prod_nonneg fun _ hi => (h.hitProb_mem (Finset.mem_range.mp hi)).1

lemma Between.hitAll_le_one (h : Between E r f lp) : hitAll E r f lp ≤ 1 :=
  Finset.prod_le_one (fun _ hi => (h.hitProb_mem (Finset.mem_range.mp hi)).1)
    fun _ hi => (h.hitProb_mem (Finset.mem_range.mp hi)).2

lemma Between.hitAll_mono_failures (h : Between E r f lp) (hf : f ≤ f') :
    hitAll E r f lp ≤ hitAll E r f' lp := by
  apply Finset.prod_le_prod
  · exact fun _ hi => (h.hitProb_mem (Finset.mem_range.mp hi)).1
  · intro i _
    have hle := chooseRatio_mono (b := (E - i).toNat) (k := lp)
      (show (E - f').toNat ≤ (E - f).toNat by omega)
    unfold hitProb
    linarith

lemma Between.hitAll_mono_length (h : Between E r f lp) (hlp : lp ≤ lp') :
    hitAll E r f lp ≤ hitAll E r f lp' := by
  apply Finset.prod_le_prod
  · exact fun _ hi => (h.hitProb_mem (Finset.mem_range.mp hi)).1
  · intro i hi
    have hle := chooseRatio_antitone (h.le_sub (Finset.mem_range.mp hi)).1 hlp
    unfold hitProb
    linarith

lemma Between.hitAll_anti_backups (h : Between E r' f lp) (hr : r ≤ r') :
    hitAll E r' f lp ≤ hitAll E r f lp := by
  apply Finset.prod_le_prod_of_subset_of_le_one
  · exact Finset.range_subset_range.mpr (by omega)
  · exact fun _ hi => (h.hitProb_mem (Finset.mem_range.mp hi)).1
  · exact fun _ hi _ => (h.hitProb_mem (Finset.mem_range.mp hi)).2

/-- The estimate is zero up to `r` failures, one where no path fits into the links that are
left, and the product in between. -/
lemma estimate_cases (hcomb : IsComb comb) (E r f : ℤ) (lp : ℕ) :
    (f ≤ r ∧ estimate comb E r f lp = some 0) ∨
      (r < f ∧ E - f < lp ∧ estimate comb E r f lp = some 1) ∨
      (Between E r f lp ∧ estimate comb E r f lp = some (hitAll E r f lp)) := by
  by_cases hr : f ≤ r
  · exact .inl ⟨hr, if_pos hr⟩
  · by_cases hlp : E - f < lp
    · refine .inr (.inl ⟨not_le.mp hr, hlp, ?_⟩)
      rw [estimate, if_neg hr, if_pos hlp]
    · have h : Between E r f lp := ⟨not_le.mp hr, not_lt.mp hlp⟩
      exact .inr (.inr ⟨h, h.estimate_eq hcomb⟩)

lemma exists_estimate (hcomb : IsComb comb) (E r f : ℤ) (lp : ℕ) :
    ∃ p, estimate comb E r f lp = some p ∧ 0 ≤ p ∧ p ≤ 1 := by
  rcases estimate_cases hcomb E r f lp with ⟨_, h⟩ | ⟨_, _, h⟩ | ⟨hb, h⟩
  · exact ⟨0, h, le_rfl, zero_le_one⟩
  · exact ⟨1, h, zero_le_one, le_rfl⟩
  · exact ⟨_, h, hb.hitAll_nonneg, hb.hitAll_le_one⟩

variable {p p' : ℚ}

lemma estimate_mono_failures (hcomb : IsComb comb) (hf : f ≤ f')
    (h : estimate comb E r f lp = some p) (h' : estimate comb E r f' lp = some p') : p ≤ p' := by
  obtain ⟨q, hq, hq₀, hq₁⟩ := exists_estimate hcomb E r f lp
  obtain ⟨q', hq', hq₀', hq₁'⟩ := exists_estimate hcomb E r f' lp
  obtain rfl := Option.some.inj (h.symm.trans hq)
  obtain rfl := Option.some.inj (h'.symm.trans hq')
  rcases estimate_cases hcomb E r f lp with ⟨_, he⟩ | ⟨hr, hlp, he⟩ | ⟨hb, he⟩
  · rw [Option.some.inj (h.symm.trans he)]
    exact hq₀'
  · -- already no path fits into the links that are left
    have he' : estimate comb E r f' lp = some 1 := by
      rw [estimate, if_neg (by omega), if_pos (by omega)]
    rw [Option.some.inj (h'.symm.trans he')]
    exact hq₁
  · have := hb.backups
    by_cases hlp : E - f' < lp
    · have he' : estimate comb E r f' lp = some 1 := by
        rw [estimate, if_neg (by omega), if_pos hlp]
      rw [Option.some.inj (h'.symm.trans he')]
      exact hq₁
    · have hb' : Between E r f' lp := ⟨by omega, not_lt.mp hlp⟩
      rw [Option.some.inj (h.symm.trans he),
        Option.some.inj (h'.symm.trans (hb'.estimate_eq hcomb))]
      exact hb.hitAll_mono_failures hf

lemma estimate_mono_length (hcomb : IsComb comb) (hlp : lp ≤ lp')
    (h : estimate comb E r f lp = some p) (h' : estimate comb E r f lp' = some p') : p ≤ p' := by
  obtain ⟨q, hq, _, hq₁⟩ := exists_estimate hcomb E r f lp
  obtain rfl := Option.some.inj (h.symm.trans hq)
  rcases estimate_cases hcomb E r f lp' with ⟨hr, he'⟩ | ⟨_, _, he'⟩ | ⟨hb', he'⟩
  · have he : estimate comb E r f lp = some 0 := if_pos hr
    rw [Option.some.inj (h.symm.trans he), Option.some.inj (h'.symm.trans he')]
  · rw [Option.some.inj (h'.symm.trans he')]
    exact hq₁
  · have hb : Between E r f lp := ⟨hb'.backups, by have := hb'.length; omega⟩
    rw [Option.some.inj (h.symm.trans (hb.estimate_eq hcomb)),
      Option.some.inj (h'.symm.trans he')]
    exact hb.hitAll_mono_length hlp

lemma estimate_anti_backups (hcomb : IsComb comb) (hr : r ≤ r')
    (h : estimate comb E r f lp = some p) (h' : estimate comb E r' f lp = some p') : p' ≤ p := by
  obtain ⟨q, hq, hq₀, _⟩ := exists_estimate hcomb E r f lp
  obtain ⟨q', hq', _, hq₁'⟩ := exists_estimate hcomb E r' f lp
  obtain rfl := Option.some.inj (h.symm.trans hq)
  obtain rfl := Option.some.inj (h'.symm.trans hq')
  rcases estimate_cases hcomb E r' f lp with ⟨_, he'⟩ | ⟨hr', hlp, _⟩ | ⟨hb', he'⟩
  · rw [Option.some.inj (h'.symm.trans he')]
    exact hq₀
  · have he : estimate comb E r f lp = some 1 := by rw [estimate, if_neg (by omega), if_pos hlp]
    rw [Option.some.inj (h.symm.trans he)]
    exact hq₁'
  · have hb : Between E r f lp := ⟨by have := hb'.backups; omega, hb'.length⟩
    rw [Option.some.inj (h.symm.trans (hb.estimate_eq hcomb)),
      Option.some.inj (h'.symm.trans he')]
    exact hb'.hitAll_anti_backups hr

end Hit

/-- The estimate never divides by zero and is a probability. More failures or a longer path do
not decrease it, and more backups do not increase it, across the early returns too. -/
theorem estimate_probability {comb : ℤ → ℕ → ℚ} (hcomb : IsComb comb) (E : ℤ) :
    ∃ p : ℤ → ℤ → ℕ → ℚ,
      (∀ r f lp, estimate comb E r f lp = some (p r f lp) ∧ 0 ≤ p r f lp ∧ p r f lp ≤ 1) ∧
      (∀ r lp, Monotone fun f => p r f lp) ∧ (∀ r f, Monotone (p r f)) ∧
      ∀ f lp, Antitone fun r => p r f lp := by
  choose p hp using fun r f lp => exists_estimate hcomb E r f lp
  refine ⟨p, hp, ?_, ?_, ?_⟩
  · intro r lp f f' hf
    exact estimate_mono_failures hcomb hf (hp r f lp).1 (hp r f' lp).1
  · intro r f lp lp' hlp
    exact estimate_mono_length hcomb hlp (hp r f lp).1 (hp r f lp').1
  · intro f lp r r' hr
    exact estimate_anti_backups hcomb hr (hp r f lp).1 (hp r' f lp).1

/-- The binomials, and zero for a negative `n`. -/
def chooseComb (n : ℤ) (k : ℕ) : ℚ := if n < 0 then 0 else n.toNat.choose k

theorem estimate_probability_choose : IsComb chooseComb ∧
    ∃ p : ℤ → ℤ → ℕ → ℚ,
      (∀ r f lp, estimate chooseComb 20 r f lp = some (p r f lp) ∧ 0 ≤ p r f lp ∧
        p r f lp ≤ 1) ∧
      (∀ r lp, Monotone fun f => p r f lp) ∧ (∀ r f, Monotone (p r f)) ∧
      ∀ f lp, Antitone fun r => p r f lp := by
  have hcomb : IsComb chooseComb := fun _ _ => rfl
  exact ⟨hcomb, estimate_probability hcomb 20⟩

end ResSim
