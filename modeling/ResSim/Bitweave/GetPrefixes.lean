import Mathlib.Data.List.Pairwise
import Mathlib.Data.Nat.Dist
import ResSim.Bitweave.Suri

/-!
# The prefixes of an interval

`Get_Prefixes` cuts the numbers of 256 bits in halves until a half is inside the interval or
apart from it. What it returns are the largest prefixes inside the interval, in their order.
-/

namespace ResSim

section Defs

def intersection (left right : Interval) : Interval := (max left.1 right.1, min left.2 right.2)

/-- The halves of an interval of two numbers or more. -/
def split (i : Interval) : Interval × Interval :=
  let size := (1 + Nat.dist i.2 i.1) / 2
  ((i.1, i.1 + size - 1), (i.1 + size, i.2))

/-- The recursion of `Get_Prefixes` from the interval `test`. -/
def getPrefixesIn (interval : Interval) : ℕ → Interval → Option (List Interval)
  | 0, _ => none
  | fuel + 1, test =>
    let i := intersection interval test
    if i.2 < i.1 then some []
    else if i = test then some [test]
    else do
      let low ← getPrefixesIn interval fuel (split test).1
      let high ← getPrefixesIn interval fuel (split test).2
      some (low ++ high)

/-- The bits of the numbers that `Get_Prefixes` starts from. -/
def testBits : ℕ := 256

def getPrefixes (interval : Interval) : Option (List Interval) :=
  getPrefixesIn interval (testBits + 1) (0, 2 ^ testBits - 1)

end Defs

variable {bits bits' : List Bool} {k k' n fuel v : ℕ} {interval p q : Interval} {ps : List Interval}

/-! ### Blocks -/

lemma prefixInterval_nil : prefixInterval [] n = (0, 2 ^ n - 1) := by
  simp [prefixInterval, bitVal]

lemma prefixInterval_le : (prefixInterval bits k).1 ≤ (prefixInterval bits k).2 := by
  have := Nat.one_le_two_pow (n := k)
  simp only [prefixInterval]
  omega

lemma split_eq {low size : ℕ} (hsize : 1 ≤ size) : split (low, low + size * 2 - 1) =
    ((low, low + size - 1), (low + size, low + size * 2 - 1)) := by
  have hhalf : (1 + Nat.dist (low + size * 2 - 1) low) / 2 = size := by
    rw [Nat.dist]
    omega
  rw [split, hhalf]

lemma split_prefixInterval (bits : List Bool) (k : ℕ) : split (prefixInterval bits (k + 1)) =
    (prefixInterval (bits ++ [false]) k, prefixInterval (bits ++ [true]) k) := by
  have hpow := Nat.one_le_two_pow (n := k)
  have hlow : bitVal bits * 2 * 2 ^ k = bitVal bits * (2 ^ k * 2) := by ring
  rw [prefixInterval, pow_succ, split_eq hpow]
  simp only [prefixInterval, bitVal_append, bitVal, List.length_nil, List.length_cons,
    Bool.toNat_false, Bool.toNat_true, Prod.mk.injEq, zero_add, pow_one, pow_zero, one_mul,
    zero_mul, add_zero, add_mul, hlow, true_and]
  omega

/-- A block has the numbers that start with its bits. -/
lemma mem_prefixInterval {key : List Bool} (hkey : key.length = bits.length + k) :
    ((prefixInterval bits k).1 ≤ bitVal key ∧ bitVal key ≤ (prefixInterval bits k).2) ↔
      bits <+: key := by
  have htake : (key.take bits.length).length = bits.length := by
    rw [List.length_take]
    omega
  rw [← matches_iff_prefixInterval hkey, ← List.take_append_drop bits.length key,
    matches_prefixPattern_append htake, List.take_append_drop, List.prefix_iff_eq_take,
    List.length_drop, hkey, Nat.add_sub_cancel_left, and_iff_left rfl, eq_comm]

/-- Of two blocks with as many bits in all, the one inside has the bits of the other in front. -/
lemma inside_prefixInterval (hn : bits.length + k = n) (hn' : bits'.length + k' = n) :
    Inside (prefixInterval bits' k') (prefixInterval bits k) ↔ bits <+: bits' := by
  have hlen : ∀ b, (bits' ++ List.replicate k' b).length = bits.length + k := by
    intro b
    rw [List.length_append, List.length_replicate, hn, hn']
  have hfirst : bitVal (bits' ++ List.replicate k' false) = (prefixInterval bits' k').1 := by
    rw [bitVal_append, bitVal_replicate_false, List.length_replicate, prefixInterval, add_zero]
  have hlast : bitVal (bits' ++ List.replicate k' true) = (prefixInterval bits' k').2 := by
    rw [bitVal_append, bitVal_replicate_true, List.length_replicate, prefixInterval,
      Nat.add_sub_assoc Nat.one_le_two_pow]
  constructor
  · intro h
    have hle := h.1
    have hmem := (mem_prefixInterval (hlen false)).mp (hfirst ▸ ⟨hle, prefixInterval_le.trans h.2⟩)
    have hsize : 2 ^ k' ≤ 2 ^ k := by
      have hpow := Nat.one_le_two_pow (n := k)
      have hpow' := Nat.one_le_two_pow (n := k')
      have hle' := h.2
      simp only [prefixInterval] at hle hle'
      omega
    have hk := (Nat.pow_le_pow_iff_right Nat.one_lt_two).mp hsize
    exact List.prefix_of_prefix_length_le hmem (List.prefix_append _ _) (by omega)
  · intro h
    have hmem : ∀ b, bits <+: bits' ++ List.replicate k' b := fun b => h.trans (List.prefix_append _ _)
    have h₀ := (mem_prefixInterval (hlen false)).mpr (hmem false)
    have h₁ := (mem_prefixInterval (hlen true)).mpr (hmem true)
    rw [hfirst] at h₀
    rw [hlast] at h₁
    exact ⟨h₀.1, h₁.2⟩

lemma prefixInterval_lt (bits : List Bool) (k : ℕ) :
    (prefixInterval bits k).2 < 2 ^ (bits.length + k) := by
  have hmul := Nat.mul_le_mul_right (2 ^ k) (bitVal_lt bits)
  have hpow := Nat.one_le_two_pow (n := k)
  rw [Nat.succ_mul, ← pow_add] at hmul
  simp only [prefixInterval]
  omega

/-- Numbers are blocks. -/
lemma exists_point (hv : v < 2 ^ n) : ∃ key, key.length = n ∧ prefixInterval key 0 = (v, v) := by
  obtain ⟨key, hkey, rfl⟩ := exists_bitVal hv
  exact ⟨key, hkey, by simp [prefixInterval]⟩

lemma inside_low : Inside (prefixInterval (bits ++ [false]) k) (prefixInterval bits (k + 1)) :=
  (inside_prefixInterval rfl (by simp; omega)).mpr (List.prefix_append _ _)

lemma inside_high : Inside (prefixInterval (bits ++ [true]) k) (prefixInterval bits (k + 1)) :=
  (inside_prefixInterval rfl (by simp; omega)).mpr (List.prefix_append _ _)

lemma low_lt_high (bits : List Bool) (k : ℕ) :
    (prefixInterval (bits ++ [false]) k).2 < (prefixInterval (bits ++ [true]) k).1 := by
  have hpow := Nat.one_le_two_pow (n := k)
  simp only [prefixInterval, bitVal_append, bitVal, List.length_cons, List.length_nil,
    Bool.toNat_false, Bool.toNat_true, add_mul]
  omega

/-- The ends of the halves of a block. -/
lemma halves_ends (bits : List Bool) (k : ℕ) :
    (prefixInterval (bits ++ [false]) k).1 = (prefixInterval bits (k + 1)).1 ∧
    (prefixInterval (bits ++ [true]) k).2 = (prefixInterval bits (k + 1)).2 ∧
    (prefixInterval (bits ++ [false]) k).2 < (prefixInterval (bits ++ [true]) k).1 ∧
    (prefixInterval (bits ++ [false]) k).1 ≤ (prefixInterval (bits ++ [false]) k).2 ∧
    (prefixInterval (bits ++ [true]) k).1 ≤ (prefixInterval (bits ++ [true]) k).2 :=
  ⟨(congrArg (fun i => i.1.1) (split_prefixInterval bits k)).symm,
    (congrArg (fun i => i.2.2) (split_prefixInterval bits k)).symm, low_lt_high bits k,
    prefixInterval_le, prefixInterval_le⟩

lemma halves_length (hn : bits.length + (k + 1) = n) :
    (bits ++ [false]).length + k = n ∧ (bits ++ [true]).length + k = n := by
  simp only [List.length_append, List.length_singleton]
  omega

/-! ### What is returned -/

/-- The largest blocks of `n` bits inside two intervals, in their order. -/
structure PrefixesOf (n : ℕ) (interval test : Interval) (ps : List Interval) : Prop where
  isPrefix : ∀ p ∈ ps, IsPrefix n p
  inside : ∀ p ∈ ps, Inside p interval ∧ Inside p test
  ordered : ps.Pairwise (fun p q => p.2 < q.1)
  largest : ∀ q, IsPrefix n q → Inside q interval → Inside q test → ∃ p ∈ ps, Inside q p

lemma Inside.trans {i j l : Interval} (h : Inside i j) (h' : Inside j l) : Inside i l :=
  ⟨h'.1.trans h.1, h.2.trans h'.2⟩

lemma IsPrefix.le (h : IsPrefix n p) : p.1 ≤ p.2 := by
  obtain ⟨bits, k, -, rfl⟩ := h
  exact prefixInterval_le

/-- Nothing that is inside the whole and not the whole is in both halves. -/
lemma PrefixesOf.append {low high : List Interval} (hn : bits.length + (k + 1) = n)
    (hlow : PrefixesOf n interval (prefixInterval (bits ++ [false]) k) low)
    (hhigh : PrefixesOf n interval (prefixInterval (bits ++ [true]) k) high)
    (hnot : ¬ Inside (prefixInterval bits (k + 1)) interval) :
    PrefixesOf n interval (prefixInterval bits (k + 1)) (low ++ high) := by
  constructor
  · intro p hp
    exact (List.mem_append.mp hp).elim (hlow.isPrefix p) (hhigh.isPrefix p)
  · intro p hp
    rcases List.mem_append.mp hp with hp | hp
    · exact ⟨(hlow.inside p hp).1, (hlow.inside p hp).2.trans inside_low⟩
    · exact ⟨(hhigh.inside p hp).1, (hhigh.inside p hp).2.trans inside_high⟩
  · refine List.pairwise_append.mpr ⟨hlow.ordered, hhigh.ordered, fun p hp q hq => ?_⟩
    exact ((hlow.inside p hp).2.2.trans_lt (low_lt_high bits k)).trans_le (hhigh.inside q hq).2.1
  · rintro q ⟨bits', k', hn', rfl⟩ hinterval htest
    obtain ⟨rest, rfl⟩ := (inside_prefixInterval hn hn').mp htest
    cases rest with
    | nil =>
      rw [List.append_nil] at hinterval hn'
      exact absurd ((Nat.add_left_cancel (hn.trans hn'.symm)) ▸ hinterval) hnot
    | cons b rest =>
      have hhalf : Inside (prefixInterval (bits ++ b :: rest) k') (prefixInterval (bits ++ [b]) k) :=
        (inside_prefixInterval (by simp; omega) hn').mpr ⟨rest, by simp⟩
      cases b
      · obtain ⟨p, hp, hqp⟩ := hlow.largest _ ⟨_, _, hn', rfl⟩ hinterval hhalf
        exact ⟨p, List.mem_append_left _ hp, hqp⟩
      · obtain ⟨p, hp, hqp⟩ := hhigh.largest _ ⟨_, _, hn', rfl⟩ hinterval hhalf
        exact ⟨p, List.mem_append_right _ hp, hqp⟩

lemma intersection_eq_right {i j : Interval} : intersection i j = j ↔ Inside j i := by
  simp only [intersection, Prod.ext_iff, Inside, max_eq_right_iff, min_eq_right_iff]

/-- An interval apart from the other one, one inside it, or the halves. -/
lemma getPrefixesIn_cases {test : Interval} (h : getPrefixesIn interval (fuel + 1) test = some ps) :
    ((intersection interval test).2 < (intersection interval test).1 ∧ ps = []) ∨
    (Inside test interval ∧ ps = [test]) ∨
    (¬ Inside test interval ∧ ¬ (intersection interval test).2 < (intersection interval test).1 ∧
      ∃ low high, getPrefixesIn interval fuel (split test).1 = some low ∧
        getPrefixesIn interval fuel (split test).2 = some high ∧ ps = low ++ high) := by
  rw [getPrefixesIn] at h
  split at h
  · exact .inl ⟨‹_›, (Option.some.inj h).symm⟩
  · split at h
    · exact .inr (.inl ⟨intersection_eq_right.mp ‹_›, (Option.some.inj h).symm⟩)
    · simp only [Option.bind_eq_bind, Option.bind_eq_some_iff, Option.some.injEq] at h
      obtain ⟨low, hlow, high, hhigh, rfl⟩ := h
      exact .inr (.inr ⟨mt intersection_eq_right.mpr ‹_›, ‹_›, low, high, hlow, hhigh, rfl⟩)

lemma exists_getPrefixesIn (interval : Interval) (bits : List Bool) (hfuel : k < fuel) :
    ∃ ps, getPrefixesIn interval fuel (prefixInterval bits k) = some ps := by
  induction k generalizing bits fuel with
  | zero =>
    obtain ⟨fuel, rfl⟩ := Nat.exists_eq_add_one.mpr hfuel
    rw [getPrefixesIn]
    split
    · exact ⟨[], rfl⟩
    · rename_i hne
      -- a single number is apart from the interval or inside it
      have heq : intersection interval (prefixInterval bits 0) = prefixInterval bits 0 := by
        simp only [intersection, prefixInterval, pow_zero, mul_one, Nat.add_sub_cancel,
          Prod.mk.injEq] at hne ⊢
        omega
      exact ⟨_, if_pos heq⟩
  | succ k ih =>
    obtain ⟨fuel, rfl⟩ := Nat.exists_eq_add_one_of_ne_zero (Nat.ne_zero_of_lt hfuel)
    obtain ⟨low, hlow⟩ := ih (bits ++ [false]) (Nat.lt_of_succ_lt_succ hfuel)
    obtain ⟨high, hhigh⟩ := ih (bits ++ [true]) (Nat.lt_of_succ_lt_succ hfuel)
    rw [getPrefixesIn, split_prefixInterval, hlow, hhigh]
    split
    · exact ⟨[], rfl⟩
    · split
      · exact ⟨_, rfl⟩
      · exact ⟨low ++ high, rfl⟩

lemma prefixesOf_nil {test : Interval}
    (h : (intersection interval test).2 < (intersection interval test).1) :
    PrefixesOf n interval test [] := by
  refine ⟨by simp, by simp, .nil, fun q hq hinterval htest => ?_⟩
  have hlt := lt_of_le_of_lt (le_min hinterval.2 htest.2)
    (lt_of_lt_of_le h (max_le hinterval.1 htest.1))
  exact absurd hq.le (not_le.mpr hlt)

lemma prefixesOf_whole {test : Interval} (hn : IsPrefix n test) (h : Inside test interval) :
    PrefixesOf n interval test [test] := by
  refine ⟨by simpa using hn, by simpa using ⟨h, le_rfl, le_rfl⟩, List.pairwise_singleton _ _,
    fun q _ _ htest => ⟨test, List.mem_singleton_self test, htest⟩⟩

lemma getPrefixesIn_spec (hn : bits.length + k = n)
    (h : getPrefixesIn interval fuel (prefixInterval bits k) = some ps) :
    PrefixesOf n interval (prefixInterval bits k) ps := by
  induction k generalizing bits fuel ps with
  | zero =>
    cases fuel with
    | zero => cases h
    | succ fuel =>
      rcases getPrefixesIn_cases h with ⟨hempty, rfl⟩ | ⟨hin, rfl⟩ | ⟨hnot, hne, -⟩
      · exact prefixesOf_nil hempty
      · exact prefixesOf_whole ⟨bits, 0, hn, rfl⟩ hin
      · simp only [intersection, Inside, prefixInterval, pow_zero, mul_one,
          Nat.add_sub_cancel] at hnot hne
        omega
  | succ k ih =>
    cases fuel with
    | zero => cases h
    | succ fuel =>
      rcases getPrefixesIn_cases h with ⟨hempty, rfl⟩ | ⟨hin, rfl⟩ |
        ⟨hnot, -, low, high, hlow, hhigh, rfl⟩
      · exact prefixesOf_nil hempty
      · exact prefixesOf_whole ⟨bits, k + 1, hn, rfl⟩ hin
      · rw [split_prefixInterval] at hlow hhigh
        exact (ih (by simp; omega) hlow).append hn (ih (by simp; omega) hhigh) hnot

/-! ### How many -/

lemma length_of_inside {test : Interval} (hin : Inside test interval)
    (h : getPrefixesIn interval fuel test = some ps) : ps.length ≤ 1 := by
  cases fuel with
  | zero => cases h
  | succ fuel =>
    rcases getPrefixesIn_cases h with ⟨-, rfl⟩ | ⟨-, rfl⟩ | ⟨hnot, -⟩
    · exact Nat.zero_le 1
    · exact le_rfl
    · exact absurd hin hnot

/-- An interval that is apart has no prefixes. -/
lemma eq_nil_of_apart {test : Interval}
    (hempty : (intersection interval test).2 < (intersection interval test).1)
    (htest : test.1 ≤ test.2) (h : getPrefixesIn interval fuel test = some ps) : ps = [] := by
  cases fuel with
  | zero => cases h
  | succ fuel =>
    rcases getPrefixesIn_cases h with ⟨-, rfl⟩ | ⟨hin, -⟩ | ⟨-, hne, -⟩
    · rfl
    · rw [intersection_eq_right.mpr hin] at hempty
      exact absurd htest (not_le.mpr hempty)
    · exact absurd hempty hne

/-- An interval that reaches one end of a block has a prefix for every bit at most. -/
lemma length_of_end (hend : interval.1 ≤ (prefixInterval bits k).1 ∨
      (prefixInterval bits k).2 ≤ interval.2)
    (hnot : ¬ Inside (prefixInterval bits k) interval)
    (h : getPrefixesIn interval fuel (prefixInterval bits k) = some ps) : ps.length ≤ k := by
  induction k generalizing bits fuel ps with
  | zero =>
    cases fuel with
    | zero => cases h
    | succ fuel =>
      rcases getPrefixesIn_cases h with ⟨-, rfl⟩ | ⟨hin, -⟩ | ⟨-, hne, -⟩
      · exact le_rfl
      · exact absurd hin hnot
      · simp only [intersection, Inside, prefixInterval, pow_zero, mul_one,
          Nat.add_sub_cancel] at hnot hne
        omega
  | succ k ih =>
    cases fuel with
    | zero => cases h
    | succ fuel =>
      rcases getPrefixesIn_cases h with ⟨-, rfl⟩ | ⟨hin, -⟩ | ⟨-, -, low, high, hlow, hhigh, rfl⟩
      · exact Nat.zero_le _
      · exact absurd hin hnot
      · obtain ⟨hfst, hsnd, hlt, hle₀, hle₁⟩ := halves_ends bits k
        rw [split_prefixInterval] at hlow hhigh
        rw [List.length_append]
        simp only [Inside] at hnot
        rcases hend with hend | hend
        · by_cases hin : Inside (prefixInterval (bits ++ [false]) k) interval
          · have h₀ := length_of_inside hin hlow
            have h₁ := ih (.inl (by omega)) (by simp only [Inside]; omega) hhigh
            omega
          · have h₀ := ih (.inl (by omega)) hin hlow
            simp only [Inside] at hin
            rw [eq_nil_of_apart (by simp only [intersection]; omega) hle₁ hhigh, List.length_nil]
            omega
        · by_cases hin : Inside (prefixInterval (bits ++ [true]) k) interval
          · have h₀ := length_of_inside hin hhigh
            have h₁ := ih (.inr (by omega)) (by simp only [Inside]; omega) hlow
            omega
          · have h₀ := ih (.inr (by omega)) hin hhigh
            simp only [Inside] at hin
            rw [eq_nil_of_apart (by simp only [intersection]; omega) hle₀ hlow, List.length_nil]
            omega

/-- Two prefixes for every bit at most, less two. -/
lemma getPrefixesIn_length
    (h : getPrefixesIn interval fuel (prefixInterval bits k) = some ps) :
    ps.length ≤ max 1 (2 * k - 2) := by
  induction k generalizing bits fuel ps with
  | zero =>
    by_cases hin : Inside (prefixInterval bits 0) interval
    · exact (length_of_inside hin h).trans (le_max_left _ _)
    · cases fuel with
      | zero => cases h
      | succ fuel =>
        rcases getPrefixesIn_cases h with ⟨-, rfl⟩ | ⟨hin', -⟩ | ⟨-, hne, -⟩
        · exact Nat.zero_le _
        · exact absurd hin' hin
        · simp only [intersection, Inside, prefixInterval, pow_zero, mul_one,
            Nat.add_sub_cancel] at hin hne
          omega
  | succ k ih =>
    cases fuel with
    | zero => cases h
    | succ fuel =>
      rcases getPrefixesIn_cases h with ⟨-, rfl⟩ | ⟨-, rfl⟩ |
        ⟨hnot, hne, low, high, hlow, hhigh, rfl⟩
      · exact Nat.zero_le _
      · exact le_max_left _ _
      · obtain ⟨hfst, hsnd, hlt, hle₀, hle₁⟩ := halves_ends bits k
        rw [split_prefixInterval] at hlow hhigh
        rw [List.length_append]
        simp only [Inside] at hnot
        simp only [intersection] at hne
        by_cases hhi : interval.2 < (prefixInterval (bits ++ [true]) k).1
        · have h₀ := ih hlow
          rw [eq_nil_of_apart (by simp only [intersection]; omega) hle₁ hhigh, List.length_nil]
          omega
        · by_cases hlo : (prefixInterval (bits ++ [false]) k).2 < interval.1
          · have h₁ := ih hhigh
            rw [eq_nil_of_apart (by simp only [intersection]; omega) hle₀ hlow, List.length_nil]
            omega
          · -- the interval reaches over the middle
            have hlow' : ¬ Inside (prefixInterval (bits ++ [false]) k) interval →
                low.length ≤ k := fun hin => length_of_end (.inr (by omega)) hin hlow
            have hhigh' : ¬ Inside (prefixInterval (bits ++ [true]) k) interval →
                high.length ≤ k := fun hin => length_of_end (.inl (by omega)) hin hhigh
            by_cases hin : Inside (prefixInterval (bits ++ [false]) k) interval
            · have h₀ := length_of_inside hin hlow
              have h₁ := hhigh' (by simp only [Inside] at hin ⊢; omega)
              omega
            · have h₀ := hlow' hin
              by_cases hin' : Inside (prefixInterval (bits ++ [true]) k) interval
              · have h₁ := length_of_inside hin' hhigh
                omega
              · have h₁ := hhigh' hin'
                omega

/-! ### The prefixes of an interval -/

lemma PrefixesOf.covers {test : Interval} (h : PrefixesOf n interval test ps)
    (hv : v < 2 ^ n) (hmem : v ∈ Set.Icc interval.1 interval.2) (htest : v ∈ Set.Icc test.1 test.2) :
    ∃ p ∈ ps, v ∈ Set.Icc p.1 p.2 := by
  obtain ⟨key, hkey, hpoint⟩ := exists_point hv
  exact h.largest (v, v) ⟨key, 0, hkey, hpoint.symm⟩ hmem htest

lemma PrefixesOf.eq_of_mem {test : Interval} (h : PrefixesOf n interval test ps) (hp : p ∈ ps)
    (hq : q ∈ ps) (hvp : v ∈ Set.Icc p.1 p.2) (hvq : v ∈ Set.Icc q.1 q.2) : p = q := by
  by_contra hne
  have : Std.Symm (fun p q : Interval => p.2 < q.1 ∨ q.2 < p.1) := ⟨fun _ _ hlt => hlt.symm⟩
  have happart : ps.Pairwise (fun p q => p.2 < q.1 ∨ q.2 < p.1) := h.ordered.imp Or.inl
  have hlt := happart.forall hp hq hne
  simp only [Set.mem_Icc] at hvp hvq
  omega

/-- No fewer prefixes inside the interval have all of its numbers. -/
lemma PrefixesOf.length_le {test : Interval} (h : PrefixesOf n interval test ps)
    {qs : List Interval} (hqs : ∀ q ∈ qs, IsPrefix n q ∧ Inside q interval ∧ Inside q test)
    (hall : ∀ p ∈ ps, ∃ q ∈ qs, p.1 ∈ Set.Icc q.1 q.2) : ps.length ≤ qs.length := by
  have hfst : ∀ p ∈ ps, p.1 ∈ Set.Icc p.1 p.2 := fun p hp => ⟨le_rfl, (h.isPrefix p hp).le⟩
  -- what has the first number of a prefix is inside the prefix
  have hinside : ∀ p ∈ ps, ∀ q ∈ qs, p.1 ∈ Set.Icc q.1 q.2 → Inside q p := by
    intro p hp q hq hmem
    obtain ⟨hpre, hinterval, htest⟩ := hqs q hq
    obtain ⟨p', hp', hin⟩ := h.largest q hpre hinterval htest
    rwa [h.eq_of_mem hp hp' (hfst p hp) ⟨hin.1.trans hmem.1, hmem.2.trans hin.2⟩]
  choose! g hg hgmem using hall
  have hinj : ∀ p ∈ ps, ∀ p' ∈ ps, g p = g p' → p = p' := by
    intro p hp p' hp' heq
    have hin := hinside p hp _ (hg p hp) (hgmem p hp)
    have hin' := hinside p' hp' _ (hg p' hp') (hgmem p' hp')
    rw [← heq] at hin'
    have hle := (hqs _ (hg p hp)).1.le
    exact h.eq_of_mem hp hp' ⟨hin.1, hle.trans hin.2⟩ ⟨hin'.1, hle.trans hin'.2⟩
  have hnodup : ps.Nodup := h.ordered.imp_of_mem fun {p q} hp _ hlt heq => by
    rw [← heq] at hlt
    exact absurd (h.isPrefix p hp).le (not_le.mpr hlt)
  have hmap : (ps.map g).Nodup := hnodup.map_on hinj
  have hsub : ps.map g ⊆ qs := by
    intro q hq
    obtain ⟨p, hp, rfl⟩ := List.mem_map.mp hq
    exact hg p hp
  have hle := (hmap.subperm hsub).length_le
  rwa [List.length_map] at hle

lemma exists_getPrefixes (interval : Interval) : ∃ ps, getPrefixes interval = some ps ∧
    PrefixesOf testBits interval (0, 2 ^ testBits - 1) ps := by
  obtain ⟨ps, hps⟩ := exists_getPrefixesIn interval [] (Nat.lt_succ_self testBits)
  have hspec := getPrefixesIn_spec (Nat.zero_add testBits) hps
  rw [prefixInterval_nil] at hps hspec
  exact ⟨ps, hps, hspec⟩

/-- A block is its own and only prefix. -/
lemma getPrefixes_prefixInterval (hn : bits.length + k = testBits) :
    getPrefixes (prefixInterval bits k) = some [prefixInterval bits k] := by
  obtain ⟨ps, hps, hspec⟩ := exists_getPrefixes (prefixInterval bits k)
  have hblock : IsPrefix testBits (prefixInterval bits k) := ⟨bits, k, hn, rfl⟩
  have htest : Inside (prefixInterval bits k) (0, 2 ^ testBits - 1) :=
    ⟨Nat.zero_le _, Nat.le_sub_one_of_lt (hn ▸ prefixInterval_lt bits k)⟩
  obtain ⟨p, hp, hin⟩ := hspec.largest _ hblock ⟨le_rfl, le_rfl⟩ htest
  have hle : ps.length ≤ 1 := by
    have hone : ∀ q ∈ [prefixInterval bits k], IsPrefix testBits q ∧
        Inside q (prefixInterval bits k) ∧ Inside q (0, 2 ^ testBits - 1) := by
      simpa using ⟨hblock, ⟨le_rfl, le_rfl⟩, htest⟩
    exact hspec.length_le hone fun p hp => ⟨_, List.mem_singleton_self _,
      (hspec.inside p hp).1.1, (hspec.isPrefix p hp).le.trans (hspec.inside p hp).1.2⟩
  obtain ⟨q, rfl⟩ := List.length_eq_one_iff.mp (le_antisymm hle (List.length_pos_of_mem hp))
  obtain rfl := List.mem_singleton.mp hp
  have heq : p = prefixInterval bits k :=
    Prod.ext (le_antisymm hin.1 (hspec.inside p hp).1.1) (le_antisymm (hspec.inside p hp).1.2 hin.2)
  rw [hps, heq]

/-- `Get_Prefixes` returns, in their order, prefixes that have the numbers of the interval, and
no others. There are no fewer, and at most 510. -/
theorem getPrefixes_fewest (interval : Interval) : ∃ ps, getPrefixes interval = some ps ∧
    (∀ p ∈ ps, IsPrefix testBits p) ∧ ps.Pairwise (fun p q => p.2 < q.1) ∧
    (∀ v, (∃ p ∈ ps, v ∈ Set.Icc p.1 p.2) ↔
      v ∈ Set.Icc interval.1 interval.2 ∧ v < 2 ^ testBits) ∧
    ps.length ≤ 510 ∧
    ∀ qs : List Interval, (∀ q ∈ qs, IsPrefix testBits q) →
      (∀ v, (∃ q ∈ qs, v ∈ Set.Icc q.1 q.2) ↔
        v ∈ Set.Icc interval.1 interval.2 ∧ v < 2 ^ testBits) → ps.length ≤ qs.length := by
  obtain ⟨ps, hps, hspec⟩ := exists_getPrefixes interval
  have hpow := Nat.one_le_two_pow (n := testBits)
  have hmem : ∀ p ∈ ps, ∀ v ∈ Set.Icc p.1 p.2,
      v ∈ Set.Icc interval.1 interval.2 ∧ v < 2 ^ testBits := by
    intro p hp v hv
    obtain ⟨hinterval, htest⟩ := hspec.inside p hp
    exact ⟨⟨hinterval.1.trans hv.1, hv.2.trans hinterval.2⟩,
      Nat.lt_of_le_sub_one hpow (hv.2.trans htest.2)⟩
  refine ⟨ps, hps, hspec.isPrefix, hspec.ordered, fun v => ⟨?_, ?_⟩, ?_, fun qs hqs hall => ?_⟩
  · rintro ⟨p, hp, hv⟩
    exact hmem p hp v hv
  · rintro ⟨hv, hlt⟩
    exact hspec.covers hlt hv ⟨Nat.zero_le _, Nat.le_sub_one_of_lt hlt⟩
  · rw [getPrefixes, ← prefixInterval_nil] at hps
    exact getPrefixesIn_length hps
  · have hfst : ∀ p ∈ ps, p.1 ∈ Set.Icc p.1 p.2 := fun p hp => ⟨le_rfl, (hspec.isPrefix p hp).le⟩
    refine hspec.length_le (fun q hq => ?_) fun p hp => (hall p.1).mpr (hmem p hp _ (hfst p hp))
    have hle := (hqs q hq).le
    have hlo := (hall q.1).mp ⟨q, hq, le_rfl, hle⟩
    have hhi := (hall q.2).mp ⟨q, hq, hle, le_rfl⟩
    exact ⟨hqs q hq, ⟨hlo.1.1, hhi.1.2⟩, Nat.zero_le _, Nat.le_sub_one_of_lt hhi.2⟩

example : getPrefixes (1, 6) = some [(1, 1), (2, 3), (4, 5), (6, 6)] := by decide +kernel

end ResSim
