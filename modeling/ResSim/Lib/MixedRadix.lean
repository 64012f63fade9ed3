import Mathlib.Algebra.BigOperators.Group.List.Basic
import Mathlib.Data.List.Forall2
import Mathlib.Data.List.GetD
import Mathlib.Data.List.Nodup
import Mathlib.Tactic.Common

/-!
# Mixed radix

The digits of a number with one radix per position, least significant first. They number the
vectors of a box. Two such vectors that agree but for one position are related by a replacement
there.
-/

namespace ResSim

/-- The digits that repeated division by the radices leaves. -/
def mixedDigits : List ℕ → ℕ → List ℕ
  | [], _ => []
  | s :: S, n => n % s :: mixedDigits S (n / s)

def mixedValue : List ℕ → List ℕ → ℕ
  | s :: S, a :: as => a + s * mixedValue S as
  | _, _ => 0

/-- The vectors of the box with sides `S`. -/
def InBox (S a : List ℕ) : Prop := List.Forall₂ (· < ·) a S

variable {S a b : List ℕ} {i m n x : ℕ}

lemma mixedValue_mixedDigits (h : n < S.prod) : mixedValue S (mixedDigits S n) = n := by
  induction S generalizing n with
  | nil => exact (Nat.lt_one_iff.mp h).symm
  | cons s S ih =>
    rw [List.prod_cons] at h
    rw [mixedDigits, mixedValue, ih (Nat.div_lt_of_lt_mul h)]
    exact Nat.mod_add_div n s

lemma mixedDigits_inBox (h : n < S.prod) : InBox S (mixedDigits S n) := by
  induction S generalizing n with
  | nil => exact .nil
  | cons s S ih =>
    rw [List.prod_cons] at h
    have hs : 0 < s := Nat.pos_of_ne_zero (by
      rintro rfl
      omega)
    exact .cons (Nat.mod_lt n hs) (ih (Nat.div_lt_of_lt_mul h))

lemma InBox.mixedValue_lt (h : InBox S a) : mixedValue S a < S.prod := by
  induction h with
  | nil => simp [mixedValue]
  | @cons d s as S hd _ ih =>
    rw [mixedValue, List.prod_cons]
    have hmul := Nat.mul_le_mul_left s (Nat.succ_le_of_lt ih)
    rw [Nat.mul_succ] at hmul
    omega

lemma InBox.mixedDigits_mixedValue (h : InBox S a) : mixedDigits S (mixedValue S a) = a := by
  induction h with
  | nil => rfl
  | @cons d s as S hd _ ih =>
    have hs : 0 < s := by omega
    rw [mixedValue, mixedDigits, Nat.add_mul_mod_self_left, Nat.mod_eq_of_lt hd,
      Nat.add_mul_div_left _ _ hs, Nat.div_eq_of_lt hd, Nat.zero_add, ih]

/-- The vectors of the box, in the order of their values. -/
def boxList (S : List ℕ) : List (List ℕ) := (List.range S.prod).map (mixedDigits S)

@[simp] lemma mem_boxList : a ∈ boxList S ↔ InBox S a := by
  simp only [boxList, List.mem_map, List.mem_range]
  constructor
  · rintro ⟨n, hn, rfl⟩
    exact mixedDigits_inBox hn
  · exact fun h => ⟨mixedValue S a, h.mixedValue_lt, h.mixedDigits_mixedValue⟩

@[simp] lemma length_boxList (S : List ℕ) : (boxList S).length = S.prod := by
  rw [boxList, List.length_map, List.length_range]

lemma nodup_boxList (S : List ℕ) : (boxList S).Nodup := by
  refine List.Nodup.map_on (fun m hm n hn h => ?_) List.nodup_range
  rw [← mixedValue_mixedDigits (List.mem_range.mp hm),
    ← mixedValue_mixedDigits (List.mem_range.mp hn), h]

lemma InBox.length_eq (h : InBox S a) : a.length = S.length :=
  List.Forall₂.length_eq h

lemma inBox_iff : InBox S a ↔ a.length = S.length ∧ ∀ i < S.length, a.getD i 0 < S.getD i 0 := by
  rw [InBox, List.forall₂_iff_get]
  refine and_congr_right fun hlen => ⟨fun h i hi => ?_, fun h i ha hS => ?_⟩
  · rw [List.getD_eq_getElem _ _ (hlen ▸ hi), List.getD_eq_getElem _ _ hi]
    exact h i (hlen ▸ hi) hi
  · have := h i hS
    rwa [List.getD_eq_getElem _ _ ha, List.getD_eq_getElem _ _ hS] at this

lemma InBox.ext (ha : InBox S a) (hb : InBox S b)
    (h : ∀ j < S.length, a.getD j 0 = b.getD j 0) : a = b := by
  refine List.ext_getElem (ha.length_eq.trans hb.length_eq.symm) fun j hj hj' => ?_
  have := h j (ha.length_eq ▸ hj)
  rwa [List.getD_eq_getElem _ _ hj, List.getD_eq_getElem _ _ hj'] at this

lemma getD_set (hi : i < a.length) (j : ℕ) :
    (a.set i x).getD j 0 = if j = i then x else a.getD j 0 := by
  simp only [List.getD_eq_getElem?_getD, List.getElem?_set, eq_comm (a := j), hi, if_true]
  split <;> rfl

/-- Replacing a digit by one below the radix stays in the box. -/
lemma InBox.set (h : InBox S a) (hi : i < S.length) (hx : x < S.getD i 0) :
    InBox S (a.set i x) := by
  obtain ⟨hlen, hlt⟩ := inBox_iff.mp h
  refine inBox_iff.mpr ⟨by rw [List.length_set, hlen], fun j hj => ?_⟩
  rw [getD_set (hlen ▸ hi)]
  split
  · subst_vars
    exact hx
  · exact hlt j hj

/-- The vectors agree everywhere but at position `i`. -/
def DifferOnly (i : ℕ) (a b : List ℕ) : Prop :=
  a.getD i 0 ≠ b.getD i 0 ∧ ∀ j, j ≠ i → a.getD j 0 = b.getD j 0

lemma DifferOnly.symm (h : DifferOnly i a b) : DifferOnly i b a :=
  ⟨h.1.symm, fun j hj => (h.2 j hj).symm⟩

lemma DifferOnly.unique {j : ℕ} (h : DifferOnly i a b) (h' : DifferOnly j a b) : i = j := by
  by_contra hij
  exact h.1 (h'.2 i hij)

/-- Which replacements of one digit lead to another vector. -/
lemma set_eq_iff (ha : InBox S a) (hb : InBox S b) (hab : a ≠ b) (hi : i < S.length)
    (hx : x < S.getD i 0) : a.set i x = b ↔ DifferOnly i a b ∧ x = b.getD i 0 := by
  have hi' : i < a.length := ha.length_eq ▸ hi
  constructor
  · rintro rfl
    have hget := getD_set (x := x) hi'
    refine ⟨⟨fun heq => hab ?_, fun j hj => ?_⟩, ?_⟩
    · refine ha.ext hb fun j _ => ?_
      rw [hget]
      split
      · subst_vars
        rw [heq, hget, if_pos rfl]
      · rfl
    · rw [hget, if_neg hj]
    · rw [hget, if_pos rfl]
  · rintro ⟨hd, rfl⟩
    refine (ha.set hi hx).ext hb fun j _ => ?_
    rw [getD_set hi']
    split
    · subst_vars
      rfl
    · exact hd.2 j ‹_›

lemma set_eq_self_iff (ha : InBox S a) (hi : i < S.length) :
    a.set i x = a ↔ x = a.getD i 0 := by
  have hi' : i < a.length := ha.length_eq ▸ hi
  constructor
  · intro h
    rw [← h, getD_set hi', if_pos rfl]
  · rintro rfl
    rw [List.getD_eq_getElem _ _ hi', List.set_getElem_self]

end ResSim
