import Mathlib.Data.Int.Basic
import Mathlib.Data.List.Basic
import Mathlib.Tactic.Basic

/-!
# Texts

A text is a list of characters. `digits` writes a number in decimal and `readNat` reads one;
`firstWord` and `lastWord` are what stands before the first and behind the last blank.
-/

namespace ResSim

/-- A text. -/
abbrev Text := List Char

instance : LawfulBEq Text := inferInstance

/-- `str(n)`. -/
def digits (n : ℕ) : Text := Nat.toDigits 10 n

/-- `int(t)` for a text of digits. -/
def readNat (t : Text) : Option ℕ :=
  if t ≠ [] ∧ t.all Char.isDigit then some (Nat.ofDigitChars 10 t 0) else none

/-- `str(n)` of a number that may be negative. -/
def intText (n : ℤ) : Text := if n < 0 then '-' :: digits n.natAbs else digits n.natAbs

/-- `int(t)` for digits behind at most a minus sign. -/
def readInt (t : Text) : Option ℤ :=
  match t with
  | '-' :: t => (readNat t).map (fun n : ℕ => -(n : ℤ))
  | t => (readNat t).map (fun n : ℕ => (n : ℤ))

/-- `t.split(' ')[0]`. -/
def firstWord (t : Text) : Text := (t.splitOn ' ').headD []

/-- `t.split(' ')[-1]`. -/
def lastWord (t : Text) : Text := (t.splitOn ' ').getLastD []

/-- `s <= t`: letter by letter. -/
def textLe : Text → Text → Bool
  | [], _ => true
  | _ :: _, [] => false
  | a :: s, b :: t => a.toNat < b.toNat || (a = b && textLe s t)

variable {a b t : Text} {m n : ℕ} {c : Char}

lemma textLe_total (s t : Text) : textLe s t = true ∨ textLe t s = true := by
  induction s generalizing t with
  | nil => exact .inl rfl
  | cons a s ih =>
    cases t with
    | nil => exact .inr rfl
    | cons b t =>
      simp only [textLe, Bool.or_eq_true, Bool.and_eq_true, decide_eq_true_eq]
      by_cases hab : a = b
      · subst hab
        exact (ih t).imp (fun h => .inr ⟨rfl, h⟩) (fun h => .inr ⟨rfl, h⟩)
      · have hne : a.toNat ≠ b.toNat := fun h => hab (Char.toNat_inj.mp h)
        omega

lemma textLe_antisymm {s t : Text} (h : textLe s t = true) (h' : textLe t s = true) : s = t := by
  induction s generalizing t with
  | nil => cases t <;> simp_all [textLe]
  | cons a s ih =>
    cases t with
    | nil => cases h
    | cons b t =>
      simp only [textLe, Bool.or_eq_true, Bool.and_eq_true, decide_eq_true_eq] at h h'
      rcases h with h | ⟨rfl, h⟩
      · rcases h' with h' | ⟨rfl, -⟩ <;> omega
      · rcases h' with h' | ⟨-, h'⟩
        · omega
        · rw [ih h h']

lemma textLe_trans {s t u : Text} (h : textLe s t = true) (h' : textLe t u = true) :
    textLe s u = true := by
  induction s generalizing t u with
  | nil => rfl
  | cons a s ih =>
    cases t with
    | nil => cases h
    | cons b t =>
      cases u with
      | nil => cases h'
      | cons c u =>
        simp only [textLe, Bool.or_eq_true, Bool.and_eq_true, decide_eq_true_eq] at h h' ⊢
        rcases h with h | ⟨rfl, h⟩
        · rcases h' with h' | ⟨rfl, -⟩
          · exact .inl (by omega)
          · exact .inl h
        · rcases h' with h' | ⟨rfl, h'⟩
          · exact .inl h'
          · exact .inr ⟨rfl, ih h h'⟩

lemma isDigit_of_mem_digits (h : c ∈ digits n) : c.isDigit = true :=
  Nat.isDigit_of_mem_toDigits (by omega) (by omega) h

@[simp] lemma readNat_digits (n : ℕ) : readNat (digits n) = some n := by
  unfold readNat
  rw [if_pos]
  · exact congrArg some Nat.ofDigitChars_ten_toDigits
  · exact ⟨Nat.toDigits_ne_nil, List.all_eq_true.mpr fun c hc => isDigit_of_mem_digits hc⟩

lemma digits_injective (h : digits m = digits n) : m = n := by
  have hread := congrArg readNat h
  simpa using hread

lemma exists_digits (n : ℕ) : ∃ c t, digits n = c :: t ∧ c.isDigit = true := by
  cases h : digits n with
  | nil => exact absurd h Nat.toDigits_ne_nil
  | cons c t => exact ⟨c, t, rfl, isDigit_of_mem_digits (h ▸ List.mem_cons_self)⟩

@[simp] lemma readInt_intText (n : ℤ) : readInt (intText n) = some n := by
  unfold intText
  split
  · have hread : readInt ('-' :: digits n.natAbs) =
        (readNat (digits n.natAbs)).map (fun n : ℕ => -(n : ℤ)) := rfl
    rw [hread, readNat_digits, Option.map_some]
    congr 1
    omega
  · obtain ⟨c, t, hdig, hc⟩ := exists_digits n.natAbs
    have hread : readNat (c :: t) = some n.natAbs := by rw [← hdig, readNat_digits]
    rw [hdig]
    unfold readInt
    split
    · rename_i heq
      rw [(List.cons.inj heq).1] at hc
      exact absurd hc (by decide)
    · rw [hread, Option.map_some]
      congr 1
      omega

lemma intText_injective : Function.Injective intText := by
  intro m n h
  have hread := congrArg readInt h
  simpa using hread

lemma blank_not_mem_digits (n : ℕ) : ' ' ∉ digits n := by
  intro h
  have := isDigit_of_mem_digits h
  revert this
  decide

@[simp] lemma firstWord_append_blank (h : ' ' ∉ a) : firstWord (a ++ ' ' :: b) = a := by
  unfold firstWord
  rw [List.splitOn_append_cons_self_of_not_mem h, List.headD_cons]

lemma firstWord_eq_self (h : ' ' ∉ a) : firstWord a = a := by
  unfold firstWord
  rw [List.splitOn_eq_singleton h, List.headD_cons]

lemma firstWord_append (h : ' ' ∉ a) (b : Text) : firstWord (a ++ b) = a ++ firstWord b := by
  by_cases hb : ' ' ∈ b
  · obtain ⟨c, d, rfl, hc⟩ := List.eq_append_cons_of_mem hb
    rw [← List.append_assoc, firstWord_append_blank hc, firstWord_append_blank]
    simp [h, hc]
  · rw [firstWord_eq_self hb, firstWord_eq_self]
    simp [h, hb]

lemma firstWord_append_blank_eq (a b : Text) : firstWord (a ++ ' ' :: b) = firstWord a := by
  by_cases ha : ' ' ∈ a
  · obtain ⟨c, d, rfl, hc⟩ := List.eq_append_cons_of_mem ha
    rw [List.append_assoc, List.cons_append, firstWord_append_blank hc, firstWord_append_blank hc]
  · rw [firstWord_append_blank ha, firstWord_eq_self ha]

@[simp] lemma lastWord_append_blank (h : ' ' ∉ b) : lastWord (a ++ ' ' :: b) = b := by
  unfold lastWord
  rw [List.splitOn_append_cons_self, List.splitOn_eq_singleton h, List.getLastD_concat]

lemma append_blank_inj {a' b' : Text} (hb : ' ' ∉ b) (hb' : ' ' ∉ b')
    (h : a ++ ' ' :: b = a' ++ ' ' :: b') : a = a' ∧ b = b' := by
  have hlast : b = b' := by
    have := congrArg lastWord h
    rwa [lastWord_append_blank hb, lastWord_append_blank hb'] at this
  subst hlast
  exact ⟨List.append_cancel_right h, rfl⟩

end ResSim
