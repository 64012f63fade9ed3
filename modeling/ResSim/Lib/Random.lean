import Mathlib.Data.List.Perm.Basic
import Mathlib.Data.List.InsertIdx

/-!
# Random choices

A run of a randomised program is a function of the numbers it draws. `Rnd` is the stream of
numbers still to be drawn; `choice` and `shuffle` turn one drawn number into an element or
an order of a list. Every element and every order comes from some number, so a statement
about every stream is a statement about every outcome.
-/

namespace ResSim

/-- The numbers a run has still to draw. -/
abbrev Rnd := ℕ → ℕ

/-- The stream after one draw. -/
def Rnd.next (rnd : Rnd) : Rnd := fun n => rnd (n + 1)

/-- Every second number, for two parts of a run to share a stream. -/
def Rnd.half (rnd : Rnd) : Rnd := fun n => rnd (2 * n)

/-- The stream that starts with a given number. -/
def Rnd.cons (draw : ℕ) (rnd : Rnd) : Rnd
  | 0 => draw
  | n + 1 => rnd n

/-- The streams start with the same numbers. -/
def Rnd.SameFor (draws : ℕ) (rnd rnd' : Rnd) : Prop := ∀ n < draws, rnd' n = rnd n

@[simp] lemma Rnd.next_cons (draw : ℕ) (rnd : Rnd) : (rnd.cons draw).next = rnd := rfl

@[simp] lemma Rnd.cons_zero (draw : ℕ) (rnd : Rnd) : rnd.cons draw 0 = draw := rfl

@[simp] lemma Rnd.cons_one (draw : ℕ) (rnd : Rnd) : rnd.cons draw 1 = rnd 0 := rfl

lemma Rnd.SameFor.cons {draws : ℕ} {rnd rnd' : Rnd} (h : SameFor (draws - 1) rnd.next rnd') :
    SameFor draws rnd (rnd'.cons (rnd 0)) := by
  intro n hn
  cases n with
  | zero => rfl
  | succ n => exact h n (by omega)

variable {α : Type}

/-- `random.choice`: an element of a list, `none` on the empty list. -/
def choice (draw : ℕ) (xs : List α) : Option α := xs[draw % xs.length]?

/-- `random.shuffle`: the list in some order. -/
def shuffle : ℕ → List α → List α
  | _, [] => []
  | draw, x :: xs =>
    (shuffle (draw / (xs.length + 1)) xs).insertIdx (draw % (xs.length + 1)) x

lemma choice_mem {draw : ℕ} {xs : List α} {x : α} (h : choice draw xs = some x) : x ∈ xs :=
  List.mem_of_getElem? h

lemma exists_choice_of_ne_nil (draw : ℕ) {xs : List α} (h : xs ≠ []) :
    ∃ x, choice draw xs = some x := by
  have hlt : draw % xs.length < xs.length := Nat.mod_lt _ (List.length_pos_iff.mpr h)
  exact ⟨xs[draw % xs.length], List.getElem?_eq_getElem hlt⟩

@[simp] lemma shuffle_length (draw : ℕ) (xs : List α) : (shuffle draw xs).length = xs.length := by
  induction xs generalizing draw with
  | nil => rfl
  | cons x xs ih =>
    have hlt : draw % (xs.length + 1) ≤ xs.length := by
      have := Nat.mod_lt draw (show 0 < xs.length + 1 by omega)
      omega
    rw [shuffle, List.length_insertIdx, ih, if_pos hlt, List.length_cons]

lemma shuffle_perm (draw : ℕ) (xs : List α) : (shuffle draw xs).Perm xs := by
  induction xs generalizing draw with
  | nil => exact List.Perm.refl _
  | cons x xs ih =>
    have hlt : draw % (xs.length + 1) ≤ (shuffle (draw / (xs.length + 1)) xs).length := by
      have := Nat.mod_lt draw (show 0 < xs.length + 1 by omega)
      rw [shuffle_length]
      omega
    rw [shuffle]
    exact (List.perm_insertIdx x _ hlt).trans ((ih _).cons x)

@[simp] lemma mem_shuffle {draw : ℕ} {xs : List α} {x : α} : x ∈ shuffle draw xs ↔ x ∈ xs :=
  (shuffle_perm draw xs).mem_iff

/-- Every order of a list is the outcome of some draw. -/
theorem exists_shuffle_eq {xs ys : List α} (h : ys.Perm xs) : ∃ draw, shuffle draw xs = ys := by
  induction xs generalizing ys with
  | nil => exact ⟨0, (List.perm_nil.mp h).symm⟩
  | cons x xs ih =>
    obtain ⟨a, b, rfl⟩ := List.append_of_mem (h.mem_iff.mpr (List.mem_cons_self ..))
    have hab : (a ++ b).Perm xs := List.Perm.cons_inv (List.perm_middle.symm.trans h)
    obtain ⟨draw, hd⟩ := ih hab
    have hlen : a.length < xs.length + 1 := by
      have := hab.length_eq
      simp only [List.length_append] at this
      omega
    refine ⟨draw * (xs.length + 1) + a.length, ?_⟩
    have hmod : (draw * (xs.length + 1) + a.length) % (xs.length + 1) = a.length := by
      rw [Nat.add_comm, Nat.add_mul_mod_self_right, Nat.mod_eq_of_lt hlen]
    have hdiv : (draw * (xs.length + 1) + a.length) / (xs.length + 1) = draw := by
      rw [Nat.add_comm, Nat.add_mul_div_right _ _ (Nat.succ_pos _), Nat.div_eq_of_lt hlen,
        Nat.zero_add]
    rw [shuffle, hmod, hdiv, hd]
    clear hmod hdiv hd hlen hab h
    induction a with
    | nil => simp
    | cons y a iha => simpa using iha

end ResSim
