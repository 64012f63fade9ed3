import Mathlib.Data.List.Basic
import Mathlib.Order.Basic

/-!
# Cutting a list into few blocks

A list is divided into consecutive blocks in which no two elements conflict. From the end on,
a block is filled up to the first element that conflicts with it. That leaves a first block
that is as short as it can be in a division into as few blocks as there can be, and so each
further element keeps the number of blocks least.
-/

namespace ResSim

variable {α : Type} {Conflict : α → α → Prop} {xs P : List α} {parts : List (List α)} {k : ℕ}
  {e x : α}

/-- Consecutive blocks without conflicts. -/
structure Division (Conflict : α → α → Prop) (xs : List α) (parts : List (List α)) : Prop where
  flatten : parts.flatten = xs
  free : ∀ P ∈ parts, ∀ x ∈ P, ∀ y ∈ P, ¬ Conflict x y

/-- Every division has `k` blocks, and where it has no more the first is as long as `P`. -/
def Tight (Conflict : α → α → Prop) (xs P : List α) (k : ℕ) : Prop :=
  ∀ parts, Division Conflict xs parts → [] ∉ parts →
    k ≤ parts.length ∧ (parts.length = k → P.length ≤ (parts.headD []).length)

lemma Tight.le_length (h : Tight Conflict xs P k) (hd : Division Conflict xs parts) :
    k ≤ parts.length := by
  have hd' : Division Conflict xs (parts.filter (fun Q => !Q.isEmpty)) := by
    refine ⟨?_, fun Q hQ => hd.free Q (List.mem_filter.mp hQ).1⟩
    rw [List.flatten_filter_not_isEmpty]
    exact hd.flatten
  have hle := (h _ hd' (by simp)).1
  exact Nat.le_trans hle (List.length_filter_le ..)

/-- The blocks of a longer list: its first element is one of its own, or stands in front of the
first block of the rest. -/
lemma Division.cons_cases (hd : Division Conflict (e :: xs) parts) (hne : [] ∉ parts) :
    (∃ rest, parts = [e] :: rest ∧ Division Conflict xs rest ∧ [] ∉ rest) ∨
    ∃ Q rest, parts = (e :: Q) :: rest ∧ Division Conflict xs (Q :: rest) ∧ [] ∉ Q :: rest := by
  cases parts with
  | nil => cases hd.flatten
  | cons P rest =>
    have hrest : ∀ R ∈ rest, R ≠ [] := fun R hR hnil =>
      hne (List.mem_cons_of_mem _ (hnil ▸ hR))
    have hfree := List.forall_mem_cons.mp hd.free
    cases P with
    | nil => exact absurd List.mem_cons_self hne
    | cons a Q =>
      have hflat := hd.flatten
      simp only [List.flatten_cons, List.cons_append, List.cons.injEq] at hflat
      obtain ⟨rfl, hflat⟩ := hflat
      cases Q with
      | nil => exact .inl ⟨rest, rfl, ⟨by simpa using hflat, hfree.2⟩, fun h => hrest _ h rfl⟩
      | cons b Q =>
        refine .inr ⟨b :: Q, rest, rfl, ⟨by simpa using hflat, ?_⟩, ?_⟩
        · rw [List.forall_mem_cons]
          refine ⟨fun x hx y hy => ?_, hfree.2⟩
          exact hfree.1 x (List.mem_cons_of_mem _ hx) y (List.mem_cons_of_mem _ hy)
        · rw [List.mem_cons, not_or]
          exact ⟨nofun, fun h => hrest _ h rfl⟩

lemma tight_singleton : Tight Conflict [e] [e] 1 := by
  intro parts hd hne
  rcases hd.cons_cases hne with ⟨rest, rfl, _⟩ | ⟨Q, rest, rfl, _⟩
  · exact ⟨by simp, fun _ => by simp⟩
  · exact ⟨by simp, fun _ => by simp⟩

lemma Tight.extend (h : Tight Conflict xs P k) : Tight Conflict (e :: xs) (e :: P) k := by
  intro parts hd hne
  rcases hd.cons_cases hne with ⟨rest, rfl, hrest⟩ | ⟨Q, rest, rfl, hrest⟩
  · have hle := (h _ hrest.1 hrest.2).1
    rw [List.length_cons]
    exact ⟨by omega, fun heq => by omega⟩
  · obtain ⟨hle, hfirst⟩ := h _ hrest.1 hrest.2
    exact ⟨hle, fun heq => Nat.succ_le_succ (hfirst heq)⟩

/-- An element that conflicts with the first block starts a new one. -/
lemma Tight.cut (h : Tight Conflict xs P k) (hP : P <+: xs) (hx : x ∈ P) (hc : Conflict e x) :
    Tight Conflict (e :: xs) [e] (k + 1) := by
  intro parts hd hne
  have hfirst : 1 ≤ (parts.headD []).length := by
    cases parts with
    | nil => cases hd.flatten
    | cons Q rest =>
      apply List.length_pos_iff.mpr
      rintro rfl
      exact hne List.mem_cons_self
  refine ⟨?_, fun _ => hfirst⟩
  have hfree := hd.free
  rcases hd.cons_cases hne with ⟨rest, rfl, hrest⟩ | ⟨Q, rest, rfl, hrest⟩
  · exact Nat.succ_le_succ (h _ hrest.1 hrest.2).1
  · obtain ⟨hle, hlong⟩ := h _ hrest.1 hrest.2
    by_contra hlt
    have heq : (Q :: rest).length = k := by
      simp only [List.length_cons] at hle hlt ⊢
      omega
    -- with as few blocks the first one holds all of `P`
    have hQ : Q <+: xs := hrest.1.flatten ▸ List.prefix_append Q rest.flatten
    have hxQ : x ∈ Q := (List.prefix_of_prefix_length_le hP hQ (hlong heq)).subset hx
    exact hfree _ List.mem_cons_self e List.mem_cons_self x (List.mem_cons_of_mem _ hxQ) hc

end ResSim
