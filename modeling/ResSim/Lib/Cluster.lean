import Mathlib.Data.Finset.Insert
import Mathlib.Logic.Relation

/-!
# Growing a connected set

A set is joined if its elements are connected by steps within it. A joined set stays joined
when a neighbour of an element is added, and in a connected graph such a neighbour exists as
long as something is left.
-/

namespace ResSim

open Relation

variable {α : Type} {adj : α → α → Prop} {F : Finset α} {a b x y : α}

/-- Any two elements are connected by steps between elements. -/
def Joined (adj : α → α → Prop) (F : Finset α) : Prop :=
  ∀ a ∈ F, ∀ b ∈ F, ReflTransGen (fun x y => x ∈ F ∧ y ∈ F ∧ adj x y) a b

lemma exists_boundary (h : ReflTransGen adj a b) (ha : a ∈ F) (hb : b ∉ F) :
    ∃ x ∈ F, ∃ y, adj x y ∧ y ∉ F := by
  induction h with
  | refl => exact absurd ha hb
  | @tail x y _ hxy ih =>
    by_cases hx : x ∈ F
    · exact ⟨x, hx, y, hxy, hb⟩
    · exact ih hx

lemma joined_singleton : Joined adj {a} := by
  intro x hx y hy
  rw [Finset.mem_singleton.mp hx, Finset.mem_singleton.mp hy]

lemma Joined.grow [DecidableEq α] (h : Joined adj F) (hsymm : ∀ p q, adj p q → adj q p)
    (hx : x ∈ F) (hxy : adj x y) : Joined adj (insert y F) := by
  have hold : ∀ a ∈ F, ∀ b ∈ F, ReflTransGen
      (fun p q => p ∈ insert y F ∧ q ∈ insert y F ∧ adj p q) a b := by
    intro a ha b hb
    refine ReflTransGen.mono ?_ _ _ (h a ha b hb)
    rintro p q ⟨hp, hq, hpq⟩
    exact ⟨Finset.mem_insert_of_mem hp, Finset.mem_insert_of_mem hq, hpq⟩
  have hx' : x ∈ insert y F := Finset.mem_insert_of_mem hx
  have hy' : y ∈ insert y F := Finset.mem_insert_self y F
  intro a ha b hb
  rcases Finset.mem_insert.mp ha with rfl | haF
  · rcases Finset.mem_insert.mp hb with rfl | hbF
    · exact .refl
    · exact (hold x hx b hbF).head ⟨hy', hx', hsymm x a hxy⟩
  · rcases Finset.mem_insert.mp hb with rfl | hbF
    · exact (hold a haF x hx).tail ⟨hx', hy', hxy⟩
    · exact hold a haF b hbF

/-- All elements of a connected graph are joined. -/
lemma joined_of_connected (hconn : ∀ a ∈ F, ∀ b ∈ F, ReflTransGen adj a b)
    (hall : ∀ x ∈ F, ∀ y, adj x y → y ∈ F) : Joined adj F := by
  intro a ha b hb
  have hstay : ∀ c, ReflTransGen adj a c →
      c ∈ F ∧ ReflTransGen (fun x y => x ∈ F ∧ y ∈ F ∧ adj x y) a c := by
    intro c hc
    induction hc with
    | refl => exact ⟨ha, .refl⟩
    | tail _ hpq ih =>
      have hq := hall _ ih.1 _ hpq
      exact ⟨hq, ih.2.tail ⟨ih.1, hq, hpq⟩⟩
  exact (hstay b (hconn a ha b hb)).2

end ResSim
