import ResSim.Lib.DepthFirst

/-!
# Connected graphs

When directions do not count, an edge of a cycle can be replaced by the rest of the cycle. So
deleting an edge of a cycle leaves connected what was connected.
-/

namespace ResSim

open Relation

variable {α : Type} {x y a b : α} {l c : List α}

lemma reflTransGen_from_head (h : b ∈ x :: l) : ReflTransGen (EdgeRel (steps (x :: l))) x b := by
  induction l generalizing x with
  | nil =>
    rw [List.mem_singleton.mp h]
  | cons y l ih =>
    rcases List.mem_cons.mp h with rfl | h
    · exact .refl
    · have hrest := ReflTransGen.mono (p := EdgeRel (steps (x :: y :: l)))
        (fun _ _ h => List.mem_cons_of_mem _ h) _ _ (ih h)
      exact hrest.head (List.mem_cons_self ..)

lemma reflTransGen_to_last (h : a ∈ l ++ [y]) :
    ReflTransGen (EdgeRel (steps (l ++ [y]))) a y := by
  induction l with
  | nil =>
    rw [List.mem_singleton.mp h]
  | cons x l ih =>
    rcases List.mem_cons.mp h with rfl | h
    · exact reflTransGen_from_head (l := l ++ [y]) (by simp)
    · refine ReflTransGen.mono (fun p q hpq => ?_) _ _ (ih h)
      cases l with
      | nil => cases hpq
      | cons z l => exact List.mem_cons_of_mem _ hpq

lemma reflTransGen_of_isClosed (hc : CycleBreaker.IsClosed c) (ha : a ∈ c) (hb : b ∈ c) :
    ReflTransGen (EdgeRel (steps c)) a b := by
  obtain ⟨x, l, rfl⟩ := hc
  have hto : ReflTransGen (EdgeRel (steps (x :: (l ++ [x])))) a x :=
    reflTransGen_to_last (l := x :: l) ha
  exact hto.trans (reflTransGen_from_head hb)

/-- The edges with those in the other direction. -/
def bothWays (es : List (α × α)) : List (α × α) := es ++ es.map Prod.swap

lemma mem_bothWays {es : List (α × α)} : (a, b) ∈ bothWays es ↔ (a, b) ∈ es ∨ (b, a) ∈ es := by
  simp [bothWays]

lemma bothWays_symm {es : List (α × α)} (h : ReflTransGen (EdgeRel (bothWays es)) a b) :
    ReflTransGen (EdgeRel (bothWays es)) b a := by
  induction h with
  | refl => exact .refl
  | tail _ hpq ih =>
    rw [EdgeRel, mem_bothWays] at hpq
    exact ih.head (mem_bothWays.mpr hpq.symm)

/-- Without one edge of a cycle its ends are still connected, by the rest of the cycle. -/
lemma connected_erase [DecidableEq α] {es : List (α × α)} (hc : CycleBreaker.IsClosed c)
    (hall : ∀ e ∈ steps c, e ∈ es) (hab : (a, b) ∈ steps c) :
    ReflTransGen (EdgeRel (bothWays (es.erase (a, b)))) a b := by
  have hwalk := reflTransGen_of_isClosed hc (mem_of_mem_steps hab).2 (mem_of_mem_steps hab).1
  -- what `b` is connected to is closed under the steps, as the deleted one ends in `b`
  have hkeep : ∀ q, ReflTransGen (EdgeRel (steps c)) b q →
      ReflTransGen (EdgeRel (bothWays (es.erase (a, b)))) b q := by
    intro q hq
    induction hq with
    | refl => exact .refl
    | @tail p q _ hpq ih =>
      by_cases heq : (p, q) = (a, b)
      · rw [(Prod.mk.inj heq).2]
      · apply ih.tail
        rw [EdgeRel, mem_bothWays]
        exact .inl ((List.mem_erase_of_ne heq).mpr (hall _ hpq))
  exact bothWays_symm (hkeep a hwalk)

/-- Deleting an edge of a cycle leaves connected what was connected. -/
lemma connected_of_erase [DecidableEq α] {es : List (α × α)} (hc : CycleBreaker.IsClosed c)
    (hall : ∀ e ∈ steps c, e ∈ es) {e : α × α} (he : e ∈ steps c)
    (h : ReflTransGen (EdgeRel (bothWays es)) x y) :
    ReflTransGen (EdgeRel (bothWays (es.erase e))) x y := by
  have hone : ∀ p q, (p, q) ∈ es → ReflTransGen (EdgeRel (bothWays (es.erase e))) p q := by
    intro p q hpq
    by_cases heq : (p, q) = e
    · subst heq
      exact connected_erase hc hall he
    · apply ReflTransGen.single
      rw [EdgeRel, mem_bothWays]
      exact .inl ((List.mem_erase_of_ne heq).mpr hpq)
  induction h with
  | refl => exact .refl
  | tail _ hpq ih =>
    rcases mem_bothWays.mp hpq with hpq | hqp
    · exact ih.trans (hone _ _ hpq)
    · exact ih.trans (bothWays_symm (hone _ _ hqp))

end ResSim
