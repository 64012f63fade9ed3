import Mathlib.Logic.Relation
import Mathlib.Data.List.Chain
import Mathlib.Data.Finset.Card
import Mathlib.Tactic.Tauto

/-!
# Finite directed graphs

A relation is acyclic if no element reaches itself by one or more steps. The rules below
prove acyclicity from a rank, and from a rank inside the classes of a second relation that
is acyclic itself. For a graph given by the list of its edges, `reach` decides reachability
and `isDag` acyclicity.
-/

namespace ResSim

open Relation

variable {α β γ : Type}

/-- No element reaches itself by one or more steps. -/
def Acyclic (R : α → α → Prop) : Prop := ∀ a, ¬ TransGen R a a

lemma Acyclic.mono {R S : α → α → Prop} (h : Acyclic S) (hRS : ∀ a b, R a b → S a b) :
    Acyclic R :=
  fun a ha => h a (TransGen.mono hRS a a ha)

/-- A step either follows `S` between the classes of its ends or stays in a class and
decreases the rank there; then a run does the same. -/
lemma transGen_class_or_rank {R : α → α → Prop} {S : β → β → Prop} {cls : α → β} {rank : α → ℕ}
    (h : ∀ a b, R a b → TransGen S (cls a) (cls b) ∨ cls a = cls b ∧ rank b < rank a)
    {a b : α} (hab : TransGen R a b) :
    TransGen S (cls a) (cls b) ∨ cls a = cls b ∧ rank b < rank a := by
  induction hab with
  | single hab => exact h _ _ hab
  | tail _ hbc ih =>
    rcases ih with hs | ⟨he, hlt⟩
    · rcases h _ _ hbc with hs' | ⟨he', _⟩
      · exact .inl (hs.trans hs')
      · exact .inl (he' ▸ hs)
    · rcases h _ _ hbc with hs' | ⟨he', hlt'⟩
      · exact .inl (he ▸ hs')
      · exact .inr ⟨he.trans he', hlt'.trans hlt⟩

/-- A graph whose steps follow an acyclic relation between classes, or stay in a class and
decrease a rank, is acyclic. -/
theorem acyclic_of_class_or_rank {R : α → α → Prop} {S : β → β → Prop} (hS : Acyclic S)
    (cls : α → β) (rank : α → ℕ)
    (h : ∀ a b, R a b → TransGen S (cls a) (cls b) ∨ cls a = cls b ∧ rank b < rank a) :
    Acyclic R := by
  intro a ha
  rcases transGen_class_or_rank h ha with hs | ⟨_, hlt⟩
  · exact hS _ hs
  · exact lt_irrefl _ hlt

lemma acyclic_of_rank {R : α → α → Prop} (rank : α → ℕ) (h : ∀ a b, R a b → rank a < rank b) :
    Acyclic R := by
  intro a ha
  have hlt : ∀ b, TransGen R a b → rank a < rank b := by
    intro b hb
    induction hb with
    | single hab => exact h _ _ hab
    | tail _ hbc ih => exact ih.trans (h _ _ hbc)
  exact lt_irrefl _ (hlt a ha)

/-- Steps of an acyclic graph that stay on their level or go up, with steps that go up. -/
lemma acyclic_of_level {R S : α → α → Prop} (hS : Acyclic S) (lev : α → ℕ)
    (hle : ∀ a b, S a b → lev a ≤ lev b) (h : ∀ a b, R a b → S a b ∨ lev a < lev b) :
    Acyclic R := by
  intro a ha
  have hrun : ∀ b, TransGen R a b → lev a < lev b ∨ lev a ≤ lev b ∧ TransGen S a b := by
    intro b hb
    induction hb with
    | single hab => exact (h _ _ hab).elim (fun hs => .inr ⟨hle _ _ hs, .single hs⟩) .inl
    | tail _ hbc ih =>
      rcases h _ _ hbc with hs | hlt
      · have := hle _ _ hs
        exact ih.imp (fun hlt => by omega) (fun hs' => ⟨by omega, hs'.2.tail hs⟩)
      · left
        omega
  rcases hrun a ha with hlt | ⟨_, hs⟩
  · exact Nat.lt_irrefl _ hlt
  · exact hS a hs

/-- The pairs of consecutive elements of a list. -/
def steps (c : List α) : List (α × α) := c.zip c.tail

@[simp] lemma steps_nil : steps ([] : List α) = [] := rfl

@[simp] lemma steps_singleton (a : α) : steps [a] = [] := rfl

@[simp] lemma steps_cons_cons (a b : α) (c : List α) :
    steps (a :: b :: c) = (a, b) :: steps (b :: c) := rfl

/-- The steps of a list in two parts: the first step into the second part is from the last
element of the first. -/
lemma mem_steps_append {l l' : List α} {d : α × α} (h : d ∈ steps (l ++ l')) :
    d ∈ steps l ∨ d ∈ steps (l.getLast?.toList ++ l') := by
  induction l with
  | nil => exact .inr h
  | cons a l ih =>
    cases l with
    | nil => exact .inr h
    | cons b l =>
      rcases List.mem_cons.mp h with rfl | h
      · exact .inl (List.mem_cons_self ..)
      · rw [List.getLast?_cons_cons]
        exact (ih h).imp_left (List.mem_cons_of_mem _)

lemma mem_steps_append_left {l l' : List α} {d : α × α} (h : d ∈ steps l) :
    d ∈ steps (l ++ l') := by
  induction l with
  | nil => exact absurd h List.not_mem_nil
  | cons a l ih =>
    cases l with
    | nil => exact absurd h List.not_mem_nil
    | cons b l =>
      rcases List.mem_cons.mp h with rfl | h
      · exact List.mem_cons_self ..
      · exact List.mem_cons_of_mem _ (ih h)

lemma mem_of_mem_steps {l : List α} {x y : α} (h : (x, y) ∈ steps l) :
    x ∈ l ∧ y ∈ l :=
  ⟨(List.of_mem_zip h).1, List.mem_of_mem_tail (List.of_mem_zip h).2⟩

lemma isChain_iff_steps {R : α → α → Prop} {c : List α} :
    c.IsChain R ↔ ∀ p ∈ steps c, R p.1 p.2 := by
  induction c with
  | nil => simp
  | cons a c ih =>
    cases c with
    | nil => simp
    | cons b c => rw [List.isChain_cons_cons, ih, steps_cons_cons, List.forall_mem_cons]

/-- A list whose steps are in `R` leads from its first to its last element. -/
lemma transGen_of_steps {R : α → α → Prop} {a b : α} {l : List α}
    (h : ∀ p ∈ steps (a :: (l ++ [b])), R p.1 p.2) : TransGen R a b := by
  induction l generalizing a with
  | nil => exact .single (h (a, b) (List.mem_cons_self ..))
  | cons c l ih =>
    rw [List.cons_append, steps_cons_cons, List.forall_mem_cons] at h
    exact .head h.1 (ih h.2)

/-- The step relation of a list of edges. -/
def EdgeRel (es : List (α × α)) (a b : α) : Prop := (a, b) ∈ es

variable [DecidableEq α]

instance (es : List (α × α)) (a b : α) : Decidable (EdgeRel es a b) :=
  inferInstanceAs (Decidable ((a, b) ∈ es))

/-- Adds the heads of the edges that leave a set. -/
def expand (es : List (α × α)) (s : List α) : List α :=
  s ++ (es.filter (fun e => e.1 ∈ s ∧ e.2 ∉ s)).map Prod.snd

/-- The set after `n` expansions. -/
def expandN (es : List (α × α)) : ℕ → List α → List α
  | 0, s => s
  | n + 1, s => expandN es n (expand es s)

/-- Whether `b` is `a` or can be reached from it. -/
def reach (es : List (α × α)) (a b : α) : Bool := b ∈ expandN es es.length [a]

/-- Whether the graph has no cycle. -/
def isDag (es : List (α × α)) : Bool := es.all (fun e => !reach es e.2 e.1)

/-- The edges whose head is not in a set. -/
def unreached (es : List (α × α)) (s : List α) : List (α × α) := es.filter (fun e => e.2 ∉ s)

lemma subset_expandN (es : List (α × α)) (n : ℕ) (s : List α) : s ⊆ expandN es n s := by
  induction n generalizing s with
  | zero => exact List.Subset.refl s
  | succ n ih => exact fun _ hx => ih _ (List.mem_append_left _ hx)

lemma expandN_sound (es : List (α × α)) (n : ℕ) (s : List α) :
    ∀ b ∈ expandN es n s, ∃ a ∈ s, ReflTransGen (EdgeRel es) a b := by
  induction n generalizing s with
  | zero => exact fun b hb => ⟨b, hb, .refl⟩
  | succ n ih =>
    intro b hb
    obtain ⟨a, ha, hab⟩ := ih _ b hb
    rcases List.mem_append.mp ha with ha | ha
    · exact ⟨a, ha, hab⟩
    · obtain ⟨⟨c, d⟩, hcd, rfl⟩ := List.mem_map.mp ha
      have hcd' := List.mem_filter.mp hcd
      simp only [decide_eq_true_eq] at hcd'
      exact ⟨c, hcd'.2.1, hab.head hcd'.1⟩

lemma expand_of_closed {es : List (α × α)} {s : List α} (h : ∀ e ∈ es, e.1 ∈ s → e.2 ∈ s) :
    expand es s = s := by
  have hnil : es.filter (fun e => e.1 ∈ s ∧ e.2 ∉ s) = [] := by
    rw [List.filter_eq_nil_iff]
    intro e he
    simpa using h e he
  rw [expand, hnil, List.map_nil, List.append_nil]

lemma unreached_expand_lt {es : List (α × α)} {s : List α} {e : α × α} (he : e ∈ es)
    (h₁ : e.1 ∈ s) (h₂ : e.2 ∉ s) :
    (unreached es (expand es s)).length < (unreached es s).length := by
  have heq : unreached es (expand es s) = (unreached es s).filter (fun e => e.2 ∉ expand es s) := by
    rw [unreached, unreached, List.filter_filter]
    apply List.filter_congr
    intro x _
    have hx : x.2 ∉ expand es s → x.2 ∉ s := fun hx hs => hx (List.mem_append_left _ hs)
    rw [← Bool.decide_and, decide_eq_decide]
    tauto
  have hmem : e.2 ∈ expand es s :=
    List.mem_append_right _ (List.mem_map_of_mem (List.mem_filter.mpr ⟨he, by simp [h₁, h₂]⟩))
  rw [heq]
  apply List.length_filter_lt_length_iff_exists.mpr
  exact ⟨e, List.mem_filter.mpr ⟨he, by simp [h₂]⟩, by simp [hmem]⟩

lemma expandN_closed {es : List (α × α)} {n : ℕ} {s : List α}
    (hn : (unreached es s).length ≤ n) :
    ∀ e ∈ es, e.1 ∈ expandN es n s → e.2 ∈ expandN es n s := by
  induction n generalizing s with
  | zero =>
    intro e he _
    by_contra hout
    have hmem : e ∈ unreached es s := List.mem_filter.mpr ⟨he, by simpa [expandN] using hout⟩
    exact List.ne_nil_of_mem hmem (List.length_eq_zero_iff.mp (by omega))
  | succ n ih =>
    by_cases hc : ∀ e ∈ es, e.1 ∈ s → e.2 ∈ s
    · have hfix : ∀ m, expandN es m s = s := by
        intro m
        induction m with
        | zero => rfl
        | succ m ihm => rw [expandN, expand_of_closed hc, ihm]
      rw [hfix]
      exact hc
    · simp only [not_forall] at hc
      obtain ⟨e, he, h₁, h₂⟩ := hc
      exact ih (by have := unreached_expand_lt he h₁ h₂; omega)

theorem reach_iff {es : List (α × α)} {a b : α} :
    reach es a b = true ↔ ReflTransGen (EdgeRel es) a b := by
  rw [reach, decide_eq_true_iff]
  constructor
  · intro h
    obtain ⟨c, hc, hcb⟩ := expandN_sound es _ _ b h
    rw [List.mem_singleton.mp hc] at hcb
    exact hcb
  · intro h
    induction h with
    | refl => exact subset_expandN es _ _ (List.mem_singleton.mpr rfl)
    | tail _ hbc ih => exact expandN_closed (List.length_filter_le _ _) _ hbc ih

theorem isDag_iff {es : List (α × α)} : isDag es = true ↔ Acyclic (EdgeRel es) := by
  rw [isDag, List.all_eq_true]
  constructor
  · intro h a ha
    obtain ⟨b, hab, hba⟩ := TransGen.head'_iff.mp ha
    have hr := reach_iff.mpr hba
    have hf := h (a, b) hab
    simp [hr] at hf
  · intro h e he
    rw [Bool.not_eq_true', Bool.eq_false_iff]
    intro hr
    exact h e.1 (TransGen.head' he (reach_iff.mp hr))

omit [DecidableEq α] in
lemma Acyclic.antisymm {R : α → α → Prop} (h : Acyclic R) {a b : α} (hab : ReflTransGen R a b)
    (hba : ReflTransGen R b a) : a = b := by
  rcases reflTransGen_iff_eq_or_transGen.mp hab with heq | hab
  · exact heq.symm
  · exact absurd (hab.trans_left hba) (h a)

instance (es : List (α × α)) : Decidable (Acyclic (EdgeRel es)) :=
  decidable_of_iff (isDag es = true) isDag_iff

end ResSim
