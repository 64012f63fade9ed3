import Mathlib.Data.List.Forall2

/-!
# Computations that may fail
-/

namespace ResSim

variable {α β : Type} {f : α → Option β} {l : List α} {l' : List β}

/-- An assertion, and what comes after it. -/
lemma guard_bind_eq_some {p : Prop} [Decidable p] {f : Unit → Option β} {b : β} :
    (guard p : Option Unit).bind f = some b ↔ p ∧ f () = some b := by
  unfold guard
  split
  · rename_i hp
    rw [and_iff_right hp]
    rfl
  · rename_i hp
    simp [hp, failure]

lemma exists_mapM {P : α → β → Prop} (h : ∀ a ∈ l, ∃ b, f a = some b ∧ P a b) :
    ∃ bs, l.mapM f = some bs ∧ List.Forall₂ P l bs := by
  induction l with
  | nil => exact ⟨[], rfl, .nil⟩
  | cons a l ih =>
    obtain ⟨b, hb, hP⟩ := h a (List.mem_cons_self ..)
    obtain ⟨bs, hbs, hall⟩ := ih (fun a ha => h a (List.mem_cons_of_mem _ ha))
    refine ⟨b :: bs, ?_, .cons hP hall⟩
    rw [List.mapM_cons, hb, hbs]
    rfl

lemma forall₂_of_mapM (h : l.mapM f = some l') :
    List.Forall₂ (fun a b => f a = some b) l l' := by
  induction l generalizing l' with
  | nil =>
    obtain rfl : [] = l' := Option.some.inj h
    exact .nil
  | cons a l ih =>
    rw [List.mapM_cons] at h
    obtain ⟨b, hb, h⟩ := Option.bind_eq_some_iff.mp h
    obtain ⟨bs, hbs, h⟩ := Option.bind_eq_some_iff.mp h
    obtain rfl := Option.some.inj h
    exact .cons hb (ih hbs)

lemma mapM_of_forall₂ (h : List.Forall₂ (fun a b => f a = some b) l l') : l.mapM f = some l' := by
  induction h with
  | nil => rfl
  | cons hab _ ih =>
    rw [List.mapM_cons, hab, ih]
    rfl

lemma mapM_eq_map {g : α → β} (h : ∀ a ∈ l, f a = some (g a)) : l.mapM f = some (l.map g) := by
  induction l with
  | nil => rfl
  | cons a l ih =>
    obtain ⟨ha, hl⟩ := List.forall_mem_cons.mp h
    rw [List.mapM_cons, ha, ih hl]
    rfl

/-- A search for every element never fails, but need not find anything. -/
lemma exists_mapM_reduceOption {f : α → Option (Option β)} {P : α → β → Prop} {Q : α → Prop}
    (h : ∀ a, (∃ b, f a = some (some b) ∧ P a b) ∨ (f a = some none ∧ Q a)) (l : List α) :
    ∃ found : α → Option β, (∃ bs, l.mapM f = some bs ∧ bs.reduceOption = l.filterMap found) ∧
      (∀ a b, found a = some b → P a b) ∧ ∀ a, found a = none → Q a := by
  have hfound : ∀ a, ∃ b, f a = some b ∧ (∀ c, b = some c → P a c) ∧ (b = none → Q a) := by
    intro a
    rcases h a with ⟨c, hc, hP⟩ | ⟨hn, hQ⟩
    · exact ⟨some c, hc, fun d hd => Option.some.inj hd ▸ hP, nofun⟩
    · exact ⟨none, hn, nofun, fun _ => hQ⟩
  choose found hf hP hQ using hfound
  exact ⟨found, ⟨l.map found, mapM_eq_map fun a _ => hf a, List.filterMap_map⟩, hP, hQ⟩

lemma mapM_ok_map {ε : Type} {f : α → Except ε β} {g : α → β} (h : ∀ a ∈ l, f a = .ok (g a)) :
    l.mapM f = .ok (l.map g) := by
  induction l with
  | nil => rfl
  | cons a l ih =>
    obtain ⟨ha, hl⟩ := List.forall_mem_cons.mp h
    rw [List.mapM_cons, ha, ih hl]
    rfl

lemma mapM_error {ε : Type} {f : α → Except ε β} {e : ε} {a : α} (ha : a ∈ l) (hf : f a = .error e)
    (h : ∀ a ∈ l, (∃ b, f a = .ok b) ∨ f a = .error e) : l.mapM f = .error e := by
  induction l with
  | nil => cases ha
  | cons c l ih =>
    obtain ⟨hc, hl⟩ := List.forall_mem_cons.mp h
    rw [List.mapM_cons]
    rcases hc with ⟨b, hb⟩ | hb
    · have hmem : a ∈ l := by
        rcases List.mem_cons.mp ha with rfl | ha
        · rw [hb] at hf
          cases hf
        · exact ha
      rw [hb, ih hmem hl]
      rfl
    · rw [hb]
      rfl

lemma exists_of_forall₂ {R : α → β → Prop} (h : List.Forall₂ R l l') {a : α} (ha : a ∈ l) :
    ∃ b ∈ l', R a b := by
  induction h with
  | nil => cases ha
  | cons hab _ ih =>
    rcases List.mem_cons.mp ha with rfl | ha
    · exact ⟨_, List.mem_cons_self .., hab⟩
    · obtain ⟨b, hb, h⟩ := ih ha
      exact ⟨b, List.mem_cons_of_mem _ hb, h⟩

/-- A loop whose passes leave a state as it is. -/
lemma foldlM_fixed {σ : Type} {step : σ → α → Option σ} {s : σ} (h : ∀ a ∈ l, step s a = some s) :
    l.foldlM step s = some s := by
  induction l with
  | nil => rfl
  | cons a l ih =>
    obtain ⟨ha, hl⟩ := List.forall_mem_cons.mp h
    rw [List.foldlM_cons, ha]
    exact ih hl

/-- What every pass of a loop preserves holds of its result. -/
lemma foldlM_invariant {σ : Type} {step : σ → α → Option σ} (P : σ → Prop)
    (h : ∀ a ∈ l, ∀ s s', P s → step s a = some s' → P s') {s r : σ} (hs : P s)
    (hr : l.foldlM step s = some r) : P r := by
  induction l generalizing s with
  | nil => exact Option.some.inj hr ▸ hs
  | cons a l ih =>
    obtain ⟨ha, hl⟩ := List.forall_mem_cons.mp h
    rw [List.foldlM_cons] at hr
    obtain ⟨s₁, hstep, hr⟩ := Option.bind_eq_some_iff.mp hr
    exact ih hl (ha s s₁ hs hstep) hr

/-- A loop that carries a state along, on which what it appends does not depend. -/
lemma foldlM_append {σ : Type} {step : σ × List β → α → Option (σ × List β)} {g : α → β}
    (h : ∀ a ∈ l, ∀ s bs, ∃ s', step (s, bs) a = some (s', bs ++ [g a])) (s : σ) (bs : List β) :
    ∃ s', l.foldlM step (s, bs) = some (s', bs ++ l.map g) := by
  induction l generalizing s bs with
  | nil => exact ⟨s, by simp⟩
  | cons a l ih =>
    obtain ⟨ha, hl⟩ := List.forall_mem_cons.mp h
    obtain ⟨s₁, hstep⟩ := ha s bs
    obtain ⟨s₂, hrun⟩ := ih hl s₁ (bs ++ [g a])
    refine ⟨s₂, ?_⟩
    rw [List.append_assoc] at hrun
    rw [List.foldlM_cons, hstep, List.map_cons]
    exact hrun

lemma mapM_eq_none {a : α} (ha : a ∈ l) (hf : f a = none) : l.mapM f = none := by
  induction l with
  | nil => cases ha
  | cons b l ih =>
    rw [List.mapM_cons]
    rcases List.mem_cons.mp ha with rfl | ha
    · rw [hf]
      rfl
    · rw [ih ha]
      cases f b <;> rfl

end ResSim
