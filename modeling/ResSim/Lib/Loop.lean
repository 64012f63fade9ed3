import Mathlib.Logic.Relation
import Mathlib.Order.WellFounded

/-!
# While loops

A loop is given by its body: from a state it either goes on with a new state or leaves the
loop with a result. `Loop.run` executes at most `fuel` passes, `Loop.Returns` says that some
number of passes leads to a result, and `Loop.Reaches` relates a state to the states at the
head of later passes. The rules below turn an invariant and a decreasing measure into total
correctness.
-/

namespace ResSim

/-- Outcome of one pass of a loop body. -/
inductive Step (σ ρ : Type) where
  | next (s : σ)
  | done (r : ρ)

namespace Loop

variable {σ ρ : Type}

/-- Executes at most `fuel` passes; `none` means that the passes were used up. -/
def run (body : σ → Step σ ρ) : ℕ → σ → Option ρ
  | 0, _ => none
  | fuel + 1, s =>
    match body s with
    | .done r => some r
    | .next s' => run body fuel s'

/-- The loop started in `s` ends with the result `r`. -/
def Returns (body : σ → Step σ ρ) (s : σ) (r : ρ) : Prop :=
  ∃ fuel, run body fuel s = some r

/-- The loop started in `s` has the state `s'` at the head of some pass. -/
def Reaches (body : σ → Step σ ρ) : σ → σ → Prop :=
  Relation.ReflTransGen (fun s s' => body s = .next s')

/-- The states at the head of the first passes. -/
def states (body : σ → Step σ ρ) : ℕ → σ → List σ
  | 0, s => [s]
  | fuel + 1, s =>
    match body s with
    | .done _ => [s]
    | .next s' => s :: states body fuel s'

variable {body : σ → Step σ ρ} {s s' : σ} {r r' : ρ}

lemma run_done (h : body s = .done r) (fuel : ℕ) : run body (fuel + 1) s = some r := by
  simp only [run, h]

lemma run_next (h : body s = .next s') (fuel : ℕ) :
    run body (fuel + 1) s = run body fuel s' := by
  simp only [run, h]

lemma run_mono {fuel fuel' : ℕ} (hle : fuel ≤ fuel') (h : run body fuel s = some r) :
    run body fuel' s = some r := by
  induction fuel generalizing s fuel' with
  | zero => simp [run] at h
  | succ fuel ih =>
    obtain ⟨k, rfl⟩ : ∃ k, fuel' = k + 1 := ⟨fuel' - 1, by omega⟩
    cases hb : body s with
    | done r₀ =>
      rw [run_done hb] at h ⊢
      exact h
    | next s₁ =>
      rw [run_next hb] at h ⊢
      exact ih (by omega) h

lemma Returns.of_done (h : body s = .done r) : Returns body s r :=
  ⟨1, run_done h 0⟩

lemma Returns.of_next (h : body s = .next s') (hr : Returns body s' r) : Returns body s r := by
  obtain ⟨fuel, hf⟩ := hr
  exact ⟨fuel + 1, by rw [run_next h, hf]⟩

lemma Returns.tail (h : body s = .next s') (hr : Returns body s r) : Returns body s' r := by
  obtain ⟨fuel, hf⟩ := hr
  cases fuel with
  | zero => simp [run] at hf
  | succ fuel => exact ⟨fuel, by rw [← run_next h, hf]⟩

lemma Returns.unique (h : Returns body s r) (h' : Returns body s r') : r = r' := by
  obtain ⟨m, hm⟩ := h
  obtain ⟨n, hn⟩ := h'
  rcases Nat.le_total m n with hle | hle
  · have := run_mono hle hm
    simp_all
  · have := run_mono hle hn
    simp_all

lemma Returns.of_reaches (h : Reaches body s s') (hr : Returns body s' r) :
    Returns body s r := by
  induction h using Relation.ReflTransGen.head_induction_on with
  | refl => exact hr
  | head hstep _ ih => exact ih.of_next hstep

lemma Returns.along (h : Reaches body s s') (hr : Returns body s r) : Returns body s' r := by
  induction h with
  | refl => exact hr
  | tail _ hstep ih => exact ih.tail hstep

lemma Reaches.invariant (Inv : σ → Prop)
    (hbody : ∀ s s', Inv s → body s = .next s' → Inv s') (h : Reaches body s s')
    (hs : Inv s) : Inv s' := by
  induction h with
  | refl => exact hs
  | tail _ hstep ih => exact hbody _ _ ih hstep

/-- A run that ends goes through all states that are reached. -/
lemma Reaches.mem_states {fuel : ℕ} (h : Reaches body s s')
    (hr : (run body fuel s).isSome = true) : s' ∈ states body fuel s := by
  induction fuel generalizing s with
  | zero => simp [run] at hr
  | succ fuel ih =>
    rcases Relation.ReflTransGen.cases_head h with rfl | ⟨s₁, hn, h'⟩
    · rw [states]
      split
      · exact List.mem_singleton.mpr rfl
      · exact List.mem_cons_self ..
    · rw [run_next hn] at hr
      simp only [states, hn]
      exact List.mem_cons_of_mem _ (ih h' hr)

lemma reaches_of_mem_states {fuel : ℕ} (h : s' ∈ states body fuel s) : Reaches body s s' := by
  induction fuel generalizing s with
  | zero => exact List.mem_singleton.mp h ▸ .refl
  | succ fuel ih =>
    cases hb : body s with
    | done r₀ =>
      simp only [states, hb, List.mem_singleton] at h
      exact h ▸ .refl
    | next s₁ =>
      simp only [states, hb] at h
      rcases List.mem_cons.mp h with rfl | h
      · exact .refl
      · exact (ih h).head hb

/-- A result is reached through a last pass that leaves the loop. -/
lemma Returns.exists_last (h : Returns body s r) : ∃ s', Reaches body s s' ∧ body s' = .done r := by
  obtain ⟨fuel, hf⟩ := h
  induction fuel generalizing s with
  | zero => simp [run] at hf
  | succ fuel ih =>
    cases hb : body s with
    | done r₀ =>
      rw [run_done hb, Option.some.injEq] at hf
      exact ⟨s, .refl, hf ▸ hb⟩
    | next s₁ =>
      rw [run_next hb] at hf
      obtain ⟨s', hs', hd⟩ := ih hf
      exact ⟨s', hs'.head hb, hd⟩

/-- Partial correctness: what every pass that leaves the loop guarantees holds of the result. -/
lemma Returns.post (Inv : σ → Prop) (Post : ρ → Prop)
    (hnext : ∀ s s', Inv s → body s = .next s' → Inv s')
    (hdone : ∀ s r, Inv s → body s = .done r → Post r)
    (h : Returns body s r) (hs : Inv s) : Post r := by
  obtain ⟨s', hs', hd⟩ := h.exists_last
  exact hdone s' r (hs'.invariant Inv hnext hs) hd

/-- Total correctness by a well-founded relation that every pass descends. -/
theorem returns_of_wellFounded {lt : σ → σ → Prop} (hwf : WellFounded lt) (Inv : σ → Prop)
    (Post : ρ → Prop)
    (hbody : ∀ s, Inv s → (∃ r, body s = .done r ∧ Post r) ∨
      ∃ s', body s = .next s' ∧ Inv s' ∧ lt s' s)
    (hs : Inv s) : ∃ r, Returns body s r ∧ Post r := by
  induction s using hwf.induction with
  | _ s ih =>
    rcases hbody s hs with ⟨r, hr, hp⟩ | ⟨s', hn, hi, hlt⟩
    · exact ⟨r, .of_done hr, hp⟩
    · obtain ⟨r, hr, hp⟩ := ih s' hlt hi
      exact ⟨r, hr.of_next hn, hp⟩

/-- Total correctness by a natural number that every pass decreases; the number also bounds
the passes that are needed. -/
theorem run_of_measure (measure : σ → ℕ) (Inv : σ → Prop) (Post : ρ → Prop)
    (hbody : ∀ s, Inv s → (∃ r, body s = .done r ∧ Post r) ∨
      ∃ s', body s = .next s' ∧ Inv s' ∧ measure s' < measure s)
    (hs : Inv s) {fuel : ℕ} (hfuel : measure s < fuel) :
    ∃ r, run body fuel s = some r ∧ Post r := by
  induction fuel generalizing s with
  | zero => omega
  | succ fuel ih =>
    rcases hbody s hs with ⟨r, hr, hp⟩ | ⟨s', hn, hi, hlt⟩
    · exact ⟨r, run_done hr fuel, hp⟩
    · obtain ⟨r, hr, hp⟩ := ih hi (by omega)
      exact ⟨r, by rw [run_next hn, hr], hp⟩

section Lockstep

variable {σ' ρ' : Type} {body' : σ' → Step σ' ρ'} {t t' : σ'} {R : σ → σ' → Prop} {f : ρ → ρ'}

/-- Two bodies that go on together, and leave the loop together, from related states. -/
def Lockstep (body : σ → Step σ ρ) (body' : σ' → Step σ' ρ') (R : σ → σ' → Prop) (f : ρ → ρ') :
    Prop :=
  ∀ s t, R s t → (∃ r, body s = .done r ∧ body' t = .done (f r)) ∨
    ∃ s' t', body s = .next s' ∧ body' t = .next t' ∧ R s' t'

lemma Lockstep.run_eq (h : Lockstep body body' R f) (hR : R s t) (fuel : ℕ) :
    run body' fuel t = (run body fuel s).map f := by
  induction fuel generalizing s t with
  | zero => rfl
  | succ fuel ih =>
    rcases h s t hR with ⟨r, hd, hd'⟩ | ⟨s₁, t₁, hn, hn', hR⟩
    · rw [run_done hd, run_done hd', Option.map_some]
    · rw [run_next hn, run_next hn', ih hR]

lemma Lockstep.reaches (h : Lockstep body body' R f) (hR : R s t) (hr : Reaches body' t t') :
    ∃ s', Reaches body s s' ∧ R s' t' := by
  induction hr with
  | refl => exact ⟨s, .refl, hR⟩
  | tail _ hn ih =>
    obtain ⟨s₁, hs₁, hR₁⟩ := ih
    rcases h _ _ hR₁ with ⟨r, _, hd⟩ | ⟨s₂, t₂, hs₂, hn₂, hR₂⟩
    · rw [hn] at hd
      cases hd
    · rw [hn, Step.next.injEq] at hn₂
      exact ⟨s₂, hs₁.tail hs₂, hn₂ ▸ hR₂⟩

end Lockstep

/-- A loop that always goes on never returns. -/
theorem not_returns_of_forever (Inv : σ → Prop)
    (hbody : ∀ s, Inv s → ∃ s', body s = .next s' ∧ Inv s') (hs : Inv s) :
    ¬ ∃ r, Returns body s r := by
  rintro ⟨r, hr⟩
  obtain ⟨s', hs', hd⟩ := hr.exists_last
  have hi := hs'.invariant Inv (fun s₁ s₂ h₁ h₂ => by
    obtain ⟨s₃, h₃, hi₃⟩ := hbody s₁ h₁
    rw [h₂] at h₃
    cases h₃
    exact hi₃) hs
  obtain ⟨s₂, hn, _⟩ := hbody s' hi
  rw [hd] at hn
  cases hn

end Loop

end ResSim
