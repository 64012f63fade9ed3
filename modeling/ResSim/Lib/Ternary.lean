import Mathlib.Data.List.Forall2

/-!
# Patterns with wildcards

A pattern has a symbol or the wildcard at every position. `Within` orders patterns by the
keys that they match, `Overlaps` says that two of them have a key in common as far as each
position alone tells, and `firstMatch` is the meaning of an ordered list of rules.
-/

namespace ResSim

/-- A symbol or the wildcard `none` at every position. -/
abbrev Pattern (β : Type) := List (Option β)

namespace Pattern

variable {β : Type}

/-- Every key that `p` matches is matched by `q`. -/
def Within (p q : Pattern β) : Prop := List.Forall₂ (fun a b => b = none ∨ a = b) p q

/-- The patterns agree wherever neither has the wildcard. -/
def Overlaps (p q : Pattern β) : Prop :=
  List.Forall₂ (fun a b => a = none ∨ b = none ∨ a = b) p q

/-- The pattern matches a key. -/
def Matches (p : Pattern β) (key : List β) : Prop := Within (key.map some) p

instance [DecidableEq β] (p q : Pattern β) : Decidable (Within p q) :=
  inferInstanceAs (Decidable (List.Forall₂ _ p q))

instance [DecidableEq β] (p q : Pattern β) : Decidable (Overlaps p q) :=
  inferInstanceAs (Decidable (List.Forall₂ _ p q))

instance [DecidableEq β] (p : Pattern β) (key : List β) : Decidable (Matches p key) :=
  inferInstanceAs (Decidable (Within _ p))

variable {p q r : Pattern β} {key : List β}

lemma Within.length_eq (h : Within p q) : p.length = q.length := List.Forall₂.length_eq h

lemma within_iff_getElem? : Within p q ↔ p.length = q.length ∧
    ∀ (i : ℕ) (a b : Option β), p[i]? = some a → q[i]? = some b → b = none ∨ a = b := by
  rw [Within, List.forall₂_iff_get]
  apply and_congr_right
  intro hlen
  constructor
  · intro h i a b ha hb
    obtain ⟨hi, rfl⟩ := List.getElem?_eq_some_iff.mp ha
    obtain ⟨hi', rfl⟩ := List.getElem?_eq_some_iff.mp hb
    exact h i hi hi'
  · intro h i hi hi'
    exact h i _ _ (List.getElem?_eq_getElem hi) (List.getElem?_eq_getElem hi')

@[simp] lemma Within.refl (p : Pattern β) : Within p p :=
  List.forall₂_same.mpr fun _ _ => .inr rfl

lemma Within.trans (h : Within p q) (h' : Within q r) : Within p r := by
  rw [within_iff_getElem?] at h h' ⊢
  refine ⟨h.1.trans h'.1, fun i a c ha hc => ?_⟩
  have hi : i < q.length := h.1 ▸ (List.getElem?_eq_some_iff.mp ha).1
  have hb := List.getElem?_eq_getElem hi
  rcases h'.2 i _ c hb hc with hnone | hbc
  · exact .inl hnone
  · rw [← hbc]
    exact h.2 i a _ ha hb

lemma Within.overlaps (h : Within p q) : Overlaps p q :=
  List.Forall₂.imp (fun _ _ h => .inr h) h

lemma Matches.mono (h : Matches p key) (hpq : Within p q) : Matches q key := Within.trans h hpq

lemma Matches.length_eq (h : Matches p key) : key.length = p.length := by
  have := Within.length_eq h
  rwa [List.length_map] at this

lemma Matches.overlaps (hp : Matches p key) (hq : Matches q key) : Overlaps p q := by
  induction key generalizing p q with
  | nil =>
    cases hp
    cases hq
    exact .nil
  | cons k key ih =>
    cases hp with
    | cons ha hp =>
      cases hq with
      | cons hb hq =>
        refine .cons ?_ (ih hp hq)
        rcases ha with rfl | rfl
        · exact .inl rfl
        · rcases hb with rfl | rfl
          · exact .inr (.inl rfl)
          · exact .inr (.inr rfl)

/-- Some positions become wildcards. -/
def widen (p : Pattern β) (positions : List ℕ) : Pattern β :=
  p.mapIdx (fun i a => if i ∈ positions then none else a)

@[simp] lemma widen_length (positions : List ℕ) : (p.widen positions).length = p.length :=
  List.length_mapIdx

/-- A pattern that differs from `q` at the widened positions only is within the widened one. -/
lemma within_widen {positions : List ℕ} (hlen : p.length = q.length)
    (h : ∀ (i : ℕ) (a b : Option β), p[i]? = some a → q[i]? = some b → i ∉ positions →
      b = none ∨ a = b) :
    Within p (q.widen positions) := by
  rw [within_iff_getElem?]
  refine ⟨by simp [hlen], fun i a b ha hb => ?_⟩
  rw [widen, List.getElem?_mapIdx, Option.map_eq_some_iff] at hb
  obtain ⟨c, hc, rfl⟩ := hb
  by_cases hi : i ∈ positions
  · simp [hi]
  · simpa [hi] using h i a c ha hc hi

lemma Within.widen (h : Within p q) (positions : List ℕ) : Within p (q.widen positions) :=
  within_widen h.length_eq fun i a b ha hb _ => (within_iff_getElem?.mp h).2 i a b ha hb

end Pattern

/-! ### Rules -/

section Rules

variable {β ρ : Type} [DecidableEq β]

/-- The outcome of the first rule that matches. -/
def firstMatch (rules : List (Pattern β × ρ)) (key : List β) : Option ρ :=
  (rules.find? (fun rule => rule.1.Matches key)).map Prod.snd

variable {rules rules' : List (Pattern β × ρ)} {key : List β} {out : ρ}

lemma firstMatch_cons {rule : Pattern β × ρ} : firstMatch (rule :: rules) key =
    if rule.1.Matches key then some rule.2 else firstMatch rules key := by
  rw [firstMatch, firstMatch, List.find?_cons]
  by_cases h : rule.1.Matches key
  · simp [h]
  · simp [h]

lemma firstMatch_append : firstMatch (rules ++ rules') key =
    (firstMatch rules key).or (firstMatch rules' key) := by
  rw [firstMatch, List.find?_append, Option.map_or]
  rfl

lemma firstMatch_eq_none_iff :
    firstMatch rules key = none ↔ ∀ rule ∈ rules, ¬ rule.1.Matches key := by
  simp [firstMatch]

lemma exists_mem_of_firstMatch (h : firstMatch rules key = some out) :
    ∃ rule ∈ rules, rule.2 = out := by
  obtain ⟨rule, hfind, hout⟩ := Option.map_eq_some_iff.mp h
  exact ⟨rule, List.mem_of_find?_eq_some hfind, hout⟩

lemma firstMatch_map {f : Pattern β → Pattern β} {key' : List β}
    (h : ∀ x ∈ rules, (f x.1).Matches key' ↔ x.1.Matches key) :
    firstMatch (rules.map (fun e => (f e.1, e.2))) key' = firstMatch rules key := by
  induction rules with
  | nil => rfl
  | cons x rules ih =>
    rw [List.map_cons, firstMatch_cons, firstMatch_cons,
      ih fun y hy => h y (List.mem_cons_of_mem _ hy)]
    by_cases hx : x.1.Matches key
    · rw [if_pos hx, if_pos ((h x List.mem_cons_self).mpr hx)]
    · rw [if_neg hx, if_neg (mt (h x List.mem_cons_self).mp hx)]

lemma exists_of_firstMatch {le : Pattern β × ρ → Pattern β × ρ → Prop} (hs : rules.Pairwise le)
    (h : firstMatch rules key = some out) : ∃ rule ∈ rules, rule.1.Matches key ∧ rule.2 = out ∧
      ∀ x ∈ rules, x.1.Matches key → x = rule ∨ le rule x := by
  induction rules with
  | nil => cases h
  | cons rule rules ih =>
    obtain ⟨hhead, hs⟩ := List.pairwise_cons.mp hs
    rw [firstMatch_cons] at h
    by_cases hm : rule.1.Matches key
    · rw [if_pos hm, Option.some.injEq] at h
      refine ⟨rule, List.mem_cons_self, hm, h, fun x hx _ => ?_⟩
      exact (List.mem_cons.mp hx).imp_right (hhead x)
    · rw [if_neg hm] at h
      obtain ⟨r, hr, hrm, hout, hfirst⟩ := ih hs h
      refine ⟨r, List.mem_cons_of_mem _ hr, hrm, hout, fun x hx hxm => ?_⟩
      rcases List.mem_cons.mp hx with rfl | hx
      · exact absurd hxm hm
      · exact hfirst x hx hxm

/-- A rule that matches decides the key if no rule with another outcome that matches can come
before it. -/
lemma firstMatch_eq_of_pairwise {le : Pattern β × ρ → Pattern β × ρ → Prop}
    (hs : rules.Pairwise le) {rule : Pattern β × ρ} (hmem : rule ∈ rules)
    (hm : rule.1.Matches key)
    (hother : ∀ x ∈ rules, x.1.Matches key → x.2 ≠ rule.2 → ¬ le x rule) :
    firstMatch rules key = some rule.2 := by
  cases h : firstMatch rules key with
  | none => exact absurd hm (firstMatch_eq_none_iff.mp h rule hmem)
  | some out =>
    obtain ⟨x, hx, hxm, rfl, hfirst⟩ := exists_of_firstMatch hs h
    by_contra hne
    rcases hfirst rule hmem hm with rfl | hle
    · exact hne rfl
    · exact hother x hx hxm (fun heq => hne (congrArg some heq)) hle

end Rules

end ResSim
