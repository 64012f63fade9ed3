import Mathlib.Algebra.BigOperators.Group.List.Basic
import Mathlib.Algebra.GroupWithZero.Nat
import Mathlib.Algebra.Order.Group.Nat
import Mathlib.Algebra.Order.BigOperators.Group.List
import Mathlib.Order.Bounds.Basic

/-!
# Prefix rules of least weight

A rule gives the addresses that start with some bits a color, the first rule deciding, and
the background the color of the others. Every color has a weight. The least weight of rules
for one more bit comes from the least weights for the two halves of the addresses.
-/

namespace ResSim

/-- Bits that an address may start with, and a color. -/
abbrev PrefixRules (κ : Type) := List (List Bool × κ)

section Defs

variable {κ : Type}

/-- The color of the first rule whose bits an address starts with. -/
def firstColor (rules : PrefixRules κ) (addr : List Bool) : Option κ :=
  (rules.find? (fun r => r.1.isPrefixOf addr)).map Prod.snd

def rulesWeight (w : κ → ℕ) (rules : PrefixRules κ) : ℕ := (rules.map (fun r => w r.2)).sum

/-- Rules that with the background `c` give every address of `n` bits its color. -/
structure Classifies (colors : Set κ) (n : ℕ) (f : List Bool → κ) (c : κ)
    (rules : PrefixRules κ) : Prop where
  mem : ∀ r ∈ rules, r.2 ∈ colors
  color : ∀ addr, addr.length = n → (firstColor rules addr).getD c = f addr

/-- The weights of the rules for a coloring, the background included. -/
def classifierWeights (colors : Set κ) (w : κ → ℕ) (n : ℕ) (f : List Bool → κ) (c : κ) : Set ℕ :=
  {m | ∃ rules, Classifies colors n f c rules ∧ rulesWeight w rules + w c = m}

/-- Rules for the addresses that have one bit more in front. -/
def graft (b : Bool) (rules : PrefixRules κ) : PrefixRules κ := rules.map (fun r => (b :: r.1, r.2))

/-- The rules for the addresses that start with a bit, without the bit. -/
def half (b : Bool) (rules : PrefixRules κ) : PrefixRules κ :=
  rules.filterMap (fun r => match r.1 with
    | [] => none
    | b' :: bits => if b' = b then some (bits, r.2) else none)

end Defs

variable {κ : Type} {rules rules' low high : PrefixRules κ} {r : List Bool × κ} {w : κ → ℕ}
  {bits addr : List Bool} {b b' : Bool} {n m : ℕ} {colors : Set κ} {f : List Bool → κ} {a c cc : κ}

/-! ### The first rule -/

@[simp] lemma firstColor_nil : firstColor ([] : PrefixRules κ) addr = none := rfl

lemma firstColor_cons : firstColor (r :: rules) addr =
    if r.1.isPrefixOf addr then some r.2 else firstColor rules addr := by
  rw [firstColor, firstColor, List.find?_cons]
  cases r.1.isPrefixOf addr <;> rfl

lemma firstColor_append :
    firstColor (rules ++ rules') addr = (firstColor rules addr).or (firstColor rules' addr) := by
  induction rules with
  | nil => simp
  | cons r rules ih =>
    rw [List.cons_append, firstColor_cons, firstColor_cons, ih]
    split <;> rfl

lemma mem_of_firstColor (h : firstColor rules addr = some c) : ∃ r ∈ rules, r.2 = c := by
  obtain ⟨r, hr, rfl⟩ := Option.map_eq_some_iff.mp h
  exact ⟨r, List.mem_of_find?_eq_some hr, rfl⟩

lemma firstColor_graft : firstColor (graft b rules) (b' :: addr) =
    if b = b' then firstColor rules addr else none := by
  induction rules with
  | nil => simp [graft]
  | cons r rules ih =>
    rw [graft, List.map_cons, firstColor_cons, ← graft, ih, firstColor_cons, List.isPrefixOf_cons_cons]
    by_cases h : b = b'
    · simp [h]
    · simp [h]

lemma firstColor_half (h : ∀ r ∈ rules, r.1 ≠ []) :
    firstColor (half b rules) addr = firstColor rules (b :: addr) := by
  induction rules with
  | nil => rfl
  | cons r rules ih =>
    obtain ⟨hr, hrest⟩ := List.forall_mem_cons.mp h
    obtain ⟨b', bits, hbits⟩ := List.exists_cons_of_ne_nil hr
    rw [firstColor_cons, ← ih hrest, half, List.filterMap_cons, hbits, List.isPrefixOf_cons_cons]
    by_cases hb : b' = b
    · simp only [hb, if_true, firstColor_cons, beq_self_eq_true, Bool.true_and]
      rfl
    · simp [hb, half]

/-! ### Weights -/

@[simp] lemma rulesWeight_nil : rulesWeight w [] = 0 := rfl

@[simp] lemma rulesWeight_cons : rulesWeight w (r :: rules) = w r.2 + rulesWeight w rules := rfl

@[simp] lemma rulesWeight_append :
    rulesWeight w (rules ++ rules') = rulesWeight w rules + rulesWeight w rules' := by
  rw [rulesWeight, List.map_append, List.sum_append, rulesWeight, rulesWeight]

@[simp] lemma rulesWeight_graft : rulesWeight w (graft b rules) = rulesWeight w rules := by
  rw [rulesWeight, graft, List.map_map, rulesWeight]
  rfl

lemma le_rulesWeight (h : r ∈ rules) : w r.2 ≤ rulesWeight w rules :=
  List.le_sum_of_mem (List.mem_map_of_mem h)

lemma rulesWeight_half (h : ∀ r ∈ rules, r.1 ≠ []) :
    rulesWeight w (half false rules) + rulesWeight w (half true rules) = rulesWeight w rules := by
  induction rules with
  | nil => rfl
  | cons r rules ih =>
    obtain ⟨hr, hrest⟩ := List.forall_mem_cons.mp h
    obtain ⟨b, bits, hbits⟩ := List.exists_cons_of_ne_nil hr
    rw [rulesWeight_cons, ← ih hrest, half, half, List.filterMap_cons, List.filterMap_cons, hbits]
    cases b
    · simp [half, Nat.add_assoc]
    · simp [half, Nat.add_left_comm]

lemma mem_half {x : List Bool × κ} (h : x ∈ half b rules) : (b :: x.1, x.2) ∈ rules := by
  obtain ⟨r, hr, hx⟩ := List.mem_filterMap.mp h
  obtain ⟨bits, color⟩ := r
  cases bits with
  | nil => cases hx
  | cons b' bits =>
    simp only [Option.ite_none_right_eq_some, Option.some.injEq] at hx
    obtain ⟨rfl, rfl⟩ := hx
    exact hr

/-- Rules with more bits than the addresses have can be left out. -/
lemma firstColor_filter (haddr : addr.length = n) :
    firstColor (rules.filter (fun r => r.1.length ≤ n)) addr = firstColor rules addr := by
  induction rules with
  | nil => rfl
  | cons r rules ih =>
    rw [List.filter_cons, firstColor_cons, ← ih]
    by_cases hr : r.1.length ≤ n
    · rw [if_pos (decide_eq_true hr), firstColor_cons]
    · rw [if_neg (by simpa using hr), if_neg]
      rw [List.isPrefixOf_iff_prefix]
      intro hpre
      exact hr (haddr ▸ hpre.length_le)

lemma Classifies.filter (h : Classifies colors n f c rules) :
    Classifies colors n f c (rules.filter (fun r => r.1.length ≤ n)) := by
  refine ⟨fun r hr => h.mem r (List.mem_of_mem_filter hr), fun addr haddr => ?_⟩
  rw [firstColor_filter haddr]
  exact h.color addr haddr

lemma rulesWeight_filter (w : κ → ℕ) (rules : PrefixRules κ) (p : List Bool × κ → Bool) :
    rulesWeight w (rules.filter p) ≤ rulesWeight w rules :=
  (List.filter_sublist.map (fun r : List Bool × κ => w r.2)).sum_le_sum fun _ _ => Nat.zero_le _

/-! ### One color -/

/-- One color for all addresses costs its own weight and the weight of another background. -/
theorem isLeast_classifierWeights_const [DecidableEq κ] (hf : ∀ addr, addr.length = n → f addr = a)
    (ha : a ∈ colors) :
    IsLeast (classifierWeights colors w n f c) (if c = a then w a else w a + w c) := by
  constructor
  · by_cases hca : c = a
    · refine ⟨[], ⟨by simp, fun addr haddr => ?_⟩, by simp [hca]⟩
      rw [hf addr haddr, hca]
      rfl
    · refine ⟨[([], a)], ⟨by simpa using ha, fun addr haddr => ?_⟩, by simp [hca]⟩
      rw [hf addr haddr]
      rfl
  · rintro m ⟨rules, hrules, rfl⟩
    have hcolor := hrules.color (List.replicate n false) List.length_replicate
    rw [hf _ List.length_replicate] at hcolor
    cases hfirst : firstColor rules (List.replicate n false) with
    | none =>
      rw [hfirst, Option.getD_none] at hcolor
      rw [if_pos hcolor, hcolor]
      omega
    | some d =>
      rw [hfirst, Option.getD_some] at hcolor
      obtain ⟨r, hr, rfl⟩ := mem_of_firstColor hfirst
      have hle := le_rulesWeight (w := w) hr
      rw [hcolor] at hle
      split <;> omega

/-! ### Two halves -/

/-- Rules for the halves with one background are rules for the whole. -/
lemma Classifies.join (hlow : Classifies colors n (fun addr => f (false :: addr)) c low)
    (hhigh : Classifies colors n (fun addr => f (true :: addr)) c high) :
    Classifies colors (n + 1) f c (graft false low ++ graft true high) := by
  constructor
  · intro r hr
    rcases List.mem_append.mp hr with hr | hr <;> obtain ⟨x, hx, rfl⟩ := List.mem_map.mp hr
    · exact hlow.mem x hx
    · exact hhigh.mem x hx
  · intro addr haddr
    obtain ⟨b, addr, rfl⟩ := List.exists_cons_of_length_eq_add_one haddr
    have hlen : addr.length = n := Nat.succ.inj haddr
    rw [firstColor_append, firstColor_graft, firstColor_graft]
    cases b
    · simpa using hlow.color addr hlen
    · simpa using hhigh.color addr hlen

/-- The background may become a rule of its own. -/
lemma Classifies.concat (h : Classifies colors n f cc rules) (hcc : cc ∈ colors) :
    Classifies colors n f c (rules ++ [([], cc)]) := by
  constructor
  · intro r hr
    rcases List.mem_append.mp hr with hr | hr
    · exact h.mem r hr
    · rwa [List.mem_singleton.mp hr]
  · intro addr haddr
    rw [firstColor_append, ← h.color addr haddr]
    cases firstColor rules addr <;> rfl

/-- The rules before the first one for all addresses, and its color. -/
lemma exists_whole (rules : PrefixRules κ) :
    (∀ r ∈ rules, r.1 ≠ []) ∨ ∃ front d back, rules = front ++ ([], d) :: back ∧
      ∀ r ∈ front, r.1 ≠ [] := by
  induction rules with
  | nil => exact .inl (by simp)
  | cons r rules ih =>
    by_cases hr : r.1 = []
    · exact .inr ⟨[], r.2, rules, by rw [← hr]; rfl, by simp⟩
    · rcases ih with hall | ⟨front, d, back, rfl, hfront⟩
      · exact .inl (List.forall_mem_cons.mpr ⟨hr, hall⟩)
      · exact .inr ⟨r :: front, d, back, rfl, List.forall_mem_cons.mpr ⟨hr, hfront⟩⟩

/-- Rules without one for all addresses are rules for each half. -/
lemma Classifies.half (h : Classifies colors (n + 1) f c rules) (hne : ∀ r ∈ rules, r.1 ≠ [])
    (b : Bool) : Classifies colors n (fun addr => f (b :: addr)) c (half b rules) := by
  constructor
  · exact fun r hr => h.mem (b :: r.1, r.2) (mem_half hr)
  · intro addr haddr
    rw [firstColor_half hne]
    exact h.color (b :: addr) (by rw [List.length_cons, haddr])

/-- What the halves of one background cost together. -/
def joinWeight [DecidableEq κ] (w : κ → ℕ) (c cc : κ) (m₀ m₁ : ℕ) : ℕ :=
  if c = cc then m₀ + m₁ - w cc else m₀ + m₁ - w cc + w c

/-- The least weight is the least one over the backgrounds of the halves. -/
theorem isLeast_classifierWeights_join [DecidableEq κ] {m₀ m₁ : κ → ℕ}
    (hlow : ∀ cc ∈ colors,
      IsLeast (classifierWeights colors w n (fun addr => f (false :: addr)) cc) (m₀ cc))
    (hhigh : ∀ cc ∈ colors,
      IsLeast (classifierWeights colors w n (fun addr => f (true :: addr)) cc) (m₁ cc))
    (hc : c ∈ colors)
    (hm : IsLeast ((fun cc => joinWeight w c cc (m₀ cc) (m₁ cc)) '' colors) m) :
    IsLeast (classifierWeights colors w (n + 1) f c) m := by
  constructor
  · obtain ⟨cc, hcc, rfl⟩ := hm.1
    obtain ⟨low, hl, hlw⟩ := (hlow cc hcc).1
    obtain ⟨high, hh, hhw⟩ := (hhigh cc hcc).1
    by_cases h : c = cc
    · subst h
      refine ⟨graft false low ++ graft true high, hl.join hh, ?_⟩
      simp only [joinWeight, if_true, rulesWeight_append, rulesWeight_graft]
      omega
    · refine ⟨graft false low ++ graft true high ++ [([], cc)], (hl.join hh).concat hcc, ?_⟩
      simp only [joinWeight, if_neg h, rulesWeight_append, rulesWeight_graft, rulesWeight_cons,
        rulesWeight_nil]
      omega
  · rintro m' ⟨rules, hrules, rfl⟩
    rcases exists_whole rules with hne | ⟨front, d, back, rfl, hfront⟩
    · -- the background is the color of both halves
      have h₀ := (hlow c hc).2 ⟨_, hrules.half hne false, rfl⟩
      have h₁ := (hhigh c hc).2 ⟨_, hrules.half hne true, rfl⟩
      have hle := hm.2 ⟨c, hc, rfl⟩
      have hsum := rulesWeight_half (w := w) hne
      simp only [joinWeight, if_true] at hle
      omega
    · -- no rule behind the one for all addresses decides
      have hd : d ∈ colors := hrules.mem ([], d) (by simp)
      have hfrontd : Classifies colors (n + 1) f d front := by
        refine ⟨fun r hr => hrules.mem r (List.mem_append_left _ hr), fun addr haddr => ?_⟩
        rw [← hrules.color addr haddr, firstColor_append, firstColor_cons]
        cases firstColor front addr <;> rfl
      have h₀ := (hlow d hd).2 ⟨_, hfrontd.half hfront false, rfl⟩
      have h₁ := (hhigh d hd).2 ⟨_, hfrontd.half hfront true, rfl⟩
      have hle := hm.2 ⟨d, hd, rfl⟩
      have hsum := rulesWeight_half (w := w) hfront
      simp only [rulesWeight_append, rulesWeight_cons]
      simp only [joinWeight] at hle
      split at hle <;> omega

end ResSim
