import ResSim.Bitweave.Merge
import ResSim.Lib.BitVal
import ResSim.Lib.Traverse

/-!
# Rules as intervals

A rule that has its wildcards at the end is an interval of numbers, and back. What finds a
small list of intervals is not in the model: it is assumed to return a list of the same
meaning, the smaller of two nested intervals first, with the background at the end.
-/

namespace ResSim

open Pattern

abbrev Interval := ℕ × ℕ

/-- Intervals with an output, the first one that has a number deciding. -/
abbrev SuriTable (α : Type) := List (Interval × Option α)

/-- A solution. A rule may be wrapped in a list. -/
abbrev SuriSol (α : Type) := List ((Interval ⊕ List Interval) × Option α)

section Defs

variable {α : Type}

/-- `low` and `high` of one rule. Without bits, `int('', 2)` raises. -/
def suriRule (rule : Pattern Bool) : Option Interval :=
  let numstar := rule.count none
  match (rule.take (rule.length - numstar)).mapM id with
  | none | some [] => none
  | some bits =>
    let low := bitVal bits * 2 ^ numstar
    some (low, low + 2 ^ numstar - 1)

/-- The digits of a number, padded to `size`. -/
def bin (number size : ℕ) : List Bool :=
  let t := binDigits number number
  List.replicate (size - t.length) false ++ t

def prefixStr : List Bool → List Bool → Option (Pattern Bool)
  | [], _ => some []
  | _ :: _, [] => none
  | a :: br, b :: bl => (prefixStr br bl).map (List.cons (if a = b then some a else none))

def int2Prefix (interval : Interval) (size : ℕ) : Option (Pattern Bool) :=
  prefixStr (bin interval.1 size) (bin interval.2 size)

/-- A rule out of its list. -/
def unwrap : Interval ⊕ List Interval → Option Interval
  | .inl suriRule => some suriRule
  | .inr [suriRule] => some suriRule
  | .inr _ => none

/-- One pass of the loop of `suriUnfmt`. -/
def unfmtRule (lenEntry : ℕ) (x : (Interval ⊕ List Interval) × Option α) :
    Option (Pattern Bool × Option α) := do
  let suriRule ← unwrap x.1
  let fmtRule ← int2Prefix suriRule lenEntry
  some (fmtRule, x.2)

def suriUnfmt (suriSol : SuriSol α) (lenEntry : ℕ) : Option (BitRules α) := do
  let last ← suriSol.getLast?
  if last.2.isSome then none else suriSol.dropLast.mapM (unfmtRule lenEntry)

variable [DecidableEq α]

def suriFmt (table : BitRules α) : Option (SuriTable α × List (Option α × ℕ)) := do
  let suriTable ← table.mapM (fun e => (suriRule e.1).map (fun interval => (interval, e.2)))
  let suriWeights := table.foldl
    (fun w e => if e.2 ∈ w.map Prod.fst then w else dictSet w e.2 1) []
  let first ← table.head?
  some (suriTable ++ [((0, 2 ^ first.1.length - 1), none)], dictSet suriWeights none 200000)

/-- The functions of the module `suri`, which are parameters of the model. -/
structure Suri (α ω : Type) where
  weightedSuris : SuriTable α → Interval → List (Option α × ℕ) → ω
  findSolutions : SuriTable α → Interval → List (Option α × ℕ) → ω →
    List ((Interval × Option α) × List (SuriSol α))

/-- `suri_sols[suri_table[-1]][0]`. -/
def Suri.solution {ω : Type} (suri : Suri α ω) (suriTable : SuriTable α)
    (suriWeights : List (Option α × ℕ)) : Option (SuriSol α) := do
  let last ← suriTable.getLast?
  let tmp := suri.weightedSuris suriTable last.1 suriWeights
  let sols ← (suri.findSolutions suriTable last.1 suriWeights tmp).lookup last
  sols.head?

end Defs

/-! ### Intervals and patterns -/

section Intervals

variable {α : Type} {bits bits' key : List Bool} {k k' n v : ℕ} {i : Interval}

/-- The numbers that start with some bits. -/
def prefixInterval (bits : List Bool) (k : ℕ) : Interval :=
  (bitVal bits * 2 ^ k, bitVal bits * 2 ^ k + 2 ^ k - 1)

/-- The interval is one of the numbers with `n` bits that start with some bits. -/
def IsPrefix (n : ℕ) (i : Interval) : Prop :=
  ∃ bits k, bits.length + k = n ∧ i = prefixInterval bits k

lemma suriRule_prefixPattern (hbits : bits ≠ []) :
    suriRule (prefixPattern bits k) = some (prefixInterval bits k) := by
  have hcount : (prefixPattern bits k).count none = k := by
    rw [prefixPattern, List.count_append, List.count_replicate_self,
      List.count_eq_zero_of_not_mem (by simp), Nat.zero_add]
  have htake : (prefixPattern bits k).take ((prefixPattern bits k).length - k) =
      bits.map some := by
    rw [prefixPattern_length, Nat.add_sub_cancel, prefixPattern,
      List.take_left' (List.length_map _)]
  have hmap : ∀ l : List Bool, (l.map some).mapM id = some l := by
    intro l
    induction l with
    | nil => rfl
    | cons b l ih => simp [ih]
  obtain ⟨b, l, rfl⟩ := List.exists_cons_of_ne_nil hbits
  simp only [suriRule, hcount, htake, hmap]
  rfl

lemma suriRule_nil (k : ℕ) : suriRule (prefixPattern [] k) = none := by
  simp [suriRule, prefixPattern]

lemma prefixStr_append {xs ys zs : List Bool} :
    prefixStr (xs ++ ys) (xs ++ zs) = (prefixStr ys zs).map (fun r => xs.map some ++ r) := by
  induction xs with
  | nil => simp
  | cons x xs ih =>
    simp only [List.cons_append, prefixStr, ih, Option.map_map]
    simp [Function.comp_def]

lemma prefixStr_replicate :
    prefixStr (List.replicate k false) (List.replicate k true) = some (List.replicate k none) := by
  induction k with
  | zero => rfl
  | succ k ih => simp [List.replicate_succ, prefixStr, ih]

lemma bin_bitVal (bits : List Bool) : bin (bitVal bits) bits.length = bits := by
  have hlen : (binDigits (bitVal bits) (bitVal bits)).length ≤ bits.length :=
    length_binDigits (bitVal_lt bits)
  apply bitVal_inj
  · rw [bin, List.length_append, List.length_replicate]
    omega
  · rw [bin, bitVal_append, bitVal_replicate_false, bitVal_binDigits le_rfl]
    omega

lemma int2Prefix_prefixInterval :
    int2Prefix (prefixInterval bits k) (bits.length + k) = some (prefixPattern bits k) := by
  have hlo : bin (prefixInterval bits k).1 (bits.length + k) = bits ++ List.replicate k false := by
    have h := bin_bitVal (bits ++ List.replicate k false)
    rwa [bitVal_append, bitVal_replicate_false, List.length_append, List.length_replicate] at h
  have hhi : bin (prefixInterval bits k).2 (bits.length + k) = bits ++ List.replicate k true := by
    have h := bin_bitVal (bits ++ List.replicate k true)
    rw [bitVal_append, bitVal_replicate_true, List.length_append, List.length_replicate] at h
    rwa [prefixInterval, Nat.add_sub_assoc Nat.one_le_two_pow]
  rw [int2Prefix, hlo, hhi, prefixStr_append, prefixStr_replicate]
  rfl

lemma matches_iff_prefixInterval (hkey : key.length = bits.length + k) :
    (prefixPattern bits k).Matches key ↔
      (prefixInterval bits k).1 ≤ bitVal key ∧ bitVal key ≤ (prefixInterval bits k).2 := by
  have := Nat.one_le_two_pow (n := k)
  rw [matches_prefixPattern hkey, prefixInterval, add_mul, one_mul]
  apply and_congr_right
  intro _
  simp only
  omega

end Intervals

/-! ### Tables and solutions -/

section Tables

variable {α : Type} {key : List Bool} {n v : ℕ} {table : BitRules α} {suriTable : SuriTable α}

/-- The outcome of the first interval that has the number. -/
def intervalMatch (suriTable : SuriTable α) (v : ℕ) : Option (Option α) :=
  (suriTable.find? (fun r => r.1.1 ≤ v ∧ v ≤ r.1.2)).map Prod.snd

lemma intervalMatch_cons {r : Interval × Option α} : intervalMatch (r :: suriTable) v =
    if r.1.1 ≤ v ∧ v ≤ r.1.2 then some r.2 else intervalMatch suriTable v := by
  rw [intervalMatch, intervalMatch, List.find?_cons]
  by_cases h : r.1.1 ≤ v ∧ v ≤ r.1.2
  · simp [h]
  · simp only [h, decide_false, if_false]

lemma intervalMatch_append_none {i : Interval} :
    (intervalMatch (suriTable ++ [(i, none)]) v).join = (intervalMatch suriTable v).join := by
  induction suriTable with
  | nil =>
    rw [List.nil_append, intervalMatch_cons]
    split <;> rfl
  | cons r suriTable ih =>
    rw [List.cons_append, intervalMatch_cons, intervalMatch_cons]
    split
    · rfl
    · exact ih

/-- A rule and an interval that mean the same. -/
def SameRule (n : ℕ) (x : Pattern Bool × Option α) (r : Interval × Option α) : Prop :=
  x.2 = r.2 ∧ ∃ bits k, bits.length + k = n ∧ x.1 = prefixPattern bits k ∧
    r.1 = prefixInterval bits k

lemma firstMatch_eq_intervalMatch (h : List.Forall₂ (SameRule n) table suriTable)
    (hkey : key.length = n) : firstMatch table key = intervalMatch suriTable (bitVal key) := by
  induction h with
  | nil => rfl
  | cons hxr _ ih =>
    obtain ⟨ho, bits, k, hn, hx, hr⟩ := hxr
    rw [firstMatch_cons, intervalMatch_cons, ih, hx, hr, ho]
    exact if_congr (matches_iff_prefixInterval (hkey.trans hn.symm)) rfl rfl

lemma SameRule.length_eq {x : Pattern Bool × Option α} {r : Interval × Option α}
    (h : SameRule n x r) : x.1.length = n := by
  obtain ⟨-, bits, k, hn, hx, -⟩ := h
  rw [hx, prefixPattern_length, hn]

lemma getPrefixLen_prefixPattern (bits : List Bool) (k : ℕ) :
    getPrefixLen (prefixPattern bits k) = bits.length := by
  rw [getPrefixLen, prefixPattern, List.idxOf_append_of_notMem (by simp), List.length_map]
  cases k <;> simp [List.replicate_succ]

lemma overlaps_prefixPattern {bits bits' : List Bool} {k k' : ℕ}
    (h : Overlaps (prefixPattern bits k) (prefixPattern bits' k'))
    (hle : bits.length ≤ bits'.length) : bits <+: bits' := by
  induction bits generalizing bits' with
  | nil => exact List.nil_prefix
  | cons b bits ih =>
    cases bits' with
    | nil => simp at hle
    | cons b' bits' =>
      obtain ⟨hb, htail⟩ := List.forall₂_cons.mp h
      simp only [reduceCtorEq, Option.some.injEq, false_or] at hb
      rw [hb, List.prefix_cons_inj]
      exact ih htail (by simpa using hle)

/-- One interval is inside another. -/
def Inside (i j : Interval) : Prop := j.1 ≤ i.1 ∧ i.2 ≤ j.2

instance (i j : Interval) : Decidable (Inside i j) := inferInstanceAs (Decidable (_ ∧ _))

/-- Of two rules that share keys, the one with fewer bits has the other inside. -/
lemma SameRule.inside {x y : Pattern Bool × Option α} {r s : Interval × Option α}
    (hx : SameRule n x r) (hy : SameRule n y s) (ho : Overlaps x.1 y.1)
    (hle : LePrefixLen y x) : Inside s.1 r.1 := by
  obtain ⟨-, bits, k, hn, hxb, hr⟩ := hx
  obtain ⟨-, bits', k', hn', hyb, hs⟩ := hy
  have hlen : bits.length ≤ bits'.length := by
    rw [LePrefixLen, hxb, hyb, getPrefixLen_prefixPattern, getPrefixLen_prefixPattern] at hle
    omega
  rw [hxb, hyb] at ho
  obtain ⟨rest, rfl⟩ := overlaps_prefixPattern ho hlen
  have hk : k = rest.length + k' := by simp at hn'; omega
  have hlt := bitVal_lt rest
  rw [hr, hs, Inside, prefixInterval, prefixInterval, bitVal_append, hk, pow_add]
  have h1 : (bitVal rest + 1) * 2 ^ k' ≤ 2 ^ rest.length * 2 ^ k' :=
    Nat.mul_le_mul_right _ hlt
  rw [add_mul, one_mul] at h1
  simp only [add_mul, ← mul_assoc]
  omega

variable {suriSol : SuriSol α} {body : SuriTable α}

/-- What `suri` is assumed to return: prefixes of the meaning of the table, none inside an
earlier one, and the background. -/
structure IsSolution (n : ℕ) (suriTable : SuriTable α) (suriSol : SuriSol α)
    (body : SuriTable α) : Prop where
  background : ∃ x, suriSol.getLast? = some (x, none)
  rules : suriSol.dropLast.mapM (fun x => (unwrap x.1).map (fun i => (i, x.2))) = some body
  isPrefix : ∀ r ∈ body, IsPrefix n r.1
  ordered : body.Pairwise (fun r s => ¬ Inside s.1 r.1)
  meaning : ∀ v < 2 ^ n, (intervalMatch body v).join = (intervalMatch suriTable v).join

lemma exists_unfmtRule {x : (Interval ⊕ List Interval) × Option α} {r : Interval × Option α}
    (hx : (unwrap x.1).map (fun i => (i, x.2)) = some r) (hr : IsPrefix n r.1) :
    ∃ y, unfmtRule n x = some y ∧ SameRule n y r := by
  obtain ⟨i, hi, rfl⟩ := Option.map_eq_some_iff.mp hx
  obtain ⟨bits, k, rfl, rfl⟩ := hr
  refine ⟨(prefixPattern bits k, x.2), ?_, rfl, bits, k, rfl, rfl, rfl⟩
  simp [unfmtRule, hi, int2Prefix_prefixInterval]

lemma IsSolution.suriUnfmt (h : IsSolution n suriTable suriSol body) :
    ∃ minimized, ResSim.suriUnfmt suriSol n = some minimized ∧
      List.Forall₂ (SameRule n) minimized body := by
  obtain ⟨last, hlast⟩ := h.background
  have hall := forall₂_of_mapM h.rules
  have hprefix := h.isPrefix
  suffices hmin : ∃ minimized, suriSol.dropLast.mapM (unfmtRule n) = some minimized ∧
      List.Forall₂ (SameRule n) minimized body by
    simpa [ResSim.suriUnfmt, hlast] using hmin
  generalize suriSol.dropLast = sol at hall
  clear h
  induction hall with
  | nil => exact ⟨[], rfl, .nil⟩
  | cons hx _ ih =>
    rw [List.forall_mem_cons] at hprefix
    obtain ⟨y, hy, hyr⟩ := exists_unfmtRule hx hprefix.1
    obtain ⟨minimized, hmin, hsame⟩ := ih hprefix.2
    exact ⟨y :: minimized, by simp [hy, hmin], .cons hyr hsame⟩

lemma IsSolution.firstMatch_sortRules {minimized : BitRules α}
    (h : IsSolution n suriTable suriSol body)
    (hsame : List.Forall₂ (SameRule n) minimized body) :
    firstMatch (sortRules minimized) key = firstMatch minimized key := by
  apply ResSim.firstMatch_sortRules
  have hordered := h.ordered
  clear h
  induction hsame with
  | nil => exact .nil
  | cons hxr hrest ih =>
    obtain ⟨hhead, htail⟩ := List.pairwise_cons.mp hordered
    refine List.pairwise_cons.mpr ⟨fun y hy _ ho hle => ?_, ih htail⟩
    obtain ⟨s, hs, hys⟩ := exists_of_forall₂ hrest hy
    exact hhead s hs (hxr.inside hys ho hle)

variable [DecidableEq α]

/-- The table of a list of rules that have bits, and wildcards after them. -/
lemma suriFmt_spec (hne : table ≠ []) (h : ∀ x ∈ table, ∃ bits k, bits ≠ [] ∧
    bits.length + k = n ∧ x.1 = prefixPattern bits k) :
    ∃ rules weights, suriFmt table = some (rules ++ [((0, 2 ^ n - 1), none)], weights) ∧
      List.Forall₂ (SameRule n) table rules := by
  have hrule : ∀ x ∈ table, ∃ r, (suriRule x.1).map (fun interval => (interval, x.2)) = some r ∧
      SameRule n x r := by
    intro x hx
    obtain ⟨bits, k, hbits, hn, hxb⟩ := h x hx
    refine ⟨(prefixInterval bits k, x.2), ?_, rfl, bits, k, hn, hxb, rfl⟩
    rw [hxb, suriRule_prefixPattern hbits]
    rfl
  obtain ⟨rules, hrules, hsame⟩ := exists_mapM hrule
  obtain ⟨x, table', rfl⟩ := List.exists_cons_of_ne_nil hne
  obtain ⟨bits, k, -, hn, hx⟩ := h x List.mem_cons_self
  refine ⟨rules, dictSet ((x :: table').foldl
    (fun w e => if e.2 ∈ w.map Prod.fst then w else dictSet w e.2 1) []) none 200000, ?_, hsame⟩
  rw [suriFmt, hrules]
  simp [hx, hn]

lemma suriFmt_eq_none {x : Pattern Bool × Option α} {k : ℕ} (hx : x ∈ table)
    (hnone : x.1 = prefixPattern [] k) : suriFmt table = none := by
  have hmap : table.mapM (fun e => (suriRule e.1).map (fun interval => (interval, e.2))) =
      none := mapM_eq_none hx (by rw [hnone, suriRule_nil]; rfl)
  rw [suriFmt, hmap]
  rfl

end Tables

/-! ### There and back -/

section RoundTrip

variable {α : Type} {bits key : List Bool} {k n v : ℕ} {table : BitRules α}

/-- The interval of a prefix is the set of the numbers that it matches. -/
lemma mem_prefixInterval_iff (hn : bits.length + k = n) :
    ((prefixInterval bits k).1 ≤ v ∧ v ≤ (prefixInterval bits k).2) ↔
      ∃ key, key.length = n ∧ (prefixPattern bits k).Matches key ∧ bitVal key = v := by
  subst hn
  constructor
  · intro hv
    have hlt : v < 2 ^ (bits.length + k) := by
      have hbits := Nat.mul_le_mul_right (2 ^ k) (bitVal_lt bits)
      have hpow := Nat.one_le_two_pow (n := k)
      rw [← pow_add, Nat.succ_mul] at hbits
      simp only [prefixInterval] at hv
      omega
    obtain ⟨key, hkey, rfl⟩ := exists_bitVal hlt
    exact ⟨key, hkey, (matches_iff_prefixInterval hkey).mpr hv, rfl⟩
  · rintro ⟨key, hkey, hmatch, rfl⟩
    exact (matches_iff_prefixInterval hkey).mp hmatch

/-- A rule and the interval of the numbers with `n` bits that it matches, with one output. -/
def ExactInterval (n : ℕ) (x : Pattern Bool × Option α) (r : Interval × Option α) : Prop :=
  r.2 = x.2 ∧ ∀ v, (r.1.1 ≤ v ∧ v ≤ r.1.2) ↔
    ∃ key, key.length = n ∧ x.1.Matches key ∧ bitVal key = v

lemma SameRule.exactInterval {x : Pattern Bool × Option α} {r : Interval × Option α}
    (h : SameRule n x r) : ExactInterval n x r := by
  obtain ⟨hout, bits, k, hn, hx, hr⟩ := h
  refine ⟨hout.symm, fun v => ?_⟩
  rw [hx, hr]
  exact mem_prefixInterval_iff hn

/-- Rules are read back from their intervals. -/
lemma SameRule.unfmtRule {x : Pattern Bool × Option α} {r : Interval × Option α}
    (h : SameRule n x r) : ResSim.unfmtRule n (.inl r.1, r.2) = some x := by
  obtain ⟨hout, bits, k, rfl, hx, hr⟩ := h
  simp only [ResSim.unfmtRule, unwrap, hr, int2Prefix_prefixInterval, Option.bind_eq_bind,
    Option.bind_some, ← hx, ← hout]

/-- Some bits and wildcards after them, `n` characters in all. -/
def PrefixRule (n : ℕ) (rule : Pattern Bool) : Prop :=
  ∃ bits k, bits.length + k = n ∧ rule = prefixPattern bits k

variable [DecidableEq α]

/-- `SuriFmt` returns the interval of every rule, the None rule behind them, and `SuriUnfmt`
gives the rules back. -/
def RoundTrips (n : ℕ) (table : BitRules α) : Prop :=
  ∃ suriTable suriWeights, suriFmt table = some (suriTable, suriWeights) ∧
    List.Forall₂ (ExactInterval n) table suriTable.dropLast ∧
    suriUnfmt (suriTable.map (fun r => (Sum.inl r.1, r.2))) n = some table

/-- A rule of wildcards only raises, and all other prefixes round-trip. -/
theorem suriFmt_roundTrips_iff (hne : table ≠ [])
    (hrule : ∀ x ∈ table, PrefixRule n x.1) :
    RoundTrips n table ↔ ∀ x ∈ table, ∃ b ∈ x.1, b ≠ none := by
  constructor
  · rintro ⟨suriTable, suriWeights, hfmt, -, -⟩ x hx
    obtain ⟨bits, k, -, hxb⟩ := hrule x hx
    cases bits with
    | nil =>
      rw [suriFmt_eq_none hx hxb] at hfmt
      cases hfmt
    | cons b bits =>
      rw [hxb]
      exact ⟨some b, by simp [prefixPattern], Option.some_ne_none b⟩
  · intro hbit
    have hrules : ∀ x ∈ table, ∃ bits k, bits ≠ [] ∧ bits.length + k = n ∧
        x.1 = prefixPattern bits k := by
      intro x hx
      obtain ⟨bits, k, hn, hxb⟩ := hrule x hx
      obtain ⟨b, hb, hsome⟩ := hbit x hx
      refine ⟨bits, k, ?_, hn, hxb⟩
      rintro rfl
      rw [hxb, prefixPattern, List.map_nil, List.nil_append] at hb
      exact hsome (List.eq_of_mem_replicate hb)
    obtain ⟨rules, suriWeights, hfmt, hsame⟩ := suriFmt_spec hne hrules
    refine ⟨_, suriWeights, hfmt, ?_, ?_⟩
    · rw [List.dropLast_concat]
      exact hsame.imp fun _ _ h => h.exactInterval
    · have hback : (rules.map (fun r => (Sum.inl r.1, r.2))).mapM (ResSim.unfmtRule n) =
          some table :=
        mapM_of_forall₂ (List.forall₂_map_left_iff.mpr
          (hsame.flip.imp fun _ _ h => SameRule.unfmtRule h))
      simp [suriUnfmt, hback]

/-- `10`, `1*` and `0*`. -/
def halfRules : BitRules ℕ :=
  [([some true, some false], some 0), ([some true, none], some 1), ([some false, none], none)]

theorem suriFmt_roundTrips_halfRules : RoundTrips 2 halfRules := by
  refine (suriFmt_roundTrips_iff (by decide) ?_).mpr (by decide)
  simp only [halfRules, List.forall_mem_cons, List.not_mem_nil, false_imp_iff, implies_true,
    and_true]
  exact ⟨⟨[true, false], 0, rfl, rfl⟩, ⟨[true], 1, rfl, rfl⟩, ⟨[false], 1, rfl, rfl⟩⟩

/-- `int('', 2)` raises for the rule `**`. -/
theorem suriFmt_allWild : suriFmt [(prefixPattern [] 2, some 0)] = none ∧
    ¬ ∀ (n : ℕ) (table : BitRules ℕ), table ≠ [] → (∀ x ∈ table, PrefixRule n x.1) →
      RoundTrips n table := by
  have hnone : suriFmt [(prefixPattern [] 2, some 0)] = none := by decide
  refine ⟨hnone, fun hall => ?_⟩
  obtain ⟨suriTable, suriWeights, hfmt, -, -⟩ :=
    hall 2 [(prefixPattern [] 2, some 0)] (List.cons_ne_nil _ _)
      (List.forall_mem_singleton.mpr ⟨[], 2, rfl, rfl⟩)
  rw [hnone] at hfmt
  cases hfmt

end RoundTrip

end ResSim
