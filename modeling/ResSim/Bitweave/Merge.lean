import Mathlib.Data.Finset.Basic
import Mathlib.Data.List.Lex
import Mathlib.Data.List.Sort
import Mathlib.Data.List.Zip
import Mathlib.Data.Multiset.DershowitzManna
import Mathlib.Data.Prod.Lex
import ResSim.Lib.Dict
import ResSim.Lib.Loop
import ResSim.Lib.Ternary

/-!
# Merging rules bit by bit

Rules of one output with the same wildcards that differ in one bit are replaced by the rule
that has a wildcard there. After that the rules are sorted by their first wildcard, which may
carry a merged rule past a rule of another output. Where it does not, the rules mean the same
after every round, and the rounds come to an end.
-/

namespace ResSim

open Pattern

/-- Ternary rules. The output `none` is the `None` of the source. -/
abbrev BitRules (α : Type) := List (Pattern Bool × Option α)

/-- The characters in the order `'*' < '0' < '1'`. -/
def bitChar : Option Bool → ℕ
  | none => 0
  | some false => 1
  | some true => 2

/-- `GetPrefixLen`: the position of the first wildcard, or the length. -/
def getPrefixLen (rule : Pattern Bool) : ℕ := rule.idxOf none

/-- The set of wildcards. -/
def bitMask (rule : Pattern Bool) : List ℕ :=
  (rule.zipIdx.filter (fun x => x.1 = none)).map Prod.snd

/-- The positions at which two rules differ. -/
def hammingDist (r₁ r₂ : Pattern Bool) : List ℕ :=
  ((r₁.zip r₂).zipIdx.filter (fun x => x.1.1 ≠ x.1.2)).map Prod.snd

section Defs

variable {α : Type}

/-- `CmpPrefixLen(e1, e2) <= 0`. -/
def LePrefixLen (e₁ e₂ : Pattern Bool × Option α) : Prop :=
  getPrefixLen e₂.1 < getPrefixLen e₁.1 ∨
    getPrefixLen e₁.1 = getPrefixLen e₂.1 ∧ e₁.1.map bitChar ≤ e₂.1.map bitChar

instance (e₁ e₂ : Pattern Bool × Option α) : Decidable (LePrefixLen e₁ e₂) :=
  inferInstanceAs (Decidable (_ ∨ _))

def sortRules (table : BitRules α) : BitRules α := table.insertionSort LePrefixLen

/-- The pairs of a list, the first element before the second. -/
def pairs : List (Pattern Bool) → List (Pattern Bool × Pattern Bool)
  | [] => []
  | x :: xs => xs.map (Prod.mk x) ++ pairs xs

/-- The rule with a wildcard at the only position at which two rules differ. -/
def tcover (x : Pattern Bool × Pattern Bool) : Option (Pattern Bool) :=
  match hammingDist x.1 x.2 with
  | [diff] => some (x.1.widen [diff])
  | _ => none

/-- The rule differs from another of the list in one bit. -/
def added (c : List (Pattern Bool)) (r : Pattern Bool) : Bool :=
  c.any (fun r' => (hammingDist r r').length = 1)

/-- What becomes of the rules with one mask and output. -/
def mergeGroup (c : List (Pattern Bool)) : List (Pattern Bool) :=
  if c.length = 1 then c
  else (pairs c).filterMap tcover ++ c.filter (fun r => !added c r)

/-- The assertions on the position at which two rules differ. -/
def diffOk (c : List (Pattern Bool)) : Prop :=
  ∀ x ∈ pairs c, (hammingDist x.1 x.2).length = 1 → ∀ diff ∈ hammingDist x.1 x.2,
    x.1[diff]? ≠ some none ∧ x.2[diff]? ≠ some none

instance (c : List (Pattern Bool)) : Decidable (diffOk c) :=
  inferInstanceAs (Decidable (∀ _ ∈ _, _))

variable [DecidableEq α]

/-- The rules by mask and output. -/
abbrev RuleGroups (α : Type) := List ((List ℕ × Option α) × List (Pattern Bool))

def groupRules (S : BitRules α) : RuleGroups α :=
  S.foldl (fun C x => dictAppend (bitMask x.1, x.2) x.1 C) []

/-- The table after one round. `iteritems` is the order of the dictionary. -/
def mergeRound (iteritems : RuleGroups α → RuleGroups α) (S : BitRules α) : BitRules α :=
  sortRules ((iteritems (groupRules S)).flatMap
    (fun g => (mergeGroup g.2).map (fun r => (r, g.1.2))))

/-- One call of `BitMerge`; `none` where an assertion fails. -/
def bitMergeStep (iteritems : RuleGroups α → RuleGroups α) (table : BitRules α) :
    Step (BitRules α) (Option (BitRules α)) :=
  let S := sortRules table
  if ∀ g ∈ groupRules S, diffOk g.2 then
    let O := mergeRound iteritems S
    if S = O then .done (some O) else .next O
  else .done none

def bitMerge (fuel : ℕ) (iteritems : RuleGroups α → RuleGroups α) (table : BitRules α) :
    Option (BitRules α) :=
  (Loop.run (bitMergeStep iteritems) fuel table).join

end Defs

/-! ### Two rules that differ in one bit -/

section Cover

variable {x y r : Pattern Bool} {d i : ℕ} {key : List Bool}

lemma mem_hammingDist :
    d ∈ hammingDist x y ↔ ∃ a b, x[d]? = some a ∧ y[d]? = some b ∧ a ≠ b := by
  simp only [hammingDist, List.mem_map, List.mem_filter, List.mem_zipIdx_iff_getElem?,
    List.getElem?_zip_eq_some, decide_eq_true_eq, Prod.exists, exists_eq_right]
  constructor
  · rintro ⟨a, b, ⟨ha, hb⟩, hne⟩
    exact ⟨a, b, ha, hb, hne⟩
  · rintro ⟨a, b, ha, hb, hne⟩
    exact ⟨a, b, ⟨ha, hb⟩, hne⟩

lemma mem_bitMask : d ∈ bitMask x ↔ x[d]? = some none := by
  simp only [bitMask, List.mem_map, List.mem_filter, List.mem_zipIdx_iff_getElem?,
    decide_eq_true_eq, Prod.exists, exists_eq_right]

lemma hammingDist_self : hammingDist x x = [] := by
  apply List.eq_nil_iff_forall_not_mem.mpr
  intro d hd
  obtain ⟨a, b, ha, hb, hne⟩ := mem_hammingDist.mp hd
  exact hne (Option.some.inj (ha.symm.trans hb))

lemma hammingDist_comm (x y : Pattern Bool) : hammingDist x y = hammingDist y x := by
  have hswap : y.zip x = (x.zip y).map Prod.swap := (List.zip_swap x y).symm
  unfold hammingDist
  rw [hswap, List.zipIdx_map, List.filter_map, List.map_map]
  congr 1
  apply List.filter_congr
  intro a _
  simp [eq_comm]

/-- Rules that differ in one bit, and agree on where the wildcards are. -/
structure DiffersAt (x y : Pattern Bool) (d : ℕ) : Prop where
  length_eq : x.length = y.length
  mask_eq : bitMask x = bitMask y
  dist : hammingDist x y = [d]

lemma DiffersAt.symm (h : DiffersAt x y d) : DiffersAt y x d :=
  ⟨h.length_eq.symm, h.mask_eq.symm, (hammingDist_comm y x).trans h.dist⟩

lemma DiffersAt.getElem? (h : DiffersAt x y d) (hi : i ≠ d) : x[i]? = y[i]? := by
  by_contra hne
  have hlen := h.length_eq
  by_cases hlt : i < x.length
  · have hlt' : i < y.length := hlen ▸ hlt
    rw [List.getElem?_eq_getElem hlt, List.getElem?_eq_getElem hlt'] at hne
    have hmem : i ∈ hammingDist x y := mem_hammingDist.mpr
      ⟨_, _, List.getElem?_eq_getElem hlt, List.getElem?_eq_getElem hlt',
        fun heq => hne (congrArg some heq)⟩
    rw [h.dist, List.mem_singleton] at hmem
    exact hi hmem
  · apply hne
    rw [List.getElem?_eq_none (by omega), List.getElem?_eq_none (by omega)]

lemma DiffersAt.bits (h : DiffersAt x y d) :
    ∃ b, x[d]? = some (some b) ∧ y[d]? = some (some (!b)) := by
  have hmem : d ∈ hammingDist x y := by simp [h.dist]
  obtain ⟨a, a', ha, ha', hne⟩ := mem_hammingDist.mp hmem
  have hmask : x[d]? = some none ↔ y[d]? = some none := by
    rw [← mem_bitMask, ← mem_bitMask, h.mask_eq]
  rw [ha, ha'] at hmask
  simp only [Option.some.injEq] at hmask
  cases a with
  | none => exact absurd (hmask.mp rfl).symm hne
  | some b =>
    cases a' with
    | none => exact absurd (hmask.mpr rfl) hne
    | some b' =>
      refine ⟨b, ha, ?_⟩
      rw [ha']
      cases b <;> cases b' <;> simp_all

lemma getElem?_widen : (x.widen [d])[i]? = if i = d then x[i]?.map (fun _ => none) else x[i]? := by
  simp only [Pattern.widen, List.getElem?_mapIdx, List.mem_singleton]
  by_cases hi : i = d <;> simp [hi]

lemma DiffersAt.widen_eq (h : DiffersAt x y d) : x.widen [d] = y.widen [d] := by
  apply List.ext_getElem?
  intro i
  rw [getElem?_widen, getElem?_widen]
  by_cases hi : i = d
  · obtain ⟨b, hx, hy⟩ := h.bits
    simp [hi, hx, hy]
  · simp [hi, h.getElem? hi]

lemma DiffersAt.matches_or (h : DiffersAt x y d) (hm : (x.widen [d]).Matches key) :
    x.Matches key ∨ y.Matches key := by
  obtain ⟨b, hx, hy⟩ := h.bits
  have hlen := hm.length_eq
  rw [Pattern.widen_length] at hlen
  have hrest : ∀ i a c, i ≠ d → (key.map some)[i]? = some a → x[i]? = some c →
      c = none ∨ a = c := by
    intro i a c hi ha hc
    have hw : (x.widen [d])[i]? = some c := by rw [getElem?_widen, if_neg hi, hc]
    exact (within_iff_getElem?.mp hm).2 i a c ha hw
  have hd : d < key.length := hlen ▸ (List.getElem?_eq_some_iff.mp hx).1
  by_cases hkey : key[d] = b
  · refine .inl (within_iff_getElem?.mpr ⟨by simpa using hlen, fun i a c ha hc => ?_⟩)
    by_cases hi : i = d
    · subst hi
      rw [hx, Option.some.injEq] at hc
      simp only [List.getElem?_map, List.getElem?_eq_getElem hd, Option.map_some,
        Option.some.injEq] at ha
      exact .inr (by rw [← ha, ← hc, hkey])
    · exact hrest i a c hi ha hc
  · refine .inr (within_iff_getElem?.mpr ⟨?_, fun i a c ha hc => ?_⟩)
    · simp [hlen, h.length_eq]
    · by_cases hi : i = d
      · subst hi
        rw [hy, Option.some.injEq] at hc
        simp only [List.getElem?_map, List.getElem?_eq_getElem hd, Option.map_some,
          Option.some.injEq] at ha
        have hnot : key[i] = !b := by
          revert hkey
          cases key[i] <;> cases b <;> simp
        exact .inr (by rw [← ha, ← hc, hnot])
      · exact hrest i a c hi ha (by rw [h.getElem? hi, hc])

lemma tcover_eq_some : tcover (x, y) = some r ↔ ∃ d, hammingDist x y = [d] ∧ r = x.widen [d] := by
  unfold tcover
  constructor
  · intro h
    split at h
    · rename_i d hd
      exact ⟨d, hd, (Option.some.inj h).symm⟩
    · cases h
  · rintro ⟨d, hd, rfl⟩
    simp [hd]

/-- The positions of a rule without a wildcard. -/
def fixedBits (x : Pattern Bool) : Finset ℕ :=
  (Finset.range x.length).filter (fun i => x[i]? ≠ some none)

lemma DiffersAt.fixedBits_lt (h : DiffersAt x y d) : fixedBits (x.widen [d]) < fixedBits x := by
  obtain ⟨b, hx, _⟩ := h.bits
  have hd : d < x.length := (List.getElem?_eq_some_iff.mp hx).1
  have hmem : d ∈ fixedBits x :=
    Finset.mem_filter.mpr ⟨Finset.mem_range.mpr hd, by rw [hx]; simp⟩
  refine ⟨fun i hi => ?_, fun hs => ?_⟩
  · simp only [fixedBits, Finset.mem_filter, Finset.mem_range, Pattern.widen_length,
      getElem?_widen] at hi ⊢
    refine ⟨hi.1, fun hnone => hi.2 ?_⟩
    by_cases hid : i = d
    · simp [hid, hx]
    · simpa [hid] using hnone
  · have := hs hmem
    simp [fixedBits, getElem?_widen, hx] at this

end Cover

/-! ### The order of the rules -/

section Order

variable {α : Type}

lemma bitChar_injective : Function.Injective bitChar := by
  rintro (_ | _ | _) (_ | _ | _) h <;> simp_all [bitChar]

/-- What the rules are compared by. -/
def sortKey (e : Pattern Bool × Option α) : ℕᵒᵈ ×ₗ List ℕ :=
  toLex (OrderDual.toDual (getPrefixLen e.1), e.1.map bitChar)

lemma lePrefixLen_iff {e₁ e₂ : Pattern Bool × Option α} :
    LePrefixLen e₁ e₂ ↔ sortKey e₁ ≤ sortKey e₂ := by
  rw [sortKey, sortKey, Prod.Lex.toLex_le_toLex]
  simp [LePrefixLen]

instance : Std.Total (LePrefixLen : Pattern Bool × Option α → _ → Prop) :=
  ⟨fun a b => by simpa only [lePrefixLen_iff] using le_total (sortKey a) (sortKey b)⟩

instance : IsTrans (Pattern Bool × Option α) LePrefixLen :=
  ⟨fun a b c => by simpa only [lePrefixLen_iff] using le_trans⟩

lemma LePrefixLen.antisymm {e₁ e₂ : Pattern Bool × Option α} (h : LePrefixLen e₁ e₂)
    (h' : LePrefixLen e₂ e₁) : e₁.1 = e₂.1 := by
  rw [lePrefixLen_iff] at h h'
  have heq := congrArg (fun x => (ofLex x).2) (le_antisymm h h')
  exact List.map_injective_iff.mpr bitChar_injective heq

lemma sortRules_perm (table : BitRules α) : (sortRules table).Perm table :=
  List.perm_insertionSort ..

lemma sortRules_pairwise (table : BitRules α) : (sortRules table).Pairwise LePrefixLen :=
  List.pairwise_insertionSort ..

@[simp] lemma mem_sortRules {table : BitRules α} {e : Pattern Bool × Option α} :
    e ∈ sortRules table ↔ e ∈ table := List.mem_insertionSort _

lemma sortRules_eq {table : BitRules α} (h : table.Pairwise LePrefixLen) :
    sortRules table = table := h.insertionSort_eq

end Order

/-! ### The groups -/

section Groups

variable {α : Type} [DecidableEq α] {S : BitRules α}
  {iteritems : RuleGroups α → RuleGroups α}

lemma dictPairs_groupRules (S : BitRules α) :
    (dictPairs (groupRules S)).Perm (S.map (fun x => ((bitMask x.1, x.2), x.1))) := by
  suffices h : ∀ C : RuleGroups α,
      (dictPairs (S.foldl (fun C x => dictAppend (bitMask x.1, x.2) x.1 C) C)).Perm
        (dictPairs C ++ S.map (fun x => ((bitMask x.1, x.2), x.1))) from h []
  induction S with
  | nil => exact fun C => by simp
  | cons x S ih =>
    intro C
    rw [List.foldl_cons, List.map_cons]
    refine (ih _).trans (((dictPairs_append_perm C _ _).append_right _).trans ?_)
    rw [List.append_assoc]
    exact List.Perm.refl _

lemma nodup_groupRules (S : BitRules α) : ((groupRules S).map Prod.fst).Nodup := by
  suffices h : ∀ C : RuleGroups α, (C.map Prod.fst).Nodup →
      ((S.foldl (fun C x => dictAppend (bitMask x.1, x.2) x.1 C) C).map Prod.fst).Nodup from
    h [] List.nodup_nil
  induction S with
  | nil => exact fun C h => h
  | cons x S ih => exact fun C h => ih _ (nodup_keys_dictAppend h)

lemma mem_group {g : (List ℕ × Option α) × List (Pattern Bool)} (hg : g ∈ groupRules S)
    {r : Pattern Bool} : r ∈ g.2 ↔ (r, g.1.2) ∈ S ∧ bitMask r = g.1.1 := by
  rw [mem_iff_dictPairs (nodup_groupRules S) hg, (dictPairs_groupRules S).mem_iff, List.mem_map]
  constructor
  · rintro ⟨x, hx, heq⟩
    obtain ⟨hk, rfl⟩ := Prod.mk.inj heq
    obtain ⟨hm, ho⟩ := Prod.ext_iff.mp hk
    exact ⟨ho ▸ hx, hm⟩
  · rintro ⟨hS, hm⟩
    exact ⟨(r, g.1.2), hS, by rw [hm]⟩

lemma exists_group {x : Pattern Bool × Option α} (hx : x ∈ S) :
    ∃ g ∈ groupRules S, g.1 = (bitMask x.1, x.2) ∧ x.1 ∈ g.2 := by
  have hmem : ((bitMask x.1, x.2), x.1) ∈ dictPairs (groupRules S) :=
    (dictPairs_groupRules S).mem_iff.mpr (List.mem_map_of_mem hx)
  simp only [dictPairs, List.mem_flatMap, List.mem_map] at hmem
  obtain ⟨g, hg, r, hr, heq⟩ := hmem
  obtain ⟨hk, rfl⟩ := Prod.mk.inj heq
  exact ⟨g, hg, hk, hr⟩

end Groups

/-! ### One group -/

section Group

variable {c : List (Pattern Bool)} {x y r : Pattern Bool} {m : List ℕ} {n d : ℕ}

lemma mem_of_mem_pairs (h : (x, y) ∈ pairs c) : x ∈ c ∧ y ∈ c := by
  induction c with
  | nil => cases h
  | cons z c ih =>
    rw [pairs, List.mem_append, List.mem_map] at h
    rcases h with ⟨w, hw, heq⟩ | h
    · cases heq
      exact ⟨List.mem_cons_self, List.mem_cons_of_mem _ hw⟩
    · exact ⟨List.mem_cons_of_mem _ (ih h).1, List.mem_cons_of_mem _ (ih h).2⟩

lemma mem_pairs_or (hx : x ∈ c) (hy : y ∈ c) (hne : x ≠ y) :
    (x, y) ∈ pairs c ∨ (y, x) ∈ pairs c := by
  induction c with
  | nil => cases hx
  | cons z c ih =>
    simp only [pairs, List.mem_append, List.mem_map, Prod.mk.injEq]
    rcases List.mem_cons.mp hx with rfl | hxc
    · rcases List.mem_cons.mp hy with rfl | hyc
      · exact absurd rfl hne
      · exact .inl (.inl ⟨y, hyc, rfl, rfl⟩)
    · rcases List.mem_cons.mp hy with rfl | hyc
      · exact .inr (.inl ⟨x, hxc, rfl, rfl⟩)
      · exact (ih hxc hyc).imp .inr .inr

/-- A group has one mask and one length. -/
def OneMask (c : List (Pattern Bool)) (m : List ℕ) (n : ℕ) : Prop :=
  ∀ x ∈ c, bitMask x = m ∧ x.length = n

lemma OneMask.differsAt (h : OneMask c m n) (hx : x ∈ c) (hy : y ∈ c)
    (hd : hammingDist x y = [d]) : DiffersAt x y d :=
  ⟨(h x hx).2.trans (h y hy).2.symm, (h x hx).1.trans (h y hy).1.symm, hd⟩

lemma OneMask.diffOk (h : OneMask c m n) : diffOk c := by
  rintro ⟨x, y⟩ hxy hlen diff hdiff
  obtain ⟨hx, hy⟩ := mem_of_mem_pairs hxy
  obtain ⟨d, hd⟩ := List.length_eq_one_iff.mp hlen
  rw [hd, List.mem_singleton] at hdiff
  obtain ⟨b, hxb, hyb⟩ := (h.differsAt hx hy hd).bits
  rw [hdiff, hxb, hyb]
  simp

lemma added_iff : added c x = true ↔ ∃ y ∈ c, ∃ d, hammingDist x y = [d] := by
  simp [added, List.length_eq_one_iff]

lemma mergeGroup_eq (c : List (Pattern Bool)) :
    mergeGroup c = (pairs c).filterMap tcover ++ c.filter (fun r => !added c r) := by
  unfold mergeGroup
  split
  · rename_i hlen
    obtain ⟨z, rfl⟩ := List.length_eq_one_iff.mp hlen
    simp [pairs, added, hammingDist_self]
  · rfl

/-- A rule of the group with a wildcard where another one differs. -/
lemma mem_covers (h : OneMask c m n) : r ∈ (pairs c).filterMap tcover ↔
    ∃ x ∈ c, ∃ y ∈ c, ∃ d, hammingDist x y = [d] ∧ r = x.widen [d] := by
  rw [List.mem_filterMap]
  constructor
  · rintro ⟨⟨x, y⟩, hxy, hr⟩
    obtain ⟨hx, hy⟩ := mem_of_mem_pairs hxy
    exact ⟨x, hx, y, hy, tcover_eq_some.mp hr⟩
  · rintro ⟨x, hx, y, hy, d, hd, rfl⟩
    have hxy := h.differsAt hx hy hd
    have hne : x ≠ y := by
      rintro rfl
      simp [hammingDist_self] at hd
    rcases mem_pairs_or hx hy hne with hp | hp
    · exact ⟨(x, y), hp, tcover_eq_some.mpr ⟨d, hd, rfl⟩⟩
    · exact ⟨(y, x), hp, tcover_eq_some.mpr ⟨d, hxy.symm.dist, hxy.widen_eq⟩⟩

/-- Merged rules have fewer bits than one of the rules that they replace. -/
lemma fixedBits_covers (h : OneMask c m n) (hr : r ∈ (pairs c).filterMap tcover) :
    ∃ x ∈ c.filter (fun r => added c r), fixedBits r < fixedBits x := by
  obtain ⟨x, hx, y, hy, d, hd, rfl⟩ := (mem_covers h).mp hr
  exact ⟨x, List.mem_filter.mpr ⟨hx, added_iff.mpr ⟨y, hy, d, hd⟩⟩,
    (h.differsAt hx hy hd).fixedBits_lt⟩

lemma mergeGroup_of_not_added (h : OneMask c m n) (hc : ∀ r ∈ c, ¬ added c r) :
    mergeGroup c = c := by
  have hcovers : (pairs c).filterMap tcover = [] := by
    apply List.eq_nil_iff_forall_not_mem.mpr
    intro r hr
    obtain ⟨x, hx, _⟩ := fixedBits_covers h hr
    exact hc x (List.mem_filter.mp hx).1 (List.mem_filter.mp hx).2
  rw [mergeGroup_eq, hcovers, List.nil_append, List.filter_eq_self]
  exact fun r hr => by simpa using hc r hr

end Group

/-! ### One round -/

section Round

variable {α : Type} {S : BitRules α} {x x' y' : Pattern Bool × Option α} {n : ℕ}
  {key : List Bool}

/-- What a round makes of a rule: the rule if there is nothing to merge it with, or a merge. -/
def Made (S : BitRules α) (x x' : Pattern Bool × Option α) : Prop :=
  x'.2 = x.2 ∧ (x'.1 = x.1 ∧ (∀ y ∈ S, y.2 = x.2 → ∀ d, ¬ DiffersAt x.1 y.1 d) ∨
    ∃ y ∈ S, y.2 = x.2 ∧ ∃ d, DiffersAt x.1 y.1 d ∧ x'.1 = x.1.widen [d])

/-- The sort keeps the order of what becomes of two rules that share keys. -/
def OrderKept (S : BitRules α) : Prop :=
  ∀ x ∈ S, ∀ y ∈ S, x.2 ≠ y.2 → Overlaps x.1 y.1 → LePrefixLen x y →
    ∀ x' y', Made S x x' → Made S y y' → ¬ LePrefixLen y' x'

lemma exists_made (hm : x.1.Matches key) : ∃ x', Made S x x' ∧ x'.1.Matches key := by
  by_cases h : ∃ y ∈ S, y.2 = x.2 ∧ ∃ d, DiffersAt x.1 y.1 d
  · obtain ⟨y, hy, ho, d, hd⟩ := h
    exact ⟨(x.1.widen [d], x.2), ⟨rfl, .inr ⟨y, hy, ho, d, hd, rfl⟩⟩,
      hm.mono ((Within.refl _).widen [d])⟩
  · push Not at h
    exact ⟨x, ⟨rfl, .inl ⟨rfl, h⟩⟩, hm⟩

lemma Made.exists_matches (hx : x ∈ S) (h : Made S x x') (hm : x'.1.Matches key) :
    ∃ z ∈ S, Made S z x' ∧ z.1.Matches key := by
  obtain ⟨ho, ⟨heq, hkeep⟩ | ⟨y, hy, hyo, d, hd, heq⟩⟩ := h
  · exact ⟨x, hx, ⟨ho, .inl ⟨heq, hkeep⟩⟩, heq ▸ hm⟩
  · rcases hd.matches_or (heq ▸ hm) with hm | hm
    · exact ⟨x, hx, ⟨ho, .inr ⟨y, hy, hyo, d, hd, heq⟩⟩, hm⟩
    · exact ⟨y, hy, ⟨ho.trans hyo.symm, .inr ⟨x, hx, hyo.symm, d, hd.symm,
        heq.trans hd.widen_eq⟩⟩, hm⟩

lemma Made.length_eq (h : Made S x x') : x'.1.length = x.1.length := by
  obtain ⟨-, ⟨heq, -⟩ | ⟨y, -, -, d, -, heq⟩⟩ := h
  · rw [heq]
  · rw [heq, Pattern.widen_length]

variable [DecidableEq α] {iteritems : RuleGroups α → RuleGroups α}

lemma oneMask_group {g : (List ℕ × Option α) × List (Pattern Bool)} (hg : g ∈ groupRules S)
    (hn : ∀ x ∈ S, x.1.length = n) : OneMask g.2 g.1.1 n := by
  intro r hr
  obtain ⟨hS, hm⟩ := (mem_group hg).mp hr
  exact ⟨hm, hn _ hS⟩

lemma mem_mergeRound (hit : ∀ C, (iteritems C).Perm C) (hn : ∀ x ∈ S, x.1.length = n) :
    x' ∈ mergeRound iteritems S ↔ ∃ x ∈ S, Made S x x' := by
  simp only [mergeRound, mem_sortRules, List.mem_flatMap, (hit _).mem_iff, List.mem_map,
    mergeGroup_eq, List.mem_append, List.mem_filter]
  constructor
  · rintro ⟨g, hg, r, hr, rfl⟩
    rcases hr with hr | ⟨hr, hkeep⟩
    · obtain ⟨x, hx, y, hy, d, hd, rfl⟩ := (mem_covers (oneMask_group hg hn)).mp hr
      exact ⟨(x, g.1.2), ((mem_group hg).mp hx).1, rfl, .inr ⟨(y, g.1.2),
        ((mem_group hg).mp hy).1, rfl, d, (oneMask_group hg hn).differsAt hx hy hd, rfl⟩⟩
    · obtain ⟨hS, hmask⟩ := (mem_group hg).mp hr
      refine ⟨(r, g.1.2), hS, rfl, .inl ⟨rfl, fun y hy ho d hd => ?_⟩⟩
      have hyg : y.1 ∈ g.2 := (mem_group hg).mpr ⟨ho ▸ hy, hd.mask_eq.symm.trans hmask⟩
      have hadd : added g.2 r = true := added_iff.mpr ⟨y.1, hyg, d, hd.dist⟩
      simp [hadd] at hkeep
  · rintro ⟨x, hx, ho, hmade⟩
    obtain ⟨g, hg, hk, hxg⟩ := exists_group hx
    have hgo : g.1.2 = x.2 := congrArg Prod.snd hk
    refine ⟨g, hg, x'.1, ?_, by rw [hgo, ← ho]⟩
    rcases hmade with ⟨heq, hkeep⟩ | ⟨y, hy, hyo, d, hd, heq⟩
    · refine .inr ⟨heq ▸ hxg, ?_⟩
      rw [heq, Bool.not_eq_true', Bool.eq_false_iff]
      intro hadd
      obtain ⟨y, hy, d, hd⟩ := added_iff.mp hadd
      exact hkeep (y, g.1.2) ((mem_group hg).mp hy).1 hgo d
        ((oneMask_group hg hn).differsAt hxg hy hd)
    · have hyg : y.1 ∈ g.2 := (mem_group hg).mpr
        ⟨by rw [hgo, ← hyo]; exact hy, by rw [congrArg Prod.fst hk, hd.mask_eq]⟩
      exact .inl ((mem_covers (oneMask_group hg hn)).mpr ⟨x.1, hxg, y.1, hyg, d, hd.dist, heq⟩)

/-- A round that keeps the order keeps the meaning. -/
theorem firstMatch_mergeRound (hit : ∀ C, (iteritems C).Perm C)
    (hn : ∀ x ∈ S, x.1.length = n) (hs : S.Pairwise LePrefixLen) (hkept : OrderKept S) :
    firstMatch (mergeRound iteritems S) key = firstMatch S key := by
  cases h : firstMatch S key with
  | none =>
    rw [firstMatch_eq_none_iff] at h ⊢
    intro x' hx' hm
    obtain ⟨x, hx, hmade⟩ := (mem_mergeRound hit hn).mp hx'
    obtain ⟨z, hz, -, hzm⟩ := hmade.exists_matches hx hm
    exact h z hz hzm
  | some out =>
    obtain ⟨x, hx, hm, rfl, hfirst⟩ := exists_of_firstMatch hs h
    obtain ⟨x', hmade, hm'⟩ := exists_made (S := S) hm
    rw [← hmade.1]
    refine firstMatch_eq_of_pairwise (sortRules_pairwise _)
      ((mem_mergeRound hit hn).mpr ⟨x, hx, hmade⟩) hm' fun y' hy' hym' hne => ?_
    obtain ⟨y₀, hy₀, hmade₀⟩ := (mem_mergeRound hit hn).mp hy'
    obtain ⟨y, hy, hmadey, hym⟩ := hmade₀.exists_matches hy₀ hym'
    have hout : x.2 ≠ y.2 := fun heq => hne (by rw [hmadey.1, hmade.1, heq])
    rcases hfirst y hy hym with rfl | hle
    · exact absurd rfl hout
    · exact hkept x hx y hy hout (hm.overlaps hym) hle x' y' hmade hmadey

end Round

/-! ### All rounds -/

section Rounds

variable {α : Type} {S table : BitRules α} {n : ℕ} {key : List Bool}

/-- Rules that share keys in the order of the sort keep their meaning. -/
lemma firstMatch_sortRules (h : table.Pairwise
    (fun x y => x.2 ≠ y.2 → Overlaps x.1 y.1 → ¬ LePrefixLen y x)) :
    firstMatch (sortRules table) key = firstMatch table key := by
  cases hf : firstMatch table key with
  | none =>
    rw [firstMatch_eq_none_iff] at hf ⊢
    exact fun x hx => hf x (mem_sortRules.mp hx)
  | some out =>
    obtain ⟨x, hx, hm, rfl, hfirst⟩ := exists_of_firstMatch h hf
    refine firstMatch_eq_of_pairwise (sortRules_pairwise _) (mem_sortRules.mpr hx) hm ?_
    intro y hy hym hne
    rcases hfirst y (mem_sortRules.mp hy) hym with rfl | hafter
    · exact absurd rfl hne
    · exact hafter hne.symm (hm.overlaps hym)

/-- The bits of the rules. -/
def ruleBits (S : BitRules α) : Multiset (Finset ℕ) := (S.map (fun x => fixedBits x.1) : List _)

variable [DecidableEq α] {iteritems : RuleGroups α → RuleGroups α}

lemma groups_perm (hit : ∀ C, (iteritems C).Perm C) (S : BitRules α) :
    ((iteritems (groupRules S)).flatMap (fun g => g.2.map (fun r => (r, g.1.2)))).Perm S := by
  have h := ((dictPairs_perm (hit (groupRules S))).trans (dictPairs_groupRules S)).map
    (fun p => (p.2, p.1.2))
  simpa [dictPairs, List.map_flatMap, Function.comp_def] using h

/-- A round that merges no rule only sorts, and any other leaves fewer bits. -/
lemma mergeRound_descends (hit : ∀ C, (iteritems C).Perm C) (hn : ∀ x ∈ S, x.1.length = n) :
    ((∀ x ∈ S, Made S x x) ∧ (mergeRound iteritems S).Perm S) ∨
      (ruleBits (mergeRound iteritems S)).IsDershowitzMannaLT (ruleBits S) := by
  have hone : ∀ g ∈ iteritems (groupRules S), OneMask g.2 g.1.1 n := fun g hg =>
    oneMask_group ((hit _).mem_iff.mp hg) hn
  have hround := sortRules_perm ((iteritems (groupRules S)).flatMap
    (fun g => (mergeGroup g.2).map (fun r => (r, g.1.2))))
  by_cases hadd : ∀ g ∈ iteritems (groupRules S), ∀ r ∈ g.2, ¬ added g.2 r
  · refine .inl ⟨fun x hx => ⟨rfl, .inl ⟨rfl, fun y hy ho d hd => ?_⟩⟩,
      hround.trans (List.Perm.trans (.of_eq ?_) (groups_perm hit S))⟩
    · obtain ⟨g, hg, hk, hxg⟩ := exists_group hx
      have hyg : y.1 ∈ g.2 := (mem_group hg).mpr ⟨by rw [hk, ← ho]; exact hy, by
        rw [hk, hd.mask_eq]⟩
      exact hadd g ((hit _).mem_iff.mpr hg) x.1 hxg (added_iff.mpr ⟨y.1, hyg, d, hd.dist⟩)
    · apply List.flatMap_congr
      intro g hg
      rw [mergeGroup_of_not_added (hone g hg) (hadd g hg)]
  · right
    -- the rules that stay, the merges, and the rules that are merged
    refine ⟨((iteritems (groupRules S)).flatMap
        (fun g => (g.2.filter (fun r => !added g.2 r)).map fixedBits) : List _),
      ((iteritems (groupRules S)).flatMap
        (fun g => ((pairs g.2).filterMap tcover).map fixedBits) : List _),
      ((iteritems (groupRules S)).flatMap
        (fun g => (g.2.filter (fun r => added g.2 r)).map fixedBits) : List _), ?_, ?_, ?_, ?_⟩
    · push Not at hadd
      obtain ⟨g, hg, r, hr, hgr⟩ := hadd
      intro hempty
      apply Multiset.eq_zero_iff_forall_notMem.mp hempty (fixedBits r)
      rw [Multiset.mem_coe, List.mem_flatMap]
      exact ⟨g, hg, List.mem_map_of_mem (List.mem_filter.mpr ⟨hr, hgr⟩)⟩
    · rw [Multiset.coe_add, ruleBits, Multiset.coe_eq_coe]
      refine (hround.map _).trans (List.Perm.trans ?_ (List.flatMap_append_perm _ _ _).symm)
      rw [List.map_flatMap]
      apply List.Perm.flatMap_left
      intro g _
      rw [mergeGroup_eq, List.map_map, ← List.map_append]
      exact List.perm_append_comm.map _
    · rw [Multiset.coe_add, ruleBits, Multiset.coe_eq_coe]
      refine ((groups_perm hit S).symm.map _).trans
        (List.Perm.trans ?_ (List.flatMap_append_perm _ _ _).symm)
      rw [List.map_flatMap]
      apply List.Perm.flatMap_left
      intro g _
      rw [List.map_map, ← List.map_append]
      have hsplit := List.filter_append_perm (fun r => added g.2 r) g.2
      exact ((hsplit.symm.trans List.perm_append_comm).map _)
    · intro b hb
      rw [Multiset.mem_coe, List.mem_flatMap] at hb
      obtain ⟨g, hg, hb⟩ := hb
      obtain ⟨r, hr, rfl⟩ := List.mem_map.mp hb
      obtain ⟨x, hx, hlt⟩ := fixedBits_covers (hone g hg) hr
      refine ⟨fixedBits x, ?_, hlt⟩
      rw [Multiset.mem_coe, List.mem_flatMap]
      exact ⟨g, hg, List.mem_map_of_mem hx⟩

/-- A round that merges no rule changes nothing, and any other leaves fewer bits. -/
lemma mergeRound_eq_or_descends (hit : ∀ C, (iteritems C).Perm C)
    (hn : ∀ x ∈ S, x.1.length = n) (hs : S.Pairwise LePrefixLen) (hkept : OrderKept S) :
    S = mergeRound iteritems S ∨
      (ruleBits (mergeRound iteritems S)).IsDershowitzMannaLT (ruleBits S) := by
  refine (mergeRound_descends hit hn).imp_left fun ⟨hmade, hperm⟩ => ?_
  refine List.Perm.eq_of_pairwise (fun x y hx hy hxy hyx => ?_) hs (sortRules_pairwise _)
    hperm.symm
  have hpat := hxy.antisymm hyx
  refine Prod.ext hpat ?_
  by_contra hout
  have hyS := hperm.mem_iff.mp hy
  exact hkept x hx y hyS hout (hpat ▸ (Within.refl _).overlaps) hxy x y (hmade x hx)
    (hmade y hyS) hyx

omit [DecidableEq α] in
lemma ruleBits_sortRules (table : BitRules α) : ruleBits (sortRules table) = ruleBits table :=
  Multiset.coe_eq_coe.mpr ((sortRules_perm table).map _)

lemma sortRules_mergeRound (S : BitRules α) :
    sortRules (mergeRound iteritems S) = mergeRound iteritems S :=
  sortRules_eq (sortRules_pairwise _)

lemma diffOk_groupRules (hn : ∀ x ∈ S, x.1.length = n) : ∀ g ∈ groupRules S, diffOk g.2 :=
  fun _ hg => (oneMask_group hg hn).diffOk

/-- No rule for the one output is sorted behind or level with a rule for the other. -/
def InOrder (O : BitRules α) (out out' : Option α) : Prop :=
  ∀ x' ∈ O, ∀ y' ∈ O, x'.2 = out → y'.2 = out' → ¬ LePrefixLen y' x'

instance (O : BitRules α) (out out' : Option α) : Decidable (InOrder O out out') :=
  inferInstanceAs (Decidable (∀ x' ∈ O, ∀ y' ∈ O, _))

lemma orderKept_of_inOrder (hit : ∀ C, (iteritems C).Perm C) (hn : ∀ x ∈ S, x.1.length = n)
    (h : ∀ x ∈ S, ∀ y ∈ S, x.2 ≠ y.2 → Overlaps x.1 y.1 → LePrefixLen x y →
      InOrder (mergeRound iteritems S) x.2 y.2) : OrderKept S := by
  intro x hx y hy hne hover hle x' y' hx' hy'
  exact h x hx y hy hne hover hle x' ((mem_mergeRound hit hn).mpr ⟨x, hx, hx'⟩) y'
    ((mem_mergeRound hit hn).mpr ⟨y, hy, hy'⟩) hx'.1 hy'.1

/-- What a table keeps in every round. -/
structure MergeInv (table : BitRules α) (n : ℕ) (T : BitRules α) : Prop where
  length : ∀ x ∈ T, x.1.length = n
  output : ∀ x ∈ T, ∃ y ∈ table, y.2 = x.2
  meaning : ∀ key, firstMatch (sortRules T) key = firstMatch table key

lemma MergeInv.round {T : BitRules α} (h : MergeInv table n T)
    (hit : ∀ C, (iteritems C).Perm C) (hkept : OrderKept (sortRules T)) :
    MergeInv table n (mergeRound iteritems (sortRules T)) := by
  have hn : ∀ x ∈ sortRules T, x.1.length = n := fun x hx => h.length x (mem_sortRules.mp hx)
  refine ⟨fun x' hx' => ?_, fun x' hx' => ?_, fun key => ?_⟩
  · obtain ⟨x, hx, hmade⟩ := (mem_mergeRound hit hn).mp hx'
    rw [hmade.length_eq, hn x hx]
  · obtain ⟨x, hx, hmade⟩ := (mem_mergeRound hit hn).mp hx'
    rw [hmade.1]
    exact h.output x (mem_sortRules.mp hx)
  · rw [sortRules_mergeRound, firstMatch_mergeRound hit hn (sortRules_pairwise _) hkept, h.meaning]

lemma bitMerge_mono {fuel fuel' : ℕ} {T : BitRules α} (hle : fuel ≤ fuel')
    (h : bitMerge fuel iteritems table = some T) : bitMerge fuel' iteritems table = some T := by
  rw [bitMerge, Option.join_eq_some_iff] at h ⊢
  exact Loop.run_mono hle h

/-- The rounds come to an end with a table of the same meaning. -/
theorem bitMerge_spec (hit : ∀ C, (iteritems C).Perm C) (hn : ∀ x ∈ table, x.1.length = n)
    (hsort : ∀ key, firstMatch (sortRules table) key = firstMatch table key)
    (hkept : ∀ T, Loop.Reaches (bitMergeStep iteritems) table T → OrderKept (sortRules T)) :
    ∃ fuel T, bitMerge fuel iteritems table = some T ∧ (∀ x ∈ T, x.1.length = n) ∧
      (∀ x ∈ T, ∃ y ∈ table, y.2 = x.2) ∧
      ∀ key, firstMatch T key = firstMatch table key := by
  have hwf := InvImage.wf (fun T : BitRules α => ruleBits T)
    Multiset.wellFounded_isDershowitzMannaLT
  have hbody : ∀ T, Loop.Reaches (bitMergeStep iteritems) table T ∧ MergeInv table n T →
      (∃ r, bitMergeStep iteritems T = .done r ∧ ∃ T', r = some T' ∧ MergeInv table n T' ∧
        ∀ key, firstMatch T' key = firstMatch table key) ∨
      ∃ T', bitMergeStep iteritems T = .next T' ∧
        (Loop.Reaches (bitMergeStep iteritems) table T' ∧ MergeInv table n T') ∧
        (ruleBits T').IsDershowitzMannaLT (ruleBits T) := by
    rintro T ⟨hreach, hinv⟩
    have hnS : ∀ x ∈ sortRules T, x.1.length = n := fun x hx =>
      hinv.length x (mem_sortRules.mp hx)
    have hround := hinv.round hit (hkept T hreach)
    by_cases heq : sortRules T = mergeRound iteritems (sortRules T)
    · refine .inl ⟨some (mergeRound iteritems (sortRules T)), ?_, _, rfl, hround, fun key => ?_⟩
      · rw [bitMergeStep, if_pos (diffOk_groupRules hnS), if_pos heq]
      · rw [← hround.meaning, sortRules_mergeRound]
    · have hnext : bitMergeStep iteritems T = .next (mergeRound iteritems (sortRules T)) := by
        rw [bitMergeStep, if_pos (diffOk_groupRules hnS), if_neg heq]
      refine .inr ⟨_, hnext, ⟨hreach.tail hnext, hround⟩, ?_⟩
      have hlt := (mergeRound_eq_or_descends hit hnS (sortRules_pairwise _)
        (hkept T hreach)).resolve_left heq
      rwa [ruleBits_sortRules] at hlt
  obtain ⟨r, ⟨fuel, hrun⟩, T, rfl, hT, hmeaning⟩ := Loop.returns_of_wellFounded hwf _ _ hbody
    ⟨.refl, hn, fun x hx => ⟨x, hx, rfl⟩, hsort⟩
  exact ⟨fuel, T, by rw [bitMerge, hrun]; rfl, hT.length, hT.output, hmeaning⟩

/-- The rule merged from `01` and `11` goes behind the rule `0*` with another output, and the
key `01` changes its outcome. -/
example : bitMerge 5 id [([some false, some true], some 0), ([some true, some true], some 0),
    ([some false, none], some 1)] =
      some [([some false, none], some 1), ([none, some true], some 0)] := by
  decide +kernel

end Rounds

end ResSim
