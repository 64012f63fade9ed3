import ResSim.Bitweave.Partition
import ResSim.Bitweave.Suri

/-!
# Bit weaving

A table is cut into partitions, and every partition with more than one rule is swapped, read
as intervals, made small, merged and swapped back. The result means the same as the table
when no rule of wildcards only shares a partition, merging keeps the order of the rules, and
no rule for `None` that is dropped or comes in hides or uncovers the partitions behind.
-/

namespace ResSim

open Pattern

section Defs

variable {α ω : Type} [DecidableEq α]

/-- A partition after the swap, made small. -/
def minimizedTable (suri : Suri α ω) (lenRule : ℕ) (partition : BitRules α) :
    Option (BitRules α) := do
  let (suriTable, suriWeights) ← suriFmt (prefixBitSwap partition).1
  let suriSol ← suri.solution suriTable suriWeights
  suriUnfmt suriSol lenRule

/-- What the loop of `BitWeave` adds for one partition. -/
def weavePartition (fuel : ℕ) (iteritems : RuleGroups α → RuleGroups α) (suri : Suri α ω)
    (lenRule : ℕ) (partition : BitRules α) : Option (BitRules α) :=
  if partition.length ≤ 1 then some partition
  else
    let (bitswapTable, B) := prefixBitSwap partition
    if bitRecovery bitswapTable B = partition then do
      let minimized ← minimizedTable suri lenRule partition
      let bitmergeTable ← bitMerge fuel iteritems minimized
      some (bitRecovery bitmergeTable B)
    else none

/-- The table without a `None` rule at its end. -/
def popNone (table : BitRules α) : BitRules α :=
  if (table.getLast?.map Prod.snd) = some none then table.dropLast else table

def bitWeave (fuel : ℕ) (iteritems : RuleGroups α → RuleGroups α) (suri : Suri α ω)
    (table : BitRules α) : Option (BitRules α) :=
  if table = [] then none
  else do
    let table := popNone table
    let partitions ← findMinPartition table
    -- the partitions have the order of the table
    if partitions.flatten <+: table then do
      let first ← table.head?
      let lenRule := first.1.length
      let newTable ← partitions.mapM (weavePartition fuel iteritems suri lenRule)
      some (newTable.flatten ++ [(List.replicate lenRule none, none)])
    else none

/-- Every partition with more than one rule has a bit in every rule. -/
def HasBits (parts : List (BitRules α)) : Prop :=
  ∀ P ∈ parts, 1 < P.length → ∀ x ∈ P, ∃ a ∈ x.1, a ≠ none

/-- The table has a rule, and no rule of wildcards only is formatted. -/
def Formattable (table : BitRules α) : Prop :=
  popNone table ≠ [] ∧ ∀ parts, findMinPartition (popNone table) = some parts → HasBits parts

/-- What `suri` returns for the partitions is a solution. -/
def SuriOk (suri : Suri α ω) (n : ℕ) (parts : List (BitRules α)) : Prop :=
  ∀ P ∈ parts, 1 < P.length → ∀ suriTable suriWeights,
    suriFmt (prefixBitSwap P).1 = some (suriTable, suriWeights) → ∃ suriSol body,
      suri.solution suriTable suriWeights = some suriSol ∧
        IsSolution n suriTable suriSol body

/-- No round of merging moves a rule past another one. -/
def MergesInOrder (iteritems : RuleGroups α → RuleGroups α) (suri : Suri α ω) (n : ℕ)
    (parts : List (BitRules α)) : Prop :=
  ∀ P ∈ parts, 1 < P.length → ∀ minimized, minimizedTable suri n P = some minimized →
    ∀ T, Loop.Reaches (bitMergeStep iteritems) minimized T → OrderKept (sortRules T)

/-- The key as the swapped partition has it. -/
def swapKey (partition : BitRules α) (key : List Bool) : List Bool :=
  gather ((prefixBitSwap partition).2.map Prod.fst) false key

/-- The solution has no rule for a key that a `None` rule of the partition decides, or the other
way round. -/
def NoneMoves (partition minimized : BitRules α) (key : List Bool) : Prop :=
  (firstMatch partition key = some none ∧ firstMatch minimized (swapKey partition key) = none) ∨
    (firstMatch partition key = none ∧
      firstMatch minimized (swapKey partition key) = some none)

/-- Where a `None` rule is dropped or comes in, for a key without an output from the partitions
before, the partitions behind have no output for the key. -/
def NoneHarmless (suri : Suri α ω) (n : ℕ) (parts : List (BitRules α)) : Prop :=
  ∀ before P behind, parts = before ++ P :: behind → 1 < P.length →
    ∀ minimized, minimizedTable suri n P = some minimized → ∀ key, key.length = n →
      (firstMatch before.flatten key).join = none → NoneMoves P minimized key →
      (firstMatch behind.flatten key).join = none

end Defs

lemma eq_or_of_join_eq {α : Type} {o o' : Option (Option α)} (h : o.join = o'.join) :
    o = o' ∨ (o' = some none ∧ o = none) ∨ (o' = none ∧ o = some none) := by
  rcases o with _ | _ | a <;> rcases o' with _ | _ | b <;> simp_all

/-! ### One partition -/

section OnePartition

variable {α ω : Type} [DecidableEq α] {suri : Suri α ω} {P minimized : BitRules α} {n fuel : ℕ}
  {iteritems : RuleGroups α → RuleGroups α} {key : List Bool}

omit [DecidableEq α] in
lemma swapped_prefixPattern (hP : NoCross P) (hlen : ∀ x ∈ P, x.1.length = n)
    {x : Pattern Bool × Option α} (hx : x ∈ P) : ∃ bits k, bits.length + k = n ∧
      gather ((swapOrder P n).map Prod.fst) none x.1 = prefixPattern bits k ∧
        (bits = [] ↔ ∀ a ∈ x.1, a = none) := by
  obtain ⟨bits, k, heq, hn⟩ := exists_prefixPattern hP hlen hx
  refine ⟨bits, k, hn, heq, ?_⟩
  have hperm := gather_perm (swapOrder_perm P n) (a := none) (hlen x hx)
  simp only [← hperm.mem_iff, heq, prefixPattern]
  constructor
  · rintro rfl
    simp
  · intro hall
    cases bits with
    | nil => rfl
    | cons b bits => simp at hall

lemma weavePartition_eq_none (hP : NoCross P) (hlen : ∀ x ∈ P, x.1.length = n)
    (hlt : 1 < P.length) {x : Pattern Bool × Option α} (hx : x ∈ P) (hall : ∀ a ∈ x.1, a = none) :
    weavePartition fuel iteritems suri n P = none := by
  obtain ⟨bits, k, -, heq, hbits⟩ := swapped_prefixPattern hP hlen hx
  rw [hbits.mpr hall] at heq
  have hne : P ≠ [] := List.ne_nil_of_mem hx
  have hfmt : suriFmt (prefixBitSwap P).1 = none := by
    rw [prefixBitSwap_eq hne hlen]
    exact suriFmt_eq_none (List.mem_map_of_mem hx) heq
  rw [weavePartition, if_neg (by omega)]
  simp [minimizedTable, hfmt]

/-- The table that is merged means the same as the partition, for the swapped key. -/
lemma minimizedTable_spec (hP : NoCross P) (hlen : ∀ x ∈ P, x.1.length = n)
    (hlt : 1 < P.length) (hbits : ∀ x ∈ P, ∃ a ∈ x.1, a ≠ none)
    (hsuri : ∀ suriTable suriWeights,
      suriFmt (prefixBitSwap P).1 = some (suriTable, suriWeights) → ∃ suriSol body,
        suri.solution suriTable suriWeights = some suriSol ∧
          IsSolution n suriTable suriSol body) :
    ∃ minimized, minimizedTable suri n P = some minimized ∧
      (∀ x ∈ minimized, x.1.length = n) ∧
      (∀ key, firstMatch (sortRules minimized) key = firstMatch minimized key) ∧
      ∀ key, key.length = n →
        (firstMatch minimized (gather ((swapOrder P n).map Prod.fst) false key)).join =
          (firstMatch P key).join := by
  have hne : P ≠ [] := by
    rintro rfl
    simp at hlt
  have hswapped : ∀ y ∈ (prefixBitSwap P).1, ∃ bits k, bits ≠ [] ∧ bits.length + k = n ∧
      y.1 = prefixPattern bits k := by
    rw [prefixBitSwap_eq hne hlen]
    intro y hy
    obtain ⟨x, hx, rfl⟩ := List.mem_map.mp hy
    obtain ⟨bits, k, hn, heq, hnil⟩ := swapped_prefixPattern hP hlen hx
    obtain ⟨a, ha, hane⟩ := hbits x hx
    exact ⟨bits, k, fun h => hane (hnil.mp h a ha), hn, heq⟩
  obtain ⟨rules, weights, hfmt, hsame⟩ := suriFmt_spec
    (by simpa [prefixBitSwap_eq hne hlen] using hne) hswapped
  obtain ⟨suriSol, body, hsol, hok⟩ := hsuri _ _ hfmt
  obtain ⟨minimized, hmin, hsame'⟩ := hok.suriUnfmt
  refine ⟨minimized, by simp [minimizedTable, hfmt, hsol, hmin], fun x hx => ?_,
    fun key => hok.firstMatch_sortRules hsame', fun key hkey => ?_⟩
  · obtain ⟨r, _, hxr⟩ := exists_of_forall₂ hsame' hx
    exact hxr.length_eq
  · have hix := swapOrder_perm P n
    have hlen' : (gather ((swapOrder P n).map Prod.fst) false key).length = n := by
      rw [length_gather, hix.length_eq, List.length_range]
    have hlt' := bitVal_lt (gather ((swapOrder P n).map Prod.fst) false key)
    rw [hlen'] at hlt'
    rw [firstMatch_eq_intervalMatch hsame' hlen', hok.meaning _ hlt',
      intervalMatch_append_none, ← firstMatch_eq_intervalMatch hsame hlen',
      prefixBitSwap_eq hne hlen]
    exact congrArg Option.join (firstMatch_map fun x hx => matches_gather hix (hlen x hx) hkey)

lemma weavePartition_spec (hit : ∀ C, (iteritems C).Perm C) (hP : NoCross P)
    (hlen : ∀ x ∈ P, x.1.length = n) (hlt : 1 < P.length)
    (hmin : minimizedTable suri n P = some minimized) (hlenm : ∀ x ∈ minimized, x.1.length = n)
    (hsort : ∀ key, firstMatch (sortRules minimized) key = firstMatch minimized key)
    (hmerge : ∀ T, Loop.Reaches (bitMergeStep iteritems) minimized T →
      OrderKept (sortRules T)) :
    ∃ fuel N, weavePartition fuel iteritems suri n P = some N ∧
      ∀ key, key.length = n → firstMatch N key =
        firstMatch minimized (gather ((swapOrder P n).map Prod.fst) false key) := by
  have hne : P ≠ [] := by
    rintro rfl
    simp at hlt
  obtain ⟨fuel, T, hT, hTlen, -, hTmeaning⟩ := bitMerge_spec hit hlenm hsort hmerge
  refine ⟨fuel, bitRecovery T (swapOrder P n), ?_, fun key hkey => ?_⟩
  · rw [weavePartition, if_neg (by omega), prefixBitSwap_eq hne hlen]
    simp [bitRecovery_swap hlen, hmin, hT]
  · rw [← hTmeaning]
    exact firstMatch_map fun x hx => matches_scatter (swapOrder_perm P n) (hTlen x hx) hkey

lemma weavePartition_mono {fuel' : ℕ} {N : BitRules α} (hle : fuel ≤ fuel')
    (h : weavePartition fuel iteritems suri n P = some N) :
    weavePartition fuel' iteritems suri n P = some N := by
  unfold weavePartition at h ⊢
  split at h
  · rwa [if_pos ‹_›]
  · rw [if_neg ‹_›]
    simp only at h ⊢
    split at h
    · rw [if_pos ‹_›]
      simp only [Option.bind_eq_bind, Option.bind_eq_some_iff] at h ⊢
      obtain ⟨m, hm, T, hT, hN⟩ := h
      exact ⟨m, hm, T, bitMerge_mono hle hT, hN⟩
    · cases h

lemma exists_weavePartition (hit : ∀ C, (iteritems C).Perm C) (hP : NoCross P)
    (hlen : ∀ x ∈ P, x.1.length = n) {parts : List (BitRules α)} (hmem : P ∈ parts)
    (hbits : HasBits parts) (hsuri : SuriOk suri n parts)
    (hmerge : MergesInOrder iteritems suri n parts) :
    ∃ fuel N, weavePartition fuel iteritems suri n P = some N ∧
      ∀ key, key.length = n → (firstMatch N key).join = (firstMatch P key).join ∧
        (firstMatch N key = firstMatch P key ∨ 1 < P.length ∧ ∃ minimized,
          minimizedTable suri n P = some minimized ∧ NoneMoves P minimized key) := by
  by_cases hlt : 1 < P.length
  · obtain ⟨m, hm, hmlen, hmsort, hmeaning⟩ := minimizedTable_spec hP hlen hlt
      (hbits P hmem hlt) (hsuri P hmem hlt)
    obtain ⟨fuel, N, hN, heq⟩ := weavePartition_spec hit hP hlen hlt hm hmlen hmsort
      (hmerge P hmem hlt m hm)
    have hne : P ≠ [] := List.ne_nil_of_length_pos (by omega)
    refine ⟨fuel, N, hN, fun key hkey => ?_⟩
    have hswap : firstMatch N key = firstMatch m (swapKey P key) := by
      rw [heq key hkey, swapKey, prefixBitSwap_eq hne hlen]
    have hjoin : (firstMatch m (swapKey P key)).join = (firstMatch P key).join := by
      rw [← hswap, heq key hkey, hmeaning key hkey]
    rw [hswap]
    refine ⟨hjoin, ?_⟩
    rcases eq_or_of_join_eq hjoin with hsame | hmoves
    · exact .inl hsame
    · exact .inr ⟨hlt, m, hm, hmoves⟩
  · exact ⟨0, P, by rw [weavePartition, if_pos (by omega)], fun _ _ => ⟨rfl, .inl rfl⟩⟩

end OnePartition

/-! ### The table -/

section Table

variable {α ω : Type} [DecidableEq α] {suri : Suri α ω} {table : BitRules α} {n : ℕ}
  {iteritems : RuleGroups α → RuleGroups α} {parts : List (BitRules α)} {key : List Bool}

/-- A `None` rule at the end means nothing. -/
lemma join_firstMatch_popNone (table : BitRules α) (key : List Bool) :
    (firstMatch (popNone table) key).join = (firstMatch table key).join := by
  rw [popNone]
  split
  · rename_i h
    obtain ⟨last, hlast, hnone⟩ := Option.map_eq_some_iff.mp h
    conv_rhs => rw [← List.dropLast_append_getLast? last hlast]
    rw [firstMatch_append, firstMatch_cons, hnone]
    cases firstMatch table.dropLast key with
    | none => split <;> rfl
    | some o => rfl
  · rfl

lemma mem_popNone {x : Pattern Bool × Option α} (h : x ∈ popNone table) : x ∈ table := by
  rw [popNone] at h
  split at h
  · exact List.mem_of_mem_dropLast h
  · exact h

omit [DecidableEq α] in
/-- Partitions that keep their outcome, up to `None` where those behind have no output. The
partitions before have no output either. -/
lemma join_firstMatch_flatten {all before news : List (BitRules α)} (hall : all = before ++ parts)
    (hbefore : (firstMatch before.flatten key).join = none)
    (h : List.Forall₂ (fun P N => (firstMatch N key).join = (firstMatch P key).join ∧
      (firstMatch N key = firstMatch P key ∨ ∀ before behind, all = before ++ P :: behind →
        (firstMatch before.flatten key).join = none →
        (firstMatch behind.flatten key).join = none)) parts news) :
    (firstMatch news.flatten key).join = (firstMatch parts.flatten key).join := by
  induction parts generalizing before news with
  | nil =>
    cases h
    rfl
  | cons P parts ih =>
    obtain ⟨N, news, ⟨hjoin, hkeep⟩, hrest, rfl⟩ := List.forall₂_cons_left_iff.mp h
    rw [List.flatten_cons, List.flatten_cons, firstMatch_append, firstMatch_append]
    by_cases hP : (firstMatch P key).join = none
    · have hall' : all = (before ++ [P]) ++ parts := by rw [hall, List.append_assoc]; rfl
      have hbefore' : (firstMatch (before ++ [P]).flatten key).join = none := by
        rw [List.flatten_append, List.flatten_singleton, firstMatch_append]
        cases hb : firstMatch before.flatten key with
        | none => exact hP
        | some o =>
          rw [hb] at hbefore
          exact hbefore
      have hih := ih hall' hbefore' hrest
      rcases hkeep with hsame | hbehind
      · rw [hsame]
        cases hPo : firstMatch P key with
        | none => exact hih
        | some o => rfl
      · have hnone := hbehind before parts hall hbefore
        have hlast : ∀ {o o' : Option (Option α)}, o.join = none → o'.join = none →
            (o.or o').join = none := by
          intro o o' ho ho'
          cases o with
          | none => exact ho'
          | some o => exact ho
        rw [hlast hP hnone, hlast (hjoin.trans hP) (hih.trans hnone)]
    · rcases hkeep with hsame | hbehind
      · rw [hsame]
        cases hPo : firstMatch P key with
        | none => exact absurd (congrArg Option.join hPo) hP
        | some o => rfl
      · cases hNo : firstMatch N key with
        | none =>
          rw [hNo] at hjoin
          exact absurd hjoin.symm hP
        | some o =>
          cases hPo : firstMatch P key with
          | none => exact absurd (congrArg Option.join hPo) hP
          | some o' =>
            rw [hNo, hPo] at hjoin
            exact hjoin

lemma exists_fuel {Q : BitRules α → BitRules α → Prop} (h : ∀ P ∈ parts, ∃ fuel N,
      weavePartition fuel iteritems suri n P = some N ∧ Q P N) :
    ∃ fuel, ∀ P ∈ parts, ∃ N, weavePartition fuel iteritems suri n P = some N ∧ Q P N := by
  induction parts with
  | nil => exact ⟨0, by simp⟩
  | cons P parts ih =>
    rw [List.forall_mem_cons] at h
    obtain ⟨fuel₁, N, hN, hQ⟩ := h.1
    obtain ⟨fuel₂, h₂⟩ := ih h.2
    refine ⟨max fuel₁ fuel₂, List.forall_mem_cons.mpr
      ⟨⟨N, weavePartition_mono (le_max_left _ _) hN, hQ⟩, fun P' hP' => ?_⟩⟩
    obtain ⟨N', hN', hQ'⟩ := h₂ P' hP'
    exact ⟨N', weavePartition_mono (le_max_right _ _) hN', hQ'⟩

lemma bitWeave_of_parts (hit : ∀ C, (iteritems C).Perm C) (hlen : ∀ x ∈ table, x.1.length = n)
    (hne : popNone table ≠ []) (hparts : findMinPartition (popNone table) = some parts)
    (hflat : parts.flatten = popNone table) (hcross : ∀ P ∈ parts, NoCross P)
    (hbits : HasBits parts) (hsuri : SuriOk suri n parts)
    (hmerge : MergesInOrder iteritems suri n parts) (hnone : NoneHarmless suri n parts) :
    ∃ fuel res, bitWeave fuel iteritems suri table = some res ∧
      ∀ key, key.length = n → (firstMatch res key).join = (firstMatch table key).join := by
  have hmem : ∀ P ∈ parts, ∀ x ∈ P, x.1.length = n := fun P hP x hx =>
    hlen x (mem_popNone (hflat ▸ List.mem_flatten.mpr ⟨P, hP, hx⟩))
  obtain ⟨fuel, hfuel⟩ := exists_fuel fun P hP =>
    exists_weavePartition hit (hcross P hP) (hmem P hP) hP hbits hsuri hmerge
  obtain ⟨news, hnews, hall⟩ := exists_mapM hfuel
  obtain ⟨first, rest, hfirst⟩ := List.exists_cons_of_ne_nil hne
  have hfn : first.1.length = n := hlen first (mem_popNone (hfirst ▸ List.mem_cons_self))
  have htable : table ≠ [] := by
    rintro rfl
    exact hne rfl
  refine ⟨fuel, news.flatten ++ [(List.replicate n none, none)], ?_, fun key hkey => ?_⟩
  · rw [bitWeave, if_neg htable]
    simp only [hparts, hflat, Option.bind_eq_bind, Option.bind_some]
    rw [if_pos (List.prefix_rfl), hfirst]
    simp [hfn, hnews]
  · have hjoin : (firstMatch news.flatten key).join = (firstMatch parts.flatten key).join := by
      have hstart : (firstMatch ([] : List (BitRules α)).flatten key).join = none := rfl
      refine join_firstMatch_flatten rfl hstart (hall.imp fun P N h => ?_)
      obtain ⟨hjoin, hkeep⟩ := h key hkey
      refine ⟨hjoin, hkeep.imp_right ?_⟩
      rintro ⟨hlt, m, hm, hmoves⟩ before behind hsplit hbefore
      exact hnone before P behind hsplit hlt m hm key hkey hbefore hmoves
    rw [← join_firstMatch_popNone table, ← hflat, ← hjoin, firstMatch_append, firstMatch_cons]
    cases firstMatch news.flatten key with
    | none => split <;> rfl
    | some o => rfl

/-- Bit weaving raises where a rule of wildcards only is formatted, or no rule is left. Where
the rules are merged in their order and no `None` rule is dropped or comes in for a key that a
partition behind has an output for, it ends with a table of the same meaning. -/
theorem bitWeave_preserves (hit : ∀ C, (iteritems C).Perm C) (hne : table ≠ [])
    (hlen : ∀ x ∈ table, x.1.length = n)
    (hsuri : ∀ parts, findMinPartition (popNone table) = some parts → SuriOk suri n parts) :
    (¬ Formattable table → ∀ fuel, bitWeave fuel iteritems suri table = none) ∧
    (Formattable table →
      (∀ parts, findMinPartition (popNone table) = some parts →
        MergesInOrder iteritems suri n parts ∧ NoneHarmless suri n parts) →
      ∃ fuel res, bitWeave fuel iteritems suri table = some res ∧
        ∀ key, key.length = n → (firstMatch res key).join = (firstMatch table key).join) := by
  obtain ⟨parts, hparts, hflat, hcross, hnil⟩ := findMinPartition_spec
    (fun x hx => hlen x (mem_popNone hx) : ∀ x ∈ popNone table, x.1.length = n)
  constructor
  · intro hnot fuel
    rw [bitWeave, if_neg hne]
    simp only [hparts, Option.bind_eq_bind, Option.bind_some]
    rw [if_pos (hflat ▸ List.prefix_rfl)]
    cases hhead : (popNone table).head? with
    | none => rfl
    | some first =>
      have hfirst : first ∈ popNone table := List.mem_of_mem_head? hhead
      have hbits : ¬ HasBits parts := by
        intro hbits
        refine hnot ⟨List.ne_nil_of_mem hfirst, fun parts' hparts' => ?_⟩
        rw [hparts, Option.some.injEq] at hparts'
        exact hparts' ▸ hbits
      simp only [HasBits, not_forall, not_exists, not_and, not_not] at hbits
      obtain ⟨P, hP, hlt, x, hx, hall⟩ := hbits
      have hPlen : ∀ x ∈ P, x.1.length = n := fun x hx =>
        hlen x (mem_popNone (hflat ▸ List.mem_flatten.mpr ⟨P, hP, hx⟩))
      have hmapM : parts.mapM (weavePartition fuel iteritems suri first.1.length) = none := by
        rw [hlen first (mem_popNone hfirst)]
        exact mapM_eq_none hP (weavePartition_eq_none (hcross P hP) hPlen hlt hx hall)
      simp [hmapM]
  · intro hok hrun
    exact bitWeave_of_parts hit hlen hok.1 hparts hflat hcross (hok.2 parts hparts)
      (hsuri parts hparts) (hrun parts hparts).1 (hrun parts hparts).2

end Table

/-! ### Two tables -/

section Tables

/-- Four rules that are minimized, one of them for `None`, and a rule that crosses that one. -/
def crossing : BitRules ℕ :=
  [([some true, some false, none], none), ([some false, some false, some false], some 0),
    ([some false, some false, some true], some 0), ([some false, none, none], some 1),
    ([none, some true, some true], some 2)]

/-- The solution for the four rules does without the `None` rule. -/
def crossingSol : SuriSol ℕ :=
  [(.inl (0, 0), some 0), (.inl (1, 1), some 0), (.inl (0, 3), some 1), (.inr [(0, 7)], none)]

/-- Knows the solution. -/
def crossingSuri : Suri ℕ Unit where
  weightedSuris _ _ _ := ()
  findSolutions _ prefixI _ _ := [((prefixI, none), [crossingSol])]

/-- What is merged: two rules for `0`, and behind them a rule for `1` that overlaps both. -/
def crossingMin : BitRules ℕ :=
  [([some false, some false, some false], some 0), ([some false, some false, some true], some 0),
    ([some false, none, none], some 1)]

lemma crossing_parts : findMinPartition (popNone crossing) =
    some [crossing.take 4, crossing.drop 4] := by
  decide +kernel

lemma crossing_of_mem {P : BitRules ℕ} (hP : P ∈ [crossing.take 4, crossing.drop 4])
    (hlt : 1 < P.length) : P = crossing.take 4 := by
  rcases List.mem_pair.mp hP with rfl | rfl
  · rfl
  · exact absurd hlt (by decide)

lemma crossing_suriOk : SuriOk crossingSuri 3 [crossing.take 4, crossing.drop 4] := by
  intro P hP hlt suriTable suriWeights hfmt
  obtain rfl := crossing_of_mem hP hlt
  have htable : suriFmt (prefixBitSwap (crossing.take 4)).1 =
      some ([((4, 5), none), ((0, 0), some 0), ((1, 1), some 0), ((0, 3), some 1),
        ((0, 7), none)], [(none, 200000), (some 0, 1), (some 1, 1)]) := by
    decide +kernel
  rw [htable, Option.some.injEq, Prod.mk.injEq] at hfmt
  obtain ⟨rfl, rfl⟩ := hfmt
  refine ⟨crossingSol, [((0, 0), some 0), ((1, 1), some 0), ((0, 3), some 1)], by decide,
    ⟨_, rfl⟩, by decide, ?_, by decide, by decide⟩
  intro r hr
  simp only [List.mem_cons, List.not_mem_nil, or_false] at hr
  rcases hr with rfl | rfl | rfl
  · exact ⟨[false, false, false], 0, rfl, rfl⟩
  · exact ⟨[false, false, true], 0, rfl, rfl⟩
  · exact ⟨[false], 2, rfl, rfl⟩

lemma minimizedTable_crossing :
    minimizedTable crossingSuri 3 (crossing.take 4) = some crossingMin := by
  decide +kernel

lemma crossing_merges : MergesInOrder id crossingSuri 3 [crossing.take 4, crossing.drop 4] := by
  intro P hP hlt minimized hmin T hT
  obtain rfl := crossing_of_mem hP hlt
  rw [minimizedTable_crossing, Option.some.injEq] at hmin
  subst hmin
  have hrun : (Loop.run (bitMergeStep id) 3 crossingMin).isSome = true := by decide +kernel
  have hstates : ∀ T ∈ Loop.states (bitMergeStep id) 3 crossingMin,
      (∀ x ∈ sortRules T, x.1.length = 3) ∧ ∀ x ∈ sortRules T, ∀ y ∈ sortRules T, x.2 ≠ y.2 →
        Overlaps x.1 y.1 → LePrefixLen x y → InOrder (mergeRound id (sortRules T)) x.2 y.2 := by
    decide +kernel
  obtain ⟨hlen, horder⟩ := hstates T (hT.mem_states hrun)
  exact orderKept_of_inOrder (fun C => .refl C) hlen horder

/-- The keys of the `None` rule that is dropped are not keys of the last rule. -/
lemma crossing_noneHarmless :
    NoneHarmless crossingSuri 3 [crossing.take 4, crossing.drop 4] := by
  intro before P behind hsplit hlt minimized hmin key hkey _ hmoves
  obtain rfl := crossing_of_mem (hsplit ▸ List.mem_append_right _ List.mem_cons_self) hlt
  rw [minimizedTable_crossing, Option.some.injEq] at hmin
  subst hmin
  have hbehind : behind = [crossing.drop 4] := by
    cases before with
    | nil => exact (List.cons.inj hsplit).2.symm
    | cons P' before =>
      have hlast := (List.cons.inj hsplit).2
      cases before with
      | nil => cases hlast
      | cons P'' before => simp at hlast
  have hkeys : ∀ a b c : Bool, NoneMoves (crossing.take 4) crossingMin [a, b, c] →
      (firstMatch (crossing.drop 4) [a, b, c]).join = none := by
    unfold NoneMoves
    decide +kernel
  rw [hbehind, List.flatten_singleton]
  match key, hkey with
  | [a, b, c], _ => exact hkeys a b c hmoves

/-- The two rules for `0` become one, before the rule for `1`. -/
theorem bitWeave_preserves_crossing :
    (NoneMoves (crossing.take 4) crossingMin [true, false, false] ∧
      minimizedTable crossingSuri 3 (crossing.take 4) = some crossingMin) ∧
    ∃ fuel res, bitWeave fuel id crossingSuri crossing = some res ∧
      ∀ key, key.length = 3 → (firstMatch res key).join = (firstMatch crossing key).join := by
  refine ⟨⟨by unfold NoneMoves; decide +kernel, minimizedTable_crossing⟩, ?_⟩
  refine (bitWeave_preserves (n := 3) (fun C => .refl C) (by decide) (by decide)
    fun parts hparts => ?_).2 ⟨by decide +kernel, fun parts hparts => ?_⟩ fun parts hparts => ?_
  all_goals obtain rfl := Option.some.inj (crossing_parts.symm.trans hparts)
  · exact crossing_suriOk
  · intro P hP hlt x hx
    obtain rfl := crossing_of_mem hP hlt
    revert x
    decide
  · exact ⟨crossing_merges, crossing_noneHarmless⟩

example : bitWeave 5 id crossingSuri crossing =
    some [([some false, some false, none], some 0), ([some false, none, none], some 1),
      ([none, some true, some true], some 2), ([none, none, none], none)] := by
  decide +kernel

/-- A default rule after a rule with a bit raises. -/
theorem bitWeave_default_raises : ¬ ∃ (suri : Suri ℕ Unit) (fuel : ℕ),
    (bitWeave fuel id suri [([some false, none], some 0), ([none, none], some 1)]).isSome :=
  fun ⟨_, _, h⟩ => Bool.false_ne_true h

end Tables

end ResSim
