import ResSim.Bitweave.Merge
import ResSim.Lib.StableSort

/-!
# Merging comes to an end for every table

A round that merges rules leaves fewer bits, though it may leave more rules. A round that
merges none only changes the order of rules with one pattern and different outputs, and the
next round leaves that order as it is: it is the order of the dictionary, which is the same
for the same keys. Whatever the order does to the first match, every output keeps the keys that
some rule for it matches.
-/

namespace ResSim

open Pattern

variable {α : Type} [DecidableEq α] {S O table : BitRules α} {n : ℕ} {key : List Bool}
  {o : Option α} {iteritems : RuleGroups α → RuleGroups α}

/-- The order of the groups depends only on the set of keys. -/
def OrderedByKeys (iteritems : RuleGroups α → RuleGroups α) : Prop :=
  ∀ C C' : RuleGroups α, (C.map Prod.fst).Nodup → (C'.map Prod.fst).Nodup →
    (∀ k, k ∈ C.map Prod.fst ↔ k ∈ C'.map Prod.fst) →
      (iteritems C).map Prod.fst = (iteritems C').map Prod.fst

/-- Some rule with the output matches. -/
def CoversKey (S : BitRules α) (o : Option α) (key : List Bool) : Prop :=
  ∃ x ∈ S, x.2 = o ∧ x.1.Matches key

/-! ### A round keeps the coverage -/

lemma coversKey_mergeRound (hit : ∀ C, (iteritems C).Perm C) (hn : ∀ x ∈ S, x.1.length = n) :
    CoversKey (mergeRound iteritems S) o key ↔ CoversKey S o key := by
  constructor
  · rintro ⟨x', hx', rfl, hm⟩
    obtain ⟨x, hx, hmade⟩ := (mem_mergeRound hit hn).mp hx'
    obtain ⟨z, hz, hmadez, hmz⟩ := hmade.exists_matches hx hm
    exact ⟨z, hz, hmadez.1.symm, hmz⟩
  · rintro ⟨x, hx, rfl, hm⟩
    obtain ⟨x', hmade, hm'⟩ := exists_made (S := S) hm
    exact ⟨x', (mem_mergeRound hit hn).mpr ⟨x, hx, hmade⟩, hmade.1, hm'⟩

omit [DecidableEq α] in
lemma coversKey_sortRules : CoversKey (sortRules S) o key ↔ CoversKey S o key := by
  simp only [CoversKey, mem_sortRules]

/-! ### A round without merges settles the order -/

/-- The rules by groups, in the order of the dictionary. -/
def ungroup (C : RuleGroups α) : BitRules α := C.flatMap (fun g => g.2.map (fun r => (r, g.1.2)))

lemma mem_keys_groupRules {k : List ℕ × Option α} :
    k ∈ (groupRules S).map Prod.fst ↔ ∃ x ∈ S, (bitMask x.1, x.2) = k := by
  suffices h : ∀ C : RuleGroups α,
      k ∈ (S.foldl (fun C x => dictAppend (bitMask x.1, x.2) x.1 C) C).map Prod.fst ↔
        k ∈ C.map Prod.fst ∨ ∃ x ∈ S, (bitMask x.1, x.2) = k by
    have hnil := h []
    simp only [List.map_nil, List.not_mem_nil, false_or] at hnil
    exact hnil
  induction S with
  | nil => simp
  | cons x S ih =>
    intro C
    rw [List.foldl_cons, ih, mem_keys_dictAppend]
    simp only [List.mem_cons, exists_eq_or_imp]
    rw [eq_comm, or_comm (a := (bitMask x.1, x.2) = k), or_assoc]

/-- The same rules in another order make the same groups, up to the order within each. -/
lemma perm_of_mem_groupRules (h : O.Perm S) {g g' : (List ℕ × Option α) × List (Pattern Bool)}
    (hg : g ∈ groupRules O) (hg' : g' ∈ groupRules S) (hk : g.1 = g'.1) : g.2.Perm g'.2 := by
  have hpairs : (dictPairs (groupRules O)).Perm (dictPairs (groupRules S)) :=
    (dictPairs_groupRules O).trans ((h.map _).trans (dictPairs_groupRules S).symm)
  have hfilter := hpairs.filter (fun y => decide (y.1 = g.1))
  rw [filter_dictPairs (nodup_groupRules O) hg, hk,
    filter_dictPairs (nodup_groupRules S) hg'] at hfilter
  have hsnd := hfilter.map Prod.snd
  rw [List.map_map, List.map_map] at hsnd
  have hid : ∀ l : List (Pattern Bool), l.map (Prod.snd ∘ Prod.mk g'.1) = l :=
    fun l => List.map_id l
  rwa [hid, hid] at hsnd

omit [DecidableEq α] in
/-- Groups with the same keys in one order agree for each pattern. -/
lemma filter_ungroup_eq {C C' : RuleGroups α} (hkeys : C.map Prod.fst = C'.map Prod.fst)
    (h : ∀ g ∈ C, ∀ g' ∈ C', g.1 = g'.1 → g.2.Perm g'.2) (p : Pattern Bool) :
    (ungroup C).filter (fun x => x.1 = p) = (ungroup C').filter (fun x => x.1 = p) := by
  induction C generalizing C' with
  | nil =>
    rw [List.map_nil, eq_comm, List.map_eq_nil_iff] at hkeys
    rw [hkeys]
  | cons g C ih =>
    cases C' with
    | nil => cases hkeys
    | cons g' C' =>
      simp only [List.map_cons, List.cons.injEq] at hkeys
      obtain ⟨hk, hkeys⟩ := hkeys
      have hrest := ih hkeys fun x hx y hy =>
        h x (List.mem_cons_of_mem _ hx) y (List.mem_cons_of_mem _ hy)
      have hperm := h g List.mem_cons_self g' List.mem_cons_self hk
      -- what is left of a group are copies of one rule
      have hcopies : ∀ l : List (Pattern Bool), (l.map (fun r => (r, g.1.2))).filter
          (fun x => x.1 = p) = List.replicate (l.count p) (p, g.1.2) := by
        intro l
        rw [List.filter_map]
        have hfun : ((fun x : Pattern Bool × Option α => decide (x.1 = p)) ∘
            fun r => (r, g.1.2)) = fun r => decide (r = p) := rfl
        rw [hfun, List.filter_eq, List.map_replicate]
      rw [ungroup, ungroup, List.flatMap_cons, List.flatMap_cons, List.filter_append,
        List.filter_append, ← hk, hcopies, hcopies, hperm.count_eq]
      exact congrArg _ hrest

lemma mergeRound_of_settled (hn : ∀ x ∈ S, x.1.length = n)
    (hit : ∀ C, (iteritems C).Perm C) (hmade : ∀ x ∈ S, Made S x x) :
    mergeRound iteritems S = sortRules (ungroup (iteritems (groupRules S))) := by
  rw [mergeRound, ungroup]
  congr 1
  apply List.flatMap_congr
  intro g hg
  have hg' := (hit _).mem_iff.mp hg
  rw [mergeGroup_of_not_added (oneMask_group hg' hn)]
  intro r hr hadd
  obtain ⟨y, hy, d, hd⟩ := added_iff.mp hadd
  have hdiff := (oneMask_group hg' hn).differsAt hr hy hd
  obtain ⟨_, ⟨_, hkeep⟩ | ⟨z, _, _, d', hd', heq⟩⟩ :=
    hmade (r, g.1.2) ((mem_group hg').mp hr).1
  · exact hkeep (y, g.1.2) ((mem_group hg').mp hy).1 rfl d hdiff
  · exact absurd (congrArg fixedBits heq) hd'.fixedBits_lt.ne'

/-- The next round changes nothing. -/
theorem mergeRound_settles (hn : ∀ x ∈ S, x.1.length = n) (hit : ∀ C, (iteritems C).Perm C)
    (hkeys : OrderedByKeys iteritems) (hmade : ∀ x ∈ S, Made S x x)
    (hperm : (mergeRound iteritems S).Perm S) :
    mergeRound iteritems (mergeRound iteritems S) = mergeRound iteritems S := by
  have hnO : ∀ x ∈ mergeRound iteritems S, x.1.length = n := fun x hx =>
    hn x (hperm.mem_iff.mp hx)
  have hmadeO : ∀ x ∈ mergeRound iteritems S, Made (mergeRound iteritems S) x x := by
    intro x hx
    obtain ⟨ho, ⟨heq, hkeep⟩ | ⟨y, hy, hyo, d, hd, heq⟩⟩ := hmade x (hperm.mem_iff.mp hx)
    · exact ⟨ho, .inl ⟨heq, fun y hy => hkeep y (hperm.mem_iff.mp hy)⟩⟩
    · exact ⟨ho, .inr ⟨y, hperm.mem_iff.mpr hy, hyo, d, hd, heq⟩⟩
  rw [mergeRound_of_settled hnO hit hmadeO]
  have hS := mergeRound_of_settled hn hit hmade
  conv_rhs => rw [hS]
  refine insertionSort_eq_of_filter_key Prod.fst (fun a b hab => ?_)
    (fun a b => LePrefixLen.antisymm) fun p => ?_
  · exact .inr ⟨congrArg getPrefixLen hab, le_of_eq (congrArg (List.map bitChar) hab)⟩
  · refine filter_ungroup_eq (hkeys _ _ (nodup_groupRules _) (nodup_groupRules _) fun k => ?_)
      (fun g hg g' hg' => ?_) p
    · rw [mem_keys_groupRules, mem_keys_groupRules]
      simp only [hperm.mem_iff]
    · exact perm_of_mem_groupRules hperm ((hit _).mem_iff.mp hg) ((hit _).mem_iff.mp hg')

/-! ### All rounds -/

/-- The next round changes nothing but the order. -/
def Settled (iteritems : RuleGroups α → RuleGroups α) (T : BitRules α) : Prop :=
  sortRules T = mergeRound iteritems (sortRules T)

instance (iteritems : RuleGroups α → RuleGroups α) (T : BitRules α) :
    Decidable (Settled iteritems T) := inferInstanceAs (Decidable (_ = _))

/-- The bits of the rules, and whether a round is left to settle the order. -/
def mergeWork (iteritems : RuleGroups α → RuleGroups α) (T : BitRules α) :
    Multiset (Finset ℕ) × ℕ :=
  (ruleBits T, if Settled iteritems T then 0 else 1)

/-- A call of `BitMerge` ends the recursion, or leaves less to do and the coverage as it is. -/
lemma bitMergeStep_spec (hn : ∀ x ∈ table, x.1.length = n) (hit : ∀ C, (iteritems C).Perm C)
    (hkeys : OrderedByKeys iteritems) :
    (∀ x ∈ mergeRound iteritems (sortRules table), x.1.length = n) ∧
    (∀ o key, CoversKey (mergeRound iteritems (sortRules table)) o key ↔ CoversKey table o key) ∧
    (bitMergeStep iteritems table = .done (some (mergeRound iteritems (sortRules table))) ∨
      bitMergeStep iteritems table = .next (mergeRound iteritems (sortRules table)) ∧
        Prod.Lex Multiset.IsDershowitzMannaLT (· < ·)
          (mergeWork iteritems (mergeRound iteritems (sortRules table)))
          (mergeWork iteritems table)) := by
  have hnS : ∀ x ∈ sortRules table, x.1.length = n := fun x hx => hn x (mem_sortRules.mp hx)
  refine ⟨fun x' hx' => ?_, fun o key => ?_, ?_⟩
  · obtain ⟨x, hx, hmade⟩ := (mem_mergeRound hit hnS).mp hx'
    rw [hmade.length_eq, hnS x hx]
  · rw [coversKey_mergeRound hit hnS, coversKey_sortRules]
  · rw [bitMergeStep, if_pos (diffOk_groupRules hnS)]
    dsimp only
    by_cases hset : sortRules table = mergeRound iteritems (sortRules table)
    · exact .inl (if_pos hset)
    · refine .inr ⟨if_neg hset, Prod.lex_def.mpr ?_⟩
      rcases mergeRound_descends hit hnS with ⟨hmade, hperm⟩ | hlt
      · right
        have hnext : Settled iteritems (mergeRound iteritems (sortRules table)) := by
          rw [Settled, sortRules_mergeRound]
          exact (mergeRound_settles hnS hit hkeys hmade hperm).symm
        have hbits : ruleBits (mergeRound iteritems (sortRules table)) = ruleBits table := by
          rw [← ruleBits_sortRules table]
          exact Multiset.coe_eq_coe.mpr (hperm.map _)
        refine ⟨hbits, ?_⟩
        simp only [mergeWork, if_pos hnext, if_neg (show ¬ Settled iteritems table from hset)]
        exact Nat.one_pos
      · left
        rwa [ruleBits_sortRules] at hlt

/-- `BitMerge` ends for every table, no assertion fails, and every output keeps its keys. -/
theorem bitMerge_covers (hit : ∀ C, (iteritems C).Perm C) (hkeys : OrderedByKeys iteritems)
    (hn : ∀ x ∈ table, x.1.length = n) :
    ∃ fuel T, bitMerge fuel iteritems table = some T ∧
      ∀ (o : Option α) (key : List Bool),
        (∃ x ∈ T, x.2 = o ∧ x.1.Matches key) ↔ ∃ x ∈ table, x.2 = o ∧ x.1.Matches key := by
  obtain ⟨r, ⟨fuel, hrun⟩, T, rfl, hT⟩ := Loop.returns_of_wellFounded
    (InvImage.wf (mergeWork iteritems)
      (WellFounded.prod_lex Multiset.wellFounded_isDershowitzMannaLT Nat.lt_wfRel.wf))
    (fun T => (∀ x ∈ T, x.1.length = n) ∧ ∀ o key, CoversKey T o key ↔ CoversKey table o key)
    (fun r => ∃ T, r = some T ∧ ∀ o key, CoversKey T o key ↔ CoversKey table o key)
    (fun T ⟨hlen, hcov⟩ => by
      obtain ⟨hlen', hcov', hdone | ⟨hnext, hlt⟩⟩ := bitMergeStep_spec hlen hit hkeys
      · exact .inl ⟨_, hdone, _, rfl, fun o key => (hcov' o key).trans (hcov o key)⟩
      · exact .inr ⟨_, hnext, ⟨hlen', fun o key => (hcov' o key).trans (hcov o key)⟩, hlt⟩)
    ⟨hn, fun _ _ => Iff.rfl⟩
  exact ⟨fuel, T, by rw [bitMerge, hrun]; rfl, hT⟩

/-- The keys as lists of numbers. -/
def groupCode (g : (List ℕ × Option ℕ) × List (Pattern Bool)) : List ℕ :=
  g.1.2.elim 0 (· + 1) :: g.1.1

/-- A dictionary that is ordered by its keys. -/
def sortGroups (C : RuleGroups ℕ) : RuleGroups ℕ :=
  C.insertionSort (fun g g' => groupCode g ≤ groupCode g')

lemma orderedByKeys_sortGroups : OrderedByKeys sortGroups := by
  intro C C' hC hC' hmem
  let code : List ℕ × Option ℕ → List ℕ := fun k => k.2.elim 0 (· + 1) :: k.1
  have hinj : Function.Injective code := by
    rintro ⟨m, o⟩ ⟨m', o'⟩ h
    simp only [code, List.cons.injEq] at h
    obtain ⟨ho, rfl⟩ := h
    cases o <;> cases o' <;> simp_all
  have hmap : ∀ C : RuleGroups ℕ, (sortGroups C).map Prod.fst =
      (C.map Prod.fst).insertionSort (fun k k' => code k ≤ code k') := by
    intro C
    exact List.map_insertionSort _ _ Prod.fst C (fun _ _ _ _ => Iff.rfl)
  have : Std.Total (fun k k' : List ℕ × Option ℕ => code k ≤ code k') :=
    ⟨fun k k' => le_total (code k) (code k')⟩
  have : IsTrans (List ℕ × Option ℕ) (fun k k' => code k ≤ code k') := ⟨fun _ _ _ => le_trans⟩
  rw [hmap, hmap]
  refine List.Perm.eq_of_pairwise (fun k k' _ _ hle hle' => hinj (le_antisymm hle hle'))
    (List.pairwise_insertionSort ..) (List.pairwise_insertionSort ..) ?_
  refine (List.perm_insertionSort ..).trans (List.Perm.trans ?_ (List.perm_insertionSort ..).symm)
  exact (List.perm_ext_iff_of_nodup hC hC').mpr hmem

theorem bitMerge_covers_sortGroups :
    let table : BitRules ℕ := [([some false, some true], some 0), ([some true, some true], some 0),
      ([some false, none], some 1)]
    ∃ fuel T, bitMerge fuel sortGroups table = some T ∧
      ∀ (o : Option ℕ) (key : List Bool),
        (∃ x ∈ T, x.2 = o ∧ x.1.Matches key) ↔ ∃ x ∈ table, x.2 = o ∧ x.1.Matches key :=
  bitMerge_covers (n := 2) (fun _ => List.perm_insertionSort ..) orderedByKeys_sortGroups
    (by decide)

end ResSim
