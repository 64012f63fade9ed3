import Mathlib.Tactic.IntervalCases
import ResSim.Bitweave.GetPrefixes
import ResSim.Lib.Dict
import ResSim.Lib.PrefixRules

/-!
# The weights of the solutions

`Weighted_Suris` stores for a prefix and every color what a solution with this background
weighs. A prefix of one color is decided at once, and any other from its halves. The weights
that it stores are the least ones.
-/

namespace ResSim

section Defs

variable {α : Type}

/-- `False`, which may be an output too, where the first rule that meets the interval has a part
of it only. -/
def color (pyFalse : α) (suriTable : SuriTable α) (at_ : Interval) : Option α :=
  match suriTable with
  | [] => none
  | rule :: suriTable =>
    let i := intersection rule.1 at_
    if ¬ i.2 < i.1 then
      if i.2 - i.1 < at_.2 - at_.1 then some pyFalse else rule.2
    else color pyFalse suriTable at_

/-- No rule has the output `False`. -/
def NoFalse (pyFalse : α) (suriTable : SuriTable α) : Prop := ∀ r ∈ suriTable, r.2 ≠ some pyFalse

/-- The color of an interval, if it is contiguous. -/
def regionColor (suriTable : SuriTable α) (at_ : Interval) : Option (Option α) :=
  match suriTable with
  | [] => some none
  | rule :: suriTable =>
    let i := intersection rule.1 at_
    if ¬ i.2 < i.1 then
      if i.2 - i.1 < at_.2 - at_.1 then none else some rule.2
    else regionColor suriTable at_

/-- The colors that have a weight. -/
def colorSet (colorWeights : List (Option α × ℕ)) : Set (Option α) :=
  {c | c ∈ colorWeights.map Prod.fst}

/-- The color of an address in a block. -/
def blockColor (suriTable : SuriTable α) (bits addr : List Bool) : Option α :=
  (intervalMatch suriTable (bitVal (bits ++ addr))).join

/-- The numbers of the block have colors with a weight. -/
def Colored (suriTable : SuriTable α) (colorWeights : List (Option α × ℕ)) (i : Interval) : Prop :=
  ∀ v ∈ Set.Icc i.1 i.2, (intervalMatch suriTable v).join ∈ colorSet colorWeights

variable [DecidableEq α]

/-- The cost of the background `col` for a prefix of the color `c`. -/
def atomicCost (colorWeights : List (Option α × ℕ)) (c col : Option α) : Option ℤ := do
  let wc ← dictGet colorWeights c
  if col ≠ c then do
    let wcol ← dictGet colorWeights col
    some (wc + wcol)
  else some wc

/-- The cost of the background `col` where both halves have the background `cc`. -/
def joinCost (colorWeights : List (Option α × ℕ)) (answer : List ((Interval × Option α) × ℤ))
    (lowPrefix highPrefix : Interval) (col cc : Option α) : Option ℤ := do
  let m₀ ← dictGet answer (lowPrefix, cc)
  let m₁ ← dictGet answer (highPrefix, cc)
  let wcc ← dictGet colorWeights cc
  if col = cc then some (m₀ + m₁ - wcc)
  else do
    let wcol ← dictGet colorWeights col
    some (m₀ + m₁ - wcc + wcol)

/-- The entries of a prefix of the color `c`. -/
def atomicEntries (colorWeights : List (Option α × ℕ)) (pre : Interval) (c : Option α) :
    Option (List ((Interval × Option α) × ℤ)) :=
  (colorWeights.map Prod.fst).foldlM
    (fun answer col => (atomicCost colorWeights c col).map (dictSet answer (pre, col))) []

/-- The entries of a prefix after those of its halves. -/
def joinEntries (colorWeights : List (Option α × ℕ)) (pre lowPrefix highPrefix : Interval)
    (answer : List ((Interval × Option α) × ℤ)) : Option (List ((Interval × Option α) × ℤ)) :=
  let colors := colorWeights.map Prod.fst
  colors.foldlM (fun answer col =>
    ((colors.mapM (joinCost colorWeights answer lowPrefix highPrefix col)).bind List.min?).map
      (dictSet answer (pre, col))) answer

def weightedSuris (pyFalse : α) (suriTable : SuriTable α) (colorWeights : List (Option α × ℕ)) :
    ℕ → Interval → Option (List ((Interval × Option α) × ℤ))
  | 0, _ => none
  | fuel + 1, pre => do
    let p ← getPrefixes pre
    if p.length = 0 then some []
    else if 1 < p.length then do
      let r ← p.mapM (weightedSuris pyFalse suriTable colorWeights fuel)
      some (dictOf r.flatten)
    else
      let c := color pyFalse suriTable pre
      -- `c is False`
      if c ≠ some pyFalse then atomicEntries colorWeights pre c
      else do
        let (lowPrefix, highPrefix) := split pre
        let low ← weightedSuris pyFalse suriTable colorWeights fuel lowPrefix
        let high ← weightedSuris pyFalse suriTable colorWeights fuel highPrefix
        joinEntries colorWeights pre lowPrefix highPrefix (dictOf (low ++ high))

/-- The weight of a color. -/
def weightOf (colorWeights : List (Option α × ℕ)) (c : Option α) : ℕ :=
  (dictGet colorWeights c).getD 0

/-- The least weight of the rules for a block that have the background `c`. -/
def IsLeastWeight (suriTable : SuriTable α) (colorWeights : List (Option α × ℕ)) (bits : List Bool)
    (k : ℕ) (c : Option α) (m : ℕ) : Prop :=
  IsLeast (classifierWeights (colorSet colorWeights) (weightOf colorWeights) k
    (blockColor suriTable bits) c) m

/-- An entry of a block and a color with the least weight. -/
def LeastEntry (suriTable : SuriTable α) (colorWeights : List (Option α × ℕ))
    (x : (Interval × Option α) × ℤ) : Prop :=
  ∃ bits k m, bits.length + k = testBits ∧ x.1.1 = prefixInterval bits k ∧
    x.1.2 ∈ colorSet colorWeights ∧ x.2 = (m : ℕ) ∧
    IsLeastWeight suriTable colorWeights bits k x.1.2 m

/-- Prefixes in a block with colors that have a weight, which with the background `c` give every
number the color that it has in the table. -/
structure SameColors (suriTable : SuriTable α) (colorWeights : List (Option α × ℕ))
    (block : Interval) (c : Option α) (body : SuriTable α) : Prop where
  isPrefix : ∀ r ∈ body, IsPrefix testBits r.1 ∧ Inside r.1 block
  mem : ∀ r ∈ body, r.2 ∈ colorSet colorWeights
  meaning : ∀ v ∈ Set.Icc block.1 block.2,
    intervalMatch (body ++ [(block, c)]) v = some (intervalMatch suriTable v).join

/-- The weight of rules and their background. -/
def bodyWeight (colorWeights : List (Option α × ℕ)) (c : Option α) (body : SuriTable α) : ℕ :=
  (body.map (fun r => weightOf colorWeights r.2)).sum + weightOf colorWeights c

/-- The entries of the blocks that the recursion comes to. -/
def HasEntries {β : Type} (suriTable : SuriTable α) (colorWeights : List (Option α × ℕ))
    (answer : List ((Interval × Option α) × β)) : ℕ → List Bool → Prop
  | 0, bits => ∀ c ∈ colorSet colorWeights, (prefixInterval bits 0, c) ∈ answer.map Prod.fst
  | k + 1, bits =>
    (∀ c ∈ colorSet colorWeights, (prefixInterval bits (k + 1), c) ∈ answer.map Prod.fst) ∧
      (regionColor suriTable (prefixInterval bits (k + 1)) = none →
        HasEntries suriTable colorWeights answer k (bits ++ [false]) ∧
          HasEntries suriTable colorWeights answer k (bits ++ [true]))

end Defs

variable {α : Type} {suriTable : SuriTable α}
  {colorWeights : List (Option α × ℕ)} {bits : List Bool} {k fuel v : ℕ} {i : Interval}
  {c col cc : Option α}

/-! ### The color of a block -/

/-- `Color` returns `False` where the region is not contiguous. -/
lemma color_eq (pyFalse : α) (suriTable : SuriTable α) (i : Interval) :
    color pyFalse suriTable i = (regionColor suriTable i).getD (some pyFalse) := by
  induction suriTable with
  | nil => rfl
  | cons rule suriTable ih =>
    rw [color, regionColor]
    split
    · split <;> rfl
    · exact ih

/-- Where no output is `False`, `Color` returns it for no color. -/
lemma regionColor_ne_false {pyFalse : α} (hfalse : NoFalse pyFalse suriTable) :
    regionColor suriTable i ≠ some (some pyFalse) := by
  induction suriTable with
  | nil => exact nofun
  | cons rule suriTable ih =>
    obtain ⟨hrule, hrest⟩ := List.forall_mem_cons.mp hfalse
    rw [regionColor]
    split
    · split
      · exact nofun
      · exact fun h => hrule (Option.some.inj h)
    · exact ih hrest

/-- A color is the color of every number. -/
lemma regionColor_eq_some (h : regionColor suriTable i = some c) (hv : v ∈ Set.Icc i.1 i.2) :
    (intervalMatch suriTable v).join = c := by
  induction suriTable with
  | nil =>
    rw [regionColor, Option.some.injEq] at h
    exact h
  | cons rule suriTable ih =>
    obtain ⟨hv₁, hv₂⟩ := hv
    rw [intervalMatch_cons]
    rw [regionColor] at h
    split at h
    · rename_i hmeet
      split at h
      · cases h
      · -- the rule has all of the block
        rename_i hall
        simp only [intersection] at hmeet hall
        rw [if_pos (by omega)]
        exact Option.some.inj h
    · rename_i hmeet
      simp only [intersection, not_not] at hmeet
      rw [if_neg (by omega)]
      exact ih h

lemma lt_of_regionColor_eq_none (h : regionColor suriTable i = none) : i.1 < i.2 := by
  induction suriTable with
  | nil => cases h
  | cons rule suriTable ih =>
    rw [regionColor] at h
    split at h
    · split at h
      · exact Nat.lt_of_sub_pos (Nat.zero_lt_of_lt ‹_›)
      · cases h
    · exact ih h

lemma regionColor_point (suriTable : SuriTable α) (bits : List Bool) :
    regionColor suriTable (prefixInterval bits 0) ≠ none := by
  intro h
  have hlt := lt_of_regionColor_eq_none h
  simp [prefixInterval] at hlt

lemma bitVal_mem_block (bits : List Bool) {addr : List Bool} (haddr : addr.length = k) :
    bitVal (bits ++ addr) ∈ Set.Icc (prefixInterval bits k).1 (prefixInterval bits k).2 :=
  (mem_prefixInterval (by rw [List.length_append, haddr])).mpr (List.prefix_append _ _)

lemma blockColor_of_regionColor (h : regionColor suriTable (prefixInterval bits k) = some c)
    {addr : List Bool} (haddr : addr.length = k) : blockColor suriTable bits addr = c :=
  regionColor_eq_some h (bitVal_mem_block bits haddr)

lemma blockColor_half (b : Bool) : (fun addr => blockColor suriTable bits (b :: addr)) =
    blockColor suriTable (bits ++ [b]) := by
  funext addr
  rw [blockColor, blockColor, List.append_assoc, List.singleton_append]

lemma Colored.mono {j : Interval} (h : Colored suriTable colorWeights i) (hin : Inside j i) :
    Colored suriTable colorWeights j :=
  fun v hv => h v ⟨hin.1.trans hv.1, hv.2.trans hin.2⟩

/-! ### The costs -/

variable [DecidableEq α] {pyFalse : α}

lemma dictGet_weight (hc : c ∈ colorSet colorWeights) :
    dictGet colorWeights c = some (weightOf colorWeights c) := by
  cases h : dictGet colorWeights c with
  | none => exact absurd hc (dictGet_eq_none.mp h)
  | some w => rw [weightOf, h, Option.getD_some]

lemma atomicCost_eq (hc : c ∈ colorSet colorWeights) (hcol : col ∈ colorSet colorWeights) :
    atomicCost colorWeights c col = some ((if col = c then weightOf colorWeights c
      else weightOf colorWeights c + weightOf colorWeights col : ℕ) : ℤ) := by
  rw [atomicCost, dictGet_weight hc, dictGet_weight hcol]
  by_cases h : col = c
  · simp [h]
  · simp [h]

/-- Entries of both halves give the cost of the whole. -/
lemma joinCost_eq {answer : List ((Interval × Option α) × ℤ)} {lowPrefix highPrefix : Interval}
    {m₀ m₁ : ℕ} (h₀ : dictGet answer (lowPrefix, cc) = some (m₀ : ℤ))
    (h₁ : dictGet answer (highPrefix, cc) = some (m₁ : ℤ)) (hcc : cc ∈ colorSet colorWeights)
    (hcol : col ∈ colorSet colorWeights) (hle : weightOf colorWeights cc ≤ m₀) :
    joinCost colorWeights answer lowPrefix highPrefix col cc =
      some ((joinWeight (weightOf colorWeights) col cc m₀ m₁ : ℕ) : ℤ) := by
  rw [joinCost, h₀, h₁, dictGet_weight hcc, dictGet_weight hcol, joinWeight]
  have hle' : weightOf colorWeights cc ≤ m₀ + m₁ := hle.trans (Nat.le_add_right _ _)
  by_cases h : col = cc
  · simp [h, Nat.cast_sub hle']
  · simp [h, Nat.cast_sub hle']

/-- Every solution has its background. -/
lemma IsLeastWeight.le {m : ℕ} (h : IsLeastWeight suriTable colorWeights bits k c m) :
    weightOf colorWeights c ≤ m := by
  obtain ⟨rules, -, rfl⟩ := h.1
  exact Nat.le_add_left _ _

/-! ### The entries -/

lemma prefixInterval_inj {bits' : List Bool} {k' n : ℕ} (hn : bits.length + k = n)
    (hn' : bits'.length + k' = n) (h : prefixInterval bits k = prefixInterval bits' k') :
    bits = bits' ∧ k = k' := by
  have hpre := (inside_prefixInterval hn hn').mp (by rw [h]; exact ⟨le_rfl, le_rfl⟩)
  have hpre' := (inside_prefixInterval hn' hn).mp (by rw [h]; exact ⟨le_rfl, le_rfl⟩)
  have heq := hpre.eq_of_length_le hpre'.length_le
  exact ⟨heq, by rw [heq] at hn; omega⟩

omit [DecidableEq α] in
lemma HasEntries.mono {β γ : Type} {answer : List ((Interval × Option α) × β)}
    {answer' : List ((Interval × Option α) × γ)}
    (h : HasEntries suriTable colorWeights answer k bits)
    (hsub : ∀ key ∈ answer.map Prod.fst, key ∈ answer'.map Prod.fst) :
    HasEntries suriTable colorWeights answer' k bits := by
  induction k generalizing bits with
  | zero => exact fun c hc => hsub _ (h c hc)
  | succ k ih => exact ⟨fun c hc => hsub _ (h.1 c hc), fun hnone =>
      ⟨ih (h.2 hnone).1, ih (h.2 hnone).2⟩⟩

omit [DecidableEq α] in
lemma HasEntries.whole {β : Type} {answer : List ((Interval × Option α) × β)}
    (h : HasEntries suriTable colorWeights answer k bits) (hc : c ∈ colorSet colorWeights) :
    (prefixInterval bits k, c) ∈ answer.map Prod.fst := by
  cases k with
  | zero => exact h c hc
  | succ k => exact h.1 c hc

/-- What is stored for a block and a color. -/
lemma get_least {answer : List ((Interval × Option α) × ℤ)}
    (hall : ∀ x ∈ answer, LeastEntry suriTable colorWeights x)
    (hn : bits.length + k = testBits) (hkey : (prefixInterval bits k, c) ∈ answer.map Prod.fst) :
    ∃ m : ℕ, dictGet answer (prefixInterval bits k, c) = some (m : ℤ) ∧
      IsLeastWeight suriTable colorWeights bits k c m := by
  cases hget : dictGet answer (prefixInterval bits k, c) with
  | none => exact absurd hkey (dictGet_eq_none.mp hget)
  | some z =>
    obtain ⟨bits', k', m, hn', hblock, -, hz, hleast⟩ := hall _ (mem_of_dictGet hget)
    obtain ⟨rfl, rfl⟩ := prefixInterval_inj hn hn' hblock
    exact ⟨m, congrArg some hz, hleast⟩

lemma weightedSuris_atomic (hfalse : NoFalse pyFalse suriTable) (hn : bits.length + k = testBits)
    (h : regionColor suriTable (prefixInterval bits k) = some c) :
    weightedSuris pyFalse suriTable colorWeights (fuel + 1) (prefixInterval bits k) =
      atomicEntries colorWeights (prefixInterval bits k) c := by
  have hc : color pyFalse suriTable (prefixInterval bits k) = c := by
    rw [color_eq, h, Option.getD_some]
  have hne : c ≠ some pyFalse := fun hc => regionColor_ne_false hfalse (h.trans (congrArg some hc))
  rw [weightedSuris, getPrefixes_prefixInterval hn]
  simp [hc, hne]

lemma weightedSuris_join (hn : bits.length + (k + 1) = testBits)
    (h : regionColor suriTable (prefixInterval bits (k + 1)) = none)
    {low high : List ((Interval × Option α) × ℤ)}
    (hlow : weightedSuris pyFalse suriTable colorWeights fuel
      (prefixInterval (bits ++ [false]) k) = some low)
    (hhigh : weightedSuris pyFalse suriTable colorWeights fuel
      (prefixInterval (bits ++ [true]) k) = some high) :
    weightedSuris pyFalse suriTable colorWeights (fuel + 1) (prefixInterval bits (k + 1)) =
      joinEntries colorWeights (prefixInterval bits (k + 1)) (prefixInterval (bits ++ [false]) k)
        (prefixInterval (bits ++ [true]) k) (dictOf (low ++ high)) := by
  have hc : color pyFalse suriTable (prefixInterval bits (k + 1)) = some pyFalse := by
    rw [color_eq, h, Option.getD_none]
  rw [weightedSuris, getPrefixes_prefixInterval hn, hc, split_prefixInterval]
  simp [hlow, hhigh]

/-- A number with the output `False` is halved for ever: its upper half is the number again. -/
theorem weightedSuris_of_false (hn : bits.length + 0 = testBits)
    (h : color pyFalse suriTable (prefixInterval bits 0) = some pyFalse) (fuel : ℕ) :
    weightedSuris pyFalse suriTable colorWeights fuel (prefixInterval bits 0) = none := by
  induction fuel with
  | zero => rfl
  | succ fuel ih =>
    have hhigh : (split (prefixInterval bits 0)).2 = prefixInterval bits 0 := by
      simp [split, prefixInterval]
    rw [weightedSuris, getPrefixes_prefixInterval hn]
    simp [h, hhigh, ih]

/-- The costs over the backgrounds of the halves, and the smallest one. -/
lemma exists_joinCosts {answer : List ((Interval × Option α) × ℤ)}
    (hall : ∀ x ∈ answer, LeastEntry suriTable colorWeights x)
    (hn : bits.length + (k + 1) = testBits)
    (hlow : ∀ cc ∈ colorSet colorWeights,
      (prefixInterval (bits ++ [false]) k, cc) ∈ answer.map Prod.fst)
    (hhigh : ∀ cc ∈ colorSet colorWeights,
      (prefixInterval (bits ++ [true]) k, cc) ∈ answer.map Prod.fst)
    (hcol : col ∈ colorSet colorWeights) :
    ∃ cost : Option α → ℕ, (colorWeights.map Prod.fst).mapM (joinCost colorWeights answer
      (prefixInterval (bits ++ [false]) k) (prefixInterval (bits ++ [true]) k) col) =
        some ((colorWeights.map Prod.fst).map (fun cc => (cost cc : ℤ))) ∧
      (∀ cc ∈ colorSet colorWeights, ∃ m₀ m₁,
        IsLeastWeight suriTable colorWeights (bits ++ [false]) k cc m₀ ∧
        IsLeastWeight suriTable colorWeights (bits ++ [true]) k cc m₁ ∧
        cost cc = joinWeight (weightOf colorWeights) col cc m₀ m₁) ∧
      ∃ m : ℕ, ((colorWeights.map Prod.fst).map (fun cc => (cost cc : ℤ))).min? = some (m : ℤ) ∧
        IsLeastWeight suriTable colorWeights bits (k + 1) col m := by
  obtain ⟨hn₀, hn₁⟩ := halves_length hn
  choose! m₀ hm₀ hleast₀ using fun cc hcc => get_least hall hn₀ (hlow cc hcc)
  choose! m₁ hm₁ hleast₁ using fun cc hcc => get_least hall hn₁ (hhigh cc hcc)
  let cost := fun cc => joinWeight (weightOf colorWeights) col cc (m₀ cc) (m₁ cc)
  refine ⟨cost, mapM_eq_map fun cc hcc => joinCost_eq (hm₀ cc hcc) (hm₁ cc hcc) hcc hcol
    (hleast₀ cc hcc).le, fun cc hcc => ⟨m₀ cc, m₁ cc, hleast₀ cc hcc, hleast₁ cc hcc, rfl⟩, ?_⟩
  cases hmin : ((colorWeights.map Prod.fst).map (fun cc => (cost cc : ℤ))).min? with
  | none =>
    rw [List.min?_eq_none_iff, List.map_eq_nil_iff] at hmin
    rw [colorSet, hmin] at hcol
    cases hcol
  | some z =>
    obtain ⟨hmem, hle⟩ := List.min?_eq_some_iff.mp hmin
    obtain ⟨cc, hcc, rfl⟩ := List.mem_map.mp hmem
    refine ⟨cost cc, rfl, ?_⟩
    simp only [IsLeastWeight, ← blockColor_half] at hleast₀ hleast₁
    refine isLeast_classifierWeights_join hleast₀ hleast₁ hcol ⟨⟨cc, hcc, rfl⟩, ?_⟩
    rintro _ ⟨cc', hcc', rfl⟩
    exact Int.ofNat_le.mp (hle _ (List.mem_map_of_mem hcc'))

/-- What is stored for a block of one color. -/
lemma atomicEntries_spec (hn : bits.length + k = testBits)
    (hcolor : regionColor suriTable (prefixInterval bits k) = some c)
    (hc : c ∈ colorSet colorWeights) :
    ∃ answer, atomicEntries colorWeights (prefixInterval bits k) c = some answer ∧
      (∀ x ∈ answer, LeastEntry suriTable colorWeights x) ∧
      HasEntries suriTable colorWeights answer k bits := by
  obtain ⟨answer, hanswer, hall, -, hkeys⟩ := exists_foldlM_dictSet
    (g := fun _ col => atomicCost colorWeights c col) (f := fun col => (prefixInterval bits k, col))
    (P := LeastEntry suriTable colorWeights) (l := colorWeights.map Prod.fst) (d := [])
    (by simp) fun _ _ _ col hcol => ⟨_, atomicCost_eq hc hcol, bits, k, _, hn, rfl, hcol, rfl,
      isLeast_classifierWeights_const (fun _ => blockColor_of_regionColor hcolor) hc⟩
  refine ⟨answer, hanswer, hall, ?_⟩
  cases k with
  | zero => exact hkeys
  | succ k => exact ⟨hkeys, fun hnone => by rw [hcolor] at hnone; cases hnone⟩

lemma joinEntries_spec {answer : List ((Interval × Option α) × ℤ)}
    (hn : bits.length + (k + 1) = testBits)
    (hall : ∀ x ∈ answer, LeastEntry suriTable colorWeights x)
    (hlow : HasEntries suriTable colorWeights answer k (bits ++ [false]))
    (hhigh : HasEntries suriTable colorWeights answer k (bits ++ [true])) :
    ∃ answer', joinEntries colorWeights (prefixInterval bits (k + 1))
        (prefixInterval (bits ++ [false]) k) (prefixInterval (bits ++ [true]) k) answer =
          some answer' ∧
      (∀ x ∈ answer', LeastEntry suriTable colorWeights x) ∧
      HasEntries suriTable colorWeights answer' (k + 1) bits := by
  obtain ⟨answer', hanswer, hall', hsub, hkeys⟩ := exists_foldlM_dictSet
    (g := fun answer col => ((colorWeights.map Prod.fst).mapM (joinCost colorWeights answer
      (prefixInterval (bits ++ [false]) k) (prefixInterval (bits ++ [true]) k) col)).bind List.min?)
    (f := fun col => (prefixInterval bits (k + 1), col)) (l := colorWeights.map Prod.fst) hall
    fun d hd hkeep col hcol => by
      obtain ⟨cost, hcosts, -, m, hmin, hleast⟩ := exists_joinCosts hd hn
        (fun cc hcc => hkeep _ (hlow.whole hcc)) (fun cc hcc => hkeep _ (hhigh.whole hcc)) hcol
      refine ⟨m, ?_, bits, k + 1, m, hn, rfl, hcol, rfl, hleast⟩
      rw [hcosts]
      exact hmin
  exact ⟨answer', hanswer, hall', hkeys, fun _ => ⟨hlow.mono hsub, hhigh.mono hsub⟩⟩

lemma weightedSuris_block (hfalse : NoFalse pyFalse suriTable)
    (hn : bits.length + k = testBits) (hfuel : k < fuel)
    (hcolored : Colored suriTable colorWeights (prefixInterval bits k)) :
    ∃ answer, weightedSuris pyFalse suriTable colorWeights fuel (prefixInterval bits k) =
        some answer ∧
      (∀ x ∈ answer, LeastEntry suriTable colorWeights x) ∧
      HasEntries suriTable colorWeights answer k bits := by
  induction k generalizing bits fuel with
  | zero =>
    obtain ⟨fuel, rfl⟩ := Nat.exists_eq_add_one_of_ne_zero (Nat.ne_zero_of_lt hfuel)
    obtain ⟨c, hc⟩ := Option.ne_none_iff_exists'.mp (regionColor_point suriTable bits)
    rw [weightedSuris_atomic hfalse hn hc]
    refine atomicEntries_spec hn hc ?_
    rw [← regionColor_eq_some hc ⟨le_rfl, prefixInterval_le⟩]
    exact hcolored _ ⟨le_rfl, prefixInterval_le⟩
  | succ k ih =>
    obtain ⟨fuel, rfl⟩ := Nat.exists_eq_add_one_of_ne_zero (Nat.ne_zero_of_lt hfuel)
    cases hc : regionColor suriTable (prefixInterval bits (k + 1)) with
    | some c =>
      rw [weightedSuris_atomic hfalse hn hc]
      refine atomicEntries_spec hn hc ?_
      rw [← regionColor_eq_some hc ⟨le_rfl, prefixInterval_le⟩]
      exact hcolored _ ⟨le_rfl, prefixInterval_le⟩
    | none =>
      obtain ⟨hn₀, hn₁⟩ := halves_length hn
      obtain ⟨low, hlow, hall₀, hcomp₀⟩ :=
        ih hn₀ (Nat.lt_of_succ_lt_succ hfuel) (hcolored.mono inside_low)
      obtain ⟨high, hhigh, hall₁, hcomp₁⟩ :=
        ih hn₁ (Nat.lt_of_succ_lt_succ hfuel) (hcolored.mono inside_high)
      rw [weightedSuris_join hn hc hlow hhigh]
      have hkeys : ∀ key ∈ (low ++ high).map Prod.fst, key ∈ (dictOf (low ++ high)).map Prod.fst :=
        fun key hkey => mem_keys_dictOf hkey
      simp only [List.map_append, List.mem_append] at hkeys
      refine joinEntries_spec hn (fun x hx => ?_) (hcomp₀.mono fun key hkey => hkeys key (.inl hkey))
        (hcomp₁.mono fun key hkey => hkeys key (.inr hkey))
      rcases List.mem_append.mp (mem_of_mem_dictOf hx) with hx | hx
      · exact hall₀ x hx
      · exact hall₁ x hx

/-! ### Any interval -/

/-- A rule of a block as an interval. -/
def blockRule (bits : List Bool) (k : ℕ) (r : List Bool × Option α) : Interval × Option α :=
  (prefixInterval (bits ++ r.1) (k - r.1.length), r.2)

omit [DecidableEq α] in
lemma intervalMatch_blockRules {rules : PrefixRules (Option α)} (hlen : ∀ r ∈ rules, r.1.length ≤ k)
    {addr : List Bool} (haddr : addr.length = k) {i : Interval}
    (hi : bitVal (bits ++ addr) ∈ Set.Icc i.1 i.2) :
    intervalMatch (rules.map (blockRule bits k) ++ [(i, c)]) (bitVal (bits ++ addr)) =
      some ((firstColor rules addr).getD c) := by
  induction rules with
  | nil =>
    rw [List.map_nil, List.nil_append, intervalMatch_cons]
    exact if_pos hi
  | cons r rules ih =>
    obtain ⟨hr, hrest⟩ := List.forall_mem_cons.mp hlen
    have hkey : (bits ++ addr).length = (bits ++ r.1).length + (k - r.1.length) := by
      simp only [List.length_append]
      omega
    rw [List.map_cons, List.cons_append, intervalMatch_cons, ih hrest, firstColor_cons]
    simp only [blockRule, mem_prefixInterval hkey, List.prefix_append_right_inj,
      List.isPrefixOf_iff_prefix]
    split <;> rfl

lemma exists_address (hv : v ∈ Set.Icc (prefixInterval bits k).1 (prefixInterval bits k).2) :
    ∃ addr, addr.length = k ∧ v = bitVal (bits ++ addr) := by
  obtain ⟨key, hkey, hmatch, hval⟩ := (mem_prefixInterval_iff rfl).mp hv
  obtain ⟨addr, rfl⟩ := (mem_prefixInterval hkey).mp (hval ▸ hv)
  rw [List.length_append] at hkey
  exact ⟨addr, by omega, hval.symm⟩

omit [DecidableEq α] in
/-- Rules for the addresses of a block, and the same rules as intervals. -/
lemma sameColors_blockRules {rules : PrefixRules (Option α)} (hn : bits.length + k = testBits)
    (hlen : ∀ r ∈ rules, r.1.length ≤ k) :
    SameColors suriTable colorWeights (prefixInterval bits k) c (rules.map (blockRule bits k)) ↔
      Classifies (colorSet colorWeights) k (blockColor suriTable bits) c rules := by
  constructor
  · intro h
    refine ⟨fun r hr => h.mem (blockRule bits k r) (List.mem_map_of_mem hr), fun addr haddr => ?_⟩
    have hmem := bitVal_mem_block bits haddr
    have hmeaning := h.meaning _ hmem
    rw [intervalMatch_blockRules hlen haddr hmem] at hmeaning
    exact Option.some.inj hmeaning
  · intro h
    refine ⟨List.forall_mem_map.mpr fun r hr => ⟨⟨_, _, ?_, rfl⟩, ?_⟩,
      List.forall_mem_map.mpr h.mem, fun v hv => ?_⟩
    · have := hlen r hr
      simp only [List.length_append]
      omega
    · have := hlen r hr
      exact (inside_prefixInterval hn (by simp only [List.length_append]; omega)).mpr
        (List.prefix_append _ _)
    · obtain ⟨addr, haddr, rfl⟩ := exists_address hv
      rw [intervalMatch_blockRules hlen haddr hv, h.color addr haddr, blockColor]

omit [DecidableEq α] in
lemma exists_blockRules {body : SuriTable α} (hn : bits.length + k = testBits)
    (h : ∀ r ∈ body, IsPrefix testBits r.1 ∧ Inside r.1 (prefixInterval bits k)) :
    ∃ rules : PrefixRules (Option α), (∀ r ∈ rules, r.1.length ≤ k) ∧
      body = rules.map (blockRule bits k) := by
  induction body with
  | nil => exact ⟨[], by simp, rfl⟩
  | cons x body ih =>
    obtain ⟨⟨⟨bits', k', hn', hx⟩, hin⟩, hrest⟩ := List.forall_mem_cons.mp h
    obtain ⟨rules, hlen, rfl⟩ := ih hrest
    rw [hx] at hin
    obtain ⟨rest, rfl⟩ := (inside_prefixInterval hn hn').mp hin
    rw [List.length_append] at hn'
    refine ⟨(rest, x.2) :: rules, List.forall_mem_cons.mpr ⟨?_, hlen⟩, ?_⟩
    · change rest.length ≤ k
      omega
    · obtain rfl : k' = k - rest.length := by omega
      rw [List.map_cons, blockRule, ← hx]

lemma bodyWeight_blockRules (bits : List Bool) (k : ℕ) {rules : PrefixRules (Option α)} :
    bodyWeight colorWeights c (rules.map (blockRule bits k)) =
      rulesWeight (weightOf colorWeights) rules + weightOf colorWeights c := by
  rw [bodyWeight, List.map_map, rulesWeight]
  rfl

/-- The least weight, with the rules as intervals. -/
lemma IsLeastWeight.isLeast {m : ℕ} (h : IsLeastWeight suriTable colorWeights bits k c m)
    (hn : bits.length + k = testBits) :
    IsLeast {m | ∃ body, SameColors suriTable colorWeights (prefixInterval bits k) c body ∧
      bodyWeight colorWeights c body = m} m := by
  constructor
  · obtain ⟨rules, hrules, hm⟩ := h.1
    have hlen : ∀ r ∈ rules.filter (fun r => r.1.length ≤ k), r.1.length ≤ k :=
      fun r hr => of_decide_eq_true (List.mem_filter.mp hr).2
    refine ⟨_, (sameColors_blockRules hn hlen).mpr hrules.filter, ?_⟩
    have hge := h.2 ⟨_, hrules.filter, rfl⟩
    have hle := rulesWeight_filter (weightOf colorWeights) rules
      (fun r => decide (r.1.length ≤ k))
    rw [bodyWeight_blockRules]
    omega
  · rintro m' ⟨body, hbody, rfl⟩
    obtain ⟨rules, hlen, rfl⟩ := exists_blockRules hn hbody.isPrefix
    rw [bodyWeight_blockRules]
    exact h.2 ⟨rules, (sameColors_blockRules hn hlen).mp hbody, rfl⟩

/-- The interval of one prefix. -/
lemma PrefixesOf.eq_singleton {n : ℕ} {test q : Interval} (h : PrefixesOf n i test [q])
    (hi : i.1 ≤ i.2) (htest : Inside i test) (hlt : i.2 < 2 ^ n) : q = i := by
  have hin := (h.inside q (List.mem_singleton_self q)).1
  have hmem : ∀ v ∈ Set.Icc i.1 i.2, v ∈ Set.Icc q.1 q.2 := by
    intro v hv
    obtain ⟨p, hp, hvp⟩ := h.covers (hv.2.trans_lt hlt) hv ⟨htest.1.trans hv.1, hv.2.trans htest.2⟩
    rwa [List.mem_singleton.mp hp] at hvp
  have hfst := (hmem i.1 ⟨le_rfl, hi⟩).1
  have hsnd := (hmem i.2 ⟨hi, le_rfl⟩).2
  exact Prod.ext (le_antisymm hfst hin.1) (le_antisymm hin.2 hsnd)

/-- The fuel of the recursion. -/
def suriDepth : ℕ := testBits + 2

/-- A recursion that is right for blocks and puts the entries of the prefixes together is right
for every interval. -/
lemma exists_overPrefixes {β : Type} {F : ℕ → Interval → Option (List ((Interval × Option α) × β))}
    {P : (Interval × Option α) × β → Prop} {ps : List Interval} (hlt : i.2 < 2 ^ testBits)
    (hps : getPrefixes i = some ps)
    (hrec : ∀ fuel, ps.length ≠ 1 →
      F (fuel + 1) i = (ps.mapM (F fuel)).map (fun r => dictOf r.flatten))
    (hblock : ∀ bits k fuel, bits.length + k = testBits → prefixInterval bits k ∈ ps →
      Inside (prefixInterval bits k) i → testBits < fuel →
      ∃ answer, F fuel (prefixInterval bits k) = some answer ∧ (∀ x ∈ answer, P x) ∧
        HasEntries suriTable colorWeights answer k bits) :
    ∃ answers, F suriDepth i = some answers ∧ (∀ x ∈ answers, P x) ∧
      ∀ bits k, prefixInterval bits k ∈ ps → bits.length + k = testBits →
        HasEntries suriTable colorWeights answers k bits := by
  obtain ⟨ps', hps', hspec⟩ := exists_getPrefixes i
  obtain rfl := Option.some.inj (hps.symm.trans hps')
  have hall : ∀ q ∈ ps, ∀ fuel, testBits < fuel → ∃ answer, F fuel q = some answer ∧
      (∀ x ∈ answer, P x) ∧ ∀ bits k, prefixInterval bits k = q → bits.length + k = testBits →
        HasEntries suriTable colorWeights answer k bits := by
    intro q hq fuel hfuel
    obtain ⟨bits, k, hn, rfl⟩ := hspec.isPrefix q hq
    obtain ⟨answer, hanswer, hP, hcomplete⟩ :=
      hblock bits k fuel hn hq (hspec.inside _ hq).1 hfuel
    refine ⟨answer, hanswer, hP, fun bits' k' heq hn' => ?_⟩
    obtain ⟨rfl, rfl⟩ := prefixInterval_inj hn' hn heq
    exact hcomplete
  by_cases hlen : ps.length = 1
  · -- the interval is a prefix itself
    obtain ⟨q, rfl⟩ := List.length_eq_one_iff.mp hlen
    have hq := hspec.inside q (List.mem_singleton_self q)
    have hle := (hspec.isPrefix q (List.mem_singleton_self q)).le
    obtain rfl := hspec.eq_singleton (hq.1.1.trans (hle.trans hq.1.2))
      ⟨Nat.zero_le _, Nat.le_sub_one_of_lt hlt⟩ hlt
    obtain ⟨answer, hanswer, hP, hcomplete⟩ := hall q (List.mem_singleton_self q) suriDepth
      (by rw [suriDepth]; omega)
    exact ⟨answer, hanswer, hP, fun bits k hmem =>
      hcomplete bits k (List.mem_singleton.mp hmem)⟩
  · obtain ⟨subs, hsubs, hforall⟩ := exists_mapM fun q hq => hall q hq (testBits + 1) (by omega)
    refine ⟨dictOf subs.flatten, ?_, fun x hx => ?_, fun bits k hmem hn => ?_⟩
    · rw [suriDepth, hrec _ hlen, hsubs]
      rfl
    · obtain ⟨answer, hanswer, hx⟩ := List.mem_flatten.mp (mem_of_mem_dictOf hx)
      obtain ⟨q, -, hq⟩ := exists_of_forall₂ hforall.flip hanswer
      exact hq.1 x hx
    · obtain ⟨answer, hanswer, hq⟩ := exists_of_forall₂ hforall hmem
      refine (hq.2 bits k rfl hn).mono fun key hkey => mem_keys_dictOf ?_
      obtain ⟨x, hx, rfl⟩ := List.mem_map.mp hkey
      exact List.mem_map_of_mem (List.mem_flatten.mpr ⟨answer, hanswer, hx⟩)

lemma weightedSuris_prefixes {ps : List Interval} (hfalse : NoFalse pyFalse suriTable)
    (hlt : i.2 < 2 ^ testBits) (hcolored : Colored suriTable colorWeights i)
    (hps : getPrefixes i = some ps) :
    ∃ answers, weightedSuris pyFalse suriTable colorWeights suriDepth i = some answers ∧
      (∀ x ∈ answers, LeastEntry suriTable colorWeights x) ∧
      ∀ bits k, prefixInterval bits k ∈ ps → bits.length + k = testBits →
        HasEntries suriTable colorWeights answers k bits := by
  refine exists_overPrefixes hlt hps (fun fuel hlen => ?_) fun bits k fuel hn _ hin hfuel =>
    weightedSuris_block hfalse hn (by omega) (hcolored.mono hin)
  rw [weightedSuris, hps]
  simp only [Option.bind_eq_bind, Option.bind_some]
  split
  · rename_i hzero
    rw [List.eq_nil_of_length_eq_zero hzero]
    rfl
  · rw [if_pos (by omega)]
    cases ps.mapM (weightedSuris pyFalse suriTable colorWeights fuel) <;> rfl

/-- For every prefix of the interval and every color, `Weighted_Suris` stores the least weight of
prefixes that with this color behind them have the colors of the table. -/
theorem weightedSuris_least (hfalse : NoFalse pyFalse suriTable) (hlt : i.2 < 2 ^ testBits)
    (hcolored : Colored suriTable colorWeights i) :
    ∃ ps answers, getPrefixes i = some ps ∧
      weightedSuris pyFalse suriTable colorWeights suriDepth i = some answers ∧
      ∀ block ∈ ps, ∀ c ∈ colorSet colorWeights, ∃ m : ℕ,
        dictGet answers (block, c) = some (m : ℤ) ∧
        IsLeast {m | ∃ body, SameColors suriTable colorWeights block c body ∧
          bodyWeight colorWeights c body = m} m := by
  obtain ⟨ps, hps, hspec⟩ := exists_getPrefixes i
  obtain ⟨answers, hanswers, hall, hcomplete⟩ := weightedSuris_prefixes hfalse hlt hcolored hps
  refine ⟨ps, answers, hps, hanswers, fun block hblock c hc => ?_⟩
  obtain ⟨bits, k, hn, rfl⟩ := hspec.isPrefix block hblock
  obtain ⟨m, hm, hleast⟩ := get_least hall hn ((hcomplete bits k hblock hn).whole hc)
  exact ⟨m, hm, hleast.isLeast hn⟩

/-- The rules of `suri.test`. -/
def testRules : SuriTable ℕ := [((8, 11), some 1), ((0, 7), some 0), ((12, 15), some 0)]

def testWeights : List (Option ℕ × ℕ) := [(some 0, 1), (some 1, 1)]

/-- The number 2 stands for the object `False`. -/
lemma noFalse_testRules : NoFalse 2 testRules := by
  unfold NoFalse
  decide

lemma colored_testRules : Colored testRules testWeights (0, 15) := by
  rintro v ⟨-, hv⟩
  simp only at hv
  change _ ∈ testWeights.map Prod.fst
  interval_cases v <;> decide

theorem weightedSuris_least_testRules :
    ∃ ps answers, getPrefixes (0, 15) = some ps ∧
      weightedSuris 2 testRules testWeights suriDepth (0, 15) = some answers ∧
      ∀ block ∈ ps, ∀ c ∈ colorSet testWeights, ∃ m : ℕ,
        dictGet answers (block, c) = some (m : ℤ) ∧
        IsLeast {m | ∃ body, SameColors testRules testWeights block c body ∧
          bodyWeight testWeights c body = m} m :=
  weightedSuris_least noFalse_testRules (by decide) colored_testRules

example : ((weightedSuris 2 testRules testWeights suriDepth (0, 15)).bind
    (fun answers => dictGet answers ((0, 15), some 0))) = some 2 := by decide +kernel

end ResSim
