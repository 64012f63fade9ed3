import Mathlib.Data.List.ProdSigma
import ResSim.Bitweave.WeightedSuris

/-!
# The solutions

`Find_Solutions` builds the solutions of a prefix from those of its halves, for the
backgrounds of the halves with the smallest cost. All solutions that it returns have the
least weight.
-/

namespace ResSim

section Defs

variable {α : Type} [DecidableEq α]

/-- `Merge_Lists`, with the `assert` on the backgrounds. -/
def mergeLists (ls₁ ls₂ : List (SuriSol α)) (pre : List Interval) (bckColor : Option α) :
    Option (List (SuriSol α)) :=
  (ls₁ ×ˢ ls₂).mapM (fun x => do
    let i ← x.1.getLast?
    let j ← x.2.getLast?
    if i.2 = j.2 then
      if i.2 = bckColor then some (x.1.dropLast ++ x.2.dropLast ++ [(.inr pre, bckColor)])
      else some (x.1.dropLast ++ x.2.dropLast ++ [(.inr pre, i.2)] ++ [(.inr pre, bckColor)])
    else none)

/-- The solutions of a prefix of the color `c`. -/
def atomicSolutions (colorWeights : List (Option α × ℕ)) (pre : Interval) (c : Option α) :
    List ((Interval × Option α) × List (SuriSol α)) :=
  (colorWeights.map Prod.fst).foldl (fun answer col => dictSet answer (pre, col)
    (if col ≠ c then [[(.inl pre, c), (.inl pre, col)]] else [[(.inl pre, col)]])) []

/-- The solutions with one background, from those of the halves with the smallest cost. -/
def joinSolution (colorWeights : List (Option α × ℕ)) (answers : List ((Interval × Option α) × ℤ))
    (p : List Interval) (lowPrefix highPrefix : Interval)
    (answer : List ((Interval × Option α) × List (SuriSol α))) (col : Option α) :
    Option (List (SuriSol α)) := do
  let colors := colorWeights.map Prod.fst
  let solutions ← colors.mapM (joinCost colorWeights answers lowPrefix highPrefix col)
  let goal ← solutions.min?
  let merged ← ((colors.zip solutions).filter (fun x => x.2 = goal)).mapM (fun x => do
    let ls₁ ← dictGet answer (lowPrefix, x.1)
    let ls₂ ← dictGet answer (highPrefix, x.1)
    mergeLists ls₁ ls₂ p col)
  some merged.flatten

def findSolutions (pyFalse : α) (suriTable : SuriTable α) (colorWeights : List (Option α × ℕ))
    (answers : List ((Interval × Option α) × ℤ)) :
    ℕ → Interval → Option (List ((Interval × Option α) × List (SuriSol α)))
  | 0, _ => none
  | fuel + 1, pre => do
    let p ← getPrefixes pre
    if p.length = 0 then some []
    else if 1 < p.length then do
      let r ← p.mapM (findSolutions pyFalse suriTable colorWeights answers fuel)
      some (dictOf r.flatten)
    else
      let c := color pyFalse suriTable pre
      if c ≠ some pyFalse then some (atomicSolutions colorWeights pre c)
      else do
        let (lowPrefix, highPrefix) := split pre
        let low ← findSolutions pyFalse suriTable colorWeights answers fuel lowPrefix
        let high ← findSolutions pyFalse suriTable colorWeights answers fuel highPrefix
        (colorWeights.map Prod.fst).foldlM (fun answer col =>
          (joinSolution colorWeights answers p lowPrefix highPrefix answer col).map
            (dictSet answer (pre, col))) (dictOf (low ++ high))

/-- A rule of a solution and the same rule for the addresses of a block. -/
def Writes (bits : List Bool) (k : ℕ) (y : (Interval ⊕ List Interval) × Option α)
    (r : List Bool × Option α) : Prop :=
  (unwrap y.1).map (fun i => (i, y.2)) = some (blockRule bits k r)

/-- A solution with its background behind the rules, none of them inside an earlier one. -/
structure SolutionOf (bits : List Bool) (k : ℕ) (c : Option α) (sol : SuriSol α)
    (rules : PrefixRules (Option α)) : Prop where
  shape : ∃ body x, sol = body ++ [(x, c)] ∧ unwrap x = some (prefixInterval bits k) ∧
    List.Forall₂ (Writes bits k) body rules
  short : ∀ r ∈ rules, r.1.length ≤ k
  ordered : rules.Pairwise (fun r s => ¬ r.1 <+: s.1)

/-- A solution of least weight. -/
def LeastSolution (suriTable : SuriTable α) (colorWeights : List (Option α × ℕ)) (bits : List Bool)
    (k : ℕ) (c : Option α) (sol : SuriSol α) : Prop :=
  ∃ rules, SolutionOf bits k c sol rules ∧
    Classifies (colorSet colorWeights) k (blockColor suriTable bits) c rules ∧
    IsLeastWeight suriTable colorWeights bits k c
      (rulesWeight (weightOf colorWeights) rules + weightOf colorWeights c)

/-- An entry of a block and a color with solutions of least weight. -/
def SolutionEntry (suriTable : SuriTable α) (colorWeights : List (Option α × ℕ))
    (x : (Interval × Option α) × List (SuriSol α)) : Prop :=
  ∃ bits k, bits.length + k = testBits ∧ x.1.1 = prefixInterval bits k ∧
    x.2 ≠ [] ∧ ∀ sol ∈ x.2, LeastSolution suriTable colorWeights bits k x.1.2 sol

end Defs

variable {α : Type} {suriTable : SuriTable α} {bits : List Bool} {k fuel : ℕ}
  {c cc : Option α} {i j sol : SuriSol α} {low high rules : PrefixRules (Option α)}

/-! ### Two halves -/

lemma blockRule_cons (b : Bool) (r : List Bool × Option α) :
    blockRule bits (k + 1) (b :: r.1, r.2) = blockRule (bits ++ [b]) k r := by
  rw [blockRule, blockRule, List.append_assoc, List.singleton_append, List.length_cons,
    Nat.add_sub_add_right]

lemma writes_graft (b : Bool) {body : SuriSol α}
    (h : List.Forall₂ (Writes (bits ++ [b]) k) body rules) :
    List.Forall₂ (Writes bits (k + 1)) body (graft b rules) := by
  refine List.forall₂_map_right_iff.mpr (h.imp fun y r hy => ?_)
  rw [Writes, blockRule_cons]
  exact hy

lemma pairwise_graft (b : Bool) (h : rules.Pairwise (fun r s => ¬ r.1 <+: s.1)) :
    (graft b rules).Pairwise (fun r s => ¬ r.1 <+: s.1) := by
  refine List.pairwise_map.mpr (h.imp fun hrs hpre => hrs ?_)
  exact (List.prefix_cons_inj b).mp hpre

lemma short_graft (b : Bool) (h : ∀ r ∈ rules, r.1.length ≤ k) :
    ∀ r ∈ graft b rules, r.1.length ≤ k + 1 :=
  List.forall_mem_map.mpr fun r hr => Nat.succ_le_succ (h r hr)

lemma ne_nil_of_mem_graft {b : Bool} {r : List Bool × Option α} (h : r ∈ graft b rules) :
    r.1 ≠ [] := by
  obtain ⟨x, -, rfl⟩ := List.mem_map.mp h
  exact List.cons_ne_nil _ _

/-- The rules of both halves, under a background that both have. -/
lemma SolutionOf.join (hi : SolutionOf (bits ++ [false]) k cc i low)
    (hj : SolutionOf (bits ++ [true]) k cc j high) :
    SolutionOf bits (k + 1) cc
      (i.dropLast ++ j.dropLast ++ [(.inr [prefixInterval bits (k + 1)], cc)])
      (graft false low ++ graft true high) := by
  obtain ⟨body₀, x₀, rfl, -, hbody₀⟩ := hi.shape
  obtain ⟨body₁, x₁, rfl, -, hbody₁⟩ := hj.shape
  rw [List.dropLast_concat, List.dropLast_concat]
  refine ⟨⟨_, _, rfl, rfl, List.rel_append (writes_graft false hbody₀) (writes_graft true hbody₁)⟩,
    fun r hr => ?_, List.pairwise_append.mpr ⟨pairwise_graft false hi.ordered,
      pairwise_graft true hj.ordered, fun r hr s hs hpre => ?_⟩⟩
  · rcases List.mem_append.mp hr with hr | hr
    · exact short_graft false hi.short r hr
    · exact short_graft true hj.short r hr
  · obtain ⟨r', -, rfl⟩ := List.mem_map.mp hr
    obtain ⟨s', -, rfl⟩ := List.mem_map.mp hs
    exact Bool.false_ne_true (List.cons_prefix_cons.mp hpre).1

/-- A rule for all of the block before another background. -/
lemma SolutionOf.concat {body : SuriSol α} {x x' : Interval ⊕ List Interval}
    (h : SolutionOf bits k cc (body ++ [(x, cc)]) rules) (hne : ∀ r ∈ rules, r.1 ≠ [])
    (hx' : unwrap x' = some (prefixInterval bits k)) :
    SolutionOf bits k c (body ++ [(x, cc)] ++ [(x', c)]) (rules ++ [([], cc)]) := by
  obtain ⟨body', x₀, heq, hx, hbody⟩ := h.shape
  obtain ⟨rfl, hlast⟩ := List.append_inj' heq rfl
  obtain ⟨rfl, -⟩ := Prod.mk.inj (List.singleton_inj.mp hlast)
  refine ⟨⟨_, x', rfl, hx', List.rel_append hbody (.cons ?_ .nil)⟩, fun r hr => ?_,
    List.pairwise_append.mpr ⟨h.ordered, List.pairwise_singleton _ _, fun r hr s hs hpre => ?_⟩⟩
  · simp [Writes, hx, blockRule]
  · rcases List.mem_append.mp hr with hr | hr
    · exact h.short r hr
    · rw [List.mem_singleton.mp hr]
      exact Nat.zero_le _
  · rw [List.mem_singleton.mp hs] at hpre
    exact hne r hr (List.prefix_nil.mp hpre)

lemma SolutionOf.getLast? (h : SolutionOf bits k c sol rules) :
    ∃ x, sol.getLast? = some (x, c) ∧ sol = sol.dropLast ++ [(x, c)] ∧
      unwrap x = some (prefixInterval bits k) := by
  obtain ⟨body, x, rfl, hx, -⟩ := h.shape
  exact ⟨x, List.getLast?_concat, by rw [List.dropLast_concat], hx⟩

variable [DecidableEq α] {colorWeights : List (Option α × ℕ)} {m₀ m₁ : ℕ} {pyFalse : α}

/-- Solutions of least weight for the halves of a cheapest background are joined. -/
lemma LeastSolution.join (hi : LeastSolution suriTable colorWeights (bits ++ [false]) k cc i)
    (hj : LeastSolution suriTable colorWeights (bits ++ [true]) k cc j)
    (h₀ : IsLeastWeight suriTable colorWeights (bits ++ [false]) k cc m₀)
    (h₁ : IsLeastWeight suriTable colorWeights (bits ++ [true]) k cc m₁)
    (hcc : cc ∈ colorSet colorWeights)
    (hm : IsLeastWeight suriTable colorWeights bits (k + 1) c
      (joinWeight (weightOf colorWeights) c cc m₀ m₁)) :
    LeastSolution suriTable colorWeights bits (k + 1) c
      (if cc = c then i.dropLast ++ j.dropLast ++ [(.inr [prefixInterval bits (k + 1)], c)]
        else i.dropLast ++ j.dropLast ++ [(.inr [prefixInterval bits (k + 1)], cc)] ++
          [(.inr [prefixInterval bits (k + 1)], c)]) := by
  obtain ⟨low, hlow, hclow, hwlow⟩ := hi
  obtain ⟨high, hhigh, hchigh, hwhigh⟩ := hj
  obtain rfl := hwlow.unique h₀
  obtain rfl := hwhigh.unique h₁
  rw [← blockColor_half] at hclow hchigh
  have hjoin := hlow.join hhigh
  have hcjoin := hclow.join hchigh
  by_cases h : cc = c
  · subst h
    rw [if_pos rfl]
    refine ⟨_, hjoin, hcjoin, ?_⟩
    rw [joinWeight, if_pos rfl] at hm
    convert hm using 1
    rw [rulesWeight_append, rulesWeight_graft, rulesWeight_graft]
    omega
  · rw [if_neg h]
    refine ⟨_, hjoin.concat (fun r hr => ?_) rfl, hcjoin.concat hcc, ?_⟩
    · exact (List.mem_append.mp hr).elim ne_nil_of_mem_graft ne_nil_of_mem_graft
    · rw [joinWeight, if_neg (Ne.symm h)] at hm
      convert hm using 1
      simp only [rulesWeight_append, rulesWeight_graft, rulesWeight_cons, rulesWeight_nil]
      omega

lemma mergeLists_spec {ls₁ ls₂ : List (SuriSol α)} (hne₁ : ls₁ ≠ []) (hne₂ : ls₂ ≠ [])
    (hls₁ : ∀ i ∈ ls₁, LeastSolution suriTable colorWeights (bits ++ [false]) k cc i)
    (hls₂ : ∀ j ∈ ls₂, LeastSolution suriTable colorWeights (bits ++ [true]) k cc j)
    (h₀ : IsLeastWeight suriTable colorWeights (bits ++ [false]) k cc m₀)
    (h₁ : IsLeastWeight suriTable colorWeights (bits ++ [true]) k cc m₁)
    (hcc : cc ∈ colorSet colorWeights)
    (hm : IsLeastWeight suriTable colorWeights bits (k + 1) c
      (joinWeight (weightOf colorWeights) c cc m₀ m₁)) :
    ∃ merged, mergeLists ls₁ ls₂ [prefixInterval bits (k + 1)] c = some merged ∧ merged ≠ [] ∧
      ∀ sol ∈ merged, LeastSolution suriTable colorWeights bits (k + 1) c sol := by
  have hpair : ∀ x ∈ ls₁ ×ˢ ls₂, ∃ sol, (do
      let i ← x.1.getLast?
      let j ← x.2.getLast?
      if i.2 = j.2 then
        if i.2 = c then
          some (x.1.dropLast ++ x.2.dropLast ++ [(.inr [prefixInterval bits (k + 1)], c)])
        else some (x.1.dropLast ++ x.2.dropLast ++ [(.inr [prefixInterval bits (k + 1)], i.2)] ++
          [(.inr [prefixInterval bits (k + 1)], c)])
      else none) = some sol ∧ LeastSolution suriTable colorWeights bits (k + 1) c sol := by
    rintro ⟨i, j⟩ hx
    obtain ⟨hi, hj⟩ := List.pair_mem_product.mp hx
    have hjoin := (hls₁ i hi).join (hls₂ j hj) h₀ h₁ hcc hm
    obtain ⟨low, hlow, -⟩ := hls₁ i hi
    obtain ⟨high, hhigh, -⟩ := hls₂ j hj
    obtain ⟨x, hlast, -⟩ := hlow.getLast?
    obtain ⟨y, hlast', -⟩ := hhigh.getLast?
    refine ⟨_, ?_, hjoin⟩
    simp only [hlast, hlast', Option.bind_eq_bind, Option.bind_some, if_true]
    split <;> rfl
  obtain ⟨merged, hmerged, hall⟩ := exists_mapM hpair
  refine ⟨merged, hmerged, ?_, fun sol hsol => ?_⟩
  · obtain ⟨i, ls₁, rfl⟩ := List.exists_cons_of_ne_nil hne₁
    obtain ⟨j, ls₂, rfl⟩ := List.exists_cons_of_ne_nil hne₂
    rintro rfl
    cases hall
  · obtain ⟨x, -, hx⟩ := exists_of_forall₂ hall.flip hsol
    exact hx

/-! ### The entries -/

variable {answers : List ((Interval × Option α) × ℤ)}
  {answer : List ((Interval × Option α) × List (SuriSol α))} {col : Option α}

lemma get_solutions (hall : ∀ x ∈ answer, SolutionEntry suriTable colorWeights x)
    (hn : bits.length + k = testBits) (hkey : (prefixInterval bits k, c) ∈ answer.map Prod.fst) :
    ∃ ls, dictGet answer (prefixInterval bits k, c) = some ls ∧ ls ≠ [] ∧
      ∀ sol ∈ ls, LeastSolution suriTable colorWeights bits k c sol := by
  cases hget : dictGet answer (prefixInterval bits k, c) with
  | none => exact absurd hkey (dictGet_eq_none.mp hget)
  | some ls =>
    obtain ⟨bits', k', hn', hblock, hne, hsols⟩ := hall _ (mem_of_dictGet hget)
    obtain ⟨rfl, rfl⟩ := prefixInterval_inj hn hn' hblock
    exact ⟨ls, rfl, hne, hsols⟩

lemma joinSolution_spec (hn : bits.length + (k + 1) = testBits)
    (hall : ∀ x ∈ answers, LeastEntry suriTable colorWeights x)
    (hlow : ∀ cc ∈ colorSet colorWeights,
      (prefixInterval (bits ++ [false]) k, cc) ∈ answers.map Prod.fst)
    (hhigh : ∀ cc ∈ colorSet colorWeights,
      (prefixInterval (bits ++ [true]) k, cc) ∈ answers.map Prod.fst)
    (hsols : ∀ x ∈ answer, SolutionEntry suriTable colorWeights x)
    (hlow' : ∀ cc ∈ colorSet colorWeights,
      (prefixInterval (bits ++ [false]) k, cc) ∈ answer.map Prod.fst)
    (hhigh' : ∀ cc ∈ colorSet colorWeights,
      (prefixInterval (bits ++ [true]) k, cc) ∈ answer.map Prod.fst)
    (hcol : col ∈ colorSet colorWeights) :
    ∃ ls, joinSolution colorWeights answers [prefixInterval bits (k + 1)]
        (prefixInterval (bits ++ [false]) k) (prefixInterval (bits ++ [true]) k) answer col =
          some ls ∧ ls ≠ [] ∧
      ∀ sol ∈ ls, LeastSolution suriTable colorWeights bits (k + 1) col sol := by
  obtain ⟨cost, hcosts, hhalves, m, hmin, hleast⟩ := exists_joinCosts hall hn hlow hhigh hcol
  obtain ⟨hn₀, hn₁⟩ := halves_length hn
  have hzip : (colorWeights.map Prod.fst).zip ((colorWeights.map Prod.fst).map
      (fun cc => (cost cc : ℤ))) = (colorWeights.map Prod.fst).map (fun cc => (cc, (cost cc : ℤ))) := by
    have h := List.zip_map' (f := id) (g := fun cc => (cost cc : ℤ)) (l := colorWeights.map Prod.fst)
    rwa [List.map_id] at h
  -- what the backgrounds with the smallest cost give
  have hmerge : ∀ x ∈ ((colorWeights.map Prod.fst).map (fun cc => (cc, (cost cc : ℤ)))).filter
      (fun x => x.2 = (m : ℤ)), ∃ merged, (do
        let ls₁ ← dictGet answer (prefixInterval (bits ++ [false]) k, x.1)
        let ls₂ ← dictGet answer (prefixInterval (bits ++ [true]) k, x.1)
        mergeLists ls₁ ls₂ [prefixInterval bits (k + 1)] col) = some merged ∧ merged ≠ [] ∧
      ∀ sol ∈ merged, LeastSolution suriTable colorWeights bits (k + 1) col sol := by
    intro x hx
    obtain ⟨hx, hgoal⟩ := List.mem_filter.mp hx
    obtain ⟨cc, hcc, rfl⟩ := List.mem_map.mp hx
    have hgoal' : cost cc = m := Int.ofNat_inj.mp (of_decide_eq_true hgoal)
    obtain ⟨m₀, m₁, h₀, h₁, hcost⟩ := hhalves cc hcc
    obtain ⟨ls₁, hls₁, hne₁, hall₁⟩ := get_solutions hsols
      hn₀ (hlow' cc hcc)
    obtain ⟨ls₂, hls₂, hne₂, hall₂⟩ := get_solutions hsols
      hn₁ (hhigh' cc hcc)
    simp only [hls₁, hls₂, Option.bind_eq_bind, Option.bind_some]
    exact mergeLists_spec hne₁ hne₂ hall₁ hall₂ h₀ h₁ hcc (by rw [← hcost, hgoal']; exact hleast)
  obtain ⟨merged, hmerged, hforall⟩ := exists_mapM hmerge
  refine ⟨merged.flatten, ?_, ?_, fun sol hsol => ?_⟩
  · simp only [Option.bind_eq_bind] at hmerged
    simp only [joinSolution, hcosts, hmin, hzip, Option.bind_eq_bind, Option.bind_some, hmerged]
  · obtain ⟨cc, hcc, hm⟩ := List.mem_map.mp (List.min?_mem hmin)
    obtain ⟨ls, hls, hne, -⟩ := exists_of_forall₂ hforall
      (List.mem_filter.mpr ⟨List.mem_map.mpr ⟨cc, hcc, rfl⟩, decide_eq_true hm⟩)
    exact fun hnil => hne (List.flatten_eq_nil_iff.mp hnil ls hls)
  · obtain ⟨ls, hls, hsol⟩ := List.mem_flatten.mp hsol
    obtain ⟨x, -, -, hx⟩ := exists_of_forall₂ hforall.flip hls
    exact hx sol hsol

/-- The solutions of a block of one color. -/
lemma atomicSolutions_spec (hn : bits.length + k = testBits)
    (hcolor : regionColor suriTable (prefixInterval bits k) = some c)
    (hc : c ∈ colorSet colorWeights) :
    (∀ x ∈ atomicSolutions colorWeights (prefixInterval bits k) c,
      SolutionEntry suriTable colorWeights x) ∧
    HasEntries suriTable colorWeights
      (atomicSolutions colorWeights (prefixInterval bits k) c) k bits := by
  have hwhole : Writes bits k (.inl (prefixInterval bits k), c) ([], c) := by
    simp [Writes, unwrap, blockRule]
  obtain ⟨answer, hanswer, hall, -, hkeys⟩ := exists_foldlM_dictSet
    (g := fun _ col => some (if col ≠ c then
      [[(.inl (prefixInterval bits k), c), (.inl (prefixInterval bits k), col)]]
      else [[(.inl (prefixInterval bits k), col)]]))
    (f := fun col => (prefixInterval bits k, col))
    (P := SolutionEntry suriTable colorWeights) (l := colorWeights.map Prod.fst) (d := [])
    (by simp) fun _ _ _ col hcol => by
      have hleast := isLeast_classifierWeights_const (w := weightOf colorWeights) (c := col)
        (fun addr haddr => blockColor_of_regionColor hcolor haddr) hc
      refine ⟨_, rfl, bits, k, hn, rfl, ?_, ?_⟩
      · split <;> exact List.cons_ne_nil _ _
      · by_cases h : col = c
        · subst h
          rw [if_neg (not_not.mpr rfl)]
          refine List.forall_mem_singleton.mpr ⟨[], ⟨⟨[], _, rfl, rfl, .nil⟩, by simp, .nil⟩,
            ⟨by simp, fun addr haddr => (blockColor_of_regionColor hcolor haddr).symm⟩, ?_⟩
          rw [if_pos rfl] at hleast
          rwa [rulesWeight_nil, Nat.zero_add]
        · rw [if_pos h]
          refine List.forall_mem_singleton.mpr ⟨[([], c)], ⟨⟨[_], _, rfl, rfl, .cons hwhole .nil⟩,
            by simp, List.pairwise_singleton _ _⟩, ⟨by simpa using hc, fun addr haddr => ?_⟩, ?_⟩
          · exact (blockColor_of_regionColor hcolor haddr).symm
          · rwa [if_neg h] at hleast
  have hfold : some (atomicSolutions colorWeights (prefixInterval bits k) c) = some answer :=
    List.foldlM_pure.symm.trans hanswer
  rw [Option.some.inj hfold]
  refine ⟨hall, ?_⟩
  cases k with
  | zero => exact hkeys
  | succ k => exact ⟨hkeys, fun hnone => by rw [hcolor] at hnone; cases hnone⟩

lemma findSolutions_atomic (hfalse : NoFalse pyFalse suriTable) (hn : bits.length + k = testBits)
    (h : regionColor suriTable (prefixInterval bits k) = some c) :
    findSolutions pyFalse suriTable colorWeights answers (fuel + 1) (prefixInterval bits k) =
      some (atomicSolutions colorWeights (prefixInterval bits k) c) := by
  have hc : color pyFalse suriTable (prefixInterval bits k) = c := by
    rw [color_eq, h, Option.getD_some]
  have hne : c ≠ some pyFalse := fun hc => regionColor_ne_false hfalse (h.trans (congrArg some hc))
  rw [findSolutions, getPrefixes_prefixInterval hn]
  simp [hc, hne]

lemma findSolutions_join (hn : bits.length + (k + 1) = testBits)
    (h : regionColor suriTable (prefixInterval bits (k + 1)) = none)
    {low high : List ((Interval × Option α) × List (SuriSol α))}
    (hlow : findSolutions pyFalse suriTable colorWeights answers fuel
      (prefixInterval (bits ++ [false]) k) = some low)
    (hhigh : findSolutions pyFalse suriTable colorWeights answers fuel
      (prefixInterval (bits ++ [true]) k) = some high) :
    findSolutions pyFalse suriTable colorWeights answers (fuel + 1) (prefixInterval bits (k + 1)) =
      (colorWeights.map Prod.fst).foldlM (fun answer col =>
        (joinSolution colorWeights answers [prefixInterval bits (k + 1)]
          (prefixInterval (bits ++ [false]) k) (prefixInterval (bits ++ [true]) k) answer col).map
            (dictSet answer (prefixInterval bits (k + 1), col))) (dictOf (low ++ high)) := by
  have hc : color pyFalse suriTable (prefixInterval bits (k + 1)) = some pyFalse := by
    rw [color_eq, h, Option.getD_none]
  rw [findSolutions, getPrefixes_prefixInterval hn, hc, split_prefixInterval]
  simp [hlow, hhigh]

lemma joinSolutions_spec (hn : bits.length + (k + 1) = testBits)
    (hall : ∀ x ∈ answers, LeastEntry suriTable colorWeights x)
    (hlow : HasEntries suriTable colorWeights answers k (bits ++ [false]))
    (hhigh : HasEntries suriTable colorWeights answers k (bits ++ [true]))
    (hsols : ∀ x ∈ answer, SolutionEntry suriTable colorWeights x)
    (hlow' : HasEntries suriTable colorWeights answer k (bits ++ [false]))
    (hhigh' : HasEntries suriTable colorWeights answer k (bits ++ [true])) :
    ∃ answer', (colorWeights.map Prod.fst).foldlM (fun answer col =>
        (joinSolution colorWeights answers [prefixInterval bits (k + 1)]
          (prefixInterval (bits ++ [false]) k) (prefixInterval (bits ++ [true]) k) answer col).map
            (dictSet answer (prefixInterval bits (k + 1), col))) answer = some answer' ∧
      (∀ x ∈ answer', SolutionEntry suriTable colorWeights x) ∧
      HasEntries suriTable colorWeights answer' (k + 1) bits := by
  obtain ⟨answer', hanswer', hall', hsub, hkeys⟩ := exists_foldlM_dictSet
    (g := joinSolution colorWeights answers [prefixInterval bits (k + 1)]
      (prefixInterval (bits ++ [false]) k) (prefixInterval (bits ++ [true]) k))
    (f := fun col => (prefixInterval bits (k + 1), col)) (l := colorWeights.map Prod.fst) hsols
    fun d hd hkeep col hcol => by
      obtain ⟨ls, hls, hne, hleast⟩ := joinSolution_spec hn hall (fun _ hcc => hlow.whole hcc)
        (fun _ hcc => hhigh.whole hcc) hd (fun _ hcc => hkeep _ (hlow'.whole hcc))
        (fun _ hcc => hkeep _ (hhigh'.whole hcc)) hcol
      exact ⟨ls, hls, bits, k + 1, hn, rfl, hne, hleast⟩
  exact ⟨answer', hanswer', hall', hkeys, fun _ => ⟨hlow'.mono hsub, hhigh'.mono hsub⟩⟩

lemma findSolutions_block (hfalse : NoFalse pyFalse suriTable)
    (hn : bits.length + k = testBits) (hfuel : k < fuel)
    (hcolored : Colored suriTable colorWeights (prefixInterval bits k))
    (hall : ∀ x ∈ answers, LeastEntry suriTable colorWeights x)
    (hcomplete : HasEntries suriTable colorWeights answers k bits) :
    ∃ answer, findSolutions pyFalse suriTable colorWeights answers fuel (prefixInterval bits k) =
        some answer ∧ (∀ x ∈ answer, SolutionEntry suriTable colorWeights x) ∧
      HasEntries suriTable colorWeights answer k bits := by
  induction k generalizing bits fuel with
  | zero =>
    obtain ⟨fuel, rfl⟩ := Nat.exists_eq_add_one_of_ne_zero (Nat.ne_zero_of_lt hfuel)
    obtain ⟨c, hc⟩ := Option.ne_none_iff_exists'.mp (regionColor_point suriTable bits)
    have hmem := hcolored _ ⟨le_rfl, prefixInterval_le⟩
    rw [regionColor_eq_some hc ⟨le_rfl, prefixInterval_le⟩] at hmem
    exact ⟨_, findSolutions_atomic hfalse hn hc, atomicSolutions_spec hn hc hmem⟩
  | succ k ih =>
    obtain ⟨fuel, rfl⟩ := Nat.exists_eq_add_one_of_ne_zero (Nat.ne_zero_of_lt hfuel)
    cases hc : regionColor suriTable (prefixInterval bits (k + 1)) with
    | some c =>
      have hmem := hcolored _ ⟨le_rfl, prefixInterval_le⟩
      rw [regionColor_eq_some hc ⟨le_rfl, prefixInterval_le⟩] at hmem
      exact ⟨_, findSolutions_atomic hfalse hn hc, atomicSolutions_spec hn hc hmem⟩
    | none =>
      obtain ⟨hcomp₀, hcomp₁⟩ := hcomplete.2 hc
      obtain ⟨hn₀, hn₁⟩ := halves_length hn
      obtain ⟨low, hlow, hsols₀, hcomp₀'⟩ :=
        ih hn₀ (Nat.lt_of_succ_lt_succ hfuel) (hcolored.mono inside_low) hcomp₀
      obtain ⟨high, hhigh, hsols₁, hcomp₁'⟩ :=
        ih hn₁ (Nat.lt_of_succ_lt_succ hfuel) (hcolored.mono inside_high) hcomp₁
      rw [findSolutions_join hn hc hlow hhigh]
      have hkeys : ∀ key ∈ (low ++ high).map Prod.fst, key ∈ (dictOf (low ++ high)).map Prod.fst :=
        fun key hkey => mem_keys_dictOf hkey
      simp only [List.map_append, List.mem_append] at hkeys
      refine joinSolutions_spec hn hall hcomp₀ hcomp₁ (fun x hx => ?_)
        (hcomp₀'.mono fun key hkey => hkeys key (.inl hkey))
        (hcomp₁'.mono fun key hkey => hkeys key (.inr hkey))
      rcases List.mem_append.mp (mem_of_mem_dictOf hx) with hx | hx
      · exact hsols₀ x hx
      · exact hsols₁ x hx

lemma findSolutions_prefixes {i : Interval} {ps : List Interval}
    (hfalse : NoFalse pyFalse suriTable) (hlt : i.2 < 2 ^ testBits)
    (hcolored : Colored suriTable colorWeights i) (hps : getPrefixes i = some ps)
    (hall : ∀ x ∈ answers, LeastEntry suriTable colorWeights x)
    (hcomplete : ∀ bits k, prefixInterval bits k ∈ ps → bits.length + k = testBits →
      HasEntries suriTable colorWeights answers k bits) :
    ∃ sols, findSolutions pyFalse suriTable colorWeights answers suriDepth i = some sols ∧
      (∀ x ∈ sols, SolutionEntry suriTable colorWeights x) ∧
      ∀ bits k, prefixInterval bits k ∈ ps → bits.length + k = testBits →
        HasEntries suriTable colorWeights sols k bits := by
  refine exists_overPrefixes hlt hps (fun fuel hlen => ?_) fun bits k fuel hn hmem hin hfuel =>
    findSolutions_block hfalse hn (by omega) (hcolored.mono hin) hall (hcomplete bits k hmem hn)
  rw [findSolutions, hps]
  simp only [Option.bind_eq_bind, Option.bind_some]
  split
  · rename_i hzero
    rw [List.eq_nil_of_length_eq_zero hzero]
    rfl
  · rw [if_pos (by omega)]
    cases ps.mapM (findSolutions pyFalse suriTable colorWeights answers fuel) <;> rfl

/-! ### Solutions as intervals -/

/-- A solution of least weight: its rules, none of them inside an earlier one, and the background
give the numbers of the block the colors of the table. -/
structure Solves (suriTable : SuriTable α) (colorWeights : List (Option α × ℕ)) (block : Interval)
    (c : Option α) (sol : SuriSol α) (body : SuriTable α) : Prop where
  background : ∃ x, sol.getLast? = some (x, c) ∧ unwrap x = some block
  rules : sol.dropLast.mapM (fun x => (unwrap x.1).map (fun i => (i, x.2))) = some body
  ordered : body.Pairwise (fun r s => ¬ Inside s.1 r.1)
  same : SameColors suriTable colorWeights block c body
  least : ∀ body', SameColors suriTable colorWeights block c body' →
    bodyWeight colorWeights c body ≤ bodyWeight colorWeights c body'

lemma LeastSolution.solves (h : LeastSolution suriTable colorWeights bits k c sol)
    (hn : bits.length + k = testBits) :
    ∃ body, Solves suriTable colorWeights (prefixInterval bits k) c sol body ∧
      IsLeastWeight suriTable colorWeights bits k c (bodyWeight colorWeights c body) := by
  obtain ⟨rules, hsol, hclass, hleast⟩ := h
  obtain ⟨ys, x, rfl, hx, hys⟩ := hsol.shape
  have hbits : ∀ r ∈ rules, (bits ++ r.1).length + (k - r.1.length) = testBits := by
    intro r hr
    have := hsol.short r hr
    rw [List.length_append]
    omega
  rw [← bodyWeight_blockRules bits k] at hleast
  refine ⟨rules.map (blockRule bits k), ⟨⟨x, List.getLast?_concat, hx⟩, ?_, ?_,
    (sameColors_blockRules hn hsol.short).mpr hclass, fun body' hbody' => ?_⟩, hleast⟩
  · rw [List.dropLast_concat]
    exact mapM_of_forall₂ (List.forall₂_map_right_iff.mpr hys)
  · refine List.pairwise_map.mpr (hsol.ordered.imp_of_mem fun {r s} hr hs hrs hin => hrs ?_)
    have hpre := (inside_prefixInterval (hbits r hr) (hbits s hs)).mp hin
    exact (List.prefix_append_right_inj bits).mp hpre
  · exact (hleast.isLeast hn).2 ⟨body', hbody', rfl⟩

/-- All solutions that `Find_Solutions` returns for a prefix of the interval and a color are of
least weight, the one that `Weighted_Suris` has stored, and there is one. -/
theorem findSolutions_optimal {i : Interval} (hfalse : NoFalse pyFalse suriTable)
    (hlt : i.2 < 2 ^ testBits) (hcolored : Colored suriTable colorWeights i) :
    ∃ ps answers sols, getPrefixes i = some ps ∧
      weightedSuris pyFalse suriTable colorWeights suriDepth i = some answers ∧
      findSolutions pyFalse suriTable colorWeights answers suriDepth i = some sols ∧
      ∀ block ∈ ps, ∀ c ∈ colorSet colorWeights, ∃ ls, dictGet sols (block, c) = some ls ∧
        ls ≠ [] ∧ ∀ sol ∈ ls, ∃ body, Solves suriTable colorWeights block c sol body ∧
          dictGet answers (block, c) = some (bodyWeight colorWeights c body : ℤ) := by
  obtain ⟨ps, hps, hspec⟩ := exists_getPrefixes i
  obtain ⟨answers, hanswers, hall, hcomplete⟩ := weightedSuris_prefixes hfalse hlt hcolored hps
  obtain ⟨sols, hsols, hall', hcomplete'⟩ :=
    findSolutions_prefixes hfalse hlt hcolored hps hall hcomplete
  refine ⟨ps, answers, sols, hps, hanswers, hsols, fun block hblock c hc => ?_⟩
  obtain ⟨bits, k, hn, rfl⟩ := hspec.isPrefix block hblock
  obtain ⟨m, hm, hleast⟩ := get_least hall hn ((hcomplete bits k hblock hn).whole hc)
  obtain ⟨ls, hls, hne, hlsleast⟩ := get_solutions hall' hn ((hcomplete' bits k hblock hn).whole hc)
  refine ⟨ls, hls, hne, fun sol hsol => ?_⟩
  obtain ⟨body, hbody, hleast'⟩ := (hlsleast sol hsol).solves hn
  exact ⟨body, hbody, by rw [hm, hleast.unique hleast']⟩

theorem findSolutions_optimal_testRules :
    ∃ ps answers sols, getPrefixes (0, 15) = some ps ∧
      weightedSuris 2 testRules testWeights suriDepth (0, 15) = some answers ∧
      findSolutions 2 testRules testWeights answers suriDepth (0, 15) = some sols ∧
      ∀ block ∈ ps, ∀ c ∈ colorSet testWeights, ∃ ls, dictGet sols (block, c) = some ls ∧
        ls ≠ [] ∧ ∀ sol ∈ ls, ∃ body, Solves testRules testWeights block c sol body ∧
          dictGet answers (block, c) = some (bodyWeight testWeights c body : ℤ) :=
  findSolutions_optimal noFalse_testRules (by decide) colored_testRules

end ResSim
