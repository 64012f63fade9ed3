import Mathlib.Algebra.Order.Field.Rat
import Mathlib.Algebra.Order.Field.Basic
import ResSim.Plinko.Search
import ResSim.Trees.Serving

/-!
# The cache of starting trees

A flow starts on one of several trees of several tables. The candidates are sorted by their
numbers of hops without failures. If the best one is at most 1.35 times as long as a shortest
path, all that are at most as long are kept, and else those that are as long as the best one,
but never more than eight. Quotients are rational numbers here.
-/

namespace ResSim

variable {V E : Type} [DecidableEq V] [DecidableEq E]

/-- The forwarding tables of all destinations that one file has. -/
abbrev TableFile (V E : Type) := V → Fwdtable V ℕ E

/-- A table and the tree to start on in it. -/
abbrev StartTree (V E : Type) := TableFile V E × ℕ

/-- The start trees of one table; `none` where there are none. -/
def startTreesIn (src dst : V) (fwdtable : TableFile V E) : Option (List (StartTree V E)) :=
  let start := (fwdtable dst).entries src none
  if 0 < start.length then some (start.map (fun entry => (fwdtable, entry.ntree))) else none

/-- The number of hops without failures. `len(None)` is an error. -/
def startPathLen (fuel : ℕ) (G : PortGraph V E) (src dst : V) (x : StartTree V E) : Option ℕ := do
  let (hops, _) ← fwdtableWalkPathInternal fuel G src dst (x.1 dst) x.2 ∅ ∅
  hops.map List.length

/-- The paths that are good enough, or else the best ones. -/
def goodTrees (shortestPathlen best : ℕ) (l : List (StartTree V E × ℕ)) :
    List (StartTree V E × ℕ) :=
  if (135 / 100 : ℚ) < best / shortestPathlen then l.filter (fun x => x.2 = best)
  else l.filter (fun x => (x.2 / shortestPathlen : ℚ) ≤ 135 / 100)

/-- The start trees that are cached; `none` where an assertion or a division fails. -/
def populateTopkCache (fuel : ℕ) (G : PortGraph V E) (shortestPaths : V → V → ℕ)
    (fwdtables : List (TableFile V E)) (src dst : V) (draw : ℕ) :
    Option (List (StartTree V E)) := do
  guard (src ≠ dst)
  let forest ← fwdtables.mapM (startTreesIn src dst)
  let forest := shuffle draw forest.flatten
  let l ← forest.mapM (fun x => (startPathLen fuel G src dst x).map (Prod.mk x))
  let l := l.insertionSort (fun x y => x.2 ≤ y.2)
  let best ← l.head?
  guard (shortestPaths src dst ≠ 0)
  some (((goodTrees (shortestPaths src dst) best.2 l).take 8).map Prod.fst)

/-! ### What is kept -/

/-- The start trees of all tables. -/
def startTrees (fwdtables : List (TableFile V E)) (src dst : V) : List (StartTree V E) :=
  fwdtables.flatMap (fun fwdtable =>
    ((fwdtable dst).entries src none).map (fun entry => (fwdtable, entry.ntree)))

/-- A path is good enough, or none is and it is one of the best. -/
def IsGood (shortestPathlen : ℕ) (len : StartTree V E → ℕ) (starts : List (StartTree V E))
    (x : StartTree V E) : Prop :=
  (len x / shortestPathlen : ℚ) ≤ 135 / 100 ∨
    (∀ y ∈ starts, (135 / 100 : ℚ) < len y / shortestPathlen) ∧ ∀ y ∈ starts, len x ≤ len y

/-- The kept start trees are at most eight good ones, and no better one is left out. -/
structure IsTopK (shortestPathlen : ℕ) (len : StartTree V E → ℕ)
    (starts topk : List (StartTree V E)) : Prop where
  ne_nil : topk ≠ []
  length_le : topk.length ≤ 8
  good : ∀ x ∈ topk, IsGood shortestPathlen len starts x
  rest : ∃ rest, (topk ++ rest).Perm starts ∧ ∀ y ∈ rest, IsGood shortestPathlen len starts y →
    topk.length = 8 ∧ ∀ x ∈ topk, len x ≤ len y

section Kept

variable {shortestPathlen : ℕ} {len : StartTree V E → ℕ} {starts : List (StartTree V E)}
  {l : List (StartTree V E)}

omit [DecidableEq V] [DecidableEq E] in
/-- Of sorted candidates the good ones are those that `goodTrees` keeps. -/
lemma mem_goodTrees {first : StartTree V E} {rest : List (StartTree V E)} (hl : l = first :: rest)
    (hperm : l.Perm starts) (hsorted : l.Pairwise (fun x y => len x ≤ len y))
    {x : StartTree V E} (hx : x ∈ l) :
    (if (135 / 100 : ℚ) < len first / shortestPathlen then len x = len first
      else (len x / shortestPathlen : ℚ) ≤ 135 / 100) ↔ IsGood shortestPathlen len starts x := by
  have hbest : ∀ y ∈ starts, len first ≤ len y := by
    intro y hy
    rw [hl] at hsorted hperm
    rcases List.mem_cons.mp (hperm.mem_iff.mpr hy) with rfl | hy
    · exact le_rfl
    · exact (List.pairwise_cons.mp hsorted).1 y hy
  have hquot : ∀ y ∈ starts, (len first / shortestPathlen : ℚ) ≤ len y / shortestPathlen :=
    fun y hy => div_le_div_of_nonneg_right (by exact_mod_cast hbest y hy) (Nat.cast_nonneg _)
  have hfirst : first ∈ starts := hperm.mem_iff.mp (hl ▸ List.mem_cons_self)
  have hx' : x ∈ starts := hperm.mem_iff.mp hx
  split
  · rename_i hbad
    constructor
    · exact fun heq => .inr ⟨fun y hy => hbad.trans_le (hquot y hy),
        fun y hy => heq ▸ hbest y hy⟩
    · rintro (hle | ⟨-, hle⟩)
      · exact absurd ((hquot x hx').trans hle) (not_le.mpr hbad)
      · exact le_antisymm (hle first hfirst) (hbest x hx')
  · rename_i hok
    constructor
    · exact .inl
    · rintro (hle | ⟨hall, -⟩)
      · exact hle
      · exact absurd (hall first hfirst) hok

omit [DecidableEq V] [DecidableEq E] in
/-- The first eight of the good ones, sorted by their lengths. -/
lemma IsTopK.of_sorted {p : StartTree V E → Bool} (hperm : l.Perm starts)
    (hsorted : l.Pairwise (fun x y => len x ≤ len y))
    (hne : ∃ x ∈ l, IsGood shortestPathlen len starts x)
    (hp : ∀ x ∈ l, p x = true ↔ IsGood shortestPathlen len starts x) :
    IsTopK shortestPathlen len starts ((l.filter p).take 8) where
  ne_nil := by
    obtain ⟨x, hx, hgood⟩ := hne
    rw [ne_eq, List.take_eq_nil_iff, not_or]
    exact ⟨by decide, List.ne_nil_of_mem (List.mem_filter.mpr ⟨hx, (hp x hx).mpr hgood⟩)⟩
  length_le := List.length_take_le _ _
  good x hx := by
    obtain ⟨hx, hpx⟩ := List.mem_filter.mp (List.mem_of_mem_take hx)
    exact (hp x hx).mp hpx
  rest := by
    refine ⟨(l.filter p).drop 8 ++ l.filter (fun x => !p x), ?_, fun y hy hgood => ?_⟩
    · rw [← List.append_assoc, List.take_append_drop]
      exact (List.filter_append_perm p l).trans hperm
    · -- a good one that is left out comes after eight others
      have hdrop : y ∈ (l.filter p).drop 8 := by
        refine (List.mem_append.mp hy).resolve_right fun hy => ?_
        obtain ⟨hy, hpy⟩ := List.mem_filter.mp hy
        rw [(hp y hy).mpr hgood] at hpy
        cases hpy
      have hlen := List.length_pos_of_mem hdrop
      rw [List.length_drop] at hlen
      refine ⟨by rw [List.length_take]; omega, fun x hx => ?_⟩
      have hfilter := hsorted.filter p
      rw [← List.take_append_drop 8 (l.filter p), List.pairwise_append] at hfilter
      exact hfilter.2.2 x hx y hdrop

end Kept

/-! ### The run -/

section Run

variable {G : PortGraph V E} {shortestPaths : V → V → ℕ} {fwdtables : List (TableFile V E)}
  {src dst : V} {len : StartTree V E → ℕ}

omit [DecidableEq V] [DecidableEq E] in
lemma mapM_startTreesIn (h : ∀ fwdtable ∈ fwdtables, (fwdtable dst).entries src none ≠ []) :
    fwdtables.mapM (startTreesIn src dst) = some (fwdtables.map (fun fwdtable =>
      ((fwdtable dst).entries src none).map (fun entry => (fwdtable, entry.ntree)))) :=
  mapM_eq_map fun fwdtable hf => if_pos (List.length_pos_iff.mpr (h fwdtable hf))

lemma startPathLen_mono {fuel fuel' n : ℕ} {x : StartTree V E} (hle : fuel ≤ fuel')
    (h : startPathLen fuel G src dst x = some n) : startPathLen fuel' G src dst x = some n := by
  obtain ⟨r, hrun, h⟩ := Option.bind_eq_some_iff.mp h
  exact Option.bind_eq_some_iff.mpr ⟨r, fwdtableWalkPathInternal_mono hle hrun, h⟩

/-- Enough steps for all start trees. -/
lemma exists_startPathLens {l : List (StartTree V E)}
    (h : ∀ x ∈ l, ∃ fuel, startPathLen fuel G src dst x = some (len x)) :
    ∃ passes, ∀ fuel, passes ≤ fuel → ∀ x ∈ l, startPathLen fuel G src dst x = some (len x) := by
  induction l with
  | nil => exact ⟨0, fun _ _ x hx => absurd hx List.not_mem_nil⟩
  | cons y l ih =>
    obtain ⟨hy, hl⟩ := List.forall_mem_cons.mp h
    obtain ⟨fuel₁, hy⟩ := hy
    obtain ⟨passes, ih⟩ := ih hl
    refine ⟨max fuel₁ passes, fun fuel hfuel => List.forall_mem_cons.mpr ⟨?_, ?_⟩⟩
    · exact startPathLen_mono ((le_max_left ..).trans hfuel) hy
    · exact ih fuel ((le_max_right ..).trans hfuel)

omit [DecidableEq V] [DecidableEq E] in
lemma startTrees_ne_nil (hne : fwdtables ≠ [])
    (hstart : ∀ fwdtable ∈ fwdtables, (fwdtable dst).entries src none ≠ []) :
    startTrees fwdtables src dst ≠ [] := by
  obtain ⟨fwdtable, hf⟩ := List.exists_mem_of_ne_nil _ hne
  obtain ⟨entry, he⟩ := List.exists_mem_of_ne_nil _ (hstart fwdtable hf)
  exact List.ne_nil_of_mem (List.mem_flatMap.mpr ⟨fwdtable, hf, List.mem_map_of_mem he⟩)

omit [DecidableEq V] [DecidableEq E] in
lemma goodTrees_map (d best : ℕ) (l : List (StartTree V E)) :
    (goodTrees d best (l.map (fun x => (x, len x)))).map Prod.fst =
      l.filter (fun x => if (135 / 100 : ℚ) < best / d then len x = best
        else (len x / d : ℚ) ≤ 135 / 100) := by
  rw [goodTrees]
  split <;> simp [List.filter_map, Function.comp_def]

/-- With a start tree in every table the best are cached, if there are enough steps. -/
lemma exists_topk (hsrc : src ≠ dst) (hne : fwdtables ≠ [])
    (hstart : ∀ fwdtable ∈ fwdtables, (fwdtable dst).entries src none ≠ [])
    (hdist : shortestPaths src dst ≠ 0) (len : StartTree V E → ℕ) (draw : ℕ) :
    ∃ topk, IsTopK (shortestPaths src dst) len (startTrees fwdtables src dst) topk ∧
      ∀ fuel, (∀ x ∈ startTrees fwdtables src dst, startPathLen fuel G src dst x = some (len x)) →
        populateTopkCache fuel G shortestPaths fwdtables src dst draw = some topk := by
  let starts := startTrees fwdtables src dst
  let forest := shuffle draw starts
  let l := (forest.map (fun x => (x, len x))).insertionSort (fun x y => x.2 ≤ y.2)
  -- the pairs are sorted by their second components, which are the lengths
  have hpairs : l = (l.map Prod.fst).map (fun x => (x, len x)) := by
    rw [List.map_map]
    refine (List.map_id l).symm.trans (List.map_congr_left fun x hx => ?_)
    obtain ⟨y, -, rfl⟩ := List.mem_map.mp ((List.mem_insertionSort _).mp hx)
    rfl
  have hperm : (l.map Prod.fst).Perm starts := by
    have h := (List.perm_insertionSort (fun x y : StartTree V E × ℕ => x.2 ≤ y.2)
      (forest.map (fun x => (x, len x)))).map Prod.fst
    rw [List.map_map] at h
    exact (h.trans (List.Perm.of_eq (List.map_id forest))).trans (shuffle_perm draw starts)
  have hsorted : (l.map Prod.fst).Pairwise (fun x y => len x ≤ len y) := by
    have htotal : Std.Total (fun x y : StartTree V E × ℕ => x.2 ≤ y.2) :=
      ⟨fun x y => le_total x.2 y.2⟩
    have htrans : IsTrans (StartTree V E × ℕ) (fun x y => x.2 ≤ y.2) := ⟨fun _ _ _ => le_trans⟩
    have h : l.Pairwise (fun x y => x.2 ≤ y.2) := List.pairwise_insertionSort ..
    rw [hpairs, List.pairwise_map] at h
    exact h
  obtain ⟨first, rest, hl⟩ := List.exists_cons_of_ne_nil (show l.map Prod.fst ≠ [] by
    rw [ne_eq, ← List.length_eq_zero_iff, hperm.length_eq, List.length_eq_zero_iff]
    exact startTrees_ne_nil hne hstart)
  have hhead : l.head? = some (first, len first) := by
    rw [hpairs, hl]
    rfl
  refine ⟨((goodTrees (shortestPaths src dst) (len first) l).take 8).map Prod.fst, ?_,
    fun fuel hlen => ?_⟩
  · rw [List.map_take, hpairs, goodTrees_map]
    have hfirst : first ∈ l.map Prod.fst := hl ▸ List.mem_cons_self
    refine IsTopK.of_sorted hperm hsorted ⟨first, hfirst, ?_⟩ fun x hx => ?_
    · refine (mem_goodTrees hl hperm hsorted hfirst).mp ?_
      split
      · rfl
      · exact not_lt.mp ‹_›
    · refine Iff.trans ?_ (mem_goodTrees hl hperm hsorted hx)
      split <;> exact decide_eq_true_iff
  · have hlens : forest.mapM (fun x => (startPathLen fuel G src dst x).map (Prod.mk x)) =
        some (forest.map (fun x => (x, len x))) :=
      mapM_eq_map fun x hx => by rw [hlen x (mem_shuffle.mp hx), Option.map_some]
    have hforest : (fwdtables.map (fun fwdtable =>
        ((fwdtable dst).entries src none).map (fun entry => (fwdtable, entry.ntree)))).flatten =
        starts := List.flatMap_def.symm
    rw [populateTopkCache]
    simp only [guard, if_pos hsrc, if_pos hdist, mapM_startTreesIn hstart, Option.bind_eq_bind,
      Option.bind_some, hforest, Option.pure_def]
    refine Option.bind_eq_some_iff.mpr ⟨_, hlens, ?_⟩
    exact Option.bind_eq_some_iff.mpr ⟨_, hhead, rfl⟩

/-- `iG.shortest_paths()`: the lengths of shortest paths. -/
def IsDistances (G : PortGraph V E) (shortestPaths : V → V → ℕ) : Prop :=
  ∀ x y p, Shortest (upAdj G ∅) x p y → shortestPaths x y = p.length

lemma IsDistances.le_length (h : IsDistances G shortestPaths) {hops : List ℕ}
    (hl : G.Leads ∅ src hops dst) : shortestPaths src dst ≤ hops.length := by
  obtain ⟨p, hp, hlen⟩ := edgeWalk_of_leads hl
  obtain ⟨q, hq⟩ := exists_shortest ⟨p, hp⟩
  rw [h src dst q hq, ← hlen]
  exact hq.2 p hp

lemma IsDistances.ne_zero (h : IsDistances G shortestPaths) {hops : List ℕ}
    (hl : G.Leads ∅ src hops dst) (hne : src ≠ dst) : shortestPaths src dst ≠ 0 := by
  obtain ⟨p, hp, -⟩ := edgeWalk_of_leads hl
  obtain ⟨q, hq⟩ := exists_shortest ⟨p, hp⟩
  rw [h src dst q hq, ne_eq, List.length_eq_zero_iff]
  rintro rfl
  exact hne hq.1

/-- The number of hops that a packet makes without failures. -/
def IsStartPathLen (G : PortGraph V E) (src dst : V) (x : StartTree V E) (n : ℕ) : Prop :=
  ∃ fuel hops, fwdtableWalkPathInternal fuel G src dst (x.1 dst) x.2 ∅ ∅ = some (some hops, false) ∧
    G.Leads ∅ src hops dst ∧ hops.length = n

/-- Packets that start on a tree of a table that serves the destination are delivered. -/
lemma exists_isStartPathLen (hserves : ∀ fwdtable ∈ fwdtables, (fwdtable dst).Serves G dst)
    {x : StartTree V E} (hx : x ∈ startTrees fwdtables src dst) :
    ∃ n, IsStartPathLen G src dst x n := by
  obtain ⟨fwdtable, hf, hx⟩ := List.mem_flatMap.mp hx
  obtain ⟨entry, hentry, rfl⟩ := List.mem_map.mp hx
  obtain ⟨fuel, hops, hrun⟩ := (hserves fwdtable hf).delivers src entry hentry
  obtain ⟨⟨fuel', result, failExp, hrun', hleads⟩, -⟩ :=
    (hserves fwdtable hf).walksEnd ∅ src entry hentry
  have heq := fwdtableWalkPathInternal_unique hrun hrun'
  exact ⟨hops.length, fuel, hops, hrun, hleads hops (Prod.ext_iff.mp heq).1.symm, rfl⟩

/-- Over tables that serve the destination the best start trees are cached. -/
lemma exists_topk_of_serves (hserves : ∀ fwdtable ∈ fwdtables, (fwdtable dst).Serves G dst)
    (hne : fwdtables ≠ [])
    (hstart : ∀ fwdtable ∈ fwdtables, (fwdtable dst).entries src none ≠ [])
    (hdist : IsDistances G shortestPaths) (hsrc : src ≠ dst) :
    ∃ len : StartTree V E → ℕ,
      (∀ x ∈ startTrees fwdtables src dst, IsStartPathLen G src dst x (len x)) ∧
      ∃ passes, ∀ draw, ∃ topk,
        IsTopK (shortestPaths src dst) len (startTrees fwdtables src dst) topk ∧
        ∀ fuel, passes ≤ fuel →
          populateTopkCache fuel G shortestPaths fwdtables src dst draw = some topk := by
  have hlens : ∀ x : StartTree V E, ∃ n, x ∈ startTrees fwdtables src dst →
      IsStartPathLen G src dst x n := fun x => by
    by_cases hx : x ∈ startTrees fwdtables src dst
    · exact (exists_isStartPathLen hserves hx).imp fun _ hn _ => hn
    · exact ⟨0, fun h => absurd h hx⟩
  choose len hlen using hlens
  obtain ⟨x, hx⟩ := List.exists_mem_of_ne_nil _ (startTrees_ne_nil hne hstart)
  obtain ⟨_, hops, -, hleads, -⟩ := hlen x hx
  have hpath : ∀ x ∈ startTrees fwdtables src dst,
      ∃ fuel, startPathLen fuel G src dst x = some (len x) := fun x hx => by
    obtain ⟨fuel, hops, hrun, -, hn⟩ := hlen x hx
    exact ⟨fuel, Option.bind_eq_some_iff.mpr ⟨_, hrun, congrArg some hn⟩⟩
  obtain ⟨passes, hpasses⟩ := exists_startPathLens hpath
  refine ⟨len, hlen, passes, fun draw => ?_⟩
  obtain ⟨topk, htopk, hrun⟩ :=
    exists_topk (G := G) hsrc hne hstart (hdist.ne_zero hleads hsrc) len draw
  exact ⟨topk, htopk, fun fuel hfuel => hrun fuel (hpasses fuel hfuel)⟩

/-- For tables that are built over spanning trees, and whatever order the start trees are
shuffled into: at most eight of them are cached, each either at most 1.35 times as long as a
shortest path or, if there is no such tree, as short as any. One that is as good is left out only
for eight that are not longer. -/
theorem populateTopkCache_best {getShortestPath : Adj V E → V → V → List E}
    (hsp : IsPathFinder getShortestPath) (hne : fwdtables ≠ [])
    (hbuilt : ∀ fwdtable ∈ fwdtables, BuiltTable G getShortestPath dst (fwdtable dst))
    (hstart : ∀ fwdtable ∈ fwdtables, (fwdtable dst).entries src none ≠ [])
    (hdist : IsDistances G shortestPaths) (hsrc : src ≠ dst) :
    ∃ len : StartTree V E → ℕ,
      (∀ x ∈ startTrees fwdtables src dst, IsStartPathLen G src dst x (len x) ∧
        shortestPaths src dst ≤ len x) ∧
      ∃ passes, ∀ draw, ∃ topk,
        IsTopK (shortestPaths src dst) len (startTrees fwdtables src dst) topk ∧
        ∀ fuel, passes ≤ fuel →
          populateTopkCache fuel G shortestPaths fwdtables src dst draw = some topk := by
  obtain ⟨len, hlen, hruns⟩ := exists_topk_of_serves
    (fun fwdtable hf => (hbuilt fwdtable hf).serves hsp) hne hstart hdist hsrc
  refine ⟨len, fun x hx => ⟨hlen x hx, ?_⟩, hruns⟩
  obtain ⟨_, hops, -, hleads, hn⟩ := hlen x hx
  exact hn ▸ hdist.le_length hleads

end Run

/-- The distances over two links. -/
def pairDistances (x y : Fin 2) : ℕ := if x = y then 0 else 1

lemma isDistances_pair : IsDistances doubleLink pairDistances := by
  intro x y p hp
  rw [pairDistances]
  by_cases hxy : x = y
  · subst hxy
    rw [if_pos rfl, hp.eq_nil, List.length_nil]
  · have hadj : ∀ x y : Fin 2, x ≠ y → ((0 : Fin 2), y) ∈ upAdj doubleLink ∅ x := by decide
    have hle := hp.2 [0] ⟨y, hadj x y hxy, rfl⟩
    rw [if_neg hxy]
    refine (le_antisymm hle (List.length_pos_iff.mpr ?_)).symm
    rintro rfl
    exact hxy hp.1

lemma builtTable_pair (dst : Fin 2) :
    BuiltTable doubleLink (bfsPath [0, 1]) dst (pairDfr dst).1 :=
  .edstDfr (fun T _ => (isSpanningTree_pairTree T).valid)
    (fun T _ => (isSpanningTree_pairTree T).spans dst)
    (show pairTtg.Closed by unfold Ttg.Closed; decide) insertSort_perm
    (show _ = some (pairPaths dst) from eq_some_getD _ (by revert dst; decide +kernel))
    (show _ = some (pairDfr dst) from eq_some_getD _ (by revert dst; decide +kernel))

theorem populateTopkCache_best_pair :
    ∃ passes, ∀ draw, ∃ topk, topk ≠ [] ∧ ∀ fuel, passes ≤ fuel →
      populateTopkCache fuel doubleLink pairDistances [fun _ => (pairDfr 0).1] 1 0 draw =
        some topk := by
  have hbuilt : ∀ fwdtable ∈ [fun _ => (pairDfr 0).1],
      BuiltTable doubleLink (bfsPath [0, 1]) 0 (fwdtable (0 : Fin 2)) :=
    fun fwdtable hf => List.mem_singleton.mp hf ▸ builtTable_pair 0
  have hentries : (pairDfr 0).1.entries 1 none ≠ [] := by decide +kernel
  have hstart : ∀ fwdtable ∈ [fun _ => (pairDfr 0).1],
      (fwdtable (0 : Fin 2)).entries (1 : Fin 2) none ≠ [] :=
    fun fwdtable hf => List.mem_singleton.mp hf ▸ hentries
  obtain ⟨len, -, passes, hruns⟩ := populateTopkCache_best
    (isPathFinder_bfsPath (show ∀ v : Fin 2, v ∈ [0, 1] by decide)) (List.cons_ne_nil _ []) hbuilt
    hstart isDistances_pair (by decide)
  exact ⟨passes, fun draw => (hruns draw).imp fun topk h => ⟨h.1.ne_nil, h.2⟩⟩

end ResSim
