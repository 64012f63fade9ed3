import ResSim.Trees.DfrTable
import ResSim.Trees.RandDag

/-!
# The layers of a tree transition graph

The table builder finds the layers by a breadth-first search that only leaves out the current
layer. On a graph with levels this gives the levels, so no tree stands in two layers and every
tree stands in one.
-/

namespace ResSim

open Relation

/-! ### The search finds the levels -/

section Levels

variable {ttg : Ttg} {lev : ℕ → ℕ} {draws : ℕ → ℕ}

/-- The trees of one level. -/
def levelSet (ttg : Ttg) (lev : ℕ → ℕ) (k : ℕ) : List ℕ :=
  (List.range ttg.size).filter (fun t => lev t = k)

/-- The trees from one level on. -/
def levelRest (ttg : Ttg) (lev : ℕ → ℕ) (k : ℕ) : List ℕ :=
  (List.range ttg.size).filter (fun t => k ≤ lev t)

lemma mem_levelSet {t k : ℕ} : t ∈ levelSet ttg lev k ↔ t < ttg.size ∧ lev t = k := by
  simp [levelSet]

lemma nodup_levelSet (k : ℕ) : (levelSet ttg lev k).Nodup := List.nodup_range.filter _

lemma Ttg.Leveled.next_perm (h : ttg.Leveled lev) {k : ℕ} {currLayer : List ℕ}
    (hcurr : currLayer.Perm (levelSet ttg lev k)) :
    ((((ttg.es.filter (fun e => e.1 ∈ currLayer)).map Prod.snd).filter
      (fun aiT => aiT ∉ currLayer)).dedup).Perm (levelSet ttg lev (k + 1)) := by
  rw [List.perm_ext_iff_of_nodup (List.nodup_dedup _) (nodup_levelSet _)]
  intro t
  simp only [List.mem_dedup, List.mem_filter, List.mem_map, decide_eq_true_eq, hcurr.mem_iff,
    mem_levelSet]
  constructor
  · rintro ⟨⟨⟨x, y⟩, ⟨he, hx, hlx⟩, rfl⟩, hout⟩
    dsimp only at hx hlx hout ⊢
    obtain ⟨_, hy, hstep⟩ := h.edge x y he
    refine ⟨hy, ?_⟩
    rcases hstep with hsame | hnext
    · exact absurd ⟨hy, by omega⟩ hout
    · omega
  · rintro ⟨ht, hlt⟩
    obtain ⟨x, he, hlx⟩ := h.pred t ht (by omega)
    have hlev : lev x = k := by omega
    refine ⟨⟨(x, t), ⟨he, (h.edge x t he).1, hlev⟩, rfl⟩, fun hin => ?_⟩
    omega

lemma Ttg.Leveled.lt_of_levelSet_eq_nil (h : ttg.Leveled lev) {k : ℕ}
    (hk : levelSet ttg lev k = []) : ∀ t < ttg.size, lev t < k := by
  intro t ht
  by_contra hle
  induction hl : lev t using Nat.strong_induction_on generalizing t with
  | _ l ih =>
    by_cases heq : l = k
    · have hmem : t ∈ levelSet ttg lev k := mem_levelSet.mpr ⟨ht, hl.trans heq⟩
      rw [hk] at hmem
      cases hmem
    · obtain ⟨x, he, hlx⟩ := h.pred t ht (by omega)
      exact ih (lev x) (by omega) x (h.edge x t he).1 (by omega) rfl

lemma levelRest_lt {k t : ℕ} (ht : t ∈ levelSet ttg lev k) :
    (levelRest ttg lev (k + 1)).length < (levelRest ttg lev k).length := by
  have heq : levelRest ttg lev (k + 1) = (levelRest ttg lev k).filter (fun t => k + 1 ≤ lev t) := by
    rw [levelRest, levelRest, List.filter_filter]
    apply List.filter_congr
    intro x _
    rw [← Bool.decide_and, decide_eq_decide]
    omega
  rw [mem_levelSet] at ht
  rw [heq]
  apply List.length_filter_lt_length_iff_exists.mpr
  refine ⟨t, ?_, ?_⟩
  · simp [levelRest, ht.1, ht.2]
  · simp [ht.2]

variable (draws) in
lemma Ttg.Leveled.run_layerStep (h : ttg.Leveled lev) {firstLayer : List ℕ}
    (hfirst : firstLayer.Perm (levelSet ttg lev 0)) :
    ∃ layers, Loop.run (layerStep ttg draws) (ttg.size + 2) ([], firstLayer) = some layers ∧
      List.Forall₂ List.Perm layers ((List.range layers.length).map (levelSet ttg lev)) ∧
      levelSet ttg lev layers.length = [] := by
  let Inv : List (List ℕ) × List ℕ → Prop := fun s =>
    List.Forall₂ List.Perm s.1 ((List.range s.1.length).map (levelSet ttg lev)) ∧
      s.2.Perm (levelSet ttg lev s.1.length)
  have hbody : ∀ s, Inv s →
      (∃ layers, layerStep ttg draws s = .done layers ∧
        List.Forall₂ List.Perm layers ((List.range layers.length).map (levelSet ttg lev)) ∧
        levelSet ttg lev layers.length = []) ∨
      ∃ s', layerStep ttg draws s = .next s' ∧ Inv s' ∧
        (levelRest ttg lev s'.1.length).length < (levelRest ttg lev s.1.length).length := by
    rintro ⟨layers, currLayer⟩ ⟨hlayers, hcurr⟩
    by_cases hpos : 0 < currLayer.length
    · right
      refine ⟨_, if_pos hpos, ⟨?_, ?_⟩, ?_⟩
      · simp only [List.length_append, List.length_singleton, List.range_succ, List.map_append,
          List.map_singleton]
        exact List.rel_append hlayers (.cons hcurr .nil)
      · simp only [List.length_append, List.length_singleton]
        exact (shuffle_perm _ _).trans (h.next_perm hcurr)
      · obtain ⟨t, ht⟩ := List.exists_mem_of_ne_nil _ (List.length_pos_iff.mp hpos)
        simp only [List.length_append, List.length_singleton]
        exact levelRest_lt (hcurr.mem_iff.mp ht)
    · left
      refine ⟨_, if_neg hpos, hlayers, ?_⟩
      rw [List.length_pos_iff, not_not] at hpos
      rw [hpos] at hcurr
      exact List.perm_nil.mp hcurr.symm
  have hfuel : (levelRest ttg lev 0).length < ttg.size + 2 := by
    have hle := List.length_filter_le (fun t => decide (0 ≤ lev t)) (List.range ttg.size)
    rw [List.length_range] at hle
    unfold levelRest
    omega
  exact Loop.run_of_measure (fun s => (levelRest ttg lev s.1.length).length) Inv _ hbody
    ⟨.nil, hfirst⟩ hfuel

lemma Ttg.Leveled.flatten_levels (h : ttg.Leveled lev) {k : ℕ} (hk : levelSet ttg lev k = []) :
    ((List.range k).map (levelSet ttg lev)).flatten.Perm (List.range ttg.size) := by
  rw [List.perm_ext_iff_of_nodup _ List.nodup_range]
  · intro t
    simp only [List.mem_flatten, List.mem_map, List.mem_range, exists_exists_and_eq_and,
      mem_levelSet]
    constructor
    · rintro ⟨_, _, ht, _⟩
      exact ht
    · exact fun ht => ⟨lev t, h.lt_of_levelSet_eq_nil hk t ht, ht, rfl⟩
  · rw [List.nodup_flatten, List.pairwise_map]
    constructor
    · intro l hl
      obtain ⟨i, _, rfl⟩ := List.mem_map.mp hl
      exact nodup_levelSet i
    · refine List.pairwise_lt_range.imp fun {i j} hij t hi hj => ?_
      rw [mem_levelSet] at hi hj
      omega

/-- Layers that are the levels hold every tree once. -/
lemma Ttg.Leveled.flatten_layers (h : ttg.Leveled lev) {layers : List (List ℕ)}
    (hperm : List.Forall₂ List.Perm layers ((List.range layers.length).map (levelSet ttg lev)))
    (hnil : levelSet ttg lev layers.length = []) :
    layers.flatten.Perm (List.range ttg.size) :=
  (List.Perm.flatten_congr hperm).trans (h.flatten_levels hnil)

/-- The layers that are found are pairwise disjoint and hold every tree. -/
def LayersPartition (ttg : Ttg) : Prop :=
  ∀ draws, ∃ layers, findLayers ttg draws = some layers ∧ layers.Pairwise List.Disjoint ∧
    layers.flatten.Perm (List.range ttg.size)

/-- On a graph with levels the layers are the levels, and no assertion fails. -/
theorem Ttg.Leveled.findLayers_eq (h : ttg.Leveled lev) (hpos : 0 < ttg.size)
    (draws : ℕ → ℕ) :
    ∃ layers, findLayers ttg draws = some layers ∧
      List.Forall₂ List.Perm layers ((List.range layers.length).map (levelSet ttg lev)) ∧
      levelSet ttg lev layers.length = [] := by
  have hfirst : (List.range ttg.size).filter (fun iT => ttg.l1 iT) = levelSet ttg lev 0 := by
    apply List.filter_congr
    intro t ht
    rw [Bool.eq_iff_iff, decide_eq_true_iff]
    exact h.l1 t (List.mem_range.mp ht)
  obtain ⟨layers, hrun, hperm, hnil⟩ := h.run_layerStep draws (List.Perm.refl _)
  have hflat := h.flatten_layers hperm hnil
  have hn : layers.flatten.Nodup := hflat.nodup_iff.mpr List.nodup_range
  refine ⟨layers, ?_, hperm, hnil⟩
  refine guard_bind_eq_some.mpr ⟨?_, ?_⟩
  · rw [hfirst, List.length_pos_iff]
    exact fun h0 => Nat.not_lt_zero _ (h.lt_of_levelSet_eq_nil h0 0 hpos)
  refine Option.bind_eq_some_iff.mpr ⟨layers, hfirst ▸ hrun, ?_⟩
  refine guard_bind_eq_some.mpr ⟨?_, ?_⟩
  · exact (List.nodup_flatten.mp hn).2.imp fun h t ht ht' => h ht ht'
  refine guard_bind_eq_some.mpr ⟨?_, rfl⟩
  rw [← List.length_flatten, hflat.length_eq, List.length_range]

theorem Ttg.Leveled.layersPartition (h : ttg.Leveled lev) (hpos : 0 < ttg.size) :
    LayersPartition ttg := by
  intro draws
  obtain ⟨layers, hfound, hperm, hnil⟩ := h.findLayers_eq hpos draws
  have hflat := h.flatten_layers hperm hnil
  have hn : layers.flatten.Nodup := hflat.nodup_iff.mpr List.nodup_range
  exact ⟨layers, hfound, (List.nodup_flatten.mp hn).2, hflat⟩

end Levels

/-! ### Layered graphs -/

section Layered

variable {nextWidth : ℕ → ℕ} {n l1width : ℕ}

/-- The widths are positive, and only the last layer reaches or passes `n` trees. -/
lemma exists_run_widthStep (hnext : ∀ w, 0 < nextWidth w) (hl1 : 0 < l1width) (hn : 0 < n) :
    ∃ ws, Loop.run (widthStep nextWidth n) (n + 1) [l1width] = some ws ∧ (∀ w ∈ ws, 0 < w) ∧
      ws ≠ [] ∧ ws.dropLast.sum < n ∧ n ≤ ws.sum := by
  let Inv : List ℕ → Prop := fun ws => (∀ w ∈ ws, 0 < w) ∧ ws ≠ [] ∧ ws.dropLast.sum < n
  have hbody : ∀ ws, Inv ws →
      (∃ r, widthStep nextWidth n ws = .done r ∧
        ((∀ w ∈ r, 0 < w) ∧ r ≠ [] ∧ r.dropLast.sum < n ∧ n ≤ r.sum)) ∨
      ∃ ws', widthStep nextWidth n ws = .next ws' ∧ Inv ws' ∧ n - ws'.sum < n - ws.sum := by
    rintro ws ⟨hpos, hne, hlast⟩
    unfold widthStep
    by_cases hlt : ws.sum < n
    · right
      have hw := hnext (ws.getLastD 0)
      rw [if_pos hlt]
      refine ⟨_, rfl, ⟨List.forall_mem_append.mpr ⟨hpos, List.forall_mem_singleton.mpr hw⟩,
        by simp, by rwa [List.dropLast_concat]⟩, ?_⟩
      rw [List.sum_append, List.sum_singleton]
      omega
    · left
      rw [if_neg hlt]
      exact ⟨ws, rfl, hpos, hne, hlast, by omega⟩
  exact Loop.run_of_measure (fun ws => n - ws.sum) Inv _ hbody
    ⟨List.forall_mem_singleton.mpr hl1, List.cons_ne_nil _ _, by simpa using hn⟩
    (by omega)

/-- Taking the trees that are too many out of the last layer leaves it with some. -/
lemma exists_trimLast {ws : List ℕ} (hpos : ∀ w ∈ ws, 0 < w) (hne : ws ≠ [])
    (hlast : ws.dropLast.sum < n) (hsum : n ≤ ws.sum) :
    ∃ ws', trimLast n ws = some ws' ∧ (∀ w ∈ ws', 0 < w) ∧ ws'.sum = n := by
  have hsplit : ws.sum = ws.dropLast.sum + ws.getLastD 0 := by
    conv_lhs => rw [← List.dropLast_append_getLast hne]
    rw [List.sum_append, List.sum_singleton, List.getLastD_eq_getLast?,
      List.getLast?_eq_some_getLast hne, Option.getD_some]
  by_cases hlt : n < ws.sum
  · have htrim : trimLast n ws = some (ws.dropLast ++ [ws.getLastD 0 - (ws.sum - n)]) := by
      unfold trimLast
      rw [if_pos hlt, if_pos (by omega)]
    refine ⟨_, htrim, trimLast_pos htrim hpos, ?_⟩
    rw [List.sum_append, List.sum_singleton]
    omega
  · have htrim : trimLast n ws = some ws := by
      unfold trimLast
      rw [if_neg hlt]
    exact ⟨ws, htrim, hpos, by omega⟩

/-- The edges of a layered graph lead from smaller to greater trees. -/
lemma lt_of_layered {layers : List (List ℕ)} (hsorted : layers.flatten.Pairwise (· < ·))
    (selfLayer : Bool) {x y : ℕ}
    (h : (x, y) ∈ layerEdges layers ++ (if selfLayer then layers.flatMap steps else [])) :
    x < y := by
  rw [List.pairwise_flatten] at hsorted
  rcases List.mem_append.mp h with h | h
  · obtain ⟨j, a, b, ha, hb, hx, hy⟩ := mem_layerEdges.mp h
    obtain ⟨hj, rfl⟩ := List.getElem?_eq_some_iff.mp ha
    obtain ⟨hj', rfl⟩ := List.getElem?_eq_some_iff.mp hb
    exact List.pairwise_iff_getElem.mp hsorted.2 j (j + 1) hj hj' (Nat.lt_succ_self j) x hx y hy
  · split at h
    · obtain ⟨layer, hl, h⟩ := List.mem_flatMap.mp h
      exact isChain_iff_steps.mp (hsorted.1 layer hl).isChain (x, y) h
    · cases h

/-- A layered graph is built, with positive widths that sum to the number of trees. -/
theorem exists_ttgLayeredDag (hnext : ∀ w, 0 < nextWidth w) (hl1 : 0 < l1width) (hn : 0 < n)
    (selfLayer : Bool) : ∃ widths ttg, ttgLayeredDag nextWidth n l1width selfLayer = some ttg ∧
      (∀ w ∈ widths, 0 < w) ∧ widths.sum = n ∧ ttg.size = n ∧
      ttg.es = layerEdges (layerRanges 0 widths) ++
        (if selfLayer then (layerRanges 0 widths).flatMap steps else []) ∧
      ∀ t, ttg.l1 t = true ↔ t < n ∧ t ∉ (layerEdges (layerRanges 0 widths)).map Prod.snd := by
  obtain ⟨grown, hgrown, hpos, hne, hlast, hle⟩ := exists_run_widthStep hnext hl1 hn
  obtain ⟨widths, htrim, hpos', hsum⟩ := exists_trimLast hpos hne hlast hle
  have hflat : (layerRanges 0 widths).flatten = List.range n := by
    rw [layerRanges_flatten, hsum, List.range_eq_range']
  have hsorted : (layerRanges 0 widths).flatten.Pairwise (· < ·) :=
    hflat ▸ List.pairwise_lt_range
  have hzero : 0 ∈ (List.range n).filter
      (fun v => v ∉ (layerEdges (layerRanges 0 widths)).map Prod.snd) := by
    rw [List.mem_filter, List.mem_range, decide_eq_true_iff]
    refine ⟨hn, fun h => ?_⟩
    obtain ⟨⟨x, y⟩, he, rfl⟩ := List.mem_map.mp h
    have hlt := lt_of_layered hsorted false (List.mem_append_left _ he)
    exact Nat.not_lt_zero _ hlt
  let layers := layerRanges 0 widths
  let ttg : Ttg := { ttgCommon n with
    es := layerEdges layers ++ (if selfLayer then layers.flatMap steps else [])
    l1 := fun v => v ∈ (List.range n).filter (fun v => v ∉ (layerEdges layers).map Prod.snd) }
  have hbuild : ttgLayeredDag nextWidth n l1width selfLayer = some ttg := by
    refine Option.bind_eq_some_iff.mpr ⟨grown, hgrown, ?_⟩
    refine Option.bind_eq_some_iff.mpr ⟨widths, htrim, ?_⟩
    refine guard_bind_eq_some.mpr ⟨hsum, ?_⟩
    refine guard_bind_eq_some.mpr ⟨?_, rfl⟩
    exact List.length_pos_of_mem hzero
  refine ⟨widths, ttg, hbuild, hpos', hsum, rfl, rfl, fun t => ?_⟩
  simp only [ttg, layers, decide_eq_true_iff, List.mem_filter, List.mem_range]

lemma levelOf_eq_zero {a : List ℕ} {layers : List (List ℕ)} {t : ℕ} :
    levelOf (a :: layers) t = 0 ↔ t ∈ a := by
  unfold levelOf
  rw [List.findIdx_cons]
  by_cases ht : t ∈ a <;> simp [ht]

/-- The marked trees of a layered graph are those of the first layer. -/
lemma l1_iff_mem_headD {ttg : Ttg} {layers : List (List ℕ)} (hlev : ttg.Leveled (levelOf layers))
    (hflat : layers.flatten = List.range ttg.size)
    (hlt : ∀ t, ttg.l1 t = true → t < ttg.size) (t : ℕ) :
    ttg.l1 t = true ↔ t ∈ layers.headD [] := by
  have hmem : t ∈ layers.headD [] → t < ttg.size := by
    intro ht
    rw [← List.mem_range, ← hflat]
    exact mem_flatten_of_mem_headD ht
  by_cases ht : t < ttg.size
  · rw [hlev.l1 t ht]
    cases layers with
    | nil =>
      rw [List.flatten_nil] at hflat
      have := List.mem_range.mpr ht
      rw [← hflat] at this
      cases this
    | cons a layers => exact levelOf_eq_zero
  · exact ⟨fun h => absurd (hlt t h) ht, fun h => absurd (hmem h) ht⟩

end Layered

/-! ### The other types -/

section Others

variable {n randRes : ℕ} {numTrees : ℤ}

lemma layersPartition_line (hn : 0 < n) (hne : numTrees ≠ 0) (hle : numTrees ≤ n) :
    ∃ ttg, ttgLine n numTrees = some ttg ∧ ttg.size = n ∧ LayersPartition ttg := by
  have hbuild : (ttgLine n numTrees).isSome = true := by
    unfold ttgLine
    rw [if_pos ⟨hn, hne, hle⟩]
    rfl
  obtain ⟨ttg, httg⟩ := Option.isSome_iff_exists.mp hbuild
  obtain ⟨lev, hlev⟩ := leveled_line httg
  have hsize := (ttgLine_spec httg).1
  exact ⟨ttg, httg, hsize, hlev.layersPartition (by omega)⟩

/-- The random part with the trees for resilience behind it is acyclic. -/
lemma isDag_append_resEdges {es : List (ℕ × ℕ)} (hdag : isDag es = true)
    (hes : es ⊆ completeEdges (n - randRes)) : isDag (es ++ resEdges n randRes) = true := by
  rw [isDag_iff] at *
  refine acyclic_of_level hdag (fun i => if i < n - randRes then 0 else i + 1) (fun a b hab => ?_)
    (fun a b hab => ?_)
  · have := mem_completeEdges (hes hab)
    simp [this]
  · apply (List.mem_append.mp hab).imp_right
    intro hres
    have := (mem_resEdges.mp hres).2
    split <;> split <;> omega

/-- The graph is built if the helper finds a connected acyclic graph on its trees. -/
lemma exists_ttgRandMaxDag {helper : ℕ → Option (List (ℕ × ℕ))} {es : List (ℕ × ℕ)}
    (hlt : randRes < n) (hhelper : helper (n - randRes) = some es) (hdag : isDag es = true)
    (hconn : weaklyConnected es (n - randRes) = true) (hes : es ⊆ completeEdges (n - randRes)) :
    ∃ ttg, ttgRandMaxDagCommon n randRes helper = some ttg ∧ ttg.size = n ∧
      isDag ttg.es = true := by
  let ttg : Ttg := ⟨n, es ++ resEdges n randRes, fun i => i < n - randRes,
    fun i => if i < n - randRes then 0 else i - (n - randRes) + 1⟩
  refine ⟨ttg, ?_, rfl, isDag_append_resEdges hdag hes⟩
  refine guard_bind_eq_some.mpr ⟨hlt, ?_⟩
  refine Option.bind_eq_some_iff.mpr ⟨es, hhelper, ?_⟩
  refine guard_bind_eq_some.mpr ⟨hdag, ?_⟩
  refine guard_bind_eq_some.mpr ⟨hconn, ?_⟩
  refine guard_bind_eq_some.mpr ⟨?_, rfl⟩
  intro i hi e he
  have hends := mem_completeEdges (hes he)
  rw [List.mem_range'_1] at hi
  omega

lemma layersPartition_rand (hlt : randRes < n) (rnd : Rnd) : ∃ bound, ∀ fuel, bound ≤ fuel →
    ∃ ttg, ttgRandMaxDagCommon n randRes (ttgRandDagHelper fuel n rnd) = some ttg ∧
      ttg.size = n ∧ isDag ttg.es = true ∧ LayersPartition ttg := by
  refine ⟨(n + 1) * ((completeEdges (n - randRes)).length + 2) + 1, fun fuel hfuel => ?_⟩
  obtain ⟨es, hhelper, hdag, hconn, hes⟩ :=
    ttgRandDagHelper_spec (Nat.sub_le n randRes) rnd (Nat.lt_of_succ_le hfuel)
  obtain ⟨ttg, httg, hsize, hdag'⟩ := exists_ttgRandMaxDag hlt hhelper hdag hconn hes
  have hlev := leveled_r (fun _ _ => ttgRandDagHelper_subset) httg
  exact ⟨ttg, httg, hsize, hdag', hlev.layersPartition (by omega)⟩

end Others

/-- The layered graphs are built with positive widths that sum to the number of trees, they are
acyclic, and the marked trees are those of the first layer. On them, on a line, on a graph
without edges and on a random graph the layers that are found are disjoint and hold every tree. -/
theorem layersPartition_of_types :
    (∀ nextWidth ∈ [mredNextWidth, aredNextWidth, tNextWidth], ∀ (n l1width : ℕ) (selfLayer : Bool),
      0 < n → 0 < l1width →
      ∃ widths ttg, ttgLayeredDag nextWidth n l1width selfLayer = some ttg ∧
        (∀ w ∈ widths, 0 < w) ∧ widths.sum = n ∧
        ttg.es = layerEdges (layerRanges 0 widths) ++
          (if selfLayer then (layerRanges 0 widths).flatMap steps else []) ∧
        isDag ttg.es = true ∧ (∀ t, ttg.l1 t = true ↔ t ∈ (layerRanges 0 widths).headD []) ∧
        ttg.size = n ∧ LayersPartition ttg) ∧
    (∀ (n : ℕ) (numTrees : ℤ), 0 < n → numTrees ≠ 0 → numTrees ≤ n →
      ∃ ttg, ttgLine n numTrees = some ttg ∧ ttg.size = n ∧ LayersPartition ttg) ∧
    (∀ n, 0 < n → (ttgNores n).size = n ∧ LayersPartition (ttgNores n)) ∧
    ∀ (n randRes : ℕ) (rnd : Rnd), randRes < n → ∃ bound, ∀ fuel, bound ≤ fuel →
      ∃ ttg, ttgRandMaxDagCommon n randRes (ttgRandDagHelper fuel n rnd) = some ttg ∧
        ttg.size = n ∧ isDag ttg.es = true ∧ LayersPartition ttg := by
  refine ⟨fun nextWidth hmem n l1width selfLayer hn hl1 => ?_,
    fun n numTrees hn hne hle => layersPartition_line hn hne hle,
    fun n hn => ⟨rfl, (leveled_nores n).layersPartition hn⟩,
    fun n randRes rnd hlt => layersPartition_rand hlt rnd⟩
  have hnext : ∀ w, 0 < nextWidth w := by
    simp only [List.mem_cons, List.not_mem_nil, or_false] at hmem
    intro w
    rcases hmem with rfl | rfl | rfl
    · unfold mredNextWidth
      split <;> omega
    · unfold aredNextWidth
      split <;> omega
    · exact Nat.one_pos
  obtain ⟨widths, ttg, httg, hpos, hsum, hsize, hes, hfirst⟩ :=
    exists_ttgLayeredDag hnext hl1 hn selfLayer
  have hflat : (layerRanges 0 widths).flatten = List.range n := by
    rw [layerRanges_flatten, hsum, List.range_eq_range']
  have hlev := leveled_levelOf hflat (layerRanges_ne_nil hpos) hsize hes hfirst
  have hdag : isDag ttg.es = true := by
    rw [isDag_iff]
    refine acyclic_of_rank id fun x y hxy => ?_
    rw [EdgeRel, hes] at hxy
    exact lt_of_layered (hflat ▸ List.pairwise_lt_range) selfLayer hxy
  exact ⟨widths, ttg, httg, hpos, hsum, hes, hdag,
    l1_iff_mem_headD hlev (hsize ▸ hflat) (fun t ht => hsize ▸ ((hfirst t).mp ht).1), hsize,
    hlev.layersPartition (by omega)⟩

end ResSim
