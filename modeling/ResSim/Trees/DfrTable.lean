import ResSim.Trees.Table
import ResSim.Trees.Ttg

/-!
# Deadlock-free tables for edge-disjoint trees

The table follows a tree transition graph. Its trees are put into layers, some of them may be
dropped, and a packet on a tree may move to any tree of the same or a later layer that its
tree reaches in the full graph. The entries never mark a tree as failed.
-/

namespace ResSim

/-- How the trees of a layer are ordered at a switch. -/
inductive TtgSort where
  | perf
  | res
  deriving DecidableEq

/-- The options of a deadlock-free table. -/
structure DfrArgs extends TtgArgs where
  ttgSort : TtgSort
  maxl1 : ℤ

/-! ### Layers -/

/-- One more layer: the successors of the current one outside of it, in the arbitrary order
of a dictionary. -/
def layerStep (ttg : Ttg) (draws : ℕ → ℕ) (s : List (List ℕ) × List ℕ) :
    Step (List (List ℕ) × List ℕ) (List (List ℕ)) :=
  let (layers, currLayer) := s
  if 0 < currLayer.length then
    let successors := (ttg.es.filter (fun e => e.1 ∈ currLayer)).map Prod.snd
    let nextLayer := (successors.filter (fun aiT => aiT ∉ currLayer)).dedup
    .next (layers ++ [currLayer], shuffle (draws layers.length) nextLayer)
  else .done layers

/-- The layers of a graph; `none` where an assertion fails. More layers than trees fail the
last assertion, so the fuel is never used up. -/
def findLayers (ttg : Ttg) (draws : ℕ → ℕ) : Option (List (List ℕ)) := do
  let firstLayer := (List.range ttg.size).filter (fun iT => ttg.l1 iT)
  guard (0 < firstLayer.length)
  let layers ← Loop.run (layerStep ttg draws) (ttg.size + 2) ([], firstLayer)
  guard (layers.Pairwise (fun layer layer' => ∀ iT ∈ layer, iT ∉ layer'))
  guard ((layers.map List.length).sum = ttg.size)
  some layers

/-- `reduce`: a tree with the greatest distance, the last one among equals. -/
def worstTree (dist : ℕ → ℕ) : List ℕ → Option ℕ
  | [] => none
  | x :: xs => some (xs.foldl (fun x y => if dist y < dist x then x else y) x)

/-- Replaces trees of the first layer by the next trees outside of it while there are more
than `maxl1`. -/
def swapTrees (firstLayer : List ℕ) (dist : ℕ → ℕ) (maxl1 : ℤ) (draws : ℕ → ℕ) :
    List ℕ → List ℕ → Option (List ℕ)
  | topTrees, [] => some topTrees
  | topTrees, newt :: rest =>
    let l0trees := shuffle (draws rest.length) (firstLayer.filter (fun iT => iT ∈ topTrees))
    if maxl1 < l0trees.length then do
      let badt ← worstTree dist l0trees
      swapTrees firstLayer dist maxl1 draws
        (if newt ∈ firstLayer then topTrees else newt :: topTrees.erase badt) rest
    else some topTrees

/-- The layers without the trees that were not selected. -/
def restrictLayers (topTrees : List ℕ) (layers : List (List ℕ)) : List (List ℕ) :=
  (layers.map (fun layer => layer.filter (fun iT => iT ∈ topTrees))).filter
    (fun layer => 0 < layer.length)

/-- A layer of its own for every tree, in the order of the line. -/
def lineLayers (layers : List (List ℕ)) : List (List ℕ) :=
  (layers.flatten.insertionSort (· ≤ ·)).map (fun iT => [iT])

/-- The bound on the first layer, with the hacks for the random types and the line. -/
def maxl1Of (args : DfrArgs) (numTrees : ℕ) : ℤ :=
  match args.ttgType with
  | .rand => numTrees - args.randRes
  | .maxdag => numTrees - args.randRes
  | .line => numTrees
  | _ => args.maxl1

/-- Keeps `numTrees` trees, those that are closer to the destination on average. The average
is compared by the sum, as all are over the same switches. -/
def selectLayers (args : DfrArgs) (ttg : Ttg) (numTrees : ℕ) (layers : List (List ℕ))
    (dist : ℕ → ℕ) (draws : ℕ → ℕ) : Option (List (List ℕ)) := do
  let isRand : Bool := args.ttgType = .rand ∨ args.ttgType = .maxdag
  let avgLayerDistance := layers.flatten.insertionSort (fun x y => dist x ≤ dist y)
  guard (isRand → 0 < maxl1Of args numTrees)
  let topTrees ← swapTrees (layers.headD []) dist (maxl1Of args numTrees) draws
    (avgLayerDistance.take numTrees) (avgLayerDistance.drop numTrees)
  let nlayers := restrictLayers topTrees layers
  guard (0 < nlayers.length)
  let layers :=
    if args.ttgType = .line ∧ 1 < (nlayers.headD []).length then lineLayers nlayers else nlayers
  guard (isRand → (layers.length : ℤ) = args.randRes + 1 ∧
    ∀ x ∈ layers.zipIdx, (∀ iT ∈ x.1, ttg.r iT = x.2) ∧
      if 0 < x.2 then x.1.length = 1 else (x.1.length : ℤ) = numTrees - args.randRes)
  guard (args.ttgType = .line → ∀ layer ∈ layers, layer.length = 1)
  some layers

variable {V E : Type} [DecidableEq V]

/-- The layers of the table for a forest of `n` trees. -/
def dfrLayers (G : PortGraph V E) (n : ℕ) (fpaths : V → ℕ → List ℕ) (ttg : Ttg) (args : DfrArgs)
    (draws : ℕ → ℕ) : Option (List (List ℕ)) := do
  guard (0 < n ∧ n = ttg.size ∧ isDag ttg.es)
  guard ((n : ℤ) < args.numTrees → 0 < args.maxl1)
  let numTrees := min args.numTrees n
  let layers ← findLayers ttg draws
  guard (numTrees ≠ 0)
  if 0 < numTrees then
    selectLayers args ttg numTrees.toNat layers
      (fun iT => (G.verts.map (fun v => (fpaths v iT).length)).sum) draws
  else some layers

/-! ### Entries -/

/-- How two trees of a layer compare. -/
def cmpTrees (ttg : Ttg) (layerDistance : ℕ → ℕ) : TtgSort → ℕ → ℕ → Ordering
  | .perf, x, y => compare (layerDistance x) (layerDistance y)
  | .res, x, y => if ttg.reach x y then .lt else if ttg.reach y x then .gt else .eq

/-- The layers at one switch: each in random order and then sorted. -/
def sortLayers (sort : (ℕ → ℕ → Ordering) → List ℕ → List ℕ) (cmp : ℕ → ℕ → Ordering)
    (draw : ℕ → ℕ) (layers : List (List ℕ)) : List (List ℕ) :=
  layers.mapIdx (fun i layer => sort cmp (shuffle (draw i) layer))

/-- The trees to which a packet on `iT` may move, in the order of the layers. -/
def dfrSuccessors (ttg : Ttg) (layers : List (List ℕ)) (iT : ℕ) : List ℕ :=
  (layers.drop (levelOf layers iT)).flatten.filter (fun x => iT ≠ x ∧ ttg.reach iT x)

/-- The entries for packets on the tree `iT`. -/
def dfrEntries (G : PortGraph V E) (fpaths : V → ℕ → List ℕ) (v : V) (ttg : Ttg)
    (layers : List (List ℕ)) (iT : ℕ) : Option (List (FwdEntry ℕ E)) :=
  (iT :: dfrSuccessors ttg layers iT).mapM (fun aiT => treeEntry G fpaths v aiT [])

/-- The links over which a packet on a tree may arrive, and none for its start. -/
def inboundE [DecidableEq E] (iT : ITree V E) (v : V) (e : E) : List (Option E) :=
  ((iT.es.filter (fun ie => (ie.1 = v ∨ ie.2.1 = v) ∧ ie.2.2 ≠ e)).map
    (fun ie => some ie.2.2)) ++ [none]

/-- The entries of a switch if packets carry no tree: they are keyed by the inbound link. -/
def nopkthdrEntries [DecidableEq E] (iT : ITree V E) (v : V) (entries : List (FwdEntry ℕ E)) :
    List (Option E × FwdEntry ℕ E) :=
  match entries with
  | [] => []
  | entry :: _ => entries.flatMap (fun x => (inboundE iT v entry.ue).map (fun inE => (inE, x)))

/-- The tables of all switches, with and without tree headers; `none` where an assertion
fails. -/
def edstFwdtableDfr [DecidableEq E] (G : PortGraph V E) (tree : ℕ → ITree V E) (n : ℕ)
    (getShortestPath : Adj V E → V → V → List E)
    (sort : (ℕ → ℕ → Ordering) → List ℕ → List ℕ) (fpaths : V → ℕ → List ℕ) (ttg : Ttg)
    (dst : V) (args : DfrArgs) (draws : ℕ → ℕ) (draw : V → ℕ → ℕ) :
    Option (Fwdtable V ℕ E × (V → List (Option E × FwdEntry ℕ E))) := do
  let layers ← dfrLayers G n fpaths ttg args draws
  let layersAt := fun v => sortLayers sort (cmpTrees ttg
    (fun iT => (getShortestPath (tree iT).adj v dst).length) args.ttgSort) (draw v) layers
  guard (args.ttgSort = .res → ∀ layer ∈ layers, layer.Pairwise (fun iT iT' =>
    ttg.reach iT iT' = false ∨ ttg.reach iT' iT = false))
  let fwdtable ← tableOf G dst (fun v =>
    switchTable G fpaths v ((layersAt v).headD []) (layersAt v).flatten
      (dfrEntries G fpaths v ttg (layersAt v)))
  let nopkthdrFwdtable ← tableOf G dst (fun v =>
    ((layersAt v).flatten.mapM (fun iT =>
      (dfrEntries G fpaths v ttg (layersAt v) iT).map (nopkthdrEntries (tree iT) v))).map
        List.flatten)
  some (fwdtable, nopkthdrFwdtable)

/-! ### What the layers are -/

/-- Edges join trees of the forest. -/
def Ttg.Closed (ttg : Ttg) : Prop := ∀ e ∈ ttg.es, e.1 < ttg.size ∧ e.2 < ttg.size

/-- Layers over `n` trees: no tree stands twice, and no layer is empty. -/
structure IsLayering (n : ℕ) (layers : List (List ℕ)) : Prop where
  nodup : layers.flatten.Nodup
  lt : ∀ iT ∈ layers.flatten, iT < n
  ne_nil : ∀ layer ∈ layers, layer ≠ []
  nonempty : layers ≠ []

section Layers

variable {ttg : Ttg} {draws : ℕ → ℕ} {layers : List (List ℕ)} {n : ℕ}

lemma findLayers_isLayering (hc : ttg.Closed) (h : findLayers ttg draws = some layers) :
    IsLayering ttg.size layers := by
  obtain ⟨_, hfirst, h⟩ := Option.bind_eq_some_iff.mp h
  obtain ⟨layers', hrun, h⟩ := Option.bind_eq_some_iff.mp h
  obtain ⟨_, hdis, h⟩ := Option.bind_eq_some_iff.mp h
  obtain ⟨_, _, h⟩ := Option.bind_eq_some_iff.mp h
  rw [Option.guard_eq_some'] at hfirst hdis
  obtain rfl : layers' = layers := Option.some.inj h
  let Fine : List ℕ → Prop := fun layer => layer.Nodup ∧ ∀ iT ∈ layer, iT < ttg.size
  let Inv : List (List ℕ) × List ℕ → Prop := fun s => (∀ layer ∈ s.1, Fine layer ∧ layer ≠ []) ∧
    Fine s.2 ∧ (s.1 = [] → s.2 ≠ [])
  have hpost := Loop.Returns.post Inv (fun layers => (∀ layer ∈ layers, Fine layer ∧ layer ≠ []) ∧
    layers ≠ []) ?_ ?_ ⟨_, hrun⟩ ⟨by simp, ⟨?_, ?_⟩, fun _ => List.length_pos_iff.mp hfirst⟩
  · obtain ⟨hfine, hne⟩ := hpost
    refine ⟨List.nodup_flatten.mpr ⟨fun l hl => (hfine l hl).1.1, hdis.imp ?_⟩, ?_,
      fun l hl => (hfine l hl).2, hne⟩
    · exact fun h x hx hx' => h x hx hx'
    · intro iT hiT
      obtain ⟨l, hl, hmem⟩ := List.mem_flatten.mp hiT
      exact (hfine l hl).1.2 iT hmem
  · rintro ⟨done, curr⟩ s' ⟨hdone, hcurr, hnil⟩ hn
    rw [layerStep] at hn
    split at hn
    · rename_i hpos
      cases hn
      refine ⟨List.forall_mem_append.mpr ⟨hdone, List.forall_mem_singleton.mpr
        ⟨hcurr, List.length_pos_iff.mp hpos⟩⟩, ⟨?_, ?_⟩, fun h => by simp at h⟩
      · exact (shuffle_perm _ _).nodup_iff.mpr (List.nodup_dedup _)
      · intro iT hiT
        rw [mem_shuffle, List.mem_dedup] at hiT
        obtain ⟨e, he, rfl⟩ := List.mem_map.mp (List.mem_filter.mp hiT).1
        exact (hc e (List.mem_filter.mp he).1).2
    · cases hn
  · rintro ⟨done, curr⟩ r ⟨hdone, _, hnil⟩ hd
    rw [layerStep] at hd
    split at hd
    · cases hd
    · rename_i hpos
      cases hd
      exact ⟨hdone, fun h => hpos (List.length_pos_iff.mpr (hnil h))⟩
  · exact List.nodup_range.filter _
  · exact fun iT hiT => List.mem_range.mp (List.mem_filter.mp hiT).1

lemma restrictLayers_flatten (topTrees : List ℕ) (layers : List (List ℕ)) :
    (restrictLayers topTrees layers).flatten =
      layers.flatten.filter (fun iT => iT ∈ topTrees) := by
  induction layers with
  | nil => rfl
  | cons a layers ih =>
    rw [restrictLayers] at ih
    rw [restrictLayers, List.map_cons, List.filter_cons, List.flatten_cons, List.filter_append,
      ← ih]
    split
    · rfl
    · rename_i hnil
      rw [decide_eq_true_iff, List.length_pos_iff, not_not] at hnil
      rw [hnil, List.nil_append]

lemma IsLayering.restrict (h : IsLayering n layers) {topTrees : List ℕ}
    (hne : restrictLayers topTrees layers ≠ []) : IsLayering n (restrictLayers topTrees layers) := by
  refine ⟨?_, fun iT hiT => ?_, fun layer hl => ?_, hne⟩
  · rw [restrictLayers_flatten]
    exact h.nodup.filter _
  · rw [restrictLayers_flatten] at hiT
    exact h.lt iT (List.mem_filter.mp hiT).1
  · exact List.length_pos_iff.mp (of_decide_eq_true (List.mem_filter.mp hl).2)

lemma lineLayers_flatten (layers : List (List ℕ)) :
    (lineLayers layers).flatten = layers.flatten.insertionSort (· ≤ ·) := by
  rw [lineLayers, ← List.flatMap_def, List.flatMap_singleton']

lemma IsLayering.line (h : IsLayering n layers) : IsLayering n (lineLayers layers) := by
  have hperm : (lineLayers layers).flatten.Perm layers.flatten := by
    rw [lineLayers_flatten]
    exact List.perm_insertionSort _ _
  refine ⟨hperm.nodup_iff.mpr h.nodup, fun iT hiT => h.lt iT (hperm.mem_iff.mp hiT), ?_, ?_⟩
  · intro layer hl
    obtain ⟨iT, _, rfl⟩ := List.mem_map.mp hl
    exact List.cons_ne_nil _ _
  · intro hnil
    rw [hnil, List.flatten_nil] at hperm
    obtain ⟨l, hl⟩ := List.exists_mem_of_ne_nil _ h.nonempty
    obtain ⟨iT, hiT⟩ := List.exists_mem_of_ne_nil _ (h.ne_nil l hl)
    exact List.not_mem_nil (hperm.mem_iff.mpr (List.mem_flatten.mpr ⟨l, hl, hiT⟩))

/-- The selection keeps some trees in their layers, or gives every kept tree of a line a layer
of its own. -/
lemma selectLayers_cases {args : DfrArgs} {numTrees : ℕ} {dist : ℕ → ℕ}
    {layers' : List (List ℕ)}
    (h : selectLayers args ttg numTrees layers dist draws = some layers') :
    ∃ topTrees, restrictLayers topTrees layers ≠ [] ∧
      (layers' = restrictLayers topTrees layers ∨
        args.ttgType = .line ∧ layers' = lineLayers (restrictLayers topTrees layers)) := by
  obtain ⟨_, _, h⟩ := Option.bind_eq_some_iff.mp h
  obtain ⟨topTrees, _, h⟩ := Option.bind_eq_some_iff.mp h
  obtain ⟨_, hne, h⟩ := Option.bind_eq_some_iff.mp h
  obtain ⟨_, _, h⟩ := Option.bind_eq_some_iff.mp h
  obtain ⟨_, _, h⟩ := Option.bind_eq_some_iff.mp h
  rw [Option.guard_eq_some'] at hne
  rw [Option.some.injEq] at h
  refine ⟨topTrees, List.length_pos_iff.mp hne, ?_⟩
  split at h
  · rename_i hline
    exact .inr ⟨hline.1, h.symm⟩
  · exact .inl h.symm

omit [DecidableEq V] in
/-- The layers of a table are those found in the graph, some trees of them, or single trees of
a line. -/
lemma dfrLayers_cases {G : PortGraph V E} {fpaths : V → ℕ → List ℕ} {args : DfrArgs}
    (h : dfrLayers G n fpaths ttg args draws = some layers) :
    n = ttg.size ∧ isDag ttg.es = true ∧ ∃ found, findLayers ttg draws = some found ∧
      (layers = found ∨ ∃ topTrees, restrictLayers topTrees found ≠ [] ∧
        (layers = restrictLayers topTrees found ∨
          args.ttgType = .line ∧ layers = lineLayers (restrictLayers topTrees found))) := by
  obtain ⟨_, hok, h⟩ := Option.bind_eq_some_iff.mp h
  obtain ⟨_, _, h⟩ := Option.bind_eq_some_iff.mp h
  obtain ⟨found, hfound, h⟩ := Option.bind_eq_some_iff.mp h
  obtain ⟨_, _, h⟩ := Option.bind_eq_some_iff.mp h
  rw [Option.guard_eq_some'] at hok
  refine ⟨hok.2.1, hok.2.2, found, hfound, ?_⟩
  split at h
  · exact .inr (selectLayers_cases h)
  · exact .inl (Option.some.inj h).symm

omit [DecidableEq V] in
lemma dfrLayers_isLayering {G : PortGraph V E} {fpaths : V → ℕ → List ℕ} {args : DfrArgs}
    (hc : ttg.Closed) (h : dfrLayers G n fpaths ttg args draws = some layers) :
    IsLayering n layers := by
  obtain ⟨rfl, _, found, hfound, hcases⟩ := dfrLayers_cases h
  have hl := findLayers_isLayering hc hfound
  rcases hcases with rfl | ⟨topTrees, hne, rfl | ⟨_, rfl⟩⟩
  · exact hl
  · exact hl.restrict hne
  · exact (hl.restrict hne).line

end Layers

/-! ### What the table is -/

section Built

variable {G : PortGraph V E} {tree : ℕ → ITree V E} {n : ℕ}
  {getShortestPath : Adj V E → V → V → List E}
  {sort : (ℕ → ℕ → Ordering) → List ℕ → List ℕ} {fpaths : V → ℕ → List ℕ} {ttg : Ttg} {dst : V}
  {args : DfrArgs} {draws : ℕ → ℕ} {draw : V → ℕ → ℕ} {layers layers' : List (List ℕ)}

lemma sortLayers_forall₂ (hsort : ∀ cmp l, (sort cmp l).Perm l) (cmp : ℕ → ℕ → Ordering)
    (draw : ℕ → ℕ) (layers : List (List ℕ)) :
    List.Forall₂ List.Perm (sortLayers sort cmp draw layers) layers := by
  rw [sortLayers]
  induction layers generalizing draw with
  | nil => exact .nil
  | cons a layers ih =>
    rw [List.mapIdx_cons]
    exact .cons ((hsort cmp _).trans (shuffle_perm _ a)) (ih (fun i => draw (i + 1)))

/-- Reordering the trees of each layer leaves every tree in its layer. -/
lemma levelOf_perm (h : List.Forall₂ List.Perm layers' layers) (iT : ℕ) :
    levelOf layers' iT = levelOf layers iT := by
  induction h with
  | nil => rfl
  | cons hp _ ih =>
    rw [levelOf, levelOf] at *
    rw [List.findIdx_cons, List.findIdx_cons, ih]
    simp only [hp.mem_iff]

lemma mem_flatten_drop (hn : layers.flatten.Nodup) {k x : ℕ} :
    x ∈ (layers.drop k).flatten ↔ x ∈ layers.flatten ∧ k ≤ levelOf layers x := by
  constructor
  · intro h
    obtain ⟨l, hl, hx⟩ := List.mem_flatten.mp h
    obtain ⟨j, hj⟩ := List.getElem?_of_mem hl
    rw [List.getElem?_drop] at hj
    rw [levelOf_eq hn hj hx]
    exact ⟨List.mem_flatten.mpr ⟨l, List.mem_of_getElem? hj, hx⟩, Nat.le_add_right k j⟩
  · rintro ⟨h, hle⟩
    obtain ⟨l, hl, hx⟩ := exists_getElem?_levelOf h
    refine List.mem_flatten.mpr ⟨l, ?_, hx⟩
    apply List.mem_of_getElem? (i := levelOf layers x - k)
    rw [List.getElem?_drop, Nat.add_sub_cancel' hle]
    exact hl

lemma mem_dfrSuccessors (hn : layers.flatten.Nodup) {iT x : ℕ} :
    x ∈ dfrSuccessors ttg layers iT ↔ x ∈ layers.flatten ∧
      levelOf layers iT ≤ levelOf layers x ∧ iT ≠ x ∧ ttg.reach iT x = true := by
  rw [dfrSuccessors, List.mem_filter, mem_flatten_drop hn, decide_eq_true_iff, and_assoc]

lemma flatten_sorted (hn : layers.flatten.Nodup) :
    layers.flatten.Pairwise (fun x y => levelOf layers x ≤ levelOf layers y) := by
  rw [List.pairwise_flatten]
  constructor
  · intro l hl
    obtain ⟨j, hj⟩ := List.getElem?_of_mem hl
    apply List.pairwise_of_forall_mem_list
    intro x hx y hy
    rw [levelOf_eq hn hj hx, levelOf_eq hn hj hy]
  · rw [List.pairwise_iff_getElem]
    intro i j hi hj hij x hx y hy
    rw [levelOf_eq hn (List.getElem?_eq_getElem hi) hx,
      levelOf_eq hn (List.getElem?_eq_getElem hj) hy]
    exact Nat.le_of_lt hij

variable (ttg) in
lemma dfrSuccessors_sorted (hn : layers.flatten.Nodup) (iT : ℕ) :
    (dfrSuccessors ttg layers iT).Pairwise (fun x y => levelOf layers x ≤ levelOf layers y) := by
  apply List.Pairwise.filter
  refine (flatten_sorted hn).sublist ?_
  conv_rhs => rw [← List.take_append_drop (levelOf layers iT) layers, List.flatten_append]
  exact List.sublist_append_right _ _

lemma exists_dfrEntries {v : V} {iT : ℕ} (hn : layers.flatten.Nodup) (hiT : iT ∈ layers.flatten)
    (hhop : ∀ x ∈ layers.flatten, HasHop G fpaths v x) :
    ∃ entries, dfrEntries G fpaths v ttg layers iT = some entries ∧
      Lists G fpaths v (iT :: dfrSuccessors ttg layers iT) entries ∧
      ∀ entry ∈ entries, entry.markFailed = [] :=
  exists_treeEntries (List.forall_mem_cons.mpr
    ⟨hhop iT hiT, fun x hx => hhop x ((mem_dfrSuccessors hn).mp hx).1⟩)

lemma headD_perm (h : List.Forall₂ List.Perm layers' layers) :
    (layers'.headD []).Perm (layers.headD []) := by
  cases h with
  | nil => exact List.Perm.refl _
  | cons h _ => exact h

lemma mem_flatten_of_mem_headD {x : ℕ} (h : x ∈ layers.headD []) : x ∈ layers.flatten := by
  cases layers with
  | nil => exact absurd h List.not_mem_nil
  | cons a layers => exact List.mem_append_left _ h

/-- A deadlock-free table: at every switch a packet on a tree finds that tree and then, in the
order of the layers, the trees that it reaches. -/
structure DfrTable (G : PortGraph V E) (fpaths : V → ℕ → List ℕ) (ttg : Ttg) (dst : V)
    (layers : List (List ℕ)) (layersAt : V → List (List ℕ)) (table : Fwdtable V ℕ E) : Prop where
  perm : ∀ v, List.Forall₂ List.Perm (layersAt v) layers
  lists : ∀ v, v ≠ dst → ∀ cur ∈ layers.flatten,
    Lists G fpaths v (cur :: dfrSuccessors ttg (layersAt v) cur) (table.entries v (some cur))
  unmarked : ∀ v, v ≠ dst → ∀ cur ∈ layers.flatten,
    ∀ entry ∈ table.entries v (some cur), entry.markFailed = []
  others : ∀ v cur, cur ∉ layers.flatten → table.entries v (some cur) = []
  dst_nil : ∀ cur, table.entries dst cur = []
  start : ∀ v, v ≠ dst →
    ((table.entries v none).map FwdEntry.ntree).Perm (layers.headD [])

variable (tree draw) in
/-- With spanning trees the table is built, whatever layers are selected. -/
theorem exists_dfrTable [DecidableEq E] (hsort : ∀ cmp l, (sort cmp l).Perm l) (hc : ttg.Closed)
    (hlayers : dfrLayers G n fpaths ttg args draws = some layers)
    (hpaths : ∀ iT < n, TreePaths G (tree iT).adj dst (fun v => fpaths v iT)) :
    ∃ table nopkthdr layersAt, edstFwdtableDfr G tree n getShortestPath sort fpaths ttg dst args
        draws draw = some (table, nopkthdr) ∧
      DfrTable G fpaths ttg dst layers layersAt table := by
  obtain ⟨_, hdag, _⟩ := dfrLayers_cases hlayers
  have hlay := dfrLayers_isLayering hc hlayers
  let layersAt : V → List (List ℕ) := fun v => sortLayers sort (cmpTrees ttg
    (fun iT => (getShortestPath (tree iT).adj v dst).length) args.ttgSort) (draw v) layers
  have hperm : ∀ v, List.Forall₂ List.Perm (layersAt v) layers :=
    fun v => sortLayers_forall₂ hsort _ _ _
  have hflat : ∀ v, (layersAt v).flatten.Perm layers.flatten :=
    fun v => List.Perm.flatten_congr (hperm v)
  have hn : ∀ v, (layersAt v).flatten.Nodup := fun v => (hflat v).nodup_iff.mpr hlay.nodup
  have hhop : ∀ v, v ≠ dst → ∀ x ∈ (layersAt v).flatten, HasHop G fpaths v x :=
    fun v hv x hx => (hpaths x (hlay.lt x ((hflat v).mem_iff.mp hx))).hasHop hv
  have hentries : ∀ v, v ≠ dst → ∀ cur ∈ (layersAt v).flatten, ∃ entries,
      dfrEntries G fpaths v ttg (layersAt v) cur = some entries ∧
      Lists G fpaths v (cur :: dfrSuccessors ttg (layersAt v) cur) entries ∧
      ∀ entry ∈ entries, entry.markFailed = [] :=
    fun v hv cur hcur => exists_dfrEntries (hn v) hcur (hhop v hv)
  choose! entries hrun hlists hmarks using hentries
  have hswitch : ∀ v, v ≠ dst → ∃ l, switchTable G fpaths v ((layersAt v).headD [])
      (layersAt v).flatten (dfrEntries G fpaths v ttg (layersAt v)) = some l ∧
      (∀ iT ∈ layers.flatten, keyed (some iT) l = entries v iT) ∧
      (∀ iT, iT ∉ layers.flatten → keyed (some iT) l = []) ∧
      ((keyed none l).map FwdEntry.ntree).Perm (layers.headD []) := by
    intro v hv
    obtain ⟨l, hl, hkeyed, hother, hnone⟩ := exists_switchTable (hn v)
      (fun iT hiT => hhop v hv iT (mem_flatten_of_mem_headD hiT)) (fun iT hiT => ⟨_, hrun v hv iT hiT⟩)
    refine ⟨l, hl, fun iT hiT => ?_, fun iT hiT => ?_, ?_⟩
    · have hin := (hflat v).mem_iff.mpr hiT
      exact hkeyed iT hin _ (hrun v hv iT hin)
    · exact hother iT (fun h => hiT ((hflat v).mem_iff.mp h))
    · rw [hnone]
      exact headD_perm (hperm v)
  choose! l hl hkeyed hother hnone using hswitch
  have hnop : ∀ v, v ≠ dst → ∃ l, ((layersAt v).flatten.mapM (fun iT =>
      (dfrEntries G fpaths v ttg (layersAt v) iT).map (nopkthdrEntries (tree iT) v))).map
        List.flatten = some l := by
    intro v hv
    have hone : ∀ iT ∈ (layersAt v).flatten, ∃ x,
        (dfrEntries G fpaths v ttg (layersAt v) iT).map (nopkthdrEntries (tree iT) v) = some x ∧
          True := fun iT hiT => ⟨_, by rw [hrun v hv iT hiT]; rfl, trivial⟩
    obtain ⟨xs, hxs, _⟩ := exists_mapM hone
    exact ⟨xs.flatten, by rw [hxs]; rfl⟩
  choose! nop hnop using hnop
  have hres : args.ttgSort = .res → ∀ layer ∈ layers, layer.Pairwise (fun iT iT' =>
      ttg.reach iT iT' = false ∨ ttg.reach iT' iT = false) := by
    intro _ layer hlayer
    refine ((List.nodup_flatten.mp hlay.nodup).1 layer hlayer).imp ?_
    intro x y hxy
    by_contra hno
    simp only [not_or, Bool.not_eq_false] at hno
    exact hxy ((isDag_iff.mp hdag).antisymm (reach_iff.mp hno.1) (reach_iff.mp hno.2))
  refine ⟨fun v => if v = dst then [] else l v, fun v => if v = dst then [] else nop v, layersAt,
    ?_, hperm, ?_, ?_, ?_, ?_, ?_⟩
  · refine Option.bind_eq_some_iff.mpr ⟨layers, hlayers, ?_⟩
    refine guard_bind_eq_some.mpr ⟨hres, ?_⟩
    refine Option.bind_eq_some_iff.mpr ⟨_, tableOf_eq hl, ?_⟩
    exact Option.bind_eq_some_iff.mpr ⟨_, tableOf_eq hnop, rfl⟩
  · intro v hv cur hcur
    rw [Fwdtable.entries, if_neg hv, hkeyed v hv cur hcur]
    exact hlists v hv cur ((hflat v).mem_iff.mpr hcur)
  · intro v hv cur hcur
    rw [Fwdtable.entries, if_neg hv, hkeyed v hv cur hcur]
    exact hmarks v hv cur ((hflat v).mem_iff.mpr hcur)
  · intro v cur hcur
    rw [Fwdtable.entries]
    split
    · rfl
    · exact hother v ‹_› cur hcur
  · intro cur
    rw [Fwdtable.entries, if_pos rfl]
    rfl
  · intro v hv
    rw [Fwdtable.entries, if_neg hv]
    exact hnone v hv

end Built

end ResSim
