import ResSim.Lib.Branching
import ResSim.Lib.Loop
import ResSim.Lib.MinCut
import ResSim.Lib.Random
import ResSim.Trees.Adst
import ResSim.Trees.EdstForest

/-!
# Building arc-disjoint branchings

A branching from the destination is grown arc by arc in a directed graph that has both arcs of
every link. A maximum flow tells whether the trees that remain to be built can do without the
arc that was drawn. If not, another arc is drawn from beyond the minimum cut. Arcs are deleted
from the graph by their position when they are taken, so no two trees share one.
-/

namespace ResSim

variable {V E : Type} [DecidableEq V]

-- How the switches of a cut and the new vertex are compared.
local instance instLawfulBEqCut : LawfulBEq (Option V) := inferInstance

/-! ### One tree -/

/-- `iDG.to_directed(mutual=True)`: both arcs of every link. -/
def toDirected [DecidableEq E] (G : PortGraph V E) : List (V × V × E) :=
  G.links.dedup.map (fun e => (G.v1 e, G.v2 e, e)) ++
    G.links.dedup.map (fun e => (G.v2 e, G.v1 e, e))

/-- State of the loop of `adst_tree`. -/
structure AdstState (V E : Type) where
  iT : List (V × V × E)
  vT : List V
  iDG : List (V × V × E)
  rnd : Rnd

/-- `iDG.es.select`: the arcs that satisfy a condition, each with its position. -/
def selectArcs (iDG : List (V × V × E)) (p : V × V × E → Prop) [DecidablePred p] :
    List ((V × V × E) × ℕ) := iDG.zipIdx.filter (fun ie => p ie.1)

/-- Adds an arc to the tree and deletes it from the graph. -/
def AdstState.addArc (s : AdstState V E) (ie : (V × V × E) × ℕ) : AdstState V E :=
  ⟨s.iT ++ [ie.1], s.vT ++ [ie.1.2.1], s.iDG.eraseIdx ie.2, s.rnd.next.next⟩

/-- The maximum flow from `x` and `r` to `y`. The new vertex `none` has arcs to `x` and `r`. -/
def adstMaxflowXRToY (maxflow : List (Option V) → List (Option V × Option V × ℕ) →
      Option V → Option V → Flow (Option V))
    (verts : List V) (iDG : List (V × V × E)) (x r y : V) : Flow (Option V) :=
  let infinity := 1000 * (iDG.length + 2)
  maxflow (verts.map some ++ [none])
    (iDG.map (fun ie => (some ie.1, some ie.2.1, 1)) ++
      [(none, some x, infinity), (none, some r, infinity)]) none (some y)

/-- The side of the cut without `y`; `none` if there are not two sides. -/
def sourceSide (y : V) : List (List (Option V)) → Option (List (Option V))
  | [part₀, part₁] => some (if some y ∈ part₁ then part₀ else part₁)
  | _ => none

section Tree

variable (maxflow : List (Option V) → List (Option V × Option V × ℕ) →
    Option V → Option V → Flow (Option V))
  (G : PortGraph V E) (dst : V) (k : ℕ) (s : AdstState V E)

/-- The arcs that leave the tree. -/
def frontier : List ((V × V × E) × ℕ) :=
  selectArcs s.iDG (fun ie => ie.1 ∈ s.vT ∧ ie.2.1 ∉ s.vT)

/-- The arcs that leave the tree beyond the cut. -/
def eprimes (A : List (Option V)) : List ((V × V × E) × ℕ) :=
  selectArcs s.iDG (fun ie => (ie.1 ∈ s.vT ∧ some ie.1 ∉ A) ∧
    (ie.2.1 ∈ G.verts ∧ ie.2.1 ∉ s.vT) ∧ some ie.2.1 ∉ A)

/-- The flow that decides on an arc. -/
def arcFlow (ie : (V × V × E) × ℕ) : Flow (Option V) :=
  adstMaxflowXRToY maxflow G.verts s.iDG ie.1.1 dst ie.1.2.1

/-- One pass. A pass has two numbers to draw, and needs the second if the arc is replaced. The
outer `none` is a failing assertion, `some none` is `return None`. -/
def adstStep : Step (AdstState V E) (Option (Option (AdstState V E))) :=
  if s.vT.toFinset = G.verts.toFinset then .done (some (some s))
  else
    match choice (s.rnd 0) (frontier s) with
    | none => .done (some none)
    | some ie =>
      let flow := arcFlow maxflow G dst s ie
      if flow.value + 1 < k then .done (some none)
      else if flow.value < k then
        match sourceSide ie.1.2.1 flow.partition with
        | none => .done none
        | some A =>
          if none ∈ A ∧ some dst ∈ A then
            match choice (s.rnd 1) (eprimes G s A) with
            | none => .done (some none)
            | some ie' => .next (s.addArc ie')
          else .done none
      else .next (s.addArc ie)

end Tree

def adstStart (dst : V) (iDG : List (V × V × E)) (rnd : Rnd) : AdstState V E := ⟨[], [dst], iDG, rnd⟩

/-- A tree and the graph without its arcs. Every pass reaches a new switch. -/
def adstTree (maxflow : List (Option V) → List (Option V × Option V × ℕ) →
      Option V → Option V → Flow (Option V))
    (G : PortGraph V E) (dst : V) (k : ℕ) (iDG : List (V × V × E)) (rnd : Rnd) :
    Option (Option (AdstState V E)) :=
  (Loop.run (adstStep maxflow G dst k) (G.verts.length + 1) (adstStart dst iDG rnd)).join

/-! ### The forest -/

/-- `igraph_connectivity`: the least connectivity from the destination. -/
def igraphConnectivity (edgeConnectivity : List V → List (V × V) → V → V → ℕ)
    (G : PortGraph V E) (iDG : List (V × V × E)) (dst : V) : ℕ :=
  G.verts.foldl (fun connectivity v =>
    if v = dst then connectivity
    else min connectivity (edgeConnectivity G.verts (iDG.map (fun ie => (ie.1, ie.2.1))) dst v))
    iDG.length

/-- The loop of `adst_forest`, counting `k` down. -/
def adstTrees (maxflow : List (Option V) → List (Option V × Option V × ℕ) →
      Option V → Option V → Flow (Option V))
    (G : PortGraph V E) (dst : V) (numTrees : ℕ) (quitEarly : Bool) :
    ℕ → List (ITree V E) → List (V × V × E) → Rnd → Option (List (ITree V E))
  | 0, forest, _, _ => some forest
  | k + 1, forest, iDG, rnd =>
    match adstTree maxflow G dst (k + 1) iDG rnd with
    | none => none
    | some none => some forest
    | some (some s) =>
      let forest := forest ++ [⟨true, s.iT⟩]
      if quitEarly ∧ numTrees ≤ forest.length then some forest
      else adstTrees maxflow G dst numTrees quitEarly k forest s.iDG s.rnd

def adstForest [DecidableEq E] (maxflow : List (Option V) → List (Option V × Option V × ℕ) →
      Option V → Option V → Flow (Option V))
    (edgeConnectivity : List V → List (V × V) → V → V → ℕ) (G : PortGraph V E) (dst : V)
    (numTrees : ℕ) (quitEarly : Bool) (rnd : Rnd) : Option (List (ITree V E)) :=
  let iDG := toDirected G
  if quitEarly ∧ numTrees = 0 then some []
  else
    adstTrees maxflow G dst numTrees quitEarly (igraphConnectivity edgeConnectivity G iDG dst) []
      iDG rnd

/-! ### Arcs and cuts of the graph -/

section Cuts

variable {G : PortGraph V E} {iDG : List (V × V × E)} {p : V × V × E → Prop} [DecidablePred p]
  {x r y : V}

omit [DecidableEq V] in
lemma mem_selectArcs {ie : (V × V × E) × ℕ} (h : ie ∈ selectArcs iDG p) :
    p ie.1 ∧ (ie.1 :: iDG.eraseIdx ie.2).Perm iDG := by
  obtain ⟨hmem, hp⟩ := List.mem_filter.mp h
  refine ⟨of_decide_eq_true hp, ?_⟩
  have hget := List.mem_zipIdx_iff_getElem?.mp hmem
  obtain ⟨hlt, heq⟩ := List.getElem?_eq_some_iff.mp hget
  rw [← heq]
  exact List.getElem_cons_eraseIdx_perm hlt

omit [DecidableEq V] in
lemma selectArcs_ne_nil {a : V × V × E} (ha : a ∈ iDG) (hp : p a) : selectArcs iDG p ≠ [] := by
  obtain ⟨i, hlt, heq⟩ := List.getElem_of_mem ha
  apply List.ne_nil_of_mem (a := (a, i))
  unfold selectArcs
  rw [List.mem_filter, List.mem_zipIdx_iff_getElem?]
  exact ⟨List.getElem?_eq_some_iff.mpr ⟨hlt, heq⟩, decide_eq_true hp⟩

/-- The other side of a cut. -/
def sinkSide (G : PortGraph V E) (A : List (Option V)) : Finset V :=
  (G.verts.filter (fun v => some v ∉ A)).toFinset

lemma mem_sinkSide {A : List (Option V)} {v : V} : v ∈ sinkSide G A ↔ some v ∉ A := by
  simp [sinkSide, G.mem_verts]

/-- The capacity of a cut: the arcs into the other side, and those from the new vertex. -/
lemma cutCapacity_flow {A : List (Option V)} (hA : none ∈ A) (c : ℕ) :
    cutCapacity (iDG.map (fun ie => (some ie.1, some ie.2.1, 1)) ++
      [(none, some x, c), (none, some r, c)]) A =
    inDegree iDG (sinkSide G A) + ((if some x ∈ A then 0 else c) + if some r ∈ A then 0 else c) := by
  have hunit : cutCapacity (iDG.map (fun ie => (some ie.1, some ie.2.1, 1))) A =
      inDegree iDG (sinkSide G A) := by
    unfold cutCapacity inDegree
    rw [List.filter_map, List.map_map, List.countP_eq_length_filter]
    simp [Function.comp_def, mem_sinkSide]
  have happend : ∀ l l' : List (Option V × Option V × ℕ),
      cutCapacity (l ++ l') A = cutCapacity l A + cutCapacity l' A := by
    simp [cutCapacity]
  rw [happend, hunit]
  by_cases hx : some x ∈ A <;> by_cases hr : some r ∈ A <;> simp [cutCapacity, hA, hx, hr]

/-- The flow is as large as the least number of arcs that enter a set with `y` and without `x`
and `r`, and the cut is such a set. -/
theorem adstMaxflowXRToY_spec {maxflow : List (Option V) → List (Option V × Option V × ℕ) →
      Option V → Option V → Flow (Option V)} (hmf : IsMaxflow maxflow) (hxy : x ≠ y) (hry : r ≠ y) :
    let flow := adstMaxflowXRToY maxflow G.verts iDG x r y
    ∃ A, sourceSide y flow.partition = some A ∧ none ∈ A ∧ some r ∈ A ∧ some x ∈ A ∧
      some y ∉ A ∧ flow.value = inDegree iDG (sinkSide G A) ∧
      ∀ U : Finset V, y ∈ U → x ∉ U → r ∉ U → flow.value ≤ inDegree iDG U := by
  intro flow
  let es : List (Option V × Option V × ℕ) := iDG.map (fun ie => (some ie.1, some ie.2.1, 1)) ++
    [(none, some x, 1000 * (iDG.length + 2)), (none, some r, 1000 * (iDG.length + 2))]
  have hes : ∀ a ∈ es, a.1 ∈ G.verts.map some ++ [none] ∧ a.2.1 ∈ G.verts.map some ++ [none] := by
    simp only [es, List.mem_append, List.mem_map, List.mem_cons, List.not_mem_nil, or_false]
    rintro a (⟨ie, _, rfl⟩ | rfl | rfl) <;> simp [G.mem_verts]
  obtain ⟨A, B, h⟩ := hmf _ es none (some y) hes (by simp) (by simp [G.mem_verts])
    (Option.some_ne_none y).symm
  have hyA : some y ∉ A := fun hmem => h.disjoint hmem h.target
  have hside : sourceSide y flow.partition = some A := by
    rcases h.sides with hp | hp
    · exact (congrArg _ hp).trans (by simp [sourceSide, h.target])
    · exact (congrArg _ hp).trans (by simp [sourceSide, hyA])
  have hcut : ∀ U : Finset V, y ∈ U → x ∉ U → r ∉ U → flow.value ≤ inDegree iDG U := by
    intro U hy hx hr
    let A' : List (Option V) := none :: (G.verts.filter (fun v => v ∉ U)).map some
    have hmem : ∀ v, some v ∈ A' ↔ v ∉ U := by simp [A', G.mem_verts]
    have hle := h.value_le A' (by simp [A']) (by simpa [hmem] using hy)
    have hU : sinkSide G A' = U := by
      ext v
      simp [mem_sinkSide, hmem]
    rw [cutCapacity_flow (G := G) (by simp [A']), hU, if_pos ((hmem x).mpr hx),
      if_pos ((hmem r).mpr hr)] at hle
    exact hle
  -- a cut of the new arcs has more capacity than all other arcs together
  have hvalue := h.value
  rw [cutCapacity_flow (G := G) h.source] at hvalue
  have hle := hcut {y} (Finset.mem_singleton_self y) (by simpa using hxy) (by simpa using hry)
  have hlen : inDegree iDG {y} ≤ iDG.length := inDegree_le_length
  have hsmall : flow.value ≤ iDG.length := hle.trans hlen
  have hx : some x ∈ A := by
    by_contra hx
    have : flow.value = _ := hvalue
    rw [if_neg hx] at this
    omega
  have hr : some r ∈ A := by
    by_contra hr
    have : flow.value = _ := hvalue
    rw [if_neg hr] at this
    omega
  rw [if_pos hx, if_pos hr] at hvalue
  exact ⟨A, hside, h.source, hr, hx, hyA, hvalue, hcut⟩

end Cuts

/-! ### One pass -/

section Pass

variable {maxflow : List (Option V) → List (Option V × Option V × ℕ) →
    Option V → Option V → Flow (Option V)} {G : PortGraph V E} {dst : V} {k : ℕ}
  {s : AdstState V E} {ie : (V × V × E) × ℕ} {A : List (Option V)}

variable (maxflow G dst k s ie) in
/-- The pass takes the arc `ie` in place of the one that was drawn. -/
def Replaces : Prop := ∃ old A, choice (s.rnd 0) (frontier s) = some old ∧
  (arcFlow maxflow G dst s old).value < k ∧
  sourceSide old.1.2.1 (arcFlow maxflow G dst s old).partition = some A ∧
  choice (s.rnd 1) (eprimes G s A) = some ie

lemma mem_frontier (h : ie ∈ frontier s) :
    (ie.1.1 ∈ s.vT ∧ ie.1.2.1 ∉ s.vT) ∧ (ie.1 :: s.iDG.eraseIdx ie.2).Perm s.iDG :=
  mem_selectArcs h

lemma frontier_of_eprimes (h : ie ∈ eprimes G s A) : ie ∈ frontier s := by
  obtain ⟨hmem, hp⟩ := List.mem_filter.mp h
  have hp := of_decide_eq_true hp
  exact List.mem_filter.mpr ⟨hmem, decide_eq_true ⟨hp.1.1, hp.2.1.2⟩⟩

lemma Replaces.mem_frontier (h : Replaces maxflow G dst k s ie) : ie ∈ frontier s := by
  obtain ⟨old, A, _, _, _, hie⟩ := h
  exact frontier_of_eprimes (choice_mem hie)

lemma arcFlow_spec (hmf : IsMaxflow maxflow) (hdst : dst ∈ s.vT) (h : ie ∈ frontier s) :
    ∃ A, sourceSide ie.1.2.1 (arcFlow maxflow G dst s ie).partition = some A ∧ none ∈ A ∧
      some dst ∈ A ∧ some ie.1.1 ∈ A ∧ some ie.1.2.1 ∉ A ∧
      (arcFlow maxflow G dst s ie).value = inDegree s.iDG (sinkSide G A) ∧
      ∀ U : Finset V, ie.1.2.1 ∈ U → ie.1.1 ∉ U → dst ∉ U →
        (arcFlow maxflow G dst s ie).value ≤ inDegree s.iDG U := by
  obtain ⟨⟨hx, hy⟩, _⟩ := mem_frontier h
  apply adstMaxflowXRToY_spec hmf
  · exact fun heq => hy (heq ▸ hx)
  · exact fun heq => hy (heq ▸ hdst)

/-- What a pass can do: no arc is left to take, or one that leaves the tree is taken. -/
lemma adstStep_cases (hmf : IsMaxflow maxflow) (hdst : dst ∈ s.vT)
    (hT : s.vT.toFinset ≠ G.verts.toFinset) :
    (adstStep maxflow G dst k s = .done (some none) ∧ (frontier s = [] ∨
      ∃ old ∈ frontier s, (arcFlow maxflow G dst s old).value + 1 < k ∨
        (arcFlow maxflow G dst s old).value < k ∧
          ∃ A, sourceSide old.1.2.1 (arcFlow maxflow G dst s old).partition = some A ∧
            eprimes G s A = [])) ∨
    ∃ ie ∈ frontier s, adstStep maxflow G dst k s = .next (s.addArc ie) ∧
      (k ≤ (arcFlow maxflow G dst s ie).value ∨ Replaces maxflow G dst k s ie) := by
  by_cases hnil : frontier s = []
  · refine .inl ⟨?_, .inl hnil⟩
    simp [adstStep, hT, hnil, choice]
  obtain ⟨old, hold⟩ := exists_choice_of_ne_nil (s.rnd 0) hnil
  have hmem := choice_mem hold
  obtain ⟨A, hside, hnone, hdstA, _⟩ := arcFlow_spec (G := G) hmf hdst hmem
  by_cases hlow : (arcFlow maxflow G dst s old).value + 1 < k
  · refine .inl ⟨?_, .inr ⟨old, hmem, .inl hlow⟩⟩
    simp [adstStep, hT, hold, hlow]
  by_cases hless : (arcFlow maxflow G dst s old).value < k
  · by_cases hep : eprimes G s A = []
    · refine .inl ⟨?_, .inr ⟨old, hmem, .inr ⟨hless, A, hside, hep⟩⟩⟩
      have hdraw : choice (s.rnd 1) (eprimes G s A) = none := by simp [hep, choice]
      simp [adstStep, hT, hold, hlow, hless, hside, hnone, hdstA, hdraw]
    · obtain ⟨ie, hie⟩ := exists_choice_of_ne_nil (s.rnd 1) hep
      refine .inr ⟨ie, frontier_of_eprimes (choice_mem hie), ?_,
        .inr ⟨old, A, hold, hless, hside, hie⟩⟩
      simp [adstStep, hT, hold, hlow, hless, hside, hnone, hdstA, hie]
  · refine .inr ⟨old, hmem, ?_, .inl (by omega)⟩
    simp [adstStep, hT, hold, hlow, hless]

/-- The arcs of the tree are a branching and are gone from the graph. -/
structure AdstInv (dst : V) (iDG : List (V × V × E)) (s : AdstState V E) : Prop where
  branching : Branching dst s.iT s.vT.toFinset
  perm : (s.iT ++ s.iDG).Perm iDG

lemma adstInv_start (iDG : List (V × V × E)) (rnd : Rnd) :
    AdstInv dst iDG (adstStart dst iDG rnd) where
  branching := by
    simpa [adstStart] using Branching.root
  perm := List.Perm.refl _

lemma AdstInv.dst_mem {iDG : List (V × V × E)} (h : AdstInv dst iDG s) : dst ∈ s.vT := by
  rw [← List.mem_toFinset]
  exact h.branching.root_mem

lemma AdstInv.addArc {iDG : List (V × V × E)} (h : AdstInv dst iDG s) (hie : ie ∈ frontier s) :
    AdstInv dst iDG (s.addArc ie) where
  branching := by
    obtain ⟨⟨hx, hy⟩, _⟩ := mem_frontier hie
    have := h.branching.grow ie.1 (List.mem_toFinset.mpr hx) (mt List.mem_toFinset.mp hy)
    simpa [AdstState.addArc] using this
  perm := by
    obtain ⟨_, hperm⟩ := mem_frontier hie
    simp only [AdstState.addArc, List.append_assoc, List.singleton_append]
    exact (hperm.append_left _).trans h.perm

variable (G dst k) in
/-- `adst_tree` returns without a failing assertion: a branching that reaches all switches, or
`None`. -/
theorem adstTree_spec (hmf : IsMaxflow maxflow) (iDG : List (V × V × E)) (rnd : Rnd) :
    ∃ res, adstTree maxflow G dst k iDG rnd = some res ∧ ∀ s, res = some s →
      AdstInv dst iDG s ∧ s.vT.toFinset = G.verts.toFinset := by
  let Post : Option (Option (AdstState V E)) → Prop := fun r => ∃ res, r = some res ∧
    ∀ s, res = some s → AdstInv dst iDG s ∧ s.vT.toFinset = G.verts.toFinset
  have hbody : ∀ s, AdstInv dst iDG s →
      (∃ r, adstStep maxflow G dst k s = .done r ∧ Post r) ∨
      ∃ s', adstStep maxflow G dst k s = .next s' ∧ AdstInv dst iDG s' ∧
        (G.verts.filter (fun v => v ∉ s'.vT)).length <
          (G.verts.filter (fun v => v ∉ s.vT)).length := by
    intro s h
    by_cases hT : s.vT.toFinset = G.verts.toFinset
    · refine .inl ⟨some (some s), if_pos hT, some s, rfl, ?_⟩
      rintro s' ⟨rfl⟩
      exact ⟨h, hT⟩
    · rcases adstStep_cases (k := k) hmf h.dst_mem hT with ⟨hstep, _⟩ | ⟨ie, hie, hstep, _⟩
      · exact .inl ⟨_, hstep, none, rfl, by simp⟩
      · refine .inr ⟨_, hstep, h.addArc hie, ?_⟩
        have hfilter : G.verts.filter (fun v => v ∉ (s.addArc ie).vT) =
            (G.verts.filter (fun v => v ∉ s.vT)).filter (fun v => v ≠ ie.1.2.1) := by
          rw [List.filter_filter]
          apply List.filter_congr
          intro v _
          simp [AdstState.addArc, Bool.and_comm]
        rw [hfilter]
        apply List.length_filter_lt_length_iff_exists.mpr
        exact ⟨ie.1.2.1, by simp [G.mem_verts, (mem_frontier hie).1.2], by simp⟩
  have hwork : (G.verts.filter (fun v => v ∉ (adstStart dst iDG rnd).vT)).length <
      G.verts.length + 1 := Nat.lt_succ_of_le (List.length_filter_le _ _)
  obtain ⟨r, hrun, res, rfl, hres⟩ := Loop.run_of_measure
    (fun s : AdstState V E => (G.verts.filter (fun v => v ∉ s.vT)).length)
    (AdstInv dst iDG) Post hbody (adstInv_start iDG rnd) hwork
  exact ⟨res, by rw [adstTree, hrun]; rfl, hres⟩

end Pass

/-! ### All trees -/

/-- A tree of arcs that lead away from the root and enter every other switch once. -/
structure ITree.IsBranching (G : PortGraph V E) (T : ITree V E) (root : V) : Prop where
  directed : T.directed = true
  valid : T.Valid G
  targets : (T.es.map (fun ie => ie.2.1)).Perm (G.verts.erase root)
  spans : T.Spans root

section Branching

variable {G : PortGraph V E} {T : ITree V E} {root : V}

lemma ITree.mem_adj_directed (hT : T.directed = true) {x y : V} {e : E} :
    (e, y) ∈ T.adj x ↔ (x, y, e) ∈ T.es := by
  simp [ITree.mem_adj, hT]

/-- A branching has exactly one path to every switch. -/
theorem ITree.IsBranching.existsUnique_path (hT : T.IsBranching G root) (v : V) :
    ∃! p, EdgeWalk T.adj root p v := by
  have hn : (T.es.map (fun ie => ie.2.1)).Nodup :=
    hT.targets.nodup_iff.mpr (G.nodup_verts.erase root)
  have hroot : ∀ x e, (x, root, e) ∉ T.es := by
    intro x e h
    have hmem : root ∈ G.verts.erase root :=
      hT.targets.mem_iff.mp (List.mem_map_of_mem (f := fun ie : V × V × E => ie.2.1) h)
    exact (G.nodup_verts.mem_erase_iff.mp hmem).1 rfl
  have hunique : ∀ p q v, EdgeWalk T.adj root p v → EdgeWalk T.adj root q v → p = q := by
    intro p
    induction p using List.reverseRecOn with
    | nil =>
      intro q v hp hq
      obtain rfl := edgeWalk_nil.mp hp
      rcases List.eq_nil_or_concat q with rfl | ⟨q, e, rfl⟩
      · rfl
      · rw [List.concat_eq_append] at hq
        obtain ⟨w, _, he⟩ := edgeWalk_concat.mp hq
        exact absurd ((mem_adj_directed hT.directed).mp he) (hroot w e)
    | append_singleton p e ih =>
      intro q v hp hq
      obtain ⟨w, hp, he⟩ := edgeWalk_concat.mp hp
      rw [mem_adj_directed hT.directed] at he
      rcases List.eq_nil_or_concat q with rfl | ⟨q, e', rfl⟩
      · obtain rfl := edgeWalk_nil.mp hq
        exact absurd he (hroot w e)
      · rw [List.concat_eq_append] at hq ⊢
        obtain ⟨w', hq', he'⟩ := edgeWalk_concat.mp hq
        rw [mem_adj_directed hT.directed] at he'
        -- both walks end with the only arc into `v`
        have harc := List.inj_on_of_nodup_map hn he he' rfl
        simp only [Prod.mk.injEq, true_and] at harc
        obtain ⟨rfl, rfl⟩ := harc
        rw [ih _ w hp hq']
  obtain ⟨p, hp⟩ := hT.spans v
  exact ⟨p, hp, fun q hq => hunique q p v hq hp⟩

lemma edgeWalk_of_arcPath {es p : List (V × V × E)} {x y : V} (h : ArcPath x p y) (hp : p ⊆ es) :
    EdgeWalk (ITree.adj ⟨true, es⟩) x (p.map (fun a => a.2.2)) y := by
  induction p generalizing x with
  | nil => exact h
  | cons a p ih =>
    obtain ⟨rfl, h⟩ := h
    rw [List.cons_subset] at hp
    exact ⟨a.2.1, (ITree.mem_adj_directed rfl).mpr hp.1, ih h hp.2⟩

lemma Branching.isBranching {es : List (V × V × E)} {S : Finset V} (h : Branching root es S)
    (hS : S = G.verts.toFinset) (hvalid : ITree.Valid G ⟨true, es⟩) :
    ITree.IsBranching G ⟨true, es⟩ root where
  directed := rfl
  valid := hvalid
  targets := by
    have hn := List.nodup_cons.mp h.nodup_targets
    apply (List.perm_ext_iff_of_nodup hn.2 (G.nodup_verts.erase root)).mpr
    intro v
    have hmem : v = root ∨ v ∈ es.map (fun a => a.2.1) :=
      h.mem_iff.mp (by simp [hS, G.mem_verts])
    rw [G.nodup_verts.mem_erase_iff]
    constructor
    · exact fun hv => ⟨fun heq => hn.1 (heq ▸ hv), G.mem_verts v⟩
    · exact fun hv => hmem.resolve_left hv.1
  spans v := by
    obtain ⟨p, hp, hsub⟩ := h.exists_path (v := v) (by simp [hS, G.mem_verts])
    exact ⟨_, edgeWalk_of_arcPath hp hsub.subset⟩

end Branching

section Forest

variable {maxflow : List (Option V) → List (Option V × Option V × ℕ) →
    Option V → Option V → Flow (Option V)} {G : PortGraph V E} {dst : V} {numTrees : ℕ}
  {quitEarly : Bool}

omit [DecidableEq V] in
lemma valid_of_perm [DecidableEq E] {es iDG : List (V × V × E)}
    (h : (es ++ iDG).Subperm (toDirected G)) : ITree.Valid G ⟨true, es⟩ := by
  intro ie hie
  have hmem : ie ∈ toDirected G := h.subset (List.mem_append_left _ hie)
  rcases List.mem_append.mp hmem with hmem | hmem
  · obtain ⟨e, _, rfl⟩ := List.mem_map.mp hmem
    exact .inl ⟨rfl, rfl⟩
  · obtain ⟨e, _, rfl⟩ := List.mem_map.mp hmem
    exact .inr ⟨rfl, rfl⟩

variable (G dst numTrees quitEarly) in
/-- The trees are branchings, and their arcs are arcs of the graph. -/
lemma adstTrees_spec [DecidableEq E] (hmf : IsMaxflow maxflow) (k : ℕ)
    (forest : List (ITree V E)) {iDG : List (V × V × E)} (hiDG : iDG.Subperm (toDirected G))
    (rnd : Rnd) :
    ∃ trees, adstTrees maxflow G dst numTrees quitEarly k forest iDG rnd =
        some (forest ++ trees) ∧
      (∀ T ∈ trees, T.IsBranching G dst) ∧ (trees.flatMap ITree.es).Subperm iDG := by
  induction k generalizing forest iDG rnd with
  | zero => exact ⟨[], by simp [adstTrees], by simp, by simp⟩
  | succ k ih =>
    obtain ⟨res, htree, hres⟩ := adstTree_spec G dst (k + 1) hmf iDG rnd
    cases res with
    | none => exact ⟨[], by simp [adstTrees, htree], by simp, by simp⟩
    | some s =>
      obtain ⟨h, hall⟩ := hres s rfl
      have hsub : (s.iT ++ s.iDG).Subperm (toDirected G) := h.perm.subperm.trans hiDG
      have hT : ITree.IsBranching G ⟨true, s.iT⟩ dst :=
        h.branching.isBranching hall (valid_of_perm hsub)
      by_cases hquit : quitEarly ∧ numTrees ≤ (forest ++ [(⟨true, s.iT⟩ : ITree V E)]).length
      · refine ⟨[⟨true, s.iT⟩], ?_, by simpa using hT, ?_⟩
        · simp only [adstTrees, htree]
          exact if_pos hquit
        · simpa using (List.sublist_append_left ..).subperm.trans h.perm.subperm
      · obtain ⟨trees, hrun, htrees, hflat⟩ := ih (forest ++ [⟨true, s.iT⟩])
          ((List.sublist_append_right ..).subperm.trans hsub) s.rnd
        refine ⟨⟨true, s.iT⟩ :: trees, ?_, ?_, ?_⟩
        · simp only [adstTrees, htree]
          rw [if_neg hquit, hrun]
          simp
        · simpa using ⟨hT, htrees⟩
        · rw [List.flatMap_cons]
          exact ((List.subperm_append_left s.iT).mpr hflat).trans h.perm.subperm

omit [DecidableEq V] in
lemma nodup_toDirected [DecidableEq E] :
    ((toDirected G).map (fun ie => (ie.2.1, ie.2.2))).Nodup := by
  unfold toDirected
  rw [List.map_append, List.map_map, List.map_map, List.nodup_append']
  refine ⟨(List.nodup_dedup _).map fun e e' h => ?_, (List.nodup_dedup _).map fun e e' h => ?_, ?_⟩
  · exact (Prod.ext_iff.mp h).2
  · exact (Prod.ext_iff.mp h).2
  · intro a ha ha'
    obtain ⟨e, _, rfl⟩ := List.mem_map.mp ha
    obtain ⟨e', _, heq⟩ := List.mem_map.mp ha'
    simp only [Function.comp_apply, Prod.mk.injEq] at heq
    obtain ⟨hv, rfl⟩ := heq
    exact G.ends_ne _ hv

/-- `adst_forest` returns. Its trees are branchings from the destination, and no arc is in two
of them, also where a tree could not be built. -/
theorem adstForest_spec [DecidableEq E] (hmf : IsMaxflow maxflow)
    (edgeConnectivity : List V → List (V × V) → V → V → ℕ) (dst : V) (numTrees : ℕ)
    (quitEarly : Bool) (rnd : Rnd) :
    ∃ forest, adstForest maxflow edgeConnectivity G dst numTrees quitEarly rnd = some forest ∧
      (∀ T ∈ forest, T.IsBranching G dst) ∧ (forest.flatMap ITree.arcs).Nodup := by
  by_cases htrivial : quitEarly ∧ numTrees = 0
  · exact ⟨[], if_pos htrivial, by simp, by simp⟩
  obtain ⟨trees, hrun, htrees, l, hperm, hsub⟩ := adstTrees_spec G dst numTrees quitEarly hmf
    (igraphConnectivity edgeConnectivity G (toDirected G) dst) [] (List.Subperm.refl _) rnd
  refine ⟨trees, ?_, htrees, ?_⟩
  · rw [adstForest, if_neg htrivial, hrun]
    rfl
  · have hmap : trees.flatMap ITree.arcs =
        (trees.flatMap ITree.es).map (fun ie => (ie.2.1, ie.2.2)) := by
      rw [List.map_flatMap]
      rfl
    rw [hmap, ← (hperm.map _).nodup_iff]
    exact nodup_toDirected.sublist (hsub.map _)

/-- The trees of `edst_forest` are spanning trees without a cycle, no link is in two of them, and
the other links do not connect the switches unless it quits early; `edst_tree` returns `None`
exactly if the available links do not connect the switches. The trees of `adst_forest` have
exactly one path to every switch, and no arc is in two of them. -/
theorem forests_disjoint [DecidableEq E] (hcard : 2 ≤ G.verts.length) (hmf : IsMaxflow maxflow)
    (edgeConnectivity : List V → List (V × V) → V → V → ℕ) (edstDst : Option V) (dst : V)
    (numTrees : ℕ) (quitEarly : Bool) (rnd : Rnd) :
    (∃ fuel forest, edstForest fuel G edstDst numTrees quitEarly rnd = some forest ∧
      (∀ T ∈ forest, T.IsSpanningTree G ∧ T.es.length = G.verts.length - 1 ∧ ¬ T.HasCycle) ∧
      (forestEdges forest).Nodup ∧
      (quitEarly = false → ¬ ∀ root,
        (subgraphEdges G (G.links.filter (fun e => e ∉ forestEdges forest))).Spans root)) ∧
    (∀ avail : List E, avail.Nodup → ∃ res availE rnd',
      edstTree G edstDst avail rnd = some (res, availE, rnd') ∧
      (res = none ↔ ¬ ∀ root, (subgraphEdges G avail).Spans root)) ∧
    ∃ forest, adstForest maxflow edgeConnectivity G dst numTrees quitEarly rnd = some forest ∧
      (∀ T ∈ forest, T.IsBranching G dst ∧ ∀ v, ∃! p, EdgeWalk T.adj dst p v) ∧
      (forest.flatMap ITree.arcs).Nodup := by
  refine ⟨?_, ?_, ?_⟩
  · obtain ⟨fuel, forest, hrun, htrees, hn, hunused⟩ :=
      edstForest_spec hcard edstDst numTrees quitEarly rnd
    refine ⟨fuel, forest, hrun, fun T hT => ?_, hn, hunused⟩
    have := (htrees T hT).length_es
    exact ⟨htrees T hT, by omega, (htrees T hT).not_hasCycle⟩
  · intro avail hn
    have hne : G.verts ≠ [] := by
      rintro hnil
      simp [hnil] at hcard
    obtain ⟨res, availE, rnd', hrun, hnone, hsome⟩ := edstTree_spec hne edstDst hn rnd
    refine ⟨res, availE, rnd', hrun, hnone, fun hspans => ?_⟩
    by_contra hres
    obtain ⟨T, rfl⟩ := Option.ne_none_iff_exists'.mp hres
    obtain ⟨hT, hsub, _⟩ := hsome T rfl
    exact hspans fun root => hT.spans_subgraphEdges hsub root
  · obtain ⟨forest, hrun, htrees, hn⟩ :=
      adstForest_spec (G := G) hmf edgeConnectivity dst numTrees quitEarly rnd
    exact ⟨forest, hrun, fun T hT => ⟨htrees T hT, (htrees T hT).existsUnique_path⟩, hn⟩

theorem forests_disjoint_doubleLink :
    (∃ fuel forest, edstForest fuel doubleLink none 0 false (fun _ => 0) = some forest ∧
      (∀ T ∈ forest, T.IsSpanningTree doubleLink ∧ T.es.length = 1 ∧ ¬ T.HasCycle) ∧
      (forestEdges forest).Nodup) ∧
    ∃ forest, adstForest bruteMaxflow bruteEdgeConnectivity doubleLink 0 0 false (fun _ => 0) =
        some forest ∧
      (∀ T ∈ forest, T.IsBranching doubleLink 0 ∧ ∀ v, ∃! p, EdgeWalk T.adj 0 p v) ∧
      (forest.flatMap ITree.arcs).Nodup := by
  obtain ⟨⟨fuel, forest, hrun, htrees, hn, _⟩, _, hadst⟩ :=
    forests_disjoint (G := doubleLink) (by decide) (isMaxflow_brute (V := Option (Fin 2)))
      (bruteEdgeConnectivity (V := Fin 2)) none 0 0 false (fun _ => 0)
  exact ⟨⟨fuel, forest, hrun, htrees, hn⟩, hadst⟩

end Forest

end ResSim
