import ResSim.Throughput.TopK

/-!
# The paths of flows

In one model a flow takes the path of a packet that starts on a cached tree, in the other one a
shortest path over the links that are up. A flow between two hosts of one switch has no hop
between switches. In the first model it has its path even if the switch is down.
-/

namespace ResSim

variable {V E N F : Type} [DecidableEq V] [DecidableEq E] [DecidableEq F]

/-- A host: its name, its switch, and the port of the switch that leads to it. -/
structure Host (V N : Type) where
  name : N
  v : V
  portno : ℕ
  deriving DecidableEq

/-- The ends of a flow. -/
structure HostFlow (V N : Type) where
  src : Host V N
  dst : Host V N

/-- What fails in a pass. -/
inductive Failures (V E : Type) where
  | edges (failedE : Finset E)
  | vertices (failedV : Finset V)

def Failures.failedE (G : PortGraph V E) : Failures V E → Finset E
  | .edges failedE => failedE
  | .vertices failedV => touchedE G failedV

def Failures.failedV : Failures V E → Finset V
  | .edges _ => ∅
  | .vertices failedV => failedV

/-- `flow.path` and `flow.fail_exp`. -/
structure FlowPaths (F : Type) where
  path : F → Option (List ℕ)
  failExp : F → Bool

def FlowPaths.set (s : FlowPaths F) (flow : F) (path : Option (List ℕ)) (failExp : Bool) :
    FlowPaths F where
  path := Function.update s.path flow path
  failExp := Function.update s.failExp flow failExp

/-! ### Paths of the tables -/

/-- `v.topk[d]`. -/
abbrev TopkCache (V E : Type) := V → V → List (StartTree V E)

def initTopkCache : TopkCache V E := fun _ _ => []

section Tables

variable (fuel : ℕ) (G : PortGraph V E) (shortestPaths : V → V → ℕ)
  (fwdtables : List (TableFile V E)) (ends : F → HostFlow V N) (failures : Failures V E)

/-- The walk from a cached tree, with the last hop, which never fails. -/
def fwdtableWalkPath (topk : TopkCache V E) (srcV : V) (dst : Host V N) (draw : ℕ) :
    Option (Option (List ℕ) × Bool) := do
  let (hops, failExp) ←
    if srcV ≠ dst.v then do
      let (fwdtable, itree) ← choice draw (topk srcV dst.v)
      fwdtableWalkPathInternal fuel G srcV dst.v (fwdtable dst.v) itree (failures.failedE G)
        failures.failedV
    else some (some [], false)
  match hops with
  | some hops => some (some (hops ++ [dst.portno]), failExp)
  | none => if failExp then some (none, failExp) else none

/-- The start trees of a pair of switches are found once. -/
def cacheStartTrees (topk : TopkCache V E) (srcV dstV : V) (draw : ℕ) :
    Option (TopkCache V E) :=
  if (topk srcV dstV).length = 0 ∧ srcV ≠ dstV then
    (populateTopkCache fuel G shortestPaths fwdtables srcV dstV draw).map (fun l =>
      Function.update topk srcV (Function.update (topk srcV) dstV l))
  else some topk

def buildFwdtablePaths : List F → TopkCache V E → FlowPaths F → Rnd →
    Option (FlowPaths F × TopkCache V E × Rnd)
  | [], topk, s, rnd => some (s, topk, rnd)
  | flow :: flows, topk, s, rnd => do
    let topk ← cacheStartTrees fuel G shortestPaths fwdtables topk (ends flow).src.v
      (ends flow).dst.v (rnd 0)
    let (path, failExp) ← fwdtableWalkPath fuel G failures topk (ends flow).src.v (ends flow).dst
      (rnd 1)
    buildFwdtablePaths flows topk (s.set flow path failExp) rnd.next.next

end Tables

/-! ### Shortest paths -/

section Shortest

variable (G : PortGraph V E) (getShortestPath : Adj V E → V → V → List E)
  (failures : Failures V E)

/-- The links and switches that are up. -/
def upIgraph : IGraph V E :=
  match failures with
  | .edges failedE => (mygraphToIgraph G).subgraphEdges (fun e => e ∉ failedE)
  | .vertices failedV => (mygraphToIgraph G).subgraph (fun v => v ∉ failedV)

/-- `shortest_path` in a graph from which nothing is taken out any more. -/
def shortestPathIn (subIG : IGraph V E) (src dst : V) : Option (Option (List ℕ)) :=
  if src = dst then some none
  else do
    guard (0 < G.numhosts dst)
    if subIG.vs src && subIG.vs dst then
      let iP := getShortestPath subIG.adj src dst
      if iP = [] then some none
      else do
        let hoplist ← igraphPathToHoplist G src dst iP
        (mkPath G src hoplist hoplist ∅ []).map (fun P => some P.path)
    else some none

/-- The path of one flow. -/
def buildShortestPath (flow : HostFlow V N) : Option (Option (List ℕ)) :=
  if flow.dst.v ∈ failures.failedV then some none
  else do
    let path ← shortestPathIn G getShortestPath (upIgraph G failures) flow.src.v flow.dst.v
    match path with
    | none =>
      if flow.src.v = flow.dst.v ∧ flow.src.v ∉ failures.failedV then
        some (some [flow.dst.portno])
      else some none
    | some fp => do
      guard (0 < fp.length)
      some (some (fp ++ [flow.dst.portno]))

def buildShortestPaths (ends : F → HostFlow V N) : List F → FlowPaths F → Option (FlowPaths F)
  | [], s => some s
  | flow :: flows, s => do
    let path ← buildShortestPath G getShortestPath failures (ends flow)
    buildShortestPaths ends flows (s.set flow path (s.failExp flow))

end Shortest

/-! ### What the tables give -/

/-- A flow without a path met a failure between two switches, and a path leads over links that
are up. Only between two hosts of one switch is there a path if the switch is down. -/
structure IsTablePath (G : PortGraph V E) (failures : Failures V E) (flow : HostFlow V N)
    (path : Option (List ℕ)) (failExp : Bool) : Prop where
  dropped : path = none → failExp = true ∧ flow.src.v ≠ flow.dst.v
  delivered : ∀ hops, path = some hops → ∃ ports, hops = ports ++ [flow.dst.portno] ∧
    G.Leads (failures.failedE G) flow.src.v ports flow.dst.v ∧
    (flow.src.v ∈ failures.failedV → flow.src.v = flow.dst.v ∧ ports = [])

/-- There are tables, each serves all switches that have hosts, and each has start trees. -/
structure ServedBy (G : PortGraph V E) (fwdtables : List (TableFile V E)) : Prop where
  ne_nil : fwdtables ≠ []
  serves : ∀ fwdtable ∈ fwdtables, ∀ dst, 0 < G.numhosts dst → (fwdtable dst).Serves G dst
  start : ∀ fwdtable ∈ fwdtables, ∀ src dst, 0 < G.numhosts dst → src ≠ dst →
    (fwdtable dst).entries src none ≠ []

/-- Tables that are built over spanning trees serve, where they have start trees. -/
lemma servedBy_of_built {G : PortGraph V E} {fwdtables : List (TableFile V E)}
    {getShortestPath : Adj V E → V → V → List E} (hsp : IsPathFinder getShortestPath)
    (hne : fwdtables ≠ []) (hbuilt : ∀ fwdtable ∈ fwdtables, ∀ dst, 0 < G.numhosts dst →
      BuiltTable G getShortestPath dst (fwdtable dst))
    (hstart : ∀ fwdtable ∈ fwdtables, ∀ src dst, 0 < G.numhosts dst → src ≠ dst →
      (fwdtable dst).entries src none ≠ []) : ServedBy G fwdtables where
  ne_nil := hne
  serves t ht dst hdst := (hbuilt t ht dst hdst).serves hsp
  start := hstart

/-- Only start trees are cached. -/
def CacheOk (fwdtables : List (TableFile V E)) (topk : TopkCache V E) : Prop :=
  ∀ src dst, ∀ x ∈ topk src dst, x ∈ startTrees fwdtables src dst

section TablePaths

variable {G : PortGraph V E} {shortestPaths : V → V → ℕ} {fwdtables : List (TableFile V E)}
  {ends : F → HostFlow V N} {failures : Failures V E} {topk : TopkCache V E} {src : V}

omit [DecidableEq V] [DecidableEq E] in
lemma cacheOk_init : CacheOk fwdtables (initTopkCache : TopkCache V E) :=
  fun _ _ _ hx => absurd hx List.not_mem_nil

lemma ServedBy.perm {fwdtables' : List (TableFile V E)} (h : ServedBy G fwdtables)
    (hperm : fwdtables'.Perm fwdtables) : ServedBy G fwdtables' where
  ne_nil := fun hnil => h.ne_nil (hnil ▸ hperm).nil_eq.symm
  serves t ht := h.serves t (hperm.mem_iff.mp ht)
  start t ht := h.start t (hperm.mem_iff.mp ht)

omit [DecidableEq V] [DecidableEq E] in
lemma CacheOk.perm {fwdtables' : List (TableFile V E)} (h : CacheOk fwdtables topk)
    (hperm : fwdtables'.Perm fwdtables) : CacheOk fwdtables' topk := by
  intro src dst x hx
  obtain ⟨fwdtable, hf, hx⟩ := List.mem_flatMap.mp (h src dst x hx)
  exact List.mem_flatMap.mpr ⟨fwdtable, hperm.mem_iff.mpr hf, hx⟩

lemma Failures.touchedE_subset (failures : Failures V E) :
    touchedE G failures.failedV ⊆ failures.failedE G := by
  cases failures with
  | edges failedE =>
    intro e he
    obtain ⟨w, hw, -⟩ := mem_touchedE.mp he
    exact absurd hw (Finset.notMem_empty w)
  | vertices failedV => exact Finset.Subset.refl _

/-- Afterwards the pair of switches has start trees in the cache. -/
lemma CacheOk.exists_cached (h : CacheOk fwdtables topk) (hserved : ServedBy G fwdtables)
    (hdist : IsDistances G shortestPaths) {dstV : V} (hdst : 0 < G.numhosts dstV) (draw : ℕ) :
    ∃ topk', CacheOk fwdtables topk' ∧ (src ≠ dstV → topk' src dstV ≠ []) ∧
      ∃ passes, ∀ fuel, passes ≤ fuel →
        cacheStartTrees fuel G shortestPaths fwdtables topk src dstV draw = some topk' := by
  by_cases hcond : (topk src dstV).length = 0 ∧ src ≠ dstV
  · obtain ⟨len, -, passes, hruns⟩ := exists_topk_of_serves
      (fun t ht => hserved.serves t ht dstV hdst) hserved.ne_nil
      (fun t ht => hserved.start t ht src dstV hdst hcond.2) hdist hcond.2
    obtain ⟨l, hl, hrun⟩ := hruns draw
    obtain ⟨rest, hperm, -⟩ := hl.rest
    refine ⟨Function.update topk src (Function.update (topk src) dstV l), ?_, fun _ => ?_, passes,
      fun fuel hfuel => ?_⟩
    · intro s d x hx
      by_cases hs : s = src
      · subst hs
        rw [Function.update_self] at hx
        by_cases hd : d = dstV
        · subst hd
          rw [Function.update_self] at hx
          exact hperm.mem_iff.mp (List.mem_append_left _ hx)
        · rw [Function.update_of_ne hd] at hx
          exact h s d x hx
      · rw [Function.update_of_ne hs] at hx
        exact h s d x hx
    · rw [Function.update_self, Function.update_self]
      exact hl.ne_nil
    · rw [cacheStartTrees, if_pos hcond, hrun fuel hfuel, Option.map_some]
  · refine ⟨topk, h, fun hne hnil => hcond ⟨by rw [hnil]; rfl, hne⟩, 0, fun fuel _ => if_neg hcond⟩

/-- The path of one flow, once its start trees are cached. -/
lemma CacheOk.exists_path (h : CacheOk fwdtables topk) (failures : Failures V E)
    (hserved : ServedBy G fwdtables) (flow : HostFlow V N) (hdst : 0 < G.numhosts flow.dst.v)
    (hcached : flow.src.v ≠ flow.dst.v → topk flow.src.v flow.dst.v ≠ []) (draw : ℕ) :
    ∃ path failExp, IsTablePath G failures flow path failExp ∧ ∃ passes, ∀ fuel, passes ≤ fuel →
      fwdtableWalkPath fuel G failures topk flow.src.v flow.dst draw = some (path, failExp) := by
  by_cases hne : flow.src.v ≠ flow.dst.v
  · obtain ⟨⟨fwdtable, itree⟩, hx⟩ := exists_choice_of_ne_nil draw (hcached hne)
    obtain ⟨t, ht, hmem⟩ := List.mem_flatMap.mp (h _ _ _ (choice_mem hx))
    obtain ⟨start, hstart, heq⟩ := List.mem_map.mp hmem
    obtain ⟨rfl, rfl⟩ := Prod.ext_iff.mp heq
    obtain ⟨passes, result, failExp, hrun, hdropped, hleads⟩ :=
      (hserved.serves t ht _ hdst).walk failures.touchedE_subset hstart
    cases result with
    | none =>
      refine ⟨none, failExp, ⟨fun _ => ⟨hdropped rfl, hne⟩, by simp⟩, passes,
        fun fuel hfuel => ?_⟩
      simp only [fwdtableWalkPath, if_pos hne, hx, Option.bind_eq_bind, Option.bind_some,
        fwdtableWalkPathInternal_mono hfuel hrun, hdropped rfl, if_true]
    | some hops =>
      obtain ⟨hup, hl⟩ := hleads hops rfl
      refine ⟨some (hops ++ [flow.dst.portno]), failExp, ⟨by simp, ?_⟩, passes,
        fun fuel hfuel => ?_⟩
      · rintro _ ⟨⟩
        exact ⟨hops, rfl, hl, fun hdown => absurd hdown hup⟩
      · simp only [fwdtableWalkPath, if_pos hne, hx, Option.bind_eq_bind, Option.bind_some,
          fwdtableWalkPathInternal_mono hfuel hrun]
  · rw [not_not] at hne
    refine ⟨some ([] ++ [flow.dst.portno]), false, ⟨by simp, ?_⟩, 0, fun fuel _ => ?_⟩
    · rintro _ ⟨⟩
      exact ⟨[], rfl, hne, fun _ => ⟨hne, rfl⟩⟩
    · simp only [fwdtableWalkPath, ne_eq, hne, not_true_eq_false, if_false, Option.bind_eq_bind,
        Option.bind_some]

/-- Every flow gets a path of the tables or none, and the cache stays as it should be. -/
theorem CacheOk.exists_paths (h : CacheOk fwdtables topk) (ends : F → HostFlow V N)
    (failures : Failures V E) (hserved : ServedBy G fwdtables)
    (hdist : IsDistances G shortestPaths) {flows : List F}
    (hdst : ∀ flow ∈ flows, 0 < G.numhosts (ends flow).dst.v) (s : FlowPaths F) (rnd : Rnd) :
    ∃ s' topk' rnd', CacheOk fwdtables topk' ∧
      (∀ flow ∈ flows, IsTablePath G failures (ends flow) (s'.path flow) (s'.failExp flow)) ∧
      (∀ flow, flow ∉ flows → s'.path flow = s.path flow ∧ s'.failExp flow = s.failExp flow) ∧
      ∃ passes, ∀ fuel, passes ≤ fuel →
        buildFwdtablePaths fuel G shortestPaths fwdtables ends failures flows topk s rnd =
          some (s', topk', rnd') := by
  induction flows generalizing topk s rnd with
  | nil => exact ⟨s, topk, rnd, h, by simp, fun _ _ => ⟨rfl, rfl⟩, 0, fun _ _ => rfl⟩
  | cons flow flows ih =>
    obtain ⟨hflow, hdst⟩ := List.forall_mem_cons.mp hdst
    obtain ⟨topk₁, h₁, hcached, passes₁, hrun₁⟩ := h.exists_cached hserved hdist hflow (rnd 0)
    obtain ⟨path, failExp, hpath, passes₂, hrun₂⟩ :=
      h₁.exists_path failures hserved (ends flow) hflow hcached (rnd 1)
    obtain ⟨s', topk', rnd', h', hpaths, hsame, passes₃, hrun₃⟩ :=
      ih h₁ hdst (s.set flow path failExp) rnd.next.next
    refine ⟨s', topk', rnd', h', List.forall_mem_cons.mpr ⟨?_, hpaths⟩, fun f hf => ?_,
      max passes₁ (max passes₂ passes₃), fun fuel hfuel => ?_⟩
    · by_cases hmem : flow ∈ flows
      · exact hpaths flow hmem
      · obtain ⟨hp, hf⟩ := hsame flow hmem
        rw [hp, hf]
        simpa [FlowPaths.set] using hpath
    · rw [List.mem_cons, not_or] at hf
      obtain ⟨hp, hfail⟩ := hsame f hf.2
      rw [hp, hfail]
      simp [FlowPaths.set, hf.1]
    · obtain ⟨hle₁, hle⟩ := max_le_iff.mp hfuel
      obtain ⟨hle₂, hle₃⟩ := max_le_iff.mp hle
      simp only [buildFwdtablePaths, hrun₁ fuel hle₁, hrun₂ fuel hle₂, hrun₃ fuel hle₃,
        Option.bind_eq_bind, Option.bind_some]

/-- The path between two hosts of one switch is the last hop, failed or not. -/
lemma path_of_same_switch {fuel : ℕ} {flows : List F} {flow : F} {s : FlowPaths F} {rnd : Rnd}
    {r : FlowPaths F × TopkCache V E × Rnd} (hv : (ends flow).src.v = (ends flow).dst.v)
    (h : flow ∈ flows ∨ s.path flow = some [(ends flow).dst.portno])
    (hrun : buildFwdtablePaths fuel G shortestPaths fwdtables ends failures flows topk s rnd =
      some r) : r.1.path flow = some [(ends flow).dst.portno] := by
  induction flows generalizing topk s rnd with
  | nil =>
    obtain rfl := Option.some.inj hrun
    exact h.resolve_left List.not_mem_nil
  | cons f flows ih =>
    rw [buildFwdtablePaths] at hrun
    simp only [Option.bind_eq_bind, Option.bind_eq_some_iff] at hrun
    obtain ⟨topk', -, ⟨path, failExp⟩, hpath, hrun⟩ := hrun
    refine ih ?_ hrun
    by_cases hf : flow = f
    · subst hf
      right
      simp only [fwdtableWalkPath, ne_eq, hv, not_true_eq_false, if_false, Option.bind_eq_bind,
        Option.bind_some, List.nil_append, Option.some.injEq, Prod.mk.injEq] at hpath
      simp [FlowPaths.set, ← hpath.1]
    · rcases h with h | h
      · exact .inl ((List.mem_cons.mp h).resolve_left hf)
      · right
        simpa [FlowPaths.set, hf] using h

end TablePaths

/-! ### What the search gives -/

/-- A flow has no path only if a switch of both its ends is down or no links that are up join its
switches. A path leads over as few links as possible. -/
structure IsShortPath (G : PortGraph V E) (failures : Failures V E) (flow : HostFlow V N)
    (path : Option (List ℕ)) : Prop where
  dropped : path = none →
    (flow.src.v = flow.dst.v ∧ flow.src.v ∈ failures.failedV) ∨
      (flow.src.v ≠ flow.dst.v ∧
        ¬ ∃ ports, G.Leads (failures.failedE G) flow.src.v ports flow.dst.v)
  delivered : ∀ hops, path = some hops → flow.src.v ∉ failures.failedV ∧
    ∃ ports, hops = ports ++ [flow.dst.portno] ∧
      ShortestHops G (failures.failedE G) flow.src.v ports flow.dst.v

section ShortPaths

variable {G : PortGraph V E} {getShortestPath : Adj V E → V → V → List E}
  {failures : Failures V E} {src dst : V}

lemma upIgraph_adj (failures : Failures V E) :
    (upIgraph G failures).adj = upAdj G (failures.failedE G) := by
  cases failures with
  | edges failedE => rfl
  | vertices failedV => exact subgraph_adj

/-- Both switches are in the graph of what is up if links lead from one to the other. -/
lemma upIgraph_vs {iP : List E} (hne : src ≠ dst) (hsrc : src ∉ failures.failedV)
    (hdst : dst ∉ failures.failedV)
    (h : EdgeWalk (upAdj G (failures.failedE G)) src iP dst) :
    ((upIgraph G failures).vs src && (upIgraph G failures).vs dst) = true := by
  cases failures with
  | edges failedE =>
    obtain ⟨hs, hd⟩ := upAdj_ne_nil_of_edgeWalk hne h
    have hvs : ∀ v, upAdj G failedE v ≠ [] → (upIgraph G (.edges failedE)).vs v = true := by
      intro v hv
      simpa [upIgraph, IGraph.subgraphEdges, upAdj] using hv
    rw [hvs src hs, hvs dst hd, Bool.and_self]
  | vertices failedV =>
    have hvs : ∀ v, v ∉ failedV → (upIgraph G (.vertices failedV)).vs v = true := by
      intro v hv
      simp [upIgraph, IGraph.subgraph, mygraphToIgraph, hv]
    rw [hvs src hsrc, hvs dst hdst, Bool.and_self]

/-- Links lead only to switches that are up. -/
lemma not_mem_failedV_of_leads {ports : List ℕ} (hne : src ≠ dst)
    (h : G.Leads (failures.failedE G) src ports dst) :
    src ∉ failures.failedV ∧ dst ∉ failures.failedV := by
  have hends : ∀ {x y : V} {ports : List ℕ}, x ≠ y → G.Leads (failures.failedE G) x ports y →
      x ∉ failures.failedV := by
    intro x y ports hxy hl hx
    cases ports with
    | nil => exact hxy hl
    | cons p ports =>
      obtain ⟨e, w, q, hhop, he, -⟩ := hl
      exact he (failures.touchedE_subset ((mem_touchedE_of_hop hhop).mpr (.inl hx)))
  obtain ⟨back, hback⟩ := PortGraph.leads_symm h
  exact ⟨hends hne h, hends hne.symm hback⟩

lemma shortestPathIn_spec (failures : Failures V E) (hsp : IsPathFinder getShortestPath)
    (hdst : 0 < G.numhosts dst) (hne : src ≠ dst) :
    (∃ ports, shortestPathIn G getShortestPath (upIgraph G failures) src dst = some (some ports) ∧
      ports ≠ [] ∧ ShortestHops G (failures.failedE G) src ports dst) ∨
    (shortestPathIn G getShortestPath (upIgraph G failures) src dst = some none ∧
      ¬ ∃ ports, G.Leads (failures.failedE G) src ports dst) := by
  have hguard : (guard (0 < G.numhosts dst) : Option Unit) = some () := if_pos hdst
  rw [shortestPathIn, if_neg hne, hguard, upIgraph_adj]
  simp only [Option.bind_eq_bind, Option.bind_some]
  by_cases hw : ∃ ports, G.Leads (failures.failedE G) src ports dst
  · left
    obtain ⟨ports, hl⟩ := hw
    obtain ⟨p, hp, -⟩ := edgeWalk_of_leads hl
    have hs := hsp.shortest _ src dst ⟨p, hp⟩
    obtain ⟨hoplist, P, hrun, hnil, hP, hbranch, hedges, -⟩ :=
      exists_branch_of_shortest hne hs (Finset.empty_subset _) []
    obtain ⟨hpath, hleads, hshort⟩ :
        P.path = hoplist ∧ G.Leads (failures.failedE G) src hoplist dst ∧
          hoplist.length = (getShortestPath (upAdj G (failures.failedE G)) src dst).length := by
      obtain ⟨hoplist', arcs, hrun', hl', ha, harcs⟩ := exists_hoplist_up hs.1
      rw [hrun, Option.some.injEq] at hrun'
      subst hrun'
      exact ⟨(mkPath_eq_some hP).2, hl', by rw [← harcs, List.length_map, arcSet_length ha]⟩
    refine ⟨hoplist, ?_, hnil, hleads, fun hops' hl' => ?_⟩
    · have hiP : getShortestPath (upAdj G (failures.failedE G)) src dst ≠ [] := by
        intro hiP
        rw [hiP] at hs
        exact hne hs.1
      obtain ⟨hsrcUp, hdstUp⟩ := not_mem_failedV_of_leads hne hl
      rw [if_pos (upIgraph_vs hne hsrcUp hdstUp hp), if_neg hiP, hrun, Option.bind_some, hP,
        Option.map_some, hpath]
    · obtain ⟨p', hp', hlen⟩ := edgeWalk_of_leads hl'
      rw [hshort, ← hlen]
      exact hs.2 p' hp'
  · right
    refine ⟨?_, hw⟩
    have hnone : ¬ ∃ p, EdgeWalk (upAdj G (failures.failedE G)) src p dst := by
      rintro ⟨p, hp⟩
      obtain ⟨hoplist, -, -, hl, -, -⟩ := exists_hoplist_up hp
      exact hw ⟨hoplist, hl⟩
    rw [if_pos (hsp.nil _ src dst hnone), ite_self]

lemma exists_shortPath (failures : Failures V E) (hsp : IsPathFinder getShortestPath)
    (flow : HostFlow V N) (hdst : 0 < G.numhosts flow.dst.v) :
    ∃ path, buildShortestPath G getShortestPath failures flow = some path ∧
      IsShortPath G failures flow path := by
  rw [buildShortestPath]
  by_cases hdown : flow.dst.v ∈ failures.failedV
  · rw [if_pos hdown]
    refine ⟨none, rfl, fun _ => ?_, by simp⟩
    by_cases hne : flow.src.v = flow.dst.v
    · exact .inl ⟨hne, hne ▸ hdown⟩
    · exact .inr ⟨hne, fun ⟨_, hl⟩ => (not_mem_failedV_of_leads hne hl).2 hdown⟩
  rw [if_neg hdown]
  by_cases hne : flow.src.v = flow.dst.v
  · have hup : flow.src.v ∉ failures.failedV := hne ▸ hdown
    refine ⟨some [flow.dst.portno], ?_, by simp, ?_⟩
    · simp only [shortestPathIn, if_pos hne, Option.bind_eq_bind, Option.bind_some,
        if_pos (And.intro hne hup)]
    · rintro _ ⟨⟩
      exact ⟨hup, [], rfl, hne, fun _ _ => Nat.zero_le _⟩
  · rcases shortestPathIn_spec failures hsp hdst hne with
      ⟨ports, hrun, hnil, hshort⟩ | ⟨hrun, hnone⟩
    · refine ⟨some (ports ++ [flow.dst.portno]), ?_, by simp, ?_⟩
      · have hguard : (guard (0 < ports.length) : Option Unit) = some () :=
          if_pos (List.length_pos_iff.mpr hnil)
        simp only [hrun, Option.bind_eq_bind, Option.bind_some, hguard]
      · rintro _ ⟨⟩
        exact ⟨(not_mem_failedV_of_leads hne hshort.1).1, ports, rfl, hshort⟩
    · refine ⟨none, ?_, fun _ => .inr ⟨hne, hnone⟩, by simp⟩
      simp only [hrun, Option.bind_eq_bind, Option.bind_some, hne, false_and, if_false]

/-- Every flow gets a shortest path or none, and keeps whether it met a failure. -/
lemma exists_shortPaths (failures : Failures V E) (hsp : IsPathFinder getShortestPath)
    {ends : F → HostFlow V N} {flows : List F}
    (hdst : ∀ flow ∈ flows, 0 < G.numhosts (ends flow).dst.v) (s : FlowPaths F) :
    ∃ s', buildShortestPaths G getShortestPath failures ends flows s = some s' ∧
      (∀ flow ∈ flows, IsShortPath G failures (ends flow) (s'.path flow)) ∧
      ∀ flow, flow ∉ flows → s'.path flow = s.path flow := by
  induction flows generalizing s with
  | nil => exact ⟨s, rfl, by simp, fun _ _ => rfl⟩
  | cons flow flows ih =>
    obtain ⟨hflow, hdst⟩ := List.forall_mem_cons.mp hdst
    obtain ⟨path, hrun, hpath⟩ := exists_shortPath failures hsp (ends flow) hflow
    obtain ⟨s', hruns, hpaths, hsame⟩ := ih hdst (s.set flow path (s.failExp flow))
    refine ⟨s', ?_, List.forall_mem_cons.mpr ⟨?_, hpaths⟩, fun f hf => ?_⟩
    · simp only [buildShortestPaths, hrun, Option.bind_eq_bind, Option.bind_some, hruns]
    · by_cases hmem : flow ∈ flows
      · exact hpaths flow hmem
      · rw [hsame flow hmem]
        simpa [FlowPaths.set] using hpath
    · rw [List.mem_cons, not_or] at hf
      rw [hsame f hf.2]
      simp [FlowPaths.set, hf.1]

end ShortPaths

end ResSim
