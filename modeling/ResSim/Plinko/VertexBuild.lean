import ResSim.Plinko.Rounds

/-!
# Plinko tables against failed switches

With `--fail vertices` the rounds still fail one link after the other, but a path is looked
for without the switches behind the links that failed.
-/

namespace ResSim

namespace IGraph

variable {V E : Type}

/-- The graph of some vertices and the edges between them. -/
def subgraph (iG : IGraph V E) (kept : V → Bool) : IGraph V E where
  directed := iG.directed
  vs v := kept v && iG.vs v
  adj v := if kept v then (iG.adj v).filter (fun a => kept a.2) else []

end IGraph

variable {V E : Type} [DecidableEq V]

/-- The switches of a path. -/
def vertexList (G : PortGraph V E) : V → List ℕ → Option (List V)
  | currv, [] => some [currv]
  | currv, hop :: path => do
    let nextv ← G.ports currv hop
    let vs ← vertexList G nextv path
    some (currv :: vs)

/-- `path.vertices`. -/
def Path.vertices {G : PortGraph V E} (P : Path G) : List V :=
  (vertexList G P.v P.fullPath).getD []

/-- A path with the switches that are known to have failed. -/
structure VPath (G : PortGraph V E) extends Path G where
  failedV : Finset V

variable [DecidableEq E]

-- How the arcs of a path are compared.
local instance instLawfulBEqPathArc : LawfulBEq (V × E) := inferInstance

/-- All links of the switches `failedV`. -/
def touchedE (G : PortGraph V E) (failedV : Finset V) : Finset E :=
  ((G.verts.filter (fun v => v ∈ failedV)).flatMap
    (fun v => (G.portList v).filterMap (G.edges v))).toFinset

/-- The switches behind the links of a switch that are down. -/
def localFailedV (G : PortGraph V E) (edgeDeps : Finset E) (v : V) : Finset V :=
  ((G.portList v).filterMap (fun port => do
    let (e, nextv, _) ← G.hop v port
    if e ∈ edgeDeps then some nextv else none)).toFinset

/-- The path search without the failed switches. -/
def shortestPathVertices (G : PortGraph V E) (getShortestPath : Adj V E → V → V → List E)
    (iG : IGraph V E) (src dst : V) (failedE : Finset E) (extraRevPath : List ℕ)
    (failedV : Finset V) (dfr : Bool) : Option (Option (VPath G)) :=
  if src = dst then some none
  else do
    guard (0 < G.numhosts dst)
    if dst ∈ failedV then some none
    else do
      -- not implemented with `dfr`
      guard (dfr = false)
      let subIG := if iG.directed then iG else iG.subgraph (fun v => v ∉ failedV)
      if subIG.vs src && subIG.vs dst then
        let iP := getShortestPath subIG.adj src dst
        if iP = [] then some none
        else do
          let hoplist ← igraphPathToHoplist G src dst iP
          (mkPath G src hoplist hoplist failedE extraRevPath).map (fun P => some ⟨P, failedV⟩)
      else some none

/-- Compression-aware routing: a stored path that avoids the failed switches. -/
def existingPathVertices (args : PlinkoArgs) {G : PortGraph V E} (dst : V)
    (fwdtable : List (FwdKey E × Path G)) (knownFailedV : Finset V) (arcs : List (V × E))
    (draw : ℕ) : Option (Option (List ℕ)) := do
  let usable := (fwdtable.map Prod.snd).filter (fun opath =>
    (∀ w ∈ opath.vertices, w ∉ knownFailedV) ∧ (args.dfr → ∀ a ∈ opath.arcs, a ∉ arcs))
  guard (∀ opath ∈ usable, opath.rv = dst ∧
    (args.fwdRouting = .src → opath.path = opath.fullPath))
  let fullPaths := usable.map Path.fullPath
  let existingPaths := fullPaths.dedup.map (fun p => (p, fullPaths.count p))
  some (((shuffle draw existingPaths).argmax Prod.snd).map Prod.fst)

/-- The path that a switch uses once it knows the failed links and switches. -/
def newPathVertices (G : PortGraph V E) (args : PlinkoArgs)
    (getShortestPath : ℕ → Adj V E → V → V → List E) (dst v : V)
    (fwdtable : List (FwdKey E × Path G)) (rnd : Rnd) (path : Path G) (knownFailedE : Finset E)
    (knownFailedV : Finset V) (fullRevPath : List ℕ) (arcs : List (V × E)) :
    Option (Option (VPath G)) := do
  let existing ← if args.compressionAwareRouting then
    existingPathVertices args dst fwdtable knownFailedV arcs (rnd 0) else some none
  match existing with
  | some opath =>
    (mkPath G v opath opath knownFailedE fullRevPath).map (fun P => some ⟨P, knownFailedV⟩)
  | none => do
    guard (path.rv = dst)
    shortestPathVertices G (getShortestPath (rnd 1)) (mygraphToIgraph G) v path.rv knownFailedE
      fullRevPath knownFailedV args.dfr

/-- The paths to do in the next round, by the failed links. -/
abbrev VDeps (G : PortGraph V E) := List (Finset E × List (VPath G))

/-- State of the rounds. -/
structure VBuildState (G : PortGraph V E) where
  i : ℕ
  todo : List (Finset E × VPath G)
  nextdep : VDeps G
  fwdtable : PlinkoTable G
  rnd : Rnd

/-- Adds the backup path for one path and the links that failed. -/
def addBackupVertices (G : PortGraph V E) (args : PlinkoArgs)
    (getShortestPath : ℕ → Adj V E → V → V → List E) (dst : V) (s : VBuildState G)
    (edgeDeps : Finset E) (path : VPath G) : Option (VBuildState G) := do
  guard (edgeDeps.card = s.i)
  let (v, rpath) ← revpathAtFail G edgeDeps path.v path.path
  let fullRevPath := rpath ++ path.extraRPath
  let knownFailedE := path.failedE ∪ (localFailedE G edgeDeps v).toFinset
  let knownFailedV := path.failedV ∪ localFailedV G edgeDeps v
  guard (knownFailedE = edgeDeps)
  let (start, fwdPath) ← reversePath G v fullRevPath
  let arcs ← arcSet G start fwdPath
  let newpath ← newPathVertices G args getShortestPath dst v (s.fwdtable.atSwitch v) s.rnd
    path.toPath knownFailedE knownFailedV fullRevPath arcs
  let rnd := s.rnd.next.next
  match newpath with
  | none => some { s with rnd }
  | some newpath => do
    let fwdtable ← install G args.fwdRouting s.fwdtable newpath.toPath
    let nextdep ← updateDepsOf VPath.toPath edgeDeps s.nextdep newpath
    some { s with fwdtable, nextdep, rnd }

/-- One pass of the rounds. -/
def plinkoStepVertices (G : PortGraph V E) (args : PlinkoArgs)
    (getShortestPath : ℕ → Adj V E → V → V → List E) (dst : V) (s : VBuildState G) :
    Step (VBuildState G) (Option (PlinkoTable G)) :=
  match s.todo with
  | [] =>
    if s.nextdep.isEmpty || s.i = args.rounds then .done (some s.fwdtable)
    else .next { s with
      i := s.i + 1
      todo := dictPairs (shuffle (s.rnd 0) s.nextdep)
      nextdep := []
      rnd := s.rnd.next }
  | (edgeDeps, path) :: todo =>
    match addBackupVertices G args getShortestPath dst { s with todo } edgeDeps path with
    | none => .done none
    | some s' => .next s'

/-- The first paths know no failed switch. -/
def plinkoInitVertices (G : PortGraph V E) (args : PlinkoArgs)
    (getShortestPath : ℕ → Adj V E → V → V → List E) (dst : V) (rnd : Rnd) :
    Option (VBuildState G) := do
  let paths ← G.verts.mapM (initPath G (getShortestPath (rnd 0)) dst)
  let paths := paths.reduceOption
  guard (∀ path ∈ paths, path.rv = dst)
  let fwdtable ← paths.foldlM (install G args.fwdRouting) []
  let deps ← (paths.map (fun path => VPath.mk path ∅)).foldlM (updateDepsOf VPath.toPath ∅) []
  some { i := 0, todo := [], nextdep := deps, fwdtable, rnd := rnd.next }

/-- The table of one destination. -/
def plinkoFwdtableVertices (fuel : ℕ) (G : PortGraph V E) (args : PlinkoArgs)
    (getShortestPath : ℕ → Adj V E → V → V → List E) (dst : V) (rnd : Rnd) :
    Option (PlinkoTable G) := do
  let s ← plinkoInitVertices G args getShortestPath dst rnd
  (Loop.run (plinkoStepVertices G args getShortestPath dst) fuel s).join

/-! ### Failed switches and their links -/

section Switches

variable {G : PortGraph V E} {W K : Finset V} {v w u n : V} {p q : ℕ} {e : E} {path r : List ℕ}
  {vs : List V} {D : Finset E}

lemma mem_touchedE : e ∈ touchedE G W ↔ ∃ w ∈ W, ∃ p, G.edges w p = some e := by
  simp only [touchedE, List.mem_toFinset, List.mem_flatMap, List.mem_filter, decide_eq_true_eq,
    List.mem_filterMap]
  constructor
  · rintro ⟨w, ⟨_, hw⟩, p, _, he⟩
    exact ⟨w, hw, p, he⟩
  · rintro ⟨w, hw, p, he⟩
    exact ⟨w, ⟨G.mem_verts w, hw⟩, p, (G.mem_portList w p).mpr ⟨e, he⟩, he⟩

/-- A link is one of a failed switch if one of its ends has failed. -/
lemma mem_touchedE_of_hop (h : G.hop v p = some (e, w, q)) :
    e ∈ touchedE G W ↔ v ∈ W ∨ w ∈ W := by
  rw [mem_touchedE]
  constructor
  · rintro ⟨x, hx, p', he⟩
    obtain ⟨y, q', h'⟩ := PortGraph.exists_hop_of_edges he
    by_cases hvx : v = x
    · exact .inl (hvx ▸ hx)
    · exact .inr ((PortGraph.hop_back h h' hvx).1 ▸ hx)
  · rintro (hv | hw)
    · exact ⟨v, hv, p, PortGraph.edges_of_hop h⟩
    · exact ⟨w, hw, q, PortGraph.edges_of_hop (PortGraph.hop_symm h)⟩

lemma touchedE_mono (h : K ⊆ W) : touchedE G K ⊆ touchedE G W := by
  intro e he
  obtain ⟨w, hw, hp⟩ := mem_touchedE.mp he
  exact mem_touchedE.mpr ⟨w, h hw, hp⟩

lemma mem_localFailedV :
    w ∈ localFailedV G D v ↔ ∃ p e q, G.hop v p = some (e, w, q) ∧ e ∈ D := by
  simp only [localFailedV, List.mem_toFinset, List.mem_filterMap, Option.bind_eq_bind,
    Option.bind_eq_some_iff, Prod.exists, Option.ite_none_right_eq_some, Option.some.injEq]
  constructor
  · rintro ⟨p, _, e, w', q, hhop, he, rfl⟩
    exact ⟨p, e, q, hhop, he⟩
  · rintro ⟨p, e, q, hhop, he⟩
    exact ⟨p, PortGraph.hop_mem_portList hhop, e, w, q, hhop, he, rfl⟩

omit [DecidableEq E] in
lemma vertexList_cons (h : G.hop v p = some (e, w, q)) (hvs : vertexList G w path = some vs) :
    vertexList G v (p :: path) = some (v :: vs) := by
  simp [vertexList, PortGraph.ports_of_hop h, hvs]

/-- Who leaves from a switch that is up, over links of no failed switch, enters none. -/
lemma exists_vertexList_of_leads (h : G.Leads (touchedE G W) v path u) (hv : v ∉ W) :
    ∃ vs, vertexList G v path = some vs ∧ u ∈ vs ∧ ∀ w ∈ vs, w ∉ W := by
  induction path generalizing v with
  | nil =>
    obtain rfl : v = u := h
    exact ⟨[v], rfl, List.mem_singleton_self v, by simpa using hv⟩
  | cons p path ih =>
    obtain ⟨e, w, q, hhop, he, hl⟩ := h
    rw [mem_touchedE_of_hop hhop, not_or] at he
    obtain ⟨vs, hvs, hu, hall⟩ := ih hl he.2
    exact ⟨v :: vs, vertexList_cons hhop hvs, List.mem_cons_of_mem _ hu,
      List.forall_mem_cons.mpr ⟨hv, hall⟩⟩

lemma leads_of_vertexList (hr : reversePath G v path = some (u, r))
    (hvs : vertexList G v path = some vs) (hall : ∀ w ∈ vs, w ∉ W) :
    G.Leads (touchedE G W) v path u := by
  induction path generalizing v r vs with
  | nil => exact (Prod.mk.inj (Option.some.inj hr)).1
  | cons p path ih =>
    obtain ⟨e, w, q, r', hhop, hr', _⟩ := reversePath_cons.mp hr
    simp only [vertexList, PortGraph.ports_of_hop hhop, Option.bind_eq_bind, Option.bind_some,
      Option.bind_eq_some_iff, Option.some.injEq] at hvs
    obtain ⟨vs', hvs', rfl⟩ := hvs
    rw [List.forall_mem_cons] at hall
    have hw : w ∈ vs' := by
      cases path with
      | nil =>
        obtain rfl := Option.some.inj hvs'
        exact (Prod.mk.inj (Option.some.inj hr')).1 ▸ List.mem_singleton_self w
      | cons p' path =>
        simp only [vertexList, Option.bind_eq_bind, Option.bind_eq_some_iff,
          Option.some.injEq] at hvs'
        obtain ⟨_, _, _, _, rfl⟩ := hvs'
        exact List.mem_cons_self
    refine ⟨e, w, q, hhop, ?_, ih hr' hvs' hall.2⟩
    rw [mem_touchedE_of_hop hhop, not_or]
    exact ⟨hall.1, hall.2 w hw⟩

omit [DecidableEq E] in
lemma exists_vertexList (hr : reversePath G v path = some (u, r)) :
    ∃ vs, vertexList G v path = some vs := by
  induction path generalizing v r with
  | nil => exact ⟨[v], rfl⟩
  | cons p path ih =>
    obtain ⟨e, w, q, r', hhop, hr', _⟩ := reversePath_cons.mp hr
    obtain ⟨vs, hvs⟩ := ih hr'
    exact ⟨v :: vs, vertexList_cons hhop hvs⟩

/-- The graph without some switches is the one without their links. -/
lemma subgraph_adj : ((mygraphToIgraph G).subgraph (fun v => v ∉ W)).adj =
    upAdj G (touchedE G W) := by
  funext v
  simp only [IGraph.subgraph, upAdj, IGraph.subgraphEdges]
  have hmem : ∀ a ∈ (mygraphToIgraph G).adj v, a.1 ∈ touchedE G W ↔ v ∈ W ∨ a.2 ∈ W := by
    rintro ⟨e, w⟩ ha
    obtain ⟨p, q, hhop⟩ := mem_mygraphToIgraph.mp ha
    exact mem_touchedE_of_hop hhop
  by_cases hv : v ∈ W
  · rw [if_neg (by simpa using hv), eq_comm, List.filter_eq_nil_iff]
    intro a ha
    simpa using (hmem a ha).mpr (.inl hv)
  · rw [if_pos (by simpa using hv)]
    apply List.filter_congr
    intro a ha
    simp [hmem a ha, hv]

end Switches

end ResSim
