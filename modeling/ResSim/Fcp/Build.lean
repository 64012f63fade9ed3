import ResSim.Plinko.Install

/-!
# Building FCP tables

With `--model eth-fcp` and hop-by-hop forwarding packets carry a label for the failed links
that they have met. All sources share the entry of a switch for a label and its failed links:
where there is one already, a new path is redirected onto it.
-/

namespace ResSim

variable {V E : Type} [DecidableEq V] [DecidableEq E]

/-- `build_tree` for no failed links. The trees are given by the link and the switch that come
next; `pick` chooses among parallel links. -/
def buildTree (G : PortGraph V E) (bfsParents : Adj V E → V → V → Option V) (pick : V → ℕ)
    (dst : V) : Option (Adj V E) :=
  let subIG := (mygraphToIgraph G).subgraphEdges (fun _ => true)
  if subIG.vs dst then
    some (fun c =>
      if c = dst then []
      else ((bfsParents subIG.adj dst c).bind (fun p =>
        let edgeOpts := (G.portList c).filterMap (fun port =>
          if G.ports c port = some p then G.edges c port else none)
        (choice (pick c) edgeOpts).map (fun e => (e, p)))).toList)
  else none

/-- The first path of a switch, in the tree. -/
def initTreePath (G : PortGraph V E) (getShortestPath : Adj V E → V → V → List E)
    (iT : Adj V E) (d v : V) : Option (Option (Path G)) :=
  if 0 < G.numhosts v then
    let iP := getShortestPath iT v d
    if iP = [] then some none
    else do
      let hoplist ← igraphPathToHoplist G v d iP
      if hoplist = [] then some none else (mkPath G v hoplist hoplist ∅ []).map some
  else some none

/-- A path with the switch where the packet got its label, and the label: an edge label is the
number of a set of failed links in `fwd_trees`, and stands here as that set, which
`eid_to_failed` gives back. -/
structure FcpPath (G : PortGraph V E) extends Path G where
  firsthopV : V
  firsthopE : Finset E

/-- Key of an entry: the label, the link that must be up, the links that must be down. -/
abbrev FcpKey (E : Type) := Finset E × E × Finset E

/-- The tables of all switches for one destination: the entries, and `v.member_trees` with the
same paths without the link that must be up. -/
structure FcpTables (G : PortGraph V E) where
  fwdtable : List ((V × FcpKey E) × Path G)
  memberTrees : List ((V × Finset E × Finset E) × Path G)

/-- Stores a path in both. -/
def FcpTables.add {G : PortGraph V E} (t : FcpTables G) (v : V) (label : Finset E) (firste : E)
    (localFailedE : Finset E) (path : Path G) : FcpTables G where
  fwdtable := dictSet t.fwdtable (v, label, firste, localFailedE) path
  memberTrees := dictSet t.memberTrees (v, label, localFailedE) path

/-- Stores a first path hop by hop, up to the first switch that has an entry. -/
def fcpInitHops (G : PortGraph V E) :
    V → List ℕ → List ℕ → FcpTables G → Option (FcpTables G)
  | _, _, [], t => some t
  | curr, rp, hop :: rest, t => do
    let (firste, ncurr, rhop) ← G.hop curr hop
    let currpath ← mkPath G curr [hop] (hop :: rest) ∅ rp
    if (dictGet t.memberTrees (curr, ∅, ∅)).isSome then some t
    else fcpInitHops G ncurr (rhop :: rp) rest (t.add curr ∅ firste ∅ currpath)

/-- Stores a new path hop by hop. The first hop is stored under the label that the packet came
with, the others under the label `neId`. A hop is replaced by that of the entry, if there is
one; the ports after it are still those of the path as it was. The result also has the hops
that were made, and whether one was replaced. -/
def fcpHops (G : PortGraph V E) (failedE : Finset E) (neId : Finset E) :
    Finset E → V → List ℕ → List ℕ → FcpTables G → Option (FcpTables G × List ℕ × Bool)
  | _, _, _, [], t => some (t, [], false)
  | eId, curr, rp, hop :: rest, t => do
    let currpath ← if (G.edges curr hop).isSome then
      (mkPath G curr [hop] (hop :: rest) failedE rp).map some else some none
    let currLocalFailedE := (localFailedE G failedE curr).toFinset
    match dictGet t.memberTrees (curr, eId, currLocalFailedE) with
    | some member => do
      let hop ← member.path.head?
      let (_, ncurr, rhop) ← G.hop curr hop
      let (t, hops, _) ← fcpHops G failedE neId neId ncurr (rhop :: rp) rest t
      some (t, hop :: hops, true)
    | none => do
      -- without the port there is no link to follow
      let currpath ← currpath
      let (firste, ncurr, rhop) ← G.hop curr hop
      let (t, hops, redirected) ← fcpHops G failedE neId neId ncurr (rhop :: rp) rest
        (t.add curr eId firste currLocalFailedE currpath)
      some (t, hop :: hops, redirected)

/-- State of the rounds. -/
structure FcpState (G : PortGraph V E) where
  i : ℕ
  todo : List (Finset E × FcpPath G)
  nextdep : List (Finset E × List (FcpPath G))
  tables : FcpTables G
  fwdTrees : List (Finset E)
  rnd : Rnd

/-- Stores a new path; the result is the path that packets follow. -/
def fcpInstall (G : PortGraph V E) (dst : V) (t : FcpTables G) (newpath : FcpPath G) :
    Option (FcpTables G × FcpPath G) := do
  let (t, hops, redirected) ← fcpHops G newpath.failedE newpath.failedE newpath.firsthopE
    newpath.v newpath.extraRPath newpath.path t
  if redirected then do
    let path ← mkPath G newpath.v hops hops newpath.failedE newpath.extraRPath
    guard (path.rv = dst)
    some (t, { newpath with toPath := path })
  else some (t, newpath)

/-- The path search for one path and the links that failed. -/
def fcpNewPath (G : PortGraph V E) (dfr : Bool)
    (getShortestPath : ℕ → Adj V E → V → V → List E) (dst : V) (s : FcpState G)
    (edgeDeps : Finset E) (path : FcpPath G) : Option (Option (FcpPath G)) := do
  guard (edgeDeps.card = s.i)
  let (v, rpath) ← revpathAtFail G edgeDeps path.v path.path
  let fullRevPath := rpath ++ path.extraRPath
  let knownFailedE := path.failedE ∪ (localFailedE G edgeDeps v).toFinset
  guard (knownFailedE = edgeDeps)
  guard (path.failedE.card + 1 = knownFailedE.card)
  guard (path.failedE ∈ s.fwdTrees)
  let (start, fwdPath) ← reversePath G v fullRevPath
  let arcs ← arcSet G start fwdPath
  guard (path.rv = dst)
  let newpath ← shortestPath G (getShortestPath (s.rnd 0)) (mygraphToIgraph G) v path.rv
    knownFailedE fullRevPath dfr arcs
  some (newpath.map (fun newpath =>
    { toPath := newpath
      firsthopV := v
      firsthopE := if v = path.firsthopV then path.firsthopE else path.failedE }))

/-- Adds the backup path for one path and the links that failed. -/
def fcpAddBackup (G : PortGraph V E) (dfr : Bool)
    (getShortestPath : ℕ → Adj V E → V → V → List E) (dst : V) (s : FcpState G)
    (edgeDeps : Finset E) (path : FcpPath G) : Option (FcpState G) := do
  let newpath ← fcpNewPath G dfr getShortestPath dst s edgeDeps path
  let fwdTrees := if edgeDeps ∈ s.fwdTrees then s.fwdTrees else s.fwdTrees ++ [edgeDeps]
  let rnd := s.rnd.next
  match newpath with
  | none => some { s with fwdTrees, rnd }
  | some newpath => do
    let (tables, newpath) ← fcpInstall G dst s.tables newpath
    let nextdep ← updateDepsOf FcpPath.toPath edgeDeps s.nextdep newpath
    some { s with tables, nextdep, fwdTrees, rnd }

/-- One pass of the rounds. -/
def fcpStep (G : PortGraph V E) (args : PlinkoArgs)
    (getShortestPath : ℕ → Adj V E → V → V → List E) (dst : V) (s : FcpState G) :
    Step (FcpState G) (Option (FcpTables G)) :=
  match s.todo with
  | [] =>
    if s.nextdep.isEmpty || s.i = args.rounds then .done (some s.tables)
    else .next { s with
      i := s.i + 1
      todo := dictPairs (shuffle (s.rnd 0) s.nextdep)
      nextdep := []
      rnd := s.rnd.next }
  | (edgeDeps, path) :: todo =>
    match fcpAddBackup G args.dfr getShortestPath dst { s with todo } edgeDeps path with
    | none => .done none
    | some s' => .next s'

/-- The first paths, their entries and what depends on them. -/
def fcpInit (G : PortGraph V E) (getShortestPath : ℕ → Adj V E → V → V → List E)
    (bfsParents : Adj V E → V → V → Option V) (pick : V → ℕ) (dst : V) (rnd : Rnd) :
    Option (FcpState G) := do
  let iT ← buildTree G bfsParents pick dst
  let paths ← G.verts.mapM (initTreePath G (getShortestPath (rnd 0)) iT dst)
  let paths := paths.reduceOption
  guard (∀ path ∈ paths, path.rv = dst)
  let tables ← paths.foldlM (fun t path => fcpInitHops G path.v [] path.path t) ⟨[], []⟩
  let deps ← (paths.map (fun path => FcpPath.mk path path.v ∅)).foldlM
    (updateDepsOf FcpPath.toPath ∅) []
  some { i := 0, todo := [], nextdep := deps, tables, fwdTrees := [∅], rnd := rnd.next }

/-- The table of one destination. -/
def fcpFwdtable (fuel : ℕ) (G : PortGraph V E) (args : PlinkoArgs)
    (getShortestPath : ℕ → Adj V E → V → V → List E)
    (bfsParents : Adj V E → V → V → Option V) (pick : V → ℕ) (dst : V) (rnd : Rnd) :
    Option (FcpTables G) := do
  let s ← fcpInit G getShortestPath bfsParents pick dst rnd
  (Loop.run (fcpStep G args getShortestPath dst) fuel s).join

end ResSim
