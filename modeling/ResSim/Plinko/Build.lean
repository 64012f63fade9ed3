import Mathlib.Data.List.MinMax
import Mathlib.Data.List.Dedup
import Mathlib.Data.Finset.Card
import ResSim.Lib.Dict
import ResSim.Lib.Loop
import ResSim.Lib.Random
import ResSim.Trees.ForestPaths
import ResSim.Plinko.Path

/-!
# Building Plinko tables

The table of one destination starts with a path from every switch that has hosts. Every
round then takes the paths of the round before, fails each of their links, and adds a backup
path from the switch in front of the failed link, stored under the way back to where the
packet came from.
-/

namespace ResSim

/-- `--fwd-routing`. -/
inductive FwdRouting where
  | src
  | hopByHop
  deriving DecidableEq

/-- The options that the tables depend on. -/
structure PlinkoArgs where
  rounds : ℕ
  fwdRouting : FwdRouting
  compressionAwareRouting : Bool
  dfr : Bool

/-- What the path search uses of an igraph graph: whether it is directed, its vertices, and
the edges that leave them. -/
structure IGraph (V E : Type) where
  directed : Bool
  vs : V → Bool
  adj : Adj V E

namespace IGraph

variable {V E : Type}

def toDirected (iG : IGraph V E) : IGraph V E := { iG with directed := true }

def deleteEdges (iG : IGraph V E) (removed : V → E → Bool) : IGraph V E :=
  { iG with adj := fun v => (iG.adj v).filter (fun a => !removed v a.1) }

/-- The graph of some edges and their ends. -/
def subgraphEdges (iG : IGraph V E) (kept : E → Bool) : IGraph V E where
  directed := iG.directed
  vs v := !((iG.adj v).filter (fun a => kept a.1)).isEmpty
  adj v := (iG.adj v).filter (fun a => kept a.1)

end IGraph

variable {V E : Type} [DecidableEq V]

def mygraphToIgraph (G : PortGraph V E) : IGraph V E where
  directed := false
  vs _ := true
  adj v := (G.portList v).filterMap (fun port => (G.hop v port).map (fun h => (h.1, h.2.1)))

variable [DecidableEq E]

/-- The path search. The result is `none` where there is no path. -/
def shortestPath (G : PortGraph V E) (getShortestPath : Adj V E → V → V → List E)
    (iG : IGraph V E) (src dst : V) (failedE : Finset E) (extraRevPath : List ℕ) (dfr : Bool)
    (arcs : List (V × E)) : Option (Option (Path G)) :=
  if src = dst then some none
  else do
    guard (0 < G.numhosts dst)
    guard (dfr → iG.directed = false)
    -- The copy without the used arcs; the assignment below replaces it in every case.
    let _subIG := if dfr then
      iG.toDirected.deleteEdges (fun x e => e ∈ failedE || (x, e) ∈ arcs) else iG
    let subIG := if iG.directed then iG else iG.subgraphEdges (fun e => e ∉ failedE)
    if subIG.vs src && subIG.vs dst then
      let iP := getShortestPath subIG.adj src dst
      if iP = [] then some none
      else do
        let hoplist ← igraphPathToHoplist G src dst iP
        (mkPath G src hoplist hoplist failedE extraRevPath).map some
    else some none

/-- The first path of a switch. -/
def initPath (G : PortGraph V E) (getShortestPath : Adj V E → V → V → List E) (d v : V) :
    Option (Option (Path G)) :=
  if 0 < G.numhosts v then
    let iP := getShortestPath (mygraphToIgraph G).adj v d
    if iP = [] then some none
    else do
      let hoplist ← igraphPathToHoplist G v d iP
      if hoplist = [] then some none else (mkPath G v hoplist hoplist ∅ []).map some
  else some none

/-- Key of an entry: the way back, the link that must be up, the links that must be down. -/
abbrev FwdKey (E : Type) := List ℕ × E × Finset E

/-- The tables of all switches for one destination. -/
abbrev PlinkoTable (G : PortGraph V E) := List ((V × FwdKey E) × Path G)

/-- `v.fwdtable`. -/
def PlinkoTable.atSwitch {G : PortGraph V E} (tbl : PlinkoTable G) (v : V) :
    List (FwdKey E × Path G) :=
  tbl.filterMap (fun x => if x.1.1 = v then some (x.1.2, x.2) else none)

/-- Stores a path hop by hop. -/
def installHops (G : PortGraph V E) (failedE : Finset E) :
    V → List ℕ → List ℕ → PlinkoTable G → Option (PlinkoTable G)
  | _, _, [], tbl => some tbl
  | curr, rp, hop :: rest, tbl => do
    let (firste, ncurr, rhop) ← G.hop curr hop
    let currpath ← mkPath G curr [hop] (hop :: rest) failedE rp
    installHops G failedE ncurr (rhop :: rp) rest
      (dictSet tbl (curr, rp, firste, (localFailedE G failedE curr).toFinset) currpath)

/-- Stores a new path. -/
def install (G : PortGraph V E) (fwdRouting : FwdRouting) (tbl : PlinkoTable G)
    (newpath : Path G) : Option (PlinkoTable G) :=
  match fwdRouting with
  | .src => do
    let hop ← newpath.path.head?
    let firste ← G.edges newpath.v hop
    some (dictSet tbl (newpath.v, newpath.extraRPath, firste,
      (localFailedE G newpath.failedE newpath.v).toFinset) newpath)
  | .hopByHop => installHops G newpath.failedE newpath.v newpath.extraRPath newpath.path tbl

/-- The paths to do in the next round, by the failed links. -/
abbrev Deps (G : PortGraph V E) := List (Finset E × List (Path G))

def updateDeps (G : PortGraph V E) (edgeDeps : Finset E) (deps : Deps G) (path : Path G) :
    Option (Deps G) := do
  let arcs ← arcSet G path.v path.path
  arcs.foldlM (fun deps a => do
    guard (a.2 ∉ edgeDeps)
    some (dictAppend (insert a.2 edgeDeps) path deps)) deps

/-- The same for paths that are stored with more data. -/
def updateDepsOf {β : Type} {G : PortGraph V E} (toPath : β → Path G) (edgeDeps : Finset E)
    (deps : List (Finset E × List β)) (path : β) : Option (List (Finset E × List β)) := do
  let arcs ← arcSet G (toPath path).v (toPath path).path
  arcs.foldlM (fun deps a => do
    guard (a.2 ∉ edgeDeps)
    some (dictAppend (insert a.2 edgeDeps) path deps)) deps

/-- Compression-aware routing: the full path most common among the stored paths that avoid
the failed links and, with `--dfr`, the used arcs. -/
def existingPath (args : PlinkoArgs) {G : PortGraph V E} (dst : V)
    (fwdtable : List (FwdKey E × Path G)) (knownFailedE : Finset E) (arcs : List (V × E))
    (draw : ℕ) : Option (Option (List ℕ)) := do
  let usable := (fwdtable.map Prod.snd).filter (fun opath =>
    (∀ e ∈ opath.edges, e ∉ knownFailedE) ∧ (args.dfr → ∀ a ∈ opath.arcs, a ∉ arcs))
  guard (∀ opath ∈ usable, opath.rv = dst ∧
    (args.fwdRouting = .src → opath.path = opath.fullPath))
  let fullPaths := usable.map Path.fullPath
  let existingPaths := fullPaths.dedup.map (fun p => (p, fullPaths.count p))
  some (((shuffle draw existingPaths).argmax Prod.snd).map Prod.fst)

/-- State of the rounds. -/
structure BuildState (G : PortGraph V E) where
  i : ℕ
  /-- The failed links and paths left to do in this round. -/
  todo : List (Finset E × Path G)
  nextdep : Deps G
  fwdtable : PlinkoTable G
  rnd : Rnd

/-- The path that a switch uses once it knows the failed links. -/
def newPath (G : PortGraph V E) (args : PlinkoArgs)
    (getShortestPath : ℕ → Adj V E → V → V → List E) (dst v : V)
    (fwdtable : List (FwdKey E × Path G)) (rnd : Rnd) (path : Path G) (knownFailedE : Finset E)
    (fullRevPath : List ℕ) (arcs : List (V × E)) : Option (Option (Path G)) := do
  let existing ← if args.compressionAwareRouting then
    existingPath args dst fwdtable knownFailedE arcs (rnd 0) else some none
  match existing with
  | some opath => (mkPath G v opath opath knownFailedE fullRevPath).map some
  | none => do
    guard (path.rv = dst)
    shortestPath G (getShortestPath (rnd 1)) (mygraphToIgraph G) v path.rv knownFailedE
      fullRevPath args.dfr arcs

/-- Adds the backup path for one path and the links that failed. -/
def addBackup (G : PortGraph V E) (args : PlinkoArgs)
    (getShortestPath : ℕ → Adj V E → V → V → List E) (dst : V) (s : BuildState G)
    (edgeDeps : Finset E) (path : Path G) : Option (BuildState G) := do
  guard (edgeDeps.card = s.i)
  let (v, rpath) ← revpathAtFail G edgeDeps path.v path.path
  let fullRevPath := rpath ++ path.extraRPath
  let knownFailedE := path.failedE ∪ (localFailedE G edgeDeps v).toFinset
  guard (knownFailedE = edgeDeps)
  let (start, fwdPath) ← reversePath G v fullRevPath
  let arcs ← arcSet G start fwdPath
  let newpath ← newPath G args getShortestPath dst v (s.fwdtable.atSwitch v) s.rnd path
    knownFailedE fullRevPath arcs
  let rnd := s.rnd.next.next
  match newpath with
  | none => some { s with rnd }
  | some newpath => do
    let fwdtable ← install G args.fwdRouting s.fwdtable newpath
    let nextdep ← updateDeps G edgeDeps s.nextdep newpath
    some { s with fwdtable, nextdep, rnd }

/-- One pass of the rounds: the next path of the round, or the next round. -/
def plinkoStep (G : PortGraph V E) (args : PlinkoArgs)
    (getShortestPath : ℕ → Adj V E → V → V → List E) (dst : V) (s : BuildState G) :
    Step (BuildState G) (Option (PlinkoTable G)) :=
  match s.todo with
  | [] =>
    if s.nextdep.isEmpty || s.i = args.rounds then .done (some s.fwdtable)
    else .next { s with
      i := s.i + 1
      todo := dictPairs (shuffle (s.rnd 0) s.nextdep)
      nextdep := []
      rnd := s.rnd.next }
  | (edgeDeps, path) :: todo =>
    match addBackup G args getShortestPath dst { s with todo } edgeDeps path with
    | none => .done none
    | some s' => .next s'

/-- The first paths, their entries and what depends on them. -/
def plinkoInit (G : PortGraph V E) (args : PlinkoArgs)
    (getShortestPath : ℕ → Adj V E → V → V → List E) (dst : V) (rnd : Rnd) :
    Option (BuildState G) := do
  let paths ← G.verts.mapM (initPath G (getShortestPath (rnd 0)) dst)
  let paths := paths.reduceOption
  guard (∀ path ∈ paths, path.rv = dst)
  let fwdtable ← paths.foldlM (install G args.fwdRouting) []
  let deps ← paths.foldlM (updateDeps G ∅) []
  some { i := 0, todo := [], nextdep := deps, fwdtable, rnd := rnd.next }

/-- The table of one destination. -/
def plinkoFwdtable (fuel : ℕ) (G : PortGraph V E) (args : PlinkoArgs)
    (getShortestPath : ℕ → Adj V E → V → V → List E) (dst : V) (rnd : Rnd) :
    Option (PlinkoTable G) := do
  let s ← plinkoInit G args getShortestPath dst rnd
  (Loop.run (plinkoStep G args getShortestPath dst) fuel s).join

end ResSim
