import ResSim.Fcp.Walk

/-!
# When FCP tables are resilient

The tables are resilient whenever they are built. What can go wrong is that a path that was
redirected is read on at a switch that it does not lead on from.
-/

namespace ResSim

variable {V E : Type} [DecidableEq V] [DecidableEq E] {G : PortGraph V E}

/-- Tables that never leave a choice of entries, and that deliver packets after as many failed
links as there were rounds, unless these cut the source off. -/
structure FcpResilient (rounds : ℕ) (dst : V) (portno : ℕ) (t : FcpTables G) : Prop where
  unambiguous : ∀ v kfe L, ((t.entries v kfe).filter (fun x => Matches L x)).length ≤ 1
  delivers : ∀ F : Finset E, F.card ≤ rounds → ∀ src, 0 < G.numhosts src →
    (∃ path, G.Leads F src path dst) → ∃ fuel hops,
      ethfcpWalkPath fuel G t src dst portno F ∅ = some (some (hops ++ [portno])) ∧
        G.Leads F src hops dst

variable {dst : V} {getShortestPath : ℕ → Adj V E → V → V → List E}
  {bfsParents : Adj V E → V → V → Option V} {t : FcpTables G} {fuel : ℕ}
  (hsp : ∀ n, IsPathFinder (getShortestPath n)) (hbfs : IsBfs bfsParents)
  (hconn : ∀ v, ∃ path, G.Leads ∅ v path dst) (hdst : 0 < G.numhosts dst)
  (args : PlinkoArgs) (pick : V → ℕ) (rnd : Rnd)

include hsp hbfs hconn hdst in
lemma fcpSpliceOk_of_built
    (h : fcpFwdtable fuel G args getShortestPath bfsParents pick dst rnd = some t) :
    (∃ e w, (e, w) ∈ upAdj G ∅ dst) ∧
    ∀ s₀ s, fcpInit G getShortestPath bfsParents pick dst rnd = some s₀ →
      Loop.Reaches (fcpStep G args getShortestPath dst) s₀ s →
        FcpSpliceOk G args.dfr getShortestPath dst s := by
  simp only [fcpFwdtable, Option.bind_eq_bind, Option.bind_eq_some_iff, Option.join_eq_some_iff]
    at h
  obtain ⟨s₁, hinit, hrun⟩ := h
  have hlink : ∃ e w, (e, w) ∈ upAdj G ∅ dst := by
    by_contra hno
    rw [fcpInit, buildTree_eq_none pick hno] at hinit
    cases hinit
  refine ⟨hlink, fun s₀ s hs₀ hreach => ?_⟩
  obtain ⟨s₂, kids, hs₂, hinv⟩ := fcpInit_spec hsp hbfs hconn hlink args pick rnd
  rw [hinit, Option.some.injEq] at hs₀ hs₂
  subst hs₀ hs₂
  by_contra hbad
  have heq := (fcpRounds_raises hsp hdst hinv hreach hbad).unique ⟨fuel, hrun⟩
  cases heq

/-- The tables are built, and are resilient, exactly where the destination has a link and each
new path that the rounds get to can be stored. -/
theorem fcp_resilient_iff (hsp : ∀ n, IsPathFinder (getShortestPath n)) (hbfs : IsBfs bfsParents)
    (hconn : ∀ v, ∃ path, G.Leads ∅ v path dst) (hdst : 0 < G.numhosts dst) (args : PlinkoArgs)
    (pick : V → ℕ) (rnd : Rnd) (portno : ℕ) :
    (∃ fuel t, fcpFwdtable fuel G args getShortestPath bfsParents pick dst rnd = some t ∧
      FcpResilient args.rounds dst portno t) ↔
    (∃ e w, (e, w) ∈ upAdj G ∅ dst) ∧
    ∀ s₀ s, fcpInit G getShortestPath bfsParents pick dst rnd = some s₀ →
      Loop.Reaches (fcpStep G args getShortestPath dst) s₀ s →
        FcpSpliceOk G args.dfr getShortestPath dst s := by
  constructor
  · rintro ⟨fuel, t, hrun, _⟩
    exact fcpSpliceOk_of_built hsp hbfs hconn hdst args pick rnd hrun
  · rintro ⟨hlink, hok⟩
    obtain ⟨s₀, kids, hinit, hinv⟩ := fcpInit_spec hsp hbfs hconn hlink args pick rnd
    obtain ⟨t, ⟨fuel, hrun⟩, T, hres⟩ :=
      fcpRounds_returns hsp hdst hinv (fun s hs => hok s₀ s hinit hs)
    refine ⟨fuel, t, ?_, hres.table.matches_le_one hres.forest, fun F hF src hhosts ⟨path, hpath⟩ =>
      hres.delivered hF hhosts hpath portno⟩
    simp only [fcpFwdtable, hinit, Option.bind_eq_bind, Option.bind_some, hrun, Option.join_some]

omit [DecidableEq E] in
lemma leads_of_reversePath {v u : V} {path : List ℕ}
    (h : (reversePath G v path).map Prod.fst = some u) : G.Leads ∅ v path u := by
  obtain ⟨⟨_, r⟩, hr, rfl⟩ := Option.map_eq_some_iff.mp h
  obtain ⟨arcs, harcs⟩ := exists_arcSet hr
  exact leads_of_arcSet hr harcs (fun _ _ => Finset.notMem_empty _)

/-! ### Paths that are redirected -/

def spliceEnds : Fin 10 → (Fin 8 × ℕ) × (Fin 8 × ℕ)
  | 0 => ((6, 0), (0, 0))
  | 1 => ((6, 1), (1, 0))
  | 2 => ((7, 0), (0, 1))
  | 3 => ((7, 1), (1, 1))
  | 4 => ((1, 2), (2, 0))
  | 5 => ((2, 1), (3, 0))
  | 6 => ((3, 4), (0, 2))
  | 7 => ((1, 3), (4, 1))
  | 8 => ((4, 0), (5, 0))
  | 9 => ((5, 4), (0, 3))

/-- Two switches with a link to the destination, and a switch behind both with two ways of
three hops. -/
def spliceGraph : PortGraph (Fin 8) (Fin 10) :=
  PortGraph.ofFinLinks (fun e => (spliceEnds e).1.1) (fun e => (spliceEnds e).1.2)
    (fun e => (spliceEnds e).2.1) (fun e => (spliceEnds e).2.2)
    (fun v => if v = 0 ∨ v = 6 ∨ v = 7 then 1 else 0) (by decide) (by decide)

def splicePath (v : Fin 8) : List ℕ :=
  [[], [0, 0], [1, 4], [4], [0, 4], [4], [0], [0]].getD v []

lemma spliceGraph_connected (v : Fin 8) : ∃ path, spliceGraph.Leads ∅ v path 0 :=
  ⟨splicePath v, leads_of_reversePath (by revert v; decide +kernel)⟩

/-- Breadth-first search with another choice of equal paths for the switch 6. -/
def tieBreak (adj : Adj (Fin 8) (Fin 10)) (s d : Fin 8) : List (Fin 10) :=
  bfsPath [0, 1, 2, 3, 4, 5, 6, 7] (if s = 6 then fun v => (adj v).reverse else adj) s d

lemma isPathFinder_tieBreak : IsPathFinder tieBreak := by
  have hbfs : IsPathFinder (bfsPath [0, 1, 2, 3, 4, 5, 6, 7] :
      Adj (Fin 8) (Fin 10) → Fin 8 → Fin 8 → List (Fin 10)) := isPathFinder_bfsPath (by decide)
  have hwalk : ∀ (adj : Adj (Fin 8) (Fin 10)) (s x : Fin 8) p y,
      EdgeWalk (if s = 6 then fun v => (adj v).reverse else adj) x p y ↔ EdgeWalk adj x p y := by
    intro adj s x p y
    refine edgeWalk_congr fun v a => ?_
    split
    · exact List.mem_reverse
    · exact Iff.rfl
  refine ⟨fun adj x y h => ?_, fun adj x y h => ?_⟩
  · simp only [← hwalk adj x] at h
    have hs := hbfs.shortest _ x y h
    exact ⟨(hwalk ..).mp hs.1, fun q hq => hs.2 q ((hwalk ..).mpr hq)⟩
  · simp only [← hwalk adj x] at h
    exact hbfs.nil _ x y h

/-- `spliceGraph` with the same ports on both ways of three hops. -/
def mendEnds (e : Fin 10) : (Fin 8 × ℕ) × (Fin 8 × ℕ) :=
  if e = 7 then ((1, 3), (4, 0)) else if e = 8 then ((4, 1), (5, 0)) else spliceEnds e

def mendGraph : PortGraph (Fin 8) (Fin 10) :=
  PortGraph.ofFinLinks (fun e => (mendEnds e).1.1) (fun e => (mendEnds e).1.2)
    (fun e => (mendEnds e).2.1) (fun e => (mendEnds e).2.2)
    (fun v => if v = 0 ∨ v = 6 ∨ v = 7 then 1 else 0) (by decide) (by decide)

def mendPath (v : Fin 8) : List ℕ :=
  [[], [0, 0], [1, 4], [4], [1, 4], [4], [0], [0]].getD v []

lemma mendGraph_connected (v : Fin 8) : ∃ path, mendGraph.Leads ∅ v path 0 :=
  ⟨mendPath v, leads_of_reversePath (by revert v; decide +kernel)⟩

/-- The new path of a pass. -/
def mendNewPath (s : FcpState mendGraph) : Option (FcpPath mendGraph) :=
  s.todo.head?.bind (fun x => (fcpNewPath mendGraph false (fun _ => tieBreak) 0 s x.1 x.2).join)

/-- With two rounds, the path of the switch 6 around its link to the destination and the link
of the switch 7 leaves the switch 1 at port 3, where the table has port 2, and the ports that
are left lead on from there as well. -/
theorem fcp_resilient_mend :
    (∃ fuel t, fcpFwdtable fuel mendGraph ⟨2, .hopByHop, false, false⟩ (fun _ => tieBreak)
      (bfsParent [0, 1, 2, 3, 4, 5, 6, 7]) (fun _ => 0) 0 (fun _ => 0) = some t ∧
        FcpResilient 2 0 7 t) ∧
    ∃ s₀, fcpInit mendGraph (fun _ => tieBreak) (bfsParent [0, 1, 2, 3, 4, 5, 6, 7]) (fun _ => 0)
        0 (fun _ => 0) = some s₀ ∧
      ∃ s, Loop.Reaches (fcpStep mendGraph ⟨2, .hopByHop, false, false⟩ (fun _ => tieBreak) 0)
        s₀ s ∧
      ∃ N, mendNewPath s = some N ∧ N.v = 6 ∧ N.path = [1, 3, 1, 4] ∧
        s.tables.port (1, N.failedE, (localFailedE mendGraph N.failedE 1).toFinset) = some 2 := by
  constructor
  · have hsp : ∀ n : ℕ, IsPathFinder ((fun _ => tieBreak) n : Adj (Fin 8) (Fin 10) →
        Fin 8 → Fin 8 → List (Fin 10)) := fun _ => isPathFinder_tieBreak
    have hbfs : IsBfs (bfsParent [0, 1, 2, 3, 4, 5, 6, 7] :
        Adj (Fin 8) (Fin 10) → Fin 8 → Fin 8 → Option (Fin 8)) := isBfs_bfsParent (by decide)
    have hbuilt : (fcpFwdtable 30 mendGraph ⟨2, .hopByHop, false, false⟩ (fun _ => tieBreak)
        (bfsParent [0, 1, 2, 3, 4, 5, 6, 7]) (fun _ => 0) 0 (fun _ => 0)).isSome := by
      decide +kernel
    obtain ⟨t, ht⟩ := Option.isSome_iff_exists.mp hbuilt
    exact (fcp_resilient_iff hsp hbfs mendGraph_connected (by decide)
      ⟨2, .hopByHop, false, false⟩ (fun _ => 0) (fun _ => 0) 7).mpr
        (fcpSpliceOk_of_built hsp hbfs mendGraph_connected (by decide) _ _ _ ht)
  · have hfound : (fcpInit mendGraph (fun _ => tieBreak) (bfsParent [0, 1, 2, 3, 4, 5, 6, 7])
        (fun _ => 0) 0 (fun _ => 0)).any (fun s₀ =>
          (Loop.states (fcpStep mendGraph ⟨2, .hopByHop, false, false⟩ (fun _ => tieBreak) 0) 30
            s₀).any (fun s => (mendNewPath s).any (fun N => N.v = 6 ∧ N.path = [1, 3, 1, 4] ∧
              s.tables.port (1, N.failedE, (localFailedE mendGraph N.failedE 1).toFinset) =
                some 2))) = true := by decide +kernel
    obtain ⟨s₀, hinit, hfound⟩ := (Option.any_eq_true _ _).mp hfound
    obtain ⟨s, hs, hfound⟩ := List.any_eq_true.mp hfound
    obtain ⟨N, hN, hfound⟩ := (Option.any_eq_true _ _).mp hfound
    exact ⟨s₀, hinit, s, Loop.reaches_of_mem_states hs, N, hN, of_decide_eq_true hfound⟩

/-- With two rounds, the path of the switch 6 around its link to the destination and the link
of the switch 7 is redirected, and read on at the switch 2, where its ports lead nowhere. -/
theorem fcp_redirected_raises :
    IsPathFinder tieBreak ∧
    IsBfs (bfsParent [0, 1, 2, 3, 4, 5, 6, 7] :
      Adj (Fin 8) (Fin 10) → Fin 8 → Fin 8 → Option (Fin 8)) ∧
    (∀ v, ∃ path, spliceGraph.Leads ∅ v path 0) ∧
    ¬ ∃ fuel t, fcpFwdtable fuel spliceGraph ⟨2, .hopByHop, false, false⟩ (fun _ => tieBreak)
      (bfsParent [0, 1, 2, 3, 4, 5, 6, 7]) (fun _ => 0) 0 (fun _ => 0) = some t := by
  refine ⟨isPathFinder_tieBreak, isBfs_bfsParent (by decide), spliceGraph_connected, ?_⟩
  rintro ⟨fuel, t, h⟩
  simp only [fcpFwdtable, Option.bind_eq_bind, Option.bind_eq_some_iff, Option.join_eq_some_iff]
    at h
  obtain ⟨s₀, hinit, hrun⟩ := h
  have hraise : ((fcpInit spliceGraph (fun _ => tieBreak) (bfsParent [0, 1, 2, 3, 4, 5, 6, 7])
      (fun _ => 0) 0 (fun _ => 0)).bind (fun s => Loop.run (fcpStep spliceGraph
        ⟨2, .hopByHop, false, false⟩ (fun _ => tieBreak) 0) 9 s)).map Option.isSome =
      some false := by decide +kernel
  rw [hinit, Option.bind_some, Option.map_eq_some_iff] at hraise
  obtain ⟨r, hr, hnone⟩ := hraise
  have heq := Loop.Returns.unique ⟨9, hr⟩ ⟨fuel, hrun⟩
  rw [heq] at hnone
  cases hnone

end ResSim
