import ResSim.Plinko.VertexBuild

/-!
# Finding backup paths around failed switches

A new path enters no switch that is known to have failed. There is one unless the links of
these switches cut the packet off.
-/

namespace ResSim

variable {V E : Type} [DecidableEq V] [DecidableEq E] {G : PortGraph V E}
  {getShortestPath : Adj V E → V → V → List E} {v dst : V} {D : Finset E} {K : Finset V}
  {rp : List ℕ} {args : PlinkoArgs} {fwdtable : List (FwdKey E × Path G)}

/-- A new path from `v` for packets that know the failed links `D` and the failed switches
`K`. -/
structure IsVBranch (dst v : V) (D : Finset E) (K : Finset V) (rp : List ℕ) (N : VPath G) :
    Prop where
  branch : IsBranch dst v D rp N.toPath
  failedV_eq : N.failedV = K
  leads : G.Leads (touchedE G K) v N.fullPath dst

/-- What a path search around failed switches returns. -/
def SearchedV (dst v : V) (D : Finset E) (K : Finset V) (rp : List ℕ)
    (r : Option (Option (VPath G))) : Prop :=
  (∃ N, r = some (some N) ∧ IsVBranch dst v D K rp N) ∨
    (r = some none ∧ (v ≠ dst → dst ∉ K → ¬ ∃ p, EdgeWalk (upAdj G (touchedE G K)) v p dst))

variable (rp) in
/-- The path search finds a path, unless there is none. -/
theorem shortestPathVertices_spec (hsp : IsPathFinder getShortestPath)
    (hdst : 0 < G.numhosts dst) (hD : D ⊆ touchedE G K) (hv : v ∉ K) :
    SearchedV dst v D K rp (shortestPathVertices G getShortestPath (mygraphToIgraph G) v dst D rp
      K false) := by
  by_cases hne : v = dst
  · exact .inr ⟨if_pos hne, fun h => absurd hne h⟩
  by_cases hd : dst ∈ K
  · right
    refine ⟨?_, fun _ h => absurd hd h⟩
    simp [shortestPathVertices, hne, hd, guard, hdst]
  have hsearch : shortestPathVertices G getShortestPath (mygraphToIgraph G) v dst D rp K false =
      if getShortestPath (upAdj G (touchedE G K)) v dst = [] then some none
      else (igraphPathToHoplist G v dst (getShortestPath (upAdj G (touchedE G K)) v dst)).bind
        (fun hoplist => (mkPath G v hoplist hoplist D rp).map (fun P => some ⟨P, K⟩)) := by
    have hund : (mygraphToIgraph G).directed = false := rfl
    have hvs : ∀ x, x ∉ K → ((mygraphToIgraph G).subgraph (fun w => w ∉ K)).vs x = true := by
      intro x hx
      simp [IGraph.subgraph, mygraphToIgraph, hx]
    simp only [shortestPathVertices, if_neg hne, guard, if_pos hdst, if_neg hd, hund,
      Bool.false_eq_true, if_false, if_true, Option.bind_eq_bind, subgraph_adj]
    rw [if_pos (by rw [hvs v hv, hvs dst hd]; rfl)]
    rfl
  rw [hsearch]
  by_cases hw : ∃ p, EdgeWalk (upAdj G (touchedE G K)) v p dst
  · left
    have hs := hsp.shortest _ v dst hw
    obtain ⟨hoplist, N, hrun, _, hN, hbranch, _, hl⟩ := exists_branch_of_shortest hne hs hD rp
    have hnil : getShortestPath (upAdj G (touchedE G K)) v dst ≠ [] := by
      intro hnil
      rw [hnil] at hs
      exact hne hs.1
    refine ⟨⟨N, K⟩, ?_, hbranch, rfl, hl⟩
    rw [if_neg hnil, hrun, Option.bind_some, hN, Option.map_some]
  · right
    exact ⟨if_pos (hsp.nil _ v dst hw), fun _ _ => hw⟩

lemma existingPathVertices_spec
    (hroute : ∀ opath ∈ fwdtable.map Prod.snd, IsRoute args.fwdRouting dst v opath)
    (arcs : List (V × E)) (draw : ℕ) :
    (∃ opath ∈ fwdtable.map Prod.snd, G.Leads (touchedE G K) v opath.fullPath dst ∧
      existingPathVertices args dst fwdtable K arcs draw = some (some opath.fullPath)) ∨
    existingPathVertices args dst fwdtable K arcs draw = some none := by
  let usable := (fwdtable.map Prod.snd).filter (fun opath =>
    (∀ w ∈ opath.vertices, w ∉ K) ∧ (args.dfr → ∀ a ∈ opath.arcs, a ∉ arcs))
  have hassert : ∀ opath ∈ usable, opath.rv = dst ∧
      (args.fwdRouting = .src → opath.path = opath.fullPath) := by
    intro opath h
    have hr := hroute opath (List.mem_of_mem_filter h)
    exact ⟨hr.rv_eq, hr.path_eq⟩
  let fullPaths := usable.map Path.fullPath
  have hrun : existingPathVertices args dst fwdtable K arcs draw =
      some (((shuffle draw (fullPaths.dedup.map (fun p => (p, fullPaths.count p)))).argmax
        Prod.snd).map Prod.fst) := by
    rw [existingPathVertices]
    exact (congrArg (fun o => Option.bind o _) (if_pos hassert)).trans rfl
  rcases mostCommon_spec draw fullPaths with ⟨p, hp, hmost⟩ | ⟨_, hmost⟩
  · left
    obtain ⟨opath, hop, rfl⟩ := List.mem_map.mp hp
    obtain ⟨hin, hus⟩ := List.mem_filter.mp hop
    rw [decide_eq_true_iff] at hus
    have hr := hroute opath hin
    obtain ⟨r, hback⟩ := hr.reversePath_eq
    obtain ⟨vs, hvs⟩ := exists_vertexList hback
    have hvertices : opath.vertices = vs := by
      rw [Path.vertices, hr.v_eq, hvs, Option.getD_some]
    exact ⟨opath, hin, leads_of_vertexList hback hvs (hvertices ▸ hus.1), by rw [hrun, hmost]⟩
  · right
    rw [hrun, hmost]

variable (rp) in
/-- A new path leads to the destination and enters no failed switch; there is one unless they
cut the switch off. -/
theorem newPathVertices_spec {getShortestPath : ℕ → Adj V E → V → V → List E}
    (hsp : ∀ n, IsPathFinder (getShortestPath n)) (hdst : 0 < G.numhosts dst)
    (hdfr : args.dfr = false)
    (hroute : ∀ opath ∈ fwdtable.map Prod.snd, IsRoute args.fwdRouting dst v opath)
    {path : Path G} (hrv : path.rv = dst) (hD : D ⊆ touchedE G K) (hv : v ∉ K) (rnd : Rnd)
    (arcs : List (V × E)) :
    SearchedV dst v D K rp
      (newPathVertices G args getShortestPath dst v fwdtable rnd path D K rp arcs) := by
  have hsearch := shortestPathVertices_spec rp (hsp (rnd 1)) hdst hD hv
  have hguard : (guard (path.rv = dst) : Option Unit) = some () := if_pos hrv
  rw [← hrv, ← hdfr] at hsearch
  rw [newPathVertices]
  by_cases hc : args.compressionAwareRouting = true
  · rcases existingPathVertices_spec hroute arcs (rnd 0) with ⟨opath, hin, hl, hrun⟩ | hrun
    · left
      obtain ⟨N, hN, hb, _, hfull⟩ :=
        exists_reused rp (hroute opath hin) (leads_mono hl hD)
      refine ⟨⟨N, K⟩, ?_, hb, rfl, hfull ▸ hl⟩
      simp only [if_pos hc, hrun, Option.bind_eq_bind, Option.bind_some, hN, Option.map_some]
    · simp only [if_pos hc, hrun, Option.bind_eq_bind, Option.bind_some, hguard]
      exact hrv ▸ hsearch
  · simp only [if_neg hc, Option.bind_eq_bind, Option.bind_some, hguard]
    exact hrv ▸ hsearch

end ResSim
