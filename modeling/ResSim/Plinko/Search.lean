import ResSim.Plinko.Build

/-!
# Finding backup paths

A new path of the rounds is a stored path that avoids the failed links, or a shortest path
without them. Either way it leads to the destination and takes no link twice, and there is
one unless the failed links cut the switch off.
-/

namespace ResSim

variable {V E : Type} [DecidableEq V] [DecidableEq E] {G : PortGraph V E}
  {getShortestPath : Adj V E → V → V → List E} {v w dst : V} {e : E} {failedE : Finset E}
  {rp hoplist : List ℕ} {iP : List E} {N : Path G}

/-- A path of the rounds from `v` for packets that know the failed links. -/
structure IsBranch (dst v : V) (failedE : Finset E) (rp : List ℕ) (N : Path G) : Prop where
  v_eq : N.v = v
  failedE_eq : N.failedE = failedE
  extra_eq : N.extraRPath = rp
  rv_eq : N.rv = dst
  path_eq : N.path = N.fullPath
  ne_nil : N.fullPath ≠ []
  nodup : N.edges.Nodup

/-- The links that are up, as a graph. -/
def upAdj (G : PortGraph V E) (failedE : Finset E) : Adj V E :=
  ((mygraphToIgraph G).subgraphEdges (fun e => e ∉ failedE)).adj

omit [DecidableEq E] in
lemma mem_mygraphToIgraph :
    (e, w) ∈ (mygraphToIgraph G).adj v ↔ ∃ p q, G.hop v p = some (e, w, q) := by
  simp only [mygraphToIgraph, List.mem_filterMap, Option.map_eq_some_iff, Prod.exists,
    Prod.mk.injEq]
  constructor
  · rintro ⟨p, _, e', w', q, hhop, rfl, rfl⟩
    exact ⟨p, q, hhop⟩
  · rintro ⟨p, q, hhop⟩
    exact ⟨p, PortGraph.hop_mem_portList hhop, e, w, q, hhop, rfl, rfl⟩

lemma mem_upAdj :
    (e, w) ∈ upAdj G failedE v ↔ e ∉ failedE ∧ ∃ p q, G.hop v p = some (e, w, q) := by
  rw [upAdj, IGraph.subgraphEdges, List.mem_filter, mem_mygraphToIgraph, decide_eq_true_iff,
    and_comm]

lemma EdgeWalk.of_subset {F : Finset E} (h : EdgeWalk (upAdj G F) v iP w) (hsub : failedE ⊆ F) :
    EdgeWalk (upAdj G failedE) v iP w := by
  refine h.mono (fun u a ha => ?_)
  obtain ⟨haF, hhop⟩ := mem_upAdj.mp ha
  exact mem_upAdj.mpr ⟨fun hin => haF (hsub hin), hhop⟩

omit [DecidableEq E] in
lemma mygraphToIgraph_ends (e : E) (x y x' y' : V) (h : (e, y) ∈ (mygraphToIgraph G).adj x)
    (h' : (e, y') ∈ (mygraphToIgraph G).adj x') : (x = x' ∧ y = y') ∨ (x = y' ∧ y = x') := by
  obtain ⟨p, q, hhop⟩ := mem_mygraphToIgraph.mp h
  obtain ⟨p', q', hhop'⟩ := mem_mygraphToIgraph.mp h'
  by_cases hx : x = x'
  · subst hx
    exact .inl ⟨rfl, (PortGraph.hop_unique hhop hhop').2.1⟩
  · obtain ⟨h₁, h₂⟩ := PortGraph.hop_back hhop hhop' hx
    exact .inr ⟨h₂.symm, h₁.symm⟩

lemma upAdj_empty : upAdj G ∅ = (mygraphToIgraph G).adj := by
  funext v
  apply List.filter_eq_self.mpr
  intro a _
  simp

lemma exists_hoplist_up (h : EdgeWalk (upAdj G failedE) v iP dst) :
    ∃ hoplist arcs, igraphPathToHoplist G v dst iP = some hoplist ∧
      G.Leads failedE v hoplist dst ∧ arcSet G v hoplist = some arcs ∧
      arcs.map Prod.snd = iP := by
  induction iP generalizing v with
  | nil =>
    obtain rfl := edgeWalk_nil.mp h
    exact ⟨[], [], if_pos rfl, rfl, rfl, rfl⟩
  | cons e iP ih =>
    obtain ⟨w, he, hw⟩ := edgeWalk_cons.mp h
    obtain ⟨hup, p, q, hhop⟩ := mem_upAdj.mp he
    obtain ⟨hoplist, arcs, hrun, hl, ha, hedges⟩ := ih hw
    refine ⟨p :: hoplist, (v, e) :: arcs, ?_, ⟨e, w, q, hhop, hup, hl⟩,
      arcSet_cons.mpr ⟨e, w, q, arcs, hhop, ha, rfl⟩, by rw [List.map_cons, hedges]⟩
    rw [igraphPathToHoplist_hop hhop, hrun, Option.map_some]

lemma edgeWalk_of_arcSet {arcs : List (V × E)} (h : G.Leads failedE v hoplist dst)
    (ha : arcSet G v hoplist = some arcs) :
    EdgeWalk (upAdj G failedE) v (arcs.map Prod.snd) dst := by
  induction hoplist generalizing v arcs with
  | nil =>
    obtain rfl := Option.some.inj ha
    exact h
  | cons hop hoplist ih =>
    obtain ⟨e, w, q, hhop, he, hl⟩ := h
    obtain ⟨e', w', q', arcs', hhop', ha', rfl⟩ := arcSet_cons.mp ha
    obtain ⟨rfl, rfl, rfl⟩ := PortGraph.hop_det hhop hhop'
    exact ⟨w, mem_upAdj.mpr ⟨he, hop, q, hhop⟩, ih hl ha'⟩

lemma edgeWalk_of_leads (h : G.Leads failedE v hoplist dst) :
    ∃ p, EdgeWalk (upAdj G failedE) v p dst ∧ p.length = hoplist.length := by
  obtain ⟨_, arcs, _, ha, _⟩ := leads_iff.mp h
  exact ⟨_, edgeWalk_of_arcSet h ha, by rw [List.length_map, arcSet_length ha]⟩

/-- A path over links that are up with as few hops as possible. -/
def ShortestHops (G : PortGraph V E) (failedE : Finset E) (v : V) (hops : List ℕ) (dst : V) :
    Prop :=
  G.Leads failedE v hops dst ∧ ∀ hops', G.Leads failedE v hops' dst → hops.length ≤ hops'.length

omit [DecidableEq E] in
lemma Path.edges_length (P : Path G) : P.edges.length = P.fullPath.length := by
  rw [Path.edges, List.length_map, arcSet_length P.arcSet_eq]

lemma shortestHops_of_shortest (hN : IsBranch dst v failedE rp N)
    (h : Shortest (upAdj G failedE) v N.edges dst) : ShortestHops G failedE v N.fullPath dst := by
  have hl := N.leads
  rw [hN.v_eq, hN.failedE_eq, hN.rv_eq] at hl
  refine ⟨hl, fun hops' hl' => ?_⟩
  obtain ⟨p, hp, hlen⟩ := edgeWalk_of_leads hl'
  rw [← N.edges_length, ← hlen]
  exact h.2 p hp

lemma shortest_of_shortestHops {arcs : List (V × E)}
    (h : ShortestHops G failedE v hoplist dst) (ha : arcSet G v hoplist = some arcs) :
    Shortest (upAdj G failedE) v (arcs.map Prod.snd) dst := by
  refine ⟨edgeWalk_of_arcSet h.1 ha, fun q hq => ?_⟩
  obtain ⟨hops', arcs', _, hl, ha', hedges⟩ := exists_hoplist_up hq
  have hle := h.2 hops' hl
  rw [← hedges, List.length_map, List.length_map, arcSet_length ha, arcSet_length ha']
  exact hle

lemma upAdj_ne_nil_of_edgeWalk (hne : v ≠ dst) (h : EdgeWalk (upAdj G failedE) v iP dst) :
    upAdj G failedE v ≠ [] ∧ upAdj G failedE dst ≠ [] := by
  constructor
  · cases iP with
    | nil => exact absurd (edgeWalk_nil.mp h) hne
    | cons e iP =>
      obtain ⟨w, he, _⟩ := edgeWalk_cons.mp h
      exact List.ne_nil_of_mem he
  · rcases List.eq_nil_or_concat iP with rfl | ⟨p, e, rfl⟩
    · exact absurd (edgeWalk_nil.mp h) hne
    · rw [List.concat_eq_append] at h
      obtain ⟨w, _, he⟩ := edgeWalk_concat.mp h
      obtain ⟨hup, p, q, hhop⟩ := mem_upAdj.mp he
      exact List.ne_nil_of_mem (mem_upAdj.mpr ⟨hup, q, p, PortGraph.hop_symm hhop⟩)

/-- A path made of the links of a shortest walk, for packets that know some of the links that
it avoids. -/
lemma exists_branch_of_shortest {D : Finset E} (hne : v ≠ dst)
    (h : Shortest (upAdj G failedE) v iP dst) (hsub : D ⊆ failedE) (rp : List ℕ) :
    ∃ hoplist N, igraphPathToHoplist G v dst iP = some hoplist ∧ hoplist ≠ [] ∧
      mkPath G v hoplist hoplist D rp = some N ∧ IsBranch dst v D rp N ∧ N.edges = iP ∧
      G.Leads failedE v N.fullPath dst := by
  obtain ⟨hoplist, arcs, hrun, hl, ha, hedges⟩ := exists_hoplist_up h.1
  obtain ⟨N, hN, hv, hpath, hfull, hrv, hfailed, hextra⟩ :=
    exists_mkPath hoplist (leads_mono hl hsub) rp
  have hNedges : N.edges = iP := by
    have harcs := N.arcSet_eq
    rw [hv, hfull, ha, Option.some.injEq] at harcs
    rw [Path.edges, ← harcs, hedges]
  have hnodup : iP.Nodup := h.nodup (fun e x y x' y' hy hy' => mygraphToIgraph_ends e x y x' y'
    (mem_mygraphToIgraph.mpr (mem_upAdj.mp hy).2) (mem_mygraphToIgraph.mpr (mem_upAdj.mp hy').2))
  have hnil : hoplist ≠ [] := by
    rintro rfl
    exact hne hl
  refine ⟨hoplist, N, hrun, hnil, hN, ?_, hNedges, hfull ▸ hl⟩
  exact ⟨hv, hfailed, hextra, hrv, hpath.trans hfull.symm, hfull ▸ hnil, hNedges ▸ hnodup⟩

variable (rp) in
/-- The path search finds a shortest path, unless there is no path. -/
theorem shortestPath_spec (hsp : IsPathFinder getShortestPath) (hdst : 0 < G.numhosts dst)
    (hne : v ≠ dst) (dfr : Bool) (arcs : List (V × E)) :
    (∃ N, shortestPath G getShortestPath (mygraphToIgraph G) v dst failedE rp dfr arcs =
        some (some N) ∧ IsBranch dst v failedE rp N ∧
        N.edges = getShortestPath (upAdj G failedE) v dst ∧
        Shortest (upAdj G failedE) v N.edges dst) ∨
    (shortestPath G getShortestPath (mygraphToIgraph G) v dst failedE rp dfr arcs = some none ∧
      ¬ ∃ p, EdgeWalk (upAdj G failedE) v p dst) := by
  have hsearch : shortestPath G getShortestPath (mygraphToIgraph G) v dst failedE rp dfr arcs =
      if !(upAdj G failedE v).isEmpty && !(upAdj G failedE dst).isEmpty then
        if getShortestPath (upAdj G failedE) v dst = [] then some none
        else (igraphPathToHoplist G v dst (getShortestPath (upAdj G failedE) v dst)).bind
          (fun hoplist => (mkPath G v hoplist hoplist failedE rp).map some)
      else some none := by
    have hund : (mygraphToIgraph G).directed = false := rfl
    rw [shortestPath, if_neg hne]
    simp only [guard, if_pos hdst, hund, implies_true, if_true, Bool.false_eq_true, if_false,
      Option.bind_eq_bind]
    rfl
  by_cases hw : ∃ p, EdgeWalk (upAdj G failedE) v p dst
  · left
    have hs := hsp.shortest _ v dst hw
    obtain ⟨hv, hd⟩ := upAdj_ne_nil_of_edgeWalk hne hs.1
    obtain ⟨hoplist, N, hrun, _, hN, hbranch, hedges, _⟩ :=
      exists_branch_of_shortest hne hs (Finset.Subset.refl _) rp
    have hnil : getShortestPath (upAdj G failedE) v dst ≠ [] := by
      intro hnil
      rw [hnil] at hs
      exact hne hs.1
    refine ⟨N, ?_, hbranch, hedges, hedges ▸ hs⟩
    rw [hsearch, if_pos (by simp [hv, hd]), if_neg hnil, hrun, Option.bind_some, hN,
      Option.map_some]
  · right
    refine ⟨?_, hw⟩
    rw [hsearch, if_pos (hsp.nil _ v dst hw), ite_self]

/-- A switch with hosts starts with a path unless it is cut off. -/
theorem initPath_spec (hsp : IsPathFinder getShortestPath) (dst v : V) :
    (∃ N, initPath G getShortestPath dst v = some (some N) ∧ IsBranch dst v ∅ [] N) ∨
    (initPath G getShortestPath dst v = some none ∧
      (0 < G.numhosts v → v ≠ dst → ¬ ∃ p, EdgeWalk (upAdj G ∅) v p dst)) := by
  rw [initPath, ← upAdj_empty]
  by_cases hhosts : 0 < G.numhosts v
  · simp only [if_pos hhosts, Option.bind_eq_bind]
    by_cases hw : v ≠ dst ∧ ∃ p, EdgeWalk (upAdj G ∅) v p dst
    · left
      have hs := hsp.shortest _ v dst hw.2
      obtain ⟨hoplist, N, hrun, hnil, hN, hbranch, _⟩ :=
        exists_branch_of_shortest hw.1 hs (Finset.Subset.refl _) []
      have hiP : getShortestPath (upAdj G ∅) v dst ≠ [] := by
        intro hiP
        rw [hiP] at hs
        exact hw.1 hs.1
      refine ⟨N, ?_, hbranch⟩
      rw [if_neg hiP, hrun, Option.bind_some, if_neg hnil, hN, Option.map_some]
    · right
      refine ⟨?_, fun _ hne => (not_and.mp hw) hne⟩
      have hiP : getShortestPath (upAdj G ∅) v dst = [] := by
        by_cases hne : v = dst
        · subst hne
          exact (hsp.shortest _ v v ⟨[], rfl⟩).eq_nil
        · exact hsp.nil _ v dst (not_and.mp hw hne)
      rw [if_pos hiP]
  · right
    exact ⟨if_neg hhosts, fun h => absurd h hhosts⟩

/-- A stored path leads to the destination. -/
structure IsRoute (fwdRouting : FwdRouting) (dst v : V) (N : Path G) : Prop where
  v_eq : N.v = v
  rv_eq : N.rv = dst
  path_eq : fwdRouting = .src → N.path = N.fullPath
  ne_nil : N.fullPath ≠ []
  nodup : N.edges.Nodup

/-- A stored path that compression-aware routing may use again. -/
def Usable (args : PlinkoArgs) (knownFailedE : Finset E) (arcs : List (V × E))
    (opath : Path G) : Prop :=
  (∀ e ∈ opath.edges, e ∉ knownFailedE) ∧ (args.dfr → ∀ a ∈ opath.arcs, a ∉ arcs)

variable {args : PlinkoArgs} {fwdtable : List (FwdKey E × Path G)} {arcs : List (V × E)}

/-- The most common of some paths is one of them, if there are any. -/
lemma mostCommon_spec (draw : ℕ) (paths : List (List ℕ)) :
    (∃ p ∈ paths, ((shuffle draw (paths.dedup.map (fun p => (p, paths.count p)))).argmax
      Prod.snd).map Prod.fst = some p) ∨
    (paths = [] ∧ ((shuffle draw (paths.dedup.map (fun p => (p, paths.count p)))).argmax
      Prod.snd).map Prod.fst = none) := by
  cases hmax : (shuffle draw (paths.dedup.map (fun p => (p, paths.count p)))).argmax
      Prod.snd with
  | none =>
    right
    rw [List.argmax_eq_none] at hmax
    have hnil := List.perm_nil.mp (hmax ▸ (shuffle_perm draw _).symm)
    exact ⟨(List.dedup_eq_nil _).mp (List.map_eq_nil_iff.mp hnil), rfl⟩
  | some a =>
    left
    obtain ⟨p, hp, rfl⟩ := List.mem_map.mp (mem_shuffle.mp (List.argmax_mem hmax))
    exact ⟨p, List.mem_dedup.mp hp, rfl⟩

lemma existingPath_spec
    (hroute : ∀ opath ∈ fwdtable.map Prod.snd, IsRoute args.fwdRouting dst v opath) (draw : ℕ) :
    (∃ opath ∈ fwdtable.map Prod.snd, Usable args failedE arcs opath ∧
      existingPath args dst fwdtable failedE arcs draw = some (some opath.fullPath)) ∨
    ((∀ opath ∈ fwdtable.map Prod.snd, ¬ Usable args failedE arcs opath) ∧
      existingPath args dst fwdtable failedE arcs draw = some none) := by
  let usable := (fwdtable.map Prod.snd).filter (fun opath =>
    (∀ e ∈ opath.edges, e ∉ failedE) ∧ (args.dfr → ∀ a ∈ opath.arcs, a ∉ arcs))
  have husable : ∀ opath, opath ∈ usable ↔
      opath ∈ fwdtable.map Prod.snd ∧ Usable args failedE arcs opath := by
    intro opath
    rw [List.mem_filter, decide_eq_true_iff]
    rfl
  have hassert : ∀ opath ∈ usable, opath.rv = dst ∧
      (args.fwdRouting = .src → opath.path = opath.fullPath) := by
    intro opath h
    have hr := hroute opath ((husable opath).mp h).1
    exact ⟨hr.rv_eq, hr.path_eq⟩
  let fullPaths := usable.map Path.fullPath
  have hrun : existingPath args dst fwdtable failedE arcs draw =
      some (((shuffle draw (fullPaths.dedup.map (fun p => (p, fullPaths.count p)))).argmax
        Prod.snd).map Prod.fst) := by
    rw [existingPath]
    exact (congrArg (fun o => Option.bind o _) (if_pos hassert)).trans rfl
  rcases mostCommon_spec draw fullPaths with ⟨p, hp, hmost⟩ | ⟨hnil, hmost⟩
  · left
    obtain ⟨opath, hop, rfl⟩ := List.mem_map.mp hp
    obtain ⟨hin, hus⟩ := (husable opath).mp hop
    exact ⟨opath, hin, hus, by rw [hrun, hmost]⟩
  · right
    refine ⟨fun opath hin hus => ?_, by rw [hrun, hmost]⟩
    have hmem := (husable opath).mpr ⟨hin, hus⟩
    rw [List.map_eq_nil_iff.mp hnil] at hmem
    cases hmem

/-- How a new path was found. -/
inductive Found (G : PortGraph V E) (args : PlinkoArgs)
    (getShortestPath : Adj V E → V → V → List E) (dst v : V)
    (fwdtable : List (FwdKey E × Path G)) (failedE : Finset E) (arcs : List (V × E)) :
    Path G → Prop
  | reused (opath N : Path G) (hin : opath ∈ fwdtable.map Prod.snd)
      (husable : Usable args failedE arcs opath) (heq : N.arcs = opath.arcs) :
      Found G args getShortestPath dst v fwdtable failedE arcs N
  | searched (N : Path G)
      (hnone : args.compressionAwareRouting →
        ∀ opath ∈ fwdtable.map Prod.snd, ¬ Usable args failedE arcs opath)
      (heq : N.edges = getShortestPath (upAdj G failedE) v dst)
      (hshort : Shortest (upAdj G failedE) v N.edges dst) :
      Found G args getShortestPath dst v fwdtable failedE arcs N

omit [DecidableEq E] in
lemma IsRoute.arcSet_eq {fwdRouting : FwdRouting} {opath : Path G}
    (h : IsRoute fwdRouting dst v opath) : arcSet G v opath.fullPath = some opath.arcs := by
  rw [← h.v_eq]
  exact opath.arcSet_eq

variable (rp) in
lemma exists_reused {fwdRouting : FwdRouting} {opath : Path G}
    (hroute : IsRoute fwdRouting dst v opath) (hl : G.Leads failedE v opath.fullPath dst) :
    ∃ N, mkPath G v opath.fullPath opath.fullPath failedE rp = some N ∧
      IsBranch dst v failedE rp N ∧ N.arcs = opath.arcs ∧ N.fullPath = opath.fullPath := by
  obtain ⟨N, hN, hv, hpath, hfull, hrv, hfailed, hextra⟩ :=
    exists_mkPath opath.fullPath hl rp
  have harcs : N.arcs = opath.arcs := by
    have h := N.arcSet_eq
    rw [hv, hfull, hroute.arcSet_eq, Option.some.injEq] at h
    exact h.symm
  refine ⟨N, hN, ⟨hv, hfailed, hextra, hrv, hpath.trans hfull.symm, ?_, ?_⟩, harcs, hfull⟩
  · rw [hfull]
    exact hroute.ne_nil
  · rw [Path.edges, harcs]
    exact hroute.nodup

omit [DecidableEq E] in
lemma IsRoute.reversePath_eq {fwdRouting : FwdRouting} {opath : Path G}
    (h : IsRoute fwdRouting dst v opath) :
    ∃ r, reversePath G v opath.fullPath = some (dst, r) := by
  obtain ⟨r, hr⟩ := opath.reversePath_eq
  rw [h.v_eq, h.rv_eq] at hr
  exact ⟨r, hr⟩

omit [DecidableEq E] in
lemma Usable.leads {opath : Path G} (hus : Usable args failedE arcs opath)
    (hroute : IsRoute args.fwdRouting dst v opath) :
    G.Leads failedE v opath.fullPath dst := by
  obtain ⟨r, hr⟩ := hroute.reversePath_eq
  exact leads_of_arcSet hr hroute.arcSet_eq fun a hin => hus.1 a.2 (List.mem_map_of_mem hin)

variable (failedE rp arcs) in
/-- A new path leads to the destination without the failed links; there is one unless they
cut the switch off. -/
theorem newPath_spec {getShortestPath : ℕ → Adj V E → V → V → List E}
    (hsp : ∀ n, IsPathFinder (getShortestPath n)) (hdst : 0 < G.numhosts dst)
    (hroute : ∀ opath ∈ fwdtable.map Prod.snd, IsRoute args.fwdRouting dst v opath)
    {path : Path G} (hrv : path.rv = dst) (rnd : Rnd) :
    (∃ N, newPath G args getShortestPath dst v fwdtable rnd path failedE rp arcs =
        some (some N) ∧ IsBranch dst v failedE rp N ∧
        Found G args (getShortestPath (rnd 1)) dst v fwdtable failedE arcs N) ∨
    (newPath G args getShortestPath dst v fwdtable rnd path failedE rp arcs = some none ∧
      (v ≠ dst → ¬ ∃ p, EdgeWalk (upAdj G failedE) v p dst)) := by
  have hsearch : (args.compressionAwareRouting →
      ∀ opath ∈ fwdtable.map Prod.snd, ¬ Usable args failedE arcs opath) →
      (∃ N, shortestPath G (getShortestPath (rnd 1)) (mygraphToIgraph G) v path.rv failedE rp
        args.dfr arcs = some (some N) ∧ IsBranch dst v failedE rp N ∧
        Found G args (getShortestPath (rnd 1)) dst v fwdtable failedE arcs N) ∨
      (shortestPath G (getShortestPath (rnd 1)) (mygraphToIgraph G) v path.rv failedE rp
        args.dfr arcs = some none ∧
        (v ≠ dst → ¬ ∃ p, EdgeWalk (upAdj G failedE) v p dst)) := by
    intro hnone
    rw [hrv]
    by_cases hne : v = dst
    · exact .inr ⟨if_pos hne, fun h => absurd hne h⟩
    · rcases shortestPath_spec rp (hsp (rnd 1)) hdst hne args.dfr arcs with
        ⟨N, hN, hb, hedges, hs⟩ | ⟨hN, hno⟩
      · exact .inl ⟨N, hN, hb, .searched N hnone hedges hs⟩
      · exact .inr ⟨hN, fun _ => hno⟩
  rw [newPath]
  by_cases hc : args.compressionAwareRouting = true
  · rcases existingPath_spec hroute (rnd 0) with ⟨opath, hin, hus, hrun⟩ | ⟨hnone, hrun⟩
    · left
      obtain ⟨N, hN, hb, harcs, _⟩ :=
        exists_reused rp (hroute opath hin) (hus.leads (hroute opath hin))
      refine ⟨N, ?_, hb, .reused opath N hin hus harcs⟩
      simp only [if_pos hc, hrun, Option.bind_eq_bind, Option.bind_some, hN, Option.map_some]
    · simp only [if_pos hc, hrun, Option.bind_eq_bind, Option.bind_some, guard, if_pos hrv]
      exact hsearch (fun _ => hnone)
  · simp only [if_neg hc, Option.bind_eq_bind, Option.bind_some, guard, if_pos hrv]
    exact hsearch (fun h => absurd h hc)

end ResSim
