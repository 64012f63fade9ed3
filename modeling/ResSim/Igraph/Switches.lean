import ResSim.Igraph.Distances
import ResSim.Lib.ShortestPath
import ResSim.Throughput.TopK

/-!
# The graph of the switches in igraph

`mygraph_to_igraph` numbers the switches and adds the links one by one. The searches of igraph
meet the contracts that the simulator relies on: the matrix of this graph has the distances
between the switches, and the paths and the parents are answers of such searches as the tables
and the trees are built with.
-/

namespace ResSim

namespace IgraphT

variable {V E : Type} [DecidableEq V]

/-- `mygraph_to_igraph`, for some orders of the switches and of the links. -/
def ofSwitches (G : PortGraph V E) (vs : List V) (es : List E) : Except Fault IgraphT := do
  let g ← empty 0 false
  let g ← g.addVertices vs.length
  es.foldlM (fun g e => g.addEdges [vs.idxOf (G.v1 e), vs.idxOf (G.v2 e)]) g

variable {G : PortGraph V E} {vs : List V} {es : List E} {g : IgraphT} {mode : NeiMode} {x y : V}

/-- The edge of a link, its larger number first. -/
def linkEdge (G : PortGraph V E) (vs : List V) (e : E) : ℕ × ℕ :=
  if vs.idxOf (G.v2 e) < vs.idxOf (G.v1 e) then (vs.idxOf (G.v1 e), vs.idxOf (G.v2 e))
  else (vs.idxOf (G.v2 e), vs.idxOf (G.v1 e))

lemma addEdges_link (h : g.Indexed) (hvs : ∀ v, v ∈ vs) {edges : List (ℕ × ℕ)}
    (hm : g.toMultigraph = ⟨vs.length, false, edges⟩) (e : E) :
    ∃ g', g.addEdges [vs.idxOf (G.v1 e), vs.idxOf (G.v2 e)] = .ok g' ∧ g'.Indexed ∧
      g'.toMultigraph = ⟨vs.length, false, edges ++ [linkEdge G vs e]⟩ := by
  have hlt : ∀ v, vs.idxOf v < vs.length := fun v => List.idxOf_lt_length_of_mem (hvs v)
  have hfits : ∀ a ∈ [(vs.idxOf (G.v1 e) : ℤ), (vs.idxOf (G.v2 e) : ℤ)],
      0 ≤ a ∧ a < (vs.length : ℤ) := by
    have := hlt (G.v1 e)
    have := hlt (G.v2 e)
    simp only [List.mem_cons, List.not_mem_nil, or_false]
    rintro a (rfl | rfl) <;> omega
  have hedit : g.toMultigraph.edit (.addEdges [vs.idxOf (G.v1 e), vs.idxOf (G.v2 e)]) =
      ⟨vs.length, false, edges ++ [linkEdge G vs e]⟩ := by
    rw [hm, Multigraph.edit, if_pos ⟨by simp, hfits⟩]
    simp [linkEdge, pairsOf]
  rcases editOk_addEdges h [vs.idxOf (G.v1 e), vs.idxOf (G.v2 e)] with ⟨g', he, hg', habs⟩ | hno
  · exact ⟨g', he, hg', habs.trans hedit⟩
  · -- an edge that does not fit would leave the number of edges as it is
    rw [hedit, hm, Multigraph.mk.injEq] at hno
    simp at hno

lemma foldlM_addEdges (h : g.Indexed) (hvs : ∀ v, v ∈ vs) {edges : List (ℕ × ℕ)}
    (hm : g.toMultigraph = ⟨vs.length, false, edges⟩) (es : List E) :
    ∃ g', es.foldlM (fun g e => g.addEdges [vs.idxOf (G.v1 e), vs.idxOf (G.v2 e)]) g = .ok g' ∧
      g'.Indexed ∧ g'.toMultigraph = ⟨vs.length, false, edges ++ es.map (linkEdge G vs)⟩ := by
  induction es generalizing g edges with
  | nil => exact ⟨g, rfl, h, by rw [hm, List.map_nil, List.append_nil]⟩
  | cons e es ih =>
    obtain ⟨g₁, he, h₁, hm₁⟩ := addEdges_link (G := G) h hvs hm e
    obtain ⟨g', he', h', hm'⟩ := ih h₁ hm₁
    refine ⟨g', ?_, h', ?_⟩
    · rw [List.foldlM_cons, he]
      exact he'
    · rw [hm', List.append_assoc, List.singleton_append, List.map_cons]

lemma addVertices_natCast (h : g.Indexed) (nv : ℕ) :
    ∃ g', g.addVertices nv = .ok g' ∧ g'.Indexed ∧
      g'.toMultigraph = g.toMultigraph.edit (.addVertices nv) :=
  ⟨_, by rw [addVertices, if_neg (by omega), Int.toNat_natCast], h.addVertices nv, rfl⟩

lemma ofSwitches_eq (G : PortGraph V E) (hvs : ∀ v, v ∈ vs) (es : List E) :
    ∃ g, ofSwitches G vs es = .ok g ∧ g.Indexed ∧
      g.toMultigraph = ⟨vs.length, false, es.map (linkEdge G vs)⟩ := by
  obtain ⟨g₀, he₀, h₀, hm₀⟩ := empty_eq (le_refl 0) false
  obtain ⟨g₁, he₁, h₁, hm₁⟩ := addVertices_natCast h₀ vs.length
  rw [hm₀, Multigraph.edit, Int.toNat_zero, Int.toNat_natCast, Nat.zero_add] at hm₁
  obtain ⟨g, he, h, hm⟩ := foldlM_addEdges (G := G) h₁ hvs hm₁ es
  refine ⟨g, ?_, h, hm⟩
  unfold ofSwitches
  simp only [he₀, he₁, bind, Except.bind]
  exact he

/-- The edges of a vertex of an undirected graph. -/
lemma mem_adj_undirected (h : g.Indexed) (hdir : g.directed = false) {v w i : ℕ} (hv : v < g.n) :
    (i, w) ∈ g.adj mode v ↔
      i < g.ecount ∧ ((g.source i = v ∧ w = g.target i) ∨ (g.target i = v ∧ w = g.source i)) := by
  obtain ⟨es, hes, hperm⟩ := h.incident_eq hv mode
  have hdir' : g.toMultigraph.directed = false := hdir
  have hmem : i ∈ es ↔ i < g.ecount ∧ (g.source i = v ∨ g.target i = v) := by
    rw [hperm.mem_iff]
    simp only [Multigraph.incident, h.length_edges, h.getD_edges, hdir', Bool.not_false,
      Bool.true_or, if_true, List.mem_append, List.mem_filter, List.mem_range, decide_eq_true_eq,
      ← and_or_left]
  have hother : (i, w) ∈ g.adj mode v ↔ i ∈ es ∧ g.other i v = w := by
    simp only [adj, hes, List.mem_map, Prod.mk.injEq]
    constructor
    · rintro ⟨_, hi, rfl, rfl⟩
      exact ⟨hi, rfl⟩
    · rintro ⟨hi, rfl⟩
      exact ⟨i, hi, rfl, rfl⟩
  rw [hother, hmem, and_assoc, other]
  refine and_congr_right fun _ => ?_
  by_cases ht : g.target i = v
  · rw [if_pos ht]
    constructor
    · rintro ⟨_, rfl⟩
      exact .inr ⟨ht, rfl⟩
    · rintro (⟨hs, hw⟩ | ⟨_, hw⟩)
      · exact ⟨.inr ht, by rw [hs, hw, ht]⟩
      · exact ⟨.inr ht, hw.symm⟩
  · rw [if_neg ht]
    constructor
    · rintro ⟨hs | hs, rfl⟩
      · exact .inl ⟨hs, rfl⟩
      · exact absurd hs ht
    · rintro (⟨hs, hw⟩ | ⟨hs, _⟩)
      · exact ⟨.inl hs, hw.symm⟩
      · exact absurd hs ht

/-- The edges of a switch are its links, to the switches behind them. -/
lemma mem_adj_ofSwitches (h : g.Indexed) (hvs : ∀ v, v ∈ vs)
    (hm : g.toMultigraph = ⟨vs.length, false, es.map (linkEdge G vs)⟩) {i w : ℕ} :
    (i, w) ∈ g.adj mode (vs.idxOf x) ↔ ∃ e, es[i]? = some e ∧
      ((G.v1 e = x ∧ w = vs.idxOf (G.v2 e)) ∨ (G.v2 e = x ∧ w = vs.idxOf (G.v1 e))) := by
  have hn : g.n = vs.length := congrArg Multigraph.n hm
  have hlt : vs.idxOf x < g.n := hn ▸ List.idxOf_lt_length_of_mem (hvs x)
  have hinj : ∀ v, vs.idxOf v = vs.idxOf x ↔ v = x := fun v => List.idxOf_inj (hvs v)
  have hcount : g.ecount = es.length := by
    rw [← h.length_edges, hm, List.length_map]
  rw [mem_adj_undirected h (congrArg Multigraph.directed hm) hlt, hcount]
  rcases Nat.lt_or_ge i es.length with hi | hi
  · have hends : (g.source i, g.target i) = linkEdge G vs es[i] := by
      rw [← h.getD_edges, hm, List.getD_eq_getElem _ _ (by rwa [List.length_map]),
        List.getElem_map]
    rw [List.getElem?_eq_getElem hi]
    simp only [hi, true_and, Option.some.injEq, exists_eq_left']
    rw [← hinj (G.v1 es[i]), ← hinj (G.v2 es[i])]
    unfold linkEdge at hends
    split at hends
    · obtain ⟨h₁, h₂⟩ := Prod.mk.inj hends
      rw [h₁, h₂]
    · obtain ⟨h₁, h₂⟩ := Prod.mk.inj hends
      rw [h₁, h₂, or_comm]
  · rw [List.getElem?_eq_none hi]
    constructor
    · rintro ⟨hlt', _⟩
      omega
    · rintro ⟨e, he, _⟩
      cases he

/-- The numbers of the switches carry the links over to igraph. -/
lemma carries_ofSwitches (h : g.Indexed) (hvs : ∀ v, v ∈ vs) (hes : ∀ e, e ∈ es)
    (hm : g.toMultigraph = ⟨vs.length, false, es.map (linkEdge G vs)⟩) (mode : NeiMode) :
    Carries vs.idxOf (fun i : ℕ => es[i]?) (mygraphToIgraph G).adj (g.adj mode) := by
  have hinj : Function.Injective vs.idxOf := fun v w hvw => (List.idxOf_inj (hvs v)).mp hvw
  refine ⟨hinj, fun x y i => ?_, fun e => List.mem_iff_getElem?.mp (hes e), fun x a ha => ?_⟩
  · rw [mem_adj_ofSwitches h hvs hm]
    refine exists_congr fun e => and_congr_right fun _ => ?_
    rw [mem_mygraphToIgraph, hinj.eq_iff, hinj.eq_iff]
    constructor
    · rintro (⟨rfl, rfl⟩ | ⟨rfl, rfl⟩)
      · exact ⟨_, _, PortGraph.hop_of_v1 e⟩
      · exact ⟨_, _, PortGraph.hop_of_v2 e⟩
    · rintro ⟨p, q, hhop⟩
      rcases PortGraph.hop_iff.mp hhop with ⟨h₁, _, h₂, _⟩ | ⟨h₁, _, h₂, _⟩
      · exact .inl ⟨h₁, h₂.symm⟩
      · exact .inr ⟨h₁, h₂.symm⟩
  · obtain ⟨e, _, ⟨_, he⟩ | ⟨_, he⟩⟩ := (mem_adj_ofSwitches h hvs hm).mp ha
    · exact ⟨G.v2 e, he.symm⟩
    · exact ⟨G.v1 e, he.symm⟩

/-- What `mygraph_to_igraph` builds: a vertex for each switch and an edge for each link. -/
structure SwitchGraph (G : PortGraph V E) (vs : List V) (es : List E) (g : IgraphT) : Prop where
  indexed : g.Indexed
  n_eq : g.n = vs.length
  ecount_eq : g.ecount = es.length
  idxOf_lt : ∀ v, vs.idxOf v < g.n
  carries : ∀ mode, Carries vs.idxOf (fun i : ℕ => es[i]?) (mygraphToIgraph G).adj (g.adj mode)

lemma exists_switchGraph (hvs : vs.Perm G.verts) (hes : es.Perm G.links) :
    ∃ g, ofSwitches G vs es = .ok g ∧ SwitchGraph G vs es g := by
  have hvs' : ∀ v, v ∈ vs := fun v => hvs.mem_iff.mpr (G.mem_verts v)
  have hes' : ∀ e, e ∈ es := fun e => hes.mem_iff.mpr (G.mem_links e)
  obtain ⟨g, he, hg, hm⟩ := ofSwitches_eq G hvs' es
  have hn : g.n = vs.length := congrArg Multigraph.n hm
  refine ⟨g, he, hg, hn, ?_, fun v => ?_, carries_ofSwitches hg hvs' hes' hm⟩
  · rw [← hg.length_edges, hm, List.length_map]
  · rw [hn]
    exact List.idxOf_lt_length_of_mem (hvs' v)

/-! ### Paths -/

/-- The path to one wanted vertex. -/
lemma exists_path (hg : g.Indexed) {v w fuel : ℕ} (hv : v < g.n) (hw : w < g.n) (mode : NeiMode)
    (hfuel : g.n < fuel) (draws : ℕ → Rnd) :
    ∃ path, g.getShortestPaths fuel draws v (ids [w]) mode = .ok [path] ∧
      PathOk g mode v w path := by
  have hwanted : ∀ u ∈ [w], u < g.n := by
    intro u hu
    rwa [List.mem_singleton.mp hu]
  obtain ⟨s, he, hpaths⟩ := exists_search hg hv [w] mode hfuel draws
  obtain ⟨path, hpath, hok⟩ := hpaths w (List.mem_singleton.mpr rfl)
  refine ⟨path, ?_, hok⟩
  rw [getShortestPaths_eq hv hwanted, he]
  dsimp only
  rw [List.mapM_cons, hpath]
  rfl

/-- The links of the path that is reported are a shortest walk between the switches. -/
lemma SwitchGraph.exists_links (h : SwitchGraph G vs es g) {fuel : ℕ} (hfuel : vs.length < fuel)
    (draws : ℕ → Rnd) (x y : V) :
    ∃ path iP, g.getShortestPaths fuel draws (vs.idxOf x : ℕ) (ids [vs.idxOf y]) .outgoing =
        .ok [path] ∧ path.2.map (fun i : ℕ => es[i]?) = iP.map some ∧
      ((∃ p, EdgeWalk (mygraphToIgraph G).adj x p y) → Shortest (mygraphToIgraph G).adj x iP y) ∧
      ((¬ ∃ p, EdgeWalk (mygraphToIgraph G).adj x p y) → iP = []) := by
  have hcarries := h.carries .outgoing
  obtain ⟨path, he, hsome, hnone⟩ := exists_path h.indexed (h.idxOf_lt x) (h.idxOf_lt y) .outgoing
    (h.n_eq ▸ hfuel) draws
  rw [hcarries.exists_walk_iff] at hsome hnone
  by_cases hwalk : ∃ p, EdgeWalk (mygraphToIgraph G).adj x p y
  · obtain ⟨iP, hiP, hname⟩ := hcarries.exists_comap_shortest (hsome hwalk).2
    exact ⟨path, iP, he, hname, fun _ => hiP, fun hno => absurd hwalk hno⟩
  · refine ⟨path, [], he, ?_, fun hw => absurd hw hwalk, fun _ => rfl⟩
    rw [hnone hwalk]
    rfl

/-- For any orders of the switches and of the links and any order of the edges in each search,
the links that `get_shortest_paths` reports are the answers of a path search as the tables are
built with. -/
theorem ofSwitches_pathFinder (G : PortGraph V E) {vs : List V} (hvs : vs.Perm G.verts)
    {es : List E} (hes : es.Perm G.links) {fuel : ℕ} (hfuel : vs.length < fuel)
    (draws : V → V → ℕ → Rnd) :
    ∃ g getShortestPath, ofSwitches G vs es = .ok g ∧ IsPathFinder getShortestPath ∧
      ∀ x y, ∃ path, g.getShortestPaths fuel (draws x y) (vs.idxOf x : ℕ) (ids [vs.idxOf y])
          .outgoing = .ok [path] ∧
        path.2.map (fun i : ℕ => es[i]?) =
          (getShortestPath (mygraphToIgraph G).adj x y).map some := by
  obtain ⟨g, he, hg⟩ := exists_switchGraph hvs hes
  choose path iP hpath hname hshort hnil using fun x y => hg.exists_links hfuel (draws x y) x y
  classical
  refine ⟨g, Function.update (bfsPath G.verts) (mygraphToIgraph G).adj iP, he,
    (isPathFinder_bfsPath G.mem_verts).update hshort hnil, fun x y => ⟨path x y, hpath x y, ?_⟩⟩
  rw [hname, Function.update_self]

theorem ofSwitches_pathFinder_doubleLink :
    ∃ g getShortestPath, ofSwitches doubleLink [1, 0] [0, 1] = .ok g ∧
      IsPathFinder getShortestPath ∧
      ∀ x y, ∃ path, g.getShortestPaths 3 (fun _ _ => 1) ([1, 0].idxOf x : ℕ)
          (ids [[1, 0].idxOf y]) .outgoing = .ok [path] ∧
        path.2.map (fun i : ℕ => ([0, 1] : List (Fin 2))[i]?) =
          (getShortestPath (mygraphToIgraph doubleLink).adj x y).map some :=
  ofSwitches_pathFinder doubleLink (by decide) (by decide) (by decide) (fun _ _ _ _ => 1)

/-! ### Parents -/

/-- A parent as the search reports it. -/
def parentId (vs : List V) : Option V → ℤ
  | some u => vs.idxOf u
  | none => -1

lemma exists_parent {name : ℕ → Option E} {adj : Adj V E} {root : ℕ} {s : LayerSearch} {dst : V}
    (hcarries : Carries vs.idxOf name adj (g.adj mode)) (hok : BfsOk g mode root s)
    (hroot : vs.idxOf dst = root) (v : V) :
    ∃ o : Option V, v ≠ dst → s.parents (vs.idxOf v) = parentId vs o ∧
      ∀ q, Shortest adj dst q v → ∃ p q' e, o = some p ∧ (e, v) ∈ adj p ∧
        Shortest adj dst q' p ∧ q'.length + 1 = q.length := by
  subst hroot
  by_cases hwalk : ∃ p, EdgeWalk adj dst p v
  · by_cases hv : v = dst
    · exact ⟨none, fun hne => absurd hv hne⟩
    · obtain ⟨q₀, hq₀⟩ := exists_shortest hwalk
      obtain ⟨q₁, hq₁, hname⟩ := hcarries.exists_map_shortest hq₀
      obtain ⟨u, i, q₂, hu, hi, hq₂, hlen⟩ :=
        hok.parents_some _ q₁ (fun heq => hv (hcarries.inj heq)) hq₁
      obtain ⟨p, rfl⟩ := hcarries.exists_image hq₂.1
      obtain ⟨e, _, he⟩ := (hcarries.edge_iff p v i).mp hi
      obtain ⟨q', hq', hname'⟩ := hcarries.exists_comap_shortest hq₂
      refine ⟨some p, fun _ => ⟨hu, fun q hq => ⟨p, q', e, rfl, he, hq', ?_⟩⟩⟩
      rw [hq.length_eq hq₀, ← length_eq_of_map_eq hname, ← length_eq_of_map_eq hname', hlen]
  · refine ⟨none, fun _ => ⟨hok.parents_none _ ?_, fun q hq => absurd ⟨q, hq.1⟩ hwalk⟩⟩
    rwa [hcarries.exists_walk_iff]

/-- The entry of the matrix for two vertices. -/
def entry (rows : List (List (Option ℕ))) (v w : ℕ) : Option ℕ := (rows.getD v []).getD w none

lemma distanceOk_entry {n v w : ℕ} {rows : List (List (Option ℕ))}
    (h : List.Forall₂ (fun root row =>
      List.Forall₂ (DistanceOk g mode root) (List.range n) row) (List.range n) rows)
    (hv : v < n) (hw : w < n) : DistanceOk g mode v w (entry rows v w) := by
  obtain ⟨hlen, hrows⟩ := List.forall₂_iff_get.mp h
  rw [List.length_range] at hlen
  have hv' : v < rows.length := by omega
  obtain ⟨hlen', hentries⟩ :=
    List.forall₂_iff_get.mp (hrows v (by rwa [List.length_range]) hv')
  simp only [List.length_range, List.get_eq_getElem] at hlen' hentries
  have hw' : w < rows[v].length := by omega
  have hentry := hentries w hw hw'
  rw [List.getElem_range, List.getElem_range] at hentry
  rwa [entry, List.getD_eq_getElem _ _ hv', List.getD_eq_getElem _ _ hw']

variable [DecidableEq E]

/-- For any orders of the switches and of the links and any order of the neighbours, the matrix
of the distances is computed, and has the lengths of shortest paths over the links that the
simulator reads from it, and infinity for switches that are not connected. -/
theorem ofSwitches_distances (G : PortGraph V E) {vs : List V} (hvs : vs.Perm G.verts)
    {es : List E} (hes : es.Perm G.links) {fuel : ℕ} (hfuel : vs.length < fuel)
    (draws : ℕ → ℕ → Rnd) :
    ∃ g rows, ofSwitches G vs es = .ok g ∧
      g.shortestPaths fuel draws (ids (List.range g.n)) none .outgoing = .ok rows ∧
      IsDistances G (fun x y => (entry rows (vs.idxOf x) (vs.idxOf y)).getD 0) ∧
      ∀ x y, entry rows (vs.idxOf x) (vs.idxOf y) = none ↔
        ¬ ∃ p, EdgeWalk (upAdj G ∅) x p y := by
  obtain ⟨g, he, hg⟩ := exists_switchGraph hvs hes
  have hcarries := hg.carries .outgoing
  rw [← upAdj_empty] at hcarries
  have hall : ∀ ts : List ℕ, none = some ts → ∀ v ∈ ts, v < g.n := nofun
  obtain ⟨rows, hrows, hok⟩ := shortestPaths_ok hg.indexed (fun v hv => List.mem_range.mp hv) hall
    .outgoing (hg.n_eq ▸ hfuel) draws List.nodup_range
  have hentry := fun x y => distanceOk_entry hok (hg.idxOf_lt x) (hg.idxOf_lt y)
  refine ⟨g, rows, he, hrows, fun x y p hp => ?_, fun x y => ⟨fun hnone => ?_, fun hnone => ?_⟩⟩
  · obtain ⟨q, hq, hname⟩ := hcarries.exists_map_shortest hp
    dsimp only
    rw [(hentry x y).1 q hq, Option.getD_some, length_eq_of_map_eq hname]
  · intro hwalk
    obtain ⟨q, hq⟩ := exists_shortest (hcarries.exists_walk_iff.mpr hwalk)
    rw [(hentry x y).1 q hq] at hnone
    cases hnone
  · apply (hentry x y).2
    rwa [hcarries.exists_walk_iff]

theorem ofSwitches_distances_doubleLink :
    ∃ g rows, ofSwitches doubleLink [1, 0] [0, 1] = .ok g ∧
      g.shortestPaths 3 (fun _ _ _ => 0) (ids (List.range g.n)) none .outgoing = .ok rows ∧
      IsDistances doubleLink
        (fun x y => (entry rows ([1, 0].idxOf x) ([1, 0].idxOf y)).getD 0) ∧
      ∀ x y, entry rows ([1, 0].idxOf x) ([1, 0].idxOf y) = none ↔
        ¬ ∃ p, EdgeWalk (upAdj doubleLink ∅) x p y :=
  ofSwitches_distances doubleLink (by decide) (by decide) (by decide) (fun _ _ _ => 0)

end IgraphT

end ResSim
