import Mathlib.Data.List.Induction
import ResSim.PortGraph

/-!
# Paths along the trees of a forest

A tree of a forest is a graph over the switches whose edges are named by links. The path of a
switch in a tree is computed from the destination and then turned around into a list of
ports. What the forwarding tables use of it is that the first port of a path leads over an
edge of the tree to a switch that is one hop closer to the destination.
-/

namespace ResSim

variable {V E τ : Type}

/-- A tree: source, target and link of every edge. -/
structure ITree (V E : Type) where
  directed : Bool
  es : List (V × V × E)

/-- The links of a tree. -/
def ITree.edges (T : ITree V E) : List E := T.es.map (fun ie => ie.2.2)

/-- Every edge is named by a link between its ends. -/
def ITree.Valid (G : PortGraph V E) (T : ITree V E) : Prop :=
  ∀ ie ∈ T.es, (G.v1 ie.2.2 = ie.1 ∧ G.v2 ie.2.2 = ie.2.1) ∨
    (G.v1 ie.2.2 = ie.2.1 ∧ G.v2 ie.2.2 = ie.1)

variable [DecidableEq V]

/-- The edges of a tree that leave a vertex. -/
def ITree.adj (T : ITree V E) : Adj V E := fun x =>
  T.es.filterMap (fun ie =>
    if ie.1 = x then some (ie.2.2, ie.2.1)
    else if T.directed = false ∧ ie.2.1 = x then some (ie.2.2, ie.1)
    else none)

/-- Every vertex can be reached from the root. -/
def ITree.Spans (T : ITree V E) (root : V) : Prop := ∀ v, ∃ p, EdgeWalk T.adj root p v

/-- The ports of the links of a path, starting at `currv`. -/
def igraphPathToHoplist (G : PortGraph V E) (currv dst : V) : List E → Option (List ℕ)
  | [] => if currv = dst then some [] else none
  | e :: iP =>
    if currv = G.v1 e then
      (igraphPathToHoplist G (G.v2 e) dst iP).map (fun hoplist => G.p1 e :: hoplist)
    else if currv = G.v2 e then
      (igraphPathToHoplist G (G.v1 e) dst iP).map (fun hoplist => G.p2 e :: hoplist)
    else none

/-- The path from `v` to the destination in one tree. -/
def treePath (G : PortGraph V E) (getShortestPath : Adj V E → V → V → List E)
    (iT : ITree V E) (dst v : V) : Option (List ℕ) :=
  let iP := (getShortestPath iT.adj dst v).reverse
  if v = dst then some []
  else if 0 < iP.length then do
    let hoplist ← igraphPathToHoplist G v dst iP
    guard (0 < hoplist.length)
    some hoplist
  else none

/-- The paths of all switches in all trees; `none` where an assertion fails. -/
def forestPaths (G : PortGraph V E) (getShortestPath : Adj V E → V → V → List E)
    (tree : τ → ITree V E) (forest : List τ) (dst : V) : Option (V → τ → List ℕ) :=
  if G.verts.all (fun v =>
      forest.all (fun iT => (treePath G getShortestPath (tree iT) dst v).isSome)) then
    some (fun v iT => (treePath G getShortestPath (tree iT) dst v).getD [])
  else none

/-- What a table uses of the paths in a tree. -/
structure TreePaths (G : PortGraph V E) (adj : Adj V E) (dst : V) (path : V → List ℕ) :
    Prop where
  nil : path dst = []
  next : ∀ v, v ≠ dst → ∃ port ps e w q, path v = port :: ps ∧ G.hop v port = some (e, w, q) ∧
    (e, v) ∈ adj w ∧ (path w).length = ps.length

lemma ITree.mem_adj {T : ITree V E} {x y : V} {e : E} :
    (e, y) ∈ T.adj x ↔ (x, y, e) ∈ T.es ∨ (T.directed = false ∧ (y, x, e) ∈ T.es) := by
  rw [ITree.adj, List.mem_filterMap]
  constructor
  · rintro ⟨⟨s, t, e'⟩, hie, h⟩
    dsimp only at h
    split at h
    · rename_i hs
      obtain ⟨rfl, rfl⟩ := Prod.ext_iff.mp (Option.some.inj h)
      exact .inl (hs ▸ hie)
    · split at h
      · rename_i ht
        obtain ⟨rfl, rfl⟩ := Prod.ext_iff.mp (Option.some.inj h)
        exact .inr ⟨ht.1, ht.2 ▸ hie⟩
      · cases h
  · rintro (hie | ⟨hd, hie⟩)
    · exact ⟨_, hie, if_pos rfl⟩
    · refine ⟨_, hie, ?_⟩
      by_cases hyx : y = x
      · rw [if_pos hyx, hyx]
      · rw [if_neg hyx, if_pos ⟨hd, rfl⟩]

lemma ITree.mem_edges_of_adj {T : ITree V E} {x y : V} {e : E} (h : (e, y) ∈ T.adj x) :
    e ∈ T.edges := by
  rcases ITree.mem_adj.mp h with h | ⟨_, h⟩
  · exact List.mem_map_of_mem h
  · exact List.mem_map_of_mem h

lemma ITree.Valid.ends {G : PortGraph V E} {T : ITree V E} (hT : T.Valid G) {x y : V} {e : E}
    (h : (e, y) ∈ T.adj x) :
    (G.v1 e = x ∧ G.v2 e = y) ∨ (G.v1 e = y ∧ G.v2 e = x) := by
  rcases ITree.mem_adj.mp h with h | ⟨_, h⟩
  · exact hT _ h
  · exact (hT _ h).symm

/-- A graph spans if every vertex but the root has an edge from a vertex of lower rank. -/
lemma ITree.spans_of_rank {T : ITree V E} {root : V} (rank : V → ℕ)
    (h : ∀ v, v ≠ root → ∃ ie ∈ T.es, ie.2.1 = v ∧ rank ie.1 < rank v) : T.Spans root := by
  intro v
  induction hn : rank v using Nat.strong_induction_on generalizing v with
  | _ n ih =>
    by_cases hv : v = root
    · exact ⟨[], hv.symm⟩
    · obtain ⟨⟨w, v', e⟩, hie, rfl, hlt⟩ := h v hv
      obtain ⟨p, hp⟩ := ih (rank w) (hn ▸ hlt) w rfl
      exact ⟨p ++ [e], edgeWalk_concat.mpr ⟨w, hp, ITree.mem_adj.mpr (.inl hie)⟩⟩

section Hops

variable {G : PortGraph V E} {T : ITree V E} {dst v w : V} {e : E}

lemma igraphPathToHoplist_hop {p q : ℕ} (h : G.hop v p = some (e, w, q)) (iP : List E) :
    igraphPathToHoplist G v dst (e :: iP) =
      (igraphPathToHoplist G w dst iP).map (fun hoplist => p :: hoplist) := by
  have hne := G.ends_ne e
  rcases PortGraph.hop_iff.mp h with ⟨rfl, rfl, rfl, rfl⟩ | ⟨rfl, rfl, rfl, rfl⟩
  · rw [igraphPathToHoplist, if_pos rfl]
  · rw [igraphPathToHoplist, if_neg hne.symm, if_pos rfl]

/-- The hop over the link of an edge into `v`, from `v`. -/
lemma igraphPathToHoplist_cons (hT : T.Valid G) (h : (e, v) ∈ T.adj w) (iP : List E) :
    ∃ port q, G.hop v port = some (e, w, q) ∧ igraphPathToHoplist G v dst (e :: iP) =
      (igraphPathToHoplist G w dst iP).map (fun hoplist => port :: hoplist) := by
  have hhop : ∃ port q, G.hop v port = some (e, w, q) := by
    rcases hT.ends h with ⟨rfl, rfl⟩ | ⟨rfl, rfl⟩
    · exact ⟨G.p2 e, G.p1 e, PortGraph.hop_of_v2 e⟩
    · exact ⟨G.p1 e, G.p2 e, PortGraph.hop_of_v1 e⟩
  obtain ⟨port, q, hhop⟩ := hhop
  exact ⟨port, q, hhop, igraphPathToHoplist_hop hhop iP⟩

/-- A walk from the destination, turned around, has a list of ports of its length. -/
lemma exists_hoplist (hT : T.Valid G) {p : List E} (h : EdgeWalk T.adj dst p v) :
    ∃ hoplist, igraphPathToHoplist G v dst p.reverse = some hoplist ∧
      hoplist.length = p.length := by
  induction p using List.reverseRecOn generalizing v with
  | nil => exact ⟨[], by rw [← edgeWalk_nil.mp h]; exact if_pos rfl, rfl⟩
  | append_singleton p e ih =>
    obtain ⟨w, hw, he⟩ := edgeWalk_concat.mp h
    obtain ⟨hoplist, hrun, hlen⟩ := ih hw
    obtain ⟨port, q, _, hcons⟩ := igraphPathToHoplist_cons hT he p.reverse
    refine ⟨port :: hoplist, ?_, ?_⟩
    · rw [List.reverse_append, List.reverse_singleton, List.singleton_append, hcons, hrun]
      rfl
    · rw [List.length_cons, List.length_append, List.length_singleton, hlen]

variable {getShortestPath : Adj V E → V → V → List E}

lemma treePath_self : treePath G getShortestPath T dst dst = some [] := if_pos rfl

lemma treePath_eq (hv : v ≠ dst) {p : List E} (hp : getShortestPath T.adj dst v = p)
    (hne : p ≠ []) {hoplist : List ℕ}
    (hrun : igraphPathToHoplist G v dst p.reverse = some hoplist)
    (hlen : hoplist.length = p.length) :
    treePath G getShortestPath T dst v = some hoplist := by
  have hpos : 0 < p.length := List.length_pos_iff.mpr hne
  rw [treePath, if_neg hv, hp, List.length_reverse, if_pos hpos, hrun]
  simp only [Option.bind_eq_bind, Option.bind_some, hlen, guard, if_pos hpos]
  rfl

/-- The path of a switch is as long as a shortest walk from the destination to it. -/
lemma exists_treePath (hT : T.Valid G) (hsp : IsPathFinder getShortestPath)
    (hspan : T.Spans dst) (v : V) :
    ∃ hoplist, treePath G getShortestPath T dst v = some hoplist ∧
      ∃ p, Shortest T.adj dst p v ∧ hoplist.length = p.length := by
  by_cases hv : v = dst
  · subst hv
    exact ⟨[], treePath_self, [], shortest_nil, rfl⟩
  · have hs := hsp.shortest T.adj dst v (hspan v)
    obtain ⟨hoplist, hrun, hlen⟩ := exists_hoplist hT hs.1
    have hne : getShortestPath T.adj dst v ≠ [] := by
      intro hnil
      rw [hnil, Shortest, edgeWalk_nil] at hs
      exact hv hs.1.symm
    exact ⟨hoplist, treePath_eq hv rfl hne hrun hlen, _, hs, hlen⟩

/-- The computed paths lead to the destination one hop of the tree at a time. -/
theorem treePaths_of_treePath (hT : T.Valid G) (hsp : IsPathFinder getShortestPath)
    (hspan : T.Spans dst) :
    TreePaths G T.adj dst (fun v => (treePath G getShortestPath T dst v).getD []) := by
  refine ⟨by rw [treePath_self]; rfl, fun v hv => ?_⟩
  have hs := hsp.shortest T.adj dst v (hspan v)
  rcases List.eq_nil_or_concat (getShortestPath T.adj dst v) with hnil | ⟨p, e, hp⟩
  · rw [hnil, Shortest, edgeWalk_nil] at hs
    exact absurd hs.1.symm hv
  rw [List.concat_eq_append] at hp
  rw [hp] at hs
  obtain ⟨w, he, hw⟩ := hs.of_concat
  obtain ⟨port, q, hhop, hcons⟩ := igraphPathToHoplist_cons hT he p.reverse
  obtain ⟨ps, hps, hlen⟩ := exists_hoplist hT hw.1
  obtain ⟨hoplist, hrun, p', hp', hlen'⟩ := exists_treePath hT hsp hspan w
  refine ⟨port, ps, e, w, q, ?_, hhop, he, ?_⟩
  · have hpath : treePath G getShortestPath T dst v = some (port :: ps) := by
      apply treePath_eq hv hp (by simp)
      · rw [List.reverse_append, List.reverse_singleton, List.singleton_append, hcons, hps]
        rfl
      · rw [List.length_cons, List.length_append, List.length_singleton, hlen]
    rw [hpath, Option.getD_some]
  · rw [hrun, Option.getD_some, hlen', hlen, hp'.length_eq hw]

end Hops

/-- With valid trees that span from the destination, all paths are found, and they lead
along the trees. -/
theorem forestPaths_spec {G : PortGraph V E} {getShortestPath : Adj V E → V → V → List E}
    (hsp : IsPathFinder getShortestPath) {tree : τ → ITree V E} {forest : List τ} {dst : V}
    (hvalid : ∀ iT ∈ forest, (tree iT).Valid G) (hspan : ∀ iT ∈ forest, (tree iT).Spans dst) :
    ∃ fpaths, forestPaths G getShortestPath tree forest dst = some fpaths ∧
      ∀ iT ∈ forest, TreePaths G (tree iT).adj dst (fun v => fpaths v iT) := by
  refine ⟨_, if_pos ?_, fun iT hiT =>
    treePaths_of_treePath (hvalid iT hiT) hsp (hspan iT hiT)⟩
  simp only [List.all_eq_true]
  intro v _ iT hiT
  obtain ⟨hoplist, hrun, _⟩ := exists_treePath (hvalid iT hiT) hsp (hspan iT hiT) v
  rw [hrun, Option.isSome_some]

end ResSim
