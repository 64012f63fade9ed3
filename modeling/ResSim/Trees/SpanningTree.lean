import Mathlib.Data.List.Perm.Subperm
import ResSim.Lib.ShortestPath
import ResSim.Trees.ForestPaths

/-!
# Spanning trees

A spanning tree has one edge less than there are switches. So, seen from a root, every edge
is the only edge of some switch that leads closer to the root, and a path that first leads
away from the root can never come closer again without turning back.
-/

namespace ResSim

variable {V E : Type} [DecidableEq V]

/-- An undirected tree of links that connects all switches. -/
structure ITree.IsSpanningTree (G : PortGraph V E) (T : ITree V E) : Prop where
  undirected : T.directed = false
  valid : T.Valid G
  spans : ∀ root, T.Spans root
  length_es : T.es.length + 1 = G.verts.length

/-- Depths below a root: every edge joins a switch to its only parent. -/
structure ITree.Rooted (T : ITree V E) (depth : V → ℕ) : Prop where
  depth_or : ∀ x y e, (e, y) ∈ T.adj x → depth y = depth x + 1 ∨ depth x = depth y + 1
  parent_unique : ∀ x x' y e e', (e, y) ∈ T.adj x → (e', y) ∈ T.adj x' →
    depth y = depth x + 1 → depth y = depth x' + 1 → x = x'

variable {G : PortGraph V E} {T : ITree V E}

lemma ITree.adj_symm (hT : T.directed = false) {x y : V} {e : E} (h : (e, y) ∈ T.adj x) :
    (e, x) ∈ T.adj y := by
  rcases ITree.mem_adj.mp h with h | ⟨_, h⟩
  · exact ITree.mem_adj.mpr (.inr ⟨hT, h⟩)
  · exact ITree.mem_adj.mpr (.inl h)

/-- An undirected graph spans from everywhere if it does from somewhere. -/
lemma ITree.Spans.of_undirected {root : V} (h : T.Spans root) (hT : T.directed = false)
    (root' : V) : T.Spans root' := by
  intro v
  obtain ⟨p, hp⟩ := h root'
  obtain ⟨q, hq⟩ := h v
  exact ⟨p.reverse ++ q, edgeWalk_append.mpr
    ⟨root, hp.reverse (fun _ _ _ => ITree.adj_symm hT), hq⟩⟩

/-- An edge, given by its entry, that leads from the parent `w` down to `y`. -/
def ParentEdge (depth : V → ℕ) (ie : V × V × E) (w y : V) : Prop :=
  depth y = depth w + 1 ∧ ((ie.1 = w ∧ ie.2.1 = y) ∨ (ie.1 = y ∧ ie.2.1 = w))

omit [DecidableEq V] in
lemma ParentEdge.unique {depth : V → ℕ} {ie : V × V × E} {w w' y y' : V}
    (h : ParentEdge depth ie w y) (h' : ParentEdge depth ie w' y') : w = w' ∧ y = y' := by
  obtain ⟨hd, h⟩ := h
  obtain ⟨hd', h'⟩ := h'
  rcases h with ⟨rfl, rfl⟩ | ⟨rfl, rfl⟩ <;> rcases h' with ⟨rfl, rfl⟩ | ⟨rfl, rfl⟩
  · exact ⟨rfl, rfl⟩
  · omega
  · omega
  · exact ⟨rfl, rfl⟩

/-- Seen from a root, the edges of a spanning tree are the edges of the other switches to their
parents. -/
lemma ITree.IsSpanningTree.exists_parents (hT : T.IsSpanningTree G) (root : V)
    (hne : T.es ≠ []) :
    ∃ (depth : V → ℕ) (edge : V → V × V × E) (parent : V → V),
      (∀ v, depth v < G.verts.length) ∧
      (∀ v, v ≠ root → ParentEdge depth (edge v) (parent v) v) ∧
      ((G.verts.erase root).map edge).Perm T.es := by
  have hshort := fun v => exists_shortest (hT.spans root v)
  choose path hpath using hshort
  let depth : V → ℕ := fun v => (path v).length
  have : Nonempty (V × V × E) := ⟨T.es.head hne⟩
  have hparent : ∀ v, v ≠ root → ∃ ie w, ie ∈ T.es ∧ ParentEdge depth ie w v := by
    intro v hv
    rcases List.eq_nil_or_concat (path v) with hnil | ⟨p, e, hp⟩
    · exact absurd (edgeWalk_nil.mp (hnil ▸ (hpath v).1)).symm hv
    · rw [List.concat_eq_append] at hp
      obtain ⟨w, he, hw⟩ := (hp ▸ hpath v).of_concat
      have hd : depth v = depth w + 1 := by
        simp only [depth, hp, List.length_append, List.length_singleton,
          hw.length_eq (hpath w)]
      rcases ITree.mem_adj.mp he with h | ⟨_, h⟩
      · exact ⟨_, w, h, hd, .inl ⟨rfl, rfl⟩⟩
      · exact ⟨_, w, h, hd, .inr ⟨rfl, rfl⟩⟩
  choose! edge parent hmem hedge using hparent
  have hinj : ∀ v ∈ G.verts.erase root, ∀ v' ∈ G.verts.erase root, edge v = edge v' → v = v' := by
    intro v hv v' hv' heq
    have hne := (G.nodup_verts.mem_erase_iff.mp hv).1
    have hne' := (G.nodup_verts.mem_erase_iff.mp hv').1
    exact ((hedge v hne).unique (heq ▸ hedge v' hne')).2
  have hsub : (G.verts.erase root).map edge ⊆ T.es := by
    intro ie hie
    obtain ⟨v, hv, rfl⟩ := List.mem_map.mp hie
    exact hmem v (G.nodup_verts.mem_erase_iff.mp hv).1
  refine ⟨depth, edge, parent, fun v => (hpath v).length_lt G.mem_verts, hedge, ?_⟩
  -- there are as many parent edges as edges, so every edge is one
  apply (List.subperm_of_subset ((G.nodup_verts.erase root).map_on hinj) hsub).perm_of_length_le
  rw [List.length_map, List.length_erase_of_mem (G.mem_verts root)]
  have := hT.length_es
  omega

/-- Seen from a root, every edge of a spanning tree leads from a parent to its child, and
every switch has one parent. -/
theorem ITree.IsSpanningTree.exists_rooted (hT : T.IsSpanningTree G) (root : V) :
    ∃ depth, T.Rooted depth ∧ ∀ v, depth v < G.verts.length := by
  by_cases hne : T.es = []
  · have hadj : ∀ x y e, (e, y) ∉ T.adj x := by
      intro x y e h
      have := ITree.mem_edges_of_adj h
      simp [ITree.edges, hne] at this
    refine ⟨fun _ => 0, ⟨fun x y e h => absurd h (hadj x y e),
      fun x _ y e _ h => absurd h (hadj x y e)⟩, fun v => List.length_pos_of_mem (G.mem_verts v)⟩
  obtain ⟨depth, edge, parent, hbound, hedge, hperm⟩ := hT.exists_parents root hne
  refine ⟨depth, ?_, hbound⟩
  have hall : ∀ ie ∈ T.es, ∃ v, ParentEdge depth ie (parent v) v := by
    intro ie hie
    obtain ⟨v, hv, rfl⟩ := List.mem_map.mp (hperm.mem_iff.mpr hie)
    exact ⟨v, hedge v (G.nodup_verts.mem_erase_iff.mp hv).1⟩
  have hup : ∀ x y e, (e, y) ∈ T.adj x → depth y = depth x + 1 → x = parent y := by
    intro x y e h hd
    obtain ⟨ie, hie, hends⟩ : ∃ ie ∈ T.es, ParentEdge depth ie x y := by
      rcases ITree.mem_adj.mp h with h | ⟨_, h⟩
      · exact ⟨_, h, hd, .inl ⟨rfl, rfl⟩⟩
      · exact ⟨_, h, hd, .inr ⟨rfl, rfl⟩⟩
    obtain ⟨v, hv⟩ := hall ie hie
    obtain ⟨hx, rfl⟩ := hends.unique hv
    exact hx
  refine ⟨?_, fun x x' y e e' h h' hd hd' => (hup x y e h hd).trans (hup x' y e' h' hd').symm⟩
  intro x y e h
  have hentry : ∃ ie ∈ T.es, (ie.1 = x ∧ ie.2.1 = y) ∨ (ie.1 = y ∧ ie.2.1 = x) := by
    rcases ITree.mem_adj.mp h with h | ⟨_, h⟩
    · exact ⟨_, h, .inl ⟨rfl, rfl⟩⟩
    · exact ⟨_, h, .inr ⟨rfl, rfl⟩⟩
  obtain ⟨ie, hie, hends⟩ := hentry
  obtain ⟨v, hd, hv⟩ := hall ie hie
  rcases hends with ⟨rfl, rfl⟩ | ⟨rfl, rfl⟩ <;> rcases hv with ⟨hw, hv⟩ | ⟨hv, hw⟩ <;>
    rw [← hw, ← hv] at hd
  · exact .inl hd
  · exact .inr hd
  · exact .inr hd
  · exact .inl hd

/-- A spanning tree uses no link twice. -/
theorem ITree.IsSpanningTree.nodup_edges (hT : T.IsSpanningTree G) : T.edges.Nodup := by
  by_cases hne : T.es = []
  · rw [ITree.edges, hne]
    exact List.nodup_nil
  obtain ⟨depth, edge, parent, _, hedge, hperm⟩ := hT.exists_parents (T.es.head hne).1 hne
  rw [ITree.edges, ← (hperm.map _).nodup_iff, List.map_map]
  refine (G.nodup_verts.erase _).map_on ?_
  intro v hv v' hv' heq
  have hends : ∀ v ∈ G.verts.erase (T.es.head hne).1, depth v = depth (parent v) + 1 ∧
      ((G.v1 (edge v).2.2 = parent v ∧ G.v2 (edge v).2.2 = v) ∨
        (G.v1 (edge v).2.2 = v ∧ G.v2 (edge v).2.2 = parent v)) := by
    intro v hv
    obtain ⟨hd, hie⟩ := hedge v (G.nodup_verts.mem_erase_iff.mp hv).1
    have hvalid := hT.valid _ (hperm.mem_iff.mp (List.mem_map_of_mem hv))
    refine ⟨hd, ?_⟩
    rcases hie with ⟨h₁, h₂⟩ | ⟨h₁, h₂⟩
    · rwa [h₁, h₂] at hvalid
    · rw [h₁, h₂] at hvalid
      exact hvalid.symm
  obtain ⟨hd, h⟩ := hends v hv
  obtain ⟨hd', h'⟩ := hends v' hv'
  simp only [Function.comp_apply] at heq
  rw [heq] at h
  rcases h with ⟨h₁, h₂⟩ | ⟨h₁, h₂⟩ <;> rcases h' with ⟨h₁', h₂'⟩ | ⟨h₁', h₂'⟩
  · exact h₂.symm.trans h₂'
  · rw [← h₁, h₁'] at hd
    rw [← h₂', h₂] at hd'
    omega
  · rw [← h₂, h₂'] at hd
    rw [← h₁', h₁] at hd'
    omega
  · exact h₁.symm.trans h₁'

/-- A rank of the hop from `x` to `y`: hops towards the root come before hops away from it. -/
def turnRank (depth : V → ℕ) (bound : ℕ) (x y : V) : ℕ :=
  if depth x = depth y + 1 then bound + depth x else bound - depth x

lemma ITree.Rooted.turnRank_lt {depth : V → ℕ} (h : T.Rooted depth) (hT : T.directed = false)
    {bound : ℕ} (hb : ∀ v, depth v < bound) {x y z : V} {e e' : E} (hxy : (e, y) ∈ T.adj x)
    (hyz : (e', z) ∈ T.adj y) (hne : x ≠ z) :
    turnRank depth bound y z < turnRank depth bound x y := by
  have hx := hb x
  have hy := hb y
  rcases h.depth_or x y e hxy with hdown | hup
  · rcases h.depth_or y z e' hyz with hdown' | hup'
    · rw [turnRank, turnRank, if_neg (by omega), if_neg (by omega)]
      omega
    · exact absurd (h.parent_unique x z y e e' hxy (ITree.adj_symm hT hyz) hdown hup') hne
  · rw [turnRank, turnRank, if_pos hup]
    split <;> omega

/-- A closed walk over different links. -/
def ITree.HasCycle (T : ITree V E) : Prop := ∃ x p, p ≠ [] ∧ p.Nodup ∧ EdgeWalk T.adj x p x

lemma ITree.IsSpanningTree.link_unique (hT : T.IsSpanningTree G) {x y : V} {e e' : E}
    (h : (e, y) ∈ T.adj x) (h' : (e', y) ∈ T.adj x) : e = e' := by
  have hentry : ∀ e, (e, y) ∈ T.adj x →
      ∃ ie ∈ T.es, ie.2.2 = e ∧ ((ie.1 = x ∧ ie.2.1 = y) ∨ (ie.1 = y ∧ ie.2.1 = x)) := by
    intro e h
    rcases ITree.mem_adj.mp h with h | ⟨_, h⟩
    · exact ⟨_, h, rfl, .inl ⟨rfl, rfl⟩⟩
    · exact ⟨_, h, rfl, .inr ⟨rfl, rfl⟩⟩
  obtain ⟨ie, hie, rfl, hends⟩ := hentry e h
  obtain ⟨ie', hie', rfl, hends'⟩ := hentry e' h'
  obtain ⟨depth, edge, parent, _, hedge, hperm⟩ :=
    hT.exists_parents x (List.ne_nil_of_mem hie)
  have hchild : ∀ ie ∈ T.es, ((ie.1 = x ∧ ie.2.1 = y) ∨ (ie.1 = y ∧ ie.2.1 = x)) →
      (ie = edge x ∧ depth x = depth y + 1) ∨ (ie = edge y ∧ depth y = depth x + 1) := by
    intro ie hie hends
    obtain ⟨v, hv, rfl⟩ := List.mem_map.mp (hperm.mem_iff.mpr hie)
    obtain ⟨hd, hv⟩ := hedge v (G.nodup_verts.mem_erase_iff.mp hv).1
    have hchild : (v = x ∧ parent v = y) ∨ (v = y ∧ parent v = x) := by
      rcases hends with ⟨h₁, h₂⟩ | ⟨h₁, h₂⟩ <;> rcases hv with ⟨hp, hc⟩ | ⟨hc, hp⟩
      · exact .inr ⟨hc.symm.trans h₂, hp.symm.trans h₁⟩
      · exact .inl ⟨hc.symm.trans h₁, hp.symm.trans h₂⟩
      · exact .inl ⟨hc.symm.trans h₂, hp.symm.trans h₁⟩
      · exact .inr ⟨hc.symm.trans h₁, hp.symm.trans h₂⟩
    rcases hchild with ⟨rfl, hp⟩ | ⟨rfl, hp⟩
    · exact .inl ⟨rfl, hp ▸ hd⟩
    · exact .inr ⟨rfl, hp ▸ hd⟩
  rcases hchild ie hie hends with ⟨hx, hd⟩ | ⟨hy, hd⟩ <;>
    rcases hchild ie' hie' hends' with ⟨hx', hd'⟩ | ⟨hy', hd'⟩
  · rw [hx, hx']
  · omega
  · omega
  · rw [hy, hy']

lemma ITree.IsSpanningTree.turnRank_lt_of_walk (hT : T.IsSpanningTree G) {depth : V → ℕ}
    (hd : T.Rooted depth) {bound : ℕ} (hb : ∀ v, depth v < bound) {x y w z : V} {e e' : E}
    {p : List E} (hxy : (e, y) ∈ T.adj x) (hp : EdgeWalk T.adj y p w) (hwz : (e', z) ∈ T.adj w)
    (hn : (e :: (p ++ [e'])).Nodup) : turnRank depth bound w z < turnRank depth bound x y := by
  have hturn : ∀ {x y z : V} {e e' : E}, (e, y) ∈ T.adj x → (e', z) ∈ T.adj y → e ≠ e' →
      turnRank depth bound y z < turnRank depth bound x y := by
    intro x y z e e' hxy hyz hne
    apply hd.turnRank_lt hT.undirected hb hxy hyz
    rintro rfl
    exact hne (hT.link_unique (ITree.adj_symm hT.undirected hxy) hyz)
  induction p generalizing x y e with
  | nil =>
    obtain rfl := edgeWalk_nil.mp hp
    simp at hn
    exact hturn hxy hwz hn
  | cons f p ih =>
    obtain ⟨v, hv, hp⟩ := hp
    rw [List.cons_append, List.nodup_cons, List.mem_cons, not_or] at hn
    exact (ih hv hp hn.2).trans (hturn hxy hv hn.1.1)

/-- A spanning tree has no cycle. -/
theorem ITree.IsSpanningTree.not_hasCycle (hT : T.IsSpanningTree G) : ¬ T.HasCycle := by
  rintro ⟨x, p, hne, hn, hp⟩
  obtain ⟨depth, hd, hb⟩ := hT.exists_rooted x
  cases p with
  | nil => exact hne rfl
  | cons e p =>
    obtain ⟨y, hxy, hp⟩ := hp
    rcases List.eq_nil_or_concat p with rfl | ⟨q, e', rfl⟩
    · obtain rfl := edgeWalk_nil.mp hp
      have := hd.depth_or y y e hxy
      omega
    · rw [List.concat_eq_append] at hp hn
      obtain ⟨w, hq, hwx⟩ := edgeWalk_concat.mp hp
      have hdown := hT.turnRank_lt_of_walk hd hb hxy hq hwx hn
      -- the last link of a cycle is followed by the first
      have hne : e' ≠ e := by
        rintro rfl
        simp at hn
      have hdown' := hT.turnRank_lt_of_walk hd hb hwx (edgeWalk_nil.mpr rfl) hxy (by simpa using hne)
      omega

end ResSim
