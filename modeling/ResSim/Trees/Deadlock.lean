import ResSim.Trees.DfrTable
import ResSim.Trees.Edst
import ResSim.Trees.SpanningTree

/-!
# Deadlock freedom

A packet that came over an arc waits for the arcs over which the table may send it on. An arc
belongs to one tree, as the trees share no links, and what a table allows is to stay on the
tree, without turning back, or to follow the tree transition graph. Neither leads around in a
circle, even if the tables of all destinations are taken together.
-/

namespace ResSim

open Relation

variable {V E : Type} [DecidableEq V] [DecidableEq E]

/-- Arc `a` into a switch depends on arc `b` out of it: the table of some destination sends a
packet over `b` that its current tree brought over `a`. -/
def ChannelDep (G : PortGraph V E) (fpaths : V → V → ℕ → List ℕ) (tables : V → Fwdtable V ℕ E)
    (dsts : List V) (a b : V × E) : Prop :=
  ∃ dst ∈ dsts, ∃ T p q, G.hop a.1 p = some (a.2, b.1, q) ∧
    edgeAt G (fpaths dst) a.1 T = some a.2 ∧
    ∃ entry ∈ (tables dst).entries b.1 (some T), entry.ue = b.2

/-- The end of a link that is not `v`. -/
def otherEnd (G : PortGraph V E) (v : V) (e : E) : V := if G.v1 e = v then G.v2 e else G.v1 e

omit [DecidableEq E] in
lemma otherEnd_of_hop {G : PortGraph V E} {v w : V} {p q : ℕ} {e : E}
    (h : G.hop v p = some (e, w, q)) : otherEnd G v e = w := by
  rw [otherEnd]
  rcases PortGraph.hop_iff.mp h with ⟨h₁, _, h₂, _⟩ | ⟨h₁, _, h₂, _⟩
  · rw [if_pos h₁, h₂]
  · rw [if_neg (fun h => G.ends_ne e (h.trans h₁.symm)), h₂]

section Dependencies

variable {G : PortGraph V E} {tree : ℕ → ITree V E} {n : ℕ} {fpaths : V → ℕ → List ℕ} {ttg : Ttg}
  {dst : V} {layers : List (List ℕ)} {layersAt : V → List (List ℕ)} {table : Fwdtable V ℕ E}

omit [DecidableEq E] in
/-- An entry leads to the tree itself or to a tree that it reaches, over the first link of the
path in that tree. -/
lemma DfrTable.entry (ht : DfrTable G fpaths ttg dst layers layersAt table)
    (hn : layers.flatten.Nodup) {v : V} {T : ℕ} {entry : FwdEntry ℕ E}
    (h : entry ∈ table.entries v (some T)) :
    v ≠ dst ∧ T ∈ layers.flatten ∧ entry.ntree ∈ layers.flatten ∧
      edgeAt G fpaths v entry.ntree = some entry.ue ∧
      (entry.ntree = T ∨ T ≠ entry.ntree ∧ ttg.reach T entry.ntree = true) := by
  have hv : v ≠ dst := by
    rintro rfl
    rw [ht.dst_nil] at h
    cases h
  have hT : T ∈ layers.flatten := by
    by_contra hno
    rw [ht.others v T hno] at h
    cases h
  have hflat := List.Perm.flatten_congr (ht.perm v)
  have hl := ht.lists v hv T hT
  obtain ⟨ps, w, q, hp, hhop⟩ := hl.hops entry h
  have hmem : entry.ntree ∈ T :: dfrSuccessors ttg (layersAt v) T := by
    rw [← hl.trees]
    exact List.mem_map_of_mem h
  rcases List.mem_cons.mp hmem with heq | hsucc
  · exact ⟨hv, hT, heq ▸ hT, edgeAt_eq hp hhop, .inl heq⟩
  · obtain ⟨hin, _, hne, hreach⟩ := (mem_dfrSuccessors (hflat.nodup_iff.mpr hn)).mp hsucc
    exact ⟨hv, hT, hflat.mem_iff.mp hin, edgeAt_eq hp hhop, .inr ⟨hne, hreach⟩⟩

omit [DecidableEq E] in
lemma TreePaths.two_hops {T : ITree V E} {iT : ℕ} (hT : T.directed = false)
    (h : TreePaths G T.adj dst (fun v => fpaths v iT)) {u v w : V} {p p' q q' : ℕ} {e e' : E}
    (hu : u ≠ dst) (hv : v ≠ dst) (hhop : G.hop u p = some (e, v, q))
    (hhop' : G.hop v p' = some (e', w, q')) (he : edgeAt G fpaths u iT = some e)
    (he' : edgeAt G fpaths v iT = some e') :
    (e, v) ∈ T.adj u ∧ (e', w) ∈ T.adj v ∧ u ≠ w := by
  obtain ⟨port, ps, e₁, v₁, q₁, hp, hh, hadj, hlen⟩ := h.next u hu
  obtain ⟨port', ps', e₂, w₁, q₂, hp', hh', hadj', hlen'⟩ := h.next v hv
  rw [edgeAt_eq hp hh, Option.some.injEq] at he
  rw [edgeAt_eq hp' hh', Option.some.injEq] at he'
  subst he he'
  obtain ⟨_, rfl, _⟩ := PortGraph.hop_unique hh hhop
  obtain ⟨_, rfl, _⟩ := PortGraph.hop_unique hh' hhop'
  refine ⟨ITree.adj_symm hT hadj, ITree.adj_symm hT hadj', ?_⟩
  rintro rfl
  have hu := congrArg List.length hp
  have hv := congrArg List.length hp'
  rw [List.length_cons] at hu hv
  omega

end Dependencies

/-- The dependencies of all tables together have no cycle. -/
theorem dfr_deadlockFree {G : PortGraph V E} {getShortestPath : Adj V E → V → V → List E}
    (hsp : IsPathFinder getShortestPath) {tree : ℕ → ITree V E} {n : ℕ}
    (htree : ∀ T < n, (tree T).IsSpanningTree G)
    (hdis : ∀ S < n, ∀ T < n, S ≠ T → (tree S).edges.Disjoint (tree T).edges)
    {ttg : Ttg} (hc : ttg.Closed) (hacyc : Acyclic (EdgeRel ttg.es))
    {sort : (ℕ → ℕ → Ordering) → List ℕ → List ℕ} (hsort : ∀ cmp l, (sort cmp l).Perm l)
    {dsts : List V} {fpaths : V → V → ℕ → List ℕ} {tables : V → Fwdtable V ℕ E}
    {args : V → DfrArgs} {draws : V → ℕ → ℕ} {draw : V → V → ℕ → ℕ}
    (hfp : ∀ dst ∈ dsts,
      forestPaths G getShortestPath tree (List.range n) dst = some (fpaths dst))
    (htables : ∀ dst ∈ dsts, ∃ nopkthdr, edstFwdtableDfr G tree n getShortestPath sort
      (fpaths dst) ttg dst (args dst) (draws dst) (draw dst) = some (tables dst, nopkthdr)) :
    Acyclic (ChannelDep G fpaths tables dsts) := by
  intro a
  have hrooted : ∀ T, ∃ depth, T < n → (tree T).Rooted depth ∧ ∀ v, depth v < G.verts.length := by
    intro T
    by_cases hT : T < n
    · obtain ⟨depth, h⟩ := (htree T hT).exists_rooted a.1
      exact ⟨depth, fun _ => h⟩
    · exact ⟨fun _ => 0, fun h => absurd h hT⟩
  choose depth hdepth using hrooted
  have htreeOf : ∀ e, ∃ T, ∀ S < n, e ∈ (tree S).edges → T = S := by
    intro e
    by_cases h : ∃ T < n, e ∈ (tree T).edges
    · obtain ⟨T, hT, he⟩ := h
      refine ⟨T, fun S hS heS => ?_⟩
      by_contra hne
      exact hdis T hT S hS hne he heS
    · exact ⟨0, fun S hS heS => absurd ⟨S, hS, heS⟩ h⟩
  choose treeOf htreeOf using htreeOf
  refine acyclic_of_class_or_rank hacyc (fun a => treeOf a.2) (fun a =>
    turnRank (depth (treeOf a.2)) G.verts.length a.1 (otherEnd G a.1 a.2)) ?_ a
  rintro ⟨u, e⟩ ⟨v, e'⟩ ⟨dst, hdst, T, p, q, hhop, he, entry, hentry, rfl⟩
  obtain ⟨nopkthdr, htable⟩ := htables dst hdst
  obtain ⟨fpaths', hfp', hpaths⟩ := forestPaths_spec hsp
    (fun iT hiT => (htree iT (List.mem_range.mp hiT)).valid)
    (fun iT hiT => (htree iT (List.mem_range.mp hiT)).spans dst)
  rw [hfp dst hdst, Option.some.injEq] at hfp'
  subst hfp'
  have hpaths' : ∀ iT < n, TreePaths G (tree iT).adj dst (fun v => fpaths dst v iT) :=
    fun iT hiT => hpaths iT (List.mem_range.mpr hiT)
  obtain ⟨layers, hlayers, _⟩ := Option.bind_eq_some_iff.mp htable
  obtain ⟨table, nopkthdr', layersAt, htable', ht⟩ :=
    exists_dfrTable tree (draw dst) hsort hc hlayers hpaths'
  rw [htable, Option.some.injEq, Prod.mk.injEq] at htable'
  rw [← htable'.1] at ht
  have hlay := dfrLayers_isLayering hc hlayers
  obtain ⟨hv, hT, hT', hue, hcases⟩ := ht.entry hlay.nodup hentry
  have hu : u ≠ dst := by
    rintro rfl
    rw [edgeAt, (hpaths' T (hlay.lt T hT)).nil] at he
    cases he
  have hTe := htreeOf e T (hlay.lt T hT) ((hpaths' T (hlay.lt T hT)).mem_edges hu he)
  have hTe' := htreeOf entry.ue entry.ntree (hlay.lt _ hT')
    ((hpaths' _ (hlay.lt _ hT')).mem_edges hv hue)
  dsimp only at hTe hTe' ⊢
  rw [hTe, hTe']
  rcases hcases with heq | ⟨hne, hreach⟩
  · right
    rw [heq] at hue ⊢
    obtain ⟨hroot, hbound⟩ := hdepth T (hlay.lt T hT)
    obtain ⟨port, ps, e₂, w, q', hp, hhop', _⟩ := (hpaths' T (hlay.lt T hT)).next v hv
    have hue' := hue
    rw [edgeAt_eq hp hhop', Option.some.injEq] at hue'
    rw [hue'] at hhop'
    have hund := (htree T (hlay.lt T hT)).undirected
    obtain ⟨hadj, hadj', hne⟩ :=
      (hpaths' T (hlay.lt T hT)).two_hops hund hu hv hhop hhop' he hue
    rw [otherEnd_of_hop hhop, otherEnd_of_hop hhop']
    exact ⟨rfl, hroot.turnRank_lt hund hbound hadj hadj' hne⟩
  · left
    exact (reflTransGen_iff_eq_or_transGen.mp (reach_iff.mp hreach)).resolve_left
      (fun h => hne h.symm)

/-- The two links of `doubleLink` as the trees `0` and `1` of a forest. -/
def pairTree (iT : ℕ) : ITree (Fin 2) (Fin 2) := linkTree (if iT = 0 then 0 else 1)

lemma isSpanningTree_pairTree (iT : ℕ) : (pairTree iT).IsSpanningTree doubleLink where
  undirected := rfl
  valid := by
    intro ie hie
    rw [List.mem_singleton.mp hie]
    exact .inl ⟨rfl, rfl⟩
  spans := by
    intro root v
    by_cases hv : v = root
    · exact ⟨[], hv.symm⟩
    · refine ⟨[if iT = 0 then 0 else 1], v, ITree.mem_adj.mpr ?_, rfl⟩
      match root, v with
      | 0, 0 => exact absurd rfl hv
      | 0, 1 => exact .inl (List.mem_singleton.mpr rfl)
      | 1, 0 => exact .inr ⟨rfl, List.mem_singleton.mpr rfl⟩
      | 1, 1 => exact absurd rfl hv
  length_es := rfl

lemma pairTree_disjoint (S : ℕ) (hS : S < 2) (T : ℕ) (hT : T < 2) (hne : S ≠ T) :
    (pairTree S).edges.Disjoint (pairTree T).edges := by
  have hST : (S = 0 ∧ T = 1) ∨ (S = 1 ∧ T = 0) := by omega
  rcases hST with ⟨rfl, rfl⟩ | ⟨rfl, rfl⟩ <;> unfold List.Disjoint <;> decide

/-- Sorting by insertion. -/
def insertSort (cmp : ℕ → ℕ → Ordering) (l : List ℕ) : List ℕ :=
  l.insertionSort (fun x y => cmp x y ≠ .gt)

lemma insertSort_perm (cmp : ℕ → ℕ → Ordering) (l : List ℕ) : (insertSort cmp l).Perm l :=
  List.perm_insertionSort _ l

/-- The line over the two trees. -/
def pairTtg : Ttg := { ttgCommon 2 with es := [(0, 1)], l1 := fun iT => iT = 0 }

def pairArgs : DfrArgs where
  ttgType := .line
  numTrees := -1
  l1width := 0
  selfLayer := false
  randRes := -1
  ttgSort := .perf
  maxl1 := -1

def pairPaths (dst : Fin 2) : Fin 2 → ℕ → List ℕ :=
  (forestPaths doubleLink (bfsPath [0, 1]) pairTree (List.range 2) dst).getD (fun _ _ => [])

def pairDfr (dst : Fin 2) :
    Fwdtable (Fin 2) ℕ (Fin 2) × (Fin 2 → List (Option (Fin 2) × FwdEntry ℕ (Fin 2))) :=
  (edstFwdtableDfr doubleLink pairTree 2 (bfsPath [0, 1]) insertSort (pairPaths dst) pairTtg dst
    pairArgs (fun _ => 0) (fun _ _ => 0)).getD (fun _ => [], fun _ => [])

theorem dfr_deadlockFree_pair :
    Acyclic (ChannelDep doubleLink pairPaths (fun dst => (pairDfr dst).1) [0, 1]) :=
  dfr_deadlockFree (isPathFinder_bfsPath (show ∀ v : Fin 2, v ∈ [0, 1] by decide))
    (fun T _ => isSpanningTree_pairTree T)
    pairTree_disjoint (show pairTtg.Closed by unfold Ttg.Closed; decide) (by decide)
    insertSort_perm
    (fun dst _ => eq_some_getD _ (by revert dst; decide +kernel))
    (fun dst _ => ⟨_, eq_some_getD _ (by revert dst; decide +kernel)⟩)

end ResSim
