import ResSim.Lib.ShortestPath
import ResSim.Fcp.Table

/-!
# The first FCP paths

All packets start on one tree, a breadth-first search tree of the destination. Where a switch
has an entry already it is the one of the tree, so a first path can be stored up to there.
-/

namespace ResSim

variable {V E : Type} [DecidableEq V] [DecidableEq E] {G : PortGraph V E}

/-- A tree towards the destination of shortest paths. -/
structure FcpTree (G : PortGraph V E) (dst : V) (iT : Adj V E) : Prop where
  root : iT dst = []
  next : ∀ v, v ≠ dst → ∃ e w p q, iT v = [(e, w)] ∧ G.hop v p = some (e, w, q) ∧
    ∀ hops, ShortestHops G ∅ w hops dst → ShortestHops G ∅ v (p :: hops) dst

/-- The ports lead along the tree to the destination. -/
def TreeHops (G : PortGraph V E) (iT : Adj V E) (dst : V) : V → List ℕ → Prop
  | v, [] => v = dst
  | v, hop :: hops => ∃ e w q, G.hop v hop = some (e, w, q) ∧ iT v = [(e, w)] ∧
    TreeHops G iT dst w hops

variable {iT : Adj V E} {dst v w : V} {hops hops' path : List ℕ} {x : FcpHop V E} {e : E} {q : ℕ}
  {getShortestPath : Adj V E → V → V → List E} {bfsParents : Adj V E → V → V → Option V}

lemma upAdj_symm {K : Finset E} (h : (e, w) ∈ upAdj G K v) : (e, v) ∈ upAdj G K w := by
  obtain ⟨he, p, q, hhop⟩ := mem_upAdj.mp h
  exact mem_upAdj.mpr ⟨he, q, p, PortGraph.hop_symm hhop⟩

/-- A shortest walk from the destination is as long as a shortest path to it. -/
lemma length_eq_of_shortest {K : Finset E} {p : List E} (h : Shortest (upAdj G K) dst p v)
    (hs : ShortestHops G K v hops dst) : p.length = hops.length := by
  obtain ⟨p', hp', hlen⟩ := edgeWalk_of_leads hs.1
  obtain ⟨hops', _, _, hl, ha, hedges⟩ :=
    exists_hoplist_up (h.1.reverse (fun _ _ _ => upAdj_symm))
  have hle := h.2 p'.reverse (hp'.reverse (fun _ _ _ => upAdj_symm))
  have hle' := hs.2 hops' hl
  have hlen' := congrArg List.length hedges
  rw [List.length_map, arcSet_length ha, List.length_reverse] at hlen'
  rw [List.length_reverse] at hle
  omega

lemma exists_shortestHops {K : Finset E} (h : ∃ path, G.Leads K v path dst) :
    ∃ hops, ShortestHops G K v hops dst := by
  obtain ⟨path, hpath⟩ := h
  obtain ⟨p, hp, _⟩ := edgeWalk_of_leads hpath
  obtain ⟨p', hp'⟩ := exists_shortest ⟨p, hp⟩
  obtain ⟨hops, _, _, hl, ha, hedges⟩ := exists_hoplist_up hp'.1
  refine ⟨hops, hl, fun hops' hl' => ?_⟩
  obtain ⟨p₁, hp₁, hlen⟩ := edgeWalk_of_leads hl'
  have hlen' := congrArg List.length hedges
  rw [List.length_map, arcSet_length ha] at hlen'
  rw [hlen', ← hlen]
  exact hp'.2 p₁ hp₁

/-! ### Building the tree -/

/-- The tree of a connected topology with a link. -/
theorem buildTree_spec (hbfs : IsBfs bfsParents) (hconn : ∀ v, ∃ path, G.Leads ∅ v path dst)
    (pick : V → ℕ) (hlink : ∃ e w, (e, w) ∈ upAdj G ∅ dst) :
    ∃ iT, buildTree G bfsParents pick dst = some iT ∧ FcpTree G dst iT := by
  have hadj : ((mygraphToIgraph G).subgraphEdges (fun _ => true)).adj = upAdj G ∅ := by
    rw [upAdj_empty]
    funext v
    exact List.filter_true _
  have hvs : ((mygraphToIgraph G).subgraphEdges (fun _ => true)).vs dst = true := by
    obtain ⟨e, w, hin⟩ := hlink
    rw [← hadj] at hin
    have hne := List.ne_nil_of_mem hin
    simpa [IGraph.subgraphEdges] using hne
  refine ⟨_, if_pos hvs, if_pos rfl, fun v hv => ?_⟩
  obtain ⟨hops, hs⟩ := exists_shortestHops (hconn v)
  obtain ⟨p₀, hp₀, _⟩ := edgeWalk_of_leads hs.1
  obtain ⟨q, hq⟩ := exists_shortest ⟨_, hp₀.reverse (fun _ _ _ => upAdj_symm)⟩
  obtain ⟨p, q', e, hparent, he, hq', hlen⟩ := hbfs _ _ _ _ hv hq
  obtain ⟨_, port, port', hhop⟩ := mem_upAdj.mp (upAdj_symm he)
  have hopt : ∃ e', e' ∈ (G.portList v).filterMap (fun port =>
      if G.ports v port = some p then G.edges v port else none) := by
    refine ⟨e, List.mem_filterMap.mpr ⟨port, PortGraph.hop_mem_portList hhop, ?_⟩⟩
    rw [if_pos (PortGraph.ports_of_hop hhop), PortGraph.edges_of_hop hhop]
  obtain ⟨e', he'⟩ := exists_choice_of_ne_nil (pick v) (List.ne_nil_of_mem hopt.choose_spec)
  obtain ⟨port₁, _, hport₁⟩ := List.mem_filterMap.mp (choice_mem he')
  split at hport₁
  · rename_i hports
    obtain ⟨w, q₁, hhop₁⟩ := PortGraph.exists_hop_of_edges hport₁
    rw [PortGraph.ports_of_hop hhop₁, Option.some.injEq] at hports
    subst hports
    refine ⟨e', w, port₁, q₁, ?_, hhop₁, fun hops' hs' => ?_⟩
    · simp only [if_neg hv, hadj, hparent, Option.bind_some, he', Option.map_some,
        Option.toList_some]
    · refine hs.of_length_eq ⟨e', w, q₁, hhop₁, Finset.notMem_empty _, hs'.1⟩ ?_
      rw [List.length_cons, ← length_eq_of_shortest hq' hs', hlen, length_eq_of_shortest hq hs]
  · cases hport₁

lemma buildTree_eq_none (pick : V → ℕ) (hlink : ¬ ∃ e w, (e, w) ∈ upAdj G ∅ dst) :
    buildTree G bfsParents pick dst = none := by
  apply if_neg
  intro hvs
  simp only [IGraph.subgraphEdges, List.filter_true, Bool.not_eq_true',
    List.isEmpty_eq_false_iff_exists_mem] at hvs
  obtain ⟨⟨e, w⟩, hin⟩ := hvs
  rw [← upAdj_empty] at hin
  exact hlink ⟨e, w, hin⟩

/-! ### Paths in the tree -/

section Tree

variable (hT : FcpTree G dst iT)
include hT

omit [DecidableEq E] in
lemma TreeHops.unique (h : TreeHops G iT dst v hops) (h' : TreeHops G iT dst v hops') :
    hops = hops' := by
  induction hops generalizing v hops' with
  | nil =>
    obtain rfl : v = dst := h
    cases hops' with
    | nil => rfl
    | cons hop hops' =>
      obtain ⟨_, _, _, _, hin, _⟩ := h'
      rw [hT.root] at hin
      cases hin
  | cons hop hops ih =>
    obtain ⟨e, w, q, hhop, hin, h⟩ := h
    cases hops' with
    | nil =>
      obtain rfl : v = dst := h'
      rw [hT.root] at hin
      cases hin
    | cons hop' hops' =>
      obtain ⟨e', w', q', hhop', hin', h'⟩ := h'
      rw [hin] at hin'
      obtain ⟨rfl, rfl⟩ := Prod.mk.inj (List.singleton_injective hin')
      rw [(PortGraph.hop_unique hhop hhop').1, ih h h']

omit [DecidableEq E] in
lemma TreeHops.shortest (h : TreeHops G iT dst v hops) : ShortestHops G ∅ v hops dst := by
  induction hops generalizing v with
  | nil =>
    obtain rfl : v = dst := h
    exact ⟨rfl, fun _ _ => Nat.zero_le _⟩
  | cons hop hops ih =>
    obtain ⟨e, w, q, hhop, hin, h⟩ := h
    have hv : v ≠ dst := by
      rintro rfl
      rw [hT.root] at hin
      cases hin
    obtain ⟨e', w', p, q', hin', hhop', hnext⟩ := hT.next v hv
    rw [hin] at hin'
    obtain ⟨rfl, rfl⟩ := Prod.mk.inj (List.singleton_injective hin')
    rw [(PortGraph.hop_unique hhop hhop').1]
    exact hnext hops (ih h)

lemma exists_treeHops (hconn : ∀ v, ∃ path, G.Leads ∅ v path dst) (v : V) :
    ∃ hops, TreeHops G iT dst v hops := by
  obtain ⟨hops, hs⟩ := exists_shortestHops (hconn v)
  induction hn : hops.length generalizing v hops with
  | zero =>
    obtain rfl := List.length_eq_zero_iff.mp hn
    exact ⟨[], hs.1⟩
  | succ n ih =>
    by_cases hv : v = dst
    · exact ⟨[], hv⟩
    · obtain ⟨e, w, p, q, hin, hhop, hnext⟩ := hT.next v hv
      obtain ⟨hops', hs'⟩ := exists_shortestHops (hconn w)
      have hlen := (hnext hops' hs').length_eq hs
      rw [List.length_cons] at hlen
      obtain ⟨hops₁, h₁⟩ := ih w hops' hs' (by omega)
      exact ⟨p :: hops₁, e, w, q, hhop, hin, h₁⟩

omit [DecidableEq E] hT in
lemma TreeHops.edgeWalk (h : TreeHops G iT dst v hops) : ∃ p, EdgeWalk iT v p dst := by
  induction hops generalizing v with
  | nil => exact ⟨[], h⟩
  | cons hop hops ih =>
    obtain ⟨e, w, q, _, hin, h⟩ := h
    obtain ⟨p, hp⟩ := ih h
    exact ⟨e :: p, w, hin ▸ List.mem_singleton_self _, hp⟩

omit [DecidableEq E] in
lemma exists_treeHops_of_edgeWalk {p : List E} (h : EdgeWalk iT v p dst) :
    ∃ hops, igraphPathToHoplist G v dst p = some hops ∧ TreeHops G iT dst v hops := by
  induction p generalizing v with
  | nil => exact ⟨[], if_pos h, h⟩
  | cons e p ih =>
    obtain ⟨w, hin, hp⟩ := edgeWalk_cons.mp h
    have hv : v ≠ dst := by
      rintro rfl
      rw [hT.root] at hin
      cases hin
    obtain ⟨e', w', port, q, hin', hhop, _⟩ := hT.next v hv
    rw [hin', List.mem_singleton, Prod.mk.injEq] at hin
    obtain ⟨rfl, rfl⟩ := hin
    obtain ⟨hops, hrun, htree⟩ := ih hp
    refine ⟨port :: hops, ?_, e, w, q, hhop, hin', htree⟩
    rw [igraphPathToHoplist_hop hhop, hrun, Option.map_some]

/-- Every other switch with hosts starts with its path in the tree. -/
theorem initTreePath_spec (hsp : IsPathFinder getShortestPath)
    (hconn : ∀ v, ∃ path, G.Leads ∅ v path dst) (v : V) :
    (∃ N, initTreePath G getShortestPath iT dst v = some (some N) ∧ IsBranch dst v ∅ [] N ∧
      TreeHops G iT dst v N.fullPath) ∨
    (initTreePath G getShortestPath iT dst v = some none ∧ (0 < G.numhosts v → v = dst)) := by
  rw [initTreePath]
  by_cases hhosts : 0 < G.numhosts v
  · simp only [if_pos hhosts, Option.bind_eq_bind]
    obtain ⟨_, htree⟩ := exists_treeHops hT hconn v
    have hs := hsp.shortest _ v dst htree.edgeWalk
    by_cases hv : v = dst
    · right
      subst hv
      exact ⟨if_pos hs.eq_nil, fun _ => rfl⟩
    · left
      obtain ⟨hops, hrun, htree⟩ := exists_treeHops_of_edgeWalk hT hs.1
      have hiP : getShortestPath iT v dst ≠ [] := by
        intro hiP
        rw [hiP] at hs
        exact hv hs.1
      have hne : hops ≠ [] := by
        rintro rfl
        exact hv htree
      obtain ⟨N, hN, hb, hfull⟩ := exists_branch_of_hops (htree.shortest hT) hne []
      refine ⟨N, ?_, hb, hfull ▸ htree⟩
      rw [if_neg hiP, hrun, Option.bind_some, if_neg hne, hN, Option.map_some]
  · right
    exact ⟨if_neg hhosts, fun h => absurd h hhosts⟩

end Tree

/-! ### Storing the first paths -/

/-- A first path. -/
structure IsFirst (G : PortGraph V E) (iT : Adj V E) (dst : V) (N : FcpPath G) : Prop where
  branch : IsBranch dst N.v ∅ [] N.toPath
  tree : TreeHops G iT dst N.v N.fullPath
  firsthopV_eq : N.firsthopV = N.v
  firsthopE_eq : N.firsthopE = ∅

variable {T : Set (FcpPath G)} {N : FcpPath G} {t : FcpTables G}

omit [DecidableEq V] in
lemma localFailedE_empty : (localFailedE G ∅ v).toFinset = ∅ :=
  Finset.eq_empty_of_forall_notMem
    (fun f hf => Finset.notMem_empty f (mem_localFailedE_toFinset.mp hf).1)

lemma IsFirst.isFcpBranch (hT : FcpTree G dst iT) (hN : IsFirst G iT dst N) :
    IsFcpBranch dst N := by
  refine ⟨?_, ?_, hN.firsthopV_eq, ?_⟩
  · rw [hN.branch.failedE_eq, hN.branch.extra_eq]
    exact hN.branch
  · rw [hN.branch.failedE_eq]
    exact hN.tree.shortest hT
  · rw [hN.branch.failedE_eq, hN.firsthopE_eq, localFailedE_empty]
    rfl

lemma TreeHops.rest (h : TreeHops G iT dst v hops) (hx : OnRoute G ∅ ∅ v hops x) :
    ∃ hops', TreeHops G iT dst x.v hops' ∧
      ∀ y, OnRoute G ∅ ∅ x.v hops' y → OnRoute G ∅ ∅ v hops y := by
  induction hops generalizing v with
  | nil => exact hx.elim
  | cons hop hops ih =>
    obtain ⟨e, w, q, hhop, hin, htree⟩ := h
    rcases (onRoute_cons hhop).mp hx with rfl | hx
    · exact ⟨hop :: hops, ⟨e, w, q, hhop, hin, htree⟩, fun y hy => hy⟩
    · obtain ⟨hops', htree', hsub⟩ := ih htree hx
      exact ⟨hops', htree', fun y hy => (onRoute_cons hhop).mpr (.inr (hsub y hy))⟩

lemma FcpTableOf.exists_treeRoute (ht : FcpTableOf T t) (hT : ∀ N ∈ T, IsFirst G iT dst N)
    {P : Path G} (hget : dictGet t.memberTrees (v, ∅, ∅) = some P) :
    ∃ hops, TreeHops G iT dst v hops ∧ ∀ y, OnRoute G ∅ ∅ v hops y → t.Has y := by
  obtain ⟨N, hN, x, hx, hkey, _⟩ := ht.sound _ _ hget
  have hfirst := hT N hN
  rw [FcpPath.Makes, hfirst.branch.failedE_eq, hfirst.firsthopE_eq] at hx
  obtain ⟨hops, htree, hsub⟩ := hfirst.tree.rest hx
  obtain ⟨hv, _⟩ := Prod.mk.inj hkey
  rw [hv] at htree hsub
  refine ⟨hops, htree, fun y hy => ht.complete N hN y ?_⟩
  rw [FcpPath.Makes, hfirst.branch.failedE_eq, hfirst.firsthopE_eq]
  exact hsub y hy

/-- A first path is stored up to the first entry that there is already. -/
lemma fcpInitHops_spec {t₀ : FcpTables G} (hT : FcpTree G dst iT) (h₀ : FcpTableOf T t₀)
    (hfirst : ∀ N ∈ T, IsFirst G iT dst N) (ht : t.Sane) (hext : t₀.Extends t)
    (hold : ∀ k P, dictGet t.memberTrees k = some P → dictGet t₀.memberTrees k = some P ∨
      ∃ hops, TreeHops G iT dst k.1 hops ∧ path.length < hops.length)
    (htree : TreeHops G iT dst v path) (rp : List ℕ) :
    ∃ t', fcpInitHops G v rp path t = some t' ∧ Stores ∅ ∅ v dst path t t' path false := by
  induction path generalizing v t rp with
  | nil =>
    exact ⟨t, rfl, htree.shortest hT, fun _ => rfl, ht, fun _ _ h => h, fun _ hx => hx.elim,
      fun _ _ h => .inl h⟩
  | cons hop rest ih =>
    have hs := htree.shortest hT
    have hpath₀ := htree
    obtain ⟨e, w, q, hhop, hin, htail⟩ := htree
    obtain ⟨P, hP, _, hpath, _⟩ := exists_mkPath [hop] hs.1 rp
    cases hget : dictGet t.memberTrees (v, ∅, ∅) with
    | some P' =>
      have hget₀ : dictGet t₀.memberTrees (v, ∅, ∅) = some P' := by
        refine (hold _ _ hget).resolve_right ?_
        rintro ⟨hops, htree', hlt⟩
        rw [← TreeHops.unique hT hpath₀ htree'] at hlt
        exact absurd hlt (Nat.lt_irrefl _)
      obtain ⟨hops, htree', hhas⟩ := h₀.exists_treeRoute hfirst hget₀
      obtain rfl := TreeHops.unique hT hpath₀ htree'
      refine ⟨t, ?_, hs, fun _ => rfl, ht, fun _ _ h => h, fun x hx => hext.has (hhas x hx),
        fun _ _ h => .inl h⟩
      simp only [fcpInitHops, hhop, hP, hget, Option.bind_eq_bind, Option.bind_some,
        Option.isSome_some, if_true]
    | none =>
      have hkey := dictGet_eq_none.mp hget
      let t₁ := t.add v ∅ e ∅ P
      have hget₁ : ∀ k, dictGet t₁.memberTrees k =
          if k = (v, ∅, ∅) then some P else dictGet t.memberTrees k :=
        fun k => dictGet_dictSet_of_not_mem hkey
      have hext₁ : t.Extends t₁ := FcpTables.extends_add hget
      have hold₁ : ∀ k Q, dictGet t₁.memberTrees k = some Q →
          dictGet t₀.memberTrees k = some Q ∨
            ∃ hops, TreeHops G iT dst k.1 hops ∧ rest.length < hops.length := by
        intro k Q hQ
        rw [hget₁] at hQ
        split at hQ
        · rename_i hk
          rw [hk]
          exact .inr ⟨hop :: rest, hpath₀, Nat.lt_succ_self _⟩
        · refine (hold k Q hQ).imp_right ?_
          rintro ⟨hops, htree', hlt⟩
          exact ⟨hops, htree', (Nat.lt_succ_self _).trans hlt⟩
      obtain ⟨t', hrun, hst⟩ := ih (ht.add hget hpath (PortGraph.edges_of_hop hhop))
        (fun k Q hQ => hext₁ k Q (hext k Q hQ)) hold₁ htail (q :: rp)
      refine ⟨t', ?_, hst.cons hs hhop hget hpath localFailedE_empty.symm⟩
      simp only [fcpInitHops, hhop, hP, hget, Option.bind_eq_bind, Option.bind_some,
        Option.isSome_none, Bool.false_eq_true, if_false]
      exact hrun

lemma foldlM_fcpInitHops {l : List (Path G)} (hT : FcpTree G dst iT) (h₀ : FcpTableOf T t)
    (hfirst : ∀ N ∈ T, IsFirst G iT dst N) (hl : ∀ P ∈ l, IsFirst G iT dst ⟨P, P.v, ∅⟩) :
    ∃ t', l.foldlM (fun t path => fcpInitHops G path.v [] path.path t) t = some t' ∧
      FcpTableOf (T ∪ {N | N ∈ l.map (fun path => FcpPath.mk path path.v ∅)}) t' := by
  induction l generalizing T t with
  | nil =>
    refine ⟨t, rfl, ?_⟩
    have hempty : {N : FcpPath G | N ∈ ([] : List (FcpPath G))} = ∅ := by
      ext N
      simp
    rw [List.map_nil, hempty, Set.union_empty]
    exact h₀
  | cons P l ih =>
    obtain ⟨hP, hl⟩ := List.forall_mem_cons.mp hl
    have htree := hP.tree
    dsimp only at htree
    rw [← hP.branch.path_eq] at htree
    obtain ⟨t₁, hrun₁, hst⟩ := fcpInitHops_spec hT h₀ hfirst h₀.sane (fun _ _ h => h)
      (fun _ _ h => .inl h) htree []
    rw [hP.branch.path_eq] at hst
    have hst' : Stores P.failedE ∅ P.v dst P.fullPath t t₁ P.fullPath false := by
      rw [hP.branch.failedE_eq]
      exact hst
    have h₁ := hst'.tableOf (N := ⟨P, P.v, ∅⟩) h₀
    obtain ⟨t', hrun, h'⟩ := ih h₁ (by
      rintro N (rfl | hN)
      · exact hP
      · exact hfirst N hN) hl
    refine ⟨t', ?_, ?_⟩
    · rw [List.foldlM_cons, hrun₁]
      exact hrun
    · have hset : T ∪ {N | N ∈ (P :: l).map (fun path => FcpPath.mk path path.v ∅)} =
          insert ⟨P, P.v, ∅⟩ T ∪ {N | N ∈ l.map (fun path => FcpPath.mk path path.v ∅)} := by
        ext N
        simp only [List.map_cons, List.mem_cons, Set.mem_union, Set.mem_insert_iff,
          Set.mem_ofPred_eq]
        tauto
      rw [hset]
      exact h'

end ResSim
