import Mathlib.Data.Fin.VecNotation
import ResSim.Trees.Deadlock
import ResSim.Trees.DfrResilience
import ResSim.Trees.ResSort

/-!
# Forwarding without tree headers

A deadlock-free table is also built for packets that carry no tree: its entries are keyed by
the link over which a packet arrives. As the trees share no links, that link names the tree,
and a packet never arrives over the link by which its tree leaves the switch. So from the
second hop on both tables send a packet the same way.
-/

namespace ResSim

variable {V E : Type} [DecidableEq V] [DecidableEq E]

/-- The table for packets that carry no tree. -/
abbrev NopkthdrFwdtable (V E : Type) := V → List (Option E × FwdEntry ℕ E)

/-- `nopkthdr_fwdtable[v][dst, in_e]`. -/
def NopkthdrFwdtable.entries (nopkthdr : NopkthdrFwdtable V E) (v : V) (inE : Option E) :
    List (FwdEntry ℕ E) :=
  (nopkthdr v).filterMap (fun x => if x.1 = inE then some x.2 else none)

/-- State of a walk without a header: the link over which the packet arrived. -/
structure HeaderlessWalk (V E : Type) where
  hops : List ℕ
  inE : Option E
  v : V

/-- The body of the walk without a header. -/
def headerlessStep (G : PortGraph V E) (nopkthdr : NopkthdrFwdtable V E) (dst : V)
    (failedE : Finset E) (s : HeaderlessWalk V E) :
    Step (HeaderlessWalk V E) (Option (Option (List ℕ))) :=
  if s.v = dst then .done (some (some s.hops))
  else
    let matchEntry := (nopkthdr.entries s.v s.inE).find? (fun entry =>
      entry.ue ∉ localFailedE G failedE s.v)
    match matchEntry with
    | none => .done (some none)
    | some entry =>
      match G.ports s.v entry.port with
      | none => .done none
      | some nv => .next { hops := s.hops ++ [entry.port], inE := some entry.ue, v := nv }

/-! ### The entries of a link -/

section Entries

variable {T : ITree V E} {v : V} {e : E}

lemma entries_nopkthdrEntries (k : ℕ) {entries : List (FwdEntry ℕ E)}
    (h : ∀ entry ∈ entries.head?, (inboundE T v entry.ue).count (some e) = k) :
    (nopkthdrEntries T v entries).filterMap (fun x => if x.1 = some e then some x.2 else none) =
      entries.flatMap (fun x => List.replicate k x) := by
  cases entries with
  | nil => rfl
  | cons entry entries =>
    rw [nopkthdrEntries, List.filterMap_flatMap]
    congr 1
    funext x
    rw [← h entry rfl, List.filterMap_map]
    generalize inboundE T v entry.ue = l
    induction l with
    | nil => rfl
    | cons a l ih =>
      rw [List.filterMap_cons, ih, List.count_cons]
      by_cases ha : a = some e
      · simp [ha, List.replicate_succ]
      · simp [ha]

/-- A link of the tree at the switch, other than the link of its path, stands once among the
inbound links. -/
lemma count_inboundE (hn : T.edges.Nodup) {w : V} (he : (e, w) ∈ T.adj v) {ue : E}
    (hne : ue ≠ e) : (inboundE T v ue).count (some e) = 1 := by
  have hnodup : (inboundE T v ue).Nodup := by
    rw [inboundE, List.nodup_append]
    refine ⟨?_, List.nodup_singleton _, ?_⟩
    · have hsub : ((T.es.filter (fun ie => (ie.1 = v ∨ ie.2.1 = v) ∧ ie.2.2 ≠ ue)).map
          (fun ie => ie.2.2)).Nodup := hn.sublist (List.filter_sublist.map _)
      rw [show (fun ie : V × V × E => some ie.2.2) = some ∘ (fun ie => ie.2.2) from rfl,
        ← List.map_map]
      exact hsub.map (Option.some_injective E)
    · rintro a ha b hb rfl
      obtain ⟨ie, _, rfl⟩ := List.mem_map.mp ha
      simp at hb
  apply List.count_eq_one_of_mem hnodup
  obtain ⟨ie, hie, hends, rfl⟩ : ∃ ie ∈ T.es, (ie.1 = v ∨ ie.2.1 = v) ∧ ie.2.2 = e := by
    rcases ITree.mem_adj.mp he with h | ⟨_, h⟩
    · exact ⟨_, h, .inl rfl, rfl⟩
    · exact ⟨_, h, .inr rfl, rfl⟩
  apply List.mem_append_left
  exact List.mem_map.mpr ⟨ie, List.mem_filter.mpr ⟨hie, decide_eq_true ⟨hends, hne.symm⟩⟩, rfl⟩

lemma count_inboundE_of_notMem (h : e ∉ T.edges) (ue : E) :
    (inboundE T v ue).count (some e) = 0 := by
  rw [List.count_eq_zero, inboundE, List.mem_append, not_or]
  refine ⟨fun hin => h ?_, by simp⟩
  obtain ⟨ie, hie, heq⟩ := List.mem_map.mp hin
  rw [← Option.some.inj heq]
  exact List.mem_map_of_mem (List.mem_filter.mp hie).1

end Entries

/-! ### The tables that are built -/

omit [DecidableEq V] [DecidableEq E] in
/-- The first entry for packets on a tree goes over the link by which the tree leaves. -/
lemma edgeAt_of_dfrEntries {G : PortGraph V E} {fpaths : V → ℕ → List ℕ} {v : V} {ttg : Ttg}
    {layers : List (List ℕ)} {iT : ℕ} {entries : List (FwdEntry ℕ E)}
    (h : dfrEntries G fpaths v ttg layers iT = some entries) :
    ∀ entry ∈ entries.head?, edgeAt G fpaths v iT = some entry.ue := by
  rw [dfrEntries, List.mapM_cons] at h
  obtain ⟨first, hfirst, h⟩ := Option.bind_eq_some_iff.mp h
  obtain ⟨rest, _, h⟩ := Option.bind_eq_some_iff.mp h
  obtain rfl := Option.some.inj h
  rintro entry ⟨⟩
  obtain ⟨port, hport, hfirst⟩ := Option.bind_eq_some_iff.mp hfirst
  obtain ⟨e, he, hfirst⟩ := Option.bind_eq_some_iff.mp hfirst
  obtain rfl := Option.some.inj hfirst
  rw [edgeAt, hport, Option.bind_some, he]

section Agree

variable {G : PortGraph V E} {tree : ℕ → ITree V E} {n : ℕ}
  {getShortestPath : Adj V E → V → V → List E}
  {sort : (ℕ → ℕ → Ordering) → List ℕ → List ℕ} {fpaths : V → ℕ → List ℕ} {ttg : Ttg} {dst : V}
  {args : DfrArgs} {draws : ℕ → ℕ} {draw : V → ℕ → ℕ} {layers : List (List ℕ)}
  {table : Fwdtable V ℕ E} {nopkthdr : NopkthdrFwdtable V E}

/-- Both tables of a switch are made of the same entries, tree by tree. -/
lemma edstFwdtableDfr_tables (hsort : ∀ cmp l, (sort cmp l).Perm l)
    (hlay : IsLayering n layers) (hlayers : dfrLayers G n fpaths ttg args draws = some layers)
    (hbuilt : edstFwdtableDfr G tree n getShortestPath sort fpaths ttg dst args draws draw =
      some (table, nopkthdr)) :
    (table dst = [] ∧ nopkthdr dst = []) ∧ ∀ v, v ≠ dst → ∃ trees : List ℕ,
      trees.Perm layers.flatten ∧
      (∀ iT ∈ trees, ∀ entry ∈ (table.entries v (some iT)).head?,
        edgeAt G fpaths v iT = some entry.ue) ∧
      nopkthdr v = trees.flatMap (fun iT =>
        nopkthdrEntries (tree iT) v (table.entries v (some iT))) := by
  obtain ⟨layers', hlayers', h⟩ := Option.bind_eq_some_iff.mp hbuilt
  obtain rfl := Option.some.inj (hlayers.symm.trans hlayers')
  obtain ⟨_, _, h⟩ := Option.bind_eq_some_iff.mp h
  obtain ⟨table', htable, h⟩ := Option.bind_eq_some_iff.mp h
  obtain ⟨nopkthdr', hnop, h⟩ := Option.bind_eq_some_iff.mp h
  obtain ⟨rfl, rfl⟩ := Prod.ext_iff.mp (Option.some.inj h)
  obtain ⟨hdst, htable⟩ := tableOf_some htable
  obtain ⟨hdst', hnop⟩ := tableOf_some hnop
  refine ⟨⟨hdst, hdst'⟩, fun v hv => ?_⟩
  have hperm := List.Perm.flatten_congr (sortLayers_forall₂ hsort (cmpTrees ttg
    (fun iT => (getShortestPath (tree iT).adj v dst).length) args.ttgSort) (draw v) layers)
  have hentries := fun iT (hiT : iT ∈ List.flatten _) =>
    keyed_switchTable (htable v hv) (hperm.nodup_iff.mpr hlay.nodup) hiT
  refine ⟨_, hperm, fun iT hiT => edgeAt_of_dfrEntries (hentries iT hiT), ?_⟩
  have hmapM := mapM_eq_map (fun iT hiT => show
      (dfrEntries G fpaths v ttg _ iT).map (nopkthdrEntries (tree iT) v) =
        some (nopkthdrEntries (tree iT) v (Fwdtable.entries table' v (some iT))) by
    rw [hentries iT hiT, Option.map_some]
    rfl)
  have hnopv := hnop v hv
  simp only [hmapM, Option.map_some, Option.some.injEq] at hnopv
  rw [List.flatMap_def, hnopv]

/-- A link of a tree that is used, other than the link by which the tree leaves the switch, has
the entries of that tree. -/
theorem nopkthdr_entries (hsort : ∀ cmp l, (sort cmp l).Perm l) (hlay : IsLayering n layers)
    (hlayers : dfrLayers G n fpaths ttg args draws = some layers)
    (hbuilt : edstFwdtableDfr G tree n getShortestPath sort fpaths ttg dst args draws draw =
      some (table, nopkthdr))
    (hedges : ∀ T < n, (tree T).edges.Nodup)
    (hdis : ∀ S < n, ∀ T < n, S ≠ T → (tree S).edges.Disjoint (tree T).edges)
    {v w : V} {T : ℕ} {inE : E} (hT : T ∈ layers.flatten) (hin : (inE, w) ∈ (tree T).adj v)
    (hne : edgeAt G fpaths v T ≠ some inE) :
    nopkthdr.entries v (some inE) = table.entries v (some T) := by
  obtain ⟨⟨hdst, hdst'⟩, htables⟩ := edstFwdtableDfr_tables hsort hlay hlayers hbuilt
  by_cases hv : v = dst
  · rw [hv, NopkthdrFwdtable.entries, hdst', Fwdtable.entries, hdst]
    rfl
  obtain ⟨trees, hperm, hleaves, hnop⟩ := htables v hv
  have hlt : ∀ iT ∈ trees, iT < n := fun iT hiT => hlay.lt iT (hperm.mem_iff.mp hiT)
  have hTn := hlay.lt T hT
  have hown : (nopkthdrEntries (tree T) v (table.entries v (some T))).filterMap
      (fun x => if x.1 = some inE then some x.2 else none) = table.entries v (some T) := by
    rw [entries_nopkthdrEntries 1]
    · exact List.flatMap_singleton' _
    · intro entry hentry
      apply count_inboundE (hedges T hTn) hin
      rintro rfl
      exact hne (hleaves T (hperm.mem_iff.mpr hT) entry hentry)
  have hother : ∀ iT ∈ trees, iT ≠ T → (nopkthdrEntries (tree iT) v
      (table.entries v (some iT))).filterMap (fun x => if x.1 = some inE then some x.2 else none) =
        [] := by
    intro iT hiT hneT
    have hout : inE ∉ (tree iT).edges := fun h =>
      hdis iT (hlt iT hiT) T hTn hneT h (ITree.mem_edges_of_adj hin)
    rw [entries_nopkthdrEntries 0 (fun entry _ => count_inboundE_of_notMem hout entry.ue)]
    simp
  -- of all trees, only `T` has the link
  obtain ⟨pre, post, rfl⟩ := List.append_of_mem (hperm.mem_iff.mpr hT)
  have hnodup := hperm.nodup_iff.mpr hlay.nodup
  rw [List.nodup_append, List.nodup_cons] at hnodup
  rw [NopkthdrFwdtable.entries, hnop, List.filterMap_flatMap, List.flatMap_append,
    List.flatMap_cons, hown]
  have hpre : ∀ iT ∈ pre, iT ≠ T := fun iT hiT => hnodup.2.2 iT hiT T (List.mem_cons_self ..)
  have hpost : ∀ iT ∈ post, iT ≠ T := fun iT hiT h => hnodup.2.1.1 (h ▸ hiT)
  rw [List.flatMap_eq_nil_iff.mpr fun iT hiT =>
      hother iT (List.mem_append_left _ hiT) (hpre iT hiT),
    List.flatMap_eq_nil_iff.mpr fun iT hiT =>
      hother iT (List.mem_append_right _ (List.mem_cons_of_mem _ hiT)) (hpost iT hiT),
    List.nil_append, List.append_nil]

end Agree

/-! ### The walks -/

/-- The packet without a header is where the packet on a tree is, and came over a link of that
tree that is not the way on. -/
structure Arrived (G : PortGraph V E) (tree : ℕ → ITree V E) (layers : List (List ℕ))
    (fpaths : V → ℕ → List ℕ) (s : TreeWalk V ℕ) (h : HeaderlessWalk V E) : Prop where
  hops : h.hops = s.hops
  v : h.v = s.v
  mem : s.ctree ∈ layers.flatten
  unmarked : s.failedTrees = []
  arrival : ∃ inE w, h.inE = some inE ∧ (inE, w) ∈ (tree s.ctree).adj s.v ∧
    edgeAt G fpaths s.v s.ctree ≠ some inE

section Walks

variable {G : PortGraph V E} {tree : ℕ → ITree V E} {n : ℕ} {fpaths : V → ℕ → List ℕ} {ttg : Ttg}
  {dst : V} {layers : List (List ℕ)} {layersAt : V → List (List ℕ)} {table : Fwdtable V ℕ E}
  {nopkthdr : NopkthdrFwdtable V E} {failedE : Finset E} {s : TreeWalk V ℕ}

omit [DecidableEq E] in
lemma TreePaths.edgeAt_ne {T : ITree V E} {iT : ℕ} (hT : T.directed = false)
    (h : TreePaths G T.adj dst (fun v => fpaths v iT)) {v w : V} {p q : ℕ} {e : E}
    (hv : v ≠ dst) (hhop : G.hop v p = some (e, w, q)) (he : edgeAt G fpaths v iT = some e) :
    (e, v) ∈ T.adj w ∧ edgeAt G fpaths w iT ≠ some e := by
  constructor
  · obtain ⟨port, ps, e', w', q', hp, hhop', hadj, _⟩ := h.next v hv
    rw [edgeAt_eq hp hhop', Option.some.injEq] at he
    subst he
    obtain ⟨_, rfl, _⟩ := PortGraph.hop_unique hhop' hhop
    exact hadj
  · intro he'
    have hw : w ≠ dst := by
      rintro rfl
      rw [edgeAt, h.nil] at he'
      cases he'
    exact (h.two_hops hT hv hw hhop (PortGraph.hop_symm hhop) he he').2.2 rfl

variable (failedE) in
lemma DfrTable.step_cases (ht : DfrTable G fpaths ttg dst layers layersAt table)
    (hlay : IsLayering n layers) (hund : ∀ T < n, (tree T).directed = false)
    (hpaths : ∀ iT < n, TreePaths G (tree iT).adj dst (fun v => fpaths v iT))
    (hv : s.v ≠ dst) (hmem : s.ctree ∈ layers.flatten) (hun : s.failedTrees = []) :
    ((table.entries s.v (some s.ctree)).find? (fun entry =>
        entry.ue ∉ localFailedE G failedE s.v) = none ∧
      treeWalkStep G table dst failedE ∅ s = .done (some (none, true))) ∨
    ∃ entry s', (table.entries s.v (some s.ctree)).find? (fun entry =>
        entry.ue ∉ localFailedE G failedE s.v) = some entry ∧
      treeWalkStep G table dst failedE ∅ s = .next s' ∧ s'.hops = s.hops ++ [entry.port] ∧
      G.edges s.v entry.port = some entry.ue ∧ G.ports s.v entry.port = some s'.v ∧
      Arrived G tree layers fpaths s' ⟨s'.hops, some entry.ue, s'.v⟩ := by
  cases hfind : (table.entries s.v (some s.ctree)).find? (fun entry =>
      entry.ue ∉ localFailedE G failedE s.v) with
  | none =>
    refine .inl ⟨rfl, ?_⟩
    rw [treeWalkStep, if_neg hv, if_neg (Finset.notMem_empty _)]
    simp only [hun, List.not_mem_nil, not_false_eq_true, true_and, hfind]
  | some entry =>
    right
    have hentry := List.mem_of_find?_eq_some hfind
    obtain ⟨_, _, hnew, hleave, _⟩ := ht.entry hlay.nodup hentry
    obtain ⟨ps, w, q, _, hhop⟩ := (ht.lists s.v hv s.ctree hmem).hops entry hentry
    have hup : entry.ue ∉ failedE := by
      have := List.find?_some hfind
      rwa [decide_eq_true_iff, mem_localFailedE hhop] at this
    have hlt := hlay.lt _ hnew
    obtain ⟨hadj, hne⟩ := (hpaths _ hlt).edgeAt_ne (hund _ hlt) hv hhop hleave
    refine ⟨entry, ⟨s.hops ++ [entry.port], entry.ntree, [] ++ entry.markFailed, w,
      s.failExp || entry.ntree ≠ s.ctree⟩, rfl, ?_, rfl, PortGraph.edges_of_hop hhop,
      PortGraph.ports_of_hop hhop, rfl, rfl, hnew, ?_, entry.ue, s.v, rfl, hadj, hne⟩
    · rw [treeWalkStep, if_neg hv, if_neg (Finset.notMem_empty _)]
      simp only [hun, List.not_mem_nil, not_false_eq_true, true_and, hfind, if_neg hup,
        PortGraph.ports_of_hop hhop]
    · rw [ht.unmarked s.v hv s.ctree hmem entry hentry]
      rfl

variable (failedE) in
lemma DfrTable.lockstep (ht : DfrTable G fpaths ttg dst layers layersAt table)
    (hlay : IsLayering n layers) (hund : ∀ T < n, (tree T).directed = false)
    (hpaths : ∀ iT < n, TreePaths G (tree iT).adj dst (fun v => fpaths v iT))
    (hagree : ∀ v w T inE, T ∈ layers.flatten → (inE, w) ∈ (tree T).adj v →
      edgeAt G fpaths v T ≠ some inE →
      nopkthdr.entries v (some inE) = table.entries v (some T)) :
    Loop.Lockstep (treeWalkStep G table dst failedE ∅) (headerlessStep G nopkthdr dst failedE)
      (Arrived G tree layers fpaths) (Option.map Prod.fst) := by
  rintro s ⟨hops, inE, v⟩ ⟨rfl, rfl, hmem, hun, e, w, rfl, hadj, hne⟩
  by_cases hv : s.v = dst
  · exact .inl ⟨_, treeWalkStep_dst hv, if_pos hv⟩
  · have heq := hagree s.v w s.ctree e hmem hadj hne
    rcases ht.step_cases failedE hlay hund hpaths hv hmem hun with
      ⟨hfind, hd⟩ | ⟨entry, s', hfind, hn, hhops, _, hport, harr⟩
    · refine .inl ⟨_, hd, ?_⟩
      rw [headerlessStep, if_neg hv]
      simp only [heq, hfind]
      rfl
    · refine .inr ⟨s', _, hn, ?_, harr⟩
      rw [headerlessStep, if_neg hv]
      simp only [heq, hfind, hport, hhops]

end Walks

/-- The table for packets without a header lists under every link of a tree, other than the
link by which the tree leaves the switch, what the other table lists under that tree. So from
its second hop on a packet needs no header: with whatever links failed, the link over which it
arrived has entries, and it is sent where the packet on the tree is sent. -/
theorem headerless_agrees {G : PortGraph V E} {getShortestPath : Adj V E → V → V → List E}
    (hsp : IsPathFinder getShortestPath) {tree : ℕ → ITree V E} {n : ℕ}
    (htree : ∀ T < n, (tree T).IsSpanningTree G)
    (hdis : ∀ S < n, ∀ T < n, S ≠ T → (tree S).edges.Disjoint (tree T).edges)
    {ttg : Ttg} (hc : ttg.Closed)
    {sort : (ℕ → ℕ → Ordering) → List ℕ → List ℕ} (hsort : ∀ cmp l, (sort cmp l).Perm l)
    {dst : V} {fpaths : V → ℕ → List ℕ} {args : DfrArgs} {draws : ℕ → ℕ} {draw : V → ℕ → ℕ}
    (hfp : forestPaths G getShortestPath tree (List.range n) dst = some fpaths)
    {layers : List (List ℕ)} (hlayers : dfrLayers G n fpaths ttg args draws = some layers)
    {table : Fwdtable V ℕ E} {nopkthdr : NopkthdrFwdtable V E}
    (hbuilt : edstFwdtableDfr G tree n getShortestPath sort fpaths ttg dst args draws draw =
      some (table, nopkthdr)) :
    (∀ v w T inE, T ∈ layers.flatten → (inE, w) ∈ (tree T).adj v →
      edgeAt G fpaths v T ≠ some inE →
      nopkthdr.entries v (some inE) = table.entries v (some T)) ∧
    ∀ (failedE : Finset E) (src : V), ∀ itree ∈ layers.flatten, ∀ s,
      treeWalkStep G table dst failedE ∅ ⟨[], itree, [], src, false⟩ = .next s →
      ∃ port inE, s.hops = [port] ∧ G.edges src port = some inE ∧
        (∀ fuel, Loop.run (headerlessStep G nopkthdr dst failedE) fuel ⟨[port], some inE, s.v⟩ =
          (Loop.run (treeWalkStep G table dst failedE ∅) fuel s).map (Option.map Prod.fst)) ∧
        ∀ h, Loop.Reaches (headerlessStep G nopkthdr dst failedE) ⟨[port], some inE, s.v⟩ h →
          h.v ≠ dst → nopkthdr.entries h.v h.inE ≠ [] := by
  have hpaths : ∀ iT < n, TreePaths G (tree iT).adj dst (fun v => fpaths v iT) := by
    obtain ⟨_, hfp', hpaths⟩ := forestPaths_spec hsp
      (fun iT hiT => (htree iT (List.mem_range.mp hiT)).valid)
      (fun iT hiT => (htree iT (List.mem_range.mp hiT)).spans dst)
    obtain rfl := Option.some.inj (hfp.symm.trans hfp')
    exact fun iT hiT => hpaths iT (List.mem_range.mpr hiT)
  have hlay := dfrLayers_isLayering hc hlayers
  have hund : ∀ T < n, (tree T).directed = false := fun T hT => (htree T hT).undirected
  have hagree : ∀ v w T inE, T ∈ layers.flatten → (inE, w) ∈ (tree T).adj v →
      edgeAt G fpaths v T ≠ some inE →
      nopkthdr.entries v (some inE) = table.entries v (some T) := fun v w T inE =>
    nopkthdr_entries hsort hlay hlayers hbuilt (fun T hT => (htree T hT).nodup_edges) hdis
  obtain ⟨_, _, _, htable, ht⟩ := exists_dfrTable tree draw hsort hc hlayers hpaths
  obtain ⟨rfl, _⟩ := Prod.ext_iff.mp (Option.some.inj (hbuilt.symm.trans htable))
  refine ⟨hagree, fun failedE src itree hit s hn => ?_⟩
  have hsrc : src ≠ dst := by
    intro h
    rw [treeWalkStep_dst h] at hn
    cases hn
  rcases ht.step_cases (s := ⟨[], itree, [], src, false⟩) failedE hlay hund hpaths
    hsrc hit rfl with ⟨_, hd⟩ | ⟨entry, s', _, hn', hhops, hedge, _, harr⟩
  · rw [hn] at hd
    cases hd
  · rw [hn, Step.next.injEq] at hn'
    subst hn'
    rw [hhops] at harr
    have hlock := ht.lockstep failedE hlay hund hpaths hagree
    refine ⟨entry.port, entry.ue, hhops, hedge, hlock.run_eq harr, fun h hr hv => ?_⟩
    obtain ⟨s', _, _, hvs, hmem, _, e, w, hinE, hadj, hne⟩ := hlock.reaches harr hr
    rw [hvs] at hv ⊢
    rw [hinE, hagree _ w _ e hmem hadj hne]
    intro hnil
    have htrees := (ht.lists s'.v hv s'.ctree hmem).trees
    rw [hnil] at htrees
    exact absurd htrees (List.cons_ne_nil _ _).symm

/-- Three switches in a row, joined by two links each. -/
def doubleChain : PortGraph (Fin 3) (Fin 4) :=
  PortGraph.ofFinLinks ![0, 0, 1, 1] ![0, 1, 2, 3] ![1, 1, 2, 2] ![0, 1, 0, 1] (fun _ => 1)
    (by decide) (by decide)

/-- One link of each pair for the trees `0` and `1` of a forest. -/
def chainTree (iT : ℕ) : ITree (Fin 3) (Fin 4) :=
  ⟨false, if iT = 0 then [(0, 1, 0), (1, 2, 2)] else [(0, 1, 1), (1, 2, 3)]⟩

lemma isSpanningTree_chainTree (iT : ℕ) : (chainTree iT).IsSpanningTree doubleChain where
  undirected := rfl
  valid := by
    unfold ITree.Valid chainTree
    by_cases h : iT = 0
    · simp only [if_pos h]
      decide
    · simp only [if_neg h]
      decide
  spans := by
    have hspans : (chainTree iT).Spans 0 := ITree.spans_of_rank Fin.val ?_
    · exact hspans.of_undirected rfl
    unfold chainTree
    by_cases h : iT = 0
    · simp only [if_pos h]
      decide
    · simp only [if_neg h]
      decide
  length_es := by
    unfold chainTree
    split <;> rfl

lemma chainTree_disjoint (S : ℕ) (hS : S < 2) (T : ℕ) (hT : T < 2) (hne : S ≠ T) :
    (chainTree S).edges.Disjoint (chainTree T).edges := by
  have hST : (S = 0 ∧ T = 1) ∨ (S = 1 ∧ T = 0) := by omega
  rcases hST with ⟨rfl, rfl⟩ | ⟨rfl, rfl⟩ <;> unfold List.Disjoint <;> decide

def chainPaths : Fin 3 → ℕ → List ℕ :=
  (forestPaths doubleChain (bfsPath [0, 1, 2]) chainTree (List.range 2) 0).getD (fun _ _ => [])

def chainDfr : Fwdtable (Fin 3) ℕ (Fin 4) × NopkthdrFwdtable (Fin 3) (Fin 4) :=
  (edstFwdtableDfr doubleChain chainTree 2 (bfsPath [0, 1, 2]) listSort chainPaths pairTtg 0
    pairArgs (fun _ => 0) (fun _ _ => 0)).getD (fun _ => [], fun _ => [])

/-- On tree `0` the switch `1` sends a packet that came without a header as one with it, and
with link `0` failed a packet from switch `2` goes the same way in both. -/
theorem headerless_agrees_chain :
    chainDfr.2.entries 1 (some 2) = chainDfr.1.entries 1 (some 0) ∧
    chainDfr.1.entries 1 (some 0) ≠ [] ∧
    ∃ s, treeWalkStep doubleChain chainDfr.1 0 {0} ∅ ⟨[], 0, [], 2, false⟩ = .next s ∧
      ∃ port inE, s.hops = [port] ∧ doubleChain.edges 2 port = some inE ∧
        (∀ fuel, Loop.run (headerlessStep doubleChain chainDfr.2 0 {0}) fuel
            ⟨[port], some inE, s.v⟩ =
          (Loop.run (treeWalkStep doubleChain chainDfr.1 0 {0} ∅) fuel s).map
            (Option.map Prod.fst)) ∧
        ∀ h, Loop.Reaches (headerlessStep doubleChain chainDfr.2 0 {0})
          ⟨[port], some inE, s.v⟩ h → h.v ≠ 0 → chainDfr.2.entries h.v h.inE ≠ [] := by
  obtain ⟨hentries, hwalk⟩ := headerless_agrees
    (isPathFinder_bfsPath (show ∀ v : Fin 3, v ∈ [0, 1, 2] by decide))
    (fun T _ => isSpanningTree_chainTree T) chainTree_disjoint
    (show pairTtg.Closed by unfold Ttg.Closed; decide) listSort_perm
    (show _ = some chainPaths from eq_some_getD _ (by decide +kernel))
    (show _ = some [[0], [1]] by decide +kernel)
    (show _ = some chainDfr from eq_some_getD _ (by decide +kernel))
  refine ⟨hentries 1 2 0 2 (by decide) (by decide) (by decide +kernel), by decide +kernel, ?_⟩
  have hsent : (Loop.run (treeWalkStep doubleChain chainDfr.1 0 {0} ∅) 1
      ⟨[], 0, [], 2, false⟩).isSome = false := by decide +kernel
  cases hs : treeWalkStep doubleChain chainDfr.1 0 {0} ∅ ⟨[], 0, [], 2, false⟩ with
  | next s => exact ⟨s, rfl, hwalk {0} 2 0 (by decide) s hs⟩
  | done r =>
    rw [Loop.run_done hs 0] at hsent
    cases hsent

end ResSim
