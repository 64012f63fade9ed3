import ResSim.Lib.Disjoint
import ResSim.Lib.ShortestPath
import ResSim.Trees.Table

/-!
# Edge-disjoint spanning trees

The table for packets on a tree lists that tree and then the resilient trees by length. With
fewer failures than resilient trees some tree is never touched, no packet is told that it has
failed, and a packet that moves on keeps to a tree until the tree's next link is down. So
every packet reaches the destination.
-/

namespace ResSim

variable {V E τ : Type} [DecidableEq V] [DecidableEq E] [DecidableEq τ]

/-- The entries for the resilient trees not used before, in the given order. -/
def edstAlternates (G : PortGraph V E) (fpaths : V → τ → List ℕ) (v : V) :
    List τ → List τ → Option (List (FwdEntry τ E))
  | _, [] => some []
  | usedTrees, aiT :: rest =>
    if aiT ∈ usedTrees then edstAlternates G fpaths v usedTrees rest
    else do
      let entry ← treeEntry G fpaths v aiT usedTrees
      let entries ← edstAlternates G fpaths v (usedTrees ++ [aiT]) rest
      some (entry :: entries)

/-- The entries for packets on the tree `iT`. -/
def edstEntries (G : PortGraph V E) (fpaths : V → τ → List ℕ) (v : V) (shortest : List τ)
    (iT : τ) : Option (List (FwdEntry τ E)) := do
  let entry ← treeEntry G fpaths v iT []
  let entries ← edstAlternates G fpaths v [iT] shortest
  some (entry :: entries)

/-- The forwarding table for edge-disjoint spanning trees; `none` where an assertion fails. -/
def edstFwdtableNormal (G : PortGraph V E) (forest : List τ) (isDefault : τ → Bool)
    (fpaths : V → τ → List ℕ) (dst : V) (args : TreeArgs) (draw : V → ℕ) :
    Option (Fwdtable V τ E) :=
  let dtrees := forest.filter isDefault
  let rtrees := forest.filter (fun iT => !isDefault iT)
  if args.accepts dtrees rtrees then
    tableOf G dst (fun v =>
      let shortest := sortTrees fpaths v (draw v) rtrees
      let startTrees := if 0 < dtrees.length then dtrees else shortest
      switchTable G fpaths v startTrees (dtrees ++ shortest) (edstEntries G fpaths v shortest))
  else none

section Build

variable {G : PortGraph V E} {fpaths : V → τ → List ℕ} {v : V}

omit [DecidableEq E] in
lemma exists_edstAlternates {rest usedTrees : List τ} (hrest : ∀ iT ∈ rest, HasHop G fpaths v iT)
    (hn : usedTrees.Nodup) :
    ∃ entries order, edstAlternates G fpaths v usedTrees rest = some entries ∧
      ListedFrom G fpaths v usedTrees order entries ∧ (usedTrees ++ order).Nodup ∧
      ∀ iT, iT ∈ usedTrees ++ order ↔ iT ∈ usedTrees ∨ iT ∈ rest := by
  induction rest generalizing usedTrees with
  | nil => exact ⟨[], [], rfl, listedFrom_nil, by simpa using hn, by simp⟩
  | cons aiT rest ih =>
    have hrest' : ∀ iT ∈ rest, HasHop G fpaths v iT :=
      fun iT hiT => hrest iT (List.mem_cons_of_mem _ hiT)
    by_cases hused : aiT ∈ usedTrees
    · obtain ⟨entries, order, hrun, hl, hnodup, hmem⟩ := ih hrest' hn
      refine ⟨entries, order, by rw [edstAlternates, if_pos hused, hrun], hl, hnodup, ?_⟩
      intro iT
      rw [hmem, List.mem_cons]
      constructor
      · exact fun h => h.imp_right .inr
      · rintro (h | rfl | h)
        · exact .inl h
        · exact .inl hused
        · exact .inr h
    · obtain ⟨entry, he, ht, hm, hh⟩ := exists_treeEntry (hrest aiT (List.mem_cons_self ..)) usedTrees
      obtain ⟨entries, order, hrun, hl, hnodup, hmem⟩ := ih hrest' (List.nodup_append.mpr
        ⟨hn, List.nodup_singleton aiT, by
          rintro a ha b hb rfl
          exact hused (List.mem_singleton.mp hb ▸ ha)⟩)
      rw [List.append_assoc, List.singleton_append] at hnodup hmem
      refine ⟨entry :: entries, aiT :: order, ?_, hl.cons ht hm hh, hnodup, ?_⟩
      · rw [edstAlternates, if_neg hused, he, hrun]
        rfl
      · intro iT
        rw [hmem, List.mem_append, List.mem_singleton, List.mem_cons, or_assoc]

omit [DecidableEq E] in
/-- The trees in the entries for `iT`: that tree first, then every other resilient tree. -/
lemma exists_edstEntries {shortest : List τ} {iT : τ} (hiT : HasHop G fpaths v iT)
    (hs : ∀ t ∈ shortest, HasHop G fpaths v t) :
    ∃ entries order, edstEntries G fpaths v shortest iT = some entries ∧
      Listed G fpaths v (iT :: order) entries ∧ (iT :: order).Nodup ∧
      ∀ t, t ∈ iT :: order ↔ t = iT ∨ t ∈ shortest := by
  obtain ⟨entry, he, ht, hm, hh⟩ := exists_treeEntry hiT []
  obtain ⟨entries, order, hrun, hl, hnodup, hmem⟩ :=
    exists_edstAlternates hs (List.nodup_singleton iT)
  refine ⟨entry :: entries, order, ?_, (hl.cons ht hm hh).listed, hnodup, ?_⟩
  · rw [edstEntries, he, hrun]
    rfl
  · intro t
    rw [← List.singleton_append, hmem, List.mem_singleton]

end Build

/-! ### The table -/

section Delivery

variable {G : PortGraph V E} {tree : τ → ITree V E} {forest : List τ} {isDefault : τ → Bool}
  {dst : V} {args : TreeArgs} {fpaths : V → τ → List ℕ}

omit [DecidableEq E] in
/-- The table is built, marks trees as every entry should, and lists for each tree that tree
and the resilient trees. -/
lemma TreeForest.edst_table (hf : TreeForest G tree forest isDefault dst args)
    (hpaths : ∀ iT ∈ forest, TreePaths G (tree iT).adj dst (fun v => fpaths v iT))
    (draw : V → ℕ) :
    ∃ table order, edstFwdtableNormal G forest isDefault fpaths dst args draw = some table ∧
      MarkingTable G tree forest dst fpaths order table ∧
      (∀ v, v ≠ dst → ∀ cur ∈ forest, ∀ t, t ∈ cur :: order v cur ↔
        t = cur ∨ t ∈ forest.filter (fun iT => !isDefault iT)) ∧
      ∀ v, ∀ entry ∈ table.entries v none, entry.ntree ∈ forest := by
  let shortest : V → List τ :=
    fun v => sortTrees fpaths v (draw v) (forest.filter (fun iT => !isDefault iT))
  have hhop : ∀ v, v ≠ dst → ∀ iT ∈ forest, HasHop G fpaths v iT :=
    fun v hv iT hiT => (hpaths iT hiT).hasHop hv
  have hshort : ∀ v, ∀ iT ∈ shortest v, iT ∈ forest :=
    fun v iT hiT => (List.mem_filter.mp (mem_sortTrees.mp hiT)).1
  have hentries : ∀ v, v ≠ dst → ∀ cur ∈ forest, ∃ entries order,
      edstEntries G fpaths v (shortest v) cur = some entries ∧
      Listed G fpaths v (cur :: order) entries ∧ (cur :: order).Nodup ∧
      ∀ t, t ∈ cur :: order ↔ t = cur ∨ t ∈ shortest v :=
    fun v hv cur hcur => exists_edstEntries (hhop v hv cur hcur)
      (fun t ht => hhop v hv t (hshort v t ht))
  choose! entries order hrun hlisted hnodup hmem using hentries
  have hforest : ∀ v, v ≠ dst → ∀ cur ∈ forest, ∀ t ∈ order v cur, t ∈ forest := by
    intro v hv cur hcur t ht
    rcases (hmem v hv cur hcur t).mp (List.mem_cons_of_mem _ ht) with rfl | h
    · exact hcur
    · exact hshort v t h
  obtain ⟨table, htable, ht, hstart⟩ := hf.exists_table hpaths draw hrun hlisted hnodup hforest
  refine ⟨table, order, ?_, ht, fun v hv cur hcur t => ?_, hstart⟩
  · rw [edstFwdtableNormal, if_pos hf.accepts]
    exact htable
  · rw [hmem v hv cur hcur, mem_sortTrees]

/-- Every tree that a packet believes to have failed has a link that is down. -/
def TrulyFailed (tree : τ → ITree V E) (failedE : Finset E) (s : TreeWalk V τ) : Prop :=
  ∀ t ∈ s.failedTrees, ∃ e ∈ (tree t).edges, e ∈ failedE

lemma steady_trulyFailed {order : V → τ → List τ} {table : Fwdtable V τ E} {failedE : Finset E}
    (src : V) {rtrees : List τ} (ht : MarkingTable G tree forest dst fpaths order table)
    (hn : rtrees.Nodup) (hr : ∀ t ∈ rtrees, t ∈ forest)
    (hmem : ∀ v, v ≠ dst → ∀ cur ∈ forest, ∀ t, t ∈ cur :: order v cur ↔ t = cur ∨ t ∈ rtrees)
    (hdis : ∀ s ∈ rtrees, ∀ t ∈ rtrees, s ≠ t → (tree s).edges.Disjoint (tree t).edges)
    (hF : failedE.card < rtrees.length) :
    Steady G forest dst fpaths order table failedE src (TrulyFailed tree failedE) := by
  have hpassed : ∀ s t, TrulyFailed tree failedE s → s.v ≠ dst → t ∈ forest →
      PassedOver G fpaths failedE s t → ∃ e ∈ (tree t).edges, e ∈ failedE := by
    rintro s t hs hv ht' (hfailed | ⟨e, he, hat⟩)
    · exact hs t hfailed
    · exact ⟨e, (ht.paths t ht').mem_edges hv hat, he⟩
  constructor
  · intro s pre s' hi hs hv _ hhop t ht'
    rw [hhop.marks, List.mem_append] at ht'
    rcases ht' with ht' | ht'
    · exact hi t ht'
    · obtain ⟨post, hsplit⟩ := hhop.split
      have hin : t ∈ s.ctree :: order s.v s.ctree := by
        rw [hsplit]
        exact List.mem_append_left _ ht'
      apply hpassed s t hi hv _ (hhop.passed t ht')
      rcases (hmem s.v hv s.ctree hs.mem t).mp hin with rfl | h
      · exact hs.mem
      · exact hr t h
  · intro s hi hs hv
    obtain ⟨t, ht', hup⟩ := exists_untouched hn hdis hF
    refine ⟨t, (hmem s.v hv s.ctree hs.mem t).mpr (.inr ht'), fun hpass => ?_⟩
    obtain ⟨e, he, hdown⟩ := hpassed s t hi hv (hr t ht') hpass
    exact hup e he hdown

/-- With fewer failures than pairwise edge-disjoint resilient trees, every packet that starts
on a start tree of its source is delivered over links that are up, and at any time only
trees with a failed link are marked. -/
theorem edst_resilient {getShortestPath : Adj V E → V → V → List E}
    (hsp : IsPathFinder getShortestPath) (hf : TreeForest G tree forest isDefault dst args)
    (hdis : ∀ s ∈ forest.filter (fun iT => !isDefault iT),
      ∀ t ∈ forest.filter (fun iT => !isDefault iT), s ≠ t →
        (tree s).edges.Disjoint (tree t).edges)
    (draw : V → ℕ) (failedE : Finset E)
    (hF : failedE.card < (forest.filter (fun iT => !isDefault iT)).length) :
    ∃ fpaths table, forestPaths G getShortestPath tree forest dst = some fpaths ∧
      edstFwdtableNormal G forest isDefault fpaths dst args draw = some table ∧
      ∀ src, ∀ start ∈ table.entries src none,
        (∃ fuel hops failExp,
          fwdtableWalkPathInternal fuel G src dst table start.ntree failedE ∅ =
            some (some hops, failExp) ∧ G.Leads failedE src hops dst) ∧
        ∀ s, Loop.Reaches (treeWalkStep G table dst failedE ∅)
          ⟨[], start.ntree, [], src, false⟩ s → TrulyFailed tree failedE s := by
  obtain ⟨fpaths, hfp, hpaths⟩ := forestPaths_spec hsp hf.valid hf.spans
  obtain ⟨table, order, htable, ht, hmem, hstart⟩ := hf.edst_table hpaths draw
  refine ⟨fpaths, table, hfp, htable, fun src start hs => ?_⟩
  have hsteady := steady_trulyFailed src ht (hf.nodup.filter _)
    (fun t ht => (List.mem_filter.mp ht).1) hmem hdis hF
  have hinit : TrulyFailed tree failedE ⟨[], start.ntree, [], src, false⟩ :=
    fun t ht => absurd ht List.not_mem_nil
  exact ⟨hsteady.delivered ht (hstart src start hs) hinit,
    fun s hr => (hsteady.reaches ht (hstart src start hs) hinit hr).1⟩

end Delivery

/-- Each link of `doubleLink` is a spanning tree. -/
def linkTree (e : Fin 2) : ITree (Fin 2) (Fin 2) := ⟨false, [(0, 1, e)]⟩

lemma treeForest_doubleLink :
    TreeForest doubleLink linkTree [0, 1] (fun _ => false) 0 ⟨0, 2⟩ where
  nodup := by decide
  valid := by
    intro iT _ ie hie
    rw [List.mem_singleton.mp hie]
    exact .inl ⟨rfl, rfl⟩
  spans := by
    intro iT _ v
    match v with
    | 0 => exact ⟨[], rfl⟩
    | 1 => exact ⟨[iT], 1, ITree.mem_adj.mpr (.inl (List.mem_singleton.mpr rfl)), rfl⟩
  accepts := rfl

theorem edst_resilient_doubleLink :
    ∃ fpaths table, forestPaths doubleLink (bfsPath [0, 1]) linkTree [0, 1] 0 = some fpaths ∧
      edstFwdtableNormal doubleLink [0, 1] (fun _ => false) fpaths 0 ⟨0, 2⟩ (fun _ => 0) =
        some table ∧
      ∀ src, ∀ start ∈ table.entries src none,
        (∃ fuel hops failExp,
          fwdtableWalkPathInternal fuel doubleLink src 0 table start.ntree {0} ∅ =
            some (some hops, failExp) ∧ doubleLink.Leads {0} src hops 0) ∧
        ∀ s, Loop.Reaches (treeWalkStep doubleLink table 0 {0} ∅)
          ⟨[], start.ntree, [], src, false⟩ s → TrulyFailed linkTree {0} s :=
  edst_resilient (isPathFinder_bfsPath (by decide)) treeForest_doubleLink
    (by unfold List.Disjoint; decide)
    (fun _ => 0) {0} (by decide)

end ResSim
