import ResSim.Trees.Adst
import ResSim.Trees.DfrResilience

/-!
# Walks end

However many links fail, a packet makes only finitely many hops. It is delivered over links
that are up or dropped at a switch, no assertion of the walk fails, and a tree that it left is
never used again. In two of the tables it is the marks in the header that rule the tree out,
in the third it is the transition graph.
-/

namespace ResSim

variable {V E τ : Type} [DecidableEq V] [DecidableEq E] [DecidableEq τ]

/-- A packet that is on another tree later is not back on this one after that. -/
def NeverReturns (body : TreeWalk V τ → Step (TreeWalk V τ) (Option (Option (List ℕ) × Bool)))
    (start : TreeWalk V τ) : Prop :=
  ∀ s₁ s₂ s₃, Loop.Reaches body start s₁ → Loop.Reaches body s₁ s₂ → Loop.Reaches body s₂ s₃ →
    s₂.ctree ≠ s₁.ctree → s₃.ctree ≠ s₁.ctree

/-- Every packet that starts on a tree of its source's start entry gets a result, the hops of
a result lead to the destination over links that are up, and trees are left for good. -/
def Fwdtable.WalksEnd (G : PortGraph V E) (fwdtable : Fwdtable V τ E) (dst : V) : Prop :=
  ∀ (failedE : Finset E) (src : V), ∀ start ∈ fwdtable.entries src none,
    (∃ fuel result failExp, fwdtableWalkPathInternal fuel G src dst fwdtable start.ntree failedE
        ∅ = some (result, failExp) ∧
      ∀ hops, result = some hops → G.Leads failedE src hops dst) ∧
    NeverReturns (treeWalkStep G fwdtable dst failedE ∅) ⟨[], start.ntree, [], src, false⟩

/-- An invariant of the packets under which every hop descends and rules out the trees that
were left. -/
structure Descends (G : PortGraph V E) (fwdtable : Fwdtable V τ E) (dst src : V)
    (failedE : Finset E) (Inv : TreeWalk V τ → Prop) (RuledOut : TreeWalk V τ → τ → Prop)
    (work : TreeWalk V τ → ℕ × ℕ) : Prop where
  leads : ∀ s, Inv s → G.Leads failedE src s.hops s.v
  current : ∀ s, Inv s → ¬ RuledOut s s.ctree
  hop : ∀ s, Inv s → s.v ≠ dst →
    treeWalkStep G fwdtable dst failedE ∅ s = .done (some (none, true)) ∨
    ∃ s', treeWalkStep G fwdtable dst failedE ∅ s = .next s' ∧ Inv s' ∧
      Prod.Lex (· < ·) (· < ·) (work s') (work s) ∧
      (∀ t, RuledOut s t → RuledOut s' t) ∧ (s'.ctree ≠ s.ctree → RuledOut s' s.ctree)

namespace Descends

variable {G : PortGraph V E} {fwdtable : Fwdtable V τ E} {dst src : V} {failedE : Finset E}
  {Inv : TreeWalk V τ → Prop} {RuledOut : TreeWalk V τ → τ → Prop}
  {work : TreeWalk V τ → ℕ × ℕ} {s s' : TreeWalk V τ}

lemma next (h : Descends G fwdtable dst src failedE Inv RuledOut work) (hs : Inv s)
    (hn : treeWalkStep G fwdtable dst failedE ∅ s = .next s') :
    Inv s' ∧ (∀ t, RuledOut s t → RuledOut s' t) ∧
      (s'.ctree ≠ s.ctree → RuledOut s' s.ctree) := by
  by_cases hv : s.v = dst
  · rw [treeWalkStep_dst hv] at hn
    cases hn
  · rcases h.hop s hs hv with hd | ⟨s₁, hn', hs₁, _, hkeep, hleft⟩
    · rw [hn] at hd
      cases hd
    · rw [hn, Step.next.injEq] at hn'
      subst hn'
      exact ⟨hs₁, hkeep, hleft⟩

lemma reaches (h : Descends G fwdtable dst src failedE Inv RuledOut work) (hs : Inv s)
    (hr : Loop.Reaches (treeWalkStep G fwdtable dst failedE ∅) s s') :
    Inv s' ∧ (∀ t, RuledOut s t → RuledOut s' t) ∧
      (s'.ctree ≠ s.ctree → RuledOut s' s.ctree) := by
  induction hr with
  | refl => exact ⟨hs, fun _ ht => ht, fun hne => absurd rfl hne⟩
  | @tail s₁ s₂ _ hn ih =>
    obtain ⟨hs₁, hkeep, hleft⟩ := ih
    obtain ⟨hs₂, hkeep', hleft'⟩ := h.next hs₁ hn
    refine ⟨hs₂, fun t ht => hkeep' t (hkeep t ht), fun hne => ?_⟩
    by_cases hcur : s₁.ctree = s.ctree
    · rw [← hcur] at hne ⊢
      exact hleft' hne
    · exact hkeep' _ (hleft hcur)

lemma neverReturns (h : Descends G fwdtable dst src failedE Inv RuledOut work) (hs : Inv s) :
    NeverReturns (treeWalkStep G fwdtable dst failedE ∅) s := by
  intro s₁ s₂ s₃ h₁ h₂ h₃ hne heq
  have hs₁ := (h.reaches hs h₁).1
  obtain ⟨hs₂, _, hleft⟩ := h.reaches hs₁ h₂
  obtain ⟨hs₃, hkeep, _⟩ := h.reaches hs₂ h₃
  apply h.current s₃ hs₃
  rw [heq]
  exact hkeep _ (hleft hne)

lemma ends (h : Descends G fwdtable dst src failedE Inv RuledOut work) {itree : τ}
    (hs : Inv ⟨[], itree, [], src, false⟩) :
    ∃ fuel result failExp, fwdtableWalkPathInternal fuel G src dst fwdtable itree failedE ∅ =
        some (result, failExp) ∧
      ∀ hops, result = some hops → G.Leads failedE src hops dst := by
  let Post : Option (Option (List ℕ) × Bool) → Prop := fun r =>
    ∃ result failExp, r = some (result, failExp) ∧
      ∀ hops, result = some hops → G.Leads failedE src hops dst
  have hbody : ∀ s, Inv s →
      (∃ r, treeWalkStep G fwdtable dst failedE ∅ s = .done r ∧ Post r) ∨
      ∃ s', treeWalkStep G fwdtable dst failedE ∅ s = .next s' ∧ Inv s' ∧
        Prod.Lex (· < ·) (· < ·) (work s') (work s) := by
    intro s hs
    by_cases hv : s.v = dst
    · refine .inl ⟨_, treeWalkStep_dst hv, some s.hops, s.failExp, rfl, ?_⟩
      rintro hops ⟨⟩
      exact hv ▸ h.leads s hs
    · rcases h.hop s hs hv with hd | ⟨s', hn, hs', hlt, _⟩
      · exact .inl ⟨_, hd, none, true, rfl, by simp⟩
      · exact .inr ⟨s', hn, hs', hlt⟩
  obtain ⟨r, ⟨fuel, hfuel⟩, result, failExp, rfl, hleads⟩ := Loop.returns_of_wellFounded
    (InvImage.wf work (WellFounded.prod_lex Nat.lt_wfRel.wf Nat.lt_wfRel.wf)) Inv Post hbody hs
  refine ⟨fuel, result, failExp, ?_, hleads⟩
  rw [fwdtableWalkPathInternal, if_neg (Finset.notMem_empty _), hfuel]
  rfl

end Descends

/-! ### Tables that mark trees -/

section Marking

variable {G : PortGraph V E} {tree : τ → ITree V E} {forest : List τ} {dst : V}
  {fpaths : V → τ → List ℕ} {order : V → τ → List τ} {fwdtable : Fwdtable V τ E}

lemma MarkingTable.descends (ht : MarkingTable G tree forest dst fpaths order fwdtable)
    (failedE : Finset E) (src : V) :
    Descends G fwdtable dst src failedE (OnTree G forest failedE src)
      (fun s t => t ∈ s.failedTrees) (treeWork forest fpaths) where
  leads s hs := hs.leads
  current s hs := hs.notFailed
  hop s hs hv := by
    by_cases hex : ∃ iT ∈ s.ctree :: order s.v s.ctree, ¬ PassedOver G fpaths failedE s iT
    · obtain ⟨s', pre, hrun, hhop⟩ := hs.exists_hop ht hv hex
      refine .inr ⟨s', hrun, hhop.onTree ht hv hs, hhop.work_lt ht hv hs, ?_, fun hne => ?_⟩
      · intro t ht
        rw [hhop.marks]
        exact List.mem_append_left _ ht
      · -- the packet's own tree stands first, so it is before the tree that is taken
        obtain ⟨post, hsplit⟩ := hhop.split
        rw [hhop.marks]
        apply List.mem_append_right
        cases pre with
        | nil => exact absurd (List.cons.inj hsplit).1.symm hne
        | cons t pre =>
          rw [(List.cons.inj hsplit).1]
          exact List.mem_cons_self ..
    · left
      apply treeWalkStep_dropped hv (Finset.notMem_empty _)
        (ht.listed s.v hv s.ctree hs.mem).toLists
      simpa using hex

lemma MarkingTable.walksEnd (ht : MarkingTable G tree forest dst fpaths order fwdtable)
    (hstart : ∀ v, ∀ entry ∈ fwdtable.entries v none, entry.ntree ∈ forest) :
    fwdtable.WalksEnd G dst := by
  intro failedE src start hs
  have hinit : OnTree G forest failedE src ⟨[], start.ntree, [], src, false⟩ :=
    onTree_start (hstart src start hs)
  exact ⟨(ht.descends failedE src).ends hinit, (ht.descends failedE src).neverReturns hinit⟩

end Marking

/-! ### Tables that follow a transition graph -/

section Layers

variable {G : PortGraph V E} {tree : ℕ → ITree V E} {n : ℕ} {fpaths : V → ℕ → List ℕ} {ttg : Ttg}
  {dst : V} {layers : List (List ℕ)} {layersAt : V → List (List ℕ)} {table : Fwdtable V ℕ E}

/-- The trees before the packet's own in the transition graph are ruled out. -/
lemma DfrTable.descends (ht : DfrTable G fpaths ttg dst layers layersAt table)
    (hlay : IsLayering n layers) (hdag : isDag ttg.es = true)
    (hpaths : ∀ iT < n, TreePaths G (tree iT).adj dst (fun v => fpaths v iT))
    (failedE : Finset E) (src : V) :
    Descends G table dst src failedE (OnLayers G layers failedE src)
      (fun s t => t ≠ s.ctree ∧ ttg.reach t s.ctree = true) (layerWork ttg layers fpaths) where
  leads s hs := hs.leads
  current s _ := fun h => h.1 rfl
  hop s hs hv := by
    by_cases hex : ∃ iT ∈ s.ctree :: dfrSuccessors ttg (layersAt s.v) s.ctree,
        ¬ PassedOver G fpaths failedE s iT
    · obtain ⟨s', pre, post, hrun, hs', _, _, hreach, hlt⟩ :=
        hs.hop ht hlay hdag hpaths hv hex
      refine .inr ⟨s', hrun, hs', hlt, fun t ⟨hne, hts⟩ => ?_,
        fun hne => ⟨hne.symm, hreach hne⟩⟩
      by_cases hcur : s'.ctree = s.ctree
      · rw [hcur]
        exact ⟨hne, hts⟩
      · have hst := reach_iff.mp (hreach hcur)
        have hts := reach_iff.mp hts
        refine ⟨?_, reach_iff.mpr (hts.trans hst)⟩
        rintro rfl
        exact hne ((isDag_iff.mp hdag).antisymm hts hst)
    · left
      apply treeWalkStep_dropped hv (Finset.notMem_empty _) (ht.lists s.v hv s.ctree hs.mem)
      simpa using hex

lemma DfrTable.walksEnd (ht : DfrTable G fpaths ttg dst layers layersAt table)
    (hlay : IsLayering n layers) (hdag : isDag ttg.es = true)
    (hpaths : ∀ iT < n, TreePaths G (tree iT).adj dst (fun v => fpaths v iT)) :
    table.WalksEnd G dst := by
  intro failedE src start hs
  have hmem : start.ntree ∈ layers.flatten := by
    by_cases hv : src = dst
    · rw [hv, ht.dst_nil] at hs
      cases hs
    · apply mem_flatten_of_mem_headD
      rw [← (ht.start src hv).mem_iff]
      exact List.mem_map_of_mem hs
  have hdesc := ht.descends hlay hdag hpaths failedE src
  exact ⟨hdesc.ends (onLayers_start hmem), hdesc.neverReturns (onLayers_start hmem)⟩

end Layers

/-! ### All tables -/

/-- The tables that are built over spanning trees. -/
inductive BuiltTable (G : PortGraph V E) (getShortestPath : Adj V E → V → V → List E) (dst : V) :
    Fwdtable V ℕ E → Prop where
  | edstNormal {tree : ℕ → ITree V E} {forest : List ℕ} {isDefault : ℕ → Bool} {args : TreeArgs}
      {draw : V → ℕ} {fpaths : V → ℕ → List ℕ} {table : Fwdtable V ℕ E} (nodup : forest.Nodup)
      (valid : ∀ iT ∈ forest, (tree iT).Valid G) (spans : ∀ iT ∈ forest, (tree iT).Spans dst)
      (paths : forestPaths G getShortestPath tree forest dst = some fpaths)
      (built : edstFwdtableNormal G forest isDefault fpaths dst args draw = some table) :
      BuiltTable G getShortestPath dst table
  | adst {tree : ℕ → ITree V E} {forest : List ℕ} {isDefault : ℕ → Bool} {args : TreeArgs}
      {draw : V → ℕ} {fpaths : V → ℕ → List ℕ} {table : Fwdtable V ℕ E} (nodup : forest.Nodup)
      (valid : ∀ iT ∈ forest, (tree iT).Valid G) (spans : ∀ iT ∈ forest, (tree iT).Spans dst)
      (paths : forestPaths G getShortestPath tree forest dst = some fpaths)
      (built : adstFwdtable G tree forest isDefault fpaths dst args draw = some table) :
      BuiltTable G getShortestPath dst table
  | edstDfr {tree : ℕ → ITree V E} {n : ℕ} {sort : (ℕ → ℕ → Ordering) → List ℕ → List ℕ}
      {ttg : Ttg} {args : DfrArgs} {draws : ℕ → ℕ} {draw : V → ℕ → ℕ} {fpaths : V → ℕ → List ℕ}
      {table : Fwdtable V ℕ E} {nopkthdr : V → List (Option E × FwdEntry ℕ E)}
      (valid : ∀ iT < n, (tree iT).Valid G) (spans : ∀ iT < n, (tree iT).Spans dst)
      (closed : ttg.Closed) (perm : ∀ cmp l, (sort cmp l).Perm l)
      (paths : forestPaths G getShortestPath tree (List.range n) dst = some fpaths)
      (built : edstFwdtableDfr G tree n getShortestPath sort fpaths ttg dst args draws draw =
        some (table, nopkthdr)) :
      BuiltTable G getShortestPath dst table

/-- On every table that is built over spanning trees, however many links fail, every walk
ends without a failed assertion, its hops are a path that is up, and trees are left for good.
For the third table the transition graph is acyclic, or an assertion stops its construction. -/
theorem builtTable_walksEnd {G : PortGraph V E} {getShortestPath : Adj V E → V → V → List E}
    (hsp : IsPathFinder getShortestPath) {dst : V} {table : Fwdtable V ℕ E}
    (h : BuiltTable G getShortestPath dst table) : table.WalksEnd G dst := by
  cases h with
  | edstNormal hn hvalid hspans hfp hbuilt =>
    obtain ⟨_, hfp', hpaths⟩ := forestPaths_spec hsp hvalid hspans
    obtain rfl := Option.some.inj (hfp.symm.trans hfp')
    have haccepts := (Option.ite_none_right_eq_some.mp hbuilt).1
    obtain ⟨_, _, htable, ht, _, hstart⟩ :=
      (TreeForest.mk hn hvalid hspans haccepts).edst_table hpaths _
    obtain rfl := Option.some.inj (hbuilt.symm.trans htable)
    exact ht.walksEnd hstart
  | adst hn hvalid hspans hfp hbuilt =>
    obtain ⟨_, hfp', hpaths⟩ := forestPaths_spec hsp hvalid hspans
    obtain rfl := Option.some.inj (hfp.symm.trans hfp')
    obtain ⟨haccepts, harcs⟩ := (Option.ite_none_right_eq_some.mp hbuilt).1
    obtain ⟨_, _, htable, ht, _, _, hstart⟩ :=
      (TreeForest.mk hn hvalid hspans haccepts).adst_table harcs hpaths _
    obtain rfl := Option.some.inj (hbuilt.symm.trans htable)
    exact ht.walksEnd hstart
  | @edstDfr tree n _ _ _ _ _ _ _ _ hvalid hspans hc hperm hfp hbuilt =>
    obtain ⟨_, hfp', hpaths⟩ := forestPaths_spec hsp
      (fun iT hiT => hvalid iT (List.mem_range.mp hiT))
      (fun iT hiT => hspans iT (List.mem_range.mp hiT))
    obtain rfl := Option.some.inj (hfp.symm.trans hfp')
    have hpaths' : ∀ iT < n, TreePaths G (tree iT).adj dst (fun v => _) :=
      fun iT hiT => hpaths iT (List.mem_range.mpr hiT)
    obtain ⟨layers, hlayers, _⟩ := Option.bind_eq_some_iff.mp hbuilt
    obtain ⟨_, hdag, _⟩ := dfrLayers_cases hlayers
    obtain ⟨_, _, _, htable, ht⟩ := exists_dfrTable tree _ hperm hc hlayers hpaths'
    obtain ⟨rfl, _⟩ := Prod.ext_iff.mp (Option.some.inj (hbuilt.symm.trans htable))
    exact ht.walksEnd (dfrLayers_isLayering hc hlayers) hdag hpaths'

theorem builtTable_walksEnd_pair : (pairDfr 0).1.WalksEnd doubleLink 0 :=
  builtTable_walksEnd (isPathFinder_bfsPath (show ∀ v : Fin 2, v ∈ [0, 1] by decide))
    (.edstDfr (fun T _ => (isSpanningTree_pairTree T).valid)
      (fun T _ => (isSpanningTree_pairTree T).spans 0)
      (show pairTtg.Closed by unfold Ttg.Closed; decide) insertSort_perm
      (show _ = some (pairPaths 0) from eq_some_getD _ (by decide +kernel))
      (show _ = some (pairDfr 0) from eq_some_getD _ (by decide +kernel)))

end ResSim
