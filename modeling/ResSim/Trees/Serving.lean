import ResSim.Plinko.VertexBuild
import ResSim.Tables.Builders
import ResSim.Trees.WalkEnds

/-!
# Tables that serve a destination

What a throughput run needs of a tree table. Its entries name the links at their ports, every
walk from a start tree ends, and without failures it stays on that tree and is delivered. A walk
over links that are up enters no switch that is down, if all links of such a switch are down.
-/

namespace ResSim

variable {V E τ : Type} [DecidableEq V] [DecidableEq E] [DecidableEq τ] {G : PortGraph V E}
  {fwdtable : Fwdtable V τ E} {src dst : V} {itree : τ} {failedE : Finset E} {failedV : Finset V}
  {r : Option (List ℕ) × Bool}

/-- More steps do not change the result of a walk. -/
lemma fwdtableWalkPathInternal_mono {fuel fuel' : ℕ} (hle : fuel ≤ fuel')
    (h : fwdtableWalkPathInternal fuel G src dst fwdtable itree failedE failedV = some r) :
    fwdtableWalkPathInternal fuel' G src dst fwdtable itree failedE failedV = some r := by
  rw [fwdtableWalkPathInternal] at h ⊢
  split
  · rwa [if_pos ‹_›] at h
  · rw [if_neg ‹_›, Option.join_eq_some_iff] at h
    rw [Loop.run_mono hle h]
    rfl

/-- A packet that is dropped has met a failure. -/
lemma failExp_of_dropped {fuel : ℕ} {failExp : Bool}
    (h : fwdtableWalkPathInternal fuel G src dst fwdtable itree failedE failedV =
      some (none, failExp)) : failExp = true := by
  rw [fwdtableWalkPathInternal] at h
  split at h
  · exact (Prod.ext_iff.mp (Option.some.inj h)).2.symm
  · rw [Option.join_eq_some_iff] at h
    obtain ⟨s, -, hd⟩ := Loop.Returns.exists_last ⟨fuel, h⟩
    rw [treeWalkStep] at hd
    split at hd
    · cases hd
    · split at hd
      · cases hd
      · dsimp only at hd
        split at hd
        · cases hd
          rfl
        · split at hd
          · cases hd
          · split at hd <;> cases hd

/-! ### Without failures -/

omit [DecidableEq V] [DecidableEq E] [DecidableEq τ] in
lemma not_passedOver_empty {fpaths : V → τ → List ℕ} {hops : List ℕ} {t iT : τ} {v : V} {b : Bool} :
    ¬ PassedOver G fpaths ∅ ⟨hops, t, [], v, b⟩ iT := by
  rintro (h | ⟨e, he, -⟩)
  · exact List.not_mem_nil h
  · exact absurd he (Finset.notMem_empty e)

/-- A packet stays on a tree whose own entry comes first at every switch. -/
lemma returns_of_own (trees : τ → Prop) {adj : τ → Adj V E} {fpaths : V → τ → List ℕ}
    (hpaths : ∀ iT, trees iT → TreePaths G (adj iT) dst (fun v => fpaths v iT))
    (hown : ∀ v, v ≠ dst → ∀ cur, trees cur → ∃ order,
      Lists G fpaths v (cur :: order) (fwdtable.entries v (some cur)) ∧
      ∀ first ∈ (fwdtable.entries v (some cur)).head?, first.markFailed = [])
    {cur : τ} (hcur : trees cur) {n : ℕ} (hops : List ℕ) (v : V) (hn : (fpaths v cur).length = n) :
    ∃ hops', Loop.Returns (treeWalkStep G fwdtable dst ∅ ∅) ⟨hops, cur, [], v, false⟩
      (some (some hops', false)) := by
  induction n generalizing hops v with
  | zero =>
    by_cases hv : v = dst
    · exact ⟨hops, .of_done (treeWalkStep_dst hv)⟩
    · obtain ⟨port, ps, e, w, q, hp, -⟩ := (hpaths cur hcur).next v hv
      rw [hp, List.length_cons] at hn
      cases hn
  | succ n ih =>
    by_cases hv : v = dst
    · exact ⟨hops, .of_done (treeWalkStep_dst hv)⟩
    · obtain ⟨order, hlists, hfirst⟩ := hown v hv cur hcur
      obtain ⟨pre, entry, post, ps, w, q, heq, hpass, -, -, hp, hhop, hrun⟩ :=
        treeWalkStep_lists (s := ⟨hops, cur, [], v, false⟩) hv (Finset.notMem_empty v) hlists
          ⟨cur, List.mem_cons_self, not_passedOver_empty⟩
      -- nothing is passed over, so the entry that is taken is the first one
      have hpre : pre = [] := by
        rw [List.eq_nil_iff_forall_not_mem]
        exact fun x hx => not_passedOver_empty (hpass x.ntree (List.mem_map_of_mem hx))
      subst hpre
      dsimp only at heq hp hhop hrun
      rw [List.nil_append] at heq
      have hntree : entry.ntree = cur := by
        have htrees := hlists.trees
        rw [heq, List.map_cons, List.cons.injEq] at htrees
        exact htrees.1
      have hmark : entry.markFailed = [] := hfirst entry (by rw [heq]; rfl)
      obtain ⟨port', ps', e', w', q', hp', hhop', -, hlen⟩ := (hpaths cur hcur).next v hv
      rw [hntree, hp', List.cons.injEq] at hp
      rw [hp.1, hhop, Option.some.injEq, Prod.mk.injEq, Prod.mk.injEq] at hhop'
      rw [hp', List.length_cons, Nat.succ.injEq, ← hlen, ← hhop'.2.1] at hn
      obtain ⟨hops', hr⟩ := ih (hops ++ [entry.port]) w hn
      rw [hntree, hmark, List.append_nil] at hrun
      simp only [ne_eq, not_true_eq_false, decide_false, Bool.or_self] at hrun
      exact ⟨hops', .of_next hrun hr⟩

/-! ### Tables that are built -/

/-- Every entry names the link at its port, every walk from a start tree ends, and without
failures it is delivered. -/
structure Fwdtable.Serves (G : PortGraph V E) (fwdtable : Fwdtable V τ E) (dst : V) : Prop where
  edges : ∀ v, EdgesAtPorts G v ((fwdtable v).map Prod.snd)
  walksEnd : fwdtable.WalksEnd G dst
  delivers : ∀ v, ∀ start ∈ fwdtable.entries v none, ∃ fuel hops,
    fwdtableWalkPathInternal fuel G v dst fwdtable start.ntree ∅ ∅ = some (some hops, false)

lemma MarkingTable.serves {tree : τ → ITree V E} {forest : List τ} {fpaths : V → τ → List ℕ}
    {order : V → τ → List τ} (ht : MarkingTable G tree forest dst fpaths order fwdtable)
    (hstart : ∀ v, ∀ entry ∈ fwdtable.entries v none, entry.ntree ∈ forest)
    (hedges : ∀ v, EdgesAtPorts G v ((fwdtable v).map Prod.snd)) : fwdtable.Serves G dst where
  edges := hedges
  walksEnd := ht.walksEnd hstart
  delivers v start hs := by
    obtain ⟨hops, fuel, hrun⟩ := returns_of_own (· ∈ forest) ht.paths
      (fun w hw cur hcur => ⟨order w cur, (ht.listed w hw cur hcur).toLists, fun first hfirst => by
        obtain ⟨post, heq⟩ := List.head?_eq_some_iff.mp hfirst
        exact (ht.listed w hw cur hcur).marks [] first post heq⟩)
      (hstart v start hs) [] v rfl
    refine ⟨fuel, hops, ?_⟩
    rw [fwdtableWalkPathInternal, if_neg (Finset.notMem_empty v), hrun]
    rfl

lemma DfrTable.serves {tree : ℕ → ITree V E} {n : ℕ} {fpaths : V → ℕ → List ℕ} {ttg : Ttg}
    {layers : List (List ℕ)} {layersAt : V → List (List ℕ)} {table : Fwdtable V ℕ E}
    (ht : DfrTable G fpaths ttg dst layers layersAt table) (hlay : IsLayering n layers)
    (hdag : isDag ttg.es = true)
    (hpaths : ∀ iT < n, TreePaths G (tree iT).adj dst (fun v => fpaths v iT))
    (hedges : ∀ v, EdgesAtPorts G v ((table v).map Prod.snd)) : table.Serves G dst where
  edges := hedges
  walksEnd := ht.walksEnd hlay hdag hpaths
  delivers v start hs := by
    have hmem : start.ntree ∈ layers.flatten := by
      by_cases hv : v = dst
      · rw [hv, ht.dst_nil] at hs
        cases hs
      · exact mem_flatten_of_mem_headD ((ht.start v hv).mem_iff.mp (List.mem_map_of_mem hs))
    obtain ⟨hops, fuel, hrun⟩ := returns_of_own (· ∈ layers.flatten)
      (fun iT hiT => hpaths iT (hlay.lt iT hiT))
      (fun w hw cur hcur => ⟨_, ht.lists w hw cur hcur, fun first hfirst =>
        ht.unmarked w hw cur hcur first (List.mem_of_mem_head? hfirst)⟩) hmem [] v rfl
    refine ⟨fuel, hops, ?_⟩
    rw [fwdtableWalkPathInternal, if_neg (Finset.notMem_empty v), hrun]
    rfl

lemma BuiltTable.serves {getShortestPath : Adj V E → V → V → List E}
    (hsp : IsPathFinder getShortestPath) {table : Fwdtable V ℕ E}
    (h : BuiltTable G getShortestPath dst table) : table.Serves G dst := by
  cases h with
  | edstNormal hn hvalid hspans hfp hbuilt =>
    obtain ⟨_, hfp', hpaths⟩ := forestPaths_spec hsp hvalid hspans
    obtain rfl := Option.some.inj (hfp.symm.trans hfp')
    obtain ⟨_, _, htable, ht, -, hstart⟩ := (TreeForest.mk hn hvalid hspans
      (Option.ite_none_right_eq_some.mp hbuilt).1).edst_table hpaths _
    obtain rfl := Option.some.inj (hbuilt.symm.trans htable)
    exact ht.serves hstart (edstFwdtableNormal_edges hbuilt)
  | adst hn hvalid hspans hfp hbuilt =>
    obtain ⟨_, hfp', hpaths⟩ := forestPaths_spec hsp hvalid hspans
    obtain rfl := Option.some.inj (hfp.symm.trans hfp')
    obtain ⟨haccepts, harcs⟩ := (Option.ite_none_right_eq_some.mp hbuilt).1
    obtain ⟨_, _, htable, ht, -, -, hstart⟩ :=
      (TreeForest.mk hn hvalid hspans haccepts).adst_table harcs hpaths _
    obtain rfl := Option.some.inj (hbuilt.symm.trans htable)
    exact ht.serves hstart (adstFwdtable_edges hbuilt)
  | @edstDfr tree n _ _ _ _ _ _ _ _ hvalid hspans hc hperm hfp hbuilt =>
    obtain ⟨_, hfp', hpaths⟩ := forestPaths_spec hsp
      (fun iT hiT => hvalid iT (List.mem_range.mp hiT))
      (fun iT hiT => hspans iT (List.mem_range.mp hiT))
    obtain rfl := Option.some.inj (hfp.symm.trans hfp')
    have hpaths' : ∀ iT < n, TreePaths G (tree iT).adj dst (fun v => _) :=
      fun iT hiT => hpaths iT (List.mem_range.mpr hiT)
    obtain ⟨layers, hlayers, -⟩ := Option.bind_eq_some_iff.mp hbuilt
    obtain ⟨-, hdag, -⟩ := dfrLayers_cases hlayers
    obtain ⟨_, _, _, htable, ht⟩ := exists_dfrTable tree _ hperm hc hlayers hpaths'
    obtain ⟨rfl, -⟩ := Prod.ext_iff.mp (Option.some.inj (hbuilt.symm.trans htable))
    exact ht.serves (dfrLayers_isLayering hc hlayers) hdag hpaths' (edstFwdtableDfr_edges hbuilt)

/-! ### Switches that are down -/

/-- A walk over links that are up does not see that switches are down. -/
lemma lockstep_failedV (hedges : ∀ v, EdgesAtPorts G v ((fwdtable v).map Prod.snd))
    (hdown : touchedE G failedV ⊆ failedE) :
    Loop.Lockstep (treeWalkStep G fwdtable dst failedE ∅)
      (treeWalkStep G fwdtable dst failedE failedV)
      (fun s t => s = t ∧ s.v ∉ failedV) id := by
  rintro s _ ⟨rfl, hv⟩
  by_cases hdst : s.v = dst
  · exact .inl ⟨_, treeWalkStep_dst hdst, treeWalkStep_dst hdst⟩
  rw [treeWalkStep, treeWalkStep, if_neg hdst, if_neg hdst, if_neg (Finset.notMem_empty s.v),
    if_neg hv]
  dsimp only
  cases hfind : (fwdtable.entries s.v (some s.ctree)).find? (fun entry =>
      entry.ntree ∉ s.failedTrees ∧ entry.ue ∉ localFailedE G failedE s.v) with
  | none => exact .inl ⟨_, rfl, rfl⟩
  | some entry =>
    dsimp only
    by_cases hup : entry.ue ∈ failedE
    · rw [if_pos hup]
      exact .inl ⟨_, rfl, rfl⟩
    · rw [if_neg hup]
      cases hport : G.ports s.v entry.port with
      | none => exact .inl ⟨_, rfl, rfl⟩
      | some nv =>
        refine .inr ⟨_, _, rfl, rfl, rfl, fun hnv => hup (hdown ?_)⟩
        -- the next switch is at the other end of the link
        have hedge : G.edges s.v entry.port = some entry.ue := by
          obtain ⟨x, hx, hxe⟩ := List.mem_filterMap.mp (List.mem_of_find?_eq_some hfind)
          obtain ⟨-, hxe⟩ := Option.ite_none_right_eq_some.mp hxe
          exact hedges s.v entry (List.mem_map.mpr ⟨x, hx, Option.some.inj hxe⟩)
        obtain ⟨w, q, hhop⟩ := PortGraph.exists_hop_of_edges hedge
        rw [PortGraph.ports_of_hop hhop, Option.some.injEq] at hport
        rw [mem_touchedE_of_hop hhop]
        exact .inr (hport ▸ hnv)

/-- A walk from a start tree is delivered over links that are up, or dropped after it has met a
failure. -/
lemma Fwdtable.Serves.walk (h : fwdtable.Serves G dst) (hdown : touchedE G failedV ⊆ failedE)
    {start : FwdEntry τ E} (hs : start ∈ fwdtable.entries src none) :
    ∃ fuel result failExp, fwdtableWalkPathInternal fuel G src dst fwdtable start.ntree failedE
        failedV = some (result, failExp) ∧ (result = none → failExp = true) ∧
      ∀ hops, result = some hops → src ∉ failedV ∧ G.Leads failedE src hops dst := by
  by_cases hsrc : src ∈ failedV
  · exact ⟨0, none, true, if_pos hsrc, fun _ => rfl, fun _ h => nomatch h⟩
  · obtain ⟨⟨fuel, result, failExp, hrun, hleads⟩, -⟩ := h.walksEnd failedE src start hs
    have hsame : fwdtableWalkPathInternal fuel G src dst fwdtable start.ntree failedE failedV =
        some (result, failExp) := by
      rw [fwdtableWalkPathInternal, if_neg (Finset.notMem_empty src)] at hrun
      rw [fwdtableWalkPathInternal, if_neg hsrc,
        (lockstep_failedV h.edges hdown).run_eq ⟨rfl, hsrc⟩, Option.map_id]
      exact hrun
    refine ⟨fuel, result, failExp, hsame, ?_, fun hops hr => ⟨hsrc, hleads hops hr⟩⟩
    rintro rfl
    exact failExp_of_dropped hsame

end ResSim
