import ResSim.Plinko.VertexSearch

/-!
# Rounds against failed switches

Every link that a round fails reveals a switch that the path did not know to have failed: the
one behind the link. So after as many rounds as there are failed switches the paths know them
all. A hop needs a backup if some failed switches that the packet did not visit leave a way to
the destination.
-/

namespace ResSim

variable {V E : Type} [DecidableEq V] {G : PortGraph V E}

/-- The way back `rp` from `u` comes by the switch `n`. -/
def OnWayBack (G : PortGraph V E) (u : V) (rp : List ℕ) (n : V) : Prop :=
  ∃ pre post r, rp = pre ++ post ∧ reversePath G u pre = some (n, r)

variable {u v w n dst : V} {rp rp' r r' : List ℕ} {e : E} {D : Finset E} {K W : Finset V}

lemma onWayBack_self : OnWayBack G u rp u := ⟨[], rp, [], rfl, rfl⟩

lemma OnWayBack.append (hr : reversePath G u r = some (v, r')) (h : OnWayBack G v rp n) :
    OnWayBack G u (r ++ rp) n := by
  obtain ⟨pre, post, r₁, rfl, hpre⟩ := h
  exact ⟨r ++ pre, post, r₁ ++ r', (List.append_assoc ..).symm,
    reversePath_append.mpr ⟨v, r', r₁, hr, hpre, rfl⟩⟩

lemma OnWayBack.of_append (hr : reversePath G u r = some (v, r'))
    (h : OnWayBack G u (r ++ rp) n) : OnWayBack G u r n ∨ OnWayBack G v rp n := by
  obtain ⟨pre, post, r₁, heq, hpre⟩ := h
  rcases List.append_eq_append_iff.mp heq with ⟨mid, rfl, rfl⟩ | ⟨mid, rfl, rfl⟩
  · obtain ⟨x, r₂, r₃, h₁, h₂, _⟩ := reversePath_append.mp hpre
    rw [hr, Option.some.injEq, Prod.mk.injEq] at h₁
    obtain ⟨rfl, _⟩ := h₁
    exact .inr ⟨mid, post, r₃, rfl, h₂⟩
  · exact .inl ⟨pre, mid, r₁, rfl, hpre⟩

variable [DecidableEq E] {T : Set (Path G)} {x : Place G} {P : Path G} {N : VPath G}

/-- The switches `K` are behind failed links of switches that the packet visited. -/
def Revealed (G : PortGraph V E) (u : V) (rp : List ℕ) (D : Finset E) (K : Finset V) : Prop :=
  ∀ w ∈ K, ∃ f ∈ D, ∃ n p q, OnWayBack G u rp n ∧ G.hop n p = some (f, w, q)

lemma Revealed.subset (h : Revealed G u rp D K) (hD : D ⊆ touchedE G W)
    (hvisited : ∀ n, OnWayBack G u rp n → n ∉ W) : K ⊆ W := by
  intro w hw
  obtain ⟨f, hf, n, p, q, hn, hhop⟩ := h w hw
  exact ((mem_touchedE_of_hop hhop).mp (hD hf)).resolve_left (hvisited n hn)

/-- Packets at `u` with the way back `rp` have learned the failed links `D`, which are links of
the switches `K`, at least one for each. -/
structure Knows (G : PortGraph V E) (u : V) (rp : List ℕ) (D : Finset E) (K : Finset V) :
    Prop where
  start : u ∉ K
  cover : D ⊆ touchedE G K
  revealed : Revealed G u rp D K
  card_le : D.card ≤ K.card

/-- A path that enters none of the switches that its packets know to have failed. -/
structure KnowsSwitches (P : Path G) (K : Finset V) : Prop
    extends Knows G P.v P.extraRPath P.failedE K where
  leads : G.Leads (touchedE G K) P.v P.fullPath P.rv

lemma IsVBranch.knowsSwitches (hN : IsVBranch dst u D K rp N) (h : Knows G u rp D K) :
    KnowsSwitches N.toPath N.failedV := by
  rw [hN.failedV_eq]
  refine ⟨?_, ?_⟩
  · rw [hN.branch.v_eq, hN.branch.extra_eq, hN.branch.failedE_eq]
    exact h
  · rw [hN.branch.v_eq, hN.branch.rv_eq]
    exact hN.leads

lemma knowsSwitches_first (hP : IsBranch dst P.v ∅ [] P) : KnowsSwitches P ∅ := by
  have hl := P.leads
  have htouched : touchedE G (∅ : Finset V) = ∅ := by
    apply Finset.eq_empty_of_forall_notMem
    intro e he
    obtain ⟨w, hw, _⟩ := mem_touchedE.mp he
    exact Finset.notMem_empty w hw
  refine ⟨⟨Finset.notMem_empty _, ?_, fun w hw => absurd hw (Finset.notMem_empty w), ?_⟩, ?_⟩
  · rw [hP.failedE_eq]
    exact Finset.empty_subset _
  · rw [hP.failedE_eq, Finset.card_empty]
    exact Nat.zero_le _
  · rw [hP.failedE_eq] at hl
    rw [htouched]
    exact hl

/-- Up to a hop and over it, a path enters no switch that it knows to have failed. -/
lemma KnowsSwitches.not_mem (h : KnowsSwitches x.branch K) (hx : x.At T u rp e) :
    u ∉ K ∧ e ∉ touchedE G K := by
  obtain ⟨r, hr, _⟩ := hx.back
  have hl := h.leads
  rw [hx.split] at hl
  obtain ⟨u', hpre, hrest⟩ := leads_append.mp hl
  obtain ⟨r', _, hr', _⟩ := leads_iff.mp hpre
  rw [hr, Option.some.injEq, Prod.mk.injEq] at hr'
  obtain ⟨rfl, _⟩ := hr'
  obtain ⟨f, w, q, hhop, hf, _⟩ := hrest
  have hfe : f = e := Option.some.inj ((PortGraph.edges_of_hop hhop).symm.trans hx.edge)
  subst hfe
  rw [mem_touchedE_of_hop hhop, not_or] at hf
  exact ⟨hf.1, fun hin => ((mem_touchedE_of_hop hhop).mp hin).elim hf.1 hf.2⟩

lemma KnowsSwitches.next (h : KnowsSwitches x.branch K) (hx : x.At T u rp e) :
    Knows G u rp (insert e x.branch.failedE)
      (K ∪ localFailedV G (insert e x.branch.failedE) u) := by
  obtain ⟨hu, he⟩ := h.not_mem hx
  obtain ⟨w, q, hhop⟩ := PortGraph.exists_hop_of_edges hx.edge
  have hw : w ∈ localFailedV G (insert e x.branch.failedE) u :=
    mem_localFailedV.mpr ⟨x.hop, e, q, hhop, Finset.mem_insert_self ..⟩
  have hwK : w ∉ K := fun hin => he ((mem_touchedE_of_hop hhop).mpr (.inr hin))
  refine ⟨fun hin => ?_, ?_, ?_, ?_⟩
  · rcases Finset.mem_union.mp hin with hin | hin
    · exact hu hin
    · obtain ⟨p, f, q', hhop', _⟩ := mem_localFailedV.mp hin
      exact PortGraph.hop_ne hhop' rfl
  · apply Finset.insert_subset
    · exact (mem_touchedE_of_hop hhop).mpr (.inr (Finset.mem_union_right _ hw))
    · exact h.cover.trans (touchedE_mono Finset.subset_union_left)
  · intro w' hw'
    rcases Finset.mem_union.mp hw' with hin | hin
    · obtain ⟨f, hf, n, p, q', hn, hhop'⟩ := h.revealed w' hin
      obtain ⟨r, hr, rfl⟩ := hx.back
      exact ⟨f, Finset.mem_insert_of_mem hf, n, p, q', hn.append (reversePath_reverse hr), hhop'⟩
    · obtain ⟨p, f, q', hhop', hf⟩ := mem_localFailedV.mp hin
      exact ⟨f, hf, u, p, q', onWayBack_self, hhop'⟩
  · have hsub : insert w K ⊆ K ∪ localFailedV G (insert e x.branch.failedE) u :=
      Finset.insert_subset (Finset.mem_union_right _ hw) Finset.subset_union_left
    have hcard := Finset.card_le_card hsub
    rw [Finset.card_insert_of_notMem hwK] at hcard
    rw [Finset.card_insert_of_notMem hx.not_mem_failedE]
    exact (Nat.succ_le_succ h.card_le).trans hcard

/-- A hop that needs a backup when its link is down: for some failed switches that the packet
did not visit, it is not cut off. -/
def AliveV (dst : V) (x : Place G) (u : V) (rp : List ℕ) (e : E) : Prop :=
  ∃ W : Finset V, dst ∉ W ∧ (∀ n, OnWayBack G u rp n → n ∉ W) ∧
    insert e x.branch.failedE ⊆ touchedE G W ∧ u ≠ dst ∧
      ∃ p, EdgeWalk (upAdj G (touchedE G W)) u p dst

lemma Knows.not_aliveV (h : Knows G u rp (insert e x.branch.failedE) K)
    (hcut : u ≠ dst → dst ∉ K → ¬ ∃ p, EdgeWalk (upAdj G (touchedE G K)) u p dst) :
    ¬ AliveV dst x u rp e := by
  rintro ⟨W, hd, hvisited, hD, hu, p, hp⟩
  have hK : K ⊆ W := h.revealed.subset hD hvisited
  exact hcut hu (fun hin => hd (hK hin)) ⟨p, hp.of_subset (touchedE_mono hK)⟩

/-! ### One backup path -/

/-- What is left to do, without the failed switches. -/
def dropV (a : Finset E × VPath G) : Finset E × Path G := (a.1, a.2.toPath)

/-- Invariant of the rounds. -/
structure VRoundInv (args : PlinkoArgs) (dst : V) (S : Set (Path G)) (kids : List (Path G))
    (s : VBuildState G) : Prop where
  facts : RoundFacts args.fwdRouting args.rounds dst (AliveV dst) S kids s.i (s.todo.map dropV)
    ((dictPairs s.nextdep).map dropV) s.fwdtable
  todo : ∀ a ∈ s.todo, KnowsSwitches a.2.toPath a.2.failedV
  next : ∀ a ∈ dictPairs s.nextdep, KnowsSwitches a.2.toPath a.2.failedV
  paths : ∀ B ∈ pathsOf S kids, ∃ K, KnowsSwitches B K

variable {args : PlinkoArgs} {S : Set (Path G)} {kids : List (Path G)} {s : VBuildState G}
  {todo : List (Finset E × VPath G)} {Q : VPath G}
  {getShortestPath : ℕ → Adj V E → V → V → List E}

section Round

variable (hsp : ∀ n, IsPathFinder (getShortestPath n)) (hdst : 0 < G.numhosts dst)
  (hdfr : args.dfr = false)
include hsp hdst hdfr

/-- Failing the first link of a round keeps the invariant. -/
theorem addBackupVertices_spec (h : VRoundInv args dst S kids { s with todo := (D, Q) :: todo }) :
    ∃ s' kids', addBackupVertices G args getShortestPath dst { s with todo } D Q = some s' ∧
      VRoundInv args dst S kids' s' ∧ s'.i = s.i ∧ s'.todo = todo := by
  obtain ⟨P, K⟩ := Q
  have hfacts := h.facts
  rw [List.map_cons] at hfacts
  obtain ⟨hP, hcard, hdep⟩ := hfacts.mem_todo _ (List.mem_cons_self ..)
  dsimp only [dropV] at hP hcard hdep hfacts
  have hbP := hfacts.forest.branch P (pathsOf_subset hP)
  obtain ⟨hknows, htodo⟩ := List.forall_mem_cons.mp h.todo
  dsimp only at hknows
  obtain ⟨x, u, r, e, rfl, hx, rfl, hfail⟩ := exists_place_at_fail hP hbP hdep
  have hi : (insert e x.branch.failedE).card = s.i := by
    rw [Finset.card_insert_of_notMem hx.not_mem_failedE]
    exact hcard
  have hknown := union_localFailedE hx
  have hknowsNext := hknows.next hx
  obtain ⟨start, fwd, hback⟩ := (hx.mono pathsOf_subset).history hfacts.forest.history
  obtain ⟨arcs, harcs⟩ := exists_arcSet (reversePath_reverse hback)
  have hroute : ∀ opath ∈ (s.fwdtable.atSwitch u).map Prod.snd,
      IsRoute args.fwdRouting dst u opath := hfacts.table.isRoute (fun B hB =>
    ⟨(hfacts.forest.branch B hB).rv_eq, (hfacts.forest.branch B hB).nodup⟩)
  rcases newPathVertices_spec (r ++ x.branch.extraRPath) hsp hdst hdfr hroute hbP.rv_eq
    hknowsNext.cover hknowsNext.start s.rnd arcs with ⟨N, hrun, hN⟩ | ⟨hrun, hcut⟩
  · obtain ⟨tbl, htbl, htable⟩ := install_spec hN.branch hfacts.table
    obtain ⟨deps, hdeps, hperm⟩ := updateDepsOf_spec VPath.toPath hN.branch s.nextdep
    have hNknows := hN.knowsSwitches hknowsNext
    have hpairs : ((dictPairs deps).map dropV).Perm
        ((dictPairs s.nextdep).map dropV ++ depPairs N.toPath) := by
      have hmap := hperm.map dropV
      rw [List.map_append, List.map_map] at hmap
      exact hmap
    refine ⟨{ s with todo, fwdtable := tbl, nextdep := deps, rnd := s.rnd.next.next },
      kids ++ [N.toPath], ?_, ⟨hfacts.grow hx hN.branch htable hpairs, htodo, fun a ha => ?_,
        fun B hB => ?_⟩, rfl, rfl⟩
    · simp only [addBackupVertices, guard, if_pos hi, hfail, hknown, hback, harcs, hrun, htbl,
        hdeps, Option.bind_eq_bind, Option.bind_some]
      rfl
    · rcases List.mem_append.mp (hperm.mem_iff.mp ha) with hold | hnew
      · exact h.next a hold
      · obtain ⟨f, _, rfl⟩ := List.mem_map.mp hnew
        exact hNknows
    · rw [pathsOf_concat] at hB
      rcases hB with rfl | hB
      · exact ⟨_, hNknows⟩
      · exact h.paths B hB
  · refine ⟨{ s with todo, rnd := s.rnd.next.next }, kids, ?_,
      ⟨hfacts.skip hx (hknowsNext.not_aliveV hcut), htodo, h.next, h.paths⟩, rfl, rfl⟩
    simp only [addBackupVertices, guard, if_pos hi, hfail, hknown, hback, harcs, hrun,
      Option.bind_eq_bind, Option.bind_some]
    rfl

end Round

/-! ### All rounds -/

/-- The forest after all rounds. -/
structure VPlinkoForest (args : PlinkoArgs) (dst : V) (T : Set (Path G)) : Prop
    extends RootedForest dst T where
  knows : ∀ B ∈ T, ∃ K, KnowsSwitches B K
  covered : ∀ x u rp e, Place.At T x u rp e → x.branch.failedE.card < args.rounds →
    Covered (AliveV dst) T x u rp e

/-- What the rounds leave. -/
def IsVPlinkoTable (args : PlinkoArgs) (dst : V) (tbl : PlinkoTable G) : Prop :=
  ∃ T, VPlinkoForest args dst T ∧ TableOf args.fwdRouting T tbl

/-- Rounds and links left to do. -/
def vroundsWork (args : PlinkoArgs) (s : VBuildState G) : ℕ × ℕ :=
  (args.rounds - s.i, s.todo.length)

section Run

variable (hsp : ∀ n, IsPathFinder (getShortestPath n)) (hdst : 0 < G.numhosts dst)
  (hdfr : args.dfr = false)
include hsp hdst hdfr

/-- A pass of the rounds keeps the invariant and leaves less to do. -/
theorem plinkoStepVertices_spec (h : VRoundInv args dst S kids s) :
    (∃ tbl, plinkoStepVertices G args getShortestPath dst s = .done (some tbl) ∧
      IsVPlinkoTable args dst tbl) ∨
    ∃ s' S' kids', plinkoStepVertices G args getShortestPath dst s = .next s' ∧
      VRoundInv args dst S' kids' s' ∧
      Prod.Lex (· < ·) (· < ·) (vroundsWork args s') (vroundsWork args s) := by
  rw [plinkoStepVertices]
  split
  · rename_i htodo
    have hfacts := h.facts
    rw [htodo, List.map_nil] at hfacts
    by_cases hend : (s.nextdep.isEmpty || s.i = args.rounds) = true
    · left
      rw [if_pos hend]
      rw [Bool.or_eq_true, List.isEmpty_iff, decide_eq_true_iff] at hend
      have hnext : (dictPairs s.nextdep).map dropV = [] ∨ s.i = args.rounds :=
        hend.imp_left fun hnil => by rw [hnil]; rfl
      exact ⟨s.fwdtable, rfl, pathsOf S kids, ⟨hfacts.forest, h.paths,
        fun x u rp e hx hcard => hfacts.finish hnext hx hcard⟩, hfacts.table⟩
    · right
      rw [if_neg hend]
      rw [Bool.or_eq_true, List.isEmpty_iff, decide_eq_true_iff, not_or] at hend
      have hperm := dictPairs_perm (shuffle_perm (s.rnd 0) s.nextdep)
      refine ⟨_, pathsOf S kids, [], rfl, ⟨hfacts.nextRound hend.2 (hperm.map dropV),
        fun a ha => h.next a (hperm.mem_iff.mp ha), fun a ha => absurd ha List.not_mem_nil,
        ?_⟩, Prod.lex_def.mpr (.inl ?_)⟩
      · rw [pathsOf_nil]
        exact h.paths
      · have := hfacts.i_le
        simp only [vroundsWork]
        omega
  · rename_i D Q todo htodo
    right
    have hs : s = { s with todo := (D, Q) :: todo } := by rw [← htodo]
    rw [hs] at h
    obtain ⟨s', kids', hrun, hinv, hi, htodo'⟩ := addBackupVertices_spec hsp hdst hdfr h
    refine ⟨s', S, kids', by rw [hrun], hinv, Prod.lex_def.mpr (.inr ?_)⟩
    simp only [vroundsWork, hi, htodo', htodo, List.length_cons]
    exact ⟨trivial, Nat.lt_succ_self _⟩

omit hdst hdfr in
/-- The first paths are the roots of the forest. -/
theorem plinkoInitVertices_spec (args : PlinkoArgs) (rnd : Rnd) :
    ∃ s kids, plinkoInitVertices G args getShortestPath dst rnd = some s ∧
      VRoundInv args dst ∅ kids s := by
  obtain ⟨kids, paths, hmapM, hreduce, hbranch, hnodup, hforest⟩ :=
    initPaths_spec (G := G) (hsp (rnd 0)) dst
  obtain ⟨tbl, htbl, htable⟩ := foldlM_install hbranch (tableOf_empty args.fwdRouting)
  let first : List (VPath G) := kids.map (fun path => VPath.mk path ∅)
  have hfirst : ∀ N ∈ first, IsBranch dst N.v ∅ [] N.toPath ∧ N.failedV = ∅ := by
    intro N hN
    obtain ⟨P, hP, rfl⟩ := List.mem_map.mp hN
    exact ⟨hbranch P hP, rfl⟩
  have hnew : ∀ N ∈ first, ∀ deps : VDeps G, ∃ deps',
      updateDepsOf VPath.toPath ∅ deps N = some deps' ∧ (dictPairs deps').Perm
        (dictPairs deps ++ N.edges.map (fun e => (insert e N.failedE, N))) :=
    fun N hN => updateDepsOf_spec VPath.toPath (hfirst N hN).1
  obtain ⟨deps, hdeps, hperm⟩ := foldlM_adds hnew []
  have hpairs : ((dictPairs deps).map dropV).Perm (kids.flatMap depPairs) := by
    refine (hperm.map dropV).trans (List.Perm.of_eq ?_)
    rw [List.map_append, List.map_flatMap, List.flatMap_map]
    simp only [List.map_map]
    rfl
  refine ⟨⟨0, [], deps, tbl, rnd.next⟩, kids, ?_, .init hforest htable
    (fun B hB => (hbranch B hB).failedE_eq) hnodup hpairs, fun a ha => absurd ha List.not_mem_nil,
    fun a ha => ?_, fun B hB => ?_⟩
  · have hrv : ∀ path ∈ kids, path.rv = dst := fun N hN => (hbranch N hN).rv_eq
    simp only [plinkoInitVertices, hmapM, hreduce, guard, if_pos hrv, htbl, Option.bind_eq_bind,
      Option.bind_some]
    exact (congrArg (fun o => Option.bind o _) hdeps).trans rfl
  · obtain ⟨N, hN, hin⟩ := List.mem_flatMap.mp (hperm.mem_iff.mp ha)
    obtain ⟨f, _, rfl⟩ := List.mem_map.mp hin
    obtain ⟨hb, hK⟩ := hfirst N hN
    rw [hK]
    exact knowsSwitches_first hb
  · exact ⟨∅, knowsSwitches_first (hbranch B (hB.resolve_left (Set.notMem_empty B)))⟩

/-- The rounds end with a table, and no assertion fails. -/
theorem exists_plinkoFwdtableVertices (rnd : Rnd) :
    ∃ fuel tbl, plinkoFwdtableVertices fuel G args getShortestPath dst rnd = some tbl ∧
      IsVPlinkoTable args dst tbl := by
  obtain ⟨s₀, kids₀, hinit, hinv⟩ := plinkoInitVertices_spec (G := G) hsp args rnd
  obtain ⟨r, ⟨fuel, hfuel⟩, tbl, rfl, hpost⟩ := Loop.returns_of_wellFounded
    (InvImage.wf (vroundsWork args) (WellFounded.prod_lex Nat.lt_wfRel.wf Nat.lt_wfRel.wf))
    (fun s => ∃ S kids, VRoundInv args dst S kids s)
    (fun r => ∃ tbl, r = some tbl ∧ IsVPlinkoTable args dst tbl)
    (fun s ⟨S, kids, h⟩ => (plinkoStepVertices_spec hsp hdst hdfr h).imp
      (fun ⟨tbl, hrun, hpost⟩ => ⟨some tbl, hrun, tbl, rfl, hpost⟩)
      (fun ⟨s', S', kids', hrun, hinv, hlt⟩ => ⟨s', hrun, ⟨S', kids', hinv⟩, hlt⟩))
    ⟨∅, kids₀, hinv⟩
  exact ⟨fuel, tbl, by simp only [plinkoFwdtableVertices, hinit, Option.bind_eq_bind,
    Option.bind_some, hfuel, Option.join_some], hpost⟩

end Run

end ResSim
