import ResSim.Plinko.VertexRounds
import ResSim.Plinko.Walk

/-!
# Plinko survives failed switches

When switches fail, all their links are down. A packet that starts at a switch that is up
enters none that has failed, and each link that it meets down reveals one more of them.
-/

namespace ResSim

variable {V E : Type} [DecidableEq V] [DecidableEq E] {G : PortGraph V E}

/-- The ports lead from one switch to another, and none of the switches on the way is in
`W`. -/
def LeadsOutside (G : PortGraph V E) (W : Finset V) (v : V) (path : List ℕ) (w : V) : Prop :=
  G.Leads ∅ v path w ∧ ∃ vs, vertexList G v path = some vs ∧ ∀ x ∈ vs, x ∉ W

variable {args : PlinkoArgs} {T : Set (Path G)} {tbl : PlinkoTable G} {W : Finset V}
  {s s' : PlinkoWalk V} {src dst u v w n : V} {rp r path : List ℕ} {e : E} {x : Place G}

lemma leadsOutside_iff :
    LeadsOutside G W v path w ↔ G.Leads (touchedE G W) v path w ∧ v ∉ W := by
  constructor
  · rintro ⟨hl, vs, hvs, hall⟩
    obtain ⟨r, _, hr, _⟩ := leads_iff.mp hl
    refine ⟨leads_of_vertexList hr hvs hall, hall v ?_⟩
    cases path with
    | nil =>
      obtain rfl := Option.some.inj hvs
      exact List.mem_singleton_self v
    | cons p path =>
      simp only [vertexList, Option.bind_eq_bind, Option.bind_eq_some_iff, Option.some.injEq]
        at hvs
      obtain ⟨_, _, _, _, rfl⟩ := hvs
      exact List.mem_cons_self
  · rintro ⟨hl, hv⟩
    obtain ⟨vs, hvs, _, hall⟩ := exists_vertexList_of_leads hl hv
    exact ⟨leads_mono hl (Finset.empty_subset _), vs, hvs, hall⟩

lemma not_mem_of_onWayBack (hl : G.Leads (touchedE G W) v path w)
    (hr : reversePath G v path = some (w, r)) (hv : v ∉ W) (hn : OnWayBack G w r n) :
    n ∉ W := by
  obtain ⟨pre, post, r₁, rfl, hpre⟩ := hn
  obtain ⟨y, r₂, r₃, h₁, h₂, rfl⟩ := reversePath_append.mp (reversePath_reverse hr)
  rw [hpre, Option.some.injEq, Prod.mk.injEq] at h₁
  obtain ⟨rfl, rfl⟩ := h₁
  obtain ⟨y, hfirst, _⟩ := leads_append.mp hl
  obtain ⟨_, _, hy, _⟩ := leads_iff.mp hfirst
  rw [reversePath_reverse h₂, Option.some.injEq, Prod.mk.injEq] at hy
  obtain ⟨rfl, _⟩ := hy
  obtain ⟨vs, _, hmem, hall⟩ := exists_vertexList_of_leads hfirst hv
  exact hall n hmem

/-- A packet that visited no failed switch. -/
def VisitedUp (G : PortGraph V E) (W : Finset V) (s : PlinkoWalk V) : Prop :=
  ∀ n, OnWayBack G s.v s.rp n → n ∉ W

omit [DecidableEq E] in
lemma VisitedUp.not_mem (h : VisitedUp G W s) : s.v ∉ W := h s.v onWayBack_self

lemma WalkStep.visitedUp {fwdRouting : FwdRouting} {y : Place G}
    (h : WalkStep fwdRouting T tbl (touchedE G W) dst s y e s') (hs : VisitedUp G W s) :
    VisitedUp G W s' := by
  obtain ⟨k, nrp, hf, _, hrp⟩ := h.followed
  intro n hn
  rw [hrp] at hn
  rcases hn.of_append (reversePath_reverse hf.back) with hnew | hold
  · exact not_mem_of_onWayBack hf.up hf.back hs.not_mem hnew
  · exact hs n hold

/-- While the rounds have failed as many links as switches, and the packet is not cut off, an
entry matches: a link that is down reveals one more failed switch. -/
lemma Facing.exists_entry_vertices (hT : VPlinkoForest args dst T)
    (ht : TableOf args.fwdRouting T tbl)
    (hx : Facing args.fwdRouting T (touchedE G W) x u rp e)
    (hvisited : ∀ n, OnWayBack G u rp n → n ∉ W) (hu : u ≠ dst) (hdst : dst ∉ W)
    (hroom : W.card ≤ args.rounds) (hw : ∃ p, EdgeWalk (upAdj G (touchedE G W)) u p dst) :
    ∃ a ∈ tbl.entries u rp, Matches (localFailedE G (touchedE G W) u).toFinset a := by
  induction hn : (touchedE G W).card - x.branch.failedE.card using Nat.strong_induction_on
    generalizing x e with
  | _ n ih =>
    by_cases he : e ∈ touchedE G W
    · have hsub : insert e x.branch.failedE ⊆ touchedE G W := Finset.insert_subset he hx.known
      obtain ⟨K, hK⟩ := hT.knows x.branch hx.at_hop.mem
      have hnext := hK.next hx.at_hop
      have hle := hnext.card_le.trans
        (Finset.card_le_card (hnext.revealed.subset hsub hvisited))
      have hcard := Finset.card_le_card hsub
      rw [Finset.card_insert_of_notMem hx.at_hop.not_mem_failedE] at hle hcard
      obtain ⟨C, hC, rfl, rfl, hfailed⟩ := hT.covered x u rp e hx.at_hop (by omega)
        ⟨W, hdst, hvisited, hsub, hu, hw⟩
      obtain ⟨z, f, hz, hpre, hat⟩ := exists_first hT.toRootedForest hC
      have hzf : z.branch.failedE = insert e x.branch.failedE := by rw [hz, hfailed]
      refine ih _ ?_ ⟨hat, hzf ▸ hsub, fun _ => .inl hpre⟩ rfl
      rw [hzf, Finset.card_insert_of_notMem hx.at_hop.not_mem_failedE]
      omega
    · exact hx.entry_of_up ht he

/-- The assertion that no switch on the way has failed holds for packets that visited none. -/
lemma lockstep_vertices (hT : VPlinkoForest args dst T) (ht : TableOf args.fwdRouting T tbl) :
    Loop.Lockstep (plinkoWalkStep G tbl dst (touchedE G W) ∅)
      (plinkoWalkStep G tbl dst (touchedE G W) W) (fun s t => s = t ∧ VisitedUp G W s) id := by
  have hrv : ∀ B ∈ T, B.rv = dst := fun B hB => (hT.branch B hB).rv_eq
  rintro s _ ⟨rfl, hs⟩
  have heq : plinkoWalkStep G tbl dst (touchedE G W) W s =
      plinkoWalkStep G tbl dst (touchedE G W) ∅ s := by
    simp only [plinkoWalkStep, if_neg hs.not_mem, if_neg (Finset.notMem_empty s.v)]
  cases hstep : plinkoWalkStep G tbl dst (touchedE G W) ∅ s with
  | done r => exact .inl ⟨r, rfl, heq.trans hstep⟩
  | next s' =>
    obtain ⟨_, y, e, hwalk⟩ := walkStep_of_next ht hT.toBackupForest hrv hstep
    exact .inr ⟨s', s', rfl, heq.trans hstep, rfl, hwalk.visitedUp hs⟩

/-- A packet that enters the network at a switch that is up is delivered. -/
theorem entered_delivered_vertices (hT : VPlinkoForest args dst T)
    (ht : TableOf args.fwdRouting T tbl) (hroom : W.card ≤ args.rounds) (hdst : dst ∉ W)
    (hsrc : src ∉ W) (hhosts : 0 < G.numhosts src) (hpath : G.Leads (touchedE G W) src path dst) :
    ∃ fuel hops failExp,
      Loop.run (plinkoWalkStep G tbl dst (touchedE G W) W) fuel ⟨[], [], src, false⟩ =
        some (some (some hops, failExp)) ∧ G.Leads (touchedE G W) src hops dst := by
  let s₀ : PlinkoWalk V := ⟨[], [], src, false⟩
  have hs₀ : VisitedUp G W s₀ := by
    rintro n ⟨pre, post, r, hnil, hpre⟩
    obtain ⟨rfl, _⟩ := List.append_eq_nil_iff.mp hnil.symm
    rw [reversePath_nil, Option.some.injEq, Prod.mk.injEq] at hpre
    exact hpre.1 ▸ hsrc
  have hrv : ∀ B ∈ T, B.rv = dst := fun B hB => (hT.branch B hB).rv_eq
  by_cases hne : src = dst
  · have hdone : plinkoWalkStep G tbl dst (touchedE G W) W s₀ = .done (some (some [], false)) :=
      if_pos hne
    exact ⟨1, [], false, Loop.run_done hdone 0, hne⟩
  obtain ⟨p, hp, _⟩ := edgeWalk_of_leads (leads_mono hpath (Finset.empty_subset _))
  obtain ⟨B, hB, hBv, hB₀⟩ := hT.exists_root src hhosts hne ⟨p, hp⟩
  obtain ⟨z, f, hz, hpre, hat⟩ := exists_first hT.toRootedForest hB
  rw [hT.root B hB hB₀, hBv] at hat
  have hfacing : Facing args.fwdRouting T (touchedE G W) z s₀.v s₀.rp f :=
    ⟨hat, by rw [hz, hB₀]; exact Finset.empty_subset _, fun _ => .inl hpre⟩
  have hstart : G.Leads (touchedE G W) src s₀.hops s₀.v := rfl
  obtain ⟨o, failExp, ⟨fuel, hfuel⟩, hend⟩ :=
    hfacing.returns_or_dropped ht hT.toBackupForest hrv hstart
  have hlock := lockstep_vertices hT ht (W := W)
  rcases hend with ⟨hops, rfl, hl⟩ | ⟨_, s, x, e, hreach, hx, hv, hs, hnone⟩
  · refine ⟨fuel, hops, failExp, ?_, hl⟩
    rw [hlock.run_eq ⟨rfl, hs₀⟩, hfuel, Option.map_some]
    rfl
  · have hup : VisitedUp G W s := hreach.invariant (VisitedUp G W) (fun s s' hs hn => by
      obtain ⟨_, y, e, hwalk⟩ := walkStep_of_next ht hT.toBackupForest hrv hn
      exact hwalk.visitedUp hs) hs₀
    obtain ⟨back, hback⟩ := PortGraph.leads_symm hs
    obtain ⟨p, hp, _⟩ := edgeWalk_of_leads (leads_append.mpr ⟨src, hback, hpath⟩)
    obtain ⟨a, ha, hm⟩ := hx.exists_entry_vertices hT ht hup hv hdst hroom ⟨p, hp⟩
    exact absurd hm (hnone a ha)

/-- Plinko tables are resilient against failed switches: after `rounds` rounds a packet
survives as many failed switches, unless they cut it off, and enters none of them. -/
theorem plinko_resilient_vertices {getShortestPath : ℕ → Adj V E → V → V → List E}
    (hsp : ∀ n, IsPathFinder (getShortestPath n)) (hdst : 0 < G.numhosts dst)
    (args : PlinkoArgs) (hdfr : args.dfr = false) (rnd : Rnd) (portno : ℕ) :
    ∃ fuel tbl, plinkoFwdtableVertices fuel G args getShortestPath dst rnd = some tbl ∧
      ∀ W : Finset V, W.card ≤ args.rounds → dst ∉ W → ∀ src, src ∉ W → 0 < G.numhosts src →
        (∃ path, LeadsOutside G W src path dst) → ∃ fuel hops failExp,
          plinkoWalkPath fuel G tbl src dst portno (touchedE G W) W =
            some (some (hops ++ [portno]), failExp) ∧ LeadsOutside G W src hops dst := by
  obtain ⟨fuel, tbl, hrun, T, hT, ht⟩ := exists_plinkoFwdtableVertices hsp hdst hdfr rnd
  refine ⟨fuel, tbl, hrun, fun W hroom hd src hsrc hhosts ⟨path, hpath⟩ => ?_⟩
  obtain ⟨fuel, hops, failExp, hwalk, hl⟩ := entered_delivered_vertices hT ht hroom hd hsrc hhosts
    (leadsOutside_iff.mp hpath).1
  refine ⟨fuel, hops, failExp, ?_, leadsOutside_iff.mpr ⟨hl, hsrc⟩⟩
  rw [plinkoWalkPath, if_neg hsrc, hwalk]
  rfl

theorem plinko_resilient_vertices_fourRing :
    ∃ fuel tbl, plinkoFwdtableVertices fuel fourRing ⟨1, .hopByHop, true, false⟩
        (fun _ => bfsPath [0, 1, 2, 3]) 0 (fun _ => 0) = some tbl ∧
      ∃ fuel hops failExp, plinkoWalkPath fuel fourRing tbl 2 0 7 (touchedE fourRing {1}) {1} =
        some (some (hops ++ [7]), failExp) ∧ LeadsOutside fourRing {1} 2 hops 0 := by
  have hsp : ∀ n : ℕ, IsPathFinder ((fun _ => bfsPath [0, 1, 2, 3]) n : Adj (Fin 4) (Fin 4) →
      Fin 4 → Fin 4 → List (Fin 4)) := fun _ => isPathFinder_bfsPath (by decide)
  have hhosts : 0 < fourRing.numhosts 0 := by decide
  obtain ⟨fuel, tbl, hrun, hwalk⟩ := plinko_resilient_vertices hsp hhosts
    ⟨1, .hopByHop, true, false⟩ rfl (fun _ => 0) 7
  refine ⟨fuel, tbl, hrun, hwalk {1} (by decide) (by decide) 2 (by decide) (by decide)
    ⟨[0, 0], ?_, [2, 3, 0], by decide, by decide⟩⟩
  exact ⟨2, 3, 1, by decide, Finset.notMem_empty _, 3, 0, 1, by decide, Finset.notMem_empty _, rfl⟩

end ResSim
