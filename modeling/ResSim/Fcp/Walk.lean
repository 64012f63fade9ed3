import ResSim.Fcp.Match
import ResSim.Plinko.Walk

/-!
# Walking FCP tables

The label of a packet is what it knows to have failed, and grows by the failed links that its
entry needs. A packet is in front of a hop of a path that knows the same, so it is delivered
unless more links are down than the rounds have failed, or the failed links cut it off.
-/

namespace ResSim

variable {V E : Type} [DecidableEq V] [DecidableEq E] {G : PortGraph V E}

/-- State of the walk. -/
structure EthfcpWalk (V E : Type) where
  hops : List ℕ
  kfe : Finset E
  v : V

/-- The body of the walk. The result is the list of hops, or that the packet was dropped; no
result where an assertion fails. -/
def ethfcpWalkStep (G : PortGraph V E) (fwdtable : FcpTables G) (dst : V)
    (failedE : Finset E) (failedV : Finset V) (s : EthfcpWalk V E) :
    Step (EthfcpWalk V E) (Option (Option (List ℕ))) :=
  if s.v = dst then .done (some (some s.hops))
  else if s.v ∈ failedV then .done none
  else
    let localFailed := (localFailedE G failedE s.v).toFinset
    match (fwdtable.entries s.v s.kfe).filter (fun x => Matches localFailed x) with
    | [] => .done (some none)
    | [((_, fs), out)] =>
      match follow G failedE s.v out with
      | none => .done none
      | some (v, nrp) =>
        if nrp.length = 1 then
          .next { hops := s.hops ++ out.take nrp.length, kfe := s.kfe ∪ fs, v := v }
        else .done none
    -- `assert(p == None)`
    | _ :: _ :: _ => .done none

/-- The walk from a switch to a host at the port `portno` of `dst`. -/
def ethfcpWalkPath (fuel : ℕ) (G : PortGraph V E) (fwdtable : FcpTables G) (src dst : V)
    (portno : ℕ) (failedE : Finset E) (failedV : Finset V) : Option (Option (List ℕ)) :=
  if src ∈ failedV then some none
  else (Loop.run (ethfcpWalkStep G fwdtable dst failedE failedV) fuel ⟨[], ∅, src⟩).join.map
    (fun r => r.map (fun hops => hops ++ [portno]))

variable {args : PlinkoArgs} {T : Set (FcpPath G)} {t : FcpTables G} {M N : FcpPath G}
  {F D K : Finset E} {s s' : EthfcpWalk V E} {src dst v w : V} {x y : FcpHop V E} {e : E}
  {out hops : List ℕ} {n : ℕ}

/-- A packet in front of a hop of a path that knows what the packet knows, `n` hops from the
destination. -/
structure FcpFacing (T : Set (FcpPath G)) (F : Finset E) (dst : V) (s : EthfcpWalk V E) (n : ℕ) :
    Prop where
  hop : ∃ N ∈ T, ∃ x, N.Makes x ∧ x.v = s.v ∧ x.label = s.kfe ∧ N.failedE = s.kfe
  known : s.kfe ⊆ F
  away : ∃ hops, ShortestHops G s.kfe s.v hops dst ∧ hops.length = n

lemma FcpForest.exists_first (hT : FcpForest dst T) (hN : N ∈ T) :
    ∃ x, N.Makes x ∧ x.v = N.v ∧ x.label = N.firsthopE := by
  have hb := hT.branch N hN
  obtain ⟨hop, post, hfull⟩ := List.exists_cons_of_ne_nil hb.branch.ne_nil
  have hs := hb.shortest
  rw [hfull] at hs
  obtain ⟨e, w, q, hhop⟩ := hs.exists_hop
  refine ⟨⟨N.v, N.firsthopE, (localFailedE G N.failedE N.v).toFinset, hop, e⟩, ?_, rfl, rfl⟩
  rw [FcpPath.Makes, hfull]
  exact (onRoute_cons hhop).mpr (.inl rfl)

section Table

variable (hT : FcpForest dst T) (ht : FcpTableOf T t)
include hT ht

/-- While the rounds have failed enough links and the switch is not cut off, an entry matches:
if the link of a hop is down, a backup path takes its place. -/
lemma exists_match (hcov : ∀ N ∈ T, ∀ x, N.Makes x → N.failedE.card < args.rounds →
      FcpCovered dst T N x) (hN : N ∈ T) (hx : N.Makes x) (hknown : N.failedE ⊆ F)
    (hroom : F.card ≤ args.rounds) (hw : ∃ p, EdgeWalk (upAdj G F) x.v p dst) :
    ∃ a ∈ t.entries x.v x.label, Matches (localFailedE G F x.v).toFinset a := by
  induction hn : F.card - N.failedE.card using Nat.strong_induction_on generalizing N x with
  | _ n ih =>
    have hb := hT.branch N hN
    by_cases he : x.link ∈ F
    · have hsub : insert x.link N.failedE ⊆ F := Finset.insert_subset he hknown
      have hcard := Finset.card_le_card hsub
      rw [Finset.card_insert_of_notMem (hx.link_not_mem hb)] at hcard
      obtain ⟨p, hp⟩ := hw
      obtain ⟨C, hC, hCv, hClabel, hCfail⟩ := hcov N hN x hx (by omega) ⟨p, hp.of_subset hsub⟩
      obtain ⟨y, hy, hyv, hylabel⟩ := hT.exists_first hC
      have hv : y.v = x.v := hyv.trans hCv
      rw [← hv, ← hClabel, ← hylabel]
      refine ih (F.card - C.failedE.card) ?_ hC hy (hCfail ▸ hsub) ⟨p, hv ▸ hp⟩ rfl
      rw [hCfail, Finset.card_insert_of_notMem (hx.link_not_mem hb)]
      omega
    · refine ⟨_, ht.entry_of_makes hT hN hx, fun hin => ?_, fun f hf => ?_⟩
      · exact he (mem_localFailedE_toFinset.mp hin).1
      · rw [hx.down_eq hb, mem_localFailedE_toFinset] at hf
        exact mem_localFailedE_toFinset.mpr ⟨hknown hf.1, hf.2⟩

/-- A step over a link that is up, by the entry for the hop `y` of the path `M`. -/
structure FcpMove (T : Set (FcpPath G)) (F : Finset E) (s : EthfcpWalk V E) (M : FcpPath G)
    (y : FcpHop V E) (s' : EthfcpWalk V E) : Prop where
  mem : M ∈ T
  makes : M.Makes y
  v_eq : y.v = s.v
  label_eq : y.label = s.kfe
  up : y.link ∉ F
  down : y.down ⊆ F
  hop : ∃ q, G.hop s.v y.port = some (y.link, s'.v, q)
  hops_eq : s'.hops = s.hops ++ [y.port]
  kfe_eq : s'.kfe = M.failedE

/-- Away from the destination a packet is dropped where no entry matches, and otherwise it
makes a step. -/
theorem ethfcpWalkStep_spec (hv : s.v ≠ dst) :
    (ethfcpWalkStep G t dst F ∅ s = .done (some none) ∧
      ∀ a ∈ t.entries s.v s.kfe, ¬ Matches (localFailedE G F s.v).toFinset a) ∨
    ∃ s' M y, ethfcpWalkStep G t dst F ∅ s = .next s' ∧ FcpMove T F s M y s' := by
  have hle := ht.matches_le_one hT s.v s.kfe (localFailedE G F s.v).toFinset
  rw [ethfcpWalkStep, if_neg hv, if_neg (Finset.notMem_empty _)]
  dsimp only
  cases hl : (t.entries s.v s.kfe).filter
      (fun x => Matches (localFailedE G F s.v).toFinset x) with
  | nil =>
    left
    refine ⟨rfl, fun a ha hm => ?_⟩
    exact List.filter_eq_nil_iff.mp hl a ha (decide_eq_true hm)
  | cons a l =>
    right
    have hl' : l = [] := by
      rw [hl, List.length_cons] at hle
      exact List.length_eq_zero_iff.mp (by omega)
    subst hl'
    obtain ⟨⟨e, D⟩, out⟩ := a
    have ha : ((e, D), out) ∈ (t.entries s.v s.kfe).filter
        (fun x => Matches (localFailedE G F s.v).toFinset x) := by
      rw [hl]
      exact List.mem_singleton.mpr rfl
    rw [List.mem_filter, decide_eq_true_iff] at ha
    obtain ⟨hin, he, hD⟩ := ha
    dsimp only at he hD
    obtain ⟨M, hM, y, hy, hyv, hylabel, rfl, rfl, rfl⟩ := ht.exists_hop_of_entry hT hin
    have hb := hT.branch M hM
    have hedge := hy.edge hb
    rw [hyv] at hedge
    obtain ⟨w, q, hhop⟩ := PortGraph.exists_hop_of_edges hedge
    have hup : y.link ∉ F := fun hF => he (mem_localFailedE_toFinset.mpr ⟨hF, y.port, hedge⟩)
    have hdown : y.down ⊆ F := fun f hf => (mem_localFailedE_toFinset.mp (hD hf)).1
    have hone : G.Leads ∅ s.v [y.port] w := ⟨_, _, _, hhop, Finset.notMem_empty _, rfl⟩
    obtain ⟨P, hP, hPv, hPpath, _⟩ := exists_mkPath [y.port] hone []
    have hrun : follow G F s.v [y.port] = some (w, [q]) := by
      simp only [follow, hP, Option.bind_eq_bind, Option.bind_some, hPv, hPpath, revpathAtFail,
        hhop, if_neg hup]
      rfl
    have hknown := OnRoute.known hy hb.shortest hb.label
    rw [hylabel] at hknown
    refine ⟨_, M, y, by simp only [hrun]; exact if_pos rfl, hM, hy, hyv, hylabel, hup, hdown,
      ⟨q, hhop⟩, rfl, hknown⟩

omit ht in
/-- A packet that faces a hop gets to the destination by a step, or faces a hop and knows more
or is closer. -/
lemma FcpMove.facing (hx : FcpFacing T F dst s n) (h : FcpMove T F s M y s') :
    s'.v = dst ∨ ∃ n', FcpFacing T F dst s' n' ∧ Prod.Lex (· < ·) (· < ·)
      (F.card - s'.kfe.card, n') (F.card - s.kfe.card, n) := by
  have hb := hT.branch M h.mem
  obtain ⟨post, hfrom, hsub, hcases⟩ := OnRoute.rest h.makes hb.shortest
  obtain ⟨q, hhop⟩ := h.hop
  rw [← h.v_eq] at hhop
  have hs := hfrom.shortest
  obtain ⟨_, htail⟩ := hs.tail hhop
  have hknown : M.failedE ⊆ F := by
    rw [← OnRoute.known h.makes hb.shortest hb.label, h.label_eq]
    exact Finset.union_subset hx.known h.down
  cases post with
  | nil => exact .inl htail.1
  | cons hop post =>
    right
    obtain ⟨e, w, q', hhop'⟩ := htail.exists_hop
    refine ⟨(hop :: post).length, ⟨⟨M, h.mem, ⟨s'.v, M.failedE,
      (localFailedE G M.failedE s'.v).toFinset, hop, e⟩, ?_, rfl, h.kfe_eq.symm,
      h.kfe_eq.symm⟩, h.kfe_eq ▸ hknown, hop :: post, h.kfe_eq ▸ htail, rfl⟩, ?_⟩
    · exact hsub _ ((onRoute_cons hhop).mpr (.inr ((onRoute_cons hhop').mpr (.inl rfl))))
    · rw [Prod.lex_def, h.kfe_eq]
      dsimp only
      have hle := Finset.card_le_card hknown
      have hlabel := h.makes.label_subset hb
      rw [h.label_eq] at hlabel
      by_cases hsame : s.kfe = M.failedE
      · right
        obtain ⟨hops, hshort, rfl⟩ := hx.away
        rw [hsame, ← h.v_eq] at hshort
        refine ⟨by rw [hsame], ?_⟩
        have hlen := hshort.length_eq hs
        rw [List.length_cons] at hlen
        omega
      · left
        have hlt : s.kfe.card < M.failedE.card := Finset.card_lt_card
          (Finset.ssubset_iff_subset_ne.mpr ⟨hlabel, hsame⟩)
        omega

/-- A packet that faces a hop is delivered, or dropped in front of a hop where no entry
matches. -/
theorem FcpFacing.returns_or_dropped (hx : FcpFacing T F dst s n)
    (hs : G.Leads F src s.hops s.v) : ∃ o,
      Loop.Returns (ethfcpWalkStep G t dst F ∅) s (some o) ∧
      ((∃ hops, o = some hops ∧ G.Leads F src hops dst) ∨ ∃ s' n',
        FcpFacing T F dst s' n' ∧ G.Leads F src s'.hops s'.v ∧
        ∀ a ∈ t.entries s'.v s'.kfe, ¬ Matches (localFailedE G F s'.v).toFinset a) := by
  have hwf : WellFounded (Prod.Lex (· < ·) (· < ·) : ℕ × ℕ → ℕ × ℕ → Prop) :=
    WellFounded.prod_lex Nat.lt_wfRel.wf Nat.lt_wfRel.wf
  induction hm : (F.card - s.kfe.card, n) using hwf.induction generalizing s n with
  | _ m ih =>
    by_cases hv : s.v = dst
    · exact ⟨some s.hops, .of_done (if_pos hv), .inl ⟨s.hops, rfl, hv ▸ hs⟩⟩
    · rcases ethfcpWalkStep_spec hT ht (F := F) hv with ⟨hrun, hnone⟩ | ⟨s', M, y, hrun, hmove⟩
      · exact ⟨none, .of_done hrun, .inr ⟨s, n, hx, hs, hnone⟩⟩
      · have hs' : G.Leads F src s'.hops s'.v := by
          obtain ⟨q, hhop⟩ := hmove.hop
          rw [hmove.hops_eq]
          exact leads_append.mpr ⟨s.v, hs, _, _, _, hhop, hmove.up, rfl⟩
        rcases hmove.facing hT hx with hv' | ⟨n', hx', hlt⟩
        · exact ⟨some s'.hops, .of_next hrun (.of_done (if_pos hv')),
            .inl ⟨s'.hops, rfl, hv' ▸ hs'⟩⟩
        · obtain ⟨o, hr, hend⟩ := ih _ (hm ▸ hlt) hx' hs' rfl
          exact ⟨o, hr.of_next hrun, hend⟩

end Table

/-- A packet that enters the network is delivered. -/
theorem FcpResult.delivered (h : FcpResult args dst T t) (hroom : F.card ≤ args.rounds)
    (hhosts : 0 < G.numhosts src) {path : List ℕ} (hpath : G.Leads F src path dst) (portno : ℕ) :
    ∃ fuel hops, ethfcpWalkPath fuel G t src dst portno F ∅ = some (some (hops ++ [portno])) ∧
      G.Leads F src hops dst := by
  suffices hdone : ∃ hops, Loop.Returns (ethfcpWalkStep G t dst F ∅) ⟨[], ∅, src⟩
      (some (some hops)) ∧ G.Leads F src hops dst by
    obtain ⟨hops, ⟨fuel, hrun⟩, hl⟩ := hdone
    refine ⟨fuel, hops, ?_, hl⟩
    rw [ethfcpWalkPath, if_neg (Finset.notMem_empty src), hrun]
    rfl
  by_cases hne : src = dst
  · exact ⟨[], .of_done (if_pos hne), hne⟩
  obtain ⟨B, hB, rfl, hBfail⟩ := h.forest.exists_root src hhosts hne
  have hb := h.forest.branch B hB
  obtain ⟨x, hx, hxv, hxlabel⟩ := h.forest.exists_first hB
  have hlabel : B.firsthopE = ∅ := by
    have hsub := hx.label_subset hb
    rwa [hxlabel, hBfail, Finset.subset_empty] at hsub
  have hshort := hb.shortest
  rw [hBfail] at hshort
  have hfacing : FcpFacing T F dst ⟨[], ∅, B.v⟩ B.fullPath.length :=
    ⟨⟨B, hB, x, hx, hxv, hxlabel.trans hlabel, hBfail⟩, Finset.empty_subset _,
      B.fullPath, hshort, rfl⟩
  obtain ⟨o, hret, hend⟩ := hfacing.returns_or_dropped h.forest h.table
    (show G.Leads F B.v [] B.v from rfl)
  rcases hend with ⟨hops, rfl, hl⟩ | ⟨s, n, hs, hl, hnone⟩
  · exact ⟨hops, hret, hl⟩
  · obtain ⟨N, hN, y, hy, hyv, hylabel, hNfail⟩ := hs.hop
    obtain ⟨back, hback⟩ := PortGraph.leads_symm hl
    obtain ⟨p, hp, _⟩ := edgeWalk_of_leads (leads_append.mpr ⟨B.v, hback, hpath⟩)
    obtain ⟨a, ha, hm⟩ := exists_match h.forest h.table h.covered hN hy (hNfail ▸ hs.known) hroom
      ⟨p, hyv ▸ hp⟩
    rw [hyv, hylabel] at ha
    rw [hyv] at hm
    exact absurd hm (hnone a ha)

end ResSim
