import ResSim.Plinko.WildTable

/-!
# Walking Plinko tables

A packet follows the path of the entry that matches until a link of the path is down. There
it bounces: the way back so far selects the entries of a backup path. What the packet has
learned is always what the path it follows knows, so it is delivered unless more links are
down than the rounds have failed, or the failed links cut it off.
-/

namespace ResSim

variable {V E : Type} [DecidableEq V] [DecidableEq E] {G : PortGraph V E}

/-- State of the walk. -/
structure PlinkoWalk (V : Type) where
  hops : List ℕ
  rp : List ℕ
  v : V
  failExp : Bool

/-- Follows the ports of an entry up to the first link that is down. -/
def follow (G : PortGraph V E) (failedE : Finset E) (v : V) (out : List ℕ) :
    Option (V × List ℕ) := do
  let p ← mkPath G v out out ∅ []
  revpathAtFail G failedE p.v p.path

/-- The body of the walk. The result is the list of hops, or that the packet was dropped,
with whether it met a failure; no result where an assertion fails. -/
def plinkoWalkStep (G : PortGraph V E) (fwdtable : PlinkoTable G) (dst : V)
    (failedE : Finset E) (failedV : Finset V) (s : PlinkoWalk V) :
    Step (PlinkoWalk V) (Option (Option (List ℕ) × Bool)) :=
  if s.v = dst then .done (some (some s.hops, s.failExp))
  else if s.v ∈ failedV then .done none
  else
    let localFailed := (localFailedE G failedE s.v).toFinset
    match (fwdtable.entries s.v s.rp).filter (fun x => Matches localFailed x) with
    | [] => .done (some (none, true))
    | [((_, fs), out)] =>
      match follow G failedE s.v out with
      | none => .done none
      | some (v, nrp) =>
        .next {
          hops := s.hops ++ out.take nrp.length
          rp := nrp ++ s.rp
          v := v
          failExp := s.failExp || 0 < fs.card || v ≠ dst }
    -- `assert(p == None)`
    | _ :: _ :: _ => .done none

/-- The walk from a switch to a host at the port `portno` of `dst`. -/
def plinkoWalkPath (fuel : ℕ) (G : PortGraph V E) (fwdtable : PlinkoTable G) (src dst : V)
    (portno : ℕ) (failedE : Finset E) (failedV : Finset V) : Option (Option (List ℕ) × Bool) :=
  if src ∈ failedV then some (none, true)
  else (Loop.run (plinkoWalkStep G fwdtable dst failedE failedV) fuel
    ⟨[], [], src, false⟩).join.map (fun r => (r.1.map (fun hops => hops ++ [portno]), r.2))

variable {args : PlinkoArgs} {fwdRouting : FwdRouting} {T : Set (Path G)} {tbl : PlinkoTable G}
  {F : Finset E} {s : PlinkoWalk V} {src dst u v w : V} {rp out path : List ℕ} {e e' : E}
  {x y z : Place G}

/-- A hop of a path that the packet can be about to make: what the path knows is down. With
source routing the packet is at the start of the path or in front of a link that is down. -/
structure Facing (fwdRouting : FwdRouting) (T : Set (Path G)) (F : Finset E) (x : Place G)
    (u : V) (rp : List ℕ) (e : E) : Prop where
  at_hop : x.At T u rp e
  known : x.branch.failedE ⊆ F
  src : fwdRouting = .src → x.pre = [] ∨ e ∈ F

/-- The entry for a hop matches. -/
structure Matching (fwdRouting : FwdRouting) (T : Set (Path G)) (F : Finset E) (y : Place G)
    (u : V) (rp : List ℕ) (e : E) (out : List ℕ) : Prop where
  at_hop : y.At T u rp e
  out_of : OutOf fwdRouting y out
  up : e ∉ F
  here : ∀ f ∈ y.branch.failedE, (∃ port, G.edges u port = some f) → f ∈ F

lemma matches_iff (hy : y.At T u rp e) : Matches (localFailedE G F u).toFinset
    ((e, (localFailedE G y.branch.failedE u).toFinset), out) ↔
    e ∉ F ∧ ∀ f ∈ y.branch.failedE, (∃ port, G.edges u port = some f) → f ∈ F := by
  simp only [Matches, List.mem_toFinset, mem_localFailedE_iff, Finset.subset_iff]
  constructor
  · rintro ⟨he, hfs⟩
    exact ⟨fun heF => he ⟨heF, _, hy.edge⟩, fun f hf hport => (hfs ⟨hf, hport⟩).1⟩
  · rintro ⟨he, hfs⟩
    exact ⟨fun h => he h.1, fun f ⟨hf, hport⟩ => ⟨hfs f hf hport, hport⟩⟩

lemma TableOf.matching_of_entry (ht : TableOf fwdRouting T tbl) {a : (E × Finset E) × List ℕ}
    (ha : a ∈ (tbl.entries u rp).filter (fun x => Matches (localFailedE G F u).toFinset x)) :
    ∃ y, Matching fwdRouting T F y u rp a.1.1 a.2 := by
  obtain ⟨⟨e, fs⟩, out⟩ := a
  rw [List.mem_filter, decide_eq_true_iff] at ha
  obtain ⟨y, hy, hfs, hout⟩ := ht.exists_place_of_entry ha.1
  dsimp only at hy hfs
  subst hfs
  obtain ⟨he, hhere⟩ := (matches_iff hy).mp ha.2
  exact ⟨y, hy, hout, he, hhere⟩

/-- What a packet at a hop has learned decides the paths whose entries match. -/
lemma Matching.known (hT : BackupForest T) (hx : Facing fwdRouting T F x u rp e)
    (hy : Matching fwdRouting T F y u rp e' out) :
    y.branch.failedE ⊆ F ∧ (x = y ∨ Backs u x e y) := by
  rcases hT.comparable hx.at_hop hy.at_hop with rfl | hb | hb
  · exact ⟨hx.known, .inl rfl⟩
  · refine ⟨fun f hf => ?_, .inr hb⟩
    rcases hb.here f hf with hfx | hport
    · exact hx.known hfx
    · exact hy.here f hf hport
  · exact absurd (hx.known hb.mem) hy.up

omit [DecidableEq E] in
lemma Place.At.rest (hT : ∀ B ∈ T, B.rv = dst) (hx : x.At T u rp e) :
    ∃ r, reversePath G u (x.hop :: x.post) = some (dst, r) := by
  obtain ⟨r, hr⟩ := x.branch.reversePath_eq
  rw [hx.split, hT _ hx.mem] at hr
  obtain ⟨w, r₁, r₂, h₁, h₂, _⟩ := reversePath_append.mp hr
  obtain ⟨r', hr', _⟩ := hx.back
  rw [h₁, Option.some.injEq, Prod.mk.injEq] at hr'
  obtain ⟨rfl, _⟩ := hr'
  exact ⟨r₂, h₂⟩

omit [DecidableEq E] in
lemma Place.At.advance (hx : x.At T u rp e) {k post r : List ℕ} {hop : ℕ} {f : E}
    (hsplit : x.hop :: x.post = k ++ hop :: post) (hk : reversePath G u k = some (w, r))
    (hf : G.edges w hop = some f) :
    Place.At T ⟨x.branch, x.pre ++ k, hop, post⟩ w (r ++ rp) f := by
  obtain ⟨r', hr', rfl⟩ := hx.back
  refine ⟨hx.mem, ?_, ⟨r ++ r', ?_, ?_⟩, hf⟩
  · rw [hx.split, hsplit, List.append_assoc]
  · exact reversePath_append.mpr ⟨u, r', r, hr', hk, rfl⟩
  · rw [List.append_assoc]

omit [DecidableEq E] in
lemma OutOf.parts (h : OutOf fwdRouting y out) : ∃ more, y.hop :: y.post = out ++ more ∧
    out ≠ [] ∧ (fwdRouting = .src → more = []) := by
  cases fwdRouting with
  | src =>
    rw [(h.src rfl).2]
    exact ⟨[], (List.append_nil _).symm, List.cons_ne_nil _ _, fun _ => rfl⟩
  | hopByHop =>
    rw [h.hopByHop rfl]
    exact ⟨y.post, rfl, List.cons_ne_nil _ _, fun h => nomatch h⟩

lemma exists_follow {r : List ℕ} (h : reversePath G u out = some (w, r)) (F : Finset E) :
    ∃ k post w nrp, out = k ++ post ∧ follow G F u out = some (w, nrp) ∧
      out.take nrp.length = k ∧ reversePath G u k = some (w, nrp) ∧ G.Leads F u k w ∧
      ∀ hop ∈ post.head?, ∃ f ∈ F, G.edges w hop = some f := by
  obtain ⟨arcs, harcs⟩ := exists_arcSet h
  have hl : G.Leads ∅ u out w := leads_of_arcSet h harcs (fun _ _ => Finset.notMem_empty _)
  obtain ⟨p, hp, hpv, hppath, _⟩ := exists_mkPath out hl []
  obtain ⟨k, post, w, nrp, hk, hrun, hback, hup, hpost⟩ := exists_revpathAtFail h F
  refine ⟨k, post, w, nrp, hk, ?_, ?_, hback, hup, hpost⟩
  · simp only [follow, hp, Option.bind_eq_bind, Option.bind_some, hpv, hppath, hrun]
  · rw [reversePath_length hback, hk, List.take_left]

/-- What following an entry does: the packet makes some hops and gets to the destination, or
further along the path. -/
structure Followed (fwdRouting : FwdRouting) (T : Set (Path G)) (F : Finset E) (dst : V)
    (y : Place G) (u : V) (rp k : List ℕ) (w : V) (nrp : List ℕ) : Prop where
  back : reversePath G u k = some (w, nrp)
  up : G.Leads F u k w
  ne_nil : k ≠ []
  prefix_of : ∃ more, y.hop :: y.post = k ++ more
  next : w = dst ∨ ∃ hop post f, y.hop :: y.post = k ++ hop :: post ∧
    Place.At T ⟨y.branch, y.pre ++ k, hop, post⟩ w (nrp ++ rp) f ∧
    (fwdRouting = .src → f ∈ F)

lemma Matching.exists_followed (hT : ∀ B ∈ T, B.rv = dst)
    (hy : Matching fwdRouting T F y u rp e out) :
    ∃ w nrp, follow G F u out = some (w, nrp) ∧
      Followed fwdRouting T F dst y u rp (out.take nrp.length) w nrp := by
  obtain ⟨rr, hrest⟩ := hy.at_hop.rest hT
  obtain ⟨more, hmore, hne, hsrc⟩ := hy.out_of.parts
  rw [hmore] at hrest
  obtain ⟨w', r₁, r₂, h₁, h₂, _⟩ := reversePath_append.mp hrest
  obtain ⟨k, post, w, nrp, hk, hrun, htake, hback, hup, hpost⟩ := exists_follow h₁ F
  have hsplit : y.hop :: y.post = k ++ (post ++ more) := by
    rw [hmore, hk, List.append_assoc]
  rw [← hmore, hsplit] at hrest
  obtain ⟨w₂, r₃, r₄, h₃, h₄, _⟩ := reversePath_append.mp hrest
  rw [hback, Option.some.injEq, Prod.mk.injEq] at h₃
  obtain ⟨rfl, rfl⟩ := h₃
  refine ⟨w, nrp, hrun, ?_⟩
  rw [htake]
  refine ⟨hback, hup, ?_, ⟨_, hsplit⟩, ?_⟩
  · -- the first link is up
    rintro rfl
    obtain ⟨rfl, rfl⟩ := Prod.mk.inj (Option.some.inj hback)
    rw [List.nil_append] at hk
    subst hk
    obtain ⟨hop, post', rfl⟩ := List.exists_cons_of_ne_nil hne
    obtain ⟨f, hf, hedge⟩ := hpost hop rfl
    obtain ⟨rfl, _⟩ := List.cons.inj hmore
    rw [hy.at_hop.edge, Option.some.injEq] at hedge
    exact hy.up (hedge ▸ hf)
  · cases hrem : post ++ more with
    | nil =>
      rw [hrem, reversePath_nil, Option.some.injEq, Prod.mk.injEq] at h₄
      exact .inl h₄.1
    | cons hop post' =>
      right
      rw [hrem] at hsplit h₄
      obtain ⟨f, _, _, _, hhop, _, _⟩ := reversePath_cons.mp h₄
      have hf := PortGraph.edges_of_hop hhop
      refine ⟨hop, post', f, hsplit, hy.at_hop.advance hsplit hback hf, fun hs => ?_⟩
      rw [hsrc hs, List.append_nil] at hrem
      obtain ⟨f', hf', hedge⟩ := hpost hop (by rw [hrem]; rfl)
      rw [hf, Option.some.injEq] at hedge
      exact hedge ▸ hf'

/-! ### One step -/

/-- Failed links that the path does not know, and hops left of it. -/
def walkWork (F : Finset E) (x : Place G) : ℕ × ℕ :=
  (F.card - x.branch.failedE.card, x.post.length)

/-- A step of a packet: it follows the path of the hop `y`. -/
structure WalkStep (fwdRouting : FwdRouting) (T : Set (Path G)) (tbl : PlinkoTable G)
    (F : Finset E) (dst : V) (s : PlinkoWalk V) (y : Place G) (e : E) (s' : PlinkoWalk V) :
    Prop where
  matching : ∃ a ∈ tbl.entries s.v s.rp, Matches (localFailedE G F s.v).toFinset a ∧
    Matching fwdRouting T F y s.v s.rp e a.2
  followed : ∃ k nrp, Followed fwdRouting T F dst y s.v s.rp k s'.v nrp ∧
    s'.hops = s.hops ++ k ∧ s'.rp = nrp ++ s.rp

/-- Away from the destination a packet is dropped where no entry matches, and otherwise it
makes a step. -/
theorem plinkoWalkStep_spec (ht : TableOf fwdRouting T tbl) (hT : BackupForest T)
    (hdst : ∀ B ∈ T, B.rv = dst) (hv : s.v ≠ dst) :
    (plinkoWalkStep G tbl dst F ∅ s = .done (some (none, true)) ∧
      ∀ a ∈ tbl.entries s.v s.rp, ¬ Matches (localFailedE G F s.v).toFinset a) ∨
    ∃ s' y e, plinkoWalkStep G tbl dst F ∅ s = .next s' ∧
      WalkStep fwdRouting T tbl F dst s y e s' := by
  have hle := ht.matches_le_one hT s.v s.rp (localFailedE G F s.v).toFinset
  rw [plinkoWalkStep, if_neg hv, if_neg (Finset.notMem_empty _)]
  dsimp only
  cases hl : (tbl.entries s.v s.rp).filter
      (fun x => Matches (localFailedE G F s.v).toFinset x) with
  | nil =>
    left
    refine ⟨rfl, fun a ha hm => ?_⟩
    exact List.filter_eq_nil_iff.mp hl a ha (decide_eq_true hm)
  | cons a l =>
    right
    have hl' : l = [] := by
      rw [hl, List.length_cons] at hle
      exact List.length_eq_zero_iff.mp (by omega)
    subst hl'
    have ha : a ∈ (tbl.entries s.v s.rp).filter
        (fun x => Matches (localFailedE G F s.v).toFinset x) := by
      rw [hl]
      exact List.mem_singleton.mpr rfl
    obtain ⟨y, hy⟩ := ht.matching_of_entry ha
    obtain ⟨w, nrp, hrun, hf⟩ := hy.exists_followed hdst
    obtain ⟨⟨e, fs⟩, out⟩ := a
    rw [List.mem_filter, decide_eq_true_iff] at ha
    exact ⟨_, y, e, by simp only [hrun]; rfl, ⟨_, ha.1, ha.2, hy⟩, out.take nrp.length, nrp, hf,
      rfl, rfl⟩

lemma walkStep_of_next {s' : PlinkoWalk V} (ht : TableOf fwdRouting T tbl) (hT : BackupForest T)
    (hdst : ∀ B ∈ T, B.rv = dst) (hn : plinkoWalkStep G tbl dst F ∅ s = .next s') :
    s.v ≠ dst ∧ ∃ y e, WalkStep fwdRouting T tbl F dst s y e s' := by
  have hv : s.v ≠ dst := by
    intro hv
    rw [plinkoWalkStep, if_pos hv] at hn
    cases hn
  rcases plinkoWalkStep_spec ht hT hdst hv with ⟨hd, _⟩ | ⟨s₁, y, e, hn', hstep⟩
  · rw [hn] at hd
    cases hd
  · rw [hn, Step.next.injEq] at hn'
    exact ⟨hv, y, e, hn' ▸ hstep⟩

/-- A packet that faces a hop faces one closer to the end after a step, or is at the
destination. -/
theorem WalkStep.facing {s' : PlinkoWalk V} (hT : BackupForest T)
    (hx : Facing fwdRouting T F x s.v s.rp e) (h : WalkStep fwdRouting T tbl F dst s y e' s') :
    s'.v = dst ∨ ∃ z f, Facing fwdRouting T F z s'.v s'.rp f ∧
      Prod.Lex (· < ·) (· < ·) (walkWork F z) (walkWork F x) := by
  obtain ⟨_, _, _, hy⟩ := h.matching
  obtain ⟨k, nrp, hf, _, hrp⟩ := h.followed
  obtain ⟨hknown, hxy⟩ := hy.known hT hx
  refine hf.next.imp_right ?_
  rintro ⟨hop, post, f, hsplit, hat, hsrc⟩
  rw [← hrp] at hat
  refine ⟨_, f, ⟨hat, hknown, fun hs => .inr (hsrc hs)⟩, ?_⟩
  rcases hxy with rfl | hb
  · refine Prod.lex_def.mpr (.inr ⟨rfl, ?_⟩)
    have hlen := congrArg List.length hsplit
    have hpos := List.length_pos_iff.mpr hf.ne_nil
    rw [List.length_cons, List.length_append, List.length_cons] at hlen
    simp only [walkWork]
    omega
  · refine Prod.lex_def.mpr (.inl ?_)
    have hlt : x.branch.failedE.card < y.branch.failedE.card := Finset.card_lt_card
      ((Finset.ssubset_iff_of_subset hb.subset).mpr ⟨e, hb.mem, hx.at_hop.not_mem_failedE⟩)
    have hle := Finset.card_le_card hknown
    simp only [walkWork]
    omega

/-! ### Delivery -/

lemma exists_first (hT : RootedForest dst T) {B : Path G} (hB : B ∈ T) :
    ∃ z f, z.branch = B ∧ z.pre = [] ∧ Place.At T z B.v B.extraRPath f := by
  have hb := hT.branch B hB
  obtain ⟨hop, post, hfull⟩ := List.exists_cons_of_ne_nil hb.ne_nil
  have hl := B.leads
  rw [hfull] at hl
  obtain ⟨f, w, q, hhop, _, _⟩ := hl
  exact ⟨⟨B, [], hop, post⟩, f, rfl, rfl, hB, hfull, ⟨[], rfl, rfl⟩,
    PortGraph.edges_of_hop hhop⟩

lemma Facing.entry_of_up (ht : TableOf fwdRouting T tbl)
    (hx : Facing fwdRouting T F x u rp e) (he : e ∉ F) :
    ∃ a ∈ tbl.entries u rp, Matches (localFailedE G F u).toFinset a := by
  have hpre : fwdRouting = .src → x.pre = [] := fun hs => (hx.src hs).resolve_right he
  obtain ⟨⟨k, N⟩, hin, hk⟩ := List.mem_map.mp (ht.complete x u rp e hx.at_hop hpre)
  dsimp only at hk
  subst hk
  exact ⟨_, mem_entries.mpr ⟨N, hin, rfl⟩, (matches_iff hx.at_hop).mpr
    ⟨he, fun f hf _ => hx.known hf⟩⟩

/-- While the rounds have failed enough links and the switch is not cut off, an entry
matches: if the link is down, a child of the path takes its place. -/
lemma Facing.exists_entry (hT : PlinkoForest args dst T) (ht : TableOf args.fwdRouting T tbl)
    (hx : Facing args.fwdRouting T F x u rp e) (hu : u ≠ dst) (hroom : F.card ≤ args.rounds)
    (hw : ∃ p, EdgeWalk (upAdj G F) u p dst) :
    ∃ a ∈ tbl.entries u rp, Matches (localFailedE G F u).toFinset a := by
  induction hn : F.card - x.branch.failedE.card using Nat.strong_induction_on
    generalizing x e with
  | _ n ih =>
    by_cases he : e ∈ F
    · have hsub : insert e x.branch.failedE ⊆ F := Finset.insert_subset he hx.known
      have hcard := Finset.card_le_card hsub
      rw [Finset.card_insert_of_notMem hx.at_hop.not_mem_failedE] at hcard
      obtain ⟨p, hp⟩ := hw
      obtain ⟨C, hC, rfl, rfl, hfailed⟩ := hT.backedUp x u rp e hx.at_hop (by omega) hu
        ⟨p, hp.of_subset hsub⟩
      obtain ⟨z, f, hz, hpre, hat⟩ := exists_first hT.toRootedForest hC
      have hzf : z.branch.failedE = insert e x.branch.failedE := by rw [hz, hfailed]
      refine ih _ ?_ ⟨hat, hzf ▸ hsub, fun _ => .inl hpre⟩ rfl
      rw [hzf, Finset.card_insert_of_notMem hx.at_hop.not_mem_failedE]
      omega
    · exact hx.entry_of_up ht he

/-- A packet that faces a hop is delivered, or dropped at a hop for which no entry matches. -/
theorem Facing.returns_or_dropped (ht : TableOf fwdRouting T tbl) (hT : BackupForest T)
    (hdst : ∀ B ∈ T, B.rv = dst) (hx : Facing fwdRouting T F x s.v s.rp e)
    (hs : G.Leads F src s.hops s.v) : ∃ o failExp,
      Loop.Returns (plinkoWalkStep G tbl dst F ∅) s (some (o, failExp)) ∧
      ((∃ hops, o = some hops ∧ G.Leads F src hops dst) ∨ (o = none ∧ ∃ s' x e,
        Loop.Reaches (plinkoWalkStep G tbl dst F ∅) s s' ∧
        Facing fwdRouting T F x s'.v s'.rp e ∧ s'.v ≠ dst ∧ G.Leads F src s'.hops s'.v ∧
        ∀ a ∈ tbl.entries s'.v s'.rp, ¬ Matches (localFailedE G F s'.v).toFinset a)) := by
  have hwf : WellFounded (InvImage (Prod.Lex (· < ·) (· < ·)) (walkWork (G := G) F)) :=
    InvImage.wf _ (WellFounded.prod_lex Nat.lt_wfRel.wf Nat.lt_wfRel.wf)
  induction x using hwf.induction generalizing s e with
  | _ x ih =>
    by_cases hv : s.v = dst
    · exact ⟨some s.hops, s.failExp, .of_done (if_pos hv), .inl ⟨s.hops, rfl, hv ▸ hs⟩⟩
    · rcases plinkoWalkStep_spec ht hT hdst hv with ⟨hrun, hnone⟩ | ⟨s', y, e', hrun, hstep⟩
      · exact ⟨none, true, .of_done hrun, .inr ⟨rfl, s, x, e, .refl, hx, hv, hs, hnone⟩⟩
      · obtain ⟨k, nrp, hf, hhops, _⟩ := hstep.followed
        have hs' : G.Leads F src s'.hops s'.v := by
          rw [hhops]
          exact leads_append.mpr ⟨s.v, hs, hf.up⟩
        rcases hstep.facing hT hx with hv' | ⟨z, f, hz, hlt⟩
        · exact ⟨some s'.hops, s'.failExp, .of_next hrun (.of_done (if_pos hv')),
            .inl ⟨s'.hops, rfl, hv' ▸ hs'⟩⟩
        · obtain ⟨o, b, hr, hend⟩ := ih z hlt hz hs'
          refine ⟨o, b, hr.of_next hrun, hend.imp_right ?_⟩
          rintro ⟨ho, s₁, x₁, e₁, hreach, hrest⟩
          exact ⟨ho, s₁, x₁, e₁, hreach.head hrun, hrest⟩

/-- The way a walk ends. -/
def Ends (args : PlinkoArgs) (F : Finset E) (src dst : V)
    (r : Option (Option (List ℕ) × Bool)) : Prop :=
  ∃ o failExp, r = some (o, failExp) ∧
    (F.card ≤ args.rounds → (∃ path, G.Leads F src path dst) →
      ∃ hops, o = some hops ∧ G.Leads F src hops dst)

/-- A packet that faces a hop ends well. -/
theorem Facing.returns (hT : PlinkoForest args dst T) (ht : TableOf args.fwdRouting T tbl)
    (hx : Facing args.fwdRouting T F x s.v s.rp e) (hs : G.Leads F src s.hops s.v) :
    ∃ r, Loop.Returns (plinkoWalkStep G tbl dst F ∅) s r ∧ Ends (G := G) args F src dst r := by
  have hrv : ∀ B ∈ T, B.rv = dst := fun B hB => (hT.branch B hB).rv_eq
  obtain ⟨o, b, hr, hend⟩ := hx.returns_or_dropped ht hT.toBackupForest hrv hs
  refine ⟨_, hr, o, b, rfl, fun hroom ⟨path, hpath⟩ => ?_⟩
  rcases hend with hdone | ⟨_, s', x', e', _, hx', hv, hs', hnone⟩
  · exact hdone
  · obtain ⟨back, hback⟩ := PortGraph.leads_symm hs'
    obtain ⟨p, hp, _⟩ := edgeWalk_of_leads (leads_append.mpr ⟨src, hback, hpath⟩)
    obtain ⟨a, ha, hm⟩ := hx'.exists_entry hT ht hv hroom ⟨p, hp⟩
    exact absurd hm (hnone a ha)

lemma hops_of_done {failExp : Bool} {hops : List ℕ}
    (h : plinkoWalkStep G tbl dst F ∅ s = .done (some (some hops, failExp))) : s.hops = hops := by
  rw [plinkoWalkStep] at h
  split at h
  · injection h with h
    exact Option.some.inj (Prod.mk.inj (Option.some.inj h)).1
  · split at h
    · cases h
    · dsimp only at h
      split at h
      · cases h
      · split at h
        · cases h
        · cases h
      · cases h

/-- The hops of a delivered packet are those of a state that it reached. -/
lemma exists_reached_of_walk {fuel portno : ℕ} {failExp : Bool} {hops : List ℕ}
    (h : plinkoWalkPath fuel G tbl src dst portno F ∅ = some (some (hops ++ [portno]), failExp)) :
    ∃ s, Loop.Reaches (plinkoWalkStep G tbl dst F ∅) ⟨[], [], src, false⟩ s ∧ s.hops = hops := by
  rw [plinkoWalkPath, if_neg (Finset.notMem_empty _), Option.map_eq_some_iff] at h
  obtain ⟨⟨o, b⟩, hrun, heq⟩ := h
  obtain ⟨ho, rfl⟩ := Prod.mk.inj heq
  obtain ⟨hops', rfl, happ⟩ := Option.map_eq_some_iff.mp ho
  rw [List.append_cancel_right happ] at hrun
  obtain ⟨s, hr, hd⟩ := Loop.Returns.exists_last ⟨fuel, Option.join_eq_some_iff.mp hrun⟩
  exact ⟨s, hr, hops_of_done hd⟩

/-- The paths for packets that just entered know only links of the switch. -/
lemma BackupForest.here_of_entered (hT : BackupForest T) {B : Path G} (hB : B ∈ T)
    (hrp : B.extraRPath = []) : ∀ f ∈ B.failedE, ∃ port, G.edges B.v port = some f := by
  induction hn : B.failedE.card using Nat.strong_induction_on generalizing B with
  | _ n ih =>
    intro f hf
    obtain ⟨z, f', hz, heq⟩ := hT.parent B hB (Finset.ne_empty_of_mem hf)
    rw [hrp] at hz
    obtain ⟨hv, hrp'⟩ := hz.start hz.pre_eq_nil
    rw [heq] at hf
    rcases Finset.mem_insert.mp hf with rfl | hf
    · exact ⟨_, hz.edge⟩
    · rw [← hv]
      refine ih _ ?_ hz.mem hrp' rfl f hf
      rw [← hn, heq, Finset.card_insert_of_notMem hz.not_mem_failedE]
      exact Nat.lt_succ_self _

/-- A packet that enters the network ends well. -/
theorem entered_returns (hT : PlinkoForest args dst T) (ht : TableOf args.fwdRouting T tbl)
    (F : Finset E) (src : V) :
    ∃ r, Loop.Returns (plinkoWalkStep G tbl dst F ∅) ⟨[], [], src, false⟩ r ∧
      ∃ o failExp, r = some (o, failExp) ∧
        (F.card ≤ args.rounds → 0 < G.numhosts src → (∃ path, G.Leads F src path dst) →
          ∃ hops, o = some hops ∧ G.Leads F src hops dst) := by
  let s₀ : PlinkoWalk V := ⟨[], [], src, false⟩
  have hfacing : ∀ x e, Facing args.fwdRouting T F x src [] e →
      ∃ r, Loop.Returns (plinkoWalkStep G tbl dst F ∅) s₀ r ∧ ∃ o failExp, r = some (o, failExp) ∧
        (F.card ≤ args.rounds → 0 < G.numhosts src → (∃ path, G.Leads F src path dst) →
          ∃ hops, o = some hops ∧ G.Leads F src hops dst) := by
    intro x e hx
    have hs₀ : G.Leads F src s₀.hops s₀.v := rfl
    obtain ⟨r, hr, o, b, ho, hend⟩ := Facing.returns (s := s₀) hT ht hx hs₀
    exact ⟨r, hr, o, b, ho, fun hroom _ hpath => hend hroom hpath⟩
  by_cases hv : src = dst
  · exact ⟨_, .of_done (if_pos hv), some [], false, rfl, fun _ _ _ => ⟨[], rfl, hv⟩⟩
  · by_cases hroot : 0 < G.numhosts src ∧ ∃ path, G.Leads F src path dst
    · obtain ⟨hhosts, path, hpath⟩ := hroot
      obtain ⟨p, hp, _⟩ := edgeWalk_of_leads (leads_mono hpath (Finset.empty_subset F))
      obtain ⟨B, hB, rfl, hB₀⟩ := hT.exists_root src hhosts hv ⟨p, hp⟩
      obtain ⟨z, f, hz, hpre, hat⟩ := exists_first hT.toRootedForest hB
      rw [hT.root B hB hB₀] at hat
      exact hfacing z f ⟨hat, by rw [hz, hB₀]; exact Finset.empty_subset F, fun _ => .inl hpre⟩
    · have hrv : ∀ B ∈ T, B.rv = dst := fun B hB => (hT.branch B hB).rv_eq
      rcases plinkoWalkStep_spec (s := s₀) (F := F) ht hT.toBackupForest hrv hv with
        ⟨hrun, _⟩ | ⟨s', y, e, _, hstep⟩
      · exact ⟨_, .of_done hrun, none, true, rfl,
          fun _ hhosts hpath => absurd ⟨hhosts, hpath⟩ hroot⟩
      · obtain ⟨_, _, _, hy⟩ := hstep.matching
        have hpre := hy.at_hop.pre_eq_nil
        obtain ⟨hyv, hyr⟩ := hy.at_hop.start hpre
        refine hfacing y e ⟨hy.at_hop, fun f hf => hy.here f hf ?_, fun _ => .inl hpre⟩
        rw [← hyv]
        exact hT.here_of_entered hy.at_hop.mem hyr f hf

/-- Plinko tables are resilient: after `rounds` rounds a packet survives as many failed links,
with either mode of forwarding, unless they cut it off; and whatever links fail, its walk
ends. -/
theorem plinko_resilient {getShortestPath : ℕ → Adj V E → V → V → List E}
    (hsp : ∀ n, IsPathFinder (getShortestPath n)) (hdst : 0 < G.numhosts dst) (args : PlinkoArgs)
    (rnd : Rnd) (portno : ℕ) :
    ∃ fuel tbl, plinkoFwdtable fuel G args getShortestPath dst rnd = some tbl ∧
      (∀ F : Finset E, F.card ≤ args.rounds → ∀ src, 0 < G.numhosts src →
        (∃ path, G.Leads F src path dst) → ∃ fuel hops failExp,
          plinkoWalkPath fuel G tbl src dst portno F ∅ = some (some (hops ++ [portno]), failExp) ∧
          G.Leads F src hops dst) ∧
      ∀ (F : Finset E) (src : V), ∃ fuel r,
        plinkoWalkPath fuel G tbl src dst portno F ∅ = some r := by
  obtain ⟨fuel, tbl, hrun, T, hT, ht⟩ := exists_plinkoFwdtable hsp hdst args rnd
  have hwalk : ∀ (F : Finset E) (src : V), ∃ fuel o failExp,
      plinkoWalkPath fuel G tbl src dst portno F ∅ =
        some (o.map (fun hops => hops ++ [portno]), failExp) ∧
      (F.card ≤ args.rounds → 0 < G.numhosts src → (∃ path, G.Leads F src path dst) →
        ∃ hops, o = some hops ∧ G.Leads F src hops dst) := by
    intro F src
    obtain ⟨r, ⟨fuel, hfuel⟩, o, failExp, rfl, hend⟩ := entered_returns hT ht F src
    refine ⟨fuel, o, failExp, ?_, hend⟩
    rw [plinkoWalkPath, if_neg (Finset.notMem_empty _), hfuel]
    rfl
  refine ⟨fuel, tbl, hrun, fun F hroom src hhosts hpath => ?_, fun F src => ?_⟩
  · obtain ⟨fuel, o, failExp, hr, hend⟩ := hwalk F src
    obtain ⟨hops, rfl, hl⟩ := hend hroom hhosts hpath
    exact ⟨fuel, hops, failExp, hr, hl⟩
  · obtain ⟨fuel, o, failExp, hr, _⟩ := hwalk F src
    exact ⟨fuel, _, hr⟩

theorem plinko_resilient_doubleLink :
    ∃ fuel tbl, plinkoFwdtable fuel doubleLink ⟨1, .src, false, false⟩ (fun _ => bfsPath [0, 1]) 0
        (fun _ => 0) = some tbl ∧
      (∀ F : Finset (Fin 2), F.card ≤ 1 → ∀ src, 0 < doubleLink.numhosts src →
        (∃ path, doubleLink.Leads F src path 0) → ∃ fuel hops failExp,
          plinkoWalkPath fuel doubleLink tbl src 0 7 F ∅ =
            some (some (hops ++ [7]), failExp) ∧ doubleLink.Leads F src hops 0) ∧
      ∀ (F : Finset (Fin 2)) (src : Fin 2), ∃ fuel r,
        plinkoWalkPath fuel doubleLink tbl src 0 7 F ∅ = some r :=
  plinko_resilient (fun _ => isPathFinder_bfsPath (by decide)) (by decide)
    ⟨1, .src, false, false⟩ (fun _ => 0) 7

end ResSim
