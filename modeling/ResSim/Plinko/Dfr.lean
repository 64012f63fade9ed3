import ResSim.Plinko.Walk

/-!
# Deadlock-free Plinko routes

With `--dfr` a backup path must not take an arc that the packet came over. Paths that are used
again are checked for this. The path search is not: it builds the graph without these arcs
and then searches the graph without the failed links. Where no shortest path takes an arc
again, no packet leaves a switch twice through one port.
-/

namespace ResSim

variable {V E : Type} [DecidableEq V] [DecidableEq E] {G : PortGraph V E}

/-- A path takes no arc of the way that packets with the way back `rp` came. -/
def AvoidsHistory (v : V) (rp : List ℕ) (N : Path G) : Prop :=
  ∀ start fwd arcs, reversePath G v rp = some (start, fwd) → arcSet G start fwd = some arcs →
    ∀ a ∈ N.arcs, a ∉ arcs

/-- Every stored path avoids the failed links that it is for and the arcs of the way that its
packets came. -/
def PlinkoTable.AvoidsHistory (tbl : PlinkoTable G) : Prop :=
  ∀ v rp k N, ((v, rp, k), N) ∈ tbl →
    (∀ e ∈ N.edges, e ∉ N.failedE) ∧ ResSim.AvoidsHistory v rp N

/-- Whatever links fail, no packet takes an arc twice. -/
def PlinkoTable.ArcsOnce (tbl : PlinkoTable G) (dst : V) : Prop :=
  ∀ F src s, Loop.Reaches (plinkoWalkStep G tbl dst F ∅) ⟨[], [], src, false⟩ s →
    ∃ arcs, arcSet G src s.hops = some arcs ∧ arcs.Nodup

/-- At this step of the rounds a stored path can be used again, or no shortest path takes an arc
that the packet came over. -/
def Detours (args : PlinkoArgs) (dst : V) (s : BuildState G) (D : Finset E) (P : Path G) : Prop :=
  ∀ v rpath start fwd arcs, revpathAtFail G D P.v P.path = some (v, rpath) →
    reversePath G v (rpath ++ P.extraRPath) = some (start, fwd) →
    arcSet G start fwd = some arcs →
      (args.compressionAwareRouting ∧
        ∃ opath ∈ (s.fwdtable.atSwitch v).map Prod.snd, Usable args D arcs opath) ∨
      ∀ hops taken, ShortestHops G D v hops dst → arcSet G v hops = some taken →
        ∀ a ∈ taken, a ∉ arcs

variable {args : PlinkoArgs} {fwdRouting : FwdRouting} {S T : Set (Path G)}
  {kids : List (Path G)} {tbl : PlinkoTable G} {F D : Finset E} {src dst u v w : V}
  {rp hops : List ℕ} {e e' : E} {x y : Place G} {N P : Path G} {s : BuildState G}
  {arcs : List (V × E)} {getShortestPath : ℕ → Adj V E → V → V → List E}

/-- Every path of the forest avoids the arcs of the way that its packets came. -/
def Fresh (T : Set (Path G)) : Prop := ∀ B ∈ T, AvoidsHistory B.v B.extraRPath B

/-! ### Steps of the rounds -/

omit [DecidableEq E] in
lemma arcs_eq_of_edges {hops' : List ℕ} {arcs' : List (V × E)} (ha : arcSet G v hops = some arcs)
    (ha' : arcSet G v hops' = some arcs') (h : arcs.map Prod.snd = arcs'.map Prod.snd) :
    arcs = arcs' := by
  induction hops generalizing v arcs hops' arcs' with
  | nil =>
    obtain rfl := Option.some.inj ha
    exact (List.map_eq_nil_iff.mp h.symm).symm
  | cons hop hops ih =>
    obtain ⟨e, w, q, arcs₁, hhop, h₁, rfl⟩ := arcSet_cons.mp ha
    cases hops' with
    | nil =>
      obtain rfl := Option.some.inj ha'
      cases h
    | cons hop' hops' =>
      obtain ⟨e', w', q', arcs₂, hhop', h₂, rfl⟩ := arcSet_cons.mp ha'
      rw [List.map_cons, List.map_cons, List.cons.injEq] at h
      obtain ⟨rfl, h⟩ := h
      obtain ⟨rfl, rfl, rfl⟩ := PortGraph.hop_unique hhop hhop'
      rw [ih h₁ h₂ h]

open Classical in
lemma exists_pathFinder_eq {p : List E} (h : Shortest (upAdj G D) v p dst) :
    ∃ getShortestPath, IsPathFinder getShortestPath ∧
      getShortestPath (upAdj G D) v dst = p := by
  let prefers : Adj V E → V → V → List E := fun adj x y =>
    if adj = upAdj G D ∧ x = v ∧ y = dst then p else bfsPath G.verts adj x y
  refine ⟨prefers, ⟨fun adj x y hw => ?_, fun adj x y hno => ?_⟩, if_pos ⟨rfl, rfl, rfl⟩⟩
  · by_cases heq : adj = upAdj G D ∧ x = v ∧ y = dst
    · simp only [prefers, if_pos heq]
      obtain ⟨rfl, rfl, rfl⟩ := heq
      exact h
    · simp only [prefers, if_neg heq]
      exact (isPathFinder_bfsPath G.mem_verts).shortest adj x y hw
  · by_cases heq : adj = upAdj G D ∧ x = v ∧ y = dst
    · obtain ⟨rfl, rfl, rfl⟩ := heq
      exact absurd ⟨p, h.1⟩ hno
    · simp only [prefers, if_neg heq]
      exact (isPathFinder_bfsPath G.mem_verts).nil adj x y hno

/-- However ties are broken the search takes none of the arcs, iff no shortest path does: that
`--dfr` is given makes no difference. -/
theorem shortestPath_avoids_iff (hdst : 0 < G.numhosts dst) (hne : v ≠ dst) (dfr : Bool) :
    (∀ getShortestPath, IsPathFinder getShortestPath → ∀ N,
      shortestPath G getShortestPath (mygraphToIgraph G) v dst D rp dfr arcs = some (some N) →
        ∀ a ∈ N.arcs, a ∉ arcs) ↔
    ∀ hops taken, ShortestHops G D v hops dst → arcSet G v hops = some taken →
      ∀ a ∈ taken, a ∉ arcs := by
  constructor
  · intro hall hops taken hshort htaken a ha
    obtain ⟨search, hsp, heq⟩ := exists_pathFinder_eq (shortest_of_shortestHops hshort htaken)
    rcases shortestPath_spec rp hsp hdst hne dfr arcs with
      ⟨N, hN, hb, hedges, _⟩ | ⟨_, hno⟩
    · have hNarcs := N.arcSet_eq
      rw [hb.v_eq] at hNarcs
      rw [heq] at hedges
      rw [← arcs_eq_of_edges hNarcs htaken hedges] at ha
      exact hall search hsp N hN a ha
    · exact absurd ⟨_, edgeWalk_of_arcSet hshort.1 htaken⟩ hno
  · intro hall search hsp N hN a ha
    rcases shortestPath_spec rp hsp hdst hne dfr arcs with
      ⟨N', hN', hb, _, hshort⟩ | ⟨hnone, _⟩
    · obtain rfl := Option.some.inj (Option.some.inj (hN.symm.trans hN'))
      have hNarcs := N.arcSet_eq
      rw [hb.v_eq] at hNarcs
      exact hall N.fullPath N.arcs (shortestHops_of_shortest hb hshort) hNarcs a ha
    · rw [hN] at hnone
      cases hnone

lemma NewBackup.avoidsHistory (hdfr : args.dfr = true)
    (h : NewBackup args getShortestPath dst s D P N v rp arcs)
    (hok : Detours args dst s D P) : AvoidsHistory N.v N.extraRPath N := by
  intro start fwd arcs' hback harcs a ha
  obtain ⟨rpath, hfail, rfl⟩ := h.fail
  obtain ⟨start₀, fwd₀, hback₀, harcs₀⟩ := h.history
  rw [h.branch.v_eq, h.branch.extra_eq, hback₀, Option.some.injEq, Prod.mk.injEq] at hback
  obtain ⟨rfl, rfl⟩ := hback
  obtain rfl := Option.some.inj (harcs₀.symm.trans harcs)
  cases h.found with
  | reused opath _ _ hus heq =>
    rw [heq] at ha
    exact hus.2 hdfr a ha
  | searched _ hnone _ hshort =>
    rcases hok v rpath start₀ fwd₀ arcs hfail hback₀ harcs₀ with ⟨hc, opath, hin, hus⟩ | hfree
    · exact absurd hus (hnone hc opath hin)
    · have hN := N.arcSet_eq
      rw [h.branch.v_eq] at hN
      exact hfree N.fullPath N.arcs (shortestHops_of_shortest h.branch hshort) hN a ha

lemma Fresh.grows {T' : Set (Path G)} (hT : Fresh T) (hdfr : args.dfr = true)
    (h : Grows args getShortestPath dst s T T')
    (hok : ∀ D P todo, s.todo = (D, P) :: todo → Detours args dst s D P) : Fresh T' := by
  rcases h with rfl | ⟨D, P, todo, N, v, rp, arcs, htodo, rfl, hN⟩
  · exact hT
  · rintro B (rfl | hB)
    · exact hN.avoidsHistory hdfr (hok D P todo htodo)
    · exact hT B hB

omit [DecidableEq E] in
lemma fresh_of_roots (h : ∀ B ∈ T, B.extraRPath = []) : Fresh T := by
  intro B hB start fwd arcs hback harcs a _
  rw [h B hB] at hback
  obtain ⟨rfl, rfl⟩ := Prod.mk.inj (Option.some.inj hback)
  obtain rfl := Option.some.inj harcs
  exact List.not_mem_nil

/-! ### From the forest to its hops -/

omit [DecidableEq E] in
/-- The arcs of a packet at a hop, and those of the rest of the path. -/
lemma Place.At.arcs_before (hx : x.At T u rp e)
    (hT : ∀ B ∈ T, ∃ start fwd, reversePath G B.v B.extraRPath = some (start, fwd)) :
    ∃ start fwd before pre rest, reversePath G u rp = some (start, fwd) ∧
      arcSet G start fwd = some (before ++ pre) ∧ x.branch.arcs = pre ++ rest ∧
      arcSet G u (x.hop :: x.post) = some rest ∧
      (AvoidsHistory x.branch.v x.branch.extraRPath x.branch → ∀ a ∈ x.branch.arcs, a ∉ before) := by
  obtain ⟨r, hr, rfl⟩ := hx.back
  obtain ⟨start, fwd, hB⟩ := hT _ hx.mem
  have hfwd := reversePath_reverse hB
  obtain ⟨before, hbefore⟩ := exists_arcSet hfwd
  have harcs := x.branch.arcSet_eq
  rw [hx.split, arcSet_append hr] at harcs
  obtain ⟨pre, rest, hpre, hrest, heq⟩ := harcs
  refine ⟨start, fwd ++ x.pre, before, pre, rest,
    reversePath_append.mpr ⟨_, x.pre, fwd, reversePath_reverse hr, hB, rfl⟩,
    (arcSet_append hfwd).mpr ⟨before, pre, hbefore, hpre, rfl⟩, heq, hrest, fun h => ?_⟩
  exact h start fwd before hB hbefore

/-- What a packet at a hop has crossed and what it has before it on the path are disjoint. -/
lemma Place.At.disjoint_rest (hx : x.At T u rp e) (hT : RootedForest dst T) (hfresh : Fresh T) :
    ∃ start fwd arcs rest, reversePath G u rp = some (start, fwd) ∧
      arcSet G start fwd = some arcs ∧ arcSet G u (x.hop :: x.post) = some rest ∧
      rest.Nodup ∧ ∀ a ∈ rest, a ∉ arcs := by
  obtain ⟨start, fwd, before, pre, rest, hback, harcs, heq, hrest, havoid⟩ :=
    hx.arcs_before hT.history
  have hnodup : x.branch.arcs.Nodup := List.Nodup.of_map _ (hT.branch _ hx.mem).nodup
  have hdisj := havoid (hfresh _ hx.mem)
  rw [heq] at hnodup hdisj
  obtain ⟨_, hrestnodup, hsep⟩ := List.nodup_append'.mp hnodup
  refine ⟨start, fwd, before ++ pre, rest, hback, harcs, hrest, hrestnodup, fun a ha hin => ?_⟩
  rcases List.mem_append.mp hin with hin | hin
  · exact hdisj a (List.mem_append_right _ ha) hin
  · exact hsep hin ha

theorem TableOf.avoidsHistory (ht : TableOf fwdRouting T tbl) (hT : RootedForest dst T)
    (hfresh : Fresh T) : tbl.AvoidsHistory := by
  intro v rp k N hin
  refine ⟨fun e he => N.not_mem_failedE he, fun start fwd arcs hback harcs a ha => ?_⟩
  obtain ⟨x, hx, _, hst⟩ := ht.exists_place hin
  obtain ⟨start', fwd', arcs', rest, hback', harcs', hrest, _, hdisj⟩ :=
    hx.disjoint_rest hT hfresh
  obtain ⟨rfl, rfl⟩ := Prod.mk.inj (Option.some.inj (hback'.symm.trans hback))
  obtain rfl := Option.some.inj (harcs'.symm.trans harcs)
  have hN := N.arcSet_eq
  rw [hst.v_eq, hst.full_eq, hrest, Option.some.injEq] at hN
  exact hdisj a (hN ▸ ha)

/-! ### Steps of a packet -/

/-- The way of a packet: the way back turns it around, and it takes no arc twice. -/
structure ArcsSoFar (src : V) (s : PlinkoWalk V) (arcs : List (V × E)) : Prop where
  back : reversePath G src s.hops = some (s.v, s.rp)
  arcs_eq : arcSet G src s.hops = some arcs
  nodup : arcs.Nodup

lemma WalkStep.arcsSoFar {s s' : PlinkoWalk V} (hT : RootedForest dst T) (hfresh : Fresh T)
    (hs : ArcsSoFar (G := G) src s arcs) (h : WalkStep fwdRouting T tbl F dst s y e s') :
    ∃ arcs', ArcsSoFar (G := G) src s' arcs' := by
  obtain ⟨_, _, _, hy⟩ := h.matching
  obtain ⟨k, nrp, hf, hhops, hrp⟩ := h.followed
  obtain ⟨start, fwd, arcs₀, rest, hback, harcs, hrest, hnodup, hdisj⟩ :=
    hy.at_hop.disjoint_rest hT hfresh
  rw [reversePath_reverse hs.back, Option.some.injEq, Prod.mk.injEq] at hback
  obtain ⟨rfl, rfl⟩ := hback
  obtain rfl := Option.some.inj (hs.arcs_eq.symm.trans harcs)
  -- the hops just made are the first of the rest of the path
  obtain ⟨more, hmore⟩ := hf.prefix_of
  rw [hmore, arcSet_append hf.back] at hrest
  obtain ⟨new, left, hnew, _, rfl⟩ := hrest
  obtain ⟨hnewnodup, _, _⟩ := List.nodup_append'.mp hnodup
  refine ⟨arcs ++ new, ?_, ?_, ?_⟩
  · rw [hhops, hrp]
    exact reversePath_append.mpr ⟨s.v, s.rp, nrp, hs.back, hf.back, rfl⟩
  · rw [hhops, arcSet_append hs.back]
    exact ⟨arcs, new, hs.arcs_eq, hnew, rfl⟩
  · refine List.nodup_append'.mpr ⟨hs.nodup, hnewnodup, fun a ha hin => ?_⟩
    exact hdisj a (List.mem_append_left _ hin) ha

theorem TableOf.arcsOnce (ht : TableOf fwdRouting T tbl) (hT : RootedForest dst T)
    (hfresh : Fresh T) : tbl.ArcsOnce dst := by
  intro F src s hr
  have hrv : ∀ B ∈ T, B.rv = dst := fun B hB => (hT.branch B hB).rv_eq
  have hinv : ∃ arcs, ArcsSoFar (G := G) src s arcs := by
    refine hr.invariant (fun s => ∃ arcs, ArcsSoFar (G := G) src s arcs) ?_
      ⟨[], rfl, rfl, List.nodup_nil⟩
    rintro s s' ⟨arcs, hs⟩ hn
    obtain ⟨_, y, e, hstep⟩ := walkStep_of_next ht hT.toBackupForest hrv hn
    exact hstep.arcsSoFar hT hfresh hs
  obtain ⟨arcs, hs⟩ := hinv
  exact ⟨arcs, hs.arcs_eq, hs.nodup⟩

/-! ### Runs -/

/-- With `--dfr` no packet takes an arc twice, provided that every step of the rounds can use a
stored path again or has no shortest path over an arc that the packet came over. -/
theorem plinko_dfr_arcs_once (hsp : ∀ n, IsPathFinder (getShortestPath n))
    (hdst : 0 < G.numhosts dst) (args : PlinkoArgs) (hdfr : args.dfr = true) (rnd : Rnd)
    (hok : ∀ s₀ s, plinkoInit G args getShortestPath dst rnd = some s₀ →
      Loop.Reaches (plinkoStep G args getShortestPath dst) s₀ s →
      ∀ D P todo, s.todo = (D, P) :: todo → Detours args dst s D P) :
    (∀ s₀ s, plinkoInit G args getShortestPath dst rnd = some s₀ →
      Loop.Reaches (plinkoStep G args getShortestPath dst) s₀ s →
      s.fwdtable.AvoidsHistory ∧ s.fwdtable.ArcsOnce dst) ∧
    ∃ fuel tbl, plinkoFwdtable fuel G args getShortestPath dst rnd = some tbl ∧
      tbl.AvoidsHistory ∧ tbl.ArcsOnce dst := by
  have hstates : ∀ s₀ s, plinkoInit G args getShortestPath dst rnd = some s₀ →
      Loop.Reaches (plinkoStep G args getShortestPath dst) s₀ s →
      s.fwdtable.AvoidsHistory ∧ s.fwdtable.ArcsOnce dst := by
    intro s₀ s hinit hr
    obtain ⟨s₁, kids, hinit', hi, hinv⟩ := plinkoInit_spec (G := G) hsp args rnd
    obtain rfl := Option.some.inj (hinit.symm.trans hinit')
    have hroots : Fresh (pathsOf ∅ kids) := by
      refine fresh_of_roots (fun B hB => hinv.forest.root B hB ?_)
      rcases hB with hB | hB
      · exact absurd hB (Set.notMem_empty B)
      · exact Finset.card_eq_zero.mp ((hinv.card_kid B hB).trans hi)
    obtain ⟨S, kids', hinv', hfresh⟩ := reaches_roundInv hsp hdst Fresh ⟨kids, hinv, hroots⟩
      (fun s T T' hreach hT hg => hT.grows hdfr hg (hok s₀ s hinit hreach)) hr
    exact ⟨hinv'.table.avoidsHistory hinv'.forest hfresh, hinv'.table.arcsOnce hinv'.forest hfresh⟩
  obtain ⟨s₀, s, fuel, hinit, hr, hrun⟩ := exists_last_state hsp hdst args rnd
  exact ⟨hstates, fuel, s.fwdtable, hrun, hstates s₀ s hinit hr⟩

omit [DecidableEq E] in
/-- Where a path crosses an arc, the rest of it starts at the other end. -/
lemma leads_after_arc (h : G.Leads D v hops dst) (ha : arcSet G v hops = some arcs)
    (hin : (u, e) ∈ arcs) : ∃ p w q rest, G.hop u p = some (e, w, q) ∧ G.Leads D w rest dst ∧
      rest.length < hops.length := by
  induction hops generalizing v arcs with
  | nil =>
    obtain rfl := Option.some.inj ha
    cases hin
  | cons hop hops ih =>
    obtain ⟨e₁, w₁, q₁, hhop, _, hleads⟩ := h
    obtain ⟨e₂, w₂, q₂, arcs₁, hhop', ha₁, rfl⟩ := arcSet_cons.mp ha
    obtain ⟨rfl, rfl, rfl⟩ := PortGraph.hop_det hhop hhop'
    rcases List.mem_cons.mp hin with heq | hin
    · obtain ⟨rfl, rfl⟩ := Prod.mk.inj heq
      exact ⟨hop, w₁, q₁, hops, hhop, hleads, Nat.lt_succ_self _⟩
    · obtain ⟨p, w, q, rest, hhop₀, hrest, hlt⟩ := ih hleads ha₁ hin
      exact ⟨p, w, q, rest, hhop₀, hrest, Nat.lt_succ_of_lt hlt⟩

/-- A packet that came over one hop cannot be sent over it again: a shortest path does not
come back to where it starts. -/
lemma detours_of_short (h : ∀ v rpath, revpathAtFail G D P.v P.path = some (v, rpath) →
    (rpath ++ P.extraRPath).length ≤ 1) : Detours args dst s D P := by
  intro v rpath start fwd arcs hfail hback harcs
  have hlen := h v rpath hfail
  refine .inr fun hops taken hshort htaken a ha hin => ?_
  cases hrp : rpath ++ P.extraRPath with
  | nil =>
    rw [hrp] at hback
    obtain ⟨rfl, rfl⟩ := Prod.mk.inj (Option.some.inj hback)
    obtain rfl := Option.some.inj harcs
    cases hin
  | cons hop rest =>
    rw [hrp] at hback hlen
    obtain rfl := List.length_eq_zero_iff.mp (Nat.le_zero.mp (Nat.le_of_succ_le_succ hlen))
    obtain ⟨e, w, q, r, hhop, hr, rfl⟩ := reversePath_cons.mp hback
    obtain ⟨rfl, rfl⟩ := Prod.mk.inj (Option.some.inj hr)
    obtain ⟨e', w', q', arcs', hhop', ha', rfl⟩ := arcSet_cons.mp harcs
    obtain rfl := Option.some.inj ha'
    obtain ⟨rfl, rfl, rfl⟩ := PortGraph.hop_det hhop' (PortGraph.hop_symm hhop)
    rw [List.mem_singleton.mp hin] at ha
    obtain ⟨p, w, q₀, rest, hhop₀, hrest, hlt⟩ := leads_after_arc hshort.1 htaken ha
    obtain ⟨_, rfl, _⟩ := PortGraph.hop_unique hhop₀ hhop'
    exact Nat.not_le.mpr hlt (hshort.2 rest hrest)

/-- The ends of the links of `rejoinGraph`. -/
def rejoinEnds : Fin 7 → Fin 6 × Fin 6
  | 0 => (0, 1)
  | 1 => (1, 5)
  | 2 => (0, 2)
  | 3 => (2, 5)
  | 4 => (1, 3)
  | 5 => (3, 4)
  | 6 => (4, 5)

/-- A source 0 and a destination 5 joined through 1 and through 2, and a longer way from 1
through 3 and 4. The port of a link has its number at both ends. -/
def rejoinGraph : PortGraph (Fin 6) (Fin 7) :=
  PortGraph.ofFinLinks (fun e => (rejoinEnds e).1) (fun e => e.val) (fun e => (rejoinEnds e).2)
    (fun e => e.val) (fun v => if v = 0 ∨ v = 5 then 1 else 0) (by decide) (by decide)

/-- One round of `--dfr` on `rejoinGraph`: the way back is one hop where link 1 fails. -/
lemma detours_rejoin (s₀ s : BuildState rejoinGraph)
    (hinit : plinkoInit rejoinGraph ⟨1, .src, false, true⟩ (fun _ => bfsPath [0, 1, 2, 3, 4, 5]) 5
      (fun _ => 0) = some s₀)
    (hr : Loop.Reaches (plinkoStep rejoinGraph ⟨1, .src, false, true⟩
      (fun _ => bfsPath [0, 1, 2, 3, 4, 5]) 5) s₀ s) (D : Finset (Fin 7)) (P : Path rejoinGraph)
    (todo : List (Finset (Fin 7) × Path rejoinGraph)) (htodo : s.todo = (D, P) :: todo) :
    Detours ⟨1, .src, false, true⟩ 5 s D P := by
  have hcheck : (plinkoInit rejoinGraph ⟨1, .src, false, true⟩
      (fun _ => bfsPath [0, 1, 2, 3, 4, 5]) 5 (fun _ => 0)).all (fun s₀ =>
        (Loop.run (plinkoStep rejoinGraph ⟨1, .src, false, true⟩
          (fun _ => bfsPath [0, 1, 2, 3, 4, 5]) 5) 8 s₀).isSome &&
        (Loop.states (plinkoStep rejoinGraph ⟨1, .src, false, true⟩
          (fun _ => bfsPath [0, 1, 2, 3, 4, 5]) 5) 8 s₀).all (fun s => s.todo.all (fun a =>
            (revpathAtFail rejoinGraph a.1 a.2.v a.2.path).all
              (fun x => (x.2 ++ a.2.extraRPath).length ≤ 1)))) = true := by
    decide +kernel
  rw [hinit, Option.all_some, Bool.and_eq_true] at hcheck
  obtain ⟨hrun, hall⟩ := hcheck
  have hs := List.all_eq_true.mp hall s (hr.mem_states hrun)
  rw [htodo, List.all_cons, Bool.and_eq_true] at hs
  refine detours_of_short (fun v rpath hfail => ?_)
  have h := hs.1
  rw [hfail, Option.all_some, decide_eq_true_iff] at h
  exact h

theorem plinko_dfr_arcs_once_rejoin :
    (∀ s₀ s, plinkoInit rejoinGraph ⟨1, .src, false, true⟩ (fun _ => bfsPath [0, 1, 2, 3, 4, 5]) 5
        (fun _ => 0) = some s₀ →
      Loop.Reaches (plinkoStep rejoinGraph ⟨1, .src, false, true⟩
        (fun _ => bfsPath [0, 1, 2, 3, 4, 5]) 5) s₀ s →
      s.fwdtable.AvoidsHistory ∧ s.fwdtable.ArcsOnce 5) ∧
    ∃ fuel tbl, plinkoFwdtable fuel rejoinGraph ⟨1, .src, false, true⟩
        (fun _ => bfsPath [0, 1, 2, 3, 4, 5]) 5 (fun _ => 0) = some tbl ∧
      tbl.AvoidsHistory ∧ tbl.ArcsOnce 5 :=
  plinko_dfr_arcs_once (fun _ => isPathFinder_bfsPath (by decide)) (by decide)
    ⟨1, .src, false, true⟩ rfl (fun _ => 0) detours_rejoin

/-! ### An arc taken twice -/

/-- With links 1 and 3 down the packet comes back to switch 0 and leaves it over link 0 again. -/
lemma rejoin_run :
    (plinkoFwdtable 20 rejoinGraph ⟨2, .src, false, true⟩ (fun _ => bfsPath [0, 1, 2, 3, 4, 5]) 5
      (fun _ => 0)).map (fun tbl =>
        ((tbl.find? (fun x => x.1 = (2, [2, 0, 0], 2, {3}))).map (fun x => x.2.arcs),
          plinkoWalkPath 5 rejoinGraph tbl 0 5 8 {1, 3} ∅)) =
      some (some [(2, 2), (0, 0), (1, 4), (3, 5), (4, 6)],
        some (some [0, 0, 2, 2, 0, 4, 5, 6, 8], true)) := by
  decide +kernel

/-- Two rounds of `--dfr` store a path that takes an arc that its packets came over, and a
packet takes the arc twice. -/
theorem plinko_dfr_arc_twice :
    ∃ fuel tbl, plinkoFwdtable fuel rejoinGraph ⟨2, .src, false, true⟩
        (fun _ => bfsPath [0, 1, 2, 3, 4, 5]) 5 (fun _ => 0) = some tbl ∧
      ¬ tbl.AvoidsHistory ∧ ¬ tbl.ArcsOnce 5 := by
  obtain ⟨tbl, htbl, heq⟩ := Option.map_eq_some_iff.mp rejoin_run
  obtain ⟨hfind, hwalk⟩ := Prod.mk.inj heq
  refine ⟨20, tbl, htbl, fun havoid => ?_, fun honce => ?_⟩
  · obtain ⟨⟨k, N⟩, hentry, harcs⟩ := Option.map_eq_some_iff.mp hfind
    have hk : k = (2, [2, 0, 0], 2, {3}) := by simpa using List.find?_some hentry
    dsimp only at harcs
    subst hk
    have hin := List.mem_of_find?_eq_some hentry
    have h := (havoid 2 [2, 0, 0] (2, {3}) N hin).2 0 [0, 0, 2] [(0, 0), (1, 0), (0, 2)]
      (by decide) (by decide) (0, 0) (by rw [harcs]; decide)
    exact h (by decide)
  · have hwalk' : plinkoWalkPath 5 rejoinGraph tbl 0 5 8 {1, 3} ∅ =
        some (some ([0, 0, 2, 2, 0, 4, 5, 6] ++ [8]), true) := hwalk
    obtain ⟨s, hr, hhops⟩ := exists_reached_of_walk hwalk'
    obtain ⟨arcs, harcs, hnodup⟩ := honce _ _ s hr
    have hroute : arcSet rejoinGraph 0 [0, 0, 2, 2, 0, 4, 5, 6] =
        some [(0, 0), (1, 0), (0, 2), (2, 2), (0, 0), (1, 4), (3, 5), (4, 6)] := by decide
    rw [hhops, hroute, Option.some.injEq] at harcs
    subst harcs
    revert hnodup
    decide

end ResSim
