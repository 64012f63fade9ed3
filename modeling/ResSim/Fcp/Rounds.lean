import Mathlib.Data.Prod.Lex
import Mathlib.Order.RelClasses
import ResSim.Fcp.Tree
import ResSim.Lib.Traverse

/-!
# The rounds of FCP

As long as every new path can be stored the rounds go on, and they leave a table in which every
hop of a path has a backup for its link, unless the failed links cut the switch off.
-/

namespace ResSim

variable {V E : Type} [DecidableEq V] [DecidableEq E] {G : PortGraph V E}

/-- The paths of the rounds: first paths, and backup paths for hops of earlier paths. -/
structure FcpForest (dst : V) (T : Set (FcpPath G)) : Prop where
  branch : ∀ N ∈ T, IsFcpBranch dst N
  history : ∀ N ∈ T, ∃ start fwd, reversePath G N.v N.extraRPath = some (start, fwd)
  parent : ∀ N ∈ T, N.failedE = ∅ ∨ ∃ P ∈ T, ∃ x, P.Makes x ∧ x.v = N.v ∧
    x.label = N.firsthopE ∧ N.failedE = insert x.link P.failedE
  exists_root : ∀ v, 0 < G.numhosts v → v ≠ dst → ∃ N ∈ T, N.v = v ∧ N.failedE = ∅

/-- A backup path for the hop `x`, where the failed links leave a way to the destination. -/
def FcpCovered (dst : V) (T : Set (FcpPath G)) (N : FcpPath G) (x : FcpHop V E) : Prop :=
  (∃ p, EdgeWalk (upAdj G (insert x.link N.failedE)) x.v p dst) →
    ∃ C ∈ T, C.v = x.v ∧ C.firsthopE = x.label ∧ C.failedE = insert x.link N.failedE

/-- A path with one of its links, as the rounds store it. -/
def IsDep (a : Finset E × FcpPath G) : Prop := ∃ e ∈ a.2.edges, a.1 = insert e a.2.failedE

/-- Invariant of the rounds. `S` are the paths of earlier rounds and `kids` those that this
round added. -/
structure FcpInv (args : PlinkoArgs) (dst : V) (S kids : Set (FcpPath G)) (s : FcpState G) :
    Prop where
  forest : FcpForest dst (S ∪ kids)
  table : FcpTableOf (S ∪ kids) s.tables
  i_le : s.i ≤ args.rounds
  card_kid : ∀ N ∈ kids, N.failedE.card = s.i
  trees : ∀ N ∈ S ∪ kids, N.failedE ∈ s.fwdTrees
  next : ∀ a, a ∈ dictPairs s.nextdep ↔ a.2 ∈ kids ∧ IsDep a
  todo : ∀ a ∈ s.todo, a.2 ∈ S ∧ a.2.failedE.card + 1 = s.i ∧ IsDep a
  covered : ∀ N ∈ S, ∀ x, N.Makes x →
    (insert x.link N.failedE, N) ∈ s.todo ∨ FcpCovered dst (S ∪ kids) N x

variable {args : PlinkoArgs} {dst u v w : V} {S T kids : Set (FcpPath G)} {s s' : FcpState G}
  {N P : FcpPath G} {D K : Finset E} {x y : FcpHop V E} {e : E} {t : FcpTables G}
  {todo : List (Finset E × FcpPath G)} {getShortestPath : ℕ → Adj V E → V → V → List E}

lemma FcpCovered.mono {T' : Set (FcpPath G)} (h : FcpCovered dst T N x) (hsub : T ⊆ T') :
    FcpCovered dst T' N x := by
  intro hw
  obtain ⟨C, hC, hrest⟩ := h hw
  exact ⟨C, hsub hC, hrest⟩

/-! ### One backup path -/

lemma IsDep.exists_makes (hdep : IsDep (D, P)) :
    ∃ x, P.Makes x ∧ D = insert x.link P.failedE := by
  obtain ⟨e, he, hD⟩ := hdep
  obtain ⟨x, hx, rfl⟩ := exists_onRoute P.arcSet_eq he
  exact ⟨x, hx, hD⟩

/-- A new child of a path for the hop `x`. -/
structure IsFcpChild (dst : V) (P : FcpPath G) (x : FcpHop V E) (N : FcpPath G) : Prop where
  branch : IsFcpBranch dst N
  history : ∃ start fwd, reversePath G N.v N.extraRPath = some (start, fwd)
  v_eq : N.v = x.v
  label_eq : N.firsthopE = x.label
  failedE_eq : N.failedE = insert x.link P.failedE

lemma IsFcpChild.sameStart {N' : FcpPath G} (h : IsFcpChild dst P x N) (hN' : SameStart N N')
    (hb : IsFcpBranch dst N') : IsFcpChild dst P x N' := by
  refine ⟨hb, ?_, hN'.v_eq.trans h.v_eq, hN'.firsthopE_eq.trans h.label_eq,
    hN'.failedE_eq.trans h.failedE_eq⟩
  rw [hN'.v_eq, hN'.extra_eq]
  exact h.history

omit [DecidableEq V] in
/-- At the switch of a failed hop, the links that the packet knows to have failed. -/
lemma union_localFailedE_of_edge {port : ℕ} (he : G.edges v port = some e) :
    K ∪ (localFailedE G (insert e K) v).toFinset = insert e K := by
  ext f
  rw [Finset.mem_union, mem_localFailedE_toFinset, Finset.mem_insert]
  constructor
  · rintro (hf | ⟨hf, _⟩)
    · exact .inr hf
    · exact hf
  · rintro (rfl | hf)
    · exact .inr ⟨.inl rfl, port, he⟩
    · exact .inl hf

omit [DecidableEq V] in
lemma label_union_localFailedE {port : ℕ} {A : Finset E} (he : G.edges v port = some e)
    (hA : A ∪ (localFailedE G K v).toFinset = K) :
    A ∪ (localFailedE G (insert e K) v).toFinset = insert e K := by
  ext f
  rw [Finset.mem_union, mem_localFailedE_toFinset, Finset.mem_insert]
  constructor
  · rintro (hf | ⟨hf, _⟩)
    · exact .inr (hA ▸ Finset.mem_union_left _ hf)
    · exact hf
  · rintro (rfl | hf)
    · exact .inr ⟨.inl rfl, port, he⟩
    · rw [← hA, Finset.mem_union, mem_localFailedE_toFinset] at hf
      rcases hf with hf | ⟨hf, hport⟩
      · exact .inl hf
      · exact .inr ⟨.inr hf, hport⟩

variable (hsp : ∀ n, IsPathFinder (getShortestPath n)) (hdst : 0 < G.numhosts dst)

include hsp hdst in
/-- The path search finds a child for a hop whose link fails, unless the switch is cut off. -/
theorem fcpNewPath_spec (hP : IsFcpBranch dst P) (hx : P.Makes x)
    (hhist : ∃ start fwd, reversePath G P.v P.extraRPath = some (start, fwd))
    (hi : P.failedE.card + 1 = s.i) (htrees : P.failedE ∈ s.fwdTrees) (dfr : Bool) :
    (∃ N, fcpNewPath G dfr getShortestPath dst s (insert x.link P.failedE) P = some (some N) ∧
      IsFcpChild dst P x N) ∨
    (fcpNewPath G dfr getShortestPath dst s (insert x.link P.failedE) P = some none ∧
      ¬ ∃ p, EdgeWalk (upAdj G (insert x.link P.failedE)) x.v p dst) := by
  obtain ⟨post, hfrom, _⟩ := OnRoute.rest hx hP.shortest
  obtain ⟨r, fwd, hfail, hback⟩ := OnRoute.at_fail hx hP.shortest
  rw [← hP.branch.path_eq] at hfail
  obtain ⟨start, fwd', hhist⟩ := hhist
  have hhist' : reversePath G x.v (r ++ P.extraRPath) = some (start, fwd' ++ fwd) :=
    reversePath_append.mpr ⟨P.v, fwd, fwd', hback, hhist, rfl⟩
  obtain ⟨arcs, harcs⟩ := exists_arcSet (reversePath_reverse hhist')
  have hknown := union_localFailedE_of_edge (K := P.failedE) hfrom.edge
  have hcard : (insert x.link P.failedE).card = P.failedE.card + 1 :=
    Finset.card_insert_of_notMem hfrom.up
  have hne : x.v ≠ dst := by
    intro hv
    have hle := hfrom.shortest.2 [] hv
    simp at hle
  have hlabel : (if x.v = P.firsthopV then P.firsthopE else P.failedE) = x.label := by
    rw [hP.firsthop, OnRoute.label_cases hx hP.shortest]
  have hrun : fcpNewPath G dfr getShortestPath dst s (insert x.link P.failedE) P =
      (shortestPath G (getShortestPath (s.rnd 0)) (mygraphToIgraph G) x.v dst
        (insert x.link P.failedE) (r ++ P.extraRPath) dfr arcs).bind (fun newpath =>
          some (newpath.map (fun newpath => FcpPath.mk newpath x.v x.label))) := by
    simp only [fcpNewPath, guard, if_pos (hcard.trans hi), hfail, hknown, if_pos hcard.symm,
      hhist', if_pos htrees, harcs, if_pos hP.branch.rv_eq, Option.bind_eq_bind,
      Option.bind_some, hlabel]
    rw [hP.branch.rv_eq]
    rfl
  rw [hrun]
  rcases shortestPath_spec (r ++ P.extraRPath) (hsp (s.rnd 0)) hdst hne dfr arcs with
    ⟨N, hN, hb, _, hshort⟩ | ⟨hN, hcut⟩
  · left
    have hlabel' := OnRoute.known hx hP.shortest hP.label
    rw [hfrom.down_eq] at hlabel'
    refine ⟨⟨N, x.v, x.label⟩, by rw [hN]; rfl, ⟨?_, ?_, hb.v_eq.symm, ?_⟩, ?_, hb.v_eq, rfl,
      hb.failedE_eq⟩
    · rw [hb.v_eq, hb.failedE_eq, hb.extra_eq]
      exact hb
    · rw [hb.v_eq, hb.failedE_eq]
      exact shortestHops_of_shortest hb hshort
    · rw [hb.v_eq, hb.failedE_eq]
      exact label_union_localFailedE hfrom.edge hlabel'
    · rw [hb.v_eq, hb.extra_eq]
      exact ⟨start, _, hhist'⟩
  · exact .inr ⟨by rw [hN]; rfl, hcut⟩

/-- The new path of a pass, if there is one, can be stored. -/
def FcpSpliceOk (G : PortGraph V E) (dfr : Bool)
    (getShortestPath : ℕ → Adj V E → V → V → List E) (dst : V) (s : FcpState G) : Prop :=
  ∀ D P todo N, s.todo = (D, P) :: todo →
    fcpNewPath G dfr getShortestPath dst s D P = some (some N) →
      SpliceOk s.tables N.failedE N.failedE N.firsthopE N.v N.path

/-! ### Growing the paths -/

lemma FcpForest.add (h : FcpForest dst T) (hP : P ∈ T) (hx : P.Makes x)
    (hN : IsFcpChild dst P x N) : FcpForest dst (insert N T) := by
  refine ⟨?_, ?_, ?_, fun v hv hne => ?_⟩
  · rintro B (rfl | hB)
    · exact hN.branch
    · exact h.branch B hB
  · rintro B (rfl | hB)
    · exact hN.history
    · exact h.history B hB
  · rintro B (rfl | hB)
    · exact .inr ⟨P, Set.mem_insert_of_mem _ hP, x, hx, hN.v_eq.symm, hN.label_eq.symm,
        hN.failedE_eq⟩
    · refine (h.parent B hB).imp_right ?_
      rintro ⟨Q, hQ, y, hy⟩
      exact ⟨Q, Set.mem_insert_of_mem _ hQ, y, hy⟩
  · obtain ⟨B, hB, hroot⟩ := h.exists_root v hv hne
    exact ⟨B, Set.mem_insert_of_mem _ hB, hroot⟩

/-- The hop at which a link of a path fails is covered, and the others are as before. -/
lemma FcpInv.covered_of_head (h : FcpInv args dst S kids s) (htodo : s.todo = (D, P) :: todo)
    (hx : P.Makes x) (hD : D = insert x.link P.failedE) (hsub : S ∪ kids ⊆ T)
    (hcov : FcpCovered dst T P x) (hN : N ∈ S) (hy : N.Makes y) :
    (insert y.link N.failedE, N) ∈ todo ∨ FcpCovered dst T N y := by
  rcases h.covered N hN y hy with hin | hold
  · rw [htodo, List.mem_cons, Prod.mk.injEq] at hin
    rcases hin with ⟨hfail, rfl⟩ | hin
    · right
      have hs := (h.forest.branch N (.inl hN)).shortest
      obtain ⟨_, hfx, _⟩ := OnRoute.rest hx hs
      obtain ⟨_, hfy, _⟩ := OnRoute.rest hy hs
      have hlink : y.link = x.link := by
        have hmem : y.link ∈ insert x.link N.failedE := by
          rw [← hD, ← hfail]
          exact Finset.mem_insert_self ..
        exact (Finset.mem_insert.mp hmem).resolve_right hfy.up
      obtain ⟨hv, hlabel⟩ := OnRoute.eq_of_link hy hx hs hlink
      rw [FcpCovered, hlink, hv, hlabel]
      exact hcov
    · exact .inl hin
  · exact .inr (hold.mono hsub)

lemma FcpInv.grow (h : FcpInv args dst S kids s) (htodo : s.todo = (D, P) :: todo)
    (hx : P.Makes x) (hD : D = insert x.link P.failedE) (hN : IsFcpChild dst P x N)
    (htable : FcpTableOf (insert N (S ∪ kids)) t)
    {deps : List (Finset E × List (FcpPath G))} (hdeps : ∀ a, a ∈ dictPairs deps ↔
      a ∈ dictPairs s.nextdep ∨ a.2 = N ∧ IsDep a)
    {fwdTrees : List (Finset E)} (htrees : D ∈ fwdTrees) (hold : s.fwdTrees ⊆ fwdTrees)
    (rnd : Rnd) :
    FcpInv args dst S (insert N kids)
      { s with todo, tables := t, nextdep := deps, fwdTrees, rnd } := by
  obtain ⟨⟨hP, hcard, _⟩, hrest⟩ := List.forall_mem_cons.mp (htodo ▸ h.todo)
  dsimp only at hP hcard
  obtain ⟨_, hfrom, _⟩ := OnRoute.rest hx (h.forest.branch P (.inl hP)).shortest
  have hT : S ∪ insert N kids = insert N (S ∪ kids) := Set.union_insert
  refine ⟨?_, ?_, h.i_le, ?_, ?_, ?_, hrest, fun B hB y hy => ?_⟩
  · rw [hT]
    exact h.forest.add (.inl hP) hx hN
  · rw [hT]
    exact htable
  · rintro B (rfl | hB)
    · rw [hN.failedE_eq, Finset.card_insert_of_notMem hfrom.up]
      exact hcard
    · exact h.card_kid B hB
  · rw [hT]
    rintro B (rfl | hB)
    · rw [hN.failedE_eq, ← hD]
      exact htrees
    · exact hold (h.trees B hB)
  · intro a
    rw [hdeps, h.next, Set.mem_insert_iff, or_and_right, or_comm]
  · rw [hT]
    refine h.covered_of_head htodo hx hD (Set.subset_insert _ _) (fun _ => ?_) hB hy
    exact ⟨N, Set.mem_insert _ _, hN.v_eq, hN.label_eq, hN.failedE_eq⟩

lemma FcpInv.skip (h : FcpInv args dst S kids s) (htodo : s.todo = (D, P) :: todo)
    (hx : P.Makes x) (hD : D = insert x.link P.failedE)
    (hcut : ¬ ∃ p, EdgeWalk (upAdj G (insert x.link P.failedE)) x.v p dst)
    {fwdTrees : List (Finset E)} (hold : s.fwdTrees ⊆ fwdTrees) (rnd : Rnd) :
    FcpInv args dst S kids { s with todo, fwdTrees, rnd } :=
  ⟨h.forest, h.table, h.i_le, h.card_kid, fun B hB => hold (h.trees B hB), h.next,
    (List.forall_mem_cons.mp (htodo ▸ h.todo)).2,
    fun _ hB _ hy => h.covered_of_head htodo hx hD subset_rfl (fun hw => absurd hw hcut) hB hy⟩

lemma mem_newDeps {a : Finset E × FcpPath G} :
    a ∈ N.edges.map (fun e => (insert e N.failedE, N)) ↔ a.2 = N ∧ IsDep a := by
  rw [List.mem_map]
  constructor
  · rintro ⟨e, he, rfl⟩
    exact ⟨rfl, e, he, rfl⟩
  · obtain ⟨F, B⟩ := a
    rintro ⟨rfl, e, he, hF⟩
    exact ⟨e, he, Prod.ext hF.symm rfl⟩

section Round

variable (hsp : ∀ n, IsPathFinder (getShortestPath n)) (hdst : 0 < G.numhosts dst)
include hsp hdst

/-- A pass of a round keeps the invariant if the new path can be stored, and raises if not. -/
theorem fcpAddBackup_spec (h : FcpInv args dst S kids s) (htodo : s.todo = (D, P) :: todo)
    (dfr : Bool) :
    (FcpSpliceOk G dfr getShortestPath dst s → ∃ s' kids',
      fcpAddBackup G dfr getShortestPath dst { s with todo } D P = some s' ∧
        FcpInv args dst S kids' s' ∧ s'.i = s.i ∧ s'.todo = todo) ∧
    (¬ FcpSpliceOk G dfr getShortestPath dst s →
      fcpAddBackup G dfr getShortestPath dst { s with todo } D P = none) := by
  obtain ⟨⟨hP, hcard, hdep⟩, _⟩ := List.forall_mem_cons.mp (htodo ▸ h.todo)
  dsimp only at hP hcard
  obtain ⟨x, hx, hD⟩ := hdep.exists_makes
  have htrees : ∀ F : Finset E,
      s.fwdTrees ⊆ (if F ∈ s.fwdTrees then s.fwdTrees else s.fwdTrees ++ [F]) ∧
        F ∈ (if F ∈ s.fwdTrees then s.fwdTrees else s.fwdTrees ++ [F]) := by
    intro F
    split
    · rename_i hF
      exact ⟨List.Subset.refl _, hF⟩
    · exact ⟨List.subset_append_left _ _, List.mem_append_right _ (List.mem_singleton_self F)⟩
  obtain ⟨hold, hDmem⟩ := htrees D
  have hok : FcpSpliceOk G dfr getShortestPath dst s ↔ ∀ N,
      fcpNewPath G dfr getShortestPath dst s D P = some (some N) →
        SpliceOk s.tables N.failedE N.failedE N.firsthopE N.v N.path := by
    constructor
    · intro hs N hN
      exact hs D P todo N htodo hN
    · intro hs D' P' todo' N htodo' hN
      rw [htodo] at htodo'
      obtain ⟨hDP, _⟩ := List.cons.inj htodo'
      obtain ⟨rfl, rfl⟩ := Prod.mk.inj hDP
      exact hs N hN
  have hsame : fcpNewPath G dfr getShortestPath dst { s with todo } D P =
      fcpNewPath G dfr getShortestPath dst s D P := rfl
  rw [hok]
  rcases fcpNewPath_spec hsp hdst (h.forest.branch P (.inl hP)) hx (h.forest.history P (.inl hP))
    hcard (h.trees P (.inl hP)) dfr with ⟨N, hrun, hN⟩ | ⟨hrun, hcut⟩
  · rw [← hD] at hrun
    simp only [hrun, Option.some.injEq, forall_eq']
    obtain ⟨hinstall, hstop⟩ := fcpInstall_spec h.table h.forest.branch hN.branch
    refine ⟨fun hsplice => ?_, fun hsplice => ?_⟩
    · obtain ⟨t', N', hrun', hsame', hb, htable⟩ := hinstall hsplice
      have hN' := hN.sameStart hsame' hb
      obtain ⟨deps, hdeps, hperm⟩ := updateDepsOf_spec FcpPath.toPath hb.branch s.nextdep
      have hfail : N'.failedE = D := hN'.failedE_eq.trans hD.symm
      have hmem : ∀ a, a ∈ dictPairs deps ↔
          a ∈ dictPairs s.nextdep ∨ a.2 = N' ∧ IsDep a := fun a => by
        rw [hperm.mem_iff, List.mem_append, mem_newDeps]
      rw [hfail] at hdeps
      refine ⟨_, insert N' kids, ?_, h.grow htodo hx hD hN' htable hmem hDmem hold s.rnd.next,
        rfl, rfl⟩
      simp only [fcpAddBackup, hsame, hrun, hrun', hdeps, Option.bind_eq_bind, Option.bind_some]
    · simp only [fcpAddBackup, hsame, hrun, hstop hsplice, Option.bind_eq_bind, Option.bind_some]
      rfl
  · rw [← hD] at hrun
    refine ⟨fun _ => ⟨_, kids, ?_, h.skip htodo hx hD hcut hold s.rnd.next, rfl, rfl⟩,
      fun hsplice => absurd (fun N hN => ?_) hsplice⟩
    · simp only [fcpAddBackup, hsame, hrun, Option.bind_eq_bind, Option.bind_some]
    · rw [hrun] at hN
      cases hN

end Round

/-! ### All rounds -/

/-- What the rounds leave: the hops of the paths, with a backup for each link that fails in
time. -/
structure FcpResult (args : PlinkoArgs) (dst : V) (T : Set (FcpPath G)) (t : FcpTables G) :
    Prop where
  forest : FcpForest dst T
  table : FcpTableOf T t
  covered : ∀ N ∈ T, ∀ x, N.Makes x → N.failedE.card < args.rounds → FcpCovered dst T N x

lemma FcpInv.covered_old (h : FcpInv args dst S kids s) (htodo : s.todo = []) (hN : N ∈ S)
    (hx : N.Makes x) : FcpCovered dst (S ∪ kids) N x := by
  refine (h.covered N hN x hx).resolve_left ?_
  rw [htodo]
  exact List.not_mem_nil

lemma FcpInv.mem_next (h : FcpInv args dst S kids s) (hN : N ∈ kids) (hx : N.Makes x) :
    (insert x.link N.failedE, N) ∈ dictPairs s.nextdep :=
  (h.next _).mpr ⟨hN, x.link, OnRoute.link_mem hx N.arcSet_eq, rfl⟩

lemma FcpInv.nextRound (h : FcpInv args dst S kids s) (htodo : s.todo = [])
    (hi : s.i ≠ args.rounds) (rnd : Rnd) :
    FcpInv args dst (S ∪ kids) ∅ { s with
      i := s.i + 1, todo := dictPairs (shuffle (s.rnd 0) s.nextdep), nextdep := [], rnd } := by
  have hperm := dictPairs_perm (shuffle_perm (s.rnd 0) s.nextdep)
  have hT : S ∪ kids ∪ ∅ = S ∪ kids := Set.union_empty _
  refine ⟨?_, ?_, ?_, fun N hN => absurd hN (Set.notMem_empty N), ?_, fun a => ?_, fun a ha => ?_,
    fun N hN x hx => ?_⟩
  · rw [hT]
    exact h.forest
  · rw [hT]
    exact h.table
  · have := h.i_le
    dsimp only
    omega
  · rw [hT]
    exact h.trees
  · constructor
    · intro ha
      cases ha
    · rintro ⟨hin, _⟩
      exact absurd hin (Set.notMem_empty _)
  · obtain ⟨hkid, hdep⟩ := (h.next a).mp (hperm.mem_iff.mp ha)
    exact ⟨.inr hkid, congrArg (· + 1) (h.card_kid _ hkid), hdep⟩
  · rw [hT]
    rcases hN with hN | hN
    · exact .inr (h.covered_old htodo hN hx)
    · exact .inl (hperm.mem_iff.mpr (h.mem_next hN hx))

lemma FcpInv.finish (h : FcpInv args dst S kids s) (htodo : s.todo = [])
    (hend : s.nextdep = [] ∨ s.i = args.rounds) :
    FcpResult args dst (S ∪ kids) s.tables := by
  refine ⟨h.forest, h.table, fun N hN x hx hcard => ?_⟩
  rcases hN with hN | hN
  · exact h.covered_old htodo hN hx
  · rcases hend with hnil | hi
    · have hin := h.mem_next hN hx
      rw [hnil] at hin
      cases hin
    · rw [h.card_kid N hN, hi] at hcard
      exact absurd hcard (Nat.lt_irrefl _)

/-- Rounds and links left to do. -/
def fcpWork (args : PlinkoArgs) (s : FcpState G) : ℕ × ℕ := (args.rounds - s.i, s.todo.length)

section Run

variable (hsp : ∀ n, IsPathFinder (getShortestPath n)) (hdst : 0 < G.numhosts dst)
include hsp hdst

/-- A pass keeps the invariant and leaves less to do, or raises. -/
theorem fcpStep_spec (h : FcpInv args dst S kids s) :
    (FcpSpliceOk G args.dfr getShortestPath dst s →
      (∃ t, fcpStep G args getShortestPath dst s = .done (some t) ∧
        ∃ T, FcpResult args dst T t) ∨
      ∃ s' S' kids', fcpStep G args getShortestPath dst s = .next s' ∧
        FcpInv args dst S' kids' s' ∧
        Prod.Lex (· < ·) (· < ·) (fcpWork args s') (fcpWork args s)) ∧
    (¬ FcpSpliceOk G args.dfr getShortestPath dst s →
      fcpStep G args getShortestPath dst s = .done none) := by
  rw [fcpStep]
  split
  · rename_i htodo
    have hok : FcpSpliceOk G args.dfr getShortestPath dst s := by
      intro D P todo N hcons
      rw [htodo] at hcons
      cases hcons
    refine ⟨fun _ => ?_, fun hsplice => absurd hok hsplice⟩
    by_cases hend : (s.nextdep.isEmpty || s.i = args.rounds) = true
    · left
      rw [if_pos hend]
      rw [Bool.or_eq_true, List.isEmpty_iff, decide_eq_true_iff] at hend
      exact ⟨s.tables, rfl, S ∪ kids, h.finish htodo hend⟩
    · right
      rw [if_neg hend]
      rw [Bool.or_eq_true, List.isEmpty_iff, decide_eq_true_iff, not_or] at hend
      refine ⟨_, S ∪ kids, ∅, rfl, h.nextRound htodo hend.2 s.rnd.next,
        Prod.lex_def.mpr (.inl ?_)⟩
      have := h.i_le
      simp only [fcpWork]
      omega
  · rename_i D P todo htodo
    obtain ⟨hok, hstop⟩ := fcpAddBackup_spec hsp hdst h htodo args.dfr
    refine ⟨fun hsplice => ?_, fun hsplice => by rw [hstop hsplice]⟩
    obtain ⟨s', kids', hrun, hinv, hi, htodo'⟩ := hok hsplice
    refine .inr ⟨s', S, kids', by rw [hrun], hinv, Prod.lex_def.mpr (.inr ?_)⟩
    simp only [fcpWork, hi, htodo', htodo, List.length_cons]
    exact ⟨trivial, Nat.lt_succ_self _⟩

/-- The rounds end with a table if every new path can be stored. -/
theorem fcpRounds_returns (h : FcpInv args dst S kids s)
    (hok : ∀ s', Loop.Reaches (fcpStep G args getShortestPath dst) s s' →
      FcpSpliceOk G args.dfr getShortestPath dst s') :
    ∃ t, Loop.Returns (fcpStep G args getShortestPath dst) s (some t) ∧
      ∃ T, FcpResult args dst T t := by
  obtain ⟨r, hret, t, rfl, hpost⟩ := Loop.returns_of_wellFounded
    (InvImage.wf (fcpWork args) (WellFounded.prod_lex Nat.lt_wfRel.wf Nat.lt_wfRel.wf))
    (fun s => (∃ S kids, FcpInv args dst S kids s) ∧
      ∀ s', Loop.Reaches (fcpStep G args getShortestPath dst) s s' →
        FcpSpliceOk G args.dfr getShortestPath dst s')
    (fun r => ∃ t, r = some t ∧ ∃ T, FcpResult args dst T t)
    (fun s ⟨⟨S, kids, h⟩, hok⟩ => ((fcpStep_spec hsp hdst h).1 (hok s .refl)).imp
      (fun ⟨t, hrun, hpost⟩ => ⟨some t, hrun, t, rfl, hpost⟩)
      (fun ⟨s', S', kids', hrun, hinv, hlt⟩ =>
        ⟨s', hrun, ⟨⟨S', kids', hinv⟩, fun s₁ hs₁ => hok s₁ (hs₁.head hrun)⟩, hlt⟩))
    ⟨⟨S, kids, h⟩, hok⟩
  exact ⟨t, hret, hpost⟩

/-- The rounds raise if they get to a path that cannot be stored. -/
theorem fcpRounds_raises (h : FcpInv args dst S kids s)
    (hreach : Loop.Reaches (fcpStep G args getShortestPath dst) s s')
    (hbad : ¬ FcpSpliceOk G args.dfr getShortestPath dst s') :
    Loop.Returns (fcpStep G args getShortestPath dst) s none := by
  obtain ⟨S', kids', h'⟩ := hreach.invariant (fun s => ∃ S kids, FcpInv args dst S kids s)
    (fun s₁ s₂ ⟨S₁, kids₁, h₁⟩ hstep => by
      obtain ⟨hok, hstop⟩ := fcpStep_spec hsp hdst h₁
      by_cases hsplice : FcpSpliceOk G args.dfr getShortestPath dst s₁
      · rcases hok hsplice with ⟨t, hrun, _⟩ | ⟨s₃, S₃, kids₃, hrun, hinv, _⟩
        · rw [hstep] at hrun
          cases hrun
        · rw [hstep, Step.next.injEq] at hrun
          exact ⟨S₃, kids₃, hrun ▸ hinv⟩
      · rw [hstop hsplice] at hstep
        cases hstep) ⟨S, kids, h⟩
  exact .of_reaches hreach (.of_done ((fcpStep_spec hsp hdst h').2 hbad))

end Run

/-! ### The start -/

variable {bfsParents : Adj V E → V → V → Option V}

lemma fcpTableOf_empty : FcpTableOf (∅ : Set (FcpPath G)) ⟨[], []⟩ :=
  ⟨⟨fun _ _ _ _ _ => ⟨nofun, nofun⟩, List.nodup_nil, List.nodup_nil⟩, nofun,
    fun N hN => absurd hN (Set.notMem_empty N)⟩

/-- The first paths are the roots of the forest. -/
theorem fcpInit_spec (hsp : ∀ n, IsPathFinder (getShortestPath n)) (hbfs : IsBfs bfsParents)
    (hconn : ∀ v, ∃ path, G.Leads ∅ v path dst) (hlink : ∃ e w, (e, w) ∈ upAdj G ∅ dst)
    (args : PlinkoArgs) (pick : V → ℕ) (rnd : Rnd) :
    ∃ s kids, fcpInit G getShortestPath bfsParents pick dst rnd = some s ∧
      FcpInv args dst ∅ kids s := by
  obtain ⟨iT, hiT, htree⟩ := buildTree_spec hbfs hconn pick hlink
  obtain ⟨first, ⟨found, hmapM, hfound⟩, hsome, hnone⟩ :=
    exists_mapM_reduceOption (initTreePath_spec htree (hsp (rnd 0)) hconn) G.verts
  let paths := G.verts.filterMap first
  let kids := paths.map (fun path => FcpPath.mk path path.v ∅)
  have hpaths : ∀ P ∈ paths, IsFirst G iT dst ⟨P, P.v, ∅⟩ := by
    intro P hP
    obtain ⟨v, _, hv⟩ := List.mem_filterMap.mp hP
    obtain ⟨hb, ht⟩ := hsome v P hv
    obtain rfl := hb.v_eq
    exact ⟨hb, ht, rfl, rfl⟩
  have hkids : ∀ N ∈ kids, IsFirst G iT dst N := by
    intro N hN
    obtain ⟨P, hP, rfl⟩ := List.mem_map.mp hN
    exact hpaths P hP
  obtain ⟨t, ht, htable⟩ := foldlM_fcpInitHops htree fcpTableOf_empty
    (fun N hN => absurd hN (Set.notMem_empty N)) hpaths
  have hnew : ∀ N ∈ kids, ∀ deps : List (Finset E × List (FcpPath G)), ∃ deps',
      updateDepsOf FcpPath.toPath ∅ deps N = some deps' ∧ (dictPairs deps').Perm
        (dictPairs deps ++ N.edges.map (fun e => (insert e N.failedE, N))) :=
    fun N hN => updateDepsOf_spec FcpPath.toPath (hkids N hN).branch
  obtain ⟨deps, hdeps, hperm⟩ := foldlM_adds hnew []
  refine ⟨⟨0, [], deps, t, [∅], rnd.next⟩, {N | N ∈ kids}, ?_, ⟨?_, htable, Nat.zero_le _, ?_, ?_,
    fun a => ?_, nofun, fun N hN => absurd hN (Set.notMem_empty N)⟩⟩
  · have hreduce : found.reduceOption = paths := hfound
    have hrv : ∀ path ∈ paths, path.rv = dst := fun P hP => (hpaths P hP).branch.rv_eq
    simp only [fcpInit, hiT, hmapM, hreduce, guard, if_pos hrv, ht, Option.bind_eq_bind,
      Option.bind_some]
    exact (congrArg (fun o => Option.bind o _) hdeps).trans rfl
  · rw [Set.empty_union]
    refine ⟨fun N hN => (hkids N hN).isFcpBranch htree, fun N hN => ?_,
      fun N hN => .inl (hkids N hN).branch.failedE_eq, fun v hv hne => ?_⟩
    · rw [(hkids N hN).branch.extra_eq]
      exact ⟨N.v, [], rfl⟩
    · cases hfv : first v with
      | none => exact absurd (hnone v hfv hv) hne
      | some N =>
        obtain ⟨hb, -⟩ := hsome v N hfv
        have hmem : N ∈ paths := List.mem_filterMap.mpr ⟨v, G.mem_verts v, hfv⟩
        have hkid : FcpPath.mk N N.v ∅ ∈ kids := List.mem_map.mpr ⟨N, hmem, rfl⟩
        exact ⟨⟨N, N.v, ∅⟩, hkid, hb.v_eq, hb.failedE_eq⟩
  · intro N hN
    rw [(hkids N hN).branch.failedE_eq]
    exact Finset.card_empty
  · rw [Set.empty_union]
    intro N hN
    rw [(hkids N hN).branch.failedE_eq]
    exact List.mem_singleton_self _
  · rw [hperm.mem_iff, List.mem_append, List.mem_flatMap]
    constructor
    · rintro (h | ⟨N, hN, ha⟩)
      · cases h
      · obtain ⟨rfl, hdep⟩ := mem_newDeps.mp ha
        exact ⟨hN, hdep⟩
    · rintro ⟨hN, hdep⟩
      exact .inr ⟨a.2, hN, mem_newDeps.mpr ⟨rfl, hdep⟩⟩

end ResSim
