import ResSim.Lib.Traverse
import ResSim.Plinko.Install

/-!
# How a forest of backup paths grows

A round fails every link of the paths of the round before, one after the other, and adds the
paths that back them up to the forest. Which hops still need a backup is a parameter: it is
`Alive`, and says that the failures leave a way from there to the destination.
-/

namespace ResSim

variable {V E : Type} [DecidableEq V] [DecidableEq E] {G : PortGraph V E}

/-- A forest of paths to the destination with a root for every switch that has hosts. -/
structure RootedForest (dst : V) (T : Set (Path G)) : Prop extends BackupForest T where
  branch : ∀ B ∈ T, IsBranch dst B.v B.failedE B.extraRPath B
  history : ∀ B ∈ T, ∃ start fwd, reversePath G B.v B.extraRPath = some (start, fwd)
  exists_root : ∀ v, 0 < G.numhosts v → v ≠ dst → (∃ p, EdgeWalk (upAdj G ∅) v p dst) →
    ∃ B ∈ T, B.v = v ∧ B.failedE = ∅

/-- The paths so far: those of earlier rounds and those of this round. -/
def pathsOf (S : Set (Path G)) (kids : List (Path G)) : Set (Path G) := S ∪ {N | N ∈ kids}

/-- A backup path for the hop `x` over `e`, where one is needed. -/
def Covered (Alive : Place G → V → List ℕ → E → Prop) (T : Set (Path G)) (x : Place G) (u : V)
    (rp : List ℕ) (e : E) : Prop :=
  Alive x u rp e → ∃ C ∈ T, C.v = u ∧ C.extraRPath = rp ∧ C.failedE = insert e x.branch.failedE

/-- What holds in round `i`. `S` are the paths of earlier rounds and `kids` those that this
round added; `todo` is left to do in this round and `next` in the next one. -/
structure RoundFacts (fwdRouting : FwdRouting) (rounds : ℕ) (dst : V)
    (Alive : Place G → V → List ℕ → E → Prop) (S : Set (Path G)) (kids : List (Path G)) (i : ℕ)
    (todo next : List (Finset E × Path G)) (tbl : PlinkoTable G) : Prop where
  forest : RootedForest dst (pathsOf S kids)
  table : TableOf fwdRouting (pathsOf S kids) tbl
  i_le : i ≤ rounds
  card_old : ∀ B ∈ S, B.failedE.card < i
  card_kid : ∀ B ∈ kids, B.failedE.card = i
  next : next.Perm (kids.flatMap depPairs)
  nodup_kids : kids.Nodup
  nodup_todo : todo.Nodup
  mem_todo : ∀ a ∈ todo, a.2 ∈ S ∧ a.2.failedE.card + 1 = i ∧ a ∈ depPairs a.2
  fresh : ∀ x u rp e, Place.At S x u rp e → (insert e x.branch.failedE, x.branch) ∈ todo →
    ∀ C ∈ pathsOf S kids, C.v = u → C.extraRPath = rp → C.failedE ≠ insert e x.branch.failedE
  covered : ∀ x u rp e, Place.At S x u rp e →
    (insert e x.branch.failedE, x.branch) ∈ todo ∨ Covered Alive (pathsOf S kids) x u rp e

variable {fwdRouting : FwdRouting} {rounds i : ℕ} {dst v u : V}
  {Alive : Place G → V → List ℕ → E → Prop} {S T : Set (Path G)} {kids : List (Path G)}
  {todo next : List (Finset E × Path G)} {tbl tbl' : PlinkoTable G} {N P : Path G}
  {D failedE : Finset E} {rp : List ℕ} {e e' f : E} {x y z : Place G}

omit [DecidableEq E] in
lemma pathsOf_concat : pathsOf S (kids ++ [N]) = insert N (pathsOf S kids) := by
  ext B
  simp only [pathsOf, Set.mem_union, Set.mem_ofPred_eq, Set.mem_insert_iff, List.mem_append,
    List.mem_singleton]
  tauto

omit [DecidableEq E] in
lemma pathsOf_subset : S ⊆ pathsOf S kids := Set.subset_union_left

omit [DecidableEq E] in
lemma pathsOf_nil : pathsOf S [] = S := by
  ext B
  simp [pathsOf]

/-! ### Adding a path to a forest -/

/-- A new child of a path in the forest. -/
structure NewChild (T : Set (Path G)) (z : Place G) (f : E) (N : Path G) : Prop where
  parent : z.At T N.v N.extraRPath f
  failedE_eq : N.failedE = insert f z.branch.failedE
  fresh : ∀ C ∈ T, C.v = N.v → C.extraRPath = N.extraRPath → C.failedE ≠ N.failedE

lemma BackupForest.add (hT : BackupForest T) (hN : NewChild T z f N) :
    BackupForest (insert N T) := by
  have hsub : T ⊆ insert N T := Set.subset_insert ..
  refine ⟨?_, ?_, ?_⟩
  · rintro B (rfl | hB) hB₀
    · rw [hN.failedE_eq] at hB₀
      exact absurd hB₀ (Finset.insert_ne_empty _ _)
    · exact hT.root B hB hB₀
  · rintro B (rfl | hB) hB₀
    · exact ⟨z, f, hN.parent.mono hsub, hN.failedE_eq⟩
    · obtain ⟨z', f', hz', heq⟩ := hT.parent B hB hB₀
      exact ⟨z', f', hz'.mono hsub, heq⟩
  · rintro B (rfl | hB) C (rfl | hC) hv hrp hfailed
    · rfl
    · exact absurd hfailed.symm (hN.fresh C hC hv.symm hrp.symm)
    · exact absurd hfailed (hN.fresh B hB hv hrp)
    · exact hT.unique B hB C hC hv hrp hfailed

omit [DecidableEq E] in
/-- The way back from a hop leads on to where the packet entered. -/
lemma Place.At.history (hx : x.At T u rp e)
    (hT : ∀ B ∈ T, ∃ start fwd, reversePath G B.v B.extraRPath = some (start, fwd)) :
    ∃ start fwd, reversePath G u rp = some (start, fwd) := by
  obtain ⟨r, hr, rfl⟩ := hx.back
  obtain ⟨start, fwd, hB⟩ := hT _ hx.mem
  exact ⟨start, fwd ++ x.pre, reversePath_append.mpr
    ⟨_, x.pre, fwd, reversePath_reverse hr, hB, rfl⟩⟩

lemma RootedForest.add (hT : RootedForest dst T) (hN : NewChild T z f N)
    (hb : IsBranch dst N.v N.failedE N.extraRPath N) : RootedForest dst (insert N T) where
  toBackupForest := hT.toBackupForest.add hN
  branch := by
    rintro B (rfl | hB)
    · exact hb
    · exact hT.branch B hB
  history := by
    rintro B (rfl | hB)
    · exact hN.parent.history hT.history
    · exact hT.history B hB
  exists_root := by
    intro v hhosts hne hw
    obtain ⟨B, hB, hv, hB₀⟩ := hT.exists_root v hhosts hne hw
    exact ⟨B, Set.mem_insert_of_mem _ hB, hv, hB₀⟩

lemma Covered.mono {T' : Set (Path G)} (h : Covered Alive T x u rp e) (hsub : T ⊆ T') :
    Covered Alive T' x u rp e := by
  intro halive
  obtain ⟨C, hC, hv, hrp, hfailed⟩ := h halive
  exact ⟨C, hsub hC, hv, hrp, hfailed⟩

/-! ### One backup path -/

/-- Where the link of a path that a round fails is: the hop that is not made. -/
lemma exists_place_at_fail (hP : P ∈ S) (hb : IsBranch dst P.v P.failedE P.extraRPath P)
    (hD : (D, P) ∈ depPairs P) : ∃ x u r e, x.branch = P ∧ Place.At S x u (r ++ P.extraRPath) e ∧
      D = insert e P.failedE ∧ revpathAtFail G D P.v P.path = some (u, r) := by
  obtain ⟨_, e, he, rfl⟩ := mem_depPairs.mp hD
  obtain ⟨rr, hrr⟩ := P.reversePath_eq
  obtain ⟨k, post, u, r, hsplit, hrun, hk, hl, hpost⟩ :=
    exists_revpathAtFail hrr (insert e P.failedE)
  obtain ⟨r', arcs₁, hr', h₁, hup⟩ := leads_iff.mp hl
  have harcs := P.arcSet_eq
  rw [hsplit, arcSet_append hk] at harcs
  obtain ⟨arcs₁', arcs₂, h₁', h₂, heq⟩ := harcs
  obtain rfl := Option.some.inj (h₁.symm.trans h₁')
  cases post with
  | nil =>
    -- the whole path would avoid `e`
    obtain rfl := Option.some.inj h₂
    rw [Path.edges, heq, List.append_nil] at he
    obtain ⟨a, ha, rfl⟩ := List.mem_map.mp he
    exact absurd (Finset.mem_insert_self ..) (hup a ha)
  | cons hop post =>
    obtain ⟨f, hf, hedge⟩ := hpost hop rfl
    have hat : Place.At S ⟨P, k, hop, post⟩ u (r ++ P.extraRPath) f :=
      ⟨hP, hsplit, ⟨r, hk, rfl⟩, hedge⟩
    have hfe : f = e := (Finset.mem_insert.mp hf).resolve_right hat.not_mem_failedE
    subst hfe
    exact ⟨_, u, r, f, rfl, hat, rfl, by rw [hb.path_eq]; exact hrun⟩

lemma union_localFailedE (hx : x.At S u rp e) :
    x.branch.failedE ∪ (localFailedE G (insert e x.branch.failedE) u).toFinset =
      insert e x.branch.failedE := by
  ext f
  rw [Finset.mem_union, List.mem_toFinset, mem_localFailedE_iff]
  constructor
  · rintro (hf | ⟨hf, _⟩)
    · exact Finset.mem_insert_of_mem hf
    · exact hf
  · intro hf
    rcases Finset.mem_insert.mp hf with rfl | hf'
    · exact .inr ⟨hf, _, hx.edge⟩
    · exact .inl hf'

omit [DecidableEq E] in
lemma Place.At.to_singleton (h : x.At S u rp e) : x.At {x.branch} u rp e :=
  ⟨Set.mem_singleton _, h.split, h.back, h.edge⟩

/-- A path and the links that failed give the hop that is not made. -/
lemma Place.At.eq_of_pair {u' : V} {rp' : List ℕ} (hx : x.At S u rp e) (hy : y.At S u' rp' e')
    (hnodup : x.branch.edges.Nodup)
    (heq : (insert e' y.branch.failedE, y.branch) = (insert e x.branch.failedE, x.branch)) :
    y = x ∧ u' = u ∧ rp' = rp ∧ e' = e := by
  obtain ⟨hD, hb⟩ := Prod.mk.inj heq
  have he : e' = e := by
    have hmem : e' ∈ insert e x.branch.failedE := hD ▸ Finset.mem_insert_self ..
    refine (Finset.mem_insert.mp hmem).resolve_right ?_
    rw [← hb]
    exact hy.not_mem_failedE
  subst he
  have hy' := hy.to_singleton
  rw [hb] at hy'
  obtain ⟨hyx, hu, hrp⟩ := hy'.eq_of_edge hx.to_singleton hnodup
  exact ⟨hyx, hu, hrp, rfl⟩

lemma mem_depPairs_of_at (hx : x.At T u rp e) :
    (insert e x.branch.failedE, x.branch) ∈ depPairs x.branch :=
  mem_depPairs.mpr ⟨rfl, e, hx.mem_edges, rfl⟩

/-- The first paths are the roots of the forest. -/
theorem initPaths_spec {getShortestPath : Adj V E → V → V → List E}
    (hsp : IsPathFinder getShortestPath) (dst : V) :
    ∃ (kids : List (Path G)) (paths : List (Option (Path G))),
      G.verts.mapM (initPath G getShortestPath dst) = some paths ∧ paths.reduceOption = kids ∧
      (∀ N ∈ kids, IsBranch dst N.v ∅ [] N) ∧ kids.Nodup ∧
      RootedForest dst (pathsOf ∅ kids) := by
  obtain ⟨first, ⟨paths, hpaths, hkids⟩, hsome, hnone⟩ :=
    exists_mapM_reduceOption (initPath_spec hsp (G := G) dst) G.verts
  have hkid : ∀ N ∈ G.verts.filterMap first, first N.v = some N ∧ IsBranch dst N.v ∅ [] N := by
    intro N hN
    obtain ⟨v, _, hv⟩ := List.mem_filterMap.mp hN
    have hb := hsome v N hv
    rw [hb.v_eq]
    exact ⟨hv, hb⟩
  refine ⟨G.verts.filterMap first, paths, hpaths, hkids, fun N hN => (hkid N hN).2, ?_, ?_⟩
  · refine List.Nodup.filterMap (fun v v' N hv hv' => ?_) G.nodup_verts
    exact (hsome v N hv).v_eq.symm.trans (hsome v' N hv').v_eq
  · have hmem : ∀ B ∈ pathsOf ∅ (G.verts.filterMap first),
        first B.v = some B ∧ IsBranch dst B.v ∅ [] B := fun B hB =>
      hkid B (hB.resolve_left (Set.notMem_empty B))
    refine ⟨⟨fun B hB _ => (hmem B hB).2.extra_eq, fun B hB hne => ?_, fun B hB C hC hv _ _ => ?_⟩,
      fun B hB => ?_, fun B hB => ?_, fun v hhosts hne hw => ?_⟩
    · exact absurd (hmem B hB).2.failedE_eq hne
    · have hBv := (hmem B hB).1
      rw [hv, (hmem C hC).1, Option.some.injEq] at hBv
      exact hBv.symm
    · have hb := (hmem B hB).2
      rw [hb.failedE_eq, hb.extra_eq]
      exact hb
    · rw [(hmem B hB).2.extra_eq]
      exact ⟨B.v, [], rfl⟩
    · cases hv : first v with
      | none => exact absurd hw (hnone v hv hhosts hne)
      | some N =>
        have hb := hsome v N hv
        exact ⟨N, .inr (List.mem_filterMap.mpr ⟨v, G.mem_verts v, hv⟩), hb.v_eq, hb.failedE_eq⟩

namespace RoundFacts

lemma init (hforest : RootedForest dst (pathsOf ∅ kids))
    (htable : TableOf fwdRouting (pathsOf ∅ kids) tbl) (hkids : ∀ B ∈ kids, B.failedE = ∅)
    (hnodup : kids.Nodup) (hnext : next.Perm (kids.flatMap depPairs)) :
    RoundFacts fwdRouting rounds dst Alive ∅ kids 0 [] next tbl where
  forest := hforest
  table := htable
  i_le := Nat.zero_le _
  card_old B hB := absurd hB (Set.notMem_empty B)
  card_kid B hB := by rw [hkids B hB, Finset.card_empty]
  next := hnext
  nodup_kids := hnodup
  nodup_todo := List.nodup_nil
  mem_todo a ha := absurd ha List.not_mem_nil
  fresh x u rp e hx := absurd hx.mem (Set.notMem_empty _)
  covered x u rp e hx := absurd hx.mem (Set.notMem_empty _)

/-- Different links that a round fails make packets come back in different ways. -/
lemma eq_of_todo (h : RoundFacts fwdRouting rounds dst Alive S kids i todo next tbl)
    (hx : x.At S u rp e) (hy : y.At S u rp e')
    (hxt : (insert e x.branch.failedE, x.branch) ∈ todo)
    (hyt : (insert e' y.branch.failedE, y.branch) ∈ todo) : x = y := by
  have hcx : x.branch.failedE.card + 1 = i := (h.mem_todo _ hxt).2.1
  have hcy : y.branch.failedE.card + 1 = i := (h.mem_todo _ hyt).2.1
  have hbacks : ∀ {x y : Place G} {e : E}, Backs u x e y → e ∉ x.branch.failedE →
      x.branch.failedE.card < y.branch.failedE.card := by
    intro x y e hb he
    exact Finset.card_lt_card
      (Finset.ssubset_iff_of_subset hb.subset |>.mpr ⟨e, hb.mem, he⟩)
  rcases h.forest.comparable (hx.mono pathsOf_subset) (hy.mono pathsOf_subset) with hxy | hb | hb
  · exact hxy
  · have := hbacks hb hx.not_mem_failedE
    omega
  · have := hbacks hb hy.not_mem_failedE
    omega

section First

variable (h : RoundFacts fwdRouting rounds dst Alive S kids i
  ((insert e x.branch.failedE, x.branch) :: todo) next tbl) (hx : x.At S u rp e)
include h hx

/-- The first link of a round was failed without a new path: none is needed. -/
lemma skip (hcut : ¬ Alive x u rp e) :
    RoundFacts fwdRouting rounds dst Alive S kids i todo next tbl where
  forest := h.forest
  table := h.table
  i_le := h.i_le
  card_old := h.card_old
  card_kid := h.card_kid
  next := h.next
  nodup_kids := h.nodup_kids
  nodup_todo := (List.nodup_cons.mp h.nodup_todo).2
  mem_todo a ha := h.mem_todo a (List.mem_cons_of_mem _ ha)
  fresh x u rp e hx hin := h.fresh x u rp e hx (List.mem_cons_of_mem _ hin)
  covered := by
    intro y u' rp' e' hy
    rcases h.covered y u' rp' e' hy with hin | hb
    · rcases List.mem_cons.mp hin with heq | hin
      · have hnodup := (h.forest.branch _ (pathsOf_subset hx.mem)).nodup
        obtain ⟨rfl, rfl, rfl, rfl⟩ := hx.eq_of_pair hy hnodup heq
        exact .inr (fun halive => absurd halive hcut)
      · exact .inl hin
    · exact .inr hb

lemma newChild (hN : IsBranch dst u (insert e x.branch.failedE) rp N) :
    NewChild (pathsOf S kids) x e N := by
  refine ⟨?_, hN.failedE_eq, fun C hC hv hrp => ?_⟩
  · rw [hN.v_eq, hN.extra_eq]
    exact hx.mono pathsOf_subset
  · rw [hN.v_eq] at hv
    rw [hN.extra_eq] at hrp
    rw [hN.failedE_eq]
    exact h.fresh x u rp e hx (List.mem_cons_self ..) C hC hv hrp

lemma grow (hN : IsBranch dst u (insert e x.branch.failedE) rp N)
    (htbl : TableOf fwdRouting (insert N (pathsOf S kids)) tbl')
    {next' : List (Finset E × Path G)} (hnext : next'.Perm (next ++ depPairs N)) :
    RoundFacts fwdRouting rounds dst Alive S (kids ++ [N]) i todo next' tbl' := by
  have hcard : N.failedE.card = i := by
    rw [hN.failedE_eq, Finset.card_insert_of_notMem hx.not_mem_failedE]
    exact (h.mem_todo _ (List.mem_cons_self ..)).2.1
  have hnew : N ∉ pathsOf S kids := fun hin => (h.newChild hx hN).fresh N hin rfl rfl rfl
  have hsub : pathsOf S kids ⊆ pathsOf S (kids ++ [N]) := by
    rw [pathsOf_concat]
    exact Set.subset_insert ..
  refine ⟨?_, ?_, h.i_le, h.card_old, ?_, ?_, ?_, (List.nodup_cons.mp h.nodup_todo).2,
    fun a ha => h.mem_todo a (List.mem_cons_of_mem _ ha), ?_, ?_⟩
  · rw [pathsOf_concat]
    refine h.forest.add (h.newChild hx hN) ?_
    rw [hN.v_eq, hN.failedE_eq, hN.extra_eq]
    exact hN
  · rw [pathsOf_concat]
    exact htbl
  · intro B hB
    rcases List.mem_append.mp hB with hB | hB
    · exact h.card_kid B hB
    · rw [List.mem_singleton.mp hB]
      exact hcard
  · rw [List.flatMap_append, List.flatMap_cons, List.flatMap_nil, List.append_nil]
    exact hnext.trans (h.next.append_right _)
  · refine List.nodup_append'.mpr ⟨h.nodup_kids, List.nodup_singleton N, fun B hB hBN => hnew ?_⟩
    rw [← List.mem_singleton.mp hBN]
    exact .inr hB
  · intro y u' rp' e' hy hin C hC hv hrp hfailed
    rw [pathsOf_concat] at hC
    rcases hC with rfl | hC
    · -- two links of the round would make packets come back in the same way
      obtain rfl := hN.v_eq.symm.trans hv
      obtain rfl := hN.extra_eq.symm.trans hrp
      obtain rfl := h.eq_of_todo hx hy (List.mem_cons_self ..) (List.mem_cons_of_mem _ hin)
      obtain rfl := Option.some.inj (hx.edge.symm.trans hy.edge)
      exact (List.nodup_cons.mp h.nodup_todo).1 hin
    · exact h.fresh y u' rp' e' hy (List.mem_cons_of_mem _ hin) C hC hv hrp hfailed
  · intro y u' rp' e' hy
    rcases h.covered y u' rp' e' hy with hin | hb
    · rcases List.mem_cons.mp hin with heq | hin
      · have hnodup := (h.forest.branch _ (pathsOf_subset hx.mem)).nodup
        obtain ⟨rfl, rfl, rfl, rfl⟩ := hx.eq_of_pair hy hnodup heq
        refine .inr (fun _ => ⟨N, ?_, hN.v_eq, hN.extra_eq, hN.failedE_eq⟩)
        rw [pathsOf_concat]
        exact Set.mem_insert ..
      · exact .inl hin
    · exact .inr (hb.mono hsub)

end First

section Last

variable (h : RoundFacts fwdRouting rounds dst Alive S kids i [] next tbl)
include h

lemma covered_old (hx : x.At (pathsOf S kids) u rp e) (hS : x.branch ∈ S) :
    Covered Alive (pathsOf S kids) x u rp e :=
  (h.covered x u rp e ⟨hS, hx.split, hx.back, hx.edge⟩).resolve_left List.not_mem_nil

/-- The next round fails the links of the paths that this round added. -/
lemma nextRound (hi : i ≠ rounds) (htodo : todo.Perm next) :
    RoundFacts fwdRouting rounds dst Alive (pathsOf S kids) [] (i + 1) todo [] tbl := by
  have hperm : todo.Perm (kids.flatMap depPairs) := htodo.trans h.next
  have hmem : ∀ a ∈ todo, a.2 ∈ kids ∧ a ∈ depPairs a.2 := by
    intro a ha
    obtain ⟨N, hN, ha⟩ := List.mem_flatMap.mp (hperm.mem_iff.mp ha)
    obtain rfl := (mem_depPairs.mp ha).1
    exact ⟨hN, ha⟩
  have hnodup : ∀ N ∈ kids, N.edges.Nodup := fun N hN => (h.forest.branch N (.inr hN)).nodup
  refine ⟨?_, ?_, Nat.lt_of_le_of_ne h.i_le hi, ?_, fun B hB => absurd hB List.not_mem_nil,
    List.Perm.refl _, List.nodup_nil, ?_, fun a ha => ?_, fun x u rp e hx hin C hC _ _ => ?_,
    fun x u rp e hx => ?_⟩
  · rw [pathsOf_nil]
    exact h.forest
  · rw [pathsOf_nil]
    exact h.table
  · rintro B (hB | hB)
    · exact Nat.lt_succ_of_lt (h.card_old B hB)
    · exact Nat.lt_succ_of_le (h.card_kid B hB).le
  · exact hperm.nodup_iff.mpr (nodup_flatMap_depPairs hnodup h.nodup_kids)
  · obtain ⟨hkid, hdep⟩ := hmem a ha
    exact ⟨.inr hkid, by rw [h.card_kid _ hkid], hdep⟩
  · -- no path so far knows as many failed links
    rw [pathsOf_nil] at hC
    intro heq
    have hcard := congrArg Finset.card heq
    rw [Finset.card_insert_of_notMem hx.not_mem_failedE, h.card_kid _ (hmem _ hin).1] at hcard
    rcases hC with hC | hC
    · have := h.card_old C hC
      omega
    · have := h.card_kid C hC
      omega
  · rw [pathsOf_nil]
    rcases hx.mem with hS | hkid
    · exact .inr (h.covered_old hx hS)
    · exact .inl (hperm.mem_iff.mpr
        (List.mem_flatMap.mpr ⟨x.branch, hkid, mem_depPairs_of_at hx⟩))

lemma finish (hend : next = [] ∨ i = rounds) (hx : x.At (pathsOf S kids) u rp e)
    (hcard : x.branch.failedE.card < rounds) : Covered Alive (pathsOf S kids) x u rp e := by
  rcases hx.mem with hS | hkid
  · exact h.covered_old hx hS
  · rcases hend with rfl | rfl
    · have hin : (insert e x.branch.failedE, x.branch) ∈ ([] : List (Finset E × Path G)) :=
        h.next.mem_iff.mpr (List.mem_flatMap.mpr ⟨x.branch, hkid, mem_depPairs_of_at hx⟩)
      cases hin
    · have := h.card_kid _ hkid
      omega

end Last

end RoundFacts

end ResSim
