import ResSim.Plinko.Forest
import ResSim.Plinko.Search

/-!
# Entries of Plinko tables

The entries of a table are the hops of the paths that were installed: with source routing the
first hop of each path, otherwise all of them.
-/

namespace ResSim

variable {V E : Type} [DecidableEq V] [DecidableEq E] {G : PortGraph V E}

/-- The key of a hop. -/
def Place.key (x : Place G) (u : V) (rp : List ℕ) (e : E) : V × FwdKey E :=
  (u, rp, e, (localFailedE G x.branch.failedE u).toFinset)

/-- The path stored for a hop: what is left of its path, of which the switch forwards on all
or on one hop. -/
structure StoredAs (fwdRouting : FwdRouting) (x : Place G) (u : V) (N : Path G) : Prop where
  v_eq : N.v = u
  rv_eq : N.rv = x.branch.rv
  full_eq : N.fullPath = x.hop :: x.post
  src : fwdRouting = .src → x.pre = [] ∧ N.path = x.hop :: x.post
  hopByHop : fwdRouting = .hopByHop → N.path = [x.hop]

/-- An entry for a hop of a path in `S`. -/
def IsEntry (fwdRouting : FwdRouting) (S : Set (Path G)) (entry : (V × FwdKey E) × Path G) :
    Prop :=
  ∃ x u rp e, Place.At S x u rp e ∧ entry.1 = x.key u rp e ∧ StoredAs fwdRouting x u entry.2

/-- A table that holds the paths in `S`. -/
structure TableOf (fwdRouting : FwdRouting) (S : Set (Path G)) (tbl : PlinkoTable G) :
    Prop where
  sound : ∀ entry ∈ tbl, IsEntry fwdRouting S entry
  complete : ∀ x u rp e, Place.At S x u rp e → (fwdRouting = .src → x.pre = []) →
    x.key u rp e ∈ tbl.map Prod.fst
  nodup : (tbl.map Prod.fst).Nodup

variable {fwdRouting : FwdRouting} {S S' : Set (Path G)} {tbl : PlinkoTable G} {N : Path G}
  {dst v u : V} {failedE : Finset E} {rp : List ℕ} {e : E} {x : Place G}

omit [DecidableEq E] in
lemma Place.At.mono (h : x.At S u rp e) (hsub : S ⊆ S') : x.At S' u rp e :=
  ⟨hsub h.mem, h.split, h.back, h.edge⟩

lemma IsEntry.mono {entry : (V × FwdKey E) × Path G} (h : IsEntry fwdRouting S entry)
    (hsub : S ⊆ S') : IsEntry fwdRouting S' entry := by
  obtain ⟨x, u, rp, e, hx, hkey, hst⟩ := h
  exact ⟨x, u, rp, e, hx.mono hsub, hkey, hst⟩

/-- What storing one path adds to a table. -/
structure Adds (fwdRouting : FwdRouting) (N : Path G) (n : ℕ) (tbl tbl' : PlinkoTable G) :
    Prop where
  sound : ∀ entry ∈ tbl', entry ∈ tbl ∨ IsEntry fwdRouting {N} entry
  keys : ∀ k ∈ tbl.map Prod.fst, k ∈ tbl'.map Prod.fst
  complete : ∀ x u rp e, Place.At {N} x u rp e → (fwdRouting = .src → x.pre = []) →
    n ≤ x.pre.length → x.key u rp e ∈ tbl'.map Prod.fst
  nodup : (tbl.map Prod.fst).Nodup → (tbl'.map Prod.fst).Nodup

lemma Adds.tableOf {tbl' : PlinkoTable G} (h : Adds fwdRouting N 0 tbl tbl')
    (ht : TableOf fwdRouting S tbl) : TableOf fwdRouting (insert N S) tbl' := by
  refine ⟨fun entry hentry => ?_, fun x u rp e hx hsrc => ?_, h.nodup ht.nodup⟩
  · rcases h.sound entry hentry with hold | hnew
    · exact (ht.sound entry hold).mono (Set.subset_insert ..)
    · exact hnew.mono (Set.singleton_subset_iff.mpr (Set.mem_insert ..))
  · rcases hx.mem with heq | hin
    · exact h.complete x u rp e ⟨heq, hx.split, hx.back, hx.edge⟩ hsrc (Nat.zero_le _)
    · exact h.keys _ (ht.complete x u rp e ⟨hin, hx.split, hx.back, hx.edge⟩ hsrc)

omit [DecidableEq E] in
/-- Two hops of one path that are equally far along it are the same. -/
lemma Place.At.eq_of_length {y : Place G} {u' : V} {rp' : List ℕ} {e' : E}
    (hx : x.At {N} u rp e) (hy : y.At {N} u' rp' e') (hlen : x.pre.length = y.pre.length) :
    x = y ∧ u = u' ∧ rp = rp' ∧ e = e' := by
  have hb : x.branch = y.branch := (Set.mem_singleton_iff.mp hx.mem).trans
    (Set.mem_singleton_iff.mp hy.mem).symm
  have hsplit := hx.split.symm.trans ((congrArg Path.fullPath hb).trans hy.split)
  obtain ⟨hpre, hpost⟩ := List.append_inj hsplit hlen
  obtain rfl := Place.ext_of hb hpre hpost
  obtain ⟨r, hr, rfl⟩ := hx.back
  obtain ⟨r', hr', rfl⟩ := hy.back
  rw [hr, Option.some.injEq, Prod.mk.injEq] at hr'
  obtain ⟨rfl, rfl⟩ := hr'
  exact ⟨rfl, rfl, rfl, Option.some.inj (hx.edge.symm.trans hy.edge)⟩

/-- A path that takes no link twice has one hop over each of its links. -/
lemma Place.At.eq_of_edge {y : Place G} {u' : V} {rp' : List ℕ} (hx : x.At {N} u rp e)
    (hy : y.At {N} u' rp' e) (hnodup : N.edges.Nodup) : x = y ∧ u = u' ∧ rp = rp' := by
  obtain ⟨l₁, l₂, heq, hlen⟩ := hx.split_edges
  obtain ⟨l₁', l₂', heq', hlen'⟩ := hy.split_edges
  rw [Set.mem_singleton_iff.mp hx.mem] at heq
  rw [Set.mem_singleton_iff.mp hy.mem, heq] at heq'
  rw [heq] at hnodup
  have hnot := (List.nodup_cons.mp (List.nodup_middle.mp hnodup)).1
  have hnot' := (List.nodup_cons.mp (List.nodup_middle.mp (heq' ▸ hnodup))).1
  have hidx := congrArg (List.idxOf e) heq'
  rw [List.idxOf_append_of_notMem (fun h => hnot (List.mem_append_left _ h)),
    List.idxOf_append_of_notMem (fun h => hnot' (List.mem_append_left _ h)),
    List.idxOf_cons_self, List.idxOf_cons_self] at hidx
  obtain ⟨h, hu, hrp, _⟩ := hx.eq_of_length hy (by omega)
  exact ⟨h, hu, hrp⟩

lemma installHops_spec {path pre r : List ℕ} (hsplit : N.fullPath = pre ++ path)
    (hback : reversePath G N.v pre = some (u, r)) (tbl : PlinkoTable G) :
    ∃ tbl', installHops G N.failedE u (r ++ N.extraRPath) path tbl = some tbl' ∧
      Adds .hopByHop N pre.length tbl tbl' := by
  induction path generalizing pre u r tbl with
  | nil =>
    refine ⟨tbl, rfl, fun entry h => .inl h, fun k hk => hk, ?_, fun h => h⟩
    intro x u rp e hx _ hlen
    have hx' := hx.split
    rw [Set.mem_singleton_iff.mp hx.mem, hsplit, List.append_nil] at hx'
    rw [hx', List.length_append, List.length_cons] at hlen
    omega
  | cons hop path ih =>
    obtain ⟨rr, arcs, hr, ha, hup⟩ := leads_iff.mp N.leads
    have hl : G.Leads N.failedE u (hop :: path) N.rv := by
      have hN := N.leads
      rw [hsplit] at hN
      obtain ⟨w, hpre, hrest⟩ := leads_append.mp hN
      obtain ⟨r', arcs', hr', _⟩ := leads_iff.mp hpre
      rw [hback, Option.some.injEq, Prod.mk.injEq] at hr'
      rwa [← hr'.1] at hrest
    obtain ⟨currpath, hcurr, hv, hpath, hfull, hrv, hfailed, hextra⟩ :=
      exists_mkPath [hop] hl (r ++ N.extraRPath)
    obtain ⟨e, w, q, hhop, he, hl'⟩ := hl
    have hat : Place.At {N} ⟨N, pre, hop, path⟩ u (r ++ N.extraRPath) e :=
      ⟨Set.mem_singleton N, hsplit, ⟨r, hback, rfl⟩, PortGraph.edges_of_hop hhop⟩
    let k : V × FwdKey E := Place.key ⟨N, pre, hop, path⟩ u (r ++ N.extraRPath) e
    have hsplit' : N.fullPath = (pre ++ [hop]) ++ path := by
      rw [hsplit, List.append_assoc, List.singleton_append]
    obtain ⟨tbl', hrun, hadds⟩ := ih hsplit'
      (reversePath_concat.mpr ⟨u, r, e, q, hback, hhop, rfl⟩) (dictSet tbl k currpath)
    refine ⟨tbl', ?_, ?_, ?_, ?_, ?_⟩
    · simp only [installHops, hhop, Option.bind_eq_bind, Option.bind_some, hcurr]
      exact hrun
    · intro entry hentry
      rcases hadds.sound entry hentry with hold | hnew
      · rcases mem_dictSet hold with rfl | hold
        · refine .inr ⟨_, u, _, e, hat, rfl, hv, hrv, hfull, ?_, fun _ => hpath⟩
          exact fun h => nomatch h
        · exact .inl hold
      · exact .inr hnew
    · exact fun k' hk => hadds.keys k' (mem_keys_dictSet.mpr (.inr hk))
    · intro x u' rp' e' hx hsrc hlen
      by_cases heq : x.pre.length = pre.length
      · obtain ⟨rfl, rfl, rfl, rfl⟩ := hx.eq_of_length hat heq
        exact hadds.keys _ (mem_keys_dictSet.mpr (.inl rfl))
      · refine hadds.complete x u' rp' e' hx hsrc ?_
        rw [List.length_append, List.length_singleton]
        omega
    · exact fun h => hadds.nodup (nodup_keys_dictSet h)

/-- Storing a path adds its entries. -/
theorem install_spec (hN : IsBranch dst v failedE rp N) (ht : TableOf fwdRouting S tbl) :
    ∃ tbl', install G fwdRouting tbl N = some tbl' ∧
      TableOf fwdRouting (insert N S) tbl' := by
  cases fwdRouting with
  | hopByHop =>
    obtain ⟨tbl', hrun, hadds⟩ := installHops_spec (N := N) (List.nil_append _).symm rfl tbl
    rw [install, hN.path_eq]
    exact ⟨tbl', hrun, hadds.tableOf ht⟩
  | src =>
    obtain ⟨hop, post, hfull⟩ := List.exists_cons_of_ne_nil hN.ne_nil
    have hl := N.leads
    rw [hfull] at hl
    obtain ⟨e, w, q, hhop, _, _⟩ := hl
    have hat : Place.At {N} ⟨N, [], hop, post⟩ N.v N.extraRPath e :=
      ⟨Set.mem_singleton N, hfull, ⟨[], rfl, rfl⟩, PortGraph.edges_of_hop hhop⟩
    let k : V × FwdKey E := Place.key ⟨N, [], hop, post⟩ N.v N.extraRPath e
    refine ⟨dictSet tbl k N, ?_, Adds.tableOf ?_ ht⟩
    · simp only [install, hN.path_eq, hfull, List.head?_cons, Option.bind_eq_bind,
        Option.bind_some, PortGraph.edges_of_hop hhop]
      rfl
    · refine ⟨fun entry hentry => ?_, fun k hk => mem_keys_dictSet.mpr (.inr hk), ?_,
        nodup_keys_dictSet⟩
      · rcases mem_dictSet hentry with rfl | hold
        · exact .inr ⟨_, N.v, _, e, hat, rfl, rfl, rfl, hfull,
            fun _ => ⟨rfl, hN.path_eq.trans hfull⟩, fun h => nomatch h⟩
        · exact .inl hold
      · intro x u' rp' e' hx hsrc _
        obtain ⟨rfl, rfl, rfl, rfl⟩ := hx.eq_of_length hat (by rw [hsrc rfl])
        exact mem_keys_dictSet.mpr (.inl rfl)

variable (fwdRouting) in
lemma tableOf_empty : TableOf fwdRouting (∅ : Set (Path G)) [] :=
  ⟨fun _ h => absurd h List.not_mem_nil, fun _ _ _ _ hx => absurd hx.mem (Set.notMem_empty _),
    List.nodup_nil⟩

lemma foldlM_install {Ns : List (Path G)} (hN : ∀ N ∈ Ns, IsBranch dst N.v failedE rp N)
    (ht : TableOf fwdRouting S tbl) : ∃ tbl', Ns.foldlM (install G fwdRouting) tbl = some tbl' ∧
      TableOf fwdRouting (S ∪ {N | N ∈ Ns}) tbl' := by
  induction Ns generalizing S tbl with
  | nil =>
    refine ⟨tbl, rfl, ?_⟩
    simpa using ht
  | cons N Ns ih =>
    obtain ⟨hN₀, hN⟩ := List.forall_mem_cons.mp hN
    obtain ⟨tbl₁, hrun₁, ht₁⟩ := install_spec hN₀ ht
    obtain ⟨tbl', hrun, ht'⟩ := ih hN ht₁
    refine ⟨tbl', ?_, ?_⟩
    · rw [List.foldlM_cons, hrun₁]
      exact hrun
    · have hset : S ∪ {B | B ∈ N :: Ns} = insert N S ∪ {B | B ∈ Ns} := by
        ext B
        simp only [Set.mem_union, Set.mem_insert_iff, Set.mem_ofPred_eq, List.mem_cons]
        tauto
      rw [hset]
      exact ht'

lemma TableOf.isRoute (ht : TableOf fwdRouting S tbl)
    (hS : ∀ B ∈ S, B.rv = dst ∧ B.edges.Nodup) :
    ∀ opath ∈ (tbl.atSwitch v).map Prod.snd, IsRoute fwdRouting dst v opath := by
  intro opath hin
  obtain ⟨⟨k, N⟩, hkN, rfl⟩ := List.mem_map.mp hin
  obtain ⟨entry, hentry, hsome⟩ := List.mem_filterMap.mp hkN
  obtain ⟨x, u, rp, e, hx, hkey, hst⟩ := ht.sound entry hentry
  split at hsome
  · rename_i hv
    obtain ⟨rfl, rfl⟩ := Prod.mk.inj (Option.some.inj hsome)
    have hu : u = v := by
      rw [hkey] at hv
      exact hv
    subst hu
    obtain ⟨hrv, hnodup⟩ := hS x.branch hx.mem
    refine ⟨hst.v_eq, hst.rv_eq.trans hrv, fun h => ?_, ?_, ?_⟩
    · rw [(hst.src h).2, hst.full_eq]
    · rw [hst.full_eq]
      exact List.cons_ne_nil _ _
    · obtain ⟨r, hr, _⟩ := hx.back
      have harcs := x.branch.arcSet_eq
      rw [hx.split, arcSet_append hr] at harcs
      obtain ⟨arcs₁, arcs₂, _, h₂, heq⟩ := harcs
      have h := entry.2.arcSet_eq
      rw [hst.v_eq, hst.full_eq, h₂, Option.some.injEq] at h
      rw [Path.edges, heq, List.map_append] at hnodup
      rw [Path.edges, ← h]
      exact (List.nodup_append'.mp hnodup).2.1
  · cases hsome

/-- What a path adds to the next round. -/
def depPairs (N : Path G) : List (Finset E × Path G) :=
  N.edges.map (fun e => (insert e N.failedE, N))

omit [DecidableEq V] in
lemma foldlM_dictAppend {β : Type} (N : β) {arcs : List (V × E)} (hd : ∀ a ∈ arcs, a.2 ∉ failedE)
    (deps : List (Finset E × List β)) :
    ∃ deps', arcs.foldlM (fun (deps : List (Finset E × List β)) a => do
        guard (a.2 ∉ failedE)
        some (dictAppend (insert a.2 failedE) N deps)) deps = some deps' ∧
      (dictPairs deps').Perm
        (dictPairs deps ++ arcs.map (fun a => (insert a.2 failedE, N))) := by
  induction arcs generalizing deps with
  | nil => exact ⟨deps, rfl, by simp⟩
  | cons a arcs ih =>
    obtain ⟨ha, hd⟩ := List.forall_mem_cons.mp hd
    obtain ⟨deps', hrun, hperm⟩ := ih hd (dictAppend (insert a.2 failedE) N deps)
    refine ⟨deps', ?_, hperm.trans ?_⟩
    · simp only [List.foldlM_cons, guard, if_pos ha, Option.bind_eq_bind]
      exact hrun
    · rw [List.map_cons, ← List.singleton_append, ← List.append_assoc]
      exact (dictPairs_append_perm deps _ N).append_right _

lemma updateDepsOf_spec {β : Type} (toPath : β → Path G) {b : β}
    (hb : IsBranch dst v failedE rp (toPath b)) (deps : List (Finset E × List β)) :
    ∃ deps', updateDepsOf toPath failedE deps b = some deps' ∧
      (dictPairs deps').Perm (dictPairs deps ++
        (toPath b).edges.map (fun e => (insert e (toPath b).failedE, b))) := by
  have hd : ∀ a ∈ (toPath b).arcs, a.2 ∉ failedE := fun a ha =>
    hb.failedE_eq ▸ (toPath b).not_mem_failedE (List.mem_map_of_mem ha)
  obtain ⟨deps', hrun, hperm⟩ := foldlM_dictAppend b hd deps
  refine ⟨deps', ?_, ?_⟩
  · rw [updateDepsOf, hb.path_eq, (toPath b).arcSet_eq]
    exact hrun
  · rw [Path.edges, List.map_map, hb.failedE_eq]
    exact hperm

lemma updateDeps_spec (hN : IsBranch dst v failedE rp N) (deps : Deps G) :
    ∃ deps', updateDeps G failedE deps N = some deps' ∧
      (dictPairs deps').Perm (dictPairs deps ++ depPairs N) :=
  updateDepsOf_spec id hN deps

omit [DecidableEq V] [DecidableEq E] in
lemma foldlM_adds {α β δ : Type} {f : δ → α → Option δ} {content : δ → List β} {new : α → List β}
    {l : List α} (hf : ∀ a ∈ l, ∀ d, ∃ d', f d a = some d' ∧
      (content d').Perm (content d ++ new a)) (d : δ) :
    ∃ d', l.foldlM f d = some d' ∧ (content d').Perm (content d ++ l.flatMap new) := by
  induction l generalizing d with
  | nil => exact ⟨d, rfl, by simp⟩
  | cons a l ih =>
    obtain ⟨hf₀, hf⟩ := List.forall_mem_cons.mp hf
    obtain ⟨d₁, hrun₁, hperm₁⟩ := hf₀ d
    obtain ⟨d', hrun, hperm⟩ := ih hf d₁
    refine ⟨d', ?_, ?_⟩
    · rw [List.foldlM_cons, hrun₁]
      exact hrun
    · rw [List.flatMap_cons, ← List.append_assoc]
      exact hperm.trans (hperm₁.append_right _)

lemma foldlM_updateDeps {Ns : List (Path G)} (hN : ∀ N ∈ Ns, IsBranch dst N.v failedE rp N)
    (deps : Deps G) : ∃ deps', Ns.foldlM (updateDeps G failedE) deps = some deps' ∧
      (dictPairs deps').Perm (dictPairs deps ++ Ns.flatMap depPairs) :=
  foldlM_adds (fun N hmem => updateDeps_spec (hN N hmem)) deps

lemma mem_depPairs {a : Finset E × Path G} :
    a ∈ depPairs N ↔ a.2 = N ∧ ∃ e ∈ N.edges, a.1 = insert e N.failedE := by
  rw [depPairs, List.mem_map]
  constructor
  · rintro ⟨e, he, rfl⟩
    exact ⟨rfl, e, he, rfl⟩
  · rintro ⟨h, e, he, h'⟩
    exact ⟨e, he, Prod.ext h'.symm h.symm⟩

lemma nodup_depPairs (h : N.edges.Nodup) : (depPairs N).Nodup := by
  refine List.Nodup.map_on (fun e he e' he' heq => ?_) h
  have hmem : e ∈ insert e' N.failedE := by
    rw [← (Prod.mk.inj heq).1]
    exact Finset.mem_insert_self ..
  exact (Finset.mem_insert.mp hmem).resolve_right (N.not_mem_failedE he)

lemma nodup_flatMap_depPairs {Ns : List (Path G)} (hN : ∀ N ∈ Ns, N.edges.Nodup)
    (h : Ns.Nodup) : (Ns.flatMap depPairs).Nodup := by
  induction Ns with
  | nil => exact List.nodup_nil
  | cons N Ns ih =>
    obtain ⟨hnot, h⟩ := List.nodup_cons.mp h
    obtain ⟨hN₀, hN⟩ := List.forall_mem_cons.mp hN
    rw [List.flatMap_cons, List.nodup_append']
    refine ⟨nodup_depPairs hN₀, ih hN h, fun a ha ha' => hnot ?_⟩
    obtain ⟨N', hN', hin⟩ := List.mem_flatMap.mp ha'
    rw [← (mem_depPairs.mp ha).1, (mem_depPairs.mp hin).1]
    exact hN'

end ResSim
