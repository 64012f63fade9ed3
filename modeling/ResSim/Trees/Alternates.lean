import ResSim.Trees.Adst

/-!
# Alternate trees

In both kinds of tables without deadlock freedom, the entries for packets on a tree list that
tree and then every other resilient tree once, whatever reverse trees come in between, and
every entry marks exactly the trees of the entries before it. So the size of a switch's table
depends only on the numbers of default and of resilient trees.
-/

namespace ResSim

variable {V E τ : Type} [DecidableEq V] [DecidableEq E] [DecidableEq τ]

/-- The entries for packets on the tree `iT`: that tree, then every other resilient tree once,
each marking the trees before it. -/
structure AlternateList (rtrees : List τ) (iT : τ) (entries : List (FwdEntry τ E)) : Prop where
  trees : ∃ order, entries.map FwdEntry.ntree = iT :: order ∧
    order.Perm (rtrees.filter (fun t => t != iT))
  marks : ∀ pre entry post, entries = pre ++ entry :: post →
    ∀ t, t ∈ entry.markFailed ↔ t ∈ pre.map FwdEntry.ntree

section Lists

variable {G : PortGraph V E} {tree : τ → ITree V E} {fpaths : V → τ → List ℕ} {v : V}
  {rtrees shortest order : List τ} {iT : τ} {entries : List (FwdEntry τ E)}

omit [DecidableEq E] in
lemma Listed.alternateList (h : Listed G fpaths v (iT :: order) entries)
    (hn : (iT :: order).Nodup) (hr : rtrees.Nodup)
    (hmem : ∀ t, t ∈ iT :: order ↔ t = iT ∨ t ∈ rtrees) : AlternateList rtrees iT entries := by
  obtain ⟨hnot, hn⟩ := List.nodup_cons.mp hn
  refine ⟨⟨order, h.trees, ?_⟩, fun pre entry post hsplit t => by rw [h.marks pre entry post hsplit]⟩
  apply (List.perm_ext_iff_of_nodup hn (hr.filter _)).mpr
  intro t
  have ht := hmem t
  rw [List.mem_cons] at ht
  rw [List.mem_filter, bne_iff_ne]
  constructor
  · intro hin
    have hne : t ≠ iT := by
      rintro rfl
      exact hnot hin
    exact ⟨(ht.mp (.inr hin)).resolve_left hne, hne⟩
  · rintro ⟨hin, hne⟩
    exact (ht.mpr (.inr hin)).resolve_left hne

omit [DecidableEq E] in
lemma AlternateList.length_eq (h : AlternateList rtrees iT entries) (hr : rtrees.Nodup) :
    entries.length = if iT ∈ rtrees then rtrees.length else rtrees.length + 1 := by
  obtain ⟨⟨order, htrees, hperm⟩, _⟩ := h
  have hlen : entries.length = order.length + 1 := by
    rw [← List.length_map (f := FwdEntry.ntree), htrees, List.length_cons]
  rw [hlen, hperm.length_eq, ← hr.erase_eq_filter]
  split
  · rename_i hin
    have := List.length_pos_of_mem hin
    rw [List.length_erase_of_mem hin]
    omega
  · rename_i hnot
    rw [List.erase_of_not_mem hnot]

/-! ### Built entries -/

omit [DecidableEq E] [DecidableEq τ] in
lemma hasHop_of_treeEntry {usedTrees : List τ} {entry : FwdEntry τ E}
    (h : treeEntry G fpaths v iT usedTrees = some entry) : HasHop G fpaths v iT := by
  obtain ⟨port, hport, h⟩ := Option.bind_eq_some_iff.mp h
  obtain ⟨e, he, _⟩ := Option.bind_eq_some_iff.mp h
  obtain ⟨ps, hps⟩ := List.head?_eq_some_iff.mp hport
  obtain ⟨w, q, hhop⟩ := PortGraph.exists_hop_of_edges he
  exact ⟨port, ps, e, w, q, hps, hhop⟩

omit [DecidableEq E] in
lemma hasHop_of_edstEntries (h : edstEntries G fpaths v shortest iT = some entries) :
    HasHop G fpaths v iT := by
  obtain ⟨entry, he, _⟩ := Option.bind_eq_some_iff.mp h
  exact hasHop_of_treeEntry he

lemma hasHop_of_adstEntries (h : adstEntries G tree rtrees fpaths v shortest iT = some entries) :
    HasHop G fpaths v iT := by
  obtain ⟨_, hrev, _⟩ := Option.bind_eq_some_iff.mp h
  obtain ⟨entry, he, _⟩ := Option.bind_eq_some_iff.mp hrev
  exact hasHop_of_treeEntry he

omit [DecidableEq E] in
lemma alternateList_edstEntries (hr : rtrees.Nodup) (hs : ∀ t, t ∈ shortest ↔ t ∈ rtrees)
    (hhop : ∀ t ∈ rtrees, HasHop G fpaths v t)
    (h : edstEntries G fpaths v shortest iT = some entries) : AlternateList rtrees iT entries := by
  obtain ⟨entries', order, hrun, hl, hn, hmem⟩ :=
    exists_edstEntries (hasHop_of_edstEntries h) (fun t ht => hhop t ((hs t).mp ht))
  obtain rfl := Option.some.inj (h.symm.trans hrun)
  exact hl.alternateList hn hr (fun t => (hmem t).trans (or_congr_right (hs t)))

lemma alternateList_adstEntries (hr : rtrees.Nodup) (hs : ∀ t, t ∈ shortest ↔ t ∈ rtrees)
    (hhop : ∀ t ∈ rtrees, HasHop G fpaths v t)
    (h : adstEntries G tree rtrees fpaths v shortest iT = some entries) :
    AlternateList rtrees iT entries := by
  obtain ⟨entries', order, hrun, hl, hn, hmem, _⟩ :=
    exists_adstEntries (hasHop_of_adstEntries h) hs hhop
  obtain rfl := Option.some.inj (h.symm.trans hrun)
  exact hl.alternateList hn hr hmem

end Lists

/-! ### The tables of the switches -/

section Switches

variable {G : PortGraph V E} {tree : τ → ITree V E} {forest : List τ} {isDefault : τ → Bool}
  {fpaths : V → τ → List ℕ} {dst v : V} {args : TreeArgs} {draw : V → ℕ}
  {table : Fwdtable V τ E} {startTrees trees rtrees : List τ}

omit [DecidableEq V] [DecidableEq E] [DecidableEq τ] in
lemma length_flatten_keyed {treeEntries : τ → Option (List (FwdEntry τ E))} {size : τ → ℕ}
    {rest : List (List (Option τ × FwdEntry τ E))}
    (h : List.Forall₂ (fun iT l => (treeEntries iT).map (fun l => l.map (Prod.mk (some iT))) =
      some l) trees rest)
    (hsize : ∀ iT ∈ trees, ∀ entries, treeEntries iT = some entries → entries.length = size iT) :
    rest.flatten.length = (trees.map size).sum := by
  induction h with
  | nil => rfl
  | cons hiT _ ih =>
    obtain ⟨hfirst, hsize⟩ := List.forall_mem_cons.mp hsize
    obtain ⟨entries, hentries, rfl⟩ := Option.map_eq_some_iff.mp hiT
    rw [List.flatten_cons, List.length_append, ih hsize, List.length_map,
      hfirst entries hentries, List.map_cons, List.sum_cons]

omit [DecidableEq V] [DecidableEq E] [DecidableEq τ] in
/-- What is built for packets on each tree determines the number of entries of a switch. -/
lemma length_switchTable {treeEntries : τ → Option (List (FwdEntry τ E))}
    {l : List (Option τ × FwdEntry τ E)} (size : τ → ℕ)
    (h : switchTable G fpaths v startTrees trees treeEntries = some l)
    (hsize : ∀ iT ∈ trees, ∀ entries, treeEntries iT = some entries → entries.length = size iT) :
    l.length = startTrees.length + (trees.map size).sum := by
  obtain ⟨start, hstart, h⟩ := Option.bind_eq_some_iff.mp h
  obtain ⟨rest, hrest, h⟩ := Option.bind_eq_some_iff.mp h
  obtain rfl := Option.some.inj h
  rw [List.length_append, List.length_map, ← (forall₂_of_mapM hstart).length_eq,
    length_flatten_keyed (forall₂_of_mapM hrest) hsize]

omit [DecidableEq V] [DecidableEq E] in
/-- The lists of the trees, and their number, if what is built for a tree is its list of
alternates. -/
lemma switchTable_alternates {treeEntries : τ → Option (List (FwdEntry τ E))}
    {l : List (Option τ × FwdEntry τ E)} {shortest : List τ} (hforest : forest.Nodup)
    (hshort : shortest.Perm (forest.filter (fun iT => !isDefault iT)))
    (h : switchTable G fpaths v
      (if 0 < (forest.filter isDefault).length then forest.filter isDefault else shortest)
      (forest.filter isDefault ++ shortest) treeEntries = some l)
    (hbuilt : ∀ iT ∈ forest, ∀ entries, treeEntries iT = some entries →
      AlternateList (forest.filter (fun iT => !isDefault iT)) iT entries) :
    (∀ iT ∈ forest, AlternateList (forest.filter (fun iT => !isDefault iT)) iT
      (keyed (some iT) l)) ∧
    ∀ d n, (forest.filter isDefault).length = d →
      (forest.filter (fun iT => !isDefault iT)).length = n →
      l.length = if 0 < d then d + d * (n + 1) + n * n else n + n * n := by
  have hr : (forest.filter (fun iT => !isDefault iT)).Nodup := hforest.filter _
  have hperm : (forest.filter isDefault ++ shortest).Perm forest :=
    (hshort.append_left _).trans (List.filter_append_perm isDefault forest)
  have hkeyed := fun iT (hiT : iT ∈ forest) =>
    keyed_switchTable h (hperm.nodup_iff.mpr hforest) (hperm.mem_iff.mpr hiT)
  refine ⟨fun iT hiT => hbuilt iT hiT _ (hkeyed iT hiT), ?_⟩
  rintro d n rfl rfl
  let n := (forest.filter (fun iT => !isDefault iT)).length
  have hlen := length_switchTable (fun iT => if isDefault iT then n + 1 else n) h (by
    intro iT hiT entries hentries
    have hin := hperm.mem_iff.mp hiT
    rw [(hbuilt iT hin entries hentries).length_eq hr]
    cases hdef : isDefault iT <;> simp [hin, hdef, n])
  have hdefault : ((forest.filter isDefault).map (fun iT => if isDefault iT then n + 1 else n)).sum =
      (forest.filter isDefault).length * (n + 1) := by
    rw [List.map_congr_left (g := fun _ => n + 1) (fun iT hiT => if_pos (List.mem_filter.mp hiT).2),
      List.map_const', List.sum_replicate_nat]
  have hresilient : (shortest.map (fun iT => if isDefault iT then n + 1 else n)).sum = n * n := by
    rw [List.map_congr_left (g := fun _ => n) (fun iT hiT => if_neg (by
        simpa using (List.mem_filter.mp (hshort.mem_iff.mp hiT)).2)),
      List.map_const', List.sum_replicate_nat, hshort.length_eq]
  rw [List.map_append, List.sum_append, hdefault, hresilient] at hlen
  rw [hlen]
  split
  · rw [Nat.add_assoc]
  · rename_i hpos
    rw [hshort.length_eq, show (forest.filter isDefault).length = 0 by omega, Nat.zero_mul,
      Nat.zero_add]

omit [DecidableEq E] [DecidableEq τ] in
lemma hasHop_of_switchTable {treeEntries : τ → Option (List (FwdEntry τ E))}
    {l : List (Option τ × FwdEntry τ E)}
    (h : switchTable G fpaths v startTrees trees treeEntries = some l)
    (hhop : ∀ iT entries, treeEntries iT = some entries → HasHop G fpaths v iT) :
    ∀ iT ∈ trees, HasHop G fpaths v iT := by
  obtain ⟨_, _, h⟩ := Option.bind_eq_some_iff.mp h
  obtain ⟨rest, hrest, _⟩ := Option.bind_eq_some_iff.mp h
  intro iT hiT
  obtain ⟨_, _, hens⟩ := exists_of_forall₂ (forall₂_of_mapM hrest) hiT
  obtain ⟨entries, hentries, _⟩ := Option.map_eq_some_iff.mp hens
  exact hhop iT entries hentries

/-- At every switch but the destination the table of a forest lists for each tree that tree and
then every other resilient tree once, with the right marks; so `d` default and `n` resilient
trees take a number of entries that depends on nothing else. -/
theorem fwdtable_alternates (hforest : forest.Nodup)
    (h : edstFwdtableNormal G forest isDefault fpaths dst args draw = some table ∨
      adstFwdtable G tree forest isDefault fpaths dst args draw = some table) (hv : v ≠ dst) :
    (∀ iT ∈ forest, AlternateList (forest.filter (fun iT => !isDefault iT)) iT
      (table.entries v (some iT))) ∧
    ∀ d n, (forest.filter isDefault).length = d →
      (forest.filter (fun iT => !isDefault iT)).length = n →
      (table v).length = if 0 < d then d + d * (n + 1) + n * n else n + n * n := by
  have hr : (forest.filter (fun iT => !isDefault iT)).Nodup := hforest.filter _
  have hshort := sortTrees_perm fpaths v (draw v) (forest.filter (fun iT => !isDefault iT))
  rcases h with h | h
  · obtain ⟨_, h⟩ := Option.ite_none_right_eq_some.mp h
    have hswitch := (tableOf_some h).2 v hv
    have hhop := hasHop_of_switchTable hswitch (fun iT entries => hasHop_of_edstEntries)
    apply switchTable_alternates hforest hshort hswitch
    intro iT _ entries hentries
    apply alternateList_edstEntries hr (fun t => hshort.mem_iff) _ hentries
    exact fun t ht => hhop t (List.mem_append_right _ (hshort.mem_iff.mpr ht))
  · obtain ⟨_, h⟩ := Option.ite_none_right_eq_some.mp h
    have hswitch := (tableOf_some h).2 v hv
    have hhop := hasHop_of_switchTable hswitch (fun iT entries => hasHop_of_adstEntries)
    apply switchTable_alternates hforest hshort hswitch
    intro iT _ entries hentries
    apply alternateList_adstEntries hr (fun t => hshort.mem_iff) _ hentries
    exact fun t ht => hhop t (List.mem_append_right _ (hshort.mem_iff.mpr ht))

/-- Packets start on the default trees, or on any tree if there are none. -/
theorem fwdtable_starts
    (h : edstFwdtableNormal G forest isDefault fpaths dst args draw = some table ∨
      adstFwdtable G tree forest isDefault fpaths dst args draw = some table) (hv : v ≠ dst) :
    ((table.entries v none).map FwdEntry.ntree).Perm
      (if 0 < (forest.filter isDefault).length then forest.filter isDefault else forest) := by
  have hstarts : (table.entries v none).map FwdEntry.ntree =
      if 0 < (forest.filter isDefault).length then forest.filter isDefault
      else sortTrees fpaths v (draw v) (forest.filter (fun iT => !isDefault iT)) := by
    rcases h with h | h
    · obtain ⟨_, h⟩ := Option.ite_none_right_eq_some.mp h
      exact starts_switchTable ((tableOf_some h).2 v hv)
    · obtain ⟨_, h⟩ := Option.ite_none_right_eq_some.mp h
      exact starts_switchTable ((tableOf_some h).2 v hv)
  rw [hstarts]
  split
  · exact List.Perm.refl _
  · rename_i hnone
    have hnil : forest.filter isDefault = [] := List.eq_nil_of_length_eq_zero (by omega)
    have hperm := trees_perm fpaths v (draw v) forest isDefault
    rwa [hnil, List.nil_append] at hperm

end Switches

/-- A table for a default tree and three resilient trees, which switch `1` sorts `0, 2, 1`. -/
def bounceDefault : Fwdtable (Fin 5) (Fin 4) (Fin 14) :=
  (adstFwdtable bounceGraph bounceTree [0, 1, 2, 3] (fun iT => iT = 3) bouncePaths 0 ⟨1, 3⟩
    (fun _ => 3)).getD (fun _ => [])

lemma bounceDefault_eq : adstFwdtable bounceGraph bounceTree [0, 1, 2, 3] (fun iT => iT = 3)
    bouncePaths 0 ⟨1, 3⟩ (fun _ => 3) = some bounceDefault :=
  eq_some_getD _ (by decide +kernel)

/-- Behind tree `0` comes tree `1`, which reverses it, although tree `2` is sorted before it. -/
theorem fwdtable_alternates_bounce :
    sortTrees bouncePaths 1 3 [0, 1, 2] = [0, 2, 1] ∧
      (bounceDefault.entries 1 (some 3)).map FwdEntry.ntree = [3, 0, 1, 2] ∧
      (∀ iT ∈ [0, 1, 2, 3], AlternateList [0, 1, 2] iT (bounceDefault.entries 1 (some iT))) ∧
      ∀ d n, [(3 : Fin 4)].length = d → [(0 : Fin 4), 1, 2].length = n →
        (bounceDefault 1).length = if 0 < d then d + d * (n + 1) + n * n else n + n * n :=
  ⟨by decide +kernel, by decide +kernel,
    fwdtable_alternates (by decide) (.inr bounceDefault_eq) (by decide)⟩

end ResSim
