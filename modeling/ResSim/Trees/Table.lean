import Mathlib.Data.List.Sort
import ResSim.Lib.Random
import ResSim.Lib.Traverse
import ResSim.Trees.FwdtableWalk

/-!
# Building tree forwarding tables

What the tables for edge-disjoint and for arc-disjoint trees have in common: the checks of
the forest, the order of the trees at a switch, the entries for packets on no tree, and the
entries for packets on one tree, each of which marks the trees used before it.
-/

namespace ResSim

/-- The options that the tables check. -/
structure TreeArgs where
  defaultTrees : ℕ
  numTrees : ℤ

variable {V E τ : Type} [DecidableEq V]

/-- The assertions on the numbers of trees. -/
def TreeArgs.accepts (args : TreeArgs) (dtrees rtrees : List τ) : Bool :=
  dtrees.length = args.defaultTrees ∧
    if 0 ≤ args.numTrees then (rtrees.length : ℤ) = args.numTrees
    else args.numTrees ≠ 0 → 0 < rtrees.length

/-- The resilient trees at a switch, shorter paths first, ties in random order. -/
def sortTrees (fpaths : V → τ → List ℕ) (v : V) (draw : ℕ) (rtrees : List τ) : List τ :=
  (shuffle draw rtrees).insertionSort (fun x y => (fpaths v x).length ≤ (fpaths v y).length)

/-- The entry for the tree `iT`, which marks the trees used before. -/
def treeEntry (G : PortGraph V E) (fpaths : V → τ → List ℕ) (v : V) (iT : τ)
    (usedTrees : List τ) : Option (FwdEntry τ E) := do
  let port ← (fpaths v iT).head?
  let e ← G.edges v port
  some ⟨iT, e, port, usedTrees⟩

/-- The entries of one switch: those for packets on no tree, then those for every tree. -/
def switchTable (G : PortGraph V E) (fpaths : V → τ → List ℕ) (v : V)
    (startTrees trees : List τ) (treeEntries : τ → Option (List (FwdEntry τ E))) :
    Option (List (Option τ × FwdEntry τ E)) := do
  let start ← startTrees.mapM (fun iT => treeEntry G fpaths v iT [])
  let rest ← trees.mapM (fun iT => (treeEntries iT).map (fun l => l.map (Prod.mk (some iT))))
  some (start.map (Prod.mk none) ++ rest.flatten)

/-- The table of all switches but the destination. -/
def tableOf {κ : Type} (G : PortGraph V E) (dst : V) (switch : V → Option (List κ)) :
    Option (V → List κ) :=
  if G.verts.all (fun v => v = dst ∨ (switch v).isSome) then
    some (fun v => if v = dst then [] else (switch v).getD [])
  else none

omit [DecidableEq V] in
lemma mem_sortTrees {fpaths : V → τ → List ℕ} {v : V} {draw : ℕ} {rtrees : List τ} {iT : τ} :
    iT ∈ sortTrees fpaths v draw rtrees ↔ iT ∈ rtrees := by
  rw [sortTrees, List.mem_insertionSort, mem_shuffle]

omit [DecidableEq V] in
lemma sortTrees_perm (fpaths : V → τ → List ℕ) (v : V) (draw : ℕ) (rtrees : List τ) :
    (sortTrees fpaths v draw rtrees).Perm rtrees :=
  (List.perm_insertionSort _ _).trans (shuffle_perm draw rtrees)

lemma tableOf_eq {κ : Type} {G : PortGraph V E} {dst : V} {switch : V → Option (List κ)}
    {entries : V → List κ} (h : ∀ v, v ≠ dst → switch v = some (entries v)) :
    tableOf G dst switch = some (fun v => if v = dst then [] else entries v) := by
  have hall : G.verts.all (fun v => v = dst ∨ (switch v).isSome) = true := by
    rw [List.all_eq_true]
    intro v _
    by_cases hv : v = dst
    · exact decide_eq_true (.inl hv)
    · exact decide_eq_true (.inr (by rw [h v hv, Option.isSome_some]))
  rw [tableOf, if_pos hall]
  congr 1
  funext v
  by_cases hv : v = dst
  · rw [if_pos hv, if_pos hv]
  · rw [if_neg hv, if_neg hv, h v hv, Option.getD_some]

lemma eq_some_getD {α : Type} {o : Option α} (d : α) (h : o.isSome = true) :
    o = some (o.getD d) := by
  rw [← Option.get_eq_getD o (h := h), Option.some_get]

lemma tableOf_some {κ : Type} {G : PortGraph V E} {dst : V} {switch : V → Option (List κ)}
    {table : V → List κ} (h : tableOf G dst switch = some table) :
    table dst = [] ∧ ∀ v, v ≠ dst → switch v = some (table v) := by
  obtain ⟨hall, h⟩ := Option.ite_none_right_eq_some.mp h
  obtain rfl := Option.some.inj h
  refine ⟨if_pos rfl, fun v hv => ?_⟩
  have hsome : (switch v).isSome = true := by
    have := List.all_eq_true.mp hall v (G.mem_verts v)
    simpa [hv] using this
  dsimp only
  rw [if_neg hv]
  exact eq_some_getD [] hsome

section Switch

variable {G : PortGraph V E} {fpaths : V → τ → List ℕ} {v : V}

/-- The first hop of the path of every tree exists. -/
def HasHop (G : PortGraph V E) (fpaths : V → τ → List ℕ) (v : V) (iT : τ) : Prop :=
  ∃ port ps e w q, fpaths v iT = port :: ps ∧ G.hop v port = some (e, w, q)

lemma exists_treeEntry {iT : τ} (h : HasHop G fpaths v iT) (usedTrees : List τ) :
    ∃ entry, treeEntry G fpaths v iT usedTrees = some entry ∧ entry.ntree = iT ∧
      entry.markFailed = usedTrees ∧
      ∃ ps w q, fpaths v iT = entry.port :: ps ∧ G.hop v entry.port = some (entry.ue, w, q) := by
  obtain ⟨port, ps, e, w, q, hp, hhop⟩ := h
  refine ⟨⟨iT, e, port, usedTrees⟩, ?_, rfl, rfl, ps, w, q, hp, hhop⟩
  rw [treeEntry, hp, List.head?_cons, Option.bind_eq_bind, Option.bind_some,
    PortGraph.edges_of_hop hhop]
  rfl

/-- Entries that continue a list of used trees. -/
structure ListedFrom (G : PortGraph V E) (fpaths : V → τ → List ℕ) (v : V)
    (usedTrees order : List τ) (entries : List (FwdEntry τ E)) : Prop where
  trees : entries.map FwdEntry.ntree = order
  marks : ∀ pre entry post, entries = pre ++ entry :: post →
    entry.markFailed = usedTrees ++ pre.map FwdEntry.ntree
  hops : ∀ entry ∈ entries, ∃ ps w q, fpaths v entry.ntree = entry.port :: ps ∧
    G.hop v entry.port = some (entry.ue, w, q)

lemma listedFrom_nil {usedTrees : List τ} : ListedFrom G fpaths v usedTrees [] [] :=
  ⟨rfl, fun pre entry post h => by simp at h, by simp⟩

lemma ListedFrom.cons {usedTrees order : List τ} {iT : τ} {entry : FwdEntry τ E}
    {entries : List (FwdEntry τ E)}
    (h : ListedFrom G fpaths v (usedTrees ++ [iT]) order entries) (hn : entry.ntree = iT)
    (hm : entry.markFailed = usedTrees)
    (hh : ∃ ps w q, fpaths v iT = entry.port :: ps ∧ G.hop v entry.port = some (entry.ue, w, q)) :
    ListedFrom G fpaths v usedTrees (iT :: order) (entry :: entries) := by
  subst hn
  refine ⟨by rw [List.map_cons, h.trees], ?_, List.forall_mem_cons.mpr ⟨hh, h.hops⟩⟩
  intro pre entry' post heq
  cases pre with
  | nil =>
    obtain ⟨rfl, rfl⟩ := List.cons.inj heq
    simp [hm]
  | cons x pre =>
    obtain ⟨rfl, htail⟩ := List.cons.inj heq
    rw [h.marks pre entry' post htail]
    simp

lemma ListedFrom.listed {order : List τ} {entries : List (FwdEntry τ E)}
    (h : ListedFrom G fpaths v [] order entries) : Listed G fpaths v order entries :=
  ⟨⟨h.trees, h.hops⟩, h.marks⟩

lemma exists_treeEntries {order : List τ} (h : ∀ iT ∈ order, HasHop G fpaths v iT) :
    ∃ entries, order.mapM (fun iT => treeEntry G fpaths v iT []) = some entries ∧
      Lists G fpaths v order entries ∧ ∀ entry ∈ entries, entry.markFailed = [] := by
  induction order with
  | nil => exact ⟨[], rfl, ⟨rfl, by simp⟩, by simp⟩
  | cons iT order ih =>
    obtain ⟨hiT, horder⟩ := List.forall_mem_cons.mp h
    obtain ⟨entry, he, rfl, hm, hh⟩ := exists_treeEntry hiT []
    obtain ⟨entries, hrun, hl, hmarks⟩ := ih horder
    refine ⟨entry :: entries, ?_, ⟨by rw [List.map_cons, hl.trees],
      List.forall_mem_cons.mpr ⟨hh, hl.hops⟩⟩, List.forall_mem_cons.mpr ⟨hm, hmarks⟩⟩
    rw [List.mapM_cons, he, hrun]
    rfl

variable [DecidableEq τ]

lemma keyed_append (cur : Option τ) (l l' : List (Option τ × FwdEntry τ E)) :
    keyed cur (l ++ l') = keyed cur l ++ keyed cur l' := List.filterMap_append

lemma keyed_map_self (cur : Option τ) (ens : List (FwdEntry τ E)) :
    keyed cur (ens.map (Prod.mk cur)) = ens := by
  rw [keyed, List.filterMap_map]
  simp

lemma keyed_map_ne {cur cur' : Option τ} (h : cur' ≠ cur) (ens : List (FwdEntry τ E)) :
    keyed cur (ens.map (Prod.mk cur')) = [] := by
  rw [keyed, List.filterMap_map]
  simp [h]

lemma keyed_flatten {treeEntries : τ → Option (List (FwdEntry τ E))} {trees : List τ}
    {rest : List (List (Option τ × FwdEntry τ E))}
    (h : List.Forall₂ (fun iT l => ∃ ens, treeEntries iT = some ens ∧
      l = ens.map (Prod.mk (some iT))) trees rest) (hn : trees.Nodup) {iT : τ}
    {ens : List (FwdEntry τ E)} (hens : treeEntries iT = some ens) :
    keyed (some iT) rest.flatten = if iT ∈ trees then ens else [] := by
  induction h with
  | nil => rfl
  | @cons t l trees rest hl _ ih =>
    obtain ⟨ens', hens', rfl⟩ := hl
    obtain ⟨hnot, hn⟩ := List.nodup_cons.mp hn
    rw [List.flatten_cons, keyed_append, ih hn]
    by_cases ht : t = iT
    · subst ht
      rw [hens, Option.some.injEq] at hens'
      rw [keyed_map_self, if_neg hnot, if_pos (List.mem_cons_self ..), List.append_nil, hens']
    · rw [keyed_map_ne (fun h => ht (Option.some.inj h)), List.nil_append]
      simp [Ne.symm ht]

lemma keyed_flatten_of_notMem {treeEntries : τ → Option (List (FwdEntry τ E))} {trees : List τ}
    {rest : List (List (Option τ × FwdEntry τ E))}
    (h : List.Forall₂ (fun iT l => ∃ ens, treeEntries iT = some ens ∧
      l = ens.map (Prod.mk (some iT))) trees rest) {cur : Option τ}
    (hcur : ∀ iT ∈ trees, some iT ≠ cur) : keyed cur rest.flatten = [] := by
  induction h with
  | nil => rfl
  | cons hl _ ih =>
    obtain ⟨ens, _, rfl⟩ := hl
    obtain ⟨hne, hcur⟩ := List.forall_mem_cons.mp hcur
    rw [List.flatten_cons, keyed_append, ih hcur, keyed_map_ne hne, List.append_nil]

omit [DecidableEq V] in
/-- The entries of a switch for packets on a tree are those made for that tree. -/
lemma keyed_switchTable {startTrees trees : List τ}
    {treeEntries : τ → Option (List (FwdEntry τ E))} {l : List (Option τ × FwdEntry τ E)}
    (h : switchTable G fpaths v startTrees trees treeEntries = some l) (hn : trees.Nodup)
    {iT : τ} (hiT : iT ∈ trees) : treeEntries iT = some (keyed (some iT) l) := by
  obtain ⟨start, _, h⟩ := Option.bind_eq_some_iff.mp h
  obtain ⟨rest, hrest, h⟩ := Option.bind_eq_some_iff.mp h
  obtain rfl := Option.some.inj h
  have hall := (forall₂_of_mapM hrest).imp (fun iT l h => Option.map_eq_some_iff.mp h)
  obtain ⟨_, _, ens, hens, _⟩ := exists_of_forall₂ hall hiT
  rw [keyed_append, keyed_map_ne (Option.some_ne_none iT).symm, List.nil_append,
    keyed_flatten (hall.imp fun iT l h => h.imp fun ens h => ⟨h.1, h.2.symm⟩) hn hens,
    if_pos hiT, hens]

omit [DecidableEq V] [DecidableEq τ] in
lemma treeEntry_ntree {iT : τ} {usedTrees : List τ} {entry : FwdEntry τ E}
    (h : treeEntry G fpaths v iT usedTrees = some entry) : entry.ntree = iT := by
  obtain ⟨_, _, h⟩ := Option.bind_eq_some_iff.mp h
  obtain ⟨_, _, h⟩ := Option.bind_eq_some_iff.mp h
  rw [← Option.some.inj h]

omit [DecidableEq V] in
/-- The entries of a switch for packets on no tree are one for each start tree. -/
lemma starts_switchTable {startTrees trees : List τ}
    {treeEntries : τ → Option (List (FwdEntry τ E))} {l : List (Option τ × FwdEntry τ E)}
    (h : switchTable G fpaths v startTrees trees treeEntries = some l) :
    (keyed none l).map FwdEntry.ntree = startTrees := by
  obtain ⟨start, hstart, h⟩ := Option.bind_eq_some_iff.mp h
  obtain ⟨rest, hrest, h⟩ := Option.bind_eq_some_iff.mp h
  obtain rfl := Option.some.inj h
  have hall := (forall₂_of_mapM hrest).imp (fun iT l h => Option.map_eq_some_iff.mp h)
  rw [keyed_append, keyed_map_self, keyed_flatten_of_notMem
    (hall.imp fun iT l h => h.imp fun ens h => ⟨h.1, h.2.symm⟩)
    (fun t _ => Option.some_ne_none t), List.append_nil, ← List.forall₂_eq_eq_eq,
    List.forall₂_map_left_iff]
  exact (forall₂_of_mapM hstart).flip.imp (fun _ _ => treeEntry_ntree)

/-- The entries of a switch: one for each start tree, and for packets on a tree what was
built for that tree. -/
lemma exists_switchTable {startTrees trees : List τ} (hn : trees.Nodup)
    {treeEntries : τ → Option (List (FwdEntry τ E))}
    (hstart : ∀ iT ∈ startTrees, HasHop G fpaths v iT)
    (hbuilt : ∀ iT ∈ trees, ∃ ens, treeEntries iT = some ens) :
    ∃ l, switchTable G fpaths v startTrees trees treeEntries = some l ∧
      (∀ iT ∈ trees, ∀ ens, treeEntries iT = some ens → keyed (some iT) l = ens) ∧
      (∀ iT, iT ∉ trees → keyed (some iT) l = []) ∧
      (keyed none l).map FwdEntry.ntree = startTrees := by
  have hlists : ∀ iT ∈ trees, ∃ l, (treeEntries iT).map (fun l => l.map (Prod.mk (some iT))) =
      some l ∧ ∃ ens, treeEntries iT = some ens ∧ l = ens.map (Prod.mk (some iT)) := by
    intro iT hiT
    obtain ⟨ens, hens⟩ := hbuilt iT hiT
    exact ⟨_, by rw [hens]; rfl, ens, hens, rfl⟩
  obtain ⟨start, hs, hstarts, _⟩ := exists_treeEntries hstart
  obtain ⟨rest, hr, hrest⟩ := exists_mapM hlists
  refine ⟨start.map (Prod.mk none) ++ rest.flatten, ?_, ?_, ?_, ?_⟩
  · simp only [switchTable, hs, hr, Option.bind_eq_bind, Option.bind_some]
  · intro iT hiT ens hens
    rw [keyed_append, keyed_flatten hrest hn hens, if_pos hiT,
      keyed_map_ne (Option.some_ne_none iT).symm, List.nil_append]
  · intro iT hiT
    rw [keyed_append, keyed_map_ne (Option.some_ne_none iT).symm, List.nil_append]
    exact keyed_flatten_of_notMem hrest (fun t ht h => hiT (Option.some.inj h ▸ ht))
  · rw [keyed_append, keyed_flatten_of_notMem hrest (fun t _ => Option.some_ne_none t),
      keyed_map_self, List.append_nil, hstarts.trees]

end Switch

/-! ### Forests -/

/-- The forest of a run: default trees and resilient trees, all of them spanning. -/
structure TreeForest (G : PortGraph V E) (tree : τ → ITree V E) (forest : List τ)
    (isDefault : τ → Bool) (dst : V) (args : TreeArgs) : Prop where
  nodup : forest.Nodup
  valid : ∀ iT ∈ forest, (tree iT).Valid G
  spans : ∀ iT ∈ forest, (tree iT).Spans dst
  accepts : args.accepts (forest.filter isDefault) (forest.filter (fun iT => !isDefault iT)) = true

lemma TreePaths.hasHop {G : PortGraph V E} {dst : V} {fpaths : V → τ → List ℕ} {T : ITree V E}
    {v : V} {iT : τ}
    (h : TreePaths G T.adj dst (fun v => fpaths v iT)) (hv : v ≠ dst) :
    HasHop G fpaths v iT := by
  obtain ⟨port, ps, e, w, q, hp, hhop, _⟩ := h.next v hv
  exact ⟨port, ps, e, w, q, hp, hhop⟩

lemma TreePaths.mem_edges {G : PortGraph V E} {dst : V} {fpaths : V → τ → List ℕ}
    {T : ITree V E} {v : V} {iT : τ} {e : E}
    (h : TreePaths G T.adj dst (fun v => fpaths v iT)) (hv : v ≠ dst)
    (he : edgeAt G fpaths v iT = some e) : e ∈ T.edges := by
  obtain ⟨port, ps, e', w, q, hp, hhop, hadj, _⟩ := h.next v hv
  rw [edgeAt_eq hp hhop, Option.some.injEq] at he
  exact he ▸ ITree.mem_edges_of_adj hadj

omit [DecidableEq V] in
lemma trees_perm (fpaths : V → τ → List ℕ) (v : V) (draw : ℕ) (forest : List τ)
    (isDefault : τ → Bool) :
    (forest.filter isDefault ++
      sortTrees fpaths v draw (forest.filter (fun iT => !isDefault iT))).Perm forest :=
  ((sortTrees_perm fpaths v draw _).append_left _).trans (List.filter_append_perm isDefault forest)

/-- If at every switch the entries for each tree list that tree and some order of others, the
table is built, marks trees as every entry should, and starts packets on trees of the
forest. -/
lemma TreeForest.exists_table [DecidableEq τ] {G : PortGraph V E}
    {tree : τ → ITree V E} {forest : List τ} {isDefault : τ → Bool} {dst : V} {args : TreeArgs}
    {fpaths : V → τ → List ℕ} (hf : TreeForest G tree forest isDefault dst args)
    (hpaths : ∀ iT ∈ forest, TreePaths G (tree iT).adj dst (fun v => fpaths v iT)) (draw : V → ℕ)
    {treeEntries : V → List τ → τ → Option (List (FwdEntry τ E))}
    {entries : V → τ → List (FwdEntry τ E)} {order : V → τ → List τ}
    (hrun : ∀ v, v ≠ dst → ∀ cur ∈ forest, treeEntries v
      (sortTrees fpaths v (draw v) (forest.filter (fun iT => !isDefault iT))) cur =
        some (entries v cur))
    (hlisted : ∀ v, v ≠ dst → ∀ cur ∈ forest,
      Listed G fpaths v (cur :: order v cur) (entries v cur))
    (hnodup : ∀ v, v ≠ dst → ∀ cur ∈ forest, (cur :: order v cur).Nodup)
    (hmem : ∀ v, v ≠ dst → ∀ cur ∈ forest, ∀ t ∈ order v cur, t ∈ forest) :
    ∃ table : Fwdtable V τ E, tableOf G dst (fun v =>
        let shortest := sortTrees fpaths v (draw v) (forest.filter (fun iT => !isDefault iT))
        let startTrees :=
          if 0 < (forest.filter isDefault).length then forest.filter isDefault else shortest
        switchTable G fpaths v startTrees (forest.filter isDefault ++ shortest)
          (treeEntries v shortest)) = some table ∧
      MarkingTable G tree forest dst fpaths order table ∧
      ∀ v, ∀ entry ∈ table.entries v none, entry.ntree ∈ forest := by
  let shortest : V → List τ :=
    fun v => sortTrees fpaths v (draw v) (forest.filter (fun iT => !isDefault iT))
  let startTrees : V → List τ := fun v =>
    if 0 < (forest.filter isDefault).length then forest.filter isDefault else shortest v
  have hperm := fun v => trees_perm fpaths v (draw v) forest isDefault
  have hstart : ∀ v, ∀ iT ∈ startTrees v, iT ∈ forest := by
    intro v iT hiT
    simp only [startTrees] at hiT
    split at hiT
    · exact (List.mem_filter.mp hiT).1
    · exact (List.mem_filter.mp (mem_sortTrees.mp hiT)).1
  have hswitch : ∀ v, v ≠ dst → ∃ l, switchTable G fpaths v (startTrees v)
      (forest.filter isDefault ++ shortest v) (treeEntries v (shortest v)) = some l ∧
      (∀ iT ∈ forest, keyed (some iT) l = entries v iT) ∧
      ∀ entry ∈ keyed none l, entry.ntree ∈ forest := by
    intro v hv
    obtain ⟨l, hl, hkeyed, _, hnone⟩ := exists_switchTable ((hperm v).nodup_iff.mpr hf.nodup)
      (fun iT hiT => (hpaths iT (hstart v iT hiT)).hasHop hv)
      (fun iT hiT => ⟨_, hrun v hv iT ((hperm v).mem_iff.mp hiT)⟩)
    refine ⟨l, hl, fun iT hiT => hkeyed iT ((hperm v).mem_iff.mpr hiT) _ (hrun v hv iT hiT), ?_⟩
    intro entry hentry
    apply hstart v
    rw [← hnone]
    exact List.mem_map_of_mem hentry
  choose! l hl hkeyed hnone using hswitch
  refine ⟨fun v => if v = dst then [] else l v, tableOf_eq hl, ⟨hpaths, ?_, hnodup, hmem⟩, ?_⟩
  · intro v hv cur hcur
    rw [Fwdtable.entries, if_neg hv, hkeyed v hv cur hcur]
    exact hlisted v hv cur hcur
  · intro v entry hentry
    by_cases hv : v = dst
    · rw [Fwdtable.entries, if_pos hv] at hentry
      cases hentry
    · rw [Fwdtable.entries, if_neg hv] at hentry
      exact hnone v hv entry hentry

end ResSim
