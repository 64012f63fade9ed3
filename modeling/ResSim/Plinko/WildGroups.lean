import ResSim.Lib.Runs
import ResSim.Plinko.Tcam

/-!
# Rows with one path

`newer_pack_tcam` packs the rows of its table group by group, a group being consecutive rows with
one path. `sort_wild_table` orders the paths by their weight, but rows of different paths with
the same weight by their edge masks and ways back. So a path has all of its rows in one group
unless a row of another path with its weight comes between two of them in that order.
-/

namespace ResSim

variable {V E : Type} [DecidableEq V] {G : PortGraph V E}

/-! ### Tables with rows that drop -/

/-- A row of any wildcard table. Without a path it drops. -/
structure WildRow (G : PortGraph V E) where
  rpath : List (Option ℤ)
  edgeMask : List MaskBit
  path : Option (Path G)

/-- `path.path`. -/
def WildRow.out (x : WildRow G) : Option (List ℕ) := x.path.map Path.path

/-- A row with a path. -/
def WildEntry.row (x : WildEntry G) : WildRow G := ⟨x.rpath, x.edgeMask, some x.path⟩

/-- `numpaths[path.path]`: the weight of a path. -/
def rowWeight (wildtable : List (WildRow G)) (out : Option (List ℕ)) : ℕ :=
  ((wildtable.filter (fun x => x.out = out)).map (fun x => 2 ^ x.edgeMask.count .any)).sum

/-- Numbers sort before the wildcard. -/
def cmpPort : Option ℤ → Option ℤ → Ordering := compareLex (compareOn Option.isNone) compare

/-- `cmp(edge_mask1, edge_mask2)`, then `cmp(rpath1, rpath2)`. -/
def cmpMask (x y : WildRow G) : Ordering :=
  (compare (x.edgeMask.map MaskBit.rank) (y.edgeMask.map MaskBit.rank)).then
    (List.compareLex cmpPort x.rpath y.rpath)

/-- `sort_items`, with rows that drop. -/
def cmpRows (wildtable : List (WildRow G)) (x y : WildRow G) : Ordering :=
  match x.out, y.out with
  | none, none => .eq
  | none, some _ => .gt
  | some _, none => .lt
  | some out1, some out2 =>
    (compare (rowWeight wildtable (some out1)) (rowWeight wildtable (some out2))).then (cmpMask x y)

/-- `sort_wild_table` of a table that may have rows that drop. -/
def sortWildRows (wildtable : List (WildRow G)) : List (WildRow G) :=
  (wildtable.mergeSort (fun x y => (cmpRows wildtable x y).isLE)).reverse

/-- `x[0] + tuple(x[1]), x[2]` of all rows. -/
def newWildRows (wildtable : List (WildRow G)) : TcamTable G :=
  wildtable.map (fun x =>
    (x.rpath.map (Option.map Inbit.num) ++ x.edgeMask.map MaskBit.inbit, x.path))

section Order

variable {wildtable : List (WildRow G)} {x y z : WildRow G}

instance : Std.TransCmp cmpPort :=
  inferInstanceAs (Std.TransCmp (compareLex (compareOn Option.isNone) compare))

instance : Std.TransCmp (fun x y : WildRow G => List.compareLex cmpPort x.rpath y.rpath) where
  eq_swap := Std.OrientedCmp.eq_swap
  isLE_trans := Std.TransCmp.isLE_trans

instance : Std.TransCmp (cmpMask (G := G)) :=
  inferInstanceAs (Std.TransCmp (compareLex
    (compareOn (fun x : WildRow G => x.edgeMask.map MaskBit.rank))
    (fun x y => List.compareLex cmpPort x.rpath y.rpath)))

/-- Rows that have a path, by the weight of the path. -/
def cmpWeight (wildtable : List (WildRow G)) : WildRow G → WildRow G → Ordering :=
  compareLex (compareOn (fun x => rowWeight wildtable x.out)) cmpMask

instance : Std.TransCmp (cmpWeight wildtable) :=
  inferInstanceAs (Std.TransCmp (compareLex _ _))

lemma cmpRows_of_paths (hx : x.out ≠ none) (hy : y.out ≠ none) :
    cmpRows wildtable x y = cmpWeight wildtable x y := by
  obtain ⟨out1, hx⟩ := Option.ne_none_iff_exists'.mp hx
  obtain ⟨out2, hy⟩ := Option.ne_none_iff_exists'.mp hy
  simp only [cmpRows, cmpWeight, compareLex, compareOn, hx, hy]

/-- Rows that drop come last. -/
lemma isLE_cmpRows_iff : (cmpRows wildtable x y).isLE ↔
    y.out = none ∨ (x.out ≠ none ∧ y.out ≠ none ∧ (cmpWeight wildtable x y).isLE) := by
  by_cases hy : y.out = none
  · by_cases hx : x.out = none
    · simp [cmpRows, hx, hy]
    · obtain ⟨out, hx⟩ := Option.ne_none_iff_exists'.mp hx
      simp [cmpRows, hx, hy]
  · by_cases hx : x.out = none
    · obtain ⟨out, hy⟩ := Option.ne_none_iff_exists'.mp hy
      simp [cmpRows, hx, hy]
    · simp [cmpRows_of_paths hx hy, hx, hy]

lemma cmpRows_trans (x y z : WildRow G) (h : (cmpRows wildtable x y).isLE)
    (h' : (cmpRows wildtable y z).isLE) : (cmpRows wildtable x z).isLE := by
  rw [isLE_cmpRows_iff] at h h' ⊢
  rcases h' with hz | ⟨hy, hz, hyz⟩
  · exact .inl hz
  · obtain ⟨hx, -, hxy⟩ := h.resolve_left hy
    exact .inr ⟨hx, hz, Std.TransCmp.isLE_trans hxy hyz⟩

lemma cmpRows_total (x y : WildRow G) :
    (cmpRows wildtable x y).isLE || (cmpRows wildtable y x).isLE := by
  rw [Bool.or_eq_true, isLE_cmpRows_iff, isLE_cmpRows_iff]
  by_cases hx : x.out = none
  · exact .inr (.inl hx)
  · by_cases hy : y.out = none
    · exact .inl (.inl hy)
    · have hswap : cmpWeight wildtable y x = (cmpWeight wildtable x y).swap :=
        Std.OrientedCmp.eq_swap
      cases hcmp : cmpWeight wildtable x y with
      | lt => exact .inl (.inr ⟨hx, hy, rfl⟩)
      | eq => exact .inl (.inr ⟨hx, hy, rfl⟩)
      | gt => exact .inr (.inr ⟨hy, hx, by rw [hswap, hcmp]; rfl⟩)

end Order

/-! ### The rows of a path -/

section Contiguous

variable {wildtable : List (WildRow G)} {x y z : WildRow G × ℕ}

/-- Rows by edge mask, way back and place in the table. -/
def rowOrder (x y : WildRow G × ℕ) : Ordering := (cmpMask x.1 y.1).then (compare x.2 y.2)

/-- Between two rows of one path there is, in the order of edge masks and ways back, a row of
another path of the same weight. -/
structure Interleaves (wildtable : List (WildRow G)) (x y z : WildRow G × ℕ) : Prop where
  mem : x ∈ wildtable.zipIdx ∧ y ∈ wildtable.zipIdx ∧ z ∈ wildtable.zipIdx
  paths : x.1.out ≠ none ∧ y.1.out ≠ none
  out_eq : z.1.out = x.1.out
  out_ne : y.1.out ≠ x.1.out
  weight_eq : rowWeight wildtable y.1.out = rowWeight wildtable x.1.out
  between : rowOrder x y = .lt ∧ rowOrder y z = .lt

lemma precedes_iff_of_weight_eq (hx : x.1.out ≠ none) (hy : y.1.out ≠ none)
    (hw : rowWeight wildtable x.1.out = rowWeight wildtable y.1.out) :
    Precedes (fun x y => (cmpRows wildtable x y).isLE) x y ↔ rowOrder x y = .lt := by
  have hweight : ∀ {x y : WildRow G}, rowWeight wildtable x.out = rowWeight wildtable y.out →
      cmpWeight wildtable x y = cmpMask x y := by
    intro x y hw
    simp [cmpWeight, compareLex, compareOn, hw]
  have hswap : cmpMask y.1 x.1 = (cmpMask x.1 y.1).swap := Std.OrientedCmp.eq_swap
  rw [Precedes, cmpRows_of_paths hx hy, cmpRows_of_paths hy hx, hweight hw, hweight hw.symm, hswap,
    rowOrder]
  cases cmpMask x.1 y.1 with
  | lt => simp
  | eq => simp [Nat.compare_eq_lt]
  | gt => simp

/-- Interleaved rows stay interleaved when they are sorted. -/
lemma Interleaves.precedes (h : Interleaves wildtable x y z) :
    Precedes (fun x y => (cmpRows wildtable x y).isLE) x y ∧
      Precedes (fun x y => (cmpRows wildtable x y).isLE) y z := by
  have hzo : z.1.out ≠ none := h.out_eq ▸ h.paths.1
  constructor
  · exact (precedes_iff_of_weight_eq h.paths.1 h.paths.2 h.weight_eq.symm).mpr h.between.1
  · exact (precedes_iff_of_weight_eq h.paths.2 hzo (h.out_eq ▸ h.weight_eq)).mpr h.between.2

/-- Rows with paths are in the order of the weights of their paths. -/
lemma weight_le_of_isLE (h : (cmpRows wildtable x.1 y.1).isLE) (hy : y.1.out ≠ none) :
    x.1.out ≠ none ∧ rowWeight wildtable x.1.out ≤ rowWeight wildtable y.1.out := by
  obtain ⟨hx, -, hle⟩ := (isLE_cmpRows_iff.mp h).resolve_left hy
  refine ⟨hx, ?_⟩
  by_contra hlt
  have hgt : compare (rowWeight wildtable x.1.out) (rowWeight wildtable y.1.out) = .gt :=
    Nat.compare_eq_gt.mpr (not_le.mp hlt)
  simp [cmpWeight, compareLex, compareOn, hgt] at hle

/-- The rows of every path stand together exactly if no rows interleave. -/
lemma contiguous_sortWildRows_iff : Contiguous ((sortWildRows wildtable).map WildRow.out) ↔
    ∀ x y z, ¬ Interleaves wildtable x y z := by
  rw [sortWildRows, List.map_reverse, contiguous_reverse,
    contiguous_mergeSort_iff cmpRows_trans cmpRows_total]
  constructor
  · intro h x y z hi
    obtain ⟨hx, hy, hz⟩ := hi.mem
    exact hi.out_ne (h x hx y hy z hz hi.precedes.1 hi.precedes.2 hi.out_eq.symm)
  · intro h x hx y hy z hz hxy hyz hxz
    by_cases hzo : z.1.out = none
    · -- behind a row that drops there are only rows that drop
      have hyo : y.1.out = none := by
        by_contra hyo
        exact (weight_le_of_isLE hxy.1 hyo).1 (hxz.trans hzo)
      rw [hyo, hxz, hzo]
    · obtain ⟨hyo, hwyz⟩ := weight_le_of_isLE hyz.1 hzo
      obtain ⟨hxo, hwxy⟩ := weight_le_of_isLE hxy.1 hyo
      have hw : rowWeight wildtable y.1.out = rowWeight wildtable x.1.out :=
        le_antisymm (hxz ▸ hwyz) hwxy
      by_contra hne
      refine h x y z ⟨⟨hx, hy, hz⟩, ⟨hxo, hyo⟩, hxz.symm, hne, hw, ?_, ?_⟩
      · exact (precedes_iff_of_weight_eq hxo hyo hw.symm).mp hxy
      · exact (precedes_iff_of_weight_eq hyo hzo (hxz ▸ hw)).mp hyz

end Contiguous

/-! ### The groups of the packed table -/

section Groups

variable {t : TcamTable G} {draw : ℕ → ℕ → ℕ} {n : ℕ} {s : PackState G} {currPath : Path G}

/-- The groups that are committed while `curr_path` and `curr_inbits` are the group so far. -/
def groupsFrom (currPath : Path G) (currInbits : List (Pattern Inbit)) :
    TcamTable G → List (Path G × List (Pattern Inbit))
  | [] => [(currPath, currInbits)]
  | (_, none) :: rest => groupsFrom currPath currInbits rest
  | (inbits, some path) :: rest =>
    if currPath.path ≠ path.path then (currPath, currInbits) :: groupsFrom path [inbits] rest
    else groupsFrom currPath (currInbits ++ [inbits]) rest

/-- The groups that `newer_pack_tcam` commits, each with its path. -/
def packGroups : TcamTable G → List (Path G × List (Pattern Inbit))
  | [] => []
  | (_, none) :: rest => packGroups rest
  | (inbits, some path) :: rest => groupsFrom path [inbits] rest

/-- The paths of the rows that do not drop. -/
def rowPaths (t : TcamTable G) : List (List ℕ) := t.filterMap (fun x => x.2.map Path.path)

/-- Commits a group. -/
def commitGroup (draw : ℕ → ℕ → ℕ) (s : PackState G) (group : Path G × List (Pattern Inbit)) :
    Except PyError (PackState G) :=
  commitRun false draw { s with currPath := some group.1, currInbits := group.2 }

lemma rowPaths_cons_none (inbits : Pattern Inbit) : rowPaths ((inbits, none) :: t) = rowPaths t :=
  rfl

lemma rowPaths_cons_some (inbits : Pattern Inbit) (path : Path G) :
    rowPaths ((inbits, some path) :: t) = path.path :: rowPaths t := rfl

lemma groupsFrom_paths (currPath : Path G) (currInbits : List (Pattern Inbit)) :
    (groupsFrom currPath currInbits t).map (fun g => g.1.path) =
      (rowPaths t).destutter' (· ≠ ·) currPath.path := by
  induction t generalizing currPath currInbits with
  | nil => rfl
  | cons row rest ih =>
    obtain ⟨inbits, _ | path⟩ := row
    · rw [groupsFrom, ih, rowPaths_cons_none]
    · rw [groupsFrom, rowPaths_cons_some]
      by_cases hne : currPath.path ≠ path.path
      · rw [if_pos hne, List.map_cons, ih, List.destutter'_cons_pos _ hne]
      · rw [if_neg hne, ih, List.destutter'_cons_neg _ hne]

lemma packGroups_paths : (packGroups t).map (fun g => g.1.path) =
    (rowPaths t).destutter (· ≠ ·) := by
  induction t with
  | nil => rfl
  | cons row rest ih =>
    obtain ⟨inbits, _ | path⟩ := row
    · rw [packGroups, ih, rowPaths_cons_none]
    · rw [packGroups, groupsFrom_paths, rowPaths_cons_some, List.destutter_cons']

/-- A group is committed by its own path and rows. -/
lemma foldlM_groupsFrom (currInbits currInbits' : List (Pattern Inbit)) (o : Option (Path G)) :
    (groupsFrom currPath currInbits t).foldlM (commitGroup draw)
        { s with currPath := o, currInbits := currInbits' } =
      (groupsFrom currPath currInbits t).foldlM (commitGroup draw) s := by
  have hne : groupsFrom currPath currInbits t ≠ [] := by
    intro hnil
    have hpaths := groupsFrom_paths (t := t) currPath currInbits
    rw [hnil, List.map_nil] at hpaths
    exact List.destutter'_ne_nil _ _ hpaths.symm
  obtain ⟨g, gs, hgs⟩ := List.exists_cons_of_ne_nil hne
  rw [hgs, List.foldlM_cons, List.foldlM_cons]
  rfl

lemma commitRun_reset {s' : PackState G} (h : commitRun false draw s = .ok s') :
    s'.currPath = none ∧ s'.currInbits = [] := by
  rw [commitRun] at h
  cases hpick : pickNextEntries (draw s.prevInbits.length) s.currInbits s.prevInbits with
  | error e =>
    rw [hpick] at h
    cases h
  | ok newEntries =>
    rw [hpick] at h
    obtain rfl := Except.ok.inj h
    exact ⟨rfl, rfl⟩

/-- A row with the path of the group joins the group. -/
lemma packRow_same {path : Path G} (hs : s.currPath = some currPath)
    (hpath : currPath.path = path.path) (inbits : Pattern Inbit) :
    packRow false draw s (inbits, some path) =
      .ok { s with currInbits := s.currInbits ++ [inbits] } := by
  obtain ⟨tcam, currInbits, _, prevInbits⟩ := s
  obtain rfl := hs
  have hany : (some currPath).any (fun currPath => currPath.path ≠ path.path) = false :=
    decide_eq_false (not_not.mpr hpath)
  rw [packRow, hany, if_neg Bool.false_ne_true]
  rfl

/-- A row with another path commits the group and begins the next one. -/
lemma packRow_other {path : Path G} (hs : s.currPath = some currPath)
    (hpath : currPath.path ≠ path.path) (inbits : Pattern Inbit) :
    packRow false draw s (inbits, some path) = (commitRun false draw s).map
      (fun s' => { s' with currPath := some path, currInbits := [inbits] }) := by
  have hany : s.currPath.any (fun currPath => currPath.path ≠ path.path) = true := by
    rw [hs]
    exact decide_eq_true hpath
  rw [packRow, if_pos hany]
  cases hrun : commitRun false draw s with
  | error e => rfl
  | ok s' =>
    obtain ⟨hnone, hnil⟩ := commitRun_reset hrun
    change Except.ok { s' with
      currPath := s'.currPath.or (some path), currInbits := s'.currInbits ++ [inbits] } = _
    rw [hnone, hnil]
    rfl

lemma commitGroup_self (hs : s.currPath = some currPath) :
    commitGroup draw s (currPath, s.currInbits) = commitRun false draw s := by
  rw [commitGroup, ← hs]

/-- Reading the rows and committing the last group commits all groups. -/
lemma foldlM_packRow (hs : s.currPath = some currPath) :
    (t.foldlM (packRow false draw) s).bind (commitRun false draw) =
      (groupsFrom currPath s.currInbits t).foldlM (commitGroup draw) s := by
  induction t generalizing s currPath with
  | nil =>
    rw [groupsFrom, List.foldlM_cons, commitGroup_self hs]
    change commitRun false draw s = (commitRun false draw s).bind Except.ok
    cases commitRun false draw s <;> rfl
  | cons row rest ih =>
    obtain ⟨inbits, _ | path⟩ := row
    · exact ih hs
    · rw [List.foldlM_cons, groupsFrom]
      by_cases hne : currPath.path ≠ path.path
      · rw [packRow_other hs hne, if_pos hne, List.foldlM_cons,
          commitGroup_self hs]
        cases commitRun false draw s with
        | error e => rfl
        | ok s' =>
          have hnext := ih (s := { s' with currPath := some path, currInbits := [inbits] }) rfl
          rw [foldlM_groupsFrom] at hnext
          exact hnext
      · rw [packRow_same hs (not_not.mp hne), if_neg hne]
        have hnext := ih (s := { s with currInbits := s.currInbits ++ [inbits] }) hs
        exact hnext.trans (foldlM_groupsFrom _ _ s.currPath)

/-- The first row that does not drop begins the first group. -/
lemma foldlM_packRow_start (hpath : s.currPath = none) (hinbits : s.currInbits = [])
    (hrow : rowPaths t ≠ []) :
    (t.foldlM (packRow false draw) s).bind (commitRun false draw) =
      (packGroups t).foldlM (commitGroup draw) s := by
  induction t with
  | nil => exact absurd rfl hrow
  | cons row rest ih =>
    obtain ⟨inbits, _ | path⟩ := row
    · exact ih hrow
    · obtain ⟨tcam, _, _, prevInbits⟩ := s
      obtain rfl := hpath
      obtain rfl := hinbits
      have hnext : (rest.foldlM (packRow false draw) ⟨tcam, [inbits], some path, prevInbits⟩).bind
          (commitRun false draw) = _ := foldlM_packRow rfl
      exact hnext.trans (foldlM_groupsFrom (s := ⟨tcam, [], none, prevInbits⟩) _ _ _)

/-- `newer_pack_tcam` packs the groups one after the other. -/
theorem newerPackTcam_groups (draw : ℕ → ℕ → ℕ) (hwidth : ∀ x ∈ t, x.1.length = n)
    (hrow : rowPaths t ≠ []) : newerPackTcam false draw t =
      ((packGroups t).foldlM (commitGroup draw)
        ⟨[(List.replicate n none, none)], [], none, []⟩).map (fun s => s.tcam.reverse) := by
  rw [← foldlM_packRow_start rfl rfl hrow]
  cases t with
  | nil => exact absurd rfl hrow
  | cons row rest =>
    have hn : row.1.length = n := hwidth row List.mem_cons_self
    have hall : (row :: rest).all (fun x => x.1.length = row.1.length) = true := by
      rw [List.all_eq_true]
      intro x hx
      exact decide_eq_true ((hwidth x hx).trans hn.symm)
    rw [newerPackTcam]
    simp only [hall, if_true]
    rw [hn]
    cases hrun : (row :: rest).foldlM (packRow false draw)
        ⟨[(List.replicate n none, none)], [], none, []⟩ with
    | error e => rfl
    | ok s =>
      change (pickNextEntries (draw s.prevInbits.length) s.currInbits s.prevInbits).bind _ =
        ((commitRun false draw s).map _)
      rw [commitRun]
      cases pickNextEntries (draw s.prevInbits.length) s.currInbits s.prevInbits with
      | error e => rfl
      | ok newEntries => rfl

end Groups

/-! ### The groups of a sorted table -/

section Sorted

variable {wildtable : List (WildRow G)} {x y z : WildRow G × ℕ}

lemma rowPaths_newWildRows (wildtable : List (WildRow G)) :
    rowPaths (newWildRows wildtable) = wildtable.filterMap WildRow.out := by
  rw [rowPaths, newWildRows, List.filterMap_map]
  rfl

lemma mem_rowPaths_sorted {path : List ℕ} :
    path ∈ rowPaths (newWildRows (sortWildRows wildtable)) ↔
      ∃ x ∈ wildtable, x.out = some path := by
  rw [rowPaths_newWildRows, sortWildRows, List.mem_filterMap]
  simp only [List.mem_reverse, List.mem_mergeSort]

lemma Interleaves.sublist (h : Interleaves wildtable x y z) :
    [z.1, y.1, x.1].Sublist (sortWildRows wildtable) := by
  obtain ⟨hx, hy, hz⟩ := h.mem
  obtain ⟨hxy, hyz⟩ := h.precedes
  have hsorted : [x.1, y.1, z.1].Sublist
      (wildtable.mergeSort (fun x y => (cmpRows wildtable x y).isLE)) :=
    (triple_sublist_mergeSort_iff cmpRows_trans cmpRows_total).mpr
      ⟨x, hx, y, hy, z, hz, hxy, hyz, rfl, rfl, rfl⟩
  exact hsorted.reverse

/-- A path in the middle of the rows of another path splits its group. -/
lemma Interleaves.not_contiguous (h : Interleaves wildtable x y z) :
    ¬ Contiguous (rowPaths (newWildRows (sortWildRows wildtable))) := by
  intro hcont
  obtain ⟨out, hx⟩ := Option.ne_none_iff_exists'.mp h.paths.1
  obtain ⟨out', hy⟩ := Option.ne_none_iff_exists'.mp h.paths.2
  have hz : z.1.out = some out := h.out_eq.trans hx
  have hs := h.sublist.filterMap WildRow.out
  rw [List.filterMap_cons_some hz, List.filterMap_cons_some hy, List.filterMap_cons_some hx,
    List.filterMap_nil] at hs
  rw [rowPaths_newWildRows] at hcont
  exact h.out_ne (by rw [hx, hy, hcont out out' hs])

/-- Every path of a sorted table has one group exactly if its groups are contiguous. -/
lemma count_packGroups_iff : (∀ x ∈ wildtable, ∀ path, x.out = some path →
    ((packGroups (newWildRows (sortWildRows wildtable))).map (fun g => g.1.path)).count path = 1) ↔
      Contiguous (rowPaths (newWildRows (sortWildRows wildtable))) := by
  rw [packGroups_paths, ← count_destutter_iff]
  constructor
  · intro h path hpath
    obtain ⟨x, hx, hout⟩ := mem_rowPaths_sorted.mp hpath
    exact h x hx path hout
  · intro h x hx path hout
    exact h path (mem_rowPaths_sorted.mpr ⟨x, hx, hout⟩)

/-- After the sort the rows of every path stand together, and `newer_pack_tcam` packs every path
in one group, exactly if no row comes between two rows of another path with the same weight. -/
theorem sortWildRows_groups_iff (wildtable : List (WildRow G)) :
    (Contiguous ((sortWildRows wildtable).map WildRow.out) ∧
      ∀ x ∈ wildtable, ∀ path, x.out = some path →
        ((packGroups (newWildRows (sortWildRows wildtable))).map
          (fun g => g.1.path)).count path = 1) ↔
      ∀ x y z, ¬ Interleaves wildtable x y z := by
  rw [count_packGroups_iff]
  constructor
  · rintro ⟨-, hcont⟩ x y z hi
    exact hi.not_contiguous hcont
  · intro h
    have hcont := contiguous_sortWildRows_iff.mpr h
    refine ⟨hcont, ?_⟩
    rw [rowPaths_newWildRows]
    exact hcont.filterMap

/-- Ways back without wildcards are compared as lists of numbers. -/
lemma compareLex_cmpPort {r r' : List (Option ℤ)} (hr : ∀ a ∈ r, a ≠ none)
    (hr' : ∀ a ∈ r', a ≠ none) : List.compareLex cmpPort r r' = compare r r' := by
  rw [List.compare_eq_compareLex]
  induction r generalizing r' with
  | nil => cases r' <;> rfl
  | cons a r ih =>
    cases r' with
    | nil => rfl
    | cons b r' =>
      obtain ⟨ha, hrest⟩ := List.forall_mem_cons.mp hr
      obtain ⟨hb, hrest'⟩ := List.forall_mem_cons.mp hr'
      obtain ⟨p, rfl⟩ := Option.ne_none_iff_exists'.mp ha
      obtain ⟨q, rfl⟩ := Option.ne_none_iff_exists'.mp hb
      rw [List.compareLex_cons_cons, List.compareLex_cons_cons, ih hrest hrest']
      rfl

lemma rowWeight_entries (wildtable : List (WildEntry G)) (path : List ℕ) :
    rowWeight (wildtable.map WildEntry.row) (some path) = numpaths wildtable path := by
  have hout : ∀ x : WildEntry G, x.row.out = some path ↔ x.path.path = path := fun x =>
    Option.some_inj
  rw [rowWeight, numpaths, List.filter_map, List.map_map]
  simp only [Function.comp_def, hout]
  rfl

/-- A table whose rows all have paths is sorted alike. -/
theorem sortWildRows_entries {wildtable : List (WildEntry G)}
    (hnone : ∀ x ∈ wildtable, ∀ a ∈ x.rpath, a ≠ none) :
    sortWildRows (wildtable.map WildEntry.row) = (sortWildTable wildtable).map WildEntry.row := by
  rw [sortWildRows, sortWildTable, List.map_reverse, List.map_mergeSort]
  intro x hx y hy
  have hcmp : cmpRows (wildtable.map WildEntry.row) x.row y.row = sortItems wildtable x y := by
    have hrpath : List.compareLex cmpPort x.row.rpath y.row.rpath = compare x.rpath y.rpath :=
      compareLex_cmpPort (hnone x hx) (hnone y hy)
    rw [sortItems, Ordering.then_assoc, ← rowWeight_entries, ← rowWeight_entries, ← hrpath]
    rfl
  rw [hcmp]

/-- What is packed for a table whose rows all have paths. -/
theorem newWildRows_sortWildRows_entries {wildtable : List (WildEntry G)}
    (hnone : ∀ x ∈ wildtable, ∀ a ∈ x.rpath, a ≠ none) :
    newWildRows (sortWildRows (wildtable.map WildEntry.row)) =
      newWildtable (sortWildTable wildtable) := by
  rw [sortWildRows_entries hnone, newWildRows, newWildtable, List.map_map]
  rfl

/-- The rows of every path stand together in the wildcard table of a switch exactly if no rows
interleave. -/
theorem contiguous_sortWildTable_iff {wildtable : List (WildEntry G)}
    (hnone : ∀ x ∈ wildtable, ∀ a ∈ x.rpath, a ≠ none) :
    Contiguous ((sortWildTable wildtable).map (fun x => x.path.path)) ↔
      ∀ x y z, ¬ Interleaves (wildtable.map WildEntry.row) x y z := by
  rw [← contiguous_sortWildRows_iff, sortWildRows_entries hnone, List.map_map,
    ← contiguous_map (Option.some_injective _), List.map_map]
  rfl

/-- Two switches joined by three links. -/
def tripleLink : PortGraph (Fin 2) (Fin 3) :=
  PortGraph.ofFinLinks (fun _ => 0) (fun e => e.val) (fun _ => 1) (fun e => e.val) (fun _ => 1)
    (by decide) (by decide)

/-- The hop from switch `1` of `tripleLink` over one of its links. -/
def tripleHop (e : Fin 3) : Path tripleLink where
  v := 1
  path := [e.val]
  fullPath := [e.val]
  rv := 0
  arcs := [(1, e)]
  failedE := ∅
  extraRPath := []
  leads := ⟨e, 0, e.val, by revert e; decide, Finset.notMem_empty e, rfl⟩
  arcSet_eq := by revert e; decide

/-- Packets that arrive over link `0` take link `1`, those that arrive over link `1` take link
`2`, and both take link `0` if that link is down. -/
def splitRows : List (WildRow tripleLink) :=
  [⟨[some 0, some (-1)], [.any, .up, .any], some (tripleHop 1)⟩,
    ⟨[some 0, some (-1)], [.any, .down, .up], some (tripleHop 0)⟩,
    ⟨[some 1, some (-1)], [.up, .any, .any], some (tripleHop 2)⟩,
    ⟨[some 1, some (-1)], [.down, .any, .up], some (tripleHop 0)⟩]

/-- All three paths of `splitRows` have weight 4, and the row of link `1` comes between the two
rows of link `0`. -/
theorem sortWildRows_splits :
    ¬ Contiguous ((sortWildRows splitRows).map WildRow.out) ∧
      ¬ ∀ x ∈ splitRows, ∀ path, x.out = some path →
        ((packGroups (newWildRows (sortWildRows splitRows))).map
          (fun g => g.1.path)).count path = 1 := by
  have hi : Interleaves splitRows (splitRows[1], 1) (splitRows[0], 0) (splitRows[3], 3) :=
    ⟨⟨List.mk_mem_zipIdx_iff_getElem?.mpr rfl, List.mk_mem_zipIdx_iff_getElem?.mpr rfl,
      List.mk_mem_zipIdx_iff_getElem?.mpr rfl⟩,
      by decide, by decide, by decide, by decide, by decide⟩
  refine ⟨fun hcont => contiguous_sortWildRows_iff.mp hcont _ _ _ hi, fun hcount => ?_⟩
  exact hi.not_contiguous (count_packGroups_iff.mp hcount)

end Sorted

end ResSim
