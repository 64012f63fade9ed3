import ResSim.Trees.Alternates

/-!
# State totals

For every destination with hosts the tables of all switches are built and their sizes are added
to the totals of each switch. The entries of the table without tree headers are counted in
`nopkthdr_sw_tcam`, but `nopkthdr_hosts_tcam` is computed from the other table, so that it is
the same as `hosts_tcam`.
-/

namespace ResSim

/-- The totals that are kept for a switch. -/
structure TcamState where
  swTcam : ℕ
  hostsTcam : ℕ
  nopkthdrSwTcam : ℕ
  nopkthdrHostsTcam : ℕ
  labelBits : ℕ
  deriving DecidableEq

/-- What is built for a destination: the two tables, and the number of trees. -/
structure DstTables (V E τ : Type) where
  fwdtable : Fwdtable V τ E
  nopkthdrFwdtable : V → List (Option E × FwdEntry τ E)
  numTrees : ℕ

variable {V E τ : Type}

/-- The update of the totals of the switch `v`. Every entry has a value, so none of them is
filtered out before they are counted. -/
def updateTcam (dfr : Bool) (numhosts : ℕ) (tables : DstTables V E τ) (v : V) (s : TcamState) :
    TcamState :=
  let swTcam := (tables.fwdtable v).length
  let hostsTcam := swTcam * numhosts
  let nopkthdrSwTcam := (tables.nopkthdrFwdtable v).length
  -- the source multiplies the size of the other table
  let nopkthdrHostsTcam := swTcam * numhosts
  { swTcam := s.swTcam + swTcam
    hostsTcam := s.hostsTcam + hostsTcam
    nopkthdrSwTcam := s.nopkthdrSwTcam + nopkthdrSwTcam
    nopkthdrHostsTcam := s.nopkthdrHostsTcam + nopkthdrHostsTcam
    labelBits := if dfr then 0 else max s.labelBits tables.numTrees }

/-- One destination: nothing is built for it if it has no hosts. -/
def tcamDst (dfr : Bool) (numhosts : V → ℕ) (build : V → Option (DstTables V E τ))
    (state : V → TcamState) (dst : V) : Option (V → TcamState) :=
  if numhosts dst = 0 then some state
  else do
    let tables ← build dst
    some (fun v => updateTcam dfr (numhosts dst) tables v (state v))

/-- `global_tcam_state` after the destinations. -/
def globalTcamState (dfr : Bool) (numhosts : V → ℕ) (build : V → Option (DstTables V E τ))
    (dsts : List V) : Option (V → TcamState) :=
  dsts.foldlM (tcamDst dfr numhosts build) (fun _ => ⟨0, 0, 0, 0, 0⟩)

/-! ### The totals -/

/-- The size of a table of `v` for the destination. -/
def sizeAt {κ : Type} (build : V → Option (DstTables V E τ))
    (table : DstTables V E τ → V → List κ) (v dst : V) : ℕ :=
  ((build dst).map (fun tables => (table tables v).length)).getD 0

/-- The sum over the destinations that have hosts. -/
def sumServed (numhosts : V → ℕ) (dsts : List V) (f : V → ℕ) : ℕ :=
  ((dsts.filter (fun dst => numhosts dst ≠ 0)).map f).sum

/-- The totals of `v` are the sums over the destinations of the sizes of its two tables, and of
those sizes times the hosts. -/
structure TcamTotals (numhosts : V → ℕ) (build : V → Option (DstTables V E τ)) (dsts : List V)
    (v : V) (s : TcamState) : Prop where
  swTcam : s.swTcam =
    sumServed numhosts dsts (sizeAt build DstTables.fwdtable v)
  nopkthdrSwTcam : s.nopkthdrSwTcam =
    sumServed numhosts dsts (sizeAt build DstTables.nopkthdrFwdtable v)
  hostsTcam : s.hostsTcam = sumServed numhosts dsts
    (fun dst => sizeAt build DstTables.fwdtable v dst * numhosts dst)
  nopkthdrHostsTcam : s.nopkthdrHostsTcam = sumServed numhosts dsts
    (fun dst => sizeAt build DstTables.nopkthdrFwdtable v dst * numhosts dst)

section Totals

variable {dfr : Bool} {numhosts : V → ℕ} {build : V → Option (DstTables V E τ)} {dsts : List V}
  {dst v : V} {state state' : V → TcamState}

lemma sumServed_concat (f : V → ℕ) : sumServed numhosts (dsts ++ [dst]) f =
    sumServed numhosts dsts f + if numhosts dst ≠ 0 then f dst else 0 := by
  unfold sumServed
  rw [List.filter_append, List.map_append, List.sum_append, List.filter_singleton]
  by_cases h : numhosts dst = 0 <;> simp [h]

/-- The totals that the loop computes: all of them from the table with headers, except for the
size of the other table. -/
structure TcamSums (numhosts : V → ℕ) (build : V → Option (DstTables V E τ)) (dsts : List V)
    (v : V) (s : TcamState) : Prop where
  swTcam : s.swTcam = sumServed numhosts dsts (sizeAt build DstTables.fwdtable v)
  nopkthdrSwTcam : s.nopkthdrSwTcam =
    sumServed numhosts dsts (sizeAt build DstTables.nopkthdrFwdtable v)
  hostsTcam : s.hostsTcam = sumServed numhosts dsts
    (fun dst => sizeAt build DstTables.fwdtable v dst * numhosts dst)
  same : s.nopkthdrHostsTcam = s.hostsTcam

lemma TcamSums.step (h : TcamSums numhosts build dsts v (state v))
    (hstep : tcamDst dfr numhosts build state dst = some state') :
    TcamSums numhosts build (dsts ++ [dst]) v (state' v) := by
  unfold tcamDst at hstep
  split at hstep
  · rename_i hnone
    obtain rfl := Option.some.inj hstep
    constructor <;> simp [sumServed_concat, hnone, h.swTcam, h.nopkthdrSwTcam, h.hostsTcam, h.same]
  · rename_i hsome
    obtain ⟨tables, hbuild, hstep⟩ := Option.bind_eq_some_iff.mp hstep
    obtain rfl := Option.some.inj hstep
    have hsize : ∀ {κ : Type} (table : DstTables V E τ → V → List κ),
        sizeAt build table v dst = (table tables v).length := by
      intro κ table
      rw [sizeAt, hbuild, Option.map_some, Option.getD_some]
    constructor <;> simp [updateTcam, sumServed_concat, hsome, hsize, h.swTcam, h.nopkthdrSwTcam,
      h.hostsTcam, h.same]

lemma globalTcamState_sums (h : globalTcamState dfr numhosts build dsts = some state) (v : V) :
    TcamSums numhosts build dsts v (state v) := by
  induction dsts using List.reverseRecOn generalizing state with
  | nil =>
    obtain rfl := Option.some.inj h
    exact ⟨rfl, rfl, rfl, rfl⟩
  | append_singleton dsts dst ih =>
    rw [globalTcamState, List.foldlM_append] at h
    obtain ⟨state₁, hpre, h⟩ := Option.bind_eq_some_iff.mp h
    rw [List.foldlM_cons] at h
    obtain ⟨state₂, hstep, h⟩ := Option.bind_eq_some_iff.mp h
    obtain rfl := Option.some.inj h
    exact (ih hpre).step hstep

lemma TcamSums.totals_iff (h : TcamSums numhosts build dsts v (state v)) :
    TcamTotals numhosts build dsts v (state v) ↔
      sumServed numhosts dsts
          (fun dst => sizeAt build DstTables.nopkthdrFwdtable v dst * numhosts dst) =
        sumServed numhosts dsts
          (fun dst => sizeAt build DstTables.fwdtable v dst * numhosts dst) := by
  constructor
  · intro ht
    rw [← ht.nopkthdrHostsTcam, ← ht.hostsTcam, h.same]
  · intro heq
    exact ⟨h.swTcam, h.nopkthdrSwTcam, h.hostsTcam, by rw [h.same, h.hostsTcam, heq]⟩

lemma exists_globalTcamState_take (h : globalTcamState dfr numhosts build dsts = some state)
    (n : ℕ) : ∃ s, globalTcamState dfr numhosts build (dsts.take n) = some s := by
  rw [globalTcamState, ← List.take_append_drop n dsts, List.foldlM_append] at h
  obtain ⟨s, hs, _⟩ := Option.bind_eq_some_iff.mp h
  exact ⟨s, hs⟩

/-- At the end the totals of a switch are right if and only if its two tables come to the same
sum over all hosts; and they are right after every destination if and only if its two tables
have the same size for each destination that has hosts. -/
theorem tcamTotals_iff (h : globalTcamState dfr numhosts build dsts = some state) (v : V) :
    (TcamTotals numhosts build dsts v (state v) ↔
      sumServed numhosts dsts
          (fun dst => sizeAt build DstTables.nopkthdrFwdtable v dst * numhosts dst) =
        sumServed numhosts dsts
          (fun dst => sizeAt build DstTables.fwdtable v dst * numhosts dst)) ∧
    ((∀ n s, globalTcamState dfr numhosts build (dsts.take n) = some s →
        TcamTotals numhosts build (dsts.take n) v (s v)) ↔
      ∀ dst ∈ dsts, numhosts dst ≠ 0 →
        sizeAt build DstTables.nopkthdrFwdtable v dst = sizeAt build DstTables.fwdtable v dst) := by
  refine ⟨(globalTcamState_sums h v).totals_iff, ?_, ?_⟩
  · intro hall dst hdst hhosts
    obtain ⟨pre, post, rfl⟩ := List.append_of_mem hdst
    -- the totals are right before and after the destination, so its own summands agree
    have hsum : ∀ n, sumServed numhosts ((pre ++ dst :: post).take n)
          (fun dst => sizeAt build DstTables.nopkthdrFwdtable v dst * numhosts dst) =
        sumServed numhosts ((pre ++ dst :: post).take n)
          (fun dst => sizeAt build DstTables.fwdtable v dst * numhosts dst) := by
      intro n
      obtain ⟨s, hs⟩ := exists_globalTcamState_take h n
      exact (globalTcamState_sums hs v).totals_iff.mp (hall n s hs)
    have hbefore := hsum pre.length
    have hafter := hsum (pre.length + 1)
    rw [List.take_left] at hbefore
    rw [List.take_length_add_append, List.take_succ_cons, List.take_zero, sumServed_concat,
      sumServed_concat, hbefore, if_pos hhosts, if_pos hhosts] at hafter
    exact Nat.eq_of_mul_eq_mul_right (Nat.pos_of_ne_zero hhosts) (Nat.add_left_cancel hafter)
  · intro hsame n s hs
    rw [(globalTcamState_sums hs v).totals_iff]
    unfold sumServed
    congr 1
    apply List.map_congr_left
    intro dst hdst
    obtain ⟨hin, hhosts⟩ := List.mem_filter.mp hdst
    rw [hsame dst (List.mem_of_mem_take hin) (of_decide_eq_true hhosts)]

end Totals

/-! ### Tables without deadlock freedom -/

/-- What a run without deadlock freedom builds: one table, and none without headers. -/
def withoutDfr (fwdtable : V → Option (Fwdtable V τ E)) (numTrees : ℕ) (dst : V) :
    Option (DstTables V E τ) :=
  (fwdtable dst).map (fun table => ⟨table, fun _ => [], numTrees⟩)

section WithoutDfr

variable {fwdtable : V → Option (Fwdtable V τ E)} {numTrees : ℕ} {numhosts : V → ℕ}
  {dsts : List V} {state : V → TcamState}

lemma sizeAt_withoutDfr (v dst : V) :
    sizeAt (withoutDfr fwdtable numTrees) DstTables.nopkthdrFwdtable v dst = 0 := by
  unfold sizeAt withoutDfr
  cases fwdtable dst <;> rfl

/-- Without deadlock freedom there are no tables without headers, and the totals of a switch are
right only if it has no entries for any destination with hosts. -/
theorem tcamTotals_withoutDfr
    (h : globalTcamState false numhosts (withoutDfr fwdtable numTrees) dsts = some state) (v : V) :
    TcamTotals numhosts (withoutDfr fwdtable numTrees) dsts v (state v) ↔
      ∀ dst ∈ dsts, numhosts dst ≠ 0 →
        sizeAt (withoutDfr fwdtable numTrees) DstTables.fwdtable v dst = 0 := by
  rw [(globalTcamState_sums h v).totals_iff]
  simp only [sumServed, sizeAt_withoutDfr, Nat.zero_mul]
  rw [List.map_const', List.sum_replicate_nat, Nat.mul_zero, eq_comm, List.sum_eq_zero_iff_forall_eq_nat]
  simp only [List.mem_map, List.mem_filter, decide_eq_true_eq, forall_exists_index, and_imp]
  constructor
  · intro hzero dst hdst hhosts
    exact (Nat.mul_eq_zero.mp (hzero _ dst hdst hhosts rfl)).resolve_right hhosts
  · rintro hzero _ dst hdst hhosts rfl
    rw [hzero dst hdst hhosts, Nat.zero_mul]

end WithoutDfr

/-- The tables of `doubleLink` for one default and one resilient tree. -/
def twoTreesBuild : Fin 2 → Option (DstTables (Fin 2) (Fin 2) (Fin 2)) :=
  withoutDfr (fun dst => adstFwdtable doubleLink linkTree [0, 1] (fun iT => iT = 0)
    (fun _ iT => [iT.val]) dst ⟨1, 1⟩ (fun _ => 0)) 2

/-- The totals of a run over both switches of `doubleLink`. -/
def twoTreesState : Fin 2 → TcamState :=
  (globalTcamState false doubleLink.numhosts twoTreesBuild [0, 1]).getD (fun _ => ⟨0, 0, 0, 0, 0⟩)

lemma twoTreesState_eq :
    globalTcamState false doubleLink.numhosts twoTreesBuild [0, 1] = some twoTreesState :=
  eq_some_getD _ (by decide)

theorem tcamTotals_iff_doubleLink :
    (TcamTotals doubleLink.numhosts twoTreesBuild [0, 1] 0 (twoTreesState 0) ↔
      sumServed doubleLink.numhosts [0, 1] (fun dst =>
          sizeAt twoTreesBuild DstTables.nopkthdrFwdtable 0 dst * doubleLink.numhosts dst) =
        sumServed doubleLink.numhosts [0, 1] (fun dst =>
          sizeAt twoTreesBuild DstTables.fwdtable 0 dst * doubleLink.numhosts dst)) ∧
    ((∀ n s, globalTcamState false doubleLink.numhosts twoTreesBuild ([0, 1].take n) = some s →
        TcamTotals doubleLink.numhosts twoTreesBuild ([0, 1].take n) 0 (s 0)) ↔
      ∀ dst ∈ [0, 1], doubleLink.numhosts dst ≠ 0 →
        sizeAt twoTreesBuild DstTables.nopkthdrFwdtable 0 dst =
          sizeAt twoTreesBuild DstTables.fwdtable 0 dst) :=
  tcamTotals_iff twoTreesState_eq 0

/-- With a default and a resilient tree and a host at either switch, four entries for packets
without headers are reported that no switch has. -/
theorem tcamTotals_doubleLink :
    globalTcamState false doubleLink.numhosts twoTreesBuild [0, 1] = some twoTreesState ∧
      (twoTreesState 1).nopkthdrHostsTcam = 4 ∧
      ¬ TcamTotals doubleLink.numhosts twoTreesBuild [0, 1] 1 (twoTreesState 1) := by
  refine ⟨twoTreesState_eq, by decide, fun h => ?_⟩
  have hreported : (twoTreesState 1).nopkthdrHostsTcam = 4 := by decide
  have hempty : sumServed doubleLink.numhosts [0, 1] (fun dst =>
      sizeAt twoTreesBuild DstTables.nopkthdrFwdtable 1 dst * doubleLink.numhosts dst) = 0 := by
    decide
  rw [h.nopkthdrHostsTcam, hempty] at hreported
  cases hreported

end ResSim
