import Mathlib.Algebra.Order.Field.Rat
import Mathlib.Tactic.FieldSimp
import ResSim.Throughput.Pass

/-!
# The totals of a throughput run

The run makes its passes one after the other and adds up what they find: how many flows have no
path, the sums of the rates, and how much longer the paths of the tables are than shortest paths.
The start trees that one pass has cached are used by the next ones.
-/

namespace ResSim

variable {V E N F : Type} [DecidableEq V] [DecidableEq E] [DecidableEq N] [DecidableEq F]

/-- An average that is updated with one value at a time. -/
structure IncAvg where
  avg : ℚ
  i : ℕ

def IncAvg.init : IncAvg := ⟨0, 0⟩

def IncAvg.update (s : IncAvg) (val : ℚ) : IncAvg where
  avg := (val - s.avg) / (s.i + 1 : ℕ) + s.avg
  i := s.i + 1

/-- What a run prints. Of the stretches, the program prints percentiles. -/
structure Totals where
  failedTableFlows : ℕ
  failedShortFlows : ℕ
  totFlows : ℕ
  tableAvgTput : IncAvg
  shortAvgTput : IncAvg
  stretches : List ℚ
  failStretches : List ℚ
  failRunsTable : List (ℕ × ℕ)
  failRunsShort : List (ℕ × ℕ)

def Totals.init : Totals := ⟨0, 0, 0, .init, .init, [], [], [], []⟩

/-- `flow.table_pathlen` and `flow.short_pathlen`, with the hop from the source host. -/
def pathlen : Option (List ℕ) → ℕ
  | none => 0
  | some path => path.length + 1

section Run

variable {G : PortGraph V E} {H : HostPorts G N}

/-- The number of flows without a path. -/
def Pass.failed (pass : Pass G H F) (path : F → Option (List ℕ)) : ℕ :=
  pass.flows.countP (fun flow => path flow = none)

/-- The flows with a path in both models. -/
def Pass.compared (pass : Pass G H F) (r : PassResult F) : List F :=
  pass.flows.filter (fun flow =>
    0 < pathlen (r.table.path flow) ∧ 0 < pathlen (r.short flow))

def PassResult.stretch (r : PassResult F) (flow : F) : ℚ :=
  pathlen (r.table.path flow) / pathlen (r.short flow)

def Pass.aggTput (pass : Pass G H F) (rate : F → ℚ) : ℚ := (pass.flows.map rate).sum

/-- Adds what a pass has found. -/
def Totals.add (t : Totals) (pass : Pass G H F) (r : PassResult F) : Totals where
  failedTableFlows := t.failedTableFlows + pass.failed r.table.path
  failedShortFlows := t.failedShortFlows + pass.failed r.short
  totFlows := t.totFlows + pass.flows.length
  tableAvgTput := t.tableAvgTput.update (pass.aggTput r.tableRate)
  shortAvgTput := t.shortAvgTput.update (pass.aggTput r.shortRate)
  stretches := t.stretches ++ (pass.compared r).map r.stretch
  failStretches := t.failStretches ++
    ((pass.compared r).filter r.table.failExp).map r.stretch
  failRunsTable := t.failRunsTable ++ [(pass.failed r.table.path, pass.flows.length)]
  failRunsShort := t.failRunsShort ++ [(pass.failed r.short, pass.flows.length)]

variable (fuel : ℕ) (shortestPaths : V → V → ℕ)
  (getShortestPath : Adj V E → V → V → List E)

def runPasses : List (Pass G H F) → List (TableFile V E) → TopkCache V E → Totals → Option Totals
  | [], _, _, t => some t
  | pass :: passes, fwdtables, topk, t => do
    let (r, fwdtables, topk) ← runPass fuel pass shortestPaths getShortestPath fwdtables topk
    runPasses passes fwdtables topk (t.add pass r)

/-- The run over tables that were read in some order. -/
def throughputRun (tableOrder : ℕ) (fwdtables : List (TableFile V E))
    (passes : List (Pass G H F)) : Option Totals :=
  runPasses fuel shortestPaths getShortestPath passes (shuffle tableOrder fwdtables)
    initTopkCache .init

end Run

/-! ### Averages -/

lemma IncAvg.avg_mul_update (s : IncAvg) (val : ℚ) :
    (s.update val).avg * (s.update val).i = s.avg * s.i + val := by
  have hpos : ((s.i + 1 : ℕ) : ℚ) ≠ 0 := Nat.cast_ne_zero.mpr (Nat.succ_ne_zero _)
  rw [update]
  dsimp only
  rw [add_mul, div_mul_cancel₀ _ hpos]
  push_cast
  ring

/-- The average is the mean of all values. -/
lemma IncAvg.foldl_update (vals : List ℚ) :
    vals.foldl IncAvg.update .init = ⟨vals.sum / vals.length, vals.length⟩ := by
  induction vals using List.reverseRecOn with
  | nil => simp [init]
  | append_singleton vals val ih =>
    rw [List.foldl_concat, ih]
    have hmul := avg_mul_update ⟨vals.sum / vals.length, vals.length⟩ val
    have hsum : vals.sum / vals.length * (vals.length : ℚ) = vals.sum := by
      cases vals with
      | nil => simp
      | cons x xs => exact div_mul_cancel₀ _ (Nat.cast_ne_zero.mpr (Nat.succ_ne_zero _))
    rw [hsum] at hmul
    have hlen : (update ⟨vals.sum / vals.length, vals.length⟩ val).i = (vals ++ [val]).length := by
      rw [List.length_append, List.length_singleton]
      rfl
    have hne : ((vals ++ [val]).length : ℚ) ≠ 0 := by
      rw [List.length_append, List.length_singleton]
      exact Nat.cast_ne_zero.mpr (Nat.succ_ne_zero _)
    rw [hlen] at hmul
    rw [List.sum_append, List.sum_singleton, ← hmul, mul_div_cancel_right₀ _ hne, ← hlen]

/-! ### The ports that flows cross -/

section Crossed

variable {G : PortGraph V E}

omit [DecidableEq V] [DecidableEq E] [DecidableEq N] in
lemma mem_ports_foldl_add {P : Type} [DecidableEq P] {flow f : F} {port : P} (crossed : List P)
    (s : Crossing P F) :
    port ∈ (crossed.foldl (fun s port => s.add flow port) s).ports f ↔
      port ∈ s.ports f ∨ f = flow ∧ port ∈ crossed := by
  induction crossed generalizing s with
  | nil => simp
  | cons p crossed ih =>
    rw [List.foldl_cons, ih]
    by_cases hf : f = flow
    · subst hf
      simp only [Crossing.add, Function.update_self, List.mem_insert_iff, List.mem_cons, true_and]
      tauto
    · simp [Crossing.add, hf]

omit [DecidableEq E] [DecidableEq N] in
/-- A routed flow crosses the port of its source host and those of its path. -/
lemma mem_ports_initPorts {Q : Type} [DecidableEq Q] {info : F → FlowInfo V Q}
    {portDict : List (PortName V Q)} {flows : List F} {s s' : Crossing (PortName V Q) F}
    (hinit : initPorts G info portDict flows s = some s') {f : F} {port : PortName V Q} :
    port ∈ s'.ports f ↔ port ∈ s.ports f ∨ f ∈ flows ∧ ∃ hops ports,
      (info f).path = some hops ∧ pathPorts G (info f).srcV hops = some ports ∧
      port ∈ .host (info f).src 0 :: ports := by
  induction flows generalizing s with
  | nil =>
    obtain rfl := Option.some.inj hinit
    simp
  | cons flow flows ih =>
    rw [initPorts] at hinit
    split at hinit
    · rename_i hnone
      rw [ih hinit]
      constructor
      · exact Or.imp_right (And.imp_left (List.mem_cons_of_mem _))
      · rintro (h | ⟨hf, h⟩)
        · exact .inl h
        · rcases List.mem_cons.mp hf with rfl | hf
          · obtain ⟨hops, -, hpath, -⟩ := h
            rw [hnone] at hpath
            cases hpath
          · exact .inr ⟨hf, h⟩
    · rename_i hops hpath
      obtain ⟨ports, hports, hinit⟩ := Option.bind_eq_some_iff.mp hinit
      obtain ⟨_, -, hinit⟩ := Option.bind_eq_some_iff.mp hinit
      rw [ih hinit, mem_ports_foldl_add]
      constructor
      · rintro ((h | ⟨rfl, h⟩) | ⟨hf, h⟩)
        · exact .inl h
        · exact .inr ⟨List.mem_cons_self, hops, ports, hpath, hports, h⟩
        · exact .inr ⟨List.mem_cons_of_mem _ hf, h⟩
      · rintro (h | ⟨hf, h⟩)
        · exact .inl (.inl h)
        · rcases List.mem_cons.mp hf with rfl | hf
          · obtain ⟨hops', ports', hpath', hports', h⟩ := h
            rw [hpath, Option.some.injEq] at hpath'
            subst hpath'
            rw [hports, Option.some.injEq] at hports'
            exact .inl (.inr ⟨rfl, hports' ▸ h⟩)
          · exact .inr ⟨hf, h⟩

omit [DecidableEq E] in
/-- The ports of a path are ports of switches. -/
lemma host_notMem_pathPorts {Q : Type} {v : V} {hops : List ℕ} {ports : List (PortName V Q)}
    (h : pathPorts G v hops = some ports) {q : Q} {n : ℕ} : .host q n ∉ ports := by
  induction hops generalizing v ports with
  | nil =>
    obtain rfl := Option.some.inj h
    exact List.not_mem_nil
  | cons hop hops ih =>
    cases hops with
    | nil =>
      obtain rfl := Option.some.inj h
      simp
    | cons next rest =>
      simp only [pathPorts, Option.bind_eq_bind, Option.bind_eq_some_iff,
        Option.some.injEq] at h
      obtain ⟨nv, -, rest', hrest, rfl⟩ := h
      rw [List.mem_cons, not_or]
      exact ⟨by simp, ih hrest⟩

end Crossed

section Tput

variable {G : PortGraph V E} {H : HostPorts G N} {pass : Pass G H F}
  {path : F → Option (List ℕ)} {rate : F → ℚ}

omit [DecidableEq E] in
/-- All flows together get no more than the hosts can send. -/
lemma IsRated.aggTput_le (h : IsRated pass path rate) :
    pass.aggTput rate ≤ (buildHosts G H).length := by
  obtain ⟨crossing, hinit, ⟨hfeas, -⟩, hzero⟩ := h
  let routed := (pass.flows.filter (fun f => path f ≠ none)).toFinset
  have hsum : pass.aggTput rate = ∑ f ∈ routed, rate f := by
    rw [Pass.aggTput, ← List.sum_toFinset rate pass.nodup]
    refine (Finset.sum_subset (fun f hf => ?_) (fun f hf hnot => hzero f ?_)).symm
    · rw [List.mem_toFinset] at hf ⊢
      exact (List.mem_filter.mp hf).1
    · by_contra hne
      exact hnot (List.mem_toFinset.mpr (List.mem_filter.mpr
        ⟨List.mem_toFinset.mp hf, decide_eq_true hne⟩))
  have hload : ∀ host ∈ (buildHosts G H).toFinset,
      ∑ f ∈ routed with (pass.ends f).src = host, rate f =
        load crossing.ports routed rate (.host host 0) := by
    intro host _
    refine Finset.sum_congr (Finset.filter_congr fun f hf => ?_) fun _ _ => rfl
    obtain ⟨hflow, hpath⟩ := List.mem_filter.mp (List.mem_toFinset.mp hf)
    rw [mem_ports_initPorts hinit]
    constructor
    · rintro rfl
      obtain ⟨hops, hops_eq⟩ := Option.ne_none_iff_exists'.mp (of_decide_eq_true hpath)
      have hports : crossing.ports f ≠ [] :=
        ((crosses_of_initPorts hinit).routed_iff f).mpr (List.mem_toFinset.mp hf)
      obtain ⟨port, hport⟩ := List.exists_mem_of_ne_nil _ hports
      rcases (mem_ports_initPorts hinit).mp hport with hnil | ⟨-, hops', ports, hpath', hrun, -⟩
      · exact absurd hnil List.not_mem_nil
      · exact .inr ⟨hflow, hops', ports, hpath', hrun, List.mem_cons_self⟩
    · rintro (hnil | ⟨-, hops, ports, -, hrun, hmem⟩)
      · exact absurd hnil List.not_mem_nil
      · rcases List.mem_cons.mp hmem with heq | hmem
        · exact (PortName.host.inj heq).1.symm
        · exact absurd hmem (host_notMem_pathPorts hrun)
  calc pass.aggTput rate
      = ∑ host ∈ (buildHosts G H).toFinset, ∑ f ∈ routed with (pass.ends f).src = host, rate f := by
        rw [hsum, Finset.sum_fiberwise_of_maps_to]
        intro f hf
        exact List.mem_toFinset.mpr
          (pass.src_mem f (List.mem_filter.mp (List.mem_toFinset.mp hf)).1)
    _ ≤ ∑ _host ∈ (buildHosts G H).toFinset, 1 :=
        Finset.sum_le_sum fun host hhost => (hload host hhost).trans_le (hfeas _)
    _ ≤ (buildHosts G H).length := by
        rw [Finset.sum_const, nsmul_one]
        exact_mod_cast List.toFinset_card_le _

end Tput

/-! ### What one pass adds -/

section Added

variable {G : PortGraph V E} {H : HostPorts G N} {pass : Pass G H F} {r : PassResult F}

open Classical in
/-- The number of flows between switches that no links that are up join. -/
noncomputable def Pass.cutOff (pass : Pass G H F) : ℕ :=
  pass.flows.countP (fun flow => ¬ ∃ ports, G.Leads (pass.failures.failedE G)
    (pass.ends flow).src.v ports (pass.ends flow).dst.v)

/-- Without a shortest path a flow is cut off, and then the tables have no path either. -/
lemma PassOk.short_eq_none_iff (h : PassOk pass r) (hup : ¬ pass.SwitchDown) {flow : F}
    (hflow : flow ∈ pass.flows) :
    r.short flow = none ↔ ¬ ∃ ports, G.Leads (pass.failures.failedE G)
      (pass.ends flow).src.v ports (pass.ends flow).dst.v := by
  have hshort := h.short flow hflow
  constructor
  · intro hnone
    rcases hshort.dropped hnone with ⟨hv, hdown⟩ | ⟨-, hcut⟩
    · exact absurd ⟨flow, hflow, hv, hdown⟩ hup
    · exact hcut
  · intro hcut
    rw [Option.eq_none_iff_forall_ne_some]
    intro hops hsome
    obtain ⟨-, ports, -, hl, -⟩ := hshort.delivered hops hsome
    exact hcut ⟨ports, hl⟩

lemma PassOk.table_eq_none (h : PassOk pass r) (hup : ¬ pass.SwitchDown) {flow : F}
    (hflow : flow ∈ pass.flows) (hnone : r.short flow = none) : r.table.path flow = none := by
  rw [Option.eq_none_iff_forall_ne_some]
  intro hops hsome
  obtain ⟨ports, -, hl, -⟩ := (h.table flow hflow).delivered hops hsome
  exact (h.short_eq_none_iff hup hflow).mp hnone ⟨ports, hl⟩

lemma PassOk.failed_short (h : PassOk pass r) (hup : ¬ pass.SwitchDown) :
    pass.failed r.short = pass.cutOff := by
  classical
  refine List.countP_congr (fun flow hflow => ?_)
  rw [decide_eq_true_iff, decide_eq_true_iff]
  exact h.short_eq_none_iff hup hflow

lemma PassOk.cutOff_le (h : PassOk pass r) (hup : ¬ pass.SwitchDown) :
    pass.cutOff ≤ pass.failed r.table.path := by
  rw [← h.failed_short hup]
  refine List.countP_mono_left (fun flow hflow hnone => ?_)
  exact decide_eq_true (h.table_eq_none hup hflow (of_decide_eq_true hnone))

omit [DecidableEq F] in
lemma pathlen_pos_iff {path : Option (List ℕ)} : 0 < pathlen path ↔ path ≠ none := by
  cases path <;> simp [pathlen]

/-- All flows with a path of the tables are compared. -/
lemma PassOk.length_compared (h : PassOk pass r) (hup : ¬ pass.SwitchDown) :
    (pass.compared r).length + pass.failed r.table.path = pass.flows.length := by
  have hcompared : pass.compared r =
      pass.flows.filter (fun flow => !(r.table.path flow = none)) := by
    refine List.filter_congr (fun flow hflow => ?_)
    rw [← decide_not, decide_eq_decide, pathlen_pos_iff, pathlen_pos_iff]
    exact ⟨fun hboth => hboth.1, fun htable =>
      ⟨htable, fun hnone => htable (h.table_eq_none hup hflow hnone)⟩⟩
  rw [hcompared, Pass.failed, List.countP_eq_length_filter, add_comm,
    ← List.length_eq_length_filter_add]

/-- No path of the tables is shorter than a shortest path. -/
lemma PassOk.one_le_stretch (h : PassOk pass r) {flow : F} (hflow : flow ∈ pass.compared r) :
    1 ≤ r.stretch flow := by
  obtain ⟨hflow, hpos⟩ := List.mem_filter.mp hflow
  obtain ⟨htable, hshort⟩ := of_decide_eq_true hpos
  obtain ⟨hops, hops_eq⟩ := Option.ne_none_iff_exists'.mp (pathlen_pos_iff.mp htable)
  obtain ⟨hops', hops_eq'⟩ := Option.ne_none_iff_exists'.mp (pathlen_pos_iff.mp hshort)
  obtain ⟨ports, rfl, hl, -⟩ := (h.table flow hflow).delivered hops hops_eq
  obtain ⟨-, ports', rfl, -, hle⟩ := (h.short flow hflow).delivered hops' hops_eq'
  have hlen : pathlen (r.short flow) ≤ pathlen (r.table.path flow) := by
    rw [hops_eq, hops_eq', pathlen, pathlen, List.length_append, List.length_append]
    exact Nat.add_le_add_right (Nat.add_le_add_right (hle ports hl) _) 1
  rw [PassResult.stretch, one_le_div (by exact_mod_cast hshort)]
  exact_mod_cast hlen

end Added

/-! ### What all passes add -/

section All

variable {G : PortGraph V E} {H : HostPorts G N}

/-- The totals of passes and what they have found. -/
def Totals.addAll (t : Totals) (runs : List (Pass G H F × PassResult F)) : Totals :=
  runs.foldl (fun t x => t.add x.1 x.2) t

omit [DecidableEq V] [DecidableEq E] [DecidableEq N] [DecidableEq F] in
lemma Totals.addAll_eq (t : Totals) (runs : List (Pass G H F × PassResult F)) :
    t.addAll runs = {
      failedTableFlows := t.failedTableFlows + (runs.map (fun x => x.1.failed x.2.table.path)).sum
      failedShortFlows := t.failedShortFlows + (runs.map (fun x => x.1.failed x.2.short)).sum
      totFlows := t.totFlows + (runs.map (fun x => x.1.flows.length)).sum
      tableAvgTput := (runs.map (fun x => x.1.aggTput x.2.tableRate)).foldl IncAvg.update
        t.tableAvgTput
      shortAvgTput := (runs.map (fun x => x.1.aggTput x.2.shortRate)).foldl IncAvg.update
        t.shortAvgTput
      stretches := t.stretches ++ runs.flatMap (fun x => (x.1.compared x.2).map x.2.stretch)
      failStretches := t.failStretches ++ runs.flatMap (fun x =>
        ((x.1.compared x.2).filter x.2.table.failExp).map x.2.stretch)
      failRunsTable := t.failRunsTable ++
        runs.map (fun x => (x.1.failed x.2.table.path, x.1.flows.length))
      failRunsShort := t.failRunsShort ++
        runs.map (fun x => (x.1.failed x.2.short, x.1.flows.length)) } := by
  induction runs generalizing t with
  | nil => simp [addAll]
  | cons x runs ih =>
    rw [addAll, List.foldl_cons]
    refine (ih (t.add x.1 x.2)).trans ?_
    simp [add, add_assoc]

/-- What the totals of a run say of its passes. -/
structure TotalsOk (runs : List (Pass G H F × PassResult F)) (t : Totals) : Prop where
  failRunsShort : t.failRunsShort = runs.map (fun x => (x.1.cutOff, x.1.flows.length))
  failRunsTable : t.failRunsTable =
    runs.map (fun x => (x.1.failed x.2.table.path, x.1.flows.length))
  cutOff_le : ∀ x ∈ runs, x.1.cutOff ≤ x.1.failed x.2.table.path
  failedShortFlows : t.failedShortFlows = (t.failRunsShort.map Prod.fst).sum
  failedTableFlows : t.failedTableFlows = (t.failRunsTable.map Prod.fst).sum
  totFlows : t.totFlows = (runs.map (fun x => x.1.flows.length)).sum
  one_le : ∀ x ∈ t.stretches, 1 ≤ x
  length_stretches : t.stretches.length + t.failedTableFlows = t.totFlows
  failStretches : t.failStretches.Sublist t.stretches
  tableTput : t.tableAvgTput =
    ⟨(runs.map (fun x => x.1.aggTput x.2.tableRate)).sum / runs.length, runs.length⟩
  shortTput : t.shortAvgTput =
    ⟨(runs.map (fun x => x.1.aggTput x.2.shortRate)).sum / runs.length, runs.length⟩
  tableTput_le : t.tableAvgTput.avg ≤ (buildHosts G H).length
  shortTput_le : t.shortAvgTput.avg ≤ (buildHosts G H).length

lemma mean_le {bound : ℚ} (hbound : 0 ≤ bound) {vals : List ℚ} (h : ∀ x ∈ vals, x ≤ bound) :
    vals.sum / vals.length ≤ bound := by
  rcases vals.eq_nil_or_concat with rfl | ⟨rest, last, rfl⟩
  · simpa using hbound
  · rw [div_le_iff₀ (by simp; positivity), mul_comm, ← nsmul_eq_mul]
    exact List.sum_le_card_nsmul _ _ h

lemma totalsOk_addAll {runs : List (Pass G H F × PassResult F)}
    (h : ∀ x ∈ runs, PassOk x.1 x.2) (hup : ∀ x ∈ runs, ¬ x.1.SwitchDown) :
    TotalsOk runs (Totals.init.addAll runs) := by
  have hshort : runs.map (fun x => (x.1.failed x.2.short, x.1.flows.length)) =
      runs.map (fun x => (x.1.cutOff, x.1.flows.length)) :=
    List.map_congr_left fun x hx => by rw [(h x hx).failed_short (hup x hx)]
  have hmean : ∀ rate : Pass G H F × PassResult F → F → ℚ,
      (∀ x ∈ runs, ∃ path, IsRated x.1 path (rate x)) →
      (runs.map (fun x => x.1.aggTput (rate x))).sum / runs.length ≤ (buildHosts G H).length := by
    intro rate hrate
    rw [← List.length_map (fun x : Pass G H F × PassResult F => x.1.aggTput (rate x))]
    refine mean_le (Nat.cast_nonneg _) (fun tput htput => ?_)
    obtain ⟨x, hx, rfl⟩ := List.mem_map.mp htput
    obtain ⟨path, hpath⟩ := hrate x hx
    exact hpath.aggTput_le
  rw [Totals.addAll_eq]
  refine ⟨hshort, rfl, fun x hx => (h x hx).cutOff_le (hup x hx), ?_, ?_, ?_, ?_, ?_, ?_, ?_, ?_,
    ?_, ?_⟩
  · simp [Totals.init, Function.comp_def]
  · simp [Totals.init, Function.comp_def]
  · exact Nat.zero_add _
  · intro ratio hratio
    obtain ⟨x, hx, hratio⟩ := List.mem_flatMap.mp (List.nil_append _ ▸ hratio)
    obtain ⟨flow, hflow, rfl⟩ := List.mem_map.mp hratio
    exact (h x hx).one_le_stretch hflow
  · dsimp only [Totals.init]
    rw [List.nil_append, Nat.zero_add, Nat.zero_add, List.length_flatMap, ← List.sum_map_add]
    refine congrArg List.sum (List.map_congr_left fun x hx => ?_)
    rw [List.length_map]
    exact (h x hx).length_compared (hup x hx)
  · dsimp only [Totals.init]
    rw [List.nil_append, List.nil_append]
    clear h hup hshort hmean
    induction runs with
    | nil => exact List.Sublist.refl []
    | cons x runs ih =>
      rw [List.flatMap_cons, List.flatMap_cons]
      exact (List.filter_sublist.map _).append ih
  · exact (IncAvg.foldl_update _).trans (by rw [List.length_map])
  · exact (IncAvg.foldl_update _).trans (by rw [List.length_map])
  · dsimp only [Totals.init]
    rw [IncAvg.foldl_update, List.length_map]
    exact hmean (fun x => x.2.tableRate) fun x hx => ⟨_, (h x hx).tableRate⟩
  · dsimp only [Totals.init]
    rw [IncAvg.foldl_update, List.length_map]
    exact hmean (fun x => x.2.shortRate) fun x hx => ⟨_, (h x hx).shortRate⟩

variable {shortestPaths : V → V → ℕ} {getShortestPath : Adj V E → V → V → List E}
  {fwdtables : List (TableFile V E)} {topk : TopkCache V E} {passes : List (Pass G H F)}

/-- The passes one after the other, each with the cache that the one before has left. -/
lemma exists_runPasses (hsp : IsPathFinder getShortestPath) (hserved : ServedBy G fwdtables)
    (hdist : IsDistances G shortestPaths) (htopk : CacheOk fwdtables topk)
    (hup : ∀ pass ∈ passes, ¬ pass.SwitchDown) :
    ∃ runs : List (Pass G H F × PassResult F), runs.map Prod.fst = passes ∧
      (∀ x ∈ runs, PassOk x.1 x.2) ∧ ∃ steps, ∀ t fuel, steps ≤ fuel →
        runPasses fuel shortestPaths getShortestPath passes fwdtables topk t =
          some (t.addAll runs) := by
  induction passes generalizing fwdtables topk with
  | nil => exact ⟨[], rfl, by simp, 0, fun _ _ _ => rfl⟩
  | cons pass passes ih =>
    obtain ⟨hpass, hup⟩ := List.forall_mem_cons.mp hup
    obtain ⟨r, topk', hok, htopk', steps₁, hrun₁⟩ := exists_pass hsp hserved hdist htopk hpass
    have hperm := shuffle_perm pass.tableOrder fwdtables
    obtain ⟨runs, hfst, hoks, steps₂, hrun₂⟩ := ih (hserved.perm hperm) (htopk'.perm hperm) hup
    refine ⟨(pass, r) :: runs, by rw [List.map_cons, hfst], List.forall_mem_cons.mpr ⟨hok, hoks⟩,
      max steps₁ steps₂, fun t fuel hfuel => ?_⟩
    obtain ⟨hle₁, hle₂⟩ := max_le_iff.mp hfuel
    simp only [runPasses, hrun₁ fuel hle₁, Option.bind_eq_bind, Option.bind_some,
      hrun₂ _ fuel hle₂]
    rfl

lemma runPasses_eq_none (fuel : ℕ) {pass : Pass G H F} (hmem : pass ∈ passes)
    (hdown : pass.SwitchDown) (t : Totals) :
    runPasses fuel shortestPaths getShortestPath passes fwdtables topk t = none := by
  induction passes generalizing fwdtables topk t with
  | nil => exact absurd hmem List.not_mem_nil
  | cons first passes ih =>
    rw [runPasses]
    rcases List.mem_cons.mp hmem with rfl | hmem
    · rw [runPass_eq_none fuel hdown]
      rfl
    · simp only [Option.bind_eq_bind, Option.bind_eq_none_iff]
      exact fun _ _ => ih hmem _

/-- For tables that are built over spanning trees and any passes: the run raises an exception if
and only if some pass has a flow between two hosts of one switch that is down. Otherwise the
totals add up what the passes have found: the flows without a shortest path are those that are
cut off, and the tables route no more flows; no stretch is less than one, and there is one for each
flow that the tables route; and the averages are the means of the throughputs, which are no more
than the number of hosts. -/
theorem throughputRun_totals (hsp : IsPathFinder getShortestPath) (hne : fwdtables ≠ [])
    (hbuilt : ∀ fwdtable ∈ fwdtables, ∀ dst, 0 < G.numhosts dst →
      BuiltTable G getShortestPath dst (fwdtable dst))
    (hstart : ∀ fwdtable ∈ fwdtables, ∀ src dst, 0 < G.numhosts dst → src ≠ dst →
      (fwdtable dst).entries src none ≠ [])
    (hdist : IsDistances G shortestPaths) (tableOrder : ℕ) (passes : List (Pass G H F)) :
    ((∃ pass ∈ passes, pass.SwitchDown) → ∀ fuel,
      throughputRun fuel shortestPaths getShortestPath tableOrder fwdtables passes = none) ∧
    ((∀ pass ∈ passes, ¬ pass.SwitchDown) →
      ∃ runs : List (Pass G H F × PassResult F), runs.map Prod.fst = passes ∧
        (∀ x ∈ runs, PassOk x.1 x.2) ∧ ∃ steps, ∀ fuel, steps ≤ fuel → ∃ t, TotalsOk runs t ∧
          throughputRun fuel shortestPaths getShortestPath tableOrder fwdtables passes =
            some t) := by
  refine ⟨fun ⟨pass, hmem, hdown⟩ fuel => runPasses_eq_none fuel hmem hdown _, fun hup => ?_⟩
  have hperm := shuffle_perm tableOrder fwdtables
  obtain ⟨runs, rfl, hoks, steps, hrun⟩ := exists_runPasses hsp
    ((servedBy_of_built hsp hne hbuilt hstart).perm hperm) hdist cacheOk_init hup
  exact ⟨runs, rfl, hoks, steps, fun fuel hfuel =>
    ⟨_, totalsOk_addAll hoks fun x hx => hup x.1 (List.mem_map_of_mem hx), hrun _ fuel hfuel⟩⟩

end All

theorem throughputRun_totals_pair :
    ∃ runs : List (Pass doubleLink pairHosts (Fin 2) × PassResult (Fin 2)),
      runs.map Prod.fst = [pairPass, pairPass] ∧ ∃ steps, ∀ fuel, steps ≤ fuel →
        ∃ t, TotalsOk runs t ∧ throughputRun fuel pairDistances (bfsPath [0, 1]) 0 pairTables
          [pairPass, pairPass] = some t := by
  have hup : ∀ pass ∈ [pairPass, pairPass], ¬ pass.SwitchDown := by
    intro pass hpass
    rw [List.eq_of_mem_replicate (n := 2) hpass]
    exact not_switchDown_pairPass
  obtain ⟨runs, hfst, -, hrun⟩ := (throughputRun_totals
    (isPathFinder_bfsPath (show ∀ v : Fin 2, v ∈ [0, 1] by decide)) (List.cons_ne_nil _ _)
    built_pairTables start_pairTables isDistances_pair 0 [pairPass, pairPass]).2 hup
  exact ⟨runs, hfst, hrun⟩

end ResSim
