import Mathlib.Data.Nat.Pairing
import ResSim.Throughput.FlowPaths
import ResSim.Throughput.PriorityFill

/-!
# One pass of a throughput run

A pass takes flows between hosts and failures, and routes the flows twice, with the tables and
over shortest paths. Each time the ports are filled, and then it is checked that no path has a
link or a switch that is down.
-/

namespace ResSim

variable {V E N F : Type} [DecidableEq V] [DecidableEq E] [DecidableEq N] [DecidableEq F]

/-! ### Hosts and ports -/

/-- `v.host_ports` and `v.numhosts`. -/
structure HostPorts (G : PortGraph V E) (N : Type) where
  hostPorts : V → List (ℕ × N)
  nodup : ∀ v, ((hostPorts v).map Prod.fst).Nodup
  numhosts_pos : ∀ v, hostPorts v ≠ [] → 0 < G.numhosts v

def buildHosts (G : PortGraph V E) (H : HostPorts G N) : List (Host V N) :=
  G.verts.flatMap (fun v => (H.hostPorts v).map (fun x => ⟨x.2, v, x.1⟩))

def buildPorts (G : PortGraph V E) (H : HostPorts G N) : List (PortName V (Host V N)) :=
  (buildHosts G H).map (fun h => .host h 0) ++
    G.verts.flatMap (fun v => (G.portList v).map (.switch v) ++
      (H.hostPorts v).map (fun x => .switch v x.1))

/-! ### Filling and checking -/

/-- What `init_ports` reads of the flows. -/
def flowInfo (ends : F → HostFlow V N) (path : F → Option (List ℕ)) (flow : F) :
    FlowInfo V (Host V N) := ⟨(ends flow).src, (ends flow).src.v, path flow⟩

/-- The assertions on a path, which leave out its last hop. -/
def checkPath (G : PortGraph V E) (failures : Failures V E) (srcV : V) (path : List ℕ) :
    Option Unit := do
  let vertices ← vertexList G srcV path.dropLast
  let arcs ← arcSet G srcV path.dropLast
  guard (∀ w ∈ vertices, w ∉ failures.failedV)
  guard (∀ a ∈ arcs, a.2 ∉ failures.failedE G)

/-- Chosen at random in one pass: the order of the tables, the flows, what fails, where the walks
start, how ports compare as objects, and in which orders sets are iterated. -/
structure Pass (G : PortGraph V E) (H : HostPorts G N) (F : Type) where
  tableOrder : ℕ
  flows : List F
  ends : F → HostFlow V N
  failures : Failures V E
  rnd : Rnd
  rank : PortName V (Host V N) → ℕ
  tableDraw : ℕ → ℕ
  shortDraw : ℕ → ℕ
  nodup : flows.Nodup
  src_mem : ∀ flow ∈ flows, (ends flow).src ∈ buildHosts G H
  dst_mem : ∀ flow ∈ flows, (ends flow).dst ∈ buildHosts G H
  rank_injective : Function.Injective rank

section Model

variable (fuel : ℕ) {G : PortGraph V E} {H : HostPorts G N} (pass : Pass G H F)

def checkPaths (path : F → Option (List ℕ)) : Option (List Unit) :=
  pass.flows.mapM (fun flow =>
    ((path flow).map (checkPath G pass.failures (pass.ends flow).src.v)).getD (some ()))

/-- The rates in one of the two models; `none` where an assertion fails. -/
def modelRates (draw : ℕ → ℕ) (path : F → Option (List ℕ)) : Option (F → ℚ) := do
  let ports := buildPorts G H
  let crossing ← initPorts G (flowInfo pass.ends path) ports pass.flows
    ⟨fun _ => [], fun _ => []⟩
  let alloc ← queueFlowThroughputs pass.rank fuel crossing draw ports
  let _ ← checkPaths pass path
  some alloc.rateOf

/-- What a pass has found for its flows. -/
structure PassResult (F : Type) where
  table : FlowPaths F
  tableRate : F → ℚ
  short : F → Option (List ℕ)
  shortRate : F → ℚ

def runPass (shortestPaths : V → V → ℕ) (getShortestPath : Adj V E → V → V → List E)
    (fwdtables : List (TableFile V E)) (topk : TopkCache V E) :
    Option (PassResult F × List (TableFile V E) × TopkCache V E) := do
  let fwdtables := shuffle pass.tableOrder fwdtables
  let (table, topk, _) ← buildFwdtablePaths fuel G shortestPaths fwdtables pass.ends
    pass.failures pass.flows topk ⟨fun _ => none, fun _ => false⟩ pass.rnd
  let tableRate ← modelRates fuel pass pass.tableDraw table.path
  let short ← buildShortestPaths G getShortestPath pass.failures pass.ends pass.flows
    ⟨fun _ => none, table.failExp⟩
  let shortRate ← modelRates fuel pass pass.shortDraw short.path
  some (⟨table, tableRate, short.path, shortRate⟩, fwdtables, topk)

end Model

/-! ### What a pass finds -/

/-- Some flow joins two hosts of one switch that is down. -/
def Pass.SwitchDown {G : PortGraph V E} {H : HostPorts G N} (pass : Pass G H F) : Prop :=
  ∃ flow ∈ pass.flows, (pass.ends flow).src.v = (pass.ends flow).dst.v ∧
    (pass.ends flow).src.v ∈ pass.failures.failedV

/-- The rates are max-min fair among the flows with a path, and the others have none. -/
def IsRated {G : PortGraph V E} {H : HostPorts G N} (pass : Pass G H F)
    (path : F → Option (List ℕ)) (rate : F → ℚ) : Prop :=
  ∃ crossing, initPorts G (flowInfo pass.ends path) (buildPorts G H) pass.flows
      ⟨fun _ => [], fun _ => []⟩ = some crossing ∧
    IsMaxMinFair crossing.ports (pass.flows.filter (fun f => path f ≠ none)).toFinset 1 rate ∧
    ∀ f, path f = none → rate f = 0

structure PassOk {G : PortGraph V E} {H : HostPorts G N} (pass : Pass G H F)
    (r : PassResult F) : Prop where
  table : ∀ flow ∈ pass.flows, IsTablePath G pass.failures (pass.ends flow) (r.table.path flow)
    (r.table.failExp flow)
  short : ∀ flow ∈ pass.flows, IsShortPath G pass.failures (pass.ends flow) (r.short flow)
  tableRate : IsRated pass r.table.path r.tableRate
  shortRate : IsRated pass r.short r.shortRate

section Ports

variable {G : PortGraph V E} {H : HostPorts G N} {failures : Failures V E} {h : Host V N}

omit [DecidableEq V] [DecidableEq E] [DecidableEq N] in
lemma mem_buildHosts : h ∈ buildHosts G H ↔ (h.portno, h.name) ∈ H.hostPorts h.v := by
  simp only [buildHosts, List.mem_flatMap, List.mem_map, Prod.exists]
  constructor
  · rintro ⟨v, -, portno, name, hmem, rfl⟩
    exact hmem
  · exact fun hmem => ⟨h.v, G.mem_verts _, h.portno, h.name, hmem, rfl⟩

omit [DecidableEq V] [DecidableEq E] [DecidableEq N] in
lemma numhosts_pos_of_mem (hh : h ∈ buildHosts G H) : 0 < G.numhosts h.v :=
  H.numhosts_pos _ (List.ne_nil_of_mem (mem_buildHosts.mp hh))

omit [DecidableEq V] [DecidableEq E] [DecidableEq N] in
lemma host_mem_buildPorts (hh : h ∈ buildHosts G H) : .host h 0 ∈ buildPorts G H :=
  List.mem_append_left _ (List.mem_map_of_mem hh)

omit [DecidableEq V] [DecidableEq E] [DecidableEq N] in
lemma switch_mem_buildPorts {v : V} {p : ℕ}
    (hp : p ∈ G.portList v ∨ p ∈ (H.hostPorts v).map Prod.fst) :
    .switch v p ∈ buildPorts G H := by
  refine List.mem_append_right _ (List.mem_flatMap.mpr ⟨v, G.mem_verts v, ?_⟩)
  rcases hp with hp | hp
  · exact List.mem_append_left _ (List.mem_map_of_mem hp)
  · obtain ⟨x, hx, rfl⟩ := List.mem_map.mp hp
    exact List.mem_append_right _ (List.mem_map_of_mem hx)

omit [DecidableEq E] [DecidableEq N] in
/-- The ports of a path that ends at a host are ports of the network. -/
lemma exists_pathPorts {failedE : Finset E} {v : V} {hops : List ℕ} (hh : h ∈ buildHosts G H)
    (hl : G.Leads failedE v hops h.v) :
    ∃ ports, pathPorts G v (hops ++ [h.portno]) = some ports ∧
      ∀ port ∈ ports, port ∈ buildPorts G H := by
  induction hops generalizing v with
  | nil =>
    obtain rfl : v = h.v := hl
    refine ⟨[.switch h.v h.portno], rfl, fun port hport => ?_⟩
    rw [List.mem_singleton.mp hport]
    exact switch_mem_buildPorts (.inr (List.mem_map_of_mem (mem_buildHosts.mp hh)))
  | cons hop hops ih =>
    obtain ⟨e, w, q, hhop, -, hl⟩ := hl
    obtain ⟨ports, hrun, hports⟩ := ih hl
    refine ⟨.switch v hop :: ports, ?_, List.forall_mem_cons.mpr
      ⟨switch_mem_buildPorts (.inl (PortGraph.hop_mem_portList hhop)), hports⟩⟩
    obtain ⟨next, rest, hnext⟩ := List.exists_cons_of_ne_nil
      (List.append_ne_nil_of_right_ne_nil hops (List.cons_ne_nil h.portno []))
    rw [List.cons_append, hnext, pathPorts, PortGraph.ports_of_hop hhop, ← hnext]
    simp only [Option.bind_eq_bind, Option.bind_some, hrun]

/-- The assertions hold of a path over links that are up if it starts at a switch that is up, and
only then. -/
lemma checkPath_eq_some_iff {src dst : V} {hops : List ℕ} (portno : ℕ)
    (hl : G.Leads (failures.failedE G) src hops dst) :
    checkPath G failures src (hops ++ [portno]) = some () ↔ src ∉ failures.failedV := by
  obtain ⟨r, arcs, hr, ha, hup⟩ := leads_iff.mp hl
  obtain ⟨vs, hvs⟩ := exists_vertexList hr
  have hhead : src ∈ vs := by
    cases hops with
    | nil =>
      obtain rfl := Option.some.inj hvs
      exact List.mem_singleton_self src
    | cons hop hops =>
      simp only [vertexList, Option.bind_eq_bind, Option.bind_eq_some_iff,
        Option.some.injEq] at hvs
      obtain ⟨_, _, _, _, rfl⟩ := hvs
      exact List.mem_cons_self
  rw [checkPath, List.dropLast_concat, hvs, ha]
  simp only [Option.bind_eq_bind, Option.bind_some, guard_bind_eq_some, Option.guard_eq_some']
  constructor
  · exact fun h => h.1 src hhead
  · intro hsrc
    obtain ⟨vs', hvs', -, hall⟩ :=
      exists_vertexList_of_leads (leads_mono hl failures.touchedE_subset) hsrc
    rw [hvs, Option.some.injEq] at hvs'
    exact ⟨hvs' ▸ hall, hup⟩

end Ports

/-! ### Rates of a pass -/

section Rates

variable {G : PortGraph V E} {H : HostPorts G N} {pass : Pass G H F}
  {path : F → Option (List ℕ)} {draw : ℕ → ℕ}

omit [DecidableEq E] in
/-- All ports are found if those of every path are there. -/
lemma exists_initPorts {Q : Type} [DecidableEq Q] {info : F → FlowInfo V Q}
    {portDict : List (PortName V Q)} {flows : List F}
    (h : ∀ flow ∈ flows, ∀ hops, (info flow).path = some hops →
      .host (info flow).src 0 ∈ portDict ∧
      ∃ ports, pathPorts G (info flow).srcV hops = some ports ∧ ∀ port ∈ ports, port ∈ portDict)
    (s : Crossing (PortName V Q) F) : ∃ s', initPorts G info portDict flows s = some s' := by
  induction flows generalizing s with
  | nil => exact ⟨s, rfl⟩
  | cons flow flows ih =>
    obtain ⟨hflow, h⟩ := List.forall_mem_cons.mp h
    rw [initPorts]
    cases hpath : (info flow).path with
    | none => exact ih h s
    | some hops =>
      obtain ⟨hsrc, ports, hports, hmem⟩ := hflow hops hpath
      have hall : ∀ port ∈ PortName.host (info flow).src 0 :: ports, port ∈ portDict :=
        List.forall_mem_cons.mpr ⟨hsrc, hmem⟩
      simp only [hports, Option.bind_eq_bind, Option.bind_some, guard, if_pos hall]
      exact ih h _

omit [DecidableEq V] [DecidableEq E] [DecidableEq N] in
/-- A flow without a rate has the rate `0` that it was reset to. -/
lemma rateOf_eq_zero {P : Type} {alloc : Alloc P F} {f : F}
    (h : f ∉ alloc.rates.map Prod.fst) : alloc.rateOf f = 0 := by
  have hfind : alloc.rates.find? (fun x => x.1 = f) = none := by
    rw [List.find?_eq_none]
    intro x hx heq
    exact h (of_decide_eq_true heq ▸ List.mem_map_of_mem hx)
  rw [Alloc.rateOf, hfind]
  rfl

omit [DecidableEq V] [DecidableEq E] [DecidableEq N] [DecidableEq F] in
lemma queueFlowThroughputs_mono {P : Type} [DecidableEq F] [DecidableEq P] {rank : P → ℕ}
    {crossing : Crossing P F} {allPorts : List P} {alloc : Alloc P F} {fuel fuel' : ℕ}
    (hle : fuel ≤ fuel')
    (h : queueFlowThroughputs rank fuel crossing draw allPorts = some alloc) :
    queueFlowThroughputs rank fuel' crossing draw allPorts = some alloc := by
  rw [queueFlowThroughputs, Option.join_eq_some_iff] at h ⊢
  exact Loop.run_mono hle h

variable (pass) in
/-- A path of one of the models: links that are up lead from a switch that is up to the host. -/
def IsUpPath (flow : F) (hops : List ℕ) : Prop :=
  (pass.ends flow).src.v ∉ pass.failures.failedV ∧
    ∃ ports, hops = ports ++ [(pass.ends flow).dst.portno] ∧
      G.Leads (pass.failures.failedE G) (pass.ends flow).src.v ports (pass.ends flow).dst.v

omit [DecidableEq N] [DecidableEq F] in
lemma checkPaths_eq_some (h : ∀ flow ∈ pass.flows, ∀ hops, path flow = some hops →
    IsUpPath pass flow hops) : checkPaths pass path = some (pass.flows.map (fun _ => ())) := by
  refine mapM_eq_map (fun flow hflow => ?_)
  cases hpath : path flow with
  | none => rfl
  | some hops =>
    obtain ⟨hsrc, ports, rfl, hl⟩ := h flow hflow hops hpath
    exact (checkPath_eq_some_iff _ hl).mpr hsrc

/-- No key is missing and no assertion fails, and the rates are fair. -/
lemma exists_modelRates (h : ∀ flow ∈ pass.flows, ∀ hops, path flow = some hops →
      IsUpPath pass flow hops) (draw : ℕ → ℕ) :
    ∃ rate, IsRated pass path rate ∧
      ∃ steps, ∀ fuel, steps ≤ fuel → modelRates fuel pass draw path = some rate := by
  obtain ⟨crossing, hinit⟩ : ∃ crossing, initPorts G (flowInfo pass.ends path) (buildPorts G H)
      pass.flows ⟨fun _ => [], fun _ => []⟩ = some crossing := by
    refine exists_initPorts (fun flow hflow hops hpath => ?_) _
    obtain ⟨-, ports, rfl, hl⟩ := h flow hflow hops hpath
    exact ⟨host_mem_buildPorts (pass.src_mem flow hflow),
      exists_pathPorts (pass.dst_mem flow hflow) hl⟩
  obtain ⟨steps, alloc, level, hrun, hfair, hset⟩ :=
    (crosses_of_initPorts hinit).queueFlowThroughputs pass.rank_injective draw
  refine ⟨alloc.rateOf, ⟨crossing, hinit, hset ▸ hfair.isMaxMinFair, fun f hf => ?_⟩, steps,
    fun fuel hfuel => ?_⟩
  · apply rateOf_eq_zero
    rw [← List.mem_toFinset, hset, List.mem_toFinset, List.mem_filter, decide_eq_true_iff]
    exact fun hmem => hmem.2 hf
  · simp only [modelRates, hinit, Option.bind_eq_bind, Option.bind_some,
      queueFlowThroughputs_mono hfuel hrun, checkPaths_eq_some h]

/-- The assertions fail for a flow between two hosts of a switch that is down. -/
lemma modelRates_eq_none {fuel : ℕ} {flow : F} (hflow : flow ∈ pass.flows)
    (hpath : path flow = some [(pass.ends flow).dst.portno])
    (hdown : (pass.ends flow).src.v ∈ pass.failures.failedV) :
    modelRates fuel pass draw path = none := by
  have hcheck : checkPath G pass.failures (pass.ends flow).src.v
      [(pass.ends flow).dst.portno] = none := by
    rw [Option.eq_none_iff_forall_ne_some]
    rintro ⟨⟩ hsome
    have hself : G.Leads (pass.failures.failedE G) (pass.ends flow).src.v []
        (pass.ends flow).src.v := rfl
    exact (checkPath_eq_some_iff (pass.ends flow).dst.portno hself).mp hsome hdown
  have hnone : checkPaths pass path = none := mapM_eq_none hflow (by
    rw [hpath, Option.map_some, hcheck, Option.getD_some])
  simp only [modelRates, hnone, Option.bind_eq_bind, Option.bind_none, Option.bind_eq_none_iff,
    implies_true]

end Rates

/-! ### A pass -/

section Runs

variable {G : PortGraph V E} {H : HostPorts G N} {pass : Pass G H F}
  {shortestPaths : V → V → ℕ} {getShortestPath : Adj V E → V → V → List E}
  {fwdtables : List (TableFile V E)} {topk : TopkCache V E}

/-- A pass without such a flow finds paths and rates, and caches only start trees. -/
lemma exists_pass (hsp : IsPathFinder getShortestPath) (hserved : ServedBy G fwdtables)
    (hdist : IsDistances G shortestPaths) (htopk : CacheOk fwdtables topk)
    (hup : ¬ pass.SwitchDown) :
    ∃ r topk', PassOk pass r ∧ CacheOk fwdtables topk' ∧ ∃ steps, ∀ fuel, steps ≤ fuel →
      runPass fuel pass shortestPaths getShortestPath fwdtables topk =
        some (r, shuffle pass.tableOrder fwdtables, topk') := by
  have hdst : ∀ flow ∈ pass.flows, 0 < G.numhosts (pass.ends flow).dst.v :=
    fun flow hflow => numhosts_pos_of_mem (pass.dst_mem flow hflow)
  have hperm := shuffle_perm pass.tableOrder fwdtables
  obtain ⟨table, topk', rnd', htopk', htable, -, steps₁, hrun₁⟩ :=
    (htopk.perm hperm).exists_paths pass.ends pass.failures (hserved.perm hperm) hdist hdst
      ⟨fun _ => none, fun _ => false⟩ pass.rnd
  obtain ⟨short, hshort, hshorts, -⟩ := exists_shortPaths pass.failures hsp hdst
    ⟨fun _ => none, table.failExp⟩
  obtain ⟨tableRate, htableRate, steps₂, hrun₂⟩ : ∃ rate, IsRated pass table.path rate ∧
      ∃ steps, ∀ fuel, steps ≤ fuel →
        modelRates fuel pass pass.tableDraw table.path = some rate := by
    refine exists_modelRates (fun flow hflow hops hpath => ?_) pass.tableDraw
    obtain ⟨ports, hops_eq, hl, hdown⟩ := (htable flow hflow).delivered hops hpath
    exact ⟨fun hsrc => hup ⟨flow, hflow, (hdown hsrc).1, hsrc⟩, ports, hops_eq, hl⟩
  obtain ⟨shortRate, hshortRate, steps₃, hrun₃⟩ : ∃ rate, IsRated pass short.path rate ∧
      ∃ steps, ∀ fuel, steps ≤ fuel →
        modelRates fuel pass pass.shortDraw short.path = some rate := by
    refine exists_modelRates (fun flow hflow hops hpath => ?_) pass.shortDraw
    obtain ⟨hsrc, ports, hops_eq, hl⟩ := (hshorts flow hflow).delivered hops hpath
    exact ⟨hsrc, ports, hops_eq, hl.1⟩
  refine ⟨⟨table, tableRate, short.path, shortRate⟩, topk', ⟨htable, hshorts, htableRate,
    hshortRate⟩, htopk'.perm hperm.symm, max steps₁ (max steps₂ steps₃), fun fuel hfuel => ?_⟩
  obtain ⟨hle₁, hle⟩ := max_le_iff.mp hfuel
  obtain ⟨hle₂, hle₃⟩ := max_le_iff.mp hle
  simp only [runPass, hrun₁ fuel hle₁, hrun₂ fuel hle₂, hshort, hrun₃ fuel hle₃,
    Option.bind_eq_bind, Option.bind_some]

lemma runPass_eq_none (fuel : ℕ) (hdown : pass.SwitchDown) :
    runPass fuel pass shortestPaths getShortestPath fwdtables topk = none := by
  obtain ⟨flow, hflow, hv, hfail⟩ := hdown
  rw [Option.eq_none_iff_forall_ne_some]
  intro r hrun
  rw [runPass] at hrun
  simp only [Option.bind_eq_bind, Option.bind_eq_some_iff] at hrun
  obtain ⟨⟨table, topk', rnd'⟩, htable, tableRate, hrate, -⟩ := hrun
  have hpath := path_of_same_switch hv (.inl hflow) htable
  rw [modelRates_eq_none hflow hpath hfail] at hrate
  cases hrate

/-- For tables that are built over spanning trees, and however the cache was filled before: a pass
raises an exception if and only if some flow joins two hosts of one switch that is down. Otherwise
every flow has a path of the tables, over links that are up, or met a failure on its way; it has a
shortest path unless it is cut off; and both times the rates are max-min fair. -/
theorem runPass_routes (hsp : IsPathFinder getShortestPath) (hne : fwdtables ≠ [])
    (hbuilt : ∀ fwdtable ∈ fwdtables, ∀ dst, 0 < G.numhosts dst →
      BuiltTable G getShortestPath dst (fwdtable dst))
    (hstart : ∀ fwdtable ∈ fwdtables, ∀ src dst, 0 < G.numhosts dst → src ≠ dst →
      (fwdtable dst).entries src none ≠ [])
    (hdist : IsDistances G shortestPaths) (htopk : CacheOk fwdtables topk) (pass : Pass G H F) :
    (pass.SwitchDown → ∀ fuel,
      runPass fuel pass shortestPaths getShortestPath fwdtables topk = none) ∧
    (¬ pass.SwitchDown → ∃ r topk', PassOk pass r ∧ CacheOk fwdtables topk' ∧
      ∃ steps, ∀ fuel, steps ≤ fuel →
        runPass fuel pass shortestPaths getShortestPath fwdtables topk =
          some (r, shuffle pass.tableOrder fwdtables, topk')) :=
  ⟨fun hdown fuel => runPass_eq_none fuel hdown,
    exists_pass hsp (servedBy_of_built hsp hne hbuilt hstart) hdist htopk⟩

end Runs

/-! ### Two switches -/

/-- One host at each of two switches. -/
def pairHosts : HostPorts doubleLink (Fin 2) where
  hostPorts v := [(2, v)]
  nodup _ := List.nodup_singleton _
  numhosts_pos _ _ := Nat.one_pos

/-- The host at a switch. -/
def pairHost (v : Fin 2) : Host (Fin 2) (Fin 2) := ⟨v, v, 2⟩

lemma mem_pairHosts : ∀ v, pairHost v ∈ buildHosts doubleLink pairHosts := by decide

/-- Ports as numbers. -/
def pairRank : PortName (Fin 2) (Host (Fin 2) (Fin 2)) → ℕ
  | .host h portno => 2 * Nat.pair (Nat.pair h.name h.v) (Nat.pair h.portno portno)
  | .switch v portno => 2 * Nat.pair v portno + 1

lemma pairRank_injective : Function.Injective pairRank := by
  rintro (⟨⟨name, v, p⟩, n⟩ | ⟨v, n⟩) (⟨⟨name', v', p'⟩, n'⟩ | ⟨v', n'⟩) heq <;>
    simp only [pairRank] at heq
  · have hpair := Nat.eq_of_mul_eq_mul_left Nat.two_pos heq
    rw [Nat.pair_eq_pair, Nat.pair_eq_pair, Nat.pair_eq_pair] at hpair
    obtain ⟨⟨hname, hv⟩, rfl, rfl⟩ := hpair
    rw [Fin.ext hname, Fin.ext hv]
  · omega
  · omega
  · have hpair : Nat.pair v n = Nat.pair v' n' := by omega
    obtain ⟨hv, rfl⟩ := Nat.pair_eq_pair.mp hpair
    rw [Fin.ext hv]

/-- A flow each way while one of the two links is down. -/
def pairPass : Pass doubleLink pairHosts (Fin 2) where
  tableOrder := 0
  flows := [0, 1]
  ends f := ⟨pairHost f, pairHost (1 - f)⟩
  failures := .edges {0}
  rnd _ := 0
  rank := pairRank
  tableDraw _ := 0
  shortDraw _ := 0
  nodup := by decide
  src_mem f _ := mem_pairHosts f
  dst_mem f _ := mem_pairHosts (1 - f)
  rank_injective := pairRank_injective

lemma not_switchDown_pairPass : ¬ pairPass.SwitchDown := by
  rintro ⟨f, -, -, hf⟩
  exact Finset.notMem_empty _ hf

/-- The tables of the two trees of the two links. -/
def pairTables : List (TableFile (Fin 2) (Fin 2)) := [fun dst => (pairDfr dst).1]

lemma built_pairTables : ∀ fwdtable ∈ pairTables, ∀ dst, 0 < doubleLink.numhosts dst →
    BuiltTable doubleLink (bfsPath [0, 1]) dst (fwdtable dst) := by
  intro fwdtable hf dst _
  rw [List.mem_singleton.mp hf]
  exact builtTable_pair dst

lemma start_pairTables : ∀ fwdtable ∈ pairTables, ∀ src dst, 0 < doubleLink.numhosts dst →
    src ≠ dst → (fwdtable dst).entries src none ≠ [] := by
  have hentries : ∀ src dst : Fin 2, src ≠ dst → (pairDfr dst).1.entries src none ≠ [] := by
    decide +kernel
  intro fwdtable hf src dst _
  rw [List.mem_singleton.mp hf]
  exact hentries src dst

theorem runPass_routes_pair :
    ∃ r topk', PassOk pairPass r ∧ CacheOk pairTables topk' ∧ ∃ steps, ∀ fuel, steps ≤ fuel →
      runPass fuel pairPass pairDistances (bfsPath [0, 1]) pairTables initTopkCache =
        some (r, shuffle pairPass.tableOrder pairTables, topk') :=
  (runPass_routes (isPathFinder_bfsPath (show ∀ v : Fin 2, v ∈ [0, 1] by decide))
    (List.cons_ne_nil _ _) built_pairTables start_pairTables isDistances_pair cacheOk_init
    pairPass).2 not_switchDown_pairPass

end ResSim
