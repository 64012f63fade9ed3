import Mathlib.Algebra.BigOperators.Group.List.Basic
import Mathlib.Data.Rat.Defs
import Mathlib.Tactic.Ring
import ResSim.Lib.Dict
import ResSim.Lib.Loop
import ResSim.Lib.Random
import ResSim.PortGraph

/-!
# Rates of flows

The throughput of a run is computed by filling ports. The port with the smallest fair share is
taken from a priority queue, all flows on it that have no rate yet get that share, and the
ports that they cross are put back into the queue. Rates are rational numbers here, and every
port has the capacity 1.
-/

namespace ResSim

variable {V H E F P : Type} [DecidableEq V] [DecidableEq H] [DecidableEq F] [DecidableEq P]

/-! ### Ports and flows -/

/-- A flow: its source host, the switch of that host, and its path if it was routed. -/
structure FlowInfo (V H : Type) where
  src : H
  srcV : V
  path : Option (List ℕ)

/-- The key of a port in the port dictionary. -/
inductive PortName (V H : Type) where
  | host (h : H) (portno : ℕ)
  | switch (v : V) (portno : ℕ)
  deriving DecidableEq

/-- The unassigned flows on each port, and the ports that each flow crosses. -/
structure Crossing (P F : Type) where
  flows : P → List F
  ports : F → List P

/-- The switch ports of a path. The last one leads to a host. -/
def pathPorts (G : PortGraph V E) : V → List ℕ → Option (List (PortName V H))
  | _, [] => some []
  | v, [hop] => some [.switch v hop]
  | v, hop :: next :: rest => do
    let nv ← G.ports v hop
    let ports ← pathPorts G nv (next :: rest)
    some (.switch v hop :: ports)

/-- `port.flows.add(flow); flow.ports.add(port)`, both sets. -/
def Crossing.add (s : Crossing P F) (flow : F) (port : P) : Crossing P F where
  flows := Function.update s.flows port ((s.flows port).insert flow)
  ports := Function.update s.ports flow ((s.ports flow).insert port)

/-- The ports and flows of a run; `none` where a port does not exist. -/
def initPorts (G : PortGraph V E) (info : F → FlowInfo V H) (portDict : List (PortName V H)) :
    List F → Crossing (PortName V H) F → Option (Crossing (PortName V H) F)
  | [], s => some s
  | flow :: rest, s =>
    match (info flow).path with
    | none => initPorts G info portDict rest s
    | some path => do
      let ports ← pathPorts G (info flow).srcV path
      let crossed := .host (info flow).src 0 :: ports
      guard (∀ port ∈ crossed, port ∈ portDict)
      initPorts G info portDict rest (crossed.foldl (fun s port => s.add flow port) s)

/-! ### Assigning rates -/

/-- State of the ports and flows: unassigned flows and used capacity of each port, and the
assignments made so far. -/
structure Alloc (P F : Type) where
  flows : P → List F
  used : P → ℚ
  rates : List (F × ℚ)

/-- The fair share of the unassigned flows on a port. -/
def Alloc.flowRate (s : Alloc P F) (port : P) : ℚ :=
  if 0 < (s.flows port).length then (1 - s.used port) / (s.flows port).length else 0

/-- Takes a flow off its ports; `none` where an assertion fails or the flow is not there. -/
def assignPorts (rate : ℚ) (flow : F) : List P → Alloc P F → Option (Alloc P F)
  | [], s => some s
  | fp :: rest, s => do
    let used := s.used fp + rate
    guard (used ≤ 101 / 100)
    guard (flow ∈ s.flows fp)
    assignPorts rate flow rest { s with
      used := Function.update s.used fp used
      flows := Function.update s.flows fp ((s.flows fp).erase flow) }

def assignFlows (ports : F → List P) (rate : ℚ) : List F → Alloc P F → Option (Alloc P F)
  | [], s => some s
  | flow :: rest, s => do
    let s ← assignPorts rate flow (ports flow) { s with rates := s.rates ++ [(flow, rate)] }
    assignFlows ports rate rest s

/-- State of the loop. The rounds are counted to let ties be broken differently each time. -/
structure Filling (P F : Type) where
  alloc : Alloc P F
  portpq : List (P × ℚ)
  round : ℕ

/-- One port. `popSmallest` chooses among the ports of smallest share, and `draw` is the
order in which the set of its flows is iterated. -/
def fillStep (ports : F → List P) (popSmallest : ℕ → List (P × ℚ) → P) (draw : ℕ → ℕ)
    (s : Filling P F) : Step (Filling P F) (Option (Alloc P F)) :=
  if s.portpq = [] then .done (some s.alloc)
  else
    let port := popSmallest s.round s.portpq
    let portpq := s.portpq.filter (fun x => x.1 ≠ port)
    let rate := s.alloc.flowRate port
    -- `rate is 0` holds of the integer that a port without flows returns
    if s.alloc.flows port = [] then .next ⟨s.alloc, portpq, s.round + 1⟩
    else
      let flows := shuffle (draw s.round) (s.alloc.flows port)
      match assignFlows ports rate flows s.alloc with
      | none => .done none
      | some alloc =>
        if alloc.flows port = [] ∧ 99 / 100 ≤ alloc.used port ∧ alloc.used port ≤ 101 / 100 then
          let updatedPorts := (flows.flatMap ports).dedup
          .next ⟨alloc, updatedPorts.foldl (fun q up => dictSet q up (alloc.flowRate up)) portpq,
            s.round + 1⟩
        else .done none

/-- The rates of all flows; `none` where an assertion fails or the passes are used up. -/
def computeFlowThroughputs (fuel : ℕ) (crossing : Crossing P F)
    (popSmallest : ℕ → List (P × ℚ) → P) (draw : ℕ → ℕ) (allPorts : List P) :
    Option (Alloc P F) :=
  let alloc : Alloc P F := ⟨crossing.flows, fun _ => 0, []⟩
  let portpq := allPorts.foldl (fun q port => dictSet q port (alloc.flowRate port)) []
  (Loop.run (fillStep crossing.ports popSmallest draw) fuel ⟨alloc, portpq, 0⟩).join

/-- The contract of the queue: a key of smallest value is removed. -/
def PopsSmallest (popSmallest : ℕ → List (P × ℚ) → P) : Prop :=
  ∀ n q, q ≠ [] → ∃ value, (popSmallest n q, value) ∈ q ∧ ∀ x ∈ q, value ≤ x.2

/-! ### What crosses what -/

/-- What `initPorts` sets up: ports and flows know of each other, and exactly the routed flows
cross ports. -/
structure Crosses (allPorts : List P) (routed : F → Prop) (s : Crossing P F) : Prop where
  mem_iff : ∀ port flow, flow ∈ s.flows port ↔ port ∈ s.ports flow
  nodup_flows : ∀ port, (s.flows port).Nodup
  nodup_ports : ∀ flow, (s.ports flow).Nodup
  mem_allPorts : ∀ flow, ∀ port ∈ s.ports flow, port ∈ allPorts
  routed_iff : ∀ flow, s.ports flow ≠ [] ↔ routed flow

section Init

variable {G : PortGraph V E} {info : F → FlowInfo V H} {portDict : List (PortName V H)}
  {s s' : Crossing (PortName V H) F} {routed : F → Prop}

lemma Crosses.add {allPorts : List P} {s : Crossing P F} (h : Crosses allPorts routed s)
    {flow : F} {port : P} (hport : port ∈ allPorts) :
    Crosses allPorts (fun f => routed f ∨ f = flow) (s.add flow port) where
  mem_iff p f := by
    by_cases hp : p = port <;> by_cases hf : f = flow
    · simp [Crossing.add, hp, hf]
    · simp [Crossing.add, hp, hf, h.mem_iff]
    · simp [Crossing.add, hp, hf, h.mem_iff]
    · simp [Crossing.add, hp, hf, h.mem_iff]
  nodup_flows p := by
    by_cases hp : p = port
    · simpa [Crossing.add, hp] using (h.nodup_flows port).insert
    · simpa [Crossing.add, hp] using h.nodup_flows p
  nodup_ports f := by
    by_cases hf : f = flow
    · simpa [Crossing.add, hf] using (h.nodup_ports flow).insert
    · simpa [Crossing.add, hf] using h.nodup_ports f
  mem_allPorts f p hp := by
    by_cases hf : f = flow
    · simp only [Crossing.add, hf, Function.update_self, List.mem_insert_iff] at hp
      rcases hp with rfl | hp
      · exact hport
      · exact h.mem_allPorts flow p hp
    · simp only [Crossing.add, Function.update_of_ne hf] at hp
      exact h.mem_allPorts f p hp
  routed_iff f := by
    by_cases hf : f = flow
    · simp only [Crossing.add, hf, Function.update_self, or_true, iff_true]
      exact List.ne_nil_of_mem (List.mem_insert_self ..)
    · simpa [Crossing.add, hf] using h.routed_iff f

lemma Crosses.foldl_add {allPorts : List P} {s : Crossing P F} (h : Crosses allPorts routed s)
    {flow : F} {crossed : List P} (hports : ∀ port ∈ crossed, port ∈ allPorts) :
    Crosses allPorts (fun f => routed f ∨ f = flow ∧ crossed ≠ [])
      (crossed.foldl (fun s port => s.add flow port) s) := by
  induction crossed generalizing s routed with
  | nil => simpa using h
  | cons port crossed ih =>
    obtain ⟨hport, hports⟩ := List.forall_mem_cons.mp hports
    have hadd : Crosses allPorts (fun f => routed f ∨ f = flow) (s.add flow port) := h.add hport
    have := ih hadd hports
    rw [List.foldl_cons]
    convert this using 2
    simp only [ne_eq, reduceCtorEq, not_false_eq_true, and_true, or_assoc]
    tauto

/-- The flows that cross ports are those with a path. -/
theorem crosses_initPorts {flows : List F} (h : Crosses portDict routed s)
    (hinit : initPorts G info portDict flows s = some s') :
    Crosses portDict (fun f => routed f ∨ f ∈ flows ∧ (info f).path ≠ none) s' := by
  induction flows generalizing s routed with
  | nil =>
    obtain rfl := Option.some.inj hinit
    simpa using h
  | cons flow flows ih =>
    rw [initPorts] at hinit
    split at hinit
    · rename_i hnone
      have := ih h hinit
      convert this using 2
      simp only [List.mem_cons]
      constructor
      · rintro (hf | ⟨rfl | hf, hpath⟩)
        · exact .inl hf
        · exact absurd hnone hpath
        · exact .inr ⟨hf, hpath⟩
      · exact fun hf => hf.imp_right fun hf => ⟨.inr hf.1, hf.2⟩
    · rename_i path hpath
      obtain ⟨ports, _, hinit⟩ := Option.bind_eq_some_iff.mp hinit
      obtain ⟨_, hports, hinit⟩ := Option.bind_eq_some_iff.mp hinit
      rw [Option.guard_eq_some'] at hports
      have := ih (h.foldl_add hports) hinit
      convert this using 2
      simp only [List.mem_cons, ne_eq, reduceCtorEq, not_false_eq_true, and_true]
      constructor
      · rintro (hf | ⟨rfl | hf, hpath⟩)
        · exact .inl (.inl hf)
        · exact .inl (.inr rfl)
        · exact .inr ⟨hf, hpath⟩
      · rintro ((hf | rfl) | ⟨hf, hpath⟩)
        · exact .inl hf
        · exact .inr ⟨.inl rfl, by rw [hpath]; exact Option.some_ne_none _⟩
        · exact .inr ⟨.inr hf, hpath⟩

end Init

end ResSim
