import ResSim.Throughput.Fairness
import ResSim.Throughput.PriorityDict

/-!
# Filling ports from a `priority_dict`

The loop of `compute_flow_throughputs` over the queue that it uses. The queue answers as a plain
dictionary does, so the loop ends with max-min fair rates. There is one such rate for each flow,
so ports that compare differently and sets that are iterated differently change nothing.
-/

namespace ResSim

variable {F P : Type} [DecidableEq F] [DecidableEq P]

/-! ### The loop -/

/-- State of the loop. Ports of equal share are compared as objects, by their ranks. -/
structure QueueFilling (P F : Type) where
  alloc : Alloc P F
  portpq : PriorityDict P ℚ
  round : ℕ

/-- One port, as in `fillStep`. `IndexError` would be raised by a queue that has no live entry. -/
def queueStep (rank : P → ℕ) (ports : F → List P) (draw : ℕ → ℕ) (s : QueueFilling P F) :
    Step (QueueFilling P F) (Option (Alloc P F)) :=
  if s.portpq.entries = [] then .done (some s.alloc)
  else
    match s.portpq.popSmallest with
    | (none, _) => .done none
    | (some port, portpq) =>
      let rate := s.alloc.flowRate port
      if s.alloc.flows port = [] then .next ⟨s.alloc, portpq, s.round + 1⟩
      else
        let flows := shuffle (draw s.round) (s.alloc.flows port)
        match assignFlows ports rate flows s.alloc with
        | none => .done none
        | some alloc =>
          if alloc.flows port = [] ∧ 99 / 100 ≤ alloc.used port ∧ alloc.used port ≤ 101 / 100 then
            let updatedPorts := (flows.flatMap ports).dedup
            .next ⟨alloc,
              updatedPorts.foldl (fun q up => q.setItem rank up (alloc.flowRate up)) portpq,
              s.round + 1⟩
          else .done none

/-- The rates of all flows; `none` where an exception is raised or the passes are used up. -/
def queueFlowThroughputs (rank : P → ℕ) (fuel : ℕ) (crossing : Crossing P F) (draw : ℕ → ℕ)
    (allPorts : List P) : Option (Alloc P F) :=
  let alloc : Alloc P F := ⟨crossing.flows, fun _ => 0, []⟩
  let portpq := allPorts.foldl (fun q port => q.setItem rank port (alloc.flowRate port))
    (PriorityDict.init rank [])
  (Loop.run (queueStep rank crossing.ports draw) fuel ⟨alloc, portpq, 0⟩).join

/-! ### The plain dictionary -/

variable {rank : P → ℕ} {ports : F → List P}

/-- The first port of the sorted entries. -/
def popSorted (rank : P → ℕ) (p₀ : P) (_ : ℕ) (q : List (P × ℚ)) : P :=
  ((sortEntries rank q).head?.map Prod.fst).getD p₀

omit [DecidableEq P] in
lemma popsSmallest_popSorted (rank : P → ℕ) (p₀ : P) : PopsSmallest (popSorted rank p₀) := by
  intro n q hq
  have hperm : (sortEntries rank q).Perm q := sortEntries_perm q
  have hsorted : (sortEntries rank q).Pairwise _ := sortEntries_pairwise q
  cases hsort : sortEntries rank q with
  | nil =>
    rw [hsort] at hperm
    exact absurd hperm.nil_eq.symm hq
  | cons e rest =>
    rw [hsort] at hperm hsorted
    refine ⟨e.2, ?_, fun x hx => ?_⟩
    · rw [popSorted, hsort]
      exact hperm.mem_iff.mp List.mem_cons_self
    · rcases List.mem_cons.mp (hperm.mem_iff.mpr hx) with rfl | hx
      · exact le_rfl
      · rcases (List.pairwise_cons.mp hsorted).1 x hx with hlt | ⟨heq, -⟩
        · exact hlt.le
        · exact heq.le

lemma foldl_setItem (value : P → ℚ) (updated : List P) {q : PriorityDict P ℚ}
    (h : PriorityDict.Valid rank q) :
    PriorityDict.Valid rank (updated.foldl (fun q up => q.setItem rank up (value up)) q) ∧
      (updated.foldl (fun q up => q.setItem rank up (value up)) q).entries =
        updated.foldl (fun q up => dictSet q up (value up)) q.entries := by
  induction updated generalizing q with
  | nil => exact ⟨h, rfl⟩
  | cons up updated ih =>
    have hitem : PriorityDict.Valid rank (q.setItem rank up (value up)) := h.setItem
    obtain ⟨hvalid, hentries⟩ := ih hitem
    rw [PriorityDict.entries_setItem] at hentries
    exact ⟨hvalid, hentries⟩

/-- The same rates and the same entries in both queues. -/
structure SameFilling (rank : P → ℕ) (s : Filling P F) (t : QueueFilling P F) : Prop where
  alloc : t.alloc = s.alloc
  entries : t.portpq.entries = s.portpq
  round : t.round = s.round
  valid : PriorityDict.Valid rank t.portpq

lemma lockstep_queueStep (hrank : Function.Injective rank) (p₀ : P) (ports : F → List P)
    (draw : ℕ → ℕ) :
    Loop.Lockstep (fillStep ports (popSorted rank p₀) draw) (queueStep rank ports draw)
      (SameFilling rank) id := by
  rintro ⟨_, _, _⟩ ⟨alloc, portpq, n⟩ ⟨rfl, rfl, rfl, hvalid⟩
  dsimp only at hvalid
  by_cases hq : portpq.entries = []
  · exact .inl ⟨_, if_pos hq, if_pos hq⟩
  · rw [fillStep, queueStep]
    dsimp only
    rw [if_neg hq, if_neg hq]
    obtain ⟨hvalid', ⟨hempty, -⟩ | ⟨e, hkey, hentries, -, hsort⟩⟩ := hvalid.popSmallest hrank
    · exact absurd hempty hq
    · have hpop : popSorted rank p₀ n portpq.entries = e.1 := by
        rw [popSorted, hsort]
        rfl
      rw [hpop, ← Prod.mk.eta (p := portpq.popSmallest), hkey]
      dsimp only
      by_cases hnil : alloc.flows e.1 = []
      · rw [if_pos hnil, if_pos hnil]
        exact .inr ⟨_, _, rfl, rfl, rfl, hentries, rfl, hvalid'⟩
      · rw [if_neg hnil, if_neg hnil]
        cases assignFlows ports (alloc.flowRate e.1) (shuffle (draw n) (alloc.flows e.1)) alloc with
        | none => exact .inl ⟨_, rfl, rfl⟩
        | some alloc' =>
          dsimp only
          split
          · refine .inr ⟨_, _, rfl, rfl, rfl, ?_, rfl, (foldl_setItem _ _ hvalid').1⟩
            rw [(foldl_setItem _ _ hvalid').2, hentries]
          · exact .inl ⟨_, rfl, rfl⟩

/-- The loop gives the same rates over both queues. -/
lemma queueFlowThroughputs_eq (hrank : Function.Injective rank) (p₀ : P) (fuel : ℕ)
    (crossing : Crossing P F) (draw : ℕ → ℕ) (allPorts : List P) :
    queueFlowThroughputs rank fuel crossing draw allPorts =
      computeFlowThroughputs fuel crossing (popSorted rank p₀) draw allPorts := by
  let alloc : Alloc P F := ⟨crossing.flows, fun _ => 0, []⟩
  obtain ⟨hvalid, hentries⟩ :=
    foldl_setItem alloc.flowRate allPorts (PriorityDict.valid_init [])
  have hsame : SameFilling rank
      ⟨alloc, allPorts.foldl (fun q port => dictSet q port (alloc.flowRate port)) [], 0⟩
      ⟨alloc, allPorts.foldl (fun q port => q.setItem rank port (alloc.flowRate port))
        (PriorityDict.init rank []), 0⟩ := ⟨rfl, hentries, rfl, hvalid⟩
  have hrun := (lockstep_queueStep hrank p₀ crossing.ports draw).run_eq hsame fuel
  rw [Option.map_id, id] at hrun
  exact congrArg Option.join hrun

/-! ### The rates -/

omit [DecidableEq F] [DecidableEq P] in
/-- Without a port no flow is routed. -/
lemma Crosses.eq_nil {crossing : Crossing P F} {all : List F} (h : Crosses [] (· ∈ all) crossing) :
    all = [] := by
  rw [List.eq_nil_iff_forall_not_mem]
  intro f hf
  obtain ⟨p, hp⟩ := List.exists_mem_of_ne_nil _ ((h.routed_iff f).mpr hf)
  exact List.not_mem_nil (h.mem_allPorts f p hp)

/-- There are fair rates of the routed flows. -/
lemma Crosses.exists_fair {crossing : Crossing P F} {allPorts : List P} {all : List F}
    (h : Crosses allPorts (· ∈ all) crossing) :
    ∃ alloc level, Fair crossing.ports alloc level ∧
      (alloc.rates.map Prod.fst).toFinset = all.toFinset := by
  cases allPorts with
  | nil =>
    obtain ⟨level, hfair⟩ := h.fillInv.fair
    exact ⟨_, level, hfair, by rw [h.eq_nil]; rfl⟩
  | cons p₀ allPorts =>
    obtain ⟨_, alloc, level, -, hfair, hset⟩ :=
      h.computeFlowThroughputs (popsSmallest_popSorted (fun _ => 0) p₀) id
    exact ⟨alloc, level, hfair, hset⟩

/-- The loop ends with fair rates of the routed flows. -/
lemma Crosses.queueFlowThroughputs {crossing : Crossing P F} {allPorts : List P} {all : List F}
    (h : Crosses allPorts (· ∈ all) crossing) (hrank : Function.Injective rank) (draw : ℕ → ℕ) :
    ∃ fuel alloc level,
      queueFlowThroughputs rank fuel crossing draw allPorts = some alloc ∧
      Fair crossing.ports alloc level ∧ (alloc.rates.map Prod.fst).toFinset = all.toFinset := by
  cases allPorts with
  | nil =>
    obtain ⟨level, hfair⟩ := h.fillInv.fair
    exact ⟨1, _, level, rfl, hfair, by rw [h.eq_nil]; rfl⟩
  | cons p₀ allPorts =>
    obtain ⟨fuel, alloc, level, hrun, hfair, hset⟩ :=
      h.computeFlowThroughputs (popsSmallest_popSorted rank p₀) draw
    exact ⟨fuel, alloc, level, (queueFlowThroughputs_eq hrank p₀ ..).trans hrun, hfair, hset⟩

lemma Fair.isMaxMinFair {s : Alloc P F} {level : ℚ} (h : Fair ports s level) :
    IsMaxMinFair ports (s.rates.map Prod.fst).toFinset 1 s.rateOf :=
  isMaxMinFair_of_bottlenecks (fun p => (h.load_eq p).trans_le (h.used_le p))
    fun _ hf => h.isBottleneck (List.mem_toFinset.mp hf)

section Final

variable {V H E : Type} [DecidableEq V] [DecidableEq H] {G : PortGraph V E}
  {info : F → FlowInfo V H} {portDict : List (PortName V H)} {flows : List F}
  {crossing : Crossing (PortName V H) F}

/-- After `init_ports` exactly the flows with a path cross ports. -/
lemma crosses_of_initPorts
    (hinit : initPorts G info portDict flows ⟨fun _ => [], fun _ => []⟩ = some crossing) :
    Crosses portDict (· ∈ flows.filter (fun f => (info f).path ≠ none)) crossing := by
  have hempty : Crosses portDict (fun _ => False)
      (⟨fun _ => [], fun _ => []⟩ : Crossing (PortName V H) F) :=
    ⟨by simp, by simp, by simp, by simp, by simp⟩
  have := crosses_initPorts hempty hinit
  convert this using 2
  simp

/-- There are rates, max-min fair ones, that come out of every run: however ports are compared
and sets are iterated, the queue is never asked for a port that it has not, no assertion fails,
and the routed flows, no others, get these rates, once each. -/
theorem queueFlowThroughputs_unique
    (hinit : initPorts G info portDict flows ⟨fun _ => [], fun _ => []⟩ = some crossing) :
    ∃ fairRate : F → ℚ,
      IsMaxMinFair crossing.ports (flows.filter (fun f => (info f).path ≠ none)).toFinset 1
        fairRate ∧
      ∀ rank : PortName V H → ℕ, Function.Injective rank → ∀ draw, ∃ fuel alloc,
        queueFlowThroughputs rank fuel crossing draw portDict = some alloc ∧
        (alloc.rates.map Prod.fst).Nodup ∧
        (∀ f, f ∈ alloc.rates.map Prod.fst ↔ f ∈ flows ∧ (info f).path ≠ none) ∧
        ∀ x ∈ alloc.rates, x.2 = fairRate x.1 := by
  let routed := flows.filter (fun f => (info f).path ≠ none)
  have hcrosses : Crosses portDict (· ∈ routed) crossing := crosses_of_initPorts hinit
  obtain ⟨alloc₀, level₀, hfair₀, hset₀⟩ := hcrosses.exists_fair
  refine ⟨alloc₀.rateOf, hset₀ ▸ hfair₀.isMaxMinFair, fun rank hrank draw => ?_⟩
  obtain ⟨fuel, alloc, level, hrun, hfair, hset⟩ := hcrosses.queueFlowThroughputs hrank draw
  have hmem : ∀ f, f ∈ alloc.rates.map Prod.fst ↔ f ∈ routed := fun f => by
    rw [← List.mem_toFinset, hset, List.mem_toFinset]
  refine ⟨fuel, alloc, hrun, hfair.rates_nodup, fun f => ?_, fun x hx => ?_⟩
  · rw [hmem]
    simp [routed]
  · -- both are max-min fair, and there is one max-min fair rate
    have heq := (hset ▸ hfair.isMaxMinFair).eq (hset₀ ▸ hfair₀.isMaxMinFair) x.1
      (List.mem_toFinset.mpr ((hmem x.1).mp (List.mem_map_of_mem hx)))
    rw [← heq, Alloc.rateOf_eq hfair.rates_nodup hx]

end Final

/-- Host ports have the even ranks. -/
def linkRank : PortName (Fin 2) (Fin 3) → ℕ
  | .host h portno => 2 * (3 * portno + h)
  | .switch v portno => 2 * (2 * portno + v) + 1

lemma linkRank_injective : Function.Injective linkRank := by
  rintro (⟨h, n⟩ | ⟨v, n⟩) (⟨h', n'⟩ | ⟨v', n'⟩) heq <;> simp only [linkRank] at heq
  · rw [PortName.host.injEq]
    omega
  · omega
  · omega
  · rw [PortName.switch.injEq]
    omega

theorem queueFlowThroughputs_unique_link :
    ∃ crossing fuel alloc, initPorts doubleLink linkFlow linkPorts [0, 1, 2]
        ⟨fun _ => [], fun _ => []⟩ = some crossing ∧
      queueFlowThroughputs linkRank fuel crossing (fun _ => 0) linkPorts = some alloc ∧
      ∀ f, f ∈ alloc.rates.map Prod.fst ↔ f ∈ [0, 1, 2] ∧ (linkFlow f).path ≠ none := by
  have hinit : (initPorts doubleLink linkFlow linkPorts [0, 1, 2]
      ⟨fun _ => [], fun _ => []⟩).isSome := by decide
  obtain ⟨crossing, hinit⟩ := Option.isSome_iff_exists.mp hinit
  obtain ⟨fairRate, -, hruns⟩ := queueFlowThroughputs_unique hinit
  obtain ⟨fuel, alloc, hrun, -, hrouted, -⟩ := hruns linkRank linkRank_injective (fun _ => 0)
  exact ⟨crossing, fuel, alloc, hinit, hrun, hrouted⟩

end ResSim
