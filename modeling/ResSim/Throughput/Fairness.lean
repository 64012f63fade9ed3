import Mathlib.Algebra.Order.Ring.Rat
import Mathlib.Algebra.BigOperators.Fin
import Mathlib.Data.Prod.Lex
import Mathlib.Tactic.FieldSimp
import Mathlib.Tactic.Linarith
import ResSim.Lib.MaxMin
import ResSim.Throughput.Flows

/-!
# The rates are max-min fair

The smallest fair share never decreases: taking the flows of a port off the other ports gives
each of them at most its own fair share. So a port that is filled has no flow with a larger
rate than the one it is filled at, and stays as it is.
-/

namespace ResSim

variable {F P : Type} [DecidableEq F] [DecidableEq P] {ports : F → List P} {s s' : Alloc P F}
  {rate : ℚ} {flow : F} {fs : List F}

/-! ### One round of assignments -/

lemma assignPorts_eq {crossed : List P} (hn : crossed.Nodup)
    (h : ∀ p ∈ crossed, s.used p + rate ≤ 101 / 100 ∧ flow ∈ s.flows p) :
    assignPorts rate flow crossed s = some {
      flows := fun p => if p ∈ crossed then (s.flows p).erase flow else s.flows p
      used := fun p => if p ∈ crossed then s.used p + rate else s.used p
      rates := s.rates } := by
  induction crossed generalizing s with
  | nil => simp [assignPorts]
  | cons p crossed ih =>
    obtain ⟨hp, hn⟩ := List.nodup_cons.mp hn
    obtain ⟨⟨hle, hin⟩, h⟩ := List.forall_mem_cons.mp h
    have hne : ∀ q ∈ crossed, q ≠ p := fun q hq heq => hp (heq ▸ hq)
    rw [assignPorts]
    simp only [guard, if_pos hle, if_pos hin]
    refine (ih hn fun q hq => ?_).trans ?_
    · simpa [Function.update_of_ne (hne q hq)] using h q hq
    · congr 1
      congr 1
      all_goals
        funext q
        by_cases hq : q = p
        · simp [hq, hp]
        · simp [hq]

/-- The flows of `fs` that cross a port. -/
def crossingOn (ports : F → List P) (fs : List F) (p : P) : List F :=
  fs.filter (fun f => p ∈ ports f)

lemma assignFlows_eq (hports : ∀ f, (ports f).Nodup) (hflows : ∀ p, (s.flows p).Nodup)
    (hn : fs.Nodup) (hin : ∀ f ∈ fs, ∀ p ∈ ports f, f ∈ s.flows p) (hrate : 0 ≤ rate)
    (hle : ∀ p, s.used p + (crossingOn ports fs p).length * rate ≤ 1) :
    assignFlows ports rate fs s = some {
      flows := fun p => (s.flows p).filter (fun f => ¬ (f ∈ fs ∧ p ∈ ports f))
      used := fun p => s.used p + (crossingOn ports fs p).length * rate
      rates := s.rates ++ fs.map (fun f => (f, rate)) } := by
  induction fs generalizing s with
  | nil => simp [assignFlows, crossingOn]
  | cons f fs ih =>
    obtain ⟨hf, hn⟩ := List.nodup_cons.mp hn
    obtain ⟨hinf, hin⟩ := List.forall_mem_cons.mp hin
    have hlen : ∀ p, ((crossingOn ports (f :: fs) p).length : ℚ) =
        (if p ∈ ports f then 1 else 0) + (crossingOn ports fs p).length := by
      intro p
      by_cases hp : p ∈ ports f
      · simp [crossingOn, hp, add_comm]
      · simp [crossingOn, hp]
    have hnonneg : ∀ p, 0 ≤ ((crossingOn ports fs p).length : ℚ) * rate :=
      fun p => mul_nonneg (Nat.cast_nonneg _) hrate
    have hone : ∀ p ∈ ports f, s.used p + rate ≤ 101 / 100 ∧ f ∈ s.flows p := by
      intro p hp
      have := hle p
      have := hnonneg p
      rw [hlen, if_pos hp] at *
      exact ⟨by linarith, hinf p hp⟩
    have hstep : assignPorts rate f (ports f) { s with rates := s.rates ++ [(f, rate)] } = _ :=
      assignPorts_eq (hports f) hone
    rw [assignFlows, hstep, Option.bind_eq_bind, Option.bind_some]
    refine (ih ?_ hn ?_ ?_).trans ?_
    · intro p
      dsimp only
      split
      · exact (hflows p).erase f
      · exact hflows p
    · intro g hg p hp
      have hgf : g ≠ f := fun heq => hf (heq ▸ hg)
      dsimp only
      split
      · exact (List.mem_erase_of_ne hgf).mpr (hin g hg p hp)
      · exact hin g hg p hp
    · intro p
      have := hle p
      rw [hlen] at this
      dsimp only
      split
      · rw [if_pos ‹_›] at this
        linarith
      · rw [if_neg ‹_›] at this
        linarith
    · simp only [Option.some.injEq, Alloc.mk.injEq]
      refine ⟨?_, ?_, by simp⟩
      · funext p
        by_cases hp : p ∈ ports f
        · rw [if_pos hp, (hflows p).erase_eq_filter, List.filter_filter]
          apply List.filter_congr
          intro g _
          by_cases hgf : g = f
          · simp [hgf, hp]
          · simp [hgf]
        · rw [if_neg hp]
          apply List.filter_congr
          intro g _
          by_cases hgf : g = f
          · simp [hgf, hp, hf]
          · simp [hgf]
      · funext p
        rw [hlen]
        split <;> ring

/-! ### Fair shares -/

omit [DecidableEq F] [DecidableEq P] in
lemma Alloc.le_flowRate_iff {p : P} (h : s.flows p ≠ []) {r : ℚ} :
    r ≤ s.flowRate p ↔ (s.flows p).length * r ≤ 1 - s.used p := by
  have hpos := List.length_pos_iff.mpr h
  rw [Alloc.flowRate, if_pos hpos, le_div_iff₀ (by exact_mod_cast hpos), mul_comm]

omit [DecidableEq F] [DecidableEq P] in
lemma Alloc.length_mul_flowRate {p : P} (h : s.flows p ≠ []) :
    (s.flows p).length * s.flowRate p = 1 - s.used p := by
  have hpos := List.length_pos_iff.mpr h
  have hne : ((s.flows p).length : ℚ) ≠ 0 := by exact_mod_cast hpos.ne'
  rw [Alloc.flowRate, if_pos hpos]
  field_simp

omit [DecidableEq F] [DecidableEq P] in
lemma Alloc.flowRate_nonneg {p : P} (h : s.used p ≤ 1) : 0 ≤ s.flowRate p := by
  rw [Alloc.flowRate]
  split
  · exact div_nonneg (by linarith) (Nat.cast_nonneg _)
  · exact le_rfl

/-- The flows of a port that are taken off it, and those that stay. -/
lemma length_crossingOn_add {p : P} (hflows : (s.flows p).Nodup) (hn : fs.Nodup)
    (hin : ∀ f ∈ fs, p ∈ ports f → f ∈ s.flows p) :
    (crossingOn ports fs p).length +
      ((s.flows p).filter (fun f => ¬ (f ∈ fs ∧ p ∈ ports f))).length = (s.flows p).length := by
  have hperm : (crossingOn ports fs p).Perm ((s.flows p).filter (fun f => f ∈ fs ∧ p ∈ ports f)) := by
    refine (List.perm_ext_iff_of_nodup (hn.filter _) (hflows.filter _)).mpr fun f => ?_
    simp only [List.mem_filter, decide_eq_true_iff]
    exact ⟨fun h => ⟨hin f h.1 h.2, h⟩, fun h => h.2⟩
  rw [hperm.length_eq, List.length_eq_length_filter_add (l := s.flows p)
    (fun f => decide (f ∈ fs ∧ p ∈ ports f))]
  simp only [decide_not]

/-! ### The invariant -/

/-- What holds of the rates given so far: each is no more than `level`, which is no more than
any fair share that is left, and each flow with a rate has a bottleneck. -/
structure Fair (ports : F → List P) (s : Alloc P F) (level : ℚ) : Prop where
  mem_iff : ∀ p f, f ∈ s.flows p ↔ p ∈ ports f ∧ f ∉ s.rates.map Prod.fst
  nodup : ∀ p, (s.flows p).Nodup
  rates_nodup : (s.rates.map Prod.fst).Nodup
  crosses : ∀ x ∈ s.rates, ports x.1 ≠ []
  used_eq : ∀ p, s.used p = ((s.rates.filter (fun x => p ∈ ports x.1)).map Prod.snd).sum
  used_le : ∀ p, s.used p ≤ 1
  level_le : ∀ p, s.flows p ≠ [] → level ≤ s.flowRate p
  rates_le : ∀ x ∈ s.rates, x.2 ≤ level
  bottleneck : ∀ x ∈ s.rates, ∃ p ∈ ports x.1, s.flows p = [] ∧ s.used p = 1 ∧
    ∀ y ∈ s.rates, p ∈ ports y.1 → y.2 ≤ x.2

section Round

variable {level : ℚ} {port : P}

omit [DecidableEq F] in
lemma crossingOn_self (h : Fair ports s level)
    (hperm : fs.Perm (s.flows port)) : crossingOn ports fs port = fs := by
  apply List.filter_eq_self.mpr
  intro f hf
  exact decide_eq_true ((h.mem_iff port f).mp (hperm.mem_iff.mp hf)).1

omit [DecidableEq F] in
lemma Fair.fresh (h : Fair ports s level) (hperm : fs.Perm (s.flows port)) {f : F} (hf : f ∈ fs) :
    port ∈ ports f ∧ f ∉ s.rates.map Prod.fst :=
  (h.mem_iff port f).mp (hperm.mem_iff.mp hf)

omit [DecidableEq F] in
lemma Fair.mem_flows (h : Fair ports s level) (hperm : fs.Perm (s.flows port)) {f : F}
    (hf : f ∈ fs) {p : P} (hp : p ∈ ports f) : f ∈ s.flows p :=
  (h.mem_iff p f).mpr ⟨hp, (h.fresh hperm hf).2⟩

lemma Fair.length_flows (h : Fair ports s level) (hperm : fs.Perm (s.flows port)) (p : P) :
    (crossingOn ports fs p).length +
      ((s.flows p).filter (fun f => ¬ (f ∈ fs ∧ p ∈ ports f))).length = (s.flows p).length :=
  length_crossingOn_add (h.nodup p) (hperm.nodup_iff.mpr (h.nodup port))
    (fun _ hf hp => h.mem_flows hperm hf hp)

omit [DecidableEq F] in
lemma Fair.crossingOn_eq_nil (h : Fair ports s level) (hperm : fs.Perm (s.flows port)) {p : P}
    (hnil : s.flows p = []) : crossingOn ports fs p = [] := by
  apply List.filter_eq_nil_iff.mpr
  intro f hf hp
  have := h.mem_flows hperm hf (of_decide_eq_true hp)
  rw [hnil] at this
  cases this

/-- What the port of smallest share takes from another port is within its fair share. -/
lemma Fair.used_add_le (h : Fair ports s level)
    (hmin : ∀ p, s.flows p ≠ [] → s.flowRate port ≤ s.flowRate p)
    (hperm : fs.Perm (s.flows port)) (p : P) :
    s.used p + (crossingOn ports fs p).length * s.flowRate port ≤ 1 := by
  by_cases hp : s.flows p = []
  · rw [h.crossingOn_eq_nil hperm hp]
    simpa using h.used_le p
  · have hshare := (Alloc.le_flowRate_iff hp).mp (hmin p hp)
    have hlen : ((crossingOn ports fs p).length : ℚ) ≤ (s.flows p).length := by
      have := h.length_flows hperm p
      exact_mod_cast (by omega : (crossingOn ports fs p).length ≤ (s.flows p).length)
    have := mul_le_mul_of_nonneg_right hlen (Alloc.flowRate_nonneg (h.used_le port))
    linarith

/-- The flows of `fs` have got the rate. -/
def Alloc.given (ports : F → List P) (s : Alloc P F) (fs : List F) (rate : ℚ) : Alloc P F where
  flows p := (s.flows p).filter (fun f => ¬ (f ∈ fs ∧ p ∈ ports f))
  used p := s.used p + (crossingOn ports fs p).length * rate
  rates := s.rates ++ fs.map (fun f => (f, rate))

lemma Alloc.given_flows_ne_nil {rate : ℚ} {p : P} (h : (s.given ports fs rate).flows p ≠ []) :
    s.flows p ≠ [] := by
  intro hnil
  apply h
  dsimp only [Alloc.given]
  rw [hnil, List.filter_nil]

omit [DecidableEq F] [DecidableEq P] in
lemma fst_given (rates : List (F × ℚ)) (fs : List F) (rate : ℚ) :
    (rates ++ fs.map (fun f => (f, rate))).map Prod.fst = rates.map Prod.fst ++ fs := by
  simp [Function.comp_def]

/-- The port of smallest share is used up. -/
lemma Fair.given_full (h : Fair ports s level) (hne : s.flows port ≠ [])
    (hperm : fs.Perm (s.flows port)) :
    (s.given ports fs (s.flowRate port)).flows port = [] ∧
      (s.given ports fs (s.flowRate port)).used port = 1 := by
  constructor
  · apply List.filter_eq_nil_iff.mpr
    intro f hf
    rw [decide_eq_true_iff, not_not]
    exact ⟨hperm.mem_iff.mpr hf, ((h.mem_iff port f).mp hf).1⟩
  · dsimp only [Alloc.given]
    rw [crossingOn_self h hperm, hperm.length_eq, Alloc.length_mul_flowRate hne]
    ring

/-- The share of a port that still has flows does not fall below the rate. -/
lemma Fair.given_level_le (h : Fair ports s level)
    (hmin : ∀ p, s.flows p ≠ [] → s.flowRate port ≤ s.flowRate p)
    (hperm : fs.Perm (s.flows port)) {p : P}
    (hp : (s.given ports fs (s.flowRate port)).flows p ≠ []) :
    s.flowRate port ≤ (s.given ports fs (s.flowRate port)).flowRate p := by
  have hp' := Alloc.given_flows_ne_nil hp
  rw [Alloc.le_flowRate_iff hp]
  have hshare := (Alloc.le_flowRate_iff hp').mp (hmin p hp')
  have hlen : ((s.flows p).length : ℚ) = (crossingOn ports fs p).length +
      ((s.flows p).filter (fun f => ¬ (f ∈ fs ∧ p ∈ ports f))).length := by
    exact_mod_cast (h.length_flows hperm p).symm
  rw [hlen] at hshare
  dsimp only [Alloc.given]
  linarith

/-- A port that was full stays a bottleneck, and the port of smallest share becomes one. -/
lemma Fair.given_bottleneck (h : Fair ports s level) (hne : s.flows port ≠ [])
    (hperm : fs.Perm (s.flows port)) :
    ∀ x ∈ (s.given ports fs (s.flowRate port)).rates, ∃ p ∈ ports x.1,
      (s.given ports fs (s.flowRate port)).flows p = [] ∧
      (s.given ports fs (s.flowRate port)).used p = 1 ∧
      ∀ y ∈ (s.given ports fs (s.flowRate port)).rates, p ∈ ports y.1 → y.2 ≤ x.2 := by
  have hlevel : level ≤ s.flowRate port := h.level_le port hne
  dsimp only [Alloc.given]
  rw [List.forall_mem_append]
  constructor
  · -- a port that was full has no flows, so it does not change
    intro x hx
    obtain ⟨p, hp, hnil, hone, hmax⟩ := h.bottleneck x hx
    have hzero := h.crossingOn_eq_nil hperm hnil
    refine ⟨p, hp, by simp [hnil], by simp [hzero, hone], ?_⟩
    rw [List.forall_mem_append]
    refine ⟨hmax, ?_⟩
    simp only [List.forall_mem_map]
    exact fun f hf hpf =>
      absurd (decide_eq_true hpf) (List.filter_eq_nil_iff.mp hzero f hf)
  · simp only [List.forall_mem_map]
    intro f hf
    obtain ⟨hempty, hfull⟩ := h.given_full hne hperm
    refine ⟨port, (h.fresh hperm hf).1, hempty, hfull, ?_⟩
    rw [List.forall_mem_append]
    refine ⟨fun y hy _ => (h.rates_le y hy).trans hlevel, ?_⟩
    simp only [List.forall_mem_map]
    exact fun _ _ _ => le_rfl

/-- The invariant after a port of smallest share. -/
lemma Fair.given (h : Fair ports s level) (hne : s.flows port ≠ [])
    (hmin : ∀ p, s.flows p ≠ [] → s.flowRate port ≤ s.flowRate p)
    (hperm : fs.Perm (s.flows port)) :
    Fair ports (s.given ports fs (s.flowRate port)) (s.flowRate port) := by
  constructor
  case mem_iff =>
    intro p f
    dsimp only [Alloc.given]
    rw [fst_given, List.mem_filter, h.mem_iff, decide_eq_true_iff, List.mem_append]
    tauto
  case nodup => exact fun p => (h.nodup p).filter _
  case rates_nodup =>
    dsimp only [Alloc.given]
    rw [fst_given, List.nodup_append]
    refine ⟨h.rates_nodup, hperm.nodup_iff.mpr (h.nodup port), ?_⟩
    rintro f hf g hg rfl
    exact (h.fresh hperm hg).2 hf
  case crosses =>
    dsimp only [Alloc.given]
    rw [List.forall_mem_append]
    refine ⟨h.crosses, ?_⟩
    simp only [List.forall_mem_map]
    exact fun f hf => List.ne_nil_of_mem (h.fresh hperm hf).1
  case used_eq =>
    intro p
    dsimp only [Alloc.given]
    rw [h.used_eq, List.filter_append, List.map_append, List.sum_append]
    congr 1
    rw [List.filter_map, List.map_map]
    simp [crossingOn, Function.comp_def]
  case used_le => exact h.used_add_le hmin hperm
  case level_le => exact fun p hp => h.given_level_le hmin hperm hp
  case rates_le =>
    dsimp only [Alloc.given]
    rw [List.forall_mem_append]
    refine ⟨fun x hx => (h.rates_le x hx).trans (h.level_le port hne), ?_⟩
    simp only [List.forall_mem_map]
    exact fun _ _ => le_rfl
  case bottleneck => exact h.given_bottleneck hne hperm

/-- All flows of a port of smallest share get that share. -/
theorem Fair.assign (h : Fair ports s level) (hports : ∀ f, (ports f).Nodup)
    (hne : s.flows port ≠ []) (hmin : ∀ p, s.flows p ≠ [] → s.flowRate port ≤ s.flowRate p)
    (hperm : fs.Perm (s.flows port)) :
    ∃ s', assignFlows ports (s.flowRate port) fs s = some s' ∧
      Fair ports s' (s.flowRate port) ∧ s'.flows port = [] ∧ s'.used port = 1 ∧
      (∀ p, p ∉ fs.flatMap ports → s'.flows p = s.flows p ∧ s'.used p = s.used p) ∧
      (∀ p, s'.flows p ≠ [] → s.flows p ≠ []) ∧
      s'.rates = s.rates ++ fs.map (fun f => (f, s.flowRate port)) := by
  have hn : fs.Nodup := hperm.nodup_iff.mpr (h.nodup port)
  have hrate : 0 ≤ s.flowRate port := Alloc.flowRate_nonneg (h.used_le port)
  obtain ⟨hempty, hfull⟩ := h.given_full hne hperm
  refine ⟨s.given ports fs (s.flowRate port), assignFlows_eq hports h.nodup hn
    (fun f hf p hp => h.mem_flows hperm hf hp) hrate (h.used_add_le hmin hperm),
    h.given hne hmin hperm, hempty, hfull, fun p hp => ?_,
    fun p hp => Alloc.given_flows_ne_nil hp, rfl⟩
  have hnil : crossingOn ports fs p = [] := by
    apply List.filter_eq_nil_iff.mpr
    intro f hf hpf
    exact hp (List.mem_flatMap.mpr ⟨f, hf, of_decide_eq_true hpf⟩)
  constructor
  · apply List.filter_eq_self.mpr
    intro f _
    exact decide_eq_true fun hf => hp (List.mem_flatMap.mpr ⟨f, hf.1, hf.2⟩)
  · simp [Alloc.given, hnil]

end Round

/-! ### The loop -/

/-- What holds at the head of every pass: the queue holds the shares as they are, of all ports
with flows at least. -/
structure FillInv (ports : F → List P) (s : Filling P F) : Prop where
  fair : ∃ level, Fair ports s.alloc level
  queue : ∀ x ∈ s.portpq, x.2 = s.alloc.flowRate x.1
  queued : ∀ p, s.alloc.flows p ≠ [] → p ∈ s.portpq.map Prod.fst

/-- Flows without a rate, and ports in the queue. -/
def fillWork (all : List F) (s : Filling P F) : ℕ × ℕ :=
  ((all.filter (fun f => f ∉ s.alloc.rates.map Prod.fst)).length, s.portpq.length)

section Loop

variable {s : Filling P F} {popSmallest : ℕ → List (P × ℚ) → P} {all : List F}

omit [DecidableEq F] [DecidableEq P] in
lemma popped_mem (hpop : PopsSmallest popSmallest) (hq : s.portpq ≠ []) :
    popSmallest s.round s.portpq ∈ s.portpq.map Prod.fst := by
  obtain ⟨value, hmem, _⟩ := hpop s.round s.portpq hq
  exact List.mem_map_of_mem hmem

omit [DecidableEq F] in
lemma FillInv.popped_le (h : FillInv ports s) (hpop : PopsSmallest popSmallest)
    (hq : s.portpq ≠ []) {p : P} (hp : s.alloc.flows p ≠ []) :
    s.alloc.flowRate (popSmallest s.round s.portpq) ≤ s.alloc.flowRate p := by
  obtain ⟨value, hmem, hle⟩ := hpop s.round s.portpq hq
  obtain ⟨x, hx, rfl⟩ := List.mem_map.mp (h.queued p hp)
  have h₁ := h.queue _ hmem
  have h₂ := hle x hx
  rw [h.queue x hx] at h₂
  dsimp only at h₁
  rwa [h₁] at h₂

/-- A pass keeps the invariant, and gives flows rates or takes a port off the queue. -/
lemma FillInv.step (h : FillInv ports s) (hports : ∀ f, (ports f).Nodup)
    (hall : ∀ f, ports f ≠ [] → f ∈ all) (hpop : PopsSmallest popSmallest) (draw : ℕ → ℕ)
    (hq : s.portpq ≠ []) :
    ∃ s', fillStep ports popSmallest draw s = .next s' ∧ FillInv ports s' ∧
      Prod.Lex (· < ·) (· < ·) (fillWork all s') (fillWork all s) := by
  let port := popSmallest s.round s.portpq
  let portpq := s.portpq.filter (fun x => x.1 ≠ port)
  have hkept : ∀ p, p ≠ port → p ∈ s.portpq.map Prod.fst → p ∈ portpq.map Prod.fst := by
    intro p hp hmem
    obtain ⟨x, hx, rfl⟩ := List.mem_map.mp hmem
    exact List.mem_map_of_mem (List.mem_filter.mpr ⟨hx, decide_eq_true hp⟩)
  by_cases hnil : s.alloc.flows port = []
  · refine ⟨⟨s.alloc, portpq, s.round + 1⟩, ?_, ⟨h.fair, ?_, ?_⟩, ?_⟩
    · rw [fillStep, if_neg hq]
      exact if_pos hnil
    · exact fun x hx => h.queue x (List.mem_filter.mp hx).1
    · intro p hp
      refine hkept p ?_ (h.queued p hp)
      rintro rfl
      exact hp hnil
    · refine Prod.lex_def.mpr (.inr ⟨rfl, ?_⟩)
      obtain ⟨x, hx, hxp⟩ := List.mem_map.mp (popped_mem hpop hq)
      apply List.length_filter_lt_length_iff_exists.mpr
      exact ⟨x, hx, by simpa using hxp⟩
  · obtain ⟨level, hfair⟩ := h.fair
    let flows := shuffle (draw s.round) (s.alloc.flows port)
    obtain ⟨alloc, hrun, hfair', hempty, hfull, hsame, hold, hrates⟩ :=
      hfair.assign hports hnil (fun p hp => h.popped_le hpop hq hp)
        (shuffle_perm (draw s.round) (s.alloc.flows port))
    let updatedPorts := (flows.flatMap ports).dedup
    have hmem : ∀ x, x ∈ updatedPorts.foldl
        (fun q up => dictSet q up (alloc.flowRate up)) portpq ↔
        (x.1 ∈ updatedPorts ∧ x.2 = alloc.flowRate x.1) ∨ (x ∈ portpq ∧ x.1 ∉ updatedPorts) :=
      fun x => mem_foldl_dictSet
    refine ⟨⟨alloc, updatedPorts.foldl (fun q up => dictSet q up (alloc.flowRate up)) portpq,
      s.round + 1⟩, ?_, ⟨⟨_, hfair'⟩, ?_, ?_⟩, ?_⟩
    · rw [fillStep, if_neg hq]
      dsimp only
      rw [if_neg hnil, hrun]
      dsimp only
      rw [if_pos ⟨hempty, by rw [hfull]; norm_num, by rw [hfull]; norm_num⟩]
    · intro x hx
      rcases (hmem x).mp hx with ⟨_, hx⟩ | ⟨hx, hnot⟩
      · exact hx
      · obtain ⟨hf, hu⟩ := hsame x.1 (fun hin => hnot (List.mem_dedup.mpr hin))
        rw [h.queue x (List.mem_filter.mp hx).1, Alloc.flowRate, Alloc.flowRate, hf, hu]
    · intro p hp
      dsimp only at hp ⊢
      by_cases hup : p ∈ updatedPorts
      · exact List.mem_map.mpr ⟨(p, alloc.flowRate p), (hmem _).mpr (.inl ⟨hup, rfl⟩), rfl⟩
      · have hne : p ≠ port := by
          rintro rfl
          exact hp hempty
        obtain ⟨x, hx, rfl⟩ := List.mem_map.mp (hkept p hne (h.queued p (hold p hp)))
        exact List.mem_map_of_mem ((hmem x).mpr (.inr ⟨hx, hup⟩))
    · refine Prod.lex_def.mpr (.inl ?_)
      obtain ⟨f, hf⟩ := List.exists_mem_of_ne_nil _ hnil
      obtain ⟨hport, hnew⟩ := (hfair.mem_iff port f).mp hf
      have hmap : alloc.rates.map Prod.fst = s.alloc.rates.map Prod.fst ++ flows := by
        rw [hrates, List.map_append, List.map_map]
        simp [flows, port, Function.comp_def]
      have hfilter : all.filter (fun g => g ∉ alloc.rates.map Prod.fst) =
          (all.filter (fun g => g ∉ s.alloc.rates.map Prod.fst)).filter (fun g => g ∉ flows) := by
        rw [List.filter_filter, hmap]
        apply List.filter_congr
        intro g _
        rw [← Bool.decide_and, decide_eq_decide, List.mem_append]
        tauto
      rw [fillWork, fillWork, hfilter]
      apply List.length_filter_lt_length_iff_exists.mpr
      refine ⟨f, List.mem_filter.mpr ⟨hall f (List.ne_nil_of_mem hport), decide_eq_true hnew⟩, ?_⟩
      simpa [flows] using hf

/-- The loop ends, with the invariant and no flows left. -/
theorem FillInv.returns (h : FillInv ports s) (hports : ∀ f, (ports f).Nodup)
    (hall : ∀ f, ports f ≠ [] → f ∈ all) (hpop : PopsSmallest popSmallest) (draw : ℕ → ℕ) :
    ∃ alloc, Loop.Returns (fillStep ports popSmallest draw) s (some alloc) ∧
      (∃ level, Fair ports alloc level) ∧ ∀ p, alloc.flows p = [] := by
  let Post : Option (Alloc P F) → Prop := fun r =>
    ∃ alloc, r = some alloc ∧ (∃ level, Fair ports alloc level) ∧ ∀ p, alloc.flows p = []
  have hbody : ∀ s, FillInv ports s →
      (∃ r, fillStep ports popSmallest draw s = .done r ∧ Post r) ∨
      ∃ s', fillStep ports popSmallest draw s = .next s' ∧ FillInv ports s' ∧
        Prod.Lex (· < ·) (· < ·) (fillWork all s') (fillWork all s) := by
    intro s h
    by_cases hq : s.portpq = []
    · refine .inl ⟨_, if_pos hq, s.alloc, rfl, h.fair, fun p => ?_⟩
      by_contra hp
      have := h.queued p hp
      rw [hq] at this
      cases this
    · exact .inr (h.step hports hall hpop draw hq)
  obtain ⟨r, hr, alloc, rfl, hpost⟩ := Loop.returns_of_wellFounded
    (InvImage.wf (fillWork all) (WellFounded.prod_lex Nat.lt_wfRel.wf Nat.lt_wfRel.wf))
    (FillInv ports) Post hbody h
  exact ⟨alloc, hr, hpost⟩

end Loop

/-! ### All rates -/

section Final

variable {V H E : Type} [DecidableEq V] [DecidableEq H] {all : List F} {G : PortGraph V E}
  {info : F → FlowInfo V H} {portDict : List (PortName V H)}
  {flows : List F} {crossing : Crossing (PortName V H) F}
  {popSmallest : ℕ → List (P × ℚ) → P} {routed : F → Prop} {allPorts : List P}

omit [DecidableEq F] in
/-- Before the loop no flow has a rate and every port is queued at its share. -/
lemma Crosses.fillInv {crossing : Crossing P F} (h : Crosses allPorts routed crossing) :
    FillInv crossing.ports ⟨⟨crossing.flows, fun _ => 0, []⟩,
      allPorts.foldl (fun q port =>
        dictSet q port ((⟨crossing.flows, fun _ => 0, []⟩ : Alloc P F).flowRate port)) [], 0⟩ where
  fair := by
    refine ⟨0, ⟨fun p f => ?_, h.nodup_flows, List.nodup_nil, by simp, by simp, by simp, ?_,
      by simp, by simp⟩⟩
    · simpa using h.mem_iff p f
    · exact fun p _ => Alloc.flowRate_nonneg zero_le_one
  queue x hx := by
    rcases mem_foldl_dictSet.mp hx with ⟨_, hx⟩ | ⟨hx, _⟩
    · exact hx
    · cases hx
  queued p hp := by
    obtain ⟨f, hf⟩ := List.exists_mem_of_ne_nil _ hp
    have hmem := h.mem_allPorts f p ((h.mem_iff p f).mp hf)
    exact List.mem_map.mpr
      ⟨(p, (⟨crossing.flows, fun _ => 0, []⟩ : Alloc P F).flowRate p),
        mem_foldl_dictSet.mpr (.inl ⟨hmem, rfl⟩), rfl⟩

/-- The rate of a flow, which is `0` before it gets one. -/
def Alloc.rateOf (s : Alloc P F) (f : F) : ℚ :=
  ((s.rates.find? (fun x => x.1 = f)).map Prod.snd).getD 0

omit [DecidableEq P] in
lemma Alloc.rateOf_eq (h : (s.rates.map Prod.fst).Nodup) {x : F × ℚ} (hx : x ∈ s.rates) :
    s.rateOf x.1 = x.2 := by
  have hfind : s.rates.find? (fun y => y.1 = x.1) = some x := by
    rw [List.find?_eq_some_iff_append]
    obtain ⟨l, l', heq⟩ := List.append_of_mem hx
    refine ⟨decide_eq_true rfl, l, l', heq, fun y hy => ?_⟩
    rw [heq, List.map_append, List.map_cons, List.nodup_append'] at h
    have hne : y.1 ≠ x.1 := fun hyx =>
      h.2.2 (List.mem_map_of_mem hy) (hyx ▸ List.mem_cons_self)
    simp [hne]
  rw [Alloc.rateOf, hfind]
  rfl

/-- The capacity that is used on a port is the sum of the rates on it. -/
lemma Fair.load_eq {level : ℚ} (h : Fair ports s level) (p : P) :
    load ports (s.rates.map Prod.fst).toFinset s.rateOf p = s.used p := by
  have hfilter : (s.rates.map Prod.fst).toFinset.filter (fun f => p ∈ ports f) =
      ((s.rates.filter (fun x => p ∈ ports x.1)).map Prod.fst).toFinset := by
    ext f
    simp
  have hn : ((s.rates.filter (fun x => p ∈ ports x.1)).map Prod.fst).Nodup :=
    h.rates_nodup.sublist (List.filter_sublist.map _)
  rw [load, hfilter, List.sum_toFinset _ hn, h.used_eq, List.map_map]
  congr 1
  apply List.map_congr_left
  intro x hx
  exact Alloc.rateOf_eq h.rates_nodup (List.mem_filter.mp hx).1

lemma Fair.isBottleneck {level : ℚ} (h : Fair ports s level) {f : F}
    (hf : f ∈ s.rates.map Prod.fst) :
    ∃ p, IsBottleneck ports (s.rates.map Prod.fst).toFinset 1 s.rateOf f p := by
  obtain ⟨x, hx, rfl⟩ := List.mem_map.mp hf
  obtain ⟨p, hp, _, hfull, hle⟩ := h.bottleneck x hx
  refine ⟨p, hp, (h.load_eq p).trans hfull, fun g hg hpg => ?_⟩
  obtain ⟨y, hy, rfl⟩ := List.mem_map.mp (List.mem_toFinset.mp hg)
  rw [Alloc.rateOf_eq h.rates_nodup hx, Alloc.rateOf_eq h.rates_nodup hy]
  exact hle y hy hpg

/-- The loop ends with rates of exactly the flows that cross a port, under which each has a
bottleneck. -/
theorem Crosses.computeFlowThroughputs {crossing : Crossing P F}
    (h : Crosses allPorts (· ∈ all) crossing) (hpop : PopsSmallest popSmallest)
    (draw : ℕ → ℕ) :
    ∃ fuel alloc level,
      computeFlowThroughputs fuel crossing popSmallest draw allPorts = some alloc ∧
      Fair crossing.ports alloc level ∧ (alloc.rates.map Prod.fst).toFinset = all.toFinset := by
  have hall : ∀ f, crossing.ports f ≠ [] → f ∈ all := fun f hf => (h.routed_iff f).mp hf
  obtain ⟨alloc, ⟨fuel, hrun⟩, ⟨level, hfair⟩, hempty⟩ :=
    h.fillInv.returns h.nodup_ports hall hpop draw
  refine ⟨fuel, alloc, level, ?_, hfair, ?_⟩
  · rw [ResSim.computeFlowThroughputs, hrun]
    rfl
  · ext f
    rw [List.mem_toFinset, List.mem_toFinset, ← h.routed_iff]
    constructor
    · intro hf
      obtain ⟨x, hx, rfl⟩ := List.mem_map.mp hf
      exact hfair.crosses x hx
    · intro hne
      obtain ⟨p, hp⟩ := List.exists_mem_of_ne_nil _ hne
      by_contra hf
      have := (hfair.mem_iff p f).mpr ⟨hp, hf⟩
      rw [hempty p] at this
      cases this

/-- Whichever port of smallest share is popped and in whatever order its flows are taken, the
loop ends without a failing assertion, each routed flow has one rate, no port is overloaded,
and each routed flow crosses a full port on which no flow has a larger rate. -/
theorem computeFlowThroughputs_maxMinFair
    {popSmallest : ℕ → List (PortName V H × ℚ) → PortName V H}
    (hinit : initPorts G info portDict flows ⟨fun _ => [], fun _ => []⟩ = some crossing)
    (hpop : PopsSmallest popSmallest) (draw : ℕ → ℕ) :
    ∃ fuel alloc, computeFlowThroughputs fuel crossing popSmallest draw portDict = some alloc ∧
      (alloc.rates.map Prod.fst).Nodup ∧ (∀ x ∈ alloc.rates, alloc.rateOf x.1 = x.2) ∧
      (∀ f, f ∈ alloc.rates.map Prod.fst ↔ f ∈ flows ∧ (info f).path ≠ none) ∧
      Feasible crossing.ports (alloc.rates.map Prod.fst).toFinset 1 alloc.rateOf ∧
      (∀ f ∈ alloc.rates.map Prod.fst,
        ∃ p, IsBottleneck crossing.ports (alloc.rates.map Prod.fst).toFinset 1 alloc.rateOf f p) ∧
      IsMaxMinFair crossing.ports (alloc.rates.map Prod.fst).toFinset 1 alloc.rateOf := by
  let routed := flows.filter (fun f => (info f).path ≠ none)
  have hempty : Crosses portDict (fun _ => False)
      (⟨fun _ => [], fun _ => []⟩ : Crossing (PortName V H) F) :=
    ⟨by simp, by simp, by simp, by simp, by simp⟩
  have hcrosses : Crosses portDict (· ∈ routed) crossing := by
    have := crosses_initPorts hempty hinit
    convert this using 2
    simp [routed]
  obtain ⟨fuel, alloc, level, hrun, hfair, hrouted⟩ := hcrosses.computeFlowThroughputs hpop draw
  have hfeas : Feasible crossing.ports (alloc.rates.map Prod.fst).toFinset 1 alloc.rateOf :=
    fun p => (hfair.load_eq p).trans_le (hfair.used_le p)
  have hbottleneck := fun f hf => hfair.isBottleneck (f := f) hf
  refine ⟨fuel, alloc, hrun, hfair.rates_nodup, fun x => Alloc.rateOf_eq hfair.rates_nodup, ?_,
    hfeas, hbottleneck, isMaxMinFair_of_bottlenecks hfeas fun f hf =>
      hbottleneck f (List.mem_toFinset.mp hf)⟩
  intro f
  rw [← List.mem_toFinset, hrouted, List.mem_toFinset]
  simp [routed]

end Final

/-! ### Two flows on a link -/

/-- The first two flows go from `0` to `1` over the link `0`; the third is not routed. -/
def linkFlow (f : Fin 3) : FlowInfo (Fin 2) (Fin 3) := ⟨f, 0, if f = 2 then none else some [0, 2]⟩

def linkPorts : List (PortName (Fin 2) (Fin 3)) :=
  [.host 0 0, .host 1 0, .host 2 0, .switch 0 0, .switch 0 1, .switch 1 0, .switch 1 1, .switch 1 2]

/-- The first port of smallest share. -/
def popFirst (_ : ℕ) (q : List (PortName (Fin 2) (Fin 3) × ℚ)) : PortName (Fin 2) (Fin 3) :=
  ((q.argmin Prod.snd).map Prod.fst).getD (.host 0 0)

lemma popsSmallest_popFirst : PopsSmallest popFirst := by
  intro n q hq
  have hsome : q.argmin Prod.snd ≠ none := mt List.argmin_eq_none.mp hq
  obtain ⟨x, hx⟩ := Option.ne_none_iff_exists'.mp hsome
  refine ⟨x.2, ?_, fun y hy => List.le_of_mem_argmin hy (Option.mem_def.mpr hx)⟩
  rw [popFirst, hx]
  exact List.argmin_mem hx

theorem computeFlowThroughputs_maxMinFair_link :
    ∃ crossing, initPorts doubleLink linkFlow linkPorts [0, 1, 2] ⟨fun _ => [], fun _ => []⟩ =
      some crossing ∧
    ∃ fuel alloc,
      computeFlowThroughputs fuel crossing popFirst (fun _ => 0) linkPorts = some alloc ∧
      (∀ f, f ∈ alloc.rates.map Prod.fst ↔ f ∈ [0, 1, 2] ∧ (linkFlow f).path ≠ none) ∧
      IsMaxMinFair crossing.ports (alloc.rates.map Prod.fst).toFinset 1 alloc.rateOf := by
  have hinit : (initPorts doubleLink linkFlow linkPorts [0, 1, 2]
      ⟨fun _ => [], fun _ => []⟩).isSome := by decide
  obtain ⟨crossing, hinit⟩ := Option.isSome_iff_exists.mp hinit
  obtain ⟨fuel, alloc, hrun, _, _, hrouted, _, _, hfair⟩ :=
    computeFlowThroughputs_maxMinFair hinit popsSmallest_popFirst (fun _ => 0)
  exact ⟨crossing, hinit, fuel, alloc, hrun, hrouted, hfair⟩

end ResSim
