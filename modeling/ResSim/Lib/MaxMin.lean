import Mathlib.Algebra.Order.BigOperators.Group.Finset
import Mathlib.Data.Finset.Max

/-!
# Max-min fair rates

Flows cross ports of one capacity. Rates are feasible if no port is overloaded, and max-min
fair if no flow can get more without a flow that gets no more than it having to give way. A
flow with a bottleneck, a full port on which no flow gets more, cannot.
-/

namespace ResSim

variable {P F K : Type} [DecidableEq P] [AddCommMonoid K] [LinearOrder K]
  [IsOrderedCancelAddMonoid K]

section Defs

variable (ports : F → List P) (flows : Finset F)

/-- The rates on a port. -/
def load (rate : F → K) (p : P) : K := ∑ f ∈ flows.filter (fun f => p ∈ ports f), rate f

/-- No port is overloaded. -/
def Feasible (capacity : K) (rate : F → K) : Prop := ∀ p, load ports flows rate p ≤ capacity

/-- A full port of a flow on which no flow has a larger rate. -/
def IsBottleneck (capacity : K) (rate : F → K) (f : F) (p : P) : Prop :=
  p ∈ ports f ∧ load ports flows rate p = capacity ∧
    ∀ g ∈ flows, p ∈ ports g → rate g ≤ rate f

/-- Feasible rates such that a flow that gets more under other feasible rates takes it from a
flow that had no more than it. -/
def IsMaxMinFair (capacity : K) (rate : F → K) : Prop :=
  Feasible ports flows capacity rate ∧ ∀ rate', Feasible ports flows capacity rate' →
    ∀ f ∈ flows, rate f < rate' f → ∃ g ∈ flows, rate' g < rate g ∧ rate g ≤ rate f

end Defs

variable {ports : F → List P} {flows : Finset F} {capacity : K} {rate : F → K}

/-- Rates under which every flow has a bottleneck are max-min fair. -/
theorem isMaxMinFair_of_bottlenecks (hfeas : Feasible ports flows capacity rate)
    (hall : ∀ f ∈ flows, ∃ p, IsBottleneck ports flows capacity rate f p) :
    IsMaxMinFair ports flows capacity rate := by
  refine ⟨hfeas, fun rate' hfeas' f hf hlt => ?_⟩
  obtain ⟨p, hp, hfull, hle⟩ := hall f hf
  have hin : f ∈ flows.filter (fun f => p ∈ ports f) := Finset.mem_filter.mpr ⟨hf, hp⟩
  by_contra hno
  push Not at hno
  -- otherwise the port would be overloaded
  have hmore : load ports flows rate p < load ports flows rate' p := by
    refine Finset.sum_lt_sum (fun g hg => ?_) ⟨f, hin, hlt⟩
    obtain ⟨hg, hpg⟩ := Finset.mem_filter.mp hg
    by_contra hgt
    exact absurd (hle g hg hpg) (not_le.mpr (hno g hg (not_le.mp hgt)))
  rw [hfull] at hmore
  exact absurd (hfeas' p) (not_le.mpr hmore)

omit [IsOrderedCancelAddMonoid K] in
/-- A flow whose rates differ has a flow with smaller rates that differ. -/
lemma IsMaxMinFair.exists_lt {rate' : F → K} (h : IsMaxMinFair ports flows capacity rate)
    (h' : IsMaxMinFair ports flows capacity rate') {f : F} (hf : f ∈ flows)
    (hne : rate f ≠ rate' f) :
    ∃ g ∈ flows, rate g ≠ rate' g ∧ min (rate g) (rate' g) < min (rate f) (rate' f) := by
  rcases lt_or_gt_of_ne hne with hlt | hlt
  · obtain ⟨g, hg, hgt, hle⟩ := h.2 rate' h'.1 f hf hlt
    refine ⟨g, hg, hgt.ne', ?_⟩
    rw [min_eq_right hgt.le, min_eq_left hlt.le]
    exact hgt.trans_le hle
  · obtain ⟨g, hg, hgt, hle⟩ := h'.2 rate h.1 f hf hlt
    refine ⟨g, hg, hgt.ne, ?_⟩
    rw [min_eq_left hgt.le, min_eq_right hlt.le]
    exact hgt.trans_le hle

omit [IsOrderedCancelAddMonoid K] in
/-- There is one max-min fair rate for each flow. -/
theorem IsMaxMinFair.eq {rate' : F → K} (h : IsMaxMinFair ports flows capacity rate)
    (h' : IsMaxMinFair ports flows capacity rate') : ∀ f ∈ flows, rate f = rate' f := by
  by_contra hne
  push Not at hne
  obtain ⟨f, hf, hfne⟩ := hne
  obtain ⟨g, hg, hmin⟩ := (flows.filter (fun f => rate f ≠ rate' f)).exists_min_image
    (fun f => min (rate f) (rate' f)) ⟨f, Finset.mem_filter.mpr ⟨hf, hfne⟩⟩
  obtain ⟨hg, hgne⟩ := Finset.mem_filter.mp hg
  obtain ⟨k, hk, hkne, hlt⟩ := h.exists_lt h' hg hgne
  exact absurd (hmin k (Finset.mem_filter.mpr ⟨hk, hkne⟩)) (not_le.mpr hlt)

end ResSim
