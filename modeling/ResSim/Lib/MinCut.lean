import Mathlib.Algebra.GroupWithZero.Nat
import Mathlib.Data.List.MinMax
import Mathlib.Data.List.Sublists
import Mathlib.Algebra.BigOperators.Group.List.Basic

/-!
# Minimum cuts

A flow problem is a list of arcs with capacities. `IsMinCut` is what a maximum flow search
returns: the value of a maximum flow, which is that of a minimum cut, and such a cut.
`bruteMaxflow` tries all cuts.
-/

namespace ResSim

/-- A flow: its value, and the two sides of a cut that it saturates. -/
structure Flow (V : Type) where
  value : ℕ
  partition : List (List V)

variable {V : Type} [DecidableEq V]

/-- The capacity of the arcs that leave a set. -/
def cutCapacity (es : List (V × V × ℕ)) (S : List V) : ℕ :=
  ((es.filter (fun a => a.1 ∈ S ∧ a.2.1 ∉ S)).map (fun a => a.2.2)).sum

/-- A flow as valuable as some minimum cut, and that cut. -/
structure IsMinCut (vs : List V) (es : List (V × V × ℕ)) (s t : V) (flow : Flow V) (S T : List V) :
    Prop where
  sides : flow.partition = [S, T] ∨ flow.partition = [T, S]
  mem_or : ∀ v ∈ vs, v ∈ S ∨ v ∈ T
  disjoint : S.Disjoint T
  source : s ∈ S
  target : t ∈ T
  value : flow.value = cutCapacity es S
  value_le : ∀ S', s ∈ S' → t ∉ S' → flow.value ≤ cutCapacity es S'

/-- The contract of a maximum flow search. -/
def IsMaxflow (maxflow : List V → List (V × V × ℕ) → V → V → Flow V) : Prop :=
  ∀ vs es s t, (∀ a ∈ es, a.1 ∈ vs ∧ a.2.1 ∈ vs) → s ∈ vs → t ∈ vs → s ≠ t →
    ∃ S T, IsMinCut vs es s t (maxflow vs es s t) S T

/-- All arcs with the capacity `1`. -/
def unitArcs (es : List (V × V)) : List (V × V × ℕ) := es.map (fun a => (a.1, a.2, 1))

/-- The contract of a search for the least number of arcs that separate two vertices. -/
def IsEdgeConnectivity (edgeConnectivity : List V → List (V × V) → V → V → ℕ) : Prop :=
  ∀ vs es s t, (∀ a ∈ es, a.1 ∈ vs ∧ a.2 ∈ vs) → s ∈ vs → t ∈ vs → s ≠ t →
    ∃ S, s ∈ S ∧ t ∉ S ∧ edgeConnectivity vs es s t = cutCapacity (unitArcs es) S ∧
      ∀ S', s ∈ S' → t ∉ S' → edgeConnectivity vs es s t ≤ cutCapacity (unitArcs es) S'

/-! ### Trying all cuts -/

/-- A minimum cut and its capacity. -/
def bruteMaxflow (vs : List V) (es : List (V × V × ℕ)) (s t : V) : Flow V :=
  let cuts := (vs.filter (fun v => v ≠ s ∧ v ≠ t)).sublists.map (s :: ·)
  let S := ((cuts.argmin (cutCapacity es)).getD [s])
  ⟨cutCapacity es S, [S, vs.filter (fun v => v ∉ S)]⟩

def bruteEdgeConnectivity (vs : List V) (es : List (V × V)) (s t : V) : ℕ :=
  (bruteMaxflow vs (unitArcs es) s t).value

variable {vs : List V} {es : List (V × V × ℕ)} {S S' : List V} {s t : V}

lemma cutCapacity_congr (hes : ∀ a ∈ es, a.1 ∈ vs ∧ a.2.1 ∈ vs)
    (h : ∀ v ∈ vs, v ∈ S ↔ v ∈ S') : cutCapacity es S = cutCapacity es S' := by
  unfold cutCapacity
  congr 2
  apply List.filter_congr
  intro a ha
  simp only [h a.1 (hes a ha).1, h a.2.1 (hes a ha).2]

lemma isMaxflow_brute : IsMaxflow (bruteMaxflow (V := V)) := by
  intro vs es s t hes hs ht hst
  let free := vs.filter (fun v => v ≠ s ∧ v ≠ t)
  let cuts := free.sublists.map (s :: ·)
  have hne : cuts.argmin (cutCapacity es) ≠ none := by
    rw [ne_eq, List.argmin_eq_none]
    exact List.ne_nil_of_mem (List.mem_map_of_mem (List.mem_sublists.mpr (List.nil_sublist free)))
  obtain ⟨S, hS⟩ := Option.ne_none_iff_exists'.mp hne
  obtain ⟨l, hl, rfl⟩ := List.mem_map.mp (List.argmin_mem hS)
  rw [List.mem_sublists] at hl
  have hfree : ∀ v ∈ l, v ≠ s ∧ v ≠ t := by
    intro v hv
    simpa using (List.mem_filter.mp (hl.subset hv)).2
  have htS : t ∉ s :: l := by
    rw [List.mem_cons, not_or]
    exact ⟨hst.symm, fun hmem => (hfree t hmem).2 rfl⟩
  have hbrute : bruteMaxflow vs es s t =
      ⟨cutCapacity es (s :: l), [s :: l, vs.filter (fun v => v ∉ s :: l)]⟩ := by
    unfold bruteMaxflow
    simp only [show List.argmin (cutCapacity es) (List.map (s :: ·) (List.sublists
      (List.filter (fun v => decide (v ≠ s ∧ v ≠ t)) vs))) = some (s :: l) from hS]
    rfl
  rw [hbrute]
  refine ⟨s :: l, _, .inl rfl, ?_, ?_, by simp, ?_, rfl, ?_⟩
  · intro v hv
    by_cases hvS : v ∈ s :: l
    · exact .inl hvS
    · exact .inr (List.mem_filter.mpr ⟨hv, by simpa using hvS⟩)
  · intro v hv hv'
    exact absurd hv (by simpa using (List.mem_filter.mp hv').2)
  · exact List.mem_filter.mpr ⟨ht, by simpa using htS⟩
  · -- another cut is one of those that were tried, as far as the arcs can tell
    intro S' hs' ht'
    have hmem : s :: free.filter (fun v => v ∈ S') ∈ cuts := by
      apply List.mem_map_of_mem
      rw [List.mem_sublists]
      exact List.filter_sublist
    have hcap : cutCapacity es (s :: free.filter (fun v => v ∈ S')) = cutCapacity es S' := by
      apply cutCapacity_congr hes
      intro v hv
      by_cases hvs : v = s
      · simp [hvs, hs']
      · by_cases hvt : v = t
        · simp [hvt, ht', hst.symm]
        · simp [free, hvs, hvt, hv]
    rw [← hcap]
    exact List.le_of_mem_argmin hmem hS

lemma isEdgeConnectivity_brute : IsEdgeConnectivity (bruteEdgeConnectivity (V := V)) := by
  intro vs es s t hes hs ht hst
  have hunit : ∀ a ∈ unitArcs es, a.1 ∈ vs ∧ a.2.1 ∈ vs := by
    simp only [unitArcs, List.forall_mem_map]
    exact hes
  obtain ⟨S, T, h⟩ := isMaxflow_brute vs (unitArcs es) s t hunit hs ht hst
  exact ⟨S, h.source, fun hmem => h.disjoint hmem h.target, h.value, h.value_le⟩

end ResSim
