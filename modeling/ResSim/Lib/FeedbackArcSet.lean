import Mathlib.Algebra.GroupWithZero.Nat
import Mathlib.Data.List.Sublists
import Mathlib.Data.List.MinMax
import Mathlib.Algebra.Order.BigOperators.Group.List
import Mathlib.Algebra.Order.Group.Nat
import ResSim.Lib.Digraph

/-!
# Feedback arc sets

A weighted directed graph is the list of its edges, and an edge is named by its position. A
feedback arc set is a set of edges whose removal leaves no cycle. `bruteFas` finds one of
minimum weight by trying every set.
-/

namespace ResSim

section Delete

variable {β γ : Type}

/-- Deletes the entries at the given positions. -/
def deleteIds (xs : List β) (ids : List ℕ) : List β :=
  (xs.zipIdx.filter (fun x => x.2 ∉ ids)).map Prod.fst

lemma mem_deleteIds {xs : List β} {ids : List ℕ} {x : β} :
    x ∈ deleteIds xs ids ↔ ∃ i, xs[i]? = some x ∧ i ∉ ids := by
  simp only [deleteIds, List.mem_map, List.mem_filter, decide_eq_true_eq, Prod.exists,
    List.mk_mem_zipIdx_iff_getElem?]
  constructor
  · rintro ⟨y, i, ⟨hi, hn⟩, rfl⟩
    exact ⟨i, hi, hn⟩
  · rintro ⟨i, hi, hn⟩
    exact ⟨x, i, ⟨hi, hn⟩, rfl⟩

lemma deleteIds_map (f : β → γ) (xs : List β) (ids : List ℕ) :
    deleteIds (xs.map f) ids = (deleteIds xs ids).map f := by
  rw [deleteIds, deleteIds, List.zipIdx_map, List.filter_map, List.map_map, List.map_map]
  rfl

end Delete

variable {α : Type}

/-- A weighted graph: source, target and weight of every edge. -/
abbrev WGraph (α : Type) := List (α × α × ℕ)

/-- The edges left when some are removed. -/
def remaining (g : WGraph α) (ids : List ℕ) : List (α × α) :=
  (deleteIds g ids).map (fun e => (e.1, e.2.1))

/-- The weight of one edge. -/
def edgeWeight (g : WGraph α) (i : ℕ) : ℕ := (g[i]?.map (fun e => e.2.2)).getD 0

/-- The weight of a set of edges. -/
def fasWeight (g : WGraph α) (ids : List ℕ) : ℕ := (ids.map (edgeWeight g)).sum

/-- A set of edges whose removal leaves no cycle. -/
structure IsFas (g : WGraph α) (ids : List ℕ) : Prop where
  nodup : ids.Nodup
  lt : ∀ i ∈ ids, i < g.length
  acyclic : Acyclic (EdgeRel (remaining g ids))

/-- A feedback arc set of minimum weight. -/
def IsMinFas (g : WGraph α) (ids : List ℕ) : Prop :=
  IsFas g ids ∧ ∀ ids', IsFas g ids' → fasWeight g ids ≤ fasWeight g ids'

lemma IsFas.mem_or_mem {g : WGraph α} {ids : List ℕ} (h : IsFas g ids) {a b : α} {i j w w' : ℕ}
    (hi : g[i]? = some (a, b, w)) (hj : g[j]? = some (b, a, w')) : i ∈ ids ∨ j ∈ ids := by
  by_contra hno
  rw [not_or] at hno
  have hab : (a, b) ∈ remaining g ids :=
    List.mem_map.mpr ⟨_, mem_deleteIds.mpr ⟨i, hi, hno.1⟩, rfl⟩
  have hba : (b, a) ∈ remaining g ids :=
    List.mem_map.mpr ⟨_, mem_deleteIds.mpr ⟨j, hj, hno.2⟩, rfl⟩
  exact h.acyclic a (.head hab (.single hba))

lemma fasWeight_le_of_subset (g : WGraph α) {ids ids' : List ℕ} (hn : ids.Nodup)
    (hsub : ids ⊆ ids') : fasWeight g ids ≤ fasWeight g ids' := by
  obtain ⟨l, hperm, hl⟩ := List.subperm_of_subset hn hsub
  rw [fasWeight, fasWeight, ← (hperm.map (edgeWeight g)).sum_nat]
  exact (hl.map (edgeWeight g)).sum_le_sum (fun _ _ => Nat.zero_le _)

/-- The first set of minimum weight among all sets whose removal leaves no cycle. -/
def bruteFas [DecidableEq α] (g : WGraph α) : List ℕ :=
  (((List.range g.length).sublists.filter (fun ids => isDag (remaining g ids))).argmin
    (fasWeight g)).getD []

lemma remaining_range (g : WGraph α) : remaining g (List.range g.length) = [] := by
  have hnil : deleteIds g (List.range g.length) = [] := by
    rw [List.eq_nil_iff_forall_not_mem]
    intro x hx
    obtain ⟨i, hi, hn⟩ := mem_deleteIds.mp hx
    obtain ⟨hlt, _⟩ := List.getElem?_eq_some_iff.mp hi
    exact hn (List.mem_range.mpr hlt)
  rw [remaining, hnil, List.map_nil]

lemma IsFas.exists_sublist [DecidableEq α] {g : WGraph α} {ids : List ℕ} (h : IsFas g ids) :
    ∃ s, s.Sublist (List.range g.length) ∧ isDag (remaining g s) = true ∧
      fasWeight g s = fasWeight g ids := by
  have hmem : ∀ i, i ∈ (List.range g.length).filter (fun i => i ∈ ids) ↔ i ∈ ids := by
    intro i
    rw [List.mem_filter, decide_eq_true_iff, List.mem_range]
    exact ⟨fun hi => hi.2, fun hi => ⟨h.lt i hi, hi⟩⟩
  have hperm : ((List.range g.length).filter (fun i => i ∈ ids)).Perm ids :=
    (List.perm_ext_iff_of_nodup (List.nodup_range.filter _) h.nodup).mpr hmem
  refine ⟨_, List.filter_sublist, ?_, (hperm.map _).sum_nat⟩
  have heq : remaining g ((List.range g.length).filter (fun i => i ∈ ids)) = remaining g ids := by
    rw [remaining, remaining, deleteIds, deleteIds]
    simp only [hmem]
  rw [isDag_iff, heq]
  exact h.acyclic

lemma bruteFas_sublist [DecidableEq α] (g : WGraph α) :
    (bruteFas g).Sublist (List.range g.length) := by
  cases hmin : ((List.range g.length).sublists.filter
      (fun ids => isDag (remaining g ids))).argmin (fasWeight g) with
  | none =>
    rw [bruteFas, hmin]
    exact List.nil_sublist _
  | some ids =>
    rw [bruteFas, hmin]
    exact List.mem_sublists.mp (List.mem_filter.mp (List.argmin_mem hmin)).1

theorem bruteFas_isMin [DecidableEq α] (g : WGraph α) : IsMinFas g (bruteFas g) := by
  have hall : List.range g.length ∈
      (List.range g.length).sublists.filter (fun ids => isDag (remaining g ids)) := by
    rw [List.mem_filter, List.mem_sublists, remaining_range]
    exact ⟨List.Sublist.refl _, rfl⟩
  cases hmin : ((List.range g.length).sublists.filter
      (fun ids => isDag (remaining g ids))).argmin (fasWeight g) with
  | none =>
    rw [List.argmin_eq_none] at hmin
    rw [hmin] at hall
    cases hall
  | some ids =>
    have hids : bruteFas g = ids := by rw [bruteFas, hmin, Option.getD_some]
    obtain ⟨hmem, hdag⟩ := List.mem_filter.mp (List.argmin_mem hmin)
    have hsub := List.mem_sublists.mp hmem
    rw [hids]
    refine ⟨⟨List.nodup_range.sublist hsub, fun i hi => List.mem_range.mp (hsub.subset hi),
      isDag_iff.mp hdag⟩, fun ids' h' => ?_⟩
    obtain ⟨s, hs, hsdag, hsw⟩ := h'.exists_sublist
    rw [← hsw]
    exact List.le_of_mem_argmin (List.mem_filter.mpr ⟨List.mem_sublists.mpr hs, hsdag⟩) hmin

end ResSim
