import Mathlib.Data.Finset.Max
import Mathlib.Data.Fintype.Powerset
import Mathlib.Data.List.Perm.Subperm
import Mathlib.Tactic.Tauto

/-!
# Disjoint branchings

A directed multigraph is the list of its arcs: source, target and name. It is `k`-connected
from a root if at least `k` arcs enter every set without the root. Then it has `k` disjoint
branchings: while one is grown, an arc may be taken if no set that it enters becomes too poor
for the others, and there always is such an arc. So there are `k` disjoint paths to each
vertex.
-/

namespace ResSim

variable {V E : Type} [DecidableEq V]

section Defs

variable (r : V) (k : ℕ) (es : List (V × V × E))

/-- The number of arcs that enter a set. -/
def inDegree (U : Finset V) : ℕ := es.countP (fun a => a.1 ∉ U ∧ a.2.1 ∈ U)

/-- At least `k` arcs enter every set without the root. -/
def RootConnected : Prop := ∀ U : Finset V, U.Nonempty → r ∉ U → k ≤ inDegree es U

/-- An arc without which every set that it enters keeps `k` arcs. -/
def Safe (a : V × V × E) : Prop :=
  ∀ U : Finset V, a.1 ∉ U → a.2.1 ∈ U → r ∉ U → k + 1 ≤ inDegree es U

/-- The state of a branching that has reached `T`: the arcs that are left can still make `k`
others, and have one arc more where it has not come yet. -/
structure Growing (T : Finset V) : Prop where
  root : r ∈ T
  connected : RootConnected r k es
  outside : ∀ U : Finset V, U.Nonempty → Disjoint U T → k + 1 ≤ inDegree es U

/-- A branching from the root, with the vertices that it reaches. -/
inductive Branching : List (V × V × E) → Finset V → Prop
  | root : Branching [] {r}
  | grow {ts : List (V × V × E)} {T : Finset V} (a : V × V × E) :
      Branching ts T → a.1 ∈ T → a.2.1 ∉ T → Branching (ts ++ [a]) (insert a.2.1 T)

/-- The arcs of a list lead from one vertex to another. -/
def ArcPath : V → List (V × V × E) → V → Prop
  | x, [], y => x = y
  | x, a :: p, y => a.1 = x ∧ ArcPath a.2.1 p y

/-- There are `k` paths from the root to a vertex, and no arc is in two of them. -/
def DisjointPaths (v : V) : Prop :=
  ∃ ps : List (List (V × V × E)), ps.length = k ∧ (∀ p ∈ ps, ArcPath r p v) ∧
    ps.flatten.Subperm es

end Defs

variable {r : V} {k : ℕ} {es es' ts : List (V × V × E)} {T U W : Finset V} {a : V × V × E}
  {x y z : V} {p q : List (V × V × E)}

/-! ### Entering a set -/

lemma inDegree_cons : inDegree (a :: es) U =
    inDegree es U + if a.1 ∉ U ∧ a.2.1 ∈ U then 1 else 0 := by
  unfold inDegree
  rw [List.countP_cons]
  simp

lemma inDegree_of_perm (h : (a :: es').Perm es) : inDegree es U =
    inDegree es' U + if a.1 ∉ U ∧ a.2.1 ∈ U then 1 else 0 := by
  rw [← inDegree_cons]
  exact (h.countP_eq _).symm

lemma inDegree_le_length : inDegree es U ≤ es.length := List.countP_le_length

/-- The arcs that enter two sets, less those between them, enter the intersection and the
union. -/
lemma inDegree_inter_add_union :
    inDegree es (U ∩ W) + inDegree es (U ∪ W) ≤ inDegree es U + inDegree es W := by
  induction es with
  | nil => simp [inDegree]
  | cons a es ih =>
    simp only [inDegree_cons, Finset.mem_inter, Finset.mem_union]
    by_cases h₁ : a.1 ∈ U <;> by_cases h₂ : a.1 ∈ W <;> by_cases h₃ : a.2.1 ∈ U <;>
      by_cases h₄ : a.2.1 ∈ W <;> simp [h₁, h₂, h₃, h₄] <;> omega

lemma exists_of_inDegree_pos (h : 0 < inDegree es U) : ∃ a ∈ es, a.1 ∉ U ∧ a.2.1 ∈ U := by
  obtain ⟨a, ha, h⟩ := List.countP_pos_iff.mp h
  exact ⟨a, ha, of_decide_eq_true h⟩

lemma RootConnected.mono {k' : ℕ} (h : RootConnected r k es) (hle : k' ≤ k) :
    RootConnected r k' es := fun U hU hr => hle.trans (h U hU hr)

/-- An arc is safe exactly if the other arcs can make the other branchings. -/
lemma RootConnected.safe_iff (h : RootConnected r k es) (hperm : (a :: es').Perm es) :
    Safe r k es a ↔ RootConnected r k es' := by
  constructor
  · intro hsafe U hU hr
    have hle := h U hU hr
    have hdeg := inDegree_of_perm (U := U) hperm
    by_cases ha : a.1 ∉ U ∧ a.2.1 ∈ U
    · have := hsafe U ha.1 ha.2 hr
      rw [if_pos ha] at hdeg
      omega
    · rw [if_neg ha] at hdeg
      omega
  · intro h' U hx hy hr
    have hle := h' U ⟨_, hy⟩ hr
    rw [inDegree_of_perm hperm, if_pos ⟨hx, hy⟩]
    omega

/-! ### Growing a branching -/

lemma RootConnected.growing (h : RootConnected r (k + 1) es) : Growing r k es {r} where
  root := Finset.mem_singleton_self r
  connected := h.mono (Nat.le_succ k)
  outside U hU hd := h U hU (Finset.disjoint_singleton_right.mp hd)

lemma Growing.grow (h : Growing r k es T) (hperm : (a :: es').Perm es)
    (hsafe : Safe r k es a) : Growing r k es' (insert a.2.1 T) where
  root := Finset.mem_insert_of_mem h.root
  connected := (h.connected.safe_iff hperm).mp hsafe
  outside U hU hd := by
    rw [Finset.disjoint_insert_right] at hd
    have := h.outside U hU hd.2
    rw [inDegree_of_perm hperm, if_neg (fun ha => hd.1 ha.2)] at this
    omega

/-- A set that the branching has not covered, and that has no arc to spare, can be entered
further from where the branching has been. -/
lemma Growing.exists_inner (h : Growing r k es T) (hU : ¬ U ⊆ T) (hdeg : inDegree es U ≤ k) :
    ∃ a ∈ es, (a.1 ∈ T ∧ a.1 ∈ U) ∧ a.2.1 ∉ T ∧ a.2.1 ∈ U := by
  obtain ⟨y, hy, hyT⟩ := Finset.not_subset.mp hU
  have hout := h.outside (U \ T) ⟨y, by simp [hy, hyT]⟩ Finset.sdiff_disjoint
  by_contra hno
  have hle : inDegree es (U \ T) ≤ inDegree es U := by
    apply List.countP_mono_left
    intro a ha hent
    simp only [Finset.mem_sdiff, decide_eq_true_eq] at hent ⊢
    refine ⟨fun hx => hent.1 ⟨hx, fun hxT => hno ⟨a, ha, ⟨hxT, hx⟩, hent.2.2, hent.2.1⟩⟩, hent.2.1⟩
  omega

variable [Fintype V]

lemma Growing.exists_frontier (h : Growing r k es T) (hT : T ≠ Finset.univ) :
    ∃ a ∈ es, a.1 ∈ T ∧ a.2.1 ∉ T := by
  have hne : (Tᶜ).Nonempty := by
    rwa [Finset.nonempty_iff_ne_empty, ne_eq, Finset.compl_eq_empty_iff]
  have hout := h.outside Tᶜ hne disjoint_compl_left
  have hpos : 0 < inDegree es Tᶜ := by omega
  obtain ⟨a, ha, hx, hy⟩ := exists_of_inDegree_pos hpos
  exact ⟨a, ha, by simpa using hx, by simpa using hy⟩

/-- It can go on over a safe arc. -/
theorem Growing.exists_safe (h : Growing r k es T) (hT : T ≠ Finset.univ) :
    ∃ a ∈ es, a.1 ∈ T ∧ a.2.1 ∉ T ∧ Safe r k es a := by
  classical
  let tight : Finset (Finset V) :=
    Finset.univ.filter (fun U => r ∉ U ∧ ¬ U ⊆ T ∧ inDegree es U ≤ k)
  have mem_tight : ∀ U, U ∈ tight ↔ r ∉ U ∧ ¬ U ⊆ T ∧ inDegree es U ≤ k := by simp [tight]
  by_cases htight : tight.Nonempty
  · -- inside a smallest set without an arc to spare, all arcs are safe
    obtain ⟨U, hU, hmin⟩ := Finset.exists_min_image tight Finset.card htight
    obtain ⟨hr, hUT, hdeg⟩ := (mem_tight U).mp hU
    obtain ⟨a, ha, ⟨hxT, hxU⟩, hyT, hyU⟩ := h.exists_inner hUT hdeg
    refine ⟨a, ha, hxT, hyT, fun W hxW hyW hrW => ?_⟩
    by_contra hW
    have hinter := h.connected (U ∩ W) ⟨a.2.1, by simp [hyU, hyW]⟩ (by simp [hr])
    have hunion := h.connected (U ∪ W) ⟨a.2.1, by simp [hyU]⟩ (by simp [hr, hrW])
    have hsub : inDegree es (U ∩ W) + inDegree es (U ∪ W) ≤ inDegree es U + inDegree es W :=
      inDegree_inter_add_union
    have hin : U ∩ W ∈ tight := by
      refine (mem_tight _).mpr ⟨by simp [hr], fun hs => hyT (hs (by simp [hyU, hyW])), by omega⟩
    have hlt : (U ∩ W).card < U.card := by
      apply Finset.card_lt_card
      refine ⟨Finset.inter_subset_left, fun hs => hxW ?_⟩
      exact (Finset.mem_inter.mp (hs hxU)).2
    have := hmin _ hin
    omega
  · obtain ⟨a, ha, hx, hy⟩ := h.exists_frontier hT
    refine ⟨a, ha, hx, hy, fun U hxU hyU hr => ?_⟩
    by_contra hdeg
    exact htight ⟨U, (mem_tight U).mpr ⟨hr, fun hs => hy (hs hyU), by omega⟩⟩

lemma Growing.exists_branching (h : Growing r k es T) (hts : Branching r ts T) :
    ∃ ts' es', Branching r (ts ++ ts') Finset.univ ∧ (ts' ++ es').Perm es ∧
      RootConnected r k es' := by
  induction hn : (Tᶜ).card using Nat.strong_induction_on generalizing T es ts with
  | _ n ih =>
    by_cases hT : T = Finset.univ
    · refine ⟨[], es, ?_, List.Perm.refl _, h.connected⟩
      rw [List.append_nil, ← hT]
      exact hts
    · obtain ⟨a, ha, hx, hy, hsafe⟩ := h.exists_safe hT
      obtain ⟨l, l', rfl⟩ := List.append_of_mem ha
      have hperm : (a :: (l ++ l')).Perm (l ++ a :: l') := List.perm_middle.symm
      have hlt : ((insert a.2.1 T)ᶜ).card < n := by
        rw [← hn]
        apply Finset.card_lt_card
        refine ⟨Finset.compl_subset_compl.mpr (Finset.subset_insert _ _), fun hs => ?_⟩
        have := hs (Finset.mem_compl.mpr hy)
        simp at this
      obtain ⟨ts', es', hts', hperm', hconn⟩ := ih _ hlt (h.grow hperm hsafe) (hts.grow a hx hy) rfl
      refine ⟨a :: ts', es', ?_, ?_, hconn⟩
      · simpa using hts'
      · exact (hperm'.cons a).trans hperm

/-- As many branchings as arcs enter every set without the root. -/
theorem RootConnected.exists_branchings (h : RootConnected r k es) :
    ∃ trees : List (List (V × V × E)), trees.length = k ∧
      (∀ ts ∈ trees, Branching r ts Finset.univ) ∧ trees.flatten.Subperm es := by
  induction k generalizing es with
  | zero => exact ⟨[], rfl, by simp, by simp⟩
  | succ k ih =>
    obtain ⟨ts, es', hts, hperm, h'⟩ := h.growing.exists_branching .root
    obtain ⟨trees, hlen, htrees, hsub⟩ := ih h'
    refine ⟨ts :: trees, by simp [hlen], ?_, ?_⟩
    · simpa using ⟨hts, htrees⟩
    · rw [List.flatten_cons]
      exact ((List.subperm_append_left ts).mpr hsub).trans hperm.subperm

/-! ### Paths in branchings -/

omit [DecidableEq V] [Fintype V] in
lemma ArcPath.concat (h : ArcPath x p a.1) : ArcPath x (p ++ [a]) a.2.1 := by
  induction p generalizing x with
  | nil => exact ⟨h.symm, rfl⟩
  | cons b p ih => exact ⟨h.1, ih h.2⟩

omit [Fintype V] in
lemma Branching.root_mem (h : Branching r ts T) : r ∈ T := by
  induction h with
  | root => exact Finset.mem_singleton_self r
  | grow a _ _ _ ih => exact Finset.mem_insert_of_mem ih

omit [Fintype V] in
lemma Branching.mem_iff (h : Branching r ts T) {v : V} :
    v ∈ T ↔ v = r ∨ v ∈ ts.map (fun a => a.2.1) := by
  induction h with
  | root => simp
  | grow a _ _ _ ih =>
    rw [Finset.mem_insert, ih, List.map_append, List.mem_append, List.map_singleton,
      List.mem_singleton]
    tauto

omit [Fintype V] in
lemma Branching.nodup_targets (h : Branching r ts T) : (r :: ts.map (fun a => a.2.1)).Nodup := by
  induction h with
  | root => exact List.nodup_singleton r
  | grow a h' _ hy ih =>
    have hmem := mt h'.mem_iff.mpr hy
    rw [List.map_append, ← List.cons_append, List.nodup_append']
    refine ⟨ih, List.nodup_singleton _, ?_⟩
    simpa [List.disjoint_singleton, eq_comm] using hmem

omit [Fintype V] in
lemma Branching.exists_path (h : Branching r ts T) {v : V} (hv : v ∈ T) :
    ∃ p, ArcPath r p v ∧ p.Sublist ts := by
  induction h generalizing v with
  | root => exact ⟨[], (Finset.mem_singleton.mp hv).symm, List.Sublist.refl _⟩
  | grow a _ hx _ ih =>
    rcases Finset.mem_insert.mp hv with rfl | hv
    · obtain ⟨p, hp, hsub⟩ := ih hx
      exact ⟨p ++ [a], hp.concat, hsub.append (List.Sublist.refl _)⟩
    · obtain ⟨p, hp, hsub⟩ := ih hv
      exact ⟨p, hp, hsub.trans (List.sublist_append_left ..)⟩

/-- As many disjoint paths to every vertex as arcs enter every set without the root. -/
theorem RootConnected.disjointPaths (h : RootConnected r k es) (v : V) :
    DisjointPaths r k es v := by
  obtain ⟨trees, hlen, htrees, hsub⟩ := h.exists_branchings
  have hpath : ∀ ts ∈ trees, ∃ p, ArcPath r p v ∧ p.Sublist ts :=
    fun ts hts => (htrees ts hts).exists_path (Finset.mem_univ v)
  choose! path hpath using hpath
  refine ⟨trees.map path, by simp [hlen], ?_, ?_⟩
  · simp only [List.forall_mem_map]
    exact fun ts hts => (hpath ts hts).1
  · have hflat : (trees.map path).flatten.Sublist trees.flatten := by
      clear hsub hlen htrees
      induction trees with
      | nil => simp
      | cons ts trees ih =>
        simp only [List.map_cons, List.flatten_cons]
        refine (hpath ts (by simp)).2.append (ih fun ts' hts' => hpath ts' ?_)
        simp [hts']
    exact hflat.subperm.trans hsub

omit [Fintype V] in
lemma ArcPath.inDegree_pos (h : ArcPath x p y) (hx : x ∉ U) (hy : y ∈ U) : 0 < inDegree p U := by
  induction p generalizing x with
  | nil =>
    obtain rfl : x = y := h
    exact absurd hy hx
  | cons a p ih =>
    obtain ⟨rfl, h⟩ := h
    rw [inDegree_cons]
    by_cases ha : a.2.1 ∈ U
    · simp [hx, ha]
    · have := ih h ha
      omega

omit [Fintype V] in
lemma length_le_inDegree_flatten {ps : List (List (V × V × E))} (h : ∀ p ∈ ps, 0 < inDegree p U) :
    ps.length ≤ inDegree ps.flatten U := by
  induction ps with
  | nil => simp
  | cons p ps ih =>
    have hp := h p (by simp)
    have := ih fun q hq => h q (by simp [hq])
    unfold inDegree at *
    simp only [List.flatten_cons, List.countP_append, List.length_cons]
    omega

/-- Disjoint paths to the vertices are arcs into the sets, and the other way round. -/
theorem rootConnected_iff : RootConnected r k es ↔ ∀ v, DisjointPaths r k es v := by
  refine ⟨fun h => h.disjointPaths, fun h U ⟨v, hv⟩ hr => ?_⟩
  obtain ⟨ps, hlen, hps, hsub⟩ := h v
  have hle := length_le_inDegree_flatten fun p hp => (hps p hp).inDegree_pos hr hv
  have := hsub.countP_le (fun a => a.1 ∉ U ∧ a.2.1 ∈ U)
  unfold inDegree at *
  omega

end ResSim
