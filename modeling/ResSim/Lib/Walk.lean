import Mathlib.Data.List.Basic

/-!
# Walks along named edges

A graph is given by the edges that leave each vertex, an edge being a name and a head, so
there can be parallel edges. `EdgeWalk` follows a list of names, and `Shortest` says that no
walk between the same vertices takes fewer edges.
-/

namespace ResSim

variable {V E : Type}

/-- The edges that leave a vertex, each with its head. -/
abbrev Adj (V E : Type) := V → List (E × V)

/-- The edges named by a list lead from one vertex to another. -/
def EdgeWalk (adj : Adj V E) : V → List E → V → Prop
  | x, [], y => x = y
  | x, e :: p, y => ∃ z, (e, z) ∈ adj x ∧ EdgeWalk adj z p y

/-- A walk with as few edges as possible. -/
def Shortest (adj : Adj V E) (x : V) (p : List E) (y : V) : Prop :=
  EdgeWalk adj x p y ∧ ∀ q, EdgeWalk adj x q y → p.length ≤ q.length

/-- The contract of a path search: a shortest walk, or no edges if there is no walk. -/
structure IsPathFinder (getShortestPath : Adj V E → V → V → List E) : Prop where
  shortest : ∀ adj x y, (∃ p, EdgeWalk adj x p y) → Shortest adj x (getShortestPath adj x y) y
  nil : ∀ adj x y, (¬ ∃ p, EdgeWalk adj x p y) → getShortestPath adj x y = []

variable {adj adj' : Adj V E} {x y z : V} {p q : List E} {e : E}

@[simp] lemma edgeWalk_nil : EdgeWalk adj x [] y ↔ x = y := Iff.rfl

lemma edgeWalk_cons : EdgeWalk adj x (e :: p) y ↔ ∃ z, (e, z) ∈ adj x ∧ EdgeWalk adj z p y :=
  Iff.rfl

lemma edgeWalk_append :
    EdgeWalk adj x (p ++ q) y ↔ ∃ z, EdgeWalk adj x p z ∧ EdgeWalk adj z q y := by
  induction p generalizing x with
  | nil => simp
  | cons e p ih =>
    rw [List.cons_append, edgeWalk_cons]
    constructor
    · rintro ⟨w, hw, hq⟩
      obtain ⟨z, hz, hzq⟩ := ih.mp hq
      exact ⟨z, ⟨w, hw, hz⟩, hzq⟩
    · rintro ⟨z, ⟨w, hw, hz⟩, hzq⟩
      exact ⟨w, hw, ih.mpr ⟨z, hz, hzq⟩⟩

lemma edgeWalk_concat :
    EdgeWalk adj x (p ++ [e]) y ↔ ∃ z, EdgeWalk adj x p z ∧ (e, y) ∈ adj z := by
  rw [edgeWalk_append]
  refine exists_congr fun z => and_congr_right fun _ => ?_
  rw [edgeWalk_cons]
  constructor
  · rintro ⟨w, hw, rfl⟩
    exact hw
  · exact fun h => ⟨y, h, rfl⟩

lemma EdgeWalk.mono (h : EdgeWalk adj x p y) (hadj : ∀ v, ∀ a ∈ adj v, a ∈ adj' v) :
    EdgeWalk adj' x p y := by
  induction p generalizing x with
  | nil => exact h
  | cons e p ih =>
    obtain ⟨z, hz, hw⟩ := h
    exact ⟨z, hadj x _ hz, ih hw⟩

lemma edgeWalk_congr (hadj : ∀ v a, a ∈ adj v ↔ a ∈ adj' v) :
    EdgeWalk adj x p y ↔ EdgeWalk adj' x p y :=
  ⟨fun h => h.mono (fun v a => (hadj v a).mp), fun h => h.mono (fun v a => (hadj v a).mpr)⟩

lemma EdgeWalk.reverse (hsymm : ∀ x y e, (e, y) ∈ adj x → (e, x) ∈ adj y)
    (h : EdgeWalk adj x p y) : EdgeWalk adj y p.reverse x := by
  induction p generalizing x with
  | nil => exact Eq.symm h
  | cons e p ih =>
    obtain ⟨z, he, hz⟩ := h
    rw [List.reverse_cons]
    exact edgeWalk_concat.mpr ⟨z, ih hz, hsymm x z e he⟩

lemma Shortest.length_eq (h : Shortest adj x p y) (h' : Shortest adj x q y) :
    p.length = q.length :=
  Nat.le_antisymm (h.2 q h'.1) (h'.2 p h.1)

/-- The last edge of a shortest walk comes from a vertex that is one edge closer. -/
lemma Shortest.of_concat (h : Shortest adj x (p ++ [e]) y) :
    ∃ z, (e, y) ∈ adj z ∧ Shortest adj x p z := by
  obtain ⟨z, hz, he⟩ := edgeWalk_concat.mp h.1
  refine ⟨z, he, hz, fun q hq => ?_⟩
  have hle := h.2 (q ++ [e]) (edgeWalk_concat.mpr ⟨z, hq, he⟩)
  simpa using hle

lemma Shortest.of_cons (h : Shortest adj x (e :: p) y) :
    ∃ z, (e, z) ∈ adj x ∧ Shortest adj z p y := by
  obtain ⟨z, he, hz⟩ := edgeWalk_cons.mp h.1
  refine ⟨z, he, hz, fun q hq => ?_⟩
  have hle := h.2 (e :: q) (edgeWalk_cons.mpr ⟨z, he, hq⟩)
  simpa using hle

/-- A shortest walk takes no edge twice, where an edge has two ends at most. -/
lemma Shortest.nodup (hends : ∀ e x y x' y', (e, y) ∈ adj x → (e, y') ∈ adj x' →
    (x = x' ∧ y = y') ∨ (x = y' ∧ y = x')) (h : Shortest adj x p y) : p.Nodup := by
  induction p generalizing x with
  | nil => exact List.nodup_nil
  | cons e p ih =>
    obtain ⟨z, he, hz⟩ := h.of_cons
    refine List.nodup_cons.mpr ⟨fun hmem => ?_, ih hz⟩
    obtain ⟨p₁, p₂, rfl⟩ := List.append_of_mem hmem
    obtain ⟨a, _, b, hb, hw⟩ := edgeWalk_append.mp hz.1
    rcases hends e x z a b he hb with ⟨rfl, rfl⟩ | ⟨rfl, rfl⟩
    · have hle := h.2 (e :: p₂) (edgeWalk_cons.mpr ⟨z, he, hw⟩)
      simp only [List.length_cons, List.length_append] at hle
      omega
    · have hle := h.2 p₂ hw
      simp only [List.length_cons, List.length_append] at hle
      omega

lemma shortest_nil : Shortest adj x [] x := ⟨rfl, fun _ _ => Nat.zero_le _⟩

lemma Shortest.eq_nil (h : Shortest adj x p x) : p = [] :=
  List.length_eq_zero_iff.mp (Nat.le_zero.mp (h.2 [] rfl))

/-- A path search whose answers for one graph are exchanged. -/
lemma IsPathFinder.update [DecidableEq (Adj V E)] {getShortestPath : Adj V E → V → V → List E}
    (h : IsPathFinder getShortestPath) {paths : V → V → List E}
    (hshort : ∀ x y, (∃ p, EdgeWalk adj x p y) → Shortest adj x (paths x y) y)
    (hnil : ∀ x y, (¬ ∃ p, EdgeWalk adj x p y) → paths x y = []) :
    IsPathFinder (Function.update getShortestPath adj paths) := by
  constructor
  · intro adj' x y hwalk
    by_cases hadj : adj' = adj
    · subst hadj
      rw [Function.update_self]
      exact hshort x y hwalk
    · rw [Function.update_of_ne hadj]
      exact h.shortest adj' x y hwalk
  · intro adj' x y hno
    by_cases hadj : adj' = adj
    · subst hadj
      rw [Function.update_self]
      exact hnil x y hno
    · rw [Function.update_of_ne hadj]
      exact h.nil adj' x y hno

section Carries

variable {W F : Type} {adj' : Adj W F} {f : V → W} {name : F → Option E} {q : List F}

/-- One graph inside another: an image of a vertex has the edges of the vertex, and `name` tells
which edge each of them is. -/
structure Carries (f : V → W) (name : F → Option E) (adj : Adj V E) (adj' : Adj W F) : Prop where
  inj : Function.Injective f
  edge_iff : ∀ x y i, (i, f y) ∈ adj' (f x) ↔ ∃ e, name i = some e ∧ (e, y) ∈ adj x
  named : ∀ e, ∃ i, name i = some e
  closed : ∀ x, ∀ a ∈ adj' (f x), ∃ y, f y = a.2

lemma Carries.exists_map (h : Carries f name adj adj') (hp : EdgeWalk adj x p y) :
    ∃ q, EdgeWalk adj' (f x) q (f y) ∧ q.map name = p.map some := by
  induction p generalizing x with
  | nil => exact ⟨[], congrArg f hp, rfl⟩
  | cons e p ih =>
    obtain ⟨z, he, hz⟩ := hp
    obtain ⟨i, hi⟩ := h.named e
    obtain ⟨q, hq, hname⟩ := ih hz
    refine ⟨i :: q, ⟨f z, (h.edge_iff x z i).mpr ⟨e, hi, he⟩, hq⟩, ?_⟩
    rw [List.map_cons, List.map_cons, hi, hname]

lemma Carries.exists_comap (h : Carries f name adj adj') (hq : EdgeWalk adj' (f x) q (f y)) :
    ∃ p, EdgeWalk adj x p y ∧ q.map name = p.map some := by
  induction q generalizing x with
  | nil => exact ⟨[], h.inj hq, rfl⟩
  | cons i q ih =>
    obtain ⟨z, hi, hz⟩ := hq
    obtain ⟨w, rfl⟩ := h.closed x (i, z) hi
    obtain ⟨e, hname, he⟩ := (h.edge_iff x w i).mp hi
    obtain ⟨p, hp, hnames⟩ := ih hz
    refine ⟨e :: p, ⟨w, he, hp⟩, ?_⟩
    rw [List.map_cons, List.map_cons, hname, hnames]

lemma Carries.exists_walk_iff (h : Carries f name adj adj') :
    (∃ q, EdgeWalk adj' (f x) q (f y)) ↔ ∃ p, EdgeWalk adj x p y := by
  constructor
  · rintro ⟨q, hq⟩
    obtain ⟨p, hp, _⟩ := h.exists_comap hq
    exact ⟨p, hp⟩
  · rintro ⟨p, hp⟩
    obtain ⟨q, hq, _⟩ := h.exists_map hp
    exact ⟨q, hq⟩

/-- Walks from an image stay among the images. -/
lemma Carries.exists_image {z : W} (h : Carries f name adj adj') (hq : EdgeWalk adj' (f x) q z) :
    ∃ y, f y = z := by
  induction q generalizing x with
  | nil => exact ⟨x, hq⟩
  | cons i q ih =>
    obtain ⟨w, hi, hw⟩ := hq
    obtain ⟨y, rfl⟩ := h.closed x (i, w) hi
    exact ih hw

lemma length_eq_of_map_eq (h : q.map name = p.map some) : q.length = p.length := by
  simpa using congrArg List.length h

lemma Carries.exists_map_shortest (h : Carries f name adj adj') (hp : Shortest adj x p y) :
    ∃ q, Shortest adj' (f x) q (f y) ∧ q.map name = p.map some := by
  obtain ⟨q, hq, hname⟩ := h.exists_map hp.1
  refine ⟨q, ⟨hq, fun q' hq' => ?_⟩, hname⟩
  obtain ⟨p', hp', hname'⟩ := h.exists_comap hq'
  rw [length_eq_of_map_eq hname, length_eq_of_map_eq hname']
  exact hp.2 p' hp'

lemma Carries.exists_comap_shortest (h : Carries f name adj adj')
    (hq : Shortest adj' (f x) q (f y)) :
    ∃ p, Shortest adj x p y ∧ q.map name = p.map some := by
  obtain ⟨p, hp, hname⟩ := h.exists_comap hq.1
  refine ⟨p, ⟨hp, fun p' hp' => ?_⟩, hname⟩
  obtain ⟨q', hq', hname'⟩ := h.exists_map hp'
  rw [← length_eq_of_map_eq hname, ← length_eq_of_map_eq hname']
  exact hq.2 q' hq'

end Carries

end ResSim
