import ResSim.Trees.EdstForest

/-!
# The end of the forest loop

`edst_forest` builds trees until the available links do not connect the switches. A tree of at
least two switches uses up links, which bounds the trees. A single switch is connected by no
links at all, so its trees use none and the loop goes on for ever.
-/

namespace ResSim

variable {V E : Type} [DecidableEq V] [DecidableEq E]

/-- Without an early end the forest is built: no link is used by two trees, every tree uses
some, and so there are no more trees than links. -/
def EndsByLinks (G : PortGraph V E) (dst : Option V) (numTrees : ℕ) (rnd : Rnd) : Prop :=
  ∃ fuel forest, edstForest fuel G dst numTrees false rnd = some forest ∧
    (forestEdges forest).Nodup ∧ (∀ T ∈ forest, T.edges ≠ []) ∧
    forest.length ≤ G.links.dedup.length

variable {G : PortGraph V E} {dst : Option V} {forest : List (ITree V E)}

omit [DecidableEq V] [DecidableEq E] in
lemma length_le_forestEdges (h : ∀ T ∈ forest, T.edges ≠ []) :
    forest.length ≤ (forestEdges forest).length := by
  induction forest with
  | nil => exact le_rfl
  | cons T forest ih =>
    obtain ⟨hT, h⟩ := List.forall_mem_cons.mp h
    have hpos := List.length_pos_iff.mpr hT
    have hrest := ih h
    rw [forestEdges] at hrest
    rw [forestEdges, List.flatMap_cons, List.length_append, List.length_cons]
    omega

omit [DecidableEq E] in
lemma ITree.IsSpanningTree.edges_ne_nil {T : ITree V E} (hT : T.IsSpanningTree G)
    (hcard : 2 ≤ G.verts.length) : T.edges ≠ [] := by
  have hlen := hT.length_es
  apply List.ne_nil_of_length_pos
  rw [ITree.edges, List.length_map]
  omega

lemma endsByLinks (hcard : 2 ≤ G.verts.length) (numTrees : ℕ) (rnd : Rnd) :
    EndsByLinks G dst numTrees rnd := by
  obtain ⟨fuel, forest, hrun, htrees, hn, _⟩ := edstForest_spec hcard dst numTrees false rnd
  have hne : ∀ T ∈ forest, T.edges ≠ [] := fun T hT => (htrees T hT).edges_ne_nil hcard
  refine ⟨fuel, forest, hrun, hn, hne, (length_le_forestEdges hne).trans ?_⟩
  apply (List.subperm_of_subset hn _).length_le
  exact fun e _ => List.mem_dedup.mpr (G.mem_links e)

/-- On a single switch every pass of the loop adds a tree, whatever links there are. -/
lemma edstForest_forever (hone : G.verts.length = 1) (numTrees : ℕ) (rnd : Rnd) (fuel : ℕ) :
    edstForest fuel G dst numTrees false rnd = none := by
  have hne : G.verts ≠ [] := List.ne_nil_of_length_pos (by omega)
  have hall : ∀ v w : V, v = w := by
    obtain ⟨x, hx⟩ := List.length_eq_one_iff.mp hone
    intro v w
    have hv := G.mem_verts v
    have hw := G.mem_verts w
    rw [hx, List.mem_singleton] at hv hw
    rw [hv, hw]
  have hnever : ¬ ∃ r, Loop.Returns (edstForestStep G dst numTrees false)
      ⟨[], G.links.dedup, rnd⟩ r :=
    Loop.not_returns_of_forever (fun s => s.availE.Nodup) (by
      intro s hs
      obtain ⟨res, availE, rnd', hrun, hnone, hsome⟩ := edstTree_spec hne dst hs s.rnd
      cases res with
      | none =>
        exact absurd (fun root v => hall root v ▸ Linked.refl root) (hnone rfl)
      | some T =>
        obtain ⟨_, _, hn, _⟩ := hsome T rfl
        exact ⟨⟨s.forest ++ [T], availE, rnd'⟩, by simp [edstForestStep, hrun], hn⟩)
    (List.nodup_dedup _)
  rw [edstForest, if_neg (by simp)]
  cases hrun : Loop.run (edstForestStep G dst numTrees false) fuel ⟨[], G.links.dedup, rnd⟩ with
  | none => rfl
  | some r => exact absurd ⟨r, fuel, hrun⟩ hnever

/-- The forest of a graph with switches is built if and only if there are at least two. -/
theorem edstForest_ends_iff (hne : G.verts ≠ []) (numTrees : ℕ) (rnd : Rnd) :
    EndsByLinks G dst numTrees rnd ↔ 2 ≤ G.verts.length := by
  constructor
  · rintro ⟨fuel, forest, hrun, _⟩
    by_contra hcard
    have hpos := List.length_pos_iff.mpr hne
    rw [edstForest_forever (by omega)] at hrun
    cases hrun
  · exact fun hcard => endsByLinks hcard numTrees rnd

theorem edstForest_ends_iff_doubleLink :
    EndsByLinks doubleLink (some 0) 0 (fun _ => 0) ↔ 2 ≤ doubleLink.verts.length :=
  edstForest_ends_iff (by decide) 0 (fun _ => 0)

/-- The switch of the topology without others. -/
def oneSwitch : PortGraph (Fin 1) (Fin 0) :=
  PortGraph.ofLinks Fin.elim0 Fin.elim0 Fin.elim0 Fin.elim0 [0] [] (fun _ => 1) (by decide)
    (by decide) (by decide) (by decide) (by decide)

/-- A single switch has switches, but its forest is never done. -/
theorem edstForest_oneSwitch :
    oneSwitch.verts ≠ [] ∧ ¬ EndsByLinks oneSwitch (some 0) 0 (fun _ => 0) := by
  refine ⟨by decide, ?_⟩
  rintro ⟨fuel, forest, hrun, _⟩
  rw [edstForest_forever rfl] at hrun
  cases hrun

end ResSim
