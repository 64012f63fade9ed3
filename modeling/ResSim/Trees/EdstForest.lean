import ResSim.Lib.Loop
import ResSim.Lib.Random
import ResSim.Lib.UnionFind
import Mathlib.Tactic.Tauto
import ResSim.Trees.SpanningTree

/-!
# Building edge-disjoint spanning trees

A tree is built by joining components over links drawn at random, with a bias against
switches that have many links already. The components are disjoint sets, and the links that
connect a component are kept at its root. The next tree is built from the links that are left,
until they do not connect all switches.
-/

namespace ResSim

variable {V E : Type}

/-- `iG.subgraph_edges`: some of the links, and all switches. -/
def subgraphEdges (G : PortGraph V E) (es : List E) : ITree V E :=
  ⟨false, es.map (fun e => (G.v1 e, G.v2 e, e))⟩

variable [DecidableEq V] [DecidableEq E]

/-! ### One tree -/

/-- State of the loop of `edst_tree`. -/
structure EdstState (V E : Type) where
  availE : List E
  eSet : List E
  pickedE : List E
  edgesAtNode : V → ℕ
  usedEdgeCount : ℕ
  djs : DisjointSets V
  /-- The links of the component of a root. -/
  es : V → List E
  rnd : Rnd

/-- `djs_find`. A recursion visits a switch once at most. -/
def djsFind (G : PortGraph V E) (x : V) (djs : DisjointSets V) : Option (V × DisjointSets V) :=
  djs.find (G.verts.length + 1) x

/-- `djs_union`: the root of the merged component gets the links of both and `e`. -/
def djsUnion (G : PortGraph V E) (x y : V) (e : E) (djs : DisjointSets V) (es : V → List E) :
    Option (DisjointSets V × (V → List E)) := do
  let (xRoot, djs) ← djsFind G x djs
  let (yRoot, djs) ← djsFind G y djs
  let (newRoot, djs) ← djs.link xRoot yRoot
  some (djs, Function.update es newRoot ((es xRoot ∪ es yRoot).insert e))

/-- Draws again, up to `tries` times, while an end of the link has more than two links. -/
def rechoose (G : PortGraph V E) (edgesAtNode : V → ℕ) (eSet : List E) :
    ℕ → E → Rnd → Option (E × Rnd)
  | 0, e, rnd => some (e, rnd)
  | tries + 1, e, rnd =>
    if 2 < edgesAtNode (G.v1 e) ∨ 2 < edgesAtNode (G.v2 e) then do
      let e ← choice (rnd 0) eSet
      rechoose G edgesAtNode eSet tries e rnd.next
    else some (e, rnd)

/-- One pass: a link is drawn, and joins the components of its ends if they are different.
`none` where the source raises. -/
def edstPass (G : PortGraph V E) (s : EdstState V E) : Option (EdstState V E) := do
  let e ← choice (s.rnd 0) s.eSet
  let (e, rnd) ← rechoose G s.edgesAtNode s.eSet 5 e s.rnd.next
  let v1 := G.v1 e
  let v2 := G.v2 e
  let (root1, djs) ← djsFind G v1 s.djs
  let (root2, djs) ← djsFind G v2 djs
  if root1 ≠ root2 then
    guard (e ∈ s.availE)
    let edgesAtNode := Function.update s.edgesAtNode v1 (s.edgesAtNode v1 + 1)
    let (djs, es) ← djsUnion G v1 v2 e djs s.es
    some {
      availE := s.availE.erase e
      eSet := s.eSet.erase e
      pickedE := s.pickedE ++ [e]
      edgesAtNode := Function.update edgesAtNode v2 (edgesAtNode v2 + 1)
      usedEdgeCount := s.usedEdgeCount + 1
      djs, es, rnd }
  else some { s with eSet := s.eSet.erase e, djs, rnd }

def edstStep (G : PortGraph V E) (s : EdstState V E) :
    Step (EdstState V E) (Option (EdstState V E)) :=
  if s.usedEdgeCount < G.verts.length - 1 ∧ 0 < s.eSet.length then
    match edstPass G s with
    | none => .done none
    | some s' => .next s'
  else .done (some s)

def edstStart (availE : List E) (rnd : Rnd) : EdstState V E :=
  ⟨availE, availE, [], fun _ => 0, 0, DisjointSets.makeSets, fun _ => [], rnd⟩

/-- A tree, or `none` if there is none, and the links that remain available. The outer `none` is
an exception. Every pass takes a link off `eSet`, which bounds the passes. -/
def edstTree (G : PortGraph V E) (dst : Option V) (availE : List E) (rnd : Rnd) :
    Option (Option (ITree V E) × List E × Rnd) := do
  let s ← (Loop.run (edstStep G) (availE.length + 1) (edstStart availE rnd)).join
  -- the links of a partial tree are not put back, but no tree is built after that
  if s.usedEdgeCount < G.verts.length - 1 then some (none, s.availE, s.rnd)
  else
    let v ← dst.or G.verts.head?
    let (dstRoot, djs) ← djsFind G v s.djs
    let treeE := s.es dstRoot
    guard (treeE.length = G.verts.length - 1)
    let _ ← G.verts.foldlM (fun djs v => do
      let (root, djs) ← djsFind G v djs
      guard (root = dstRoot)
      some djs) djs
    some (some (subgraphEdges G treeE), s.availE, s.rnd)

/-! ### The forest -/

/-- State of the loop of `edst_forest`. -/
structure EdstForest (V E : Type) where
  forest : List (ITree V E)
  availE : List E
  rnd : Rnd

def edstForestStep (G : PortGraph V E) (dst : Option V) (numTrees : ℕ) (quitEarly : Bool)
    (s : EdstForest V E) : Step (EdstForest V E) (Option (List (ITree V E))) :=
  match edstTree G dst s.availE s.rnd with
  | none => .done none
  | some (none, _) => .done (some s.forest)
  | some (some tree, availE, rnd) =>
    let forest := s.forest ++ [tree]
    if quitEarly ∧ numTrees ≤ forest.length then .done (some forest)
    else .next ⟨forest, availE, rnd⟩

def edstForest (fuel : ℕ) (G : PortGraph V E) (dst : Option V) (numTrees : ℕ) (quitEarly : Bool)
    (rnd : Rnd) : Option (List (ITree V E)) :=
  if quitEarly ∧ numTrees = 0 then some []
  else
    (Loop.run (edstForestStep G dst numTrees quitEarly) fuel ⟨[], G.links.dedup, rnd⟩).join

/-! ### Components -/

section Linked

variable {G : PortGraph V E} {es es' : List E} {x y z : V} {e : E}

omit [DecidableEq E] in
lemma mem_adj_subgraphEdges : (e, y) ∈ (subgraphEdges G es).adj x ↔
    e ∈ es ∧ ((G.v1 e = x ∧ G.v2 e = y) ∨ (G.v1 e = y ∧ G.v2 e = x)) := by
  have hmem : ∀ a b, (a, b, e) ∈ (subgraphEdges G es).es ↔ e ∈ es ∧ G.v1 e = a ∧ G.v2 e = b := by
    intro a b
    simp only [subgraphEdges, List.mem_map, Prod.mk.injEq]
    constructor
    · rintro ⟨e', he', rfl, rfl, rfl⟩
      exact ⟨he', rfl, rfl⟩
    · rintro ⟨he, rfl, rfl⟩
      exact ⟨e, he, rfl, rfl, rfl⟩
  rw [ITree.mem_adj, hmem, hmem]
  simp only [subgraphEdges, true_and]
  tauto

omit [DecidableEq V] [DecidableEq E] in
@[simp] lemma edges_subgraphEdges : (subgraphEdges G es).edges = es := by
  simp [subgraphEdges, ITree.edges, Function.comp_def]

variable (G es) in
/-- Some of the links lead from one switch to another. -/
def Linked (x y : V) : Prop := ∃ p, EdgeWalk (subgraphEdges G es).adj x p y

omit [DecidableEq E] in
lemma Linked.refl (x : V) : Linked G es x x := ⟨[], rfl⟩

omit [DecidableEq E] in
lemma Linked.symm (h : Linked G es x y) : Linked G es y x := by
  obtain ⟨p, hp⟩ := h
  exact ⟨p.reverse, hp.reverse (fun _ _ _ => ITree.adj_symm rfl)⟩

omit [DecidableEq E] in
lemma Linked.trans (h : Linked G es x y) (h' : Linked G es y z) : Linked G es x z := by
  obtain ⟨p, hp⟩ := h
  obtain ⟨q, hq⟩ := h'
  exact ⟨p ++ q, edgeWalk_append.mpr ⟨y, hp, hq⟩⟩

omit [DecidableEq E] in
lemma Linked.mono (hsub : es ⊆ es') (h : Linked G es x y) : Linked G es' x y := by
  obtain ⟨p, hp⟩ := h
  refine ⟨p, hp.mono ?_⟩
  rintro v ⟨e, w⟩ hab
  rw [mem_adj_subgraphEdges] at hab ⊢
  exact ⟨hsub hab.1, hab.2⟩

omit [DecidableEq E] in
lemma linked_of_mem (h : e ∈ es) : Linked G es (G.v1 e) (G.v2 e) :=
  ⟨[e], _, mem_adj_subgraphEdges.mpr ⟨h, .inl ⟨rfl, rfl⟩⟩, rfl⟩

omit [DecidableEq E] in
lemma Linked.eq_of {rep : V → V} (hall : ∀ e ∈ es, rep (G.v1 e) = rep (G.v2 e))
    (h : Linked G es x y) : rep x = rep y := by
  obtain ⟨p, hp⟩ := h
  induction p generalizing x with
  | nil => rw [edgeWalk_nil.mp hp]
  | cons e p ih =>
    obtain ⟨z, hz, hp⟩ := hp
    obtain ⟨he, hends⟩ := mem_adj_subgraphEdges.mp hz
    rcases hends with ⟨rfl, rfl⟩ | ⟨rfl, rfl⟩
    · exact (hall e he).trans (ih hp)
    · exact (hall e he).symm.trans (ih hp)

omit [DecidableEq E] in
/-- If the switches of each component are linked, so are those of two components that a further
link joins. -/
lemma Linked.merge {rep : V → V} (hlinked : ∀ x y, rep x = rep y → Linked G es x y) {root : V}
    (hroot : root = rep (G.v1 e) ∨ root = rep (G.v2 e))
    (h : DisjointSets.merge rep (rep (G.v1 e)) (rep (G.v2 e)) root x =
      DisjointSets.merge rep (rep (G.v1 e)) (rep (G.v2 e)) root y) :
    Linked G (es ++ [e]) x y := by
  have hold : ∀ x y, rep x = rep y → Linked G (es ++ [e]) x y :=
    fun x y hxy => (hlinked x y hxy).mono (List.subset_append_left ..)
  have hends : Linked G (es ++ [e]) (G.v1 e) (G.v2 e) := linked_of_mem (by simp)
  have htoEnd : ∀ v, rep v = rep (G.v1 e) ∨ rep v = rep (G.v2 e) →
      Linked G (es ++ [e]) v (G.v1 e) := by
    rintro v (hv | hv)
    · exact hold _ _ hv
    · exact (hold _ _ hv).trans hends.symm
  by_cases hx : rep x = rep (G.v1 e) ∨ rep x = rep (G.v2 e)
  · have hy := (DisjointSets.merge_eq_root hroot).mp
      (h.symm.trans ((DisjointSets.merge_eq_root hroot).mpr hx))
    exact (htoEnd x hx).trans (htoEnd y hy).symm
  · have hy := fun hy => hx ((DisjointSets.merge_eq_root hroot).mp
      (h.trans ((DisjointSets.merge_eq_root hroot).mpr hy)))
    rw [DisjointSets.merge, if_neg hx, DisjointSets.merge, if_neg hy] at h
    exact hold _ _ h

end Linked

/-! ### One pass -/

section Pass

variable {G : PortGraph V E} {rep : V → V} {djs : DisjointSets V} {x y : V}

omit [DecidableEq E] in
lemma djsFind_eq (h : djs.Represents rep) (x : V) :
    ∃ djs', djsFind G x djs = some (rep x, djs') ∧ djs'.Represents rep := by
  have hfuel : DisjointSets.above G.verts djs x < G.verts.length + 1 :=
    Nat.lt_succ_of_le DisjointSets.above_le
  obtain ⟨djs', hfind, h', _⟩ := h.find G.mem_verts hfuel
  exact ⟨djs', hfind, h'⟩

lemma djsUnion_eq (h : djs.Represents rep) (es : V → List E) (hne : rep x ≠ rep y) (e : E) :
    ∃ root djs', djsUnion G x y e djs es = some (djs', Function.update es root
        ((es (rep x) ∪ es (rep y)).insert e)) ∧
      (root = rep x ∨ root = rep y) ∧
      djs'.Represents (DisjointSets.merge rep (rep x) (rep y) root) := by
  obtain ⟨djs₁, hx, h⟩ := djsFind_eq (G := G) h x
  obtain ⟨djs₂, hy, h⟩ := djsFind_eq (G := G) h y
  obtain ⟨root, djs₃, hlink, hroot, h⟩ := h.link (h.rep_rep x) (h.rep_rep y) hne
  refine ⟨root, djs₃, ?_, hroot, h⟩
  simp [djsUnion, hx, hy, hlink]

omit [DecidableEq V] [DecidableEq E] in
lemma rechoose_mem (edgesAtNode : V → ℕ) {eSet : List E} (tries : ℕ) {e : E} (he : e ∈ eSet)
    (rnd : Rnd) :
    ∃ e' rnd', rechoose G edgesAtNode eSet tries e rnd = some (e', rnd') ∧ e' ∈ eSet := by
  induction tries generalizing e rnd with
  | zero => exact ⟨e, rnd, rfl, he⟩
  | succ tries ih =>
    rw [rechoose]
    split
    · obtain ⟨e', he'⟩ := exists_choice_of_ne_nil (rnd 0) (List.ne_nil_of_mem he)
      rw [he']
      exact ih (choice_mem he') rnd.next
    · exact ⟨e, rnd, rfl, he⟩

end Pass

/-- `rep` gives the components. They are joined by the picked links, which are kept at the
roots, and the links that are not left join no two of them. -/
structure EdstInv (G : PortGraph V E) (avail : List E) (rep : V → V) (s : EdstState V E) :
    Prop where
  djs : s.djs.Represents rep
  nodup_avail : s.availE.Nodup
  nodup_left : s.eSet.Nodup
  nodup_picked : s.pickedE.Nodup
  mem_avail : ∀ e, e ∈ s.availE ↔ e ∈ avail ∧ e ∉ s.pickedE
  left_avail : s.eSet ⊆ s.availE
  picked_avail : s.pickedE ⊆ avail
  joined : ∀ e ∈ avail, e ∉ s.eSet → rep (G.v1 e) = rep (G.v2 e)
  nodup_es : ∀ r, (s.es r).Nodup
  mem_es : ∀ r, rep r = r → ∀ e, e ∈ s.es r ↔ e ∈ s.pickedE ∧ rep (G.v1 e) = r
  used : s.usedEdgeCount = s.pickedE.length
  roots : (DisjointSets.roots G.verts rep).length + s.pickedE.length = G.verts.length
  linked : ∀ x y, rep x = rep y → Linked G s.pickedE x y

section Inv

variable {G : PortGraph V E} {avail : List E} {rep : V → V} {s : EdstState V E}

omit [DecidableEq E] in
lemma edstInv_start (hn : avail.Nodup) (rnd : Rnd) :
    EdstInv G avail id (edstStart avail rnd) where
  djs := DisjointSets.represents_makeSets
  nodup_avail := hn
  nodup_left := hn
  nodup_picked := List.nodup_nil
  mem_avail := by simp [edstStart]
  left_avail := List.Subset.refl _
  picked_avail := List.nil_subset _
  joined e he hleft := absurd he hleft
  nodup_es _ := List.nodup_nil
  mem_es := by simp [edstStart]
  used := rfl
  roots := by simp [edstStart, DisjointSets.roots]
  linked x y h := by
    obtain rfl : x = y := h
    exact Linked.refl x

lemma EdstInv.skip (h : EdstInv G avail rep s) {e : E} (he : rep (G.v1 e) = rep (G.v2 e))
    {djs : DisjointSets V} (hdjs : djs.Represents rep) (rnd : Rnd) :
    EdstInv G avail rep { s with eSet := s.eSet.erase e, djs := djs, rnd := rnd } where
  djs := hdjs
  nodup_avail := h.nodup_avail
  nodup_left := h.nodup_left.erase e
  nodup_picked := h.nodup_picked
  mem_avail := h.mem_avail
  left_avail := fun _ he' => h.left_avail (List.mem_of_mem_erase he')
  picked_avail := h.picked_avail
  joined e' he' hleft := by
    by_cases hee : e' = e
    · rw [hee, he]
    · exact h.joined e' he' (fun hin => hleft ((List.mem_erase_of_ne hee).mpr hin))
  nodup_es := h.nodup_es
  mem_es := h.mem_es
  used := h.used
  roots := h.roots
  linked := h.linked

/-- The links that are kept at the roots after the components of `e` were joined. -/
lemma EdstInv.mem_es_join (h : EdstInv G avail rep s) {e : E} {root : V}
    (hroot : root = rep (G.v1 e) ∨ root = rep (G.v2 e)) :
    ∀ r, DisjointSets.merge rep (rep (G.v1 e)) (rep (G.v2 e)) root r = r → ∀ e',
      e' ∈ Function.update s.es root ((s.es (rep (G.v1 e)) ∪ s.es (rep (G.v2 e))).insert e) r ↔
        e' ∈ s.pickedE ++ [e] ∧
          DisjointSets.merge rep (rep (G.v1 e)) (rep (G.v2 e)) root (G.v1 e') = r := by
  have hrep := h.djs.rep_rep
  have hmerge : ∀ v, DisjointSets.merge rep (rep (G.v1 e)) (rep (G.v2 e)) root v = root ↔
      rep v = rep (G.v1 e) ∨ rep v = rep (G.v2 e) := fun v => DisjointSets.merge_eq_root hroot
  intro r hr e'
  by_cases hrr : r = root
  · have h₁ := h.mem_es _ (hrep (G.v1 e)) e'
    have h₂ := h.mem_es _ (hrep (G.v2 e)) e'
    simp only [hrr, Function.update_self, List.mem_insert_iff, List.mem_union_iff, h₁, h₂,
      hmerge, List.mem_append, List.mem_singleton]
    constructor
    · rintro (rfl | h' | h')
      · exact ⟨.inr rfl, .inl rfl⟩
      · exact ⟨.inl h'.1, .inl h'.2⟩
      · exact ⟨.inl h'.1, .inr h'.2⟩
    · rintro ⟨hp | rfl, hr⟩
      · exact .inr (hr.imp (⟨hp, ·⟩) (⟨hp, ·⟩))
      · exact .inl rfl
  · -- a root that is not merged keeps its links
    have hold : ∀ v, DisjointSets.merge rep (rep (G.v1 e)) (rep (G.v2 e)) root v = r ↔
        rep v = r := fun v => DisjointSets.merge_eq_of_ne hrep hr hrr
    have hne' : rep (G.v1 e) ≠ r := by
      rw [ne_eq, ← hold, (hmerge _).mpr (.inl rfl)]
      exact Ne.symm hrr
    simp only [Function.update_of_ne hrr, h.mem_es r ((hold r).mp hr), hold, List.mem_append,
      List.mem_singleton]
    constructor
    · exact fun h' => ⟨.inl h'.1, h'.2⟩
    · rintro ⟨hp | rfl, hr'⟩
      · exact ⟨hp, hr'⟩
      · exact absurd hr' hne'

lemma EdstInv.join (h : EdstInv G avail rep s) {e : E} (he : e ∈ s.eSet)
    (hne : rep (G.v1 e) ≠ rep (G.v2 e)) {root : V}
    (hroot : root = rep (G.v1 e) ∨ root = rep (G.v2 e)) {djs : DisjointSets V}
    (hdjs : djs.Represents (DisjointSets.merge rep (rep (G.v1 e)) (rep (G.v2 e)) root))
    (edgesAtNode : V → ℕ) (rnd : Rnd) :
    EdstInv G avail (DisjointSets.merge rep (rep (G.v1 e)) (rep (G.v2 e)) root) {
      availE := s.availE.erase e
      eSet := s.eSet.erase e
      pickedE := s.pickedE ++ [e]
      edgesAtNode := edgesAtNode
      usedEdgeCount := s.usedEdgeCount + 1
      djs := djs
      es := Function.update s.es root ((s.es (rep (G.v1 e)) ∪ s.es (rep (G.v2 e))).insert e)
      rnd := rnd } := by
  have hrep := h.djs.rep_rep
  have hin := (h.mem_avail e).mp (h.left_avail he)
  have hmerge : ∀ v, DisjointSets.merge rep (rep (G.v1 e)) (rep (G.v2 e)) root v = root ↔
      rep v = rep (G.v1 e) ∨ rep v = rep (G.v2 e) := fun v => DisjointSets.merge_eq_root hroot
  constructor
  case djs => exact hdjs
  case nodup_avail => exact h.nodup_avail.erase e
  case nodup_left => exact h.nodup_left.erase e
  case nodup_picked =>
    exact List.nodup_append'.mpr ⟨h.nodup_picked, List.nodup_singleton e, by simpa using hin.2⟩
  case mem_avail =>
    intro e'
    rw [h.nodup_avail.mem_erase_iff, h.mem_avail, List.mem_append, List.mem_singleton]
    tauto
  case left_avail =>
    intro e' he'
    rw [h.nodup_left.mem_erase_iff] at he'
    exact h.nodup_avail.mem_erase_iff.mpr ⟨he'.1, h.left_avail he'.2⟩
  case picked_avail => simpa [hin.1] using h.picked_avail
  case joined =>
    intro e' he' hleft
    by_cases hee : e' = e
    · rw [hee, (hmerge _).mpr (.inl rfl), (hmerge _).mpr (.inr rfl)]
    · have := h.joined e' he' (fun hin => hleft ((List.mem_erase_of_ne hee).mpr hin))
      simp only [DisjointSets.merge, this]
  case nodup_es =>
    intro r
    by_cases hr : r = root
    · simp only [hr, Function.update_self]
      exact ((h.nodup_es _).union _).insert
    · simpa [hr] using h.nodup_es r
  case mem_es => exact h.mem_es_join hroot
  case used => simp [h.used]
  case roots =>
    have hlen := DisjointSets.length_roots_merge G.nodup_verts G.mem_verts (hrep (G.v1 e))
      (hrep (G.v2 e)) hne hroot
    have := h.roots
    simp
    omega
  case linked => exact fun x y => Linked.merge h.linked hroot

/-- A pass takes a link off those that are left and keeps the invariant. -/
lemma EdstInv.pass (h : EdstInv G avail rep s) (hleft : s.eSet ≠ []) :
    ∃ rep' s', edstPass G s = some s' ∧ EdstInv G avail rep' s' ∧
      s'.eSet.length < s.eSet.length := by
  obtain ⟨e₀, he₀⟩ := exists_choice_of_ne_nil (s.rnd 0) hleft
  obtain ⟨e, rnd, hre, he⟩ := rechoose_mem (G := G) s.edgesAtNode 5
    (choice_mem he₀) s.rnd.next
  obtain ⟨djs₁, h₁, hdjs⟩ := djsFind_eq (G := G) h.djs (G.v1 e)
  obtain ⟨djs₂, h₂, hdjs⟩ := djsFind_eq (G := G) hdjs (G.v2 e)
  have hlen : (s.eSet.erase e).length < s.eSet.length := by
    have := List.length_pos_of_mem he
    rw [List.length_erase_of_mem he]
    omega
  by_cases hrep : rep (G.v1 e) = rep (G.v2 e)
  · refine ⟨rep, _, ?_, h.skip hrep hdjs rnd, hlen⟩
    simp [edstPass, he₀, hre, h₁, h₂, hrep]
  · obtain ⟨root, djs₃, hu, hroot, hdjs⟩ := djsUnion_eq (G := G) hdjs s.es hrep e
    let edgesAtNode := Function.update s.edgesAtNode (G.v1 e) (s.edgesAtNode (G.v1 e) + 1)
    refine ⟨_, _, ?_, h.join he hrep hroot hdjs
      (Function.update edgesAtNode (G.v2 e) (edgesAtNode (G.v2 e) + 1)) rnd, hlen⟩
    simp [edstPass, he₀, hre, h₁, h₂, hrep, hu, h.left_avail he]
    rfl

lemma edstTree_loop (hn : avail.Nodup) (rnd : Rnd) :
    ∃ rep s, Loop.run (edstStep G) (avail.length + 1) (edstStart avail rnd) = some (some s) ∧
      EdstInv G avail rep s ∧ ¬ (s.usedEdgeCount < G.verts.length - 1 ∧ 0 < s.eSet.length) := by
  let Post : Option (EdstState V E) → Prop := fun r => ∃ rep s, r = some s ∧
    EdstInv G avail rep s ∧ ¬ (s.usedEdgeCount < G.verts.length - 1 ∧ 0 < s.eSet.length)
  have hbody : ∀ s, (∃ rep, EdstInv G avail rep s) → (∃ r, edstStep G s = .done r ∧ Post r) ∨
      ∃ s', edstStep G s = .next s' ∧ (∃ rep, EdstInv G avail rep s') ∧
        s'.eSet.length < s.eSet.length := by
    rintro s ⟨rep, h⟩
    by_cases hs : s.usedEdgeCount < G.verts.length - 1 ∧ 0 < s.eSet.length
    · obtain ⟨rep', s', hpass, h', hlt⟩ := h.pass (List.length_pos_iff.mp hs.2)
      refine .inr ⟨s', ?_, ⟨rep', h'⟩, hlt⟩
      simp [edstStep, hs, hpass]
    · exact .inl ⟨_, if_neg hs, rep, s, rfl, h, hs⟩
  obtain ⟨r, hrun, rep, s, rfl, h⟩ := Loop.run_of_measure (fun s => s.eSet.length)
    (fun s => ∃ rep, EdstInv G avail rep s) Post hbody ⟨id, edstInv_start hn rnd⟩
    (show avail.length < avail.length + 1 by omega)
  exact ⟨rep, s, hrun, h⟩

omit [DecidableEq E] in
lemma EdstInv.rep_mem_roots (h : EdstInv G avail rep s) (v : V) :
    rep v ∈ DisjointSets.roots G.verts rep := by
  simp [DisjointSets.roots, G.mem_verts, h.djs.rep_rep]

omit [DecidableEq E] in
lemma EdstInv.rep_eq (h : EdstInv G avail rep s)
    (hused : ¬ s.usedEdgeCount < G.verts.length - 1) (x y : V) : rep x = rep y := by
  have hx := h.rep_mem_roots x
  have hy := h.rep_mem_roots y
  have hlen : (DisjointSets.roots G.verts rep).length = 1 := by
    have := List.length_pos_of_mem hx
    have := h.roots
    have := h.used
    omega
  obtain ⟨r, hr⟩ := List.length_eq_one_iff.mp hlen
  rw [hr, List.mem_singleton] at hx hy
  rw [hx, hy]

omit [DecidableEq E] in
/-- No link is left and links are missing: the available links leave two components apart. -/
lemma EdstInv.not_spans (h : EdstInv G avail rep s) (hused : s.usedEdgeCount < G.verts.length - 1)
    (hleft : s.eSet = []) : ¬ ∀ root, (subgraphEdges G avail).Spans root := by
  intro hspans
  have hjoined : ∀ e ∈ avail, rep (G.v1 e) = rep (G.v2 e) :=
    fun e he => h.joined e he (by simp [hleft])
  have hlen : 1 < (DisjointSets.roots G.verts rep).length := by
    have := h.roots
    have := h.used
    omega
  have hn : (DisjointSets.roots G.verts rep).Nodup := G.nodup_verts.filter _
  have hroot : ∀ r ∈ DisjointSets.roots G.verts rep, rep r = r := by
    simp [DisjointSets.roots]
  rcases hr : DisjointSets.roots G.verts rep with _ | ⟨a, _ | ⟨b, l⟩⟩
  · simp [hr] at hlen
  · simp [hr] at hlen
  · rw [hr] at hn hroot
    have hab : a = b := by
      rw [← hroot a (by simp), ← hroot b (by simp)]
      exact Linked.eq_of hjoined (hspans a b)
    simp [hab] at hn

omit [DecidableEq E] in
/-- The links at the root of the one component are a spanning tree. -/
lemma EdstInv.isSpanningTree (h : EdstInv G avail rep s)
    (hused : ¬ s.usedEdgeCount < G.verts.length - 1) (v : V) :
    (subgraphEdges G (s.es (rep v))).IsSpanningTree G ∧
      (s.es (rep v)).length = G.verts.length - 1 := by
  have hall := h.rep_eq hused
  have hmem : ∀ e, e ∈ s.es (rep v) ↔ e ∈ s.pickedE := by
    intro e
    rw [h.mem_es _ (h.djs.rep_rep v), hall _ v]
    simp
  have hperm : (s.es (rep v)).Perm s.pickedE :=
    (List.perm_ext_iff_of_nodup (h.nodup_es _) h.nodup_picked).mpr hmem
  have hlen : (s.es (rep v)).length + 1 = G.verts.length := by
    have := List.length_pos_of_mem (h.rep_mem_roots v)
    have := h.roots
    have := h.used
    have := hperm.length_eq
    omega
  refine ⟨⟨rfl, ?_, ?_, ?_⟩, by omega⟩
  · intro ie hie
    obtain ⟨e, _, rfl⟩ := List.mem_map.mp hie
    exact .inl ⟨rfl, rfl⟩
  · exact fun root w => (h.linked root w (hall root w)).mono fun e he => (hmem e).mpr he
  · simpa [subgraphEdges] using hlen

omit [DecidableEq E] in
lemma foldlM_djsFind {r : V} {djs : DisjointSets V} (h : djs.Represents rep)
    (hall : ∀ v, rep v = r) (vs : List V) :
    ∃ djs', vs.foldlM (fun djs v => do
      let (root, djs) ← djsFind G v djs
      guard (root = r)
      some djs) djs = some djs' := by
  induction vs generalizing djs with
  | nil => exact ⟨djs, rfl⟩
  | cons v vs ih =>
    obtain ⟨djs₁, hfind, h⟩ := djsFind_eq (G := G) h v
    obtain ⟨djs', hrest⟩ := ih h
    refine ⟨djs', ?_⟩
    rw [List.foldlM_cons, hfind]
    simpa [hall v] using hrest

/-- `edst_tree` returns without an exception: a spanning tree of available links, which are no
longer available then, or `None` if the available links do not connect the switches. -/
theorem edstTree_spec (hne : G.verts ≠ []) (dst : Option V) (hn : avail.Nodup) (rnd : Rnd) :
    ∃ res availE rnd', edstTree G dst avail rnd = some (res, availE, rnd') ∧
      (res = none → ¬ ∀ root, (subgraphEdges G avail).Spans root) ∧
      ∀ T, res = some T → T.IsSpanningTree G ∧ T.edges ⊆ avail ∧ availE.Nodup ∧
        ∀ e, e ∈ availE ↔ e ∈ avail ∧ e ∉ T.edges := by
  obtain ⟨rep, s, hrun, h, hend⟩ := edstTree_loop (G := G) hn rnd
  by_cases hused : s.usedEdgeCount < G.verts.length - 1
  · have hleft : s.eSet = [] := by
      by_contra hleft
      exact hend ⟨hused, List.length_pos_iff.mpr hleft⟩
    refine ⟨none, s.availE, s.rnd, ?_, fun _ => h.not_spans hused hleft, by simp⟩
    simp [edstTree, hrun, hused]
  · obtain ⟨v, hv⟩ : ∃ v, dst.or G.verts.head? = some v := by
      cases dst with
      | none => exact ⟨_, List.head?_eq_some_head hne⟩
      | some v => exact ⟨v, rfl⟩
    obtain ⟨hT, hlen⟩ := h.isSpanningTree hused v
    obtain ⟨djs, hfind, hdjs⟩ := djsFind_eq (G := G) h.djs v
    obtain ⟨djs', hfold⟩ := foldlM_djsFind (G := G) hdjs (fun w => h.rep_eq hused w v) G.verts
    have hmem : ∀ e, e ∈ s.es (rep v) ↔ e ∈ s.pickedE := by
      intro e
      rw [h.mem_es _ (h.djs.rep_rep v), h.rep_eq hused _ v]
      simp
    refine ⟨some (subgraphEdges G (s.es (rep v))), s.availE, s.rnd, ?_, by simp, ?_⟩
    · simp only [edstTree, hrun, Option.join_some, Option.bind_eq_bind, Option.bind_some, hused,
        if_false, hv, hfind, hlen, guard, if_true]
      apply Option.bind_eq_some_iff.mpr
      exact ⟨(), rfl, Option.bind_eq_some_iff.mpr ⟨djs', hfold, rfl⟩⟩
    · rintro T ⟨rfl⟩
      rw [edges_subgraphEdges]
      refine ⟨hT, fun e he => h.picked_avail ((hmem e).mp he), h.nodup_avail, fun e => ?_⟩
      rw [h.mem_avail, hmem]

end Inv

/-! ### All trees -/

section Forest

variable {G : PortGraph V E} {s : EdstForest V E} {dst : Option V} {numTrees : ℕ}
  {quitEarly : Bool}

/-- The links of a forest. -/
def forestEdges (forest : List (ITree V E)) : List E := forest.flatMap ITree.edges

/-- The trees built so far span and are disjoint, and the other links are available. -/
structure EdstForest.Inv (G : PortGraph V E) (s : EdstForest V E) : Prop where
  trees : ∀ T ∈ s.forest, T.IsSpanningTree G
  nodup : (forestEdges s.forest).Nodup
  nodup_avail : s.availE.Nodup
  mem_avail : ∀ e, e ∈ s.availE ↔ e ∉ forestEdges s.forest

lemma EdstForest.inv_start (rnd : Rnd) : Inv G ⟨[], G.links.dedup, rnd⟩ where
  trees := by simp
  nodup := List.nodup_nil
  nodup_avail := List.nodup_dedup _
  mem_avail := by simp [forestEdges, G.mem_links]

omit [DecidableEq E] in
lemma EdstForest.Inv.add (h : s.Inv G) {T : ITree V E} (hT : T.IsSpanningTree G)
    (hsub : T.edges ⊆ s.availE) {availE : List E} (hn : availE.Nodup)
    (hmem : ∀ e, e ∈ availE ↔ e ∈ s.availE ∧ e ∉ T.edges) (rnd : Rnd) :
    Inv G ⟨s.forest ++ [T], availE, rnd⟩ where
  trees := by
    simp only [List.mem_append, List.mem_singleton]
    rintro T' (hT' | rfl)
    · exact h.trees T' hT'
    · exact hT
  nodup := by
    simp only [forestEdges, List.flatMap_append, List.flatMap_singleton]
    refine List.nodup_append'.mpr ⟨h.nodup, hT.nodup_edges, fun e he he' => ?_⟩
    exact (h.mem_avail e).mp (hsub he') he
  nodup_avail := hn
  mem_avail e := by
    simp [forestEdges, hmem, h.mem_avail]

omit [DecidableEq E] in
lemma ITree.IsSpanningTree.spans_subgraphEdges {T : ITree V E} (hT : T.IsSpanningTree G)
    {es : List E} (hsub : T.edges ⊆ es) (root : V) : (subgraphEdges G es).Spans root := by
  intro v
  obtain ⟨p, hp⟩ := hT.spans root v
  refine ⟨p, hp.mono ?_⟩
  rintro x ⟨e, y⟩ he
  exact mem_adj_subgraphEdges.mpr ⟨hsub (ITree.mem_edges_of_adj he), hT.valid.ends he⟩

/-- `edst_forest` returns. Its trees span, none has a cycle and no link is in two of them; and
the links in no tree do not connect the switches, unless it quits early. -/
theorem edstForest_spec (hcard : 2 ≤ G.verts.length) (dst : Option V) (numTrees : ℕ)
    (quitEarly : Bool) (rnd : Rnd) :
    ∃ fuel forest, edstForest fuel G dst numTrees quitEarly rnd = some forest ∧
      (∀ T ∈ forest, T.IsSpanningTree G) ∧ (forestEdges forest).Nodup ∧
      (quitEarly = false → ¬ ∀ root,
        (subgraphEdges G (G.links.filter (fun e => e ∉ forestEdges forest))).Spans root) := by
  by_cases htrivial : quitEarly ∧ numTrees = 0
  · refine ⟨0, [], if_pos htrivial, by simp, List.nodup_nil, fun hq => ?_⟩
    simp [hq] at htrivial
  have hne : G.verts ≠ [] := by
    rintro hnil
    simp [hnil] at hcard
  let Post : Option (List (ITree V E)) → Prop := fun r => ∃ forest, r = some forest ∧
    (∀ T ∈ forest, T.IsSpanningTree G) ∧ (forestEdges forest).Nodup ∧
    (quitEarly = false → ¬ ∀ root,
      (subgraphEdges G (G.links.filter (fun e => e ∉ forestEdges forest))).Spans root)
  have hbody : ∀ s : EdstForest V E, s.Inv G →
      (∃ r, edstForestStep G dst numTrees quitEarly s = .done r ∧ Post r) ∨
      ∃ s', edstForestStep G dst numTrees quitEarly s = .next s' ∧ s'.Inv G ∧
        s'.availE.length < s.availE.length := by
    intro s h
    obtain ⟨res, availE, rnd', hrun, hnone, hsome⟩ := edstTree_spec hne dst h.nodup_avail s.rnd
    cases res with
    | none =>
      refine .inl ⟨some s.forest, by simp [edstForestStep, hrun], s.forest, rfl, h.trees,
        h.nodup, fun _ hspans => hnone rfl fun root v => ?_⟩
      refine Linked.mono (fun e he => ?_) (hspans root v)
      simpa [h.mem_avail] using (List.mem_filter.mp he).2
    | some T =>
      obtain ⟨hT, hsub, hn, hmem⟩ := hsome T rfl
      have h' := h.add hT hsub hn hmem rnd'
      by_cases hquit : quitEarly ∧ numTrees ≤ (s.forest ++ [T]).length
      · refine .inl ⟨some (s.forest ++ [T]), ?_, _, rfl, h'.trees, h'.nodup, fun hq => ?_⟩
        · simp only [edstForestStep, hrun]
          exact if_pos hquit
        · simp [hq] at hquit
      · refine .inr ⟨_, ?_, h', ?_⟩
        · simp only [edstForestStep, hrun]
          exact if_neg hquit
        · have hperm : availE.Perm (s.availE.filter (fun e => e ∉ T.edges)) := by
            apply (List.perm_ext_iff_of_nodup hn (h.nodup_avail.filter _)).mpr
            intro e
            simp [hmem]
          have hlen : 0 < T.edges.length := by
            have := hT.length_es
            simp [ITree.edges]
            omega
          obtain ⟨e, he⟩ := List.exists_mem_of_length_pos hlen
          rw [hperm.length_eq]
          apply List.length_filter_lt_length_iff_exists.mpr
          exact ⟨e, hsub he, by simp [he]⟩
  obtain ⟨r, hrun, forest, rfl, hpost⟩ := Loop.run_of_measure
    (fun s : EdstForest V E => s.availE.length) (EdstForest.Inv G) Post hbody
    (EdstForest.inv_start rnd) (show G.links.dedup.length < G.links.dedup.length + 1 by omega)
  refine ⟨G.links.dedup.length + 1, forest, ?_, hpost⟩
  rw [edstForest, if_neg htrivial, hrun]
  rfl

end Forest

end ResSim
