import Mathlib.Data.List.Infix
import Mathlib.Data.Option.Basic
import Mathlib.Data.List.Range
import ResSim.Lib.DepthFirst
import ResSim.Lib.FeedbackArcSet

/-!
# Tree transition graphs

A tree transition graph says from which tree of a forest packets may move to which other
tree. All types built here put the trees in levels: an edge stays on its level or leads to
the next one, the first level holds the trees on which packets start, and a tree reaches
every tree of a later level.
-/

namespace ResSim

open Relation

/-- The types of tree transition graphs. -/
inductive TtgType where
  | line
  | nores
  | mlayer
  | alayer
  | t
  | rand
  | maxdag
  deriving DecidableEq

/-- A tree transition graph over the indices of the trees: the edges, the trees of the first
layer, and the rank that the random types give to a tree. -/
structure Ttg where
  size : ℕ
  es : List (ℕ × ℕ)
  l1 : ℕ → Bool
  r : ℕ → ℕ

/-- Whether a packet on tree `x` may come to tree `y`. -/
def Ttg.reach (ttg : Ttg) (x y : ℕ) : Bool := ResSim.reach ttg.es x y

/-! ### The types -/

def ttgCommon (n : ℕ) : Ttg := ⟨n, [], fun _ => false, fun _ => 0⟩

def ttgNores (n : ℕ) : Ttg := { ttgCommon n with l1 := fun _ => true }

def ttgLine (n : ℕ) (numTrees : ℤ) : Option Ttg :=
  if 0 < n ∧ numTrees ≠ 0 ∧ numTrees ≤ n then
    some { ttgCommon n with
      es := (List.range (n - 1)).map (fun i => (i, i + 1))
      l1 := fun i => if numTrees < 0 then i = 0 else (i : ℤ) < n - numTrees + 1 }
  else none

def mredNextWidth (x : ℕ) : ℕ := if 1 < x then (x + 1) / 2 else 1

def aredNextWidth (x : ℕ) : ℕ := if 1 < x - 2 then x - 2 else 1

def tNextWidth (_ : ℕ) : ℕ := 1

/-- The loop that adds layers until they hold all trees. -/
def widthStep (nextWidth : ℕ → ℕ) (n : ℕ) (treesPerLayer : List ℕ) : Step (List ℕ) (List ℕ) :=
  if treesPerLayer.sum < n then
    .next (treesPerLayer ++ [nextWidth (treesPerLayer.getLastD 0)])
  else .done treesPerLayer

/-- Takes the trees that are too many out of the last layer. -/
def trimLast (n : ℕ) (treesPerLayer : List ℕ) : Option (List ℕ) :=
  let last := treesPerLayer.getLastD 0
  if n < treesPerLayer.sum then
    if treesPerLayer.sum - n < last then
      some (treesPerLayer.dropLast ++ [last - (treesPerLayer.sum - n)])
    else none
  else some treesPerLayer

/-- Consecutive indices for the layers. -/
def layerRanges : ℕ → List ℕ → List (List ℕ)
  | _, [] => []
  | s, w :: ws => List.range' s w :: layerRanges (s + w) ws

/-- All edges from each layer to the next. -/
def layerEdges : List (List ℕ) → List (ℕ × ℕ)
  | a :: b :: layers =>
    a.flatMap (fun x => b.map (fun y => (x, y))) ++ layerEdges (b :: layers)
  | _ => []

def ttgLayeredDag (nextWidth : ℕ → ℕ) (n l1width : ℕ) (selfLayer : Bool) : Option Ttg := do
  let grown ← Loop.run (widthStep nextWidth n) (n + 1) [l1width]
  let treesPerLayer ← trimLast n grown
  guard (treesPerLayer.sum = n)
  let layers := layerRanges 0 treesPerLayer
  let edges := layerEdges layers
  let firstLayer := (List.range n).filter (fun v => v ∉ edges.map Prod.snd)
  guard (0 < firstLayer.length)
  let selfEdges := if selfLayer then layers.flatMap steps else []
  some { ttgCommon n with es := edges ++ selfEdges, l1 := fun v => v ∈ firstLayer }

/-- The fully connected graph. -/
def completeEdges (n : ℕ) : List (ℕ × ℕ) :=
  (List.range n).flatMap (fun i => ((List.range n).filter (fun j => i ≠ j)).map (fun j => (i, j)))

def ttgRandBreakCycle (es : List (ℕ × ℕ)) (cycle : List ℕ) (rnd : Rnd) :
    List (ℕ × ℕ) × List (ℕ × ℕ) × Rnd :=
  if ∀ e ∈ steps cycle, e ∈ es then
    match choice (rnd 0) (steps cycle) with
    | none => (es, [], rnd)
    | some e => (es.erase e, [e], rnd.next)
  else (es, [], rnd)

/-- The cycle breaking of `ttg_rand_dag_helper` as an instance of the depth-first search. -/
def ttgRandBreaker : CycleBreaker (List (ℕ × ℕ)) ℕ (ℕ × ℕ) where
  succ es iv := (es.filter (fun e => e.1 = iv)).map Prod.snd
  breakCycle := ttgRandBreakCycle

/-- One more search while the graph has a cycle. -/
def ttgRandRound (fuel size : ℕ) (s : List (ℕ × ℕ) × Rnd) :
    Step (List (ℕ × ℕ) × Rnd) (Option (List (ℕ × ℕ))) :=
  if isDag s.1 then .done (some s.1)
  else
    match ttgRandBreaker.pass fuel (List.range size) s.1 s.2 with
    | none => .done none
    | some (es, _, rnd) => .next (es, rnd)

def ttgRandDagHelper (fuel size : ℕ) (rnd : Rnd) (n : ℕ) : Option (List (ℕ × ℕ)) :=
  (Loop.run (ttgRandRound fuel size) fuel (completeEdges n, rnd)).join

def ttgRandDagHelperOpt (feedbackArcSet : WGraph ℕ → List ℕ) (n : ℕ) : Option (List (ℕ × ℕ)) :=
  let fas := feedbackArcSet ((completeEdges n).map (fun e => (e.1, e.2, 1)))
  some (deleteIds (completeEdges n) fas)

/-- Whether the first `n` trees are connected, whatever the direction of the edges. -/
def weaklyConnected (es : List (ℕ × ℕ)) (n : ℕ) : Bool :=
  (List.range n).all (fun v => reach (es ++ es.map Prod.swap) 0 v)

/-- The edges that lead from the random part through the trees that are left for resilience. -/
def resEdges (n randRes : ℕ) : List (ℕ × ℕ) :=
  let ridx := n - randRes
  if 0 < randRes then
    (List.range ridx).map (fun i => (i, ridx)) ++
      (List.range' ridx (randRes - 1)).map (fun i => (i, i + 1))
  else []

def ttgRandMaxDagCommon (n randRes : ℕ) (helper : ℕ → Option (List (ℕ × ℕ))) : Option Ttg := do
  guard (randRes < n)
  let ridx := n - randRes
  let es ← helper ridx
  guard (isDag es)
  guard (weaklyConnected es ridx)
  guard (∀ i ∈ List.range' ridx randRes, ∀ e ∈ es, e.1 ≠ i ∧ e.2 ≠ i)
  some ⟨n, es ++ resEdges n randRes, fun i => i < ridx, fun i => if i < ridx then 0 else i - ridx + 1⟩

/-- The options that choose a graph. -/
structure TtgArgs where
  ttgType : TtgType
  numTrees : ℤ
  l1width : ℤ
  selfLayer : Bool
  randRes : ℤ

/-- The graph of the type that was asked for; `none` where an argument is refused or an
assertion fails. -/
def ttgOfType (args : TtgArgs) (feedbackArcSet : WGraph ℕ → List ℕ) (fuel n : ℕ) (rnd : Rnd) :
    Option Ttg :=
  match args.ttgType with
  | .line => ttgLine n args.numTrees
  | .nores => some (ttgNores n)
  | .mlayer =>
    if args.l1width ≤ 0 then none
    else ttgLayeredDag mredNextWidth n args.l1width.toNat args.selfLayer
  | .alayer =>
    if args.l1width ≤ 0 then none
    else ttgLayeredDag aredNextWidth n args.l1width.toNat args.selfLayer
  | .t =>
    if args.l1width ≤ 0 then none
    else ttgLayeredDag tNextWidth n args.l1width.toNat args.selfLayer
  | .rand =>
    if args.randRes < 0 then none
    else ttgRandMaxDagCommon n args.randRes.toNat (ttgRandDagHelper fuel n rnd)
  | .maxdag =>
    if args.randRes < 0 then none
    else ttgRandMaxDagCommon n args.randRes.toNat (ttgRandDagHelperOpt feedbackArcSet)

/-- The graph that `main` builds for `n` trees. -/
def buildTtg (args : TtgArgs) (feedbackArcSet : WGraph ℕ → List ℕ) (fuel n : ℕ) (rnd : Rnd) :
    Option Ttg :=
  (ttgOfType args feedbackArcSet fuel n rnd).filter (fun ttg => isDag ttg.es)

/-! ### Levels -/

/-- The levels of a tree transition graph. -/
structure Ttg.Leveled (ttg : Ttg) (lev : ℕ → ℕ) : Prop where
  edge : ∀ x y, (x, y) ∈ ttg.es →
    x < ttg.size ∧ y < ttg.size ∧ (lev y = lev x ∨ lev y = lev x + 1)
  pred : ∀ y < ttg.size, lev y ≠ 0 → ∃ x, (x, y) ∈ ttg.es ∧ lev y = lev x + 1
  l1 : ∀ x < ttg.size, ttg.l1 x = true ↔ lev x = 0
  reaches : ∀ x < ttg.size, ∀ y < ttg.size, lev x < lev y → ttg.reach x y = true

/-- If every tree of a level leads to every tree of the next one, it reaches every tree of
the later levels. -/
lemma Ttg.reach_of_complete {ttg : Ttg} {lev : ℕ → ℕ}
    (hedge : ∀ x y, (x, y) ∈ ttg.es → x < ttg.size)
    (hpred : ∀ y < ttg.size, lev y ≠ 0 → ∃ x, (x, y) ∈ ttg.es ∧ lev y = lev x + 1)
    (hall : ∀ x < ttg.size, ∀ y < ttg.size, lev y = lev x + 1 → (x, y) ∈ ttg.es) {x y : ℕ}
    (hx : x < ttg.size) (hy : y < ttg.size) (hlt : lev x < lev y) : ttg.reach x y = true := by
  rw [Ttg.reach, reach_iff]
  induction hn : lev y using Nat.strong_induction_on generalizing y with
  | _ n ih =>
    obtain ⟨z, hzy, hz⟩ := hpred y hy (by omega)
    by_cases heq : lev x = lev z
    · exact .single (hall x hx y hy (by omega))
    · exact (ih (lev z) (by omega) (hedge z y hzy) (by omega) rfl).tail hzy

lemma leveled_nores (n : ℕ) : (ttgNores n).Leveled (fun _ => 0) where
  edge _ _ h := absurd h List.not_mem_nil
  pred _ _ h := absurd rfl h
  l1 _ _ := ⟨fun _ => rfl, fun _ => rfl⟩
  reaches _ _ _ _ h := absurd h (Nat.lt_irrefl 0)

section Line

variable {n : ℕ} {numTrees : ℤ} {ttg : Ttg}

lemma ttgLine_spec (h : ttgLine n numTrees = some ttg) : ttg.size = n ∧
    (∀ x y, (x, y) ∈ ttg.es ↔ x + 1 < n ∧ y = x + 1) ∧
    ∀ x, ttg.l1 x = true ↔ if numTrees < 0 then x = 0 else (x : ℤ) < n - numTrees + 1 := by
  rw [ttgLine] at h
  split at h
  · rw [Option.some.injEq] at h
    subst h
    refine ⟨rfl, fun x y => ?_, fun x => ?_⟩
    · simp only [List.mem_map, List.mem_range, Prod.mk.injEq]
      constructor
      · rintro ⟨i, hi, rfl, rfl⟩
        exact ⟨by omega, rfl⟩
      · rintro ⟨hx, rfl⟩
        exact ⟨x, by omega, rfl, rfl⟩
    · dsimp only
      split <;> exact decide_eq_true_iff
  · cases h

lemma ttgLine_reach (h : ttgLine n numTrees = some ttg) {x y : ℕ} (hxy : x ≤ y) (hy : y < n) :
    ttg.reach x y = true := by
  obtain ⟨_, hes, _⟩ := ttgLine_spec h
  rw [Ttg.reach, reach_iff]
  induction hxy with
  | refl => exact .refl
  | @step m _ ih => exact (ih (by omega)).tail ((hes m (m + 1)).mpr ⟨hy, rfl⟩)

lemma leveled_line (h : ttgLine n numTrees = some ttg) : ∃ lev, ttg.Leveled lev := by
  obtain ⟨hsize, hes, hl1⟩ := ttgLine_spec h
  have hnum : numTrees ≠ 0 ∧ numTrees ≤ n := by
    rw [ttgLine] at h
    split at h
    · rename_i hcond
      exact ⟨hcond.2.1, hcond.2.2⟩
    · cases h
  refine ⟨fun x => x - (if numTrees < 0 then 0 else n - numTrees.toNat), ?_, ?_, ?_, ?_⟩
  · intro x y hxy
    obtain ⟨hx, rfl⟩ := (hes x y).mp hxy
    rw [hsize]
    omega
  · intro y hy hne
    rw [hsize] at hy
    exact ⟨y - 1, (hes _ _).mpr ⟨by omega, by omega⟩, by omega⟩
  · intro x hx
    rw [hl1]
    split <;> omega
  · intro x _ y hy hlt
    rw [hsize] at hy
    exact ttgLine_reach h (by omega) hy

end Line

section Layered

/-- The layer in which a tree stands. -/
def levelOf (layers : List (List ℕ)) (t : ℕ) : ℕ := layers.findIdx (fun layer => t ∈ layer)

variable {layers : List (List ℕ)}

lemma levelOf_eq (hn : layers.flatten.Nodup) {j : ℕ} {layer : List ℕ}
    (hj : layers[j]? = some layer) {t : ℕ} (ht : t ∈ layer) : levelOf layers t = j := by
  induction layers generalizing j with
  | nil => cases hj
  | cons a layers ih =>
    rw [List.flatten_cons, List.nodup_append] at hn
    rw [levelOf, List.findIdx_cons]
    cases j with
    | zero =>
      obtain rfl : a = layer := Option.some.inj hj
      simp [ht]
    | succ j =>
      rw [List.getElem?_cons_succ] at hj
      have hmem : t ∈ layers.flatten :=
        List.mem_flatten.mpr ⟨layer, List.mem_of_getElem? hj, ht⟩
      have hnot : t ∉ a := fun ha => hn.2.2 t ha t hmem rfl
      have hrec := ih hn.2.1 hj
      rw [levelOf] at hrec
      simp [hnot, hrec]

lemma exists_getElem?_levelOf {t : ℕ} (ht : t ∈ layers.flatten) :
    ∃ layer, layers[levelOf layers t]? = some layer ∧ t ∈ layer := by
  obtain ⟨layer, hl, htl⟩ := List.mem_flatten.mp ht
  have hlt : levelOf layers t < layers.length :=
    List.findIdx_lt_length_of_exists ⟨layer, hl, decide_eq_true htl⟩
  refine ⟨layers[levelOf layers t], List.getElem?_eq_getElem hlt, ?_⟩
  have hfind := List.findIdx_getElem (w := hlt)
  exact of_decide_eq_true hfind

lemma layerRanges_flatten (s : ℕ) (ws : List ℕ) :
    (layerRanges s ws).flatten = List.range' s ws.sum := by
  induction ws generalizing s with
  | nil => rfl
  | cons w ws ih =>
    rw [layerRanges, List.flatten_cons, ih, List.sum_cons, List.range'_append_1]

lemma layerRanges_ne_nil {s : ℕ} {ws : List ℕ} (h : ∀ w ∈ ws, 0 < w) :
    ∀ layer ∈ layerRanges s ws, layer ≠ [] := by
  induction ws generalizing s with
  | nil => exact fun _ hl => absurd hl List.not_mem_nil
  | cons w ws ih =>
    obtain ⟨hw, hws⟩ := List.forall_mem_cons.mp h
    refine List.forall_mem_cons.mpr ⟨?_, ih hws⟩
    rw [← List.length_pos_iff, List.length_range']
    exact hw

lemma mem_layerEdges {x y : ℕ} : (x, y) ∈ layerEdges layers ↔
    ∃ j a b, layers[j]? = some a ∧ layers[j + 1]? = some b ∧ x ∈ a ∧ y ∈ b := by
  induction layers with
  | nil => simp [layerEdges]
  | cons a layers ih =>
    cases layers with
    | nil => simp [layerEdges]
    | cons b layers =>
      have hhead : (x, y) ∈ a.flatMap (fun x => b.map (fun y => (x, y))) ↔ x ∈ a ∧ y ∈ b := by
        simp only [List.mem_flatMap, List.mem_map, Prod.mk.injEq]
        constructor
        · rintro ⟨u, hu, w, hw, rfl, rfl⟩
          exact ⟨hu, hw⟩
        · exact fun h => ⟨x, h.1, y, h.2, rfl, rfl⟩
      rw [layerEdges, List.mem_append, hhead, ih]
      constructor
      · rintro (⟨hx, hy⟩ | ⟨j, a', b', ha, hb, hx, hy⟩)
        · exact ⟨0, a, b, rfl, rfl, hx, hy⟩
        · exact ⟨j + 1, a', b', ha, hb, hx, hy⟩
      · rintro ⟨j, a', b', ha, hb, hx, hy⟩
        cases j with
        | zero =>
          obtain rfl : a = a' := Option.some.inj ha
          obtain rfl : b = b' := Option.some.inj hb
          exact .inl ⟨hx, hy⟩
        | succ j => exact .inr ⟨j, a', b', ha, hb, hx, hy⟩

lemma trimLast_pos {n : ℕ} {ws ws' : List ℕ} (h : trimLast n ws = some ws')
    (hpos : ∀ w ∈ ws, 0 < w) : ∀ w ∈ ws', 0 < w := by
  simp only [trimLast] at h
  split at h
  · split at h
    · rename_i hlt
      rw [Option.some.injEq] at h
      subst h
      intro w hw
      rcases List.mem_append.mp hw with hw | hw
      · exact hpos w (List.mem_of_mem_dropLast hw)
      · rw [List.mem_singleton.mp hw]
        omega
    · cases h
  · rw [Option.some.injEq] at h
    exact h ▸ hpos

/-- The layers of a layered graph: they hold every tree once, and none of them is empty. -/
lemma ttgLayeredDag_spec {nextWidth : ℕ → ℕ} (hnext : ∀ w, 0 < nextWidth w) {n l1width : ℕ}
    (hl1 : 0 < l1width) {selfLayer : Bool} {ttg : Ttg}
    (h : ttgLayeredDag nextWidth n l1width selfLayer = some ttg) :
    ∃ layers : List (List ℕ), layers.flatten = List.range n ∧ (∀ layer ∈ layers, layer ≠ []) ∧
      ttg.size = n ∧
      ttg.es = layerEdges layers ++ (if selfLayer then layers.flatMap steps else []) ∧
      ∀ t, ttg.l1 t = true ↔ t < n ∧ t ∉ (layerEdges layers).map Prod.snd := by
  obtain ⟨grown, hgrown, h⟩ := Option.bind_eq_some_iff.mp h
  obtain ⟨ws, htrim, h⟩ := Option.bind_eq_some_iff.mp h
  obtain ⟨_, hsum, h⟩ := Option.bind_eq_some_iff.mp h
  obtain ⟨_, _, h⟩ := Option.bind_eq_some_iff.mp h
  rw [Option.guard_eq_some'] at hsum
  rw [Option.some.injEq] at h
  subst h
  refine ⟨layerRanges 0 ws, ?_, layerRanges_ne_nil (trimLast_pos htrim ?_), rfl, rfl, fun t => ?_⟩
  · rw [layerRanges_flatten, hsum, List.range_eq_range']
  · refine Loop.Returns.post (fun ws : List ℕ => ∀ w ∈ ws, 0 < w) (fun ws => ∀ w ∈ ws, 0 < w)
      ?_ ?_ ⟨_, hgrown⟩ (List.forall_mem_singleton.mpr hl1)
    · intro ws ws' hpos hn
      rw [widthStep] at hn
      split at hn
      · cases hn
        exact List.forall_mem_append.mpr ⟨hpos, List.forall_mem_singleton.mpr (hnext _)⟩
      · cases hn
    · intro ws ws' hpos hd
      rw [widthStep] at hd
      split at hd
      · cases hd
      · cases hd
        exact hpos
  · rw [decide_eq_true_iff, List.mem_filter, List.mem_range, decide_eq_true_iff]

lemma leveled_levelOf {n : ℕ} {selfLayer : Bool} {ttg : Ttg} (hflat : layers.flatten = List.range n)
    (hne : ∀ layer ∈ layers, layer ≠ []) (hsize : ttg.size = n)
    (hes : ttg.es = layerEdges layers ++ (if selfLayer then layers.flatMap steps else []))
    (hfirst : ∀ t, ttg.l1 t = true ↔ t < n ∧ t ∉ (layerEdges layers).map Prod.snd) :
    ttg.Leveled (levelOf layers) := by
  have hn : layers.flatten.Nodup := hflat ▸ List.nodup_range
  have hmem : ∀ t, t < n ↔ t ∈ layers.flatten := fun t => by rw [hflat, List.mem_range]
  have hin : ∀ j layer t, layers[j]? = some layer → t ∈ layer → t < n := fun j layer t hj ht =>
    (hmem t).mpr (List.mem_flatten.mpr ⟨layer, List.mem_of_getElem? hj, ht⟩)
  have hnext : ∀ x y, (x, y) ∈ layerEdges layers →
      x < n ∧ y < n ∧ levelOf layers y = levelOf layers x + 1 := by
    intro x y hxy
    obtain ⟨j, a, b, ha, hb, hx, hy⟩ := mem_layerEdges.mp hxy
    exact ⟨hin _ _ x ha hx, hin _ _ y hb hy, by rw [levelOf_eq hn ha hx, levelOf_eq hn hb hy]⟩
  have hedge : ∀ x y, (x, y) ∈ ttg.es → x < n ∧ y < n ∧
      (levelOf layers y = levelOf layers x ∨ levelOf layers y = levelOf layers x + 1) := by
    intro x y hxy
    rw [hes, List.mem_append] at hxy
    rcases hxy with hxy | hxy
    · obtain ⟨hx, hy, hlev⟩ := hnext x y hxy
      exact ⟨hx, hy, .inr hlev⟩
    · split at hxy
      · obtain ⟨layer, hl, hxy⟩ := List.mem_flatMap.mp hxy
        obtain ⟨hx, hy⟩ := mem_of_mem_steps hxy
        obtain ⟨j, hj⟩ := List.getElem?_of_mem hl
        exact ⟨hin _ _ x hj hx, hin _ _ y hj hy,
          .inl (by rw [levelOf_eq hn hj hx, levelOf_eq hn hj hy])⟩
      · cases hxy
  have hpred : ∀ y < n, levelOf layers y ≠ 0 →
      ∃ x, (x, y) ∈ layerEdges layers ∧ levelOf layers y = levelOf layers x + 1 := by
    intro y hy hlev
    obtain ⟨b, hb, hyb⟩ := exists_getElem?_levelOf ((hmem y).mp hy)
    obtain ⟨j, hj⟩ := Nat.exists_eq_succ_of_ne_zero hlev
    rw [hj, Nat.succ_eq_add_one] at hb
    have hlt : j < layers.length := by
      have := (List.getElem?_eq_some_iff.mp hb).1
      omega
    have ha : layers[j]? = some layers[j] := List.getElem?_eq_getElem hlt
    obtain ⟨x, hx⟩ := List.exists_mem_of_ne_nil _ (hne _ (List.mem_of_getElem? ha))
    exact ⟨x, mem_layerEdges.mpr ⟨j, _, b, ha, hb, hx, hyb⟩, by rw [levelOf_eq hn ha hx, hj]⟩
  have hleft : ∀ e, e ∈ layerEdges layers → e ∈ ttg.es :=
    fun e he => hes ▸ List.mem_append_left _ he
  constructor
  · rw [hsize]
    exact hedge
  · intro y hy hlev
    obtain ⟨x, hxy, h⟩ := hpred y (hsize ▸ hy) hlev
    exact ⟨x, hleft _ hxy, h⟩
  · intro x hx
    rw [hfirst]
    constructor
    · intro hno
      by_contra hlev
      obtain ⟨z, hz, _⟩ := hpred x hno.1 hlev
      exact hno.2 (List.mem_map.mpr ⟨_, hz, rfl⟩)
    · intro hlev
      refine ⟨hsize ▸ hx, fun hmem => ?_⟩
      obtain ⟨⟨z, x'⟩, hz, heq⟩ := List.mem_map.mp hmem
      obtain rfl : x' = x := heq
      have := (hnext z x' hz).2.2
      omega
  · intro x hx y hy hlt
    refine Ttg.reach_of_complete (fun x y h => by rw [hsize]; exact (hedge x y h).1)
      (fun y hy hlev => ?_) (fun x hx y hy hlev => ?_) hx hy hlt
    · obtain ⟨x, hxy, h⟩ := hpred y (hsize ▸ hy) hlev
      exact ⟨x, hleft _ hxy, h⟩
    · obtain ⟨a, ha, hxa⟩ := exists_getElem?_levelOf ((hmem x).mp (hsize ▸ hx))
      obtain ⟨b, hb, hyb⟩ := exists_getElem?_levelOf ((hmem y).mp (hsize ▸ hy))
      exact hleft _ (mem_layerEdges.mpr ⟨_, a, b, ha, hlev ▸ hb, hxa, hyb⟩)

lemma leveled_layered {nextWidth : ℕ → ℕ} (hnext : ∀ w, 0 < nextWidth w) {n l1width : ℕ}
    (hl1 : 0 < l1width) {selfLayer : Bool} {ttg : Ttg}
    (h : ttgLayeredDag nextWidth n l1width selfLayer = some ttg) :
    ∃ lev, ttg.Leveled lev := by
  obtain ⟨layers, hflat, hne, hsize, hes, hfirst⟩ := ttgLayeredDag_spec hnext hl1 h
  exact ⟨_, leveled_levelOf hflat hne hsize hes hfirst⟩

end Layered

section Random

lemma mem_completeEdges {n x y : ℕ} (h : (x, y) ∈ completeEdges n) : x < n ∧ y < n := by
  obtain ⟨i, hi, h⟩ := List.mem_flatMap.mp h
  obtain ⟨j, hj, heq⟩ := List.mem_map.mp h
  obtain ⟨rfl, rfl⟩ := Prod.ext_iff.mp heq
  exact ⟨List.mem_range.mp hi, List.mem_range.mp (List.mem_filter.mp hj).1⟩

lemma ttgRandBreakCycle_subset (es : List (ℕ × ℕ)) (cycle : List ℕ) (rnd : Rnd) :
    (ttgRandBreakCycle es cycle rnd).1 ⊆ es := by
  rw [ttgRandBreakCycle]
  split
  · split
    · exact List.Subset.refl es
    · exact List.erase_subset
  · exact List.Subset.refl es

lemma ttgRandDagHelper_subset {fuel size n : ℕ} {rnd : Rnd} {es : List (ℕ × ℕ)}
    (h : ttgRandDagHelper fuel size rnd n = some es) : es ⊆ completeEdges n := by
  rw [ttgRandDagHelper, Option.join_eq_some_iff] at h
  have hpost := Loop.Returns.post (fun s : List (ℕ × ℕ) × Rnd => s.1 ⊆ completeEdges n)
    (fun r => ∀ es, r = some es → es ⊆ completeEdges n) ?_ ?_ ⟨fuel, h⟩ (List.Subset.refl _)
  · exact hpost es rfl
  · intro s s' hs hn
    rw [ttgRandRound] at hn
    split at hn
    · cases hn
    · split at hn
      · cases hn
      · rename_i hpass
        cases hn
        exact CycleBreaker.pass_invariant (P := fun es => es ⊆ completeEdges n)
          (fun es c rnd hes => List.Subset.trans (ttgRandBreakCycle_subset es c rnd) hes) hpass hs
  · intro s r hs hd es hes
    rw [ttgRandRound] at hd
    split at hd
    · cases hd
      cases hes
      exact hs
    · split at hd
      · cases hd
        cases hes
      · cases hd

lemma ttgRandDagHelperOpt_subset {feedbackArcSet : WGraph ℕ → List ℕ} {n : ℕ}
    {es : List (ℕ × ℕ)} (h : ttgRandDagHelperOpt feedbackArcSet n = some es) :
    es ⊆ completeEdges n := by
  rw [ttgRandDagHelperOpt, Option.some.injEq] at h
  subst h
  intro e he
  obtain ⟨i, hi, _⟩ := mem_deleteIds.mp he
  exact List.mem_of_getElem? hi

lemma mem_resEdges {n randRes x y : ℕ} : (x, y) ∈ resEdges n randRes ↔
    0 < randRes ∧ (x < n - randRes ∧ y = n - randRes ∨
      n - randRes ≤ x ∧ x + 1 < n - randRes + randRes ∧ y = x + 1) := by
  rw [resEdges]
  by_cases hpos : 0 < randRes
  · rw [if_pos hpos, List.mem_append]
    simp only [List.mem_map, List.mem_range, List.mem_range'_1, Prod.mk.injEq]
    constructor
    · rintro (⟨i, hi, rfl, rfl⟩ | ⟨i, hi, rfl, rfl⟩)
      · exact ⟨hpos, .inl ⟨hi, rfl⟩⟩
      · exact ⟨hpos, .inr ⟨hi.1, by omega, rfl⟩⟩
    · rintro ⟨_, ⟨hx, rfl⟩ | ⟨h₁, h₂, rfl⟩⟩
      · exact .inl ⟨x, hx, rfl, rfl⟩
      · exact .inr ⟨x, ⟨h₁, by omega⟩, rfl, rfl⟩
  · rw [if_neg hpos]
    simp [hpos]

lemma leveled_r {n randRes : ℕ} {helper : ℕ → Option (List (ℕ × ℕ))} {ttg : Ttg}
    (hhelper : ∀ m es, helper m = some es → es ⊆ completeEdges m)
    (h : ttgRandMaxDagCommon n randRes helper = some ttg) : ttg.Leveled ttg.r := by
  obtain ⟨_, hlt, h⟩ := Option.bind_eq_some_iff.mp h
  obtain ⟨es, hes, h⟩ := Option.bind_eq_some_iff.mp h
  obtain ⟨_, _, h⟩ := Option.bind_eq_some_iff.mp h
  obtain ⟨_, _, h⟩ := Option.bind_eq_some_iff.mp h
  obtain ⟨_, _, h⟩ := Option.bind_eq_some_iff.mp h
  rw [Option.guard_eq_some'] at hlt
  rw [Option.some.injEq] at h
  subst h
  let lev : ℕ → ℕ := fun i => if i < n - randRes then 0 else i - (n - randRes) + 1
  have hedge : ∀ x y, (x, y) ∈ es ++ resEdges n randRes →
      x < n ∧ y < n ∧ (lev y = lev x ∨ lev y = lev x + 1) := by
    intro x y hxy
    simp only [lev]
    rcases List.mem_append.mp hxy with hxy | hxy
    · obtain ⟨hx, hy⟩ := mem_completeEdges (hhelper _ es hes hxy)
      rw [if_pos hx, if_pos hy]
      omega
    · obtain ⟨hpos, ⟨hx, rfl⟩ | ⟨h₁, h₂, rfl⟩⟩ := mem_resEdges.mp hxy
      · rw [if_pos hx, if_neg (by omega)]
        omega
      · rw [if_neg (by omega), if_neg (by omega)]
        omega
  have hall : ∀ x < n, ∀ y < n, lev y = lev x + 1 → (x, y) ∈ es ++ resEdges n randRes := by
    intro x hx y hy hlev
    apply List.mem_append_right
    rw [mem_resEdges]
    simp only [lev] at hlev
    split at hlev <;> split at hlev <;> omega
  have hpred : ∀ y < n, lev y ≠ 0 →
      ∃ x, (x, y) ∈ es ++ resEdges n randRes ∧ lev y = lev x + 1 := by
    intro y hy hlev
    have hbefore : ∃ x < n, lev y = lev x + 1 := by
      simp only [lev] at hlev ⊢
      split at hlev
      · omega
      · rw [if_neg (by assumption)]
        by_cases heq : y = n - randRes
        · exact ⟨0, by omega, by rw [if_pos (by omega)]; omega⟩
        · exact ⟨y - 1, by omega, by rw [if_neg (by omega)]; omega⟩
    obtain ⟨x, hx, h⟩ := hbefore
    exact ⟨x, hall x hx y hy h, h⟩
  refine ⟨hedge, hpred, fun x _ => ?_, fun x hx y hy hlt =>
    Ttg.reach_of_complete (fun x y h => (hedge x y h).1) hpred hall hx hy hlt⟩
  simp only [decide_eq_true_eq]
  split <;> simp [*]

end Random

/-- Every graph that is built has levels. -/
theorem leveled_buildTtg {args : TtgArgs} {feedbackArcSet : WGraph ℕ → List ℕ} {fuel n : ℕ}
    {rnd : Rnd} {ttg : Ttg} (h : buildTtg args feedbackArcSet fuel n rnd = some ttg) :
    ∃ lev, ttg.Leveled lev := by
  obtain ⟨h, _⟩ := Option.filter_eq_some_iff.mp h
  have hmred : ∀ w, 0 < mredNextWidth w := by
    intro w
    rw [mredNextWidth]
    split <;> omega
  have hared : ∀ w, 0 < aredNextWidth w := by
    intro w
    rw [aredNextWidth]
    split <;> omega
  have hwidth : ∀ nextWidth : ℕ → ℕ, (∀ w, 0 < nextWidth w) →
      (if args.l1width ≤ 0 then none
        else ttgLayeredDag nextWidth n args.l1width.toNat args.selfLayer) = some ttg →
      ∃ lev, ttg.Leveled lev := by
    intro nextWidth hnext h
    split at h
    · cases h
    · exact leveled_layered hnext (by omega) h
  rw [ttgOfType] at h
  cases hty : args.ttgType <;> rw [hty] at h <;> dsimp only at h
  case line => exact leveled_line h
  case nores =>
    rw [Option.some.injEq] at h
    exact ⟨_, h ▸ leveled_nores n⟩
  case mlayer => exact hwidth _ hmred h
  case alayer => exact hwidth _ hared h
  case t => exact hwidth _ (fun _ => Nat.one_pos) h
  case rand =>
    split at h
    · cases h
    · exact ⟨_, leveled_r (fun _ _ => ttgRandDagHelper_subset) h⟩
  case maxdag =>
    split at h
    · cases h
    · exact ⟨_, leveled_r (fun _ _ => ttgRandDagHelperOpt_subset) h⟩

end ResSim
