import Mathlib.Data.List.Dedup
import Mathlib.Data.List.Perm.Subperm
import ResSim.Lib.DepthFirst

/-!
# Virtual channels and their cycles

The channel dependency graph of a path is a set of dependencies between arcs. Several of
them together form the graph of a virtual channel, a multigraph whose edges remember the
path they come from. `breakCycleCdgVc` breaks a cycle of it by taking out every path that
induces one of the weakest edges of the cycle, so a path is either kept as a whole or taken
out as a whole, and never all of them are taken out.
-/

namespace ResSim

variable {α : Type}

/-- An edge of a virtual channel: a dependency between two arcs, and the path it comes from. -/
structure DepEdge (α : Type) where
  source : α
  target : α
  cdgNum : ℕ
deriving DecidableEq

/-- The channel dependency graph of one path. -/
structure PathCdg (α : Type) where
  cdgNum : ℕ
  deps : List (α × α)
  nodup : deps.Nodup
  acyclic : Acyclic (EdgeRel deps)

/-- The edges of a path's graph, all with the attribute `cdg_num`. -/
def PathCdg.es (cdg : PathCdg α) : List (DepEdge α) :=
  cdg.deps.map (fun d => ⟨d.1, d.2, cdg.cdgNum⟩)

/-- The graph of a virtual channel. -/
structure Vc (α : Type) where
  vs : List α
  es : List (DepEdge α)

/-- The pairs of arcs that the edges of a virtual channel join. -/
def Vc.pairs (vc : Vc α) : List (α × α) := vc.es.map (fun ie => (ie.source, ie.target))

section Definitions

variable [DecidableEq α]

/-- `iv.successors()`: one entry for each edge that leaves `iv`. -/
def Vc.successors (vc : Vc α) (iv : α) : List α :=
  (vc.es.filter (fun ie => ie.source = iv)).map DepEdge.target

/-- Adds the edges of one path's graph; an arc that is no vertex is an error. -/
def Vc.addCdg (vc : Vc α) (cdg : PathCdg α) : Option (Vc α) :=
  if cdg.es.all (fun ie => ie.source ∈ vc.vs ∧ ie.target ∈ vc.vs) then
    some { vc with es := vc.es ++ cdg.es }
  else none

/-- Combines several path graphs into the graph of one virtual channel. -/
def buildCdgVc (A : List α) (cdgs : List (PathCdg α)) : Option (Vc α) :=
  cdgs.foldlM Vc.addCdg ⟨A, []⟩

/-- The edges of a virtual channel that join the two arcs of a step. -/
def Vc.edgesOf (vc : Vc α) (p : α × α) : List (DepEdge α) :=
  vc.es.filter (fun ie => ie.source = p.1 ∧ ie.target = p.2)

/-- The edges to remove when a cycle is to be broken: those of a weakest step. Nothing is
removed if one of the steps has no edge. -/
def weakestEdges (vc : Vc α) (cycle : List α) (draw : ℕ) : Option (List (DepEdge α)) :=
  let cycleEdges := (steps cycle).map vc.edgesOf
  if cycleEdges.any List.isEmpty then none
  else do
    let weakestLen ← (cycleEdges.map List.length).min?
    choice draw (cycleEdges.filter (fun x => x.length = weakestLen))

/-- Breaks a cycle by removing all edges of the paths that induce one of its weakest edges.
The numbers of these paths form a set, which is listed in an arbitrary order. -/
def breakCycleCdgVc (vc : Vc α) (cycle : List α) (rnd : Rnd) : Vc α × List ℕ × Rnd :=
  match weakestEdges vc cycle (rnd 0) with
  | none => (vc, [], rnd)
  | some removeEdges =>
    let removePaths := (removeEdges.map DepEdge.cdgNum).dedup
    ({ vc with es := vc.es.filter (fun ie => ie.cdgNum ∉ removePaths) },
      shuffle (rnd 1) removePaths, rnd.next.next)

/-- The cycle breaking of a virtual channel as an instance of the depth-first search. -/
def cdgBreaker : CycleBreaker (Vc α) α ℕ where
  succ := Vc.successors
  breakCycle := breakCycleCdgVc

/-- One search over the virtual channel; the result lists the paths that were taken out. -/
def removeCyclesCdgVc (fuel : ℕ) (vc : Vc α) (rnd : Rnd) : Option (Vc α × List ℕ × Rnd) :=
  cdgBreaker.pass fuel vc.vs vc rnd

end Definitions

/-- The step relation of a virtual channel. -/
def Vc.Edge (vc : Vc α) (a b : α) : Prop := ∃ ie ∈ vc.es, ie.source = a ∧ ie.target = b

/-! ### Virtual channels as combinations of paths -/

lemma PathCdg.mem_es {cdg : PathCdg α} {ie : DepEdge α} :
    ie ∈ cdg.es ↔ (ie.source, ie.target) ∈ cdg.deps ∧ ie.cdgNum = cdg.cdgNum := by
  obtain ⟨a, b, n⟩ := ie
  simp only [PathCdg.es, List.mem_map, DepEdge.mk.injEq, Prod.exists]
  constructor
  · rintro ⟨c, d, hcd, rfl, rfl, rfl⟩
    exact ⟨hcd, rfl⟩
  · rintro ⟨hab, rfl⟩
    exact ⟨a, b, hab, rfl, rfl, rfl⟩

lemma Vc.mem_successors [DecidableEq α] {vc : Vc α} {a b : α} : b ∈ vc.successors a ↔ vc.Edge a b := by
  simp only [Vc.successors, List.mem_map, List.mem_filter, decide_eq_true_eq, Vc.Edge]
  constructor
  · rintro ⟨ie, ⟨hie, ha⟩, hb⟩
    exact ⟨ie, hie, ha, hb⟩
  · rintro ⟨ie, hie, ha, hb⟩
    exact ⟨ie, ⟨hie, ha⟩, hb⟩

lemma Vc.edgeRel_pairs (vc : Vc α) : EdgeRel vc.pairs = vc.Edge := by
  funext a b
  simp only [EdgeRel, Vc.pairs, List.mem_map, Prod.mk.injEq, Vc.Edge]

lemma Vc.mem_edgesOf [DecidableEq α] {vc : Vc α} {p : α × α} {ie : DepEdge α} :
    ie ∈ vc.edgesOf p ↔ ie ∈ vc.es ∧ ie.source = p.1 ∧ ie.target = p.2 := by
  rw [Vc.edgesOf, List.mem_filter, decide_eq_true_iff]

/-- The arcs of every dependency are vertices. -/
def Covers (A : List α) (cdgs : List (PathCdg α)) : Prop :=
  ∀ cdg ∈ cdgs, ∀ d ∈ cdg.deps, d.1 ∈ A ∧ d.2 ∈ A

lemma Vc.foldlM_addCdg [DecidableEq α] {A : List α} {cdgs : List (PathCdg α)} (h : Covers A cdgs)
    (es : List (DepEdge α)) :
    cdgs.foldlM Vc.addCdg ⟨A, es⟩ = some ⟨A, es ++ cdgs.flatMap PathCdg.es⟩ := by
  induction cdgs generalizing es with
  | nil => simp
  | cons cdg cdgs ih =>
    have hall : cdg.es.all (fun ie => ie.source ∈ A ∧ ie.target ∈ A) = true := by
      rw [List.all_eq_true]
      intro ie hie
      exact decide_eq_true (h cdg (List.mem_cons_self ..) _ (PathCdg.mem_es.mp hie).1)
    rw [List.foldlM_cons, Vc.addCdg, if_pos hall]
    exact (ih (fun c hc => h c (List.mem_cons_of_mem _ hc)) _).trans
      (by rw [List.flatMap_cons, List.append_assoc])

lemma buildCdgVc_eq [DecidableEq α] {A : List α} {cdgs : List (PathCdg α)} (h : Covers A cdgs) :
    buildCdgVc A cdgs = some ⟨A, cdgs.flatMap PathCdg.es⟩ := by
  rw [buildCdgVc, Vc.foldlM_addCdg h, List.nil_append]

/-- The numbers of the paths are pairwise different. -/
def NumsNodup (cdgs : List (PathCdg α)) : Prop := (cdgs.map PathCdg.cdgNum).Nodup

lemma NumsNodup.eq {cdgs : List (PathCdg α)} (h : NumsNodup cdgs) {c c' : PathCdg α}
    (hc : c ∈ cdgs) (hc' : c' ∈ cdgs) (he : c.cdgNum = c'.cdgNum) : c = c' :=
  List.inj_on_of_nodup_map h hc hc' he

/-- What the search keeps: the channel holds the dependencies of the paths not taken out,
every path is taken out at most once, and not all are taken out. -/
structure Kept (A : List α) (cdgs : List (PathCdg α)) (vc : Vc α) (removed : List ℕ) :
    Prop where
  vs_eq : vc.vs = A
  es_eq : vc.es = (cdgs.flatMap PathCdg.es).filter (fun ie => ie.cdgNum ∉ removed)
  nodup : removed.Nodup
  removed_mem : ∀ n ∈ removed, ∃ ie ∈ cdgs.flatMap PathCdg.es, ie.cdgNum = n
  es_ne_nil : removed = [] ∨ vc.es ≠ []

lemma Kept.mem_es {A : List α} {cdgs : List (PathCdg α)} {vc : Vc α} {removed : List ℕ}
    (h : Kept A cdgs vc removed) {ie : DepEdge α} :
    ie ∈ vc.es ↔ (∃ c ∈ cdgs, ie ∈ c.es) ∧ ie.cdgNum ∉ removed := by
  rw [h.es_eq, List.mem_filter, List.mem_flatMap, decide_eq_true_iff]

/-- The ends of every edge are vertices. -/
def Vc.Closed (A : List α) (vc : Vc α) : Prop :=
  vc.vs = A ∧ ∀ ie ∈ vc.es, ie.source ∈ A ∧ ie.target ∈ A

lemma Kept.closed {A : List α} {cdgs : List (PathCdg α)} {vc : Vc α} {removed : List ℕ}
    (hA : Covers A cdgs) (h : Kept A cdgs vc removed) :
    Vc.Closed A vc := by
  refine ⟨h.vs_eq, fun ie hie => ?_⟩
  obtain ⟨⟨c, hc, hiec⟩, _⟩ := h.mem_es.mp hie
  exact hA c hc _ (PathCdg.mem_es.mp hiec).1

lemma kept_init (A : List α) (cdgs : List (PathCdg α)) :
    Kept A cdgs ⟨A, cdgs.flatMap PathCdg.es⟩ [] where
  vs_eq := rfl
  es_eq := by simp
  nodup := List.nodup_nil
  removed_mem := fun _ h => absurd h List.not_mem_nil
  es_ne_nil := .inl rfl

/-! ### Breaking a cycle -/

section Breaking

variable [DecidableEq α] {A : List α} {cdgs : List (PathCdg α)} {vc : Vc α} {removed : List ℕ}

/-- The weakest edges are all the edges of one step of the cycle; every step has edges, and
at least as many. -/
lemma weakestEdges_spec {cycle : List α} {draw : ℕ} {removeEdges : List (DepEdge α)}
    (h : weakestEdges vc cycle draw = some removeEdges) :
    (∃ p ∈ steps cycle, removeEdges = vc.edgesOf p) ∧ removeEdges ≠ [] ∧
      ∀ p ∈ steps cycle, removeEdges.length ≤ (vc.edgesOf p).length := by
  rw [weakestEdges] at h
  split at h
  · cases h
  rename_i hne
  obtain ⟨weakestLen, hmin, hchoice⟩ := Option.bind_eq_some_iff.mp h
  obtain ⟨hmem, hlen⟩ := List.mem_filter.mp (choice_mem hchoice)
  obtain ⟨p, hp, rfl⟩ := List.mem_map.mp hmem
  have hle := (List.min?_eq_some_iff.mp hmin).2
  refine ⟨⟨p, hp, rfl⟩, ?_, fun q hq => ?_⟩
  · intro hnil
    apply hne
    rw [List.any_eq_true]
    exact ⟨_, hmem, by rw [hnil]; rfl⟩
  · rw [decide_eq_true_eq] at hlen
    rw [hlen]
    exact hle _ (List.mem_map_of_mem (List.mem_map_of_mem hq))

lemma Kept.nodup_edgesOf (hc : NumsNodup cdgs) (h : Kept A cdgs vc removed) (p : α × α) :
    ((vc.edgesOf p).map DepEdge.cdgNum).Nodup := by
  have hes : vc.es.Nodup := by
    rw [h.es_eq]
    apply List.Nodup.filter
    rw [List.nodup_flatMap]
    refine ⟨fun cdg _ => ?_, ?_⟩
    · apply cdg.nodup.map
      intro d d' hd
      simpa only [DepEdge.mk.injEq, and_true, ← Prod.ext_iff] using hd
    · have hpw := List.pairwise_map.mp hc
      refine hpw.imp (fun {c c'} hne => ?_)
      intro ie hie hie'
      exact hne ((PathCdg.mem_es.mp hie).2.symm.trans (PathCdg.mem_es.mp hie').2)
  apply (hes.filter _).map_on
  intro ie hie ie' hie' hn
  obtain ⟨_, hs, ht⟩ := Vc.mem_edgesOf.mp hie
  obtain ⟨_, hs', ht'⟩ := Vc.mem_edgesOf.mp hie'
  obtain ⟨a, b, n⟩ := ie
  obtain ⟨a', b', n'⟩ := ie'
  simp only at hs ht hs' ht' hn
  rw [hs, ht, hs', ht', hn]

/-- No path of the channel has a dependency for every step of a closed list. -/
lemma Kept.not_all_steps (hc : NumsNodup cdgs) (h : Kept A cdgs vc removed) {cycle : List α}
    (hcycle : CycleBreaker.IsClosed cycle) (n : ℕ) :
    ¬ ∀ p ∈ steps cycle, n ∈ (vc.edgesOf p).map DepEdge.cdgNum := by
  intro hall
  obtain ⟨x, l, rfl⟩ := hcycle
  have hdep : ∀ p ∈ steps (x :: (l ++ [x])), ∃ c ∈ cdgs, c.cdgNum = n ∧ p ∈ c.deps := by
    intro p hp
    obtain ⟨ie, hie, rfl⟩ := List.mem_map.mp (hall p hp)
    obtain ⟨hmem, hs, ht⟩ := Vc.mem_edgesOf.mp hie
    obtain ⟨⟨c, hcm, hiec⟩, _⟩ := h.mem_es.mp hmem
    obtain ⟨hd, hn⟩ := PathCdg.mem_es.mp hiec
    rw [hs, ht] at hd
    exact ⟨c, hcm, hn.symm, hd⟩
  obtain ⟨q, hq⟩ : ∃ q, q ∈ steps (x :: (l ++ [x])) := by
    cases l with
    | nil => exact ⟨_, List.mem_cons_self ..⟩
    | cons y l => exact ⟨_, List.mem_cons_self ..⟩
  obtain ⟨c, hcm, hcn, _⟩ := hdep q hq
  apply c.acyclic x
  apply transGen_of_steps (l := l)
  intro p hp
  obtain ⟨c', hcm', hcn', hp'⟩ := hdep p hp
  rw [hc.eq hcm hcm' (hcn.trans hcn'.symm)]
  exact hp'

/-- Taking out the paths of a weakest step leaves an edge: otherwise every step would come
from the same paths. -/
lemma Kept.exists_survivor (hc : NumsNodup cdgs) (h : Kept A cdgs vc removed)
    {cycle : List α} (hcycle : CycleBreaker.IsClosed cycle) {draw : ℕ} {removeEdges : List (DepEdge α)}
    (hw : weakestEdges vc cycle draw = some removeEdges) :
    ∃ ie ∈ vc.es, ie.cdgNum ∉ removeEdges.map DepEdge.cdgNum := by
  obtain ⟨_, hne, hmin⟩ := weakestEdges_spec hw
  by_contra hno
  simp only [not_exists, not_and, not_not] at hno
  obtain ⟨ie₀, hie₀⟩ := List.exists_mem_of_ne_nil _ hne
  apply h.not_all_steps hc hcycle ie₀.cdgNum
  intro p hp
  have hsub : (vc.edgesOf p).map DepEdge.cdgNum ⊆ removeEdges.map DepEdge.cdgNum := by
    intro n hn
    obtain ⟨ie, hie, rfl⟩ := List.mem_map.mp hn
    exact hno ie (Vc.mem_edgesOf.mp hie).1
  have hperm : ((vc.edgesOf p).map DepEdge.cdgNum).Perm (removeEdges.map DepEdge.cdgNum) := by
    apply (List.subperm_of_subset (h.nodup_edgesOf hc p) hsub).perm_of_length_le
    rw [List.length_map, List.length_map]
    exact hmin p hp
  exact hperm.mem_iff.mpr (List.mem_map_of_mem hie₀)

lemma Kept.breakCycle (hc : NumsNodup cdgs) (h : Kept A cdgs vc removed) {cycle : List α}
    (hcycle : CycleBreaker.IsClosed cycle) (rnd : Rnd) :
    Kept A cdgs (breakCycleCdgVc vc cycle rnd).1
      (removed ++ (breakCycleCdgVc vc cycle rnd).2.1) := by
  rw [breakCycleCdgVc]
  cases hw : weakestEdges vc cycle (rnd 0) with
  | none =>
    simp only [List.append_nil]
    exact h
  | some removeEdges =>
    obtain ⟨⟨p, _, rfl⟩, _, _⟩ := weakestEdges_spec hw
    obtain ⟨ie, hie, hout⟩ := h.exists_survivor hc hcycle hw
    have hmem : ∀ n, n ∈ shuffle (rnd 1) ((vc.edgesOf p).map DepEdge.cdgNum).dedup ↔
        n ∈ (vc.edgesOf p).map DepEdge.cdgNum := fun n => by rw [mem_shuffle, List.mem_dedup]
    have hin : ∀ n ∈ (vc.edgesOf p).map DepEdge.cdgNum, ∃ ie ∈ vc.es, ie.cdgNum = n := by
      intro n hn
      obtain ⟨ie, hie, rfl⟩ := List.mem_map.mp hn
      exact ⟨ie, (Vc.mem_edgesOf.mp hie).1, rfl⟩
    constructor
    · exact h.vs_eq
    · dsimp only
      rw [h.es_eq, List.filter_filter]
      apply List.filter_congr
      intro e _
      rw [← Bool.decide_and, decide_eq_decide, List.mem_append, hmem, List.mem_dedup]
      tauto
    · rw [List.nodup_append]
      refine ⟨h.nodup, (shuffle_perm ..).nodup_iff.mpr (List.nodup_dedup _), ?_⟩
      rintro n hn m hm rfl
      obtain ⟨e, he, hen⟩ := hin n ((hmem n).mp hm)
      exact (h.mem_es.mp he).2 (hen ▸ hn)
    · intro n hn
      rcases List.mem_append.mp hn with hn | hn
      · exact h.removed_mem n hn
      · obtain ⟨e, he, hen⟩ := hin n ((hmem n).mp hn)
        obtain ⟨⟨c, hcm, hec⟩, _⟩ := h.mem_es.mp he
        exact ⟨e, List.mem_flatMap.mpr ⟨c, hcm, hec⟩, hen⟩
    · right
      apply List.ne_nil_of_mem (a := ie)
      rw [List.mem_filter, decide_eq_true_iff, List.mem_dedup]
      exact ⟨hie, hout⟩

lemma weakestEdges_of_isPath {cycle : List α} (h : cdgBreaker.IsPath vc cycle)
    (hlen : 2 ≤ cycle.length) (draw : ℕ) :
    ∃ removeEdges, weakestEdges vc cycle draw = some removeEdges := by
  have hne : ∀ p ∈ steps cycle, vc.edgesOf p ≠ [] := by
    intro p hp
    obtain ⟨ie, hie, hs, ht⟩ := Vc.mem_successors.mp (isChain_iff_steps.mp h p hp)
    exact List.ne_nil_of_mem (Vc.mem_edgesOf.mpr ⟨hie, hs, ht⟩)
  have hcycle : steps cycle ≠ [] := by
    match cycle, hlen with
    | a :: b :: c, _ => exact List.cons_ne_nil _ _
  rw [weakestEdges, if_neg]
  · have hsome := List.isSome_min?_of_ne_nil (l := ((steps cycle).map vc.edgesOf).map List.length)
      (by simpa using hcycle)
    obtain ⟨weakestLen, hmin⟩ := Option.isSome_iff_exists.mp hsome
    obtain ⟨x, hx, hxl⟩ := List.mem_map.mp (List.min?_mem hmin)
    have hmem : x ∈ ((steps cycle).map vc.edgesOf).filter (fun x => x.length = weakestLen) :=
      List.mem_filter.mpr ⟨hx, decide_eq_true hxl⟩
    obtain ⟨removeEdges, hr⟩ := exists_choice_of_ne_nil draw (List.ne_nil_of_mem hmem)
    exact ⟨removeEdges, by rw [hmin]; exact hr⟩
  · rw [List.any_eq_true]
    rintro ⟨x, hx, he⟩
    obtain ⟨p, hp, rfl⟩ := List.mem_map.mp hx
    exact hne p hp (List.isEmpty_iff.mp he)

lemma breakCycle_length_lt {cycle : List α} {rnd : Rnd} {removeEdges : List (DepEdge α)}
    (hw : weakestEdges vc cycle (rnd 0) = some removeEdges) :
    (breakCycleCdgVc vc cycle rnd).1.es.length < vc.es.length := by
  obtain ⟨⟨p, _, rfl⟩, hne, _⟩ := weakestEdges_spec hw
  obtain ⟨ie, hie⟩ := List.exists_mem_of_ne_nil _ hne
  rw [breakCycleCdgVc, hw]
  apply List.length_filter_lt_length_iff_exists.mpr
  refine ⟨ie, (Vc.mem_edgesOf.mp hie).1, ?_⟩
  rw [decide_eq_true_iff, not_not, List.mem_dedup]
  exact List.mem_map_of_mem hie

lemma cdgBreaker_lawful (A : List α) :
    cdgBreaker.Lawful A (fun vc : Vc α => vc.es.length) (Vc.Closed A) where
  succ_mem := by
    intro vc v w hvc hw
    obtain ⟨ie, hie, _, rfl⟩ := Vc.mem_successors.mp hw
    exact (hvc.2 ie hie).2
  succ_length := by
    intro vc v _
    change ((vc.es.filter (fun ie => ie.source = v)).map DepEdge.target).length ≤ vc.es.length
    rw [List.length_map]
    exact List.length_filter_le _ _
  break_good := by
    intro vc c rnd hvc
    change Vc.Closed A (breakCycleCdgVc vc c rnd).1
    rw [breakCycleCdgVc]
    split
    · exact hvc
    · exact ⟨hvc.1, fun ie hie => hvc.2 ie (List.mem_filter.mp hie).1⟩
  break_eq_or_lt := by
    intro vc c rnd _
    change (breakCycleCdgVc vc c rnd).1 = vc ∨
      (breakCycleCdgVc vc c rnd).1.es.length < vc.es.length
    cases hw : weakestEdges vc c (rnd 0) with
    | none => exact .inl (by rw [breakCycleCdgVc, hw])
    | some removeEdges => exact .inr (breakCycle_length_lt hw)
  break_lt := by
    intro vc c rnd _ hpath hlen
    obtain ⟨removeEdges, hw⟩ := weakestEdges_of_isPath hpath hlen (rnd 0)
    exact breakCycle_length_lt hw

end Breaking

end ResSim
