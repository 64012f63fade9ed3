import Mathlib.Order.RelClasses
import Mathlib.Data.Prod.Lex
import Mathlib.Tactic.Tauto
import ResSim.Lib.Loop
import ResSim.Trees.ForestPaths

/-!
# Walking a tree forwarding table

A packet carries the tree it is on and the trees it was told have failed. At a switch it
takes the first entry for its tree that leads to a tree not known to have failed over a link
that is up, and is told that the trees of all earlier entries have failed.
-/

namespace ResSim

/-- An entry: the tree to use and the link that must be up, the port, the trees to mark. -/
structure FwdEntry (τ E : Type) where
  ntree : τ
  ue : E
  port : ℕ
  markFailed : List τ

/-- The table of one destination. The entries of a switch are for packets on a tree, or on
no tree yet. -/
abbrev Fwdtable (V τ E : Type) := V → List (Option τ × FwdEntry τ E)

/-- State of the walk. -/
structure TreeWalk (V τ : Type) where
  hops : List ℕ
  ctree : τ
  failedTrees : List τ
  v : V
  failExp : Bool

variable {V E τ : Type} [DecidableEq V] [DecidableEq E] [DecidableEq τ]

/-- The entries for packets on one tree (`none`: on no tree). -/
def keyed (cur : Option τ) (l : List (Option τ × FwdEntry τ E)) : List (FwdEntry τ E) :=
  l.filterMap (fun x => if x.1 = cur then some x.2 else none)

/-- `fwdtable[v][dst, cur]`. -/
def Fwdtable.entries (fwdtable : Fwdtable V τ E) (v : V) (cur : Option τ) :
    List (FwdEntry τ E) := keyed cur (fwdtable v)

/-- The body of the walk. The result is the list of hops, or that the packet was dropped,
with whether it met a failure; no result where an assertion fails. -/
def treeWalkStep (G : PortGraph V E) (fwdtable : Fwdtable V τ E) (dst : V)
    (failedE : Finset E) (failedV : Finset V) (s : TreeWalk V τ) :
    Step (TreeWalk V τ) (Option (Option (List ℕ) × Bool)) :=
  if s.v = dst then .done (some (some s.hops, s.failExp))
  else if s.v ∈ failedV then .done none
  else
    let matchEntry := (fwdtable.entries s.v (some s.ctree)).find? (fun entry =>
      entry.ntree ∉ s.failedTrees ∧ entry.ue ∉ localFailedE G failedE s.v)
    match matchEntry with
    | none => .done (some (none, true))
    | some entry =>
      if entry.ue ∈ failedE then .done none
      else
        match G.ports s.v entry.port with
        | none => .done none
        | some nv =>
          .next {
            hops := s.hops ++ [entry.port]
            ctree := entry.ntree
            failedTrees := s.failedTrees ++ entry.markFailed
            v := nv
            failExp := s.failExp || entry.ntree ≠ s.ctree }

/-- The walk of a packet that starts on the tree `itree`. -/
def fwdtableWalkPathInternal (fuel : ℕ) (G : PortGraph V E) (src dst : V)
    (fwdtable : Fwdtable V τ E) (itree : τ) (failedE : Finset E) (failedV : Finset V) :
    Option (Option (List ℕ) × Bool) :=
  if src ∈ failedV then some (none, true)
  else (Loop.run (treeWalkStep G fwdtable dst failedE failedV) fuel
    ⟨[], itree, [], src, false⟩).join

/-- The result of a walk does not depend on how many steps it was given. -/
lemma fwdtableWalkPathInternal_unique {fuel fuel' : ℕ} {G : PortGraph V E} {src dst : V}
    {fwdtable : Fwdtable V τ E} {itree : τ} {failedE : Finset E} {failedV : Finset V}
    {r r' : Option (List ℕ) × Bool}
    (h : fwdtableWalkPathInternal fuel G src dst fwdtable itree failedE failedV = some r)
    (h' : fwdtableWalkPathInternal fuel' G src dst fwdtable itree failedE failedV = some r') :
    r = r' := by
  rw [fwdtableWalkPathInternal] at h h'
  split at h
  · rw [if_pos ‹_›] at h'
    exact Option.some.inj (h.symm.trans h')
  · rw [if_neg ‹_›] at h'
    rw [Option.join_eq_some_iff] at h h'
    exact Option.some.inj (Loop.Returns.unique ⟨fuel, h⟩ ⟨fuel', h'⟩)

/-- The link over which a tree leaves a switch. -/
def edgeAt (G : PortGraph V E) (fpaths : V → τ → List ℕ) (v : V) (iT : τ) : Option E :=
  (fpaths v iT).head?.bind (G.edges v)

/-- The entries of a switch for packets on one tree: the trees in a given order, each with the
first hop of its path. -/
structure Lists (G : PortGraph V E) (fpaths : V → τ → List ℕ) (v : V) (order : List τ)
    (entries : List (FwdEntry τ E)) : Prop where
  trees : entries.map FwdEntry.ntree = order
  hops : ∀ entry ∈ entries, ∃ ps w q, fpaths v entry.ntree = entry.port :: ps ∧
    G.hop v entry.port = some (entry.ue, w, q)

/-- Entries that also mark the trees before them. -/
structure Listed (G : PortGraph V E) (fpaths : V → τ → List ℕ) (v : V) (order : List τ)
    (entries : List (FwdEntry τ E)) : Prop extends Lists G fpaths v order entries where
  marks : ∀ pre entry post, entries = pre ++ entry :: post →
    entry.markFailed = pre.map FwdEntry.ntree

/-- A tree that a packet passes over at a switch: it is known to have failed, or its link
at the switch is down. -/
def PassedOver (G : PortGraph V E) (fpaths : V → τ → List ℕ) (failedE : Finset E)
    (s : TreeWalk V τ) (iT : τ) : Prop :=
  iT ∈ s.failedTrees ∨ ∃ e ∈ failedE, edgeAt G fpaths s.v iT = some e

section Steps

variable {G : PortGraph V E} {fwdtable : Fwdtable V τ E} {dst : V} {failedE : Finset E}
  {failedV : Finset V} {fpaths : V → τ → List ℕ} {s : TreeWalk V τ} {order : List τ}

lemma treeWalkStep_dst (h : s.v = dst) :
    treeWalkStep G fwdtable dst failedE failedV s = .done (some (some s.hops, s.failExp)) :=
  if_pos h

omit [DecidableEq E] [DecidableEq τ] in
lemma edgeAt_eq {v w : V} {iT : τ} {p q : ℕ} {ps : List ℕ} {e : E}
    (hp : fpaths v iT = p :: ps) (h : G.hop v p = some (e, w, q)) :
    edgeAt G fpaths v iT = some e := by
  rw [edgeAt, hp, List.head?_cons, Option.bind_some, PortGraph.edges_of_hop h]

omit [DecidableEq τ] in
lemma Lists.takes_iff {entries : List (FwdEntry τ E)} (hl : Lists G fpaths s.v order entries)
    {entry : FwdEntry τ E} (hentry : entry ∈ entries) :
    (entry.ntree ∉ s.failedTrees ∧ entry.ue ∉ localFailedE G failedE s.v) ↔
      ¬ PassedOver G fpaths failedE s entry.ntree := by
  obtain ⟨ps, w, q, hp, hhop⟩ := hl.hops entry hentry
  rw [mem_localFailedE hhop, PassedOver, edgeAt_eq hp hhop]
  simp

/-- If every tree of the order is passed over, the packet is dropped. -/
lemma treeWalkStep_dropped (hv : s.v ≠ dst) (hV : s.v ∉ failedV)
    (hl : Lists G fpaths s.v order (fwdtable.entries s.v (some s.ctree)))
    (hall : ∀ iT ∈ order, PassedOver G fpaths failedE s iT) :
    treeWalkStep G fwdtable dst failedE failedV s = .done (some (none, true)) := by
  have hfind : (fwdtable.entries s.v (some s.ctree)).find? (fun entry =>
      entry.ntree ∉ s.failedTrees ∧ entry.ue ∉ localFailedE G failedE s.v) = none := by
    apply List.find?_eq_none.mpr
    intro entry hentry
    rw [decide_eq_true_iff, hl.takes_iff hentry, not_not]
    apply hall
    rw [← hl.trees]
    exact List.mem_map_of_mem hentry
  rw [treeWalkStep, if_neg hv, if_neg hV]
  simp only [hfind]

/-- If some tree of the order is not passed over, the packet takes the first such tree. -/
theorem treeWalkStep_lists (hv : s.v ≠ dst) (hV : s.v ∉ failedV)
    (hl : Lists G fpaths s.v order (fwdtable.entries s.v (some s.ctree)))
    (hex : ∃ iT ∈ order, ¬ PassedOver G fpaths failedE s iT) :
    ∃ pre entry post ps w q,
      fwdtable.entries s.v (some s.ctree) = pre ++ entry :: post ∧
      (∀ t ∈ pre.map FwdEntry.ntree, PassedOver G fpaths failedE s t) ∧
      entry.ntree ∉ s.failedTrees ∧ entry.ue ∉ failedE ∧
      fpaths s.v entry.ntree = entry.port :: ps ∧ G.hop s.v entry.port = some (entry.ue, w, q) ∧
      treeWalkStep G fwdtable dst failedE failedV s =
        .next ⟨s.hops ++ [entry.port], entry.ntree, s.failedTrees ++ entry.markFailed, w,
          s.failExp || decide (entry.ntree ≠ s.ctree)⟩ := by
  cases hfind : (fwdtable.entries s.v (some s.ctree)).find? (fun entry =>
      entry.ntree ∉ s.failedTrees ∧ entry.ue ∉ localFailedE G failedE s.v) with
  | none =>
    exfalso
    obtain ⟨iT, hiT, hn⟩ := hex
    rw [← hl.trees] at hiT
    obtain ⟨entry, hentry, rfl⟩ := List.mem_map.mp hiT
    have h := List.find?_eq_none.mp hfind entry hentry
    rw [decide_eq_true_iff] at h
    exact h ((hl.takes_iff hentry).mpr hn)
  | some entry =>
    obtain ⟨hok, pre, post, heq, hpre⟩ := List.find?_eq_some_iff_append.mp hfind
    rw [decide_eq_true_iff] at hok
    have hentry : entry ∈ fwdtable.entries s.v (some s.ctree) := by
      rw [heq]
      exact List.mem_append_right _ (List.mem_cons_self ..)
    obtain ⟨ps, w, q, hp, hhop⟩ := hl.hops entry hentry
    have hup : entry.ue ∉ failedE := fun he => hok.2 ((mem_localFailedE hhop).mpr he)
    refine ⟨pre, entry, post, ps, w, q, heq, ?_, hok.1, hup, hp, hhop, ?_⟩
    · intro t ht
      obtain ⟨x, hx, rfl⟩ := List.mem_map.mp ht
      have hxmem : x ∈ fwdtable.entries s.v (some s.ctree) := by
        rw [heq]
        exact List.mem_append_left _ hx
      have hnot := hpre x hx
      by_contra hno
      simp only [(hl.takes_iff hxmem).mpr hno, not_false_eq_true, and_self, decide_true, Bool.not_true,
        Bool.false_eq_true] at hnot
    · rw [treeWalkStep, if_neg hv, if_neg hV]
      simp only [hfind, if_neg hup, PortGraph.ports_of_hop hhop]

/-- In a table whose entries mark the trees before them, a packet marks the trees that it
passes over. -/
theorem treeWalkStep_listed (hv : s.v ≠ dst) (hV : s.v ∉ failedV)
    (hl : Listed G fpaths s.v order (fwdtable.entries s.v (some s.ctree)))
    (hex : ∃ iT ∈ order, ¬ PassedOver G fpaths failedE s iT) :
    ∃ pre iT post port ps e w q, order = pre ++ iT :: post ∧
      (∀ t ∈ pre, PassedOver G fpaths failedE s t) ∧ iT ∉ s.failedTrees ∧ e ∉ failedE ∧
      fpaths s.v iT = port :: ps ∧ G.hop s.v port = some (e, w, q) ∧
      treeWalkStep G fwdtable dst failedE failedV s =
        .next ⟨s.hops ++ [port], iT, s.failedTrees ++ pre, w,
          s.failExp || decide (iT ≠ s.ctree)⟩ := by
  obtain ⟨pre, entry, post, ps, w, q, heq, hpass, hnf, hup, hp, hhop, hrun⟩ :=
    treeWalkStep_lists hv hV hl.toLists hex
  refine ⟨pre.map FwdEntry.ntree, entry.ntree, post.map FwdEntry.ntree, entry.port, ps,
    entry.ue, w, q, ?_, hpass, hnf, hup, hp, hhop, ?_⟩
  · rw [← hl.trees, heq, List.map_append, List.map_cons]
  · rw [hrun, hl.marks pre entry post heq]

end Steps

/-! ### Delivery -/

/-- A table over a forest in which every entry marks the trees before it. -/
structure MarkingTable (G : PortGraph V E) (tree : τ → ITree V E) (forest : List τ) (dst : V)
    (fpaths : V → τ → List ℕ) (order : V → τ → List τ) (fwdtable : Fwdtable V τ E) : Prop where
  paths : ∀ iT ∈ forest, TreePaths G (tree iT).adj dst (fun v => fpaths v iT)
  listed : ∀ v, v ≠ dst → ∀ cur ∈ forest,
    Listed G fpaths v (cur :: order v cur) (fwdtable.entries v (some cur))
  nodup : ∀ v, v ≠ dst → ∀ cur ∈ forest, (cur :: order v cur).Nodup
  mem : ∀ v, v ≠ dst → ∀ cur ∈ forest, ∀ t ∈ order v cur, t ∈ forest

/-- What holds of every packet: it came over links that are up, and it is on a tree of the
forest that it does not know to have failed. -/
structure OnTree (G : PortGraph V E) (forest : List τ) (failedE : Finset E) (src : V)
    (s : TreeWalk V τ) : Prop where
  leads : G.Leads failedE src s.hops s.v
  mem : s.ctree ∈ forest
  notFailed : s.ctree ∉ s.failedTrees

/-- One hop of a packet: the tree it takes is the first that it does not pass over. -/
structure TreeHop (G : PortGraph V E) (fpaths : V → τ → List ℕ) (failedE : Finset E)
    (order : V → τ → List τ) (s : TreeWalk V τ) (pre : List τ) (s' : TreeWalk V τ) : Prop where
  split : ∃ post, s.ctree :: order s.v s.ctree = pre ++ s'.ctree :: post
  passed : ∀ t ∈ pre, PassedOver G fpaths failedE s t
  marks : s'.failedTrees = s.failedTrees ++ pre
  notFailed : s'.ctree ∉ s.failedTrees
  link : ∃ port ps e q, fpaths s.v s'.ctree = port :: ps ∧
    G.hop s.v port = some (e, s'.v, q) ∧ e ∉ failedE ∧ s'.hops = s.hops ++ [port]

/-- Trees not known to have failed, and hops left on the current tree. -/
def treeWork (forest : List τ) (fpaths : V → τ → List ℕ) (s : TreeWalk V τ) : ℕ × ℕ :=
  ((forest.filter (fun t => t ∉ s.failedTrees)).length, (fpaths s.v s.ctree).length)

section Delivery

variable {G : PortGraph V E} {fwdtable : Fwdtable V τ E} {dst : V} {failedE : Finset E}
  {fpaths : V → τ → List ℕ} {s : TreeWalk V τ}
  {tree : τ → ITree V E} {forest : List τ} {order : V → τ → List τ} {src : V}
  {s' : TreeWalk V τ} {pre : List τ}

omit [DecidableEq V] [DecidableEq E] in
lemma filter_marked_lt {t : τ} {failed : List τ} (ht : t ∈ forest) (hn : t ∉ failed)
    (hpre : t ∈ pre) : (forest.filter (fun x => x ∉ failed ++ pre)).length <
      (forest.filter (fun x => x ∉ failed)).length := by
  have heq : forest.filter (fun x => x ∉ failed ++ pre) =
      (forest.filter (fun x => x ∉ failed)).filter (fun x => x ∉ pre) := by
    rw [List.filter_filter]
    apply List.filter_congr
    intro x _
    rw [← Bool.decide_and, decide_eq_decide, List.mem_append]
    tauto
  rw [heq]
  apply List.length_filter_lt_length_iff_exists.mpr
  exact ⟨t, List.mem_filter.mpr ⟨ht, decide_eq_true hn⟩, by simp [hpre]⟩

omit [DecidableEq E] in
lemma TreeHop.onTree (ht : MarkingTable G tree forest dst fpaths order fwdtable)
    (hv : s.v ≠ dst) (hs : OnTree G forest failedE src s)
    (h : TreeHop G fpaths failedE order s pre s') : OnTree G forest failedE src s' := by
  obtain ⟨post, hsplit⟩ := h.split
  obtain ⟨port, ps, e, q, _, hhop, he, hhops⟩ := h.link
  have hnodup := ht.nodup s.v hv s.ctree hs.mem
  refine ⟨?_, ?_, ?_⟩
  · rw [hhops]
    exact PortGraph.leads_concat hs.leads hhop he
  · have hmem : s'.ctree ∈ s.ctree :: order s.v s.ctree := by
      rw [hsplit]
      exact List.mem_append_right _ (List.mem_cons_self ..)
    rcases List.mem_cons.mp hmem with heq | hmem
    · rw [heq]
      exact hs.mem
    · exact ht.mem s.v hv s.ctree hs.mem _ hmem
  · rw [h.marks, List.mem_append, not_or]
    refine ⟨h.notFailed, fun hpre => ?_⟩
    rw [hsplit, List.nodup_append] at hnodup
    exact hnodup.2.2 _ hpre _ (List.mem_cons_self ..) rfl

omit [DecidableEq E] in
/-- A hop either stays on the tree and gets closer, or the tree is marked. -/
lemma TreeHop.work_lt (ht : MarkingTable G tree forest dst fpaths order fwdtable)
    (hv : s.v ≠ dst) (hs : OnTree G forest failedE src s)
    (h : TreeHop G fpaths failedE order s pre s') :
    Prod.Lex (· < ·) (· < ·) (treeWork forest fpaths s') (treeWork forest fpaths s) := by
  obtain ⟨post, hsplit⟩ := h.split
  cases pre with
  | nil =>
    obtain ⟨hcur, _⟩ := List.cons.inj hsplit
    obtain ⟨port, ps, e, q, hp, hhop, _, _⟩ := h.link
    obtain ⟨port', ps', e', w', q', hp', hhop', _, hlen⟩ := (ht.paths s.ctree hs.mem).next s.v hv
    rw [← hcur, hp', List.cons.injEq] at hp
    obtain ⟨rfl, rfl⟩ := hp
    rw [hhop', Option.some.injEq, Prod.mk.injEq, Prod.mk.injEq] at hhop
    have hfst : (treeWork forest fpaths s').1 = (treeWork forest fpaths s).1 := by
      simp only [treeWork, h.marks, List.append_nil]
    have hsnd : (treeWork forest fpaths s').2 < (treeWork forest fpaths s).2 := by
      simp only [treeWork]
      rw [← hcur, ← hhop.2.1, hlen, hp', List.length_cons]
      exact Nat.lt_succ_self _
    exact Prod.lex_def.mpr (.inr ⟨hfst, hsnd⟩)
  | cons t pre =>
    obtain ⟨rfl, _⟩ := List.cons.inj hsplit
    refine Prod.lex_def.mpr (.inl ?_)
    simp only [treeWork, h.marks]
    exact filter_marked_lt hs.mem hs.notFailed (List.mem_cons_self ..)

/-- A packet with a tree left that it does not pass over makes a hop. -/
lemma OnTree.exists_hop (ht : MarkingTable G tree forest dst fpaths order fwdtable)
    (hs : OnTree G forest failedE src s) (hv : s.v ≠ dst)
    (hex : ∃ iT ∈ s.ctree :: order s.v s.ctree, ¬ PassedOver G fpaths failedE s iT) :
    ∃ s' pre, treeWalkStep G fwdtable dst failedE ∅ s = .next s' ∧
      TreeHop G fpaths failedE order s pre s' := by
  have hV : s.v ∉ (∅ : Finset V) := Finset.notMem_empty _
  obtain ⟨pre, iT, post, port, ps, e, w, q, hsplit, hpass, hnf, he, hp, hhop, hrun⟩ :=
    treeWalkStep_listed hv hV (ht.listed s.v hv s.ctree hs.mem) hex
  exact ⟨_, pre, hrun, ⟨post, hsplit⟩, hpass, rfl, hnf, port, ps, e, q, hp, hhop, he, rfl⟩

omit [DecidableEq E] [DecidableEq τ] in
lemma onTree_start {itree : τ} (hit : itree ∈ forest) :
    OnTree G forest failedE src ⟨[], itree, [], src, false⟩ where
  leads := rfl
  mem := hit
  notFailed := List.not_mem_nil

/-- An invariant of the packets that always leaves a packet a tree that it does not pass
over. -/
structure Steady (G : PortGraph V E) (forest : List τ) (dst : V) (fpaths : V → τ → List ℕ)
    (order : V → τ → List τ) (fwdtable : Fwdtable V τ E) (failedE : Finset E) (src : V)
    (Inv : TreeWalk V τ → Prop) : Prop where
  hop : ∀ s pre s', Inv s → OnTree G forest failedE src s → s.v ≠ dst →
    treeWalkStep G fwdtable dst failedE ∅ s = .next s' →
    TreeHop G fpaths failedE order s pre s' → Inv s'
  exists_tree : ∀ s, Inv s → OnTree G forest failedE src s → s.v ≠ dst →
    ∃ iT ∈ s.ctree :: order s.v s.ctree, ¬ PassedOver G fpaths failedE s iT

variable {Inv : TreeWalk V τ → Prop}

/-- A steady invariant holds in every state that a packet reaches. -/
theorem Steady.reaches (hinv : Steady G forest dst fpaths order fwdtable failedE src Inv)
    (ht : MarkingTable G tree forest dst fpaths order fwdtable) {itree : τ}
    (hit : itree ∈ forest) (hstart : Inv ⟨[], itree, [], src, false⟩)
    (hr : Loop.Reaches (treeWalkStep G fwdtable dst failedE ∅) ⟨[], itree, [], src, false⟩ s) :
    Inv s ∧ OnTree G forest failedE src s := by
  refine hr.invariant (fun s => Inv s ∧ OnTree G forest failedE src s) ?_
    ⟨hstart, onTree_start hit⟩
  rintro s s' ⟨hi, hs⟩ hn
  by_cases hv : s.v = dst
  · rw [treeWalkStep_dst hv] at hn
    cases hn
  · obtain ⟨s₁, pre, hrun, hhop⟩ := hs.exists_hop ht hv (hinv.exists_tree s hi hs hv)
    have heq := hrun
    rw [hn, Step.next.injEq] at heq
    subst heq
    exact ⟨hinv.hop s pre s' hi hs hv hrun hhop, hhop.onTree ht hv hs⟩

/-- With a steady invariant every packet is delivered. -/
theorem Steady.delivered (hinv : Steady G forest dst fpaths order fwdtable failedE src Inv)
    (ht : MarkingTable G tree forest dst fpaths order fwdtable) {itree : τ}
    (hit : itree ∈ forest) (hstart : Inv ⟨[], itree, [], src, false⟩) :
    ∃ fuel hops failExp, fwdtableWalkPathInternal fuel G src dst fwdtable itree failedE ∅ =
      some (some hops, failExp) ∧ G.Leads failedE src hops dst := by
  let Good : TreeWalk V τ → Prop := fun s => Inv s ∧ OnTree G forest failedE src s
  let Post : Option (Option (List ℕ) × Bool) → Prop := fun r =>
    ∃ hops failExp, r = some (some hops, failExp) ∧ G.Leads failedE src hops dst
  have hbody : ∀ s, Good s →
      (∃ r, treeWalkStep G fwdtable dst failedE ∅ s = .done r ∧ Post r) ∨
      ∃ s', treeWalkStep G fwdtable dst failedE ∅ s = .next s' ∧ Good s' ∧
        Prod.Lex (· < ·) (· < ·) (treeWork forest fpaths s') (treeWork forest fpaths s) := by
    rintro s ⟨hi, hs⟩
    by_cases hv : s.v = dst
    · exact .inl ⟨_, treeWalkStep_dst hv, s.hops, s.failExp, rfl, hv ▸ hs.leads⟩
    · right
      obtain ⟨s', pre, hrun, hhop⟩ := hs.exists_hop ht hv (hinv.exists_tree s hi hs hv)
      exact ⟨s', hrun, ⟨hinv.hop s pre s' hi hs hv hrun hhop, hhop.onTree ht hv hs⟩,
        hhop.work_lt ht hv hs⟩
  obtain ⟨r, ⟨fuel, hfuel⟩, hops, failExp, rfl, hleads⟩ := Loop.returns_of_wellFounded
    (InvImage.wf (treeWork forest fpaths) (WellFounded.prod_lex Nat.lt_wfRel.wf Nat.lt_wfRel.wf))
    Good Post hbody ⟨hstart, onTree_start hit⟩
  refine ⟨fuel, hops, failExp, ?_, hleads⟩
  rw [fwdtableWalkPathInternal, if_neg (Finset.notMem_empty _), hfuel]
  rfl

end Delivery

end ResSim
