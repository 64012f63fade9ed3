import Mathlib.Data.Fin.VecNotation
import Mathlib.Data.List.FinRange
import Mathlib.Data.List.Pairwise
import ResSim.Lib.Disjoint
import ResSim.Lib.ShortestPath
import ResSim.Trees.Edst

/-!
# Arc-disjoint spanning trees

Two trees may use a link in opposite directions, so one failed link can break two trees. The
table therefore lists after each tree its reverse tree, which uses the same link the other
way. It does not list the reverse tree of a reverse tree. If a packet passes over both, the
third tree is not told, and a packet can then run out of trees although fewer links than
trees have failed. Without such a lost bounce every marked tree can be charged to a failed
link of its own, and every packet is delivered.
-/

namespace ResSim

variable {V E τ : Type} [DecidableEq V] [DecidableEq E] [DecidableEq τ]

-- How the arcs of a tree are compared.
local instance instLawfulBEqArc : LawfulBEq (V × E) := inferInstance

/-- The arcs of a tree: the target and the link of every edge. -/
def ITree.arcs (T : ITree V E) : List (V × E) := T.es.map (fun ie => (ie.2.1, ie.2.2))

/-- The assertion that no arc is used twice. -/
def arcsOnce (tree : τ → ITree V E) (rtrees : List τ) : Bool :=
  (rtrees.flatMap (fun iT => (tree iT).arcs)).Nodup

/-- `arc2tree`. -/
def arc2tree (tree : τ → ITree V E) (rtrees : List τ) (a : V × E) : Option τ :=
  rtrees.find? (fun iT => a ∈ (tree iT).arcs)

/-- The tree that uses a link in the opposite direction. -/
def reverseTree (G : PortGraph V E) (tree : τ → ITree V E) (rtrees : List τ) (v : V)
    (port : ℕ) (e : E) : Option τ :=
  (G.getOther e v port).bind (fun other => arc2tree tree rtrees (other.1, e))

section Build

variable (G : PortGraph V E) (tree : τ → ITree V E) (rtrees : List τ)
  (fpaths : V → τ → List ℕ) (v : V)

/-- The entry for a tree, and one for its reverse tree if that was not used before. -/
def withReverse (usedTrees : List τ) (aiT : τ) : Option (List (FwdEntry τ E)) := do
  let entry ← treeEntry G fpaths v aiT usedTrees
  match reverseTree G tree rtrees v entry.port entry.ue with
  | none => some [entry]
  | some raiT =>
    if raiT ∈ usedTrees ++ [aiT] then some [entry]
    else do
      let rentry ← treeEntry G fpaths v raiT (usedTrees ++ [aiT])
      some [entry, rentry]

/-- The entries for the resilient trees not used before, in the given order. -/
def adstAlternates : List τ → List τ → Option (List (FwdEntry τ E))
  | _, [] => some []
  | usedTrees, aiT :: rest =>
    if aiT ∈ usedTrees then adstAlternates usedTrees rest
    else do
      let entries ← withReverse G tree rtrees fpaths v usedTrees aiT
      let later ← adstAlternates (usedTrees ++ entries.map FwdEntry.ntree) rest
      some (entries ++ later)

/-- The entries for packets on the tree `iT`. -/
def adstEntries (shortest : List τ) (iT : τ) : Option (List (FwdEntry τ E)) := do
  let entries ← withReverse G tree rtrees fpaths v [] iT
  let later ← adstAlternates G tree rtrees fpaths v (entries.map FwdEntry.ntree) shortest
  some (entries ++ later)

end Build

/-- The forwarding table for arc-disjoint spanning trees; `none` where an assertion fails. -/
def adstFwdtable (G : PortGraph V E) (tree : τ → ITree V E) (forest : List τ)
    (isDefault : τ → Bool) (fpaths : V → τ → List ℕ) (dst : V) (args : TreeArgs)
    (draw : V → ℕ) : Option (Fwdtable V τ E) :=
  let dtrees := forest.filter isDefault
  let rtrees := forest.filter (fun iT => !isDefault iT)
  if args.accepts dtrees rtrees ∧ arcsOnce tree rtrees then
    tableOf G dst (fun v =>
      let shortest := sortTrees fpaths v (draw v) rtrees
      let startTrees := if 0 < dtrees.length then dtrees else shortest
      switchTable G fpaths v startTrees (dtrees ++ shortest)
        (adstEntries G tree rtrees fpaths v shortest))
  else none

/-- The reverse tree of a tree at a switch. -/
def reverseAt (G : PortGraph V E) (tree : τ → ITree V E) (rtrees : List τ)
    (fpaths : V → τ → List ℕ) (v : V) (iT : τ) : Option τ := do
  let port ← (fpaths v iT).head?
  let e ← G.edges v port
  reverseTree G tree rtrees v port e

/-! ### The order of the entries -/

/-- An order that lists the reverse tree of a tree next, unless it was used before or the
tree is a reverse tree itself. -/
inductive Bounced (rev : τ → Option τ) : List τ → List τ → Prop where
  | nil (usedTrees : List τ) : Bounced rev usedTrees []
  | single {usedTrees order : List τ} {iT : τ} (hrev : ∀ r, rev iT = some r → r ∈ usedTrees ++ [iT])
      (h : Bounced rev (usedTrees ++ [iT]) order) : Bounced rev usedTrees (iT :: order)
  | pair {usedTrees order : List τ} {iT r : τ} (hrev : rev iT = some r)
      (h : Bounced rev (usedTrees ++ [iT, r]) order) : Bounced rev usedTrees (iT :: r :: order)

omit [DecidableEq τ] in
/-- Where the reverse tree of a tree stands: before it, next to it, or nowhere near if the
tree is itself listed as a reverse tree. -/
lemma Bounced.reverse {rev : τ → Option τ} {usedTrees order : List τ}
    (h : Bounced rev usedTrees order) {pre post : List τ} {iT r : τ}
    (hsplit : order = pre ++ iT :: post) (hr : rev iT = some r) :
    r ∈ usedTrees ++ pre ++ [iT] ∨ post.head? = some r ∨
      ∃ pre' a, pre = pre' ++ [a] ∧ rev a = some iT := by
  induction h generalizing pre with
  | nil => simp at hsplit
  | single hrev _ ih =>
    cases pre with
    | nil =>
      obtain ⟨rfl, rfl⟩ := List.cons.inj hsplit
      left
      rw [List.append_nil]
      exact hrev r hr
    | cons t pre =>
      obtain ⟨rfl, htail⟩ := List.cons.inj hsplit
      rcases ih htail with h | h | ⟨pre', a, rfl, ha⟩
      · left
        simpa using h
      · exact .inr (.inl h)
      · exact .inr (.inr ⟨_ :: pre', a, rfl, ha⟩)
  | pair hrev _ ih =>
    match pre with
    | [] =>
      obtain ⟨rfl, rfl⟩ := List.cons.inj hsplit
      rw [hrev, Option.some.injEq] at hr
      exact .inr (.inl (by rw [hr]; rfl))
    | [t] =>
      obtain ⟨rfl, htail⟩ := List.cons.inj hsplit
      obtain ⟨rfl, rfl⟩ := List.cons.inj htail
      exact .inr (.inr ⟨[], _, rfl, hrev⟩)
    | t :: t' :: pre =>
      obtain ⟨rfl, htail⟩ := List.cons.inj hsplit
      obtain ⟨rfl, htail'⟩ := List.cons.inj htail
      rcases ih htail' with h | h | ⟨pre', a, rfl, ha⟩
      · left
        simpa using h
      · exact .inr (.inl h)
      · exact .inr (.inr ⟨_ :: _ :: pre', a, rfl, ha⟩)

section Entries

variable {G : PortGraph V E} {tree : τ → ITree V E} {rtrees : List τ}
  {fpaths : V → τ → List ℕ} {v : V}

omit [DecidableEq E] [DecidableEq τ] in
lemma ListedFrom.append {usedTrees order order' : List τ} {entries entries' : List (FwdEntry τ E)}
    (h : ListedFrom G fpaths v usedTrees order entries)
    (h' : ListedFrom G fpaths v (usedTrees ++ order) order' entries') :
    ListedFrom G fpaths v usedTrees (order ++ order') (entries ++ entries') := by
  induction entries generalizing usedTrees order with
  | nil =>
    obtain rfl : [] = order := h.trees
    simpa using h'
  | cons entry entries ih =>
    have hcons := h.trees
    rw [List.map_cons] at hcons
    subst hcons
    have hm := h.marks [] entry entries rfl
    rw [List.map_nil, List.append_nil] at hm
    have htail : ListedFrom G fpaths v (usedTrees ++ [entry.ntree])
        (entries.map FwdEntry.ntree) entries := by
      refine ⟨rfl, fun pre x post heq => ?_, fun x hx => h.hops x (List.mem_cons_of_mem _ hx)⟩
      rw [h.marks (entry :: pre) x post (by rw [heq]; rfl)]
      simp
    exact (ih htail (by simpa using h')).cons rfl hm (h.hops entry (List.mem_cons_self ..))

omit [DecidableEq τ] in
lemma reverseAt_eq {iT : τ} {port : ℕ} {ps : List ℕ} {e : E} {w : V} {q : ℕ}
    (hp : fpaths v iT = port :: ps) (hhop : G.hop v port = some (e, w, q)) :
    reverseAt G tree rtrees fpaths v iT = reverseTree G tree rtrees v port e := by
  rw [reverseAt, hp, List.head?_cons, Option.bind_eq_bind, Option.bind_some,
    PortGraph.edges_of_hop hhop]
  rfl

omit [DecidableEq τ] in
lemma arc2tree_mem {a : V × E} {r : τ} (h : arc2tree tree rtrees a = some r) : r ∈ rtrees :=
  List.mem_of_find?_eq_some h

omit [DecidableEq τ] in
lemma reverseAt_mem {iT r : τ} (h : reverseAt G tree rtrees fpaths v iT = some r) :
    r ∈ rtrees := by
  obtain ⟨port, _, h⟩ := Option.bind_eq_some_iff.mp h
  obtain ⟨e, _, h⟩ := Option.bind_eq_some_iff.mp h
  obtain ⟨other, _, h⟩ := Option.bind_eq_some_iff.mp h
  exact arc2tree_mem h

omit [DecidableEq τ] in
lemma nodup_concat {l : List τ} {t : τ} (h : l.Nodup) (ht : t ∉ l) : (l ++ [t]).Nodup := by
  rw [List.nodup_append]
  refine ⟨h, List.nodup_singleton t, ?_⟩
  rintro a ha b hb rfl
  exact ht (List.mem_singleton.mp hb ▸ ha)

variable (tree rtrees) in
/-- A tree is entered together with its reverse tree, if that was not used before. -/
lemma exists_withReverse {usedTrees : List τ} (hn : usedTrees.Nodup) {aiT : τ}
    (haiT : aiT ∉ usedTrees) (hhop : HasHop G fpaths v aiT)
    (hr : ∀ t ∈ rtrees, HasHop G fpaths v t) :
    ∃ entries order, withReverse G tree rtrees fpaths v usedTrees aiT = some entries ∧
      ListedFrom G fpaths v usedTrees (aiT :: order) entries ∧
      (usedTrees ++ aiT :: order).Nodup ∧ (∀ t ∈ order, t ∈ rtrees) ∧
      ∀ later, Bounced (reverseAt G tree rtrees fpaths v) (usedTrees ++ aiT :: order) later →
        Bounced (reverseAt G tree rtrees fpaths v) usedTrees (aiT :: order ++ later) := by
  obtain ⟨entry, he, ht, hm, ps, w, q, hp, hh⟩ := exists_treeEntry hhop usedTrees
  have hnodup := nodup_concat hn haiT
  have hrev : reverseAt G tree rtrees fpaths v aiT =
      reverseTree G tree rtrees v entry.port entry.ue := reverseAt_eq hp hh
  have hhead : ∃ ps w q, fpaths v aiT = entry.port :: ps ∧
      G.hop v entry.port = some (entry.ue, w, q) := ⟨ps, w, q, hp, hh⟩
  have halone (hno : ∀ r, reverseAt G tree rtrees fpaths v aiT = some r → r ∈ usedTrees ++ [aiT])
      (hrun : withReverse G tree rtrees fpaths v usedTrees aiT = some [entry]) :
      ∃ entries order, withReverse G tree rtrees fpaths v usedTrees aiT = some entries ∧
        ListedFrom G fpaths v usedTrees (aiT :: order) entries ∧
        (usedTrees ++ aiT :: order).Nodup ∧ (∀ t ∈ order, t ∈ rtrees) ∧
        ∀ later, Bounced (reverseAt G tree rtrees fpaths v) (usedTrees ++ aiT :: order) later →
          Bounced (reverseAt G tree rtrees fpaths v) usedTrees (aiT :: order ++ later) :=
    ⟨[entry], [], hrun, listedFrom_nil.cons ht hm hhead, hnodup, by simp,
      fun later h => .single hno h⟩
  cases hra : reverseTree G tree rtrees v entry.port entry.ue with
  | none =>
    apply halone
    · intro r h
      rw [hrev, hra] at h
      cases h
    · rw [withReverse, he, Option.bind_eq_bind, Option.bind_some, hra]
  | some raiT =>
    by_cases hused : raiT ∈ usedTrees ++ [aiT]
    · apply halone
      · intro r h
        rw [hrev, hra, Option.some.injEq] at h
        exact h ▸ hused
      · rw [withReverse, he, Option.bind_eq_bind, Option.bind_some, hra]
        exact if_pos hused
    · have hmem : raiT ∈ rtrees := reverseAt_mem (hrev.trans hra)
      obtain ⟨rentry, hre, hrt, hrm, hrh⟩ := exists_treeEntry (hr raiT hmem) (usedTrees ++ [aiT])
      have hpair := nodup_concat hnodup hused
      rw [List.append_assoc] at hpair
      refine ⟨[entry, rentry], [raiT], ?_, (listedFrom_nil.cons hrt hrm hrh).cons ht hm hhead,
        hpair, fun t h => List.mem_singleton.mp h ▸ hmem, fun later h => .pair (hrev.trans hra) h⟩
      rw [withReverse, he, Option.bind_eq_bind, Option.bind_some, hra]
      simp only [if_neg hused, hre, Option.bind_some]

variable (tree rtrees) in
lemma exists_adstAlternates {rest usedTrees : List τ} (hrest : ∀ iT ∈ rest, iT ∈ rtrees)
    (hr : ∀ t ∈ rtrees, HasHop G fpaths v t) (hn : usedTrees.Nodup) :
    ∃ entries order, adstAlternates G tree rtrees fpaths v usedTrees rest = some entries ∧
      ListedFrom G fpaths v usedTrees order entries ∧ (usedTrees ++ order).Nodup ∧
      (∀ t ∈ rest, t ∈ usedTrees ++ order) ∧ (∀ t ∈ order, t ∈ rtrees) ∧
      Bounced (reverseAt G tree rtrees fpaths v) usedTrees order := by
  induction rest generalizing usedTrees with
  | nil => exact ⟨[], [], rfl, listedFrom_nil, by simpa using hn, by simp, by simp, .nil _⟩
  | cons aiT rest ih =>
    have hrest' : ∀ iT ∈ rest, iT ∈ rtrees := fun iT hiT => hrest iT (List.mem_cons_of_mem _ hiT)
    by_cases hused : aiT ∈ usedTrees
    · obtain ⟨entries, order, hrun, hl, hnodup, hall, hmem, hb⟩ := ih hrest' hn
      refine ⟨entries, order, by rw [adstAlternates, if_pos hused, hrun], hl, hnodup, ?_, hmem, hb⟩
      exact List.forall_mem_cons.mpr ⟨List.mem_append_left _ hused, hall⟩
    · have haiT := hrest aiT (List.mem_cons_self ..)
      obtain ⟨entries, order, hrun, hl, hnodup, hmem, hb⟩ :=
        exists_withReverse tree rtrees hn hused (hr aiT haiT) hr
      obtain ⟨later, order', hrun', hl', hnodup', hall', hmem', hb'⟩ := ih hrest' hnodup
      refine ⟨entries ++ later, aiT :: order ++ order', ?_, hl.append hl', ?_, ?_, ?_, hb _ hb'⟩
      · rw [adstAlternates, if_neg hused, hrun, Option.bind_eq_bind, Option.bind_some, hl.trees,
          hrun']
        rfl
      · rwa [← List.append_assoc]
      · rw [← List.append_assoc]
        exact List.forall_mem_cons.mpr ⟨by simp, hall'⟩
      · intro t ht
        rcases List.mem_append.mp ht with ht | ht
        · exact (List.mem_cons.mp ht).elim (fun h => h ▸ haiT) (hmem t)
        · exact hmem' t ht

/-- The trees in the entries for `iT`: that tree first, every other resilient tree once, and
reverse trees next to the trees that they reverse. -/
lemma exists_adstEntries {shortest : List τ} {iT : τ} (hiT : HasHop G fpaths v iT)
    (hs : ∀ t, t ∈ shortest ↔ t ∈ rtrees) (hr : ∀ t ∈ rtrees, HasHop G fpaths v t) :
    ∃ entries order, adstEntries G tree rtrees fpaths v shortest iT = some entries ∧
      Listed G fpaths v (iT :: order) entries ∧ (iT :: order).Nodup ∧
      (∀ t, t ∈ iT :: order ↔ t = iT ∨ t ∈ rtrees) ∧
      Bounced (reverseAt G tree rtrees fpaths v) [] (iT :: order) := by
  obtain ⟨entries, order, hrun, hl, hnodup, hmem, hb⟩ :=
    exists_withReverse tree rtrees List.nodup_nil List.not_mem_nil hiT hr
  obtain ⟨later, order', hrun', hl', hnodup', hall', hmem', hb'⟩ :=
    exists_adstAlternates tree rtrees (fun t ht => (hs t).mp ht) hr hnodup
  refine ⟨entries ++ later, order ++ order', ?_, (hl.append hl').listed, by simpa using hnodup',
    ?_, hb _ hb'⟩
  · rw [adstEntries, hrun, Option.bind_eq_bind, Option.bind_some, hl.trees]
    rw [List.nil_append] at hrun'
    rw [hrun']
    rfl
  · intro t
    constructor
    · intro ht
      rcases List.mem_cons.mp ht with ht | ht
      · exact .inl ht
      · exact .inr ((List.mem_append.mp ht).elim (hmem t) (hmem' t))
    · rintro (rfl | ht)
      · exact List.mem_cons_self ..
      · simpa using hall' t ((hs t).mpr ht)

end Entries

/-! ### Delivery -/

section Delivery

variable {G : PortGraph V E} {tree : τ → ITree V E} {forest : List τ} {isDefault : τ → Bool}
  {dst : V} {args : TreeArgs} {fpaths : V → τ → List ℕ}

omit [DecidableEq V] in
lemma arcs_unique {rtrees : List τ} [DecidableEq V] (h : arcsOnce tree rtrees = true) {a : V × E}
    {s t : τ} (hs : s ∈ rtrees) (ht : t ∈ rtrees) (has : a ∈ (tree s).arcs)
    (hat : a ∈ (tree t).arcs) : s = t := by
  by_contra hne
  have hpair := (List.nodup_flatMap.mp (of_decide_eq_true h)).2
  have : Std.Symm (Function.onFun List.Disjoint (fun iT => (tree iT).arcs)) :=
    ⟨fun _ _ hd => hd.symm⟩
  exact hpair.forall hs ht hne has hat

omit [DecidableEq E] [DecidableEq τ] in
/-- A link that a directed tree uses at a switch is an arc of the tree into that switch. -/
lemma TreePaths.mem_arcs {T : ITree V E} {iT : τ} {v : V} {e : E}
    (h : TreePaths G T.adj dst (fun v => fpaths v iT)) (hd : T.directed = true) (hv : v ≠ dst)
    (he : edgeAt G fpaths v iT = some e) : (v, e) ∈ T.arcs := by
  obtain ⟨port, ps, e', w, q, hp, hhop, hadj, _⟩ := h.next v hv
  rw [edgeAt_eq hp hhop, Option.some.injEq] at he
  subst he
  rcases ITree.mem_adj.mp hadj with hmem | ⟨hno, _⟩
  · exact List.mem_map.mpr ⟨_, hmem, rfl⟩
  · rw [hd] at hno
    cases hno

/-- The table is built, marks trees as every entry should, lists for each tree that tree and
the resilient trees, and reverse trees next to the trees that they reverse. -/
lemma TreeForest.adst_table (hf : TreeForest G tree forest isDefault dst args)
    (harcs : arcsOnce tree (forest.filter (fun iT => !isDefault iT)) = true)
    (hpaths : ∀ iT ∈ forest, TreePaths G (tree iT).adj dst (fun v => fpaths v iT))
    (draw : V → ℕ) :
    ∃ table order, adstFwdtable G tree forest isDefault fpaths dst args draw = some table ∧
      MarkingTable G tree forest dst fpaths order table ∧
      (∀ v, v ≠ dst → ∀ cur ∈ forest, ∀ t, t ∈ cur :: order v cur ↔
        t = cur ∨ t ∈ forest.filter (fun iT => !isDefault iT)) ∧
      (∀ v, v ≠ dst → ∀ cur ∈ forest,
        Bounced (reverseAt G tree (forest.filter (fun iT => !isDefault iT)) fpaths v) []
          (cur :: order v cur)) ∧
      ∀ v, ∀ entry ∈ table.entries v none, entry.ntree ∈ forest := by
  let rtrees := forest.filter (fun iT => !isDefault iT)
  have hforest : ∀ t ∈ rtrees, t ∈ forest := fun t ht => (List.mem_filter.mp ht).1
  have hentries : ∀ v, v ≠ dst → ∀ cur ∈ forest, ∃ entries order,
      adstEntries G tree rtrees fpaths v (sortTrees fpaths v (draw v) rtrees) cur = some entries ∧
      Listed G fpaths v (cur :: order) entries ∧ (cur :: order).Nodup ∧
      (∀ t, t ∈ cur :: order ↔ t = cur ∨ t ∈ rtrees) ∧
      Bounced (reverseAt G tree rtrees fpaths v) [] (cur :: order) :=
    fun v hv cur hcur => exists_adstEntries ((hpaths cur hcur).hasHop hv)
      (fun t => mem_sortTrees) (fun t ht => (hpaths t (hforest t ht)).hasHop hv)
  choose! entries order hrun hlisted hnodup hmem hbounced using hentries
  have hin : ∀ v, v ≠ dst → ∀ cur ∈ forest, ∀ t ∈ order v cur, t ∈ forest := by
    intro v hv cur hcur t ht
    rcases (hmem v hv cur hcur t).mp (List.mem_cons_of_mem _ ht) with rfl | h
    · exact hcur
    · exact hforest t h
  obtain ⟨table, htable, ht, hstart⟩ := hf.exists_table hpaths draw hrun hlisted hnodup hin
  refine ⟨table, order, ?_, ht, hmem, hbounced, hstart⟩
  rw [adstFwdtable, if_pos ⟨hf.accepts, harcs⟩]
  exact htable

/-- Whenever a packet passes over a tree and its reverse tree, which it did not know to have
failed, the reverse tree of that one is not lost: it is known to have failed, passed over
too, or taken. -/
def NoLostBounce (G : PortGraph V E) (tree : τ → ITree V E) (rtrees : List τ)
    (fpaths : V → τ → List ℕ) (fwdtable : Fwdtable V τ E) (failedE : Finset E)
    (s : TreeWalk V τ) : Prop :=
  ∀ pre taken post,
    (fwdtable.entries s.v (some s.ctree)).map FwdEntry.ntree = pre ++ taken :: post →
    (∀ t ∈ pre, PassedOver G fpaths failedE s t) → ¬ PassedOver G fpaths failedE s taken →
    ∀ pre₁ aiT raiT pre₂, pre = pre₁ ++ aiT :: raiT :: pre₂ → raiT ∉ s.failedTrees →
      reverseAt G tree rtrees fpaths s.v aiT = some raiT →
      ∀ r, reverseAt G tree rtrees fpaths s.v raiT = some r →
        r ∈ s.failedTrees ∨ r ∈ pre ∨ r = taken

/-- Every marked tree is charged to a failed link that it uses at the switch `c`. No link is
charged twice, and the tree that uses it the other way is marked or is being followed from
a switch that is not further away. -/
structure Charged (G : PortGraph V E) (tree : τ → ITree V E) (rtrees : List τ) (dst : V)
    (fpaths : V → τ → List ℕ) (failedE : Finset E) (s : TreeWalk V τ) (c : τ → V) : Prop where
  ne_dst : ∀ t ∈ rtrees, t ∈ s.failedTrees → c t ≠ dst
  failed : ∀ t ∈ rtrees, t ∈ s.failedTrees → ∃ e ∈ failedE, edgeAt G fpaths (c t) t = some e
  inj : ∀ t ∈ rtrees, t ∈ s.failedTrees → ∀ t' ∈ rtrees, t' ∈ s.failedTrees →
    edgeAt G fpaths (c t) t = edgeAt G fpaths (c t') t' → t = t'
  reverse : ∀ t ∈ rtrees, t ∈ s.failedTrees →
    ∀ r, reverseAt G tree rtrees fpaths (c t) t = some r →
      r ∈ s.failedTrees ∨ (r = s.ctree ∧ (fpaths s.v r).length ≤ (fpaths (c t) r).length)

/-- Where a tree is charged that a packet passes over: a new one at the packet's switch. -/
def chargeAt (s : TreeWalk V τ) (c : τ → V) (t : τ) : V := if t ∈ s.failedTrees then c t else s.v

section Charges

variable {rtrees : List τ} {failedE : Finset E} {s : TreeWalk V τ} {c : τ → V}

/-- The reverse tree of a tree at a switch is the tree that uses the same link from the
other end. -/
lemma reverseAt_of_edgeAt (hpaths : ∀ t ∈ rtrees, TreePaths G (tree t).adj dst
      (fun v => fpaths v t))
    (hdir : ∀ t ∈ rtrees, (tree t).directed = true) (harcs : arcsOnce tree rtrees = true)
    {t t' : τ} {v w : V} {e : E} (ht : t ∈ rtrees) (ht' : t' ∈ rtrees) (hv : v ≠ dst)
    (hw : w ≠ dst) (hvw : v ≠ w) (he : edgeAt G fpaths v t = some e)
    (he' : edgeAt G fpaths w t' = some e) :
    reverseAt G tree rtrees fpaths v t = some t' ∧
      (fpaths w t').length = (fpaths v t').length + 1 := by
  have harc' := (hpaths t' ht').mem_arcs (hdir t' ht') hw he'
  obtain ⟨port, ps, e₁, x, q, hp, hhop, _, _⟩ := (hpaths t ht).next v hv
  obtain ⟨port', ps', e₂, y, q', hp', hhop', _, hlen⟩ := (hpaths t' ht').next w hw
  rw [edgeAt_eq hp hhop, Option.some.injEq] at he
  rw [edgeAt_eq hp' hhop', Option.some.injEq] at he'
  rw [he] at hhop
  rw [he'] at hhop'
  obtain ⟨hwx, hyv⟩ := PortGraph.hop_back hhop hhop' hvw
  constructor
  · have hex : (rtrees.find? (fun iT => (w, e) ∈ (tree iT).arcs)).isSome := by
      rw [List.find?_isSome]
      exact ⟨t', ht', decide_eq_true harc'⟩
    obtain ⟨t₁, ht₁⟩ := Option.isSome_iff_exists.mp hex
    have hin : (w, e) ∈ (tree t₁).arcs := by simpa using List.find?_some ht₁
    rw [reverseAt_eq hp hhop, reverseTree, PortGraph.getOther_of_hop hhop, Option.bind_some,
      arc2tree, ← hwx, ht₁, arcs_unique harcs (List.mem_of_find?_eq_some ht₁) ht' hin harc']
  · rw [hp', ← hyv, hlen]
    rfl

lemma Charged.pick (hc : Charged G tree rtrees dst fpaths failedE s c) (hv : s.v ≠ dst) {t : τ}
    (ht : t ∈ rtrees) (hpass : PassedOver G fpaths failedE s t) :
    chargeAt s c t ≠ dst ∧ ∃ e ∈ failedE, edgeAt G fpaths (chargeAt s c t) t = some e := by
  rw [chargeAt]
  split
  · rename_i hin
    exact ⟨hc.ne_dst t ht hin, hc.failed t ht hin⟩
  · rename_i hin
    exact ⟨hv, hpass.resolve_left hin⟩

/-- A tree that is not marked yet does not use a link that was charged before. -/
lemma Charged.new_ne_old (hc : Charged G tree rtrees dst fpaths failedE s c)
    (hpaths : ∀ t ∈ rtrees, TreePaths G (tree t).adj dst (fun v => fpaths v t))
    (hdir : ∀ t ∈ rtrees, (tree t).directed = true) (harcs : arcsOnce tree rtrees = true)
    (hv : s.v ≠ dst) {t t' : τ} (ht : t ∈ rtrees) (hin : t ∈ s.failedTrees) (ht' : t' ∈ rtrees)
    (hnew : t' ∉ s.failedTrees) : edgeAt G fpaths (c t) t ≠ edgeAt G fpaths s.v t' := by
  intro heq
  obtain ⟨e, _, he⟩ := hc.failed t ht hin
  have he' : edgeAt G fpaths s.v t' = some e := heq.symm.trans he
  have hct := hc.ne_dst t ht hin
  by_cases hsame : c t = s.v
  · rw [hsame] at he
    have harc := (hpaths t ht).mem_arcs (hdir t ht) hv he
    have harc' := (hpaths t' ht').mem_arcs (hdir t' ht') hv he'
    exact hnew (arcs_unique harcs ht ht' harc harc' ▸ hin)
  · obtain ⟨hrev, hlen⟩ := reverseAt_of_edgeAt hpaths hdir harcs ht ht' hct hv hsame he he'
    rcases hc.reverse t ht hin t' hrev with h | ⟨_, h⟩
    · exact hnew h
    · omega

lemma Charged.pick_inj (hc : Charged G tree rtrees dst fpaths failedE s c)
    (hpaths : ∀ t ∈ rtrees, TreePaths G (tree t).adj dst (fun v => fpaths v t))
    (hdir : ∀ t ∈ rtrees, (tree t).directed = true) (harcs : arcsOnce tree rtrees = true)
    (hv : s.v ≠ dst) {t t' : τ} (ht : t ∈ rtrees) (hpass : PassedOver G fpaths failedE s t)
    (ht' : t' ∈ rtrees)
    (heq : edgeAt G fpaths (chargeAt s c t) t = edgeAt G fpaths (chargeAt s c t') t') : t = t' := by
  by_cases hin : t ∈ s.failedTrees <;> by_cases hin' : t' ∈ s.failedTrees <;>
    simp only [chargeAt, hin, hin', if_true, if_false] at heq
  · exact hc.inj t ht hin t' ht' hin' heq
  · exact absurd heq (hc.new_ne_old hpaths hdir harcs hv ht hin ht' hin')
  · exact absurd heq.symm (hc.new_ne_old hpaths hdir harcs hv ht' hin' ht hin)
  · obtain ⟨e, _, he⟩ := hpass.resolve_left hin
    exact arcs_unique harcs ht ht' ((hpaths t ht).mem_arcs (hdir t ht) hv he)
      ((hpaths t' ht').mem_arcs (hdir t' ht') hv (heq.symm.trans he))

/-- The charges of a packet that has fewer failed links around than trees leave it a tree. -/
lemma Charged.exists_tree (hc : Charged G tree rtrees dst fpaths failedE s c)
    (hpaths : ∀ t ∈ rtrees, TreePaths G (tree t).adj dst (fun v => fpaths v t))
    (hdir : ∀ t ∈ rtrees, (tree t).directed = true) (harcs : arcsOnce tree rtrees = true)
    (hv : s.v ≠ dst) (hn : rtrees.Nodup) (hF : failedE.card < rtrees.length) :
    ∃ t ∈ rtrees, ¬ PassedOver G fpaths failedE s t := by
  by_contra hno
  push Not at hno
  have hpick := fun t ht => (hc.pick hv ht (hno t ht)).2
  obtain ⟨t₀, ht₀⟩ := List.exists_mem_of_length_pos (show 0 < rtrees.length by omega)
  obtain ⟨e₀, _⟩ := hpick t₀ ht₀
  have : Nonempty E := ⟨e₀⟩
  choose! pick hmem hat using hpick
  have hle := length_le_card_of_private hn pick hmem (fun t ht t' ht' heq =>
    hc.pick_inj hpaths hdir harcs hv ht (hno t ht) ht' (by rw [hat t ht, hat t' ht', heq]))
  omega

/-- Passing over trees without losing a bounce keeps the charges. -/
lemma Charged.hop {order : V → τ → List τ} {s' : TreeWalk V τ} {pre : List τ}
    (hc : Charged G tree rtrees dst fpaths failedE s c)
    (hpaths : ∀ t ∈ rtrees, TreePaths G (tree t).adj dst (fun v => fpaths v t))
    (hdir : ∀ t ∈ rtrees, (tree t).directed = true) (harcs : arcsOnce tree rtrees = true)
    (hv : s.v ≠ dst)
    (hb : Bounced (reverseAt G tree rtrees fpaths s.v) [] (s.ctree :: order s.v s.ctree))
    (hhop : TreeHop G fpaths failedE order s pre s')
    (hlost : ∀ pre₁ aiT raiT pre₂, pre = pre₁ ++ aiT :: raiT :: pre₂ → raiT ∉ s.failedTrees →
      reverseAt G tree rtrees fpaths s.v aiT = some raiT →
      ∀ r, reverseAt G tree rtrees fpaths s.v raiT = some r →
        r ∈ s.failedTrees ∨ r ∈ pre ∨ r = s'.ctree) :
    Charged G tree rtrees dst fpaths failedE s' (chargeAt s c) := by
  obtain ⟨post, hsplit⟩ := hhop.split
  obtain ⟨port, ps, e, q, hp, hhop', _, _⟩ := hhop.link
  have hpassed : ∀ t ∈ s'.failedTrees, PassedOver G fpaths failedE s t := by
    intro t ht
    rw [hhop.marks, List.mem_append] at ht
    exact ht.elim .inl (hhop.passed t)
  have hcloser : ∀ r ∈ rtrees, r = s'.ctree →
      (fpaths s'.v r).length ≤ (fpaths s.v r).length := by
    rintro r hr rfl
    obtain ⟨port', ps', e', w', q', hp', hhop'', _, hlen⟩ := (hpaths s'.ctree hr).next s.v hv
    rw [hp', List.cons.injEq] at hp
    obtain ⟨rfl, rfl⟩ := hp
    rw [hhop'', Option.some.injEq, Prod.mk.injEq, Prod.mk.injEq] at hhop'
    rw [← hhop'.2.1, hlen, hp', List.length_cons]
    exact Nat.le_succ _
  refine ⟨fun t ht hin => (hc.pick hv ht (hpassed t hin)).1,
    fun t ht hin => (hc.pick hv ht (hpassed t hin)).2,
    fun t ht hin t' ht' _ => hc.pick_inj hpaths hdir harcs hv ht (hpassed t hin) ht', ?_⟩
  intro t ht hin r hr
  rw [hhop.marks, List.mem_append] at hin ⊢
  by_cases hold : t ∈ s.failedTrees
  · rw [chargeAt, if_pos hold] at hr ⊢
    rcases hc.reverse t ht hold r hr with h | ⟨rfl, hle⟩
    · exact .inl (.inl h)
    · cases pre with
      | nil =>
        have hcur : s.ctree = s'.ctree := (List.cons.inj hsplit).1
        exact .inr ⟨hcur, (hcloser _ (reverseAt_mem hr) hcur).trans hle⟩
      | cons x pre =>
        rw [(List.cons.inj hsplit).1]
        exact .inl (.inr (List.mem_cons_self ..))
  · rw [chargeAt, if_neg hold] at hr ⊢
    have htake : r = s'.ctree → r = s'.ctree ∧ (fpaths s'.v r).length ≤ (fpaths s.v r).length :=
      fun h => ⟨h, hcloser r (reverseAt_mem hr) h⟩
    obtain ⟨pre₁, pre₂, rfl⟩ := List.append_of_mem (hin.resolve_left hold)
    rw [List.append_assoc, List.cons_append] at hsplit
    rcases hb.reverse hsplit hr with h | h | ⟨pre₀, a, rfl, ha⟩
    · left
      right
      rw [List.nil_append] at h
      rcases List.mem_append.mp h with h | h
      · exact List.mem_append_left _ h
      · rw [List.mem_singleton.mp h]
        exact List.mem_append_right _ (List.mem_cons_self ..)
    · cases pre₂ with
      | nil =>
        rw [List.nil_append, List.head?_cons, Option.some.injEq] at h
        exact .inr (htake h.symm)
      | cons x pre₂ =>
        rw [List.cons_append, List.head?_cons, Option.some.injEq] at h
        exact .inl (.inr (by simp [h]))
    · rcases hlost pre₀ a t pre₂ (by simp) hold ha r hr with h | h | h
      · exact .inl (.inl h)
      · exact .inl (.inr h)
      · exact .inr (htake h)

end Charges

lemma steady_charged {order : V → τ → List τ} {table : Fwdtable V τ E} {failedE : Finset E}
    {src : V} {rtrees : List τ} (itree : τ)
    (ht : MarkingTable G tree forest dst fpaths order table) (hn : rtrees.Nodup)
    (hr : ∀ t ∈ rtrees, t ∈ forest) (hdir : ∀ t ∈ rtrees, (tree t).directed = true)
    (harcs : arcsOnce tree rtrees = true)
    (hmem : ∀ v, v ≠ dst → ∀ cur ∈ forest, ∀ t, t ∈ cur :: order v cur ↔ t = cur ∨ t ∈ rtrees)
    (hb : ∀ v, v ≠ dst → ∀ cur ∈ forest,
      Bounced (reverseAt G tree rtrees fpaths v) [] (cur :: order v cur))
    (hF : failedE.card < rtrees.length)
    (hlost : ∀ s, Loop.Reaches (treeWalkStep G table dst failedE ∅)
      ⟨[], itree, [], src, false⟩ s → s.v ≠ dst →
        NoLostBounce G tree rtrees fpaths table failedE s) :
    Steady G forest dst fpaths order table failedE src (fun s =>
      (∃ c, Charged G tree rtrees dst fpaths failedE s c) ∧
        Loop.Reaches (treeWalkStep G table dst failedE ∅) ⟨[], itree, [], src, false⟩ s) := by
  have hpaths : ∀ t ∈ rtrees, TreePaths G (tree t).adj dst (fun v => fpaths v t) :=
    fun t h => ht.paths t (hr t h)
  constructor
  · rintro s pre s' ⟨⟨c, hc⟩, hreach⟩ hs hv hrun hhop
    refine ⟨⟨_, hc.hop hpaths hdir harcs hv (hb s.v hv s.ctree hs.mem) hhop ?_⟩, hreach.tail hrun⟩
    obtain ⟨post, hsplit⟩ := hhop.split
    obtain ⟨port, ps, e, q, hp, hhop', he, _⟩ := hhop.link
    apply hlost s hreach hv pre s'.ctree post
    · rw [(ht.listed s.v hv s.ctree hs.mem).trees, hsplit]
    · exact hhop.passed
    · rintro (h | ⟨e', he', hat⟩)
      · exact hhop.notFailed h
      · rw [edgeAt_eq hp hhop', Option.some.injEq] at hat
        exact he (hat ▸ he')
  · rintro s ⟨⟨c, hc⟩, _⟩ hs hv
    obtain ⟨t, ht', hup⟩ := hc.exists_tree hpaths hdir harcs hv hn hF
    exact ⟨t, (hmem s.v hv s.ctree hs.mem t).mpr (.inr ht'), hup⟩

/-- With fewer failures than arc-disjoint resilient trees, a packet that never loses a bounce
is delivered over links that are up. -/
theorem adst_resilient {getShortestPath : Adj V E → V → V → List E}
    (hsp : IsPathFinder getShortestPath) (hf : TreeForest G tree forest isDefault dst args)
    (hdir : ∀ t ∈ forest.filter (fun iT => !isDefault iT), (tree t).directed = true)
    (harcs : arcsOnce tree (forest.filter (fun iT => !isDefault iT)) = true)
    (draw : V → ℕ) (failedE : Finset E)
    (hF : failedE.card < (forest.filter (fun iT => !isDefault iT)).length) :
    ∃ fpaths table, forestPaths G getShortestPath tree forest dst = some fpaths ∧
      adstFwdtable G tree forest isDefault fpaths dst args draw = some table ∧
      ∀ src, ∀ start ∈ table.entries src none,
        (∀ s, Loop.Reaches (treeWalkStep G table dst failedE ∅)
          ⟨[], start.ntree, [], src, false⟩ s → s.v ≠ dst →
          NoLostBounce G tree (forest.filter (fun iT => !isDefault iT)) fpaths table failedE s) →
        ∃ fuel hops failExp,
          fwdtableWalkPathInternal fuel G src dst table start.ntree failedE ∅ =
            some (some hops, failExp) ∧ G.Leads failedE src hops dst := by
  obtain ⟨fpaths, hfp, hpaths⟩ := forestPaths_spec hsp hf.valid hf.spans
  obtain ⟨table, order, htable, ht, hmem, hb, hstart⟩ := hf.adst_table harcs hpaths draw
  refine ⟨fpaths, table, hfp, htable, fun src start hs hlost => ?_⟩
  have hsteady := steady_charged start.ntree ht (hf.nodup.filter _)
    (fun t h => (List.mem_filter.mp h).1) hdir harcs hmem hb hF hlost
  refine hsteady.delivered ht (hstart src start hs) ⟨⟨fun _ => dst, ?_⟩, .refl⟩
  constructor <;> exact fun t _ h => absurd h List.not_mem_nil

end Delivery

/-! ### One failure or several -/

omit [DecidableEq τ] in
/-- Neighbours in a list. -/
lemma mem_zip_tail {xs : List τ} {a b : τ} :
    (a, b) ∈ xs.zip xs.tail ↔ ∃ pre post, xs = pre ++ a :: b :: post := by
  rw [List.mem_iff_getElem?]
  constructor
  · rintro ⟨i, hi⟩
    obtain ⟨ha, hb⟩ := List.getElem?_zip_eq_some.mp hi
    rw [List.getElem?_tail] at hb
    obtain ⟨_, ha⟩ := List.getElem?_eq_some_iff.mp ha
    obtain ⟨_, hb⟩ := List.getElem?_eq_some_iff.mp hb
    refine ⟨xs.take i, xs.drop (i + 2), ?_⟩
    dsimp only at ha hb
    rw [← ha, ← hb, List.getElem_cons_drop, List.getElem_cons_drop, List.take_append_drop]
  · rintro ⟨pre, post, rfl⟩
    refine ⟨pre.length, List.getElem?_zip_eq_some.mpr ⟨?_, ?_⟩⟩
    · rw [List.getElem?_append_right (Nat.le_refl _), Nat.sub_self]
      rfl
    · rw [List.getElem?_tail, List.getElem?_append_right (Nat.le_add_right _ _),
        Nat.add_sub_cancel_left]
      rfl

/-- The same, over the beginnings of the list of trees. -/
lemma noLostBounce_iff {rtrees : List τ} {table : Fwdtable V τ E} {failedE : Finset E}
    {s : TreeWalk V τ} : NoLostBounce G tree rtrees fpaths table failedE s ↔
      let trees := (table.entries s.v (some s.ctree)).map FwdEntry.ntree
      ∀ pre ∈ trees.inits, ∀ taken ∈ (trees.drop pre.length).head?,
        (∀ t ∈ pre, PassedOver G fpaths failedE s t) → ¬ PassedOver G fpaths failedE s taken →
        ∀ bounce ∈ pre.zip pre.tail, bounce.2 ∉ s.failedTrees →
          reverseAt G tree rtrees fpaths s.v bounce.1 = some bounce.2 →
          ∀ r ∈ reverseAt G tree rtrees fpaths s.v bounce.2,
            r ∈ s.failedTrees ∨ r ∈ pre ∨ r = taken := by
  constructor
  · intro h trees pre hpre taken htaken hpassed hup bounce hbounce hnot hrev r hr
    obtain ⟨post, hpost⟩ := (List.mem_inits _ _).mp hpre
    obtain ⟨post', rfl⟩ : ∃ post', post = taken :: post' := by
      rw [← hpost, List.drop_left] at htaken
      exact List.head?_eq_some_iff.mp htaken
    obtain ⟨pre₁, pre₂, hsplit⟩ := mem_zip_tail.mp hbounce
    exact h pre taken post' hpost.symm hpassed hup pre₁ _ _ pre₂ hsplit hnot hrev r hr
  · intro h pre taken post hsplit hpassed hup pre₁ aiT raiT pre₂ hpre hnot hrev r hr
    refine h pre ?_ taken ?_ hpassed hup (aiT, raiT) (mem_zip_tail.mpr ⟨pre₁, pre₂, hpre⟩)
      hnot hrev r hr
    · rw [List.mem_inits, hsplit]
      exact List.prefix_append ..
    · rw [hsplit, List.drop_left]
      rfl

instance {s : TreeWalk V τ} {failedE : Finset E} {t : τ} :
    Decidable (PassedOver G fpaths failedE s t) := by
  unfold PassedOver
  infer_instance

instance {rtrees : List τ} {table : Fwdtable V τ E} {failedE : Finset E} {s : TreeWalk V τ} :
    Decidable (NoLostBounce G tree rtrees fpaths table failedE s) :=
  decidable_of_iff' _ noLostBounce_iff

/-- Switches `0` (the destination) to `4`; links `0`, `1` and `2` are those that will fail. -/
def bounceGraph : PortGraph (Fin 5) (Fin 14) :=
  PortGraph.ofFinLinks ![1, 1, 4, 2, 3, 4, 3, 4, 2, 1, 4, 1, 2, 3] Fin.val
    ![2, 3, 0, 0, 0, 0, 0, 0, 0, 2, 3, 4, 0, 0] Fin.val (fun _ => 1) (by decide) (by decide)

/-- Four arc-disjoint trees of `bounceGraph`. At switch `1`, tree `1` reverses tree `0` and
tree `2` reverses tree `1`. -/
def bounceTree : Fin 4 → ITree (Fin 5) (Fin 14) := ![
  ⟨true, [(2, 1, 0), (0, 2, 3), (0, 3, 4), (0, 4, 5)]⟩,
  ⟨true, [(1, 2, 0), (3, 1, 1), (0, 3, 6), (0, 4, 7)]⟩,
  ⟨true, [(1, 3, 1), (2, 1, 9), (0, 2, 8), (3, 4, 10)]⟩,
  ⟨true, [(0, 4, 2), (4, 1, 11), (0, 2, 12), (0, 3, 13)]⟩]

/-- The distances from the destination in the trees. -/
def bounceRank : Fin 4 → Fin 5 → ℕ :=
  ![![0, 2, 1, 1, 1], ![0, 2, 3, 1, 1], ![0, 2, 1, 3, 4], ![0, 2, 1, 1, 1]]

lemma treeForest_bounce :
    TreeForest bounceGraph bounceTree (List.finRange 4) (fun _ => false) 0 ⟨0, 4⟩ where
  nodup := by decide
  valid := by unfold ITree.Valid; decide +kernel
  spans iT _ := ITree.spans_of_rank (bounceRank iT) (by revert iT; decide)
  accepts := by decide

/-- The paths of the trees. -/
def bouncePaths : Fin 5 → Fin 4 → List ℕ :=
  (forestPaths bounceGraph (bfsPath (List.finRange 5)) bounceTree (List.finRange 4) 0).getD
    (fun _ _ => [])

/-- The table for a shuffle. With `0` the trees that tie come in the order `0, 1, 2, 3`, with
`12` in the order `0, 1, 3, 2`. -/
def bounceTable (draw : ℕ) : Fwdtable (Fin 5) (Fin 4) (Fin 14) :=
  (adstFwdtable bounceGraph bounceTree (List.finRange 4) (fun _ => false) bouncePaths 0 ⟨0, 4⟩
    (fun _ => draw)).getD (fun _ => [])

lemma forestPaths_bounce : forestPaths bounceGraph (bfsPath (List.finRange 5)) bounceTree
    (List.finRange 4) 0 = some bouncePaths := eq_some_getD _ (by decide +kernel)

/-- With the order `0, 1, 2, 3` a packet that passes over trees `0` and `1` at switch `1` takes
tree `2`, which reverses tree `1`, and no bounce is lost. -/
theorem adst_resilient_bounce :
    ∃ fpaths table,
      forestPaths bounceGraph (bfsPath (List.finRange 5)) bounceTree (List.finRange 4) 0 =
        some fpaths ∧
      adstFwdtable bounceGraph bounceTree (List.finRange 4) (fun _ => false) fpaths 0 ⟨0, 4⟩
        (fun _ => 0) = some table ∧
      ∀ src, ∀ start ∈ table.entries src none, ∃ fuel hops failExp,
        fwdtableWalkPathInternal fuel bounceGraph src 0 table start.ntree {0, 1, 2} ∅ =
          some (some hops, failExp) ∧ bounceGraph.Leads {0, 1, 2} src hops 0 := by
  obtain ⟨fpaths, table, hf, ht, h⟩ := adst_resilient
    (isPathFinder_bfsPath (show ∀ v : Fin 5, v ∈ List.finRange 5 by decide)) treeForest_bounce
    (by decide) (by decide) (fun _ => 0) {0, 1, 2} (by decide)
  refine ⟨fpaths, table, hf, ht, fun src start hs => h src start hs ?_⟩
  rw [forestPaths_bounce, Option.some.injEq] at hf
  subst hf
  have htable : bounceTable 0 = table := by rw [bounceTable, ht, Option.getD_some]
  subst htable
  -- every walk ends within six steps, and no state in it loses a bounce
  have hruns : ∀ src, ∀ start ∈ (bounceTable 0).entries src none,
      (Loop.run (treeWalkStep bounceGraph (bounceTable 0) 0 {0, 1, 2} ∅) 6
        ⟨[], start.ntree, [], src, false⟩).isSome ∧
      ∀ s ∈ Loop.states (treeWalkStep bounceGraph (bounceTable 0) 0 {0, 1, 2} ∅) 6
          ⟨[], start.ntree, [], src, false⟩, s.v ≠ 0 →
        NoLostBounce bounceGraph bounceTree ((List.finRange 4).filter (fun _ => !false))
          bouncePaths (bounceTable 0) {0, 1, 2} s := by
    decide +kernel
  obtain ⟨hsome, hstates⟩ := hruns src start hs
  exact fun s hreach => hstates s (hreach.mem_states hsome)

/-- Three failures leave a packet on one of four arc-disjoint trees without a tree: it passes
over trees `0` and `1`, is not told about tree `2`, takes tree `3`, and then tree `2`. -/
theorem adst_not_resilient :
    TreeForest bounceGraph bounceTree (List.finRange 4) (fun _ => false) 0 ⟨0, 4⟩ ∧
      (∀ t, (bounceTree t).directed = true) ∧ arcsOnce bounceTree (List.finRange 4) = true ∧
      forestPaths bounceGraph (bfsPath (List.finRange 5)) bounceTree (List.finRange 4) 0 =
        some bouncePaths ∧
      adstFwdtable bounceGraph bounceTree (List.finRange 4) (fun _ => false) bouncePaths 0
        ⟨0, 4⟩ (fun _ => 12) = some (bounceTable 12) ∧
      (∃ start ∈ (bounceTable 12).entries 1 none, start.ntree = 0) ∧
      ({0, 1, 2} : Finset (Fin 14)).card < 4 ∧
      ¬ ∃ fuel hops failExp, fwdtableWalkPathInternal fuel bounceGraph 1 0 (bounceTable 12) 0
        {0, 1, 2} ∅ = some (some hops, failExp) := by
  refine ⟨treeForest_bounce, by decide, by decide, forestPaths_bounce,
    eq_some_getD _ (by decide +kernel), by decide +kernel, by decide, ?_⟩
  rintro ⟨fuel, hops, failExp, hrun⟩
  have hlost : fwdtableWalkPathInternal 4 bounceGraph 1 0 (bounceTable 12) 0 {0, 1, 2} ∅ =
      some (none, true) := by decide +kernel
  cases fwdtableWalkPathInternal_unique hrun hlost

end ResSim
