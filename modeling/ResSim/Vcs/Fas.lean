import Mathlib.Data.Finset.Card
import ResSim.Lib.FeedbackArcSet
import ResSim.Vcs.Assign

/-!
# Assignment of virtual channels by feedback arc sets

Here the graph of a channel is simple: an edge collects the numbers of all paths that induce
it. Each round removes a feedback arc set and leaves every path that induced a removed edge
to the next round, once for each such edge. Nothing makes a round keep a path, so the rounds
can go on forever. They end if every round keeps one, and once they end, no round was left
without a later one that keeps a path.
-/

namespace ResSim

variable {α : Type}

/-- An edge of a channel and the paths that induce it; `num_cdgs` is the length of `cdgs`. -/
structure FasEdge (α : Type) where
  source : α
  target : α
  cdgs : List ℕ
deriving DecidableEq

/-- `ie['cdgs'].append(cdg_num)`. -/
def FasEdge.appendCdg (cdgNum : ℕ) (ie : FasEdge α) : FasEdge α :=
  { ie with cdgs := ie.cdgs ++ [cdgNum] }

/-- The graph of a virtual channel without parallel edges. -/
structure FasVc (α : Type) where
  vs : List α
  es : List (FasEdge α)
deriving DecidableEq

section Definitions

variable [DecidableEq α]

/-- `vc.get_eid(src, tgt, error = False)`. -/
def getEid (es : List (FasEdge α)) (d : α × α) : Option ℕ :=
  es.findIdx? (fun ie => ie.source = d.1 ∧ ie.target = d.2)

/-- Treats one dependency of the path `cdgNum`: an edge that exists gets the number, a new
one is kept for later. -/
def addDep (cdgNum : ℕ) (st : List (FasEdge α) × List (α × α)) (d : α × α) :
    List (FasEdge α) × List (α × α) :=
  match getEid st.1 d with
  | none => (st.1, st.2 ++ [d])
  | some eid => (st.1.modify eid (FasEdge.appendCdg cdgNum), st.2)

/-- Adds the dependencies of one path's graph, those without an edge at the end. -/
def FasVc.addDeps (vc : FasVc α) (cdg : PathCdg α) : FasVc α :=
  let st := cdg.deps.foldl (addDep cdg.cdgNum) (vc.es, [])
  { vc with es := st.1 ++ st.2.map (fun d => ⟨d.1, d.2, [cdg.cdgNum]⟩) }

/-- Adds one path's graph; an arc that is no vertex is an error. -/
def FasVc.addCdg (vc : FasVc α) (cdg : PathCdg α) : Option (FasVc α) :=
  if cdg.deps.all (fun d => d.1 ∈ vc.vs ∧ d.2 ∈ vc.vs) then some (vc.addDeps cdg) else none

/-- Combines several path graphs into the graph of one virtual channel. -/
def buildCdgVcFas (A : List α) (cdgs : List (PathCdg α)) : Option (FasVc α) :=
  cdgs.foldlM FasVc.addCdg ⟨A, []⟩

end Definitions

/-- The graph with the attribute `num_cdgs` as weight. -/
def FasVc.weighted (vc : FasVc α) : WGraph α :=
  vc.es.map (fun ie => (ie.source, ie.target, ie.cdgs.length))

/-- The paths that induce one of the given edges, once for each of them. -/
def FasVc.cdgsOf (vc : FasVc α) (fas : List ℕ) : List ℕ :=
  fas.flatMap (fun eid => (vc.es[eid]?.map FasEdge.cdgs).getD [])

/-- `vc.delete_edges(fas)`. -/
def FasVc.deleteEdges (vc : FasVc α) (fas : List ℕ) : FasVc α :=
  { vc with es := deleteIds vc.es fas }

/-- The pairs of arcs that the edges join. -/
def FasVc.pairs (vc : FasVc α) : List (α × α) := vc.es.map (fun ie => (ie.source, ie.target))

/-- State of the loop: the path graphs left and the channels found so far. -/
structure FasAssignment (α : Type) where
  nextVcCdgs : List (PathCdg α)
  vcs : List (FasVc α)

section Definitions

variable [DecidableEq α]

/-- One round: a channel from all path graphs left, without a feedback arc set. -/
def makeVcFas (feedbackArcSet : WGraph α → List ℕ) (A : List α) (cdgs : List (PathCdg α))
    (s : FasAssignment α) : Option (FasAssignment α) := do
  let vc ← buildCdgVcFas A s.nextVcCdgs
  let fas := feedbackArcSet vc.weighted
  let nextVcCdgs ← (vc.cdgsOf fas).mapM (fun i => cdgs[i]?)
  some ⟨nextVcCdgs, s.vcs ++ [vc.deleteEdges fas]⟩

/-- The body of the loop. -/
def fasRound (feedbackArcSet : WGraph α → List ℕ) (A : List α) (cdgs : List (PathCdg α))
    (s : FasAssignment α) : Step (FasAssignment α) (Option (List (FasVc α))) :=
  if 0 < s.nextVcCdgs.length then
    match makeVcFas feedbackArcSet A cdgs s with
    | none => .done none
    | some s' => .next s'
  else .done (some s.vcs)

/-- Assigns every path graph to virtual channels; `none` where an assertion fails, an index
is out of range or the passes are used up. -/
def assignVcsFas (fuel : ℕ) (feedbackArcSet : WGraph α → List ℕ) (A : List α)
    (cdgs : List (PathCdg α)) : Option (List (FasVc α)) := do
  guard (numbered cdgs)
  let vcs ← (Loop.run (fasRound feedbackArcSet A cdgs) fuel ⟨cdgs, []⟩).join
  guard (vcs.all (fun vc => isDag vc.pairs))
  some vcs

end Definitions

/-! ### The graph of a round -/

/-- An edge for every dependency, labelled by the paths it comes from. -/
structure Combines (cdgs : List (PathCdg α)) (es : List (FasEdge α)) : Prop where
  edge_of_dep : ∀ c ∈ cdgs, ∀ d ∈ c.deps,
    ∃ ie ∈ es, ie.source = d.1 ∧ ie.target = d.2 ∧ c.cdgNum ∈ ie.cdgs
  cdg_of_edge : ∀ ie ∈ es, ∀ n ∈ ie.cdgs, ∃ c ∈ cdgs, c.cdgNum = n

/-- All dependencies of a path graph are in the channel. -/
def FasVc.Contains (vc : FasVc α) (cdg : PathCdg α) : Prop := ∀ d ∈ cdg.deps, d ∈ vc.pairs

lemma FasVc.mem_cdgsOf {vc : FasVc α} {fas : List ℕ} {n : ℕ} :
    n ∈ vc.cdgsOf fas ↔ ∃ eid ∈ fas, ∃ ie, vc.es[eid]? = some ie ∧ n ∈ ie.cdgs := by
  simp only [FasVc.cdgsOf, List.mem_flatMap]
  refine exists_congr fun eid => and_congr_right fun _ => ?_
  cases vc.es[eid]? with
  | none => simp
  | some ie => simp

/-- The channel without a feedback arc set contains every path graph the set leaves alone. -/
lemma Combines.contains {vc : FasVc α} {next : List (PathCdg α)} (hc : Combines next vc.es)
    {fas : List ℕ} {c : PathCdg α} (hcm : c ∈ next) (hn : c.cdgNum ∉ vc.cdgsOf fas) :
    (vc.deleteEdges fas).Contains c := by
  intro d hd
  obtain ⟨ie, hie, hs, ht, hnum⟩ := hc.edge_of_dep c hcm d hd
  obtain ⟨eid, heid⟩ := List.mem_iff_getElem?.mp hie
  refine List.mem_map.mpr ⟨ie, mem_deleteIds.mpr ⟨eid, heid, fun hmem => ?_⟩, ?_⟩
  · exact hn (FasVc.mem_cdgsOf.mpr ⟨eid, hmem, ie, heid, hnum⟩)
  · rw [hs, ht]

lemma FasVc.pairs_deleteEdges (vc : FasVc α) (fas : List ℕ) :
    (vc.deleteEdges fas).pairs = remaining vc.weighted fas := by
  rw [remaining, FasVc.weighted, deleteIds_map, List.map_map]
  rfl

/-- Every edge is kept, with at least the numbers it has. -/
def Extends (es es' : List (FasEdge α)) : Prop :=
  ∀ ie ∈ es, ∃ ie' ∈ es', ie'.source = ie.source ∧ ie'.target = ie.target ∧ ie.cdgs ⊆ ie'.cdgs

lemma Extends.refl (es : List (FasEdge α)) : Extends es es :=
  fun ie hie => ⟨ie, hie, rfl, rfl, fun _ hn => hn⟩

lemma Extends.trans {es es' es'' : List (FasEdge α)} (h : Extends es es')
    (h' : Extends es' es'') : Extends es es'' := by
  intro ie hie
  obtain ⟨ie', hie', hs, ht, hn⟩ := h ie hie
  obtain ⟨ie'', hie'', hs', ht', hn'⟩ := h' ie' hie'
  exact ⟨ie'', hie'', hs'.trans hs, ht'.trans ht, fun n hm => hn' (hn hm)⟩

/-- The numbers on edges are old or `num`. -/
def OnlyAdds (num : ℕ) (es es' : List (FasEdge α)) : Prop :=
  ∀ ie' ∈ es', ∀ n ∈ ie'.cdgs, n = num ∨ ∃ ie ∈ es, n ∈ ie.cdgs

section Build

variable [DecidableEq α]

lemma addDep_spec (num : ℕ) (st : List (FasEdge α) × List (α × α)) (d : α × α) :
    Extends st.1 (addDep num st d).1 ∧ OnlyAdds num st.1 (addDep num st d).1 ∧
      (∀ p ∈ st.2, p ∈ (addDep num st d).2) ∧
      (d ∈ (addDep num st d).2 ∨
        ∃ ie ∈ (addDep num st d).1, ie.source = d.1 ∧ ie.target = d.2 ∧ num ∈ ie.cdgs) := by
  rw [addDep]
  cases heid : getEid st.1 d with
  | none =>
    refine ⟨.refl _, fun ie hie n hn => .inr ⟨ie, hie, hn⟩, ?_, .inl ?_⟩
    · exact fun p hp => List.mem_append_left _ hp
    · exact List.mem_append_right _ (List.mem_singleton.mpr rfl)
  | some eid =>
    obtain ⟨hlt, hd, _⟩ := List.findIdx?_eq_some_iff_getElem.mp heid
    rw [decide_eq_true_iff] at hd
    have hget : ∀ i (hi : i < st.1.length),
        (st.1.modify eid (FasEdge.appendCdg num))[i]? =
          some (if eid = i then st.1[i].appendCdg num else st.1[i]) := by
      intro i hi
      rw [List.getElem?_modify, List.getElem?_eq_getElem hi, Option.map_eq_map, Option.map_some]
    refine ⟨?_, ?_, fun p hp => hp, .inr ?_⟩
    · intro ie hie
      obtain ⟨i, hi, rfl⟩ := List.mem_iff_getElem.mp hie
      refine ⟨_, List.mem_of_getElem? (hget i hi), ?_⟩
      split
      · exact ⟨rfl, rfl, fun n hn => List.mem_append_left _ hn⟩
      · exact ⟨rfl, rfl, fun n hn => hn⟩
    · intro ie hie n hn
      obtain ⟨i, hi⟩ := List.mem_iff_getElem?.mp hie
      have hilt : i < st.1.length := by
        have := (List.getElem?_eq_some_iff.mp hi).1
        rwa [List.length_modify] at this
      rw [hget i hilt, Option.some.injEq] at hi
      rw [← hi] at hn
      split at hn
      · rcases List.mem_append.mp hn with hn | hn
        · exact .inr ⟨_, List.getElem_mem hilt, hn⟩
        · exact .inl (List.mem_singleton.mp hn)
      · exact .inr ⟨_, List.getElem_mem hilt, hn⟩
    · refine ⟨_, List.mem_of_getElem? (hget eid hlt), ?_⟩
      rw [if_pos rfl]
      exact ⟨hd.1, hd.2, List.mem_append_right _ (List.mem_singleton.mpr rfl)⟩

lemma foldl_addDep_spec (num : ℕ) (deps : List (α × α))
    (st : List (FasEdge α) × List (α × α)) :
    Extends st.1 (deps.foldl (addDep num) st).1 ∧
      OnlyAdds num st.1 (deps.foldl (addDep num) st).1 ∧
      (∀ p ∈ st.2, p ∈ (deps.foldl (addDep num) st).2) ∧
      ∀ d ∈ deps, d ∈ (deps.foldl (addDep num) st).2 ∨
        ∃ ie ∈ (deps.foldl (addDep num) st).1,
          ie.source = d.1 ∧ ie.target = d.2 ∧ num ∈ ie.cdgs := by
  induction deps generalizing st with
  | nil => exact ⟨.refl _, fun ie hie n hn => .inr ⟨ie, hie, hn⟩, fun p hp => hp, by simp⟩
  | cons d deps ih =>
    obtain ⟨hext, honly, hkeep, hd⟩ := addDep_spec num st d
    obtain ⟨hext', honly', hkeep', hdeps⟩ := ih (addDep num st d)
    rw [List.foldl_cons]
    refine ⟨hext.trans hext', ?_, fun p hp => hkeep' p (hkeep p hp), ?_⟩
    · intro ie hie n hn
      rcases honly' ie hie n hn with rfl | ⟨ie', hie', hn'⟩
      · exact .inl rfl
      · exact honly ie' hie' n hn'
    · intro d' hd'
      rcases List.mem_cons.mp hd' with rfl | hd'
      · rcases hd with hd | ⟨ie, hie, hs, ht, hn⟩
        · exact .inl (hkeep' _ hd)
        · obtain ⟨ie', hie', hs', ht', hn'⟩ := hext' ie hie
          exact .inr ⟨ie', hie', hs'.trans hs, ht'.trans ht, hn' hn⟩
      · exact hdeps d' hd'

lemma FasVc.addDeps_spec (vc : FasVc α) (cdg : PathCdg α) :
    Extends vc.es (vc.addDeps cdg).es ∧ OnlyAdds cdg.cdgNum vc.es (vc.addDeps cdg).es ∧
      ∀ d ∈ cdg.deps, ∃ ie ∈ (vc.addDeps cdg).es,
        ie.source = d.1 ∧ ie.target = d.2 ∧ cdg.cdgNum ∈ ie.cdgs := by
  obtain ⟨hext, honly, _, hdeps⟩ := foldl_addDep_spec cdg.cdgNum cdg.deps (vc.es, [])
  refine ⟨?_, ?_, ?_⟩
  · intro ie hie
    obtain ⟨ie', hie', hrest⟩ := hext ie hie
    exact ⟨ie', List.mem_append_left _ hie', hrest⟩
  · intro ie hie n hn
    rcases List.mem_append.mp hie with hie | hie
    · exact honly ie hie n hn
    · obtain ⟨d, _, rfl⟩ := List.mem_map.mp hie
      exact .inl (List.mem_singleton.mp hn)
  · intro d hd
    rcases hdeps d hd with hnew | ⟨ie, hie, hrest⟩
    · exact ⟨⟨d.1, d.2, [cdg.cdgNum]⟩,
        List.mem_append_right _ (List.mem_map.mpr ⟨d, hnew, rfl⟩), rfl, rfl,
        List.mem_singleton.mpr rfl⟩
    · exact ⟨ie, List.mem_append_left _ hie, hrest⟩

lemma Combines.addDeps {cdgs : List (PathCdg α)} {vc : FasVc α} (hc : Combines cdgs vc.es)
    (cdg : PathCdg α) : Combines (cdgs ++ [cdg]) (vc.addDeps cdg).es := by
  obtain ⟨hext, honly, hdeps⟩ := vc.addDeps_spec cdg
  constructor
  · intro c hcm d hd
    rcases List.mem_append.mp hcm with hcm | hcm
    · obtain ⟨ie, hie, hs, ht, hn⟩ := hc.edge_of_dep c hcm d hd
      obtain ⟨ie', hie', hs', ht', hn'⟩ := hext ie hie
      exact ⟨ie', hie', hs'.trans hs, ht'.trans ht, hn' hn⟩
    · rw [List.mem_singleton.mp hcm] at hd ⊢
      exact hdeps d hd
  · intro ie hie n hn
    rcases honly ie hie n hn with rfl | ⟨ie', hie', hn'⟩
    · exact ⟨cdg, List.mem_append_right _ (List.mem_singleton.mpr rfl), rfl⟩
    · obtain ⟨c, hcm, hcn⟩ := hc.cdg_of_edge ie' hie' n hn'
      exact ⟨c, List.mem_append_left _ hcm, hcn⟩

lemma foldlM_addCdgFas {A : List α} {cdgs : List (PathCdg α)} (h : Covers A cdgs)
    {pre : List (PathCdg α)} {vc : FasVc α} (hvs : vc.vs = A) (hc : Combines pre vc.es) :
    ∃ vc', cdgs.foldlM FasVc.addCdg vc = some vc' ∧ Combines (pre ++ cdgs) vc'.es := by
  induction cdgs generalizing pre vc with
  | nil => exact ⟨vc, rfl, by rwa [List.append_nil]⟩
  | cons cdg cdgs ih =>
    have hall : cdg.deps.all (fun d => d.1 ∈ vc.vs ∧ d.2 ∈ vc.vs) = true := by
      rw [List.all_eq_true, hvs]
      exact fun d hd => decide_eq_true (h cdg (List.mem_cons_self ..) d hd)
    have hvs' : (vc.addDeps cdg).vs = A := hvs
    obtain ⟨vc', hrun, hc'⟩ := ih (fun c hcm => h c (List.mem_cons_of_mem _ hcm)) hvs'
      (hc.addDeps cdg)
    refine ⟨vc', ?_, ?_⟩
    · rw [List.foldlM_cons, FasVc.addCdg, if_pos hall]
      exact hrun
    · rwa [List.append_assoc, List.singleton_append] at hc'

lemma buildCdgVcFas_spec {A : List α} {cdgs : List (PathCdg α)} (h : Covers A cdgs) :
    ∃ vc, buildCdgVcFas A cdgs = some vc ∧ Combines cdgs vc.es := by
  have hnil : Combines [] (⟨A, []⟩ : FasVc α).es := ⟨by simp, by simp⟩
  exact foldlM_addCdgFas h rfl hnil

end Build

/-! ### Rounds -/

section Rounds

variable [DecidableEq α] {feedbackArcSet : WGraph α → List ℕ} {A : List α}
  {cdgs : List (PathCdg α)}

/-- The feedback arc set of the round leaves some path graph alone. -/
def KeepsOne (feedbackArcSet : WGraph α → List ℕ) (A : List α) (s : FasAssignment α) : Prop :=
  ∃ vc, buildCdgVcFas A s.nextVcCdgs = some vc ∧
    ∃ c ∈ s.nextVcCdgs, c.cdgNum ∉ vc.cdgsOf (feedbackArcSet vc.weighted)

instance (feedbackArcSet : WGraph α → List ℕ) (A : List α) (s : FasAssignment α) :
    Decidable (KeepsOne feedbackArcSet A s) :=
  decidable_of_iff (∃ vc ∈ buildCdgVcFas A s.nextVcCdgs,
    ∃ c ∈ s.nextVcCdgs, c.cdgNum ∉ vc.cdgsOf (feedbackArcSet vc.weighted))
    (exists_congr fun _ => and_congr_left' Option.mem_def)

/-- The invariant of the rounds: a path graph waits or is contained in a channel. -/
structure FasAssigning (cdgs : List (PathCdg α)) (s : FasAssignment α) : Prop where
  mem : ∀ c ∈ s.nextVcCdgs, c ∈ cdgs
  acyclic : ∀ vc ∈ s.vcs, Acyclic (EdgeRel vc.pairs)
  placed : ∀ c ∈ cdgs, c ∉ s.nextVcCdgs → ∃ vc ∈ s.vcs, vc.Contains c

lemma makeVcFas_eq {s : FasAssignment α} {vc : FasVc α} {next : List (PathCdg α)}
    (hvc : buildCdgVcFas A s.nextVcCdgs = some vc)
    (hnext : (vc.cdgsOf (feedbackArcSet vc.weighted)).mapM (fun i => cdgs[i]?) = some next) :
    makeVcFas feedbackArcSet A cdgs s =
      some ⟨next, s.vcs ++ [vc.deleteEdges (feedbackArcSet vc.weighted)]⟩ := by
  simp only [makeVcFas, hvc, hnext, Option.bind_eq_bind, Option.bind_some]

/-- What one round does to path graphs numbered by their positions. -/
lemma FasAssigning.makeVcFas (h : Numbered A cdgs)
    (hfas : ∀ g, IsFas g (feedbackArcSet g)) {s : FasAssignment α} (hs : FasAssigning cdgs s) :
    ∃ vc next, buildCdgVcFas A s.nextVcCdgs = some vc ∧
      makeVcFas feedbackArcSet A cdgs s =
        some ⟨next, s.vcs ++ [vc.deleteEdges (feedbackArcSet vc.weighted)]⟩ ∧
      next.map PathCdg.cdgNum = vc.cdgsOf (feedbackArcSet vc.weighted) ∧
      (∀ c ∈ next, c ∈ s.nextVcCdgs) ∧
      FasAssigning cdgs ⟨next, s.vcs ++ [vc.deleteEdges (feedbackArcSet vc.weighted)]⟩ := by
  have hA : Covers A s.nextVcCdgs := fun c hc => h.covers c (hs.mem c hc)
  obtain ⟨vc, hvc, hcomb⟩ := buildCdgVcFas_spec hA
  have hfrom : ∀ n ∈ vc.cdgsOf (feedbackArcSet vc.weighted),
      ∃ c ∈ s.nextVcCdgs, c.cdgNum = n := by
    intro n hn
    obtain ⟨eid, _, ie, hie, hnum⟩ := FasVc.mem_cdgsOf.mp hn
    exact hcomb.cdg_of_edge ie (List.mem_of_getElem? hie) n hnum
  have hnums : ∀ n ∈ vc.cdgsOf (feedbackArcSet vc.weighted), ∃ c ∈ cdgs, c.cdgNum = n := by
    intro n hn
    obtain ⟨c, hc, hcn⟩ := hfrom n hn
    exact ⟨c, hs.mem c hc, hcn⟩
  obtain ⟨next, hnext, hmap, hmem⟩ := h.mapM_getElem? hnums
  have hold : ∀ c ∈ next, c ∈ s.nextVcCdgs := by
    intro c hc
    have hn : c.cdgNum ∈ vc.cdgsOf (feedbackArcSet vc.weighted) := by
      rw [← hmap]
      exact List.mem_map_of_mem hc
    obtain ⟨c', hc', he⟩ := hfrom _ hn
    rwa [← h.nodup.eq (hs.mem c' hc') (hmem c hc) he]
  refine ⟨vc, next, hvc, makeVcFas_eq hvc hnext, hmap, hold, hmem, ?_, ?_⟩
  · intro vc' hvc'
    rcases List.mem_append.mp hvc' with hvc' | hvc'
    · exact hs.acyclic vc' hvc'
    · rw [List.mem_singleton.mp hvc', FasVc.pairs_deleteEdges]
      exact (hfas vc.weighted).acyclic
  · intro c hc hcn
    by_cases hcs : c ∈ s.nextVcCdgs
    · refine ⟨_, List.mem_append_right _ (List.mem_singleton.mpr rfl), ?_⟩
      apply hcomb.contains hcs
      rw [← hmap, List.mem_map]
      rintro ⟨c', hc', he⟩
      exact hcn (h.nodup.eq (hmem c' hc') hc he ▸ hc')
    · obtain ⟨vc', hvc', hcont⟩ := hs.placed c hc hcs
      exact ⟨vc', List.mem_append_left _ hvc', hcont⟩

/-- A pass of the loop either ends it with every path graph placed, or is a round. -/
lemma FasAssigning.fasRound (h : Numbered A cdgs) (hfas : ∀ g, IsFas g (feedbackArcSet g))
    {s : FasAssignment α} (hs : FasAssigning cdgs s) :
    (s.nextVcCdgs = [] ∧ fasRound feedbackArcSet A cdgs s = .done (some s.vcs)) ∨
      (s.nextVcCdgs ≠ [] ∧ ∃ s', fasRound feedbackArcSet A cdgs s = .next s' ∧
        FasAssigning cdgs s' ∧ (∀ c ∈ s'.nextVcCdgs, c ∈ s.nextVcCdgs) ∧
        (s'.nextVcCdgs = [] → KeepsOne feedbackArcSet A s) ∧
        (KeepsOne feedbackArcSet A s → ∃ c ∈ s.nextVcCdgs, c ∉ s'.nextVcCdgs)) := by
  rw [ResSim.fasRound]
  by_cases hne : 0 < s.nextVcCdgs.length
  · right
    obtain ⟨vc, next, hvc, hrun, hmap, hold, hs'⟩ := hs.makeVcFas h hfas
    refine ⟨List.length_pos_iff.mp hne, _, by rw [if_pos hne, hrun], hs', hold, ?_, ?_⟩
    · intro hnil
      change next = [] at hnil
      obtain ⟨c, hc⟩ := List.exists_mem_of_length_pos hne
      refine ⟨vc, hvc, c, hc, ?_⟩
      rw [← hmap, hnil]
      exact List.not_mem_nil
    · rintro ⟨vc', hvc', c, hc, hn⟩
      rw [hvc, Option.some.injEq] at hvc'
      subst hvc'
      refine ⟨c, hc, fun hcn => hn ?_⟩
      rw [← hmap]
      exact List.mem_map_of_mem hcn
  · left
    exact ⟨List.length_eq_zero_iff.mp (by omega), if_neg hne⟩

lemma FasAssigning.reaches (h : Numbered A cdgs) (hfas : ∀ g, IsFas g (feedbackArcSet g))
    {s s' : FasAssignment α} (hs : FasAssigning cdgs s)
    (hr : Loop.Reaches (ResSim.fasRound feedbackArcSet A cdgs) s s') :
    FasAssigning cdgs s' ∧ ∀ c ∈ s'.nextVcCdgs, c ∈ s.nextVcCdgs := by
  refine hr.invariant (fun t => FasAssigning cdgs t ∧ ∀ c ∈ t.nextVcCdgs, c ∈ s.nextVcCdgs)
    ?_ ⟨hs, fun c hc => hc⟩
  rintro t t' ⟨ht, hsub⟩ hn
  rcases ht.fasRound h hfas with ⟨_, hd⟩ | ⟨_, t₁, hn', ht', hsub', _⟩
  · rw [hd] at hn
    cases hn
  · rw [hn', Step.next.injEq] at hn
    subst hn
    exact ⟨ht', fun c hc => hsub c (hsub' c hc)⟩

/-- If the rounds end, the last round that has path graphs keeps one. -/
lemma FasAssigning.keepsOne_of_returns (h : Numbered A cdgs)
    (hfas : ∀ g, IsFas g (feedbackArcSet g)) {s : FasAssignment α} (hs : FasAssigning cdgs s)
    (hne : s.nextVcCdgs ≠ []) {r : Option (List (FasVc α))}
    (hr : Loop.Returns (ResSim.fasRound feedbackArcSet A cdgs) s r) :
    ∃ s', Loop.Reaches (ResSim.fasRound feedbackArcSet A cdgs) s s' ∧
      KeepsOne feedbackArcSet A s' := by
  obtain ⟨last, hlast, hdone⟩ := hr.exists_last
  have hnil : last.nextVcCdgs = [] := by
    rcases (hs.reaches h hfas hlast).1.fasRound h hfas with ⟨hnil, _⟩ | ⟨_, _, hn, _⟩
    · exact hnil
    · rw [hdone] at hn
      cases hn
  clear hdone
  cases hlast with
  | refl => exact absurd hnil hne
  | tail hs₁ hstep =>
    refine ⟨_, hs₁, ?_⟩
    rcases (hs.reaches h hfas hs₁).1.fasRound h hfas with ⟨_, hd⟩ | ⟨_, s₂, hn, _, _, hkeep, _⟩
    · rw [hd] at hstep
      cases hstep
    · rw [hn, Step.next.injEq] at hstep
      exact hkeep (hstep ▸ hnil)

/-- The number of different path graphs left. -/
def distinctLeft (s : FasAssignment α) : ℕ := (s.nextVcCdgs.map PathCdg.cdgNum).toFinset.card

/-- If some later round always keeps a path graph, the rounds end. -/
lemma FasAssigning.returns (h : Numbered A cdgs) (hfas : ∀ g, IsFas g (feedbackArcSet g))
    {s : FasAssignment α} (hs : FasAssigning cdgs s)
    (hkeep : ∀ s', Loop.Reaches (ResSim.fasRound feedbackArcSet A cdgs) s s' →
      s'.nextVcCdgs ≠ [] → ∃ s'', Loop.Reaches (ResSim.fasRound feedbackArcSet A cdgs) s' s'' ∧
        KeepsOne feedbackArcSet A s'') :
    ∃ r, Loop.Returns (ResSim.fasRound feedbackArcSet A cdgs) s r := by
  induction hn : distinctLeft s using Nat.strong_induction_on generalizing s with
  | _ n ih =>
    subst hn
    by_cases hne : s.nextVcCdgs = []
    · rcases hs.fasRound h hfas with ⟨_, hd⟩ | ⟨hne', _⟩
      · exact ⟨_, .of_done hd⟩
      · exact absurd hne hne'
    · obtain ⟨s₁, hs₁, hk⟩ := hkeep s .refl hne
      obtain ⟨hs₁', hsub⟩ := hs.reaches h hfas hs₁
      have hne₁ : s₁.nextVcCdgs ≠ [] := by
        obtain ⟨_, _, c, hc, _⟩ := hk
        exact List.ne_nil_of_mem hc
      rcases hs₁'.fasRound h hfas with ⟨hnil, _⟩ | ⟨_, s₂, hstep, hs₂, hsub₂, _, hless⟩
      · exact absurd hnil hne₁
      obtain ⟨c, hc, hcn⟩ := hless hk
      have hlt : distinctLeft s₂ < distinctLeft s := by
        apply Finset.card_lt_card
        rw [Finset.ssubset_iff_of_subset]
        · refine ⟨c.cdgNum, List.mem_toFinset.mpr (List.mem_map_of_mem (hsub c hc)), ?_⟩
          rw [List.mem_toFinset, List.mem_map]
          rintro ⟨c', hc', he⟩
          exact hcn (h.nodup.eq (hs₂.mem c' hc') (hs₁'.mem c hc) he ▸ hc')
        · intro n hn
          obtain ⟨c', hc', rfl⟩ := List.mem_map.mp (List.mem_toFinset.mp hn)
          exact List.mem_toFinset.mpr (List.mem_map_of_mem (hsub c' (hsub₂ c' hc')))
      have hs₂r : Loop.Reaches (ResSim.fasRound feedbackArcSet A cdgs) s s₂ := hs₁.tail hstep
      obtain ⟨r, hr⟩ := ih _ hlt hs₂ (fun s' hs' => hkeep s' (hs₂r.trans hs')) rfl
      exact ⟨r, hr.of_reaches hs₂r⟩

/-- The assignment ends, and every path graph is contained in an acyclic channel. -/
def FasComplete (feedbackArcSet : WGraph α → List ℕ) (A : List α)
    (cdgs : List (PathCdg α)) : Prop :=
  ∃ fuel vcs, assignVcsFas fuel feedbackArcSet A cdgs = some vcs ∧
    ∀ c ∈ cdgs, ∃ vc ∈ vcs, Acyclic (EdgeRel vc.pairs) ∧ vc.Contains c

/-- The assignment ends with every path graph in an acyclic channel exactly if after every
round that still has path graphs, at once or later, some round keeps one. -/
lemma fasComplete_iff (h : Numbered A cdgs)
    (hfas : ∀ g, IsMinFas g (feedbackArcSet g)) :
    FasComplete feedbackArcSet A cdgs ↔
      ∀ s, Loop.Reaches (ResSim.fasRound feedbackArcSet A cdgs) ⟨cdgs, []⟩ s →
        s.nextVcCdgs ≠ [] →
        ∃ s', Loop.Reaches (ResSim.fasRound feedbackArcSet A cdgs) s s' ∧
          KeepsOne feedbackArcSet A s' := by
  have hfas' : ∀ g, IsFas g (feedbackArcSet g) := fun g => (hfas g).1
  have hstart : FasAssigning cdgs (⟨cdgs, []⟩ : FasAssignment α) :=
    ⟨fun c hc => hc, by simp, fun c hc hcn => absurd hc hcn⟩
  constructor
  · rintro ⟨fuel, vcs, hrun, _⟩ s hs hne
    obtain ⟨vcs', hjoin⟩ : ∃ vcs', (Loop.run (ResSim.fasRound feedbackArcSet A cdgs) fuel
        ⟨cdgs, []⟩).join = some vcs' := by
      rw [assignVcsFas, h.numbered] at hrun
      cases hj : (Loop.run (ResSim.fasRound feedbackArcSet A cdgs) fuel ⟨cdgs, []⟩).join with
      | none =>
        rw [hj] at hrun
        cases hrun
      | some vcs' => exact ⟨vcs', rfl⟩
    have hret : Loop.Returns (ResSim.fasRound feedbackArcSet A cdgs) ⟨cdgs, []⟩ (some vcs') :=
      ⟨fuel, Option.join_eq_some_iff.mp hjoin⟩
    exact (hstart.reaches h hfas' hs).1.keepsOne_of_returns h hfas' hne (hret.along hs)
  · intro hkeep
    obtain ⟨r, hr⟩ := hstart.returns h hfas' hkeep
    obtain ⟨last, hlast, hdone⟩ := hr.exists_last
    have hs := (hstart.reaches h hfas' hlast).1
    rcases hs.fasRound h hfas' with ⟨hnil, hd⟩ | ⟨_, _, hn, _⟩
    · rw [hd, Step.done.injEq] at hdone
      subst hdone
      obtain ⟨fuel, hrun⟩ := hr
      refine ⟨fuel, last.vcs, ?_, fun c hc => ?_⟩
      · have hdag : last.vcs.all (fun vc => isDag vc.pairs) = true := by
          rw [List.all_eq_true]
          exact fun vc hvc => isDag_iff.mpr (hs.acyclic vc hvc)
        rw [assignVcsFas, hrun, h.numbered]
        simp only [Option.join_some, Option.bind_eq_bind, Option.bind_some, hdag, guard, if_true]
        rfl
      · obtain ⟨vc, hvc, hcont⟩ := hs.placed c hc (by rw [hnil]; exact List.not_mem_nil)
        exact ⟨vc, hvc, hs.acyclic vc hvc, hcont⟩
    · rw [hdone] at hn
      cases hn

/-- The assignment ends with every path graph in an acyclic channel whenever each round that
still has path graphs keeps one. -/
theorem assignVcsFas_complete (h : Numbered A cdgs) (hfas : ∀ g, IsMinFas g (feedbackArcSet g))
    (hkeep : ∀ s, Loop.Reaches (ResSim.fasRound feedbackArcSet A cdgs) ⟨cdgs, []⟩ s →
      s.nextVcCdgs ≠ [] → KeepsOne feedbackArcSet A s) :
    FasComplete feedbackArcSet A cdgs :=
  (fasComplete_iff h hfas).mpr fun s hs hne => ⟨s, .refl, hkeep s hs hne⟩

/-- On the triangle the first round keeps one of the two paths and the second round the other. -/
theorem assignVcsFas_complete_triangle : (Numbered [0, 1, 2] triangleCdgs ∧
    (∀ g : WGraph ℕ, IsMinFas g (bruteFas g)) ∧
    ∀ s, Loop.Reaches (ResSim.fasRound bruteFas [0, 1, 2] triangleCdgs) ⟨triangleCdgs, []⟩ s →
      s.nextVcCdgs ≠ [] → KeepsOne bruteFas [0, 1, 2] s) ∧
    FasComplete bruteFas [0, 1, 2] triangleCdgs := by
  have hkeep : ∀ s, Loop.Reaches (ResSim.fasRound bruteFas [0, 1, 2] triangleCdgs)
      ⟨triangleCdgs, []⟩ s → s.nextVcCdgs ≠ [] → KeepsOne bruteFas [0, 1, 2] s := by
    intro s hs
    have hrun : (Loop.run (ResSim.fasRound bruteFas [0, 1, 2] triangleCdgs) 3
        ⟨triangleCdgs, []⟩).isSome = true := by
      decide +kernel
    have hall : ∀ t ∈ Loop.states (ResSim.fasRound bruteFas [0, 1, 2] triangleCdgs) 3
        ⟨triangleCdgs, []⟩, t.nextVcCdgs ≠ [] → KeepsOne bruteFas [0, 1, 2] t := by
      decide +kernel
    exact hall s (hs.mem_states hrun)
  exact ⟨⟨triangleCdgs_numbered, bruteFas_isMin, hkeep⟩,
    assignVcsFas_complete triangleCdgs_numbered bruteFas_isMin hkeep⟩

end Rounds

/-! ### Rounds that never end -/

/-- Three paths that share three pairs of opposite dependencies. Each path induces the
lighter dependency of one pair alone. -/
def pairsCdgs : List (PathCdg ℕ) :=
  [⟨0, [(0, 1), (1, 6), (6, 3), (3, 2), (2, 7), (7, 5), (5, 4)], by decide, by decide⟩,
    ⟨1, [(1, 0), (0, 8), (8, 2), (2, 3), (3, 9), (9, 5), (5, 4)], by decide, by decide⟩,
    ⟨2, [(1, 0), (0, 10), (10, 3), (3, 2), (2, 11), (11, 4), (4, 5)], by decide, by decide⟩]

/-- The channel of all three paths. -/
def pairsVc : FasVc ℕ where
  vs := List.range 12
  es := [⟨0, 1, [0]⟩, ⟨1, 6, [0]⟩, ⟨6, 3, [0]⟩, ⟨3, 2, [0, 2]⟩, ⟨2, 7, [0]⟩, ⟨7, 5, [0]⟩,
    ⟨5, 4, [0, 1]⟩, ⟨1, 0, [1, 2]⟩, ⟨0, 8, [1]⟩, ⟨8, 2, [1]⟩, ⟨2, 3, [1]⟩, ⟨3, 9, [1]⟩,
    ⟨9, 5, [1]⟩, ⟨0, 10, [2]⟩, ⟨10, 3, [2]⟩, ⟨2, 11, [2]⟩, ⟨11, 4, [2]⟩, ⟨4, 5, [2]⟩]

lemma buildCdgVcFas_pairsCdgs : buildCdgVcFas (List.range 12) pairsCdgs = some pairsVc := by
  decide

lemma isFas_pairsVc : IsFas pairsVc.weighted [0, 10, 17] :=
  ⟨by decide, by decide, by decide⟩

/-- The only minimum feedback arc set consists of the three lighter dependencies. -/
lemma mem_of_isMinFas_pairsVc {ids : List ℕ} (h : IsMinFas pairsVc.weighted ids) (i : ℕ) :
    i ∈ ids ↔ i ∈ [0, 10, 17] := by
  have hle : fasWeight pairsVc.weighted ids ≤ 3 := h.2 _ isFas_pairsVc
  have hnot : ∀ i j k, [i, j, k].Nodup → 3 < fasWeight pairsVc.weighted [i, j, k] →
      i ∈ ids → j ∈ ids → k ∈ ids → False := by
    intro i j k hn hw hi hj hk
    have := fasWeight_le_of_subset pairsVc.weighted hn (List.cons_subset.mpr
      ⟨hi, List.cons_subset.mpr ⟨hj, List.cons_subset.mpr ⟨hk, List.nil_subset _⟩⟩⟩)
    omega
  have h₁ := h.1.mem_or_mem (a := 0) (b := 1) (i := 0) (j := 7) rfl rfl
  have h₂ := h.1.mem_or_mem (a := 2) (b := 3) (i := 10) (j := 3) rfl rfl
  have h₃ := h.1.mem_or_mem (a := 4) (b := 5) (i := 17) (j := 6) rfl rfl
  have hlight : 0 ∈ ids ∧ 10 ∈ ids ∧ 17 ∈ ids := by
    rcases h₁ with h₁ | h₁ <;> rcases h₂ with h₂ | h₂ <;> rcases h₃ with h₃ | h₃
    · exact ⟨h₁, h₂, h₃⟩
    all_goals exact (hnot _ _ _ (by decide) (by decide) h₁ h₂ h₃).elim
  have hsub : [0, 10, 17] ⊆ ids := List.cons_subset.mpr
    ⟨hlight.1, List.cons_subset.mpr ⟨hlight.2.1, List.cons_subset.mpr
      ⟨hlight.2.2, List.nil_subset _⟩⟩⟩
  refine ⟨fun hi => ?_, fun hi => hsub hi⟩
  by_contra hne
  have hw := fasWeight_le_of_subset pairsVc.weighted
    (List.nodup_cons.mpr ⟨hne, by decide⟩) (List.cons_subset.mpr ⟨hi, hsub⟩)
  have hpos : ∀ i < 18, 0 < edgeWeight pairsVc.weighted i := by decide
  have hsum : fasWeight pairsVc.weighted [i, 0, 10, 17] =
      edgeWeight pairsVc.weighted i + 3 := rfl
  have := hpos i (h.1.lt i hi)
  omega

lemma bruteFas_pairsVc : bruteFas pairsVc.weighted = [0, 10, 17] := by
  have hmin := bruteFas_isMin pairsVc.weighted
  have hsub := bruteFas_sublist pairsVc.weighted
  have hperm : (bruteFas pairsVc.weighted).Perm [0, 10, 17] :=
    (List.perm_ext_iff_of_nodup hmin.1.nodup (by decide)).mpr (mem_of_isMinFas_pairsVc hmin)
  have hlt : (bruteFas pairsVc.weighted).Pairwise (· < ·) := List.pairwise_lt_range.sublist hsub
  exact hperm.eq_of_pairwise (fun a b _ _ h h' => absurd h (lt_asymm h')) hlt (by decide)

/-- A round over the three paths leaves the three paths to the next one. -/
lemma makeVcFas_pairsCdgs (vcs : List (FasVc ℕ)) :
    makeVcFas bruteFas (List.range 12) pairsCdgs ⟨pairsCdgs, vcs⟩ =
      some ⟨pairsCdgs, vcs ++ [pairsVc.deleteEdges [0, 10, 17]]⟩ := by
  have hnums : pairsVc.cdgsOf [0, 10, 17] = [0, 1, 2] := by decide
  have hlook : [0, 1, 2].mapM (fun i => pairsCdgs[i]?) = some pairsCdgs := rfl
  have hnext : (pairsVc.cdgsOf (bruteFas pairsVc.weighted)).mapM (fun i => pairsCdgs[i]?) =
      some pairsCdgs := by
    rw [bruteFas_pairsVc, hnums, hlook]
  have hvc : buildCdgVcFas (List.range 12)
      (⟨pairsCdgs, vcs⟩ : FasAssignment ℕ).nextVcCdgs = some pairsVc := buildCdgVcFas_pairsCdgs
  have heq := makeVcFas_eq hvc hnext
  rw [bruteFas_pairsVc] at heq
  exact heq

/-- A minimum feedback arc set can touch all paths; then the rounds never end. -/
theorem assignVcsFas_hangs : (∀ g : WGraph ℕ, IsMinFas g (bruteFas g)) ∧
    Numbered (List.range 12) pairsCdgs ∧
    (¬ ∃ r, Loop.Returns (fasRound bruteFas (List.range 12) pairsCdgs) ⟨pairsCdgs, []⟩ r) ∧
    ¬ FasComplete bruteFas (List.range 12) pairsCdgs := by
  have hforever : ¬ ∃ r, Loop.Returns (fasRound bruteFas (List.range 12) pairsCdgs)
      ⟨pairsCdgs, []⟩ r := by
    apply Loop.not_returns_of_forever (fun s : FasAssignment ℕ => s.nextVcCdgs = pairsCdgs) _ rfl
    rintro ⟨next, vcs⟩ rfl
    refine ⟨⟨pairsCdgs, vcs ++ [pairsVc.deleteEdges [0, 10, 17]]⟩, ?_, rfl⟩
    rw [fasRound, if_pos (show 0 < pairsCdgs.length by decide), makeVcFas_pairsCdgs]
  refine ⟨bruteFas_isMin, ?_, hforever, ?_⟩
  · refine ⟨by unfold Covers; decide, fun i c hc => ?_⟩
    match i, hc with
    | 0, rfl => rfl
    | 1, rfl => rfl
    | 2, rfl => rfl
  · rintro ⟨fuel, vcs, hrun, _⟩
    cases hloop : Loop.run (fasRound bruteFas (List.range 12) pairsCdgs) fuel ⟨pairsCdgs, []⟩ with
    | none =>
      rw [assignVcsFas, hloop] at hrun
      cases hrun
    | some r => exact hforever ⟨r, fuel, hloop⟩

end ResSim
