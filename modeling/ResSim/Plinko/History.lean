import ResSim.Plinko.Walk
import ResSim.Topo.BuildGraph

/-!
# The way back tells the way

The way back of a packet is put together from stretches, each the reverse of the ports that the
packet left switches by up to a link that is down. Reversing twice gives a path back, so the
switch a packet is at and the way back that it carries tell where it started and which ports it
took, whatever table it followed and whatever links were down.
-/

namespace ResSim

section Reverse

variable {V E : Type} [DecidableEq V] {G : PortGraph V E} {u v w : V} {path r : List ℕ}

/-- The way back over a path leads back. -/
lemma reversePath_leads (h : G.Leads ∅ v path u) : ∃ r, reversePath G v path = some (u, r) ∧
    G.Leads ∅ u r v ∧ reversePath G u r = some (v, path) := by
  obtain ⟨r, arcs, hr, -, -⟩ := leads_iff.mp h
  have hback := reversePath_reverse hr
  obtain ⟨arcs', harcs⟩ := exists_arcSet hback
  exact ⟨r, hr, leads_of_arcSet hback harcs fun a _ => Finset.notMem_empty a.2, hback⟩

/-- Paths with one end and one way back are the same. -/
lemma reversePath_inj {v' : V} {path' : List ℕ} (h : reversePath G v path = some (u, r))
    (h' : reversePath G v' path' = some (u, r)) : v = v' ∧ path = path' := by
  have hback := (reversePath_reverse h).symm.trans (reversePath_reverse h')
  exact Prod.mk.inj (Option.some.inj hback)

variable [DecidableEq E]

/-- `revpath_at_fail` reverses the ports that it goes over. -/
lemma reversePath_of_revpathAtFail {edges : Finset E}
    (h : revpathAtFail G edges v path = some (w, r)) :
    reversePath G v (path.take r.length) = some (w, r) := by
  induction path generalizing v r with
  | nil =>
    obtain ⟨rfl, rfl⟩ := Prod.mk.inj (Option.some.inj h)
    rfl
  | cons hop path ih =>
    rw [revpathAtFail, Option.bind_eq_bind, Option.bind_eq_some_iff] at h
    obtain ⟨⟨e, x, q⟩, hhop, h⟩ := h
    by_cases he : e ∈ edges
    · obtain ⟨rfl, rfl⟩ := Prod.mk.inj (Option.some.inj ((if_pos he).symm.trans h))
      rfl
    · obtain ⟨⟨y, r'⟩, hrun, heq⟩ := Option.bind_eq_some_iff.mp ((if_neg he).symm.trans h)
      obtain ⟨rfl, rfl⟩ := Prod.mk.inj (Option.some.inj heq)
      rw [List.length_append, List.length_singleton, List.take_succ_cons]
      exact reversePath_cons.mpr ⟨e, x, q, r', hhop, ih hrun, rfl⟩

end Reverse

/-! ### Packets -/

section Stretches

variable {V E : Type} [DecidableEq V] [DecidableEq E] {G : PortGraph V E} {src src' : V}
  {s s' : PlinkoWalk V} {failExp failExp' : Bool}

/-- A stretch of a walk: a packet follows some ports up to the first link that is down. Which
ports it is given, and which links are down, is left open. -/
def Stretch (G : PortGraph V E) (s s' : PlinkoWalk V) : Prop :=
  ∃ (out : List ℕ) (failedE : Finset E) (nrp : List ℕ),
    revpathAtFail G failedE s.v out = some (s'.v, nrp) ∧
    s'.hops = s.hops ++ out.take nrp.length ∧ s'.rp = nrp ++ s.rp

/-- What a packet carries is the way back over the ports that it took. -/
lemma Stretch.reversePath_eq (h : Stretch G s s')
    (hs : reversePath G src s.hops = some (s.v, s.rp)) :
    reversePath G src s'.hops = some (s'.v, s'.rp) := by
  obtain ⟨out, failedE, nrp, hrun, hhops, hrp⟩ := h
  rw [hhops, hrp]
  exact reversePath_append.mpr ⟨s.v, s.rp, nrp, hs, reversePath_of_revpathAtFail hrun, rfl⟩

lemma reversePath_of_stretches
    (h : Relation.ReflTransGen (Stretch G) ⟨[], [], src, failExp⟩ s) :
    reversePath G src s.hops = some (s.v, s.rp) := by
  induction h with
  | refl => rfl
  | tail _ hstep ih => exact hstep.reversePath_eq ih

/-- Packets at one switch with one way back have one history. -/
theorem history_of_rp (h : Relation.ReflTransGen (Stretch G) ⟨[], [], src, failExp⟩ s)
    (h' : Relation.ReflTransGen (Stretch G) ⟨[], [], src', failExp'⟩ s') (hv : s.v = s'.v)
    (hrp : s.rp = s'.rp) : src = src' ∧ s.hops = s'.hops := by
  have hs' := reversePath_of_stretches h'
  rw [← hv, ← hrp] at hs'
  exact reversePath_inj (reversePath_of_stretches h) hs'

/-- The arcs that `main` finds by reversing the way back are those that the packet took. -/
theorem arcSet_of_rp (h : Relation.ReflTransGen (Stretch G) ⟨[], [], src, failExp⟩ s) :
    ∃ arcs, (reversePath G s.v s.rp).bind (fun x => arcSet G x.1 x.2) = some arcs ∧
      arcSet G src s.hops = some arcs := by
  have hback := reversePath_of_stretches h
  obtain ⟨arcs, harcs⟩ := exists_arcSet hback
  exact ⟨arcs, by rw [reversePath_reverse hback, Option.bind_some, harcs], harcs⟩

variable {tbl : PlinkoTable G} {dst : V} {F : Finset E} {failedV : Finset V}

/-- A pass of the loop of `plinko_walk_path` is a stretch. -/
lemma stretch_of_plinkoWalkStep (h : plinkoWalkStep G tbl dst F failedV s = .next s') :
    Stretch G s s' := by
  rw [plinkoWalkStep] at h
  split at h
  · cases h
  · split at h
    · cases h
    · dsimp only at h
      split at h
      · cases h
      · rename_i fs out _
        split at h
        · cases h
        · rename_i w nrp hfollow
          obtain ⟨P, hP, hrun⟩ := Option.bind_eq_some_iff.mp hfollow
          obtain ⟨hPv, hPpath⟩ := mkPath_eq_some hP
          rw [hPv, hPpath] at hrun
          rw [← Step.next.inj h]
          exact ⟨out, F, nrp, hrun, rfl, rfl⟩
      · cases h

lemma stretches_of_reaches (h : Loop.Reaches (plinkoWalkStep G tbl dst F failedV) s s') :
    Relation.ReflTransGen (Stretch G) s s' :=
  Relation.ReflTransGen.mono (fun _ _ => stretch_of_plinkoWalkStep) _ _ h

/-- Nothing is lost by reversing paths over `G`. -/
structure KeepsHistory (G : PortGraph V E) : Prop where
  /-- A path is given back by reversing it twice. -/
  back : ∀ v path u, G.Leads ∅ v path u → ∃ r, reversePath G v path = some (u, r) ∧
    G.Leads ∅ u r v ∧ reversePath G u r = some (v, path)
  /-- Packets at one switch with one way back started at one switch and took the same ports. -/
  history : ∀ src src' s s', Relation.ReflTransGen (Stretch G) ⟨[], [], src, false⟩ s →
    Relation.ReflTransGen (Stretch G) ⟨[], [], src', false⟩ s' → s.v = s'.v → s.rp = s'.rp →
      src = src' ∧ s.hops = s'.hops
  /-- `main` finds the arcs that a packet took. -/
  arcs : ∀ src s, Relation.ReflTransGen (Stretch G) ⟨[], [], src, false⟩ s →
    ∃ arcs, (reversePath G s.v s.rp).bind (fun x => arcSet G x.1 x.2) = some arcs ∧
      arcSet G src s.hops = some arcs
  /-- The packets of `plinko_walk_path` are among them. -/
  walks : ∀ (tbl : PlinkoTable G) dst F failedV src s,
    Loop.Reaches (plinkoWalkStep G tbl dst F failedV) ⟨[], [], src, false⟩ s →
      Relation.ReflTransGen (Stretch G) ⟨[], [], src, false⟩ s

theorem keepsHistory (G : PortGraph V E) : KeepsHistory G where
  back _ _ _ := reversePath_leads
  history _ _ _ _ h h' hv hrp := history_of_rp h h' hv hrp
  arcs _ _ := arcSet_of_rp
  walks _ _ _ _ _ _ := stretches_of_reaches

end Stretches

/-! ### Graphs of topologies -/

section Built

open ResSim.Topology

variable {inetAton : Text → Bool} {link : Text → ℕ → Text → ℕ → Prop}
  {file : List (Text × List (ℕ × Text))}

/-- A topology that has every link at both of its ends, on ports of its own. -/
structure ConsistentFile (inetAton : Text → Bool) (link : Text → ℕ → Text → ℕ → Prop)
    (file : List (Text × List (ℕ × Text))) : Prop where
  linking : Linking link
  entry : ∀ sw ∈ file, ∀ y ∈ sw.2, EntryOk inetAton link sw.1 y.1 y.2
  written : ∀ s p t q, link s p t q → At (dictPairs file) s p
  switch : ∀ s p t q, link s p t q → s ∈ file.map Prod.fst

/-- `build_graph` makes of a consistent topology a graph whose hops are those of `v.edges` and
`get_other`, and over which ways back keep the history of the packets. -/
theorem buildGraph_keepsHistory (listV : List Text → List Text) (listE : List Edge → List Edge)
    (hfile : ConsistentFile inetAton link file) :
    ∃ g, ∃ h : Built inetAton link file g, buildGraph inetAton listV listE file = some g ∧
      (∀ v p e w q, (h.portGraph hfile.linking).hop v p = some (e, w, q) ↔
        dictGet (g.vertex v).edges p = some e.1 ∧ e.1.getOther v p = some (w.1, q)) ∧
      KeepsHistory (h.portGraph hfile.linking) := by
  obtain ⟨g, hrun, h⟩ := buildGraph_built hfile.linking hfile.entry hfile.written hfile.switch
  refine ⟨g, h, hrun, fun v p e w q => ?_, keepsHistory _⟩
  exact h.portGraph_hop hfile.linking v w p q e

/-- Two switches, and a link from port 1 of the first to port 2 of the second. -/
def pairFile : List (Text × List (ℕ × Text)) :=
  [("s1".toList, [(1, "s2 port 2".toList)]), ("s2".toList, [(2, "s1 port 1".toList)])]

/-- Which ports `pairFile` links. -/
def pairLink (s : Text) (p : ℕ) (t : Text) (q : ℕ) : Prop :=
  (s = "s1".toList ∧ p = 1 ∧ t = "s2".toList ∧ q = 2) ∨
    (s = "s2".toList ∧ p = 2 ∧ t = "s1".toList ∧ q = 1)

lemma consistentFile_pairFile : ConsistentFile (fun _ => false) pairLink pairFile where
  linking := by
    refine ⟨?_, ?_, ?_⟩
    · rintro s p t q (⟨rfl, rfl, rfl, rfl⟩ | ⟨rfl, rfl, rfl, rfl⟩)
      · exact .inr ⟨rfl, rfl, rfl, rfl⟩
      · exact .inl ⟨rfl, rfl, rfl, rfl⟩
    · rintro s p t q t' q' (⟨rfl, rfl, rfl, rfl⟩ | ⟨rfl, rfl, rfl, rfl⟩) h
      · obtain ⟨_, _, ht, hq⟩ := h.resolve_right fun hn => absurd hn.1 (by decide)
        exact ⟨ht.symm, hq.symm⟩
      · obtain ⟨_, _, ht, hq⟩ := h.resolve_left fun hn => absurd hn.1 (by decide)
        exact ⟨ht.symm, hq.symm⟩
    · rintro s p t q (⟨rfl, rfl, rfl, rfl⟩ | ⟨rfl, rfl, rfl, rfl⟩)
      · decide
      · decide
  entry := by
    simp only [pairFile, List.forall_mem_cons, List.not_mem_nil, false_imp_iff, implies_true,
      and_true]
    exact ⟨.link 2 (by decide) (by decide) (.inl ⟨rfl, rfl, by decide, rfl⟩),
      .link 1 (by decide) (by decide) (.inr ⟨rfl, rfl, by decide, rfl⟩)⟩
  written := by
    rintro s p t q (⟨rfl, rfl, rfl, rfl⟩ | ⟨rfl, rfl, rfl, rfl⟩)
    · unfold At
      decide
    · unfold At
      decide
  switch := by
    rintro s p t q (⟨rfl, rfl, rfl, rfl⟩ | ⟨rfl, rfl, rfl, rfl⟩)
    · decide
    · decide

theorem buildGraph_keepsHistory_pairFile :
    ∃ g, ∃ h : Built (fun _ => false) pairLink pairFile g,
      buildGraph (fun _ => false) id id pairFile = some g ∧
      (∀ v p e w q, (h.portGraph consistentFile_pairFile.linking).hop v p = some (e, w, q) ↔
        dictGet (g.vertex v).edges p = some e.1 ∧ e.1.getOther v p = some (w.1, q)) ∧
      KeepsHistory (h.portGraph consistentFile_pairFile.linking) :=
  buildGraph_keepsHistory id id consistentFile_pairFile

end Built

end ResSim
