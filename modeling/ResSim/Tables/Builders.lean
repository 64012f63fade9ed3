import ResSim.Plinko.VertexRounds
import ResSim.Tables.PlinkoTable
import ResSim.Tables.TreeTable
import ResSim.Trees.Adst
import ResSim.Trees.DfrTable
import ResSim.Trees.Edst

/-!
# From the tables that are built

The tables of trees and of Plinko that are built over the graph of a topology can be written: an
entry of a tree names the link at its port, and an entry of Plinko has a path that is not empty.
-/

namespace ResSim

open ResSim.Topology

section Trees

variable {V E τ : Type} [DecidableEq V] {G : PortGraph V E} {fpaths : V → τ → List ℕ} {v : V}

/-- Every entry names the link at its port. -/
def EdgesAtPorts (G : PortGraph V E) (v : V) (entries : List (FwdEntry τ E)) : Prop :=
  ∀ entry ∈ entries, G.edges v entry.port = some entry.ue

omit [DecidableEq V] in
lemma edgesAtPorts_append {l l' : List (FwdEntry τ E)} (h : EdgesAtPorts G v l)
    (h' : EdgesAtPorts G v l') : EdgesAtPorts G v (l ++ l') :=
  List.forall_mem_append.mpr ⟨h, h'⟩

omit [DecidableEq V] in
lemma treeEntry_edges {iT : τ} {usedTrees : List τ} {entry : FwdEntry τ E}
    (h : treeEntry G fpaths v iT usedTrees = some entry) :
    G.edges v entry.port = some entry.ue := by
  unfold treeEntry at h
  obtain ⟨port, -, h⟩ := Option.bind_eq_some_iff.mp h
  obtain ⟨e, he, h⟩ := Option.bind_eq_some_iff.mp h
  rw [← Option.some.inj h]
  exact he

omit [DecidableEq V] in
lemma mapM_treeEntry_edges {order usedTrees : List τ} {entries : List (FwdEntry τ E)}
    (h : order.mapM (fun iT => treeEntry G fpaths v iT usedTrees) = some entries) :
    EdgesAtPorts G v entries := by
  intro entry hentry
  obtain ⟨iT, -, hrun⟩ := exists_of_forall₂ (forall₂_of_mapM h).flip hentry
  exact treeEntry_edges hrun

omit [DecidableEq V] in
lemma switchTable_edges {startTrees trees : List τ}
    {treeEntries : τ → Option (List (FwdEntry τ E))} {l : List (Option τ × FwdEntry τ E)}
    (h : switchTable G fpaths v startTrees trees treeEntries = some l)
    (htrees : ∀ iT entries, treeEntries iT = some entries → EdgesAtPorts G v entries) :
    EdgesAtPorts G v (l.map Prod.snd) := by
  unfold switchTable at h
  obtain ⟨start, hstart, h⟩ := Option.bind_eq_some_iff.mp h
  obtain ⟨rest, hrest, h⟩ := Option.bind_eq_some_iff.mp h
  rw [← Option.some.inj h, List.map_append, List.map_map]
  apply edgesAtPorts_append
  · have hsnd : start.map (Prod.snd ∘ Prod.mk (none : Option τ)) = start := List.map_id _
    rw [hsnd]
    exact mapM_treeEntry_edges hstart
  · rw [List.map_flatten]
    intro entry hentry
    obtain ⟨l', hl', hentry⟩ := List.mem_flatten.mp hentry
    obtain ⟨keyed, hkeyed, rfl⟩ := List.mem_map.mp hl'
    obtain ⟨iT, -, hrun⟩ := exists_of_forall₂ (forall₂_of_mapM hrest).flip hkeyed
    obtain ⟨entries, hentries, rfl⟩ := Option.map_eq_some_iff.mp hrun
    have hsnd : (entries.map (Prod.mk (some iT))).map Prod.snd = entries := by
      rw [List.map_map]
      exact List.map_id _
    rw [hsnd] at hentry
    exact htrees iT entries hentries entry hentry

/-- What holds of the tables of all switches holds of the whole table. -/
lemma tableOf_edges {dst : V} {switch : V → Option (List (Option τ × FwdEntry τ E))}
    {table : Fwdtable V τ E} (h : tableOf G dst switch = some table)
    (hswitch : ∀ v l, switch v = some l → EdgesAtPorts G v (l.map Prod.snd)) (v : V) :
    EdgesAtPorts G v ((table v).map Prod.snd) := by
  have hnil : EdgesAtPorts G v (([] : List (Option τ × FwdEntry τ E)).map Prod.snd) :=
    fun entry hentry => absurd hentry List.not_mem_nil
  unfold tableOf at h
  split at h
  · rw [← Option.some.inj h]
    dsimp only
    split
    · exact hnil
    · cases hrun : switch v with
      | none => exact hnil
      | some l => exact hswitch v l hrun
  · cases h

omit [DecidableEq V] in
lemma edstAlternates_edges [DecidableEq τ] {usedTrees order : List τ}
    {entries : List (FwdEntry τ E)}
    (h : edstAlternates G fpaths v usedTrees order = some entries) : EdgesAtPorts G v entries := by
  induction order generalizing usedTrees entries with
  | nil =>
    rw [← Option.some.inj h]
    exact fun entry hentry => absurd hentry List.not_mem_nil
  | cons aiT order ih =>
    unfold edstAlternates at h
    split at h
    · exact ih h
    · obtain ⟨entry, he, h⟩ := Option.bind_eq_some_iff.mp h
      obtain ⟨later, hl, h⟩ := Option.bind_eq_some_iff.mp h
      rw [← Option.some.inj h]
      exact List.forall_mem_cons.mpr ⟨treeEntry_edges he, ih hl⟩

/-- The table for edge-disjoint trees names the links at its ports. -/
theorem edstFwdtableNormal_edges [DecidableEq τ] {forest : List τ} {isDefault : τ → Bool} {dst : V}
    {args : TreeArgs} {draw : V → ℕ} {table : Fwdtable V τ E}
    (h : edstFwdtableNormal G forest isDefault fpaths dst args draw = some table) (v : V) :
    EdgesAtPorts G v ((table v).map Prod.snd) := by
  unfold edstFwdtableNormal at h
  dsimp only at h
  split at h
  · refine tableOf_edges h (fun v l hl => switchTable_edges hl fun iT entries hrun => ?_) v
    unfold edstEntries at hrun
    obtain ⟨entry, he, hrun⟩ := Option.bind_eq_some_iff.mp hrun
    obtain ⟨later, hlater, hrun⟩ := Option.bind_eq_some_iff.mp hrun
    rw [← Option.some.inj hrun]
    exact List.forall_mem_cons.mpr ⟨treeEntry_edges he, edstAlternates_edges hlater⟩
  · cases h

/-- So does the table for trees without failure labels. -/
theorem edstFwdtableDfr_edges [DecidableEq E] {fpaths : V → ℕ → List ℕ} {tree : ℕ → ITree V E}
    {n : ℕ} {getShortestPath : Adj V E → V → V → List E}
    {sort : (ℕ → ℕ → Ordering) → List ℕ → List ℕ} {ttg : Ttg} {dst : V} {args : DfrArgs}
    {draws : ℕ → ℕ} {draw : V → ℕ → ℕ}
    {tables : Fwdtable V ℕ E × (V → List (Option E × FwdEntry ℕ E))}
    (h : edstFwdtableDfr G tree n getShortestPath sort fpaths ttg dst args draws draw = some tables)
    (v : V) : EdgesAtPorts G v ((tables.1 v).map Prod.snd) := by
  unfold edstFwdtableDfr at h
  obtain ⟨layers, -, h⟩ := Option.bind_eq_some_iff.mp h
  obtain ⟨-, -, h⟩ := Option.bind_eq_some_iff.mp h
  obtain ⟨table, htable, h⟩ := Option.bind_eq_some_iff.mp h
  obtain ⟨nopkthdr, -, h⟩ := Option.bind_eq_some_iff.mp h
  rw [← Option.some.inj h]
  exact tableOf_edges htable
    (fun v l hl => switchTable_edges hl fun iT entries hrun => mapM_treeEntry_edges hrun) v

section Adst

variable [DecidableEq E] [DecidableEq τ] {tree : τ → ITree V E} {rtrees : List τ}

lemma withReverse_edges {usedTrees : List τ} {aiT : τ} {entries : List (FwdEntry τ E)}
    (h : withReverse G tree rtrees fpaths v usedTrees aiT = some entries) :
    EdgesAtPorts G v entries := by
  unfold withReverse at h
  obtain ⟨entry, he, h⟩ := Option.bind_eq_some_iff.mp h
  have hone : EdgesAtPorts G v [entry] := List.forall_mem_singleton.mpr (treeEntry_edges he)
  split at h
  · rwa [← Option.some.inj h]
  · split at h
    · rwa [← Option.some.inj h]
    · obtain ⟨rentry, hr, h⟩ := Option.bind_eq_some_iff.mp h
      rw [← Option.some.inj h]
      exact edgesAtPorts_append hone (List.forall_mem_singleton.mpr (treeEntry_edges hr))

lemma adstAlternates_edges {usedTrees order : List τ} {entries : List (FwdEntry τ E)}
    (h : adstAlternates G tree rtrees fpaths v usedTrees order = some entries) :
    EdgesAtPorts G v entries := by
  induction order generalizing usedTrees entries with
  | nil =>
    rw [← Option.some.inj h]
    exact fun entry hentry => absurd hentry List.not_mem_nil
  | cons aiT order ih =>
    unfold adstAlternates at h
    split at h
    · exact ih h
    · obtain ⟨entries, he, h⟩ := Option.bind_eq_some_iff.mp h
      obtain ⟨later, hl, h⟩ := Option.bind_eq_some_iff.mp h
      rw [← Option.some.inj h]
      exact edgesAtPorts_append (withReverse_edges he) (ih hl)

/-- So does the table for arc-disjoint trees. -/
theorem adstFwdtable_edges {forest : List τ} {isDefault : τ → Bool} {dst : V} {args : TreeArgs}
    {draw : V → ℕ} {table : Fwdtable V τ E}
    (h : adstFwdtable G tree forest isDefault fpaths dst args draw = some table) (v : V) :
    EdgesAtPorts G v ((table v).map Prod.snd) := by
  unfold adstFwdtable at h
  dsimp only at h
  split at h
  · refine tableOf_edges h (fun v l hl => switchTable_edges hl fun iT entries hrun => ?_) v
    unfold adstEntries at hrun
    obtain ⟨entries, he, hrun⟩ := Option.bind_eq_some_iff.mp hrun
    obtain ⟨later, hlater, hrun⟩ := Option.bind_eq_some_iff.mp hrun
    rw [← Option.some.inj hrun]
    exact edgesAtPorts_append (withReverse_edges he) (adstAlternates_edges hlater)
  · cases h

end Adst

end Trees

section Topology

variable {inetAton : Text → Bool} {link : Text → ℕ → Text → ℕ → Prop}
  {file : List (Text × List (ℕ × Text))} {g : Graph} (h : Built inetAton link file g)
  (hl : Linking link) {τ : Type} {index : τ → ℕ} {dst : Text}

/-- The entry of a table that is built. -/
structure TreeEntry.Of {v : Text} (x : TreeEntry g index dst v)
    (y : Option τ × FwdEntry τ {e : Edge // e ∈ g.links}) : Prop where
  iT_eq : x.iT = y.1
  aiT_eq : x.aiT = y.2.ntree
  e_eq : x.e = y.2.ue
  port_eq : x.port = y.2.port
  markFailed_eq : x.markFailed = y.2.markFailed

include h in
/-- A table of trees can be written. -/
theorem exists_treeTable (hindex : ∀ T, 0 < index T)
    (v : {v : Text // v ∈ g.verts}) (l : List (Option τ × FwdEntry τ {e : Edge // e ∈ g.links}))
    (hedges : EdgesAtPorts (h.portGraph hl) v (l.map Prod.snd)) :
    ∃ table : List (TreeEntry g index dst v), List.Forall₂ TreeEntry.Of table l := by
  induction l with
  | nil => exact ⟨[], .nil⟩
  | cons y l ih =>
    obtain ⟨hy, hrest⟩ := List.forall_mem_cons.mp hedges
    obtain ⟨table, htable⟩ := ih hrest
    exact ⟨⟨y.1, y.2.ntree, y.2.ue, y.2.port, y.2.markFailed,
      (h.portGraph_edges hl v y.2.port y.2.ue).mp hy, fun T _ => hindex T, hindex _⟩ :: table,
      htable.cons ⟨rfl, rfl, rfl, rfl, rfl⟩⟩

/-- The entry of a Plinko table that is built. -/
structure PlinkoEntry.Of {G : PortGraph {v : Text // v ∈ g.verts} {e : Edge // e ∈ g.links}}
    (x : PlinkoEntry g) (y : FwdKey {e : Edge // e ∈ g.links} × Path G) : Prop where
  key1_eq : x.key1 = y.1.1
  e_eq : x.e = y.1.2.1
  lf_eq : ∀ f, f ∈ x.lf ↔ ∃ f' ∈ y.1.2.2, f = f'.1
  path_eq : x.path = some y.2.path

lemma IsEntry.path_ne_nil {V E : Type} [DecidableEq V] [DecidableEq E] {G : PortGraph V E}
    {fwdRouting : FwdRouting} {S : Set (Path G)} {entry : (V × FwdKey E) × Path G}
    (h : IsEntry fwdRouting S entry) : ∃ hop rest, entry.2.path = hop :: rest := by
  obtain ⟨x, u, rp, e, -, -, hst⟩ := h
  cases fwdRouting with
  | src => exact ⟨_, _, (hst.src rfl).2⟩
  | hopByHop => exact ⟨_, _, hst.hopByHop rfl⟩

/-- A Plinko table can be written, be it for failures of links (`IsPlinkoTable`) or of switches
(`IsVPlinkoTable`). -/
theorem exists_plinkoTable {fwdRouting : FwdRouting} {T : Set (Path (h.portGraph hl))}
    {tbl : PlinkoTable (h.portGraph hl)} (htbl : TableOf fwdRouting T tbl)
    (v : {v : Text // v ∈ g.verts}) :
    ∃ table : List (PlinkoEntry g), List.Forall₂ PlinkoEntry.Of table (tbl.atSwitch v) := by
  have hne : ∀ y ∈ tbl.atSwitch v, ∃ hop rest, y.2.path = hop :: rest := by
    intro y hy
    obtain ⟨entry, hentry, heq⟩ := List.mem_filterMap.mp hy
    split at heq
    · rw [← Option.some.inj heq]
      exact (htbl.sound entry hentry).path_ne_nil
    · cases heq
  generalize tbl.atSwitch v = l at hne
  induction l with
  | nil => exact ⟨[], .nil⟩
  | cons y l ih =>
    obtain ⟨hy, hrest⟩ := List.forall_mem_cons.mp hne
    obtain ⟨table, htable⟩ := ih hrest
    obtain ⟨hop, rest, hpath⟩ := hy
    have hlf : ∀ f, f ∈ y.1.2.2.toList.map Subtype.val ↔ ∃ f' ∈ y.1.2.2, f = f'.1 := by
      intro f
      simp
    refine ⟨⟨y.1.1, y.1.2.1, y.1.2.2.toList.map Subtype.val, some y.2.path, y.1.2.1.2, ?_,
      hop, rest, by rw [hpath]⟩ :: table, htable.cons ⟨rfl, rfl, hlf, rfl⟩⟩
    intro f hf
    obtain ⟨f', -, rfl⟩ := (hlf f).mp hf
    exact f'.2

end Topology

end ResSim
