import ResSim.Trees.Deadlock

/-!
# Resilience of deadlock-free tables

The table never marks trees, but a packet that is passed from layer to layer leaves a tree
with a failed link behind in every layer, and the layers share no links. So with fewer
failures than layers a packet always finds a tree to move on, and it can only move along the
transition graph and along its trees.
-/

namespace ResSim

open Relation

/-! ### Later layers are reached -/

/-- A tree reaches every tree of a later layer in the full graph. -/
def ReachesLater (ttg : Ttg) (layers : List (List ℕ)) : Prop :=
  ∀ x ∈ layers.flatten, ∀ y ∈ layers.flatten, levelOf layers x < levelOf layers y →
    ttg.reach x y = true

section Layers

variable {ttg : Ttg} {lev : ℕ → ℕ} {draws : ℕ → ℕ} {layers : List (List ℕ)} {n : ℕ}

lemma Ttg.Leveled.closed (h : ttg.Leveled lev) : ttg.Closed :=
  fun e he => ⟨(h.edge e.1 e.2 he).1, (h.edge e.1 e.2 he).2.1⟩

lemma Ttg.Leveled.mem_layer (h : ttg.Leveled lev) (hrun : findLayers ttg draws = some layers)
    {k : ℕ} {layer : List ℕ} (hk : layers[k]? = some layer) (x : ℕ) :
    x ∈ layer ↔ x < ttg.size ∧ lev x = k := by
  obtain ⟨_, _, hrun⟩ := Option.bind_eq_some_iff.mp hrun
  obtain ⟨layers', hloop, hrun⟩ := Option.bind_eq_some_iff.mp hrun
  obtain ⟨_, _, hrun⟩ := Option.bind_eq_some_iff.mp hrun
  obtain ⟨_, _, hrun⟩ := Option.bind_eq_some_iff.mp hrun
  obtain rfl : layers' = layers := Option.some.inj hrun
  let Levels : List (List ℕ) → Prop := fun layers => ∀ (k : ℕ) (layer : List ℕ),
    layers[k]? = some layer → ∀ x, x ∈ layer ↔ x < ttg.size ∧ lev x = k
  refine Loop.Returns.post (fun s : List (List ℕ) × List ℕ => Levels s.1 ∧
      ∀ x, x ∈ s.2 ↔ x < ttg.size ∧ lev x = s.1.length) Levels ?_ ?_ ⟨_, hloop⟩
    ⟨fun k layer hk => by simp at hk, fun x => ?_⟩ k layer hk x
  · rintro ⟨done, curr⟩ s' ⟨hdone, hcurr⟩ hn
    rw [layerStep] at hn
    split at hn
    · cases hn
      constructor
      · intro k layer hk
        rcases Nat.lt_trichotomy k done.length with hlt | rfl | hgt
        · rw [List.getElem?_append_left hlt] at hk
          exact hdone k layer hk
        · rw [List.getElem?_concat_length, Option.some.injEq] at hk
          exact hk ▸ hcurr
        · have hlt := (List.getElem?_eq_some_iff.mp hk).1
          rw [List.length_append, List.length_singleton] at hlt
          omega
      · intro x
        dsimp only
        rw [mem_shuffle, List.mem_dedup, List.mem_filter, decide_eq_true_iff, List.mem_map,
          List.length_append, List.length_singleton]
        constructor
        · rintro ⟨⟨⟨z, y⟩, he, rfl⟩, hout⟩
          obtain ⟨he, hz⟩ := List.mem_filter.mp he
          obtain ⟨_, hy, hlev⟩ := h.edge z y he
          have hzlev := ((hcurr z).mp (of_decide_eq_true hz)).2
          dsimp only at hout hzlev ⊢
          rcases hlev with hlev | hlev
          · exact absurd ((hcurr y).mpr ⟨hy, hlev.trans hzlev⟩) hout
          · exact ⟨hy, by rw [hlev, hzlev]⟩
        · rintro ⟨hx, hlev⟩
          obtain ⟨z, hz, hzlev⟩ := h.pred x hx (by omega)
          have hzcurr := (hcurr z).mpr ⟨(h.edge z x hz).1, by dsimp only; omega⟩
          refine ⟨⟨(z, x), List.mem_filter.mpr ⟨hz, decide_eq_true hzcurr⟩, rfl⟩, fun hin => ?_⟩
          have := ((hcurr x).mp hin).2
          dsimp only at this
          omega
    · cases hn
  · rintro ⟨done, curr⟩ r ⟨hdone, _⟩ hd
    rw [layerStep] at hd
    split at hd
    · cases hd
    · cases hd
      exact hdone
  · rw [List.mem_filter, List.mem_range]
    constructor
    · exact fun hx => ⟨hx.1, (h.l1 x hx.1).mp hx.2⟩
    · exact fun hx => ⟨hx.1, (h.l1 x hx.1).mpr hx.2⟩

lemma Ttg.Leveled.reachesLater (h : ttg.Leveled lev) (hrun : findLayers ttg draws = some layers) :
    ReachesLater ttg layers := by
  intro x hx y hy hlt
  obtain ⟨a, ha, hxa⟩ := exists_getElem?_levelOf hx
  obtain ⟨b, hb, hyb⟩ := exists_getElem?_levelOf hy
  obtain ⟨hxs, hxlev⟩ := (h.mem_layer hrun ha x).mp hxa
  obtain ⟨hys, hylev⟩ := (h.mem_layer hrun hb y).mp hyb
  exact h.reaches x hxs y hys (by omega)

lemma levelOf_cons (a : List ℕ) (layers : List (List ℕ)) (t : ℕ) :
    levelOf (a :: layers) t = if t ∈ a then 0 else levelOf layers t + 1 := by
  rw [levelOf, List.findIdx_cons, levelOf]
  by_cases h : t ∈ a <;> simp [h]

lemma levelOf_restrict {topTrees : List ℕ} {x y : ℕ} (hx : x ∈ topTrees) (hy : y ∈ topTrees)
    (hle : levelOf layers y ≤ levelOf layers x) :
    levelOf (restrictLayers topTrees layers) y ≤ levelOf (restrictLayers topTrees layers) x := by
  induction layers with
  | nil => exact Nat.le_refl _
  | cons a layers ih =>
    have hin : ∀ t ∈ topTrees, t ∈ a.filter (fun iT => iT ∈ topTrees) ↔ t ∈ a := by
      intro t ht
      rw [List.mem_filter, decide_eq_true_iff]
      exact and_iff_left ht
    rw [levelOf_cons, levelOf_cons] at hle
    rw [restrictLayers, List.map_cons, List.filter_cons]
    split
    · rw [levelOf_cons, levelOf_cons]
      simp only [hin x hx, hin y hy]
      split at hle
      · rw [if_pos ‹_›]
        exact Nat.zero_le _
      · split at hle
        · omega
        · rw [if_neg ‹_›, if_neg ‹_›]
          exact Nat.succ_le_succ (ih (by omega))
    · rename_i hnil
      rw [decide_eq_true_iff, List.length_pos_iff, not_not] at hnil
      have hout : ∀ t ∈ topTrees, t ∉ a := fun t ht hta => by
        have hmem := (hin t ht).mpr hta
        rw [hnil] at hmem
        cases hmem
      rw [if_neg (hout y hy), if_neg (hout x hx)] at hle
      exact ih (by omega)

lemma ReachesLater.restrict (h : ReachesLater ttg layers) (topTrees : List ℕ) :
    ReachesLater ttg (restrictLayers topTrees layers) := by
  intro x hx y hy hlt
  rw [restrictLayers_flatten, List.mem_filter, decide_eq_true_iff] at hx hy
  apply h x hx.1 y hy.1
  by_contra hge
  have := levelOf_restrict hx.2 hy.2 (Nat.le_of_not_lt hge)
  omega

/-- In layers of single trees in increasing order, later layers hold greater trees. -/
lemma lt_of_levelOf_singles {l : List ℕ} (hs : l.Pairwise (· ≤ ·)) {x y : ℕ} (hy : y ∈ l)
    (hlt : levelOf (l.map (fun t => [t])) x < levelOf (l.map (fun t => [t])) y) : x < y := by
  induction l with
  | nil => cases hy
  | cons a l ih =>
    rw [List.map_cons, levelOf_cons, levelOf_cons] at hlt
    obtain ⟨ha, hs⟩ := List.pairwise_cons.mp hs
    simp only [List.mem_singleton] at hlt
    by_cases hya : y = a
    · rw [if_pos hya] at hlt
      omega
    · have hyl : y ∈ l := (List.mem_cons.mp hy).resolve_left hya
      rw [if_neg hya] at hlt
      split at hlt
      · rename_i hxa
        have := ha y hyl
        omega
      · exact ih hs hyl (by omega)

/-- In the layers of every table, a tree reaches every tree of a later layer. -/
lemma dfrLayers_reachesLater {V E : Type} {G : PortGraph V E} {fpaths : V → ℕ → List ℕ}
    {args : DfrArgs} {feedbackArcSet : WGraph ℕ → List ℕ} {fuel : ℕ} {rnd : Rnd}
    (hbuild : buildTtg args.toTtgArgs feedbackArcSet fuel n rnd = some ttg)
    (h : dfrLayers G n fpaths ttg args draws = some layers) : ReachesLater ttg layers := by
  obtain ⟨lev, hlev⟩ := leveled_buildTtg hbuild
  obtain ⟨hsize, _, found, hfound, hcases⟩ := dfrLayers_cases h
  have hr := hlev.reachesLater hfound
  rcases hcases with rfl | ⟨topTrees, _, rfl | ⟨hline, rfl⟩⟩
  · exact hr
  · exact hr.restrict topTrees
  · obtain ⟨hbuild, _⟩ := Option.filter_eq_some_iff.mp hbuild
    rw [ttgOfType, hline] at hbuild
    intro x _ y hy hlt
    rw [lineLayers_flatten] at hy
    have hxy := lt_of_levelOf_singles (List.pairwise_insertionSort _ _) hy hlt
    apply ttgLine_reach hbuild (Nat.le_of_lt hxy)
    rw [List.mem_insertionSort, restrictLayers_flatten] at hy
    have := (findLayers_isLayering hlev.closed hfound).lt y (List.mem_filter.mp hy).1
    omega

end Layers

/-! ### Delivery -/

section Delivery

variable {V E : Type} [DecidableEq V] [DecidableEq E] {G : PortGraph V E} {tree : ℕ → ITree V E}
  {n : ℕ} {fpaths : V → ℕ → List ℕ} {ttg : Ttg} {dst src : V} {layers : List (List ℕ)}
  {layersAt : V → List (List ℕ)} {table : Fwdtable V ℕ E} {failedE : Finset E}
  {s s' : TreeWalk V ℕ}

/-- A tree with a failed link. -/
def Broken (tree : ℕ → ITree V E) (failedE : Finset E) (t : ℕ) : Prop :=
  ∃ e ∈ (tree t).edges, e ∈ failedE

/-- What holds of every packet: it came over links that are up and left a broken tree behind
in every layer before its own. -/
structure LayerWalk (G : PortGraph V E) (tree : ℕ → ITree V E) (layers : List (List ℕ))
    (failedE : Finset E) (src : V) (s : TreeWalk V ℕ) : Prop where
  leads : G.Leads failedE src s.hops s.v
  mem : s.ctree ∈ layers.flatten
  unmarked : s.failedTrees = []
  blocked : ∀ j < levelOf layers s.ctree,
    ∃ t ∈ layers.flatten, levelOf layers t = j ∧ Broken tree failedE t

omit [DecidableEq V] in
lemma length_le_of_broken (hlay : IsLayering n layers)
    (hdis : ∀ S < n, ∀ T < n, S ≠ T → (tree S).edges.Disjoint (tree T).edges)
    (h : ∀ j < layers.length,
      ∃ t ∈ layers.flatten, levelOf layers t = j ∧ Broken tree failedE t) :
    layers.length ≤ failedE.card := by
  have hpos : 0 < layers.length := List.length_pos_iff.mpr hlay.nonempty
  obtain ⟨_, _, _, e₀, _, _⟩ := h 0 hpos
  have : Nonempty E := ⟨e₀⟩
  choose! t ht hlev e he hdown using h
  have hle := length_le_card_of_private (List.nodup_range (n := layers.length)) e
    (fun j hj => hdown j (List.mem_range.mp hj)) (fun i hi j hj heq => ?_)
  · rwa [List.length_range] at hle
  · rw [List.mem_range] at hi hj
    have hsame : t i = t j := by
      by_contra hne
      exact hdis _ (hlay.lt _ (ht i hi)) _ (hlay.lt _ (ht j hj)) hne (he i hi) (heq ▸ he j hj)
    rw [← hlev i hi, ← hlev j hj, hsame]

omit [DecidableEq E] in
lemma LayerWalk.broken (hs : LayerWalk G tree layers failedE src s) (hlay : IsLayering n layers)
    (hpaths : ∀ iT < n, TreePaths G (tree iT).adj dst (fun v => fpaths v iT)) (hv : s.v ≠ dst)
    {t : ℕ} (ht : t ∈ layers.flatten) (h : PassedOver G fpaths failedE s t) :
    Broken tree failedE t := by
  rcases h with h | ⟨e, he, hat⟩
  · rw [hs.unmarked] at h
    cases h
  · exact ⟨e, (hpaths t (hlay.lt t ht)).mem_edges hv hat, he⟩

omit [DecidableEq E] in
/-- A switch lists, after the tree of the packet, every tree of every later layer. -/
lemma DfrTable.mem_successors (ht : DfrTable G fpaths ttg dst layers layersAt table)
    (hn : layers.flatten.Nodup) (hr : ReachesLater ttg layers) (v : V) {x y : ℕ}
    (hx : x ∈ layers.flatten) (hy : y ∈ layers.flatten)
    (hlt : levelOf layers x < levelOf layers y) : y ∈ dfrSuccessors ttg (layersAt v) x := by
  have hflat := List.Perm.flatten_congr (ht.perm v)
  refine (mem_dfrSuccessors (hflat.nodup_iff.mpr hn)).mpr ⟨hflat.mem_iff.mpr hy, ?_, ?_,
    hr x hx y hy hlt⟩
  · rw [levelOf_perm (ht.perm v), levelOf_perm (ht.perm v)]
    exact Nat.le_of_lt hlt
  · rintro rfl
    exact Nat.lt_irrefl _ hlt

omit [DecidableEq E] in
/-- The trees of earlier layers stand before a tree that a packet moves to. -/
lemma DfrTable.mem_before (ht : DfrTable G fpaths ttg dst layers layersAt table)
    (hn : layers.flatten.Nodup) {v : V} {cur next : ℕ} {pre post : List ℕ}
    (horder : cur :: dfrSuccessors ttg (layersAt v) cur = pre ++ next :: post) (hne : cur ≠ next)
    {t : ℕ} (hmem : t ∈ cur :: dfrSuccessors ttg (layersAt v) cur)
    (hlt : levelOf layers t < levelOf layers next) : t ∈ pre := by
  have hflat := List.Perm.flatten_congr (ht.perm v)
  have hsorted := dfrSuccessors_sorted ttg (hflat.nodup_iff.mpr hn) cur
  cases pre with
  | nil => exact absurd (List.cons.inj horder).1 hne
  | cons x pre =>
    have hsucc : dfrSuccessors ttg (layersAt v) cur = pre ++ next :: post :=
      (List.cons.inj horder).2
    rcases List.mem_cons.mp hmem with rfl | hin
    · rw [(List.cons.inj horder).1]
      exact List.mem_cons_self ..
    · rw [hsucc, List.pairwise_append, List.pairwise_cons] at hsorted
      rw [hsucc, List.mem_append, List.mem_cons] at hin
      rcases hin with hin | rfl | hin
      · exact List.mem_cons_of_mem _ hin
      · exact absurd hlt (Nat.lt_irrefl _)
      · have hle := hsorted.2.1.1 t hin
        rw [levelOf_perm (ht.perm v), levelOf_perm (ht.perm v)] at hle
        omega

omit [DecidableEq E] in
/-- With fewer failures than layers a packet finds a tree whose link is up. -/
lemma LayerWalk.exists_tree (hs : LayerWalk G tree layers failedE src s)
    (ht : DfrTable G fpaths ttg dst layers layersAt table) (hlay : IsLayering n layers)
    (hr : ReachesLater ttg layers)
    (hpaths : ∀ iT < n, TreePaths G (tree iT).adj dst (fun v => fpaths v iT))
    (hbroken : ¬ ∀ j < layers.length,
      ∃ t ∈ layers.flatten, levelOf layers t = j ∧ Broken tree failedE t) (hv : s.v ≠ dst) :
    ∃ iT ∈ s.ctree :: dfrSuccessors ttg (layersAt s.v) s.ctree,
      ¬ PassedOver G fpaths failedE s iT := by
  by_contra hno
  push Not at hno
  refine hbroken fun j hj => ?_
  rcases Nat.lt_trichotomy j (levelOf layers s.ctree) with hlt | rfl | hgt
  · exact hs.blocked j hlt
  · exact ⟨s.ctree, hs.mem, rfl,
      hs.broken hlay hpaths hv hs.mem (hno _ (List.mem_cons_self ..))⟩
  · obtain ⟨t, htl⟩ := List.exists_mem_of_ne_nil _ (hlay.ne_nil _ (List.getElem_mem hj))
    have htf : t ∈ layers.flatten := List.mem_flatten.mpr ⟨_, List.getElem_mem hj, htl⟩
    have hlev := levelOf_eq hlay.nodup (List.getElem?_eq_getElem hj) htl
    have hsucc := ht.mem_successors hlay.nodup hr s.v hs.mem htf (by omega)
    exact ⟨t, htf, hlev, hs.broken hlay hpaths hv htf (hno t (List.mem_cons_of_mem _ hsucc))⟩

/-- The trees that the tree of the packet still reaches, and the hops left on it. -/
def layerWork (ttg : Ttg) (layers : List (List ℕ)) (fpaths : V → ℕ → List ℕ)
    (s : TreeWalk V ℕ) : ℕ × ℕ :=
  ((layers.flatten.filter (fun x => ttg.reach s.ctree x)).length, (fpaths s.v s.ctree).length)

lemma reachable_lt (hdag : isDag ttg.es = true) {x y : ℕ} (hx : x ∈ layers.flatten)
    (hne : x ≠ y) (hxy : ttg.reach x y = true) :
    (layers.flatten.filter (fun z => ttg.reach y z)).length <
      (layers.flatten.filter (fun z => ttg.reach x z)).length := by
  rw [Ttg.reach, reach_iff] at hxy
  have heq : layers.flatten.filter (fun z => ttg.reach y z) =
      (layers.flatten.filter (fun z => ttg.reach x z)).filter (fun z => ttg.reach y z) := by
    rw [List.filter_filter]
    apply List.filter_congr
    intro z _
    by_cases hyz : ttg.reach y z = true
    · have hxz : ttg.reach x z = true := reach_iff.mpr (hxy.trans (reach_iff.mp hyz))
      rw [hyz, hxz, Bool.and_self]
    · rw [Bool.not_eq_true] at hyz
      rw [hyz, Bool.false_and]
  rw [heq]
  apply List.length_filter_lt_length_iff_exists.mpr
  refine ⟨x, List.mem_filter.mpr ⟨hx, reach_iff.mpr .refl⟩, fun hyx => hne ?_⟩
  exact (isDag_iff.mp hdag).antisymm hxy (reach_iff.mp hyx)

/-- What holds of every packet however many links fail. -/
structure OnLayers (G : PortGraph V E) (layers : List (List ℕ)) (failedE : Finset E) (src : V)
    (s : TreeWalk V ℕ) : Prop where
  leads : G.Leads failedE src s.hops s.v
  mem : s.ctree ∈ layers.flatten
  unmarked : s.failedTrees = []

omit [DecidableEq E] in
lemma LayerWalk.onLayers (hs : LayerWalk G tree layers failedE src s) :
    OnLayers G layers failedE src s :=
  ⟨hs.leads, hs.mem, hs.unmarked⟩

omit [DecidableEq E] in
lemma onLayers_start {itree : ℕ} (hit : itree ∈ layers.flatten) :
    OnLayers G layers failedE src ⟨[], itree, [], src, false⟩ :=
  ⟨rfl, hit, rfl⟩

/-- One hop: the packet passes over the trees before its next one, and gets closer, on its tree
or along the graph. -/
lemma OnLayers.hop (hs : OnLayers G layers failedE src s)
    (ht : DfrTable G fpaths ttg dst layers layersAt table) (hlay : IsLayering n layers)
    (hdag : isDag ttg.es = true)
    (hpaths : ∀ iT < n, TreePaths G (tree iT).adj dst (fun v => fpaths v iT))
    (hv : s.v ≠ dst)
    (hex : ∃ iT ∈ s.ctree :: dfrSuccessors ttg (layersAt s.v) s.ctree,
      ¬ PassedOver G fpaths failedE s iT) :
    ∃ s' pre post, treeWalkStep G table dst failedE ∅ s = .next s' ∧
      OnLayers G layers failedE src s' ∧
      s.ctree :: dfrSuccessors ttg (layersAt s.v) s.ctree = pre ++ s'.ctree :: post ∧
      (∀ t ∈ pre, PassedOver G fpaths failedE s t) ∧
      (s'.ctree ≠ s.ctree → ttg.reach s.ctree s'.ctree = true) ∧
      Prod.Lex (· < ·) (· < ·) (layerWork ttg layers fpaths s')
        (layerWork ttg layers fpaths s) := by
  have hl := ht.lists s.v hv s.ctree hs.mem
  obtain ⟨pre, entry, post, ps, w, q, heq, hpass, _, hup, hp, hhop, hrun⟩ :=
    treeWalkStep_lists hv (Finset.notMem_empty _) hl hex
  have hentry : entry ∈ table.entries s.v (some s.ctree) := by
    rw [heq]
    exact List.mem_append_right _ (List.mem_cons_self ..)
  obtain ⟨_, _, hmem, _, hcases⟩ := ht.entry hlay.nodup hentry
  have horder : s.ctree :: dfrSuccessors ttg (layersAt s.v) s.ctree =
      pre.map FwdEntry.ntree ++ entry.ntree :: post.map FwdEntry.ntree := by
    rw [← hl.trees, heq, List.map_append, List.map_cons]
  have hleads : G.Leads failedE src (s.hops ++ [entry.port]) w :=
    PortGraph.leads_concat hs.leads hhop hup
  have hmarks : s.failedTrees ++ entry.markFailed = [] := by
    rw [hs.unmarked, ht.unmarked s.v hv s.ctree hs.mem entry hentry]
    rfl
  refine ⟨_, _, _, hrun, ⟨hleads, hmem, hmarks⟩, horder, hpass, fun hne => ?_, ?_⟩
  · rcases hcases with hcur | ⟨_, hreach⟩
    · exact absurd hcur hne
    · exact hreach
  · rcases hcases with hcur | ⟨hne, hreach⟩
    · obtain ⟨port', ps', e', w', q', hp', hhop', _, hlen⟩ :=
        (hpaths s.ctree (hlay.lt _ hs.mem)).next s.v hv
      rw [hcur, hp', List.cons.injEq] at hp
      obtain ⟨rfl, rfl⟩ := hp
      rw [hhop', Option.some.injEq, Prod.mk.injEq, Prod.mk.injEq] at hhop
      refine Prod.lex_def.mpr (.inr ⟨?_, ?_⟩)
      · simp only [layerWork, hcur]
      · simp only [layerWork, hcur]
        rw [← hhop.2.1, hlen, hp', List.length_cons]
        exact Nat.lt_succ_self _
    · refine Prod.lex_def.mpr (.inl ?_)
      exact reachable_lt hdag hs.mem hne hreach

/-- The layers from the packet's own up to the one that it moves to are all broken. -/
lemma LayerWalk.hop (hs : LayerWalk G tree layers failedE src s)
    (ht : DfrTable G fpaths ttg dst layers layersAt table) (hlay : IsLayering n layers)
    (hdag : isDag ttg.es = true) (hr : ReachesLater ttg layers)
    (hpaths : ∀ iT < n, TreePaths G (tree iT).adj dst (fun v => fpaths v iT))
    (hv : s.v ≠ dst)
    (hex : ∃ iT ∈ s.ctree :: dfrSuccessors ttg (layersAt s.v) s.ctree,
      ¬ PassedOver G fpaths failedE s iT) :
    ∃ s', treeWalkStep G table dst failedE ∅ s = .next s' ∧
      LayerWalk G tree layers failedE src s' ∧
      Prod.Lex (· < ·) (· < ·) (layerWork ttg layers fpaths s')
        (layerWork ttg layers fpaths s) := by
  obtain ⟨s', pre, post, hrun, hs', horder, hpass, _, hlt⟩ :=
    hs.onLayers.hop ht hlay hdag hpaths hv hex
  refine ⟨s', hrun, ⟨hs'.leads, hs'.mem, hs'.unmarked, fun j hj => ?_⟩, hlt⟩
  rcases Nat.lt_or_ge j (levelOf layers s.ctree) with hlt | hge
  · exact hs.blocked j hlt
  · -- the layers from the packet's own up to the new one were passed over
    have hne : s.ctree ≠ s'.ctree := by
      intro h
      rw [← h] at hj
      omega
    have hbroken : ∀ t ∈ layers.flatten,
        t ∈ s.ctree :: dfrSuccessors ttg (layersAt s.v) s.ctree → levelOf layers t = j →
        Broken tree failedE t := fun t htf hin hlev =>
      hs.broken hlay hpaths hv htf
        (hpass t (ht.mem_before hlay.nodup horder hne hin (by omega)))
    rcases Nat.eq_or_lt_of_le hge with rfl | hgt
    · exact ⟨s.ctree, hs.mem, rfl, hbroken _ hs.mem (List.mem_cons_self ..) rfl⟩
    · obtain ⟨layer, hlayer, _⟩ := exists_getElem?_levelOf hs'.mem
      have hjlt : j < layers.length := by
        have := (List.getElem?_eq_some_iff.mp hlayer).1
        omega
      obtain ⟨t, htl⟩ := List.exists_mem_of_ne_nil _ (hlay.ne_nil _ (List.getElem_mem hjlt))
      have htf : t ∈ layers.flatten := List.mem_flatten.mpr ⟨_, List.getElem_mem hjlt, htl⟩
      have hlev := levelOf_eq hlay.nodup (List.getElem?_eq_getElem hjlt) htl
      have hsucc := ht.mem_successors hlay.nodup hr s.v hs.mem htf (by omega)
      exact ⟨t, htf, hlev, hbroken t htf (List.mem_cons_of_mem _ hsucc) hlev⟩

omit [DecidableEq E] in
lemma layerWalk_start {itree : ℕ} (hit : itree ∈ layers.headD []) :
    LayerWalk G tree layers failedE src ⟨[], itree, [], src, false⟩ where
  leads := rfl
  mem := mem_flatten_of_mem_headD hit
  unmarked := rfl
  blocked := by
    cases layers with
    | nil => exact absurd hit List.not_mem_nil
    | cons a layers =>
      intro j hj
      rw [levelOf_cons, if_pos (show itree ∈ a from hit)] at hj
      exact absurd hj (Nat.not_lt_zero j)

/-- With fewer failures than layers a packet is delivered. -/
theorem DfrTable.delivered (ht : DfrTable G fpaths ttg dst layers layersAt table)
    (hlay : IsLayering n layers) (hdag : isDag ttg.es = true) (hr : ReachesLater ttg layers)
    (hpaths : ∀ iT < n, TreePaths G (tree iT).adj dst (fun v => fpaths v iT))
    (hdis : ∀ S < n, ∀ T < n, S ≠ T → (tree S).edges.Disjoint (tree T).edges)
    (hF : failedE.card < layers.length) (src : V) {itree : ℕ} (hit : itree ∈ layers.headD []) :
    ∃ fuel hops failExp, fwdtableWalkPathInternal fuel G src dst table itree failedE ∅ =
      some (some hops, failExp) ∧ G.Leads failedE src hops dst := by
  let Post : Option (Option (List ℕ) × Bool) → Prop := fun r =>
    ∃ hops failExp, r = some (some hops, failExp) ∧ G.Leads failedE src hops dst
  have hbroken : ¬ ∀ j < layers.length,
      ∃ t ∈ layers.flatten, levelOf layers t = j ∧ Broken tree failedE t := by
    intro h
    have := length_le_of_broken hlay hdis h
    omega
  have hbody : ∀ s, LayerWalk G tree layers failedE src s →
      (∃ r, treeWalkStep G table dst failedE ∅ s = .done r ∧ Post r) ∨
      ∃ s', treeWalkStep G table dst failedE ∅ s = .next s' ∧
        LayerWalk G tree layers failedE src s' ∧
        Prod.Lex (· < ·) (· < ·) (layerWork ttg layers fpaths s')
          (layerWork ttg layers fpaths s) := by
    intro s hs
    by_cases hv : s.v = dst
    · exact .inl ⟨_, treeWalkStep_dst hv, s.hops, s.failExp, rfl, hv ▸ hs.leads⟩
    · exact .inr (hs.hop ht hlay hdag hr hpaths hv
        (hs.exists_tree ht hlay hr hpaths hbroken hv))
  obtain ⟨r, ⟨fuel, hfuel⟩, hops, failExp, rfl, hleads⟩ := Loop.returns_of_wellFounded
    (InvImage.wf (layerWork ttg layers fpaths)
      (WellFounded.prod_lex Nat.lt_wfRel.wf Nat.lt_wfRel.wf))
    (LayerWalk G tree layers failedE src) Post hbody (layerWalk_start hit)
  refine ⟨fuel, hops, failExp, ?_, hleads⟩
  rw [fwdtableWalkPathInternal, if_neg (Finset.notMem_empty _), hfuel]
  rfl

/-- Whatever graph is built and whatever layers are selected, with fewer failures than layers
every packet that starts on a tree of the first layer is delivered over links that are up. -/
theorem dfr_resilient {getShortestPath : Adj V E → V → V → List E}
    (hsp : IsPathFinder getShortestPath)
    (hvalid : ∀ T < n, (tree T).Valid G) (hspans : ∀ T < n, (tree T).Spans dst)
    (hdis : ∀ S < n, ∀ T < n, S ≠ T → (tree S).edges.Disjoint (tree T).edges)
    {args : DfrArgs} {feedbackArcSet : WGraph ℕ → List ℕ} {fuel : ℕ} {rnd : Rnd}
    (hbuild : buildTtg args.toTtgArgs feedbackArcSet fuel n rnd = some ttg)
    {sort : (ℕ → ℕ → Ordering) → List ℕ → List ℕ} (hsort : ∀ cmp l, (sort cmp l).Perm l)
    (draws : ℕ → ℕ) (draw : V → ℕ → ℕ) :
    ∃ fpaths, forestPaths G getShortestPath tree (List.range n) dst = some fpaths ∧
      ∀ layers, dfrLayers G n fpaths ttg args draws = some layers →
        ∃ table nopkthdr, edstFwdtableDfr G tree n getShortestPath sort fpaths ttg dst args
            draws draw = some (table, nopkthdr) ∧
          (∀ v, v ≠ dst →
            ((table.entries v none).map FwdEntry.ntree).Perm (layers.headD [])) ∧
          ∀ failedE : Finset E, failedE.card < layers.length →
            ∀ src, ∀ itree ∈ layers.headD [], ∃ fuel hops failExp,
              fwdtableWalkPathInternal fuel G src dst table itree failedE ∅ =
                some (some hops, failExp) ∧ G.Leads failedE src hops dst := by
  obtain ⟨fpaths, hfp, hpaths⟩ := forestPaths_spec hsp
    (fun iT hiT => hvalid iT (List.mem_range.mp hiT))
    (fun iT hiT => hspans iT (List.mem_range.mp hiT))
  have hpaths' : ∀ iT < n, TreePaths G (tree iT).adj dst (fun v => fpaths v iT) :=
    fun iT hiT => hpaths iT (List.mem_range.mpr hiT)
  refine ⟨fpaths, hfp, fun layers hlayers => ?_⟩
  obtain ⟨lev, hlev⟩ := leveled_buildTtg hbuild
  obtain ⟨table, nopkthdr, layersAt, htable, ht⟩ :=
    exists_dfrTable tree draw hsort hlev.closed hlayers hpaths'
  refine ⟨table, nopkthdr, htable, ht.start, fun failedE hF src itree hit => ?_⟩
  obtain ⟨_, hdag, _⟩ := dfrLayers_cases hlayers
  exact ht.delivered (dfrLayers_isLayering hlev.closed hlayers) hdag
    (dfrLayers_reachesLater hbuild hlayers) hpaths' hdis hF src hit

end Delivery

/-- The line over two trees as it is built. -/
def pairLine : Ttg :=
  (buildTtg pairArgs.toTtgArgs (fun _ => []) 0 2 (fun _ => 0)).getD (ttgCommon 0)

theorem dfr_resilient_pair : ∃ table nopkthdr,
    edstFwdtableDfr doubleLink pairTree 2 (bfsPath [0, 1]) insertSort (pairPaths 0) pairLine 0
      pairArgs (fun _ => 0) (fun _ _ => 0) = some (table, nopkthdr) ∧
    ∀ src, ∃ fuel hops failExp,
      fwdtableWalkPathInternal fuel doubleLink src 0 table 0 {0} ∅ =
        some (some hops, failExp) ∧ doubleLink.Leads {0} src hops 0 := by
  have hbuild : buildTtg pairArgs.toTtgArgs (fun _ => []) 0 2 (fun _ => 0) = some pairLine :=
    eq_some_getD _ (by decide +kernel)
  obtain ⟨fpaths, hfp, h⟩ : ∃ fpaths,
      forestPaths doubleLink (bfsPath [0, 1]) pairTree (List.range 2) 0 = some fpaths ∧ _ :=
    dfr_resilient (isPathFinder_bfsPath (show ∀ v : Fin 2, v ∈ [0, 1] by decide))
      (fun T _ => (isSpanningTree_pairTree T).valid)
      (fun T _ => (isSpanningTree_pairTree T).spans 0) pairTree_disjoint hbuild insertSort_perm
      (fun _ => 0) (fun _ _ => 0)
  obtain rfl : pairPaths 0 = fpaths := by
    rw [pairPaths, hfp]
    rfl
  obtain ⟨table, nopkthdr, htable, _, hdelivered⟩ := h [[0], [1]] (by decide +kernel)
  exact ⟨table, nopkthdr, htable,
    fun src => hdelivered {0} (by decide) src 0 (List.mem_singleton.mpr rfl)⟩

end ResSim
