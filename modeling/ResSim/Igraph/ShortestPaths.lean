import Mathlib.Data.Finset.Card
import ResSim.Igraph.Edits
import ResSim.Lib.BreadthFirst

/-!
# Shortest paths from one vertex

`igraph_get_shortest_paths`, with the change of this repository that looks at the edges of a
vertex in random order, so that different runs may give different paths. The search stops as
soon as all wanted vertices are reached.

The paths are shortest for every order, also of a search that was stopped, and a wanted vertex
without a path cannot be reached.
-/

namespace ResSim

namespace IgraphT

/-- The edges of each vertex with their other ends. -/
def adj (g : IgraphT) (mode : NeiMode) : Adj ℕ ℕ := fun v =>
  match g.incident v mode with
  | .ok es => es.map (fun e => (e, g.other e v))
  | .error _ => []

/-- What the search keeps: a code for each vertex, the queue, and how many of the wanted
vertices are reached. The code is 1 for the root and the edge plus two for a vertex that was
reached through an edge, else −1 for a wanted vertex and 0 for any other. -/
structure PathSearch where
  father : ℕ → ℤ
  q : Dqueue ℕ
  reached : ℤ

/-- Marks the vertices to reach; one that is given again is not counted. -/
def markTargets : List ℕ → (ℕ → ℤ) × ℤ → (ℕ → ℤ) × ℤ
  | [], marks => marks
  | v :: tos, marks =>
    if marks.1 v = 0 then markTargets tos (Function.update marks.1 v (-1), marks.2)
    else markTargets tos (marks.1, marks.2 - 1)

/-- Looks at an edge of the vertex that was taken from the queue. -/
def PathSearch.visit (g : IgraphT) (act : ℕ) (s : PathSearch) (edge : ℕ) : PathSearch :=
  let neighbor := g.other edge act
  if 0 < s.father neighbor then s
  else
    { father := Function.update s.father neighbor (edge + 2)
      q := s.q.push (neighbor + 1)
      reached := if s.father neighbor < 0 then s.reached + 1 else s.reached }

/-- Takes a vertex from the queue and looks at its edges, shuffled. -/
def PathSearch.pass (g : IgraphT) (mode : NeiMode) (rnd : Rnd) (s : PathSearch) :
    Except Fault PathSearch :=
  let act := s.q.pop.1 - 1
  match g.incident act mode with
  | .error f => .error f
  | .ok tmp => .ok ((shuffleBack rnd tmp).foldl (visit g act) { s with q := s.q.pop.2 })

/-- The passes of the search. -/
def PathSearch.run (g : IgraphT) (mode : NeiMode) (toReach : ℤ) :
    ℕ → (ℕ → Rnd) → PathSearch → Except Fault PathSearch
  | 0, _, _ => .error .noEnd
  | fuel + 1, draws, s =>
    if !s.q.empty && s.reached < toReach then
      match s.pass g mode (draws 0) with
      | .error f => .error f
      | .ok s' => run g mode toReach fuel (fun n => draws (n + 1)) s'
    else .ok s

/-- Follows the edges back to the root. Both vectors are filled from their ends. -/
def traceBack (g : IgraphT) (father : ℕ → ℤ) :
    ℕ → ℕ → List ℕ × List ℕ → Except Fault (List ℕ × List ℕ)
  | 0, _, _ => .error .noEnd
  | fuel + 1, act, path =>
    if 1 < father act then
      let edge := (father act - 2).toNat
      let act := g.other edge act
      traceBack g father fuel act (act :: path.1, edge :: path.2)
    else .ok path

/-- The vertices and the edges of the path to a vertex, none if it was not reached. -/
def pathTo (g : IgraphT) (fuel : ℕ) (father : ℕ → ℤ) (node : ℕ) : Except Fault (List ℕ × List ℕ) :=
  if 0 < father node then g.traceBack father fuel node ([node], []) else .ok ([], [])

/-- The search before its first pass. -/
def PathSearch.start (root : ℕ) (father : ℕ → ℤ) : PathSearch where
  father := Function.update father root 1
  q := (Dqueue.init 100).push (root + 1)
  reached := if father root < 0 then 1 else 0

/-- `igraph_get_shortest_paths`: the vertices and the edges of a path to each wanted vertex. -/
def getShortestPaths (g : IgraphT) (fuel : ℕ) (draws : ℕ → Rnd) (source : ℤ) (tos : List ℤ)
    (mode : NeiMode) : Except Fault (List (List ℕ × List ℕ)) :=
  if source < 0 ∨ g.n ≤ source then .error (.error "cannot get shortest paths" .einvvid)
  else if !isInInterval tos 0 (g.n - 1) then
    .error (.error "Cannot create iterator, invalid vertex id" .einvvid)
  else
    let marks := markTargets (tos.map Int.toNat) (fun _ => 0, tos.length)
    match PathSearch.run g mode marks.2 fuel draws (.start source.toNat marks.1) with
    | .error f => .error f
    | .ok s => (tos.map Int.toNat).mapM (g.pathTo fuel s.father)

/-! ### Edges and their ends -/

variable {g : IgraphT} {mode : NeiMode} {v x y e n : ℕ}

lemma adj_eq_nil (h : g.n ≤ x) : g.adj mode x = [] := by
  simp [adj, incident, h]

lemma Indexed.exists_incident (h : g.Indexed) (hx : x < g.n) (mode : NeiMode) :
    ∃ es, g.incident x mode = .ok es ∧ g.adj mode x = es.map (fun e => (e, g.other e x)) ∧
      ∀ e ∈ es, e < g.ecount ∧ (g.source e = x ∨ g.target e = x) := by
  obtain ⟨es, hes, hperm⟩ := h.incident_eq hx mode
  refine ⟨es, hes, by simp only [adj, hes], fun e he => ?_⟩
  have hmem := hperm.mem_iff.mp he
  simp only [Multigraph.incident, h.length_edges, h.getD_edges, List.mem_append] at hmem
  rcases hmem with hmem | hmem <;> split at hmem
  · obtain ⟨hlt, hend⟩ := List.mem_filter.mp hmem
    exact ⟨List.mem_range.mp hlt, .inl (by simpa using hend)⟩
  · cases hmem
  · obtain ⟨hlt, hend⟩ := List.mem_filter.mp hmem
    exact ⟨List.mem_range.mp hlt, .inr (by simpa using hend)⟩
  · cases hmem

lemma lt_of_mem_adj {a : ℕ × ℕ} (ha : a ∈ g.adj mode x) : x < g.n := by
  by_contra hx
  rw [adj_eq_nil (Nat.le_of_not_lt hx)] at ha
  cases ha

lemma Indexed.mem_adj (h : g.Indexed) {a : ℕ × ℕ} (ha : a ∈ g.adj mode x) :
    a.1 < g.ecount ∧ (g.source a.1 = x ∨ g.target a.1 = x) ∧ a.2 = g.other a.1 x := by
  obtain ⟨es, _, hadj, hends⟩ := h.exists_incident (lt_of_mem_adj ha) mode
  rw [hadj] at ha
  obtain ⟨e, he, rfl⟩ := List.mem_map.mp ha
  exact ⟨(hends e he).1, (hends e he).2, rfl⟩

lemma Indexed.snd_lt (h : g.Indexed) {a : ℕ × ℕ} (ha : a ∈ g.adj mode x) : a.2 < g.n := by
  obtain ⟨he, _, ha'⟩ := h.mem_adj ha
  rw [ha', other]
  split
  · exact h.source_lt he
  · exact h.target_lt he

/-- Seen from its other end, an edge leads back. -/
lemma Indexed.other_other (h : g.Indexed) (ha : (e, y) ∈ g.adj mode x) :
    g.other e y = x := by
  obtain ⟨_, hends, hy⟩ := h.mem_adj ha
  dsimp only at hends hy
  unfold other at hy ⊢
  split_ifs at hy ⊢ with h₁ h₂ h₂ <;> omega

/-! ### The search -/

variable {root : ℕ} {tos : List ℕ} {depth depth' : ℕ → Option ℕ} {waiting : List ℕ}
  {s : PathSearch}

/-- The number of wanted vertices that are found. -/
def foundOf (tos : List ℕ) (depth : ℕ → Option ℕ) : ℕ :=
  (tos.toFinset.filter (fun v => (depth v).isSome)).card

/-- The number of vertices that are not found. -/
def unfoundOf (n : ℕ) (depth : ℕ → Option ℕ) : ℕ :=
  ((Finset.range n).filter (fun v => depth v = none)).card

lemma unfoundOf_update (hv : depth v = none) (hlt : v < n) (d : ℕ) :
    unfoundOf n (Function.update depth v (some d)) + 1 = unfoundOf n depth := by
  have hmem : v ∈ (Finset.range n).filter (fun w => depth w = none) := by simp [hv, hlt]
  have herase : (Finset.range n).filter (fun w => Function.update depth v (some d) w = none) =
      ((Finset.range n).filter (fun w => depth w = none)).erase v := by
    ext w
    by_cases hwv : w = v
    · simp [hwv]
    · simp [hwv]
  unfold unfoundOf
  rw [herase, Finset.card_erase_add_one hmem]

/-- What the search keeps, for labels that say how deep each vertex was found. -/
structure PathInv (g : IgraphT) (mode : NeiMode) (root : ℕ) (tos : List ℕ) (depth : ℕ → Option ℕ)
    (waiting : List ℕ) (s : PathSearch) : Prop where
  frontier : Frontier (g.adj mode) root depth waiting
  lt : ∀ v d, depth v = some d → v < g.n
  depth_lt : ∀ v d, depth v = some d → d + unfoundOf g.n depth < g.n
  father_root : s.father root = 1
  father_none : ∀ v, depth v = none → s.father v = if v ∈ tos then -1 else 0
  father_edge : ∀ v d, depth v = some d → v ≠ root → ∃ e d', s.father v = (e : ℕ) + 2 ∧
    (e, v) ∈ g.adj mode (g.other e v) ∧ depth (g.other e v) = some d' ∧ d = d' + 1
  reached : s.reached = foundOf tos depth

lemma PathInv.father_pos (h : PathInv g mode root tos depth waiting s) :
    0 < s.father v ↔ depth v ≠ none := by
  constructor
  · intro hpos hnone
    rw [h.father_none v hnone] at hpos
    split at hpos <;> omega
  · intro hne
    obtain ⟨d, hd⟩ := Option.ne_none_iff_exists'.mp hne
    by_cases hr : v = root
    · rw [hr, h.father_root]
      omega
    · obtain ⟨e, d', he, _⟩ := h.father_edge v d hd hr
      rw [he]
      omega

lemma foundOf_update (hv : depth v = none) (d : ℕ) :
    (foundOf tos (Function.update depth v (some d)) : ℤ) =
      if v ∈ tos then (foundOf tos depth : ℤ) + 1 else foundOf tos depth := by
  unfold foundOf
  split
  · rename_i hmem
    have hfilter : tos.toFinset.filter (fun w => (Function.update depth v (some d) w).isSome) =
        insert v (tos.toFinset.filter (fun w => (depth w).isSome)) := by
      ext w
      by_cases hwv : w = v
      · simp [hwv, hmem]
      · simp [hwv]
    rw [hfilter, Finset.card_insert_of_notMem (by simp [hv])]
    push_cast
    rfl
  · rename_i hmem
    congr 2
    apply Finset.filter_congr
    intro w hw
    rw [Function.update_of_ne]
    rintro rfl
    exact hmem (List.mem_toFinset.mp hw)

/-- What looking at edges of a vertex of depth `d` does: new vertices are one deeper and wait
behind the others, and what is known of the others stays. -/
structure Grown (n d : ℕ) (depth depth' : ℕ → Option ℕ) (new : List ℕ) (s s' : PathSearch) :
    Prop where
  keep : ∀ v k, depth v = some k → depth' v = some k ∧ s'.father v = s.father v
  new_depth : ∀ v ∈ new, depth' v = some (d + 1)
  label : ∀ v k, depth' v = some k → depth v = some k ∨ k = d + 1
  unfound : unfoundOf n depth' + new.length = unfoundOf n depth

lemma Grown.refl (n d : ℕ) (depth : ℕ → Option ℕ) (s : PathSearch) :
    Grown n d depth depth [] s s :=
  ⟨fun _ _ h => ⟨h, rfl⟩, nofun, fun _ _ h => .inl h, rfl⟩

lemma Grown.trans {d : ℕ} {depth'' : ℕ → Option ℕ} {new new' : List ℕ} {s' s'' : PathSearch}
    (h : Grown n d depth depth' new s s') (h' : Grown n d depth' depth'' new' s' s'') :
    Grown n d depth depth'' (new ++ new') s s'' := by
  refine ⟨fun v k hv => ?_, fun v hv => ?_, fun v k hv => ?_, ?_⟩
  · obtain ⟨hd, hf⟩ := h.keep v k hv
    obtain ⟨hd', hf'⟩ := h'.keep v k hd
    exact ⟨hd', hf'.trans hf⟩
  · rcases List.mem_append.mp hv with hv | hv
    · exact (h'.keep v _ (h.new_depth v hv)).1
    · exact h'.new_depth v hv
  · exact (h'.label v k hv).elim (h.label v k) .inr
  · rw [← h.unfound, ← h'.unfound, List.length_append]
    omega

/-- A vertex that an edge of the vertex in front finds. -/
lemma PathInv.discover (hg : g.Indexed) {d : ℕ} (h : PathInv g mode root tos depth (x :: waiting) s)
    (hd : depth x = some d) (ha : (e, y) ∈ g.adj mode x) (hnone : depth y = none)
    (s' : PathSearch) (hfather : s'.father = Function.update s.father y ((e : ℤ) + 2))
    (hreached : s'.reached = if s.father y < 0 then s.reached + 1 else s.reached) :
    PathInv g mode root tos (Function.update depth y (some (d + 1))) (x :: (waiting ++ [y])) s' ∧
      Grown g.n d depth (Function.update depth y (some (d + 1))) [y] s s' := by
  have hold : ∀ v d', depth v = some d' → v ≠ y := by
    rintro v d' hv rfl
    rw [hv] at hnone
    cases hnone
  have hkeep : ∀ v d', depth v = some d' →
      Function.update depth y (some (d + 1)) v = some d' ∧ s'.father v = s.father v :=
    fun v d' hv => by
      rw [hfather, Function.update_of_ne (hold v d' hv), Function.update_of_ne (hold v d' hv)]
      exact ⟨hv, rfl⟩
  have hfewer := unfoundOf_update hnone (hg.snd_lt ha) (d + 1)
  refine ⟨⟨h.frontier.discover hd ha hnone, ?_, ?_, ?_, ?_, ?_, ?_⟩, hkeep, ?_, ?_, hfewer⟩
  · intro v d' hv
    by_cases hvy : v = y
    · rw [hvy]
      exact hg.snd_lt ha
    · rw [Function.update_of_ne hvy] at hv
      exact h.lt v d' hv
  · intro v d' hv
    by_cases hvy : v = y
    · rw [hvy, Function.update_self, Option.some.injEq] at hv
      have := h.depth_lt x d hd
      omega
    · rw [Function.update_of_ne hvy] at hv
      have := h.depth_lt v d' hv
      omega
  · rw [(hkeep root 0 h.frontier.searched.root_depth).2]
    exact h.father_root
  · intro v hv
    by_cases hvy : v = y
    · rw [hvy, Function.update_self] at hv
      cases hv
    · rw [Function.update_of_ne hvy] at hv
      rw [hfather, Function.update_of_ne hvy]
      exact h.father_none v hv
  · intro v d' hv hroot
    by_cases hvy : v = y
    · subst hvy
      have hback := hg.other_other ha
      rw [Function.update_self, Option.some.injEq] at hv
      refine ⟨e, d, ?_, by rwa [hback], by rw [hback, (hkeep x d hd).1], hv.symm⟩
      rw [hfather, Function.update_self]
    · rw [Function.update_of_ne hvy] at hv
      obtain ⟨e', d₀, he', hmem, hd₀, hlen⟩ := h.father_edge v d' hv hroot
      exact ⟨e', d₀, (hkeep v d' hv).2.trans he', hmem, (hkeep _ _ hd₀).1, hlen⟩
  · have hneg : s.father y < 0 ↔ y ∈ tos := by
      rw [h.father_none y hnone]
      split <;> rename_i hmem
      · exact ⟨fun _ => hmem, fun _ => by omega⟩
      · exact ⟨fun hlt => absurd hlt (by omega), fun hy' => absurd hy' hmem⟩
    rw [hreached, foundOf_update hnone, if_congr hneg rfl rfl, h.reached]
  · intro v hv
    rw [List.mem_singleton.mp hv, Function.update_self]
  · intro v k hv
    by_cases hvy : v = y
    · rw [hvy, Function.update_self, Option.some.injEq] at hv
      exact .inr hv.symm
    · rw [Function.update_of_ne hvy] at hv
      exact .inl hv

/-- Looking at an edge of the vertex in front finds its other end. -/
lemma PathInv.visit (hg : g.Indexed) {d : ℕ} (h : PathInv g mode root tos depth (x :: waiting) s)
    (hd : depth x = some d) (hq : s.q.toList = waiting.map (· + 1)) (ha : (e, y) ∈ g.adj mode x) :
    ∃ depth' new, PathInv g mode root tos depth' (x :: (waiting ++ new)) (s.visit g x e) ∧
      Grown g.n d depth depth' new s (s.visit g x e) ∧
      (s.visit g x e).q.toList = (waiting ++ new).map (· + 1) ∧ depth' y ≠ none ∧
      (depth y = none → (s.visit g x e).father y = e + 2 ∧ new = [y]) := by
  have hy : y = g.other e x := (hg.mem_adj ha).2.2
  unfold PathSearch.visit
  rw [← hy]
  dsimp only
  by_cases hpos : 0 < s.father y
  · rw [if_pos hpos]
    refine ⟨depth, [], by rwa [List.append_nil], .refl .., by rwa [List.append_nil],
      h.father_pos.mp hpos, fun hnone => absurd hnone (h.father_pos.mp hpos)⟩
  · rw [if_neg hpos]
    have hnone : depth y = none := by
      by_contra hne
      exact hpos (h.father_pos.mpr hne)
    obtain ⟨hinv, hgrown⟩ := h.discover hg hd ha hnone
      { father := Function.update s.father y (e + 2)
        q := s.q.push (y + 1)
        reached := if s.father y < 0 then s.reached + 1 else s.reached } rfl rfl
    refine ⟨_, [y], hinv, hgrown, ?_, ?_, fun _ => ⟨Function.update_self .., rfl⟩⟩
    · rw [Dqueue.toList_push, hq, List.map_append, List.map_singleton]
    · rw [Function.update_self]
      exact Option.some_ne_none _

/-- Looking at several edges finds the other ends of all of them. -/
lemma PathInv.foldl_visit (hg : g.Indexed) {d : ℕ} {es : List ℕ}
    (h : PathInv g mode root tos depth (x :: waiting) s) (hd : depth x = some d)
    (hq : s.q.toList = waiting.map (· + 1)) (hes : ∀ e ∈ es, (e, g.other e x) ∈ g.adj mode x) :
    ∃ depth' new, PathInv g mode root tos depth' (x :: (waiting ++ new))
        (es.foldl (PathSearch.visit g x) s) ∧
      Grown g.n d depth depth' new s (es.foldl (PathSearch.visit g x) s) ∧
      (es.foldl (PathSearch.visit g x) s).q.toList = (waiting ++ new).map (· + 1) ∧
      ∀ e ∈ es, depth' (g.other e x) ≠ none := by
  induction es generalizing depth waiting s with
  | nil => exact ⟨depth, [], by rwa [List.append_nil], .refl .., by rwa [List.append_nil], nofun⟩
  | cons e es ih =>
    rw [List.forall_mem_cons] at hes
    obtain ⟨depth₁, new₁, hinv, hgrown, hq₁, hfound, _⟩ := h.visit hg hd hq hes.1
    obtain ⟨depth', new', hinv', hgrown', hq', hall⟩ := ih hinv (hgrown.keep x d hd).1 hq₁ hes.2
    refine ⟨depth', new₁ ++ new', ?_, hgrown.trans hgrown', ?_, List.forall_mem_cons.mpr ⟨?_, hall⟩⟩
    · rw [← List.append_assoc]
      exact hinv'
    · rw [← List.append_assoc]
      exact hq'
    · obtain ⟨k, hk⟩ := Option.ne_none_iff_exists'.mp hfound
      rw [(hgrown'.keep _ k hk).1]
      exact Option.some_ne_none _

/-- A pass takes the vertex in front from the queue, all its edges looked at. -/
lemma PathInv.pass (hg : g.Indexed) {d : ℕ} (h : PathInv g mode root tos depth (x :: waiting) s)
    (hd : depth x = some d) (hq : s.q.toList = (x :: waiting).map (· + 1)) (rnd : Rnd) :
    ∃ s' depth' new, s.pass g mode rnd = .ok s' ∧
      PathInv g mode root tos depth' (waiting ++ new) s' ∧ Grown g.n d depth depth' new s s' ∧
      s'.q.toList = (waiting ++ new).map (· + 1) := by
  obtain ⟨hact, hrest⟩ := Dqueue.pop_eq hq
  obtain ⟨es, hes, hadj, _⟩ := hg.exists_incident (h.lt x d hd) mode
  have hall : ∀ e ∈ shuffleBack rnd es, (e, g.other e x) ∈ g.adj mode x := by
    intro e he
    rw [hadj]
    exact List.mem_map_of_mem (mem_shuffleBack.mp he)
  have hpopped : PathInv g mode root tos depth (x :: waiting) { s with q := s.q.pop.2 } :=
    ⟨h.frontier, h.lt, h.depth_lt, h.father_root, h.father_none, h.father_edge, h.reached⟩
  obtain ⟨depth', new, hinv, hgrown, hq', hfound⟩ := hpopped.foldl_visit hg hd hrest hall
  refine ⟨_, depth', new, ?_, ⟨hinv.frontier.close ?_, hinv.lt, hinv.depth_lt, hinv.father_root,
    hinv.father_none, hinv.father_edge, hinv.reached⟩, ⟨hgrown.keep, hgrown.new_depth, hgrown.label,
    hgrown.unfound⟩, hq'⟩
  · simp only [PathSearch.pass, hact, Nat.add_sub_cancel, hes]
  · intro a ha
    rw [hadj] at ha
    obtain ⟨e, he, rfl⟩ := List.mem_map.mp ha
    exact hfound e (mem_shuffleBack.mpr he)

/-- The search stops when none waits or as many are reached as are wanted. -/
lemma stopped {toReach : ℤ} (hq : s.q.toList = waiting.map (· + 1))
    (hstop : ¬ (!s.q.empty && decide (s.reached < toReach)) = true) :
    waiting = [] ∨ toReach ≤ s.reached := by
  rw [Bool.and_eq_true, Bool.not_eq_true', ← Bool.not_eq_true, Dqueue.empty_iff, hq,
    List.map_eq_nil_iff, decide_eq_true_eq, not_and_or, not_not] at hstop
  exact hstop.imp_right Int.not_lt.mp

/-- The search ends, with all wanted vertices reached or none waiting. -/
lemma PathInv.run (hg : g.Indexed) (toReach : ℤ) {fuel : ℕ} (draws : ℕ → Rnd)
    (h : PathInv g mode root tos depth waiting s) (hq : s.q.toList = waiting.map (· + 1))
    (hfuel : unfoundOf g.n depth + waiting.length < fuel) :
    ∃ s' depth' waiting', PathSearch.run g mode toReach fuel draws s = .ok s' ∧
      PathInv g mode root tos depth' waiting' s' ∧ (waiting' = [] ∨ toReach ≤ s'.reached) := by
  induction fuel generalizing depth waiting s draws with
  | zero => omega
  | succ fuel ih =>
    rw [PathSearch.run]
    split
    · rename_i hgo
      rw [Bool.and_eq_true, Bool.not_eq_true', ← Bool.not_eq_true, Dqueue.empty_iff, hq,
        List.map_eq_nil_iff] at hgo
      obtain ⟨x, waiting, rfl⟩ := List.exists_cons_of_ne_nil hgo.1
      obtain ⟨d, hd⟩ := h.frontier.queued x (List.mem_cons_self ..)
      obtain ⟨s₁, depth₁, new, he, hinv, hgrown, hq₁⟩ := h.pass hg hd hq (draws 0)
      rw [he]
      refine ih (fun n => draws (n + 1)) hinv hq₁ ?_
      have := hgrown.unfound
      rw [List.length_append]
      rw [List.length_cons] at hfuel
      omega
    · rename_i hstop
      exact ⟨s, depth, waiting, rfl, h, stopped hq hstop⟩

/-- Following the edges back gives a walk from the root, as long as the label says. -/
lemma PathInv.traceBack (h : PathInv g mode root tos depth waiting s) {act node d fuel : ℕ}
    {vs es : List ℕ} (hd : depth act = some d) (hfuel : d < fuel)
    (hwalk : VertexWalk (g.adj mode) act vs es node) :
    ∃ vs' es', g.traceBack s.father fuel act (vs, es) = .ok (vs', es') ∧
      VertexWalk (g.adj mode) root vs' es' node ∧ es'.length = d + es.length := by
  induction fuel generalizing act d vs es with
  | zero => omega
  | succ fuel ih =>
    rw [IgraphT.traceBack]
    by_cases hroot : act = root
    · subst hroot
      rw [if_neg (by rw [h.father_root]; omega)]
      rw [h.frontier.searched.root_depth, Option.some.injEq] at hd
      exact ⟨vs, es, rfl, hwalk, by omega⟩
    · obtain ⟨e, d', he, hmem, hd', rfl⟩ := h.father_edge act d hd hroot
      rw [if_pos (by omega)]
      have hcode : (s.father act - 2).toNat = e := by omega
      rw [hcode]
      obtain ⟨vs', es', hres, hwalk', hlen⟩ := ih hd' (by omega) (VertexWalk.cons hmem hwalk)
      refine ⟨vs', es', hres, hwalk', ?_⟩
      rw [hlen, List.length_cons]
      omega

/-- What the search reports for a vertex. -/
def PathOk (g : IgraphT) (mode : NeiMode) (root v : ℕ) (path : List ℕ × List ℕ) : Prop :=
  ((∃ q, EdgeWalk (g.adj mode) root q v) →
    VertexWalk (g.adj mode) root path.1 path.2 v ∧ Shortest (g.adj mode) root path.2 v) ∧
  ((¬ ∃ q, EdgeWalk (g.adj mode) root q v) → path = ([], []))

lemma PathInv.pathTo (h : PathInv g mode root tos depth waiting s) {fuel : ℕ}
    (hfuel : g.n < fuel) (hdone : depth v = none → waiting = []) :
    ∃ path, g.pathTo fuel s.father v = .ok path ∧ PathOk g mode root v path := by
  unfold IgraphT.pathTo
  cases hd : depth v with
  | none =>
    rw [if_neg (by rw [h.father_pos, hd]; simp)]
    refine ⟨_, rfl, fun hwalk => ?_, fun _ => rfl⟩
    obtain ⟨q, hq⟩ := hwalk
    have hfrontier := h.frontier
    rw [hdone hd] at hfrontier
    obtain ⟨d, hd'⟩ := hfrontier.found hq
    rw [hd] at hd'
    cases hd'
  | some d =>
    rw [if_pos (by rw [h.father_pos, hd]; simp)]
    have hlt := h.depth_lt v d hd
    obtain ⟨vs, es, he, hwalk, hlen⟩ := h.traceBack hd (show d < fuel by omega)
      (show VertexWalk (g.adj mode) v [v] [] v from ⟨rfl, rfl⟩)
    obtain ⟨p, hp, hplen⟩ := h.frontier.shortest hd
    refine ⟨(vs, es), he, fun _ => ⟨hwalk, hwalk.edgeWalk, fun q hq => ?_⟩, fun hno => ?_⟩
    · rw [hlen, List.length_nil, Nat.add_zero, ← hplen]
      exact hp.2 q hq
    · exact absurd ⟨es, hwalk.edgeWalk⟩ hno

/-! ### The vertices to reach -/

lemma markTargets_eq (tos : List ℕ) (seen : Finset ℕ) (count : ℤ) :
    markTargets tos (fun v => if v ∈ seen then -1 else 0, count) =
      (fun v => if v ∈ seen ∪ tos.toFinset then -1 else 0,
        count - tos.length + (tos.toFinset \ seen).card) := by
  induction tos generalizing seen count with
  | nil => simp [markTargets]
  | cons v tos ih =>
    rw [markTargets]
    dsimp only
    by_cases hv : v ∈ seen
    · rw [if_neg (by rw [if_pos hv]; omega), ih]
      have hsdiff : (v :: tos).toFinset \ seen = tos.toFinset \ seen := by
        rw [List.toFinset_cons, Finset.insert_sdiff_of_mem _ hv]
      have hunion : seen ∪ (v :: tos).toFinset = seen ∪ tos.toFinset := by
        rw [List.toFinset_cons, Finset.union_insert, Finset.insert_eq_of_mem
          (Finset.mem_union_left _ hv)]
      rw [hsdiff, hunion, List.length_cons]
      push_cast
      exact Prod.ext rfl (by dsimp only; omega)
    · have hmark : Function.update (fun w => if w ∈ seen then (-1 : ℤ) else 0) v (-1) =
          fun w => if w ∈ insert v seen then -1 else 0 := by
        funext w
        by_cases hwv : w = v
        · simp [hwv]
        · simp [hwv]
      have hcard : ((v :: tos).toFinset \ seen).card = (tos.toFinset \ insert v seen).card + 1 := by
        have herase : tos.toFinset \ insert v seen = (tos.toFinset \ seen).erase v := by
          ext w
          simp only [Finset.mem_sdiff, Finset.mem_insert, Finset.mem_erase, not_or]
          exact ⟨fun hw => ⟨hw.2.1, hw.1, hw.2.2⟩, fun hw => ⟨hw.2.1, hw.1, hw.2.2⟩⟩
        rw [List.toFinset_cons, Finset.insert_sdiff_of_notMem _ hv, herase,
          ← Finset.card_erase_add_one (Finset.mem_insert_self v _), Finset.erase_insert_eq_erase]
      rw [if_pos (by rw [if_neg hv]), hmark, ih, hcard, List.length_cons, List.toFinset_cons,
        Finset.insert_union, Finset.union_insert]
      push_cast
      exact Prod.ext rfl (by dsimp only; omega)

/-- The marks that the search starts with. -/
lemma markTargets_start (tos : List ℕ) :
    markTargets tos (fun _ => 0, tos.length) =
      (fun v => if v ∈ tos then -1 else 0, (tos.toFinset.card : ℤ)) := by
  have hmarks := markTargets_eq tos ∅ tos.length
  simpa using hmarks

/-- All vertices but the root are to be found. -/
lemma unfoundOf_start (hroot : root < n) :
    unfoundOf n (Function.update (fun _ => none) root (some 0)) + 1 = n := by
  rw [unfoundOf_update rfl hroot]
  simp [unfoundOf]

lemma pathInv_start (hroot : root < g.n) (mode : NeiMode) (tos : List ℕ) :
    PathInv g mode root tos (Function.update (fun _ => none) root (some 0)) [root]
      (.start root (fun v => if v ∈ tos then -1 else 0)) := by
  have hunfound := unfoundOf_start hroot
  have hself : Function.update (fun v => if v ∈ tos then (-1 : ℤ) else 0) root 1 root = 1 :=
    Function.update_self ..
  have hmark : ∀ v, v ≠ root → Function.update (fun v => if v ∈ tos then (-1 : ℤ) else 0) root 1 v =
      if v ∈ tos then -1 else 0 := fun v hv => Function.update_of_ne hv ..
  refine ⟨frontier_start _ root, fun v d hv => ?_, fun v d hv => ?_, hself,
    fun v hv => hmark v ?_, fun v d hv hne => absurd (update_none_eq_some.mp hv).1 hne, ?_⟩
  · rw [(update_none_eq_some.mp hv).1]
    exact hroot
  · rw [(update_none_eq_some.mp hv).2]
    omega
  · rintro rfl
    rw [Function.update_self] at hv
    cases hv
  · have hnone : foundOf tos (fun _ => none) = 0 := by simp [foundOf]
    have hneg : (if root ∈ tos then (-1 : ℤ) else 0) < 0 ↔ root ∈ tos := by
      split <;> simp [*]
    rw [foundOf_update rfl, hnone]
    exact if_congr hneg rfl rfl

lemma queue_start (root : ℕ) (father : ℕ → ℤ) :
    (PathSearch.start root father).q.toList = [root].map (· + 1) := by
  rw [PathSearch.start, Dqueue.toList_push, Dqueue.toList_init]
  rfl

/-- If as many vertices are reached as are wanted, they are all found. -/
lemma PathInv.done (h : PathInv g mode root tos depth waiting s)
    (hend : waiting = [] ∨ (tos.toFinset.card : ℤ) ≤ s.reached) (hv : v ∈ tos)
    (hnone : depth v = none) : waiting = [] := by
  refine hend.resolve_right fun hle => ?_
  have hcard : (tos.toFinset.filter (fun v => (depth v).isSome)).card = tos.toFinset.card := by
    refine Nat.le_antisymm (Finset.card_filter_le ..) ?_
    have hreached := h.reached
    unfold foundOf at hreached
    omega
  have hall := Finset.card_filter_eq_iff.mp hcard v (List.mem_toFinset.mpr hv)
  rw [hnone] at hall
  cases hall

/-- Vertices as a selector names them. -/
def ids (vs : List ℕ) : List ℤ := vs.map (fun v : ℕ => (v : ℤ))

lemma toNat_ids (vs : List ℕ) : (ids vs).map Int.toNat = vs := by
  rw [ids, List.map_map]
  exact List.map_id _

lemma isInInterval_ids {vs : List ℕ} (hvs : ∀ v ∈ vs, v < g.n) :
    isInInterval (ids vs) 0 (g.n - 1) = true := by
  rw [isInInterval_iff, ids, List.forall_mem_map]
  intro v hv
  have := hvs v hv
  omega

lemma getShortestPaths_eq {tos : List ℕ} (hroot : root < g.n) (htos : ∀ v ∈ tos, v < g.n)
    (fuel : ℕ) (draws : ℕ → Rnd) (mode : NeiMode) :
    g.getShortestPaths fuel draws root (ids tos) mode =
      match PathSearch.run g mode (markTargets tos (fun _ => 0, tos.length)).2 fuel draws
        (.start root (markTargets tos (fun _ => 0, tos.length)).1) with
      | .error f => .error f
      | .ok s => tos.mapM (g.pathTo fuel s.father) := by
  have hlen : (ids tos).length = tos.length := List.length_map ..
  unfold getShortestPaths
  rw [if_neg (by omega), if_neg (by rw [isInInterval_ids htos]; simp), toNat_ids, hlen]
  rfl

lemma mapM_ok {α β : Type} {f : α → Except Fault β} {P : α → β → Prop} {xs : List α}
    (h : ∀ x ∈ xs, ∃ y, f x = .ok y ∧ P x y) :
    ∃ ys, xs.mapM f = .ok ys ∧ List.Forall₂ P xs ys := by
  induction xs with
  | nil => exact ⟨[], rfl, .nil⟩
  | cons x xs ih =>
    rw [List.forall_mem_cons] at h
    obtain ⟨y, hy, hP⟩ := h.1
    obtain ⟨ys, hys, hall⟩ := ih h.2
    refine ⟨y :: ys, ?_, .cons hP hall⟩
    rw [List.mapM_cons, hy, hys]
    rfl

/-- The search ends, and has the paths of all wanted vertices. -/
lemma exists_search (hg : g.Indexed) (hroot : root < g.n) (tos : List ℕ) (mode : NeiMode)
    {fuel : ℕ} (hfuel : g.n < fuel) (draws : ℕ → Rnd) :
    ∃ s, PathSearch.run g mode (markTargets tos (fun _ => 0, tos.length)).2 fuel draws
        (.start root (markTargets tos (fun _ => 0, tos.length)).1) = .ok s ∧
      ∀ v ∈ tos, ∃ path, g.pathTo fuel s.father v = .ok path ∧ PathOk g mode root v path := by
  have hunfound := unfoundOf_start hroot
  obtain ⟨s, depth, waiting, he, hinv, hend⟩ := (pathInv_start hroot mode tos).run hg
    tos.toFinset.card draws (queue_start ..) (show _ < fuel by rw [List.length_singleton]; omega)
  rw [markTargets_start]
  exact ⟨s, he, fun v hv => hinv.pathTo hfuel (hinv.done hend hv)⟩

/-- For any order of the edges and any wanted vertices, the search ends within as many passes as
there are vertices, and reports for each wanted vertex the vertices and the edges of a shortest
path from the root, or nothing if and only if there is no path. -/
theorem getShortestPaths_shortest (hg : g.Indexed) (hroot : root < g.n) {tos : List ℕ}
    (htos : ∀ v ∈ tos, v < g.n) (mode : NeiMode) {fuel : ℕ} (hfuel : g.n < fuel)
    (draws : ℕ → Rnd) :
    ∃ paths, g.getShortestPaths fuel draws root (ids tos) mode = .ok paths ∧
      List.Forall₂ (fun v path => PathOk g mode root v path) tos paths := by
  obtain ⟨s, he, hpaths⟩ := exists_search hg hroot tos mode hfuel draws
  rw [getShortestPaths_eq hroot htos, he]
  exact mapM_ok hpaths

/-- A ring of four vertices: two shortest paths lead to the opposite one. -/
def ring : IgraphT :=
  ⟨4, false, [1, 2, 3, 3], [0, 1, 2, 0], [0, 1, 3, 2], [0, 3, 1, 2], [0, 0, 1, 2, 4],
    [0, 2, 3, 4, 4]⟩

lemma ring_eq :
    (empty 4 false).map (fun g => g.edits [.addEdges [0, 1, 1, 2, 2, 3, 3, 0]]) = .ok ring := rfl

lemma indexed_ring : ring.Indexed := by
  obtain ⟨g₀, he, h₀, _⟩ := empty_eq (n := 4) (by decide) false
  have hring := ring_eq
  rw [he] at hring
  rw [← Except.ok.inj hring]
  exact (edits_spec h₀ _).1

theorem getShortestPaths_shortest_ring :
    ∃ paths, ring.getShortestPaths 5 (fun _ _ => 0) (0 : ℕ) (ids [2, 3, 2]) .outgoing = .ok paths ∧
      List.Forall₂ (fun v path => PathOk ring .outgoing 0 v path) [2, 3, 2] paths :=
  getShortestPaths_shortest indexed_ring (by decide) (by decide) .outgoing (by decide)
    (fun _ _ => 0)

end IgraphT

end ResSim
