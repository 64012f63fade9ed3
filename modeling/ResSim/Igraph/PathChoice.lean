import ResSim.Igraph.ShortestPaths

/-!
# Every shortest path is found in some run

The edges of a vertex are shuffled so that the paths of different runs spread over the network.
The search can be led to any shortest path: if the vertex that the path has reached so far is
the first of its depth in the queue, and its edge on the path is the first that is looked at,
then the next vertex of the path is found through this edge, before all others of its depth.
-/

namespace ResSim

lemma Shortest.left {V E : Type} {adj : Adj V E} {x y z : V} {p q : List E}
    (h : Shortest adj x (p ++ q) z) (hp : EdgeWalk adj x p y) (hq : EdgeWalk adj y q z) :
    Shortest adj x p y := by
  refine ⟨hp, fun p' hp' => ?_⟩
  have hle := h.2 (p' ++ q) (edgeWalk_append.mpr ⟨y, hp', hq⟩)
  rw [List.length_append, List.length_append] at hle
  omega

namespace IgraphT

variable {g : IgraphT} {mode : NeiMode} {root v x y t e : ℕ} {tos : List ℕ}
  {depth depth' : ℕ → Option ℕ} {waiting pre post done rest es : List ℕ} {s s' : PathSearch}

/-- The edges that lead back from a vertex to the root, the last one first. -/
def Back (g : IgraphT) (father : ℕ → ℤ) (root : ℕ) : ℕ → List ℕ → Prop
  | x, [] => x = root
  | x, e :: es => father x = (e : ℤ) + 2 ∧ Back g father root (g.other e x) es

lemma Back.congr {father father' : ℕ → ℤ} (h : Back g father root x es)
    (heq : ∀ v, 0 < father v → father' v = father v) : Back g father' root x es := by
  induction es generalizing x with
  | nil => exact h
  | cons e es ih =>
    obtain ⟨hx, hback⟩ := h
    exact ⟨by rw [heq x (by omega), hx], ih hback⟩

lemma Back.traceBack {father : ℕ → ℤ} (h : Back g father root x es) (hroot : father root = 1)
    {fuel : ℕ} (hfuel : es.length < fuel) (path : List ℕ × List ℕ) :
    ∃ vs, g.traceBack father fuel x path = .ok (vs, es.reverse ++ path.2) := by
  induction es generalizing x path fuel with
  | nil =>
    obtain ⟨fuel, rfl⟩ := Nat.exists_eq_add_of_lt hfuel
    rw [show x = root from h, IgraphT.traceBack, if_neg (by omega)]
    exact ⟨path.1, rfl⟩
  | cons e es ih =>
    obtain ⟨hx, hback⟩ := h
    rw [List.length_cons] at hfuel
    obtain ⟨fuel, rfl⟩ : ∃ k, fuel = k + 1 := ⟨fuel - 1, by omega⟩
    obtain ⟨vs, hvs⟩ := ih hback (show es.length < fuel by omega)
      (g.other e x :: path.1, e :: path.2)
    refine ⟨vs, ?_⟩
    rw [IgraphT.traceBack, if_pos (by omega), show (father x - 2).toNat = e by omega, hvs,
      List.reverse_cons, List.append_assoc, List.singleton_append]

lemma PathInv.label_eq (h : PathInv g mode root tos depth waiting s) {k : ℕ}
    (hs : Shortest (g.adj mode) root es v) (hk : depth v = some k) : k = es.length := by
  obtain ⟨p, hp, hlen⟩ := h.frontier.shortest hk
  rw [← hlen, hp.length_eq hs]

lemma Grown.back {n d : ℕ} {new : List ℕ} (hgrown : Grown n d depth depth' new s s')
    (h : PathInv g mode root tos depth waiting s) (hback : Back g s.father root x es) :
    Back g s'.father root x es := by
  refine hback.congr fun v hv => ?_
  obtain ⟨k, hk⟩ := Option.ne_none_iff_exists'.mp (h.father_pos.mp hv)
  exact (hgrown.keep v k hk).2

/-- The search is on the way along a path to `t`: the edges of `done` lead to `x`, which is the
first vertex of its depth in the queue, and no vertex is deeper. -/
structure Track (g : IgraphT) (mode : NeiMode) (root t : ℕ) (depth : ℕ → Option ℕ)
    (done rest : List ℕ) (x : ℕ) (pre : List ℕ) (s : PathSearch) : Prop where
  walk : EdgeWalk (g.adj mode) root done x
  walk_rest : EdgeWalk (g.adj mode) x rest t
  short : Shortest (g.adj mode) root (done ++ rest) t
  back : Back g s.father root x done.reverse
  before : ∀ v ∈ pre, ∀ k, depth v = some k → k < done.length
  label : ∀ v k, depth v = some k → k ≤ done.length

/-- The search has found a path to `t`, or is on the way along it. -/
def Aims (g : IgraphT) (mode : NeiMode) (root t : ℕ) (es : List ℕ) (depth : ℕ → Option ℕ)
    (waiting : List ℕ) (s : PathSearch) : Prop :=
  Back g s.father root t es.reverse ∨ ∃ done rest x pre post, es = done ++ rest ∧
    waiting = pre ++ x :: post ∧ Track g mode root t depth done rest x pre s

/-- A vertex that comes before `x` in the queue does not change the track. -/
lemma Track.before_pass (h : Track g mode root t depth done rest x (v :: pre) s)
    (hinv : PathInv g mode root tos depth (v :: (pre ++ x :: post)) s) {d : ℕ} {new : List ℕ}
    (hd : depth v = some d) (hgrown : Grown g.n d depth depth' new s s') :
    Track g mode root t depth' done rest x pre s' := by
  have hlt := h.before v (List.mem_cons_self ..) d hd
  refine ⟨h.walk, h.walk_rest, h.short, hgrown.back hinv h.back, ?_, ?_⟩
  · intro w hw k hk
    obtain ⟨kw, hkw⟩ := hinv.frontier.queued w
      (List.mem_cons_of_mem _ (List.mem_append_left _ hw))
    rw [(hgrown.keep w kw hkw).1, Option.some.injEq] at hk
    rw [← hk]
    exact h.before w (List.mem_cons_of_mem _ hw) kw hkw
  · intro w k hk
    rcases hgrown.label w k hk with hk | rfl
    · exact h.label w k hk
    · omega

/-- The vertex of the path is in front: the draws put its edge on the path first. -/
lemma Track.here_pass (hg : g.Indexed) (h : Track g mode root t depth done (e :: rest) x [] s)
    (hinv : PathInv g mode root tos depth (x :: post) s)
    (hq : s.q.toList = (x :: post).map (· + 1)) :
    ∃ rnd s' depth' new d, s.pass g mode rnd = .ok s' ∧ depth x = some d ∧
      PathInv g mode root tos depth' (post ++ new) s' ∧ Grown g.n d depth depth' new s s' ∧
      s'.q.toList = (post ++ new).map (· + 1) ∧
      ∃ y new', new = y :: new' ∧ Track g mode root t depth' (done ++ [e]) rest y post s' := by
  obtain ⟨y, hmem, hrest⟩ := h.walk_rest
  obtain ⟨d, hd⟩ := hinv.frontier.queued x (List.mem_cons_self ..)
  have hshort := h.short.left h.walk ⟨y, hmem, hrest⟩
  have hdone : d = done.length := hinv.label_eq hshort hd
  have hwalk : EdgeWalk (g.adj mode) root (done ++ [e]) y := edgeWalk_concat.mpr ⟨x, h.walk, hmem⟩
  have hes : done ++ e :: rest = (done ++ [e]) ++ rest := List.append_cons ..
  have hshort' : Shortest (g.adj mode) root (done ++ [e]) y :=
    (hes ▸ h.short).left hwalk hrest
  -- no vertex is as deep as the next one of the path, so it is not found
  have hnone : depth y = none := by
    by_contra hne
    obtain ⟨k, hk⟩ := Option.ne_none_iff_exists'.mp hne
    have := h.label y k hk
    have := hinv.label_eq hshort' hk
    rw [List.length_append, List.length_singleton] at this
    omega
  obtain ⟨hact, hpop⟩ := Dqueue.pop_eq hq
  obtain ⟨edges, hedges, hadj, _⟩ := hg.exists_incident (hinv.lt x d hd) mode
  have hmem' : e ∈ edges ∧ y = g.other e x := by
    have hmem' := hmem
    rw [hadj] at hmem'
    obtain ⟨e', he', heq⟩ := List.mem_map.mp hmem'
    obtain ⟨rfl, rfl⟩ := Prod.mk.injEq .. ▸ heq
    exact ⟨he', rfl⟩
  obtain ⟨rnd, hrnd⟩ := exists_shuffleBack_eq (List.perm_cons_erase hmem'.1).symm
  have hall : ∀ e' ∈ edges.erase e, (e', g.other e' x) ∈ g.adj mode x := by
    intro e' he'
    rw [hadj]
    exact List.mem_map_of_mem (List.mem_of_mem_erase he')
  have hpopped : PathInv g mode root tos depth (x :: post) { s with q := s.q.pop.2 } :=
    ⟨hinv.frontier, hinv.lt, hinv.depth_lt, hinv.father_root, hinv.father_none, hinv.father_edge,
      hinv.reached⟩
  obtain ⟨depth₁, new₁, hinv₁, hgrown₁, hq₁, _, hnew⟩ := hpopped.visit hg hd hpop hmem
  obtain ⟨hfather, rfl⟩ := hnew hnone
  obtain ⟨depth', new', hinv', hgrown', hq', hfound⟩ :=
    hinv₁.foldl_visit hg (hgrown₁.keep x d hd).1 hq₁ hall
  have hgrown := hgrown₁.trans hgrown'
  have hyd : depth₁ y = some (d + 1) := hgrown₁.new_depth y (List.mem_singleton.mpr rfl)
  have hgrown_s : Grown g.n d depth depth' ([y] ++ new') s
      ((edges.erase e).foldl (PathSearch.visit g x)
        (PathSearch.visit g x { s with q := s.q.pop.2 } e)) :=
    ⟨hgrown.keep, hgrown.new_depth, hgrown.label, hgrown.unfound⟩
  rw [List.append_assoc] at hinv' hq'
  refine ⟨rnd, _, depth', [y] ++ new', d, ?_, hd, ?_, hgrown_s, hq', y, new', rfl, ?_⟩
  · simp only [PathSearch.pass, hact, Nat.add_sub_cancel, hedges, hrnd, List.foldl_cons]
  · refine ⟨hinv'.frontier.close ?_, hinv'.lt, hinv'.depth_lt, hinv'.father_root,
      hinv'.father_none, hinv'.father_edge, hinv'.reached⟩
    intro a ha
    rw [hadj] at ha
    obtain ⟨e', he', rfl⟩ := List.mem_map.mp ha
    by_cases hee : e' = e
    · rw [hee, ← hmem'.2, (hgrown'.keep y _ hyd).1]
      exact Option.some_ne_none _
    · exact hfound e' ((List.mem_erase_of_ne hee).mpr he')
  · refine ⟨hwalk, hrest, hes ▸ h.short, ?_, ?_, ?_⟩
    · rw [List.reverse_append, List.reverse_singleton, List.singleton_append]
      refine ⟨(hgrown'.keep y _ hyd).2.trans hfather, ?_⟩
      rw [hg.other_other hmem]
      exact hgrown_s.back hinv h.back
    · intro w hw k hk
      obtain ⟨kw, hkw⟩ := hinv.frontier.queued w (List.mem_cons_of_mem _ hw)
      rw [(hgrown.keep w kw hkw).1, Option.some.injEq] at hk
      rw [← hk, List.length_append, List.length_singleton]
      exact Nat.lt_succ_of_le (h.label w kw hkw)
    · intro w k hk
      rw [List.length_append, List.length_singleton]
      rcases hgrown.label w k hk with hk | rfl
      · exact Nat.le_succ_of_le (h.label w k hk)
      · omega

/-- In each pass some draws keep the search on the way. -/
lemma exists_pass_aims (hg : g.Indexed) (h : Aims g mode root t es depth (v :: waiting) s)
    (hinv : PathInv g mode root tos depth (v :: waiting) s)
    (hq : s.q.toList = (v :: waiting).map (· + 1)) :
    ∃ rnd s' depth' new d, s.pass g mode rnd = .ok s' ∧
      PathInv g mode root tos depth' (waiting ++ new) s' ∧ Grown g.n d depth depth' new s s' ∧
      s'.q.toList = (waiting ++ new).map (· + 1) ∧
      Aims g mode root t es depth' (waiting ++ new) s' := by
  obtain ⟨d, hd⟩ := hinv.frontier.queued v (List.mem_cons_self ..)
  rcases h with hback | ⟨done, rest, x, pre, post, rfl, hwaiting, htrack⟩
  · obtain ⟨s', depth', new, he, hinv', hgrown, hq'⟩ := hinv.pass hg hd hq (fun _ => 0)
    exact ⟨_, s', depth', new, d, he, hinv', hgrown, hq', .inl (hgrown.back hinv hback)⟩
  · cases pre with
    | cons w pre =>
      obtain ⟨rfl, rfl⟩ := List.cons.inj hwaiting
      obtain ⟨s', depth', new, he, hinv', hgrown, hq'⟩ := hinv.pass hg hd hq (fun _ => 0)
      refine ⟨_, s', depth', new, d, he, hinv', hgrown, hq', .inr ?_⟩
      exact ⟨done, rest, x, pre, post ++ new, rfl, by simp,
        htrack.before_pass hinv hd hgrown⟩
    | nil =>
      obtain ⟨rfl, rfl⟩ := List.cons.inj hwaiting
      cases rest with
      | nil =>
        -- the end of the path
        obtain rfl : v = t := htrack.walk_rest
        obtain ⟨s', depth', new, he, hinv', hgrown, hq'⟩ := hinv.pass hg hd hq (fun _ => 0)
        refine ⟨_, s', depth', new, d, he, hinv', hgrown, hq', .inl ?_⟩
        rw [List.append_nil]
        exact hgrown.back hinv htrack.back
      | cons e rest =>
        obtain ⟨rnd, s', depth', new, d', he, _, hinv', hgrown, hq', y, new', hnew, htrack'⟩ :=
          htrack.here_pass hg hinv hq
        refine ⟨rnd, s', depth', new, d', he, hinv', hgrown, hq', .inr ?_⟩
        exact ⟨done ++ [e], rest, y, waiting, new', List.append_cons .., by rw [hnew], htrack'⟩

/-- Some draws lead the whole search along a path. -/
lemma exists_run_aims (hg : g.Indexed) (toReach : ℤ) {fuel : ℕ}
    (h : Aims g mode root t es depth waiting s) (hinv : PathInv g mode root tos depth waiting s)
    (hq : s.q.toList = waiting.map (· + 1))
    (hfuel : unfoundOf g.n depth + waiting.length < fuel) :
    ∃ draws s' depth' waiting', PathSearch.run g mode toReach fuel draws s = .ok s' ∧
      PathInv g mode root tos depth' waiting' s' ∧ (waiting' = [] ∨ toReach ≤ s'.reached) ∧
      Aims g mode root t es depth' waiting' s' := by
  induction fuel generalizing depth waiting s with
  | zero => omega
  | succ fuel ih =>
    by_cases hgo : (!s.q.empty && decide (s.reached < toReach)) = true
    · have hne := hgo
      rw [Bool.and_eq_true, Bool.not_eq_true', ← Bool.not_eq_true, Dqueue.empty_iff, hq,
        List.map_eq_nil_iff] at hne
      obtain ⟨v, waiting, rfl⟩ := List.exists_cons_of_ne_nil hne.1
      obtain ⟨rnd, s₁, depth₁, new, d, he, hinv₁, hgrown, hq₁, haims⟩ :=
        exists_pass_aims hg h hinv hq
      have hmeasure : unfoundOf g.n depth₁ + (waiting ++ new).length < fuel := by
        have := hgrown.unfound
        rw [List.length_append]
        rw [List.length_cons] at hfuel
        omega
      obtain ⟨draws, s', depth', waiting', he', hinv', hend⟩ := ih haims hinv₁ hq₁ hmeasure
      refine ⟨prepend rnd draws, s', depth', waiting', ?_, hinv', hend⟩
      rw [PathSearch.run, if_pos hgo, prepend_zero, he]
      exact he'
    · refine ⟨fun _ _ => 0, s, depth, waiting, ?_, hinv, stopped hq hgo, h⟩
      rw [PathSearch.run, if_neg hgo]

/-- When the search has ended, with `t` reached if it can be, the path is found. -/
lemma Aims.back (h : Aims g mode root t es depth waiting s)
    (hinv : PathInv g mode root tos depth waiting s) (hdone : depth t = none → waiting = []) :
    Back g s.father root t es.reverse := by
  rcases h with hback | ⟨done, rest, x, pre, post, rfl, rfl, htrack⟩
  · exact hback
  · have hne : depth t ≠ none := fun hnone => by simp at hdone; exact hdone hnone
    obtain ⟨k, hk⟩ := Option.ne_none_iff_exists'.mp hne
    have hlen := hinv.label_eq htrack.short hk
    have hle := htrack.label t k hk
    rw [List.length_append] at hlen
    obtain rfl : rest = [] := List.length_eq_zero_iff.mp (by omega)
    obtain rfl : x = t := htrack.walk_rest
    rw [List.append_nil]
    exact htrack.back

lemma aims_start (hs : Shortest (g.adj mode) root es t) :
    Aims g mode root t es (Function.update (fun _ => none) root (some 0)) [root]
      (.start root (fun v => if v ∈ tos then -1 else 0)) := by
  refine .inr ⟨[], es, root, [], [], rfl, rfl, rfl, hs.1, hs, rfl, nofun, ?_⟩
  intro v k hk
  exact Nat.le_of_eq (update_none_eq_some.mp hk).2

lemma forall₂_getElem? {α β : Type} {P : α → β → Prop} {xs : List α} {ys : List β} {i : ℕ} {a : α}
    (h : List.Forall₂ P xs ys) (ha : xs[i]? = some a) : ∃ b, ys[i]? = some b ∧ P a b := by
  induction h generalizing i with
  | nil => cases ha
  | cons hP _ ih =>
    cases i with
    | zero =>
      obtain rfl := Option.some.inj ha
      exact ⟨_, rfl, hP⟩
    | succ i => exact ih ha

/-- Whatever vertices are wanted, each shortest path to one of them is reported for it in some
run. -/
theorem exists_getShortestPaths_eq (hg : g.Indexed) (hroot : root < g.n) {tos : List ℕ}
    (htos : ∀ v ∈ tos, v < g.n) (mode : NeiMode) {fuel : ℕ} (hfuel : g.n < fuel) {i : ℕ}
    (hi : tos[i]? = some t) (hs : Shortest (g.adj mode) root es t) :
    ∃ draws paths vs, g.getShortestPaths fuel draws root (ids tos) mode = .ok paths ∧
      paths[i]? = some (vs, es) := by
  have ht : t ∈ tos := List.mem_of_getElem? hi
  have hunfound := unfoundOf_start hroot
  obtain ⟨draws, s, depth, waiting, he, hinv, hend, haims⟩ := exists_run_aims hg
    tos.toFinset.card (aims_start hs) (pathInv_start hroot mode tos) (queue_start ..)
    (show _ < fuel by rw [List.length_singleton]; omega)
  have hback := haims.back hinv (hinv.done hend ht)
  -- the end of the path is found, since it can be reached
  have hfound : depth t ≠ none := fun hnone => by
    have hfrontier := hinv.frontier
    rw [hinv.done hend ht hnone] at hfrontier
    obtain ⟨d, hd⟩ := hfrontier.found hs.1
    rw [hnone] at hd
    cases hd
  obtain ⟨k, hk⟩ := Option.ne_none_iff_exists'.mp hfound
  have hlt := hinv.depth_lt t k hk
  have hlen := hinv.label_eq hs hk
  obtain ⟨vs, hvs⟩ := hback.traceBack hinv.father_root
    (show es.reverse.length < fuel by rw [List.length_reverse]; omega) ([t], [])
  rw [List.reverse_reverse, List.append_nil] at hvs
  have hmap : ∃ paths, tos.mapM (g.pathTo fuel s.father) = .ok paths ∧
      List.Forall₂ (fun v path => g.pathTo fuel s.father v = .ok path) tos paths := by
    refine mapM_ok fun v hv => ?_
    obtain ⟨path, hpath, _⟩ := hinv.pathTo hfuel (hinv.done hend hv)
    exact ⟨path, hpath, hpath⟩
  obtain ⟨paths, hpaths, hall⟩ := hmap
  obtain ⟨path, hpath, hto⟩ := forall₂_getElem? hall hi
  refine ⟨draws, paths, vs, ?_, ?_⟩
  · rw [getShortestPaths_eq hroot htos, markTargets_start, he]
    exact hpaths
  · rw [IgraphT.pathTo, if_pos (hinv.father_pos.mpr hfound), hvs, Except.ok.injEq] at hto
    rw [hpath, hto]

lemma shortest_ring : Shortest (ring.adj .outgoing) 0 [3, 2] 2 := by
  refine ⟨⟨3, by decide, 2, by decide, rfl⟩, fun q hq => ?_⟩
  match q with
  | [] => exact absurd (show 0 = 2 from hq) (by decide)
  | [e] =>
    obtain ⟨z, he, hz⟩ := hq
    obtain rfl : z = 2 := hz
    rw [show ring.adj .outgoing 0 = [(0, 1), (3, 3)] by decide] at he
    simp at he
  | _ :: _ :: q => exact Nat.succ_le_succ (Nat.succ_le_succ (Nat.zero_le _))

/-- Both ways around the ring are found. -/
theorem exists_getShortestPaths_eq_ring :
    Shortest (ring.adj .outgoing) 0 [3, 2] 2 ∧
      ∃ draws paths vs, ring.getShortestPaths 5 draws (0 : ℕ) (ids [1, 2]) .outgoing = .ok paths ∧
        paths[1]? = some (vs, [3, 2]) :=
  ⟨shortest_ring, exists_getShortestPaths_eq indexed_ring (by decide) (by decide) .outgoing
    (by decide) (i := 1) rfl shortest_ring⟩

end IgraphT

end ResSim
