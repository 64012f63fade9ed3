import Mathlib.Logic.Function.Basic
import ResSim.Lib.Walk

/-!
# Searches that label vertices with their depth

A search finds vertices from a root on and labels each with the number of edges it was found
after. `Searched` holds of such labels at any time, however the search proceeds: an edge of a
found vertex leads to a vertex found in time or still waits to be looked at. If all edges that
wait belong to late vertices, the labels are distances already, also those of a search that is
stopped early.

`Frontier` is the case of a first-in first-out queue of vertices, which keeps it that way.
-/

namespace ResSim

variable {V E : Type}

/-- A walk with the list of its vertices, both ends included. -/
def VertexWalk (adj : Adj V E) : V → List V → List E → V → Prop
  | x, vs, [], y => vs = [x] ∧ x = y
  | x, vs, e :: p, y => ∃ z ws, vs = x :: ws ∧ (e, z) ∈ adj x ∧ VertexWalk adj z ws p y

lemma VertexWalk.cons {adj : Adj V E} {x y z : V} {e : E} {vs : List V} {p : List E}
    (he : (e, z) ∈ adj x) (h : VertexWalk adj z vs p y) :
    VertexWalk adj x (x :: vs) (e :: p) y :=
  ⟨z, vs, rfl, he, h⟩

lemma VertexWalk.edgeWalk {adj : Adj V E} {x y : V} {vs : List V} {p : List E}
    (h : VertexWalk adj x vs p y) : EdgeWalk adj x p y := by
  induction p generalizing x vs with
  | nil => exact h.2
  | cons e p ih =>
    obtain ⟨z, ws, _, he, hz⟩ := h
    exact ⟨z, he, ih hz⟩

/-- The labels of a search; `waits v w` says that the edges from `v` to `w` are still to be
looked at. -/
structure Searched (adj : Adj V E) (root : V) (depth : V → Option ℕ) (waits : V → V → Prop) :
    Prop where
  root_depth : depth root = some 0
  walk : ∀ v d, depth v = some d → ∃ p, EdgeWalk adj root p v ∧ p.length = d
  closed : ∀ v d, depth v = some d → ∀ a ∈ adj v,
    (∃ d', depth a.2 = some d' ∧ d' ≤ d + 1) ∨ waits v a.2

variable {adj : Adj V E} {root v w x y : V} {depth : V → Option ℕ} {waits waits' : V → V → Prop}
  {d d' : ℕ} {q : List E}

lemma Searched.along (h : Searched adj root depth waits) (hx : depth x = some d)
    (hq : EdgeWalk adj x q y) :
    (∃ d', depth y = some d' ∧ d' ≤ d + q.length) ∨
      ∃ v w dv, waits v w ∧ depth v = some dv ∧ dv + 1 ≤ d + q.length := by
  induction q generalizing x d with
  | nil => exact .inl ⟨d, (show x = y from hq) ▸ hx, Nat.le_refl _⟩
  | cons e q ih =>
    obtain ⟨z, he, hz⟩ := hq
    rw [List.length_cons]
    rcases h.closed x d hx (e, z) he with ⟨dz, hdz, hle⟩ | hwaits
    · rcases ih hdz hz with ⟨d', hd', hle'⟩ | ⟨v, w, dv, hvw, hv, hle'⟩
      · exact .inl ⟨d', hd', by omega⟩
      · exact .inr ⟨v, w, dv, hvw, hv, by omega⟩
    · exact .inr ⟨x, z, d, hwaits, hx, by omega⟩

/-- A walk from the root ends in a vertex that was found in time, or is as long as an edge that
waits is deep. -/
lemma Searched.le_length (h : Searched adj root depth waits) (bound : ℕ)
    (hbound : ∀ v w dv, waits v w → depth v = some dv → bound ≤ dv + 1)
    (hq : EdgeWalk adj root q y) :
    (∃ d, depth y = some d ∧ d ≤ q.length) ∨ bound ≤ q.length := by
  rcases h.along h.root_depth hq with ⟨d, hd, hle⟩ | ⟨v, w, dv, hvw, hv, hle⟩
  · exact .inl ⟨d, hd, by omega⟩
  · exact .inr (Nat.le_trans (hbound v w dv hvw hv) (by omega))

/-- A label is a distance, if no edge waits that could lead to a shorter walk. -/
lemma Searched.shortest (h : Searched adj root depth waits)
    (hbound : ∀ v w dv, waits v w → depth v = some dv → d ≤ dv + 1) (hy : depth y = some d) :
    ∃ p, Shortest adj root p y ∧ p.length = d := by
  obtain ⟨p, hp, hlen⟩ := h.walk y d hy
  refine ⟨p, ⟨hp, fun q hq => ?_⟩, hlen⟩
  rcases h.le_length d hbound hq with ⟨d', hd', hle⟩ | hle
  · rw [hy, Option.some.injEq] at hd'
    omega
  · omega

/-- Once no edge waits, every vertex that can be reached is found. -/
lemma Searched.found (h : Searched adj root depth waits) (hdone : ∀ v w, ¬ waits v w)
    (hq : EdgeWalk adj root q y) : ∃ d, depth y = some d := by
  rcases h.le_length (q.length + 1) (fun v w _ hvw _ => absurd hvw (hdone v w)) hq with
    ⟨d, hd, _⟩ | hle
  · exact ⟨d, hd⟩
  · omega

lemma Searched.imp (h : Searched adj root depth waits)
    (himp : ∀ v w d, depth v = some d → waits v w →
      (∃ d', depth w = some d' ∧ d' ≤ d + 1) ∨ waits' v w) :
    Searched adj root depth waits' :=
  ⟨h.root_depth, h.walk, fun v d hv a ha =>
    (h.closed v d hv a ha).elim .inl (himp v a.2 d hv)⟩

/-- Labels along an edge. -/
lemma Searched.walk_concat (h : Searched adj root depth waits) (hx : depth x = some d) {e : E}
    (he : (e, y) ∈ adj x) : ∃ p, EdgeWalk adj root p y ∧ p.length = d + 1 := by
  obtain ⟨p, hp, hlen⟩ := h.walk x d hx
  exact ⟨p ++ [e], edgeWalk_concat.mpr ⟨x, hp, he⟩, by simp [hlen]⟩

section Discover

variable [DecidableEq V]

/-- A vertex is found through an edge of a vertex that is found. -/
lemma Searched.discover (h : Searched adj root depth waits) (hx : depth x = some d) {e : E}
    (he : (e, y) ∈ adj x) (hy : depth y = none)
    (himp : ∀ v w, waits v w → w = y ∨ waits' v w)
    (hnew : ∀ a ∈ adj y, (∃ d', depth a.2 = some d' ∧ d' ≤ d + 2) ∨ a.2 = y ∨ waits' y a.2)
    (hearly : ∀ v dv, waits v y → depth v = some dv → d ≤ dv) :
    Searched adj root (Function.update depth y (some (d + 1))) waits' := by
  have hold : ∀ v, v ≠ y → Function.update depth y (some (d + 1)) v = depth v :=
    fun v hv => Function.update_of_ne hv ..
  have hself : Function.update depth y (some (d + 1)) y = some (d + 1) :=
    Function.update_self ..
  refine ⟨?_, ?_, ?_⟩
  · rw [hold root fun hr => by rw [← hr, h.root_depth] at hy; cases hy]
    exact h.root_depth
  · intro v dv hv
    by_cases hvy : v = y
    · subst hvy
      rw [hself, Option.some.injEq] at hv
      subst hv
      exact h.walk_concat hx he
    · rw [hold v hvy] at hv
      exact h.walk v dv hv
  · intro v dv hv a ha
    by_cases hvy : v = y
    · subst hvy
      rw [hself, Option.some.injEq] at hv
      subst hv
      rcases hnew a ha with ⟨d', hd', hle⟩ | hay | hw
      · by_cases hay : a.2 = v
        · exact .inl ⟨d + 1, by rw [hay, hself], by omega⟩
        · exact .inl ⟨d', by rw [hold _ hay, hd'], by omega⟩
      · exact .inl ⟨d + 1, by rw [hay, hself], by omega⟩
      · exact .inr hw
    · rw [hold v hvy] at hv
      rcases h.closed v dv hv a ha with ⟨d', hd', hle⟩ | hw
      · refine .inl ⟨d', ?_, hle⟩
        rw [hold, hd']
        rintro rfl
        rw [hd'] at hy
        cases hy
      · rcases himp v a.2 hw with hay | hw'
        · rw [hay] at hw ⊢
          exact .inl ⟨d + 1, hself, by have := hearly v dv hw hv; omega⟩
        · exact .inr hw'

end Discover

/-! ### First in, first out -/

/-- A search with a queue of vertices whose edges wait, in the order of their labels. The
vertex in front is the one that is looked at, until all its edges are. -/
structure Frontier (adj : Adj V E) (root : V) (depth : V → Option ℕ) (queue : List V) : Prop where
  searched : Searched adj root depth (fun v _ => v ∈ queue)
  queued : ∀ v ∈ queue, ∃ d, depth v = some d
  sorted : queue.Pairwise (fun v w => ∀ dv dw, depth v = some dv → depth w = some dw → dv ≤ dw)
  flat : ∀ v ∈ queue, ∀ dv, depth v = some dv → ∀ w dw, depth w = some dw → dw ≤ dv + 1

variable {queue : List V}

/-- Every label is a distance, also before the search has ended. -/
lemma Frontier.shortest (h : Frontier adj root depth queue) (hy : depth y = some d) :
    ∃ p, Shortest adj root p y ∧ p.length = d :=
  h.searched.shortest (fun v _ dv hv hdv => h.flat v hv dv hdv y d hy) hy

lemma Frontier.found (h : Frontier adj root depth []) (hq : EdgeWalk adj root q y) :
    ∃ d, depth y = some d :=
  h.searched.found (fun _ _ => List.not_mem_nil) hq

/-- The vertex in front leaves the queue when the other ends of its edges are found. -/
lemma Frontier.close (h : Frontier adj root depth (x :: queue))
    (hdone : ∀ a ∈ adj x, depth a.2 ≠ none) : Frontier adj root depth queue := by
  refine ⟨⟨h.searched.root_depth, h.searched.walk, ?_⟩,
    fun v hv => h.queued v (List.mem_cons_of_mem _ hv), (List.pairwise_cons.mp h.sorted).2,
    fun v hv => h.flat v (List.mem_cons_of_mem _ hv)⟩
  intro v d hv a ha
  rcases h.searched.closed v d hv a ha with hfound | hmem
  · exact .inl hfound
  · rcases List.mem_cons.mp hmem with rfl | hmem
    · obtain ⟨d', hd'⟩ := Option.ne_none_iff_exists'.mp (hdone a ha)
      exact .inl ⟨d', hd', h.flat v (List.mem_cons_self ..) d hv a.2 d' hd'⟩
    · exact .inr hmem

/-- Only the root has a label before the search. -/
lemma update_none_eq_some [DecidableEq V] :
    Function.update (fun _ => (none : Option ℕ)) root (some 0) v = some d ↔
      v = root ∧ d = 0 := by
  by_cases hvr : v = root
  · rw [hvr, Function.update_self, Option.some.injEq]
    exact ⟨fun hd => ⟨rfl, hd.symm⟩, fun hd => hd.2.symm⟩
  · rw [Function.update_of_ne hvr]
    exact ⟨nofun, fun hv => absurd hv.1 hvr⟩

lemma frontier_start [DecidableEq V] (adj : Adj V E) (root : V) :
    Frontier adj root (Function.update (fun _ => none) root (some 0)) [root] := by
  refine ⟨⟨Function.update_self .., ?_, ?_⟩, ?_, List.pairwise_singleton .., ?_⟩
  · intro v d hv
    obtain ⟨rfl, rfl⟩ := update_none_eq_some.mp hv
    exact ⟨[], rfl, rfl⟩
  · intro v d hv a _
    exact .inr (List.mem_singleton.mpr (update_none_eq_some.mp hv).1)
  · intro v hv
    rw [List.mem_singleton.mp hv]
    exact ⟨0, Function.update_self ..⟩
  · intro v _ dv _ w dw hw
    have := (update_none_eq_some.mp hw).2
    omega

/-- A vertex that is found through the one in front goes to the back of the queue. -/
lemma Frontier.discover [DecidableEq V] (h : Frontier adj root depth (x :: queue))
    (hx : depth x = some d) {e : E} (he : (e, y) ∈ adj x) (hy : depth y = none) :
    Frontier adj root (Function.update depth y (some (d + 1))) (x :: (queue ++ [y])) := by
  have hold : ∀ v, v ≠ y → Function.update depth y (some (d + 1)) v = depth v :=
    fun v hv => Function.update_of_ne hv ..
  have hself : Function.update depth y (some (d + 1)) y = some (d + 1) :=
    Function.update_self ..
  have hne : ∀ v ∈ x :: queue, v ≠ y := by
    rintro v hv rfl
    obtain ⟨d', hd'⟩ := h.queued v hv
    rw [hd'] at hy
    cases hy
  -- the front has the least label of the queue, and no label is larger by more than one
  have hle : ∀ v ∈ x :: queue, ∀ dv, depth v = some dv → d ≤ dv ∧ dv ≤ d + 1 := by
    intro v hv dv hdv
    refine ⟨?_, h.flat x (List.mem_cons_self ..) d hx v dv hdv⟩
    rcases List.mem_cons.mp hv with rfl | hv
    · rw [hx, Option.some.injEq] at hdv
      omega
    · exact (List.pairwise_cons.mp h.sorted).1 v hv d dv hx hdv
  refine ⟨?_, ?_, ?_, ?_⟩
  · refine h.searched.discover hx he hy (fun v _ hv => .inr ?_) (fun _ _ => .inr (.inr ?_)) ?_
    · rw [← List.cons_append]
      exact List.mem_append_left _ hv
    · exact List.mem_cons_of_mem _ (List.mem_append_right _ (List.mem_singleton.mpr rfl))
    · exact fun v dv hv hdv => (hle v hv dv hdv).1
  · intro v hv
    rw [← List.cons_append, List.mem_append, List.mem_singleton] at hv
    rcases hv with hv | rfl
    · rw [hold v (hne v hv)]
      exact h.queued v hv
    · exact ⟨d + 1, hself⟩
  · rw [← List.cons_append]
    refine List.pairwise_append.mpr ⟨?_, List.pairwise_singleton .., ?_⟩
    · refine (List.Pairwise.and_mem.mp h.sorted).imp ?_
      rintro v w ⟨hv, hw, hvw⟩
      rw [hold v (hne v hv), hold w (hne w hw)]
      exact hvw
    · intro v hv w hw dv dw hdv hdw
      rw [List.mem_singleton.mp hw, hself, Option.some.injEq] at hdw
      rw [hold v (hne v hv)] at hdv
      have := hle v hv dv hdv
      omega
  · intro v hv dv hdv w dw hdw
    have hbound : dw ≤ d + 1 := by
      by_cases hwy : w = y
      · rw [hwy, hself, Option.some.injEq] at hdw
        omega
      · rw [hold w hwy] at hdw
        exact h.flat x (List.mem_cons_self ..) d hx w dw hdw
    rw [← List.cons_append, List.mem_append, List.mem_singleton] at hv
    rcases hv with hv | rfl
    · rw [hold v (hne v hv)] at hdv
      have := hle v hv dv hdv
      omega
    · rw [hself, Option.some.injEq] at hdv
      omega

end ResSim
