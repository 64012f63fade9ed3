import Mathlib.Algebra.BigOperators.Group.Finset.Piecewise
import Mathlib.Algebra.Order.BigOperators.Group.Finset
import ResSim.Igraph.ShortestPaths

/-!
# Breadth-first search by layers

`igraph_i_bfs`, as this repository has rewritten it. The edges that lead out of a layer wait in
a queue, each as three numbers: its new end, the vertex it comes from and the depth of that
vertex. Before a layer is worked off its queue is shuffled, and a vertex gets the vertex of the
first edge that leads to it as its parent, so that the parents are random as well.
-/

namespace ResSim

namespace IgraphT

/-- What the search keeps. `vids` and `layers` hold what has been written to the result vectors
so far. -/
structure LayerSearch where
  added : ℕ → Bool
  vids : List ℕ
  layers : List ℕ
  parents : ℕ → ℤ
  lastlayer : ℤ

/-- Pushes an edge as three numbers. -/
def pushEdge (q : Dqueue ℕ) (neighbor vect dist : ℕ) : Dqueue ℕ :=
  ((q.push neighbor).push vect).push dist

/-- Works off an edge that was taken from the queue: a new vertex is added, and its own edges to
vertices that are not added wait in the other queue. -/
def LayerSearch.step (g : IgraphT) (mode : NeiMode) (s : LayerSearch) (nq : Dqueue ℕ)
    (nvect actvect actdist : ℕ) : Except Fault (LayerSearch × Dqueue ℕ) :=
  if s.added nvect then .ok (s, nq)
  else
    let added := Function.update s.added nvect true
    match g.neighbors nvect mode with
    | .error f => .error f
    | .ok neis =>
      .ok
        ({ added := added
           vids := s.vids ++ [nvect]
           layers := if s.lastlayer ≠ actdist + 1 then s.layers ++ [s.vids.length] else s.layers
           parents := Function.update s.parents nvect actvect
           lastlayer := actdist + 1 },
          neis.foldl (fun nq neighbor =>
            if added neighbor then nq else pushEdge nq neighbor nvect (actdist + 1)) nq)

/-- Works off the edges of a queue. -/
def LayerSearch.drain (g : IgraphT) (mode : NeiMode) :
    ℕ → LayerSearch → Dqueue ℕ → Dqueue ℕ → Except Fault (LayerSearch × Dqueue ℕ × Dqueue ℕ)
  | 0, _, _, _ => .error .noEnd
  | fuel + 1, s, q, nq =>
    if q.empty then .ok (s, q, nq)
    else
      let nvect := q.pop
      let actvect := nvect.2.pop
      let actdist := actvect.2.pop
      match s.step g mode nq nvect.1 actvect.1 actdist.1 with
      | .error f => .error f
      | .ok (s, nq) => drain g mode fuel s actdist.2 nq

/-- The layers of the search. The two queues change places after each of them. -/
def LayerSearch.run (g : IgraphT) (mode : NeiMode) (inner : ℕ) :
    ℕ → (ℕ → Rnd) → LayerSearch → Dqueue ℕ → Dqueue ℕ → Except Fault LayerSearch
  | 0, _, _, _, _ => .error .noEnd
  | fuel + 1, draws, s, q, nq =>
    if q.empty then .ok s
    else
      match q.shuffle (draws 0) with
      | .error f => .error f
      | .ok q =>
        match s.drain g mode inner q nq with
        | .error f => .error f
        | .ok (s, q, nq) =>
          if !q.empty then .error (.error "Non-empty nqptr" .einval)
          else run g mode inner fuel (fun n => draws (n + 1)) s nq q

/-- The search with the root added only. -/
def LayerSearch.start (vid : ℕ) : LayerSearch where
  added := Function.update (fun _ => false) vid true
  vids := [vid]
  layers := [0]
  parents := Function.update (fun _ => -1) vid vid
  lastlayer := -1

/-- `igraph_i_bfs`. -/
def iBfs (g : IgraphT) (fuel : ℕ) (draws : ℕ → Rnd) (vid : ℕ) (mode : NeiMode) :
    Except Fault LayerSearch :=
  let mode := g.modeOf mode
  match g.neighbors vid mode with
  | .error f => .error f
  | .ok neis =>
    let q := neis.foldl (fun q neighbor => pushEdge q neighbor vid 0) (Dqueue.init 100)
    match LayerSearch.run g mode fuel fuel draws (.start vid) q (Dqueue.init 100) with
    | .error f => .error f
    | .ok s => .ok { s with layers := s.layers ++ [s.vids.length] }

/-! ### Neighbours and edges -/

variable {g : IgraphT} {mode : NeiMode} {root v w x k : ℕ} {depth : ℕ → Option ℕ}

/-- The neighbours of a vertex, as a list. -/
def nbrs (g : IgraphT) (mode : NeiMode) (v : ℕ) : List ℕ :=
  match g.neighbors v mode with
  | .ok ns => ns
  | .error _ => []

lemma Indexed.neighbors_nbrs (hg : g.Indexed) (hv : v < g.n) (mode : NeiMode) :
    g.neighbors v mode = .ok (g.nbrs mode v) := by
  obtain ⟨ns, hns, _⟩ := hg.neighbors_eq hv mode
  simp only [nbrs, hns]

lemma Indexed.other_out (hg : g.Indexed) (hv : v < g.n) :
    (g.outEdges v).map (fun e => g.other e v) = (g.outEdges v).map g.target := by
  apply List.map_congr_left
  intro e he
  rw [hg.outEdges_eq hv, List.mem_filter, decide_eq_true_eq] at he
  unfold other
  split
  · rw [he.2]
    exact Eq.symm (by assumption)
  · rfl

lemma Indexed.other_in (hg : g.Indexed) (hv : v < g.n) :
    (g.inEdges v).map (fun e => g.other e v) = (g.inEdges v).map g.source := by
  apply List.map_congr_left
  intro e he
  rw [hg.inEdges_eq hv, List.mem_filter, decide_eq_true_eq] at he
  unfold other
  rw [if_pos he.2]

/-- The neighbours are the other ends of the incident edges. -/
lemma Indexed.nbrs_perm (hg : g.Indexed) (mode : NeiMode) (v : ℕ) :
    (g.nbrs mode v).Perm ((g.adj mode v).map Prod.snd) := by
  rcases Nat.lt_or_ge v g.n with hv | hv
  · have hadj : (g.adj mode v).map Prod.snd =
        (if (g.modeOf mode).hasOut then (g.outEdges v).map g.target else []) ++
          (if (g.modeOf mode).hasIn then (g.inEdges v).map g.source else []) := by
      simp only [adj, incident, if_neg (Nat.not_le.mpr hv), List.map_map, List.map_append]
      congr 1 <;> split
      · exact hg.other_out hv
      · rfl
      · exact hg.other_in hv
      · rfl
    have hnbrs : ∀ ns, g.neighbors v mode = .ok ns → g.nbrs mode v = ns :=
      fun ns hns => by simp only [nbrs, hns]
    rw [hadj]
    by_cases hplain : (!g.directed || decide (g.modeOf mode ≠ .all)) = true
    · rw [hnbrs _ (by rw [neighbors, if_neg (Nat.not_le.mpr hv), if_pos hplain])]
    · have hall : g.modeOf mode = .all := by simp at hplain; exact hplain.2
      rw [hnbrs _ (by rw [neighbors, if_neg (Nat.not_le.mpr hv), if_neg hplain]), hall]
      exact mergeNeis_perm _ _
  · simp [nbrs, neighbors, adj_eq_nil hv, hv]

lemma Indexed.mem_nbrs (hg : g.Indexed) : w ∈ g.nbrs mode v ↔ ∃ e, (e, w) ∈ g.adj mode v := by
  rw [(hg.nbrs_perm mode v).mem_iff, List.mem_map]
  constructor
  · rintro ⟨a, ha, rfl⟩
    exact ⟨a.1, ha⟩
  · rintro ⟨e, he⟩
    exact ⟨(e, w), he, rfl⟩

/-! ### The edges that wait -/

/-- An edge that waits: its new end, the vertex it comes from and the depth of that vertex. -/
abbrev Item := ℕ × ℕ × ℕ

variable {now next : List Item} {s : LayerSearch} {q nq : Dqueue ℕ}

lemma toList_pushEdge (q : Dqueue ℕ) (w v d : ℕ) :
    (pushEdge q w v d).toList = q.toList ++ Dqueue.flat [(w, v, d)] := by
  simp [pushEdge, Dqueue.flat]

/-- Pushing the edges of a vertex appends those that lead to vertices that are not added. -/
lemma toList_foldl_pushEdge (added : ℕ → Bool) (v d : ℕ) (neis : List ℕ)
    (hq : q.toList = Dqueue.flat now) :
    (neis.foldl (fun q w => if added w then q else pushEdge q w v d) q).toList =
      Dqueue.flat (now ++ (neis.filter (fun w => !added w)).map (fun w => (w, v, d))) := by
  induction neis generalizing q now with
  | nil => simpa using hq
  | cons w neis ih =>
    rw [List.foldl_cons]
    cases hw : added w with
    | true =>
      rw [if_pos rfl, ih hq, List.filter_cons_of_neg (by simp [hw])]
    | false =>
      have hpush : (pushEdge q w v d).toList = Dqueue.flat (now ++ [(w, v, d)]) := by
        rw [toList_pushEdge, hq, Dqueue.flat_append]
      rw [if_neg Bool.false_ne_true, ih hpush, List.filter_cons_of_pos (by simp [hw]),
        List.map_cons, List.append_assoc, List.singleton_append]

/-- The number of edges of the vertices that are not found. -/
def openDegree (g : IgraphT) (mode : NeiMode) (depth : ℕ → Option ℕ) : ℕ :=
  ∑ v ∈ (Finset.range g.n).filter (fun v => depth v = none), (g.nbrs mode v).length

lemma openDegree_update (hw : depth w = none) (hlt : w < g.n) (d : ℕ) :
    openDegree g mode (Function.update depth w (some d)) + (g.nbrs mode w).length =
      openDegree g mode depth := by
  have hmem : w ∈ (Finset.range g.n).filter (fun v => depth v = none) := by simp [hw, hlt]
  have herase : (Finset.range g.n).filter (fun v => Function.update depth w (some d) v = none) =
      ((Finset.range g.n).filter (fun v => depth v = none)).erase w := by
    ext v
    by_cases hvw : v = w
    · simp [hvw]
    · simp [hvw]
  unfold openDegree
  rw [herase, Finset.sum_erase_add _ _ hmem]

/-! ### The invariant -/

/-- The label of a vertex as a number. -/
def labelOf (depth : ℕ → Option ℕ) (v : ℕ) : ℕ := (depth v).getD 0

/-- Where the layers start that have been written so far, the deepest one being `last`. -/
structure Layered (depth : ℕ → Option ℕ) (s : LayerSearch) (last : ℕ) : Prop where
  le_last : ∀ v d, depth v = some d → d ≤ last
  attained : ∃ v, depth v = some last
  layers_eq : s.layers = starts (labelOf depth) s.vids (last + 1)
  lastlayer : s.lastlayer = last ∨ last = 0 ∧ s.lastlayer = -1

/-- What the search keeps while it works off the edges of layer `k`: those of `now` are left,
and those of `next` lead out of layer `k + 1`. -/
structure LayerInv (g : IgraphT) (mode : NeiMode) (root k : ℕ) (depth : ℕ → Option ℕ)
    (now next : List Item) (s : LayerSearch) : Prop where
  searched : Searched (g.adj mode) root depth (fun v w => ∃ d, (w, v, d) ∈ now ++ next)
  now_ok : ∀ a ∈ now, a.2.2 = k ∧ depth a.2.1 = some k ∧ a.1 ∈ g.nbrs mode a.2.1
  next_ok : ∀ a ∈ next, a.2.2 = k + 1 ∧ depth a.2.1 = some (k + 1) ∧ a.1 ∈ g.nbrs mode a.2.1
  bound : ∀ v d, depth v = some d → d ≤ k + 1
  lt : ∀ v d, depth v = some d → v < g.n
  added : ∀ v, s.added v = true ↔ depth v ≠ none
  parents_root : s.parents root = root
  parents_none : ∀ v, depth v = none → s.parents v = -1
  parents_some : ∀ v d, depth v = some d → v ≠ root →
    ∃ p d', s.parents v = (p : ℕ) ∧ v ∈ g.nbrs mode p ∧ depth p = some d' ∧ d = d' + 1
  vids_mem : ∀ v, v ∈ s.vids ↔ depth v ≠ none
  vids_nodup : s.vids.Nodup
  vids_sorted : KeySorted (labelOf depth) s.vids
  layered : ∃ last, Layered depth s last

/-- Every label is a distance, also while the search goes on. -/
lemma LayerInv.shortest (h : LayerInv g mode root k depth now next s) {d : ℕ}
    (hv : depth v = some d) : ∃ p, Shortest (g.adj mode) root p v ∧ p.length = d := by
  refine h.searched.shortest (fun u w du hw hdu => ?_) hv
  obtain ⟨d', hmem⟩ := hw
  have hle := h.bound v d hv
  rcases List.mem_append.mp hmem with hmem | hmem
  · have hu := (h.now_ok _ hmem).2.1
    rw [hdu, Option.some.injEq] at hu
    omega
  · have hu := (h.next_ok _ hmem).2.1
    rw [hdu, Option.some.injEq] at hu
    omega

/-- The order of the edges that wait does not matter. -/
lemma LayerInv.perm {now' : List Item} (h : LayerInv g mode root k depth now next s)
    (hperm : now'.Perm now) : LayerInv g mode root k depth now' next s := by
  refine ⟨h.searched.imp fun v w d _ hw => .inr ?_, fun a ha => h.now_ok a (hperm.mem_iff.mp ha),
    h.next_ok, h.bound, h.lt, h.added, h.parents_root, h.parents_none, h.parents_some, h.vids_mem,
    h.vids_nodup, h.vids_sorted, h.layered⟩
  obtain ⟨d', hmem⟩ := hw
  exact ⟨d', ((hperm.append_right next).mem_iff).mpr hmem⟩

/-- When the edges of a layer are worked off, those of the next one follow. -/
lemma LayerInv.turn (h : LayerInv g mode root k depth [] next s) :
    LayerInv g mode root (k + 1) depth next [] s := by
  refine ⟨h.searched.imp fun v w d _ hw => .inr ?_, h.next_ok, nofun,
    fun v d hv => Nat.le_succ_of_le (h.bound v d hv), h.lt, h.added, h.parents_root, h.parents_none,
    h.parents_some, h.vids_mem, h.vids_nodup, h.vids_sorted, h.layered⟩
  rwa [List.append_nil]

/-- An edge to a vertex that is found no longer waits. -/
lemma LayerInv.skip {d : ℕ} (h : LayerInv g mode root k depth ((w, v, d) :: now) next s)
    (hw : depth w ≠ none) : LayerInv g mode root k depth now next s := by
  refine ⟨h.searched.imp fun u x du hu hx => ?_, fun a ha => h.now_ok a (List.mem_cons_of_mem _ ha),
    h.next_ok, h.bound, h.lt, h.added, h.parents_root, h.parents_none, h.parents_some, h.vids_mem,
    h.vids_nodup, h.vids_sorted, h.layered⟩
  obtain ⟨d', hmem⟩ := hx
  rw [List.cons_append] at hmem
  rcases List.mem_cons.mp hmem with heq | hmem
  · simp only [Prod.mk.injEq] at heq
    obtain ⟨rfl, rfl, rfl⟩ := heq
    obtain ⟨dx, hdx⟩ := Option.ne_none_iff_exists'.mp hw
    have hfrom := (h.now_ok _ (List.mem_cons_self ..)).2.1
    rw [hu, Option.some.injEq] at hfrom
    have := h.bound x dx hdx
    exact .inl ⟨dx, hdx, by omega⟩
  · exact .inr ⟨d', hmem⟩

/-- The search with a vertex added. -/
def LayerSearch.add (s : LayerSearch) (w v k : ℕ) : LayerSearch where
  added := Function.update s.added w true
  vids := s.vids ++ [w]
  layers := if s.lastlayer ≠ (k : ℤ) + 1 then s.layers ++ [s.vids.length] else s.layers
  parents := Function.update s.parents w v
  lastlayer := (k : ℤ) + 1

lemma labelOf_update_of_ne (d : ℕ) (hvw : v ≠ w) :
    labelOf (Function.update depth w (some d)) v = labelOf depth v := by
  rw [labelOf, Function.update_of_ne hvw, labelOf]

lemma labelOf_update_self (depth : ℕ → Option ℕ) (w d : ℕ) :
    labelOf (Function.update depth w (some d)) w = d := by
  rw [labelOf, Function.update_self, Option.getD_some]

/-- A vertex of the next layer does not count where the layers up to it start. -/
lemma countP_add {vids : List ℕ} (hw : w ∉ vids) {d : ℕ} (hd : d ≤ k + 1) :
    (vids ++ [w]).countP (fun v => labelOf (Function.update depth w (some (k + 1))) v < d) =
      vids.countP (fun v => labelOf depth v < d) := by
  rw [List.countP_append, List.countP_singleton, if_neg, Nat.add_zero]
  · apply List.countP_congr
    intro v hv
    have hne : v ≠ w := by
      rintro rfl
      exact hw hv
    rw [labelOf_update_of_ne _ hne]
  · rw [labelOf_update_self, decide_eq_true_eq]
    omega

lemma Layered.add {last : ℕ} (h : Layered depth s last) (hw : depth w = none)
    (hfrom : depth v = some k) (hbound : ∀ x d, depth x = some d → d ≤ k + 1)
    (hvids : ∀ x, x ∈ s.vids ↔ depth x ≠ none) :
    Layered (Function.update depth w (some (k + 1))) (s.add w v k) (k + 1) := by
  have hnew : w ∉ s.vids := fun hmem => (hvids w).mp hmem hw
  have hlast : last = k ∨ last = k + 1 := by
    obtain ⟨x, hx⟩ := h.attained
    have := hbound x last hx
    have := h.le_last v k hfrom
    omega
  have hstarts : ∀ m ≤ k + 2, starts (labelOf (Function.update depth w (some (k + 1))))
      (s.vids ++ [w]) m = starts (labelOf depth) s.vids m := by
    intro m hm
    apply List.map_congr_left
    intro d hd
    exact countP_add hnew (by rw [List.mem_range] at hd; omega)
  refine ⟨fun x d hx => ?_, ⟨w, Function.update_self ..⟩, ?_, .inl (by push_cast; rfl)⟩
  · by_cases hxw : x = w
    · rw [hxw, Function.update_self, Option.some.injEq] at hx
      omega
    · rw [Function.update_of_ne hxw] at hx
      exact hbound x d hx
  · unfold LayerSearch.add
    dsimp only
    rw [hstarts _ le_rfl]
    rcases hlast with rfl | rfl
    · -- the first vertex of the next layer
      have hall : s.vids.countP (fun x => labelOf depth x < last + 1) = s.vids.length := by
        rw [List.countP_eq_length]
        intro x hx
        obtain ⟨d, hd⟩ := Option.ne_none_iff_exists'.mp ((hvids x).mp hx)
        have := h.le_last x d hd
        rw [labelOf, hd, Option.getD_some, decide_eq_true_eq]
        omega
      rw [if_pos, h.layers_eq, starts, starts, List.range_succ (n := last + 1), List.map_append,
        List.map_singleton, hall]
      rcases h.lastlayer with hl | ⟨_, hl⟩ <;> omega
    · rw [if_neg, h.layers_eq]
      rcases h.lastlayer with hl | ⟨hl, _⟩
      · rw [hl]
        push_cast
        simp
      · omega

/-- The first edge that leads to a vertex adds it, and its own edges wait. -/
lemma LayerInv.add (hg : g.Indexed) {d : ℕ}
    (h : LayerInv g mode root k depth ((w, v, d) :: now) next s) (hw : depth w = none) :
    LayerInv g mode root k (Function.update depth w (some (k + 1))) now
      (next ++ ((g.nbrs mode w).filter (fun x => !(s.add w v k).added x)).map
        (fun x => (x, w, k + 1))) (s.add w v k) := by
  obtain ⟨hdk, hfrom, hnbr⟩ := h.now_ok _ (List.mem_cons_self ..)
  dsimp only at hdk hfrom hnbr
  obtain ⟨e, he⟩ := hg.mem_nbrs.mp hnbr
  have hold : ∀ x dx, depth x = some dx → x ≠ w := by
    rintro x dx hx rfl
    rw [hx] at hw
    cases hw
  have hkeep : ∀ x dx, depth x = some dx →
      Function.update depth w (some (k + 1)) x = some dx :=
    fun x dx hx => by rw [Function.update_of_ne (hold x dx hx), hx]
  have hself : Function.update depth w (some (k + 1)) w = some (k + 1) := Function.update_self ..
  have hadded : ∀ x, (s.add w v k).added x = true ↔
      Function.update depth w (some (k + 1)) x ≠ none := by
    intro x
    unfold LayerSearch.add
    by_cases hxw : x = w
    · simp [hxw]
    · simp only [Function.update_of_ne hxw]
      exact h.added x
  have hlater : ∀ u x du, (∃ d', (x, u, d') ∈ (w, v, d) :: now ++ next) → depth u = some du →
      k ≤ du := by
    rintro u x du ⟨d', hmem⟩ hu
    rcases List.mem_append.mp hmem with hmem | hmem
    · have hku := (h.now_ok _ hmem).2.1
      rw [hu, Option.some.injEq] at hku
      omega
    · have hku := (h.next_ok _ hmem).2.1
      rw [hu, Option.some.injEq] at hku
      omega
  obtain ⟨last, hlayered⟩ := h.layered
  refine ⟨?_, fun a ha => ?_, fun a ha => ?_, fun x dx hx => ?_, fun x dx hx => ?_, hadded, ?_,
    fun x hx => ?_, fun x dx hx hxr => ?_, fun x => ?_, ?_, ?_, k + 1,
    hlayered.add hw hfrom h.bound h.vids_mem⟩
  · refine h.searched.discover hfrom he hw ?_ ?_ (fun u du hu => hlater u w du hu)
    · rintro u x ⟨d', hmem⟩
      rw [List.cons_append] at hmem
      rcases List.mem_cons.mp hmem with heq | hmem
      · exact .inl (Prod.mk.inj heq).1
      · refine .inr ⟨d', ?_⟩
        rw [← List.append_assoc]
        exact List.mem_append_left _ hmem
    · intro a ha
      by_cases haw : a.2 = w
      · exact .inr (.inl haw)
      · cases hd : depth a.2 with
        | some da => exact .inl ⟨da, rfl, Nat.le_succ_of_le (h.bound _ _ hd)⟩
        | none =>
          refine .inr (.inr ⟨k + 1, ?_⟩)
          refine List.mem_append_right _ (List.mem_append_right _ (List.mem_map.mpr ⟨a.2, ?_, rfl⟩))
          refine List.mem_filter.mpr ⟨hg.mem_nbrs.mpr ⟨a.1, ha⟩, ?_⟩
          rw [Bool.not_eq_true', ← Bool.not_eq_true, hadded, Function.update_of_ne haw, hd]
          simp
  · obtain ⟨h₁, h₂, h₃⟩ := h.now_ok a (List.mem_cons_of_mem _ ha)
    exact ⟨h₁, hkeep _ _ h₂, h₃⟩
  · rcases List.mem_append.mp ha with ha | ha
    · obtain ⟨h₁, h₂, h₃⟩ := h.next_ok a ha
      exact ⟨h₁, hkeep _ _ h₂, h₃⟩
    · obtain ⟨x, hx, rfl⟩ := List.mem_map.mp ha
      exact ⟨rfl, hself, (List.mem_filter.mp hx).1⟩
  · by_cases hxw : x = w
    · rw [hxw, hself, Option.some.injEq] at hx
      omega
    · rw [Function.update_of_ne hxw] at hx
      exact h.bound x dx hx
  · by_cases hxw : x = w
    · rw [hxw]
      exact hg.snd_lt he
    · rw [Function.update_of_ne hxw] at hx
      exact h.lt x dx hx
  · exact (Function.update_of_ne (hold root 0 h.searched.root_depth) ..).trans h.parents_root
  · by_cases hxw : x = w
    · rw [hxw, hself] at hx
      cases hx
    · rw [Function.update_of_ne hxw] at hx
      exact (Function.update_of_ne hxw ..).trans (h.parents_none x hx)
  · by_cases hxw : x = w
    · subst hxw
      rw [hself, Option.some.injEq] at hx
      exact ⟨v, k, Function.update_self .., hnbr, hkeep v k hfrom, hx.symm⟩
    · rw [Function.update_of_ne hxw] at hx
      obtain ⟨p, d', hp, hmem, hd', hlen⟩ := h.parents_some x dx hx hxr
      exact ⟨p, d', (Function.update_of_ne hxw ..).trans hp, hmem, hkeep p d' hd', hlen⟩
  · unfold LayerSearch.add
    rw [List.mem_append, List.mem_singleton, h.vids_mem]
    by_cases hxw : x = w
    · simp [hxw]
    · simp [hxw]
  · refine List.nodup_append.mpr ⟨h.vids_nodup, List.nodup_singleton w, ?_⟩
    intro x hx y hy hxy
    rw [List.mem_singleton.mp hy] at hxy
    exact (h.vids_mem w).mp (hxy ▸ hx) hw
  · refine List.pairwise_append.mpr ⟨?_, List.pairwise_singleton .., ?_⟩
    · refine (List.Pairwise.and_mem.mp h.vids_sorted).imp ?_
      rintro x y ⟨hx, hy, hxy⟩
      have hne : ∀ z ∈ s.vids, z ≠ w := fun z hz heq => (h.vids_mem w).mp (heq ▸ hz) hw
      rwa [labelOf_update_of_ne _ (hne x hx), labelOf_update_of_ne _ (hne y hy)]
    · intro x hx y hy
      obtain ⟨dx, hdx⟩ := Option.ne_none_iff_exists'.mp ((h.vids_mem x).mp hx)
      rw [List.mem_singleton.mp hy, labelOf_update_self, labelOf, hkeep x dx hdx, Option.getD_some]
      exact h.bound x dx hdx

/-! ### A layer -/

/-- What becomes of the labels while the edges of `now` are worked off: a new vertex gets the
vertex of the first edge that leads to it as its parent. -/
structure Drained (depth depth' : ℕ → Option ℕ) (now : List Item) (s s' : LayerSearch) : Prop where
  keep : ∀ x d, depth x = some d → depth' x = some d ∧ s'.parents x = s.parents x
  first : ∀ x d, depth x = none → depth' x = some d →
    ∃ a, now.find? (fun a => a.1 = x) = some a ∧ s'.parents x = a.2.1

variable {depth' : ℕ → Option ℕ} {s' s'' : LayerSearch}

lemma Drained.refl (depth : ℕ → Option ℕ) (now : List Item) (s : LayerSearch) :
    Drained depth depth now s s :=
  ⟨fun _ _ h => ⟨h, rfl⟩, fun x d hnone hsome => by rw [hnone] at hsome; cases hsome⟩

/-- Further edges to a vertex that is found change nothing. -/
lemma Drained.cons {depth'' : ℕ → Option ℕ} {a : Item} (h : Drained depth depth' [a] s s')
    (ha : depth' a.1 ≠ none) (h' : Drained depth' depth'' now s' s'') :
    Drained depth depth'' (a :: now) s s'' := by
  refine ⟨fun x d hx => ?_, fun x d hnone hsome => ?_⟩
  · obtain ⟨hx', hp'⟩ := h.keep x d hx
    obtain ⟨hx'', hp''⟩ := h'.keep x d hx'
    exact ⟨hx'', hp''.trans hp'⟩
  · by_cases hax : a.1 = x
    · refine ⟨a, List.find?_cons_of_pos (by simpa using hax), ?_⟩
      obtain ⟨d', hd'⟩ := Option.ne_none_iff_exists'.mp ha
      rw [hax] at hd'
      obtain ⟨b, hb, hp⟩ := h.first x d' hnone hd'
      rw [List.find?_cons_of_pos (by simpa using hax)] at hb
      rw [(h'.keep x d' hd').2, hp, Option.some.inj hb]
    · rw [List.find?_cons_of_neg (by simpa using hax)]
      cases hx' : depth' x with
      | none => exact h'.first x d hx' hsome
      | some d' =>
        obtain ⟨b, hb, _⟩ := h.first x d' hnone hx'
        rw [List.find?_cons_of_neg (by simpa using hax)] at hb
        cases hb

/-- An edge is worked off. -/
lemma LayerInv.step (hg : g.Indexed) {d : ℕ}
    (h : LayerInv g mode root k depth ((w, v, d) :: now) next s)
    (hnq : nq.toList = Dqueue.flat next) :
    ∃ s' depth' next' nq', s.step g mode nq w v d = .ok (s', nq') ∧
      LayerInv g mode root k depth' now next' s' ∧ nq'.toList = Dqueue.flat next' ∧
      next'.length + openDegree g mode depth' ≤ next.length + openDegree g mode depth ∧
      depth' w ≠ none ∧ Drained depth depth' [(w, v, d)] s s' := by
  unfold LayerSearch.step
  by_cases hw : depth w = none
  · obtain ⟨hdk, _, hnbr⟩ := h.now_ok _ (List.mem_cons_self ..)
    dsimp only at hdk hnbr
    subst hdk
    obtain ⟨e, he⟩ := hg.mem_nbrs.mp hnbr
    have hlt := hg.snd_lt he
    have hfresh : ¬ s.added w = true := fun hadd => (h.added w).mp hadd hw
    have hopen : openDegree g mode (Function.update depth w (some (d + 1))) +
        (g.nbrs mode w).length = openDegree g mode depth := openDegree_update hw hlt (d + 1)
    rw [if_neg hfresh, hg.neighbors_nbrs hlt]
    refine ⟨s.add w v d, _, _, _, rfl, h.add hg hw,
      toList_foldl_pushEdge (s.add w v d).added w (d + 1) _ hnq, ?_, ?_, ?_, ?_⟩
    · have hfilter := List.length_filter_le (fun x => !(s.add w v d).added x) (g.nbrs mode w)
      rw [List.length_append, List.length_map]
      omega
    · rw [Function.update_self]
      exact Option.some_ne_none _
    · intro x dx hx
      have hne : x ≠ w := by
        rintro rfl
        rw [hx] at hw
        cases hw
      exact ⟨by rw [Function.update_of_ne hne, hx], Function.update_of_ne hne ..⟩
    · intro x dx hnone hsome
      by_cases hxw : x = w
      · refine ⟨(w, v, d), List.find?_cons_of_pos (by simpa using hxw.symm), ?_⟩
        rw [hxw]
        exact Function.update_self ..
      · rw [Function.update_of_ne hxw, hnone] at hsome
        cases hsome
  · rw [if_pos ((h.added w).mpr hw)]
    exact ⟨s, depth, next, nq, rfl, h.skip hw, hnq, Nat.le_refl _, hw, .refl ..⟩

/-- All edges of a layer are worked off. -/
lemma LayerInv.drain (hg : g.Indexed) {fuel : ℕ} (h : LayerInv g mode root k depth now next s)
    (hq : q.toList = Dqueue.flat now) (hnq : nq.toList = Dqueue.flat next)
    (hfuel : now.length < fuel) :
    ∃ s' depth' next' q' nq', s.drain g mode fuel q nq = .ok (s', q', nq') ∧
      LayerInv g mode root k depth' [] next' s' ∧ q'.toList = [] ∧
      nq'.toList = Dqueue.flat next' ∧
      next'.length + openDegree g mode depth' ≤ next.length + openDegree g mode depth ∧
      Drained depth depth' now s s' := by
  induction fuel generalizing depth now next s q nq with
  | zero => omega
  | succ fuel ih =>
    rw [LayerSearch.drain]
    cases now with
    | nil =>
      rw [if_pos (Dqueue.empty_iff.mpr hq)]
      exact ⟨s, depth, next, q, nq, rfl, h, hq, hnq, Nat.le_refl _, .refl ..⟩
    | cons a now =>
      obtain ⟨w, v, d⟩ := a
      rw [Dqueue.flat_cons] at hq
      obtain ⟨hw, hq₁⟩ := Dqueue.pop_eq hq
      obtain ⟨hv, hq₂⟩ := Dqueue.pop_eq hq₁
      obtain ⟨hd, hq₃⟩ := Dqueue.pop_eq hq₂
      obtain ⟨s₁, depth₁, next₁, nq₁, he, hinv, hnq₁, hle, hfound, hdrained⟩ := h.step hg hnq
      obtain ⟨s', depth', next', q', nq', he', hinv', hq', hnq', hle', hdrained'⟩ :=
        ih hinv hq₃ hnq₁ (by rw [List.length_cons] at hfuel; omega)
      refine ⟨s', depth', next', q', nq', ?_, hinv', hq', hnq', hle'.trans hle,
        hdrained.cons hfound hdrained'⟩
      rw [if_neg (by rw [Dqueue.empty_iff, hq]; exact List.cons_ne_nil _ _)]
      dsimp only
      rw [hw, hv, hd, he]
      exact he'

/-- A pass over a layer that has edges: they are shuffled and worked off. -/
lemma LayerInv.layer (hg : g.Indexed) {inner : ℕ} (fuel : ℕ) (rnd : Rnd)
    (h : LayerInv g mode root k depth now [] s) (hq : q.toList = Dqueue.flat now)
    (hnq : nq.toList = []) (hnow : now ≠ []) (hinner : now.length < inner) :
    ∃ s' depth' next' q' nq', (∀ draws, draws 0 = rnd →
        LayerSearch.run g mode inner (fuel + 1) draws s q nq =
          LayerSearch.run g mode inner fuel (fun n => draws (n + 1)) s' q' nq') ∧
      LayerInv g mode root (k + 1) depth' next' [] s' ∧ q'.toList = Dqueue.flat next' ∧
      nq'.toList = [] ∧ next'.length + openDegree g mode depth' ≤ openDegree g mode depth ∧
      Drained depth depth' (shuffleFront rnd now) s s' := by
  obtain ⟨q₁, he₁, hq₁⟩ := Dqueue.shuffle_eq rnd hq
  have hperm := shuffleFront_perm rnd now
  obtain ⟨s', depth', next', q', nq', he', hinv, hq', hnq', hle, hdrained⟩ :=
    (h.perm hperm).drain hg hq₁ (show nq.toList = Dqueue.flat [] from hnq)
      (by rwa [hperm.length_eq])
  refine ⟨s', depth', next', nq', q', fun draws hdraws => ?_, hinv.turn, hnq', hq', ?_, hdrained⟩
  · have hne : ¬ q.empty = true := by
      rw [Dqueue.empty_iff, hq, ← List.length_eq_zero_iff, Dqueue.length_flat]
      have := List.length_pos_of_ne_nil hnow
      omega
    have hempty : q'.empty = true := Dqueue.empty_iff.mpr hq'
    rw [LayerSearch.run, if_neg hne, hdraws, he₁]
    dsimp only
    rw [he']
    dsimp only
    rw [hempty, Bool.not_true, if_neg Bool.false_ne_true]
  · rwa [List.length_nil, Nat.zero_add] at hle

/-- The search ends: every edge waits once at most. -/
lemma LayerInv.run (hg : g.Indexed) {inner fuel : ℕ} (draws : ℕ → Rnd)
    (h : LayerInv g mode root k depth now [] s) (hq : q.toList = Dqueue.flat now)
    (hnq : nq.toList = []) (hinner : now.length + openDegree g mode depth < inner)
    (hfuel : now.length + openDegree g mode depth < fuel) :
    ∃ s' depth' k', LayerSearch.run g mode inner fuel draws s q nq = .ok s' ∧
      LayerInv g mode root k' depth' [] [] s' := by
  induction fuel generalizing k depth now s q nq draws with
  | zero => omega
  | succ fuel ih =>
    by_cases hnow : now = []
    · subst hnow
      exact ⟨s, depth, k, by rw [LayerSearch.run, if_pos (Dqueue.empty_iff.mpr hq)], h⟩
    · have hpos := List.length_pos_of_ne_nil hnow
      obtain ⟨s₁, depth₁, next, q₁, nq₁, he, hinv, hq₁, hnq₁, hle, _⟩ :=
        h.layer hg fuel (draws 0) hq hnq hnow (show now.length < inner by omega)
      obtain ⟨s', depth', k', he', hinv'⟩ :=
        ih (fun n => draws (n + 1)) hinv hq₁ hnq₁ (by omega) (by omega)
      exact ⟨s', depth', k', (he draws rfl).trans he', hinv'⟩

/-! ### The start -/

/-- The edges of the root. -/
def rootItems (g : IgraphT) (mode : NeiMode) (root : ℕ) : List Item :=
  (g.nbrs mode root).map (fun w => (w, root, 0))

lemma toList_rootItems (neis : List ℕ) (root : ℕ) :
    (neis.foldl (fun q w => pushEdge q w root 0) (Dqueue.init 100)).toList =
      Dqueue.flat (neis.map (fun w => (w, root, 0))) := by
  have hinit : (Dqueue.init 100 : Dqueue ℕ).toList = Dqueue.flat [] := Dqueue.toList_init 100
  have hpush := toList_foldl_pushEdge (fun _ => false) root 0 neis hinit
  simpa using hpush

/-- The labels of the search with the root found only. -/
abbrev rootDepth (root : ℕ) : ℕ → Option ℕ := Function.update (fun _ => none) root (some 0)

lemma rootDepth_eq_some {d : ℕ} : rootDepth root v = some d ↔ v = root ∧ d = 0 :=
  update_none_eq_some

lemma rootDepth_ne_none : rootDepth root v ≠ none ↔ v = root := by
  rw [Option.ne_none_iff_exists']
  constructor
  · rintro ⟨d, hd⟩
    exact (rootDepth_eq_some.mp hd).1
  · intro hv
    exact ⟨0, rootDepth_eq_some.mpr ⟨hv, rfl⟩⟩

lemma searched_start (hg : g.Indexed) :
    Searched (g.adj mode) root (rootDepth root)
      (fun v w => ∃ d, (w, v, d) ∈ rootItems g mode root ++ []) := by
  have hsearched := (frontier_start (g.adj mode) root).searched
  refine ⟨hsearched.root_depth, hsearched.walk, fun v d hv a ha => .inr ⟨0, ?_⟩⟩
  rw [(rootDepth_eq_some.mp hv).1] at ha ⊢
  rw [List.append_nil]
  exact List.mem_map.mpr ⟨a.2, hg.mem_nbrs.mpr ⟨a.1, ha⟩, rfl⟩

lemma layered_start (root : ℕ) : Layered (rootDepth root) (.start root) 0 := by
  refine ⟨fun v d hv => Nat.le_of_eq (rootDepth_eq_some.mp hv).2,
    ⟨root, rootDepth_eq_some.mpr ⟨rfl, rfl⟩⟩, ?_, .inr ⟨rfl, rfl⟩⟩
  simp [LayerSearch.start, starts]

lemma layerInv_start (hg : g.Indexed) (hroot : root < g.n) :
    LayerInv g mode root 0 (rootDepth root) (rootItems g mode root) [] (.start root) := by
  have hself : rootDepth root root = some 0 := rootDepth_eq_some.mpr ⟨rfl, rfl⟩
  refine ⟨searched_start hg, fun a ha => ?_, nofun, fun v d hv => ?_, fun v d hv => ?_,
    fun v => ?_, by simp [LayerSearch.start], fun v hv => ?_, fun v d hv hne => ?_, fun v => ?_,
    List.nodup_singleton root, List.pairwise_singleton .., 0, layered_start root⟩
  · obtain ⟨w, hw, rfl⟩ := List.mem_map.mp ha
    exact ⟨rfl, hself, hw⟩
  · have := (rootDepth_eq_some.mp hv).2
    omega
  · rw [(rootDepth_eq_some.mp hv).1]
    exact hroot
  · rw [rootDepth_ne_none, LayerSearch.start]
    by_cases hv : v = root
    · simp [hv]
    · simp [hv]
  · have hne : v ≠ root := fun heq => rootDepth_ne_none.mpr heq hv
    simp [LayerSearch.start, hne]
  · exact absurd (rootDepth_eq_some.mp hv).1 hne
  · rw [rootDepth_ne_none]
    exact List.mem_singleton

/-- Every vertex has as many edges as lead out of it or into it. -/
lemma sum_length_filter (key : ℕ → ℕ) {n : ℕ} {es : List ℕ} (h : ∀ e ∈ es, key e < n) :
    ∑ v ∈ Finset.range n, (es.filter (fun e => key e = v)).length = es.length := by
  induction es with
  | nil => simp
  | cons e es ih =>
    rw [List.forall_mem_cons] at h
    have hone : ∀ v, ((e :: es).filter (fun e => key e = v)).length =
        (es.filter (fun e => key e = v)).length + if key e = v then 1 else 0 := by
      intro v
      rw [List.filter_cons]
      by_cases hv : key e = v <;> simp [hv]
    simp only [hone]
    rw [Finset.sum_add_distrib, ih h.2, Finset.sum_ite_eq, if_pos (Finset.mem_range.mpr h.1),
      List.length_cons]

lemma Indexed.length_nbrs_le (hg : g.Indexed) (hv : v < g.n) :
    (g.nbrs mode v).length ≤ (g.oi.filter (fun e => g.source e = v)).length +
      (g.ii.filter (fun e => g.target e = v)).length := by
  rw [(hg.nbrs_perm mode v).length_eq, List.length_map, adj, incident, if_neg (Nat.not_le.mpr hv),
    ← hg.outEdges_eq hv, ← hg.inEdges_eq hv]
  dsimp only
  rw [List.length_map, List.length_append]
  apply Nat.add_le_add
  · split <;> simp
  · split <;> simp

/-- No more edges wait in the whole search than two for each edge of the graph. -/
lemma Indexed.waiting_le (hg : g.Indexed) (hroot : root < g.n) (mode : NeiMode) :
    (rootItems g mode root).length + openDegree g mode (rootDepth root) ≤ 2 * g.ecount := by
  have hout : ∑ v ∈ Finset.range g.n, (g.oi.filter (fun e => g.source e = v)).length =
      g.ecount := by
    rw [sum_length_filter g.source, hg.out.perm.length_eq, List.length_range]
    intro e he
    exact hg.source_lt (List.mem_range.mp (hg.out.perm.mem_iff.mp he))
  have hin : ∑ v ∈ Finset.range g.n, (g.ii.filter (fun e => g.target e = v)).length =
      g.ecount := by
    rw [sum_length_filter g.target, hg.inc.perm.length_eq, List.length_range]
    intro e he
    exact hg.target_lt (List.mem_range.mp (hg.inc.perm.mem_iff.mp he))
  have hall : openDegree g mode (fun _ => none) ≤ 2 * g.ecount := by
    unfold openDegree
    simp only [Finset.filter_true]
    calc ∑ v ∈ Finset.range g.n, (g.nbrs mode v).length
        ≤ ∑ v ∈ Finset.range g.n, ((g.oi.filter (fun e => g.source e = v)).length +
            (g.ii.filter (fun e => g.target e = v)).length) :=
          Finset.sum_le_sum fun v hv => hg.length_nbrs_le (Finset.mem_range.mp hv)
      _ = 2 * g.ecount := by rw [Finset.sum_add_distrib, hout, hin, Nat.two_mul]
  have hsplit : openDegree g mode (rootDepth root) + (g.nbrs mode root).length =
      openDegree g mode (fun _ => none) := openDegree_update rfl hroot 0
  rw [rootItems, List.length_map]
  omega

/-! ### The result -/

lemma modeOf_modeOf (g : IgraphT) (mode : NeiMode) : g.modeOf (g.modeOf mode) = g.modeOf mode := by
  unfold modeOf
  split <;> rfl

lemma adj_modeOf (g : IgraphT) (mode : NeiMode) : g.adj (g.modeOf mode) = g.adj mode := by
  unfold adj incident
  rw [modeOf_modeOf]

/-- The parents and the layers that the search reports. -/
structure BfsOk (g : IgraphT) (mode : NeiMode) (root : ℕ) (s : LayerSearch) : Prop where
  parents_root : s.parents root = root
  parents_none : ∀ v, (¬ ∃ p, EdgeWalk (g.adj mode) root p v) → s.parents v = -1
  parents_some : ∀ v p, v ≠ root → Shortest (g.adj mode) root p v → ∃ u e q,
    s.parents v = (u : ℕ) ∧ (e, v) ∈ g.adj mode u ∧ Shortest (g.adj mode) root q u ∧
      p.length = q.length + 1
  vids_mem : ∀ v, v ∈ s.vids ↔ ∃ p, EdgeWalk (g.adj mode) root p v
  vids_nodup : s.vids.Nodup
  layer : ∀ d, d + 1 < s.layers.length → ∀ v,
    v ∈ slice s.vids (s.layers.getD d 0) (s.layers.getD (d + 1) 0) ↔
      ∃ p, Shortest (g.adj mode) root p v ∧ p.length = d
  layers_lt : ∀ v p, Shortest (g.adj mode) root p v → p.length + 1 < s.layers.length
  layers_length : ∃ v p, Shortest (g.adj mode) root p v ∧ p.length + 2 = s.layers.length
  layers_end : s.layers.getLastD 0 = s.vids.length

lemma LayerInv.found_iff (h : LayerInv g mode root k depth [] [] s) :
    depth v ≠ none ↔ ∃ p, EdgeWalk (g.adj mode) root p v := by
  rw [Option.ne_none_iff_exists']
  constructor
  · rintro ⟨d, hd⟩
    obtain ⟨p, hp, _⟩ := h.shortest hd
    exact ⟨p, hp.1⟩
  · rintro ⟨p, hp⟩
    exact h.searched.found (fun v w hw => by simp at hw) hp

/-- The layers with the end of the last one. -/
lemma LayerInv.layers_eq (h : LayerInv g mode root k depth [] [] s) {last : ℕ}
    (hlast : Layered depth s last) :
    s.layers ++ [s.vids.length] = starts (labelOf depth) s.vids (last + 2) := by
  have hall : s.vids.countP (fun v => labelOf depth v < last + 1) = s.vids.length := by
    rw [List.countP_eq_length]
    intro v hv
    obtain ⟨d, hd⟩ := Option.ne_none_iff_exists'.mp ((h.vids_mem v).mp hv)
    have := hlast.le_last v d hd
    rw [labelOf, hd, Option.getD_some, decide_eq_true_eq]
    omega
  rw [hlast.layers_eq, starts, starts, List.range_succ (n := last + 1), List.map_append,
    List.map_singleton, hall]

/-- The search, once its first edges wait. -/
lemma iBfs_eq (hg : g.Indexed) (hroot : root < g.n) (mode : NeiMode) (fuel : ℕ) :
    ∃ q : Dqueue ℕ, q.toList = Dqueue.flat (rootItems g (g.modeOf mode) root) ∧
      ∀ draws, g.iBfs fuel draws root mode =
        (LayerSearch.run g (g.modeOf mode) fuel fuel draws (.start root) q (Dqueue.init 100)).map
          (fun s => { s with layers := s.layers ++ [s.vids.length] }) := by
  refine ⟨_, toList_rootItems (g.nbrs (g.modeOf mode) root) root, fun draws => ?_⟩
  unfold iBfs
  dsimp only
  rw [hg.neighbors_nbrs hroot]
  dsimp only
  generalize LayerSearch.run g (g.modeOf mode) fuel fuel draws _ _ _ = res
  cases res <;> rfl

end IgraphT

end ResSim
