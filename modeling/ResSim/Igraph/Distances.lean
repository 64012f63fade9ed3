import ResSim.Igraph.Bfs

/-!
# Distances

`igraph_shortest_paths`, with the change of this repository that shuffles the neighbours of a
vertex, which are kept for all rows of the matrix. Each row is a search of its own that marks the
vertices with the number of the row, and stops when all columns are filled.
-/

namespace ResSim

namespace IgraphT

/-- What the searches keep. `row` is the row of the matrix at work, `none` standing for
infinity. -/
structure DistanceSearch where
  counted : ℕ → ℕ
  adjs : ℕ → List ℕ
  q : Dqueue ℕ
  row : ℕ → Option ℕ
  reached : ℕ

/-- `index`: the place of each wanted vertex, from 1 on, and 0 for the others. -/
def indexOf : List ℕ → ℕ → (ℕ → ℕ) → Except Fault (ℕ → ℕ)
  | [], _, index => .ok index
  | v :: tos, i, index =>
    if index v ≠ 0 then
      .error (.error "Duplicate vertices in `to', this is not allowed" .einval)
    else indexOf tos (i + 1) (Function.update index v (i + 1))

/-- Pushes a vertex and its distance. -/
def pushVertex (q : Dqueue ℕ) (v dist : ℕ) : Dqueue ℕ := (q.push v).push dist

/-- Looks at a neighbour of a vertex. -/
def DistanceSearch.visit (tag actdist : ℕ) (s : DistanceSearch) (neighbor : ℕ) : DistanceSearch :=
  if s.counted neighbor = tag then s
  else
    { s with
      counted := Function.update s.counted neighbor tag
      q := pushVertex s.q neighbor (actdist + 1) }

/-- Shuffles the neighbours of a vertex and looks at them. -/
def DistanceSearch.expand (tag : ℕ) (rnd : Rnd) (s : DistanceSearch) (act actdist : ℕ) :
    DistanceSearch :=
  let neis := shuffleBack rnd (s.adjs act)
  neis.foldl (visit tag actdist) { s with adjs := Function.update s.adjs act neis }

/-- Writes the distance of a vertex that was taken from the queue, if it has a column. The
result also says whether this was the last column. There is no index if all vertices are
wanted. -/
def DistanceSearch.answer (index : Option (ℕ → ℕ)) (noOfTo : ℕ) (s : DistanceSearch)
    (act actdist : ℕ) : DistanceSearch × Bool :=
  match index with
  | none => ({ s with row := Function.update s.row act (some actdist) }, false)
  | some index =>
    if index act ≠ 0 then
      ({ s with
          row := Function.update s.row (index act - 1) (some actdist)
          reached := s.reached + 1 },
        s.reached + 1 = noOfTo)
    else (s, false)

/-- The search of one row. -/
def DistanceSearch.run (index : Option (ℕ → ℕ)) (noOfTo tag : ℕ) :
    ℕ → (ℕ → Rnd) → DistanceSearch → Except Fault DistanceSearch
  | 0, _, _ => .error .noEnd
  | fuel + 1, draws, s =>
    if s.q.empty then .ok s
    else
      let act := s.q.pop
      let actdist := act.2.pop
      let answered := { s with q := actdist.2 }.answer index noOfTo act.1 actdist.1
      if answered.2 then .ok { answered.1 with q := answered.1.q.clear }
      else
        run index noOfTo tag fuel (fun n => draws (n + 1))
          (answered.1.expand tag (draws 0) act.1 actdist.1)

/-- The search of row `i` before its first pass. -/
def DistanceSearch.start (s : DistanceSearch) (v i : ℕ) : DistanceSearch where
  counted := Function.update s.counted v (i + 1)
  adjs := s.adjs
  q := pushVertex s.q v 0
  row := fun _ => none
  reached := 0

/-- The rows of the vertices from row `i` on, each with its own draws. -/
def distanceRows (index : Option (ℕ → ℕ)) (noOfTo fuel : ℕ) :
    List ℕ → ℕ → (ℕ → ℕ → Rnd) → DistanceSearch → Except Fault (List (List (Option ℕ)))
  | [], _, _, _ => .ok []
  | v :: vs, i, draws, s =>
    match (s.start v i).run index noOfTo (i + 1) fuel (draws 0) with
    | .error f => .error f
    | .ok s =>
      (distanceRows index noOfTo fuel vs (i + 1) (fun n => draws (n + 1)) s).map
        (fun rows => (List.range noOfTo).map s.row :: rows)

/-- `igraph_adjlist_init`. -/
def adjlistInit (g : IgraphT) (mode : NeiMode) : ℕ → List ℕ := fun v => g.nbrs (g.modeOf mode) v

/-- `igraph_shortest_paths` between two selections of vertices; without `tos`, to all. -/
def shortestPaths (g : IgraphT) (fuel : ℕ) (draws : ℕ → ℕ → Rnd) (froms : List ℤ)
    (tos : Option (List ℤ)) (mode : NeiMode) : Except Fault (List (List (Option ℕ))) :=
  if !isInInterval froms 0 (g.n - 1) then
    .error (.error "Cannot create iterator, invalid vertex id" .einvvid)
  else
    let s : DistanceSearch :=
      ⟨fun _ => 0, g.adjlistInit mode, Dqueue.init 100, fun _ => none, 0⟩
    match tos with
    | none => distanceRows none g.n fuel (froms.map Int.toNat) 0 draws s
    | some tos =>
      if !isInInterval tos 0 (g.n - 1) then
        .error (.error "Cannot create iterator, invalid vertex id" .einvvid)
      else
        match indexOf (tos.map Int.toNat) 0 (fun _ => 0) with
        | .error f => .error f
        | .ok index =>
          distanceRows (some index) tos.length fuel (froms.map Int.toNat) 0 draws s

/-! ### The queue -/

variable {g : IgraphT} {mode : NeiMode} {root v w x tag noOfTo : ℕ}
  {depth depth' : ℕ → Option ℕ} {waiting new tos : List ℕ} {s s' : DistanceSearch} {q : Dqueue ℕ}

/-- Vertices with their distances, as they stand in the queue. -/
def labelled (depth : ℕ → Option ℕ) (waiting : List ℕ) : List ℕ :=
  waiting.flatMap (fun v => [v, labelOf depth v])

lemma labelled_congr (h : ∀ v ∈ waiting, depth' v = depth v) :
    labelled depth' waiting = labelled depth waiting := by
  unfold labelled
  apply List.flatMap_congr
  intro v hv
  rw [labelOf, h v hv, labelOf]

lemma toList_pushVertex {d : ℕ} (hq : q.toList = labelled depth waiting) (hv : depth v = some d) :
    (pushVertex q v d).toList = labelled depth (waiting ++ [v]) := by
  rw [pushVertex, Dqueue.toList_push, Dqueue.toList_push, hq, labelled, labelled,
    List.flatMap_append, List.append_assoc]
  simp [labelOf, hv]

/-! ### The columns -/

/-- The column of a vertex, if it has one. -/
def columnOf : Option (ℕ → ℕ) → ℕ → Option ℕ
  | none, v => some v
  | some index, v => if index v ≠ 0 then some (index v - 1) else none

/-- The columns of the wanted vertices. -/
structure Columns (n : ℕ) (index : Option (ℕ → ℕ)) (noOfTo : ℕ) (tos : List ℕ) : Prop where
  nodup : tos.Nodup
  length_eq : tos.length = noOfTo
  column_iff : ∀ v c, v < n → (columnOf index v = some c ↔ tos[c]? = some v)

/-- An index of the vertices of a list. -/
def IsIndex (index : ℕ → ℕ) (tos : List ℕ) : Prop := ∀ v c, index v = c + 1 ↔ tos[c]? = some v

lemma IsIndex.ne_zero {index : ℕ → ℕ} (h : IsIndex index tos) : index v ≠ 0 ↔ v ∈ tos := by
  rw [List.mem_iff_getElem?]
  constructor
  · intro hne
    obtain ⟨c, hc⟩ := Nat.exists_eq_succ_of_ne_zero hne
    exact ⟨c, (h v c).mp hc⟩
  · rintro ⟨c, hc⟩
    rw [(h v c).mpr hc]
    omega

lemma IsIndex.concat {index : ℕ → ℕ} (h : IsIndex index tos) (hv : v ∉ tos) :
    IsIndex (Function.update index v (tos.length + 1)) (tos ++ [v]) := by
  intro w c
  by_cases hwv : w = v
  · subst hwv
    rw [Function.update_self, Nat.add_right_cancel_iff]
    constructor
    · rintro rfl
      exact List.getElem?_concat_length
    · intro hc
      rcases Nat.lt_or_ge c tos.length with hlt | hge
      · rw [List.getElem?_append_left hlt] at hc
        exact absurd (List.mem_of_getElem? hc) hv
      · have hlt := (List.getElem?_eq_some_iff.mp hc).1
        rw [List.length_append, List.length_singleton] at hlt
        omega
  · rw [Function.update_of_ne hwv, h w c]
    rcases Nat.lt_or_ge c tos.length with hlt | hge
    · rw [List.getElem?_append_left hlt]
    · rw [List.getElem?_append_right hge, List.getElem?_eq_none hge]
      constructor
      · nofun
      · intro hc
        exact absurd (List.mem_singleton.mp (List.mem_of_getElem? hc)) hwv

lemma indexOf_ok {index : ℕ → ℕ} {pre : List ℕ} (h : IsIndex index pre)
    (hnodup : (pre ++ tos).Nodup) :
    ∃ index', indexOf tos pre.length index = .ok index' ∧ IsIndex index' (pre ++ tos) := by
  induction tos generalizing pre index with
  | nil => exact ⟨index, rfl, by rwa [List.append_nil]⟩
  | cons v tos ih =>
    rw [List.append_cons] at hnodup ⊢
    have hv : v ∉ pre := by
      intro hmem
      have hdisj := (List.nodup_append.mp (List.nodup_append.mp hnodup).1).2.2
      exact hdisj v hmem v (List.mem_singleton.mpr rfl) rfl
    obtain ⟨index', he, hindex⟩ := ih (h.concat hv) hnodup
    refine ⟨index', ?_, hindex⟩
    rw [indexOf, if_neg (by rwa [h.ne_zero])]
    rwa [List.length_append, List.length_singleton] at he

/-- A vertex that is wanted twice is refused. -/
lemma indexOf_error {index : ℕ → ℕ} {pre : List ℕ} (h : IsIndex index pre) (hpre : pre.Nodup)
    (hdup : ¬ (pre ++ tos).Nodup) :
    indexOf tos pre.length index =
      .error (.error "Duplicate vertices in `to', this is not allowed" .einval) := by
  induction tos generalizing pre index with
  | nil => exact absurd (by rwa [List.append_nil]) hdup
  | cons v tos ih =>
    rw [indexOf]
    by_cases hv : v ∈ pre
    · rw [if_pos (h.ne_zero.mpr hv)]
    · rw [if_neg (by rwa [h.ne_zero])]
      rw [List.append_cons] at hdup
      have hnodup : (pre ++ [v]).Nodup := List.nodup_append.mpr
        ⟨hpre, List.nodup_singleton v, fun a ha b hb => by
          rw [List.mem_singleton.mp hb]
          rintro rfl
          exact hv ha⟩
      have htail := ih (h.concat hv) hnodup hdup
      rwa [List.length_append, List.length_singleton] at htail

lemma columns_all (n : ℕ) : Columns n none n (List.range n) := by
  refine ⟨List.nodup_range, List.length_range, fun v c hv => ?_⟩
  rw [columnOf, Option.some.injEq, List.getElem?_eq_some_iff]
  simp only [List.length_range, List.getElem_range, exists_prop]
  omega

lemma IsIndex.columns {index : ℕ → ℕ} (h : IsIndex index tos) (hnodup : tos.Nodup) (n : ℕ) :
    Columns n (some index) tos.length tos := by
  refine ⟨hnodup, rfl, fun v c _ => ?_⟩
  rw [columnOf, ← h v c]
  split
  · rw [Option.some.injEq]
    omega
  · constructor
    · nofun
    · omega

lemma Columns.mem_iff {n : ℕ} {index : Option (ℕ → ℕ)} (h : Columns n index noOfTo tos)
    (hv : v < n) : v ∈ tos ↔ ∃ c, columnOf index v = some c := by
  rw [List.mem_iff_getElem?]
  exact exists_congr fun c => (h.column_iff v c hv).symm

lemma Columns.inj {n : ℕ} {index : Option (ℕ → ℕ)} (h : Columns n index noOfTo tos) {c : ℕ}
    (hv : v < n) (hw : w < n) (hvc : columnOf index v = some c) (hwc : columnOf index w = some c) :
    v = w := by
  have hv' := (h.column_iff v c hv).mp hvc
  rw [(h.column_iff w c hw).mp hwc, Option.some.injEq] at hv'
  exact hv'.symm

/-! ### The row -/

/-- The row has the distances of the vertices that were found and do not wait. -/
structure Answered (index : Option (ℕ → ℕ)) (tos : List ℕ) (depth : ℕ → Option ℕ)
    (waiting : List ℕ) (s : DistanceSearch) : Prop where
  row_iff : ∀ c d, s.row c = some d ↔
    ∃ v, columnOf index v = some c ∧ depth v = some d ∧ v ∉ waiting
  reached : index ≠ none → s.reached = tos.countP (fun v => depth v ≠ none ∧ v ∉ waiting)

/-- What looking at neighbours does to the labels: new vertices get one and wait. -/
structure Spread (n : ℕ) (depth depth' : ℕ → Option ℕ) (new : List ℕ) : Prop where
  keep : ∀ v ∉ new, depth' v = depth v
  fresh : ∀ v ∈ new, depth v = none
  unfound : unfoundOf n depth' + new.length = unfoundOf n depth

lemma Spread.refl (n : ℕ) (depth : ℕ → Option ℕ) : Spread n depth depth [] :=
  ⟨fun _ _ => rfl, nofun, rfl⟩

lemma Spread.keep_some {n d : ℕ} (h : Spread n depth depth' new) (hv : depth v = some d) :
    depth' v = some d := by
  rw [h.keep v, hv]
  intro hmem
  rw [h.fresh v hmem] at hv
  cases hv

lemma Spread.trans {n : ℕ} {depth'' : ℕ → Option ℕ} {new' : List ℕ}
    (h : Spread n depth depth' new) (h' : Spread n depth' depth'' new') :
    Spread n depth depth'' (new ++ new') := by
  refine ⟨fun v hv => ?_, fun v hv => ?_, ?_⟩
  · rw [List.mem_append, not_or] at hv
    rw [h'.keep v hv.2, h.keep v hv.1]
  · rcases List.mem_append.mp hv with hv | hv
    · exact h.fresh v hv
    · by_contra hne
      obtain ⟨d, hd⟩ := Option.ne_none_iff_exists'.mp hne
      have hsome := h.keep_some hd
      rw [h'.fresh v hv] at hsome
      cases hsome
  · have := h.unfound
    have := h'.unfound
    rw [List.length_append]
    omega

/-- A vertex that was answered stays so, and no new one is. -/
lemma Spread.answered_iff {n d : ℕ} (h : Spread n depth depth' new) :
    (depth' v = some d ∧ v ∉ waiting ++ new) ↔ (depth v = some d ∧ v ∉ waiting) := by
  rw [List.mem_append, not_or]
  constructor
  · rintro ⟨hd, hw, hnew⟩
    exact ⟨h.keep v hnew ▸ hd, hw⟩
  · rintro ⟨hd, hw⟩
    refine ⟨h.keep_some hd, hw, fun hmem => ?_⟩
    rw [h.fresh v hmem] at hd
    cases hd

lemma Answered.spread {index : Option (ℕ → ℕ)} {n : ℕ} (h : Answered index tos depth waiting s)
    (hspread : Spread n depth depth' new) (hrow : s'.row = s.row)
    (hreached : s'.reached = s.reached) : Answered index tos depth' (waiting ++ new) s' := by
  refine ⟨fun c d => ?_, fun hindex => ?_⟩
  · rw [hrow, h.row_iff]
    exact exists_congr fun v => and_congr_right fun _ => hspread.answered_iff.symm
  · rw [hreached, h.reached hindex]
    apply List.countP_congr
    intro v _
    simp only [decide_eq_true_eq, Option.ne_none_iff_exists', ← exists_and_right]
    exact exists_congr fun d => hspread.answered_iff.symm

section Answer

variable {index : Option (ℕ → ℕ)} {n d : ℕ}

lemma row_answer (s : DistanceSearch) : (s.answer index noOfTo x d).1.row =
    match columnOf index x with
    | none => s.row
    | some c => Function.update s.row c (some d) := by
  unfold DistanceSearch.answer columnOf
  cases index with
  | none => rfl
  | some index =>
    dsimp only
    split_ifs <;> rfl

lemma counted_answer (index : Option (ℕ → ℕ)) (noOfTo x d : ℕ) (s : DistanceSearch) :
    (s.answer index noOfTo x d).1.counted = s.counted ∧
      (s.answer index noOfTo x d).1.adjs = s.adjs ∧ (s.answer index noOfTo x d).1.q = s.q := by
  unfold DistanceSearch.answer
  cases index with
  | none => exact ⟨rfl, rfl, rfl⟩
  | some index =>
    dsimp only
    split_ifs <;> exact ⟨rfl, rfl, rfl⟩

lemma reached_answer (s : DistanceSearch) (hindex : index ≠ none) :
    (s.answer index noOfTo x d).1.reached =
      s.reached + if columnOf index x = none then 0 else 1 := by
  unfold DistanceSearch.answer columnOf
  cases index with
  | none => exact absurd rfl hindex
  | some index =>
    dsimp only
    split_ifs <;> simp_all

/-- Counting one vertex more. -/
lemma countP_insert (p p' : ℕ → Bool) (hnodup : tos.Nodup) (hx : p x = false)
    (hp' : ∀ v, p' v = true ↔ p v = true ∨ v = x) :
    tos.countP p' = tos.countP p + if x ∈ tos then 1 else 0 := by
  induction tos with
  | nil => rfl
  | cons v tos ih =>
    obtain ⟨hv, hnodup⟩ := List.nodup_cons.mp hnodup
    rw [List.countP_cons, List.countP_cons, ih hnodup]
    by_cases hvx : v = x
    · subst hvx
      rw [if_pos ((hp' v).mpr (.inr rfl)), if_neg hv, hx, if_neg Bool.false_ne_true,
        if_pos (List.mem_cons_self ..)]
    · have hsame : p' v = true ↔ p v = true := by
        rw [hp']
        exact or_iff_left hvx
      rw [if_congr hsame rfl rfl]
      simp only [List.mem_cons, Ne.symm hvx, false_or]
      omega

/-- The vertex in front gets its answer when it is taken from the queue. -/
lemma Answered.answer (hcols : Columns n index noOfTo tos)
    (h : Answered index tos depth (x :: waiting) s) (hlt : ∀ v k, depth v = some k → v < n)
    (hnodup : (x :: waiting).Nodup) (hx : depth x = some d) :
    Answered index tos depth waiting (s.answer index noOfTo x d).1 := by
  have hxw := (List.nodup_cons.mp hnodup).1
  have hxn := hlt x d hx
  refine ⟨fun c k => ?_, fun hindex => ?_⟩
  · have hrow := h.row_iff c k
    rw [row_answer]
    -- an answer of another vertex is as before
    have hother : ∀ v, columnOf index v = some c → v ≠ x →
        (v ∉ x :: waiting ↔ v ∉ waiting) := by
      intro v _ hvx
      rw [List.mem_cons, not_or]
      exact and_iff_right hvx
    cases hcol : columnOf index x with
    | none =>
      dsimp only
      rw [hrow]
      refine exists_congr fun v => and_congr_right fun hv => and_congr_right fun _ =>
        hother v hv ?_
      rintro rfl
      rw [hcol] at hv
      cases hv
    | some c₀ =>
      dsimp only
      by_cases hc : c = c₀
      · subst hc
        rw [Function.update_self, Option.some.injEq]
        constructor
        · rintro rfl
          exact ⟨x, hcol, hx, hxw⟩
        · rintro ⟨v, hv, hk, _⟩
          rw [hcols.inj (hlt v k hk) hxn hv hcol, hx, Option.some.injEq] at hk
          exact hk
      · rw [Function.update_of_ne hc, hrow]
        refine exists_congr fun v => and_congr_right fun hv => and_congr_right fun _ =>
          hother v hv ?_
        rintro rfl
        rw [hcol, Option.some.injEq] at hv
        exact hc hv.symm
  · have hcount := countP_insert (fun v => depth v ≠ none ∧ v ∉ x :: waiting)
      (fun v => depth v ≠ none ∧ v ∉ waiting) hcols.nodup (x := x) (by simp) (fun v => by
        by_cases hvx : v = x
        · simp [hvx, hx, hxw]
        · simp [hvx])
    have hmem := hcols.mem_iff hxn
    rw [reached_answer s hindex, h.reached hindex, hcount]
    cases hcol : columnOf index x with
    | none => rw [if_pos rfl, if_neg fun hx' => by simp [hcol] at hmem; exact hmem hx']
    | some c => rw [if_neg (Option.some_ne_none c), if_pos (hmem.mpr ⟨c, hcol⟩)]

/-- If this was the last column, all wanted vertices are answered. -/
lemma Answered.done (hcols : Columns n index noOfTo tos) (h : Answered index tos depth waiting s)
    (hindex : index ≠ none) (hdone : s.reached = noOfTo) (hv : v ∈ tos) :
    depth v ≠ none ∧ v ∉ waiting := by
  have hcount := h.reached hindex
  rw [hdone, ← hcols.length_eq, eq_comm, List.countP_eq_length] at hcount
  simpa using hcount v hv

lemma answer_done (index : Option (ℕ → ℕ)) (noOfTo x d : ℕ) (s : DistanceSearch)
    (hdone : (s.answer index noOfTo x d).2 = true) :
    index ≠ none ∧ (s.answer index noOfTo x d).1.reached = noOfTo := by
  unfold DistanceSearch.answer at hdone ⊢
  cases index with
  | none => cases hdone
  | some index =>
    dsimp only at hdone ⊢
    split_ifs at hdone ⊢
    · exact ⟨Option.some_ne_none _, by simpa using hdone⟩

end Answer

/-! ### A row -/

/-- What the search of a row keeps, besides the queue and the row. -/
structure DistanceInv (g : IgraphT) (mode : NeiMode) (root tag : ℕ) (depth : ℕ → Option ℕ)
    (queue : List ℕ) (s : DistanceSearch) : Prop where
  frontier : Frontier (g.adj mode) root depth queue
  nodup : queue.Nodup
  lt : ∀ v d, depth v = some d → v < g.n
  counted : ∀ v, s.counted v = tag ↔ depth v ≠ none
  tags : ∀ v, s.counted v ≤ tag
  adjs : ∀ v, (s.adjs v).Perm (g.nbrs mode v)

lemma DistanceInv.congr (h : DistanceInv g mode root tag depth waiting s)
    (hcounted : s'.counted = s.counted) (hadjs : s'.adjs = s.adjs) :
    DistanceInv g mode root tag depth waiting s' :=
  ⟨h.frontier, h.nodup, h.lt, hcounted ▸ h.counted, hcounted ▸ h.tags, hadjs ▸ h.adjs⟩

/-- Looking at a neighbour of the vertex in front finds it. -/
lemma DistanceInv.visit (hg : g.Indexed) {d : ℕ}
    (h : DistanceInv g mode root tag depth (x :: waiting) s) (hd : depth x = some d)
    (hq : s.q.toList = labelled depth waiting) (hw : w ∈ g.nbrs mode x) :
    ∃ depth' new, DistanceInv g mode root tag depth' (x :: (waiting ++ new)) (s.visit tag d w) ∧
      Spread g.n depth depth' new ∧
      (s.visit tag d w).q.toList = labelled depth' (waiting ++ new) ∧ depth' w ≠ none := by
  unfold DistanceSearch.visit
  by_cases hnone : depth w = none
  · obtain ⟨e, he⟩ := hg.mem_nbrs.mp hw
    have hlt := hg.snd_lt he
    have hnew : w ∉ x :: waiting := by
      intro hmem
      obtain ⟨k, hk⟩ := h.frontier.queued w hmem
      rw [hnone] at hk
      cases hk
    have hkeep : ∀ v, v ≠ w → Function.update depth w (some (d + 1)) v = depth v :=
      fun v hv => Function.update_of_ne hv ..
    have hself : Function.update depth w (some (d + 1)) w = some (d + 1) :=
      Function.update_self ..
    rw [if_neg (by rw [h.counted, hnone]; simp)]
    refine ⟨Function.update depth w (some (d + 1)), [w],
      ⟨h.frontier.discover hd he hnone, ?_, fun v k hv => ?_, fun v => ?_, fun v => ?_, h.adjs⟩,
      ⟨fun v hv => hkeep v (by simpa using hv), fun v hv => ?_, ?_⟩, ?_, ?_⟩
    · rw [← List.cons_append]
      refine List.nodup_append.mpr ⟨h.nodup, List.nodup_singleton w, fun a ha b hb => ?_⟩
      rw [List.mem_singleton.mp hb]
      rintro rfl
      exact hnew ha
    · by_cases hvw : v = w
      · rwa [hvw]
      · rw [hkeep v hvw] at hv
        exact h.lt v k hv
    · by_cases hvw : v = w
      · simp [hvw]
      · dsimp only
        rw [Function.update_of_ne hvw, hkeep v hvw]
        exact h.counted v
    · by_cases hvw : v = w
      · simp [hvw]
      · dsimp only
        rw [Function.update_of_ne hvw]
        exact h.tags v
    · rwa [List.mem_singleton.mp hv]
    · exact unfoundOf_update hnone hlt (d + 1)
    · apply toList_pushVertex
      · rw [hq]
        refine (labelled_congr fun v hv => hkeep v ?_).symm
        rintro rfl
        exact hnew (List.mem_cons_of_mem _ hv)
      · exact hself
    · rw [hself]
      exact Option.some_ne_none _
  · rw [if_pos ((h.counted w).mpr hnone)]
    exact ⟨depth, [], by rwa [List.append_nil], .refl .., by rwa [List.append_nil], hnone⟩

/-- Looking at several neighbours finds all of them. -/
lemma DistanceInv.foldl_visit (hg : g.Indexed) {d : ℕ} {neis : List ℕ}
    (h : DistanceInv g mode root tag depth (x :: waiting) s) (hd : depth x = some d)
    (hq : s.q.toList = labelled depth waiting) (hneis : ∀ w ∈ neis, w ∈ g.nbrs mode x) :
    ∃ depth' new, DistanceInv g mode root tag depth' (x :: (waiting ++ new))
        (neis.foldl (DistanceSearch.visit tag d) s) ∧
      Spread g.n depth depth' new ∧
      (neis.foldl (DistanceSearch.visit tag d) s).q.toList = labelled depth' (waiting ++ new) ∧
      ∀ w ∈ neis, depth' w ≠ none := by
  induction neis generalizing depth waiting s with
  | nil => exact ⟨depth, [], by rwa [List.append_nil], .refl .., by rwa [List.append_nil], nofun⟩
  | cons w neis ih =>
    rw [List.forall_mem_cons] at hneis
    obtain ⟨depth₁, new₁, hinv, hspread, hq₁, hfound⟩ := h.visit hg hd hq hneis.1
    obtain ⟨depth', new', hinv', hspread', hq', hall⟩ :=
      ih hinv (hspread.keep_some hd) hq₁ hneis.2
    refine ⟨depth', new₁ ++ new', by rwa [← List.append_assoc], hspread.trans hspread',
      by rwa [← List.append_assoc], List.forall_mem_cons.mpr ⟨?_, hall⟩⟩
    obtain ⟨k, hk⟩ := Option.ne_none_iff_exists'.mp hfound
    rw [hspread'.keep_some hk]
    exact Option.some_ne_none _

lemma foldl_visit_row (tag d : ℕ) (neis : List ℕ) (s : DistanceSearch) :
    (neis.foldl (DistanceSearch.visit tag d) s).row = s.row ∧
      (neis.foldl (DistanceSearch.visit tag d) s).reached = s.reached := by
  induction neis generalizing s with
  | nil => exact ⟨rfl, rfl⟩
  | cons w neis ih =>
    obtain ⟨hrow, hreached⟩ := ih (s.visit tag d w)
    have hvisit : (s.visit tag d w).row = s.row ∧ (s.visit tag d w).reached = s.reached := by
      unfold DistanceSearch.visit
      split <;> exact ⟨rfl, rfl⟩
    exact ⟨hrow.trans hvisit.1, hreached.trans hvisit.2⟩

/-- The vertex in front leaves the queue when its neighbours are found. -/
lemma DistanceInv.expand (hg : g.Indexed) {d : ℕ} {index : Option (ℕ → ℕ)}
    (h : DistanceInv g mode root tag depth (x :: waiting) s) (hd : depth x = some d)
    (hq : s.q.toList = labelled depth waiting) (hans : Answered index tos depth waiting s)
    (rnd : Rnd) :
    ∃ depth' new, DistanceInv g mode root tag depth' (waiting ++ new) (s.expand tag rnd x d) ∧
      Answered index tos depth' (waiting ++ new) (s.expand tag rnd x d) ∧
      (s.expand tag rnd x d).q.toList = labelled depth' (waiting ++ new) ∧
      unfoundOf g.n depth' + new.length = unfoundOf g.n depth := by
  have hperm : (shuffleBack rnd (s.adjs x)).Perm (g.nbrs mode x) :=
    (shuffleBack_perm rnd (s.adjs x)).trans (h.adjs x)
  have hshuffled : DistanceInv g mode root tag depth (x :: waiting)
      { s with adjs := Function.update s.adjs x (shuffleBack rnd (s.adjs x)) } := by
    refine ⟨h.frontier, h.nodup, h.lt, h.counted, h.tags, fun v => ?_⟩
    by_cases hv : v = x
    · subst hv
      simpa using hperm
    · simpa [hv] using h.adjs v
  obtain ⟨depth', new, hinv, hspread, hq', hfound⟩ :=
    hshuffled.foldl_visit hg hd hq (fun w hw => hperm.mem_iff.mp hw)
  obtain ⟨hrow, hreached⟩ := foldl_visit_row tag d (shuffleBack rnd (s.adjs x))
    { s with adjs := Function.update s.adjs x (shuffleBack rnd (s.adjs x)) }
  refine ⟨depth', new, ⟨hinv.frontier.close fun a ha => ?_, (List.nodup_cons.mp hinv.nodup).2,
    hinv.lt, hinv.counted, hinv.tags, hinv.adjs⟩, hans.spread hspread hrow hreached, hq',
    hspread.unfound⟩
  exact hfound a.2 (hperm.mem_iff.mpr (hg.mem_nbrs.mpr ⟨a.1, ha⟩))

/-- The search of a row ends, and has answered all vertices that it found or all that are
wanted. -/
lemma DistanceInv.run (hg : g.Indexed) {index : Option (ℕ → ℕ)}
    (hcols : Columns g.n index noOfTo tos) {fuel : ℕ} (draws : ℕ → Rnd)
    (h : DistanceInv g mode root tag depth waiting s) (hans : Answered index tos depth waiting s)
    (hq : s.q.toList = labelled depth waiting)
    (hfuel : unfoundOf g.n depth + waiting.length < fuel) :
    ∃ s' depth' queue waiting', s.run index noOfTo tag fuel draws = .ok s' ∧
      DistanceInv g mode root tag depth' queue s' ∧ Answered index tos depth' waiting' s' ∧
      s'.q.toList = [] ∧
      ((queue = [] ∧ waiting' = []) ∨ ∀ v ∈ tos, depth' v ≠ none ∧ v ∉ waiting') := by
  induction fuel generalizing depth waiting s draws with
  | zero => omega
  | succ fuel ih =>
    rw [DistanceSearch.run]
    cases waiting with
    | nil =>
      rw [if_pos (Dqueue.empty_iff.mpr hq)]
      exact ⟨s, depth, [], [], rfl, h, hans, hq, .inl ⟨rfl, rfl⟩⟩
    | cons x waiting =>
      obtain ⟨d, hd⟩ := h.frontier.queued x (List.mem_cons_self ..)
      have hx : s.q.toList = x :: d :: labelled depth waiting := by
        simpa [labelled, labelOf, hd] using hq
      obtain ⟨hact, hrest⟩ := Dqueue.pop_eq hx
      obtain ⟨hdist, hleft⟩ := Dqueue.pop_eq hrest
      rw [if_neg (by rw [Dqueue.empty_iff, hx]; exact List.cons_ne_nil _ _)]
      dsimp only
      rw [hact, hdist]
      obtain ⟨hcounted, hadjs, hqueue⟩ := counted_answer index noOfTo x d
        { s with q := s.q.pop.2.pop.2 }
      have hdone := answer_done index noOfTo x d { s with q := s.q.pop.2.pop.2 }
      have hans' : Answered index tos depth waiting
          (DistanceSearch.answer index noOfTo { s with q := s.q.pop.2.pop.2 } x d).1 :=
        Answered.answer hcols ⟨hans.row_iff, hans.reached⟩ h.lt h.nodup hd
      generalize DistanceSearch.answer index noOfTo { s with q := s.q.pop.2.pop.2 } x d = t
        at hcounted hadjs hqueue hdone hans' ⊢
      have ht : DistanceInv g mode root tag depth (x :: waiting) t.1 := h.congr hcounted hadjs
      cases hstop : t.2 with
      | true =>
        obtain ⟨hindex, hreached⟩ := hdone hstop
        rw [if_pos rfl]
        exact ⟨_, depth, x :: waiting, waiting, rfl, ht.congr rfl rfl,
          ⟨hans'.row_iff, hans'.reached⟩, Dqueue.toList_clear _,
          .inr fun v hv => hans'.done hcols hindex hreached hv⟩
      | false =>
        rw [if_neg Bool.false_ne_true]
        obtain ⟨depth', new, hinv, hans₂, hq', hunfound⟩ :=
          ht.expand hg hd (hqueue ▸ hleft) hans' (draws 0)
        refine ih _ hinv hans₂ hq' ?_
        rw [List.length_cons] at hfuel
        rw [List.length_append]
        omega

/-- The search of a row before its first pass has the root in the queue only. -/
lemma distanceInv_start (hroot : root < g.n) {i : ℕ} (hadjs : ∀ v, (s.adjs v).Perm (g.nbrs mode v))
    (htags : ∀ v, s.counted v ≤ i) :
    DistanceInv g mode root (i + 1) (rootDepth root) [root] (s.start root i) := by
  refine ⟨frontier_start _ root, List.nodup_singleton root, fun v d hv => ?_, fun v => ?_,
    fun v => ?_, hadjs⟩
  · rwa [(rootDepth_eq_some.mp hv).1]
  · have := htags v
    rw [rootDepth_ne_none, DistanceSearch.start]
    by_cases hv : v = root
    · simp [hv]
    · simp only [Function.update_of_ne hv, hv, iff_false]
      omega
  · have := htags v
    rw [DistanceSearch.start]
    by_cases hv : v = root
    · simp [hv]
    · simp only [Function.update_of_ne hv]
      omega

lemma answered_start {index : Option (ℕ → ℕ)} (tos : List ℕ) (i : ℕ) :
    Answered index tos (rootDepth root) [root] (s.start root i) := by
  refine ⟨fun c d => ⟨nofun, ?_⟩, fun _ => Eq.symm (List.countP_eq_zero.mpr fun v _ => ?_)⟩
  · rintro ⟨v, _, hv, hne⟩
    exact absurd (List.mem_singleton.mpr (rootDepth_eq_some.mp hv).1) hne
  · rw [decide_eq_true_eq, rootDepth_ne_none, List.mem_singleton]
    tauto

/-! ### The matrix -/

/-- The distance of a vertex from the root, `none` if it cannot be reached. -/
def DistanceOk (g : IgraphT) (mode : NeiMode) (root v : ℕ) (d : Option ℕ) : Prop :=
  (∀ p, Shortest (g.adj mode) root p v → d = some p.length) ∧
    ((¬ ∃ p, EdgeWalk (g.adj mode) root p v) → d = none)

lemma DistanceInv.distanceOk {index : Option (ℕ → ℕ)} {queue : List ℕ} {c : ℕ}
    (hcols : Columns g.n index noOfTo tos) (h : DistanceInv g mode root tag depth queue s)
    (hans : Answered index tos depth waiting s)
    (hend : (queue = [] ∧ waiting = []) ∨ ∀ v ∈ tos, depth v ≠ none ∧ v ∉ waiting)
    (hv : v < g.n) (hc : tos[c]? = some v) : DistanceOk g mode root v (s.row c) := by
  have hcol := (hcols.column_iff v c hv).mpr hc
  constructor
  · intro p hp
    have hfound : depth v ≠ none ∧ v ∉ waiting := by
      rcases hend with ⟨rfl, rfl⟩ | hall
      · obtain ⟨d, hd⟩ := h.frontier.found hp.1
        exact ⟨by rw [hd]; exact Option.some_ne_none d, List.not_mem_nil⟩
      · exact hall v (List.mem_of_getElem? hc)
    obtain ⟨d, hd⟩ := Option.ne_none_iff_exists'.mp hfound.1
    obtain ⟨q, hq, hlen⟩ := h.frontier.shortest hd
    rw [hans.row_iff]
    exact ⟨v, hcol, by rw [hd, ← hlen, hq.length_eq hp], hfound.2⟩
  · intro hnone
    by_contra hne
    obtain ⟨d, hd⟩ := Option.ne_none_iff_exists'.mp hne
    obtain ⟨w, hwc, hw, _⟩ := (hans.row_iff c d).mp hd
    rw [hcols.inj (h.lt w d hw) hv hwc hcol] at hw
    obtain ⟨p, hp, _⟩ := h.frontier.searched.walk v d hw
    exact hnone ⟨p, hp⟩

/-- One row after the other. -/
lemma distanceRows_ok (hg : g.Indexed) {index : Option (ℕ → ℕ)}
    (hcols : Columns g.n index noOfTo tos) (htos : ∀ v ∈ tos, v < g.n) {fuel : ℕ}
    (hfuel : g.n < fuel) {vs : List ℕ} (hvs : ∀ v ∈ vs, v < g.n) (i : ℕ) (draws : ℕ → ℕ → Rnd)
    (hadjs : ∀ v, (s.adjs v).Perm (g.nbrs mode v)) (hq : s.q.toList = [])
    (htags : ∀ v, s.counted v ≤ i) :
    ∃ rows, distanceRows index noOfTo fuel vs i draws s = .ok rows ∧
      List.Forall₂ (fun root row => List.Forall₂ (DistanceOk g mode root) tos row) vs rows := by
  induction vs generalizing i draws s with
  | nil => exact ⟨[], rfl, .nil⟩
  | cons root vs ih =>
    rw [List.forall_mem_cons] at hvs
    have hunfound : unfoundOf g.n (rootDepth root) + 1 = g.n := unfoundOf_start hvs.1
    have hstart : (s.start root i).q.toList = labelled (rootDepth root) [root] :=
      toList_pushVertex (hq.trans rfl : _ = labelled (rootDepth root) [])
        (rootDepth_eq_some.mpr ⟨rfl, rfl⟩)
    obtain ⟨s', depth, queue, waiting, hrun, hinv, hans, hq', hend⟩ :=
      (distanceInv_start hvs.1 hadjs htags).run hg hcols (draws 0) (answered_start tos i) hstart
        (show _ < fuel by rw [List.length_singleton]; omega)
    obtain ⟨rows, hrows, hall⟩ := ih hvs.2 (i + 1) (fun n => draws (n + 1)) hinv.adjs hq' hinv.tags
    refine ⟨(List.range noOfTo).map s'.row :: rows, ?_, .cons ?_ hall⟩
    · rw [distanceRows, hrun]
      dsimp only
      rw [hrows]
      rfl
    · rw [List.forall₂_iff_get]
      refine ⟨by simp [hcols.length_eq], fun c hc _ => ?_⟩
      rw [List.get_eq_getElem, List.get_eq_getElem, List.getElem_map, List.getElem_range]
      exact hinv.distanceOk hcols hans hend (htos _ (List.getElem_mem hc))
        (List.getElem?_eq_getElem hc)

lemma distanceOk_modeOf : DistanceOk g (g.modeOf mode) = DistanceOk g mode := by
  unfold DistanceOk
  rw [adj_modeOf]

lemma isIndex_nil : IsIndex (fun _ => 0) [] := by
  intro v c
  simp

lemma shortestPaths_ok (hg : g.Indexed) {vs : List ℕ} (hvs : ∀ v ∈ vs, v < g.n)
    {tos : Option (List ℕ)} (htos : ∀ ts, tos = some ts → ∀ v ∈ ts, v < g.n) (mode : NeiMode)
    {fuel : ℕ} (hfuel : g.n < fuel) (draws : ℕ → ℕ → Rnd)
    (hnodup : (tos.getD (List.range g.n)).Nodup) :
    ∃ rows, g.shortestPaths fuel draws (ids vs) (tos.map ids) mode = .ok rows ∧
      List.Forall₂ (fun root row =>
        List.Forall₂ (DistanceOk g mode root) (tos.getD (List.range g.n)) row) vs rows := by
  unfold shortestPaths
  rw [if_neg (by rw [isInInterval_ids hvs]; exact Bool.false_ne_true), toNat_ids,
    ← distanceOk_modeOf]
  have hadjs : ∀ v, (g.adjlistInit mode v).Perm (g.nbrs (g.modeOf mode) v) :=
    fun v => List.Perm.refl _
  cases tos with
  | none =>
    exact distanceRows_ok hg (columns_all g.n) (fun v hv => List.mem_range.mp hv) hfuel hvs 0 draws
      hadjs (Dqueue.toList_init 100) (fun _ => Nat.le_refl 0)
  | some ts =>
    have hts := htos ts rfl
    have hlen : (ids ts).length = ts.length := List.length_map ..
    obtain ⟨index, he, hindex⟩ := indexOf_ok isIndex_nil (show ([] ++ ts).Nodup from hnodup)
    rw [List.length_nil] at he
    dsimp only [Option.map_some, Option.getD_some]
    rw [if_neg (by rw [isInInterval_ids hts]; exact Bool.false_ne_true), toNat_ids, he, hlen]
    exact distanceRows_ok hg (hindex.columns hnodup g.n) hts hfuel hvs 0 draws hadjs
      (Dqueue.toList_init 100) (fun _ => Nat.le_refl 0)

lemma shortestPaths_error {vs : List ℕ} (hvs : ∀ v ∈ vs, v < g.n) {tos : Option (List ℕ)}
    (htos : ∀ ts, tos = some ts → ∀ v ∈ ts, v < g.n) (mode : NeiMode) (fuel : ℕ)
    (draws : ℕ → ℕ → Rnd) (hdup : ¬ (tos.getD (List.range g.n)).Nodup) :
    g.shortestPaths fuel draws (ids vs) (tos.map ids) mode =
      .error (.error "Duplicate vertices in `to', this is not allowed" .einval) := by
  cases tos with
  | none => exact absurd List.nodup_range hdup
  | some ts =>
    have he := indexOf_error isIndex_nil List.nodup_nil (show ¬ ([] ++ ts).Nodup from hdup)
    rw [List.length_nil] at he
    unfold shortestPaths
    rw [if_neg (by rw [isInInterval_ids hvs]; exact Bool.false_ne_true)]
    dsimp only [Option.map_some]
    rw [if_neg (by rw [isInInterval_ids (htos ts rfl)]; exact Bool.false_ne_true), toNat_ids, he]

/-- For any order of the neighbours, every search ends and each row of the matrix has the
distances of the wanted vertices from the vertex of the row, infinity for those that cannot be
reached. A vertex must not be wanted twice. -/
theorem shortestPaths_distances (hg : g.Indexed) {vs : List ℕ} (hvs : ∀ v ∈ vs, v < g.n)
    {tos : Option (List ℕ)} (htos : ∀ ts, tos = some ts → ∀ v ∈ ts, v < g.n) (mode : NeiMode)
    {fuel : ℕ} (hfuel : g.n < fuel) (draws : ℕ → ℕ → Rnd) :
    ((tos.getD (List.range g.n)).Nodup →
      ∃ rows, g.shortestPaths fuel draws (ids vs) (tos.map ids) mode = .ok rows ∧
        List.Forall₂ (fun root row =>
          List.Forall₂ (DistanceOk g mode root) (tos.getD (List.range g.n)) row) vs rows) ∧
    (¬ (tos.getD (List.range g.n)).Nodup →
      g.shortestPaths fuel draws (ids vs) (tos.map ids) mode =
        .error (.error "Duplicate vertices in `to', this is not allowed" .einval)) :=
  ⟨shortestPaths_ok hg hvs htos mode hfuel draws, shortestPaths_error hvs htos mode fuel draws⟩

theorem shortestPaths_distances_ring :
    ∃ rows, ring.shortestPaths 5 (fun _ _ _ => 0) (ids [0, 1]) ((some [3, 2]).map ids) .outgoing =
        .ok rows ∧
      List.Forall₂ (fun root row => List.Forall₂ (DistanceOk ring .outgoing root) [3, 2] row)
        [0, 1] rows := by
  have hwanted : ∀ ts, some [3, 2] = some ts → ∀ v ∈ ts, v < ring.n := by
    intro ts hts
    rw [← Option.some.inj hts]
    decide
  exact (shortestPaths_distances indexed_ring (by decide) hwanted .outgoing (by decide)
    (fun _ _ _ => 0)).1 (by decide)

end IgraphT

end ResSim
