import ResSim.Igraph.EdgeList

/-!
# Edits of an igraph graph

The index that belongs to the two columns is an invariant of every edit. With it
`igraph_incident` and `igraph_neighbors` answer for a multigraph, a plain list of edges, that
has gone through the same edits.
-/

namespace ResSim

/-- The edges in the order of one of their ends, and where those of each vertex start. -/
structure IndexedBy (key key₂ : ℕ → ℕ) (ecount n : ℕ) (index start : List ℕ) : Prop where
  perm : index.Perm (List.range ecount)
  order : index.Pairwise (fun e f => key e < key f ∨ key e = key f ∧
    (key₂ e < key₂ f ∨ key₂ e = key₂ f ∧ f < e))
  start_eq : start = starts key index (n + 1)

variable {key key₂ : ℕ → ℕ} {ecount n v : ℕ} {index start : List ℕ}

lemma IndexedBy.keySorted (h : IndexedBy key key₂ ecount n index start) : KeySorted key index := by
  refine h.order.imp fun hef => ?_
  omega

lemma slice_eq {xs : List ℕ} {i j : ℕ} (hj : j ≤ xs.length) :
    IgraphT.slice xs i j = (xs.drop i).take (j - i) := by
  unfold IgraphT.slice
  apply List.ext_getElem
  · simp only [List.length_map, List.length_range', List.length_take, List.length_drop]
    omega
  · intro k hk hk'
    rw [List.length_map, List.length_range'] at hk
    rw [List.getElem_map, List.getElem_range', List.getElem_take, List.getElem_drop, Nat.one_mul,
      List.getD_eq_getElem _ _ (by omega)]

/-- The index finds the edges of a vertex. -/
lemma IndexedBy.slice (h : IndexedBy key key₂ ecount n index start) (hv : v < n) :
    IgraphT.slice index (start.getD v 0) (start.getD (v + 1) 0) =
      index.filter (fun e => key e = v) := by
  rw [h.start_eq, getD_starts (by omega), getD_starts (by omega),
    slice_eq List.countP_le_length, h.keySorted.slice]

/-- The edges of a vertex come in the order of their other ends. -/
lemma IndexedBy.filter_pairwise (h : IndexedBy key key₂ ecount n index start) (v : ℕ) :
    ((index.filter (fun e => key e = v)).map key₂).Pairwise (· ≤ ·) := by
  rw [List.pairwise_map]
  refine (List.Pairwise.and_mem.mp (h.order.filter _)).imp ?_
  rintro e f ⟨he, hf, hef⟩
  have he' : key e = v := by simpa using (List.mem_filter.mp he).2
  have hf' : key f = v := by simpa using (List.mem_filter.mp hf).2
  omega

/-- New vertices have no edges. -/
lemma IndexedBy.addVertices (h : IndexedBy key key₂ ecount n index start)
    (hkey : ∀ e < ecount, key e < n) (nv : ℕ) :
    IndexedBy key key₂ ecount (n + nv) index (start ++ List.replicate nv ecount) := by
  refine ⟨h.perm, h.order, ?_⟩
  have happend := starts_append key index (n + 1) (n + nv + 1) ecount (by omega) (by
      intro v hv _
      rw [← List.length_range (n := ecount), ← h.perm.length_eq, List.countP_eq_length]
      intro e he
      have := hkey e (List.mem_range.mp (h.perm.mem_iff.mp he))
      simp only [decide_eq_true_eq]
      omega)
  rw [h.start_eq, ← happend]
  congr 2
  omega

/-- The order that is computed anew is an index. -/
lemma indexedBy_orderOf {el el₂ : List ℕ} (h : ∀ x ∈ el, x < n) (h₂ : ∀ x ∈ el₂, x < n) :
    IndexedBy (fun e => el.getD e 0) (fun e => el₂.getD e 0) el.length n (orderOf el el₂ n)
      (createStart el (orderOf el el₂ n) n) := by
  have hperm := orderOf_perm h h₂
  refine ⟨hperm, orderOf_pairwise el el₂ n, createStart_eq ?_ (orderOf_keySorted el el₂ n) ?_⟩
  · rw [hperm.length_eq, List.length_range]
  · intro e he
    have hlt := List.mem_range.mp (hperm.mem_iff.mp he)
    rw [List.getD_eq_getElem _ _ hlt]
    exact h _ (List.getElem_mem hlt)

namespace IgraphT

/-- The invariant of a graph: the columns name vertices, an undirected edge has its larger end
first, and both columns are indexed. -/
structure Indexed (g : IgraphT) : Prop where
  length_eq : g.fromCol.length = g.toCol.length
  from_lt : ∀ x ∈ g.fromCol, x < g.n
  to_lt : ∀ x ∈ g.toCol, x < g.n
  larger_first : g.directed = false → ∀ e, g.target e ≤ g.source e
  out : IndexedBy g.source g.target g.ecount g.n g.oi g.os
  inc : IndexedBy g.target g.source g.ecount g.n g.ii g.is

variable {g g' : IgraphT} {e : ℕ}

lemma Indexed.source_lt (h : g.Indexed) (he : e < g.ecount) : g.source e < g.n := by
  unfold source
  rw [List.getD_eq_getElem _ _ he]
  exact h.from_lt _ (List.getElem_mem he)

lemma Indexed.target_lt (h : g.Indexed) (he : e < g.ecount) : g.target e < g.n := by
  have he' : e < g.toCol.length := h.length_eq ▸ he
  unfold target
  rw [List.getD_eq_getElem _ _ he']
  exact h.to_lt _ (List.getElem_mem he')

lemma Indexed.addVertices (h : g.Indexed) (nv : ℕ) :
    Indexed { g with
      n := g.n + nv
      os := g.os ++ List.replicate nv g.ecount
      is := g.is ++ List.replicate nv g.ecount } :=
  ⟨h.length_eq, fun x hx => (h.from_lt x hx).trans_le (Nat.le_add_right ..),
    fun x hx => (h.to_lt x hx).trans_le (Nat.le_add_right ..), h.larger_first,
    h.out.addVertices (fun _ he => h.source_lt he) nv,
    h.inc.addVertices (fun _ he => h.target_lt he) nv⟩

/-! ### The multigraph that a graph stands for -/

/-- A number of vertices and a list of edges. -/
structure Multigraph where
  n : ℕ
  directed : Bool
  edges : List (ℕ × ℕ)
  deriving DecidableEq

/-- The pairs of an edge vector; the larger end of an undirected edge comes first. -/
def pairsOf (directed : Bool) : List ℕ → List (ℕ × ℕ)
  | a :: b :: rest => (if directed || b < a then (a, b) else (b, a)) :: pairsOf directed rest
  | _ => []

/-- An edit of a graph. -/
inductive Edit where
  | addVertices (nv : ℤ)
  | addEdges (edges : List ℤ)
  | deleteEdges (edges : List ℤ)

/-- Makes an edit. -/
def edit (g : IgraphT) : Edit → Except Fault IgraphT
  | .addVertices nv => g.addVertices nv
  | .addEdges edges => g.addEdges edges
  | .deleteEdges edges => g.deleteEdges edges

/-- Makes edits one after the other; one that reports an error leaves the graph as it is. -/
def edits : IgraphT → List Edit → IgraphT
  | g, [] => g
  | g, c :: cs =>
    match g.edit c with
    | .ok g' => edits g' cs
    | .error _ => edits g cs

/-- An edit of a multigraph. One that does not fit the multigraph changes nothing. -/
def Multigraph.edit (m : Multigraph) : Edit → Multigraph
  | .addVertices nv => { m with n := m.n + nv.toNat }
  | .addEdges edges =>
    if edges.length % 2 = 0 ∧ ∀ x ∈ edges, 0 ≤ x ∧ x < m.n then
      { m with edges := m.edges ++ pairsOf m.directed (edges.map Int.toNat) }
    else m
  | .deleteEdges edges =>
    if ∀ e ∈ edges, 0 ≤ e ∧ e < m.edges.length then
      { m with
        edges := ((List.range m.edges.length).filter (fun e : ℕ => (e : ℤ) ∉ edges)).map
          (fun e => m.edges.getD e (0, 0)) }
    else m

/-- The edges with one end, in the direction of the mode, at a vertex. -/
def Multigraph.incident (m : Multigraph) (v : ℕ) (mode : NeiMode) : List ℕ :=
  (if !m.directed || mode.hasOut then
    (List.range m.edges.length).filter (fun e => (m.edges.getD e (0, 0)).1 = v) else []) ++
  (if !m.directed || mode.hasIn then
    (List.range m.edges.length).filter (fun e => (m.edges.getD e (0, 0)).2 = v) else [])

/-- The other ends of these edges. -/
def Multigraph.neighbors (m : Multigraph) (v : ℕ) (mode : NeiMode) : List ℕ :=
  (if !m.directed || mode.hasOut then
    (m.edges.filter (fun a => a.1 = v)).map Prod.snd else []) ++
  (if !m.directed || mode.hasIn then
    (m.edges.filter (fun a => a.2 = v)).map Prod.fst else [])

/-- The multigraph of a graph. -/
def toMultigraph (g : IgraphT) : Multigraph := ⟨g.n, g.directed, g.fromCol.zip g.toCol⟩

lemma isInInterval_iff {xs : List ℤ} {high : ℤ} :
    isInInterval xs 0 (high - 1) = true ↔ ∀ x ∈ xs, 0 ≤ x ∧ x < high := by
  simp only [isInInterval, List.all_eq_true, decide_eq_true_eq, Int.le_sub_one_iff]

/-- The edges of a multigraph are between its vertices, the larger end first where they have no
direction. -/
structure Multigraph.Fits (m : Multigraph) : Prop where
  fst_lt : ∀ a ∈ m.edges, a.1 < m.n
  snd_lt : ∀ a ∈ m.edges, a.2 < m.n
  larger_first : m.directed = false → ∀ a ∈ m.edges, a.2 ≤ a.1

lemma Indexed.map_fst (h : g.Indexed) : g.toMultigraph.edges.map Prod.fst = g.fromCol :=
  List.map_fst_zip (Nat.le_of_eq h.length_eq)

lemma Indexed.map_snd (h : g.Indexed) : g.toMultigraph.edges.map Prod.snd = g.toCol :=
  List.map_snd_zip (Nat.le_of_eq h.length_eq.symm)

lemma Indexed.length_edges (h : g.Indexed) : g.toMultigraph.edges.length = g.ecount := by
  rw [← List.length_map Prod.fst, h.map_fst, ecount]

lemma Indexed.getD_edges (h : g.Indexed) (e : ℕ) :
    g.toMultigraph.edges.getD e (0, 0) = (g.source e, g.target e) := by
  rw [source, target, ← h.map_fst, ← h.map_snd]
  exact Prod.ext (List.getD_map ..).symm (List.getD_map ..).symm

lemma Indexed.fits (h : g.Indexed) : g.toMultigraph.Fits := by
  refine ⟨fun a ha => ?_, fun a ha => ?_, fun hd a ha => ?_⟩
  · exact h.from_lt a.1 (h.map_fst ▸ List.mem_map_of_mem ha)
  · exact h.to_lt a.2 (h.map_snd ▸ List.mem_map_of_mem ha)
  · obtain ⟨e, he, rfl⟩ := List.getElem_of_mem ha
    rw [← List.getD_eq_getElem _ (0, 0) he, h.getD_edges]
    exact h.larger_first hd e

/-- Columns that name vertices get an index, whatever the graph was. -/
lemma reindex_eq {edges : List (ℕ × ℕ)} (h : (Multigraph.mk g.n g.directed edges).Fits) :
    ∃ g', g.reindex (edges.map Prod.fst, edges.map Prod.snd) = .ok g' ∧ g'.Indexed ∧
      g'.toMultigraph = ⟨g.n, g.directed, edges⟩ := by
  have hfrom : ∀ x ∈ edges.map Prod.fst, x < g.n := List.forall_mem_map.mpr h.fst_lt
  have hto : ∀ x ∈ edges.map Prod.snd, x < g.n := List.forall_mem_map.mpr h.snd_lt
  have hzip : (edges.map Prod.fst).zip (edges.map Prod.snd) = edges := by
    rw [List.zip_map', List.map_id']
  refine ⟨{ g with
    fromCol := edges.map Prod.fst
    toCol := edges.map Prod.snd
    oi := orderOf (edges.map Prod.fst) (edges.map Prod.snd) g.n
    ii := orderOf (edges.map Prod.snd) (edges.map Prod.fst) g.n
    os := createStart (edges.map Prod.fst)
      (orderOf (edges.map Prod.fst) (edges.map Prod.snd) g.n) g.n
    is := createStart (edges.map Prod.snd)
      (orderOf (edges.map Prod.snd) (edges.map Prod.fst) g.n) g.n }, ?_, ?_, ?_⟩
  · simp only [reindex, vectorOrder_eq hto, vectorOrder_eq hfrom]
  · refine ⟨by simp, hfrom, hto, fun hd e => ?_, indexedBy_orderOf hfrom hto, ?_⟩
    · change (edges.map Prod.snd).getD e 0 ≤ (edges.map Prod.fst).getD e 0
      rcases Nat.lt_or_ge e edges.length with he | he
      · rw [List.getD_eq_getElem _ _ (by simpa), List.getD_eq_getElem _ _ (by simpa),
          List.getElem_map, List.getElem_map]
        exact h.larger_first hd _ (List.getElem_mem he)
      · rw [List.getD_eq_default _ _ (by simpa)]
        exact Nat.zero_le _
    · have hinc := indexedBy_orderOf hto hfrom
      rwa [show (edges.map Prod.snd).length = (edges.map Prod.fst).length by simp] at hinc
  · simp only [toMultigraph, hzip]

lemma pushEdges_eq (directed : Bool) (es : List ℕ) (cols : List ℕ × List ℕ) :
    pushEdges directed es cols = (cols.1 ++ (pairsOf directed es).map Prod.fst,
      cols.2 ++ (pairsOf directed es).map Prod.snd) := by
  induction es using pairsOf.induct generalizing cols with
  | case1 a b rest ih =>
    rw [pushEdges, pairsOf]
    split <;> simp [ih]
  | case2 es h =>
    match es with
    | [] => simp [pushEdges, pairsOf]
    | [a] => simp [pushEdges, pairsOf]
    | a :: b :: rest => exact absurd rfl (h a b rest)

lemma mem_pairsOf {directed : Bool} {es : List ℕ} {a : ℕ × ℕ} (h : a ∈ pairsOf directed es) :
    a.1 ∈ es ∧ a.2 ∈ es ∧ (directed = false → a.2 ≤ a.1) := by
  induction es using pairsOf.induct with
  | case1 x y rest ih =>
    rw [pairsOf, List.mem_cons] at h
    rcases h with rfl | h
    · split
      · rename_i hor
        refine ⟨by simp, by simp, fun hd => ?_⟩
        simp only [hd, Bool.false_or, decide_eq_true_eq] at hor
        exact Nat.le_of_lt hor
      · rename_i hor
        refine ⟨by simp, by simp, fun hd => ?_⟩
        simp only [hd, Bool.false_or, decide_eq_true_eq] at hor
        exact Nat.le_of_not_lt hor
    · obtain ⟨h₁, h₂, h₃⟩ := ih h
      exact ⟨List.mem_cons_of_mem _ (List.mem_cons_of_mem _ h₁),
        List.mem_cons_of_mem _ (List.mem_cons_of_mem _ h₂), h₃⟩
  | case2 es hes =>
    match es with
    | [] => simp [pairsOf] at h
    | [a] => simp [pairsOf] at h
    | a :: b :: rest => exact absurd rfl (hes a b rest)

lemma Multigraph.Fits.append {m : Multigraph} {edges : List (ℕ × ℕ)} (h : m.Fits)
    (hn : ∀ a ∈ edges, a.1 < m.n ∧ a.2 < m.n)
    (hlarger : m.directed = false → ∀ a ∈ edges, a.2 ≤ a.1) :
    (Multigraph.mk m.n m.directed (m.edges ++ edges)).Fits := by
  refine ⟨fun a ha => ?_, fun a ha => ?_, fun hd a ha => ?_⟩ <;>
    rcases List.mem_append.mp ha with ha | ha
  · exact h.fst_lt a ha
  · exact (hn a ha).1
  · exact h.snd_lt a ha
  · exact (hn a ha).2
  · exact h.larger_first hd a ha
  · exact hlarger hd a ha

lemma Multigraph.Fits.filter {m : Multigraph} (h : m.Fits) (p : ℕ → Bool) :
    (Multigraph.mk m.n m.directed (((List.range m.edges.length).filter p).map
      (fun e => m.edges.getD e (0, 0)))).Fits := by
  have hmem : ∀ a ∈ ((List.range m.edges.length).filter p).map
      (fun e => m.edges.getD e (0, 0)), a ∈ m.edges := by
    intro a ha
    obtain ⟨e, he, rfl⟩ := List.mem_map.mp ha
    have hlt := List.mem_range.mp (List.mem_of_mem_filter he)
    rw [List.getD_eq_getElem _ _ hlt]
    exact List.getElem_mem hlt
  exact ⟨fun a ha => h.fst_lt a (hmem a ha), fun a ha => h.snd_lt a (hmem a ha),
    fun hd a ha => h.larger_first hd a (hmem a ha)⟩

/-- What an edit does to a graph: it keeps the index and edits the multigraph, or it reports an
error and the edit does not fit. -/
def EditOk (g : IgraphT) (c : Edit) : Prop :=
  (∃ g', g.edit c = .ok g' ∧ g'.Indexed ∧ g'.toMultigraph = g.toMultigraph.edit c) ∨
    ((∃ reason errno, g.edit c = .error (.error reason errno)) ∧
      g.toMultigraph.edit c = g.toMultigraph)

lemma editOk_addVertices (h : g.Indexed) (nv : ℤ) : g.EditOk (.addVertices nv) := by
  by_cases hnv : nv < 0
  · right
    refine ⟨⟨_, _, by rw [edit, IgraphT.addVertices, if_pos hnv]⟩, ?_⟩
    rw [Multigraph.edit, Int.toNat_of_nonpos (by omega)]
    rfl
  · left
    exact ⟨_, by rw [edit, IgraphT.addVertices, if_neg hnv], h.addVertices nv.toNat, rfl⟩

lemma editOk_addEdges (h : g.Indexed) (edges : List ℤ) : g.EditOk (.addEdges edges) := by
  by_cases hodd : edges.length % 2 = 0
  · by_cases hin : ∀ x ∈ edges, 0 ≤ x ∧ x < (g.n : ℤ)
    · left
      have hpair : ∀ a ∈ pairsOf g.directed (edges.map Int.toNat), a.1 < g.n ∧ a.2 < g.n := by
        intro a ha
        obtain ⟨h₁, h₂, _⟩ := mem_pairsOf ha
        obtain ⟨x, hx, hx'⟩ := List.mem_map.mp h₁
        obtain ⟨y, hy, hy'⟩ := List.mem_map.mp h₂
        have := hin x hx
        have := hin y hy
        omega
      obtain ⟨g', he, hg', habs⟩ := reindex_eq
        (h.fits.append hpair (fun hd a ha => (mem_pairsOf ha).2.2 hd))
      rw [List.map_append, List.map_append, h.map_fst, h.map_snd] at he
      refine ⟨g', ?_, hg', ?_⟩
      · rw [edit, addEdges, if_neg (by omega), if_neg (by rw [isInInterval_iff.mpr hin]; simp),
          pushEdges_eq, he]
      · rw [habs, Multigraph.edit, if_pos ⟨hodd, hin⟩]
        rfl
    · right
      refine ⟨⟨"cannot add edges", .einvvid, ?_⟩, ?_⟩
      · rw [edit, addEdges, if_neg (by omega), if_pos]
        rw [Bool.not_eq_true', ← Bool.not_eq_true, isInInterval_iff]
        exact hin
      · rw [Multigraph.edit, if_neg]
        exact fun hc => hin hc.2
  · right
    refine ⟨⟨_, _, by rw [edit, addEdges, if_pos (by omega)]⟩, ?_⟩
    rw [Multigraph.edit, if_neg]
    exact fun hc => hodd hc.1

lemma unmarked_map (mark : List ℤ) (ps : List (ℕ × ℕ)) (f : ℕ × ℕ → ℕ) (hf : f (0, 0) = 0) :
    unmarked mark (ps.map f) = (((List.range ps.length).filter (fun e : ℕ => (e : ℤ) ∉ mark)).map
      (fun e => ps.getD e (0, 0))).map f := by
  rw [unmarked, List.length_map, List.map_map]
  apply List.map_congr_left
  intro e _
  rw [Function.comp_apply, ← List.getD_map ps (0, 0) f, hf]

lemma editOk_deleteEdges (h : g.Indexed) (edges : List ℤ) : g.EditOk (.deleteEdges edges) := by
  by_cases hin : ∀ x ∈ edges, 0 ≤ x ∧ x < (g.ecount : ℤ)
  · left
    obtain ⟨g', he, hg', habs⟩ := reindex_eq (h.fits.filter (fun e => decide ((e : ℤ) ∉ edges)))
    rw [← unmarked_map _ _ _ rfl, ← unmarked_map _ _ _ rfl, h.map_fst, h.map_snd] at he
    refine ⟨g', ?_, hg', ?_⟩
    · rw [edit, deleteEdges, if_neg (by rw [isInInterval_iff.mpr hin]; simp), he]
    · rw [habs, Multigraph.edit, if_pos (by rw [h.length_edges]; exact hin)]
      rfl
  · right
    refine ⟨⟨"Cannot create iterator, invalid edge id", .einvvid, ?_⟩, ?_⟩
    · rw [edit, deleteEdges, if_pos]
      rw [Bool.not_eq_true', ← Bool.not_eq_true, isInInterval_iff]
      exact hin
    · rw [Multigraph.edit, if_neg (by rw [h.length_edges]; exact hin)]

lemma editOk (h : g.Indexed) (c : Edit) : g.EditOk c := by
  cases c with
  | addVertices nv => exact editOk_addVertices h nv
  | addEdges edges => exact editOk_addEdges h edges
  | deleteEdges edges => exact editOk_deleteEdges h edges

/-- Every run of edits keeps the index and edits the multigraph. -/
lemma edits_spec (h : g.Indexed) (cs : List Edit) :
    (g.edits cs).Indexed ∧ (g.edits cs).toMultigraph = cs.foldl Multigraph.edit g.toMultigraph := by
  induction cs generalizing g with
  | nil => exact ⟨h, rfl⟩
  | cons c cs ih =>
    rw [edits, List.foldl_cons]
    rcases editOk h c with ⟨g', he, hg', habs⟩ | ⟨⟨reason, errno, he⟩, habs⟩
    · rw [he, ← habs]
      exact ih hg'
    · rw [he, habs]
      exact ih h

lemma indexedBy_nil (key key₂ : ℕ → ℕ) : IndexedBy key key₂ 0 0 [] [0] :=
  ⟨.refl _, .nil, rfl⟩

lemma empty_eq {n : ℤ} (hn : 0 ≤ n) (directed : Bool) :
    ∃ g, empty n directed = .ok g ∧ g.Indexed ∧ g.toMultigraph = ⟨n.toNat, directed, []⟩ := by
  have hnil : Indexed ⟨0, directed, [], [], [], [], [0], [0]⟩ :=
    ⟨rfl, nofun, nofun, fun _ _ => le_rfl, indexedBy_nil _ _, indexedBy_nil _ _⟩
  have hok := hnil.addVertices n.toNat
  refine ⟨_, by rw [empty, if_neg (by omega), IgraphT.addVertices, if_neg (by omega)], hok, ?_⟩
  simp only [toMultigraph, Nat.zero_add, List.zip_nil_left]

/-! ### What the index answers -/

lemma hasOut_modeOf (g : IgraphT) (mode : NeiMode) :
    (g.modeOf mode).hasOut = (!g.directed || mode.hasOut) := by
  unfold modeOf
  cases g.directed <;> simp [NeiMode.hasOut]

lemma hasIn_modeOf (g : IgraphT) (mode : NeiMode) :
    (g.modeOf mode).hasIn = (!g.directed || mode.hasIn) := by
  unfold modeOf
  cases g.directed <;> simp [NeiMode.hasIn]

lemma Indexed.outEdges_eq (h : g.Indexed) (hv : v < g.n) :
    g.outEdges v = g.oi.filter (fun e => g.source e = v) :=
  h.out.slice hv

lemma Indexed.inEdges_eq (h : g.Indexed) (hv : v < g.n) :
    g.inEdges v = g.ii.filter (fun e => g.target e = v) :=
  h.inc.slice hv

lemma Indexed.outEdges_perm (h : g.Indexed) (hv : v < g.n) :
    (g.outEdges v).Perm ((List.range g.toMultigraph.edges.length).filter
      (fun e => (g.toMultigraph.edges.getD e (0, 0)).1 = v)) := by
  simp only [h.outEdges_eq hv, h.length_edges, h.getD_edges]
  exact h.out.perm.filter _

lemma Indexed.inEdges_perm (h : g.Indexed) (hv : v < g.n) :
    (g.inEdges v).Perm ((List.range g.toMultigraph.edges.length).filter
      (fun e => (g.toMultigraph.edges.getD e (0, 0)).2 = v)) := by
  simp only [h.inEdges_eq hv, h.length_edges, h.getD_edges]
  exact h.inc.perm.filter _

/-- The edges of a vertex are found, each as often as it has the vertex as an end. -/
lemma Indexed.incident_eq (h : g.Indexed) (hv : v < g.n) (mode : NeiMode) :
    ∃ es, g.incident v mode = .ok es ∧ es.Perm (g.toMultigraph.incident v mode) := by
  refine ⟨_, by rw [incident, if_neg (by omega)], ?_⟩
  rw [hasOut_modeOf, hasIn_modeOf]
  apply List.Perm.append
  · split
    · rw [if_pos (by assumption)]
      exact h.outEdges_perm hv
    · rw [if_neg (by assumption)]
  · split
    · rw [if_pos (by assumption)]
      exact h.inEdges_perm hv
    · rw [if_neg (by assumption)]

lemma map_filter_range (edges : List (ℕ × ℕ)) (p : ℕ × ℕ → Bool) (f : ℕ × ℕ → ℕ) :
    ((List.range edges.length).filter (fun e => p (edges.getD e (0, 0)))).map
      (fun e => f (edges.getD e (0, 0))) = (edges.filter p).map f := by
  have hedges : (List.range edges.length).map (fun e => edges.getD e (0, 0)) = edges := by
    apply List.ext_getElem
    · simp
    · intro i hi hi'
      rw [List.getElem_map, List.getElem_range, List.getD_eq_getElem _ _ hi']
  conv_rhs => rw [← hedges, List.filter_map, List.map_map]
  rfl

lemma Indexed.map_outEdges (h : g.Indexed) (hv : v < g.n) :
    ((g.outEdges v).map g.target).Perm
      ((g.toMultigraph.edges.filter (fun a => a.1 = v)).map Prod.snd) := by
  rw [← map_filter_range]
  refine List.Perm.trans (List.Perm.of_eq ?_) ((h.outEdges_perm hv).map _)
  simp only [h.getD_edges]

lemma Indexed.map_inEdges (h : g.Indexed) (hv : v < g.n) :
    ((g.inEdges v).map g.source).Perm
      ((g.toMultigraph.edges.filter (fun a => a.2 = v)).map Prod.fst) := by
  rw [← map_filter_range]
  refine List.Perm.trans (List.Perm.of_eq ?_) ((h.inEdges_perm hv).map _)
  simp only [h.getD_edges]

lemma Indexed.outEdges_sorted (h : g.Indexed) (hv : v < g.n) :
    ((g.outEdges v).map g.target).Pairwise (· ≤ ·) := by
  rw [h.outEdges_eq hv]
  exact h.out.filter_pairwise v

lemma Indexed.inEdges_sorted (h : g.Indexed) (hv : v < g.n) :
    ((g.inEdges v).map g.source).Pairwise (· ≤ ·) := by
  rw [h.inEdges_eq hv]
  exact h.inc.filter_pairwise v

lemma mergeNeis_perm (v₁ v₂ : List ℕ) : (mergeNeis v₁ v₂).Perm (v₁ ++ v₂) := by
  fun_induction mergeNeis v₁ v₂ with
  | case1 n₁ v₁ n₂ v₂ _ ih => exact ih.cons n₁
  | case2 n₁ v₁ n₂ v₂ _ _ ih => exact (ih.cons n₂).trans List.perm_middle.symm
  | case3 n₁ v₁ n₂ v₂ _ _ ih => exact ((ih.cons n₂).trans List.perm_middle.symm).cons n₁
  | case4 => exact .refl _
  | case5 => simp

lemma mergeNeis_sorted {v₁ v₂ : List ℕ} (h₁ : v₁.Pairwise (· ≤ ·)) (h₂ : v₂.Pairwise (· ≤ ·)) :
    (mergeNeis v₁ v₂).Pairwise (· ≤ ·) := by
  have hmem : ∀ {v₁ v₂ : List ℕ} {m : ℕ}, (∀ x ∈ v₁, m ≤ x) → (∀ x ∈ v₂, m ≤ x) →
      ∀ x ∈ mergeNeis v₁ v₂, m ≤ x := by
    intro v₁ v₂ m hm₁ hm₂ x hx
    exact (List.mem_append.mp ((mergeNeis_perm v₁ v₂).mem_iff.mp hx)).elim (hm₁ x) (hm₂ x)
  fun_induction mergeNeis v₁ v₂ with
  | case1 n₁ v₁ n₂ v₂ hlt ih =>
    obtain ⟨hn₁, hv₁⟩ := List.pairwise_cons.mp h₁
    refine List.pairwise_cons.mpr ⟨hmem hn₁ (List.forall_mem_cons.mpr ⟨by omega, ?_⟩), ih hv₁ h₂⟩
    exact fun x hx => (Nat.le_of_lt hlt).trans ((List.pairwise_cons.mp h₂).1 x hx)
  | case2 n₁ v₁ n₂ v₂ _ hlt ih =>
    obtain ⟨hn₂, hv₂⟩ := List.pairwise_cons.mp h₂
    refine List.pairwise_cons.mpr ⟨hmem (List.forall_mem_cons.mpr ⟨by omega, ?_⟩) hn₂, ih h₁ hv₂⟩
    exact fun x hx => (Nat.le_of_lt hlt).trans ((List.pairwise_cons.mp h₁).1 x hx)
  | case3 n₁ v₁ n₂ v₂ hge hle ih =>
    obtain ⟨hn₁, hv₁⟩ := List.pairwise_cons.mp h₁
    obtain ⟨hn₂, hv₂⟩ := List.pairwise_cons.mp h₂
    obtain rfl : n₁ = n₂ := by omega
    exact List.pairwise_cons.mpr ⟨List.forall_mem_cons.mpr ⟨le_rfl, hmem hn₁ hn₂⟩,
      List.pairwise_cons.mpr ⟨hmem hn₁ hn₂, ih hv₁ hv₂⟩⟩
  | case4 => exact h₂
  | case5 => exact h₁

/-- The larger end of an undirected edge comes first, so the vertices found through the first
ends are no larger than `v` and those found through the second ends no smaller. -/
lemma Indexed.undirected_sorted (h : g.Indexed) (hv : v < g.n) (hd : g.directed = false) :
    ((g.outEdges v).map g.target ++ (g.inEdges v).map g.source).Pairwise (· ≤ ·) := by
  refine List.pairwise_append.mpr ⟨h.outEdges_sorted hv, h.inEdges_sorted hv, ?_⟩
  intro x hx y hy
  rw [h.outEdges_eq hv] at hx
  rw [h.inEdges_eq hv] at hy
  obtain ⟨e, he, rfl⟩ := List.mem_map.mp hx
  obtain ⟨f, hf, rfl⟩ := List.mem_map.mp hy
  have hsource : g.source e = v := by simpa using (List.mem_filter.mp he).2
  have htarget : g.target f = v := by simpa using (List.mem_filter.mp hf).2
  have := h.larger_first hd e
  have := h.larger_first hd f
  omega

/-- The neighbours of a vertex come in increasing order, one for each of its edges. -/
lemma Indexed.neighbors_eq (h : g.Indexed) (hv : v < g.n) (mode : NeiMode) :
    ∃ ns, g.neighbors v mode = .ok ns ∧ ns.Perm (g.toMultigraph.neighbors v mode) ∧
      ns.Pairwise (· ≤ ·) := by
  have hout := h.map_outEdges hv
  have hin := h.map_inEdges hv
  cases hd : g.directed with
  | false =>
    refine ⟨_, by rw [neighbors, if_neg (by omega), if_pos (by simp [hd])], ?_, ?_⟩
    · rw [hasOut_modeOf, hasIn_modeOf]
      simp only [Multigraph.neighbors, toMultigraph, hd, Bool.not_false, Bool.true_or, if_true]
      exact hout.append hin
    · rw [hasOut_modeOf, hasIn_modeOf]
      simp only [hd, Bool.not_false, Bool.true_or, if_true]
      exact h.undirected_sorted hv hd
  | true =>
    have hmode : g.modeOf mode = mode := by rw [modeOf, hd, if_pos rfl]
    cases mode with
    | outgoing =>
      refine ⟨(g.outEdges v).map g.target, ?_, ?_, h.outEdges_sorted hv⟩
      · simp [neighbors, hmode, Nat.not_le.mpr hv, NeiMode.hasOut, NeiMode.hasIn]
      · simpa [Multigraph.neighbors, toMultigraph, hd, NeiMode.hasOut, NeiMode.hasIn] using hout
    | incoming =>
      refine ⟨(g.inEdges v).map g.source, ?_, ?_, h.inEdges_sorted hv⟩
      · simp [neighbors, hmode, Nat.not_le.mpr hv, NeiMode.hasOut, NeiMode.hasIn]
      · simpa [Multigraph.neighbors, toMultigraph, hd, NeiMode.hasOut, NeiMode.hasIn] using hin
    | all =>
      refine ⟨_, by rw [neighbors, if_neg (by omega), if_neg (by simp [hd, hmode])], ?_,
        mergeNeis_sorted (h.outEdges_sorted hv) (h.inEdges_sorted hv)⟩
      refine (mergeNeis_perm _ _).trans ?_
      simp only [Multigraph.neighbors, toMultigraph, hd, NeiMode.hasOut, NeiMode.hasIn]
      exact hout.append hin

end IgraphT

end ResSim
