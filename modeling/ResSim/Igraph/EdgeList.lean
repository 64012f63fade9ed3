import Mathlib.Data.List.GetD
import ResSim.Igraph.Dqueue
import ResSim.Lib.BucketSort

/-!
# The indexed edge list of igraph

`igraph_t` keeps a graph as two columns, the first and the second end of each edge. `oi` lists
the edges in the order of their first ends and `os` where those of each vertex start in it;
`ii` and `is` do the same for the second ends. An undirected edge is stored once, its larger
end first, and is found through both.

Edits compute the order anew with a bucket sort in two passes. Whatever the edits, the index
finds the edges of every vertex, and neighbours come in increasing order.
-/

namespace ResSim

/-- `igraph_vector_order`: the edges ordered by `v`, and by `v2` where `v` is the same. -/
def vectorOrder (v v2 : List ℕ) (nodes : ℕ) : Option (List ℕ) := do
  let edges := v.length
  let c := (List.range edges).foldl (Chains.link (fun i => v2.getD i 0)) noChains
  let res ← c.collect (edges + 1) (nodes + 1)
  let c := (List.range edges).foldl
    (fun c i => c.link (fun e => v.getD e 0) (res.getD (edges - i - 1) 0)) noChains
  c.collect (edges + 1) (nodes + 1)

/-- The order that the two passes give. -/
def orderOf (v v2 : List ℕ) (nodes : ℕ) : List ℕ :=
  buckets (fun e => v.getD e 0) (nodes + 1)
    (buckets (fun e => v2.getD e 0) (nodes + 1) (List.range v.length).reverse)

variable {v v2 : List ℕ} {nodes : ℕ}

lemma getD_lt_succ {e : ℕ} (h : ∀ x ∈ v, x < nodes) : v.getD e 0 < nodes + 1 := by
  rcases Nat.lt_or_ge e v.length with he | he
  · rw [List.getD_eq_getElem _ _ he]
    exact Nat.lt_succ_of_lt (h _ (List.getElem_mem he))
  · rw [List.getD_eq_default _ _ he]
    exact Nat.succ_pos _

lemma firstPass_perm (h2 : ∀ x ∈ v2, x < nodes) :
    (buckets (fun e => v2.getD e 0) (nodes + 1) (List.range v.length).reverse).Perm
      (List.range v.length) :=
  (buckets_perm (fun _ _ => getD_lt_succ h2)).trans (List.reverse_perm _)

lemma orderOf_perm (h : ∀ x ∈ v, x < nodes) (h2 : ∀ x ∈ v2, x < nodes) :
    (orderOf v v2 nodes).Perm (List.range v.length) :=
  (buckets_perm (fun _ _ => getD_lt_succ h)).trans (firstPass_perm h2)

/-- The order is by `v`, then by `v2`, and later edges come first where both are the same. -/
lemma orderOf_pairwise (v v2 : List ℕ) (nodes : ℕ) :
    (orderOf v v2 nodes).Pairwise (fun e f => v.getD e 0 < v.getD f 0 ∨
      v.getD e 0 = v.getD f 0 ∧ (v2.getD e 0 < v2.getD f 0 ∨
        v2.getD e 0 = v2.getD f 0 ∧ f < e)) := by
  have hrange : (List.range v.length).reverse.Pairwise (fun e f => f < e) := by
    rw [List.pairwise_reverse]
    exact List.pairwise_lt_range
  exact buckets_pairwise (buckets_pairwise hrange _) _

lemma orderOf_keySorted (v v2 : List ℕ) (nodes : ℕ) :
    KeySorted (fun e => v.getD e 0) (orderOf v v2 nodes) := by
  refine (orderOf_pairwise v v2 nodes).imp fun h => ?_
  dsimp only
  omega

lemma map_getD_reverse (res : List ℕ) :
    (List.range res.length).map (fun i => res.getD (res.length - i - 1) 0) = res.reverse := by
  apply List.ext_getElem
  · simp
  · intro i hi _
    rw [List.length_map, List.length_range] at hi
    rw [List.getElem_map, List.getElem_range, List.getElem_reverse,
      List.getD_eq_getElem _ _ (by omega)]
    congr 1
    omega

/-- The chains that `igraph_vector_order` builds always end, and give the order. -/
lemma vectorOrder_eq (h2 : ∀ x ∈ v2, x < nodes) :
    vectorOrder v v2 nodes = some (orderOf v v2 nodes) := by
  have hperm := firstPass_perm (v := v) h2
  have hlen := hperm.length_eq
  rw [List.length_range] at hlen
  have hfirst := collect_foldl_link (fun e => v2.getD e 0) (List.nodup_range (n := v.length))
    (show _ < v.length + 1 by rw [List.length_range]; omega) (nodes + 1)
  have hmap := map_getD_reverse
    (buckets (fun e => v2.getD e 0) (nodes + 1) (List.range v.length).reverse)
  rw [hlen] at hmap
  unfold vectorOrder
  simp only [hfirst, Option.bind_eq_bind, Option.bind_some]
  rw [← List.foldl_map (f := fun i => (buckets (fun e => v2.getD e 0) (nodes + 1)
    (List.range v.length).reverse).getD (v.length - i - 1) 0)
    (g := Chains.link (fun e => v.getD e 0)), hmap, collect_foldl_link, List.reverse_reverse]
  · rfl
  · exact List.nodup_reverse.mpr (hperm.nodup_iff.mpr List.nodup_range)
  · rw [List.length_reverse]
    omega

/-- `igraph_i_create_start`. The vector is written from its front, so the entry that the
source writes last is the last one here. -/
def createStart (el index : List ℕ) (nodes : ℕ) : List ℕ :=
  let edge := fun i => el.getD (index.getD i 0) 0
  if el.length = 0 then List.replicate (nodes + 1) 0
  else
    let res := (List.range' 1 (el.length - 1)).foldl
      (fun res i => res ++ List.replicate (edge i - edge (res.getLastD 0)) i)
      (List.replicate (edge 0 + 1) 0)
    res ++ List.replicate (nodes - edge (res.getLastD 0)) el.length

/-- For each vertex, the number of edges whose end comes before it. -/
def starts (key : ℕ → ℕ) (index : List ℕ) (n : ℕ) : List ℕ :=
  (List.range n).map (fun v => index.countP (fun e => key e < v))

variable {key : ℕ → ℕ} {index el : List ℕ}

lemma getD_starts {n v : ℕ} (h : v < n) :
    (starts key index n).getD v 0 = index.countP (fun e => key e < v) := by
  simp [starts, h]

lemma getLastD_starts (key : ℕ → ℕ) (index : List ℕ) (n : ℕ) :
    (starts key index (n + 1)).getLastD 0 = index.countP (fun e => key e < n) := by
  simp [starts, List.range_succ]

lemma starts_append (key : ℕ → ℕ) (index : List ℕ) (n n' c : ℕ) (hle : n ≤ n')
    (h : ∀ v, n ≤ v → v < n' → index.countP (fun e => key e < v) = c) :
    starts key index n ++ List.replicate (n' - n) c = starts key index n' := by
  obtain ⟨d, rfl⟩ := Nat.exists_eq_add_of_le hle
  have hrest : (List.range d).map (fun k => index.countP (fun e => key e < n + k)) =
      List.replicate d c := by
    rw [List.eq_replicate_iff]
    refine ⟨by simp, fun b hb => ?_⟩
    obtain ⟨k, hk, rfl⟩ := List.mem_map.mp hb
    exact h (n + k) (by omega) (by rw [List.mem_range] at hk; omega)
  rw [Nat.add_sub_cancel_left, ← hrest]
  simp only [starts, List.range_add, List.map_append, List.map_map]
  rfl

/-- The passes of `igraph_i_create_start`, after those for the edges up to `k`. -/
lemma foldl_starts (hsorted : KeySorted key index) {k : ℕ} (hk : k < index.length) :
    (List.range' 1 k).foldl
      (fun res i => res ++ List.replicate (key (index.getD i 0) -
        key (index.getD (res.getLastD 0) 0)) i)
      (List.replicate (key (index.getD 0 0) + 1) 0) =
      starts key index (key (index.getD k 0) + 1) := by
  have hget : ∀ i (hi : i < index.length), index.getD i 0 = index[i] :=
    fun i hi => List.getD_eq_getElem _ _ hi
  induction k with
  | zero =>
    have hzero := starts_append key index 0 (key (index.getD 0 0) + 1) 0 (Nat.zero_le _) (by
        intro v _ hv
        rw [hget 0 hk] at hv
        rw [List.countP_eq_zero]
        intro e he
        have := hsorted.le_of_mem_drop hk (by rwa [List.drop_zero] : e ∈ index.drop 0)
        simp only [decide_eq_true_eq]
        omega)
    simpa [starts] using hzero
  | succ k ih =>
    obtain ⟨hlt, hkey⟩ := hsorted.key_countP (show k < index.length by omega)
    have hmono := hsorted.le_of_mem_drop (show k < index.length by omega)
      (List.mem_of_mem_drop (i := 1) (by
        rw [List.drop_drop, List.drop_eq_getElem_cons hk]
        exact List.mem_cons_self ..) : index[k + 1] ∈ index.drop k)
    rw [List.range'_concat, List.foldl_append, ih (by omega), List.foldl_cons, List.foldl_nil,
      getLastD_starts, hget k (by omega), hget _ hlt, hkey, Nat.one_mul, Nat.add_comm 1 k,
      hget (k + 1) hk]
    have happend := starts_append key index (key index[k] + 1) (key index[k + 1] + 1) (k + 1)
      (by omega)
      (fun v hv hv' => hsorted.countP_eq hk (by omega) (by omega))
    rw [← happend]
    congr 2
    omega

/-- The start vector counts, for each vertex, the edges before its own. -/
lemma createStart_eq (hlen : index.length = el.length)
    (hsorted : KeySorted (fun e => el.getD e 0) index) (hlt : ∀ e ∈ index, el.getD e 0 < nodes) :
    createStart el index nodes = starts (fun e => el.getD e 0) index (nodes + 1) := by
  unfold createStart
  dsimp only
  split
  · rename_i h0
    rw [List.length_eq_zero_iff.mp (hlen.trans h0)]
    simp [starts]
  · have hk : el.length - 1 < index.length := by omega
    obtain ⟨hlt', hkey⟩ := hsorted.key_countP hk
    have hfold := foldl_starts hsorted hk
    rw [hfold, getLastD_starts, List.getD_eq_getElem _ _ hk,
      List.getD_eq_getElem _ _ hlt', hkey]
    have hmax := hlt _ (List.getElem_mem hk)
    have happend := starts_append (fun e => el.getD e 0) index
      (el.getD index[el.length - 1] 0 + 1) (nodes + 1) el.length (by omega) (by
        intro v hv _
        rw [← hlen, List.countP_eq_length]
        intro e he
        have hmem : e ∈ index.take (el.length - 1 + 1) := by
          rwa [List.take_of_length_le (by omega)]
        have := hsorted.le_of_mem_take hk hmem
        simp only [decide_eq_true_eq]
        omega)
    rw [← happend]
    congr 2
    omega

/-- `igraph_t`. `fromCol` and `toCol` are its `from` and `to`. -/
structure IgraphT where
  n : ℕ
  directed : Bool
  fromCol : List ℕ
  toCol : List ℕ
  oi : List ℕ
  ii : List ℕ
  os : List ℕ
  is : List ℕ
  deriving DecidableEq

/-- `igraph_neimode_t`. -/
inductive NeiMode where
  | outgoing
  | incoming
  | all
  deriving DecidableEq

/-- `mode & IGRAPH_OUT`. -/
def NeiMode.hasOut (mode : NeiMode) : Bool := mode ≠ .incoming

/-- `mode & IGRAPH_IN`. -/
def NeiMode.hasIn (mode : NeiMode) : Bool := mode ≠ .outgoing

namespace IgraphT

/-- `IGRAPH_FROM`. -/
def source (g : IgraphT) (e : ℕ) : ℕ := g.fromCol.getD e 0

/-- `IGRAPH_TO`. -/
def target (g : IgraphT) (e : ℕ) : ℕ := g.toCol.getD e 0

/-- `IGRAPH_OTHER`. -/
def other (g : IgraphT) (e v : ℕ) : ℕ := if g.target e = v then g.source e else g.target e

/-- `igraph_ecount`. -/
def ecount (g : IgraphT) : ℕ := g.fromCol.length

/-- `igraph_add_vertices`. -/
def addVertices (g : IgraphT) (nv : ℤ) : Except Fault IgraphT :=
  if nv < 0 then .error (.error "cannot add negative number of vertices" .einval)
  else
    .ok { g with
      n := g.n + nv.toNat
      os := g.os ++ List.replicate nv.toNat g.ecount
      is := g.is ++ List.replicate nv.toNat g.ecount }

/-- `igraph_empty`. -/
def empty (n : ℤ) (directed : Bool) : Except Fault IgraphT :=
  if n < 0 then
    .error (.error "cannot create empty graph with negative number of vertices" .einval)
  else addVertices ⟨0, directed, [], [], [], [], [0], [0]⟩ n

/-- Appends the edges of an edge vector to the two columns. -/
def pushEdges (directed : Bool) : List ℕ → List ℕ × List ℕ → List ℕ × List ℕ
  | a :: b :: rest, cols =>
    if directed || b < a then pushEdges directed rest (cols.1 ++ [a], cols.2 ++ [b])
    else pushEdges directed rest (cols.1 ++ [b], cols.2 ++ [a])
  | _, cols => cols

/-- `igraph_vector_isininterval`. -/
def isInInterval (v : List ℤ) (low high : ℤ) : Bool := v.all (fun x => low ≤ x ∧ x ≤ high)

/-- The graph with new columns, and the index that belongs to them. -/
def reindex (g : IgraphT) (cols : List ℕ × List ℕ) : Except Fault IgraphT :=
  match vectorOrder cols.1 cols.2 g.n, vectorOrder cols.2 cols.1 g.n with
  | some oi, some ii =>
    .ok { g with
      fromCol := cols.1
      toCol := cols.2
      oi := oi
      ii := ii
      os := createStart cols.1 oi g.n
      is := createStart cols.2 ii g.n }
  | _, _ => .error .noEnd

/-- `igraph_add_edges`. -/
def addEdges (g : IgraphT) (edges : List ℤ) : Except Fault IgraphT :=
  if edges.length % 2 ≠ 0 then
    .error (.error "invalid (odd) length of edges vector" .einvevector)
  else if !isInInterval edges 0 (g.n - 1) then
    .error (.error "cannot add edges" .einvvid)
  else g.reindex (pushEdges g.directed (edges.map Int.toNat) (g.fromCol, g.toCol))

/-- The entries of a column that are not marked. -/
def unmarked (mark : List ℤ) (col : List ℕ) : List ℕ :=
  ((List.range col.length).filter (fun i : ℕ => (i : ℤ) ∉ mark)).map (fun i => col.getD i 0)

/-- `igraph_delete_edges`, for an edge selector that is a vector. -/
def deleteEdges (g : IgraphT) (edges : List ℤ) : Except Fault IgraphT :=
  if !isInInterval edges 0 (g.ecount - 1) then
    .error (.error "Cannot create iterator, invalid edge id" .einvvid)
  else g.reindex (unmarked edges g.fromCol, unmarked edges g.toCol)

/-- The entries of a vector from place `i` to before place `j`. -/
def slice (v : List ℕ) (i j : ℕ) : List ℕ :=
  (List.range' i (j - i)).map (fun k => v.getD k 0)

/-- The edges that leave a vertex, from the index. -/
def outEdges (g : IgraphT) (node : ℕ) : List ℕ :=
  slice g.oi (g.os.getD node 0) (g.os.getD (node + 1) 0)

/-- The edges that enter a vertex, from the index. -/
def inEdges (g : IgraphT) (node : ℕ) : List ℕ :=
  slice g.ii (g.is.getD node 0) (g.is.getD (node + 1) 0)

/-- The mode is ignored for an undirected graph. -/
def modeOf (g : IgraphT) (mode : NeiMode) : NeiMode := if g.directed then mode else .all

/-- `igraph_incident`. -/
def incident (g : IgraphT) (node : ℕ) (mode : NeiMode) : Except Fault (List ℕ) :=
  if g.n ≤ node then .error (.error "cannot get neighbors" .einvvid)
  else
    .ok ((if (g.modeOf mode).hasOut then g.outEdges node else []) ++
      (if (g.modeOf mode).hasIn then g.inEdges node else []))

/-- Merges two vectors in increasing order. -/
def mergeNeis : List ℕ → List ℕ → List ℕ
  | n₁ :: v₁, n₂ :: v₂ =>
    if n₁ < n₂ then n₁ :: mergeNeis v₁ (n₂ :: v₂)
    else if n₂ < n₁ then n₂ :: mergeNeis (n₁ :: v₁) v₂
    else n₁ :: n₂ :: mergeNeis v₁ v₂
  | [], v₂ => v₂
  | v₁, [] => v₁
  termination_by v₁ v₂ => v₁.length + v₂.length

/-- `igraph_neighbors`. -/
def neighbors (g : IgraphT) (node : ℕ) (mode : NeiMode) : Except Fault (List ℕ) :=
  if g.n ≤ node then .error (.error "cannot get neighbors" .einvvid)
  else if !g.directed || g.modeOf mode ≠ .all then
    .ok ((if (g.modeOf mode).hasOut then (g.outEdges node).map g.target else []) ++
      (if (g.modeOf mode).hasIn then (g.inEdges node).map g.source else []))
  else .ok (mergeNeis ((g.outEdges node).map g.target) ((g.inEdges node).map g.source))

end IgraphT

end ResSim
