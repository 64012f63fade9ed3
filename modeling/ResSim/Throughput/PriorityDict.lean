import Mathlib.Data.List.Sort
import Mathlib.Data.List.TakeWhile
import Mathlib.Order.MinMax
import ResSim.Lib.Dict

/-!
# A dictionary as a priority queue

`priority_dict` keeps, beside the dictionary, a heap of pairs of a value and a key. An entry of
the heap whose key was removed or has another value is stale, and is passed over when it comes
to the top. Whatever operations are called, the answers are those of a plain dictionary.
-/

namespace ResSim

section Defs

variable {κ ν : Type} [DecidableEq κ] [LinearOrder ν]

/-- Pairs are compared by their values and then by their keys, which have a rank. -/
def HeapLe (rank : κ → ℕ) (x y : ν × κ) : Prop := x.1 < y.1 ∨ x.1 = y.1 ∧ rank x.2 ≤ rank y.2

instance (rank : κ → ℕ) : DecidableRel (HeapLe (ν := ν) rank) :=
  fun _ _ => inferInstanceAs (Decidable (_ ∨ _))

/-- The dictionary and its heap, whose entries are listed from the smallest one on. -/
structure PriorityDict (κ ν : Type) where
  entries : List (κ × ν)
  heap : List (ν × κ)

namespace PriorityDict

variable (rank : κ → ℕ)

def rebuildHeap (s : PriorityDict κ ν) : PriorityDict κ ν :=
  { s with heap := (s.entries.map Prod.swap).insertionSort (HeapLe rank) }

def init (items : List (κ × ν)) : PriorityDict κ ν := rebuildHeap rank ⟨dictOf items, []⟩

/-- `k not in self or self[k] != v`. -/
def Stale (s : PriorityDict κ ν) (x : ν × κ) : Prop := dictGet s.entries x.2 ≠ some x.1

instance (s : PriorityDict κ ν) : DecidablePred s.Stale :=
  fun _ => inferInstanceAs (Decidable (_ ≠ _))

/-- `none` stands for `IndexError`. -/
def smallest (s : PriorityDict κ ν) : Option κ × PriorityDict κ ν :=
  let heap := s.heap.dropWhile (fun x => s.Stale x)
  (heap.head?.map Prod.snd, { s with heap := heap })

def popSmallest (s : PriorityDict κ ν) : Option κ × PriorityDict κ ν :=
  match s.heap.dropWhile (fun x => s.Stale x) with
  | [] => (none, { s with heap := [] })
  | x :: heap => (some x.2, ⟨s.entries.filter (fun e => e.1 ≠ x.2), heap⟩)

/-- The heap is rebuilt when it has become twice as long as the dictionary. -/
def setItem (s : PriorityDict κ ν) (key : κ) (val : ν) : PriorityDict κ ν :=
  let entries := dictSet s.entries key val
  if s.heap.length < 2 * entries.length then
    ⟨entries, s.heap.orderedInsert (HeapLe rank) (val, key)⟩
  else rebuildHeap rank ⟨entries, s.heap⟩

def setdefault (s : PriorityDict κ ν) (key : κ) (val : ν) : ν × PriorityDict κ ν :=
  match dictGet s.entries key with
  | none => (val, s.setItem rank key val)
  | some val' => (val', s)

def update (s : PriorityDict κ ν) (items : List (κ × ν)) : PriorityDict κ ν :=
  rebuildHeap rank { s with entries := items.foldl (fun d x => dictSet d x.1 x.2) s.entries }

/-- What `sorted_iter` yields until the dictionary is empty. -/
def sortedIter : ℕ → PriorityDict κ ν → Option (List κ × PriorityDict κ ν)
  | 0, _ => none
  | fuel + 1, s =>
    if s.entries = [] then some ([], s)
    else
      match s.popSmallest with
      | (none, _) => none
      | (some key, s) => (sortedIter fuel s).map (fun x => (key :: x.1, x.2))

end PriorityDict

/-- What can be called. `delItem` is the method of `dict`. -/
inductive QueueOp (κ ν : Type) where
  | smallest
  | popSmallest
  | sortedIter
  | setItem (key : κ) (val : ν)
  | setdefault (key : κ) (val : ν)
  | update (items : List (κ × ν))
  | delItem (key : κ)

inductive QueueAnswer (κ ν : Type) where
  | done
  | key (k : κ)
  | keys (ks : List κ)
  | val (v : ν)
  | indexError
  | keyError
  deriving DecidableEq

/-- An answer that is a key, or `IndexError`. -/
def keyOrError : Option κ → QueueAnswer κ ν
  | none => .indexError
  | some k => .key k

def PriorityDict.call (rank : κ → ℕ) (s : PriorityDict κ ν) :
    QueueOp κ ν → QueueAnswer κ ν × PriorityDict κ ν
  | .smallest => (keyOrError s.smallest.1, s.smallest.2)
  | .popSmallest => (keyOrError s.popSmallest.1, s.popSmallest.2)
  | .sortedIter =>
    match PriorityDict.sortedIter (s.entries.length + 1) s with
    | none => (.indexError, s)
    | some (ks, s') => (.keys ks, s')
  | .setItem key val => (.done, s.setItem rank key val)
  | .setdefault key val => (.val (s.setdefault rank key val).1, (s.setdefault rank key val).2)
  | .update items => (.done, s.update rank items)
  | .delItem key =>
    if key ∈ s.entries.map Prod.fst then
      (.done, { s with entries := s.entries.filter (fun e => e.1 ≠ key) })
    else (.keyError, s)

/-! ### The plain dictionary -/

/-- The entries in the order of their values, and of their keys where these are equal. -/
def sortEntries (rank : κ → ℕ) (d : List (κ × ν)) : List (κ × ν) :=
  d.insertionSort (fun x y => HeapLe rank x.swap y.swap)

/-- What is called on a dictionary that is searched for its smallest value each time. -/
def callPlain (rank : κ → ℕ) (d : List (κ × ν)) : QueueOp κ ν → QueueAnswer κ ν × List (κ × ν)
  | .smallest => (keyOrError ((sortEntries rank d).head?.map Prod.fst), d)
  | .popSmallest =>
    match (sortEntries rank d).head? with
    | none => (.indexError, d)
    | some x => (.key x.1, d.filter (fun e => e.1 ≠ x.1))
  | .sortedIter => (.keys ((sortEntries rank d).map Prod.fst), [])
  | .setItem key val => (.done, dictSet d key val)
  | .setdefault key val =>
    match dictGet d key with
    | none => (.val val, dictSet d key val)
    | some val' => (.val val', d)
  | .update items => (.done, items.foldl (fun d x => dictSet d x.1 x.2) d)
  | .delItem key =>
    if key ∈ d.map Prod.fst then (.done, d.filter (fun e => e.1 ≠ key)) else (.keyError, d)

/-- The answers to a sequence of calls, and the state after it. -/
def runCalls {σ : Type} (call : σ → QueueOp κ ν → QueueAnswer κ ν × σ) :
    List (QueueOp κ ν) → σ → List (QueueAnswer κ ν) × σ
  | [], s => ([], s)
  | op :: ops, s =>
    let (answer, s) := call s op
    let (answers, s) := runCalls call ops s
    (answer :: answers, s)

end Defs

/-! ### The order of the heap -/

section Order

variable {κ ν : Type} [LinearOrder ν] {rank : κ → ℕ}

instance (rank : κ → ℕ) : Std.Total (HeapLe (ν := ν) rank) := by
  constructor
  intro x y
  simp only [HeapLe]
  rcases lt_trichotomy x.1 y.1 with h | h | h
  · exact .inl (.inl h)
  · rcases le_total (rank x.2) (rank y.2) with hle | hle
    · exact .inl (.inr ⟨h, hle⟩)
    · exact .inr (.inr ⟨h.symm, hle⟩)
  · exact .inr (.inl h)

instance (rank : κ → ℕ) : IsTrans (ν × κ) (HeapLe rank) := by
  constructor
  rintro x y z (hxy | ⟨hxy, hle⟩) (hyz | ⟨hyz, hle'⟩)
  · exact .inl (hxy.trans hyz)
  · exact .inl (hyz ▸ hxy)
  · exact .inl (hxy ▸ hyz)
  · exact .inr ⟨hxy.trans hyz, hle.trans hle'⟩

lemma HeapLe.antisymm (hrank : Function.Injective rank) {x y : ν × κ} (h : HeapLe rank x y)
    (h' : HeapLe rank y x) : x = y := by
  rcases h with h | ⟨h, hle⟩ <;> rcases h' with h' | ⟨h', hle'⟩
  · exact absurd h (lt_asymm h')
  · exact absurd h (h' ▸ lt_irrefl _)
  · exact absurd h' (h ▸ lt_irrefl _)
  · exact Prod.ext h (hrank (le_antisymm hle hle'))

end Order

/-! ### The sorted entries -/

section Sorted

variable {κ ν : Type} [DecidableEq κ] {rank : κ → ℕ} {d : List (κ × ν)} {e : κ × ν}

lemma perm_cons_filter_key (hd : (d.map Prod.fst).Nodup) (he : e ∈ d) :
    d.Perm (e :: d.filter (fun x => x.1 ≠ e.1)) := by
  induction d with
  | nil => cases he
  | cons x d ih =>
    obtain ⟨hx, hd⟩ := List.nodup_cons.mp hd
    rcases List.mem_cons.mp he with rfl | he
    · have hall : d.filter (fun x => x.1 ≠ e.1) = d :=
        List.filter_eq_self.mpr fun y hy => decide_eq_true fun heq =>
          hx (List.mem_map.mpr ⟨y, hy, heq⟩)
      rw [List.filter_cons, if_neg (by simp), hall]
    · have hne : x.1 ≠ e.1 := fun heq => hx (List.mem_map.mpr ⟨e, he, heq.symm⟩)
      rw [List.filter_cons, if_pos (decide_eq_true hne)]
      exact ((ih hd he).cons x).trans (.swap e x _)

variable [LinearOrder ν]

omit [DecidableEq κ] in
lemma sortEntries_perm (d : List (κ × ν)) : (sortEntries rank d).Perm d :=
  List.perm_insertionSort ..

omit [DecidableEq κ] in
lemma sortEntries_pairwise (d : List (κ × ν)) :
    (sortEntries rank d).Pairwise (fun x y => HeapLe rank x.swap y.swap) := by
  have htotal : Std.Total (fun x y : κ × ν => HeapLe rank x.swap y.swap) :=
    ⟨fun x y => Std.Total.total x.swap y.swap⟩
  have htrans : IsTrans (κ × ν) (fun x y => HeapLe rank x.swap y.swap) :=
    ⟨fun x y z h h' => IsTrans.trans x.swap y.swap z.swap h h'⟩
  exact List.pairwise_insertionSort ..

/-- The smallest entry comes first, and the others behind it. -/
lemma sortEntries_eq_cons (hrank : Function.Injective rank) (hd : (d.map Prod.fst).Nodup)
    (he : e ∈ d) (hmin : ∀ x ∈ d, HeapLe rank e.swap x.swap) :
    sortEntries rank d = e :: sortEntries rank (d.filter (fun x => x.1 ≠ e.1)) := by
  refine List.Perm.eq_of_pairwise (fun x y _ _ h h' => ?_) (sortEntries_pairwise d)
    (List.pairwise_cons.mpr ⟨fun x hx => ?_, sortEntries_pairwise _⟩) ?_
  · exact Prod.swap_injective (h.antisymm hrank h')
  · exact hmin x (List.mem_of_mem_filter ((sortEntries_perm _).mem_iff.mp hx))
  · exact (sortEntries_perm d).trans ((perm_cons_filter_key hd he).trans
      ((sortEntries_perm _).symm.cons e))

end Sorted

/-! ### The invariant -/

namespace PriorityDict

variable {κ ν : Type} [DecidableEq κ] [LinearOrder ν] {rank : κ → ℕ} {s : PriorityDict κ ν}
  {x : ν × κ} {heap : List (ν × κ)} {key : κ} {val : ν}

/-- Every entry of the dictionary is in the heap. -/
structure Valid (rank : κ → ℕ) (s : PriorityDict κ ν) : Prop where
  nodup : (s.entries.map Prod.fst).Nodup
  sorted : s.heap.Pairwise (HeapLe rank)
  live : ∀ e ∈ s.entries, e.swap ∈ s.heap

omit [DecidableEq κ] in
lemma valid_rebuildHeap (h : (s.entries.map Prod.fst).Nodup) : Valid rank (s.rebuildHeap rank) :=
  ⟨h, List.pairwise_insertionSort .., fun _ he =>
    (List.mem_insertionSort _).mpr (List.mem_map_of_mem he)⟩

omit [DecidableEq κ] in
lemma length_rebuildHeap (s : PriorityDict κ ν) :
    (s.rebuildHeap rank).heap.length = s.entries.length := by
  rw [rebuildHeap, List.length_insertionSort, List.length_map]

omit [LinearOrder ν] in
lemma not_stale_iff (h : (s.entries.map Prod.fst).Nodup) : ¬ s.Stale x ↔ x.swap ∈ s.entries := by
  rw [Stale, not_not, ← mem_iff_dictGet h]
  rfl

/-- What is left of the heap without the stale entries on top. -/
lemma Valid.live_dropWhile (h : Valid rank s) {e : κ × ν} (he : e ∈ s.entries) :
    e.swap ∈ s.heap.dropWhile (fun x => s.Stale x) := by
  have hmem := h.live e he
  rw [← List.takeWhile_append_dropWhile (p := fun x => decide (s.Stale x)) (l := s.heap)] at hmem
  refine (List.mem_append.mp hmem).resolve_left fun htake => ?_
  have hstale := List.mem_takeWhile_imp htake
  rw [decide_eq_true_eq] at hstale
  exact (not_stale_iff h.nodup).mpr (by rwa [Prod.swap_swap]) hstale

/-- The top of the heap is the smallest entry of the dictionary. -/
lemma Valid.top (h : Valid rank s) (hheap : s.heap.dropWhile (fun x => s.Stale x) = x :: heap) :
    x.swap ∈ s.entries ∧ (∀ e ∈ s.entries, HeapLe rank x e.swap) ∧ heap.Pairwise (HeapLe rank) := by
  have hsorted : (x :: heap).Pairwise (HeapLe rank) :=
    hheap ▸ h.sorted.sublist (List.dropWhile_sublist _)
  obtain ⟨hle, htail⟩ := List.pairwise_cons.mp hsorted
  refine ⟨?_, fun e he => ?_, htail⟩
  · have hnot := List.head?_dropWhile_not (fun x => decide (s.Stale x)) s.heap
    rw [hheap, List.head?_cons] at hnot
    exact (not_stale_iff h.nodup).mp (by simpa using hnot)
  · have hmem := h.live_dropWhile he
    rw [hheap] at hmem
    rcases List.mem_cons.mp hmem with heq | hmem
    · rw [heq]
      exact .inr ⟨rfl, le_rfl⟩
    · exact hle _ hmem

/-- Without a live entry in the heap the dictionary is empty. -/
lemma Valid.eq_nil (h : Valid rank s) (hheap : s.heap.dropWhile (fun x => s.Stale x) = []) :
    s.entries = [] := by
  rw [List.eq_nil_iff_forall_not_mem]
  intro e he
  have hmem := h.live_dropWhile he
  rw [hheap] at hmem
  cases hmem

/-! ### One call -/

lemma Valid.smallest (h : Valid rank s) (hrank : Function.Injective rank) :
    s.smallest.1 = (sortEntries rank s.entries).head?.map Prod.fst ∧
      s.smallest.2.entries = s.entries ∧ Valid rank s.smallest.2 := by
  refine ⟨?_, rfl, h.nodup, h.sorted.sublist (List.dropWhile_sublist _),
    fun e he => h.live_dropWhile he⟩
  rw [PriorityDict.smallest]
  cases hheap : s.heap.dropWhile (fun x => s.Stale x) with
  | nil =>
    rw [h.eq_nil hheap]
    rfl
  | cons x heap =>
    obtain ⟨hmem, hle, -⟩ := h.top hheap
    rw [sortEntries_eq_cons hrank h.nodup hmem hle]
    rfl

/-- The smallest entry is taken out, if there is one. -/
lemma Valid.popSmallest (h : Valid rank s) (hrank : Function.Injective rank) :
    Valid rank s.popSmallest.2 ∧
      ((s.entries = [] ∧ s.popSmallest.1 = none ∧ s.popSmallest.2.entries = []) ∨
        ∃ e, s.popSmallest.1 = some e.1 ∧
          s.popSmallest.2.entries = s.entries.filter (fun y => y.1 ≠ e.1) ∧ e ∈ s.entries ∧
          sortEntries rank s.entries = e :: sortEntries rank s.popSmallest.2.entries) := by
  rw [PriorityDict.popSmallest]
  cases hheap : s.heap.dropWhile (fun x => s.Stale x) with
  | nil =>
    have hnil := h.eq_nil hheap
    refine ⟨⟨h.nodup, .nil, ?_⟩, .inl ⟨hnil, rfl, hnil⟩⟩
    simp [hnil]
  | cons x heap =>
    obtain ⟨hmem, hle, htail⟩ := h.top hheap
    refine ⟨⟨h.nodup.sublist (List.filter_sublist.map _), htail, fun e he => ?_⟩,
      .inr ⟨x.swap, rfl, rfl, hmem, sortEntries_eq_cons hrank h.nodup hmem hle⟩⟩
    obtain ⟨he, hne⟩ := List.mem_filter.mp he
    have hin := h.live_dropWhile he
    rw [hheap] at hin
    refine (List.mem_cons.mp hin).resolve_left fun heq => of_decide_eq_true hne ?_
    rw [← heq]
    rfl

lemma length_heap_popSmallest (s : PriorityDict κ ν) :
    s.popSmallest.2.heap.length ≤ s.heap.length := by
  have hle := (List.dropWhile_sublist (fun x => decide (s.Stale x)) (l := s.heap)).length_le
  rw [PriorityDict.popSmallest]
  split
  · exact Nat.zero_le _
  · rename_i heq
    rw [heq, List.length_cons] at hle
    exact Nat.le_of_succ_le hle

lemma Valid.setItem (h : Valid rank s) : Valid rank (s.setItem rank key val) := by
  have hnodup := nodup_keys_dictSet (k := key) (a := val) h.nodup
  rw [PriorityDict.setItem]
  split
  · refine ⟨hnodup, h.sorted.orderedInsert _ _, fun e he => ?_⟩
    refine (List.mem_orderedInsert _).mpr ?_
    rcases mem_dictSet he with rfl | he
    · exact .inl rfl
    · exact .inr (h.live e he)
  · exact valid_rebuildHeap hnodup

lemma entries_setItem : (s.setItem rank key val).entries = dictSet s.entries key val := by
  rw [PriorityDict.setItem]
  split <;> rfl

/-- After an assignment the heap is at most twice as long as the dictionary. -/
lemma length_heap_setItem :
    (s.setItem rank key val).heap.length ≤ 2 * (s.setItem rank key val).entries.length := by
  rw [entries_setItem, PriorityDict.setItem]
  split
  · rw [List.orderedInsert_length]
    omega
  · rw [length_rebuildHeap]
    exact Nat.le_mul_of_pos_left _ Nat.two_pos

omit [LinearOrder ν] in
lemma nodup_foldl_dictSet {d : List (κ × ν)} (h : (d.map Prod.fst).Nodup) (items : List (κ × ν)) :
    ((items.foldl (fun d x => dictSet d x.1 x.2) d).map Prod.fst).Nodup := by
  induction items generalizing d with
  | nil => exact h
  | cons x items ih => exact ih (nodup_keys_dictSet h)

/-- What is yielded are the keys from the smallest entry to the largest one. -/
lemma Valid.sortedIter (h : Valid rank s) (hrank : Function.Injective rank) {fuel : ℕ}
    (hfuel : s.entries.length < fuel) :
    ∃ s', PriorityDict.sortedIter fuel s = some ((sortEntries rank s.entries).map Prod.fst, s') ∧
      s'.entries = [] ∧ s'.heap.length ≤ s.heap.length ∧ Valid rank s' := by
  induction fuel generalizing s with
  | zero => exact absurd hfuel (Nat.not_lt_zero _)
  | succ fuel ih =>
    rw [PriorityDict.sortedIter]
    by_cases hnil : s.entries = []
    · exact ⟨s, by rw [if_pos hnil, hnil]; rfl, hnil, le_rfl, h⟩
    · rw [if_neg hnil]
      obtain ⟨hvalid, ⟨hempty, -⟩ | ⟨e, hkey, hentries, he, hsort⟩⟩ := h.popSmallest hrank
      · exact absurd hempty hnil
      · have hlen : s.popSmallest.2.entries.length < fuel := by
          have hperm := (perm_cons_filter_key h.nodup he).length_eq
          rw [List.length_cons] at hperm
          rw [hentries]
          omega
        obtain ⟨s', hs', hentries', hheap, hvalid'⟩ := ih hvalid hlen
        refine ⟨s', ?_, hentries', hheap.trans s.length_heap_popSmallest, hvalid'⟩
        rw [← Prod.mk.eta (p := s.popSmallest), hkey]
        simp only [hs', Option.map_some, hsort, List.map_cons]

/-- Every call answers as for the plain dictionary, and leaves its entries. -/
lemma Valid.call (h : Valid rank s) (hrank : Function.Injective rank) (op : QueueOp κ ν) :
    (s.call rank op).1 = (callPlain rank s.entries op).1 ∧
      (s.call rank op).2.entries = (callPlain rank s.entries op).2 ∧
      Valid rank (s.call rank op).2 := by
  cases op with
  | smallest =>
    obtain ⟨hkey, hentries, hvalid⟩ := h.smallest hrank
    exact ⟨congrArg keyOrError hkey, hentries, hvalid⟩
  | popSmallest =>
    obtain ⟨hvalid, ⟨hnil, hkey, hentries⟩ | ⟨e, hkey, hentries, -, hsort⟩⟩ := h.popSmallest hrank
    · simp only [PriorityDict.call, callPlain, hkey, hentries, hnil]
      exact ⟨rfl, rfl, hvalid⟩
    · simp only [PriorityDict.call, callPlain, hkey, hsort, List.head?_cons]
      exact ⟨rfl, hentries, hvalid⟩
  | sortedIter =>
    obtain ⟨s', hs', hentries, -, hvalid⟩ := h.sortedIter hrank (Nat.lt_succ_self s.entries.length)
    simp only [PriorityDict.call, callPlain, hs', true_and]
    exact ⟨hentries, hvalid⟩
  | setItem key val => exact ⟨rfl, entries_setItem, h.setItem⟩
  | setdefault key val =>
    simp only [PriorityDict.call, callPlain, PriorityDict.setdefault]
    cases dictGet s.entries key with
    | none => exact ⟨rfl, entries_setItem, h.setItem⟩
    | some val' => exact ⟨rfl, rfl, h⟩
  | update items => exact ⟨rfl, rfl, valid_rebuildHeap (nodup_foldl_dictSet h.nodup items)⟩
  | delItem key =>
    simp only [PriorityDict.call, callPlain]
    split
    · exact ⟨rfl, rfl, h.nodup.sublist (List.filter_sublist.map _), h.sorted,
        fun e he => h.live e (List.mem_of_mem_filter he)⟩
    · exact ⟨rfl, rfl, h⟩

/-- The heap grows where an item is assigned only, to twice the length of the dictionary at most. -/
lemma Valid.length_heap_call (h : Valid rank s) (hrank : Function.Injective rank)
    (op : QueueOp κ ν) : (s.call rank op).2.heap.length ≤
      max s.heap.length (2 * (s.call rank op).2.entries.length) := by
  cases op with
  | smallest => exact le_max_of_le_left (List.dropWhile_sublist _).length_le
  | popSmallest => exact le_max_of_le_left s.length_heap_popSmallest
  | sortedIter =>
    obtain ⟨s', hs', -, hle, -⟩ := h.sortedIter hrank (Nat.lt_succ_self s.entries.length)
    simp only [PriorityDict.call, hs']
    exact le_max_of_le_left hle
  | setItem key val => exact le_max_of_le_right length_heap_setItem
  | setdefault key val =>
    simp only [PriorityDict.call, PriorityDict.setdefault]
    cases dictGet s.entries key with
    | none => exact le_max_of_le_right length_heap_setItem
    | some val' => exact le_max_left _ _
  | update items =>
    refine le_max_of_le_right ?_
    simp only [PriorityDict.call, PriorityDict.update, length_rebuildHeap]
    exact Nat.le_mul_of_pos_left _ Nat.two_pos
  | delItem key =>
    simp only [PriorityDict.call]
    split <;> exact le_max_left _ _

/-! ### A run of calls -/

lemma Valid.runCalls (h : Valid rank s) (hrank : Function.Injective rank)
    (ops : List (QueueOp κ ν)) :
    (ResSim.runCalls (PriorityDict.call rank) ops s).1 =
        (ResSim.runCalls (callPlain rank) ops s.entries).1 ∧
      (ResSim.runCalls (PriorityDict.call rank) ops s).2.entries =
        (ResSim.runCalls (callPlain rank) ops s.entries).2 := by
  induction ops generalizing s with
  | nil => exact ⟨rfl, rfl⟩
  | cons op ops ih =>
    obtain ⟨hanswer, hentries, hvalid⟩ := h.call hrank op
    obtain ⟨hanswers, hlast⟩ := ih hvalid
    rw [hentries] at hanswers hlast
    exact ⟨congrArg₂ List.cons hanswer hanswers, hlast⟩

lemma Valid.length_heap_runCalls (h : Valid rank s) (hrank : Function.Injective rank) {M : ℕ}
    (hheap : s.heap.length ≤ 2 * M) (ops : List (QueueOp κ ν))
    (hM : ∀ ops', ops' <+: ops → (ResSim.runCalls (callPlain rank) ops' s.entries).2.length ≤ M) :
    (ResSim.runCalls (PriorityDict.call rank) ops s).2.heap.length ≤ 2 * M := by
  induction ops generalizing s with
  | nil => exact hheap
  | cons op ops ih =>
    obtain ⟨-, hentries, hvalid⟩ := h.call hrank op
    have hlen := hM [op] ⟨ops, rfl⟩
    have hgrow := h.length_heap_call hrank op
    rw [hentries] at hgrow
    refine ih hvalid (hgrow.trans (max_le hheap (Nat.mul_le_mul_left 2 hlen))) fun ops' hops' => ?_
    have hrest : (ResSim.runCalls (callPlain rank) ops' (callPlain rank s.entries op).2).2.length ≤
        M := hM (op :: ops') ((List.prefix_cons_inj op).mpr hops')
    rw [← hentries] at hrest
    exact hrest

lemma valid_init (items : List (κ × ν)) : Valid rank (init rank items) :=
  valid_rebuildHeap (nodup_foldl_dictSet (d := []) List.nodup_nil items)

end PriorityDict

section Runs

variable {κ ν : Type} [DecidableEq κ] [LinearOrder ν] {rank : κ → ℕ}

/-- Whatever is called, and in whatever order, a `priority_dict` answers as a plain dictionary
that is searched for its smallest entry each time, has the same entries, and its heap never gets
longer than twice the largest length that the dictionary has had. -/
theorem priorityDict_refines (hrank : Function.Injective rank) (items : List (κ × ν))
    (ops : List (QueueOp κ ν)) :
    (runCalls (PriorityDict.call rank) ops (PriorityDict.init rank items)).1 =
        (runCalls (callPlain rank) ops (dictOf items)).1 ∧
      (runCalls (PriorityDict.call rank) ops (PriorityDict.init rank items)).2.entries =
        (runCalls (callPlain rank) ops (dictOf items)).2 ∧
      ∀ M, (∀ ops', ops' <+: ops →
          (runCalls (callPlain rank) ops' (dictOf items)).2.length ≤ M) →
        (runCalls (PriorityDict.call rank) ops (PriorityDict.init rank items)).2.heap.length ≤
          2 * M := by
  have hvalid : PriorityDict.Valid rank (PriorityDict.init rank items) :=
    PriorityDict.valid_init items
  obtain ⟨hanswers, hentries⟩ := hvalid.runCalls hrank ops
  refine ⟨hanswers, hentries, fun M hM => hvalid.length_heap_runCalls hrank ?_ ops hM⟩
  rw [PriorityDict.init, PriorityDict.length_rebuildHeap]
  exact (hM [] List.nil_prefix).trans (Nat.le_mul_of_pos_left _ Nat.two_pos)

theorem priorityDict_refines_two :
    (runCalls (PriorityDict.call id) [.setItem 0 0, .smallest, .setItem 0 3, .sortedIter,
      .popSmallest] (PriorityDict.init id [(0, 2), (1, 1)])).1 =
      [.done, .key 0, .done, .keys [1, 0], (.indexError : QueueAnswer ℕ ℕ)] :=
  (priorityDict_refines Function.injective_id [(0, 2), (1, 1)] _).1.trans (by decide +kernel)

end Runs

end ResSim
