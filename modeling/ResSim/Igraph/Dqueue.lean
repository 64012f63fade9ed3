import Mathlib.Algebra.GroupWithZero.Nat
import Mathlib.Data.List.Rotate
import ResSim.Lib.FisherYates

/-!
# The double ended queue of igraph

`igraph_dqueue_t` keeps its elements in a block of memory that they fill in a circle. `begin`
is the place of the first element, `end` the place after the last one, and a null `end` says
that there are none: with elements in it, `begin == end` means that the block is full.

The searches keep three numbers for each edge that waits, so their queue has a shuffle that
moves elements three at a time. Any run of calls answers as a plain list would.
-/

namespace ResSim

variable {α : Type}

/-- `igraph_error_type_t`: what an igraph function reports. -/
inductive Errno where
  | einval
  | einvevector
  | einvvid
  | einvmode
  deriving DecidableEq

/-- What stops an igraph function: an error with its reason, a null pointer that it follows, or
a loop that takes more passes than it is given. -/
inductive Fault where
  | error (reason : String) (errno : Errno)
  | nullPointer
  | noEnd
  deriving DecidableEq

/-- `igraph_dqueue_t`. The pointers are places of the storage, `endPos` is `none` where `end`
is null. -/
structure Dqueue (α : Type) where
  stor : List α
  beginPos : ℕ
  endPos : Option ℕ
  begin_lt : beginPos < stor.length
  end_lt : ∀ e ∈ endPos, e < stor.length

namespace Dqueue

/-- A pointer that was moved on, back at the start of the storage if it reached its end. -/
def wrap (cap p : ℕ) : ℕ := if p = cap then 0 else p

lemma wrap_lt {cap p : ℕ} (h : p < cap) : wrap cap (p + 1) < cap := by
  unfold wrap
  split <;> omega

lemma wrap_eq_mod {cap p : ℕ} (h : p < cap) : wrap cap (p + 1) = (p + 1) % cap := by
  unfold wrap
  split
  · rename_i hp
    rw [hp, Nat.mod_self]
  · exact (Nat.mod_eq_of_lt (by omega)).symm

lemma init_lt {size : ℤ} [Zero α] :
    0 < (List.replicate (if size ≤ 0 then 1 else size).toNat (0 : α)).length := by
  rw [List.length_replicate]
  split <;> omega

/-- `igraph_dqueue_init`: the memory is cleared when it is allocated. -/
def init [Zero α] (size : ℤ) : Dqueue α where
  stor := List.replicate (if size ≤ 0 then 1 else size).toNat 0
  beginPos := 0
  endPos := none
  begin_lt := init_lt
  end_lt := nofun

/-- `igraph_dqueue_empty`. -/
def empty (q : Dqueue α) : Bool := q.endPos.isNone

lemma clear_lt (q : Dqueue α) : 0 < q.stor.length := Nat.zero_lt_of_lt q.begin_lt

/-- `igraph_dqueue_clear`. -/
def clear (q : Dqueue α) : Dqueue α where
  stor := q.stor
  beginPos := 0
  endPos := none
  begin_lt := q.clear_lt
  end_lt := nofun

/-- `igraph_dqueue_full`. -/
def full (q : Dqueue α) : Bool := some q.beginPos = q.endPos

/-- `igraph_dqueue_size`. -/
def size (q : Dqueue α) : ℕ :=
  match q.endPos with
  | none => 0
  | some e => if q.beginPos < e then e - q.beginPos else q.stor.length - q.beginPos + e

/-- What a place of the storage holds. -/
def deref (q : Dqueue α) (p : ℕ) (h : p < q.stor.length) : α := q.stor[p]

/-- `igraph_dqueue_head`. -/
def head (q : Dqueue α) : α := q.deref q.beginPos q.begin_lt

/-- The place before a place of the storage. -/
def before (q : Dqueue α) (e : ℕ) : ℕ := if e = 0 then q.stor.length - 1 else e - 1

lemma before_lt (q : Dqueue α) {e : ℕ} (h : e < q.stor.length) :
    q.before e < q.stor.length := by
  unfold before
  split <;> omega

/-- `igraph_dqueue_back`. -/
def back (q : Dqueue α) : Except Fault α :=
  match h : q.endPos with
  | none => .error .nullPointer
  | some e => .ok (q.deref (q.before e) (q.before_lt (q.end_lt e h)))

lemma filter_lt (q : Dqueue α) (b : ℕ) :
    ∀ e ∈ q.endPos.filter (fun e => b ≠ e), e < q.stor.length := by
  intro e he
  exact q.end_lt e (Option.filter_eq_some_iff.mp he).1

/-- `igraph_dqueue_pop`. -/
def pop (q : Dqueue α) : α × Dqueue α :=
  let next := wrap q.stor.length (q.beginPos + 1)
  (q.head,
    { stor := q.stor
      beginPos := next
      endPos := q.endPos.filter (fun e => next ≠ e)
      begin_lt := wrap_lt q.begin_lt
      end_lt := q.filter_lt next })

lemma before_filter_lt (q : Dqueue α) {e : ℕ} (h : e < q.stor.length) :
    ∀ e' ∈ (some (q.before e)).filter (fun e' => q.beginPos ≠ e'), e' < q.stor.length := by
  intro e' he'
  obtain rfl : q.before e = e' := Option.some.inj (Option.filter_eq_some_iff.mp he').1
  exact q.before_lt h

/-- `igraph_dqueue_pop_back`. -/
def popBack (q : Dqueue α) : Except Fault (α × Dqueue α) :=
  match h : q.endPos with
  | none => .error .nullPointer
  | some e =>
    .ok (q.deref (q.before e) (q.before_lt (q.end_lt e h)),
      { stor := q.stor
        beginPos := q.beginPos
        endPos := (some (q.before e)).filter (fun e' => q.beginPos ≠ e')
        begin_lt := q.begin_lt
        end_lt := q.before_filter_lt (q.end_lt e h) })

lemma write_lt {stor : List α} {e : ℕ} {elem : α} (h : e < stor.length) :
    ∀ e' ∈ some (wrap stor.length (e + 1)), e' < (stor.set e elem).length := by
  intro e' he'
  obtain rfl := Option.some.inj he'
  rw [List.length_set]
  exact wrap_lt h

/-- Writes an element where `end` points to and moves `end` on. -/
def write (stor : List α) (b e : ℕ) (elem : α) (hb : b < stor.length) (he : e < stor.length) :
    Dqueue α where
  stor := stor.set e elem
  beginPos := b
  endPos := some (wrap stor.length (e + 1))
  begin_lt := by rwa [List.length_set]
  end_lt := write_lt he

/-- `memcpy`: the block from place `off` on becomes `src`. -/
def memcpy (dst : List α) (off : ℕ) (src : List α) : List α :=
  dst.take off ++ src ++ dst.drop (off + src.length)

/-- The larger block of a full queue: first what stands from `begin` on, then what stands
before `end`. -/
def bigger [Zero α] (q : Dqueue α) (e : ℕ) : List α :=
  memcpy (memcpy (List.replicate (2 * q.stor.length + 1) 0) 0 (q.stor.drop q.beginPos))
    (q.stor.length - q.beginPos) (q.stor.take e)

lemma length_memcpy {dst src : List α} {off : ℕ} (h : off + src.length ≤ dst.length) :
    (memcpy dst off src).length = dst.length := by
  simp only [memcpy, List.length_append, List.length_take, List.length_drop]
  omega

lemma length_bigger [Zero α] (q : Dqueue α) {e : ℕ} (he : e < q.stor.length) :
    (q.bigger e).length = 2 * q.stor.length + 1 := by
  have hb := q.begin_lt
  have h₁ : (memcpy (List.replicate (2 * q.stor.length + 1) (0 : α)) 0
      (q.stor.drop q.beginPos)).length = 2 * q.stor.length + 1 := by
    rw [length_memcpy, List.length_replicate]
    rw [List.length_drop, List.length_replicate]
    omega
  unfold bigger
  rw [length_memcpy, h₁]
  rw [h₁, List.length_take]
  omega

lemma zero_lt_bigger [Zero α] (q : Dqueue α) {e : ℕ} (he : e < q.stor.length) :
    0 < (q.bigger e).length := by
  rw [q.length_bigger he]
  omega

lemma length_lt_bigger [Zero α] (q : Dqueue α) {e : ℕ} (he : e < q.stor.length) :
    q.stor.length < (q.bigger e).length := by
  rw [q.length_bigger he]
  omega

/-- `igraph_dqueue_push`. -/
def push [Zero α] (q : Dqueue α) (elem : α) : Dqueue α :=
  match h : q.endPos with
  | none => write q.stor q.beginPos q.beginPos elem q.begin_lt q.begin_lt
  | some e =>
    if q.beginPos ≠ e then write q.stor q.beginPos e elem q.begin_lt (q.end_lt e h)
    else
      write (q.bigger e) 0 q.stor.length elem (q.zero_lt_bigger (q.end_lt e h))
        (q.length_lt_bigger (q.end_lt e h))

/-- A pointer is below `end`; nothing is below a null pointer. -/
def belowEnd (q : Dqueue α) (p : ℕ) : Bool :=
  match q.endPos with
  | none => false
  | some e => p < e

/-- `igraph_dqueue_e_ptr`. -/
def ePtr (q : Dqueue α) (idx : ℕ) : Option ℕ :=
  let adjIdx := idx - (q.stor.length - q.beginPos)
  if q.belowEnd (q.beginPos + idx) ||
      (!q.belowEnd q.beginPos && q.beginPos + idx < q.stor.length) then
    some (q.beginPos + idx)
  else if !q.belowEnd q.beginPos && q.belowEnd adjIdx then some adjIdx
  else none

/-- `igraph_dqueue_e`: zero for an index that is too large. -/
def e [Zero α] (q : Dqueue α) (idx : ℕ) : α :=
  let adjIdx := idx - (q.stor.length - q.beginPos)
  if q.belowEnd (q.beginPos + idx) ||
      (!q.belowEnd q.beginPos && q.beginPos + idx < q.stor.length) then
    q.stor.getD (q.beginPos + idx) 0
  else if !q.belowEnd q.beginPos && q.belowEnd adjIdx then q.stor.getD adjIdx 0
  else 0

/-- Exchanges what two pointers point to. -/
def exchange (q : Dqueue α) (i j : Option ℕ) : Except Fault (Dqueue α) :=
  match i, j with
  | some i, some j =>
    .ok
      { stor := q.stor.swap i j
        beginPos := q.beginPos
        endPos := q.endPos
        begin_lt := by rw [List.length_swap]; exact q.begin_lt
        end_lt := by rw [List.length_swap]; exact q.end_lt }
  | _, _ => .error .nullPointer

/-- The passes of the shuffle from item `i` on, for a queue of `size` elements. -/
def shufflePasses (size : ℕ) : Rnd → ℕ → ℕ → Dqueue α → Except Fault (Dqueue α)
  | _, _, 0, q => .ok q
  | rnd, i, passes + 1, q => do
    let j := between (rnd 0) i (size / 3 - 1)
    let q₀ ← q.exchange (q.ePtr (i * 3)) (q.ePtr (j * 3))
    let q₁ ← q₀.exchange (q.ePtr (i * 3 + 1)) (q.ePtr (j * 3 + 1))
    let q₂ ← q₁.exchange (q.ePtr (i * 3 + 2)) (q.ePtr (j * 3 + 2))
    shufflePasses size rnd.next (i + 1) passes q₂

/-- `igraph_dqueue_shuffle`. -/
def shuffle (rnd : Rnd) (q : Dqueue α) : Except Fault (Dqueue α) :=
  if q.size % 3 ≠ 0 then
    .error (.error ("This is a terribly hacked shuffle that assumes the dqueue contains items" ++
      " that are 3 elements long\n") .einval)
  else if 1 < q.size then shufflePasses q.size rnd 0 (q.size / 3 - 1) q
  else .ok q

/-! ### The elements in order -/

/-- The elements of the queue: `size` places of the storage, read from `begin` in a circle. -/
def toList (q : Dqueue α) : List α := (q.stor.rotate q.beginPos).take q.size

variable {q q' : Dqueue α} {xs : List α} {x : α}

lemma mod_of_lt_two_mul {cap p : ℕ} (h : p < 2 * cap) :
    p % cap = if p < cap then p else p - cap := by
  split
  · rename_i hp
    exact Nat.mod_eq_of_lt hp
  · rw [Nat.mod_eq_sub_mod (by omega), Nat.mod_eq_of_lt (by omega)]

lemma size_le (q : Dqueue α) : q.size ≤ q.stor.length := by
  have hb := q.begin_lt
  unfold size
  split
  · omega
  · rename_i e he
    have := q.end_lt e he
    split <;> omega

lemma size_eq_zero : q.size = 0 ↔ q.endPos = none := by
  have hb := q.begin_lt
  unfold size
  split
  · simp [*]
  · rename_i e he
    rw [he]
    constructor
    · intro h
      split at h <;> omega
    · exact nofun

/-- The place that `end` points to comes `size` places after `begin`. -/
lemma endPos_eq {e : ℕ} (h : q.endPos = some e) :
    e = (q.beginPos + q.size) % q.stor.length := by
  have hb := q.begin_lt
  have he := q.end_lt e h
  have hle := q.size_le
  rw [mod_of_lt_two_mul (by omega)]
  simp only [size, h] at hle ⊢
  split_ifs <;> omega

@[simp] lemma length_toList (q : Dqueue α) : q.toList.length = q.size := by
  simp [toList, q.size_le]

lemma getElem?_toList (q : Dqueue α) (i : ℕ) :
    q.toList[i]? = if i < q.size then q.stor[(q.beginPos + i) % q.stor.length]? else none := by
  have hle := q.size_le
  rw [toList, List.getElem?_take]
  split
  · rw [List.getElem?_rotate (by omega), Nat.add_comm]
  · rfl

lemma toList_eq_nil : q.toList = [] ↔ q.endPos = none := by
  rw [← List.length_eq_zero_iff, length_toList, size_eq_zero]

lemma empty_iff : q.empty = true ↔ q.toList = [] := by
  rw [toList_eq_nil, empty, Option.isNone_iff_eq_none]

@[simp] lemma toList_init [Zero α] (size : ℤ) : (init size : Dqueue α).toList = [] :=
  toList_eq_nil.mpr rfl

@[simp] lemma toList_clear (q : Dqueue α) : q.clear.toList = [] :=
  toList_eq_nil.mpr rfl

/-- A queue holds a list if it has as many elements and the places from `begin` on have them. -/
lemma toList_eq (hsize : q.size = xs.length)
    (hget : ∀ i < xs.length, q.stor[(q.beginPos + i) % q.stor.length]? = xs[i]?) :
    q.toList = xs := by
  apply List.ext_getElem?
  intro i
  rw [getElem?_toList, hsize]
  split
  · rename_i hi
    exact hget i hi
  · rw [List.getElem?_eq_none (by omega)]

/-- What is written at `end` comes after the elements before it. -/
lemma toList_write {stor : List α} {b e n : ℕ} (hb : b < stor.length) (he : e < stor.length)
    (hlen : xs.length = n) (hn : n < stor.length) (hend : e = (b + n) % stor.length)
    (hget : ∀ i < xs.length, stor[(b + i) % stor.length]? = xs[i]?) :
    (write stor b e x hb he).toList = xs ++ [x] := by
  rw [mod_of_lt_two_mul (by omega)] at hend
  apply toList_eq
  · rw [List.length_append, List.length_singleton]
    simp only [size, write, List.length_set, wrap]
    split_ifs at hend ⊢ <;> omega
  · intro i hi
    rw [List.length_append, List.length_singleton] at hi
    simp only [write, List.length_set]
    rcases Nat.lt_or_ge i xs.length with hlt | hge
    · rw [List.getElem?_append_left hlt, ← hget i hlt, List.getElem?_set_ne]
      rw [mod_of_lt_two_mul (by omega)]
      split_ifs at hend ⊢ <;> omega
    · obtain rfl : i = n := by omega
      rw [List.getElem?_append_right hge, hlen, Nat.sub_self, List.getElem?_cons_zero,
        mod_of_lt_two_mul (by omega), ← hend, List.getElem?_set_self he]

lemma getElem?_stor {i : ℕ} (h : i < q.size) :
    q.stor[(q.beginPos + i) % q.stor.length]? = q.toList[i]? := by
  rw [getElem?_toList, if_pos h]

/-- The larger block starts with the elements of a full queue. -/
lemma getElem?_bigger [Zero α] (hfull : q.endPos = some q.beginPos) {i : ℕ}
    (hi : i < q.stor.length) :
    (q.bigger q.beginPos)[i]? = q.toList[i]? := by
  have hb := q.begin_lt
  have hsize : q.size = q.stor.length := by
    simp only [size, hfull, Nat.lt_irrefl, if_false]
    omega
  rw [← getElem?_stor (by omega), mod_of_lt_two_mul (by omega)]
  simp only [bigger, memcpy, List.take_zero, List.nil_append, List.length_drop, List.length_take]
  rw [List.append_assoc, List.getElem?_append]
  simp only [List.length_take, List.length_append, List.length_drop, List.length_replicate]
  split
  · rename_i h
    rw [List.getElem?_take_of_lt (by omega), List.getElem?_append_left
      (by rw [List.length_drop]; omega), List.getElem?_drop, if_pos (by omega)]
  · rename_i h
    rw [List.getElem?_append_left (by rw [List.length_take]; omega),
      List.getElem?_take_of_lt (by omega), if_neg (by omega)]
    congr 1
    omega

@[simp] lemma toList_push [Zero α] (q : Dqueue α) (x : α) :
    (q.push x).toList = q.toList ++ [x] := by
  have hb := q.begin_lt
  have hle := q.size_le
  unfold push
  split
  · rename_i he
    have h0 : q.size = 0 := size_eq_zero.mpr he
    refine toList_write _ _ (length_toList q) (by omega) ?_ ?_
    · rw [h0, Nat.add_zero, Nat.mod_eq_of_lt hb]
    · exact fun i hi => getElem?_stor (by simpa using hi)
  · rename_i e he
    split
    · rename_i hne
      refine toList_write _ _ (length_toList q) ?_ (endPos_eq he) ?_
      · have := endPos_eq he
        refine Nat.lt_of_le_of_ne hle fun hfull => hne ?_
        rw [hfull, Nat.add_mod_right, Nat.mod_eq_of_lt hb] at this
        exact this.symm
      · exact fun i hi => getElem?_stor (by simpa using hi)
    · rename_i heq
      obtain rfl : q.beginPos = e := by omega
      have hsize : q.size = q.stor.length := by
        simp only [size, he, Nat.lt_irrefl, if_false]
        omega
      refine toList_write _ _ (by rw [length_toList, hsize]) ?_ ?_ ?_
      · exact q.length_lt_bigger hb
      · rw [Nat.zero_add, Nat.mod_eq_of_lt (q.length_lt_bigger hb)]
      · intro i hi
        rw [length_toList, hsize] at hi
        rw [Nat.zero_add, Nat.mod_eq_of_lt (hi.trans (q.length_lt_bigger hb)),
          getElem?_bigger he hi]

lemma size_pos_of_toList (h : q.toList ≠ []) : 0 < q.size := by
  rw [← length_toList]
  exact List.length_pos_iff.mpr h

lemma head_eq (h : q.toList = x :: xs) : q.head = x := by
  have hpos := size_pos_of_toList (h ▸ List.cons_ne_nil x xs)
  have hget := getElem?_stor hpos
  rw [h, Nat.add_zero, Nat.mod_eq_of_lt q.begin_lt, List.getElem?_cons_zero,
    List.getElem?_eq_getElem q.begin_lt] at hget
  exact Option.some.inj hget

lemma size_pop (h : q.toList ≠ []) : q.pop.2.size = q.size - 1 := by
  have hb := q.begin_lt
  have hpos := size_pos_of_toList h
  cases he : q.endPos with
  | none => exact absurd (toList_eq_nil.mpr he) h
  | some e =>
    have hlt := q.end_lt e he
    by_cases heq : wrap q.stor.length (q.beginPos + 1) = e
    · simp only [size, pop, he, heq, Option.filter_some, decide_not, decide_true, Bool.not_true,
        ne_eq, Bool.false_eq_true, if_false]
      unfold wrap at heq
      split_ifs at heq ⊢ <;> omega
    · simp only [size, pop, he, heq, Option.filter_some, ne_eq, not_false_eq_true, decide_true,
        if_true]
      unfold wrap at heq ⊢
      split_ifs at heq ⊢ <;> omega

/-- Popping takes the first element. -/
lemma pop_eq (h : q.toList = x :: xs) : q.pop.1 = x ∧ q.pop.2.toList = xs := by
  have hne : q.toList ≠ [] := h ▸ List.cons_ne_nil x xs
  have hlen : q.size = xs.length + 1 := by rw [← length_toList, h, List.length_cons]
  have hb := q.begin_lt
  have hle := q.size_le
  refine ⟨head_eq h, toList_eq ?_ ?_⟩
  · rw [size_pop hne, hlen, Nat.add_sub_cancel]
  · intro i hi
    have hget := getElem?_stor (q := q) (i := i + 1) (by omega)
    rw [h, List.getElem?_cons_succ] at hget
    rw [← hget]
    simp only [pop, wrap_eq_mod hb, Nat.mod_add_mod]
    congr 2
    omega

lemma before_end {e : ℕ} (h : q.endPos = some e) (hpos : 0 < q.size) :
    q.before e = (q.beginPos + (q.size - 1)) % q.stor.length := by
  have hb := q.begin_lt
  have hle := q.size_le
  have hend := endPos_eq h
  rw [mod_of_lt_two_mul (by omega)] at hend ⊢
  unfold before
  split_ifs at hend ⊢ <;> omega

lemma deref_before {e : ℕ} (h : q.endPos = some e) (hxs : q.toList = xs ++ [x])
    (hlt : q.before e < q.stor.length) : q.deref (q.before e) hlt = x := by
  have hlen : q.size = xs.length + 1 := by
    rw [← length_toList, hxs, List.length_append, List.length_singleton]
  have hget := getElem?_stor (q := q) (i := xs.length) (by omega)
  have hbefore := before_end h (by omega)
  rw [hlen, Nat.add_sub_cancel] at hbefore
  rw [← hbefore, hxs, List.getElem?_append_right le_rfl, Nat.sub_self, List.getElem?_cons_zero,
    List.getElem?_eq_getElem hlt] at hget
  exact Option.some.inj hget

lemma back_eq (h : q.toList = xs ++ [x]) : q.back = .ok x := by
  have hne : q.endPos ≠ none := by
    rw [ne_eq, ← toList_eq_nil, h]
    simp
  unfold back
  split
  · exact absurd ‹_› hne
  · rename_i e he
    rw [deref_before he h]

lemma size_popBack {e : ℕ} (h : q.endPos = some e) :
    (q.before e ≠ q.beginPos → (if q.beginPos < q.before e then q.before e - q.beginPos
      else q.stor.length - q.beginPos + q.before e) = q.size - 1) ∧
    (q.before e = q.beginPos → q.size = 1) := by
  have hb := q.begin_lt
  have hlt := q.end_lt e h
  simp only [size, h]
  unfold before
  split_ifs <;> omega

/-- Popping from the back takes the last element. -/
lemma popBack_eq (h : q.toList = xs ++ [x]) :
    ∃ q', q.popBack = .ok (x, q') ∧ q'.toList = xs := by
  have hlen : q.size = xs.length + 1 := by
    rw [← length_toList, h, List.length_append, List.length_singleton]
  have hne : q.endPos ≠ none := by
    rw [ne_eq, ← size_eq_zero]
    omega
  unfold popBack
  split
  · exact absurd ‹_› hne
  · rename_i e he
    refine ⟨_, by rw [deref_before he h], toList_eq ?_ ?_⟩
    · obtain ⟨hmany, hone⟩ := size_popBack he
      by_cases heq : q.before e = q.beginPos
      · have := hone heq
        simp only [size, heq, Option.filter_some, ne_eq, not_true_eq_false, decide_false,
          Bool.false_eq_true, if_false]
        omega
      · have hmany := hmany heq
        simp only [size, Option.filter_some, Ne.symm heq, ne_eq, not_false_eq_true, decide_true,
          if_true]
        omega
    · intro i hi
      have hget := getElem?_stor (q := q) (i := i) (by omega)
      rwa [h, List.getElem?_append_left hi] at hget

/-! ### The shuffle -/

lemma ePtr_eq {i : ℕ} (h : i < q.size) :
    q.ePtr i = some ((q.beginPos + i) % q.stor.length) := by
  have hb := q.begin_lt
  have hle := q.size_le
  rw [mod_of_lt_two_mul (by omega)]
  cases he : q.endPos with
  | none => exact absurd (size_eq_zero.mpr he) (by omega)
  | some e =>
    simp only [size, he] at h
    have hlt := q.end_lt e he
    simp only [ePtr, belowEnd, he, Bool.or_eq_true, Bool.and_eq_true, Bool.not_eq_true',
      decide_eq_true_eq, decide_eq_false_iff_not]
    split_ifs at h ⊢ <;> first | rfl | (congr 1; omega)

lemma e_eq [Zero α] {i : ℕ} (h : i < q.size) : some (q.e i) = q.toList[i]? := by
  have hptr := ePtr_eq h
  have hlt : (q.beginPos + i) % q.stor.length < q.stor.length :=
    Nat.mod_lt _ (Nat.zero_lt_of_lt q.begin_lt)
  have hval : q.e i = ((q.ePtr i).map (fun p => q.stor.getD p 0)).getD 0 := by
    unfold e ePtr
    dsimp only
    split_ifs <;> rfl
  rw [hval, hptr, Option.map_some, Option.getD_some, List.getD_eq_getElem?_getD,
    ← getElem?_stor h, List.getElem?_eq_getElem hlt, Option.getD_some]

/-- The queue with its elements at two positions exchanged. -/
structure Exchanged (q q' : Dqueue α) (i j : ℕ) : Prop where
  ePtr : q'.ePtr = q.ePtr
  size : q'.size = q.size
  toList : q'.toList = q.toList.swap i j

lemma exchange_eq {i j : ℕ} (hi : i < q.size) (hj : j < q.size) :
    ∃ q', q.exchange (q.ePtr i) (q.ePtr j) = .ok q' ∧ Exchanged q q' i j := by
  have hle := q.size_le
  have hb := q.begin_lt
  rw [ePtr_eq hi, ePtr_eq hj]
  refine ⟨_, rfl, ?_, ?_, toList_eq ?_ ?_⟩
  · funext k
    unfold ePtr belowEnd
    rw [List.length_swap]
  · unfold size
    rw [List.length_swap]
  · unfold size
    rw [List.length_swap, List.length_swap]
    exact (length_toList q).symm
  · intro k hk
    rw [List.length_swap, length_toList] at hk
    have hplace : ∀ a, (q.beginPos + a) % q.stor.length < q.stor.length :=
      fun a => Nat.mod_lt _ (by omega)
    have hinj : ∀ a < q.size, ∀ b < q.size,
        ((q.beginPos + a) % q.stor.length = (q.beginPos + b) % q.stor.length ↔ a = b) := by
      intro a ha b hb'
      rw [mod_of_lt_two_mul (by omega), mod_of_lt_two_mul (by omega)]
      split_ifs <;> omega
    simp only [List.length_swap]
    rw [getElem?_swap (hplace i) (hplace j), getElem?_swap (by simpa) (by simpa)]
    unfold swapped
    rw [if_congr (hinj k hk i hi) rfl rfl, if_congr (hinj k hk j hj) rfl rfl]
    split_ifs
    · exact getElem?_stor hj
    · exact getElem?_stor hi
    · exact getElem?_stor hk

/-- The numbers of items that take three places each. -/
def flat (ts : List (α × α × α)) : List α := ts.flatMap (fun t => [t.1, t.2.1, t.2.2])

/-- The number of an item at an offset. -/
def entry (k : ℕ) (t : α × α × α) : α := if k = 0 then t.1 else if k = 1 then t.2.1 else t.2.2

variable {ts : List (α × α × α)}

lemma flat_cons (t : α × α × α) (ts : List (α × α × α)) :
    flat (t :: ts) = t.1 :: t.2.1 :: t.2.2 :: flat ts := rfl

lemma flat_append (ts us : List (α × α × α)) : flat (ts ++ us) = flat ts ++ flat us :=
  List.flatMap_append

@[simp] lemma length_flat (ts : List (α × α × α)) : (flat ts).length = ts.length * 3 := by
  induction ts with
  | nil => rfl
  | cons t ts ih =>
    rw [flat_cons]
    simp only [List.length_cons, ih]
    omega

lemma getElem?_flat (ts : List (α × α × α)) (m : ℕ) :
    (flat ts)[m]? = ts[m / 3]?.map (entry (m % 3)) := by
  induction ts generalizing m with
  | nil => rfl
  | cons t ts ih =>
    rw [flat_cons]
    match m with
    | 0 => rfl
    | 1 => rfl
    | 2 => rfl
    | m + 3 =>
      rw [List.getElem?_cons_succ, List.getElem?_cons_succ, List.getElem?_cons_succ, ih,
        Nat.add_mod_right, Nat.add_div_right m (by omega), List.getElem?_cons_succ]

lemma flat_swap {i j : ℕ} (hi : i < ts.length) (hj : j < ts.length) :
    (((flat ts).swap (i * 3) (j * 3)).swap (i * 3 + 1) (j * 3 + 1)).swap (i * 3 + 2) (j * 3 + 2) =
      flat (ts.swap i j) := by
  apply List.ext_getElem?
  intro m
  rw [getElem?_swap, getElem?_swap, getElem?_swap, getElem?_flat, getElem?_flat,
    getElem?_swap hi hj]
  · congr 2
    all_goals
      unfold swapped
      split_ifs <;> omega
  all_goals
    simp only [List.length_swap, length_flat]
    omega

lemma shufflePasses_eq {size passes : ℕ} (rnd : Rnd) (i : ℕ) (hq : q.toList = flat ts)
    (hsize : size = ts.length * 3) (hpasses : i + passes < ts.length) :
    ∃ q', shufflePasses size rnd i passes q = .ok q' ∧
      q'.toList = flat (frontPasses rnd i passes ts) := by
  induction passes generalizing q ts rnd i with
  | zero => exact ⟨q, rfl, hq⟩
  | succ passes ih =>
    have hlast : size / 3 - 1 = ts.length - 1 := by omega
    have hj : between (rnd 0) i (ts.length - 1) < ts.length := by
      have : between (rnd 0) i (ts.length - 1) ≤ ts.length - 1 := between_le (by omega)
      omega
    have hlen : q.size = ts.length * 3 := by rw [← length_toList, hq, length_flat]
    obtain ⟨q₀, he₀, h₀⟩ := exchange_eq (q := q) (i := i * 3)
      (j := between (rnd 0) i (ts.length - 1) * 3) (by omega) (by omega)
    obtain ⟨q₁, he₁, h₁⟩ := exchange_eq (q := q₀) (i := i * 3 + 1)
      (j := between (rnd 0) i (ts.length - 1) * 3 + 1) (by rw [h₀.size]; omega)
      (by rw [h₀.size]; omega)
    obtain ⟨q₂, he₂, h₂⟩ := exchange_eq (q := q₁) (i := i * 3 + 2)
      (j := between (rnd 0) i (ts.length - 1) * 3 + 2) (by rw [h₁.size, h₀.size]; omega)
      (by rw [h₁.size, h₀.size]; omega)
    rw [h₀.ePtr] at he₁
    rw [h₁.ePtr, h₀.ePtr] at he₂
    have hq₂ : q₂.toList = flat (ts.swap i (between (rnd 0) i (ts.length - 1))) := by
      rw [h₂.toList, h₁.toList, h₀.toList, hq, flat_swap (by omega) hj]
    obtain ⟨q', he', hq'⟩ := ih rnd.next (i + 1) hq₂
      (by rw [List.length_swap]; exact hsize) (by rw [List.length_swap]; omega)
    refine ⟨q', ?_, hq'⟩
    rw [shufflePasses, hlast]
    simp only [he₀, he₁, he₂, bind, Except.bind]
    exact he'

/-- Shuffling a queue of items shuffles the items. -/
lemma shuffle_eq (rnd : Rnd) (hq : q.toList = flat ts) :
    ∃ q', q.shuffle rnd = .ok q' ∧ q'.toList = flat (shuffleFront rnd ts) := by
  have hlen : q.size = ts.length * 3 := by rw [← length_toList, hq, length_flat]
  unfold shuffle
  rw [if_neg (by omega)]
  cases ts with
  | nil => exact ⟨q, by rw [if_neg (by rw [hlen, List.length_nil]; omega)], hq⟩
  | cons t ts =>
    rw [List.length_cons] at hlen
    rw [if_pos (by omega), show q.size / 3 - 1 = (t :: ts).length - 1 by
      rw [List.length_cons]; omega]
    exact shufflePasses_eq rnd 0 hq (by rw [List.length_cons]; exact hlen)
      (by rw [List.length_cons]; omega)

lemma exists_flat : ∀ xs : List α, xs.length % 3 = 0 → ∃ ts, xs = flat ts
  | [], _ => ⟨[], rfl⟩
  | [_], h => by simp at h
  | [_, _], h => by simp at h
  | a :: b :: c :: xs, h => by
    simp only [List.length_cons] at h
    obtain ⟨ts, rfl⟩ := exists_flat xs (by omega)
    exact ⟨(a, b, c) :: ts, rfl⟩

lemma exists_concat (h : 0 < xs.length) : ∃ ys x, xs = ys ++ [x] :=
  ⟨xs.dropLast, xs.getLast (List.length_pos_iff.mp h), (List.dropLast_append_getLast _).symm⟩

/-! ### Runs of calls -/

/-- A call of a queue operation. -/
inductive Call (α : Type) where
  | clear
  | empty
  | size
  | head
  | back
  | pop
  | popBack
  | push (elem : α)
  | e (idx : ℕ)
  | shuffle

/-- What a call returns. -/
inductive Answer (α : Type) where
  | unit
  | flag (b : Bool)
  | count (n : ℕ)
  | elem (x : α)
  deriving DecidableEq

/-- Answers a call. -/
def call [Zero α] (q : Dqueue α) (rnd : Rnd) : Call α → Except Fault (Answer α × Dqueue α)
  | .clear => .ok (.unit, q.clear)
  | .empty => .ok (.flag q.empty, q)
  | .size => .ok (.count q.size, q)
  | .head => .ok (.elem q.head, q)
  | .back => q.back.map (fun x => (.elem x, q))
  | .pop => .ok (.elem q.pop.1, q.pop.2)
  | .popBack => q.popBack.map (fun r => (.elem r.1, r.2))
  | .push elem => .ok (.unit, q.push elem)
  | .e idx => .ok (.elem (q.e idx), q)
  | .shuffle => (q.shuffle rnd).map (fun q' => (.unit, q'))

/-- Answers calls one after the other, each with its own draws. -/
def calls [Zero α] :
    Dqueue α → (ℕ → Rnd) → List (Call α) → Except Fault (List (Answer α) × Dqueue α)
  | q, _, [] => .ok ([], q)
  | q, draws, c :: cs =>
    match q.call (draws 0) c with
    | .error f => .error f
    | .ok (a, q') => (calls q' (fun n => draws (n + 1)) cs).map (fun r => (a :: r.1, r.2))

/-- What a caller has to keep to, for a queue with `n` elements. -/
def Call.Legal (n : ℕ) : Call α → Prop
  | .head => 0 < n
  | .back => 0 < n
  | .pop => 0 < n
  | .popBack => 0 < n
  | .e idx => idx < n
  | .shuffle => n % 3 = 0
  | _ => True

/-- The number of elements after a call. -/
def Call.left (n : ℕ) : Call α → ℕ
  | .clear => 0
  | .pop => n - 1
  | .popBack => n - 1
  | .push _ => n + 1
  | _ => n

/-- Every call is legal for the number of elements that the ones before it leave. -/
def Legal : ℕ → List (Call α) → Prop
  | _, [] => True
  | n, c :: cs => c.Legal n ∧ Legal (c.left n) cs

/-- What a call does to a queue that is a plain list. -/
inductive Does : List α → Call α → Answer α → List α → Prop where
  | clear (xs : List α) : Does xs .clear .unit []
  | empty (xs : List α) : Does xs .empty (.flag xs.isEmpty) xs
  | size (xs : List α) : Does xs .size (.count xs.length) xs
  | head (x : α) (xs : List α) : Does (x :: xs) .head (.elem x) (x :: xs)
  | back (x : α) (xs : List α) : Does (xs ++ [x]) .back (.elem x) (xs ++ [x])
  | pop (x : α) (xs : List α) : Does (x :: xs) .pop (.elem x) xs
  | popBack (x : α) (xs : List α) : Does (xs ++ [x]) .popBack (.elem x) xs
  | push (x : α) (xs : List α) : Does xs (.push x) .unit (xs ++ [x])
  | e (x : α) (xs : List α) (idx : ℕ) (h : xs[idx]? = some x) : Does xs (.e idx) (.elem x) xs
  | shuffle (ts us : List (α × α × α)) (h : us.Perm ts) : Does (flat ts) .shuffle .unit (flat us)

/-- Calls on a plain list, one after the other. -/
inductive DoAll : List α → List (Call α) → List (Answer α) → List α → Prop where
  | nil (xs : List α) : DoAll xs [] [] xs
  | cons {xs ys zs : List α} {c : Call α} {cs : List (Call α)} {a : Answer α}
      {as : List (Answer α)} (first : Does xs c a ys) (rest : DoAll ys cs as zs) :
      DoAll xs (c :: cs) (a :: as) zs

variable {ys : List α} {c : Call α} {a : Answer α}

lemma Does.length_eq (h : Does xs c a ys) : ys.length = c.left xs.length := by
  cases h with
  | shuffle ts us h =>
    rw [length_flat, length_flat, h.length_eq]
    rfl
  | _ => simp [Call.left]

lemma isEmpty_toList (q : Dqueue α) : q.empty = q.toList.isEmpty := by
  rw [Bool.eq_iff_iff, empty_iff, List.isEmpty_iff]

/-- One call answers as the list does. -/
lemma call_does [Zero α] (h : c.Legal q.toList.length) (rnd : Rnd) :
    ∃ a q', q.call rnd c = .ok (a, q') ∧ Does q.toList c a q'.toList := by
  cases c with
  | clear => exact ⟨_, _, rfl, by rw [toList_clear]; exact .clear _⟩
  | empty => exact ⟨_, _, rfl, by rw [isEmpty_toList]; exact .empty _⟩
  | size => exact ⟨_, _, rfl, by rw [← length_toList]; exact .size _⟩
  | head =>
    obtain ⟨x, xs, hx⟩ := List.exists_cons_of_length_pos h
    exact ⟨_, _, rfl, by rw [head_eq hx, hx]; exact .head x xs⟩
  | back =>
    obtain ⟨xs, x, hx⟩ := exists_concat h
    exact ⟨_, _, by rw [call, back_eq hx]; rfl, by rw [hx]; exact .back x xs⟩
  | pop =>
    obtain ⟨x, xs, hx⟩ := List.exists_cons_of_length_pos h
    exact ⟨_, _, rfl, by rw [(pop_eq hx).1, (pop_eq hx).2, hx]; exact .pop x xs⟩
  | popBack =>
    obtain ⟨xs, x, hx⟩ := exists_concat h
    obtain ⟨q', he, hq'⟩ := popBack_eq hx
    exact ⟨_, q', by rw [call, he]; rfl, by rw [hx, hq']; exact .popBack x xs⟩
  | push x => exact ⟨_, _, rfl, by rw [toList_push]; exact .push x _⟩
  | e idx =>
    have hlt : idx < q.size := by
      rw [← length_toList]
      exact h
    exact ⟨_, _, rfl, .e _ _ _ (e_eq hlt).symm⟩
  | shuffle =>
    obtain ⟨ts, hts⟩ := exists_flat _ h
    obtain ⟨q', he, hq'⟩ := shuffle_eq rnd hts
    refine ⟨_, q', by rw [call, he]; rfl, ?_⟩
    rw [hts, hq']
    exact .shuffle ts _ (shuffleFront_perm ..)

/-- Whatever the list can answer, the queue answers for some draws. -/
lemma exists_call_eq [Zero α] (h : Does q.toList c a ys) :
    ∃ rnd q', q.call rnd c = .ok (a, q') ∧ q'.toList = ys := by
  generalize hxs : q.toList = xs at h
  cases h with
  | shuffle ts us h =>
    obtain ⟨rnd, hrnd⟩ := exists_shuffleFront_eq h
    obtain ⟨q', he, hq'⟩ := shuffle_eq rnd hxs
    exact ⟨rnd, q', by rw [call, he]; rfl, by rw [hq', hrnd]⟩
  | clear => exact ⟨fun _ => 0, _, rfl, toList_clear q⟩
  | empty => exact ⟨fun _ => 0, q, by rw [call, isEmpty_toList, hxs], hxs⟩
  | size => exact ⟨fun _ => 0, q, by rw [call, ← length_toList, hxs], hxs⟩
  | head => exact ⟨fun _ => 0, q, by rw [call, head_eq hxs], hxs⟩
  | back => exact ⟨fun _ => 0, q, by rw [call, back_eq hxs]; rfl, hxs⟩
  | pop => exact ⟨fun _ => 0, _, by rw [call, (pop_eq hxs).1], (pop_eq hxs).2⟩
  | popBack =>
    obtain ⟨q', he, hq'⟩ := popBack_eq hxs
    exact ⟨fun _ => 0, q', by rw [call, he]; rfl, hq'⟩
  | push => exact ⟨fun _ => 0, _, rfl, by rw [toList_push, hxs]⟩
  | e x _ idx hx =>
    have hlt : idx < q.size := by
      rw [← length_toList, hxs]
      exact (List.getElem?_eq_some_iff.mp hx).1
    refine ⟨fun _ => 0, q, ?_, hxs⟩
    rw [call]
    have hval := e_eq hlt
    rw [hxs, hx] at hval
    rw [Option.some.inj hval]

lemma calls_does [Zero α] {cs : List (Call α)} (h : Legal q.toList.length cs) (draws : ℕ → Rnd) :
    ∃ as q', q.calls draws cs = .ok (as, q') ∧ DoAll q.toList cs as q'.toList := by
  induction cs generalizing q draws with
  | nil => exact ⟨[], q, rfl, .nil _⟩
  | cons c cs ih =>
    obtain ⟨hc, hcs⟩ := h
    obtain ⟨a, q₁, he, hdo⟩ := call_does hc (draws 0)
    rw [← hdo.length_eq] at hcs
    obtain ⟨as, q', hes, hall⟩ := ih hcs (fun n => draws (n + 1))
    refine ⟨a :: as, q', ?_, .cons hdo hall⟩
    simp only [calls, he, hes]
    rfl

lemma exists_calls_eq [Zero α] {cs : List (Call α)} {as : List (Answer α)}
    (h : DoAll q.toList cs as ys) :
    ∃ draws q', q.calls draws cs = .ok (as, q') ∧ q'.toList = ys := by
  generalize hxs : q.toList = xs at h
  induction h generalizing q with
  | nil => exact ⟨fun _ _ => 0, q, rfl, hxs⟩
  | cons first _ ih =>
    rw [← hxs] at first
    obtain ⟨rnd, q₁, he, hq₁⟩ := exists_call_eq first
    obtain ⟨draws, q', hes, hq'⟩ := ih hq₁
    refine ⟨prepend rnd draws, q', ?_, hq'⟩
    rw [calls, prepend_zero, he]
    dsimp only
    rw [show (fun n => prepend rnd draws (n + 1)) = draws from rfl, hes]
    rfl

/-- From a new queue, any sequence of calls that its callers may make ends without a fault, in
whatever way the storage wraps and grows. The answers and the elements that are left are
those that a plain list can give; a shuffle of the list reorders its items, and each order of
them comes from some draws. -/
theorem calls_refines [Zero α] (size : ℤ) (cs : List (Call α)) (h : Legal 0 cs) :
    (∀ draws, ∃ as q, (init size).calls draws cs = .ok (as, q)) ∧
      ∀ as xs, DoAll [] cs as xs ↔
        ∃ draws q, (init size).calls draws cs = .ok (as, q) ∧ q.toList = xs := by
  have hlegal : Legal (init (α := α) size).toList.length cs := by rwa [toList_init]
  refine ⟨fun draws => ?_, fun as xs => ⟨fun hall => ?_, ?_⟩⟩
  · obtain ⟨as, q, he, _⟩ := calls_does hlegal draws
    exact ⟨as, q, he⟩
  · exact exists_calls_eq (by rwa [toList_init])
  · rintro ⟨draws, q, he, rfl⟩
    obtain ⟨as', q', he', hall⟩ := calls_does hlegal draws
    rw [he, Except.ok.injEq, Prod.mk.injEq] at he'
    obtain ⟨rfl, rfl⟩ := he'
    rwa [toList_init] at hall

/-- Two items in a queue with room for one number, which grows twice, and then the first
number of the item that the shuffle puts in front. -/
def twoItems : List (Call ℕ) :=
  [.push 1, .push 2, .push 3, .push 4, .push 5, .push 6, .shuffle, .pop]

theorem calls_refines_twoItems :
    Legal 0 twoItems ∧ ∃ draws q, (init 0).calls draws twoItems =
      .ok ([.unit, .unit, .unit, .unit, .unit, .unit, .unit, .elem 4], q) ∧
        q.toList = [5, 6, 1, 2, 3] := by
  have hlegal : Legal 0 twoItems := by simp [twoItems, Legal, Call.Legal, Call.left]
  refine ⟨hlegal, ((calls_refines 0 twoItems hlegal).2 _ _).mp ?_⟩
  have hshuffle := Does.shuffle [(1, 2, 3), (4, 5, 6)] [(4, 5, 6), (1, 2, 3)] (.swap ..)
  exact .cons (.push ..) (.cons (.push ..) (.cons (.push ..) (.cons (.push ..) (.cons (.push ..)
    (.cons (.push ..) (.cons hshuffle (.cons (.pop ..) (.nil _))))))))

end Dqueue

end ResSim
