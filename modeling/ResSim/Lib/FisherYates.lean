import Mathlib.Data.List.Induction
import Mathlib.Data.List.Perm.Subperm
import ResSim.Lib.Random

/-!
# The Fisher–Yates shuffle

The shuffle exchanges entries in place, each with a drawn partner. Both directions occur in
programs: from the front, where place `i` takes an entry that is not placed yet, and from the
back. Either gives a permutation, and every permutation for some draws.
-/

namespace ResSim

variable {α : Type} {xs ys zs : List α}

/-- The position whose entry an exchange puts at position `k`. -/
def swapped (i j k : ℕ) : ℕ := if k = i then j else if k = j then i else k

lemma getElem?_swap {i j : ℕ} (hi : i < xs.length) (hj : j < xs.length) (k : ℕ) :
    (xs.swap i j)[k]? = xs[swapped i j k]? := by
  unfold swapped
  rcases Nat.lt_or_ge k xs.length with hk | hk
  · rw [List.getElem?_eq_getElem (by rwa [List.length_swap]), List.getElem_swap]
    split_ifs <;> simp_all
  · rw [List.getElem?_eq_none (by rwa [List.length_swap]), if_neg (by omega), if_neg (by omega),
      List.getElem?_eq_none hk]

/-- A drawn number, brought between two bounds. -/
def between (draw lo hi : ℕ) : ℕ := lo + draw % (hi + 1 - lo)

lemma between_le {draw lo hi : ℕ} (h : lo ≤ hi) : between draw lo hi ≤ hi := by
  have := Nat.mod_lt draw (show 0 < hi + 1 - lo by omega)
  unfold between
  omega

lemma between_add {k lo hi : ℕ} (h : lo + k ≤ hi) : between k lo hi = lo + k := by
  unfold between
  rw [Nat.mod_eq_of_lt (by omega)]

/-- The sequence with one more element in front. -/
def prepend {β : Type} (b : β) (f : ℕ → β) : ℕ → β
  | 0 => b
  | n + 1 => f n

@[simp] lemma next_prepend (k : ℕ) (rnd : Rnd) : Rnd.next (prepend k rnd) = rnd := rfl

@[simp] lemma prepend_zero {β : Type} (b : β) (f : ℕ → β) : prepend b f 0 = b := rfl

/-- The places `i`, `i + 1`, … each take an entry from their own place on. -/
def frontPasses : Rnd → ℕ → ℕ → List α → List α
  | _, _, 0, xs => xs
  | rnd, i, passes + 1, xs =>
    frontPasses rnd.next (i + 1) passes (xs.swap i (between (rnd 0) i (xs.length - 1)))

/-- The shuffle from the front. -/
def shuffleFront (rnd : Rnd) (xs : List α) : List α := frontPasses rnd 0 (xs.length - 1) xs

/-- The last of the first `n` places takes one of their entries, then the one before it. -/
def backPasses : Rnd → ℕ → List α → List α
  | _, 0, xs => xs
  | _, 1, xs => xs
  | rnd, n + 2, xs => backPasses rnd.next (n + 1) (xs.swap (n + 1) (between (rnd 0) 0 (n + 1)))

/-- The shuffle from the back. -/
def shuffleBack (rnd : Rnd) (xs : List α) : List α := backPasses rnd xs.length xs

lemma frontPasses_perm (rnd : Rnd) (i passes : ℕ) (xs : List α) :
    (frontPasses rnd i passes xs).Perm xs := by
  induction passes generalizing rnd i xs with
  | zero => exact List.Perm.refl _
  | succ passes ih => exact (ih ..).trans (List.swap_perm ..)

lemma shuffleFront_perm (rnd : Rnd) (xs : List α) : (shuffleFront rnd xs).Perm xs :=
  frontPasses_perm ..

lemma backPasses_perm (rnd : Rnd) (n : ℕ) (xs : List α) : (backPasses rnd n xs).Perm xs := by
  induction rnd, n, xs using backPasses.induct with
  | case1 => exact List.Perm.refl _
  | case2 => exact List.Perm.refl _
  | case3 rnd n xs ih => exact ih.trans (List.swap_perm ..)

lemma shuffleBack_perm (rnd : Rnd) (xs : List α) : (shuffleBack rnd xs).Perm xs :=
  backPasses_perm ..

@[simp] lemma mem_shuffleBack {rnd : Rnd} {x : α} : x ∈ shuffleBack rnd xs ↔ x ∈ xs :=
  (shuffleBack_perm rnd xs).mem_iff

@[simp] lemma length_shuffleBack (rnd : Rnd) : (shuffleBack rnd xs).length = xs.length :=
  (shuffleBack_perm rnd xs).length_eq

/-! ### Every order is the outcome of some draws -/

lemma swap_append_right (xs ys : List α) (i j : ℕ) :
    (xs ++ ys).swap (xs.length + i) (xs.length + j) = xs ++ ys.swap i j := by
  induction xs with
  | nil => simp
  | cons x xs ih =>
    rw [List.length_cons, Nat.add_right_comm, Nat.add_right_comm xs.length 1 j, List.cons_append,
      List.swap_cons, ih, List.cons_append]

lemma swap_append_left {i j : ℕ} (hi : i < xs.length) (hj : j < xs.length) :
    (xs ++ ys).swap i j = xs.swap i j ++ ys := by
  apply List.ext_getElem
  · simp
  · intro k hk hk'
    rw [List.getElem_append]
    simp only [List.getElem_swap, List.length_append, List.length_swap, List.getElem_append]
    grind

/-- The entry that a place takes in an exchange, and a permutation of what is left. -/
lemma exists_swap_front {x : α} (h : (x :: ys).Perm xs) :
    ∃ k zs, k < xs.length ∧ xs.swap 0 k = x :: zs ∧ ys.Perm zs := by
  obtain ⟨k, hk, hx⟩ := List.getElem_of_mem (h.mem_iff.mp (List.mem_cons_self ..))
  cases hs : xs.swap 0 k with
  | nil =>
    have hlen := congrArg List.length hs
    rw [List.length_swap, List.length_nil] at hlen
    omega
  | cons z zs =>
    have hz : (xs.swap 0 k)[0]? = some x := by
      rw [List.getElem?_eq_getElem (by rw [List.length_swap]; omega)]
      simp [hk, hx]
    rw [hs] at hz
    obtain rfl : z = x := by simpa using hz
    have hperm := hs ▸ List.swap_perm xs 0 k
    exact ⟨k, zs, hk, hs, (h.trans hperm.symm).cons_inv⟩

lemma exists_swap_back {x : α} (h : (ys ++ [x]).Perm xs) :
    ∃ k zs, k < xs.length ∧ xs.swap (xs.length - 1) k = zs ++ [x] ∧ ys.Perm zs := by
  obtain ⟨k, hk, hx⟩ := List.getElem_of_mem (h.mem_iff.mp (List.mem_append_right _
    (List.mem_singleton.mpr rfl)))
  rcases List.eq_nil_or_concat (xs.swap (xs.length - 1) k) with hs | ⟨zs, z, hs⟩
  · have hlen := congrArg List.length hs
    rw [List.length_swap, List.length_nil] at hlen
    omega
  · rw [List.concat_eq_append] at hs
    have hlen := congrArg List.length hs
    rw [List.length_swap, List.length_append, List.length_singleton] at hlen
    have hz : (xs.swap (xs.length - 1) k)[zs.length]? = some x := by
      rw [List.getElem?_eq_getElem (by rw [List.length_swap]; omega)]
      simp [hk, hx, show zs.length = xs.length - 1 by omega]
    rw [hs] at hz
    obtain rfl : z = x := by simpa using hz
    have hperm := hs ▸ List.swap_perm xs (xs.length - 1) k
    exact ⟨k, zs, hk, hs, (List.perm_append_right_iff _).mp (h.trans hperm.symm)⟩

lemma exists_frontPasses (pre : List α) (h : ys.Perm xs) :
    ∃ rnd, frontPasses rnd pre.length (xs.length - 1) (pre ++ xs) = pre ++ ys := by
  induction ys generalizing pre xs with
  | nil => exact ⟨fun _ => 0, by rw [List.nil_perm.mp h, List.length_nil, frontPasses]⟩
  | cons y ys ih =>
    obtain ⟨k, zs, hk, hs, hzs⟩ := exists_swap_front h
    have hlen : xs.length = zs.length + 1 := by
      rw [← List.length_swap (i := 0) (j := k), hs, List.length_cons]
    cases zs with
    | nil =>
      -- a single entry stays where it is
      obtain ⟨x, rfl⟩ := List.length_eq_one_iff.mp hlen
      refine ⟨fun _ => 0, ?_⟩
      rw [List.perm_singleton.mp h, List.length_singleton, Nat.sub_self, frontPasses]
    | cons z zs =>
      obtain ⟨rnd, hrnd⟩ := ih (pre ++ [y]) hzs
      refine ⟨prepend k rnd, ?_⟩
      rw [hlen, List.length_cons, Nat.add_sub_cancel, frontPasses, next_prepend, prepend_zero,
        between_add (by rw [List.length_append]; omega)]
      have hmove := swap_append_right pre xs 0 k
      rw [Nat.add_zero, hs] at hmove
      rw [hmove]
      simpa using hrnd

/-- Every order of a list is an outcome of the shuffle from the front. -/
theorem exists_shuffleFront_eq (h : ys.Perm xs) : ∃ rnd, shuffleFront rnd xs = ys := by
  simpa [shuffleFront] using exists_frontPasses [] h

lemma exists_backPasses (post : List α) (h : ys.Perm xs) :
    ∃ rnd, backPasses rnd xs.length (xs ++ post) = ys ++ post := by
  induction ys using List.reverseRecOn generalizing post xs with
  | nil => exact ⟨fun _ => 0, by rw [List.nil_perm.mp h, List.length_nil, backPasses]⟩
  | append_singleton ys y ih =>
    obtain ⟨k, zs, hk, hs, hzs⟩ := exists_swap_back h
    have hlen : xs.length = zs.length + 1 := by
      rw [← List.length_swap (i := xs.length - 1) (j := k), hs, List.length_append,
        List.length_singleton]
    rcases hz : zs.length with _ | n
    · obtain ⟨x, rfl⟩ := List.length_eq_one_iff.mp (hlen.trans (by rw [hz]))
      refine ⟨fun _ => 0, ?_⟩
      rw [List.perm_singleton.mp h, List.length_singleton, backPasses]
    · obtain ⟨rnd, hrnd⟩ := ih ([y] ++ post) hzs
      refine ⟨prepend k rnd, ?_⟩
      rw [hlen, hz, backPasses, next_prepend, prepend_zero, between_add (by omega), Nat.zero_add,
        swap_append_left (by omega) hk, show n + 1 = xs.length - 1 by omega, hs, List.append_assoc,
        show xs.length - 1 = zs.length by omega, hrnd, List.append_assoc]

/-- Every order of a list is an outcome of the shuffle from the back. -/
theorem exists_shuffleBack_eq (h : ys.Perm xs) : ∃ rnd, shuffleBack rnd xs = ys := by
  simpa [shuffleBack] using exists_backPasses [] h

end ResSim
