import Mathlib.Data.List.Range
import Mathlib.Data.List.Perm.Basic
import Mathlib.Logic.Function.Basic

/-!
# Sorting by buckets

A bucket pass puts items in order of a small key, and one pass for each key, the least
significant first, puts them in lexicographic order. In memory a bucket is a chain: `heads`
names the item that was put in last, and `links` the one before each item, both one too large
so that zero can stand for none.

In the sorted list the items of a key stand together, from as many places on as there are
items with a smaller key.
-/

namespace ResSim

variable {α : Type} {key : α → ℕ} {xs : List α}

/-- The items of the keys below `n`, one key after the other. -/
def buckets (key : α → ℕ) (n : ℕ) (xs : List α) : List α :=
  (List.range n).flatMap (fun r => xs.filter (fun x => key x = r))

lemma buckets_succ (key : α → ℕ) (n : ℕ) (xs : List α) :
    buckets key (n + 1) xs = buckets key n xs ++ xs.filter (fun x => key x = n) := by
  simp [buckets, List.range_succ]

lemma buckets_perm_filter (key : α → ℕ) (n : ℕ) (xs : List α) :
    (buckets key n xs).Perm (xs.filter (fun x => key x < n)) := by
  induction n with
  | zero => simp [buckets]
  | succ n ih =>
    have hsplit := List.filter_append_perm (fun x => decide (key x < n))
      (xs.filter (fun x => decide (key x < n + 1)))
    rw [buckets_succ]
    refine (ih.append_right _).trans (List.Perm.trans (List.Perm.of_eq ?_) hsplit)
    rw [List.filter_filter, List.filter_filter]
    congr 1 <;> apply List.filter_congr
    · intro x _
      rw [Bool.eq_iff_iff]
      simp only [Bool.and_eq_true, decide_eq_true_eq]
      omega
    · intro x _
      rw [Bool.eq_iff_iff]
      simp only [Bool.and_eq_true, Bool.not_eq_true', decide_eq_true_eq, decide_eq_false_iff_not]
      omega

/-- Where every key is small enough, no item is lost. -/
lemma buckets_perm {n : ℕ} (h : ∀ x ∈ xs, key x < n) : (buckets key n xs).Perm xs := by
  have hall : xs.filter (fun x => key x < n) = xs :=
    List.filter_eq_self.mpr (fun x hx => decide_eq_true (h x hx))
  exact (buckets_perm_filter key n xs).trans (List.Perm.of_eq hall)

lemma lt_of_mem_buckets {n : ℕ} {x : α} (h : x ∈ buckets key n xs) : key x < n := by
  have := (buckets_perm_filter key n xs).mem_iff.mp h
  simpa using (List.mem_filter.mp this).2

/-- A pass orders by the key, and items with one key as they were. -/
lemma buckets_pairwise {R : α → α → Prop} (h : xs.Pairwise R) (n : ℕ) :
    (buckets key n xs).Pairwise (fun x y => key x < key y ∨ key x = key y ∧ R x y) := by
  induction n with
  | zero => exact List.Pairwise.nil
  | succ n ih =>
    rw [buckets_succ]
    refine List.pairwise_append.mpr ⟨ih, ?_, ?_⟩
    · have hn : ∀ x ∈ xs.filter (fun x => key x = n), key x = n :=
        fun x hx => by simpa using (List.mem_filter.mp hx).2
      refine (List.Pairwise.and_mem.mp (h.filter _)).imp ?_
      rintro x y ⟨hx, hy, hR⟩
      exact .inr ⟨(hn x hx).trans (hn y hy).symm, hR⟩
    · intro x hx y hy
      have hxn := lt_of_mem_buckets hx
      have hyn : key y = n := by simpa using (List.mem_filter.mp hy).2
      omega

/-! ### Where the items of a key stand -/

/-- A list is in order of a key. -/
def KeySorted (key : α → ℕ) (xs : List α) : Prop := xs.Pairwise (fun x y => key x ≤ key y)

lemma KeySorted.split (h : KeySorted key xs) (v : ℕ) :
    xs.filter (fun x => key x < v) ++ xs.filter (fun x => v ≤ key x) = xs := by
  induction xs with
  | nil => rfl
  | cons x xs ih =>
    obtain ⟨hx, hxs⟩ := List.pairwise_cons.mp h
    by_cases hlt : key x < v
    · rw [List.filter_cons_of_pos (by simpa using hlt),
        List.filter_cons_of_neg (by simpa using hlt), List.cons_append, ih hxs]
    · have hnone : xs.filter (fun x => key x < v) = [] := by
        rw [List.filter_eq_nil_iff]
        intro y hy
        have := hx y hy
        simp only [decide_eq_true_eq]
        omega
      have hall : xs.filter (fun x => v ≤ key x) = xs := by
        rw [List.filter_eq_self]
        intro y hy
        have := hx y hy
        simp only [decide_eq_true_eq]
        omega
      rw [List.filter_cons_of_neg (by simpa using hlt),
        List.filter_cons_of_pos (by simpa using Nat.le_of_not_lt hlt), hnone, hall,
        List.nil_append]

lemma KeySorted.take_countP (h : KeySorted key xs) (v : ℕ) :
    xs.take (xs.countP (fun x => key x < v)) = xs.filter (fun x => key x < v) := by
  rw [List.countP_eq_length_filter]
  exact (congrArg (List.take _) (h.split v)).symm.trans List.take_left

lemma KeySorted.drop_countP (h : KeySorted key xs) (v : ℕ) :
    xs.drop (xs.countP (fun x => key x < v)) = xs.filter (fun x => v ≤ key x) := by
  rw [List.countP_eq_length_filter]
  exact (congrArg (List.drop _) (h.split v)).symm.trans List.drop_left

lemma countP_lt_succ (key : α → ℕ) (v : ℕ) (xs : List α) :
    xs.countP (fun x => key x < v + 1) =
      xs.countP (fun x => key x < v) + xs.countP (fun x => key x = v) := by
  induction xs with
  | nil => rfl
  | cons x xs ih =>
    simp only [List.countP_cons, ih, decide_eq_true_eq]
    split_ifs <;> omega

/-- The places from one count to the next hold the items of a key. -/
lemma KeySorted.slice (h : KeySorted key xs) (v : ℕ) :
    (xs.drop (xs.countP (fun x => key x < v))).take
      (xs.countP (fun x => key x < v + 1) - xs.countP (fun x => key x < v)) =
      xs.filter (fun x => key x = v) := by
  have hrest : KeySorted key (xs.filter (fun x => v ≤ key x)) := h.filter _
  have hcount : xs.countP (fun x => key x = v) =
      (xs.filter (fun x => v ≤ key x)).countP (fun x => key x < v + 1) := by
    rw [List.countP_filter]
    apply List.countP_congr
    intro x _
    simp only [Bool.and_eq_true, decide_eq_true_eq]
    omega
  rw [h.drop_countP, countP_lt_succ, Nat.add_sub_cancel_left, hcount, hrest.take_countP,
    List.filter_filter]
  apply List.filter_congr
  intro x _
  rw [Bool.eq_iff_iff]
  simp only [Bool.and_eq_true, decide_eq_true_eq]
  omega

lemma countP_eq_of_split {v i : ℕ} (hi : i ≤ xs.length) (hlt : ∀ x ∈ xs.take i, key x < v)
    (hge : ∀ x ∈ xs.drop i, v ≤ key x) : xs.countP (fun x => key x < v) = i := by
  rw [← List.take_append_drop i xs, List.countP_append, List.countP_eq_length.mpr, List.length_take,
    List.countP_eq_zero.mpr]
  · omega
  · intro x hx
    have := hge x hx
    simp only [decide_eq_true_eq]
    omega
  · intro x hx
    simpa using hlt x hx

lemma KeySorted.le_of_mem_take (h : KeySorted key xs) {i : ℕ} (hi : i < xs.length) {x : α}
    (hx : x ∈ xs.take (i + 1)) : key x ≤ key xs[i] := by
  obtain ⟨j, hj, rfl⟩ := List.getElem_of_mem hx
  rw [List.length_take] at hj
  rw [List.getElem_take]
  rcases Nat.lt_or_ge j i with hlt | hge
  · exact List.pairwise_iff_getElem.mp h j i (by omega) hi hlt
  · exact le_of_eq (by congr 2; omega)

lemma KeySorted.le_of_mem_drop (h : KeySorted key xs) {i : ℕ} (hi : i < xs.length) {x : α}
    (hx : x ∈ xs.drop i) : key xs[i] ≤ key x := by
  obtain ⟨j, hj, rfl⟩ := List.getElem_of_mem hx
  rw [List.length_drop] at hj
  rw [List.getElem_drop]
  rcases Nat.eq_zero_or_pos j with rfl | hpos
  · exact le_of_eq (by congr 2)
  · exact List.pairwise_iff_getElem.mp h i (i + j) hi (by omega) (by omega)

/-- Between the keys of two items in a row, the count is the place of the second one. -/
lemma KeySorted.countP_eq (h : KeySorted key xs) {v i : ℕ} (hi : i + 1 < xs.length)
    (hlt : key xs[i] < v) (hge : v ≤ key xs[i + 1]) :
    xs.countP (fun x => key x < v) = i + 1 :=
  countP_eq_of_split (by omega)
    (fun _ hx => Nat.lt_of_le_of_lt (h.le_of_mem_take (by omega) hx) hlt)
    (fun _ hx => hge.trans (h.le_of_mem_drop hi hx))

/-- Where the items with the key of an item start, there is one of them. -/
lemma KeySorted.key_countP (h : KeySorted key xs) {i : ℕ} (hi : i < xs.length) :
    ∃ hlt : xs.countP (fun x => key x < key xs[i]) < xs.length,
      key xs[xs.countP (fun x => key x < key xs[i])] = key xs[i] := by
  have hmem : xs[i] ∈ xs.drop (xs.countP (fun x => key x < key xs[i])) := by
    rw [h.drop_countP, List.mem_filter]
    exact ⟨List.getElem_mem hi, by simp⟩
  obtain ⟨j, hj, he⟩ := List.getElem_of_mem hmem
  rw [List.length_drop] at hj
  have hlt : xs.countP (fun x => key x < key xs[i]) < xs.length := by omega
  refine ⟨hlt, Nat.le_antisymm (h.le_of_mem_drop hlt hmem) ?_⟩
  have hfirst : xs[xs.countP (fun x => key x < key xs[i])] ∈
      xs.drop (xs.countP (fun x => key x < key xs[i])) := by
    rw [List.drop_eq_getElem_cons hlt]
    exact List.mem_cons_self ..
  rw [h.drop_countP] at hfirst
  simpa using (List.mem_filter.mp hfirst).2

/-! ### Chains in memory -/

/-- The last item of each bucket and the item before each item, one too large. -/
structure Chains where
  heads : ℕ → ℕ
  links : ℕ → ℕ

/-- Empty buckets. -/
def noChains : Chains := ⟨fun _ => 0, fun _ => 0⟩

/-- Puts an item into the bucket of its key. -/
def Chains.link (key : ℕ → ℕ) (c : Chains) (e : ℕ) : Chains where
  heads := Function.update c.heads (key e) (e + 1)
  links := if c.heads (key e) ≠ 0 then Function.update c.links e (c.heads (key e)) else c.links

/-- The items of a chain, `none` if it is longer than the fuel. -/
def followLinks (links : ℕ → ℕ) : ℕ → ℕ → Option (List ℕ)
  | 0, _ => none
  | _ + 1, 0 => some []
  | fuel + 1, e + 1 => (followLinks links fuel (links e)).map (fun es => e :: es)

/-- The items of the buckets below `n`, one bucket after the other. -/
def Chains.collect (c : Chains) (fuel n : ℕ) : Option (List ℕ) :=
  ((List.range n).mapM (fun r => followLinks c.links fuel (c.heads r))).map List.flatten

/-- The items of a chain from a link on. -/
def IsChain (links : ℕ → ℕ) : ℕ → List ℕ → Prop
  | p, [] => p = 0
  | p, e :: es => p = e + 1 ∧ IsChain links (links e) es

lemma followLinks_eq {links : ℕ → ℕ} {fuel p : ℕ} {es : List ℕ} (h : IsChain links p es)
    (hfuel : es.length < fuel) : followLinks links fuel p = some es := by
  induction es generalizing p fuel with
  | nil =>
    obtain ⟨fuel, rfl⟩ := Nat.exists_eq_add_of_lt hfuel
    rw [show p = 0 from h]
    rfl
  | cons e es ih =>
    obtain ⟨rfl, hes⟩ := h
    obtain ⟨fuel, rfl⟩ : ∃ k, fuel = k + 1 := ⟨fuel - 1, by rw [List.length_cons] at hfuel; omega⟩
    rw [List.length_cons] at hfuel
    rw [followLinks, ih hes (by omega), Option.map_some]

lemma IsChain.congr {links links' : ℕ → ℕ} {p : ℕ} {es : List ℕ} (h : IsChain links p es)
    (heq : ∀ e ∈ es, links' e = links e) : IsChain links' p es := by
  induction es generalizing p with
  | nil => exact h
  | cons e es ih =>
    obtain ⟨hp, hes⟩ := h
    refine ⟨hp, ?_⟩
    rw [heq e (List.mem_cons_self ..)]
    exact ih hes (fun a ha => heq a (List.mem_cons_of_mem _ ha))

/-- Each bucket is the chain of its items, the last one first. -/
structure Threaded (key : ℕ → ℕ) (es : List ℕ) (c : Chains) : Prop where
  chain : ∀ r, IsChain c.links (c.heads r) (es.filter (fun e => key e = r)).reverse
  fresh : ∀ e, e ∉ es → c.links e = 0

lemma threaded_noChains (key : ℕ → ℕ) : Threaded key [] noChains := ⟨fun _ => rfl, fun _ _ => rfl⟩

lemma Threaded.link {key : ℕ → ℕ} {es : List ℕ} {c : Chains} {e : ℕ} (h : Threaded key es c)
    (he : e ∉ es) : Threaded key (es ++ [e]) (c.link key e) := by
  -- the link of the new item, whichever branch sets it
  have hlink : (c.link key e).links = Function.update c.links e (c.heads (key e)) := by
    unfold Chains.link
    dsimp only
    split
    · rfl
    · rename_i h0
      rw [not_ne_iff.mp h0, ← h.fresh e he, Function.update_eq_self]
  have hold : ∀ r, IsChain (c.link key e).links (c.heads r)
      (es.filter (fun a => key a = r)).reverse := by
    intro r
    refine (h.chain r).congr fun a ha => ?_
    rw [hlink, Function.update_of_ne]
    rintro rfl
    exact he (List.mem_of_mem_filter (List.mem_reverse.mp ha))
  refine ⟨fun r => ?_, fun a ha => ?_⟩
  · by_cases hr : key e = r
    · subst hr
      rw [List.filter_append, List.filter_cons_of_pos (by simp), List.filter_nil,
        List.reverse_append, List.reverse_singleton, List.singleton_append]
      refine ⟨Function.update_self .., ?_⟩
      rw [show (c.link key e).links e = c.heads (key e) by rw [hlink, Function.update_self]]
      exact hold (key e)
    · rw [List.filter_append, List.filter_cons_of_neg (by simpa using hr), List.filter_nil,
        List.append_nil, show (c.link key e).heads r = c.heads r from
          Function.update_of_ne (Ne.symm hr) ..]
      exact hold r
  · rw [List.mem_append, List.mem_singleton, not_or] at ha
    rw [hlink, Function.update_of_ne ha.2]
    exact h.fresh a ha.1

lemma Threaded.foldl {key : ℕ → ℕ} {pre es : List ℕ} {c : Chains} (h : Threaded key pre c)
    (hnodup : (pre ++ es).Nodup) : Threaded key (pre ++ es) (es.foldl (Chains.link key) c) := by
  induction es generalizing pre c with
  | nil => simpa using h
  | cons e es ih =>
    have he : e ∉ pre := fun hmem =>
      (List.nodup_append.mp hnodup).2.2 e hmem e (List.mem_cons_self ..) rfl
    rw [List.append_cons] at hnodup ⊢
    exact ih (h.link he) hnodup

lemma mapM_some {β : Type} {f : ℕ → Option β} {g : ℕ → β} {rs : List ℕ}
    (h : ∀ r ∈ rs, f r = some (g r)) : rs.mapM f = some (rs.map g) := by
  induction rs with
  | nil => rfl
  | cons r rs ih =>
    rw [List.mapM_cons, h r (List.mem_cons_self ..),
      ih (fun a ha => h a (List.mem_cons_of_mem _ ha))]
    rfl

/-- Putting items into buckets and collecting them is a pass over the items in reverse. -/
theorem collect_foldl_link (key : ℕ → ℕ) {es : List ℕ} {fuel : ℕ} (hnodup : es.Nodup)
    (hfuel : es.length < fuel) (n : ℕ) :
    (es.foldl (Chains.link key) noChains).collect fuel n = some (buckets key n es.reverse) := by
  have hthreaded : Threaded key ([] ++ es) (es.foldl (Chains.link key) noChains) :=
    (threaded_noChains key).foldl (by simpa using hnodup)
  rw [List.nil_append] at hthreaded
  unfold Chains.collect
  rw [mapM_some (g := fun r => (es.filter (fun e => key e = r)).reverse)
    (fun r _ => followLinks_eq (hthreaded.chain r) ?_)]
  · rw [Option.map_some, buckets, ← List.flatMap_def]
    simp only [List.filter_reverse]
  · rw [List.length_reverse]
    exact Nat.lt_of_le_of_lt (List.length_filter_le ..) hfuel

end ResSim
