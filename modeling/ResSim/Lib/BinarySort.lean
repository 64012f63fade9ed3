import Mathlib.Data.List.Perm.Basic
import Mathlib.Data.List.Nodup
import Mathlib.Tactic.Basic

/-!
# Binary insertion sort

`list.sort` of Python on a short list: the run at the start of the list is kept, or turned
around if it descends, and every later element is put at the place that a binary search finds.
Any comparison may be given. The result is sorted if the comparison is a weak order on the
list, and whatever the comparison is, elements that stand in one run keep their order.
-/

namespace ResSim

variable {α : Type}

/-- The longest chain of `R` at the start of `x :: l`, and the rest. -/
def spanRun (R : α → α → Bool) (x : α) : List α → List α × List α
  | [] => ([x], [])
  | y :: l => if R x y then (x :: (spanRun R y l).1, (spanRun R y l).2) else ([x], y :: l)

/-- The run at the start of a list, in ascending order, and the rest. -/
def countRun (lt : α → α → Bool) : List α → List α × List α
  | [] => ([], [])
  | [x] => ([x], [])
  | x :: y :: l =>
    if lt y x then
      ((spanRun (fun a b => lt b a) x (y :: l)).1.reverse, (spanRun (fun a b => lt b a) x (y :: l)).2)
    else spanRun (fun a b => !lt b a) x (y :: l)

/-- The place of `pivot` between `l` and `r`, found by at most `fuel` halvings. -/
def bisect (lt : α → α → Bool) (pivot : α) (xs : List α) : ℕ → ℕ → ℕ → ℕ
  | 0, l, _ => l
  | fuel + 1, l, r =>
    match xs[l + (r - l) / 2]? with
    | none => l
    | some x =>
      if r ≤ l then l
      else if lt pivot x then bisect lt pivot xs fuel l (l + (r - l) / 2)
      else bisect lt pivot xs fuel (l + (r - l) / 2 + 1) r

/-- Puts `pivot` into a sorted list, after the elements that compare equal. -/
def binaryInsert (lt : α → α → Bool) (xs : List α) (pivot : α) : List α :=
  let i := bisect lt pivot xs xs.length 0 xs.length
  xs.take i ++ pivot :: xs.drop i

def binarySort (lt : α → α → Bool) (l : List α) : List α :=
  (countRun lt l).2.foldl (binaryInsert lt) (countRun lt l).1

/-- `lt` is a strict weak order on distinct elements of `l`. -/
structure WeakOn (lt : α → α → Bool) (l : List α) : Prop where
  asymm : ∀ x ∈ l, ∀ y ∈ l, x ≠ y → lt x y = true → lt y x = false
  cut : ∀ x ∈ l, ∀ y ∈ l, ∀ z ∈ l, x ≠ y → y ≠ z → x ≠ z → lt x z = true →
    lt x y = true ∨ lt y z = true

/-- No element stands after one that it is less than. -/
def SortedBy (lt : α → α → Bool) (l : List α) : Prop := l.Pairwise (fun x y => lt y x = false)

variable {lt : α → α → Bool} {R : α → α → Bool} {l xs : List α} {x y pivot : α}

lemma spanRun_append (R : α → α → Bool) (x : α) (l : List α) :
    (spanRun R x l).1 ++ (spanRun R x l).2 = x :: l := by
  induction l generalizing x with
  | nil => rfl
  | cons y l ih =>
    rw [spanRun]
    split
    · rw [List.cons_append, ih]
    · rfl

lemma countRun_perm (lt : α → α → Bool) (l : List α) :
    ((countRun lt l).1 ++ (countRun lt l).2).Perm l := by
  unfold countRun
  split
  · exact List.Perm.refl _
  · exact List.Perm.refl _
  · split
    · refine (List.Perm.append_right _ (List.reverse_perm _)).trans ?_
      rw [spanRun_append]
    · rw [spanRun_append]

lemma binaryInsert_perm (lt : α → α → Bool) (xs : List α) (pivot : α) :
    (binaryInsert lt xs pivot).Perm (pivot :: xs) := by
  unfold binaryInsert
  refine List.perm_middle.trans (List.Perm.cons pivot ?_)
  rw [List.take_append_drop]

lemma sublist_binaryInsert (lt : α → α → Bool) (xs : List α) (pivot : α) :
    xs.Sublist (binaryInsert lt xs pivot) := by
  unfold binaryInsert
  conv_lhs => rw [← List.take_append_drop (bisect lt pivot xs xs.length 0 xs.length) xs]
  exact List.Sublist.append_left (List.sublist_cons_self _ _) _

lemma foldl_binaryInsert_perm (lt : α → α → Bool) (l xs : List α) :
    (l.foldl (binaryInsert lt) xs).Perm (xs ++ l) := by
  induction l generalizing xs with
  | nil => simp
  | cons x l ih =>
    rw [List.foldl_cons]
    refine (ih _).trans (((binaryInsert_perm lt xs x).append_right l).trans ?_)
    exact List.perm_middle.symm

lemma sublist_foldl_binaryInsert (lt : α → α → Bool) (l xs : List α) :
    xs.Sublist (l.foldl (binaryInsert lt) xs) := by
  induction l generalizing xs with
  | nil => exact List.Sublist.refl xs
  | cons x l ih => exact (sublist_binaryInsert lt xs x).trans (ih _)

theorem binarySort_perm (lt : α → α → Bool) (l : List α) : (binarySort lt l).Perm l :=
  (foldl_binaryInsert_perm lt _ _).trans (countRun_perm lt l)

/-- The elements of the first run keep their order. -/
theorem sublist_binarySort (lt : α → α → Bool) (l : List α) :
    (countRun lt l).1.Sublist (binarySort lt l) :=
  sublist_foldl_binaryInsert lt _ _

/-! ### Weak orders -/

lemma WeakOn.subset (h : WeakOn lt l) (hs : xs ⊆ l) : WeakOn lt xs where
  asymm x hx y hy := h.asymm x (hs hx) y (hs hy)
  cut x hx y hy z hz := h.cut x (hs hx) y (hs hy) z (hs hz)

lemma nodup_spanRun (hn : (x :: l).Nodup) : (spanRun R x l).1.Nodup := by
  rw [← spanRun_append R x l] at hn
  exact (List.nodup_append.mp hn).1

lemma exists_spanRun_eq_cons (R : α → α → Bool) (x : α) (l : List α) :
    ∃ run, (spanRun R x l).1 = x :: run := by
  cases l with
  | nil => exact ⟨[], rfl⟩
  | cons y l =>
    rw [spanRun]
    split
    · exact ⟨_, rfl⟩
    · exact ⟨[], rfl⟩

lemma pairwise_spanRun (hn : (x :: l).Nodup)
    (htrans : ∀ a ∈ x :: l, ∀ b ∈ x :: l, ∀ c ∈ x :: l, a ≠ b → b ≠ c → a ≠ c →
      R a b = true → R b c = true → R a c = true) :
    (spanRun R x l).1.Pairwise (fun a b => R a b = true) := by
  induction l generalizing x with
  | nil => exact List.pairwise_singleton _ _
  | cons y l ih =>
    rw [spanRun]
    split
    · rename_i hxy
      obtain ⟨hx, hn'⟩ := List.nodup_cons.mp hn
      have hrun := ih hn' fun a ha b hb c hc => htrans a (List.mem_cons_of_mem _ ha) b
        (List.mem_cons_of_mem _ hb) c (List.mem_cons_of_mem _ hc)
      have hsub : ∀ z ∈ (spanRun R y l).1, z ∈ y :: l := by
        intro z hz
        rw [← spanRun_append R y l]
        exact List.mem_append_left _ hz
      have hnr : (spanRun R y l).1.Nodup := nodup_spanRun hn'
      obtain ⟨run, hr⟩ := exists_spanRun_eq_cons R y l
      rw [hr] at hrun hsub hnr ⊢
      refine List.pairwise_cons.mpr ⟨fun z hz => ?_, hrun⟩
      rcases List.mem_cons.mp hz with rfl | hz'
      · exact hxy
      · have hyz : R y z = true := (List.pairwise_cons.mp hrun).1 z hz'
        have hin : z ∈ y :: l := hsub z hz
        have hne : y ≠ z := fun h => (List.nodup_cons.mp hnr).1 (h ▸ hz')
        exact htrans x (by simp) y (by simp) z (List.mem_cons_of_mem _ hin)
          (fun h => hx (h ▸ List.mem_cons_self)) hne (fun h => hx (h ▸ hin)) hxy hyz
    · exact List.pairwise_singleton _ _

lemma WeakOn.trans (h : WeakOn lt l) {a b c : α} (ha : a ∈ l) (hb : b ∈ l) (hc : c ∈ l)
    (hab : a ≠ b) (hbc : b ≠ c) (hac : a ≠ c) (h₁ : lt b a = false) (h₂ : lt c b = false) :
    lt c a = false := by
  by_contra hca
  rw [Bool.not_eq_false] at hca
  rcases h.cut c hc b hb a ha hbc.symm hab.symm hac.symm hca with h' | h'
  · simp [h₂] at h'
  · simp [h₁] at h'

lemma WeakOn.lt_trans (h : WeakOn lt l) {a b c : α} (ha : a ∈ l) (hb : b ∈ l) (hc : c ∈ l)
    (hab : a ≠ b) (hbc : b ≠ c) (hac : a ≠ c) (h₁ : lt a b = true) (h₂ : lt b c = true) :
    lt a c = true := by
  rcases h.cut a ha c hc b hb hac hbc.symm hab h₁ with h' | h'
  · exact h'
  · simp [h.asymm b hb c hc hbc h₂] at h'

lemma sortedBy_countRun (h : WeakOn lt l) (hn : l.Nodup) : SortedBy lt (countRun lt l).1 := by
  unfold countRun
  split
  · exact List.Pairwise.nil
  · exact List.pairwise_singleton _ _
  · rename_i x y l
    split
    · have hrun := pairwise_spanRun (R := fun a b => lt b a) hn
        fun a ha b hb c hc hab hbc hac h₁ h₂ =>
          h.lt_trans hc hb ha hbc.symm hab.symm hac.symm h₂ h₁
      have hnr := nodup_spanRun (R := fun a b => lt b a) hn
      have hsub : ∀ z ∈ (spanRun (fun a b => lt b a) x (y :: l)).1, z ∈ x :: y :: l := by
        intro z hz
        rw [← spanRun_append (fun a b => lt b a) x (y :: l)]
        exact List.mem_append_left _ hz
      rw [SortedBy, List.pairwise_reverse]
      refine (hrun.and hnr).imp_of_mem fun {a b} ha hb hab => ?_
      exact h.asymm b (hsub b hb) a (hsub a ha) hab.2.symm hab.1
    · have hrun := pairwise_spanRun (R := fun a b => !lt b a) hn
        fun a ha b hb c hc hab hbc hac h₁ h₂ => by
          simp only [Bool.not_eq_true'] at h₁ h₂ ⊢
          exact h.trans ha hb hc hab hbc hac h₁ h₂
      simpa only [SortedBy, Bool.not_eq_true'] using hrun

/-- The search finds the place with nothing greater before it and only greater elements from
there on. -/
lemma le_bisect_iff (h : WeakOn lt (pivot :: xs)) (hn : (pivot :: xs).Nodup)
    (hs : SortedBy lt xs) {fuel l r : ℕ} (hfuel : r - l ≤ fuel) (hlr : l ≤ r)
    (hr : r ≤ xs.length)
    (hbefore : ∀ i (hi : i < xs.length), i < l → lt pivot xs[i] = false)
    (hafter : ∀ i (hi : i < xs.length), r ≤ i → lt pivot xs[i] = true) :
    ∀ i (hi : i < xs.length), bisect lt pivot xs fuel l r ≤ i ↔ lt pivot xs[i] = true := by
  have hmem : ∀ i (hi : i < xs.length), xs[i] ∈ pivot :: xs :=
    fun i hi => List.mem_cons_of_mem _ (List.getElem_mem hi)
  have hne : ∀ i (hi : i < xs.length), pivot ≠ xs[i] := by
    intro i hi heq
    exact (List.nodup_cons.mp hn).1 (heq ▸ List.getElem_mem hi)
  have hord : ∀ i j (hi : i < xs.length) (hj : j < xs.length), i < j →
      lt xs[j] xs[i] = false ∧ xs[i] ≠ xs[j] := by
    intro i j hi hj hij
    refine ⟨List.pairwise_iff_getElem.mp hs i j hi hj hij, fun heq => ?_⟩
    exact (Nat.ne_of_lt hij) ((List.nodup_cons.mp hn).2.getElem_inj_iff.mp heq)
  have hdone : ∀ l, (∀ i (hi : i < xs.length), i < l → lt pivot xs[i] = false) →
      (∀ i (hi : i < xs.length), l ≤ i → lt pivot xs[i] = true) →
      ∀ i (hi : i < xs.length), l ≤ i ↔ lt pivot xs[i] = true := by
    intro l hb ha i hi
    refine ⟨ha i hi, fun hlt => ?_⟩
    by_contra hil
    simp [hb i hi (by omega)] at hlt
  induction fuel generalizing l r with
  | zero => exact hdone l hbefore (fun i hi hil => hafter i hi (by omega))
  | succ fuel ih =>
    rw [bisect]
    split
    · rename_i hnone
      rw [List.getElem?_eq_none_iff] at hnone
      exact hdone l hbefore (fun i hi hil => hafter i hi (by omega))
    · rename_i x hx
      obtain ⟨hp, rfl⟩ := List.getElem?_eq_some_iff.mp hx
      split
      · exact hdone l hbefore (fun i hi hil => hafter i hi (by omega))
      split
      · rename_i hlt
        refine ih (by omega) (by omega) (by omega) hbefore fun i hi hpi => ?_
        rcases Nat.eq_or_lt_of_le hpi with rfl | hpi
        · exact hlt
        · obtain ⟨hno, hd⟩ := hord _ i hp hi hpi
          rcases h.cut pivot (by simp) xs[i] (hmem i hi) _ (hmem _ hp) (hne i hi) hd.symm
            (hne _ hp) hlt with h' | h'
          · exact h'
          · simp [hno] at h'
      · rename_i hle
        refine ih (by omega) (by omega) (by omega) (fun i hi hpi => ?_) hafter
        rw [Bool.not_eq_true] at hle
        rcases Nat.eq_or_lt_of_le (Nat.le_of_lt_succ hpi) with rfl | hpi
        · exact hle
        · obtain ⟨hno, hd⟩ := hord i _ hi hp hpi
          by_contra hgt
          rw [Bool.not_eq_false] at hgt
          rcases h.cut pivot (by simp) _ (hmem _ hp) xs[i] (hmem i hi) (hne _ hp) hd.symm
            (hne i hi) hgt with h' | h'
          · simp [hle] at h'
          · simp [hno] at h'

lemma sortedBy_binaryInsert (h : WeakOn lt (pivot :: xs)) (hn : (pivot :: xs).Nodup)
    (hs : SortedBy lt xs) : SortedBy lt (binaryInsert lt xs pivot) := by
  have hplace := le_bisect_iff h hn hs (Nat.le_refl (xs.length - 0)) (Nat.zero_le _) (Nat.le_refl _)
    (fun i _ hi => absurd hi (Nat.not_lt_zero i)) (fun i hi hle => absurd hi (by omega))
  rw [Nat.sub_zero] at hplace
  unfold binaryInsert
  have hsplit := hs
  rw [SortedBy, ← List.take_append_drop (bisect lt pivot xs xs.length 0 xs.length) xs,
    List.pairwise_append] at hsplit
  obtain ⟨htake, hdrop, hcross⟩ := hsplit
  have hbefore : ∀ a ∈ xs.take (bisect lt pivot xs xs.length 0 xs.length), lt pivot a = false := by
    intro a ha
    obtain ⟨i, hi, rfl⟩ := List.mem_iff_getElem.mp ha
    rw [List.length_take] at hi
    rw [List.getElem_take, ← Bool.not_eq_true, ← hplace i (by omega)]
    omega
  have hafter : ∀ a ∈ xs.drop (bisect lt pivot xs xs.length 0 xs.length), lt a pivot = false := by
    intro a ha
    have hin : a ∈ xs := List.mem_of_mem_drop ha
    obtain ⟨i, hi, rfl⟩ := List.mem_iff_getElem.mp ha
    rw [List.length_drop] at hi
    rw [List.getElem_drop] at hin ⊢
    refine h.asymm pivot (by simp) _ (List.mem_cons_of_mem _ hin) (fun heq => ?_)
      ((hplace _ (by omega)).mp (by omega))
    exact (List.nodup_cons.mp hn).1 (heq ▸ hin)
  rw [SortedBy, List.pairwise_append]
  refine ⟨htake, List.pairwise_cons.mpr ⟨hafter, hdrop⟩, fun a ha b hb => ?_⟩
  rcases List.mem_cons.mp hb with rfl | hb
  · exact hbefore a ha
  · exact hcross a ha b hb

lemma sortedBy_foldl_binaryInsert (h : WeakOn lt (xs ++ l)) (hn : (xs ++ l).Nodup)
    (hs : SortedBy lt xs) : SortedBy lt (l.foldl (binaryInsert lt) xs) := by
  induction l generalizing xs with
  | nil => exact hs
  | cons x l ih =>
    have hperm : (binaryInsert lt xs x ++ l).Perm (xs ++ x :: l) :=
      ((binaryInsert_perm lt xs x).append_right l).trans List.perm_middle.symm
    have hsub : x :: xs ⊆ xs ++ x :: l := by
      intro y hy
      rcases List.mem_cons.mp hy with rfl | hy
      · exact List.mem_append_right _ List.mem_cons_self
      · exact List.mem_append_left _ hy
    have hn' : (x :: xs).Nodup := by
      have hmid := List.nodup_middle.mp hn
      exact hmid.sublist ((List.sublist_append_left xs l).cons_cons x)
    exact ih (h.subset hperm.subset) (hperm.nodup_iff.mpr hn)
      (sortedBy_binaryInsert (h.subset hsub) hn' hs)

/-- A comparison that is a weak order on the list sorts it. -/
theorem sortedBy_binarySort (h : WeakOn lt l) (hn : l.Nodup) : SortedBy lt (binarySort lt l) := by
  have hperm := countRun_perm lt l
  exact sortedBy_foldl_binaryInsert (h.subset hperm.subset) (hperm.nodup_iff.mpr hn)
    (sortedBy_countRun h hn)

end ResSim
