import Mathlib.Algebra.BigOperators.Group.List.Lemmas
import Mathlib.Algebra.Order.BigOperators.GroupWithZero.List
import Mathlib.Algebra.Order.Floor.Ring
import Mathlib.Data.List.GetD
import Mathlib.Data.List.Perm.Subperm
import Mathlib.Data.List.Sections
import Mathlib.Data.Rat.Floor
import Mathlib.Tactic.Linarith
import ResSim.Lib.Lexicographic
import ResSim.Lib.Loop
import ResSim.Lib.StableSort
import ResSim.Lib.Traverse

/-!
# Optimal HyperX topologies

For every number of dimensions the switches per dimension are enumerated in lexicographic order.
When the last coordinate makes the product too large, a coordinate before it is increased and
all later ones are reset to it; a vector whose reset product is still too large is marked by
one more step of the last coordinate, so that the search for the next coordinate passes over
the ones equal to it.
-/

namespace ResSim

/-- `S[L - 1] += 1`. -/
def incLast (S : List ℕ) : List ℕ := S.modify (S.length - 1) (· + 1)

/-- The index to update, searched from `n - 1` down: the first one whose value is not the last
one less one. `none` if there are no more indices to update. -/
def lowerIdx (S : List ℕ) : ℕ → Option ℕ
  | 0 => none
  | idx + 1 => if S.getD idx 0 + 1 = S.getLastD 0 then lowerIdx S idx else some idx

/-- `S[idx] += 1`, and all dimensions with a larger index are reset to the new value. -/
def bump (S : List ℕ) (idx : ℕ) : List ℕ :=
  S.take idx ++ List.replicate (S.length - idx) (S.getD idx 0 + 1)

/-- One pass of the loop that looks for the next vector with a small enough product. -/
def nextStep (hosts : ℤ) (S : List ℕ) : Step (List ℕ) (List ℕ) :=
  if hosts < S.prod then
    match lowerIdx S (S.length - 1) with
    | none => .done S
    | some idx =>
      if hosts < (bump S idx).prod then .next (incLast (bump S idx)) else .next (bump S idx)
  else .done S

/-- One pass of the enumeration. The state holds the vectors so far and the current one; the
result is `none` when the passes of the inner loop were used up. -/
def enumStep (fuel : ℕ) (hosts : ℤ) (s : List (List ℕ) × List ℕ) :
    Step (List (List ℕ) × List ℕ) (Option (List (List ℕ))) :=
  if (s.2.prod : ℤ) ≤ hosts then
    match Loop.run (nextStep hosts) fuel (incLast s.2) with
    | none => .done none
    | some S => .next (s.1 ++ [s.2], S)
  else .done (some s.1)

/-- The vectors that are enumerated for `L` dimensions. -/
def hyperxVectors (fuel : ℕ) (hosts : ℤ) (L : ℕ) : Option (List (List ℕ)) :=
  (Loop.run (enumStep fuel hosts) fuel ([], List.replicate L 2)).join

structure HyperX where
  S : List ℕ
  K : List ℤ
  T : ℤ
  numsw : ℕ

def HyperX.ofS (S : List ℕ) : HyperX := ⟨S, S.map fun _ => 0, 1, S.prod⟩

/-- `T` and `K` for the number of hosts and the bisection bandwidth. -/
def HyperX.fit (hosts : ℤ) (bisec : ℚ) (topo : HyperX) : HyperX :=
  let T := (hosts + topo.numsw - 1) / topo.numsw
  { topo with T := T, K := topo.S.map fun Si => ⌈2 * bisec * T / Si⌉ }

/-- `topo_radix`. -/
def HyperX.radix (topo : HyperX) : ℤ :=
  topo.T + ((topo.K.zip topo.S).map fun x => x.1 * ((x.2 : ℤ) - 1)).sum

/-- The topology that is printed, if any; the outer `none` stands for passes used up. -/
def hyperxOpt (fuel : ℕ) (hosts : ℤ) (bisec : ℚ) (radix : ℤ) : Option (Option HyperX) := do
  let vectors ← (List.range' 1 14).mapM (hyperxVectors fuel hosts)
  let topos := (vectors.flatten.map HyperX.ofS).insertionSort (fun x y => x.numsw ≤ y.numsw)
  return (topos.map (HyperX.fit hosts bisec)).find? fun topo => topo.radix ≤ radix

/-! ### The next vector -/

/-- `L` non-decreasing coordinates, each at least 2. -/
structure Dims (L : ℕ) (S : List ℕ) : Prop where
  length : S.length = L
  sorted : S.Pairwise (· ≤ ·)
  two_le : ∀ s ∈ S, 2 ≤ s

variable {hosts : ℤ} {L i k n c l s : ℕ} {A P S S' : List ℕ}

lemma incLast_append : incLast (A ++ [l]) = A ++ [l + 1] := by
  simp [incLast, List.modify_eq_take_cons_drop]

lemma Dims.ne_nil (h : Dims (L + 1) S) : S ≠ [] := by
  rintro rfl
  cases h.length

lemma Dims.inc (h : Dims (L + 1) S) : Dims (L + 1) (incLast S) := by
  obtain ⟨A, l, rfl⟩ := (List.eq_nil_or_concat' S).resolve_left h.ne_nil
  rw [incLast_append]
  constructor
  case length => simpa using h.length
  case sorted =>
    obtain ⟨hA, _, hle⟩ := List.pairwise_append.mp h.sorted
    refine List.pairwise_append.mpr ⟨hA, List.pairwise_singleton .., fun a ha b hb => ?_⟩
    rw [List.mem_singleton.mp hb]
    exact Nat.le_succ_of_le (hle a ha l (List.mem_singleton_self l))
  case two_le =>
    intro a ha
    rcases List.mem_append.mp ha with ha | ha
    · exact h.two_le a (List.mem_append_left _ ha)
    · rw [List.mem_singleton.mp ha]
      exact Nat.le_succ_of_le (h.two_le l (List.mem_append_right _ (List.mem_singleton_self l)))

lemma lowerIdx_lt (h : lowerIdx S n = some i) : i < n := by
  induction n with
  | zero => simp [lowerIdx] at h
  | succ n ih =>
    rw [lowerIdx] at h
    split at h
    · exact Nat.lt_succ_of_lt (ih h)
    · rw [Option.some.injEq] at h
      omega

/-- The values one below the last one are passed over. -/
lemma lowerIdx_run : lowerIdx (A ++ (List.replicate k c ++ [c + 1])) (A.length + k) =
    lowerIdx (A ++ (List.replicate k c ++ [c + 1])) A.length := by
  suffices h : ∀ n ≤ k, lowerIdx (A ++ (List.replicate k c ++ [c + 1])) (A.length + n) =
      lowerIdx (A ++ (List.replicate k c ++ [c + 1])) A.length from h k le_rfl
  intro n hn
  induction n with
  | zero => rfl
  | succ n ih =>
    rw [← Nat.add_assoc, lowerIdx, if_pos, ih (by omega)]
    rw [List.getD_append_right _ _ _ _ (Nat.le_add_right ..), Nat.add_sub_cancel_left,
      List.getD_append _ _ _ _ (by rw [List.length_replicate]; omega),
      List.getD_replicate _ (by omega), ← List.append_assoc, List.getLastD_concat]

/-- The search fails on a constant vector whose last coordinate was increased, and all vectors
from there on have products at least as large. -/
lemma search_constant (h : Dims (L + 1) (List.replicate k c ++ [c])) :
    lowerIdx (incLast (List.replicate k c ++ [c])) L = none ∧
      ∀ w, Dims (L + 1) w → incLast (List.replicate k c ++ [c]) ≤ w →
        (incLast (List.replicate k c ++ [c])).prod ≤ w.prod := by
  have hk : k = L := by simpa using h.length
  subst hk
  rw [incLast_append]
  constructor
  · simpa [lowerIdx] using lowerIdx_run (A := []) (k := k) (c := c)
  · intro w hw hle
    simpa using pow_mul_le_prod hw.sorted hw.length hle

/-- What the search finds before a run of equal coordinates: the vectors that are skipped have
products at least as large as the one it starts from, and the next search looks further left. -/
lemma search_run (h : Dims (L + 1) (A ++ s :: (List.replicate k c ++ [c]))) (hs : s ≠ c) :
    let S := A ++ s :: (List.replicate k c ++ [c + 1])
    lowerIdx S L = some A.length ∧ bump S A.length = A ++ List.replicate (k + 2) (s + 1) ∧
      Dims (L + 1) (A ++ List.replicate (k + 2) (s + 1)) ∧
      lowerIdx (incLast (A ++ List.replicate (k + 2) (s + 1))) L =
        lowerIdx (incLast (A ++ List.replicate (k + 2) (s + 1))) A.length := by
  intro S
  have hL : L = A.length + 1 + k := by
    have := h.length
    simp at this
    omega
  refine ⟨?_, ?_, ?_, ?_⟩
  · have hrun := lowerIdx_run (A := A ++ [s]) (k := k) (c := c)
    simp only [List.append_assoc, List.singleton_append, List.length_append,
      List.length_singleton] at hrun
    have hlast : S.getLastD 0 = c + 1 := by
      rw [show S = (A ++ s :: List.replicate k c) ++ [c + 1] by simp [S], List.getLastD_concat]
    have hget : S.getD A.length 0 = s := by
      rw [List.getD_append_right _ _ _ _ le_rfl, Nat.sub_self, List.getD_cons_zero]
    rw [hL, hrun, lowerIdx, if_neg]
    rw [hget, hlast]
    omega
  · have hget : S.getD A.length 0 = s := by
      rw [List.getD_append_right _ _ _ _ le_rfl, Nat.sub_self, List.getD_cons_zero]
    have hlen : S.length - A.length = k + 2 := by simp [S]
    rw [bump, hget, hlen, List.take_left]
  · obtain ⟨hA, _, hle⟩ := List.pairwise_append.mp h.sorted
    constructor
    case length =>
      rw [List.length_append, List.length_replicate]
      omega
    case sorted =>
      refine List.pairwise_append.mpr ⟨hA, List.pairwise_replicate.mpr (.inr le_rfl), ?_⟩
      intro a ha b hb
      rw [List.eq_of_mem_replicate hb]
      exact Nat.le_succ_of_le (hle a ha s List.mem_cons_self)
    case two_le =>
      intro a ha
      rcases List.mem_append.mp ha with ha | ha
      · exact h.two_le a (List.mem_append_left _ ha)
      · rw [List.eq_of_mem_replicate ha]
        exact Nat.le_succ_of_le (h.two_le s (List.mem_append_right _ List.mem_cons_self))
  · have hrun := lowerIdx_run (A := A) (k := k + 1) (c := s + 1)
    rwa [List.replicate_succ' (n := k + 1), ← List.append_assoc, incLast_append,
      List.append_assoc, show L = A.length + (k + 1) by omega]

/-- The search fails when no vector with as small a product is left, or it finds the index of
the next such vector, and a search from there looks further left. -/
lemma search_cases (h : Dims (L + 1) P) :
    (lowerIdx (incLast P) L = none ∧
      ∀ w, Dims (L + 1) w → incLast P ≤ w → (incLast P).prod ≤ w.prod) ∨
    ∃ i, lowerIdx (incLast P) L = some i ∧ Dims (L + 1) (bump (incLast P) i) ∧
      incLast P < bump (incLast P) i ∧
      (∀ w, Dims (L + 1) w → incLast P ≤ w → w < bump (incLast P) i →
        (incLast P).prod ≤ w.prod) ∧
      ∀ j, lowerIdx (incLast (bump (incLast P) i)) L = some j → j < i := by
  rcases exists_run h.ne_nil with ⟨k, c, rfl⟩ | ⟨A, s, k, c, hs, rfl⟩
  · exact .inl (search_constant h)
  · obtain ⟨hsome, hbump, hd, hleft⟩ := search_run h hs
    have hinc : incLast (A ++ s :: (List.replicate k c ++ [c])) =
        A ++ s :: (List.replicate k c ++ [c + 1]) := by
      simpa using incLast_append (A := A ++ s :: List.replicate k c) (l := c)
    rw [hinc]
    refine .inr ⟨A.length, hsome, ?_⟩
    rw [hbump]
    refine ⟨hd, ?_, ?_, ?_⟩
    · rw [append_lt_append, List.replicate_succ, cons_lt_cons]
      exact .inl (Nat.lt_succ_self s)
    · intro w hw hle hlt
      refine prod_le_of_between hw.sorted ?_ hle hlt
      rw [hw.length, ← hd.length, List.length_append, List.length_replicate]
    · intro j hj
      exact lowerIdx_lt (hleft ▸ hj)

/-! ### The loops -/

/-- The vectors so far are the ones below the current vector `S`, each once. -/
structure Enumerated (hosts : ℤ) (L : ℕ) (topos : List (List ℕ)) (S : List ℕ) : Prop where
  nodup : topos.Nodup
  mem_iff : ∀ w, w ∈ topos ↔ Dims L w ∧ (w.prod : ℤ) ≤ hosts ∧ w < S
  dims : (S.prod : ℤ) ≤ hosts → Dims L S

/-- A vector with too large a product is marked by a step of its last coordinate. -/
def Overshoot (hosts : ℤ) (L : ℕ) (S : List ℕ) : Prop :=
  hosts < S.prod → ∃ P, Dims L P ∧ S = incLast P

/-- No vector is left from `S` on. -/
def Exhausted (hosts : ℤ) (L : ℕ) (S : List ℕ) : Prop :=
  hosts < S.prod → ∀ w, Dims L w → (w.prod : ℤ) ≤ hosts → w < S

variable {topos : List (List ℕ)} {w : List ℕ}

lemma Dims.lt_incLast_iff (hw : Dims (L + 1) w) (hP : Dims (L + 1) P) :
    w < incLast P ↔ w < P ∨ w = P := by
  obtain ⟨A, l, rfl⟩ := (List.eq_nil_or_concat' P).resolve_left hP.ne_nil
  have hlen : w.length = A.length + 1 := by
    rw [hw.length, ← hP.length, List.length_append, List.length_singleton]
  rw [incLast_append, lt_append_succ_iff hlen]

/-- Passing over vectors whose products are too large keeps the enumeration. -/
lemma Enumerated.skip (h : Enumerated hosts L topos S) (hlt : S < S')
    (hskip : ∀ w, Dims L w → S ≤ w → w < S' → hosts < w.prod)
    (hdims : (S'.prod : ℤ) ≤ hosts → Dims L S') : Enumerated hosts L topos S' := by
  refine ⟨h.nodup, fun w => ?_, hdims⟩
  rw [h.mem_iff]
  constructor
  · rintro ⟨hw, hprod, hwS⟩
    exact ⟨hw, hprod, hwS.trans hlt⟩
  · rintro ⟨hw, hprod, hwS⟩
    refine ⟨hw, hprod, ?_⟩
    by_contra hle
    exact absurd hprod (not_le.mpr (hskip w hw (not_lt.mp hle) hwS))

/-- The current vector is added, and its last coordinate increased. -/
lemma Enumerated.append (h : Enumerated hosts (L + 1) topos S) (hS : (S.prod : ℤ) ≤ hosts) :
    Enumerated hosts (L + 1) (topos ++ [S]) (incLast S) := by
  have hd := h.dims hS
  constructor
  case nodup =>
    refine List.nodup_append.mpr ⟨h.nodup, List.nodup_singleton S, fun w hw w' hw' => ?_⟩
    rw [List.mem_singleton.mp hw']
    exact ((h.mem_iff w).mp hw).2.2.ne
  case mem_iff =>
    intro w
    rw [List.mem_append, List.mem_singleton, h.mem_iff]
    constructor
    · rintro (⟨hw, hprod, hlt⟩ | rfl)
      · exact ⟨hw, hprod, (hw.lt_incLast_iff hd).mpr (.inl hlt)⟩
      · exact ⟨hd, hS, (hd.lt_incLast_iff hd).mpr (.inr rfl)⟩
    · rintro ⟨hw, hprod, hlt⟩
      exact ((hw.lt_incLast_iff hd).mp hlt).imp (fun h => ⟨hw, hprod, h⟩) id
  case dims => exact fun _ => hd.inc

/-- What bounds the further passes of the search. -/
def searchMeasure (hosts : ℤ) (S : List ℕ) : ℕ :=
  if (S.prod : ℤ) ≤ hosts then 0
  else ((lowerIdx S (S.length - 1)).map (· + 2)).getD 1

/-- One pass of the search ends it, with no vector left or with one whose product is small
enough, or goes on further left. -/
lemma nextStep_cases (h : Enumerated hosts (L + 1) topos S) (ho : Overshoot hosts (L + 1) S) :
    (nextStep hosts S = .done S ∧ Exhausted hosts (L + 1) S) ∨
    ∃ S', nextStep hosts S = .next S' ∧ Enumerated hosts (L + 1) topos S' ∧
      Overshoot hosts (L + 1) S' ∧ searchMeasure hosts S' < searchMeasure hosts S := by
  by_cases hS : hosts < S.prod
  · obtain ⟨P, hP, rfl⟩ := ho hS
    have hlen : (incLast P).length - 1 = L := by rw [hP.inc.length, Nat.add_sub_cancel]
    rcases search_cases hP with ⟨hnone, hall⟩ | ⟨i, hsome, hd, hlt, hskip, hleft⟩
    · refine .inl ⟨by simp only [nextStep, if_pos hS, hlen, hnone], fun _ w hw hprod => ?_⟩
      by_contra hle
      have := hall w hw (not_lt.mp hle)
      omega
    · have hmeasure : searchMeasure hosts (incLast P) = i + 2 := by
        rw [searchMeasure, if_neg (not_le.mpr hS), hlen, hsome]
        rfl
      have hskip' : ∀ w, Dims (L + 1) w → incLast P ≤ w → w < bump (incLast P) i →
          hosts < w.prod := fun w hw hle hlt => by
        have := hskip w hw hle hlt
        omega
      refine .inr ?_
      by_cases hb : hosts < (bump (incLast P) i).prod
      · refine ⟨incLast (bump (incLast P) i), ?_, ?_, fun _ => ⟨_, hd, rfl⟩, ?_⟩
        · simp only [nextStep, if_pos hS, hlen, hsome, if_pos hb]
        · refine h.skip (hlt.trans ((hd.lt_incLast_iff hd).mpr (.inr rfl))) ?_ fun _ => hd.inc
          intro w hw hle hlt'
          rcases (hw.lt_incLast_iff hd).mp hlt' with hlt' | rfl
          · exact hskip' w hw hle hlt'
          · exact hb
        · rw [hmeasure, searchMeasure, hd.inc.length, Nat.add_sub_cancel]
          split
          · omega
          · cases hj : lowerIdx (incLast (bump (incLast P) i)) L with
            | none => simp
            | some j => simpa using hleft j hj
      · refine ⟨bump (incLast P) i, ?_, h.skip hlt hskip' fun _ => hd, fun h => absurd h hb, ?_⟩
        · simp only [nextStep, if_pos hS, hlen, hsome, if_neg hb]
        · rw [hmeasure, searchMeasure, if_pos (not_lt.mp hb)]
          omega
  · exact .inl ⟨if_neg hS, fun h => absurd h hS⟩

lemma nextStep_post (h : Enumerated hosts (L + 1) topos S) (ho : Overshoot hosts (L + 1) S)
    (hr : Loop.Returns (nextStep hosts) S S') :
    Enumerated hosts (L + 1) topos S' ∧ Exhausted hosts (L + 1) S' := by
  refine hr.post (fun S => Enumerated hosts (L + 1) topos S ∧ Overshoot hosts (L + 1) S)
    (fun S => Enumerated hosts (L + 1) topos S ∧ Exhausted hosts (L + 1) S) ?_ ?_ ⟨h, ho⟩
  · rintro S S₁ ⟨h, ho⟩ hn
    rcases nextStep_cases h ho with ⟨hd, _⟩ | ⟨S₂, hn₂, he, ho₂, _⟩
    · rw [hd] at hn
      cases hn
    · rw [hn, Step.next.injEq] at hn₂
      exact hn₂ ▸ ⟨he, ho₂⟩
  · rintro S S₁ ⟨h, ho⟩ hd
    rcases nextStep_cases h ho with ⟨hd₂, he⟩ | ⟨S₂, hn₂, _⟩
    · rw [hd, Step.done.injEq] at hd₂
      exact hd₂ ▸ ⟨h, he⟩
    · rw [hd] at hn₂
      cases hn₂

lemma nextStep_run (h : Enumerated hosts (L + 1) topos S) (ho : Overshoot hosts (L + 1) S)
    {fuel : ℕ} (hfuel : L + 1 < fuel) : ∃ S', Loop.run (nextStep hosts) fuel S = some S' := by
  have hmeasure : searchMeasure hosts S < fuel := by
    rw [searchMeasure]
    split
    · omega
    · rename_i hS
      obtain ⟨P, hP, rfl⟩ := ho (not_le.mp hS)
      rw [hP.inc.length, Nat.add_sub_cancel]
      cases hi : lowerIdx (incLast P) L with
      | none => simp only [Option.map_none, Option.getD_none]; omega
      | some i =>
        have := lowerIdx_lt hi
        simp only [Option.map_some, Option.getD_some]
        omega
  obtain ⟨S', hS', _⟩ : ∃ S', Loop.run (nextStep hosts) fuel S = some S' ∧ True :=
    Loop.run_of_measure (searchMeasure hosts)
      (fun S => Enumerated hosts (L + 1) topos S ∧ Overshoot hosts (L + 1) S) (fun _ => True)
      (fun S h => by
        rcases nextStep_cases h.1 h.2 with ⟨hd, _⟩ | ⟨S', hn, he, ho, hlt⟩
        · exact .inl ⟨S, hd, trivial⟩
        · exact .inr ⟨S', hn, ⟨he, ho⟩, hlt⟩) ⟨h, ho⟩ hmeasure
  exact ⟨S', hS'⟩

lemma enumerated_start : Enumerated hosts L [] (List.replicate L 2) := by
  refine ⟨List.nodup_nil, fun w => ?_, fun _ => ⟨List.length_replicate, ?_, ?_⟩⟩
  · simp only [List.not_mem_nil, false_iff, not_and, not_lt]
    intro hw _
    rw [← hw.length]
    exact replicate_le hw.two_le
  · exact List.pairwise_replicate.mpr (.inr le_rfl)
  · intro s hs
    rw [List.eq_of_mem_replicate hs]

lemma exhausted_start : Exhausted hosts L (List.replicate L 2) := by
  intro hS w hw hprod
  have hle := pow_le_prod hw.two_le
  rw [List.prod_replicate] at hS
  rw [hw.length] at hle
  omega

/-- One pass of the enumeration ends it or adds the current vector; when it runs out of passes
there were not enough of them. -/
lemma enumStep_cases (fuel : ℕ) (h : Enumerated hosts (L + 1) topos S)
    (he : Exhausted hosts (L + 1) S) :
    (enumStep fuel hosts (topos, S) = .done (some topos) ∧
      ∀ w, w ∈ topos ↔ Dims (L + 1) w ∧ (w.prod : ℤ) ≤ hosts) ∨
    (enumStep fuel hosts (topos, S) = .done none ∧ fuel ≤ L + 1) ∨
    ∃ S', enumStep fuel hosts (topos, S) = .next (topos ++ [S], S') ∧
      Enumerated hosts (L + 1) (topos ++ [S]) S' ∧ Exhausted hosts (L + 1) S' := by
  by_cases hS : (S.prod : ℤ) ≤ hosts
  · have happ := h.append hS
    have ho : Overshoot hosts (L + 1) (incLast S) := fun _ => ⟨S, h.dims hS, rfl⟩
    cases hrun : Loop.run (nextStep hosts) fuel (incLast S) with
    | none =>
      refine .inr (.inl ⟨by simp only [enumStep, if_pos hS, hrun], ?_⟩)
      by_contra hfuel
      obtain ⟨S', hS'⟩ := nextStep_run happ ho (not_le.mp hfuel)
      rw [hrun] at hS'
      cases hS'
    | some S' =>
      exact .inr (.inr ⟨S', by simp only [enumStep, if_pos hS, hrun],
        nextStep_post happ ho ⟨fuel, hrun⟩⟩)
  · refine .inl ⟨if_neg hS, fun w => ?_⟩
    rw [h.mem_iff]
    have := he (not_le.mp hS) w
    tauto

/-- All vectors with coordinates up to the number of hosts. -/
def box (hosts : ℤ) (L : ℕ) : List (List ℕ) :=
  (List.replicate L (List.range (hosts.toNat + 1))).sections

lemma Dims.mem_box (h : Dims L S) (hS : (S.prod : ℤ) ≤ hosts) : S ∈ box hosts L := by
  rw [box, List.mem_sections, ← h.length]
  have hpos : ∀ s ∈ S, s ∈ List.range (hosts.toNat + 1) := by
    intro s hs
    have h0 : 0 < S.prod := List.prod_pos fun a ha => Nat.lt_of_lt_of_le Nat.two_pos (h.two_le a ha)
    have := Nat.le_of_dvd h0 (List.dvd_prod hs)
    rw [List.mem_range]
    omega
  clear h hS
  induction S with
  | nil => exact .nil
  | cons a S ih =>
    exact .cons (hpos a List.mem_cons_self) (ih fun s hs => hpos s (List.mem_cons_of_mem _ hs))

lemma Enumerated.length_le (h : Enumerated hosts L topos S) :
    topos.length ≤ (box hosts L).length := by
  refine (h.nodup.subperm fun w hw => ?_).length_le
  obtain ⟨hd, hprod, _⟩ := (h.mem_iff w).mp hw
  exact hd.mem_box hprod

variable {fuel : ℕ} {vectors : List (List ℕ)}

lemma hyperxVectors_mem (h : hyperxVectors fuel hosts (L + 1) = some vectors) :
    vectors.Nodup ∧ ∀ S, S ∈ vectors ↔ Dims (L + 1) S ∧ (S.prod : ℤ) ≤ hosts := by
  rw [hyperxVectors, Option.join_eq_some_iff] at h
  have hreturns : Loop.Returns (enumStep fuel hosts) ([], List.replicate (L + 1) 2)
      (some vectors) := ⟨fuel, h⟩
  refine hreturns.post
    (fun s => Enumerated hosts (L + 1) s.1 s.2 ∧ Exhausted hosts (L + 1) s.2)
    (fun r => ∀ vectors, r = some vectors → vectors.Nodup ∧
      ∀ S, S ∈ vectors ↔ Dims (L + 1) S ∧ (S.prod : ℤ) ≤ hosts) ?_ ?_
    ⟨enumerated_start, exhausted_start⟩ vectors rfl
  · rintro ⟨topos, S⟩ s' ⟨h, he⟩ hn
    rcases enumStep_cases fuel h he with ⟨hd, _⟩ | ⟨hd, _⟩ | ⟨S', hn', h'⟩
    · simp [hd] at hn
    · simp [hd] at hn
    · rw [hn', Step.next.injEq] at hn
      exact hn ▸ h'
  · rintro ⟨topos, S⟩ r ⟨h, he⟩ hd vectors rfl
    rcases enumStep_cases fuel h he with ⟨hd', hmem⟩ | ⟨hd', _⟩ | ⟨S', hn', h'⟩
    · rw [hd', Step.done.injEq, Option.some.injEq] at hd
      exact hd ▸ ⟨h.nodup, hmem⟩
    · simp [hd'] at hd
    · simp [hn'] at hd

example : hyperxVectors 12 12 3 = some [[2, 2, 2], [2, 2, 3]] := by decide

lemma hyperxVectors_run (hosts : ℤ) (L : ℕ) {fuel : ℕ}
    (hfuel : (box hosts (L + 1)).length + L + 1 < fuel) :
    ∃ vectors, hyperxVectors fuel hosts (L + 1) = some vectors := by
  obtain ⟨r, hr, vectors, rfl⟩ : ∃ r, Loop.run (enumStep fuel hosts) fuel
      ([], List.replicate (L + 1) 2) = some r ∧ ∃ vectors, r = some vectors :=
    Loop.run_of_measure (fun s => (box hosts (L + 1)).length - s.1.length)
      (fun s => Enumerated hosts (L + 1) s.1 s.2 ∧ Exhausted hosts (L + 1) s.2)
      (fun r => ∃ vectors, r = some vectors)
      (by
        rintro ⟨topos, S⟩ ⟨h, he⟩
        rcases enumStep_cases fuel h he with ⟨hd, _⟩ | ⟨_, hle⟩ | ⟨S', hn, h'⟩
        · exact .inl ⟨some topos, hd, topos, rfl⟩
        · omega
        · refine .inr ⟨_, hn, h', ?_⟩
          have := h'.1.length_le
          rw [List.length_append, List.length_singleton] at this ⊢
          omega)
      ⟨enumerated_start, exhausted_start⟩ (by simp only [List.length_nil]; omega)
  exact ⟨vectors, by rw [hyperxVectors, hr, Option.join_some]⟩

/-! ### The printed topology -/

/-- The port count of the topology with these coordinates. -/
def fitRadix (hosts : ℤ) (bisec : ℚ) (S : List ℕ) : ℤ := ((HyperX.ofS S).fit hosts bisec).radix

variable {bisec : ℚ} {radix : ℤ} {topo : HyperX}

lemma le_fit_mul (h : Dims L S) :
    hosts ≤ ((HyperX.ofS S).fit hosts bisec).T * (S.prod : ℤ) := by
  have hpos : (0 : ℤ) < S.prod := by
    exact_mod_cast List.prod_pos fun a ha => Nat.lt_of_lt_of_le Nat.two_pos (h.two_le a ha)
  have hlt := Int.lt_ediv_add_one_mul_self (hosts + S.prod - 1) hpos
  rw [add_mul, one_mul] at hlt
  change hosts ≤ (hosts + S.prod - 1) / S.prod * S.prod
  omega

lemma mem_vectors {vectors : List (List (List ℕ))}
    (h : (List.range' 1 14).mapM (hyperxVectors fuel hosts) = some vectors) :
    S ∈ vectors.flatten ↔ ∃ L, 1 ≤ L ∧ L ≤ 14 ∧ Dims L S ∧ (S.prod : ℤ) ≤ hosts := by
  have hall := forall₂_of_mapM h
  have hmem : ∀ L vs, 1 ≤ L → hyperxVectors fuel hosts L = some vs →
      (S ∈ vs ↔ Dims L S ∧ (S.prod : ℤ) ≤ hosts) := by
    intro L vs hL hvs
    obtain ⟨L, rfl⟩ := Nat.exists_eq_add_of_le' hL
    exact (hyperxVectors_mem hvs).2 S
  rw [List.mem_flatten]
  constructor
  · rintro ⟨vs, hvs, hS⟩
    obtain ⟨L, hL, hrun⟩ := exists_of_forall₂ hall.flip hvs
    obtain ⟨h1, h2⟩ := List.mem_range'_1.mp hL
    exact ⟨L, h1, by omega, (hmem L vs h1 hrun).mp hS⟩
  · rintro ⟨L, h1, h2, hd⟩
    obtain ⟨vs, hvs, hrun⟩ := exists_of_forall₂ hall (List.mem_range'_1.mpr ⟨h1, by omega⟩)
    exact ⟨vs, hvs, (hmem L vs h1 hrun).mpr hd⟩

lemma hyperxOpt_run (hosts : ℤ) (bisec : ℚ) (radix : ℤ) :
    ∃ fuel printed, hyperxOpt fuel hosts bisec radix = some printed := by
  let passes := fun L => (box hosts L).length + L + 1
  have hle : ∀ L ∈ List.range' 1 14, passes L ≤ ((List.range' 1 14).map passes).sum :=
    fun L hL => List.le_sum_of_mem (List.mem_map_of_mem hL)
  let fuel := ((List.range' 1 14).map passes).sum
  obtain ⟨vectors, hv, _⟩ := exists_mapM (f := hyperxVectors fuel hosts) (P := fun _ _ => True)
    (l := List.range' 1 14) (by
      intro L hL
      have hfuel := hle L hL
      obtain ⟨L, rfl⟩ := Nat.exists_eq_add_of_le' (List.mem_range'_1.mp hL).1
      obtain ⟨vs, hvs⟩ := hyperxVectors_run hosts L hfuel
      exact ⟨vs, hvs, trivial⟩)
  exact ⟨fuel, _, by rw [hyperxOpt, hv]; rfl⟩

/-- The printed topology comes from an enumerated vector, and enumerated ones with fewer
switches do not satisfy the radix. -/
lemma hyperxOpt_cases (h : hyperxOpt fuel hosts bisec radix = some (some topo)) :
    ∃ S, topo = (HyperX.ofS S).fit hosts bisec ∧ fitRadix hosts bisec S ≤ radix ∧
      (∃ L, 1 ≤ L ∧ L ≤ 14 ∧ Dims L S ∧ (S.prod : ℤ) ≤ hosts) ∧
      ∀ S' L, 1 ≤ L → L ≤ 14 → Dims L S' → (S'.prod : ℤ) ≤ hosts → S'.prod < S.prod →
        radix < fitRadix hosts bisec S' := by
  simp only [hyperxOpt, Option.pure_def, Option.bind_eq_bind, Option.bind_eq_some_iff,
    Option.some.injEq, List.find?_map, Option.map_eq_some_iff] at h
  obtain ⟨vectors, hv, x, hfind, rfl⟩ := h
  obtain ⟨hx, hp, hmin⟩ := find?_insertionSort hfind
  obtain ⟨S, hS, rfl⟩ := List.mem_map.mp hx
  refine ⟨S, rfl, of_decide_eq_true hp, (mem_vectors hv).mp hS, ?_⟩
  intro S' L hL hL' hd hprod hlt
  have hmem := List.mem_map_of_mem (f := HyperX.ofS) ((mem_vectors hv).mpr ⟨L, hL, hL', hd, hprod⟩)
  exact not_le.mp (of_decide_eq_false (hmin _ hmem hlt))

theorem hyperxOpt_exhaustive_optimal (hosts : ℤ) (bisec : ℚ) (radix : ℤ) :
    (∀ L, 1 ≤ L → ∃ fuel vectors, hyperxVectors fuel hosts L = some vectors ∧ vectors.Nodup ∧
      ∀ S, S ∈ vectors ↔ Dims L S ∧ (S.prod : ℤ) ≤ hosts) ∧
    (∃ fuel printed, hyperxOpt fuel hosts bisec radix = some printed) ∧
    ∀ fuel topo, hyperxOpt fuel hosts bisec radix = some (some topo) →
      hosts ≤ topo.T * topo.S.prod ∧ topo.radix ≤ radix ∧
      ∀ L S, 1 ≤ L → L ≤ 14 → Dims L S → (S.prod : ℤ) ≤ hosts → S.prod < topo.S.prod →
        radix < fitRadix hosts bisec S := by
  refine ⟨fun L hL => ?_, ?_, fun fuel topo h => ?_⟩
  · obtain ⟨L, rfl⟩ := Nat.exists_eq_add_of_le' hL
    obtain ⟨vectors, hv⟩ := hyperxVectors_run hosts L (Nat.lt_succ_self _)
    exact ⟨_, vectors, hv, hyperxVectors_mem hv⟩
  · exact hyperxOpt_run hosts bisec radix
  · obtain ⟨S, rfl, hradix, ⟨L, _, _, hd, _⟩, hmin⟩ := hyperxOpt_cases h
    exact ⟨le_fit_mul hd, hradix, fun L S' hL hL' => hmin S' L hL hL'⟩

end ResSim
