import Mathlib.Data.List.Perm.Basic
import Mathlib.Data.List.Nodup
import Mathlib.Data.List.Range
import ResSim.Lib.Ternary

/-!
# Reordering the positions of a list

`gather` reads the elements in the order of a list of positions and `scatter` puts them back.
Where the list has every position once, the two are inverse to each other, and a pattern
matches a key if and only if the reordered ones match.
-/

namespace ResSim

variable {β : Type}

/-- The elements at the positions `ix`. -/
def gather (ix : List ℕ) (a : β) (xs : List β) : List β := ix.map (fun i => xs.getD i a)

/-- The elements moved to the positions `ix`. -/
def scatter (ix : List ℕ) (a : β) (xs : List β) : List β :=
  ix.zipIdx.foldl (fun ys x => ys.set x.1 (xs.getD x.2 a)) xs

variable {ix : List ℕ} {a : β} {xs : List β} {n i k : ℕ}

@[simp] lemma length_gather : (gather ix a xs).length = ix.length := List.length_map _

lemma getElem?_gather (hk : ix[k]? = some i) (hi : i < xs.length) :
    (gather ix a xs)[k]? = xs[i]? := by
  rw [gather, List.getElem?_map, hk, Option.map_some, List.getD_eq_getElem?_getD,
    List.getElem?_eq_getElem hi, Option.getD_some]

section Writes

variable {l : List (ℕ × ℕ)} {ys : List β} (f : ℕ → β)

lemma length_foldl_set :
    (l.foldl (fun ys x => ys.set x.1 (f x.2)) ys).length = ys.length := by
  induction l generalizing ys with
  | nil => rfl
  | cons x l ih => rw [List.foldl_cons, ih, List.length_set]

lemma getElem?_foldl_set_of_notMem (hi : i ∉ l.map Prod.fst) :
    (l.foldl (fun ys x => ys.set x.1 (f x.2)) ys)[i]? = ys[i]? := by
  induction l generalizing ys with
  | nil => rfl
  | cons x l ih =>
    rw [List.map_cons, List.mem_cons, not_or] at hi
    rw [List.foldl_cons, ih hi.2, List.getElem?_set_ne (Ne.symm hi.1)]

lemma getElem?_foldl_set (hl : (l.map Prod.fst).Nodup) (hx : (i, k) ∈ l) (hlt : i < ys.length) :
    (l.foldl (fun ys x => ys.set x.1 (f x.2)) ys)[i]? = some (f k) := by
  induction l generalizing ys with
  | nil => cases hx
  | cons y l ih =>
    rw [List.map_cons, List.nodup_cons] at hl
    rw [List.foldl_cons]
    rcases List.mem_cons.mp hx with rfl | hx
    · rw [getElem?_foldl_set_of_notMem f hl.1, List.getElem?_set_self hlt]
    · exact ih hl.2 hx (by rwa [List.length_set])

end Writes

@[simp] lemma length_scatter : (scatter ix a xs).length = xs.length :=
  length_foldl_set (fun k => xs.getD k a)

section Perm

variable (hix : ix.Perm (List.range n))
include hix

lemma lt_of_getElem?_perm (hk : ix[k]? = some i) : i < n :=
  List.mem_range.mp (hix.mem_iff.mp (List.mem_of_getElem? hk))

lemma exists_getElem?_perm (hi : i < n) : ∃ k, k < n ∧ ix[k]? = some i := by
  obtain ⟨k, hk⟩ := List.mem_iff_getElem?.mp (hix.mem_iff.mpr (List.mem_range.mpr hi))
  have hlen := hix.length_eq
  rw [List.length_range] at hlen
  exact ⟨k, hlen ▸ (List.getElem?_eq_some_iff.mp hk).1, hk⟩

lemma exists_getElem?_perm_of_lt (hk : k < n) : ∃ i, i < n ∧ ix[k]? = some i := by
  have hlen := hix.length_eq
  rw [List.length_range] at hlen
  have hget := List.getElem?_eq_getElem (hlen ▸ hk : k < ix.length)
  exact ⟨_, lt_of_getElem?_perm hix hget, hget⟩

lemma getElem?_scatter (hxs : xs.length = n) (hk : ix[k]? = some i) :
    (scatter ix a xs)[i]? = xs[k]? := by
  have hi := lt_of_getElem?_perm hix hk
  have hlen := hix.length_eq
  rw [List.length_range] at hlen
  have hkn : k < xs.length := by
    rw [hxs, ← hlen]
    exact (List.getElem?_eq_some_iff.mp hk).1
  have hmem : (i, k) ∈ ix.zipIdx := List.mem_zipIdx_iff_getElem?.mpr hk
  have hnodup : (ix.zipIdx.map Prod.fst).Nodup := by
    rw [List.zipIdx_map_fst]
    exact hix.nodup_iff.mpr List.nodup_range
  rw [scatter, getElem?_foldl_set (fun k => xs.getD k a) hnodup hmem (by omega), List.getD_eq_getElem?_getD,
    List.getElem?_eq_getElem hkn, Option.getD_some]

lemma gather_perm (hxs : xs.length = n) : (gather ix a xs).Perm xs := by
  have hrange : (List.range n).map (fun i => xs.getD i a) = xs := by
    apply List.ext_getElem (by simp [hxs])
    intro i _ hi
    simp [List.getElem?_eq_getElem hi]
  exact (hix.map _).trans (List.Perm.of_eq hrange)

lemma gather_scatter (hxs : xs.length = n) : gather ix a (scatter ix a xs) = xs := by
  have hlen := hix.length_eq
  rw [List.length_range] at hlen
  apply List.ext_getElem?
  intro k
  by_cases hk : k < n
  · obtain ⟨i, hi, hget⟩ := exists_getElem?_perm_of_lt hix hk
    rw [getElem?_gather hget (by rw [length_scatter]; omega), getElem?_scatter hix hxs hget]
  · rw [List.getElem?_eq_none (by rw [length_gather]; omega), List.getElem?_eq_none (by omega)]

lemma scatter_gather (hxs : xs.length = n) : scatter ix a (gather ix a xs) = xs := by
  have hlen := hix.length_eq
  rw [List.length_range] at hlen
  apply List.ext_getElem?
  intro i
  by_cases hi : i < n
  · obtain ⟨k, hk, hget⟩ := exists_getElem?_perm hix hi
    rw [getElem?_scatter hix (by rw [length_gather, hlen]) hget, getElem?_gather hget (by omega)]
  · rw [List.getElem?_eq_none (by rw [length_scatter, length_gather]; omega),
      List.getElem?_eq_none (by omega)]

/-- Reordering a pattern and a key. -/
theorem matches_gather {p : Pattern β} {key : List β} (hp : p.length = n) (hkey : key.length = n) :
    Pattern.Matches (gather ix none p) (gather ix a key) ↔ p.Matches key := by
  have hlen := hix.length_eq
  rw [List.length_range] at hlen
  simp only [Pattern.Matches, Pattern.within_iff_getElem?, List.length_map, length_gather, hp,
    hkey, true_and, List.getElem?_map]
  constructor
  · intro h i b c hb hc
    obtain ⟨k, hk, hget⟩ := exists_getElem?_perm hix
      (hp ▸ (List.getElem?_eq_some_iff.mp hc).1 : i < n)
    apply h k b c
    · rwa [getElem?_gather hget (by rw [hkey]; exact lt_of_getElem?_perm hix hget)]
    · rwa [getElem?_gather hget (by rw [hp]; exact lt_of_getElem?_perm hix hget)]
  · intro h k b c hb hc
    have hk : k < n := by
      have := (List.getElem?_eq_some_iff.mp hc).1
      rwa [length_gather, hlen] at this
    obtain ⟨i, hi, hget⟩ := exists_getElem?_perm_of_lt hix hk
    rw [getElem?_gather hget (by omega)] at hb hc
    exact h i b c hb hc

/-- A pattern that is put back matches the key that is not reordered. -/
lemma matches_scatter {p : Pattern β} {key : List β} (hp : p.length = n)
    (hkey : key.length = n) :
    Pattern.Matches (scatter ix none p) key ↔ p.Matches (gather ix a key) := by
  have h := matches_gather hix (a := a) (by rw [length_scatter, hp] : (scatter ix none p).length = n)
    hkey
  rw [← h, gather_scatter hix hp]

end Perm

end ResSim
