import ResSim.Trees.TtgLayers

/-!
# The selection of trees

The loop trades trees of the first layer for later trees outside of it. A tree outside of the
first layer that has been seen is never given up, so when the list is used up all of them are
selected. With a random graph this leaves one tree in each layer behind the first.
-/

namespace ResSim

/-! ### The loop -/

section Swap

variable {dist : ℕ → ℕ} {draws : ℕ → ℕ} {firstLayer topTrees rest : List ℕ} {maxl1 : ℤ}

lemma exists_worstTree (dist : ℕ → ℕ) {l : List ℕ} (h : l ≠ []) :
    ∃ t, worstTree dist l = some t ∧ t ∈ l := by
  cases l with
  | nil => exact absurd rfl h
  | cons x xs =>
    refine ⟨_, rfl, ?_⟩
    clear h
    induction xs generalizing x with
    | nil => exact List.mem_singleton.mpr rfl
    | cons y xs ih =>
      rw [List.foldl_cons]
      split
      · rcases List.mem_cons.mp (ih x) with h | h
        · rw [h]
          exact List.mem_cons_self ..
        · exact List.mem_cons_of_mem _ (List.mem_cons_of_mem _ h)
      · exact List.mem_cons_of_mem _ (ih y)

/-- What the loop selects: as many trees as before, all trees outside of the first layer that
were selected, and at most `maxl1` trees of the first layer unless no other tree is left. -/
structure Selection (firstLayer topTrees rest : List ℕ) (maxl1 : ℤ) (top : List ℕ) : Prop where
  nodup : top.Nodup
  length : top.length = topTrees.length
  subset : ∀ t ∈ top, t ∈ topTrees ++ rest
  outside : ∀ t ∈ topTrees, t ∉ firstLayer → t ∈ top
  bound : ((firstLayer.filter (fun t => t ∈ top)).length : ℤ) ≤ maxl1 ∨
    ∀ t ∈ rest, t ∉ firstLayer → t ∈ top

lemma Selection.skip {newt : ℕ} {top : List ℕ} (h : Selection firstLayer topTrees rest maxl1 top)
    (hnewt : newt ∈ firstLayer) : Selection firstLayer topTrees (newt :: rest) maxl1 top where
  nodup := h.nodup
  length := h.length
  subset t ht := by
    have := h.subset t ht
    simp only [List.mem_append, List.mem_cons] at this ⊢
    tauto
  outside := h.outside
  bound := by
    apply h.bound.imp_right
    intro hrest t ht hout
    rcases List.mem_cons.mp ht with rfl | ht
    · exact absurd hnewt hout
    · exact hrest t ht hout

lemma Selection.swap {newt badt : ℕ} {top : List ℕ}
    (h : Selection firstLayer (newt :: topTrees.erase badt) rest maxl1 top)
    (hfirst : badt ∈ firstLayer) (hbad : badt ∈ topTrees) (hnewt : newt ∉ firstLayer) :
    Selection firstLayer topTrees (newt :: rest) maxl1 top where
  nodup := h.nodup
  length := by
    have := List.length_pos_of_mem hbad
    rw [h.length, List.length_cons, List.length_erase_of_mem hbad]
    omega
  subset t ht := by
    have := h.subset t ht
    simp only [List.mem_append, List.mem_cons] at this ⊢
    have herase : t ∈ topTrees.erase badt → t ∈ topTrees := List.mem_of_mem_erase
    tauto
  outside t ht hout := by
    have hne : t ≠ badt := fun heq => hout (heq ▸ hfirst)
    exact h.outside t (List.mem_cons_of_mem _ ((List.mem_erase_of_ne hne).mpr ht)) hout
  bound := by
    apply h.bound.imp_right
    intro hrest t ht hout
    rcases List.mem_cons.mp ht with rfl | ht
    · exact h.outside t List.mem_cons_self hnewt
    · exact hrest t ht hout

lemma nodup_swap {newt : ℕ} (hn : (topTrees ++ newt :: rest).Nodup) (badt : ℕ) :
    ((newt :: topTrees.erase badt) ++ rest).Nodup := by
  have hmid : (newt :: (topTrees ++ rest)).Nodup := List.nodup_middle.mp hn
  refine hmid.sublist (List.Sublist.cons_cons newt ?_)
  exact (List.erase_sublist).append_right rest

variable (dist draws) in
lemma exists_swapTrees (hmax : 1 ≤ maxl1) (hn : (topTrees ++ rest).Nodup) :
    ∃ top, swapTrees firstLayer dist maxl1 draws topTrees rest = some top ∧
      Selection firstLayer topTrees rest maxl1 top := by
  induction rest generalizing topTrees with
  | nil =>
    refine ⟨topTrees, rfl, ?_, rfl, fun t ht => by simpa using ht, fun t ht _ => ht,
      .inr fun t ht => absurd ht List.not_mem_nil⟩
    simpa using hn
  | cons newt rest ih =>
    rw [swapTrees]
    split
    · rename_i hgt
      have hne : shuffle (draws rest.length) (firstLayer.filter (fun iT => iT ∈ topTrees)) ≠ [] := by
        intro hnil
        rw [hnil, List.length_nil] at hgt
        omega
      obtain ⟨badt, hbad, hmem⟩ := exists_worstTree dist hne
      rw [mem_shuffle, List.mem_filter, decide_eq_true_iff] at hmem
      rw [hbad]
      dsimp only [Option.bind_eq_bind, Option.bind_some]
      split
      · rename_i hnewt
        have hn' : (topTrees ++ rest).Nodup :=
          hn.sublist ((List.sublist_cons_self newt rest).append_left topTrees)
        obtain ⟨top, hrun, htop⟩ := ih hn'
        exact ⟨top, hrun, htop.skip hnewt⟩
      · rename_i hnewt
        obtain ⟨top, hrun, htop⟩ := ih (nodup_swap hn badt)
        exact ⟨top, hrun, htop.swap hmem.1 hmem.2 hnewt⟩
    · rename_i hle
      rw [shuffle_length, not_lt] at hle
      exact ⟨topTrees, rfl, (List.nodup_append.mp hn).1, rfl,
        fun t ht => List.mem_append_left _ ht, fun t ht _ => ht, .inl hle⟩

end Swap

/-- With the trees in the order of their distance, the selection has as many trees as asked for. -/
lemma exists_selection {layers : List (List ℕ)} (hflat : layers.flatten.Nodup) {numTrees : ℕ}
    {maxl1 : ℤ} (hle : numTrees ≤ layers.flatten.length) (hmax : 1 ≤ maxl1) (dist draws : ℕ → ℕ) :
    ∃ top, swapTrees (layers.headD []) dist maxl1 draws
        ((layers.flatten.insertionSort (fun x y => dist x ≤ dist y)).take numTrees)
        ((layers.flatten.insertionSort (fun x y => dist x ≤ dist y)).drop numTrees) = some top ∧
      top.Nodup ∧ top.length = numTrees ∧ top ⊆ layers.flatten ∧
      ((((layers.headD []).filter (fun t => t ∈ top)).length : ℤ) ≤ maxl1 ∨
        ∀ t ∈ layers.flatten, t ∉ layers.headD [] → t ∈ top) := by
  have hperm := List.perm_insertionSort (fun x y => dist x ≤ dist y) layers.flatten
  have hn : ((layers.flatten.insertionSort (fun x y => dist x ≤ dist y)).take numTrees ++
      (layers.flatten.insertionSort (fun x y => dist x ≤ dist y)).drop numTrees).Nodup := by
    rw [List.take_append_drop]
    exact hperm.nodup_iff.mpr hflat
  obtain ⟨top, hrun, htop⟩ := exists_swapTrees dist draws hmax hn
  refine ⟨top, hrun, htop.nodup, ?_, fun t ht => ?_, ?_⟩
  · rw [htop.length, List.length_take, hperm.length_eq]
    omega
  · have := htop.subset t ht
    rw [List.take_append_drop] at this
    exact hperm.mem_iff.mp this
  · apply htop.bound.imp_right
    intro hrest t ht hout
    have hin := hperm.mem_iff.mpr ht
    rw [← List.take_append_drop numTrees (layers.flatten.insertionSort _), List.mem_append] at hin
    exact hin.elim (fun ht => htop.outside t ht hout) (fun ht => hrest t ht hout)

/-! ### Random graphs -/

section Random

variable {n randRes : ℕ} {helper : ℕ → Option (List (ℕ × ℕ))} {ttg : Ttg}
  {layers : List (List ℕ)} {draws : ℕ → ℕ}

lemma ttgRandMaxDag_spec (h : ttgRandMaxDagCommon n randRes helper = some ttg) :
    randRes < n ∧ ttg.size = n ∧
      ∀ i, ttg.r i = if i < n - randRes then 0 else i - (n - randRes) + 1 := by
  obtain ⟨_, hlt, h⟩ := Option.bind_eq_some_iff.mp h
  obtain ⟨es, _, h⟩ := Option.bind_eq_some_iff.mp h
  obtain ⟨_, _, h⟩ := Option.bind_eq_some_iff.mp h
  obtain ⟨_, _, h⟩ := Option.bind_eq_some_iff.mp h
  obtain ⟨_, _, h⟩ := Option.bind_eq_some_iff.mp h
  rw [Option.guard_eq_some'] at hlt
  rw [Option.some.injEq] at h
  subst h
  exact ⟨hlt, rfl, fun _ => rfl⟩

/-- The trees that are left for resilience, each in a layer of its own. -/
def resLayers (n randRes : ℕ) : List (List ℕ) :=
  (List.range' (n - randRes) randRes).map (fun i => [i])

lemma eq_of_perm_singletons {A : List (List ℕ)} {l : List ℕ}
    (h : List.Forall₂ List.Perm A (l.map (fun i => [i]))) : A = l.map (fun i => [i]) := by
  induction l generalizing A with
  | nil => exact List.forall₂_nil_right_iff.mp h
  | cons i l ih =>
    obtain ⟨a, A', ha, hA, rfl⟩ := List.forall₂_cons_right_iff.mp h
    rw [ih hA, List.perm_singleton.mp ha, List.map_cons]

lemma findLayers_rand (hhelper : ∀ m es, helper m = some es → es ⊆ completeEdges m)
    (h : ttgRandMaxDagCommon n randRes helper = some ttg) (hl : findLayers ttg draws = some layers) :
    ∃ first, first.Perm (List.range (n - randRes)) ∧ layers = first :: resLayers n randRes := by
  have hlev := leveled_r hhelper h
  obtain ⟨hlt, hsize, hr⟩ := ttgRandMaxDag_spec h
  obtain ⟨layers', hl', hperm, hnil⟩ := hlev.findLayers_eq (by omega) draws
  obtain rfl : layers' = layers := by
    rw [hl, Option.some.injEq] at hl'
    exact hl'.symm
  have hfirst : (levelSet ttg ttg.r 0).Perm (List.range (n - randRes)) := by
    rw [List.perm_ext_iff_of_nodup (nodup_levelSet 0) List.nodup_range]
    intro t
    rw [mem_levelSet, List.mem_range, hr, hsize]
    split <;> omega
  have hsingle : ∀ j < randRes, levelSet ttg ttg.r (j + 1) = [n - randRes + j] := by
    intro j hj
    apply List.perm_singleton.mp
    rw [List.perm_ext_iff_of_nodup (nodup_levelSet _) (List.nodup_singleton _)]
    intro t
    rw [mem_levelSet, List.mem_singleton, hr, hsize]
    split <;> omega
  have hlast : levelSet ttg ttg.r (randRes + 1) = [] := by
    rw [List.eq_nil_iff_forall_not_mem]
    intro t
    rw [mem_levelSet, hr, hsize]
    split <;> omega
  have hlength : layers'.length = randRes + 1 := by
    have hge : randRes < layers'.length := by
      by_contra hle
      cases hk : layers'.length with
      | zero =>
        rw [hk] at hnil
        rw [hnil] at hfirst
        have := hfirst.length_eq
        rw [List.length_nil, List.length_range] at this
        omega
      | succ j =>
        rw [hk, hsingle j (by omega)] at hnil
        cases hnil
    have hle : layers'.length ≤ randRes + 1 := by
      by_contra hgt
      have hget := List.forall₂_iff_get.mp hperm
      have hp := hget.2 (randRes + 1) (by omega) (by rw [← hget.1]; omega)
      simp only [List.get_eq_getElem, List.getElem_map, List.getElem_range, hlast,
        List.perm_nil] at hp
      have hc : ttg.Closed := fun e he => ⟨(hlev.edge e.1 e.2 he).1, (hlev.edge e.1 e.2 he).2.1⟩
      exact (findLayers_isLayering hc hl).ne_nil _ (List.getElem_mem _) hp
    omega
  have hlevels : (List.range randRes).map (levelSet ttg ttg.r ∘ Nat.succ) = resLayers n randRes := by
    unfold resLayers
    rw [List.range'_eq_map_range, List.map_map]
    exact List.map_congr_left fun j hj => hsingle j (List.mem_range.mp hj)
  rw [hlength, List.range_succ_eq_map, List.map_cons, List.map_map, hlevels] at hperm
  obtain ⟨first, rest, hf, hrest, rfl⟩ := List.forall₂_cons_right_iff.mp hperm
  exact ⟨first, hf.trans hfirst, congrArg (first :: ·) (eq_of_perm_singletons hrest)⟩

lemma resLayers_flatten (n randRes : ℕ) :
    (resLayers n randRes).flatten = List.range' (n - randRes) randRes := by
  unfold resLayers
  rw [← List.flatMap_def, List.flatMap_singleton']

/-- A selection with at most as many trees of the first layer as are asked for beyond the
others has exactly so many of them, and all others. -/
lemma selection_rand {first top : List ℕ} {numTrees : ℕ}
    (hn : (first :: resLayers n randRes).flatten.Nodup) (htop : top.Nodup)
    (hlen : top.length = numTrees) (hsub : top ⊆ (first :: resLayers n randRes).flatten)
    (hle : randRes ≤ numTrees)
    (hbound : ((first.filter (fun t => t ∈ top)).length : ℤ) ≤ numTrees - randRes ∨
      ∀ t ∈ (first :: resLayers n randRes).flatten, t ∉ first → t ∈ top) :
    (first.filter (fun t => t ∈ top)).length = numTrees - randRes ∧
      ∀ t ∈ List.range' (n - randRes) randRes, t ∈ top := by
  rw [List.flatten_cons, resLayers_flatten] at hn hsub hbound
  have hperm : ((first ++ List.range' (n - randRes) randRes).filter (fun t => t ∈ top)).Perm top := by
    rw [List.perm_ext_iff_of_nodup (hn.filter _) htop]
    intro t
    rw [List.mem_filter, decide_eq_true_iff]
    exact ⟨fun h => h.2, fun h => ⟨hsub h, h⟩⟩
  have hsum := hperm.length_eq
  rw [List.filter_append, List.length_append, hlen] at hsum
  have hres := List.length_filter_le (fun t => decide (t ∈ top)) (List.range' (n - randRes) randRes)
  rw [List.length_range'] at hres
  have hall : ((List.range' (n - randRes) randRes).filter (fun t => t ∈ top)).length = randRes := by
    rcases hbound with hbound | hout
    · omega
    · have hin : ∀ t ∈ List.range' (n - randRes) randRes, t ∈ top := by
        intro t ht
        apply hout t (List.mem_append_right _ ht)
        exact fun hf => (List.nodup_append.mp hn).2.2 t hf t ht rfl
      rw [List.filter_eq_self.mpr (by simpa using hin), List.length_range']
  refine ⟨by omega, fun t ht => ?_⟩
  have hself := List.length_filter_eq_length_iff.mp (hall.trans (List.length_range' ..).symm)
  exact of_decide_eq_true (hself t ht)

lemma restrictLayers_rand {first top : List ℕ} (hne : first.filter (fun t => t ∈ top) ≠ [])
    (hall : ∀ t ∈ List.range' (n - randRes) randRes, t ∈ top) :
    restrictLayers top (first :: resLayers n randRes) =
      first.filter (fun t => t ∈ top) :: resLayers n randRes := by
  have hrest : restrictLayers top (resLayers n randRes) = resLayers n randRes := by
    unfold restrictLayers resLayers
    rw [List.map_map, List.map_congr_left (g := fun i => [i]), List.filter_eq_self]
    · intro l hl
      obtain ⟨i, _, rfl⟩ := List.mem_map.mp hl
      simp
    · intro i hi
      simp [hall i hi]
  unfold restrictLayers at hrest ⊢
  rw [List.map_cons, List.filter_cons_of_pos, hrest]
  simpa using List.length_pos_iff.mpr hne

lemma getElem?_resLayers {j : ℕ} {l : List ℕ} (h : (resLayers n randRes)[j]? = some l) :
    j < randRes ∧ l = [n - randRes + j] := by
  unfold resLayers at h
  rw [List.getElem?_map, Option.map_eq_some_iff] at h
  obtain ⟨i, hi, rfl⟩ := h
  obtain ⟨hj, rfl⟩ := List.getElem?_eq_some_iff.mp hi
  rw [List.length_range'] at hj
  exact ⟨hj, by rw [List.getElem_range', Nat.one_mul]⟩

lemma rand_assertions {first : List ℕ} {numTrees : ℕ} {res : ℤ} (hres : res = randRes)
    (hr : ∀ i, ttg.r i = if i < n - randRes then 0 else i - (n - randRes) + 1)
    (hfirst : ∀ t ∈ first, t < n - randRes) (hlen : (first.length : ℤ) = numTrees - randRes) :
    (((first :: resLayers n randRes).length : ℕ) : ℤ) = res + 1 ∧
      ∀ x ∈ (first :: resLayers n randRes).zipIdx, (∀ iT ∈ x.1, ttg.r iT = x.2) ∧
        if 0 < x.2 then x.1.length = 1 else (x.1.length : ℤ) = numTrees - res := by
  have hcount : (resLayers n randRes).length = randRes := by
    unfold resLayers
    rw [List.length_map, List.length_range']
  refine ⟨by rw [List.length_cons, hcount, hres]; rfl, ?_⟩
  rintro ⟨l, i⟩ hx
  rw [List.mem_zipIdx_iff_getElem?] at hx
  cases i with
  | zero =>
    obtain rfl : first = l := Option.some.inj hx
    refine ⟨fun t ht => ?_, ?_⟩
    · rw [hr, if_pos (hfirst t ht)]
    · rw [if_neg (Nat.lt_irrefl 0), hlen, hres]
  | succ j =>
    obtain ⟨hj, rfl⟩ := getElem?_resLayers hx
    refine ⟨fun t ht => ?_, ?_⟩
    · rw [List.mem_singleton.mp ht, hr, if_neg (by omega)]
      omega
    · rw [if_pos (Nat.succ_pos j)]
      rfl

/-- The selection on a random graph passes its assertions: the other trees are all kept, each in
its own layer. -/
lemma selectLayers_rand {args : DfrArgs} (hty : args.ttgType = .rand ∨ args.ttgType = .maxdag)
    (hres : args.randRes = randRes) (hhelper : ∀ m es, helper m = some es → es ⊆ completeEdges m)
    (h : ttgRandMaxDagCommon n randRes helper = some ttg) (hl : findLayers ttg draws = some layers)
    {numTrees : ℕ} (hgt : randRes < numTrees) (hle : numTrees ≤ n) (dist draws' : ℕ → ℕ) :
    ∃ first, selectLayers args ttg numTrees layers dist draws' =
        some (first :: resLayers n randRes) ∧
      first.length = numTrees - randRes ∧ first.Nodup ∧ ∀ t ∈ first, t ∈ layers.headD [] := by
  obtain ⟨hlt, hsize, hr⟩ := ttgRandMaxDag_spec h
  have hpart := (leveled_r hhelper h).layersPartition (by omega) draws
  obtain ⟨layers', hl', _, hflat⟩ := hpart
  obtain rfl : layers' = layers := by
    rw [hl, Option.some.injEq] at hl'
    exact hl'.symm
  obtain ⟨first, hfirst, rfl⟩ := findLayers_rand hhelper h hl
  have hn := hflat.nodup_iff.mpr List.nodup_range
  have hmax : maxl1Of args numTrees = numTrees - randRes := by
    unfold maxl1Of
    rcases hty with hty | hty <;> rw [hty] <;> dsimp only <;> rw [hres]
  have hpos : 1 ≤ maxl1Of args numTrees := by omega
  have henough : numTrees ≤ (first :: resLayers n randRes).flatten.length := by
    rw [hflat.length_eq, List.length_range, hsize]
    exact hle
  obtain ⟨top, hrun, hnodup, hlen, hsub, hbound⟩ := exists_selection hn henough hpos dist draws'
  rw [hmax, List.headD_cons] at hbound
  obtain ⟨hcount, hall⟩ := selection_rand hn hnodup hlen hsub hgt.le hbound
  have hne : first.filter (fun t => t ∈ top) ≠ [] := by
    rw [← List.length_pos_iff]
    omega
  have hlow : ∀ t ∈ first.filter (fun t => t ∈ top), t < n - randRes := by
    intro t ht
    exact List.mem_range.mp (hfirst.mem_iff.mp (List.mem_filter.mp ht).1)
  have hline : args.ttgType ≠ .line := by
    rcases hty with hty | hty <;> rw [hty] <;> exact fun h => nomatch h
  refine ⟨first.filter (fun t => t ∈ top), ?_, hcount,
    ((hfirst.nodup_iff.mpr List.nodup_range).filter _), fun t ht => (List.mem_filter.mp ht).1⟩
  refine guard_bind_eq_some.mpr ⟨fun _ => by omega, ?_⟩
  refine Option.bind_eq_some_iff.mpr ⟨top, hrun, ?_⟩
  rw [restrictLayers_rand hne hall]
  refine guard_bind_eq_some.mpr ⟨Nat.succ_pos _, ?_⟩
  rw [if_neg (fun h => hline h.1)]
  refine guard_bind_eq_some.mpr ⟨fun _ => ?_, ?_⟩
  · exact rand_assertions hres hr hlow (by omega)
  refine guard_bind_eq_some.mpr ⟨fun h => ?_, rfl⟩
  exact absurd h hline

end Random

/-- The loop selects as many trees as asked for, and it keeps to `maxl1` trees of the first layer
unless every other tree is selected. On a random graph the layers that remain are one of the random
part, with all trees but `randRes`, and one for each tree that is left for resilience, so no
assertion of the selection fails. -/
theorem selectLayers_keeps_resilience :
    (∀ (layers : List (List ℕ)) (dist draws : ℕ → ℕ) (numTrees : ℕ) (maxl1 : ℤ),
      layers.flatten.Nodup → 0 < numTrees → numTrees ≤ layers.flatten.length → 1 ≤ maxl1 →
      ∃ top, swapTrees (layers.headD []) dist maxl1 draws
          ((layers.flatten.insertionSort (fun x y => dist x ≤ dist y)).take numTrees)
          ((layers.flatten.insertionSort (fun x y => dist x ≤ dist y)).drop numTrees) = some top ∧
        top.Nodup ∧ top.length = numTrees ∧ top ⊆ layers.flatten ∧
        ((((layers.headD []).filter (fun t => t ∈ top)).length : ℤ) ≤ maxl1 ∨
          ∀ t ∈ layers.flatten, t ∉ layers.headD [] → t ∈ top)) ∧
    ∀ (args : DfrArgs) (feedbackArcSet : WGraph ℕ → List ℕ) (fuel n numTrees : ℕ) (rnd : Rnd)
      (ttg : Ttg) (layers : List (List ℕ)) (dist draws draws' : ℕ → ℕ),
      args.ttgType = .rand ∨ args.ttgType = .maxdag →
      buildTtg args.toTtgArgs feedbackArcSet fuel n rnd = some ttg →
      findLayers ttg draws = some layers → args.randRes < numTrees → numTrees ≤ n →
      ∃ first, selectLayers args ttg numTrees layers dist draws' =
          some (first :: (List.range' (n - args.randRes.toNat) args.randRes.toNat).map
            (fun i => [i])) ∧
        (first.length : ℤ) = numTrees - args.randRes ∧ first.Nodup ∧
        ∀ t ∈ first, t ∈ layers.headD [] := by
  refine ⟨fun layers dist draws numTrees maxl1 hn _ hle hmax => exists_selection hn hle hmax dist draws,
    fun args feedbackArcSet fuel n numTrees rnd ttg layers dist draws draws' hty hbuild hl hgt hle =>
      ?_⟩
  obtain ⟨hbuild, _⟩ := Option.filter_eq_some_iff.mp hbuild
  have hhelper : ∃ helper, (∀ m es, helper m = some es → es ⊆ completeEdges m) ∧
      0 ≤ args.randRes ∧ ttgRandMaxDagCommon n args.randRes.toNat helper = some ttg := by
    unfold ttgOfType at hbuild
    rcases hty with hty | hty
    · rw [hty] at hbuild
      dsimp only at hbuild
      split at hbuild
      · cases hbuild
      · exact ⟨_, fun _ _ => ttgRandDagHelper_subset, by omega, hbuild⟩
    · rw [hty] at hbuild
      dsimp only at hbuild
      split at hbuild
      · cases hbuild
      · exact ⟨_, fun _ _ => ttgRandDagHelperOpt_subset, by omega, hbuild⟩
  obtain ⟨helper, hsub, hres, hcommon⟩ := hhelper
  obtain ⟨first, hsel, hlen, hn, hmem⟩ := selectLayers_rand hty (Int.toNat_of_nonneg hres).symm hsub
    hcommon hl (by omega) hle dist draws'
  exact ⟨first, hsel, by omega, hn, hmem⟩

end ResSim
