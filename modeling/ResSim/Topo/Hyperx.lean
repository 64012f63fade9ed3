import Mathlib.Algebra.Order.BigOperators.GroupWithZero.List
import Mathlib.Algebra.Order.Ring.Nat
import Mathlib.Data.Nat.Cast.Basic
import ResSim.Lib.MixedRadix
import ResSim.Lib.Traverse
import ResSim.Topo.Generate

/-!
# The HyperX generator

The switches are the vectors of a box. Every switch appends its own side of its links: for each
coordinate, all switches whose address differs only there.
-/

namespace ResSim

/-- `'switch.' + '.'.join(swaddr)` for an address of numbers. -/
def hyperxName (addr : List ℕ) : Text := swName (addr.map digits)

def hyperxSwitches (S : List ℕ) : List Text :=
  (List.range S.prod).map fun num => hyperxName (mixedDigits S num)

/-- The neighbours that the coordinate `i` gives the switch. -/
def hyperxRow (S K : List ℕ) (swaddr : List Text) (i : ℕ) : Except TopoError (List Text) := do
  let Si ← item S i
  let Ki ← item K i
  return (List.range Si).flatMap fun si => List.replicate Ki (swName (swaddr.set i (digits si)))

/-- One pass of the loop that connects the switches. -/
def hyperxConnect (S K : List ℕ) (devices : Devices) (sw : Text) : Except TopoError Devices := do
  let swaddr := (sw.splitOn '.').drop 1
  let rows ← (List.range swaddr.length).mapM (hyperxRow S K swaddr)
  appendAll devices ((rows.flatten.filter (· ≠ sw)).map (sw, ·))

def hyperx (L : ℕ) (S K : List ℕ) (hosts : List Text) : Except TopoError Devices := do
  if S.length ≠ L ∨ K.length ≠ L then
    .error (.value "S and K must be of length L!".toList)
  else
    let devices ← (hyperxSwitches S).foldlM (hyperxConnect S K)
      (startDevices (hyperxSwitches S) hosts)
    placeHosts (hyperxSwitches S) hosts devices

/-! ### The links of one switch -/

/-- The names that the coordinate `i` gives the switch at `a`, itself among them. -/
def rowNames (S K a : List ℕ) (i : ℕ) : List Text :=
  (List.range (S.getD i 0)).flatMap fun si =>
    List.replicate (K.getD i 0) (hyperxName (a.set i si))

/-- What the switch at `a` appends. -/
def hyperxTargets (S K a : List ℕ) : List Text :=
  ((List.range S.length).flatMap (rowNames S K a)).filter (· ≠ hyperxName a)

variable {S K a b : List ℕ} {i : ℕ} {hosts : List Text} {devices : Devices}

lemma hyperxSwitches_eq (S : List ℕ) : hyperxSwitches S = (boxList S).map hyperxName := by
  rw [hyperxSwitches, boxList, List.map_map]
  rfl

lemma InBox.ne_nil (ha : InBox S a) (hS : S ≠ []) : a ≠ [] := by
  rintro rfl
  exact hS (List.length_eq_zero_iff.mp ha.length_eq.symm)

lemma dot_not_mem_address : ∀ t ∈ a.map digits, '.' ∉ t := by
  intro t ht
  obtain ⟨n, _, rfl⟩ := List.mem_map.mp ht
  exact dot_not_mem_digits n

lemma hyperxName_inj (hS : S ≠ []) (ha : InBox S a) (hb : InBox S b) :
    hyperxName a = hyperxName b ↔ a = b := by
  refine ⟨fun h => ?_, fun h => h ▸ rfl⟩
  have hmap := swName_inj (by simpa using ha.ne_nil hS) dot_not_mem_address
    (by simpa using hb.ne_nil hS) dot_not_mem_address h
  exact List.map_injective_iff.mpr (fun m n => digits_injective) hmap

lemma nodup_hyperxSwitches (hS : S ≠ []) : (hyperxSwitches S).Nodup := by
  rw [hyperxSwitches_eq]
  refine List.Nodup.map_on (fun a ha b hb h => ?_) (nodup_boxList S)
  exact (hyperxName_inj hS (mem_boxList.mp ha) (mem_boxList.mp hb)).mp h

lemma hyperxConnect_appended (hS : S ≠ []) (hK : K.length = S.length) (ha : InBox S a)
    (hmem : hyperxName a ∈ devices.map Prod.fst) :
    ∃ devices', hyperxConnect S K devices (hyperxName a) = .ok devices' ∧
      Appended devices ((hyperxTargets S K a).map (hyperxName a, ·)) devices' := by
  have haddr : ((hyperxName a).splitOn '.').drop 1 = a.map digits :=
    splitOn_swName (by simpa using ha.ne_nil hS) dot_not_mem_address
  have hrow : ∀ i ∈ List.range (a.map digits).length, hyperxRow S K (a.map digits) i =
      .ok (rowNames S K a i) := by
    intro i hi
    have hiS : i < S.length := by simpa [ha.length_eq] using hi
    have hiK : i < K.length := hK ▸ hiS
    simp [hyperxRow, rowNames, item, List.getD_eq_getElem?_getD, hiS, hiK, hyperxName, List.map_set,
      bind, Except.bind, pure, Except.pure]
  have hlinks : ∀ y ∈ (hyperxTargets S K a).map (hyperxName a, ·), y.1 ∈ devices.map Prod.fst := by
    simpa using fun _ _ => hmem
  obtain ⟨devices', h, happ⟩ := appendAll_appended devices hlinks
  refine ⟨devices', ?_, happ⟩
  rw [← h, hyperxConnect]
  simp only [haddr, mapM_ok_map hrow, bind, Except.bind]
  rw [hyperxTargets, List.length_map, ha.length_eq, List.flatMap_def]

lemma count_flatMap_eq {α : Type} [DecidableEq α] {l : List α} {f : α → List Text} {x : Text}
    {y : α} (hn : l.Nodup) (hy : y ∈ l) (h : ∀ z ∈ l, z ≠ y → x ∉ f z) :
    (l.flatMap f).count x = (f y).count x := by
  rw [List.count_flatMap, List.sum_map_eq_nsmul_single y, List.count_eq_one_of_mem hn hy, one_nsmul]
  · rfl
  · exact fun z hne hz => List.count_eq_zero.mpr (h z hz hne)

lemma mem_rowNames (hS : S ≠ []) (ha : InBox S a) (hb : InBox S b) (hi : i < S.length)
    (h : hyperxName b ∈ rowNames S K a i) : ∃ si < S.getD i 0, a.set i si = b := by
  obtain ⟨si, hsi, h⟩ := List.mem_flatMap.mp h
  have hlt := List.mem_range.mp hsi
  exact ⟨si, hlt, ((hyperxName_inj hS hb (ha.set hi hlt)).mp (List.eq_of_mem_replicate h)).symm⟩

lemma mem_hyperxSwitches {sw : Text} :
    sw ∈ hyperxSwitches S ↔ ∃ a, InBox S a ∧ hyperxName a = sw := by
  simp [hyperxSwitches_eq]

lemma count_rowNames (hS : S ≠ []) (ha : InBox S a) (hi : i < S.length) {si : ℕ}
    (hsi : si < S.getD i 0) : (rowNames S K a i).count (hyperxName (a.set i si)) = K.getD i 0 := by
  rw [rowNames, count_flatMap_eq List.nodup_range (List.mem_range.mpr hsi),
    List.count_replicate_self]
  intro sj hsj hne hmem
  have hlt := List.mem_range.mp hsj
  have heq := (hyperxName_inj hS (ha.set hi hsi) (ha.set hi hlt)).mp (List.eq_of_mem_replicate hmem)
  have hget := congrArg (fun l => l.getD i 0) heq
  simp only [getD_set (ha.length_eq ▸ hi), if_true] at hget
  exact hne hget.symm

/-- Switches whose addresses differ in the coordinate `i` only are linked `K_i` times. -/
lemma count_hyperxTargets (hS : S ≠ []) (ha : InBox S a) (hb : InBox S b) (hi : i < S.length)
    (hd : DifferOnly i a b) : (hyperxTargets S K a).count (hyperxName b) = K.getD i 0 := by
  have hab : a ≠ b := fun h => hd.1 (h ▸ rfl)
  have hlt := (inBox_iff.mp hb).2 i hi
  rw [hyperxTargets, List.count_filter (by simpa using mt (hyperxName_inj hS hb ha).mp hab.symm),
    count_flatMap_eq List.nodup_range (List.mem_range.mpr hi)]
  · rw [← (set_eq_iff ha hb hab hi hlt).mpr ⟨hd, rfl⟩]
    exact count_rowNames hS ha hi hlt
  · intro j hj hne hmem
    have hj' := List.mem_range.mp hj
    obtain ⟨sj, hsj, hset⟩ := mem_rowNames hS ha hb hj' hmem
    exact hne (((set_eq_iff ha hb hab hj' hsj).mp hset).1.unique hd)

lemma count_hyperxTargets_eq_zero (hS : S ≠ []) (ha : InBox S a) (hb : InBox S b)
    (hd : ¬ ∃ i < S.length, DifferOnly i a b) :
    (hyperxTargets S K a).count (hyperxName b) = 0 := by
  rw [List.count_eq_zero]
  intro hmem
  obtain ⟨hmem, hne⟩ := List.mem_filter.mp hmem
  have hab : a ≠ b := by
    rintro rfl
    simp at hne
  obtain ⟨i, hi, hmem⟩ := List.mem_flatMap.mp hmem
  have hi' := List.mem_range.mp hi
  obtain ⟨si, hsi, hset⟩ := mem_rowNames hS ha hb hi' hmem
  exact hd ⟨i, hi', ((set_eq_iff ha hb hab hi' hsi).mp hset).1⟩

lemma hyperxTargets_subset (ha : InBox S a) :
    ∀ x ∈ hyperxTargets S K a, x ∈ hyperxSwitches S := by
  intro x hx
  obtain ⟨i, hi, hx⟩ := List.mem_flatMap.mp (List.mem_filter.mp hx).1
  obtain ⟨si, hsi, hx⟩ := List.mem_flatMap.mp hx
  rw [List.eq_of_mem_replicate hx]
  exact mem_hyperxSwitches.mpr ⟨_, ha.set (List.mem_range.mp hi) (List.mem_range.mp hsi), rfl⟩

lemma count_targets_symm (hS : S ≠ []) (ha : InBox S a) (hb : InBox S b) :
    (hyperxTargets S K a).count (hyperxName b) = (hyperxTargets S K b).count (hyperxName a) := by
  by_cases hd : ∃ i < S.length, DifferOnly i a b
  · obtain ⟨i, hi, hd⟩ := hd
    rw [count_hyperxTargets hS ha hb hi hd, count_hyperxTargets hS hb ha hi hd.symm]
  · rw [count_hyperxTargets_eq_zero hS ha hb hd, count_hyperxTargets_eq_zero hS hb ha]
    exact fun ⟨i, hi, h⟩ => hd ⟨i, hi, h.symm⟩

lemma length_filter_rowNames (hS : S ≠ []) (ha : InBox S a) (hi : i < S.length) :
    ((rowNames S K a i).filter (· ≠ hyperxName a)).length = K.getD i 0 * (S.getD i 0 - 1) := by
  have hself := (set_eq_self_iff (x := a.getD i 0) ha hi).mpr rfl
  have hcount := count_rowNames (K := K) hS ha hi ((inBox_iff.mp ha).2 i hi)
  rw [hself] at hcount
  have hlen : (rowNames S K a i).length = S.getD i 0 * K.getD i 0 := by
    rw [rowNames, List.length_flatMap]
    simp
  have hsplit := List.length_eq_countP_add_countP (· == hyperxName a) (l := rowNames S K a i)
  rw [← List.count_eq_countP, hcount, hlen, List.countP_eq_length_filter] at hsplit
  have hfilter : (rowNames S K a i).filter (· ≠ hyperxName a) =
      (rowNames S K a i).filter fun x => ¬ (x == hyperxName a) = true :=
    List.filter_congr fun x _ => by simp
  rw [hfilter, Nat.mul_sub_one, Nat.mul_comm]
  omega

lemma length_hyperxTargets (hS : S ≠ []) (ha : InBox S a) :
    (hyperxTargets S K a).length = ∑ i ∈ Finset.range S.length, K.getD i 0 * (S.getD i 0 - 1) := by
  rw [hyperxTargets, List.filter_flatMap, List.length_flatMap]
  have hrows : (List.range S.length).map
      (fun i => ((rowNames S K a i).filter (· ≠ hyperxName a)).length) =
      (List.range S.length).map fun i => K.getD i 0 * (S.getD i 0 - 1) :=
    List.map_congr_left fun i hi => length_filter_rowNames hS ha (List.mem_range.mp hi)
  rw [hrows]
  rfl

/-! ### The devices -/

/-- What the generator promises: the switches are the vectors of the box, linked along the
coordinates, and the hosts are spread evenly over them. -/
structure IsHyperx (S K : List ℕ) (hosts : List Text) (devices : Devices) : Prop where
  keys_nodup : (devices.map Prod.fst).Nodup
  keys : ∀ x, x ∈ devices.map Prod.fst ↔ x ∈ hyperxSwitches S ∨ x ∈ hosts
  switches_nodup : (hyperxSwitches S).Nodup
  numSwitches : (hyperxSwitches S).length = S.prod
  symm : ∀ x y, (neighbours devices x).count y = (neighbours devices y).count x
  linked : ∀ a b, InBox S a → InBox S b → ∀ i < S.length, DifferOnly i a b →
    (neighbours devices (hyperxName a)).count (hyperxName b) = K.getD i 0
  notLinked : ∀ a b, InBox S a → InBox S b → (¬ ∃ i < S.length, DifferOnly i a b) →
    (neighbours devices (hyperxName a)).count (hyperxName b) = 0
  degree : ∀ sw ∈ hyperxSwitches S,
    ((neighbours devices sw).filter (· ∈ hyperxSwitches S)).length =
      ∑ i ∈ Finset.range S.length, K.getD i 0 * (S.getD i 0 - 1)
  attached : ∀ h ∈ hosts, ∃ sw ∈ hyperxSwitches S, neighbours devices h = [sw]
  balanced : ∀ sw ∈ hyperxSwitches S, ∀ sw' ∈ hyperxSwitches S,
    ((neighbours devices sw).filter (· ∈ hosts)).length ≤
      ((neighbours devices sw').filter (· ∈ hosts)).length + 1

/-- The switches with the neighbours that they append. -/
def hyperxDict (S K : List ℕ) : List (Text × List Text) :=
  (boxList S).map fun a => (hyperxName a, hyperxTargets S K a)

lemma fst_hyperxDict (S K : List ℕ) : (hyperxDict S K).map Prod.fst = hyperxSwitches S := by
  rw [hyperxDict, List.map_map, hyperxSwitches_eq]
  rfl

lemma linksOf_hyperxDict (hS : S ≠ []) (ha : InBox S a) :
    linksOf (dictPairs (hyperxDict S K)) (hyperxName a) = hyperxTargets S K a :=
  linksOf_dictPairs (y := (hyperxName a, hyperxTargets S K a))
    (by rw [fst_hyperxDict]; exact nodup_hyperxSwitches hS)
    (List.mem_map.mpr ⟨a, mem_boxList.mpr ha, rfl⟩)

lemma linksOf_hyperxDict_eq_nil {x : Text} (hx : x ∉ hyperxSwitches S) :
    linksOf (dictPairs (hyperxDict S K)) x = [] := by
  refine linksOf_eq_nil fun hmem => hx ?_
  obtain ⟨y, hy, rfl⟩ := List.mem_map.mp hmem
  obtain ⟨z, hz, hy⟩ := List.mem_flatMap.mp hy
  obtain ⟨h, _, rfl⟩ := List.mem_map.mp hy
  rw [← fst_hyperxDict S K]
  exact List.mem_map_of_mem hz

lemma hyperxSwitches_ne_nil (hpos : ∀ s ∈ S, 0 < s) : hyperxSwitches S ≠ [] := by
  apply List.ne_nil_of_length_pos
  rw [hyperxSwitches_eq, List.length_map, length_boxList]
  exact List.prod_pos hpos

lemma hyperx_appended (hosts : List Text) (hS : S ≠ []) (hK : K.length = S.length)
    (hpos : ∀ s ∈ S, 0 < s) :
    ∃ devices, hyperx S.length S K hosts = .ok devices ∧
      Appended (startDevices (hyperxSwitches S) hosts)
        (dictPairs (hyperxDict S K) ++ bothEnds (dictPairs (hostDict (hyperxSwitches S) hosts)))
        devices := by
  have hmem : ∀ a ∈ boxList S, hyperxName a ∈ hyperxSwitches S := fun a ha =>
    mem_hyperxSwitches.mpr ⟨a, mem_boxList.mp ha, rfl⟩
  have hpass : ∀ a ∈ boxList S, ∀ devices : Devices,
      devices.map Prod.fst = (startDevices (hyperxSwitches S) hosts).map Prod.fst →
      ∃ devices', hyperxConnect S K devices (hyperxName a) = .ok devices' ∧
        Appended devices ((hyperxTargets S K a).map (hyperxName a, ·)) devices' := by
    intro a ha devices hkeys
    refine hyperxConnect_appended hS hK (mem_boxList.mp ha) ?_
    rw [hkeys, mem_keys_startDevices]
    exact List.mem_append_left _ (hmem a ha)
  obtain ⟨devices₁, h₁, ha₁⟩ := foldlM_appended
    (fun a => (hyperxTargets S K a).map (hyperxName a, ·)) rfl hpass
  obtain ⟨devices₂, h₂, ha₂⟩ := placeHosts_appended devices₁ (hyperxSwitches_ne_nil hpos)
    (fun s hs => by
      rw [ha₁.keys, mem_keys_startDevices]
      exact List.mem_append_left _ hs)
    (fun h hh => by
      rw [ha₁.keys, mem_keys_startDevices]
      exact List.mem_append_right _ hh)
  have hconnect : (hyperxSwitches S).foldlM (hyperxConnect S K)
      (startDevices (hyperxSwitches S) hosts) = .ok devices₁ := by
    rw [← h₁]
    exact (congrArg (List.foldlM _ _) (hyperxSwitches_eq S)).trans List.foldlM_map
  have hlinks : (boxList S).flatMap (fun a => (hyperxTargets S K a).map (hyperxName a, ·)) =
      dictPairs (hyperxDict S K) := by
    rw [dictPairs, hyperxDict, List.flatMap_map]
  refine ⟨devices₂, ?_, hlinks ▸ ha₁.trans ha₂⟩
  rw [hyperx, if_neg (by simp [hK]), hconnect]
  exact h₂

section Built

variable {x y : Text} (h : Appended (startDevices (hyperxSwitches S) hosts)
  (dictPairs (hyperxDict S K) ++ bothEnds (dictPairs (hostDict (hyperxSwitches S) hosts))) devices)

include h

lemma hyperx_neighbours : neighbours devices x = linksOf (dictPairs (hyperxDict S K)) x ++
    linksOf (bothEnds (dictPairs (hostDict (hyperxSwitches S) hosts))) x := by
  rw [h.neighbours, neighbours_startDevices, linksOf_append, List.nil_append]

/-- The links between the switches come before the hosts. -/
lemma hyperx_neighbours_switch (hS : S ≠ []) (hd : ∀ h ∈ hosts, h ∉ hyperxSwitches S)
    (hx : x ∈ hyperxSwitches S) : ∃ a i, InBox S a ∧ hyperxName a = x ∧ i < S.prod ∧
      (neighbours devices x).filter (· ∈ hyperxSwitches S) = hyperxTargets S K a ∧
      ((neighbours devices x).filter (· ∈ hosts)).length = (hosts.length + i) / S.prod := by
  obtain ⟨i, hi, rfl⟩ := List.getElem_of_mem hx
  obtain ⟨a, ha, hname⟩ := mem_hyperxSwitches.mp hx
  obtain ⟨hin, hlen⟩ := linksOf_switch (nodup_hyperxSwitches hS) hd hi
  have hprod : (hyperxSwitches S).length = S.prod := by
    rw [hyperxSwitches_eq, List.length_map, length_boxList]
  have htargets := linksOf_hyperxDict (K := K) hS ha
  rw [hname] at htargets
  refine ⟨a, i, ha, hname, hprod ▸ hi, ?_, ?_⟩
  · rw [hyperx_neighbours h, htargets, List.filter_append, List.filter_eq_self.mpr,
      List.filter_eq_nil_iff.mpr, List.append_nil]
    · exact fun z hz => by simpa using hd z (hin z hz)
    · exact fun z hz => decide_eq_true (hyperxTargets_subset ha z hz)
  · rw [hyperx_neighbours h, htargets, List.filter_append, List.filter_eq_nil_iff.mpr,
      List.filter_eq_self.mpr, List.nil_append, hlen, hprod]
    · exact fun z hz => decide_eq_true (hin z hz)
    · exact fun z hz hz' => hd z (of_decide_eq_true hz') (hyperxTargets_subset ha z hz)

lemma hyperx_count (hS : S ≠ []) (hd : ∀ h ∈ hosts, h ∉ hyperxSwitches S) (ha : InBox S a)
    (hb : InBox S b) : (neighbours devices (hyperxName a)).count (hyperxName b) =
      (hyperxTargets S K a).count (hyperxName b) := by
  obtain ⟨a', i, ha', hname, _, htargets, _⟩ := hyperx_neighbours_switch h hS hd
    (mem_hyperxSwitches.mpr ⟨a, ha, rfl⟩)
  obtain rfl := (hyperxName_inj hS ha' ha).mp hname
  rw [← htargets, List.count_filter]
  exact decide_eq_true (mem_hyperxSwitches.mpr ⟨b, hb, rfl⟩)

lemma hyperx_symm (hS : S ≠ []) :
    (neighbours devices x).count y = (neighbours devices y).count x := by
  have hzero : ∀ x y, x ∉ hyperxSwitches S → (linksOf (dictPairs (hyperxDict S K)) x).count y =
      (linksOf (dictPairs (hyperxDict S K)) y).count x := by
    intro x y hx
    rw [linksOf_hyperxDict_eq_nil hx, List.count_nil, eq_comm, List.count_eq_zero]
    by_cases hy : y ∈ hyperxSwitches S
    · obtain ⟨b, hb, rfl⟩ := mem_hyperxSwitches.mp hy
      rw [linksOf_hyperxDict hS hb]
      exact fun hmem => hx (hyperxTargets_subset hb x hmem)
    · rw [linksOf_hyperxDict_eq_nil hy]
      exact List.not_mem_nil
  have hlinks : (linksOf (dictPairs (hyperxDict S K)) x).count y =
      (linksOf (dictPairs (hyperxDict S K)) y).count x := by
    by_cases hx : x ∈ hyperxSwitches S
    · by_cases hy : y ∈ hyperxSwitches S
      · obtain ⟨a, ha, rfl⟩ := mem_hyperxSwitches.mp hx
        obtain ⟨b, hb, rfl⟩ := mem_hyperxSwitches.mp hy
        rw [linksOf_hyperxDict hS ha, linksOf_hyperxDict hS hb, count_targets_symm hS ha hb]
      · exact (hzero y x hy).symm
    · exact hzero x y hx
  rw [hyperx_neighbours h, hyperx_neighbours h, List.count_append, List.count_append, hlinks,
    count_linksOf_bothEnds]

end Built

/-- With at least one dimension, every list of distinct hosts that are no switches is placed on
a HyperX topology. -/
theorem hyperx_matches (S K : List ℕ) (hosts : List Text) (hS : S ≠ [])
    (hK : K.length = S.length) (hpos : ∀ s ∈ S, 0 < s) (hn : hosts.Nodup)
    (hd : ∀ h ∈ hosts, h ∉ hyperxSwitches S) :
    ∃ devices, hyperx S.length S K hosts = .ok devices ∧ IsHyperx S K hosts devices := by
  obtain ⟨devices, hrun, h⟩ := hyperx_appended hosts hS hK hpos
  refine ⟨devices, hrun, ?_⟩
  constructor
  case keys_nodup => rw [h.keys]; exact nodup_startDevices ..
  case keys => intro x; rw [h.keys, mem_keys_startDevices, List.mem_append]
  case switches_nodup => exact nodup_hyperxSwitches hS
  case numSwitches => rw [hyperxSwitches_eq, List.length_map, length_boxList]
  case symm => exact fun x y => hyperx_symm h hS
  case linked =>
    intro a b ha hb i hi hab
    rw [hyperx_count h hS hd ha hb, count_hyperxTargets hS ha hb hi hab]
  case notLinked =>
    intro a b ha hb hab
    rw [hyperx_count h hS hd ha hb, count_hyperxTargets_eq_zero hS ha hb hab]
  case degree =>
    intro sw hsw
    obtain ⟨a, i, ha, _, _, htargets, _⟩ := hyperx_neighbours_switch h hS hd hsw
    rw [htargets, length_hyperxTargets hS ha]
  case attached =>
    intro host hhost
    obtain ⟨sw, hsw, hlinks⟩ := linksOf_host (hyperxSwitches_ne_nil hpos) hn hd hhost
    refine ⟨sw, hsw, ?_⟩
    rw [hyperx_neighbours h, linksOf_hyperxDict_eq_nil (hd host hhost), hlinks, List.nil_append]
  case balanced =>
    intro sw hsw sw' hsw'
    obtain ⟨_, i, _, _, hi, _, hlen⟩ := hyperx_neighbours_switch h hS hd hsw
    obtain ⟨_, j, _, _, hj, _, hlen'⟩ := hyperx_neighbours_switch h hS hd hsw'
    rw [hlen, hlen']
    exact share_le_succ hi

theorem hyperx_matches_grid :
    ∃ devices, hyperx 2 [2, 3] [1, 2] ["10.0.0.1".toList, "10.0.0.2".toList] = .ok devices ∧
      IsHyperx [2, 3] [1, 2] ["10.0.0.1".toList, "10.0.0.2".toList] devices :=
  hyperx_matches [2, 3] [1, 2] ["10.0.0.1".toList, "10.0.0.2".toList] (by decide) rfl (by decide)
    (by decide) (by decide)

/-- Without a dimension the name of the only switch still splits off an address of one part, and
`S[0]` raises. A repeated host ends at two switches, and a host with the name of a switch makes
one more link of that switch. -/
theorem hyperx_degenerate :
    hyperx 0 [] [] [] = .error .index ∧
    (∃ devices, hyperx 1 [2] [1] ["10.0.0.1".toList, "10.0.0.1".toList] = .ok devices ∧
      neighbours devices "10.0.0.1".toList = ["switch.0".toList, "switch.1".toList]) ∧
    ∃ devices, hyperx 1 [2] [1] ["switch.0".toList] = .ok devices ∧
      (neighbours devices "switch.0".toList).count "switch.1".toList = 2 := by
  refine ⟨by decide, ⟨[("switch.0".toList, ["switch.1".toList, "10.0.0.1".toList]),
    ("switch.1".toList, ["switch.0".toList, "10.0.0.1".toList]),
    ("10.0.0.1".toList, ["switch.0".toList, "switch.1".toList])], by decide, by decide⟩,
    ⟨[("switch.0".toList, ["switch.1".toList, "switch.1".toList]),
      ("switch.1".toList, ["switch.0".toList, "switch.0".toList])], by decide, by decide⟩⟩

end ResSim
