import Mathlib.Data.Nat.Cast.Basic
import ResSim.Lib.MixedRadix
import ResSim.Topo.Generate

/-!
# The fat tree generator

A switch of level `i` has an address whose first `i` digits choose among parents and whose
further ones choose among children. Its links up replace the digit at `i` by one of the parents'.
-/

namespace ResSim

/-- `swaddr` of a switch of level `i`. -/
def levelAddr (i : ℕ) (addr : List ℕ) : List Text :=
  addr.zipIdx.map fun x => (if x.2 < i then 'c' else 'm') :: digits x.1

/-- `indices`: the radices of the addresses of level `i`. -/
def levelBox (M C : List ℕ) (i : ℕ) : List ℕ := C.take i ++ M.drop i

/-- The addresses of the switches of level `i`. -/
def egftLevel (M C : List ℕ) (i : ℕ) : List (List Text) :=
  (List.range ((C.take i).prod * (M.drop i).prod)).map fun levelSw =>
    levelAddr i (mixedDigits (levelBox M C i) levelSw)

def egftSwitches (L : ℕ) (M C : List ℕ) : List Text :=
  (List.range' 1 L).flatMap fun i => (egftLevel M C i).map swName

/-- The links up of one switch, each in both directions. -/
def linkUp (Cl Kl lnum : ℕ) (devices : Devices) (swaddr : List Text) :
    Except TopoError Devices :=
  appendAll devices (bothEnds ((List.range Cl).flatMap fun i =>
    List.replicate Kl (swName swaddr, swName (swaddr.set lnum ('c' :: digits i)))))

/-- One pass of the loop over the levels. -/
def egftConnect (M C K : List ℕ) (devices : Devices) (lnum : ℕ) : Except TopoError Devices := do
  let Cl ← item C lnum
  let Kl ← item K lnum
  (egftLevel M C lnum).foldlM (linkUp Cl Kl lnum) devices

/-- The levels below the last one are connected in the order of a dict. -/
def egft (order : List ℕ → List ℕ) (L : ℕ) (M C K : List ℕ) (args : HostArgs) :
    Except TopoError Devices := do
  if M.length ≠ L ∨ C.length ≠ L ∨ K.length ≠ L then
    .error (.value "M, C, and K must be of length L!".toList)
  else
    let hosts ← getHosts args
    let devices ← (order (List.range' 1 (L - 1))).foldlM (egftConnect M C K)
      (startDevices (egftSwitches L M C) hosts)
    if 1 < L then placeHosts ((egftLevel M C 1).map swName) hosts devices
    else .error .key

/-! ### Addresses -/

/-- The name of the switch of level `i` with this address. -/
def levelName (i : ℕ) (addr : List ℕ) : Text := swName (levelAddr i addr)

variable {L i j l x : ℕ} {M C K a b : List ℕ}

@[simp] lemma length_levelAddr (i : ℕ) (a : List ℕ) : (levelAddr i a).length = a.length := by
  simp [levelAddr]

lemma getElem?_levelAddr (i : ℕ) (a : List ℕ) (p : ℕ) :
    (levelAddr i a)[p]? = a[p]?.map fun x => (if p < i then 'c' else 'm') :: digits x := by
  simp [levelAddr, List.getElem?_zipIdx, Function.comp_def]

lemma dot_not_mem_levelAddr : ∀ t ∈ levelAddr i a, '.' ∉ t := by
  intro t ht
  obtain ⟨x, _, rfl⟩ := List.mem_map.mp ht
  rw [List.mem_cons, not_or]
  refine ⟨?_, dot_not_mem_digits _⟩
  split <;> decide

/-- The kinds of the digits tell the level, and the digits the address. -/
lemma levelName_inj (ha : a.length = L) (hb : b.length = L) (hL : 0 < L) (hi : i ≤ L) (hj : j ≤ L)
    (h : levelName i a = levelName j b) : i = j ∧ a = b := by
  have hne : ∀ i (a : List ℕ), a.length = L → levelAddr i a ≠ [] := by
    intro i a ha hnil
    have := congrArg List.length hnil
    rw [length_levelAddr, ha, List.length_nil] at this
    omega
  have haddr := swName_inj (hne i a ha) dot_not_mem_levelAddr (hne j b hb) dot_not_mem_levelAddr h
  have hget : ∀ p < L, (decide (p < i) = decide (p < j)) ∧ a[p]? = b[p]? := by
    intro p hp
    have hp' := congrArg (fun l => l[p]?) haddr
    simp only [getElem?_levelAddr] at hp'
    rw [List.getElem?_eq_getElem (ha ▸ hp), List.getElem?_eq_getElem (hb ▸ hp), Option.map_some,
      Option.map_some, Option.some.injEq, List.cons.injEq] at hp'
    refine ⟨?_, ?_⟩
    · have hkind := hp'.1
      rw [decide_eq_decide]
      constructor <;> intro hlt <;> by_contra hnot <;> simp [hlt, hnot] at hkind
    · rw [List.getElem?_eq_getElem (ha ▸ hp), List.getElem?_eq_getElem (hb ▸ hp),
        digits_injective hp'.2]
  constructor
  · by_contra hij
    rcases Nat.lt_or_gt_of_ne hij with hlt | hlt
    · have := (hget i (by omega)).1
      simp [hlt] at this
    · have := (hget j (by omega)).1
      simp [hlt] at this
  · refine List.ext_getElem? fun p => ?_
    by_cases hp : p < L
    · exact (hget p hp).2
    · rw [List.getElem?_eq_none (by omega), List.getElem?_eq_none (by omega)]

/-- The address of the parent with the index `x`. -/
lemma set_levelAddr (hl : l < a.length) :
    (levelAddr l a).set l ('c' :: digits x) = levelAddr (l + 1) (a.set l x) := by
  refine List.ext_getElem? fun p => ?_
  rw [List.getElem?_set, getElem?_levelAddr, getElem?_levelAddr, List.getElem?_set,
    length_levelAddr]
  by_cases hp : l = p
  · subst hp
    simp [hl]
  · have hlt : p < l + 1 ↔ p < l := by omega
    simp [hp, hlt]

lemma egftLevel_eq (M C : List ℕ) (i : ℕ) :
    (egftLevel M C i).map swName = (boxList (levelBox M C i)).map (levelName i) := by
  rw [egftLevel, boxList, List.map_map, List.map_map, levelBox, List.prod_append]
  rfl

lemma length_egftLevel (M C : List ℕ) (i : ℕ) :
    ((egftLevel M C i).map swName).length = (C.take i).prod * (M.drop i).prod := by
  rw [List.length_map, egftLevel, List.length_map, List.length_range]

section Levels

variable (hC : C.length = M.length)

include hC

lemma length_levelBox (hi : i ≤ M.length) : (levelBox M C i).length = M.length := by
  rw [levelBox, List.length_append, List.length_take, List.length_drop, hC]
  omega

lemma getD_levelBox (hi : i ≤ M.length) (p : ℕ) :
    (levelBox M C i).getD p 0 = if p < i then C.getD p 0 else M.getD p 0 := by
  have hlen : (C.take i).length = i := by
    rw [List.length_take, hC]
    omega
  rw [levelBox]
  split
  · rw [List.getD_append _ _ _ _ (by omega), List.getD_eq_getElem?_getD,
      List.getElem?_take_of_lt ‹_›, List.getD_eq_getElem?_getD]
  · rw [List.getD_append_right _ _ _ _ (by omega), hlen, List.getD_eq_getElem?_getD,
      List.getElem?_drop, List.getD_eq_getElem?_getD, Nat.add_sub_cancel' (by omega)]

lemma levelName_inj_box (hM : 0 < M.length) (hi : i ≤ M.length) (hj : j ≤ M.length)
    (ha : InBox (levelBox M C i) a) (hb : InBox (levelBox M C j) b)
    (h : levelName i a = levelName j b) : i = j ∧ a = b :=
  levelName_inj (ha.length_eq.trans (length_levelBox hC hi))
    (hb.length_eq.trans (length_levelBox hC hj)) hM hi hj h

lemma nodup_egftLevel (hM : 0 < M.length) (hi : i ≤ M.length) :
    ((egftLevel M C i).map swName).Nodup := by
  rw [egftLevel_eq]
  refine List.Nodup.map_on (fun a ha b hb h => ?_) (nodup_boxList _)
  exact (levelName_inj_box hC hM hi hi (mem_boxList.mp ha) (mem_boxList.mp hb) h).2

omit hC in
lemma mem_egftSwitches {sw : Text} : sw ∈ egftSwitches L M C ↔
    ∃ i, 1 ≤ i ∧ i ≤ L ∧ ∃ a, InBox (levelBox M C i) a ∧ levelName i a = sw := by
  simp only [egftSwitches, List.mem_flatMap, egftLevel_eq, List.mem_map, mem_boxList]
  constructor
  · rintro ⟨i, hi, h⟩
    have := List.mem_range'_1.mp hi
    exact ⟨i, this.1, by omega, h⟩
  · rintro ⟨i, h1, hL, h⟩
    exact ⟨i, List.mem_range'_1.mpr ⟨h1, by omega⟩, h⟩

lemma nodup_egftSwitches (hM : 0 < M.length) : (egftSwitches M.length M C).Nodup := by
  rw [egftSwitches, List.nodup_flatMap]
  constructor
  · intro i hi
    have := List.mem_range'_1.mp hi
    exact nodup_egftLevel hC hM (by omega)
  · refine (List.nodup_range' 1).imp_of_mem fun {i j} hi hj hij => ?_
    have hi := List.mem_range'_1.mp hi
    have hj := List.mem_range'_1.mp hj
    intro sw hsi hsj
    dsimp only at hsi hsj
    rw [egftLevel_eq] at hsi hsj
    obtain ⟨a, ha, rfl⟩ := List.mem_map.mp hsi
    obtain ⟨b, hb, h⟩ := List.mem_map.mp hsj
    exact hij (levelName_inj_box hC hM (by omega) (by omega) (mem_boxList.mp hb)
      (mem_boxList.mp ha) h).1.symm

end Levels

lemma length_egftSwitches (L : ℕ) (M C : List ℕ) : (egftSwitches L M C).length =
    ((List.range L).map fun i => (M.drop (i + 1)).prod * (C.take (i + 1)).prod).sum := by
  rw [egftSwitches, List.length_flatMap, List.range'_eq_map_range, List.map_map]
  congr 1
  refine List.map_congr_left fun i _ => ?_
  rw [Function.comp_apply, length_egftLevel, Nat.add_comm 1 i, Nat.mul_comm]

/-! ### Links -/

/-- A bound for what the passes with a property contribute. -/
lemma countP_flatMap_le {α β : Type} {l : List α} {f : α → List β} {p : β → Bool} {q : α → Bool}
    {k : ℕ} (h : ∀ a ∈ l, (f a).countP p ≤ if q a then k else 0) :
    (l.flatMap f).countP p ≤ l.countP q * k := by
  induction l with
  | nil => simp
  | cons a l ih =>
    obtain ⟨ha, hl⟩ := List.forall_mem_cons.mp h
    have hrest := ih hl
    rw [List.flatMap_cons, List.countP_append, List.countP_cons, Nat.add_mul]
    split at ha
    · rw [if_pos ‹_›, Nat.one_mul]
      omega
    · omega

lemma countP_eq_le_one {α : Type} [DecidableEq α] {l : List α} (h : l.Nodup) (a : α) :
    l.countP (fun x => x = a) ≤ 1 := by
  have hcount := List.nodup_iff_count_le_one.mp h a
  rw [List.count_eq_countP] at hcount
  exact (List.countP_congr fun x _ => by simp).trans_le hcount

/-- The links up of the switches of level `l`, from below. -/
def levelPairs (M C K : List ℕ) (l : ℕ) : List (Text × Text) :=
  (boxList (levelBox M C l)).flatMap fun a => (List.range (C.getD l 0)).flatMap fun x =>
    List.replicate (K.getD l 0) (levelName l a, levelName (l + 1) (a.set l x))

/-- All links between switches, from below. -/
def treePairs (order : List ℕ → List ℕ) (M C K : List ℕ) : List (Text × Text) :=
  (order (List.range' 1 (M.length - 1))).flatMap (levelPairs M C K)

section Links

variable (hC : C.length = M.length)

include hC

/-- A digit among the children's is replaced by one among the parents'. -/
lemma InBox.parent (hl : l < M.length) (ha : InBox (levelBox M C l) a) (hx : x < C.getD l 0) :
    InBox (levelBox M C (l + 1)) (a.set l x) := by
  obtain ⟨hlen, hlt⟩ := inBox_iff.mp ha
  rw [length_levelBox hC hl.le] at hlen hlt
  refine inBox_iff.mpr ⟨by rw [List.length_set, hlen, length_levelBox hC hl], fun p hp => ?_⟩
  rw [length_levelBox hC hl] at hp
  rw [getD_set (hlen ▸ hl), getD_levelBox hC hl]
  split
  · subst_vars
    rwa [if_pos (Nat.lt_succ_self _)]
  · have := hlt p hp
    rw [getD_levelBox hC hl.le] at this
    have hiff : p < l + 1 ↔ p < l := by omega
    simpa only [hiff] using this

omit hC in
lemma mem_levelPairs {y : Text × Text} (hy : y ∈ levelPairs M C K l) :
    ∃ a x, InBox (levelBox M C l) a ∧ x < C.getD l 0 ∧
      y = (levelName l a, levelName (l + 1) (a.set l x)) := by
  obtain ⟨a, ha, hy⟩ := List.mem_flatMap.mp hy
  obtain ⟨x, hx, hy⟩ := List.mem_flatMap.mp hy
  exact ⟨a, x, mem_boxList.mp ha, List.mem_range.mp hx, List.eq_of_mem_replicate hy⟩

lemma levelPairs_switches (h1 : 1 ≤ l) (hl : l < M.length) {y : Text × Text}
    (hy : y ∈ levelPairs M C K l) :
    y.1 ∈ egftSwitches M.length M C ∧ y.2 ∈ egftSwitches M.length M C := by
  obtain ⟨a, x, ha, hx, rfl⟩ := mem_levelPairs hy
  exact ⟨mem_egftSwitches.mpr ⟨l, h1, hl.le, a, ha, rfl⟩,
    mem_egftSwitches.mpr ⟨l + 1, by omega, hl, _, ha.parent hC hl hx, rfl⟩⟩

lemma egftConnect_appended (hK : K.length = M.length) (h1 : 1 ≤ l) (hl : l < M.length)
    {devices : Devices} (hkeys : ∀ s ∈ egftSwitches M.length M C, s ∈ devices.map Prod.fst) :
    ∃ devices', egftConnect M C K devices l = .ok devices' ∧
      Appended devices (bothEnds (levelPairs M C K l)) devices' := by
  have hup : ∀ a ∈ boxList (levelBox M C l), ∀ devices' : Devices,
      devices'.map Prod.fst = devices.map Prod.fst →
      ∃ devices'', linkUp (C.getD l 0) (K.getD l 0) l devices' (levelAddr l a) = .ok devices'' ∧
        Appended devices' (bothEnds ((List.range (C.getD l 0)).flatMap fun x =>
          List.replicate (K.getD l 0) (levelName l a, levelName (l + 1) (a.set l x)))) devices'' := by
    intro a ha devices' hkeys'
    have hlen : l < a.length := by
      rw [(mem_boxList.mp ha).length_eq, length_levelBox hC hl.le]
      exact hl
    have hname : ∀ x, swName ((levelAddr l a).set l ('c' :: digits x)) =
        levelName (l + 1) (a.set l x) := fun x => by rw [set_levelAddr hlen, levelName]
    simp only [linkUp, hname]
    refine appendAll_appended devices' fun y hy => ?_
    rw [hkeys']
    obtain ⟨z, hz, hy⟩ := List.mem_flatMap.mp hy
    have hmem : z ∈ levelPairs M C K l := List.mem_flatMap.mpr ⟨a, ha, hz⟩
    obtain ⟨hfst, hsnd⟩ := levelPairs_switches hC h1 hl hmem
    rcases List.mem_cons.mp hy with rfl | hy
    · exact hkeys _ hfst
    · rw [List.mem_singleton.mp hy]
      exact hkeys _ hsnd
  obtain ⟨devices', h, ha⟩ := foldlM_appended _ rfl hup
  refine ⟨devices', ?_, ?_⟩
  · have hitem : ∀ l' : List ℕ, l < l'.length → item l' l = .ok (l'.getD l 0) := by
      intro l' hl'
      simp [item, List.getD_eq_getElem?_getD, hl']
    have hlevel : egftLevel M C l = (boxList (levelBox M C l)).map (levelAddr l) := by
      rw [egftLevel, boxList, List.map_map, levelBox, List.prod_append]
      rfl
    rw [egftConnect, hitem C (hC ▸ hl), hitem K (hK ▸ hl), hlevel]
    change List.foldlM _ _ _ = _
    rw [List.foldlM_map]
    exact h
  · have hflat : bothEnds (levelPairs M C K l) = (boxList (levelBox M C l)).flatMap fun a =>
        bothEnds ((List.range (C.getD l 0)).flatMap fun x =>
          List.replicate (K.getD l 0) (levelName l a, levelName (l + 1) (a.set l x))) := by
      rw [bothEnds, levelPairs, List.flatMap_assoc]
      rfl
    rw [hflat]
    exact ha

omit hC in
/-- Each level occurs once, so what is counted at one level is counted once. -/
lemma countP_level {order : List ℕ → List ℕ} (horder : ∀ l, (order l).Perm l) {n i : ℕ}
    {p : Prop} [Decidable p] (hp : 1 ≤ i → i < n → p) (k : ℕ) :
    (order (List.range' 1 (n - 1))).countP (fun l => l = i) * k ≤ if p then k else 0 := by
  have hone : (List.range' 1 (n - 1)).countP (fun l => l = i) ≤ 1 :=
    countP_eq_le_one List.nodup_range' i
  rw [(horder _).countP_eq]
  by_cases hi : 1 ≤ i ∧ i < n
  · rw [if_pos (hp hi.1 hi.2)]
    exact (Nat.mul_le_mul_right k hone).trans (Nat.one_mul k).le
  · have hzero : (List.range' 1 (n - 1)).countP (fun l => l = i) = 0 := by
      rw [List.countP_eq_zero]
      intro l hl heq
      have := List.mem_range'_1.mp hl
      have := of_decide_eq_true heq
      omega
    rw [hzero, Nat.zero_mul]
    exact Nat.zero_le _

/-- The links up of one switch. -/
lemma countP_up {order : List ℕ → List ℕ} (horder : ∀ l, (order l).Perm l) (hi : i ≤ M.length)
    (ha : InBox (levelBox M C i) a) :
    (treePairs order M C K).countP (fun y => y.1 = levelName i a) ≤
      if i < M.length then C.getD i 0 * K.getD i 0 else 0 := by
  have hlevel : ∀ l ∈ order (List.range' 1 (M.length - 1)),
      (levelPairs M C K l).countP (fun y => y.1 = levelName i a) ≤
        if decide (l = i) then C.getD i 0 * K.getD i 0 else 0 := by
    intro l hl
    have hl' := List.mem_range'_1.mp ((horder _).mem_iff.mp hl)
    refine (countP_flatMap_le (q := fun a' => a' = a ∧ l = i)
      (k := C.getD i 0 * K.getD i 0) ?_).trans ?_
    · intro a' ha'
      split
      · rename_i heq
        obtain ⟨rfl, rfl⟩ := of_decide_eq_true heq
        refine List.countP_le_length.trans (le_of_eq ?_)
        rw [List.length_flatMap]
        simp
      · rename_i hne
        rw [Nat.le_zero, List.countP_eq_zero]
        intro y hy hfst
        obtain ⟨x, _, hy⟩ := List.mem_flatMap.mp hy
        rw [List.eq_of_mem_replicate hy] at hfst
        obtain ⟨rfl, rfl⟩ := levelName_inj_box hC (by omega) (by omega) hi (mem_boxList.mp ha') ha
          (of_decide_eq_true hfst)
        exact hne (decide_eq_true ⟨rfl, rfl⟩)
    · split
      · rename_i heq
        have hone := countP_eq_le_one (nodup_boxList (levelBox M C l)) a
        refine (Nat.mul_le_mul_right _ ?_).trans (Nat.one_mul _).le
        refine (List.countP_mono_left fun a' _ h => ?_).trans hone
        simpa using (of_decide_eq_true h).1
      · rename_i hne
        rw [List.countP_eq_zero.mpr, Nat.zero_mul]
        exact fun a' _ h => hne (decide_eq_true (of_decide_eq_true h).2)
  exact (countP_flatMap_le hlevel).trans (countP_level horder (fun _ hi => hi) _)

/-- As many addresses agree with `a` but for the digit at `l` as there are children. -/
lemma countP_children (hl : l < M.length) (a : List ℕ) :
    (boxList (levelBox M C l)).countP (fun b => b.set l (a.getD l 0) = a) ≤ M.getD l 0 := by
  rw [List.countP_eq_length_filter]
  have hbox : ∀ b ∈ (boxList (levelBox M C l)).filter (fun b => b.set l (a.getD l 0) = a),
      b = a.set l (b.getD l 0) ∧ b.getD l 0 < M.getD l 0 := by
    intro b hb
    obtain ⟨hb, heq⟩ := List.mem_filter.mp hb
    have hb := mem_boxList.mp hb
    have hlen : l < (levelBox M C l).length := by
      rw [length_levelBox hC hl.le]
      exact hl
    have hlt := (inBox_iff.mp hb).2 l hlen
    rw [getD_levelBox hC hl.le, if_neg (lt_irrefl l)] at hlt
    refine ⟨?_, hlt⟩
    rw [← of_decide_eq_true heq, List.set_set]
    exact ((set_eq_self_iff hb hlen).mpr rfl).symm
  have hnodup : (((boxList (levelBox M C l)).filter
      (fun b => b.set l (a.getD l 0) = a)).map fun b => b.getD l 0).Nodup := by
    refine List.Nodup.map_on (fun b hb b' hb' h => ?_) ((nodup_boxList _).filter _)
    rw [(hbox b hb).1, (hbox b' hb').1, h]
  have hsub : _ ⊆ List.range (M.getD l 0) := fun x hx => by
    obtain ⟨b, hb, rfl⟩ := List.mem_map.mp hx
    exact List.mem_range.mpr (hbox b hb).2
  have hle := (hnodup.subperm hsub).length_le
  rwa [List.length_map, List.length_range] at hle

/-- The links from below that one address gives the switch at `a`. -/
lemma countP_row (hl : l < M.length) (ha : InBox (levelBox M C (l + 1)) a)
    (hb : InBox (levelBox M C l) b) :
    ((List.range (C.getD l 0)).flatMap fun x => List.replicate (K.getD l 0)
      (levelName l b, levelName (l + 1) (b.set l x))).countP (fun y => y.2 = levelName (l + 1) a) ≤
      if decide (b.set l (a.getD l 0) = a) then K.getD l 0 else 0 := by
  refine (countP_flatMap_le (q := fun x => x = a.getD l 0 ∧ b.set l (a.getD l 0) = a)
    (k := K.getD l 0) ?_).trans ?_
  · intro x hx
    split
    · exact List.countP_le_length.trans (List.length_replicate).le
    · rename_i hne
      rw [Nat.le_zero, List.countP_eq_zero]
      intro y hy hsnd
      rw [List.eq_of_mem_replicate hy] at hsnd
      have hset := (levelName_inj_box hC (by omega) hl hl
        (hb.parent hC hl (List.mem_range.mp hx)) ha (of_decide_eq_true hsnd)).2
      have hlen : l < b.length := by
        rw [hb.length_eq, length_levelBox hC hl.le]
        exact hl
      have hget : a.getD l 0 = x := by
        rw [← hset, getD_set hlen, if_pos rfl]
      exact hne (decide_eq_true ⟨hget.symm, hget ▸ hset⟩)
  · split
    · have hone := countP_eq_le_one (List.nodup_range (n := C.getD l 0)) (a.getD l 0)
      refine (Nat.mul_le_mul_right _ ?_).trans (Nat.one_mul _).le
      exact (List.countP_mono_left fun x _ h => by simpa using (of_decide_eq_true h).1).trans hone
    · rename_i hne
      rw [List.countP_eq_zero.mpr, Nat.zero_mul]
      exact fun x _ h => hne (decide_eq_true (of_decide_eq_true h).2)

/-- The links down of one switch. -/
lemma countP_down {order : List ℕ → List ℕ} (horder : ∀ l, (order l).Perm l) (hi : i ≤ M.length)
    (ha : InBox (levelBox M C i) a) :
    (treePairs order M C K).countP (fun y => y.2 = levelName i a) ≤
      if 2 ≤ i then M.getD (i - 1) 0 * K.getD (i - 1) 0 else 0 := by
  have hlevel : ∀ l ∈ order (List.range' 1 (M.length - 1)),
      (levelPairs M C K l).countP (fun y => y.2 = levelName i a) ≤
        if decide (l = i - 1) then M.getD (i - 1) 0 * K.getD (i - 1) 0 else 0 := by
    intro l hl
    have hl' := List.mem_range'_1.mp ((horder _).mem_iff.mp hl)
    split
    · rename_i heq
      obtain rfl : i = l + 1 := by
        have := of_decide_eq_true heq
        omega
      rw [Nat.add_sub_cancel]
      refine (countP_flatMap_le fun b hb =>
        countP_row hC (by omega) ha (mem_boxList.mp hb)).trans ?_
      exact Nat.mul_le_mul_right _ (countP_children hC (by omega) a)
    · rename_i hne
      rw [Nat.le_zero, List.countP_eq_zero]
      intro y hy hsnd
      obtain ⟨b, x, hb, hx, rfl⟩ := mem_levelPairs hy
      have := (levelName_inj_box hC (by omega) (by omega) hi (hb.parent hC (by omega) hx) ha
        (of_decide_eq_true hsnd)).1
      exact hne (decide_eq_true (by omega))
  exact (countP_flatMap_le hlevel).trans (countP_level horder (by omega) _)

end Links

/-! ### The generated devices -/

/-- The names of the level that gets the hosts. -/
def level1 (M C : List ℕ) : List Text := (egftLevel M C 1).map swName

section Built

variable {order : List ℕ → List ℕ} {hosts : List Text} {args : HostArgs} {devices : Devices}
  {sw h : Text}

lemma level1_subset (hM : 0 < M.length) (h : sw ∈ level1 M C) : sw ∈ egftSwitches M.length M C :=
  List.mem_flatMap.mpr ⟨1, List.mem_range'_1.mpr ⟨le_rfl, by omega⟩, h⟩

lemma egft_appended (hC : C.length = M.length) (hK : K.length = M.length)
    (horder : ∀ l, (order l).Perm l) (hL : 2 ≤ M.length) (hne : level1 M C ≠ [])
    (hargs : getHosts args = .ok hosts) :
    ∃ devices, egft order M.length M C K args = .ok devices ∧
      Appended (startDevices (egftSwitches M.length M C) hosts)
        (bothEnds (treePairs order M C K) ++ bothEnds (dictPairs (hostDict (level1 M C) hosts)))
        devices := by
  have hkeys : ∀ s ∈ egftSwitches M.length M C,
      s ∈ (startDevices (egftSwitches M.length M C) hosts).map Prod.fst := fun s hs =>
    mem_keys_startDevices.mpr (List.mem_append_left _ hs)
  have hpass : ∀ l ∈ order (List.range' 1 (M.length - 1)), ∀ devices : Devices,
      devices.map Prod.fst = (startDevices (egftSwitches M.length M C) hosts).map Prod.fst →
      ∃ devices', egftConnect M C K devices l = .ok devices' ∧
        Appended devices (bothEnds (levelPairs M C K l)) devices' := by
    intro l hl devices hdev
    have hl' := List.mem_range'_1.mp ((horder _).mem_iff.mp hl)
    exact egftConnect_appended hC hK hl'.1 (by omega) (hdev ▸ hkeys)
  obtain ⟨devices₁, h₁, ha₁⟩ := foldlM_appended (fun l => bothEnds (levelPairs M C K l)) rfl hpass
  obtain ⟨devices₂, h₂, ha₂⟩ := placeHosts_appended devices₁ hne
    (fun s hs => ha₁.keys ▸ hkeys s (level1_subset (by omega) hs))
    (fun h hh => ha₁.keys ▸ mem_keys_startDevices.mpr (List.mem_append_right _ hh))
  have hflat : bothEnds (treePairs order M C K) =
      (order (List.range' 1 (M.length - 1))).flatMap fun l => bothEnds (levelPairs M C K l) := by
    rw [bothEnds, treePairs, List.flatMap_assoc]
    rfl
  refine ⟨devices₂, ?_, hflat ▸ ha₁.trans ha₂⟩
  rw [egft, if_neg (by simp [hC, hK]), hargs]
  simp only [bind, Except.bind] at h₁ ⊢
  rw [h₁]
  exact (if_pos (by omega)).trans h₂

/-- With a single level there is no level below the last one to get the hosts. -/
lemma egft_single (hL : M.length = 1) :
    ∀ devices, egft order M.length M C K args ≠ .ok devices := by
  intro devices h
  rw [egft] at h
  split at h
  · cases h
  · cases hhosts : getHosts args with
    | error e =>
      rw [hhosts] at h
      cases h
    | ok hosts =>
      rw [hhosts, hL] at h
      simp only [bind, Except.bind] at h
      split at h
      · cases h
      · simp at h

section Neighbours

variable (ha : Appended (startDevices (egftSwitches M.length M C) hosts)
  (bothEnds (treePairs order M C K) ++ bothEnds (dictPairs (hostDict (level1 M C) hosts))) devices)

include ha

lemma egft_neighbours : neighbours devices sw = linksOf (bothEnds (treePairs order M C K)) sw ++
    linksOf (bothEnds (dictPairs (hostDict (level1 M C) hosts))) sw := by
  rw [ha.neighbours, neighbours_startDevices, linksOf_append, List.nil_append]

lemma egft_symm (x y : Text) : (neighbours devices x).count y = (neighbours devices y).count x := by
  rw [egft_neighbours ha, egft_neighbours ha, List.count_append, List.count_append,
    count_linksOf_bothEnds, count_linksOf_bothEnds (dictPairs _)]

variable (hC : C.length = M.length) (horder : ∀ l, (order l).Perm l)
  (hd : ∀ h ∈ hosts, h ∉ egftSwitches M.length M C)

include hC horder hd

lemma egft_host (hne : level1 M C ≠ []) (hn : hosts.Nodup) (hM : 0 < M.length) (hh : h ∈ hosts) :
    ∃ sw ∈ level1 M C, neighbours devices h = [sw] := by
  have htree : linksOf (bothEnds (treePairs order M C K)) h = [] := by
    refine linksOf_bothEnds_eq_nil fun y hy => ?_
    obtain ⟨l, hl, hy⟩ := List.mem_flatMap.mp hy
    have hl' := List.mem_range'_1.mp ((horder _).mem_iff.mp hl)
    obtain ⟨hfst, hsnd⟩ := levelPairs_switches hC hl'.1 (by omega) hy
    exact ⟨fun heq => hd h hh (heq ▸ hfst), fun heq => hd h hh (heq ▸ hsnd)⟩
  obtain ⟨sw, hsw, hlinks⟩ := linksOf_host hne hn
    (fun h hh hmem => hd h hh (level1_subset hM hmem)) hh
  exact ⟨sw, hsw, by rw [egft_neighbours ha, htree, hlinks, List.nil_append]⟩

/-- The ports of a switch of level `i`, when its share of the hosts is at most `s`. -/
lemma egft_degree {s : ℕ} (hM : 0 < M.length) (hs : hosts.length ≤ (level1 M C).length * s)
    (hsw : sw ∈ egftSwitches M.length M C) : ∃ i, 1 ≤ i ∧ i ≤ M.length ∧
      degree devices sw ≤ (if i < M.length then C.getD i 0 * K.getD i 0 else 0) +
        (if 2 ≤ i then M.getD (i - 1) 0 * K.getD (i - 1) 0 else s) := by
  obtain ⟨i, h1, hi, a, hbox, rfl⟩ := mem_egftSwitches.mp hsw
  refine ⟨i, h1, hi, ?_⟩
  have hup := countP_up (K := K) hC horder hi hbox
  have hdown := countP_down (K := K) hC horder hi hbox
  rw [degree, egft_neighbours ha, List.length_append, length_linksOf_bothEnds]
  by_cases hone : i = 1
  · subst hone
    rw [if_neg (show ¬ 2 ≤ 1 by omega)] at hdown ⊢
    have hnodup : (level1 M C).Nodup := nodup_egftLevel hC hM hi
    have hlevel : levelName 1 a ∈ level1 M C := by
      rw [level1, egftLevel_eq]
      exact List.mem_map_of_mem (mem_boxList.mpr hbox)
    obtain ⟨k, hk, heq⟩ := List.getElem_of_mem hlevel
    have hd' : ∀ h ∈ hosts, h ∉ level1 M C := fun h hh hmem => hd h hh (level1_subset hM hmem)
    have hlen := (linksOf_switch hnodup hd' hk).2
    have hshare := share_le hk hs
    rw [heq] at hlen
    omega
  · rw [if_pos (show 2 ≤ i by omega)] at hdown ⊢
    have hnone : linksOf (bothEnds (dictPairs (hostDict (level1 M C) hosts))) (levelName i a) =
        [] := by
      refine linksOf_bothEnds_eq_nil fun y hy => ⟨fun heq => hone ?_, fun heq => ?_⟩
      · have hmem := fst_mem_hostDict hy
        rw [heq, level1, egftLevel_eq] at hmem
        obtain ⟨b, hb, hname⟩ := List.mem_map.mp hmem
        exact (levelName_inj_box hC hM (by omega) hi (mem_boxList.mp hb) hbox hname).1.symm
      · have hne : level1 M C ≠ [] := by
          rintro hnil
          have hmem := fst_mem_hostDict hy
          rw [hnil] at hmem
          exact List.not_mem_nil hmem
        have hmem : y.2 ∈ hosts := by
          rw [← snd_hostDict hosts hne]
          exact List.mem_map_of_mem hy
        exact hd _ hmem (heq ▸ hsw)
    rw [hnone, List.length_nil]
    omega

end Neighbours

end Built

end ResSim
