import ResSim.Lib.Spread
import ResSim.Lib.Traverse
import ResSim.Topo.OutputDevices

/-!
# Devices as the generators build them

The generators start from devices without neighbours and append one name after another, so a
run amounts to the list of the appended pairs. The hosts are taken from the front of their list,
and the switch at place `i` gets the share `i` of them.
-/

namespace ResSim

/-- The exceptions of the generators. -/
inductive TopoError where
  | value (message : Text)
  | index
  | key
  | struct
  deriving DecidableEq

/-- `l[i]`. -/
def item {α : Type} (l : List α) (i : ℕ) : Except TopoError α :=
  match l[i]? with
  | none => .error .index
  | some a => .ok a

/-- The number of hosts, or the hosts from a file. -/
inductive HostArgs where
  | num (numHosts : ℕ)
  | file (hosts : List Text)

/-- `socket.inet_ntoa` of the four bytes of a number. -/
def dotted (i : ℕ) : Text :=
  ['.'].intercalate
    [digits (i / 2 ^ 24), digits (i / 2 ^ 16 % 256), digits (i / 2 ^ 8 % 256), digits (i % 256)]

/-- `socket.inet_ntoa(struct.pack('!i', i))`; a number that is no signed word of 32 bits cannot
be packed. -/
def hostAddress (i : ℕ) : Except TopoError Text :=
  if i < 2 ^ 31 then .ok (dotted i) else .error .struct

def getHosts : HostArgs → Except TopoError (List Text)
  | .num numHosts => (List.range' 1 numHosts).mapM hostAddress
  | .file hosts => .ok hosts

/-- `'switch.' + '.'.join(swaddr)`. -/
def swName (swaddr : List Text) : Text := "switch.".toList ++ ['.'].intercalate swaddr

/-- `devices` before anything is linked. -/
def startDevices (switches hosts : List Text) : Devices :=
  (switches ++ hosts).foldl (fun devices dev => dictSet devices dev []) []

/-- `devices[dev].append(other)`. -/
def appendTo (devices : Devices) (dev other : Text) : Except TopoError Devices :=
  match dictGet devices dev with
  | none => .error .key
  | some nbrs => .ok (dictSet devices dev (nbrs ++ [other]))

/-- All appends of a loop, in their order. -/
def appendAll (devices : Devices) (links : List (Text × Text)) : Except TopoError Devices :=
  links.foldlM (fun devices x => appendTo devices x.1 x.2) devices

/-- The hosts of one switch. The last component of the result says that the list of hosts was
empty too early, which leaves the loop over the switches. -/
def placeAt (switch : Text) : ℕ → Devices → List Text →
    Except TopoError (Devices × List Text × Bool)
  | 0, devices, hosts => .ok (devices, hosts, false)
  | _ + 1, devices, [] => .ok (devices, [], true)
  | n + 1, devices, host :: hosts => do
    let devices ← appendTo devices switch host
    let devices ← appendTo devices host switch
    placeAt switch n devices hosts

def placeLoop (numHosts m : ℕ) : List (Text × ℕ) → Devices → List Text →
    Except TopoError (Devices × List Text)
  | [], devices, hosts => .ok (devices, hosts)
  | (switch, i) :: rest, devices, hosts => do
    let (devices, hosts, stop) ← placeAt switch ((numHosts + i) / m) devices hosts
    if stop then .ok (devices, hosts) else placeLoop numHosts m rest devices hosts

/-- Adds the hosts to the switches. -/
def placeHosts (switches hosts : List Text) (devices : Devices) : Except TopoError Devices := do
  let (devices, left) ←
    placeLoop hosts.length switches.length switches.zipIdx devices hosts
  if 0 < left.length then
    .error (.value ("Topology not large enough! ".toList ++ digits left.length ++
      " hosts left".toList))
  else .ok devices

/-! ### Names -/

section Names

variable {swaddr swaddr' : List Text}

/-- The name of a switch has its address after the first dot. -/
lemma splitOn_swName (hne : swaddr ≠ []) (hdot : ∀ t ∈ swaddr, '.' ∉ t) :
    ((swName swaddr).splitOn '.').drop 1 = swaddr := by
  have hname : swName swaddr = ['.'].intercalate ("switch".toList :: swaddr) := by
    rw [List.intercalate_cons_of_ne_nil hne]
    rfl
  have hdot' : ∀ t ∈ "switch".toList :: swaddr, '.' ∉ t :=
    List.forall_mem_cons.mpr ⟨by decide, hdot⟩
  rw [hname, List.splitOn_intercalate '.' hdot' (List.cons_ne_nil _ _)]
  rfl

lemma swName_inj (hne : swaddr ≠ []) (hdot : ∀ t ∈ swaddr, '.' ∉ t) (hne' : swaddr' ≠ [])
    (hdot' : ∀ t ∈ swaddr', '.' ∉ t) (h : swName swaddr = swName swaddr') : swaddr = swaddr' := by
  rw [← splitOn_swName hne hdot, h, splitOn_swName hne' hdot']

lemma dot_not_mem_digits (n : ℕ) : '.' ∉ digits n := fun h => by
  have := isDigit_of_mem_digits h
  revert this
  decide

lemma dotted_injective : Function.Injective dotted := by
  intro i j h
  have hsplit : ∀ i, (dotted i).splitOn '.' = [digits (i / 2 ^ 24), digits (i / 2 ^ 16 % 256),
      digits (i / 2 ^ 8 % 256), digits (i % 256)] := fun i =>
    List.splitOn_intercalate '.' (by simp [dot_not_mem_digits]) (List.cons_ne_nil _ _)
  have hlist := (hsplit i).symm.trans ((congrArg (List.splitOn '.') h).trans (hsplit j))
  simp only [List.cons.injEq, and_true] at hlist
  obtain ⟨h₁, h₂, h₃, h₄⟩ := hlist
  have h₁ := digits_injective h₁
  have h₂ := digits_injective h₂
  have h₃ := digits_injective h₃
  have h₄ := digits_injective h₄
  omega

lemma dotted_ne_swName (i : ℕ) : dotted i ≠ swName swaddr := by
  intro h
  obtain ⟨c, t, hdigits, hc⟩ := exists_digits (i / 2 ^ 24)
  have hhead : (dotted i).head? = some c := by
    rw [dotted, hdigits]
    rfl
  have hs : (swName swaddr).head? = some 's' := rfl
  rw [h, hs, Option.some.injEq] at hhead
  subst hhead
  revert hc
  decide

/-- Up to the range of a signed word the hosts get different names, none of which is a
switch's. -/
lemma getHosts_num {n : ℕ} (hn : n < 2 ^ 31) : ∃ hosts, getHosts (.num n) = .ok hosts ∧
    hosts.length = n ∧ hosts.Nodup ∧ ∀ h ∈ hosts, ∀ swaddr, h ≠ swName swaddr := by
  refine ⟨(List.range' 1 n).map dotted, mapM_ok_map fun i hi => if_pos ?_, by simp,
    List.Nodup.map dotted_injective List.nodup_range', fun h hh swaddr => ?_⟩
  · have := (List.mem_range'_1.mp hi).2
    omega
  · obtain ⟨i, _, rfl⟩ := List.mem_map.mp hh
    exact dotted_ne_swName i

lemma getHosts_num_error {n : ℕ} (hn : 2 ^ 31 ≤ n) : getHosts (.num n) = .error .struct := by
  refine mapM_error (a := 2 ^ 31) (List.mem_range'_1.mpr ⟨by omega, by omega⟩)
    (if_neg (lt_irrefl _)) fun i _ => ?_
  by_cases hi : i < 2 ^ 31
  · exact .inl ⟨_, if_pos hi⟩
  · exact .inr (if_neg hi)

end Names

/-! ### Appended pairs -/

/-- What the pairs append to the list of `x`. -/
def linksOf (links : List (Text × Text)) (x : Text) : List Text :=
  (links.filter fun y => y.1 = x).map Prod.snd

variable {switches hosts : List Text} {devices devices' : Devices}
  {links links' : List (Text × Text)} {a b x : Text}

@[simp] lemma linksOf_append :
    linksOf (links ++ links') x = linksOf links x ++ linksOf links' x := by
  simp [linksOf]

lemma mem_linksOf : b ∈ linksOf links a ↔ (a, b) ∈ links := by
  simp [linksOf]

lemma linksOf_dictPairs {d : List (Text × List Text)} {y : Text × List Text}
    (h : (d.map Prod.fst).Nodup) (hy : y ∈ d) : linksOf (dictPairs d) y.1 = y.2 := by
  rw [linksOf, filter_dictPairs h hy, List.map_map]
  exact List.map_id' _

lemma linksOf_eq_nil (h : a ∉ links.map Prod.fst) : linksOf links a = [] := by
  rw [List.eq_nil_iff_forall_not_mem]
  exact fun b hb => h (List.mem_map_of_mem (mem_linksOf.mp hb))

lemma count_linksOf (links : List (Text × Text)) (a b : Text) :
    (linksOf links a).count b = links.count (a, b) := by
  rw [linksOf, List.count_eq_countP, List.count_eq_countP, List.countP_map, List.countP_filter]
  apply List.countP_congr
  rintro ⟨x, y⟩ _
  simp [and_comm]

/-- The devices to which pairs were appended. -/
structure Appended (devices : Devices) (links : List (Text × Text)) (devices' : Devices) :
    Prop where
  keys : devices'.map Prod.fst = devices.map Prod.fst
  neighbours : ∀ x, neighbours devices' x = neighbours devices x ++ linksOf links x

lemma Appended.refl (devices : Devices) : Appended devices [] devices :=
  ⟨rfl, fun x => by simp [linksOf]⟩

lemma Appended.trans {devices'' : Devices} (h : Appended devices links devices')
    (h' : Appended devices' links' devices'') : Appended devices (links ++ links') devices'' :=
  ⟨h'.keys.trans h.keys, fun x => by
    rw [h'.neighbours, h.neighbours, linksOf_append, List.append_assoc]⟩

lemma appendTo_appended (h : a ∈ devices.map Prod.fst) (b : Text) :
    ∃ devices', appendTo devices a b = .ok devices' ∧ Appended devices [(a, b)] devices' := by
  cases hget : dictGet devices a with
  | none => exact absurd h (dictGet_eq_none.mp hget)
  | some nbrs =>
    refine ⟨_, by rw [appendTo, hget], keys_dictSet_of_mem h, fun x => ?_⟩
    rw [ResSim.neighbours, ResSim.neighbours, dictGet_dictSet]
    by_cases hx : x = a
    · subst hx
      simp [hget, linksOf]
    · simp [hx, Ne.symm hx, linksOf]

lemma appendAll_appended (devices : Devices) {links : List (Text × Text)}
    (h : ∀ y ∈ links, y.1 ∈ devices.map Prod.fst) :
    ∃ devices', appendAll devices links = .ok devices' ∧ Appended devices links devices' := by
  induction links generalizing devices with
  | nil => exact ⟨devices, rfl, .refl devices⟩
  | cons y links ih =>
    obtain ⟨hy, hlinks⟩ := List.forall_mem_cons.mp h
    obtain ⟨devices₁, h₁, ha₁⟩ := appendTo_appended hy y.2
    obtain ⟨devices₂, h₂, ha₂⟩ := ih devices₁ (ha₁.keys ▸ hlinks)
    refine ⟨devices₂, ?_, ha₁.trans ha₂⟩
    rw [appendAll, List.foldlM_cons, h₁]
    exact h₂

/-- A loop each of whose passes appends some pairs. -/
lemma foldlM_appended {α : Type} {step : Devices → α → Except TopoError Devices} {l : List α}
    (out : α → List (Text × Text)) {keys : List Text} (hkeys : devices.map Prod.fst = keys)
    (h : ∀ s ∈ l, ∀ devices, devices.map Prod.fst = keys →
      ∃ devices', step devices s = .ok devices' ∧ Appended devices (out s) devices') :
    ∃ devices', l.foldlM step devices = .ok devices' ∧
      Appended devices (l.flatMap out) devices' := by
  induction l generalizing devices with
  | nil => exact ⟨devices, rfl, .refl devices⟩
  | cons s l ih =>
    obtain ⟨hs, hl⟩ := List.forall_mem_cons.mp h
    obtain ⟨devices₁, h₁, ha₁⟩ := hs devices hkeys
    obtain ⟨devices₂, h₂, ha₂⟩ := ih (ha₁.keys.trans hkeys) hl
    refine ⟨devices₂, ?_, ha₁.trans ha₂⟩
    rw [List.foldlM_cons, h₁]
    exact h₂

lemma mem_startDevices {y : Text × List Text} :
    y ∈ startDevices switches hosts ↔ y.1 ∈ switches ++ hosts ∧ y.2 = [] := by
  rw [startDevices, mem_foldl_dictSet]
  simp

@[simp] lemma mem_keys_startDevices :
    x ∈ (startDevices switches hosts).map Prod.fst ↔ x ∈ switches ++ hosts := by
  constructor
  · intro h
    obtain ⟨y, hy, rfl⟩ := List.mem_map.mp h
    exact (mem_startDevices.mp hy).1
  · exact fun h => List.mem_map.mpr ⟨(x, []), mem_startDevices.mpr ⟨h, rfl⟩, rfl⟩

lemma nodup_startDevices (switches hosts : List Text) :
    ((startDevices switches hosts).map Prod.fst).Nodup := by
  suffices h : ∀ (l : List Text) (d : Devices), (d.map Prod.fst).Nodup →
      ((l.foldl (fun devices dev => dictSet devices dev []) d).map Prod.fst).Nodup from
    h _ [] List.nodup_nil
  intro l
  induction l with
  | nil => exact fun d hd => hd
  | cons a l ih => exact fun d hd => ih _ (nodup_keys_dictSet hd)

@[simp] lemma neighbours_startDevices (switches hosts : List Text) (x : Text) :
    neighbours (startDevices switches hosts) x = [] := by
  rw [neighbours]
  cases hget : dictGet (startDevices switches hosts) x with
  | none => rfl
  | some nbrs => exact (mem_startDevices.mp (mem_of_dictGet hget)).2

/-! ### The hosts -/

/-- The pairs in both directions. -/
def bothEnds (pairs : List (Text × Text)) : List (Text × Text) :=
  pairs.flatMap fun y => [y, y.swap]

/-- The switches with their hosts. -/
def hostDict (switches hosts : List Text) : List (Text × List Text) :=
  switches.zip ((shares hosts.length switches.length).splitLengths hosts)

lemma count_bothEnds (pairs : List (Text × Text)) (a b : Text) :
    (bothEnds pairs).count (a, b) = pairs.count (a, b) + pairs.count (b, a) := by
  induction pairs with
  | nil => rfl
  | cons y pairs ih =>
    have hswap : (y.swap == (a, b)) = (y == (b, a)) := by
      rw [Bool.eq_iff_iff, beq_iff_eq, beq_iff_eq, Prod.swap_eq_iff_eq_swap, Prod.swap_prod_mk]
    change (y :: y.swap :: bothEnds pairs).count (a, b) = _
    rw [List.count_cons, List.count_cons, List.count_cons, List.count_cons, ih, hswap]
    omega

lemma count_linksOf_bothEnds (pairs : List (Text × Text)) (a b : Text) :
    (linksOf (bothEnds pairs) a).count b = (linksOf (bothEnds pairs) b).count a := by
  rw [count_linksOf, count_linksOf, count_bothEnds, count_bothEnds, Nat.add_comm]

/-- A name that occurs in no pair has nothing appended. -/
lemma linksOf_bothEnds_eq_nil {pairs : List (Text × Text)} (h : ∀ y ∈ pairs, y.1 ≠ x ∧ y.2 ≠ x) :
    linksOf (bothEnds pairs) x = [] := by
  refine linksOf_eq_nil fun hmem => ?_
  obtain ⟨z, hz, rfl⟩ := List.mem_map.mp hmem
  obtain ⟨y, hy, hz⟩ := List.mem_flatMap.mp hz
  rcases List.mem_cons.mp hz with rfl | hz
  · exact (h _ hy).1 rfl
  · rw [List.mem_singleton.mp hz] at h
    exact (h _ hy).2 rfl

lemma length_linksOf_bothEnds (pairs : List (Text × Text)) (a : Text) :
    (linksOf (bothEnds pairs) a).length =
      pairs.countP (fun y => y.1 = a) + pairs.countP (fun y => y.2 = a) := by
  rw [linksOf, List.length_map, ← List.countP_eq_length_filter]
  induction pairs with
  | nil => rfl
  | cons y pairs ih =>
    change (y :: y.swap :: bothEnds pairs).countP _ = _
    simp only [List.countP_cons, ih, Prod.fst_swap]
    omega

lemma placeAt_appended {switch : Text} {n : ℕ} {devices : Devices} {hosts : List Text}
    (hn : n ≤ hosts.length)
    (hs : switch ∈ devices.map Prod.fst) (hh : ∀ h ∈ hosts, h ∈ devices.map Prod.fst) :
    ∃ devices', placeAt switch n devices hosts = .ok (devices', hosts.drop n, false) ∧
      Appended devices (bothEnds ((hosts.take n).map (switch, ·))) devices' := by
  induction n generalizing devices hosts with
  | zero => exact ⟨devices, by rw [placeAt]; rfl, .refl devices⟩
  | succ n ih =>
    cases hosts with
    | nil => simp at hn
    | cons host hosts =>
      obtain ⟨hhost, hhosts⟩ := List.forall_mem_cons.mp hh
      obtain ⟨devices₁, h₁, ha₁⟩ := appendTo_appended hs host
      obtain ⟨devices₂, h₂, ha₂⟩ := appendTo_appended (ha₁.keys ▸ hhost) switch
      have ha := ha₁.trans ha₂
      have hs' : switch ∈ devices₂.map Prod.fst := ha.keys ▸ hs
      obtain ⟨devices₃, h₃, ha₃⟩ := ih (Nat.le_of_succ_le_succ hn) hs' (ha.keys ▸ hhosts)
      refine ⟨devices₃, ?_, ha.trans ha₃⟩
      rw [placeAt, h₁]
      simp only [bind, Except.bind, h₂, h₃, List.drop_succ_cons]

/-- Every switch takes its share from the front of the list. -/
lemma placeLoop_appended (numHosts m : ℕ) {l : List (Text × ℕ)}
    (hn : (l.map fun y => (numHosts + y.2) / m).sum ≤ hosts.length)
    (hs : ∀ y ∈ l, y.1 ∈ devices.map Prod.fst) (hh : ∀ h ∈ hosts, h ∈ devices.map Prod.fst) :
    ∃ devices', placeLoop numHosts m l devices hosts =
        .ok (devices', hosts.drop (l.map fun y => (numHosts + y.2) / m).sum) ∧
      Appended devices (bothEnds (dictPairs ((l.map Prod.fst).zip
        ((l.map fun y => (numHosts + y.2) / m).splitLengths hosts)))) devices' := by
  induction l generalizing devices hosts with
  | nil => exact ⟨devices, by simp [placeLoop], .refl devices⟩
  | cons y l ih =>
    obtain ⟨hy, hl⟩ := List.forall_mem_cons.mp hs
    rw [List.map_cons, List.sum_cons] at hn
    obtain ⟨devices₁, h₁, ha₁⟩ := placeAt_appended (n := (numHosts + y.2) / m) (by omega) hy hh
    have hl' : ∀ y ∈ l, y.1 ∈ devices₁.map Prod.fst := ha₁.keys ▸ hl
    have hh' : ∀ h ∈ hosts.drop ((numHosts + y.2) / m), h ∈ devices₁.map Prod.fst :=
      fun h hmem => ha₁.keys ▸ hh h (List.mem_of_mem_drop hmem)
    obtain ⟨devices₂, h₂, ha₂⟩ := ih (by rw [List.length_drop]; omega) hl' hh'
    refine ⟨devices₂, ?_, ?_⟩
    · rw [placeLoop, h₁]
      simp only [bind, Except.bind, Bool.false_eq_true, if_false, h₂, List.drop_drop,
        List.map_cons, List.sum_cons]
    · have ha := ha₁.trans ha₂
      simp only [List.map_cons, List.splitLengths_cons, List.zip_cons_cons, dictPairs, bothEnds,
        List.flatMap_cons, List.flatMap_append] at ha ⊢
      exact ha

/-- All hosts are placed, and the switches get their shares. -/
theorem placeHosts_appended (devices : Devices) {switches hosts : List Text}
    (hne : switches ≠ []) (hs : ∀ s ∈ switches, s ∈ devices.map Prod.fst)
    (hh : ∀ h ∈ hosts, h ∈ devices.map Prod.fst) :
    ∃ devices', placeHosts switches hosts devices = .ok devices' ∧
      Appended devices (bothEnds (dictPairs (hostDict switches hosts))) devices' := by
  have hsizes : switches.zipIdx.map (fun y => (hosts.length + y.2) / switches.length) =
      shares hosts.length switches.length := by
    have h := List.zipIdx_map_snd 0 switches
    rw [← List.range_eq_range'] at h
    rw [shares, ← h, List.map_map]
    rfl
  have hsum := sum_shares (List.length_pos_iff.mpr hne) hosts.length
  obtain ⟨devices', h, ha⟩ := placeLoop_appended hosts.length switches.length
    (hsizes ▸ hsum.le) (fun y hy => hs y.1 (List.fst_mem_of_mem_zipIdx hy)) hh
  rw [hsizes, hsum, List.drop_length] at h
  refine ⟨devices', ?_, ?_⟩
  · rw [placeHosts, h]
    rfl
  · rwa [hsizes, List.zipIdx_map_fst] at ha

section Dealt

variable {h : Text} {i : ℕ}

lemma fst_mem_hostDict {y : Text × Text} (hy : y ∈ dictPairs (hostDict switches hosts)) :
    y.1 ∈ switches := by
  obtain ⟨z, hz, hy⟩ := List.mem_flatMap.mp hy
  obtain ⟨h, _, rfl⟩ := List.mem_map.mp hy
  exact (List.of_mem_zip hz).1

lemma snd_hostDict (hosts : List Text) (hne : switches ≠ []) :
    (dictPairs (hostDict switches hosts)).map Prod.snd = hosts := by
  have hlen : switches.length =
      ((shares hosts.length switches.length).splitLengths hosts).length := by
    simp
  have hsum := sum_shares (List.length_pos_iff.mpr hne) hosts.length
  rw [dictPairs, List.map_flatMap]
  simp only [List.map_map, Function.comp_def, List.map_id']
  rw [hostDict, List.flatMap_def, List.map_snd_zip (by omega),
    List.flatten_splitLengths _ _ (by omega)]

lemma linksOf_bothEnds_fst {pairs : List (Text × Text)} (hx : x ∉ pairs.map Prod.snd) :
    linksOf (bothEnds pairs) x = linksOf pairs x := by
  induction pairs with
  | nil => rfl
  | cons y pairs ih =>
    rw [List.map_cons, List.mem_cons, not_or] at hx
    have hrest := ih hx.2
    change linksOf ([y] ++ ([y.swap] ++ bothEnds pairs)) x = linksOf ([y] ++ pairs) x
    rw [linksOf_append, linksOf_append, linksOf_append, hrest]
    simp [linksOf, Ne.symm hx.1]

lemma linksOf_bothEnds_snd {pairs : List (Text × Text)} (hx : x ∉ pairs.map Prod.fst) :
    linksOf (bothEnds pairs) x = (pairs.filter fun y => y.2 = x).map Prod.fst := by
  induction pairs with
  | nil => rfl
  | cons y pairs ih =>
    rw [List.map_cons, List.mem_cons, not_or] at hx
    have hrest := ih hx.2
    change linksOf ([y] ++ ([y.swap] ++ bothEnds pairs)) x = _
    rw [linksOf_append, linksOf_append, hrest]
    by_cases hy : y.2 = x
    · simp [linksOf, Ne.symm hx.1, hy]
    · simp [linksOf, Ne.symm hx.1, hy]

/-- Every host is appended to one switch, and that switch to it. -/
lemma linksOf_host (hne : switches ≠ []) (hn : hosts.Nodup) (hd : ∀ h ∈ hosts, h ∉ switches)
    (hh : h ∈ hosts) :
    ∃ s ∈ switches, linksOf (bothEnds (dictPairs (hostDict switches hosts))) h = [s] := by
  have hsnd := snd_hostDict hosts hne
  have hfst : h ∉ (dictPairs (hostDict switches hosts)).map Prod.fst := by
    intro hmem
    obtain ⟨y, hy, heq⟩ := List.mem_map.mp hmem
    exact hd h hh (heq ▸ fst_mem_hostDict hy)
  have hcount : ((dictPairs (hostDict switches hosts)).filter fun y => y.2 = h).length = 1 := by
    rw [← List.countP_eq_length_filter]
    have := List.count_eq_one_of_mem hn hh
    rw [← hsnd, List.count_eq_countP, List.countP_map] at this
    rw [← this]
    exact List.countP_congr fun y _ => by simp
  obtain ⟨y, hy⟩ := List.length_eq_one_iff.mp hcount
  have hmem : y ∈ dictPairs (hostDict switches hosts) :=
    List.mem_of_mem_filter (hy ▸ List.mem_singleton_self y)
  exact ⟨y.1, fst_mem_hostDict hmem, by rw [linksOf_bothEnds_snd hfst, hy, List.map_singleton]⟩

/-- A switch gets hosts, as many as its share. -/
lemma linksOf_switch (hs : switches.Nodup) (hd : ∀ h ∈ hosts, h ∉ switches)
    (hi : i < switches.length) :
    (∀ h ∈ linksOf (bothEnds (dictPairs (hostDict switches hosts))) switches[i], h ∈ hosts) ∧
      (linksOf (bothEnds (dictPairs (hostDict switches hosts))) switches[i]).length =
        (hosts.length + i) / switches.length := by
  have hne := List.ne_nil_of_length_pos (Nat.zero_lt_of_lt hi)
  have hsum := sum_shares (Nat.zero_lt_of_lt hi) hosts.length
  have hsnd := snd_hostDict hosts hne
  have hnot : switches[i] ∉ (dictPairs (hostDict switches hosts)).map Prod.snd := by
    rw [hsnd]
    exact fun hmem => hd _ hmem (List.getElem_mem hi)
  rw [linksOf_bothEnds_fst hnot]
  constructor
  · intro h hh
    rw [← hsnd]
    exact List.mem_map.mpr ⟨_, mem_linksOf.mp hh, rfl⟩
  · have hlen : i < ((shares hosts.length switches.length).splitLengths hosts).length := by
      simpa using hi
    have hmem : (switches[i], ((shares hosts.length switches.length).splitLengths hosts)[i]) ∈
        hostDict switches hosts := by
      rw [hostDict, ← List.getElem_zip (i := i) (h := by simpa using hi)]
      exact List.getElem_mem _
    have hkeys : ((hostDict switches hosts).map Prod.fst).Nodup := by
      rw [hostDict, List.map_fst_zip (by simp)]
      exact hs
    rw [linksOf_dictPairs hkeys hmem, List.splitLengths_length_getElem _ _ hsum.le]
    simp [shares]

end Dealt

end ResSim
