import Mathlib.Data.List.Infix
import Mathlib.Data.List.Sort
import Mathlib.Data.List.Count
import Mathlib.Data.List.NodupEquivFin
import ResSim.Lib.Dict
import ResSim.Lib.Text

/-!
# Ports of a generated topology

`output_devices` gives the links of every device port numbers. Parallel links are paired by a
search on both sides for the first position that has no port yet, so the `k`-th link from `s`
to `t` and the `k`-th link from `t` to `s` become the two ends of one cable (`Peer`).
-/

namespace ResSim

/-- `devices`: the names of the neighbours of each device. -/
abbrev Devices := List (Text × List Text)

/-- The ports of each device: a port and what is written there. -/
abbrev DevPorts := Text → List (ℕ × Text)

/-- `'%s port %d' % (name, port)`. -/
def portText (name : Text) (port : ℕ) : Text := name ++ " port ".toList ++ digits port

/-- The search of `add_port` for a position of `name` without a port. Without one the loop
variable keeps its last value, and on an empty list the one it had before. -/
def searchPort (before : Option ℕ) (nbrs : List Text) (used : List (ℕ × Text)) (name : Text) :
    Option ℕ :=
  match (List.range nbrs.length).find?
      (fun p => decide (nbrs[p]? = some name ∧ p ∉ used.map Prod.fst)) with
  | some p => some p
  | none => if nbrs = [] then before else some (nbrs.length - 1)

/-- `self.add_port(other)`. -/
def addPort (devices : Devices) (ports : DevPorts) (self other : Text) : Option DevPorts := do
  let selfNbrs ← dictGet devices self
  let selfp ← searchPort (some (ports self).length) selfNbrs (ports self) other
  guard (selfp ≠ selfNbrs.length)
  guard (selfp ∉ (ports self).map Prod.fst)
  let otherNbrs ← dictGet devices other
  let otherp ← searchPort none otherNbrs (ports other) self
  guard (otherp ≠ otherNbrs.length)
  guard (otherp ∉ (ports other).map Prod.fst)
  let ports := Function.update ports self
    (dictSet (ports self) selfp (portText other otherp))
  some (Function.update ports other (dictSet (ports other) otherp (portText self selfp)))

/-- One pass of the loop over a switch's neighbours. -/
def linkNeighbour (devices : Devices) (processed : List Text) (swname : Text) (ports : DevPorts)
    (other : Text) : Option DevPorts :=
  if other ∈ processed then some ports else addPort devices ports swname other

/-- One pass of the loop over the switches. -/
def processSwitch (devices : Devices) (state : List Text × DevPorts) (swname : Text) :
    Option (List Text × DevPorts) := do
  let nbrs ← dictGet devices swname
  let ports ← nbrs.foldlM (linkNeighbour devices (swname :: state.1) swname) state.2
  some (swname :: state.1, ports)

/-- The light validation of a switch. -/
def validSwitch (devices : Devices) (ports : DevPorts) (swname : Text) : Bool :=
  match dictGet devices swname with
  | none => false
  | some nbrs => nbrs.zipIdx.all (fun x => match dictGet (ports swname) x.2 with
      | none => false
      | some text => decide (x.1 <:+: text)) && decide (nbrs.length = (ports swname).length)

/-- The names in `devices[name]`; a name that is not there has none. -/
def neighbours (devices : Devices) (name : Text) : List Text := (dictGet devices name).getD []

/-- `len(devices[name])`. -/
def degree (devices : Devices) (name : Text) : ℕ := (neighbours devices name).length

/-- The switches in the order in which they are processed. -/
def sortedSwitches (isHost : Text → Bool) (devices : Devices) : List Text :=
  (((devices.map Prod.fst).filter (fun dev => !isHost dev)).insertionSort
    (fun x y => degree devices y ≤ degree devices x)).insertionSort (fun x y => textLe x y)

/-- `output_devices` up to the validation: the ports of all devices. -/
def outputPorts (isHost : Text → Bool) (devices : Devices) : Option DevPorts := do
  let state ← (sortedSwitches isHost devices).foldlM (processSwitch devices) ([], fun _ => [])
  some state.2

/-- `output_devices`: the list that is written as YAML. -/
def outputDevices (isHost : Text → Bool) (devices : Devices) :
    Option (List (Text × List (ℕ × Text))) := do
  let ports ← outputPorts isHost devices
  guard ((sortedSwitches isHost devices).all (validSwitch devices ports))
  some ((sortedSwitches isHost devices).map (fun swname => (swname, ports swname)))

/-- What the generators promise of `devices`. -/
structure DevicesOk (isHost : Text → Bool) (devices : Devices) : Prop where
  nodup : (devices.map Prod.fst).Nodup
  symm : ∀ s t, (neighbours devices s).count t = (neighbours devices t).count s
  no_loop : ∀ s, s ∉ neighbours devices s
  no_host_link : ∀ s, ∀ t ∈ neighbours devices s, isHost s = true → isHost t = false

section Positions

variable {l : List Text} {x y : Text} {i j k p : ℕ}

lemma mem_idxsOf_iff : p ∈ l.idxsOf x ↔ l[p]? = some x := by
  rw [List.mem_idxsOf_iff_exists_getElem_pos, List.getElem?_eq_some_iff]
  simp only [beq_iff_eq]

lemma idxsOf_getElem? (h : (l.idxsOf x)[k]? = some p) : l[p]? = some x :=
  mem_idxsOf_iff.mp (List.mem_of_getElem? h)

lemma idxsOf_inj (h : (l.idxsOf x)[i]? = some p) (h' : (l.idxsOf x)[j]? = some p) : i = j := by
  obtain ⟨hi, rfl⟩ := List.getElem?_eq_some_iff.mp h
  obtain ⟨hj, heq⟩ := List.getElem?_eq_some_iff.mp h'
  exact (List.nodup_idxsOf.getElem_inj_iff.mp heq).symm

/-- The `k`-th position comes behind the positions before it and only those. -/
lemma idxsOf_lt_iff {q : ℕ} (h : (l.idxsOf x)[i]? = some p) (h' : (l.idxsOf x)[j]? = some q) :
    i < j ↔ p < q := by
  obtain ⟨hi, rfl⟩ := List.getElem?_eq_some_iff.mp h
  obtain ⟨hj, rfl⟩ := List.getElem?_eq_some_iff.mp h'
  exact (List.pairwise_idxsOf.sortedLT.strictMono_get.lt_iff_lt (a := ⟨i, hi⟩) (b := ⟨j, hj⟩)).symm

end Positions

section Pairing

variable {nb : Text → List Text} {s t t' : Text} {p q q' : ℕ} {c : Text → ℕ}
  {d : List (ℕ × Text)}

lemma portText_inj {a b : Text} {m n : ℕ} (h : portText a m = portText b n) : a = b ∧ m = n := by
  have hsplit : ∀ (a : Text) (m : ℕ),
      portText a m = (a ++ " port".toList) ++ ' ' :: digits m := fun a m => by simp [portText]
  rw [hsplit, hsplit] at h
  have hdig := append_blank_inj (blank_not_mem_digits m) (blank_not_mem_digits n) h
  exact ⟨List.append_cancel_right hdig.1, digits_injective hdig.2⟩

/-- Port `p` of `s` and port `q` of `t` are the ends of one link: they have the same place among
the ports to each other. -/
def Peer (nb : Text → List Text) (s : Text) (p : ℕ) (t : Text) (q : ℕ) : Prop :=
  ∃ k : ℕ, ((nb s).idxsOf t)[k]? = some p ∧ ((nb t).idxsOf s)[k]? = some q

lemma Peer.symm (h : Peer nb s p t q) : Peer nb t q s p := by
  obtain ⟨k, hp, hq⟩ := h
  exact ⟨k, hq, hp⟩

lemma Peer.getElem? (h : Peer nb s p t q) : (nb s)[p]? = some t := by
  obtain ⟨k, hp, -⟩ := h
  exact idxsOf_getElem? hp

lemma Peer.unique (h : Peer nb s p t q) (h' : Peer nb s p t' q') : t = t' ∧ q = q' := by
  have ht : t = t' := Option.some.inj (h.getElem?.symm.trans h'.getElem?)
  subst ht
  obtain ⟨k, hp, hq⟩ := h
  obtain ⟨k', hp', hq'⟩ := h'
  have hk := idxsOf_inj hp hp'
  subst hk
  exact ⟨rfl, Option.some.inj (hq.symm.trans hq')⟩

lemma exists_peer (hsymm : ∀ t, (nb s).count t = (nb t).count s) (h : (nb s)[p]? = some t) :
    ∃ q, Peer nb s p t q := by
  obtain ⟨k, hk⟩ := List.mem_iff_getElem?.mp (mem_idxsOf_iff.mpr h)
  have hlt : k < ((nb t).idxsOf s).length := by
    rw [List.length_idxsOf, ← hsymm t, ← List.length_idxsOf (s := 0)]
    exact (List.getElem?_eq_some_iff.mp hk).1
  exact ⟨_, k, hk, List.getElem?_eq_getElem hlt⟩

/-- The first `c t` links from `s` to each `t` have their ports, and nothing else has. -/
structure LinkedAt (nb : Text → List Text) (s : Text) (c : Text → ℕ) (d : List (ℕ × Text)) :
    Prop where
  nodup : (d.map Prod.fst).Nodup
  get : ∀ p x, dictGet d p = some x ↔ ∃ (t : Text) (k q : ℕ), k < c t ∧ ((nb s).idxsOf t)[k]? = some p ∧
    ((nb t).idxsOf s)[k]? = some q ∧ x = portText t q

lemma LinkedAt.mem_keys (h : LinkedAt nb s c d) (hsymm : ∀ t, (nb s).count t = (nb t).count s) :
    p ∈ d.map Prod.fst ↔ ∃ (t : Text) (k : ℕ), k < c t ∧ ((nb s).idxsOf t)[k]? = some p := by
  constructor
  · intro hp
    obtain ⟨x, hx⟩ := Option.ne_none_iff_exists'.mp (fun hn => dictGet_eq_none.mp hn hp)
    obtain ⟨t, k, q, hk, hget, -, -⟩ := (h.get p x).mp hx
    exact ⟨t, k, hk, hget⟩
  · rintro ⟨t, k, hk, hget⟩
    obtain ⟨q, k', hp, hq⟩ := exists_peer hsymm (idxsOf_getElem? hget)
    have hkk := idxsOf_inj hp hget
    subst hkk
    by_contra hp
    have hsome := (h.get p (portText t q)).mpr ⟨t, k', q, hk, hget, hq, rfl⟩
    rw [dictGet_eq_none.mpr hp] at hsome
    cases hsome

/-- The search finds the next link to `t`, and its position has no port. -/
lemma LinkedAt.searchPort_eq (h : LinkedAt nb s c d)
    (hsymm : ∀ t, (nb s).count t = (nb t).count s) (hp : ((nb s).idxsOf t)[c t]? = some p)
    (before : Option ℕ) :
    searchPort before (nb s) d t = some p ∧ p ≠ (nb s).length ∧ p ∉ d.map Prod.fst := by
  have hnbr := idxsOf_getElem? hp
  have hlt : p < (nb s).length := (List.getElem?_eq_some_iff.mp hnbr).1
  have hfree : p ∉ d.map Prod.fst := by
    intro hmem
    obtain ⟨t', k, hk, hget⟩ := (h.mem_keys hsymm).mp hmem
    have ht : t = t' := Option.some.inj (hnbr.symm.trans (idxsOf_getElem? hget))
    subst ht
    have := idxsOf_inj hp hget
    omega
  -- every earlier position of `t` belongs to a link that has its ports
  have hused : ∀ j, j < p → (nb s)[j]? = some t → j ∈ d.map Prod.fst := by
    intro j hj hjt
    obtain ⟨k, hk⟩ := List.mem_iff_getElem?.mp (mem_idxsOf_iff.mpr hjt)
    exact (h.mem_keys hsymm).mpr ⟨t, k, (idxsOf_lt_iff hk hp).mpr hj, hk⟩
  refine ⟨?_, by omega, hfree⟩
  unfold searchPort
  rw [List.find?_range_eq_some.mpr]
  refine ⟨decide_eq_true ⟨hnbr, hfree⟩, List.mem_range.mpr hlt, fun j hj => ?_⟩
  rw [Bool.not_eq_true', decide_eq_false_iff_not]
  exact fun hjt => hjt.2 (hused j hj hjt.1)

lemma LinkedAt.set (h : LinkedAt nb s c d) (hfree : p ∉ d.map Prod.fst)
    (hp : ((nb s).idxsOf t)[c t]? = some p) (hq : ((nb t).idxsOf s)[c t]? = some q) :
    LinkedAt nb s (Function.update c t (c t + 1)) (dictSet d p (portText t q)) where
  nodup := nodup_keys_dictSet h.nodup
  get := by
    intro p' x
    rw [dictGet_dictSet_of_not_mem hfree]
    by_cases hpp : p' = p
    · subst hpp
      rw [if_pos rfl, Option.some.injEq]
      constructor
      · intro hx
        exact ⟨t, c t, q, by simp, hp, hq, hx.symm⟩
      · rintro ⟨t', k, q', hk, hget, hget', hx⟩
        have hpeer : Peer nb s p' t' q' := ⟨k, hget, hget'⟩
        obtain ⟨ht, hq'⟩ := hpeer.unique ⟨c t, hp, hq⟩
        rw [hx, ht, hq']
    · rw [if_neg hpp, h.get]
      constructor
      · rintro ⟨t', k, q', hk, hrest⟩
        refine ⟨t', k, q', ?_, hrest⟩
        by_cases ht : t' = t
        · subst ht
          simp only [Function.update_self]
          omega
        · rwa [Function.update_of_ne ht]
      · rintro ⟨t', k, q', hk, hget, hrest⟩
        refine ⟨t', k, q', ?_, hget, hrest⟩
        by_cases ht : t' = t
        · subst ht
          rw [Function.update_self] at hk
          have hne : k ≠ c t' := by
            intro hkc
            subst hkc
            exact hpp (Option.some.inj (hget.symm.trans hp))
          omega
        · rwa [Function.update_of_ne ht] at hk

end Pairing

section Assign

variable {isHost : Text → Bool} {devices : Devices} {ports : DevPorts} {s t : Text}
  {c : Text → Text → ℕ} {P l r : List Text}

lemma dictGet_of_mem_neighbours (h : t ∈ neighbours devices s) :
    dictGet devices s = some (neighbours devices s) := by
  unfold neighbours at h ⊢
  cases hget : dictGet devices s with
  | none => simp [hget] at h
  | some nbrs => rfl

lemma DevicesOk.mem_symm (hd : DevicesOk isHost devices) (h : t ∈ neighbours devices s) :
    s ∈ neighbours devices t := by
  rw [← List.count_pos_iff] at h ⊢
  rwa [← hd.symm s t]

lemma neighbours_eq_nil (h : s ∉ devices.map Prod.fst) : neighbours devices s = [] := by
  unfold neighbours
  rw [dictGet_eq_none.mpr h]
  rfl

lemma devicesOk_iff : DevicesOk isHost devices ↔ (devices.map Prod.fst).Nodup ∧
    (∀ s ∈ devices.map Prod.fst, ∀ t ∈ devices.map Prod.fst,
      (neighbours devices s).count t = (neighbours devices t).count s) ∧
    ∀ s ∈ devices.map Prod.fst, ∀ t ∈ neighbours devices s, t ∈ devices.map Prod.fst ∧ t ≠ s ∧
      (isHost s = true → isHost t = false) := by
  constructor
  · intro hd
    refine ⟨hd.nodup, fun s _ t _ => hd.symm s t, fun s _ t ht => ⟨?_, ?_, hd.no_host_link s t ht⟩⟩
    · exact List.mem_map_of_mem (mem_of_dictGet (dictGet_of_mem_neighbours (hd.mem_symm ht)))
    · rintro rfl
      exact hd.no_loop t ht
  · rintro ⟨hn, hcount, hnbr⟩
    have hkey : ∀ s, ∀ t ∈ neighbours devices s, s ∈ devices.map Prod.fst := fun s t ht =>
      List.mem_map_of_mem (mem_of_dictGet (dictGet_of_mem_neighbours ht))
    have hzero : ∀ s t, s ∉ devices.map Prod.fst →
        (neighbours devices s).count t = (neighbours devices t).count s := by
      intro s t hs
      rw [neighbours_eq_nil hs, List.count_nil, eq_comm, List.count_eq_zero]
      exact fun hst => hs (hnbr t (hkey t s hst) s hst).1
    refine ⟨hn, fun s t => ?_, fun s hs => ?_, fun s t ht => ?_⟩
    · by_cases hs : s ∈ devices.map Prod.fst
      · by_cases ht : t ∈ devices.map Prod.fst
        · exact hcount s hs t ht
        · exact (hzero t s ht).symm
      · exact hzero s t hs
    · exact (hnbr s (hkey s s hs) s hs).2.1 rfl
    · exact (hnbr s (hkey s t ht) t ht).2.2

instance : Decidable (DevicesOk isHost devices) := decidable_of_iff _ devicesOk_iff.symm

/-- `c` with one more link between `s` and `t`. -/
def addLink (c : Text → Text → ℕ) (s t : Text) : Text → Text → ℕ :=
  Function.update (Function.update c s (Function.update (c s) t (c s t + 1))) t
    (Function.update (c t) s (c t s + 1))

lemma addPort_linked (hd : DevicesOk isHost devices)
    (h : ∀ a, LinkedAt (neighbours devices) a (c a) (ports a)) (hc : c s t = c t s) (hne : s ≠ t)
    (hlt : c s t < (neighbours devices s).count t) :
    ∃ ports', addPort devices ports s t = some ports' ∧
      ∀ a, LinkedAt (neighbours devices) a (addLink c s t a) (ports' a) := by
  have hmem : t ∈ neighbours devices s := List.count_pos_iff.mp (by omega)
  have hgs := dictGet_of_mem_neighbours hmem
  have hgt := dictGet_of_mem_neighbours (hd.mem_symm hmem)
  obtain ⟨p, hp⟩ : ∃ p, ((neighbours devices s).idxsOf t)[c s t]? = some p :=
    ⟨_, List.getElem?_eq_getElem (by rwa [List.length_idxsOf])⟩
  obtain ⟨q, hq⟩ : ∃ q, ((neighbours devices t).idxsOf s)[c s t]? = some q :=
    ⟨_, List.getElem?_eq_getElem (by rwa [List.length_idxsOf, ← hd.symm])⟩
  obtain ⟨hsp, hplen, hpfree⟩ :=
    (h s).searchPort_eq (hd.symm s) hp (some (ports s).length)
  obtain ⟨hsq, hqlen, hqfree⟩ := (h t).searchPort_eq (hd.symm t) (hc ▸ hq) none
  have hrun : addPort devices ports s t = some (Function.update (Function.update ports s
      (dictSet (ports s) p (portText t q))) t (dictSet (ports t) q (portText s p))) := by
    have hother : Function.update ports s (dictSet (ports s) p (portText t q)) t = ports t :=
      Function.update_of_ne hne.symm ..
    unfold addPort
    simp only [hgs, hgt, hsp, hsq, guard, if_pos hplen, if_pos hpfree, if_pos hqlen, if_pos hqfree,
      hother, Option.pure_def, Option.bind_eq_bind, Option.bind_some]
  refine ⟨_, hrun, fun a => ?_⟩
  unfold addLink
  by_cases hat : a = t
  · subst hat
    rw [Function.update_self, Function.update_self]
    exact (h a).set hqfree (hc ▸ hq) (hc ▸ hp)
  · rw [Function.update_of_ne hat, Function.update_of_ne hat]
    by_cases has : a = s
    · subst has
      rw [Function.update_self, Function.update_self]
      exact (h a).set hpfree hp hq
    · rw [Function.update_of_ne has, Function.update_of_ne has]
      exact h a

/-- The number of links between two devices that have ports when the switches `P` are done and
`s` is done with the first neighbours `l`. -/
def linkCount (devices : Devices) (P : List Text) (s : Text) (l : List Text) (a b : Text) : ℕ :=
  if a ∈ P ∨ b ∈ P then (neighbours devices a).count b
  else if a = s then l.count b else if b = s then l.count a else 0

lemma linkCount_skip (ht : t ∈ P) :
    linkCount devices P s (l ++ [t]) = linkCount devices P s l := by
  have hcount : ∀ b, b ∉ P → (l ++ [t]).count b = l.count b := by
    intro b hb
    have hne : t ≠ b := fun heq => hb (heq ▸ ht)
    simp [hne]
  funext a b
  unfold linkCount
  by_cases hP : a ∈ P ∨ b ∈ P
  · rw [if_pos hP, if_pos hP]
  · rw [not_or] at hP
    simp only [hP.1, hP.2, or_self, if_false, hcount a hP.1, hcount b hP.2]

lemma linkCount_add (hs : s ∉ P) (ht : t ∉ P) (hst : s ≠ t) :
    addLink (linkCount devices P s l) s t = linkCount devices P s (l ++ [t]) := by
  have hself : (l ++ [t]).count t = l.count t + 1 := by simp
  have hother : ∀ b, b ≠ t → (l ++ [t]).count b = l.count b := by
    intro b hb
    simp [Ne.symm hb]
  funext a b
  unfold addLink
  by_cases hat : a = t
  · subst hat
    rw [Function.update_self]
    by_cases hbs : b = s
    · subst hbs
      simp [linkCount, hs, ht, hst.symm]
    · rw [Function.update_of_ne hbs]
      simp [linkCount, ht, hst.symm, hbs]
  · rw [Function.update_of_ne hat]
    by_cases has : a = s
    · subst has
      rw [Function.update_self]
      by_cases hbt : b = t
      · subst hbt
        simp [linkCount, hs, ht]
      · rw [Function.update_of_ne hbt]
        simp [linkCount, hs, hother b hbt]
    · rw [Function.update_of_ne has]
      simp [linkCount, has, hother a hat]

lemma linkCount_symm (hd : DevicesOk isHost devices) (a b : Text) :
    linkCount devices P s l a b = linkCount devices P s l b a := by
  unfold linkCount
  by_cases hP : a ∈ P ∨ b ∈ P
  · rw [if_pos hP, if_pos (Or.symm hP), hd.symm]
  · rw [if_neg hP, if_neg (fun h => hP (Or.symm h))]
    by_cases ha : a = s <;> by_cases hb : b = s <;> simp [ha, hb]

/-- The loop over the neighbours of `s` gives a port to every link of `s`. -/
lemma linkNeighbours_linked (hd : DevicesOk isHost devices) (hs : s ∉ P)
    (hsplit : neighbours devices s = l ++ r)
    (h : ∀ a, LinkedAt (neighbours devices) a (linkCount devices P s l a) (ports a)) :
    ∃ ports', r.foldlM (linkNeighbour devices (s :: P) s) ports = some ports' ∧
      ∀ a, LinkedAt (neighbours devices) a (linkCount devices P s (l ++ r) a) (ports' a) := by
  induction r generalizing l ports with
  | nil => exact ⟨ports, rfl, by simpa using h⟩
  | cons t r ih =>
    have hmem : ∀ x ∈ l ++ t :: r, x ≠ s := by
      intro x hx heq
      exact hd.no_loop s (hsplit ▸ heq ▸ hx)
    have hts : t ≠ s := hmem t (by simp)
    rw [List.append_cons] at hsplit ⊢
    rw [List.foldlM_cons]
    unfold linkNeighbour
    by_cases ht : t ∈ P
    · rw [if_pos (List.mem_cons_of_mem s ht)]
      rw [← linkCount_skip ht] at h
      exact ih hsplit h
    · rw [if_neg (by simp [ht, hts])]
      have hcount : linkCount devices P s l s t = l.count t := by simp [linkCount, hs, ht]
      have hlt : linkCount devices P s l s t < (neighbours devices s).count t := by
        rw [hcount, hsplit, List.count_append, List.count_append, List.count_singleton_self]
        omega
      obtain ⟨ports', hrun, h'⟩ :=
        addPort_linked hd h (linkCount_symm hd s t) hts.symm hlt
      rw [linkCount_add hs ht hts.symm] at h'
      obtain ⟨ports'', hrest, hlast⟩ := ih hsplit h'
      refine ⟨ports'', ?_, hlast⟩
      rw [hrun]
      exact hrest

/-- The number of links that have ports when the switches `P` are done. -/
def doneCount (devices : Devices) (P : List Text) (a b : Text) : ℕ :=
  if a ∈ P ∨ b ∈ P then (neighbours devices a).count b else 0

lemma linkCount_nil : linkCount devices P s [] = doneCount devices P := by
  funext a b
  simp [linkCount, doneCount]

lemma linkCount_neighbours (hd : DevicesOk isHost devices) :
    linkCount devices P s (neighbours devices s) = doneCount devices (s :: P) := by
  funext a b
  unfold linkCount doneCount
  by_cases hP : a ∈ P ∨ b ∈ P
  · rw [if_pos hP, if_pos (hP.imp (List.mem_cons_of_mem s) (List.mem_cons_of_mem s))]
  · rw [if_neg hP]
    rw [not_or] at hP
    by_cases ha : a = s
    · subst ha
      simp
    · by_cases hb : b = s
      · subst hb
        simp [ha, hd.symm a b]
      · simp [ha, hb, hP.1, hP.2]

lemma processSwitch_linked (hd : DevicesOk isHost devices) (hs : s ∉ P)
    (hkey : s ∈ devices.map Prod.fst)
    (h : ∀ a, LinkedAt (neighbours devices) a (doneCount devices P a) (ports a)) :
    ∃ ports', processSwitch devices (P, ports) s = some (s :: P, ports') ∧
      ∀ a, LinkedAt (neighbours devices) a (doneCount devices (s :: P) a) (ports' a) := by
  obtain ⟨nbrs, hget⟩ := Option.ne_none_iff_exists'.mp fun hn => dictGet_eq_none.mp hn hkey
  have hnbrs : neighbours devices s = [] ++ nbrs := by
    unfold neighbours
    rw [hget]
    rfl
  rw [← linkCount_nil] at h
  obtain ⟨ports', hrun, h'⟩ := linkNeighbours_linked hd hs hnbrs h
  rw [← hnbrs, linkCount_neighbours hd] at h'
  refine ⟨ports', ?_, h'⟩
  unfold processSwitch
  rw [hget]
  exact congrArg (Option.bind · _) hrun

lemma processSwitches_linked (hd : DevicesOk isHost devices) (hn : l.Nodup)
    (hkey : ∀ x ∈ l, x ∈ devices.map Prod.fst ∧ x ∉ P)
    (h : ∀ a, LinkedAt (neighbours devices) a (doneCount devices P a) (ports a)) :
    ∃ state, l.foldlM (processSwitch devices) (P, ports) = some state ∧
      (∀ x, x ∈ state.1 ↔ x ∈ l ∨ x ∈ P) ∧
      ∀ a, LinkedAt (neighbours devices) a (doneCount devices state.1 a) (state.2 a) := by
  induction l generalizing P ports with
  | nil => exact ⟨(P, ports), rfl, by simp, h⟩
  | cons s l ih =>
    rw [List.nodup_cons] at hn
    have hs := hkey s List.mem_cons_self
    obtain ⟨ports', hrun, h'⟩ := processSwitch_linked hd hs.2 hs.1 h
    have hrest : ∀ x ∈ l, x ∈ devices.map Prod.fst ∧ x ∉ s :: P := by
      intro x hx
      have hxs : x ≠ s := fun heq => hn.1 (heq ▸ hx)
      have hx' := hkey x (List.mem_cons_of_mem s hx)
      exact ⟨hx'.1, by simp [hxs, hx'.2]⟩
    obtain ⟨state, hfold, hmem, hlast⟩ := ih hn.2 hrest h'
    refine ⟨state, ?_, ?_, hlast⟩
    · rw [List.foldlM_cons, hrun]
      exact hfold
    · intro x
      rw [hmem, List.mem_cons, List.mem_cons]
      tauto

lemma sortedSwitches_perm (isHost : Text → Bool) (devices : Devices) :
    (sortedSwitches isHost devices).Perm
      ((devices.map Prod.fst).filter (fun dev => !isHost dev)) :=
  (List.perm_insertionSort _ _).trans (List.perm_insertionSort _ _)

lemma mem_sortedSwitches {x : Text} : x ∈ sortedSwitches isHost devices ↔
    x ∈ devices.map Prod.fst ∧ isHost x = false := by
  rw [(sortedSwitches_perm isHost devices).mem_iff, List.mem_filter, Bool.not_eq_true']

/-- What stands at the ports when all links have ports. -/
structure PortsOf (nb : Text → List Text) (ports : DevPorts) : Prop where
  nodup : ∀ s, ((ports s).map Prod.fst).Nodup
  get : ∀ s p x, dictGet (ports s) p = some x ↔ ∃ t q, Peer nb s p t q ∧ x = portText t q

lemma outputPorts_eq (hd : DevicesOk isHost devices) :
    ∃ ports, outputPorts isHost devices = some ports ∧ PortsOf (neighbours devices) ports := by
  have hn : (sortedSwitches isHost devices).Nodup :=
    (sortedSwitches_perm isHost devices).nodup_iff.mpr (hd.nodup.filter _)
  have hstart : ∀ a, LinkedAt (neighbours devices) a (doneCount devices [] a)
      ((fun _ => [] : DevPorts) a) := by
    intro a
    exact ⟨by simp, by simp [doneCount, dictGet]⟩
  obtain ⟨state, hfold, hmem, hlast⟩ := processSwitches_linked hd hn
    (fun x hx => ⟨(mem_sortedSwitches.mp hx).1, List.not_mem_nil⟩) hstart
  have hall : ∀ a b, doneCount devices state.1 a b = (neighbours devices a).count b := by
    intro a b
    unfold doneCount
    split
    · rfl
    · rename_i hout
      by_contra hne
      have hb : b ∈ neighbours devices a := by
        rw [← List.count_pos_iff]
        omega
      -- a link has a switch at one of its ends
      have hdone : ∀ x y, y ∈ neighbours devices x → x ∉ state.1 → isHost x = true := by
        intro x y hy hx
        by_contra hsw
        have hkey : x ∈ devices.map Prod.fst :=
          List.mem_map_of_mem (mem_of_dictGet (dictGet_of_mem_neighbours hy))
        exact hx ((hmem x).mpr (.inl (mem_sortedSwitches.mpr ⟨hkey, by simpa using hsw⟩)))
      rw [not_or] at hout
      have ha := hdone a b hb hout.1
      have hb' := hdone b a (hd.mem_symm hb) hout.2
      rw [hd.no_host_link a b hb ha] at hb'
      cases hb'
  refine ⟨state.2, ?_, fun s => (hlast s).nodup, fun s p x => ?_⟩
  · unfold outputPorts
    rw [hfold]
    rfl
  · rw [(hlast s).get]
    simp only [hall]
    constructor
    · rintro ⟨t, k, q, -, hp, hq, rfl⟩
      exact ⟨t, q, ⟨k, hp, hq⟩, rfl⟩
    · rintro ⟨t, q, ⟨k, hp, hq⟩, rfl⟩
      refine ⟨t, k, q, ?_, hp, hq, rfl⟩
      rw [← List.length_idxsOf]
      exact (List.getElem?_eq_some_iff.mp hp).1

end Assign

section Output

variable {isHost : Text → Bool} {devices : Devices} {ports : DevPorts} {nb : Text → List Text}
  {s t : Text} {p q : ℕ}

lemma PortsOf.get_portText (h : PortsOf nb ports) :
    dictGet (ports s) p = some (portText t q) ↔ Peer nb s p t q := by
  rw [h.get]
  constructor
  · rintro ⟨t', q', hpeer, htext⟩
    obtain ⟨rfl, rfl⟩ := portText_inj htext
    exact hpeer
  · exact fun hpeer => ⟨t, q, hpeer, rfl⟩

lemma PortsOf.keys_perm (h : PortsOf nb ports) (hsymm : ∀ t, (nb s).count t = (nb t).count s) :
    ((ports s).map Prod.fst).Perm (List.range (nb s).length) := by
  rw [List.perm_ext_iff_of_nodup (h.nodup s) List.nodup_range]
  intro p
  rw [List.mem_range]
  constructor
  · intro hp
    obtain ⟨x, hx⟩ := Option.ne_none_iff_exists'.mp fun hn => dictGet_eq_none.mp hn hp
    obtain ⟨t, q, hpeer, -⟩ := (h.get s p x).mp hx
    exact (List.getElem?_eq_some_iff.mp hpeer.getElem?).1
  · intro hp
    obtain ⟨q, hpeer⟩ := exists_peer hsymm (List.getElem?_eq_getElem hp)
    by_contra hn
    have hget := h.get_portText.mpr hpeer
    rw [dictGet_eq_none.mpr hn] at hget
    cases hget

lemma validSwitch_eq_true (hd : DevicesOk isHost devices)
    (h : PortsOf (neighbours devices) ports) (hs : s ∈ devices.map Prod.fst) :
    validSwitch devices ports s = true := by
  obtain ⟨nbrs, hget⟩ := Option.ne_none_iff_exists'.mp fun hn => dictGet_eq_none.mp hn hs
  have hnbrs : neighbours devices s = nbrs := by
    unfold neighbours
    rw [hget]
    rfl
  have hlen := (h.keys_perm (hd.symm s)).length_eq
  rw [List.length_map, List.length_range, hnbrs] at hlen
  unfold validSwitch
  rw [hget]
  dsimp only
  rw [Bool.and_eq_true, List.all_eq_true]
  constructor
  · rintro ⟨t, p⟩ hx
    rw [List.mem_zipIdx_iff_getElem?, ← hnbrs] at hx
    obtain ⟨q, hpeer⟩ := exists_peer (hd.symm s) hx
    rw [h.get_portText.mpr hpeer]
    have hprefix : t <+: portText t q := ⟨_, (List.append_assoc ..).symm⟩
    exact decide_eq_true hprefix.isInfix
  · exact decide_eq_true hlen.symm

/-- No assertion fails, and the switches are written with their ports. -/
lemma outputDevices_eq (hd : DevicesOk isHost devices) :
    ∃ ports, outputPorts isHost devices = some ports ∧ PortsOf (neighbours devices) ports ∧
      outputDevices isHost devices =
        some ((sortedSwitches isHost devices).map (fun s => (s, ports s))) := by
  obtain ⟨ports, hassign, hports⟩ := outputPorts_eq hd
  have hvalid : (sortedSwitches isHost devices).all (validSwitch devices ports) = true :=
    List.all_eq_true.mpr fun s hs =>
      validSwitch_eq_true hd hports (mem_sortedSwitches.mp hs).1
  refine ⟨ports, hassign, hports, ?_⟩
  unfold outputDevices
  rw [hassign, Option.bind_eq_bind, Option.bind_some, hvalid]
  rfl

end Output

end ResSim
