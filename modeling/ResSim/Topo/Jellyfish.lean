import ResSim.Lib.Loop
import ResSim.Lib.NeighbourLists
import ResSim.Lib.Random
import ResSim.Topo.Generate

/-!
# Wiring a jellyfish

`connect_ports` links random ports in three phases. The first one links switches that are not
linked yet, and gives up after a while. With fewer switches than ports per switch the second one
links the ports that are left, also twice. The last one splits links that were recorded, to use the
ports of a switch in pairs. The record of the links only grows, so a link that was split can be
drawn again.
-/

namespace ResSim

/-- `'switch%d' % i`. -/
def jellyfishName (i : ℕ) : Text := "switch".toList ++ digits i

def jellyfishSwitches (N : ℕ) : List Text := (List.range N).map jellyfishName

/-- The loop that runs, with what it counts: the passes of the first one, and the ports that are
left at each switch in the last one. -/
inductive Phase where
  | ports (index : ℕ)
  | hack
  | expand (remsws : List (Text × ℕ))
  deriving DecidableEq

/-- The local variables of `connect_ports`. -/
structure Jelly where
  phase : Phase
  devices : Devices
  links : List (Text × Text)
  U : List Text
  rnd : Rnd

/-- `devices[dev]`. -/
def portsOf (devices : Devices) (dev : Text) : Except TopoError (List Text) :=
  match dictGet devices dev with
  | none => .error .key
  | some nbrs => .ok nbrs

/-- `devices[dev].remove(other)`. -/
def removeFrom (devices : Devices) (dev other : Text) : Except TopoError Devices :=
  match dictGet devices dev with
  | none => .error .key
  | some nbrs =>
    if other ∈ nbrs then .ok (dictSet devices dev (nbrs.erase other))
    else .error (.value "list.remove(x): x not in list".toList)

/-- `random.choice(l)`. -/
def pick {α : Type} (draw : ℕ) (l : List α) : Except TopoError α :=
  match choice draw l with
  | none => .error .index
  | some a => .ok a

/-- Links the switches of two ports of `U`. -/
def joinPorts (s : Jelly) (i j : Text) (phase : Phase) (rnd : Rnd) : Except TopoError Jelly := do
  let devices ← appendTo s.devices i j
  let devices ← appendTo devices j i
  .ok ⟨phase, devices, s.links ++ [(i, j)], (s.U.erase i).erase j, rnd⟩

/-- Replaces the link between `i` and `j` by links of `sw` to both of them. -/
def splitLink (s : Jelly) (i j sw : Text) (phase : Phase) (rnd : Rnd) :
    Except TopoError Jelly := do
  let devices ← removeFrom s.devices i j
  let devices ← removeFrom devices j i
  let devices ← appendTo devices i sw
  let devices ← appendTo devices sw i
  let devices ← appendTo devices j sw
  let devices ← appendTo devices sw j
  .ok ⟨phase, devices, s.links ++ [(i, sw)] ++ [(j, sw)], s.U, rnd⟩

/-- `i not in devices[j] and j not in devices[i]`. -/
def unlinked (devices : Devices) (i j : Text) : Except TopoError Bool := do
  let nbrsj ← portsOf devices j
  let nbrsi ← portsOf devices i
  .ok (decide (i ∉ nbrsj ∧ j ∉ nbrsi))

/-- `len(U) == 2 and (U[0] == U[1] or U[0] in devices[U[1]])`. -/
def lastPair (devices : Devices) : List Text → Except TopoError Bool
  | [a, b] =>
    if a = b then .ok true
    else do
      let nbrs ← portsOf devices b
      .ok (decide (a ∈ nbrs))
  | _ => .ok false

/-- `count_rem_ports`. -/
def countRemPorts (d : List (Text × ℕ)) (v : Text) : List (Text × ℕ) :=
  match dictGet d v with
  | some n => dictSet d v (n + 1)
  | none => dictSet d v 1

section Passes

-- a dict lists its items in an order that depends on the hashes of its keys
variable (N r : ℕ) (order : List (Text × ℕ) → List (Text × ℕ))

/-- One pass of the first loop. -/
def portsPass (s : Jelly) (index : ℕ) : Except TopoError Jelly :=
  if s.U = [] ∨ 100000 ≤ index + 1 then .ok { s with phase := .hack }
  else do
    if ← lastPair s.devices s.U then .ok { s with phase := .hack }
    else
      let i ← pick (s.rnd 0) s.U
      let j ← pick (s.rnd 1) s.U
      let next : Jelly := { s with phase := .ports (index + 1), rnd := s.rnd.next.next }
      if i = j then .ok next
      else
        if ← unlinked s.devices i j then joinPorts s i j next.phase next.rnd else .ok next

/-- The ports that are left are counted for the last loop. -/
def countPorts (s : Jelly) (rnd : Rnd) : Jelly :=
  { s with phase := .expand (order (s.U.foldl countRemPorts [])), rnd }

/-- One pass of the second loop. -/
def hackPass (s : Jelly) : Except TopoError Jelly :=
  if s.U = [] ∨ r ≤ N ∨ (s.U.length = 2 ∧ s.U[0]? = s.U[1]?) then .ok (countPorts order s s.rnd)
  else do
    let i ← pick (s.rnd 0) s.U
    let j ← pick (s.rnd 1) s.U
    let rnd := s.rnd.next.next
    if s.U.all (i = ·) then .ok (countPorts order s rnd)
    else if i = j then .ok { s with rnd }
    else joinPorts s i j .hack rnd

/-- One pass of the last loop with ports left at `sw`: a link is drawn, and it is split unless
`sw` is linked to an end of it or is one. -/
def expandPass (s : Jelly) (sw : Text) (numports : ℕ) (rest : List (Text × ℕ)) :
    Except TopoError Jelly := do
  let (i, j) ← pick (s.rnd 0) s.links
  let nbrs ← portsOf s.devices sw
  if i = sw ∨ j = sw ∨ i ∈ nbrs ∨ j ∈ nbrs then .ok { s with rnd := s.rnd.next }
  else splitLink s i j sw (.expand ((sw, numports - 2) :: rest)) s.rnd.next

/-- One pass of the loop that runs. -/
def connectPass (s : Jelly) : Except TopoError Jelly :=
  match s.phase with
  | .ports index => portsPass s index
  | .hack => hackPass N r order s
  | .expand [] => .ok s
  | .expand ((sw, numports) :: rest) =>
    if 2 ≤ numports then expandPass s sw numports rest
    else .ok { s with phase := .expand rest }

/-- A pass, the end of the last loop, or an exception. -/
def connectStep (s : Jelly) : Step Jelly (Except TopoError Devices) :=
  if s.phase = .expand [] then .done (.ok s.devices)
  else
    match connectPass N r order s with
    | .error e => .done (.error e)
    | .ok s' => .next s'

end Passes

/-- The variables of `connect_ports` at its start. -/
def connectStart (N r : ℕ) (hosts : List Text) (rnd : Rnd) : Jelly where
  phase := .ports 0
  devices := startDevices (jellyfishSwitches N) hosts
  links := []
  U := (List.range r).flatMap fun _ => jellyfishSwitches N
  rnd := rnd

/-- `connect_ports` of the `N` switches with `r` ports each. -/
def connectPorts (N r : ℕ) (order : List (Text × ℕ) → List (Text × ℕ)) (hosts : List Text)
    (fuel : ℕ) (rnd : Rnd) : Option (Except TopoError Devices) :=
  Loop.run (connectStep N r order) fuel (connectStart N r hosts rnd)

/-! ### Links of devices -/

section Devices

variable {devices devices' : Devices} {dev other i j sw : Text} {s : Jelly} {phase : Phase}
  {rnd : Rnd}

lemma portsOf_eq (h : dev ∈ devices.map Prod.fst) :
    portsOf devices dev = .ok (neighbours devices dev) := by
  rw [portsOf, neighbours]
  cases hget : dictGet devices dev with
  | none => exact absurd h (dictGet_eq_none.mp hget)
  | some nbrs => rfl

lemma unlinked_eq (hi : i ∈ devices.map Prod.fst) (hj : j ∈ devices.map Prod.fst) :
    unlinked devices i j = .ok (decide (i ∉ neighbours devices j ∧ j ∉ neighbours devices i)) := by
  simp only [unlinked, portsOf_eq hi, portsOf_eq hj, bind, Except.bind]

lemma lastPair_eq {U : List Text} (hU : ∀ x ∈ U, x ∈ devices.map Prod.fst) :
    ∃ b, lastPair devices U = .ok b := by
  unfold lastPair
  split
  · rename_i a b
    split
    · exact ⟨true, rfl⟩
    · rw [portsOf_eq (hU b (by simp))]
      exact ⟨_, rfl⟩
  · exact ⟨false, rfl⟩

lemma linksOf_singleton (a b x : Text) : linksOf [(a, b)] x = if x = a then [b] else [] := by
  by_cases h : x = a
  · simp [linksOf, h]
  · simp [linksOf, h, Ne.symm h]

lemma oneMore_of_appended (h : Appended devices ([(i, j)] ++ [(j, i)]) devices') :
    OneMore (neighbours devices) (neighbours devices') i j := by
  intro x
  rw [h.neighbours, linksOf_append, linksOf_singleton, linksOf_singleton,
    ← List.append_assoc (if x = i then [j] else [])]
  exact List.perm_append_comm

/-- Both ends of a new link are appended. -/
lemma appendBoth (hi : i ∈ devices.map Prod.fst) (hj : j ∈ devices.map Prod.fst) :
    ∃ devices₁ devices₂, appendTo devices i j = .ok devices₁ ∧
      appendTo devices₁ j i = .ok devices₂ ∧
      devices₂.map Prod.fst = devices.map Prod.fst ∧
      OneMore (neighbours devices) (neighbours devices₂) i j := by
  obtain ⟨devices₁, h₁, ha₁⟩ := appendTo_appended hi j
  obtain ⟨devices₂, h₂, ha₂⟩ := appendTo_appended (ha₁.keys ▸ hj) i
  have ha := ha₁.trans ha₂
  exact ⟨devices₁, devices₂, h₁, h₂, ha.keys, oneMore_of_appended ha⟩

lemma joinPorts_spec (hi : i ∈ s.devices.map Prod.fst) (hj : j ∈ s.devices.map Prod.fst) :
    ∃ devices, joinPorts s i j phase rnd =
        .ok ⟨phase, devices, s.links ++ [(i, j)], (s.U.erase i).erase j, rnd⟩ ∧
      devices.map Prod.fst = s.devices.map Prod.fst ∧
      OneMore (neighbours s.devices) (neighbours devices) i j := by
  obtain ⟨devices₁, devices₂, h₁, h₂, hkeys, hone⟩ := appendBoth hi hj
  refine ⟨devices₂, ?_, hkeys, hone⟩
  simp only [joinPorts, h₁, h₂, bind, Except.bind]

lemma removeFrom_spec (hdev : dev ∈ devices.map Prod.fst) (h : other ∈ neighbours devices dev) :
    ∃ devices', removeFrom devices dev other = .ok devices' ∧
      devices'.map Prod.fst = devices.map Prod.fst ∧
      ∀ x, neighbours devices' x =
        if x = dev then (neighbours devices dev).erase other else neighbours devices x := by
  cases hget : dictGet devices dev with
  | none => exact absurd hdev (dictGet_eq_none.mp hget)
  | some nbrs =>
    have hnbrs : neighbours devices dev = nbrs := by rw [neighbours, hget, Option.getD_some]
    refine ⟨dictSet devices dev (nbrs.erase other), ?_, keys_dictSet_of_mem hdev, fun x => ?_⟩
    · simp only [removeFrom, hget, if_pos (hnbrs ▸ h)]
    · rw [neighbours, dictGet_dictSet]
      by_cases hx : x = dev
      · rw [if_pos hx, if_pos hx, Option.getD_some, hnbrs]
      · rw [if_neg hx, if_neg hx, neighbours]

lemma removeFrom_error (hdev : dev ∈ devices.map Prod.fst) (h : other ∉ neighbours devices dev) :
    removeFrom devices dev other = .error (.value "list.remove(x): x not in list".toList) := by
  cases hget : dictGet devices dev with
  | none => exact absurd hdev (dictGet_eq_none.mp hget)
  | some nbrs =>
    have hnbrs : neighbours devices dev = nbrs := by rw [neighbours, hget, Option.getD_some]
    simp only [removeFrom, hget, if_neg (hnbrs ▸ h)]

/-- A link is removed at both of its ends. -/
lemma removeBoth (hi : i ∈ devices.map Prod.fst) (hj : j ∈ devices.map Prod.fst)
    (hg : IsMultigraph (neighbours devices)) (hij : i ≠ j) (h : j ∈ neighbours devices i) :
    ∃ devices₁ devices₂, removeFrom devices i j = .ok devices₁ ∧
      removeFrom devices₁ j i = .ok devices₂ ∧
      devices₂.map Prod.fst = devices.map Prod.fst ∧
      OneMore (neighbours devices₂) (neighbours devices) i j := by
  obtain ⟨devices₁, h₁, hk₁, hn₁⟩ := removeFrom_spec hi h
  have hji : neighbours devices₁ j = neighbours devices j := by rw [hn₁, if_neg hij.symm]
  have hback : i ∈ neighbours devices₁ j := hji ▸ hg.mem_comm.mp h
  obtain ⟨devices₂, h₂, hk₂, hn₂⟩ := removeFrom_spec (hk₁ ▸ hj) hback
  refine ⟨devices₁, devices₂, h₁, h₂, hk₂.trans hk₁, fun x => ?_⟩
  rw [hn₂]
  by_cases hxj : x = j
  · subst hxj
    rw [if_neg hij.symm, if_pos rfl, if_pos rfl, List.nil_append, hji]
    exact List.perm_cons_erase (hji ▸ hback)
  · rw [if_neg hxj, if_neg hxj, hn₁, List.nil_append]
    by_cases hxi : x = i
    · subst hxi
      rw [if_pos rfl, if_pos rfl]
      exact List.perm_cons_erase h
    · rw [if_neg hxi, if_neg hxi, List.nil_append]

lemma splitLink_spec (hi : i ∈ s.devices.map Prod.fst) (hj : j ∈ s.devices.map Prod.fst)
    (hsw : sw ∈ s.devices.map Prod.fst) (hg : IsMultigraph (neighbours s.devices)) (hij : i ≠ j)
    (h : j ∈ neighbours s.devices i) :
    ∃ devices, splitLink s i j sw phase rnd =
        .ok ⟨phase, devices, s.links ++ [(i, sw)] ++ [(j, sw)], s.U, rnd⟩ ∧
      devices.map Prod.fst = s.devices.map Prod.fst ∧
      Split (neighbours s.devices) (neighbours devices) i j sw := by
  obtain ⟨devices₁, devices₂, h₁, h₂, hk₂, hone₁⟩ := removeBoth hi hj hg hij h
  obtain ⟨devices₃, devices₄, h₃, h₄, hk₄, hone₂⟩ := appendBoth (hk₂ ▸ hi) (hk₂ ▸ hsw)
  have hk₄' := hk₄.trans hk₂
  obtain ⟨devices₅, devices₆, h₅, h₆, hk₆, hone₃⟩ := appendBoth (hk₄' ▸ hj) (hk₄' ▸ hsw)
  refine ⟨devices₆, ?_, hk₆.trans hk₄', _, _, hone₁, hone₂, hone₃⟩
  simp only [splitLink, h₁, h₂, h₃, h₄, h₅, h₆, bind, Except.bind]

lemma splitLink_error (hi : i ∈ s.devices.map Prod.fst) (h : j ∉ neighbours s.devices i) :
    splitLink s i j sw phase rnd =
      .error (.value "list.remove(x): x not in list".toList) := by
  simp only [splitLink, removeFrom_error hi h, bind, Except.bind]

end Devices

end ResSim
