import ResSim.Topo.Jellyfish

/-!
# What a jellyfish run keeps

The passes of the three loops as moves of a transition system: a port count and the link lists
stay in step over every move, so that a run that returns leaves a graph within the radix. What can
go wrong is the last loop. It needs a link away from its switch, and the record may name one that
was split before.
-/

namespace ResSim

/-- The switch for which the last loop looks for a link to split. -/
def sought (s : Jelly) : Option Text :=
  match s.phase with
  | .expand ((sw, numports) :: _) => if 2 ≤ numports then some sw else none
  | _ => none

/-- A link that the last loop accepts for `sw`. -/
def Eligible (devices : Devices) (sw : Text) (l : Text × Text) : Prop :=
  l.1 ≠ sw ∧ l.2 ≠ sw ∧ l.1 ∉ neighbours devices sw ∧ l.2 ∉ neighbours devices sw

/-- A symmetric multigraph without self loops and with at most `r` links of each switch. -/
structure IsJellyfish (N r : ℕ) (devices : Devices) : Prop where
  multigraph : IsMultigraph (neighbours devices)
  radix : ∀ x, degree devices x ≤ r
  simple : r ≤ N → ∀ x, (neighbours devices x).Nodup

variable {N r : ℕ} {order : List (Text × ℕ) → List (Text × ℕ)} {s s' : Jelly}

/-! ### The moves -/

/-- What a pass does that goes on. -/
inductive Moves (N r : ℕ) (order : List (Text × ℕ) → List (Text × ℕ)) (s : Jelly) : Jelly → Prop
  | draw {index : ℕ} {rnd : Rnd} (h : s.phase = .ports index) :
    Moves N r order s { s with phase := .ports (index + 1), rnd }
  | link {index : ℕ} {rnd : Rnd} {i j : Text} {devices : Devices} (h : s.phase = .ports index)
    (hi : i ∈ s.U) (hj : j ∈ s.U) (hij : i ≠ j) (hnew : j ∉ neighbours s.devices i)
    (hback : i ∉ neighbours s.devices j)
    (hkeys : devices.map Prod.fst = s.devices.map Prod.fst)
    (hone : OneMore (neighbours s.devices) (neighbours devices) i j) :
    Moves N r order s
      ⟨.ports (index + 1), devices, s.links ++ [(i, j)], (s.U.erase i).erase j, rnd⟩
  | giveUp {index : ℕ} (h : s.phase = .ports index) : Moves N r order s { s with phase := .hack }
  | hackDraw {rnd : Rnd} (h : s.phase = .hack) : Moves N r order s { s with rnd }
  | hackLink {rnd : Rnd} {i j : Text} {devices : Devices} (h : s.phase = .hack) (hlt : N < r)
    (hi : i ∈ s.U) (hj : j ∈ s.U) (hij : i ≠ j)
    (hkeys : devices.map Prod.fst = s.devices.map Prod.fst)
    (hone : OneMore (neighbours s.devices) (neighbours devices) i j) :
    Moves N r order s ⟨.hack, devices, s.links ++ [(i, j)], (s.U.erase i).erase j, rnd⟩
  | count {rnd : Rnd} (h : s.phase = .hack) : Moves N r order s (countPorts order s rnd)
  | leave {sw : Text} {numports : ℕ} {rest : List (Text × ℕ)}
    (h : s.phase = .expand ((sw, numports) :: rest)) (hn : numports < 2) :
    Moves N r order s { s with phase := .expand rest }
  | redraw {rnd : Rnd} {remsws : List (Text × ℕ)} (h : s.phase = .expand remsws) :
    Moves N r order s { s with rnd }
  | split {rnd : Rnd} {sw : Text} {numports : ℕ} {rest : List (Text × ℕ)} {i j : Text}
    {devices : Devices} (h : s.phase = .expand ((sw, numports) :: rest)) (hn : 2 ≤ numports)
    (hl : (i, j) ∈ s.links) (he : Eligible s.devices sw (i, j))
    (hkeys : devices.map Prod.fst = s.devices.map Prod.fst)
    (hsplit : Split (neighbours s.devices) (neighbours devices) i j sw) :
    Moves N r order s ⟨.expand ((sw, numports - 2) :: rest), devices,
      s.links ++ [(i, sw)] ++ [(j, sw)], s.U, rnd⟩

/-- The ports in use and the ports that are left. -/
def Budget (N r : ℕ) (s : Jelly) : Prop :=
  match s.phase with
  | .expand remsws => (∀ x, degree s.devices x ≤ r) ∧ (remsws.map Prod.fst).Nodup ∧
      ∀ y ∈ remsws, y.1 ∈ jellyfishSwitches N ∧ degree s.devices y.1 + y.2 ≤ r
  | _ => ∀ x ∈ jellyfishSwitches N, degree s.devices x + s.U.count x = r

/-- The invariant of a run. -/
structure Wired (N r : ℕ) (s : Jelly) : Prop where
  keys : ∀ x ∈ jellyfishSwitches N, x ∈ s.devices.map Prod.fst
  multigraph : IsMultigraph (neighbours s.devices)
  inside : ∀ x, ∀ y ∈ neighbours s.devices x, y ∈ jellyfishSwitches N
  recorded : ∀ x, ∀ y ∈ neighbours s.devices x, (x, y) ∈ s.links ∨ (y, x) ∈ s.links
  links : ∀ l ∈ s.links, l.1 ∈ jellyfishSwitches N ∧ l.2 ∈ jellyfishSwitches N ∧ l.1 ≠ l.2
  ports : ∀ x ∈ s.U, x ∈ jellyfishSwitches N
  simple : (r ≤ N ∨ ∃ index, s.phase = .ports index) → ∀ x, (neighbours s.devices x).Nodup
  budget : Budget N r s

lemma pick_eq {α : Type} {l : List α} (draw : ℕ) (hl : l ≠ []) :
    ∃ a, choice draw l = some a ∧ pick draw l = .ok a ∧ a ∈ l := by
  obtain ⟨a, ha⟩ := exists_choice_of_ne_nil draw hl
  exact ⟨a, ha, by rw [pick, ha], choice_mem ha⟩

lemma Wired.ports_keys (h : Wired N r s) : ∀ x ∈ s.U, x ∈ s.devices.map Prod.fst :=
  fun x hx => h.keys x (h.ports x hx)

lemma portsPass_moves (order : List (Text × ℕ) → List (Text × ℕ)) {index : ℕ}
    (h : Wired N r s) (hphase : s.phase = .ports index) :
    ∃ s', portsPass s index = .ok s' ∧ Moves N r order s s' := by
  unfold portsPass
  split
  · exact ⟨_, rfl, .giveUp hphase⟩
  · rename_i hne
    rw [not_or] at hne
    obtain ⟨b, hb⟩ := lastPair_eq h.ports_keys
    obtain ⟨i, _, hpi, hi⟩ := pick_eq (s.rnd 0) hne.1
    obtain ⟨j, _, hpj, hj⟩ := pick_eq (s.rnd 1) hne.1
    have hki := h.ports_keys i hi
    have hkj := h.ports_keys j hj
    simp only [hb, hpi, hpj, unlinked_eq hki hkj, bind, Except.bind]
    by_cases hlast : b = true
    · exact ⟨_, if_pos hlast, .giveUp hphase⟩
    · rw [if_neg hlast]
      by_cases hij : i = j
      · exact ⟨_, if_pos hij, .draw hphase⟩
      · rw [if_neg hij]
        by_cases hnew : i ∉ neighbours s.devices j ∧ j ∉ neighbours s.devices i
        · rw [if_pos (decide_eq_true hnew)]
          obtain ⟨devices, hlink, hkeys, hone⟩ := joinPorts_spec hki hkj
          exact ⟨_, hlink, .link hphase hi hj hij hnew.2 hnew.1 hkeys hone⟩
        · rw [if_neg (by simpa using hnew)]
          exact ⟨_, rfl, .draw hphase⟩

lemma hackPass_moves (order : List (Text × ℕ) → List (Text × ℕ)) (h : Wired N r s)
    (hphase : s.phase = .hack) :
    ∃ s', hackPass N r order s = .ok s' ∧ Moves N r order s s' := by
  unfold hackPass
  split
  · exact ⟨_, rfl, .count hphase⟩
  · rename_i hne
    rw [not_or, not_or, not_le] at hne
    obtain ⟨i, _, hpi, hi⟩ := pick_eq (s.rnd 0) hne.1
    obtain ⟨j, _, hpj, hj⟩ := pick_eq (s.rnd 1) hne.1
    simp only [hpi, hpj, bind, Except.bind]
    split
    · exact ⟨_, rfl, .count hphase⟩
    · by_cases hij : i = j
      · exact ⟨_, if_pos hij, .hackDraw hphase⟩
      · rw [if_neg hij]
        obtain ⟨devices, hlink, hkeys, hone⟩ :=
          joinPorts_spec (h.ports_keys i hi) (h.ports_keys j hj)
        exact ⟨_, hlink, .hackLink hphase hne.2.1 hi hj hij hkeys hone⟩

/-- The draw that ends a run in an exception: from an empty record, or a link that was split
before. -/
def Stale (s : Jelly) (sw : Text) : Prop :=
  s.links = [] ∨ ∃ i j, choice (s.rnd 0) s.links = some (i, j) ∧
    Eligible s.devices sw (i, j) ∧ j ∉ neighbours s.devices i

lemma expandPass_moves (order : List (Text × ℕ) → List (Text × ℕ)) {sw : Text} {numports : ℕ}
    {rest : List (Text × ℕ)} (h : Wired N r s)
    (hphase : s.phase = .expand ((sw, numports) :: rest)) (hn : 2 ≤ numports) :
    (¬ Stale s sw ∧ ∃ s', expandPass s sw numports rest = .ok s' ∧ Moves N r order s s') ∨
      (Stale s sw ∧ ∃ e, expandPass s sw numports rest = .error e) := by
  have hsw : sw ∈ s.devices.map Prod.fst := by
    have hb := h.budget
    rw [Budget, hphase] at hb
    exact h.keys sw (hb.2.2 (sw, numports) List.mem_cons_self).1
  by_cases hnil : s.links = []
  · refine .inr ⟨.inl hnil, .index, ?_⟩
    simp only [expandPass, pick, choice, hnil, bind, Except.bind, List.getElem?_nil]
  · obtain ⟨⟨i, j⟩, hchoice, hpick, hl⟩ := pick_eq (s.rnd 0) hnil
    obtain ⟨hi, hj, hij⟩ := h.links _ hl
    have hpass : expandPass s sw numports rest =
        if i = sw ∨ j = sw ∨ i ∈ neighbours s.devices sw ∨ j ∈ neighbours s.devices sw then
          .ok { s with rnd := s.rnd.next }
        else splitLink s i j sw (.expand ((sw, numports - 2) :: rest)) s.rnd.next := by
      simp only [expandPass, hpick, portsOf_eq hsw, bind, Except.bind]
    have hstale : Stale s sw ↔ Eligible s.devices sw (i, j) ∧ j ∉ neighbours s.devices i := by
      simp [Stale, hnil, hchoice]
    rw [hpass, hstale]
    split
    · rename_i hend
      refine .inl ⟨fun he => ?_, _, rfl, .redraw hphase⟩
      obtain ⟨⟨h1, h2, h3, h4⟩, _⟩ := he
      tauto
    · rename_i hend
      have he : Eligible s.devices sw (i, j) := by
        simpa only [Eligible, not_or, ne_eq] using hend
      by_cases hlive : j ∈ neighbours s.devices i
      · obtain ⟨devices, hrun, hkeys, hsplit⟩ :=
          splitLink_spec (h.keys i hi) (h.keys j hj) hsw h.multigraph hij hlive
        exact .inl ⟨fun hs => hs.2 hlive, _, hrun, .split hphase hn hl he hkeys hsplit⟩
      · exact .inr ⟨⟨he, hlive⟩, _, splitLink_error (h.keys i hi) hlive⟩

lemma connectStep_ports {index : ℕ} (hphase : s.phase = .ports index)
    (hpass : portsPass s index = .ok s') : connectStep N r order s = .next s' := by
  simp [connectStep, connectPass, hphase, hpass]

/-- A pass is a move, the end of the last loop, or a stale draw. -/
lemma connectStep_cases (order : List (Text × ℕ) → List (Text × ℕ)) (h : Wired N r s) :
    ((∀ sw, sought s = some sw → ¬ Stale s sw) ∧
      ∃ s', connectStep N r order s = .next s' ∧ Moves N r order s s') ∨
    (connectStep N r order s = .done (.ok s.devices) ∧ s.phase = .expand []) ∨
    ∃ sw, sought s = some sw ∧ Stale s sw ∧ ∃ e, connectStep N r order s = .done (.error e) := by
  cases hphase : s.phase with
  | ports index =>
    obtain ⟨s', hs', hm⟩ := portsPass_moves order h hphase
    exact .inl ⟨by simp [sought, hphase], s', connectStep_ports hphase hs', hm⟩
  | hack =>
    obtain ⟨s', hs', hm⟩ := hackPass_moves order h hphase
    refine .inl ⟨by simp [sought, hphase], s', ?_, hm⟩
    simp [connectStep, connectPass, hphase, hs']
  | expand remsws =>
    cases remsws with
    | nil => exact .inr (.inl ⟨by simp [connectStep, hphase], rfl⟩)
    | cons y rest =>
      obtain ⟨sw, numports⟩ := y
      by_cases hn : 2 ≤ numports
      · have hsought : sought s = some sw := by simp [sought, hphase, hn]
        rcases expandPass_moves order h hphase hn with
          ⟨hfresh, s', hs', hm⟩ | ⟨hstale, e, he⟩
        · refine .inl ⟨fun sw' hsw' => ?_, s', ?_, hm⟩
          · rw [hsought, Option.some.injEq] at hsw'
            exact hsw' ▸ hfresh
          · simp [connectStep, connectPass, hphase, hn, hs']
        · refine .inr (.inr ⟨sw, hsought, hstale, e, ?_⟩)
          simp [connectStep, connectPass, hphase, hn, he]
      · refine .inl ⟨by simp [sought, hphase, hn], _, ?_, .leave hphase (not_le.mp hn)⟩
        simp [connectStep, connectPass, hphase, hn]

lemma moves_of_next (h : Wired N r s) (hn : connectStep N r order s = .next s') :
    Moves N r order s s' := by
  rcases connectStep_cases order h with ⟨_, s₁, hs₁, hm⟩ | ⟨hd, _⟩ | ⟨_, _, _, _, hd⟩
  · rw [hs₁, Step.next.injEq] at hn
    exact hn ▸ hm
  · rw [hd] at hn
    cases hn
  · rw [hd] at hn
    cases hn

/-! ### The invariant -/

lemma nodup_jellyfishSwitches (N : ℕ) : (jellyfishSwitches N).Nodup := by
  refine List.Nodup.map (fun i j h => ?_) List.nodup_range
  exact digits_injective (List.append_cancel_left h)

lemma length_jellyfishSwitches (N : ℕ) : (jellyfishSwitches N).length = N := by
  rw [jellyfishSwitches, List.length_map, List.length_range]

lemma count_start (N r : ℕ) {x : Text} (hx : x ∈ jellyfishSwitches N) :
    ((List.range r).flatMap fun _ => jellyfishSwitches N).count x = r := by
  have hone := List.count_eq_one_of_mem (nodup_jellyfishSwitches N) hx
  rw [List.count_flatMap, Function.comp_def]
  simp only [hone, List.map_const', List.sum_replicate_nat, List.length_range, Nat.mul_one]

lemma wired_start (N r : ℕ) (hosts : List Text) (rnd : Rnd) :
    Wired N r (connectStart N r hosts rnd) := by
  have hnil : neighbours (connectStart N r hosts rnd).devices = fun _ => [] :=
    funext fun x => neighbours_startDevices _ hosts x
  constructor
  case keys => exact fun x hx => mem_keys_startDevices.mpr (List.mem_append_left _ hx)
  case multigraph => exact hnil ▸ isMultigraph_nil
  case inside => simp [hnil]
  case recorded => simp [hnil]
  case links => simp [connectStart]
  case ports =>
    intro x hx
    exact (List.mem_flatMap.mp hx).choose_spec.2
  case simple => simp [hnil]
  case budget =>
    intro x hx
    rw [degree, hnil, List.length_nil, Nat.zero_add]
    exact count_start N r hx

lemma countRemPorts_eq (d : List (Text × ℕ)) (v : Text) :
    countRemPorts d v = dictSet d v ((dictGet d v).getD 0 + 1) := by
  unfold countRemPorts
  cases dictGet d v <;> rfl

/-- The dict of the ports that are left counts every switch once. -/
lemma dictGet_foldl_countRemPorts (U : List Text) :
    ((U.foldl countRemPorts []).map Prod.fst).Nodup ∧
      ∀ x, dictGet (U.foldl countRemPorts []) x = if x ∈ U then some (U.count x) else none := by
  induction U using List.reverseRecOn with
  | nil => exact ⟨List.nodup_nil, fun _ => rfl⟩
  | append_singleton U v ih =>
    obtain ⟨hn, hget⟩ := ih
    rw [List.foldl_concat, countRemPorts_eq]
    refine ⟨nodup_keys_dictSet hn, fun x => ?_⟩
    have hv : (dictGet (U.foldl countRemPorts []) v).getD 0 = U.count v := by
      rw [hget]
      split
      · rfl
      · rename_i hv
        exact (List.count_eq_zero_of_not_mem hv).symm
    rw [dictGet_dictSet, hv, hget]
    by_cases hx : x = v
    · simp [hx]
    · simp [hx, Ne.symm hx]

lemma mem_countRemPorts {U : List Text} {y : Text × ℕ} (hy : y ∈ U.foldl countRemPorts []) :
    y.1 ∈ U ∧ y.2 = U.count y.1 := by
  obtain ⟨hn, hget⟩ := dictGet_foldl_countRemPorts U
  have hy' := (mem_iff_dictGet hn).mp hy
  rw [hget] at hy'
  split at hy'
  · rename_i hmem
    exact ⟨hmem, (Option.some.inj hy').symm⟩
  · cases hy'

section Moves

variable {i j : Text} {devices : Devices} {U : List Text}

/-- A link uses one port at each end. -/
lemma degree_add_count (hone : OneMore (neighbours s.devices) (neighbours devices) i j)
    (hi : i ∈ U) (hj : j ∈ U) (hij : i ≠ j) (x : Text) :
    degree devices x + ((U.erase i).erase j).count x = degree s.devices x + U.count x := by
  have hi' := List.count_pos_iff.mpr hi
  have hj' := List.count_pos_iff.mpr hj
  rw [degree, hone.length, List.count_erase, List.count_erase, degree]
  by_cases hxi : x = i
  · subst hxi
    simp [hij, hij.symm]
    omega
  · by_cases hxj : x = j
    · subst hxj
      simp [hxi, Ne.symm hxi]
      omega
    · simp [hxi, hxj, Ne.symm hxi, Ne.symm hxj]

/-- The invariant after a link of two ports. -/
lemma Wired.link (h : Wired N r s) {phase : Phase} {rnd : Rnd} (hi : i ∈ s.U) (hj : j ∈ s.U)
    (hij : i ≠ j) (hkeys : devices.map Prod.fst = s.devices.map Prod.fst)
    (hone : OneMore (neighbours s.devices) (neighbours devices) i j)
    (hsimple : (r ≤ N ∨ ∃ index, phase = .ports index) → ∀ x, (neighbours devices x).Nodup)
    (hbudget : Budget N r ⟨phase, devices, s.links ++ [(i, j)], (s.U.erase i).erase j, rnd⟩) :
    Wired N r ⟨phase, devices, s.links ++ [(i, j)], (s.U.erase i).erase j, rnd⟩ := by
  constructor
  case keys => exact fun x hx => hkeys ▸ h.keys x hx
  case multigraph => exact (hone.isMultigraph_iff hij).mpr h.multigraph
  case inside =>
    intro x y hy
    rcases hone.mem_iff.mp hy with hy | ⟨_, rfl⟩ | ⟨_, rfl⟩
    · exact h.inside x y hy
    · exact h.ports _ hj
    · exact h.ports _ hi
  case recorded =>
    intro x y hy
    rcases hone.mem_iff.mp hy with hy | ⟨rfl, rfl⟩ | ⟨rfl, rfl⟩
    · exact (h.recorded x y hy).imp (List.mem_append_left _) (List.mem_append_left _)
    · exact .inl (List.mem_append_right _ (List.mem_singleton_self _))
    · exact .inr (List.mem_append_right _ (List.mem_singleton_self _))
  case links =>
    intro l hl
    rcases List.mem_append.mp hl with hl | hl
    · exact h.links l hl
    · rw [List.mem_singleton.mp hl]
      exact ⟨h.ports i hi, h.ports j hj, hij⟩
  case ports => exact fun x hx => h.ports x (List.mem_of_mem_erase (List.mem_of_mem_erase hx))
  case simple => exact hsimple
  case budget => exact hbudget

/-- The invariant when only the loop and the draws change. -/
lemma Wired.turn (h : Wired N r s) {phase : Phase} {rnd : Rnd}
    (hports : (∃ index, phase = .ports index) → ∃ index, s.phase = .ports index)
    (hbudget : Budget N r { s with phase, rnd }) : Wired N r { s with phase, rnd } :=
  ⟨h.keys, h.multigraph, h.inside, h.recorded, h.links, h.ports,
    fun hs => h.simple (hs.imp_right hports), hbudget⟩

/-- Only the switch that splits a link gets more links. -/
lemma degree_split {sw : Text}
    (hsplit : Split (neighbours s.devices) (neighbours devices) i j sw) (x : Text) :
    degree devices x = degree s.devices x + if x = sw then 2 else 0 :=
  hsplit.length x

/-- A split uses two of the ports that are left. -/
lemma Budget.split (hbudget : Budget N r s) {rnd : Rnd} {sw : Text} {numports : ℕ}
    {rest : List (Text × ℕ)} {links : List (Text × Text)}
    (hphase : s.phase = .expand ((sw, numports) :: rest)) (hn : 2 ≤ numports)
    (hsplit : Split (neighbours s.devices) (neighbours devices) i j sw) :
    Budget N r ⟨.expand ((sw, numports - 2) :: rest), devices, links, s.U, rnd⟩ := by
  rw [Budget, hphase] at hbudget
  obtain ⟨hdegree, hnodup, hrem⟩ := hbudget
  obtain ⟨hsw, hle⟩ := hrem _ List.mem_cons_self
  dsimp only at hle
  refine ⟨fun x => ?_, hnodup, fun y hy => ?_⟩
  · rw [degree_split hsplit]
    split
    · rename_i hx
      subst hx
      omega
    · exact hdegree x
  · rw [degree_split hsplit]
    rcases List.mem_cons.mp hy with rfl | hrest
    · refine ⟨hsw, ?_⟩
      rw [if_pos rfl]
      dsimp only
      omega
    · obtain ⟨hy1, hy2⟩ := hrem y (List.mem_cons_of_mem _ hrest)
      have hne : y.1 ≠ sw := fun heq =>
        (List.nodup_cons.mp hnodup).1 (List.mem_map.mpr ⟨y, hrest, heq⟩)
      exact ⟨hy1, by rwa [if_neg hne]⟩

/-- The invariant after a link was split. -/
lemma Wired.split (h : Wired N r s) {rnd : Rnd} {sw : Text} {numports : ℕ}
    {rest : List (Text × ℕ)} (hphase : s.phase = .expand ((sw, numports) :: rest))
    (hn : 2 ≤ numports) (hl : (i, j) ∈ s.links) (he : Eligible s.devices sw (i, j))
    (hkeys : devices.map Prod.fst = s.devices.map Prod.fst)
    (hsplit : Split (neighbours s.devices) (neighbours devices) i j sw) :
    Wired N r ⟨.expand ((sw, numports - 2) :: rest), devices,
      s.links ++ [(i, sw)] ++ [(j, sw)], s.U, rnd⟩ := by
  obtain ⟨hi, hj, hij⟩ := h.links _ hl
  obtain ⟨hisw, hjsw, hiv, hjv⟩ := he
  have hbudget := h.budget
  rw [Budget, hphase] at hbudget
  have hsw := (hbudget.2.2 _ List.mem_cons_self).1
  constructor
  case keys => exact fun x hx => hkeys ▸ h.keys x hx
  case multigraph => exact hsplit.isMultigraph h.multigraph hij hisw hjsw
  case inside =>
    intro x y hy
    rcases hsplit.mem_of_mem hy with hy | ⟨_, rfl | rfl⟩ | ⟨rfl, _⟩
    · exact h.inside x y hy
    · exact hi
    · exact hj
    · exact hsw
  case recorded =>
    have hmem : (i, sw) ∈ s.links ++ [(i, sw)] ++ [(j, sw)] ∧
        (j, sw) ∈ s.links ++ [(i, sw)] ++ [(j, sw)] := by simp
    intro x y hy
    rcases hsplit.mem_of_mem hy with hy | ⟨rfl, rfl | rfl⟩ | ⟨rfl, rfl | rfl⟩
    · exact (h.recorded x y hy).imp
        (fun hl => List.mem_append_left _ (List.mem_append_left _ hl))
        (fun hl => List.mem_append_left _ (List.mem_append_left _ hl))
    · exact .inr hmem.1
    · exact .inr hmem.2
    · exact .inl hmem.1
    · exact .inl hmem.2
  case links =>
    intro l hl
    rcases List.mem_append.mp hl with hl | hl
    · rcases List.mem_append.mp hl with hl | hl
      · exact h.links l hl
      · rw [List.mem_singleton.mp hl]
        exact ⟨hi, hsw, hisw⟩
    · rw [List.mem_singleton.mp hl]
      exact ⟨hj, hsw, hjsw⟩
  case ports => exact h.ports
  case simple =>
    intro hs
    have hr : r ≤ N := by
      rcases hs with hr | ⟨_, hs⟩
      · exact hr
      · cases hs
    exact hsplit.nodup h.multigraph (h.simple (.inl hr)) hij hisw hjsw hiv hjv
  case budget => exact h.budget.split hphase hn hsplit

lemma degree_eq_zero (h : Wired N r s) {x : Text} (hx : x ∉ jellyfishSwitches N) :
    degree s.devices x = 0 := by
  rw [degree, List.length_eq_zero_iff, List.eq_nil_iff_forall_not_mem]
  exact fun y hy => hx (h.inside y x (h.multigraph.mem_comm.mp hy))

/-- The invariant when the ports that are left have been counted. -/
lemma Wired.count (horder : ∀ l, (order l).Perm l) (h : Wired N r s) (rnd : Rnd)
    (hphase : s.phase = .hack) : Wired N r (countPorts order s rnd) := by
  have hbudget := h.budget
  rw [Budget, hphase] at hbudget
  refine h.turn (fun ⟨_, hp⟩ => by cases hp) ⟨fun x => ?_, ?_, fun y hy => ?_⟩
  · by_cases hx : x ∈ jellyfishSwitches N
    · exact Nat.le.intro (hbudget x hx)
    · exact (degree_eq_zero h hx).le.trans (Nat.zero_le r)
  · exact ((horder _).map Prod.fst).nodup_iff.mpr (dictGet_foldl_countRemPorts s.U).1
  · obtain ⟨hy1, hy2⟩ := mem_countRemPorts ((horder _).mem_iff.mp hy)
    exact ⟨h.ports _ hy1, hy2 ▸ (hbudget _ (h.ports _ hy1)).le⟩

theorem Moves.wired (horder : ∀ l, (order l).Perm l) (hm : Moves N r order s s')
    (h : Wired N r s) : Wired N r s' := by
  have hbudget := h.budget
  cases hm with
  | draw hphase =>
    rw [Budget, hphase] at hbudget
    exact h.turn (fun _ => ⟨_, hphase⟩) hbudget
  | link hphase hi hj hij hnew hback hkeys hone =>
    rw [Budget, hphase] at hbudget
    refine h.link hi hj hij hkeys hone (fun _ => ?_) (fun x hx => ?_)
    · exact hone.nodup (h.simple (.inr ⟨_, hphase⟩)) hij hnew hback
    · rw [degree_add_count hone hi hj hij]
      exact hbudget x hx
  | giveUp hphase =>
    rw [Budget, hphase] at hbudget
    exact h.turn (fun ⟨_, hp⟩ => by cases hp) hbudget
  | hackDraw hphase =>
    rw [Budget, hphase] at hbudget
    refine h.turn id ?_
    rw [Budget, hphase]
    exact hbudget
  | hackLink hphase hlt hi hj hij hkeys hone =>
    rw [Budget, hphase] at hbudget
    refine h.link hi hj hij hkeys hone (fun hs => ?_) (fun x hx => ?_)
    · rcases hs with hr | ⟨_, hs⟩
      · omega
      · cases hs
    · rw [degree_add_count hone hi hj hij]
      exact hbudget x hx
  | count hphase => exact h.count horder _ hphase
  | leave hphase _ =>
    rw [Budget, hphase] at hbudget
    obtain ⟨hdegree, hnodup, hrem⟩ := hbudget
    exact h.turn (fun ⟨_, hp⟩ => by cases hp) ⟨hdegree, (List.nodup_cons.mp hnodup).2,
      fun y hy => hrem y (List.mem_cons_of_mem _ hy)⟩
  | redraw hphase =>
    rw [Budget, hphase] at hbudget
    refine h.turn id ?_
    rw [Budget, hphase]
    exact hbudget
  | split hphase hn hl he hkeys hsplit => exact h.split hphase hn hl he hkeys hsplit

/-- Every state of a run keeps the invariant. -/
theorem wired_of_reaches (horder : ∀ l, (order l).Perm l) {hosts : List Text} {rnd : Rnd}
    (h : Loop.Reaches (connectStep N r order) (connectStart N r hosts rnd) s) : Wired N r s := by
  refine h.invariant (Wired N r) (fun s₁ s₂ h₁ hn => ?_) (wired_start N r hosts rnd)
  exact (moves_of_next h₁ hn).wired horder h₁

end Moves

end ResSim
