import ResSim.Topo.JellyfishWired

/-!
# Runs that wire a jellyfish

A run raises nothing and returns a proper graph as long as the last loop finds a switch with more
neighbours than the one it serves, and draws no link that it split before. The first is so whenever
the first loop left no two ports that could be linked and there are as many switches as ports per
switch; with fewer switches the last loop then has no link to split at all.
-/

namespace ResSim

variable {N r : ℕ} {order : List (Text × ℕ) → List (Text × ℕ)} {hosts : List Text} {rnd : Rnd}
  {s s' : Jelly} {sw : Text}

section Runs

variable (N r : ℕ) (order : List (Text × ℕ) → List (Text × ℕ)) (hosts : List Text) (rnd : Rnd)

/-- A state of the run with these draws. -/
def Reached (s : Jelly) : Prop :=
  Loop.Reaches (connectStep N r order) (connectStart N r hosts rnd) s

/-- The run ends with this result. -/
def RunEnds (result : Except TopoError Devices) : Prop :=
  ∃ fuel, connectPorts N r order hosts fuel rnd = some result

/-- The run raises no exception, has a link to split whenever it looks for one, and returns a
proper graph. -/
structure Succeeds : Prop where
  noException : ∀ e, ¬ RunEnds N r order hosts rnd (.error e)
  eligible : ∀ s sw, Reached N r order hosts rnd s → sought s = some sw →
    ∃ l ∈ s.links, Eligible s.devices sw l
  wired : ∀ devices, RunEnds N r order hosts rnd (.ok devices) → IsJellyfish N r devices

/-- A switch that is not linked to `sw` has more neighbours. -/
def Room (devices : Devices) (sw : Text) : Prop :=
  ∃ w ∈ jellyfishSwitches N, w ≠ sw ∧ w ∉ neighbours devices sw ∧
    (neighbours devices sw).dedup.length < (neighbours devices w).dedup.length

/-- The link that is drawn is still there if it is accepted. -/
def DrawsLive (s : Jelly) (sw : Text) : Prop :=
  ∀ l ∈ choice (s.rnd 0) s.links, Eligible s.devices sw l → l.2 ∈ neighbours s.devices l.1

/-- Whenever the last loop looks for a link, there is room and it draws no link that was split. -/
def SplitsFresh : Prop :=
  ∀ s sw, Reached N r order hosts rnd s → sought s = some sw → Room N s.devices sw ∧ DrawsLive s sw

/-- The first loop does not give up as long as two ports could be linked. -/
def Saturated : Prop :=
  ∀ s, Reached N r order hosts rnd s → s.phase = .hack →
    ∀ x ∈ s.U, ∀ y ∈ s.U, x ≠ y → y ∈ neighbours s.devices x

end Runs

/-! ### Room -/

lemma Wired.exists_eligible (h : Wired N r s) (hroom : Room N s.devices sw) :
    ∃ l ∈ s.links, Eligible s.devices sw l := by
  obtain ⟨w, _, hne, hw, hlt⟩ := hroom
  obtain ⟨y, hy, hysw, hy'⟩ := h.multigraph.exists_beyond hw hlt
  rcases h.recorded w y hy with hl | hl
  · exact ⟨_, hl, hne, hysw, hw, hy'⟩
  · exact ⟨_, hl, hysw, hne, hy', hw⟩

lemma Wired.not_stale (h : Wired N r s) (hroom : Room N s.devices sw) (hlive : DrawsLive s sw) :
    ¬ Stale s sw := by
  rintro (hnil | ⟨i, j, hchoice, he, hj⟩)
  · obtain ⟨l, hl, _⟩ := h.exists_eligible hroom
    rw [hnil] at hl
    exact List.not_mem_nil hl
  · exact hj (hlive (i, j) hchoice he)

/-- The end of a run, with the invariant of the last state. -/
lemma RunEnds.cases (horder : ∀ l, (order l).Perm l) {result : Except TopoError Devices}
    (h : RunEnds N r order hosts rnd result) :
    ∃ s, Reached N r order hosts rnd s ∧ Wired N r s ∧
      ((result = .ok s.devices ∧ s.phase = .expand []) ∨
        ∃ sw e, sought s = some sw ∧ Stale s sw ∧ result = .error e) := by
  obtain ⟨s, hs, hd⟩ := Loop.Returns.exists_last h
  have hw := wired_of_reaches horder hs
  refine ⟨s, hs, hw, ?_⟩
  rcases connectStep_cases order hw with ⟨_, s', hn, _⟩ | ⟨hd', hp⟩ | ⟨sw, hsw, hst, e, hd'⟩
  · rw [hn] at hd
    cases hd
  · rw [hd', Step.done.injEq] at hd
    exact .inl ⟨hd.symm, hp⟩
  · rw [hd', Step.done.injEq] at hd
    exact .inr ⟨sw, e, hsw, hst, hd.symm⟩

lemma ends_of_stale (horder : ∀ l, (order l).Perm l) (hs : Reached N r order hosts rnd s)
    (hsw : sought s = some sw) (hst : Stale s sw) :
    ∃ e, RunEnds N r order hosts rnd (.error e) := by
  rcases connectStep_cases order (wired_of_reaches horder hs) with
    ⟨hfresh, _⟩ | ⟨_, hp⟩ | ⟨_, _, _, e, hd⟩
  · exact absurd hst (hfresh sw hsw)
  · rw [sought, hp] at hsw
    cases hsw
  · exact ⟨e, (Loop.Returns.of_done hd).of_reaches hs⟩

/-- What a run that returns leaves. -/
lemma isJellyfish_of_ends (horder : ∀ l, (order l).Perm l) {devices : Devices}
    (h : RunEnds N r order hosts rnd (.ok devices)) : IsJellyfish N r devices := by
  obtain ⟨s, _, hw, ⟨hres, hp⟩ | ⟨_, _, _, _, hres⟩⟩ := h.cases horder
  · cases hres
    have hbudget := hw.budget
    rw [Budget, hp] at hbudget
    exact ⟨hw.multigraph, hbudget.1, fun hr => hw.simple (.inl hr)⟩
  · cases hres

lemma SplitsFresh.succeeds (horder : ∀ l, (order l).Perm l)
    (h : SplitsFresh N r order hosts rnd) : Succeeds N r order hosts rnd := by
  constructor
  case noException =>
    intro e hends
    obtain ⟨s, hs, hw, ⟨hres, _⟩ | ⟨sw, _, hsw, hst, _⟩⟩ := hends.cases horder
    · cases hres
    · obtain ⟨hroom, hlive⟩ := h s sw hs hsw
      exact hw.not_stale hroom hlive hst
  case eligible =>
    exact fun s sw hs hsw => (wired_of_reaches horder hs).exists_eligible (h s sw hs hsw).1
  case wired => exact fun devices => isJellyfish_of_ends horder

/-! ### After a first loop that leaves no two ports to link -/

/-- The switches that have ports left are linked to one another, all other ones are full, and the
ports that are left are counted. -/
structure PortsTight (N r : ℕ) (s : Jelly) (remsws : List (Text × ℕ)) : Prop where
  linked : ∀ x ∈ s.U, ∀ y ∈ s.U, x ≠ y → y ∈ neighbours s.devices x
  full : ∀ x ∈ jellyfishSwitches N, x ∉ s.U → degree s.devices x = r
  left : ∀ y ∈ remsws, y.1 ∈ s.U ∧ degree s.devices y.1 + y.2 = r

/-- All switches are linked to one another. -/
def Complete (N : ℕ) (devices : Devices) : Prop :=
  ∀ x ∈ jellyfishSwitches N, ∀ y ∈ jellyfishSwitches N, x ≠ y → y ∈ neighbours devices x

/-- The invariant of the last two loops when the first one left no two ports to link. -/
def AfterPorts (N r : ℕ) (s : Jelly) : Prop :=
  match s.phase with
  | .ports _ => True
  | .hack => N < r → Complete N s.devices
  | .expand remsws => (N < r → Complete N s.devices) ∧ (r ≤ N → PortsTight N r s remsws)

lemma Complete.not_eligible (hc : Complete N s.devices) (hw : Wired N r s)
    (hsw : sw ∈ jellyfishSwitches N) {l : Text × Text} (hl : l ∈ s.links) :
    ¬ Eligible s.devices sw l :=
  fun he => he.2.2.1 (hc sw hsw l.1 (hw.links l hl).1 he.1.symm)

/-- With more ports than switches none is full after the first loop. -/
lemma Wired.mem_U {index : ℕ} (h : Wired N r s) (hphase : s.phase = .ports index) (hlt : N < r)
    {x : Text} (hx : x ∈ jellyfishSwitches N) : x ∈ s.U := by
  have hbudget := h.budget
  rw [Budget, hphase] at hbudget
  have hsub : neighbours s.devices x ⊆ jellyfishSwitches N := h.inside x
  have hle := ((h.simple (.inr ⟨index, hphase⟩) x).subperm hsub).length_le
  rw [length_jellyfishSwitches] at hle
  have hx' := hbudget x hx
  rw [degree] at hx'
  exact List.count_pos_iff.mp (by omega)

lemma PortsTight.split {i j : Text} {devices : Devices} {rnd : Rnd} {numports : ℕ}
    {rest : List (Text × ℕ)} (h : PortsTight N r s ((sw, numports) :: rest)) (hw : Wired N r s)
    (hphase : s.phase = .expand ((sw, numports) :: rest)) (hn : 2 ≤ numports)
    (he : Eligible s.devices sw (i, j))
    (hsplit : Split (neighbours s.devices) (neighbours devices) i j sw) :
    PortsTight N r ⟨.expand ((sw, numports - 2) :: rest), devices,
      s.links ++ [(i, sw)] ++ [(j, sw)], s.U, rnd⟩ ((sw, numports - 2) :: rest) := by
  obtain ⟨hisw, hjsw, hiv, hjv⟩ := he
  have hbudget := hw.budget
  rw [Budget, hphase] at hbudget
  have hnodup := (List.nodup_cons.mp hbudget.2.1).1
  obtain ⟨hsw, hle⟩ := h.left _ List.mem_cons_self
  -- the ends of the link are no switches with ports left, since `sw` is linked to those
  have hi : i ∉ s.U := fun hi => hiv (h.linked sw hsw i hi hisw.symm)
  have hj : j ∉ s.U := fun hj => hjv (h.linked sw hsw j hj hjsw.symm)
  constructor
  case linked =>
    intro x hx y hy hxy
    refine (hsplit.mem_iff ?_ ?_).mpr (.inl (h.linked x hx y hy hxy))
    · rintro ⟨rfl, _⟩
      exact hi hx
    · rintro ⟨rfl, _⟩
      exact hj hx
  case full =>
    intro x hx hxU
    have hne : x ≠ sw := fun heq => hxU (heq ▸ hsw)
    rw [degree_split hsplit, if_neg hne, Nat.add_zero]
    exact h.full x hx hxU
  case left =>
    intro y hy
    rw [degree_split hsplit]
    rcases List.mem_cons.mp hy with rfl | hrest
    · refine ⟨hsw, ?_⟩
      rw [if_pos rfl]
      dsimp only at hle ⊢
      omega
    · obtain ⟨hy1, hy2⟩ := h.left y (List.mem_cons_of_mem _ hrest)
      have hne : y.1 ≠ sw := fun heq => hnodup (List.mem_map.mpr ⟨y, hrest, heq⟩)
      exact ⟨hy1, by rwa [if_neg hne]⟩

lemma Moves.afterPorts (horder : ∀ l, (order l).Perm l) (hm : Moves N r order s s')
    (hw : Wired N r s) (h : AfterPorts N r s)
    (hsat : s.phase = .hack → ∀ x ∈ s.U, ∀ y ∈ s.U, x ≠ y → y ∈ neighbours s.devices x)
    (hsat' : s'.phase = .hack → ∀ x ∈ s'.U, ∀ y ∈ s'.U, x ≠ y → y ∈ neighbours s'.devices x) :
    AfterPorts N r s' := by
  have hbudget := hw.budget
  cases hm with
  | draw => trivial
  | link => trivial
  | giveUp hphase =>
    intro hlt x hx y hy hxy
    exact hsat' rfl x (hw.mem_U hphase hlt hx) y (hw.mem_U hphase hlt hy) hxy
  | hackDraw hphase =>
    rw [AfterPorts, hphase] at h ⊢
    exact h
  | hackLink hphase _ _ _ _ _ hone =>
    rw [AfterPorts, hphase] at h
    exact fun hlt x hx y hy hxy => hone.mem_iff.mpr (.inl (h hlt x hx y hy hxy))
  | count hphase =>
    rw [AfterPorts, hphase] at h
    rw [Budget, hphase] at hbudget
    refine ⟨h, fun _ => ⟨hsat hphase, fun x hx hxU => ?_, fun y hy => ?_⟩⟩
    · have hzero : s.U.count x = 0 := List.count_eq_zero_of_not_mem hxU
      have hx' := hbudget x hx
      rwa [hzero, Nat.add_zero] at hx'
    · obtain ⟨hy1, hy2⟩ := mem_countRemPorts ((horder _).mem_iff.mp hy)
      exact ⟨hy1, hy2 ▸ hbudget _ (hw.ports _ hy1)⟩
  | leave hphase _ =>
    rw [AfterPorts, hphase] at h
    refine ⟨h.1, fun hr => ?_⟩
    obtain ⟨hlinked, hfull, hleft⟩ := h.2 hr
    exact ⟨hlinked, hfull, fun y hy => hleft y (List.mem_cons_of_mem _ hy)⟩
  | redraw hphase =>
    rw [AfterPorts, hphase] at h ⊢
    refine ⟨h.1, fun hr => ?_⟩
    obtain ⟨hlinked, hfull, hleft⟩ := h.2 hr
    exact ⟨hlinked, hfull, hleft⟩
  | split hphase hn hl he hkeys hsplit =>
    rw [AfterPorts, hphase] at h
    rw [Budget, hphase] at hbudget
    have hsw := (hbudget.2.2 _ List.mem_cons_self).1
    exact ⟨fun hlt => absurd he ((h.1 hlt).not_eligible hw hsw hl),
      fun hr => (h.2 hr).split hw hphase hn he hsplit⟩

lemma Reached.afterPorts (horder : ∀ l, (order l).Perm l) (hsat : Saturated N r order hosts rnd)
    (h : Reached N r order hosts rnd s) : AfterPorts N r s := by
  induction h with
  | refl => trivial
  | tail hs hn ih =>
    rename_i s₁ s₂
    have hw := wired_of_reaches horder hs
    exact (moves_of_next hw hn).afterPorts horder hw ih (hsat s₁ hs) (hsat s₂ (hs.tail hn))

lemma sought_eq_some (h : sought s = some sw) :
    ∃ numports rest, s.phase = .expand ((sw, numports) :: rest) ∧ 2 ≤ numports := by
  unfold sought at h
  split at h
  · rename_i sw' numports rest hphase
    split at h
    · cases h
      exact ⟨numports, rest, hphase, ‹_›⟩
    · cases h
  · cases h

/-- A switch that is full is not linked to one with two ports left. -/
lemma PortsTight.room {numports : ℕ} {rest : List (Text × ℕ)}
    (h : PortsTight N r s ((sw, numports) :: rest)) (hw : Wired N r s) (hn : 2 ≤ numports)
    (hr : r ≤ N) : Room N s.devices sw := by
  obtain ⟨hsw, hleft⟩ := h.left _ List.mem_cons_self
  rw [degree] at hleft
  dsimp only at hleft
  obtain ⟨w, hwN, hne, hnot⟩ := exists_not_neighbour (nodup_jellyfishSwitches N)
    (show (neighbours s.devices sw).length + 1 < (jellyfishSwitches N).length by
      rw [length_jellyfishSwitches]
      omega)
  have hfull := h.full w hwN fun hwU => hnot (h.linked sw hsw w hwU hne.symm)
  rw [degree] at hfull
  refine ⟨w, hwN, hne, hnot, ?_⟩
  rw [(hw.simple (.inl hr) sw).dedup, (hw.simple (.inl hr) w).dedup]
  omega

lemma Saturated.room (horder : ∀ l, (order l).Perm l) (hsat : Saturated N r order hosts rnd)
    (hr : r ≤ N) (hs : Reached N r order hosts rnd s) (hsw : sought s = some sw) :
    Room N s.devices sw := by
  obtain ⟨numports, rest, hphase, hn⟩ := sought_eq_some hsw
  have hafter := hs.afterPorts horder hsat
  rw [AfterPorts, hphase] at hafter
  exact (hafter.2 hr).room (wired_of_reaches horder hs) hn hr

/-- With fewer switches than ports per switch there is nothing to split. -/
lemma Saturated.not_eligible (horder : ∀ l, (order l).Perm l)
    (hsat : Saturated N r order hosts rnd) (hlt : N < r) (hs : Reached N r order hosts rnd s)
    (hsw : sought s = some sw) {l : Text × Text} (hl : l ∈ s.links) :
    ¬ Eligible s.devices sw l := by
  obtain ⟨numports, rest, hphase, hn⟩ := sought_eq_some hsw
  have hw := wired_of_reaches horder hs
  have hbudget := hw.budget
  rw [Budget, hphase] at hbudget
  have hafter := hs.afterPorts horder hsat
  rw [AfterPorts, hphase] at hafter
  exact (hafter.1 hlt).not_eligible hw (hbudget.2.2 _ List.mem_cons_self).1 hl

/-- A run whose splits are fresh succeeds. When the first loop leaves no two ports to link, a run
succeeds if and only if whenever it looks for a link to split there are as many switches as ports
per switch, and the link that is drawn is no link that was split before. -/
theorem connectPorts_succeeds (horder : ∀ l, (order l).Perm l) :
    (SplitsFresh N r order hosts rnd → Succeeds N r order hosts rnd) ∧
    (Saturated N r order hosts rnd → (Succeeds N r order hosts rnd ↔
      ∀ s sw, Reached N r order hosts rnd s → sought s = some sw → r ≤ N ∧ DrawsLive s sw)) := by
  refine ⟨SplitsFresh.succeeds horder, fun hsat => ⟨fun h s sw hs hsw => ⟨?_, ?_⟩, fun h => ?_⟩⟩
  · by_contra hr
    obtain ⟨l, hl, he⟩ := h.eligible s sw hs hsw
    exact hsat.not_eligible horder (not_le.mp hr) hs hsw hl he
  · intro l hl he
    by_contra hdead
    obtain ⟨e, hends⟩ := ends_of_stale horder hs hsw (.inr ⟨l.1, l.2, hl, he, hdead⟩)
    exact h.noException e hends
  · refine SplitsFresh.succeeds horder fun s sw hs hsw => ?_
    obtain ⟨hr, hlive⟩ := h s sw hs hsw
    exact ⟨hsat.room horder hr hs hsw, hlive⟩

/-! ### A single switch with two ports left -/

/-- The last loop looks for links for one switch only. -/
def OneSought (N r : ℕ) (order : List (Text × ℕ) → List (Text × ℕ)) (hosts : List Text)
    (rnd : Rnd) : Prop :=
  ∃ sw₀, ∀ s sw, Reached N r order hosts rnd s → sought s = some sw → sw = sw₀

/-- A recorded link is still there, or it was split for `sw`. -/
def SplitFor (s : Jelly) (sw : Text) : Prop :=
  ∀ l ∈ s.links, l.2 ∈ neighbours s.devices l.1 ∨ l.1 ∈ neighbours s.devices sw

lemma Moves.splitFor (hm : Moves N r order s s') (h : SplitFor s sw)
    (hone : ∀ sw', sought s = some sw' → sw' = sw) : SplitFor s' sw := by
  have hlink : ∀ {i j : Text} {devices : Devices},
      OneMore (neighbours s.devices) (neighbours devices) i j → ∀ l ∈ s.links ++ [(i, j)],
        l.2 ∈ neighbours devices l.1 ∨ l.1 ∈ neighbours devices sw := by
    intro i j devices hg l hl
    rcases List.mem_append.mp hl with hl | hl
    · exact (h l hl).imp (fun hm => hg.mem_iff.mpr (.inl hm)) fun hm => hg.mem_iff.mpr (.inl hm)
    · rw [List.mem_singleton.mp hl]
      exact .inl (hg.mem_iff.mpr (.inr (.inl ⟨rfl, rfl⟩)))
  cases hm with
  | draw | giveUp | hackDraw | count | leave | redraw => exact h
  | link _ _ _ _ _ _ _ hg => exact hlink hg
  | hackLink _ _ _ _ _ _ hg => exact hlink hg
  | split hphase hn hl he hkeys hsplit =>
    rename_i rnd sw' numports rest i j devices
    obtain rfl : sw' = sw := hone sw' (by rw [sought, hphase]; exact if_pos hn)
    obtain ⟨hi, hj, hiv, hjv⟩ := he
    -- both ends of the link that is split are linked to the switch from now on
    have hends : ∀ x, x = i ∨ x = j → x ∈ neighbours devices sw' := fun x hx =>
      (hsplit.mem_iff (fun h => hi h.1.symm) (fun h => hj h.1.symm)).mpr (.inr (.inl ⟨rfl, hx⟩))
    intro l hl
    by_cases hl1 : l.1 = i ∨ l.1 = j
    · exact .inr (hends l.1 hl1)
    · rw [not_or] at hl1
      have hkeep : ∀ {x y}, x ≠ i → x ≠ j → y ∈ neighbours s.devices x → y ∈ neighbours devices x :=
        fun hxi hxj hy => (hsplit.mem_iff (fun h => hxi h.1) (fun h => hxj h.1)).mpr (.inl hy)
      rcases List.mem_append.mp hl with hl | hl
      · rcases List.mem_append.mp hl with hl | hl
        · exact (h l hl).imp (hkeep hl1.1 hl1.2) (hkeep hi.symm hj.symm)
        · exact absurd (congrArg Prod.fst (List.mem_singleton.mp hl)) hl1.1
      · exact absurd (congrArg Prod.fst (List.mem_singleton.mp hl)) hl1.2

/-- With a single switch to serve no link is split twice. -/
theorem OneSought.drawsLive (horder : ∀ l, (order l).Perm l) (h : OneSought N r order hosts rnd)
    (hs : Reached N r order hosts rnd s) (hsw : sought s = some sw) : DrawsLive s sw := by
  obtain ⟨sw₀, hone⟩ := h
  obtain rfl := hone s sw hs hsw
  have hinv : SplitFor s sw := by
    clear hsw
    induction hs with
    | refl => exact fun l hl => absurd hl List.not_mem_nil
    | tail hs hn ih =>
      exact (moves_of_next (wired_of_reaches horder hs) hn).splitFor ih
        fun sw' hsw' => hone _ sw' hs hsw'
  intro l hl he
  exact (hinv l (choice_mem hl)).resolve_right he.2.2.1

/-- So the failures need two switches with two ports left, or fewer switches than ports per
switch. -/
theorem connectPorts_oneSought (horder : ∀ l, (order l).Perm l)
    (hsat : Saturated N r order hosts rnd) (hr : r ≤ N) (h : OneSought N r order hosts rnd) :
    Succeeds N r order hosts rnd :=
  SplitsFresh.succeeds horder fun _ _ hs hsw =>
    ⟨hsat.room horder hr hs hsw, h.drawsLive horder hs hsw⟩

/-! ### Two runs of six switches -/

/-- The draws of the list, and zeros after them. -/
def drawn : List ℕ → Rnd
  | [], _ => 0
  | a :: _, 0 => a
  | _ :: l, n + 1 => drawn l n

/-- Draws that leave two ports at the last switch, and split a link of two others. -/
def freshDraws : Rnd := drawn [1, 2, 0, 1, 2, 0, 1, 3, 5, 2, 1, 5, 3, 4, 0, 2]

instance (devices : Devices) (sw : Text) (l : Text × Text) : Decidable (Eligible devices sw l) :=
  inferInstanceAs (Decidable (_ ∧ _ ∧ _ ∧ _))

instance (N : ℕ) (devices : Devices) (sw : Text) : Decidable (Room N devices sw) :=
  inferInstanceAs (Decidable (∃ w ∈ jellyfishSwitches N, _))

instance (s : Jelly) (sw : Text) : Decidable (DrawsLive s sw) :=
  inferInstanceAs (Decidable (∀ l ∈ choice (s.rnd 0) s.links, _))

theorem connectPorts_succeeds_sixSwitches : Succeeds 6 3 id [] freshDraws := by
  refine (connectPorts_succeeds fun l => .refl l).1 fun s sw hs hsw => ?_
  have hrun : (Loop.run (connectStep 6 3 id) 15
      (connectStart 6 3 [] freshDraws)).isSome = true := by
    rfl
  have hall : ∀ s ∈ Loop.states (connectStep 6 3 id) 15 (connectStart 6 3 [] freshDraws),
      ∀ sw ∈ sought s, Room 6 s.devices sw ∧ DrawsLive s sw := by
    decide +kernel
  exact hall s (hs.mem_states hrun) sw hsw

/-- Draws that link four switches to one another and the other two to each other. -/
def staleDraws : Rnd := drawn [0, 1, 4, 0, 8, 0, 2, 3, 5, 2, 4, 5, 0, 1]

/-- The state after the draws of `staleDraws`: the first link that was recorded is drawn from now
on, and the same port twice. -/
def twoLeft (phase : Phase) : Jelly where
  phase := phase
  devices := [(jellyfishName 0, [jellyfishName 1, jellyfishName 2, jellyfishName 3]),
    (jellyfishName 1, [jellyfishName 0, jellyfishName 2, jellyfishName 3]),
    (jellyfishName 2, [jellyfishName 0, jellyfishName 1, jellyfishName 3]),
    (jellyfishName 3, [jellyfishName 0, jellyfishName 1, jellyfishName 2]),
    (jellyfishName 4, [jellyfishName 5]), (jellyfishName 5, [jellyfishName 4])]
  links := [(jellyfishName 0, jellyfishName 1), (jellyfishName 0, jellyfishName 2),
    (jellyfishName 0, jellyfishName 3), (jellyfishName 1, jellyfishName 2),
    (jellyfishName 1, jellyfishName 3), (jellyfishName 2, jellyfishName 3),
    (jellyfishName 4, jellyfishName 5)]
  U := [jellyfishName 4, jellyfishName 5, jellyfishName 4, jellyfishName 5]
  rnd := drawn []

lemma reached_twoLeft : Reached 6 3 id [] staleDraws (twoLeft (.ports 7)) := by
  have hlast : (Loop.states (connectStep 6 3 id) 7 (connectStart 6 3 [] staleDraws))[7]? =
      some (twoLeft (.ports 7)) := by
    rfl
  exact Loop.reaches_of_mem_states (List.mem_of_getElem? hlast)

lemma twoLeft_next {index : ℕ} (h : index + 1 < 100000) :
    connectStep 6 3 id (twoLeft (.ports index)) = .next (twoLeft (.ports (index + 1))) := by
  refine connectStep_ports rfl ?_
  have hgoes : ¬ ((twoLeft (.ports index)).U = [] ∨ 100000 ≤ index + 1) := by
    rw [not_or, not_le]
    exact ⟨List.cons_ne_nil _ _, h⟩
  rw [portsPass, if_neg hgoes]
  rfl

/-- The first loop gives up, since the only ports that are left belong to the last two switches. -/
lemma twoLeft_hack : Reached 6 3 id [] staleDraws (twoLeft .hack) := by
  have hdraws : ∀ k, 7 + k < 100000 →
      Reached 6 3 id [] staleDraws (twoLeft (.ports (7 + k))) := by
    intro k hk
    induction k with
    | zero => exact reached_twoLeft
    | succ k ih => exact (ih (by omega)).tail (twoLeft_next (by omega))
  exact (hdraws 99992 (by omega)).tail
    (connectStep_ports rfl (if_pos (.inr (Nat.le_refl 100000))))

/-- Both of the last two switches split the first link that was recorded. -/
theorem connectPorts_stale : ¬ Succeeds 6 3 id [] staleDraws := by
  intro h
  have herror : Loop.Returns (connectStep 6 3 id) (twoLeft .hack)
      (.error (.value "list.remove(x): x not in list".toList)) := ⟨5, by rfl⟩
  exact h.noException _ (herror.of_reaches twoLeft_hack)

end ResSim
