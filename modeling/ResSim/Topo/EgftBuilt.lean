import Mathlib.Tactic.NormNum.Prime
import ResSim.Topo.Egft
import ResSim.Topo.EgftOpt

/-!
# Generating the optimal fat trees

The optimizer hands its tuple to the generator. A feasible tree with at least two levels is built
within the radix; a tree with one level is not, and neither is one with more hosts than the
generator can number.
-/

namespace ResSim

/-- What the generator builds from a printed tuple: a symmetric map of the switches and the hosts,
every host at one switch of level 1, and ports within the radix. -/
structure IsEgft (args : EgftArgs) (topo : EGFT) (hosts : List Text) (devices : Devices) :
    Prop where
  keys_nodup : (devices.map Prod.fst).Nodup
  keys : ∀ x, x ∈ devices.map Prod.fst ↔ x ∈ egftSwitches topo.L topo.M topo.C ∨ x ∈ hosts
  switches_nodup : (egftSwitches topo.L topo.M topo.C).Nodup
  numsw : (egftSwitches topo.L topo.M topo.C).length = topo.numsw
  symm : ∀ x y, (neighbours devices x).count y = (neighbours devices y).count x
  attached : ∀ h ∈ hosts, ∃ sw ∈ level1 topo.M topo.C, neighbours devices h = [sw]
  radix : ∀ sw ∈ egftSwitches topo.L topo.M topo.C, degree devices sw ≤ args.radix

variable {F : Factorizer} {draws : EGFT → ℕ → ℕ → Rnd} {order order' : List ℕ → List ℕ}
  {args : EgftArgs} {topo : EGFT} {fuel : ℕ} {hosts : List Text} {hostArgs : HostArgs}

lemma FeasibleTree.take_C (h : FeasibleTree args topo) : topo.C.take 1 = [1] := by
  have hhead := h.head_C
  have hne : topo.C ≠ [] := by
    intro hnil
    simp [hnil] at hhead
  obtain ⟨c, C, hC⟩ := List.exists_cons_of_ne_nil hne
  rw [hC, List.getD_cons_zero] at hhead
  rw [hC, hhead, List.take_succ_cons, List.take_zero]

/-- The switches of level 1 have room for the hosts of the tuple. -/
lemma FeasibleTree.level1_room (h : FeasibleTree args topo) (hL : 2 ≤ topo.L) :
    level1 topo.M topo.C ≠ [] ∧
      topo.numhosts = (level1 topo.M topo.C).length * topo.M.getD 0 0 := by
  obtain ⟨_, _, hhosts⟩ := fromtuple_eq_some.mp h.closed
  have hpos := h.pos_numhosts hL
  obtain ⟨m, M, hM⟩ := List.exists_cons_of_ne_nil h.ne_nil
  have hlen : (level1 topo.M topo.C).length = M.prod := by
    rw [level1, length_egftLevel, h.take_C, hM, List.prod_singleton, one_mul, List.drop_succ_cons,
      List.drop_zero]
  rw [hhosts, hM, List.prod_cons] at hpos
  refine ⟨List.ne_nil_of_length_pos ?_, ?_⟩
  · rw [hlen]
    exact Nat.pos_of_mul_pos_left hpos
  · rw [hlen, hhosts, hM, List.prod_cons, List.getD_cons_zero, Nat.mul_comm]

/-- A single level has at most as many hosts as the radix. -/
lemma FeasibleTree.numhosts_le (h : FeasibleTree args topo) (hL : topo.L < 2) :
    topo.numhosts ≤ args.radix := by
  obtain ⟨_, _, hhosts⟩ := fromtuple_eq_some.mp h.closed
  have hpos : 0 < topo.L := List.length_pos_iff.mpr h.ne_nil
  obtain ⟨m, hM⟩ := List.length_eq_one_iff.mp (show topo.M.length = 1 by rw [EGFT.L] at *; omega)
  have hdown := h.down 0 hpos
  rw [h.head_K, hM, List.getD_cons_zero, Nat.mul_one] at hdown
  rwa [hhosts, hM, List.prod_singleton]

/-- A feasible tree is built from any distinct hosts that are no switches. -/
lemma Suits.built (h : Suits args topo) (horder : ∀ l, (order l).Perm l) (hL : 2 ≤ topo.L)
    (hargs : getHosts hostArgs = .ok hosts) (hlen : hosts.length = args.numhosts)
    (hn : hosts.Nodup) (hd : ∀ h ∈ hosts, h ∉ egftSwitches topo.L topo.M topo.C) :
    ∃ devices, egft order topo.L topo.M topo.C topo.K hostArgs = .ok devices ∧
      IsEgft args topo hosts devices := by
  obtain ⟨hf, hle⟩ := h
  have hC := topo.length_C.symm
  have hK := topo.length_K.symm
  have hM : 0 < topo.M.length := List.length_pos_iff.mpr hf.ne_nil
  obtain ⟨hne, hroom⟩ := hf.level1_room hL
  obtain ⟨devices, hrun, ha⟩ := egft_appended hC hK horder hL hne hargs
  refine ⟨devices, hrun, ?_⟩
  constructor
  case keys_nodup => rw [ha.keys]; exact nodup_startDevices ..
  case keys => intro x; rw [ha.keys, mem_keys_startDevices, List.mem_append, EGFT.L]
  case switches_nodup => exact nodup_egftSwitches hC hM
  case numsw => rw [length_egftSwitches, (fromtuple_eq_some.mp hf.closed).1]
  case symm => exact egft_symm ha
  case attached => exact fun h hh => egft_host ha hC horder hd hne hn hM hh
  case radix =>
    intro sw hsw
    obtain ⟨i, h1, hi, hdeg⟩ := egft_degree ha hC horder hd hM (s := topo.M.getD 0 0)
      (by rw [← hroom, hlen]; exact hle) hsw
    refine hdeg.trans ?_
    by_cases htwo : 2 ≤ i
    · rw [if_pos htwo]
      by_cases htop : i < topo.M.length
      · have hup := hf.up (i - 1) (by rw [EGFT.L]; omega)
        rw [Nat.sub_add_cancel h1] at hup
        rw [if_pos htop]
        omega
      · have hdown := hf.down (i - 1) (by rw [EGFT.L]; omega)
        rw [if_neg htop]
        omega
    · obtain rfl : i = 1 := by omega
      have hup := hf.up 0 hL
      rw [hf.head_K, Nat.mul_one, Nat.zero_add] at hup
      rw [if_neg htwo, if_pos (show 1 < topo.M.length from hL)]
      omega

lemma not_mem_egftSwitches {L : ℕ} {M C : List ℕ} {h : Text} (hne : ∀ swaddr, h ≠ swName swaddr) :
    h ∉ egftSwitches L M C := by
  intro hmem
  obtain ⟨i, _, _, a, _, rfl⟩ := mem_egftSwitches.mp hmem
  exact hne _ rfl

/-- The same for the hosts that are numbered. -/
lemma Suits.built_num (h : Suits args topo) (horder : ∀ l, (order l).Perm l) (hL : 2 ≤ topo.L)
    (hlt : args.numhosts < 2 ^ 31) :
    ∃ hosts devices, getHosts (.num args.numhosts) = .ok hosts ∧
      egft order topo.L topo.M topo.C topo.K (.num args.numhosts) = .ok devices ∧
      IsEgft args topo hosts devices := by
  obtain ⟨hosts, hargs, hlen, hn, hne⟩ := getHosts_num hlt
  obtain ⟨devices, hrun, his⟩ := h.built horder hL hargs hlen hn
    (fun h hh => not_mem_egftSwitches (hne h hh))
  exact ⟨hosts, devices, hargs, hrun, his⟩

/-- The printed tuple is feasible as built, with numbered hosts or with hosts from a file. -/
theorem egftOpt_builds (horder : ∀ l, (order l).Perm l) (horder' : ∀ l, (order' l).Perm l)
    (hb : args.bisec ≤ 1) (h : egftOpt F draws order args fuel = some (some topo))
    (hL : 2 ≤ topo.L) :
    EGFT.fromtuple topo.M topo.C topo.K = some topo ∧
    (∀ l < topo.L, args.bisec * (topo.M.take l).prod ≤
      ((topo.C.take (l + 1)).prod : ℚ) * topo.K.getD l 0) ∧
    (args.numhosts < 2 ^ 31 → ∃ hosts devices, getHosts (.num args.numhosts) = .ok hosts ∧
      egft order' topo.L topo.M topo.C topo.K (.num args.numhosts) = .ok devices ∧
      IsEgft args topo hosts devices) ∧
    ∀ hosts : List Text, hosts.length = args.numhosts → hosts.Nodup →
      (∀ h ∈ hosts, h ∉ egftSwitches topo.L topo.M topo.C) →
      ∃ devices, egft order' topo.L topo.M topo.C topo.K (.file hosts) = .ok devices ∧
        IsEgft args topo hosts devices := by
  obtain ⟨hs, _⟩ := egftOpt_suits horder h
  refine ⟨hs.1.closed, fun l hl => ?_, hs.built_num horder' hL, fun hosts hlen hn hd =>
    hs.built horder' hL rfl hlen hn hd⟩
  rcases Nat.eq_zero_or_pos l with rfl | hpos
  · rw [hs.1.take_C, hs.1.head_K]
    simpa using hb
  · exact hs.1.bisec l hpos hl

/-- Four hosts at switches with three ports, and half the bisection bandwidth. -/
def fourHosts : EgftArgs := ⟨4, 1 / 2, 3, by norm_num⟩

/-- Two switches with two hosts each below a third one. -/
def threeSwitches : EGFT := (EGFT.fromtuple [2, 2] [1, 1] [1, 1]).get rfl

/-- What is drawn where it makes no difference. -/
def noDraws (_ : EGFT) (_ _ : ℕ) : Rnd := fun _ => 0

lemma egftOpt_fourHosts : egftOpt .exact noDraws id fourHosts 4 = some (some threeSwitches) := by
  decide +kernel

theorem egftOpt_builds_fourHosts :
    ∃ hosts devices, getHosts (.num 4) = .ok hosts ∧
      egft id 2 [2, 2] [1, 1] [1, 1] (.num 4) = .ok devices ∧
      IsEgft fourHosts threeSwitches hosts devices :=
  (egftOpt_builds (fun l => .refl l) (fun l => .refl l) (by norm_num [fourHosts])
    egftOpt_fourHosts (by decide)).2.2.1 (by decide)

section ManyHosts

/-- More hosts than a signed word can number. -/
def manyHosts : EgftArgs := ⟨2 ^ 31, 1, 131075, one_pos⟩

/-- A tree with one switch of `m1` ports for hosts. -/
def single (m1 : ℕ) : EGFT := (EGFT.fromtuple [m1] [1] [1]).get rfl

/-- The tree that is found for `manyHosts`. -/
def manyTree : EGFT := (single 65537).fromegft 32768 65537 1

lemma fromtuple_single (m1 : ℕ) : EGFT.fromtuple [m1] [1] [1] = some (single m1) := rfl

@[simp] lemma single_numhosts (m1 : ℕ) : (single m1).numhosts = m1 := by
  simp [single, EGFT.fromtuple]

@[simp] lemma single_numtopsw (m1 : ℕ) : (single m1).numtopsw = 1 := rfl

@[simp] lemma single_numsw (m1 : ℕ) : (single m1).numsw = 1 := rfl

lemma minCiKi_single (m1 : ℕ) : minCiKi manyHosts (single m1) = m1 := by
  simp [minCiKi, manyHosts]

lemma maxCiKi_single (m1 : ℕ) : maxCiKi manyHosts (single m1) = min m1 (131075 - m1) := by
  simp [maxCiKi, oldMiKi, manyHosts, single, EGFT.fromtuple]

lemma egftOptStep_of {s : Option EGFT × Option EGFT} {m1 : ℕ} {r : Option EGFT}
    (hrec : egftRecurse F draws order args fuel (single m1) s.1 = some r) :
    egftOptStep F draws order args fuel s m1 =
      if r.any (fun t => s.1.all fun b => t.numsw < b.numsw) then some (r, r)
      else some (s.1, r) := by
  simp only [egftOptStep, fromtuple_single, hrec, Option.bind_eq_bind, Option.bind_some]

lemma egftOpt_of {s : Option EGFT × Option EGFT}
    (hfold : (List.range' (args.radix / 2) (args.radix + 1 - args.radix / 2)).foldlM
      (egftOptStep F draws order args fuel) (none, none) = some s) :
    egftOpt F draws order args fuel = if s.1.isSome then some s.2 else some none := by
  rw [egftOpt, hfold, Option.bind_eq_bind, Option.bind_some]

lemma egftRecurse_manyTree {fuel : ℕ} :
    egftRecurse .exact noDraws id manyHosts (fuel + 1) manyTree none = some (some manyTree) := by
  rw [egftRecurse, if_neg (by simp), if_pos]
  simp only [manyTree, EGFT.fromegft, single_numhosts, manyHosts]
  norm_num

/-- The only tree of one level with ports left for full bisection bandwidth. -/
lemma egftOptStep_first :
    egftOptStep .exact noDraws id manyHosts 3 (none, none) 65537 =
      some (some manyTree, some manyTree) := by
  have hmi : miVals manyHosts (single 65537) = [32768] := by
    simp [miVals, manyHosts]
  have hci : ciKiVals manyHosts (single 65537) = [65537] := by
    rw [ciKiVals, minCiKi_single, maxCiKi_single]
    norm_num
  have hfactors : ∀ rnd, Factorizer.exact.primefactors 2 rnd 65537 = some [65537] :=
    fun _ => Factorizer.primefactors_exact (by norm_num) (by norm_num)
  have hki : kiVals id manyHosts.radix 32768 [65537] = [1] := by decide
  have hrec : egftRecurse .exact noDraws id manyHosts 3 (single 65537) none =
      some (some manyTree) := by
    rw [egftRecurse, if_neg (by simp), if_neg (by simp [manyHosts]), if_neg (by simp),
      if_neg (by simp [minCiKi_single, maxCiKi_single]), if_neg (by simp), hmi, hci]
    simp only [List.foldlM_cons, List.foldlM_nil, hfactors, hki, Option.bind_eq_bind,
      Option.bind_some, Nat.div_one, bind_pure]
    exact egftRecurse_manyTree
  exact (egftOptStep_of (s := (none, none)) hrec).trans (if_pos rfl)

/-- Larger ones leave too few ports. -/
lemma egftOptStep_later {m1 : ℕ} (hm : 65538 ≤ m1) (hlt : m1 ≤ 131075) :
    egftOptStep .exact noDraws id manyHosts 3 (some manyTree, some manyTree) m1 =
      some (some manyTree, some manyTree) := by
  have hrec : egftRecurse .exact noDraws id manyHosts 3 (single m1) (some manyTree) =
      some (some manyTree) := by
    rw [egftRecurse, if_neg, if_neg, if_neg (by simp), if_pos]
    · rw [minCiKi_single, maxCiKi_single]
      omega
    · rw [single_numhosts, manyHosts]
      dsimp only
      omega
    · simp [manyTree, EGFT.fromegft]
  refine (egftOptStep_of (s := (some manyTree, some manyTree)) hrec).trans (if_neg ?_)
  rw [Option.any_some, Option.all_some, decide_eq_true_eq]
  exact lt_irrefl _

/-- With one host more than a signed word can number a tree is printed, and it cannot be
generated for numbered hosts. -/
theorem egftOpt_manyHosts : ∃ topo, egftOpt .exact noDraws id manyHosts 3 = some (some topo) ∧
    2 ≤ topo.L ∧ egft id topo.L topo.M topo.C topo.K (.num (2 ^ 31)) = .error .struct := by
  refine ⟨manyTree, ?_, by decide, ?_⟩
  · have hrange : List.range' (manyHosts.radix / 2) (manyHosts.radix + 1 - manyHosts.radix / 2) =
        65537 :: List.range' 65538 65538 := by
      simp only [manyHosts, Nat.reduceAdd, Nat.reduceDiv, Nat.reduceSub]
      rw [List.range'_succ]
    have hlater : (List.range' 65538 65538).foldlM (egftOptStep .exact noDraws id manyHosts 3)
        (some manyTree, some manyTree) = some (some manyTree, some manyTree) :=
      foldlM_fixed fun m1 hm => by
        have := List.mem_range'_1.mp hm
        exact egftOptStep_later this.1 (by omega)
    refine (egftOpt_of (s := (some manyTree, some manyTree)) ?_).trans (if_pos rfl)
    rw [hrange, List.foldlM_cons, egftOptStep_first, Option.bind_eq_bind, Option.bind_some, hlater]
  · rw [egft, if_neg (by decide), getHosts_num_error le_rfl]
    rfl

end ManyHosts

/-- The printed tuple can be generated if and only if the hosts need more than one switch and can
be numbered. -/
theorem egftOpt_generates_iff (horder : ∀ l, (order l).Perm l) (horder' : ∀ l, (order' l).Perm l)
    (h : egftOpt F draws order args fuel = some (some topo)) :
    (∃ hosts devices, getHosts (.num args.numhosts) = .ok hosts ∧
      egft order' topo.L topo.M topo.C topo.K (.num args.numhosts) = .ok devices ∧
      ∀ h ∈ hosts, ∃ sw, neighbours devices h = [sw]) ↔
    args.radix < args.numhosts ∧ args.numhosts < 2 ^ 31 := by
  obtain ⟨hs, hone⟩ := egftOpt_suits horder h
  constructor
  · rintro ⟨hosts, devices, hargs, hrun, _⟩
    constructor
    · by_contra hle
      exact egft_single (hone (not_lt.mp hle)) devices hrun
    · by_contra hle
      rw [getHosts_num_error (not_lt.mp hle)] at hargs
      cases hargs
  · rintro ⟨hradix, hlt⟩
    have hL : 2 ≤ topo.L := by
      by_contra hL
      have := hs.1.numhosts_le (not_le.mp hL)
      have := hs.2
      omega
    obtain ⟨hosts, devices, hargs, hrun, his⟩ := hs.built_num horder' hL hlt
    refine ⟨hosts, devices, hargs, hrun, fun h hh => ?_⟩
    obtain ⟨sw, _, hsw⟩ := his.attached h hh
    exact ⟨sw, hsw⟩

theorem egftOpt_generates_iff_fourHosts :
    (∃ hosts devices, getHosts (.num 4) = .ok hosts ∧
      egft id 2 [2, 2] [1, 1] [1, 1] (.num 4) = .ok devices ∧
      ∀ h ∈ hosts, ∃ sw, neighbours devices h = [sw]) ↔ 3 < 4 ∧ 4 < 2 ^ 31 :=
  egftOpt_generates_iff (fun l => .refl l) (fun l => .refl l) egftOpt_fourHosts

/-- One host at switches with two ports. -/
def oneHost : EgftArgs := ⟨1, 1, 2, one_pos⟩

/-- A single switch is printed, and the generator looks for `levels[1]` in vain. -/
theorem egftOpt_oneHost :
    ∃ topo, egftOpt .exact noDraws id oneHost 1 = some (some topo) ∧
      egft id topo.L topo.M topo.C topo.K (.num 1) = .error .key :=
  ⟨(EGFT.fromtuple [2] [1] [1]).get rfl, by decide +kernel, by decide⟩

end ResSim
