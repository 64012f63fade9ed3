import Mathlib.Algebra.BigOperators.Group.List.Lemmas
import Mathlib.Algebra.BigOperators.Ring.List
import Mathlib.Algebra.Order.Floor.Semiring
import Mathlib.Algebra.Order.Archimedean.Basic
import Mathlib.Algebra.Order.BigOperators.Group.List
import Mathlib.Algebra.Order.BigOperators.GroupWithZero.List
import Mathlib.Data.List.Dedup
import Mathlib.Data.List.GetD
import Mathlib.Data.List.Sublists
import Mathlib.Data.Rat.Floor
import Mathlib.Tactic.Linarith
import ResSim.Lib.Traverse
import ResSim.Topo.Factorize

/-!
# Optimal extended generalized fat trees

The search extends a tree by one level at a time: the number of children and the numbers of
parents and parallel links of the new level are tried within the port budget that the level
below leaves, and a best tree with enough hosts is carried along.
-/

namespace ResSim

/-- `args`. The bisection bandwidth is positive. -/
structure EgftArgs where
  numhosts : ℕ
  bisec : ℚ
  radix : ℕ
  bisec_pos : 0 < bisec

/-- A fat tree; the constructor raises unless `M`, `C` and `K` have the same length. -/
@[ext] structure EGFT where
  M : List ℕ
  C : List ℕ
  K : List ℕ
  numsw : ℕ
  numtopsw : ℕ
  numhosts : ℕ
  length_C : M.length = C.length
  length_K : M.length = K.length
  deriving DecidableEq

namespace EGFT

def L (topo : EGFT) : ℕ := topo.M.length

def fromtuple (M C K : List ℕ) : Option EGFT :=
  if h : M.length = C.length ∧ M.length = K.length then
    some {
      M := M
      C := C
      K := K
      numsw := ((List.range M.length).map fun i => (M.drop (i + 1)).prod * (C.take (i + 1)).prod).sum
      numtopsw := C.prod
      numhosts := M.prod
      length_C := h.1
      length_K := h.2 }
  else none

def fromegft (egft : EGFT) (mi ci ki : ℕ) : EGFT where
  M := egft.M ++ [mi]
  C := egft.C ++ [ci]
  K := egft.K ++ [ki]
  numsw := egft.numtopsw * ci + egft.numsw * mi
  numtopsw := egft.numtopsw * ci
  numhosts := egft.numhosts * mi
  length_C := by rw [List.length_append, List.length_append, egft.length_C]; rfl
  length_K := by rw [List.length_append, List.length_append, egft.length_K]; rfl

end EGFT

/-- The set `ki_vals` for a factorization, as it is built; the order of a set is `order`. -/
def kiVals (order : List ℕ → List ℕ) (radix mi : ℕ) (factors : List ℕ) : List ℕ :=
  order ((((List.range (factors.length + 1)).flatMap fun r =>
    (factors.sublistsLen r).map List.prod).filter fun newKi => newKi * mi ≤ radix).dedup)

section Search

-- `draws` are the numbers that `primefactors` draws: the search calls it once for a tree, `mi`
-- and `ci_ki`
variable (F : Factorizer) (draws : EGFT → ℕ → ℕ → Rnd) (order : List ℕ → List ℕ) (args : EgftArgs)

/-- `min_ci_ki`. -/
def minCiKi (topo : EGFT) : ℕ := ⌈args.bisec * topo.numhosts / topo.numtopsw⌉₊

/-- `old_mi_ki`. -/
def oldMiKi (topo : EGFT) : ℕ := topo.M.getLastD 0 * topo.K.getLastD 0

/-- `max_ci_ki`. -/
def maxCiKi (topo : EGFT) : ℕ := min (oldMiKi topo) (args.radix - oldMiKi topo)

/-- The values of `mi`. -/
def miVals (topo : EGFT) : List ℕ :=
  let remModules := (args.numhosts + topo.numhosts - 1) / topo.numhosts
  if remModules < args.radix then [remModules] else List.range' 2 (args.radix - 1)

/-- The values of `ci_ki`. -/
def ciKiVals (topo : EGFT) : List ℕ :=
  List.range' (minCiKi args topo) (maxCiKi args topo + 1 - minCiKi args topo)

/-- `egft_recurse`. The result is `none` where a division by zero raises, or when the recursion
depth was used up. -/
def egftRecurse : ℕ → EGFT → Option EGFT → Option (Option EGFT)
  | 0, _, _ => none
  | fuel + 1, topo, best =>
    if best.any (fun b => b.numsw < topo.numsw) then some best
    else if args.numhosts ≤ topo.numhosts then some (some topo)
    else if topo.numtopsw = 0 then none
    else if maxCiKi args topo < minCiKi args topo then some best
    else if topo.numhosts = 0 then none
    else
      (miVals args topo).foldlM (fun best mi =>
        (ciKiVals args topo).foldlM (fun best ciKi => do
          let factors ← F.primefactors fuel (draws topo mi ciKi) ciKi
          (kiVals order args.radix mi factors).foldlM (fun best ki =>
            egftRecurse fuel (topo.fromegft mi (ciKi / ki) ki) best) best) best) best

/-- One pass of the loop over `m1`; the state holds the best tree and the last result. -/
def egftOptStep (fuel : ℕ) (s : Option EGFT × Option EGFT) (m1 : ℕ) :
    Option (Option EGFT × Option EGFT) := do
  let start ← EGFT.fromtuple [m1] [1] [1]
  let topo ← egftRecurse F draws order args fuel start s.1
  if topo.any (fun t => s.1.all fun b => t.numsw < b.numsw) then some (topo, topo)
  else some (s.1, topo)

/-- `egft_opt`: the tree that is printed, if any. The loop's last result is printed. -/
def egftOpt (fuel : ℕ) : Option (Option EGFT) := do
  let s ← (List.range' (args.radix / 2) (args.radix + 1 - args.radix / 2)).foldlM
    (egftOptStep F draws order args fuel) (none, none)
  if s.1.isSome then some s.2 else some none

end Search

/-! ### Feasible trees -/

/-- A tree with the closed forms of its counts, the bisection bandwidth at every level above the
first one, and ports within the radix. -/
structure FeasibleTree (args : EgftArgs) (topo : EGFT) : Prop where
  closed : EGFT.fromtuple topo.M topo.C topo.K = some topo
  ne_nil : topo.M ≠ []
  head_C : topo.C.getD 0 0 = 1
  head_K : topo.K.getD 0 0 = 1
  pos_C : ∀ c ∈ topo.C, 0 < c
  pos_numhosts : 2 ≤ topo.L → 0 < topo.numhosts
  bisec : ∀ l, 1 ≤ l → l < topo.L →
    args.bisec * (topo.M.take l).prod ≤ ((topo.C.take (l + 1)).prod : ℚ) * topo.K.getD l 0
  down : ∀ l < topo.L, topo.M.getD l 0 * topo.K.getD l 0 ≤ args.radix
  up : ∀ l, l + 1 < topo.L → topo.M.getD l 0 * topo.K.getD l 0 +
    topo.C.getD (l + 1) 0 * topo.K.getD (l + 1) 0 ≤ args.radix

variable {args : EgftArgs} {topo : EGFT} {m1 mi ci ki : ℕ}

lemma fromtuple_eq_some : EGFT.fromtuple topo.M topo.C topo.K = some topo ↔
    topo.numsw = ((List.range topo.L).map fun i =>
      (topo.M.drop (i + 1)).prod * (topo.C.take (i + 1)).prod).sum ∧
    topo.numtopsw = topo.C.prod ∧ topo.numhosts = topo.M.prod := by
  rw [EGFT.fromtuple, dif_pos ⟨topo.length_C, topo.length_K⟩, Option.some.injEq, EGFT.ext_iff]
  simp only [true_and, eq_comm, EGFT.L]

lemma FeasibleTree.base (hm : m1 ≤ args.radix) (h : EGFT.fromtuple [m1] [1] [1] = some topo) :
    FeasibleTree args topo ∧ topo.L = 1 ∧ topo.numhosts = m1 := by
  have h' : topo = _ := (Option.some.inj h).symm
  have hlt : ∀ l < topo.L, l = 0 := fun l hl => by simpa [h', EGFT.L] using hl
  refine ⟨?_, by simp [h', EGFT.L], by simp [h']⟩
  constructor
  case closed => rw [h']; rfl
  case ne_nil => simp [h']
  case head_C => simp [h']
  case head_K => simp [h']
  case pos_C => simp [h']
  case pos_numhosts => simp [h', EGFT.L]
  case bisec =>
    intro l hl hl'
    have := hlt l hl'
    omega
  case down =>
    intro l hl
    obtain rfl := hlt l hl
    simpa [h'] using hm
  case up =>
    intro l hl
    have := hlt _ hl
    omega

/-- The incremental counts are the closed forms again. -/
lemma fromtuple_fromegft (h : EGFT.fromtuple topo.M topo.C topo.K = some topo) (mi ci ki : ℕ) :
    EGFT.fromtuple (topo.fromegft mi ci ki).M (topo.fromegft mi ci ki).C
      (topo.fromegft mi ci ki).K = some (topo.fromegft mi ci ki) := by
  obtain ⟨hsw, htop, hhosts⟩ := fromtuple_eq_some.mp h
  refine fromtuple_eq_some.mpr ⟨?_, ?_, ?_⟩
  · have hlevels : ∀ i ∈ List.range topo.L,
        ((topo.M ++ [mi]).drop (i + 1)).prod * ((topo.C ++ [ci]).take (i + 1)).prod =
          (topo.M.drop (i + 1)).prod * (topo.C.take (i + 1)).prod * mi := by
      intro i hi
      have hi' := List.mem_range.mp hi
      rw [EGFT.L] at hi'
      rw [List.drop_append_of_le_length hi', List.take_append_of_le_length (topo.length_C ▸ hi'),
        List.prod_append, List.prod_singleton, mul_right_comm]
    have hlast : ((topo.M ++ [mi]).drop (topo.L + 1)).prod *
        ((topo.C ++ [ci]).take (topo.L + 1)).prod = topo.numtopsw * ci := by
      rw [List.drop_of_length_le (by simp [EGFT.L]), List.take_of_length_le
        (by simp [EGFT.L, topo.length_C]), List.prod_nil, one_mul, List.prod_append,
        List.prod_singleton, htop]
    change topo.numtopsw * ci + topo.numsw * mi = ((List.range (topo.M ++ [mi]).length).map fun i =>
      ((topo.M ++ [mi]).drop (i + 1)).prod * ((topo.C ++ [ci]).take (i + 1)).prod).sum
    have hlen : (topo.M ++ [mi]).length = topo.L + 1 := by
      rw [List.length_append, List.length_singleton, EGFT.L]
    rw [hlen, List.range_succ, List.map_append, List.sum_append, List.map_congr_left hlevels,
      List.map_singleton, List.sum_singleton, List.sum_map_mul_right, hlast, hsw, Nat.add_comm]
  · change topo.numtopsw * ci = (topo.C ++ [ci]).prod
    rw [List.prod_append, List.prod_singleton, htop]
  · change topo.numhosts * mi = (topo.M ++ [mi]).prod
    rw [List.prod_append, List.prod_singleton, hhosts]

lemma getD_append_lt {l : List ℕ} {x n : ℕ} (h : n < l.length) :
    (l ++ [x]).getD n 0 = l.getD n 0 :=
  List.getD_append _ _ _ _ h

lemma getD_append_length {l : List ℕ} {x n : ℕ} (h : n = l.length) :
    (l ++ [x]).getD n 0 = x := by
  rw [h, List.getD_append_right _ _ _ _ le_rfl, Nat.sub_self, List.getD_cons_zero]

lemma oldMiKi_eq : oldMiKi topo =
    topo.M.getD (topo.L - 1) 0 * topo.K.getD (topo.L - 1) 0 := by
  have hlast : ∀ l : List ℕ, l.getLastD 0 = l.getD (l.length - 1) 0 := fun l => by
    rw [List.getLastD_eq_getLast?, List.getLast?_eq_getElem?, List.getD_eq_getElem?_getD]
  rw [oldMiKi, hlast, hlast, EGFT.L, topo.length_K]

/-- The fewest links up of a new level make up the bisection bandwidth. -/
lemma FeasibleTree.bisec_le (h : FeasibleTree args topo)
    (hmin : minCiKi args topo ≤ ci * ki) :
    args.bisec * topo.numhosts ≤ ((topo.numtopsw * ci : ℕ) : ℚ) * ki := by
  have htop : (0 : ℚ) < topo.numtopsw := by
    rw [(fromtuple_eq_some.mp h.closed).2.1]
    exact_mod_cast List.prod_pos h.pos_C
  have hceil := (Nat.le_ceil (args.bisec * topo.numhosts / topo.numtopsw)).trans
    (Nat.cast_le.mpr hmin)
  rw [div_le_iff₀ htop] at hceil
  push_cast at hceil ⊢
  linarith

/-- A new level within the port budget keeps the tree feasible. -/
lemma FeasibleTree.step (h : FeasibleTree args topo) (hpos : 0 < topo.numhosts) (hmi : 0 < mi)
    (hci : 0 < ci) (hmin : minCiKi args topo ≤ ci * ki) (hmax : ci * ki ≤ maxCiKi args topo)
    (hradix : ki * mi ≤ args.radix) : FeasibleTree args (topo.fromegft mi ci ki) := by
  obtain ⟨hsw, htop, hhosts⟩ := fromtuple_eq_some.mp h.closed
  have hL : 0 < topo.L := List.length_pos_iff.mpr h.ne_nil
  have hC : topo.L = topo.C.length := topo.length_C
  have hK : topo.L = topo.K.length := topo.length_K
  have hL' : (topo.fromegft mi ci ki).L = topo.L + 1 := by
    simp [EGFT.L, EGFT.fromegft]
  have hM_lt : ∀ l < topo.L, (topo.M ++ [mi]).getD l 0 = topo.M.getD l 0 := fun l hl =>
    getD_append_lt hl
  have hC_lt : ∀ l < topo.L, (topo.C ++ [ci]).getD l 0 = topo.C.getD l 0 := fun l hl =>
    getD_append_lt (hC ▸ hl)
  have hK_lt : ∀ l < topo.L, (topo.K ++ [ki]).getD l 0 = topo.K.getD l 0 := fun l hl =>
    getD_append_lt (hK ▸ hl)
  constructor
  case closed => exact fromtuple_fromegft h.closed mi ci ki
  case ne_nil => exact List.append_ne_nil_of_right_ne_nil _ (List.cons_ne_nil _ _)
  case head_C => exact (hC_lt 0 hL).trans h.head_C
  case head_K => exact (hK_lt 0 hL).trans h.head_K
  case pos_C =>
    intro c hc
    rcases List.mem_append.mp hc with hc | hc
    · exact h.pos_C c hc
    · exact List.mem_singleton.mp hc ▸ hci
  case pos_numhosts => exact fun _ => Nat.mul_pos hpos hmi
  case bisec =>
    intro l hl hlt
    change args.bisec * ((topo.M ++ [mi]).take l).prod ≤
      (((topo.C ++ [ci]).take (l + 1)).prod : ℚ) * (topo.K ++ [ki]).getD l 0
    rcases Nat.lt_succ_iff_lt_or_eq.mp (hL' ▸ hlt) with hlt | rfl
    · rw [List.take_append_of_le_length hlt.le, List.take_append_of_le_length (hC ▸ hlt),
        hK_lt l hlt]
      exact h.bisec l hl hlt
    · rw [List.take_append_of_le_length (i := topo.L) le_rfl,
        List.take_of_length_le (i := topo.L) (l := topo.M) le_rfl,
        List.take_of_length_le (by simp [hC]), getD_append_length hK, List.prod_append,
        List.prod_singleton, ← hhosts, ← htop]
      exact h.bisec_le hmin
  case down =>
    intro l hlt
    change (topo.M ++ [mi]).getD l 0 * (topo.K ++ [ki]).getD l 0 ≤ args.radix
    rcases Nat.lt_succ_iff_lt_or_eq.mp (hL' ▸ hlt) with hlt | rfl
    · rw [hM_lt l hlt, hK_lt l hlt]
      exact h.down l hlt
    · rw [getD_append_length (n := topo.L) rfl, getD_append_length hK, Nat.mul_comm]
      exact hradix
  case up =>
    intro l hlt
    change (topo.M ++ [mi]).getD l 0 * (topo.K ++ [ki]).getD l 0 +
      (topo.C ++ [ci]).getD (l + 1) 0 * (topo.K ++ [ki]).getD (l + 1) 0 ≤ args.radix
    rcases Nat.lt_succ_iff_lt_or_eq.mp (hL' ▸ hlt) with hlt | heq
    · rw [hM_lt l (by omega), hK_lt l (by omega), hC_lt _ hlt, hK_lt _ hlt]
      exact h.up l hlt
    · have hdown := h.down (topo.L - 1) (by omega)
      have hl : l = topo.L - 1 := by omega
      rw [hM_lt l (by omega), hK_lt l (by omega), getD_append_length (heq.trans hC),
        getD_append_length (heq.trans hK), hl, ← oldMiKi_eq]
      rw [maxCiKi, oldMiKi_eq] at hmax
      rw [oldMiKi_eq]
      omega

/-! ### The search -/

section Sound

variable {F : Factorizer} {draws : EGFT → ℕ → ℕ → Rnd} {order : List ℕ → List ℕ} {fuel : ℕ}
  {best r : Option EGFT}

/-- A tree that the search may return. -/
def Suits (args : EgftArgs) (topo : EGFT) : Prop :=
  FeasibleTree args topo ∧ args.numhosts ≤ topo.numhosts

lemma miVals_pos (hpos : 0 < topo.numhosts) (hlt : topo.numhosts < args.numhosts)
    (h : mi ∈ miVals args topo) : 0 < mi := by
  rw [miVals] at h
  split at h
  · rw [List.mem_singleton.mp h]
    exact Nat.div_pos (by omega) hpos
  · have := (List.mem_range'_1.mp h).1
    omega

lemma ciKiVals_bounds {ciKi : ℕ} (h : ciKi ∈ ciKiVals args topo) :
    minCiKi args topo ≤ ciKi ∧ ciKi ≤ maxCiKi args topo := by
  have := List.mem_range'_1.mp h
  omega

lemma minCiKi_pos (hf : FeasibleTree args topo) (hpos : 0 < topo.numhosts) :
    0 < minCiKi args topo := by
  have htop : 0 < topo.numtopsw := by
    rw [(fromtuple_eq_some.mp hf.closed).2.1]
    exact List.prod_pos hf.pos_C
  have hhosts : (0 : ℚ) < topo.numhosts := by exact_mod_cast hpos
  have htop' : (0 : ℚ) < topo.numtopsw := by exact_mod_cast htop
  exact Nat.ceil_pos.mpr (div_pos (mul_pos args.bisec_pos hhosts) htop')

variable (horder : ∀ l, (order l).Perm l)

include horder

/-- The values of `ki` divide the product of the factors and respect the radix. -/
lemma kiVals_spec {radix : ℕ} {factors : List ℕ} (h : ki ∈ kiVals order radix mi factors) :
    ki ∣ factors.prod ∧ ki * mi ≤ radix := by
  rw [kiVals, (horder _).mem_iff, List.mem_dedup, List.mem_filter] at h
  obtain ⟨h, hle⟩ := h
  obtain ⟨n, _, h⟩ := List.mem_flatMap.mp h
  obtain ⟨l, hl, rfl⟩ := List.mem_map.mp h
  exact ⟨(List.mem_sublistsLen.mp hl).1.prod_dvd_prod, of_decide_eq_true hle⟩

lemma egftRecurse_suits (hf : FeasibleTree args topo) (hb : ∀ b ∈ best, Suits args b)
    (h : egftRecurse F draws order args fuel topo best = some r) : ∀ t ∈ r, Suits args t := by
  induction fuel generalizing topo best r with
  | zero => simp [egftRecurse] at h
  | succ fuel ih =>
    rw [egftRecurse] at h
    split at h
    · exact Option.some.inj h ▸ hb
    split at h
    · rename_i hle
      rw [← Option.some.inj h]
      rintro t ht
      exact Option.some.inj ht ▸ ⟨hf, hle⟩
    rename_i hlt
    split at h
    · cases h
    split at h
    · exact Option.some.inj h ▸ hb
    split at h
    · cases h
    rename_i hpos
    have hpos' := Nat.pos_of_ne_zero hpos
    refine foldlM_invariant (fun best => ∀ b ∈ best, Suits args b) ?_ hb h
    intro mi hmi best r hb h
    refine foldlM_invariant (fun best => ∀ b ∈ best, Suits args b) ?_ hb h
    intro ciKi hciKi best r hb h
    obtain ⟨factors, hfactors, h⟩ := Option.bind_eq_some_iff.mp h
    refine foldlM_invariant (fun best => ∀ b ∈ best, Suits args b) ?_ hb h
    intro ki hki best r hb h
    obtain ⟨hmin, hmax⟩ := ciKiVals_bounds hciKi
    have hne : ciKi ≠ 0 := by
      have := minCiKi_pos hf hpos'
      omega
    obtain ⟨hdvd, hradix⟩ := kiVals_spec horder hki
    rw [Factorizer.primefactors_prod hne hfactors] at hdvd
    have hci : 0 < ciKi / ki :=
      Nat.div_pos (Nat.le_of_dvd (Nat.pos_of_ne_zero hne) hdvd)
        (Nat.pos_of_dvd_of_pos hdvd (Nat.pos_of_ne_zero hne))
    have hmul := Nat.div_mul_cancel hdvd
    exact ih (hf.step hpos' (miVals_pos hpos' (not_le.mp hlt) hmi) hci (by omega) (by omega) hradix)
      hb h

omit horder in
lemma FeasibleTree.numsw_pos (h : FeasibleTree args topo) : 0 < topo.numsw := by
  obtain ⟨hsw, _⟩ := fromtuple_eq_some.mp h.closed
  have hL : 0 < topo.L := List.length_pos_iff.mpr h.ne_nil
  have hlast : 0 < (topo.M.drop (topo.L - 1 + 1)).prod * (topo.C.take (topo.L - 1 + 1)).prod := by
    rw [Nat.sub_add_cancel hL, List.drop_of_length_le (i := topo.L) le_rfl, List.prod_nil, one_mul]
    exact List.prod_pos fun c hc => h.pos_C c (List.mem_of_mem_take hc)
  rw [hsw]
  exact Nat.lt_of_lt_of_le hlast (List.le_sum_of_mem (List.mem_map.mpr
    ⟨topo.L - 1, List.mem_range.mpr (by omega), rfl⟩))

omit horder in
/-- The last pass of the loop over `m1`, which no smaller tree prevents from being returned. -/
lemma egftRecurse_single {m1 : ℕ} (hm : args.numhosts ≤ m1) (hradix : m1 ≤ args.radix)
    (hstart : EGFT.fromtuple [m1] [1] [1] = some topo) (hb : ∀ b ∈ best, Suits args b)
    (h : egftRecurse F draws order args fuel topo best = some r) : r = some topo := by
  obtain ⟨_, _, hhosts⟩ := FeasibleTree.base hradix hstart
  have hsw : topo.numsw = 1 := by
    rw [← Option.some.inj hstart]
    rfl
  cases fuel with
  | zero => simp [egftRecurse] at h
  | succ fuel =>
    rw [egftRecurse, if_neg, if_pos (by omega)] at h
    · exact (Option.some.inj h).symm
    · cases best with
      | none => simp
      | some b =>
        have := (hb b rfl).1.numsw_pos
        simp only [Option.any_some, decide_eq_true_eq, hsw]
        omega

lemma egftOptStep_suits {s s' : Option EGFT × Option EGFT} (hm : m1 ≤ args.radix)
    (hb : ∀ b ∈ s.1, Suits args b) (h : egftOptStep F draws order args fuel s m1 = some s') :
    (∀ b ∈ s'.1, Suits args b) ∧ (∀ t ∈ s'.2, Suits args t) ∧
      (args.numhosts ≤ m1 → ∀ t ∈ s'.2, t.L = 1) := by
  simp only [egftOptStep, Option.bind_eq_bind, Option.bind_eq_some_iff] at h
  obtain ⟨start, hstart, topo, htopo, h⟩ := h
  obtain ⟨hf, hL, _⟩ := FeasibleTree.base hm hstart
  have hsuits := egftRecurse_suits horder hf hb htopo
  have hone : args.numhosts ≤ m1 → ∀ t ∈ topo, t.L = 1 := by
    intro hle t ht
    rw [egftRecurse_single hle hm hstart hb htopo] at ht
    exact Option.some.inj ht ▸ hL
  split at h
  · exact Option.some.inj h ▸ ⟨hsuits, hsuits, hone⟩
  · exact Option.some.inj h ▸ ⟨hb, hsuits, hone⟩

/-- What is printed is a feasible tree with enough hosts. It has a single level when the radix
alone is large enough, since the last pass of the loop is printed. -/
theorem egftOpt_suits (h : egftOpt F draws order args fuel = some (some topo)) :
    Suits args topo ∧ (args.numhosts ≤ args.radix → topo.L = 1) := by
  obtain ⟨s, hs, h⟩ := Option.bind_eq_some_iff.mp h
  have hsplit : args.radix + 1 - args.radix / 2 = (args.radix - args.radix / 2) + 1 := by omega
  rw [hsplit, List.range'_concat, List.foldlM_append, one_mul,
    Nat.add_sub_cancel' (Nat.div_le_self _ _)] at hs
  obtain ⟨s₁, hs₁, hs⟩ := Option.bind_eq_some_iff.mp hs
  rw [List.foldlM_cons] at hs
  obtain ⟨s₂, hs₂, hs⟩ := Option.bind_eq_some_iff.mp hs
  obtain rfl : s₂ = s := Option.some.inj hs
  have hbest : ∀ b ∈ s₁.1, Suits args b := by
    refine foldlM_invariant (fun s => ∀ b ∈ s.1, Suits args b) ?_ (by simp) hs₁
    intro m1 hm s s' hb hstep
    have := (List.mem_range'_1.mp hm).2
    exact (egftOptStep_suits horder (by omega) hb hstep).1
  obtain ⟨_, hsuits, hone⟩ := egftOptStep_suits horder le_rfl hbest hs₂
  split at h
  · have ht : topo ∈ s₂.2 := Option.some.inj h
    exact ⟨hsuits topo ht, fun hle => hone hle topo ht⟩
  · cases h

end Sound

end ResSim
