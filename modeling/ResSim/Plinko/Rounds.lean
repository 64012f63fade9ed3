import Mathlib.Data.Prod.Lex
import Mathlib.Order.RelClasses
import ResSim.Plinko.Growth

/-!
# The rounds of Plinko

The rounds end, no assertion fails, and the table that they leave holds a forest of backup
paths with a root for every switch that has hosts and, up to the number of rounds, a child
for every link of every path, unless the failed links cut the switch off.
-/

namespace ResSim

variable {V E : Type} [DecidableEq V] [DecidableEq E] {G : PortGraph V E}

/-- A backup path for the hop `x` over `e`, or a cut. -/
def BackedUp (dst : V) (T : Set (Path G)) (x : Place G) (u : V) (rp : List ℕ) (e : E) : Prop :=
  u ≠ dst → (∃ p, EdgeWalk (upAdj G (insert e x.branch.failedE)) u p dst) →
    ∃ C ∈ T, C.v = u ∧ C.extraRPath = rp ∧ C.failedE = insert e x.branch.failedE

/-- The forest after all rounds. -/
structure PlinkoForest (args : PlinkoArgs) (dst : V) (T : Set (Path G)) : Prop
    extends RootedForest dst T where
  backedUp : ∀ x u rp e, Place.At T x u rp e → x.branch.failedE.card < args.rounds →
    BackedUp dst T x u rp e

/-- Invariant of the rounds. `S` are the paths of earlier rounds and `kids` those that this
round added. -/
structure RoundInv (args : PlinkoArgs) (dst : V) (S : Set (Path G)) (kids : List (Path G))
    (s : BuildState G) : Prop where
  forest : RootedForest dst (pathsOf S kids)
  table : TableOf args.fwdRouting (pathsOf S kids) s.fwdtable
  i_le : s.i ≤ args.rounds
  card_old : ∀ B ∈ S, B.failedE.card < s.i
  card_kid : ∀ B ∈ kids, B.failedE.card = s.i
  next : (dictPairs s.nextdep).Perm (kids.flatMap depPairs)
  nodup_kids : kids.Nodup
  nodup_todo : s.todo.Nodup
  mem_todo : ∀ a ∈ s.todo, a.2 ∈ S ∧ a.2.failedE.card + 1 = s.i ∧ a ∈ depPairs a.2
  fresh : ∀ x u rp e, Place.At S x u rp e → (insert e x.branch.failedE, x.branch) ∈ s.todo →
    ∀ C ∈ pathsOf S kids, C.v = u → C.extraRPath = rp → C.failedE ≠ insert e x.branch.failedE
  backedUp : ∀ x u rp e, Place.At S x u rp e →
    (insert e x.branch.failedE, x.branch) ∈ s.todo ∨ BackedUp dst (pathsOf S kids) x u rp e

variable {args : PlinkoArgs} {dst v u : V} {S T : Set (Path G)} {kids : List (Path G)}
  {s : BuildState G} {N P : Path G} {D failedE : Finset E} {rp : List ℕ} {e e' f : E}
  {x y z : Place G} {getShortestPath : ℕ → Adj V E → V → V → List E}

/-- A switch that the failed links do not cut off. -/
def Connected (dst : V) (x : Place G) (u : V) (_rp : List ℕ) (e : E) : Prop :=
  u ≠ dst ∧ ∃ p, EdgeWalk (upAdj G (insert e x.branch.failedE)) u p dst

lemma covered_connected :
    Covered (Connected dst) T x u rp e ↔ BackedUp dst T x u rp e := and_imp

lemma roundInv_iff : RoundInv args dst S kids s ↔ RoundFacts args.fwdRouting args.rounds dst
    (Connected dst) S kids s.i s.todo (dictPairs s.nextdep) s.fwdtable := by
  constructor
  · rintro ⟨h₁, h₂, h₃, h₄, h₅, h₆, h₇, h₈, h₉, h₁₀, h₁₁⟩
    exact ⟨h₁, h₂, h₃, h₄, h₅, h₆, h₇, h₈, h₉, h₁₀, fun x u rp e hx =>
      (h₁₁ x u rp e hx).imp_right covered_connected.mpr⟩
  · rintro ⟨h₁, h₂, h₃, h₄, h₅, h₆, h₇, h₈, h₉, h₁₀, h₁₁⟩
    exact ⟨h₁, h₂, h₃, h₄, h₅, h₆, h₇, h₈, h₉, h₁₀, fun x u rp e hx =>
      (h₁₁ x u rp e hx).imp_right covered_connected.mp⟩

/-! ### One backup path -/

section Round

variable {todo : List (Finset E × Path G)}

/-- The path that was added for the path `P` and the failed links `D`: where it starts, the way
back from there, and the arcs that the packet came over. -/
structure NewBackup (args : PlinkoArgs) (getShortestPath : ℕ → Adj V E → V → V → List E) (dst : V)
    (s : BuildState G) (D : Finset E) (P N : Path G) (v : V) (rp : List ℕ)
    (arcs : List (V × E)) : Prop where
  fail : ∃ rpath, revpathAtFail G D P.v P.path = some (v, rpath) ∧ rp = rpath ++ P.extraRPath
  history : ∃ start fwd, reversePath G v rp = some (start, fwd) ∧ arcSet G start fwd = some arcs
  branch : IsBranch dst v D rp N
  found : Found G args (getShortestPath (s.rnd 1)) dst v (s.fwdtable.atSwitch v) D arcs N

/-- What a pass of the rounds adds to the paths. -/
def Grows (args : PlinkoArgs) (getShortestPath : ℕ → Adj V E → V → V → List E) (dst : V)
    (s : BuildState G) (T T' : Set (Path G)) : Prop :=
  T' = T ∨ ∃ D P todo N v rp arcs, s.todo = (D, P) :: todo ∧ T' = insert N T ∧
    NewBackup args getShortestPath dst s D P N v rp arcs

variable (hsp : ∀ n, IsPathFinder (getShortestPath n)) (hdst : 0 < G.numhosts dst)
include hsp hdst

/-- Failing the first link of a round keeps the invariant. -/
theorem addBackup_spec (h : RoundInv args dst S kids { s with todo := (D, P) :: todo }) :
    ∃ s' kids', addBackup G args getShortestPath dst { s with todo } D P = some s' ∧
      RoundInv args dst S kids' s' ∧ s'.i = s.i ∧ s'.todo = todo ∧
      Grows args getShortestPath dst { s with todo := (D, P) :: todo } (pathsOf S kids)
        (pathsOf S kids') := by
  obtain ⟨hP, hcard, hdep⟩ := h.mem_todo _ (List.mem_cons_self ..)
  dsimp only at hP hcard hdep
  have hPT : P ∈ pathsOf S kids := pathsOf_subset hP
  have hbP := h.forest.branch P hPT
  obtain ⟨x, u, r, e, rfl, hx, rfl, hfail⟩ := exists_place_at_fail hP hbP hdep
  have hi : (insert e x.branch.failedE).card = s.i := by
    rw [Finset.card_insert_of_notMem hx.not_mem_failedE]
    exact hcard
  have hknown := union_localFailedE hx
  obtain ⟨start, fwd, hback⟩ := (hx.mono pathsOf_subset).history h.forest.history
  obtain ⟨arcs, harcs⟩ := exists_arcSet (reversePath_reverse hback)
  have hroute : ∀ opath ∈ (s.fwdtable.atSwitch u).map Prod.snd,
      IsRoute args.fwdRouting dst u opath := h.table.isRoute (fun B hB =>
    ⟨(h.forest.branch B hB).rv_eq, (h.forest.branch B hB).nodup⟩)
  rcases newPath_spec (insert e x.branch.failedE) (r ++ x.branch.extraRPath) arcs hsp hdst hroute
    hbP.rv_eq s.rnd with ⟨N, hrun, hN, hfound⟩ | ⟨hrun, hcut⟩
  · obtain ⟨tbl, htbl, htable⟩ := install_spec hN h.table
    obtain ⟨deps, hdeps, hperm⟩ := updateDeps_spec hN s.nextdep
    refine ⟨{ s with todo, fwdtable := tbl, nextdep := deps, rnd := s.rnd.next.next }, kids ++ [N],
      ?_, roundInv_iff.mpr ((roundInv_iff.mp h).grow hx hN htable hperm), rfl, rfl,
      .inr ⟨_, _, todo, N, u, _, arcs, rfl, pathsOf_concat, ⟨r, hfail, rfl⟩,
        ⟨start, fwd, hback, harcs⟩, hN, hfound⟩⟩
    simp only [addBackup, guard, if_pos hi, hfail, hknown, hback, harcs, hrun,
      htbl, hdeps, Option.bind_eq_bind, Option.bind_some]
    rfl
  · refine ⟨{ s with todo, rnd := s.rnd.next.next }, kids, ?_,
      roundInv_iff.mpr ((roundInv_iff.mp h).skip hx fun halive => hcut halive.1 halive.2), rfl,
      rfl, .inl rfl⟩
    simp only [addBackup, guard, if_pos hi, hfail, hknown, hback, harcs, hrun,
      Option.bind_eq_bind, Option.bind_some]
    rfl

end Round

/-- Rounds and links left to do. -/
def roundsWork (args : PlinkoArgs) (s : BuildState G) : ℕ × ℕ :=
  (args.rounds - s.i, s.todo.length)

/-- What the rounds leave. -/
def IsPlinkoTable (args : PlinkoArgs) (dst : V) (tbl : PlinkoTable G) : Prop :=
  ∃ T, PlinkoForest args dst T ∧ TableOf args.fwdRouting T tbl

section Run

variable (hsp : ∀ n, IsPathFinder (getShortestPath n)) (hdst : 0 < G.numhosts dst)
include hsp hdst

/-- A pass of the rounds keeps the invariant and leaves less to do. -/
theorem plinkoStep_spec (h : RoundInv args dst S kids s) :
    (∃ tbl, plinkoStep G args getShortestPath dst s = .done (some tbl) ∧
      IsPlinkoTable args dst tbl) ∨
    ∃ s' S' kids', plinkoStep G args getShortestPath dst s = .next s' ∧
      RoundInv args dst S' kids' s' ∧
      Prod.Lex (· < ·) (· < ·) (roundsWork args s') (roundsWork args s) ∧
      Grows args getShortestPath dst s (pathsOf S kids) (pathsOf S' kids') := by
  rw [plinkoStep]
  split
  · rename_i htodo
    have hfacts := roundInv_iff.mp h
    rw [htodo] at hfacts
    by_cases hend : (s.nextdep.isEmpty || s.i = args.rounds) = true
    · left
      rw [if_pos hend]
      rw [Bool.or_eq_true, List.isEmpty_iff, decide_eq_true_iff] at hend
      have hnext : dictPairs s.nextdep = [] ∨ s.i = args.rounds :=
        hend.imp_left fun hnil => by rw [hnil]; rfl
      exact ⟨s.fwdtable, rfl, pathsOf S kids, ⟨h.forest, fun x u rp e hx hcard =>
        covered_connected.mp (hfacts.finish hnext hx hcard)⟩, h.table⟩
    · right
      rw [if_neg hend]
      rw [Bool.or_eq_true, List.isEmpty_iff, decide_eq_true_iff, not_or] at hend
      refine ⟨_, _, _, rfl, roundInv_iff.mpr (hfacts.nextRound hend.2
        (dictPairs_perm (shuffle_perm _ _))), Prod.lex_def.mpr (.inl ?_), .inl pathsOf_nil⟩
      have := h.i_le
      simp only [roundsWork]
      omega
  · rename_i D P todo htodo
    right
    have hs : s = { s with todo := (D, P) :: todo } := by rw [← htodo]
    rw [hs] at h
    obtain ⟨s', kids', hrun, hinv, hi, htodo', hgrows⟩ := addBackup_spec hsp hdst h
    rw [← hs] at hgrows
    refine ⟨s', S, kids', by rw [hrun], hinv, Prod.lex_def.mpr (.inr ?_), hgrows⟩
    simp only [roundsWork, hi, htodo', htodo, List.length_cons]
    exact ⟨trivial, Nat.lt_succ_self _⟩

omit hdst in
/-- The first paths are the roots of the forest. -/
theorem plinkoInit_spec (args : PlinkoArgs) (rnd : Rnd) :
    ∃ s kids, plinkoInit G args getShortestPath dst rnd = some s ∧ s.i = 0 ∧
      RoundInv args dst ∅ kids s := by
  obtain ⟨kids, paths, hmapM, hreduce, hbranch, hnodup, hforest⟩ :=
    initPaths_spec (G := G) (hsp (rnd 0)) dst
  obtain ⟨tbl, htbl, htable⟩ := foldlM_install hbranch (tableOf_empty args.fwdRouting)
  obtain ⟨deps, hdeps, hperm⟩ := foldlM_updateDeps hbranch []
  refine ⟨⟨0, [], deps, tbl, rnd.next⟩, kids, ?_, rfl, roundInv_iff.mpr (.init hforest htable
    (fun B hB => (hbranch B hB).failedE_eq) hnodup hperm)⟩
  have hrv : ∀ path ∈ kids, path.rv = dst := fun N hN => (hbranch N hN).rv_eq
  simp only [plinkoInit, hmapM, hreduce, guard, if_pos hrv, htbl, hdeps, Option.bind_eq_bind,
    Option.bind_some]
  rfl

/-- The rounds end with a table, and no assertion fails. -/
theorem exists_plinkoFwdtable (args : PlinkoArgs) (rnd : Rnd) :
    ∃ fuel tbl, plinkoFwdtable fuel G args getShortestPath dst rnd = some tbl ∧
      IsPlinkoTable args dst tbl := by
  obtain ⟨s₀, kids₀, hinit, _, hinv⟩ := plinkoInit_spec (G := G) hsp args rnd
  obtain ⟨r, ⟨fuel, hfuel⟩, tbl, rfl, hpost⟩ := Loop.returns_of_wellFounded
    (InvImage.wf (roundsWork args) (WellFounded.prod_lex Nat.lt_wfRel.wf Nat.lt_wfRel.wf))
    (fun s => ∃ S kids, RoundInv args dst S kids s)
    (fun r => ∃ tbl, r = some tbl ∧ IsPlinkoTable args dst tbl)
    (fun s ⟨S, kids, h⟩ => (plinkoStep_spec hsp hdst h).imp
      (fun ⟨tbl, hrun, hpost⟩ => ⟨some tbl, hrun, tbl, rfl, hpost⟩)
      (fun ⟨s', S', kids', hrun, hinv, hlt, _⟩ => ⟨s', hrun, ⟨S', kids', hinv⟩, hlt⟩))
    ⟨∅, kids₀, hinv⟩
  exact ⟨fuel, tbl, by simp only [plinkoFwdtable, hinit, Option.bind_eq_bind, Option.bind_some,
    hfuel, Option.join_some], hpost⟩

/-- The states of the rounds keep the invariant, and so does what they add to the paths. -/
theorem reaches_roundInv (Inv : Set (Path G) → Prop) {s₀ s : BuildState G}
    (hstart : ∃ kids, RoundInv args dst ∅ kids s₀ ∧ Inv (pathsOf ∅ kids))
    (hgrows : ∀ s T T', Loop.Reaches (plinkoStep G args getShortestPath dst) s₀ s → Inv T →
      Grows args getShortestPath dst s T T' → Inv T')
    (hr : Loop.Reaches (plinkoStep G args getShortestPath dst) s₀ s) :
    ∃ S kids, RoundInv args dst S kids s ∧ Inv (pathsOf S kids) := by
  obtain ⟨kids₀, hinv₀, hInv₀⟩ := hstart
  have hboth := hr.invariant (fun s => Loop.Reaches (plinkoStep G args getShortestPath dst) s₀ s ∧
    ∃ S kids, RoundInv args dst S kids s ∧ Inv (pathsOf S kids)) ?_
    ⟨.refl, ∅, kids₀, hinv₀, hInv₀⟩
  · exact hboth.2
  · rintro s s' ⟨hreach, S, kids, hinv, hInv⟩ hn
    rcases plinkoStep_spec hsp hdst hinv with ⟨tbl, hd, _⟩ | ⟨s₁, S', kids', hn', hinv', _, hg⟩
    · rw [hn] at hd
      cases hd
    · rw [hn, Step.next.injEq] at hn'
      subst hn'
      exact ⟨hreach.tail hn, S', kids', hinv', hgrows s _ _ hreach hInv hg⟩

omit hsp hdst in
lemma fwdtable_of_done {tbl : PlinkoTable G}
    (h : plinkoStep G args getShortestPath dst s = .done (some tbl)) : tbl = s.fwdtable := by
  rw [plinkoStep] at h
  split at h
  · split at h
    · injection h with h
      injection h with h
      exact h.symm
    · cases h
  · split at h
    · cases h
    · cases h

/-- The table is that of the last state. -/
theorem exists_last_state (args : PlinkoArgs) (rnd : Rnd) :
    ∃ s₀ s fuel, plinkoInit G args getShortestPath dst rnd = some s₀ ∧
      Loop.Reaches (plinkoStep G args getShortestPath dst) s₀ s ∧
      plinkoFwdtable fuel G args getShortestPath dst rnd = some s.fwdtable := by
  obtain ⟨fuel, tbl, hrun, _⟩ := exists_plinkoFwdtable hsp hdst args rnd
  obtain ⟨s₀, hs₀, hr⟩ := Option.bind_eq_some_iff.mp hrun
  rw [Option.join_eq_some_iff] at hr
  obtain ⟨s, hreach, hd⟩ := Loop.Returns.exists_last ⟨fuel, hr⟩
  rw [fwdtable_of_done hd] at hrun
  exact ⟨s₀, s, fuel, hs₀, hreach, hrun⟩

/-- The table does not depend on how many passes the rounds were given. -/
theorem plinkoFwdtable_post {args : PlinkoArgs} {rnd : Rnd} {fuel : ℕ} {tbl : PlinkoTable G}
    (h : plinkoFwdtable fuel G args getShortestPath dst rnd = some tbl) :
    IsPlinkoTable args dst tbl := by
  obtain ⟨fuel', tbl', h', hpost⟩ := exists_plinkoFwdtable hsp hdst args rnd
  obtain ⟨s, hs, hr⟩ := Option.bind_eq_some_iff.mp h
  obtain ⟨s', hs', hr'⟩ := Option.bind_eq_some_iff.mp h'
  obtain rfl := Option.some.inj (hs.symm.trans hs')
  rw [Option.join_eq_some_iff] at hr hr'
  obtain rfl := Option.some.inj (Loop.Returns.unique ⟨fuel, hr⟩ ⟨fuel', hr'⟩)
  exact hpost

end Run

end ResSim
