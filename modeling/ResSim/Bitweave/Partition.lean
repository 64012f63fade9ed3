import ResSim.Bitweave.Merge
import ResSim.Lib.BitVal
import ResSim.Lib.Blocks
import ResSim.Lib.Gather

/-!
# Partitions and bit swaps

A table is cut into partitions in which no two rules cross: of two rules, one has all the
wildcards of the other. Within such a partition the positions can be reordered so that every
rule has its wildcards at the end.
-/

namespace ResSim

open Pattern

/-- The loop of `CheckCrossPattern`. -/
def crossLoop : List (Option Bool × Option Bool) → Bool → Bool → Bool
  | [], _, _ => false
  | (a, b) :: bits, r1wild, r2wild =>
    let r1wild := r1wild || a.isNone && b.isSome
    let r2wild := r2wild || a.isSome && b.isNone
    if r1wild && r2wild then true else crossLoop bits r1wild r2wild

/-- `none` where the lengths differ. -/
def checkCrossPattern (r1 r2 : Pattern Bool) : Option Bool :=
  if r1.length = r2.length then some (crossLoop (r1.zip r2) false false) else none

section Defs

variable {α : Type}

/-- One entry of the reversed table: the list of partitions and the current partition. -/
def partitionPass (s : List (BitRules α) × BitRules α) (entry : Pattern Bool × Option α) :
    Option (List (BitRules α) × BitRules α) := do
  let cross ← s.2.anyM (fun e => checkCrossPattern entry.1 e.1)
  if cross then some (s.1 ++ [s.2.reverse], [entry]) else some (s.1, s.2 ++ [entry])

def findMinPartition (table : BitRules α) : Option (List (BitRules α)) :=
  (table.reverse.foldlM partitionPass ([], [])).map (fun s => (s.1 ++ [s.2.reverse]).reverse)

def starcnt (table : BitRules α) (i : ℕ) : ℕ := table.countP (fun e => (e.1.getD i none).isNone)

/-- The positions by the number of wildcards there. -/
def swapOrder (table : BitRules α) (b : ℕ) : List (ℕ × ℕ) :=
  ((List.range b).map (fun i => (i, starcnt table i))).insertionSort (fun x y => x.2 ≤ y.2)

/-- The rules of `table` have one length. -/
def prefixBitSwap (table : BitRules α) : BitRules α × List (ℕ × ℕ) :=
  let B := swapOrder table ((table.map (fun e => e.1.length)).headD 0)
  (table.map (fun e => (gather (B.map Prod.fst) none e.1, e.2)), B)

def bitRecovery (table : BitRules α) (B : List (ℕ × ℕ)) : BitRules α :=
  table.map (fun e => (scatter (B.map Prod.fst) none e.1, e.2))

end Defs

/-! ### Rules that cross -/

section Cross

variable {r1 r2 : Pattern Bool}

/-- Either rule has a wildcard where the other has a bit. -/
def Cross (r1 r2 : Pattern Bool) : Prop :=
  (∃ x ∈ r1.zip r2, x.1 = none ∧ x.2 ≠ none) ∧ ∃ x ∈ r1.zip r2, x.1 ≠ none ∧ x.2 = none

lemma Cross.symm (h : Cross r1 r2) : Cross r2 r1 := by
  obtain ⟨⟨x, hx, hx1, hx2⟩, y, hy, hy1, hy2⟩ := h
  have hswap : ∀ z ∈ r1.zip r2, z.swap ∈ r2.zip r1 := fun z hz => by
    rw [← List.zip_swap]
    exact List.mem_map_of_mem hz
  exact ⟨⟨y.swap, hswap y hy, hy2, hy1⟩, x.swap, hswap x hx, hx2, hx1⟩

lemma not_cross_self : ¬ Cross r1 r1 := by
  rintro ⟨⟨x, hx, h1, h2⟩, _⟩
  have heq : x.1 = x.2 := by
    obtain ⟨i, hi⟩ := List.mem_iff_getElem?.mp hx
    rw [List.getElem?_zip_eq_some] at hi
    exact Option.some.inj (hi.1.symm.trans hi.2)
  exact h2 (heq ▸ h1)

lemma crossLoop_iff {bits : List (Option Bool × Option Bool)} {r1wild r2wild : Bool}
    (h : (r1wild && r2wild) = false) : crossLoop bits r1wild r2wild = true ↔
      (r1wild = true ∨ ∃ x ∈ bits, x.1 = none ∧ x.2 ≠ none) ∧
      (r2wild = true ∨ ∃ x ∈ bits, x.1 ≠ none ∧ x.2 = none) := by
  induction bits generalizing r1wild r2wild with
  | nil => simp_all [crossLoop]
  | cons x bits ih =>
    obtain ⟨a, b⟩ := x
    rw [crossLoop]
    by_cases hw : ((r1wild || a.isNone && b.isSome) && (r2wild || a.isSome && b.isNone)) = true
    · rw [if_pos hw]
      cases a <;> cases b <;> simp_all
    · rw [if_neg hw, ih (Bool.eq_false_iff.mpr hw)]
      cases a <;> cases b <;> simp

lemma checkCrossPattern_eq (hlen : r1.length = r2.length) :
    ∃ c, checkCrossPattern r1 r2 = some c ∧ (c = true ↔ Cross r1 r2) := by
  refine ⟨_, if_pos hlen, ?_⟩
  rw [crossLoop_iff rfl]
  simp [Cross]

lemma mem_zip_getD {i : ℕ} (h1 : i < r1.length) (h2 : i < r2.length) :
    (r1.getD i none, r2.getD i none) ∈ r1.zip r2 := by
  apply List.mem_iff_getElem?.mpr
  refine ⟨i, List.getElem?_zip_eq_some.mpr ?_⟩
  simp [List.getElem?_eq_getElem h1, List.getElem?_eq_getElem h2]

end Cross

/-! ### The partitions -/

section Partitions

variable {α : Type} {table P : BitRules α} {parts : List (BitRules α)} {n : ℕ}

/-- No two rules cross. -/
def NoCross (P : BitRules α) : Prop := ∀ x ∈ P, ∀ y ∈ P, ¬ Cross x.1 y.1

/-- The state of the loop after the entries `done`. -/
structure PartInv (done : BitRules α) (s : List (BitRules α) × BitRules α) : Prop where
  entries : (s.1 ++ [s.2.reverse]).reverse.flatten = done.reverse
  noCross : ∀ P ∈ s.1, NoCross P
  noCross_last : NoCross s.2
  ne_nil : [] ∉ s.1
  ne_nil_last : s.2 = [] → done = []

lemma PartInv.init : PartInv (α := α) [] ([], []) :=
  ⟨rfl, by simp, by simp [NoCross], by simp, fun _ => rfl⟩

lemma anyM_checkCrossPattern {rule : Pattern Bool} (hP : ∀ x ∈ P, rule.length = x.1.length) :
    ∃ cross, P.anyM (fun e => checkCrossPattern rule e.1) = some cross ∧
      (cross = true ↔ ∃ x ∈ P, Cross rule x.1) := by
  induction P with
  | nil => exact ⟨false, rfl, by simp⟩
  | cons x P ih =>
    obtain ⟨c, hc, hcross⟩ := checkCrossPattern_eq (hP x List.mem_cons_self)
    obtain ⟨c', hc', hcross'⟩ := ih fun y hy => hP y (List.mem_cons_of_mem _ hy)
    cases c with
    | true => exact ⟨true, by simp [List.anyM, hc], by simp [← hcross]⟩
    | false =>
      refine ⟨c', by simp [List.anyM, hc, hc'], ?_⟩
      simp [hcross', ← hcross]

lemma PartInv.step {done : BitRules α} {s : List (BitRules α) × BitRules α}
    (h : PartInv done s) (hdone : ∀ x ∈ done, x.1.length = n)
    {entry : Pattern Bool × Option α} (hentry : entry.1.length = n) :
    ∃ s', partitionPass s entry = some s' ∧ PartInv (done ++ [entry]) s' := by
  have hsub : ∀ x ∈ s.2, x ∈ done := fun x hx => by
    rw [← List.mem_reverse, ← h.entries]
    simp [hx]
  obtain ⟨cross, hany, hcross⟩ := anyM_checkCrossPattern
    (show ∀ x ∈ s.2, entry.1.length = x.1.length from fun x hx =>
      hentry.trans (hdone x (hsub x hx)).symm)
  have hentries := h.entries
  cases cross with
  | true =>
    refine ⟨(s.1 ++ [s.2.reverse], [entry]), by simp [partitionPass, hany], ?_⟩
    obtain ⟨x, hx, -⟩ := hcross.mp rfl
    refine ⟨by simpa using hentries, fun P hP => ?_, ?_, ?_, by simp⟩
    · rcases List.mem_append.mp hP with hP | hP
      · exact h.noCross P hP
      · rw [List.mem_singleton] at hP
        subst hP
        intro x hx y hy
        exact h.noCross_last x (List.mem_reverse.mp hx) y (List.mem_reverse.mp hy)
    · simp [NoCross, not_cross_self]
    · intro hnil
      rcases List.mem_append.mp hnil with hnil | hnil
      · exact h.ne_nil hnil
      · rw [List.mem_singleton, eq_comm, List.reverse_eq_nil_iff] at hnil
        simp [hnil] at hx
  | false =>
    refine ⟨(s.1, s.2 ++ [entry]), by simp [partitionPass, hany], ?_⟩
    have hno : ∀ x ∈ s.2, ¬ Cross entry.1 x.1 := fun x hx hc => by
      have := hcross.mpr ⟨x, hx, hc⟩
      cases this
    refine ⟨by simpa using hentries, h.noCross, fun x hx y hy => ?_, h.ne_nil, by simp⟩
    rcases List.mem_append.mp hx with hx | hx <;> rcases List.mem_append.mp hy with hy | hy
    · exact h.noCross_last x hx y hy
    · rw [List.mem_singleton.mp hy]
      exact fun hc => hno x hx hc.symm
    · rw [List.mem_singleton.mp hx]
      exact hno y hy
    · rw [List.mem_singleton.mp hx, List.mem_singleton.mp hy]
      exact not_cross_self

lemma PartInv.run {rest done : BitRules α} {s : List (BitRules α) × BitRules α}
    (h : PartInv done s) (hlen : ∀ x ∈ done ++ rest, x.1.length = n) :
    ∃ s', rest.foldlM partitionPass s = some s' ∧ PartInv (done ++ rest) s' := by
  induction rest generalizing done s with
  | nil => exact ⟨s, rfl, by simpa using h⟩
  | cons entry rest ih =>
    obtain ⟨s₁, hs₁, h₁⟩ := h.step (fun x hx => hlen x (List.mem_append_left _ hx))
      (hlen entry (by simp))
    obtain ⟨s₂, hs₂, h₂⟩ := ih h₁ (by simpa using hlen)
    exact ⟨s₂, by rw [List.foldlM_cons, hs₁]; exact hs₂, by simpa using h₂⟩

/-- The partitions make up the table, and no two rules of one cross. -/
theorem findMinPartition_spec (hlen : ∀ x ∈ table, x.1.length = n) :
    ∃ parts, findMinPartition table = some parts ∧ parts.flatten = table ∧
      (∀ P ∈ parts, NoCross P) ∧ (table ≠ [] → [] ∉ parts) := by
  obtain ⟨s, hs, h⟩ := PartInv.init.run
    (by simpa using hlen : ∀ x ∈ [] ++ table.reverse, x.1.length = n)
  rw [List.nil_append] at h
  refine ⟨_, by rw [findMinPartition, hs]; rfl, ?_, fun P hP => ?_, fun hne hnil => ?_⟩
  · rw [h.entries, List.reverse_reverse]
  · rw [List.mem_reverse, List.mem_append, List.mem_singleton] at hP
    rcases hP with hP | rfl
    · exact h.noCross P hP
    · intro x hx y hy
      exact h.noCross_last x (List.mem_reverse.mp hx) y (List.mem_reverse.mp hy)
  · rw [List.mem_reverse, List.mem_append, List.mem_singleton, eq_comm,
      List.reverse_eq_nil_iff] at hnil
    rcases hnil with hnil | hnil
    · exact h.ne_nil hnil
    · exact hne (List.reverse_eq_nil_iff.mp (h.ne_nil_last hnil))

/-! ### As few partitions as there can be -/

/-- A pass adds the entry to the current partition or, where it crosses a rule, starts a new
one. -/
lemma partitionPass_cases {s s' : List (BitRules α) × BitRules α}
    {entry : Pattern Bool × Option α} (hlen : ∀ x ∈ s.2, entry.1.length = x.1.length)
    (h : partitionPass s entry = some s') :
    ((∃ x ∈ s.2, Cross entry.1 x.1) ∧ s' = (s.1 ++ [s.2.reverse], [entry])) ∨
      s' = (s.1, s.2 ++ [entry]) := by
  obtain ⟨cross, hany, hcross⟩ := anyM_checkCrossPattern hlen
  simp only [partitionPass, hany, Option.bind_eq_bind, Option.bind_some] at h
  cases cross with
  | true => exact .inl ⟨hcross.mp rfl, (Option.some.inj h).symm⟩
  | false => exact .inr (Option.some.inj h).symm

/-- Rules that may not be in one partition. -/
def CrossEntry (x y : Pattern Bool × Option α) : Prop := Cross x.1 y.1

lemma PartInv.prefix {done : BitRules α} {s : List (BitRules α) × BitRules α}
    (h : PartInv done s) : s.2.reverse <+: done.reverse := by
  rw [← h.entries, List.reverse_append, List.reverse_singleton, List.singleton_append,
    List.flatten_cons]
  exact List.prefix_append ..

/-- The current partition is the first of a division into as few as there can be. -/
def PartTight (done : BitRules α) (s : List (BitRules α) × BitRules α) : Prop :=
  Tight CrossEntry done.reverse s.2.reverse (s.1.length + 1)

lemma PartTight.step {done : BitRules α} {s s' : List (BitRules α) × BitRules α}
    (h : PartTight done s) (hinv : PartInv done s) (hdone : ∀ x ∈ done, x.1.length = n)
    {entry : Pattern Bool × Option α} (hentry : entry.1.length = n)
    (hpass : partitionPass s entry = some s') : PartTight (done ++ [entry]) s' := by
  have hsub : ∀ x ∈ s.2, entry.1.length = x.1.length := by
    intro x hx
    have hin := hinv.prefix.subset (List.mem_reverse.mpr hx)
    rw [hentry, hdone x (List.mem_reverse.mp hin)]
  have hrev : (done ++ [entry]).reverse = entry :: done.reverse := by simp
  rw [PartTight, hrev]
  rcases partitionPass_cases hsub hpass with ⟨⟨x, hx, hc⟩, rfl⟩ | rfl
  · have hlen : (s.1 ++ [s.2.reverse]).length + 1 = s.1.length + 1 + 1 := by simp
    rw [hlen]
    exact Tight.cut h hinv.prefix (List.mem_reverse.mpr hx) hc
  · have hcons : (s.2 ++ [entry]).reverse = entry :: s.2.reverse := by simp
    rw [hcons]
    exact Tight.extend h

lemma PartTight.run {rest done : BitRules α} {s s' : List (BitRules α) × BitRules α}
    (h : PartTight done s) (hinv : PartInv done s) (hlen : ∀ x ∈ done ++ rest, x.1.length = n)
    (hrun : rest.foldlM partitionPass s = some s') : PartTight (done ++ rest) s' := by
  induction rest generalizing done s with
  | nil =>
    obtain rfl := Option.some.inj hrun
    rw [List.append_nil]
    exact h
  | cons entry rest ih =>
    have hdone : ∀ x ∈ done, x.1.length = n := fun x hx => hlen x (List.mem_append_left _ hx)
    have hentry := hlen entry (by simp)
    obtain ⟨s₁, hs₁, hinv₁⟩ := hinv.step hdone hentry
    rw [List.foldlM_cons, hs₁] at hrun
    have h₁ := h.step hinv hdone hentry hs₁
    have heq : done ++ entry :: rest = done ++ [entry] ++ rest := by simp
    rw [heq] at hlen ⊢
    exact ih h₁ hinv₁ hlen hrun

/-- `FindMinPartition` cuts a table into consecutive partitions without rules that cross, and
into as few as there can be. -/
theorem findMinPartition_minimal (hne : table ≠ []) (hlen : ∀ x ∈ table, x.1.length = n) :
    ∃ parts, findMinPartition table = some parts ∧ parts.flatten = table ∧
      (∀ P ∈ parts, NoCross P) ∧ ∀ parts' : List (BitRules α), parts'.flatten = table →
        (∀ P ∈ parts', NoCross P) → parts.length ≤ parts'.length := by
  obtain ⟨parts, hparts, hflat, hfree, _⟩ := findMinPartition_spec hlen
  refine ⟨parts, hparts, hflat, hfree, fun parts' hflat' hfree' => ?_⟩
  obtain ⟨s, hs, rfl⟩ := Option.map_eq_some_iff.mp hparts
  have hlen' : ∀ x ∈ table.reverse, x.1.length = n := fun x hx => hlen x (List.mem_reverse.mp hx)
  obtain ⟨entry, rest, hrest⟩ := List.exists_cons_of_ne_nil (mt List.reverse_eq_nil_iff.mp hne)
  rw [hrest] at hs hlen'
  have hfirst : partitionPass ([], []) entry = some ([], [entry]) := rfl
  rw [List.foldlM_cons, hfirst] at hs
  obtain ⟨s₁, hs₁, hinv⟩ := PartInv.init.step (by simp) (hlen' entry List.mem_cons_self)
  rw [hfirst, Option.some.injEq] at hs₁
  subst hs₁
  have hstart : PartTight [entry] ([], [entry]) := tight_singleton
  have htight := hstart.run hinv hlen' hs
  have hdiv : Division CrossEntry ([entry] ++ rest).reverse parts' := by
    refine ⟨?_, hfree'⟩
    rw [List.singleton_append, ← hrest, List.reverse_reverse, hflat']
  have hle := htight.le_length hdiv
  simpa using hle

theorem findMinPartition_minimal_pair : ∃ parts,
    findMinPartition [([none, some true], some 0), ([some false, none], some 1)] = some parts ∧
      parts.flatten = [([none, some true], some 0), ([some false, none], some 1)] ∧
      (∀ P ∈ parts, NoCross P) ∧ ∀ parts' : List (BitRules ℕ),
        parts'.flatten = [([none, some true], some 0), ([some false, none], some 1)] →
          (∀ P ∈ parts', NoCross P) → parts.length ≤ parts'.length :=
  findMinPartition_minimal (n := 2) (by simp) (by decide)

end Partitions

/-! ### The swap -/

section Swap

variable {α : Type} {P : BitRules α} {n i j : ℕ}

lemma swapOrder_perm (table : BitRules α) (b : ℕ) :
    ((swapOrder table b).map Prod.fst).Perm (List.range b) := by
  refine ((List.perm_insertionSort _ _).map _).trans (List.Perm.of_eq ?_)
  rw [List.map_map]
  exact List.map_id _

/-- More wildcards in one column than in another are wildcards where the other has none. -/
lemma wildcard_of_starcnt_le (hP : NoCross P) (hlen : ∀ x ∈ P, x.1.length = n) (hi : i < n)
    (hj : j < n) (hle : starcnt P i ≤ starcnt P j) {x : Pattern Bool × Option α} (hx : x ∈ P)
    (hxi : x.1.getD i none = none) : x.1.getD j none = none := by
  by_contra hxj
  -- every other rule with a wildcard at `j` has one at `i`
  have himp : ∀ y ∈ P, (y.1.getD j none).isNone → (y.1.getD i none).isNone := by
    intro y hy hyj
    by_contra hyi
    rw [Option.isNone_iff_eq_none] at hyj hyi
    have hmem : ∀ k, k < n → (x.1.getD k none, y.1.getD k none) ∈ x.1.zip y.1 := fun k hk =>
      mem_zip_getD (by rwa [hlen x hx]) (by rwa [hlen y hy])
    exact hP x hx y hy ⟨⟨_, hmem i hi, hxi, hyi⟩, _, hmem j hj, hxj, hyj⟩
  have hlt : starcnt P j < starcnt P i := by
    obtain ⟨l₁, l₂, rfl⟩ := List.append_of_mem hx
    have h1 := List.countP_mono_left (fun y hy => himp y (List.mem_append_left _ hy))
    have h2 := List.countP_mono_left
      (fun y hy => himp y (List.mem_append_right _ (List.mem_cons_of_mem _ hy)))
    have hxi' : (x.1.getD i none).isNone = true := by rw [hxi]; rfl
    have hxj' : ¬ (x.1.getD j none).isNone = true := by rwa [Option.isNone_iff_eq_none]
    simp only [starcnt, List.countP_append, List.countP_cons, if_pos hxi', if_neg hxj']
    omega
  omega

/-- After the swap the wildcards are at the end. -/
theorem exists_prefixPattern (hP : NoCross P) (hlen : ∀ x ∈ P, x.1.length = n)
    {x : Pattern Bool × Option α} (hx : x ∈ P) : ∃ bits k,
      gather ((swapOrder P n).map Prod.fst) none x.1 = prefixPattern bits k ∧
        bits.length + k = n := by
  have hpair : (gather ((swapOrder P n).map Prod.fst) none x.1).Pairwise
      (fun a b => a = none → b = none) := by
    rw [gather, List.map_map, List.pairwise_map]
    have hsorted : (swapOrder P n).Pairwise (fun x y => x.2 ≤ y.2) := by
      have : Std.Total (fun x y : ℕ × ℕ => x.2 ≤ y.2) := ⟨fun x y => le_total x.2 y.2⟩
      have : IsTrans (ℕ × ℕ) (fun x y => x.2 ≤ y.2) := ⟨fun x y z => le_trans⟩
      exact List.pairwise_insertionSort ..
    have hmem : ∀ z ∈ swapOrder P n, z.1 < n ∧ z.2 = starcnt P z.1 := by
      intro z hz
      obtain ⟨i, hi, rfl⟩ := List.mem_map.mp ((List.mem_insertionSort _).mp hz)
      exact ⟨List.mem_range.mp hi, rfl⟩
    refine hsorted.imp_of_mem fun {a b} ha hb hle hxa => ?_
    rw [(hmem a ha).2, (hmem b hb).2] at hle
    exact wildcard_of_starcnt_le hP hlen (hmem a ha).1 (hmem b hb).1 hle hx hxa
  obtain ⟨bits, k, heq⟩ := eq_prefixPattern hpair
  refine ⟨bits, k, heq, ?_⟩
  have := congrArg List.length heq
  rw [length_gather, prefixPattern_length, (swapOrder_perm P n).length_eq,
    List.length_range] at this
  exact this.symm

lemma prefixBitSwap_eq (hP : P ≠ []) (hlen : ∀ x ∈ P, x.1.length = n) : prefixBitSwap P =
    (P.map (fun e => (gather ((swapOrder P n).map Prod.fst) none e.1, e.2)), swapOrder P n) := by
  obtain ⟨e, P', rfl⟩ := List.exists_cons_of_ne_nil hP
  simp [prefixBitSwap, hlen e List.mem_cons_self]

lemma bitRecovery_swap (hlen : ∀ x ∈ P, x.1.length = n) :
    bitRecovery (P.map (fun e => (gather ((swapOrder P n).map Prod.fst) none e.1, e.2)))
      (swapOrder P n) = P := by
  rw [bitRecovery, List.map_map]
  conv_rhs => rw [← List.map_id P]
  apply List.map_congr_left
  intro e he
  exact Prod.ext (scatter_gather (swapOrder_perm P n) (hlen e he)) rfl

/-- The rules of a table that is put back match the keys whose swapped ones the rules of the
table match. -/
lemma bitRecovery_matches {B : List (ℕ × ℕ)} (hB : (B.map Prod.fst).Perm (List.range n))
    {M : BitRules α} (hM : ∀ x ∈ M, x.1.length = n) :
    List.Forall₂ (fun x y => x.2 = y.2 ∧ ∀ key : List Bool, key.length = n →
      (x.1.Matches key ↔ y.1.Matches (gather (B.map Prod.fst) false key))) (bitRecovery M B) M := by
  induction M with
  | nil => exact .nil
  | cons x M ih =>
    obtain ⟨hx, hM⟩ := List.forall_mem_cons.mp hM
    exact .cons ⟨rfl, fun key hkey => matches_scatter hB hx hkey⟩ (ih hM)

/-- The swap of rules that do not cross makes them prefixes, and the recovery undoes it: for the
rules that were swapped, and as far as keys go for any others. -/
theorem prefixBitSwap_recovers (hne : P ≠ []) (hlen : ∀ x ∈ P, x.1.length = n)
    (hP : NoCross P) :
    (∀ x ∈ (prefixBitSwap P).1, ∃ bits k, x.1 = prefixPattern bits k) ∧
    ((prefixBitSwap P).2.map Prod.fst).Perm (List.range n) ∧
    bitRecovery (prefixBitSwap P).1 (prefixBitSwap P).2 = P ∧
    ∀ M : BitRules α, (∀ x ∈ M, x.1.length = n) →
      List.Forall₂ (fun x y => x.2 = y.2 ∧ ∀ key : List Bool, key.length = n →
        (x.1.Matches key ↔ y.1.Matches (gather ((prefixBitSwap P).2.map Prod.fst) false key)))
        (bitRecovery M (prefixBitSwap P).2) M := by
  rw [prefixBitSwap_eq hne hlen]
  refine ⟨fun x hx => ?_, swapOrder_perm P n, bitRecovery_swap hlen,
    fun M hM => bitRecovery_matches (swapOrder_perm P n) hM⟩
  obtain ⟨e, he, rfl⟩ := List.mem_map.mp hx
  obtain ⟨bits, k, heq, _⟩ := exists_prefixPattern hP hlen he
  exact ⟨bits, k, heq⟩

theorem prefixBitSwap_recovers_pair :
    let P : BitRules ℕ := [([none, some true], some 0), ([none, none], some 1)]
    (∀ x ∈ (prefixBitSwap P).1, ∃ bits k, x.1 = prefixPattern bits k) ∧
      bitRecovery (prefixBitSwap P).1 (prefixBitSwap P).2 = P := by
  intro P
  have hfree : NoCross P := by
    unfold NoCross Cross
    decide
  have h := prefixBitSwap_recovers (n := 2) (by decide) (by decide) hfree
  exact ⟨h.1, h.2.2.1⟩

end Swap

end ResSim
