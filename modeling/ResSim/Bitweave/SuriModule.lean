import ResSim.Bitweave.FindSolutions
import ResSim.Bitweave.Weave

/-!
# Bit weaving with the module `suri`

With what `suri` really computes, nothing has to be assumed of the solutions: for rules of
256 bits at most they mean the same as the partition, and no prefix rules without `None` are
fewer. For longer rules `Weighted_Suris` raises.
-/

namespace ResSim

section Defs

variable {α : Type} [DecidableEq α]

/-- The functions of `suri`. Where they raise or never return there are no solutions; `items` is
the order of the dictionary of the weights. -/
def suri (pyFalse : α) (items : List (Option α × ℕ) → List (Option α × ℕ)) :
    Suri α (Option (List ((Interval × Option α) × ℤ))) where
  weightedSuris suriTable pre suriWeights :=
    weightedSuris pyFalse suriTable (items suriWeights) suriDepth pre
  findSolutions suriTable pre suriWeights tmp :=
    (tmp.bind fun answers =>
      findSolutions pyFalse suriTable (items suriWeights) answers suriDepth pre).getD []

end Defs

/-! ### Shorter prefixes -/

section Prefixes

variable {n N : ℕ} {i : Interval}

lemma bitVal_pad (m : ℕ) (bits : List Bool) :
    bitVal (List.replicate m false ++ bits) = bitVal bits := by
  rw [bitVal_append, bitVal_replicate_false, zero_mul, zero_add]

lemma prefixInterval_pad (m k : ℕ) (bits : List Bool) :
    prefixInterval (List.replicate m false ++ bits) k = prefixInterval bits k := by
  rw [prefixInterval, bitVal_pad, prefixInterval]

/-- The prefixes of `n` bits are those among the numbers of `n` bits. -/
lemma isPrefix_iff (hle : n ≤ N) :
    IsPrefix n i ↔ IsPrefix N i ∧ Inside i (0, 2 ^ n - 1) := by
  have hpad : prefixInterval (List.replicate (N - n) false) n = (0, 2 ^ n - 1) := by
    have h := prefixInterval_pad (N - n) n []
    rwa [List.append_nil, prefixInterval_nil] at h
  have hlen : (List.replicate (N - n) false).length + n = N := by
    rw [List.length_replicate]
    omega
  constructor
  · rintro ⟨bits, k, hn, rfl⟩
    have hN : (List.replicate (N - n) false ++ bits).length + k = N := by
      rw [List.length_append, List.length_replicate]
      omega
    refine ⟨⟨_, k, hN, (prefixInterval_pad _ _ _).symm⟩, ?_⟩
    have hin := (inside_prefixInterval hlen hN).mpr (List.prefix_append _ _)
    rwa [hpad, prefixInterval_pad] at hin
  · rintro ⟨⟨bits, k, hN, rfl⟩, hin⟩
    rw [← hpad] at hin
    obtain ⟨rest, rfl⟩ := (inside_prefixInterval hlen hN).mp hin
    refine ⟨rest, k, ?_, prefixInterval_pad _ _ _⟩
    rw [List.length_append] at hN
    omega

end Prefixes

/-! ### The weights -/

section Weights

variable {α : Type} [DecidableEq α] {table : BitRules α} {c : Option α}
  {d : List (Option α × ℕ)}

/-- `if output not in weights: weights[output] = 1`. -/
lemma foldl_weights (table : BitRules α) (hnodup : (d.map Prod.fst).Nodup) (hone : ∀ x ∈ d, x.2 = 1) :
    ((table.foldl (fun w e => if e.2 ∈ w.map Prod.fst then w else dictSet w e.2 1) d).map
        Prod.fst).Nodup ∧
    (∀ x ∈ table.foldl (fun w e => if e.2 ∈ w.map Prod.fst then w else dictSet w e.2 1) d,
      x.2 = 1) ∧
    ∀ c, c ∈ (table.foldl (fun w e => if e.2 ∈ w.map Prod.fst then w else dictSet w e.2 1) d).map
        Prod.fst ↔ c ∈ d.map Prod.fst ∨ ∃ x ∈ table, x.2 = c := by
  induction table generalizing d with
  | nil => exact ⟨hnodup, hone, by simp⟩
  | cons e table ih =>
    rw [List.foldl_cons]
    by_cases he : e.2 ∈ d.map Prod.fst
    · rw [if_pos he]
      obtain ⟨h₁, h₂, h₃⟩ := ih hnodup hone
      refine ⟨h₁, h₂, fun c => (h₃ c).trans ⟨?_, ?_⟩⟩
      · rintro (h | ⟨x, hx, rfl⟩)
        · exact .inl h
        · exact .inr ⟨x, List.mem_cons_of_mem e hx, rfl⟩
      · rintro (h | ⟨x, hx, rfl⟩)
        · exact .inl h
        · rcases List.mem_cons.mp hx with rfl | hx
          · exact .inl he
          · exact .inr ⟨x, hx, rfl⟩
    · rw [if_neg he]
      obtain ⟨h₁, h₂, h₃⟩ := ih (nodup_keys_dictSet hnodup) fun x hx =>
        (mem_dictSet hx).elim (fun h => by rw [h]) (hone x)
      refine ⟨h₁, h₂, fun c => (h₃ c).trans ?_⟩
      rw [mem_keys_dictSet, List.exists_mem_cons_iff, eq_comm (a := e.2)]
      tauto

/-- What `SuriFmt` weighs: `None` 200000, and every output 1. -/
lemma suriFmt_weights {suriTable : SuriTable α} {w : List (Option α × ℕ)}
    (h : suriFmt table = some (suriTable, w)) : (w.map Prod.fst).Nodup ∧
      (∀ c, c ∈ w.map Prod.fst ↔ c = none ∨ ∃ x ∈ table, x.2 = c) ∧
      ∀ x ∈ w, x.2 = if x.1 = none then 200000 else 1 := by
  obtain ⟨h₁, h₂, h₃⟩ := foldl_weights table (d := []) (by simp) (by simp)
  simp only [suriFmt, Option.bind_eq_bind, Option.bind_eq_some_iff, Option.some.injEq,
    Prod.mk.injEq] at h
  obtain ⟨-, -, -, -, -, rfl⟩ := h
  refine ⟨nodup_keys_dictSet h₁, fun c => ?_, fun x hx => ?_⟩
  · rw [mem_keys_dictSet, h₃]
    simp
  · rcases mem_dictSet_iff.mp hx with rfl | ⟨hx, hne⟩
    · rfl
    · rw [if_neg hne, h₂ x hx]

end Weights

/-! ### The solution of a table -/

section Solution

variable {α : Type} [DecidableEq α] {table : BitRules α} {rules body : SuriTable α}
  {w : List (Option α × ℕ)} {items : List (Option α × ℕ) → List (Option α × ℕ)} {n : ℕ}
  {suriSol : SuriSol α} {c : Option α} {pyFalse : α}

lemma lookup_eq_dictGet {κ β : Type} [BEq κ] [LawfulBEq κ] [DecidableEq κ] (d : List (κ × β))
    (k : κ) : d.lookup k = dictGet d k := by
  induction d with
  | nil => rfl
  | cons x d ih =>
    rw [List.lookup_cons, ih, dictGet, dictGet, List.find?_cons]
    by_cases h : x.1 = k
    · simp [h]
    · have hne : (k == x.1) = false := beq_false_of_ne (Ne.symm h)
      simp [hne, h]

omit [DecidableEq α] in
lemma exists_mem_of_intervalMatch {v : ℕ} (h : intervalMatch rules v = some c) :
    ∃ r ∈ rules, r.2 = c := by
  obtain ⟨r, hr, rfl⟩ := Option.map_eq_some_iff.mp h
  exact ⟨r, List.mem_of_find?_eq_some hr, rfl⟩

lemma mem_colorSet_items (hitems : ∀ w, (items w).Perm w)
    (hfmt : suriFmt table = some (rules ++ [((0, 2 ^ n - 1), none)], w)) :
    c ∈ colorSet (items w) ↔ c = none ∨ ∃ x ∈ table, x.2 = c :=
  ((hitems w).map Prod.fst).mem_iff.trans ((suriFmt_weights hfmt).2.1 c)

lemma weightOf_items (hitems : ∀ w, (items w).Perm w)
    (hfmt : suriFmt table = some (rules ++ [((0, 2 ^ n - 1), none)], w))
    (hc : c ∈ colorSet (items w)) :
    weightOf (items w) c = if c = none then 200000 else 1 := by
  have hmem := (hitems w).mem_iff.mp (mem_of_dictGet (dictGet_weight hc))
  exact (suriFmt_weights hfmt).2.2 _ hmem

lemma colored_suriFmt (hitems : ∀ w, (items w).Perm w)
    (hfmt : suriFmt table = some (rules ++ [((0, 2 ^ n - 1), none)], w))
    (hsame : List.Forall₂ (SameRule n) table rules) (i : Interval) :
    Colored (rules ++ [((0, 2 ^ n - 1), none)]) (items w) i := by
  intro v _
  rw [mem_colorSet_items hitems hfmt]
  cases hmatch : intervalMatch (rules ++ [((0, 2 ^ n - 1), none)]) v with
  | none => exact .inl rfl
  | some c =>
    obtain ⟨r, hr, rfl⟩ := exists_mem_of_intervalMatch hmatch
    rcases List.mem_append.mp hr with hr | hr
    · obtain ⟨x, hx, hxr⟩ := exists_of_forall₂ hsame.flip hr
      exact .inr ⟨x, hx, hxr.1⟩
    · rw [List.mem_singleton.mp hr]
      exact .inl rfl

omit [DecidableEq α] in
lemma noFalse_suriFmt {pyFalse : α} (hfalse : ∀ x ∈ table, x.2 ≠ some pyFalse)
    (hsame : List.Forall₂ (SameRule n) table rules) :
    NoFalse pyFalse (rules ++ [((0, 2 ^ n - 1), none)]) := by
  intro r hr
  rcases List.mem_append.mp hr with hr | hr
  · obtain ⟨x, hx, hxr⟩ := exists_of_forall₂ hsame.flip hr
    rw [← hxr.1]
    exact hfalse x hx
  · rw [List.mem_singleton.mp hr]
    exact nofun

/-- The first solution of a table solves it. -/
lemma exists_suriSolution (hfalse : ∀ x ∈ table, x.2 ≠ some pyFalse)
    (hitems : ∀ w, (items w).Perm w) (hn : n ≤ testBits)
    (hfmt : suriFmt table = some (rules ++ [((0, 2 ^ n - 1), none)], w))
    (hsame : List.Forall₂ (SameRule n) table rules) :
    ∃ suriSol body, (suri pyFalse items).solution (rules ++ [((0, 2 ^ n - 1), none)]) w =
        some suriSol ∧
      Solves (rules ++ [((0, 2 ^ n - 1), none)]) (items w) (0, 2 ^ n - 1) none suriSol body := by
  have hpow : 2 ^ n ≤ 2 ^ testBits := Nat.pow_le_pow_right Nat.two_pos hn
  have hone := Nat.one_le_two_pow (n := n)
  obtain ⟨ps, answers, sols, hps, hanswers, hsols, hall⟩ := findSolutions_optimal
    (i := (0, 2 ^ n - 1)) (noFalse_suriFmt hfalse hsame) (show 2 ^ n - 1 < 2 ^ testBits by omega)
    (colored_suriFmt hitems hfmt hsame _)
  have hblock : (0, 2 ^ n - 1) ∈ ps := by
    obtain ⟨bits, k, hbits, heq⟩ := ((isPrefix_iff hn).mp ⟨[], n, Nat.zero_add n, rfl⟩).1
    rw [prefixInterval_nil] at heq
    rw [heq, getPrefixes_prefixInterval hbits, Option.some.injEq] at hps
    rw [heq, ← hps]
    exact List.mem_singleton_self _
  obtain ⟨ls, hls, hne, hsolves⟩ := hall _ hblock none
    ((mem_colorSet_items hitems hfmt).mpr (.inl rfl))
  obtain ⟨suriSol, ls, rfl⟩ := List.exists_cons_of_ne_nil hne
  obtain ⟨body, hbody, -⟩ := hsolves suriSol List.mem_cons_self
  refine ⟨suriSol, body, ?_, hbody⟩
  simp only [Suri.solution, suri, List.getLast?_concat, Option.bind_eq_bind, Option.bind_some,
    hanswers, hsols, Option.getD_some, lookup_eq_dictGet, hls, List.head?_cons]

lemma Solves.isSolution (hn : n ≤ testBits)
    (h : Solves (rules ++ [((0, 2 ^ n - 1), none)]) w (0, 2 ^ n - 1) none suriSol body) :
    IsSolution n (rules ++ [((0, 2 ^ n - 1), none)]) suriSol body := by
  refine ⟨?_, h.rules, fun r hr => (isPrefix_iff hn).mpr (h.same.isPrefix r hr), h.ordered,
    fun v hv => ?_⟩
  · obtain ⟨x, hx, -⟩ := h.background
    exact ⟨x, hx⟩
  · have hmeaning := h.same.meaning v ⟨Nat.zero_le v, Nat.le_sub_one_of_lt hv⟩
    rw [← intervalMatch_append_none, hmeaning]
    rfl

end Solution

/-! ### The fewest rules -/

section Fewest

variable {α : Type} [DecidableEq α] {table T : BitRules α} {rules body : SuriTable α}
  {w : List (Option α × ℕ)} {n v : ℕ} {i : Interval} {c : Option α} {key : List Bool}

/-- `None` weighs 200000, and every other color 1. -/
def CountsRules (w : List (Option α × ℕ)) : Prop :=
  none ∈ colorSet w ∧ ∀ c ∈ colorSet w, weightOf w c = if c = none then 200000 else 1

lemma CountsRules.bodyWeight (hw : CountsRules w) (hmem : ∀ r ∈ body, r.2 ∈ colorSet w)
    (hsome : ∀ r ∈ body, r.2 ≠ none) : bodyWeight w none body = body.length + 200000 := by
  have hone : ∀ m ∈ body.map (fun r => weightOf w r.2), m = 1 :=
    List.forall_mem_map.mpr fun r hr => by rw [hw.2 _ (hmem r hr), if_neg (hsome r hr)]
  rw [ResSim.bodyWeight, List.eq_replicate_of_mem hone, List.sum_replicate_nat, List.length_map,
    mul_one, hw.2 _ hw.1, if_pos rfl]

lemma CountsRules.le_bodyWeight (hw : CountsRules w) {r : Interval × Option α} (hr : r ∈ body)
    (hnone : r.2 = none) : 400000 ≤ ResSim.bodyWeight w none body := by
  have hle := List.le_sum_of_mem (List.mem_map_of_mem (f := fun r => weightOf w r.2) hr)
  rw [hnone, hw.2 _ hw.1, if_pos rfl] at hle
  rw [ResSim.bodyWeight, hw.2 _ hw.1, if_pos rfl]
  omega

omit [DecidableEq α] in
lemma intervalMatch_concat (hv : v ∈ Set.Icc i.1 i.2) :
    intervalMatch (rules ++ [(i, c)]) v = some ((intervalMatch rules v).getD c) := by
  induction rules with
  | nil =>
    rw [List.nil_append, intervalMatch_cons]
    exact if_pos hv
  | cons r rules ih =>
    rw [List.cons_append, intervalMatch_cons, intervalMatch_cons, ih]
    split <;> rfl

omit [DecidableEq α] in
lemma exists_sameRules (h : ∀ x ∈ T, PrefixRule n x.1) :
    ∃ body, List.Forall₂ (SameRule n) T body := by
  induction T with
  | nil => exact ⟨[], .nil⟩
  | cons x T ih =>
    obtain ⟨⟨bits, k, hn, hx⟩, hrest⟩ := List.forall_mem_cons.mp h
    obtain ⟨body, hbody⟩ := ih hrest
    exact ⟨(prefixInterval bits k, x.2) :: body, .cons ⟨rfl, bits, k, hn, hx, rfl⟩ hbody⟩

omit [DecidableEq α] in
/-- Rules that decide nothing can be left out. -/
lemma firstMatch_filter (p : Option α → Bool) (h : ∀ c, firstMatch T key = some c → p c = true) :
    firstMatch (T.filter (fun x => p x.2)) key = firstMatch T key := by
  induction T with
  | nil => rfl
  | cons x T ih =>
    rw [firstMatch_cons] at h
    rw [List.filter_cons, firstMatch_cons]
    by_cases hx : x.1.Matches key
    · rw [if_pos hx] at h
      rw [if_pos (h x.2 rfl), firstMatch_cons]
      simp only [if_pos hx]
    · rw [if_neg hx] at h
      rw [if_neg hx, ← ih h]
      split
      · rw [firstMatch_cons, if_neg hx]
      · rfl

/-- Prefix rules without `None` that mean the same as the table, as rules of a solution. -/
lemma exists_sameColors (hn : n ≤ testBits) (hw : CountsRules w)
    (hkeys : ∀ x ∈ table, x.2 ∈ colorSet w) (hsame : List.Forall₂ (SameRule n) table rules)
    (hT : ∀ x ∈ T, PrefixRule n x.1 ∧ x.2 ≠ none)
    (hmeaning : ∀ key, key.length = n → firstMatch T key = firstMatch table key) :
    ∃ body, SameColors (rules ++ [((0, 2 ^ n - 1), none)]) w (0, 2 ^ n - 1) none body ∧
      bodyWeight w none body ≤ T.length + 200000 := by
  let p : Option α → Bool := fun c => decide (c ∈ w.map Prod.fst)
  have hfilter : ∀ key, key.length = n →
      firstMatch (T.filter (fun x => p x.2)) key = firstMatch table key := by
    intro key hkey
    rw [← hmeaning key hkey]
    refine firstMatch_filter p fun c hc => decide_eq_true ?_
    rw [hmeaning key hkey] at hc
    obtain ⟨x, hx, rfl⟩ := exists_mem_of_firstMatch hc
    exact hkeys x hx
  obtain ⟨body, hbody⟩ := exists_sameRules (n := n) (T := T.filter (fun x => p x.2))
    fun x hx => (hT x (List.mem_of_mem_filter hx)).1
  have hof : ∀ r ∈ body, ∃ x ∈ T.filter (fun x => p x.2), SameRule n x r := fun r hr =>
    exists_of_forall₂ hbody.flip hr
  have hmem : ∀ r ∈ body, r.2 ∈ colorSet w := by
    intro r hr
    obtain ⟨x, hx, hxr⟩ := hof r hr
    have hkey := (List.mem_filter.mp hx).2
    rw [← hxr.1]
    exact of_decide_eq_true (p := x.2 ∈ w.map Prod.fst) hkey
  have hsome : ∀ r ∈ body, r.2 ≠ none := by
    intro r hr
    obtain ⟨x, hx, hxr⟩ := hof r hr
    rw [← hxr.1]
    exact (hT x (List.mem_of_mem_filter hx)).2
  refine ⟨body, ⟨fun r hr => ?_, hmem, fun v hv => ?_⟩, ?_⟩
  · obtain ⟨x, -, -, bits, k, hbits, -, hr⟩ := hof r hr
    exact (isPrefix_iff hn).mp ⟨bits, k, hbits, hr⟩
  · obtain ⟨key, hkey, rfl⟩ := exists_bitVal
      (Nat.lt_of_le_sub_one Nat.one_le_two_pow hv.2 : v < 2 ^ n)
    rw [intervalMatch_concat hv, intervalMatch_append_none, ← firstMatch_eq_intervalMatch hbody hkey,
      ← firstMatch_eq_intervalMatch hsame hkey, hfilter key hkey]
    cases firstMatch table key <;> rfl
  · rw [hw.bodyWeight hmem hsome, ← hbody.length_eq]
    exact Nat.add_le_add_right (List.length_filter_le _ _) _

end Fewest

/-! ### One partition -/

section OnePartition

variable {α : Type} [DecidableEq α] {P : BitRules α} {n : ℕ} {pyFalse : α}
  {items : List (Option α × ℕ) → List (Option α × ℕ)}

omit [DecidableEq α] in
/-- The swap keeps the outputs. -/
lemma noFalse_swap (hlt : 1 < P.length) (hlen : ∀ x ∈ P, x.1.length = n)
    (hfalse : ∀ x ∈ P, x.2 ≠ some pyFalse) : ∀ x ∈ (prefixBitSwap P).1, x.2 ≠ some pyFalse := by
  rw [prefixBitSwap_eq (List.ne_nil_of_length_pos (by omega)) hlen]
  exact List.forall_mem_map.mpr fun x hx => hfalse x hx

/-- The intervals of a swapped partition. -/
lemma exists_suriFmt (hP : NoCross P) (hlen : ∀ x ∈ P, x.1.length = n) (hlt : 1 < P.length)
    (hbits : ∀ x ∈ P, ∃ a ∈ x.1, a ≠ none) :
    ∃ rules w, suriFmt (prefixBitSwap P).1 = some (rules ++ [((0, 2 ^ n - 1), none)], w) ∧
      List.Forall₂ (SameRule n) (prefixBitSwap P).1 rules := by
  have hne : P ≠ [] := by
    rintro rfl
    simp at hlt
  refine suriFmt_spec (by simpa [prefixBitSwap_eq hne hlen] using hne) fun y hy => ?_
  rw [prefixBitSwap_eq hne hlen] at hy
  obtain ⟨x, hx, rfl⟩ := List.mem_map.mp hy
  obtain ⟨bits, k, hn, heq, hnil⟩ := swapped_prefixPattern hP hlen hx
  obtain ⟨a, ha, hane⟩ := hbits x hx
  exact ⟨bits, k, fun h => hane (hnil.mp h a ha), hn, heq⟩

lemma countsRules_items {table : BitRules α} {rules : SuriTable α} {w : List (Option α × ℕ)}
    (hitems : ∀ w, (items w).Perm w)
    (hfmt : suriFmt table = some (rules ++ [((0, 2 ^ n - 1), none)], w)) :
    CountsRules (items w) :=
  ⟨(mem_colorSet_items hitems hfmt).mpr (.inl rfl), fun _ hc => weightOf_items hitems hfmt hc⟩

/-- Of the prefix rules without `None` that mean the same as a swapped partition, there are no
fewer than those that `suri` finds. -/
theorem minimizedTable_fewest (hitems : ∀ w, (items w).Perm w) (hn : n ≤ testBits)
    (hP : NoCross P) (hlen : ∀ x ∈ P, x.1.length = n) (hlt : 1 < P.length)
    (hbits : ∀ x ∈ P, ∃ a ∈ x.1, a ≠ none) (hnone : ∀ x ∈ P, x.2 ≠ none)
    (hfalse : ∀ x ∈ P, x.2 ≠ some pyFalse) (hsmall : P.length < 200000) :
    ∃ minimized, minimizedTable (suri pyFalse items) n P = some minimized ∧
      (∀ x ∈ minimized, PrefixRule n x.1 ∧ x.2 ≠ none) ∧
      (∀ key, key.length = n → firstMatch minimized key = firstMatch (prefixBitSwap P).1 key) ∧
      ∀ T : BitRules α, (∀ x ∈ T, PrefixRule n x.1 ∧ x.2 ≠ none) →
        (∀ key, key.length = n → firstMatch T key = firstMatch (prefixBitSwap P).1 key) →
        minimized.length ≤ T.length := by
  have hne : P ≠ [] := by
    rintro rfl
    simp at hlt
  obtain ⟨rules, w, hfmt, hsame⟩ := exists_suriFmt hP hlen hlt hbits
  obtain ⟨suriSol, body, hsol, hsolves⟩ :=
    exists_suriSolution (noFalse_swap hlt hlen hfalse) hitems hn hfmt hsame
  obtain ⟨minimized, hmin, hsame'⟩ := (hsolves.isSolution hn).suriUnfmt
  have hw : CountsRules (items w) := countsRules_items hitems hfmt
  have hkeys : ∀ x ∈ (prefixBitSwap P).1, x.2 ∈ colorSet (items w) := fun x hx =>
    (mem_colorSet_items hitems hfmt).mpr (.inr ⟨x, hx, rfl⟩)
  have hswapped : ∀ x ∈ (prefixBitSwap P).1, PrefixRule n x.1 ∧ x.2 ≠ none := by
    intro x hx
    obtain ⟨r, -, -, bits, k, hbits, hx', -⟩ := exists_of_forall₂ hsame hx
    refine ⟨⟨bits, k, hbits, hx'⟩, ?_⟩
    rw [prefixBitSwap_eq hne hlen] at hx
    obtain ⟨y, hy, rfl⟩ := List.mem_map.mp hx
    exact hnone y hy
  -- the partition itself is lighter than rules with `None`
  have hsome : ∀ r ∈ body, r.2 ≠ none := by
    intro r hr hrnone
    obtain ⟨body', hbody', hle'⟩ := exists_sameColors hn hw hkeys hsame hswapped fun _ _ => rfl
    have hle := hsolves.least body' hbody'
    have hheavy := hw.le_bodyWeight hr hrnone
    rw [prefixBitSwap_eq hne hlen, List.length_map] at hle'
    omega
  have hweight := hw.bodyWeight hsolves.same.mem hsome
  have hsome' : ∀ x ∈ minimized, x.2 ≠ none := by
    intro x hx
    obtain ⟨r, hr, hxr⟩ := exists_of_forall₂ hsame' hx
    rw [hxr.1]
    exact hsome r hr
  refine ⟨minimized, ?_, fun x hx => ⟨?_, hsome' x hx⟩, fun key hkey => ?_, fun T hT hmeaning => ?_⟩
  · simp only [minimizedTable, hfmt, Option.bind_eq_bind, Option.bind_some, hsol, hmin]
  · obtain ⟨r, -, -, bits, k, hbits, hx', -⟩ := exists_of_forall₂ hsame' hx
    exact ⟨bits, k, hbits, hx'⟩
  · have hjoin : (firstMatch minimized key).join = (firstMatch (prefixBitSwap P).1 key).join := by
      have hmeaning := (hsolves.isSolution hn).meaning (bitVal key) (hkey ▸ bitVal_lt key)
      rw [firstMatch_eq_intervalMatch hsame' hkey, hmeaning, intervalMatch_append_none,
        firstMatch_eq_intervalMatch hsame hkey]
    rcases eq_or_of_join_eq hjoin with heq | ⟨hnone, -⟩ | ⟨-, hnone⟩
    · exact heq
    · obtain ⟨x, hx, hxnone⟩ := exists_mem_of_firstMatch hnone
      exact absurd hxnone (hswapped x hx).2
    · obtain ⟨x, hx, hxnone⟩ := exists_mem_of_firstMatch hnone
      exact absurd hxnone (hsome' x hx)
  · obtain ⟨body', hbody', hle'⟩ := exists_sameColors hn hw hkeys hsame hT hmeaning
    have hle := hsolves.least body' hbody'
    rw [hsame'.length_eq]
    omega

end OnePartition

/-! ### Longer rules -/

section Long

variable {α : Type} [DecidableEq α] {suriTable : SuriTable α} {colorWeights : List (Option α × ℕ)}
  {fuel n : ℕ} {pre : Interval} {pyFalse : α}

end Long

/-! ### All of the table -/

section Table

variable {α : Type} [DecidableEq α] {table P : BitRules α} {n fuel : ℕ} {pyFalse : α}
  {items : List (Option α × ℕ) → List (Option α × ℕ)}
  {iteritems : RuleGroups α → RuleGroups α}

end Table

/-! ### Two rules -/

section Halves

/-- Two rules that differ in the first bit. The output 2 will stand for the object `False`. -/
def halves : BitRules ℕ := [([some false, some false], some 0), ([some true, some false], some 0)]

lemma halves_parts : findMinPartition (popNone halves) = some [halves] := by decide

lemma halves_noCross : NoCross halves := by
  obtain ⟨parts, hparts, -, hcross, -⟩ := findMinPartition_spec
    (by decide : ∀ x ∈ popNone halves, x.1.length = 2)
  obtain rfl := Option.some.inj (hparts.symm.trans halves_parts)
  exact hcross halves (List.mem_singleton_self _)

theorem minimizedTable_fewest_halves :
    ∃ minimized, minimizedTable (suri 2 id) 2 halves = some minimized ∧
      (∀ x ∈ minimized, PrefixRule 2 x.1 ∧ x.2 ≠ none) ∧
      (∀ key, key.length = 2 →
        firstMatch minimized key = firstMatch (prefixBitSwap halves).1 key) ∧
      ∀ T : BitRules ℕ, (∀ x ∈ T, PrefixRule 2 x.1 ∧ x.2 ≠ none) →
        (∀ key, key.length = 2 → firstMatch T key = firstMatch (prefixBitSwap halves).1 key) →
        minimized.length ≤ T.length :=
  minimizedTable_fewest (fun w => .refl w) (by decide) halves_noCross (by decide) (by decide)
    (by decide) (by decide) (by decide) (by decide)

end Halves

end ResSim
