import ResSim.Lib.Connected
import ResSim.Trees.Ttg

/-!
# The random acyclic graph

The graph starts with an edge from every tree to every other one, and random searches delete an
edge of a cycle until there is no cycle. An edge of a cycle can be replaced by the rest of the
cycle when directions do not count, so the trees stay connected; and a search over a graph with
a cycle deletes at least one edge, so the searches end.
-/

namespace ResSim

open Relation

/-! ### Breaking one cycle -/

section Breaker

variable {es : List (ℕ × ℕ)} {cycle : List ℕ} {rnd : Rnd} {n size : ℕ}

/-- A cycle that is broken exists and loses one edge; a cycle that no longer exists is left
alone. -/
lemma ttgRandBreakCycle_cases (es : List (ℕ × ℕ)) (cycle : List ℕ) (rnd : Rnd) :
    (ttgRandBreakCycle es cycle rnd).1 = es ∨ (∀ e ∈ steps cycle, e ∈ es) ∧
      ∃ e ∈ steps cycle, (ttgRandBreakCycle es cycle rnd).1 = es.erase e := by
  unfold ttgRandBreakCycle
  split
  · rename_i hall
    split
    · exact .inl rfl
    · rename_i e he
      exact .inr ⟨hall, e, choice_mem he, rfl⟩
  · exact .inl rfl

lemma ttgRandBreakCycle_lt (h : ∀ e ∈ steps cycle, e ∈ es) (hlen : 2 ≤ cycle.length) :
    (ttgRandBreakCycle es cycle rnd).1.length < es.length := by
  have hne : steps cycle ≠ [] := by
    intro hnil
    have := congrArg List.length hnil
    simp only [steps, List.length_zip, List.length_tail, List.length_nil] at this
    omega
  obtain ⟨e, he⟩ := exists_choice_of_ne_nil (rnd 0) hne
  have hmem : e ∈ es := h e (choice_mem he)
  unfold ttgRandBreakCycle
  rw [if_pos h, he]
  have := List.length_pos_of_mem hmem
  simp only [List.length_erase_of_mem hmem]
  omega

lemma ttgRandBreaker_lawful (hle : n ≤ size) :
    ttgRandBreaker.Lawful (List.range size) List.length (fun es => es ⊆ completeEdges n) where
  succ_mem g v w hg hw := by
    obtain ⟨e, he, rfl⟩ := List.mem_map.mp hw
    have := (mem_completeEdges (hg (List.mem_filter.mp he).1)).2
    exact List.mem_range.mpr (by omega)
  succ_length g v _ := by
    change ((g.filter _).map Prod.snd).length ≤ g.length
    rw [List.length_map]
    exact List.length_filter_le _ _
  break_good g c rnd hg := List.Subset.trans (ttgRandBreakCycle_subset g c rnd) hg
  break_eq_or_lt g c rnd _ := by
    apply (ttgRandBreakCycle_cases g c rnd).imp_right
    rintro ⟨hall, e, he, heq⟩
    have hmem := hall e he
    have := List.length_pos_of_mem hmem
    change (ttgRandBreakCycle g c rnd).1.length < g.length
    rw [heq, List.length_erase_of_mem hmem]
    omega
  break_lt g c rnd _ hpath hlen := by
    apply ttgRandBreakCycle_lt _ hlen
    have hsteps := isChain_iff_steps.mp hpath
    intro e he
    obtain ⟨e', he', heq⟩ := List.mem_map.mp (hsteps e he)
    simp only [List.mem_filter, decide_eq_true_eq] at he'
    exact Prod.ext he'.2 heq ▸ he'.1

/-- The trees before `n` are connected to the first one. -/
def TreesConnected (n : ℕ) (es : List (ℕ × ℕ)) : Prop :=
  ∀ v < n, ReflTransGen (EdgeRel (bothWays es)) 0 v

lemma weaklyConnected_iff : weaklyConnected es n = true ↔ TreesConnected n es := by
  simp only [weaklyConnected, List.all_eq_true, List.mem_range, reach_iff, TreesConnected, bothWays]

lemma TreesConnected.breakCycle (h : TreesConnected n es) (hc : CycleBreaker.IsClosed cycle) :
    TreesConnected n (ttgRandBreakCycle es cycle rnd).1 := by
  rcases ttgRandBreakCycle_cases es cycle rnd with heq | ⟨hall, e, he, heq⟩
  · rw [heq]
    exact h
  · rw [heq]
    exact fun v hv => connected_of_erase hc hall he (h v hv)

lemma connected_completeEdges (n : ℕ) : TreesConnected n (completeEdges n) := by
  intro v hv
  by_cases h0 : v = 0
  · rw [h0]
  · apply ReflTransGen.single
    rw [EdgeRel, mem_bothWays]
    left
    simp only [completeEdges, List.mem_flatMap, List.mem_map, List.mem_filter, List.mem_range]
    exact ⟨0, by omega, v, ⟨hv, by simp [Ne.symm h0]⟩, rfl⟩

end Breaker

/-! ### All rounds -/

section Rounds

variable {n size fuel : ℕ}

/-- One round ends: it finds a graph without cycles, or deletes an edge and keeps the trees
connected. -/
lemma ttgRandRound_spec (hle : n ≤ size) {s : List (ℕ × ℕ) × Rnd} (hs : s.1 ⊆ completeEdges n)
    (hc : TreesConnected n s.1) (hfuel : size * (s.1.length + 2) < fuel) :
    isDag s.1 = true ∧ ttgRandRound fuel size s = .done (some s.1) ∨
      ∃ s', ttgRandRound fuel size s = .next s' ∧ s'.1 ⊆ completeEdges n ∧ TreesConnected n s'.1 ∧
        s'.1.length < s.1.length := by
  by_cases hdag : isDag s.1 = true
  · left
    unfold ttgRandRound
    rw [if_pos hdag]
    exact ⟨hdag, rfl⟩
  right
  have hcyc : ¬ Acyclic (ttgRandBreaker.Edge s.1) := by
    intro h
    apply hdag
    rw [isDag_iff]
    refine h.mono fun a b hab => ?_
    change b ∈ (s.1.filter (fun e => e.1 = a)).map Prod.snd
    exact List.mem_map.mpr ⟨(a, b), List.mem_filter.mpr ⟨hab, by simp⟩, rfl⟩
  have hlen : (List.range size).length * (s.1.length + 2) < fuel := by
    rw [List.length_range]
    exact hfuel
  obtain ⟨es, removed, rnd', hpass, hconn, hes, _, hlt⟩ := (ttgRandBreaker_lawful hle).pass_returns
    hs s.2 hlen (fun es _ => TreesConnected n es) (fun es _ c rnd hclosed h => h.breakCycle hclosed) hc
  refine ⟨(es, rnd'), ?_, hes, hconn, hlt hcyc⟩
  unfold ttgRandRound
  rw [if_neg hdag, hpass]

/-- The searches end with an acyclic graph on which the trees are connected. -/
lemma ttgRandDagHelper_spec (hle : n ≤ size) (rnd : Rnd)
    (hfuel : (size + 1) * ((completeEdges n).length + 2) < fuel) :
    ∃ es, ttgRandDagHelper fuel size rnd n = some es ∧ isDag es = true ∧
      weaklyConnected es n = true ∧ es ⊆ completeEdges n := by
  let Inv : List (ℕ × ℕ) × Rnd → Prop := fun s => s.1 ⊆ completeEdges n ∧ TreesConnected n s.1 ∧
    s.1.length ≤ (completeEdges n).length
  let Post : Option (List (ℕ × ℕ)) → Prop := fun r => ∃ es, r = some es ∧ isDag es = true ∧
    TreesConnected n es ∧ es ⊆ completeEdges n
  have hbody : ∀ s, Inv s → (∃ r, ttgRandRound fuel size s = .done r ∧ Post r) ∨
      ∃ s', ttgRandRound fuel size s = .next s' ∧ Inv s' ∧ s'.1.length < s.1.length := by
    rintro s ⟨hs, hc, hlen⟩
    have hmul : size * (s.1.length + 2) ≤ size * ((completeEdges n).length + 2) :=
      Nat.mul_le_mul_left size (by omega)
    have hpass : size * (s.1.length + 2) < fuel := by
      rw [Nat.succ_mul] at hfuel
      omega
    rcases ttgRandRound_spec hle hs hc hpass with ⟨hdag, hd⟩ | ⟨s', hn, hs', hc', hlt⟩
    · exact .inl ⟨_, hd, s.1, rfl, hdag, hc, hs⟩
    · exact .inr ⟨s', hn, ⟨hs', hc', by omega⟩, hlt⟩
  have hstart : Inv (completeEdges n, rnd) :=
    ⟨List.Subset.refl _, connected_completeEdges n, Nat.le_refl _⟩
  have hlen : (completeEdges n).length < fuel := by
    rw [Nat.succ_mul] at hfuel
    omega
  obtain ⟨r, hrun, es, rfl, hdag, hc, hes⟩ := Loop.run_of_measure (fun s => s.1.length) Inv Post
    hbody hstart hlen
  refine ⟨es, ?_, hdag, weaklyConnected_iff.mpr hc, hes⟩
  unfold ttgRandDagHelper
  rw [hrun]
  rfl

end Rounds

/-- The random graph on `n` trees is built whatever is drawn: it is acyclic and connects the
trees. Each call that breaks a cycle deletes one edge of a cycle of the current graph, or changes
nothing. -/
theorem ttgRandDagHelper_usable (n extra : ℕ) (rnd : Rnd) :
    (∃ bound, ∀ fuel, bound ≤ fuel → ∃ es, ttgRandDagHelper fuel (n + extra) rnd n = some es ∧
      isDag es = true ∧ weaklyConnected es n = true ∧ ∀ e ∈ es, e.1 < n ∧ e.2 < n) ∧
    ∀ (pv : List ℕ) (s : Search (List (ℕ × ℕ)) ℕ (ℕ × ℕ)) (iw : ℕ),
      (ttgRandBreaker.closeCycle pv s iw).graph = s.graph ∨
      ∃ cycle, CycleBreaker.IsClosed cycle ∧ (∀ e ∈ steps cycle, e ∈ s.graph) ∧
        ∃ e ∈ steps cycle, (ttgRandBreaker.closeCycle pv s iw).graph = s.graph.erase e := by
  refine ⟨⟨(n + extra + 1) * ((completeEdges n).length + 2) + 1, fun fuel hfuel => ?_⟩,
    fun pv s iw => ?_⟩
  · obtain ⟨es, hrun, hdag, hc, hes⟩ :=
      ttgRandDagHelper_spec (Nat.le_add_right n extra) rnd (Nat.lt_of_succ_le hfuel)
    exact ⟨es, hrun, hdag, hc, fun e he => mem_completeEdges (hes he)⟩
  · unfold CycleBreaker.closeCycle
    split
    · rename_i hiw
      rcases ttgRandBreakCycle_cases s.graph (pv.drop (pv.idxOf iw) ++ [iw]) s.rnd with heq | h
      · exact .inl heq
      · exact .inr ⟨_, CycleBreaker.isClosed_drop hiw, h⟩
    · exact .inl rfl

end ResSim
