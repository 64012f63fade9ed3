import Mathlib.Data.Fin.VecNotation
import Mathlib.Order.Bounds.Basic
import ResSim.Trees.AdstForest

/-!
# How many branchings are built

`adst_forest` is to build as many trees as the connectivity of the destination. The arc that is
drawn is only taken if the trees that remain to be built can do without it. The arc that
replaces it is not tested, and it is what makes trees fail: if every such arc passes the test,
all trees are built, and there are as many disjoint paths left as trees remain.
-/

namespace ResSim

variable {V E : Type} [DecidableEq V] {maxflow : List (Option V) →
    List (Option V × Option V × ℕ) → Option V → Option V → Flow (Option V)}
  {G : PortGraph V E} {dst : V} {k k₀ : ℕ} {s s' : AdstState V E} {ie : (V × V × E) × ℕ}
  {iDG iDG₀ : List (V × V × E)} {rnd rnd₀ : Rnd}

/-! ### States of a run -/

section Defs

variable (maxflow G dst)

/-- The states of a run that starts with `k₀` trees to be built: the number of trees that remain
to be built, this one included, and a state at the head of the loop of `adst_tree`. -/
inductive AdstRun (k₀ : ℕ) (iDG₀ : List (V × V × E)) (rnd₀ : Rnd) : ℕ → AdstState V E → Prop
  | start : AdstRun k₀ iDG₀ rnd₀ k₀ (adstStart dst iDG₀ rnd₀)
  | pass {k : ℕ} {s s' : AdstState V E} : AdstRun k₀ iDG₀ rnd₀ (k + 1) s →
      adstStep maxflow G dst (k + 1) s = .next s' → AdstRun k₀ iDG₀ rnd₀ (k + 1) s'
  | tree {k : ℕ} {s : AdstState V E} : AdstRun k₀ iDG₀ rnd₀ (k + 1) s →
      adstStep maxflow G dst (k + 1) s = .done (some (some s)) →
      AdstRun k₀ iDG₀ rnd₀ k (adstStart dst s.iDG s.rnd)

/-- An arc that the pass takes in place of the one that was drawn passes the same test. -/
def EprimeSafe (k : ℕ) (s : AdstState V E) : Prop :=
  ∀ ie, Replaces maxflow G dst k s ie → k ≤ (arcFlow maxflow G dst s ie).value

end Defs

/-- A run that is started from the graph of a state of a run is part of that run. -/
lemma AdstRun.trans {j : ℕ} {t : AdstState V E} (h : AdstRun maxflow G dst k₀ iDG₀ rnd₀ k
    (adstStart dst iDG rnd)) (ht : AdstRun maxflow G dst k iDG rnd j t) :
    AdstRun maxflow G dst k₀ iDG₀ rnd₀ j t := by
  induction ht with
  | start => exact h
  | pass _ hstep ih => exact ih.pass hstep
  | tree _ hstep ih => exact ih.tree hstep

lemma AdstRun.reaches (h : AdstRun maxflow G dst k₀ iDG₀ rnd₀ (k + 1) s)
    (hs : Loop.Reaches (adstStep maxflow G dst (k + 1)) s s') :
    AdstRun maxflow G dst k₀ iDG₀ rnd₀ (k + 1) s' := by
  induction hs with
  | refl => exact h
  | tail _ hstep ih => exact ih.pass hstep

/-! ### The test of an arc -/

/-- The flow is large enough exactly if the other trees can do without the arc. -/
lemma le_arcFlow_iff (hmf : IsMaxflow maxflow) (hdst : dst ∈ s.vT) (h : ie ∈ frontier s) :
    k + 1 ≤ (arcFlow maxflow G dst s ie).value ↔ Safe dst k s.iDG ie.1 := by
  obtain ⟨A, _, _, hdstA, hxA, hyA, hvalue, hle⟩ := arcFlow_spec (G := G) hmf hdst h
  constructor
  · exact fun hk U hx hy hr => hk.trans (hle U hy hx hr)
  · intro hsafe
    rw [hvalue]
    apply hsafe <;> simpa [mem_sinkSide]

lemma le_arcFlow_of_connected (hmf : IsMaxflow maxflow) (hdst : dst ∈ s.vT)
    (hconn : RootConnected dst k s.iDG) (h : ie ∈ frontier s) :
    k ≤ (arcFlow maxflow G dst s ie).value := by
  obtain ⟨A, _, _, hdstA, _, hyA, hvalue, _⟩ := arcFlow_spec (G := G) hmf hdst h
  rw [hvalue]
  exact hconn _ ⟨ie.1.2.1, mem_sinkSide.mpr hyA⟩ (by simpa [mem_sinkSide] using hdstA)

lemma Growing.exists_next (h : Growing dst k s.iDG s.vT.toFinset) (hmf : IsMaxflow maxflow)
    (hT : s.vT.toFinset ≠ G.verts.toFinset) :
    ∃ ie ∈ frontier s, adstStep maxflow G dst (k + 1) s = .next (s.addArc ie) ∧
      (k + 1 ≤ (arcFlow maxflow G dst s ie).value ∨ Replaces maxflow G dst (k + 1) s ie) := by
  have : Fintype V := ⟨G.verts.toFinset, by simp [G.mem_verts]⟩
  have huniv : s.vT.toFinset ≠ Finset.univ := by
    intro heq
    apply hT
    ext v
    simp [heq, G.mem_verts]
  have hdst : dst ∈ s.vT := List.mem_toFinset.mp h.root
  rcases adstStep_cases (k := k + 1) hmf hdst hT with ⟨_, hnone⟩ | hnext
  · exfalso
    rcases hnone with hnil | ⟨old, hold, hlow | ⟨hless, A, hside, hep⟩⟩
    · obtain ⟨a, ha, hx, hy⟩ := h.exists_frontier huniv
      rw [List.mem_toFinset] at hx hy
      exact selectArcs_ne_nil ha ⟨hx, hy⟩ hnil
    · have := le_arcFlow_of_connected (G := G) hmf hdst h.connected hold
      omega
    · -- the cut has no arc to spare, so the tree can be entered beyond it
      obtain ⟨A', hside', _, _, _, hyA, hvalue, _⟩ := arcFlow_spec (G := G) hmf hdst hold
      obtain rfl : A = A' := Option.some.inj (hside.symm.trans hside')
      have hy := (mem_frontier hold).1.2
      have hout : ¬ sinkSide G A ⊆ s.vT.toFinset :=
        fun hs => hy (List.mem_toFinset.mp (hs (mem_sinkSide.mpr hyA)))
      obtain ⟨a, ha, ⟨hxT, hxA⟩, hyT, hyA⟩ := h.exists_inner hout (by omega)
      rw [List.mem_toFinset] at hxT hyT
      rw [mem_sinkSide] at hxA hyA
      exact selectArcs_ne_nil ha ⟨⟨hxT, hxA⟩, ⟨G.mem_verts _, hyT⟩, hyA⟩ hep
  · exact hnext

lemma Growing.addArc (h : Growing dst k s.iDG s.vT.toFinset) (hie : ie ∈ frontier s)
    (hsafe : Safe dst k s.iDG ie.1) :
    Growing dst k (s.addArc ie).iDG (s.addArc ie).vT.toFinset := by
  have := h.grow (mem_frontier hie).2 hsafe
  simpa [AdstState.addArc] using this

/-! ### Runs -/

section Runs

variable (hmf : IsMaxflow maxflow)

include hmf in
/-- While all arcs that replace another are safe, the trees that remain can be built. -/
lemma AdstRun.growing (hconn : RootConnected dst k₀ iDG₀)
    (hsafe : ∀ k s, AdstRun maxflow G dst k₀ iDG₀ rnd₀ (k + 1) s →
      EprimeSafe maxflow G dst (k + 1) s)
    (h : AdstRun maxflow G dst k₀ iDG₀ rnd₀ k s) :
    ∀ j, k = j + 1 → Growing dst j s.iDG s.vT.toFinset := by
  have hstart : ∀ k, ∀ iDG : List (V × V × E), ∀ rnd, RootConnected dst k iDG →
      ∀ j, k = j + 1 → Growing dst j (adstStart dst iDG rnd).iDG
        (adstStart dst iDG rnd).vT.toFinset := by
    rintro k iDG rnd hconn j rfl
    simpa [adstStart] using hconn.growing
  induction h with
  | start => exact hstart k₀ iDG₀ rnd₀ hconn
  | @pass k s s' hrun hstep ih =>
    have hg := ih k rfl
    have hT : s.vT.toFinset ≠ G.verts.toFinset := by
      intro hT
      rw [adstStep, if_pos hT] at hstep
      cases hstep
    obtain ⟨ie, hie, hnext, htest⟩ := hg.exists_next hmf hT
    obtain rfl : s.addArc ie = s' := by
      rw [hnext] at hstep
      exact Step.next.inj hstep
    have hvalue : k + 1 ≤ (arcFlow maxflow G dst s ie).value :=
      htest.elim id (hsafe k s hrun ie)
    have hg' := hg.addArc hie
      ((le_arcFlow_iff hmf (List.mem_toFinset.mp hg.root) hie).mp hvalue)
    rintro j hj
    obtain rfl : k = j := Nat.succ.inj hj
    exact hg'
  | @tree k s _ _ ih => exact hstart k s.iDG s.rnd (ih k rfl).connected

include hmf in
lemma adstTrees_length (numTrees : ℕ) (forest : List (ITree V E))
    (hconn : RootConnected dst k₀ iDG₀)
    (hsafe : ∀ k s, AdstRun maxflow G dst k₀ iDG₀ rnd₀ (k + 1) s →
      EprimeSafe maxflow G dst (k + 1) s) :
    ∃ trees, adstTrees maxflow G dst numTrees false k₀ forest iDG₀ rnd₀ = some (forest ++ trees) ∧
      trees.length = k₀ := by
  induction k₀ generalizing forest iDG₀ rnd₀ with
  | zero => exact ⟨[], by simp [adstTrees], rfl⟩
  | succ k ih =>
    obtain ⟨res, htree, _⟩ := adstTree_spec G dst (k + 1) hmf iDG₀ rnd₀
    have hreturns : Loop.Returns (adstStep maxflow G dst (k + 1)) (adstStart dst iDG₀ rnd₀)
        (some res) := ⟨G.verts.length + 1, Option.join_eq_some_iff.mp htree⟩
    obtain ⟨s, hreaches, hdone⟩ := hreturns.exists_last
    have hrun := AdstRun.start.reaches hreaches
    by_cases hT : s.vT.toFinset = G.verts.toFinset
    · have hs : adstStep maxflow G dst (k + 1) s = .done (some (some s)) := if_pos hT
      obtain rfl : some s = res := Option.some.inj (Step.done.inj (hs.symm.trans hdone))
      have hnext := hrun.tree hs
      obtain ⟨trees, hrest, hlen⟩ := ih (forest ++ [⟨true, s.iT⟩])
        (hrun.growing hmf hconn hsafe k rfl).connected (fun j t ht => hsafe j t (hnext.trans ht))
      refine ⟨⟨true, s.iT⟩ :: trees, ?_, by simp [hlen]⟩
      simp [adstTrees, htree, hrest]
    · obtain ⟨ie, _, hnext, _⟩ := (hrun.growing hmf hconn hsafe k rfl).exists_next hmf hT
      rw [hnext] at hdone
      cases hdone

include hmf in
lemma AdstRun.dst_mem (h : AdstRun maxflow G dst k₀ iDG₀ rnd₀ k s) : dst ∈ s.vT := by
  induction h with
  | start => exact List.mem_singleton_self dst
  | @pass k s s' _ hstep ih =>
    by_cases hT : s.vT.toFinset = G.verts.toFinset
    · rw [adstStep, if_pos hT] at hstep
      cases hstep
    · rcases adstStep_cases (k := k + 1) hmf ih hT with ⟨hdone, _⟩ | ⟨ie, _, hnext, _⟩
      · rw [hdone] at hstep
        cases hstep
      · rw [hnext] at hstep
        obtain rfl := Step.next.inj hstep
        exact List.mem_append_left _ ih
  | tree => exact List.mem_singleton_self dst

include hmf in
/-- If the trees that remain can be built after every pass, all arcs that replace another are
safe. -/
lemma EprimeSafe.of_paths
    (hpaths : ∀ k s, AdstRun maxflow G dst k₀ iDG₀ rnd₀ (k + 1) s →
      ∀ v, DisjointPaths dst k s.iDG v)
    (h : AdstRun maxflow G dst k₀ iDG₀ rnd₀ (k + 1) s) : EprimeSafe maxflow G dst (k + 1) s := by
  have : Fintype V := ⟨G.verts.toFinset, by simp [G.mem_verts]⟩
  intro ie hie
  have hconn := rootConnected_iff.mpr (hpaths k s h)
  have hmem := hie.mem_frontier
  have hdst := h.dst_mem hmf
  have hstep : adstStep maxflow G dst (k + 1) s = .next (s.addArc ie) := by
    obtain ⟨old, A, hold, hless, hside, hie⟩ := hie
    have hmem := choice_mem hold
    have hT : s.vT.toFinset ≠ G.verts.toFinset := by
      intro hT
      apply (mem_frontier hmem).1.2
      rw [← List.mem_toFinset, hT]
      simp [G.mem_verts]
    obtain ⟨A', hside', hnone, hdstA, _⟩ := arcFlow_spec (G := G) hmf hdst hmem
    obtain rfl : A = A' := Option.some.inj (hside.symm.trans hside')
    have hlow := le_arcFlow_of_connected (G := G) hmf hdst hconn hmem
    have hlow : ¬ (arcFlow maxflow G dst s old).value + 1 < k + 1 := by omega
    simp only [adstStep, if_neg hT, hold, if_neg hlow, if_pos hless, hside,
      if_pos (And.intro hnone hdstA), hie]
  have hconn' := rootConnected_iff.mpr (hpaths k _ (h.pass hstep))
  rw [le_arcFlow_iff hmf hdst hmem, hconn.safe_iff (mem_frontier hmem).2]
  exact hconn'

end Runs

/-! ### The connectivity of the destination -/

section Connectivity

variable {edgeConnectivity : List V → List (V × V) → V → V → ℕ}

variable (dst) in
/-- `c = min(c, f(v))` for all vertices but one. -/
lemma foldl_min_spec (f : V → ℕ) (vs : List V) (c : ℕ) :
    let res := vs.foldl (fun c v => if v = dst then c else min c (f v)) c
    res ≤ c ∧ (∀ v ∈ vs, v ≠ dst → res ≤ f v) ∧
      (res = c ∨ ∃ v ∈ vs, v ≠ dst ∧ res = f v) := by
  induction vs generalizing c with
  | nil => simp
  | cons v vs ih =>
    obtain ⟨hle, hall, heq⟩ := ih (if v = dst then c else min c (f v))
    have htail : ∀ {P : V → Prop}, (∃ w ∈ vs, P w) → ∃ w ∈ v :: vs, P w :=
      fun ⟨w, hw, h⟩ => ⟨w, List.mem_cons_of_mem v hw, h⟩
    simp only [List.foldl_cons, List.forall_mem_cons]
    by_cases hv : v = dst
    · simp only [hv, if_true] at hle hall heq htail ⊢
      exact ⟨hle, ⟨by simp, hall⟩, heq.imp_right htail⟩
    · simp only [hv, if_false] at hle hall heq ⊢
      refine ⟨hle.trans (min_le_left _ _), ⟨fun _ => hle.trans (min_le_right _ _), hall⟩, ?_⟩
      rcases heq with heq | heq
      · rcases min_choice c (f v) with h | h
        · exact .inl (heq.trans h)
        · exact .inr ⟨v, List.mem_cons_self, hv, heq.trans h⟩
      · exact .inr (htail heq)

/-- Arcs without names. -/
def plainArcs (iDG : List (V × V × E)) : List (V × V) := iDG.map (fun ie => (ie.1, ie.2.1))

/-- The connectivity of a vertex is at most the number of arcs into any set with it. -/
lemma edgeConnectivity_le (hec : IsEdgeConnectivity edgeConnectivity) {v : V} {U : Finset V}
    (hv : v ∈ U) (hdst : dst ∉ U) :
    edgeConnectivity G.verts (plainArcs iDG) dst v ≤ inDegree iDG U := by
  have hne : dst ≠ v := fun h => hdst (h ▸ hv)
  obtain ⟨_, _, _, _, hle⟩ := hec G.verts (plainArcs iDG) dst v
    (fun a _ => ⟨G.mem_verts _, G.mem_verts _⟩) (G.mem_verts _) (G.mem_verts _) hne
  have hcut := hle (G.verts.filter (fun w => w ∉ U)) (by simp [G.mem_verts, hdst]) (by simp [hv])
  have hcap : cutCapacity (unitArcs (plainArcs iDG)) (G.verts.filter (fun w => w ∉ U)) =
      inDegree iDG U := by
    unfold cutCapacity unitArcs plainArcs inDegree
    rw [List.map_map, List.filter_map, List.map_map, List.countP_eq_length_filter]
    simp [Function.comp_def, G.mem_verts]
  rwa [hcap] at hcut

variable (hec : IsEdgeConnectivity edgeConnectivity)
  (hk : IsLeast {c | ∃ v, v ≠ dst ∧ edgeConnectivity G.verts (plainArcs iDG) dst v = c} k)

include hec hk

lemma rootConnected_of_isLeast : RootConnected dst k iDG := by
  rintro U ⟨v, hv⟩ hdst
  have hne : v ≠ dst := fun h => hdst (h ▸ hv)
  exact (hk.2 ⟨v, hne, rfl⟩).trans (edgeConnectivity_le hec hv hdst)

/-- `igraph_connectivity` is the least connectivity of another vertex. -/
lemma igraphConnectivity_eq : igraphConnectivity edgeConnectivity G iDG dst = k := by
  obtain ⟨hle, hall, heq⟩ := foldl_min_spec dst
    (fun v => edgeConnectivity G.verts (plainArcs iDG) dst v) G.verts iDG.length
  obtain ⟨v, hv, hvk⟩ := hk.1
  have hlen : k ≤ iDG.length := by
    have hdst : dst ∉ ({v} : Finset V) := by simpa using hv.symm
    have hle : edgeConnectivity G.verts (plainArcs iDG) dst v ≤ inDegree iDG {v} :=
      edgeConnectivity_le hec (Finset.mem_singleton_self v) hdst
    rw [hvk] at hle
    exact hle.trans inDegree_le_length
  apply le_antisymm
  · exact (hall v (G.mem_verts v) hv).trans hvk.le
  · rcases heq with heq | ⟨w, _, hw, heq⟩
    · exact hlen.trans heq.ge
    · exact (hk.2 ⟨w, hw, rfl⟩).trans heq.ge

end Connectivity

/-- For whatever maximum flow search and draws: all trees are built, with as many disjoint paths
left after every pass as trees remain, exactly if every arc that replaces another passes the
test that the other failed. -/
theorem adstForest_complete_iff [DecidableEq E]
    {edgeConnectivity : List V → List (V × V) → V → V → ℕ} (hmf : IsMaxflow maxflow)
    (hec : IsEdgeConnectivity edgeConnectivity) {k : ℕ}
    (hk : IsLeast
      {c | ∃ v, v ≠ dst ∧ edgeConnectivity G.verts (plainArcs (toDirected G)) dst v = c} k)
    (numTrees : ℕ) (rnd : Rnd) :
    ((∃ forest, adstForest maxflow edgeConnectivity G dst numTrees false rnd = some forest ∧
        forest.length = k) ∧
      ∀ j s, AdstRun maxflow G dst k (toDirected G) rnd (j + 1) s →
        ∀ v, DisjointPaths dst j s.iDG v) ↔
    ∀ j s, AdstRun maxflow G dst k (toDirected G) rnd (j + 1) s →
      EprimeSafe maxflow G dst (j + 1) s := by
  have : Fintype V := ⟨G.verts.toFinset, by simp [G.mem_verts]⟩
  have hconn := rootConnected_of_isLeast hec hk
  constructor
  · rintro ⟨_, hpaths⟩ j s h
    exact EprimeSafe.of_paths hmf hpaths h
  · intro hsafe
    refine ⟨?_, fun j s h => ((h.growing hmf hconn hsafe j rfl).connected).disjointPaths⟩
    obtain ⟨trees, hrun, hlen⟩ := adstTrees_length hmf numTrees [] hconn hsafe
    refine ⟨trees, ?_, hlen⟩
    rw [adstForest, igraphConnectivity_eq hec hk, hrun]
    simp

/-! ### Runs that replace an arc -/

lemma eprimeSafe_iff : EprimeSafe maxflow G dst k s ↔
    ∀ old ∈ choice (s.rnd 0) (frontier s), (arcFlow maxflow G dst s old).value < k →
      ∀ A ∈ sourceSide old.1.2.1 (arcFlow maxflow G dst s old).partition,
        ∀ ie ∈ choice (s.rnd 1) (eprimes G s A), k ≤ (arcFlow maxflow G dst s ie).value := by
  constructor
  · intro h old hold hlow A hA ie hie
    exact h ie ⟨old, A, hold, hlow, hA, hie⟩
  · rintro h ie ⟨old, A, hold, hlow, hA, hie⟩
    exact h old hold hlow A hA ie hie

instance : Decidable (EprimeSafe maxflow G dst k s) := decidable_of_iff' _ eprimeSafe_iff

variable (maxflow G dst) in
/-- Whether the run ends within `fuel` passes and every arc that replaces another is safe. -/
def safeRun : ℕ → ℕ → AdstState V E → Bool
  | 0, _, _ => false
  | fuel + 1, k, s => EprimeSafe maxflow G dst k s &&
    match adstStep maxflow G dst k s with
    | .next s' => safeRun fuel k s'
    | .done (some (some _)) => k ≤ 1 || safeRun fuel (k - 1) (adstStart dst s.iDG s.rnd)
    | .done _ => true

lemma AdstRun.exists_safeRun {fuel : ℕ} (h : AdstRun maxflow G dst k₀ iDG₀ rnd₀ k s)
    (hsafe : safeRun maxflow G dst fuel k₀ (adstStart dst iDG₀ rnd₀) = true) :
    k = 0 ∨ ∃ fuel, safeRun maxflow G dst fuel k s = true := by
  induction h with
  | start => exact .inr ⟨fuel, hsafe⟩
  | pass _ hstep ih =>
    obtain ⟨fuel, hs⟩ := ih.resolve_left (Nat.succ_ne_zero _)
    cases fuel with
    | zero => cases hs
    | succ fuel =>
      rw [safeRun, hstep, Bool.and_eq_true] at hs
      exact .inr ⟨fuel, hs.2⟩
  | tree _ hstep ih =>
    obtain ⟨fuel, hs⟩ := ih.resolve_left (Nat.succ_ne_zero _)
    cases fuel with
    | zero => cases hs
    | succ fuel =>
      rw [safeRun, hstep, Bool.and_eq_true, Bool.or_eq_true] at hs
      rcases hs.2 with hle | hs
      · have hle := of_decide_eq_true hle
        left
        omega
      · exact .inr ⟨fuel, hs⟩

lemma AdstRun.eprimeSafe {fuel j : ℕ} (h : AdstRun maxflow G dst k₀ iDG₀ rnd₀ (j + 1) s)
    (hsafe : safeRun maxflow G dst fuel k₀ (adstStart dst iDG₀ rnd₀) = true) :
    EprimeSafe maxflow G dst (j + 1) s := by
  obtain ⟨fuel, hs⟩ := (h.exists_safeRun hsafe).resolve_left (Nat.succ_ne_zero _)
  cases fuel with
  | zero => cases hs
  | succ fuel =>
    rw [safeRun, Bool.and_eq_true] at hs
    exact of_decide_eq_true hs.1

/-- Four switches; three links have to fail before a switch cannot reach `0`. -/
def gapGraph : PortGraph (Fin 4) (Fin 7) :=
  PortGraph.ofFinLinks ![1, 1, 2, 1, 3, 1, 0] Fin.val ![0, 3, 3, 2, 2, 0, 3] Fin.val
    (fun _ => 1) (by decide) (by decide)

/-- With the first arc drawn at every pass, arcs are replaced in two of the three trees, all of
them by safe ones. -/
theorem adstForest_complete_iff_gap :
    (∃ s ie, AdstRun bruteMaxflow gapGraph 0 3 (toDirected gapGraph) (fun _ => 0) 3 s ∧
      Replaces bruteMaxflow gapGraph 0 3 s ie) ∧
    (∃ forest, adstForest bruteMaxflow bruteEdgeConnectivity gapGraph 0 0 false (fun _ => 0) =
      some forest ∧ forest.length = 3) ∧
    ∀ j s, AdstRun bruteMaxflow gapGraph 0 3 (toDirected gapGraph) (fun _ => 0) (j + 1) s →
      ∀ v, DisjointPaths 0 j s.iDG v := by
  constructor
  · have hfound : (Loop.states (adstStep bruteMaxflow gapGraph 0 3) 4
        (adstStart 0 (toDirected gapGraph) (fun _ => 0))).any (fun s =>
          (choice (s.rnd 0) (frontier s)).any (fun old =>
            (arcFlow bruteMaxflow gapGraph 0 s old).value < 3 &&
            (sourceSide old.1.2.1 (arcFlow bruteMaxflow gapGraph 0 s old).partition).any
              (fun A => (choice (s.rnd 1) (eprimes gapGraph s A)).isSome))) = true := by
      decide +kernel
    obtain ⟨s, hs, hfound⟩ := List.any_eq_true.mp hfound
    obtain ⟨old, hold, hfound⟩ := (Option.any_eq_true _ _).mp hfound
    obtain ⟨hlow, hfound⟩ := Bool.and_eq_true_iff.mp hfound
    obtain ⟨A, hA, hfound⟩ := (Option.any_eq_true _ _).mp hfound
    obtain ⟨ie, hie⟩ := Option.isSome_iff_exists.mp hfound
    exact ⟨s, ie, AdstRun.start.reaches (Loop.reaches_of_mem_states hs), old, A, hold,
      of_decide_eq_true hlow, hA, hie⟩
  · have hleast : ∀ v : Fin 4, v ≠ 0 →
        3 ≤ bruteEdgeConnectivity gapGraph.verts (plainArcs (toDirected gapGraph)) 0 v := by
      decide +kernel
    have hsafe : safeRun bruteMaxflow gapGraph 0 20 3
        (adstStart 0 (toDirected gapGraph) (fun _ => 0)) = true := by decide +kernel
    refine (adstForest_complete_iff isMaxflow_brute isEdgeConnectivity_brute ⟨?_, ?_⟩ 0
      (fun _ => 0)).mpr fun j s h => h.eprimeSafe hsafe
    · exact ⟨1, by decide, by decide +kernel⟩
    · rintro c ⟨v, hv, rfl⟩
      exact hleast v hv

/-- The arcs that are drawn. -/
def gapDraws (n : ℕ) : ℕ := [1, 0, 1, 0, 2].getD n 0

/-- One of three trees is built. -/
theorem adstForest_not_complete :
    IsMaxflow (bruteMaxflow (V := Option (Fin 4))) ∧
    IsEdgeConnectivity (bruteEdgeConnectivity (V := Fin 4)) ∧
    igraphConnectivity bruteEdgeConnectivity gapGraph (toDirected gapGraph) 0 = 3 ∧
    ∃ forest, adstForest bruteMaxflow bruteEdgeConnectivity gapGraph 0 0 false gapDraws =
      some forest ∧ forest.length = 1 := by
  refine ⟨isMaxflow_brute, isEdgeConnectivity_brute, by decide +kernel, ?_⟩
  have hlen : (adstForest bruteMaxflow bruteEdgeConnectivity gapGraph 0 0 false gapDraws).map
      List.length = some 1 := by decide +kernel
  exact Option.map_eq_some_iff.mp hlen

end ResSim
