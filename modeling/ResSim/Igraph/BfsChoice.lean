import ResSim.Igraph.Bfs
import ResSim.Igraph.PathChoice
import ResSim.Lib.ShortestPath

/-!
# Every choice of parents is found in some run

The edges of a layer are shuffled before they are worked off. If those that lead from the
parents one wants come first, each vertex gets the parent that is wanted for it, so that every
way to choose parents one edge closer to the root is the result of some draws.
-/

namespace ResSim

namespace IgraphT

variable {g : IgraphT} {mode : NeiMode} {root v k : ℕ} {depth depth' : ℕ → Option ℕ}
  {now next : List Item} {s s' : LayerSearch} {q nq : Dqueue ℕ} {P : ℕ → ℕ}

/-- Parents that are one edge closer to the root. -/
def Closer (g : IgraphT) (mode : NeiMode) (root : ℕ) (P : ℕ → ℕ) : Prop :=
  ∀ v p, v ≠ root → Shortest (g.adj mode) root p v →
    ∃ e q, (e, v) ∈ g.adj mode (P v) ∧ Shortest (g.adj mode) root q (P v) ∧
      p.length = q.length + 1

/-- The vertices that are found have the parents that are wanted. -/
def Chosen (root : ℕ) (P : ℕ → ℕ) (depth : ℕ → Option ℕ) (s : LayerSearch) : Prop :=
  ∀ v d, v ≠ root → depth v = some d → s.parents v = P v

/-- The edges that wait, those from the wanted parents first. -/
def wantedFirst (P : ℕ → ℕ) (now : List Item) : List Item :=
  now.filter (fun a => a.2.1 = P a.1) ++ now.filter (fun a => !(a.2.1 = P a.1 : Bool))

lemma wantedFirst_perm (P : ℕ → ℕ) (now : List Item) : (wantedFirst P now).Perm now :=
  List.filter_append_perm ..

/-- The first edge that leads to a vertex comes from its wanted parent if any does. -/
lemma find?_wantedFirst {a : Item} {d : ℕ} (hmem : (v, P v, d) ∈ now)
    (ha : (wantedFirst P now).find? (fun a => a.1 = v) = some a) : a.2.1 = P v := by
  have hgood : (v, P v, d) ∈ now.filter (fun a => a.2.1 = P a.1) :=
    List.mem_filter.mpr ⟨hmem, by simp⟩
  cases hfind : (now.filter (fun a => a.2.1 = P a.1)).find? (fun a => a.1 = v) with
  | none =>
    have := List.find?_eq_none.mp hfind _ hgood
    simp at this
  | some b =>
    rw [wantedFirst, List.find?_append, hfind, Option.some_or, Option.some.injEq] at ha
    subst ha
    have hbv : b.1 = v := by simpa using List.find?_some hfind
    have hb := (List.mem_filter.mp (List.mem_of_find?_eq_some hfind)).2
    rw [decide_eq_true_eq, hbv] at hb
    exact hb

/-- When a layer is worked off, the edge from the wanted parent of a new vertex waits. -/
lemma LayerInv.wanted_mem (hg : g.Indexed) (h : LayerInv g mode root k depth now [] s)
    (hP : Closer g mode root P) {a : Item} (ha : a ∈ now) (hnone : depth a.1 = none) :
    ∃ d, (a.1, P a.1, d) ∈ now := by
  obtain ⟨_, hfrom, hnbr⟩ := h.now_ok a ha
  obtain ⟨e, he⟩ := hg.mem_nbrs.mp hnbr
  obtain ⟨w, hw, hwlen⟩ := h.searched.walk_concat hfrom he
  obtain ⟨p, hp⟩ := exists_shortest ⟨w, hw⟩
  have hroot : a.1 ≠ root := by
    intro heq
    rw [heq, h.searched.root_depth] at hnone
    cases hnone
  obtain ⟨e', q, he', hq, hlen⟩ := hP a.1 p hroot hp
  have hple := hp.2 w hw
  -- all vertices nearer than the next layer are found
  have hlate : ∀ u x du, (∃ d, (x, u, d) ∈ now ++ []) → depth u = some du → k + 1 ≤ du + 1 := by
    rintro u x du ⟨d, hmem⟩ hdu
    rw [List.append_nil] at hmem
    have hku := (h.now_ok _ hmem).2.1
    rw [hdu, Option.some.injEq] at hku
    omega
  rcases h.searched.le_length (k + 1) hlate hq.1 with ⟨dp, hdp, _⟩ | hle
  · rcases h.searched.closed (P a.1) dp hdp (e', a.1) he' with ⟨d, hd, _⟩ | ⟨d, hmem⟩
    · rw [hnone] at hd
      cases hd
    · exact ⟨d, by rwa [List.append_nil] at hmem⟩
  · omega

/-- With the wanted edges first, the new vertices get the wanted parents. -/
lemma Drained.chosen (hg : g.Indexed) (h : LayerInv g mode root k depth now [] s)
    (hP : Closer g mode root P) (hchosen : Chosen root P depth s)
    (hdrained : Drained depth depth' (wantedFirst P now) s s') : Chosen root P depth' s' := by
  intro v d hne hv
  cases hd : depth v with
  | some d₀ =>
    rw [(hdrained.keep v d₀ hd).2]
    exact hchosen v d₀ hne hd
  | none =>
    obtain ⟨a, ha, hp⟩ := hdrained.first v d hd hv
    have hav : a.1 = v := by simpa using List.find?_some ha
    have hmem : a ∈ now := (wantedFirst_perm P now).mem_iff.mp (List.mem_of_find?_eq_some ha)
    subst hav
    obtain ⟨d', hd'⟩ := h.wanted_mem hg hP hmem hd
    rw [hp, find?_wantedFirst hd' ha]

/-- Some draws give the wanted parents in all layers. -/
lemma exists_run_chosen (hg : g.Indexed) {inner fuel : ℕ} (hP : Closer g mode root P)
    (h : LayerInv g mode root k depth now [] s) (hchosen : Chosen root P depth s)
    (hq : q.toList = Dqueue.flat now) (hnq : nq.toList = [])
    (hinner : now.length + openDegree g mode depth < inner)
    (hfuel : now.length + openDegree g mode depth < fuel) :
    ∃ draws s' depth' k', LayerSearch.run g mode inner fuel draws s q nq = .ok s' ∧
      LayerInv g mode root k' depth' [] [] s' ∧ Chosen root P depth' s' := by
  induction fuel generalizing k depth now s q nq with
  | zero => omega
  | succ fuel ih =>
    by_cases hnow : now = []
    · subst hnow
      refine ⟨fun _ _ => 0, s, depth, k, ?_, h, hchosen⟩
      rw [LayerSearch.run, if_pos (Dqueue.empty_iff.mpr hq)]
    · have hpos := List.length_pos_of_ne_nil hnow
      obtain ⟨rnd, hrnd⟩ := exists_shuffleFront_eq (wantedFirst_perm P now)
      obtain ⟨s₁, depth₁, next, q₁, nq₁, he, hinv, hq₁, hnq₁, hle, hdrained⟩ :=
        h.layer hg fuel rnd hq hnq hnow (show now.length < inner by omega)
      rw [hrnd] at hdrained
      obtain ⟨draws, s', depth', k', he', hinv', hchosen'⟩ :=
        ih hinv (hdrained.chosen hg h hP hchosen) hq₁ hnq₁ (by omega) (by omega)
      exact ⟨prepend rnd draws, s', depth', k', (he _ rfl).trans he', hinv', hchosen'⟩

/-- Whichever parents one wants, as long as they are one edge closer to the root, the search
reports them in some run. -/
theorem exists_iBfs_parents (hg : g.Indexed) (hroot : root < g.n) (mode : NeiMode) {fuel : ℕ}
    (hfuel : 2 * g.ecount < fuel) (hP : Closer g mode root P) :
    ∃ draws s, g.iBfs fuel draws root mode = .ok s ∧
      ∀ v, v ≠ root → (∃ p, EdgeWalk (g.adj mode) root p v) → s.parents v = P v := by
  have hle := hg.waiting_le hroot (g.modeOf mode)
  have hP' : Closer g (g.modeOf mode) root P := by
    unfold Closer
    rwa [adj_modeOf]
  have hchosen : Chosen root P (rootDepth root) (.start root) :=
    fun v d hne hv => absurd (rootDepth_eq_some.mp hv).1 hne
  obtain ⟨q, hq, he⟩ := iBfs_eq hg hroot mode fuel
  obtain ⟨draws, s, depth, k, hrun, hinv, hall⟩ := exists_run_chosen hg hP'
    (layerInv_start hg hroot) hchosen hq (Dqueue.toList_init 100) (show _ < fuel by omega)
    (show _ < fuel by omega)
  refine ⟨draws, _, by rw [he, hrun]; rfl, fun v hne hv => ?_⟩
  rw [← adj_modeOf] at hv
  obtain ⟨d, hd⟩ := Option.ne_none_iff_exists'.mp (hinv.found_iff.mpr hv)
  exact hall v d hne hd

/-- A neighbour of the root is one edge away from it. -/
lemma shortest_one {p : List ℕ} {e : ℕ} (hne : v ≠ root) (he : (e, v) ∈ g.adj mode root)
    (hp : Shortest (g.adj mode) root p v) : p.length = 1 := by
  have hle := hp.2 [e] ⟨v, he, rfl⟩
  cases p with
  | nil => exact absurd hp.1.symm hne
  | cons e' p =>
    rw [List.length_cons, List.length_singleton] at *
    omega

lemma closer_ring : Closer ring .outgoing 0 (fun v => if v = 2 then 3 else 0) := by
  intro v p hne hp
  have hlt : v < 4 := by
    rcases List.eq_nil_or_concat p with rfl | ⟨p, e, rfl⟩
    · exact absurd hp.1.symm hne
    · rw [List.concat_eq_append] at hp
      obtain ⟨u, _, he⟩ := edgeWalk_concat.mp hp.1
      exact indexed_ring.snd_lt he
  have hnil : Shortest (ring.adj .outgoing) 0 [] 0 := ⟨rfl, fun _ _ => Nat.zero_le _⟩
  match v with
  | 0 => exact absurd rfl hne
  | 1 => exact ⟨0, [], by decide, hnil, shortest_one hne (show (0, 1) ∈ _ by decide) hp⟩
  | 2 => exact ⟨2, [3], by decide, shortest_ring.left (p := [3]) ⟨3, by decide, rfl⟩
      ⟨2, by decide, rfl⟩, hp.length_eq shortest_ring⟩
  | 3 => exact ⟨3, [], by decide, hnil, shortest_one hne (show (3, 3) ∈ _ by decide) hp⟩

/-- The opposite vertex of the ring gets the parent that comes later in its neighbours. -/
theorem exists_iBfs_parents_ring :
    ∃ draws s, ring.iBfs 9 draws 0 .outgoing = .ok s ∧
      ∀ v, v ≠ 0 → (∃ p, EdgeWalk (ring.adj .outgoing) 0 p v) →
        s.parents v = (if v = 2 then 3 else 0 : ℕ) :=
  exists_iBfs_parents indexed_ring (by decide) .outgoing (by decide) closer_ring

end IgraphT

end ResSim
