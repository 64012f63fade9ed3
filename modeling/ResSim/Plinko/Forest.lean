import Mathlib.Data.Finset.Card
import Mathlib.Data.Set.Defs
import ResSim.Plinko.Path

/-!
# Forests of backup paths

What the rounds install is a forest: the first paths are its roots, and a backup path is a
child of the path that lost a link. Where a packet is and the way it came determine the paths
it can be on: any two of them, at one switch and for one way back, are the same or one of
them backs the other up there.
-/

namespace ResSim

variable {V E : Type} [DecidableEq V] {G : PortGraph V E}

/-- A hop of a path. -/
structure Place (G : PortGraph V E) where
  branch : Path G
  pre : List ℕ
  hop : ℕ
  post : List ℕ

/-- The hop is one of a path in `S`, made from switch `u` over link `e` by packets with the
way back `rp`. -/
structure Place.At (S : Set (Path G)) (x : Place G) (u : V) (rp : List ℕ) (e : E) : Prop where
  mem : x.branch ∈ S
  split : x.branch.fullPath = x.pre ++ x.hop :: x.post
  back : ∃ r, reversePath G x.branch.v x.pre = some (u, r) ∧ rp = r ++ x.branch.extraRPath
  edge : G.edges u x.hop = some e

variable [DecidableEq E] {S : Set (Path G)} {u w : V} {rp : List ℕ} {e e' f f' : E}
  {x y z : Place G}

/-- A forest of backup paths. -/
structure BackupForest (S : Set (Path G)) : Prop where
  root : ∀ B ∈ S, B.failedE = ∅ → B.extraRPath = []
  parent : ∀ B ∈ S, B.failedE ≠ ∅ → ∃ z f, Place.At S z B.v B.extraRPath f ∧
    B.failedE = insert f z.branch.failedE
  unique : ∀ B ∈ S, ∀ C ∈ S, B.v = C.v → B.extraRPath = C.extraRPath →
    B.failedE = C.failedE → B = C

/-- At `u`, where the hop `x` goes over `e`, the path of `y` is used when `e` is down: it
knows what the path of `x` knows, `e`, and other links of `u`. -/
structure Backs (u : V) (x : Place G) (e : E) (y : Place G) : Prop where
  pre_eq : y.pre = []
  mem : e ∈ y.branch.failedE
  subset : x.branch.failedE ⊆ y.branch.failedE
  here : ∀ f ∈ y.branch.failedE, f ∈ x.branch.failedE ∨ ∃ port, G.edges u port = some f

/-- Two hops at `u` are the same, or one is backed up by the other. -/
def Comparable (u : V) (x : Place G) (e : E) (y : Place G) (e' : E) : Prop :=
  x = y ∨ Backs u x e y ∨ Backs u y e' x

omit [DecidableEq E] in
lemma Comparable.symm (h : Comparable u x e y e') : Comparable u y e' x e :=
  h.imp Eq.symm Or.symm

omit [DecidableEq E] in
lemma Place.ext_of (h : x.branch = y.branch) (hpre : x.pre = y.pre)
    (hpost : x.hop :: x.post = y.hop :: y.post) : x = y := by
  obtain ⟨hhop, hpost⟩ := List.cons.inj hpost
  cases x
  cases y
  simp_all

namespace Place.At

omit [DecidableEq E]

lemma split_edges (h : x.At S u rp e) :
    ∃ l₁ l₂, x.branch.edges = l₁ ++ e :: l₂ ∧ l₁.length = x.pre.length := by
  obtain ⟨r, hr, _⟩ := h.back
  have ha := x.branch.arcSet_eq
  rw [h.split, arcSet_append hr] at ha
  obtain ⟨arcs₁, arcs₂, h₁, h₂, heq⟩ := ha
  obtain ⟨e', w, q, arcs', hhop, _, rfl⟩ := arcSet_cons.mp h₂
  have he : e' = e := Option.some.inj ((PortGraph.edges_of_hop hhop).symm.trans h.edge)
  refine ⟨arcs₁.map Prod.snd, arcs'.map Prod.snd, ?_, ?_⟩
  · rw [Path.edges, heq, List.map_append, List.map_cons, he]
  · rw [List.length_map, arcSet_length h₁]

lemma mem_edges (h : x.At S u rp e) : e ∈ x.branch.edges := by
  obtain ⟨l₁, l₂, heq, _⟩ := h.split_edges
  rw [heq]
  exact List.mem_append_right _ (List.mem_cons_self ..)

lemma not_mem_failedE (h : x.At S u rp e) : e ∉ x.branch.failedE :=
  x.branch.not_mem_failedE h.mem_edges

lemma start (h : x.At S u rp e) (hpre : x.pre = []) :
    x.branch.v = u ∧ x.branch.extraRPath = rp := by
  obtain ⟨r, hr, rfl⟩ := h.back
  rw [hpre, reversePath_nil, Option.some.injEq, Prod.mk.injEq] at hr
  obtain ⟨rfl, rfl⟩ := hr
  exact ⟨rfl, rfl⟩

lemma prev (h : x.At S u rp e) (hpre : x.pre ≠ []) : ∃ pre p w q rp' f,
    x.pre = pre ++ [p] ∧ rp = q :: rp' ∧ G.hop w p = some (f, u, q) ∧
      Place.At S ⟨x.branch, pre, p, x.hop :: x.post⟩ w rp' f := by
  obtain ⟨r, hr, rfl⟩ := h.back
  rcases List.eq_nil_or_concat x.pre with hnil | ⟨pre, p, hp⟩
  · exact absurd hnil hpre
  rw [List.concat_eq_append] at hp
  rw [hp, reversePath_concat] at hr
  obtain ⟨w, r', f, q, hr, hhop, rfl⟩ := hr
  refine ⟨pre, p, w, q, r' ++ x.branch.extraRPath, f, hp, rfl, hhop, h.mem, ?_, ⟨r', hr, rfl⟩,
    PortGraph.edges_of_hop hhop⟩
  rw [h.split, hp, List.append_assoc, List.singleton_append]

lemma pre_eq_nil (h : x.At S u [] e) : x.pre = [] := by
  by_contra hpre
  obtain ⟨pre, p, w, q, rp', f, _, hnil, _⟩ := h.prev hpre
  cases hnil

lemma eq_of_prev (hx : x.At S u rp e) (hy : y.At S u rp e') (hxp : x.pre ≠ [])
    (hyp : y.pre ≠ [])
    (ih : ∀ (w : V) (rp' : List ℕ) (x y : Place G) (f f' : E), rp'.length < rp.length →
      x.At S w rp' f → y.At S w rp' f' → Comparable w x f y f') : x = y := by
  obtain ⟨pre, p, w, q, rp', f, hpre, rfl, hhop, hprev⟩ := hx.prev hxp
  obtain ⟨pre', p', w', q', rp₁, f', hpre', hrp, hhop', hprev'⟩ := hy.prev hyp
  obtain ⟨rfl, rfl⟩ := List.cons.inj hrp
  -- the port that the packet came in by gives the link and the hop
  obtain ⟨rfl, rfl, rfl⟩ :=
    PortGraph.hop_det (PortGraph.hop_symm hhop) (PortGraph.hop_symm hhop')
  rcases ih w rp' _ _ f f (Nat.lt_succ_self _) hprev hprev' with heq | hb | hb
  · simp only [Place.mk.injEq] at heq
    obtain ⟨hb, hp, _, hpost⟩ := heq
    exact Place.ext_of hb (by rw [hpre, hpre', hp]) hpost
  · exact absurd hb.mem hprev'.not_mem_failedE
  · exact absurd hb.mem hprev.not_mem_failedE

end Place.At

/-- The parent of a path, as a hop at the switch where the path starts. -/
lemma BackupForest.exists_parent (hS : BackupForest S) (hy : y.At S u rp e')
    (hpre : y.pre = []) (hne : y.branch.failedE ≠ ∅) :
    ∃ (z : Place G) (f : E), z.At S u rp f ∧ y.branch.failedE = insert f z.branch.failedE ∧
      z.branch.failedE.card < y.branch.failedE.card := by
  obtain ⟨z, f, hz, heq⟩ := hS.parent y.branch hy.mem hne
  obtain ⟨hv, hrp⟩ := hy.start hpre
  rw [hv, hrp] at hz
  refine ⟨z, f, hz, heq, ?_⟩
  rw [heq, Finset.card_insert_of_notMem hz.not_mem_failedE]
  exact Nat.lt_succ_self _

/-- Who is backed up by the parent, or is the parent, is backed up by the child. -/
lemma Backs.of_parent (hx : x.At S u rp e) (hz : z.At S u rp f) (hpre : y.pre = [])
    (heq : y.branch.failedE = insert f z.branch.failedE) (h : x = z ∨ Backs u x e z) :
    Backs u x e y := by
  have hsub : z.branch.failedE ⊆ y.branch.failedE := heq ▸ Finset.subset_insert ..
  rcases h with rfl | h
  · obtain rfl : e = f := Option.some.inj (hx.edge.symm.trans hz.edge)
    refine ⟨hpre, heq ▸ Finset.mem_insert_self .., hsub, fun g hg => ?_⟩
    rw [heq] at hg
    rcases Finset.mem_insert.mp hg with rfl | hg
    · exact .inr ⟨_, hz.edge⟩
    · exact .inl hg
  · refine ⟨hpre, hsub h.mem, h.subset.trans hsub, fun g hg => ?_⟩
    rw [heq] at hg
    rcases Finset.mem_insert.mp hg with rfl | hg
    · exact .inr ⟨_, hz.edge⟩
    · exact h.here g hg

lemma BackupForest.eq_of_start (hS : BackupForest S) (hx : x.At S u rp e)
    (hy : y.At S u rp e') (hxp : x.pre = []) (hyp : y.pre = [])
    (heq : x.branch.failedE = y.branch.failedE) : x = y := by
  obtain ⟨hxv, hxr⟩ := hx.start hxp
  obtain ⟨hyv, hyr⟩ := hy.start hyp
  have hb := hS.unique _ hx.mem _ hy.mem (hxv.trans hyv.symm) (hxr.trans hyr.symm) heq
  have hxs := hx.split
  rw [hb, hy.split, hxp, hyp] at hxs
  exact Place.ext_of hb (hxp.trans hyp.symm) hxs.symm

/-- A backup path compares with every hop that its parent compares with. -/
lemma BackupForest.comparable_of_child (hS : BackupForest S) (hx : x.At S u rp e)
    (hy : y.At S u rp e') (hyp : y.pre = []) (hne : y.branch.failedE ≠ ∅)
    (ih : ∀ (x' y' : Place G) (f f' : E),
      x'.branch.failedE.card + y'.branch.failedE.card <
        x.branch.failedE.card + y.branch.failedE.card →
      x'.At S u rp f → y'.At S u rp f' → Comparable u x' f y' f') :
    Comparable u x e y e' := by
  obtain ⟨z, f, hz, heq, hlt⟩ := hS.exists_parent hy hyp hne
  rcases ih x z e f (by omega) hx hz with h | h | h
  · exact .inr (.inl (.of_parent hx hz hyp heq (.inl h)))
  · exact .inr (.inl (.of_parent hx hz hyp heq (.inr h)))
  · -- the path of `x` knows at least as much as that of `y`; compare `y` with its parent
    obtain ⟨z', f', hz', heq', hlt'⟩ :=
      hS.exists_parent hx h.pre_eq (Finset.ne_empty_of_mem h.mem)
    rcases ih z' y f' e' (by omega) hz' hy with h' | h' | h'
    · exact .inr (.inr (.of_parent hy hz' h.pre_eq heq' (.inl h'.symm)))
    · refine .inl (hS.eq_of_start hx hy h.pre_eq hyp (Finset.Subset.antisymm ?_ ?_))
      · rw [heq']
        exact Finset.insert_subset h'.mem h'.subset
      · rw [heq]
        exact Finset.insert_subset h.mem h.subset
    · exact .inr (.inr (.of_parent hy hz' h.pre_eq heq' (.inr h')))

lemma BackupForest.comparable_of_start (hS : BackupForest S) (hx : x.At S u rp e)
    (hy : y.At S u rp e') (hyp : y.pre = [])
    (ih : ∀ (x' y' : Place G) (f f' : E),
      x'.branch.failedE.card + y'.branch.failedE.card <
        x.branch.failedE.card + y.branch.failedE.card →
      x'.At S u rp f → y'.At S u rp f' → Comparable u x' f y' f') :
    Comparable u x e y e' := by
  by_cases hy₀ : y.branch.failedE = ∅
  · obtain ⟨_, hrp⟩ := hy.start hyp
    rw [hS.root _ hy.mem hy₀] at hrp
    subst hrp
    by_cases hx₀ : x.branch.failedE = ∅
    · exact .inl (hS.eq_of_start hx hy hx.pre_eq_nil hyp (hx₀.trans hy₀.symm))
    · refine (hS.comparable_of_child hy hx hx.pre_eq_nil hx₀ ?_).symm
      exact fun x' y' f f' hlt => ih x' y' f f' (by omega)
  · exact hS.comparable_of_child hx hy hyp hy₀ ih

/-- The hops made from one switch by packets that came the same way form a chain. -/
theorem BackupForest.comparable (hS : BackupForest S) (hx : x.At S u rp e)
    (hy : y.At S u rp e') : Comparable u x e y e' := by
  induction hn : rp.length using Nat.strong_induction_on generalizing u rp x y e e' with
  | _ n ihn =>
    induction hm : x.branch.failedE.card + y.branch.failedE.card using Nat.strong_induction_on
      generalizing x y e e' with
    | _ m ihm =>
      by_cases hyp : y.pre = []
      · refine hS.comparable_of_start hx hy hyp (fun x' y' f f' hlt hx' hy' => ?_)
        exact ihm _ (hm ▸ hlt) hx' hy' rfl
      · by_cases hxp : x.pre = []
        · refine (hS.comparable_of_start hy hx hxp (fun x' y' f f' hlt hx' hy' => ?_)).symm
          exact ihm _ (by omega) hx' hy' rfl
        · refine .inl (hx.eq_of_prev hy hxp hyp (fun w rp' x' y' f f' hlt hx' hy' => ?_))
          exact ihn _ (hn ▸ hlt) hx' hy' rfl

end ResSim
