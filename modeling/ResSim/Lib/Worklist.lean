import Mathlib.Data.Multiset.MapFold
import Mathlib.Logic.Hydra
import ResSim.Lib.Loop

/-!
# Worklists

A loop over a stack of items: it takes the item on top, visits it, and puts the items that
the visit gives on the stack. When each of these is lighter than the item they come from the
loop ends, and then it has visited all that can be reached from the first item.
-/

namespace ResSim

namespace Worklist

variable {α σ : Type}

/-- The body of the loop. An error in a visit is the end of it. -/
def step (visit : α → σ → Option (List α × σ)) (w : List α × σ) :
    Step (List α × σ) (Option σ) :=
  match w.1 with
  | [] => .done (some w.2)
  | a :: stack =>
    match visit a w.2 with
    | none => .done none
    | some (new, s) => .next (new.reverse ++ stack, s)

variable {visit : α → σ → Option (List α × σ)} {Next : α → α → Prop} {Seen : α → σ → Prop}
  {a b : α} {stack new : List α} {s s' : σ}

lemma step_nil (visit : α → σ → Option (List α × σ)) (s : σ) :
    step visit ([], s) = .done (some s) := rfl

lemma step_cons (h : visit a s = some (new, s')) :
    step visit (a :: stack, s) = .next (new.reverse ++ stack, s') := by
  simp only [step, h]

/-- Every item that can be reached is on the stack or was visited, and what was visited is
still seen. -/
def Covered (Next : α → α → Prop) (Seen : α → σ → Prop) (a : α) (w : List α × σ) : Prop :=
  ∃ visited : Set α, (a ∈ visited ∨ a ∈ w.1) ∧
    ∀ b ∈ visited, Seen b w.2 ∧ ∀ c, Next b c → c ∈ visited ∨ c ∈ w.1

lemma Covered.of_visit (h : Covered Next Seen a (b :: stack, s)) (hb : Seen b s')
    (hkeep : ∀ c, Seen c s → Seen c s') (hnext : ∀ c, Next b c → c ∈ new) :
    Covered Next Seen a (new.reverse ++ stack, s') := by
  obtain ⟨visited, ha, hvisited⟩ := h
  have hmove : ∀ c, c ∈ visited ∨ c ∈ b :: stack →
      c ∈ insert b visited ∨ c ∈ new.reverse ++ stack := by
    rintro c (hc | hc)
    · exact .inl (.inr hc)
    · rcases List.mem_cons.mp hc with rfl | hc
      · exact .inl (.inl rfl)
      · exact .inr (List.mem_append_right _ hc)
  refine ⟨insert b visited, hmove a ha, ?_⟩
  rintro c (rfl | hc)
  · exact ⟨hb, fun d hd => .inr (List.mem_append_left _ (List.mem_reverse.mpr (hnext d hd)))⟩
  · obtain ⟨hseen, hc⟩ := hvisited c hc
    exact ⟨hkeep c hseen, fun d hd => hmove d (hc d hd)⟩

lemma Covered.seen (h : Covered Next Seen a ([], s)) (hb : Relation.ReflTransGen Next a b) :
    Seen b s := by
  obtain ⟨visited, ha, hvisited⟩ := h
  have hmem : b ∈ visited := by
    induction hb with
    | refl => exact ha.resolve_right List.not_mem_nil
    | tail _ hcd ih => exact ((hvisited _ ih).2 _ hcd).resolve_right List.not_mem_nil
  exact (hvisited b hmem).1

lemma cutExpand_visit {weight : α → ℕ} (h : ∀ c ∈ new, weight c < weight b) :
    Relation.CutExpand (· < ·) (((new.reverse ++ stack).map weight : List ℕ) : Multiset ℕ)
      (((b :: stack).map weight : List ℕ) : Multiset ℕ) := by
  refine ⟨((new.map weight : List ℕ) : Multiset ℕ), weight b, fun n hn => ?_, ?_⟩
  · obtain ⟨c, hc, rfl⟩ := List.mem_map.mp (Multiset.mem_coe.mp hn)
    exact h c hc
  · rw [← Multiset.coe_singleton, Multiset.coe_add, Multiset.coe_add, Multiset.coe_eq_coe,
      List.map_append, List.map_reverse, List.map_cons]
    have hfront : ((new.map weight).reverse ++ stack.map weight).Perm
        (stack.map weight ++ new.map weight) :=
      ((List.reverse_perm _).append_right _).trans List.perm_append_comm
    exact (List.perm_append_singleton ..).trans (hfront.cons _)

/-- Total correctness of a worklist: when every visit of a good item succeeds, gives the good
and lighter items next to it, and makes it seen for good, the loop ends and has seen all that
can be reached. -/
theorem returns (weight : α → ℕ) (Good : α → Prop)
    (hvisit : ∀ a s, Good a → ∃ new s', visit a s = some (new, s') ∧ Seen a s' ∧
      (∀ b, Seen b s → Seen b s') ∧ ∀ b, b ∈ new ↔ Next a b)
    (hnext : ∀ a b, Good a → Next a b → Good b ∧ weight b < weight a) (ha : Good a) (s : σ) :
    ∃ s', Loop.Returns (step visit) ([a], s) (some s') ∧
      ∀ b, Relation.ReflTransGen Next a b → Seen b s' := by
  let stackWeight : List α × σ → Multiset ℕ := fun w => (w.1.map weight : List ℕ)
  let Inv : List α × σ → Prop := fun w => (∀ b ∈ w.1, Good b) ∧ Covered Next Seen a w
  let Post : Option σ → Prop := fun r =>
    ∃ s', r = some s' ∧ ∀ b, Relation.ReflTransGen Next a b → Seen b s'
  have hbody : ∀ w, Inv w → (∃ r, step visit w = .done r ∧ Post r) ∨
      ∃ w', step visit w = .next w' ∧ Inv w' ∧
        Relation.CutExpand (· < ·) (stackWeight w') (stackWeight w) := by
    rintro ⟨stack, s⟩ ⟨hgood, hcov⟩
    cases stack with
    | nil => exact .inl ⟨some s, step_nil visit s, s, rfl, fun b hb => hcov.seen hb⟩
    | cons b stack =>
      obtain ⟨hb, hstack⟩ := List.forall_mem_cons.mp hgood
      obtain ⟨new, s', hrun, hseen, hkeep, hnew⟩ := hvisit b s hb
      have hpushed : ∀ c ∈ new, Good c ∧ weight c < weight b := fun c hc =>
        hnext b c hb ((hnew c).mp hc)
      refine .inr ⟨_, step_cons hrun, ⟨fun c hc => ?_,
        hcov.of_visit hseen hkeep (fun c => (hnew c).mpr)⟩,
        cutExpand_visit (fun c hc => (hpushed c hc).2)⟩
      rcases List.mem_append.mp hc with hc | hc
      · exact (hpushed c (List.mem_reverse.mp hc)).1
      · exact hstack c hc
  have hstart : Inv ([a], s) := ⟨fun b hb => List.mem_singleton.mp hb ▸ ha, ∅,
    .inr (List.mem_singleton.mpr rfl), fun b hb => absurd hb (Set.notMem_empty b)⟩
  obtain ⟨r, hr, s', rfl, hseen⟩ := Loop.returns_of_wellFounded
    (InvImage.wf stackWeight Nat.lt_wfRel.wf.cutExpand) Inv Post hbody hstart
  exact ⟨s', hr, hseen⟩

end Worklist

end ResSim
