import Mathlib.Data.List.Chain
import Mathlib.Tactic.Tauto
import ResSim.Lib.Digraph
import ResSim.Lib.Loop
import ResSim.Lib.Random

/-!
# Depth-first cycle breaking

A depth-first search that edits the graph it walks: whenever a successor lies on the current
path, the cycle so closed is handed to `breakCycle`, which may delete edges. Entries already
on the stack are kept, so they may describe paths that no longer exist. `CycleBreaker.pass`
is one search from every vertex. For a lawful breaker a pass ends, keeps what every single
edit keeps, and shrinks every graph that has a cycle.
-/

namespace ResSim

open Relation

/-- What the search needs of the graph it walks: the successors of a vertex, and an edit
that may break a closed path and reports what it removed. -/
structure CycleBreaker (γ α β : Type) where
  succ : γ → α → List α
  breakCycle : γ → List α → Rnd → γ × List β × Rnd

/-- State of the search; a stack entry is a vertex and the path that led to it. -/
structure Search (γ α β : Type) where
  graph : γ
  stack : List (α × List α)
  visited : List α
  removed : List β
  rnd : Rnd

namespace CycleBreaker

variable {γ α β : Type}

section Definitions

variable [DecidableEq α]

/-- Breaks the cycle that `iw` closes with the current path, if any. -/
def closeCycle (K : CycleBreaker γ α β) (pv : List α) (s : Search γ α β) (iw : α) :
    Search γ α β :=
  if iw ∈ pv then
    let out := K.breakCycle s.graph (pv.drop (pv.idxOf iw) ++ [iw]) s.rnd
    { s with graph := out.1, removed := s.removed ++ out.2.1, rnd := out.2.2 }
  else s

/-- Treats one successor `iw` of the vertex at the end of the current path. -/
def trySucc (K : CycleBreaker γ α β) (pv : List α) (s : Search γ α β) (iw : α) :
    Search γ α β :=
  let t := K.closeCycle pv s iw
  if iw ∈ t.visited then t else { t with stack := (iw, pv ++ [iw]) :: t.stack }

/-- The body of the search loop. -/
def visit (K : CycleBreaker γ α β) (s : Search γ α β) :
    Step (Search γ α β) (γ × List β × Rnd) :=
  match s.stack with
  | [] => .done (s.graph, s.removed, s.rnd)
  | (iv, pv) :: stack =>
    if iv ∈ s.visited then .next { s with stack := stack }
    else
      .next ((shuffle (s.rnd 0) (K.succ s.graph iv)).foldl (K.trySucc pv)
        { s with stack := stack, visited := iv :: s.visited, rnd := s.rnd.next })

end Definitions

/-- The state before the first pop: every vertex is on the stack, in random order. -/
def start (verts : List α) (g : γ) (rnd : Rnd) : Search γ α β where
  graph := g
  stack := ((shuffle (rnd 0) verts).map (fun v => (v, [v]))).reverse
  visited := []
  removed := []
  rnd := rnd.next

/-- One search over the whole graph. -/
def pass [DecidableEq α] (K : CycleBreaker γ α β) (fuel : ℕ) (verts : List α) (g : γ) (rnd : Rnd) :
    Option (γ × List β × Rnd) :=
  Loop.run K.visit fuel (start verts g rnd)

/-- Consecutive vertices of `c` are joined by edges of `g`. -/
def IsPath (K : CycleBreaker γ α β) (g : γ) (c : List α) : Prop :=
  c.IsChain (fun a b => b ∈ K.succ g a)

/-- A list of vertices that ends where it begins. -/
def IsClosed (c : List α) : Prop := ∃ x l, c = x :: (l ++ [x])

/-- The laws of an edit on the good graphs over `verts`: it leaves the graph as it is or
makes it smaller, and always makes it smaller when the path it is given exists. -/
structure Lawful (K : CycleBreaker γ α β) (verts : List α) (size : γ → ℕ) (good : γ → Prop) :
    Prop where
  succ_mem : ∀ g v w, good g → w ∈ K.succ g v → w ∈ verts
  succ_length : ∀ g v, good g → (K.succ g v).length ≤ size g
  break_good : ∀ g c rnd, good g → good (K.breakCycle g c rnd).1
  break_eq_or_lt : ∀ g c rnd, good g →
    (K.breakCycle g c rnd).1 = g ∨ size (K.breakCycle g c rnd).1 < size g
  break_lt : ∀ g c rnd, good g → K.IsPath g c → 2 ≤ c.length →
    size (K.breakCycle g c rnd).1 < size g

section Successors

variable [DecidableEq α] {K : CycleBreaker γ α β} {verts : List α} {size : γ → ℕ} {good : γ → Prop}

/-- The part of a path from a vertex on, followed by that vertex, is closed. -/
lemma isClosed_drop {pv : List α} {iw : α} (h : iw ∈ pv) :
    IsClosed (pv.drop (pv.idxOf iw) ++ [iw]) := by
  have hlt := List.idxOf_lt_length_of_mem h
  refine ⟨iw, pv.drop (pv.idxOf iw + 1), ?_⟩
  rw [List.drop_eq_getElem_cons hlt, List.getElem_idxOf hlt, List.cons_append]

@[simp] lemma closeCycle_stack (pv : List α) (s : Search γ α β) (iw : α) :
    (K.closeCycle pv s iw).stack = s.stack := by
  unfold closeCycle
  split <;> rfl

@[simp] lemma closeCycle_visited (pv : List α) (s : Search γ α β) (iw : α) :
    (K.closeCycle pv s iw).visited = s.visited := by
  unfold closeCycle
  split <;> rfl

@[simp] lemma trySucc_visited (pv : List α) (s : Search γ α β) (iw : α) :
    (K.trySucc pv s iw).visited = s.visited := by
  unfold trySucc
  dsimp only
  split <;> simp

@[simp] lemma trySucc_graph (pv : List α) (s : Search γ α β) (iw : α) :
    (K.trySucc pv s iw).graph = (K.closeCycle pv s iw).graph := by
  unfold trySucc
  dsimp only
  split <;> rfl

@[simp] lemma trySucc_removed (pv : List α) (s : Search γ α β) (iw : α) :
    (K.trySucc pv s iw).removed = (K.closeCycle pv s iw).removed := by
  unfold trySucc
  dsimp only
  split <;> rfl

lemma trySucc_stack (pv : List α) (s : Search γ α β) (iw : α) :
    (K.trySucc pv s iw).stack =
      if iw ∈ s.visited then s.stack else (iw, pv ++ [iw]) :: s.stack := by
  unfold trySucc
  simp only [closeCycle_visited]
  split <;> simp

@[simp] lemma foldl_trySucc_visited (pv : List α) (l : List α) (s : Search γ α β) :
    (l.foldl (K.trySucc pv) s).visited = s.visited := by
  induction l generalizing s with
  | nil => rfl
  | cons iw l ih => rw [List.foldl_cons, ih, trySucc_visited]

/-- Treating a list of successors pushes entries for those not visited, and nothing else. -/
lemma foldl_trySucc_stack (pv : List α) (l : List α) (s : Search γ α β) :
    ∃ pushed, (l.foldl (K.trySucc pv) s).stack = pushed ++ s.stack ∧
      pushed.length ≤ l.length ∧ (∀ x ∈ pushed, x.1 ∈ l ∧ x.2 = pv ++ [x.1]) ∧
      ∀ w ∈ l, w ∉ s.visited → (w, pv ++ [w]) ∈ pushed := by
  induction l generalizing s with
  | nil => exact ⟨[], rfl, le_rfl, by simp, by simp⟩
  | cons iw l ih =>
    obtain ⟨pushed, hst, hlen, hmem, hall⟩ := ih (K.trySucc pv s iw)
    rw [trySucc_stack] at hst
    rw [trySucc_visited] at hall
    by_cases hv : iw ∈ s.visited
    · rw [if_pos hv] at hst
      refine ⟨pushed, hst, by simp only [List.length_cons]; omega, ?_, ?_⟩
      · exact fun x hx => ⟨List.mem_cons_of_mem _ (hmem x hx).1, (hmem x hx).2⟩
      · intro w hw hnv
        rcases List.mem_cons.mp hw with rfl | hw
        · exact absurd hv hnv
        · exact hall w hw hnv
    · rw [if_neg hv] at hst
      refine ⟨pushed ++ [(iw, pv ++ [iw])], ?_, ?_, ?_, ?_⟩
      · rw [List.foldl_cons, hst, List.append_assoc, List.singleton_append]
      · simp only [List.length_append, List.length_cons, List.length_nil]
        omega
      · intro x hx
        rcases List.mem_append.mp hx with hx | hx
        · exact ⟨List.mem_cons_of_mem _ (hmem x hx).1, (hmem x hx).2⟩
        · rw [List.mem_singleton.mp hx]
          exact ⟨List.mem_cons_self .., rfl⟩
      · intro w hw hnv
        rcases List.mem_cons.mp hw with rfl | hw
        · exact List.mem_append_right _ (List.mem_singleton.mpr rfl)
        · exact List.mem_append_left _ (hall w hw hnv)

/-- What every single edit keeps is kept by the treatment of a list of successors. -/
lemma foldl_trySucc_invariant (P : γ → List β → Prop)
    (hP : ∀ g rem c rnd, IsClosed c → P g rem →
      P (K.breakCycle g c rnd).1 (rem ++ (K.breakCycle g c rnd).2.1))
    (pv : List α) (l : List α) (s : Search γ α β) (hs : P s.graph s.removed) :
    P (l.foldl (K.trySucc pv) s).graph (l.foldl (K.trySucc pv) s).removed := by
  induction l generalizing s with
  | nil => exact hs
  | cons iw l ih =>
    rw [List.foldl_cons]
    apply ih
    rw [trySucc_graph, trySucc_removed]
    unfold closeCycle
    split
    · rename_i hiw
      exact hP _ _ _ _ (isClosed_drop hiw) hs
    · exact hs

lemma Lawful.closeCycle_eq_or_lt (hK : K.Lawful verts size good) (pv : List α)
    (s : Search γ α β) (iw : α) (hg : good s.graph) :
    good (K.closeCycle pv s iw).graph ∧ ((K.closeCycle pv s iw).graph = s.graph ∨
      size (K.closeCycle pv s iw).graph < size s.graph) := by
  unfold closeCycle
  split
  · exact ⟨hK.break_good _ _ _ hg, hK.break_eq_or_lt _ _ _ hg⟩
  · exact ⟨hg, .inl rfl⟩

lemma Lawful.foldl_eq_or_lt (hK : K.Lawful verts size good) (pv : List α) (l : List α)
    (s : Search γ α β) (hg : good s.graph) :
    good (l.foldl (K.trySucc pv) s).graph ∧ ((l.foldl (K.trySucc pv) s).graph = s.graph ∨
      size (l.foldl (K.trySucc pv) s).graph < size s.graph) := by
  induction l generalizing s with
  | nil => exact ⟨hg, .inl rfl⟩
  | cons iw l ih =>
    obtain ⟨hg', he⟩ := hK.closeCycle_eq_or_lt pv s iw hg
    rw [← trySucc_graph] at hg' he
    obtain ⟨hg'', he'⟩ := ih _ hg'
    refine ⟨hg'', ?_⟩
    rcases he' with he' | hlt'
    · rcases he with he | hlt
      · exact .inl (he'.trans he)
      · exact .inr (he' ▸ hlt)
    · rcases he with he | hlt
      · exact .inr (he ▸ hlt')
      · exact .inr (hlt'.trans hlt)

/-- A successor on the current path closes a cycle, and breaking it makes the graph smaller. -/
lemma Lawful.foldl_lt (hK : K.Lawful verts size good) {pv l : List α} {s : Search γ α β}
    (hg : good s.graph) (hpath : K.IsPath s.graph pv) {iv : α} (hlast : pv.getLast? = some iv)
    (hl : ∀ w ∈ l, w ∈ K.succ s.graph iv) {iw : α} (hiw : iw ∈ l) (hpv : iw ∈ pv) :
    size (l.foldl (K.trySucc pv) s).graph < size s.graph := by
  induction l generalizing s with
  | nil => cases hiw
  | cons w l ih =>
    rw [List.foldl_cons]
    obtain ⟨hg', he⟩ := hK.closeCycle_eq_or_lt pv s w hg
    rw [← trySucc_graph] at hg' he
    have hrest := hK.foldl_eq_or_lt pv l _ hg'
    by_cases heq : (K.trySucc pv s w).graph = s.graph
    · have hw : w ∉ pv := by
        intro hw
        have hlt : size (K.trySucc pv s w).graph < size s.graph := by
          rw [trySucc_graph, closeCycle, if_pos hw]
          apply hK.break_lt _ _ _ hg
          · apply List.IsChain.append (hpath.drop _) (List.IsChain.singleton _)
            intro x hx y hy
            rw [List.head?_cons, Option.mem_def, Option.some.injEq] at hy
            have hxiv : x = iv := by
              rw [List.getLast?_drop] at hx
              split at hx
              · cases hx
              · rw [hlast] at hx
                exact (Option.some.inj hx).symm
            rw [hxiv, ← hy]
            exact hl w (List.mem_cons_self ..)
          · have := List.idxOf_lt_length_of_mem hw
            simp only [List.length_append, List.length_drop, List.length_singleton]
            omega
        rw [heq] at hlt
        exact lt_irrefl _ hlt
      have hiw' : iw ∈ l := by
        rcases List.mem_cons.mp hiw with rfl | h
        · exact absurd hpv hw
        · exact h
      rw [← heq]
      apply ih hg' (by rw [heq]; exact hpath) (fun x hx => ?_) hiw'
      rw [heq]
      exact hl x (List.mem_cons_of_mem _ hx)
    · have hlt := he.resolve_left heq
      rcases hrest.2 with h | h
      · rw [h]
        exact hlt
      · exact h.trans hlt

end Successors

/-! ### A pass ends -/

section Termination

variable [DecidableEq α] {K : CycleBreaker γ α β} {verts : List α} {size : γ → ℕ} {good : γ → Prop}

/-- The vertices still to be visited. -/
def fresh (verts visited : List α) : List α := verts.filter (fun v => v ∉ visited)

lemma fresh_cons_lt {visited : List α} {iv : α} (hiv : iv ∈ verts) (hnv : iv ∉ visited) :
    (fresh verts (iv :: visited)).length < (fresh verts visited).length := by
  have heq : fresh verts (iv :: visited) = (fresh verts visited).filter (fun v => v ≠ iv) := by
    rw [fresh, fresh, List.filter_filter]
    apply List.filter_congr
    intro x _
    rw [← Bool.decide_and, decide_eq_decide, List.mem_cons]
    tauto
  rw [heq]
  apply List.length_filter_lt_length_iff_exists.mpr
  exact ⟨iv, List.mem_filter.mpr ⟨hiv, by simpa using hnv⟩, by simp⟩

lemma visit_nil {s : Search γ α β} (h : s.stack = []) :
    K.visit s = .done (s.graph, s.removed, s.rnd) := by
  simp only [visit, h]

lemma visit_visited {s : Search γ α β} {iv : α} {pv : List α} {stack : List (α × List α)}
    (h : s.stack = (iv, pv) :: stack) (hv : iv ∈ s.visited) :
    K.visit s = .next { s with stack := stack } := by
  simp only [visit, h, hv, if_true]

/-- The state after the pop of an unvisited vertex. -/
def visitNew (K : CycleBreaker γ α β) (s : Search γ α β) (iv : α) (pv : List α)
    (stack : List (α × List α)) : Search γ α β :=
  (shuffle (s.rnd 0) (K.succ s.graph iv)).foldl (K.trySucc pv)
    { s with stack := stack, visited := iv :: s.visited, rnd := s.rnd.next }

lemma visit_new {s : Search γ α β} {iv : α} {pv : List α} {stack : List (α × List α)}
    (h : s.stack = (iv, pv) :: stack) (hv : iv ∉ s.visited) :
    K.visit s = .next (K.visitNew s iv pv stack) := by
  simp only [visit, h, hv, if_false, visitNew]

/-- What every edit keeps holds of the graph at the end of a pass. -/
lemma pass_invariant {P : γ → Prop} (hP : ∀ g c rnd, P g → P (K.breakCycle g c rnd).1)
    {fuel : ℕ} {g : γ} {rnd : Rnd} {out : γ × List β × Rnd}
    (hrun : K.pass fuel verts g rnd = some out) (hg : P g) : P out.1 := by
  refine Loop.Returns.post (fun s : Search γ α β => P s.graph) (fun out => P out.1) ?_ ?_
    ⟨fuel, hrun⟩ hg
  · intro s s' hs hn
    cases hst : s.stack with
    | nil =>
      rw [visit_nil hst] at hn
      cases hn
    | cons x stack =>
      by_cases hv : x.1 ∈ s.visited
      · rw [visit_visited hst hv] at hn
        cases hn
        exact hs
      · rw [visit_new hst hv] at hn
        cases hn
        exact foldl_trySucc_invariant (fun g _ => P g) (fun g _ c rnd _ h => hP g c rnd h) _ _ _ hs
  · intro s out hs hd
    cases hst : s.stack with
    | nil =>
      rw [visit_nil hst, Step.done.injEq] at hd
      rw [← hd]
      exact hs
    | cons x stack =>
      by_cases hv : x.1 ∈ s.visited
      · rw [visit_visited hst hv] at hd
        cases hd
      · rw [visit_new hst hv] at hd
        cases hd

/-- The invariant of the search that carries its termination. -/
structure Running (K : CycleBreaker γ α β) (verts : List α) (size : γ → ℕ) (good : γ → Prop)
    (P : γ → List β → Prop) (bound : ℕ) (s : Search γ α β) : Prop where
  isGood : good s.graph
  bounded : size s.graph ≤ bound
  stack_mem : ∀ x ∈ s.stack, x.1 ∈ verts
  kept : P s.graph s.removed

/-- Passes of the loop that the search still needs at most. -/
def work (verts : List α) (bound : ℕ) (s : Search γ α β) : ℕ :=
  (fresh verts s.visited).length * (bound + 1) + s.stack.length

variable {P : γ → List β → Prop} {bound : ℕ}

lemma Running.visitNew (hK : K.Lawful verts size good)
    (hP : ∀ g rem c rnd, IsClosed c → P g rem →
      P (K.breakCycle g c rnd).1 (rem ++ (K.breakCycle g c rnd).2.1))
    {s : Search γ α β} (hs : Running K verts size good P bound s) {iv : α} {pv : List α}
    {stack : List (α × List α)} (h : s.stack = (iv, pv) :: stack) (hv : iv ∉ s.visited) :
    Running K verts size good P bound (K.visitNew s iv pv stack) ∧
      work verts bound (K.visitNew s iv pv stack) < work verts bound s := by
  obtain ⟨pushed, hst, hlen, hmem, _⟩ := foldl_trySucc_stack (K := K) pv
    (shuffle (s.rnd 0) (K.succ s.graph iv))
    { s with stack := stack, visited := iv :: s.visited, rnd := s.rnd.next }
  obtain ⟨hg, he⟩ := hK.foldl_eq_or_lt pv (shuffle (s.rnd 0) (K.succ s.graph iv))
    { s with stack := stack, visited := iv :: s.visited, rnd := s.rnd.next } hs.isGood
  have hiv : iv ∈ verts := hs.stack_mem (iv, pv) (by rw [h]; exact List.mem_cons_self ..)
  have hb := hs.bounded
  refine ⟨⟨hg, ?_, ?_, ?_⟩, ?_⟩
  · rcases he with he | hlt
    · rw [CycleBreaker.visitNew, he]
      exact hb
    · exact (hlt.le).trans hb
  · rw [CycleBreaker.visitNew, hst]
    intro x hx
    rcases List.mem_append.mp hx with hx | hx
    · exact hK.succ_mem _ _ _ hs.isGood (mem_shuffle.mp (hmem x hx).1)
    · exact hs.stack_mem x (by rw [h]; exact List.mem_cons_of_mem _ hx)
  · exact foldl_trySucc_invariant P hP pv _ _ hs.kept
  · have hfresh := fresh_cons_lt hiv hv
    have hsucc := hK.succ_length s.graph iv hs.isGood
    have hmul : (fresh verts (iv :: s.visited)).length * (bound + 1) + (bound + 1) ≤
        (fresh verts s.visited).length * (bound + 1) := by
      rw [← Nat.succ_mul]
      exact Nat.mul_le_mul_right _ hfresh
    rw [shuffle_length] at hlen
    simp only [work, CycleBreaker.visitNew, hst, foldl_trySucc_visited, h, List.length_append,
      List.length_cons]
    omega

lemma Running.visit (hK : K.Lawful verts size good)
    (hP : ∀ g rem c rnd, IsClosed c → P g rem →
      P (K.breakCycle g c rnd).1 (rem ++ (K.breakCycle g c rnd).2.1))
    {s s' : Search γ α β} (hs : Running K verts size good P bound s)
    (h : K.visit s = .next s') :
    Running K verts size good P bound s' ∧ work verts bound s' < work verts bound s := by
  cases hst : s.stack with
  | nil =>
    rw [visit_nil hst] at h
    cases h
  | cons x stack =>
    obtain ⟨iv, pv⟩ := x
    by_cases hv : iv ∈ s.visited
    · rw [visit_visited hst hv, Step.next.injEq] at h
      subst h
      refine ⟨⟨hs.isGood, hs.bounded, fun x hx => ?_, hs.kept⟩, ?_⟩
      · exact hs.stack_mem x (by rw [hst]; exact List.mem_cons_of_mem _ hx)
      · simp only [work, hst, List.length_cons]
        omega
    · rw [visit_new hst hv, Step.next.injEq] at h
      subst h
      exact hs.visitNew hK hP hst hv

end Termination

/-! ### A pass shrinks a graph with a cycle -/

section Cycles

variable {K : CycleBreaker γ α β} {verts : List α} {size : γ → ℕ} {good : γ → Prop}

/-- The step relation of a graph. -/
def Edge (K : CycleBreaker γ α β) (g : γ) (a b : α) : Prop := b ∈ K.succ g a

/-- The vertices on closed walks through `x₀`. -/
def OnCycle (K : CycleBreaker γ α β) (g : γ) (x₀ y : α) : Prop :=
  ReflTransGen (K.Edge g) x₀ y ∧ ReflTransGen (K.Edge g) y x₀

/-- No vertex on a closed walk through `x₀` is visited yet, but one waits on the stack. -/
def Untouched (K : CycleBreaker γ α β) (g : γ) (x₀ : α) (s : Search γ α β) : Prop :=
  (∀ y, K.OnCycle g x₀ y → y ∉ s.visited) ∧ ∃ e ∈ s.stack, K.OnCycle g x₀ e.1

/-- The search entered the closed walks at `v` and has not yet visited the predecessor `p`
of `v`; the entries `T` above the rest of the stack all carry `v` in their paths. -/
def Entered (K : CycleBreaker γ α β) (g : γ) (x₀ : α) (s : Search γ α β) : Prop :=
  ∃ v p T S, K.OnCycle g x₀ v ∧ K.OnCycle g x₀ p ∧ K.Edge g p v ∧ s.stack = T ++ S ∧
    v ∈ s.visited ∧ p ∉ s.visited ∧ (∀ e ∈ T, v ∈ e.2) ∧
    ∀ y z, K.OnCycle g x₀ y → K.OnCycle g x₀ z → y ∈ s.visited → K.Edge g y z →
      z ∈ s.visited ∨ ∃ e ∈ T, e.1 = z

/-- Every entry of the stack is a path of `g` that ends in its vertex. -/
def PathsOf (K : CycleBreaker γ α β) (g : γ) (s : Search γ α β) : Prop :=
  ∀ e ∈ s.stack, K.IsPath g e.2 ∧ e.2.getLast? = some e.1

lemma OnCycle.edge {g : γ} {x₀ y z : α} (hy : K.OnCycle g x₀ y) (hz : K.Edge g y z)
    (hzx : ReflTransGen (K.Edge g) z x₀) : K.OnCycle g x₀ z :=
  ⟨hy.1.tail hz, hzx⟩

/-- A set of visited vertices that the closed walks do not leave contains all of them. -/
lemma OnCycle.mem_visited {g : γ} {x₀ v p : α} {visited : List α} (hv : K.OnCycle g x₀ v)
    (hp : K.OnCycle g x₀ p) (hmem : v ∈ visited)
    (hcl : ∀ y z, K.OnCycle g x₀ y → K.OnCycle g x₀ z → y ∈ visited → K.Edge g y z →
      z ∈ visited) : p ∈ visited := by
  have hvp : ReflTransGen (K.Edge g) v p := hv.2.trans hp.1
  have hall : ∀ q, ReflTransGen (K.Edge g) v q → ReflTransGen (K.Edge g) q p →
      K.OnCycle g x₀ q ∧ q ∈ visited := by
    intro q hq
    induction hq with
    | refl => exact fun _ => ⟨hv, hmem⟩
    | tail hvb hbc ih =>
      intro hcp
      obtain ⟨hb, hbm⟩ := ih (hcp.head hbc)
      have hc : K.OnCycle g x₀ _ := hb.edge hbc (hcp.trans hp.2)
      exact ⟨hc, hcl _ _ hb hc hbm hbc⟩
  exact (hall p hvp .refl).2

lemma Entered.ne_nil {g : γ} {x₀ : α} {s : Search γ α β} (h : K.Entered g x₀ s) :
    ∃ v p iv pv T S, K.OnCycle g x₀ v ∧ K.OnCycle g x₀ p ∧ K.Edge g p v ∧
      s.stack = (iv, pv) :: (T ++ S) ∧ v ∈ s.visited ∧ p ∉ s.visited ∧ v ∈ pv ∧
      (∀ e ∈ T, v ∈ e.2) ∧
      ∀ y z, K.OnCycle g x₀ y → K.OnCycle g x₀ z → y ∈ s.visited → K.Edge g y z →
        z ∈ s.visited ∨ iv = z ∨ ∃ e ∈ T, e.1 = z := by
  obtain ⟨v, p, T, S, hv, hp, hpv, hst, hvm, hpm, hT, hcl⟩ := h
  cases T with
  | nil =>
    exfalso
    apply hpm
    apply hv.mem_visited hp hvm
    intro y z hy hz hym hyz
    rcases hcl y z hy hz hym hyz with h | ⟨e, he, _⟩
    · exact h
    · cases he
  | cons x T =>
    obtain ⟨iv, pv⟩ := x
    refine ⟨v, p, iv, pv, T, S, hv, hp, hpv, hst, hvm, hpm, hT _ (List.mem_cons_self ..),
      fun e he => hT e (List.mem_cons_of_mem _ he), ?_⟩
    intro y z hy hz hym hyz
    rcases hcl y z hy hz hym hyz with h | ⟨e, he, hez⟩
    · exact .inl h
    · rcases List.mem_cons.mp he with rfl | he
      · exact .inr (.inl hez)
      · exact .inr (.inr ⟨e, he, hez⟩)

lemma OnCycle.exists_pred {g : γ} {x₀ v : α} (hx : TransGen (K.Edge g) x₀ x₀)
    (hv : K.OnCycle g x₀ v) : ∃ p, K.OnCycle g x₀ p ∧ K.Edge g p v := by
  have hvv : TransGen (K.Edge g) v v := (TransGen.trans_right hv.2 hx).trans_left hv.1
  obtain ⟨p, hvp, hpv⟩ := TransGen.tail'_iff.mp hvv
  exact ⟨p, ⟨hv.1.trans hvp, hv.2.head hpv⟩, hpv⟩

/-- What visiting `iv` does to the stack and the visited vertices while nothing is deleted:
the entries `pushed` extend the path of `iv` and hold every unvisited successor, and no
successor of `iv` is on its own path. -/
structure Expands (K : CycleBreaker γ α β) (g : γ) (s s' : Search γ α β) (iv : α) (pv : List α)
    (stack pushed : List (α × List α)) : Prop where
  popped : s.stack = (iv, pv) :: stack
  stack_eq : s'.stack = pushed ++ stack
  visited_eq : s'.visited = iv :: s.visited
  path_eq : ∀ e ∈ pushed, e.2 = pv ++ [e.1]
  pushes : ∀ w, K.Edge g iv w → w ∈ iv :: s.visited ∨ ∃ e ∈ pushed, e.1 = w
  mem_path : iv ∈ pv
  free : ∀ w, K.Edge g iv w → w ∉ pv

lemma Untouched.expands {g : γ} {x₀ : α} {s s' : Search γ α β} {iv : α} {pv : List α}
    {stack pushed : List (α × List α)} (hx : TransGen (K.Edge g) x₀ x₀)
    (hun : K.Untouched g x₀ s) (h : K.Expands g s s' iv pv stack pushed) :
    K.Untouched g x₀ s' ∨ K.Entered g x₀ s' := by
  obtain ⟨hun, e, he, hec⟩ := hun
  by_cases hivc : K.OnCycle g x₀ iv
  · -- the search enters the closed walks here, at `iv`
    right
    obtain ⟨p, hpc, hpv⟩ := hivc.exists_pred hx
    have hne : p ≠ iv := by
      rintro rfl
      exact h.free p hpv h.mem_path
    refine ⟨iv, p, pushed, stack, hivc, hpc, hpv, h.stack_eq, ?_, ?_, ?_, ?_⟩
    · rw [h.visited_eq]
      exact List.mem_cons_self ..
    · rw [h.visited_eq, List.mem_cons, not_or]
      exact ⟨hne, hun p hpc⟩
    · intro e he
      rw [h.path_eq e he]
      exact List.mem_append_left _ h.mem_path
    · intro y z hy _ hym hyz
      rw [h.visited_eq] at hym ⊢
      rcases List.mem_cons.mp hym with rfl | hym
      · exact h.pushes z hyz
      · exact absurd hym (hun y hy)
  · left
    refine ⟨?_, e, ?_, hec⟩
    · intro y hy hym
      rw [h.visited_eq] at hym
      rcases List.mem_cons.mp hym with rfl | hym
      · exact hivc hy
      · exact hun y hy hym
    · rw [h.stack_eq]
      rw [h.popped] at he
      rcases List.mem_cons.mp he with rfl | he
      · exact absurd hec hivc
      · exact List.mem_append_right _ he

lemma Entered.expands {g : γ} {x₀ : α} {s s' : Search γ α β} {iv : α} {pv : List α}
    {stack pushed : List (α × List α)} (hent : K.Entered g x₀ s)
    (h : K.Expands g s s' iv pv stack pushed) : K.Entered g x₀ s' := by
  obtain ⟨v, p, iv', pv', T, S, hvc, hpc, hpv, hst, hvm, hpm, hvpv, hT, hcl⟩ := hent.ne_nil
  rw [h.popped, List.cons.injEq, Prod.mk.injEq] at hst
  obtain ⟨⟨rfl, rfl⟩, rfl⟩ := hst
  have hne : p ≠ iv := by
    rintro rfl
    exact h.free v hpv hvpv
  refine ⟨v, p, pushed ++ T, S, hvc, hpc, hpv, ?_, ?_, ?_, ?_, ?_⟩
  · rw [h.stack_eq, List.append_assoc]
  · rw [h.visited_eq]
    exact List.mem_cons_of_mem _ hvm
  · rw [h.visited_eq, List.mem_cons, not_or]
    exact ⟨hne, hpm⟩
  · intro e he
    rcases List.mem_append.mp he with he | he
    · rw [h.path_eq e he]
      exact List.mem_append_left _ hvpv
    · exact hT e he
  · intro y z hy hz hym hyz
    rw [h.visited_eq] at hym ⊢
    rcases List.mem_cons.mp hym with rfl | hym
    · rcases h.pushes z hyz with h' | ⟨e, he, hez⟩
      · exact .inl h'
      · exact .inr ⟨e, List.mem_append_left _ he, hez⟩
    · rcases hcl y z hy hz hym hyz with h' | rfl | ⟨e, he, hez⟩
      · exact .inl (List.mem_cons_of_mem _ h')
      · exact .inl (List.mem_cons_self ..)
      · exact .inr ⟨e, List.mem_append_right _ he, hez⟩

/-- While nothing has been deleted, the search keeps the paths on its stack and stays before
or inside the closed walks through `x₀`. -/
def Tracking (K : CycleBreaker γ α β) (g : γ) (x₀ : α) (s : Search γ α β) : Prop :=
  s.graph = g ∧ K.PathsOf g s ∧ (K.Untouched g x₀ s ∨ K.Entered g x₀ s)

lemma Tracking.visited {g : γ} {x₀ : α} {s : Search γ α β} (hs : K.Tracking g x₀ s) {iv : α}
    {pv : List α} {stack : List (α × List α)} (h : s.stack = (iv, pv) :: stack)
    (hv : iv ∈ s.visited) : K.Tracking g x₀ { s with stack := stack } := by
  obtain ⟨hg, hpaths, hph⟩ := hs
  refine ⟨hg, fun e he => hpaths e (by rw [h]; exact List.mem_cons_of_mem _ he), ?_⟩
  rcases hph with ⟨hun, e, he, hec⟩ | hent
  · left
    refine ⟨hun, e, ?_, hec⟩
    rw [h] at he
    rcases List.mem_cons.mp he with rfl | he
    · exact absurd hv (hun _ hec)
    · exact he
  · right
    obtain ⟨v, p, iv', pv', T, S, hvc, hpc, hpv, hst, hvm, hpm, _, hT, hcl⟩ := hent.ne_nil
    rw [h, List.cons.injEq, Prod.mk.injEq] at hst
    obtain ⟨⟨rfl, rfl⟩, rfl⟩ := hst
    refine ⟨v, p, T, S, hvc, hpc, hpv, rfl, hvm, hpm, hT, ?_⟩
    intro y z hy hz hym hyz
    rcases hcl y z hy hz hym hyz with h' | rfl | h'
    · exact .inl h'
    · exact .inl hv
    · exact .inr h'

lemma Tracking.stack_ne_nil {g : γ} {x₀ : α} {s : Search γ α β} (hs : K.Tracking g x₀ s) :
    s.stack ≠ [] := by
  rcases hs.2.2 with ⟨_, e, he, _⟩ | hent
  · exact List.ne_nil_of_mem he
  · obtain ⟨_, _, _, _, _, _, _, _, _, hst, _⟩ := hent.ne_nil
    rw [hst]
    exact List.cons_ne_nil _ _

lemma tracking_start (g : γ) (rnd : Rnd) {x₀ : α} (hx : x₀ ∈ verts) :
    K.Tracking g x₀ (start verts g rnd : Search γ α β) := by
  have hstack : ∀ e, e ∈ (start verts g rnd : Search γ α β).stack ↔
      ∃ v ∈ verts, (v, [v]) = e := by
    intro e
    rw [start, List.mem_reverse, List.mem_map]
    simp only [mem_shuffle]
  refine ⟨rfl, ?_, .inl ⟨fun y _ => List.not_mem_nil, (x₀, [x₀]), ?_, .refl, .refl⟩⟩
  · intro e he
    obtain ⟨v, _, rfl⟩ := (hstack e).mp he
    exact ⟨List.IsChain.singleton _, rfl⟩
  · exact (hstack _).mpr ⟨x₀, hx, rfl⟩

end Cycles

section Progress

variable [DecidableEq α] {K : CycleBreaker γ α β} {verts : List α} {size : γ → ℕ} {good : γ → Prop}

lemma Tracking.visitNew (hK : K.Lawful verts size good) {g : γ} {x₀ : α} (hgood : good g)
    (hx : TransGen (K.Edge g) x₀ x₀) {s : Search γ α β} (hs : K.Tracking g x₀ s) {iv : α}
    {pv : List α} {stack : List (α × List α)} (h : s.stack = (iv, pv) :: stack) :
    size (K.visitNew s iv pv stack).graph < size g ∨
      K.Tracking g x₀ (K.visitNew s iv pv stack) := by
  obtain ⟨hg, hpaths, hph⟩ := hs
  let s₁ : Search γ α β :=
    { s with stack := stack, visited := iv :: s.visited, rnd := s.rnd.next }
  obtain ⟨hpath, hlast⟩ := hpaths (iv, pv) (by rw [h]; exact List.mem_cons_self ..)
  have hshuffle : ∀ w, w ∈ shuffle (s.rnd 0) (K.succ s.graph iv) ↔ w ∈ K.succ g iv := by
    intro w
    rw [mem_shuffle, hg]
  have hs₁ : good s₁.graph := by
    change good s.graph
    rw [hg]
    exact hgood
  rcases (hK.foldl_eq_or_lt pv (shuffle (s.rnd 0) (K.succ s.graph iv)) s₁ hs₁).2 with heq | hlt
  swap
  · left
    change size (K.visitNew s iv pv stack).graph < size s.graph at hlt
    rwa [hg] at hlt
  by_cases hclose : ∃ w ∈ K.succ g iv, w ∈ pv
  · left
    obtain ⟨w, hw, hwpv⟩ := hclose
    have hlt := hK.foldl_lt (s := s₁) hs₁ (by change K.IsPath s.graph pv; rw [hg]; exact hpath)
      hlast (l := shuffle (s.rnd 0) (K.succ s.graph iv)) (fun w hw => mem_shuffle.mp hw)
      ((hshuffle w).mpr hw) hwpv
    change size (K.visitNew s iv pv stack).graph < size s.graph at hlt
    rwa [hg] at hlt
  right
  obtain ⟨pushed, hst, _, hmem, hall⟩ := foldl_trySucc_stack (K := K) pv
    (shuffle (s.rnd 0) (K.succ s.graph iv)) s₁
  have hexp : K.Expands g s (K.visitNew s iv pv stack) iv pv stack pushed :=
    { popped := h
      stack_eq := hst
      visited_eq := foldl_trySucc_visited _ _ _
      path_eq := fun e he => (hmem e he).2
      pushes := by
        intro w hw
        by_cases hwv : w ∈ iv :: s.visited
        · exact .inl hwv
        · exact .inr ⟨_, hall w ((hshuffle w).mpr hw) hwv, rfl⟩
      mem_path := List.mem_of_getLast? hlast
      free := fun w hw hwpv => hclose ⟨w, hw, hwpv⟩ }
  refine ⟨(heq.trans hg : (K.visitNew s iv pv stack).graph = g), ?_, ?_⟩
  · rw [PathsOf, hexp.stack_eq]
    intro e he
    rcases List.mem_append.mp he with he | he
    · obtain ⟨he₁, he₂⟩ := hmem e he
      rw [he₂]
      refine ⟨hpath.append (List.IsChain.singleton _) ?_, by simp⟩
      intro x hx y hy
      rw [hlast, Option.mem_def, Option.some.injEq] at hx
      rw [List.head?_cons, Option.mem_def, Option.some.injEq] at hy
      rw [← hx, ← hy]
      exact (hshuffle _).mp he₁
    · exact hpaths e (by rw [h]; exact List.mem_cons_of_mem _ he)
  · rcases hph with hun | hent
    · exact hun.expands hx hexp
    · exact .inr (hent.expands hexp)

/-- A pass over a good graph ends, keeps what every edit keeps, never makes the graph larger
and makes it smaller if it has a cycle. -/
theorem Lawful.pass_returns (hK : K.Lawful verts size good) {g : γ} (hg : good g) (rnd : Rnd)
    {fuel : ℕ} (hfuel : verts.length * (size g + 2) < fuel) (P : γ → List β → Prop)
    (hP : ∀ g rem c rnd, IsClosed c → P g rem →
      P (K.breakCycle g c rnd).1 (rem ++ (K.breakCycle g c rnd).2.1))
    (h₀ : P g []) :
    ∃ g' removed rnd', K.pass fuel verts g rnd = some (g', removed, rnd') ∧
      P g' removed ∧ good g' ∧ size g' ≤ size g ∧
      (¬ Acyclic (K.Edge g) → size g' < size g) := by
  let Inv : Search γ α β → Prop := fun s => Running K verts size good P (size g) s ∧
    ∀ x₀, TransGen (K.Edge g) x₀ x₀ → size s.graph < size g ∨ K.Tracking g x₀ s
  let Post : γ × List β × Rnd → Prop := fun r => P r.1 r.2.1 ∧ good r.1 ∧ size r.1 ≤ size g ∧
    (¬ Acyclic (K.Edge g) → size r.1 < size g)
  have hstart : Inv (start verts g rnd) := by
    refine ⟨⟨hg, le_rfl, ?_, h₀⟩, fun x₀ hx => .inr (tracking_start g rnd ?_)⟩
    · intro x hx
      rw [start, List.mem_reverse, List.mem_map] at hx
      obtain ⟨v, hv, rfl⟩ := hx
      exact mem_shuffle.mp hv
    · obtain ⟨p, _, hp⟩ := TransGen.tail'_iff.mp hx
      exact hK.succ_mem g p x₀ hg hp
  have hwork : work verts (size g) (start verts g rnd : Search γ α β) < fuel := by
    have hfresh : (fresh verts ([] : List α)).length ≤ verts.length := List.length_filter_le _ _
    have hmul := Nat.mul_le_mul_right (size g + 1) hfresh
    simp only [work, start, List.length_reverse, List.length_map, shuffle_length]
    rw [show size g + 2 = (size g + 1) + 1 by omega, Nat.mul_succ] at hfuel
    omega
  have hbody : ∀ s, Inv s → (∃ r, K.visit s = .done r ∧ Post r) ∨
      ∃ s', K.visit s = .next s' ∧ Inv s' ∧ work verts (size g) s' < work verts (size g) s := by
    rintro s ⟨hrun, htrack⟩
    cases hst : s.stack with
    | nil =>
      left
      refine ⟨_, visit_nil hst, hrun.kept, hrun.isGood, hrun.bounded, fun hcyc => ?_⟩
      simp only [Acyclic, not_forall, not_not] at hcyc
      obtain ⟨x₀, hx⟩ := hcyc
      exact (htrack x₀ hx).resolve_right (fun ht => ht.stack_ne_nil hst)
    | cons x stack =>
      right
      obtain ⟨iv, pv⟩ := x
      by_cases hv : iv ∈ s.visited
      · have hn := visit_visited (K := K) hst hv
        obtain ⟨hrun', hlt⟩ := hrun.visit hK hP hn
        refine ⟨_, hn, ⟨hrun', fun x₀ hx => ?_⟩, hlt⟩
        exact (htrack x₀ hx).imp_right (fun ht => ht.visited hst hv)
      · have hn := visit_new (K := K) hst hv
        obtain ⟨hrun', hlt⟩ := hrun.visit hK hP hn
        refine ⟨_, hn, ⟨hrun', fun x₀ hx => ?_⟩, hlt⟩
        rcases htrack x₀ hx with h | ht
        · left
          have hle : size (K.visitNew s iv pv stack).graph ≤ size s.graph := by
            rcases (hK.foldl_eq_or_lt pv (shuffle (s.rnd 0) (K.succ s.graph iv))
              { s with stack := stack, visited := iv :: s.visited, rnd := s.rnd.next }
              hrun.isGood).2 with he | hl
            · exact (congrArg size he).le
            · exact hl.le
          exact hle.trans_lt h
        · exact ht.visitNew hK hg hx hst
  obtain ⟨⟨g', removed, rnd'⟩, hrun, hpost⟩ := Loop.run_of_measure (work verts (size g)) Inv Post
    hbody hstart hwork
  exact ⟨g', removed, rnd', hrun, hpost⟩

end Progress

end CycleBreaker

end ResSim
