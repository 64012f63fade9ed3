import ResSim.PortGraph

/-!
# Paths over ports

A path is a list of ports to leave switches by. What Plinko forwards on is the way back over
a path, a list of ports with the most recent hop first.
-/

namespace ResSim

variable {V E : Type} [DecidableEq V]

/-- `reverse_path`: the switch at the end of a path, and the ports of the way back. -/
def reversePath (G : PortGraph V E) : V → List ℕ → Option (V × List ℕ)
  | v, [] => some (v, [])
  | v, hop :: path => do
    let (_, nextv, revhop) ← G.hop v hop
    let (u, revpath) ← reversePath G nextv path
    some (u, revpath ++ [revhop])

/-- `arc_set`: the links of a path, each with the switch it is entered from. -/
def arcSet (G : PortGraph V E) : V → List ℕ → Option (List (V × E))
  | _, [] => some []
  | currv, hop :: path => do
    let (e, nextv, _) ← G.hop currv hop
    let arcs ← arcSet G nextv path
    some ((currv, e) :: arcs)

/-- `revpath_at_fail`: the same as `reversePath` up to the first link of `edges`. -/
def revpathAtFail [DecidableEq E] (G : PortGraph V E) (edges : Finset E) :
    V → List ℕ → Option (V × List ℕ)
  | v, [] => some (v, [])
  | v, hop :: path => do
    let (e, nextv, revhop) ← G.hop v hop
    if e ∈ edges then some (v, [])
    else do
      let (u, revpath) ← revpathAtFail G edges nextv path
      some (u, revpath ++ [revhop])

variable {G : PortGraph V E} {u v w : V} {hop : ℕ} {path pre post r : List ℕ}
  {arcs : List (V × E)} {failedE : Finset E}

@[simp] lemma reversePath_nil : reversePath G v [] = some (v, []) := rfl

@[simp] lemma arcSet_nil : arcSet G v [] = some [] := rfl

lemma reversePath_cons : reversePath G v (hop :: path) = some (u, r) ↔
    ∃ e w q r', G.hop v hop = some (e, w, q) ∧ reversePath G w path = some (u, r') ∧
      r = r' ++ [q] := by
  simp only [reversePath, Option.bind_eq_bind, Option.bind_eq_some_iff, Prod.exists,
    Option.some.injEq, Prod.mk.injEq]
  constructor
  · rintro ⟨e, w, q, hhop, u', r', hr, rfl, rfl⟩
    exact ⟨e, w, q, r', hhop, hr, rfl⟩
  · rintro ⟨e, w, q, r', hhop, hr, rfl⟩
    exact ⟨e, w, q, hhop, u, r', hr, rfl, rfl⟩

lemma arcSet_cons : arcSet G v (hop :: path) = some arcs ↔
    ∃ e w q arcs', G.hop v hop = some (e, w, q) ∧ arcSet G w path = some arcs' ∧
      arcs = (v, e) :: arcs' := by
  simp only [arcSet, Option.bind_eq_bind, Option.bind_eq_some_iff, Prod.exists,
    Option.some.injEq]
  constructor
  · rintro ⟨e, w, q, hhop, arcs', ha, rfl⟩
    exact ⟨e, w, q, arcs', hhop, ha, rfl⟩
  · rintro ⟨e, w, q, arcs', hhop, ha, rfl⟩
    exact ⟨e, w, q, hhop, arcs', ha, rfl⟩

lemma reversePath_append : reversePath G v (pre ++ post) = some (u, r) ↔
    ∃ w r₁ r₂, reversePath G v pre = some (w, r₁) ∧ reversePath G w post = some (u, r₂) ∧
      r = r₂ ++ r₁ := by
  induction pre generalizing v r with
  | nil =>
    simp only [List.nil_append, reversePath_nil, Option.some.injEq, Prod.mk.injEq]
    constructor
    · exact fun h => ⟨v, [], r, ⟨rfl, rfl⟩, h, by simp⟩
    · rintro ⟨w, r₁, r₂, ⟨rfl, rfl⟩, h, rfl⟩
      simpa using h
  | cons hop pre ih =>
    rw [List.cons_append, reversePath_cons]
    constructor
    · rintro ⟨e, x, q, r', hhop, hr, rfl⟩
      obtain ⟨w, r₁, r₂, h₁, h₂, rfl⟩ := ih.mp hr
      exact ⟨w, r₁ ++ [q], r₂, reversePath_cons.mpr ⟨e, x, q, r₁, hhop, h₁, rfl⟩, h₂, by simp⟩
    · rintro ⟨w, r₁, r₂, h₁, h₂, rfl⟩
      obtain ⟨e, x, q, r', hhop, hr, rfl⟩ := reversePath_cons.mp h₁
      exact ⟨e, x, q, r₂ ++ r', hhop, ih.mpr ⟨w, r', r₂, hr, h₂, rfl⟩, by simp⟩

lemma reversePath_concat : reversePath G v (path ++ [hop]) = some (u, r) ↔
    ∃ w r' e q, reversePath G v path = some (w, r') ∧ G.hop w hop = some (e, u, q) ∧
      r = q :: r' := by
  rw [reversePath_append]
  constructor
  · rintro ⟨w, r', r₂, h₁, h₂, rfl⟩
    obtain ⟨e, x, q, r₃, hhop, hr, rfl⟩ := reversePath_cons.mp h₂
    obtain ⟨rfl, rfl⟩ := Prod.mk.inj (Option.some.inj hr)
    exact ⟨w, r', e, q, h₁, hhop, rfl⟩
  · rintro ⟨w, r', e, q, h₁, hhop, rfl⟩
    exact ⟨w, r', [q], h₁, reversePath_cons.mpr ⟨e, u, q, [], hhop, rfl, rfl⟩, rfl⟩

lemma reversePath_length (h : reversePath G v path = some (u, r)) : r.length = path.length := by
  induction path generalizing v r with
  | nil =>
    obtain ⟨rfl, rfl⟩ := Prod.mk.inj (Option.some.inj h)
    rfl
  | cons hop path ih =>
    obtain ⟨e, w, q, r', _, hr, rfl⟩ := reversePath_cons.mp h
    rw [List.length_append, List.length_singleton, List.length_cons, ih hr]

lemma arcSet_length (h : arcSet G v path = some arcs) : arcs.length = path.length := by
  induction path generalizing v arcs with
  | nil =>
    obtain rfl := Option.some.inj h
    rfl
  | cons hop path ih =>
    obtain ⟨e, w, q, arcs', _, ha, rfl⟩ := arcSet_cons.mp h
    rw [List.length_cons, List.length_cons, ih ha]

lemma reversePath_reverse (h : reversePath G v path = some (u, r)) :
    reversePath G u r = some (v, path) := by
  induction path generalizing v r with
  | nil =>
    obtain ⟨rfl, rfl⟩ := Prod.mk.inj (Option.some.inj h)
    rfl
  | cons hop path ih =>
    obtain ⟨e, w, q, r', hhop, hr, rfl⟩ := reversePath_cons.mp h
    exact reversePath_concat.mpr ⟨w, path, e, hop, ih hr, PortGraph.hop_symm hhop, rfl⟩

lemma exists_arcSet (h : reversePath G v path = some (u, r)) :
    ∃ arcs, arcSet G v path = some arcs := by
  induction path generalizing v r with
  | nil => exact ⟨[], rfl⟩
  | cons hop path ih =>
    obtain ⟨e, w, q, r', hhop, hr, _⟩ := reversePath_cons.mp h
    obtain ⟨arcs, ha⟩ := ih hr
    exact ⟨(v, e) :: arcs, arcSet_cons.mpr ⟨e, w, q, arcs, hhop, ha, rfl⟩⟩

lemma arcSet_append (h : reversePath G v pre = some (w, r)) :
    arcSet G v (pre ++ post) = some arcs ↔
      ∃ arcs₁ arcs₂, arcSet G v pre = some arcs₁ ∧ arcSet G w post = some arcs₂ ∧
        arcs = arcs₁ ++ arcs₂ := by
  induction pre generalizing v r arcs with
  | nil =>
    obtain ⟨rfl, rfl⟩ := Prod.mk.inj (Option.some.inj h)
    simp
  | cons hop pre ih =>
    obtain ⟨e, x, q, r', hhop, hr, rfl⟩ := reversePath_cons.mp h
    rw [List.cons_append, arcSet_cons]
    constructor
    · rintro ⟨e', x', q', arcs', hhop', ha, rfl⟩
      obtain ⟨rfl, rfl, rfl⟩ := PortGraph.hop_det hhop hhop'
      obtain ⟨arcs₁, arcs₂, h₁, h₂, rfl⟩ := (ih hr).mp ha
      exact ⟨(v, e) :: arcs₁, arcs₂, arcSet_cons.mpr ⟨e, x, q, arcs₁, hhop, h₁, rfl⟩, h₂, rfl⟩
    · rintro ⟨arcs₁, arcs₂, h₁, h₂, rfl⟩
      obtain ⟨e', x', q', arcs', hhop', ha, rfl⟩ := arcSet_cons.mp h₁
      obtain ⟨rfl, rfl, rfl⟩ := PortGraph.hop_det hhop hhop'
      exact ⟨e, x, q, arcs' ++ arcs₂, hhop, (ih hr).mpr ⟨arcs', arcs₂, ha, h₂, rfl⟩, rfl⟩

lemma leads_iff : G.Leads failedE v path u ↔
    ∃ r arcs, reversePath G v path = some (u, r) ∧ arcSet G v path = some arcs ∧
      ∀ a ∈ arcs, a.2 ∉ failedE := by
  induction path generalizing v with
  | nil =>
    rw [PortGraph.Leads]
    constructor
    · rintro rfl
      exact ⟨[], [], rfl, rfl, fun a ha => absurd ha List.not_mem_nil⟩
    · rintro ⟨r, arcs, h, _⟩
      exact (Prod.mk.inj (Option.some.inj h)).1
  | cons hop path ih =>
    rw [PortGraph.Leads]
    constructor
    · rintro ⟨e, w, q, hhop, he, hl⟩
      obtain ⟨r, arcs, hr, ha, hup⟩ := ih.mp hl
      exact ⟨r ++ [q], (v, e) :: arcs, reversePath_cons.mpr ⟨e, w, q, r, hhop, hr, rfl⟩,
        arcSet_cons.mpr ⟨e, w, q, arcs, hhop, ha, rfl⟩, List.forall_mem_cons.mpr ⟨he, hup⟩⟩
    · rintro ⟨r, arcs, hr, ha, hup⟩
      obtain ⟨e, w, q, r', hhop, hr', rfl⟩ := reversePath_cons.mp hr
      obtain ⟨e', w', q', arcs', hhop', ha', rfl⟩ := arcSet_cons.mp ha
      obtain ⟨rfl, rfl, rfl⟩ := PortGraph.hop_det hhop hhop'
      obtain ⟨he, hup⟩ := List.forall_mem_cons.mp hup
      exact ⟨e, w, q, hhop, he, ih.mpr ⟨r', arcs', hr', ha', hup⟩⟩

lemma leads_append : G.Leads failedE v (pre ++ post) u ↔
    ∃ w, G.Leads failedE v pre w ∧ G.Leads failedE w post u := by
  induction pre generalizing v with
  | nil => exact ⟨fun h => ⟨v, rfl, h⟩, fun ⟨_, hw, h⟩ => hw ▸ h⟩
  | cons hop pre ih =>
    simp only [List.cons_append, PortGraph.Leads, ih]
    constructor
    · rintro ⟨e, x, q, hhop, he, w, hw, h⟩
      exact ⟨w, ⟨e, x, q, hhop, he, hw⟩, h⟩
    · rintro ⟨w, ⟨e, x, q, hhop, he, hw⟩, h⟩
      exact ⟨e, x, q, hhop, he, w, hw, h⟩

lemma leads_mono {failedE' : Finset E} (h : G.Leads failedE v path u) (hsub : failedE' ⊆ failedE) :
    G.Leads failedE' v path u := by
  obtain ⟨r, arcs, hr, ha, hup⟩ := leads_iff.mp h
  exact leads_iff.mpr ⟨r, arcs, hr, ha, fun a hin hf => hup a hin (hsub hf)⟩

/-- The part of a path before the first link of `edges`. -/
lemma exists_revpathAtFail [DecidableEq E] (h : reversePath G v path = some (w, r)) (edges : Finset E) :
    ∃ k post u r', path = k ++ post ∧ revpathAtFail G edges v path = some (u, r') ∧
      reversePath G v k = some (u, r') ∧ G.Leads edges v k u ∧
      ∀ hop ∈ post.head?, ∃ e ∈ edges, G.edges u hop = some e := by
  induction path generalizing v r with
  | nil => exact ⟨[], [], v, [], rfl, rfl, rfl, rfl, fun _ h => absurd h (by simp)⟩
  | cons hop path ih =>
    obtain ⟨e, x, q, r₁, hhop, hr, _⟩ := reversePath_cons.mp h
    by_cases he : e ∈ edges
    · refine ⟨[], hop :: path, v, [], rfl, ?_, rfl, rfl, ?_⟩
      · simp only [revpathAtFail, hhop, Option.bind_eq_bind, Option.bind_some, if_pos he]
      · rintro hop' ⟨⟩
        exact ⟨e, he, PortGraph.edges_of_hop hhop⟩
    · obtain ⟨k, post, u, r', rfl, hrun, hk, hl, hpost⟩ := ih hr
      refine ⟨hop :: k, post, u, r' ++ [q], rfl, ?_,
        reversePath_cons.mpr ⟨e, x, q, r', hhop, hk, rfl⟩, ⟨e, x, q, hhop, he, hl⟩, hpost⟩
      simp only [revpathAtFail, hhop, Option.bind_eq_bind, Option.bind_some, if_neg he, hrun]

/-- A path with at least one hop. `path` is the part that the switch forwards on and
`fullPath` the whole way; its links are disjoint from the failed ones. -/
structure Path (G : PortGraph V E) where
  v : V
  path : List ℕ
  fullPath : List ℕ
  rv : V
  arcs : List (V × E)
  failedE : Finset E
  extraRPath : List ℕ
  leads : G.Leads failedE v fullPath rv
  arcSet_eq : arcSet G v fullPath = some arcs

/-- The links of a path. -/
def Path.edges (P : Path G) : List E := P.arcs.map Prod.snd

lemma leads_of_arcSet {rv : V} (hr : reversePath G v path = some (rv, r))
    (ha : arcSet G v path = some arcs) (hd : ∀ a ∈ arcs, a.2 ∉ failedE) :
    G.Leads failedE v path rv := leads_iff.mpr ⟨r, arcs, hr, ha, hd⟩

/-- The constructor `Path`, with its assertion. -/
def mkPath [DecidableEq E] (G : PortGraph V E) (v : V) (path fullPath : List ℕ) (failedE : Finset E)
    (rPath : List ℕ) : Option (Path G) :=
  match hr : reversePath G v fullPath, ha : arcSet G v fullPath with
  | some (rv, _), some arcs =>
    if hd : ∀ a ∈ arcs, a.2 ∉ failedE then
      some ⟨v, path, fullPath, rv, arcs, failedE, rPath, leads_of_arcSet hr ha hd, ha⟩
    else none
  | _, _ => none

variable (path) in
/-- The constructor accepts the paths that avoid the failed links. -/
lemma exists_mkPath [DecidableEq E] {rv : V} (h : G.Leads failedE v post rv) (rPath : List ℕ) :
    ∃ P, mkPath G v path post failedE rPath = some P ∧ P.v = v ∧ P.path = path ∧
      P.fullPath = post ∧ P.rv = rv ∧ P.failedE = failedE ∧ P.extraRPath = rPath := by
  obtain ⟨r, arcs, hr, ha, hd⟩ := leads_iff.mp h
  refine ⟨⟨v, path, post, rv, arcs, failedE, rPath, h, ha⟩, ?_, rfl, rfl, rfl, rfl, rfl, rfl⟩
  unfold mkPath
  split
  · rename_i hr' ha'
    rw [hr, Option.some.injEq, Prod.mk.injEq] at hr'
    rw [ha, Option.some.injEq] at ha'
    obtain ⟨rfl, rfl⟩ := hr'
    subst ha'
    rw [dif_pos hd]
  · rename_i hno
    exact absurd ha (hno rv r arcs hr)

lemma mkPath_eq_some [DecidableEq E] {rPath : List ℕ} {P : Path G}
    (h : mkPath G v path post failedE rPath = some P) : P.v = v ∧ P.path = path := by
  unfold mkPath at h
  split at h
  · split at h
    · rw [← Option.some.inj h]
      exact ⟨rfl, rfl⟩
    · cases h
  · cases h

lemma Path.reversePath_eq (P : Path G) :
    ∃ r, reversePath G P.v P.fullPath = some (P.rv, r) := by
  obtain ⟨r, arcs, hr, _⟩ := leads_iff.mp P.leads
  exact ⟨r, hr⟩

lemma Path.not_mem_failedE (P : Path G) {e : E} (h : e ∈ P.edges) : e ∉ P.failedE := by
  obtain ⟨r, arcs, _, ha, hd⟩ := leads_iff.mp P.leads
  rw [P.arcSet_eq, Option.some.injEq] at ha
  obtain ⟨a, hin, rfl⟩ := List.mem_map.mp h
  exact hd a (ha ▸ hin)

end ResSim
