import ResSim.Fcp.Build

/-!
# Hops of FCP paths

A hop of a path has the key of the entry that makes it: the first hop the label that the
packet came with, the others the failed links that the path knows.
-/

namespace ResSim

variable {V E : Type} [DecidableEq V] {G : PortGraph V E} {K A : Finset E} {u v w dst : V}
  {hops hops' post : List ℕ} {hop q : ℕ} {e : E}

/-! ### Shortest paths -/

lemma ShortestHops.length_eq (h : ShortestHops G K v hops dst) (h' : ShortestHops G K v hops' dst) :
    hops.length = hops'.length := Nat.le_antisymm (h.2 hops' h'.1) (h'.2 hops h.1)

lemma ShortestHops.of_length_eq (h : ShortestHops G K v hops dst) (hl : G.Leads K v hops' dst)
    (hlen : hops'.length = hops.length) : ShortestHops G K v hops' dst :=
  ⟨hl, fun p hp => hlen ▸ h.2 p hp⟩

lemma ShortestHops.tail (h : ShortestHops G K v (hop :: hops) dst)
    (hhop : G.hop v hop = some (e, w, q)) : e ∉ K ∧ ShortestHops G K w hops dst := by
  obtain ⟨e', w', q', hhop', he, hl⟩ := h.1
  obtain ⟨rfl, rfl, rfl⟩ := PortGraph.hop_det hhop hhop'
  refine ⟨he, hl, fun p hp => ?_⟩
  have hle := h.2 (hop :: p) ⟨e, w, q, hhop, he, hp⟩
  simpa using hle

lemma ShortestHops.exists_hop (h : ShortestHops G K v (hop :: hops) dst) :
    ∃ e w q, G.hop v hop = some (e, w, q) := by
  obtain ⟨e, w, q, hhop, _⟩ := h.1
  exact ⟨e, w, q, hhop⟩

/-! ### Hops with their keys -/

/-- A hop: the key of its entry, the port, and the link. -/
structure FcpHop (V E : Type) where
  v : V
  label : Finset E
  down : Finset E
  port : ℕ
  link : E

def FcpHop.key (x : FcpHop V E) : V × Finset E × Finset E := (x.v, x.label, x.down)

variable [DecidableEq E] {x y : FcpHop V E}

/-- The hops of a path that avoids the failed links `K`, made by packets that come with the
label `A`. -/
def OnRoute (G : PortGraph V E) (K : Finset E) :
    Finset E → V → List ℕ → FcpHop V E → Prop
  | _, _, [], _ => False
  | A, curr, hop :: hops, x =>
    (x.v = curr ∧ x.label = A ∧ x.down = (localFailedE G K curr).toFinset ∧ x.port = hop ∧
      G.edges curr hop = some x.link) ∨
    ∃ e w q, G.hop curr hop = some (e, w, q) ∧ OnRoute G K K w hops x

omit [DecidableEq V] in
lemma mem_localFailedE_toFinset {f : E} : f ∈ (localFailedE G K u).toFinset ↔
    f ∈ K ∧ ∃ port, G.edges u port = some f := by
  rw [List.mem_toFinset, mem_localFailedE_iff]

lemma onRoute_cons (hhop : G.hop v hop = some (e, w, q)) :
    OnRoute G K A v (hop :: hops) x ↔
      x = ⟨v, A, (localFailedE G K v).toFinset, hop, e⟩ ∨ OnRoute G K K w hops x := by
  constructor
  · rintro (⟨h₁, h₂, h₃, h₄, h₅⟩ | ⟨e', w', q', hhop', h⟩)
    · left
      rw [PortGraph.edges_of_hop hhop, Option.some.injEq] at h₅
      obtain ⟨xv, xlabel, xdown, xport, xlink⟩ := x
      simp_all
    · obtain ⟨rfl, rfl, rfl⟩ := PortGraph.hop_det hhop hhop'
      exact .inr h
  · rintro (rfl | h)
    · exact .inl ⟨rfl, rfl, rfl, rfl, PortGraph.edges_of_hop hhop⟩
    · exact .inr ⟨e, w, q, hhop, h⟩

/-- What a hop of a shortest path tells of the rest of the path. -/
structure RouteFrom (G : PortGraph V E) (K : Finset E) (dst : V) (x : FcpHop V E)
    (post : List ℕ) : Prop where
  shortest : ShortestHops G K x.v (x.port :: post) dst
  edge : G.edges x.v x.port = some x.link
  up : x.link ∉ K
  down_eq : x.down = (localFailedE G K x.v).toFinset

lemma RouteFrom.exists_hop (h : RouteFrom G K dst x post) :
    ∃ w q, G.hop x.v x.port = some (x.link, w, q) ∧ ShortestHops G K w post dst := by
  obtain ⟨w, q, hhop⟩ := PortGraph.exists_hop_of_edges h.edge
  exact ⟨w, q, hhop, (h.shortest.tail hhop).2⟩

/-- The path goes on from a hop, and all hops but the first have the label `K`. -/
lemma OnRoute.rest (h : OnRoute G K A v hops x) (hs : ShortestHops G K v hops dst) :
    ∃ post, RouteFrom G K dst x post ∧
      (∀ y, OnRoute G K x.label x.v (x.port :: post) y → OnRoute G K A v hops y) ∧
      ((x.v = v ∧ x.label = A ∧ hops = x.port :: post) ∨
        (x.v ≠ v ∧ x.label = K ∧ post.length + 1 < hops.length)) := by
  induction hops generalizing v A with
  | nil => exact h.elim
  | cons hop hops ih =>
    obtain ⟨e, w, q, hhop⟩ := hs.exists_hop
    obtain ⟨he, htail⟩ := hs.tail hhop
    rcases (onRoute_cons hhop).mp h with rfl | h
    · exact ⟨hops, ⟨hs, PortGraph.edges_of_hop hhop, he, rfl⟩, fun y hy => hy,
        .inl ⟨rfl, rfl, rfl⟩⟩
    · obtain ⟨post, hfrom, hsub, hcases⟩ := ih h htail
      have hlabel : x.label = K := by
        rcases hcases with ⟨_, h, _⟩ | ⟨_, h, _⟩
        · exact h
        · exact h
      have hlen : post.length + 1 ≤ hops.length := by
        rcases hcases with ⟨_, _, rfl⟩ | ⟨_, _, hlt⟩
        · exact Nat.le_refl _
        · exact hlt.le
      refine ⟨post, hfrom, fun y hy => (onRoute_cons hhop).mpr (.inr (hsub y hy)), .inr
        ⟨fun hv => ?_, hlabel, ?_⟩⟩
      · have hlen' := hfrom.shortest
        rw [hv] at hlen'
        have := hlen'.length_eq hs
        simp only [List.length_cons] at this
        omega
      · rw [List.length_cons]
        omega

lemma OnRoute.label_cases (h : OnRoute G K A v hops x) (hs : ShortestHops G K v hops dst) :
    x.label = if x.v = v then A else K := by
  obtain ⟨_, _, _, ⟨hv, hlabel, _⟩ | ⟨hv, hlabel, _⟩⟩ := h.rest hs
  · rw [if_pos hv, hlabel]
  · rw [if_neg hv, hlabel]

/-- The label and the failed links of the switch tell what the path knows. -/
lemma OnRoute.known (h : OnRoute G K A v hops x) (hs : ShortestHops G K v hops dst)
    (hA : A ∪ (localFailedE G K v).toFinset = K) : x.label ∪ x.down = K := by
  obtain ⟨_, hfrom, _, ⟨hv, hlabel, _⟩ | ⟨_, hlabel, _⟩⟩ := h.rest hs
  · rw [hlabel, hfrom.down_eq, hv, hA]
  · rw [hlabel, hfrom.down_eq, Finset.union_eq_left]
    exact fun f hf => (mem_localFailedE_toFinset.mp hf).1

/-- A failed link sends the packet back from the switch of the hop over it. -/
lemma OnRoute.at_fail (h : OnRoute G K A v hops x) (hs : ShortestHops G K v hops dst) :
    ∃ r fwd, revpathAtFail G (insert x.link K) v hops = some (x.v, r) ∧
      reversePath G x.v r = some (v, fwd) := by
  induction hops generalizing v A with
  | nil => exact h.elim
  | cons hop hops ih =>
    obtain ⟨e, w, q, hhop⟩ := hs.exists_hop
    obtain ⟨he, htail⟩ := hs.tail hhop
    rcases (onRoute_cons hhop).mp h with rfl | h
    · refine ⟨[], [], ?_, rfl⟩
      simp only [revpathAtFail, hhop, Option.bind_eq_bind, Option.bind_some,
        if_pos (Finset.mem_insert_self e K)]
    · obtain ⟨post, hfrom, _, hcases⟩ := h.rest htail
      -- a shortest path does not take the link of its first hop again
      have hne : e ≠ x.link := by
        rintro rfl
        obtain ⟨w', q', hhop', hpost⟩ := hfrom.exists_hop
        have hlen : post.length + 1 ≤ hops.length := by
          rcases hcases with ⟨_, _, rfl⟩ | ⟨_, _, hlt⟩
          · exact Nat.le_refl _
          · exact hlt.le
        by_cases hv : v = x.v
        · rw [hv] at hs
          have := hs.length_eq hfrom.shortest
          simp only [List.length_cons] at this
          omega
        · obtain ⟨_, rfl⟩ := PortGraph.hop_back hhop hhop' hv
          have := hs.length_eq hpost
          rw [List.length_cons] at this
          omega
      have hup : e ∉ insert x.link K := fun hin =>
        (Finset.mem_insert.mp hin).elim hne he
      obtain ⟨r, fwd, hrun, hback⟩ := ih h htail
      refine ⟨r ++ [q], hop :: fwd, ?_, ?_⟩
      · simp only [revpathAtFail, hhop, Option.bind_eq_bind, Option.bind_some, if_neg hup, hrun]
      · exact reversePath_concat.mpr ⟨w, fwd, e, hop, hback, PortGraph.hop_symm hhop, rfl⟩

lemma OnRoute.eq_of_link (hx : OnRoute G K A v hops x) (hy : OnRoute G K A v hops y)
    (hs : ShortestHops G K v hops dst) (hlink : x.link = y.link) :
    x.v = y.v ∧ x.label = y.label := by
  obtain ⟨r, _, hrun, _⟩ := hx.at_fail hs
  obtain ⟨r', _, hrun', _⟩ := hy.at_fail hs
  have hv : x.v = y.v := by
    rw [hlink, hrun', Option.some.injEq, Prod.mk.injEq] at hrun
    exact hrun.1.symm
  rw [hx.label_cases hs, hy.label_cases hs, hv]
  exact ⟨rfl, rfl⟩

lemma OnRoute.link_mem {arcs : List (V × E)} (hx : OnRoute G K A v hops x)
    (ha : arcSet G v hops = some arcs) : x.link ∈ arcs.map Prod.snd := by
  induction hops generalizing v A arcs with
  | nil => exact hx.elim
  | cons hop hops ih =>
    obtain ⟨e, w, q, arcs', hhop, ha', rfl⟩ := arcSet_cons.mp ha
    rw [List.map_cons]
    rcases (onRoute_cons hhop).mp hx with rfl | hx
    · exact List.mem_cons_self
    · exact List.mem_cons_of_mem _ (ih hx ha')

lemma exists_onRoute {arcs : List (V × E)} (ha : arcSet G v hops = some arcs)
    (he : e ∈ arcs.map Prod.snd) : ∃ x, OnRoute G K A v hops x ∧ x.link = e := by
  induction hops generalizing v A arcs with
  | nil =>
    obtain rfl := Option.some.inj ha
    cases he
  | cons hop hops ih =>
    obtain ⟨e', w, q, arcs', hhop, ha', rfl⟩ := arcSet_cons.mp ha
    rw [List.map_cons, List.mem_cons] at he
    rcases he with rfl | he
    · exact ⟨_, (onRoute_cons hhop).mpr (.inl rfl), rfl⟩
    · obtain ⟨x, hx, hlink⟩ := ih (A := K) ha' he
      exact ⟨x, (onRoute_cons hhop).mpr (.inr hx), hlink⟩

end ResSim
