import ResSim.Fcp.Route

/-!
# Entries of FCP tables

The entries of a table are the hops of the paths that were stored, one for each key. A path
that is redirected onto an entry follows the path that the entry was stored for to its end, so
it gets no shorter or longer; but the loop reads the ports of the path as it was, and stops
where they lead nowhere.
-/

namespace ResSim

variable {V E : Type} [DecidableEq V] [DecidableEq E] {G : PortGraph V E}

/-- The hops of a path, with their keys. -/
def FcpPath.Makes (N : FcpPath G) (x : FcpHop V E) : Prop :=
  OnRoute G N.failedE N.firsthopE N.v N.fullPath x

/-- Both tables hold the same paths, each with one port. -/
structure FcpTables.Sane (t : FcpTables G) : Prop where
  fwd_iff : ∀ v A e D P, ((v, A, e, D), P) ∈ t.fwdtable ↔
    dictGet t.memberTrees (v, A, D) = some P ∧ ∃ hop, P.path = [hop] ∧ G.edges v hop = some e
  fwd_nodup : (t.fwdtable.map Prod.fst).Nodup
  nodup : (t.memberTrees.map Prod.fst).Nodup

/-- The table has the entry that makes a hop. -/
def FcpTables.Has (t : FcpTables G) (x : FcpHop V E) : Prop :=
  ∃ P, dictGet t.memberTrees x.key = some P ∧ P.path = [x.port]

/-- A table that holds the paths in `T`. -/
structure FcpTableOf (T : Set (FcpPath G)) (t : FcpTables G) : Prop where
  sane : t.Sane
  sound : ∀ k P, dictGet t.memberTrees k = some P → ∃ N ∈ T, ∃ x, N.Makes x ∧ x.key = k ∧
    P.path = [x.port]
  complete : ∀ N ∈ T, ∀ x, N.Makes x → t.Has x

/-- A path of the rounds. -/
structure IsFcpBranch (dst : V) (N : FcpPath G) : Prop where
  branch : IsBranch dst N.v N.failedE N.extraRPath N.toPath
  shortest : ShortestHops G N.failedE N.v N.fullPath dst
  firsthop : N.firsthopV = N.v
  label : N.firsthopE ∪ (localFailedE G N.failedE N.v).toFinset = N.failedE

variable {T : Set (FcpPath G)} {t t' : FcpTables G} {N : FcpPath G} {P : Path G}
  {K A B : Finset E} {u v w dst : V} {path hops rp post : List ℕ} {hop q : ℕ} {e : E}
  {x y : FcpHop V E} {k : V × Finset E × Finset E}

lemma FcpTables.Has.port_eq (h : t.Has x) (h' : t.Has y) (hkey : x.key = y.key) :
    x.port = y.port := by
  obtain ⟨P, hP, hx⟩ := h
  obtain ⟨Q, hQ, hy⟩ := h'
  rw [hkey, hQ, Option.some.injEq] at hP
  subst hP
  exact List.singleton_injective (hx.symm.trans hy)

lemma FcpTables.Sane.add (ht : t.Sane) (hk : dictGet t.memberTrees (v, A, B) = none)
    (hP : P.path = [hop]) (he : G.edges v hop = some e) : (t.add v A e B P).Sane := by
  have hkey := dictGet_eq_none.mp hk
  have hfwd : ∀ e', (v, A, e', B) ∉ t.fwdtable.map Prod.fst := by
    intro e' hin
    obtain ⟨⟨k', Q⟩, hQ, rfl⟩ := List.mem_map.mp hin
    have hmem := ((ht.fwd_iff ..).mp hQ).1
    rw [hk] at hmem
    cases hmem
  refine ⟨fun v' A' e' B' Q => ?_, nodup_keys_dictSet ht.fwd_nodup, nodup_keys_dictSet ht.nodup⟩
  simp only [FcpTables.add]
  rw [mem_dictSet_iff, dictGet_dictSet_of_not_mem hkey, ht.fwd_iff]
  by_cases heq : (v', A', B') = (v, A, B)
  · obtain ⟨rfl, hAB⟩ := Prod.mk.inj heq
    obtain ⟨rfl, rfl⟩ := Prod.mk.inj hAB
    rw [if_pos rfl, hk]
    constructor
    · rintro (h | ⟨⟨h, _⟩, _⟩)
      · obtain ⟨h, rfl⟩ := Prod.mk.inj h
        simp only [Prod.mk.injEq, true_and, and_true] at h
        subst h
        exact ⟨rfl, hop, hP, he⟩
      · cases h
    · rintro ⟨h, hop', hQ, he'⟩
      obtain rfl := Option.some.inj h
      rw [hP] at hQ
      obtain rfl := List.singleton_injective hQ
      rw [he, Option.some.injEq] at he'
      subst he'
      exact .inl rfl
  · rw [if_neg heq]
    constructor
    · rintro (h | h)
      · simp only [Prod.mk.injEq] at h heq
        exact absurd ⟨h.1.1, h.1.2.1, h.1.2.2.2⟩ heq
      · exact h.1
    · intro h
      refine .inr ⟨h, fun hk' => heq ?_⟩
      simp only [Prod.mk.injEq] at hk' ⊢
      exact ⟨hk'.1, hk'.2.1, hk'.2.2.2⟩

/-- Entries are never removed. -/
def FcpTables.Extends (t t' : FcpTables G) : Prop :=
  ∀ k P, dictGet t.memberTrees k = some P → dictGet t'.memberTrees k = some P

lemma FcpTables.Extends.has (h : t.Extends t') (hx : t.Has x) : t'.Has x := by
  obtain ⟨P, hP, hport⟩ := hx
  exact ⟨P, h _ _ hP, hport⟩

lemma FcpTables.extends_add (hk : dictGet t.memberTrees (v, A, B) = none) :
    t.Extends (t.add v A e B P) := by
  intro k Q hQ
  simp only [FcpTables.add]
  rw [dictGet_dictSet_of_not_mem (dictGet_eq_none.mp hk), if_neg]
  · exact hQ
  · rintro rfl
    rw [hk] at hQ
    cases hQ

lemma FcpTables.has_add (hk : dictGet t.memberTrees x.key = none) (hP : P.path = [x.port]) :
    (t.add x.v x.label x.link x.down P).Has x := by
  refine ⟨P, ?_, hP⟩
  simp only [FcpTables.add]
  exact (dictGet_dictSet_of_not_mem (dictGet_eq_none.mp hk)).trans (if_pos rfl)

/-! ### Redirection -/

/-- The port of an entry. -/
def FcpTables.port (t : FcpTables G) (k : V × Finset E × Finset E) : Option ℕ :=
  (dictGet t.memberTrees k).bind (fun P => P.path.head?)

/-- A new path can be stored: at every switch that the packets get to, over the entries that
there are already or else over the path, the ports that are left of the path are no ports of
the switch, or lead on over links that are not known to have failed. -/
def SpliceOk (t : FcpTables G) (failedE neId : Finset E) : Finset E → V → List ℕ → Prop
  | _, _, [] => True
  | eId, curr, hop :: rest =>
    ((G.edges curr hop).isSome → ∃ u, G.Leads failedE curr (hop :: rest) u) ∧
    ∀ ncurr, G.ports curr ((t.port (curr, eId, (localFailedE G failedE curr).toFinset)).getD hop) =
      some ncurr → SpliceOk t failedE neId neId ncurr rest

lemma FcpTables.Has.port (h : t.Has x) : t.port x.key = some x.port := by
  obtain ⟨P, hP, hport⟩ := h
  rw [FcpTables.port, hP, Option.bind_some, hport]
  rfl

/-- The constructor accepts the paths that lead somewhere over links that are up. -/
lemma mkPath_isSome (path rp : List ℕ) : (mkPath G v path hops K rp).isSome ↔ ∃ u, G.Leads K v hops u := by
  constructor
  · intro h
    obtain ⟨P, hP⟩ := Option.isSome_iff_exists.mp h
    unfold mkPath at hP
    split at hP
    · rename_i hr ha
      split at hP
      · rename_i hd
        exact ⟨_, leads_of_arcSet hr ha hd⟩
      · cases hP
    · cases hP
  · rintro ⟨u, hu⟩
    obtain ⟨P, hP, _⟩ := exists_mkPath path hu rp
    rw [hP]
    rfl

lemma currpath_cases (curr : V) (hop : ℕ) (rest rp : List ℕ) :
    ((∃ o, (if (G.edges curr hop).isSome then
        (mkPath G curr [hop] (hop :: rest) K rp).map some else some none) = some o) ∧
      ((G.edges curr hop).isSome → ∃ u, G.Leads K curr (hop :: rest) u)) ∨
    ((if (G.edges curr hop).isSome then
        (mkPath G curr [hop] (hop :: rest) K rp).map some else some none) = none ∧
      ¬ ((G.edges curr hop).isSome → ∃ u, G.Leads K curr (hop :: rest) u)) := by
  by_cases hport : (G.edges curr hop).isSome
  · rw [if_pos hport, ← mkPath_isSome [hop] rp]
    cases mkPath G curr [hop] (hop :: rest) K rp with
    | none => exact .inr ⟨rfl, fun h => Bool.false_ne_true (h hport)⟩
    | some P => exact .inl ⟨⟨some P, rfl⟩, fun _ => rfl⟩
  · rw [if_neg hport]
    exact .inl ⟨⟨none, rfl⟩, fun h => absurd h hport⟩

/-- From the first entry on, the packets follow the path that it was stored for. -/
lemma fcpHops_redirected {t₀ : FcpTables G} (hops : List ℕ)
    (hhas : ∀ y, OnRoute G K A v hops y → t.Has y ∧ t₀.Has y) (hl : G.Leads K v hops dst)
    (hlen : path.length = hops.length) (rp : List ℕ) :
    (SpliceOk t₀ K K A v path → fcpHops G K K A v rp path t = some (t, hops, !path.isEmpty)) ∧
    (¬ SpliceOk t₀ K K A v path → fcpHops G K K A v rp path t = none) := by
  induction hops generalizing A v path rp with
  | nil =>
    obtain rfl := List.length_eq_zero_iff.mp hlen
    exact ⟨fun _ => rfl, fun h => absurd trivial h⟩
  | cons h hops ih =>
    obtain ⟨hop, rest, rfl⟩ := List.exists_cons_of_length_eq_add_one hlen
    obtain ⟨e, w, q, hhop, _, hl⟩ := hl
    obtain ⟨⟨P, hP, hport⟩, h₀⟩ := hhas _ ((onRoute_cons hhop).mpr (.inl rfl))
    have hrest := fun y hy => hhas y ((onRoute_cons hhop).mpr (.inr hy))
    have hlen' : rest.length = hops.length := by simpa using hlen
    obtain ⟨ih₁, ih₂⟩ := ih hrest hl hlen' (q :: rp)
    have hnext : ∀ ncurr, G.ports v ((t₀.port (v, A, (localFailedE G K v).toFinset)).getD hop) =
        some ncurr ↔ w = ncurr := by
      intro ncurr
      have hget : t₀.port (v, A, (localFailedE G K v).toFinset) = some h := h₀.port
      rw [hget, Option.getD_some, PortGraph.ports_of_hop hhop, Option.some.injEq]
    have hok : SpliceOk t₀ K K A v (hop :: rest) ↔
        ((G.edges v hop).isSome → ∃ u, G.Leads K v (hop :: rest) u) ∧
          SpliceOk t₀ K K K w rest := by
      simp only [SpliceOk, hnext, forall_eq']
    rw [hok]
    have hget : dictGet t.memberTrees (v, A, (localFailedE G K v).toFinset) = some P := hP
    dsimp only at hport
    have hrun : fcpHops G K K A v rp (hop :: rest) t =
        (if (G.edges v hop).isSome then
          (mkPath G v [hop] (hop :: rest) K rp).map some else some none).bind (fun _ =>
        (fcpHops G K K K w (q :: rp) rest t).bind (fun r =>
          some (r.1, h :: r.2.1, true))) := by
      simp only [fcpHops, hget, hport, List.head?_cons, hhop, Option.bind_eq_bind,
        Option.bind_some]
      split
      · rfl
      · rfl
    rw [hrun]
    rcases currpath_cases (K := K) v hop rest rp with ⟨⟨o, ho⟩, hread⟩ | ⟨hnone, hread⟩
    · rw [ho, Option.bind_some]
      refine ⟨fun hsplice => ?_, fun hsplice => ?_⟩
      · rw [ih₁ hsplice.2]
        rfl
      · rw [ih₂ (fun hin => hsplice ⟨hread, hin⟩)]
        rfl
    · rw [hnone]
      exact ⟨fun hsplice => absurd hsplice.1 hread, fun _ => rfl⟩

/-- What storing a path does: packets make the hops `hops`, and the table has them. -/
structure Stores (K A : Finset E) (v dst : V) (path : List ℕ) (t t' : FcpTables G)
    (hops : List ℕ) (redirected : Bool) : Prop where
  shortest : ShortestHops G K v hops dst
  unchanged : redirected = false → hops = path
  sane : t'.Sane
  extends_ : t.Extends t'
  has : ∀ x, OnRoute G K A v hops x → t'.Has x
  sound : ∀ k P, dictGet t'.memberTrees k = some P → dictGet t.memberTrees k = some P ∨
    ∃ x, OnRoute G K A v hops x ∧ x.key = k ∧ P.path = [x.port]

omit [DecidableEq V] in
lemma union_localFailedE_self : K ∪ (localFailedE G K v).toFinset = K :=
  Finset.union_eq_left.mpr (fun _ hf => (mem_localFailedE_toFinset.mp hf).1)

lemma Stores.cons {rest : List ℕ} {b : Bool} (hs : ShortestHops G K v (hop :: rest) dst)
    (hhop : G.hop v hop = some (e, w, q)) (hget : dictGet t.memberTrees (v, A, B) = none)
    (hP : P.path = [hop]) (hB : B = (localFailedE G K v).toFinset)
    (h : Stores K K w dst rest (t.add v A e B P) t' hops b) :
    Stores K A v dst (hop :: rest) t t' (hop :: hops) b := by
  subst hB
  obtain ⟨_, htail⟩ := hs.tail hhop
  have hext : t.Extends (t.add v A e (localFailedE G K v).toFinset P) :=
    FcpTables.extends_add hget
  refine ⟨?_, ?_, h.sane, fun k Q hQ => h.extends_ k Q (hext k Q hQ), ?_, ?_⟩
  · refine hs.of_length_eq ?_ ?_
    · obtain ⟨_, _, _, hhop', he, _⟩ := hs.1
      obtain ⟨rfl, rfl, rfl⟩ := PortGraph.hop_det hhop hhop'
      exact ⟨e, w, q, hhop, he, h.shortest.1⟩
    · rw [List.length_cons, List.length_cons, h.shortest.length_eq htail]
  · intro hred
    rw [h.unchanged hred]
  · intro x hx
    rcases (onRoute_cons hhop).mp hx with rfl | hx
    · exact h.extends_.has (FcpTables.has_add hget hP)
    · exact h.has x hx
  · intro k Q hQ
    rcases h.sound k Q hQ with hin | ⟨x, hx, hk, hport⟩
    · have hget₁ : dictGet (t.add v A e (localFailedE G K v).toFinset P).memberTrees k =
          if k = (v, A, (localFailedE G K v).toFinset) then some P else
            dictGet t.memberTrees k := dictGet_dictSet_of_not_mem (dictGet_eq_none.mp hget)
      rw [hget₁] at hin
      split at hin
      · rename_i hk
        obtain rfl := Option.some.inj hin
        exact .inr ⟨_, (onRoute_cons hhop).mpr (.inl rfl), hk.symm, hP⟩
      · exact .inl hin
    · exact .inr ⟨x, (onRoute_cons hhop).mpr (.inr hx), hk, hport⟩

lemma FcpTableOf.exists_route (ht : FcpTableOf T t) (hT : ∀ N ∈ T, IsFcpBranch dst N)
    (hA : A ∪ (localFailedE G K v).toFinset = K)
    (hget : dictGet t.memberTrees (v, A, (localFailedE G K v).toFinset) = some P) :
    ∃ hops, ShortestHops G K v hops dst ∧ ∀ y, OnRoute G K A v hops y → t.Has y := by
  obtain ⟨N, hN, x, hx, hkey, _⟩ := ht.sound _ _ hget
  obtain ⟨hv, hkey⟩ := Prod.mk.inj hkey
  obtain ⟨hlabel, hdown⟩ := Prod.mk.inj hkey
  have hknown := OnRoute.known hx (hT N hN).shortest (hT N hN).label
  rw [hlabel, hdown, hA] at hknown
  obtain ⟨post, hfrom, hsub, _⟩ := OnRoute.rest hx (hT N hN).shortest
  have hshort := hfrom.shortest
  rw [← hknown, hlabel, hv] at hsub
  rw [← hknown, hv] at hshort
  refine ⟨x.port :: post, hshort, fun y hy => ht.complete N hN y ?_⟩
  rw [FcpPath.Makes, ← hknown]
  exact hsub y hy

section Splice

variable {t₀ : FcpTables G} (h₀ : FcpTableOf T t₀) (hT : ∀ N ∈ T, IsFcpBranch dst N)
include h₀ hT

/-- A new path is stored up to the first entry that there is already, and redirected from
there; no result where it is read at a switch that it does not lead on from. -/
lemma fcpHops_spec (ht : t.Sane) (hext : t₀.Extends t)
    (hold : ∀ k P, dictGet t.memberTrees k = some P → dictGet t₀.memberTrees k = some P ∨
      ∃ hops, ShortestHops G K k.1 hops dst ∧ path.length < hops.length)
    (hs : ShortestHops G K v path dst) (hA : A ∪ (localFailedE G K v).toFinset = K)
    (rp : List ℕ) :
    (SpliceOk t₀ K K A v path → ∃ t' hops redirected,
      fcpHops G K K A v rp path t = some (t', hops, redirected) ∧
        Stores K A v dst path t t' hops redirected) ∧
    (¬ SpliceOk t₀ K K A v path → fcpHops G K K A v rp path t = none) := by
  induction path generalizing A v t rp with
  | nil =>
    exact ⟨fun _ => ⟨t, [], false, rfl, hs, fun _ => rfl, ht, fun _ _ h => h,
      fun _ hx => hx.elim, fun _ _ h => .inl h⟩, fun h => absurd trivial h⟩
  | cons hop rest ih =>
    obtain ⟨e, w, q, hhop⟩ := hs.exists_hop
    obtain ⟨_, htail⟩ := hs.tail hhop
    cases hget : dictGet t.memberTrees (v, A, (localFailedE G K v).toFinset) with
    | some P =>
      have hget₀ : dictGet t₀.memberTrees (v, A, (localFailedE G K v).toFinset) = some P := by
        refine (hold _ _ hget).resolve_right ?_
        rintro ⟨hops, hshort, hlt⟩
        exact absurd (hs.length_eq hshort) hlt.ne
      obtain ⟨hops, hshort, hhas⟩ := h₀.exists_route hT hA hget₀
      have hhas' : ∀ y, OnRoute G K A v hops y → t.Has y ∧ t₀.Has y := fun y hy =>
        ⟨hext.has (hhas y hy), hhas y hy⟩
      obtain ⟨hrun, hstop⟩ :=
        fcpHops_redirected hops hhas' hshort.1 (hs.length_eq hshort) rp
      refine ⟨fun hok => ⟨t, hops, true, hrun hok, hshort, nofun, ht, fun _ _ h => h,
        fun x hx => (hhas' x hx).1, fun _ _ h => .inl h⟩, hstop⟩
    | none =>
      have hport : t₀.port (v, A, (localFailedE G K v).toFinset) = none := by
        rw [FcpTables.port, Option.bind_eq_none_iff]
        intro P hP
        rw [hext _ _ hP] at hget
        cases hget
      have hok : SpliceOk t₀ K K A v (hop :: rest) ↔ SpliceOk t₀ K K K w rest := by
        simp only [SpliceOk, hport, Option.getD_none, PortGraph.ports_of_hop hhop,
          Option.some.injEq, forall_eq']
        exact and_iff_right (fun _ => ⟨dst, hs.1⟩)
      obtain ⟨P, hP, _, hpath, _⟩ := exists_mkPath [hop] hs.1 rp
      have hkey := dictGet_eq_none.mp hget
      let t₁ := t.add v A e (localFailedE G K v).toFinset P
      have hget₁ : ∀ k, dictGet t₁.memberTrees k =
          if k = (v, A, (localFailedE G K v).toFinset) then some P else
            dictGet t.memberTrees k := fun k => dictGet_dictSet_of_not_mem hkey
      have hext₁ : t.Extends t₁ := FcpTables.extends_add hget
      have hold₁ : ∀ k Q, dictGet t₁.memberTrees k = some Q →
          dictGet t₀.memberTrees k = some Q ∨
            ∃ hops, ShortestHops G K k.1 hops dst ∧ rest.length < hops.length := by
        intro k Q hQ
        rw [hget₁] at hQ
        split at hQ
        · rename_i hk
          rw [hk]
          exact .inr ⟨hop :: rest, hs, Nat.lt_succ_self _⟩
        · refine (hold k Q hQ).imp_right ?_
          rintro ⟨hops, hshort, hlt⟩
          exact ⟨hops, hshort, (Nat.lt_succ_self _).trans hlt⟩
      obtain ⟨ih₁, ih₂⟩ := ih (ht.add hget hpath (PortGraph.edges_of_hop hhop))
        (fun k Q hQ => hext₁ k Q (hext k Q hQ)) hold₁ htail union_localFailedE_self (q :: rp)
      have hrun : fcpHops G K K A v rp (hop :: rest) t =
          (fcpHops G K K K w (q :: rp) rest t₁).bind (fun r =>
            some (r.1, hop :: r.2.1, r.2.2)) := by
        have hisSome : (G.edges v hop).isSome := by
          rw [PortGraph.edges_of_hop hhop]
          rfl
        simp only [fcpHops, hget, if_pos hisSome, hP, hhop, Option.bind_eq_bind,
          Option.map_some, Option.bind_some]
        rfl
      rw [hok, hrun]
      refine ⟨fun hsplice => ?_, fun hsplice => by rw [ih₂ hsplice]; rfl⟩
      obtain ⟨t', hops, redirected, hrun', hst⟩ := ih₁ hsplice
      exact ⟨t', hop :: hops, redirected, by rw [hrun']; rfl, hst.cons hs hhop hget hpath rfl⟩

end Splice

/-! ### New paths -/

lemma exists_branch_of_hops (h : ShortestHops G K v hops dst) (hne : hops ≠ []) (rp : List ℕ) :
    ∃ P, mkPath G v hops hops K rp = some P ∧ IsBranch dst v K rp P ∧ P.fullPath = hops := by
  obtain ⟨P, hP, hv, hpath, hfull, hrv, hfailed, hextra⟩ := exists_mkPath hops h.1 rp
  have harcs := P.arcSet_eq
  rw [hv, hfull] at harcs
  have hnodup : P.edges.Nodup := (shortest_of_shortestHops h harcs).nodup
    (fun e x y x' y' hy hy' => mygraphToIgraph_ends e x y x' y'
      (mem_mygraphToIgraph.mpr (mem_upAdj.mp hy).2)
      (mem_mygraphToIgraph.mpr (mem_upAdj.mp hy').2))
  exact ⟨P, hP, ⟨hv, hfailed, hextra, hrv, hpath.trans hfull.symm, hfull ▸ hne, hnodup⟩, hfull⟩

/-- Two paths from one switch for packets that know the same. -/
structure SameStart (N N' : FcpPath G) : Prop where
  v_eq : N'.v = N.v
  failedE_eq : N'.failedE = N.failedE
  firsthopE_eq : N'.firsthopE = N.firsthopE
  extra_eq : N'.extraRPath = N.extraRPath

lemma Stores.tableOf {b : Bool} (ht : FcpTableOf T t)
    (h : Stores N.failedE N.firsthopE N.v dst path t t' N.fullPath b) :
    FcpTableOf (insert N T) t' := by
  refine ⟨h.sane, fun k P hP => ?_, fun N' hN' x hx => ?_⟩
  · rcases h.sound k P hP with hold | ⟨x, hx, hk, hport⟩
    · obtain ⟨N', hN', x, hx⟩ := ht.sound k P hold
      exact ⟨N', Set.mem_insert_of_mem _ hN', x, hx⟩
    · exact ⟨N, Set.mem_insert .., x, hx, hk, hport⟩
  · rcases hN' with rfl | hN'
    · exact h.has x hx
    · exact h.extends_.has (ht.complete N' hN' x hx)

/-- Storing a new path, redirected where there are entries already. -/
theorem fcpInstall_spec (ht : FcpTableOf T t) (hT : ∀ N ∈ T, IsFcpBranch dst N)
    (hN : IsFcpBranch dst N) :
    (SpliceOk t N.failedE N.failedE N.firsthopE N.v N.path → ∃ t' N',
      fcpInstall G dst t N = some (t', N') ∧ SameStart N N' ∧ IsFcpBranch dst N' ∧
        FcpTableOf (insert N' T) t') ∧
    (¬ SpliceOk t N.failedE N.failedE N.firsthopE N.v N.path → fcpInstall G dst t N = none) := by
  have hs := hN.shortest
  rw [← hN.branch.path_eq] at hs
  obtain ⟨hok, hstop⟩ := fcpHops_spec ht hT ht.sane (fun _ _ h => h) (fun _ _ h => .inl h) hs
    hN.label N.extraRPath
  refine ⟨fun hsplice => ?_, fun hsplice => by rw [fcpInstall, hstop hsplice]; rfl⟩
  obtain ⟨t', hops, redirected, hrun, hst⟩ := hok hsplice
  cases redirected with
  | false =>
    obtain rfl := hst.unchanged rfl
    rw [hN.branch.path_eq] at hst
    refine ⟨t', N, ?_, ⟨rfl, rfl, rfl, rfl⟩, hN, hst.tableOf ht⟩
    simp only [fcpInstall, hrun, Option.bind_eq_bind, Option.bind_some]
    rfl
  | true =>
    have hne : hops ≠ [] := by
      rintro rfl
      have hlen := hst.shortest.length_eq hs
      rw [hN.branch.path_eq] at hlen
      exact hN.branch.ne_nil (List.length_eq_zero_iff.mp hlen.symm)
    obtain ⟨P, hP, hb, rfl⟩ := exists_branch_of_hops hst.shortest hne N.extraRPath
    have hbranch : IsFcpBranch dst { N with toPath := P } := by
      refine ⟨?_, ?_, ?_, ?_⟩
      · dsimp only
        rw [hb.v_eq, hb.failedE_eq, hb.extra_eq]
        exact hb
      · dsimp only
        rw [hb.v_eq, hb.failedE_eq]
        exact hst.shortest
      · dsimp only
        rw [hb.v_eq]
        exact hN.firsthop
      · dsimp only
        rw [hb.v_eq, hb.failedE_eq]
        exact hN.label
    have hst' : Stores P.failedE N.firsthopE P.v dst N.path t t' P.fullPath true := by
      rw [hb.v_eq, hb.failedE_eq]
      exact hst
    refine ⟨t', { N with toPath := P }, ?_, ⟨hb.v_eq, hb.failedE_eq, rfl, hb.extra_eq⟩, hbranch,
      hst'.tableOf (N := { N with toPath := P }) ht⟩
    simp only [fcpInstall, hrun, hP, guard, if_pos hb.rv_eq, Option.bind_eq_bind,
      Option.bind_some, if_true]
    rfl

end ResSim
