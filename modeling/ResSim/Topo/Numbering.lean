import ResSim.Topo.BuildGraph

/-!
# Numbers of switches and links

For every file that `build_graph` reads, the numbers it gives tell switches and links apart, and
they do not depend on the order in which the sets `V` and `E` are listed. So two programs that
read the same file use the same numbers.
-/

namespace ResSim

namespace Topology

variable {inetAton : Text → Bool} {g g' : Graph} {v w s x : Text} {p q : ℕ} {e e' : Edge}

/-- What every file gives. -/
structure Sound (g : Graph) : Prop where
  verts_nodup : g.verts.Nodup
  /-- The second switch of a link was read as one word. -/
  one_word : ∀ e ∈ g.links, ' ' ∉ e.v2
  edges : ∀ v p e, dictGet (g.vertex v).edges p = some e →
    e ∈ g.links ∧ e.Ends v p ∧ p ∈ (g.vertex v).ports.map Prod.fst

lemma blank_not_mem_firstWord (t : Text) : ' ' ∉ firstWord t := by
  by_cases h : ' ' ∈ t
  · obtain ⟨a, b, rfl, ha⟩ := List.eq_append_cons_of_mem h
    rwa [firstWord_append_blank ha]
  · rwa [firstWord_eq_self h]

lemma Sound.getVertex (h : Sound g) (v : Text) : Sound (g.getVertex v) where
  verts_nodup := Graph.nodup_getVertex h.verts_nodup
  one_word := by simpa using h.one_word
  edges := by simpa using h.edges

/-- Attributes of a switch other than `ports` and `edges` do not matter. -/
lemma Sound.modify (h : Sound g) {f : Vertex → Vertex}
    (hf : ∀ a, (f a).edges = a.edges ∧ (f a).ports = a.ports) : Sound (g.modify v f) where
  verts_nodup := h.verts_nodup
  one_word := h.one_word
  edges w p e he := by
    rw [Graph.modify_vertex] at he ⊢
    by_cases hw : w = v
    · rw [if_pos hw, (hf _).1] at he
      rw [if_pos hw, (hf _).2]
      exact h.edges w p e he
    · rw [if_neg hw] at he ⊢
      exact h.edges w p e he

lemma Sound.setEdge (h : Sound g) (he : e ∈ g.links) (hends : e.Ends v p) {f : Vertex → Vertex}
    (hf : ∀ a, (f a).edges = dictSet a.edges p e ∧ ∃ t, (f a).ports = dictSet a.ports p t) :
    Sound (g.modify v f) where
  verts_nodup := h.verts_nodup
  one_word := h.one_word
  edges w p' e' he' := by
    rw [Graph.modify_vertex] at he' ⊢
    by_cases hw : w = v
    · subst hw
      obtain ⟨t, ht⟩ := (hf (g.vertex w)).2
      rw [if_pos rfl, (hf _).1, dictGet_dictSet] at he'
      rw [if_pos rfl, ht, mem_keys_dictSet]
      by_cases hp : p' = p
      · subst hp
        rw [if_pos rfl, Option.some.injEq] at he'
        subst he'
        exact ⟨he, hends, .inl rfl⟩
      · rw [if_neg hp] at he'
        obtain ⟨hin, hends', hport⟩ := h.edges w p' e' he'
        exact ⟨hin, hends', .inr hport⟩
    · rw [if_neg hw] at he' ⊢
      exact h.edges w p' e' he'

lemma Sound.getEdge (h : Sound g) (ht : ' ' ∉ w) :
    Sound (g.getEdge v p w q).1 ∧ (g.getEdge v p w q).2 ∈ (g.getEdge v p w q).1.links ∧
      (g.getEdge v p w q).2.Ends v p ∧ (g.getEdge v p w q).2.Ends w q := by
  unfold Graph.getEdge
  split
  · rename_i hin
    exact ⟨h, hin, .inl rfl, .inr rfl⟩
  · split
    · rename_i hin
      exact ⟨h, hin, .inr rfl, .inl rfl⟩
    · refine ⟨⟨h.verts_nodup, fun e he => ?_, fun v p e he => ?_⟩, by simp, .inl rfl, .inr rfl⟩
      · rcases List.mem_append.mp he with he | he
        · exact h.one_word e he
        · rw [List.mem_singleton.mp he]
          exact ht
      · obtain ⟨hin, hrest⟩ := h.edges v p e he
        exact ⟨List.mem_append_left _ hin, hrest⟩

lemma Sound.readPort (h : Sound g) {entry : ℕ × Text}
    (hrun : readPort inetAton v g entry = some g') : Sound g' := by
  have htot := h.modify (v := v) (f := fun x => { x with totPorts := x.totPorts + 1 })
    fun _ => ⟨rfl, rfl⟩
  unfold Topology.readPort at hrun
  obtain ⟨otherp, -, hrun⟩ := Option.bind_eq_some_iff.mp hrun
  dsimp only at hrun
  split at hrun
  · obtain rfl := Option.some.inj hrun
    exact htot.modify fun _ => ⟨rfl, rfl⟩
  · obtain rfl := Option.some.inj hrun
    obtain ⟨hg, he, hends, hends'⟩ := (htot.getVertex (firstWord entry.2)).getEdge
      (v := v) (p := entry.1) (q := otherp) (blank_not_mem_firstWord entry.2)
    exact (hg.setEdge he hends fun _ => ⟨rfl, _, rfl⟩).setEdge he hends' fun _ => ⟨rfl, _, rfl⟩

lemma Sound.readSwitches (h : Sound g) {file : List (Text × List (ℕ × Text))}
    (hrun : file.foldlM (readSwitch inetAton) g = some g') : Sound g' := by
  induction file generalizing g with
  | nil =>
    obtain rfl := Option.some.inj hrun
    exact h
  | cons sw file ih =>
    rw [List.foldlM_cons] at hrun
    obtain ⟨g₁, hsw, hrest⟩ := Option.bind_eq_some_iff.mp hrun
    refine ih ?_ hrest
    unfold readSwitch at hsw
    -- the entries of one switch
    have hports : ∀ (ports : List (ℕ × Text)) (g : Graph), Sound g →
        ports.foldlM (Topology.readPort inetAton sw.1) g = some g₁ → Sound g₁ := by
      intro ports
      induction ports with
      | nil =>
        intro g hg hrun
        obtain rfl := Option.some.inj hrun
        exact hg
      | cons y ports ihp =>
        intro g hg hrun
        rw [List.foldlM_cons] at hrun
        obtain ⟨g₂, hy, hrest⟩ := Option.bind_eq_some_iff.mp hrun
        exact ihp g₂ (hg.readPort hy) hrest
    exact hports sw.2 _ (h.getVertex sw.1) hsw

lemma sound_nil : Sound {} :=
  ⟨List.nodup_nil, fun _ he => absurd he List.not_mem_nil, fun _ _ _ he => by simp [dictGet] at he⟩

section Order

variable {listV listV' : List Text → List Text} {listE listE' : List Edge → List Edge}
  {file : List (Text × List (ℕ × Text))}

lemma append_comma_inj {a a' d d' : Text} (hd : ' ' ∉ d) (hd' : ' ' ∉ d')
    (h : a ++ ", ".toList ++ d = a' ++ ", ".toList ++ d') : a = a' ∧ d = d' := by
  have hsep : ∀ a d : Text, a ++ ", ".toList ++ d = (a ++ ",".toList) ++ ' ' :: d := by
    intro a d
    rw [List.append_assoc, List.append_assoc]
    rfl
  rw [hsep, hsep] at h
  obtain ⟨h, hdd⟩ := append_blank_inj hd hd' h
  exact ⟨List.append_cancel_right h, hdd⟩

lemma name_injective (he : ' ' ∉ e.v2) (he' : ' ' ∉ e'.v2) (h : e.name = e'.name) : e = e' := by
  have h := List.append_cancel_right (show _ ++ ")".toList = _ ++ ")".toList from h)
  -- the parts of the name, from the last one to the first
  obtain ⟨h, hp2⟩ := append_comma_inj (blank_not_mem_digits e.p2) (blank_not_mem_digits e'.p2) h
  obtain ⟨h, hv2⟩ := append_comma_inj he he' h
  obtain ⟨h, hp1⟩ := append_comma_inj (blank_not_mem_digits e.p1) (blank_not_mem_digits e'.p1) h
  have hv1 : e.v1 = e'.v1 := List.append_cancel_left h
  cases e
  cases e'
  simp only [Edge.mk.injEq]
  exact ⟨hv1, digits_injective hp1, hv2, digits_injective hp2⟩

lemma pairwise_sort {α : Type} (f : α → Text) (l : List α) :
    (l.insertionSort (fun x y => textLe (f x) (f y))).Pairwise
      (fun x y => textLe (f x) (f y)) := by
  have : Std.Total (fun x y : α => textLe (f x) (f y) = true) :=
    ⟨fun x y => textLe_total (f x) (f y)⟩
  have : IsTrans α (fun x y => textLe (f x) (f y) = true) := ⟨fun x y z => textLe_trans⟩
  exact List.pairwise_insertionSort _ l

lemma vlist_perm (hV : ∀ l, (listV l).Perm l) : (g.vlist listV).Perm g.verts :=
  (List.perm_insertionSort _ _).trans (hV _)

lemma elist_perm (hE : ∀ l, (listE l).Perm l) : (g.elist listE).Perm g.links :=
  (List.perm_insertionSort _ _).trans (hE _)

/-- The switches are numbered alike in whatever order `V` is listed. -/
lemma vlist_eq (hV : ∀ l, (listV l).Perm l) (hV' : ∀ l, (listV' l).Perm l) :
    g.vlist listV = g.vlist listV' :=
  List.Perm.eq_of_pairwise (fun _ _ _ _ => textLe_antisymm) (pairwise_sort id (listV g.verts))
    (pairwise_sort id (listV' g.verts)) ((vlist_perm hV).trans (vlist_perm hV').symm)

/-- The links are numbered alike in whatever order `E` is listed. -/
lemma elist_eq (h : Sound g) (hE : ∀ l, (listE l).Perm l) (hE' : ∀ l, (listE' l).Perm l) :
    g.elist listE = g.elist listE' := by
  have hanti : ∀ a b, a ∈ g.elist listE → b ∈ g.elist listE' →
      textLe a.name b.name = true → textLe b.name a.name = true → a = b := by
    intro a b ha hb hab hba
    exact name_injective (h.one_word a ((elist_perm hE).mem_iff.mp ha))
      (h.one_word b ((elist_perm hE').mem_iff.mp hb)) (textLe_antisymm hab hba)
  exact List.Perm.eq_of_pairwise hanti (pairwise_sort Edge.name (listE g.links))
    (pairwise_sort Edge.name (listE' g.links)) ((elist_perm hE).trans (elist_perm hE').symm)

/-- The graph does not depend on the order in which the sets are listed. -/
theorem buildGraph_order (hV : ∀ l, (listV l).Perm l) (hV' : ∀ l, (listV' l).Perm l)
    (hE : ∀ l, (listE l).Perm l) (hE' : ∀ l, (listE' l).Perm l) :
    buildGraph inetAton listV listE file = buildGraph inetAton listV' listE' file := by
  unfold buildGraph
  cases hrun : file.foldlM (readSwitch inetAton) {} with
  | none => rfl
  | some g =>
    have hs := sound_nil.readSwitches hrun
    have hnum : g.number listV listE = g.number listV' listE' := by
      unfold Graph.number
      rw [vlist_eq hV hV', elist_eq hs hE hE']
    simp only [Option.bind_eq_bind, Option.bind_some, hnum]

/-- The numbers of a graph that was read. -/
structure Numbering (g : Graph) : Prop extends Sound g where
  vnum_inj : ∀ v ∈ g.verts, ∀ w ∈ g.verts, (g.vertex v).vnum = (g.vertex w).vnum → v = w
  enum_inj : ∀ e ∈ g.links, ∀ e' ∈ g.links, g.enum e = g.enum e' → e = e'
  /-- There is a destination. -/
  exists_host : g.verts ≠ [] → ∃ v ∈ g.verts, 0 < (g.vertex v).numhosts

lemma addHosts_vertex_numhosts (g : Graph) (hne : g.verts ≠ []) :
    ∃ v ∈ g.verts, 0 < (g.addHosts.vertex v).numhosts := by
  unfold Graph.addHosts
  split
  · obtain ⟨v, hv⟩ := List.exists_mem_of_ne_nil _ hne
    refine ⟨v, hv, ?_⟩
    simp only [if_pos hv]
    omega
  · rename_i hall
    rw [List.all_eq_true] at hall
    push Not at hall
    obtain ⟨v, hv, hzero⟩ := hall
    rw [ne_eq, decide_eq_true_eq] at hzero
    exact ⟨v, hv, by omega⟩

lemma buildGraph_numbering (hV : ∀ l, (listV l).Perm l) (hE : ∀ l, (listE l).Perm l)
    (hrun : buildGraph inetAton listV listE file = some g) : Numbering g := by
  unfold buildGraph at hrun
  obtain ⟨g₀, hread, hrun⟩ := Option.bind_eq_some_iff.mp hrun
  obtain rfl := Option.some.inj hrun
  have hs := sound_nil.readSwitches hread
  have hverts : (g₀.number listV listE).addHosts.verts = g₀.verts := Graph.addHosts_verts
  have hlinks : (g₀.number listV listE).addHosts.links = g₀.links := Graph.addHosts_links
  have hvnum : ∀ v ∈ g₀.verts,
      ((g₀.number listV listE).addHosts.vertex v).vnum = (g₀.vlist listV).idxOf v := by
    intro v hv
    obtain ⟨n, hn⟩ := (g₀.number listV listE).addHosts_vertex v
    rw [hn]
    simp only [Graph.number, if_pos hv]
  have henum : ∀ e ∈ g₀.links,
      (g₀.number listV listE).addHosts.enum e = (g₀.elist listE).idxOf e := by
    intro e he
    rw [Graph.addHosts_enum]
    exact if_pos he
  refine ⟨⟨?_, ?_, ?_⟩, ?_, ?_, ?_⟩
  · rw [hverts]
    exact hs.verts_nodup
  · rw [hlinks]
    exact hs.one_word
  · intro v p e he
    obtain ⟨n, hn⟩ := (g₀.number listV listE).addHosts_vertex v
    obtain ⟨m, hm⟩ := g₀.number_vertex listV listE v
    rw [hn, hm] at he ⊢
    rw [hlinks]
    exact hs.edges v p e he
  · intro v hv w hw heq
    rw [hverts] at hv hw
    rw [hvnum v hv, hvnum w hw, Int.ofNat_inj] at heq
    exact (List.idxOf_inj ((vlist_perm hV).mem_iff.mpr hv)).mp heq
  · intro e he e' he' heq
    rw [hlinks] at he he'
    rw [henum e he, henum e' he', Int.ofNat_inj] at heq
    exact (List.idxOf_inj ((elist_perm hE).mem_iff.mpr he)).mp heq
  · intro hne
    rw [hverts] at hne ⊢
    exact addHosts_vertex_numhosts (g₀.number listV listE) hne

end Order

end Topology

end ResSim
