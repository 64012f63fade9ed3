import ResSim.Lib.Digraph
import ResSim.Lib.Worklist
import ResSim.Plinko.Walk

/-!
# Channel dependencies of a Plinko path

`plinko_path_cdg` follows a path and every backup path that packets can bounce onto, and
collects the pairs of arcs that follow each other. It looks a backup path up with the oldest
hop of the way back first, while the table has the most recent hop first. Where the entry
that a packet takes is stored under both, the graph has all pairs of arcs that a packet
crosses one after the other.
-/

namespace ResSim

variable {V E : Type} [DecidableEq V] [DecidableEq E] {G : PortGraph V E}

/-- An item of the stack: a path, the way back to where it starts, the switch there, and the
arc before it. -/
structure CdgItem (V E : Type) where
  cp : List ℕ
  crp : List ℕ
  cv : V
  parc : Option (V × E)

/-- The sets that are collected. -/
structure CdgSets (V E : Type) where
  arcs : List (V × E)
  dependencies : List ((V × E) × (V × E))
  nodup : dependencies.Nodup

/-- Adds an arc, and that it depends on the one before. -/
def CdgSets.add (acc : CdgSets V E) (parc : Option (V × E)) (carc : V × E) : CdgSets V E where
  arcs := acc.arcs.insert carc
  dependencies := parc.elim acc.dependencies (fun a => acc.dependencies.insert (a, carc))
  nodup := by
    cases parc with
    | none => exact acc.nodup
    | some a => exact acc.nodup.insert

/-- The items for the new paths at a switch. The paths for packets that just entered were used
to find the path itself, so they are skipped: `hop_i` is the length of `rev_path`. -/
def newItems (fwdtable : PlinkoTable G) (crp : List ℕ) (cv : V) (parc : Option (V × E))
    (revPath : List ℕ) : List (CdgItem V E) :=
  let nrp := crp ++ revPath
  (if 0 < revPath.length then fwdtable.entries cv nrp else []).map (fun x => ⟨x.2, nrp, cv, parc⟩)

/-- The loop over the hops of a path, with the items that it puts on the stack. -/
def cdgHops (G : PortGraph V E) (fwdtable : PlinkoTable G) (crp : List ℕ) :
    List ℕ → V → Option (V × E) → List ℕ → List (CdgItem V E) → CdgSets V E →
      Option (List (CdgItem V E) × CdgSets V E)
  | [], _, _, _, new, acc => some (new, acc)
  | hop :: cp, cv, parc, revPath, new, acc => do
    let (e, nv, rhop) ← G.hop cv hop
    -- `assert (parc.v != carc.v)`
    if parc.any (fun a => a.1 = cv) then none
    else
      let items := newItems fwdtable crp cv parc revPath
      -- `assert(parc != None)`
      if !items.isEmpty && parc.isNone then none
      else
        cdgHops G fwdtable crp cp nv (some (cv, e)) (revPath ++ [rhop]) (new ++ items)
          (acc.add parc (cv, e))

/-- What is done with an item of the stack. -/
def cdgVisit (G : PortGraph V E) (fwdtable : PlinkoTable G) (i : CdgItem V E)
    (acc : CdgSets V E) : Option (List (CdgItem V E) × CdgSets V E) :=
  cdgHops G fwdtable i.crp i.cp i.cv i.parc [] [] acc

/-- The arcs and the dependencies that `plinko_path_cdg` collects. -/
def pathDependencies (fuel : ℕ) (G : PortGraph V E) (fwdtable : PlinkoTable G) (path : List ℕ)
    (src : V) : Option (CdgSets V E) :=
  (Loop.run (Worklist.step (cdgVisit G fwdtable)) fuel
    ([⟨path, [], src, none⟩], ⟨[], [], List.nodup_nil⟩)).join

/-- `cdg.is_connected(igraph.WEAK)`. -/
def CdgSets.isConnected (acc : CdgSets V E) : Bool :=
  acc.arcs.all (fun a => acc.arcs.all (fun b =>
    reach (acc.dependencies ++ acc.dependencies.map Prod.swap) a b))

/-- The graph of a path, with its two assertions. -/
def plinkoPathCdg (fuel : ℕ) (G : PortGraph V E) (path : List ℕ) (src : V)
    (fwdtable : PlinkoTable G) : Option (CdgSets V E) := do
  let acc ← pathDependencies fuel G fwdtable path src
  if isDag acc.dependencies && acc.isConnected then some acc else none

variable {args : PlinkoArgs} {fwdRouting : FwdRouting} {T : Set (Path G)} {tbl : PlinkoTable G}
  {F : Finset E} {s : PlinkoWalk V} {src dst u v w : V} {crp rp out pre post k : List ℕ}
  {e : E} {parc : Option (V × E)} {i j : CdgItem V E} {acc acc' : CdgSets V E}
  {a : V × E} {arcs taken : List (V × E)}

lemma CdgSets.mem_add {d : (V × E) × (V × E)} :
    d ∈ (acc.add parc a).dependencies ↔ (∃ b ∈ parc, d = (b, a)) ∨ d ∈ acc.dependencies := by
  cases parc with
  | none => simp [CdgSets.add]
  | some b => simp [CdgSets.add]

/-! ### The hops of one path -/

/-- Where the loop is on the path of an item. -/
structure CdgAt (G : PortGraph V E) (i : CdgItem V E) (pre post : List ℕ) (u : V)
    (rp : List ℕ) (parc : Option (V × E)) : Prop where
  split : i.cp = pre ++ post
  back : reversePath G i.cv pre = some (u, rp)
  parc_eq : ∃ arcs, arcSet G i.cv pre = some arcs ∧ parc = arcs.getLast?.or i.parc
  parc_ne : ∀ a ∈ parc, a.1 ≠ u

/-- An item that the loop puts on the stack behind a part of the path. -/
structure PushedAt (tbl : PlinkoTable G) (i : CdgItem V E) (pre : List ℕ) (j : CdgItem V E) :
    Prop where
  follows : ∃ hop post rp, CdgAt G i pre (hop :: post) j.cv rp j.parc ∧ j.crp = i.crp ++ rp.reverse
  ne_nil : pre ≠ []
  entry : ∃ k, (k, j.cp) ∈ tbl.entries j.cv j.crp

def Pushed (tbl : PlinkoTable G) (i j : CdgItem V E) : Prop := ∃ pre, PushedAt tbl i pre j

/-- What the loop needs of an item. -/
structure CdgItem.Good (G : PortGraph V E) (i : CdgItem V E) : Prop where
  leads : ∃ u rp, reversePath G i.cv i.cp = some (u, rp)
  parc_ne : ∀ a ∈ i.parc, a.1 ≠ i.cv

omit [DecidableEq E] in
lemma CdgItem.Good.start (h : i.Good G) : CdgAt G i [] i.cp i.cv [] i.parc :=
  ⟨rfl, rfl, ⟨[], rfl, rfl⟩, h.parc_ne⟩

omit [DecidableEq E] in
lemma CdgAt.next {hop q : ℕ} (h : CdgAt G i pre (hop :: post) u rp parc)
    (hhop : G.hop u hop = some (e, w, q)) :
    CdgAt G i (pre ++ [hop]) post w (q :: rp) (some (u, e)) := by
  obtain ⟨arcs, harcs, _⟩ := h.parc_eq
  refine ⟨?_, ?_, ⟨arcs ++ [(u, e)], ?_, ?_⟩, ?_⟩
  · rw [h.split, List.append_assoc, List.singleton_append]
  · exact reversePath_concat.mpr ⟨u, rp, e, q, h.back, hhop, rfl⟩
  · exact (arcSet_append h.back).mpr
      ⟨arcs, [(u, e)], harcs, arcSet_cons.mpr ⟨e, w, q, [], hhop, rfl, rfl⟩, rfl⟩
  · rw [List.getLast?_concat, Option.some_or]
  · rintro a ⟨⟩
    exact (PortGraph.hop_ne hhop).symm

omit [DecidableEq E] in
lemma CdgAt.det {post' rp' : List ℕ} {parc' : Option (V × E)}
    (h : CdgAt G i pre post u rp parc) (h' : CdgAt G i pre post' w rp' parc') :
    u = w ∧ rp = rp' ∧ parc = parc' := by
  obtain ⟨arcs, harcs, rfl⟩ := h.parc_eq
  obtain ⟨arcs', harcs', rfl⟩ := h'.parc_eq
  obtain ⟨rfl, rfl⟩ := Prod.mk.inj (Option.some.inj (h.back.symm.trans h'.back))
  obtain rfl := Option.some.inj (harcs.symm.trans harcs')
  exact ⟨rfl, rfl, rfl⟩

omit [DecidableEq E] in
lemma CdgAt.exists_parc (h : CdgAt G i pre post u rp parc) (hpre : pre ≠ []) :
    ∃ a, parc = some a := by
  obtain ⟨arcs, harcs, rfl⟩ := h.parc_eq
  have hne : arcs ≠ [] := fun hnil =>
    hpre (List.length_eq_zero_iff.mp (by rw [← arcSet_length harcs, hnil, List.length_nil]))
  exact ⟨arcs.getLast hne, by rw [List.getLast?_eq_some_getLast hne, Option.some_or]⟩

omit [DecidableEq E] in
lemma mem_newItems {hop : ℕ} (h : CdgAt G i pre (hop :: post) u rp parc) :
    j ∈ newItems tbl i.crp u parc rp.reverse ↔ PushedAt tbl i pre j := by
  have hlen := reversePath_length h.back
  rw [newItems, List.mem_map]
  constructor
  · rintro ⟨⟨k, out⟩, hin, rfl⟩
    split at hin
    · rename_i hpos
      refine ⟨⟨hop, post, rp, h, rfl⟩, ?_, k, hin⟩
      rintro rfl
      rw [List.length_reverse, hlen] at hpos
      exact lt_irrefl 0 hpos
    · exact absurd hin List.not_mem_nil
  · rintro ⟨⟨hop', post', rp', h', hcrp⟩, hne, k, hin⟩
    obtain ⟨rfl, rfl, rfl⟩ := h.det h'
    have hpos : 0 < rp.reverse.length := by
      rw [List.length_reverse, hlen]
      exact List.length_pos_iff.mpr hne
    rw [if_pos hpos, ← hcrp]
    exact ⟨(k, j.cp), hin, rfl⟩

variable (acc) in
/-- Following the rest of a path collects the dependencies of its arcs, and puts an item on
the stack for every backup path that starts there. -/
lemma cdgHops_spec {r : List ℕ} (new : List (CdgItem V E))
    (h : CdgAt G i pre post u rp parc) (hr : reversePath G u post = some (w, r))
    (harcs : arcSet G u post = some arcs) :
    ∃ new' acc', cdgHops G tbl i.crp post u parc rp.reverse new acc = some (new', acc') ∧
      (∀ d ∈ steps (parc.toList ++ arcs), d ∈ acc'.dependencies) ∧
      acc.dependencies ⊆ acc'.dependencies ∧
      ∀ j, j ∈ new' ↔ j ∈ new ∨ ∃ more, PushedAt tbl i (pre ++ more) j := by
  induction post generalizing pre u rp parc r arcs new acc with
  | nil =>
    obtain rfl := Option.some.inj harcs
    refine ⟨new, acc, rfl, ?_, fun d hd => hd, fun j => ?_⟩
    · cases parc with
      | none => exact fun d hd => absurd hd List.not_mem_nil
      | some a => exact fun d hd => absurd hd List.not_mem_nil
    · refine (or_iff_left ?_).symm
      rintro ⟨more, ⟨hop, post, rp', hat, _⟩, _, _⟩
      have hlen := congrArg List.length (h.split.symm.trans hat.split)
      simp only [List.length_append, List.length_nil, List.length_cons] at hlen
      omega
  | cons hop post ih =>
    obtain ⟨e, x, q, r', hhop, hr', _⟩ := reversePath_cons.mp hr
    obtain ⟨e', x', q', rest, hhop', hrest, rfl⟩ := arcSet_cons.mp harcs
    obtain ⟨rfl, rfl, rfl⟩ := PortGraph.hop_det hhop hhop'
    obtain ⟨new', acc', hrun, hsteps, hsub, hnew⟩ :=
      ih (acc.add parc (u, e)) (new ++ newItems tbl i.crp u parc rp.reverse)
        (h.next hhop) hr' hrest
    have hadd : ∀ d ∈ (acc.add parc (u, e)).dependencies, d ∈ acc'.dependencies := hsub
    refine ⟨new', acc', ?_, ?_, fun d hd => hadd d (CdgSets.mem_add.mpr (.inr hd)), fun j => ?_⟩
    · have hself : parc.any (fun a => decide (a.1 = u)) = false := by
        cases parc with
        | none => rfl
        | some a => exact decide_eq_false (h.parc_ne a rfl)
      have hsome : (!(newItems tbl i.crp u parc rp.reverse).isEmpty && parc.isNone) = false := by
        cases hitems : newItems tbl i.crp u parc rp.reverse with
        | nil => rfl
        | cons j items =>
          have hj : PushedAt tbl i pre j := (mem_newItems h).mp (hitems ▸ List.mem_cons_self ..)
          obtain ⟨a, rfl⟩ := h.exists_parc hj.ne_nil
          rfl
      rw [List.reverse_cons] at hrun
      simp only [cdgHops, hhop, Option.bind_eq_bind, Option.bind_some, hself, hsome,
        Bool.false_eq_true, if_false]
      exact hrun
    · intro d hd
      cases parc with
      | none => exact hsteps d hd
      | some a =>
        rcases List.mem_cons.mp hd with rfl | hd
        · exact hadd _ (CdgSets.mem_add.mpr (.inl ⟨a, rfl, rfl⟩))
        · exact hsteps d hd
    · rw [hnew, List.mem_append, mem_newItems h, or_assoc]
      refine or_congr_right ⟨?_, ?_⟩
      · rintro (hj | ⟨more, hj⟩)
        · exact ⟨[], by rwa [List.append_nil]⟩
        · exact ⟨hop :: more, by rwa [List.append_assoc] at hj⟩
      · rintro ⟨more, hj⟩
        cases more with
        | nil => exact .inl (by rwa [List.append_nil] at hj)
        | cons hop' more =>
          -- the next hop is that of the path
          obtain ⟨hop₁, post₁, rp₁, hat, _⟩ := hj.follows
          have heq := h.split.symm.trans hat.split
          rw [List.append_assoc, List.append_cancel_left_eq, List.cons_append,
            List.cons.injEq] at heq
          obtain ⟨rfl, _⟩ := heq
          exact .inr ⟨more, by rwa [List.append_assoc]⟩

/-! ### All paths -/

omit [DecidableEq E] in
lemma PushedAt.lt (h : PushedAt tbl i pre j) : i.crp.length < j.crp.length := by
  obtain ⟨hop, post, rp, hat, hcrp⟩ := h.follows
  have hlen := reversePath_length hat.back
  have hpos := List.length_pos_iff.mpr h.ne_nil
  rw [hcrp, List.length_append, List.length_reverse]
  omega

/-- The length of the longest way back in the table. -/
def maxRpath (tbl : PlinkoTable G) : ℕ := (tbl.map (fun x => x.1.2.1.length)).foldr max 0

omit [DecidableEq E] in
lemma le_maxRpath {x : (V × List ℕ × E × Finset E) × Path G} (h : x ∈ tbl) :
    x.1.2.1.length ≤ maxRpath tbl := by
  rw [maxRpath]
  exact List.le_max_of_le' 0 (List.mem_map_of_mem h) le_rfl

omit [DecidableEq E] in
lemma PushedAt.le_maxRpath (h : PushedAt tbl i pre j) : j.crp.length ≤ maxRpath tbl := by
  obtain ⟨k, hin⟩ := h.entry
  obtain ⟨N, hN, _⟩ := mem_entries.mp hin
  exact ResSim.le_maxRpath hN

lemma TableOf.leads_of_entry (ht : TableOf .src T tbl) (hT : ∀ B ∈ T, B.rv = dst)
    {k : E × Finset E} (h : (k, out) ∈ tbl.entries v rp) :
    ∃ r, reversePath G v out = some (dst, r) := by
  obtain ⟨x, hx, _, hout⟩ := ht.exists_place_of_entry h
  rw [(hout.src rfl).2]
  exact hx.rest hT

/-- What is known of an item that was visited. -/
def CdgItem.Seen (G : PortGraph V E) (i : CdgItem V E) (acc : CdgSets V E) : Prop :=
  ∀ arcs, arcSet G i.cv i.cp = some arcs →
    ∀ d ∈ steps (i.parc.toList ++ arcs), d ∈ acc.dependencies

variable (tbl acc) in
lemma cdgVisit_spec (hi : i.Good G) :
    ∃ new acc', cdgVisit G tbl i acc = some (new, acc') ∧ i.Seen G acc' ∧
      (∀ j : CdgItem V E, j.Seen G acc → j.Seen G acc') ∧ ∀ j, j ∈ new ↔ Pushed tbl i j := by
  obtain ⟨u, r, hr⟩ := hi.leads
  obtain ⟨arcs, harcs⟩ := exists_arcSet hr
  obtain ⟨new, acc', hrun, hsteps, hsub, hnew⟩ := cdgHops_spec acc [] hi.start hr harcs
  refine ⟨new, acc', hrun, fun arcs' harcs' => ?_, fun j hj arcs' harcs' d hd => ?_, fun j => ?_⟩
  · obtain rfl := Option.some.inj (harcs.symm.trans harcs')
    exact hsteps
  · exact hsub (hj arcs' harcs' d hd)
  · rw [hnew, or_iff_right List.not_mem_nil]
    rfl

lemma Pushed.good (ht : TableOf .src T tbl) (hT : ∀ B ∈ T, B.rv = dst) (h : Pushed tbl i j) :
    j.Good G ∧ maxRpath tbl - j.crp.length < maxRpath tbl - i.crp.length := by
  obtain ⟨pre, hj⟩ := h
  obtain ⟨k, hin⟩ := hj.entry
  obtain ⟨r, hr⟩ := ht.leads_of_entry hT hin
  obtain ⟨hop, post, rp, hat, _⟩ := hj.follows
  have hlt := hj.lt
  have hle := hj.le_maxRpath
  exact ⟨⟨⟨dst, r, hr⟩, hat.parc_ne⟩, by omega⟩

/-- The traversal ends, and has the dependencies of all paths that it can come to. -/
theorem exists_pathDependencies (ht : TableOf .src T tbl) (hT : ∀ B ∈ T, B.rv = dst)
    {k : E × Finset E} (h : (k, out) ∈ tbl.entries v rp) :
    ∃ fuel acc, pathDependencies fuel G tbl out v = some acc ∧
      ∀ i, Relation.ReflTransGen (Pushed tbl) ⟨out, [], v, none⟩ i → i.Seen G acc := by
  obtain ⟨r, hr⟩ := ht.leads_of_entry hT h
  have hgood : CdgItem.Good G ⟨out, [], v, none⟩ := ⟨⟨dst, r, hr⟩, fun a ha => by cases ha⟩
  obtain ⟨acc, ⟨fuel, hrun⟩, hseen⟩ := Worklist.returns
    (fun i => maxRpath tbl - i.crp.length) (CdgItem.Good G)
    (fun i acc hi => cdgVisit_spec tbl acc hi) (fun i j _ hj => hj.good ht hT) hgood
    ⟨[], [], List.nodup_nil⟩
  exact ⟨fuel, acc, by rw [pathDependencies, hrun, Option.join_some], hseen⟩

/-! ### Packets -/

/-- The entry that a packet takes where it bounces is also stored under its way back the other
way round. -/
def StoredReversed (tbl : PlinkoTable G) (dst : V) (F : Finset E) (s : PlinkoWalk V) : Prop :=
  s.rp ≠ [] → s.v ≠ dst → ∀ a ∈ tbl.entries s.v s.rp,
    Matches (localFailedE G F s.v).toFinset a → ∃ k, (k, a.2) ∈ tbl.entries s.v s.rp.reverse

/-- The pairs of arcs that a packet crosses one after the other are dependencies. -/
def CdgSets.Covers (acc : CdgSets V E) (tbl : PlinkoTable G) (src dst : V) (F : Finset E) : Prop :=
  ∀ s, Loop.Reaches (plinkoWalkStep G tbl dst F ∅) ⟨[], [], src, false⟩ s →
    ∃ arcs, arcSet G src s.hops = some arcs ∧ ∀ d ∈ steps arcs, d ∈ acc.dependencies

lemma storedReversed_of_palindrome (h : s.rp.reverse = s.rp) : StoredReversed tbl dst F s := by
  intro _ _ a ha _
  exact ⟨a.1, h.symm ▸ ha⟩

/-- What a packet has crossed is in the graph, and it is on a path of the traversal. -/
structure OnItem (tbl : PlinkoTable G) (acc : CdgSets V E) (src dst : V) (start i : CdgItem V E)
    (s : PlinkoWalk V) : Prop where
  explored : Relation.ReflTransGen (Pushed tbl) start i
  back : reversePath G src s.hops = some (s.v, s.rp)
  at_item : ∃ pre post rp arcs, CdgAt G i pre post s.v rp arcs.getLast? ∧
    s.rp = rp ++ i.crp.reverse ∧ pre ≠ [] ∧ (s.v ≠ dst → post ≠ []) ∧
    arcSet G src s.hops = some arcs ∧ ∀ d ∈ steps arcs, d ∈ acc.dependencies

omit [DecidableEq E] in
lemma CdgAt.advance {r : List ℕ} (h : CdgAt G i pre (k ++ post) u rp parc)
    (hk : reversePath G u k = some (w, r)) :
    ∃ parc', CdgAt G i (pre ++ k) post w (r ++ rp) parc' := by
  induction k generalizing pre u rp parc r with
  | nil =>
    obtain ⟨rfl, rfl⟩ := Prod.mk.inj (Option.some.inj hk)
    exact ⟨parc, by rwa [List.append_nil]⟩
  | cons hop k ih =>
    obtain ⟨e, x, q, r', hhop, hr, rfl⟩ := reversePath_cons.mp hk
    obtain ⟨parc', h'⟩ := ih (h.next hhop) hr
    refine ⟨parc', ?_⟩
    rwa [List.append_assoc, List.singleton_append] at h' ⊢

/-- A packet at the start of an item's path, before it follows it. -/
structure AtStart (G : PortGraph V E) (acc : CdgSets V E) (src : V) (i : CdgItem V E)
    (s : PlinkoWalk V) (arcs : List (V × E)) : Prop where
  good : i.Good G
  cv_eq : i.cv = s.v
  crp_eq : i.crp = s.rp.reverse
  parc_eq : i.parc = arcs.getLast?
  back : reversePath G src s.hops = some (s.v, s.rp)
  arcs_eq : arcSet G src s.hops = some arcs
  mem : ∀ d ∈ steps arcs, d ∈ acc.dependencies

omit [DecidableEq E] in
lemma AtStart.follow {s' : PlinkoWalk V} {start : CdgItem V E} {y : Place G} {nrp : List ℕ}
    (h : AtStart G acc src i s arcs) (hexp : Relation.ReflTransGen (Pushed tbl) start i)
    (hseen : i.Seen G acc) (hcp : i.cp = y.hop :: y.post)
    (hf : Followed .src T F dst y s.v s.rp k s'.v nrp) (hhops : s'.hops = s.hops ++ k)
    (hrp : s'.rp = nrp ++ s.rp) : OnItem tbl acc src dst start i s' := by
  obtain ⟨more, hmore⟩ := hf.prefix_of
  have hback := hf.back
  rw [← h.cv_eq] at hback
  have hstart := h.good.start
  rw [hcp, hmore] at hstart
  obtain ⟨parc', hat⟩ := hstart.advance hback
  obtain ⟨new, hnew, hparc⟩ := hat.parc_eq
  rw [List.nil_append] at hnew
  rw [hparc, h.parc_eq, ← List.getLast?_append, List.nil_append, List.append_nil] at hat
  have hnew' := hnew
  rw [h.cv_eq] at hnew'
  refine ⟨hexp, ?_, k, more, nrp, arcs ++ new, hat, ?_, hf.ne_nil, fun hne => ?_, ?_,
    fun d hd => ?_⟩
  · rw [hhops, hrp]
    exact reversePath_append.mpr ⟨s.v, s.rp, nrp, h.back, hf.back, rfl⟩
  · rw [hrp, h.crp_eq, List.reverse_reverse]
  · obtain ⟨hop, post, _, hsplit, _⟩ := hf.next.resolve_left hne
    rw [List.append_cancel_left (hmore.symm.trans hsplit)]
    exact List.cons_ne_nil _ _
  · rw [hhops]
    exact (arcSet_append h.back).mpr ⟨arcs, new, h.arcs_eq, hnew', rfl⟩
  · rcases mem_steps_append hd with hd | hd
    · exact h.mem d hd
    · -- the item has the dependencies of its whole path
      obtain ⟨u, r, hr⟩ := h.good.leads
      obtain ⟨all, hall⟩ := exists_arcSet hr
      have hsteps := hseen all hall
      rw [hcp, hmore, arcSet_append hback] at hall
      obtain ⟨new₁, rest, hnew₁, _, rfl⟩ := hall
      obtain rfl := Option.some.inj (hnew.symm.trans hnew₁)
      refine hsteps d ?_
      rw [h.parc_eq, ← List.append_assoc]
      exact mem_steps_append_left hd

/-- A bounce: the traversal has put the path of the entry on its stack. -/
lemma OnItem.exists_atStart {start : CdgItem V E} (ht : TableOf .src T tbl)
    (hT : ∀ B ∈ T, B.rv = dst) (h : OnItem tbl acc src dst start i s) (hv : s.v ≠ dst)
    (hstored : StoredReversed tbl dst F s) {b : (E × Finset E) × List ℕ}
    (hb : b ∈ tbl.entries s.v s.rp) (hm : Matches (localFailedE G F s.v).toFinset b) :
    ∃ j arcs, Relation.ReflTransGen (Pushed tbl) start j ∧ AtStart G acc src j s arcs ∧
      j.cp = b.2 := by
  obtain ⟨pre, post, rp, arcs, hat, hrp, hpre, hpost, harcs, hmem⟩ := h.at_item
  have hne : s.rp ≠ [] := by
    rw [hrp]
    intro hnil
    have hlen := reversePath_length hat.back
    rw [(List.append_eq_nil_iff.mp hnil).1] at hlen
    exact hpre (List.length_eq_zero_iff.mp hlen.symm)
  obtain ⟨k, hk⟩ := hstored hne hv b hb hm
  obtain ⟨hop, post', rfl⟩ := List.exists_cons_of_ne_nil (hpost hv)
  have hj : PushedAt tbl i pre ⟨b.2, s.rp.reverse, s.v, arcs.getLast?⟩ := by
    refine ⟨⟨hop, post', rp, hat, ?_⟩, hpre, k, hk⟩
    rw [hrp, List.reverse_append, List.reverse_reverse]
  have hpushed : Pushed tbl i ⟨b.2, s.rp.reverse, s.v, arcs.getLast?⟩ := ⟨pre, hj⟩
  exact ⟨_, arcs, h.explored.tail hpushed,
    ⟨(hpushed.good ht hT).1, rfl, rfl, rfl, h.back, harcs, hmem⟩, rfl⟩

lemma TableOf.matches_unique (ht : TableOf fwdRouting T tbl) (hT : BackupForest T)
    {L : Finset E} {b c : (E × Finset E) × List ℕ} (hb : b ∈ tbl.entries v rp)
    (hc : c ∈ tbl.entries v rp) (hbm : Matches L b) (hcm : Matches L c) : b = c := by
  have hle := ht.matches_le_one hT v rp L
  have hb' : b ∈ (tbl.entries v rp).filter (fun x => Matches L x) :=
    List.mem_filter.mpr ⟨hb, decide_eq_true hbm⟩
  have hc' : c ∈ (tbl.entries v rp).filter (fun x => Matches L x) :=
    List.mem_filter.mpr ⟨hc, decide_eq_true hcm⟩
  obtain ⟨x, hx⟩ := List.length_eq_one_iff.mp (le_antisymm hle (List.length_pos_of_mem hb'))
  rw [hx, List.mem_singleton] at hb' hc'
  rw [hb', hc']

/-- A packet that starts on the path stays on the paths of the traversal. -/
theorem onItem_of_reaches {k : E × Finset E} (ht : TableOf .src T tbl) (hT : BackupForest T)
    (hrv : ∀ B ∈ T, B.rv = dst) (hin : (k, out) ∈ tbl.entries src [])
    (hm : Matches (localFailedE G F src).toFinset (k, out))
    (hseen : ∀ i, Relation.ReflTransGen (Pushed tbl) ⟨out, [], src, none⟩ i → i.Seen G acc)
    (hok : ∀ s, Loop.Reaches (plinkoWalkStep G tbl dst F ∅) ⟨[], [], src, false⟩ s →
      StoredReversed tbl dst F s)
    (hr : Loop.Reaches (plinkoWalkStep G tbl dst F ∅) ⟨[], [], src, false⟩ s) :
    s = ⟨[], [], src, false⟩ ∨ ∃ i, OnItem tbl acc src dst ⟨out, [], src, none⟩ i s := by
  induction hr with
  | refl => exact .inl rfl
  | tail hr hn ih =>
    right
    rename_i s s'
    obtain ⟨hv, y, e, hstep⟩ := walkStep_of_next ht hT hrv hn
    obtain ⟨b, hb, hbm, hy⟩ := hstep.matching
    obtain ⟨k', nrp, hf, hhops, hrp⟩ := hstep.followed
    have hstart : ∃ j arcs, Relation.ReflTransGen (Pushed tbl) ⟨out, [], src, none⟩ j ∧
        AtStart G acc src j s arcs ∧ j.cp = b.2 := by
      rcases ih with rfl | ⟨i, hi⟩
      · obtain rfl := ht.matches_unique hT hb hin hbm hm
        obtain ⟨r, hr⟩ := ht.leads_of_entry hrv hin
        exact ⟨_, [], .refl, ⟨⟨⟨dst, r, hr⟩, fun a ha => by cases ha⟩, rfl, rfl, rfl, rfl, rfl,
          fun d hd => absurd hd List.not_mem_nil⟩, rfl⟩
      · exact hi.exists_atStart ht hrv hv (hok s hr) hb hbm
    obtain ⟨j, arcs, hexp, hj, hcp⟩ := hstart
    rw [(hy.out_of.src rfl).2] at hcp
    exact ⟨j, hj.follow hexp (hseen j hexp) hcp hf hhops hrp⟩

/-- The graph of an entry has every pair of arcs that a packet crosses one after the other,
provided that where the packet bounces the entry it takes is also stored under the way back
the other way round. -/
theorem plinkoPathCdg_sound {getShortestPath : ℕ → Adj V E → V → V → List E}
    (hsp : ∀ n, IsPathFinder (getShortestPath n)) (hdst : 0 < G.numhosts dst) (args : PlinkoArgs)
    (hsrc : args.fwdRouting = .src) (rnd : Rnd) {fuel : ℕ}
    (htbl : plinkoFwdtable fuel G args getShortestPath dst rnd = some tbl) {k : E × Finset E}
    (hin : (k, out) ∈ tbl.entries src []) :
    ∃ fuel acc, pathDependencies fuel G tbl out src = some acc ∧
      plinkoPathCdg fuel G out src tbl =
        (if isDag acc.dependencies && acc.isConnected then some acc else none) ∧
      ∀ F : Finset E, Matches (localFailedE G F src).toFinset (k, out) →
        (∀ s, Loop.Reaches (plinkoWalkStep G tbl dst F ∅) ⟨[], [], src, false⟩ s →
          StoredReversed tbl dst F s) →
        acc.Covers tbl src dst F := by
  obtain ⟨T, hT, ht⟩ := plinkoFwdtable_post hsp hdst htbl
  rw [hsrc] at ht
  have hrv : ∀ B ∈ T, B.rv = dst := fun B hB => (hT.branch B hB).rv_eq
  obtain ⟨fuel', acc, hrun, hseen⟩ := exists_pathDependencies ht hrv hin
  refine ⟨fuel', acc, hrun, ?_, fun F hm hok s hr => ?_⟩
  · rw [plinkoPathCdg, hrun]
    rfl
  · rcases onItem_of_reaches ht hT.toBackupForest hrv hin hm hseen hok hr with rfl | ⟨i, hi⟩
    · exact ⟨[], rfl, fun d hd => absurd hd List.not_mem_nil⟩
    · obtain ⟨_, _, _, arcs, _, _, _, _, harcs, hmem⟩ := hi.at_item
      exact ⟨arcs, harcs, hmem⟩

/-! ### A dependency that is missing -/

/-- The ends of the links of `detourGraph`. -/
def detourEnds : Fin 5 → Fin 5 × Fin 5
  | 0 => (0, 1)
  | 1 => (1, 2)
  | 2 => (2, 3)
  | 3 => (2, 4)
  | 4 => (4, 3)

/-- A line from 0 to the destination 3 with a detour around its last link. The port of a link
has its number at both ends. -/
def detourGraph : PortGraph (Fin 5) (Fin 5) :=
  PortGraph.ofFinLinks (fun e => (detourEnds e).1) (fun e => e.val) (fun e => (detourEnds e).2)
    (fun e => e.val) (fun _ => 1) (by decide) (by decide)

/-- The table of the detour for one failed link. -/
def detourTable : Option (PlinkoTable detourGraph) :=
  plinkoFwdtable 20 detourGraph ⟨1, .src, false, false⟩ (fun _ => bfsPath [0, 1, 2, 3, 4]) 3
    (fun _ => 0)

/-- One hop before the detour the way back is one port, the same both ways round. -/
theorem plinkoPathCdg_sound_detour :
    ∃ tbl fuel acc, detourTable = some tbl ∧
      pathDependencies fuel detourGraph tbl [1, 2] 1 = some acc ∧
      plinkoPathCdg fuel detourGraph [1, 2] 1 tbl =
        (if isDag acc.dependencies && acc.isConnected then some acc else none) ∧
      acc.Covers tbl 1 3 {2} := by
  have hcheck : detourTable.map (fun tbl =>
      (((1, ∅), [1, 2]) ∈ tbl.entries 1 [] : Bool) &&
      (Loop.run (plinkoWalkStep detourGraph tbl 3 {2} ∅) 4 ⟨[], [], 1, false⟩).isSome &&
      (Loop.states (plinkoWalkStep detourGraph tbl 3 {2} ∅) 4 ⟨[], [], 1, false⟩).all
        (fun s => s.v = 3 || s.rp.reverse = s.rp)) = some true := by
    decide +kernel
  obtain ⟨tbl, htbl, hcheck⟩ := Option.map_eq_some_iff.mp hcheck
  rw [Bool.and_eq_true, Bool.and_eq_true, decide_eq_true_iff] at hcheck
  obtain ⟨⟨hin, hrun⟩, hall⟩ := hcheck
  obtain ⟨fuel, acc, hdeps, hcdg, hcovers⟩ := plinkoPathCdg_sound
    (fun _ => isPathFinder_bfsPath (by decide)) (by decide) ⟨1, .src, false, false⟩ rfl
    (fun _ => 0) htbl hin
  refine ⟨tbl, fuel, acc, htbl, hdeps, hcdg, hcovers {2} (by decide) (fun s hs => ?_)⟩
  have h := List.all_eq_true.mp hall s (hs.mem_states hrun)
  rw [Bool.or_eq_true, decide_eq_true_iff, decide_eq_true_iff] at h
  rcases h with hv | hrp
  · exact fun _ hne => absurd hv hne
  · exact storedReversed_of_palindrome hrp

/-- Two hops before the detour the packet bounces from arc (1, 1) onto arc (2, 3), which is no
edge of the graph. -/
theorem plinkoPathCdg_misses :
    ∃ tbl fuel acc, detourTable = some tbl ∧ ((0, ∅), [0, 1, 2]) ∈ tbl.entries 0 [] ∧
      Matches (localFailedE detourGraph {2} 0).toFinset ((0, ∅), [0, 1, 2]) ∧
      plinkoPathCdg fuel detourGraph [0, 1, 2] 0 tbl = some acc ∧ ¬ acc.Covers tbl 0 3 {2} := by
  have hcheck : detourTable.map (fun tbl =>
      ((((0, ∅), [0, 1, 2]) ∈ tbl.entries 0 [] : Bool),
        (plinkoPathCdg 20 detourGraph [0, 1, 2] 0 tbl).map (fun acc =>
          (((1, 1), (2, 3)) ∈ acc.dependencies : Bool)),
        decide (plinkoWalkPath 4 detourGraph tbl 0 3 7 {2} ∅ =
          some (some [0, 1, 3, 4, 7], true)))) = some (true, some false, true) := by
    decide +kernel
  obtain ⟨tbl, htbl, hcheck⟩ := Option.map_eq_some_iff.mp hcheck
  rw [Prod.mk.injEq, Prod.mk.injEq, decide_eq_true_iff, decide_eq_true_iff] at hcheck
  obtain ⟨hin, hcdg, hwalk⟩ := hcheck
  obtain ⟨acc, hacc, hmiss⟩ := Option.map_eq_some_iff.mp hcdg
  refine ⟨tbl, 20, acc, htbl, hin, by decide, hacc, fun hcovers => ?_⟩
  have hdelivered : plinkoWalkPath 4 detourGraph tbl 0 3 7 {2} ∅ =
      some (some ([0, 1, 3, 4] ++ [7]), true) := hwalk
  obtain ⟨s, hr, hhops⟩ := exists_reached_of_walk hdelivered
  obtain ⟨arcs, harcs, hmem⟩ := hcovers s hr
  have hroute : arcSet detourGraph 0 [0, 1, 3, 4] =
      some [(0, 0), (1, 1), (2, 3), (4, 4)] := by decide
  rw [hhops, hroute, Option.some.injEq] at harcs
  subst harcs
  exact of_decide_eq_false hmiss (hmem _ (by decide))

end ResSim
