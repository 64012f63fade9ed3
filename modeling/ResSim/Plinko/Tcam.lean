import ResSim.Lib.Ternary
import ResSim.Plinko.WildTable

/-!
# Packing a table for a TCAM

The wildcard table of a switch is packed run by run, a run being consecutive rows with one
path. The rows of a run are merged greedily by turning positions into wildcards, as long as
the result overlaps no row of an earlier run. Later runs come first in the TCAM, so a row is
decided by its own run, or by a later one with the same path.
-/

namespace ResSim

variable {V E : Type} [DecidableEq V] {G : PortGraph V E}

/-- An input bit of the TCAM other than the wildcard: a port number of the way back, or
whether a port is down or up. -/
inductive Inbit where
  | num (n : ℤ)
  | down
  | up
  deriving DecidableEq

/-- How a run of the program can fail. -/
inductive PyError where
  | assertionError
  | deprecationWarning
  | indexError
  | systemExit
  deriving DecidableEq

def MaskBit.inbit : MaskBit → Option Inbit
  | any => none
  | down => some .down
  | up => some .up

/-- `x[0] + tuple(x[1])`. -/
def WildEntry.inbits (x : WildEntry G) : Pattern Inbit :=
  x.rpath.map (Option.map Inbit.num) ++ x.edgeMask.map MaskBit.inbit

/-- Input bits and the path of each row; `none` is a path that drops. -/
abbrev TcamTable (G : PortGraph V E) := List (Pattern Inbit × Option (Path G))

/-- `v.new_wildtable`. -/
def newWildtable (wildfwdtable : List (WildEntry G)) : TcamTable G :=
  wildfwdtable.map (fun x => (x.inbits, some x.path))

/-! ### Matching -/

/-- The function that was split in two raises whenever it is called. -/
def entryMatches (_inbits _matchInbits : Pattern Inbit) : Except PyError Bool :=
  .error .deprecationWarning

def partialMatches (inbits matchInbits : Pattern Inbit) : Except PyError Bool :=
  if inbits.length = matchInbits.length then .ok (decide (inbits.Overlaps matchInbits))
  else .error .assertionError

/-- `inbits == '*'`: a tuple is never equal to a character. -/
def isStar (_inbits : Pattern Inbit) : Bool := false

def completeMatches (inbits matchInbits : Pattern Inbit) : Except PyError Bool :=
  if inbits.length = matchInbits.length then
    .ok (!(isStar inbits && matchInbits.any Option.isSome) &&
      decide (inbits.Overlaps matchInbits))
  else .error .assertionError

/-- The positions at which a pattern does not cover the row. -/
def wildHammingDist (inbits matchInbits : Pattern Inbit) : List ℕ :=
  ((inbits.zip matchInbits).zipIdx.filter (fun x => x.1.2 ≠ none ∧ x.1.1 ≠ x.1.2)).map Prod.snd

/-! ### Packing -/

/-- The entries after one more row: the first entry that may be widened to cover it is
replaced, or the row is added. -/
def changeEntry (prevInbits entries : List (Pattern Inbit)) (inbits : Pattern Inbit) :
    List (Pattern Inbit × List ℕ) → Except PyError (List (Pattern Inbit))
  | [] => .ok (entries.insert inbits)
  | (newEntry, dist) :: rest => do
    let nextEntry := newEntry.widen dist
    let found ← prevInbits.mapM (fun oInbits => partialMatches oInbits nextEntry)
    if found.any id then changeEntry prevInbits entries inbits rest
    else .ok ((entries.erase newEntry).insert nextEntry)

/-- One row of a run. The entries are a set, which is iterated in an arbitrary order. -/
def addInbits (draw : ℕ) (prevInbits entries : List (Pattern Inbit)) (inbits : Pattern Inbit) :
    Except PyError (List (Pattern Inbit)) :=
  let hammingDist := (shuffle draw entries).map (fun newEntry =>
    (newEntry, wildHammingDist inbits newEntry))
  if hammingDist.any (fun x => x.2 = []) then .ok entries
  else changeEntry prevInbits entries inbits
    (hammingDist.insertionSort (fun x y => x.2.length ≤ y.2.length))

def addAllInbits (draw : ℕ → ℕ) (prevInbits : List (Pattern Inbit)) :
    List (Pattern Inbit) → List (Pattern Inbit) → Except PyError (List (Pattern Inbit))
  | entries, [] => .ok entries
  | entries, inbits :: rest => do
    let entries ← addInbits (draw (rest.length + 1)) prevInbits entries inbits
    addAllInbits draw prevInbits entries rest

/-- The entries for a run of rows, given the rows of all earlier runs. -/
def pickNextEntries (draw : ℕ → ℕ) (currInbits prevInbits : List (Pattern Inbit)) :
    Except PyError (List (Pattern Inbit)) :=
  match currInbits with
  | [] => .error .indexError
  | first :: _ => do
    let entries ← addAllInbits draw prevInbits [first] currInbits
    .ok (shuffle (draw 0) entries)

/-- State of the packing, before the table is reversed. -/
structure PackState (G : PortGraph V E) where
  tcam : TcamTable G
  currInbits : List (Pattern Inbit)
  currPath : Option (Path G)
  prevInbits : List (Pattern Inbit)

/-- The debugging check that every row of a run matches an entry. -/
def sanityCheck (currInbits newEntries : List (Pattern Inbit)) : Except PyError Unit :=
  currInbits.forM (fun tmp => do
    let found ← newEntries.mapM (entryMatches tmp)
    if found.any id then .ok () else .error .systemExit)

/-- The end of a run. -/
def commitRun (sanity : Bool) (draw : ℕ → ℕ → ℕ) (s : PackState G) :
    Except PyError (PackState G) := do
  let newEntries ← pickNextEntries (draw s.prevInbits.length) s.currInbits s.prevInbits
  if sanity then sanityCheck s.currInbits newEntries
  .ok ⟨s.tcam ++ newEntries.map (fun entry => (entry, s.currPath)), [], none,
    s.prevInbits ++ s.currInbits⟩

def packRow (sanity : Bool) (draw : ℕ → ℕ → ℕ) (s : PackState G)
    (row : Pattern Inbit × Option (Path G)) : Except PyError (PackState G) :=
  match row with
  | (_, none) => .ok s
  | (inbits, some path) => do
    let s ← if s.currPath.any (fun currPath => currPath.path ≠ path.path) then
        commitRun sanity draw s
      else .ok s
    .ok { s with currPath := s.currPath.or (some path), currInbits := s.currInbits ++ [inbits] }

/-- The packed table. `sanity` says whether the debugging check is made. -/
def newerPackTcam (sanity : Bool) (draw : ℕ → ℕ → ℕ) (wildtable : TcamTable G) :
    Except PyError (TcamTable G) :=
  match wildtable with
  | [] => .ok []
  | row :: _ => do
    let maxinbits := row.1.length
    if wildtable.all (fun x => x.1.length = maxinbits) then
      let s ← wildtable.foldlM (packRow sanity draw)
        ⟨[(List.replicate maxinbits none, none)], [], none, []⟩
      let newEntries ← pickNextEntries (draw s.prevInbits.length) s.currInbits s.prevInbits
      .ok (s.tcam ++ newEntries.map (fun entry => (entry, s.currPath))).reverse
    else .error .assertionError

/-! ### The entries of a run -/

section Pick

variable {prevInbits entries curr seen : List (Pattern Inbit)} {inbits : Pattern Inbit} {n : ℕ}

lemma mem_wildHammingDist {p q : Pattern Inbit} {i : ℕ} : i ∈ wildHammingDist p q ↔
    ∃ a b, p[i]? = some a ∧ q[i]? = some b ∧ b ≠ none ∧ a ≠ b := by
  simp only [wildHammingDist, List.mem_map, List.mem_filter, decide_eq_true_iff, Prod.exists,
    List.mk_mem_zipIdx_iff_getElem?, List.getElem?_zip_eq_some, exists_eq_right]
  constructor
  · rintro ⟨a, b, ⟨ha, hb⟩, hne, hab⟩
    exact ⟨a, b, ha, hb, hne, hab⟩
  · rintro ⟨a, b, ha, hb, hne, hab⟩
    exact ⟨a, b, ⟨ha, hb⟩, hne, hab⟩

/-- Widening where a pattern does not cover a row makes it cover the row. -/
lemma within_widen_wildHammingDist {p q : Pattern Inbit} (hlen : p.length = q.length) :
    p.Within (q.widen (wildHammingDist p q)) := by
  apply Pattern.within_widen hlen
  intro i a b ha hb hi
  by_contra hno
  rw [not_or] at hno
  exact hi (mem_wildHammingDist.mpr ⟨a, b, ha, hb, hno⟩)

lemma within_of_wildHammingDist {p q : Pattern Inbit} (hlen : p.length = q.length)
    (h : wildHammingDist p q = []) : p.Within q := by
  rw [Pattern.within_iff_getElem?]
  refine ⟨hlen, fun i a b ha hb => ?_⟩
  by_contra hno
  rw [not_or] at hno
  have hi := mem_wildHammingDist.mpr ⟨a, b, ha, hb, hno⟩
  rw [h] at hi
  cases hi

lemma wildHammingDist_self (p : Pattern Inbit) : wildHammingDist p p = [] := by
  apply List.eq_nil_iff_forall_not_mem.mpr
  intro i hi
  obtain ⟨a, b, ha, hb, _, hab⟩ := mem_wildHammingDist.mp hi
  exact hab (Option.some.inj (ha.symm.trans hb))

lemma length_insert_le (E : Pattern Inbit) (entries : List (Pattern Inbit)) :
    (entries.insert E).length ≤ entries.length + 1 := by
  rw [List.length_insert]
  split <;> omega

lemma mapM_partialMatches {E : Pattern Inbit} (h : ∀ o ∈ prevInbits, o.length = E.length) :
    prevInbits.mapM (fun oInbits => partialMatches oInbits E) =
      .ok (prevInbits.map (fun o => decide (o.Overlaps E))) := by
  induction prevInbits with
  | nil => rfl
  | cons o prevInbits ih =>
    obtain ⟨ho, hprev⟩ := List.forall_mem_cons.mp h
    rw [List.mapM_cons, ih hprev, partialMatches, if_pos ho]
    rfl

/-- Entries that cover the rows seen of a run, and overlap no earlier row unless they are rows
of the run themselves. -/
structure Packs (n : ℕ) (prevInbits curr seen entries : List (Pattern Inbit)) : Prop where
  covers : ∀ r ∈ seen, ∃ E ∈ entries, r.Within E
  fresh : ∀ E ∈ entries, E ∈ curr ∨ ∀ o ∈ prevInbits, ¬ o.Overlaps E
  length_le : entries.length ≤ seen.length
  width : ∀ E ∈ entries, E.length = n

lemma Packs.insert (h : Packs n prevInbits curr seen entries) (hin : inbits ∈ curr)
    (hw : inbits.length = n) :
    Packs n prevInbits curr (seen ++ [inbits]) (entries.insert inbits) where
  covers := by
    simp only [List.forall_mem_append, List.forall_mem_singleton, List.mem_insert_iff]
    refine ⟨fun r hr => ?_, inbits, .inl rfl, .refl _⟩
    obtain ⟨E, hE, hrE⟩ := h.covers r hr
    exact ⟨E, .inr hE, hrE⟩
  fresh E hE := by
    rcases List.mem_insert_iff.mp hE with rfl | hE
    · exact .inl hin
    · exact h.fresh E hE
  length_le := by
    have := h.length_le
    have := length_insert_le inbits entries
    rw [List.length_append, List.length_singleton]
    omega
  width E hE := by
    rcases List.mem_insert_iff.mp hE with rfl | hE
    · exact hw
    · exact h.width E hE

lemma Packs.replace (h : Packs n prevInbits curr seen entries) {E E' : Pattern Inbit}
    (hE : E ∈ entries) (hEE' : E.Within E') (hin : inbits.Within E')
    (hfree : ∀ o ∈ prevInbits, ¬ o.Overlaps E') :
    Packs n prevInbits curr (seen ++ [inbits]) ((entries.erase E).insert E') where
  covers := by
    simp only [List.forall_mem_append, List.forall_mem_singleton, List.mem_insert_iff]
    refine ⟨fun r hr => ?_, E', .inl rfl, hin⟩
    obtain ⟨F, hF, hrF⟩ := h.covers r hr
    by_cases heq : F = E
    · exact ⟨E', .inl rfl, (heq ▸ hrF).trans hEE'⟩
    · exact ⟨F, .inr ((List.mem_erase_of_ne heq).mpr hF), hrF⟩
  fresh F hF := by
    rcases List.mem_insert_iff.mp hF with rfl | hF
    · exact .inr hfree
    · exact h.fresh F (List.mem_of_mem_erase hF)
  length_le := by
    have := h.length_le
    have := length_insert_le E' (entries.erase E)
    have := List.length_erase_of_mem hE
    have := List.length_pos_of_mem hE
    rw [List.length_append, List.length_singleton]
    omega
  width F hF := by
    rcases List.mem_insert_iff.mp hF with rfl | hF
    · exact hEE'.length_eq ▸ h.width E hE
    · exact h.width F (List.mem_of_mem_erase hF)

/-- Whatever order the entries are tried in, the row gets an entry. -/
lemma Packs.changeEntry (h : Packs n prevInbits curr seen entries) (hin : inbits ∈ curr)
    (hw : inbits.length = n) (hprev : ∀ o ∈ prevInbits, o.length = n)
    {sorted : List (Pattern Inbit × List ℕ)}
    (hsorted : ∀ x ∈ sorted, x.1 ∈ entries ∧ x.2 = wildHammingDist inbits x.1) :
    ∃ entries', changeEntry prevInbits entries inbits sorted = .ok entries' ∧
      Packs n prevInbits curr (seen ++ [inbits]) entries' := by
  induction sorted with
  | nil => exact ⟨_, rfl, h.insert hin hw⟩
  | cons x sorted ih =>
    obtain ⟨E, dist⟩ := x
    obtain ⟨⟨hE, hdist⟩, hsorted⟩ := List.forall_mem_cons.mp hsorted
    dsimp only at hE hdist
    have hlen : inbits.length = E.length := hw.trans (h.width E hE).symm
    have hmap : prevInbits.mapM (fun o => partialMatches o (E.widen dist)) = _ :=
      mapM_partialMatches fun o ho => by rw [hprev o ho, Pattern.widen_length, h.width E hE]
    rw [ResSim.changeEntry, hmap]
    by_cases hany : (prevInbits.map (fun o => decide (o.Overlaps (E.widen dist)))).any id
    · obtain ⟨entries', hrun, hpacks⟩ := ih hsorted
      exact ⟨entries', (if_pos hany).trans hrun, hpacks⟩
    · refine ⟨_, if_neg hany, h.replace hE ((Pattern.Within.refl E).widen dist) ?_ ?_⟩
      · rw [hdist]
        exact within_widen_wildHammingDist hlen
      · intro o ho hover
        apply hany
        rw [List.any_map, List.any_eq_true]
        exact ⟨o, ho, decide_eq_true hover⟩

lemma Packs.addInbits (h : Packs n prevInbits curr seen entries) (hin : inbits ∈ curr)
    (hw : inbits.length = n) (hprev : ∀ o ∈ prevInbits, o.length = n) (draw : ℕ) :
    ∃ entries', addInbits draw prevInbits entries inbits = .ok entries' ∧
      Packs n prevInbits curr (seen ++ [inbits]) entries' := by
  rw [ResSim.addInbits]
  split
  · rename_i hany
    obtain ⟨x, hx, hnil⟩ := List.any_eq_true.mp hany
    obtain ⟨E, hE, rfl⟩ := List.mem_map.mp hx
    rw [mem_shuffle] at hE
    refine ⟨entries, rfl, List.forall_mem_append.mpr ⟨h.covers, ?_⟩, h.fresh, ?_, h.width⟩
    · rw [List.forall_mem_singleton]
      exact ⟨E, hE, within_of_wildHammingDist (hw.trans (h.width E hE).symm)
        (of_decide_eq_true hnil)⟩
    · rw [List.length_append]
      exact h.length_le.trans (Nat.le_add_right ..)
  · apply h.changeEntry hin hw hprev
    intro x hx
    rw [List.mem_insertionSort, List.mem_map] at hx
    obtain ⟨E, hE, rfl⟩ := hx
    exact ⟨mem_shuffle.mp hE, rfl⟩

lemma Packs.addAllInbits (h : Packs n prevInbits curr seen entries)
    (hprev : ∀ o ∈ prevInbits, o.length = n) (draw : ℕ → ℕ) {rest : List (Pattern Inbit)}
    (hrest : ∀ r ∈ rest, r ∈ curr ∧ r.length = n) :
    ∃ entries', addAllInbits draw prevInbits entries rest = .ok entries' ∧
      Packs n prevInbits curr (seen ++ rest) entries' := by
  induction rest generalizing seen entries with
  | nil => exact ⟨entries, rfl, by rwa [List.append_nil]⟩
  | cons r rest ih =>
    obtain ⟨⟨hin, hw⟩, hrest⟩ := List.forall_mem_cons.mp hrest
    obtain ⟨entries', hrun, hpacks⟩ := h.addInbits hin hw hprev (draw (rest.length + 1))
    obtain ⟨entries'', hrun', hpacks'⟩ := ih hpacks hrest
    refine ⟨entries'', ?_, by rwa [List.append_assoc] at hpacks'⟩
    rw [ResSim.addAllInbits, hrun]
    exact hrun'

/-- The entries of a run cover its rows, overlap no earlier row unless they are rows
themselves, and are no more than the rows. -/
theorem packs_pickNextEntries (hne : curr ≠ []) (hcurr : ∀ r ∈ curr, r.length = n)
    (hprev : ∀ o ∈ prevInbits, o.length = n) (draw : ℕ → ℕ) :
    ∃ entries, pickNextEntries draw curr prevInbits = .ok entries ∧
      Packs n prevInbits curr curr entries := by
  obtain ⟨first, rest, rfl⟩ := List.exists_cons_of_ne_nil hne
  have hfirst := List.mem_cons_self (a := first) (l := rest)
  have hinit : Packs n prevInbits (first :: rest) [first] [first] :=
    ⟨by simp, by simp, le_rfl, by simpa using hcurr first hfirst⟩
  have hadd : addInbits (draw (rest.length + 1)) prevInbits [first] first = .ok [first] :=
    if_pos (by
      rw [List.any_map, List.any_eq_true]
      exact ⟨first, mem_shuffle.mpr (List.mem_cons_self ..),
        decide_eq_true (wildHammingDist_self first)⟩)
  obtain ⟨entries, hrun, hpacks⟩ := hinit.addAllInbits hprev draw
    (fun r hr => ⟨List.mem_cons_of_mem _ hr, hcurr r (List.mem_cons_of_mem _ hr)⟩)
  refine ⟨shuffle (draw 0) entries, ?_, ?_, ?_, ?_, ?_⟩
  · rw [pickNextEntries, addAllInbits, hadd]
    change (addAllInbits draw prevInbits [first] rest).bind _ = _
    rw [hrun]
    rfl
  · simpa using hpacks.covers
  · simpa using hpacks.fresh
  · rw [shuffle_length]
    exact hpacks.length_le
  · simpa using hpacks.width

end Pick

/-! ### The packed table -/

/-- A search that accepts all that covers a row, and only what overlaps it, ends at the path of
the row. -/
def Decides (tcam : TcamTable G) (r : Pattern Inbit) (out : List ℕ) : Prop :=
  ∀ accepts : Pattern Inbit → Bool, (∀ F, r.Within F → accepts F = true) →
    (∀ F, accepts F = true → r.Overlaps F) →
    ∃ row path, tcam.find? (fun row => accepts row.1) = some row ∧ row.2 = some path ∧
      path.path = out

/-- Rows put in front leave a row decided if those that overlap it have its path, and decide it
if one of them covers it. -/
lemma decides_append {new old : TcamTable G} {r : Pattern Inbit} {out : List ℕ}
    (hnew : ∀ row ∈ new, r.Overlaps row.1 → ∃ path, row.2 = some path ∧ path.path = out)
    (h : Decides old r out ∨ ∃ row ∈ new, r.Within row.1) : Decides (new ++ old) r out := by
  intro accepts hall honly
  rw [List.find?_append]
  cases hfind : new.find? (fun row => accepts row.1) with
  | some row =>
    obtain ⟨path, hpath, hout⟩ :=
      hnew row (List.mem_of_find?_eq_some hfind) (honly row.1 (by simpa using List.find?_some hfind))
    exact ⟨row, path, rfl, hpath, hout⟩
  | none =>
    rcases h with h | ⟨row, hrow, hw⟩
    · exact h accepts hall honly
    · exact absurd (hall _ hw) (List.find?_eq_none.mp hfind row hrow)

/-- What holds of the packing after the rows `done`: rows of earlier runs are decided. -/
structure PackInv (rows done : List (Pattern Inbit × Path G)) (n : ℕ) (s : PackState G) :
    Prop where
  curr : ∀ r ∈ s.currInbits, ∃ p, (r, p) ∈ rows ∧ s.currPath.map Path.path = some p.path
  run_iff : s.currPath = none ↔ s.currInbits = []
  prev : ∀ o ∈ s.prevInbits, o.length = n
  width : ∀ row ∈ s.tcam, row.1.length = n
  cases : ∀ x ∈ done, (x.1 ∈ s.currInbits ∧ s.currPath.map Path.path = some x.2.path) ∨
    (x.1 ∈ s.prevInbits ∧ Decides s.tcam.reverse x.1 x.2.path)
  length_le : s.tcam.length ≤ s.prevInbits.length + 1
  count : s.prevInbits.length + s.currInbits.length = done.length

section Run

variable {rows done : List (Pattern Inbit × Path G)} {n : ℕ} {s : PackState G}

/-- The end of a run decides its rows and leaves earlier rows decided. -/
lemma PackInv.commit (h : PackInv rows done n s) (hwidth : ∀ x ∈ rows, x.1.length = n)
    (hcheck : ∀ x ∈ rows, ∀ y ∈ rows, x.1.Overlaps y.1 → x.2.path = y.2.path)
    (hdone : ∀ x ∈ done, x ∈ rows) (hne : s.currInbits ≠ []) (draw : ℕ → ℕ) :
    ∃ entries, pickNextEntries draw s.currInbits s.prevInbits = .ok entries ∧
      PackInv rows done n ⟨s.tcam ++ entries.map (fun entry => (entry, s.currPath)), [], none,
        s.prevInbits ++ s.currInbits⟩ := by
  have hcurr : ∀ r ∈ s.currInbits, r.length = n := by
    intro r hr
    obtain ⟨p, hp, _⟩ := h.curr r hr
    exact hwidth _ hp
  obtain ⟨entries, hrun, hpacks⟩ := packs_pickNextEntries hne hcurr h.prev draw
  refine ⟨entries, hrun, by simp, by simp,
    List.forall_mem_append.mpr ⟨h.prev, hcurr⟩, List.forall_mem_append.mpr ⟨h.width, ?_⟩,
    fun x hx => .inr ?_, ?_, ?_⟩
  · intro row hrow
    obtain ⟨F, hF, rfl⟩ := List.mem_map.mp hrow
    exact hpacks.width F hF
  · dsimp only
    rw [List.reverse_append]
    rcases h.cases x hx with ⟨hin, hpath⟩ | ⟨hin, hdec⟩
    · refine ⟨List.mem_append_right _ hin, decides_append ?_ (.inr ?_)⟩
      · intro row hrow _
        rw [List.mem_reverse, List.mem_map] at hrow
        obtain ⟨_, _, rfl⟩ := hrow
        exact Option.map_eq_some_iff.mp hpath
      · obtain ⟨F, hF, hw⟩ := hpacks.covers _ hin
        exact ⟨(F, s.currPath), List.mem_reverse.mpr (List.mem_map_of_mem hF), hw⟩
    · refine ⟨List.mem_append_left _ hin, decides_append ?_ (.inl hdec)⟩
      intro row hrow hover
      rw [List.mem_reverse, List.mem_map] at hrow
      obtain ⟨F, hF, rfl⟩ := hrow
      rcases hpacks.fresh F hF with hraw | hfree
      · obtain ⟨p, hp, hpath⟩ := h.curr F hraw
        rw [← hcheck x (hdone x hx) _ hp hover] at hpath
        exact Option.map_eq_some_iff.mp hpath
      · exact absurd hover (hfree _ hin)
  · have := h.length_le
    have := hpacks.length_le
    simp only [List.length_append, List.length_map]
    omega
  · have := h.count
    simpa using this

lemma PackInv.packRow (h : PackInv rows done n s) (hwidth : ∀ x ∈ rows, x.1.length = n)
    (hcheck : ∀ x ∈ rows, ∀ y ∈ rows, x.1.Overlaps y.1 → x.2.path = y.2.path)
    (hdone : ∀ x ∈ done, x ∈ rows) (draw : ℕ → ℕ → ℕ) {x : Pattern Inbit × Path G}
    (hx : x ∈ rows) :
    ∃ s', packRow false draw s (x.1, some x.2) = .ok s' ∧ PackInv rows (done ++ [x]) n s' ∧
      s'.currInbits ≠ [] := by
  -- adding the row to a run that has no other path
  have hadd : ∀ s : PackState G, PackInv rows done n s →
      (∀ p, s.currPath = some p → p.path = x.2.path) →
      PackInv rows (done ++ [x]) n { s with
        currPath := s.currPath.or (some x.2), currInbits := s.currInbits ++ [x.1] } := by
    intro s h hsame
    have hpath : (s.currPath.or (some x.2)).map Path.path = some x.2.path := by
      cases hc : s.currPath with
      | none => rfl
      | some p => simpa using hsame p hc
    have hold : ∀ out, s.currPath.map Path.path = some out → out = x.2.path := by
      intro out hout
      obtain ⟨p, hp, rfl⟩ := Option.map_eq_some_iff.mp hout
      exact hsame p hp
    refine ⟨?_, ?_, h.prev, h.width, ?_, h.length_le, ?_⟩
    · rw [List.forall_mem_append, List.forall_mem_singleton]
      refine ⟨fun r hr => ?_, x.2, hx, hpath⟩
      obtain ⟨p, hp, hout⟩ := h.curr r hr
      exact ⟨p, hp, by rw [hold _ hout]; exact hpath⟩
    · simp
    · rw [List.forall_mem_append, List.forall_mem_singleton]
      refine ⟨fun y hy => ?_, .inl ⟨List.mem_append_right _ (List.mem_singleton.mpr rfl), hpath⟩⟩
      rcases h.cases y hy with ⟨hin, hout⟩ | hdec
      · exact .inl ⟨List.mem_append_left _ hin, by rw [hold _ hout]; exact hpath⟩
      · exact .inr hdec
    · have := h.count
      simp only [List.length_append, List.length_singleton]
      omega
  rw [ResSim.packRow]
  by_cases hdiff : s.currPath.any (fun currPath => currPath.path ≠ x.2.path) = true
  · have hne : s.currInbits ≠ [] := by
      intro hnil
      rw [h.run_iff.mpr hnil] at hdiff
      simp at hdiff
    obtain ⟨entries, hrun, hinv⟩ := h.commit hwidth hcheck hdone hne (draw s.prevInbits.length)
    refine ⟨_, ?_, hadd _ hinv (by simp), by simp⟩
    rw [if_pos hdiff, commitRun, hrun]
    rfl
  · refine ⟨_, ?_, hadd s h fun p hp => ?_, by simp⟩
    · rw [if_neg hdiff]
      rfl
    · simpa [hp] using hdiff

lemma PackInv.packRows (hwidth : ∀ x ∈ rows, x.1.length = n)
    (hcheck : ∀ x ∈ rows, ∀ y ∈ rows, x.1.Overlaps y.1 → x.2.path = y.2.path)
    (draw : ℕ → ℕ → ℕ) {rest : List (Pattern Inbit × Path G)} (h : PackInv rows done n s)
    (hrows : rows = done ++ rest) (hne : rest = [] → s.currInbits ≠ []) :
    ∃ s', (rest.map (fun x => (x.1, some x.2))).foldlM (ResSim.packRow false draw) s = .ok s' ∧
      PackInv rows rows n s' ∧ s'.currInbits ≠ [] := by
  induction rest generalizing done s with
  | nil =>
    rw [List.append_nil] at hrows
    exact ⟨s, rfl, hrows ▸ h, hne rfl⟩
  | cons x rest ih =>
    have hdone : ∀ y ∈ done, y ∈ rows := fun y hy => hrows ▸ List.mem_append_left _ hy
    have hx : x ∈ rows := hrows ▸ List.mem_append_right _ (List.mem_cons_self ..)
    obtain ⟨s₁, hrun, hinv, hne₁⟩ := h.packRow hwidth hcheck hdone draw hx
    obtain ⟨s', hrun', h'⟩ := ih hinv (by rw [hrows, List.append_assoc]; rfl) (fun _ => hne₁)
    refine ⟨s', ?_, h'⟩
    rw [List.map_cons, List.foldlM_cons, hrun]
    exact hrun'

/-- Every row of a table without ambiguous rows is decided by the packed table, which has at
most one row more. -/
theorem exists_newerPackTcam (hwidth : ∀ x ∈ rows, x.1.length = n)
    (hcheck : ∀ x ∈ rows, ∀ y ∈ rows, x.1.Overlaps y.1 → x.2.path = y.2.path)
    (draw : ℕ → ℕ → ℕ) :
    ∃ tcam, newerPackTcam false draw (rows.map (fun x => (x.1, some x.2))) = .ok tcam ∧
      tcam.length ≤ rows.length + 1 ∧ (∀ row ∈ tcam, row.1.length = n) ∧
      ∀ x ∈ rows, Decides tcam x.1 x.2.path := by
  cases rows with
  | nil => exact ⟨[], rfl, Nat.zero_le _, by simp, by simp⟩
  | cons x rest =>
    have hxn : x.1.length = n := hwidth x (List.mem_cons_self ..)
    let s₀ : PackState G := ⟨[(List.replicate x.1.length none, none)], [], none, []⟩
    have hinit : PackInv (x :: rest) [] n s₀ :=
      ⟨by simp [s₀], by simp [s₀], by simp [s₀], by simp [s₀, hxn], by simp, by simp [s₀],
        by simp [s₀]⟩
    obtain ⟨s, hrun, hinv, hne⟩ := hinit.packRows hwidth hcheck draw rfl (by simp)
    obtain ⟨entries, hpick, hlast⟩ :=
      hinv.commit hwidth hcheck (fun _ h => h) hne (draw s.prevInbits.length)
    have hall : ((x :: rest).map (fun x => (x.1, some x.2))).all
        (fun y => y.1.length = x.1.length) = true := by
      rw [List.all_map, List.all_eq_true]
      intro y hy
      exact decide_eq_true ((hwidth y hy).trans hxn.symm)
    refine ⟨(s.tcam ++ entries.map (fun entry => (entry, s.currPath))).reverse, ?_, ?_,
      fun row hrow => hlast.width row (List.mem_reverse.mp hrow), fun y hy => ?_⟩
    · change (if _ then (List.foldlM (ResSim.packRow false draw) s₀ _).bind _ else _) = _
      rw [if_pos hall, hrun]
      change (pickNextEntries (draw s.prevInbits.length) s.currInbits s.prevInbits).bind _ = _
      rw [hpick]
      rfl
    · have := hlast.length_le
      have := hlast.count
      simp only [List.length_append, List.length_nil] at *
      rw [List.length_reverse, List.length_append]
      omega
    · rcases hlast.cases y hy with ⟨hin, _⟩ | ⟨_, hdec⟩
      · cases hin
      · exact hdec

end Run

/-! ### The wildcard table of a switch -/

section Wild

variable [DecidableEq E] {tbl : PlinkoTable G} {v : V}

/-- The length of the longest way back at a switch. -/
def maxrpathlen (tbl : PlinkoTable G) (v : V) : ℕ :=
  (tbl.atSwitch v).foldl (fun x y => max x y.1.1.length) 0

/-- The input bits of a packet: its way back filled up with -1, and whether each port is up or
down, last port first. -/
def packetBits (tbl : PlinkoTable G) (v : V) (rp : List ℕ) (L : Finset E) : List Inbit :=
  rp.map (fun p : ℕ => Inbit.num (Int.ofNat p)) ++
    List.replicate (maxrpathlen tbl v + 1 - rp.length) (Inbit.num (-1)) ++
    ((G.portList v).insertionSort (· ≤ ·)).reverse.map (fun port =>
      if (G.edges v port).any (fun e => e ∈ L) then .down else .up)

lemma mem_buildWildTable {x : WildEntry G} : x ∈ buildWildTable tbl v ↔
    ∃ k N, ((v, k), N) ∈ tbl ∧ x = ⟨expandRpath (maxrpathlen tbl v) k.1,
      ((G.portList v).insertionSort (· ≤ ·)).reverse.map (maskBit G v k.2.1 k.2.2), N⟩ := by
  rw [buildWildTable, sortWildTable, List.mem_reverse, (List.mergeSort_perm _ _).mem_iff,
    List.mem_map]
  constructor
  · rintro ⟨⟨k, N⟩, hin, rfl⟩
    exact ⟨k, N, mem_atSwitch.mp hin, rfl⟩
  · rintro ⟨k, N, hin, rfl⟩
    exact ⟨(k, N), mem_atSwitch.mpr hin, rfl⟩

lemma length_buildWildTable : (buildWildTable tbl v).length = (tbl.atSwitch v).length := by
  rw [buildWildTable, sortWildTable, List.length_reverse, List.length_mergeSort, List.length_map]

lemma lengths_of_mem_buildWildTable {x : WildEntry G} (h : x ∈ buildWildTable tbl v) :
    x.rpath.length = maxrpathlen tbl v + 1 ∧ x.edgeMask.length = (G.portList v).length := by
  obtain ⟨k, N, hin, rfl⟩ := mem_buildWildTable.mp h
  refine ⟨expandRpath_length (foldl_max_le.2 _ (mem_atSwitch.mpr hin)), ?_⟩
  rw [List.length_map, List.length_reverse, List.length_insertionSort]

lemma fwdEntryMatches_of_overlaps {x y : WildEntry G} (hx : x ∈ buildWildTable tbl v)
    (hy : y ∈ buildWildTable tbl v) (h : x.inbits.Overlaps y.inbits) :
    fwdEntryMatches x y = true := by
  obtain ⟨hxr, hxm⟩ := lengths_of_mem_buildWildTable hx
  obtain ⟨hyr, hym⟩ := lengths_of_mem_buildWildTable hy
  have hnone : ∀ a ∈ x.rpath, a ≠ none := by
    obtain ⟨k, N, _, rfl⟩ := mem_buildWildTable.mp hx
    exact fun a ha => expandRpath_ne_none ha
  have hlen : (x.rpath.map (Option.map Inbit.num)).length =
      (y.rpath.map (Option.map Inbit.num)).length := by
    rw [List.length_map, List.length_map, hxr, hyr]
  have hrp := List.forall₂_take_append _ _ _ h
  have hmask := List.forall₂_drop_append _ _ _ h
  rw [← hlen, WildEntry.inbits, List.take_left, List.forall₂_map_left_iff,
    List.forall₂_map_right_iff] at hrp
  rw [← hlen, WildEntry.inbits, List.drop_left, List.forall₂_map_left_iff,
    List.forall₂_map_right_iff] at hmask
  rw [fwdEntryMatches, rpathMatches, Bool.and_eq_true, List.all_eq_true, List.all_eq_true]
  constructor
  · rintro ⟨a, b⟩ hab
    have ha := hnone a (List.of_mem_zip hab).1
    have := List.forall₂_zip hrp hab
    cases a <;> cases b <;> simp_all
  · rintro ⟨a, b⟩ hab
    have := List.forall₂_zip hmask hab
    cases a <;> cases b <;> simp_all [MaskBit.inbit]

variable (tbl v) in
lemma matches_packetBits {k : FwdKey E} {N : Path G} {L : Finset E}
    (h : Matches L (k.2, N.path)) :
    (WildEntry.inbits ⟨expandRpath (maxrpathlen tbl v) k.1,
      ((G.portList v).insertionSort (· ≤ ·)).reverse.map (maskBit G v k.2.1 k.2.2), N⟩).Matches
        (packetBits tbl v k.1 L) := by
  obtain ⟨hup, hdown⟩ := h
  have hrp : (expandRpath (maxrpathlen tbl v) k.1).map (Option.map Inbit.num) =
      (k.1.map (fun p : ℕ => Inbit.num (Int.ofNat p)) ++
        List.replicate (maxrpathlen tbl v + 1 - k.1.length) (Inbit.num (-1))).map some := by
    simp [expandRpath, Function.comp_def]
  rw [WildEntry.inbits, packetBits, Pattern.Matches, Pattern.Within, List.map_append, hrp,
    List.map_map, List.map_map]
  apply List.rel_append
  · exact List.forall₂_same.mpr fun _ _ => .inr rfl
  · rw [List.forall₂_map_left_iff, List.forall₂_map_right_iff, List.forall₂_same]
    intro port _
    simp only [Function.comp_apply, maskBit]
    split
    · rename_i he
      right
      rw [he, Option.any_some, if_neg (by simpa using hup)]
      rfl
    · split
      · rename_i he
        right
        obtain ⟨e, hport, hin⟩ := (Option.any_eq_true _ _).mp he
        rw [hport, Option.any_some, if_pos (by simpa using hdown (of_decide_eq_true hin))]
        rfl
      · exact .inl rfl

lemma path_eq_of_overlaps (hcheck : checkWildfwdtable (buildWildTable tbl v) = true)
    {x y : WildEntry G} (hx : x ∈ buildWildTable tbl v) (hy : y ∈ buildWildTable tbl v)
    (h : x.inbits.Overlaps y.inbits) : x.path.path = y.path.path := by
  have := List.all_eq_true.mp (List.all_eq_true.mp hcheck x hx) y hy
  rw [fwdEntryMatches_of_overlaps hx hy h] at this
  simpa using this

/-- The rows of the wildcard table are packed, whatever order sets are iterated in, and the
packed table decides each of them. -/
lemma exists_newerPackTcam_newWildtable
    (hcheck : checkWildfwdtable (buildWildTable tbl v) = true) (draw : ℕ → ℕ → ℕ) :
    ∃ tcam, newerPackTcam false draw (newWildtable (buildWildTable tbl v)) = .ok tcam ∧
      tcam.length ≤ (tbl.atSwitch v).length + 1 ∧
      (∀ x ∈ buildWildTable tbl v, ∀ row ∈ tcam, x.inbits.length = row.1.length) ∧
      ∀ x ∈ buildWildTable tbl v, Decides tcam x.inbits x.path.path := by
  have hwidth : ∀ x ∈ (buildWildTable tbl v).map (fun x => (x.inbits, x.path)),
      x.1.length = maxrpathlen tbl v + 1 + (G.portList v).length := by
    intro x hx
    obtain ⟨a, ha, rfl⟩ := List.mem_map.mp hx
    obtain ⟨hr, hm⟩ := lengths_of_mem_buildWildTable ha
    simp only [WildEntry.inbits, List.length_append, List.length_map, hr, hm]
  have hpath : ∀ x ∈ (buildWildTable tbl v).map (fun x => (x.inbits, x.path)),
      ∀ y ∈ (buildWildTable tbl v).map (fun x => (x.inbits, x.path)),
        x.1.Overlaps y.1 → x.2.path = y.2.path := by
    intro x hx y hy h
    obtain ⟨a, ha, rfl⟩ := List.mem_map.mp hx
    obtain ⟨b, hb, rfl⟩ := List.mem_map.mp hy
    exact path_eq_of_overlaps hcheck ha hb h
  obtain ⟨tcam, hrun, hlen, hrows, hdec⟩ := exists_newerPackTcam hwidth hpath draw
  rw [List.length_map, length_buildWildTable] at hlen
  rw [List.map_map] at hrun
  exact ⟨tcam, hrun, hlen, fun x hx row hrow =>
    (hwidth _ (List.mem_map_of_mem hx)).trans (hrows row hrow).symm,
    fun x hx => hdec _ (List.mem_map_of_mem hx)⟩

/-- If the rows of a switch pass their check, the packed table forwards every packet that an
entry matches on the path of that entry, and has at most one row more than there are
entries. -/
theorem newerPackTcam_forwards (hcheck : checkWildfwdtable (buildWildTable tbl v) = true)
    (draw : ℕ → ℕ → ℕ) :
    ∃ tcam, newerPackTcam false draw (newWildtable (buildWildTable tbl v)) = .ok tcam ∧
      tcam.length ≤ (tbl.atSwitch v).length + 1 ∧
      ∀ (rp : List ℕ) (L : Finset E), ∀ x ∈ tbl.entries v rp, Matches L x →
        ∃ path, firstMatch tcam (packetBits tbl v rp L) = some (some path) ∧
          path.path = x.2 := by
  obtain ⟨tcam, hrun, hlen, _, hdec⟩ := exists_newerPackTcam_newWildtable hcheck draw
  refine ⟨tcam, hrun, hlen, ?_⟩
  rintro rp L ⟨k, out⟩ hx hmatch
  obtain ⟨N, hin, rfl⟩ := mem_entries.mp hx
  have hbits := matches_packetBits tbl v (k := (rp, k)) hmatch
  obtain ⟨row, path, hfind, hrow, hout⟩ := hdec _ (mem_buildWildTable.mpr ⟨_, N, hin, rfl⟩)
    (fun F => decide (F.Matches (packetBits tbl v rp L)))
    (fun F hF => decide_eq_true (hbits.mono hF))
    (fun F hF => hbits.overlaps (of_decide_eq_true hF))
  exact ⟨path, by rw [firstMatch, hfind, Option.map_some, hrow], hout⟩

end Wild

lemma checkWildfwdtable_sort (wildtable : List (WildEntry G)) :
    checkWildfwdtable (sortWildTable wildtable) = checkWildfwdtable wildtable := by
  have hmem : ∀ x, x ∈ sortWildTable wildtable ↔ x ∈ wildtable := by
    intro x
    rw [sortWildTable, List.mem_reverse, (List.mergeSort_perm _ _).mem_iff]
  rw [Bool.eq_iff_iff]
  simp only [checkWildfwdtable, List.all_eq_true, hmem]

/-- The hop from switch `1` of `doubleLink` over one of its links. -/
def linkPath (e : Fin 2) : Path doubleLink where
  v := 1
  path := [e.val]
  fullPath := [e.val]
  rv := 0
  arcs := [(1, e)]
  failedE := ∅
  extraRPath := []
  leads := ⟨e, 0, e.val, by revert e; decide, Finset.notMem_empty e, rfl⟩
  arcSet_eq := by revert e; decide

/-- Link `0` of `doubleLink`, and link `1` if it is down. -/
def linkTable : PlinkoTable doubleLink :=
  [((1, [], 0, ∅), linkPath 0), ((1, [], 1, {0}), linkPath 1)]

theorem newerPackTcam_forwards_linkTable :
    ∃ tcam, newerPackTcam false (fun _ _ => 0) (newWildtable (buildWildTable linkTable 1)) =
        .ok tcam ∧ tcam.length ≤ 3 ∧
      ∃ path, firstMatch tcam (packetBits linkTable 1 [] {0}) = some (some path) ∧
        path.path = [1] := by
  have hcheck : checkWildfwdtable (buildWildTable linkTable 1) = true := by
    rw [buildWildTable, checkWildfwdtable_sort]
    decide +kernel
  obtain ⟨tcam, hrun, hlen, h⟩ := newerPackTcam_forwards hcheck (fun _ _ => 0)
  exact ⟨tcam, hrun, hlen, h [] {0} ((1, {0}), [1]) (by decide +kernel) (by decide)⟩

end ResSim
