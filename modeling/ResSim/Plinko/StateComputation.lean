import ResSim.Plinko.Tcam

/-!
# The state computation

After the wildcard table was built, the state of a switch is computed in four stages, three
of which are checks or statistics over the packed table. Two of these call the matching
function that was split in two and now always raises, so no switch with entries gets through.
The check of the packed table uses the new functions, and it passes.
-/

namespace ResSim

variable {V E : Type} [DecidableEq V] {G : PortGraph V E}

/-- `path.path`, where `none` is the path that drops. -/
def pathOf (path : Option (Path G)) : Option (List ℕ) := path.map Path.path

def checkNewWildtable (table : TcamTable G) : Except PyError Bool :=
  table.allM (fun x => table.allM (fun o => do
    let found ← entryMatches x.1 o.1
    .ok !(found && pathOf x.2 ≠ pathOf o.2)))

/-- Whether the packed table forwards a row on its path. -/
def checkTcamRow (inbits : Pattern Inbit) (path : Option (Path G)) :
    TcamTable G → Except PyError Bool
  | [] => .ok false
  | (tcamMask, tcamPath) :: rest => do
    if ← completeMatches inbits tcamMask then .ok (pathOf path = pathOf tcamPath)
    else if ← partialMatches inbits tcamMask then
      if pathOf path ≠ pathOf tcamPath then .ok false else checkTcamRow inbits path rest
    else checkTcamRow inbits path rest

def newerCheckTcam (newWildtable newerTcam : TcamTable G) : Except PyError Bool :=
  newWildtable.allM (fun x => checkTcamRow x.1 x.2 newerTcam)

/-- The length of the way back counts for the first row of the packed table that matches. -/
def updateEntryLens (inbits : Pattern Inbit) (path : Option (Path G)) (rplen : ℕ) :
    TcamTable G → ℕ → List ℕ → Except PyError (List ℕ)
  | [], _, entryLens => .ok entryLens
  | (tcamMask, tcamPath) :: rest, tcamI, entryLens => do
    if ← entryMatches inbits tcamMask then
      if pathOf path = pathOf tcamPath then
        if tcamPath.isSome then
          match entryLens[tcamI]? with
          | some len => .ok (entryLens.set tcamI (max len rplen))
          | none => .error .indexError
        else .ok entryLens
      else .error .systemExit
    else updateEntryLens inbits path rplen rest (tcamI + 1) entryLens

def newerTcamEntryLens (prefixlen : ℕ) (newWildtable newerTcam : TcamTable G) :
    Except PyError (List ℕ) :=
  newWildtable.foldlM (fun entryLens x =>
    let rplen := (x.1.findIdx? (fun a => a = some (Inbit.num (-1)))).getD prefixlen
    updateEntryLens x.1 x.2 rplen newerTcam 0 entryLens)
    (List.replicate (newerTcam.length - 1) 0)

/-- The four stages of one switch: the packed table and the lengths of its entries. -/
def computeState (draw : ℕ → ℕ → ℕ) (wildfwdtable : List (WildEntry G)) :
    Except PyError (TcamTable G × List ℕ) := do
  let prefixlen := (wildfwdtable.head?.map (fun x => x.rpath.length)).getD 0
  let table := newWildtable wildfwdtable
  if !(← checkNewWildtable table) then .error .systemExit
  else
    let newerTcam ← newerPackTcam true draw table
    if !(← newerCheckTcam table newerTcam) then .error .systemExit
    else
      let entryLens ← newerTcamEntryLens prefixlen table newerTcam
      .ok (newerTcam, entryLens)

/-- No stage raises, the check returns True, and there is a length for every row that does not
drop. -/
def Completes (draw : ℕ → ℕ → ℕ) (wildfwdtable : List (WildEntry G)) : Prop :=
  ∃ newerTcam entryLens, computeState draw wildfwdtable = .ok (newerTcam, entryLens) ∧
    newerCheckTcam (newWildtable wildfwdtable) newerTcam = .ok true ∧
    entryLens.length = (newerTcam.filter (fun row => row.2.isSome)).length

/-! ### The stage that raises -/

lemma checkNewWildtable_raises (row : Pattern Inbit × Option (Path G)) (table : TcamTable G) :
    checkNewWildtable (row :: table) = .error .deprecationWarning := rfl

/-- The computation never gets through the first stage of a switch with entries. -/
theorem not_completes (draw : ℕ → ℕ → ℕ) (x : WildEntry G) (rest : List (WildEntry G)) :
    computeState draw (x :: rest) = .error .deprecationWarning ∧ ¬ Completes draw (x :: rest) := by
  have hrun : computeState draw (x :: rest) = .error .deprecationWarning := by
    rw [computeState, newWildtable, List.map_cons, checkNewWildtable_raises]
    rfl
  refine ⟨hrun, ?_⟩
  rintro ⟨newerTcam, entryLens, hok, _⟩
  rw [hrun] at hok
  cases hok

/-- The row of a switch with one entry: nothing on the way back yet, and its second port up. -/
def linkRow : WildEntry doubleLink := ⟨[some (-1)], [.any, .up], linkPath 0⟩

theorem not_completes_linkRow :
    checkWildfwdtable [linkRow] = true ∧ ¬ Completes (fun _ _ => 0) [linkRow] := by
  refine ⟨by decide +kernel, ?_⟩
  rintro ⟨newerTcam, entryLens, hok, _⟩
  cases hok

/-! ### The check of the packed table -/

/-- Both matching functions tell whether patterns of one length overlap. -/
lemma completeMatches_eq {p q : Pattern Inbit} (h : p.length = q.length) :
    completeMatches p q = .ok (decide (p.Overlaps q)) := by
  rw [completeMatches, if_pos h]
  simp [isStar]

lemma checkTcamRow_eq {inbits : Pattern Inbit} {path : Option (Path G)} {tcam : TcamTable G}
    (h : ∀ row ∈ tcam, inbits.length = row.1.length) :
    checkTcamRow inbits path tcam =
      .ok ((tcam.find? (fun row => decide (inbits.Overlaps row.1))).any
        (fun row => pathOf path = pathOf row.2)) := by
  induction tcam with
  | nil => rfl
  | cons row tcam ih =>
    obtain ⟨hrow, htcam⟩ := List.forall_mem_cons.mp h
    rw [checkTcamRow, completeMatches_eq hrow, partialMatches, if_pos hrow, List.find?_cons]
    by_cases hover : inbits.Overlaps row.1
    · simp [hover, bind, Except.bind]
    · simp [hover, bind, Except.bind, ih htcam]

variable [DecidableEq E] {tbl : PlinkoTable G} {v : V}

/-- The packed table of a switch whose rows pass their check passes the check of packed
tables. -/
theorem newerCheckTcam_packed (hcheck : checkWildfwdtable (buildWildTable tbl v) = true)
    (draw : ℕ → ℕ → ℕ) :
    ∃ tcam, newerPackTcam false draw (newWildtable (buildWildTable tbl v)) = .ok tcam ∧
      newerCheckTcam (newWildtable (buildWildTable tbl v)) tcam = .ok true := by
  obtain ⟨tcam, hrun, _, hwidth, hdec⟩ := exists_newerPackTcam_newWildtable hcheck draw
  refine ⟨tcam, hrun, ?_⟩
  have hrow : ∀ x ∈ newWildtable (buildWildTable tbl v),
      checkTcamRow x.1 x.2 tcam = .ok true := by
    intro x hx
    obtain ⟨a, ha, rfl⟩ := List.mem_map.mp hx
    obtain ⟨row, path, hfind, hpath, hout⟩ := hdec a ha
      (fun F => decide (a.inbits.Overlaps F)) (fun F hF => decide_eq_true hF.overlaps)
      (fun F hF => of_decide_eq_true hF)
    rw [checkTcamRow_eq (hwidth a ha), hfind, Option.any_some, hpath]
    simp [pathOf, hout]
  rw [newerCheckTcam]
  generalize newWildtable (buildWildTable tbl v) = table at hrow
  induction table with
  | nil => rfl
  | cons x table ih =>
    obtain ⟨hx, htable⟩ := List.forall_mem_cons.mp hrow
    rw [List.allM, hx]
    exact ih htable

end ResSim
