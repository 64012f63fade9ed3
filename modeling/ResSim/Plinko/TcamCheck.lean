import ResSim.Plinko.StateComputation

/-!
# What the check of a packed table tells

The check is to accept a packed table if every key of a row gets the path of the row. It stops
at the first entry that overlaps the row, whether or not the entry covers it, and so tells
nothing of the keys of the row that this entry does not match. Where the entries that overlap
a row do not split it, the check is sound all the same.
-/

namespace ResSim

open Pattern

variable {V E : Type} [DecidableEq V] {G : PortGraph V E}

/-- The check of the table that `new_pack_tcam` packed. -/
def newCheckTcam (newWildtable newTcam : TcamTable G) : Except PyError Bool :=
  newWildtable.allM (fun x => checkTcamRow x.1 x.2 newTcam)

/-- A key of a row: a bit wherever the row has a wildcard. -/
def IsKeyOf (inbits : Pattern Inbit) (key : List Inbit) : Prop :=
  inbits.Matches key ∧
    ∀ (i : ℕ) (a : Inbit), inbits[i]? = some none → key[i]? = some a → a = Inbit.down ∨ a = Inbit.up

/-- The first entry that matches the key has the path. -/
def ForwardsKey (tcam : TcamTable G) (key : List Inbit) (path : Option (Path G)) : Prop :=
  (firstMatch tcam key).map pathOf = some (pathOf path)

/-- Every key of a row gets the path of the row. -/
def TcamCorrect (table tcam : TcamTable G) : Prop :=
  ∀ x ∈ table, ∀ key, IsKeyOf x.1 key → ForwardsKey tcam key x.2

/-- The entries that overlap the row send it one way up to an entry that covers it, or no entry
overlaps it. -/
def Unsplit (tcam : TcamTable G) (inbits : Pattern Inbit) : Prop :=
  (∀ row ∈ tcam, ¬ inbits.Overlaps row.1) ∨
    ∃ before row after, tcam = before ++ row :: after ∧ inbits.Within row.1 ∧
      ∀ row' ∈ before, inbits.Overlaps row'.1 → pathOf row'.2 = pathOf row.2

variable {tcam table : TcamTable G} {x : Pattern Inbit × Option (Path G)}

/-- The check accepts a row whose first overlapping entry has the path of the row. -/
lemma checkTcamRow_iff (h : ∀ row ∈ tcam, x.1.length = row.1.length) :
    checkTcamRow x.1 x.2 tcam = .ok true ↔
      ∃ row, tcam.find? (fun row => decide (x.1.Overlaps row.1)) = some row ∧
        pathOf x.2 = pathOf row.2 := by
  rw [checkTcamRow_eq h, Except.ok.injEq, Option.any_eq_true]
  simp only [decide_eq_true_eq]

lemma forwardsKey_of_unsplit (h : ∀ row ∈ tcam, x.1.length = row.1.length)
    (hunsplit : Unsplit tcam x.1) (hcheck : checkTcamRow x.1 x.2 tcam = .ok true)
    {key : List Inbit} (hkey : IsKeyOf x.1 key) : ForwardsKey tcam key x.2 := by
  obtain ⟨first, hfind, hpath⟩ := (checkTcamRow_iff h).mp hcheck
  rcases hunsplit with hnone | ⟨before, row, after, rfl, hwithin, hbefore⟩
  · have hover : x.1.Overlaps first.1 := by simpa using List.find?_some hfind
    exact absurd hover (hnone first (List.mem_of_find?_eq_some hfind))
  · -- the first overlapping entry is among those that send the row one way
    have hrow : pathOf row.2 = pathOf x.2 := by
      rw [List.find?_append, List.find?_cons, decide_eq_true hwithin.overlaps] at hfind
      cases hb : before.find? (fun row => decide (x.1.Overlaps row.1)) with
      | none =>
        rw [hb, Option.none_or, Option.some.injEq] at hfind
        rw [hfind, hpath]
      | some row' =>
        rw [hb, Option.some_or, Option.some.injEq] at hfind
        have hover : x.1.Overlaps row'.1 := by simpa using List.find?_some hb
        rw [hpath, ← hfind, hbefore row' (List.mem_of_find?_eq_some hb) hover]
    rw [ForwardsKey, firstMatch_append]
    cases hm : before.find? (fun rule => rule.1.Matches key) with
    | none =>
      rw [firstMatch, hm, Option.map_none, Option.none_or, firstMatch_cons,
        if_pos (hkey.1.mono hwithin), Option.map_some, hrow]
    | some row' =>
      have hmatch : row'.1.Matches key := by simpa using List.find?_some hm
      rw [firstMatch, hm, Option.map_some, Option.some_or, Option.map_some,
        hbefore row' (List.mem_of_find?_eq_some hm) (hkey.1.overlaps hmatch), hrow]

lemma allM_checkTcamRow (h : table.allM (fun x => checkTcamRow x.1 x.2 tcam) = .ok true) :
    ∀ x ∈ table, checkTcamRow x.1 x.2 tcam = .ok true := by
  induction table with
  | nil => exact nofun
  | cons x table ih =>
    rw [List.allM] at h
    cases hx : checkTcamRow x.1 x.2 tcam with
    | error e =>
      rw [hx] at h
      cases h
    | ok accepts =>
      rw [hx] at h
      cases accepts with
      | false => cases h
      | true => exact List.forall_mem_cons.mpr ⟨hx, ih h⟩

/-- The checks accept only packed tables that send every key of a row on its path, if the packed
table splits no row. -/
theorem tcamChecks_sound (h : ∀ x ∈ table, ∀ row ∈ tcam, x.1.length = row.1.length)
    (hunsplit : ∀ x ∈ table, Unsplit tcam x.1) :
    (newerCheckTcam table tcam = .ok true → TcamCorrect table tcam) ∧
      (newCheckTcam table tcam = .ok true → TcamCorrect table tcam) := by
  have hsound : table.allM (fun x => checkTcamRow x.1 x.2 tcam) = .ok true →
      TcamCorrect table tcam := by
    intro hall x hx key hkey
    exact forwardsKey_of_unsplit (h x hx) (hunsplit x hx) (allM_checkTcamRow hall x hx) hkey
  exact ⟨hsound, hsound⟩

/-- A row for every key and a row for one of them; the first entry covers only part of the
first row, the second one all of it. -/
def nestedRows : TcamTable doubleLink :=
  [([none, some .down], some (linkPath 0)), ([some .up, some .up], some (linkPath 1))]

def nestedTcam : TcamTable doubleLink :=
  [([some .up, some .down], some (linkPath 0)), ([none, some .down], some (linkPath 0)),
    ([some .up, none], some (linkPath 1))]

theorem tcamChecks_sound_nested :
    (newerCheckTcam nestedRows nestedTcam = .ok true ∧ TcamCorrect nestedRows nestedTcam) ∧
      newCheckTcam nestedRows nestedTcam = .ok true ∧ TcamCorrect nestedRows nestedTcam := by
  have hunsplit : ∀ x ∈ nestedRows, Unsplit nestedTcam x.1 := by
    intro x hx
    rcases List.mem_pair.mp hx with rfl | rfl
    · exact .inr ⟨[_], _, [_], rfl, by decide, by decide⟩
    · exact .inr ⟨[_, _], _, [], rfl, by decide, by decide⟩
  have hsound := tcamChecks_sound (by decide) hunsplit
  exact ⟨⟨rfl, hsound.1 rfl⟩, rfl, hsound.2 rfl⟩

/-- One row, and a packed table that splits its keys. -/
def starRow : TcamTable doubleLink := [([none], some (linkPath 0))]

def splitTcam : TcamTable doubleLink :=
  [([some .down], some (linkPath 0)), ([some .up], some (linkPath 1))]

/-- The key that the first entry leaves out is sent over the other link. -/
theorem tcamChecks_accept_wrong :
    ¬ (newerCheckTcam starRow splitTcam = .ok true → TcamCorrect starRow splitTcam) ∧
      ¬ (newCheckTcam starRow splitTcam = .ok true → TcamCorrect starRow splitTcam) := by
  have hwrong : ¬ TcamCorrect starRow splitTcam := by
    intro h
    have hkey : IsKeyOf [none] [Inbit.up] := by
      refine ⟨by decide, fun i a _ ha => .inr ?_⟩
      exact List.mem_singleton.mp (List.mem_of_getElem? ha)
    have hfwd := h ([none], some (linkPath 0)) (List.mem_singleton_self _) [.up] hkey
    revert hfwd
    unfold ForwardsKey
    decide
  exact ⟨fun h => hwrong (h rfl), fun h => hwrong (h rfl)⟩

end ResSim
