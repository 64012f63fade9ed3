import ResSim.Tables.Transfer

/-!
# Tables of trees on their way

`tree_alg` writes an entry with the numbers of its destination, trees and link, and
`tree_throughput` reads it and checks that the link is at the entry's port.
-/

namespace ResSim

open ResSim.Topology

variable {τ : Type}

/-- An entry of `v.fwdtable` for `dst`: `(dst, iT, aiT, e)` and `(port, mark_failed)`, with the
marked trees in the order in which the set lists them. The link is the one at the port, and trees
are numbered from 1 on. -/
structure TreeEntry (g : Graph) (index : τ → ℕ) (dst v : Text) where
  /-- The current tree, if there is one. -/
  iT : Option τ
  aiT : τ
  e : Edge
  port : ℕ
  markFailed : List τ
  edge_eq : dictGet (g.vertex v).edges port = some e
  iT_pos : ∀ T, iT = some T → 0 < index T
  aiT_pos : 0 < index aiT

variable {g : Graph} {index : τ → ℕ} {dst v : Text}

/-- The number of the current tree, 0 for a packet on no tree. -/
def TreeEntry.iTi (x : TreeEntry g index dst v) : ℕ :=
  match x.iT with
  | none => 0
  | some T => index T

/-- `ge`. -/
def TreeEntry.ge (x : TreeEntry g index dst v) : Data ℤ :=
  .arr [
    .arr [.num (g.vertex dst).vnum, .num x.iTi, .num (index x.aiT), .num (g.enum x.e)],
    .arr [.num x.port, numbers (x.markFailed.map (fun T => (index T : ℤ)))]]

/-- Writes an entry, with the assertions on the numbers of its trees. -/
def TreeEntry.write (x : TreeEntry g index dst v) : Option (Data ℤ) := do
  guard (∀ T ∈ x.iT, 0 < index T)
  guard (0 < index x.aiT)
  some x.ge

/-- One entry of the file, made of numbers and lists of numbers. -/
def readTreeEntry (g : Graph) (v : Text) (entry : Json) :
    Option ((Text × ℤ) × ((ℤ × Edge) × (ℤ × List ℤ))) :=
  match entry with
  | .arr [.arr [.num dsti, .num ctreei, .num utreei, .num ei], .arr [.num port, .arr marks]] => do
    let markFailed ← marks.mapM number
    let dst ← dictGet (numV g) dsti
    let e ← dictGet (numE g) ei
    guard (e.v1 = v ∧ e.p1 = port ∨ e.v2 = v ∧ e.p2 = port)
    guard (port ∈ (g.vertex v).ports.map (fun x => (x.1 : ℤ)))
    some ((dst, ctreei), ((utreei, e), (port, markFailed)))
  | _ => none

/-- What an entry says, with trees as numbers. -/
def TreeEntry.says (x : TreeEntry g index dst v) : (ℤ × Edge) × (ℤ × List ℤ) :=
  ((index x.aiT, x.e), (x.port, x.markFailed.map (fun T => (index T : ℤ))))

lemma TreeEntry.write_eq (x : TreeEntry g index dst v) : x.write = some x.ge := by
  have hpos : ∀ T ∈ x.iT, 0 < index T := x.iT_pos
  unfold TreeEntry.write
  simp only [guard, if_pos hpos, if_pos x.aiT_pos]
  rfl

lemma TreeEntry.ge_unique (x : TreeEntry g index dst v) : x.ge.Unique := by
  simp [TreeEntry.ge, Data.Unique, uniqueList, numbers_unique]

lemma TreeEntry.read_ge (hg : Numbering g) (hdst : dst ∈ g.verts) (x : TreeEntry g index dst v) :
    readTreeEntry g v (x.ge.mapKeys intText) = some ((dst, (x.iTi : ℤ)), x.says) := by
  obtain ⟨he, hends, hport⟩ := hg.edges v x.port x.e x.edge_eq
  have hend : x.e.v1 = v ∧ (x.e.p1 : ℤ) = x.port ∨ x.e.v2 = v ∧ (x.e.p2 : ℤ) = x.port := by
    simpa only [Int.ofNat_inj] using hends.imp Prod.mk.inj Prod.mk.inj
  have hport' : (x.port : ℤ) ∈ (g.vertex v).ports.map (fun y => (y.1 : ℤ)) := by
    obtain ⟨y, hy, heq⟩ := List.mem_map.mp hport
    exact List.mem_map.mpr ⟨y, hy, congrArg Nat.cast heq⟩
  have hge : x.ge.mapKeys intText = .arr [
      .arr [.num (g.vertex dst).vnum, .num x.iTi, .num (index x.aiT), .num (g.enum x.e)],
      .arr [.num x.port, numbers (x.markFailed.map (fun T => (index T : ℤ)))]] := by
    simp [TreeEntry.ge, Data.mapKeys, mapKeysList, mapKeys_numbers]
  rw [hge]
  unfold readTreeEntry numbers
  simp only [mapM_number, hg.numV_eq hdst, hg.numE_eq he, guard, if_pos hend, if_pos hport',
    Option.bind_eq_bind, Option.bind_some, Option.pure_def]
  rfl

section Program

variable (encoder : Text → Text) (indent : Option ℕ) (maxindent : Option ℤ)
  (listV : List Text → List Text)
  (itemOrder : List (ℤ × Data ℤ) → List (ℤ × Data ℤ))
  (keyOrder : List (Text × Json) → List (Text × Json))

/-- `globalwritetable` for one destination. -/
def writeTreeDict (table : (v : Text) → List (TreeEntry g index dst v)) : Option (Data ℤ) := do
  let ms ← (listV g.verts).mapM (fun v => do
    let entries ← (table v).mapM TreeEntry.write
    some ((g.vertex v).vnum, .arr entries))
  some (.obj (itemOrder ms))

/-- What `tree_alg` writes to `args.writetable`. -/
def writeTreeTables (tables : (dst v : Text) → List (TreeEntry g index dst v)) : Option Text := do
  let dcts ← (destinations g listV).mapM (fun dst => writeTreeDict listV itemOrder (tables dst))
  some (writtenText encoder indent maxindent ",\n".toList dcts)

/-- `build_fwdtable` of `tree_throughput`. -/
def buildTreeTable (g : Graph) (subtables : List Json) :
    Option (ReadTable (Text × ℤ) ((ℤ × Edge) × (ℤ × List ℤ))) :=
  buildFwdtable g (readTreeEntry g) keyOrder subtables

end Program

section Read

variable {encoder : Text → Text} (indent : Option ℕ) (maxindent : Option ℤ)
  {listV : List Text → List Text}
  {itemOrder : List (ℤ × Data ℤ) → List (ℤ × Data ℤ)}
  {keyOrder : List (Text × Json) → List (Text × Json)}

/-- The entries of one switch for one destination, with the current trees as keys. -/
def byCurrent (entries : List (TreeEntry g index dst v)) :
    List (ℤ × ((ℤ × Edge) × (ℤ × List ℤ))) :=
  entries.map (fun x => ((x.iTi : ℤ), x.says))

lemma underKey_byCurrent (entries : List (TreeEntry g index dst v)) (c : ℤ) :
    underKey (byCurrent entries) c =
      (entries.filter (fun x => (x.iTi : ℤ) = c)).map TreeEntry.says := by
  unfold underKey byCurrent
  rw [List.filter_map, List.map_map]
  rfl

lemma writeTreeDict_eq (table : (v : Text) → List (TreeEntry g index dst v)) :
    writeTreeDict listV itemOrder table =
      some (tableDict g listV itemOrder (fun v => (table v).map TreeEntry.ge)) := by
  have hswitch : ∀ v ∈ listV g.verts, (do
      let entries ← (table v).mapM TreeEntry.write
      some ((g.vertex v).vnum, Data.arr entries) : Option (ℤ × Data ℤ)) =
        some ((g.vertex v).vnum, Data.arr ((table v).map TreeEntry.ge)) := by
    intro v _
    rw [mapM_eq_map fun x _ => x.write_eq]
    rfl
  unfold writeTreeDict tableDict
  rw [mapM_eq_map hswitch]
  rfl

/-- The tables that `tree_throughput` reads are those that `tree_alg` wrote. -/
theorem treeTables_read (hg : Numbering g) (hne : g.verts ≠ []) (hV : ∀ l, (listV l).Perm l)
    (hitem : ∀ ms, (itemOrder ms).Perm ms) (hkey : ∀ ms, (keyOrder ms).Perm ms)
    (hquote : PutsInQuotes encoder) (tables : (dst v : Text) → List (TreeEntry g index dst v)) :
    ∃ text subtables tbl, writeTreeTables encoder indent maxindent listV itemOrder tables =
        some text ∧
      IsJson text (.arr subtables) ∧ buildTreeTable keyOrder g subtables = some tbl ∧
      ∀ v ∈ g.verts, ∀ dst ∈ destinations g listV, ∀ c, tbl.lookup v (dst, c) =
        ((tables dst v).filter (fun x => (x.iTi : ℤ) = c)).map TreeEntry.says := by
  have hwritten : ∀ dst ∈ destinations g listV, Written g (readTreeEntry g)
      (tableDict g listV itemOrder (fun v => (tables dst v).map TreeEntry.ge))
      (fun v => forDst dst (byCurrent (tables dst v))) := by
    intro dst hdst
    have hin := ((mem_destinations hV).mp hdst).1
    apply tableDict_written hg hV hitem
    · intro v _
      rw [List.map_map, List.mapM_map]
      unfold forDst byCurrent
      rw [List.map_map]
      exact mapM_eq_map fun x _ => x.read_ge hg hin
    · intro v _
      rw [List.forall_mem_map]
      exact fun x _ => x.ge_unique
  obtain ⟨subtables, hjson, tbl, hread, hlook⟩ :=
    written_read hg hne hV hkey hquote indent maxindent (b := ['\n']) (by simp [isBlank]) hwritten
  refine ⟨_, subtables, tbl, ?_, hjson, hread, fun v hv dst hdst c => ?_⟩
  · unfold writeTreeTables
    rw [mapM_eq_map fun dst _ => writeTreeDict_eq (tables dst)]
    rfl
  · rw [hlook v hv dst hdst, underKey_byCurrent]

end Read

end ResSim
