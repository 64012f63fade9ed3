import ResSim.Tables.Transfer

/-!
# Plinko tables on their way

`resnet_alg` writes an entry with the numbers of its destination and links, and
`resnet_throughput` reads it. The line that appends an entry to the dictionary also runs for a
path that is `None`, and would append the entry before once more; tables hold no such path.
-/

namespace ResSim

open ResSim.Topology

/-- An entry of `v.fwdtable` for `dst`: `(key1, e, lf)` and `path.path`, with the failed links in
the order in which the set lists them. -/
structure PlinkoEntry (g : Graph) where
  key1 : List ℕ
  e : Edge
  lf : List Edge
  path : Option (List ℕ)
  e_mem : e ∈ g.links
  lf_mem : ∀ f ∈ lf, f ∈ g.links
  stored : ∃ hop rest, path = some (hop :: rest)

variable {g : Graph} {dst v : Text}

/-- `global_entry`, for a path that is not `None`. -/
def PlinkoEntry.globalEntry (dst : Text) (x : PlinkoEntry g) : Option (Data ℤ) := do
  let path ← x.path
  some (.arr [
    .arr [.num (g.vertex dst).vnum, numbers (x.key1.map Nat.cast), .num (g.enum x.e),
      numbers (x.lf.map g.enum)],
    numbers (path.map Nat.cast)])

section Program

variable (encoder : Text → Text) (indent : Option ℕ) (maxindent : Option ℤ)
  (listV : List Text → List Text)
  (itemOrder : List (ℤ × Data ℤ) → List (ℤ × Data ℤ))
  (keyOrder : List (Text × Json) → List (Text × Json))

/-- Appends `global_entry`, which keeps its value if the path is `None`. It has no value at
first. -/
def appendEntry (dst : Text) (st : Option (Data ℤ) × List (Data ℤ)) (x : PlinkoEntry g) :
    Option (Option (Data ℤ) × List (Data ℤ)) := do
  let entry ← (x.globalEntry dst).or st.1
  some (some entry, st.2 ++ [entry])

/-- Appends the entries of a switch. -/
def writeSwitch (dst : Text) (table : (v : Text) → List (PlinkoEntry g))
    (st : Option (Data ℤ) × List (ℤ × Data ℤ)) (v : Text) :
    Option (Option (Data ℤ) × List (ℤ × Data ℤ)) := do
  let (last, entries) ← (table v).foldlM (appendEntry dst) (st.1, [])
  some (last, st.2 ++ [((g.vertex v).vnum, .arr entries)])

/-- `globalwritetable` for one destination. -/
def writePlinkoDict (tables : (dst v : Text) → List (PlinkoEntry g))
    (st : Option (Data ℤ) × List (Data ℤ)) (dst : Text) :
    Option (Option (Data ℤ) × List (Data ℤ)) := do
  let (last, ms) ← (listV g.verts).foldlM (writeSwitch dst (tables dst)) (st.1, [])
  some (last, st.2 ++ [.obj (itemOrder ms)])

/-- What `resnet_alg` writes to `args.writetable`. -/
def writePlinkoTables (tables : (dst v : Text) → List (PlinkoEntry g)) : Option Text := do
  let (_, dcts) ← (destinations g listV).foldlM (writePlinkoDict listV itemOrder tables) (none, [])
  some (writtenText encoder indent maxindent ",".toList dcts)

/-- One entry of the file, made of numbers and lists of numbers. -/
def readPlinkoEntry (g : Graph) (_v : Text) (entry : Json) :
    Option ((Text × List ℤ) × ((Edge × Finset Edge) × List ℤ)) :=
  match entry with
  | .arr [.arr [.num dstnum, .arr rp, .num enum, .arr fsnum], .arr out] => do
    guard (0 < out.length)
    let dst ← dictGet (numV g) dstnum
    let rp ← rp.mapM number
    let e ← dictGet (numE g) enum
    let fs ← fsnum.mapM (fun n => (number n).bind (dictGet (numE g)))
    let out ← out.mapM number
    some ((dst, rp), ((e, fs.toFinset), out))
  | _ => none

/-- `build_fwdtable` of `resnet_throughput` with `args.model` equal to `plinko`. -/
def buildPlinkoTable (g : Graph) (subtables : List Json) :
    Option (ReadTable (Text × List ℤ) ((Edge × Finset Edge) × List ℤ)) :=
  buildFwdtable g (readPlinkoEntry g) keyOrder subtables

end Program

/-- The path, which is not `None`. -/
def PlinkoEntry.pathList (x : PlinkoEntry g) : List ℕ := x.path.getD []

/-- What an entry says. -/
def PlinkoEntry.says (x : PlinkoEntry g) : (Edge × Finset Edge) × List ℤ :=
  ((x.e, x.lf.toFinset), x.pathList.map Nat.cast)

/-- The reverse path of the key, as numbers. -/
def PlinkoEntry.rp (x : PlinkoEntry g) : List ℤ := x.key1.map Nat.cast

/-- `global_entry`, when the path is not `None`. -/
def PlinkoEntry.ge (dst : Text) (x : PlinkoEntry g) : Data ℤ :=
  .arr [
    .arr [.num (g.vertex dst).vnum, numbers x.rp, .num (g.enum x.e), numbers (x.lf.map g.enum)],
    numbers (x.pathList.map Nat.cast)]

lemma PlinkoEntry.globalEntry_eq (x : PlinkoEntry g) : x.globalEntry dst = some (x.ge dst) := by
  obtain ⟨hop, rest, hpath⟩ := x.stored
  simp [PlinkoEntry.globalEntry, PlinkoEntry.ge, PlinkoEntry.pathList, PlinkoEntry.rp, hpath]

lemma PlinkoEntry.ge_unique (x : PlinkoEntry g) : (x.ge dst).Unique := by
  simp [PlinkoEntry.ge, Data.Unique, uniqueList, numbers_unique]

lemma PlinkoEntry.read_ge (hg : Numbering g) (hdst : dst ∈ g.verts) (x : PlinkoEntry g) :
    readPlinkoEntry g v ((x.ge dst).mapKeys intText) = some ((dst, x.rp), x.says) := by
  have hge : (x.ge dst).mapKeys intText = .arr [
      .arr [.num (g.vertex dst).vnum, numbers x.rp, .num (g.enum x.e), numbers (x.lf.map g.enum)],
      numbers (x.pathList.map Nat.cast)] := by
    simp [PlinkoEntry.ge, Data.mapKeys, mapKeysList, mapKeys_numbers]
  have hlen : 0 < ((x.pathList.map Nat.cast).map (Data.num : ℤ → Json)).length := by
    obtain ⟨hop, rest, hpath⟩ := x.stored
    simp [PlinkoEntry.pathList, hpath]
  have hfs : ((x.lf.map g.enum).map Data.num).mapM
      (fun n => (number n).bind (dictGet (numE g))) = some x.lf := by
    have hread : ∀ f ∈ x.lf, ((fun n => (number n).bind (dictGet (numE g))) ∘
        (Data.num ∘ g.enum)) f = some (id f) := fun f hf => hg.numE_eq (x.lf_mem f hf)
    rw [List.map_map, List.mapM_map, mapM_eq_map hread, List.map_id]
  rw [hge]
  unfold readPlinkoEntry numbers
  simp only [mapM_number, hg.numV_eq hdst, hg.numE_eq x.e_mem, hfs, guard, if_pos hlen,
    Option.bind_eq_bind, Option.bind_some, Option.pure_def]
  rfl

section Read

variable {encoder : Text → Text} (indent : Option ℕ) (maxindent : Option ℤ)
  {listV : List Text → List Text}
  {itemOrder : List (ℤ × Data ℤ) → List (ℤ × Data ℤ)}
  {keyOrder : List (Text × Json) → List (Text × Json)}

lemma writePlinkoDict_eq (tables : (dst v : Text) → List (PlinkoEntry g)) (last : Option (Data ℤ))
    (dcts : List (Data ℤ)) (dst : Text) :
    ∃ last', writePlinkoDict listV itemOrder tables (last, dcts) dst = some (last', dcts ++
      [tableDict g listV itemOrder (fun v => (tables dst v).map (PlinkoEntry.ge dst))]) := by
  have hentry : ∀ (v : Text) (x : PlinkoEntry g), x ∈ tables dst v → ∀ last entries, ∃ last',
      appendEntry dst (last, entries) x = some (last', entries ++ [x.ge dst]) := by
    intro v x _ last entries
    unfold appendEntry
    rw [x.globalEntry_eq]
    exact ⟨_, rfl⟩
  have hswitch : ∀ v ∈ listV g.verts, ∀ last ms, ∃ last',
      writeSwitch dst (tables dst) (last, ms) v = some (last', ms ++
        [((g.vertex v).vnum, .arr ((tables dst v).map (PlinkoEntry.ge dst)))]) := by
    intro v _ last ms
    obtain ⟨last', hrun⟩ := foldlM_append (hentry v) last []
    unfold writeSwitch
    rw [hrun]
    exact ⟨last', rfl⟩
  obtain ⟨last', hrun⟩ := foldlM_append hswitch last []
  unfold writePlinkoDict
  rw [hrun]
  exact ⟨last', rfl⟩

/-- The tables that `resnet_throughput` reads are those that `resnet_alg` wrote. -/
theorem plinkoTables_read (hg : Numbering g) (hne : g.verts ≠ []) (hV : ∀ l, (listV l).Perm l)
    (hitem : ∀ ms, (itemOrder ms).Perm ms) (hkey : ∀ ms, (keyOrder ms).Perm ms)
    (hquote : PutsInQuotes encoder) (tables : (dst v : Text) → List (PlinkoEntry g)) :
    ∃ text subtables tbl, writePlinkoTables encoder indent maxindent listV itemOrder tables =
        some text ∧
      IsJson text (.arr subtables) ∧ buildPlinkoTable keyOrder g subtables = some tbl ∧
      ∀ v ∈ g.verts, ∀ dst ∈ destinations g listV, ∀ rp, tbl.lookup v (dst, rp) =
        ((tables dst v).filter (fun x => x.rp = rp)).map PlinkoEntry.says := by
  have hwritten : ∀ dst ∈ destinations g listV, Written g (readPlinkoEntry g)
      (tableDict g listV itemOrder (fun v => (tables dst v).map (PlinkoEntry.ge dst)))
      (fun v => forDst dst ((tables dst v).map (fun x => (x.rp, x.says)))) := by
    intro dst hdst
    have hin := ((mem_destinations hV).mp hdst).1
    apply tableDict_written hg hV hitem
    · intro v _
      rw [List.map_map, List.mapM_map]
      unfold forDst
      rw [List.map_map]
      exact mapM_eq_map fun x _ => x.read_ge hg hin
    · intro v _
      rw [List.forall_mem_map]
      exact fun x _ => x.ge_unique
  obtain ⟨subtables, hjson, tbl, hread, hlook⟩ :=
    written_read hg hne hV hkey hquote indent maxindent (b := []) (by simp) hwritten
  obtain ⟨last, hrun⟩ := foldlM_append
    (fun dst _ last dcts => writePlinkoDict_eq tables last dcts dst) none []
  refine ⟨_, subtables, tbl, ?_, hjson, hread, fun v hv dst hdst rp => ?_⟩
  · unfold writePlinkoTables
    rw [hrun]
    rfl
  · rw [hlook v hv dst hdst]
    unfold underKey
    rw [List.filter_map, List.map_map]
    rfl

end Read

end ResSim
