import ResSim.Tables.PlinkoTable
import ResSim.Tables.TreeTable

/-!
# Writing and reading tables

The programs that simulate packets read the topology once more and number its switches and links
themselves. They find the tables that were written: for every switch, destination and key the
same entries, in the same order.
-/

namespace ResSim

open ResSim.Topology

section Program

variable (inetAton : Text → Bool) (listV : List Text → List Text) (listE : List Edge → List Edge)
  (items : Text → Option (List Json)) (keyOrder : List (Text × Json) → List (Text × Json))

/-- How `tree_throughput` gets its tables: from the topology, and from the elements that `ijson`
finds in the text. -/
def readTreeTables (file : List (Text × List (ℕ × Text))) (text : Text) :
    Option (ReadTable (Text × ℤ) ((ℤ × Edge) × (ℤ × List ℤ))) := do
  let g ← buildGraph inetAton listV listE file
  let subtables ← items text
  buildTreeTable keyOrder g subtables

/-- How `resnet_throughput` gets its tables. -/
def readPlinkoTables (file : List (Text × List (ℕ × Text))) (text : Text) :
    Option (ReadTable (Text × List ℤ) ((Edge × Finset Edge) × List ℤ)) := do
  let g ← buildGraph inetAton listV listE file
  let subtables ← items text
  buildPlinkoTable keyOrder g subtables

end Program

/-- Forwarding tables are read as they were written. The writer lists its sets with `listV` and
`listE`, the reader with `listV'` and `listE'`. -/
theorem tables_lossless (inetAton : Text → Bool) {listV listV' : List Text → List Text}
    {listE listE' : List Edge → List Edge} (hV : ∀ l, (listV l).Perm l)
    (hV' : ∀ l, (listV' l).Perm l) (hE : ∀ l, (listE l).Perm l) (hE' : ∀ l, (listE' l).Perm l)
    {itemOrder : List (ℤ × Data ℤ) → List (ℤ × Data ℤ)} (hitem : ∀ ms, (itemOrder ms).Perm ms)
    {keyOrder : List (Text × Json) → List (Text × Json)} (hkey : ∀ ms, (keyOrder ms).Perm ms)
    {items : Text → Option (List Json)} (hitems : ∀ t vs, IsJson t (.arr vs) → items t = some vs)
    {encoder : Text → Text} (hquote : PutsInQuotes encoder) (indent : Option ℕ)
    (maxindent : Option ℤ) {file : List (Text × List (ℕ × Text))} {g : Graph}
    (hg : buildGraph inetAton listV listE file = some g) (hne : g.verts ≠ []) :
    (∀ (τ : Type) (index : τ → ℕ) (tables : (dst v : Text) → List (TreeEntry g index dst v)),
      ∃ text tbl, writeTreeTables encoder indent maxindent listV itemOrder tables = some text ∧
        readTreeTables inetAton listV' listE' items keyOrder file text = some tbl ∧
        ∀ v ∈ g.verts, ∀ dst ∈ destinations g listV, ∀ ctree, tbl.lookup v (dst, ctree) =
          ((tables dst v).filter (fun x => (x.iTi : ℤ) = ctree)).map TreeEntry.says) ∧
    (∀ tables : (dst v : Text) → List (PlinkoEntry g),
      ∃ text tbl, writePlinkoTables encoder indent maxindent listV itemOrder tables = some text ∧
        readPlinkoTables inetAton listV' listE' items keyOrder file text = some tbl ∧
        ∀ v ∈ g.verts, ∀ dst ∈ destinations g listV, ∀ rp, tbl.lookup v (dst, rp) =
          ((tables dst v).filter (fun x => x.rp = rp)).map PlinkoEntry.says) := by
  have hnum := buildGraph_numbering hV hE hg
  have hg' : buildGraph inetAton listV' listE' file = some g := by
    rw [← hg]
    exact buildGraph_order hV' hV hE' hE
  constructor
  · intro τ index tables
    obtain ⟨text, subtables, tbl, hwrite, hjson, hread, hlook⟩ :=
      treeTables_read indent maxindent hnum hne hV hitem hkey hquote tables
    refine ⟨text, tbl, hwrite, ?_, hlook⟩
    unfold readTreeTables
    simp only [hg', hitems text subtables hjson, Option.bind_eq_bind, Option.bind_some]
    exact hread
  · intro tables
    obtain ⟨text, subtables, tbl, hwrite, hjson, hread, hlook⟩ :=
      plinkoTables_read indent maxindent hnum hne hV hitem hkey hquote tables
    refine ⟨text, tbl, hwrite, ?_, hlook⟩
    unfold readPlinkoTables
    simp only [hg', hitems text subtables hjson, Option.bind_eq_bind, Option.bind_some]
    exact hread

/-- Two switches with two links. -/
def linkFile : List (Text × List (ℕ × Text)) :=
  [("a".toList, [(1, "b 1".toList), (2, "b 2".toList)]),
    ("b".toList, [(1, "a 1".toList), (2, "a 2".toList)])]

def linkGraph : Graph := (buildGraph (fun _ => false) id id linkFile).getD {}

def linkEdge (port : ℕ) : Edge := ⟨"a".toList, port, "b".toList, port⟩

/-- Two trees, each over a link of its own, and the way from the first to the second. -/
def linkTreeTables (dst v : Text) :
    List (TreeEntry linkGraph (fun i : Fin 2 => i.val + 1) dst v) :=
  if h : dictGet (linkGraph.vertex v).edges 1 = some (linkEdge 1) ∧
      dictGet (linkGraph.vertex v).edges 2 = some (linkEdge 2) then
    [⟨none, 0, linkEdge 1, 1, [], h.1, fun _ _ => Nat.succ_pos _, Nat.succ_pos _⟩,
      ⟨none, 1, linkEdge 2, 2, [], h.2, fun _ _ => Nat.succ_pos _, Nat.succ_pos _⟩,
      ⟨some 0, 1, linkEdge 2, 2, [0], h.2, fun _ _ => Nat.succ_pos _, Nat.succ_pos _⟩]
  else []

/-- Packets leave at port 1, and at port 2 when the link there fails. -/
def linkPlinkoTables (_dst _v : Text) : List (PlinkoEntry linkGraph) :=
  [⟨[], linkEdge 1, [], some [1], by decide, by simp, 1, [], rfl⟩,
    ⟨[], linkEdge 2, [linkEdge 1], some [2], by decide, by decide, 2, [], rfl⟩]

/-- The elements of a list, read with `readJson`. -/
def itemsOf (text : Text) : Option (List Json) :=
  match readJson text with
  | some (.arr vs) => some vs
  | _ => none

/-- Puts every text in quotation marks. -/
def inQuotes (s : Text) : Text := '"' :: (s ++ ['"'])

theorem tables_lossless_link :
    (∃ text tbl, writeTreeTables inQuotes (some 4) (some 2) id id linkTreeTables = some text ∧
      readTreeTables (fun _ => false) List.reverse List.reverse itemsOf id linkFile text =
        some tbl ∧
      tbl.lookup "a".toList ("b".toList, 0) =
        [((1, linkEdge 1), (1, [])), ((2, linkEdge 2), (2, []))] ∧
      tbl.lookup "a".toList ("b".toList, 1) = [((2, linkEdge 2), (2, [1]))]) ∧
    ∃ text tbl, writePlinkoTables inQuotes (some 4) (some 2) id id linkPlinkoTables =
        some text ∧
      readPlinkoTables (fun _ => false) List.reverse List.reverse itemsOf id linkFile text =
        some tbl ∧
      tbl.lookup "a".toList ("b".toList, []) =
        [((linkEdge 1, ∅), [1]), ((linkEdge 2, {linkEdge 1}), [2])] := by
  have hitems : ∀ t vs, IsJson t (.arr vs) → itemsOf t = some vs := by
    intro t vs h
    unfold itemsOf
    rw [readJson_of_isJson h]
  have hquote : PutsInQuotes inQuotes := fun _ _ _ => rfl
  have hbuild : (buildGraph (fun _ => false) id id linkFile).isSome = true := by decide
  have hg : buildGraph (fun _ => false) id id linkFile = some linkGraph := by
    obtain ⟨g, hg⟩ := Option.isSome_iff_exists.mp hbuild
    rw [linkGraph, hg, Option.getD_some]
  obtain ⟨htree, hplinko⟩ := tables_lossless (fun _ => false) (fun _ => List.Perm.refl _)
    List.reverse_perm (fun _ => List.Perm.refl _) List.reverse_perm
    (fun _ => List.Perm.refl _) (fun _ => List.Perm.refl _) hitems hquote (some 4) (some 2) hg
    (by decide)
  have ha : "a".toList ∈ linkGraph.verts := by decide
  have hb : "b".toList ∈ destinations linkGraph id := by decide
  constructor
  · obtain ⟨text, tbl, hwrite, hread, hlook⟩ :=
      htree (Fin 2) (fun i : Fin 2 => i.val + 1) linkTreeTables
    refine ⟨text, tbl, hwrite, hread, ?_, ?_⟩ <;>
    · rw [hlook _ ha _ hb]
      decide +kernel
  · obtain ⟨text, tbl, hwrite, hread, hlook⟩ := hplinko linkPlinkoTables
    refine ⟨text, tbl, hwrite, hread, ?_⟩
    rw [hlook _ ha _ hb]
    decide +kernel

end ResSim
