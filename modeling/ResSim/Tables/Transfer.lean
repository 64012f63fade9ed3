import Mathlib.Data.List.Perm.Basic
import ResSim.Lib.Traverse
import ResSim.Topo.Numbering
import ResSim.Tables.Encoder

/-!
# From one program to another

A program that computes tables writes one dictionary for each destination, with the entries of
each switch under the number of the switch. A program that simulates packets reads them with
`build_fwdtable`. What an entry is differs between the two pairs of programs, so writing and
reading an entry is a parameter here: if every entry is read back, so is every table.
-/

namespace ResSim

open ResSim.Topology

/-- A list of numbers. -/
def numbers {κ : Type} (l : List ℤ) : Data κ := .arr (l.map .num)

/-- A number. -/
def number : Json → Option ℤ
  | .num n => some n
  | _ => none

lemma numbers_unique {κ : Type} (l : List ℤ) : (numbers l : Data κ).Unique := by
  unfold numbers Data.Unique
  rw [uniqueList_iff, List.forall_mem_map]
  exact fun n _ => trivial

lemma mapKeys_numbers (l : List ℤ) : (numbers l : Data ℤ).mapKeys intText = numbers l := by
  simp [numbers, Data.mapKeys, mapKeysList_eq]

lemma mapM_number (l : List ℤ) : (l.map Data.num).mapM number = some l := by
  have hread : ∀ n ∈ l, (number ∘ Data.num) n = some (id n) := fun n _ => rfl
  rw [List.mapM_map, mapM_eq_map hread, List.map_id]

section Read

variable {κ β : Type} [DecidableEq κ]

/-- `num_v`. -/
def numV (g : Graph) : List (ℤ × Text) :=
  g.verts.foldl (fun d v => dictSet d (g.vertex v).vnum v) []

/-- `num_e`. -/
def numE (g : Graph) : List (ℤ × Edge) := g.links.foldl (fun d e => dictSet d (g.enum e) e) []

/-- `fwdtable`: for each switch the entries under each key, in order. -/
abbrev ReadTable (κ β : Type) := List (Text × List (κ × List β))

variable (g : Graph) (readEntry : Text → Json → Option (κ × β))

/-- Reads the entries of one switch. -/
def readVertex (tbl : ReadTable κ β) (member : Text × Json) : Option (ReadTable κ β) := do
  let vnum ← readInt member.1
  let v ← dictGet (numV g) vnum
  match member.2 with
  | .arr entries => do
    let t ← entries.foldlM
      (fun t entry => (readEntry v entry).map (fun x => dictAppend x.1 x.2 t))
      ((dictGet tbl v).getD [])
    some (dictSet tbl v t)
  | _ => none

-- the order in which the keys of a dictionary are visited
variable (keyOrder : List (Text × Json) → List (Text × Json))

/-- Reads one dictionary of the file. -/
def readSubtable (tbl : ReadTable κ β) (subtable : Json) : Option (ReadTable κ β) :=
  match subtable with
  | .obj ms => (keyOrder ms).foldlM (readVertex g readEntry) tbl
  | _ => none

/-- `build_fwdtable`. -/
def buildFwdtable (subtables : List Json) : Option (ReadTable κ β) :=
  subtables.foldlM (readSubtable g readEntry keyOrder) []

/-- `fwdtable[v][k]`. -/
def ReadTable.lookup (tbl : ReadTable κ β) (v : Text) (k : κ) : List β :=
  (dictGet ((dictGet tbl v).getD []) k).getD []

end Read

section Lookup

variable {κ β : Type} [DecidableEq κ] {g : Graph} {readEntry : Text → Json → Option (κ × β)}
  {keyOrder : List (Text × Json) → List (Text × Json)} {tbl : ReadTable κ β} {v w : Text} {k : κ}

/-- The entries under a key, in order. -/
def underKey (ents : List (κ × β)) (k : κ) : List β :=
  (ents.filter (fun x => x.1 = k)).map Prod.snd

lemma foldlM_readEntry {entries : List Json} {ents : List (κ × β)}
    (h : entries.mapM (readEntry v) = some ents) (t : List (κ × List β)) :
    entries.foldlM (fun t entry => (readEntry v entry).map (fun x => dictAppend x.1 x.2 t)) t =
      some (ents.foldl (fun t x => dictAppend x.1 x.2 t) t) := by
  induction entries generalizing ents t with
  | nil =>
    obtain rfl := Option.some.inj h
    rfl
  | cons entry entries ih =>
    rw [List.mapM_cons] at h
    obtain ⟨x, hx, h⟩ := Option.bind_eq_some_iff.mp h
    obtain ⟨ents', hents, h⟩ := Option.bind_eq_some_iff.mp h
    obtain rfl := Option.some.inj h
    rw [List.foldlM_cons, hx, List.foldl_cons]
    exact ih hents _

lemma dictGet_foldl_dictAppend (ents : List (κ × β)) (t : List (κ × List β)) :
    (dictGet (ents.foldl (fun t x => dictAppend x.1 x.2 t) t) k).getD [] =
      (dictGet t k).getD [] ++ underKey ents k := by
  induction ents generalizing t with
  | nil => simp [underKey]
  | cons x ents ih =>
    rw [List.foldl_cons, ih, dictGet_dictAppend, List.append_assoc]
    congr 1
    unfold underKey
    by_cases hx : x.1 = k
    · simp [hx]
    · simp [hx, Ne.symm hx]

/-- A dictionary of the file that stands for the entries `ents` of all switches. -/
def StandsFor (g : Graph) (readEntry : Text → Json → Option (κ × β)) (subtable : Json)
    (ents : Text → List (κ × β)) : Prop :=
  ∃ (ms : List (Text × Json)) (entries : Text → List Json), subtable = .obj ms ∧
    ms.Perm (g.verts.map (fun v => (intText (g.vertex v).vnum, Data.arr (entries v)))) ∧
    ∀ v ∈ g.verts, (entries v).mapM (readEntry v) = some (ents v)

lemma exists_map_of_perm {α γ : Type} {f : α → γ} {l : List γ} {vs : List α}
    (h : l.Perm (vs.map f)) : ∃ vs' : List α, vs'.Perm vs ∧ l = vs'.map f := by
  have hmap : List.Forall₂ (fun b a => b = f a) (vs.map f) vs := by
    rw [List.forall₂_map_left_iff]
    exact List.forall₂_same.mpr fun _ _ => rfl
  obtain ⟨vs', hl, hperm⟩ := List.perm_comp_forall₂ h hmap
  refine ⟨vs', hperm, ?_⟩
  rw [← List.forall₂_eq_eq_eq, List.forall₂_map_right_iff]
  exact hl

variable (tbl) (hg : Numbering g)

include hg

omit [DecidableEq κ] in
lemma Topology.Numbering.numV_eq (hv : v ∈ g.verts) :
    dictGet (numV g) (g.vertex v).vnum = some v := dictGet_foldl_dictSet hg.vnum_inj hv

omit [DecidableEq κ] in
lemma Topology.Numbering.numE_eq {e : Edge} (he : e ∈ g.links) :
    dictGet (numE g) (g.enum e) = some e := dictGet_foldl_dictSet hg.enum_inj he

lemma readVertex_eq (hv : v ∈ g.verts) {entries : List Json} {ents : List (κ × β)}
    (h : entries.mapM (readEntry v) = some ents) :
    ∃ tbl', readVertex g readEntry tbl (intText (g.vertex v).vnum, .arr entries) = some tbl' ∧
      ∀ w k, tbl'.lookup w k = tbl.lookup w k ++ if w = v then underKey ents k else [] := by
  refine ⟨dictSet tbl v (ents.foldl (fun t x => dictAppend x.1 x.2 t)
    ((dictGet tbl v).getD [])), ?_, fun w k => ?_⟩
  · unfold readVertex
    simp only [readInt_intText, hg.numV_eq hv, foldlM_readEntry h, Option.bind_eq_bind,
      Option.bind_some]
  · unfold ReadTable.lookup
    rw [dictGet_dictSet]
    by_cases hw : w = v
    · subst hw
      rw [if_pos rfl, if_pos rfl, Option.getD_some, dictGet_foldl_dictAppend]
    · rw [if_neg hw, if_neg hw, List.append_nil]

lemma readVertices_eq {vs : List Text} (hn : vs.Nodup) (hvs : ∀ v ∈ vs, v ∈ g.verts)
    {entries : Text → List Json} {ents : Text → List (κ × β)}
    (h : ∀ v ∈ g.verts, (entries v).mapM (readEntry v) = some (ents v)) :
    ∃ tbl', (vs.map (fun v => (intText (g.vertex v).vnum, Data.arr (entries v)))).foldlM
        (readVertex g readEntry) tbl = some tbl' ∧
      ∀ w k, tbl'.lookup w k = tbl.lookup w k ++ if w ∈ vs then underKey (ents w) k else [] := by
  induction vs generalizing tbl with
  | nil => exact ⟨tbl, rfl, by simp⟩
  | cons v vs ih =>
    rw [List.nodup_cons] at hn
    have hv := hvs v List.mem_cons_self
    obtain ⟨tbl₁, hrun, hlook⟩ := readVertex_eq tbl hg hv (h v hv)
    obtain ⟨tbl₂, hrest, hlook'⟩ :=
      ih tbl₁ hn.2 (fun x hx => hvs x (List.mem_cons_of_mem v hx))
    refine ⟨tbl₂, ?_, fun w k => ?_⟩
    · rw [List.map_cons, List.foldlM_cons, hrun]
      exact hrest
    · rw [hlook', hlook, List.append_assoc]
      congr 1
      by_cases hw : w = v
      · subst hw
        rw [if_pos rfl, if_neg hn.1, if_pos List.mem_cons_self, List.append_nil]
      · rw [if_neg hw, List.nil_append]
        simp only [List.mem_cons, hw, false_or]

/-- One dictionary is read in whatever order its keys are visited. -/
lemma readSubtable_eq (horder : ∀ ms, (keyOrder ms).Perm ms) {subtable : Json}
    {ents : Text → List (κ × β)} (h : StandsFor g readEntry subtable ents) :
    ∃ tbl', readSubtable g readEntry keyOrder tbl subtable = some tbl' ∧
      ∀ w ∈ g.verts, ∀ k, tbl'.lookup w k = tbl.lookup w k ++ underKey (ents w) k := by
  obtain ⟨ms, entries, rfl, hms, hents⟩ := h
  obtain ⟨vs, hvs, heq⟩ := exists_map_of_perm ((horder ms).trans hms)
  obtain ⟨tbl', hrun, hlook⟩ := readVertices_eq tbl hg
    (hvs.nodup_iff.mpr hg.verts_nodup) (fun v hv => hvs.mem_iff.mp hv) hents
  refine ⟨tbl', ?_, fun w hw k => ?_⟩
  · unfold readSubtable
    dsimp only
    rw [heq]
    exact hrun
  · rw [hlook, if_pos (hvs.mem_iff.mpr hw)]

/-- The tables that are read: what the dictionaries store, one behind the other. -/
theorem buildFwdtable_eq (horder : ∀ ms, (keyOrder ms).Perm ms) {subtables : List Json}
    {entss : List (Text → List (κ × β))}
    (h : List.Forall₂ (StandsFor g readEntry) subtables entss) :
    ∃ tbl, buildFwdtable g readEntry keyOrder subtables = some tbl ∧
      ∀ w ∈ g.verts, ∀ k, tbl.lookup w k = entss.flatMap (fun ents => underKey (ents w) k) := by
  have hrun : ∀ tbl : ReadTable κ β, ∃ tbl',
      subtables.foldlM (readSubtable g readEntry keyOrder) tbl = some tbl' ∧
      ∀ w ∈ g.verts, ∀ k, tbl'.lookup w k =
        tbl.lookup w k ++ entss.flatMap (fun ents => underKey (ents w) k) := by
    induction h with
    | nil => exact fun tbl => ⟨tbl, rfl, by simp⟩
    | cons hsub _ ih =>
      intro tbl
      obtain ⟨tbl₁, hone, hlook⟩ := readSubtable_eq tbl hg horder hsub
      obtain ⟨tbl₂, hrest, hlook'⟩ := ih tbl₁
      refine ⟨tbl₂, ?_, fun w hw k => ?_⟩
      · rw [List.foldlM_cons, hone]
        exact hrest
      · rw [hlook' w hw, hlook w hw, List.flatMap_cons, List.append_assoc]
  exact hrun []

end Lookup

section Write

variable (g : Graph) (listV : List Text → List Text)
  (itemOrder : List (ℤ × Data ℤ) → List (ℤ × Data ℤ))

/-- `globalwritetable`: the entries of each switch under its number. -/
def tableDict (lists : Text → List (Data ℤ)) : Data ℤ :=
  .obj (itemOrder ((listV g.verts).map (fun v => ((g.vertex v).vnum, .arr (lists v)))))

/-- The destinations. -/
def destinations : List Text := (listV g.verts).filter (fun dst => (g.vertex dst).numhosts ≠ 0)

/-- A dictionary that was written for the entries `ents`. -/
def Written {κ β : Type} (readEntry : Text → Json → Option (κ × β)) (d : Data ℤ)
    (ents : Text → List (κ × β)) : Prop :=
  d.Unique ∧ StandsFor g readEntry (d.mapKeys intText) ents

/-- Entries with the destination in their keys. -/
def forDst {κ β : Type} (dst : Text) (ents : List (κ × β)) : List ((Text × κ) × β) :=
  ents.map (fun x => ((dst, x.1), x.2))

variable {g listV itemOrder} {κ β : Type} [DecidableEq κ]

lemma underKey_forDst (dst d : Text) (ents : List (κ × β)) (c : κ) :
    underKey (forDst d ents) (dst, c) = if d = dst then underKey ents c else [] := by
  unfold underKey forDst
  rw [List.filter_map, List.map_map]
  by_cases hd : d = dst
  · simp [hd, Function.comp_def]
  · simp [hd, Function.comp_def]

omit [DecidableEq κ] in
lemma tableDict_written {readEntry : Text → Json → Option (κ × β)} (hg : Numbering g)
    (hV : ∀ l, (listV l).Perm l) (hitem : ∀ ms, (itemOrder ms).Perm ms)
    {lists : Text → List (Data ℤ)} {ents : Text → List (κ × β)}
    (hr : ∀ v ∈ g.verts,
      ((lists v).map (Data.mapKeys intText)).mapM (readEntry v) = some (ents v))
    (hu : ∀ v ∈ g.verts, ∀ x ∈ lists v, x.Unique) :
    Written g readEntry (tableDict g listV itemOrder lists) ents := by
  have hperm := (hitem ((listV g.verts).map
    (fun v => ((g.vertex v).vnum, Data.arr (lists v))))).trans ((hV g.verts).map _)
  unfold tableDict
  generalize itemOrder ((listV g.verts).map
    (fun v => ((g.vertex v).vnum, Data.arr (lists v)))) = ms at hperm
  refine ⟨?_, mapKeysMembers intText ms, fun v => (lists v).map (Data.mapKeys intText), rfl, ?_,
    hr⟩
  · unfold Data.Unique
    rw [uniqueMembers_iff]
    constructor
    · rw [(hperm.map Prod.fst).nodup_iff, List.map_map]
      exact List.Nodup.map_on hg.vnum_inj hg.verts_nodup
    · intro m hm
      obtain ⟨v, hv, rfl⟩ := List.mem_map.mp (hperm.mem_iff.mp hm)
      exact uniqueList_iff.mpr (hu v hv)
  · rw [mapKeysMembers_eq]
    apply (hperm.map _).trans
    apply List.Perm.of_eq
    rw [List.map_map]
    apply List.map_congr_left
    intro v _
    simp [Data.mapKeys, mapKeysList_eq]

lemma mem_destinations (hV : ∀ l, (listV l).Perm l) {dst : Text} :
    dst ∈ destinations g listV ↔ dst ∈ g.verts ∧ (g.vertex dst).numhosts ≠ 0 := by
  rw [destinations, List.mem_filter, (hV g.verts).mem_iff, decide_eq_true_eq]

lemma destinations_ne_nil (hg : Numbering g) (hV : ∀ l, (listV l).Perm l) (hne : g.verts ≠ []) :
    destinations g listV ≠ [] := by
  obtain ⟨v, hv, hpos⟩ := hg.exists_host hne
  exact List.ne_nil_of_mem ((mem_destinations hV).mpr ⟨hv, by omega⟩)

lemma flatMap_destinations (hg : Numbering g) (hV : ∀ l, (listV l).Perm l) {α : Type}
    (f : Text → List α) {dst : Text} (hdst : dst ∈ destinations g listV) :
    (destinations g listV).flatMap (fun d => if d = dst then f d else []) = f dst := by
  have hn : (destinations g listV).Nodup :=
    ((hV g.verts).nodup_iff.mpr hg.verts_nodup).filter _
  obtain ⟨s, t, hst⟩ := List.append_of_mem hdst
  rw [hst] at hn ⊢
  have hn' := List.nodup_middle.mp hn
  rw [List.nodup_cons, List.mem_append, not_or] at hn'
  have hnil : ∀ l : List Text, dst ∉ l → l.flatMap (fun d => if d = dst then f d else []) = [] := by
    intro l hl
    rw [List.flatMap_eq_nil_iff]
    intro d hd
    apply if_neg
    rintro rfl
    exact hl hd
  rw [List.flatMap_append, List.flatMap_cons, hnil s hn'.1.1, hnil t hn'.1.2, if_pos rfl,
    List.append_nil, List.nil_append]

/-- What is written is a JSON text, and what is read of it are the entries. -/
theorem written_read {readEntry : Text → Json → Option ((Text × κ) × β)} (hg : Numbering g)
    (hne : g.verts ≠ []) (hV : ∀ l, (listV l).Perm l)
    {keyOrder : List (Text × Json) → List (Text × Json)}
    (hkey : ∀ ms, (keyOrder ms).Perm ms) {encoder : Text → Text}
    (hquote : PutsInQuotes encoder) (indent : Option ℕ) (maxindent : Option ℤ) {b : Text}
    (hb : ∀ c ∈ b, isBlank c = true) {dict : Text → Data ℤ}
    {ents : Text → Text → List (κ × β)}
    (h : ∀ dst ∈ destinations g listV,
      Written g readEntry (dict dst) (fun v => forDst dst (ents dst v))) :
    ∃ subtables, IsJson (writtenText encoder indent maxindent (',' :: b)
        ((destinations g listV).map dict)) (.arr subtables) ∧
      ∃ tbl, buildFwdtable g readEntry keyOrder subtables = some tbl ∧
        ∀ v ∈ g.verts, ∀ dst ∈ destinations g listV, ∀ c,
          tbl.lookup v (dst, c) = underKey (ents dst v) c := by
  have hjson := writtenText_isJson indent maxindent hquote hb
    (fun hnil => destinations_ne_nil hg hV hne (List.map_eq_nil_iff.mp hnil))
    (List.forall_mem_map.mpr fun dst hdst => (h dst hdst).1)
  have hstores : List.Forall₂ (StandsFor g readEntry)
      (((destinations g listV).map dict).map (Data.mapKeys intText))
      ((destinations g listV).map (fun dst v => forDst dst (ents dst v))) := by
    rw [List.map_map, List.forall₂_map_left_iff, List.forall₂_map_right_iff]
    exact List.forall₂_same.mpr fun dst hdst => (h dst hdst).2
  obtain ⟨tbl, hread, hlook⟩ := buildFwdtable_eq hg hkey hstores
  refine ⟨_, hjson, tbl, hread, fun v hv dst hdst c => ?_⟩
  rw [hlook v hv, List.flatMap_map]
  simp only [underKey_forDst]
  exact flatMap_destinations hg hV (fun d => underKey (ents d v) c) hdst

end Write

end ResSim
