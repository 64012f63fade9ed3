import Mathlib.Algebra.Group.Nat.Defs
import Mathlib.Data.List.Sort
import Mathlib.Data.List.Count
import ResSim.Lib.Dict
import ResSim.Lib.Text
import ResSim.PortGraph

/-!
# Reading a topology

`build_graph` reads the switches of a topology file. A link is written at both of its ends, and
`getEdge` takes the two descriptions for one link. A switch is identified by its name and a link
by its two ends.
-/

namespace ResSim

namespace Topology

/-- A link between port `p1` of `v1` and port `p2` of `v2`. -/
structure Edge where
  v1 : Text
  p1 : ℕ
  v2 : Text
  p2 : ℕ
deriving DecidableEq

/-- `str((self.v1, self.p1, self.v2, self.p2))`. -/
def Edge.name (e : Edge) : Text :=
  "(".toList ++ e.v1 ++ ", ".toList ++ digits e.p1 ++ ", ".toList ++ e.v2 ++ ", ".toList ++
    digits e.p2 ++ ")".toList

/-- `e.get_other(v, p)`. -/
def Edge.getOther (e : Edge) (v : Text) (p : ℕ) : Option (Text × ℕ) :=
  if (e.v1, e.p1) = (v, p) then some (e.v2, e.p2)
  else if (e.v2, e.p2) = (v, p) then some (e.v1, e.p1)
  else none

/-- The attributes of a switch. -/
structure Vertex where
  vnum : ℤ := -1
  numhosts : ℕ := 0
  hostPorts : List (ℕ × Text) := []
  ports : List (ℕ × Text) := []
  totPorts : ℕ := 0
  edges : List (ℕ × Edge) := []
  edgeSet : List Edge := []
  /-- The ports to each neighbour. -/
  nbrPorts : List (Text × List ℕ) := []

/-- The switches `V` and the links `E` read so far, with their attributes. -/
structure Graph where
  verts : List Text := []
  links : List Edge := []
  vertex : Text → Vertex := fun _ => {}
  enum : Edge → ℤ := fun _ => -1

/-- Changes the attributes of one switch. -/
def Graph.modify (g : Graph) (v : Text) (f : Vertex → Vertex) : Graph :=
  { g with vertex := Function.update g.vertex v (f (g.vertex v)) }

/-- `get_vertex(sname)`. -/
def Graph.getVertex (g : Graph) (sname : Text) : Graph :=
  if sname ∈ g.verts then g else { g with verts := g.verts ++ [sname] }

/-- `get_edge(v1, p1, v2, p2)`. -/
def Graph.getEdge (g : Graph) (v1 : Text) (p1 : ℕ) (v2 : Text) (p2 : ℕ) : Graph × Edge :=
  if (⟨v1, p1, v2, p2⟩ : Edge) ∈ g.links then (g, ⟨v1, p1, v2, p2⟩)
  else if (⟨v2, p2, v1, p1⟩ : Edge) ∈ g.links then (g, ⟨v2, p2, v1, p1⟩)
  else ({ g with links := g.links ++ [⟨v1, p1, v2, p2⟩] }, ⟨v1, p1, v2, p2⟩)

variable (inetAton : Text → Bool)

/-- `is_host(str)`. Whether `socket.inet_aton` accepts a text is a parameter. -/
def isHost (str : Text) : Bool := "host".toList.isPrefixOf str || inetAton str

/-- One entry of a switch's ports. -/
def readPort (v : Text) (g : Graph) (entry : ℕ × Text) : Option Graph := do
  let port := entry.1
  let dev := firstWord entry.2
  let otherp ← readNat (lastWord entry.2)
  let g := g.modify v (fun x => { x with totPorts := x.totPorts + 1 })
  if isHost inetAton dev then
    some (g.modify v (fun x =>
      { x with hostPorts := dictSet x.hostPorts port dev, numhosts := x.numhosts + 1 }))
  else
    let (g, e) := (g.getVertex dev).getEdge v port dev otherp
    let g := g.modify v (fun x =>
      { x with
        ports := dictSet x.ports port dev
        nbrPorts := dictAppend dev port x.nbrPorts
        edges := dictSet x.edges port e
        edgeSet := x.edgeSet.insert e })
    some (g.modify dev (fun x =>
      { x with ports := dictSet x.ports otherp v, edges := dictSet x.edges otherp e }))

/-- One switch of the file. -/
def readSwitch (g : Graph) (sw : Text × List (ℕ × Text)) : Option Graph :=
  sw.2.foldlM (readPort inetAton sw.1) (g.getVertex sw.1)

section Numbers

-- `list(V)` and `list(E)`: the orders in which the sets are listed
variable (listV : List Text → List Text) (listE : List Edge → List Edge)

/-- `Vlist` in the order of the names. -/
def Graph.vlist (g : Graph) : List Text := (listV g.verts).insertionSort (fun x y => textLe x y)

/-- `Elist` in the order of the names. -/
def Graph.elist (g : Graph) : List Edge :=
  (listE g.links).insertionSort (fun x y => textLe x.name y.name)

/-- Every switch and every link gets its place in the order of names as its number. -/
def Graph.number (g : Graph) : Graph :=
  { g with
    vertex := fun v =>
      if v ∈ g.verts then { g.vertex v with vnum := (g.vlist listV).idxOf v } else g.vertex v
    enum := fun e => if e ∈ g.links then (g.elist listE).idxOf e else g.enum e }

end Numbers

/-- If there are no hosts, then everybody has one host. -/
def Graph.addHosts (g : Graph) : Graph :=
  if g.verts.all (fun v => (g.vertex v).numhosts = 0) then
    { g with
      vertex := fun v =>
        if v ∈ g.verts then { g.vertex v with numhosts := (g.vertex v).numhosts + 1 }
        else g.vertex v }
  else g

/-- `build_graph(switches)`. -/
def buildGraph (listV : List Text → List Text) (listE : List Edge → List Edge)
    (switches : List (Text × List (ℕ × Text))) : Option Graph := do
  let g ← switches.foldlM (readSwitch inetAton) {}
  some (g.number listV listE).addHosts

section Ends

/-- `(v, p)` is an end of the link. -/
def Edge.Ends (e : Edge) (v : Text) (p : ℕ) : Prop := (e.v1, e.p1) = (v, p) ∨ (e.v2, e.p2) = (v, p)

/-- The same link described from its other end. -/
def Edge.flip (e : Edge) : Edge := ⟨e.v2, e.p2, e.v1, e.p1⟩

/-- Which ports are linked: `link s p t q` says that port `p` of `s` leads to port `q` of `t`. -/
structure Linking (link : Text → ℕ → Text → ℕ → Prop) : Prop where
  symm : ∀ {s p t q}, link s p t q → link t q s p
  unique : ∀ {s p t q t' q'}, link s p t q → link s p t' q' → t = t' ∧ q = q'
  ne : ∀ {s p t q}, link s p t q → s ≠ t

variable {link : Text → ℕ → Text → ℕ → Prop} {links : List Edge} {e e' : Edge} {v w s t : Text}
  {p q : ℕ}

/-- Links of the list join what is linked, and none is listed from both of its ends. -/
structure Listed (link : Text → ℕ → Text → ℕ → Prop) (links : List Edge) : Prop where
  nodup : links.Nodup
  linked : ∀ e ∈ links, link e.v1 e.p1 e.v2 e.p2
  flip : ∀ e ∈ links, e.flip ∉ links

lemma Edge.Ends.getOther (hne : e.v1 ≠ e.v2) (h : e.Ends v p) :
    (e = ⟨v, p, e.v2, e.p2⟩ ∧ e.getOther v p = some (e.v2, e.p2)) ∨
      (e = ⟨e.v1, e.p1, v, p⟩ ∧ e.getOther v p = some (e.v1, e.p1)) := by
  unfold Edge.getOther
  rcases h with h | h
  · obtain ⟨rfl, rfl⟩ := Prod.mk.inj h
    exact .inl ⟨rfl, if_pos rfl⟩
  · obtain ⟨rfl, rfl⟩ := Prod.mk.inj h
    refine .inr ⟨rfl, ?_⟩
    rw [if_neg (fun heq => hne (Prod.mk.inj heq).1), if_pos rfl]

/-- The ends of the link between `(s, p)` and `(t, q)`. -/
lemma Edge.ends_iff {e : Edge} {s t v : Text} {p q p' : ℕ}
    (he : e = ⟨s, p, t, q⟩ ∨ e = ⟨t, q, s, p⟩) :
    e.Ends v p' ↔ (v, p') = (s, p) ∨ (v, p') = (t, q) := by
  unfold Edge.Ends
  rcases he with rfl | rfl
  · rw [@eq_comm _ (s, p), @eq_comm _ (t, q)]
  · rw [@eq_comm _ (s, p), @eq_comm _ (t, q), or_comm]

/-- `get_other` leads from one end of a link to the other one. -/
lemma Edge.getOther_iff (hne : e.v1 ≠ e.v2) :
    e.getOther v p = some (w, q) ↔ e = ⟨v, p, w, q⟩ ∨ e = ⟨w, q, v, p⟩ := by
  constructor
  · intro h
    have hends : e.Ends v p := by
      by_contra hn
      unfold Edge.getOther Edge.Ends at *
      rw [not_or] at hn
      rw [if_neg hn.1, if_neg hn.2] at h
      cases h
    rcases hends.getOther hne with ⟨heq, hget⟩ | ⟨heq, hget⟩
    · rw [hget, Option.some.injEq, Prod.mk.injEq] at h
      rw [← h.1, ← h.2]
      exact .inl heq
    · rw [hget, Option.some.injEq, Prod.mk.injEq] at h
      rw [← h.1, ← h.2]
      exact .inr heq
  · rintro (rfl | rfl)
    · exact if_pos rfl
    · unfold Edge.getOther
      rw [if_neg (fun heq => hne (Prod.mk.inj heq).1), if_pos rfl]

/-- A link from `s` to `t`, described from either end. -/
lemma Listed.eq_of_ends (hl : Linking link) (h : Listed link links) (he : e ∈ links)
    (hends : e.Ends s p) (hlink : link s p t q) : e = ⟨s, p, t, q⟩ ∨ e = ⟨t, q, s, p⟩ := by
  have helink := h.linked e he
  rcases hends with hends | hends
  · obtain ⟨rfl, rfl⟩ := Prod.mk.inj hends
    obtain ⟨rfl, rfl⟩ := hl.unique helink hlink
    exact .inl rfl
  · obtain ⟨rfl, rfl⟩ := Prod.mk.inj hends
    obtain ⟨rfl, rfl⟩ := hl.unique (hl.symm helink) hlink
    exact .inr rfl

lemma Listed.link_of_ends (hl : Linking link) (h : Listed link links) (he : e ∈ links)
    (hends : e.Ends v p) : ∃ t q, link v p t q := by
  have hlink := h.linked e he
  rcases hends with hends | hends
  · obtain ⟨rfl, rfl⟩ := Prod.mk.inj hends
    exact ⟨_, _, hlink⟩
  · obtain ⟨rfl, rfl⟩ := Prod.mk.inj hends
    exact ⟨_, _, hl.symm hlink⟩

lemma Listed.unique (hl : Linking link) (h : Listed link links) (he : e ∈ links)
    (he' : e' ∈ links) (hends : e.Ends v p) (hends' : e'.Ends v p) : e = e' := by
  obtain ⟨t, q, hlink⟩ := h.link_of_ends hl he hends
  rcases h.eq_of_ends hl he hends hlink with rfl | rfl <;>
    rcases h.eq_of_ends hl he' hends' hlink with rfl | rfl
  · rfl
  · exact absurd he' (h.flip _ he)
  · exact absurd he' (h.flip _ he)
  · rfl

lemma getEdge_spec (hl : Linking link) {g : Graph} (h : Listed link g.links)
    (hlink : link s p t q) : ∃ e links', g.getEdge s p t q = ({ g with links := links' }, e) ∧
      Listed link links' ∧ (e = ⟨s, p, t, q⟩ ∨ e = ⟨t, q, s, p⟩) ∧
      ∀ e', e' ∈ links' ↔ e' ∈ g.links ∨ e' = e := by
  unfold Graph.getEdge
  split
  · rename_i hin
    refine ⟨_, g.links, rfl, h, .inl rfl, fun e' => ?_⟩
    exact (or_iff_left_of_imp fun heq => heq ▸ hin).symm
  · rename_i hout
    split
    · rename_i hin
      refine ⟨_, g.links, rfl, h, .inr rfl, fun e' => ?_⟩
      exact (or_iff_left_of_imp fun heq => heq ▸ hin).symm
    · rename_i hflip
      have hne := hl.ne hlink
      refine ⟨_, g.links ++ [⟨s, p, t, q⟩], rfl, ⟨?_, ?_, ?_⟩, .inl rfl, fun e' => by simp⟩
      · exact List.nodup_append'.mpr ⟨h.nodup, List.nodup_singleton _,
          fun x hx hxe => hout (List.mem_singleton.mp hxe ▸ hx)⟩
      · intro e' he'
        rcases List.mem_append.mp he' with he' | he'
        · exact h.linked e' he'
        · rw [List.mem_singleton.mp he']
          exact hlink
      · intro e' he'
        rw [List.mem_append, List.mem_singleton] at he' ⊢
        rintro (hf | hf)
        · rcases he' with he' | rfl
          · exact h.flip e' he' hf
          · exact hflip hf
        · rcases he' with he' | rfl
          · have heq : e' = ⟨t, q, s, p⟩ := congrArg Edge.flip hf
            exact hflip (heq ▸ he')
          · exact hne.symm (congrArg Edge.v1 hf)

end Ends

section Reading

variable {inetAton : Text → Bool} {link : Text → ℕ → Text → ℕ → Prop} {g : Graph}
  {S : List Text} {D : List (Text × ℕ × Text)} {s t v w x : Text} {p q : ℕ} {e : Edge}

@[simp] lemma Graph.modify_verts (f : Vertex → Vertex) : (g.modify v f).verts = g.verts := rfl

@[simp] lemma Graph.modify_links (f : Vertex → Vertex) : (g.modify v f).links = g.links := rfl

lemma Graph.modify_vertex (f : Vertex → Vertex) :
    (g.modify v f).vertex w = if w = v then f (g.vertex w) else g.vertex w := by
  by_cases h : w = v
  · subst h
    simp [Graph.modify]
  · simp [Graph.modify, h]

/-- The entry for port `p` of `s` has been read. -/
def At (D : List (Text × ℕ × Text)) (s : Text) (p : ℕ) : Prop :=
  (s, p) ∈ D.map (fun y => (y.1, y.2.1))

lemma at_append {y : Text × ℕ × Text} :
    At (D ++ [y]) v p ↔ At D v p ∨ (v = y.1 ∧ p = y.2.1) := by
  simp [At, Prod.ext_iff, eq_comm]

/-- The number of host entries of `v`. -/
def hostCount (inetAton : Text → Bool) (D : List (Text × ℕ × Text)) (v : Text) : ℕ :=
  D.countP (fun y => decide (y.1 = v) && isHost inetAton (firstWord y.2.2))

lemma hostCount_append (y : Text × ℕ × Text) : hostCount inetAton (D ++ [y]) v =
    hostCount inetAton D v + if y.1 = v ∧ isHost inetAton (firstWord y.2.2) then 1 else 0 := by
  unfold hostCount
  rw [List.countP_append, List.countP_singleton]
  simp only [Bool.and_eq_true, decide_eq_true_eq]

/-- The attributes of `v` after the entries `D` were read. -/
structure VertexRead (inetAton : Text → Bool) (links : List Edge) (D : List (Text × ℕ × Text))
    (v : Text) (a : Vertex) : Prop where
  edges_iff : ∀ p e, dictGet a.edges p = some e ↔ e ∈ links ∧ e.Ends v p
  ports_eq : ∀ p, dictGet a.ports p =
    (dictGet a.edges p).bind (fun e => (e.getOther v p).map Prod.fst)
  edgeSet_iff : ∀ e, e ∈ a.edgeSet ↔ ∃ p, e ∈ links ∧ e.Ends v p ∧ At D v p
  numhosts : a.numhosts = hostCount inetAton D v

/-- The graph after the switches `S` were begun and the entries `D` were read. -/
structure Read (inetAton : Text → Bool) (link : Text → ℕ → Text → ℕ → Prop) (g : Graph)
    (S : List Text) (D : List (Text × ℕ × Text)) : Prop where
  verts_nodup : g.verts.Nodup
  verts_mem : ∀ v ∈ g.verts, v ∈ S ∨ ∃ s p q, link s p v q
  started : ∀ v ∈ S, v ∈ g.verts
  listed : Listed link g.links
  read : ∀ e ∈ g.links, At D e.v1 e.p1 ∨ At D e.v2 e.p2
  complete : ∀ s p t q, link s p t q → At D s p →
    (⟨s, p, t, q⟩ : Edge) ∈ g.links ∨ (⟨t, q, s, p⟩ : Edge) ∈ g.links
  vertex : ∀ v, VertexRead inetAton g.links D v (g.vertex v)

/-- An entry stands for a host, or for the link that the port has. -/
inductive EntryOk (inetAton : Text → Bool) (link : Text → ℕ → Text → ℕ → Prop) (s : Text)
    (p : ℕ) (x : Text) : Prop
  | host (hhost : isHost inetAton (firstWord x) = true) (n : ℕ)
      (hnum : readNat (lastWord x) = some n) (hno : ∀ t q, ¬ link s p t q)
  | link (q : ℕ) (hsw : isHost inetAton (firstWord x) = false)
      (hnum : readNat (lastWord x) = some q) (hlink : link s p (firstWord x) q)

variable {links links' : List Edge} {a : Vertex}

/-- An entry of another switch changes nothing, as long as no link of `v` is added. -/
lemma VertexRead.frame (h : VertexRead inetAton links D v a) (hvs : v ≠ s)
    (hlinks : ∀ e p, e.Ends v p → (e ∈ links' ↔ e ∈ links)) :
    VertexRead inetAton links' (D ++ [(s, p, x)]) v a where
  edges_iff p' e := by
    rw [h.edges_iff]
    exact and_congr_left fun hends => (hlinks e p' hends).symm
  ports_eq := h.ports_eq
  edgeSet_iff e := by
    rw [h.edgeSet_iff]
    apply exists_congr
    intro p'
    rw [at_append, or_iff_left (fun heq => hvs heq.1)]
    constructor
    · rintro ⟨he, hends, hat⟩
      exact ⟨(hlinks e p' hends).mpr he, hends, hat⟩
    · rintro ⟨he, hends, hat⟩
      exact ⟨(hlinks e p' hends).mp he, hends, hat⟩
  numhosts := by
    rw [h.numhosts, hostCount_append, if_neg (fun heq => hvs heq.1.symm), Nat.add_zero]

lemma VertexRead.hostEntry (h : VertexRead inetAton links D s a)
    (hhost : isHost inetAton (firstWord x) = true) (hno : ∀ e ∈ links, ¬ e.Ends s p)
    (tot : ℕ) (hp : List (ℕ × Text)) :
    VertexRead inetAton links (D ++ [(s, p, x)]) s
      { a with totPorts := tot, hostPorts := hp, numhosts := a.numhosts + 1 } where
  edges_iff := h.edges_iff
  ports_eq := h.ports_eq
  edgeSet_iff e := by
    rw [h.edgeSet_iff]
    apply exists_congr
    intro p'
    refine and_congr_right fun he => and_congr_right fun hends => ?_
    rw [at_append]
    refine (or_iff_left ?_).symm
    rintro ⟨-, rfl⟩
    exact hno e he hends
  numhosts := by
    rw [hostCount_append, if_pos ⟨rfl, hhost⟩, h.numhosts]

lemma readPort_host (hl : Linking link) (h : Read inetAton link g S D)
    (hhost : isHost inetAton (firstWord x) = true) {n : ℕ}
    (hnum : readNat (lastWord x) = some n) (hno : ∀ t q, ¬ link s p t q) :
    ∃ g', readPort inetAton s g (p, x) = some g' ∧
      Read inetAton link g' S (D ++ [(s, p, x)]) := by
  have hends : ∀ e ∈ g.links, ¬ e.Ends s p := by
    intro e he hends
    obtain ⟨t, q, hlink⟩ := h.listed.link_of_ends hl he hends
    exact hno t q hlink
  unfold readPort
  rw [hnum, Option.bind_eq_bind, Option.bind_some, if_pos hhost]
  refine ⟨_, rfl, h.verts_nodup, h.verts_mem, h.started, h.listed, ?_, ?_, fun v => ?_⟩
  · intro e he
    rw [at_append, at_append]
    exact (h.read e he).imp Or.inl Or.inl
  · intro s' p' t q hlink hat
    refine h.complete s' p' t q hlink ((at_append.mp hat).resolve_right ?_)
    rintro ⟨rfl, rfl⟩
    exact hno t q hlink
  · simp only [Graph.modify_vertex, Graph.modify_links]
    by_cases hv : v = s
    · subst hv
      simp only [if_pos]
      exact (h.vertex v).hostEntry hhost hends _ _
    · simp only [if_neg hv]
      exact (h.vertex v).frame hv (fun _ _ _ => Iff.rfl)

/-- The dictionaries of `edges` and `ports` after a link was set at one of its ends. -/
lemma dictGet_edges_set (hl : Linking link) (h : Listed link links') (he : e ∈ links')
    (hmem : ∀ e', e' ∈ links' ↔ e' ∈ links ∨ e' = e) (hends : e.Ends v p)
    (honly : ∀ p', e.Ends v p' → p' = p) {d : List (ℕ × Edge)}
    (hd : ∀ p' e', dictGet d p' = some e' ↔ e' ∈ links ∧ e'.Ends v p') (p' : ℕ) (e' : Edge) :
    dictGet (dictSet d p e) p' = some e' ↔ e' ∈ links' ∧ e'.Ends v p' := by
  rw [dictGet_dictSet]
  by_cases hp : p' = p
  · subst hp
    rw [if_pos rfl, Option.some.injEq]
    constructor
    · rintro rfl
      exact ⟨he, hends⟩
    · rintro ⟨he', hends'⟩
      exact h.unique hl he he' hends hends'
  · rw [if_neg hp, hd, hmem]
    refine and_congr_left fun hends' => (or_iff_left ?_).symm
    rintro rfl
    exact hp (honly p' hends')

lemma dictGet_ports_set {d : List (ℕ × Edge)} {dp : List (ℕ × Text)}
    (hother : (e.getOther v p).map Prod.fst = some t)
    (hd : ∀ p', dictGet dp p' =
      (dictGet d p').bind (fun e => (e.getOther v p').map Prod.fst)) (p' : ℕ) :
    dictGet (dictSet dp p t) p' =
      (dictGet (dictSet d p e) p').bind (fun e => (e.getOther v p').map Prod.fst) := by
  rw [dictGet_dictSet, dictGet_dictSet]
  by_cases hp : p' = p
  · subst hp
    rw [if_pos rfl, if_pos rfl, Option.bind_some, hother]
  · rw [if_neg hp, if_neg hp, hd]

lemma VertexRead.linkEntry (hl : Linking link) (h : VertexRead inetAton links D s a)
    (hlist : Listed link links') (he : e ∈ links')
    (hmem : ∀ e', e' ∈ links' ↔ e' ∈ links ∨ e' = e) (hends : e.Ends s p)
    (honly : ∀ p', e.Ends s p' → p' = p) (hother : (e.getOther s p).map Prod.fst = some t)
    (hsw : isHost inetAton (firstWord x) = false) (tot : ℕ) (nb : List (Text × List ℕ)) :
    VertexRead inetAton links' (D ++ [(s, p, x)]) s
      { a with
        totPorts := tot
        ports := dictSet a.ports p t
        nbrPorts := nb
        edges := dictSet a.edges p e
        edgeSet := a.edgeSet.insert e } where
  edges_iff := dictGet_edges_set hl hlist he hmem hends honly h.edges_iff
  ports_eq := dictGet_ports_set hother h.ports_eq
  edgeSet_iff e' := by
    rw [List.mem_insert_iff, h.edgeSet_iff]
    simp only [at_append]
    constructor
    · rintro (rfl | ⟨p', he', hends', hat⟩)
      · exact ⟨p, he, hends, .inr ⟨trivial, rfl⟩⟩
      · exact ⟨p', (hmem e').mpr (.inl he'), hends', .inl hat⟩
    · rintro ⟨p', he', hends', hat | ⟨-, rfl⟩⟩
      · rcases (hmem e').mp he' with he' | rfl
        · exact .inr ⟨p', he', hends', hat⟩
        · exact .inl rfl
      · exact .inl (hlist.unique hl he' he hends' hends)
  numhosts := by
    rw [hostCount_append, hsw, if_neg (by simp), Nat.add_zero]
    exact h.numhosts

lemma VertexRead.otherEntry (hl : Linking link) (h : VertexRead inetAton links D t a)
    (hlist : Listed link links') (he : e ∈ links')
    (hmem : ∀ e', e' ∈ links' ↔ e' ∈ links ∨ e' = e) (hends : e.Ends t q)
    (honly : ∀ q', e.Ends t q' → q' = q) (hother : (e.getOther t q).map Prod.fst = some s)
    (hst : t ≠ s) (hread : At D t q → e ∈ links) :
    VertexRead inetAton links' (D ++ [(s, p, x)]) t
      { a with ports := dictSet a.ports q s, edges := dictSet a.edges q e } where
  edges_iff := dictGet_edges_set hl hlist he hmem hends honly h.edges_iff
  ports_eq := dictGet_ports_set hother h.ports_eq
  edgeSet_iff e' := by
    rw [h.edgeSet_iff]
    apply exists_congr
    intro p'
    rw [at_append, or_iff_left (fun heq => hst heq.1)]
    constructor
    · rintro ⟨he', hends', hat⟩
      exact ⟨(hmem e').mpr (.inl he'), hends', hat⟩
    · rintro ⟨he', hends', hat⟩
      rcases (hmem e').mp he' with he' | rfl
      · exact ⟨he', hends', hat⟩
      · have hp' := honly p' hends'
        subst hp'
        exact ⟨hread hat, hends', hat⟩
  numhosts := by
    rw [hostCount_append, if_neg (fun heq => hst heq.1.symm), Nat.add_zero]
    exact h.numhosts

@[simp] lemma Graph.getVertex_links : (g.getVertex v).links = g.links := by
  unfold Graph.getVertex
  split <;> rfl

@[simp] lemma Graph.getVertex_vertex : (g.getVertex v).vertex = g.vertex := by
  unfold Graph.getVertex
  split <;> rfl

lemma Graph.mem_getVertex : w ∈ (g.getVertex v).verts ↔ w = v ∨ w ∈ g.verts := by
  unfold Graph.getVertex
  split
  · rename_i hin
    exact (or_iff_right_of_imp fun heq => heq ▸ hin).symm
  · simp [or_comm]

lemma Graph.nodup_getVertex (h : g.verts.Nodup) : (g.getVertex v).verts.Nodup := by
  unfold Graph.getVertex
  split
  · exact h
  · rename_i hout
    exact List.nodup_append'.mpr ⟨h, List.nodup_singleton v,
      fun x hx hxv => hout (List.mem_singleton.mp hxv ▸ hx)⟩

lemma readPort_link (hl : Linking link) (h : Read inetAton link g S D)
    (hsw : isHost inetAton (firstWord x) = false) (hnum : readNat (lastWord x) = some q)
    (hlink : link s p (firstWord x) q) :
    ∃ g', readPort inetAton s g (p, x) = some g' ∧
      Read inetAton link g' S (D ++ [(s, p, x)]) := by
  generalize hdev : firstWord x = t at hsw hlink
  have hst : s ≠ t := hl.ne hlink
  obtain ⟨e, links', hget, hlist, he, hmem⟩ := getEdge_spec hl
    (g := (g.modify s (fun x => { x with totPorts := x.totPorts + 1 })).getVertex t)
    (by simpa using h.listed) hlink
  rw [Graph.getVertex_links, Graph.modify_links] at hmem
  have hein : e ∈ links' := (hmem e).mpr (.inr rfl)
  have hne : e.v1 ≠ e.v2 := hl.ne (hlist.linked e hein)
  have hiff : ∀ v p', e.Ends v p' ↔ (v, p') = (s, p) ∨ (v, p') = (t, q) :=
    fun v p' => Edge.ends_iff he
  have hends : e.Ends s p := (hiff s p).mpr (.inl rfl)
  have hends' : e.Ends t q := (hiff t q).mpr (.inr rfl)
  have hother : e.getOther s p = some (t, q) ∧ e.getOther t q = some (s, p) := by
    rw [Edge.getOther_iff hne, Edge.getOther_iff hne]
    exact ⟨he, he.symm⟩
  have honlys : ∀ p', e.Ends s p' → p' = p := by
    intro p' hp'
    simpa [hst] using (hiff s p').mp hp'
  have honlyt : ∀ p', e.Ends t p' → p' = q := by
    intro p' hp'
    simpa [hst.symm] using (hiff t p').mp hp'
  -- a link that was read at its other end is in the list already
  have hread : At D t q → e ∈ g.links := by
    intro hat
    rcases h.complete t q s p (hl.symm hlink) hat with hin | hin
    · have hin' := (hmem _).mpr (.inl hin)
      rwa [hlist.unique hl hein hin' hends (.inr rfl)]
    · have hin' := (hmem _).mpr (.inl hin)
      rwa [hlist.unique hl hein hin' hends (.inl rfl)]
  unfold readPort
  rw [hnum, Option.bind_eq_bind, Option.bind_some, hdev, if_neg (by simp [hsw])]
  dsimp only
  rw [hget]
  refine ⟨_, rfl, ?_⟩
  constructor
  case verts_nodup => exact Graph.nodup_getVertex h.verts_nodup
  case verts_mem =>
    intro v hv
    rcases Graph.mem_getVertex.mp hv with rfl | hv
    · exact .inr ⟨s, p, q, hlink⟩
    · exact h.verts_mem v hv
  case started =>
    intro v hv
    exact Graph.mem_getVertex.mpr (.inr (h.started v hv))
  case listed => exact hlist
  case read =>
    intro e' he'
    rw [at_append, at_append]
    rcases (hmem e').mp he' with he' | rfl
    · exact (h.read e' he').imp Or.inl Or.inl
    · rcases he with rfl | rfl
      · exact .inl (.inr ⟨rfl, rfl⟩)
      · exact .inr (.inr ⟨rfl, rfl⟩)
  case complete =>
    intro s' p' t' q' hlink' hat
    rcases at_append.mp hat with hat | ⟨hs, hp⟩
    · exact (h.complete s' p' t' q' hlink' hat).imp
        (fun hin => (hmem _).mpr (.inl hin)) (fun hin => (hmem _).mpr (.inl hin))
    · dsimp only at hs hp
      subst hs hp
      obtain ⟨rfl, rfl⟩ := hl.unique hlink hlink'
      rcases he with rfl | rfl
      · exact .inl hein
      · exact .inr hein
  case vertex =>
    intro v
    simp only [Graph.modify_vertex, Graph.getVertex_vertex, Graph.modify_links]
    by_cases hvt : v = t
    · subst hvt
      simp only [if_pos, if_neg hst.symm]
      exact (h.vertex v).otherEntry hl hlist hein hmem hends' honlyt (by rw [hother.2]; rfl)
        hst.symm hread
    · by_cases hvs : v = s
      · subst hvs
        simp only [if_pos, if_neg hst]
        exact (h.vertex v).linkEntry hl hlist hein hmem hends honlys (by rw [hother.1]; rfl)
          (hdev ▸ hsw) _ _
      · simp only [if_neg hvt, if_neg hvs]
        apply (h.vertex v).frame hvs
        intro e' p' hv
        rw [hmem]
        apply or_iff_left
        rintro rfl
        simp [hiff, hvs, hvt] at hv

lemma readPort_read (hl : Linking link) (h : Read inetAton link g S D)
    (hx : EntryOk inetAton link s p x) :
    ∃ g', readPort inetAton s g (p, x) = some g' ∧
      Read inetAton link g' S (D ++ [(s, p, x)]) := by
  cases hx with
  | host hhost n hnum hno => exact readPort_host hl h hhost hnum hno
  | link q hsw hnum hlink => exact readPort_link hl h hsw hnum hlink

lemma readPorts_read (hl : Linking link) (h : Read inetAton link g S D)
    {ports : List (ℕ × Text)} (hports : ∀ y ∈ ports, EntryOk inetAton link s y.1 y.2) :
    ∃ g', ports.foldlM (readPort inetAton s) g = some g' ∧
      Read inetAton link g' S (D ++ ports.map (Prod.mk s)) := by
  induction ports generalizing g D with
  | nil => exact ⟨g, rfl, by simpa using h⟩
  | cons y ports ih =>
    obtain ⟨g', hrun, h'⟩ := readPort_read hl h (hports y List.mem_cons_self)
    obtain ⟨g'', hrest, h''⟩ := ih h' (fun z hz => hports z (List.mem_cons_of_mem y hz))
    refine ⟨g'', ?_, ?_⟩
    · rw [List.foldlM_cons, hrun]
      exact hrest
    · rw [List.append_assoc] at h''
      exact h''

lemma Read.begin (h : Read inetAton link g S D) (s : Text) :
    Read inetAton link (g.getVertex s) (S ++ [s]) D where
  verts_nodup := Graph.nodup_getVertex h.verts_nodup
  verts_mem v hv := by
    rcases Graph.mem_getVertex.mp hv with rfl | hv
    · simp
    · exact (h.verts_mem v hv).imp_left (List.mem_append_left _)
  started v hv := by
    rw [Graph.mem_getVertex]
    rcases List.mem_append.mp hv with hv | hv
    · exact .inr (h.started v hv)
    · exact .inl (List.mem_singleton.mp hv)
  listed := by simpa using h.listed
  read := by simpa using h.read
  complete := by simpa using h.complete
  vertex := by simpa using h.vertex

lemma readSwitches_read (hl : Linking link) (h : Read inetAton link g S D)
    {file : List (Text × List (ℕ × Text))}
    (hfile : ∀ sw ∈ file, ∀ y ∈ sw.2, EntryOk inetAton link sw.1 y.1 y.2) :
    ∃ g', file.foldlM (readSwitch inetAton) g = some g' ∧
      Read inetAton link g' (S ++ file.map Prod.fst) (D ++ dictPairs file) := by
  induction file generalizing g S D with
  | nil => exact ⟨g, rfl, by simpa [dictPairs] using h⟩
  | cons sw file ih =>
    obtain ⟨g', hrun, h'⟩ := readPorts_read hl (h.begin sw.1) (hfile sw List.mem_cons_self)
    obtain ⟨g'', hrest, h''⟩ := ih h' (fun z hz => hfile z (List.mem_cons_of_mem sw hz))
    refine ⟨g'', ?_, ?_⟩
    · rw [List.foldlM_cons]
      unfold readSwitch
      rw [hrun]
      exact hrest
    · rw [List.append_assoc, List.append_assoc] at h''
      exact h''

variable {listV : List Text → List Text} {listE : List Edge → List Edge}

@[simp] lemma Graph.number_verts : (g.number listV listE).verts = g.verts := rfl

@[simp] lemma Graph.number_links : (g.number listV listE).links = g.links := rfl

lemma Graph.number_vertex (listV : List Text → List Text) (listE : List Edge → List Edge)
    (g : Graph) (v : Text) :
    ∃ n, (g.number listV listE).vertex v = { g.vertex v with vnum := n } := by
  unfold Graph.number
  dsimp only
  split
  · exact ⟨_, rfl⟩
  · exact ⟨(g.vertex v).vnum, rfl⟩

@[simp] lemma Graph.addHosts_verts : g.addHosts.verts = g.verts := by
  unfold Graph.addHosts
  split <;> rfl

@[simp] lemma Graph.addHosts_links : g.addHosts.links = g.links := by
  unfold Graph.addHosts
  split <;> rfl

lemma Graph.addHosts_enum : g.addHosts.enum = g.enum := by
  unfold Graph.addHosts
  split <;> rfl

lemma Graph.addHosts_vertex (g : Graph) (v : Text) :
    ∃ n, g.addHosts.vertex v = { g.vertex v with numhosts := n } := by
  unfold Graph.addHosts
  split
  · dsimp only
    split
    · exact ⟨_, rfl⟩
    · exact ⟨(g.vertex v).numhosts, rfl⟩
  · exact ⟨(g.vertex v).numhosts, rfl⟩

lemma read_nil : Read inetAton link {} [] [] where
  verts_nodup := List.nodup_nil
  verts_mem _ hv := absurd hv List.not_mem_nil
  started _ hv := absurd hv List.not_mem_nil
  listed := ⟨List.nodup_nil, fun _ he => absurd he List.not_mem_nil, fun _ _ => List.not_mem_nil⟩
  read _ he := absurd he List.not_mem_nil
  complete _ _ _ _ _ hat := absurd hat List.not_mem_nil
  vertex v := ⟨by simp [dictGet], by simp [dictGet], by simp, rfl⟩

/-- The graph of a file that writes every link at both of its ends. -/
structure Built (inetAton : Text → Bool) (link : Text → ℕ → Text → ℕ → Prop)
    (file : List (Text × List (ℕ × Text))) (g : Graph) : Prop where
  verts_nodup : g.verts.Nodup
  verts_iff : ∀ v, v ∈ g.verts ↔ v ∈ file.map Prod.fst
  ends_mem : ∀ e ∈ g.links, e.v1 ∈ g.verts ∧ e.v2 ∈ g.verts
  listed : Listed link g.links
  complete : ∀ s p t q, link s p t q →
    (⟨s, p, t, q⟩ : Edge) ∈ g.links ∨ (⟨t, q, s, p⟩ : Edge) ∈ g.links
  edges_iff : ∀ v p e, dictGet (g.vertex v).edges p = some e ↔ e ∈ g.links ∧ e.Ends v p
  ports_eq : ∀ v p, dictGet (g.vertex v).ports p =
    (dictGet (g.vertex v).edges p).bind (fun e => (e.getOther v p).map Prod.fst)
  edgeSet_iff : ∀ v e, e ∈ (g.vertex v).edgeSet ↔ e ∈ g.links ∧ ∃ p, e.Ends v p
  numhosts : ∀ v ∈ g.verts, (g.vertex v).numhosts =
    if ∀ w ∈ g.verts, hostCount inetAton (dictPairs file) w = 0 then 1
    else hostCount inetAton (dictPairs file) v

lemma buildGraph_built (hl : Linking link) {file : List (Text × List (ℕ × Text))}
    (hfile : ∀ sw ∈ file, ∀ y ∈ sw.2, EntryOk inetAton link sw.1 y.1 y.2)
    (hall : ∀ s p t q, link s p t q → At (dictPairs file) s p)
    (hsw : ∀ s p t q, link s p t q → s ∈ file.map Prod.fst) :
    ∃ g, buildGraph inetAton listV listE file = some g ∧ Built inetAton link file g := by
  obtain ⟨g, hrun, h⟩ := readSwitches_read hl read_nil hfile
  rw [List.nil_append, List.nil_append] at h
  have hsame : ∀ v, ((g.number listV listE).addHosts.vertex v).edges = (g.vertex v).edges ∧
      ((g.number listV listE).addHosts.vertex v).ports = (g.vertex v).ports ∧
      ((g.number listV listE).addHosts.vertex v).edgeSet = (g.vertex v).edgeSet := by
    intro v
    obtain ⟨n, hn⟩ := (g.number listV listE).addHosts_vertex v
    obtain ⟨m, hm⟩ := g.number_vertex listV listE v
    rw [hn, hm]
    exact ⟨rfl, rfl, rfl⟩
  refine ⟨(g.number listV listE).addHosts, ?_, ?_⟩
  · unfold buildGraph
    rw [hrun]
    rfl
  refine ⟨?_, ?_, ?_, ?_, ?_, ?_, ?_, ?_, ?_⟩
  · rw [Graph.addHosts_verts, Graph.number_verts]
    exact h.verts_nodup
  · intro v
    rw [Graph.addHosts_verts, Graph.number_verts]
    refine ⟨fun hv => ?_, h.started v⟩
    rcases h.verts_mem v hv with hv | ⟨s, p, q, hlink⟩
    · exact hv
    · exact hsw v q s p (hl.symm hlink)
  · intro e he
    rw [Graph.addHosts_links, Graph.number_links] at he
    rw [Graph.addHosts_verts, Graph.number_verts]
    have hlink := h.listed.linked e he
    exact ⟨h.started _ (hsw _ _ _ _ hlink), h.started _ (hsw _ _ _ _ (hl.symm hlink))⟩
  · rw [Graph.addHosts_links, Graph.number_links]
    exact h.listed
  · intro s p t q hlink
    rw [Graph.addHosts_links, Graph.number_links]
    exact h.complete s p t q hlink (hall s p t q hlink)
  · intro v p e
    rw [(hsame v).1, Graph.addHosts_links, Graph.number_links]
    exact (h.vertex v).edges_iff p e
  · intro v p
    rw [(hsame v).1, (hsame v).2.1]
    exact (h.vertex v).ports_eq p
  · intro v e
    rw [(hsame v).2.2, Graph.addHosts_links, Graph.number_links, (h.vertex v).edgeSet_iff]
    constructor
    · rintro ⟨p, he, hends, -⟩
      exact ⟨he, p, hends⟩
    · rintro ⟨he, p, hends⟩
      obtain ⟨t, q, hlink⟩ := h.listed.link_of_ends hl he hends
      exact ⟨p, he, hends, hall v p t q hlink⟩
  · intro v hv
    rw [Graph.addHosts_verts, Graph.number_verts] at hv ⊢
    have hnum : ∀ w, ((g.number listV listE).vertex w).numhosts =
        hostCount inetAton (dictPairs file) w := by
      intro w
      obtain ⟨m, hm⟩ := g.number_vertex listV listE w
      rw [hm]
      exact (h.vertex w).numhosts
    unfold Graph.addHosts
    simp only [Graph.number_verts, List.all_eq_true, decide_eq_true_eq, hnum]
    split
    · rename_i hzero
      simp only [if_pos hv]
      rw [hzero v hv]
    · exact hnum v

section Built

variable {file : List (Text × List (ℕ × Text))} (h : Built inetAton link file g)

include h

lemma Built.ports_iff : dictGet (g.vertex v).ports p = some w ↔
    ∃ e q, dictGet (g.vertex v).edges p = some e ∧ e.getOther v p = some (w, q) := by
  rw [h.ports_eq, Option.bind_eq_some_iff]
  apply exists_congr
  intro e
  rw [exists_and_left, Option.map_eq_some_iff]
  apply and_congr_right
  intro _
  constructor
  · rintro ⟨⟨w', q⟩, hother, rfl⟩
    exact ⟨q, hother⟩
  · rintro ⟨q, hother⟩
    exact ⟨(w, q), hother, rfl⟩

/-- A link is at the port of either end, and leads back from there. -/
lemma Built.edges_back (hl : Linking link) (hedge : dictGet (g.vertex v).edges p = some e)
    (hother : e.getOther v p = some (w, q)) :
    dictGet (g.vertex w).edges q = some e ∧ e.getOther w q = some (v, p) := by
  obtain ⟨he, -⟩ := (h.edges_iff v p e).mp hedge
  have hne : e.v1 ≠ e.v2 := hl.ne (h.listed.linked e he)
  have hends := (Edge.getOther_iff hne).mp hother
  refine ⟨(h.edges_iff w q e).mpr ⟨he, ?_⟩, (Edge.getOther_iff hne).mpr hends.symm⟩
  rcases hends with rfl | rfl
  · exact .inr rfl
  · exact .inl rfl

lemma Built.mem_edgeSet : e ∈ (g.vertex v).edgeSet ↔ e ∈ g.links ∧ (e.v1 = v ∨ e.v2 = v) := by
  rw [h.edgeSet_iff]
  apply and_congr_right
  intro _
  constructor
  · rintro ⟨p, hends | hends⟩
    · exact .inl (Prod.mk.inj hends).1
    · exact .inr (Prod.mk.inj hends).1
  · rintro (rfl | rfl)
    · exact ⟨e.p1, .inl rfl⟩
    · exact ⟨e.p2, .inr rfl⟩

end Built

/-- The graph as the other parts of the development see it. -/
def Built.portGraph (hl : Linking link) {file : List (Text × List (ℕ × Text))}
    (h : Built inetAton link file g) :
    PortGraph {v : Text // v ∈ g.verts} {e : Edge // e ∈ g.links} :=
  PortGraph.ofLinks (fun e => ⟨e.1.v1, (h.ends_mem e.1 e.2).1⟩) (fun e => e.1.p1)
    (fun e => ⟨e.1.v2, (h.ends_mem e.1 e.2).2⟩) (fun e => e.1.p2) g.verts.attach g.links.attach
    (fun v => (g.vertex v).numhosts) (List.nodup_attach.mpr h.verts_nodup)
    (List.mem_attach g.verts) (List.mem_attach g.links)
    (fun e heq => hl.ne (h.listed.linked e.1 e.2) (congrArg Subtype.val heq))
    (fun e e' a ha ha' => by
      have hends : ∀ e : {e : Edge // e ∈ g.links}, a ∈ PortGraph.endsOf
          (fun e : {e : Edge // e ∈ g.links} =>
            (⟨e.1.v1, (h.ends_mem e.1 e.2).1⟩ : {v : Text // v ∈ g.verts})) (fun e => e.1.p1)
          (fun e => ⟨e.1.v2, (h.ends_mem e.1 e.2).2⟩) (fun e => e.1.p2) e → e.1.Ends a.1 a.2 := by
        intro e he
        rcases List.mem_cons.mp he with rfl | he
        · exact .inl rfl
        · rw [List.mem_singleton.mp he]
          exact .inr rfl
      exact Subtype.ext (h.listed.unique hl e.2 e'.2 (hends e ha) (hends e' ha')))

/-- `v.edges` is the same in both. -/
lemma Built.portGraph_edges (hl : Linking link) {file : List (Text × List (ℕ × Text))}
    (h : Built inetAton link file g) (v : {v : Text // v ∈ g.verts}) (p : ℕ)
    (e : {e : Edge // e ∈ g.links}) :
    (h.portGraph hl).edges v p = some e ↔ dictGet (g.vertex v).edges p = some e.1 := by
  rw [h.edges_iff, and_iff_right e.2, (h.portGraph hl).edges_iff]
  unfold Edge.Ends
  simp only [Prod.ext_iff, Subtype.ext_iff]
  rfl

/-- A hop follows `v.edges` and `get_other`. -/
lemma Built.portGraph_hop (hl : Linking link) {file : List (Text × List (ℕ × Text))}
    (h : Built inetAton link file g) (v w : {v : Text // v ∈ g.verts}) (p q : ℕ)
    (e : {e : Edge // e ∈ g.links}) : (h.portGraph hl).hop v p = some (e, w, q) ↔
      dictGet (g.vertex v).edges p = some e.1 ∧ e.1.getOther v p = some (w.1, q) := by
  have hne : e.1.v1 ≠ e.1.v2 := hl.ne (h.listed.linked e.1 e.2)
  rw [h.edges_iff, and_iff_right e.2, Edge.getOther_iff hne, PortGraph.hop_iff]
  obtain ⟨⟨v1, p1, v2, p2⟩, he⟩ := e
  unfold Edge.Ends
  simp only [Subtype.ext_iff, Prod.mk.injEq, Edge.mk.injEq]
  constructor
  · rintro (⟨h₁, h₂, h₃, h₄⟩ | ⟨h₁, h₂, h₃, h₄⟩)
    · exact ⟨.inl ⟨h₁, h₂⟩, .inl ⟨h₁, h₂, h₃, h₄⟩⟩
    · exact ⟨.inr ⟨h₁, h₂⟩, .inr ⟨h₃, h₄, h₁, h₂⟩⟩
  · rintro ⟨-, ⟨h₁, h₂, h₃, h₄⟩ | ⟨h₁, h₂, h₃, h₄⟩⟩
    · exact .inl ⟨h₁, h₂, h₃, h₄⟩
    · exact .inr ⟨h₃, h₄, h₁, h₂⟩

end Reading

end Topology

end ResSim
