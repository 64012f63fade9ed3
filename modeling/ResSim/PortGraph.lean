import Mathlib.Algebra.GroupWithZero.Nat
import Mathlib.Data.Finset.Basic
import Mathlib.Data.List.FinRange
import ResSim.Lib.Walk

/-!
# Switches, ports and links

The graph that `build_graph` makes of a topology. A link joins a port of one switch to a port
of another, and every port has at most one link, so a hop over a port leads to one switch and
arrives there at one port.
-/

namespace ResSim

/-- The graph: switches `V` and links `E`. -/
structure PortGraph (V E : Type) where
  /-- All switches. -/
  verts : List V
  /-- All links. -/
  links : List E
  v1 : E → V
  p1 : E → ℕ
  v2 : E → V
  p2 : E → ℕ
  /-- The ports of a switch that have a link. -/
  portList : V → List ℕ
  /-- `v.edges[port]`. -/
  edges : V → ℕ → Option E
  numhosts : V → ℕ
  nodup_verts : verts.Nodup
  mem_verts : ∀ v, v ∈ verts
  mem_links : ∀ e, e ∈ links
  mem_portList : ∀ v p, p ∈ portList v ↔ ∃ e, edges v p = some e
  edges_iff : ∀ v p e, edges v p = some e ↔ (v1 e, p1 e) = (v, p) ∨ (v2 e, p2 e) = (v, p)
  ends_ne : ∀ e, v1 e ≠ v2 e

variable {V E : Type}

namespace PortGraph

variable [DecidableEq V]

section OfLinks

variable (v1 : E → V) (p1 : E → ℕ) (v2 : E → V) (p2 : E → ℕ)

/-- The two ends of a link. -/
def endsOf (e : E) : List (V × ℕ) := [(v1 e, p1 e), (v2 e, p2 e)]

/-- The graph given by the ends of its links. -/
def ofLinks (verts : List V) (links : List E) (numhosts : V → ℕ) (hnodup : verts.Nodup)
    (hverts : ∀ v, v ∈ verts) (hlinks : ∀ e, e ∈ links) (hne : ∀ e, v1 e ≠ v2 e)
    (hport : ∀ e e', ∀ a ∈ endsOf v1 p1 v2 p2 e, a ∈ endsOf v1 p1 v2 p2 e' → e = e') :
    PortGraph V E where
  verts := verts
  links := links
  v1 := v1
  p1 := p1
  v2 := v2
  p2 := p2
  portList v := (links.flatMap (endsOf v1 p1 v2 p2)).filterMap
    (fun a => if a.1 = v then some a.2 else none)
  edges v p := links.find? (fun e => (v, p) ∈ endsOf v1 p1 v2 p2 e)
  numhosts := numhosts
  nodup_verts := hnodup
  mem_verts := hverts
  mem_links := hlinks
  mem_portList := by
    intro v p
    rw [List.mem_filterMap]
    constructor
    · rintro ⟨a, ha, hp⟩
      obtain ⟨e, he, hae⟩ := List.mem_flatMap.mp ha
      split at hp
      · rename_i hv
        rw [Option.some.injEq] at hp
        rw [← Option.isSome_iff_exists, List.find?_isSome]
        exact ⟨e, he, decide_eq_true (by rw [← hv, ← hp]; exact hae)⟩
      · cases hp
    · rintro ⟨e, he⟩
      have hae : (v, p) ∈ endsOf v1 p1 v2 p2 e := by simpa using List.find?_some he
      exact ⟨(v, p), List.mem_flatMap.mpr ⟨e, hlinks e, hae⟩, if_pos rfl⟩
  edges_iff := by
    intro v p e
    have hmem : (v, p) ∈ endsOf v1 p1 v2 p2 e ↔ (v1 e, p1 e) = (v, p) ∨ (v2 e, p2 e) = (v, p) := by
      rw [endsOf, List.mem_cons, List.mem_singleton, eq_comm, @eq_comm _ (v, p) (v2 e, p2 e)]
    rw [← hmem]
    constructor
    · intro he
      simpa using List.find?_some he
    · intro he
      cases hfind : links.find? (fun e => (v, p) ∈ endsOf v1 p1 v2 p2 e) with
      | none => exact absurd (decide_eq_true he) (List.find?_eq_none.mp hfind e (hlinks e))
      | some e' =>
        have he' : (v, p) ∈ endsOf v1 p1 v2 p2 e' := by simpa using List.find?_some hfind
        rw [hport e e' (v, p) he he']
  ends_ne := hne

end OfLinks

/-- The graph of `n` switches and `m` links given by the ends of its links. -/
def ofFinLinks {n m : ℕ} (v1 : Fin m → Fin n) (p1 : Fin m → ℕ) (v2 : Fin m → Fin n)
    (p2 : Fin m → ℕ) (numhosts : Fin n → ℕ) (hne : ∀ e, v1 e ≠ v2 e)
    (hport : ∀ e e', ∀ a ∈ endsOf v1 p1 v2 p2 e, a ∈ endsOf v1 p1 v2 p2 e' → e = e') :
    PortGraph (Fin n) (Fin m) :=
  ofLinks v1 p1 v2 p2 (List.finRange n) (List.finRange m) numhosts (List.nodup_finRange n)
    List.mem_finRange List.mem_finRange hne hport

/-- `e.get_other(v, p)`: the far end of a link. -/
def getOther (G : PortGraph V E) (e : E) (v : V) (p : ℕ) : Option (V × ℕ) :=
  if (G.v1 e, G.p1 e) = (v, p) then some (G.v2 e, G.p2 e)
  else if (G.v2 e, G.p2 e) = (v, p) then some (G.v1 e, G.p1 e)
  else none

/-- A hop over port `p`: the link, the next switch and the port there. -/
def hop (G : PortGraph V E) (v : V) (p : ℕ) : Option (E × V × ℕ) := do
  let e ← G.edges v p
  let (nextv, revhop) ← G.getOther e v p
  some (e, nextv, revhop)

/-- `v.ports[port]`: the switch behind a port. -/
def ports (G : PortGraph V E) (v : V) (p : ℕ) : Option V := (G.hop v p).map (fun h => h.2.1)

variable {G : PortGraph V E} {v w : V} {p q : ℕ} {e : E}

lemma hop_of_v1 (e : E) : G.hop (G.v1 e) (G.p1 e) = some (e, G.v2 e, G.p2 e) := by
  have he : G.edges (G.v1 e) (G.p1 e) = some e := (G.edges_iff ..).mpr (.inl rfl)
  rw [hop, he, Option.bind_eq_bind, Option.bind_some, getOther, if_pos rfl]
  rfl

lemma hop_of_v2 (e : E) : G.hop (G.v2 e) (G.p2 e) = some (e, G.v1 e, G.p1 e) := by
  have he : G.edges (G.v2 e) (G.p2 e) = some e := (G.edges_iff ..).mpr (.inr rfl)
  have hne : (G.v1 e, G.p1 e) ≠ (G.v2 e, G.p2 e) := fun h => G.ends_ne e (Prod.ext_iff.mp h).1
  rw [hop, he, Option.bind_eq_bind, Option.bind_some, getOther, if_neg hne, if_pos rfl]
  rfl

lemma hop_iff : G.hop v p = some (e, w, q) ↔
    (G.v1 e = v ∧ G.p1 e = p ∧ G.v2 e = w ∧ G.p2 e = q) ∨
      (G.v2 e = v ∧ G.p2 e = p ∧ G.v1 e = w ∧ G.p1 e = q) := by
  constructor
  · intro h
    cases he : G.edges v p with
    | none =>
      rw [hop, he] at h
      cases h
    | some e' =>
      rcases (G.edges_iff v p e').mp he with h' | h'
      · obtain ⟨rfl, rfl⟩ := Prod.ext_iff.mp h'
        rw [hop_of_v1, Option.some.injEq, Prod.mk.injEq, Prod.mk.injEq] at h
        obtain ⟨rfl, rfl, rfl⟩ := h
        exact .inl ⟨rfl, rfl, rfl, rfl⟩
      · obtain ⟨rfl, rfl⟩ := Prod.ext_iff.mp h'
        rw [hop_of_v2, Option.some.injEq, Prod.mk.injEq, Prod.mk.injEq] at h
        obtain ⟨rfl, rfl, rfl⟩ := h
        exact .inr ⟨rfl, rfl, rfl, rfl⟩
  · rintro (⟨rfl, rfl, rfl, rfl⟩ | ⟨rfl, rfl, rfl, rfl⟩)
    · exact hop_of_v1 e
    · exact hop_of_v2 e

lemma hop_symm (h : G.hop v p = some (e, w, q)) : G.hop w q = some (e, v, p) := by
  rcases hop_iff.mp h with ⟨h₁, h₂, h₃, h₄⟩ | ⟨h₁, h₂, h₃, h₄⟩
  · exact hop_iff.mpr (.inr ⟨h₃, h₄, h₁, h₂⟩)
  · exact hop_iff.mpr (.inl ⟨h₃, h₄, h₁, h₂⟩)

lemma edges_of_hop (h : G.hop v p = some (e, w, q)) : G.edges v p = some e := by
  rcases hop_iff.mp h with ⟨rfl, rfl, _, _⟩ | ⟨rfl, rfl, _, _⟩
  · exact (G.edges_iff ..).mpr (.inl rfl)
  · exact (G.edges_iff ..).mpr (.inr rfl)

lemma exists_hop_of_edges (h : G.edges v p = some e) : ∃ w q, G.hop v p = some (e, w, q) := by
  rcases (G.edges_iff v p e).mp h with h' | h'
  · obtain ⟨rfl, rfl⟩ := Prod.ext_iff.mp h'
    exact ⟨_, _, hop_of_v1 e⟩
  · obtain ⟨rfl, rfl⟩ := Prod.ext_iff.mp h'
    exact ⟨_, _, hop_of_v2 e⟩

lemma hop_det (h : G.hop v p = some (e, w, q)) {e' : E} {w' : V} {q' : ℕ}
    (h' : G.hop v p = some (e', w', q')) : e = e' ∧ w = w' ∧ q = q' := by
  rw [h, Option.some.injEq, Prod.mk.injEq, Prod.mk.injEq] at h'
  exact h'

lemma getOther_of_hop (h : G.hop v p = some (e, w, q)) : G.getOther e v p = some (w, q) := by
  rw [hop, edges_of_hop h, Option.bind_eq_bind, Option.bind_some] at h
  obtain ⟨a, ha, heq⟩ := Option.bind_eq_some_iff.mp h
  rw [Option.some.injEq, Prod.mk.injEq] at heq
  rw [ha, ← heq.2]

lemma ports_of_hop (h : G.hop v p = some (e, w, q)) : G.ports v p = some w := by
  rw [ports, h, Option.map_some]

lemma hop_ne (h : G.hop v p = some (e, w, q)) : w ≠ v := by
  rcases hop_iff.mp h with ⟨rfl, _, rfl, _⟩ | ⟨rfl, _, rfl, _⟩
  · exact (G.ends_ne e).symm
  · exact G.ends_ne e

lemma hop_mem_portList (h : G.hop v p = some (e, w, q)) : p ∈ G.portList v :=
  (G.mem_portList v p).mpr ⟨e, edges_of_hop h⟩

lemma hop_unique (h : G.hop v p = some (e, w, q)) {p' q' : ℕ} {w' : V}
    (h' : G.hop v p' = some (e, w', q')) : p = p' ∧ w = w' ∧ q = q' := by
  have hne := G.ends_ne e
  rcases hop_iff.mp h with ⟨h₁, h₂, h₃, h₄⟩ | ⟨h₁, h₂, h₃, h₄⟩ <;>
    rcases hop_iff.mp h' with ⟨h₁', h₂', h₃', h₄'⟩ | ⟨h₁', h₂', h₃', h₄'⟩
  · exact ⟨h₂.symm.trans h₂', h₃.symm.trans h₃', h₄.symm.trans h₄'⟩
  · exact absurd (h₁.trans h₁'.symm) hne
  · exact absurd (h₁'.trans h₁.symm) hne
  · exact ⟨h₂.symm.trans h₂', h₃.symm.trans h₃', h₄.symm.trans h₄'⟩

/-- Hops over one link from different switches are each the way back of the other. -/
lemma hop_back (h : G.hop v p = some (e, w, q)) {v' w' : V} {p' q' : ℕ}
    (h' : G.hop v' p' = some (e, w', q')) (hne : v ≠ v') : v' = w ∧ w' = v := by
  rcases hop_iff.mp h with ⟨h₁, _, h₃, _⟩ | ⟨h₁, _, h₃, _⟩ <;>
    rcases hop_iff.mp h' with ⟨h₁', _, h₃', _⟩ | ⟨h₁', _, h₃', _⟩
  · exact absurd (h₁.symm.trans h₁') hne
  · exact ⟨h₁'.symm.trans h₃, h₃'.symm.trans h₁⟩
  · exact ⟨h₁'.symm.trans h₃, h₃'.symm.trans h₁⟩
  · exact absurd (h₁.symm.trans h₁') hne

/-- The ports lead from one switch to another over links that are up. -/
def Leads (G : PortGraph V E) (failedE : Finset E) : V → List ℕ → V → Prop
  | v, [], w => v = w
  | v, port :: hops, w =>
    ∃ e nv q, G.hop v port = some (e, nv, q) ∧ e ∉ failedE ∧ G.Leads failedE nv hops w

lemma leads_concat {failedE : Finset E} {hops : List ℕ} {x : V} (h : G.Leads failedE v hops w)
    (hhop : G.hop w p = some (e, x, q)) (he : e ∉ failedE) :
    G.Leads failedE v (hops ++ [p]) x := by
  induction hops generalizing v with
  | nil =>
    obtain rfl : v = w := h
    exact ⟨e, x, q, hhop, he, rfl⟩
  | cons port hops ih =>
    obtain ⟨e', nv, q', hhop', he', h⟩ := h
    exact ⟨e', nv, q', hhop', he', ih h⟩

lemma leads_symm {failedE : Finset E} {hops : List ℕ} (h : G.Leads failedE v hops w) :
    ∃ hops', G.Leads failedE w hops' v := by
  induction hops generalizing v with
  | nil =>
    obtain rfl : v = w := h
    exact ⟨[], rfl⟩
  | cons port hops ih =>
    obtain ⟨e, nv, q, hhop, he, h⟩ := h
    obtain ⟨hops', h'⟩ := ih h
    exact ⟨hops' ++ [q], leads_concat h' (hop_symm hhop) he⟩

end PortGraph

variable [DecidableEq V] [DecidableEq E] {G : PortGraph V E} {failedE : Finset E} {v w : V}
  {p q : ℕ} {e : E}

/-- The links of a switch that are down. -/
def localFailedE (G : PortGraph V E) (failedE : Finset E) (v : V) : List E :=
  (G.portList v).filterMap (fun port => (G.edges v port).filter (fun e => e ∈ failedE))

omit [DecidableEq V] in
lemma mem_localFailedE_iff :
    e ∈ localFailedE G failedE v ↔ e ∈ failedE ∧ ∃ port, G.edges v port = some e := by
  rw [localFailedE, List.mem_filterMap]
  constructor
  · rintro ⟨port, _, hport⟩
    obtain ⟨hedge, hin⟩ := Option.filter_eq_some_iff.mp hport
    exact ⟨of_decide_eq_true hin, port, hedge⟩
  · rintro ⟨he, port, hport⟩
    refine ⟨port, (G.mem_portList v port).mpr ⟨e, hport⟩, ?_⟩
    rw [hport, Option.filter_some, if_pos (decide_eq_true he)]

lemma mem_localFailedE (h : G.hop v p = some (e, w, q)) :
    e ∈ localFailedE G failedE v ↔ e ∈ failedE := by
  rw [mem_localFailedE_iff, and_iff_left ⟨p, PortGraph.edges_of_hop h⟩]

/-! ### Graphs with few switches and links -/

-- named, so that the numerals of all these graphs are built on the same proofs
instance neZero_two : NeZero 2 := ⟨by decide⟩

instance neZero_three : NeZero 3 := ⟨by decide⟩

instance neZero_four : NeZero 4 := ⟨by decide⟩

instance neZero_five : NeZero 5 := ⟨by decide⟩

instance neZero_seven : NeZero 7 := ⟨by decide⟩

/-- Two switches joined by two links. -/
def doubleLink : PortGraph (Fin 2) (Fin 2) :=
  PortGraph.ofFinLinks (fun _ => 0) (fun e => e.val) (fun _ => 1) (fun e => e.val) (fun _ => 1)
    (by decide) (by decide)

/-- Four switches in a ring. -/
def fourRing : PortGraph (Fin 4) (Fin 4) :=
  PortGraph.ofFinLinks (fun e => e) (fun _ => 0) (fun e => e + 1) (fun _ => 1) (fun _ => 1)
    (by decide) (by decide)

end ResSim
