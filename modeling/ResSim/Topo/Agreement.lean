import Mathlib.Logic.Basic
import ResSim.Lib.Traverse
import ResSim.Topo.BuildGraph
import ResSim.Topo.OutputDevices

/-!
# Written and read topologies

What `output_devices` writes, `build_graph` reads as the graph of the device map. YAML keeps the
order of the switches, while the ports of a switch may come in any order.
-/

namespace ResSim

open ResSim.Topology

/-- The list of switches read from a file: the ports of a switch come in any order. -/
def SameFile (out file : List (Text × List (ℕ × Text))) : Prop :=
  List.Forall₂ (fun a b => a.1 = b.1 ∧ a.2.Perm b.2) out file

/-- The names are classified alike where the topology is written and where it is read, and the
name of a switch is one word. -/
structure NamesOk (inetAton classify : Text → Bool) (devices : Devices) : Prop where
  classify_eq : ∀ d ∈ devices.map Prod.fst, isHost inetAton d = classify d
  no_blank : ∀ d ∈ devices.map Prod.fst, classify d = false → ' ' ∉ d

/-- `g` is the graph of the device map, with the links at the ports `ports`. -/
structure Agrees (classify : Text → Bool) (devices : Devices) (ports : DevPorts) (g : Graph) :
    Prop where
  verts_nodup : g.verts.Nodup
  verts_iff : ∀ v, v ∈ g.verts ↔ v ∈ devices.map Prod.fst ∧ classify v = false
  links_nodup : g.links.Nodup
  ends_mem : ∀ e ∈ g.links, e.v1 ∈ g.verts ∧ e.v2 ∈ g.verts
  /-- One `Edge` for each link between two switches. -/
  link_iff : ∀ s ∈ g.verts, ∀ t ∈ g.verts, ∀ p q, dictGet (ports s) p = some (portText t q) ↔
    Xor ((⟨s, p, t, q⟩ : Edge) ∈ g.links) ((⟨t, q, s, p⟩ : Edge) ∈ g.links)
  edges_iff : ∀ v p e, dictGet (g.vertex v).edges p = some e ↔ e ∈ g.links ∧ e.Ends v p
  ports_iff : ∀ v p w, dictGet (g.vertex v).ports p = some w ↔
    ∃ e q, dictGet (g.vertex v).edges p = some e ∧ e.getOther v p = some (w, q)
  /-- Over a link and back. -/
  back : ∀ v p e w q, dictGet (g.vertex v).edges p = some e → e.getOther v p = some (w, q) →
    dictGet (g.vertex w).edges q = some e ∧ e.getOther w q = some (v, p) ∧
      dictGet (g.vertex w).ports q = some v
  edgeSet_iff : ∀ v e, e ∈ (g.vertex v).edgeSet ↔ e ∈ g.links ∧ (e.v1 = v ∨ e.v2 = v)
  /-- Without any host every switch has one. -/
  numhosts : ∀ v ∈ g.verts, (g.vertex v).numhosts =
    if ∀ w ∈ g.verts, (neighbours devices w).countP classify = 0 then 1
    else (neighbours devices v).countP classify

section Link

variable {inetAton classify : Text → Bool} {devices : Devices} {ports : DevPorts} {g : Graph}
  {file : List (Text × List (ℕ × Text))} {s t v : Text} {p q : ℕ}

/-- The links between switches. -/
def SwitchLink (classify : Text → Bool) (devices : Devices) (s : Text) (p : ℕ) (t : Text)
    (q : ℕ) : Prop :=
  Peer (neighbours devices) s p t q ∧ classify s = false ∧ classify t = false

lemma linking_switchLink (hd : DevicesOk classify devices) :
    Linking (SwitchLink classify devices) where
  symm h := ⟨h.1.symm, h.2.2, h.2.1⟩
  unique h h' := h.1.unique h'.1
  ne h := by
    rintro rfl
    exact hd.no_loop _ (List.mem_of_getElem? h.1.getElem?)

lemma Peer.mem_names (hd : DevicesOk classify devices) (h : Peer (neighbours devices) s p t q) :
    s ∈ devices.map Prod.fst ∧ t ∈ devices.map Prod.fst := by
  have hmem := List.mem_of_getElem? h.getElem?
  exact ⟨List.mem_map_of_mem (mem_of_dictGet (dictGet_of_mem_neighbours hmem)),
    List.mem_map_of_mem (mem_of_dictGet (dictGet_of_mem_neighbours (hd.mem_symm hmem)))⟩

lemma firstWord_portText : firstWord (portText t q) = firstWord t := by
  have hsplit : portText t q = t ++ ' ' :: ("port ".toList ++ digits q) := by simp [portText]
  rw [hsplit, firstWord_append_blank_eq]

lemma readNat_lastWord_portText : readNat (lastWord (portText t q)) = some q := by
  have hsplit : portText t q = (t ++ " port".toList) ++ ' ' :: digits q := by simp [portText]
  rw [hsplit, lastWord_append_blank (blank_not_mem_digits q), readNat_digits]

lemma isHost_firstWord (hn : NamesOk inetAton classify devices)
    (hinet : ∀ str, inetAton str = true → inetAton (firstWord str) = true)
    (ht : t ∈ devices.map Prod.fst) : isHost inetAton (firstWord t) = classify t := by
  rw [← hn.classify_eq t ht]
  by_cases hhost : isHost inetAton t = true
  · rw [hhost]
    unfold isHost at hhost ⊢
    rw [Bool.or_eq_true] at hhost ⊢
    refine hhost.imp (fun hpre => ?_) (hinet t)
    obtain ⟨r, rfl⟩ := List.isPrefixOf_iff_prefix.mp hpre
    rw [firstWord_append (by decide)]
    exact List.isPrefixOf_iff_prefix.mpr (List.prefix_append _ _)
  · have hsw : classify t = false := by
      rw [← hn.classify_eq t ht]
      simpa using hhost
    rw [firstWord_eq_self (hn.no_blank t ht hsw)]

lemma entryOk_of_get (hd : DevicesOk classify devices) (hn : NamesOk inetAton classify devices)
    (hinet : ∀ str, inetAton str = true → inetAton (firstWord str) = true)
    (hp : PortsOf (neighbours devices) ports) (hs : classify s = false) {x : Text}
    (hget : dictGet (ports s) p = some x) :
    EntryOk inetAton (SwitchLink classify devices) s p x := by
  obtain ⟨t, q, hpeer, rfl⟩ := (hp.get s p x).mp hget
  have ht := (hpeer.mem_names hd).2
  have hclass := isHost_firstWord hn hinet ht
  cases hct : classify t with
  | true =>
    rw [hct] at hclass
    refine .host (by rw [firstWord_portText, hclass]) q readNat_lastWord_portText ?_
    rintro t' q' ⟨hpeer', -, ht'⟩
    rw [(hpeer.unique hpeer').1, ht'] at hct
    cases hct
  | false =>
    rw [hct] at hclass
    have hfirst : firstWord (portText t q) = t := by
      rw [firstWord_portText, firstWord_eq_self (hn.no_blank t ht hct)]
    refine .link q (by rw [firstWord_portText, hclass]) readNat_lastWord_portText ?_
    rw [hfirst]
    exact ⟨hpeer, hs, hct⟩

lemma countP_range_getElem? {α : Type} (l : List α) (P : α → Bool) :
    (List.range l.length).countP (fun p => l[p]?.any P) = l.countP P := by
  induction l with
  | nil => rfl
  | cons a l ih =>
    rw [List.length_cons, List.range_succ_eq_map, List.countP_cons, List.countP_map,
      List.countP_cons]
    exact congrArg (· + _) ih

lemma countP_ports (hd : DevicesOk classify devices) (hn : NamesOk inetAton classify devices)
    (hinet : ∀ str, inetAton str = true → inetAton (firstWord str) = true)
    (hp : PortsOf (neighbours devices) ports) (v : Text) :
    (ports v).countP (fun y => isHost inetAton (firstWord y.2)) =
      (neighbours devices v).countP classify := by
  have hentry : ∀ y ∈ ports v, (isHost inetAton (firstWord y.2) = true ↔
      (neighbours devices v)[y.1]?.any classify = true) := by
    intro y hy
    obtain ⟨t, q, hpeer, hx⟩ := (hp.get v y.1 y.2).mp ((mem_iff_dictGet (hp.nodup v)).mp hy)
    rw [hx, firstWord_portText, isHost_firstWord hn hinet (hpeer.mem_names hd).2,
      hpeer.getElem?, Option.any_some]
  calc (ports v).countP (fun y => isHost inetAton (firstWord y.2))
      = (ports v).countP (fun y => (neighbours devices v)[y.1]?.any classify) :=
        List.countP_congr hentry
    _ = ((ports v).map Prod.fst).countP (fun p => (neighbours devices v)[p]?.any classify) := by
        rw [List.countP_map]
        rfl
    _ = (List.range (neighbours devices v).length).countP
          (fun p => (neighbours devices v)[p]?.any classify) :=
        (hp.keys_perm (hd.symm v)).countP_eq _
    _ = (neighbours devices v).countP classify := countP_range_getElem? _ _

lemma SameFile.map_fst {out : List (Text × List (ℕ × Text))} (h : SameFile out file) :
    file.map Prod.fst = out.map Prod.fst := by
  induction h with
  | nil => rfl
  | cons hab _ ih => rw [List.map_cons, List.map_cons, hab.1, ih]

lemma SameFile.keys {out : List Text} (h : SameFile (out.map (fun s => (s, ports s))) file) :
    file.map Prod.fst = out := by
  rw [h.map_fst, List.map_map]
  exact List.map_id _

/-- The entries of a switch that is read are those that were written. -/
lemma SameFile.entries {out : List Text} (h : SameFile (out.map (fun s => (s, ports s))) file)
    {sw : Text × List (ℕ × Text)} (hsw : sw ∈ file) : sw.1 ∈ out ∧ (ports sw.1).Perm sw.2 := by
  have hforall : List.Forall₂ (fun s sw => s = sw.1 ∧ (ports s).Perm sw.2) out file :=
    List.forall₂_map_left_iff.mp h
  obtain ⟨s, hs, heq, hperm⟩ := exists_of_forall₂ hforall.flip hsw
  rw [← heq]
  exact ⟨hs, hperm⟩

lemma hostCount_file (hd : DevicesOk classify devices) (hn : NamesOk inetAton classify devices)
    (hinet : ∀ str, inetAton str = true → inetAton (firstWord str) = true)
    (hp : PortsOf (neighbours devices) ports)
    (hsame : SameFile ((sortedSwitches classify devices).map (fun s => (s, ports s))) file)
    (hv : v ∈ sortedSwitches classify devices) :
    hostCount inetAton (dictPairs file) v = (neighbours devices v).countP classify := by
  have hnodup : (file.map Prod.fst).Nodup := by
    rw [hsame.keys]
    exact (sortedSwitches_perm classify devices).nodup_iff.mpr (hd.nodup.filter _)
  obtain ⟨sw, hsw, rfl⟩ : ∃ sw ∈ file, sw.1 = v := by
    rw [← hsame.keys] at hv
    exact List.mem_map.mp hv
  rw [← countP_ports hd hn hinet hp sw.1, (hsame.entries hsw).2.countP_eq]
  unfold hostCount
  simp only [Bool.and_comm (decide _)]
  rw [← List.countP_filter, filter_dictPairs hnodup hsw, List.countP_map]
  rfl

lemma buildGraph_agrees (listV : List Text → List Text) (listE : List Edge → List Edge)
    (hd : DevicesOk classify devices) (hn : NamesOk inetAton classify devices)
    (hinet : ∀ str, inetAton str = true → inetAton (firstWord str) = true)
    (hp : PortsOf (neighbours devices) ports)
    (hsame : SameFile ((sortedSwitches classify devices).map (fun s => (s, ports s))) file) :
    ∃ g, buildGraph inetAton listV listE file = some g ∧ Agrees classify devices ports g := by
  have hl := linking_switchLink hd
  have hsw : ∀ s p t q, SwitchLink classify devices s p t q → s ∈ file.map Prod.fst := by
    intro s p t q hlink
    rw [hsame.keys, mem_sortedSwitches]
    exact ⟨(hlink.1.mem_names hd).1, hlink.2.1⟩
  have hentry : ∀ sw ∈ file, ∀ y ∈ sw.2,
      EntryOk inetAton (SwitchLink classify devices) sw.1 y.1 y.2 := by
    intro sw hmem y hy
    obtain ⟨hs, hperm⟩ := hsame.entries hmem
    apply entryOk_of_get hd hn hinet hp (mem_sortedSwitches.mp hs).2
    exact (mem_iff_dictGet (hp.nodup sw.1)).mp (hperm.mem_iff.mpr hy)
  have hall : ∀ s p t q, SwitchLink classify devices s p t q → At (dictPairs file) s p := by
    intro s p t q hlink
    obtain ⟨sw, hmem, rfl⟩ := List.mem_map.mp (hsw s p t q hlink)
    have hin := (hsame.entries hmem).2.mem_iff.mp (mem_of_dictGet (hp.get_portText.mpr hlink.1))
    exact List.mem_map.mpr ⟨(sw.1, p, portText t q),
      List.mem_flatMap.mpr ⟨sw, hmem, List.mem_map_of_mem hin⟩, rfl⟩
  obtain ⟨g, hrun, h⟩ := buildGraph_built hl hentry hall hsw
  refine ⟨g, hrun, ?_⟩
  have hverts : ∀ v, v ∈ g.verts ↔ v ∈ sortedSwitches classify devices := by
    intro v
    rw [h.verts_iff, hsame.keys]
  refine ⟨h.verts_nodup, ?_, h.listed.nodup, h.ends_mem, ?_, h.edges_iff, fun _ _ _ => h.ports_iff,
    ?_, fun _ _ => h.mem_edgeSet, ?_⟩
  · intro v
    rw [hverts, mem_sortedSwitches]
  · intro s hs t ht p q
    rw [hverts, mem_sortedSwitches] at hs ht
    rw [hp.get_portText]
    constructor
    · intro hpeer
      rcases h.complete s p t q ⟨hpeer, hs.2, ht.2⟩ with hin | hin
      · exact .inl ⟨hin, h.listed.flip _ hin⟩
      · exact .inr ⟨hin, h.listed.flip _ hin⟩
    · rintro (⟨hin, -⟩ | ⟨hin, -⟩)
      · exact (h.listed.linked _ hin).1
      · exact (h.listed.linked _ hin).1.symm
  · intro v p e w q hedge hother
    obtain ⟨hedge', hother'⟩ := h.edges_back hl hedge hother
    exact ⟨hedge', hother', h.ports_iff.mpr ⟨e, p, hedge', hother'⟩⟩
  · intro v hv
    have hcount : ∀ w ∈ g.verts,
        hostCount inetAton (dictPairs file) w = (neighbours devices w).countP classify :=
      fun w hw => hostCount_file hd hn hinet hp hsame ((hverts w).mp hw)
    rw [h.numhosts v hv, hcount v hv]
    have hiff : (∀ w ∈ g.verts, hostCount inetAton (dictPairs file) w = 0) ↔
        ∀ w ∈ g.verts, (neighbours devices w).countP classify = 0 :=
      forall₂_congr fun w hw => by rw [hcount w hw]
    by_cases hzero : ∀ w ∈ g.verts, (neighbours devices w).countP classify = 0
    · rw [if_pos hzero, if_pos (hiff.mpr hzero)]
    · rw [if_neg hzero, if_neg (fun hall => hzero (hiff.mp hall))]

end Link

/-- `output_devices` numbers the ports of every device without a failing assertion, position by
position and in pairs, and `build_graph` reads the file as the graph of the device map. -/
theorem outputDevices_buildGraph (inetAton classify : Text → Bool) (devices : Devices)
    (listV : List Text → List Text) (listE : List Edge → List Edge)
    (hd : DevicesOk classify devices) (hn : NamesOk inetAton classify devices)
    (hinet : ∀ str, inetAton str = true → inetAton (firstWord str) = true) :
    ∃ ports, outputPorts classify devices = some ports ∧
      outputDevices classify devices =
        some ((sortedSwitches classify devices).map (fun s => (s, ports s))) ∧
      (∀ s, ((ports s).map Prod.fst).Perm (List.range (neighbours devices s).length)) ∧
      (∀ s p t, (neighbours devices s)[p]? = some t →
        ∃ q, dictGet (ports s) p = some (portText t q)) ∧
      (∀ s p t q, dictGet (ports s) p = some (portText t q) →
        dictGet (ports t) q = some (portText s p)) ∧
      ∀ file, SameFile ((sortedSwitches classify devices).map (fun s => (s, ports s))) file →
        ∃ g, buildGraph inetAton listV listE file = some g ∧ Agrees classify devices ports g := by
  obtain ⟨ports, hassign, hp, hout⟩ := outputDevices_eq hd
  refine ⟨ports, hassign, hout, fun s => hp.keys_perm (hd.symm s), ?_, ?_,
    fun file hsame => buildGraph_agrees listV listE hd hn hinet hp hsame⟩
  · intro s p t hnbr
    obtain ⟨q, hpeer⟩ := exists_peer (hd.symm s) hnbr
    exact ⟨q, hp.get_portText.mpr hpeer⟩
  · intro s p t q hget
    exact hp.get_portText.mpr (hp.get_portText.mp hget).symm

/-- Two switches with two links and a host each. -/
def parallelPair : Devices :=
  [("s1".toList, ["s2".toList, "10.0.0.1".toList, "s2".toList]),
    ("s2".toList, ["s1".toList, "s1".toList, "host1".toList]),
    ("10.0.0.1".toList, ["s1".toList]), ("host1".toList, ["s2".toList])]

/-- The parallel links of `parallelPair` are paired in order. -/
theorem outputDevices_buildGraph_parallel :
    (outputDevices (isHost fun str => str = "10.0.0.1".toList) parallelPair).map
        (fun out => out.map (fun sw => sw.2.length)) = some [3, 3] ∧
      ∃ ports, outputPorts (isHost fun str => str = "10.0.0.1".toList) parallelPair = some ports ∧
        ∃ g, buildGraph (fun str => str = "10.0.0.1".toList) id id
            ((sortedSwitches (isHost fun str => str = "10.0.0.1".toList) parallelPair).map
              (fun s => (s, ports s))) = some g ∧
          Agrees (isHost fun str => str = "10.0.0.1".toList) parallelPair ports g := by
  obtain ⟨ports, hassign, -, -, -, -, hread⟩ := outputDevices_buildGraph
    (fun str => str = "10.0.0.1".toList) (isHost fun str => str = "10.0.0.1".toList) parallelPair
    id id (by decide) ⟨fun _ _ => rfl, by decide⟩ (by
      intro str hstr
      rw [of_decide_eq_true hstr]
      decide)
  refine ⟨by decide, ports, hassign, hread _ ?_⟩
  exact List.forall₂_same.mpr fun a _ => ⟨rfl, List.Perm.refl _⟩

/-- One link between two switches. -/
def singleLink (a b : Text) : Devices := [(a, [b]), (b, [a])]

/-- Without hosts a switch has one host that is attached to nothing, and a switch whose name has
two words is read as two switches with a link each. -/
theorem hostless_and_two_words :
    (DevicesOk (isHost fun _ => false) (singleLink "a".toList "b".toList) ∧
      (neighbours (singleLink "a".toList "b".toList) "a".toList).countP (isHost fun _ => false) = 0 ∧
      ((outputDevices (isHost fun _ => false) (singleLink "a".toList "b".toList)).bind
        (buildGraph (fun _ => false) id id)).map (fun g => (g.vertex "a".toList).numhosts) = some 1) ∧
    (DevicesOk (isHost fun _ => false) (singleLink "a b".toList "c".toList) ∧
      ((outputDevices (isHost fun _ => false) (singleLink "a b".toList "c".toList)).bind
        (buildGraph (fun _ => false) id id)).map (fun g => (g.verts.length, g.links.length)) =
          some (3, 2)) := by
  decide

end ResSim
