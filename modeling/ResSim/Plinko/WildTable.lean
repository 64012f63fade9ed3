import Mathlib.Data.List.Sort
import ResSim.Lib.ShortestPath
import ResSim.Plinko.Rounds

/-!
# Matching in Plinko tables

The entries of a switch for packets with one way back are hops of a chain of paths, and an
entry that backs another up needs the link of the other to be down. So no two entries match
together, whatever links are down, and the wildcard table of the switch has no two entries
that overlap.
-/

namespace ResSim

variable {V E : Type} [DecidableEq V] [DecidableEq E] {G : PortGraph V E}

/-- `fwdtable[v][dst, rp]`, as it is written out and read back: link that must be up and
links that must be down, and the ports to forward on. -/
def PlinkoTable.entries (tbl : PlinkoTable G) (v : V) (rp : List ℕ) :
    List ((E × Finset E) × List ℕ) :=
  tbl.filterMap (fun x => if x.1.1 = v ∧ x.1.2.1 = rp then some (x.1.2.2, x.2.path) else none)

/-- The entry of a table for links that are down: `e not in L and fs <= L`. -/
def Matches (L : Finset E) (x : (E × Finset E) × List ℕ) : Prop := x.1.1 ∉ L ∧ x.1.2 ⊆ L

instance (L : Finset E) (x : (E × Finset E) × List ℕ) : Decidable (Matches L x) :=
  inferInstanceAs (Decidable (_ ∧ _))

/-! ### The entries of a switch for one header -/

section Entries

variable {κ : Type} [DecidableEq κ] {d : List ((V × κ × E × Finset E) × Path G)} {v : V} {key : κ}

/-- `fwdtable[v][dst, key]`, whatever the header is that packets carry. -/
def entriesOf (d : List ((V × κ × E × Finset E) × Path G)) (v : V) (key : κ) :
    List ((E × Finset E) × List ℕ) :=
  d.filterMap (fun x => if x.1.1 = v ∧ x.1.2.1 = key then some (x.1.2.2, x.2.path) else none)

omit [DecidableEq E] in
lemma mem_entriesOf {k : E × Finset E} {out : List ℕ} : (k, out) ∈ entriesOf d v key ↔
    ∃ N, ((v, key, k), N) ∈ d ∧ N.path = out := by
  rw [entriesOf, List.mem_filterMap]
  constructor
  · rintro ⟨⟨⟨v', key', k'⟩, N⟩, hin, h⟩
    split at h
    · rename_i hk
      obtain ⟨rfl, rfl⟩ := hk
      obtain ⟨rfl, rfl⟩ := Prod.mk.inj (Option.some.inj h)
      exact ⟨N, hin, rfl⟩
    · cases h
  · rintro ⟨N, hin, rfl⟩
    exact ⟨_, hin, if_pos ⟨rfl, rfl⟩⟩

omit [DecidableEq E] in
lemma nodup_entriesOf (h : (d.map Prod.fst).Nodup) :
    ((entriesOf d v key).map Prod.fst).Nodup := by
  have hsub : (entriesOf d v key).map Prod.fst = (d.map Prod.fst).filterMap
      (fun k => if k.1 = v ∧ k.2.1 = key then some k.2.2 else none) := by
    rw [entriesOf, List.map_filterMap, List.filterMap_map]
    apply List.filterMap_congr
    intro x _
    by_cases hx : x.1.1 = v ∧ x.1.2.1 = key
    · simp only [Function.comp_apply, if_pos hx, Option.map_some]
    · simp only [Function.comp_apply, if_neg hx, Option.map_none]
  rw [hsub]
  refine h.filterMap ?_
  rintro ⟨v₁, key₁, k₁⟩ ⟨v₂, key₂, k₂⟩ k h₁ h₂
  simp only [Option.mem_def, Option.ite_none_right_eq_some, Option.some.injEq] at h₁ h₂
  obtain ⟨⟨rfl, rfl⟩, rfl⟩ := h₁
  obtain ⟨⟨rfl, rfl⟩, rfl⟩ := h₂
  rfl

omit [DecidableEq V] [DecidableEq E] in
lemma length_le_one_of_nodup {α : Type} {l : List α} (h : l.Nodup) (hall : ∀ a ∈ l, ∀ b ∈ l, a = b) :
    l.length ≤ 1 := by
  match l with
  | [] => exact Nat.zero_le 1
  | [a] => exact le_rfl
  | a :: b :: l =>
    have hab := hall a (by simp) b (by simp)
    simp [hab] at h

omit [DecidableEq V] in
/-- At most one entry matches where of any two one needs the link of the other to be down. -/
lemma matches_le_one_of_comparable {l : List ((E × Finset E) × List ℕ)}
    (hnodup : (l.map Prod.fst).Nodup)
    (h : ∀ a ∈ l, ∀ b ∈ l, a.1 = b.1 ∨ a.1.1 ∈ b.1.2 ∨ b.1.1 ∈ a.1.2) (L : Finset E) :
    (l.filter (fun x => Matches L x)).length ≤ 1 := by
  rw [← List.length_map (f := Prod.fst)]
  apply length_le_one_of_nodup
  · exact hnodup.sublist (List.filter_sublist.map _)
  · intro k hk k' hk'
    obtain ⟨a, ha, rfl⟩ := List.mem_map.mp hk
    obtain ⟨b, hb, rfl⟩ := List.mem_map.mp hk'
    rw [List.mem_filter, decide_eq_true_iff] at ha hb
    rcases h a ha.1 b hb.1 with heq | hin | hin
    · exact heq
    · exact absurd (hb.2.2 hin) ha.2.1
    · exact absurd (ha.2.2 hin) hb.2.1

end Entries

/-! ### Wildcard tables -/

/-- A character of an edge mask. -/
inductive MaskBit where
  | any
  | down
  | up
  deriving DecidableEq

/-- The order of the characters `*`, `0` and `1`. -/
def MaskBit.rank : MaskBit → ℕ
  | any => 0
  | down => 1
  | up => 2

/-- An entry of a wildcard table: the way back, filled up to one length (`none` is the
wildcard), the edge mask, and the path. -/
structure WildEntry (G : PortGraph V E) where
  rpath : List (Option ℤ)
  edgeMask : List MaskBit
  path : Path G

/-- The way back filled up with -1. -/
def expandRpath (maxrpathlen : ℕ) (rpath : List ℕ) : List (Option ℤ) :=
  rpath.map (fun p : ℕ => some (Int.ofNat p)) ++ List.replicate (maxrpathlen + 1 - rpath.length) (some (-1))

/-- The mask bit of a port. -/
def maskBit (G : PortGraph V E) (v : V) (uplink : E) (localFailed : Finset E) (port : ℕ) :
    MaskBit :=
  if G.edges v port = some uplink then .up
  else if (G.edges v port).any (fun e => e ∈ localFailed) then .down
  else .any

/-- The size of the exact match table of a path. -/
def numpaths (wildtable : List (WildEntry G)) (path : List ℕ) : ℕ :=
  ((wildtable.filter (fun x => x.path.path = path)).map
    (fun x => 2 ^ x.edgeMask.count .any)).sum

/-- The order of `sort_items`. -/
def sortItems (wildtable : List (WildEntry G)) (x y : WildEntry G) : Ordering :=
  ((compare (numpaths wildtable x.path.path) (numpaths wildtable y.path.path)).then
    (compare (x.edgeMask.map MaskBit.rank) (y.edgeMask.map MaskBit.rank))).then
    (compare x.rpath y.rpath)

def sortWildTable (wildtable : List (WildEntry G)) : List (WildEntry G) :=
  (wildtable.mergeSort (fun x y => (sortItems wildtable x y).isLE)).reverse

def buildWildTable (tbl : PlinkoTable G) (v : V) : List (WildEntry G) :=
  let ports := (G.portList v).insertionSort (· ≤ ·)
  let items := tbl.atSwitch v
  let maxrpathlen := items.foldl (fun x y => max x y.1.1.length) 0
  sortWildTable (items.map (fun y =>
    ⟨expandRpath maxrpathlen y.1.1, ports.reverse.map (maskBit G v y.1.2.1 y.1.2.2), y.2⟩))

def rpathMatches (rpath matchRpath : List (Option ℤ)) : Bool :=
  (rpath.zip matchRpath).all (fun a => a.2 = none || a.1 = a.2)

def fwdEntryMatches (x y : WildEntry G) : Bool :=
  rpathMatches x.rpath y.rpath &&
    (x.edgeMask.zip y.edgeMask).all (fun a => a.2 = .any || a.1 = .any || a.1 = a.2)

def checkWildfwdtable (wildtable : List (WildEntry G)) : Bool :=
  wildtable.all (fun x => wildtable.all (fun y =>
    !(fwdEntryMatches x y && x.path.path ≠ y.path.path)))

/-! ### No two entries match -/

variable {fwdRouting : FwdRouting} {T : Set (Path G)} {tbl : PlinkoTable G} {u v : V}
  {rp : List ℕ} {e e' : E} {x y : Place G}

/-- What an entry forwards on: the rest of the path, or its first hop. -/
structure OutOf (fwdRouting : FwdRouting) (x : Place G) (out : List ℕ) : Prop where
  src : fwdRouting = .src → x.pre = [] ∧ out = x.hop :: x.post
  hopByHop : fwdRouting = .hopByHop → out = [x.hop]

omit [DecidableEq E] in
lemma mem_entries {k : E × Finset E} {out : List ℕ} : (k, out) ∈ tbl.entries v rp ↔
    ∃ N, ((v, rp, k), N) ∈ tbl ∧ N.path = out := mem_entriesOf

lemma TableOf.exists_place (ht : TableOf fwdRouting T tbl) {k : E × Finset E} {N : Path G}
    (h : ((v, rp, k), N) ∈ tbl) : ∃ x : Place G, x.At T v rp k.1 ∧
      k.2 = (localFailedE G x.branch.failedE v).toFinset ∧ StoredAs fwdRouting x v N := by
  obtain ⟨x, u, rp', e, hx, hkey, hst⟩ := ht.sound _ h
  obtain ⟨rfl, rfl, rfl⟩ : v = u ∧ rp = rp' ∧
      k = (e, (localFailedE G x.branch.failedE u).toFinset) := by simpa [Place.key] using hkey
  exact ⟨x, hx, rfl, hst⟩

lemma TableOf.exists_place_of_entry (ht : TableOf fwdRouting T tbl) {k : E × Finset E}
    {out : List ℕ} (h : (k, out) ∈ tbl.entries v rp) : ∃ x : Place G, x.At T v rp k.1 ∧
      k.2 = (localFailedE G x.branch.failedE v).toFinset ∧ OutOf fwdRouting x out := by
  obtain ⟨N, hin, rfl⟩ := mem_entries.mp h
  obtain ⟨x, hx, hk, hst⟩ := ht.exists_place hin
  exact ⟨x, hx, hk, hst.src, hst.hopByHop⟩

/-- An entry that backs another up needs the link of the other to be down. -/
lemma Backs.mem_localFailedE (h : Backs u x e y) (hx : x.At T u rp e) :
    e ∈ (localFailedE G y.branch.failedE u).toFinset :=
  List.mem_toFinset.mpr (mem_localFailedE_iff.mpr ⟨h.mem, x.hop, hx.edge⟩)

/-- Two entries of a switch for one way back are the same, or one needs the link of the other
to be down. -/
lemma TableOf.comparable (ht : TableOf fwdRouting T tbl) (hT : BackupForest T)
    {k k' : E × Finset E} {N N' : Path G} (h : ((v, rp, k), N) ∈ tbl)
    (h' : ((v, rp, k'), N') ∈ tbl) : k = k' ∨ k.1 ∈ k'.2 ∨ k'.1 ∈ k.2 := by
  obtain ⟨x, hx, hk, _⟩ := ht.exists_place h
  obtain ⟨y, hy, hk', _⟩ := ht.exists_place h'
  rcases hT.comparable hx hy with rfl | hb | hb
  · exact .inl (Prod.ext (Option.some.inj (hx.edge.symm.trans hy.edge)) (hk.trans hk'.symm))
  · rw [hk']
    exact .inr (.inl (hb.mem_localFailedE hx))
  · rw [hk]
    exact .inr (.inr (hb.mem_localFailedE hy))

/-- At most one entry matches. -/
theorem TableOf.matches_le_one (ht : TableOf fwdRouting T tbl) (hT : BackupForest T) (v : V)
    (rp : List ℕ) (L : Finset E) :
    ((tbl.entries v rp).filter (fun x => Matches L x)).length ≤ 1 := by
  refine matches_le_one_of_comparable (nodup_entriesOf ht.nodup) (fun a ha b hb => ?_) L
  obtain ⟨_, hN, _⟩ := mem_entries.mp ha
  obtain ⟨_, hN', _⟩ := mem_entries.mp hb
  exact ht.comparable hT hN hN'

/-! ### No two entries of the wildcard table overlap -/

omit [DecidableEq V] [DecidableEq E] in
lemma expandRpath_injective {n : ℕ} {rp rp' : List ℕ} (h : expandRpath n rp = expandRpath n rp') :
    rp = rp' := by
  have hport : ∀ rp, (expandRpath n rp).filterMap
      (fun a => a.bind (fun p => if 0 ≤ p then some p.toNat else none)) = rp := by
    intro rp
    rw [expandRpath, List.filterMap_append, List.filterMap_map, List.filterMap_replicate]
    simp
  rw [← hport rp, h, hport]

lemma expandRpath_length {n : ℕ} (h : rp.length ≤ n) : (expandRpath n rp).length = n + 1 := by
  rw [expandRpath, List.length_append, List.length_map, List.length_replicate]
  omega

lemma expandRpath_ne_none {n : ℕ} {a : Option ℤ} (h : a ∈ expandRpath n rp) : a ≠ none := by
  rcases List.mem_append.mp h with h | h
  · obtain ⟨p, _, rfl⟩ := List.mem_map.mp h
    exact Option.some_ne_none _
  · rw [List.eq_of_mem_replicate h]
    exact Option.some_ne_none _

/-- Ways back of one length without wildcards match only if they are the same. -/
lemma eq_of_rpathMatches {r r' : List (Option ℤ)} (hlen : r.length = r'.length)
    (hnone : ∀ a ∈ r', a ≠ none) (h : rpathMatches r r' = true) : r = r' := by
  induction r generalizing r' with
  | nil => exact (List.length_eq_zero_iff.mp hlen.symm).symm
  | cons a r ih =>
    cases r' with
    | nil => simp at hlen
    | cons b r' =>
      obtain ⟨hb, hnone⟩ := List.forall_mem_cons.mp hnone
      rw [rpathMatches, List.zip_cons_cons, List.all_cons, Bool.and_eq_true] at h
      have hab : a = b := by simpa [hb] using h.1
      rw [hab, ih (by simpa using hlen) hnone h.2]

omit [DecidableEq E] in
lemma foldl_max_le {l : List (FwdKey E × Path G)} {n : ℕ} :
    n ≤ l.foldl (fun x y => max x y.1.1.length) n ∧
      ∀ a ∈ l, a.1.1.length ≤ l.foldl (fun x y => max x y.1.1.length) n := by
  induction l generalizing n with
  | nil => exact ⟨le_rfl, fun a ha => absurd ha List.not_mem_nil⟩
  | cons b l ih =>
    obtain ⟨hn, hl⟩ := @ih (max n b.1.1.length)
    rw [List.foldl_cons]
    exact ⟨(le_max_left ..).trans hn,
      List.forall_mem_cons.mpr ⟨(le_max_right ..).trans hn, hl⟩⟩

/-- The masks of two entries differ at the link of the one that the other needs to be down. -/
lemma masks_differ (hy : y.At T v rp e')
    (hin : e ∈ (localFailedE G y.branch.failedE v).toFinset) {port : ℕ}
    (hport : G.edges v port = some e) (L : Finset E) :
    maskBit G v e L port = .up ∧
      maskBit G v e' (localFailedE G y.branch.failedE v).toFinset port = .down := by
  have hne : e ≠ e' := by
    rintro rfl
    exact hy.not_mem_failedE (mem_localFailedE_iff.mp (List.mem_toFinset.mp hin)).1
  refine ⟨if_pos hport, ?_⟩
  rw [maskBit, if_neg (by rw [hport]; exact fun h => hne (Option.some.inj h)), hport,
    Option.any_some, if_pos (decide_eq_true hin)]

omit [DecidableEq E] in
lemma mem_atSwitch {k : FwdKey E} {N : Path G} :
    (k, N) ∈ tbl.atSwitch v ↔ ((v, k), N) ∈ tbl := by
  rw [PlinkoTable.atSwitch, List.mem_filterMap]
  constructor
  · rintro ⟨⟨⟨v', k'⟩, N'⟩, hin, h⟩
    split at h
    · rename_i hv
      obtain ⟨rfl, rfl⟩ := Prod.mk.inj (Option.some.inj h)
      exact hv ▸ hin
    · cases h
  · exact fun h => ⟨_, h, if_pos rfl⟩

/-- Entries of the wildcard table that match forward on the same path. -/
theorem TableOf.checkWildfwdtable (ht : TableOf fwdRouting T tbl) (hT : BackupForest T) (v : V) :
    checkWildfwdtable (buildWildTable tbl v) = true := by
  simp only [ResSim.checkWildfwdtable, List.all_eq_true]
  have hmem : ∀ a ∈ buildWildTable tbl v, ∃ k N, ((v, k), N) ∈ tbl ∧
      k.1.length ≤ (tbl.atSwitch v).foldl (fun x y => max x y.1.1.length) 0 ∧
      a = ⟨expandRpath ((tbl.atSwitch v).foldl (fun x y => max x y.1.1.length) 0) k.1,
        (((G.portList v).insertionSort (· ≤ ·)).reverse.map (maskBit G v k.2.1 k.2.2)), N⟩ := by
    intro a ha
    rw [buildWildTable, sortWildTable, List.mem_reverse, (List.mergeSort_perm _ _).mem_iff,
      List.mem_map] at ha
    obtain ⟨⟨k, N⟩, hin, rfl⟩ := ha
    exact ⟨k, N, mem_atSwitch.mp hin, foldl_max_le.2 _ hin, rfl⟩
  intro a ha b hb
  obtain ⟨⟨rp, k⟩, N, hN, hlen, rfl⟩ := hmem a ha
  obtain ⟨⟨rp', k'⟩, N', hN', hlen', rfl⟩ := hmem b hb
  by_contra hcon
  rw [Bool.not_eq_true, Bool.not_eq_false', Bool.and_eq_true, fwdEntryMatches, Bool.and_eq_true,
    decide_eq_true_eq, List.zip_map', List.all_map, List.all_eq_true] at hcon
  obtain ⟨⟨hrp, hmask⟩, hpath⟩ := hcon
  have hrpeq : rp = rp' := by
    refine expandRpath_injective (eq_of_rpathMatches ?_ (fun a ha => expandRpath_ne_none ha) hrp)
    rw [expandRpath_length hlen, expandRpath_length hlen']
  subst hrpeq
  obtain ⟨x, hx, hk, _⟩ := ht.exists_place hN
  obtain ⟨y, hy, hk', _⟩ := ht.exists_place hN'
  have hports : ∀ {z : Place G} {f : E}, z.At T v rp f →
      z.hop ∈ ((G.portList v).insertionSort (· ≤ ·)).reverse := by
    intro z f hz
    rw [List.mem_reverse, List.mem_insertionSort]
    exact (G.mem_portList v _).mpr ⟨f, hz.edge⟩
  rcases hT.comparable hx hy with rfl | hb | hb
  · have hkk : k = k' :=
      Prod.ext (Option.some.inj (hx.edge.symm.trans hy.edge)) (hk.trans hk'.symm)
    subst hkk
    have := List.inj_on_of_nodup_map ht.nodup hN hN' rfl
    exact hpath (congrArg (fun a : (V × FwdKey E) × Path G => a.2.path) this)
  · obtain ⟨hup, hdown⟩ := masks_differ hy (hb.mem_localFailedE hx) hx.edge k.2
    have hbit := hmask x.hop (hports hx)
    rw [Function.comp_apply, hk', hup, hdown] at hbit
    simp at hbit
  · obtain ⟨hup, hdown⟩ := masks_differ hx (hb.mem_localFailedE hy) hy.edge k'.2
    have hbit := hmask y.hop (hports hy)
    rw [Function.comp_apply, hk, hup, hdown] at hbit
    simp at hbit

/-! ### Plinko tables are unambiguous -/

/-- Whatever links are down, at most one entry of a switch matches packets with one way back,
and no two entries of its wildcard table overlap. -/
theorem plinko_unambiguous {getShortestPath : ℕ → Adj V E → V → V → List E} {dst : V}
    (hsp : ∀ n, IsPathFinder (getShortestPath n)) (hdst : 0 < G.numhosts dst) (args : PlinkoArgs)
    (rnd : Rnd) :
    ∃ fuel tbl, plinkoFwdtable fuel G args getShortestPath dst rnd = some tbl ∧
      ∀ v, (∀ rp L, ((tbl.entries v rp).filter (fun x => Matches L x)).length ≤ 1) ∧
        checkWildfwdtable (buildWildTable tbl v) = true := by
  obtain ⟨fuel, tbl, hrun, T, hT, ht⟩ := exists_plinkoFwdtable hsp hdst args rnd
  exact ⟨fuel, tbl, hrun, fun v =>
    ⟨ht.matches_le_one hT.toBackupForest v, ht.checkWildfwdtable hT.toBackupForest v⟩⟩

theorem plinko_unambiguous_doubleLink :
    ∃ fuel tbl, plinkoFwdtable fuel doubleLink ⟨1, .hopByHop, true, false⟩
        (fun _ => bfsPath [0, 1]) 0 (fun _ => 0) = some tbl ∧
      ∀ v, (∀ rp L, ((tbl.entries v rp).filter (fun x => Matches L x)).length ≤ 1) ∧
        checkWildfwdtable (buildWildTable tbl v) = true :=
  plinko_unambiguous (fun _ => isPathFinder_bfsPath (by decide)) (by decide)
    ⟨1, .hopByHop, true, false⟩ (fun _ => 0)

end ResSim
