import ResSim.Lib.BinarySort
import ResSim.Trees.DfrTable

/-!
# Sorting a layer by resilience

With this order a tree should stand before the trees that it leads to. The comparison calls
two trees equal that do not lead to each other, and a binary search takes them for
exchangeable. So the order comes out right for every shuffle exactly if trees that are unrelated
to a common one are unrelated to each other.
-/

namespace ResSim

open Relation

/-- `list.sort` with a comparison function. -/
def listSort (cmp : ℕ → ℕ → Ordering) (l : List ℕ) : List ℕ :=
  binarySort (fun x y => cmp x y = .lt) l

lemma listSort_perm (cmp : ℕ → ℕ → Ordering) (l : List ℕ) : (listSort cmp l).Perm l :=
  binarySort_perm _ l

/-- No tree stands after one that it leads to. -/
def RespectsTtg (ttg : Ttg) (layer : List ℕ) : Prop :=
  layer.Pairwise (fun x y => ttg.reach y x = false)

instance (ttg : Ttg) (layer : List ℕ) : Decidable (RespectsTtg ttg layer) :=
  inferInstanceAs (Decidable (List.Pairwise _ _))

/-- Neither tree leads to the other. -/
def Unrelated (ttg : Ttg) (x y : ℕ) : Prop := ttg.reach x y = false ∧ ttg.reach y x = false

/-- Trees of a layer that are unrelated to a common one are unrelated to each other. -/
def UnrelatedTrans (ttg : Ttg) (layer : List ℕ) : Prop :=
  ∀ x ∈ layer, ∀ y ∈ layer, ∀ z ∈ layer, x ≠ z → Unrelated ttg x y → Unrelated ttg y z →
    Unrelated ttg x z

variable {ttg : Ttg} {layer : List ℕ} {layers : List (List ℕ)} {layerDistance : ℕ → ℕ}

@[simp] lemma cmpTrees_res_eq_lt {x y : ℕ} :
    cmpTrees ttg layerDistance .res x y = .lt ↔ ttg.reach x y = true := by
  simp only [cmpTrees]
  split
  · simp [*]
  · split <;> simp_all

lemma Ttg.reach_trans {x y z : ℕ} (hxy : ttg.reach x y = true) (hyz : ttg.reach y z = true) :
    ttg.reach x z = true := by
  rw [Ttg.reach, reach_iff] at *
  exact hxy.trans hyz

variable (layerDistance) in
/-- If being unrelated is transitive, the comparison is a weak order. -/
lemma weakOn_res (hdag : isDag ttg.es = true) (h : UnrelatedTrans ttg layer) :
    WeakOn (fun x y => cmpTrees ttg layerDistance .res x y = .lt) layer where
  asymm x _ y _ hne hxy := by
    simp only [cmpTrees_res_eq_lt, decide_eq_true_iff] at hxy
    rw [decide_eq_false_iff_not, cmpTrees_res_eq_lt]
    intro hyx
    rw [Ttg.reach, reach_iff] at hxy hyx
    exact hne ((isDag_iff.mp hdag).antisymm hxy hyx)
  cut x hx y hy z hz _ _ hne hxz := by
    simp only [cmpTrees_res_eq_lt, decide_eq_true_iff] at hxz ⊢
    by_contra hno
    simp only [not_or, Bool.not_eq_true] at hno
    have hyx : ttg.reach y x = false := by
      by_contra hyx
      rw [Bool.not_eq_false] at hyx
      simp [Ttg.reach_trans hyx hxz] at hno
    have hzy : ttg.reach z y = false := by
      by_contra hzy
      rw [Bool.not_eq_false] at hzy
      simp [Ttg.reach_trans hxz hzy] at hno
    have hun := h x hx y hy z hz hne ⟨hno.1, hyx⟩ ⟨hno.2, hzy⟩
    simp [Unrelated, hxz] at hun

lemma respectsTtg_listSort (hdag : isDag ttg.es = true) (hn : layer.Nodup)
    (h : UnrelatedTrans ttg layer) :
    RespectsTtg ttg (listSort (cmpTrees ttg layerDistance .res) layer) := by
  have hs := sortedBy_binarySort (weakOn_res layerDistance hdag h) hn
  exact hs.imp fun {x y} hxy => by simpa using hxy

/-- A tree that is unrelated to its neighbours keeps them in the order of the shuffle. -/
lemma sublist_listSort {x y z : ℕ} {rest : List ℕ} (hzy : ttg.reach y z = false)
    (hyx : ttg.reach x y = false) :
    [z, y, x].Sublist (listSort (cmpTrees ttg layerDistance .res) (z :: y :: x :: rest)) := by
  refine List.Sublist.trans ?_ (sublist_binarySort _ _)
  obtain ⟨run, hr⟩ := exists_spanRun_eq_cons (fun a b => !ttg.reach b a) x rest
  simp [countRun, spanRun, hzy, hyx, hr]

variable (layerDistance) in
/-- Where the unrelated trees do not form classes, some shuffle is sorted wrongly. -/
lemma exists_not_respects {x y z : ℕ} (hx : x ∈ layer) (hy : y ∈ layer)
    (hz : z ∈ layer) (hxy : Unrelated ttg x y) (hyz : Unrelated ttg y z)
    (hxz : ttg.reach x z = true) (hne : x ≠ z) :
    ∃ draw, ¬ RespectsTtg ttg (listSort (cmpTrees ttg layerDistance .res) (shuffle draw layer)) := by
  have hzy : y ≠ z := by
    rintro rfl
    simp [hxy.1] at hxz
  have hyx : x ≠ y := by
    rintro rfl
    simp [hyz.1] at hxz
  have hperm : (z :: y :: x :: ((layer.erase z).erase y).erase x).Perm layer := by
    have hy' : y ∈ layer.erase z := (List.mem_erase_of_ne hzy).mpr hy
    have hx' : x ∈ (layer.erase z).erase y :=
      (List.mem_erase_of_ne hyx).mpr ((List.mem_erase_of_ne hne).mpr hx)
    refine ((List.perm_cons_erase hz).trans (List.Perm.cons z ?_)).symm
    exact (List.perm_cons_erase hy').trans (List.Perm.cons y (List.perm_cons_erase hx'))
  obtain ⟨draw, hdraw⟩ := exists_shuffle_eq hperm
  refine ⟨draw, fun h => ?_⟩
  rw [hdraw] at h
  have hsub := h.sublist (sublist_listSort hyz.1 hxy.1)
  simp [hxz] at hsub

lemma respectsTtg_shuffle (h : ∀ draw, ∀ layer ∈ sortLayers listSort
      (cmpTrees ttg layerDistance .res) draw layers, RespectsTtg ttg layer)
    (hlayer : layer ∈ layers) (draw : ℕ) :
    RespectsTtg ttg (listSort (cmpTrees ttg layerDistance .res) (shuffle draw layer)) := by
  obtain ⟨i, hi, rfl⟩ := List.mem_iff_getElem.mp hlayer
  apply h (fun _ => draw)
  unfold sortLayers
  rw [List.mem_mapIdx]
  exact ⟨i, hi, rfl⟩

/-- The sort leaves no tree of a layer after one that it leads to, whatever the shuffle, exactly
if being unrelated is transitive on each layer. -/
theorem sortLayers_res_iff (hdag : isDag ttg.es = true) (hn : ∀ layer ∈ layers, layer.Nodup) :
    (∀ draw, ∀ layer ∈ sortLayers listSort (cmpTrees ttg layerDistance .res) draw layers,
      RespectsTtg ttg layer) ↔ ∀ layer ∈ layers, UnrelatedTrans ttg layer := by
  constructor
  · intro h layer hlayer x hx y hy z hz hne hxy hyz
    constructor
    · by_contra hxz
      rw [Bool.not_eq_false] at hxz
      obtain ⟨draw, hdraw⟩ := exists_not_respects layerDistance hx hy hz hxy hyz hxz hne
      exact hdraw (respectsTtg_shuffle h hlayer draw)
    · by_contra hzx
      rw [Bool.not_eq_false] at hzx
      obtain ⟨draw, hdraw⟩ := exists_not_respects layerDistance hz hy hx
        ⟨hyz.2, hyz.1⟩ ⟨hxy.2, hxy.1⟩ hzx hne.symm
      exact hdraw (respectsTtg_shuffle h hlayer draw)
  · intro h draw layer hlayer
    unfold sortLayers at hlayer
    obtain ⟨i, hi, rfl⟩ := List.mem_mapIdx.mp hlayer
    have hmem : layers[i] ∈ layers := List.getElem_mem hi
    apply respectsTtg_listSort hdag ((shuffle_perm _ _).nodup_iff.mpr (hn _ hmem))
    intro x hx y hy z hz
    exact h _ hmem x (mem_shuffle.mp hx) y (mem_shuffle.mp hy) z (mem_shuffle.mp hz)

/-- A random graph in which 0 and 1 lead to 3, and all of them to 2. Its only layer is sorted
right from every shuffle, although 0 and 1 are unrelated. -/
theorem sortLayers_res_iff_rand : ∃ ttg layers,
    buildTtg ⟨.rand, -1, 1, false, 0⟩ (fun _ => []) 100 4 (fun n => 3 * (n + 4) % 11) = some ttg ∧
    ttg.es = [(0, 2), (0, 3), (1, 2), (1, 3), (3, 2)] ∧ findLayers ttg (fun _ => 0) = some layers ∧
    layers = [[0, 1, 2, 3]] ∧
    ∀ draw, ∀ layer ∈ sortLayers listSort (cmpTrees ttg (fun _ => 0) .res) draw layers,
      RespectsTtg ttg layer := by
  refine ⟨⟨4, [(0, 2), (0, 3), (1, 2), (1, 3), (3, 2)], fun i => i < 4,
    fun i => if i < 4 then 0 else i - 4 + 1⟩, [[0, 1, 2, 3]], rfl, rfl, by decide, rfl, ?_⟩
  refine (sortLayers_res_iff (by decide) (by decide)).mpr ?_
  unfold UnrelatedTrans Unrelated
  decide

/-- A random graph with the edges 2 → 0, 0 → 1 and 2 → 3. Its only layer may be shuffled to
1, 3, 0, 2, and is then sorted to 2, 1, 3, 0, although 0 leads to 1. -/
theorem listSort_reverses_edge : ∃ ttg, buildTtg ⟨.rand, -1, 1, false, 0⟩ (fun _ => []) 100 4
      (fun n => 3 * (n + 1) % 11) = some ttg ∧
    ttg.es = [(0, 1), (2, 0), (2, 3)] ∧ findLayers ttg (fun _ => 0) = some [[0, 1, 2, 3]] ∧
    ¬ ∀ draw, ∀ layer ∈ sortLayers listSort (cmpTrees ttg (fun _ => 0) .res) draw [[0, 1, 2, 3]],
      RespectsTtg ttg layer := by
  refine ⟨⟨4, [(0, 1), (2, 0), (2, 3)], fun i => i < 4, fun i => if i < 4 then 0 else i - 4 + 1⟩,
    rfl, rfl, by decide, fun h => ?_⟩
  obtain ⟨draw, hdraw⟩ := exists_shuffle_eq (show [1, 3, 0, 2].Perm [0, 1, 2, 3] by decide)
  have hsorted := respectsTtg_shuffle h (List.mem_singleton.mpr rfl) draw
  rw [hdraw] at hsorted
  revert hsorted
  decide

end ResSim
