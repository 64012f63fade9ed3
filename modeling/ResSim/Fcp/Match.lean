import ResSim.Fcp.Rounds
import ResSim.Plinko.WildTable

/-!
# Matching in FCP tables

The entries of a switch for one label form a chain: the failed links that an entry needs are
those of the entry before it and the link of that entry. So no two entries match together,
whatever links are down.
-/

namespace ResSim

variable {V E : Type} [DecidableEq V] [DecidableEq E] {G : PortGraph V E}

/-- `fwdtable[v][dst, kfe]`, as it is written out and read back. -/
def FcpTables.entries (t : FcpTables G) (v : V) (kfe : Finset E) :
    List ((E × Finset E) × List ℕ) :=
  entriesOf t.fwdtable v kfe

variable {T : Set (FcpPath G)} {t : FcpTables G} {M N P : FcpPath G} {A D K : Finset E}
  {v dst : V} {e : E} {x y z : FcpHop V E} {out : List ℕ}

lemma FcpPath.Makes.link_not_mem (hN : IsFcpBranch dst N) (hx : N.Makes x) :
    x.link ∉ N.failedE := by
  obtain ⟨_, hfrom, _⟩ := OnRoute.rest hx hN.shortest
  exact hfrom.up

lemma FcpPath.Makes.down_eq (hN : IsFcpBranch dst N) (hx : N.Makes x) :
    x.down = (localFailedE G N.failedE x.v).toFinset := by
  obtain ⟨_, hfrom, _⟩ := OnRoute.rest hx hN.shortest
  exact hfrom.down_eq

lemma FcpPath.Makes.edge (hN : IsFcpBranch dst N) (hx : N.Makes x) :
    G.edges x.v x.port = some x.link := by
  obtain ⟨_, hfrom, _⟩ := OnRoute.rest hx hN.shortest
  exact hfrom.edge

lemma FcpPath.Makes.label_subset (hN : IsFcpBranch dst N) (hx : N.Makes x) :
    x.label ⊆ N.failedE := by
  rw [← OnRoute.known hx hN.shortest hN.label]
  exact Finset.subset_union_left

/-- The entry before that of `y`: the hop whose link the path of `y` goes around. -/
structure IsBefore (T : Set (FcpPath G)) (M : FcpPath G) (y : FcpHop V E) (P : FcpPath G)
    (z : FcpHop V E) : Prop where
  mem : P ∈ T
  makes : P.Makes z
  v_eq : z.v = y.v
  label_eq : z.label = y.label
  failedE_eq : M.failedE = insert z.link P.failedE

section Forest

variable (hT : FcpForest dst T)
include hT

/-- An entry that needs more failed links than its label has one before it. -/
lemma FcpForest.exists_before (hM : M ∈ T) (hy : M.Makes y) (hne : y.label ≠ M.failedE) :
    ∃ P z, IsBefore T M y P z := by
  have hb := hT.branch M hM
  have hlabel := OnRoute.label_cases hy hb.shortest
  by_cases hv : y.v = M.v
  · rw [if_pos hv] at hlabel
    rcases hT.parent M hM with hroot | ⟨P, hP, z, hz, hzv, hzl, hfail⟩
    · have hsub := hy.label_subset hb
      rw [hroot, Finset.subset_empty] at hsub
      exact absurd (hsub.trans hroot.symm) hne
    · exact ⟨P, z, hP, hz, hzv.trans hv.symm, hzl.trans hlabel.symm, hfail⟩
  · rw [if_neg hv] at hlabel
    exact absurd hlabel hne

lemma IsBefore.card_eq (h : IsBefore T M y P z) : M.failedE.card = P.failedE.card + 1 := by
  rw [h.failedE_eq]
  exact Finset.card_insert_of_notMem (h.makes.link_not_mem (hT.branch P h.mem))

lemma IsBefore.link_mem (hM : M ∈ T) (hy : M.Makes y) (h : IsBefore T M y P z) :
    z.link ∈ y.down := by
  rw [hy.down_eq (hT.branch M hM), mem_localFailedE_toFinset, h.failedE_eq, ← h.v_eq]
  exact ⟨Finset.mem_insert_self .., z.port, h.makes.edge (hT.branch P h.mem)⟩

lemma IsBefore.down_subset (hM : M ∈ T) (hy : M.Makes y) (h : IsBefore T M y P z) :
    z.down ⊆ y.down := by
  intro f hf
  rw [h.makes.down_eq (hT.branch P h.mem), mem_localFailedE_toFinset, h.v_eq] at hf
  rw [hy.down_eq (hT.branch M hM), mem_localFailedE_toFinset, h.failedE_eq]
  exact ⟨Finset.mem_insert_of_mem hf.1, hf.2⟩

/-- Hops of a switch for one label go over the same link if their packets know the same. -/
lemma FcpTableOf.link_eq (ht : FcpTableOf T t) (hN : N ∈ T) (hM : M ∈ T) (hx : N.Makes x)
    (hy : M.Makes y) (hv : x.v = y.v) (hlabel : x.label = y.label)
    (hfail : N.failedE = M.failedE) : x.link = y.link := by
  have hdown : x.down = y.down := by
    rw [hx.down_eq (hT.branch N hN), hy.down_eq (hT.branch M hM), hv, hfail]
  have hkey : x.key = y.key := by
    rw [FcpHop.key, FcpHop.key, hv, hlabel, hdown]
  have hport := (ht.complete N hN x hx).port_eq (ht.complete M hM y hy) hkey
  have hex := hx.edge (hT.branch N hN)
  rw [hport, hv, hy.edge (hT.branch M hM), Option.some.injEq] at hex
  exact hex.symm

/-- In the chain of a switch and a label there is one set of failed links of each size. -/
lemma FcpTableOf.failedE_eq (ht : FcpTableOf T t) (hN : N ∈ T) (hM : M ∈ T) (hx : N.Makes x)
    (hy : M.Makes y) (hv : x.v = y.v) (hlabel : x.label = y.label)
    (hcard : N.failedE.card = M.failedE.card) : N.failedE = M.failedE := by
  induction hn : M.failedE.card generalizing M N x y with
  | zero => rw [Finset.card_eq_zero.mp hn, Finset.card_eq_zero.mp (hcard.trans hn)]
  | succ n ih =>
    have hsubx := hx.label_subset (hT.branch N hN)
    have hsuby := hy.label_subset (hT.branch M hM)
    by_cases hxl : x.label = N.failedE
    · rw [← hxl, hlabel]
      refine Finset.eq_of_subset_of_card_le hsuby ?_
      rw [← hcard, ← hxl, hlabel]
    · by_cases hyl : y.label = M.failedE
      · rw [← hyl, ← hlabel]
        refine (Finset.eq_of_subset_of_card_le hsubx ?_).symm
        rw [hcard, ← hyl, hlabel]
      · obtain ⟨P, z, hP⟩ := hT.exists_before hN hx hxl
        obtain ⟨Q, z', hQ⟩ := hT.exists_before hM hy hyl
        have hcP := hP.card_eq hT
        have hcQ := hQ.card_eq hT
        have hzv : z.v = z'.v := hP.v_eq.trans (hv.trans hQ.v_eq.symm)
        have hzl : z.label = z'.label := hP.label_eq.trans (hlabel.trans hQ.label_eq.symm)
        have hPQ := ih hP.mem hQ.mem hP.makes hQ.makes hzv hzl (by omega) (by omega)
        rw [hP.failedE_eq, hQ.failedE_eq, hPQ,
          ht.link_eq hT hP.mem hQ.mem hP.makes hQ.makes hzv hzl hPQ]

/-- Further along the chain, the links of all entries before are needed to be down. -/
lemma FcpTableOf.link_mem_down (ht : FcpTableOf T t) (hN : N ∈ T) (hM : M ∈ T) (hx : N.Makes x)
    (hy : M.Makes y) (hv : x.v = y.v) (hlabel : x.label = y.label)
    (hcard : N.failedE.card < M.failedE.card) : x.link ∈ y.down := by
  induction hn : M.failedE.card generalizing M y with
  | zero => omega
  | succ n ih =>
    have hyl : y.label ≠ M.failedE := by
      intro hyl
      have hle := Finset.card_le_card (hx.label_subset (hT.branch N hN))
      rw [hlabel, hyl] at hle
      omega
    obtain ⟨P, z, hP⟩ := hT.exists_before hM hy hyl
    have hcP := hP.card_eq hT
    have hzv : x.v = z.v := hv.trans hP.v_eq.symm
    have hzl : x.label = z.label := hlabel.trans hP.label_eq.symm
    by_cases heq : N.failedE.card = P.failedE.card
    · have hfail := ht.failedE_eq hT hN hP.mem hx hP.makes hzv hzl heq
      rw [ht.link_eq hT hN hP.mem hx hP.makes hzv hzl hfail]
      exact hP.link_mem hT hM hy
    · exact hP.down_subset hT hM hy (ih hP.mem hP.makes hzv hzl (by omega) (by omega))

/-- Two hops of a switch for one label have the same entry, or one needs the link of the other
to be down. -/
lemma FcpTableOf.comparable (ht : FcpTableOf T t) (hN : N ∈ T) (hM : M ∈ T) (hx : N.Makes x)
    (hy : M.Makes y) (hv : x.v = y.v) (hlabel : x.label = y.label) :
    (x.link = y.link ∧ x.down = y.down) ∨ x.link ∈ y.down ∨ y.link ∈ x.down := by
  rcases Nat.lt_trichotomy N.failedE.card M.failedE.card with hlt | heq | hlt
  · exact .inr (.inl (ht.link_mem_down hT hN hM hx hy hv hlabel hlt))
  · left
    have hfail := ht.failedE_eq hT hN hM hx hy hv hlabel heq
    refine ⟨ht.link_eq hT hN hM hx hy hv hlabel hfail, ?_⟩
    rw [hx.down_eq (hT.branch N hN), hy.down_eq (hT.branch M hM), hv, hfail]
  · exact .inr (.inr (ht.link_mem_down hT hM hN hy hx hv.symm hlabel.symm hlt))

lemma FcpTableOf.exists_hop_of_entry (ht : FcpTableOf T t)
    (h : ((e, D), out) ∈ t.entries v K) : ∃ N ∈ T, ∃ x, N.Makes x ∧ x.v = v ∧ x.label = K ∧
      x.link = e ∧ x.down = D ∧ out = [x.port] := by
  obtain ⟨Q, hin, rfl⟩ := mem_entriesOf.mp h
  obtain ⟨hget, hop, hQ, he⟩ := (ht.sane.fwd_iff ..).mp hin
  obtain ⟨N, hN, x, hx, hkey, hport⟩ := ht.sound _ _ hget
  simp only [FcpHop.key, Prod.mk.injEq] at hkey
  obtain ⟨rfl, rfl, rfl⟩ := hkey
  obtain rfl : x.port = hop := List.singleton_injective (hport.symm.trans hQ)
  rw [hx.edge (hT.branch N hN), Option.some.injEq] at he
  exact ⟨N, hN, x, hx, rfl, rfl, he, rfl, hport⟩

lemma FcpTableOf.entry_of_makes (ht : FcpTableOf T t) (hN : N ∈ T) (hx : N.Makes x) :
    ((x.link, x.down), [x.port]) ∈ t.entries x.v x.label := by
  obtain ⟨Q, hget, hport⟩ := ht.complete N hN x hx
  exact mem_entriesOf.mpr ⟨Q, (ht.sane.fwd_iff ..).mpr
    ⟨hget, x.port, hport, hx.edge (hT.branch N hN)⟩, hport⟩

/-- At most one entry matches. -/
theorem FcpTableOf.matches_le_one (ht : FcpTableOf T t) (v : V) (kfe L : Finset E) :
    ((t.entries v kfe).filter (fun x => Matches L x)).length ≤ 1 := by
  refine matches_le_one_of_comparable (nodup_entriesOf ht.sane.fwd_nodup)
    (fun a ha b hb => ?_) L
  obtain ⟨N, hN, x, hx, hxv, hxl, hxe, hxd, _⟩ := ht.exists_hop_of_entry hT ha
  obtain ⟨M, hM, y, hy, hyv, hyl, hye, hyd, _⟩ := ht.exists_hop_of_entry hT hb
  rw [← hxe, ← hxd, ← hye, ← hyd]
  refine (ht.comparable hT hN hM hx hy (hxv.trans hyv.symm) (hxl.trans hyl.symm)).imp_left ?_
  rintro ⟨hlink, hdown⟩
  exact Prod.ext (hxe.symm.trans (hlink.trans hye)) (hxd.symm.trans (hdown.trans hyd))

end Forest

end ResSim
