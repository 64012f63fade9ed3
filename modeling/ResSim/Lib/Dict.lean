import Mathlib.Data.List.Nodup

/-!
# Dictionaries

A dictionary is a list of pairs of a key and a value. `dictSet` replaces the value of a key
or adds the key, and `dictAppend` adds an element to a list stored under a key; `dictPairs`
reads a dictionary of lists as a list of pairs.
-/

namespace ResSim

variable {κ α : Type} [DecidableEq κ]

/-- `d[k] = a`. -/
def dictSet (d : List (κ × α)) (k : κ) (a : α) : List (κ × α) :=
  if k ∈ d.map Prod.fst then d.map (fun x => if x.1 = k then (k, a) else x) else d ++ [(k, a)]

/-- `d.get(k)`. -/
def dictGet (d : List (κ × α)) (k : κ) : Option α := (d.find? (fun x => x.1 = k)).map Prod.snd

/-- `d.setdefault(k, []).append(a)`. -/
def dictAppend (k : κ) (a : α) : List (κ × List α) → List (κ × List α)
  | [] => [(k, [a])]
  | x :: d => if x.1 = k then (k, x.2 ++ [a]) :: d else x :: dictAppend k a d

/-- All pairs of a key and an element stored under it. -/
def dictPairs (d : List (κ × List α)) : List (κ × α) :=
  d.flatMap (fun x => x.2.map (Prod.mk x.1))

variable {d : List (κ × α)} {k : κ} {a : α}

lemma mem_dictSet {x : κ × α} (h : x ∈ dictSet d k a) : x = (k, a) ∨ x ∈ d := by
  rw [dictSet] at h
  split at h
  · obtain ⟨y, hy, heq⟩ := List.mem_map.mp h
    split at heq
    · exact .inl heq.symm
    · exact .inr (heq ▸ hy)
  · rcases List.mem_append.mp h with h | h
    · exact .inr h
    · exact .inl (List.mem_singleton.mp h)

lemma dictGet_eq_none : dictGet d k = none ↔ k ∉ d.map Prod.fst := by
  rw [dictGet, Option.map_eq_none_iff, List.find?_eq_none, List.mem_map, not_exists]
  constructor
  · rintro h x ⟨hx, rfl⟩
    exact h x hx (decide_eq_true rfl)
  · intro h x hx hk
    exact h x ⟨hx, of_decide_eq_true hk⟩

lemma mem_of_dictGet (h : dictGet d k = some a) : (k, a) ∈ d := by
  obtain ⟨⟨k', a'⟩, hfind, rfl⟩ := Option.map_eq_some_iff.mp h
  obtain rfl : k' = k := by simpa using List.find?_some hfind
  exact List.mem_of_find?_eq_some hfind

lemma mem_iff_dictGet (h : (d.map Prod.fst).Nodup) : (k, a) ∈ d ↔ dictGet d k = some a := by
  refine ⟨fun hmem => ?_, mem_of_dictGet⟩
  cases hget : dictGet d k with
  | none => exact absurd (List.mem_map_of_mem hmem) (dictGet_eq_none.mp hget)
  | some b => rw [(Prod.mk.inj (List.inj_on_of_nodup_map h hmem (mem_of_dictGet hget) rfl)).2]

lemma dictGet_append_singleton (hk : k ∉ d.map Prod.fst) {k' : κ} :
    dictGet (d ++ [(k, a)]) k' = if k' = k then some a else dictGet d k' := by
  by_cases h : k' = k
  · subst h
    have hnone : d.find? (fun x => x.1 = k') = none := by
      simpa [dictGet] using dictGet_eq_none.mpr hk
    simp [dictGet, List.find?_append, hnone]
  · have hnone : [(k, a)].find? (fun x => x.1 = k') = none := by simp [Ne.symm h]
    rw [if_neg h, dictGet, List.find?_append, hnone, Option.or_none, dictGet]

lemma dictGet_dictSet_of_not_mem (hk : k ∉ d.map Prod.fst) {k' : κ} :
    dictGet (dictSet d k a) k' = if k' = k then some a else dictGet d k' := by
  rw [dictSet, if_neg hk, dictGet_append_singleton hk]

lemma dictGet_dictSet {k' : κ} :
    dictGet (dictSet d k a) k' = if k' = k then some a else dictGet d k' := by
  by_cases hk : k ∈ d.map Prod.fst
  · have hkey : (fun x : κ × α => decide (x.1 = k')) ∘ (fun x => if x.1 = k then (k, a) else x) =
        fun x => decide (x.1 = k') := by
      funext x
      by_cases hx : x.1 = k <;> simp [hx]
    rw [dictSet, if_pos hk, dictGet, List.find?_map, hkey, Option.map_map, dictGet]
    cases hfind : d.find? (fun x => decide (x.1 = k')) with
    | none =>
      have hk' : k' ≠ k := by
        intro heq
        subst heq
        exact dictGet_eq_none.mp (by rw [dictGet, hfind, Option.map_none]) hk
      rw [if_neg hk']
      rfl
    | some x =>
      have hx : x.1 = k' := by simpa using List.find?_some hfind
      by_cases hk' : k' = k <;> simp [hx, hk']
  · exact dictGet_dictSet_of_not_mem hk

lemma mem_dictSet_iff {x : κ × α} : x ∈ dictSet d k a ↔ x = (k, a) ∨ x ∈ d ∧ x.1 ≠ k := by
  rw [dictSet]
  split
  · rename_i hk
    rw [List.mem_map]
    constructor
    · rintro ⟨y, hy, rfl⟩
      by_cases hyk : y.1 = k
      · exact .inl (if_pos hyk)
      · rw [if_neg hyk]
        exact .inr ⟨hy, hyk⟩
    · rintro (rfl | ⟨hx, hxk⟩)
      · obtain ⟨y, hy, hyk⟩ := List.mem_map.mp hk
        exact ⟨y, hy, if_pos hyk⟩
      · exact ⟨x, hx, if_neg hxk⟩
  · rename_i hk
    rw [List.mem_append, List.mem_singleton, or_comm]
    refine or_congr_right (iff_self_and.mpr fun hx hxk => hk ?_)
    exact hxk ▸ List.mem_map_of_mem hx

/-- `for k in keys: d[k] = f(k)`. -/
lemma mem_foldl_dictSet {f : κ → α} {keys : List κ} {x : κ × α} :
    x ∈ keys.foldl (fun d k => dictSet d k (f k)) d ↔
      (x.1 ∈ keys ∧ x.2 = f x.1) ∨ (x ∈ d ∧ x.1 ∉ keys) := by
  induction keys generalizing d with
  | nil => simp
  | cons k keys ih =>
    rw [List.foldl_cons, ih, mem_dictSet_iff, List.mem_cons]
    by_cases hx : x.1 ∈ keys
    · simp [hx]
    · by_cases hk : x.1 = k
      · subst hk
        simp [hx, Prod.ext_iff]
      · simp [hx, hk, Prod.ext_iff]

lemma keys_dictSet_of_mem (h : k ∈ d.map Prod.fst) :
    (dictSet d k a).map Prod.fst = d.map Prod.fst := by
  rw [dictSet, if_pos h, List.map_map]
  apply List.map_congr_left
  intro x _
  rw [Function.comp_apply]
  split
  · exact Eq.symm ‹_›
  · rfl

lemma keys_dictSet_of_not_mem (h : k ∉ d.map Prod.fst) :
    (dictSet d k a).map Prod.fst = d.map Prod.fst ++ [k] := by
  rw [dictSet, if_neg h, List.map_append, List.map_singleton]

lemma mem_keys_dictSet {k' : κ} :
    k' ∈ (dictSet d k a).map Prod.fst ↔ k' = k ∨ k' ∈ d.map Prod.fst := by
  by_cases h : k ∈ d.map Prod.fst
  · rw [keys_dictSet_of_mem h]
    exact (or_iff_right_of_imp (fun heq => heq ▸ h)).symm
  · rw [keys_dictSet_of_not_mem h, List.mem_append, List.mem_singleton, or_comm]

lemma nodup_keys_dictSet (h : (d.map Prod.fst).Nodup) :
    ((dictSet d k a).map Prod.fst).Nodup := by
  by_cases hk : k ∈ d.map Prod.fst
  · rwa [keys_dictSet_of_mem hk]
  · rw [keys_dictSet_of_not_mem hk]
    exact List.nodup_append'.mpr
      ⟨h, List.nodup_singleton k, fun x hx hxk => hk (List.mem_singleton.mp hxk ▸ hx)⟩

lemma dictPairs_append_perm (d : List (κ × List α)) (k : κ) (a : α) :
    (dictPairs (dictAppend k a d)).Perm (dictPairs d ++ [(k, a)]) := by
  induction d with
  | nil => exact List.Perm.refl _
  | cons x d ih =>
    rw [dictAppend]
    split
    · rename_i hx
      simp only [dictPairs, List.flatMap_cons, List.map_append, List.map_cons, List.map_nil, hx]
      rw [List.append_assoc, List.append_assoc]
      exact List.Perm.append_left _ List.perm_append_comm
    · simp only [dictPairs, List.flatMap_cons] at ih ⊢
      rw [List.append_assoc]
      exact ih.append_left _

omit [DecidableEq κ] in
lemma dictPairs_perm {d d' : List (κ × List α)} (h : d.Perm d') :
    (dictPairs d).Perm (dictPairs d') := h.flatMap_right _

omit [DecidableEq κ] in
lemma mem_iff_dictPairs {d : List (κ × List α)} {x : κ × List α}
    (h : (d.map Prod.fst).Nodup) (hx : x ∈ d) : a ∈ x.2 ↔ (x.1, a) ∈ dictPairs d := by
  simp only [dictPairs, List.mem_flatMap, List.mem_map]
  constructor
  · exact fun ha => ⟨x, hx, a, ha, rfl⟩
  · rintro ⟨y, hy, b, hb, heq⟩
    obtain ⟨hk, rfl⟩ := Prod.mk.inj heq
    rwa [List.inj_on_of_nodup_map h hy hx hk] at hb

lemma filter_dictPairs {d : List (κ × List α)} {x : κ × List α} (h : (d.map Prod.fst).Nodup)
    (hx : x ∈ d) : (dictPairs d).filter (fun y => y.1 = x.1) = x.2.map (Prod.mk x.1) := by
  have hall : ∀ z : κ × List α, z.1 = x.1 →
      (z.2.map (Prod.mk z.1)).filter (fun y => y.1 = x.1) = z.2.map (Prod.mk z.1) := by
    intro z hz
    rw [List.filter_eq_self]
    intro y hy
    obtain ⟨a, _, rfl⟩ := List.mem_map.mp hy
    exact decide_eq_true hz
  have hnone : ∀ z : κ × List α, z.1 ≠ x.1 →
      (z.2.map (Prod.mk z.1)).filter (fun y => y.1 = x.1) = [] := by
    intro z hz
    rw [List.filter_eq_nil_iff]
    intro y hy
    obtain ⟨a, _, rfl⟩ := List.mem_map.mp hy
    simpa using hz
  induction d with
  | nil => cases hx
  | cons z d ih =>
    rw [List.map_cons, List.nodup_cons] at h
    rw [dictPairs, List.flatMap_cons, List.filter_append]
    rcases List.mem_cons.mp hx with rfl | hx
    · have hrest : (dictPairs d).filter (fun y => y.1 = x.1) = [] := by
        rw [List.filter_eq_nil_iff]
        intro y hy
        obtain ⟨w, hw, hyw⟩ := List.mem_flatMap.mp hy
        obtain ⟨a, _, rfl⟩ := List.mem_map.mp hyw
        have hne : w.1 ≠ x.1 := fun heq => h.1 (heq ▸ List.mem_map_of_mem hw)
        simpa using hne
      rw [hall x rfl]
      exact (congrArg _ hrest).trans (List.append_nil _)
    · have hne : z.1 ≠ x.1 := fun heq => h.1 (heq ▸ List.mem_map_of_mem hx)
      rw [hnone z hne]
      exact ih h.2 hx

lemma mem_keys_dictAppend {d : List (κ × List α)} {k' : κ} :
    k' ∈ (dictAppend k a d).map Prod.fst ↔ k' = k ∨ k' ∈ d.map Prod.fst := by
  induction d with
  | nil => simp [dictAppend]
  | cons x d ih =>
    rw [dictAppend]
    split
    · rename_i hx
      simp [hx]
    · rw [List.map_cons, List.mem_cons, ih, List.map_cons, List.mem_cons]
      exact or_left_comm

lemma dictGet_dictAppend {d : List (κ × List α)} {k' : κ} :
    (dictGet (dictAppend k a d) k').getD [] =
      (dictGet d k').getD [] ++ if k' = k then [a] else [] := by
  have hcons : ∀ (x : κ × List α) (d : List (κ × List α)),
      dictGet (x :: d) k' = if x.1 = k' then some x.2 else dictGet d k' := by
    intro x d
    by_cases hx : x.1 = k' <;> simp [dictGet, hx]
  induction d with
  | nil =>
    unfold dictAppend
    rw [hcons]
    by_cases hk : k = k'
    · simp [hk, dictGet]
    · simp [hk, Ne.symm hk, dictGet]
  | cons x d ih =>
    unfold dictAppend
    split
    · rename_i hx
      rw [hcons, hcons, hx]
      by_cases hk : k = k'
      · simp [hk]
      · simp [hk, Ne.symm hk]
    · rename_i hx
      rw [hcons, hcons]
      by_cases hk : x.1 = k'
      · have hne : k' ≠ k := fun heq => hx (hk.trans heq)
        simp [hk, hne]
      · rw [if_neg hk, if_neg hk, ih]

section Inverse

variable {β : Type} {f : β → κ}

lemma dictGet_foldl_of_ne {l : List β} {d : List (κ × β)} {k : κ} (h : ∀ b ∈ l, f b ≠ k) :
    dictGet (l.foldl (fun d b => dictSet d (f b) b) d) k = dictGet d k := by
  induction l generalizing d with
  | nil => rfl
  | cons b l ih =>
    rw [List.foldl_cons, ih (fun x hx => h x (List.mem_cons_of_mem b hx)), dictGet_dictSet,
      if_neg (Ne.symm (h b List.mem_cons_self))]

/-- `for b in l: d[f(b)] = b` for a numbering `f`. -/
lemma dictGet_foldl_dictSet {l : List β} (hinj : ∀ b ∈ l, ∀ b' ∈ l, f b = f b' → b = b')
    {d : List (κ × β)} {b : β} (hb : b ∈ l) :
    dictGet (l.foldl (fun d b => dictSet d (f b) b) d) (f b) = some b := by
  induction l generalizing d with
  | nil => cases hb
  | cons c l ih =>
    have hinj' : ∀ b ∈ l, ∀ b' ∈ l, f b = f b' → b = b' := fun b hb b' hb' =>
      hinj b (List.mem_cons_of_mem c hb) b' (List.mem_cons_of_mem c hb')
    rw [List.foldl_cons]
    by_cases hbl : b ∈ l
    · exact ih hinj' hbl
    · obtain rfl : b = c := (List.mem_cons.mp hb).resolve_right hbl
      rw [dictGet_foldl_of_ne, dictGet_dictSet, if_pos rfl]
      intro x hx heq
      exact hbl (hinj x (List.mem_cons_of_mem b hx) b List.mem_cons_self heq ▸ hx)

end Inverse

lemma nodup_keys_dictAppend {d : List (κ × List α)} (h : (d.map Prod.fst).Nodup) :
    ((dictAppend k a d).map Prod.fst).Nodup := by
  induction d with
  | nil => simp [dictAppend]
  | cons x d ih =>
    rw [List.map_cons, List.nodup_cons] at h
    rw [dictAppend]
    split
    · rename_i hx
      subst hx
      exact List.nodup_cons.mpr h
    · rename_i hx
      rw [List.map_cons, List.nodup_cons, mem_keys_dictAppend]
      exact ⟨fun hor => hor.elim hx h.1, ih h.2⟩

/-! ### Many entries -/

section Entries

variable {β γ : Type}

/-- `dict(items)`. -/
def dictOf (items : List (κ × β)) : List (κ × β) := items.foldl (fun d x => dictSet d x.1 x.2) []

/-- Entries that are set one after the other, each from the dictionary so far. -/
lemma exists_foldlM_dictSet {g : List (κ × β) → γ → Option β} {f : γ → κ} {P : κ × β → Prop}
    {l : List γ} {d : List (κ × β)} (hP : ∀ x ∈ d, P x)
    (hstep : ∀ d', (∀ x ∈ d', P x) → (∀ k ∈ d.map Prod.fst, k ∈ d'.map Prod.fst) →
      ∀ c ∈ l, ∃ b, g d' c = some b ∧ P (f c, b)) :
    ∃ d', l.foldlM (fun d c => (g d c).map (dictSet d (f c))) d = some d' ∧
      (∀ x ∈ d', P x) ∧ (∀ k ∈ d.map Prod.fst, k ∈ d'.map Prod.fst) ∧
      ∀ c ∈ l, f c ∈ d'.map Prod.fst := by
  induction l generalizing d with
  | nil => exact ⟨d, rfl, hP, fun _ hk => hk, by simp⟩
  | cons c l ih =>
    obtain ⟨b, hb, hPb⟩ := hstep d hP (fun _ hk => hk) c List.mem_cons_self
    have hP' : ∀ x ∈ dictSet d (f c) b, P x := by
      intro x hx
      rcases mem_dictSet hx with rfl | hx
      · exact hPb
      · exact hP x hx
    have hsub : ∀ k ∈ d.map Prod.fst, k ∈ (dictSet d (f c) b).map Prod.fst :=
      fun k hk => mem_keys_dictSet.mpr (.inr hk)
    obtain ⟨d', hd', hall, hkeys, hkey⟩ := ih hP' fun d' hd' hk c' hc' =>
      hstep d' hd' (fun k h => hk k (hsub k h)) c' (List.mem_cons_of_mem _ hc')
    refine ⟨d', ?_, hall, fun k hk => hkeys k (hsub k hk), List.forall_mem_cons.mpr
      ⟨hkeys _ (mem_keys_dictSet.mpr (.inl rfl)), hkey⟩⟩
    rw [List.foldlM_cons, hb]
    exact hd'

lemma mem_of_mem_dictOf {items : List (κ × β)} {x : κ × β} (h : x ∈ dictOf items) :
    x ∈ items := by
  suffices hsuff : ∀ d : List (κ × β), x ∈ items.foldl (fun d x => dictSet d x.1 x.2) d →
      x ∈ d ∨ x ∈ items from (hsuff [] h).resolve_left (by simp)
  clear h
  induction items with
  | nil => exact fun d hx => .inl hx
  | cons y items ih =>
    intro d hx
    rcases ih _ hx with hx | hx
    · rcases mem_dictSet hx with rfl | hx
      · exact .inr List.mem_cons_self
      · exact .inl hx
    · exact .inr (List.mem_cons_of_mem _ hx)

lemma mem_keys_dictOf {items : List (κ × β)} {k : κ} (h : k ∈ items.map Prod.fst) :
    k ∈ (dictOf items).map Prod.fst := by
  suffices hsuff : ∀ d : List (κ × β), k ∈ d.map Prod.fst ∨ k ∈ items.map Prod.fst →
      k ∈ (items.foldl (fun d x => dictSet d x.1 x.2) d).map Prod.fst from hsuff [] (.inr h)
  clear h
  induction items with
  | nil => exact fun d hk => hk.resolve_right (by simp)
  | cons y items ih =>
    intro d hk
    refine ih _ ?_
    rw [mem_keys_dictSet]
    rcases hk with hk | hk
    · exact .inl (.inr hk)
    · rcases List.mem_cons.mp hk with rfl | hk
      · exact .inl (.inl rfl)
      · exact .inr hk

end Entries

end ResSim
