import Mathlib.Data.Finset.Card
import Mathlib.Tactic.Push

/-!
# Disjoint sets and few failures

A set with fewer elements than there are members in a family of pairwise disjoint sets misses
one of the members. More generally, it cannot hold a private element of every member.
-/

namespace ResSim

variable {τ E : Type} [DecidableEq E]

/-- A finite set is at least as large as a list that has distinct elements in it. -/
lemma length_le_card_of_private {S : List τ} (hS : S.Nodup) {F : Finset E} (pick : τ → E)
    (hmem : ∀ t ∈ S, pick t ∈ F) (hinj : ∀ s ∈ S, ∀ t ∈ S, pick s = pick t → s = t) :
    S.length ≤ F.card := by
  have hnodup : (S.map pick).Nodup := hS.map_on hinj
  have hsub : (S.map pick).toFinset ⊆ F := by
    intro e he
    obtain ⟨t, ht, rfl⟩ := List.mem_map.mp (List.mem_toFinset.mp he)
    exact hmem t ht
  have hcard := Finset.card_le_card hsub
  rwa [List.toFinset_card_of_nodup hnodup, List.length_map] at hcard

/-- Fewer failures than pairwise disjoint sets leave one of the sets alone. -/
theorem exists_untouched {S : List τ} (hS : S.Nodup) {edges : τ → List E}
    (hdis : ∀ s ∈ S, ∀ t ∈ S, s ≠ t → (edges s).Disjoint (edges t)) {F : Finset E}
    (hF : F.card < S.length) : ∃ t ∈ S, ∀ e ∈ edges t, e ∉ F := by
  by_contra hno
  push Not at hno
  obtain ⟨t₀, ht₀⟩ := List.exists_mem_of_length_pos (show 0 < S.length by omega)
  obtain ⟨e₀, _⟩ := hno t₀ ht₀
  have : Nonempty E := ⟨e₀⟩
  choose! pick hpick hmem using hno
  have hle := length_le_card_of_private hS pick hmem (fun s hs t ht he => by
    by_contra hne
    exact hdis s hs t ht hne (hpick s hs) (he ▸ hpick t ht))
  omega

end ResSim
