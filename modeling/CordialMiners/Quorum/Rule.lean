/-
# Quorum rules

A quorum rule says which sets of voters are large enough.  A larger set of
voters is large enough too, and the empty set never is.  Two rules are built:
`count k`, more than `k` voters, and `stake weight total`, voters that together
weigh strictly more than two thirds of a total.  Two quorums of one rule meet:
in some voter (`count_inter`), or in some voter outside a set that weighs at
most one third (`stake_inter`).
-/

import Mathlib.Algebra.BigOperators.Group.Finset.Basic
import Mathlib.Algebra.Order.BigOperators.Group.Finset
import Mathlib.Data.Finset.Card
import Mathlib.Tactic

namespace Quorum

variable {α : Type*}

/-- Which sets of voters are large enough. -/
structure Rule (α : Type*) where
  holds : Set α → Prop
  mono : ∀ {S T : Set α}, S ⊆ T → holds S → holds T
  nonempty : ∀ {S : Set α}, holds S → S.Nonempty

/-- More than `k` voters. -/
def count (k : ℕ) : Rule α where
  holds S := ∃ F : Finset α, ↑F ⊆ S ∧ k < F.card
  mono := fun hST ⟨F, hF, hk⟩ => ⟨F, hF.trans hST, hk⟩
  nonempty := fun ⟨_, hF, hk⟩ =>
    let ⟨a, ha⟩ := Finset.card_pos.1 (Nat.zero_lt_of_lt hk)
    ⟨a, hF ha⟩

/-- Voters weighing strictly more than two thirds of `total`. -/
def stake (weight : α → ℕ) (total : ℕ) : Rule α where
  holds S := ∃ F : Finset α, ↑F ⊆ S ∧ 2 * total < 3 * ∑ a ∈ F, weight a
  mono := fun hST ⟨F, hF, hk⟩ => ⟨F, hF.trans hST, hk⟩
  nonempty := by
    rintro S ⟨F, hF, hk⟩
    rcases F.eq_empty_or_nonempty with rfl | ⟨a, ha⟩
    · simp at hk
    · exact ⟨a, hF ha⟩

section Count

variable {k : ℕ} {S T : Set α}

/-- The voters of a finite set are a quorum when they are more than `k`. -/
theorem count_coe {F : Finset α} : (count k).holds (F : Set α) ↔ k < F.card := by
  constructor
  · rintro ⟨G, hG, hk⟩
    exact hk.trans_le (Finset.card_le_card (by exact_mod_cast hG))
  · exact fun hk => ⟨F, subset_rfl, hk⟩

/-- **Two quorums of more than `k` out of at most `2k + 1` voters meet.** -/
theorem count_inter [DecidableEq α] (hS : (count k).holds S) (hT : (count k).holds T)
    {U : Finset α} (hSU : S ⊆ U) (hTU : T ⊆ U) (hU : U.card ≤ 2 * k + 1) :
    ∃ a, a ∈ S ∧ a ∈ T := by
  obtain ⟨F, hF, hFk⟩ := hS
  obtain ⟨G, hG, hGk⟩ := hT
  have hun : F ∪ G ⊆ U := by
    refine Finset.union_subset ?_ ?_
    · exact_mod_cast hF.trans hSU
    · exact_mod_cast hG.trans hTU
  have hcard := Finset.card_union_add_card_inter F G
  have hle := Finset.card_le_card hun
  obtain ⟨a, ha⟩ : (F ∩ G).Nonempty := by
    rw [← Finset.card_pos]
    omega
  exact ⟨a, hF (Finset.mem_inter.1 ha).1, hG (Finset.mem_inter.1 ha).2⟩

/-- **Two quorums out of few enough voters meet outside a small set.** -/
theorem count_inter_outside [DecidableEq α] (hS : (count k).holds S) (hT : (count k).holds T)
    {U bad : Finset α} (hSU : S ⊆ U) (hTU : T ⊆ U) (hU : U.card + bad.card ≤ 2 * k + 1) :
    ∃ a, a ∈ S ∧ a ∈ T ∧ a ∉ bad := by
  obtain ⟨F, hF, hFk⟩ := hS
  obtain ⟨G, hG, hGk⟩ := hT
  have hun : F ∪ G ⊆ U := by
    refine Finset.union_subset ?_ ?_
    · exact_mod_cast hF.trans hSU
    · exact_mod_cast hG.trans hTU
  have hcard := Finset.card_union_add_card_inter F G
  have hle := Finset.card_le_card hun
  by_contra hnone
  push Not at hnone
  have hsub : F ∩ G ⊆ bad := fun a ha =>
    hnone a (hF (Finset.mem_inter.1 ha).1) (hG (Finset.mem_inter.1 ha).2)
  have hbad := Finset.card_le_card hsub
  omega

end Count

section Stake

variable {weight : α → ℕ} {total : ℕ} {S T : Set α}

/-- The voters of a finite set are a quorum when they weigh enough. -/
theorem stake_coe {F : Finset α} :
    (stake weight total).holds (F : Set α) ↔ 2 * total < 3 * ∑ a ∈ F, weight a := by
  constructor
  · rintro ⟨G, hG, hk⟩
    have hle : ∑ a ∈ G, weight a ≤ ∑ a ∈ F, weight a :=
      Finset.sum_le_sum_of_subset (by exact_mod_cast hG)
    omega
  · exact fun hk => ⟨F, subset_rfl, hk⟩

/-- Voters without weight do not count. -/
theorem stake_filter_pos (hS : (stake weight total).holds S) :
    (stake weight total).holds {a ∈ S | 0 < weight a} := by
  obtain ⟨F, hF, hk⟩ := hS
  refine ⟨F.filter fun a => 0 < weight a, fun a ha => ?_, ?_⟩
  · rw [Finset.mem_coe, Finset.mem_filter] at ha
    exact ⟨hF ha.1, ha.2⟩
  · rwa [Finset.sum_filter_of_ne fun a _ h => Nat.pos_of_ne_zero h]

/-- **Two quorums of stake meet outside any set that weighs at most a third.** -/
theorem stake_inter [DecidableEq α] (hS : (stake weight total).holds S)
    (hT : (stake weight total).holds T) (htotal : ∀ F : Finset α, ∑ a ∈ F, weight a ≤ total)
    {bad : Finset α} (hbad : 3 * ∑ a ∈ bad, weight a ≤ total) :
    ∃ a, a ∈ S ∧ a ∈ T ∧ a ∉ bad := by
  obtain ⟨F, hF, hFk⟩ := hS
  obtain ⟨G, hG, hGk⟩ := hT
  have hunion := htotal (F ∪ G)
  have hsum : ∑ a ∈ F ∪ G, weight a + ∑ a ∈ F ∩ G, weight a =
      ∑ a ∈ F, weight a + ∑ a ∈ G, weight a := Finset.sum_union_inter
  by_contra hnone
  push Not at hnone
  have hsub : F ∩ G ⊆ bad := fun a ha =>
    hnone a (hF (Finset.mem_inter.1 ha).1) (hG (Finset.mem_inter.1 ha).2)
  have hle := Finset.sum_le_sum_of_subset (f := weight) hsub
  omega

end Stake

end Quorum
