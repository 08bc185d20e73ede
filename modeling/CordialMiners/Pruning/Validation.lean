/-
# Validation after a prune

The chain check compares a new block with every stored block of its creator.
After a prune it walks paths that stop at the checkpoint, while older blocks of
the creator can be retained as protected ones.  It then reports an equivocation
where the whole history shows none: the new block sees the older one through the
checkpoint only, or the new block is one that the prune forgot.

`pruned_equivocation_iff` says exactly when this does not happen.
-/

import CordialMiners.Pruning.Cut
import CordialMiners.Validation.Block

namespace CordialMiners

open Relation

namespace Blocklace

variable {B P : Blocklace} {block : Block} {a b c : BlockIdentity}

/-- A stored block of the creator is incomparable with the block. -/
def Equivocates (B : Blocklace) (block : Block) : Prop :=
  ∃ a ∈ B.blocks, a.creator = block.identity.creator ∧ a ≠ block.identity ∧ ¬ B.Comparable block a

/-- `a` and the block are comparable without the references of `c`: a reference
of the block sees `a` around `c`, or the block is retained and below `a` around `c`. -/
def ComparableAround (B : Blocklace) (c : BlockIdentity) (block : Block) (a : BlockIdentity) :
    Prop :=
  (∃ p ∈ block.content.predecessors, ∃ r, B.resolveIdentity p = some r ∧ B.SeesAround c r a) ∨
    ∃ b, B.resolveIdentity block.identity = some b ∧ ¬ B.Dropped c b ∧ B.BelowAround c b a

/-- The block is comparable around `c` with every block of its creator that a
prune at `c` retains. -/
def ClearOf (B : Blocklace) (c : BlockIdentity) (block : Block) : Prop :=
  ∀ a ∈ B.blocks, ¬ B.Dropped c a → a.creator = block.identity.creator → a ≠ block.identity →
    B.ComparableAround c block a

/-- Comparability in the pruned blocklace is comparability around the checkpoint. -/
theorem Pruned.comparable_iff (h : B.Pruned c P) (hcut : B.CutAt c P) (ha : a ∈ P.blocks)
    (hrefs : ∀ p ∈ block.content.predecessors, ∃ r, P.resolveIdentity p = some r) :
    P.Comparable block a ↔ B.ComparableAround c block a := by
  unfold Comparable ComparableAround
  refine or_congr (exists_congr fun p => and_congr_right fun hp => ?_) (exists_congr fun b => ?_)
  · obtain ⟨r, hr⟩ := hrefs p hp
    have hrB := hcut.resolveIdentity_whole hr
    simp only [hr, hrB, Option.some.injEq, exists_eq_left']
    exact hcut.sees_iff (resolveIdentity_mem hr)
  · rw [h.resolveIdentity_iff, hcut.below_iff ha, and_assoc]

/-- **When pruning creates no equivocation.**  Validation against the pruned
blocklace reports one only if it does against the whole, exactly when the whole
has one or the block is clear of the cut. -/
theorem pruned_equivocation_iff (crypto : BlockCrypto) (bonds : Bonds) {report : PruneReport}
    (hcp : B.checkpoint = none) (hclosed : B.isClosed = true)
    (hprune : B.pruneBelowCheckpoint c = .ok (report, P))
    (hrefs : ∀ p ∈ block.content.predecessors, ∃ r, P.resolveIdentity p = some r) :
    (ReportsEquivocation crypto P block bonds .default →
        ReportsEquivocation crypto B block bonds .default) ↔
      (B.Equivocates block ∨ B.ClearOf c block) := by
  obtain ⟨hcp', -⟩ | ⟨hpr, -⟩ := pruneBelowCheckpointWithPrefix_ok hprune
  · simp [hcp] at hcp'
  have hcut := hpr.cutAt hcp hclosed
  have hwhole : ReportsEquivocation crypto B block bonds .default ↔ B.Equivocates block := by
    rw [reportsEquivocation_iff rfl]
    refine and_iff_right fun p hp => ?_
    obtain ⟨r, hr⟩ := hrefs p hp
    exact ⟨r, hcut.resolveIdentity_whole hr⟩
  have hpruned : ReportsEquivocation crypto P block bonds .default ↔ ¬ B.ClearOf c block := by
    rw [reportsEquivocation_iff rfl, and_iff_right hrefs]
    unfold ClearOf
    push Not
    refine exists_congr fun a => ?_
    constructor
    · rintro ⟨ha, hcreator, hne, hcomp⟩
      obtain ⟨haB, hkept⟩ := hpr.mem_iff.1 ha
      exact ⟨haB, hkept, hcreator, hne, by rwa [← hpr.comparable_iff hcut ha hrefs]⟩
    · rintro ⟨haB, hkept, hcreator, hne, hcomp⟩
      have ha := hpr.mem_iff.2 ⟨haB, hkept⟩
      exact ⟨ha, hcreator, hne, by rwa [hpr.comparable_iff hcut ha hrefs]⟩
  rw [hwhole, hpruned]
  tauto

/-- Two genesis blocks, a block of creator `1` on both, and a block of creator
`3` that refers to the genesis block of creator `2` only. -/
def sideReference : List Block :=
  [sampleBlock (sampleId 1 1) [], sampleBlock (sampleId 2 2) [],
    sampleBlock (sampleId 3 1) [sampleId 1 1, sampleId 2 2],
    sampleBlock (sampleId 4 3) [sampleId 2 2]]

/-- The next block of creator `2`, on the block of creator `1`. -/
def nextBlock : Block := sampleBlock (sampleId 5 2) [sampleId 3 1]

/-- A block of creator `3` on its own block and on the checkpoint. -/
def clearBlock : Block := sampleBlock (sampleId 6 3) [sampleId 3 1, sampleId 4 3]

/-- A block that refers to the last block of its creator is clear of the cut. -/
theorem pruned_equivocation_iff_clear_block :
    ((new 0).growBy sideReference).ClearOf (sampleId 3 1) clearBlock ∧
      (ReportsEquivocation (listedCrypto [clearBlock])
          (((new 0).growBy sideReference).pruneTo (sampleId 3 1)) clearBlock
          threeBonds .default →
        ReportsEquivocation (listedCrypto [clearBlock]) ((new 0).growBy sideReference)
          clearBlock threeBonds .default) := by
  obtain ⟨report, hprune⟩ := pruneBelowCheckpoint_pruneTo
    (B := (new 0).growBy sideReference) (c := sampleId 3 1) (by decide +kernel)
  have hrefs : ∀ p ∈ clearBlock.content.predecessors, ∃ r,
      (((new 0).growBy sideReference).pruneTo (sampleId 3 1)).resolveIdentity p =
        some r := by
    intro p hp
    exact Option.isSome_iff_exists.1 ((by decide +kernel : ∀ p ∈ clearBlock.content.predecessors,
      ((((new 0).growBy sideReference).pruneTo
        (sampleId 3 1)).resolveIdentity p).isSome) p hp)
  have hclear : ((new 0).growBy sideReference).ClearOf (sampleId 3 1) clearBlock := by
    -- the only other block of creator `3` is the one it refers to
    intro a ha _ hcreator _
    have hall : ∀ x ∈ ((new 0).growBy sideReference).dom,
        x.creator = clearBlock.identity.creator → x = sampleId 4 3 := by decide +kernel
    obtain rfl := hall a (AList.mem_keys.1 ha) hcreator
    exact Or.inl ⟨sampleId 4 3, by decide +kernel, sampleId 4 3, by decide +kernel,
      ReflTransGen.refl⟩
  exact ⟨hclear, (pruned_equivocation_iff (listedCrypto [clearBlock]) threeBonds (by decide +kernel)
    (by decide +kernel) hprune hrefs).2 (Or.inr hclear)⟩

/-- After a prune at the block of creator `1`, the next block of creator `2` and
the genesis block of creator `1`, delivered again, are valid against the whole
blocklace and reported as equivocations against the pruned one. -/
theorem equivocation_created_by_prune :
    ∃ B P : Blocklace, ∃ report, InsertRun AnyBlock (new 0) B ∧ B.checkpoint = none ∧
      B.isClosed = true ∧ B.satisfiesChainAxiomAll = true ∧
      B.pruneBelowCheckpoint (sampleId 3 1) = .ok (report, P) ∧
      (∀ p ∈ nextBlock.content.predecessors, (P.resolveIdentity p).isSome) ∧
      B.validateBlock (listedCrypto [nextBlock]) nextBlock threeBonds .default = .valid ∧
      P.validateBlock (listedCrypto [nextBlock]) nextBlock threeBonds .default =
        .invalid [.equivocation (sampleId 2 2)] ∧
      sampleId 1 1 ∉ P.blocks ∧
      B.validateBlock (listedCrypto sideReference) (sampleBlock (sampleId 1 1) []) threeBonds
        .default = .valid ∧
      P.validateBlock (listedCrypto sideReference) (sampleBlock (sampleId 1 1) []) threeBonds
        .default = .invalid [.equivocation (sampleId 3 1)] := by
  obtain ⟨report, hprune⟩ := pruneBelowCheckpoint_pruneTo
    (B := (new 0).growBy sideReference) (c := sampleId 3 1) (by decide +kernel)
  exact ⟨_, _, report, insertRun_growBy (by decide +kernel), by decide +kernel, by decide +kernel,
    by decide +kernel, hprune, by decide +kernel, by decide +kernel, by decide +kernel,
    by decide +kernel, by decide +kernel, by decide +kernel⟩

end Blocklace

end CordialMiners
