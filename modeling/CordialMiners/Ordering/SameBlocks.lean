/-
# The output is a function of the blocks

Two blocklaces that store the same blocks, in whatever order they were inserted,
have the same rounds, the same final leaders and the same output.

What one of them knows of a block holds in the other because each extends the
other (`SameBlocks`).  No chain axiom is needed: a leader block that is unique in
one is unique in the other.
-/

import CordialMiners.Ordering.Stability

namespace CordialMiners

open FinGraph Relation

namespace Blocklace

/-- The same blocks, with the same references. -/
structure SameBlocks (B B' : Blocklace) : Prop where
  grow : B.Extends B'
  shrink : B'.Extends B

variable {B B' : Blocklace} {Q : Quorum.Rule NodeId} {w wave : ℕ} {ls : LeaderSelection}
  {L : BlockIdentity}

theorem SameBlocks.symm (h : B.SameBlocks B') : B'.SameBlocks B := ⟨h.shrink, h.grow⟩

/-- Blocklaces that store the same blocks. -/
theorem sameBlocks_of_stores (h : ∀ b, B.Stores b ↔ B'.Stores b) : B.SameBlocks B' :=
  ⟨fun a c hc => ⟨c, (h ⟨a, c⟩).1 hc, fun _ => Iff.rfl⟩,
    fun a c hc => ⟨c, (h ⟨a, c⟩).2 hc, fun _ => Iff.rfl⟩⟩

section NoCheckpoint

variable (h : B.SameBlocks B') (hcp : B.checkpoint = none) (hcp' : B'.checkpoint = none)

include h hcp hcp'

theorem SameBlocks.leaderBlock (hL : B.LeaderBlock w ls wave L) : B'.LeaderBlock w ls wave L :=
  h.grow.leaderBlock (hcp'.trans hcp.symm) (fun hne => absurd hcp hne) hL

theorem SameBlocks.uniqueLeader (hL : B.UniqueLeader w ls wave L) : B'.UniqueLeader w ls wave L :=
  ⟨h.leaderBlock hcp hcp' hL.toLeaderBlock,
    fun L' hL' => hL.unique L' (h.symm.leaderBlock hcp' hcp hL')⟩

theorem SameBlocks.finalLeader (hL : B.FinalLeader Q w ls wave L) : B'.FinalLeader Q w ls wave L :=
  h.grow.finalLeader (hcp'.trans hcp.symm) (fun hne => absurd hcp hne) hL

end NoCheckpoint

end Blocklace

namespace Ladder

open Blocklace

variable {ladder : Ladder} {Q : Quorum.Rule NodeId} {B B' : Blocklace}

section NoCheckpoint

variable (hQ : ladder.Decides Q) (h : B.SameBlocks B') (hcp : B.checkpoint = none)
  (hcp' : B'.checkpoint = none) (w : ℕ) (ls : LeaderSelection)

include hQ h hcp hcp'

theorem finalForWave_eq_of_sameBlocks (wave : ℕ) :
    ladder.finalForWave B' wave w ls = ladder.finalForWave B wave w ls := by
  refine Option.ext fun L => ?_
  rw [finalForWave_iff hQ, finalForWave_iff hQ]
  constructor
  · rintro ⟨hu, hf⟩
    exact ⟨h.symm.uniqueLeader hcp' hcp hu, h.symm.finalLeader hcp' hcp hf⟩
  · rintro ⟨hu, hf⟩
    exact ⟨h.uniqueLeader hcp hcp' hu, h.finalLeader hcp hcp' hf⟩

theorem latest_eq_of_sameBlocks : ladder.latest B' w ls = ladder.latest B w ls := by
  have hfinal := finalForWave_eq_of_sameBlocks hQ h hcp hcp' w ls
  refine Option.ext fun L => ?_
  rw [latest_iff_finalForWave hQ hcp', latest_iff_finalForWave hQ hcp]
  simp only [hfinal]

/-- **The output of a ladder is a function of the blocks.** -/
theorem tau_eq_of_sameBlocks : ladder.tau B' w ls = ladder.tau B w ls := by
  unfold tau
  rw [latest_eq_of_sameBlocks hQ h hcp hcp' w ls]
  cases hL : ladder.latest B w ls with
  | none => rfl
  | some L =>
      obtain ⟨wave, hfinal, -⟩ := (latest_iff_finalForWave hQ hcp).1 hL
      obtain ⟨hu, -⟩ := (finalForWave_iff hQ).1 hfinal
      exact tauAtLeader_eq_of_agree hQ h.grow hcp hcp' hu.round fun wave _ =>
        finalForWave_eq_of_sameBlocks hQ h hcp hcp' w ls wave

end NoCheckpoint

end Ladder

namespace Blocklace

variable {B B' : Blocklace}

/-- **The order of insertion does not matter to consensus.**  Two blocklaces that
were filled with the same blocks, in different orders, name the same final leaders
and have the same output, whoever equivocates. -/
theorem consensus_insertion_order_free {allowed allowed' : Blocklace → Block → Prop}
    {token token' : ℕ} (hrun : InsertRun allowed (.new token) B)
    (hrun' : InsertRun allowed' (.new token') B') (hsame : ∀ b, B.Stores b ↔ B'.Stores b)
    (wavelength n f : ℕ) (bonds : Bonds) (leaderSelection : LeaderSelection) :
    B'.latestFinalLeader wavelength n f leaderSelection =
      B.latestFinalLeader wavelength n f leaderSelection ∧
    B'.latestWeightedFinalLeader wavelength bonds leaderSelection =
      B.latestWeightedFinalLeader wavelength bonds leaderSelection ∧
    B'.tau wavelength n f leaderSelection = B.tau wavelength n f leaderSelection ∧
    B'.weightedTau wavelength bonds leaderSelection =
      B.weightedTau wavelength bonds leaderSelection := by
  have h := sameBlocks_of_stores hsame
  have hcp : B.checkpoint = none := hrun.checkpoint
  have hcp' : B'.checkpoint = none := hrun'.checkpoint
  have hcount := countLadder_decides n f
  have hstake := stakeLadder_decides bonds
  exact ⟨Ladder.latest_eq_of_sameBlocks hcount h hcp hcp' _ _,
    Ladder.latest_eq_of_sameBlocks hstake h hcp hcp' _ _,
    Ladder.tau_eq_of_sameBlocks hcount h hcp hcp' _ _,
    Ladder.tau_eq_of_sameBlocks hstake h hcp hcp' _ _⟩

/-- Two genesis blocks can be inserted in either order. -/
theorem consensus_insertion_order_free_two_genesis :
    ((Blocklace.new 1).growBy [sampleBlock (sampleId 2 2) [],
        sampleBlock (sampleId 1 1) []]).tau 1 1 0 firstLeader =
      ((Blocklace.new 0).growBy [sampleBlock (sampleId 1 1) [],
        sampleBlock (sampleId 2 2) []]).tau 1 1 0 firstLeader := by
  have hperm : ((Blocklace.new 0).growBy [sampleBlock (sampleId 1 1) [],
      sampleBlock (sampleId 2 2) []]).blocks.entries.Perm
      ((Blocklace.new 1).growBy [sampleBlock (sampleId 2 2) [],
        sampleBlock (sampleId 1 1) []]).blocks.entries := by decide +kernel
  refine (consensus_insertion_order_free (insertRun_growBy (by decide +kernel))
    (insertRun_growBy (by decide +kernel)) (fun b => ?_) 1 1 0 ⟨∅, by decide⟩ firstLeader).2.2.1
  rw [Stores, Stores, AList.perm_lookup hperm]

end Blocklace

end CordialMiners
