/-
# From a completed round to the next state

`por/transition.rs`, with `CompletedPorRatingRound` of `por/lifecycle/mod.rs` and
`reputation_weights` of `weights.rs`.

Three rounds end in a reputation block: a wave round that is built locally, a
checkpoint round, and a wave round whose block was attested by others.  All three
replay and audit against a copy of the state.  What they stage is the state with the
audited block committed, and the block follows the latest one (`Staged`).
-/

import CordialMiners.Slashing.Completed
import CordialMiners.Reputation.Snapshot

namespace CordialMiners.Reputation

open Codec (bind_eq_ok check_eq_ok guard_eq_ok)

/-- `FinalizedRatingRound`. -/
structure FinalizedRatingRound where
  finalizedWave : U64
  ratingRound : U64
deriving DecidableEq, Repr

/-- `PorRatingRoundCloseReason`. -/
inductive PorRatingRoundCloseReason where
  | allAuthorizedRaters
  | quorum (completedWeight requiredWeight : ℕ)
  | finalizedWaveCutoff (observedFinalizedWave requiredFinalizedWave : U64)
deriving DecidableEq, Repr

/-- A closed rating round of the wave format, with its penalties. -/
structure CompletedPorRatingRound where
  opened : FinalizedRatingRound
  batch : RatingBatch
  closeReason : PorRatingRoundCloseReason
  penalties : Option ReputationPenaltyEvents
  finalizedAuthorizations : OrderedSet PorEquivocationAuthorization
  admittedAuthorizations : OrderedSet PorEquivocationAuthorization

/-- `CompletedPorRatingRound::validate_complete_authorizations`. -/
def CompletedPorRatingRound.validateCompleteAuthorizations (completed : CompletedPorRatingRound)
    (shardId : List Byte) : Except PorError Unit :=
  if keepMembers completed.finalizedAuthorizations (·.shardId = shardId) ≠
      completed.admittedAuthorizations then
    .error (invalid "admitted proofs do not match the complete finalized authorization set")
  else .ok ()

/-- `reputation_weights`: the keys that are not excluded. -/
def reputationWeights (s : ReputationState) : OrderedMap NodeId U64 :=
  OrderedMap.insertAll .empty ReputationEntry.nodeId ReputationEntry.reputation
    (s.reputationList.entries.filter fun entry => !entry.isExcluded)

/-- `AppliedPorReputationRound`. -/
structure AppliedPorReputationRound where
  closeReason : PorRatingRoundCloseReason
  block : ReputationBlock
  reputationWeights : OrderedMap NodeId U64

section Hasher

variable (hasher : List Byte → ContentHash)

/-- `stage_reputation_block`. -/
def stageReputationBlock (completed : CompletedPorRatingRound) (state : ReputationState)
    (config : PorConfig) (shardId : List Byte) (block : ReputationBlock) :
    Except PorError (ReputationState × AppliedPorReputationRound) := do
  completed.validateCompleteAuthorizations shardId
  let staged ← state.applyReputationBlockWithPenalties hasher shardId
    completed.opened.finalizedWave completed.batch.ratings block config completed.penalties
  .ok (staged, ⟨completed.closeReason, block, reputationWeights staged⟩)

/-- `stage_completed_reputation_round`. -/
def stageCompletedReputationRound (completed : CompletedPorRatingRound) (state : ReputationState)
    (config : PorConfig) (shardId : List Byte) :
    Except PorError (ReputationState × AppliedPorReputationRound) := do
  completed.validateCompleteAuthorizations shardId
  let reputationList ← replayReputationTransitionWithPenalties hasher state.previousVector
    completed.batch.ratings completed.batch.round config completed.penalties
  let block ← buildReputationBlockWithPenalties hasher
    ⟨shardId, completed.opened.finalizedWave, state.latestBlock⟩ completed.batch reputationList
    config completed.penalties
  stageReputationBlock hasher completed state config shardId block

/-- `stage_completed_checkpoint_round`. -/
def stageCompletedCheckpointRound (completed : CompletedCheckpointRatingRound)
    (state : ReputationState) (config : PorConfig) (shardId : List Byte) :
    Except PorError (ReputationState × AppliedPorReputationRound) := do
  completed.validatePrecedingState state
  completed.validateCompleteAuthorizations shardId
  let reputationList ← replayReputationTransitionWithPenalties hasher state.previousVector
    completed.batch.ratings completed.batch.round config completed.penalties
  let block ← buildCheckpointReputationBlockWithPenalties hasher
    ⟨shardId, completed.source, state.latestBlock⟩ completed.batch reputationList config
    completed.penalties
  let staged ← state.applyCheckpointReputationBlockWithPenalties hasher shardId completed.source
    completed.batch.ratings block config completed.penalties
  .ok (staged, ⟨.allAuthorizedRaters, block, reputationWeights staged⟩)

/-- `stage_attested_checkpoint`. -/
def stageAttestedCheckpoint (completed : CompletedPorRatingRound) (state : ReputationState)
    (config : PorConfig) (shardId : List Byte) (block : ReputationBlock) :
    Except PorError (ReputationState × AppliedPorReputationRound) :=
  stageReputationBlock hasher completed state config shardId block

end Hasher

/-! ### What is staged -/

/-- A block that may follow a state: audited, and behind the latest block. -/
structure ReputationState.Staged (hasher : List Byte → ContentHash) (s : ReputationState)
    (block : ReputationBlock) : Prop where
  audited : s.Audited hasher block
  round : checkedAdd64 s.currentRound 1 = some block.header.round.val
  previous : previousReputationHash hasher block.header.shardId block.header.round s.latestBlock =
    .ok block.header.previousReputationHash

variable {hasher : List Byte → ContentHash} {state staged : ReputationState} {config : PorConfig}
  {shardId : List Byte} {applied : AppliedPorReputationRound}

theorem applyBlock_staged {wave : U64} {ratings : List RatingRecord} {block : ReputationBlock}
    {penalties : Option ReputationPenaltyEvents}
    (h : state.applyReputationBlockWithPenalties hasher shardId wave ratings block config penalties =
      .ok staged) :
    staged = state.commitAuditedBlock block ∧ state.Staged hasher block := by
  obtain ⟨hcommit, haudited⟩ := ReputationState.applyBlock_audited h
  obtain ⟨hverify, -⟩ := check_eq_ok.1 h
  obtain ⟨list, hreplay, hbuilt⟩ := verify_eq_ok.1 hverify
  obtain ⟨-, -, _, -, hround, -⟩ := replay_stages hreplay
  exact ⟨hcommit, haudited, hround, build_previous hbuilt⟩

theorem applyCheckpointBlock_staged {source : RatingSourceCheckpoint} {ratings : List RatingRecord}
    {block : ReputationBlock} {penalties : Option ReputationPenaltyEvents}
    (h : state.applyCheckpointReputationBlockWithPenalties hasher shardId source ratings block config
      penalties = .ok staged) :
    staged = state.commitAuditedBlock block ∧ state.Staged hasher block := by
  obtain ⟨hcommit, haudited⟩ := ReputationState.applyCheckpointBlock_audited h
  obtain ⟨hverify, -⟩ := check_eq_ok.1 h
  obtain ⟨list, hreplay, hbuilt⟩ := verifyCheckpoint_eq_ok.1 hverify
  obtain ⟨-, -, _, -, hround, -⟩ := replay_stages hreplay
  exact ⟨hcommit, haudited, hround, buildCheckpoint_previous hbuilt⟩

theorem stageReputationBlock_staged {completed : CompletedPorRatingRound} {block : ReputationBlock}
    (h : stageReputationBlock hasher completed state config shardId block = .ok (staged, applied)) :
    staged = state.commitAuditedBlock applied.block ∧ state.Staged hasher applied.block := by
  obtain ⟨-, h⟩ := check_eq_ok.1 h
  obtain ⟨_, hstaged, h⟩ := bind_eq_ok.1 h
  obtain ⟨rfl, rfl⟩ := Prod.mk.inj (Except.ok.inj h)
  exact applyBlock_staged hstaged

/-- **A wave round stages the block it builds.** -/
theorem stageCompletedReputationRound_staged {completed : CompletedPorRatingRound}
    (h : stageCompletedReputationRound hasher completed state config shardId = .ok (staged, applied)) :
    staged = state.commitAuditedBlock applied.block ∧ state.Staged hasher applied.block := by
  obtain ⟨-, h⟩ := check_eq_ok.1 h
  obtain ⟨_, -, h⟩ := bind_eq_ok.1 h
  obtain ⟨_, -, h⟩ := bind_eq_ok.1 h
  exact stageReputationBlock_staged h

/-- **What a checkpoint round stages.**  The auditor accepts the block that was built, so
only replay and builder decide. -/
theorem stageCompletedCheckpointRound_eq_ok {completed : CompletedCheckpointRatingRound} :
    stageCompletedCheckpointRound hasher completed state config shardId = .ok (staged, applied) ↔
      completed.precedingReputation = state.reputationList ∧
      completed.validateCompleteAuthorizations shardId = .ok () ∧
      (∃ list, replayReputationTransitionWithPenalties hasher state.previousVector
          completed.batch.ratings completed.batch.round config completed.penalties = .ok list ∧
        buildCheckpointReputationBlockWithPenalties hasher
          ⟨shardId, completed.source, state.latestBlock⟩ completed.batch list config
          completed.penalties = .ok applied.block) ∧
      staged = state.commitAuditedBlock applied.block ∧
      applied = ⟨.allAuthorizedRaters, applied.block, reputationWeights staged⟩ := by
  unfold stageCompletedCheckpointRound CompletedCheckpointRatingRound.validatePrecedingState
  rw [check_eq_ok, check_eq_ok, guard_eq_ok, not_not,
    and_iff_left rfl]
  refine and_congr_right fun _ => and_congr_right fun _ => ?_
  simp only [bind_eq_ok, Except.ok.injEq, Prod.mk.injEq]
  constructor
  · rintro ⟨list, hreplay, block, hbuilt, _, hstaged, rfl, rfl⟩
    exact ⟨⟨list, hreplay, hbuilt⟩, (ReputationState.applyCheckpointBlock_audited hstaged).1, rfl⟩
  · rintro ⟨⟨list, hreplay, hbuilt⟩, hstaged, happlied⟩
    refine ⟨list, hreplay, _, hbuilt, staged, ?_, rfl, happlied.symm⟩
    exact check_eq_ok.2 ⟨buildCheckpoint_verified hreplay hbuilt, congrArg _ hstaged.symm⟩

/-- **A checkpoint round stages the block it builds.** -/
theorem stageCompletedCheckpointRound_staged {completed : CompletedCheckpointRatingRound}
    (h : stageCompletedCheckpointRound hasher completed state config shardId = .ok (staged, applied)) :
    staged = state.commitAuditedBlock applied.block ∧ state.Staged hasher applied.block := by
  obtain ⟨-, h⟩ := check_eq_ok.1 h
  obtain ⟨-, h⟩ := check_eq_ok.1 h
  obtain ⟨_, -, h⟩ := bind_eq_ok.1 h
  obtain ⟨_, -, h⟩ := bind_eq_ok.1 h
  obtain ⟨_, hstaged, h⟩ := bind_eq_ok.1 h
  obtain ⟨rfl, rfl⟩ := Prod.mk.inj (Except.ok.inj h)
  exact applyCheckpointBlock_staged hstaged

end CordialMiners.Reputation
