/-
# The window of a checkpoint

`por/finality.rs` and `validate_finalized_checkpoint_window` of
`por/interactions.rs`.

A checkpoint of the reputation protocol is a fixed position in the finalized
prefix: round `r` ends at block `16 * r`.  It carries a rolling hash of every
identity up to there.  Its window are the sixteen blocks that end at it.

`window_eq_ok` says what a valid window is: the checkpoint is the one the
output has at this position, the anchor and every block of the window have a depth.
-/

import CordialMiners.Reputation.Commitments
import CordialMiners.Core.Wave
import CordialMiners.Core.Round

namespace CordialMiners.Reputation

open Codec (beBytes bind_eq_ok check_eq_ok guard_eq_ok
  mapError_eq_ok)

/-- The finalized prefix of an ordering, with the leader that finalized it. -/
structure OrderedFinalizedOutput where
  blocks : List BlockIdentity
  anchor : Option BlockIdentity
  wavelength : ℕ
deriving DecidableEq, Repr

/-- A position in the finalized prefix. -/
structure FinalizedPrefixCheckpoint where
  porRound : U64
  finalizedPrefixLen : U64
  prefixHash : ContentHash
  terminalBlock : BlockIdentity
deriving DecidableEq, Repr

/-- `FinalizedPrefixCheckpoint::rating_source`. -/
def FinalizedPrefixCheckpoint.ratingSource (checkpoint : FinalizedPrefixCheckpoint) :
    RatingSourceCheckpoint :=
  ⟨checkpoint.porRound, checkpoint.finalizedPrefixLen, checkpoint.prefixHash⟩

/-- The errors of `PorFinalityError` that a window can end with. -/
inductive PorFinalityError where
  | invalidWavelength
  | unknownFinalLeader
  | unanchoredFinalizedPrefix
  | invalidPrefixCheckpointRound
  | prefixCheckpointMismatch
deriving DecidableEq, Repr

/-- The text of the error. -/
def PorFinalityError.text : PorFinalityError → String
  | .invalidWavelength => "finalized output wavelength must be non-zero"
  | .unknownFinalLeader => "final leader anchor is not present in the blocklace"
  | .unanchoredFinalizedPrefix => "non-empty finalized prefix has no final leader anchor"
  | .invalidPrefixCheckpointRound => "invalid or overflowing PoR source checkpoint round"
  | .prefixCheckpointMismatch => "PoR source checkpoint does not match the finalized prefix"

/-- The errors of `PorInteractionError` that a window can end with. -/
inductive PorInteractionError where
  | missingFinalLeader
  | unknownFinalizedBlock
  | checkpoint (error : PorFinalityError)
deriving DecidableEq, Repr

/-- The text of the error. -/
def PorInteractionError.text : PorInteractionError → String
  | .missingFinalLeader => "finalized output has no final leader anchor"
  | .unknownFinalizedBlock => "finalized output contains a block absent from the blocklace"
  | .checkpoint error => error.text

/-- `POR_FINALIZED_PREFIX_HASH_DOMAIN`. -/
def finalizedPrefixHashDomain : List Byte := asciiBytes "cordial-por:finalized-prefix:v1"

section Hasher

variable (hasher : List Byte → ContentHash)

/-- One round of the rolling hash. -/
def rollPrefixHash (state : ℕ × ContentHash) (block : BlockIdentity) : ℕ × ContentHash :=
  (state.1 + 1, hasher (finalizedPrefixHashDomain ++ contentHashBytes state.2 ++
    beBytes 8 state.1 ++ contentHashBytes block.contentHash ++ putBytes block.creator.bytes ++
    putBytes block.signature))

/-- `finalized_prefix_hash`. -/
def finalizedPrefixHash (blocks : List BlockIdentity) : ContentHash :=
  (blocks.foldl (rollPrefixHash hasher) (0, hasher finalizedPrefixHashDomain)).2

/-- `finalized_prefix_checkpoint`. -/
def finalizedPrefixCheckpoint (output : OrderedFinalizedOutput) (porRound : U64) :
    Except PorFinalityError (Option FinalizedPrefixCheckpoint) :=
  if porRound = 0 then .error .invalidPrefixCheckpointRound
  else
    match tryU64 (porRound.val * finalizedBlocksPerCheckpoint) with
    | none => .error .invalidPrefixCheckpointRound
    | some last =>
        if output.anchor = none then
          if output.blocks = [] then .ok none else .error .unanchoredFinalizedPrefix
        else
          .ok <| output.blocks[last.val - 1]?.map fun terminalBlock =>
            ⟨porRound, last, finalizedPrefixHash hasher (output.blocks.take last.val), terminalBlock⟩

/-- `validate_finalized_prefix_checkpoint`. -/
def validateFinalizedPrefixCheckpoint (output : OrderedFinalizedOutput)
    (checkpoint : FinalizedPrefixCheckpoint) : Except PorFinalityError Unit := do
  let expected ← finalizedPrefixCheckpoint hasher output checkpoint.porRound
  if expected = some checkpoint then .ok () else .error .prefixCheckpointMismatch

/-- `finalized_wave_from_output`. -/
def finalizedWaveFromOutput (B : Blocklace) (output : OrderedFinalizedOutput) :
    Except PorFinalityError (Option ℕ) :=
  match output.anchor with
  | none => .ok none
  | some finalLeader =>
      if output.wavelength = 0 then .error .invalidWavelength
      else do
        let leaderRound ← okOr .unknownFinalLeader (B.depth finalLeader)
        let wave ← okOr .invalidWavelength (waveOfRound leaderRound output.wavelength)
        .ok (some wave)

/-- The sixteen blocks that end at the checkpoint. -/
def windowBlocks (output : OrderedFinalizedOutput) (checkpoint : FinalizedPrefixCheckpoint) :
    List BlockIdentity :=
  (output.blocks.take checkpoint.finalizedPrefixLen.val).drop
    (checkpoint.finalizedPrefixLen.val - finalizedBlocksPerCheckpoint)

/-- `validate_finalized_checkpoint_window`. -/
def validateFinalizedCheckpointWindow (B : Blocklace) (output : OrderedFinalizedOutput)
    (checkpoint : FinalizedPrefixCheckpoint) : Except PorInteractionError Unit := do
  (validateFinalizedPrefixCheckpoint hasher output checkpoint).mapError .checkpoint
  let wave ← (finalizedWaveFromOutput B output).mapError .checkpoint
  if wave = none then .error .missingFinalLeader
  else
    (windowBlocks output checkpoint).forM fun block =>
      if B.depth block = none then .error .unknownFinalizedBlock else .ok ()

/-- `window`: the blocks of the window, once it is validated. -/
def window (B : Blocklace) (output : OrderedFinalizedOutput)
    (checkpoint : FinalizedPrefixCheckpoint) : Except PorError (List BlockIdentity) := do
  (validateFinalizedCheckpointWindow hasher B output checkpoint).mapError fun error =>
    .invalidPenaltyEvents error.text
  .ok (windowBlocks output checkpoint)

end Hasher

/-! ### Valid windows -/

variable {hasher : List Byte → ContentHash} {B : Blocklace} {output : OrderedFinalizedOutput}
  {checkpoint : FinalizedPrefixCheckpoint}

/-- The checkpoint is the one of its position. -/
structure CheckpointOf (hasher : List Byte → ContentHash) (output : OrderedFinalizedOutput)
    (checkpoint : FinalizedPrefixCheckpoint) : Prop where
  round_ne : checkpoint.porRound ≠ 0
  length : checkpoint.finalizedPrefixLen.val = checkpoint.porRound.val * finalizedBlocksPerCheckpoint
  anchored : output.anchor ≠ none
  terminal : output.blocks[checkpoint.finalizedPrefixLen.val - 1]? = some checkpoint.terminalBlock
  hash : checkpoint.prefixHash =
    finalizedPrefixHash hasher (output.blocks.take checkpoint.finalizedPrefixLen.val)

theorem validateFinalizedPrefixCheckpoint_eq_ok :
    validateFinalizedPrefixCheckpoint hasher output checkpoint = .ok () ↔
      CheckpointOf hasher output checkpoint := by
  obtain ⟨porRound, prefixLen, prefixHash, terminalBlock⟩ := checkpoint
  unfold validateFinalizedPrefixCheckpoint finalizedPrefixCheckpoint
  constructor
  · intro h
    obtain ⟨expected, hexpected, h⟩ := bind_eq_ok.1 h
    split_ifs at h with heq
    subst heq
    split_ifs at hexpected with hround hanchor hblocks
    · split at hexpected <;> exact absurd hexpected (by simp)
    · split at hexpected <;> exact absurd hexpected (by simp)
    split at hexpected
    · exact absurd hexpected (by simp)
    next last hlast =>
    simp only [Except.ok.injEq, Option.map_eq_some_iff] at hexpected
    obtain ⟨block, hblock, heq⟩ := hexpected
    simp only [FinalizedPrefixCheckpoint.mk.injEq, true_and] at heq
    obtain ⟨rfl, rfl, rfl⟩ := heq
    exact ⟨hround, (tryU64_eq_some.1 hlast).symm, hanchor, hblock, rfl⟩
  · rintro ⟨hround, hlength, hanchor, hblock, hhash⟩
    dsimp only at hround hlength hblock hhash
    subst hhash
    refine bind_eq_ok.2 ⟨_, ?_, if_pos rfl⟩
    rw [if_neg hround]
    dsimp only
    rw [tryU64_eq_some.2 hlength.symm]
    dsimp only
    rw [if_neg hanchor, hblock]
    rfl

/-- What a valid window is. -/
structure ValidWindow (hasher : List Byte → ContentHash) (B : Blocklace)
    (output : OrderedFinalizedOutput) (checkpoint : FinalizedPrefixCheckpoint) : Prop where
  checkpointOf : CheckpointOf hasher output checkpoint
  leader : ∃ leader round, output.anchor = some leader ∧ output.wavelength ≠ 0 ∧
    B.RoundOf leader round
  stored : ∀ block ∈ windowBlocks output checkpoint, ∃ d, B.RoundOf block d

theorem finalizedWaveFromOutput_eq_some_iff :
    (∃ wave, finalizedWaveFromOutput B output = .ok (some wave)) ↔
      ∃ leader round, output.anchor = some leader ∧ output.wavelength ≠ 0 ∧
        B.RoundOf leader round := by
  unfold finalizedWaveFromOutput
  cases output.anchor with
  | none => simp
  | some leader =>
      simp only [Option.some.injEq]
      split_ifs with hzero
      · simp [hzero]
      · simp only [bind_eq_ok, okOr_eq_ok, Blocklace.depth_eq_some_iff,
          Except.ok.injEq, Option.some.injEq]
        constructor
        · rintro ⟨wave, round, hround, -⟩
          exact ⟨leader, round, rfl, hzero, hround⟩
        · rintro ⟨_, round, rfl, -, hround⟩
          exact ⟨round / output.wavelength, round, hround, _, by simp [waveOfRound, hzero], rfl⟩

theorem validateFinalizedCheckpointWindow_eq_ok :
    validateFinalizedCheckpointWindow hasher B output checkpoint = .ok () ↔
      ValidWindow hasher B output checkpoint := by
  have hstored : ∀ block, (if B.depth block = none then
      (Except.error PorInteractionError.unknownFinalizedBlock : Except _ Unit) else .ok ()) = .ok () ↔
      ∃ d, B.RoundOf block d := by
    intro block
    simp only [guard_eq_ok, and_true, ← Blocklace.depth_eq_some_iff]
    exact Option.ne_none_iff_exists'
  unfold validateFinalizedCheckpointWindow
  rw [check_eq_ok, mapError_eq_ok,
    validateFinalizedPrefixCheckpoint_eq_ok]
  simp only [bind_eq_ok, mapError_eq_ok, guard_eq_ok,
    Codec.forM_eq_ok, hstored]
  constructor
  · rintro ⟨hcheckpoint, wave, hwave, hsome, hall⟩
    obtain ⟨wave, rfl⟩ := Option.ne_none_iff_exists'.1 hsome
    exact ⟨hcheckpoint, finalizedWaveFromOutput_eq_some_iff.1 ⟨wave, hwave⟩, hall⟩
  · rintro ⟨hcheckpoint, hleader, hall⟩
    obtain ⟨wave, hwave⟩ := finalizedWaveFromOutput_eq_some_iff.2 hleader
    exact ⟨hcheckpoint, some wave, hwave, by simp, hall⟩

/-- **The window is read where it is valid.** -/
theorem window_eq_ok {blocks : List BlockIdentity} :
    window hasher B output checkpoint = .ok blocks ↔
      ValidWindow hasher B output checkpoint ∧ blocks = windowBlocks output checkpoint := by
  unfold window
  rw [check_eq_ok, mapError_eq_ok,
    validateFinalizedCheckpointWindow_eq_ok, Except.ok.injEq]
  exact and_congr_right fun _ => eq_comm

/-- The source of a valid checkpoint passes its own check. -/
theorem CheckpointOf.validate_ratingSource (h : CheckpointOf hasher output checkpoint) :
    checkpoint.ratingSource.validate = .ok () := by
  unfold RatingSourceCheckpoint.validate FinalizedPrefixCheckpoint.ratingSource
  have hlength := h.length
  have hlt := checkpoint.finalizedPrefixLen.isLt
  refine if_neg (not_or.2 ⟨h.round_ne, not_not.2 ?_⟩)
  dsimp only
  unfold checkedMul64
  rw [if_pos (by omega), hlength]

end CordialMiners.Reputation
