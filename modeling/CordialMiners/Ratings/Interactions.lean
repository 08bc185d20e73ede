/-
# Interactions and their admission

`crates/cordial-por/src/interactions.rs` and `por/interactions.rs` of the adapter.

The blocks that a wave or the window of a checkpoint finalizes are evidence of block
production: one interaction for each producer but the rater, with the least of its
blocks as reference.  Interactions with active recipients are admitted against the
preceding reputation state, and scored.

What a rater owes is then one rating for each recipient: no recipient is named twice,
and every reference is a content hash (`checkpointInteractions_spec`,
`finalizedInteractions_spec`).
-/

import CordialMiners.Runtime.Transition

namespace CordialMiners.Reputation

open Codec (bind_eq_ok check_eq_ok guard_eq_ok
  mapError_eq_ok mapM_eq_ok_map_iff)

/-! ### Evidence -/

/-- `InteractionKind`. -/
inductive InteractionKind where
  | blockProduction
  | cordialReferences
  | executionResult
  | deployInclusion
deriving DecidableEq, Repr

/-- `InteractionEvidence`. -/
structure InteractionEvidence where
  finalizedWave : U64
  round : U64
  kind : InteractionKind
  rater : NodeId
  recipient : NodeId
  evidenceRef : List Byte
deriving DecidableEq, Repr

/-- `CheckpointInteractionEvidence`. -/
structure CheckpointInteractionEvidence where
  source : RatingSourceCheckpoint
  kind : InteractionKind
  rater : NodeId
  recipient : NodeId
  evidenceRef : List Byte
deriving DecidableEq, Repr

/-- `AdmittedInteraction`. -/
structure AdmittedInteraction where
  evidence : InteractionEvidence
deriving DecidableEq, Repr

/-- `AdmittedCheckpointInteraction`. -/
structure AdmittedCheckpointInteraction where
  evidence : CheckpointInteractionEvidence
deriving DecidableEq, Repr

/-! ### Admission -/

namespace ReputationState

/-- `state_contains`. -/
def contains (state : ReputationState) (node : NodeId) : Bool := (state.entry node).isSome

/-- `is_active_recipient`. -/
def isActiveRecipient (state : ReputationState) (recipient : NodeId) : Bool :=
  state.contains recipient && !state.isEjected recipient

/-- `validate_interaction_rater`. -/
def validateInteractionRater (state : ReputationState) (round : U64) (rater : NodeId) :
    Except PorError Unit :=
  if checkedAdd64 state.currentRound.val 1 ≠ some round.val then
    .error .invalidInteractionStateRound
  else if !state.contains rater then .error .unknownInteractionRater
  else if state.isEjected rater then .error .ejectedInteractionRater
  else .ok ()

/-- `validate_interaction_participants`. -/
def validateInteractionParticipants (state : ReputationState) (round : U64)
    (rater recipient : NodeId) (evidenceRef : List Byte) : Except PorError Unit :=
  if checkedAdd64 state.currentRound.val 1 ≠ some round.val then
    .error .invalidInteractionStateRound
  else if rater = recipient then .error .selfInteraction
  else if evidenceRef = [] then .error .missingInteractionReference
  else do
    state.validateInteractionRater round rater
    if !state.contains recipient then .error .unknownInteractionRecipient
    else if state.isEjected recipient then .error .ejectedInteractionRecipient
    else .ok ()

end ReputationState

/-- `admit_interaction_evidence`. -/
def admitInteractionEvidence (evidence : InteractionEvidence) (state : ReputationState) :
    Except PorError AdmittedInteraction := do
  let expectedRound ← ratingRoundFromFinalizedWave evidence.finalizedWave
  if evidence.round ≠ expectedRound then .error .invalidInteractionRound
  else
    state.validateInteractionParticipants evidence.round evidence.rater evidence.recipient
      evidence.evidenceRef
    .ok ⟨evidence⟩

/-- `admit_checkpoint_interaction_evidence`. -/
def admitCheckpointInteractionEvidence (evidence : CheckpointInteractionEvidence)
    (state : ReputationState) : Except PorError AdmittedCheckpointInteraction := do
  evidence.source.validate
  state.validateInteractionParticipants evidence.source.round evidence.rater evidence.recipient
    evidence.evidenceRef
  .ok ⟨evidence⟩

/-- `validate_checkpoint_rater`. -/
def validateCheckpointRater (source : RatingSourceCheckpoint) (rater : NodeId)
    (state : ReputationState) : Except PorError Unit := do
  source.validate
  state.validateInteractionRater source.round rater

/-! ### Scores -/

/-- `score_interaction_kind`: the maximum for every kind. -/
def scoreInteractionKind (_ : InteractionKind) (config : PorConfig) : Except PorError U64 :=
  if config.minimumRating > config.maximumRating then
    .error (.invalidConfiguration "minimum rating must not exceed maximum rating")
  else .ok config.maximumRating

/-- `score_admitted_interaction`. -/
def scoreAdmittedInteraction (interaction : AdmittedInteraction) (config : PorConfig) :
    Except PorError U64 :=
  scoreInteractionKind interaction.evidence.kind config

/-- `score_admitted_checkpoint_interaction`. -/
def scoreAdmittedCheckpointInteraction (interaction : AdmittedCheckpointInteraction)
    (config : PorConfig) : Except PorError U64 :=
  scoreInteractionKind interaction.evidence.kind config

/-- `build_rating_from_interaction`. -/
def buildRatingFromInteraction (interaction : AdmittedInteraction) (signature : List Byte)
    (config : PorConfig) : Except PorError RatingRecord := do
  let score ← scoreAdmittedInteraction interaction config
  let rating : RatingRecord :=
    ⟨interaction.evidence.round, interaction.evidence.rater, interaction.evidence.recipient, score,
      signature, some interaction.evidence.evidenceRef⟩
  validateRating rating config
  .ok rating

/-! ### Extraction -/

/-- `PorInteractionError`, with the errors of a window in one constructor. -/
inductive InteractionError where
  | window (error : PorInteractionError)
  | invalidWavelength
  | unknownFinalLeader
  | finalizedRoundMismatch
  | ratingRound (error : PorError)
  | admission (error : PorError)
deriving DecidableEq, Repr

/-- One block for each producer but the rater: the least one. -/
def canonicalBlocks (rater : NodeId) (blocks : List BlockIdentity) :
    OrderedMap NodeId BlockIdentity :=
  (blocks.filter fun block => block.creator ≠ rater).foldl
    (fun found block => found.upsert block.creator block fun canonical =>
      if block < canonical then block else canonical) .empty

/-- `extract_checkpoint_block_production_evidence`. -/
def extractCheckpointBlockProductionEvidence (hasher : List Byte → ContentHash) (B : Blocklace)
    (output : OrderedFinalizedOutput) (checkpoint : FinalizedPrefixCheckpoint) (rater : NodeId) :
    Except InteractionError (List CheckpointInteractionEvidence) := do
  (validateFinalizedCheckpointWindow hasher B output checkpoint).mapError .window
  .ok ((canonicalBlocks rater (windowBlocks output checkpoint)).entries.map fun entry =>
    ⟨checkpoint.ratingSource, .blockProduction, rater, entry.1,
      contentHashBytes entry.2.contentHash⟩)

/-- `admit_checkpoint_block_production_interactions`. -/
def admitCheckpointBlockProductionInteractions (hasher : List Byte → ContentHash) (B : Blocklace)
    (output : OrderedFinalizedOutput) (checkpoint : FinalizedPrefixCheckpoint) (rater : NodeId)
    (state : ReputationState) : Except InteractionError (List AdmittedCheckpointInteraction) := do
  let extracted ← extractCheckpointBlockProductionEvidence hasher B output checkpoint rater
  (extracted.filter fun evidence => state.isActiveRecipient evidence.recipient).mapM fun evidence =>
    (admitCheckpointInteractionEvidence evidence state).mapError .admission

/-- `validate_finalized_rating_round`. -/
def validateFinalizedRatingRound (B : Blocklace) (output : OrderedFinalizedOutput)
    (opened : FinalizedRatingRound) : Except InteractionError Unit := do
  let finalLeader ← okOr (.window .missingFinalLeader) output.anchor
  if output.wavelength = 0 then .error .invalidWavelength
  else
    let leaderRound ← okOr .unknownFinalLeader (B.depth finalLeader)
    let finalizedWave ← okOr .invalidWavelength (waveOfRound leaderRound output.wavelength)
    let expectedRatingRound ← okOr (.ratingRound .ratingRoundOverflow)
      (checkedAdd64 finalizedWave 1)
    if finalizedWave ≠ opened.finalizedWave.val ∨ expectedRatingRound ≠ opened.ratingRound.val then
      .error .finalizedRoundMismatch
    else .ok ()

/-- The blocks of the finalized wave. -/
def finalizedWaveBlocks (B : Blocklace) (output : OrderedFinalizedOutput) (wave : U64) :
    Except InteractionError (List BlockIdentity) := do
  let blocks ← output.blocks.mapM fun block => do
    let blockRound ← okOr (.window .unknownFinalizedBlock) (B.depth block)
    let blockWave ← okOr .invalidWavelength (waveOfRound blockRound output.wavelength)
    .ok (if blockWave ≠ wave.val then none else some block)
  .ok blocks.reduceOption

/-- `extract_block_production_evidence`. -/
def extractBlockProductionEvidence (B : Blocklace) (output : OrderedFinalizedOutput)
    (opened : FinalizedRatingRound) (rater : NodeId) :
    Except InteractionError (List InteractionEvidence) := do
  validateFinalizedRatingRound B output opened
  let blocks ← finalizedWaveBlocks B output opened.finalizedWave
  .ok ((canonicalBlocks rater blocks).entries.map fun entry =>
    ⟨opened.finalizedWave, opened.ratingRound, .blockProduction, rater, entry.1,
      contentHashBytes entry.2.contentHash⟩)

/-- `admit_finalized_block_production_interactions`. -/
def admitFinalizedBlockProductionInteractions (B : Blocklace) (output : OrderedFinalizedOutput)
    (opened : FinalizedRatingRound) (rater : NodeId) (state : ReputationState) :
    Except InteractionError (List AdmittedInteraction) := do
  let extracted ← extractBlockProductionEvidence B output opened rater
  (extracted.filter fun evidence => state.isActiveRecipient evidence.recipient).mapM fun evidence =>
    (admitInteractionEvidence evidence state).mapError .admission

/-! ### What is admitted -/

theorem admitInteractionEvidence_eq_ok {evidence : InteractionEvidence}
    {state : ReputationState} {admitted : AdmittedInteraction} :
    admitInteractionEvidence evidence state = .ok admitted ↔
      ratingRoundFromFinalizedWave evidence.finalizedWave = .ok evidence.round ∧
        state.validateInteractionParticipants evidence.round evidence.rater evidence.recipient
          evidence.evidenceRef = .ok () ∧ admitted = ⟨evidence⟩ := by
  unfold admitInteractionEvidence
  simp only [bind_eq_ok, guard_eq_ok, not_not, Except.ok.injEq]
  constructor
  · rintro ⟨expected, hexpected, rfl, ⟨⟩, hparticipants, rfl⟩
    exact ⟨hexpected, hparticipants, rfl⟩
  · rintro ⟨hexpected, hparticipants, rfl⟩
    exact ⟨_, hexpected, rfl, (), hparticipants, rfl⟩

theorem admitCheckpointInteractionEvidence_eq_ok {evidence : CheckpointInteractionEvidence}
    {state : ReputationState} {admitted : AdmittedCheckpointInteraction} :
    admitCheckpointInteractionEvidence evidence state = .ok admitted ↔
      evidence.source.validate = .ok () ∧
        state.validateInteractionParticipants evidence.source.round evidence.rater
          evidence.recipient evidence.evidenceRef = .ok () ∧ admitted = ⟨evidence⟩ := by
  unfold admitCheckpointInteractionEvidence
  rw [check_eq_ok, check_eq_ok, Except.ok.injEq,
    eq_comm (b := admitted)]

/-- Admitted participants include an admitted rater, who is not the recipient. -/
theorem ReputationState.validateInteractionParticipants_ok {state : ReputationState} {round : U64}
    {rater recipient : NodeId} {evidenceRef : List Byte}
    (h : state.validateInteractionParticipants round rater recipient evidenceRef = .ok ()) :
    state.validateInteractionRater round rater = .ok () ∧ rater ≠ recipient := by
  unfold validateInteractionParticipants at h
  simp only [guard_eq_ok, check_eq_ok] at h
  exact ⟨h.2.2.2.1, h.2.1⟩

/-- The producers of the canonical blocks, in order. -/
theorem nodup_canonicalBlocks (rater : NodeId) (blocks : List BlockIdentity) :
    ((canonicalBlocks rater blocks).entries.map Prod.fst).Nodup :=
  (Keyed.ascending_iff_map.1 (canonicalBlocks rater blocks).ascending).imp fun h => h.ne

section Checkpoint

variable {hasher : List Byte → ContentHash} {B : Blocklace} {output : OrderedFinalizedOutput}
  {checkpoint : FinalizedPrefixCheckpoint} {rater : NodeId} {state : ReputationState}

/-- **What a rater owes for a checkpoint.** -/
theorem checkpointInteractions_spec {admitted : List AdmittedCheckpointInteraction}
    (h : admitCheckpointBlockProductionInteractions hasher B output checkpoint rater state =
      .ok admitted) :
    ValidWindow hasher B output checkpoint ∧
      (admitted.map fun interaction => interaction.evidence.recipient).Nodup ∧
      ∀ interaction ∈ admitted, interaction.evidence.source = checkpoint.ratingSource ∧
        interaction.evidence.kind = .blockProduction ∧ interaction.evidence.rater = rater ∧
        interaction.evidence.evidenceRef.length = 32 ∧
        state.validateInteractionRater checkpoint.porRound rater = .ok () ∧
        rater ≠ interaction.evidence.recipient := by
  unfold admitCheckpointBlockProductionInteractions extractCheckpointBlockProductionEvidence at h
  obtain ⟨extracted, hextracted, h⟩ := bind_eq_ok.1 h
  rw [check_eq_ok, mapError_eq_ok,
    validateFinalizedCheckpointWindow_eq_ok, Except.ok.injEq] at hextracted
  obtain ⟨hwindow, rfl⟩ := hextracted
  obtain ⟨rfl, hadmitted⟩ := (mapM_eq_ok_map_iff (g := AdmittedCheckpointInteraction.mk)
    fun evidence admitted h => by
      rw [mapError_eq_ok, admitCheckpointInteractionEvidence_eq_ok] at h
      exact h.2.2).1 h
  refine ⟨hwindow, ?_, ?_⟩
  · have hnodup := nodup_canonicalBlocks rater (windowBlocks output checkpoint)
    rw [List.map_map]
    refine List.Nodup.sublist (List.Sublist.map _ List.filter_sublist) ?_
    rwa [List.map_map]
  · intro interaction hinteraction
    obtain ⟨evidence, hevidence, rfl⟩ := List.mem_map.1 hinteraction
    obtain ⟨entry, -, hentry⟩ := List.mem_map.1 (List.mem_filter.1 hevidence).1
    have hvalid := hadmitted evidence hevidence
    rw [mapError_eq_ok, admitCheckpointInteractionEvidence_eq_ok] at hvalid
    obtain ⟨hrater, hne⟩ := ReputationState.validateInteractionParticipants_ok hvalid.2.1
    subst hentry
    exact ⟨rfl, rfl, rfl, length_contentHashBytes _, hrater, hne⟩

end Checkpoint

section Wave

variable {B : Blocklace} {output : OrderedFinalizedOutput} {opened : FinalizedRatingRound}
  {rater : NodeId} {state : ReputationState}

theorem validateFinalizedRatingRound_ok (h : validateFinalizedRatingRound B output opened = .ok ()) :
    checkedAdd64 opened.finalizedWave.val 1 = some opened.ratingRound.val := by
  unfold validateFinalizedRatingRound at h
  simp only [bind_eq_ok, guard_eq_ok, okOr_eq_ok, not_or, not_not] at h
  obtain ⟨-, -, -, -, -, wave, -, round, hround, ⟨rfl, rfl⟩, -⟩ := h
  exact hround

/-- **What a rater owes for a finalized wave.** -/
theorem finalizedInteractions_spec {admitted : List AdmittedInteraction}
    (h : admitFinalizedBlockProductionInteractions B output opened rater state = .ok admitted) :
    validateFinalizedRatingRound B output opened = .ok () ∧
      (admitted.map fun interaction => interaction.evidence.recipient).Nodup ∧
      ∀ interaction ∈ admitted, interaction.evidence.round = opened.ratingRound ∧
        interaction.evidence.kind = .blockProduction ∧ interaction.evidence.rater = rater ∧
        interaction.evidence.evidenceRef.length = 32 ∧
        rater ≠ interaction.evidence.recipient := by
  unfold admitFinalizedBlockProductionInteractions extractBlockProductionEvidence at h
  obtain ⟨extracted, hextracted, h⟩ := bind_eq_ok.1 h
  rw [check_eq_ok, bind_eq_ok] at hextracted
  obtain ⟨hround, blocks, -, hextracted⟩ := hextracted
  obtain rfl := Except.ok.inj hextracted
  obtain ⟨rfl, hadmitted⟩ := (mapM_eq_ok_map_iff (g := AdmittedInteraction.mk)
    fun evidence admitted h => by
      rw [mapError_eq_ok, admitInteractionEvidence_eq_ok] at h
      exact h.2.2).1 h
  refine ⟨hround, ?_, ?_⟩
  · have hnodup := nodup_canonicalBlocks rater blocks
    rw [List.map_map]
    refine List.Nodup.sublist (List.Sublist.map _ List.filter_sublist) ?_
    rwa [List.map_map]
  · intro interaction hinteraction
    obtain ⟨evidence, hevidence, rfl⟩ := List.mem_map.1 hinteraction
    obtain ⟨entry, -, hentry⟩ := List.mem_map.1 (List.mem_filter.1 hevidence).1
    have hvalid := hadmitted evidence hevidence
    rw [mapError_eq_ok, admitInteractionEvidence_eq_ok] at hvalid
    obtain ⟨-, hne⟩ := ReputationState.validateInteractionParticipants_ok hvalid.2.1
    subst hentry
    exact ⟨rfl, rfl, rfl, length_contentHashBytes _, hne⟩

end Wave

end CordialMiners.Reputation
