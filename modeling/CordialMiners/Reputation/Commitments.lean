/-
# Commitments and authorizations

`commitments.rs` and `evidence.rs`, with the payloads of `ratings.rs` and
`validate_reputation_block` of `block.rs`.

Every commitment is the hash of a domain followed by fields of fixed width or
behind their length.  The hash function is a parameter, `hasher`.  A penalty is
authorized by a private record of the context it was admitted for and of the hash
of its payload; changing a public field of the penalty changes that payload.
-/

import CordialMiners.Reputation.Calculation
import CordialMiners.Evidence.Codec

namespace CordialMiners.Reputation

open Codec (beBytes bind_eq_ok check_eq_ok)

/-! ### Limits -/

/-- `MAX_REPUTATION_BLOCK_ENTRIES`. -/
def maxBlockEntries : ℕ := 1000000

/-- `MAX_REPUTATION_BLOCK_NODE_ID_LEN`. -/
def maxNodeIdLen : ℕ := 4 * 1024

/-- `MAX_REPUTATION_BLOCK_SHARD_ID_LEN`. -/
def maxShardIdLen : ℕ := 256

/-- `MAX_REPUTATION_BLOCK_WIRE_LEN`. -/
def maxBlockWireLen : ℕ := 64 * 1024 * 1024

/-- `MAX_PENALTY_EVIDENCE_LEN`. -/
def maxPenaltyEvidenceLen : ℕ := 64 * 1024

/-! ### Signed ratings -/

/-- `RATING_SIGNING_DOMAIN`. -/
def ratingSigningDomain : List Byte := asciiBytes "cordial-por:rating:v1"

/-- `CHECKPOINT_RATING_SIGNING_DOMAIN`. -/
def checkpointRatingSigningDomain : List Byte := asciiBytes "cordial-por:rating:v2"

/-- Rater, recipient, score and interaction reference. -/
def ratingFields (rating : RatingRecord) : List Byte :=
  putBytes rating.rater.bytes ++ putBytes rating.recipient.bytes ++ beBytes 8 rating.score.val ++
    match rating.interactionRef with
    | some interactionRef => 1 :: putBytes interactionRef
    | none => [0]

/-- `canonical_rating_payload`. -/
def canonicalRatingPayload (rating : RatingRecord) : List Byte :=
  ratingSigningDomain ++ beBytes 8 rating.round.val ++ ratingFields rating

/-- Length and hash of the finalized prefix. -/
def sourceFields (source : RatingSourceCheckpoint) : List Byte :=
  beBytes 8 source.finalizedPrefixLen.val ++ contentHashBytes source.finalizedPrefixHash

/-- `canonical_checkpoint_rating_payload`. -/
def canonicalCheckpointRatingPayload (rating : RatingRecord) (source : RatingSourceCheckpoint) :
    Except PorError (List Byte) :=
  if rating.round ≠ source.round then .error .invalidRatingRound
  else do
    source.validate
    .ok (checkpointRatingSigningDomain ++ beBytes 8 source.round.val ++ sourceFields source ++
      ratingFields rating)

/-- `rating_round_from_finalized_wave`. -/
def ratingRoundFromFinalizedWave (wave : U64) : Except PorError U64 :=
  okOr .ratingRoundOverflow (tryU64 (wave.val + 1))

/-! ### Authorizations -/

/-- `POR_EQUIVOCATION_AUTHORIZATION_DOMAIN`. -/
def equivocationAuthorizationDomain : List Byte :=
  asciiBytes "cordial-por:equivocation-authorization:v1"

/-- `POR_CHECKPOINT_EQUIVOCATION_AUTHORIZATION_DOMAIN`. -/
def checkpointEquivocationAuthorizationDomain : List Byte :=
  asciiBytes "cordial-por:equivocation-authorization:v2"

/-- `authorization_payload`. -/
def authorizationPayload (context : EquivocationAuthorizationContext) (offender : NodeId)
    (evidence : List Byte) : Except PorError (List Byte) :=
  let invalid : PorError :=
    .invalidPenaltyEvents "invalid equivocation authorization context or proof size"
  if context.shardId = [] ∨ context.shardId.length > maxShardIdLen then .error invalid
  else do
    let round ← ratingRoundFromFinalizedWave context.sourceFinalizedWave
    if round ≠ context.round ∨ evidence = [] ∨ evidence.length > maxPenaltyEvidenceLen then
      .error invalid
    else
      .ok (equivocationAuthorizationDomain ++ putBytes context.shardId ++
        beBytes 8 context.sourceFinalizedWave.val ++ beBytes 8 context.round.val ++
        putBytes offender.bytes ++ putBytes evidence)

/-- `checkpoint_intent_payload`: what the producer of a carrier signs. -/
def checkpointIntentPayload (shardId : List Byte) (round : U64) (offender : NodeId)
    (evidence : List Byte) : Except PorError (List Byte) :=
  if shardId = [] ∨ shardId.length > maxShardIdLen ∨ round = 0 ∨
      checkedMul64 round finalizedBlocksPerCheckpoint = none ∨ evidence = [] ∨
      evidence.length > maxPenaltyEvidenceLen then
    .error (.invalidPenaltyEvents "invalid checkpoint authorization intent")
  else
    .ok (checkpointEquivocationAuthorizationDomain ++ putBytes shardId ++ beBytes 8 round.val ++
      putBytes offender.bytes ++ putBytes evidence)

/-- `checkpoint_capability_payload`: the intent together with the prefix it was
finalized in. -/
def checkpointCapabilityPayload (context : CheckpointEquivocationAuthorizationContext)
    (offender : NodeId) (evidence : List Byte) : Except PorError (List Byte) := do
  context.source.validate
  let bytes ← checkpointIntentPayload context.shardId context.source.round offender evidence
  .ok (bytes ++ sourceFields context.source)

namespace EquivocationPenalty

variable (hasher : List Byte → ContentHash)

/-- `authorize_checkpoint`. -/
def authorizeCheckpoint (proof : VerifiedEquivocationEvidence)
    (context : CheckpointEquivocationAuthorizationContext)
    (policy : CheckpointEquivocationAuthorizationContext → VerifiedEquivocationEvidence →
      Except PorError Unit) : Except PorError EquivocationPenalty := do
  let payload ← checkpointCapabilityPayload context proof.validator proof.canonicalBytes
  policy context proof
  .ok ⟨proof.validator, proof.canonicalBytes,
    some ⟨.checkpoint context, hasher payload, proof.round⟩⟩

/-- `proof_round`. -/
def proofRound (penalty : EquivocationPenalty) : Except PorError ℕ :=
  okOr (.invalidPenaltyEvents "equivocation has no verified authorization")
    (penalty.authorization.map EquivocationAuthorization.proofRound)

/-- The round and the payload an authorization stands for. -/
def authorized (penalty : EquivocationPenalty) (context : AuthorizationContext) :
    Except PorError (U64 × List Byte) :=
  match context with
  | .wave context => do
      let payload ← authorizationPayload context penalty.offender penalty.evidence
      .ok (context.round, payload)
  | .checkpoint context => do
      let payload ← checkpointCapabilityPayload context penalty.offender penalty.evidence
      .ok (context.source.round, payload)

/-- `validate_authorization`. -/
def validateAuthorization (penalty : EquivocationPenalty) (round : U64) : Except PorError Unit := do
  let authorization ← okOr
    (.invalidPenaltyEvents "equivocation has no verified authorization") penalty.authorization
  let (authorizedRound, payload) ← penalty.authorized authorization.context
  if authorizedRound ≠ round ∨ authorization.binding ≠ hasher payload then
    .error (.invalidPenaltyEvents "equivocation proof, offender or authorized round was changed")
  else .ok ()

/-- `validate_context`. -/
def validateContext (penalty : EquivocationPenalty) (shardId : List Byte)
    (sourceFinalizedWave : U64) : Except PorError Unit :=
  match penalty.authorization with
  | none => .error (.invalidPenaltyEvents "equivocation has no verified authorization")
  | some ⟨.checkpoint _, _, _⟩ =>
      .error (.invalidPenaltyEvents "checkpoint penalty used in wave transition")
  | some ⟨.wave authorized, _, _⟩ =>
      if authorized.shardId ≠ shardId ∨ authorized.sourceFinalizedWave ≠ sourceFinalizedWave then
        .error (.invalidPenaltyEvents
          "equivocation authorization belongs to another shard or finalized wave")
      else .ok ()

/-- One event of `validate_checkpoint_penalty_context`. -/
def validateCheckpointContext (penalty : EquivocationPenalty) (shardId : List Byte)
    (source : RatingSourceCheckpoint) : Except PorError Unit :=
  match penalty.authorization with
  | none => .error (.invalidPenaltyEvents "missing checkpoint authorization")
  | some ⟨.checkpoint approved, _, _⟩ =>
      if approved.shardId = shardId ∧ approved.source = source then .ok ()
      else .error (.invalidPenaltyEvents "penalty belongs to another authorization source")
  | some ⟨.wave _, _, _⟩ =>
      .error (.invalidPenaltyEvents "penalty belongs to another authorization source")

end EquivocationPenalty

/-- `validate_penalty_context`. -/
def validatePenaltyContext (penalties : Option ReputationPenaltyEvents) (shardId : List Byte)
    (sourceFinalizedWave : U64) : Except PorError Unit :=
  match penalties with
  | none => .ok ()
  | some events => events.equivocations.forM (·.validateContext shardId sourceFinalizedWave)

/-- `validate_checkpoint_penalty_context`. -/
def validateCheckpointPenaltyContext (penalties : Option ReputationPenaltyEvents)
    (shardId : List Byte) (source : RatingSourceCheckpoint) : Except PorError Unit :=
  match penalties with
  | none => .ok ()
  | some events => events.equivocations.forM (·.validateCheckpointContext shardId source)

section Hasher

variable (hasher : List Byte → ContentHash)

/-! ### Configuration and ratings -/

/-- `POR_CONFIG_COMMITMENT_DOMAIN`. -/
def configCommitmentDomain : List Byte := asciiBytes "cordial-por:config-commitment:v2"

/-- The tag of a policy. -/
def MissingEntryPolicy.tag : MissingEntryPolicy → Byte
  | .reject => 0
  | .carryForward => 1
  | .neutral => 2

/-- `config_commitment`. -/
def configCommitment (config : PorConfig) : ReputationCommitment :=
  hasher (configCommitmentDomain ++ beBytes 8 config.scale.val ++
    beBytes 8 config.initialReputation.val ++ beBytes 8 config.liquidRankAlpha.val ++
    beBytes 8 config.minimumRating.val ++ beBytes 8 config.maximumRating.val ++
    [config.missingEntryPolicy.tag] ++ beBytes 8 config.correlationThreshold.val ++
    beBytes 8 config.baseSlashPenalty.val ++ beBytes 8 config.inactivityDecayGamma.val)

/-- `POR_RATING_BATCH_COMMITMENT_DOMAIN`. -/
def ratingBatchCommitmentDomain : List Byte :=
  asciiBytes "cordial-por:rating-batch-commitment:v1"

/-- `POR_CHECKPOINT_RATING_BATCH_COMMITMENT_DOMAIN`. -/
def checkpointRatingBatchCommitmentDomain : List Byte :=
  asciiBytes "cordial-por:rating-batch-commitment:v2"

/-- `rating_batch_commitment`. -/
def ratingBatchCommitment (batch : RatingBatch) (config : PorConfig) :
    Except PorError ReputationCommitment := do
  let canonical ← buildRatingBatch batch.round batch.ratings config
  .ok (hasher (ratingBatchCommitmentDomain ++ beBytes 8 canonical.round.val ++
    beBytes 8 canonical.ratings.length ++ canonical.ratings.flatMap fun rating =>
      putBytes (canonicalRatingPayload rating) ++ putBytes rating.signature))

/-- `checkpoint_rating_batch_commitment`. -/
def checkpointRatingBatchCommitment (batch : RatingBatch) (source : RatingSourceCheckpoint)
    (config : PorConfig) : Except PorError ReputationCommitment := do
  let canonical ← buildRatingBatch batch.round batch.ratings config
  if canonical.round ≠ source.round then .error .invalidRatingRound
  else
    source.validate
    let ratings ← canonical.ratings.mapM fun rating => do
      let payload ← canonicalCheckpointRatingPayload rating source
      .ok (putBytes payload ++ putBytes rating.signature)
    .ok (hasher (checkpointRatingBatchCommitmentDomain ++ beBytes 8 canonical.round.val ++
      sourceFields source ++ beBytes 8 canonical.ratings.length ++ ratings.flatten))

/-! ### Penalties -/

/-- `POR_PENALTY_EVENTS_COMMITMENT_DOMAIN`. -/
def penaltyEventsCommitmentDomain : List Byte :=
  asciiBytes "cordial-por:penalty-events-commitment:v1"

/-- The offenders seen and the bytes written so far. -/
structure PenaltyPayload where
  seen : List NodeId
  payload : List Byte
deriving DecidableEq, Repr

/-- Append the fields of one event and check the size. -/
def PenaltyPayload.put (state : PenaltyPayload) (offender : NodeId) (bytes : List Byte) :
    Except PorError PenaltyPayload :=
  if (state.payload ++ bytes).length > maxBlockWireLen then
    .error (.invalidPenaltyEvents "penalty payload too large")
  else .ok ⟨offender :: state.seen, state.payload ++ bytes⟩

/-- One step of the loop over the equivocations. -/
def PenaltyPayload.putEquivocation (round : U64) (state : PenaltyPayload)
    (event : EquivocationPenalty) : Except PorError PenaltyPayload := do
  event.validateAuthorization hasher round
  if event.offender ∈ state.seen ∨ event.offender.bytes.length > maxNodeIdLen ∨
      event.evidence = [] ∨ event.evidence.length > maxPenaltyEvidenceLen then
    .error (.invalidPenaltyEvents
      "duplicate offender or invalid evidence/identifier size")
  else state.put event.offender (putBytes event.offender.bytes ++ putBytes event.evidence)

/-- One step of the loop over the missed rounds. -/
def PenaltyPayload.putInactivity (state : PenaltyPayload) (event : InactivityPenalty) :
    Except PorError PenaltyPayload :=
  if event.offender ∈ state.seen ∨ event.offender.bytes.length > maxNodeIdLen ∨
      event.missedRounds ≠ 1 then
    .error (.invalidPenaltyEvents
      "inactivity requires a unique offender and one missed round")
  else state.put event.offender
    (putBytes event.offender.bytes ++ beBytes 8 event.missedRounds.val)

/-- The commitment to events sorted by offender. -/
def commitPenalties (round : U64) (equivocations : List EquivocationPenalty)
    (inactivity : List InactivityPenalty) : Except PorError ReputationCommitment := do
  let start : PenaltyPayload := ⟨[], penaltyEventsCommitmentDomain ++ beBytes 8 round.val ++
    beBytes 8 equivocations.length⟩
  let state ← equivocations.foldlM (PenaltyPayload.putEquivocation hasher round) start
  let state ← inactivity.foldlM PenaltyPayload.putInactivity
    { state with payload := state.payload ++ beBytes 8 inactivity.length }
  if state.payload.length > maxBlockWireLen then
    .error (.invalidPenaltyEvents "penalty payload too large")
  else .ok (hasher state.payload)

/-- `penalty_events_commitment`. -/
def penaltyEventsCommitment (round : U64) (events : Option ReputationPenaltyEvents) :
    Except PorError ReputationCommitment :=
  match events with
  | none => commitPenalties hasher round [] []
  | some events =>
      if events.round ≠ round then
        .error (.invalidPenaltyEvents "event round must match the block")
      else if events.equivocations.length + events.inactivity.length > maxBlockEntries then
        .error (.invalidPenaltyEvents "too many penalty events")
      else
        commitPenalties hasher round
          (events.equivocations.insertionSort fun a b => a.offender ≤ b.offender)
          (events.inactivity.insertionSort fun a b => a.offender ≤ b.offender)

/-! ### Lists and blocks -/

/-- `POR_REPUTATION_LIST_COMMITMENT_DOMAIN`. -/
def reputationListCommitmentDomain : List Byte :=
  asciiBytes "cordial-por:reputation-list-commitment:v2"

/-- The fields of an entry: `0` or `1` for the exclusion. -/
def entryLayout (entry : ReputationEntry) : List Byte :=
  putBytes entry.nodeId.bytes ++ beBytes 8 entry.reputation.val ++
    [if entry.isExcluded then 1 else 0] ++ beBytes 8 entry.retainedReputation.val

/-- Round, count and entries of a list. -/
def listLayout (list : ReputationList) : List Byte :=
  beBytes 8 list.round.val ++ beBytes 8 list.entries.length ++ list.entries.flatMap entryLayout

/-- `reputation_list_commitment`. -/
def reputationListCommitment (list : ReputationList) : Except PorError ReputationCommitment := do
  validateReputationEntries list.entries
  .ok (hasher (reputationListCommitmentDomain ++ listLayout list))

/-- `REPUTATION_BLOCK_VERSION`. -/
def reputationBlockVersion : U16 := 2

/-- `CHECKPOINT_REPUTATION_BLOCK_VERSION`. -/
def checkpointReputationBlockVersion : U16 := 3

/-- `validate_shard_id`. -/
def validateShardId (shardId : List Byte) : Except PorError Unit :=
  if shardId = [] then .error .missingReputationBlockShardId
  else if shardId.length > maxShardIdLen then .error .reputationBlockShardIdTooLong
  else .ok ()

/-- The source fields a header carries in its version. -/
def ReputationBlockHeader.validateSource (header : ReputationBlockHeader) : Except PorError Unit :=
  if header.version = reputationBlockVersion then
    if header.sourceCheckpoint.isSome ∨
        ratingRoundFromFinalizedWave header.sourceFinalizedWave ≠ .ok header.round then
      .error .invalidReputationBlockSourceWave
    else .ok ()
  else if header.version = checkpointReputationBlockVersion then
    match header.sourceCheckpoint with
    | none => .error .invalidReputationBlockSourceCheckpoint
    | some source =>
        if header.sourceFinalizedWave ≠ 0 ∨ source.round ≠ header.round then
          .error .invalidReputationBlockSourceCheckpoint
        else source.validate.mapError fun _ => .invalidReputationBlockSourceCheckpoint
  else .error (.unsupportedReputationBlockVersion header.version)

/-- `validate_reputation_block`. -/
def validateReputationBlock (block : ReputationBlock) : Except PorError Unit :=
  if block.header.version ≠ reputationBlockVersion ∧
      block.header.version ≠ checkpointReputationBlockVersion then
    .error (.unsupportedReputationBlockVersion block.header.version)
  else do
    validateShardId block.header.shardId
    block.header.validateSource
    if block.header.round ≠ block.reputationList.round then .error .invalidReputationBlockRound
    else
      let expectedRoot ← reputationListCommitment hasher block.reputationList
      if block.header.reputationRoot ≠ expectedRoot then .error .reputationBlockRootMismatch
      else .ok ()

/-- `POR_REPUTATION_BLOCK_COMMITMENT_DOMAIN`, and that of checkpoint blocks. -/
def reputationBlockCommitmentDomain (version : U16) : List Byte :=
  if version = reputationBlockVersion then asciiBytes "cordial-por:reputation-block-commitment:v2"
  else asciiBytes "cordial-por:reputation-block-commitment:v3"

/-- The source of a checkpoint block; a wave block has none. -/
def sourceLayout : Option RatingSourceCheckpoint → List Byte
  | some source => sourceFields source
  | none => []

/-- The hash of the previous block, behind `1`, or `0`. -/
def previousLayout : Option ReputationCommitment → List Byte
  | some previous => 1 :: contentHashBytes previous
  | none => [0]

/-- A header after its version. -/
def headerLayout (header : ReputationBlockHeader) : List Byte :=
  putBytes header.shardId ++ beBytes 8 header.sourceFinalizedWave.val ++
    beBytes 8 header.round.val ++ sourceLayout header.sourceCheckpoint ++
    previousLayout header.previousReputationHash ++
    contentHashBytes header.configHash ++ contentHashBytes header.ratingsHash ++
    contentHashBytes header.penaltiesHash ++ contentHashBytes header.reputationRoot

/-- `reputation_block_hash`. -/
def reputationBlockHash (block : ReputationBlock) : Except PorError ReputationCommitment := do
  validateReputationBlock hasher block
  .ok (hasher (reputationBlockCommitmentDomain block.header.version ++
    beBytes 2 block.header.version.val ++ headerLayout block.header))

end Hasher

/-! ### What valid blocks are -/

variable {hasher : List Byte → ContentHash} {block : ReputationBlock} {list : ReputationList}

/-- The shard identifier has a length the format allows. -/
def ShardIdValid (shardId : List Byte) : Prop := shardId ≠ [] ∧ shardId.length ≤ maxShardIdLen

theorem validateShardId_eq_ok {shardId : List Byte} :
    validateShardId shardId = .ok () ↔ ShardIdValid shardId := by
  unfold validateShardId ShardIdValid
  split_ifs with h₁ h₂
  · simp [h₁]
  · simp only [false_iff, not_and, not_le]
    exact fun _ => h₂
  · simpa [h₁] using h₂

/-- The root of a list: what a valid list hashes to. -/
def listRoot (hasher : List Byte → ContentHash) (list : ReputationList) : ReputationCommitment :=
  hasher (reputationListCommitmentDomain ++ listLayout list)

theorem reputationListCommitment_eq_ok {root : ReputationCommitment} :
    reputationListCommitment hasher list = .ok root ↔
      validateReputationEntries list.entries = .ok () ∧ root = listRoot hasher list := by
  unfold reputationListCommitment
  rw [check_eq_ok]
  refine and_congr_right fun _ => ?_
  rw [Except.ok.injEq]
  exact eq_comm

/-- **What a structurally valid block is.** -/
theorem validateReputationBlock_eq_ok :
    validateReputationBlock hasher block = .ok () ↔
      ShardIdValid block.header.shardId ∧ block.header.validateSource = .ok () ∧
        block.header.round = block.reputationList.round ∧
        validateReputationEntries block.reputationList.entries = .ok () ∧
        block.header.reputationRoot = listRoot hasher block.reputationList := by
  unfold validateReputationBlock
  by_cases hversion : block.header.version ≠ reputationBlockVersion ∧
      block.header.version ≠ checkpointReputationBlockVersion
  · rw [if_pos hversion]
    refine iff_of_false (by simp) ?_
    rintro ⟨-, hsource, -⟩
    unfold ReputationBlockHeader.validateSource at hsource
    rw [if_neg hversion.1, if_neg hversion.2] at hsource
    exact absurd hsource (by simp)
  · rw [if_neg hversion]
    rw [check_eq_ok, check_eq_ok, validateShardId_eq_ok]
    refine and_congr_right fun _ => and_congr_right fun _ => ?_
    by_cases hround : block.header.round = block.reputationList.round
    · rw [if_neg (not_not.2 hround), and_iff_right hround, bind_eq_ok]
      constructor
      · rintro ⟨root, hroot, h⟩
        obtain ⟨hvalid, rfl⟩ := reputationListCommitment_eq_ok.1 hroot
        split_ifs at h with hne
        exact ⟨hvalid, not_not.1 hne⟩
      · rintro ⟨hvalid, hroot⟩
        refine ⟨_, reputationListCommitment_eq_ok.2 ⟨hvalid, rfl⟩, ?_⟩
        rw [if_neg (not_not.2 hroot)]
    · rw [if_pos hround]
      simp [hround]

end CordialMiners.Reputation
