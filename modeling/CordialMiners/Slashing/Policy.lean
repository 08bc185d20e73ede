/-
# Which carriers count

`FinalizedCheckpointAuthorization` of `por/checkpoint_evidence.rs`.

A carrier counts if its message is the canonical intent of evidence that is
verified against the local blocklace, its offender is a member that is not yet
excluded, and a member with weight has published it in the window, in a signed
block no shallower than the conflicting ones.  Everything else is ignored, except
that evidence whose ancestry is not there stops the round: without it the node
cannot tell.
-/

import CordialMiners.Slashing.Carriers

namespace CordialMiners.Reputation

/-- What verification makes of a claim that it accepts. -/
def verifiedClaim (claim : CordialEquivocationEvidence) : VerifiedEquivocationEvidence :=
  ⟨claim.validator, claim.round,
    claim.blocks.insertionSort fun left right => left.identity ≤ right.identity⟩

/-- The node's own view of a checkpoint. -/
structure FinalizedCheckpointAuthorization where
  blocklace : Blocklace
  output : OrderedFinalizedOutput
  checkpoint : FinalizedPrefixCheckpoint
  membership : Bonds
  precedingReputation : ReputationList

namespace FinalizedCheckpointAuthorization

/-- `eligible_offender`. -/
def eligibleOffender (policy : FinalizedCheckpointAuthorization) (offender : NodeId) : Bool :=
  offender ∈ policy.membership.table &&
    policy.precedingReputation.entries.any fun entry =>
      entry.nodeId = offender && !entry.isExcluded

/-- The content of a conflicting block with its references as hashes and creators. -/
def strippedContent (conflicting : Block) : BlockContent :=
  { conflicting.content with
    predecessors := conflicting.content.predecessors.map BlockIdentity.consensusIdentity }

/-- Whether a conflicting block is deeper than the authorization. -/
def tooNew (policy : FinalizedCheckpointAuthorization) (authorizationDepth : ℕ)
    (conflicting : Block) : Except PorError Bool := do
  let proofDepth ← okOr (invalid "missing equivocation ancestry")
    (policy.blocklace.candidateDepth (strippedContent conflicting))
  .ok (proofDepth > authorizationDepth)

variable (env : PorEnv)

/-- One round of the loop of `is_authorized`: whether a block of the window publishes the
authorization. -/
def publishes (policy : FinalizedCheckpointAuthorization)
    (context : CheckpointEquivocationAuthorizationContext) (proof : VerifiedEquivocationEvidence)
    (expected : List Byte) (id : BlockIdentity) : Except PorError Bool := do
  let block ← okOr (invalid "missing finalized block") (policy.blocklace.get id)
  let carriers ← blockCarriers env block
  if ¬ carriers.any fun carrier => carrier.sourceFinalizedWave = 0 &&
      carrier.round = context.source.round.val && carrier.shardId = context.shardId &&
      carrier.message = expected then .ok false
  else if policy.membership.weight block.identity.creator = 0 ∨
      env.crypto.blockHash block.identity.creator block.content ≠ block.identity.contentHash ∨
      !env.crypto.verify block.identity.contentHash block.identity.creator.bytes
        block.identity.signature then .ok false
  else
    let authorizationDepth ← okOr (invalid "missing authorization ancestry")
      (policy.blocklace.depth block.identity)
    let newer ← proof.blocks.anyM (policy.tooNew authorizationDepth)
    .ok !newer

/-- `is_authorized`. -/
def isAuthorized (policy : FinalizedCheckpointAuthorization)
    (context : CheckpointEquivocationAuthorizationContext) (proof : VerifiedEquivocationEvidence) :
    Except PorError Bool :=
  if context.source ≠ policy.checkpoint.ratingSource then
    .error (invalid "invalid checkpoint authorization source or offender")
  else if !policy.eligibleOffender proof.validator then .ok false
  else do
    let expected ← checkpointEquivocationAuthorizationPayload context.shardId
      context.source.round proof
    let ids ← window env.hasher policy.blocklace policy.output policy.checkpoint
    ids.anyM (policy.publishes env context proof expected)

/-- `authorize_checkpoint`. -/
def authorizeCheckpoint (policy : FinalizedCheckpointAuthorization)
    (context : CheckpointEquivocationAuthorizationContext) (proof : VerifiedEquivocationEvidence) :
    Except PorError Unit := do
  let authorized ← policy.isAuthorized env context proof
  if authorized then .ok ()
  else .error (invalid "proof has no eligible authorization in its target checkpoint")

/-- `extract_valid_claim`: the claim of a carrier, `none` where the carrier is ignored. -/
def extractValidClaim (policy : FinalizedCheckpointAuthorization)
    (carrier : PorEquivocationAuthorization) (shardId : List Byte) :
    Except PorError (Option CordialEquivocationEvidence) :=
  if carrier.shardId ≠ shardId ∨ carrier.sourceFinalizedWave ≠ 0 ∨
      carrier.round ≠ policy.checkpoint.porRound.val then .ok none
  else
    match decodeCheckpointEquivocationAuthorizationPayload carrier.message shardId
        policy.checkpoint.porRound with
    | .error _ => .ok none
    | .ok claim =>
        if !policy.eligibleOffender claim.validator then .ok none
        else
          match verifyEquivocationEvidence env.crypto claim policy.blocklace with
          | .error .missingHistory =>
              .error (invalid "equivocation verification requires unavailable ancestry")
          | .error _ => .ok none
          | .ok proof => do
              let context := ⟨shardId, policy.checkpoint.ratingSource⟩
              let message ← checkpointEquivocationAuthorizationPayload shardId
                context.source.round proof
              if message ≠ carrier.message then .ok none
              else
                let authorized ← policy.isAuthorized env context proof
                if authorized then .ok (some claim) else .ok none

end FinalizedCheckpointAuthorization

end CordialMiners.Reputation
