/-
# The runtime of the reputation

`por/runtime.rs`, with the store of `por/epoch_record.rs`.

A runtime owns an ingress and the durable state.  It commits a reputation round in four ways:
in the wave format, where the round was closed locally or its block attested by others, and
for a checkpoint, where the weights become active at once or with a future epoch.  The epoch
is recorded in a file of its own before the round is committed.

The file of the epoch holds the record itself; its JSON text is that of the library.
-/

import CordialMiners.Durable.Runs
import CordialMiners.Output.Views
import CordialMiners.Slashing.Completed

namespace CordialMiners.Reputation

open Storage Storage.Program
open Output (cordialWavelength)

/-! ### The store of the epoch -/

/-- The errors of `PorWeightEpochRecordError` that the store can end with. -/
inductive PorWeightEpochStoreError where
  | record (error : PorWeightEpochRecordError)
  | conflictingRecord
deriving DecidableEq, Repr

/-- The files of a data directory: those of the durable state and the record of the epoch. -/
structure PorFiles where
  durable : Files
  epoch : Option PorWeightEpochRecord

/-- What a program ends with, and what it leaves. -/
def finish {α : Type} (p : Program Files Empty α) (files : Files) : α × Files :=
  match (p files).result with
  | .ok a => (a, p.final files)
  | .error e => e.elim

/-- `SnapshotError`, from an installation. -/
def ofInstallation : SnapshotError → Output.SnapshotError
  | .orderedOutputPrefixViolation => .orderedOutputPrefixViolation
  | .epochReplay error => .epochReplay error

/-- `PorRuntimeError`. -/
inductive PorRuntimeError where
  | invalidConfig (error : PorError)
  | unsupportedWavelength (expected actual : ℕ)
  | invalidShard (error : PorError)
  | finalizedOutput (error : Output.SnapshotError)
  | penaltyAuthorization (error : PorError)
  | durable (error : DurablePorStateError)
  | checkpointSource (error : PorFinalityError)
  | committedCheckpointUnavailable (round : U64)
  | checkpointTransition (error : PorError)
  | checkpointActivation (error : Output.PorWeightActivationError)
  | pendingActivation
  | futureEpoch (error : PorWeightEpochStoreError)
  | futureEpochStateMismatch
  | futureEpochAlreadyRecorded

/-- `CommittedPorRound`: the activation may have failed. -/
structure CommittedPorRound where
  applied : AppliedPorReputationRound
  activation : Except DurablePorStateError PorWeightActivationOutcome

/-- `PorRuntime`. -/
structure PorRuntime where
  ingress : Output.LiveIngress
  state : DurablePorState
  config : PorConfig
  shardId : List Byte
  wavelength : ℕ
  startupActivation : PorWeightActivationOutcome
  epochRecord : Option PorWeightEpochRecord

section Hasher

variable (hasher : List Byte → ContentHash)

namespace PorFiles

/-- `PorWeightEpochStore::restore`. -/
def restoreEpoch (files : PorFiles) :
    Except PorWeightEpochStoreError (Option PorWeightEpochRecord) :=
  match files.epoch with
  | none => .ok none
  | some record => do
      (record.validateStructure hasher).mapError .record
      .ok (some record)

/-- `PorWeightEpochStore::persist`. -/
def persistEpoch (files : PorFiles) (record : PorWeightEpochRecord) :
    Except PorWeightEpochStoreError PorFiles := do
  (record.validateStructure hasher).mapError .record
  let restored ← files.restoreEpoch hasher
  match restored with
  | some existing => if existing = record then .ok files else .error .conflictingRecord
  | none => .ok { files with epoch := some record }

/-- `PorWeightEpochStore::discard_uncommitted`. -/
def discardUncommitted (files : PorFiles) (record : PorWeightEpochRecord) :
    Except PorWeightEpochStoreError PorFiles := do
  let restored ← files.restoreEpoch hasher
  if restored = some record then .ok { files with epoch := none } else .error .conflictingRecord

end PorFiles

/-! ### The durable state -/

namespace DurablePorState

/-- `state`, which a process that has to be opened again does not say. -/
def healthyState (process : DurablePorState) : Except DurablePorStateError ReputationState :=
  if process.recoveryRequired then .error .recoveryRequired else .ok process.state

/-- `committed_checkpoint_source`. -/
def committedCheckpointSource (process : DurablePorState) :
    Except DurablePorStateError (Option RatingSourceCheckpoint) := do
  let state ← process.healthyState
  .ok (state.latestBlock.bind fun block => block.header.sourceCheckpoint)

/-- `has_unactivated_committed_round`. -/
def hasUnactivatedCommittedRound (process : DurablePorState) : Except DurablePorStateError Bool := do
  let state ← process.healthyState
  match process.activatedWeights with
  | none => .ok true
  | some record =>
      if record.reputationRound ≠ state.currentRound then .ok true
      else do
        let same ← (record.matchesStateCheckpoint hasher state).mapError fun error =>
          .activation (.projection error)
        .ok !same

end DurablePorState

/-- `verify_epoch_state`. -/
def verifyEpochState (process : DurablePorState) (record : PorWeightEpochRecord) :
    Except PorRuntimeError Unit := do
  let committed ← process.healthyState.mapError .durable
  let projected ← (committed.authorizedValidatorWeights
    (sortedValidators record.oldWeights.collect.table.keys)).mapError .checkpointTransition
  let block ← okOr .futureEpochStateMismatch committed.latestBlock
  let checkpointHash ← (reputationBlockHash hasher block).mapError .checkpointTransition
  let source ← process.committedCheckpointSource.mapError .durable
  if committed.currentRound ≠ record.porRound ∨ source ≠ some record.source.ratingSource ∨
      checkpointHash ≠ record.reputationCheckpointHash ∨
      weightMap projected ≠ DurablePorState.bondMap record.newWeights.collect then
    .error .futureEpochStateMismatch
  else .ok ()

/-- `committed_checkpoint_ready`. -/
def committedCheckpointReady (process : DurablePorState) (output : OrderedFinalizedOutput) :
    Except PorRuntimeError Bool := do
  let source ← process.committedCheckpointSource.mapError .durable
  match source with
  | none => .ok true
  | some source => do
      let found ← (finalizedPrefixCheckpoint hasher output source.round).mapError .checkpointSource
      match found with
      | none => .ok false
      | some checkpoint =>
          if checkpoint.ratingSource ≠ source then
            .error (.checkpointSource .prefixCheckpointMismatch)
          else .ok true

/-- `install_future_epoch`, with the errors of the runtime. -/
def installEpoch (ingress : Output.LiveIngress) (record : PorWeightEpochRecord)
    (checkpointHash : ReputationCommitment) : Except PorRuntimeError Output.LiveIngress :=
  (ingress.installFutureEpoch hasher record checkpointHash).mapError fun error =>
    .finalizedOutput (ofInstallation error)

/-! ### Opening -/

/-- What `open` makes of a recorded epoch: one whose round was never committed is discarded. -/
def recoverEpoch (files : PorFiles) (process : DurablePorState) (wavelength : ℕ) :
    Except PorRuntimeError (Option PorWeightEpochRecord × PorFiles) := do
  let restored ← (files.restoreEpoch hasher).mapError .futureEpoch
  match restored with
  | none => .ok (none, files)
  | some record => do
      let committed ← process.healthyState.mapError .durable
      let next ← okOr .futureEpochStateMismatch (checkedAdd64 committed.currentRound.val 1)
      if record.porRound.val = next then do
        let files ← (files.discardUncommitted hasher record).mapError .futureEpoch
        .ok (none, files)
      else if record.porRound ≠ committed.currentRound then .error .futureEpochStateMismatch
      else if record.wavelength ≠ wavelength then .error .futureEpochStateMismatch
      else do
        verifyEpochState hasher process record
        .ok (some record, files)

/-- What a startup activation makes of the weights that were restored. -/
def startupOutcome (earlier : PorWeightActivationOutcome)
    (activation : Except DurablePorStateError PorWeightActivationOutcome) :
    Except PorRuntimeError PorWeightActivationOutcome :=
  match activation with
  | .ok outcome => .ok outcome
  | .error (.activation (.missingFinalizedOutput _)) => .ok earlier
  | .error (.activation (.finalizedWaveBehind _ _)) => .ok earlier
  | .error error => .error (.durable error)

/-- The activation of a startup; after a restoration it may have to wait. -/
def activateAtStartup (files : PorFiles) (process : DurablePorState)
    (ingress : Output.LiveIngress) (earlier : Option PorWeightActivationOutcome) :
    Except PorRuntimeError (PorWeightActivationOutcome × DurablePorState × Output.LiveIngress) ×
      PorFiles :=
  let ((activation, process, ingress), durable) :=
    finish (process.activateWeights hasher ingress) files.durable
  let outcome := match earlier with
    | some outcome => startupOutcome outcome activation
    | none => activation.mapError .durable
  (outcome.map fun outcome => (outcome, process, ingress), { files with durable := durable })

/-- The startup without an epoch: the latest round is activated once its source is published. -/
def startActivated (files : PorFiles) (process : DurablePorState) (ingress : Output.LiveIngress)
    (earlier : Option PorWeightActivationOutcome) (wavelength : ℕ) :
    Except PorRuntimeError (PorWeightActivationOutcome × DurablePorState × Output.LiveIngress) ×
      PorFiles :=
  let (polled, ingress) := ingress.latestFinalizedOrderedOutput hasher wavelength
  let readiness : Except PorRuntimeError (Bool × Bool) := do
    let output ← polled.mapError .finalizedOutput
    let ready ← committedCheckpointReady hasher process output
    let unactivated ← (process.hasUnactivatedCommittedRound hasher).mapError .durable
    .ok (unactivated, ready)
  match readiness with
  | .error error => (.error error, files)
  | .ok (unactivated, ready) =>
      match unactivated, earlier, ready with
      | false, some outcome, _ => (.ok (outcome, process, ingress), files)
      | true, some outcome, false => (.ok (outcome, process, ingress), files)
      | true, none, false =>
          (.error (.committedCheckpointUnavailable process.state.currentRound), files)
      | _, _, _ => activateAtStartup hasher files process ingress earlier

/-- The startup, for a process that has been opened. -/
def startRuntime (files : PorFiles) (process : DurablePorState) (ingress : Output.LiveIngress)
    (epochRecord : Option PorWeightEpochRecord) (wavelength : ℕ) :
    Except PorRuntimeError (PorWeightActivationOutcome × DurablePorState × Output.LiveIngress) ×
      PorFiles :=
  match process.restoreActivatedWeights ingress with
  | (.error error, _, _) => (.error (.durable error), files)
  | (.ok earlier, process, ingress) =>
      match epochRecord with
      | none => startActivated hasher files process ingress earlier wavelength
      | some record =>
          let started := do
            let activation ← okOr .futureEpochStateMismatch earlier
            let ingress ← (if ingress.blocklace.dom = [] then .ok ingress
              else installEpoch hasher ingress record record.reputationCheckpointHash :
              Except PorRuntimeError Output.LiveIngress)
            .ok (activation, process, ingress)
          (started, files)

/-- The checks of the parameters. -/
def validateParameters (config : PorConfig) (shardId : List Byte) (wavelength : ℕ) :
    Except PorRuntimeError Unit :=
  if wavelength ≠ cordialWavelength then
    .error (.unsupportedWavelength cordialWavelength wavelength)
  else do
    config.validate.mapError .invalidConfig
    (validateShardId shardId).mapError .invalidShard

/-- `PorRuntime::open`. -/
def openRuntime (files : PorFiles) (initialState : ReputationState) (ingress : Output.LiveIngress)
    (config : PorConfig) (shardId : List Byte) (wavelength : ℕ) :
    Except PorRuntimeError PorRuntime × PorFiles :=
  match validateParameters config shardId wavelength with
  | .error error => (.error error, files)
  | .ok () =>
      let opened := (openDurable hasher initialState files.durable).result.mapError .durable
      let files := { files with durable := (openDurable hasher initialState).final files.durable }
      let recovered := do
        let process ← opened
        let (epochRecord, files) ← recoverEpoch hasher files process wavelength
        .ok (process, epochRecord, files)
      match recovered with
      | .error error => (.error error, files)
      | .ok (process, epochRecord, files) =>
          let (started, files) := startRuntime hasher files process ingress epochRecord wavelength
          (started.map fun (activation, process, ingress) =>
            ⟨ingress, process, config, shardId, wavelength, activation, epochRecord⟩, files)

end Hasher

/-! ### Commits -/

namespace PorRuntime

section Hasher

variable (hasher : List Byte → ContentHash)

/-- `publish_finalized_output`. -/
def publishFinalizedOutput (self : PorRuntime) :
    Except PorRuntimeError OrderedFinalizedOutput × PorRuntime :=
  let installed : Except PorRuntimeError Output.LiveIngress := match self.epochRecord with
    | some record =>
        if self.ingress.futureEpoch.isSome then .ok self.ingress
        else installEpoch hasher self.ingress record record.reputationCheckpointHash
    | none => .ok self.ingress
  match installed with
  | .error error => (.error error, self)
  | .ok ingress =>
      let (polled, ingress) := ingress.latestFinalizedOrderedOutput hasher self.wavelength
      let published : Except PorRuntimeError OrderedFinalizedOutput := do
        let output ← polled.mapError .finalizedOutput
        let ready ← committedCheckpointReady hasher self.state output
        if !ready then .error (.committedCheckpointUnavailable self.state.state.currentRound)
        else .ok output
      (published, { self with ingress := ingress })

/-- A round of the durable state, and then the activation of its weights. -/
def commitAndActivate (self : PorRuntime) (files : PorFiles)
    (apply : Program Files Empty
      (Except DurablePorStateError AppliedPorReputationRound × DurablePorState)) :
    Except DurablePorStateError CommittedPorRound × PorRuntime × PorFiles :=
  let ((applied, process), durable) := finish apply files.durable
  match applied with
  | .error error =>
      (.error error, { self with state := process }, { files with durable := durable })
  | .ok applied =>
      let ((activation, process, ingress), durable) :=
        finish (process.activateWeights hasher self.ingress) durable
      (.ok ⟨applied, activation⟩, { self with state := process, ingress := ingress },
        { files with durable := durable })

/-- `commit_completed_round`. -/
def commitCompletedRound (self : PorRuntime) (files : PorFiles)
    (completed : CompletedPorRatingRound) :
    Except DurablePorStateError CommittedPorRound × PorRuntime × PorFiles :=
  self.commitAndActivate hasher files
    (self.state.applyCompletedRound hasher completed self.config self.shardId)

/-- `commit_attested_checkpoint`. -/
def commitAttestedCheckpoint {crypto : RatingCrypto} (self : PorRuntime) (files : PorFiles)
    (attested : AttestedPorCheckpoint crypto) (completed : CompletedPorRatingRound) :
    Except DurablePorStateError CommittedPorRound × PorRuntime × PorFiles :=
  self.commitAndActivate hasher files
    (self.state.applyAttestedCheckpoint hasher attested completed self.config self.shardId)

end Hasher

variable (env : PorEnv)

/-- `authorize_checkpoint_equivocations`. -/
def authorizeCheckpointEquivocations (self : PorRuntime)
    (completed : CompletedCheckpointRatingRound) :
    Except PorRuntimeError CompletedCheckpointRatingRound := do
  let state ← self.state.healthyState.mapError .durable
  (completed.validatePrecedingState state).mapError .penaltyAuthorization
  let output ← okOr (.committedCheckpointUnavailable completed.source.round)
    self.ingress.sharedOrderedOutput.latest
  (completed.withFinalizedEquivocations env self.ingress.blocklace output self.ingress.bonds
    self.shardId).mapError .penaltyAuthorization

/-- What `commit_completed_checkpoint_round` checks before it commits. -/
def auditCheckpoint (self : PorRuntime) (output : OrderedFinalizedOutput)
    (completed : CompletedCheckpointRatingRound) :
    Except PorRuntimeError CompletedCheckpointRatingRound := do
  (validateFinalizedPrefixCheckpoint env.hasher output completed.checkpoint).mapError
    .checkpointSource
  let completed ← self.authorizeCheckpointEquivocations env completed
  let state ← self.state.healthyState.mapError .durable
  let (candidate, _) ← (stageCompletedCheckpointRound env.hasher completed state self.config
    self.shardId).mapError .checkpointTransition
  (self.ingress.validatePorWeights env.hasher candidate).mapError .checkpointActivation
  .ok completed

/-- `commit_completed_checkpoint_round`. -/
def commitCompletedCheckpointRound (self : PorRuntime) (files : PorFiles)
    (completed : CompletedCheckpointRatingRound) :
    Except PorRuntimeError CommittedPorRound × PorRuntime × PorFiles :=
  if self.epochRecord.isSome then (.error .futureEpochAlreadyRecorded, self, files)
  else
    match self.state.hasUnactivatedCommittedRound env.hasher with
    | .error error => (.error (.durable error), self, files)
    | .ok true => (.error .pendingActivation, self, files)
    | .ok false =>
        let (published, self) := self.publishFinalizedOutput env.hasher
        match published.bind fun output => self.auditCheckpoint env output completed with
        | .error error => (.error error, self, files)
        | .ok completed =>
            let (committed, self, files) := self.commitAndActivate env.hasher files
              (self.state.applyCompletedCheckpointRound env.hasher completed self.config
                self.shardId)
            (committed.mapError .durable, self, files)

/-- The epoch that `commit_completed_checkpoint_round_with_epoch` prepares, and the hash of the
block it belongs to. -/
def prepareEpoch (self : PorRuntime) (output : OrderedFinalizedOutput)
    (completed : CompletedCheckpointRatingRound) (policy : PorWeightEpochPolicy) :
    Except PorRuntimeError (PorWeightEpochRecord × ReputationCommitment) := do
  (validateFinalizedPrefixCheckpoint env.hasher output completed.checkpoint).mapError
    .checkpointSource
  let state ← self.state.healthyState.mapError .durable
  let (candidate, _) ← (stageCompletedCheckpointRound env.hasher completed state self.config
    self.shardId).mapError .checkpointTransition
  let projected ← (Output.projectedWeights candidate self.ingress.bonds).mapError
    .checkpointTransition
  let block ← okOr .futureEpochStateMismatch candidate.latestBlock
  let checkpointHash ← (reputationBlockHash env.hasher block).mapError .checkpointTransition
  let record ← (PorWeightEpochRecord.prepare env.hasher self.ingress.toEpoch completed.checkpoint
    checkpointHash projected policy).mapError fun error => .futureEpoch (.record error)
  .ok (record, checkpointHash)

/-- The rest of `commit_completed_checkpoint_round_with_epoch`, for a record that is stored. -/
def commitEpoch (self : PorRuntime) (files : PorFiles)
    (completed : CompletedCheckpointRatingRound) (record : PorWeightEpochRecord)
    (checkpointHash : ReputationCommitment) :
    Except PorRuntimeError AppliedPorReputationRound × PorRuntime × PorFiles :=
  let ((applied, process), durable) := finish
    (self.state.applyCompletedCheckpointRound env.hasher completed self.config self.shardId)
    files.durable
  let files := { files with durable := durable }
  match applied with
  | .error error => (.error (.durable error), { self with state := process }, files)
  | .ok applied =>
      let self := { self with state := process, epochRecord := some record }
      let installed := do
        verifyEpochState env.hasher process record
        installEpoch env.hasher self.ingress record checkpointHash
      match installed with
      | .error error => (.error error, self, files)
      | .ok ingress => (.ok applied, { self with ingress := ingress }, files)

/-- `commit_completed_checkpoint_round_with_epoch`. -/
def commitCompletedCheckpointRoundWithEpoch (self : PorRuntime) (files : PorFiles)
    (completed : CompletedCheckpointRatingRound) (policy : PorWeightEpochPolicy) :
    Except PorRuntimeError AppliedPorReputationRound × PorRuntime × PorFiles :=
  if self.epochRecord.isSome then (.error .futureEpochAlreadyRecorded, self, files)
  else
    let unactivated := if self.ingress.futureEpoch.isSome then .ok false
      else self.state.hasUnactivatedCommittedRound env.hasher
    match unactivated with
    | .error error => (.error (.durable error), self, files)
    | .ok true => (.error .pendingActivation, self, files)
    | .ok false =>
        let (published, self) := self.publishFinalizedOutput env.hasher
        match published.bind fun output => self.prepareEpoch env output completed policy with
        | .error error => (.error error, self, files)
        | .ok (record, checkpointHash) =>
            match files.persistEpoch env.hasher record with
            | .error error => (.error (.futureEpoch error), self, files)
            | .ok files => self.commitEpoch env files completed record checkpointHash

/-- `retry_weight_activation`. -/
def retryWeightActivation (self : PorRuntime) (files : PorFiles) :
    Except PorRuntimeError PorWeightActivationOutcome × PorRuntime × PorFiles :=
  let (published, self) := self.publishFinalizedOutput env.hasher
  match published with
  | .error error => (.error error, self, files)
  | .ok _ =>
      if self.epochRecord.isSome then (.ok .alreadyActive, self, files)
      else
        let ((activation, process, ingress), durable) :=
          finish (self.state.activateWeights env.hasher self.ingress) files.durable
        (activation.mapError .durable, { self with state := process, ingress := ingress },
          { files with durable := durable })

end PorRuntime

end CordialMiners.Reputation
