/-
# The durable state

`por/persistence.rs`, with the store of `por/activation.rs`.

A round is committed by two files: the snapshot of the state is replaced, then the block
that led to it is appended to the history.  The record of the activated weights is a file of
its own.  A crash in between leaves the snapshot one block ahead of the history, which
opening makes up for.

`Recoverable` says what a crash can leave, and opening reads exactly that
(`openDurable_spec`).  A commit leaves what is recovered to the state before it or to the
staged one (`commitStaged_spec`), an activation leaves the record before it or the new one
(`activateWeights_spec`).
-/

import CordialMiners.Durable.History
import CordialMiners.Output.Activation
import CordialMiners.Ratings.Attestation
import CordialMiners.WeightEpoch.ActivationRecord

namespace CordialMiners.Reputation

open Codec (bind_eq_ok check_eq_ok guard_eq_ok
  map_eq_ok mapError_eq_ok)
open Storage Storage.Program
open Output (orderedValidators)

/-- `PorStateStoreError`. -/
inductive PorStateStoreError where
  | io (error : FileError)
  | invalidSnapshot (error : PorError)

/-- `PorWeightActivationOutcome`. -/
inductive PorWeightActivationOutcome where
  | activated
  | restored
  | alreadyActive
deriving DecidableEq, Repr

/-- `DurablePorStateError`; the store of the activation record also fails with the files, and the
ingress with validators that are not the recorded ones. -/
inductive DurablePorStateError where
  | persistence (error : PorStateStoreError)
  | history (error : PorReputationBlockHistoryError)
  | transition (error : PorError)
  | activationPersistence (error : FileError ⊕ PorWeightActivationStoreError)
  | activation (error : Output.PorWeightActivationError)
  | activatedValidatorSetMismatch (configured recorded : ℕ)
  | activationAheadOfState (activatedRound committedRound : U64)
  | activationCheckpointMismatch (round : U64)
  | activationProjectionMismatch (round : U64)
  | missingActivatedWeights (committedRound : U64)
  | recoveryRequired

/-- `DurablePorState`: what a process knows.  The stores themselves are paths. -/
structure DurablePorState where
  history : RecoveredHistory
  state : ReputationState
  activatedWeights : Option PorWeightActivationRecord
  processActivation : Option PorWeightActivationRecord
  recoveryRequired : Bool

section Hasher

variable (hasher : List Byte → ContentHash)

/-! ### The stores -/

/-- `PorStateStore::persist`. -/
def persistState (state : ReputationState) : Program Files PorStateStoreError Unit := do
  let encoded ← done ((encodeReputationStateSnapshot hasher state).mapError .invalidSnapshot)
  (FileSystem.replaceFile stateFile.temporary stateFile.target encoded).mapError .io

/-- `PorStateStore::restore`. -/
def restoreState (files : Files) : Except PorStateStoreError (Option ReputationState) :=
  match files.read stateFile.target with
  | none => .ok none
  | some file =>
      let encoded := file.take (maxStateSnapshotLen + 1)
      if encoded.length > maxStateSnapshotLen then
        .error (.invalidSnapshot .reputationStateSnapshotTooLarge)
      else some <$> (decodeReputationStateSnapshot hasher encoded).mapError .invalidSnapshot

/-- `PorWeightActivationStore::persist`, step by step. -/
def persistActivation (record : PorWeightActivationRecord) :
    Program Files (FileError ⊕ PorWeightActivationStoreError) Unit :=
  let encoded := encodeActivationRecord hasher record
  if encoded.length > maxActivationRecordLen then
    done (.error (.inr (.recordTooLarge encoded.length maxActivationRecordLen)))
  else
    (FileSystem.replaceFile activationFile.temporary activationFile.target encoded).mapError .inl

/-- `PorWeightActivationStore::restore`. -/
def restoreActivation (files : Files) :
    Except PorWeightActivationStoreError (Option PorWeightActivationRecord) :=
  PorWeightActivationStore.restore hasher ⟨files.read activationFile.target⟩

/-! ### Opening -/

/-- `matches_state_checkpoint`. -/
def PorWeightActivationRecord.matchesStateCheckpoint (record : PorWeightActivationRecord)
    (state : ReputationState) : Except PorError Bool :=
  if record.reputationRound ≠ state.currentRound then .ok false
  else do
    let checkpoint ← latestCheckpoint hasher state
    .ok (record.checkpointHash = checkpoint.map Prod.fst ∧
      record.sourceFinalizedWave = checkpoint.map Prod.snd)

/-- `validate_activation_record`. -/
def validateActivationRecord (activated : Option PorWeightActivationRecord)
    (state : ReputationState) : Except DurablePorStateError Unit :=
  match activated with
  | none => .ok ()
  | some activated =>
      if activated.reputationRound > state.currentRound then
        .error (.activationAheadOfState activated.reputationRound state.currentRound)
      else if activated.reputationRound = state.currentRound then do
        let same ← (activated.matchesStateCheckpoint hasher state).mapError fun error =>
          .activation (.projection error)
        if !same then .error (.activationCheckpointMismatch state.currentRound)
        else do
          let projected ← (state.authorizedValidatorWeights activated.weights.keys).mapError
            fun error => .activation (.projection error)
          if weightMap projected ≠ activated.weights then
            .error (.activationProjectionMismatch state.currentRound)
          else .ok ()
      else .ok ()

/-- The state that `open` goes on with: what was committed, or else the initial state, which is
persisted. -/
def restoreOrPersist (initialState : ReputationState) :
    Program Files DurablePorStateError ReputationState := do
  let restored ← (inspect (restoreState hasher)).mapError .persistence
  match restored with
  | some restored => pure restored
  | none => do
      (persistState hasher initialState).mapError .persistence
      pure initialState

/-- The rest of `open`: the history is reconciled with the state, the record is checked. -/
def openStores (state : ReputationState) : Program Files DurablePorStateError DurablePorState := do
  let history ← (openHistory hasher).mapError .history
  let (reconciled, history) ← (history.reconcileStateTip hasher state.latestBlock).mapError
    Empty.elim
  done (reconciled.mapError .history)
  let activated ← (inspect (restoreActivation hasher)).mapError fun error =>
    .activationPersistence (.inr error)
  done (validateActivationRecord hasher activated state)
  pure ⟨history, state, activated, none, false⟩

/-- `DurablePorState::open`. -/
def openDurable (initialState : ReputationState) :
    Program Files DurablePorStateError DurablePorState := do
  let state ← restoreOrPersist hasher initialState
  openStores hasher state

/-! ### Commits -/

namespace DurablePorState

/-- `commit_staged`. -/
def commitStaged (self : DurablePorState) (staged : ReputationState)
    (applied : AppliedPorReputationRound) :
    Program Files Empty (Except DurablePorStateError AppliedPorReputationRound × DurablePorState) := do
  match ← (persistState hasher staged).attempt with
  | .error error => pure (.error (.persistence error), { self with recoveryRequired := true })
  | .ok () =>
      match ← self.history.append hasher applied.block with
      | (.error error, history) =>
          pure (.error (.history error),
            { self with history := history, recoveryRequired := true })
      | (.ok _, history) => pure (.ok applied, { self with history := history, state := staged })

/-- A transition that is staged and committed. -/
def applyTransition (self : DurablePorState)
    (transition : ReputationState → Except PorError (ReputationState × AppliedPorReputationRound)) :
    Program Files Empty (Except DurablePorStateError AppliedPorReputationRound × DurablePorState) :=
  if self.recoveryRequired then pure (.error .recoveryRequired, self)
  else
    match transition self.state with
    | .error error => pure (.error (.transition error), self)
    | .ok (staged, applied) => self.commitStaged hasher staged applied

/-- `apply_completed_round`. -/
def applyCompletedRound (self : DurablePorState) (completed : CompletedPorRatingRound)
    (config : PorConfig) (shardId : List Byte) :
    Program Files Empty (Except DurablePorStateError AppliedPorReputationRound × DurablePorState) :=
  self.applyTransition hasher fun state =>
    stageCompletedReputationRound hasher completed state config shardId

/-- `apply_completed_checkpoint_round`. -/
def applyCompletedCheckpointRound (self : DurablePorState)
    (completed : CompletedCheckpointRatingRound) (config : PorConfig) (shardId : List Byte) :
    Program Files Empty (Except DurablePorStateError AppliedPorReputationRound × DurablePorState) :=
  self.applyTransition hasher fun state =>
    stageCompletedCheckpointRound hasher completed state config shardId

/-- `apply_attested_checkpoint`. -/
def applyAttestedCheckpoint {crypto : RatingCrypto} (self : DurablePorState)
    (attested : AttestedPorCheckpoint crypto) (completed : CompletedPorRatingRound)
    (config : PorConfig) (shardId : List Byte) :
    Program Files Empty (Except DurablePorStateError AppliedPorReputationRound × DurablePorState) :=
  self.applyTransition hasher fun state =>
    stageAttestedCheckpoint hasher completed state config shardId attested.block

/-! ### Activation -/

/-- The map of a bond table. -/
def bondMap (bonds : Bonds) : OrderedMap NodeId U64 :=
  OrderedMap.empty.insertAll Sigma.fst Sigma.snd bonds.table.entries

/-- What an activation would record: the record of the projected weights. -/
def desiredActivation (self : DurablePorState) (ingress : Output.LiveIngress) :
    Except DurablePorStateError PorWeightActivationRecord := do
  let projected ← (self.state.authorizedValidatorWeights (orderedValidators ingress.bonds)).mapError
    fun error => .activation (.projection error)
  if self.state.currentRound ≠ 0 ∧ self.state.latestBlock = none then
    .error (.activation (.missingReputationCheckpoint self.state.currentRound))
  else do
    let desired ← (PorWeightActivationRecord.fromStateAndWeights hasher self.state
      (weightMap projected)).mapError fun error => .activation (.projection error)
    validateActivationRecord hasher self.activatedWeights self.state
    .ok desired

/-- `activate_weights`. -/
def activateWeights (self : DurablePorState) (ingress : Output.LiveIngress) :
    Program Files Empty
      (Except DurablePorStateError PorWeightActivationOutcome × DurablePorState × Output.LiveIngress) :=
  if self.recoveryRequired then pure (.error .recoveryRequired, self, ingress)
  else
    match self.desiredActivation hasher ingress with
    | .error error => pure (.error error, self, ingress)
    | .ok desired =>
        if self.processActivation = some desired ∧ bondMap ingress.bonds = desired.weights then
          pure (.ok .alreadyActive, self, ingress)
        else
          match ingress.applyPorWeights hasher self.state with
          | (.error error, ingress) => pure (.error (.activation error), self, ingress)
          | (.ok (), ingress) =>
              if self.activatedWeights = some desired then
                pure (.ok .restored, { self with processActivation := some desired }, ingress)
              else do
                match ← (persistActivation hasher desired).attempt with
                | .error error =>
                    pure (.error (.activationPersistence error),
                      { self with recoveryRequired := true }, ingress)
                | .ok () =>
                    pure (.ok .activated, { self with
                      activatedWeights := some desired, processActivation := some desired }, ingress)

end DurablePorState

end Hasher

/-- `restore_activated_por_weights`. -/
def restoreActivatedPorWeights (ingress : Output.LiveIngress) (weights : OrderedMap NodeId U64) :
    Except DurablePorStateError Output.LiveIngress :=
  if ingress.futureEpoch.isSome then .error (.activation .futureEpochAlreadyActive)
  else if h : ingress.bonds.table.entries.length = weights.entries.length ∧
      ∀ validator ∈ ingress.bonds.table.keys, validator ∈ weights.keys then
    .ok (ingress.withWeights
      { table := ⟨weights.entries.map fun entry => ⟨entry.1, entry.2⟩, by
          unfold List.NodupKeys List.keys
          rw [List.map_map]
          exact List.Pairwise.map _ (fun _ _ h => ne_of_lt h) weights.ascending⟩
        entries_lt := by
          rw [List.length_map, ← h.1]
          exact ingress.bonds.entries_lt })
  else .error (.activatedValidatorSetMismatch ingress.bonds.table.entries.length
    weights.entries.length)

/-- `restore_activated_weights`. -/
def DurablePorState.restoreActivatedWeights (self : DurablePorState) (ingress : Output.LiveIngress) :
    Except DurablePorStateError (Option PorWeightActivationOutcome) × DurablePorState ×
      Output.LiveIngress :=
  if self.recoveryRequired then (.error .recoveryRequired, self, ingress)
  else
    match self.activatedWeights with
    | none =>
        if self.state.currentRound ≠ 0 then
          (.error (.missingActivatedWeights self.state.currentRound), self, ingress)
        else (.ok none, self, ingress)
    | some activated =>
        match restoreActivatedPorWeights ingress activated.weights with
        | .error error => (.error error, self, ingress)
        | .ok ingress =>
            (.ok (some .restored), { self with processActivation := some activated }, ingress)

/-! ### What is on disk -/

variable {hasher : List Byte → ContentHash} {files t : Files} {s staged : ReputationState}
  {activated : Option PorWeightActivationRecord} {block tip : ReputationBlock} {bytes : List Byte}
  {touched : Set (List Byte)}

/-- The snapshot is that of the state. -/
def SnapshotStored (hasher : List Byte → ContentHash) (files : Files) (s : ReputationState) : Prop :=
  ∃ bytes, encodeReputationStateSnapshot hasher s = .ok bytes ∧
    files.read stateFile.target = some bytes

/-- The record is there as it was written, and within the limits of the reader. -/
structure RecordStored (hasher : List Byte → ContentHash) (files : Files)
    (activated : Option PorWeightActivationRecord) : Prop where
  stored : files.read activationFile.target = activated.map (encodeActivationRecord hasher)
  fits : ∀ record, activated = some record →
    record.Fits hasher ∧ (encodeActivationRecord hasher record).length ≤ maxActivationRecordLen

/-- The temporary names of the replaced files stand for files of their own. -/
structure Replaceable (files : Files) : Prop where
  state : files.Sole stateFile.temporary
  activation : files.Sole activationFile.temporary

/-- **What a crash can leave**: the snapshot of a state, a history that reaches its latest
block, and a record that goes with it. -/
structure Recoverable (hasher : List Byte → ContentHash) (files : Files) (s : ReputationState)
    (activated : Option PorWeightActivationRecord) : Prop where
  snapshot : SnapshotStored hasher files s
  history : ∃ chain, Retained hasher files chain ∧ Reaches hasher chain s.latestBlock
  record : RecordStored hasher files activated
  valid : validateActivationRecord hasher activated s = .ok ()
  replaceable : Replaceable files

/-- **What the files of a process are**: they say what it knows. -/
structure Stored (hasher : List Byte → ContentHash) (files : Files) (process : DurablePorState)
    (chain : List ReputationBlock) : Prop where
  snapshot : SnapshotStored hasher files process.state
  tidy : Tidy hasher files chain
  last : chain.getLast? = process.state.latestBlock
  history : process.history = ⟨process.state.latestBlock, chain.length, false⟩
  record : RecordStored hasher files process.activatedWeights
  valid : validateActivationRecord hasher process.activatedWeights process.state = .ok ()
  replaceable : Replaceable files
  healthy : process.recoveryRequired = false

theorem Stored.recoverable {self : DurablePorState} {chain : List ReputationBlock}
    (h : Stored hasher files self chain) :
    Recoverable hasher files self.state self.activatedWeights :=
  ⟨h.snapshot, ⟨chain, h.tidy.toRetained, .inl h.last⟩, h.record, h.valid, h.replaceable⟩

theorem notMem_historyPaths {path : List Byte} (h : path ∈ replacedNames) : path ∉ historyPaths := by
  rintro ⟨name, rfl⟩
  exact append_notMem_replacedNames h

theorem SnapshotStored.keeps (h : SnapshotStored hasher files s) (hkeeps : files.Keeps t touched)
    (htouched : stateFile.target ∉ touched) : SnapshotStored hasher t s := by
  obtain ⟨bytes, hencode, hread⟩ := h
  exact ⟨bytes, hencode, (hkeeps.same _ htouched).trans hread⟩

theorem RecordStored.keeps (h : RecordStored hasher files activated) (hkeeps : files.Keeps t touched)
    (htouched : activationFile.target ∉ touched) : RecordStored hasher t activated :=
  ⟨(hkeeps.same _ htouched).trans h.stored, h.fits⟩

/-- A name without a file shares none. -/
theorem sole_of_read_none {name : List Byte} (h : files.read name = none) : files.Sole name := by
  intro other file hname
  rw [FileSystem.read_eq_none_iff.1 h] at hname
  exact absurd hname (by simp)

/-! ### What is read back -/

theorem length_of_encodeSnapshot (h : encodeReputationStateSnapshot hasher s = .ok bytes) :
    bytes.length ≤ maxStateSnapshotLen := by
  obtain ⟨_, hopen, -⟩ := bind_eq_ok.1 (decodeSnapshot_eq_ok_iff.2 h)
  exact not_lt.1 (guard_eq_ok.1 hopen).1

/-- **A stored state is restored.** -/
theorem SnapshotStored.restoreState (h : SnapshotStored hasher files s) :
    restoreState hasher files = .ok (some s) := by
  obtain ⟨bytes, hencode, hread⟩ := h
  have hlength := length_of_encodeSnapshot hencode
  unfold Reputation.restoreState
  rw [hread]
  dsimp only
  rw [List.take_of_length_le (by omega), if_neg (by omega)]
  exact map_eq_ok.2 ⟨s, mapError_eq_ok.2 (decodeSnapshot_eq_ok_iff.2 hencode),
    rfl⟩

/-- **A stored record is restored.** -/
theorem RecordStored.restoreActivation (h : RecordStored hasher files activated) :
    restoreActivation hasher files = .ok activated := by
  unfold Reputation.restoreActivation PorWeightActivationStore.restore
  rw [h.stored]
  cases activated with
  | none => rfl
  | some record =>
      obtain ⟨hfits, hlength⟩ := h.fits record rfl
      dsimp only [Option.map_some]
      rw [List.take_of_length_le (by omega), if_neg (by omega)]
      exact map_eq_ok.2 ⟨record, decodeActivationRecord_eq_ok.2 ⟨hfits, rfl⟩, rfl⟩

/-- The latest block of a state with a snapshot has an encoding of its own. -/
theorem exists_encodeReputationBlock (h : encodeReputationStateSnapshot hasher s = .ok bytes)
    (hlatest : s.latestBlock = some block) :
    ∃ encoded, encodeReputationBlock hasher block = .ok encoded := by
  obtain ⟨hinvariants, hfits, -⟩ := encodeSnapshot_eq_ok.1 h
  obtain ⟨hvalid, -⟩ :=
    (ReputationState.validateSnapshotInvariants_eq_ok.1 hinvariants).2.2 block hlatest
  have hsize := hfits.size
  have hmax : maxStateSnapshotLen - fixedEnvelopeLen = maxBlockPayloadLen := rfl
  rw [hlatest, latestLayout, List.length_append, List.length_cons, hmax] at hsize
  have hpayload := encodePayload_eq_ok.2 ⟨hvalid, hfits.latest block hlatest, by omega, rfl⟩
  exact ⟨_, bind_eq_ok.2 ⟨_, hpayload, rfl⟩⟩

/-- A staged block follows the latest one. -/
theorem ReputationState.Staged.follows (h : s.Staged hasher block) (hlatest : s.latestBlock = some tip) :
    Follows hasher tip block := by
  have hprevious := h.previous
  rw [hlatest] at hprevious
  obtain ⟨hshard, hprevious⟩ := guard_eq_ok.1 hprevious
  obtain ⟨hround, hprevious⟩ := guard_eq_ok.1 hprevious
  obtain ⟨hash, hhash, heq⟩ := map_eq_ok.1 hprevious
  exact ⟨not_not.1 hround, (not_not.1 hshard).symm, hash, hhash, heq.symm⟩

/-! ### Replacing a file -/

/-- **Persisting a state**: until the snapshot is replaced only its temporary name changes. -/
theorem persistState_spec {C Q : Files → Prop}
    (hencode : encodeReputationStateSnapshot hasher s = .ok bytes) (hfiles : Replaceable files)
    (hC : ∀ t, files.Keeps t {stateFile.temporary} → Replaceable t → C t)
    (hdone : ∀ t, files.Keeps t {stateFile.temporary, stateFile.target} → Replaceable t →
      SnapshotStored hasher t s → C t ∧ Q t) :
    (persistState hasher s).Spec files C (Returns fun _ => Q) := by
  have hactivation : activationFile.temporary ∉
      ({stateFile.temporary, stateFile.target} : Set (List Byte)) := by
    rintro (h | h)
    · exact absurd h (by decide)
    · exact absurd h (by decide)
  have hactivation' : activationFile.temporary ∉ ({stateFile.temporary} : Set (List Byte)) :=
    fun h => hactivation (.inl h)
  have hencoded : (done ((encodeReputationStateSnapshot hasher s).mapError
      PorStateStoreError.invalidSnapshot) : Program Files _ _).Spec files C
      (Returns fun encoded t => encoded = bytes ∧ t = files) :=
    Spec.inspect_returns (hC files .rfl hfiles) (mapError_eq_ok.2 hencode) ⟨rfl, rfl⟩
  refine Spec.bind_returns hencoded fun encoded t _ ht => ?_
  obtain ⟨rfl, rfl⟩ := ht
  refine Spec.mapError_returns (FileSystem.replaceFile_spec hfiles.state (by decide) ?_ ?_)
  · intro u hkeeps hsole
    exact hC u hkeeps ⟨hsole, hkeeps.sole _ hactivation' hfiles.activation⟩
  · intro u hkeeps hnone hread
    exact hdone u hkeeps ⟨sole_of_read_none hnone, hkeeps.sole _ hactivation hfiles.activation⟩
      ⟨encoded, hencode, hread⟩

/-- Nothing is written for a state without a snapshot. -/
theorem persistState_error {error : PorError} {C : Files → Prop}
    (hencode : encodeReputationStateSnapshot hasher s = .error error) (hfiles : C files) :
    (persistState hasher s).Spec files C fun r t => r = .error (.invalidSnapshot error) ∧ t = files := by
  have hencoded : (done ((encodeReputationStateSnapshot hasher s).mapError
      PorStateStoreError.invalidSnapshot) : Program Files _ _).Spec files C
      fun r t => r = .error (.invalidSnapshot error) ∧ t = files :=
    Spec.inspect hfiles ⟨by rw [hencode]; rfl, rfl⟩
  refine Spec.bind hencoded (fun a t _ ht => absurd ht.1 (by simp)) fun e t _ ht => ?_
  obtain ⟨heq, rfl⟩ := ht
  obtain rfl := Except.error.inj heq
  exact ⟨rfl, rfl⟩

/-- **Persisting a record**: until the file is replaced only its temporary name changes. -/
theorem persistActivation_spec {C Q : Files → Prop} {record : PorWeightActivationRecord}
    (hlength : (encodeActivationRecord hasher record).length ≤ maxActivationRecordLen)
    (hfits : record.Fits hasher) (hfiles : Replaceable files)
    (hC : ∀ t, files.Keeps t {activationFile.temporary} → Replaceable t → C t)
    (hdone : ∀ t, files.Keeps t {activationFile.temporary, activationFile.target} → Replaceable t →
      RecordStored hasher t (some record) → C t ∧ Q t) :
    (persistActivation hasher record).Spec files C (Returns fun _ => Q) := by
  have hstate : stateFile.temporary ∉
      ({activationFile.temporary, activationFile.target} : Set (List Byte)) := by
    rintro (h | h)
    · exact absurd h (by decide)
    · exact absurd h (by decide)
  have hstate' : stateFile.temporary ∉ ({activationFile.temporary} : Set (List Byte)) :=
    fun h => hstate (.inl h)
  unfold persistActivation
  rw [if_neg (by omega)]
  refine Spec.mapError_returns (FileSystem.replaceFile_spec hfiles.activation (by decide) ?_ ?_)
  · intro u hkeeps hsole
    exact hC u hkeeps ⟨hkeeps.sole _ hstate' hfiles.state, hsole⟩
  · intro u hkeeps hnone hread
    refine hdone u hkeeps ⟨hkeeps.sole _ hstate hfiles.state, sole_of_read_none hnone⟩ ⟨hread, ?_⟩
    intro other hother
    obtain rfl := Option.some.inj hother
    exact ⟨hfits, hlength⟩

/-! ### Opening -/

/-- Work in the directory of the history keeps the replaced files. -/
theorem Replaceable.keeps_history (h : Replaceable files) (hkeeps : files.Keeps t historyPaths) :
    Replaceable t :=
  ⟨hkeeps.sole _ (notMem_historyPaths (by decide)) h.state,
    hkeeps.sole _ (notMem_historyPaths (by decide)) h.activation⟩

/-- What is interrupted in the history is recoverable. -/
theorem Recoverable.interrupted (h : Recoverable hasher files s activated)
    (hinterrupted : Interrupted hasher files t s.latestBlock) : Recoverable hasher t s activated :=
  ⟨h.snapshot.keeps hinterrupted.keeps (notMem_historyPaths (by decide)), hinterrupted.chain,
    h.record.keeps hinterrupted.keeps (notMem_historyPaths (by decide)), h.valid,
    h.replaceable.keeps_history hinterrupted.keeps⟩

/-- **Opening the stores** ends with what was recoverable. -/
theorem openStores_spec (h : Recoverable hasher files s activated) :
    (openStores hasher s).Spec files (Recoverable hasher · s activated)
      (Returns fun self t => self.state = s ∧ self.activatedWeights = activated ∧
        self.processActivation = none ∧ ∃ chain, Stored hasher t self chain) := by
  obtain ⟨chain, hretained, hreach⟩ := h.history
  have hhistory := (openHistory_spec hretained hreach).mono (fun t ht => h.interrupted ht)
    fun _ _ _ hr => hr
  refine Spec.bind_returns (Spec.mapError_returns hhistory) fun history t ht hopened => ?_
  obtain ⟨hself, htidy, -⟩ := hopened
  have hreconcile := (reconcileStateTip_spec htidy hreach hself).mono
    (fun u hu => ht.interrupted hu) fun _ _ _ hr => hr
  refine Spec.bind_returns (Spec.mapError_returns hreconcile) fun out u hu hreconciled => ?_
  obtain ⟨chain', rfl, htidy', hlast, -⟩ := hreconciled
  have hchecked : ∀ {result : Except DurablePorStateError Unit}, result = .ok () →
      (done result : Program Files _ Unit).Spec u (Recoverable hasher · s activated)
        (Returns fun _ v => v = u) := fun hok => Spec.inspect_returns hu hok rfl
  refine Spec.bind_returns (hchecked rfl) fun _ v _ hv => ?_
  obtain rfl : v = u := hv
  have hrecord : (inspect (restoreActivation hasher)).Spec v (Recoverable hasher · s activated)
      (Returns fun record w => record = activated ∧ w = v) :=
    Spec.inspect_returns hu hu.record.restoreActivation ⟨rfl, rfl⟩
  refine Spec.bind_returns (Spec.mapError_returns hrecord) fun record w _ hw => ?_
  obtain ⟨rfl, rfl⟩ := hw
  refine Spec.bind_returns (hchecked h.valid) fun _ v _ hv => ?_
  obtain rfl := hv
  exact Spec.pure_returns hu ⟨rfl, rfl, rfl, chain', hu.snapshot, htidy', hlast, rfl, hu.record,
    h.valid, hu.replaceable, rfl⟩

/-- **Opening after a crash** ends with what was recoverable, whatever the initial state, and
another crash changes nothing about that. -/
theorem openDurable_spec (h : Recoverable hasher files s activated) (initialState : ReputationState) :
    (openDurable hasher initialState).Spec files (Recoverable hasher · s activated)
      (Returns fun self t => self.state = s ∧ self.activatedWeights = activated ∧
        self.processActivation = none ∧ ∃ chain, Stored hasher t self chain) := by
  have hrestored : (inspect (restoreState hasher)).Spec files (Recoverable hasher · s activated)
      (Returns fun restored t => restored = some s ∧ t = files) :=
    Spec.inspect_returns h h.snapshot.restoreState ⟨rfl, rfl⟩
  have hstate : (restoreOrPersist hasher initialState).Spec files (Recoverable hasher · s activated)
      (Returns fun state t => state = s ∧ t = files) := by
    refine Spec.bind_returns (Spec.mapError_returns hrestored) fun restored t ht hr => ?_
    obtain ⟨rfl, rfl⟩ := hr
    exact Spec.pure_returns ht ⟨rfl, rfl⟩
  refine Spec.bind_returns hstate fun state t ht hr => ?_
  obtain ⟨rfl, rfl⟩ := hr
  exact openStores_spec ht

/-- A data directory in which nothing is committed. -/
structure Unstarted (hasher : List Byte → ContentHash) (files : Files) : Prop where
  snapshot : files.read stateFile.target = none
  history : Retained hasher files []
  record : files.read activationFile.target = none
  replaceable : Replaceable files

theorem unstarted_empty : Unstarted hasher .empty := by
  have hnone : ∀ path, (FileSystem.empty : Files).read path = none := fun _ => rfl
  refine ⟨hnone _, ⟨by simp, by simp, fun round h => absurd (hnone _) h,
    fun name h => absurd (hnone _) h⟩, hnone _, ?_, ?_⟩
  · exact sole_of_read_none (hnone _)
  · exact sole_of_read_none (hnone _)

/-- Work on the file of the snapshot keeps the history and the record. -/
theorem Unstarted.keeps (h : Unstarted hasher files) (hkeeps : files.Keeps t touched)
    (htouched : touched ⊆ {stateFile.temporary, stateFile.target}) :
    Retained hasher t [] ∧ RecordStored hasher t none := by
  have hname : ∀ {path}, path ∈ touched → path = stateFile.temporary ∨ path = stateFile.target :=
    fun hpath => htouched hpath
  have hrecord : activationFile.target ∉ touched := by
    intro hpath
    rcases hname hpath with h | h
    · exact absurd h (by decide)
    · exact absurd h (by decide)
  refine ⟨h.history.keeps hkeeps fun name hpath => ?_, ⟨(hkeeps.same _ hrecord).trans h.record,
    by simp⟩⟩
  have hreplaced : historyDirectory ++ name ∈ replacedNames := by
    rcases hname hpath with h | h
    · rw [h]
      decide
    · rw [h]
      decide
  exact absurd hreplaced append_notMem_replacedNames

/-- **Opening a fresh directory** commits the initial state, if it has a snapshot. -/
theorem openDurable_unstarted (h : Unstarted hasher files) (initialState : ReputationState) :
    (openDurable hasher initialState).Spec files
      (fun t => Unstarted hasher t ∨ Recoverable hasher t initialState none)
      (fun r t => (∃ error, encodeReputationStateSnapshot hasher initialState = .error error ∧
          r = .error (.persistence (.invalidSnapshot error))) ∨
        ∃ self, r = .ok self ∧ self.state = initialState ∧ ∃ chain, Stored hasher t self chain) := by
  have hrestored : (inspect (restoreState hasher)).Spec files
      (fun t => Unstarted hasher t ∨ Recoverable hasher t initialState none)
      (Returns fun restored t => restored = none ∧ t = files) := by
    refine Spec.inspect_returns (.inl h) ?_ ⟨rfl, rfl⟩
    unfold restoreState
    rw [h.snapshot]
  cases hencode : encodeReputationStateSnapshot hasher initialState with
  | error error =>
      have hstate : (restoreOrPersist hasher initialState).Spec files
          (fun t => Unstarted hasher t ∨ Recoverable hasher t initialState none)
          fun r _ => r = .error (.persistence (.invalidSnapshot error)) := by
        refine Spec.bind_returns (Spec.mapError_returns hrestored) fun restored t ht hr => ?_
        obtain ⟨rfl, rfl⟩ := hr
        have hpersist : ((persistState hasher initialState).mapError
            DurablePorStateError.persistence).Spec t
              (fun t => Unstarted hasher t ∨ Recoverable hasher t initialState none)
              fun r _ => r = .error (.persistence (.invalidSnapshot error)) :=
          Spec.mapError (persistState_error hencode ht) fun r _ hr => by rw [hr.1]; rfl
        refine Spec.bind hpersist (fun a _ _ hr => absurd hr (by simp)) fun e _ _ hr => ?_
        exact congrArg Except.error (Except.error.inj hr)
      refine Spec.bind hstate (fun a t _ hr => absurd hr (by simp)) fun e t _ hr => ?_
      exact .inl ⟨error, rfl, congrArg Except.error (Except.error.inj hr)⟩
  | ok bytes =>
      have hpersist : (persistState hasher initialState).Spec files
          (fun t => Unstarted hasher t ∨ Recoverable hasher t initialState none)
          (Returns fun _ t => Recoverable hasher t initialState none) := by
        refine persistState_spec hencode h.replaceable (fun t hkeeps hfiles => ?_)
          fun t hkeeps hfiles hsnapshot => ?_
        · obtain ⟨hhistory, hrecord⟩ := h.keeps hkeeps (by simp)
          have htarget : stateFile.target ∉ ({stateFile.temporary} : Set (List Byte)) := by decide
          exact .inl ⟨(hkeeps.same _ htarget).trans h.snapshot, hhistory, hrecord.stored, hfiles⟩
        · obtain ⟨hhistory, hrecord⟩ := h.keeps hkeeps subset_rfl
          have hreach : Reaches hasher [] initialState.latestBlock := by
            cases hlatest : initialState.latestBlock with
            | none => exact .inl rfl
            | some block =>
                obtain ⟨encoded, hblock⟩ := exists_encodeReputationBlock hencode hlatest
                exact .inr ⟨block, encoded, rfl, hblock, by simp⟩
          have hrecoverable : Recoverable hasher t initialState none :=
            ⟨hsnapshot, ⟨[], hhistory, hreach⟩, hrecord, rfl, hfiles⟩
          exact ⟨.inr hrecoverable, hrecoverable⟩
      have hstate : (restoreOrPersist hasher initialState).Spec files
          (fun t => Unstarted hasher t ∨ Recoverable hasher t initialState none)
          (Returns fun state t => state = initialState ∧ Recoverable hasher t initialState none) := by
        refine Spec.bind_returns (Spec.mapError_returns hrestored) fun restored t _ hr => ?_
        obtain ⟨rfl, rfl⟩ := hr
        refine Spec.bind_returns (Spec.mapError_returns hpersist) fun _ u hu hr => ?_
        exact Spec.pure_returns hu ⟨rfl, hr⟩
      refine Spec.bind_returns hstate fun state t _ hr => ?_
      obtain ⟨rfl, hr⟩ := hr
      refine (openStores_spec hr).mono (fun _ hu => .inr hu) fun r u _ hopened => ?_
      obtain ⟨self, rfl, hstate, -, -, hstored⟩ := hopened
      exact .inr ⟨self, rfl, hstate, hstored⟩

/-! ### Commits -/

variable {self : DurablePorState} {chain : List ReputationBlock} {applied : AppliedPorReputationRound}

/-- A record that goes with a state goes with later ones. -/
theorem validateActivationRecord_later (h : validateActivationRecord hasher activated s = .ok ())
    (hlater : s.currentRound < staged.currentRound) :
    validateActivationRecord hasher activated staged = .ok () := by
  cases activated with
  | none => rfl
  | some record =>
      obtain ⟨hahead, -⟩ := guard_eq_ok.1 h
      have hlt : record.reputationRound < staged.currentRound := (not_lt.1 hahead).trans_lt hlater
      unfold validateActivationRecord
      dsimp only
      rw [if_neg hlt.not_gt, if_neg hlt.ne]

theorem ReputationState.Staged.round_lt (h : s.Staged hasher block) :
    s.currentRound < (s.commitAuditedBlock block).currentRound := by
  have hround := h.round
  unfold checkedAdd64 at hround
  split_ifs at hround
  have hval := Option.some.inj hround
  obtain ⟨-, -, hlist, -⟩ := validateReputationBlock_eq_ok.1 h.audited.valid
  show s.currentRound < block.reputationList.round
  rw [← hlist, Fin.lt_def]
  omega

/-- The snapshot of the staged state is in place, the history is one block behind. -/
theorem Stored.snapshotted {commit : ReputationState} (h : Stored hasher files self chain)
    (hcommit : commit = self.state.commitAuditedBlock block) (hblock : self.state.Staged hasher block)
    (hkeeps : files.Keeps t {stateFile.temporary, stateFile.target}) (hfiles : Replaceable t)
    (hsnapshot : SnapshotStored hasher t commit) :
    Tidy hasher t chain ∧ Recoverable hasher t commit self.activatedWeights := by
  have hname : ∀ {path}, path ∈ ({stateFile.temporary, stateFile.target} : Set (List Byte)) →
      path ∈ replacedNames := by
    rintro path (rfl | rfl)
    · decide
    · decide
  have hrecord : activationFile.target ∉
      ({stateFile.temporary, stateFile.target} : Set (List Byte)) := by
    rintro (h | h)
    · exact absurd h (by decide)
    · exact absurd h (by decide)
  have hretained : Retained hasher t chain := h.tidy.toRetained.keeps hkeeps fun name hpath =>
    absurd (hname hpath) append_notMem_replacedNames
  have htidy : Tidy hasher t chain := ⟨hretained, fun round => by
    have htemp : blockTempPath round ∉ ({stateFile.temporary, stateFile.target} : Set (List Byte)) :=
      fun hpath => append_notMem_replacedNames (hname hpath)
    rw [hkeeps.same _ htemp]
    exact h.tidy.noTemp round⟩
  have hlatest : commit.latestBlock = some block := by rw [hcommit]; rfl
  obtain ⟨bytes, hencode, -⟩ := id hsnapshot
  obtain ⟨encoded, hencoded⟩ := exists_encodeReputationBlock hencode hlatest
  refine ⟨htidy, hsnapshot, ⟨chain, hretained, .inr ⟨block, encoded, hlatest, hencoded, ?_⟩⟩,
    h.record.keeps hkeeps hrecord, ?_, hfiles⟩
  · exact fun tip htip => hblock.follows (h.last.symm.trans htip)
  · exact validateActivationRecord_later h.valid (hcommit ▸ hblock.round_lt)

/-- Work on a temporary name keeps what is recoverable. -/
theorem Recoverable.keeps_temporary {file : ReplacedFile} (h : Recoverable hasher files s activated)
    (hfile : file ∈ [stateFile, activationFile]) (hkeeps : files.Keeps t {file.temporary})
    (hfiles : Replaceable t) : Recoverable hasher t s activated := by
  have hname : file.temporary ∈ replacedNames ∧ stateFile.target ≠ file.temporary ∧
      activationFile.target ≠ file.temporary := by
    rcases List.mem_cons.1 hfile with rfl | hfile
    · decide
    · obtain rfl := List.mem_singleton.1 hfile
      decide
  obtain ⟨chain, hretained, hreach⟩ := h.history
  refine ⟨h.snapshot.keeps hkeeps hname.2.1, ⟨chain, hretained.keeps hkeeps fun name hpath => ?_,
    hreach⟩, h.record.keeps hkeeps hname.2.2, h.valid, hfiles⟩
  exact absurd (Set.mem_singleton_iff.1 hpath ▸ hname.1) append_notMem_replacedNames

/-- **A commit** leaves the state before it or the staged one, whenever it is stopped, and ends
with the staged one, if that has a snapshot. -/
theorem commitStaged_spec (h : Stored hasher files self chain)
    (hcommit : staged = self.state.commitAuditedBlock applied.block)
    (hblock : self.state.Staged hasher applied.block) :
    (self.commitStaged hasher staged applied).Spec files
      (fun t => Recoverable hasher t self.state self.activatedWeights ∨
        Recoverable hasher t staged self.activatedWeights)
      (Returns fun out t =>
        (∃ error, encodeReputationStateSnapshot hasher staged = .error error ∧
          out = (.error (.persistence (.invalidSnapshot error)),
            { self with recoveryRequired := true }) ∧ t = files) ∨
        ∃ history, out = (.ok applied, { self with history := history, state := staged }) ∧
          ∃ chain, Stored hasher t out.2 chain) := by
  have hbefore := h.recoverable
  cases hencode : encodeReputationStateSnapshot hasher staged with
  | error error =>
      have hpersist : ((persistState hasher staged).attempt : Program Files Empty _).Spec files
          (fun t => Recoverable hasher t self.state self.activatedWeights ∨
            Recoverable hasher t staged self.activatedWeights)
          (Returns fun r t => r = .error (.invalidSnapshot error) ∧ t = files) :=
        Spec.attempt ((persistState_error hencode (.inl hbefore)).mono (fun _ hC => hC)
          fun r u _ hr => ⟨r, rfl, hr⟩)
      refine Spec.bind_returns hpersist fun r t ht hr => ?_
      obtain ⟨rfl, rfl⟩ := hr
      exact Spec.pure_returns ht (.inl ⟨error, rfl, rfl, rfl⟩)
  | ok bytes =>
      have hlatest : staged.latestBlock = some applied.block := by rw [hcommit]; rfl
      have hpersist : ((persistState hasher staged).attempt : Program Files Empty _).Spec files
          (fun t => Recoverable hasher t self.state self.activatedWeights ∨
            Recoverable hasher t staged self.activatedWeights)
          (Returns fun r t => ∃ a, r = .ok a ∧ Tidy hasher t chain ∧
            Recoverable hasher t staged self.activatedWeights) := by
        refine Spec.attempt_returns (persistState_spec hencode h.replaceable
          (fun t hkeeps hfiles => ?_) fun t hkeeps hfiles hsnapshot => ?_)
        · exact .inl (hbefore.keeps_temporary (by simp) hkeeps hfiles)
        · have hafter := h.snapshotted hcommit hblock hkeeps hfiles hsnapshot
          exact ⟨.inr hafter.2, hafter⟩
      refine Spec.bind_returns hpersist fun r t _ hr => ?_
      obtain ⟨_, rfl, htidy, ht⟩ := hr
      obtain ⟨encoded, hencoded⟩ := exists_encodeReputationBlock hencode hlatest
      have hfollows : ∀ tip, chain.getLast? = some tip → Follows hasher tip applied.block :=
        fun tip htip => hblock.follows (h.last.symm.trans htip)
      have hfirst : chain.getLast? = none → applied.block.header.previousReputationHash = none ∨
          false = true := by
        intro hnone
        have hprevious := hblock.previous
        rw [← h.last, hnone] at hprevious
        exact .inl (Except.ok.inj hprevious).symm
      have htip : self.history.tip = chain.getLast? := by rw [h.history, h.last]
      have hhealthy : self.history.recoveryRequired = false := by rw [h.history]
      have happend := (appendInner_spec htidy htip hhealthy hfollows hfirst hencoded).mono
        (fun u hu => (.inr (ht.interrupted (hlatest ▸ hu)) :
          Recoverable hasher u self.state self.activatedWeights ∨
            Recoverable hasher u staged self.activatedWeights)) fun _ _ _ hr => hr
      refine Spec.bind_returns happend fun out u hu hout => ?_
      obtain ⟨rfl, htidy', hkeeps⟩ := hout
      refine Spec.pure_returns hu (.inr ⟨_, rfl, chain ++ [applied.block], ?_⟩)
      exact ⟨ht.snapshot.keeps hkeeps (notMem_historyPaths (by decide)), htidy', by simp [hlatest],
        by simp [hlatest, h.history], ht.record.keeps hkeeps (notMem_historyPaths (by decide)),
        ht.valid, ht.replaceable.keeps_history hkeeps, h.healthy⟩

/-! ### Activations -/

variable {validators : List NodeId} {weights : List (NodeId × U64)}
  {desired : PorWeightActivationRecord}

/-- Authorized validators are in the list of the state, so they are within its limits. -/
theorem activationLimits_of_snapshot (hencode : encodeReputationStateSnapshot hasher s = .ok bytes)
    (hweights : s.authorizedValidatorWeights validators = .ok weights) :
    ActivationLimits validators := by
  obtain ⟨-, hfits, -⟩ := encodeSnapshot_eq_ok.1 hencode
  obtain ⟨-, hkeys, -⟩ := ReputationState.authorizedValidatorWeights_spec hweights
  obtain ⟨total, hfold⟩ := ReputationState.authorizedValidatorWeights_foldlM hweights
  have hentry : ∀ id ∈ validators, ∃ entry ∈ s.reputationList.entries, entry.nodeId = id := by
    intro id hid
    obtain ⟨pair, hpair, rfl⟩ := List.mem_map.1 (hkeys.mem_iff.2 (List.mem_dedup.2 hid))
    rcases ReputationState.weight_of_foldlM hfold pair hpair with hnil | ⟨entry, hentry, -⟩
    · exact absurd hnil List.not_mem_nil
    · exact ⟨entry, List.mem_of_find?_eq_some hentry, by simpa using List.find?_some hentry⟩
  refine ⟨?_, fun id hid => ?_⟩
  · have hsub : validators.dedup ⊆ s.reputationList.entries.map ReputationEntry.nodeId :=
      fun id hid => List.mem_map.2 (hentry id (List.mem_dedup.1 hid))
    have hlength := (validators.nodup_dedup.subperm hsub).length_le
    rw [List.length_map] at hlength
    exact hlength.trans hfits.list.count
  · obtain ⟨entry, hmem, rfl⟩ := hentry id hid
    exact hfits.list.nodeIds entry hmem

/-- The validators of a record of authorized weights, in their order. -/
theorem keys_weightMap (hsorted : validators.Pairwise (· ≤ ·)) (hnodup : validators.Nodup)
    (hweights : s.authorizedValidatorWeights validators = .ok weights) :
    (weightMap weights).keys = validators := by
  have hperm := (weightMap_perm hweights).2
  rw [List.dedup_eq_self.2 hnodup] at hperm
  have hkeys : (weightMap weights).keys.Pairwise (· ≤ ·) :=
    List.pairwise_map.2 ((weightMap weights).ascending.imp fun h => h.le)
  exact hperm.eq_of_pairwise (fun _ _ _ _ => le_antisymm) hkeys hsorted

/-- **The record of the projected weights goes with its state.** -/
theorem validateActivationRecord_desired (hsorted : validators.Pairwise (· ≤ ·))
    (hnodup : validators.Nodup) (hweights : s.authorizedValidatorWeights validators = .ok weights)
    (hrecord : PorWeightActivationRecord.fromStateAndWeights hasher s (weightMap weights) =
      .ok desired) : validateActivationRecord hasher (some desired) s = .ok () := by
  obtain ⟨checkpoint, hcheckpoint, hrecord⟩ := bind_eq_ok.1 hrecord
  obtain rfl := Except.ok.inj hrecord
  have hkeys := keys_weightMap hsorted hnodup hweights
  unfold validateActivationRecord PorWeightActivationRecord.matchesStateCheckpoint
  dsimp only
  rw [if_neg (lt_irrefl _), if_pos rfl, if_neg (not_not.2 rfl), hcheckpoint, hkeys, hweights]
  simp [Except.mapError, bind, Except.bind]

/-- What is desired is within the limits and goes with the state. -/
theorem desiredActivation_spec (hencode : encodeReputationStateSnapshot hasher self.state = .ok bytes)
    {ingress : Output.LiveIngress} (h : self.desiredActivation hasher ingress = .ok desired) :
    desired.Fits hasher ∧ validateActivationRecord hasher (some desired) self.state = .ok () := by
  obtain ⟨projected, hprojected, h⟩ := bind_eq_ok.1 h
  obtain ⟨-, h⟩ := guard_eq_ok.1 h
  obtain ⟨desired', hdesired, h⟩ := bind_eq_ok.1 h
  obtain ⟨-, h⟩ := check_eq_ok.1 h
  obtain rfl := Except.ok.inj h
  have hweights := mapError_eq_ok.1 hprojected
  have hrecord := mapError_eq_ok.1 hdesired
  have hsorted : (orderedValidators ingress.bonds).Pairwise (· ≤ ·) :=
    List.pairwise_insertionSort (· ≤ ·) ingress.bonds.table.keys
  exact ⟨(PorWeightActivationRecord.fits_iff hweights hrecord).2
      (activationLimits_of_snapshot hencode hweights),
    validateActivationRecord_desired hsorted (Output.orderedValidators_nodup _) hweights hrecord⟩

/-- A process that goes on with what it knows about the files. -/
theorem Stored.withProcessActivation (h : Stored hasher files self chain)
    (activated : Option PorWeightActivationRecord) :
    Stored hasher files { self with processActivation := activated } chain :=
  ⟨h.snapshot, h.tidy, h.last, h.history, h.record, h.valid, h.replaceable, h.healthy⟩

/-- Restoring the weights changes no file. -/
theorem Stored.restoreActivatedWeights (h : Stored hasher files self chain)
    (ingress : Output.LiveIngress) :
    Stored hasher files (self.restoreActivatedWeights ingress).2.1 chain := by
  unfold DurablePorState.restoreActivatedWeights
  rw [if_neg (by simp [h.healthy])]
  rcases hactivated : self.activatedWeights with _ | activated
  · dsimp only
    split_ifs
    · exact h
    · exact h
  · dsimp only
    rcases restoreActivatedPorWeights ingress activated.weights with error | ingress
    · exact h
    · rw [← hactivated]
      exact h.withProcessActivation _

/-- The new record is in place. -/
theorem Stored.recorded (h : Stored hasher files self chain)
    (hkeeps : files.Keeps t {activationFile.temporary, activationFile.target})
    (hfiles : Replaceable t) (hrecord : RecordStored hasher t (some desired))
    (hvalid : validateActivationRecord hasher (some desired) self.state = .ok ()) :
    Stored hasher t { self with
      activatedWeights := some desired, processActivation := some desired } chain := by
  have hname : ∀ {path}, path ∈ ({activationFile.temporary, activationFile.target} : Set (List Byte)) →
      path ∈ replacedNames := by
    rintro path (rfl | rfl)
    · decide
    · decide
  have hsnapshot : stateFile.target ∉
      ({activationFile.temporary, activationFile.target} : Set (List Byte)) := by
    rintro (h | h)
    · exact absurd h (by decide)
    · exact absurd h (by decide)
  refine ⟨h.snapshot.keeps hkeeps hsnapshot, ⟨?_, fun round => ?_⟩, h.last, h.history, hrecord,
    hvalid, hfiles, h.healthy⟩
  · exact h.tidy.toRetained.keeps hkeeps fun name hpath =>
      absurd (hname hpath) append_notMem_replacedNames
  · have htemp : blockTempPath round ∉
        ({activationFile.temporary, activationFile.target} : Set (List Byte)) :=
      fun hpath => append_notMem_replacedNames (hname hpath)
    rw [hkeeps.same _ htemp]
    exact h.tidy.noTemp round

/-- **A new record is persisted.** -/
theorem persistDesired_spec (h : Stored hasher files self chain) (hfits : desired.Fits hasher)
    (hvalid : validateActivationRecord hasher (some desired) self.state = .ok ())
    (hlength : (encodeActivationRecord hasher desired).length ≤ maxActivationRecordLen) :
    ((persistActivation hasher desired).attempt : Program Files Empty _).Spec files
      (fun t => Recoverable hasher t self.state self.activatedWeights ∨
        Recoverable hasher t self.state (some desired))
      (Returns fun r t => ∃ a, r = .ok a ∧ Stored hasher t { self with
        activatedWeights := some desired, processActivation := some desired } chain) := by
  refine Spec.attempt_returns (persistActivation_spec hlength hfits h.replaceable
    (fun t hkeeps hfiles => ?_) fun t hkeeps hfiles hrecord => ?_)
  · exact .inl (h.recoverable.keeps_temporary (by simp) hkeeps hfiles)
  · have hstored := h.recorded hkeeps hfiles hrecord hvalid
    exact ⟨.inr hstored.recoverable, hstored⟩

/-- **An activation** leaves the record before it or the desired one, and the files say what the
process knows unless it has to be opened again. -/
theorem activateWeights_spec (h : Stored hasher files self chain) (ingress : Output.LiveIngress) :
    (self.activateWeights hasher ingress).Spec files
      (fun t => Recoverable hasher t self.state self.activatedWeights ∨
        ∃ desired, self.desiredActivation hasher ingress = .ok desired ∧
          Recoverable hasher t self.state (some desired))
      (Returns fun out t => out.2.1.state = self.state ∧
        ((∃ error, out.1 = .error error) ∧ out.2.1.recoveryRequired = true ∧
            Recoverable hasher t self.state out.2.1.activatedWeights ∨
          ∃ chain, Stored hasher t out.2.1 chain)) := by
  have hbefore := h.recoverable
  obtain ⟨bytes, hencode, -⟩ := id h.snapshot
  unfold DurablePorState.activateWeights
  rw [if_neg (by simp [h.healthy])]
  cases hdesired : self.desiredActivation hasher ingress with
  | error error => exact Spec.pure_returns (.inl hbefore) ⟨rfl, .inr ⟨chain, h⟩⟩
  | ok desired =>
      obtain ⟨hfits, hvalid⟩ := desiredActivation_spec hencode hdesired
      dsimp only
      by_cases hactive : self.processActivation = some desired ∧
          DurablePorState.bondMap ingress.bonds = desired.weights
      · rw [if_pos hactive]
        exact Spec.pure_returns (.inl hbefore) ⟨rfl, .inr ⟨chain, h⟩⟩
      rw [if_neg hactive]
      rcases ingress.applyPorWeights hasher self.state with ⟨error | _, applied⟩
      · exact Spec.pure_returns (.inl hbefore) ⟨rfl, .inr ⟨chain, h⟩⟩
      dsimp only
      by_cases hdurable : self.activatedWeights = some desired
      · rw [if_pos hdurable]
        exact Spec.pure_returns (.inl hbefore) ⟨rfl, .inr ⟨chain, h.withProcessActivation _⟩⟩
      rw [if_neg hdurable]
      by_cases hlength : (encodeActivationRecord hasher desired).length ≤ maxActivationRecordLen
      · refine Spec.bind_returns ((persistDesired_spec h hfits hvalid hlength).mono
          (fun t ht => ht.imp_right fun ht => ⟨desired, rfl, ht⟩) fun _ _ _ hr => hr)
          fun r t ht hr => ?_
        obtain ⟨_, rfl, hstored⟩ := hr
        exact Spec.pure_returns ht ⟨rfl, .inr ⟨chain, hstored⟩⟩
      · -- nothing is written for a record that is too long
        have hpersist : ((persistActivation hasher desired).attempt : Program Files Empty _).Spec files
            (fun t => Recoverable hasher t self.state self.activatedWeights ∨
              ∃ other, (Except.ok desired : Except DurablePorStateError _) = .ok other ∧
                Recoverable hasher t self.state (some other))
            (Returns fun r t => (∃ error, r = .error error) ∧ t = files) := by
          unfold persistActivation
          rw [if_pos (not_le.1 hlength)]
          exact Spec.attempt (Spec.done (.inl hbefore) ⟨_, rfl, ⟨_, rfl⟩, rfl⟩)
        refine Spec.bind_returns hpersist fun r t ht hr => ?_
        obtain ⟨⟨error, rfl⟩, rfl⟩ := hr
        exact Spec.pure_returns ht ⟨rfl, .inl ⟨⟨_, rfl⟩, rfl, hbefore⟩⟩

end CordialMiners.Reputation
