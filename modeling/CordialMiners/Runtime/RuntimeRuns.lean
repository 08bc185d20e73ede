/-
# Runs of the runtime

The commits of `por/runtime.rs` in sequence, with openings in between.

The epoch record and the committed round lie in different files.  Only the commits for a
checkpoint look at the record: they refuse once there is one.  The commits in the wave format
do not, and move the round past it.  As long as none of them is called while an epoch is
recorded, whatever the runs leave can be opened again (`restarts_of_porRuns`); a single such
call leaves files that `open` refuses (`Kept.not_restarts`, `porRuns_can_strand_epoch`).
-/

import CordialMiners.Ratings.Collection
import CordialMiners.Runtime.PorRuntime
import CordialMiners.Slashing.Admission

namespace CordialMiners.Reputation

open Codec (bind_eq_ok check_eq_ok guard_eq_ok
  map_eq_ok mapError_eq_ok)
open Storage Storage.Program

variable {hasher : List Byte → ContentHash} {env : PorEnv} {crypto : RatingCrypto}
  {process : DurablePorState} {files files' : PorFiles} {record : PorWeightEpochRecord}
  {epochRecord : Option PorWeightEpochRecord} {rt next : PorRuntime} {s : ReputationState}

/-! ### Programs that end -/

/-- What is promised about a program holds of what it ends with. -/
theorem finish_spec {α : Type} {p : Program Files Empty α} {durable : Files} {C : Files → Prop}
    {Q : α → Files → Prop} (h : p.Spec durable C (Returns Q)) :
    Q (finish p durable).1 (finish p durable).2 := by
  obtain ⟨a, ha, hQ⟩ := h.ends
  unfold finish
  rw [ha]
  exact hQ

/-! ### The epoch of a state -/

theorem DurablePorState.healthyState_eq_ok :
    process.healthyState = .ok s ↔ process.recoveryRequired = false ∧ process.state = s := by
  unfold healthyState
  cases process.recoveryRequired <;> simp

/-- Whether an epoch is accepted depends on the state alone. -/
theorem verifyEpochState_congr {other : DurablePorState}
    (hhealth : other.recoveryRequired = process.recoveryRequired)
    (hstate : other.state = process.state) :
    verifyEpochState hasher other record = verifyEpochState hasher process record := by
  unfold verifyEpochState DurablePorState.committedCheckpointSource DurablePorState.healthyState
  rw [hhealth, hstate]

/-- **An accepted epoch** is that of the committed round. -/
theorem verifyEpochState_spec (h : verifyEpochState hasher process record = .ok ()) :
    process.recoveryRequired = false ∧ record.porRound = process.state.currentRound := by
  obtain ⟨committed, hcommitted, h⟩ := bind_eq_ok.1 h
  obtain ⟨hhealth, rfl⟩ := DurablePorState.healthyState_eq_ok.1
    (mapError_eq_ok.1 hcommitted)
  obtain ⟨_, -, h⟩ := bind_eq_ok.1 h
  obtain ⟨_, -, h⟩ := bind_eq_ok.1 h
  obtain ⟨_, -, h⟩ := bind_eq_ok.1 h
  obtain ⟨_, -, h⟩ := bind_eq_ok.1 h
  obtain ⟨hchecks, -⟩ := guard_eq_ok.1 h
  rw [not_or, not_not] at hchecks
  exact ⟨hhealth, hchecks.1.symm⟩

/-- An epoch that can be restored and goes with a state. -/
structure EpochOf (hasher : List Byte → ContentHash) (s : ReputationState)
    (record : PorWeightEpochRecord) : Prop where
  valid : record.validateStructure hasher = .ok ()
  accepted : ∀ process : DurablePorState, process.recoveryRequired = false → process.state = s →
    verifyEpochState hasher process record = .ok ()

theorem EpochOf.of_verify (hvalid : record.validateStructure hasher = .ok ())
    (h : verifyEpochState hasher process record = .ok ()) : EpochOf hasher process.state record := by
  refine ⟨hvalid, fun other hhealth hstate => ?_⟩
  rw [verifyEpochState_congr (hhealth.trans (verifyEpochState_spec h).1.symm) hstate, h]

/-! ### The store of the epoch -/

theorem restoreEpoch_eq_ok (hepoch : files.epoch = epochRecord)
    (hvalid : ∀ record ∈ epochRecord, record.validateStructure hasher = .ok ()) :
    files.restoreEpoch hasher = .ok epochRecord := by
  unfold PorFiles.restoreEpoch
  rw [hepoch]
  cases epochRecord with
  | none => rfl
  | some record => simp [hvalid record rfl, Except.mapError, bind, Except.bind]

/-- What is persisted where nothing was. -/
theorem persistEpoch_spec (hepoch : files.epoch = none)
    (h : files.persistEpoch hasher record = .ok files') :
    record.validateStructure hasher = .ok () ∧ files' = { files with epoch := some record } := by
  obtain ⟨hvalid, h⟩ := check_eq_ok.1 h
  rw [restoreEpoch_eq_ok hepoch (by simp)] at h
  exact ⟨mapError_eq_ok.1 hvalid, (Except.ok.inj h).symm⟩

/-! ### What a runtime and its files have in common -/

/-- **What holds along every run**: opening finds the state of the process, the files say what
it knows unless it has to be opened again, and a recorded epoch goes with the state. -/
structure Kept (hasher : List Byte → ContentHash) (process : DurablePorState)
    (epochRecord : Option PorWeightEpochRecord) (files : PorFiles) : Prop where
  recoverable : Recoverable hasher files.durable process.state process.activatedWeights
  stored : process.recoveryRequired = false → ∃ chain, Stored hasher files.durable process chain
  epoch : files.epoch = epochRecord
  valid : ∀ record ∈ epochRecord, EpochOf hasher process.state record

theorem Kept.of_stored {chain : List ReputationBlock} (h : Stored hasher files.durable process chain)
    (hepoch : files.epoch = epochRecord)
    (hvalid : ∀ record ∈ epochRecord, EpochOf hasher process.state record) :
    Kept hasher process epochRecord files :=
  ⟨h.recoverable, fun _ => ⟨chain, h⟩, hepoch, hvalid⟩

/-- **An activation** keeps the state, whether it succeeds or not. -/
theorem Kept.activateWeights {durable : Files} {chain : List ReputationBlock}
    (h : Stored hasher durable process chain) (hepoch : files.epoch = epochRecord)
    (hvalid : ∀ record ∈ epochRecord, EpochOf hasher process.state record)
    (ingress : Output.LiveIngress) :
    Kept hasher (finish (process.activateWeights hasher ingress) durable).1.2.1 epochRecord
      { files with durable := (finish (process.activateWeights hasher ingress) durable).2 } := by
  obtain ⟨hstate, hends⟩ := finish_spec (activateWeights_spec h ingress)
  rw [← hstate] at hvalid
  rcases hends with ⟨-, hrequired, ht⟩ | ⟨chain, hstored⟩
  · rw [← hstate] at ht
    exact ⟨ht, fun hhealth => absurd (hrequired.symm.trans hhealth) (by simp), hepoch, hvalid⟩
  · exact .of_stored hstored hepoch hvalid

/-- What is left for opening again: the state is found, and with it a recorded epoch. -/
def Restarts (hasher : List Byte → ContentHash) (initialState : ReputationState)
    (files : PorFiles) : Prop :=
  ∃ process, (openDurable hasher initialState files.durable).result = .ok process ∧
    (files.restoreEpoch hasher = .ok none ∨
      ∃ record, files.restoreEpoch hasher = .ok (some record) ∧
        record.porRound = process.state.currentRound ∧
        verifyEpochState hasher process record = .ok ())

theorem Kept.restarts (h : Kept hasher process epochRecord files) (initialState : ReputationState) :
    Restarts hasher initialState files := by
  obtain ⟨opened, hopened, hstate, -, -, chain, hstored⟩ :=
    (openDurable_spec h.recoverable initialState).ends
  have hrestored := restoreEpoch_eq_ok h.epoch fun record hrecord => (h.valid record hrecord).valid
  refine ⟨opened, hopened, ?_⟩
  cases epochRecord with
  | none => exact Or.inl hrestored
  | some record =>
      have haccepted := (h.valid record rfl).accepted opened hstored.healthy hstate
      exact Or.inr ⟨record, hrestored, (verifyEpochState_spec haccepted).2, haccepted⟩

/-! ### Opening -/

theorem eq_add_of_checkedAdd64 {a b c : ℕ} (h : checkedAdd64 a b = some c) : c = a + b := by
  unfold checkedAdd64 at h
  split_ifs at h
  exact (Option.some.inj h).symm

/-- The record that opening goes on with is the one of the files. -/
theorem recoverEpoch_spec {wavelength : ℕ} (hhealth : process.recoveryRequired = false)
    (hvalid : ∀ record ∈ files.epoch, EpochOf hasher process.state record)
    (h : recoverEpoch hasher files process wavelength = .ok (epochRecord, files')) :
    epochRecord = files.epoch ∧ files' = files := by
  obtain ⟨restored, hrestored, h⟩ := bind_eq_ok.1 h
  rw [restoreEpoch_eq_ok rfl fun record hrecord => (hvalid record hrecord).valid] at hrestored
  obtain rfl := Except.ok.inj hrestored
  cases hepoch : files.epoch with
  | none =>
      rw [hepoch] at h
      obtain ⟨rfl, rfl⟩ := Prod.mk.inj (Except.ok.inj h)
      exact ⟨rfl, rfl⟩
  | some record =>
      rw [hepoch] at h
      have hround := (verifyEpochState_spec ((hvalid record hepoch).accepted process hhealth rfl)).2
      obtain ⟨committed, hcommitted, h⟩ := bind_eq_ok.1 h
      obtain ⟨-, rfl⟩ := DurablePorState.healthyState_eq_ok.1
        (mapError_eq_ok.1 hcommitted)
      obtain ⟨following, hfollowing, h⟩ := bind_eq_ok.1 h
      have hsucc := eq_add_of_checkedAdd64 (okOr_eq_ok.1 hfollowing)
      rw [if_neg (by rw [hround]; omega)] at h
      obtain ⟨-, h⟩ := guard_eq_ok.1 h
      obtain ⟨-, h⟩ := guard_eq_ok.1 h
      obtain ⟨-, h⟩ := check_eq_ok.1 h
      obtain ⟨rfl, rfl⟩ := Prod.mk.inj (Except.ok.inj h)
      exact ⟨rfl, rfl⟩

/-- The activation of a startup keeps the state. -/
theorem activateAtStartup_spec {ingress ingress' : Output.LiveIngress}
    {chain : List ReputationBlock} {earlier : Option PorWeightActivationOutcome}
    {outcome : PorWeightActivationOutcome} {started : DurablePorState}
    (h : Stored hasher files.durable process chain) (hepoch : files.epoch = none)
    (hok : activateAtStartup hasher files process ingress earlier =
      (.ok (outcome, started, ingress'), files')) : Kept hasher started none files' := by
  have hactivated := Kept.activateWeights h hepoch (by simp) ingress
  obtain ⟨hstarted, rfl⟩ := Prod.mk.inj hok
  obtain ⟨_, -, heq⟩ := map_eq_ok.1 hstarted
  obtain ⟨-, rfl, -⟩ := heq
  exact hactivated

/-- A startup without an epoch keeps the state. -/
theorem startActivated_spec {ingress ingress' : Output.LiveIngress} {chain : List ReputationBlock}
    {earlier : Option PorWeightActivationOutcome} {outcome : PorWeightActivationOutcome}
    {wavelength : ℕ} {started : DurablePorState}
    (h : Stored hasher files.durable process chain) (hepoch : files.epoch = none)
    (hok : startActivated hasher files process ingress earlier wavelength =
      (.ok (outcome, started, ingress'), files')) :
    Kept hasher started none files' := by
  have hkept : Kept hasher process none files := .of_stored h hepoch (by simp)
  unfold startActivated at hok
  dsimp only at hok
  split at hok
  · cases hok
  split at hok
  · obtain ⟨hstarted, rfl⟩ := Prod.mk.inj hok
    obtain ⟨-, rfl, -⟩ := Except.ok.inj hstarted
    exact hkept
  · obtain ⟨hstarted, rfl⟩ := Prod.mk.inj hok
    obtain ⟨-, rfl, -⟩ := Except.ok.inj hstarted
    exact hkept
  · cases hok
  · exact activateAtStartup_spec h hepoch hok

theorem restoreActivatedWeights_state (ingress : Output.LiveIngress) :
    (process.restoreActivatedWeights ingress).2.1.state = process.state := by
  unfold DurablePorState.restoreActivatedWeights
  split
  · rfl
  · split
    · split_ifs <;> rfl
    · split <;> rfl

/-- **A startup** keeps the state and the recorded epoch. -/
theorem startRuntime_spec {ingress ingress' : Output.LiveIngress} {chain : List ReputationBlock}
    {outcome : PorWeightActivationOutcome} {wavelength : ℕ} {started : DurablePorState}
    (h : Stored hasher files.durable process chain) (hepoch : files.epoch = epochRecord)
    (hvalid : ∀ record ∈ epochRecord, EpochOf hasher process.state record)
    (hok : startRuntime hasher files process ingress epochRecord wavelength =
      (.ok (outcome, started, ingress'), files')) :
    Kept hasher started epochRecord files' := by
  have hrestored := h.restoreActivatedWeights ingress
  rw [← restoreActivatedWeights_state ingress] at hvalid
  unfold startRuntime at hok
  rcases hrestore : process.restoreActivatedWeights ingress with ⟨error | earlier, restored, ingress⟩
  · rw [hrestore] at hok
    cases hok
  · rw [hrestore] at hok hrestored hvalid
    cases epochRecord with
    | none => exact startActivated_spec hrestored hepoch hok
    | some record =>
        obtain ⟨hstarted, rfl⟩ := Prod.mk.inj hok
        obtain ⟨_, -, hstarted⟩ := bind_eq_ok.1 hstarted
        obtain ⟨_, -, hstarted⟩ := bind_eq_ok.1 hstarted
        obtain ⟨-, rfl, -⟩ := Except.ok.inj hstarted
        exact .of_stored hrestored hepoch hvalid

/-- **Opening a runtime**: it goes on with what the durable state was opened with. -/
theorem openRuntime_spec {initialState : ReputationState} {ingress : Output.LiveIngress}
    {config : PorConfig} {shardId : List Byte} {wavelength : ℕ}
    (hopened : ∀ process, (openDurable hasher initialState files.durable).result = .ok process →
      (∃ chain, Stored hasher ((openDurable hasher initialState).final files.durable) process chain) ∧
        ∀ record ∈ files.epoch, EpochOf hasher process.state record)
    (hok : openRuntime hasher files initialState ingress config shardId wavelength =
      (.ok rt, files')) :
    Kept hasher rt.state rt.epochRecord files' := by
  unfold openRuntime at hok
  dsimp only at hok
  split at hok
  · cases hok
  obtain ⟨opened, hfiles⟩ : ∃ opened : PorFiles, opened = { files with
      durable := (openDurable hasher initialState).final files.durable } := ⟨_, rfl⟩
  have hopened : ∀ process,
      (openDurable hasher initialState files.durable).result = .ok process →
        (∃ chain, Stored hasher opened.durable process chain) ∧
          ∀ record ∈ opened.epoch, EpochOf hasher process.state record := hfiles ▸ hopened
  rw [← hfiles] at hok
  split at hok
  · cases hok
  · next process _ _ hrecovered =>
      obtain ⟨_, hresult, hrecovered⟩ := bind_eq_ok.1 hrecovered
      obtain ⟨⟨epochRecord, mid⟩, hrecover, hrecovered⟩ := bind_eq_ok.1 hrecovered
      obtain ⟨rfl, rfl, rfl⟩ := Except.ok.inj hrecovered
      obtain ⟨⟨chain, hstored⟩, hvalid⟩ := hopened _ (mapError_eq_ok.1 hresult)
      obtain ⟨rfl, rfl⟩ := recoverEpoch_spec hstored.healthy hvalid hrecover
      obtain ⟨hmapped, rfl⟩ := Prod.mk.inj hok
      obtain ⟨⟨outcome, started, ingress'⟩, hstarted, rfl⟩ := map_eq_ok.1 hmapped
      exact startRuntime_spec hstored rfl hvalid (Prod.ext hstarted rfl)

/-! ### Commits -/

/-- A commit of the runtime. -/
inductive PorCommit (crypto : RatingCrypto) where
  | completedRound (completed : CompletedPorRatingRound)
  | attestedCheckpoint (attested : AttestedPorCheckpoint crypto)
      (completed : CompletedPorRatingRound)
  | completedCheckpointRound (completed : CompletedCheckpointRatingRound)
  | completedCheckpointRoundWithEpoch (completed : CompletedCheckpointRatingRound)
      (policy : PorWeightEpochPolicy)

/-- What a call leaves that returned `Ok`. -/
def onOk {ε α : Type} (out : Except ε α × PorRuntime × PorFiles) : Option (PorRuntime × PorFiles) :=
  match out.1 with
  | .ok _ => some out.2
  | .error _ => none

theorem onOk_eq_some_iff {ε α : Type} {out : Except ε α × PorRuntime × PorFiles} :
    onOk out = some (next, files') ↔ ∃ a, out = (.ok a, next, files') := by
  obtain ⟨error | a, rest⟩ := out
  · simp [onOk]
  · simp [onOk]

/-- What a commit leaves that returned `Ok`, whatever became of the activation. -/
def PorRuntime.committed (env : PorEnv) (rt : PorRuntime) (files : PorFiles) :
    PorCommit crypto → Option (PorRuntime × PorFiles)
  | .completedRound completed => onOk (rt.commitCompletedRound env.hasher files completed)
  | .attestedCheckpoint attested completed =>
      onOk (rt.commitAttestedCheckpoint env.hasher files attested completed)
  | .completedCheckpointRound completed =>
      onOk (rt.commitCompletedCheckpointRound env files completed)
  | .completedCheckpointRoundWithEpoch completed policy =>
      onOk (rt.commitCompletedCheckpointRoundWithEpoch env files completed policy)

/-- A commit in the wave format is made only while no epoch is recorded. -/
def PorCommit.BeforeEpoch (rt : PorRuntime) : PorCommit crypto → Prop
  | .completedRound _ => rt.epochRecord = none
  | .attestedCheckpoint _ _ => rt.epochRecord = none
  | .completedCheckpointRound _ => True
  | .completedCheckpointRoundWithEpoch _ _ => True

/-- A transition that was committed: the process was healthy, and the files say what it knows. -/
theorem applyTransition_ok {durable : Files} {applied : AppliedPorReputationRound}
    {transition : ReputationState → Except PorError (ReputationState × AppliedPorReputationRound)}
    (hstored : process.recoveryRequired = false → ∃ chain, Stored hasher durable process chain)
    (hstages : ∀ staged applied, transition process.state = .ok (staged, applied) →
      staged = process.state.commitAuditedBlock applied.block ∧
        process.state.Staged hasher applied.block)
    (hok : (finish (process.applyTransition hasher transition) durable).1.1 = .ok applied) :
    ∃ staged chain, transition process.state = .ok (staged, applied) ∧
      (finish (process.applyTransition hasher transition) durable).1.2.state = staged ∧
      Stored hasher (finish (process.applyTransition hasher transition) durable).2
        (finish (process.applyTransition hasher transition) durable).1.2 chain := by
  by_cases hhealth : process.recoveryRequired = true
  · unfold DurablePorState.applyTransition at hok
    rw [if_pos hhealth] at hok
    cases hok
  obtain ⟨chain, hstored⟩ := hstored (by simpa using hhealth)
  rcases finish_spec (applyTransition_spec hstored hstages) with
    ⟨⟨error, herror⟩, -⟩ | ⟨staged, applied', history, htransition, hout, chain, hstored⟩
  · rw [hok] at herror
    cases herror
  · rw [hout] at hok
    obtain rfl := Except.ok.inj hok
    exact ⟨staged, chain, htransition, by rw [hout], hstored⟩

/-- **A round is committed and activated** while no epoch is recorded. -/
theorem Kept.commitAndActivate {committed : CommittedPorRound}
    (h : Kept hasher rt.state none files) (hepoch : rt.epochRecord = none)
    {transition : ReputationState → Except PorError (ReputationState × AppliedPorReputationRound)}
    (hstages : ∀ staged applied, transition rt.state.state = .ok (staged, applied) →
      staged = rt.state.state.commitAuditedBlock applied.block ∧
        rt.state.state.Staged hasher applied.block)
    {out : Except DurablePorStateError CommittedPorRound × PorRuntime × PorFiles}
    (hout : rt.commitAndActivate hasher files (rt.state.applyTransition hasher transition) = out)
    (hok : out.1 = .ok committed) : Kept hasher out.2.1.state out.2.1.epochRecord out.2.2 := by
  obtain rfl := hout
  unfold PorRuntime.commitAndActivate at hok ⊢
  dsimp only at hok ⊢
  split at hok
  · cases hok
  · next applied happlied =>
      obtain ⟨staged, chain, -, -, hstored⟩ := applyTransition_ok h.stored hstages happlied
      exact Kept.activateWeights hstored (h.epoch.trans hepoch.symm) (by simp [hepoch]) rt.ingress

/-- Publishing changes the ingress alone. -/
theorem publishFinalizedOutput_snd (hasher : List Byte → ContentHash) (rt : PorRuntime) :
    ∃ ingress, (rt.publishFinalizedOutput hasher).2 = { rt with ingress := ingress } := by
  unfold PorRuntime.publishFinalizedOutput
  dsimp only
  split
  · exact ⟨rt.ingress, rfl⟩
  · exact ⟨_, rfl⟩

/-- **A checkpoint round** is committed only while no epoch is recorded. -/
theorem Kept.commitCheckpoint {completed : CompletedCheckpointRatingRound}
    {committed : CommittedPorRound} (h : Kept env.hasher rt.state rt.epochRecord files)
    (hok : rt.commitCompletedCheckpointRound env files completed = (.ok committed, next, files')) :
    Kept env.hasher next.state next.epochRecord files' := by
  unfold PorRuntime.commitCompletedCheckpointRound at hok
  split at hok
  · cases hok
  next hnone =>
  have hepoch : rt.epochRecord = none := by simpa using hnone
  obtain ⟨ingress, hpublished⟩ := publishFinalizedOutput_snd env.hasher rt
  have hkept : Kept env.hasher ({ rt with ingress := ingress } : PorRuntime).state none files :=
    hepoch ▸ h
  dsimp only at hok
  split at hok
  · cases hok
  · cases hok
  split at hok
  · cases hok
  · obtain ⟨hcommitted, heq⟩ := Prod.mk.inj hok
    rw [hpublished] at hcommitted heq
    have hnext := hkept.commitAndActivate hepoch (fun _ _ => stageCompletedCheckpointRound_staged)
      rfl (mapError_eq_ok.1 hcommitted)
    obtain ⟨rfl, rfl⟩ := Prod.mk.inj heq
    exact hnext

/-- **A checkpoint round with an epoch**: the epoch is recorded before the round is committed,
and the commit succeeds only if both go together. -/
theorem Kept.commitEpoch {completed : CompletedCheckpointRatingRound}
    {applied : AppliedPorReputationRound} {checkpointHash : ReputationCommitment}
    (h : Kept env.hasher rt.state none files)
    (hvalid : record.validateStructure env.hasher = .ok ())
    (hok : rt.commitEpoch env { files with epoch := some record } completed record checkpointHash =
      (.ok applied, next, files')) : Kept env.hasher next.state next.epochRecord files' := by
  unfold PorRuntime.commitEpoch at hok
  dsimp only at hok
  split at hok
  · cases hok
  · next applied' happlied =>
      obtain ⟨staged, chain, -, -, hstored⟩ :=
        applyTransition_ok h.stored (fun _ _ => stageCompletedCheckpointRound_staged) happlied
      split at hok
      · cases hok
      · next ingress hinstalled =>
          obtain ⟨-, heq⟩ := Prod.mk.inj hok
          obtain ⟨rfl, rfl⟩ := Prod.mk.inj heq
          have hverified := (check_eq_ok.1 hinstalled).1
          refine .of_stored hstored rfl fun other hother => ?_
          obtain rfl := Option.some.inj hother
          exact .of_verify hvalid hverified

theorem Kept.commitCheckpointWithEpoch {completed : CompletedCheckpointRatingRound}
    {policy : PorWeightEpochPolicy} {applied : AppliedPorReputationRound}
    (h : Kept env.hasher rt.state rt.epochRecord files)
    (hok : rt.commitCompletedCheckpointRoundWithEpoch env files completed policy =
      (.ok applied, next, files')) : Kept env.hasher next.state next.epochRecord files' := by
  unfold PorRuntime.commitCompletedCheckpointRoundWithEpoch at hok
  split at hok
  · cases hok
  next hnone =>
  have hepoch : rt.epochRecord = none := by simpa using hnone
  obtain ⟨ingress, hpublished⟩ := publishFinalizedOutput_snd env.hasher rt
  have hkept : Kept env.hasher ({ rt with ingress := ingress } : PorRuntime).state none files :=
    hepoch ▸ h
  dsimp only at hok
  split at hok
  · cases hok
  · cases hok
  split at hok
  · cases hok
  split at hok
  · cases hok
  · next hpersisted =>
      rw [hpublished] at hok
      obtain ⟨hvalid, rfl⟩ := persistEpoch_spec hkept.epoch hpersisted
      exact hkept.commitEpoch hvalid hok

/-- **One commit** keeps what holds along a run, if it is not one in the wave format behind a
recorded epoch. -/
theorem Kept.committed {call : PorCommit crypto} (h : Kept env.hasher rt.state rt.epochRecord files)
    (hbefore : call.BeforeEpoch rt) (hok : rt.committed env files call = some (next, files')) :
    Kept env.hasher next.state next.epochRecord files' := by
  cases call with
  | completedRound completed =>
      have hepoch : rt.epochRecord = none := hbefore
      obtain ⟨committed, hcommitted⟩ := onOk_eq_some_iff.1 hok
      have hkept : Kept env.hasher rt.state none files := hepoch ▸ h
      exact hkept.commitAndActivate hepoch (fun _ _ => stageCompletedReputationRound_staged)
        hcommitted rfl
  | attestedCheckpoint attested completed =>
      have hepoch : rt.epochRecord = none := hbefore
      obtain ⟨committed, hcommitted⟩ := onOk_eq_some_iff.1 hok
      have hkept : Kept env.hasher rt.state none files := hepoch ▸ h
      exact hkept.commitAndActivate hepoch (fun _ _ => stageReputationBlock_staged) hcommitted rfl
  | completedCheckpointRound completed =>
      obtain ⟨committed, hcommitted⟩ := onOk_eq_some_iff.1 hok
      exact h.commitCheckpoint hcommitted
  | completedCheckpointRoundWithEpoch completed policy =>
      obtain ⟨applied, hcommitted⟩ := onOk_eq_some_iff.1 hok
      exact h.commitCheckpointWithEpoch hcommitted

/-- A commit and its activation leave the record of the epoch, and a later round. -/
theorem commitAndActivate_round {committed : CommittedPorRound}
    (h : Kept hasher rt.state rt.epochRecord files)
    {transition : ReputationState → Except PorError (ReputationState × AppliedPorReputationRound)}
    (hstages : ∀ staged applied, transition rt.state.state = .ok (staged, applied) →
      staged = rt.state.state.commitAuditedBlock applied.block ∧
        rt.state.state.Staged hasher applied.block)
    {out : Except DurablePorStateError CommittedPorRound × PorRuntime × PorFiles}
    (hout : rt.commitAndActivate hasher files (rt.state.applyTransition hasher transition) = out)
    (hok : out.1 = .ok committed) :
    out.2.2.epoch = rt.epochRecord ∧ ∃ s activated, Recoverable hasher out.2.2.durable s activated ∧
      rt.state.state.currentRound < s.currentRound := by
  obtain rfl := hout
  unfold PorRuntime.commitAndActivate at hok ⊢
  dsimp only at hok ⊢
  split at hok
  · cases hok
  · next applied happlied =>
      obtain ⟨staged, chain, htransition, hstate, hstored⟩ :=
        applyTransition_ok h.stored hstages happlied
      obtain ⟨rfl, hblock⟩ := hstages staged applied htransition
      have hkept := Kept.activateWeights hstored (rfl : (⟨files.durable, none⟩ : PorFiles).epoch = none)
        (by simp) rt.ingress
      refine ⟨h.epoch, _, _, hkept.recoverable, ?_⟩
      rw [(finish_spec (activateWeights_spec hstored rt.ingress)).1, hstate]
      exact hblock.round_lt

/-- **A commit in the wave format strands a recorded epoch**, whenever it succeeds. -/
theorem Kept.not_restarts {call : PorCommit crypto} (h : Kept env.hasher rt.state rt.epochRecord files)
    (hepoch : rt.epochRecord = some record) (hbefore : ¬ call.BeforeEpoch rt)
    (hok : rt.committed env files call = some (next, files')) (initialState : ReputationState) :
    ¬ Restarts env.hasher initialState files' := by
  obtain ⟨hfiles, s, activated, hrecoverable, hlater⟩ : files'.epoch = rt.epochRecord ∧
      ∃ s activated, Recoverable env.hasher files'.durable s activated ∧
        rt.state.state.currentRound < s.currentRound := by
    cases call with
    | completedRound completed =>
        obtain ⟨committed, hcommitted⟩ := onOk_eq_some_iff.1 hok
        exact commitAndActivate_round h (fun _ _ => stageCompletedReputationRound_staged)
          hcommitted rfl
    | attestedCheckpoint attested completed =>
        obtain ⟨committed, hcommitted⟩ := onOk_eq_some_iff.1 hok
        exact commitAndActivate_round h (fun _ _ => stageReputationBlock_staged) hcommitted rfl
    | completedCheckpointRound completed => exact absurd trivial hbefore
    | completedCheckpointRoundWithEpoch completed policy => exact absurd trivial hbefore
  have hvalid := h.valid record hepoch
  obtain ⟨opened, hopened, rfl, -⟩ := (openDurable_spec hrecoverable initialState).ends
  have hrestored : files'.restoreEpoch env.hasher = .ok (some record) :=
    restoreEpoch_eq_ok (hfiles.trans hepoch) (by simp [hvalid.valid])
  rintro ⟨process, hresult, hnone | ⟨other, hother, hround, -⟩⟩
  · rw [hrestored] at hnone
    cases hnone
  · rw [hrestored] at hother
    obtain rfl := Option.some.inj (Except.ok.inj hother)
    obtain rfl := Except.ok.inj (hresult.symm.trans hopened)
    have hsame := (verifyEpochState_spec (hvalid.accepted
      { rt.state with recoveryRequired := false } rfl rfl)).2
    rw [← hround, hsame] at hlater
    exact lt_irrefl _ hlater

/-- A process that has to be opened again activates nothing. -/
theorem activateWeights_recoveryRequired {durable : Files} {ingress : Output.LiveIngress}
    (h : process.recoveryRequired = true) :
    (finish (process.activateWeights hasher ingress) durable).1.1 = .error .recoveryRequired := by
  unfold DurablePorState.activateWeights
  rw [if_pos h]
  rfl

/-- **Another try at the activation** keeps what holds along a run. -/
theorem Kept.retryWeightActivation {outcome : PorWeightActivationOutcome}
    (h : Kept env.hasher rt.state rt.epochRecord files)
    (hok : rt.retryWeightActivation env files = (.ok outcome, next, files')) :
    Kept env.hasher next.state next.epochRecord files' := by
  obtain ⟨ingress, hpublished⟩ := publishFinalizedOutput_snd env.hasher rt
  unfold PorRuntime.retryWeightActivation at hok
  dsimp only at hok
  rw [hpublished] at hok
  split at hok
  · cases hok
  split at hok
  · obtain ⟨-, heq⟩ := Prod.mk.inj hok
    obtain ⟨rfl, rfl⟩ := Prod.mk.inj heq
    exact h
  · obtain ⟨hactivated, heq⟩ := Prod.mk.inj hok
    obtain ⟨rfl, rfl⟩ := Prod.mk.inj heq
    have hactivated := mapError_eq_ok.1 hactivated
    have hhealth : rt.state.recoveryRequired = false := by
      by_contra hrequired
      rw [activateWeights_recoveryRequired (by simpa using hrequired)] at hactivated
      cases hactivated
    obtain ⟨chain, hstored⟩ := h.stored hhealth
    exact Kept.activateWeights hstored h.epoch h.valid ingress

/-! ### Runs -/

/-- **Runs of the runtime**, from an empty directory: commits that are permitted and return `Ok`.
In between the host replays blocks or changes the membership through `ingress_mut`, tries an
activation again, or stops and opens the runtime from its files. -/
inductive PorRuns (env : PorEnv) (crypto : RatingCrypto)
    (permitted : PorRuntime → PorCommit crypto → Prop) : PorRuntime → PorFiles → Prop where
  | opened {rt : PorRuntime} {files : PorFiles} (initialState : ReputationState)
      (ingress : Output.LiveIngress) (config : PorConfig) (shardId : List Byte) (wavelength : ℕ)
      (hok : openRuntime env.hasher ⟨.empty, none⟩ initialState ingress config shardId wavelength =
        (.ok rt, files)) : PorRuns env crypto permitted rt files
  | committed {rt next : PorRuntime} {files files' : PorFiles}
      (h : PorRuns env crypto permitted rt files) (call : PorCommit crypto)
      (hpermitted : permitted rt call) (hok : rt.committed env files call = some (next, files')) :
      PorRuns env crypto permitted next files'
  | hosted {rt : PorRuntime} {files : PorFiles} (h : PorRuns env crypto permitted rt files)
      (ingress : Output.LiveIngress) :
      PorRuns env crypto permitted { rt with ingress := ingress } files
  | retried {rt next : PorRuntime} {files files' : PorFiles} {outcome : PorWeightActivationOutcome}
      (h : PorRuns env crypto permitted rt files)
      (hok : rt.retryWeightActivation env files = (.ok outcome, next, files')) :
      PorRuns env crypto permitted next files'
  | reopened {rt next : PorRuntime} {files files' : PorFiles}
      (h : PorRuns env crypto permitted rt files) (initialState : ReputationState)
      (ingress : Output.LiveIngress) (config : PorConfig) (shardId : List Byte) (wavelength : ℕ)
      (hok : openRuntime env.hasher files initialState ingress config shardId wavelength =
        (.ok next, files')) : PorRuns env crypto permitted next files'

theorem PorRuns.kept (h : PorRuns env crypto (fun rt call => call.BeforeEpoch rt) rt files) :
    Kept env.hasher rt.state rt.epochRecord files := by
  induction h with
  | opened initialState ingress config shardId wavelength hok =>
      refine openRuntime_spec (fun process hresult => ⟨?_, by simp⟩) hok
      rcases (openDurable_unstarted unstarted_empty initialState).ends with ⟨_, -, herror⟩ |
        ⟨opened, hopened, -, hstored⟩
      · rw [hresult] at herror
        cases herror
      · obtain rfl := Except.ok.inj (hresult.symm.trans hopened)
        exact hstored
  | committed h call hpermitted hok ih => exact ih.committed hpermitted hok
  | hosted h ingress ih => exact ih
  | retried h hok ih => exact ih.retryWeightActivation hok
  | reopened h initialState ingress config shardId wavelength hok ih =>
      refine openRuntime_spec (fun process hresult => ?_) hok
      obtain ⟨opened, hopened, hstate, -, -, hstored⟩ :=
        (openDurable_spec ih.recoverable initialState).ends
      obtain rfl := Except.ok.inj (hresult.symm.trans hopened)
      rw [ih.epoch, hstate]
      exact ⟨hstored, ih.valid⟩

/-- **After commits that leave a recorded epoch alone, the runtime can be opened again.** -/
theorem restarts_of_porRuns (h : PorRuns env crypto (fun rt call => call.BeforeEpoch rt) rt files)
    (initialState : ReputationState) : Restarts env.hasher initialState files :=
  h.kept.restarts initialState

/-! ### A run that strands its epoch -/

/-- Several commits that return `Ok`. -/
def PorRuntime.commits (env : PorEnv) (start : PorRuntime × PorFiles)
    (calls : List (PorCommit crypto)) : Option (PorRuntime × PorFiles) :=
  calls.foldlM (fun out call => out.1.committed env out.2 call) start

/-- A list of commits that are permitted anywhere continues a run. -/
theorem PorRuns.commits {permitted : PorRuntime → PorCommit crypto → Prop}
    {calls : List (PorCommit crypto)} (h : PorRuns env crypto permitted rt files)
    (hpermitted : ∀ call ∈ calls, ∀ rt, permitted rt call)
    (hok : PorRuntime.commits env (rt, files) calls = some (next, files')) :
    PorRuns env crypto permitted next files' := by
  induction calls generalizing rt files with
  | nil =>
      obtain ⟨rfl, rfl⟩ := Prod.mk.inj (Option.some.inj hok)
      exact h
  | cons call calls ih =>
      obtain ⟨hcall, hcalls⟩ := List.forall_mem_cons.1 hpermitted
      obtain ⟨⟨mid, files⟩, hout, hok⟩ := Option.bind_eq_some_iff.1 hok
      exact ih (h.committed call (hcall rt) hout) hcalls hok

theorem eq_of_fst_toOption {ε α β : Type} {out : Except ε α × β} {a : α}
    (h : out.1.toOption = some a) : out = (.ok a, out.2) :=
  Prod.ext (Codec.eq_ok_of_toOption h) rfl

open Blocklace (signedId sampleId)

/-- The chain of the window with carriers of some claims, and two blocks more. -/
def runtimeChain (claims : List CordialEquivocationEvidence) : List Block :=
  windowChain 16 (carrierPayload claims) ++ [⟨signedId 17 3, ⟨[], [signedId 16 3]⟩⟩,
    ⟨signedId 18 3, ⟨[], [signedId 17 3]⟩⟩]

/-- An ingress with that chain and one validator. -/
def runtimeIngress (claims : List CordialEquivocationEvidence) : Output.LiveIngress :=
  { Output.LiveIngress.withConsensusView 0 (.single ⟨[3]⟩ 5) with
    mirror := ⟨(Blocklace.new 0).growBy (runtimeChain claims), ∅⟩ }

/-- The keys of the window. -/
def runtimeState : ReputationState :=
  (((ReputationState.new 0).setReputation ⟨[1]⟩ 200000000).setReputation ⟨[2]⟩
    200000000).setReputation ⟨[3]⟩ 600000000

/-- The first checkpoint of the chain. -/
def runtimeCheckpoint : FinalizedPrefixCheckpoint :=
  ⟨1, 16, finalizedPrefixHash sumHasher
    ((windowChain 16 []).map fun block => block.identity.consensusIdentity), sampleId 16 3⟩

/-- The hashes of the chain and of the claims in it. -/
def runtimeEnv (claims : List CordialEquivocationEvidence) : PorEnv where
  hasher := sumHasher
  crypto := Blocklace.listedCrypto (runtimeChain claims ++
    claims.flatMap EquivocationEvidence.blocks)
  bincode := carrierBincode

/-- A runtime over the chain, from an empty directory. -/
def runtimeOpened (claims : List CordialEquivocationEvidence) :
    Except PorRuntimeError PorRuntime × PorFiles :=
  openRuntime (runtimeEnv claims).hasher ⟨.empty, none⟩ runtimeState (runtimeIngress claims)
    .default [9] 3

theorem porRuns_runtimeOpened {claims : List CordialEquivocationEvidence}
    {permitted : PorRuntime → PorCommit crypto → Prop}
    (h : (runtimeOpened claims).1.toOption = some rt) :
    PorRuns (runtimeEnv claims) crypto permitted rt (runtimeOpened claims).2 :=
  .opened runtimeState (runtimeIngress claims) .default [9] 3 (eq_of_fst_toOption h)

theorem nextWave_positive : (1 : U64) ≠ 0 := Fin.ne_of_val_ne Nat.one_ne_zero

/-- A round without ratings for the checkpoint, committed with an epoch. -/
def epochCalls : List (PorCommit crypto) :=
  [.completedCheckpointRoundWithEpoch (.new runtimeCheckpoint ⟨1, []⟩ .empty runtimeState)
    ⟨1, nextWave_positive⟩]

/-- The next round, in the wave format. -/
def waveCall : PorCommit crypto :=
  .completedRound ⟨⟨1, 2⟩, ⟨2, []⟩, .allAuthorizedRaters, none, .empty, .empty⟩

/-- The commits over a runtime that was just opened. -/
def runtimeRun (calls : List (PorCommit crypto)) : Option (PorRuntime × PorFiles) := do
  let rt ← (runtimeOpened []).1.toOption
  PorRuntime.commits (runtimeEnv []) (rt, (runtimeOpened []).2) calls

theorem porRuns_runtimeRun {permitted : PorRuntime → PorCommit crypto → Prop}
    {calls : List (PorCommit crypto)} (hpermitted : ∀ call ∈ calls, ∀ rt, permitted rt call)
    (h : runtimeRun calls = some (rt, files)) : PorRuns (runtimeEnv []) crypto permitted rt files := by
  unfold runtimeRun at h
  obtain ⟨opened, hopened, hok⟩ := Option.bind_eq_some_iff.1 h
  exact (porRuns_runtimeOpened hopened).commits hpermitted hok

/-- The run records an epoch, and the next commit returns `Ok`. -/
theorem runtimeRun_epochCalls : ∃ rt files,
    runtimeRun (epochCalls : List (PorCommit keyedCrypto)) = some (rt, files) ∧
      rt.epochRecord.isSome = true ∧ ∃ next files', rt.committed (runtimeEnv []) files
        (waveCall : PorCommit keyedCrypto) = some (next, files') := by
  have hrun : (runtimeRun (epochCalls : List (PorCommit keyedCrypto))).any (fun out =>
      out.1.epochRecord.isSome && (out.1.committed (runtimeEnv []) out.2
        (waveCall : PorCommit keyedCrypto)).isSome) = true := by decide +kernel
  obtain ⟨⟨rt, files⟩, hok, hrun⟩ := (Option.any_eq_true _ _).1 hrun
  obtain ⟨hepoch, hcommitted⟩ := Bool.and_eq_true_iff.1 hrun
  obtain ⟨⟨next, files'⟩, hcommitted⟩ := Option.isSome_iff_exists.1 hcommitted
  exact ⟨rt, files, hok, hepoch, next, files', hcommitted⟩

/-- A run that ends with a recorded epoch, and can be opened again. -/
theorem restarts_of_porRuns_epoch : ∃ rt files,
    PorRuns (runtimeEnv []) keyedCrypto (fun rt call => call.BeforeEpoch rt) rt files ∧
      rt.epochRecord.isSome = true ∧ Restarts sumHasher runtimeState files := by
  obtain ⟨rt, files, hok, hepoch, -⟩ := runtimeRun_epochCalls
  have hruns : PorRuns (runtimeEnv []) keyedCrypto (fun rt call => call.BeforeEpoch rt) rt files :=
    porRuns_runtimeRun (by simp [epochCalls, PorCommit.BeforeEpoch]) hok
  exact ⟨rt, files, hruns, hepoch, restarts_of_porRuns hruns runtimeState⟩

/-- **The files of a run need not be accepted by the next start.** -/
theorem porRuns_can_strand_epoch :
    ¬ ∀ (env : PorEnv) (crypto : RatingCrypto) (rt : PorRuntime) (files : PorFiles)
      (initialState : ReputationState), PorRuns env crypto (fun _ _ => True) rt files →
        Restarts env.hasher initialState files := by
  intro h
  obtain ⟨rt, files, hok, hepoch, next, files', hcommitted⟩ := runtimeRun_epochCalls
  obtain ⟨record, hrecord⟩ := Option.isSome_iff_exists.1 hepoch
  have hruns : PorRuns (runtimeEnv []) keyedCrypto (fun _ _ => True) rt files :=
    porRuns_runtimeRun (fun _ _ _ => trivial) hok
  have hkept : PorRuns (runtimeEnv []) keyedCrypto (fun rt call => call.BeforeEpoch rt) rt files :=
    porRuns_runtimeRun (by simp [epochCalls, PorCommit.BeforeEpoch]) hok
  exact hkept.kept.not_restarts hrecord (by simp [waveCall, PorCommit.BeforeEpoch, hrecord])
    hcommitted runtimeState
    (h (runtimeEnv []) keyedCrypto next files' runtimeState (hruns.committed waveCall trivial hcommitted))

end CordialMiners.Reputation
