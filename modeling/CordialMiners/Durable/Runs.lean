/-
# Runs of the durable state

The calls of `por/persistence.rs` over whole runs, with a crash in any of them.

A process opens the stores, commits and activates.  A crash leaves the files after any
step, of a call, of the first opening, or of the opening that makes up for an earlier crash.
Along every run the files say what the process knows (`Running.stored`), and opening after a
crash finds the state before the call or the staged one (`openDurable_after_crash`).
-/

import CordialMiners.Durable.State

namespace CordialMiners.Reputation

open Storage Storage.Program

/-- A call of the durable state. -/
inductive DurableCall (crypto : RatingCrypto) where
  | completedRound (completed : CompletedPorRatingRound) (config : PorConfig) (shardId : List Byte)
  | completedCheckpointRound (completed : CompletedCheckpointRatingRound) (config : PorConfig)
      (shardId : List Byte)
  | attestedCheckpoint (attested : AttestedPorCheckpoint crypto)
      (completed : CompletedPorRatingRound) (config : PorConfig) (shardId : List Byte)
  | activate (ingress : Output.LiveIngress)
  | restore (ingress : Output.LiveIngress)

variable {crypto : RatingCrypto} {hasher : List Byte → ContentHash} {files t : Files}
  {process : DurablePorState} {chain : List ReputationBlock}

section Hasher

variable (hasher : List Byte → ContentHash)

/-- The state that a call stages. -/
def DurableCall.staged (s : ReputationState) : DurableCall crypto → Option ReputationState
  | .completedRound completed config shardId =>
      (stageCompletedReputationRound hasher completed s config shardId).toOption.map Prod.fst
  | .completedCheckpointRound completed config shardId =>
      (stageCompletedCheckpointRound hasher completed s config shardId).toOption.map Prod.fst
  | .attestedCheckpoint attested completed config shardId =>
      (stageAttestedCheckpoint hasher completed s config shardId attested.block).toOption.map
        Prod.fst
  | .activate _ => none
  | .restore _ => none

/-- The record that a call activates. -/
def DurableCall.desired (process : DurablePorState) :
    DurableCall crypto → Option PorWeightActivationRecord
  | .activate ingress => (process.desiredActivation hasher ingress).toOption
  | _ => none

/-- What a call does to the files and to the process. -/
def DurablePorState.call (process : DurablePorState) : DurableCall crypto →
    Program Files Empty (Except DurablePorStateError Unit × DurablePorState)
  | .completedRound completed config shardId => do
      let (result, process) ← process.applyCompletedRound hasher completed config shardId
      pure (result.map fun _ => (), process)
  | .completedCheckpointRound completed config shardId => do
      let (result, process) ← process.applyCompletedCheckpointRound hasher completed config shardId
      pure (result.map fun _ => (), process)
  | .attestedCheckpoint attested completed config shardId => do
      let (result, process) ← process.applyAttestedCheckpoint hasher attested completed config
        shardId
      pure (result.map fun _ => (), process)
  | .activate ingress => do
      let (result, process, _) ← process.activateWeights hasher ingress
      pure (result.map fun _ => (), process)
  | .restore ingress =>
      let (result, process, _) := process.restoreActivatedWeights ingress
      pure (result.map fun _ => (), process)

/-- A state and a record that a call can lead to: each is the old one or the new one. -/
def DurableCall.Leaves (call : DurableCall crypto) (process : DurablePorState)
    (s : ReputationState) (activated : Option PorWeightActivationRecord) : Prop :=
  (s = process.state ∨ call.staged hasher process.state = some s) ∧
    (activated = process.activatedWeights ∨
      ∃ desired, call.desired hasher process = some desired ∧ activated = some desired)

/-! ### Runs -/

/-- Files that opening a fresh directory leaves, however often it crashes. -/
inductive Booting : Files → Prop where
  | empty : Booting .empty
  | crashed {files t : Files} (h : Booting files) (initialState : ReputationState)
      (ht : t ∈ (openDurable hasher initialState).crashes files) : Booting t

/-- Files that a crash in a call leaves, and then crashes while opening. -/
inductive Crashed (process : DurablePorState) (call : DurableCall crypto) (files : Files) :
    Files → Prop where
  | call {t : Files} (ht : t ∈ (process.call hasher call).crashes files) :
      Crashed process call files t
  | opening {t u : Files} (h : Crashed process call files t) (initialState : ReputationState)
      (hu : u ∈ (openDurable hasher initialState).crashes t) : Crashed process call files u

/-- **Runs**: processes and files that calls lead to, with crashes in between. -/
inductive Running (crypto : RatingCrypto) : DurablePorState → Files → Prop where
  | opened {files : Files} {process : DurablePorState} (h : Booting hasher files)
      (initialState : ReputationState)
      (hok : (openDurable hasher initialState files).result = .ok process) :
      Running crypto process ((openDurable hasher initialState).final files)
  | called {files : Files} {process next : DurablePorState} (h : Running crypto process files)
      (call : DurableCall crypto)
      (hok : (process.call hasher call files).result = .ok (.ok (), next)) :
      Running crypto next ((process.call hasher call).final files)
  | recovered {files t : Files} {process next : DurablePorState} (h : Running crypto process files)
      (call : DurableCall crypto) (hcrash : Crashed hasher process call files t)
      (initialState : ReputationState)
      (hok : (openDurable hasher initialState t).result = .ok next) :
      Running crypto next ((openDurable hasher initialState).final t)

end Hasher

/-! ### One call -/

/-- **A transition that is staged and committed.** -/
theorem applyTransition_spec (h : Stored hasher files process chain)
    {transition : ReputationState → Except PorError (ReputationState × AppliedPorReputationRound)}
    (hstages : ∀ staged applied, transition process.state = .ok (staged, applied) →
      staged = process.state.commitAuditedBlock applied.block ∧
        process.state.Staged hasher applied.block) :
    (process.applyTransition hasher transition).Spec files
      (fun t => ∃ s, (s = process.state ∨ (transition process.state).toOption.map Prod.fst = some s) ∧
        Recoverable hasher t s process.activatedWeights)
      (Returns fun out t => (∃ error, out.1 = .error error) ∧
          (∀ staged applied, transition process.state = .ok (staged, applied) →
            ∃ error, encodeReputationStateSnapshot hasher staged = .error error) ∨
        ∃ staged applied history, transition process.state = .ok (staged, applied) ∧
          out = (.ok applied, { process with history := history, state := staged }) ∧
          ∃ chain, Stored hasher t out.2 chain) := by
  have hbefore : ∃ s, (s = process.state ∨
      (transition process.state).toOption.map Prod.fst = some s) ∧
        Recoverable hasher files s process.activatedWeights := ⟨_, Or.inl rfl, h.recoverable⟩
  unfold DurablePorState.applyTransition
  rw [if_neg (by simp [h.healthy])]
  cases htransition : transition process.state with
  | error error =>
      rw [htransition] at hbefore
      exact Spec.pure_returns hbefore (Or.inl ⟨⟨_, rfl⟩, by simp⟩)
  | ok out =>
      obtain ⟨staged, applied⟩ := out
      obtain ⟨hcommit, hblock⟩ := hstages staged applied htransition
      refine (commitStaged_spec h hcommit hblock).mono (fun t ht => ?_) fun r t _ hr => ?_
      · rcases ht with ht | ht
        · exact ⟨_, Or.inl rfl, ht⟩
        · exact ⟨_, Or.inr rfl, ht⟩
      · obtain ⟨out, rfl, ⟨error, hencode, rfl, -⟩ | ⟨history, rfl, hstored⟩⟩ := hr
        · refine ⟨_, rfl, Or.inl ⟨⟨_, rfl⟩, fun staged' applied' hstaged => ⟨error, ?_⟩⟩⟩
          obtain ⟨rfl, -⟩ := Prod.mk.inj (Except.ok.inj hstaged)
          exact hencode
        · exact ⟨_, rfl, Or.inr ⟨staged, applied, history, rfl, rfl, hstored⟩⟩

/-- A call that commits a transition. -/
theorem commit_spec (h : Stored hasher files process chain) {call : DurableCall crypto}
    {transition : ReputationState → Except PorError (ReputationState × AppliedPorReputationRound)}
    (hstages : ∀ staged applied, transition process.state = .ok (staged, applied) →
      staged = process.state.commitAuditedBlock applied.block ∧
        process.state.Staged hasher applied.block)
    (hstaged : call.staged hasher process.state =
      (transition process.state).toOption.map Prod.fst) :
    (do
        let (result, next) ← process.applyTransition hasher transition
        pure (result.map fun _ => (), next) :
        Program Files Empty (Except DurablePorStateError Unit × DurablePorState)).Spec files
      (fun t => ∃ s activated, call.Leaves hasher process s activated ∧
        Recoverable hasher t s activated)
      (Returns fun out t => (∃ error, out.1 = .error error) ∨
        ∃ chain, Stored hasher t out.2 chain) := by
  have hleaves : ∀ t, (∃ s, (s = process.state ∨
      (transition process.state).toOption.map Prod.fst = some s) ∧
        Recoverable hasher t s process.activatedWeights) →
      ∃ s activated, call.Leaves hasher process s activated ∧ Recoverable hasher t s activated := by
    rintro t ⟨s, hs, ht⟩
    exact ⟨s, _, ⟨hs.imp_right hstaged.trans, Or.inl rfl⟩, ht⟩
  refine Spec.bind_returns ((applyTransition_spec h hstages).mono hleaves fun _ _ _ hr => hr)
    fun out t ht hout => ?_
  obtain ⟨result, next⟩ := out
  rcases hout with ⟨⟨error, rfl⟩, -⟩ | ⟨_, _, _, -, -, hstored⟩
  · exact Spec.pure_returns ht (Or.inl ⟨error, rfl⟩)
  · exact Spec.pure_returns ht (Or.inr hstored)

/-- **A call** leaves each of the two files as it was or as the call wants it, whenever it is
stopped. -/
theorem DurablePorState.call_spec (h : Stored hasher files process chain)
    (call : DurableCall crypto) :
    (process.call hasher call).Spec files
      (fun t => ∃ s activated, call.Leaves hasher process s activated ∧
        Recoverable hasher t s activated)
      (Returns fun out t => (∃ error, out.1 = .error error) ∨
        ∃ chain, Stored hasher t out.2 chain) := by
  cases call with
  | completedRound completed config shardId =>
      exact commit_spec h (fun _ _ => stageCompletedReputationRound_staged) rfl
  | completedCheckpointRound completed config shardId =>
      exact commit_spec h (fun _ _ => stageCompletedCheckpointRound_staged) rfl
  | attestedCheckpoint attested completed config shardId =>
      exact commit_spec h (fun _ _ => stageReputationBlock_staged) rfl
  | activate ingress =>
      have hleaves : ∀ t, (Recoverable hasher t process.state process.activatedWeights ∨
          ∃ desired, process.desiredActivation hasher ingress = .ok desired ∧
            Recoverable hasher t process.state (some desired)) →
          ∃ s activated, (DurableCall.activate ingress : DurableCall crypto).Leaves hasher process s
            activated ∧ Recoverable hasher t s activated := by
        rintro t (ht | ⟨desired, hdesired, ht⟩)
        · exact ⟨_, _, ⟨Or.inl rfl, Or.inl rfl⟩, ht⟩
        · exact ⟨_, _, ⟨Or.inl rfl, Or.inr ⟨desired, congrArg Except.toOption hdesired, rfl⟩⟩, ht⟩
      refine Spec.bind_returns ((activateWeights_spec h ingress).mono hleaves fun _ _ _ hr => hr)
        fun out t ht hout => ?_
      obtain ⟨result, next, ingress⟩ := out
      rcases hout.2 with ⟨⟨error, rfl⟩, -⟩ | hstored
      · exact Spec.pure_returns ht (Or.inl ⟨error, rfl⟩)
      · exact Spec.pure_returns ht (Or.inr hstored)
  | restore ingress =>
      have hbefore : ∃ s activated, (DurableCall.restore ingress : DurableCall crypto).Leaves hasher
          process s activated ∧ Recoverable hasher files s activated :=
        ⟨_, _, ⟨Or.inl rfl, Or.inl rfl⟩, h.recoverable⟩
      exact Spec.pure_returns hbefore (Or.inr ⟨chain, h.restoreActivatedWeights ingress⟩)

/-! ### Runs -/

/-- A fresh directory, however often opening it crashed. -/
theorem Booting.spec (h : Booting hasher files) :
    Unstarted hasher files ∨ ∃ s, Recoverable hasher files s none := by
  induction h with
  | empty => exact Or.inl unstarted_empty
  | crashed h initialState ht ih =>
      rcases ih with hfiles | ⟨s, hfiles⟩
      · exact ((openDurable_unstarted hfiles initialState).crash _ ht).imp_right fun ht => ⟨_, ht⟩
      · exact Or.inr ⟨s, (openDurable_spec hfiles initialState).crash _ ht⟩

/-- What a crash in a call leaves stays through crashes while opening. -/
theorem Crashed.spec {call : DurableCall crypto} (hstored : Stored hasher files process chain)
    (h : Crashed hasher process call files t) :
    ∃ s activated, call.Leaves hasher process s activated ∧ Recoverable hasher t s activated := by
  induction h with
  | call ht => exact (DurablePorState.call_spec hstored call).crash _ ht
  | opening h initialState hu ih =>
      obtain ⟨s, activated, hleaves, ht⟩ := ih
      exact ⟨s, activated, hleaves, (openDurable_spec ht initialState).crash _ hu⟩

/-- **Along a run the files say what the process knows.** -/
theorem Running.stored (h : Running hasher crypto process files) :
    ∃ chain, Stored hasher files process chain := by
  induction h with
  | opened h initialState hok =>
      rcases h.spec with hfiles | ⟨s, hfiles⟩
      · rcases (openDurable_unstarted hfiles initialState).ends with ⟨_, -, herror⟩ |
          ⟨process, hopened, -, hstored⟩
        · rw [hok] at herror
          cases herror
        · obtain rfl := Except.ok.inj (hok.symm.trans hopened)
          exact hstored
      · obtain ⟨process, hopened, -, -, -, hstored⟩ := (openDurable_spec hfiles initialState).ends
        obtain rfl := Except.ok.inj (hok.symm.trans hopened)
        exact hstored
  | called h call hok ih =>
      obtain ⟨chain, hstored⟩ := ih
      obtain ⟨out, hcalled, hout⟩ := (DurablePorState.call_spec hstored call).ends
      obtain rfl := Except.ok.inj (hok.symm.trans hcalled)
      rcases hout with ⟨error, herror⟩ | hstored
      · cases herror
      · exact hstored
  | recovered h call hcrash initialState hok ih =>
      obtain ⟨chain, hstored⟩ := ih
      obtain ⟨s, activated, -, ht⟩ := hcrash.spec hstored
      obtain ⟨process, hopened, -, -, -, hstored⟩ := (openDurable_spec ht initialState).ends
      obtain rfl := Except.ok.inj (hok.symm.trans hopened)
      exact hstored

/-- **Crash safety.**  After any run and a crash after any step of the next call, and then
perhaps of openings, opening succeeds: the state is the one before the call or the one it
staged, the history ends with the latest block and its files are one chain of consecutive
rounds, and the record is the old or the new one. -/
theorem openDurable_after_crash (h : Running hasher crypto process files)
    (call : DurableCall crypto) (hcrash : Crashed hasher process call files t)
    (initialState : ReputationState) :
    ∃ recovered, (openDurable hasher initialState t).result = .ok recovered ∧
      (recovered.state = process.state ∨
        call.staged hasher process.state = some recovered.state) ∧
      recovered.history.tip = recovered.state.latestBlock ∧
      (∃ chain, chain.getLast? = recovered.state.latestBlock ∧
        Tidy hasher ((openDurable hasher initialState).final t) chain) ∧
      (recovered.activatedWeights = process.activatedWeights ∨
        ∃ desired, call.desired hasher process = some desired ∧
          recovered.activatedWeights = some desired) := by
  obtain ⟨chain, hstored⟩ := h.stored
  obtain ⟨s, activated, ⟨hs, hactivated⟩, ht⟩ := hcrash.spec hstored
  obtain ⟨recovered, hopened, rfl, rfl, -, chain', hrecovered⟩ :=
    (openDurable_spec ht initialState).ends
  exact ⟨recovered, hopened, hs, by rw [hrecovered.history],
    ⟨chain', hrecovered.last, hrecovered.tidy⟩, hactivated⟩

/-- A round without ratings, committed. -/
def quietCall : DurableCall keyedCrypto := .completedRound quietRound .default [1]

/-- The hypotheses of `openDurable_after_crash` are met: a fresh directory is opened, and the
first commit crashes after any of its steps. -/
theorem openDurable_after_crash_quiet :
    (quietCall.staged keyedCrypto.hasher ratedState).isSome ∧
    ∃ process files, Running keyedCrypto.hasher keyedCrypto process files ∧
      process.state = ratedState ∧
      ∀ t ∈ (process.call keyedCrypto.hasher quietCall).crashes files,
        ∃ recovered, (openDurable keyedCrypto.hasher (.new 0) t).result = .ok recovered ∧
          (recovered.state = ratedState ∨
            quietCall.staged keyedCrypto.hasher ratedState = some recovered.state) ∧
          recovered.history.tip = recovered.state.latestBlock := by
  have hstaged : (quietCall.staged keyedCrypto.hasher ratedState).isSome = true := by
    decide +kernel
  have hencode : (encodeReputationStateSnapshot keyedCrypto.hasher ratedState).isOk = true := by
    decide +kernel
  obtain ⟨bytes, hencode⟩ := Codec.exists_eq_ok_of_isOk hencode
  rcases (@openDurable_unstarted keyedCrypto.hasher _ unstarted_empty ratedState).ends with
    ⟨error, herror, -⟩ | ⟨process, hopened, hstate, -⟩
  · rw [hencode] at herror
    cases herror
  have hrunning : Running keyedCrypto.hasher keyedCrypto process _ := .opened .empty ratedState hopened
  refine ⟨hstaged, process, _, hrunning, hstate, fun t ht => ?_⟩
  obtain ⟨recovered, hrecovered, hs, htip, -⟩ :=
    openDurable_after_crash hrunning quietCall (.call ht) (.new 0)
  rw [hstate] at hs
  exact ⟨recovered, hrecovered, hs, htip⟩

end CordialMiners.Reputation
