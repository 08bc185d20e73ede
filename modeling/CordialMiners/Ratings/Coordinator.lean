/-
# A rating round from opening to closing

`PorRatingRoundCoordinator` of `por/lifecycle/mod.rs`, with the cutoff of
`por/lifecycle/cutoff.rs`.

A coordinator collects ratings, produces the batch of the local rater once, hands its
envelopes to a transport, and closes the round by quorum or by finality.  The source
keeps all of this in fields of one record, with four `expect`s on how they hang
together; a panic is `none`.

Of all such records only three stages occur (`RoundStage`): ratings are collected,
the local batch is on its way, the round is closed.  Every call leads from a stage to
a stage (`call_leads`), so no `expect` ever fails, the transport accepts every envelope
of the local batch once and in order, and a closed round stays as it is
(`rating_round_lifecycle`).
-/

import CordialMiners.Ratings.Attestation
import CordialMiners.Ratings.Completeness
import CordialMiners.Slashing.WavePolicy

namespace CordialMiners.Reputation

open Codec (bind_eq_ok check_eq_ok guard_eq_ok
  mapError_eq_ok)
open RoundSource (Produced)

/-! ### The cutoff -/

/-- `PorRatingCutoffError`. -/
inductive PorRatingCutoffError where
  | zeroWaveLag
  | requiredWaveOverflow (finalizedWave waveLag : U64)
  | cutoffNotReached (observedFinalizedWave requiredFinalizedWave : U64)
deriving DecidableEq, Repr

/-- `PorRatingRoundCutoffPolicy`: a lag of one wave at least. -/
structure PorRatingRoundCutoffPolicy where
  waveLag : U64
  nonzero : waveLag ≠ 0

namespace PorRatingRoundCutoffPolicy

/-- `new`. -/
def new (waveLag : U64) : Except PorRatingCutoffError PorRatingRoundCutoffPolicy :=
  if h : waveLag = 0 then .error .zeroWaveLag else .ok ⟨waveLag, h⟩

theorem defaultLag_nonzero : (1 : U64) ≠ 0 := Fin.ne_of_val_ne Nat.one_ne_zero

/-- `default`. -/
def default : PorRatingRoundCutoffPolicy := ⟨1, defaultLag_nonzero⟩

/-- `required_finalized_wave`. -/
def requiredFinalizedWave (policy : PorRatingRoundCutoffPolicy) (opened : FinalizedRatingRound) :
    Except PorRatingCutoffError U64 :=
  if h : opened.finalizedWave.val + policy.waveLag.val < 2 ^ 64 then .ok ⟨_, h⟩
  else .error (.requiredWaveOverflow opened.finalizedWave policy.waveLag)

/-- `ensure_reached`. -/
def ensureReached (policy : PorRatingRoundCutoffPolicy) (opened : FinalizedRatingRound)
    (observedFinalizedWave : U64) : Except PorRatingCutoffError U64 := do
  let requiredFinalizedWave ← policy.requiredFinalizedWave opened
  if observedFinalizedWave < requiredFinalizedWave then
    .error (.cutoffNotReached observedFinalizedWave requiredFinalizedWave)
  else .ok requiredFinalizedWave

theorem ensureReached_eq_ok {policy : PorRatingRoundCutoffPolicy}
    {opened : FinalizedRatingRound} {observed required : U64} :
    policy.ensureReached opened observed = .ok required ↔
      required.val = opened.finalizedWave.val + policy.waveLag.val ∧ required ≤ observed := by
  unfold ensureReached requiredFinalizedWave
  rw [bind_eq_ok]
  constructor
  · rintro ⟨wave, hwave, h⟩
    split_ifs at hwave with hfits
    obtain rfl := Except.ok.inj hwave
    rw [guard_eq_ok, not_lt] at h
    obtain ⟨hreached, h⟩ := h
    obtain rfl := Except.ok.inj h
    exact ⟨rfl, hreached⟩
  · rintro ⟨hrequired, hreached⟩
    refine ⟨required, ?_, ?_⟩
    · rw [dif_pos (hrequired ▸ required.isLt), Except.ok.injEq]
      exact Fin.ext hrequired.symm
    · rw [if_neg (not_lt.2 hreached)]

end PorRatingRoundCutoffPolicy

/-! ### The coordinator -/

/-- `PorRatingRoundError`. -/
inductive PorRatingRoundError where
  | rating (error : PorRatingError)
  | penalty (error : PorError)
  | collector (error : PorRatingCollectorError)
  | transport (error : ReceiveError)
  | quorum (error : PorRatingQuorumError)
  | cutoff (error : PorRatingCutoffError)
  | localBatchAlreadyProduced
  | localBatchNotProduced
  | pendingOutboundRatings (remaining : ℕ)
  | roundNotClosed
  | roundClosed
  | quorumNotReached (completedWeight requiredWeight : ℕ)
  | broadcast (delivered remaining : ℕ) (message : String)
deriving DecidableEq, Repr

/-- `PorRatingRoundStatus`. -/
inductive PorRatingRoundStatus where
  | open
  | closed
deriving DecidableEq, Repr

/-- `RatingEnvelopeBroadcaster`: the answer to an envelope, and the transport after it. -/
abbrev RatingEnvelopeBroadcaster (σ : Type) := List Byte → σ → Except String Unit × σ

/-- `PorRatingRoundCoordinator`. -/
structure PorRatingRoundCoordinator where
  blocklace : Blocklace
  output : OrderedFinalizedOutput
  opened : FinalizedRatingRound
  state : ReputationState
  config : PorConfig
  collector : Option RatingCollector
  localBatch : Option RatingBatch
  outboundEnvelopes : List (List Byte)
  nextOutbound : ℕ
  completedBatch : Option RatingBatch
  closeReason : Option PorRatingRoundCloseReason

namespace PorRatingRoundCoordinator

/-- The result of a call and the coordinator after it; `none` is a panic. -/
abbrev Called (α : Type) := Option (Except PorRatingRoundError α × PorRatingRoundCoordinator)

/-- Go on with a value, or return the error and leave the coordinator as it is. -/
def orReturn {α β : Type} (c : PorRatingRoundCoordinator) (r : Except PorRatingRoundError β)
    (k : β → Called α) : Called α :=
  match r with
  | .error error => some (.error error, c)
  | .ok b => k b

section Calls

variable (crypto : RatingCrypto)

/-- `new`. -/
def new (B : Blocklace) (output : OrderedFinalizedOutput) (opened : FinalizedRatingRound)
    (state : ReputationState) (config : PorConfig) :
    Except PorRatingRoundError PorRatingRoundCoordinator := do
  let collector ← (BlockProductionRatingCollector.new crypto B output state config
    opened).mapError .collector
  .ok ⟨B, output, opened, state, config, some collector, none, [], 0, none, none⟩

/-- `status`. -/
def status (c : PorRatingRoundCoordinator) : PorRatingRoundStatus :=
  if c.completedBatch.isSome then .closed else .open

/-- `pending_outbound`. -/
def pendingOutbound (c : PorRatingRoundCoordinator) : ℕ :=
  c.outboundEnvelopes.length - c.nextOutbound

/-- `require_open`. -/
def requireOpen (c : PorRatingRoundCoordinator) : Except PorRatingRoundError Unit :=
  if c.completedBatch.isSome then .error .roundClosed else .ok ()

/-- `require_close_prerequisites`. -/
def requireClosePrerequisites (c : PorRatingRoundCoordinator) :
    Except PorRatingRoundError Unit := do
  c.requireOpen
  if c.localBatch.isNone then .error .localBatchNotProduced
  else if c.pendingOutbound ≠ 0 then .error (.pendingOutboundRatings c.pendingOutbound)
  else .ok ()

/-- `quorum_progress`. -/
def quorumProgress (c : PorRatingRoundCoordinator) (policy : PorRatingRoundClosurePolicy) :
    Option (Except PorRatingRoundError PorRatingQuorumProgress) :=
  match c.requireOpen with
  | .error error => some (.error error)
  | .ok () => c.collector.map fun collector =>
      (policy.evaluate c.state collector).mapError .quorum

/-- `produce_local_batch`. -/
def produceLocalBatch (c : PorRatingRoundCoordinator) (rater : NodeId) (privateKey : List Byte) :
    Called RatingBatch :=
  c.orReturn c.requireOpen fun () =>
  if c.localBatch.isSome then some (.error .localBatchAlreadyProduced, c)
  else
    c.orReturn ((buildFinalizedBlockProductionRatingBatch crypto c.blocklace c.output c.opened rater
      c.state c.config privateKey).mapError .rating) fun batch =>
    c.orReturn ((encodeRatingBatch c.opened.finalizedWave batch).mapError .transport)
      fun outbound =>
    c.collector.bind fun collector =>
    orReturn { c with collector := some (collector.insertBatch batch).2 }
      ((collector.insertBatch batch).1.mapError .collector) fun () =>
    some (.ok batch, { c with
      collector := some (collector.insertBatch batch).2
      outboundEnvelopes := outbound
      nextOutbound := 0
      localBatch := some batch })

/-- `receive_envelope`. -/
def receiveEnvelope (c : PorRatingRoundCoordinator) (encoded : List Byte) : Called Unit :=
  c.orReturn c.requireOpen fun () =>
  c.collector.map fun collector => ((collector.receive encoded).1.mapError .transport,
    { c with collector := some (collector.receive encoded).2 })

/-- `finalize`. -/
def finalize (c : PorRatingRoundCoordinator) (reason : PorRatingRoundCloseReason) :
    Called RatingBatch :=
  c.collector.bind fun collector =>
  c.orReturn (collector.buildCompleteBatch.mapError .collector) fun batch =>
  some (.ok batch, { c with
    collector := none
    closeReason := some reason
    completedBatch := some batch })

/-- `close_if_quorum`. -/
def closeIfQuorum (c : PorRatingRoundCoordinator) (policy : PorRatingRoundClosurePolicy) :
    Called RatingBatch :=
  c.orReturn c.requireClosePrerequisites fun () =>
  (c.quorumProgress policy).bind fun progress =>
  c.orReturn progress fun progress =>
  if !progress.isReached then
    some (.error (.quorumNotReached progress.completedWeight progress.requiredWeight), c)
  else c.finalize (.quorum progress.completedWeight progress.requiredWeight)

/-- `close_at_finalized_wave`. -/
def closeAtFinalizedWave (c : PorRatingRoundCoordinator) (policy : PorRatingRoundCutoffPolicy)
    (observedFinalizedWave : U64) : Called RatingBatch :=
  c.orReturn c.requireClosePrerequisites fun () =>
  c.orReturn ((policy.ensureReached c.opened observedFinalizedWave).mapError .cutoff)
    fun requiredFinalizedWave =>
  c.finalize (.finalizedWaveCutoff observedFinalizedWave requiredFinalizedWave)

variable {σ : Type}

/-- The loop of `broadcast_pending`: why it ended, where it stands, and the transport. -/
def broadcastFrom (broadcaster : RatingEnvelopeBroadcaster σ) :
    List (List Byte) → ℕ → σ → Option String × ℕ × σ
  | [], next, world => (none, next, world)
  | envelope :: envelopes, next, world =>
      match broadcaster envelope world with
      | (.error message, world) => (some message, next, world)
      | (.ok (), world) => broadcastFrom broadcaster envelopes (next + 1) world

/-- `broadcast_pending`. -/
def broadcastPending (c : PorRatingRoundCoordinator) (broadcaster : RatingEnvelopeBroadcaster σ)
    (world : σ) : Called ℕ × σ :=
  match c.requireOpen with
  | .error error => (some (.error error, c), world)
  | .ok () =>
      if c.localBatch.isNone then (some (.error .localBatchNotProduced, c), world)
      else
        match broadcastFrom broadcaster (c.outboundEnvelopes.drop c.nextOutbound) c.nextOutbound
          world with
        | (some message, next, world) =>
            (some (.error (.broadcast (next - c.nextOutbound) (c.outboundEnvelopes.length - next)
              message), { c with nextOutbound := next }), world)
        | (none, next, world) =>
            (some (.ok (next - c.nextOutbound), { c with nextOutbound := next }), world)

/-- `into_completed`; `none` is the panic of `expect`. -/
def intoCompleted (env : PorEnv) (c : PorRatingRoundCoordinator) :
    Option (Except PorRatingRoundError CompletedPorRatingRound) :=
  match c.completedBatch with
  | none => some (.error .roundNotClosed)
  | some batch => c.closeReason.map fun closeReason => do
      let finalizedAuthorizations ← (finalizedAuthorizations env c.blocklace c.output
        c.opened).mapError .penalty
      .ok ⟨c.opened, batch, closeReason, none, finalizedAuthorizations, .empty⟩

end Calls

/-! ### Runs -/

/-- A call that may change the coordinator. -/
inductive Call (σ : Type) where
  | produceLocalBatch (rater : NodeId) (privateKey : List Byte)
  | broadcastPending (broadcaster : RatingEnvelopeBroadcaster σ)
  | receiveEnvelope (encoded : List Byte)
  | closeIfQuorum (policy : PorRatingRoundClosurePolicy)
  | closeAtFinalizedWave (policy : PorRatingRoundCutoffPolicy) (observedFinalizedWave : U64)

section Runs

variable {σ : Type} (crypto : RatingCrypto)

/-- What a call answers, without the value. -/
def Called.answer {α : Type} (called : Called α) : Called Unit :=
  called.map fun result => (result.1.map fun _ => (), result.2)

/-- One call, and the transport after it. -/
def call (c : PorRatingRoundCoordinator) (world : σ) : Call σ → Called Unit × σ
  | .produceLocalBatch rater privateKey => ((c.produceLocalBatch crypto rater privateKey).answer, world)
  | .broadcastPending broadcaster =>
      ((c.broadcastPending broadcaster world).1.answer, (c.broadcastPending broadcaster world).2)
  | .receiveEnvelope encoded => (c.receiveEnvelope encoded, world)
  | .closeIfQuorum policy => ((c.closeIfQuorum policy).answer, world)
  | .closeAtFinalizedWave policy observed => ((c.closeAtFinalizedWave policy observed).answer, world)

/-- One call after the other; `none` if one of them panics. -/
def run : List (Call σ) → PorRatingRoundCoordinator → σ → Option (PorRatingRoundCoordinator × σ)
  | [], c, world => some (c, world)
  | request :: requests, c, world =>
      (c.call crypto world request).1.bind fun result =>
        run requests result.2 (c.call crypto world request).2

end Runs

/-- A transport that also keeps what it has accepted. -/
def recorded {σ : Type} (broadcaster : RatingEnvelopeBroadcaster σ) :
    RatingEnvelopeBroadcaster (σ × List (List Byte)) := fun envelope world =>
  match broadcaster envelope world.1 with
  | (.error message, inner) => (.error message, inner, world.2)
  | (.ok (), inner) => (.ok (), inner, world.2 ++ [envelope])

/-- The same call over a transport that keeps what it has accepted. -/
def Call.recorded {σ : Type} : Call σ → Call (σ × List (List Byte))
  | .produceLocalBatch rater privateKey => .produceLocalBatch rater privateKey
  | .broadcastPending broadcaster => .broadcastPending (PorRatingRoundCoordinator.recorded broadcaster)
  | .receiveEnvelope encoded => .receiveEnvelope encoded
  | .closeIfQuorum policy => .closeIfQuorum policy
  | .closeAtFinalizedWave policy observed => .closeAtFinalizedWave policy observed

/-! ### Stages -/

/-- Where a round stands: what is collected, the local batch, and its envelopes. -/
inductive RoundStage where
  | collecting (collector : RatingCollector)
  | delivering (collector : RatingCollector) (batch : RatingBatch) (sent pending : List (List Byte))
  | closed (collector : RatingCollector) (batch : RatingBatch) (sent : List (List Byte))
      (completed : RatingBatch) (reason : PorRatingRoundCloseReason)

namespace RoundStage

/-- The record of a stage. -/
def coordinator (start : PorRatingRoundCoordinator) : RoundStage → PorRatingRoundCoordinator
  | collecting collector => { start with
      collector := some collector
      localBatch := none
      outboundEnvelopes := []
      nextOutbound := 0
      completedBatch := none
      closeReason := none }
  | delivering collector batch sent pending => { start with
      collector := some collector
      localBatch := some batch
      outboundEnvelopes := sent ++ pending
      nextOutbound := sent.length
      completedBatch := none
      closeReason := none }
  | closed _ batch sent completed reason => { start with
      collector := none
      localBatch := some batch
      outboundEnvelopes := sent
      nextOutbound := sent.length
      completedBatch := some completed
      closeReason := some reason }

/-- What the transport has accepted. -/
def sent : RoundStage → List (List Byte)
  | collecting _ => []
  | delivering _ _ sent _ => sent
  | closed _ _ sent _ _ => sent

end RoundStage

section Stages

variable (crypto : RatingCrypto) (start : PorRatingRoundCoordinator)

/-- The rules of the round. -/
abbrev rules : RatingRules :=
  waveRules crypto start.blocklace start.output start.state start.config start.opened

/-- What is collected is admissible in the round. -/
structure Collected (collector : RatingCollector) : Prop where
  rules : collector.rules = start.rules crypto
  sound : collector.Sound

/-- A local batch that was produced and collected, and its envelopes. -/
structure Delivers (collector : RatingCollector) (batch : RatingBatch)
    (envelopes : List (List Byte)) : Prop where
  collected : start.Collected crypto collector
  produced : ∃ rater privateKey, Produced (start.rules crypto) rater privateKey batch
  encoded : @encodeRatingBatch PorRatingCollectorError start.opened.finalizedWave batch =
    .ok envelopes
  held : ∀ rating ∈ batch.ratings, collector.ratings.lookup (collectorKey rating) = some rating

/-- Why a round may be closed. -/
def Justified (collector : RatingCollector) : PorRatingRoundCloseReason → Prop
  | .allAuthorizedRaters => False
  | .quorum completedWeight requiredWeight => ∃ policy progress,
      PorRatingRoundClosurePolicy.evaluate policy start.state collector = .ok progress ∧
        progress.isReached = true ∧ completedWeight = progress.completedWeight ∧
        requiredWeight = progress.requiredWeight
  | .finalizedWaveCutoff observed required => ∃ policy : PorRatingRoundCutoffPolicy,
      required.val = start.opened.finalizedWave.val + policy.waveLag.val ∧ required ≤ observed

/-- What holds at a stage. -/
def Valid : RoundStage → Prop
  | .collecting collector => start.Collected crypto collector
  | .delivering collector batch sent pending =>
      start.Delivers crypto collector batch (sent ++ pending)
  | .closed collector batch sent completed reason =>
      start.Delivers crypto collector batch sent ∧ collector.buildCompleteBatch = .ok completed ∧
        start.Justified collector reason

end Stages

section Steps

variable {σ : Type} {crypto : RatingCrypto} {start c : PorRatingRoundCoordinator}
  {collector collector' : RatingCollector} {batch completed : RatingBatch}
  {sent pending envelopes : List (List Byte)} {reason : PorRatingRoundCloseReason} {world : σ}
  {carried : List RatingRecord}

theorem new_ok {B : Blocklace} {output : OrderedFinalizedOutput} {opened : FinalizedRatingRound}
    {state : ReputationState} {config : PorConfig}
    (h : new crypto B output opened state config = .ok start) :
    start.blocklace = B ∧ start.output = output ∧ start.opened = opened ∧ start.state = state ∧
      start.config = config ∧
      ∃ collector, start = (RoundStage.collecting collector).coordinator start ∧
        start.Valid crypto (.collecting collector) := by
  unfold new at h
  rw [bind_eq_ok] at h
  obtain ⟨collector, hcollector, h⟩ := h
  rw [mapError_eq_ok, BlockProductionRatingCollector.new_eq_ok] at hcollector
  obtain ⟨-, -, rfl⟩ := hcollector
  obtain rfl := Except.ok.inj h
  refine ⟨rfl, rfl, rfl, rfl, rfl, _, rfl, rfl, fun k rating hrating => ?_⟩
  rw [OrderedMap.lookup_empty] at hrating
  exact absurd hrating (by simp)

/-- Growing keeps what is collected admissible. -/
theorem Collected.grows (h : start.Collected crypto collector)
    (hgrows : RatingCollector.Grows collector collector' carried) :
    start.Collected crypto collector' :=
  ⟨hgrows.rules.trans h.rules, hgrows.sound h.sound⟩

/-- Growing keeps the local batch. -/
theorem Delivers.grows (h : start.Delivers crypto collector batch envelopes)
    (hgrows : RatingCollector.Grows collector collector' carried) :
    start.Delivers crypto collector' batch envelopes :=
  ⟨h.collected.grows hgrows, h.produced, h.encoded,
    fun rating hrating => hgrows.kept _ _ (h.held rating hrating)⟩

/-- A collector of the round always builds its complete batch. -/
theorem Collected.buildCompleteBatch (h : start.Collected crypto collector) :
    collector.buildCompleteBatch = .ok ⟨start.opened.ratingRound, sortRatings
      (collector.ratings.values.filter fun rating => collector.isComplete rating.rater)⟩ := by
  rw [h.sound.buildCompleteBatch_eq (h.rules ▸ lawful_waveRules), h.rules]
  rfl

/-- A batch that is staged is there. -/
theorem held_of_stage {rules : RatingRules} {ratings : List RatingRecord}
    {accepted staged : AcceptedRatings}
    (h : RatingCollector.stage rules ratings accepted = .ok staged) :
    ∀ rating ∈ ratings, staged.lookup (collectorKey rating) = some rating := by
  induction ratings generalizing accepted with
  | nil => exact fun rating hrating => absurd hrating (by simp)
  | cons first ratings ih =>
      rw [RatingCollector.stage, check_eq_ok] at h
      intro rating hrating
      rcases List.mem_cons.1 hrating with rfl | hrating
      · have hgrows := RatingCollector.grows_stage
          (c := ⟨rules, accepted.insert (collectorKey rating) rating⟩) h.2
        refine hgrows.kept _ _ ?_
        dsimp only
        rw [OrderedMap.lookup_insert, if_pos rfl]
      · exact ih h.2 rating hrating

/-- A batch is taken whole, or the collector stays as it is. -/
theorem Collected.insertBatch (h : start.Collected crypto collector) (batch : RatingBatch) :
    (∃ error, collector.insertBatch batch = (.error error, collector)) ∨
      ∃ collector', collector.insertBatch batch = (.ok (), collector') ∧
        start.Collected crypto collector' ∧
        ∀ rating ∈ batch.ratings, collector'.ratings.lookup (collectorKey rating) = some rating := by
  unfold RatingCollector.insertBatch
  split_ifs with hround
  · exact .inl ⟨_, rfl⟩
  · cases hstage : RatingCollector.stage collector.rules batch.ratings collector.ratings with
    | error error => exact .inl ⟨error, rfl⟩
    | ok staged =>
        exact .inr ⟨_, rfl, h.grows (RatingCollector.grows_stage hstage), held_of_stage hstage⟩

/-- **The loop of `broadcast_pending`** over a recorded transport: an initial part of the
envelopes is accepted, all of them where nothing fails. -/
theorem broadcastFrom_recorded (broadcaster : RatingEnvelopeBroadcaster σ)
    (envelopes sent : List (List Byte)) (world : σ) :
    ∃ failure accepted left world', envelopes = accepted ++ left ∧
      (failure = none → left = []) ∧
      broadcastFrom (recorded broadcaster) envelopes sent.length (world, sent) =
        (failure, (sent ++ accepted).length, world', sent ++ accepted) := by
  induction envelopes generalizing sent world with
  | nil => exact ⟨none, [], [], world, rfl, fun _ => rfl, by simp [broadcastFrom]⟩
  | cons envelope envelopes ih =>
      unfold broadcastFrom recorded
      dsimp only
      rcases broadcaster envelope world with ⟨message | _, world'⟩
      · refine ⟨some message, [], envelope :: envelopes, world', rfl, fun h => absurd h (by simp), ?_⟩
        rw [List.append_nil]
      · obtain ⟨failure, accepted, left, world'', rfl, hleft, hloop⟩ := ih (sent ++ [envelope]) world'
        refine ⟨failure, envelope :: accepted, left, world'', rfl, hleft, ?_⟩
        rw [List.length_append, List.length_singleton, List.append_assoc] at hloop
        exact hloop

@[simp] theorem orReturn_error {α β : Type} (error : PorRatingRoundError) (k : β → Called α) :
    c.orReturn (.error error) k = some (.error error, c) := rfl

@[simp] theorem orReturn_ok {α β : Type} (b : β) (k : β → Called α) :
    c.orReturn (.ok b) k = k b := rfl

/-- A call led to a valid stage, and the transport has accepted what that stage says. -/
def Leads (crypto : RatingCrypto) (start : PorRatingRoundCoordinator)
    (called : Called Unit × (σ × List (List Byte))) : Prop :=
  ∃ answer stage world, start.Valid crypto stage ∧
    called = (some (answer, stage.coordinator start), world, stage.sent)

/-- A refusal leads nowhere. -/
theorem Leads.refused {stage : RoundStage} (h : start.Valid crypto stage)
    (error : PorRatingRoundError) (world : σ) :
    Leads crypto start (some (.error error, stage.coordinator start), world, stage.sent) :=
  ⟨_, stage, world, h, rfl⟩

theorem produceLocalBatch_leads {stage : RoundStage} (h : start.Valid crypto stage) (rater : NodeId)
    (privateKey : List Byte) (world : σ) :
    Leads crypto start (((stage.coordinator start).produceLocalBatch crypto rater privateKey).answer,
      world, stage.sent) := by
  cases stage with
  | closed collector batch sent completed reason => exact .refused h .roundClosed world
  | delivering collector batch sent pending =>
      exact .refused h .localBatchAlreadyProduced world
  | collecting collector =>
      unfold produceLocalBatch requireOpen
      dsimp only [RoundStage.coordinator]
      simp only [Option.isSome_none, Bool.false_eq_true, ↓reduceIte, orReturn_ok, Option.bind_some]
      cases hbuild : buildFinalizedBlockProductionRatingBatch crypto start.blocklace start.output
          start.opened rater start.state start.config privateKey with
      | error error => exact .refused h (.rating error) world
      | ok batch =>
        simp only [Except.mapError, orReturn_ok]
        cases hencode : @encodeRatingBatch PorRatingCollectorError start.opened.finalizedWave
            batch with
        | error error => exact .refused h (.transport error) world
        | ok outbound =>
          dsimp only [orReturn_ok]
          rcases Collected.insertBatch h batch with
            ⟨error, hinsert⟩ | ⟨collector', hinsert, hcollected, hheld⟩
          · rw [hinsert]
            exact .refused h (.collector error) world
          · rw [hinsert]
            have hproduced : RoundSource.Produced (waveRules crypto start.blocklace start.output start.state
                start.config start.opened) rater privateKey batch :=
              @RoundSource.buildBatch_produced _ _ _ _ _ (.wave start.opened) _ _ _ [] hbuild
            exact ⟨_, .delivering collector' batch [] outbound, world,
              ⟨hcollected, ⟨rater, privateKey, hproduced⟩, hencode, hheld⟩, rfl⟩

theorem receiveEnvelope_leads {stage : RoundStage} (h : start.Valid crypto stage)
    (encoded : List Byte) (world : σ) :
    Leads crypto start ((stage.coordinator start).receiveEnvelope encoded, world, stage.sent) := by
  cases stage with
  | closed collector batch sent completed reason => exact .refused h .roundClosed world
  | delivering collector batch sent pending =>
      exact ⟨_, .delivering (collector.receive encoded).2 batch sent pending, world,
        Delivers.grows h (RatingCollector.submit_grows collector (.envelope encoded)), rfl⟩
  | collecting collector =>
      exact ⟨_, .collecting (collector.receive encoded).2, world,
        Collected.grows h (RatingCollector.submit_grows collector (.envelope encoded)), rfl⟩

theorem broadcastPending_leads {stage : RoundStage} (h : start.Valid crypto stage)
    (broadcaster : RatingEnvelopeBroadcaster σ) (world : σ) :
    Leads crypto start
      ((((stage.coordinator start).broadcastPending (recorded broadcaster) (world, stage.sent)).1).answer,
        ((stage.coordinator start).broadcastPending (recorded broadcaster) (world, stage.sent)).2) := by
  cases stage with
  | closed collector batch sent completed reason => exact .refused h .roundClosed world
  | collecting collector => exact .refused h .localBatchNotProduced world
  | delivering collector batch sent pending =>
      obtain ⟨failure, accepted, left, world', rfl, -, hloop⟩ :=
        broadcastFrom_recorded broadcaster pending sent world
      have hstage : start.Valid crypto (.delivering collector batch (sent ++ accepted) left) := by
        show start.Delivers crypto collector batch (sent ++ accepted ++ left)
        rwa [List.append_assoc]
      unfold broadcastPending requireOpen
      dsimp only [RoundStage.coordinator, RoundStage.sent]
      simp only [Option.isSome_none, Option.isNone_some, Bool.false_eq_true, ↓reduceIte,
        List.drop_left, hloop]
      rw [← List.append_assoc]
      cases failure with
      | none => exact ⟨_, _, world', hstage, rfl⟩
      | some message => exact ⟨_, _, world', hstage, rfl⟩

/-- A round with nothing left to send is closed where there is a reason. -/
theorem finalize_delivered (h : start.Delivers crypto collector batch sent)
    (reason : PorRatingRoundCloseReason) :
    ∃ completed, collector.buildCompleteBatch = .ok completed ∧
      ((RoundStage.delivering collector batch sent []).coordinator start).finalize reason =
        some (.ok completed, (RoundStage.closed collector batch sent completed reason).coordinator
          start) := by
  refine ⟨_, h.collected.buildCompleteBatch, ?_⟩
  unfold finalize
  dsimp only [RoundStage.coordinator]
  rw [Option.bind_some, h.collected.buildCompleteBatch, List.append_nil]
  rfl

/-- When a round may be closed. -/
theorem requireClosePrerequisites_eq_ok {stage : RoundStage} :
    (stage.coordinator start).requireClosePrerequisites = .ok () ↔
      ∃ collector batch sent, stage = .delivering collector batch sent [] := by
  unfold requireClosePrerequisites requireOpen
  cases stage with
  | closed collector batch sent completed reason =>
      exact iff_of_false (by simp [RoundStage.coordinator, bind, Except.bind]) (by simp)
  | collecting collector =>
      exact iff_of_false (by simp [RoundStage.coordinator, bind, Except.bind]) (by simp)
  | delivering collector batch sent pending =>
      have hpending : ((RoundStage.delivering collector batch sent pending).coordinator
          start).pendingOutbound = pending.length := by
        simp [pendingOutbound, RoundStage.coordinator]
      rw [hpending]
      simp [RoundStage.coordinator, bind, Except.bind]

/-- What a call to `close_if_quorum` does: it refuses, or it closes a round with nothing left
to send. -/
theorem closeIfQuorum_cases {stage : RoundStage} (h : start.Valid crypto stage)
    (policy : PorRatingRoundClosurePolicy) :
    (∃ error, (stage.coordinator start).closeIfQuorum policy =
      some (.error error, stage.coordinator start)) ∨
    ∃ collector batch sent completed progress, stage = .delivering collector batch sent [] ∧
      start.Delivers crypto collector batch sent ∧ collector.buildCompleteBatch = .ok completed ∧
      policy.evaluate start.state collector = .ok progress ∧ progress.isReached = true ∧
      (stage.coordinator start).closeIfQuorum policy = some (.ok completed,
        (RoundStage.closed collector batch sent completed
          (.quorum progress.completedWeight progress.requiredWeight)).coordinator start) := by
  unfold closeIfQuorum
  cases hready : (stage.coordinator start).requireClosePrerequisites with
  | error error => exact .inl ⟨error, rfl⟩
  | ok _ =>
      obtain ⟨collector, batch, sent, rfl⟩ := requireClosePrerequisites_eq_ok.1 hready
      have hdelivers : start.Delivers crypto collector batch sent := by
        simpa only [Valid, List.append_nil] using h
      have hprogress : ((RoundStage.delivering collector batch sent []).coordinator
          start).quorumProgress policy =
            some ((policy.evaluate start.state collector).mapError .quorum) := rfl
      rw [orReturn_ok, hprogress, Option.bind_some]
      cases hevaluate : policy.evaluate start.state collector with
      | error error => exact .inl ⟨.quorum error, rfl⟩
      | ok progress =>
          dsimp only [Except.mapError]
          rw [orReturn_ok]
          split_ifs with hreached
          · exact .inl ⟨_, rfl⟩
          · obtain ⟨completed, hcompleted, hfinalize⟩ := finalize_delivered hdelivers
              (.quorum progress.completedWeight progress.requiredWeight)
            exact .inr ⟨collector, batch, sent, completed, progress, rfl, hdelivers, hcompleted,
              hevaluate, by simpa using hreached, hfinalize⟩

theorem closeIfQuorum_leads {stage : RoundStage} (h : start.Valid crypto stage)
    (policy : PorRatingRoundClosurePolicy) (world : σ) :
    Leads crypto start (((stage.coordinator start).closeIfQuorum policy).answer, world,
      stage.sent) := by
  rcases closeIfQuorum_cases h policy with ⟨error, hclose⟩ |
    ⟨collector, batch, sent, completed, progress, rfl, hdelivers, hcompleted, hevaluate, hreached,
      hclose⟩
  · rw [hclose]
    exact .refused h error world
  · have hjustified : start.Justified collector
        (.quorum progress.completedWeight progress.requiredWeight) :=
      ⟨policy, progress, hevaluate, hreached, rfl, rfl⟩
    rw [hclose]
    exact ⟨_, .closed collector batch sent completed _, world,
      ⟨hdelivers, hcompleted, hjustified⟩, rfl⟩

theorem closeAtFinalizedWave_leads {stage : RoundStage} (h : start.Valid crypto stage)
    (policy : PorRatingRoundCutoffPolicy) (observed : U64) (world : σ) :
    Leads crypto start (((stage.coordinator start).closeAtFinalizedWave policy observed).answer,
      world, stage.sent) := by
  unfold closeAtFinalizedWave
  cases hready : (stage.coordinator start).requireClosePrerequisites with
  | error error => exact .refused h error world
  | ok _ =>
      obtain ⟨collector, batch, sent, rfl⟩ := requireClosePrerequisites_eq_ok.1 hready
      have hdelivers : start.Delivers crypto collector batch sent := by
        simpa only [Valid, List.append_nil] using h
      have hopened : ((RoundStage.delivering collector batch sent []).coordinator start).opened =
          start.opened := rfl
      rw [orReturn_ok, hopened]
      cases hensure : policy.ensureReached start.opened observed with
      | error error => exact .refused h (.cutoff error) world
      | ok required =>
          dsimp only [Except.mapError]
          obtain ⟨completed, hcompleted, hfinalize⟩ := finalize_delivered hdelivers
            (.finalizedWaveCutoff observed required)
          have hjustified : start.Justified collector (.finalizedWaveCutoff observed required) :=
            ⟨policy, PorRatingRoundCutoffPolicy.ensureReached_eq_ok.1 hensure⟩
          rw [orReturn_ok, hfinalize]
          exact ⟨_, .closed collector batch sent completed _, world,
            ⟨hdelivers, hcompleted, hjustified⟩, rfl⟩

/-- **One call** leads from a stage to a stage. -/
theorem call_leads {stage : RoundStage} (h : start.Valid crypto stage) (request : Call σ)
    (world : σ) :
    Leads crypto start ((stage.coordinator start).call crypto (world, stage.sent)
      request.recorded) := by
  cases request with
  | produceLocalBatch rater privateKey => exact produceLocalBatch_leads h rater privateKey world
  | broadcastPending broadcaster => exact broadcastPending_leads h broadcaster world
  | receiveEnvelope encoded => exact receiveEnvelope_leads h encoded world
  | closeIfQuorum policy => exact closeIfQuorum_leads h policy world
  | closeAtFinalizedWave policy observed => exact closeAtFinalizedWave_leads h policy observed world

/-- **A run** leads from a stage to a stage, without a panic. -/
theorem run_leads {stage : RoundStage} (h : start.Valid crypto stage) (requests : List (Call σ))
    (world : σ) :
    ∃ stage' world', start.Valid crypto stage' ∧
      run crypto (requests.map Call.recorded) (stage.coordinator start) (world, stage.sent) =
        some (stage'.coordinator start, world', stage'.sent) := by
  induction requests generalizing stage world with
  | nil => exact ⟨stage, world, h, rfl⟩
  | cons request requests ih =>
      obtain ⟨answer, stage', world', hstage, hcall⟩ := call_leads h request world
      obtain ⟨stage'', world'', hstage', hrun⟩ := ih hstage world'
      refine ⟨stage'', world'', hstage', ?_⟩
      rw [List.map_cons, run, hcall, Option.bind_some]
      exact hrun

/-- A closed round stays as it is, and nothing more is sent. -/
theorem run_closed (requests : List (Call σ)) (world : σ) :
    run crypto requests ((RoundStage.closed collector batch sent completed reason).coordinator start)
      world = some ((RoundStage.closed collector batch sent completed reason).coordinator start,
        world) := by
  induction requests with
  | nil => rfl
  | cons request requests ih =>
      have hcall : ((RoundStage.closed collector batch sent completed reason).coordinator
          start).call crypto world request = (some (.error .roundClosed,
            (RoundStage.closed collector batch sent completed reason).coordinator start), world) := by
        cases request <;> rfl
      rw [run, hcall, Option.bind_some]
      exact ih

/-- The rater of the local batch is complete. -/
theorem Delivers.isComplete (h : start.Delivers crypto collector batch envelopes)
    {rating : RatingRecord} (hrating : rating ∈ batch.ratings) :
    collector.isComplete rating.rater = true := by
  have hlawful : collector.rules.Lawful := h.collected.rules ▸ lawful_waveRules
  obtain ⟨rater, privateKey, hproduced⟩ := h.produced
  obtain ⟨hrater, -⟩ := hproduced.signed rating hrating
  obtain ⟨expected, hexpected, -, -, -, hall⟩ := hproduced.said
  rw [← h.collected.rules] at hexpected
  rw [RatingCollector.isComplete_iff, RatingCollector.isRaterComplete_true_iff, hrater,
    h.collected.rules]
  refine ⟨rfl, rfl, expected, h.collected.rules ▸ hexpected,
    (h.collected.sound.length_eq_iff hlawful hexpected).2 fun interaction hinteraction => ?_⟩
  obtain ⟨found, hfound, hsaid⟩ := hall interaction hinteraction
  exact ⟨found, h.collected.sound.mem_values_iff.2 (h.held found hfound),
    (hproduced.signed found hfound).1, hsaid.recipient⟩

/-- **What a closed round consists of**: the local batch, and of every rater in it all the
ratings that are expected. -/
theorem Delivers.closes (h : start.Delivers crypto collector batch envelopes)
    (hbuilt : collector.buildCompleteBatch = .ok completed) :
    (∀ rating ∈ batch.ratings, rating ∈ completed.ratings) ∧
    ∀ rating ∈ completed.ratings, ∃ expected,
      (start.rules crypto).expected rating.rater = .ok expected ∧ ∀ interaction ∈ expected,
        ∃ found ∈ completed.ratings, found.rater = rating.rater ∧
          interaction.Said start.opened.ratingRound found := by
  have hsound := h.collected.sound
  have hlawful : collector.rules.Lawful := h.collected.rules ▸ lawful_waveRules
  rw [h.collected.buildCompleteBatch, Except.ok.injEq] at hbuilt
  subst hbuilt
  have hmem : ∀ rating, rating ∈ sortRatings (collector.ratings.values.filter fun rating =>
      collector.isComplete rating.rater) ↔
      rating ∈ collector.ratings.values ∧ collector.isComplete rating.rater = true := fun rating => by
    rw [(perm_sortRatings _).mem_iff, List.mem_filter]
  refine ⟨fun rating hrating => (hmem rating).2
    ⟨hsound.mem_values_iff.2 (h.held rating hrating), h.isComplete hrating⟩, fun rating hrating => ?_⟩
  obtain ⟨-, hcomplete⟩ := (hmem rating).1 hrating
  obtain ⟨-, -, expected, hexpected, hlength⟩ := RatingCollector.isRaterComplete_true_iff.1
    (RatingCollector.isComplete_iff.1 hcomplete)
  refine ⟨expected, h.collected.rules ▸ hexpected, fun interaction hinteraction => ?_⟩
  obtain ⟨found, hfound, hrater, hrecipient⟩ :=
    (hsound.length_eq_iff hlawful hexpected).1 hlength interaction hinteraction
  refine ⟨found, (hmem found).2 ⟨hfound, hrater ▸ hcomplete⟩, hrater, ?_⟩
  -- the rating says what was expected of it, which is this interaction
  obtain ⟨expected', hexpected', interaction', hfind, hsaid⟩ := (hsound.admissible hfound).said
  rw [hrater, hexpected, Except.ok.injEq] at hexpected'
  subst hexpected'
  rw [hrecipient, Matched.find?_of_nodup (hlawful.distinct hexpected) hinteraction,
    Option.some.injEq] at hfind
  rw [hfind, ← show collector.rules.round = start.opened.ratingRound by rw [h.collected.rules]; rfl]
  exact hsaid

/-- **A round is never stuck**: with its local batch delivered, finality closes it from the
required wave on, whatever has been collected. -/
theorem closeAtFinalizedWave_ok_iff {stage : RoundStage} (h : start.Valid crypto stage)
    (policy : PorRatingRoundCutoffPolicy) (observed : U64) :
    (∃ closed completed, (stage.coordinator start).closeAtFinalizedWave policy observed =
      some (.ok completed, closed)) ↔
      (stage.coordinator start).requireClosePrerequisites = .ok () ∧
        start.opened.finalizedWave.val + policy.waveLag.val ≤ observed.val := by
  unfold closeAtFinalizedWave
  cases hready : (stage.coordinator start).requireClosePrerequisites with
  | error error => exact iff_of_false (by simp) (by simp)
  | ok _ =>
      obtain ⟨collector, batch, sent, rfl⟩ := requireClosePrerequisites_eq_ok.1 hready
      have hdelivers : start.Delivers crypto collector batch sent := by
        simpa only [Valid, List.append_nil] using h
      have hopened : ((RoundStage.delivering collector batch sent []).coordinator start).opened =
          start.opened := rfl
      rw [orReturn_ok, hopened, and_iff_right rfl]
      constructor
      · rintro ⟨closed, completed, hclosed⟩
        cases hensure : policy.ensureReached start.opened observed with
        | error error =>
            rw [hensure] at hclosed
            exact absurd hclosed (by simp [Except.mapError])
        | ok required =>
            obtain ⟨hrequired, hreached⟩ := PorRatingRoundCutoffPolicy.ensureReached_eq_ok.1 hensure
            rw [← hrequired]
            exact hreached
      · intro hreached
        have hensure : policy.ensureReached start.opened observed =
            .ok ⟨_, hreached.trans_lt observed.isLt⟩ :=
          PorRatingRoundCutoffPolicy.ensureReached_eq_ok.2 ⟨rfl, hreached⟩
        obtain ⟨completed, -, hfinalize⟩ := finalize_delivered hdelivers
          (.finalizedWaveCutoff observed ⟨_, hreached.trans_lt observed.isLt⟩)
        rw [hensure]
        exact ⟨_, completed, hfinalize⟩

/-! ### Recording -/

theorem broadcastFrom_inner (broadcaster : RatingEnvelopeBroadcaster σ)
    (envelopes log : List (List Byte)) (next : ℕ) (world : σ) :
    ∃ log', broadcastFrom (recorded broadcaster) envelopes next (world, log) =
      ((broadcastFrom broadcaster envelopes next world).1,
        (broadcastFrom broadcaster envelopes next world).2.1,
        (broadcastFrom broadcaster envelopes next world).2.2, log') := by
  induction envelopes generalizing next log world with
  | nil => exact ⟨log, rfl⟩
  | cons envelope envelopes ih =>
      unfold broadcastFrom
      rw [recorded]
      dsimp only
      rcases broadcaster envelope world with ⟨message | _, world'⟩
      · exact ⟨log, rfl⟩
      · exact ih (log ++ [envelope]) (next + 1) world'

/-- Recording a transport changes nothing else. -/
theorem call_recorded (c : PorRatingRoundCoordinator) (request : Call σ) (world : σ)
    (log : List (List Byte)) :
    ∃ log', c.call crypto (world, log) request.recorded =
      ((c.call crypto world request).1, (c.call crypto world request).2, log') := by
  cases request with
  | broadcastPending broadcaster =>
      obtain ⟨log', hloop⟩ := broadcastFrom_inner broadcaster
        (c.outboundEnvelopes.drop c.nextOutbound) log c.nextOutbound world
      show ∃ log', ((c.broadcastPending (recorded broadcaster) (world, log)).1.answer,
        (c.broadcastPending (recorded broadcaster) (world, log)).2) = _
      unfold call broadcastPending
      rw [hloop]
      cases c.requireOpen with
      | error error => exact ⟨log, rfl⟩
      | ok _ =>
          dsimp only
          split_ifs
          · exact ⟨log, rfl⟩
          · rcases broadcastFrom broadcaster (c.outboundEnvelopes.drop c.nextOutbound)
              c.nextOutbound world with ⟨_ | message, next, world'⟩
            · exact ⟨log', rfl⟩
            · exact ⟨log', rfl⟩
  | produceLocalBatch rater privateKey => exact ⟨log, rfl⟩
  | receiveEnvelope encoded => exact ⟨log, rfl⟩
  | closeIfQuorum policy => exact ⟨log, rfl⟩
  | closeAtFinalizedWave policy observed => exact ⟨log, rfl⟩

theorem run_of_recorded {requests : List (Call σ)} {log log' : List (List Byte)} {world' : σ}
    {c' : PorRatingRoundCoordinator}
    (h : run crypto (requests.map Call.recorded) c (world, log) = some (c', world', log')) :
    run crypto requests c world = some (c', world') := by
  induction requests generalizing c world log with
  | nil =>
      obtain ⟨rfl, hworld⟩ := Prod.mk.inj (Option.some.inj h)
      obtain ⟨rfl, -⟩ := Prod.mk.inj hworld
      rfl
  | cons request requests ih =>
      obtain ⟨mid, hcall⟩ := @call_recorded σ crypto c request world log
      rw [List.map_cons, run, hcall, Option.bind_eq_some_iff] at h
      obtain ⟨answer, hanswer, h⟩ := h
      rw [run, hanswer, Option.bind_some]
      exact ih h

/-- A call leads from a stage to a stage, recorded or not. -/
theorem call_valid {stage : RoundStage} (h : start.Valid crypto stage) (world : σ)
    (request : Call σ)
    {answer : Except PorRatingRoundError Unit} {c' : PorRatingRoundCoordinator}
    (hcall : ((stage.coordinator start).call crypto world request).1 = some (answer, c')) :
    ∃ stage', c' = stage'.coordinator start ∧ start.Valid crypto stage' := by
  obtain ⟨log, hrecorded⟩ :=
    @call_recorded σ crypto (stage.coordinator start) request world stage.sent
  obtain ⟨answer', stage', world', hstage, hleads⟩ := call_leads h request world
  rw [hleads, hcall] at hrecorded
  obtain ⟨-, hc⟩ := Prod.mk.inj (Option.some.inj (Prod.mk.inj hrecorded).1)
  exact ⟨stage', hc.symm, hstage⟩

end Steps

/-- **A rating round from opening to closing.**  No call panics, whatever the transport and
the peers do.  The transport has accepted an initial part of the local batch's envelopes,
each once.  An open round is closed by finality exactly where its batch is delivered and
the wave is late enough.  A closed one has delivered all of the local batch, contains it
and all that is expected of any rater in it, was closed for a reason, and never changes. -/
theorem rating_round_lifecycle (crypto : RatingCrypto) {B : Blocklace}
    {output : OrderedFinalizedOutput} {opened : FinalizedRatingRound} {state : ReputationState}
    {config : PorConfig} {start : PorRatingRoundCoordinator}
    (hnew : new crypto B output opened state config = .ok start) {σ : Type}
    (requests : List (Call σ)) (world : σ) :
    ∃ c world' log, run crypto requests start world = some (c, world') ∧
      run crypto (requests.map Call.recorded) start (world, []) = some (c, world', log) ∧
      log = c.outboundEnvelopes.take c.nextOutbound ∧
      (∀ env, c.intoCompleted env ≠ none) ∧
      (c.status = .open → ∀ policy observed,
        (∃ closed completed, c.closeAtFinalizedWave policy observed =
          some (.ok completed, closed)) ↔ c.requireClosePrerequisites = .ok () ∧
            opened.finalizedWave.val + policy.waveLag.val ≤ observed.val) ∧
      (c.status = .closed → ∃ collector batch completed reason,
        c.localBatch = some batch ∧ c.completedBatch = some completed ∧
        c.closeReason = some reason ∧
        @encodeRatingBatch PorRatingCollectorError opened.finalizedWave batch = .ok log ∧
        collector.buildCompleteBatch = .ok completed ∧ start.Justified collector reason ∧
        (∀ rating ∈ batch.ratings, rating ∈ completed.ratings) ∧
        (∀ rating ∈ completed.ratings, ∃ expected,
          (waveRules crypto B output state config opened).expected rating.rater = .ok expected ∧
            ∀ interaction ∈ expected, ∃ found ∈ completed.ratings, found.rater = rating.rater ∧
              interaction.Said opened.ratingRound found) ∧
        ∀ (later : List (Call σ)) world'', run crypto later c world'' = some (c, world'')) := by
  obtain ⟨rfl, rfl, rfl, rfl, rfl, collector, hstart, hvalid⟩ := new_ok hnew
  obtain ⟨stage, world', hstage, hrun⟩ := run_leads hvalid requests world
  rw [← hstart] at hrun
  refine ⟨stage.coordinator start, world', stage.sent, run_of_recorded hrun, hrun, ?_, ?_, ?_, ?_⟩
  · cases stage with
    | collecting collector => rfl
    | delivering collector batch sent pending => exact List.take_left.symm
    | closed collector batch sent completed reason => exact List.take_length.symm
  · intro env
    cases stage with
    | collecting collector => exact Option.some_ne_none _
    | delivering collector batch sent pending => exact Option.some_ne_none _
    | closed collector batch sent completed reason => exact Option.some_ne_none _
  · exact fun _ => closeAtFinalizedWave_ok_iff hstage
  · intro hclosed
    cases stage with
    | collecting collector => exact absurd hclosed (by simp [status, RoundStage.coordinator])
    | delivering collector batch sent pending =>
        exact absurd hclosed (by simp [status, RoundStage.coordinator])
    | closed collector batch sent completed reason =>
        obtain ⟨hdelivers, hbuilt, hjustified⟩ := hstage
        obtain ⟨hlocal, hcomplete⟩ := hdelivers.closes hbuilt
        exact ⟨collector, batch, completed, reason, rfl, rfl, rfl, hdelivers.encoded, hbuilt,
          hjustified, hlocal, hcomplete, fun later world'' => run_closed later world''⟩

/-- The first of three creators rates the others, and the next wave closes the round. -/
def closingCalls : List (Call Unit) :=
  [.produceLocalBatch (keyedIdentity 1).creator [],
    .broadcastPending fun _ world => (.ok (), world), .closeAtFinalizedWave .default 1]

theorem rating_round_lifecycle_wave : ∃ start c log batch completed,
    new keyedCrypto ratedLace ratedOutput ⟨0, 1⟩ ratedState .default = .ok start ∧
      run keyedCrypto closingCalls start () = some (c, ()) ∧ log.length = 2 ∧
      @encodeRatingBatch PorRatingCollectorError 0 batch = .ok log ∧
      c.completedBatch = some completed ∧ ∀ rating ∈ batch.ratings, rating ∈ completed.ratings := by
  have hclosed : ((new keyedCrypto ratedLace ratedOutput ⟨0, 1⟩ ratedState .default).toOption.bind
      fun start => run keyedCrypto (closingCalls.map Call.recorded) start ((), [])).any
        (fun out => out.1.status = .closed && out.2.2.length = 2) = true := by decide +kernel
  obtain ⟨out, hout, hstatus⟩ := (Option.any_eq_true _ _).1 hclosed
  obtain ⟨start, hnew, hrecorded⟩ := Option.bind_eq_some_iff.1 hout
  have hnew' := Codec.eq_ok_of_toOption hnew
  obtain ⟨c, world', log, hrun, hrun', -, -, -, hclose⟩ :=
    rating_round_lifecycle keyedCrypto hnew' closingCalls ()
  obtain rfl := Option.some.inj (hrecorded.symm.trans hrun')
  rw [Bool.and_eq_true, decide_eq_true_eq, decide_eq_true_eq] at hstatus
  obtain ⟨-, batch, completed, -, -, hcompleted, -, hencoded, -, -, hlocal, -⟩ := hclose hstatus.1
  exact ⟨start, c, log, batch, completed, hnew', hrun, hstatus.2, hencoded, hcompleted, hlocal⟩

end PorRatingRoundCoordinator

end CordialMiners.Reputation
