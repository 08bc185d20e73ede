/-
# Closing a checkpoint round

`por/checkpoint_ratings.rs`, and `stage_local_rating_batch` of `por/local_ratings.rs`.

A checkpoint round has no quorum and no cutoff: an observer closes it once every authorized
rater that is not ejected is complete, and it may be an ejected one itself.

Observers that close a round agree (`closed_checkpoints_agree`), though one may have finalized
more than the other, seen other blocks and read another exchange: the checkpoint pins the
prefix, the prefix says what is asked of whom, and signatures aside there is one answer to it.

What a validator stages follows from the finalized evidence as well, so that staging again
after a restart finds the same batch in the outbox (`staged_batches_agree`).
-/

import CordialMiners.Ratings.LocalRatings
import CordialMiners.Slashing.PrefixIdentity

namespace CordialMiners.Reputation

open Codec (bind_eq_ok check_eq_ok guard_eq_ok
  mapError_eq_ok)
open Blocklace (PartOf)
open Exchange (ofExcept stored called)

/-! ### The calls -/

/-- What is used of `RatingOutbox` and `FileRatingExchange` in a checkpoint round. -/
structure CheckpointRatingFiles (σ : Type) where
  load : RatingSourceCheckpoint → NodeId → σ → Except String (Option (List (List Byte))) × σ
  broadcaster : RatingSourceCheckpoint → NodeId → RatingEnvelopeBroadcaster σ
  readPeerEnvelopes : RatingSourceCheckpoint → NodeId → List NodeId → List NodeId → σ →
    Except String (List (List Byte)) × σ

/-- What is used of `RatingOutbox` to stage a batch. -/
structure StagingOutbox (σ : Type) where
  persistLocalBatch : U64 → NodeId → RatingBatch → σ → Except String Unit × σ
  persistCheckpointBatch : RatingSourceCheckpoint → NodeId → RatingBatch → σ →
    Except String Unit × σ

/-- The loop over received envelopes. -/
def receiveEnvelopes : List (List Byte) → RatingCollector → Except ReceiveError RatingCollector
  | [], c => .ok c
  | envelope :: envelopes, c => do
      (c.receive envelope).1
      receiveEnvelopes envelopes (c.receive envelope).2

/-- The loop over published envelopes. -/
def publishAll {σ : Type} (broadcaster : RatingEnvelopeBroadcaster σ) :
    List (List Byte) → Exchange σ Unit
  | [] => pure ()
  | envelope :: envelopes => do
      stored (broadcaster envelope)
      publishAll broadcaster envelopes

/-- The loop of `all_authorized_raters_complete`. -/
def everyRaterComplete (c : RatingCollector) : List NodeId → Except LocalRatingError Bool
  | [] => .ok true
  | rater :: raters => do
      let complete ← (c.isRaterComplete rater).mapError .collector
      if !complete then .ok false else everyRaterComplete c raters

/-- `all_authorized_raters_complete`, over the raters in their order. -/
def allAuthorizedRatersComplete (c : RatingCollector) (authorizedRaters : OrderedSet NodeId) :
    Except LocalRatingError Bool :=
  if authorizedRaters.toList = [] then .error .noAuthorizedRaters
  else everyRaterComplete c authorizedRaters.toList

section Calls

variable {σ : Type} (env : PorEnv) (crypto : RatingCrypto) (files : CheckpointRatingFiles σ)
  (outbox : StagingOutbox σ) (B : Blocklace) (output : OrderedFinalizedOutput)
  (checkpoint : FinalizedPrefixCheckpoint)
  (state : ReputationState) (config : PorConfig) (key : BondedRatingKey) (authorized : List NodeId)

/-- `stage_local_checkpoint_rating_batch`. -/
def stageLocalCheckpointRatingBatch : Exchange σ ℕ := do
  ofExcept ((validateFinalizedCheckpointWindow crypto.hasher B output checkpoint).mapError .window)
  Exchange.require (checkedAdd64 state.currentRound.val 1 = some checkpoint.porRound.val)
    "checkpoint does not follow the preceding state"
  if state.isEjected key.rater then pure 0
  else
    let batch ← ofExcept ((buildFinalizedCheckpointRatingBatch crypto B output checkpoint key.rater
      state config key.privateKey).mapError .rating)
    stored (outbox.persistCheckpointBatch checkpoint.ratingSource key.rater batch)
    pure batch.ratings.length

/-- `StagedLocalRatingBatch`. -/
structure StagedLocalRatingBatch where
  finalizedWave : ℕ
  ratingRound : U64
  ratingCount : ℕ
deriving DecidableEq, Repr

/-- `stage_local_rating_batch`. -/
def stageLocalRatingBatch : Exchange σ (Option StagedLocalRatingBatch) := do
  let found ← ofExcept ((finalizedWaveFromOutput B output).mapError .finality)
  match found with
  | none => pure none
  | some wave =>
    if wave < state.currentRound.val then pure none
    else do
      Exchange.require (wave = state.currentRound.val)
        ("cannot stage PoR rating round after finalized wave gap: committed round " ++
          toString state.currentRound.val ++ ", observed wave " ++ toString wave)
      -- from here on the wave is the round of the state
      let finalizedWave := state.currentRound
      let ratingRound ← ofExcept ((ratingRoundFromFinalizedWave finalizedWave).mapError .protocol)
      let start ← ofExcept ((PorRatingRoundCoordinator.new crypto B output
        ⟨finalizedWave, ratingRound⟩ state config).mapError .round)
      let produced ← called (start.produceLocalBatch crypto key.rater key.privateKey)
      stored (outbox.persistLocalBatch finalizedWave key.rater produced.1)
      pure (some ⟨wave, ratingRound, produced.1.ratings.length⟩)

/-- The part of a rater that is not ejected: sign, compare with the outbox, count, publish. -/
def submitLocalBatch (c : RatingCollector) : Exchange σ RatingCollector := do
  let source := checkpoint.ratingSource
  let signed ← ofExcept ((buildFinalizedCheckpointRatingBatch crypto B output checkpoint key.rater
    state config key.privateKey).mapError .rating)
  let expected ← ofExcept ((encodeCheckpointRatingBatch source signed).mapError .transport)
  let loaded ← stored (files.load source key.rater)
  let staged ← ofExcept (okOr
    (.message "staged local PoR checkpoint rating batch is missing") loaded)
  Exchange.require (staged = expected)
    "staged local PoR checkpoint ratings differ from finalized evidence"
  let counted ← ofExcept ((receiveEnvelopes staged c).mapError .transport)
  ofExcept (source.validate.mapError .protocol)
  publishAll (files.broadcaster source key.rater) staged
  pure counted

/-- The raters that must be complete. -/
def eligibleRaters : List NodeId := authorized.filter fun rater => !state.isEjected rater

/-- The part of an observer before it reads the exchange. -/
def openCollector : Exchange σ RatingCollector := do
  let c ← ofExcept ((CheckpointBlockProductionRatingCollector.new crypto B output state config
    checkpoint authorized).mapError .collector)
  if key.rater ∈ eligibleRaters state authorized then
    submitLocalBatch crypto files B output checkpoint state config key c
  else pure c

/-- `close_checkpoint_rating_exchange_if_complete`. -/
def closeCheckpointRatingExchangeIfComplete :
    Exchange σ (Option CompletedCheckpointRatingRound) := do
  Exchange.require (key.rater ∈ authorized) "local PoR checkpoint rater is not authorized"
  let opened ← openCollector crypto files B output checkpoint state config key authorized
  let peers ← stored (files.readPeerEnvelopes checkpoint.ratingSource key.rater authorized
    (eligibleRaters state authorized))
  let c ← ofExcept ((receiveEnvelopes peers opened).mapError .transport)
  let complete ← ofExcept (allAuthorizedRatersComplete c
    ((eligibleRaters state authorized).foldl OrderedSet.insert .empty))
  if !complete then pure none
  else
    let batch ← ofExcept (c.buildCompleteBatch.mapError .collector)
    let carriers ← ofExcept ((finalizedCheckpointAuthorizations env B output checkpoint).mapError
      .protocol)
    pure (some (.new checkpoint batch carriers state))

end Calls

/-! ### What a closed round has gone through -/

section Closed

variable {σ : Type} {env : PorEnv} {crypto : RatingCrypto} {files : CheckpointRatingFiles σ}
  {B B' : Blocklace} {output output' : OrderedFinalizedOutput}
  {checkpoint : FinalizedPrefixCheckpoint} {state : ReputationState} {config : PorConfig}
  {key : BondedRatingKey} {authorized authorized' : List NodeId} {c c' : RatingCollector} {world : σ}
  {completed : CompletedCheckpointRatingRound}

theorem receiveEnvelopes_eq {envelopes : List (List Byte)}
    (h : receiveEnvelopes envelopes c = .ok c') : c' = c.submitAll (envelopes.map .envelope) := by
  induction envelopes generalizing c with
  | nil => exact (Except.ok.inj h).symm
  | cons envelope envelopes ih => exact ih (check_eq_ok.1 h).2

theorem everyRaterComplete_eq_true {raters : List NodeId}
    (h : everyRaterComplete c raters = .ok true) : ∀ rater ∈ raters, c.isComplete rater = true := by
  induction raters with
  | nil => simp
  | cons rater raters ih =>
      unfold everyRaterComplete at h
      obtain ⟨complete, hcomplete, h⟩ := bind_eq_ok.1 h
      rw [mapError_eq_ok] at hcomplete
      cases complete with
      | false => exact absurd (Except.ok.inj h) (by simp)
      | true =>
          exact List.forall_mem_cons.2 ⟨RatingCollector.isComplete_iff.2 hcomplete, ih h⟩

/-- A collector of the round. -/
structure CheckpointCollected (crypto : RatingCrypto) (B : Blocklace) (output : OrderedFinalizedOutput)
    (checkpoint : FinalizedPrefixCheckpoint) (state : ReputationState) (config : PorConfig)
    (authorized : List NodeId) (c : RatingCollector) : Prop where
  window : ValidWindow crypto.hasher B output checkpoint
  rules : c.rules = checkpointRules crypto B output state config checkpoint authorized
  sound : c.Sound

theorem CheckpointCollected.receive
    (h : CheckpointCollected crypto B output checkpoint state config authorized c)
    {envelopes : List (List Byte)} (hreceive : receiveEnvelopes envelopes c = .ok c') :
    CheckpointCollected crypto B output checkpoint state config authorized c' := by
  rw [receiveEnvelopes_eq hreceive]
  have hgrows := RatingCollector.submitAll_grows c (envelopes.map .envelope)
  exact ⟨h.window, hgrows.rules.trans h.rules, hgrows.sound h.sound⟩

/-- An observer opens a collector of the round, whether or not it has ratings of its own. -/
theorem openCollector_ok
    (hok : (openCollector crypto files B output checkpoint state config key authorized world).1 =
      .ok c) : CheckpointCollected crypto B output checkpoint state config authorized c := by
  unfold openCollector at hok
  obtain ⟨fresh, world', hfresh, hok⟩ := Exchange.of_bind hok
  obtain ⟨hwindow, -, rfl⟩ :=
    CheckpointBlockProductionRatingCollector.new_eq_ok.1 (mapError_eq_ok.1 hfresh)
  have hcollected : CheckpointCollected crypto B output checkpoint state config authorized
      ⟨checkpointRules crypto B output state config checkpoint authorized, .empty⟩ := by
    refine ⟨hwindow, rfl, fun k rating hrating => ?_⟩
    rw [OrderedMap.lookup_empty] at hrating
    exact absurd hrating (by simp)
  split_ifs at hok with heligible
  · unfold submitLocalBatch at hok
    obtain ⟨signed, _, -, hok⟩ := Exchange.of_bind hok
    obtain ⟨expected, _, -, hok⟩ := Exchange.of_bind hok
    obtain ⟨loaded, _, -, hok⟩ := Exchange.of_bind hok
    obtain ⟨staged, _, -, hok⟩ := Exchange.of_bind hok
    obtain ⟨_, _, -, hok⟩ := Exchange.of_bind hok
    obtain ⟨counted, _, hcounted, hok⟩ := Exchange.of_bind hok
    obtain ⟨_, _, -, hok⟩ := Exchange.of_bind hok
    obtain ⟨_, _, -, hok⟩ := Exchange.of_bind hok
    obtain rfl := Except.ok.inj hok
    exact hcollected.receive (mapError_eq_ok.1 hcounted)
  · obtain rfl := Except.ok.inj hok
    exact hcollected

/-- How a checkpoint round was closed. -/
structure ClosedCheckpoint (env : PorEnv) (crypto : RatingCrypto) (B : Blocklace)
    (output : OrderedFinalizedOutput) (checkpoint : FinalizedPrefixCheckpoint)
    (state : ReputationState) (config : PorConfig) (authorized : List NodeId) (c : RatingCollector)
    (completed : CompletedCheckpointRatingRound) : Prop where
  collected : CheckpointCollected crypto B output checkpoint state config authorized c
  complete : ∀ rater ∈ eligibleRaters state authorized, c.isComplete rater = true
  carriers : finalizedCheckpointAuthorizations env B output checkpoint =
    .ok completed.finalizedAuthorizations
  made : completed = .new checkpoint ⟨checkpoint.porRound, sortRatings c.ratings.values⟩
    completed.finalizedAuthorizations state

theorem CheckpointCollected.mem_eligible
    (h : CheckpointCollected crypto B output checkpoint state config authorized c)
    {rating : RatingRecord} (hrating : rating ∈ c.ratings.values) :
    rating.rater ∈ eligibleRaters state authorized := by
  have hauthorized := (h.sound.admissible hrating).authorized
  rw [h.rules] at hauthorized
  exact of_decide_eq_true hauthorized

/-- **What closing a checkpoint round goes through.** -/
theorem closedCheckpoint_of_ok
    (hok : (closeCheckpointRatingExchangeIfComplete env crypto files B output checkpoint state config
      key authorized world).1 = .ok (some completed)) :
    ∃ c, ClosedCheckpoint env crypto B output checkpoint state config authorized c completed := by
  unfold closeCheckpointRatingExchangeIfComplete at hok
  obtain ⟨_, _, -, hok⟩ := Exchange.of_bind hok
  obtain ⟨opened, _, hopened, hok⟩ := Exchange.of_bind hok
  obtain ⟨peers, _, -, hok⟩ := Exchange.of_bind hok
  obtain ⟨c, _, hreceived, hok⟩ := Exchange.of_bind hok
  obtain ⟨complete, _, hcomplete, hok⟩ := Exchange.of_bind hok
  cases complete with
  | false => exact absurd (Except.ok.inj hok) (by simp)
  | true =>
      obtain ⟨batch, _, hbatch, hok⟩ := Exchange.of_bind hok
      obtain ⟨carriers, _, hcarriers, hok⟩ := Exchange.of_bind hok
      obtain rfl := Option.some.inj (Except.ok.inj hok)
      have hcollected := (openCollector_ok hopened).receive (mapError_eq_ok.1 hreceived)
      have hall : ∀ rater ∈ eligibleRaters state authorized, c.isComplete rater = true := by
        intro rater hrater
        have hloop : allAuthorizedRatersComplete c ((eligibleRaters state authorized).foldl
            OrderedSet.insert .empty) = .ok true := hcomplete
        unfold allAuthorizedRatersComplete at hloop
        rw [guard_eq_ok] at hloop
        exact everyRaterComplete_eq_true hloop.2 rater
          (OrderedSet.mem_toList.2 (mem_foldl_insert.2 (.inl hrater)))
      refine ⟨c, hcollected, hall, mapError_eq_ok.1 hcarriers, ?_⟩
      have hlawful : c.rules.Lawful := hcollected.rules ▸ lawful_checkpointRules hcollected.window
      have hbuilt : c.buildCompleteBatch = .ok batch := mapError_eq_ok.1 hbatch
      have hkept : (c.ratings.values.filter fun rating => c.isComplete rating.rater) =
          c.ratings.values := List.filter_eq_self.2 fun rating hrating =>
        hall _ (hcollected.mem_eligible hrating)
      rw [hcollected.sound.buildCompleteBatch_eq hlawful, Except.ok.injEq, hkept,
        hcollected.rules] at hbuilt
      rw [← hbuilt]
      rfl

/-! ### One prefix, one answer -/

/-- Outputs with the checkpoint have the same window. -/
theorem windowBlocks_agree {hasher : List Byte → ContentHash} (h : CheckpointOf hasher output checkpoint)
    (h' : CheckpointOf hasher output' checkpoint)
    (hsize : ∀ x ∈ prefixHashInputs hasher (output'.blocks.take (16 * checkpoint.porRound.val)),
      x.length < 2 ^ 64)
    (hfree : Set.InjOn hasher {x |
      x ∈ prefixHashInputs hasher (output'.blocks.take (16 * checkpoint.porRound.val)) ∨
      x ∈ prefixHashInputs hasher (output.blocks.take (16 * checkpoint.porRound.val))}) :
    windowBlocks output checkpoint = windowBlocks output' checkpoint := by
  rw [Nat.mul_comm 16] at hsize hfree
  unfold windowBlocks
  rw [h.length, ← h.take_eq h' hsize hfree]

/-- What is admitted is read off the window alone. -/
theorem checkpointInteractions_agree {rater : NodeId} {admitted admitted' : List AdmittedCheckpointInteraction}
    (hwindow : windowBlocks output checkpoint = windowBlocks output' checkpoint)
    (hok : admitCheckpointBlockProductionInteractions crypto.hasher B output checkpoint rater state =
      .ok admitted)
    (hok' : admitCheckpointBlockProductionInteractions crypto.hasher B' output' checkpoint rater
      state = .ok admitted') : admitted = admitted' := by
  unfold admitCheckpointBlockProductionInteractions extractCheckpointBlockProductionEvidence
    at hok hok'
  obtain ⟨extracted, hextracted, hadmitted⟩ := bind_eq_ok.1 hok
  obtain ⟨extracted', hextracted', hadmitted'⟩ := bind_eq_ok.1 hok'
  obtain rfl := Except.ok.inj (check_eq_ok.1 hextracted).2
  obtain rfl := Except.ok.inj (check_eq_ok.1 hextracted').2
  rw [hwindow] at hadmitted
  exact Except.ok.inj (hadmitted.symm.trans hadmitted')

/-- What is asked of a rater is read off the window alone. -/
theorem checkpointRules_agree (hwindow : windowBlocks output checkpoint = windowBlocks output' checkpoint) :
    (checkpointRules crypto B output state config checkpoint authorized).Agree
      (checkpointRules crypto B' output' state config checkpoint authorized') := by
  refine ⟨rfl, fun rater asked asked' hasked hasked' => ?_⟩
  obtain ⟨admitted, hadmitted, rfl⟩ := checkpointRules_expected_iff.1 hasked
  obtain ⟨admitted', hadmitted', rfl⟩ := checkpointRules_expected_iff.1 hasked'
  rw [checkpointInteractions_agree hwindow hadmitted hadmitted']

/-- The carriers are those of the window's blocks, which both views store. -/
theorem carriers_agree {S : Set Block} (hS : DistinctBlocks S) (h : PartOf S B) (h' : PartOf S B')
    (hwindow : windowBlocks output checkpoint = windowBlocks output' checkpoint)
    {found found' : OrderedSet PorEquivocationAuthorization}
    (hok : finalizedCheckpointAuthorizations env B output checkpoint = .ok found)
    (hok' : finalizedCheckpointAuthorizations env B' output' checkpoint = .ok found') :
    found = found' := by
  obtain ⟨-, hread, hmem⟩ := finalizedCheckpointAuthorizations_eq_ok.1 hok
  obtain ⟨-, hread', hmem'⟩ := finalizedCheckpointAuthorizations_eq_ok.1 hok'
  rw [hwindow] at hread
  refine OrderedSet.ext_mem fun carrier => ?_
  rw [hmem, hmem', hwindow]
  refine and_congr_right fun _ => exists_congr fun id => and_congr_right fun hid => ?_
  obtain ⟨block, carriers, hblock, -⟩ := hread id hid
  obtain ⟨block', carriers', hblock', -⟩ := hread' id hid
  obtain rfl := h.eq_of_get hS h' hblock hblock'
  simp only [hblock, hblock']

theorem eligibleRaters_congr (hauthorized : ∀ rater, rater ∈ authorized ↔ rater ∈ authorized')
    (rater : NodeId) : rater ∈ eligibleRaters state authorized ↔
      rater ∈ eligibleRaters state authorized' := by
  unfold eligibleRaters
  rw [List.mem_filter, List.mem_filter, hauthorized]

end Closed

/-- **Observers that close a checkpoint round agree.**  Whatever their keys, outboxes and
exchanges are, whether or not they are ejected, and however much more than the prefix they
have finalized: they close it with the same ratings, signatures aside, and the same carriers;
and where no rating has been signed in two ways, signatures included. -/
theorem closed_checkpoints_agree {env : PorEnv} {crypto : RatingCrypto} {B B₁ B₂ : Blocklace}
    {output₁ output₂ : OrderedFinalizedOutput} {checkpoint : FinalizedPrefixCheckpoint}
    {state : ReputationState} {config : PorConfig}
    (hclosed₁ : B₁.isClosed = true) (hclosed₂ : B₂.isClosed = true)
    (hcheckpoint₁ : B₁.checkpoint = none) (hcheckpoint₂ : B₂.checkpoint = none)
    (hsub₁ : ∀ b, B₁.Stores b → B.Stores b) (hsub₂ : ∀ b, B₂.Stores b → B.Stores b)
    (hsize : ∀ x ∈ prefixHashInputs crypto.hasher
      (output₂.blocks.take (16 * checkpoint.porRound.val)), x.length < 2 ^ 64)
    (hfree : Set.InjOn crypto.hasher {x |
      x ∈ prefixHashInputs crypto.hasher (output₂.blocks.take (16 * checkpoint.porRound.val)) ∨
      x ∈ prefixHashInputs crypto.hasher (output₁.blocks.take (16 * checkpoint.porRound.val))})
    {authorized₁ authorized₂ : List NodeId}
    (hauthorized : ∀ rater, rater ∈ authorized₁ ↔ rater ∈ authorized₂)
    {σ₁ σ₂ : Type} {files₁ : CheckpointRatingFiles σ₁} {files₂ : CheckpointRatingFiles σ₂}
    {key₁ key₂ : BondedRatingKey} {world₁ : σ₁} {world₂ : σ₂}
    {completed₁ completed₂ : CompletedCheckpointRatingRound}
    (h₁ : (closeCheckpointRatingExchangeIfComplete env crypto files₁ B₁ output₁ checkpoint state
      config key₁ authorized₁ world₁).1 = .ok (some completed₁))
    (h₂ : (closeCheckpointRatingExchangeIfComplete env crypto files₂ B₂ output₂ checkpoint state
      config key₂ authorized₂ world₂).1 = .ok (some completed₂)) :
    completed₁.batch.unsigned = completed₂.batch.unsigned ∧
      completed₁.finalizedAuthorizations = completed₂.finalizedAuthorizations ∧
      ((∀ rating ∈ completed₁.batch.ratings, ∀ rating' ∈ completed₂.batch.ratings,
        rating.unsigned = rating'.unsigned → rating = rating') → completed₁ = completed₂) := by
  obtain ⟨c₁, hby₁⟩ := closedCheckpoint_of_ok h₁
  obtain ⟨c₂, hby₂⟩ := closedCheckpoint_of_ok h₂
  have hwindow := windowBlocks_agree hby₁.collected.window.checkpointOf
    hby₂.collected.window.checkpointOf hsize hfree
  have hagree : c₁.rules.Agree c₂.rules := by
    rw [hby₁.collected.rules, hby₂.collected.rules]
    exact checkpointRules_agree hwindow
  have hratings := complete_ratings_agree hagree hby₁.collected.sound hby₂.collected.sound
    (hby₁.collected.rules ▸ lawful_checkpointRules hby₁.collected.window)
    (hby₂.collected.rules ▸ lawful_checkpointRules hby₂.collected.window)
    (fun rating hrating => hby₁.complete _
      ((eligibleRaters_congr hauthorized _).2 (hby₂.collected.mem_eligible hrating)))
    fun rating hrating => hby₂.complete _
      ((eligibleRaters_congr hauthorized _).1 (hby₁.collected.mem_eligible hrating))
  have hbatch : completed₁.batch.unsigned = completed₂.batch.unsigned := by
    rw [hby₁.made, hby₂.made]
    unfold CompletedCheckpointRatingRound.new RatingBatch.unsigned
    dsimp only
    rw [map_sortRatings_unsigned, map_sortRatings_unsigned, ← OrderedMap.values_map,
      ← OrderedMap.values_map, hratings]
  have hcarriers := carriers_agree (distinctBlocks_stores B)
    (partOf_of_subset hclosed₁ hcheckpoint₁ hsub₁) (partOf_of_subset hclosed₂ hcheckpoint₂ hsub₂)
    hwindow hby₁.carriers hby₂.carriers
  refine ⟨hbatch, hcarriers, fun hsigned => ?_⟩
  have hround : completed₁.batch.round = completed₂.batch.round := by
    rw [hby₁.made, hby₂.made]
    rfl
  have hsame : completed₁.batch = completed₂.batch :=
    RatingBatch.mk.injEq .. ▸ ⟨hround, eq_of_map_unsigned (RatingBatch.mk.inj hbatch).2 hsigned⟩
  have hmade : ∀ {completed : CompletedCheckpointRatingRound} {c : RatingCollector},
      completed = .new checkpoint ⟨checkpoint.porRound, sortRatings c.ratings.values⟩
        completed.finalizedAuthorizations state →
      completed = .new checkpoint completed.batch completed.finalizedAuthorizations state := by
    intro completed c h
    rw [h]
    rfl
  rw [hmade hby₁.made, hmade hby₂.made, hsame, hcarriers]

/-! ### Two views of a checkpoint -/

/-- Blocks of two creators in turn. -/
def pairedIdentity (k : ℕ) : BlockIdentity :=
  { keyedIdentity (Fin.ofNat _ (k % 2 + 1)) with contentHash := Fin.ofNat _ k }

/-- A chain of seventeen of them. -/
def pairedLace : Blocklace :=
  (Blocklace.new 0).growBy (Blocklace.sampleBlock (pairedIdentity 0) [] ::
    (List.range 16).map fun k => Blocklace.sampleBlock (pairedIdentity (k + 1)) [pairedIdentity k])

/-- The first `n` of them are finalized. -/
def pairedOutput (n : ℕ) : OrderedFinalizedOutput :=
  ⟨(List.range n).map pairedIdentity, some (pairedIdentity (n - 1)), 1⟩

/-- Their first checkpoint. -/
def pairedCheckpoint : FinalizedPrefixCheckpoint :=
  ⟨1, 16, finalizedPrefixHash polynomialHasher (pairedOutput 16).blocks, pairedIdentity 15⟩

/-- Keys of 33 bytes, and a hash without collisions on the prefix. -/
def pairedCrypto : RatingCrypto := { keyedCrypto with hasher := polynomialHasher }

/-- Both creators have a reputation. -/
def pairedState : ReputationState :=
  ((ReputationState.new 0).setReputation (keyedIdentity 1).creator 5).setReputation
    (keyedIdentity 2).creator 5

/-- The envelopes of a rater. -/
def pairedEnvelopes (rater : NodeId) : List (List Byte) :=
  ((buildFinalizedCheckpointRatingBatch pairedCrypto pairedLace (pairedOutput 16) pairedCheckpoint
      rater pairedState .default []).toOption.bind fun batch =>
    (@encodeCheckpointRatingBatch Unit pairedCheckpoint.ratingSource batch).toOption).getD []

/-- An exchange where everyone's envelopes are. -/
def pairedFiles : CheckpointRatingFiles Unit where
  load _ rater := fun world => (.ok (some (pairedEnvelopes rater)), world)
  broadcaster _ _ := fun _ world => (.ok (), world)
  readPeerEnvelopes _ own _ eligible := fun world =>
    (.ok ((eligible.filter (· ≠ own)).flatMap pairedEnvelopes), world)

/-- An observer closes the checkpoint when `n` blocks are finalized. -/
def closePaired (n : ℕ) (creator : Byte) :
    Except LocalRatingError (Option CompletedCheckpointRatingRound) :=
  (closeCheckpointRatingExchangeIfComplete
    { FinalizedEquivocationAuthorization.waveEnv false with hasher := polynomialHasher }
    pairedCrypto pairedFiles pairedLace (pairedOutput n) pairedCheckpoint pairedState .default
    ⟨(keyedIdentity creator).creator, []⟩
    [(keyedIdentity 1).creator, (keyedIdentity 2).creator] ()).1

/-- The hash has no collision on the prefix that both finalize. -/
theorem paired_hashes :
    (∀ x ∈ prefixHashInputs polynomialHasher ((pairedOutput 17).blocks.take 16),
      x.length < 2 ^ 64) ∧
    Set.InjOn polynomialHasher
      {x | x ∈ prefixHashInputs polynomialHasher ((pairedOutput 17).blocks.take 16) ∨
        x ∈ prefixHashInputs polynomialHasher ((pairedOutput 16).blocks.take 16)} := by
  have htake : (pairedOutput 17).blocks.take 16 = (pairedOutput 16).blocks.take 16 := by
    decide +kernel
  have hnodup : ((prefixHashInputs polynomialHasher ((pairedOutput 17).blocks.take 16)).map
      polynomialHasher).Nodup := by decide +kernel
  rw [← htake]
  refine ⟨by decide +kernel, fun x hx y hy heq => ?_⟩
  exact List.inj_on_of_nodup_map hnodup (or_self_iff.1 hx) (or_self_iff.1 hy) heq

/-- The second creator has finalized one block more when it closes the round. -/
theorem closed_checkpoints_agree_paired : ∃ completed₁ completed₂,
    closePaired 16 1 = .ok (some completed₁) ∧ closePaired 17 2 = .ok (some completed₂) ∧
      completed₁.batch.ratings.length = 2 ∧
      completed₁.batch.unsigned = completed₂.batch.unsigned ∧
      completed₁.finalizedAuthorizations = completed₂.finalizedAuthorizations := by
  have hok₁ : (closePaired 16 1).toOption.join.any
      (fun completed => completed.batch.ratings.length = 2) = true := by decide +kernel
  have hok₂ : (closePaired 17 2).toOption.join.isSome = true := by decide +kernel
  obtain ⟨completed₁, hcompleted₁, htwo⟩ := (Option.any_eq_true _ _).1 hok₁
  obtain ⟨completed₂, hcompleted₂⟩ := Option.isSome_iff_exists.1 hok₂
  have h₁ := Codec.eq_ok_of_toOption (Option.join_eq_some_iff.1 hcompleted₁)
  have h₂ := Codec.eq_ok_of_toOption (Option.join_eq_some_iff.1 hcompleted₂)
  have hclosed : pairedLace.isClosed = true := by decide +kernel
  have hround : 16 * pairedCheckpoint.porRound.val = 16 := rfl
  obtain ⟨hbatch, hcarriers, -⟩ := closed_checkpoints_agree (B := pairedLace) hclosed hclosed
    (by decide +kernel) (by decide +kernel) (fun _ hb => hb) (fun _ hb => hb)
    (by rw [hround]; exact paired_hashes.1) (by rw [hround]; exact paired_hashes.2)
    (fun _ => Iff.rfl) h₁ h₂
  exact ⟨completed₁, completed₂, h₁, h₂, by simpa using htwo, hbatch, hcarriers⟩

/-! ### Staging again -/

namespace Exchange

variable {σ α β : Type} {world world' : σ} {b : β}

/-- What does not touch the world leaves it to the rest. -/
theorem run_ofExcept {r : Except LocalRatingError α} {k : α → Exchange σ β}
    (h : (ofExcept r >>= k) world = (.ok b, world')) :
    ∃ a, r = .ok a ∧ k a world = (.ok b, world') := by
  obtain ⟨a, _, hr, h⟩ := run_bind h
  obtain ⟨rfl, rfl⟩ := Prod.mk.inj hr
  exact ⟨a, rfl, h⟩

theorem run_require {condition : Bool} {text : String} {k : Unit → Exchange σ β}
    (h : (Exchange.require condition text >>= k) world = (.ok b, world')) :
    condition = true ∧ k () world = (.ok b, world') := by
  obtain ⟨_, hcondition, h⟩ := run_ofExcept h
  cases condition with
  | false => exact absurd hcondition nofun
  | true => exact ⟨rfl, h⟩

theorem run_called {call : PorRatingRoundCoordinator.Called α}
    {k : α × PorRatingRoundCoordinator → Exchange σ β}
    (h : (called call >>= k) world = (.ok b, world')) :
    ∃ a c, call = some (.ok a, c) ∧ k (a, c) world = (.ok b, world') := by
  obtain ⟨⟨a, c⟩, world'', hcall, h⟩ := run_bind h
  have hworld : world = world'' := (Prod.mk.inj hcall).2
  exact ⟨a, c, called_eq_ok.1 (congrArg Prod.fst hcall), hworld ▸ h⟩

/-- A call to the storage that is followed by no other one. -/
theorem run_stored {call : σ → Except String α × σ} {b' : α → β}
    (h : (stored call >>= fun a => pure (b' a)) world = (.ok b, world')) :
    ∃ a, call world = (.ok a, world') ∧ b = b' a := by
  obtain ⟨a, world'', hcall, h⟩ := run_bind h
  obtain ⟨hb, rfl⟩ := Prod.mk.inj h
  obtain ⟨hanswer, hworld⟩ := Prod.mk.inj hcall
  exact ⟨a, Prod.ext (mapError_eq_ok.1 hanswer) hworld, (Except.ok.inj hb).symm⟩

end Exchange

section Staging

variable {σ : Type} {crypto : RatingCrypto} {outbox : StagingOutbox σ}
  {B B' : Blocklace} {output output' : OrderedFinalizedOutput}
  {checkpoint : FinalizedPrefixCheckpoint} {state : ReputationState} {config : PorConfig}
  {key : BondedRatingKey} {world world' : σ} {rater : NodeId} {privateKey : List Byte}
  {batch batch' : RatingBatch} {S : Set Block}

/-- **Two views build the same batch of a wave.** -/
theorem finalizedBatch_agree {opened : FinalizedRatingRound} (hS : DistinctBlocks S)
    (h : PartOf S B) (h' : PartOf S B')
    (hbuilt : buildFinalizedBlockProductionRatingBatch crypto B output opened rater state config
      privateKey = .ok batch)
    (hbuilt' : buildFinalizedBlockProductionRatingBatch crypto B' output opened rater state config
      privateKey = .ok batch') : batch = batch' := by
  unfold buildFinalizedBlockProductionRatingBatch at hbuilt hbuilt'
  obtain ⟨admitted, hadmitted, hbuilt⟩ := bind_eq_ok.1 hbuilt
  obtain ⟨admitted', hadmitted', hbuilt'⟩ := bind_eq_ok.1 hbuilt'
  rw [mapError_eq_ok] at hadmitted hadmitted'
  obtain rfl := finalizedInteractions_agree hS h h' hadmitted hadmitted'
  exact Except.ok.inj (hbuilt.symm.trans hbuilt')

/-- **Two views build the same batch of a checkpoint**, wherever their outputs end. -/
theorem checkpointBatch_agree
    (hwindow : windowBlocks output checkpoint = windowBlocks output' checkpoint)
    (hbuilt : buildFinalizedCheckpointRatingBatch crypto B output checkpoint rater state config
      privateKey = .ok batch)
    (hbuilt' : buildFinalizedCheckpointRatingBatch crypto B' output' checkpoint rater state config
      privateKey = .ok batch') : batch = batch' := by
  unfold buildFinalizedCheckpointRatingBatch at hbuilt hbuilt'
  rw [check_eq_ok, bind_eq_ok] at hbuilt hbuilt'
  obtain ⟨-, admitted, hadmitted, hbuilt⟩ := hbuilt
  obtain ⟨-, admitted', hadmitted', hbuilt'⟩ := hbuilt'
  rw [mapError_eq_ok] at hadmitted hadmitted'
  obtain rfl := checkpointInteractions_agree hwindow hadmitted hadmitted'
  exact Except.ok.inj (hbuilt.symm.trans hbuilt')

namespace PorRatingRoundCoordinator

variable {c c' : PorRatingRoundCoordinator}

theorem of_orReturn {α β : Type} {r : Except PorRatingRoundError β} {k : β → Called α} {a : α}
    (h : c.orReturn r k = some (.ok a, c')) : ∃ b, r = .ok b ∧ k b = some (.ok a, c') := by
  cases r with
  | error error =>
      rw [orReturn_error] at h
      exact absurd (Prod.mk.inj (Option.some.inj h)).1 nofun
  | ok b => exact ⟨b, rfl, h⟩

/-- A batch that is produced has been built. -/
theorem built_of_produce (h : c.produceLocalBatch crypto rater privateKey = some (.ok batch, c')) :
    buildFinalizedBlockProductionRatingBatch crypto c.blocklace c.output c.opened rater c.state
      c.config privateKey = .ok batch := by
  unfold produceLocalBatch at h
  obtain ⟨_, -, h⟩ := of_orReturn h
  split_ifs at h
  · exact absurd (Prod.mk.inj (Option.some.inj h)).1 nofun
  · obtain ⟨built, hbuilt, h⟩ := of_orReturn h
    obtain ⟨outbound, -, h⟩ := of_orReturn h
    obtain ⟨collector, -, h⟩ := Option.bind_eq_some_iff.1 h
    obtain ⟨_, -, h⟩ := of_orReturn h
    obtain rfl := Except.ok.inj (Prod.mk.inj (Option.some.inj h)).1
    exact mapError_eq_ok.1 hbuilt

end PorRatingRoundCoordinator

/-- **What staging a wave persists**: the batch that is built. -/
theorem stageLocalRatingBatch_ok {staged : StagedLocalRatingBatch}
    (hok : stageLocalRatingBatch crypto outbox B output state config key world =
      (.ok (some staged), world')) :
    ∃ ratingRound batch, ratingRoundFromFinalizedWave state.currentRound = .ok ratingRound ∧
      buildFinalizedBlockProductionRatingBatch crypto B output ⟨state.currentRound, ratingRound⟩
        key.rater state config key.privateKey = .ok batch ∧
      outbox.persistLocalBatch state.currentRound key.rater batch world = (.ok (), world') ∧
      staged = ⟨state.currentRound.val, ratingRound, batch.ratings.length⟩ := by
  unfold stageLocalRatingBatch at hok
  obtain ⟨found, -, hok⟩ := Exchange.run_ofExcept hok
  cases found with
  | none => exact absurd (Except.ok.inj (congrArg Prod.fst hok)) (by simp)
  | some wave =>
      dsimp only at hok
      split_ifs at hok with hlt
      · exact absurd (Except.ok.inj (congrArg Prod.fst hok)) (by simp)
      obtain ⟨hwave, hok⟩ := Exchange.run_require hok
      obtain ⟨ratingRound, hround, hok⟩ := Exchange.run_ofExcept hok
      obtain ⟨start, hnew, hok⟩ := Exchange.run_ofExcept hok
      obtain ⟨batch, c, hproduced, hok⟩ := Exchange.run_called hok
      obtain ⟨_, hpersisted, hstaged⟩ := Exchange.run_stored hok
      obtain ⟨hblocklace, houtput, hopened, hstate, hconfig, -⟩ :=
        PorRatingRoundCoordinator.new_ok (mapError_eq_ok.1 hnew)
      have hbuilt := PorRatingRoundCoordinator.built_of_produce hproduced
      rw [hblocklace, houtput, hopened, hstate, hconfig] at hbuilt
      refine ⟨ratingRound, batch, mapError_eq_ok.1 hround, hbuilt, hpersisted, ?_⟩
      rw [← of_decide_eq_true hwave]
      exact Option.some.inj hstaged

/-- **What staging a checkpoint persists**: nothing for an ejected rater, or the batch. -/
theorem stageLocalCheckpointRatingBatch_ok {n : ℕ}
    (hok : stageLocalCheckpointRatingBatch crypto outbox B output checkpoint state config key
      world = (.ok n, world')) :
    ValidWindow crypto.hasher B output checkpoint ∧
      (state.isEjected key.rater = true ∧ n = 0 ∧ world' = world ∨
        state.isEjected key.rater = false ∧ ∃ batch,
          buildFinalizedCheckpointRatingBatch crypto B output checkpoint key.rater state config
            key.privateKey = .ok batch ∧
          outbox.persistCheckpointBatch checkpoint.ratingSource key.rater batch world =
            (.ok (), world') ∧ n = batch.ratings.length) := by
  unfold stageLocalCheckpointRatingBatch at hok
  obtain ⟨_, hwindow, hok⟩ := Exchange.run_ofExcept hok
  rw [mapError_eq_ok, validateFinalizedCheckpointWindow_eq_ok] at hwindow
  obtain ⟨-, hok⟩ := Exchange.run_require hok
  refine ⟨hwindow, ?_⟩
  split_ifs at hok with hejected
  · obtain ⟨hn, hworld⟩ := Prod.mk.inj hok
    exact .inl ⟨hejected, (Except.ok.inj hn).symm, hworld.symm⟩
  · obtain ⟨batch, hbatch, hok⟩ := Exchange.run_ofExcept hok
    obtain ⟨_, hpersisted, hn⟩ := Exchange.run_stored hok
    exact .inr ⟨by simpa using hejected, batch, mapError_eq_ok.1 hbatch, hpersisted, hn⟩

end Staging

/-- **Staging again stages the same.**  Whatever more a validator has received when it is
started again, it persists the batch of a wave that it has persisted before; for a checkpoint
it does so wherever its finalized output ends, or persists nothing if it is ejected. -/
theorem staged_batches_agree {crypto : RatingCrypto} {B B₁ B₂ : Blocklace}
    {state : ReputationState} {config : PorConfig}
    (hclosed₁ : B₁.isClosed = true) (hclosed₂ : B₂.isClosed = true)
    (hcheckpoint₁ : B₁.checkpoint = none) (hcheckpoint₂ : B₂.checkpoint = none)
    (hsub₁ : ∀ b, B₁.Stores b → B.Stores b) (hsub₂ : ∀ b, B₂.Stores b → B.Stores b)
    (key : BondedRatingKey) {σ₁ σ₂ : Type} (outbox₁ : StagingOutbox σ₁)
    (outbox₂ : StagingOutbox σ₂) (world₁ world₁' : σ₁) (world₂ world₂' : σ₂) :
    (∀ output staged₁ staged₂,
      stageLocalRatingBatch crypto outbox₁ B₁ output state config key world₁ =
        (.ok (some staged₁), world₁') →
      stageLocalRatingBatch crypto outbox₂ B₂ output state config key world₂ =
        (.ok (some staged₂), world₂') →
      staged₁ = staged₂ ∧ ∃ batch,
        outbox₁.persistLocalBatch state.currentRound key.rater batch world₁ = (.ok (), world₁') ∧
        outbox₂.persistLocalBatch state.currentRound key.rater batch world₂ = (.ok (), world₂')) ∧
    ∀ (checkpoint : FinalizedPrefixCheckpoint) (output₁ output₂ : OrderedFinalizedOutput) n₁ n₂,
      (∀ x ∈ prefixHashInputs crypto.hasher
        (output₂.blocks.take (16 * checkpoint.porRound.val)), x.length < 2 ^ 64) →
      Set.InjOn crypto.hasher {x |
        x ∈ prefixHashInputs crypto.hasher (output₂.blocks.take (16 * checkpoint.porRound.val)) ∨
        x ∈ prefixHashInputs crypto.hasher (output₁.blocks.take (16 * checkpoint.porRound.val))} →
      stageLocalCheckpointRatingBatch crypto outbox₁ B₁ output₁ checkpoint state config key
        world₁ = (.ok n₁, world₁') →
      stageLocalCheckpointRatingBatch crypto outbox₂ B₂ output₂ checkpoint state config key
        world₂ = (.ok n₂, world₂') →
      n₁ = n₂ ∧ (state.isEjected key.rater = true ∧ world₁' = world₁ ∧ world₂' = world₂ ∨
        ∃ batch, outbox₁.persistCheckpointBatch checkpoint.ratingSource key.rater batch world₁ =
            (.ok (), world₁') ∧
          outbox₂.persistCheckpointBatch checkpoint.ratingSource key.rater batch world₂ =
            (.ok (), world₂')) := by
  have hS := distinctBlocks_stores B
  have hpart₁ := partOf_of_subset hclosed₁ hcheckpoint₁ hsub₁
  have hpart₂ := partOf_of_subset hclosed₂ hcheckpoint₂ hsub₂
  refine ⟨fun output staged₁ staged₂ h₁ h₂ => ?_,
    fun checkpoint output₁ output₂ n₁ n₂ hsize hfree h₁ h₂ => ?_⟩
  · obtain ⟨round₁, batch₁, hround₁, hbuilt₁, hpersist₁, rfl⟩ := stageLocalRatingBatch_ok h₁
    obtain ⟨round₂, batch₂, hround₂, hbuilt₂, hpersist₂, rfl⟩ := stageLocalRatingBatch_ok h₂
    obtain rfl := Except.ok.inj (hround₁.symm.trans hround₂)
    obtain rfl := finalizedBatch_agree hS hpart₁ hpart₂ hbuilt₁ hbuilt₂
    exact ⟨rfl, batch₁, hpersist₁, hpersist₂⟩
  · obtain ⟨hwindow₁, h₁⟩ := stageLocalCheckpointRatingBatch_ok h₁
    obtain ⟨hwindow₂, h₂⟩ := stageLocalCheckpointRatingBatch_ok h₂
    rcases h₁ with ⟨hejected, rfl, hworld₁⟩ | ⟨hkept, batch₁, hbuilt₁, hpersist₁, rfl⟩
    · rcases h₂ with ⟨-, rfl, hworld₂⟩ | ⟨hkept, -⟩
      · exact ⟨rfl, .inl ⟨hejected, hworld₁, hworld₂⟩⟩
      · exact absurd (hejected.symm.trans hkept) (by simp)
    · rcases h₂ with ⟨hejected, -⟩ | ⟨-, batch₂, hbuilt₂, hpersist₂, rfl⟩
      · exact absurd (hejected.symm.trans hkept) (by simp)
      · obtain rfl := checkpointBatch_agree (windowBlocks_agree hwindow₁.checkpointOf
          hwindow₂.checkpointOf hsize hfree) hbuilt₁ hbuilt₂
        exact ⟨rfl, .inr ⟨batch₁, hpersist₁, hpersist₂⟩⟩

/-- An outbox that keeps what is staged. -/
def stagingOutbox : StagingOutbox (List RatingBatch) where
  persistLocalBatch _ _ batch := fun staged => (.ok (), batch :: staged)
  persistCheckpointBatch _ _ batch := fun staged => (.ok (), batch :: staged)

/-- The first creator stages its ratings of a wave. -/
def stageRated (B : Blocklace) : Except LocalRatingError (Option StagedLocalRatingBatch) ×
    List RatingBatch :=
  stageLocalRatingBatch keyedCrypto stagingOutbox B ratedOutput ratedState .default
    ⟨(keyedIdentity 1).creator, []⟩ []

/-- It stages its ratings of the checkpoint when `n` blocks are finalized. -/
def stagePaired (n : ℕ) : Except LocalRatingError ℕ × List RatingBatch :=
  stageLocalCheckpointRatingBatch pairedCrypto stagingOutbox pairedLace (pairedOutput n)
    pairedCheckpoint pairedState .default ⟨(keyedIdentity 1).creator, []⟩ []

/-- It stages the same two ratings when it knows a fourth block, and the same batch of the
checkpoint when one block more is finalized. -/
theorem staged_batches_agree_rated :
    (∃ staged, (stageRated ratedLace).1 = .ok (some staged) ∧
      (stageRated widerLace).1 = .ok (some staged) ∧ staged.ratingCount = 2 ∧
      (stageRated ratedLace).2 = (stageRated widerLace).2) ∧
    ∃ count, (stagePaired 16).1 = .ok count ∧ (stagePaired 17).1 = .ok count ∧
      (stagePaired 16).2 = (stagePaired 17).2 := by
  constructor
  · have hok₁ : (stageRated ratedLace).1.toOption.join.any
        (fun staged => staged.ratingCount = 2) = true := by decide +kernel
    have hok₂ : (stageRated widerLace).1.toOption.join.isSome = true := by decide +kernel
    obtain ⟨staged₁, hstaged₁, htwo⟩ := (Option.any_eq_true _ _).1 hok₁
    obtain ⟨staged₂, hstaged₂⟩ := Option.isSome_iff_exists.1 hok₂
    have h₁ := Codec.eq_ok_of_toOption (Option.join_eq_some_iff.1 hstaged₁)
    have h₂ := Codec.eq_ok_of_toOption (Option.join_eq_some_iff.1 hstaged₂)
    obtain ⟨rfl, batch, hbatch₁, hbatch₂⟩ := (staged_batches_agree (B := widerLace)
      (by decide +kernel) (by decide +kernel) (by decide +kernel) (by decide +kernel)
      stores_widerLace (fun _ hb => hb) _ _ _ _ (stageRated ratedLace).2 _
      (stageRated widerLace).2).1 _ _ _ (Prod.ext h₁ rfl) (Prod.ext h₂ rfl)
    exact ⟨staged₁, h₁, h₂, by simpa using htwo,
      (Prod.mk.inj hbatch₁).2.symm.trans (Prod.mk.inj hbatch₂).2⟩
  · have hok₁ : (stagePaired 16).1.isOk = true := by decide +kernel
    have hok₂ : (stagePaired 17).1.isOk = true := by decide +kernel
    obtain ⟨n₁, h₁⟩ := Codec.exists_eq_ok_of_isOk hok₁
    obtain ⟨n₂, h₂⟩ := Codec.exists_eq_ok_of_isOk hok₂
    have hclosed : pairedLace.isClosed = true := by decide +kernel
    have hround : 16 * pairedCheckpoint.porRound.val = 16 := rfl
    have hstaged₁ : stagePaired 16 = (.ok n₁, (stagePaired 16).2) := by rw [← h₁]
    have hstaged₂ : stagePaired 17 = (.ok n₂, (stagePaired 17).2) := by rw [← h₂]
    obtain ⟨rfl, ⟨hejected, -⟩ | ⟨batch, hbatch₁, hbatch₂⟩⟩ :=
      (staged_batches_agree (B := pairedLace) hclosed hclosed (by decide +kernel)
        (by decide +kernel) (fun _ hb => hb) (fun _ hb => hb) _ _ _ _ _ _ _).2 _ _ _ _ _
        (by rw [hround]; exact paired_hashes.1) (by rw [hround]; exact paired_hashes.2)
        hstaged₁ hstaged₂
    · exact absurd hejected (by decide +kernel)
    · exact ⟨n₁, h₁, h₂, (Prod.mk.inj hbatch₁).2.symm.trans (Prod.mk.inj hbatch₂).2⟩

end CordialMiners.Reputation
