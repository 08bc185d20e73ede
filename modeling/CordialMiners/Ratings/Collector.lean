/-
# Collecting ratings

`por/collector.rs` and the inbound half of `por/transport/mod.rs`.

A collector keeps at most one rating for each rater and recipient.  A rating is admitted
when it belongs to the round, its rater is authorized and has signed it, nothing is
there for its rater and recipient, and it says what the finalized evidence asks for.  A
rater is complete when as many of its ratings are there as the evidence asks for.

The collector of a wave and that of a checkpoint are one collector under two sets of
rules (`RatingRules`): the wave collector asks for no authorization, and the checkpoint
collector validates the source and the rater once more.

What a submission does depends on the rating and on what is there under its key, and on
nothing else (`validateSubmission_eq_ok`).
-/

import CordialMiners.Ratings.Envelope

namespace CordialMiners.Reputation

open Codec (bind_eq_ok check_eq_ok guard_eq_ok map_eq_ok mapError_eq_ok)

/-- `PorRatingCollectorError`. -/
inductive PorRatingCollectorError where
  | interaction (error : InteractionError)
  | rating (error : PorRatingError)
  | invalidStateRound
  | invalidFinalizedWave
  | invalidCheckpointSource
  | unauthorizedRater (rater : NodeId)
  | invalidRatingRound
  | invalidBatchRound
  | missingFinalizedInteraction
  | interactionReferenceMismatch
  | scoreMismatch
  | duplicateRating
  | conflictingRating
deriving DecidableEq, Repr

abbrev ReceiveError := PorRatingTransportError PorRatingCollectorError

/-- What a collector checks ratings against. -/
structure RatingRules where
  crypto : RatingCrypto
  config : PorConfig
  round : U64
  payload : RatingPayload
  authorized : NodeId → Bool
  /-- Validate the source of a batch. -/
  validateSource : Except PorError Unit
  /-- Validate a rater whose ratings are counted. -/
  validateRater : NodeId → Except PorRatingCollectorError Unit
  /-- What the finalized evidence asks of a rater. -/
  expected : NodeId → Except PorRatingCollectorError (List ExpectedRating)
  /-- Decode an envelope that belongs to the round. -/
  openEnvelope : List Byte → Except ReceiveError RatingRecord

/-- `rating_key`. -/
def collectorKey (rating : RatingRecord) : NodeId ×ₗ NodeId := toLex (rating.rater, rating.recipient)

/-- The accepted ratings by rater and recipient. -/
abbrev AcceptedRatings := OrderedMap (NodeId ×ₗ NodeId) RatingRecord

/-- A collector under its rules. -/
structure RatingCollector where
  rules : RatingRules
  ratings : AcceptedRatings

namespace RatingCollector

/-- `validate_submission`. -/
def validateSubmission (rules : RatingRules) (accepted : AcceptedRatings) (rating : RatingRecord) :
    Except PorRatingCollectorError Unit :=
  if rating.round ≠ rules.round then .error .invalidRatingRound
  else if !rules.authorized rating.rater then .error (.unauthorizedRater rating.rater)
  else do
    (validateSignedOf rules.crypto rules.payload rating rules.config).mapError .rating
    match accepted.lookup (collectorKey rating) with
    | some existing =>
        if canonicalRatingPayload existing = canonicalRatingPayload rating then
          .error .duplicateRating
        else .error .conflictingRating
    | none => do
        let admitted ← rules.expected rating.rater
        let interaction ← okOr .missingFinalizedInteraction
          (admitted.find? fun interaction => interaction.recipient = rating.recipient)
        if rating.interactionRef ≠ some interaction.evidenceRef then
          .error .interactionReferenceMismatch
        else do
          let score ← interaction.score.mapError fun error => .rating (.protocol error)
          if rating.score ≠ score then .error .scoreMismatch else .ok ()

/-- `insert`: the result, and the collector after it. -/
def insert (c : RatingCollector) (rating : RatingRecord) :
    Except PorRatingCollectorError Unit × RatingCollector :=
  match validateSubmission c.rules c.ratings rating with
  | .error error => (.error error, c)
  | .ok () => (.ok (), { c with ratings := c.ratings.insert (collectorKey rating) rating })

/-- The loop of `insert_batch` over the staged ratings. -/
def stage (rules : RatingRules) :
    List RatingRecord → AcceptedRatings → Except PorRatingCollectorError AcceptedRatings
  | [], staged => .ok staged
  | rating :: ratings, staged => do
      validateSubmission rules staged rating
      stage rules ratings (staged.insert (collectorKey rating) rating)

/-- `insert_batch`. -/
def insertBatch (c : RatingCollector) (batch : RatingBatch) :
    Except PorRatingCollectorError Unit × RatingCollector :=
  if batch.round ≠ c.rules.round then (.error .invalidBatchRound, c)
  else
    match stage c.rules batch.ratings c.ratings with
    | .error error => (.error error, c)
    | .ok staged => (.ok (), { c with ratings := staged })

/-- `receive_rating_envelope` and `receive_checkpoint_rating_envelope`: decode, then
`insert_envelope`. -/
def receive (c : RatingCollector) (encoded : List Byte) :
    Except ReceiveError Unit × RatingCollector :=
  match c.rules.openEnvelope encoded with
  | .error error => (.error error, c)
  | .ok rating => ((c.insert rating).1.mapError .collector, (c.insert rating).2)

/-- `is_rater_complete`. -/
def isRaterComplete (c : RatingCollector) (rater : NodeId) :
    Except PorRatingCollectorError Bool :=
  if !c.rules.authorized rater then .error (.unauthorizedRater rater)
  else do
    c.rules.validateRater rater
    let expected ← c.rules.expected rater
    let collected := (c.ratings.values.filter fun rating => rating.rater = rater).length
    .ok (collected = expected.length)

/-- The raters of the accepted ratings. -/
def raters (c : RatingCollector) : OrderedSet NodeId :=
  (c.ratings.values.map RatingRecord.rater).foldl OrderedSet.insert .empty

/-- The complete ones of the given raters. -/
def completeOf (c : RatingCollector) (raters : List NodeId) :
    Except PorRatingCollectorError (OrderedSet NodeId) :=
  raters.foldlM (fun complete rater => do
    let isComplete ← c.isRaterComplete rater
    .ok (if isComplete then complete.insert rater else complete)) .empty

/-- `build_complete_batch`. -/
def buildCompleteBatch (c : RatingCollector) : Except PorRatingCollectorError RatingBatch := do
  let completeRaters ← c.completeOf c.raters.toList
  c.rules.validateSource.mapError fun error => .rating (.protocol error)
  (buildVerifiedOf c.rules.crypto c.rules.payload c.rules.round
    (c.ratings.values.filter fun rating => rating.rater ∈ completeRaters) c.rules.config).mapError
      .rating

end RatingCollector

/-! ### The two collectors -/

section Rules

variable (crypto : RatingCrypto) (B : Blocklace) (output : OrderedFinalizedOutput)
  (state : ReputationState) (config : PorConfig)

/-- The rules of a checkpoint round. -/
def checkpointRules (checkpoint : FinalizedPrefixCheckpoint) (authorizedRaters : List NodeId) :
    RatingRules where
  crypto
  config
  round := checkpoint.porRound
  payload := checkpointRatingPayload checkpoint.ratingSource
  authorized rater := rater ∈ authorizedRaters.filter fun rater => !state.isEjected rater
  validateSource := checkpoint.ratingSource.validate
  validateRater rater := (validateCheckpointRater checkpoint.ratingSource rater state).mapError
    fun error => .interaction (.admission error)
  expected rater := ((admitCheckpointBlockProductionInteractions crypto.hasher B output checkpoint
    rater state).mapError .interaction).map fun admitted => admitted.map fun interaction =>
      ⟨interaction.evidence.recipient, interaction.evidence.evidenceRef,
        scoreAdmittedCheckpointInteraction interaction config⟩
  openEnvelope encoded := do
    let envelope ← (BlockProductionRatingEnvelopeV2.decode encoded).mapError .wire
    if envelope.source ≠ checkpoint.ratingSource then .error (.collector .invalidCheckpointSource)
    else .ok envelope.rating

/-- The rules of a round that a finalized wave opens. -/
def waveRules (opened : FinalizedRatingRound) : RatingRules where
  crypto
  config
  round := opened.ratingRound
  payload := waveRatingPayload
  authorized _ := true
  validateSource := .ok ()
  validateRater _ := .ok ()
  expected rater := ((admitFinalizedBlockProductionInteractions B output opened rater state).mapError
    .interaction).map fun admitted => admitted.map fun interaction =>
      ⟨interaction.evidence.recipient, interaction.evidence.evidenceRef,
        scoreAdmittedInteraction interaction config⟩
  openEnvelope encoded := do
    let envelope ← (BlockProductionRatingEnvelopeV1.decode encoded).mapError .wire
    if envelope.finalizedWave ≠ opened.finalizedWave then .error (.collector .invalidFinalizedWave)
    else .ok envelope.rating

/-- `CheckpointBlockProductionRatingCollector::new`. -/
def CheckpointBlockProductionRatingCollector.new (checkpoint : FinalizedPrefixCheckpoint)
    (authorizedRaters : List NodeId) : Except PorRatingCollectorError RatingCollector := do
  (validateFinalizedCheckpointWindow crypto.hasher B output checkpoint).mapError fun error =>
    .interaction (.window error)
  if checkedAdd64 state.currentRound.val 1 ≠ some checkpoint.porRound.val then
    .error .invalidStateRound
  else .ok ⟨checkpointRules crypto B output state config checkpoint authorizedRaters, .empty⟩

/-- `BlockProductionRatingCollector::new`. -/
def BlockProductionRatingCollector.new (opened : FinalizedRatingRound) :
    Except PorRatingCollectorError RatingCollector := do
  (validateFinalizedRatingRound B output opened).mapError .interaction
  if checkedAdd64 state.currentRound.val 1 ≠ some opened.ratingRound.val then
    .error .invalidStateRound
  else .ok ⟨waveRules crypto B output state config opened, .empty⟩

end Rules

/-- The rules are those of a round that has been opened. -/
structure RatingRules.Lawful (rules : RatingRules) : Prop where
  source : rules.validateSource = .ok ()
  rater : ∀ {rater expected}, rules.expected rater = .ok expected → expected ≠ [] →
    rules.validateRater rater = .ok ()
  distinct : ∀ {rater expected}, rules.expected rater = .ok expected →
    (expected.map ExpectedRating.recipient).Nodup

section New

variable {crypto : RatingCrypto} {B : Blocklace} {output : OrderedFinalizedOutput}
  {state : ReputationState} {config : PorConfig} {checkpoint : FinalizedPrefixCheckpoint}
  {authorizedRaters : List NodeId} {opened : FinalizedRatingRound} {c : RatingCollector}

theorem CheckpointBlockProductionRatingCollector.new_eq_ok :
    new crypto B output state config checkpoint authorizedRaters = .ok c ↔
      ValidWindow crypto.hasher B output checkpoint ∧
        checkedAdd64 state.currentRound.val 1 = some checkpoint.porRound.val ∧
        c = ⟨checkpointRules crypto B output state config checkpoint authorizedRaters, .empty⟩ := by
  unfold new
  rw [check_eq_ok, mapError_eq_ok,
    validateFinalizedCheckpointWindow_eq_ok, guard_eq_ok, not_not, Except.ok.injEq]
  exact and_congr_right fun _ => and_congr_right fun _ => eq_comm

theorem BlockProductionRatingCollector.new_eq_ok :
    new crypto B output state config opened = .ok c ↔
      validateFinalizedRatingRound B output opened = .ok () ∧
        checkedAdd64 state.currentRound.val 1 = some opened.ratingRound.val ∧
        c = ⟨waveRules crypto B output state config opened, .empty⟩ := by
  unfold new
  rw [check_eq_ok, mapError_eq_ok, guard_eq_ok, not_not,
    Except.ok.injEq]
  exact and_congr_right fun _ => and_congr_right fun _ => eq_comm

theorem checkpointRules_expected_iff {rater : NodeId} {expected : List ExpectedRating} :
    (checkpointRules crypto B output state config checkpoint authorizedRaters).expected rater =
      .ok expected ↔ ∃ admitted,
        admitCheckpointBlockProductionInteractions crypto.hasher B output checkpoint rater state =
          .ok admitted ∧ expected = admitted.map fun interaction =>
            ⟨interaction.evidence.recipient, interaction.evidence.evidenceRef,
              scoreAdmittedCheckpointInteraction interaction config⟩ := by
  unfold checkpointRules
  dsimp only
  simp only [map_eq_ok, mapError_eq_ok, eq_comm (a := expected)]

theorem waveRules_expected_iff {rater : NodeId} {expected : List ExpectedRating} :
    (waveRules crypto B output state config opened).expected rater = .ok expected ↔ ∃ admitted,
      admitFinalizedBlockProductionInteractions B output opened rater state = .ok admitted ∧
        expected = admitted.map fun interaction =>
          ⟨interaction.evidence.recipient, interaction.evidence.evidenceRef,
            scoreAdmittedInteraction interaction config⟩ := by
  unfold waveRules
  dsimp only
  simp only [map_eq_ok, mapError_eq_ok, eq_comm (a := expected)]

theorem lawful_checkpointRules (hwindow : ValidWindow crypto.hasher B output checkpoint) :
    (checkpointRules crypto B output state config checkpoint authorizedRaters).Lawful where
  source := hwindow.checkpointOf.validate_ratingSource
  rater := by
    intro rater expected h hne
    obtain ⟨admitted, hadmitted, rfl⟩ := checkpointRules_expected_iff.1 h
    obtain ⟨interaction, hinteraction⟩ := List.exists_mem_of_ne_nil admitted (by simpa using hne)
    obtain ⟨-, -, -, -, hrater, -⟩ :=
      (checkpointInteractions_spec hadmitted).2.2 interaction hinteraction
    show (validateCheckpointRater checkpoint.ratingSource rater state).mapError _ = .ok ()
    rw [mapError_eq_ok]
    unfold validateCheckpointRater
    rw [check_eq_ok]
    exact ⟨hwindow.checkpointOf.validate_ratingSource, hrater⟩
  distinct := by
    intro rater expected h
    obtain ⟨admitted, hadmitted, rfl⟩ := checkpointRules_expected_iff.1 h
    rw [List.map_map]
    exact (checkpointInteractions_spec hadmitted).2.1

theorem lawful_waveRules : (waveRules crypto B output state config opened).Lawful where
  source := rfl
  rater _ _ := rfl
  distinct := by
    intro rater expected h
    obtain ⟨admitted, hadmitted, rfl⟩ := waveRules_expected_iff.1 h
    rw [List.map_map]
    exact (finalizedInteractions_spec hadmitted).2.1

end New

/-! ### What is admitted -/

namespace RatingCollector

variable {rules : RatingRules} {accepted : AcceptedRatings} {rating : RatingRecord}

/-- A rating that a collector without ratings admits. -/
structure Admissible (rules : RatingRules) (rating : RatingRecord) : Prop where
  authorized : rules.authorized rating.rater = true
  signed : validateSignedOf rules.crypto rules.payload rating rules.config = .ok ()
  said : ∃ expected, rules.expected rating.rater = .ok expected ∧ ∃ interaction,
    (expected.find? fun interaction => interaction.recipient = rating.recipient) =
      some interaction ∧ interaction.Said rules.round rating

/-- **What is admitted:** an admissible rating for a free key. -/
theorem validateSubmission_eq_ok :
    validateSubmission rules accepted rating = .ok () ↔
      Admissible rules rating ∧ accepted.lookup (collectorKey rating) = none := by
  unfold validateSubmission
  rw [guard_eq_ok, guard_eq_ok, check_eq_ok,
    mapError_eq_ok, not_not]
  cases hlookup : accepted.lookup (collectorKey rating) with
  | some existing =>
      refine iff_of_false ?_ (by simp)
      rintro ⟨-, -, -, h⟩
      dsimp only at h
      split_ifs at h
  | none =>
      simp only [bind_eq_ok, guard_eq_ok, mapError_eq_ok,
        okOr_eq_ok, not_not, and_true]
      constructor
      · rintro ⟨hround, hauthorized, hsigned, expected, hexpected, interaction, hfind, href, score,
          hscore, rfl⟩
        have hrecipient : interaction.recipient = rating.recipient := by
          simpa using List.find?_some hfind
        exact ⟨by simpa using hauthorized, hsigned, expected, hexpected, interaction, hfind,
          hround, hrecipient.symm, href, hscore⟩
      · rintro ⟨hauthorized, hsigned, expected, hexpected, interaction, hfind, hsaid⟩
        exact ⟨hsaid.round, by simp [hauthorized], hsigned, expected, hexpected, interaction, hfind,
          hsaid.reference, rating.score, hsaid.score, rfl⟩

/-- **Two admissible ratings for one key differ in their signatures only.** -/
theorem Admissible.unsigned_eq {rating' : RatingRecord} (h : Admissible rules rating)
    (h' : Admissible rules rating') (hkey : collectorKey rating = collectorKey rating') :
    rating.unsigned = rating'.unsigned := by
  obtain ⟨hrater, hrecipient⟩ : rating.rater = rating'.rater ∧ rating.recipient = rating'.recipient :=
    Prod.mk.inj (toLex.injective hkey)
  obtain ⟨expected, hexpected, interaction, hfind, hsaid⟩ := h.said
  obtain ⟨expected', hexpected', interaction', hfind', hsaid'⟩ := h'.said
  rw [hrater, hexpected', Except.ok.injEq] at hexpected
  subst hexpected
  rw [hrecipient, hfind', Option.some.injEq] at hfind
  subst hfind
  exact hsaid.unsigned_eq hsaid' hrater

/-- **One rating:** it is kept where it is admissible and its key free, and otherwise the
collector stays as it is. -/
theorem insert_cases (c : RatingCollector) (rating : RatingRecord) :
    (Admissible c.rules rating ∧ c.ratings.lookup (collectorKey rating) = none ∧
        c.insert rating = (.ok (), { c with ratings := c.ratings.insert (collectorKey rating) rating })) ∨
      (¬(Admissible c.rules rating ∧ c.ratings.lookup (collectorKey rating) = none) ∧
        ∃ error, c.insert rating = (.error error, c)) := by
  unfold insert
  cases h : validateSubmission c.rules c.ratings rating with
  | ok =>
      obtain ⟨hadmissible, hfree⟩ := validateSubmission_eq_ok.1 h
      exact .inl ⟨hadmissible, hfree, rfl⟩
  | error error =>
      refine .inr ⟨fun hadmitted => ?_, error, rfl⟩
      rw [validateSubmission_eq_ok.2 hadmitted] at h
      exact absurd h (by simp)

/-- **One envelope:** it is kept where it opens to a rating that is. -/
theorem receive_cases (c : RatingCollector) (encoded : List Byte) :
    (∃ rating, c.rules.openEnvelope encoded = .ok rating ∧ Admissible c.rules rating ∧
        c.ratings.lookup (collectorKey rating) = none ∧ c.receive encoded =
          (.ok (), { c with ratings := c.ratings.insert (collectorKey rating) rating })) ∨
      ((∀ rating, c.rules.openEnvelope encoded = .ok rating →
          ¬(Admissible c.rules rating ∧ c.ratings.lookup (collectorKey rating) = none)) ∧
        ∃ error, c.receive encoded = (.error error, c)) := by
  unfold receive
  cases hopen : c.rules.openEnvelope encoded with
  | error error => exact .inr ⟨fun _ h => absurd h (by simp), error, rfl⟩
  | ok rating =>
      obtain ⟨hadmissible, hfree, hinsert⟩ | ⟨hrefused, error, hinsert⟩ :=
        insert_cases c rating
      · refine .inl ⟨rating, rfl, hadmissible, hfree, ?_⟩
        simp only [hinsert, Except.mapError]
      · refine .inr ⟨fun rating' h => ?_, .collector error, ?_⟩
        · obtain rfl := Except.ok.inj h
          exact hrefused
        · simp only [hinsert, Except.mapError]

end RatingCollector

end CordialMiners.Reputation
