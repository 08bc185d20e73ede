/-
# Signed ratings

`por/ratings.rs` of the adapter.

The signature of a rating covers the hash of its payload, which names every other field
and, for a checkpoint round, the source checkpoint.  A rater scores and signs each of
its admitted interactions and verifies the result; ratings of others are verified
before they are put in a batch.  The wave format and the checkpoint format differ in
the payload, and a checkpoint is validated first.
-/

import CordialMiners.Ratings.Interactions
import CordialMiners.Reputation.Preimages

namespace CordialMiners.Reputation

open Codec (bind_eq_ok check_eq_ok guard_eq_ok
  mapError_eq_ok)

/-- What the code gets from the crypto module: `Blake2b256Hasher` and `Secp256k1Scheme`,
whose calls take the key before the signature. -/
structure RatingCrypto where
  hasher : List Byte → ContentHash
  sign : ContentHash → List Byte → Except String (List Byte)
  verify : ContentHash → List Byte → List Byte → Bool

/-- `PorRatingError`. -/
inductive PorRatingError where
  | interaction (error : InteractionError)
  | protocol (error : PorError)
  | signing (message : String)
  | invalidSignature
  | ratingAlreadySigned
deriving DecidableEq, Repr

/-- The bytes that the signature of a rating covers. -/
abbrev RatingPayload := RatingRecord → Except PorError (List Byte)

/-- The payload of the wave format. -/
def waveRatingPayload : RatingPayload := fun rating => .ok (canonicalRatingPayload rating)

/-- The payload of the checkpoint format. -/
def checkpointRatingPayload (source : RatingSourceCheckpoint) : RatingPayload := fun rating =>
  canonicalCheckpointRatingPayload rating source

/-- `require_interaction_reference`. -/
def requireInteractionReference (rating : RatingRecord) : Except PorRatingError Unit :=
  match rating.interactionRef with
  | some (_ :: _) => .ok ()
  | _ => .error (.protocol .missingInteractionReference)

section Crypto

variable (crypto : RatingCrypto)

/-! ### Hashes and signatures -/

/-- The hash that is signed. -/
def signingHashOf (payload : RatingPayload) (rating : RatingRecord) :
    Except PorRatingError ContentHash := do
  requireInteractionReference rating
  let bytes ← (payload rating).mapError .protocol
  .ok (crypto.hasher bytes)

/-- `rating_signing_hash`. -/
def ratingSigningHash : RatingRecord → Except PorRatingError ContentHash :=
  signingHashOf crypto waveRatingPayload

/-- `checkpoint_rating_signing_hash`. -/
def checkpointRatingSigningHash (rating : RatingRecord) (source : RatingSourceCheckpoint) :
    Except PorRatingError ContentHash :=
  signingHashOf crypto (checkpointRatingPayload source) rating

/-- Verify a signature over the hash of a payload. -/
def verifySignatureOf (payload : RatingPayload) (rating : RatingRecord) :
    Except PorRatingError Unit := do
  let signingHash ← signingHashOf crypto payload rating
  if crypto.verify signingHash rating.rater.bytes rating.signature then .ok ()
  else .error .invalidSignature

/-- `verify_rating_signature`. -/
def verifyRatingSignature : RatingRecord → Except PorRatingError Unit :=
  verifySignatureOf crypto waveRatingPayload

/-- `verify_checkpoint_rating_signature`. -/
def verifyCheckpointRatingSignature (rating : RatingRecord) (source : RatingSourceCheckpoint) :
    Except PorRatingError Unit :=
  verifySignatureOf crypto (checkpointRatingPayload source) rating

/-- Policy, then signature. -/
def validateSignedOf (payload : RatingPayload) (rating : RatingRecord) (config : PorConfig) :
    Except PorRatingError Unit := do
  (validateRating rating config).mapError .protocol
  verifySignatureOf crypto payload rating

/-- `validate_checkpoint_signed_rating`. -/
def validateCheckpointSignedRating (rating : RatingRecord) (source : RatingSourceCheckpoint)
    (config : PorConfig) : Except PorRatingError Unit :=
  validateSignedOf crypto (checkpointRatingPayload source) rating config

/-- `sign_checkpoint_rating`. -/
def signCheckpointRating (rating : RatingRecord) (source : RatingSourceCheckpoint)
    (config : PorConfig) (privateKey : List Byte) : Except PorRatingError RatingRecord :=
  if rating.signature ≠ [] then .error .ratingAlreadySigned
  else do
    let signingHash ← checkpointRatingSigningHash crypto rating source
    let signature ← (crypto.sign signingHash privateKey).mapError .signing
    let signed := { rating with signature := signature }
    validateCheckpointSignedRating crypto signed source config
    .ok signed

/-- `sign_admitted_interaction`. -/
def signAdmittedInteraction (interaction : AdmittedInteraction) (config : PorConfig)
    (privateKey : List Byte) : Except PorRatingError RatingRecord := do
  let score ← (scoreAdmittedInteraction interaction config).mapError .protocol
  let signingHash ← ratingSigningHash crypto ⟨interaction.evidence.round,
    interaction.evidence.rater, interaction.evidence.recipient, score, [],
    some interaction.evidence.evidenceRef⟩
  let signature ← (crypto.sign signingHash privateKey).mapError .signing
  let rating ← (buildRatingFromInteraction interaction signature config).mapError .protocol
  verifyRatingSignature crypto rating
  .ok rating

/-! ### Batches -/

/-- Verify every rating, then build the batch. -/
def buildVerifiedOf (payload : RatingPayload) (round : U64) (ratings : List RatingRecord)
    (config : PorConfig) : Except PorRatingError RatingBatch := do
  ratings.forM fun rating => validateSignedOf crypto payload rating config
  (buildRatingBatch round ratings config).mapError .protocol

/-- `build_verified_rating_batch`. -/
def buildVerifiedRatingBatch (round : U64) (ratings : List RatingRecord) (config : PorConfig) :
    Except PorRatingError RatingBatch := buildVerifiedOf crypto waveRatingPayload round ratings config

/-- `build_verified_checkpoint_rating_batch`. -/
def buildVerifiedCheckpointRatingBatch (source : RatingSourceCheckpoint)
    (ratings : List RatingRecord) (config : PorConfig) : Except PorRatingError RatingBatch := do
  source.validate.mapError .protocol
  buildVerifiedOf crypto (checkpointRatingPayload source) source.round ratings config

/-- `build_finalized_block_production_rating_batch`. -/
def buildFinalizedBlockProductionRatingBatch (B : Blocklace) (output : OrderedFinalizedOutput)
    (opened : FinalizedRatingRound) (rater : NodeId) (state : ReputationState)
    (config : PorConfig) (privateKey : List Byte) : Except PorRatingError RatingBatch := do
  let admitted ← (admitFinalizedBlockProductionInteractions B output opened rater state).mapError
    .interaction
  let ratings ← admitted.mapM fun interaction =>
    signAdmittedInteraction crypto interaction config privateKey
  buildVerifiedRatingBatch crypto opened.ratingRound ratings config

/-- Score and sign one interaction of a checkpoint round. -/
def signAdmittedCheckpointInteraction (interaction : AdmittedCheckpointInteraction)
    (source : RatingSourceCheckpoint) (config : PorConfig) (privateKey : List Byte) :
    Except PorRatingError RatingRecord := do
  let score ← (scoreAdmittedCheckpointInteraction interaction config).mapError .protocol
  signCheckpointRating crypto ⟨source.round, interaction.evidence.rater,
    interaction.evidence.recipient, score, [], some interaction.evidence.evidenceRef⟩ source config
    privateKey

/-- `build_finalized_checkpoint_rating_batch`. -/
def buildFinalizedCheckpointRatingBatch (B : Blocklace) (output : OrderedFinalizedOutput)
    (checkpoint : FinalizedPrefixCheckpoint) (rater : NodeId) (state : ReputationState)
    (config : PorConfig) (privateKey : List Byte) : Except PorRatingError RatingBatch := do
  (validateCheckpointRater checkpoint.ratingSource rater state).mapError .protocol
  let admitted ← (admitCheckpointBlockProductionInteractions crypto.hasher B output checkpoint rater
    state).mapError .interaction
  let ratings ← admitted.mapM fun interaction =>
    signAdmittedCheckpointInteraction crypto interaction checkpoint.ratingSource config privateKey
  buildVerifiedCheckpointRatingBatch crypto checkpoint.ratingSource ratings config

end Crypto

/-! ### What is signed -/

variable {crypto : RatingCrypto} {payload : RatingPayload} {rating : RatingRecord}
  {config : PorConfig} {privateKey : List Byte}

/-- What a rater says of a recipient: everything but the signature. -/
structure ExpectedRating where
  recipient : NodeId
  evidenceRef : List Byte
  score : Except PorError U64

/-- The rating says what is expected of its rater. -/
structure ExpectedRating.Said (expected : ExpectedRating) (round : U64) (rating : RatingRecord) :
    Prop where
  round : rating.round = round
  recipient : rating.recipient = expected.recipient
  reference : rating.interactionRef = some expected.evidenceRef
  score : expected.score = .ok rating.score

/-- **Two ratings of one rater that say what is expected differ in their signatures only.** -/
theorem ExpectedRating.Said.unsigned_eq {expected : ExpectedRating} {round : U64}
    {rating' : RatingRecord} (h : expected.Said round rating) (h' : expected.Said round rating')
    (hrater : rating.rater = rating'.rater) : rating.unsigned = rating'.unsigned := by
  have hscore : rating.score = rating'.score := Except.ok.inj (h.score.symm.trans h'.score)
  unfold RatingRecord.unsigned
  rw [h.round, h'.round, h.recipient, h'.recipient, h.reference, h'.reference, hscore, hrater]

/-- A valid rating keeps to the policy. -/
theorem validateSignedOf_policy (h : validateSignedOf crypto payload rating config = .ok ()) :
    validateRating rating config = .ok () := by
  unfold validateSignedOf at h
  rw [check_eq_ok, mapError_eq_ok] at h
  exact h.1

/-- The signature of a valid rating is one that the key verifies. -/
theorem validateSignedOf_verified (h : validateSignedOf crypto payload rating config = .ok ()) :
    ∃ signingHash, crypto.verify signingHash rating.rater.bytes rating.signature = true := by
  unfold validateSignedOf verifySignatureOf at h
  rw [check_eq_ok, bind_eq_ok] at h
  obtain ⟨-, signingHash, -, h⟩ := h
  split_ifs at h with hverify
  exact ⟨signingHash, hverify⟩

theorem validateRating_signature (h : validateRating rating config = .ok ()) :
    rating.signature ≠ [] := by
  unfold validateRating at h
  simp only [guard_eq_ok] at h
  exact h.2.2.2.1

theorem signCheckpointRating_ok {source : RatingSourceCheckpoint} {signed : RatingRecord}
    (h : signCheckpointRating crypto rating source config privateKey = .ok signed) :
    (∃ signingHash signature, crypto.sign signingHash privateKey = .ok signature ∧
      signed = { rating with signature := signature }) ∧
      validateCheckpointSignedRating crypto signed source config = .ok () := by
  unfold signCheckpointRating at h
  simp only [guard_eq_ok, bind_eq_ok, mapError_eq_ok,
    Except.ok.injEq] at h
  obtain ⟨-, signingHash, -, signature, hsign, ⟨⟩, hvalid, rfl⟩ := h
  exact ⟨⟨signingHash, signature, hsign, rfl⟩, hvalid⟩

/-- **A signed checkpoint rating** says what is expected of the rater. -/
theorem signAdmittedCheckpointInteraction_ok {interaction : AdmittedCheckpointInteraction}
    {source : RatingSourceCheckpoint}
    (h : signAdmittedCheckpointInteraction crypto interaction source config privateKey =
      .ok rating) :
    rating.rater = interaction.evidence.rater ∧
      ExpectedRating.Said ⟨interaction.evidence.recipient, interaction.evidence.evidenceRef,
        scoreAdmittedCheckpointInteraction interaction config⟩ source.round rating ∧
      (∃ signingHash, crypto.sign signingHash privateKey = .ok rating.signature) ∧
      validateSignedOf crypto (checkpointRatingPayload source) rating config = .ok () := by
  unfold signAdmittedCheckpointInteraction at h
  simp only [bind_eq_ok, mapError_eq_ok] at h
  obtain ⟨score, hscore, h⟩ := h
  obtain ⟨⟨signingHash, signature, hsign, rfl⟩, hvalid⟩ := signCheckpointRating_ok h
  exact ⟨rfl, ⟨rfl, rfl, rfl, hscore⟩, ⟨signingHash, hsign⟩, hvalid⟩

/-- **A signed rating of a wave** says what is expected of the rater. -/
theorem signAdmittedInteraction_ok {interaction : AdmittedInteraction}
    (h : signAdmittedInteraction crypto interaction config privateKey = .ok rating) :
    rating.rater = interaction.evidence.rater ∧
      ExpectedRating.Said ⟨interaction.evidence.recipient, interaction.evidence.evidenceRef,
        scoreAdmittedInteraction interaction config⟩ interaction.evidence.round rating ∧
      (∃ signingHash, crypto.sign signingHash privateKey = .ok rating.signature) ∧
      validateSignedOf crypto waveRatingPayload rating config = .ok () := by
  unfold signAdmittedInteraction buildRatingFromInteraction at h
  simp only [bind_eq_ok, mapError_eq_ok, Except.ok.injEq] at h
  obtain ⟨-, -, signingHash, -, signature, hsign, _, ⟨score, hscore, ⟨⟩, hpolicy, rfl⟩, ⟨⟩, hverify,
    rfl⟩ := h
  refine ⟨rfl, ⟨rfl, rfl, rfl, hscore⟩, ⟨signingHash, hsign⟩, ?_⟩
  unfold validateSignedOf
  rw [check_eq_ok, mapError_eq_ok]
  exact ⟨hpolicy, hverify⟩

end CordialMiners.Reputation
