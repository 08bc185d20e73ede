/-
# Rating envelopes

`por/transport/wire.rs` and the encoding of batches in `por/transport/mod.rs`.

An envelope carries one rating behind a domain, a version and what the rating is bound
to: the finalized wave in version 1, the source checkpoint in version 2.  Keys of 33 or
65 bytes, references of 32 and signatures of 1 to 72 bytes are all that it carries, and
no other envelope can be built.  Decoding undoes encoding and accepts nothing else
(`decode_eq_ok` of both versions).

A batch is encoded where every rating of it fits an envelope.
-/

import CordialMiners.Ratings.Signing

namespace CordialMiners.Reputation

open Codec

/-- `PorRatingWireError`. -/
inductive PorRatingWireError where
  | envelopeTooLong (actual maximum : ℕ)
  | unexpectedEnd
  | trailingBytes
  | invalidDomain
  | unsupportedVersion (version : U16)
  | invalidRaterKeyLength (length : ℕ)
  | invalidRecipientKeyLength (length : ℕ)
  | missingInteractionReference
  | invalidInteractionReferenceLength (length : ℕ)
  | missingSignature
  | signatureTooLong (actual maximum : ℕ)
  | finalizedWaveRoundMismatch
  | invalidSourceCheckpoint
  | sourceCheckpointRoundMismatch
deriving DecidableEq, Repr

/-! ### Limits -/

/-- `BLOCK_PRODUCTION_RATING_ENVELOPE_DOMAIN`. -/
def ratingEnvelopeDomain : List Byte := asciiBytes "cordial-por:block-production-rating-envelope"

/-- `BLOCK_PRODUCTION_RATING_ENVELOPE_VERSION`. -/
def ratingEnvelopeVersion : U16 := 1

/-- `CHECKPOINT_RATING_ENVELOPE_VERSION`. -/
def checkpointRatingEnvelopeVersion : U16 := 2

/-- `COMPRESSED_SECP256K1_PUBLIC_KEY_LEN`. -/
def compressedKeyLen : ℕ := 33

/-- `UNCOMPRESSED_SECP256K1_PUBLIC_KEY_LEN`. -/
def uncompressedKeyLen : ℕ := 65

/-- `BLOCK_HASH_LEN`. -/
def blockHashLen : ℕ := 32

/-- `MAX_SECP256K1_DER_SIGNATURE_LEN`. -/
def maxDerSignatureLen : ℕ := 72

/-- `MAX_BLOCK_PRODUCTION_RATING_ENVELOPE_LEN`. -/
def maxRatingEnvelopeLen : ℕ :=
  ratingEnvelopeDomain.length + 2 + 8 + 8 + 2 + uncompressedKeyLen + 2 + uncompressedKeyLen + 8 +
    blockHashLen + 2 + maxDerSignatureLen

/-- `MAX_CHECKPOINT_RATING_ENVELOPE_LEN`. -/
def maxCheckpointRatingEnvelopeLen : ℕ := maxRatingEnvelopeLen + 32

/-! ### Fields -/

/-- A key in one of the two encodings of a secp256k1 point. -/
def PublicKeyLength (bytes : List Byte) : Prop :=
  bytes.length = compressedKeyLen ∨ bytes.length = uncompressedKeyLen

instance (bytes : List Byte) : Decidable (PublicKeyLength bytes) :=
  inferInstanceAs (Decidable (_ ∨ _))

/-- `validate_public_key_length`. -/
def validatePublicKeyLength (bytes : List Byte) : Except ℕ Unit :=
  if PublicKeyLength bytes then .ok () else .error bytes.length

/-- `validate_rating_fields`. -/
def validateRatingFields (rating : RatingRecord) : Except PorRatingWireError Unit := do
  (validatePublicKeyLength rating.rater.bytes).mapError .invalidRaterKeyLength
  (validatePublicKeyLength rating.recipient.bytes).mapError .invalidRecipientKeyLength
  let interactionRef ← okOr .missingInteractionReference rating.interactionRef
  if interactionRef.length ≠ blockHashLen then
    .error (.invalidInteractionReferenceLength interactionRef.length)
  else if rating.signature = [] then .error .missingSignature
  else if rating.signature.length > maxDerSignatureLen then
    .error (.signatureTooLong rating.signature.length maxDerSignatureLen)
  else .ok ()

/-- The fields that an envelope can carry. -/
structure RatingRecord.Fits (rating : RatingRecord) : Prop where
  rater : PublicKeyLength rating.rater.bytes
  recipient : PublicKeyLength rating.recipient.bytes
  reference : ∃ interactionRef, rating.interactionRef = some interactionRef ∧
    interactionRef.length = blockHashLen
  signed : rating.signature ≠ []
  signature : rating.signature.length ≤ maxDerSignatureLen

theorem validateRatingFields_eq_ok {rating : RatingRecord} :
    validateRatingFields rating = .ok () ↔ rating.Fits := by
  have hkey : ∀ bytes, validatePublicKeyLength bytes = .ok () ↔ PublicKeyLength bytes := by
    intro bytes
    unfold validatePublicKeyLength
    split_ifs with h <;> simp [h]
  unfold validateRatingFields
  rw [check_eq_ok, check_eq_ok, mapError_eq_ok,
    mapError_eq_ok, hkey, hkey]
  simp only [bind_eq_ok, guard_eq_ok, okOr_eq_ok, not_not, not_lt,
    and_true]
  constructor
  · rintro ⟨hrater, hrecipient, interactionRef, href, hlength, hsigned, hsignature⟩
    exact ⟨hrater, hrecipient, ⟨interactionRef, href, hlength⟩, hsigned, hsignature⟩
  · rintro ⟨hrater, hrecipient, ⟨interactionRef, href, hlength⟩, hsigned, hsignature⟩
    exact ⟨hrater, hrecipient, interactionRef, href, hlength, hsigned, hsignature⟩

/-- `put_u16_bytes`. -/
def putU16Bytes (bytes : List Byte) : List Byte := beBytes 2 bytes.length ++ bytes

/-- Bytes are read back behind a length of 16 bits. -/
theorem decodes_putU16Bytes {ε : Type} (bad : ε) :
    Decodes ((ofBeBytes <$> take bad 2) >>= take bad) putU16Bytes fun bytes =>
      bytes.length < 256 ^ 2 :=
  ((decodes_number bad 2).sized fun n =>
    (decodes_take bad n).congr fun _ => (and_iff_left trivial).symm).congr fun _ =>
      and_iff_left trivial

/-- Rater to signature; a rating in an envelope has a reference. -/
def ratingLayout (rating : RatingRecord) : List Byte :=
  putU16Bytes rating.rater.bytes ++ (putU16Bytes rating.recipient.bytes ++
    (beBytes 8 rating.score.val ++ (rating.interactionRef.getD [] ++ putU16Bytes rating.signature)))

/-! ### The decoder -/

abbrev RatingDecoder := Reader Byte PorRatingWireError

namespace RatingDecoder

/-- `read_u16`. -/
def readU16 : RatingDecoder U16 := (fun n => Fin.ofNat _ n) <$> (ofBeBytes <$> take .unexpectedEnd 2)

/-- `read_u64`. -/
def readU64 : RatingDecoder U64 := (fun n => Fin.ofNat _ n) <$> (ofBeBytes <$> take .unexpectedEnd 8)

/-- `read_array::<32>`. -/
def readHash : RatingDecoder ContentHash := contentHashOf <$> take .unexpectedEnd 32

/-- `read_u16_bytes`. -/
def readU16Bytes : RatingDecoder (List Byte) :=
  (ofBeBytes <$> take .unexpectedEnd 2) >>= take .unexpectedEnd

/-- Domain and version in front of what `read` reads. -/
def behindVersion {α : Type} (version : U16) (read : RatingDecoder α) : RatingDecoder α := do
  let domain ← take .unexpectedEnd ratingEnvelopeDomain.length
  if domain ≠ ratingEnvelopeDomain then throw .invalidDomain
  else
    let found ← readU16
    if found ≠ version then throw (.unsupportedVersion found) else read

/-- Rater to signature of a rating of the given round. -/
def readRating (round : U64) : RatingDecoder RatingRecord := do
  let rater ← readU16Bytes
  let recipient ← readU16Bytes
  let score ← readU64
  let interactionRef ← take .unexpectedEnd blockHashLen
  let signature ← readU16Bytes
  pure ⟨round, ⟨rater⟩, ⟨recipient⟩, score, signature, some interactionRef⟩

/-- Read an input of at most `maximum` bytes to its end. -/
def decodeWithin {α : Type} (maximum : ℕ) (read : RatingDecoder α) (input : List Byte) :
    Except PorRatingWireError α :=
  if input.length > maximum then .error (.envelopeTooLong input.length maximum)
  else do
    let (a, rest) ← read.run input
    if rest ≠ [] then .error .trailingBytes else .ok a

theorem decodes_u16 : Decodes readU16 (fun n : U16 => beBytes 2 n.val) fun _ => True :=
  decodes_fin PorRatingWireError.unexpectedEnd (by norm_num)

theorem decodes_u64 : Decodes readU64 (fun n : U64 => beBytes 8 n.val) fun _ => True :=
  decodes_fin PorRatingWireError.unexpectedEnd (by norm_num)

theorem decodes_hash : Decodes readHash contentHashBytes fun _ => True :=
  decodes_contentHash PorRatingWireError.unexpectedEnd

theorem decodes_u16Bytes : Decodes readU16Bytes putU16Bytes fun bytes => bytes.length < 256 ^ 2 :=
  decodes_putU16Bytes PorRatingWireError.unexpectedEnd

variable {α : Type} {read : RatingDecoder α} {encode : α → List Byte} {Valid : α → Prop}

theorem decodes_behindVersion (h : Decodes read encode Valid) (version : U16) :
    Decodes (behindVersion version read)
      (fun a => ratingEnvelopeDomain ++ (beBytes 2 version.val ++ encode a)) Valid := by
  intro input a rest
  unfold behindVersion
  simp only [run_bind_eq_ok, run_guard_eq_ok, decodes_take PorRatingWireError.unexpectedEnd
    _ _ _ _, decodes_u16 _ _ _, h _ _ _, not_not, id, true_and]
  constructor
  · rintro ⟨domain, _, ⟨-, rfl⟩, rfl, found, _, rfl, rfl, hvalid, rfl⟩
    exact ⟨hvalid, by simp only [List.append_assoc]⟩
  · rintro ⟨hvalid, rfl⟩
    exact ⟨_, _, ⟨rfl, by simp only [List.append_assoc]⟩, rfl, version, _, rfl, rfl, hvalid, rfl⟩

theorem decodes_readRating (round : U64) : Decodes (readRating round) ratingLayout fun r =>
    r.round = round ∧ r.rater.bytes.length < 256 ^ 2 ∧ r.recipient.bytes.length < 256 ^ 2 ∧
      (∃ interactionRef, r.interactionRef = some interactionRef ∧
        interactionRef.length = blockHashLen) ∧ r.signature.length < 256 ^ 2 := by
  intro input r rest
  unfold readRating
  simp only [run_bind_eq_ok, run_pure_eq_ok, decodes_u16Bytes _ _ _, decodes_u64 _ _ _,
    decodes_take PorRatingWireError.unexpectedEnd _ _ _ _, true_and, id]
  constructor
  · rintro ⟨rater, _, ⟨hrater, rfl⟩, recipient, _, ⟨hrecipient, rfl⟩, score, _, rfl, interactionRef,
      _, ⟨href, rfl⟩, signature, _, ⟨hsignature, rfl⟩, rfl, rfl⟩
    refine ⟨⟨rfl, hrater, hrecipient, ⟨_, rfl, href⟩, hsignature⟩, ?_⟩
    simp only [ratingLayout, Option.getD_some, List.append_assoc]
  · rintro ⟨⟨rfl, hrater, hrecipient, ⟨interactionRef, href, hlength⟩, hsignature⟩, rfl⟩
    refine ⟨r.rater.bytes, _, ⟨hrater, ?_⟩, r.recipient.bytes, _, ⟨hrecipient, rfl⟩, r.score, _, rfl,
      interactionRef, _, ⟨hlength, rfl⟩, r.signature, rest, ⟨hsignature, rfl⟩, ?_, rfl⟩
    · simp only [ratingLayout, href, Option.getD_some, List.append_assoc]
    · rw [← href]

theorem decodeWithin_eq_ok (h : Decodes read encode Valid) {maximum : ℕ} {input : List Byte}
    {a : α} : decodeWithin maximum read input = .ok a ↔
      Valid a ∧ input = encode a ∧ (encode a).length ≤ maximum := by
  unfold decodeWithin
  simp only [guard_eq_ok, bind_eq_ok, Prod.exists, not_not, not_lt,
    Except.ok.injEq, h _ _ _]
  constructor
  · rintro ⟨hlength, _, _, ⟨hvalid, rfl⟩, rfl, rfl⟩
    rw [List.append_nil] at hlength ⊢
    exact ⟨hvalid, rfl, hlength⟩
  · rintro ⟨hvalid, rfl, hlength⟩
    exact ⟨hlength, a, [], ⟨hvalid, (List.append_nil _).symm⟩, rfl, rfl⟩

end RatingDecoder

open RatingDecoder

/-- The layout of a rating that fits. -/
theorem RatingRecord.Fits.length_ratingLayout {rating : RatingRecord} (h : rating.Fits) :
    (ratingLayout rating).length ≤ 2 + uncompressedKeyLen + 2 + uncompressedKeyLen + 8 +
      blockHashLen + 2 + maxDerSignatureLen := by
  obtain ⟨interactionRef, href, hlength⟩ := h.reference
  have hrater := h.rater
  have hrecipient := h.recipient
  have hsignature := h.signature
  unfold PublicKeyLength compressedKeyLen uncompressedKeyLen at hrater hrecipient
  unfold ratingLayout putU16Bytes
  rw [href, Option.getD_some]
  simp only [List.length_append, length_beBytes, hlength, uncompressedKeyLen]
  omega

/-- What fits an envelope can be decoded. -/
theorem RatingRecord.Fits.decodable {rating : RatingRecord} (h : rating.Fits) :
    rating.rater.bytes.length < 256 ^ 2 ∧ rating.recipient.bytes.length < 256 ^ 2 ∧
      (∃ interactionRef, rating.interactionRef = some interactionRef ∧
        interactionRef.length = blockHashLen) ∧ rating.signature.length < 256 ^ 2 := by
  have hrater := h.rater
  have hrecipient := h.recipient
  have hsignature := h.signature
  unfold PublicKeyLength compressedKeyLen uncompressedKeyLen at hrater hrecipient
  unfold maxDerSignatureLen at hsignature
  exact ⟨by omega, by omega, h.reference, by omega⟩

/-! ### Version 1 -/

/-- `validate_rating_shape`. -/
def validateRatingShape (finalizedWave : U64) (rating : RatingRecord) :
    Except PorRatingWireError Unit :=
  if checkedAdd64 finalizedWave.val 1 ≠ some rating.round.val then
    .error .finalizedWaveRoundMismatch
  else validateRatingFields rating

/-- An envelope of the wave format. -/
structure BlockProductionRatingEnvelopeV1 where
  finalizedWave : U64
  rating : RatingRecord
  shape : validateRatingShape finalizedWave rating = .ok ()

namespace BlockProductionRatingEnvelopeV1

/-- The only way to an envelope. -/
def new (finalizedWave : U64) (rating : RatingRecord) :
    Except PorRatingWireError BlockProductionRatingEnvelopeV1 :=
  match h : validateRatingShape finalizedWave rating with
  | .error error => .error error
  | .ok () => .ok ⟨finalizedWave, rating, h⟩

/-- What is behind domain and version. -/
def layout (finalizedWave : U64) (rating : RatingRecord) : List Byte :=
  beBytes 8 finalizedWave.val ++ (beBytes 8 rating.round.val ++ ratingLayout rating)

/-- `encode`. -/
def encode (envelope : BlockProductionRatingEnvelopeV1) : List Byte :=
  ratingEnvelopeDomain ++ (beBytes 2 ratingEnvelopeVersion.val ++
    layout envelope.finalizedWave envelope.rating)

/-- Wave and rating. -/
def reader : RatingDecoder (U64 × RatingRecord) := do
  let finalizedWave ← readU64
  let round ← readU64
  let rating ← readRating round
  pure (finalizedWave, rating)

/-- `decode`. -/
def decode (input : List Byte) : Except PorRatingWireError BlockProductionRatingEnvelopeV1 := do
  let (finalizedWave, rating) ← decodeWithin maxRatingEnvelopeLen
    (behindVersion ratingEnvelopeVersion reader) input
  new finalizedWave rating

theorem new_eq_ok {finalizedWave : U64} {rating : RatingRecord}
    {envelope : BlockProductionRatingEnvelopeV1} :
    new finalizedWave rating = .ok envelope ↔
      envelope.finalizedWave = finalizedWave ∧ envelope.rating = rating := by
  obtain ⟨wave, found, hshape⟩ := envelope
  unfold new
  constructor
  · intro h
    split at h
    · exact absurd h (by simp)
    · simp only [Except.ok.injEq, mk.injEq] at h
      exact ⟨h.1.symm, h.2.symm⟩
  · rintro ⟨rfl, rfl⟩
    split
    next error herror =>
      dsimp only at herror
      rw [hshape] at herror
      exact absurd herror (by simp)
    next => rfl

theorem fits (envelope : BlockProductionRatingEnvelopeV1) : envelope.rating.Fits := by
  have hshape := envelope.shape
  unfold validateRatingShape at hshape
  rw [guard_eq_ok] at hshape
  exact validateRatingFields_eq_ok.1 hshape.2

theorem decodes_reader : Decodes reader (fun found => layout found.1 found.2) fun found =>
    found.2.rater.bytes.length < 256 ^ 2 ∧ found.2.recipient.bytes.length < 256 ^ 2 ∧
      (∃ interactionRef, found.2.interactionRef = some interactionRef ∧
        interactionRef.length = blockHashLen) ∧ found.2.signature.length < 256 ^ 2 := by
  rintro input ⟨finalizedWave, r⟩ rest
  unfold reader
  simp only [run_bind_eq_ok, run_pure_eq_ok, decodes_u64 _ _ _, decodes_readRating _ _ _ _,
    true_and, Prod.mk.injEq]
  constructor
  · rintro ⟨_, _, rfl, _, _, rfl, _, _, ⟨⟨rfl, hvalid⟩, rfl⟩, ⟨rfl, rfl⟩, rfl⟩
    exact ⟨hvalid, by simp only [layout, List.append_assoc]⟩
  · rintro ⟨hvalid, rfl⟩
    refine ⟨finalizedWave, _, ?_, r.round, _, rfl, r, rest, ⟨⟨rfl, hvalid⟩, rfl⟩, ⟨rfl, rfl⟩, rfl⟩
    simp only [layout, List.append_assoc]

/-- **The decoder accepts the encodings, and nothing else.** -/
theorem decode_eq_ok {input : List Byte} {envelope : BlockProductionRatingEnvelopeV1} :
    decode input = .ok envelope ↔ input = envelope.encode := by
  unfold decode
  simp only [bind_eq_ok, Prod.exists, new_eq_ok,
    decodeWithin_eq_ok (decodes_behindVersion decodes_reader ratingEnvelopeVersion)]
  constructor
  · rintro ⟨_, _, ⟨-, rfl, -⟩, rfl, rfl⟩
    rfl
  · rintro rfl
    refine ⟨_, _, ⟨envelope.fits.decodable, rfl, ?_⟩, rfl, rfl⟩
    have hlength := envelope.fits.length_ratingLayout
    simp only [layout, List.length_append, length_beBytes, maxRatingEnvelopeLen]
    omega

end BlockProductionRatingEnvelopeV1

/-! ### Version 2 -/

/-- The checks of `BlockProductionRatingEnvelopeV2::new`. -/
def validateCheckpointRatingShape (source : RatingSourceCheckpoint) (rating : RatingRecord) :
    Except PorRatingWireError Unit := do
  source.validate.mapError fun _ => .invalidSourceCheckpoint
  if rating.round ≠ source.round then .error .sourceCheckpointRoundMismatch
  else validateRatingFields rating

/-- An envelope of the checkpoint format. -/
structure BlockProductionRatingEnvelopeV2 where
  source : RatingSourceCheckpoint
  rating : RatingRecord
  shape : validateCheckpointRatingShape source rating = .ok ()

namespace BlockProductionRatingEnvelopeV2

/-- The only way to an envelope. -/
def new (source : RatingSourceCheckpoint) (rating : RatingRecord) :
    Except PorRatingWireError BlockProductionRatingEnvelopeV2 :=
  match h : validateCheckpointRatingShape source rating with
  | .error error => .error error
  | .ok () => .ok ⟨source, rating, h⟩

/-- What is behind domain and version. -/
def layout (source : RatingSourceCheckpoint) (rating : RatingRecord) : List Byte :=
  beBytes 8 source.round.val ++ (beBytes 8 source.finalizedPrefixLen.val ++
    (contentHashBytes source.finalizedPrefixHash ++ ratingLayout rating))

/-- `encode`. -/
def encode (envelope : BlockProductionRatingEnvelopeV2) : List Byte :=
  ratingEnvelopeDomain ++ (beBytes 2 checkpointRatingEnvelopeVersion.val ++
    layout envelope.source envelope.rating)

/-- Source and rating. -/
def reader : RatingDecoder (RatingSourceCheckpoint × RatingRecord) := do
  let round ← readU64
  let finalizedPrefixLen ← readU64
  let finalizedPrefixHash ← readHash
  let rating ← readRating round
  pure (⟨round, finalizedPrefixLen, finalizedPrefixHash⟩, rating)

/-- `decode`. -/
def decode (input : List Byte) : Except PorRatingWireError BlockProductionRatingEnvelopeV2 := do
  let (source, rating) ← decodeWithin maxCheckpointRatingEnvelopeLen
    (behindVersion checkpointRatingEnvelopeVersion reader) input
  new source rating

theorem new_eq_ok {source : RatingSourceCheckpoint} {rating : RatingRecord}
    {envelope : BlockProductionRatingEnvelopeV2} :
    new source rating = .ok envelope ↔ envelope.source = source ∧ envelope.rating = rating := by
  obtain ⟨found, foundRating, hshape⟩ := envelope
  unfold new
  constructor
  · intro h
    split at h
    · exact absurd h (by simp)
    · simp only [Except.ok.injEq, mk.injEq] at h
      exact ⟨h.1.symm, h.2.symm⟩
  · rintro ⟨rfl, rfl⟩
    split
    next error herror =>
      dsimp only at herror
      rw [hshape] at herror
      exact absurd herror (by simp)
    next => rfl

theorem fits (envelope : BlockProductionRatingEnvelopeV2) :
    envelope.rating.round = envelope.source.round ∧ envelope.rating.Fits := by
  have hshape := envelope.shape
  unfold validateCheckpointRatingShape at hshape
  rw [check_eq_ok, guard_eq_ok, not_not] at hshape
  exact ⟨hshape.2.1, validateRatingFields_eq_ok.1 hshape.2.2⟩

theorem decodes_reader : Decodes reader (fun found => layout found.1 found.2) fun found =>
    found.2.round = found.1.round ∧ found.2.rater.bytes.length < 256 ^ 2 ∧
      found.2.recipient.bytes.length < 256 ^ 2 ∧
      (∃ interactionRef, found.2.interactionRef = some interactionRef ∧
        interactionRef.length = blockHashLen) ∧ found.2.signature.length < 256 ^ 2 := by
  rintro input ⟨source, r⟩ rest
  unfold reader
  simp only [run_bind_eq_ok, run_pure_eq_ok, decodes_u64 _ _ _, decodes_hash _ _ _,
    decodes_readRating _ _ _ _, true_and, Prod.mk.injEq]
  constructor
  · rintro ⟨_, _, rfl, _, _, rfl, _, _, rfl, _, _, ⟨hvalid, rfl⟩, ⟨rfl, rfl⟩, rfl⟩
    exact ⟨hvalid, by simp only [layout, List.append_assoc]⟩
  · rintro ⟨hvalid, rfl⟩
    refine ⟨source.round, _, ?_, source.finalizedPrefixLen, _, rfl, source.finalizedPrefixHash, _,
      rfl, r, rest, ⟨hvalid, rfl⟩, ⟨rfl, rfl⟩, rfl⟩
    simp only [layout, List.append_assoc]

/-- **The decoder accepts the encodings, and nothing else.** -/
theorem decode_eq_ok {input : List Byte} {envelope : BlockProductionRatingEnvelopeV2} :
    decode input = .ok envelope ↔ input = envelope.encode := by
  unfold decode
  simp only [bind_eq_ok, Prod.exists, new_eq_ok,
    decodeWithin_eq_ok (decodes_behindVersion decodes_reader checkpointRatingEnvelopeVersion)]
  constructor
  · rintro ⟨_, _, ⟨-, rfl, -⟩, rfl, rfl⟩
    rfl
  · rintro rfl
    refine ⟨_, _, ⟨⟨envelope.fits.1, envelope.fits.2.decodable⟩, rfl, ?_⟩, rfl, rfl⟩
    have hlength := envelope.fits.2.length_ratingLayout
    simp only [layout, List.length_append, length_beBytes, length_contentHashBytes,
      maxCheckpointRatingEnvelopeLen, maxRatingEnvelopeLen]
    omega

end BlockProductionRatingEnvelopeV2

/-! ### Batches -/

/-- Failures of the transport. -/
inductive PorRatingTransportError (ε : Type) where
  | invalidBatchRound
  | invalidCheckpointBatchRound
  | wire (error : PorRatingWireError)
  | collector (error : ε)
deriving DecidableEq, Repr

/-- `encode_rating_batch`. -/
def encodeRatingBatch {ε : Type} (finalizedWave : U64) (batch : RatingBatch) :
    Except (PorRatingTransportError ε) (List (List Byte)) :=
  if checkedAdd64 finalizedWave.val 1 ≠ some batch.round.val then .error .invalidBatchRound
  else
    batch.ratings.mapM fun rating => do
      let envelope ← (BlockProductionRatingEnvelopeV1.new finalizedWave rating).mapError .wire
      .ok envelope.encode

/-- `encode_checkpoint_rating_batch`. -/
def encodeCheckpointRatingBatch {ε : Type} (source : RatingSourceCheckpoint)
    (batch : RatingBatch) : Except (PorRatingTransportError ε) (List (List Byte)) := do
  source.validate.mapError fun _ => .wire .invalidSourceCheckpoint
  if batch.round ≠ source.round then .error .invalidCheckpointBatchRound
  else
    batch.ratings.mapM fun rating => do
      let envelope ← (BlockProductionRatingEnvelopeV2.new source rating).mapError .wire
      .ok envelope.encode

end CordialMiners.Reputation
