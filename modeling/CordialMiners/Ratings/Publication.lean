/-
# Published reputation blocks

`por/transport/reputation_block.rs`: a reputation block in its envelope, with the key and
the signature of the validator that sends it.

A publication is only built from a canonical envelope and a signature that verifies, so
decoding undoes encoding and accepts nothing else (`decode_eq_ok`).  The domain tells
it from a rating, and the version one rating from another.
-/

import CordialMiners.Ratings.Envelope
import CordialMiners.Reputation.Wire

namespace CordialMiners.Reputation

open Codec

/-- `PorReputationBlockPublicationError`. -/
inductive PorReputationBlockPublicationError where
  | publicationTooLong (actual maximum : ℕ)
  | unexpectedEnd
  | trailingBytes
  | invalidDomain
  | unsupportedVersion (version : U16)
  | invalidPublisherKeyLength (length : ℕ)
  | blockEnvelopeTooLong (actual maximum : ℕ)
  | missingSignature
  | signatureTooLong (actual maximum : ℕ)
  | signing (message : String)
  | invalidSignature
  | block (error : PorError)
deriving DecidableEq, Repr

/-! ### Limits -/

/-- `REPUTATION_BLOCK_PUBLICATION_DOMAIN`. -/
def publicationDomain : List Byte := asciiBytes "cordial-por:reputation-block-publication"

/-- `REPUTATION_BLOCK_PUBLICATION_VERSION`. -/
def publicationVersion : U16 := 1

/-- `PUBLICATION_FIXED_LEN`. -/
def publicationFixedLen : ℕ := publicationDomain.length + 2 + 2 + 8 + 2

/-- `MAX_REPUTATION_BLOCK_PUBLICATION_LEN`. -/
def maxPublicationLen : ℕ :=
  publicationFixedLen + uncompressedKeyLen + maxBlockWireLen + maxDerSignatureLen

/-- `validate_publisher`. -/
def validatePublisher (publisher : NodeId) : Except PorReputationBlockPublicationError Unit :=
  (validatePublicKeyLength publisher.bytes).mapError .invalidPublisherKeyLength

/-- `validate_signature`. -/
def validateSignature (signature : List Byte) : Except PorReputationBlockPublicationError Unit :=
  if signature = [] then .error .missingSignature
  else if signature.length > maxDerSignatureLen then
    .error (.signatureTooLong signature.length maxDerSignatureLen)
  else .ok ()

/-! ### Publications -/

/-- What the signature covers: everything in front of it. -/
def publicationPayload (publisher : NodeId) (blockEnvelope : List Byte) : List Byte :=
  publicationDomain ++ (beBytes 2 publicationVersion.val ++
    (putU16Bytes publisher.bytes ++ putBytes blockEnvelope))

/-- A block beside its canonical envelope. -/
structure EncodedBlock (hasher : List Byte → ContentHash) where
  block : ReputationBlock
  envelope : List Byte
  canonical : encodeReputationBlock hasher block = .ok envelope

section Crypto

variable (crypto : RatingCrypto)

/-- `publication_signing_hash`. -/
def publicationSigningHash (publisher : NodeId) (blockEnvelope : List Byte) : ContentHash :=
  crypto.hasher (publicationPayload publisher blockEnvelope)

/-- The checks of `from_encoded_parts`. -/
def checkEncodedParts (publisher : NodeId) (blockEnvelope signature : List Byte) :
    Except PorReputationBlockPublicationError Unit := do
  validatePublisher publisher
  validateSignature signature
  if blockEnvelope.length > maxBlockWireLen then
    .error (.blockEnvelopeTooLong blockEnvelope.length maxBlockWireLen)
  else if !crypto.verify (publicationSigningHash crypto publisher blockEnvelope) publisher.bytes
      signature then .error .invalidSignature
  else .ok ()

/-- A publication whose signature is verified. -/
structure ReputationBlockPublicationV1 where
  publisher : NodeId
  encoded : EncodedBlock crypto.hasher
  signature : List Byte
  verified : checkEncodedParts crypto publisher encoded.envelope signature = .ok ()

end Crypto

namespace ReputationBlockPublicationV1

section Crypto

variable (crypto : RatingCrypto)

/-- `from_encoded_parts`. -/
def fromEncodedParts (publisher : NodeId) (encoded : EncodedBlock crypto.hasher)
    (signature : List Byte) :
    Except PorReputationBlockPublicationError (ReputationBlockPublicationV1 crypto) :=
  match h : checkEncodedParts crypto publisher encoded.envelope signature with
  | .error error => .error error
  | .ok () => .ok ⟨publisher, encoded, signature, h⟩

/-- The envelope of a block. -/
def encodeBlock (block : ReputationBlock) :
    Except PorReputationBlockPublicationError (EncodedBlock crypto.hasher) :=
  match h : encodeReputationBlock crypto.hasher block with
  | .error error => .error (.block error)
  | .ok envelope => .ok ⟨block, envelope, h⟩

/-- The block of an envelope, which is the canonical one. -/
def decodeBlock (envelope : List Byte) :
    Except PorReputationBlockPublicationError (EncodedBlock crypto.hasher) :=
  match h : decodeReputationBlock crypto.hasher envelope with
  | .error error => .error (.block error)
  | .ok block => .ok ⟨block, envelope, decodeReputationBlock_eq_ok_iff.1 h⟩

/-- `ReputationBlockPublicationV1::new`. -/
def new (publisher : NodeId) (block : ReputationBlock) (signature : List Byte) :
    Except PorReputationBlockPublicationError (ReputationBlockPublicationV1 crypto) := do
  let encoded ← encodeBlock crypto block
  fromEncodedParts crypto publisher encoded signature

end Crypto

variable {crypto : RatingCrypto}

/-- `encode`. -/
def encode (publication : ReputationBlockPublicationV1 crypto) : List Byte :=
  publicationPayload publication.publisher publication.encoded.envelope ++
    putU16Bytes publication.signature

end ReputationBlockPublicationV1

/-! ### The decoder -/

abbrev PublicationDecoder := Codec.Reader Byte PorReputationBlockPublicationError

namespace PublicationDecoder

/-- `read_exact`. -/
abbrev readExact (length : ℕ) : PublicationDecoder (List Byte) := take .unexpectedEnd length

/-- `read_u16`. -/
def readU16 : PublicationDecoder U16 := (fun n => Fin.ofNat _ n) <$> (ofBeBytes <$> readExact 2)

/-- `read_u64`. -/
def readU64 : PublicationDecoder ℕ := ofBeBytes <$> readExact 8

/-- `read_u16_bytes`. -/
def readU16Bytes : PublicationDecoder (List Byte) := (ofBeBytes <$> readExact 2) >>= readExact

variable (crypto : RatingCrypto)

/-- The block and its envelope, behind its length. -/
def readBlock : PublicationDecoder (EncodedBlock crypto.hasher) := do
  let blockLen ← readU64
  if blockLen > maxBlockWireLen then throw (.blockEnvelopeTooLong blockLen maxBlockWireLen)
  else
    let envelope ← readExact blockLen
    ReputationBlockPublicationV1.decodeBlock crypto envelope

/-- Domain to signature. -/
def readPublication : PublicationDecoder (NodeId × EncodedBlock crypto.hasher × List Byte) := do
  let domain ← readExact publicationDomain.length
  if domain ≠ publicationDomain then throw .invalidDomain
  else
    let version ← readU16
    if version ≠ publicationVersion then throw (.unsupportedVersion version)
    else
      let publisher ← NodeId.mk <$> readU16Bytes
      validatePublisher publisher
      let encoded ← readBlock crypto
      let signature ← readU16Bytes
      validateSignature signature
      pure (publisher, encoded, signature)

end PublicationDecoder

open PublicationDecoder

/-- `decode`. -/
def ReputationBlockPublicationV1.decode (crypto : RatingCrypto) (input : List Byte) :
    Except PorReputationBlockPublicationError (ReputationBlockPublicationV1 crypto) :=
  if input.length > maxPublicationLen then
    .error (.publicationTooLong input.length maxPublicationLen)
  else do
    let ((publisher, encoded, signature), rest) ← (readPublication crypto).run input
    if rest ≠ [] then .error .trailingBytes
    else ReputationBlockPublicationV1.fromEncodedParts crypto publisher encoded signature

/-! ### Decoding undoes encoding -/

variable {crypto : RatingCrypto} {publisher : NodeId} {envelope signature : List Byte}

/-- An envelope has one block. -/
theorem EncodedBlock.ext_envelope {hasher : List Byte → ContentHash} {a b : EncodedBlock hasher}
    (h : a.envelope = b.envelope) : a = b := by
  obtain ⟨block, envelope, hcanonical⟩ := a
  obtain ⟨block', envelope', hcanonical'⟩ := b
  obtain rfl : envelope = envelope' := h
  have hdecode := decodeReputationBlock_eq_ok_iff.2 hcanonical
  rw [decodeReputationBlock_eq_ok_iff.2 hcanonical'] at hdecode
  obtain rfl := Except.ok.inj hdecode
  rfl

theorem validatePublisher_eq_ok :
    validatePublisher publisher = .ok () ↔ PublicKeyLength publisher.bytes := by
  unfold validatePublisher validatePublicKeyLength
  rw [mapError_eq_ok]
  split_ifs with h <;> simp [h]

theorem validateSignature_eq_ok :
    validateSignature signature = .ok () ↔
      signature ≠ [] ∧ signature.length ≤ maxDerSignatureLen := by
  unfold validateSignature
  rw [guard_eq_ok, guard_eq_ok, not_lt]
  simp

namespace ReputationBlockPublicationV1

theorem decodeBlock_eq_ok {encoded : EncodedBlock crypto.hasher} :
    decodeBlock crypto envelope = .ok encoded ↔ encoded.envelope = envelope := by
  unfold decodeBlock
  constructor
  · intro h
    split at h
    · exact absurd h (by simp)
    · obtain rfl := Except.ok.inj h
      rfl
  · rintro rfl
    have hdecode := decodeReputationBlock_eq_ok_iff.2 encoded.canonical
    split
    next error herror =>
      rw [hdecode] at herror
      exact absurd herror (by simp)
    next => exact congrArg Except.ok (EncodedBlock.ext_envelope rfl)

theorem fromEncodedParts_eq_ok {encoded : EncodedBlock crypto.hasher}
    {publication : ReputationBlockPublicationV1 crypto} :
    fromEncodedParts crypto publisher encoded signature = .ok publication ↔
      publication.publisher = publisher ∧ publication.encoded = encoded ∧
        publication.signature = signature := by
  obtain ⟨found, foundEncoded, foundSignature, hverified⟩ := publication
  unfold fromEncodedParts
  constructor
  · intro h
    split at h
    · exact absurd h (by simp)
    · simp only [Except.ok.injEq, mk.injEq] at h
      exact ⟨h.1.symm, h.2.1.symm, h.2.2.symm⟩
  · rintro ⟨rfl, rfl, rfl⟩
    split
    next error herror =>
      dsimp only at herror
      rw [hverified] at herror
      exact absurd herror (by simp)
    next => rfl

end ReputationBlockPublicationV1

open ReputationBlockPublicationV1

namespace PublicationDecoder

theorem decodes_readU16 : Decodes readU16 (fun n : U16 => beBytes 2 n.val) fun _ => True :=
  decodes_fin PorReputationBlockPublicationError.unexpectedEnd (by norm_num)

theorem decodes_readU16Bytes :
    Decodes readU16Bytes putU16Bytes fun bytes => bytes.length < 256 ^ 2 :=
  decodes_putU16Bytes PorReputationBlockPublicationError.unexpectedEnd

theorem decodes_readBlock :
    Decodes (readBlock crypto) (fun encoded => putBytes encoded.envelope) fun _ => True := by
  have hnumber := decodes_number PorReputationBlockPublicationError.unexpectedEnd 8
  intro input encoded rest
  unfold readBlock readU64
  simp only [run_bind_eq_ok, run_guard_eq_ok, run_lift_eq_ok, hnumber _ _ _,
    decodes_take _ _ _ _ _, decodeBlock_eq_ok, not_lt, id, true_and]
  constructor
  · rintro ⟨_, _, ⟨-, rfl⟩, -, _, _, ⟨rfl, rfl⟩, rfl, rfl⟩
    exact (List.append_assoc _ _ _).symm
  · rintro rfl
    have hlength := length_of_encodeReputationBlock encoded.canonical
    refine ⟨encoded.envelope.length, _, ⟨?_, List.append_assoc _ _ _⟩, hlength, encoded.envelope, _,
      ⟨rfl, rfl⟩, rfl, rfl⟩
    unfold maxBlockWireLen at hlength
    omega

theorem decodes_readPublication :
    Decodes (readPublication crypto)
      (fun parts => publicationPayload parts.1 parts.2.1.envelope ++ putU16Bytes parts.2.2)
      fun parts => validatePublisher parts.1 = .ok () ∧ validateSignature parts.2.2 = .ok () := by
  have hpublisher : ∀ publisher : NodeId, validatePublisher publisher = .ok () →
      publisher.bytes.length < 256 ^ 2 := by
    intro publisher h
    rw [validatePublisher_eq_ok] at h
    unfold PublicKeyLength compressedKeyLen uncompressedKeyLen at h
    omega
  have hsignature : ∀ signature, validateSignature signature = .ok () →
      signature.length < 256 ^ 2 := by
    intro signature h
    have hlength := (validateSignature_eq_ok.1 h).2
    unfold maxDerSignatureLen at hlength
    omega
  rintro input ⟨publisher, encoded, signature⟩ rest
  unfold readPublication
  simp only [run_bind_eq_ok, run_guard_eq_ok, run_map_eq_ok, run_lift_eq_ok,
    run_pure_eq_ok, decodes_take _ _ _ _ _, decodes_readU16 _ _ _, decodes_readU16Bytes _ _ _,
    decodes_readBlock _ _ _, not_not, id, true_and, Prod.mk.injEq]
  constructor
  · rintro ⟨_, _, ⟨-, rfl⟩, rfl, _, _, rfl, rfl, _, _, ⟨bytes, ⟨-, rfl⟩, rfl⟩, _, _,
      ⟨hvalid, rfl⟩, _, _, rfl, _, _, ⟨-, rfl⟩, _, _, ⟨hsigned, rfl⟩, ⟨rfl, rfl, rfl⟩, rfl⟩
    exact ⟨⟨hvalid, hsigned⟩, by simp only [publicationPayload, List.append_assoc]⟩
  · rintro ⟨⟨hvalid, hsigned⟩, rfl⟩
    refine ⟨publicationDomain, _, ⟨rfl, ?_⟩, rfl, publicationVersion, _, rfl, rfl, publisher, _,
      ⟨publisher.bytes, ⟨hpublisher publisher hvalid, rfl⟩, rfl⟩, (), _, ⟨hvalid, rfl⟩, encoded, _,
      rfl, signature, rest, ⟨hsignature signature hsigned, rfl⟩, (), rest, ⟨hsigned, rfl⟩,
      ⟨rfl, rfl, rfl⟩, rfl⟩
    simp only [publicationPayload, List.append_assoc]

end PublicationDecoder

namespace ReputationBlockPublicationV1

variable {publication : ReputationBlockPublicationV1 crypto} {input : List Byte}

theorem parts_valid (publication : ReputationBlockPublicationV1 crypto) :
    validatePublisher publication.publisher = .ok () ∧
      validateSignature publication.signature = .ok () := by
  have hverified := publication.verified
  unfold checkEncodedParts at hverified
  rw [check_eq_ok, check_eq_ok] at hverified
  exact ⟨hverified.1, hverified.2.1⟩

theorem length_encode_le (publication : ReputationBlockPublicationV1 crypto) :
    publication.encode.length ≤ maxPublicationLen := by
  obtain ⟨hpublisher, hsignature⟩ := publication.parts_valid
  have hkey := validatePublisher_eq_ok.1 hpublisher
  have hlength := (validateSignature_eq_ok.1 hsignature).2
  have hblock := length_of_encodeReputationBlock publication.encoded.canonical
  unfold PublicKeyLength compressedKeyLen uncompressedKeyLen at hkey
  unfold encode publicationPayload putU16Bytes putBytes maxPublicationLen publicationFixedLen
    uncompressedKeyLen
  simp only [List.length_append, length_beBytes]
  omega

/-- **The decoder accepts the encodings, and nothing else.** -/
theorem decode_eq_ok : decode crypto input = .ok publication ↔ input = publication.encode := by
  unfold decode
  simp only [guard_eq_ok, bind_eq_ok, Prod.exists, not_not, not_lt,
    fromEncodedParts_eq_ok, decodes_readPublication _ _ _]
  constructor
  · rintro ⟨-, _, _, _, _, ⟨-, rfl⟩, rfl, rfl, rfl, rfl⟩
    exact List.append_nil _
  · rintro rfl
    exact ⟨publication.length_encode_le, publication.publisher, publication.encoded,
      publication.signature, [], ⟨publication.parts_valid, (List.append_nil _).symm⟩, rfl, rfl, rfl,
      rfl⟩

end ReputationBlockPublicationV1

/-! ### Three formats -/

/-- Behind the domain of ratings, no two versions. -/
theorem encode_ne_encode_checkpoint (wave : BlockProductionRatingEnvelopeV1)
    (checkpoint : BlockProductionRatingEnvelopeV2) : wave.encode ≠ checkpoint.encode := by
  intro h
  unfold BlockProductionRatingEnvelopeV1.encode BlockProductionRatingEnvelopeV2.encode at h
  have hversion := (List.append_inj (List.append_cancel_left h) (by simp)).1
  exact absurd hversion (by decide)

/-- A publication does not start as a rating does. -/
theorem publication_ne_rating (publication : ReputationBlockPublicationV1 crypto)
    (rest : List Byte) : publication.encode ≠ ratingEnvelopeDomain ++ rest := by
  intro h
  have htake := congrArg (List.take 13) h
  unfold ReputationBlockPublicationV1.encode publicationPayload at htake
  rw [List.append_assoc, List.take_append_of_le_length (by decide),
    List.take_append_of_le_length (by decide)] at htake
  exact absurd htake (by decide)

/-- **The codecs of ratings and publications are exact, and tell their inputs apart.**  Every
value that can be built decodes from its encoding, every accepted input is the encoding of
what it decodes to, and no input is accepted in two formats. -/
theorem rating_and_publication_codecs (crypto : RatingCrypto) :
    ((∀ wave, BlockProductionRatingEnvelopeV1.decode wave.encode = .ok wave) ∧
      ∀ input wave, BlockProductionRatingEnvelopeV1.decode input = .ok wave →
        wave.encode = input) ∧
    ((∀ checkpoint, BlockProductionRatingEnvelopeV2.decode checkpoint.encode = .ok checkpoint) ∧
      ∀ input checkpoint, BlockProductionRatingEnvelopeV2.decode input = .ok checkpoint →
        checkpoint.encode = input) ∧
    ((∀ publication : ReputationBlockPublicationV1 crypto,
        ReputationBlockPublicationV1.decode crypto publication.encode = .ok publication) ∧
      ∀ input publication, ReputationBlockPublicationV1.decode crypto input = .ok publication →
        publication.encode = input) ∧
    (∀ input wave checkpoint, ¬(BlockProductionRatingEnvelopeV1.decode input = .ok wave ∧
      BlockProductionRatingEnvelopeV2.decode input = .ok checkpoint)) ∧
    (∀ input wave publication, ¬(BlockProductionRatingEnvelopeV1.decode input = .ok wave ∧
      ReputationBlockPublicationV1.decode crypto input = .ok publication)) ∧
    ∀ input checkpoint publication, ¬(BlockProductionRatingEnvelopeV2.decode input =
      .ok checkpoint ∧ ReputationBlockPublicationV1.decode crypto input = .ok publication) := by
  simp only [BlockProductionRatingEnvelopeV1.decode_eq_ok,
    BlockProductionRatingEnvelopeV2.decode_eq_ok, decode_eq_ok]
  refine ⟨⟨fun _ => trivial, fun _ _ h => h.symm⟩, ⟨fun _ => trivial, fun _ _ h => h.symm⟩,
    ⟨fun _ => trivial, fun _ _ h => h.symm⟩, ?_, ?_, ?_⟩
  · rintro _ wave checkpoint ⟨rfl, h⟩
    exact encode_ne_encode_checkpoint wave checkpoint h
  · rintro _ wave publication ⟨rfl, h⟩
    exact publication_ne_rating publication _ h.symm
  · rintro _ checkpoint publication ⟨rfl, h⟩
    exact publication_ne_rating publication _ h.symm

end CordialMiners.Reputation
