/-
# What a rater produces is complete

A rater derives its expected ratings from the finalized evidence, scores and signs them,
and sends each in an envelope.  A collector derives the expected ratings of the rater
once more.

The two derivations agree (`produced_of_signed`), and every rating survives its envelope.
What can fail in between is the envelope itself, which carries secp256k1 keys only: a
batch can be encoded exactly where every recipient has such a key, and then peers accept
all of it in any order and count the rater as complete (`produced_batch_complete`).
-/

import CordialMiners.Collections.Matched
import CordialMiners.Ratings.Collection
import CordialMiners.Reputation.Injectivity

namespace CordialMiners.Reputation

open Codec (bind_eq_ok check_eq_ok mapError_eq_ok mapM_eq_ok
  exists_mapM_eq_ok)
open Matched (matched_left matched_right matched_pairwise find?_of_nodup)
open Blocklace (sampleBlock)

/-! ### Encoding a batch -/

/-- Items that are encoded one by one. -/
theorem encodeAll_spec {ε : Type} {encode : RatingRecord → Except ε (List Byte)}
    {Opens : RatingRecord → List Byte → Prop} {ratings : List RatingRecord}
    (hfits : ∀ rating ∈ ratings, (∃ bytes, encode rating = .ok bytes) ↔ rating.Fits)
    (hopens : ∀ rating bytes, encode rating = .ok bytes → Opens rating bytes) :
    ((∃ encoded, ratings.mapM encode = .ok encoded) ↔ ∀ rating ∈ ratings, rating.Fits) ∧
      ∀ encoded, ratings.mapM encode = .ok encoded → List.Forall₂ Opens ratings encoded := by
  refine ⟨⟨?_, fun h => exists_mapM_eq_ok fun rating hrating => (hfits rating hrating).2 (h rating hrating)⟩,
    fun encoded h => (mapM_eq_ok.1 h).imp hopens⟩
  rintro ⟨encoded, h⟩ rating hrating
  obtain ⟨bytes, -, hbytes⟩ := matched_left (mapM_eq_ok.1 h) rating hrating
  exact (hfits rating hrating).1 ⟨bytes, hbytes⟩

/-- **A wave batch** is encoded where its ratings fit; each envelope opens to its rating. -/
theorem encodeRatingBatch_spec {ε : Type} {finalizedWave : U64} {batch : RatingBatch}
    (hwave : checkedAdd64 finalizedWave.val 1 = some batch.round.val)
    (hround : ∀ rating ∈ batch.ratings, rating.round = batch.round) :
    ((∃ encoded, @encodeRatingBatch ε finalizedWave batch = .ok encoded) ↔
        ∀ rating ∈ batch.ratings, rating.Fits) ∧
      ∀ encoded, @encodeRatingBatch ε finalizedWave batch = .ok encoded →
        List.Forall₂ (fun rating bytes => ∃ envelope,
          BlockProductionRatingEnvelopeV1.decode bytes = .ok envelope ∧
            envelope.finalizedWave = finalizedWave ∧ envelope.rating = rating)
          batch.ratings encoded := by
  unfold encodeRatingBatch
  rw [if_neg (not_not.2 hwave)]
  refine encodeAll_spec (fun rating hrating => ?_) fun rating bytes h => ?_
  · simp only [bind_eq_ok, mapError_eq_ok,
      BlockProductionRatingEnvelopeV1.new_eq_ok, Except.ok.injEq]
    constructor
    · rintro ⟨_, envelope, ⟨-, rfl⟩, -⟩
      exact envelope.fits
    · intro hfits
      have hshape : validateRatingShape finalizedWave rating = .ok () := by
        unfold validateRatingShape
        rw [hround rating hrating, if_neg (not_not.2 hwave), validateRatingFields_eq_ok]
        exact hfits
      exact ⟨_, ⟨finalizedWave, rating, hshape⟩, ⟨rfl, rfl⟩, rfl⟩
  · simp only [bind_eq_ok, mapError_eq_ok,
      BlockProductionRatingEnvelopeV1.new_eq_ok, Except.ok.injEq] at h
    obtain ⟨envelope, hparts, rfl⟩ := h
    exact ⟨envelope, BlockProductionRatingEnvelopeV1.decode_eq_ok.2 rfl, hparts⟩

/-- **A checkpoint batch** is encoded where its ratings fit; each envelope opens to its
rating. -/
theorem encodeCheckpointRatingBatch_spec {ε : Type} {source : RatingSourceCheckpoint}
    {batch : RatingBatch} (hsource : source.validate = .ok ()) (hbatch : batch.round = source.round)
    (hround : ∀ rating ∈ batch.ratings, rating.round = batch.round) :
    ((∃ encoded, @encodeCheckpointRatingBatch ε source batch = .ok encoded) ↔
        ∀ rating ∈ batch.ratings, rating.Fits) ∧
      ∀ encoded, @encodeCheckpointRatingBatch ε source batch = .ok encoded →
        List.Forall₂ (fun rating bytes => ∃ envelope,
          BlockProductionRatingEnvelopeV2.decode bytes = .ok envelope ∧
            envelope.source = source ∧ envelope.rating = rating)
          batch.ratings encoded := by
  unfold encodeCheckpointRatingBatch
  rw [hsource, if_neg (not_not.2 hbatch)]
  refine encodeAll_spec (fun rating hrating => ?_) fun rating bytes h => ?_
  · simp only [bind_eq_ok, mapError_eq_ok,
      BlockProductionRatingEnvelopeV2.new_eq_ok, Except.ok.injEq]
    constructor
    · rintro ⟨_, envelope, ⟨-, rfl⟩, -⟩
      exact envelope.fits.2
    · intro hfits
      have hshape : validateCheckpointRatingShape source rating = .ok () := by
        unfold validateCheckpointRatingShape
        rw [hsource, hround rating hrating, hbatch]
        show (if source.round ≠ source.round then _ else validateRatingFields rating) = _
        rw [if_neg (not_not.2 rfl), validateRatingFields_eq_ok]
        exact hfits
      exact ⟨_, ⟨source, rating, hshape⟩, ⟨rfl, rfl⟩, rfl⟩
  · simp only [bind_eq_ok, mapError_eq_ok,
      BlockProductionRatingEnvelopeV2.new_eq_ok, Except.ok.injEq] at h
    obtain ⟨envelope, hparts, rfl⟩ := h
    exact ⟨envelope, BlockProductionRatingEnvelopeV2.decode_eq_ok.2 rfl, hparts⟩

/-! ### Rounds of both formats -/

/-- What opens a rating round. -/
inductive RoundSource where
  | wave (opened : FinalizedRatingRound)
  | checkpoint (boundary : FinalizedPrefixCheckpoint)

namespace RoundSource

section

variable (crypto : RatingCrypto) (B : Blocklace) (output : OrderedFinalizedOutput)
  (state : ReputationState) (config : PorConfig)

/-- The batch of a rater. -/
def buildBatch (rater : NodeId) (privateKey : List Byte) :
    RoundSource → Except PorRatingError RatingBatch
  | .wave opened =>
      buildFinalizedBlockProductionRatingBatch crypto B output opened rater state config privateKey
  | .checkpoint boundary =>
      buildFinalizedCheckpointRatingBatch crypto B output boundary rater state config privateKey

/-- Its envelopes. -/
def encodeBatch (batch : RatingBatch) : RoundSource → Except ReceiveError (List (List Byte))
  | .wave opened => encodeRatingBatch opened.finalizedWave batch
  | .checkpoint boundary => encodeCheckpointRatingBatch boundary.ratingSource batch

/-- The rules of the round. -/
def rules (authorizedRaters : List NodeId) : RoundSource → RatingRules
  | .wave opened => waveRules crypto B output state config opened
  | .checkpoint boundary =>
      checkpointRules crypto B output state config boundary authorizedRaters

/-- A fresh collector. -/
def newCollector (authorizedRaters : List NodeId) :
    RoundSource → Except PorRatingCollectorError RatingCollector
  | .wave opened => BlockProductionRatingCollector.new crypto B output state config opened
  | .checkpoint boundary =>
      CheckpointBlockProductionRatingCollector.new crypto B output state config boundary
        authorizedRaters

end

variable {crypto : RatingCrypto} {B : Blocklace} {output : OrderedFinalizedOutput}
  {state : ReputationState} {config : PorConfig} {source : RoundSource} {rater : NodeId}
  {privateKey : List Byte} {batch : RatingBatch} {authorizedRaters : List NodeId}
  {c : RatingCollector}

theorem newCollector_ok
    (h : source.newCollector crypto B output state config authorizedRaters = .ok c) :
    c = ⟨source.rules crypto B output state config authorizedRaters, .empty⟩ ∧
      c.rules.Lawful := by
  cases source with
  | wave opened =>
      obtain ⟨-, -, rfl⟩ := BlockProductionRatingCollector.new_eq_ok.1 h
      exact ⟨rfl, lawful_waveRules⟩
  | checkpoint boundary =>
      obtain ⟨hwindow, -, rfl⟩ := CheckpointBlockProductionRatingCollector.new_eq_ok.1 h
      exact ⟨rfl, lawful_checkpointRules hwindow⟩

/-- What the batch of a rater is for a collector of the round. -/
structure Produced (rules : RatingRules) (rater : NodeId) (privateKey : List Byte)
    (batch : RatingBatch) : Prop where
  round : batch.round = rules.round
  validated : rules.validateRater rater = .ok ()
  signed : ∀ rating ∈ batch.ratings, rating.rater = rater ∧ rating.round = rules.round ∧
    validateSignedOf rules.crypto rules.payload rating rules.config = .ok () ∧
    (∃ signingHash, rules.crypto.sign signingHash privateKey = .ok rating.signature) ∧
    ∃ interactionRef, rating.interactionRef = some interactionRef ∧
      interactionRef.length = blockHashLen
  /-- One rating for each recipient that is expected of the rater. -/
  said : ∃ expected, rules.expected rater = .ok expected ∧
    (expected.map ExpectedRating.recipient).Nodup ∧
    (batch.ratings.map RatingRecord.recipient).Nodup ∧
    (∀ rating ∈ batch.ratings, ∃ interaction ∈ expected, interaction.Said rules.round rating) ∧
    ∀ interaction ∈ expected, ∃ rating ∈ batch.ratings, interaction.Said rules.round rating

/-- **Ratings that are signed one by one**, each for an interaction that is expected. -/
theorem produced_of_signed {rules : RatingRules} {expected : List ExpectedRating}
    {ratings : List RatingRecord} (hrater : rules.validateRater rater = .ok ())
    (hexpected : rules.expected rater = .ok expected)
    (hdistinct : (expected.map ExpectedRating.recipient).Nodup)
    (hsigned : List.Forall₂ (fun interaction rating => rating.rater = rater ∧
      interaction.Said rules.round rating ∧
      (∃ signingHash, rules.crypto.sign signingHash privateKey = .ok rating.signature) ∧
      validateSignedOf rules.crypto rules.payload rating rules.config = .ok () ∧
      interaction.evidenceRef.length = blockHashLen) expected ratings)
    (hbatch : buildRatingBatch rules.round ratings rules.config = .ok batch) :
    Produced rules rater privateKey batch := by
  obtain rfl := eq_of_buildRatingBatch hbatch
  have hmem : ∀ rating, rating ∈ sortRatings ratings ↔ rating ∈ ratings := fun rating =>
    (perm_sortRatings ratings).mem_iff
  have hrecipients : ratings.map RatingRecord.recipient =
      expected.map ExpectedRating.recipient := by
    rw [← List.forall₂_eq_eq_eq, List.forall₂_map_left_iff, List.forall₂_map_right_iff]
    exact List.Forall₂.flip (hsigned.imp fun _ _ h => h.2.1.recipient)
  refine ⟨rfl, hrater, fun rating hrating => ?_, expected, hexpected, hdistinct, ?_, fun rating hrating => ?_,
    fun interaction hinteraction => ?_⟩
  · obtain ⟨interaction, -, hrater, hsaid, hsign, hvalid, hlength⟩ :=
      matched_right hsigned rating ((hmem rating).1 hrating)
    exact ⟨hrater, hsaid.round, hvalid, hsign, _, hsaid.reference, hlength⟩
  · rw [((perm_sortRatings ratings).map RatingRecord.recipient).nodup_iff, hrecipients]
    exact hdistinct
  · obtain ⟨interaction, hinteraction, -, hsaid, -⟩ :=
      matched_right hsigned rating ((hmem rating).1 hrating)
    exact ⟨interaction, hinteraction, hsaid⟩
  · obtain ⟨rating, hrating, -, hsaid, -⟩ := matched_left hsigned interaction hinteraction
    exact ⟨rating, (hmem rating).2 hrating, hsaid⟩

/-- **A batch that is built** is what the collectors of the round expect. -/
theorem buildBatch_produced
    (h : source.buildBatch crypto B output state config rater privateKey = .ok batch) :
    Produced (source.rules crypto B output state config authorizedRaters) rater privateKey batch := by
  cases source with
  | wave opened =>
      unfold buildBatch buildFinalizedBlockProductionRatingBatch at h
      dsimp only at h
      simp only [bind_eq_ok, mapError_eq_ok] at h
      obtain ⟨admitted, hadmitted, ratings, hratings, hbatch⟩ := h
      unfold buildVerifiedRatingBatch buildVerifiedOf at hbatch
      rw [check_eq_ok, mapError_eq_ok] at hbatch
      obtain ⟨-, hnodup, hall⟩ := finalizedInteractions_spec hadmitted
      refine produced_of_signed rfl (waveRules_expected_iff.2 ⟨admitted, hadmitted, rfl⟩)
        (by rwa [List.map_map]) ?_ hbatch.2
      rw [List.forall₂_map_left_iff]
      refine ((List.forall₂_and_left _ _).2 ⟨hall, mapM_eq_ok.1 hratings⟩).imp ?_
      rintro interaction rating ⟨⟨hround, -, hrater, hlength, -⟩, hsign⟩
      obtain ⟨hsigner, hsaid, hsignature, hvalid⟩ := signAdmittedInteraction_ok hsign
      rw [hround] at hsaid
      exact ⟨hsigner.trans hrater, hsaid, hsignature, hvalid, hlength⟩
  | checkpoint boundary =>
      unfold buildBatch buildFinalizedCheckpointRatingBatch at h
      dsimp only at h
      rw [check_eq_ok, mapError_eq_ok] at h
      simp only [bind_eq_ok, mapError_eq_ok] at h
      obtain ⟨hrater, admitted, hadmitted, ratings, hratings, hbatch⟩ := h
      unfold buildVerifiedCheckpointRatingBatch buildVerifiedOf at hbatch
      rw [check_eq_ok, check_eq_ok, mapError_eq_ok,
        mapError_eq_ok] at hbatch
      obtain ⟨-, hnodup, hall⟩ := checkpointInteractions_spec hadmitted
      refine produced_of_signed (mapError_eq_ok.2 hrater)
        (checkpointRules_expected_iff.2 ⟨admitted, hadmitted, rfl⟩) (by rwa [List.map_map]) ?_
        hbatch.2.2
      rw [List.forall₂_map_left_iff]
      refine ((List.forall₂_and_left _ _).2 ⟨hall, mapM_eq_ok.1 hratings⟩).imp ?_
      rintro interaction rating ⟨⟨-, -, hrater, hlength, -⟩, hsign⟩
      obtain ⟨hsigner, hsaid, hsignature, hvalid⟩ := signAdmittedCheckpointInteraction_ok hsign
      exact ⟨hsigner.trans hrater, hsaid, hsignature, hvalid, hlength⟩

variable {rules : RatingRules} {rating : RatingRecord}

/-- Collectors that authorize the rater admit every rating of it. -/
theorem Produced.admissible (h : Produced rules rater privateKey batch)
    (hauthorized : rules.authorized rater = true) (hrating : rating ∈ batch.ratings) :
    RatingCollector.Admissible rules rating := by
  obtain ⟨hrater, -, hvalid, -⟩ := h.signed rating hrating
  obtain ⟨expected, hexpected, hdistinct, -, hsaid, -⟩ := h.said
  obtain ⟨interaction, hinteraction, hsaid⟩ := hsaid rating hrating
  refine ⟨hrater ▸ hauthorized, hvalid, expected, hrater ▸ hexpected, interaction, ?_, hsaid⟩
  rw [hsaid.recipient]
  exact find?_of_nodup hdistinct hinteraction

/-- **A rating fits an envelope exactly where its recipient has a secp256k1 key.** -/
theorem Produced.fits_iff (h : Produced rules rater privateKey batch)
    (hverify : ∀ signingHash key signature,
      rules.crypto.verify signingHash key signature = true → PublicKeyLength key)
    (hsign : ∀ signingHash signature, rules.crypto.sign signingHash privateKey = .ok signature →
      signature.length ≤ maxDerSignatureLen) (hrating : rating ∈ batch.ratings) :
    rating.Fits ↔ PublicKeyLength rating.recipient.bytes := by
  obtain ⟨-, -, hvalid, ⟨signingHash, hsigned⟩, hreference⟩ := h.signed rating hrating
  obtain ⟨verifiedHash, hverified⟩ := validateSignedOf_verified hvalid
  exact ⟨RatingRecord.Fits.recipient, fun hrecipient =>
    ⟨hverify _ _ _ hverified, hrecipient, hreference,
      validateRating_signature (validateSignedOf_policy hvalid), hsign _ _ hsigned⟩⟩

/-- **The envelopes of a batch** open to its ratings. -/
theorem encodeBatch_spec
    (h : Produced (source.rules crypto B output state config authorizedRaters) rater privateKey
      batch) :
    ((∃ encoded, source.encodeBatch batch = .ok encoded) ↔ ∀ rating ∈ batch.ratings, rating.Fits) ∧
      ∀ encoded, source.encodeBatch batch = .ok encoded → List.Forall₂ (fun rating bytes =>
        (source.rules crypto B output state config authorizedRaters).openEnvelope bytes =
          .ok rating) batch.ratings encoded := by
  obtain ⟨expected, hexpected, -⟩ := h.said
  have hround : ∀ rating ∈ batch.ratings, rating.round = batch.round := fun rating hrating =>
    (h.signed rating hrating).2.1.trans h.round.symm
  cases source with
  | wave opened =>
      obtain ⟨admitted, hadmitted, -⟩ := waveRules_expected_iff.1 hexpected
      have hwave := validateFinalizedRatingRound_ok (finalizedInteractions_spec hadmitted).1
      have hbatch : batch.round = opened.ratingRound := h.round
      rw [← hbatch] at hwave
      obtain ⟨hiff, hopens⟩ := encodeRatingBatch_spec (ε := PorRatingCollectorError) hwave hround
      refine ⟨hiff, fun encoded hencoded => (hopens encoded hencoded).imp ?_⟩
      rintro rating bytes ⟨envelope, hdecode, hfound, rfl⟩
      unfold rules waveRules
      dsimp only
      rw [hdecode]
      exact if_neg (not_not.2 hfound)
  | checkpoint boundary =>
      obtain ⟨admitted, hadmitted, -⟩ := checkpointRules_expected_iff.1 hexpected
      have hsource := (checkpointInteractions_spec hadmitted).1.checkpointOf.validate_ratingSource
      obtain ⟨hiff, hopens⟩ := encodeCheckpointRatingBatch_spec (ε := PorRatingCollectorError)
        hsource h.round hround
      refine ⟨hiff, fun encoded hencoded => (hopens encoded hencoded).imp ?_⟩
      rintro rating bytes ⟨envelope, hdecode, hfound, rfl⟩
      unfold rules checkpointRules
      dsimp only
      rw [hdecode]
      exact if_neg (not_not.2 hfound)

end RoundSource

namespace RatingCollector

variable {c : RatingCollector} {order : List (List Byte)}

/-- Envelopes that open to admissible ratings of different keys. -/
structure Apart (rules : RatingRules) (order : List (List Byte)) : Prop where
  opens : ∀ bytes ∈ order, ∃ rating, rules.openEnvelope bytes = .ok rating ∧
    Admissible rules rating
  keys : order.Pairwise fun bytes bytes' => ∀ rating rating',
    rules.openEnvelope bytes = .ok rating → rules.openEnvelope bytes' = .ok rating' →
    collectorKey rating ≠ collectorKey rating'

theorem Apart.perm {rules : RatingRules} {order' : List (List Byte)} (h : Apart rules order)
    (hperm : order'.Perm order) : Apart rules order' where
  opens bytes hbytes := h.opens bytes (hperm.mem_iff.1 hbytes)
  keys := hperm.symm.pairwise h.keys fun hne rating rating' hopen hopen' heq =>
    hne rating' rating hopen' hopen heq.symm

/-- What a run of envelopes leaves in a fresh collector comes from one of them. -/
theorem exists_of_lookup_fresh (hfresh : c.ratings = .empty) {k : NodeId ×ₗ NodeId}
    {rating : RatingRecord}
    (h : (c.submitAll (order.map .envelope)).ratings.lookup k = some rating) :
    ∃ bytes ∈ order, c.rules.openEnvelope bytes = .ok rating ∧ collectorKey rating = k := by
  rcases (submitAll_grows c (order.map .envelope)).new k rating h with hold | ⟨hcarried, hkey, -⟩
  · rw [hfresh, OrderedMap.lookup_empty] at hold
    exact absurd hold (by simp)
  · obtain ⟨submission, hsubmission, hcarried⟩ := List.mem_flatMap.1 hcarried
    obtain ⟨bytes, hbytes, rfl⟩ := List.mem_map.1 hsubmission
    rw [Submission.ratings, Option.mem_toList] at hcarried
    exact ⟨bytes, hbytes, Codec.eq_ok_of_toOption hcarried, hkey⟩

/-- **Every one of them is accepted.** -/
theorem Apart.accepted (h : Apart c.rules order) (hfresh : c.ratings = .empty)
    {before after : List (List Byte)} {bytes : List Byte} (horder : order = before ++ bytes :: after) :
    ((c.submitAll (before.map .envelope)).receive bytes).1 = .ok () := by
  have hrules := (submitAll_grows c (before.map .envelope)).rules
  rcases receive_cases (c.submitAll (before.map .envelope)) bytes with
    ⟨_, -, -, -, hreceive⟩ | ⟨hrefused, -⟩
  · rw [hreceive]
  · obtain ⟨rating, hopen, hadmissible⟩ := h.opens bytes (by simp [horder])
    refine absurd ⟨hrules ▸ hadmissible, ?_⟩ (hrefused rating (hrules ▸ hopen))
    by_contra hheld
    obtain ⟨other, hother⟩ := Option.ne_none_iff_exists'.1 hheld
    obtain ⟨bytes', hbytes', hopen', hkey⟩ := exists_of_lookup_fresh hfresh hother
    have hkeys := h.keys
    rw [horder, List.pairwise_append] at hkeys
    exact hkeys.2.2 bytes' hbytes' bytes List.mem_cons_self other rating hopen' hopen hkey

/-- **All of them are there in the end.** -/
theorem Apart.mem_values (h : Apart c.rules order) (hfresh : c.ratings = .empty)
    {bytes : List Byte} (hbytes : bytes ∈ order) {rating : RatingRecord}
    (hopen : c.rules.openEnvelope bytes = .ok rating) :
    rating ∈ (c.submitAll (order.map .envelope)).ratings.values := by
  obtain ⟨before, after, horder⟩ := List.append_of_mem hbytes
  have haccepted := h.accepted hfresh horder
  have hrules := (submitAll_grows c (before.map .envelope)).rules
  rcases receive_cases (c.submitAll (before.map .envelope)) bytes with
    ⟨found, hfound, -, -, hreceive⟩ | ⟨-, error, hreceive⟩
  · rw [hrules, hopen, Except.ok.injEq] at hfound
    subst hfound
    have hrest := submitAll_grows ((c.submitAll (before.map .envelope)).receive bytes).2
      (after.map .envelope)
    rw [horder, List.map_append, List.map_cons, submitAll_append]
    refine OrderedMap.mem_values_iff.2 ⟨collectorKey rating, hrest.kept _ _ ?_⟩
    rw [hreceive]
    dsimp only
    rw [OrderedMap.lookup_insert, if_pos rfl]
  · rw [hreceive] at haccepted
    exact absurd haccepted (by simp)

end RatingCollector

/-- **What a rater produces its peers count as complete.**  A batch that has been built
can be encoded exactly where every recipient has a key of 33 or 65 bytes.  A fresh
collector that authorizes the rater then accepts its envelopes in any order, and the
rater is complete. -/
theorem produced_batch_complete (crypto : RatingCrypto) (privateKey : List Byte)
    (hverify : ∀ signingHash key signature,
      crypto.verify signingHash key signature = true → PublicKeyLength key)
    (hsign : ∀ signingHash signature, crypto.sign signingHash privateKey = .ok signature →
      signature.length ≤ maxDerSignatureLen)
    (B : Blocklace) (output : OrderedFinalizedOutput) (state : ReputationState)
    (config : PorConfig) (source : RoundSource) (rater : NodeId) (batch : RatingBatch)
    (hbuilt : source.buildBatch crypto B output state config rater privateKey = .ok batch) :
    ((∃ encoded, source.encodeBatch batch = .ok encoded) ↔
      ∀ rating ∈ batch.ratings, PublicKeyLength rating.recipient.bytes) ∧
    ∀ encoded authorizedRaters c, source.encodeBatch batch = .ok encoded →
      source.newCollector crypto B output state config authorizedRaters = .ok c →
      c.rules.authorized rater = true → ∀ order, order.Perm encoded →
        (∀ before bytes after, order = before ++ bytes :: after →
          ((c.submitAll (before.map .envelope)).receive bytes).1 = .ok ()) ∧
        (c.submitAll (order.map .envelope)).isRaterComplete rater = .ok true := by
  have hproduced : ∀ authorizedRaters, RoundSource.Produced
      (source.rules crypto B output state config authorizedRaters) rater privateKey batch :=
    fun _ => RoundSource.buildBatch_produced hbuilt
  have hcrypto : ∀ authorizedRaters,
      (source.rules crypto B output state config authorizedRaters).crypto = crypto := fun _ => by
    cases source <;> rfl
  constructor
  · rw [(RoundSource.encodeBatch_spec (hproduced [])).1]
    refine forall₂_congr fun rating hrating => (hproduced []).fits_iff ?_ ?_ hrating
    · rwa [hcrypto]
    · rwa [hcrypto]
  · intro encoded authorizedRaters c hencoded hnew hauthorized order hperm
    obtain ⟨rfl, hlawful⟩ := RoundSource.newCollector_ok hnew
    have hproduced := hproduced authorizedRaters
    have hopens := (RoundSource.encodeBatch_spec hproduced).2 encoded hencoded
    obtain ⟨expected, hexpected, hdistinct, hrecipients, -, hall⟩ := hproduced.said
    have hapart : RatingCollector.Apart
        (source.rules crypto B output state config authorizedRaters) encoded := by
      refine ⟨fun bytes hbytes => ?_, ?_⟩
      · obtain ⟨rating, hrating, hopen⟩ := matched_right hopens bytes hbytes
        exact ⟨rating, hopen, hproduced.admissible hauthorized hrating⟩
      · have hkeys : batch.ratings.Pairwise fun rating rating' =>
            collectorKey rating ≠ collectorKey rating' := by
          rw [List.Nodup, List.pairwise_map] at hrecipients
          refine hrecipients.imp fun {rating rating'} hne heq => hne ?_
          exact (Prod.mk.inj (toLex.injective heq)).2
        refine matched_pairwise (fun rating rating' bytes h h' => ?_) hopens hkeys
        exact Except.ok.inj (h.symm.trans h')
    have hapart := hapart.perm hperm
    refine ⟨fun before bytes after horder => hapart.accepted rfl horder, ?_⟩
    have hgrows := RatingCollector.submitAll_grows
      ⟨source.rules crypto B output state config authorizedRaters, .empty⟩ (order.map .envelope)
    have hsound := hgrows.sound fun k rating h => absurd h (by simp)
    refine RatingCollector.isRaterComplete_true_iff.2
      ⟨hgrows.rules ▸ hauthorized, hgrows.rules ▸ hproduced.validated, expected,
        hgrows.rules ▸ hexpected, ?_⟩
    rw [hsound.length_eq_iff (by rwa [hgrows.rules]) (hgrows.rules ▸ hexpected)]
    intro interaction hinteraction
    obtain ⟨rating, hrating, hsaid⟩ := hall interaction hinteraction
    obtain ⟨bytes, hbytes, hopen⟩ := matched_left hopens rating hrating
    exact ⟨rating, hapart.mem_values rfl (hperm.mem_iff.2 hbytes) hopen,
      (hproduced.signed rating hrating).1, hsaid.recipient⟩

/-! ### Short keys -/

theorem keyedCrypto_verify (signingHash : ContentHash) (key signature : List Byte)
    (h : keyedCrypto.verify signingHash key signature = true) : PublicKeyLength key := by
  unfold keyedCrypto at h
  rw [decide_eq_true_eq] at h
  exact .inl h.1

/-- The hypotheses of `produced_batch_complete` are met by the first of three creators. -/
theorem produced_batch_complete_wave :
    ∃ batch encoded c, (RoundSource.wave ⟨0, 1⟩).buildBatch keyedCrypto ratedLace ratedOutput
        ratedState .default (keyedIdentity 1).creator [] = .ok batch ∧
      (RoundSource.wave ⟨0, 1⟩).encodeBatch batch = .ok encoded ∧
      (RoundSource.wave ⟨0, 1⟩).newCollector keyedCrypto ratedLace ratedOutput ratedState .default
        [] = .ok c ∧
      (c.submitAll (encoded.reverse.map .envelope)).isRaterComplete (keyedIdentity 1).creator =
        .ok true := by
  have hrun : (((RoundSource.wave ⟨0, 1⟩).buildBatch keyedCrypto ratedLace ratedOutput ratedState
      .default (keyedIdentity 1).creator []).toOption.bind fun batch =>
        ((RoundSource.wave ⟨0, 1⟩).encodeBatch batch).toOption).isSome = true := by decide +kernel
  have hnew : ((RoundSource.wave ⟨0, 1⟩).newCollector keyedCrypto ratedLace ratedOutput ratedState
      .default []).isOk = true := by decide +kernel
  obtain ⟨encoded, hrun⟩ := Option.isSome_iff_exists.1 hrun
  obtain ⟨batch, hbatch, hencoded⟩ := Option.bind_eq_some_iff.1 hrun
  obtain ⟨c, hc⟩ := Codec.exists_eq_ok_of_isOk hnew
  have hbuilt := Codec.eq_ok_of_toOption hbatch
  have hencoded := Codec.eq_ok_of_toOption hencoded
  have hcomplete := produced_batch_complete keyedCrypto [] keyedCrypto_verify
    (fun _ signature h => by
      obtain rfl := Except.ok.inj h
      decide) _ _ _ _ _ _ _ hbuilt
  obtain ⟨-, hcomplete⟩ := hcomplete.2 encoded [] c hencoded hc
    (by rw [(RoundSource.newCollector_ok hc).1]; rfl) encoded.reverse (List.reverse_perm _)
  exact ⟨batch, encoded, c, hbuilt, hencoded, hc, hcomplete⟩

/-- The wave of `ratedOutput` with a second creator whose key has one byte. -/
def shortIdentity : BlockIdentity := ⟨2, ⟨[2]⟩, [2]⟩

/-- A genesis block of each. -/
def shortLace : Blocklace :=
  (Blocklace.new 0).growBy [sampleBlock (keyedIdentity 1) [], sampleBlock shortIdentity []]

/-- Their finalized wave. -/
def shortOutput : OrderedFinalizedOutput :=
  ⟨[keyedIdentity 1, shortIdentity], some (keyedIdentity 1), 1⟩

/-- Both creators have a reputation. -/
def shortState : ReputationState :=
  ((ReputationState.new 0).setReputation (keyedIdentity 1).creator 5).setReputation
    shortIdentity.creator 5

/-- **A recipient with a short key is rated, and no envelope carries the rating**, though
the rater signs with signatures of one byte that verify. -/
theorem short_key_not_encoded :
    (∀ signingHash, ∃ signature, keyedCrypto.sign signingHash [] = .ok signature ∧
      signature.length ≤ 72 ∧
      keyedCrypto.verify signingHash (keyedIdentity 1).creator.bytes signature = true) ∧
    PorConfig.default.validate = .ok () ∧
    shortState.contains (keyedIdentity 1).creator = true ∧
    shortState.isEjected (keyedIdentity 1).creator = false ∧
    ∃ batch, (RoundSource.wave ⟨0, 1⟩).buildBatch keyedCrypto shortLace shortOutput shortState
        .default (keyedIdentity 1).creator [] = .ok batch ∧
      (RoundSource.wave ⟨0, 1⟩).encodeBatch batch =
        .error (.wire (.invalidRecipientKeyLength 1)) := by
  have hrun : (((RoundSource.wave ⟨0, 1⟩).buildBatch keyedCrypto shortLace shortOutput shortState
      .default (keyedIdentity 1).creator []).toOption.bind fun batch =>
        match (RoundSource.wave ⟨0, 1⟩).encodeBatch batch with
        | .error error =>
            if error = .wire (.invalidRecipientKeyLength 1) then some () else none
        | .ok _ => none) = some () := by decide +kernel
  obtain ⟨batch, hbatch, hencode⟩ := Option.bind_eq_some_iff.1 hrun
  refine ⟨fun _ => ⟨[9], rfl, by decide, by simp [keyedCrypto, keyedIdentity]⟩,
    PorConfig.validate_eq_ok.2 PorConfig.default_valid, by decide +kernel, by decide +kernel, batch,
    Codec.eq_ok_of_toOption hbatch, ?_⟩
  split at hencode
  next error herror =>
    split_ifs at hencode with heq
    rw [herror, heq]
  next => exact absurd hencode (by simp)

end CordialMiners.Reputation
