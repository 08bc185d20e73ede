/-
# What is hashed and signed

The preimages of the commitments and the payloads that are signed, side by side:
`commitments.rs`, `ratings.rs` and `evidence.rs` of `crates/cordial-por`.

Each is a domain and a layout behind it (`Committed`).  No domain starts with
another (`domains_apart`), and every layout is delimited.  The intent and the capability of a
checkpoint authorization share a domain; the capability goes on where the intent
ends.  Lengths are written in 64 bits, so everything is said of preimages of fewer
than `2 ^ 64` bytes, as byte vectors have.
-/

import CordialMiners.Codec.Delimited
import CordialMiners.Reputation.Wire

namespace CordialMiners.Reputation

open Codec (beBytes Delimited announces_beBytes)

/-! ### Domains -/

/-- The domains of preimages. -/
inductive PreimageDomain where
  | rating
  | checkpointRating
  | ratingBatch
  | checkpointRatingBatch
  | penaltyEvents
  | reputationList
  | config
  | block
  | checkpointBlock
  | authorization
  | checkpointAuthorization
deriving DecidableEq

/-- All of them. -/
def PreimageDomain.all : List PreimageDomain :=
  [rating, checkpointRating, ratingBatch, checkpointRatingBatch, penaltyEvents, reputationList,
    config, block, checkpointBlock, authorization, checkpointAuthorization]

theorem PreimageDomain.mem_all (d : PreimageDomain) : d ∈ all := by cases d <;> decide

/-- The bytes of a domain. -/
def PreimageDomain.bytes : PreimageDomain → List Byte
  | rating => ratingSigningDomain
  | checkpointRating => checkpointRatingSigningDomain
  | ratingBatch => ratingBatchCommitmentDomain
  | checkpointRatingBatch => checkpointRatingBatchCommitmentDomain
  | penaltyEvents => penaltyEventsCommitmentDomain
  | reputationList => reputationListCommitmentDomain
  | config => configCommitmentDomain
  | block => reputationBlockCommitmentDomain reputationBlockVersion
  | checkpointBlock => reputationBlockCommitmentDomain checkpointReputationBlockVersion
  | authorization => equivocationAuthorizationDomain
  | checkpointAuthorization => checkpointEquivocationAuthorizationDomain

/-- **No domain starts with another.** -/
theorem domains_apart (d d' : PreimageDomain) (h : d.bytes <+: d'.bytes) : d = d' := by
  have hall : ∀ a ∈ PreimageDomain.all, ∀ b ∈ PreimageDomain.all, a.bytes <+: b.bytes → a = b := by
    decide +kernel
  exact hall d d.mem_all d' d'.mem_all h

/-! ### Preimages of the commitments -/

section Hasher

variable (hasher : List Byte → ContentHash)

/-- The parameters of a configuration. -/
def configLayout (config : PorConfig) : List Byte :=
  beBytes 8 config.scale.val ++ (beBytes 8 config.initialReputation.val ++
    (beBytes 8 config.liquidRankAlpha.val ++ (beBytes 8 config.minimumRating.val ++
      (beBytes 8 config.maximumRating.val ++ ([config.missingEntryPolicy.tag] ++
        (beBytes 8 config.correlationThreshold.val ++ (beBytes 8 config.baseSlashPenalty.val ++
          beBytes 8 config.inactivityDecayGamma.val)))))))

/-- What `config_commitment` hashes. -/
def configPreimage (config : PorConfig) : List Byte := configCommitmentDomain ++ configLayout config

theorem configCommitment_eq (config : PorConfig) :
    configCommitment hasher config = hasher (configPreimage config) := by
  simp only [configCommitment, configPreimage, configLayout, List.append_assoc]

/-- What `rating_batch_commitment` hashes. -/
def ratingBatchPreimage (batch : RatingBatch) (config : PorConfig) :
    Except PorError (List Byte) := do
  let canonical ← buildRatingBatch batch.round batch.ratings config
  .ok (ratingBatchCommitmentDomain ++ beBytes 8 canonical.round.val ++
    beBytes 8 canonical.ratings.length ++ canonical.ratings.flatMap fun rating =>
      putBytes (canonicalRatingPayload rating) ++ putBytes rating.signature)

theorem ratingBatchCommitment_eq (batch : RatingBatch) (config : PorConfig) :
    ratingBatchCommitment hasher batch config = hasher <$> ratingBatchPreimage batch config := by
  unfold ratingBatchCommitment ratingBatchPreimage
  rw [map_bind]
  exact bind_congr fun canonical => rfl

/-- What `checkpoint_rating_batch_commitment` hashes. -/
def checkpointRatingBatchPreimage (batch : RatingBatch) (source : RatingSourceCheckpoint)
    (config : PorConfig) : Except PorError (List Byte) := do
  let canonical ← buildRatingBatch batch.round batch.ratings config
  if canonical.round ≠ source.round then .error .invalidRatingRound
  else
    source.validate
    let ratings ← canonical.ratings.mapM fun rating => do
      let payload ← canonicalCheckpointRatingPayload rating source
      .ok (putBytes payload ++ putBytes rating.signature)
    .ok (checkpointRatingBatchCommitmentDomain ++ beBytes 8 canonical.round.val ++
      sourceFields source ++ beBytes 8 canonical.ratings.length ++ ratings.flatten)

theorem checkpointRatingBatchCommitment_eq (batch : RatingBatch) (source : RatingSourceCheckpoint)
    (config : PorConfig) :
    checkpointRatingBatchCommitment hasher batch source config =
      hasher <$> checkpointRatingBatchPreimage batch source config := by
  unfold checkpointRatingBatchCommitment checkpointRatingBatchPreimage
  rw [map_bind]
  refine bind_congr fun canonical => ?_
  split_ifs
  · rfl
  · rw [map_bind]
    refine bind_congr fun _ => ?_
    rw [map_bind]
    exact bind_congr fun ratings => rfl

/-- The bytes of `commitPenalties`. -/
def penaltiesPreimage (round : U64) (equivocations : List EquivocationPenalty)
    (inactivity : List InactivityPenalty) : Except PorError (List Byte) := do
  let start : PenaltyPayload := ⟨[], penaltyEventsCommitmentDomain ++ beBytes 8 round.val ++
    beBytes 8 equivocations.length⟩
  let state ← equivocations.foldlM (PenaltyPayload.putEquivocation hasher round) start
  let state ← inactivity.foldlM PenaltyPayload.putInactivity
    { state with payload := state.payload ++ beBytes 8 inactivity.length }
  if state.payload.length > maxBlockWireLen then
    .error (.invalidPenaltyEvents "penalty payload too large")
  else .ok state.payload

theorem commitPenalties_eq (round : U64) (equivocations : List EquivocationPenalty)
    (inactivity : List InactivityPenalty) :
    commitPenalties hasher round equivocations inactivity =
      hasher <$> penaltiesPreimage hasher round equivocations inactivity := by
  unfold commitPenalties penaltiesPreimage
  simp only [map_bind]
  refine bind_congr fun state => bind_congr fun state => ?_
  split_ifs <;> rfl

/-- What `penalty_events_commitment` hashes. -/
def penaltyEventsPreimage (round : U64) (events : Option ReputationPenaltyEvents) :
    Except PorError (List Byte) :=
  match events with
  | none => penaltiesPreimage hasher round [] []
  | some events =>
      if events.round ≠ round then
        .error (.invalidPenaltyEvents "event round must match the block")
      else if events.equivocations.length + events.inactivity.length > maxBlockEntries then
        .error (.invalidPenaltyEvents "too many penalty events")
      else
        penaltiesPreimage hasher round
          (events.equivocations.insertionSort fun a b => a.offender ≤ b.offender)
          (events.inactivity.insertionSort fun a b => a.offender ≤ b.offender)

theorem penaltyEventsCommitment_eq (round : U64) (events : Option ReputationPenaltyEvents) :
    penaltyEventsCommitment hasher round events =
      hasher <$> penaltyEventsPreimage hasher round events := by
  unfold penaltyEventsCommitment penaltyEventsPreimage
  cases events with
  | none => exact commitPenalties_eq hasher round [] []
  | some events =>
      simp only
      split_ifs
      · rfl
      · rfl
      · exact commitPenalties_eq hasher round _ _

/-- What `reputation_list_commitment` hashes. -/
def reputationListPreimage (list : ReputationList) : Except PorError (List Byte) := do
  validateReputationEntries list.entries
  .ok (reputationListCommitmentDomain ++ listLayout list)

theorem reputationListCommitment_eq (list : ReputationList) :
    reputationListCommitment hasher list = hasher <$> reputationListPreimage list := by
  unfold reputationListCommitment reputationListPreimage
  rw [map_bind]
  exact bind_congr fun _ => rfl

/-- What `reputation_block_hash` hashes. -/
def reputationBlockPreimage (block : ReputationBlock) : Except PorError (List Byte) := do
  validateReputationBlock hasher block
  .ok (reputationBlockCommitmentDomain block.header.version ++
    beBytes 2 block.header.version.val ++ headerLayout block.header)

theorem reputationBlockHash_eq (block : ReputationBlock) :
    reputationBlockHash hasher block = hasher <$> reputationBlockPreimage hasher block := by
  unfold reputationBlockHash reputationBlockPreimage
  rw [map_bind]
  exact bind_congr fun _ => rfl

end Hasher

/-! ### What is committed -/

/-- A rating without its signature. -/
def RatingRecord.unsigned (rating : RatingRecord) : RatingRecord := { rating with signature := [] }

/-- The fields a preimage covers, in canonical order. -/
inductive Committed where
  | rating (rating : RatingRecord)
  | checkpointRating (source : RatingSourceCheckpoint) (rating : RatingRecord)
  | ratingBatch (batch : RatingBatch)
  | checkpointRatingBatch (source : RatingSourceCheckpoint) (batch : RatingBatch)
  | penaltyEvents (round : U64) (equivocations : List (NodeId × List Byte))
      (inactivity : List (NodeId × U64))
  | reputationList (list : ReputationList)
  | config (config : PorConfig)
  | block (header : ReputationBlockHeader)
  | authorization (context : EquivocationAuthorizationContext) (offender : NodeId)
      (evidence : List Byte)
  | checkpointIntent (shardId : List Byte) (round : U64) (offender : NodeId) (evidence : List Byte)
  | checkpointCapability (context : CheckpointEquivocationAuthorizationContext) (offender : NodeId)
      (evidence : List Byte)
deriving DecidableEq

namespace Committed

/-- The domain in front. -/
def domain : Committed → PreimageDomain
  | rating _ => .rating
  | checkpointRating _ _ => .checkpointRating
  | ratingBatch _ => .ratingBatch
  | checkpointRatingBatch _ _ => .checkpointRatingBatch
  | penaltyEvents _ _ _ => .penaltyEvents
  | reputationList _ => .reputationList
  | config _ => .config
  | block header => if header.version = reputationBlockVersion then .block else .checkpointBlock
  | authorization _ _ _ => .authorization
  | checkpointIntent _ _ _ _ => .checkpointAuthorization
  | checkpointCapability _ _ _ => .checkpointAuthorization

/-- A rating for a checkpoint, as it is signed. -/
def checkpointRatingBody (source : RatingSourceCheckpoint) (rating : RatingRecord) : List Byte :=
  beBytes 8 rating.round.val ++ (sourceFields source ++ ratingFields rating)

/-- The intent of a checkpoint authorization. -/
def intentBody (shardId : List Byte) (round : U64) (offender : NodeId) (evidence : List Byte) :
    List Byte :=
  putBytes shardId ++ (beBytes 8 round.val ++ (putBytes offender.bytes ++ putBytes evidence))

/-- What is behind the domain. -/
def body : Committed → List Byte
  | rating r => beBytes 8 r.round.val ++ ratingFields r
  | checkpointRating source r => checkpointRatingBody source r
  | ratingBatch batch =>
      beBytes 8 batch.round.val ++ (beBytes 8 batch.ratings.length ++
        batch.ratings.flatMap fun rating =>
          putBytes (canonicalRatingPayload rating) ++ putBytes rating.signature)
  | checkpointRatingBatch source batch =>
      beBytes 8 batch.round.val ++ (sourceFields source ++ (beBytes 8 batch.ratings.length ++
        batch.ratings.flatMap fun rating =>
          putBytes (checkpointRatingSigningDomain ++ checkpointRatingBody source rating) ++
            putBytes rating.signature))
  | penaltyEvents round equivocations inactivity =>
      beBytes 8 round.val ++ ((beBytes 8 equivocations.length ++ equivocations.flatMap fun event =>
          putBytes event.1.bytes ++ putBytes event.2) ++
        (beBytes 8 inactivity.length ++ inactivity.flatMap fun event =>
          putBytes event.1.bytes ++ beBytes 8 event.2.val))
  | reputationList list => listLayout list
  | config c => configLayout c
  | block header => beBytes 2 header.version.val ++ headerLayout header
  | authorization context offender evidence =>
      putBytes context.shardId ++ (beBytes 8 context.sourceFinalizedWave.val ++
        (beBytes 8 context.round.val ++ (putBytes offender.bytes ++ putBytes evidence)))
  | checkpointIntent shardId round offender evidence => intentBody shardId round offender evidence
  | checkpointCapability context offender evidence =>
      intentBody context.shardId context.source.round offender evidence ++
        sourceFields context.source

/-- What the functions have checked where one field is written for two. -/
def WellFormed : Committed → Prop
  | rating r => r.signature = []
  | checkpointRating source r => r.signature = [] ∧ r.round = source.round
  | checkpointRatingBatch source batch => batch.round = source.round
  | block header => PorReader.SourceFits header.version header.round header.sourceCheckpoint
  | _ => True

end Committed

/-! ### Fields are delimited -/

section Fields

variable {limit : ℕ}

theorem delimited_u64 : Delimited limit fun n : U64 => beBytes 8 n.val :=
  .of_decodes (@PorReader.decodes_u64 .malformedReputationBlockWire)

theorem delimited_hash : Delimited limit contentHashBytes :=
  .of_decodes (@PorReader.decodes_hash .malformedReputationBlockWire)

theorem delimited_previous : Delimited limit previousLayout :=
  .of_decodes (@PorReader.decodes_previous .malformedReputationBlockWire)

theorem delimited_bytes : Delimited (256 ^ 8) putBytes := Delimited.bytes (announces_beBytes 8)

theorem delimited_nodeId : Delimited (256 ^ 8) fun id : NodeId => putBytes id.bytes :=
  delimited_bytes.map NodeId.bytes fun a b h => by
    cases a
    cases b
    exact congrArg NodeId.mk h

/-- Length and hash of a prefix. -/
theorem delimited_sourcePosition :
    Delimited limit fun p : U64 × ContentHash => beBytes 8 p.1.val ++ contentHashBytes p.2 :=
  delimited_u64.seq delimited_hash

/-- The fields of a rating behind round and source. -/
def RatingRecord.fields (rating : RatingRecord) : NodeId × NodeId × U64 × Option (List Byte) :=
  (rating.rater, rating.recipient, rating.score, rating.interactionRef)

/-- Their layout. -/
def fieldsLayout (t : NodeId × NodeId × U64 × Option (List Byte)) : List Byte :=
  ratingFields ⟨0, t.1, t.2.1, t.2.2.1, [], t.2.2.2⟩

theorem ratingFields_eq (rating : RatingRecord) : ratingFields rating = fieldsLayout rating.fields :=
  rfl

theorem delimited_fields : Delimited (256 ^ 8) fieldsLayout :=
  (delimited_nodeId.seq (delimited_nodeId.seq (delimited_u64.seq
    (delimited_bytes.option (show (0 : Byte) ≠ 1 by decide))))).regroup fun t => by
      obtain ⟨rater, recipient, score, ref⟩ := t
      cases ref <;> simp only [fieldsLayout, ratingFields, List.append_assoc]

/-- A signed rating in a batch: payload and signature, each behind its length. -/
theorem delimited_signed (front middle : List Byte) :
    Delimited (256 ^ 8) fun rating : RatingRecord =>
      putBytes (front ++ (beBytes 8 rating.round.val ++ (middle ++ ratingFields rating))) ++
        putBytes rating.signature := by
  have hpayload : Delimited (256 ^ 8) fun t : U64 × NodeId × NodeId × U64 × Option (List Byte) =>
      front ++ (beBytes 8 t.1.val ++ (middle ++ fieldsLayout t.2)) :=
    (delimited_u64.seq (delimited_fields.behind middle)).behind front
  have hsigned := (Delimited.nested (announces_beBytes 8) hpayload.inj).seq delimited_bytes
  refine hsigned.map (fun rating : RatingRecord =>
    ((rating.round, rating.fields), rating.signature)) fun a b h => ?_
  cases a
  cases b
  simp only [RatingRecord.fields, Prod.mk.injEq] at h
  simp [h]

theorem delimited_signed_pos (payload : RatingRecord → List Byte) (rating : RatingRecord) :
    0 < (putBytes (payload rating) ++ putBytes rating.signature).length := by
  unfold putBytes
  simp only [List.length_append, Codec.length_beBytes]
  omega

/-- Round and source, the ratings behind their number. -/
theorem delimited_ratings (front middle : List Byte) :
    Delimited (256 ^ 8) fun ratings : List RatingRecord =>
      beBytes 8 ratings.length ++ ratings.flatMap fun rating =>
        putBytes (front ++ (beBytes 8 rating.round.val ++ (middle ++ ratingFields rating))) ++
          putBytes rating.signature :=
  (delimited_signed front middle).counted (announces_beBytes 8)
    (delimited_signed_pos fun rating =>
      front ++ (beBytes 8 rating.round.val ++ (middle ++ ratingFields rating)))

theorem delimited_list : Delimited (256 ^ 8) listLayout := by
  have hentry : Delimited (256 ^ 8) entryLayout := by
    have hfields := delimited_nodeId.seq (delimited_u64.seq ((Delimited.item
      (fun b : Bool => if b then (1 : Byte) else 0) (by decide)).seq delimited_u64))
    refine (hfields.map (fun e : ReputationEntry =>
      (e.nodeId, e.reputation, e.isExcluded, e.retainedReputation)) fun a b h => ?_).regroup
        fun e => by simp only [entryLayout, List.append_assoc]
    cases a
    cases b
    simp only [Prod.mk.injEq] at h
    simp [h]
  have hpos : ∀ e : ReputationEntry, 0 < (entryLayout e).length := by
    intro e
    unfold entryLayout putBytes
    simp only [List.length_append, Codec.length_beBytes]
    omega
  refine ((delimited_u64.seq (hentry.counted (announces_beBytes 8) hpos)).map
    (fun l : ReputationList => (l.round, l.entries)) fun a b h => ?_).regroup
      fun l => by simp only [listLayout, List.append_assoc]
  cases a
  cases b
  simp only [Prod.mk.injEq] at h
  simp [h]

theorem delimited_config : Delimited (256 ^ 8) configLayout := by
  have htag : Function.Injective MissingEntryPolicy.tag := by
    intro a b h
    cases a <;> cases b <;> first | rfl | exact absurd h (by decide)
  have hfields : Delimited (256 ^ 8) _ :=
    delimited_u64.seq (delimited_u64.seq (delimited_u64.seq (delimited_u64.seq (delimited_u64.seq
      ((Delimited.item MissingEntryPolicy.tag htag).seq (delimited_u64.seq
        (delimited_u64.seq delimited_u64)))))))
  refine hfields.map (fun c : PorConfig => (c.scale, c.initialReputation, c.liquidRankAlpha,
    c.minimumRating, c.maximumRating, c.missingEntryPolicy, c.correlationThreshold,
    c.baseSlashPenalty, c.inactivityDecayGamma)) fun a b h => ?_
  cases a
  cases b
  simp only [Prod.mk.injEq] at h
  simp [h]

/-- **A header is determined by its bytes**, once its version is known. -/
theorem headerLayout_inj {a b : ReputationBlockHeader} (hversion : a.version = b.version)
    (ha : PorReader.SourceFits a.version a.round a.sourceCheckpoint)
    (hb : PorReader.SourceFits b.version b.round b.sourceCheckpoint)
    (hlen : (headerLayout a).length < 256 ^ 8) (heq : headerLayout a = headerLayout b) : a = b := by
  have htail : Delimited (256 ^ 8) _ :=
    delimited_previous.seq (delimited_hash.seq (delimited_hash.seq (delimited_hash.seq
      delimited_hash)))
  have hwave := delimited_bytes.seq (delimited_u64.seq (delimited_u64.seq htail))
  have hcheckpoint := delimited_bytes.seq (delimited_u64.seq (delimited_u64.seq
    (delimited_sourcePosition.seq htail)))
  have hne : reputationBlockVersion ≠ checkpointReputationBlockVersion := by decide
  obtain ⟨va, sa, wa, ca, ra, pa, cfa, rta, pea, roa⟩ := a
  obtain ⟨vb, sb, wb, cb, rb, pb, cfb, rtb, peb, rob⟩ := b
  dsimp only at hversion ha hb
  subst hversion
  rcases ha with ⟨hv, rfl⟩ | ⟨hv, source, rfl, rfl⟩
  · rcases hb with ⟨-, rfl⟩ | ⟨hv', -⟩
    · simp only [headerLayout, sourceLayout, List.append_nil, List.append_assoc] at hlen heq
      have h := hwave.inj (sa, wa, ra, pa, cfa, rta, pea, roa) (sb, wb, rb, pb, cfb, rtb, peb, rob)
        hlen heq
      simp only [Prod.mk.injEq] at h
      simp [h]
    · exact absurd (hv.symm.trans hv') hne
  · rcases hb with ⟨hv', -⟩ | ⟨-, source', rfl, rfl⟩
    · exact absurd (hv'.symm.trans hv) hne
    · simp only [headerLayout, sourceLayout, sourceFields, List.append_assoc] at hlen heq
      have h := hcheckpoint.inj
        (sa, wa, source.round, (source.finalizedPrefixLen, source.finalizedPrefixHash),
          pa, cfa, rta, pea, roa)
        (sb, wb, source'.round, (source'.finalizedPrefixLen, source'.finalizedPrefixHash),
          pb, cfb, rtb, peb, rob)
        (by simpa only [List.append_assoc] using hlen) (by simpa only [List.append_assoc] using heq)
      simp only [Prod.mk.injEq] at h
      obtain ⟨rfl, rfl, hround, ⟨hprefixLen, hprefixHash⟩, rfl, rfl, rfl, rfl, rfl⟩ := h
      have hsource : source = source' := by
        cases source
        cases source'
        simp only at hround hprefixLen hprefixHash
        rw [hround, hprefixLen, hprefixHash]
      rw [hsource]

end Fields

/-! ### Bodies of two fields and more -/

namespace Committed

/-- The intent of a checkpoint authorization. -/
theorem delimited_intent :
    Delimited (256 ^ 8) fun t : List Byte × U64 × NodeId × List Byte =>
      intentBody t.1 t.2.1 t.2.2.1 t.2.2.2 :=
  delimited_bytes.seq (delimited_u64.seq (delimited_nodeId.seq delimited_bytes))

theorem checkpointRatingBody_inj {s s' : RatingSourceCheckpoint} {r r' : RatingRecord}
    (hr : r.round = s.round) (hr' : r'.round = s'.round)
    (hlen : (checkpointRatingBody s r).length < 256 ^ 8)
    (heq : checkpointRatingBody s r = checkpointRatingBody s' r') :
    s = s' ∧ r.round = r'.round ∧ r.fields = r'.fields := by
  have h := (delimited_u64.seq (delimited_sourcePosition.seq delimited_fields)).inj
    (r.round, (s.finalizedPrefixLen, s.finalizedPrefixHash), r.fields)
    (r'.round, (s'.finalizedPrefixLen, s'.finalizedPrefixHash), r'.fields) hlen heq
  simp only [Prod.mk.injEq] at h
  obtain ⟨hround, ⟨hprefixLen, hprefixHash⟩, hfields⟩ := h
  refine ⟨?_, hround, hfields⟩
  cases s
  cases s'
  simp only at hr hr' hprefixLen hprefixHash
  rw [hprefixLen, hprefixHash, ← hr, ← hr', hround]

/-- Ratings without signatures are equal if round and fields are. -/
theorem rating_ext {r r' : RatingRecord} (hround : r.round = r'.round) (hfields : r.fields = r'.fields)
    (hsignature : r.signature = r'.signature) : r = r' := by
  cases r
  cases r'
  simp only [RatingRecord.fields, Prod.mk.injEq] at hround hfields hsignature
  simp [hround, hfields, hsignature]

end Committed

end CordialMiners.Reputation
