/-
# Preimages determine what they commit to

Behind its domain a preimage is delimited, so well-formed values of one kind have
one body each (`Committed.body_inj`).  `Preimaged` collects the arguments of the
functions that build preimages; each function lays out the committed fields of its
arguments (`Preimaged.preimage_eq`), which are therefore a function of the bytes
(`preimage_injective`).
-/

import CordialMiners.Reputation.Preimages

namespace CordialMiners.Reputation

open Codec (beBytes Delimited announces_beBytes append_inj_of_domains bind_eq_ok
  check_eq_ok guard_eq_ok mapM_eq_ok)

namespace Committed

/-! ### One body for each value -/

theorem domain_block (header : ReputationBlockHeader) :
    (block header).domain =
      if header.version = reputationBlockVersion then .block else .checkpointBlock := rfl

/-- The domain of a block is that of its version. -/
theorem bytes_domain_block {header : ReputationBlockHeader} (h : (block header).WellFormed) :
    (block header).domain.bytes = reputationBlockCommitmentDomain header.version := by
  rw [domain_block]
  rcases h with ⟨hversion, -⟩ | ⟨hversion, -⟩ <;> rw [hversion] <;> rfl

/-- Only blocks are behind the domains of blocks. -/
theorem block_of_domain {c : Committed} {header : ReputationBlockHeader}
    (h : c.domain = (block header).domain) : ∃ header', c = block header' := by
  rw [domain_block] at h
  cases c with
  | block header' => exact ⟨header', rfl⟩
  | _ => split_ifs at h <;> cases h

/-- Blocks behind one domain have one version. -/
theorem version_eq_of_domain {a b : ReputationBlockHeader} (ha : (block a).WellFormed)
    (hb : (block b).WellFormed) (hdomain : (block a).domain = (block b).domain) :
    a.version = b.version := by
  have hne : ¬checkpointReputationBlockVersion = reputationBlockVersion := by decide
  rw [domain_block, domain_block] at hdomain
  rcases ha with ⟨ha, -⟩ | ⟨ha, -⟩ <;> rcases hb with ⟨hb, -⟩ | ⟨hb, -⟩
  · rw [ha, hb]
  · rw [ha, hb, if_pos rfl, if_neg hne] at hdomain
    cases hdomain
  · rw [ha, hb, if_pos rfl, if_neg hne] at hdomain
    cases hdomain
  · rw [ha, hb]

theorem rating_body_inj {r r' : RatingRecord} (hr : r.signature = []) (hr' : r'.signature = [])
    (hlen : (rating r).body.length < 256 ^ 8) (heq : (rating r).body = (rating r').body) :
    r = r' := by
  have h := (delimited_u64.seq delimited_fields).inj (r.round, r.fields) (r'.round, r'.fields)
    hlen heq
  rw [Prod.mk.injEq] at h
  exact rating_ext h.1 h.2 (hr.trans hr'.symm)

/-- Ratings behind their number, with the payload of the wave. -/
theorem delimited_waveRatings :
    Delimited (256 ^ 8) fun ratings : List RatingRecord =>
      beBytes 8 ratings.length ++ ratings.flatMap fun rating =>
        putBytes (canonicalRatingPayload rating) ++ putBytes rating.signature :=
  (delimited_ratings ratingSigningDomain []).regroup fun ratings => by
    simp only [canonicalRatingPayload, List.nil_append, List.append_assoc]

/-- Ratings behind their number, with the payload of a checkpoint. -/
theorem delimited_checkpointRatings (source : RatingSourceCheckpoint) :
    Delimited (256 ^ 8) fun ratings : List RatingRecord =>
      beBytes 8 ratings.length ++ ratings.flatMap fun rating =>
        putBytes (checkpointRatingSigningDomain ++ checkpointRatingBody source rating) ++
          putBytes rating.signature :=
  delimited_ratings checkpointRatingSigningDomain (sourceFields source)

theorem ratingBatch_body_inj {b b' : RatingBatch} (hlen : (ratingBatch b).body.length < 256 ^ 8)
    (heq : (ratingBatch b).body = (ratingBatch b').body) : b = b' := by
  have h := (delimited_u64.seq delimited_waveRatings).inj (b.round, b.ratings)
    (b'.round, b'.ratings) hlen heq
  cases b
  cases b'
  simp only [Prod.mk.injEq] at h
  rw [h.1, h.2]

theorem checkpointRatingBatch_body_inj {s s' : RatingSourceCheckpoint} {b b' : RatingBatch}
    (hb : b.round = s.round) (hb' : b'.round = s'.round)
    (hlen : (checkpointRatingBatch s b).body.length < 256 ^ 8)
    (heq : (checkpointRatingBatch s b).body = (checkpointRatingBatch s' b').body) :
    s = s' ∧ b = b' := by
  -- round and prefix come first, and with them the source the ratings are signed for
  obtain ⟨hhead, hrest⟩ := delimited_u64.seq delimited_sourcePosition
    (b.round, (s.finalizedPrefixLen, s.finalizedPrefixHash))
    (b'.round, (s'.finalizedPrefixLen, s'.finalizedPrefixHash)) _ _
    (by simpa only [body, sourceFields, List.append_assoc] using hlen)
    (by simpa only [body, sourceFields, List.append_assoc] using heq)
  simp only [Prod.mk.injEq] at hhead
  obtain ⟨hround, hprefixLen, hprefixHash⟩ := hhead
  obtain rfl : s = s' := by
    cases s
    cases s'
    simp only at hb hb' hprefixLen hprefixHash
    rw [hprefixLen, hprefixHash, ← hb, ← hb', hround]
  have hratings := (delimited_checkpointRatings s).inj b.ratings b'.ratings ?_ hrest
  · cases b
    cases b'
    simp only at hround hratings
    rw [hround, hratings]
    exact ⟨rfl, rfl⟩
  · simp only [body, List.length_append] at hlen ⊢
    omega

/-- Offenders with their evidence, behind their number. -/
theorem delimited_equivocations :
    Delimited (256 ^ 8) fun events : List (NodeId × List Byte) =>
      beBytes 8 events.length ++ events.flatMap fun event =>
        putBytes event.1.bytes ++ putBytes event.2 :=
  (delimited_nodeId.seq delimited_bytes).counted (announces_beBytes 8) fun event => by
    unfold putBytes
    simp only [List.length_append, Codec.length_beBytes]
    omega

/-- Offenders with their missed rounds, behind their number. -/
theorem delimited_inactivity :
    Delimited (256 ^ 8) fun events : List (NodeId × U64) =>
      beBytes 8 events.length ++ events.flatMap fun event =>
        putBytes event.1.bytes ++ beBytes 8 event.2.val :=
  (delimited_nodeId.seq delimited_u64).counted (announces_beBytes 8) fun event => by
    simp only [List.length_append, Codec.length_beBytes]
    omega

/-- Fields behind the wave of an authorization. -/
theorem delimited_authorization :
    Delimited (256 ^ 8) fun t : List Byte × U64 × U64 × NodeId × List Byte =>
      putBytes t.1 ++ (beBytes 8 t.2.1.val ++ (beBytes 8 t.2.2.1.val ++
        (putBytes t.2.2.2.1.bytes ++ putBytes t.2.2.2.2))) :=
  delimited_bytes.seq (delimited_u64.seq (delimited_u64.seq (delimited_nodeId.seq delimited_bytes)))

/-- The capability goes on where the intent ends. -/
theorem intentBody_ne_capability {shardId shardId' : List Byte} {round round' : U64}
    {offender offender' : NodeId} {evidence evidence' : List Byte} {source : RatingSourceCheckpoint}
    (hlen : (intentBody shardId round offender evidence).length < 256 ^ 8) :
    intentBody shardId round offender evidence ≠
      intentBody shardId' round' offender' evidence' ++ sourceFields source := by
  intro heq
  obtain ⟨-, hrest⟩ := delimited_intent (shardId, round, offender, evidence)
    (shardId', round', offender', evidence') [] (sourceFields source)
    (by rwa [List.append_nil]) (by rwa [List.append_nil])
  have hpos : 0 < (sourceFields source).length := by
    unfold sourceFields
    rw [List.length_append, Codec.length_beBytes]
    omega
  rw [← hrest] at hpos
  exact absurd hpos (lt_irrefl 0)

theorem block_body_inj {a b : ReputationBlockHeader} (ha : (block a).WellFormed)
    (hb : (block b).WellFormed) (hdomain : (block a).domain = (block b).domain)
    (hlen : (block a).body.length < 256 ^ 8) (heq : (block a).body = (block b).body) : a = b := by
  have hversion := version_eq_of_domain ha hb hdomain
  simp only [body, hversion, List.append_cancel_left_eq] at heq
  have hsize : (headerLayout a).length < 256 ^ 8 := by
    simp only [body, List.length_append] at hlen
    omega
  exact headerLayout_inj hversion ha hb hsize heq

theorem authorization_body_inj {c c' : EquivocationAuthorizationContext} {offender offender' : NodeId}
    {evidence evidence' : List Byte} (hlen : (authorization c offender evidence).body.length < 256 ^ 8)
    (heq : (authorization c offender evidence).body = (authorization c' offender' evidence').body) :
    c = c' ∧ offender = offender' ∧ evidence = evidence' := by
  have h := delimited_authorization.inj
    (c.shardId, c.sourceFinalizedWave, c.round, offender, evidence)
    (c'.shardId, c'.sourceFinalizedWave, c'.round, offender', evidence') hlen heq
  cases c
  cases c'
  simp only [Prod.mk.injEq] at h
  obtain ⟨rfl, rfl, rfl, rfl, rfl⟩ := h
  exact ⟨rfl, rfl, rfl⟩

theorem checkpointCapability_body_inj {c c' : CheckpointEquivocationAuthorizationContext}
    {offender offender' : NodeId} {evidence evidence' : List Byte}
    (hlen : (checkpointCapability c offender evidence).body.length < 256 ^ 8)
    (heq : (checkpointCapability c offender evidence).body =
      (checkpointCapability c' offender' evidence').body) :
    c = c' ∧ offender = offender' ∧ evidence = evidence' := by
  have h := (delimited_intent.seq delimited_sourcePosition).inj
    ((c.shardId, c.source.round, offender, evidence),
      (c.source.finalizedPrefixLen, c.source.finalizedPrefixHash))
    ((c'.shardId, c'.source.round, offender', evidence'),
      (c'.source.finalizedPrefixLen, c'.source.finalizedPrefixHash)) hlen heq
  obtain ⟨shardId, source⟩ := c
  obtain ⟨shardId', source'⟩ := c'
  cases source
  cases source'
  simp only [Prod.mk.injEq] at h
  obtain ⟨⟨rfl, rfl, rfl, rfl⟩, rfl, rfl⟩ := h
  exact ⟨rfl, rfl, rfl⟩

/-- **Behind one domain, well-formed values have different bodies.** -/
theorem body_inj {a b : Committed} (ha : a.WellFormed) (hb : b.WellFormed)
    (hdomain : a.domain = b.domain) (hlen : a.body.length < 256 ^ 8) (heq : a.body = b.body) :
    a = b := by
  by_cases hblock : ∃ header, b = block header
  · obtain ⟨header', rfl⟩ := hblock
    obtain ⟨header, rfl⟩ := block_of_domain hdomain
    rw [block_body_inj ha hb hdomain hlen heq]
  -- the other domains have one kind each, but for the two of a checkpoint authorization
  cases a with
  | block header => exact absurd (block_of_domain hdomain.symm) hblock
  | rating r =>
      cases b with
      | rating r' => rw [rating_body_inj ha hb hlen heq]
      | _ => first | cases hdomain | exact absurd ⟨_, rfl⟩ hblock
  | checkpointRating source r =>
      cases b with
      | checkpointRating source' r' =>
          obtain ⟨rfl, hround, hfields⟩ := checkpointRatingBody_inj ha.2 hb.2 hlen heq
          rw [rating_ext hround hfields (ha.1.trans hb.1.symm)]
      | _ => first | cases hdomain | exact absurd ⟨_, rfl⟩ hblock
  | ratingBatch batch =>
      cases b with
      | ratingBatch batch' => rw [ratingBatch_body_inj hlen heq]
      | _ => first | cases hdomain | exact absurd ⟨_, rfl⟩ hblock
  | checkpointRatingBatch source batch =>
      cases b with
      | checkpointRatingBatch source' batch' =>
          obtain ⟨rfl, rfl⟩ := checkpointRatingBatch_body_inj ha hb hlen heq
          rfl
      | _ => first | cases hdomain | exact absurd ⟨_, rfl⟩ hblock
  | penaltyEvents round equivocations inactivity =>
      cases b with
      | penaltyEvents round' equivocations' inactivity' =>
          have h := (delimited_u64.seq (delimited_equivocations.seq delimited_inactivity)).inj
            (round, equivocations, inactivity) (round', equivocations', inactivity') hlen heq
          simp only [Prod.mk.injEq] at h
          rw [h.1, h.2.1, h.2.2]
      | _ => first | cases hdomain | exact absurd ⟨_, rfl⟩ hblock
  | reputationList list =>
      cases b with
      | reputationList list' => rw [delimited_list.inj list list' hlen heq]
      | _ => first | cases hdomain | exact absurd ⟨_, rfl⟩ hblock
  | config c =>
      cases b with
      | config c' => rw [delimited_config.inj c c' hlen heq]
      | _ => first | cases hdomain | exact absurd ⟨_, rfl⟩ hblock
  | authorization context offender evidence =>
      cases b with
      | authorization context' offender' evidence' =>
          obtain ⟨rfl, rfl, rfl⟩ := authorization_body_inj hlen heq
          rfl
      | _ => first | cases hdomain | exact absurd ⟨_, rfl⟩ hblock
  | checkpointIntent shardId round offender evidence =>
      cases b with
      | checkpointIntent shardId' round' offender' evidence' =>
          have h := delimited_intent.inj (shardId, round, offender, evidence)
            (shardId', round', offender', evidence') hlen heq
          simp only [Prod.mk.injEq] at h
          obtain ⟨rfl, rfl, rfl, rfl⟩ := h
          rfl
      | checkpointCapability context' offender' evidence' =>
          exact absurd heq (intentBody_ne_capability hlen)
      | _ => first | cases hdomain | exact absurd ⟨_, rfl⟩ hblock
  | checkpointCapability context offender evidence =>
      cases b with
      | checkpointIntent shardId' round' offender' evidence' =>
          rw [heq] at hlen
          exact absurd heq.symm (intentBody_ne_capability hlen)
      | checkpointCapability context' offender' evidence' =>
          obtain ⟨rfl, rfl, rfl⟩ := checkpointCapability_body_inj hlen heq
          rfl
      | _ => first | cases hdomain | exact absurd ⟨_, rfl⟩ hblock

end Committed

/-! ### The functions -/

/-- The arguments of a function that builds a preimage. -/
inductive Preimaged where
  | rating (rating : RatingRecord)
  | checkpointRating (rating : RatingRecord) (source : RatingSourceCheckpoint)
  | ratingBatch (batch : RatingBatch) (config : PorConfig)
  | checkpointRatingBatch (batch : RatingBatch) (source : RatingSourceCheckpoint)
      (config : PorConfig)
  | penaltyEvents (round : U64) (events : Option ReputationPenaltyEvents)
  | reputationList (list : ReputationList)
  | config (config : PorConfig)
  | block (block : ReputationBlock)
  | authorization (context : EquivocationAuthorizationContext) (offender : NodeId)
      (evidence : List Byte)
  | checkpointIntent (shardId : List Byte) (round : U64) (offender : NodeId) (evidence : List Byte)
  | checkpointCapability (context : CheckpointEquivocationAuthorizationContext) (offender : NodeId)
      (evidence : List Byte)

/-- Events sorted by offender, as they are committed to. -/
def sortedEquivocations (events : Option ReputationPenaltyEvents) : List EquivocationPenalty :=
  match events with
  | none => []
  | some events => events.equivocations.insertionSort fun a b => a.offender ≤ b.offender

/-- Missed rounds sorted by offender. -/
def sortedInactivity (events : Option ReputationPenaltyEvents) : List InactivityPenalty :=
  match events with
  | none => []
  | some events => events.inactivity.insertionSort fun a b => a.offender ≤ b.offender

namespace Preimaged

/-- What is hashed or signed, or the error of the function. -/
def preimage (hasher : List Byte → ContentHash) : Preimaged → Except PorError (List Byte)
  | rating r => .ok (canonicalRatingPayload r)
  | checkpointRating r source => canonicalCheckpointRatingPayload r source
  | ratingBatch batch parameters => ratingBatchPreimage batch parameters
  | checkpointRatingBatch batch source parameters =>
      checkpointRatingBatchPreimage batch source parameters
  | penaltyEvents round events => penaltyEventsPreimage hasher round events
  | reputationList list => reputationListPreimage list
  | config c => .ok (configPreimage c)
  | block b => reputationBlockPreimage hasher b
  | authorization context offender evidence => authorizationPayload context offender evidence
  | checkpointIntent shardId round offender evidence =>
      checkpointIntentPayload shardId round offender evidence
  | checkpointCapability context offender evidence =>
      checkpointCapabilityPayload context offender evidence

/-- The committed fields: ratings and events in canonical order, no signature under
itself, the header of a block. -/
def committed : Preimaged → Committed
  | rating r => .rating r.unsigned
  | checkpointRating r source => .checkpointRating source r.unsigned
  | ratingBatch batch _ => .ratingBatch ⟨batch.round, sortRatings batch.ratings⟩
  | checkpointRatingBatch batch source _ =>
      .checkpointRatingBatch source ⟨batch.round, sortRatings batch.ratings⟩
  | penaltyEvents round events =>
      .penaltyEvents round
        ((sortedEquivocations events).map fun event => (event.offender, event.evidence))
        ((sortedInactivity events).map fun event => (event.offender, event.missedRounds))
  | reputationList list => .reputationList list
  | config c => .config c
  | block b => .block b.header
  | authorization context offender evidence => .authorization context offender evidence
  | checkpointIntent shardId round offender evidence =>
      .checkpointIntent shardId round offender evidence
  | checkpointCapability context offender evidence =>
      .checkpointCapability context offender evidence

end Preimaged

/-! ### What the functions lay out -/

section Layouts

variable {hasher : List Byte → ContentHash} {bytes : List Byte}

theorem canonicalCheckpointRatingPayload_eq {r : RatingRecord} {source : RatingSourceCheckpoint}
    (h : canonicalCheckpointRatingPayload r source = .ok bytes) :
    r.round = source.round ∧
      bytes = checkpointRatingSigningDomain ++ Committed.checkpointRatingBody source r := by
  obtain ⟨hround, h⟩ := guard_eq_ok.1 h
  obtain ⟨-, h⟩ := check_eq_ok.1 h
  obtain rfl := Except.ok.inj h
  rw [not_not] at hround
  refine ⟨hround, ?_⟩
  simp only [Committed.checkpointRatingBody, hround, List.append_assoc]

/-- A batch has its ratings in canonical order. -/
theorem eq_of_buildRatingBatch {round : U64} {ratings : List RatingRecord} {config : PorConfig}
    {batch : RatingBatch} (h : buildRatingBatch round ratings config = .ok batch) :
    batch = ⟨round, sortRatings ratings⟩ := by
  obtain ⟨-, h⟩ := check_eq_ok.1 h
  obtain ⟨-, h⟩ := guard_eq_ok.1 h
  exact (Except.ok.inj h).symm

theorem ratingBatchPreimage_eq {batch : RatingBatch} {config : PorConfig}
    (h : ratingBatchPreimage batch config = .ok bytes) :
    bytes = ratingBatchCommitmentDomain ++
      (Committed.ratingBatch ⟨batch.round, sortRatings batch.ratings⟩).body := by
  obtain ⟨canonical, hcanonical, h⟩ := bind_eq_ok.1 h
  obtain rfl := eq_of_buildRatingBatch hcanonical
  obtain rfl := Except.ok.inj h
  simp only [Committed.body, List.append_assoc]

/-- The signed ratings of a checkpoint, one after the other. -/
theorem flatten_checkpointRatings {ratings : List RatingRecord} {source : RatingSourceCheckpoint}
    {out : List (List Byte)}
    (h : (ratings.mapM fun rating => do
      let payload ← canonicalCheckpointRatingPayload rating source
      .ok (putBytes payload ++ putBytes rating.signature)) = .ok out) :
    out.flatten = ratings.flatMap fun rating =>
      putBytes (checkpointRatingSigningDomain ++ Committed.checkpointRatingBody source rating) ++
        putBytes rating.signature := by
  have hall := mapM_eq_ok.1 h
  induction hall with
  | nil => rfl
  | cons hrating hrest ih =>
      obtain ⟨payload, hpayload, hout⟩ := bind_eq_ok.1 hrating
      obtain ⟨-, rfl⟩ := canonicalCheckpointRatingPayload_eq hpayload
      obtain rfl := Except.ok.inj hout
      rw [List.flatten_cons, List.flatMap_cons, ih (mapM_eq_ok.2 hrest)]

theorem checkpointRatingBatchPreimage_eq {batch : RatingBatch} {source : RatingSourceCheckpoint}
    {config : PorConfig} (h : checkpointRatingBatchPreimage batch source config = .ok bytes) :
    batch.round = source.round ∧ bytes = checkpointRatingBatchCommitmentDomain ++
      (Committed.checkpointRatingBatch source ⟨batch.round, sortRatings batch.ratings⟩).body := by
  obtain ⟨canonical, hcanonical, h⟩ := bind_eq_ok.1 h
  obtain rfl := eq_of_buildRatingBatch hcanonical
  obtain ⟨hround, h⟩ := guard_eq_ok.1 h
  obtain ⟨-, h⟩ := check_eq_ok.1 h
  obtain ⟨out, hout, h⟩ := bind_eq_ok.1 h
  obtain rfl := Except.ok.inj h
  refine ⟨not_not.1 hround, ?_⟩
  simp only [Committed.body, flatten_checkpointRatings hout, List.append_assoc]

/-- What a loop over events appends. -/
theorem payload_foldlM {α : Type} {step : PenaltyPayload → α → Except PorError PenaltyPayload}
    {layout : α → List Byte} {events : List α} {start out : PenaltyPayload}
    (h : events.foldlM step start = .ok out)
    (hstep : ∀ state out event, step state event = .ok out →
      out.payload = state.payload ++ layout event) :
    out.payload = start.payload ++ events.flatMap layout := by
  induction events generalizing start with
  | nil =>
      obtain rfl := Except.ok.inj h
      rw [List.flatMap_nil, List.append_nil]
  | cons event events ih =>
      rw [List.foldlM_cons] at h
      obtain ⟨mid, hmid, h⟩ := bind_eq_ok.1 h
      rw [ih h, hstep start mid event hmid, List.flatMap_cons, List.append_assoc]

theorem payload_putEquivocation {round : U64} {state out : PenaltyPayload}
    {event : EquivocationPenalty} (h : state.putEquivocation hasher round event = .ok out) :
    out.payload = state.payload ++ (putBytes event.offender.bytes ++ putBytes event.evidence) := by
  obtain ⟨-, h⟩ := check_eq_ok.1 h
  obtain ⟨-, h⟩ := guard_eq_ok.1 h
  obtain ⟨-, h⟩ := guard_eq_ok.1 h
  obtain rfl := Except.ok.inj h
  rfl

theorem payload_putInactivity {state out : PenaltyPayload} {event : InactivityPenalty}
    (h : state.putInactivity event = .ok out) :
    out.payload = state.payload ++
      (putBytes event.offender.bytes ++ beBytes 8 event.missedRounds.val) := by
  obtain ⟨-, h⟩ := guard_eq_ok.1 h
  obtain ⟨-, h⟩ := guard_eq_ok.1 h
  obtain rfl := Except.ok.inj h
  rfl

theorem penaltiesPreimage_eq {round : U64} {equivocations : List EquivocationPenalty}
    {inactivity : List InactivityPenalty}
    (h : penaltiesPreimage hasher round equivocations inactivity = .ok bytes) :
    bytes = penaltyEventsCommitmentDomain ++ (Committed.penaltyEvents round
      (equivocations.map fun event => (event.offender, event.evidence))
      (inactivity.map fun event => (event.offender, event.missedRounds))).body := by
  obtain ⟨state, hstate, h⟩ := bind_eq_ok.1 h
  obtain ⟨final, hfinal, h⟩ := bind_eq_ok.1 h
  obtain ⟨-, h⟩ := guard_eq_ok.1 h
  obtain rfl := Except.ok.inj h
  rw [payload_foldlM hfinal fun _ _ _ => payload_putInactivity]
  dsimp only
  rw [payload_foldlM hstate fun _ _ _ => payload_putEquivocation]
  simp only [Committed.body, List.length_map, List.flatMap_map, List.append_assoc]

theorem penaltyEventsPreimage_eq {round : U64} {events : Option ReputationPenaltyEvents}
    (h : penaltyEventsPreimage hasher round events = .ok bytes) :
    bytes = penaltyEventsCommitmentDomain ++
      (Preimaged.penaltyEvents round events).committed.body := by
  cases events with
  | none => exact penaltiesPreimage_eq h
  | some events =>
      obtain ⟨-, h⟩ := guard_eq_ok.1 h
      obtain ⟨-, h⟩ := guard_eq_ok.1 h
      exact penaltiesPreimage_eq h

theorem authorizationPayload_eq {context : EquivocationAuthorizationContext} {offender : NodeId}
    {evidence : List Byte} (h : authorizationPayload context offender evidence = .ok bytes) :
    bytes = equivocationAuthorizationDomain ++
      (Committed.authorization context offender evidence).body := by
  obtain ⟨-, h⟩ := guard_eq_ok.1 h
  obtain ⟨round, -, h⟩ := bind_eq_ok.1 h
  obtain ⟨-, h⟩ := guard_eq_ok.1 h
  obtain rfl := Except.ok.inj h
  simp only [Committed.body, List.append_assoc]

theorem checkpointIntentPayload_eq {shardId : List Byte} {round : U64} {offender : NodeId}
    {evidence : List Byte} (h : checkpointIntentPayload shardId round offender evidence = .ok bytes) :
    bytes = checkpointEquivocationAuthorizationDomain ++
      Committed.intentBody shardId round offender evidence := by
  obtain ⟨-, h⟩ := guard_eq_ok.1 h
  obtain rfl := Except.ok.inj h
  simp only [Committed.intentBody, List.append_assoc]

end Layouts

/-! ### Injectivity -/

namespace Preimaged

variable {hasher : List Byte → ContentHash} {bytes : List Byte}

/-- **Every function lays out the committed fields of its arguments behind their
domain.** -/
theorem preimage_eq {v : Preimaged} (h : v.preimage hasher = .ok bytes) :
    v.committed.WellFormed ∧ bytes = v.committed.domain.bytes ++ v.committed.body := by
  cases v with
  | rating r =>
      obtain rfl := Except.ok.inj h
      refine ⟨rfl, ?_⟩
      simp only [canonicalRatingPayload, List.append_assoc]
      rfl
  | checkpointRating r source =>
      obtain ⟨hround, rfl⟩ := canonicalCheckpointRatingPayload_eq h
      exact ⟨⟨rfl, hround⟩, rfl⟩
  | ratingBatch batch parameters => exact ⟨trivial, ratingBatchPreimage_eq h⟩
  | checkpointRatingBatch batch source parameters => exact checkpointRatingBatchPreimage_eq h
  | penaltyEvents round events => exact ⟨trivial, penaltyEventsPreimage_eq h⟩
  | reputationList list =>
      obtain ⟨-, h⟩ := check_eq_ok.1 h
      exact ⟨trivial, (Except.ok.inj h).symm⟩
  | config c => exact ⟨trivial, (Except.ok.inj h).symm⟩
  | block b =>
      obtain ⟨hvalid, h⟩ := check_eq_ok.1 h
      obtain rfl := Except.ok.inj h
      have hfits := validateReputationBlock_sourceFits hvalid
      refine ⟨hfits, ?_⟩
      show _ = (Committed.block b.header).domain.bytes ++
        (beBytes 2 b.header.version.val ++ headerLayout b.header)
      rw [Committed.bytes_domain_block hfits, List.append_assoc]
  | authorization context offender evidence => exact ⟨trivial, authorizationPayload_eq h⟩
  | checkpointIntent shardId round offender evidence =>
      exact ⟨trivial, checkpointIntentPayload_eq h⟩
  | checkpointCapability context offender evidence =>
      obtain ⟨-, h⟩ := check_eq_ok.1 h
      obtain ⟨intent, hintent, h⟩ := bind_eq_ok.1 h
      obtain rfl := Except.ok.inj h
      rw [checkpointIntentPayload_eq hintent, List.append_assoc]
      exact ⟨trivial, rfl⟩

end Preimaged

/-- **A preimage determines its kind and every committed field.**  The kinds are the
constructors of `Committed`. -/
theorem preimage_injective (hasher : List Byte → ContentHash) (v w : Preimaged)
    (bytes : List Byte) (hsize : bytes.length < 2 ^ 64) (hv : v.preimage hasher = .ok bytes)
    (hw : w.preimage hasher = .ok bytes) : v.committed = w.committed := by
  obtain ⟨hv, hbytes⟩ := Preimaged.preimage_eq hv
  obtain ⟨hw, hbytes'⟩ := Preimaged.preimage_eq hw
  obtain ⟨hdomain, hbody⟩ := append_inj_of_domains domains_apart (hbytes.symm.trans hbytes')
  refine Committed.body_inj hv hw hdomain ?_ hbody
  rw [hbytes, List.length_append] at hsize
  omega

/-- The bytes committed to where these one-byte offenders missed round `1`. -/
def missedPreimage (offenders : List Byte) : List Byte :=
  penaltyEventsCommitmentDomain ++ beBytes 8 1 ++ beBytes 8 0 ++ beBytes 8 offenders.length ++
    offenders.flatMap fun offender => putBytes [offender] ++ beBytes 8 1

/-- No events and an explicit empty set of events share a preimage, and commit to
the same; so do two events in their two orders. -/
theorem preimage_injective_missed :
    (Preimaged.penaltyEvents 1 none).committed =
        (Preimaged.penaltyEvents 1 (some ⟨1, [], []⟩)).committed ∧
      (Preimaged.penaltyEvents 1 (some ⟨1, [], [⟨⟨[1]⟩, 1⟩, ⟨⟨[2]⟩, 1⟩]⟩)).committed =
        (Preimaged.penaltyEvents 1 (some ⟨1, [], [⟨⟨[2]⟩, 1⟩, ⟨⟨[1]⟩, 1⟩]⟩)).committed :=
  ⟨preimage_injective (fun _ => 0) _ _ (missedPreimage []) (by decide +kernel) rfl rfl,
    preimage_injective (fun _ => 0) _ _ (missedPreimage [1, 2]) (by decide +kernel)
      (by decide +kernel) (by decide +kernel)⟩

end CordialMiners.Reputation
