/-
# When a round completes

A finalized block is never withdrawn, so what stops a round once stops it for good.
Most of what a Byzantine block can carry is ignored.  Two things are not:

* a payload behind the marker `PAYLOAD_V2` that cannot be read to its end stops the
  collection of carriers: such payloads fail closed;
* a claim against a member that refers to blocks the node does not have stops the
  admission: missing local data must prevent completion.

Besides these, only penalties that no commitment can hold stop a round
(`round_completes_iff`).
-/

import CordialMiners.Slashing.Admission

namespace CordialMiners

open Codec (exists_bind_eq_ok bind_eq_ok guard_eq_ok
  check_eq_ok)
open Relation

namespace Blocklace

variable {crypto : BlockCrypto} {B : Blocklace} {c : Block} {d : ℕ}

/-- In a closed blocklace a stored block whose history can be walked has a round. -/
theorem HistoryRound.exists_round (hclosed : B.isClosed = true) (h : HistoryRound crypto B c d)
    (hc : B.Stores c) : ∃ e, B.Round c.identity e := by
  induction h with
  | @intro c d rd _ _ _ _ _ ih =>
      by_cases hcp : B.checkpoint = some c.identity
      · exact ⟨_, .checkpoint hc.mem hcp⟩
      have hrefs : ∀ p ∈ c.content.predecessors, ∃ e, B.RoundOf p e := by
        intro p hp
        obtain ⟨r, hr⟩ := isClosed_iff.1 hclosed c.identity c.content hc hcp p hp
        obtain ⟨a, rfl, hparent, -⟩ := exists_parent hp hr
        obtain ⟨e, he⟩ := ih a hparent hparent.stores
        exact ⟨e, _, hr, he⟩
      obtain ⟨e, he⟩ := exists_candidateRound hrefs
      exact ⟨e, he.round hc hcp⟩

/-- A block whose history can be walked would have a round. -/
theorem HistoryRound.exists_candidateRound (hclosed : B.isClosed = true)
    (h : HistoryRound crypto B c d) (content : BlockContent)
    (hcontent : content.predecessors = c.consensusRefs) : ∃ e, B.CandidateRound content e := by
  refine Blocklace.exists_candidateRound fun q hq => ?_
  rw [hcontent] at hq
  obtain ⟨a, ha⟩ := h.named hq
  obtain ⟨e, -, he⟩ := h.parent ⟨q, hq, ha⟩
  obtain ⟨round, hround⟩ := he.exists_round hclosed (stores_of_get ha)
  exact ⟨round, _, (get_eq_some_iff.1 ha).1, hround⟩

end Blocklace

/-! ### The length of evidence -/

theorem length_flatMap_perm {α β : Type} {l l' : List α} {layout : α → List β} (h : l.Perm l') :
    (l.flatMap layout).length = (l'.flatMap layout).length := (h.flatMap_right layout).length_eq

theorem Block.length_blockLayout_canonical (b : Block) :
    (blockLayout b.canonical).length = (blockLayout b).length := by
  have hrefs : (b.canonical.content.predecessors.flatMap referenceLayout).length =
      (b.content.predecessors.flatMap referenceLayout).length := by
    rw [length_flatMap_perm (perm_canonical b), consensusRefs, refs, List.flatMap_map]
    rfl
  have hcount : b.canonical.content.predecessors.length = b.content.predecessors.length := by
    rw [(perm_canonical b).length_eq, consensusRefs, List.length_map, refs]
  have hid : b.canonical.identity = b.identity := rfl
  have hpayload : b.canonical.content.payload = b.content.payload := rfl
  unfold blockLayout
  rw [hid, hpayload]
  simp only [List.length_append, hrefs, Codec.length_beBytes]

/-- Canonical bytes are as long as the layout of the claim. -/
theorem length_canonicalBytes (evidence : VerifiedEquivocationEvidence) :
    evidence.canonicalBytes.length = (evidenceDomain ++ claimLayout evidence.asClaim).length := by
  rw [VerifiedEquivocationEvidence.canonicalBytes_eq]
  unfold claimLayout VerifiedEquivocationEvidence.canonicalClaim VerifiedEquivocationEvidence.asClaim
  simp only [List.length_append, List.length_flatMap, List.map_map, Function.comp_def,
    Block.length_blockLayout_canonical, Codec.length_beBytes]

namespace Reputation

open FinalizedCheckpointAuthorization CompletedCheckpointRatingRound

variable {env : PorEnv} {hasher : List Byte → ContentHash}
  {policy : FinalizedCheckpointAuthorization} {claim : CordialEquivocationEvidence}
  {context : CheckpointEquivocationAuthorizationContext}
  {raw : List CordialEquivocationEvidence} {shardId : List Byte}
  {carrier : PorEquivocationAuthorization}

theorem length_verifiedClaim :
    (verifiedClaim claim).canonicalBytes.length = (evidenceDomain ++ claimLayout claim).length := by
  have hperm := List.perm_insertionSort (fun left right : Block => left.identity ≤ right.identity)
    claim.blocks
  rw [length_canonicalBytes]
  unfold claimLayout VerifiedEquivocationEvidence.asClaim verifiedClaim
  simp only [List.length_append, length_flatMap_perm hperm, Codec.length_beBytes]

/-- Evidence that was read can be written again. -/
theorem intentValid_of_decode {bytes : List Byte} {round : U64}
    (h : decodeCheckpointEquivocationAuthorizationPayload bytes shardId round = .ok claim) :
    IntentValid shardId round (verifiedClaim claim).canonicalBytes := by
  obtain ⟨proof, hproof, hvalid, -, -⟩ := decodeAuthorization_eq_ok.1 h
  obtain ⟨rfl, -⟩ := decodeEquivocationEvidence_eq_ok.1 hproof
  refine ⟨hvalid.shard, hvalid.round_ne, hvalid.checkpoint, ?_, ?_⟩
  · rw [← List.length_pos_iff, length_verifiedClaim]
    exact List.length_pos_iff.2 hvalid.evidence_ne
  · rw [length_verifiedClaim]
    exact hvalid.evidence_le

/-! ### Whether a carrier is decided -/

/-- The claim of the carrier, against a member, refers to blocks that are not there. -/
def LacksHistory (env : PorEnv) (policy : FinalizedCheckpointAuthorization) (shardId : List Byte)
    (carrier : PorEquivocationAuthorization) : Prop :=
  ∃ claim, decodeCheckpointEquivocationAuthorizationPayload carrier.message shardId
      policy.checkpoint.porRound = .ok claim ∧
    policy.eligibleOffender claim.validator = true ∧
    verifyEquivocationEvidence env.crypto claim policy.blocklace = .error .missingHistory

section Decided

variable (hclosed : policy.blocklace.isClosed = true)
  (hwindow : ValidWindow env.hasher policy.blocklace policy.output policy.checkpoint)
  (hread : ∀ id ∈ windowBlocks policy.output policy.checkpoint, ∃ block carriers,
    policy.blocklace.get id = some block ∧ blockCarriers env block = .ok carriers)

include hclosed

/-- Depths of verified evidence are known. -/
theorem exists_tooNew {proof : VerifiedEquivocationEvidence}
    (hhistory : ∀ b ∈ proof.blocks, ∃ d, Blocklace.HistoryRound env.crypto policy.blocklace b d)
    (depth : ℕ) : ∀ b ∈ proof.blocks, ∃ newer, policy.tooNew depth b = .ok newer := by
  intro b hb
  obtain ⟨d, hd⟩ := hhistory b hb
  obtain ⟨e, he⟩ := hd.exists_candidateRound hclosed (strippedContent b) rfl
  exact ⟨_, bind_eq_ok.2
    ⟨e, okOr_eq_ok.2 (Blocklace.candidateDepth_eq_some_iff.2 he), rfl⟩⟩

include hwindow hread

/-- Whether a valid window publishes verified evidence is decided. -/
theorem exists_isAuthorized {proof : VerifiedEquivocationEvidence}
    (hintent : IntentValid shardId policy.checkpoint.porRound proof.canonicalBytes)
    (hhistory : ∀ b ∈ proof.blocks, ∃ d, Blocklace.HistoryRound env.crypto policy.blocklace b d) :
    ∃ found, policy.isAuthorized env ⟨shardId, policy.checkpoint.ratingSource⟩ proof = .ok found := by
  unfold isAuthorized
  rw [if_neg (by simp)]
  split_ifs with heligible
  · exact ⟨false, rfl⟩
  have hpublishes : ∀ id ∈ windowBlocks policy.output policy.checkpoint, ∃ found,
      policy.publishes env ⟨shardId, policy.checkpoint.ratingSource⟩ proof
        (intentLayout shardId policy.checkpoint.porRound proof.validator proof.canonicalBytes) id =
          .ok found := by
    intro id hid
    obtain ⟨block, carriers, hget, hcarriers⟩ := hread id hid
    obtain ⟨d, r, hr, hd⟩ := hwindow.stored id hid
    obtain rfl : block.identity = r :=
      Option.some.inj ((Blocklace.get_eq_some_iff.1 hget).1.symm.trans hr)
    obtain ⟨newer, hnewer⟩ := Codec.exists_anyM_eq_ok (exists_tooNew hclosed hhistory d)
    refine exists_bind_eq_ok (okOr_eq_ok.2 hget) (exists_bind_eq_ok hcarriers ?_)
    split_ifs
    · exact ⟨false, rfl⟩
    · exact exists_bind_eq_ok (okOr_eq_ok.2 hd.depth) (exists_bind_eq_ok hnewer ⟨!newer, rfl⟩)
    · exact ⟨false, rfl⟩
  exact exists_bind_eq_ok (checkpointIntentPayload_eq_ok.2 ⟨hintent, rfl⟩)
    (exists_bind_eq_ok (window_eq_ok.2 ⟨hwindow, rfl⟩) (Codec.exists_anyM_eq_ok hpublishes))

/-- **Which carriers are decided:** all but those whose claim against an eligible
offender lacks its history. -/
theorem exists_extractValidClaim_iff (hshard : carrier.shardId = shardId)
    (hwave : carrier.sourceFinalizedWave = 0)
    (hround : carrier.round = policy.checkpoint.porRound.val) :
    (∃ found, policy.extractValidClaim env carrier shardId = .ok found) ↔
      ¬ LacksHistory env policy shardId carrier := by
  unfold extractValidClaim LacksHistory
  rw [if_neg (by simp [hshard, hwave, hround])]
  cases hdecode : decodeCheckpointEquivocationAuthorizationPayload carrier.message shardId
      policy.checkpoint.porRound with
  | error error => exact iff_of_true ⟨none, rfl⟩ (by simp)
  | ok claim =>
      simp only [Except.ok.injEq, exists_eq_left']
      split_ifs with heligible
      · refine iff_of_true ⟨none, rfl⟩ fun h => ?_
        simp [h.1] at heligible
      have heligible' : policy.eligibleOffender claim.validator = true := by simpa using heligible
      rw [heligible', and_iff_right rfl]
      cases hverify : verifyEquivocationEvidence env.crypto claim policy.blocklace with
      | error error => cases error <;> simp
      | ok proof =>
          obtain rfl := eq_verifiedClaim hverify
          refine iff_of_true ?_ (by simp)
          have hintent := intentValid_of_decode hdecode
          have hhistory : ∀ b ∈ (verifiedClaim claim).blocks, ∃ d,
              Blocklace.HistoryRound env.crypto policy.blocklace b d := by
            intro b hb
            have hmem := (List.perm_insertionSort _ _).mem_iff.1 hb
            obtain ⟨-, d, -, hd⟩ := (CordialMiners.verify_eq_ok.1 hverify).1.history b hmem
            exact ⟨d, hd⟩
          refine exists_bind_eq_ok (intentPayload_verifiedClaim_iff.2 ⟨hintent, rfl⟩) ?_
          split_ifs
          · exact ⟨none, rfl⟩
          obtain ⟨found, hfound⟩ := exists_isAuthorized hclosed hwindow hread hintent hhistory
          refine exists_bind_eq_ok hfound ?_
          split_ifs
          · exact ⟨_, rfl⟩
          · exact ⟨_, rfl⟩

end Decided

/-! ### Whether the penalties can be committed to -/

/-- The bytes of an event in the commitment. -/
def EquivocationPenalty.committedLength (event : EquivocationPenalty) : ℕ :=
  16 + event.offender.bytes.length + event.evidence.length

/-- Penalties that the commitment can hold. -/
structure ReputationPenaltyEvents.Fits (events : ReputationPenaltyEvents) : Prop where
  count : events.equivocations.length ≤ maxBlockEntries
  size : penaltyEventsCommitmentDomain.length + 24 +
    (events.equivocations.map EquivocationPenalty.committedLength).sum ≤ maxBlockWireLen

/-- What the commitment asks of an event besides its size in total. -/
structure EquivocationPenalty.Committable (hasher : List Byte → ContentHash) (round : U64)
    (event : EquivocationPenalty) : Prop where
  authorized : event.validateAuthorization hasher round = .ok ()
  offender_le : event.offender.bytes.length ≤ maxNodeIdLen
  evidence_ne : event.evidence ≠ []
  evidence_le : event.evidence.length ≤ maxPenaltyEvidenceLen

theorem length_putEquivocation {round : U64} {start out : PenaltyPayload}
    {event : EquivocationPenalty} (h : start.putEquivocation hasher round event = .ok out) :
    out.payload.length = start.payload.length + event.committedLength := by
  obtain ⟨-, h⟩ := check_eq_ok.1 h
  obtain ⟨-, h⟩ := guard_eq_ok.1 h
  obtain ⟨-, h⟩ := guard_eq_ok.1 h
  obtain rfl := Except.ok.inj h
  unfold EquivocationPenalty.committedLength putBytes
  simp only [List.length_append, Codec.length_beBytes]
  omega

theorem length_foldlM_putEquivocation {round : U64} {start out : PenaltyPayload}
    {events : List EquivocationPenalty}
    (h : events.foldlM (PenaltyPayload.putEquivocation hasher round) start = .ok out) :
    out.payload.length = start.payload.length +
      (events.map EquivocationPenalty.committedLength).sum := by
  induction events generalizing start with
  | nil =>
      obtain rfl := Except.ok.inj h
      simp
  | cons event events ih =>
      rw [List.foldlM_cons] at h
      obtain ⟨mid, hmid, h⟩ := bind_eq_ok.1 h
      rw [ih h, length_putEquivocation hmid, List.map_cons, List.sum_cons, Nat.add_assoc]

theorem exists_foldlM_putEquivocation {round : U64} (start : PenaltyPayload)
    {events : List EquivocationPenalty} (hall : ∀ event ∈ events, event.Committable hasher round)
    (hnodup : (events.map EquivocationPenalty.offender).Nodup)
    (hfresh : ∀ event ∈ events, event.offender ∉ start.seen)
    (hsize : start.payload.length + (events.map EquivocationPenalty.committedLength).sum ≤
      maxBlockWireLen) :
    ∃ out, events.foldlM (PenaltyPayload.putEquivocation hasher round) start = .ok out := by
  induction events generalizing start with
  | nil => exact ⟨start, rfl⟩
  | cons event events ih =>
      obtain ⟨hevent, hevents⟩ := List.forall_mem_cons.1 hall
      obtain ⟨hnew, hnodup⟩ := List.nodup_cons.1 hnodup
      rw [List.map_cons, List.sum_cons] at hsize
      have hlength : (start.payload ++ (putBytes event.offender.bytes ++
          putBytes event.evidence)).length = start.payload.length + event.committedLength := by
        unfold EquivocationPenalty.committedLength putBytes
        simp only [List.length_append, Codec.length_beBytes]
        omega
      have hstep : start.putEquivocation hasher round event =
          .ok ⟨event.offender :: start.seen, start.payload ++ (putBytes event.offender.bytes ++
            putBytes event.evidence)⟩ := by
        refine check_eq_ok.2 ⟨hevent.authorized, guard_eq_ok.2 ⟨?_,
          guard_eq_ok.2 ⟨?_, rfl⟩⟩⟩
        · have hoffender := hevent.offender_le
          have hevidence := hevent.evidence_le
          have hseen := hfresh event List.mem_cons_self
          simp only [not_or, not_lt]
          exact ⟨hseen, hoffender, hevent.evidence_ne, hevidence⟩
        · omega
      rw [List.foldlM_cons]
      refine exists_bind_eq_ok hstep (ih _ hevents hnodup (fun other hother => ?_) ?_)
      · rw [List.mem_cons, not_or]
        refine ⟨fun heq => hnew ?_, hfresh other (List.mem_cons_of_mem _ hother)⟩
        exact heq ▸ List.mem_map_of_mem hother
      · dsimp only
        omega

/-- **Committable penalties of distinct offenders can be committed to exactly where
they fit.** -/
theorem exists_penaltyEventsCommitment_iff {events : ReputationPenaltyEvents}
    (hall : ∀ event ∈ events.equivocations, event.Committable hasher events.round)
    (hnodup : (events.equivocations.map EquivocationPenalty.offender).Nodup)
    (hinactivity : events.inactivity = []) :
    (∃ commitment, penaltyEventsCommitment hasher events.round (some events) = .ok commitment) ↔
      events.Fits := by
  have hperm := List.perm_insertionSort (fun a b : EquivocationPenalty => a.offender ≤ b.offender)
    events.equivocations
  have hsum := (hperm.map EquivocationPenalty.committedLength).sum_eq
  unfold penaltyEventsCommitment commitPenalties
  simp only [hinactivity, bind_eq_ok, guard_eq_ok, List.length_nil,
    Nat.add_zero, not_lt, ne_eq, not_true_eq_false, not_false_eq_true, true_and,
    List.insertionSort_nil, List.foldlM_nil]
  constructor
  · rintro ⟨commitment, hcount, state, hstate, _, hstate', hsize, -⟩
    obtain rfl := Except.ok.inj hstate'
    have hlength := length_foldlM_putEquivocation hstate
    simp only [List.length_append, Codec.length_beBytes] at hlength hsize
    exact ⟨hcount, by omega⟩
  · rintro ⟨hcount, hsize⟩
    obtain ⟨state, hstate⟩ := exists_foldlM_putEquivocation
      ⟨[], penaltyEventsCommitmentDomain ++ Codec.beBytes 8 events.round.val ++ Codec.beBytes 8
        (events.equivocations.insertionSort fun a b => a.offender ≤ b.offender).length⟩
      (fun event he => hall event (hperm.mem_iff.1 he)) ((hperm.map _).nodup_iff.2 hnodup)
      (fun _ _ => List.not_mem_nil) (by
        simp only [List.length_append, Codec.length_beBytes]
        omega)
    have hlength := length_foldlM_putEquivocation hstate
    simp only [List.length_append, Codec.length_beBytes] at hlength
    refine ⟨_, hcount, state, hstate, _, rfl, ?_, rfl⟩
    simp only [List.length_append, Codec.length_beBytes]
    omega

theorem mem_penaltyEvents {event : EquivocationPenalty}
    (h : event ∈ (penaltyEvents hasher context raw).equivocations) :
    ∃ claim ∈ raw, claimPenalty hasher context claim = event := by
  obtain ⟨offender, h⟩ := OrderedMap.mem_values_iff.1 h
  unfold eventsByOffender at h
  rw [OrderedMap.lookup_orInsertAll, OrderedMap.lookup_empty, Option.none_or, Option.map_id] at h
  obtain ⟨message, hmessage⟩ := OrderedMap.mem_values_iff.1 (List.mem_of_find?_eq_some h)
  obtain ⟨claim, hclaim, -, rfl⟩ := OrderedMap.exists_of_lookup_insertAll hmessage
  exact ⟨claim, hclaim, rfl⟩

/-- Every offender has one event. -/
theorem nodup_penaltyEvents :
    ((penaltyEvents hasher context raw).equivocations.map EquivocationPenalty.offender).Nodup := by
  have hkey : ∀ entry ∈ (eventsByOffender (selectedEvents hasher context raw)).entries,
      entry.2.offender = entry.1 := by
    rintro ⟨offender, event⟩ hentry
    have hlookup := OrderedMap.mem_entries_iff.1 hentry
    unfold eventsByOffender at hlookup
    rw [OrderedMap.lookup_orInsertAll, OrderedMap.lookup_empty, Option.none_or,
      Option.map_id] at hlookup
    simpa using List.find?_some hlookup
  have hmap : (penaltyEvents hasher context raw).equivocations.map EquivocationPenalty.offender =
      (eventsByOffender (selectedEvents hasher context raw)).entries.map Prod.fst :=
    List.map_map.trans (List.map_congr_left hkey)
  rw [hmap]
  exact (Keyed.ascending_iff_map.1
    (eventsByOffender (selectedEvents hasher context raw)).ascending).imp ne_of_lt

theorem claimPenalty_committable (h : Admissible env policy context claim)
    (hoffender : claim.validator.bytes.length ≤ maxNodeIdLen) :
    (claimPenalty env.hasher context claim).Committable env.hasher context.source.round := by
  refine ⟨?_, hoffender, h.intent.evidence_ne, h.intent.evidence_le⟩
  refine bind_eq_ok.2 ⟨_, okOr_eq_ok.2 rfl, bind_eq_ok.2
    ⟨(context.source.round, _), bind_eq_ok.2 ⟨_, checkpointCapabilityPayload_eq_ok.2
      ⟨h.source, h.intent, rfl⟩, rfl⟩, ?_⟩⟩
  exact if_neg (not_or.2 ⟨not_not.2 rfl, not_not.2 rfl⟩)

/-! ### Completion -/

/-- The claims of the carriers that count. -/
def countedClaims (env : PorEnv) (policy : FinalizedCheckpointAuthorization) (shardId : List Byte)
    (carriers : List PorEquivocationAuthorization) : List CordialEquivocationEvidence :=
  carriers.filterMap fun carrier => (policy.extractValidClaim env carrier shardId).toOption.join

theorem mem_countedClaims {carriers : List PorEquivocationAuthorization} :
    claim ∈ countedClaims env policy shardId carriers ↔
      ∃ carrier ∈ carriers, CountsAs env policy shardId carrier claim := by
  unfold countedClaims
  rw [List.mem_filterMap]
  refine exists_congr fun carrier => and_congr_right fun _ => ?_
  rw [← extractValidClaim_eq_some_iff]
  cases policy.extractValidClaim env carrier shardId <;> simp [Except.toOption]

/-- The penalties of the carriers that count. -/
def selectedPenalties (env : PorEnv) (policy : FinalizedCheckpointAuthorization)
    (shardId : List Byte) (carriers : List PorEquivocationAuthorization) : ReputationPenaltyEvents :=
  penaltyEvents env.hasher ⟨shardId, policy.checkpoint.ratingSource⟩
    (countedClaims env policy shardId carriers)

theorem exists_commitment_selectedPenalties_iff {carriers : List PorEquivocationAuthorization}
    (hsource : policy.checkpoint.ratingSource.validate = .ok ()) :
    (∃ commitment, penaltyEventsCommitment env.hasher policy.checkpoint.porRound
      (some (selectedPenalties env policy shardId carriers)) = .ok commitment) ↔
      (selectedPenalties env policy shardId carriers).Fits := by
  refine exists_penaltyEventsCommitment_iff (fun event he => ?_) nodup_penaltyEvents rfl
  obtain ⟨claim, hclaim, rfl⟩ := mem_penaltyEvents he
  obtain ⟨carrier, -, hcounts⟩ := mem_countedClaims.1 hclaim
  obtain ⟨-, -, -, hoffender, -⟩ := decodeAuthorization_eq_ok.1 hcounts.decoded
  exact claimPenalty_committable (hcounts.admissible hsource) hoffender

variable {B : Blocklace} {output : OrderedFinalizedOutput} {checkpoint : FinalizedPrefixCheckpoint}
  {completed : CompletedCheckpointRatingRound} {membership : Bonds}

/-- **When the carriers of a valid window can be collected:** every payload behind the
marker can be read. -/
theorem exists_finalizedCheckpointAuthorizations_iff
    (hwindow : ValidWindow env.hasher B output checkpoint) :
    (∃ found, finalizedCheckpointAuthorizations env B output checkpoint = .ok found) ↔
      ∀ id ∈ windowBlocks output checkpoint, ∀ block, B.get id = some block →
        ∃ carriers, blockCarriers env block = .ok carriers := by
  constructor
  · rintro ⟨found, hfound⟩ id hid block hblock
    obtain ⟨-, hread, -⟩ := finalizedCheckpointAuthorizations_eq_ok.1 hfound
    obtain ⟨block', carriers, hblock', hcarriers⟩ := hread id hid
    obtain rfl := Option.some.inj (hblock.symm.trans hblock')
    exact ⟨carriers, hcarriers⟩
  · intro h
    have hread : ∀ id ∈ windowBlocks output checkpoint, ∃ block carriers, B.get id = some block ∧
        blockCarriers env block = .ok carriers := by
      intro id hid
      obtain ⟨d, r, hr, hd⟩ := hwindow.stored id hid
      obtain ⟨block, rfl, hstores⟩ := Blocklace.exists_stores hd.mem
      have hget := Blocklace.get_eq_some_iff.2 ⟨hr, hstores⟩
      obtain ⟨carriers, hcarriers⟩ := h id hid block hget
      exact ⟨block, carriers, hget, hcarriers⟩
    refine exists_bind_eq_ok (window_eq_ok.2 ⟨hwindow, rfl⟩) ?_
    have hloop : ∀ (ids : List BlockIdentity) (start : OrderedSet PorEquivocationAuthorization),
        (∀ id ∈ ids, ∃ block carriers, B.get id = some block ∧
          blockCarriers env block = .ok carriers) →
        ∃ found, ids.foldlM (collectCarriers env B checkpoint) start = .ok found := by
      intro ids
      induction ids with
      | nil => exact fun start _ => ⟨start, rfl⟩
      | cons id ids ih =>
          intro start hall
          obtain ⟨⟨block, carriers, hget, hcarriers⟩, hids⟩ := List.forall_mem_cons.1 hall
          rw [List.foldlM_cons]
          exact exists_bind_eq_ok (bind_eq_ok.2 ⟨block, okOr_eq_ok.2 hget,
            bind_eq_ok.2 ⟨carriers, hcarriers, rfl⟩⟩) (ih _ hids)
    exact hloop _ _ hread

/-- **When the penalties of a captured round are admitted.** -/
theorem exists_withFinalizedEquivocations_iff (hclosed : B.isClosed = true)
    (hcaptured : finalizedCheckpointAuthorizations env B output completed.checkpoint =
      .ok completed.finalizedAuthorizations) :
    (∃ authorized, completed.withFinalizedEquivocations env B output membership shardId =
        .ok authorized) ↔
      (∀ carrier ∈ completed.shardCarriers shardId,
        ¬ LacksHistory env (completed.policy B output membership) shardId carrier) ∧
      (selectedPenalties env (completed.policy B output membership) shardId
        (completed.shardCarriers shardId)).Fits := by
  obtain ⟨hwindow, hread, hmem⟩ := finalizedCheckpointAuthorizations_eq_ok.1 hcaptured
  have hdecided : ∀ carrier ∈ completed.shardCarriers shardId,
      ((∃ found, (completed.policy B output membership).extractValidClaim env carrier shardId =
        .ok found) ↔
          ¬ LacksHistory env (completed.policy B output membership) shardId carrier) := by
    intro carrier hcarrier
    obtain ⟨hfinalized, hshard⟩ := mem_shardCarriers.1 hcarrier
    obtain ⟨⟨-, hwave, hround⟩, -⟩ := (hmem carrier).1 hfinalized
    exact exists_extractValidClaim_iff hclosed hwindow hread hshard hwave hround
  have hsource := hwindow.checkpointOf.validate_ratingSource
  rw [← exists_commitment_selectedPenalties_iff hsource]
  constructor
  · rintro ⟨authorized, h⟩
    obtain ⟨claims, hclaims, h⟩ := bind_eq_ok.1 h
    obtain ⟨-, hvalid, -, hcommitment, -⟩ := withAuthorizedEquivocations_eq_ok.1 h
    rw [Codec.reduceOption_of_mapM hclaims] at hcommitment
    refine ⟨fun carrier hcarrier => (hdecided carrier hcarrier).1 ?_, hcommitment⟩
    exact (validAuthorizations_eq_ok.1 hvalid).1 carrier hcarrier
  · rintro ⟨hall, hcommitment⟩
    have hextract : ∀ carrier ∈ completed.shardCarriers shardId, ∃ found,
        (completed.policy B output membership).extractValidClaim env carrier shardId = .ok found :=
      fun carrier hcarrier => (hdecided carrier hcarrier).2 (hall carrier hcarrier)
    obtain ⟨claims, hclaims⟩ := Codec.exists_mapM_eq_ok hextract
    refine exists_bind_eq_ok hclaims ⟨_, withAuthorizedEquivocations_eq_ok.2 ⟨hcaptured, ?_, ?_,
      ?_, rfl⟩⟩
    · rw [Codec.reduceOption_of_mapM hclaims]
      refine validAuthorizations_eq_ok.2 ⟨hextract, fun carrier => ?_⟩
      rw [mem_claimCarriers]
      constructor
      · rintro ⟨claim, hclaim, rfl⟩
        obtain ⟨carrier, hcarrier, hcounts⟩ := mem_countedClaims.1 hclaim
        obtain rfl := hcounts.carrier_eq
        exact ⟨hcarrier, claim, hcounts⟩
      · rintro ⟨hcarrier, claim, hcounts⟩
        exact ⟨claim, mem_countedClaims.2 ⟨carrier, hcarrier, hcounts⟩, hcounts.carrier_eq.symm⟩
    · rw [Codec.reduceOption_of_mapM hclaims]
      intro claim hclaim
      obtain ⟨carrier, -, hcounts⟩ := mem_countedClaims.1 hclaim
      exact hcounts.admissible hsource
    · rw [Codec.reduceOption_of_mapM hclaims]
      exact hcommitment

/-- **What stops a round:** a marked payload in its window that cannot be read stops the
collection of carriers; a claim against a member whose history is not there, or penalties
that no commitment can hold, stop the admission.  Nothing else does. -/
theorem round_completes_iff (hclosed : B.isClosed = true)
    (hwindow : ValidWindow env.hasher B output completed.checkpoint) :
    ((∃ found, finalizedCheckpointAuthorizations env B output completed.checkpoint = .ok found) ↔
      ∀ id ∈ windowBlocks output completed.checkpoint, ∀ block, B.get id = some block →
        ∃ carriers, blockCarriers env block = .ok carriers) ∧
    (finalizedCheckpointAuthorizations env B output completed.checkpoint =
        .ok completed.finalizedAuthorizations →
      ((∃ authorized, completed.withFinalizedEquivocations env B output membership shardId =
          .ok authorized) ↔
        (∀ carrier ∈ completed.shardCarriers shardId,
          ¬ LacksHistory env (completed.policy B output membership) shardId carrier) ∧
        (selectedPenalties env (completed.policy B output membership) shardId
          (completed.shardCarriers shardId)).Fits)) :=
  ⟨exists_finalizedCheckpointAuthorizations_iff hwindow,
    exists_withFinalizedEquivocations_iff hclosed⟩

open Blocklace (sampleId threeBonds)

/-- A conflict on a block of the window. -/
def knownClaims : List CordialEquivocationEvidence := [conflictClaim 1 31 1 [sampleId 1 3]]

/-- A conflict on a block that nobody has. -/
def unknownClaims : List CordialEquivocationEvidence :=
  [conflictClaim 1 31 1 [sampleId 99 3]]

/-- A round with a known conflict completes, so nothing in its window stops it. -/
theorem round_completes_iff_knownClaims :
    (∀ id ∈ windowBlocks (windowOutput 16) (windowCheckpoint 16), ∀ block,
      (windowBlocklace 16 (carrierPayload knownClaims)).get id = some block →
        ∃ carriers, blockCarriers (windowEnv 16 knownClaims) block = .ok carriers) ∧
    (∀ carrier ∈ (windowRound 16 knownClaims).shardCarriers [9],
      ¬ LacksHistory (windowEnv 16 knownClaims) ((windowRound 16 knownClaims).policy
        (windowBlocklace 16 (carrierPayload knownClaims)) (windowOutput 16) threeBonds) [9] carrier) ∧
    (selectedPenalties (windowEnv 16 knownClaims) ((windowRound 16 knownClaims).policy
      (windowBlocklace 16 (carrierPayload knownClaims)) (windowOutput 16) threeBonds) [9]
      ((windowRound 16 knownClaims).shardCarriers [9])).Fits := by
  have hok : ((windowRound 16 knownClaims).withFinalizedEquivocations (windowEnv 16 knownClaims)
      (windowBlocklace 16 (carrierPayload knownClaims)) (windowOutput 16) threeBonds [9]).isOk =
      true := by decide +kernel
  obtain ⟨authorized, h⟩ := Codec.exists_eq_ok_of_isOk hok
  obtain ⟨claims, -, hauthorized⟩ := bind_eq_ok.1 h
  have hcaptured := (withAuthorizedEquivocations_eq_ok.1 hauthorized).1
  have hwindow := (finalizedCheckpointAuthorizations_eq_ok.1 hcaptured).1
  obtain ⟨hcollect, hcomplete⟩ := round_completes_iff (by decide +kernel) hwindow
  exact ⟨hcollect.1 ⟨_, hcaptured⟩, (hcomplete hcaptured).1 ⟨authorized, h⟩⟩

/-- **A block can stop a round**, with a payload that cannot be read or with a claim that
refers to a block nobody has. -/
theorem block_can_stop_round :
    (∃ (env : PorEnv) (B : Blocklace) (output : OrderedFinalizedOutput)
      (checkpoint : FinalizedPrefixCheckpoint), B.isClosed = true ∧
      (window env.hasher B output checkpoint).isOk = true ∧
      (finalizedCheckpointAuthorizations env B output checkpoint).isOk = false) ∧
    ∃ (env : PorEnv) (B : Blocklace) (output : OrderedFinalizedOutput)
      (completed : CompletedCheckpointRatingRound) (membership : Bonds) (shardId : List Byte),
      B.isClosed = true ∧ (window env.hasher B output completed.checkpoint).isOk = true ∧
      finalizedCheckpointAuthorizations env B output completed.checkpoint =
        .ok completed.finalizedAuthorizations ∧
      (completed.withFinalizedEquivocations env B output membership shardId).isOk = false := by
  refine ⟨⟨windowEnv 16 [], windowBlocklace 16 CordialBlockPayload.payloadV2, windowOutput 16,
    windowCheckpoint 16, by decide +kernel, by decide +kernel, by decide +kernel⟩,
    windowEnv 16 unknownClaims, windowBlocklace 16 (carrierPayload unknownClaims), windowOutput 16,
    windowRound 16 unknownClaims, threeBonds, [9], by decide +kernel, by decide +kernel, ?_,
    by decide +kernel⟩
  decide +kernel

end Reputation

end CordialMiners
