/-
# Correlated slashing and additional proofs

Two offenders proven in the same round are correlated: their weights add up, and
over the threshold both keep nothing.  Of several proofs against one offender
admission keeps the one with the first message, and its round is the only one that
the offender counts for (`lookup_eventsByOffender`, `roundWeight_penaltyEvents`).

So an additional proof can move an offender out of its group.  Where the group is
then no longer over the threshold, its members keep the base part
(`more_proof_can_help`); where no group falls below it, more proof never helps
(`more_proof_iff`).
-/

import CordialMiners.Slashing.Admission
import CordialMiners.Reputation.Audit

namespace CordialMiners.Reputation

open CompletedCheckpointRatingRound

/-- The proof against an offender that becomes its event. -/
def decidingProof (shardId : List Byte) (round : U64) (raw : List CordialEquivocationEvidence)
    (offender : NodeId) : Option CordialEquivocationEvidence :=
  (raw.filter fun claim => claim.validator = offender).argmin (claimMessage shardId round)

/-- The round that an offender counts for. -/
def decidingRound (shardId : List Byte) (round : U64) (raw : List CordialEquivocationEvidence)
    (offender : NodeId) : Option ℕ :=
  (decidingProof shardId round raw offender).map EquivocationEvidence.round

/-- The previous reputation of all offenders that count for a round. -/
def correlatedWeight (previous : ReputationVector) (shardId : List Byte) (round : U64)
    (raw : List CordialEquivocationEvidence) (proofRound : ℕ) : ℕ :=
  ∑ offender ∈ (raw.map EquivocationEvidence.validator).toFinset with
    decidingRound shardId round raw offender = some proofRound, priorReputation previous offender

/-- The offender counts for a round whose offenders are over the threshold. -/
def SlashedInFull (previous : ReputationVector) (config : PorConfig) (shardId : List Byte)
    (round : U64) (raw : List CordialEquivocationEvidence) (offender : NodeId) : Prop :=
  ∃ proofRound ∈ decidingRound shardId round raw offender,
    OverThreshold previous config (correlatedWeight previous shardId round raw proofRound)

instance (previous : ReputationVector) (config : PorConfig) (weight : ℕ) :
    Decidable (OverThreshold previous config weight) := inferInstanceAs (Decidable (_ < _))

instance (previous : ReputationVector) (config : PorConfig) (shardId : List Byte) (round : U64)
    (raw : List CordialEquivocationEvidence) (offender : NodeId) :
    Decidable (SlashedInFull previous config shardId round raw offender) :=
  inferInstanceAs (Decidable (∃ proofRound ∈ decidingRound shardId round raw offender, _))

/-- The retained balance of a key, zero if it is unknown. -/
def retainedIn (list : ReputationList) (node : NodeId) : ℕ :=
  ((entryOf list.entries node).map fun entry => entry.retainedReputation.val).getD 0

variable {env : PorEnv} {hasher : List Byte → ContentHash}
  {context : CheckpointEquivocationAuthorizationContext}
  {claim claim' : CordialEquivocationEvidence} {raw : List CordialEquivocationEvidence}
  {offender : NodeId} {previous : ReputationVector} {config : PorConfig}

/-! ### One message, one penalty -/

/-- Where every claim is admitted, its lengths fit. -/
theorem IntentValid.sized {shardId : List Byte} {round : U64}
    (h : IntentValid shardId round (verifiedClaim claim).canonicalBytes)
    (hround : claim.round < 2 ^ 64) : (verifiedClaim claim).canonicalClaim.Sized := by
  have hle := h.evidence_le
  rw [VerifiedEquivocationEvidence.canonicalBytes_eq, List.length_append] at hle
  refine EquivocationEvidence.sized_of_length (hround.trans_le (by norm_num)) ?_
  unfold maxPenaltyEvidenceLen at hle
  omega

/-- **The message decides the penalty.** -/
theorem claimPenalty_congr
    (h : IntentValid context.shardId context.source.round (verifiedClaim claim).canonicalBytes)
    (h' : IntentValid context.shardId context.source.round (verifiedClaim claim').canonicalBytes)
    (hround : claim.round < 2 ^ 64) (hround' : claim'.round < 2 ^ 64)
    (heq : claimMessage context.shardId context.source.round claim =
      claimMessage context.shardId context.source.round claim') :
    claimPenalty hasher context claim = claimPenalty hasher context claim' := by
  have hsized := h.sized hround
  have hsized' := h'.sized hround'
  have hmax : maxPenaltyEvidenceLen < 256 ^ 8 := by decide
  obtain ⟨hvalidator, hbytes⟩ := intentLayout_inj hsized.validator hsized'.validator
    (h.evidence_le.trans_lt hmax) (h'.evidence_le.trans_lt hmax) heq
  have hlayout := hbytes
  rw [VerifiedEquivocationEvidence.canonicalBytes_eq,
    VerifiedEquivocationEvidence.canonicalBytes_eq, List.append_cancel_left_eq] at hlayout
  have hclaim := claimLayout_inj hsized
    VerifiedEquivocationEvidence.unsignedRefs_canonicalClaim hsized'
    VerifiedEquivocationEvidence.unsignedRefs_canonicalClaim hlayout
  have hproof := congrArg (fun evidence : CordialEquivocationEvidence => evidence.round) hclaim
  have hrounds : claim.round = claim'.round := hproof
  have hoffender : claim.validator = claim'.validator := hvalidator
  unfold claimPenalty
  rw [hoffender, hbytes, heq, hrounds]

/-! ### The deciding proof -/

theorem decidingProof_spec {shardId : List Byte} {round : U64} {found : CordialEquivocationEvidence}
    (h : decidingProof shardId round raw offender = some found) :
    found ∈ raw ∧ found.validator = offender ∧ ∀ b ∈ raw, b.validator = offender →
      claimMessage shardId round found ≤ claimMessage shardId round b := by
  have hmem : ∀ {b : CordialEquivocationEvidence}, b ∈ (raw.filter fun claim =>
      claim.validator = offender) ↔ b ∈ raw ∧ b.validator = offender := by simp
  obtain ⟨hfound, hvalidator⟩ := hmem.1 (List.argmin_mem h)
  exact ⟨hfound, hvalidator, fun b hb hoffender =>
    not_lt.1 (List.not_lt_of_mem_argmin (hmem.2 ⟨hb, hoffender⟩) h)⟩

/-- Whoever is accused has a deciding proof. -/
theorem exists_decidingProof {shardId : List Byte} {round : U64} (hclaim : claim ∈ raw) :
    ∃ found, decidingProof shardId round raw claim.validator = some found := by
  refine Option.ne_none_iff_exists'.1 fun hnone => ?_
  have hmem : claim ∈ raw.filter fun other => other.validator = claim.validator := by
    simp [hclaim]
  rw [List.argmin_eq_none.1 hnone] at hmem
  exact absurd hmem (by simp)

section Deciding

variable (hone : ∀ a ∈ raw, ∀ b ∈ raw,
  claimMessage context.shardId context.source.round a =
    claimMessage context.shardId context.source.round b →
  claimPenalty hasher context a = claimPenalty hasher context b)

include hone

/-- An offender's event is that of the first message against it. -/
theorem lookup_eventsByOffender_iff {event : EquivocationPenalty} :
    (eventsByOffender (selectedEvents hasher context raw)).lookup offender = some event ↔
      ∃ a ∈ raw, a.validator = offender ∧ claimPenalty hasher context a = event ∧
        ∀ b ∈ raw, b.validator = offender →
          claimMessage context.shardId context.source.round a ≤
            claimMessage context.shardId context.source.round b := by
  have hselected : ∀ {message : List Byte} {event : EquivocationPenalty},
      (message, event) ∈ (selectedEvents hasher context raw).entries ↔
        ∃ a ∈ raw, claimMessage context.shardId context.source.round a = message ∧
          claimPenalty hasher context a = event := fun {message event} =>
    OrderedMap.mem_entries_iff.trans (OrderedMap.lookup_insertAll_iff hone)
  unfold eventsByOffender OrderedMap.values
  rw [OrderedMap.lookup_orInsertAll, OrderedMap.lookup_empty, Option.none_or, Option.map_id,
    id, List.find?_map, Option.map_eq_some_iff]
  simp only [(selectedEvents hasher context raw).ascending.find?_eq_some_iff, Function.comp_apply,
    decide_eq_true_eq, Prod.exists, Prod.forall]
  constructor
  · rintro ⟨message, _, ⟨hmem, hoffender, hleast⟩, rfl⟩
    obtain ⟨a, ha, rfl, rfl⟩ := hselected.1 hmem
    exact ⟨a, ha, hoffender, rfl, fun b hb hvalidator =>
      hleast _ _ (hselected.2 ⟨b, hb, rfl, rfl⟩) hvalidator⟩
  · rintro ⟨a, ha, hoffender, rfl, hleast⟩
    refine ⟨_, _, ⟨hselected.2 ⟨a, ha, rfl, rfl⟩, hoffender, fun message event hmem hvalidator => ?_⟩,
      rfl⟩
    obtain ⟨b, hb, rfl, rfl⟩ := hselected.1 hmem
    exact hleast b hb hvalidator

/-- **An offender's event is made of its deciding proof.** -/
theorem lookup_eventsByOffender :
    (eventsByOffender (selectedEvents hasher context raw)).lookup offender =
      (decidingProof context.shardId context.source.round raw offender).map
        (claimPenalty hasher context) := by
  refine Option.ext fun event => ?_
  rw [lookup_eventsByOffender_iff hone, Option.map_eq_some_iff]
  constructor
  · rintro ⟨a, ha, rfl, rfl, hleast⟩
    obtain ⟨found, hfound⟩ : ∃ found, decidingProof context.shardId context.source.round raw
        a.validator = some found := exists_decidingProof ha
    obtain ⟨hmem, hvalidator, hfirst⟩ := decidingProof_spec hfound
    exact ⟨found, hfound, hone found hmem a ha
      (le_antisymm (hfirst a ha rfl) (hleast found hmem hvalidator))⟩
  · rintro ⟨found, hfound, rfl⟩
    obtain ⟨hmem, hvalidator, hfirst⟩ := decidingProof_spec hfound
    exact ⟨found, hmem, hvalidator, rfl, hfirst⟩

theorem mem_penaltyEvents_iff {event : EquivocationPenalty} :
    event ∈ (penaltyEvents hasher context raw).equivocations ↔
      ∃ offender found, decidingProof context.shardId context.source.round raw offender =
        some found ∧ claimPenalty hasher context found = event := by
  unfold penaltyEvents
  dsimp only
  rw [OrderedMap.mem_values_iff]
  simp only [lookup_eventsByOffender hone, Option.map_eq_some_iff]

/-- **The weight of a round is that of the offenders that count for it.** -/
theorem roundWeight_penaltyEvents {proofRound : ℕ}
    (hnodup : ((penaltyEvents hasher context raw).equivocations.map
      EquivocationPenalty.offender).Nodup) :
    roundWeight previous (penaltyEvents hasher context raw).equivocations proofRound =
      correlatedWeight previous context.shardId context.source.round raw proofRound := by
  unfold roundWeight correlatedWeight
  rw [show (fun event : EquivocationPenalty => priorReputation previous event.offender) =
    priorReputation previous ∘ EquivocationPenalty.offender from rfl, ← List.map_map,
    ← List.sum_toFinset _ (hnodup.sublist (List.filter_sublist.map _))]
  refine Finset.sum_congr (Finset.ext fun offender => ?_) fun _ _ => rfl
  simp only [List.mem_toFinset, List.mem_map, List.mem_filter, decide_eq_true_eq,
    Finset.mem_filter, mem_penaltyEvents_iff hone]
  constructor
  · rintro ⟨_, ⟨⟨offender, found, hfound, rfl⟩, hcounts⟩, rfl⟩
    obtain ⟨hmem, rfl, -⟩ := decidingProof_spec hfound
    refine ⟨⟨found, hmem, rfl⟩, ?_⟩
    unfold decidingRound
    exact (congrArg _ hfound).trans hcounts
  · rintro ⟨-, hround⟩
    obtain ⟨found, hfound, rfl⟩ := Option.map_eq_some_iff.1 hround
    exact ⟨claimPenalty hasher context found, ⟨⟨offender, found, hfound, rfl⟩, rfl⟩,
      (decidingProof_spec hfound).2.1⟩

end Deciding

/-! ### What an offender keeps -/

variable {completed authorized : CompletedCheckpointRatingRound} {B : Blocklace}
  {output : OrderedFinalizedOutput} {membership : Bonds} {shardId : List Byte}
  {ratings : List RatingRecord} {list : ReputationList}

/-- **What an offender keeps after the replay:** nothing where it is slashed in full,
otherwise the base part of its previous reputation. -/
theorem retainedIn_replay (hround : ∀ claim ∈ raw, claim.round < 2 ^ 64)
    (h : completed.withAuthorizedEquivocations env raw B output membership shardId = .ok authorized)
    (hreplay : replayReputationTransitionWithPenalties env.hasher previous ratings
      authorized.source.round config authorized.penalties = .ok list) (hclaim : claim ∈ raw) :
    (SlashedInFull previous config shardId completed.source.round raw claim.validator →
      retainedIn list claim.validator = 0) ∧
    (¬ SlashedInFull previous config shardId completed.source.round raw claim.validator →
      retainedIn list claim.validator =
        baseRetained config (priorReputation previous claim.validator)) := by
  obtain ⟨-, -, hadmissible, -, rfl⟩ := withAuthorizedEquivocations_eq_ok.1 h
  have hone : ∀ a ∈ raw, ∀ b ∈ raw,
      claimMessage (completed.context shardId).shardId (completed.context shardId).source.round a =
        claimMessage (completed.context shardId).shardId (completed.context shardId).source.round b →
      claimPenalty env.hasher (completed.context shardId) a =
        claimPenalty env.hasher (completed.context shardId) b := fun a ha b hb =>
    claimPenalty_congr (hadmissible a ha).intent (hadmissible b hb).intent (hround a ha) (hround b hb)
  obtain ⟨-, -, clamped, -, -, -, -, -, hlist⟩ := replay_stages hreplay
  have hpenalized := applyReputationPenalties_penalized hlist
  have hnodup := (List.nodup_append.1 hpenalized.nodup).1
  obtain ⟨found, hfound⟩ : ∃ found, decidingProof shardId completed.source.round raw
      claim.validator = some found := exists_decidingProof hclaim
  have hvalidator := (decidingProof_spec hfound).2.1
  obtain ⟨total, entry, retained, htotal, -, hretained, hout⟩ := hpenalized.slashed
    (claimPenalty env.hasher (completed.context shardId) found)
    ((mem_penaltyEvents_iff hone).2 ⟨_, found, hfound, rfl⟩)
  obtain rfl := totalActiveWeight_eq htotal
  obtain ⟨proofRound, hcounts, hfull, hbase⟩ := retainedAfter_spec hretained
  obtain rfl : found.round = proofRound := Option.some.inj hcounts
  have hkept : retainedIn list claim.validator = retained.val := by
    unfold retainedIn
    rw [← hvalidator, show found.validator =
      (claimPenalty env.hasher (completed.context shardId) found).offender from rfl, hout]
    rfl
  have hiff : SlashedInFull previous config shardId completed.source.round raw claim.validator ↔
      OverThreshold previous config (roundWeight previous
        (penaltyEvents env.hasher (completed.context shardId) raw).equivocations found.round) := by
    rw [roundWeight_penaltyEvents hone hnodup]
    unfold SlashedInFull decidingRound
    rw [hfound]
    simp only [Option.map_some, Option.mem_def, Option.some.injEq, exists_eq_left']
    rfl
  rw [hiff, hkept]
  refine ⟨hfull, fun hunder => (hbase hunder).trans ?_⟩
  rw [← hvalidator]
  rfl

variable {completed' authorized' : CompletedCheckpointRatingRound} {B' : Blocklace}
  {output' : OrderedFinalizedOutput} {raw' : List CordialEquivocationEvidence}
  {ratings' : List RatingRecord} {list' : ReputationList}

/-- **When more proof never helps:** no offender that is slashed in full falls back to
the base slash, unless that leaves nothing as well. -/
theorem more_proof_iff (hround : ∀ claim ∈ raw', claim.round < 2 ^ 64) (hsub : raw ⊆ raw')
    (h : completed.withAuthorizedEquivocations env raw B output membership shardId = .ok authorized)
    (h' : completed'.withAuthorizedEquivocations env raw' B' output' membership shardId =
      .ok authorized')
    (hreplay : replayReputationTransitionWithPenalties env.hasher previous ratings
      authorized.source.round config authorized.penalties = .ok list)
    (hreplay' : replayReputationTransitionWithPenalties env.hasher previous ratings'
      authorized'.source.round config authorized'.penalties = .ok list') :
    (∀ claim ∈ raw, retainedIn list' claim.validator ≤ retainedIn list claim.validator) ↔
      ∀ claim ∈ raw,
        SlashedInFull previous config shardId completed.source.round raw claim.validator →
        ¬ SlashedInFull previous config shardId completed'.source.round raw' claim.validator →
        baseRetained config (priorReputation previous claim.validator) = 0 := by
  refine forall₂_congr fun claim hclaim => ?_
  obtain ⟨hfull, hbase⟩ := retainedIn_replay (fun claim hclaim => hround claim (hsub hclaim)) h
    hreplay hclaim
  obtain ⟨hfull', hbase'⟩ := retainedIn_replay hround h' hreplay' (hsub hclaim)
  by_cases hslashed : SlashedInFull previous config shardId completed.source.round raw
    claim.validator
  · by_cases hslashed' : SlashedInFull previous config shardId completed'.source.round raw'
      claim.validator
    · simp [hfull hslashed, hfull' hslashed', hslashed']
    · rw [hfull hslashed, hbase' hslashed', Nat.le_zero]
      exact ⟨fun hzero _ _ => hzero, fun hzero => hzero hslashed hslashed'⟩
  · refine iff_of_true ?_ fun hcontra => absurd hcontra hslashed
    by_cases hslashed' : SlashedInFull previous config shardId completed'.source.round raw'
      claim.validator
    · rw [hfull' hslashed']
      exact Nat.zero_le _
    · rw [hbase hslashed, hbase' hslashed']

/-! ### An additional proof that helps -/

open Blocklace (sampleId listedCrypto threeBonds)

/-- Two offenders, proven in round `1`. -/
def twoClaims : List CordialEquivocationEvidence :=
  [conflictClaim 1 31 1 [sampleId 1 3], conflictClaim 2 41 1 [sampleId 1 3]]

/-- The second of them. -/
def oneClaim : List CordialEquivocationEvidence := [conflictClaim 2 41 1 [sampleId 1 3]]

/-- Both, and the first also proven in round `0`. -/
def threeClaims : List CordialEquivocationEvidence := conflictClaim 1 51 0 [] :: twoClaims

/-- The hashes of three windows and of the claims published in them. -/
def correlationEnv : PorEnv where
  hasher := sumHasher
  crypto := listedCrypto (windowChain 16 (carrierPayload twoClaims) ++
    windowChain 17 (carrierPayload threeClaims) ++ windowChain 18 (carrierPayload oneClaim) ++
    threeClaims.flatMap EquivocationEvidence.blocks)
  bincode := carrierBincode

/-- Their reputations where both lose everything, or both the base part. -/
def correlatedList (retained : U64) : ReputationList :=
  ⟨1, [⟨⟨[1]⟩, 0, retained, true⟩, ⟨⟨[2]⟩, 0, retained, true⟩, .new ⟨[3]⟩ 600000000]⟩

theorem admitted_claims :
    (windowRound 16 twoClaims).withAuthorizedEquivocations correlationEnv twoClaims
        (windowBlocklace 16 (carrierPayload twoClaims)) (windowOutput 16) threeBonds [9] =
      .ok ((windowRound 16 twoClaims).admitted sumHasher twoClaims [9]) ∧
    (windowRound 17 threeClaims).withAuthorizedEquivocations correlationEnv threeClaims
        (windowBlocklace 17 (carrierPayload threeClaims)) (windowOutput 17) threeBonds [9] =
      .ok ((windowRound 17 threeClaims).admitted sumHasher threeClaims [9]) :=
  ⟨withAuthorizedEquivocations_eq_admitted (by decide +kernel),
    withAuthorizedEquivocations_eq_admitted (by decide +kernel)⟩

theorem replay_claims :
    replayReputationTransitionWithPenalties sumHasher ⟨0, windowReputation.entries⟩ [] 1 .default
      ((windowRound 16 twoClaims).admitted sumHasher twoClaims [9]).penalties =
        .ok (correlatedList 0) ∧
    replayReputationTransitionWithPenalties sumHasher ⟨0, windowReputation.entries⟩ [] 1 .default
      ((windowRound 17 threeClaims).admitted sumHasher threeClaims [9]).penalties =
        .ok (correlatedList 150000000) := by
  constructor
  · decide +kernel
  · decide +kernel

/-- A proof against the other offender helps neither. -/
theorem more_proof_iff_twoClaims :
    ∃ list list', (∀ claim ∈ oneClaim,
        retainedIn list' claim.validator ≤ retainedIn list claim.validator) ∧
      replayReputationTransitionWithPenalties sumHasher ⟨0, windowReputation.entries⟩ [] 1 .default
        ((windowRound 18 oneClaim).admitted sumHasher oneClaim [9]).penalties = .ok list ∧
      replayReputationTransitionWithPenalties sumHasher ⟨0, windowReputation.entries⟩ [] 1 .default
        ((windowRound 16 twoClaims).admitted sumHasher twoClaims [9]).penalties = .ok list' := by
  have hok : ((windowRound 18 oneClaim).withAuthorizedEquivocations correlationEnv oneClaim
      (windowBlocklace 18 (carrierPayload oneClaim)) (windowOutput 18) threeBonds [9]).isOk = true := by
    decide +kernel
  have hisOk : (replayReputationTransitionWithPenalties sumHasher ⟨0, windowReputation.entries⟩ [] 1
      .default ((windowRound 18 oneClaim).admitted sumHasher oneClaim [9]).penalties).isOk = true := by
    decide +kernel
  obtain ⟨list, hlist⟩ := Codec.exists_eq_ok_of_isOk hisOk
  refine ⟨list, _, (more_proof_iff (by decide) (by decide)
    (withAuthorizedEquivocations_eq_admitted hok) admitted_claims.1 hlist replay_claims.1).2 ?_,
    hlist, replay_claims.1⟩
  decide +kernel

/-- **An additional proof can help:** with the older proof the first offender counts for
round `0`, and neither round is over the threshold. -/
theorem more_proof_can_help :
    ∃ (env : PorEnv) (membership : Bonds) (shardId : List Byte) (previous : ReputationVector)
      (raw raw' : List CordialEquivocationEvidence) (B B' : Blocklace)
      (output output' : OrderedFinalizedOutput)
      (completed completed' authorized authorized' : CompletedCheckpointRatingRound)
      (list list' : ReputationList),
      raw ⊆ raw' ∧
      completed.withAuthorizedEquivocations env raw B output membership shardId = .ok authorized ∧
      completed'.withAuthorizedEquivocations env raw' B' output' membership shardId =
        .ok authorized' ∧
      replayReputationTransitionWithPenalties env.hasher previous [] authorized.source.round .default
        authorized.penalties = .ok list ∧
      replayReputationTransitionWithPenalties env.hasher previous [] authorized'.source.round .default
        authorized'.penalties = .ok list' ∧
      ∃ claim ∈ raw, retainedIn list claim.validator < retainedIn list' claim.validator :=
  ⟨correlationEnv, threeBonds, [9], ⟨0, windowReputation.entries⟩, twoClaims, threeClaims, _, _, _,
    _, _, _, _, _, _, _, List.subset_cons_self _ _, admitted_claims.1, admitted_claims.2,
    replay_claims.1, replay_claims.2, conflictClaim 1 31 1 [sampleId 1 3],
    List.mem_cons_self, by decide +kernel⟩

end CordialMiners.Reputation
