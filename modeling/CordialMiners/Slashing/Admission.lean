/-
# What admission accepts

Admission of a list of claims succeeds where every claim is verified, published in
the window and for an eligible offender, and where the claims are those of the
carriers that count (`withAuthorizedEquivocations_eq_ok`).  The events it makes
of them are a function of the list, the shard and the checkpoint (`penaltyEvents`):
the blocklace decides whether a claim is admitted, not what becomes of it.
-/

import CordialMiners.Slashing.Completed

namespace CordialMiners.Reputation

open Codec (bind_eq_ok check_eq_ok guard_eq_ok
  mapError_eq_ok)
open FinalizedCheckpointAuthorization CompletedCheckpointRatingRound

/-! ### What a claim becomes -/

/-- The message of a claim: its canonical intent. -/
def claimMessage (shardId : List Byte) (round : U64) (claim : CordialEquivocationEvidence) :
    List Byte :=
  intentLayout shardId round claim.validator (verifiedClaim claim).canonicalBytes

/-- The carrier of a claim. -/
def claimCarrier (context : CheckpointEquivocationAuthorizationContext)
    (claim : CordialEquivocationEvidence) : PorEquivocationAuthorization :=
  ⟨context.shardId, 0, context.source.round.val,
    claimMessage context.shardId context.source.round claim⟩

/-- The penalty for a claim. -/
def claimPenalty (hasher : List Byte → ContentHash)
    (context : CheckpointEquivocationAuthorizationContext) (claim : CordialEquivocationEvidence) :
    EquivocationPenalty :=
  ⟨claim.validator, (verifiedClaim claim).canonicalBytes,
    some ⟨.checkpoint context, hasher (claimMessage context.shardId context.source.round claim ++
      sourceFields context.source), claim.round⟩⟩

/-- The event of each message. -/
def selectedEvents (hasher : List Byte → ContentHash)
    (context : CheckpointEquivocationAuthorizationContext)
    (raw : List CordialEquivocationEvidence) : OrderedMap (List Byte) EquivocationPenalty :=
  OrderedMap.insertAll .empty (claimMessage context.shardId context.source.round)
    (claimPenalty hasher context) raw

/-- **The penalties of a list of claims.** -/
def penaltyEvents (hasher : List Byte → ContentHash)
    (context : CheckpointEquivocationAuthorizationContext)
    (raw : List CordialEquivocationEvidence) : ReputationPenaltyEvents :=
  ⟨context.source.round, (eventsByOffender (selectedEvents hasher context raw)).values, []⟩

/-- The carriers of a list of claims. -/
def claimCarriers (context : CheckpointEquivocationAuthorizationContext)
    (raw : List CordialEquivocationEvidence) : OrderedSet PorEquivocationAuthorization :=
  (raw.map (claimCarrier context)).foldl OrderedSet.insert .empty

section

variable {env : PorEnv} {policy : FinalizedCheckpointAuthorization}
  {context : CheckpointEquivocationAuthorizationContext} {claim : CordialEquivocationEvidence}
  {raw : List CordialEquivocationEvidence} {shardId : List Byte}
  {carrier : PorEquivocationAuthorization}

@[simp] theorem mem_keepMembers {κ : Type} [LinearOrder κ] {s : OrderedSet κ} {p : κ → Bool}
    {k : κ} : k ∈ keepMembers s p ↔ k ∈ s ∧ p k = true := by
  unfold keepMembers
  rw [mem_foldl_insert, List.mem_filter, OrderedSet.mem_toList]
  simp

theorem mem_claimCarriers : carrier ∈ claimCarriers context raw ↔
    ∃ claim ∈ raw, claimCarrier context claim = carrier := by
  unfold claimCarriers
  rw [mem_foldl_insert, List.mem_map]
  simp

theorem eq_verifiedClaim {crypto : BlockCrypto} {B : Blocklace}
    {proof : VerifiedEquivocationEvidence}
    (h : verifyEquivocationEvidence crypto claim B = .ok proof) : proof = verifiedClaim claim :=
  (CordialMiners.verify_eq_ok.1 h).2

theorem intentPayload_verifiedClaim_iff {round : U64} {message : List Byte} :
    checkpointEquivocationAuthorizationPayload shardId round (verifiedClaim claim) = .ok message ↔
      IntentValid shardId round (verifiedClaim claim).canonicalBytes ∧
        message = claimMessage shardId round claim :=
  checkpointIntentPayload_eq_ok

/-- What a claim must satisfy to be admitted. -/
structure Admissible (env : PorEnv) (policy : FinalizedCheckpointAuthorization)
    (context : CheckpointEquivocationAuthorizationContext) (claim : CordialEquivocationEvidence) :
    Prop where
  source : context.source.validate = .ok ()
  verified : verifyEquivocationEvidence env.crypto claim policy.blocklace = .ok (verifiedClaim claim)
  intent : IntentValid context.shardId context.source.round (verifiedClaim claim).canonicalBytes
  authorized : policy.isAuthorized env context (verifiedClaim claim) = .ok true

theorem checkpointCapabilityPayload_eq_ok {offender : NodeId} {evidence payload : List Byte} :
    checkpointCapabilityPayload context offender evidence = .ok payload ↔
      context.source.validate = .ok () ∧
        IntentValid context.shardId context.source.round evidence ∧
        payload = intentLayout context.shardId context.source.round offender evidence ++
          sourceFields context.source := by
  unfold checkpointCapabilityPayload
  rw [check_eq_ok]
  simp only [bind_eq_ok, checkpointIntentPayload_eq_ok, Except.ok.injEq]
  constructor
  · rintro ⟨hsource, _, ⟨hvalid, rfl⟩, rfl⟩
    exact ⟨hsource, hvalid, rfl⟩
  · rintro ⟨hsource, hvalid, rfl⟩
    exact ⟨hsource, _, ⟨hvalid, rfl⟩, rfl⟩

theorem authorizeCheckpoint_eq_ok {proof : VerifiedEquivocationEvidence} :
    policy.authorizeCheckpoint env context proof = .ok () ↔
      policy.isAuthorized env context proof = .ok true := by
  unfold FinalizedCheckpointAuthorization.authorizeCheckpoint
  rw [bind_eq_ok]
  constructor
  · rintro ⟨authorized, hauthorized, h⟩
    split_ifs at h with htrue
    rw [hauthorized, htrue]
  · intro h
    exact ⟨true, h, if_pos rfl⟩

/-- **What a step of the loop over the claims does.** -/
theorem admit_eq_ok {admission out : Admission} :
    admitClaim env policy context admission claim = .ok out ↔
      Admissible env policy context claim ∧
        out = ⟨admission.selected.insert (claimMessage context.shardId context.source.round claim)
          (claimPenalty env.hasher context claim),
          admission.admitted.insert (claimCarrier context claim)⟩ := by
  unfold admitClaim EquivocationPenalty.authorizeCheckpoint
  simp only [bind_eq_ok, mapError_eq_ok,
    checkpointCapabilityPayload_eq_ok, Except.ok.injEq]
  constructor
  · rintro ⟨_, hverified, _, hmessage, _, ⟨_, ⟨hsource, hintent, rfl⟩, ⟨⟩, hauthorized, rfl⟩, rfl⟩
    obtain rfl := eq_verifiedClaim hverified
    obtain ⟨-, rfl⟩ := intentPayload_verifiedClaim_iff.1 hmessage
    exact ⟨⟨hsource, hverified, hintent, authorizeCheckpoint_eq_ok.1 hauthorized⟩, rfl⟩
  · rintro ⟨⟨hsource, hverified, hintent, hauthorized⟩, rfl⟩
    exact ⟨_, hverified, _, intentPayload_verifiedClaim_iff.2 ⟨hintent, rfl⟩, _,
      ⟨_, ⟨hsource, hintent, rfl⟩, (), authorizeCheckpoint_eq_ok.2 hauthorized, rfl⟩, rfl⟩

/-- **What the loop over the claims does.** -/
theorem foldlM_admit_eq_ok {start out : Admission} :
    raw.foldlM (admitClaim env policy context) start = .ok out ↔
      (∀ claim ∈ raw, Admissible env policy context claim) ∧
        out = ⟨start.selected.insertAll (claimMessage context.shardId context.source.round)
          (claimPenalty env.hasher context) raw,
          (raw.map (claimCarrier context)).foldl OrderedSet.insert start.admitted⟩ := by
  induction raw generalizing start with
  | nil =>
      rw [List.foldlM_nil]
      simp [OrderedMap.insertAll, pure, Except.pure, eq_comm]
  | cons claim raw ih =>
      rw [List.foldlM_cons, List.forall_mem_cons]
      simp only [bind_eq_ok, admit_eq_ok, ih]
      constructor
      · rintro ⟨_, ⟨hclaim, rfl⟩, hraw, rfl⟩
        exact ⟨⟨hclaim, hraw⟩, rfl⟩
      · rintro ⟨⟨hclaim, hraw⟩, rfl⟩
        exact ⟨_, ⟨hclaim, rfl⟩, hraw, rfl⟩

/-! ### The carriers that count -/

/-- A carrier that counts, with its claim. -/
structure CountsAs (env : PorEnv) (policy : FinalizedCheckpointAuthorization)
    (shardId : List Byte) (carrier : PorEquivocationAuthorization)
    (claim : CordialEquivocationEvidence) : Prop where
  carrier_eq : carrier = claimCarrier ⟨shardId, policy.checkpoint.ratingSource⟩ claim
  decoded : decodeCheckpointEquivocationAuthorizationPayload carrier.message shardId
    policy.checkpoint.porRound = .ok claim
  eligible : policy.eligibleOffender claim.validator = true
  verified : verifyEquivocationEvidence env.crypto claim policy.blocklace = .ok (verifiedClaim claim)
  intent : IntentValid shardId policy.checkpoint.porRound (verifiedClaim claim).canonicalBytes
  authorized : policy.isAuthorized env ⟨shardId, policy.checkpoint.ratingSource⟩
    (verifiedClaim claim) = .ok true

/-- **Which carriers count.** -/
theorem extractValidClaim_eq_some_iff :
    policy.extractValidClaim env carrier shardId = .ok (some claim) ↔
      CountsAs env policy shardId carrier claim := by
  unfold extractValidClaim
  constructor
  · intro h
    split_ifs at h with hfields
    · exact absurd h (by simp)
    split at h
    · exact absurd h (by simp)
    next found hdecode =>
    split_ifs at h with heligible
    · exact absurd h (by simp)
    split at h
    · exact absurd h (by simp)
    · exact absurd h (by simp)
    next proof hverified =>
    obtain rfl := eq_verifiedClaim hverified
    obtain ⟨message, hmessage, h⟩ := bind_eq_ok.1 h
    obtain ⟨hintent, rfl⟩ := intentPayload_verifiedClaim_iff.1 hmessage
    split_ifs at h with hne
    · exact absurd h (by simp)
    obtain ⟨authorized, hauthorized, h⟩ := bind_eq_ok.1 h
    split_ifs at h with htrue
    · obtain rfl := Option.some.inj (Except.ok.inj h)
      subst htrue
      simp only [not_or, not_not] at hfields
      obtain ⟨hshard, hwave, hround⟩ := hfields
      refine ⟨?_, hdecode, by simpa using heligible, hverified, hintent, hauthorized⟩
      obtain ⟨_, _, _, _⟩ := carrier
      simp only [claimCarrier, PorEquivocationAuthorization.mk.injEq]
      exact ⟨hshard, hwave, hround, (not_not.1 hne).symm⟩
    · exact absurd h (by simp)
  · rintro ⟨rfl, hdecode, heligible, hverified, hintent, hauthorized⟩
    rw [if_neg (by simp [claimCarrier, FinalizedPrefixCheckpoint.ratingSource]), hdecode]
    dsimp only
    rw [if_neg (by simp [heligible]), hverified]
    dsimp only
    refine bind_eq_ok.2 ⟨_, intentPayload_verifiedClaim_iff.2 ⟨hintent, rfl⟩, ?_⟩
    refine (if_neg (not_not.2 (Eq.refl _))).trans ?_
    exact bind_eq_ok.2 ⟨true, hauthorized, if_pos (Eq.refl _)⟩

/-- The claim of a carrier that counts is admissible. -/
theorem CountsAs.admissible (h : CountsAs env policy shardId carrier claim)
    (hsource : policy.checkpoint.ratingSource.validate = .ok ()) :
    Admissible env policy ⟨shardId, policy.checkpoint.ratingSource⟩ claim :=
  ⟨hsource, h.verified, h.intent, h.authorized⟩

variable {completed authorized : CompletedCheckpointRatingRound} {B : Blocklace}
  {output : OrderedFinalizedOutput} {membership : Bonds}

theorem mem_shardCarriers : carrier ∈ completed.shardCarriers shardId ↔
    carrier ∈ completed.finalizedAuthorizations ∧ carrier.shardId = shardId := by
  unfold shardCarriers
  rw [List.mem_filter, OrderedSet.mem_toList, decide_eq_true_eq]

/-- Collecting the items with a value. -/
theorem foldlM_collect_eq_ok {κ α ε : Type} [LinearOrder κ] {f : κ → Except ε (Option α)}
    {l : List κ} {start out : OrderedSet κ} :
    l.foldlM (fun s k => do
      let value ← f k
      .ok (if value.isSome then s.insert k else s)) start = .ok out ↔
      (∀ k ∈ l, ∃ value, f k = .ok value) ∧
        ∀ k, k ∈ out ↔ k ∈ start ∨ (k ∈ l ∧ ∃ a, f k = .ok (some a)) := by
  induction l generalizing start with
  | nil =>
      rw [List.foldlM_nil]
      constructor
      · intro h
        obtain rfl := Except.ok.inj h
        simp
      · rintro ⟨-, h⟩
        exact congrArg Except.ok (OrderedSet.ext_mem fun k => by simp [h])
  | cons k l ih =>
      rw [List.foldlM_cons, List.forall_mem_cons]
      simp only [bind_eq_ok, Except.ok.injEq]
      have hmem : ∀ {value : Option α} {k' : κ}, f k = .ok value →
          (k' ∈ (if value.isSome then start.insert k else start) ∨ (k' ∈ l ∧ ∃ a, f k' = .ok (some a)) ↔
            k' ∈ start ∨ (k' ∈ k :: l ∧ ∃ a, f k' = .ok (some a))) := by
        intro value k' hvalue
        cases value with
        | none =>
            simp only [Option.isSome_none, Bool.false_eq_true, if_false, List.mem_cons]
            constructor
            · rintro (h | h)
              · exact Or.inl h
              · exact Or.inr ⟨Or.inr h.1, h.2⟩
            · rintro (h | ⟨rfl | h, a, ha⟩)
              · exact Or.inl h
              · rw [hvalue] at ha
                exact absurd ha (by simp)
              · exact Or.inr ⟨h, a, ha⟩
        | some a =>
            simp only [Option.isSome_some, if_true, OrderedSet.mem_insert, List.mem_cons]
            constructor
            · rintro ((rfl | h) | h)
              · exact Or.inr ⟨Or.inl rfl, a, hvalue⟩
              · exact Or.inl h
              · exact Or.inr ⟨Or.inr h.1, h.2⟩
            · rintro (h | ⟨rfl | h, a', ha⟩)
              · exact Or.inl (Or.inr h)
              · exact Or.inl (Or.inl rfl)
              · exact Or.inr ⟨h, a', ha⟩
      constructor
      · rintro ⟨_, ⟨value, hvalue, rfl⟩, hrest⟩
        obtain ⟨hall, hout⟩ := ih.1 hrest
        exact ⟨⟨⟨value, hvalue⟩, hall⟩, fun k' => (hout k').trans (hmem hvalue)⟩
      · rintro ⟨⟨⟨value, hvalue⟩, hall⟩, hout⟩
        exact ⟨_, ⟨value, hvalue, rfl⟩, ih.2 ⟨hall, fun k' => (hout k').trans (hmem hvalue).symm⟩⟩

/-- **The set of the carriers that count.** -/
theorem validAuthorizations_eq_ok {valid : OrderedSet PorEquivocationAuthorization} :
    completed.validAuthorizations env policy shardId = .ok valid ↔
      (∀ carrier ∈ completed.shardCarriers shardId, ∃ claim,
        policy.extractValidClaim env carrier shardId = .ok claim) ∧
      ∀ carrier, carrier ∈ valid ↔ carrier ∈ completed.shardCarriers shardId ∧
        ∃ claim, CountsAs env policy shardId carrier claim := by
  unfold validAuthorizations
  rw [foldlM_collect_eq_ok]
  simp only [OrderedSet.not_mem_empty, false_or, extractValidClaim_eq_some_iff]

/-- The round after admission. -/
def CompletedCheckpointRatingRound.admitted (completed : CompletedCheckpointRatingRound)
    (hasher : List Byte → ContentHash) (raw : List CordialEquivocationEvidence)
    (shardId : List Byte) : CompletedCheckpointRatingRound :=
  { completed with
    penalties := some (penaltyEvents hasher (completed.context shardId) raw)
    admittedAuthorizations := claimCarriers (completed.context shardId) raw
    ignoredAuthorizations := keepMembers completed.finalizedAuthorizations fun carrier =>
      carrier.shardId = shardId && carrier ∉ claimCarriers (completed.context shardId) raw }

/-- Carriers of the round's shard: admitted and ignored account for all. -/
theorem validateComplete_admitted {hasher : List Byte → ContentHash}
    (h : ∀ carrier ∈ claimCarriers (completed.context shardId) raw,
      carrier ∈ completed.shardCarriers shardId) :
    (completed.admitted hasher raw shardId).validateCompleteAuthorizations shardId = .ok () := by
  unfold validateCompleteAuthorizations
  refine if_neg (not_or.2 ⟨?_, not_not.2 (OrderedSet.ext_mem fun carrier => ?_)⟩)
  · rw [List.any_eq_true]
    rintro ⟨carrier, hadmitted, hignored⟩
    have hmem := (mem_keepMembers.1 (of_decide_eq_true hignored)).2
    rw [OrderedSet.mem_toList] at hadmitted
    unfold CompletedCheckpointRatingRound.admitted at hadmitted
    simp [hadmitted] at hmem
  · rw [mem_keepMembers, mem_foldl_insert, OrderedSet.mem_toList]
    unfold CompletedCheckpointRatingRound.admitted
    simp only [mem_keepMembers, Bool.and_eq_true, decide_eq_true_eq]
    constructor
    · rintro ⟨hfinalized, hshard⟩
      by_cases hadmitted : carrier ∈ claimCarriers (completed.context shardId) raw
      · exact Or.inr hadmitted
      · exact Or.inl ⟨hfinalized, hshard, hadmitted⟩
    · rintro (⟨hfinalized, hshard, -⟩ | hadmitted)
      · exact ⟨hfinalized, hshard⟩
      · exact mem_shardCarriers.1 (h carrier hadmitted)

/-- **What admission accepts, and what it makes of it.** -/
theorem withAuthorizedEquivocations_eq_ok :
    completed.withAuthorizedEquivocations env raw B output membership shardId = .ok authorized ↔
      finalizedCheckpointAuthorizations env B output completed.checkpoint =
        .ok completed.finalizedAuthorizations ∧
      completed.validAuthorizations env (completed.policy B output membership) shardId =
        .ok (claimCarriers (completed.context shardId) raw) ∧
      (∀ claim ∈ raw, Admissible env (completed.policy B output membership)
        (completed.context shardId) claim) ∧
      (∃ commitment, penaltyEventsCommitment env.hasher completed.source.round
        (some (penaltyEvents env.hasher (completed.context shardId) raw)) = .ok commitment) ∧
      authorized = completed.admitted env.hasher raw shardId := by
  unfold withAuthorizedEquivocations
  simp only [bind_eq_ok, guard_eq_ok, not_not, foldlM_admit_eq_ok]
  constructor
  · rintro ⟨_, hfound, rfl, valid, hvalid, _, ⟨hall, rfl⟩, rfl, commitment, hcommitment, ⟨⟩, -, hout⟩
    exact ⟨hfound, hvalid, hall, ⟨commitment, hcommitment⟩, (Except.ok.inj hout).symm⟩
  · rintro ⟨hfound, hvalid, hall, ⟨commitment, hcommitment⟩, rfl⟩
    refine ⟨_, hfound, rfl, _, hvalid, _, ⟨hall, rfl⟩, rfl, commitment, hcommitment, (), ?_, rfl⟩
    refine validateComplete_admitted fun carrier hcarrier => ?_
    exact ((validAuthorizations_eq_ok.1 hvalid).2 carrier).1 hcarrier |>.1

/-- What is admitted is known once it is. -/
theorem withAuthorizedEquivocations_eq_admitted
    (h : (completed.withAuthorizedEquivocations env raw B output membership shardId).isOk = true) :
    completed.withAuthorizedEquivocations env raw B output membership shardId =
      .ok (completed.admitted env.hasher raw shardId) := by
  obtain ⟨authorized, hok⟩ := Codec.exists_eq_ok_of_isOk h
  rw [hok, (withAuthorizedEquivocations_eq_ok.1 hok).2.2.2.2]

end

/-! ### A sample window -/

open Blocklace (signedId listedCrypto)

/-- Two blocks of a creator with the same references. -/
def conflictClaim (creator : Byte) (hash round : ℕ) (predecessors : List BlockIdentity) :
    CordialEquivocationEvidence :=
  ⟨⟨[creator]⟩, round, [⟨signedId hash creator, ⟨[1], predecessors⟩⟩,
    ⟨signedId (hash + 1) creator, ⟨[2], predecessors⟩⟩]⟩

/-- The payload that publishes claims in the shard `[9]` for round `1`. -/
def carrierPayload (claims : List CordialEquivocationEvidence) : List Byte :=
  CordialBlockPayload.payloadV2 ++ carrierSerde.serialize
    ⟨claims.map fun claim => ⟨[9], 0, 1, claimMessage [9] 1 claim⟩, ⟨[], [], [], 0⟩, [], [], []⟩

/-- A chain of sixteen blocks of creator `3`, the last one with a payload. -/
def windowChain (terminal : ℕ) (payload : List Byte) : List Block :=
  ⟨signedId 1 3, ⟨[], []⟩⟩ ::
    ((List.range 14).map fun k => ⟨signedId (k + 2) 3, ⟨[], [signedId (k + 1) 3]⟩⟩) ++
    [⟨signedId terminal 3, ⟨payload, [signedId 15 3]⟩⟩]

/-- The chain as a blocklace. -/
def windowBlocklace (terminal : ℕ) (payload : List Byte) : Blocklace :=
  (Blocklace.new 0).growBy (windowChain terminal payload)

/-- Its finalized prefix. -/
def windowOutput (terminal : ℕ) : OrderedFinalizedOutput :=
  ⟨(windowChain terminal []).map Block.identity, some (signedId terminal 3), 1⟩

/-- The first checkpoint of that prefix. -/
def windowCheckpoint (terminal : ℕ) : FinalizedPrefixCheckpoint :=
  ⟨1, 16, finalizedPrefixHash sumHasher (windowOutput terminal).blocks, signedId terminal 3⟩

/-- Two keys of a fifth of the reputation and one of the rest. -/
def windowReputation : ReputationList :=
  ⟨0, [.new ⟨[1]⟩ 200000000, .new ⟨[2]⟩ 200000000, .new ⟨[3]⟩ 600000000]⟩

/-- The round of the sample window, with the carriers of the claims. -/
def windowRound (terminal : ℕ) (claims : List CordialEquivocationEvidence) :
    CompletedCheckpointRatingRound :=
  ⟨windowCheckpoint terminal, ⟨1, []⟩,
    claimCarriers ⟨[9], (windowCheckpoint terminal).ratingSource⟩ claims, .empty, .empty,
    windowReputation, none⟩

/-- The hashes of the sample window and of the claims in it. -/
def windowEnv (terminal : ℕ) (claims : List CordialEquivocationEvidence) : PorEnv where
  hasher := sumHasher
  crypto := listedCrypto (windowChain terminal (carrierPayload claims) ++
    claims.flatMap EquivocationEvidence.blocks)
  bincode := carrierBincode

end CordialMiners.Reputation
