/-
# Nodes with different views agree on penalties

Admission looks at the node's own blocklace in four places: the blocks of the
window, the ancestry of the evidence, the depth of a publication and the depth a
conflicting block would have.  Each of these is the same in two closed parts of one
set of blocks, once both have an answer.  A node without an answer stops.  So two
nodes that finish the round count the same carriers (`extractValidClaim_agree`) and
make the same penalties of them (`views_agree_on_penalties`).
-/

import CordialMiners.Slashing.Admission
import CordialMiners.Evidence.Views

namespace CordialMiners.Reputation

open Codec (bind_eq_ok anyM_agree)
open Blocklace (PartOf)
open FinalizedCheckpointAuthorization CompletedCheckpointRatingRound

/-- The same checkpoint, seen in another blocklace. -/
def FinalizedCheckpointAuthorization.inView (policy : FinalizedCheckpointAuthorization)
    (B : Blocklace) : FinalizedCheckpointAuthorization := { policy with blocklace := B }

section Agree

variable {env : PorEnv} {S : Set Block} {B B' : Blocklace}
  {policy : FinalizedCheckpointAuthorization}
  {context : CheckpointEquivocationAuthorizationContext} {proof : VerifiedEquivocationEvidence}
  {shardId : List Byte} {carrier : PorEquivocationAuthorization}
  (hS : DistinctBlocks S) (h : PartOf S B) (h' : PartOf S B')

include hS h h'

theorem tooNew_agree {depth : ℕ} {block : Block} {newer newer' : Bool}
    (hok : (policy.inView B).tooNew depth block = .ok newer)
    (hok' : (policy.inView B').tooNew depth block = .ok newer') : newer = newer' := by
  unfold tooNew at hok hok'
  simp only [bind_eq_ok, okOr_eq_ok, Blocklace.candidateDepth_eq_some_iff,
    Except.ok.injEq] at hok hok'
  obtain ⟨d, hd, rfl⟩ := hok
  obtain ⟨d', hd', rfl⟩ := hok'
  rw [h.candidateRound_unique hS h' hd hd']

/-- A block of the window publishes an authorization in both views or in none. -/
theorem publishes_agree {expected : List Byte} {id : BlockIdentity} {found found' : Bool}
    (hok : (policy.inView B).publishes env context proof expected id = .ok found)
    (hok' : (policy.inView B').publishes env context proof expected id = .ok found') :
    found = found' := by
  unfold publishes at hok hok'
  obtain ⟨block, hblock, hok⟩ := bind_eq_ok.1 hok
  obtain ⟨block', hblock', hok'⟩ := bind_eq_ok.1 hok'
  obtain rfl := h.eq_of_get hS h' (okOr_eq_ok.1 hblock) (okOr_eq_ok.1 hblock')
  obtain ⟨carriers, hcarriers, hok⟩ := bind_eq_ok.1 hok
  obtain ⟨carriers', hcarriers', hok'⟩ := bind_eq_ok.1 hok'
  obtain rfl := Except.ok.inj (hcarriers.symm.trans hcarriers')
  have hmembership : (policy.inView B').membership = (policy.inView B).membership := rfl
  rw [hmembership] at hok'
  split_ifs at hok hok' with hcarried hbad
  · exact (Except.ok.inj hok).symm.trans (Except.ok.inj hok')
  · obtain ⟨depth, hdepth, hok⟩ := bind_eq_ok.1 hok
    obtain ⟨depth', hdepth', hok'⟩ := bind_eq_ok.1 hok'
    rw [okOr_eq_ok, Blocklace.depth_eq_some_iff] at hdepth hdepth'
    obtain rfl := h.roundOf_unique hS h' hdepth hdepth'
    obtain ⟨newer, hnewer, hok⟩ := bind_eq_ok.1 hok
    obtain ⟨newer', hnewer', hok'⟩ := bind_eq_ok.1 hok'
    obtain rfl := anyM_agree (fun block _ _ _ => tooNew_agree hS h h') hnewer hnewer'
    exact (Except.ok.inj hok).symm.trans (Except.ok.inj hok')
  · exact (Except.ok.inj hok).symm.trans (Except.ok.inj hok')

/-- **An authorization is published in both views or in none.** -/
theorem isAuthorized_agree {found found' : Bool}
    (hok : (policy.inView B).isAuthorized env context proof = .ok found)
    (hok' : (policy.inView B').isAuthorized env context proof = .ok found') : found = found' := by
  unfold isAuthorized at hok hok'
  have hcheckpoint : (policy.inView B').checkpoint = (policy.inView B).checkpoint := rfl
  have heligible : (policy.inView B').eligibleOffender = (policy.inView B).eligibleOffender := rfl
  rw [hcheckpoint, heligible] at hok'
  split_ifs at hok hok' with hsource hoffender
  · exact (Except.ok.inj hok).symm.trans (Except.ok.inj hok')
  · obtain ⟨expected, hexpected, hok⟩ := bind_eq_ok.1 hok
    obtain ⟨expected', hexpected', hok'⟩ := bind_eq_ok.1 hok'
    obtain rfl := Except.ok.inj (hexpected.symm.trans hexpected')
    obtain ⟨ids, hids, hok⟩ := bind_eq_ok.1 hok
    obtain ⟨ids', hids', hok'⟩ := bind_eq_ok.1 hok'
    obtain ⟨-, rfl⟩ := window_eq_ok.1 hids
    obtain ⟨-, rfl⟩ := window_eq_ok.1 hids'
    exact anyM_agree (fun id _ _ _ => publishes_agree hS h h') hok hok'

/-- A carrier that counts in one view counts in any other that finishes with it. -/
theorem CountsAs.agree {claim : CordialEquivocationEvidence}
    {found : Option CordialEquivocationEvidence}
    (hcounts : CountsAs env (policy.inView B) shardId carrier claim)
    (hok : (policy.inView B').extractValidClaim env carrier shardId = .ok found) :
    found = some claim := by
  have hfields : ¬ (carrier.shardId ≠ shardId ∨ carrier.sourceFinalizedWave ≠ 0 ∨
      carrier.round ≠ (policy.inView B').checkpoint.porRound.val) := by
    rw [hcounts.carrier_eq]
    simp [claimCarrier, FinalizedPrefixCheckpoint.ratingSource, inView]
  have heligible : (policy.inView B').eligibleOffender claim.validator = true := hcounts.eligible
  have hdecode : decodeCheckpointEquivocationAuthorizationPayload carrier.message shardId
      (policy.inView B').checkpoint.porRound = .ok claim := hcounts.decoded
  unfold extractValidClaim at hok
  rw [if_neg hfields, hdecode] at hok
  dsimp only at hok
  rw [if_neg (by simp [heligible])] at hok
  -- the other view verifies the claim as well, or would have stopped
  obtain hverified | hmissing : verifyEquivocationEvidence env.crypto claim B' =
      .ok (verifiedClaim claim) ∨ verifyEquivocationEvidence env.crypto claim B' =
      .error .missingHistory := verify_ok_or_missing hS h h' hcounts.verified
  · have hblocklace : (policy.inView B').blocklace = B' := rfl
    rw [hblocklace, hverified] at hok
    obtain ⟨message, hmessage, hok⟩ := bind_eq_ok.1 hok
    obtain ⟨-, rfl⟩ := intentPayload_verifiedClaim_iff.1 hmessage
    rw [if_neg (not_not.2 (by rw [hcounts.carrier_eq]; rfl))] at hok
    obtain ⟨authorized, hauthorized, hok⟩ := bind_eq_ok.1 hok
    obtain rfl : true = authorized := isAuthorized_agree hS h h' hcounts.authorized hauthorized
    exact (Except.ok.inj hok).symm
  · have hblocklace : (policy.inView B').blocklace = B' := rfl
    rw [hblocklace, hmissing] at hok
    exact absurd hok (by simp)

end Agree

/-- **Two views that finish with a carrier make the same of it.** -/
theorem extractValidClaim_agree {env : PorEnv} {S : Set Block} {B B' : Blocklace}
    {policy : FinalizedCheckpointAuthorization} {shardId : List Byte}
    {carrier : PorEquivocationAuthorization} {found found' : Option CordialEquivocationEvidence}
    (hS : DistinctBlocks S) (h : PartOf S B) (h' : PartOf S B')
    (hok : (policy.inView B).extractValidClaim env carrier shardId = .ok found)
    (hok' : (policy.inView B').extractValidClaim env carrier shardId = .ok found') :
    found = found' := by
  cases found with
  | some claim => exact (CountsAs.agree hS h h' (extractValidClaim_eq_some_iff.1 hok) hok').symm
  | none =>
      cases found' with
      | none => rfl
      | some claim =>
          exact CountsAs.agree hS h' h (extractValidClaim_eq_some_iff.1 hok') hok

/-- A closed part of a blocklace, without a checkpoint. -/
theorem partOf_of_subset {B B₁ : Blocklace} (hclosed : B₁.isClosed = true)
    (hcheckpoint : B₁.checkpoint = none) (hsub : ∀ b, B₁.Stores b → B.Stores b) :
    PartOf {b | B.Stores b} B₁ :=
  ⟨hsub, fun b hb p hp => Blocklace.isClosed_iff.1 hclosed b.identity b.content hb
    (by simp [hcheckpoint]) p hp, hcheckpoint⟩

theorem distinctBlocks_stores (B : Blocklace) : DistinctBlocks {b | B.Stores b} :=
  fun _ ha _ hb heq => Blocklace.Stores.eq_of_consensusIdentity ha hb heq

/-- The carriers found in a window do not depend on the view. -/
theorem finalizedCheckpointAuthorizations_agree {env : PorEnv} {S : Set Block} {B B' : Blocklace}
    {output : OrderedFinalizedOutput} {checkpoint : FinalizedPrefixCheckpoint}
    {found found' : OrderedSet PorEquivocationAuthorization} (hS : DistinctBlocks S)
    (h : PartOf S B) (h' : PartOf S B')
    (hok : finalizedCheckpointAuthorizations env B output checkpoint = .ok found)
    (hok' : finalizedCheckpointAuthorizations env B' output checkpoint = .ok found') :
    found = found' := by
  obtain ⟨-, hread, hmem⟩ := finalizedCheckpointAuthorizations_eq_ok.1 hok
  obtain ⟨-, hread', hmem'⟩ := finalizedCheckpointAuthorizations_eq_ok.1 hok'
  refine OrderedSet.ext_mem fun carrier => ?_
  rw [hmem, hmem']
  refine and_congr_right fun _ => exists_congr fun id => and_congr_right fun hid => ?_
  obtain ⟨block, carriers, hblock, -⟩ := hread id hid
  obtain ⟨block', carriers', hblock', -⟩ := hread' id hid
  obtain rfl := h.eq_of_get hS h' hblock hblock'
  simp only [hblock, hblock']

/-- **Nodes with different views agree on penalties.** -/
theorem views_agree_on_penalties {env : PorEnv} {B B₁ B₂ : Blocklace}
    {output : OrderedFinalizedOutput} {membership : Bonds} {shardId : List Byte}
    {completed₁ completed₂ authorized₁ authorized₂ : CompletedCheckpointRatingRound}
    (hclosed₁ : B₁.isClosed = true) (hclosed₂ : B₂.isClosed = true)
    (hcheckpoint₁ : B₁.checkpoint = none) (hcheckpoint₂ : B₂.checkpoint = none)
    (hsub₁ : ∀ b, B₁.Stores b → B.Stores b) (hsub₂ : ∀ b, B₂.Stores b → B.Stores b)
    (hcheckpoint : completed₁.checkpoint = completed₂.checkpoint)
    (hpreceding : completed₁.precedingReputation = completed₂.precedingReputation)
    (h₁ : completed₁.withFinalizedEquivocations env B₁ output membership shardId =
      .ok authorized₁)
    (h₂ : completed₂.withFinalizedEquivocations env B₂ output membership shardId =
      .ok authorized₂) :
    authorized₁.penalties = authorized₂.penalties ∧
      authorized₁.admittedAuthorizations = authorized₂.admittedAuthorizations ∧
      authorized₁.ignoredAuthorizations = authorized₂.ignoredAuthorizations := by
  have hS := distinctBlocks_stores B
  have hpart₁ := partOf_of_subset hclosed₁ hcheckpoint₁ hsub₁
  have hpart₂ := partOf_of_subset hclosed₂ hcheckpoint₂ hsub₂
  unfold withFinalizedEquivocations at h₁ h₂
  obtain ⟨claims₁, hclaims₁, h₁⟩ := bind_eq_ok.1 h₁
  obtain ⟨claims₂, hclaims₂, h₂⟩ := bind_eq_ok.1 h₂
  obtain ⟨hfound₁, -, -, -, rfl⟩ := withAuthorizedEquivocations_eq_ok.1 h₁
  obtain ⟨hfound₂, -, -, -, rfl⟩ := withAuthorizedEquivocations_eq_ok.1 h₂
  rw [hcheckpoint] at hfound₁
  have hfinalized := finalizedCheckpointAuthorizations_agree hS hpart₁ hpart₂ hfound₁ hfound₂
  have hcontext : completed₁.context shardId = completed₂.context shardId := by
    unfold context source
    rw [hcheckpoint]
  have hpolicy : ∀ B, completed₁.policy B output membership =
      (completed₂.policy B₂ output membership).inView B := by
    intro B
    unfold CompletedCheckpointRatingRound.policy inView
    rw [hcheckpoint, hpreceding]
  have hcarriers : completed₁.shardCarriers shardId = completed₂.shardCarriers shardId := by
    unfold shardCarriers
    rw [hfinalized]
  have hclaims : claims₁ = claims₂ := by
    rw [hcarriers, hpolicy] at hclaims₁
    exact Codec.mapM_agree (fun _ _ _ _ => extractValidClaim_agree hS hpart₁ hpart₂) hclaims₁
      hclaims₂
  subst hclaims
  unfold CompletedCheckpointRatingRound.admitted
  dsimp only
  rw [hcontext, hfinalized]
  exact ⟨rfl, rfl, rfl⟩

open Blocklace (signedId sampleId threeBonds)

/-- A conflict of creator `1`. -/
def viewClaims : List CordialEquivocationEvidence := [conflictClaim 1 31 1 [sampleId 1 3]]

/-- The view of a node that has the window only. -/
def narrowView : Blocklace := windowBlocklace 16 (carrierPayload viewClaims)

/-- The view of a node that also has a block of the offender. -/
def wideView : Blocklace :=
  narrowView.growBy [⟨signedId 31 1, ⟨[1], [signedId 1 3]⟩⟩]

/-- Both count the carrier of the window. -/
theorem views_agree_on_penalties_narrowView :
    ∃ authorized₁ authorized₂ : CompletedCheckpointRatingRound,
      (windowRound 16 viewClaims).withFinalizedEquivocations (windowEnv 16 viewClaims) narrowView
        (windowOutput 16) threeBonds [9] = .ok authorized₁ ∧
      (windowRound 16 viewClaims).withFinalizedEquivocations (windowEnv 16 viewClaims) wideView
        (windowOutput 16) threeBonds [9] = .ok authorized₂ ∧
      authorized₁.penalties = authorized₂.penalties ∧
      authorized₁.admittedAuthorizations = authorized₂.admittedAuthorizations ∧
      authorized₁.ignoredAuthorizations = authorized₂.ignoredAuthorizations := by
  have hok₁ : ((windowRound 16 viewClaims).withFinalizedEquivocations (windowEnv 16 viewClaims)
      narrowView (windowOutput 16) threeBonds [9]).isOk = true := by decide +kernel
  have hok₂ : ((windowRound 16 viewClaims).withFinalizedEquivocations (windowEnv 16 viewClaims)
      wideView (windowOutput 16) threeBonds [9]).isOk = true := by decide +kernel
  obtain ⟨authorized₁, h₁⟩ := Codec.exists_eq_ok_of_isOk hok₁
  obtain ⟨authorized₂, h₂⟩ := Codec.exists_eq_ok_of_isOk hok₂
  have hnew : signedId 31 1 ∉ narrowView.blocks := by decide +kernel
  have hsub : ∀ b, narrowView.Stores b → wideView.Stores b := fun b hb =>
    ((Blocklace.insert_ok (Blocklace.insert_growBy _ (by decide +kernel))).stores_iff hnew).2
      (Or.inl hb)
  exact ⟨authorized₁, authorized₂, h₁, h₂, views_agree_on_penalties (by decide +kernel)
    (by decide +kernel) (by decide +kernel) (by decide +kernel) hsub (fun _ hb => hb) rfl rfl h₁ h₂⟩

end CordialMiners.Reputation
