/-
# The first carrier against an offender

Of the carriers against one validator only the first becomes its penalty.  So the penalties
of two sets of carriers are the same exactly where every validator has the same first carrier
in both (`Accounted.penaltyEvents_congr`,
`Accounted.firstAgainst_of_evidence`).
-/

import CordialMiners.Slashing.Completion
import CordialMiners.Slashing.Correlation

namespace CordialMiners.Reputation

/-- The carrier can be read, as a claim against the validator. -/
def Accuses (context : CheckpointEquivocationAuthorizationContext) (v : NodeId)
    (carrier : PorEquivocationAuthorization) : Prop :=
  ∃ claim, decodeCheckpointEquivocationAuthorizationPayload carrier.message context.shardId
    context.source.round = .ok claim ∧ claim.validator = v

/-- The first of some carriers against a validator. -/
structure FirstAgainst (context : CheckpointEquivocationAuthorizationContext)
    (carriers : PorEquivocationAuthorization → Prop) (v : NodeId)
    (carrier : PorEquivocationAuthorization) : Prop where
  mem : carriers carrier
  accuses : Accuses context v carrier
  least : ∀ other, carriers other → Accuses context v other → carrier.message ≤ other.message

/-- Two sets of carriers have the same first carrier against every validator. -/
def SameFirst (context : CheckpointEquivocationAuthorizationContext)
    (carriers carriers' : PorEquivocationAuthorization → Prop) : Prop :=
  ∀ v carrier, FirstAgainst context carriers v carrier ↔ FirstAgainst context carriers' v carrier

/-- Carriers of claims that can be read back from them. -/
structure Accounted (context : CheckpointEquivocationAuthorizationContext)
    (raw : List CordialEquivocationEvidence) (carriers : PorEquivocationAuthorization → Prop) :
    Prop where
  carriers_iff : ∀ carrier, carriers carrier ↔ ∃ claim ∈ raw, claimCarrier context claim = carrier
  intent : ∀ claim ∈ raw,
    IntentValid context.shardId context.source.round (verifiedClaim claim).canonicalBytes
  round : ∀ claim ∈ raw, claim.round < 2 ^ 64
  decoded : ∀ carrier, carriers carrier → ∃ claim,
    decodeCheckpointEquivocationAuthorizationPayload carrier.message context.shardId
      context.source.round = .ok claim ∧ carrier = claimCarrier context claim

variable {hasher : List Byte → ContentHash} {context : CheckpointEquivocationAuthorizationContext}
  {raw raw' : List CordialEquivocationEvidence}
  {carriers carriers' : PorEquivocationAuthorization → Prop} {claim a b : CordialEquivocationEvidence}
  {v : NodeId} {event : EquivocationPenalty} {carrier : PorEquivocationAuthorization}

/-! ### What is read from a carrier -/

/-- The round of a claim that was read is a `u64`. -/
theorem round_lt_of_decode {bytes shardId : List Byte} {round : U64}
    (h : decodeCheckpointEquivocationAuthorizationPayload bytes shardId round = .ok claim) :
    claim.round < 2 ^ 64 := by
  obtain ⟨proof, hproof, -⟩ := decodeAuthorization_eq_ok.1 h
  obtain ⟨-, hsized, -⟩ := decodeEquivocationEvidence_eq_ok.1 hproof
  exact hsized.round.trans_le (by norm_num)

namespace Accounted

/-- Claims with one carrier have one penalty. -/
theorem penalty_eq (h : Accounted context raw carriers) (h' : Accounted context raw' carriers')
    (ha : a ∈ raw) (hb : b ∈ raw') (heq : claimCarrier context a = claimCarrier context b) :
    claimPenalty hasher context a = claimPenalty hasher context b :=
  claimPenalty_congr (h.intent a ha) (h'.intent b hb) (h.round a ha) (h'.round b hb)
    (congrArg PorEquivocationAuthorization.message heq)

/-- The carrier of a claim accuses its validator, and no other. -/
theorem accuses_iff (h : Accounted context raw carriers) (ha : a ∈ raw) :
    Accuses context v (claimCarrier context a) ↔ a.validator = v := by
  obtain ⟨claim, hdecode, heq⟩ := h.decoded _ ((h.carriers_iff _).2 ⟨a, ha, rfl⟩)
  have hpenalty : claimPenalty (fun _ => 0) context a = claimPenalty (fun _ => 0) context claim :=
    claimPenalty_congr (h.intent a ha) (intentValid_of_decode hdecode) (h.round a ha)
      (round_lt_of_decode hdecode) (congrArg PorEquivocationAuthorization.message heq)
  have hvalidator : a.validator = claim.validator := congrArg EquivocationPenalty.offender hpenalty
  unfold Accuses
  rw [hdecode, hvalidator]
  simp

/-- **An offender's event is that of the first carrier against it.** -/
theorem lookup_iff (h : Accounted context raw carriers) :
    (eventsByOffender (selectedEvents hasher context raw)).lookup v = some event ↔
      ∃ a ∈ raw, FirstAgainst context carriers v (claimCarrier context a) ∧
        claimPenalty hasher context a = event := by
  have hone : ∀ a ∈ raw, ∀ b ∈ raw, claimMessage context.shardId context.source.round a =
      claimMessage context.shardId context.source.round b →
        claimPenalty hasher context a = claimPenalty hasher context b := fun a ha b hb =>
    claimPenalty_congr (h.intent a ha) (h.intent b hb) (h.round a ha) (h.round b hb)
  rw [lookup_eventsByOffender_iff hone]
  constructor
  · rintro ⟨a, ha, hvalidator, hevent, hleast⟩
    refine ⟨a, ha, ⟨(h.carriers_iff _).2 ⟨a, ha, rfl⟩, (h.accuses_iff ha).2 hvalidator, ?_⟩, hevent⟩
    intro other hother haccuses
    obtain ⟨b, hb, rfl⟩ := (h.carriers_iff other).1 hother
    exact hleast b hb ((h.accuses_iff hb).1 haccuses)
  · rintro ⟨a, ha, hfirst, hevent⟩
    refine ⟨a, ha, (h.accuses_iff ha).1 hfirst.accuses, hevent, fun b hb hvalidator => ?_⟩
    exact hfirst.least _ ((h.carriers_iff _).2 ⟨b, hb, rfl⟩) ((h.accuses_iff hb).2 hvalidator)

/-- Where the first carriers are the same, an event of the one is one of the other. -/
theorem lookup_of_sameFirst (h : Accounted context raw carriers)
    (h' : Accounted context raw' carriers') (hsame : SameFirst context carriers carriers')
    (hevent : (eventsByOffender (selectedEvents hasher context raw)).lookup v = some event) :
    (eventsByOffender (selectedEvents hasher context raw')).lookup v = some event := by
  obtain ⟨a, ha, hfirst, rfl⟩ := h.lookup_iff.1 hevent
  have hfirst' := (hsame v _).1 hfirst
  obtain ⟨b, hb, hcarrier⟩ := (h'.carriers_iff _).1 hfirst'.mem
  exact h'.lookup_iff.2 ⟨b, hb, hcarrier ▸ hfirst', h'.penalty_eq h hb ha hcarrier⟩

/-- **The first carriers decide the penalties.** -/
theorem penaltyEvents_congr (h : Accounted context raw carriers)
    (h' : Accounted context raw' carriers') (hsame : SameFirst context carriers carriers') :
    penaltyEvents hasher context raw = penaltyEvents hasher context raw' := by
  have hmap : eventsByOffender (selectedEvents hasher context raw) =
      eventsByOffender (selectedEvents hasher context raw') := by
    refine OrderedMap.ext_lookup fun v => Option.ext fun event => ⟨?_, ?_⟩
    · exact h.lookup_of_sameFirst h' hsame
    · exact h'.lookup_of_sameFirst h fun v carrier => (hsame v carrier).symm
  unfold penaltyEvents
  rw [hmap]

/-- Where the penalties hold the same evidence, a first carrier of the one is one of the
other. -/
theorem firstAgainst_of_evidence (h : Accounted context raw carriers)
    (h' : Accounted context raw' carriers')
    (hevidence : ∀ event ∈ (penaltyEvents hasher context raw).equivocations,
      ∃ event' ∈ (penaltyEvents hasher context raw').equivocations,
        event'.offender = event.offender ∧ event'.evidence = event.evidence)
    (hfirst : FirstAgainst context carriers v carrier) : FirstAgainst context carriers' v carrier := by
  obtain ⟨a, ha, rfl⟩ := (h.carriers_iff carrier).1 hfirst.mem
  have hlookup : (eventsByOffender (selectedEvents hasher context raw)).lookup v =
      some (claimPenalty hasher context a) := h.lookup_iff.2 ⟨a, ha, hfirst, rfl⟩
  obtain ⟨event, hevent, hoffender, hbytes⟩ := hevidence _ (OrderedMap.mem_values_iff.2 ⟨v, hlookup⟩)
  obtain ⟨w, hlookup'⟩ := OrderedMap.mem_values_iff.1 hevent
  obtain ⟨b, hb, hfirst', rfl⟩ := h'.lookup_iff.1 hlookup'
  have hv : a.validator = v := (h.accuses_iff ha).1 hfirst.accuses
  have hw : b.validator = w := (h'.accuses_iff hb).1 hfirst'.accuses
  have hoffender : b.validator = a.validator := hoffender
  have hbytes : (verifiedClaim b).canonicalBytes = (verifiedClaim a).canonicalBytes := hbytes
  have hcarrier : claimCarrier context b = claimCarrier context a := by
    unfold claimCarrier claimMessage
    rw [hoffender, hbytes]
  rw [← hv, ← hoffender, hw, ← hcarrier]
  exact hfirst'

end Accounted

end CordialMiners.Reputation
