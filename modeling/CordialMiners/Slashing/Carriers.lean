/-
# Carriers of authorizations

`por_authorizations_from_bytes` of `execution/payload.rs`, the payload of an
authorization in `cordial-por/src/evidence.rs` and
`finalized_checkpoint_authorizations` of `por/checkpoint_evidence.rs`.

A carrier in the payload of a block asks for a penalty; its message is the bytes of
the evidence, with the shard, the round and the offender it is for.  The carriers
of a window are collected before anything in them is believed.  A payload behind
the marker `PAYLOAD_V2` must be read to its end, or there is no collection at all
(`finalizedCheckpointAuthorizations_eq_ok`).
-/

import CordialMiners.Slashing.Window
import CordialMiners.Execution.Payload
import CordialMiners.Collections.OrderedMap

namespace CordialMiners

open Codec (Reader Decodes take beBytes ofBeBytes run_bind_eq_ok run_pure_eq_ok
  run_guard_eq_ok bind_eq_ok mapError_eq_ok)

/-- The fields in the order the derived `Ord` compares them. -/
def PorEquivocationAuthorization.toLexKey (carrier : PorEquivocationAuthorization) :
    List Byte ×ₗ ℕ ×ₗ ℕ ×ₗ List Byte :=
  toLex (carrier.shardId, toLex (carrier.sourceFinalizedWave, toLex (carrier.round, carrier.message)))

theorem PorEquivocationAuthorization.toLexKey_injective :
    Function.Injective PorEquivocationAuthorization.toLexKey := by
  intro a b h
  have h₁ := congrArg ofLex h
  simp only [toLexKey, ofLex_toLex, Prod.mk.injEq, EmbeddingLike.apply_eq_iff_eq] at h₁
  obtain ⟨hs, hw, hr, hm⟩ := h₁
  cases a
  cases b
  simp_all

instance : LinearOrder PorEquivocationAuthorization :=
  LinearOrder.lift' PorEquivocationAuthorization.toLexKey
    PorEquivocationAuthorization.toLexKey_injective

/-- `por_authorizations_from_bytes`: only a marked payload carries any. -/
def CordialBlockPayload.porAuthorizationsFromBytes (bincode : Bincode) (bytes : List Byte) :
    Except String (List PorEquivocationAuthorization) :=
  if payloadV2.isPrefixOf bytes then
    (fromBytes bincode bytes).map CordialBlockPayload.porAuthorizations
  else .ok []

/-- The text of the error. -/
def EvidenceVerificationError.text (error : EvidenceVerificationError) : String :=
  "invalid Cordial equivocation evidence: " ++
    match error with
    | .tooFewBlocks => "TooFewBlocks"
    | .malformedEncoding => "MalformedEncoding"
    | .wrongCreator => "WrongCreator"
    | .invalidHash => "InvalidHash"
    | .invalidSignature => "InvalidSignature"
    | .duplicateBlock => "DuplicateBlock"
    | .invalidBlock => "InvalidBlock"
    | .missingHistory => "MissingHistory"
    | .wrongRound => "WrongRound"
    | .comparableBlocks => "ComparableBlocks"

namespace Reputation

/-- `invalid` of `checkpoint_evidence.rs`. -/
def invalid (message : String) : PorError := .invalidPenaltyEvents message

/-! ### The message of a carrier -/

/-- `checkpoint_equivocation_authorization_payload`. -/
def checkpointEquivocationAuthorizationPayload (shardId : List Byte) (round : U64)
    (evidence : VerifiedEquivocationEvidence) : Except PorError (List Byte) :=
  checkpointIntentPayload shardId round evidence.validator evidence.canonicalBytes

/-- The one error of a malformed message. -/
def malformedAuthorization : PorError := .invalidPenaltyEvents "malformed checkpoint authorization"

abbrev AuthorizationReader := Reader Byte PorError

namespace AuthorizationReader

/-- `number`. -/
def number : AuthorizationReader ℕ := ofBeBytes <$> take malformedAuthorization 8

/-- `field`: a byte string of bounded length. -/
def field (max : ℕ) : AuthorizationReader (List Byte) := do
  let n ← number
  if n > max then throw malformedAuthorization else take malformedAuthorization n

/-- Shard, round, offender and evidence; the first two must be the given ones. -/
def authorization (shardId : List Byte) (round : U64) : AuthorizationReader (NodeId × List Byte) := do
  let shard ← field maxShardIdLen
  if shard ≠ shardId then throw malformedAuthorization
  else
    let found ← number
    if found ≠ round.val then throw malformedAuthorization
    else
      let offender ← field maxNodeIdLen
      let proof ← field maxPenaltyEvidenceLen
      pure (⟨offender⟩, proof)

end AuthorizationReader

/-- `decode_checkpoint_equivocation_authorization_payload`. -/
def decodeCheckpointEquivocationAuthorizationPayload (bytes shardId : List Byte) (round : U64) :
    Except PorError CordialEquivocationEvidence :=
  match checkpointEquivocationAuthorizationDomain.isPrefixOf? bytes with
  | none => .error malformedAuthorization
  | some input => do
      let ((offender, proof), rest) ← (AuthorizationReader.authorization shardId round).run input
      if rest ≠ [] then .error malformedAuthorization
      else
        let intent ← checkpointIntentPayload shardId round offender proof
        if intent ≠ bytes then .error malformedAuthorization
        else
          let raw ← (decodeEquivocationEvidence proof).mapError fun error =>
            .invalidPenaltyEvents error.text
          if raw.validator ≠ offender then .error malformedAuthorization else .ok raw

/-- The bytes of an intent. -/
def intentLayout (shardId : List Byte) (round : U64) (offender : NodeId) (evidence : List Byte) :
    List Byte :=
  checkpointEquivocationAuthorizationDomain ++ (putBytes shardId ++ (beBytes 8 round.val ++
    (putBytes offender.bytes ++ putBytes evidence)))

/-- An intent within the limits. -/
structure IntentValid (shardId : List Byte) (round : U64) (evidence : List Byte) : Prop where
  shard : ShardIdValid shardId
  round_ne : round ≠ 0
  checkpoint : round.val * finalizedBlocksPerCheckpoint < 2 ^ 64
  evidence_ne : evidence ≠ []
  evidence_le : evidence.length ≤ maxPenaltyEvidenceLen

variable {shardId bytes evidence : List Byte} {round : U64} {offender : NodeId}
  {raw : CordialEquivocationEvidence}

theorem checkpointIntentPayload_eq_ok :
    checkpointIntentPayload shardId round offender evidence = .ok bytes ↔
      IntentValid shardId round evidence ∧ bytes = intentLayout shardId round offender evidence := by
  have hmul : checkedMul64 round finalizedBlocksPerCheckpoint ≠ none ↔
      round.val * finalizedBlocksPerCheckpoint < 2 ^ 64 := by
    unfold checkedMul64
    split_ifs with hlt
    · exact iff_of_true (by simp) hlt
    · exact iff_of_false (by simp) hlt
  have hlayout : checkpointEquivocationAuthorizationDomain ++ putBytes shardId ++
      beBytes 8 round.val ++ putBytes offender.bytes ++ putBytes evidence =
      intentLayout shardId round offender evidence := by
    simp only [intentLayout, List.append_assoc]
  unfold checkpointIntentPayload
  rw [Codec.guard_eq_ok, hlayout, Except.ok.injEq]
  refine and_congr ?_ eq_comm
  simp only [not_or, not_lt, ← ne_eq, hmul]
  constructor
  · rintro ⟨hshard, hlen, hround, hcheckpoint, hevidence, hsize⟩
    exact ⟨⟨hshard, hlen⟩, hround, hcheckpoint, hevidence, hsize⟩
  · rintro ⟨⟨hshard, hlen⟩, hround, hcheckpoint, hevidence, hsize⟩
    exact ⟨hshard, hlen, hround, hcheckpoint, hevidence, hsize⟩

namespace AuthorizationReader

theorem decodes_number : Decodes number (beBytes 8) (· < 256 ^ 8) := Codec.decodes_number _ 8

theorem decodes_field {max : ℕ} (hmax : max < 256 ^ 8) :
    Decodes (field max) putBytes fun bytes => bytes.length ≤ max := by
  have hread : ∀ n, Decodes (if n > max then throw malformedAuthorization
      else take malformedAuthorization n : AuthorizationReader (List Byte)) id
      fun bytes => bytes.length = n ∧ bytes.length ≤ max := by
    intro n input bytes rest
    rw [run_guard_eq_ok, not_lt, Codec.decodes_take _ n input bytes rest]
    constructor
    · rintro ⟨hle, rfl, rfl⟩
      exact ⟨⟨rfl, hle⟩, rfl⟩
    · rintro ⟨⟨rfl, hle⟩, rfl⟩
      exact ⟨hle, rfl, rfl⟩
  refine (decodes_number.sized hread).congr fun bytes => ?_
  rw [and_iff_right_iff_imp]
  exact fun hle => hle.trans_lt hmax

theorem authorization_run_eq_ok {input proof rest : List Byte} :
    (authorization shardId round).run input = .ok ((offender, proof), rest) ↔
      shardId.length ≤ maxShardIdLen ∧ offender.bytes.length ≤ maxNodeIdLen ∧
        proof.length ≤ maxPenaltyEvidenceLen ∧
        input = putBytes shardId ++ (beBytes 8 round.val ++ (putBytes offender.bytes ++
          (putBytes proof ++ rest))) := by
  have hshard : Decodes (field maxShardIdLen) putBytes _ := decodes_field (by decide)
  have hnode : Decodes (field maxNodeIdLen) putBytes _ := decodes_field (by decide)
  have hproof : Decodes (field maxPenaltyEvidenceLen) putBytes _ := decodes_field (by decide)
  have hround : round.val < 256 ^ 8 := round.isLt
  unfold authorization
  simp only [run_bind_eq_ok, run_guard_eq_ok, run_pure_eq_ok, not_not, Prod.mk.injEq]
  constructor
  · rintro ⟨_, mid, hs, rfl, _, mid', hr, rfl, o, mid'', ho, p, _, hp, ⟨rfl, rfl⟩, rfl⟩
    obtain ⟨hlen, rfl⟩ := (hshard _ _ _).1 hs
    obtain ⟨-, rfl⟩ := (decodes_number _ _ _).1 hr
    obtain ⟨hlen', rfl⟩ := (hnode _ _ _).1 ho
    obtain ⟨hlen'', rfl⟩ := (hproof _ _ _).1 hp
    exact ⟨hlen, hlen', hlen'', rfl⟩
  · rintro ⟨hlen, hlen', hlen'', rfl⟩
    exact ⟨shardId, _, hshard.run hlen _, rfl, round.val, _, decodes_number.run hround _, rfl,
      offender.bytes, _, hnode.run hlen' _, proof, rest, hproof.run hlen'' _, ⟨rfl, rfl⟩, rfl⟩

end AuthorizationReader

/-- **What the decoder accepts:** the intent of evidence that is read back, for an
offender whose identity is not too long. -/
theorem decodeAuthorization_eq_ok :
    decodeCheckpointEquivocationAuthorizationPayload bytes shardId round = .ok raw ↔
      ∃ proof, decodeEquivocationEvidence proof = .ok raw ∧ IntentValid shardId round proof ∧
        raw.validator.bytes.length ≤ maxNodeIdLen ∧
        bytes = intentLayout shardId round raw.validator proof := by
  unfold decodeCheckpointEquivocationAuthorizationPayload
  cases hdomain : checkpointEquivocationAuthorizationDomain.isPrefixOf? bytes with
  | none =>
      refine iff_of_false (by simp) ?_
      rintro ⟨proof, -, -, -, rfl⟩
      unfold intentLayout at hdomain
      rw [List.isPrefixOf?_eq_some_iff_append_eq.2 rfl] at hdomain
      exact absurd hdomain (by simp)
  | some input =>
      obtain rfl := List.isPrefixOf?_eq_some_iff_append_eq.1 hdomain
      simp only [bind_eq_ok, Codec.guard_eq_ok, mapError_eq_ok,
        not_not, Except.ok.injEq, Prod.exists, checkpointIntentPayload_eq_ok]
      constructor
      · rintro ⟨offender, proof, _, hrun, rfl, _, ⟨hvalid, rfl⟩, heq, _, hraw, rfl, rfl⟩
        obtain ⟨-, hnode, -, -⟩ := AuthorizationReader.authorization_run_eq_ok.1 hrun
        exact ⟨proof, hraw, hvalid, hnode, heq.symm⟩
      · rintro ⟨proof, hraw, hvalid, hnode, heq⟩
        refine ⟨raw.validator, proof, [], ?_, rfl, _, ⟨hvalid, rfl⟩, heq.symm, raw, hraw, rfl, rfl⟩
        refine AuthorizationReader.authorization_run_eq_ok.2
          ⟨hvalid.shard.2, hnode, hvalid.evidence_le, ?_⟩
        unfold intentLayout at heq
        rw [List.append_nil]
        exact List.append_cancel_left heq

/-- Intents for bounded identities differ in their bytes. -/
theorem intentLayout_inj {offender' : NodeId} {evidence' : List Byte}
    (hnode : offender.bytes.length < 256 ^ 8) (hnode' : offender'.bytes.length < 256 ^ 8)
    (hsize : evidence.length < 256 ^ 8) (hsize' : evidence'.length < 256 ^ 8)
    (heq : intentLayout shardId round offender evidence =
      intentLayout shardId round offender' evidence') :
    offender = offender' ∧ evidence = evidence' := by
  have heq' := List.append_cancel_left (List.append_cancel_left (List.append_cancel_left heq))
  obtain ⟨hoffender, hrest⟩ := EvidenceReader.decodes_bytes.append_inj hnode hnode' heq'
  have hrest' : putBytes evidence ++ [] = putBytes evidence' ++ [] := by rw [hrest]
  obtain ⟨rfl, -⟩ := EvidenceReader.decodes_bytes.append_inj hsize hsize' hrest'
  exact ⟨congrArg NodeId.mk hoffender, rfl⟩

/-! ### The carriers of a window -/

/-- What the code gets from the crypto module and from `bincode`. -/
structure PorEnv where
  /-- Blake2b-256. -/
  hasher : List Byte → ContentHash
  crypto : BlockCrypto
  bincode : Bincode

variable (env : PorEnv)

/-- The carriers of a block. -/
def blockCarriers (block : Block) : Except PorError (List PorEquivocationAuthorization) :=
  (CordialBlockPayload.porAuthorizationsFromBytes env.bincode block.content.payload).mapError invalid

/-- A carrier that asks for a penalty in the checkpoint's round. -/
def ForCheckpoint (checkpoint : FinalizedPrefixCheckpoint)
    (carrier : PorEquivocationAuthorization) : Prop :=
  checkpointEquivocationAuthorizationDomain.isPrefixOf carrier.message = true ∧
    carrier.sourceFinalizedWave = 0 ∧ carrier.round = checkpoint.porRound.val

instance (checkpoint : FinalizedPrefixCheckpoint) (carrier : PorEquivocationAuthorization) :
    Decidable (ForCheckpoint checkpoint carrier) := inferInstanceAs (Decidable (_ ∧ _))

/-- Collect the carriers of one block. -/
def collectCarriers (B : Blocklace) (checkpoint : FinalizedPrefixCheckpoint)
    (messages : OrderedSet PorEquivocationAuthorization) (id : BlockIdentity) :
    Except PorError (OrderedSet PorEquivocationAuthorization) := do
  let block ← okOr (invalid "missing finalized authorization block") (B.get id)
  let carriers ← blockCarriers env block
  .ok ((carriers.filter fun carrier => ForCheckpoint checkpoint carrier).foldl OrderedSet.insert
    messages)

/-- `finalized_checkpoint_authorizations`. -/
def finalizedCheckpointAuthorizations (B : Blocklace) (output : OrderedFinalizedOutput)
    (checkpoint : FinalizedPrefixCheckpoint) :
    Except PorError (OrderedSet PorEquivocationAuthorization) := do
  let ids ← window env.hasher B output checkpoint
  ids.foldlM (collectCarriers env B checkpoint) OrderedSet.empty

variable {env} {B : Blocklace} {output : OrderedFinalizedOutput}
  {checkpoint : FinalizedPrefixCheckpoint} {carrier : PorEquivocationAuthorization}

/-- A carrier of a block of the window. -/
def CarriedBy (env : PorEnv) (B : Blocklace) (ids : List BlockIdentity)
    (checkpoint : FinalizedPrefixCheckpoint) (carrier : PorEquivocationAuthorization) : Prop :=
  ForCheckpoint checkpoint carrier ∧ ∃ id ∈ ids, ∃ block carriers, B.get id = some block ∧
    blockCarriers env block = .ok carriers ∧ carrier ∈ carriers

theorem mem_foldl_insert {κ : Type} [LinearOrder κ] {s : OrderedSet κ} {l : List κ} {k : κ} :
    k ∈ l.foldl OrderedSet.insert s ↔ k ∈ l ∨ k ∈ s := by
  induction l generalizing s with
  | nil => simp
  | cons a l ih =>
      rw [List.foldl_cons, ih, OrderedSet.mem_insert, List.mem_cons]
      tauto

/-- The loop over the window: it ends where every block is stored and can be read. -/
theorem foldlM_collectCarriers {ids : List BlockIdentity}
    {start out : OrderedSet PorEquivocationAuthorization} :
    ids.foldlM (collectCarriers env B checkpoint) start = .ok out ↔
      (∀ id ∈ ids, ∃ block carriers, B.get id = some block ∧
        blockCarriers env block = .ok carriers) ∧
      ∀ carrier, carrier ∈ out ↔ carrier ∈ start ∨ CarriedBy env B ids checkpoint carrier := by
  induction ids generalizing start with
  | nil =>
      rw [List.foldlM_nil]
      constructor
      · intro h
        obtain rfl := Except.ok.inj h
        simp [CarriedBy]
      · rintro ⟨-, h⟩
        exact congrArg Except.ok (OrderedSet.ext_mem fun carrier => by simp [h, CarriedBy])
  | cons id ids ih =>
      rw [List.foldlM_cons, bind_eq_ok, List.forall_mem_cons]
      have hstep : ∀ {mid}, collectCarriers env B checkpoint start id = .ok mid ↔
          ∃ block carriers, B.get id = some block ∧ blockCarriers env block = .ok carriers ∧
            (carriers.filter fun carrier => ForCheckpoint checkpoint carrier).foldl
              OrderedSet.insert start = mid := by
        intro mid
        unfold collectCarriers
        simp only [bind_eq_ok, okOr_eq_ok, Except.ok.injEq]
        exact ⟨fun ⟨block, hblock, carriers, h⟩ => ⟨block, carriers, hblock, h⟩,
          fun ⟨block, carriers, hblock, h⟩ => ⟨block, hblock, carriers, h⟩⟩
      have hcarried : ∀ {block carriers} {carrier : PorEquivocationAuthorization},
          B.get id = some block → blockCarriers env block = .ok carriers →
          (CarriedBy env B (id :: ids) checkpoint carrier ↔
            (carrier ∈ carriers ∧ ForCheckpoint checkpoint carrier) ∨
              CarriedBy env B ids checkpoint carrier) := by
        intro block carriers carrier hblock hcarriers
        unfold CarriedBy
        simp only [List.mem_cons, exists_eq_or_imp, hblock, Option.some.injEq, exists_and_left,
          exists_eq_left', hcarriers, Except.ok.injEq]
        tauto
      constructor
      · rintro ⟨mid, hmid, hrest⟩
        obtain ⟨block, carriers, hblock, hcarriers, rfl⟩ := hstep.1 hmid
        obtain ⟨hall, hout⟩ := ih.1 hrest
        refine ⟨⟨⟨block, carriers, hblock, hcarriers⟩, hall⟩, fun carrier => ?_⟩
        rw [hout, mem_foldl_insert, hcarried hblock hcarriers, List.mem_filter,
          decide_eq_true_eq]
        tauto
      · rintro ⟨⟨⟨block, carriers, hblock, hcarriers⟩, hall⟩, hout⟩
        refine ⟨_, hstep.2 ⟨block, carriers, hblock, hcarriers, rfl⟩, ih.2 ⟨hall, fun carrier => ?_⟩⟩
        rw [hout, mem_foldl_insert, hcarried hblock hcarriers, List.mem_filter,
          decide_eq_true_eq]
        tauto

/-- **When the carriers of a window can be collected, and what they are.** -/
theorem finalizedCheckpointAuthorizations_eq_ok
    {found : OrderedSet PorEquivocationAuthorization} :
    finalizedCheckpointAuthorizations env B output checkpoint = .ok found ↔
      ValidWindow env.hasher B output checkpoint ∧
      (∀ id ∈ windowBlocks output checkpoint, ∃ block carriers, B.get id = some block ∧
        blockCarriers env block = .ok carriers) ∧
      ∀ carrier, carrier ∈ found ↔
        CarriedBy env B (windowBlocks output checkpoint) checkpoint carrier := by
  unfold finalizedCheckpointAuthorizations
  simp only [bind_eq_ok, window_eq_ok, foldlM_collectCarriers,
    OrderedSet.not_mem_empty, false_or]
  constructor
  · rintro ⟨_, ⟨hvalid, rfl⟩, hall, hfound⟩
    exact ⟨hvalid, hall, hfound⟩
  · rintro ⟨hvalid, hall, hfound⟩
    exact ⟨_, ⟨hvalid, rfl⟩, hall, hfound⟩

/-! ### A sample encoding -/

/-- A number in eight bytes, the lowest first. -/
def fixintNumber : Reader Byte String ℕ := Codec.ofLeBytes <$> take "unexpected end of file" 8

/-- A byte string behind its length. -/
def fixintBytes : Reader Byte String (List Byte) :=
  fixintNumber >>= take "unexpected end of file"

/-- One carrier in bincode. -/
def fixintCarrier : Reader Byte String PorEquivocationAuthorization := do
  let shardId ← fixintBytes
  let sourceFinalizedWave ← fixintNumber
  let round ← fixintNumber
  let message ← fixintBytes
  pure ⟨shardId, sourceFinalizedWave, round, message⟩

/-- A length of 8 bytes and the bytes. -/
def fixintLayout (bytes : List Byte) : List Byte := Codec.leBytes 8 bytes.length ++ bytes

def fixintCarrierLayout (carrier : PorEquivocationAuthorization) : List Byte :=
  fixintLayout carrier.shardId ++ Codec.leBytes 8 carrier.sourceFinalizedWave ++
    Codec.leBytes 8 carrier.round ++ fixintLayout carrier.message

/-- An empty state and no deploys: seven lengths and numbers. -/
def emptyExecution : List Byte := List.replicate 56 0

/-- Payloads with carriers only, as `bincode` writes them. -/
def carrierSerde : Serde CordialBlockPayload where
  serialize payload := Codec.leBytes 8 payload.porAuthorizations.length ++
    payload.porAuthorizations.flatMap fixintCarrierLayout ++ emptyExecution
  deserialize bytes := do
    let (carriers, rest) ← (fixintNumber >>= Codec.readMany fixintCarrier).run bytes
    if rest = emptyExecution then .ok ⟨carriers, ⟨[], [], [], 0⟩, [], [], []⟩
    else .error "unexpected end of file"

/-- The other two encodings are not used by a window. -/
def carrierBincode : Bincode where
  legacy := ⟨fun _ => [], fun _ => .error "unexpected end of file"⟩
  payload := carrierSerde
  authorizations := ⟨fun _ => [], fun _ => .error "unexpected end of file"⟩

end Reputation

end CordialMiners
