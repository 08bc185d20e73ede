/-
# The payload of a block

`execution/payload.rs`: what a block carries besides its references, and its two
encodings as bytes.

A payload without authorizations is the serialization of its other four fields.
One with authorizations is behind the marker `PAYLOAD_V2`.  The decoder reads
either form, so a payload without authorizations behind the marker is read as
well, though it is never written (`toBytes_of_fromBytes`).

`bincode` is a parameter.  What the code relies on is `Bincode.Lawful`: what was
serialized comes back, nothing else is accepted, and the bytes of a legacy
payload, which start with the length of a byte string, do not start with the
marker.
-/

import CordialMiners.Validation.Hash

namespace CordialMiners

open Codec (mapError_eq_ok)

/-- A validator's stake bond. -/
structure Bond where
  validator : NodeId
  stake : ℕ
deriving DecidableEq, Repr

/-- State before and after the deploys of the block. -/
structure BlockState where
  preStateHash : List Byte
  postStateHash : List Byte
  bonds : List Bond
  blockNumber : ℕ
deriving DecidableEq, Repr

/-- Code to be executed on the tuplespace. -/
structure Deploy where
  term : List Byte
  timestamp : ℕ
  phloPrice : ℕ
  phloLimit : ℕ
  validAfterBlockNumber : ℕ
  shardId : String
  expirationTimestamp : Option ℕ
deriving DecidableEq, Repr

/-- Signature scheme attached to a deploy. -/
inductive DeploySignatureAlgorithm where
  | secp256k1
  | secp256k1Eth
  | ed25519
  | other (name : String)
  | unspecified
deriving DecidableEq, Repr

namespace DeploySignatureAlgorithm

/-- `from_name`; `to_ascii_lowercase` is `String.toLower`. -/
def fromName (name : String) : DeploySignatureAlgorithm :=
  let lower := name.toLower
  if lower = "secp256k1" then .secp256k1
  else if lower = "secp256k1-eth" ∨ lower = "secp256k1:eth" then .secp256k1Eth
  else if lower = "ed25519" then .ed25519
  else if lower = "" then .unspecified
  else .other name

/-- `as_name`. -/
def asName : DeploySignatureAlgorithm → String
  | .secp256k1 => "secp256k1"
  | .secp256k1Eth => "secp256k1:eth"
  | .ed25519 => "ed25519"
  | .other name => name
  | .unspecified => ""

/-- No other name spells a known algorithm. -/
def Canonical (algorithm : DeploySignatureAlgorithm) : Prop :=
  ∀ name, algorithm = .other name →
    name.toLower ∉ ["secp256k1", "secp256k1-eth", "secp256k1:eth", "ed25519", ""]

/-- **A name is read back as the algorithm exactly where it is canonical.** -/
theorem fromName_asName_iff {algorithm : DeploySignatureAlgorithm} :
    fromName algorithm.asName = algorithm ↔ algorithm.Canonical := by
  cases algorithm with
  | secp256k1 => exact iff_of_true (by decide +kernel) (by simp [Canonical])
  | secp256k1Eth => exact iff_of_true (by decide +kernel) (by simp [Canonical])
  | ed25519 => exact iff_of_true (by decide +kernel) (by simp [Canonical])
  | unspecified => exact iff_of_true (by decide +kernel) (by simp [Canonical])
  | other name =>
      unfold fromName asName Canonical
      simp only [other.injEq, forall_eq', List.mem_cons, List.not_mem_nil, or_false, not_or]
      split_ifs with h₁ h₂ h₃ h₄
      · simp [h₁]
      · simp only [false_iff, not_and]
        rintro - h₂' h₂'' -
        exact (h₂.elim h₂' h₂'').elim
      · simp [h₃]
      · simp [h₄]
      · simp only [not_or] at h₂
        simp [h₁, h₂, h₃, h₄]

end DeploySignatureAlgorithm

/-- Deploy data with the signature of the deployer. -/
structure SignedDeploy where
  deploy : Deploy
  deployer : List Byte
  signature : List Byte
  signatureAlgorithm : DeploySignatureAlgorithm
deriving DecidableEq, Repr

/-- A deploy that has been executed. -/
structure ProcessedDeploy where
  deploy : SignedDeploy
  cost : ℕ
  isFailed : Bool
deriving DecidableEq, Repr

/-- Why a deploy was rejected. -/
inductive RejectReason where
  | invalidSignature
  | expired
  | duplicate
  | insufficientPhloPrice
  | notYetValid
deriving DecidableEq, Repr

/-- A deploy that was rejected before execution. -/
structure RejectedDeploy where
  deploy : SignedDeploy
  reason : RejectReason
deriving DecidableEq, Repr

/-- A system-level deploy. -/
inductive ProcessedSystemDeploy where
  | slash (validator : NodeId) (succeeded : Bool)
  | closeBlock (succeeded : Bool)
deriving DecidableEq, Repr

/-- Context-tagged authorization of a penalty. -/
structure PorEquivocationAuthorization where
  shardId : List Byte
  sourceFinalizedWave : ℕ
  round : ℕ
  message : List Byte
deriving DecidableEq, Repr

/-- Typed block payload. -/
structure CordialBlockPayload where
  porAuthorizations : List PorEquivocationAuthorization
  state : BlockState
  deploys : List ProcessedDeploy
  rejectedDeploys : List RejectedDeploy
  systemDeploys : List ProcessedSystemDeploy
deriving DecidableEq, Repr

/-- The tuple that a payload without authorizations is serialized as. -/
abbrev LegacyPayload :=
  BlockState × List ProcessedDeploy × List RejectedDeploy × List ProcessedSystemDeploy

/-- `bincode` at one type; an error is its text. -/
structure Serde (α : Type) where
  serialize : α → List Byte
  deserialize : List Byte → Except String α

/-- What is serialized comes back, and nothing else is accepted. -/
def Serde.Lawful {α : Type} (serde : Serde α) : Prop :=
  ∀ bytes a, serde.deserialize bytes = .ok a ↔ bytes = serde.serialize a

/-- `bincode` at the types of the payload. -/
structure Bincode where
  legacy : Serde LegacyPayload
  payload : Serde CordialBlockPayload
  authorizations : Serde (List PorEquivocationAuthorization)

namespace CordialBlockPayload

/-- `PAYLOAD_V2`. -/
def payloadV2 : List Byte := asciiBytes "cordial:execution-payload:v2" ++ [0]

/-- `POR_EXTRA_V1`. -/
def porExtraV1 : List Byte := asciiBytes "cordial:por-authorizations:v1" ++ [0]

/-- `to_bytes`. -/
def toBytes (bincode : Bincode) (payload : CordialBlockPayload) : List Byte :=
  if payload.porAuthorizations = [] then
    bincode.legacy.serialize
      (payload.state, payload.deploys, payload.rejectedDeploys, payload.systemDeploys)
  else payloadV2 ++ bincode.payload.serialize payload

/-- The text of a failed decoding. -/
def decodeError (error : String) : String := "payload deserialization failed: " ++ error

/-- `from_bytes`. -/
def fromBytes (bincode : Bincode) (bytes : List Byte) : Except String CordialBlockPayload :=
  match payloadV2.isPrefixOf? bytes with
  | some body => (bincode.payload.deserialize body).mapError decodeError
  | none =>
      match bincode.legacy.deserialize bytes with
      | .error error => .error (decodeError error)
      | .ok (state, deploys, rejectedDeploys, systemDeploys) =>
          .ok ⟨[], state, deploys, rejectedDeploys, systemDeploys⟩

/-- `encode_por_extra`. -/
def encodePorExtra (bincode : Bincode) (authorizations : List PorEquivocationAuthorization) :
    List Byte :=
  if authorizations = [] then []
  else porExtraV1 ++ bincode.authorizations.serialize authorizations

/-- `decode_por_extra`. -/
def decodePorExtra (bincode : Bincode) (bytes : List Byte) :
    Except String (List PorEquivocationAuthorization) :=
  match porExtraV1.isPrefixOf? bytes with
  | none => .ok []
  | some body =>
      (bincode.authorizations.deserialize body).mapError fun error =>
        "invalid PoR authorization carrier: " ++ error

end CordialBlockPayload

/-- What the code relies on. -/
structure Bincode.Lawful (bincode : Bincode) : Prop where
  legacy : bincode.legacy.Lawful
  payload : bincode.payload.Lawful
  authorizations : bincode.authorizations.Lawful
  /-- A legacy payload starts with an eight-byte length. -/
  unmarked : ∀ body, ¬ CordialBlockPayload.payloadV2 <+: bincode.legacy.serialize body

namespace CordialBlockPayload

variable {bincode : Bincode} {payload : CordialBlockPayload} {bytes : List Byte}

/-- **What the decoder accepts:** the bytes of the payload, or a payload without
authorizations behind the marker. -/
theorem fromBytes_eq_ok (h : bincode.Lawful) :
    fromBytes bincode bytes = .ok payload ↔ bytes = toBytes bincode payload ∨
      payload.porAuthorizations = [] ∧ bytes = payloadV2 ++ bincode.payload.serialize payload := by
  unfold fromBytes toBytes
  cases hmarker : payloadV2.isPrefixOf? bytes with
  | some body =>
      obtain rfl := List.isPrefixOf?_eq_some_iff_append_eq.1 hmarker
      simp only [mapError_eq_ok, h.payload body payload]
      split_ifs with hempty
      · simp only [hempty, true_and, List.append_cancel_left_eq]
        refine ⟨Or.inr, fun hor => hor.resolve_left fun heq => ?_⟩
        exact h.unmarked _ ⟨body, heq⟩
      · simp [hempty]
  | none =>
      have hunmarked : ∀ body, bytes ≠ payloadV2 ++ body := by
        rintro body rfl
        rw [List.isPrefixOf?_eq_some_iff_append_eq.2 rfl] at hmarker
        exact absurd hmarker (by simp)
      simp only [hunmarked, and_false, or_false]
      cases hread : bincode.legacy.deserialize bytes with
      | error error =>
          refine iff_of_false (by simp) fun heq => ?_
          split_ifs at heq with hempty
          · rw [(h.legacy _ _).2 heq] at hread
            exact absurd hread (by simp)
          · exact hunmarked _ heq
      | ok body =>
          obtain ⟨state, deploys, rejectedDeploys, systemDeploys⟩ := body
          simp only [Except.ok.injEq]
          have hbytes := (h.legacy _ _).1 hread
          constructor
          · rintro rfl
            simpa using hbytes
          · intro heq
            split_ifs at heq with hempty
            · have hback := (h.legacy _ _).2 heq
              rw [hread] at hback
              obtain ⟨authorizations, _⟩ := payload
              simp only [Except.ok.injEq, Prod.mk.injEq] at hback hempty ⊢
              obtain ⟨rfl, rfl, rfl, rfl⟩ := hback
              rw [hempty]
            · exact absurd heq (hunmarked _)

/-- What is written is read back. -/
theorem fromBytes_toBytes (h : bincode.Lawful) (payload : CordialBlockPayload) :
    fromBytes bincode (toBytes bincode payload) = .ok payload :=
  (fromBytes_eq_ok h).2 (Or.inl rfl)

/-- What is read is written back, except for the marker without authorizations. -/
theorem toBytes_of_fromBytes (h : bincode.Lawful) (hread : fromBytes bincode bytes = .ok payload) :
    toBytes bincode payload = bytes ↔
      ¬ (payloadV2 <+: bytes ∧ payload.porAuthorizations = []) := by
  obtain rfl | ⟨hempty, rfl⟩ := (fromBytes_eq_ok h).1 hread
  · refine iff_of_true rfl ?_
    rintro ⟨hmarked, hempty⟩
    rw [toBytes, if_pos hempty] at hmarked
    exact h.unmarked _ hmarked
  · refine iff_of_false (fun heq => ?_) fun hnot => hnot ⟨List.prefix_append _ _, hempty⟩
    rw [toBytes, if_pos hempty] at heq
    exact h.unmarked _ (heq ▸ List.prefix_append _ _)

/-- The authorizations survive the extra bytes of the message. -/
theorem decodePorExtra_encodePorExtra (h : bincode.Lawful)
    (authorizations : List PorEquivocationAuthorization) :
    decodePorExtra bincode (encodePorExtra bincode authorizations) = .ok authorizations := by
  unfold decodePorExtra encodePorExtra
  split_ifs with hempty
  · rw [hempty]
    rfl
  · rw [List.isPrefixOf?_eq_some_iff_append_eq.2 rfl]
    simp only [mapError_eq_ok]
    exact (h.authorizations _ _).2 rfl

end CordialBlockPayload

/-- The bytes of a block state as `bincode` writes them. -/
def stateBytes (state : BlockState) : List Byte :=
  let u64 := Codec.leBytes 8
  u64 state.preStateHash.length ++ state.preStateHash ++ u64 state.postStateHash.length ++
    state.postStateHash ++ u64 state.bonds.length ++
    (state.bonds.flatMap fun b => u64 b.validator.bytes.length ++ b.validator.bytes ++ u64 b.stake) ++
    u64 state.blockNumber

/-- A byte string or a name behind its length. -/
def sizedBytes (bytes : List Byte) : List Byte := Codec.leBytes 8 bytes.length ++ bytes

/-- The bytes of a signature scheme: the number of its case. -/
def DeploySignatureAlgorithm.bytes : DeploySignatureAlgorithm → List Byte
  | .secp256k1 => Codec.leBytes 4 0
  | .secp256k1Eth => Codec.leBytes 4 1
  | .ed25519 => Codec.leBytes 4 2
  | .other name => Codec.leBytes 4 3 ++ sizedBytes (asciiBytes name)
  | .unspecified => Codec.leBytes 4 4

/-- The bytes of a processed deploy. -/
def ProcessedDeploy.bytes (pd : ProcessedDeploy) : List Byte :=
  let u64 := Codec.leBytes 8
  let data := pd.deploy.deploy
  sizedBytes data.term ++ u64 data.timestamp ++ u64 data.phloPrice ++ u64 data.phloLimit ++
    u64 data.validAfterBlockNumber ++ sizedBytes (asciiBytes data.shardId) ++
    (match data.expirationTimestamp with
      | none => [0]
      | some expiration => 1 :: u64 expiration) ++
    sizedBytes pd.deploy.deployer ++ sizedBytes pd.deploy.signature ++
    pd.deploy.signatureAlgorithm.bytes ++ u64 pd.cost ++ [if pd.isFailed then 1 else 0]

/-- The bytes of a payload without authorizations, rejected and system deploys. -/
def acceptedBytes (state : BlockState) (deploys : List ProcessedDeploy) : List Byte :=
  stateBytes state ++ Codec.leBytes 8 deploys.length ++ deploys.flatMap ProcessedDeploy.bytes ++
    Codec.leBytes 8 0 ++ Codec.leBytes 8 0

end CordialMiners
