/-
# Blocks from the gRPC view of the host

`trusted_block_from_light_block_info_with_options` of `live_grpc.rs`, and what the
extra bytes of a body do to it and to `message_to_block`.

The light view of a block has its hashes, keys and signatures in hex and no
deploys.  The hash of the block is the one the host declares.  The extra bytes
carry PoR authorizations behind a marker.  Bytes without the marker are not
looked at; bytes behind it that are not a list of authorizations are refused, and
with them the block (`carrier_bytes_iff`).

`decode_hex` of the host's string utilities is a parameter.
-/

import CordialMiners.Node.Translation

namespace CordialMiners

open Codec (bind_eq_ok mapError_eq_ok)

/-! ### The carrier -/

namespace CordialBlockPayload

variable {bincode : Bincode} {bytes : List Byte}
  {authorizations : List PorEquivocationAuthorization}

/-- The bytes are marked as a carrier and are not the carrier of any list. -/
def MalformedExtra (bincode : Bincode) (bytes : List Byte) : Prop :=
  porExtraV1 <+: bytes ∧
    ∀ authorizations, bytes ≠ porExtraV1 ++ bincode.authorizations.serialize authorizations

/-- **What the decoder of the extra bytes accepts.** -/
theorem decodePorExtra_eq_ok (h : bincode.Lawful) :
    decodePorExtra bincode bytes = .ok authorizations ↔
      ¬ porExtraV1 <+: bytes ∧ authorizations = [] ∨
        bytes = porExtraV1 ++ bincode.authorizations.serialize authorizations := by
  unfold decodePorExtra
  cases hmarker : porExtraV1.isPrefixOf? bytes with
  | some body =>
      obtain rfl := List.isPrefixOf?_eq_some_iff_append_eq.1 hmarker
      simp only [mapError_eq_ok, h.authorizations body authorizations,
        List.append_cancel_left_eq]
      refine ⟨Or.inr, fun hor => hor.resolve_left fun hnot => ?_⟩
      exact hnot.1 (List.prefix_append _ _)
  | none =>
      have hunmarked : ¬ porExtraV1 <+: bytes := by
        rintro ⟨body, rfl⟩
        rw [List.isPrefixOf?_eq_some_iff_append_eq.2 rfl] at hmarker
        exact absurd hmarker (by simp)
      simp only [Except.ok.injEq]
      constructor
      · rintro rfl
        exact Or.inl ⟨hunmarked, rfl⟩
      · rintro (⟨-, rfl⟩ | rfl)
        · rfl
        · exact absurd (List.prefix_append _ _) hunmarked

theorem exists_decodePorExtra_iff (h : bincode.Lawful) :
    (∃ authorizations, decodePorExtra bincode bytes = .ok authorizations) ↔
      ¬ MalformedExtra bincode bytes := by
  simp only [decodePorExtra_eq_ok h, MalformedExtra, not_and, not_forall, not_not]
  constructor
  · rintro ⟨found, ⟨hunmarked, -⟩ | hfound⟩ hmarked
    · exact absurd hmarked hunmarked
    · exact ⟨found, hfound⟩
  · intro hread
    by_cases hmarked : porExtraV1 <+: bytes
    · obtain ⟨found, hfound⟩ := hread hmarked
      exact ⟨found, Or.inr hfound⟩
    · exact ⟨[], Or.inl ⟨hmarked, rfl⟩⟩

@[simp] theorem decodePorExtra_nil : decodePorExtra bincode [] = .ok [] := rfl

/-- The decoder finds the list that was encoded, and no other. -/
theorem eq_of_decodePorExtra (h : bincode.Lawful)
    (hread : decodePorExtra bincode bytes = .ok authorizations) :
    (∀ found, encodePorExtra bincode found = bytes → authorizations = found) ∧
      ((∀ found, encodePorExtra bincode found ≠ bytes) → authorizations = []) := by
  constructor
  · rintro found rfl
    rw [decodePorExtra_encodePorExtra h] at hread
    exact (Except.ok.inj hread).symm
  · intro hnone
    by_contra hne
    rcases (decodePorExtra_eq_ok h).1 hread with ⟨-, hempty⟩ | hbytes
    · exact hne hempty
    · refine hnone authorizations ?_
      rw [encodePorExtra, if_neg hne, hbytes]

end CordialBlockPayload

/-! ### The light view -/

namespace Wire

/-- A reference, in hex. -/
structure JustificationInfo where
  validator : String
  latestBlockHash : String
deriving DecidableEq, Repr

/-- A bond, in hex. -/
structure BondInfo where
  validator : String
  stake : ℤ
deriving DecidableEq, Repr

/-- The fields of a `LightBlockInfo` that are read. -/
structure LightBlockInfo where
  blockHash : String
  sender : String
  sig : String
  blockNumber : ℤ
  preStateHash : String
  postStateHash : String
  bodyExtraBytes : List Byte
  bonds : List BondInfo
  parentsHashList : List String
  justifications : List JustificationInfo
deriving DecidableEq, Repr

end Wire

/-- The errors of the translation. -/
inductive LiveGrpcError where
  | decodeHex (field value : String)
  | invalidHashLength (field : String) (got : ℕ)
  | numericOverflow (field : String)
  | invalidPorCarrier (message : String)
deriving DecidableEq, Repr

variable (hex : String → Option (List Byte))

/-- `decode_hex`. -/
def decodeHex (field value : String) : Except LiveGrpcError (List Byte) :=
  match hex value with
  | some bytes => .ok bytes
  | none => .error (.decodeHex field value)

/-- `decode_hex_32`. -/
def decodeHex32 (field value : String) : Except LiveGrpcError ContentHash := do
  let bytes ← decodeHex hex field value
  if bytes.length = 32 then pure (contentHashOf bytes)
  else .error (.invalidHashLength field bytes.length)

/-- A justification, its bytes read. -/
def justificationFromLight (justification : Wire.JustificationInfo) :
    Except LiveGrpcError Wire.Justification := do
  let hash ← decodeHex hex "latest_block_hash" justification.latestBlockHash
  let creator ← decodeHex hex "validator" justification.validator
  pure ⟨creator, hash⟩

/-- The reference that a parent hash stands for; its creator is empty where no
justification names it. -/
def parentFromLight (creators : AList fun _ : Wire.ByteString => Wire.ByteString) (hash : String) :
    Except LiveGrpcError BlockIdentity := do
  let contentHash ← decodeHex32 hex "parents_hash_list" hash
  pure ⟨contentHash, ⟨(creators.lookup (contentHashBytes contentHash)).getD []⟩, []⟩

/-- The reference that a justification stands for. -/
def justifiedFromLight (justification : Wire.JustificationInfo) :
    Except LiveGrpcError BlockIdentity := do
  let contentHash ← decodeHex32 hex "latest_block_hash" justification.latestBlockHash
  let creator ← decodeHex hex "validator" justification.validator
  pure ⟨contentHash, ⟨creator⟩, []⟩

/-- A stake or a number as `u64`. -/
def u64FromLight (field : String) (v : ℤ) : Except LiveGrpcError ℕ :=
  if 0 ≤ v then .ok v.toNat else .error (.numericOverflow field)

/-- A bond with a key in hex and no negative stake. -/
def bondFromLight (bond : Wire.BondInfo) : Except LiveGrpcError Bond := do
  let validator ← decodeHex hex "bond.validator" bond.validator
  let stake ← u64FromLight "bond.stake" bond.stake
  pure ⟨⟨validator⟩, stake⟩

/-- The references of a light view. -/
def predecessorsFromLight (info : Wire.LightBlockInfo) (includeJustifications : Bool) :
    Except LiveGrpcError (List BlockIdentity) := do
  let justifications ← info.justifications.mapM (justificationFromLight hex)
  let parents ← info.parentsHashList.mapM (parentFromLight hex (hashToCreator justifications))
  if includeJustifications then
    let justified ← info.justifications.mapM (justifiedFromLight hex)
    pure (parents ++ justified).dedup
  else pure parents.dedup

/-- The state of a light view. -/
def stateFromLight (info : Wire.LightBlockInfo) : Except LiveGrpcError BlockState := do
  let preStateHash ← decodeHex hex "pre_state_hash" info.preStateHash
  let postStateHash ← decodeHex hex "post_state_hash" info.postStateHash
  let bonds ← info.bonds.mapM (bondFromLight hex)
  let blockNumber ← u64FromLight "block_number" info.blockNumber
  pure ⟨preStateHash, postStateHash, bonds, blockNumber⟩

/-- The identity that the host declares. -/
def identityFromLight (info : Wire.LightBlockInfo) : Except LiveGrpcError BlockIdentity := do
  let contentHash ← decodeHex32 hex "block_hash" info.blockHash
  let creator ← decodeHex hex "sender" info.sender
  let signature ← decodeHex hex "sig" info.sig
  pure ⟨contentHash, ⟨creator⟩, signature⟩

/-- `trusted_block_from_light_block_info_with_options`. -/
def trustedBlockFromLightBlockInfo (bincode : Bincode) (info : Wire.LightBlockInfo)
    (includeJustifications : Bool) : Except LiveGrpcError Block := do
  let predecessors ← predecessorsFromLight hex info includeJustifications
  let porAuthorizations ← (CordialBlockPayload.decodePorExtra bincode
    info.bodyExtraBytes).mapError .invalidPorCarrier
  let state ← stateFromLight hex info
  let payload : CordialBlockPayload := ⟨porAuthorizations, state, [], [], []⟩
  let identity ← identityFromLight hex info
  pure ⟨identity, ⟨payload.toBytes bincode, predecessors⟩⟩

/-! ### The block and its extra bytes -/

/-- The view with other extra bytes. -/
def Wire.LightBlockInfo.withExtra (info : Wire.LightBlockInfo) (bytes : List Byte) :
    Wire.LightBlockInfo := { info with bodyExtraBytes := bytes }

/-- The message with other extra bytes. -/
def Wire.BlockMessage.withExtra (msg : Wire.BlockMessage) (bytes : List Byte) :
    Wire.BlockMessage := { msg with body := { msg.body with extraBytes := bytes } }

/-- The block carries the authorizations that the bytes encode, and none where they
encode none. -/
def Block.Carries (bincode : Bincode) (bytes : List Byte) (block : Block) : Prop :=
  ∃ payload, CordialBlockPayload.fromBytes bincode block.content.payload = .ok payload ∧
    (∀ found, CordialBlockPayload.encodePorExtra bincode found = bytes →
      payload.porAuthorizations = found) ∧
    ((∀ found, CordialBlockPayload.encodePorExtra bincode found ≠ bytes) →
      payload.porAuthorizations = [])

variable {hex} {bincode : Bincode} {env : TranslationEnv} {hasher : List Byte → ContentHash}
  {info : Wire.LightBlockInfo} {msg : Wire.BlockMessage} {includeJustifications : Bool}
  {bytes : List Byte} {block : Block}

/-- A payload with the decoded authorizations carries them. -/
theorem Block.carries_of_decoded (h : bincode.Lawful) {payload : CordialBlockPayload}
    (hread : CordialBlockPayload.decodePorExtra bincode bytes = .ok payload.porAuthorizations)
    (hblock : block.content.payload = payload.toBytes bincode) : block.Carries bincode bytes := by
  refine ⟨payload, ?_, CordialBlockPayload.eq_of_decodePorExtra h hread⟩
  rw [hblock]
  exact CordialBlockPayload.fromBytes_toBytes h payload

/-- The light translation reads everything but the extra bytes on its own. -/
theorem trustedBlockFromLightBlockInfo_withExtra_eq_ok :
    trustedBlockFromLightBlockInfo hex bincode (info.withExtra bytes) includeJustifications =
        .ok block ↔
      ∃ predecessors authorizations state identity,
        predecessorsFromLight hex info includeJustifications = .ok predecessors ∧
        CordialBlockPayload.decodePorExtra bincode bytes = .ok authorizations ∧
        stateFromLight hex info = .ok state ∧ identityFromLight hex info = .ok identity ∧
        block = ⟨identity, ⟨CordialBlockPayload.toBytes bincode
          ⟨authorizations, state, [], [], []⟩, predecessors⟩⟩ := by
  unfold trustedBlockFromLightBlockInfo
  simp only [bind_eq_ok, mapError_eq_ok]
  constructor
  · rintro ⟨predecessors, hpredecessors, authorizations, hread, state, hstate, identity, hidentity,
      hblock⟩
    exact ⟨predecessors, authorizations, state, identity, hpredecessors, hread, hstate, hidentity,
      (Except.ok.inj hblock).symm⟩
  · rintro ⟨predecessors, authorizations, state, identity, hpredecessors, hread, hstate, hidentity,
      rfl⟩
    exact ⟨predecessors, hpredecessors, authorizations, hread, state, hstate, identity, hidentity,
      rfl⟩

/-- So does the translation of a message. -/
theorem messageToBlock_withExtra_eq_ok :
    messageToBlock env hasher (msg.withExtra bytes) = .ok block ↔
      ∃ predecessors authorizations bonds blockNumber deploys,
        msg.predHashes.mapM (predecessorOf msg) = .ok predecessors ∧
        CordialBlockPayload.decodePorExtra env.bincode bytes = .ok authorizations ∧
        msg.body.state.bonds.mapM bondFromF1r3node = .ok bonds ∧
        i64ToU64 msg.body.state.blockNumber "block_number" = .ok blockNumber ∧
        msg.body.deploys.mapM processedDeployFromF1r3node = .ok deploys ∧
        ∃ payload : CordialBlockPayload, payload.porAuthorizations = authorizations ∧
          payload.state = ⟨msg.body.state.preStateHash, msg.body.state.postStateHash, bonds,
            blockNumber⟩ ∧
          payload.deploys = deploys ∧
          payload.rejectedDeploys = msg.body.rejectedDeploys.map rejectedDeployFromF1r3node ∧
          payload.systemDeploys = msg.body.systemDeploys.map systemDeployFromF1r3node ∧
          block = ⟨⟨blockHashExt hasher ⟨msg.sender⟩ ⟨payload.toBytes env.bincode, predecessors⟩,
            ⟨msg.sender⟩, msg.sig⟩, ⟨payload.toBytes env.bincode, predecessors⟩⟩ := by
  have hreferences : (msg.withExtra bytes).predHashes.mapM (predecessorOf (msg.withExtra bytes)) =
      msg.predHashes.mapM (predecessorOf msg) := rfl
  unfold messageToBlock
  rw [hreferences]
  simp only [bind_eq_ok, mapError_eq_ok]
  constructor
  · rintro ⟨predecessors, hpredecessors, authorizations, hread, bonds, hbonds, blockNumber, hnumber,
      deploys, hdeploys, hblock⟩
    exact ⟨predecessors, authorizations, bonds, blockNumber, deploys, hpredecessors, hread, hbonds,
      hnumber, hdeploys, ⟨authorizations, _, deploys, _, _⟩, rfl, rfl, rfl, rfl, rfl,
      (Except.ok.inj hblock).symm⟩
  · rintro ⟨predecessors, authorizations, bonds, blockNumber, deploys, hpredecessors, hread, hbonds,
      hnumber, hdeploys, ⟨_, _, _, _, _⟩, rfl, rfl, rfl, rfl, rfl, rfl⟩
    exact ⟨predecessors, hpredecessors, _, hread, bonds, hbonds, blockNumber, hnumber, _, hdeploys,
      rfl⟩

/-- **Extra bytes stop a block exactly where they are a malformed carrier**, in both
translations; where they do not, the block carries the authorizations they encode. -/
theorem carrier_bytes_iff (hbincode : env.bincode.Lawful) (bytes : List Byte) :
    (∀ (hex : String → Option (List Byte)) (info : Wire.LightBlockInfo)
        (includeJustifications : Bool),
      ((∃ block, trustedBlockFromLightBlockInfo hex env.bincode (info.withExtra bytes)
          includeJustifications = .ok block) ↔
        (∃ block, trustedBlockFromLightBlockInfo hex env.bincode (info.withExtra [])
          includeJustifications = .ok block) ∧
            ¬ CordialBlockPayload.MalformedExtra env.bincode bytes) ∧
      ∀ block, trustedBlockFromLightBlockInfo hex env.bincode (info.withExtra bytes)
        includeJustifications = .ok block → block.Carries env.bincode bytes) ∧
    ∀ (hasher : List Byte → ContentHash) (msg : Wire.BlockMessage),
      ((∃ block, messageToBlock env hasher (msg.withExtra bytes) = .ok block) ↔
        (∃ block, messageToBlock env hasher (msg.withExtra []) = .ok block) ∧
          ¬ CordialBlockPayload.MalformedExtra env.bincode bytes) ∧
      ∀ block, messageToBlock env hasher (msg.withExtra bytes) = .ok block →
        block.Carries env.bincode bytes := by
  have hextra : (∃ authorizations, CordialBlockPayload.decodePorExtra env.bincode bytes =
      .ok authorizations) ↔ ¬ CordialBlockPayload.MalformedExtra env.bincode bytes :=
    CordialBlockPayload.exists_decodePorExtra_iff hbincode
  refine ⟨fun hex info includeJustifications => ⟨?_, fun block hblock => ?_⟩,
    fun hasher msg => ⟨?_, fun block hblock => ?_⟩⟩
  · simp only [trustedBlockFromLightBlockInfo_withExtra_eq_ok, ← hextra,
      CordialBlockPayload.decodePorExtra_nil]
    constructor
    · rintro ⟨_, predecessors, authorizations, state, identity, hpredecessors, hread, hstate,
        hidentity, -⟩
      exact ⟨⟨_, predecessors, [], state, identity, hpredecessors, rfl, hstate, hidentity, rfl⟩,
        authorizations, hread⟩
    · rintro ⟨⟨_, predecessors, -, state, identity, hpredecessors, -, hstate, hidentity, -⟩,
        authorizations, hread⟩
      exact ⟨_, predecessors, authorizations, state, identity, hpredecessors, hread, hstate,
        hidentity, rfl⟩
  · obtain ⟨predecessors, authorizations, state, identity, -, hread, -, -, rfl⟩ :=
      trustedBlockFromLightBlockInfo_withExtra_eq_ok.1 hblock
    have hpayload : CordialBlockPayload.decodePorExtra env.bincode bytes =
        .ok (CordialBlockPayload.porAuthorizations ⟨authorizations, state, [], [], []⟩) := hread
    exact Block.carries_of_decoded hbincode hpayload rfl
  · simp only [messageToBlock_withExtra_eq_ok, ← hextra,
      CordialBlockPayload.decodePorExtra_nil]
    constructor
    · rintro ⟨_, predecessors, authorizations, bonds, blockNumber, deploys, hpredecessors, hread,
        hbonds, hnumber, hdeploys, -⟩
      exact ⟨⟨_, predecessors, [], bonds, blockNumber, deploys, hpredecessors, rfl, hbonds, hnumber,
        hdeploys, ⟨[], _, deploys, _, _⟩, rfl, rfl, rfl, rfl, rfl, rfl⟩, authorizations, hread⟩
    · rintro ⟨⟨_, predecessors, -, bonds, blockNumber, deploys, hpredecessors, -, hbonds, hnumber,
        hdeploys, -⟩, authorizations, hread⟩
      exact ⟨_, predecessors, authorizations, bonds, blockNumber, deploys, hpredecessors, hread,
        hbonds, hnumber, hdeploys, ⟨authorizations, _, deploys, _, _⟩, rfl, rfl, rfl, rfl, rfl, rfl⟩
  · obtain ⟨predecessors, authorizations, bonds, blockNumber, deploys, -, hread, -, -, -, payload,
      rfl, -, -, -, -, rfl⟩ := messageToBlock_withExtra_eq_ok.1 hblock
    exact Block.carries_of_decoded hbincode hread rfl

/-! ### A carrier and a byte behind the marker -/

/-- A message without references, bonds and deploys. -/
def bareMessage : Wire.BlockMessage where
  blockHash := []
  header := ⟨[], 0, 1, []⟩
  body := ⟨⟨[], [], [], 0⟩, [], [], [], []⟩
  justifications := []
  sender := [1]
  seqNum := 0
  sig := [9]
  sigAlgorithm := "secp256k1"
  shardId := "root"
  extraBytes := []

theorem exists_block_bareMessage (env : TranslationEnv) :
    ∃ block, messageToBlock env sumHasher (bareMessage.withExtra []) = .ok block := ⟨_, rfl⟩

/-- An authorization. -/
def sampleAuthorization : PorEquivocationAuthorization := ⟨[114], 3, 1, [2]⟩

/-- The list of it alone in bincode. -/
def authorizationBytes : List Byte :=
  Codec.leBytes 8 1 ++ (Codec.leBytes 8 1 ++ [114]) ++ Codec.leBytes 8 3 ++ Codec.leBytes 8 1 ++
    (Codec.leBytes 8 1 ++ [2])

/-- A translation that writes these bytes. -/
noncomputable def carrierEnv : TranslationEnv where
  bincode := { (stakeEnv 1).bincode with
    authorizations := .withSample [sampleAuthorization] authorizationBytes }
  utf8Error := (stakeEnv 1).utf8Error

theorem lawful_carrierEnv : carrierEnv.bincode.Lawful :=
  { lawful_stakeEnv 1 with authorizations := Serde.lawful_withSample (by decide) }

/-- A block whose extra bytes are the carrier of one authorization is translated and
carries it. -/
theorem carrier_bytes_sampleAuthorization :
    ∃ block payload, messageToBlock carrierEnv sumHasher (bareMessage.withExtra
        (CordialBlockPayload.porExtraV1 ++ authorizationBytes)) = .ok block ∧
      CordialBlockPayload.fromBytes carrierEnv.bincode block.content.payload = .ok payload ∧
      payload.porAuthorizations = [sampleAuthorization] := by
  have hbytes : CordialBlockPayload.encodePorExtra carrierEnv.bincode [sampleAuthorization] =
      CordialBlockPayload.porExtraV1 ++ authorizationBytes :=
    congrArg (CordialBlockPayload.porExtraV1 ++ ·) (if_pos rfl)
  have hmessage := (carrier_bytes_iff lawful_carrierEnv
    (CordialBlockPayload.porExtraV1 ++ authorizationBytes)).2 sumHasher bareMessage
  obtain ⟨block, hblock⟩ := hmessage.1.2 ⟨exists_block_bareMessage _, fun hmalformed =>
    hmalformed.2 [sampleAuthorization] hbytes.symm⟩
  obtain ⟨payload, hpayload, hcarried, -⟩ := hmessage.2 block hblock
  exact ⟨block, payload, hblock, hpayload, hcarried _ hbytes⟩

/-- One byte behind the marker is no list of authorizations. -/
theorem malformedExtra_zero :
    CordialBlockPayload.MalformedExtra (stakeEnv 1).bincode (CordialBlockPayload.porExtraV1 ++ [0]) := by
  refine ⟨List.prefix_append _ _, fun authorizations heq => ?_⟩
  have hbytes := List.append_cancel_left heq
  unfold stakeEnv Serde.withSample at hbytes
  dsimp only at hbytes
  split_ifs at hbytes
  · exact absurd hbytes (by decide)
  · exact absurd (congrArg List.head? hbytes) (by simp)

/-- **Extra bytes can stop a block:** the marker and one byte. -/
theorem carrier_bytes_stop_block :
    ¬ ∀ (env : TranslationEnv) (hasher : List Byte → ContentHash) (msg : Wire.BlockMessage)
      (bytes : List Byte), env.bincode.Lawful →
      ((∃ block, messageToBlock env hasher (msg.withExtra bytes) = .ok block) ↔
        ∃ block, messageToBlock env hasher (msg.withExtra []) = .ok block) := by
  intro h
  obtain ⟨block, hblock⟩ := (h (stakeEnv 1) sumHasher bareMessage
    (CordialBlockPayload.porExtraV1 ++ [0]) (lawful_stakeEnv 1)).2 (exists_block_bareMessage _)
  obtain ⟨-, authorizations, -, -, -, -, hread, -⟩ := messageToBlock_withExtra_eq_ok.1 hblock
  exact (CordialBlockPayload.exists_decodePorExtra_iff (lawful_stakeEnv 1)).1
    ⟨authorizations, hread⟩ malformedExtra_zero

end CordialMiners
