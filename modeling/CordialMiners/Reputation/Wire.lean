/-
# Reputation blocks as bytes

The wire format of `block.rs`: a payload, and the envelope it is published in.

A payload is laid out as the header is hashed, with the list behind it
(`payloadLayout`).  Writers refuse what exceeds a limit, readers refuse what no
writer wrote: a payload is decoded to a block exactly where it is the encoding of
that block (`decodePayload_eq_ok`), and so is an envelope
(`decodeReputationBlock_eq_ok_iff`).

State snapshots reuse the fields and the envelope, with errors of their own.
-/

import CordialMiners.Codec.Writer
import CordialMiners.Reputation.State

namespace CordialMiners.Reputation

open Codec

abbrev PorReader := Codec.Reader Byte PorError

abbrev PorWriter := Codec.Writer Byte PorError

/-! ### Fields -/

namespace PorWriter

/-- `put_fixed`. -/
def fixed (limit : WithTop ℕ) (tooLarge : PorError) (bytes : List Byte) : PorWriter Unit :=
  put limit tooLarge bytes

variable (limit : WithTop ℕ) (tooLarge : PorError)

/-- `put_u16`. -/
def u16 (n : U16) : PorWriter Unit := fixed limit tooLarge (beBytes 2 n.val)

/-- `put_u64`. -/
def u64 (n : U64) : PorWriter Unit := fixed limit tooLarge (beBytes 8 n.val)

/-- A 32-byte field. -/
def hash (hash : ContentHash) : PorWriter Unit := fixed limit tooLarge (contentHashBytes hash)

/-- `put_bytes`. -/
def bytes (bytes : List Byte) : PorWriter Unit := do
  fixed limit tooLarge (beBytes 8 bytes.length)
  fixed limit tooLarge bytes

/-- `put_node_id`. -/
def nodeId (id : NodeId) : PorWriter Unit :=
  if id.bytes.length > maxNodeIdLen then throw tooLarge else bytes limit tooLarge id.bytes

/-- `put_count`. -/
def count (n : ℕ) : PorWriter Unit :=
  if n > maxBlockEntries then throw tooLarge else fixed limit tooLarge (beBytes 8 n)

/-- One entry of a list. -/
def entry (entry : ReputationEntry) : PorWriter Unit := do
  nodeId limit tooLarge entry.nodeId
  u64 limit tooLarge entry.reputation
  fixed limit tooLarge [if entry.isExcluded then 1 else 0]
  u64 limit tooLarge entry.retainedReputation

/-- `encode_reputation_list`. -/
def list (list : ReputationList) : PorWriter Unit := do
  validateReputationEntries list.entries
  u64 limit tooLarge list.round
  count limit tooLarge list.entries.length
  list.entries.forM (entry limit tooLarge)

/-- The source of a checkpoint block. -/
def source : Option RatingSourceCheckpoint → PorWriter Unit
  | none => pure ()
  | some source => do
      u64 limit tooLarge source.finalizedPrefixLen
      hash limit tooLarge source.finalizedPrefixHash

/-- The hash of the previous block, behind a discriminant. -/
def previous : Option ReputationCommitment → PorWriter Unit
  | none => fixed limit tooLarge [0]
  | some previous => do
      fixed limit tooLarge [1]
      hash limit tooLarge previous

/-- Header and list of a block. -/
def block (block : ReputationBlock) : PorWriter Unit := do
  u16 limit tooLarge block.header.version
  bytes limit tooLarge block.header.shardId
  u64 limit tooLarge block.header.sourceFinalizedWave
  u64 limit tooLarge block.header.round
  source limit tooLarge block.header.sourceCheckpoint
  previous limit tooLarge block.header.previousReputationHash
  hash limit tooLarge block.header.configHash
  hash limit tooLarge block.header.ratingsHash
  hash limit tooLarge block.header.penaltiesHash
  hash limit tooLarge block.header.reputationRoot
  list limit tooLarge block.reputationList

end PorWriter

namespace PorReader

variable (tooLarge malformed : PorError)

/-- `read_u16`. -/
def u16 : PorReader U16 := (fun n => Fin.ofNat _ n) <$> (ofBeBytes <$> take malformed 2)

/-- `read_u64`. -/
def u64 : PorReader U64 := (fun n => Fin.ofNat _ n) <$> (ofBeBytes <$> take malformed 8)

/-- `read_array::<32>`. -/
def hash : PorReader ContentHash := contentHashOf <$> take malformed 32

/-- A length or count, at most `bound`. -/
def bounded (bound : ℕ) : PorReader ℕ :=
  checked (ofBeBytes <$> take malformed 8) fun n => if n > bound then .error tooLarge else .ok ()

/-- `read_count`. -/
def count : PorReader ℕ := bounded tooLarge malformed maxBlockEntries

/-- `read_bytes`. -/
def bytes (maxLen : ℕ) : PorReader (List Byte) :=
  bounded tooLarge malformed maxLen >>= take malformed

/-- `read_node_id`. -/
def nodeId : PorReader NodeId := NodeId.mk <$> bytes tooLarge malformed maxNodeIdLen

/-- `read_discriminant`. -/
def discriminant : PorReader Bool := do
  let byte ← take malformed 1
  if byte = [0] then pure false else if byte = [1] then pure true else throw malformed

/-- One entry of a list. -/
def entry : PorReader ReputationEntry := do
  let nodeId ← nodeId tooLarge malformed
  let reputation ← u64 malformed
  let isExcluded ← discriminant malformed
  let retainedReputation ← u64 malformed
  pure ⟨nodeId, reputation, retainedReputation, isExcluded⟩

/-- `decode_reputation_list`. -/
def list : PorReader ReputationList := do
  let round ← u64 malformed
  let entries ← checked (count tooLarge malformed >>= readMany (entry tooLarge malformed))
    validateReputationEntries
  pure ⟨round, entries⟩

/-- The source of a block of the given version and round. -/
def source (version : U16) (round : U64) : PorReader (Option RatingSourceCheckpoint) :=
  if version = reputationBlockVersion then pure none
  else if version = checkpointReputationBlockVersion then do
    let finalizedPrefixLen ← u64 malformed
    let finalizedPrefixHash ← hash malformed
    pure (some ⟨round, finalizedPrefixLen, finalizedPrefixHash⟩)
  else throw (.unsupportedReputationBlockVersion version)

/-- The hash of the previous block. -/
def previous : PorReader (Option ReputationCommitment) := do
  let present ← discriminant malformed
  if present then some <$> hash malformed else pure none

/-- Header and list of a block. -/
def block : PorReader ReputationBlock := do
  let version ← u16 malformed
  let shardId ← bytes tooLarge malformed maxShardIdLen
  let sourceFinalizedWave ← u64 malformed
  let round ← u64 malformed
  let sourceCheckpoint ← source malformed version round
  let previousReputationHash ← previous malformed
  let configHash ← hash malformed
  let ratingsHash ← hash malformed
  let penaltiesHash ← hash malformed
  let reputationRoot ← hash malformed
  let reputationList ← list tooLarge malformed
  pure ⟨⟨version, shardId, sourceFinalizedWave, sourceCheckpoint, round, previousReputationHash,
    configHash, ratingsHash, penaltiesHash, reputationRoot⟩, reputationList⟩

end PorReader

/-! ### Payloads -/

section Hasher

variable (hasher : List Byte → ContentHash)

/-- `FIXED_ENVELOPE_LEN`. -/
def fixedEnvelopeLen : ℕ := 17 + 2 + 8 + 32

/-- `MAX_REPUTATION_BLOCK_PAYLOAD_LEN`. -/
def maxBlockPayloadLen : ℕ := maxBlockWireLen - fixedEnvelopeLen

/-- `encode_reputation_block_payload`. -/
def encodeReputationBlockPayload (block : ReputationBlock) : Except PorError (List Byte) := do
  validateReputationBlock hasher block
  Prod.snd <$> (PorWriter.block maxBlockPayloadLen .reputationBlockWireTooLarge block).run []

/-- `decode_reputation_block_payload`. -/
def decodeReputationBlockPayload (bytes : List Byte) : Except PorError ReputationBlock :=
  if bytes.length > maxBlockPayloadLen then .error .reputationBlockWireTooLarge
  else do
    let (block, rest) ← (PorReader.block .reputationBlockWireTooLarge
      .malformedReputationBlockWire).run bytes
    if rest ≠ [] then .error .malformedReputationBlockWire
    else
      validateReputationBlock hasher block
      .ok block

/-! ### Envelopes -/

/-- An envelope: what is in front of the payload and behind it, and how each check
fails. -/
structure EnvelopeFormat where
  magic : List Byte
  checksum : U16 → List Byte → ContentHash
  tooLarge : PorError
  payloadTooLarge : PorError
  malformed : PorError
  unsupported : U16 → PorError
  checksumMismatch : PorError

/-- Seal a payload. -/
def EnvelopeFormat.seal (format : EnvelopeFormat) (version : U16) (payload : List Byte) :
    List Byte :=
  format.magic ++ (beBytes 2 version.val ++ (beBytes 8 payload.length ++ (payload ++
    contentHashBytes (format.checksum version payload))))

/-- The reads and checks of an envelope. -/
def EnvelopeFormat.reader (format : EnvelopeFormat) : PorReader (U16 × List Byte) := do
  let magic ← take format.malformed format.magic.length
  if magic ≠ format.magic then throw format.malformed
  else
    let version ← PorReader.u16 format.malformed
    if version ≠ reputationBlockVersion ∧ version ≠ checkpointReputationBlockVersion then
      throw (format.unsupported version)
    else
      let payloadLen ← PorReader.bounded format.payloadTooLarge format.malformed maxBlockPayloadLen
      let remaining ← get
      if remaining.length ≠ payloadLen + 32 then throw format.malformed
      else
        let payload ← take format.malformed payloadLen
        let checksum ← PorReader.hash format.malformed
        if checksum ≠ format.checksum version payload then throw format.checksumMismatch
        else pure (version, payload)

/-- Open an envelope. -/
def EnvelopeFormat.unseal (format : EnvelopeFormat) (bytes : List Byte) :
    Except PorError (U16 × List Byte) :=
  if bytes.length > maxBlockWireLen then .error format.tooLarge
  else if bytes.length < fixedEnvelopeLen then .error format.malformed
  else Prod.fst <$> format.reader.run bytes

/-- `POR_REPUTATION_BLOCK_MAGIC`. -/
def reputationBlockMagic : List Byte := asciiBytes "cordial-por-block"

/-- `REPUTATION_BLOCK_CHECKSUM_DOMAIN`, and that of checkpoint blocks. -/
def reputationBlockChecksumDomain (version : U16) : List Byte :=
  if version = reputationBlockVersion then asciiBytes "cordial-por:reputation-block-envelope:v2"
  else asciiBytes "cordial-por:reputation-block-envelope:v3"

/-- `reputation_block_checksum`. -/
def reputationBlockChecksum (version : U16) (payload : List Byte) : ContentHash :=
  hasher (reputationBlockChecksumDomain version ++ reputationBlockMagic ++
    beBytes 2 version.val ++ beBytes 8 payload.length ++ payload)

/-- The envelope of a published block. -/
def reputationBlockFormat : EnvelopeFormat where
  magic := reputationBlockMagic
  checksum := reputationBlockChecksum hasher
  tooLarge := .reputationBlockWireTooLarge
  payloadTooLarge := .reputationBlockWireTooLarge
  malformed := .malformedReputationBlockWire
  unsupported := .unsupportedReputationBlockWireVersion
  checksumMismatch := .reputationBlockWireChecksumMismatch

/-- `encode_reputation_block`. -/
def encodeReputationBlock (block : ReputationBlock) : Except PorError (List Byte) := do
  let payload ← encodeReputationBlockPayload hasher block
  .ok ((reputationBlockFormat hasher).seal block.header.version payload)

/-- `decode_reputation_block`. -/
def decodeReputationBlock (bytes : List Byte) : Except PorError ReputationBlock := do
  let (version, payload) ← (reputationBlockFormat hasher).unseal bytes
  let block ← decodeReputationBlockPayload hasher payload
  if block.header.version ≠ version then .error .malformedReputationBlockWire else .ok block

end Hasher

/-! ### Writers and readers of one layout -/

/-- The identity is short enough to be written. -/
def NodeIdFits (id : NodeId) : Prop := id.bytes.length ≤ maxNodeIdLen

/-- A valid list within the limits of the format. -/
structure ReputationList.Fits (list : ReputationList) : Prop where
  valid : validateReputationEntries list.entries = .ok ()
  count : list.entries.length ≤ maxBlockEntries
  nodeIds : ∀ entry ∈ list.entries, NodeIdFits entry.nodeId

/-- What an encoded block looks like: version, header, list. -/
def payloadLayout (block : ReputationBlock) : List Byte :=
  beBytes 2 block.header.version.val ++ headerLayout block.header ++
    listLayout block.reputationList

namespace PorWriter

variable {limit : WithTop ℕ} {tooLarge : PorError}

theorem writes_bytes (b : List Byte) : Writes limit (bytes limit tooLarge b) (putBytes b) True :=
  (Writes.put.seq Writes.put).congr (and_iff_left trivial)

theorem writes_nodeId (id : NodeId) :
    Writes limit (nodeId limit tooLarge id) (putBytes id.bytes) (NodeIdFits id) :=
  (writes_bytes id.bytes).guard.congr (by rw [and_true, not_lt, NodeIdFits])

theorem writes_count (n : ℕ) :
    Writes limit (count limit tooLarge n) (beBytes 8 n) (n ≤ maxBlockEntries) :=
  Writes.put.guard.congr (by rw [and_true, not_lt])

theorem writes_entry (e : ReputationEntry) :
    Writes limit (entry limit tooLarge e) (entryLayout e) (NodeIdFits e.nodeId) :=
  (((writes_nodeId e.nodeId).seq (Writes.put.seq (Writes.put.seq Writes.put))).congr
    (by simp)).regroup (by simp only [entryLayout, List.append_assoc])

theorem writes_list (l : ReputationList) :
    Writes limit (list limit tooLarge l) (listLayout l) l.Fits :=
  ((Writes.put.seq ((writes_count _).seq (Writes.forM writes_entry))).check.congr
    ⟨fun h => ⟨h.1, h.2.2.1, h.2.2.2⟩, fun h => ⟨h.valid, trivial, h.count, h.nodeIds⟩⟩).regroup
    (by simp only [listLayout, List.append_assoc])

theorem writes_source (s : Option RatingSourceCheckpoint) :
    Writes limit (source limit tooLarge s) (sourceLayout s) True := by
  cases s with
  | none => exact Writes.pure
  | some s => exact (Writes.put.seq Writes.put).congr (and_iff_left trivial)

theorem writes_previous (h : Option ReputationCommitment) :
    Writes limit (previous limit tooLarge h) (previousLayout h) True := by
  cases h with
  | none => exact Writes.put
  | some h => exact (Writes.put.seq Writes.put).congr (and_iff_left trivial)

/-- **A block is written as its layout** where its list fits. -/
theorem writes_block (b : ReputationBlock) :
    Writes limit (block limit tooLarge b) (payloadLayout b) b.reputationList.Fits :=
  ((Writes.put.seq ((writes_bytes _).seq (Writes.put.seq (Writes.put.seq ((writes_source _).seq
    ((writes_previous _).seq (Writes.put.seq (Writes.put.seq (Writes.put.seq (Writes.put.seq
      (writes_list _))))))))))).congr (by simp only [true_and])).regroup
    (by simp only [payloadLayout, headerLayout, List.append_assoc])

end PorWriter

namespace PorReader

variable {tooLarge malformed : PorError}

theorem decodes_u16 : Decodes (u16 malformed) (fun n : U16 => beBytes 2 n.val) fun _ => True :=
  decodes_fin malformed (by norm_num)

theorem decodes_u64 : Decodes (u64 malformed) (fun n : U64 => beBytes 8 n.val) fun _ => True :=
  decodes_fin malformed (by norm_num)

theorem decodes_hash : Decodes (hash malformed) contentHashBytes fun _ => True :=
  decodes_contentHash malformed

theorem decodes_bounded {bound : ℕ} (hbound : bound < 256 ^ 8) :
    Decodes (bounded tooLarge malformed bound) (beBytes 8) (· < bound + 1) :=
  ((decodes_number malformed 8).checked _).congr fun n => by
    split_ifs with h
    · exact iff_of_false (by simp) (by omega)
    · exact iff_of_true ⟨by omega, rfl⟩ (by omega)

theorem decodes_bytes {maxLen : ℕ} (hmax : maxLen < 256 ^ 8) :
    Decodes (bytes tooLarge malformed maxLen) putBytes fun b => b.length ≤ maxLen :=
  ((decodes_bounded hmax).sized fun n =>
    (decodes_take malformed n).congr fun _ => (and_iff_left trivial).symm).congr fun b => by
      rw [and_true, Nat.lt_succ_iff]

theorem decodes_nodeId : Decodes (nodeId tooLarge malformed) (fun id => putBytes id.bytes)
    NodeIdFits :=
  (decodes_bytes (by decide)).map (fun _ h => ⟨h, rfl⟩) fun _ h => ⟨h, rfl⟩

theorem decodes_discriminant :
    Decodes (discriminant malformed) (fun b => [if b then 1 else 0]) fun _ => True := by
  intro input b rest
  unfold discriminant
  rw [run_bind_eq_ok]
  simp only [decodes_take malformed 1 _ _ _, id]
  constructor
  · rintro ⟨byte, mid, ⟨-, rfl⟩, h⟩
    split_ifs at h with h₀ h₁
    · obtain ⟨rfl, rfl⟩ := run_pure_eq_ok.1 h
      exact ⟨trivial, by rw [h₀]; rfl⟩
    · obtain ⟨rfl, rfl⟩ := run_pure_eq_ok.1 h
      exact ⟨trivial, by rw [h₁]; rfl⟩
    · exact absurd h run_throw_ne_ok
  · rintro ⟨-, rfl⟩
    refine ⟨_, rest, ⟨rfl, rfl⟩, ?_⟩
    cases b
    · exact run_pure_eq_ok.2 ⟨rfl, rfl⟩
    · exact run_pure_eq_ok.2 ⟨rfl, rfl⟩

theorem decodes_entry : Decodes (entry tooLarge malformed) entryLayout
    fun e => NodeIdFits e.nodeId := by
  intro input e rest
  simp only [entry, run_bind_eq_ok, run_pure_eq_ok, decodes_nodeId _ _ _,
    decodes_u64 _ _ _, decodes_discriminant _ _ _, true_and]
  constructor
  · rintro ⟨id, _, ⟨hid, rfl⟩, reputation, _, rfl, excluded, _, rfl, retained, _, rfl, rfl, rfl⟩
    exact ⟨hid, by simp only [entryLayout, List.append_assoc]⟩
  · rintro ⟨hid, rfl⟩
    refine ⟨e.nodeId, _, ⟨hid, ?_⟩, e.reputation, _, rfl, e.isExcluded, _, rfl,
      e.retainedReputation, rest, rfl, rfl, rfl⟩
    simp only [entryLayout, List.append_assoc]

theorem decodes_list : Decodes (list tooLarge malformed) listLayout ReputationList.Fits := by
  have hentries := ((@decodes_bounded tooLarge malformed maxBlockEntries (by decide)).sized
    (decodes_readMany (@decodes_entry tooLarge malformed))).checked validateReputationEntries
  intro input l rest
  unfold list count
  simp only [run_bind_eq_ok, run_pure_eq_ok, decodes_u64 _ _ _, hentries _ _ _, true_and]
  constructor
  · rintro ⟨round, mid, rfl, entries, mid', ⟨⟨⟨hcount, hids⟩, hvalid⟩, rfl⟩, rfl, rfl⟩
    exact ⟨⟨hvalid, Nat.lt_succ_iff.1 hcount, hids⟩, by simp only [listLayout, List.append_assoc]⟩
  · rintro ⟨h, rfl⟩
    refine ⟨l.round, _, ?_, l.entries, rest,
      ⟨⟨⟨Nat.lt_succ_iff.2 h.count, h.nodeIds⟩, h.valid⟩, rfl⟩, rfl, rfl⟩
    simp only [listLayout, List.append_assoc]

/-- The source fields belong to the version. -/
def SourceFits (version : U16) (round : U64) (source : Option RatingSourceCheckpoint) : Prop :=
  (version = reputationBlockVersion ∧ source = none) ∨
    (version = checkpointReputationBlockVersion ∧ ∃ s, source = some s ∧ s.round = round)

theorem decodes_source (version : U16) (round : U64) :
    Decodes (source malformed version round) sourceLayout (SourceFits version round) := by
  have hne : ¬checkpointReputationBlockVersion = reputationBlockVersion := by decide
  intro input s rest
  unfold source SourceFits
  split_ifs with hwave hcheckpoint
  · subst hwave
    rw [run_pure_eq_ok]
    constructor
    · rintro ⟨rfl, rfl⟩
      exact ⟨Or.inl ⟨rfl, rfl⟩, rfl⟩
    · rintro ⟨⟨-, rfl⟩ | ⟨h, -⟩, rfl⟩
      · exact ⟨rfl, rfl⟩
      · exact absurd h.symm hne
  · subst hcheckpoint
    simp only [run_bind_eq_ok, run_pure_eq_ok, decodes_u64 _ _ _, decodes_hash _ _ _,
      true_and]
    constructor
    · rintro ⟨len, mid, rfl, hash, mid', rfl, rfl, rfl⟩
      exact ⟨Or.inr ⟨_, rfl, rfl⟩, by simp only [sourceLayout, sourceFields, List.append_assoc]⟩
    · rintro ⟨⟨h, -⟩ | ⟨s, rfl, rfl⟩, rfl⟩
      · exact absurd h hne
      · exact ⟨s.finalizedPrefixLen, _, by simp only [sourceLayout, sourceFields, List.append_assoc],
          s.finalizedPrefixHash, rest, rfl, rfl, rfl⟩
  · refine iff_of_false run_throw_ne_ok ?_
    rintro ⟨⟨h, -⟩ | ⟨h, -⟩, -⟩
    · exact hwave h
    · exact hcheckpoint h

theorem decodes_previous : Decodes (previous malformed) previousLayout fun _ => True := by
  intro input h rest
  unfold previous
  simp only [run_bind_eq_ok, decodes_discriminant _ _ _, true_and]
  constructor
  · rintro ⟨present, mid, rfl, hread⟩
    cases present with
    | false =>
        obtain ⟨rfl, rfl⟩ := run_pure_eq_ok.1 hread
        rfl
    | true =>
        obtain ⟨hash, hhash, rfl⟩ := run_map_eq_ok.1 hread
        obtain ⟨-, rfl⟩ := (decodes_hash _ _ _).1 hhash
        rfl
  · rintro rfl
    cases h with
    | none => exact ⟨false, rest, rfl, run_pure_eq_ok.2 ⟨rfl, rfl⟩⟩
    | some hash =>
        exact ⟨true, contentHashBytes hash ++ rest, rfl, run_map_eq_ok.2
          ⟨hash, (decodes_hash _ _ _).2 ⟨trivial, rfl⟩, rfl⟩⟩

/-- **A block is read back from its layout.** -/
theorem decodes_block : Decodes (block tooLarge malformed) payloadLayout fun b =>
    b.header.shardId.length ≤ maxShardIdLen ∧
      SourceFits b.header.version b.header.round b.header.sourceCheckpoint ∧
      b.reputationList.Fits := by
  intro input b rest
  unfold block
  simp only [run_bind_eq_ok, run_pure_eq_ok, decodes_u16 _ _ _, decodes_u64 _ _ _,
    decodes_hash _ _ _, decodes_bytes (show maxShardIdLen < 256 ^ 8 by decide) _ _ _,
    decodes_source _ _ _ _ _, decodes_previous _ _ _, decodes_list _ _ _, true_and]
  constructor
  · rintro ⟨version, _, rfl, shardId, _, ⟨hshard, rfl⟩, wave, _, rfl, round, _, rfl, source, _,
      ⟨hsource, rfl⟩, previous, _, rfl, config, _, rfl, ratings, _, rfl, penalties, _, rfl, root, _,
      rfl, list, _, ⟨hlist, rfl⟩, rfl, rfl⟩
    refine ⟨⟨hshard, hsource, hlist⟩, ?_⟩
    simp only [payloadLayout, headerLayout, List.append_assoc]
  · rintro ⟨⟨hshard, hsource, hlist⟩, rfl⟩
    refine ⟨b.header.version, _, ?_, b.header.shardId, _, ⟨hshard, rfl⟩,
      b.header.sourceFinalizedWave, _, rfl, b.header.round, _, rfl, b.header.sourceCheckpoint, _,
      ⟨hsource, rfl⟩, b.header.previousReputationHash, _, rfl, b.header.configHash, _, rfl,
      b.header.ratingsHash, _, rfl, b.header.penaltiesHash, _, rfl, b.header.reputationRoot, _, rfl,
      b.reputationList, rest, ⟨hlist, rfl⟩, rfl, rfl⟩
    simp only [payloadLayout, headerLayout, List.append_assoc]

end PorReader

/-! ### Decoding undoes encoding -/

variable {hasher : List Byte → ContentHash} {block : ReputationBlock} {bytes payload : List Byte}
  {version : U16}

/-- What a payload is. -/
theorem encodePayload_eq_ok :
    encodeReputationBlockPayload hasher block = .ok bytes ↔
      validateReputationBlock hasher block = .ok () ∧ block.reputationList.Fits ∧
        (payloadLayout block).length ≤ maxBlockPayloadLen ∧ bytes = payloadLayout block := by
  unfold encodeReputationBlockPayload
  rw [check_eq_ok, (PorWriter.writes_block block).run_nil]
  simp only [Nat.cast_withTop, WithTop.coe_le_coe]

theorem validateReputationBlock_sourceFits (h : validateReputationBlock hasher block = .ok ()) :
    PorReader.SourceFits block.header.version block.header.round block.header.sourceCheckpoint := by
  obtain ⟨-, hsource, -⟩ := validateReputationBlock_eq_ok.1 h
  unfold ReputationBlockHeader.validateSource at hsource
  split_ifs at hsource with hwave hbad hcheckpoint
  · refine Or.inl ⟨hwave, ?_⟩
    simpa using (not_or.1 hbad).1
  · cases hs : block.header.sourceCheckpoint with
    | none => simp [hs] at hsource
    | some source =>
        rw [hs] at hsource
        obtain ⟨hbad, -⟩ := guard_eq_ok.1 hsource
        exact Or.inr ⟨hcheckpoint, source, rfl, not_not.1 (not_or.1 hbad).2⟩

/-- **A payload is decoded to a block exactly where it is the encoding of it.** -/
theorem decodePayload_eq_ok :
    decodeReputationBlockPayload hasher bytes = .ok block ↔
      encodeReputationBlockPayload hasher block = .ok bytes := by
  unfold decodeReputationBlockPayload
  rw [encodePayload_eq_ok, guard_eq_ok, not_lt, bind_eq_ok, Prod.exists]
  constructor
  · rintro ⟨hlen, b, rest, hread, h⟩
    obtain ⟨hrest, h⟩ := guard_eq_ok.1 h
    obtain ⟨hvalid, h⟩ := check_eq_ok.1 h
    obtain rfl := Except.ok.inj h
    obtain rfl : rest = [] := not_not.1 hrest
    obtain ⟨⟨-, -, hfits⟩, rfl⟩ := (PorReader.decodes_block _ _ _).1 hread
    rw [List.append_nil] at hlen ⊢
    exact ⟨hvalid, hfits, hlen, rfl⟩
  · rintro ⟨hvalid, hfits, hlen, rfl⟩
    have hshard := (validateReputationBlock_eq_ok.1 hvalid).1.2
    refine ⟨hlen, block, [], (PorReader.decodes_block _ _ _).2
      ⟨⟨hshard, validateReputationBlock_sourceFits hvalid, hfits⟩, (List.append_nil _).symm⟩, ?_⟩
    exact guard_eq_ok.2 ⟨by simp, check_eq_ok.2 ⟨hvalid, rfl⟩⟩

/-- The versions of blocks and snapshots. -/
def KnownVersion (version : U16) : Prop :=
  version = reputationBlockVersion ∨ version = checkpointReputationBlockVersion

/-- **An envelope opens to what was sealed in it.** -/
theorem EnvelopeFormat.unseal_eq_ok {format : EnvelopeFormat}
    (hmagic : format.magic.length = 17) :
    format.unseal bytes = .ok (version, payload) ↔
      KnownVersion version ∧ payload.length ≤ maxBlockPayloadLen ∧
        bytes = format.seal version payload := by
  have hread : ∀ rest, format.reader.run bytes = .ok ((version, payload), rest) ↔
      rest = [] ∧ KnownVersion version ∧ payload.length ≤ maxBlockPayloadLen ∧
        bytes = format.seal version payload := by
    intro rest
    have hknown : ∀ v : U16, ¬(v ≠ reputationBlockVersion ∧ v ≠ checkpointReputationBlockVersion) ↔
        KnownVersion v := fun v => by unfold KnownVersion; tauto
    unfold EnvelopeFormat.reader EnvelopeFormat.seal
    simp only [run_bind_eq_ok, run_guard_eq_ok, run_get_eq_ok, run_pure_eq_ok,
      decodes_take _ _ _ _ _, PorReader.decodes_u16 _ _ _, PorReader.decodes_hash _ _ _,
      PorReader.decodes_bounded (show maxBlockPayloadLen < 256 ^ 8 by decide) _ _ _, hknown, not_not,
      true_and, id, Nat.lt_succ_iff]
    constructor
    · rintro ⟨_, _, ⟨-, rfl⟩, rfl, v, _, rfl, hversion, len, _, ⟨hlen, rfl⟩, _, _, ⟨rfl, rfl⟩,
        hremaining, p, _, ⟨rfl, rfl⟩, checksum, left, rfl, rfl, heq, rfl⟩
      obtain ⟨rfl, rfl⟩ := Prod.mk.inj heq
      obtain rfl : left = [] := by
        rw [← List.length_eq_zero_iff]
        simp only [List.length_append, length_contentHashBytes] at hremaining
        omega
      exact ⟨rfl, hversion, hlen, by rw [List.append_nil]⟩
    · rintro ⟨rfl, hversion, hlen, rfl⟩
      refine ⟨format.magic, _, ⟨rfl, rfl⟩, rfl, version, _, rfl, hversion, payload.length, _,
        ⟨hlen, rfl⟩, _, _, ⟨rfl, rfl⟩, ?_, payload, _, ⟨rfl, rfl⟩, _, [], (List.append_nil _).symm,
        rfl, rfl, rfl⟩
      rw [List.length_append, length_contentHashBytes]
  have hfst : Prod.fst <$> format.reader.run bytes = .ok (version, payload) ↔
      KnownVersion version ∧ payload.length ≤ maxBlockPayloadLen ∧
        bytes = format.seal version payload := by
    simp only [Functor.map, map_eq_ok, Prod.exists]
    constructor
    · rintro ⟨v, p, rest, h, heq⟩
      obtain ⟨rfl, rfl⟩ := Prod.mk.inj heq
      exact ((hread rest).1 h).2
    · intro h
      exact ⟨version, payload, [], (hread []).2 ⟨rfl, h⟩, rfl⟩
  unfold EnvelopeFormat.unseal
  rw [guard_eq_ok, guard_eq_ok, hfst]
  refine ⟨fun h => h.2.2, fun h => ⟨?_, ?_, h⟩⟩
  · obtain ⟨-, hlen, rfl⟩ := h
    unfold EnvelopeFormat.seal
    simp only [List.length_append, length_contentHashBytes, length_beBytes, hmagic]
    unfold maxBlockPayloadLen fixedEnvelopeLen maxBlockWireLen at *
    omega
  · obtain ⟨-, -, rfl⟩ := h
    unfold EnvelopeFormat.seal
    simp only [List.length_append, length_contentHashBytes, length_beBytes, hmagic]
    unfold fixedEnvelopeLen
    omega

/-- **A published envelope decodes to a block exactly where it is the encoding of it.** -/
theorem decodeReputationBlock_eq_ok_iff :
    decodeReputationBlock hasher bytes = .ok block ↔
      encodeReputationBlock hasher block = .ok bytes := by
  unfold decodeReputationBlock encodeReputationBlock
  rw [bind_eq_ok, bind_eq_ok, Prod.exists]
  constructor
  · rintro ⟨version, payload, hopen, h⟩
    obtain ⟨-, -, rfl⟩ := (EnvelopeFormat.unseal_eq_ok rfl).1 hopen
    obtain ⟨b, hb, h⟩ := bind_eq_ok.1 h
    obtain ⟨hversion, h⟩ := guard_eq_ok.1 h
    obtain rfl := Except.ok.inj h
    refine ⟨payload, decodePayload_eq_ok.1 hb, ?_⟩
    rw [not_not.1 hversion]
  · rintro ⟨payload, hpayload, h⟩
    obtain rfl := Except.ok.inj h
    obtain ⟨hvalid, -, hlen, rfl⟩ := encodePayload_eq_ok.1 hpayload
    have hversion : KnownVersion block.header.version := by
      rcases validateReputationBlock_sourceFits hvalid with ⟨h, -⟩ | ⟨h, -⟩
      · exact Or.inl h
      · exact Or.inr h
    refine ⟨block.header.version, payloadLayout block,
      (EnvelopeFormat.unseal_eq_ok rfl).2 ⟨hversion, hlen, rfl⟩, bind_eq_ok.2
        ⟨block, decodePayload_eq_ok.2 hpayload, ?_⟩⟩
    rw [if_neg (not_not.2 rfl)]

/-- **The wire codec of reputation blocks is exact.**  What is encoded decodes to the
block, and only what some block encodes to is decoded. -/
theorem reputation_block_codec (hasher : List Byte → ContentHash) :
    (∀ block bytes, encodeReputationBlock hasher block = .ok bytes →
      decodeReputationBlock hasher bytes = .ok block) ∧
    ∀ bytes block, decodeReputationBlock hasher bytes = .ok block →
      encodeReputationBlock hasher block = .ok bytes := by
  constructor
  · intro block bytes hencode
    exact decodeReputationBlock_eq_ok_iff.2 hencode
  · intro bytes block hdecode
    exact decodeReputationBlock_eq_ok_iff.1 hdecode

theorem length_of_encodeReputationBlock (h : encodeReputationBlock hasher block = .ok bytes) :
    bytes.length ≤ maxBlockWireLen := by
  obtain ⟨payload, hpayload, h⟩ := bind_eq_ok.1 h
  obtain rfl := Except.ok.inj h
  obtain ⟨-, -, hlen, rfl⟩ := encodePayload_eq_ok.1 hpayload
  have hmagic : (reputationBlockFormat hasher).magic.length = 17 := rfl
  unfold EnvelopeFormat.seal
  simp only [List.length_append, length_contentHashBytes, length_beBytes, hmagic]
  unfold maxBlockPayloadLen fixedEnvelopeLen maxBlockWireLen at *
  omega

end CordialMiners.Reputation
