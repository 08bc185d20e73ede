/-
# The record of activated weights

`por/activation.rs`: the record of the weights Cordial accepted last, its encoding, and
the store that writes and restores it.

A record is read from bytes exactly where it is within the limits of the format and the
bytes are its encoding (`decodeActivationRecord_eq_ok`).  What is written is checked
for its length alone: the number of validators and the length of their identities are
limits of the reader.
-/

import CordialMiners.Collections.OrderedMap
import CordialMiners.Reputation.Snapshot
import CordialMiners.WeightEpoch.Replay

namespace CordialMiners.Reputation

open Codec

/-! ### Records -/

/-- `PorWeightActivationRecord`.  Hash and wave of the latest block are there together. -/
structure PorWeightActivationRecord where
  reputationRound : U64
  checkpointHash : Option ReputationCommitment
  sourceFinalizedWave : Option U64
  weights : OrderedMap NodeId U64
  weightsCommitment : ReputationCommitment
  paired : checkpointHash.isSome = sourceFinalizedWave.isSome
deriving DecidableEq

/-- `PorWeightActivationStoreError`, but for those of the file system and the lock. -/
inductive PorWeightActivationStoreError where
  | malformedRecord
  | recordTooLarge (actual maximum : ℕ)
  | projectionCommitmentMismatch
  | unsupportedVersion (version : U16)
  | checksumMismatch
deriving DecidableEq, Repr

/-- `POR_WEIGHT_ACTIVATION_MAGIC`. -/
def activationMagic : List Byte := asciiBytes "cordial-por-weight-activation"

/-- `POR_WEIGHT_ACTIVATION_VERSION`. -/
def activationVersion : U16 := 2

/-- `MAX_POR_WEIGHT_ACTIVATION_RECORD_LEN`. -/
def maxActivationRecordLen : ℕ := maxStateSnapshotLen

/-- The identity and the weight of one validator. -/
def weightLayout (entry : NodeId × U64) : List Byte :=
  putBytes entry.1.bytes ++ beBytes 8 entry.2.val

/-- The weights in the order of the identities, behind their number. -/
def weightsLayout (weights : OrderedMap NodeId U64) : List Byte :=
  beBytes 8 weights.entries.length ++ weights.entries.flatMap weightLayout

section Hasher

variable (hasher : List Byte → ContentHash)

/-- `authorized_weight_commitment` of a map. -/
def weightMapCommitment (weights : OrderedMap NodeId U64) : ReputationCommitment :=
  hasher (weightCommitmentDomain ++ weightsLayout weights)

/-- Hash and wave of a state's latest block. -/
def latestCheckpoint (s : ReputationState) :
    Except PorError (Option (ReputationCommitment × U64)) :=
  match s.latestBlock with
  | some block => do
      let hash ← reputationBlockHash hasher block
      .ok (some (hash, block.header.sourceFinalizedWave))
  | none => .ok none

/-- `PorWeightActivationRecord::from_state_and_weights`. -/
def PorWeightActivationRecord.fromStateAndWeights (s : ReputationState)
    (weights : OrderedMap NodeId U64) : Except PorError PorWeightActivationRecord := do
  let checkpoint ← latestCheckpoint hasher s
  .ok
    { reputationRound := s.currentRound
      checkpointHash := checkpoint.map Prod.fst
      sourceFinalizedWave := checkpoint.map Prod.snd
      weights := weights
      weightsCommitment := weightMapCommitment hasher weights
      paired := by simp }

/-! ### Encoding -/

/-- Hash and wave of the latest block, behind a byte that says whether there is one. -/
def checkpointLayout : Option (ReputationCommitment × U64) → List Byte
  | none => [0]
  | some (hash, wave) => 1 :: (contentHashBytes hash ++ beBytes 8 wave.val)

/-- The two fields of the latest block. -/
def PorWeightActivationRecord.checkpoint (record : PorWeightActivationRecord) :
    Option (ReputationCommitment × U64) :=
  match record.checkpointHash, record.sourceFinalizedWave with
  | some hash, some wave => some (hash, wave)
  -- one without the other is no record
  | _, _ => none

/-- The payload of a record. -/
def PorWeightActivationRecord.payload (record : PorWeightActivationRecord) : List Byte :=
  beBytes 8 record.reputationRound.val ++ (checkpointLayout record.checkpoint ++
    (contentHashBytes record.weightsCommitment ++ weightsLayout record.weights))

/-- What the checksum covers: magic, version and length in front of the payload. -/
def activationBody (payload : List Byte) : List Byte :=
  activationMagic ++ (beBytes 2 activationVersion.val ++ (beBytes 8 payload.length ++ payload))

/-- The checksum, under `POR_WEIGHT_ACTIVATION_CHECKSUM_DOMAIN`. -/
def activationChecksum (payload : List Byte) : ContentHash :=
  hasher (asciiBytes "cordial-por:weight-activation-record:v2" ++ activationBody payload)

/-- `encode_activation_record`. -/
def encodeActivationRecord (record : PorWeightActivationRecord) : List Byte :=
  activationBody record.payload ++ contentHashBytes (activationChecksum hasher record.payload)

end Hasher

/-! ### Decoding -/

abbrev ActivationReader := Codec.Reader Byte PorWeightActivationStoreError

namespace ActivationReader

/-- `take_bytes`. -/
abbrev bytes (len : ℕ) : ActivationReader (List Byte) := take .malformedRecord len

/-- A version. -/
def u16 : ActivationReader U16 := (fun n => Fin.ofNat _ n) <$> (ofBeBytes <$> bytes 2)

/-- `take_u64`. -/
def u64 : ActivationReader U64 := (fun n => Fin.ofNat _ n) <$> (ofBeBytes <$> bytes 8)

/-- `take_commitment`. -/
def commitment : ActivationReader ReputationCommitment := contentHashOf <$> bytes 32

/-- `take_len`. -/
def len (maximum : ℕ) : ActivationReader ℕ :=
  checked (ofBeBytes <$> bytes 8) fun n => if n > maximum then .error .malformedRecord else .ok ()

/-- Hash and wave of the latest block. -/
def checkpoint : ActivationReader (Option (ReputationCommitment × U64)) := do
  let presence ← bytes 1
  if presence = [0] then pure none
  else if presence = [1] then
    let hash ← commitment
    let wave ← u64
    pure (some (hash, wave))
  else throw .malformedRecord

/-- An identity behind its length. -/
def nodeId : ActivationReader NodeId := len maxStateNodeIdLen >>= fun n => NodeId.mk <$> bytes n

/-- One weight, of a validator above the previous one. -/
def weight (previous : Option NodeId) : ActivationReader (NodeId × U64) := do
  let nodeId ← nodeId
  if previous.any fun p => nodeId ≤ p then throw .malformedRecord
  else
    let weight ← u64
    pure (nodeId, weight)

/-- The fields of a payload; the sum of the weights fits in 128 bits. -/
def payload (hasher : List Byte → ContentHash) : ActivationReader PorWeightActivationRecord := do
  let reputationRound ← u64
  let checkpoint ← checkpoint
  let weightsCommitment ← commitment
  let count ← len maxStateEntries
  if count = 0 then throw .malformedRecord
  else
    let entries ← readChain weight (fun entry => some entry.1) count none
    let rest ← get
    if rest ≠ [] ∨ (entries.map fun entry => entry.2.val).sum = 0 then throw .malformedRecord
    else
      let weights := OrderedMap.empty.insertAll Prod.fst Prod.snd entries
      if weightMapCommitment hasher weights ≠ weightsCommitment then
        throw .projectionCommitmentMismatch
      else
        pure ⟨reputationRound, checkpoint.map Prod.fst, checkpoint.map Prod.snd, weights,
          weightsCommitment, by simp⟩

/-- The envelope of a payload.  The two additions of the source that check for an overflow
fail only where the length is wrong, too. -/
def envelope (hasher : List Byte → ContentHash) : ActivationReader (List Byte) := do
  let magic ← bytes activationMagic.length
  if magic ≠ activationMagic then throw .malformedRecord
  else
    let version ← u16
    if version ≠ activationVersion then throw (.unsupportedVersion version)
    else
      let payloadLen ← u64
      let remaining ← get
      if remaining.length ≠ payloadLen.val + 32 then throw .malformedRecord
      else
        let payload ← bytes payloadLen.val
        let checksum ← commitment
        if checksum ≠ activationChecksum hasher payload then throw .checksumMismatch
        else pure payload

end ActivationReader

/-- `decode_activation_record`. -/
def decodeActivationRecord (hasher : List Byte → ContentHash) (encoded : List Byte) :
    Except PorWeightActivationStoreError PorWeightActivationRecord :=
  if encoded.length < activationMagic.length + 2 + 8 + 32 then .error .malformedRecord
  else do
    let (payload, _) ← (ActivationReader.envelope hasher).run encoded
    Prod.fst <$> (ActivationReader.payload hasher).run payload

/-! ### The store -/

/-- `PorWeightActivationStore`: the bytes of the record's file, which is replaced as a
whole. -/
structure PorWeightActivationStore where
  file : Option (List Byte)
deriving DecidableEq

namespace PorWeightActivationStore

variable (hasher : List Byte → ContentHash)

/-- `PorWeightActivationStore::persist`. -/
def persist (store : PorWeightActivationStore) (record : PorWeightActivationRecord) :
    Except PorWeightActivationStoreError PorWeightActivationStore :=
  let encoded := encodeActivationRecord hasher record
  if encoded.length > maxActivationRecordLen then
    .error (.recordTooLarge encoded.length maxActivationRecordLen)
  else .ok { store with file := some encoded }

/-- `PorWeightActivationStore::restore`. -/
def restore (store : PorWeightActivationStore) :
    Except PorWeightActivationStoreError (Option PorWeightActivationRecord) :=
  match store.file with
  | none => .ok none
  | some file =>
      let encoded := file.take (maxActivationRecordLen + 1)
      if encoded.length > maxActivationRecordLen then .error .malformedRecord
      else some <$> decodeActivationRecord hasher encoded

end PorWeightActivationStore

/-- The commitment of a bond table is that of its map. -/
theorem authorizedWeightCommitment_eq (hasher : List Byte → ContentHash) (bonds : Bonds) :
    authorizedWeightCommitment hasher bonds = weightMapCommitment hasher
      (OrderedMap.empty.insertAll Sigma.fst Sigma.snd bonds.table.entries) := by
  have hnodup : (bonds.table.entries.map Sigma.fst).Nodup := bonds.table.keys_nodup
  have hperm : (OrderedMap.empty.insertAll Sigma.fst Sigma.snd bonds.table.entries).entries.Perm
      (bonds.table.entries.map fun e => (e.1, e.2)) := OrderedMap.insertAll_perm hnodup
  generalize OrderedMap.empty.insertAll Sigma.fst Sigma.snd bonds.table.entries = weights
    at hperm ⊢
  have hsorted : weights.entries = (sortedWeights bonds).entries.map fun e => (e.1, e.2) := by
    have hsortedPerm := (perm_sortedWeights bonds).map fun e => (e.1, e.2)
    refine List.Perm.eq_of_pairwise (fun a b ha hb hab hba => ?_)
      (weights.ascending.imp fun h => h.le) (List.pairwise_map.2 (pairwise_sortedWeights bonds))
      (hperm.trans hsortedPerm.symm)
    obtain ⟨a', ha', rfl⟩ := List.mem_map.1 (hperm.mem_iff.1 ha)
    obtain ⟨b', hb', rfl⟩ := List.mem_map.1 (hsortedPerm.mem_iff.1 hb)
    rw [bonds.table.nodupKeys.eq_of_fst_eq ha' hb' (le_antisymm hab hba)]
  unfold authorizedWeightCommitment weightMapCommitment weightsLayout
  rw [hsorted, List.length_map, List.flatMap_map, ← List.append_assoc]
  rfl

/-! ### Decoding undoes encoding -/

namespace ActivationReader

open PorWeightActivationStoreError (malformedRecord)

theorem decodes_u16 : Decodes u16 (fun n => beBytes 2 n.val) fun _ => True :=
  decodes_fin malformedRecord (by norm_num)

theorem decodes_u64 : Decodes u64 (fun n => beBytes 8 n.val) fun _ => True :=
  decodes_fin malformedRecord (by norm_num)

theorem decodes_commitment : Decodes commitment contentHashBytes fun _ => True :=
  decodes_contentHash malformedRecord

theorem decodes_len {maximum : ℕ} (hmaximum : maximum < 256 ^ 8) :
    Decodes (len maximum) (beBytes 8) (· ≤ maximum) :=
  ((decodes_number malformedRecord 8).checked _).congr fun n => by
    split_ifs with h
    · exact iff_of_false (by simp) (by omega)
    · exact iff_of_true ⟨by omega, rfl⟩ (by omega)

theorem decodes_checkpoint : Decodes checkpoint checkpointLayout fun _ => True := by
  intro input latest rest
  unfold checkpoint bytes
  simp only [run_bind_eq_ok, decodes_take _ _ _ _ _, id, true_and]
  constructor
  · rintro ⟨presence, mid, ⟨-, rfl⟩, h⟩
    split_ifs at h with h₀ h₁
    · obtain ⟨rfl, rfl⟩ := run_pure_eq_ok.1 h
      rw [h₀]
      rfl
    · simp only [run_bind_eq_ok, run_pure_eq_ok, decodes_commitment _ _ _,
        decodes_u64 _ _ _, true_and] at h
      obtain ⟨hash, _, rfl, wave, _, rfl, rfl, rfl⟩ := h
      rw [h₁]
      simp only [checkpointLayout, List.cons_append, List.nil_append, List.append_assoc]
    · exact absurd h run_throw_ne_ok
  · rintro rfl
    cases latest with
    | none => exact ⟨[0], rest, ⟨rfl, rfl⟩, run_pure_eq_ok.2 ⟨rfl, rfl⟩⟩
    | some latest =>
        refine ⟨[1], contentHashBytes latest.1 ++ (beBytes 8 latest.2.val ++ rest), ⟨rfl, ?_⟩, ?_⟩
        · rw [checkpointLayout, List.cons_append, List.append_assoc]
          rfl
        · rw [if_neg (by decide), if_pos rfl]
          simp only [run_bind_eq_ok, run_pure_eq_ok, decodes_commitment _ _ _,
            decodes_u64 _ _ _, true_and]
          exact ⟨latest.1, _, rfl, latest.2, rest, rfl, rfl, rfl⟩

theorem decodes_nodeId :
    Decodes nodeId (fun id => putBytes id.bytes) fun id =>
      id.bytes.length ≤ maxStateNodeIdLen := by
  have hlen := (@decodes_len maxStateNodeIdLen (by decide)).congr fun n =>
    (@Nat.lt_succ_iff n maxStateNodeIdLen).symm
  exact (hlen.sized fun n => ((decodes_take malformedRecord n).map (fun _ h => ⟨h, rfl⟩) fun _ h => ⟨h, rfl⟩).congr fun _ =>
      (and_iff_left trivial).symm).congr fun id => by rw [and_true, Nat.lt_succ_iff]

/-- **A weight is read back from its layout**, above the previous validator. -/
theorem decodes_weight (previous : Option NodeId) :
    Decodes (weight previous) weightLayout fun entry =>
      (∀ id ∈ previous, id < entry.1) ∧ entry.1.bytes.length ≤ maxStateNodeIdLen := by
  have hany : ∀ id : NodeId, (previous.any fun p => id ≤ p) = true ↔ ¬∀ p ∈ previous, p < id := by
    intro id
    cases previous <;> simp
  intro input entry rest
  unfold weight
  simp only [decodes_nodeId _ _ _, run_guard_eq_ok, run_bind_eq_ok, run_pure_eq_ok,
    decodes_u64 _ _ _, true_and, hany, not_not]
  constructor
  · rintro ⟨id, _, ⟨hid, rfl⟩, habove, weight, _, rfl, rfl, rfl⟩
    exact ⟨⟨habove, hid⟩, by rw [weightLayout, List.append_assoc]⟩
  · rintro ⟨⟨habove, hid⟩, rfl⟩
    refine ⟨entry.1, _, ⟨hid, ?_⟩, habove, entry.2, rest, rfl, rfl, rfl⟩
    rw [weightLayout, List.append_assoc]

end ActivationReader

/-- A record within the limits of the format, whose commitment is that of its weights. -/
structure PorWeightActivationRecord.Fits (hasher : List Byte → ContentHash)
    (record : PorWeightActivationRecord) : Prop where
  count : record.weights.entries.length ≤ maxStateEntries
  nodeIds : ∀ entry ∈ record.weights.entries, entry.1.bytes.length ≤ maxStateNodeIdLen
  total : (record.weights.entries.map fun entry => entry.2.val).sum ≠ 0
  commitment : weightMapCommitment hasher record.weights = record.weightsCommitment

variable {hasher : List Byte → ContentHash} {record : PorWeightActivationRecord}
  {bytes payload rest : List Byte}

/-- The two fields of the latest block are what is written of it. -/
theorem PorWeightActivationRecord.checkpoint_fields (record : PorWeightActivationRecord) :
    record.checkpoint.map Prod.fst = record.checkpointHash ∧
      record.checkpoint.map Prod.snd = record.sourceFinalizedWave := by
  obtain ⟨round, hash, wave, weights, commitment, paired⟩ := record
  cases hash with
  | none =>
      cases wave with
      | none => exact ⟨rfl, rfl⟩
      | some wave => exact absurd paired (by simp)
  | some hash =>
      cases wave with
      | none => exact absurd paired (by simp)
      | some wave => exact ⟨rfl, rfl⟩

theorem PorWeightActivationRecord.entries_ne_nil
    (h : (record.weights.entries.map fun entry => entry.2.val).sum ≠ 0) :
    record.weights.entries.length ≠ 0 := by
  rw [Ne, List.length_eq_zero_iff]
  intro hnil
  rw [hnil] at h
  exact h rfl

/-- **A payload is read as a record exactly where it is that of a fitting one.** -/
theorem ActivationReader.run_payload_iff :
    (ActivationReader.payload hasher).run bytes = .ok (record, rest) ↔
      rest = [] ∧ record.Fits hasher ∧ bytes = record.payload := by
  have hentries := decodes_readChain (fun entry : NodeId × U64 => some entry.1)
    decodes_weight
  unfold ActivationReader.payload
  simp only [run_bind_eq_ok, run_guard_eq_ok, run_get_eq_ok, run_pure_eq_ok,
    decodes_u64 _ _ _, decodes_checkpoint _ _ _, decodes_commitment _ _ _,
    decodes_len (show maxStateEntries < 256 ^ 8 by decide) _ _ _, hentries _ _ _ _ _, true_and,
    chained_ascending_iff]
  constructor
  · rintro ⟨round, _, rfl, latest, _, rfl, commitment, _, rfl, count, _, ⟨hcount, rfl⟩, -, entries,
      _, ⟨⟨rfl, hascending, hids, -⟩, rfl⟩, left, _, ⟨rfl, rfl⟩, hend, hcommitment, rfl, rfl⟩
    obtain ⟨hleft, htotal⟩ := not_or.1 hend
    obtain rfl := not_not.1 hleft
    have hweights : OrderedMap.empty.insertAll Prod.fst Prod.snd entries = ⟨entries, hascending⟩ :=
      @OrderedMap.insertAll_entries _ _ _ ⟨entries, hascending⟩
    refine ⟨rfl, ?_⟩
    simp only [hweights] at hcommitment ⊢
    refine ⟨⟨hcount, hids, htotal, not_not.1 hcommitment⟩, ?_⟩
    rw [List.append_nil]
    cases latest <;> rfl
  · rintro ⟨rfl, hfits, rfl⟩
    obtain ⟨hhash, hwave⟩ := record.checkpoint_fields
    have hweights : OrderedMap.empty.insertAll Prod.fst Prod.snd record.weights.entries =
        record.weights := OrderedMap.insertAll_entries
    refine ⟨record.reputationRound, _, rfl, record.checkpoint, _, rfl, record.weightsCommitment, _,
      rfl, record.weights.entries.length, _, ⟨hfits.count, rfl⟩,
      PorWeightActivationRecord.entries_ne_nil hfits.total, record.weights.entries, [],
      ⟨⟨rfl, record.weights.ascending, hfits.nodeIds, by simp⟩, (List.append_nil _).symm⟩, [], [],
      ⟨rfl, rfl⟩, not_or.2 ⟨not_not.2 rfl, hfits.total⟩, ?_, ?_, rfl⟩
    · rw [hweights]
      exact not_not.2 hfits.commitment
    · simp only [hhash, hwave, hweights]

theorem ActivationReader.run_envelope_iff :
    (ActivationReader.envelope hasher).run bytes = .ok (payload, rest) ↔
      rest = [] ∧ payload.length < 256 ^ 8 ∧
        bytes = activationBody payload ++ contentHashBytes (activationChecksum hasher payload) := by
  unfold ActivationReader.envelope activationBody
  simp only [run_bind_eq_ok, run_guard_eq_ok, run_get_eq_ok, run_pure_eq_ok,
    decodes_take _ _ _ _ _, decodes_u16 _ _ _, decodes_u64 _ _ _, decodes_commitment _ _ _,
    not_not, true_and, id]
  constructor
  · rintro ⟨_, _, ⟨-, rfl⟩, rfl, version, _, rfl, rfl, length, _, rfl, _, _, ⟨rfl, rfl⟩, hremaining,
      taken, _, ⟨hlength, rfl⟩, checksum, left, rfl, rfl, rfl, rfl⟩
    obtain rfl : left = [] := by
      rw [← List.length_eq_zero_iff]
      simp only [List.length_append, length_contentHashBytes] at hremaining
      omega
    refine ⟨rfl, hlength ▸ length.isLt, ?_⟩
    rw [hlength, List.append_nil]
    simp only [List.append_assoc]
  · rintro ⟨rfl, hlength, rfl⟩
    have hval : (Fin.ofNat (2 ^ 64) payload.length).val = payload.length := by
      rw [Fin.val_ofNat]
      exact Nat.mod_eq_of_lt hlength
    refine ⟨activationMagic, _, ⟨rfl, ?_⟩, rfl, activationVersion, beBytes 8 payload.length ++
        (payload ++ contentHashBytes (activationChecksum hasher payload)), rfl, rfl,
      Fin.ofNat (2 ^ 64) payload.length, _, ?_, _, _, ⟨rfl, rfl⟩, ?_, payload, _,
      ⟨hval.symm, rfl⟩, _, [], (List.append_nil _).symm, rfl, rfl, rfl⟩
    · simp only [List.append_assoc]
    · rw [hval]
    · rw [hval, List.length_append, length_contentHashBytes]

/-- The length of an encoding, from the validators and whether there is a latest block. -/
def activationRecordLen (latest : Bool) (validators : List NodeId) : ℕ :=
  120 + (if latest then 40 else 0) + (validators.map fun id => 16 + id.bytes.length).sum

theorem length_weightsLayout (weights : OrderedMap NodeId U64) :
    (weightsLayout weights).length = 8 + (weights.keys.map fun id => 16 + id.bytes.length).sum := by
  unfold weightsLayout OrderedMap.keys
  rw [List.length_append, length_beBytes, List.length_flatMap, List.map_map]
  congr 3
  funext entry
  simp only [weightLayout, putBytes, List.length_append, length_beBytes, Function.comp_apply]
  omega

theorem length_payload (record : PorWeightActivationRecord) :
    record.payload.length + 71 = activationRecordLen record.checkpoint.isSome record.weights.keys := by
  unfold PorWeightActivationRecord.payload activationRecordLen
  simp only [List.length_append, length_beBytes, length_contentHashBytes, length_weightsLayout]
  cases record.checkpoint with
  | none =>
      simp only [checkpointLayout, List.length_singleton, Option.isSome_none, Bool.false_eq_true,
        if_false]
      omega
  | some latest =>
      simp only [checkpointLayout, List.length_cons, List.length_append, length_beBytes,
        length_contentHashBytes, Option.isSome_some, if_true]
      omega

theorem length_encodeActivationRecord (record : PorWeightActivationRecord) :
    (encodeActivationRecord hasher record).length =
      activationRecordLen record.checkpoint.isSome record.weights.keys := by
  have hmagic : activationMagic.length = 29 := rfl
  rw [← length_payload]
  unfold encodeActivationRecord activationBody
  simp only [List.length_append, length_beBytes, length_contentHashBytes, hmagic]
  omega

/-- A fitting record is far from the end of the lengths. -/
theorem PorWeightActivationRecord.Fits.length_payload_lt (h : record.Fits hasher) :
    record.payload.length < 256 ^ 8 := by
  have hsum : (record.weights.keys.map fun id => 16 + id.bytes.length).sum ≤
      record.weights.keys.length * (16 + maxStateNodeIdLen) := by
    rw [← List.length_map (fun id : NodeId => 16 + id.bytes.length), ← smul_eq_mul]
    refine List.sum_le_card_nsmul _ _ fun n hn => ?_
    obtain ⟨id, hid, rfl⟩ := List.mem_map.1 hn
    obtain ⟨entry, hentry, rfl⟩ := List.mem_map.1 hid
    exact Nat.add_le_add_left (h.nodeIds entry hentry) 16
  have hkeys : record.weights.keys.length ≤ maxStateEntries := by
    unfold OrderedMap.keys
    rw [List.length_map]
    exact h.count
  have hbound := hsum.trans (Nat.mul_le_mul_right _ hkeys)
  have hlen := length_payload record
  unfold activationRecordLen at hlen
  have hmax : maxStateEntries * (16 + maxStateNodeIdLen) = 4112000000 := rfl
  split_ifs at hlen <;> omega

/-- **Bytes decode to a record exactly where it fits and they are its encoding.** -/
theorem decodeActivationRecord_eq_ok :
    decodeActivationRecord hasher bytes = .ok record ↔
      record.Fits hasher ∧ bytes = encodeActivationRecord hasher record := by
  unfold decodeActivationRecord
  rw [guard_eq_ok, bind_eq_ok, Prod.exists]
  simp only [Functor.map, map_eq_ok, ActivationReader.run_envelope_iff, Prod.exists,
    ActivationReader.run_payload_iff]
  constructor
  · rintro ⟨-, payload, _, ⟨rfl, -, rfl⟩, _, _, ⟨rfl, hfits, rfl⟩, rfl⟩
    exact ⟨hfits, rfl⟩
  · rintro ⟨hfits, rfl⟩
    refine ⟨?_, record.payload, [], ⟨rfl, hfits.length_payload_lt, rfl⟩, record, [],
      ⟨rfl, hfits, rfl⟩, rfl⟩
    have hmagic : activationMagic.length = 29 := rfl
    rw [length_encodeActivationRecord, hmagic]
    unfold activationRecordLen
    omega

/-- What is written is restored exactly where the record fits. -/
theorem PorWeightActivationStore.restore_persist_iff {store next : PorWeightActivationStore}
    (h : store.persist hasher record = .ok next) :
    next.restore hasher = .ok (some record) ↔ record.Fits hasher := by
  obtain ⟨hlen, h⟩ := guard_eq_ok.1 h
  obtain rfl := Except.ok.inj h
  have htake : (encodeActivationRecord hasher record).take (maxActivationRecordLen + 1) =
      encodeActivationRecord hasher record := List.take_of_length_le (by omega)
  unfold PorWeightActivationStore.restore
  simp only [htake, if_neg hlen, Functor.map, map_eq_ok, Option.some.injEq,
    exists_eq_right, decodeActivationRecord_eq_ok, and_true]

/-! ### Records of authorized weights -/

/-- The `HashMap` of some weights. -/
def weightMap (weights : List (NodeId × U64)) : OrderedMap NodeId U64 :=
  OrderedMap.empty.insertAll Prod.fst Prod.snd weights

/-- The limits of the reader, for the validators of a record. -/
structure ActivationLimits (validators : List NodeId) : Prop where
  count : validators.dedup.length ≤ maxStateEntries
  nodeIds : ∀ id ∈ validators, id.bytes.length ≤ maxStateNodeIdLen

variable {s : ReputationState} {validators : List NodeId} {weights : List (NodeId × U64)}

/-- What a record holds of a state and its weights. -/
theorem PorWeightActivationRecord.fromStateAndWeights_spec {table : OrderedMap NodeId U64}
    (h : fromStateAndWeights hasher s table = .ok record) :
    record.weights = table ∧ record.weightsCommitment = weightMapCommitment hasher table ∧
      record.checkpoint.isSome = s.latestBlock.isSome := by
  obtain ⟨latest, hlatest, h⟩ := bind_eq_ok.1 h
  obtain rfl := Except.ok.inj h
  refine ⟨rfl, rfl, ?_⟩
  unfold latestCheckpoint at hlatest
  cases hblock : s.latestBlock with
  | none =>
      rw [hblock] at hlatest
      obtain rfl := Except.ok.inj hlatest
      rfl
  | some block =>
      rw [hblock] at hlatest
      obtain ⟨hash, -, hlatest⟩ := bind_eq_ok.1 hlatest
      obtain rfl := Except.ok.inj hlatest
      rfl

/-- The entries of a record are the weights, and its validators the given ones. -/
theorem weightMap_perm (h : s.authorizedValidatorWeights validators = .ok weights) :
    (weightMap weights).entries.Perm weights ∧ (weightMap weights).keys.Perm validators.dedup := by
  obtain ⟨hnodup, hkeys, -⟩ := ReputationState.authorizedValidatorWeights_spec h
  have hentries : (weightMap weights).entries.Perm (weights.map fun e => (e.1, e.2)) :=
    OrderedMap.insertAll_perm hnodup
  rw [List.map_id'] at hentries
  exact ⟨hentries, (hentries.map Prod.fst).trans hkeys⟩

/-- **The record of authorized weights fits exactly where the validators are within the
limits.** -/
theorem PorWeightActivationRecord.fits_iff
    (hweights : s.authorizedValidatorWeights validators = .ok weights)
    (hrecord : fromStateAndWeights hasher s (weightMap weights) = .ok record) :
    record.Fits hasher ↔ ActivationLimits validators := by
  obtain ⟨htable, hcommitment, -⟩ := fromStateAndWeights_spec hrecord
  obtain ⟨hentries, hkeys⟩ := weightMap_perm hweights
  have hcount : record.weights.entries.length = validators.dedup.length := by
    rw [htable, ← hkeys.length_eq]
    exact (List.length_map _).symm
  have hids : (∀ entry ∈ record.weights.entries, entry.1.bytes.length ≤ maxStateNodeIdLen) ↔
      ∀ id ∈ validators, id.bytes.length ≤ maxStateNodeIdLen := by
    have hmem : ∀ id, id ∈ (weightMap weights).keys ↔ id ∈ validators := fun id => by
      rw [hkeys.mem_iff, List.mem_dedup]
    rw [htable]
    unfold OrderedMap.keys at hmem
    simp only [← hmem, List.forall_mem_map]
  constructor
  · intro h
    exact ⟨hcount ▸ h.count, hids.1 h.nodeIds⟩
  · intro h
    refine ⟨hcount.trans_le h.count, hids.2 h.nodeIds, ?_, ?_⟩
    · rw [htable, (hentries.map fun entry => entry.2.val).sum_eq]
      exact (ReputationState.authorizedValidatorWeights_spec hweights).2.2
    · rw [htable, hcommitment]

theorem length_encode_of_authorized
    (hweights : s.authorizedValidatorWeights validators = .ok weights)
    (hrecord : PorWeightActivationRecord.fromStateAndWeights hasher s (weightMap weights) =
      .ok record) :
    (encodeActivationRecord hasher record).length =
      activationRecordLen s.latestBlock.isSome validators.dedup := by
  obtain ⟨htable, -, hlatest⟩ := PorWeightActivationRecord.fromStateAndWeights_spec hrecord
  rw [length_encodeActivationRecord, htable, hlatest]
  unfold activationRecordLen
  rw [((weightMap_perm hweights).2.map fun id => 16 + id.bytes.length).sum_eq]

/-- **An activated record comes back from the store exactly where it is not written or its
validators are within the limits of the reader**, which the writer does not check.  What is
read is always the encoding of the record. -/
theorem activationRecord_restored_iff
    (hweights : s.authorizedValidatorWeights validators = .ok weights)
    (hrecord : PorWeightActivationRecord.fromStateAndWeights hasher s (weightMap weights) =
      .ok record) :
    ((∀ store next : PorWeightActivationStore, store.persist hasher record = .ok next →
        next.restore hasher = .ok (some record)) ↔
      ActivationLimits validators ∨
        maxActivationRecordLen < activationRecordLen s.latestBlock.isSome validators.dedup) ∧
    ∀ encoded decoded, decodeActivationRecord hasher encoded = .ok decoded →
      encoded = encodeActivationRecord hasher decoded := by
  refine ⟨?_, fun encoded decoded h => (decodeActivationRecord_eq_ok.1 h).2⟩
  have hfits := PorWeightActivationRecord.fits_iff hweights hrecord
  have hlen := length_encode_of_authorized hweights hrecord
  constructor
  · intro h
    by_cases hlong : maxActivationRecordLen <
        activationRecordLen s.latestBlock.isSome validators.dedup
    · exact .inr hlong
    · have hwritten : (⟨none⟩ : PorWeightActivationStore).persist hasher record =
          .ok ⟨some (encodeActivationRecord hasher record)⟩ := if_neg (hlen ▸ hlong)
      exact .inl (hfits.1 ((PorWeightActivationStore.restore_persist_iff hwritten).1
        (h _ _ hwritten)))
  · rintro (hlimits | hlong) store next hpersist
    · exact (PorWeightActivationStore.restore_persist_iff hpersist).2 (hfits.2 hlimits)
    · exact absurd (hlen ▸ hlong) (guard_eq_ok.1 hpersist).1

/-- A state with one validator. -/
def singleState (id : NodeId) : ReputationState := (ReputationState.new 0).setReputation id 1

/-- The record of that state. -/
def singleRecord (hasher : List Byte → ContentHash) (id : NodeId) : PorWeightActivationRecord :=
  ⟨0, none, none, weightMap [(id, 1)], weightMapCommitment hasher (weightMap [(id, 1)]), rfl⟩

theorem weights_singleState (id : NodeId) :
    (singleState id).authorizedValidatorWeights [id] = .ok [(id, 1)] := by
  have hentries : (singleState id).reputationList.entries = [.new id 1] := rfl
  have hentry : (singleState id).entry id = some (.new id 1) := by
    rw [ReputationState.entry, hentries, entryOf, Keyed.find, List.find?_cons]
    simp
  have hstep : (singleState id).addValidatorWeight ([], 0) id = .ok ([(id, 1)], 1) := by
    unfold ReputationState.addValidatorWeight
    rw [hentry]
    rfl
  unfold ReputationState.authorizedValidatorWeights
  rw [if_neg (List.cons_ne_nil _ _), List.foldlM_cons, hstep]
  rfl

theorem record_singleState (hasher : List Byte → ContentHash) (id : NodeId) :
    PorWeightActivationRecord.fromStateAndWeights hasher (singleState id) (weightMap [(id, 1)]) =
      .ok (singleRecord hasher id) := rfl

theorem persist_singleRecord (hasher : List Byte → ContentHash) {id : NodeId}
    (hshort : id.bytes.length ≤ maxStateNodeIdLen + 1) :
    (⟨none⟩ : PorWeightActivationStore).persist hasher (singleRecord hasher id) =
      .ok ⟨some (encodeActivationRecord hasher (singleRecord hasher id))⟩ := by
  have hnone : (singleState id).latestBlock.isSome = false := rfl
  have hdedup : [id].dedup = [id] := List.dedup_eq_self.2 (List.nodup_singleton id)
  refine if_neg ?_
  rw [length_encode_of_authorized (weights_singleState id) (record_singleState hasher id),
    hdedup, hnone]
  unfold activationRecordLen maxActivationRecordLen maxStateSnapshotLen
  rw [List.map_singleton, List.sum_singleton, if_neg Bool.false_ne_true]
  unfold maxStateNodeIdLen maxNodeIdLen at hshort
  omega

theorem activationRecord_restored_iff_single :
    (⟨none⟩ : PorWeightActivationStore).persist (fun _ => 0) (singleRecord (fun _ => 0) ⟨[7]⟩) =
        .ok ⟨some (encodeActivationRecord (fun _ => 0) (singleRecord (fun _ => 0) ⟨[7]⟩))⟩ ∧
      (⟨some (encodeActivationRecord (fun _ => 0) (singleRecord (fun _ => 0) ⟨[7]⟩))⟩ :
        PorWeightActivationStore).restore (fun _ => 0) =
          .ok (some (singleRecord (fun _ => 0) ⟨[7]⟩)) := by
  have hwritten := persist_singleRecord (fun _ => 0) (show [7].length ≤ maxStateNodeIdLen + 1 by
    decide)
  exact ⟨hwritten, (activationRecord_restored_iff (weights_singleState ⟨[7]⟩)
    (record_singleState _ ⟨[7]⟩)).1.2 (.inl ⟨by decide, by decide⟩) _ _ hwritten⟩

/-- An identity of one byte more than the reader takes. -/
def longIdentity : NodeId := ⟨List.replicate (maxStateNodeIdLen + 1) 0⟩

/-- **What is written of a long identity is not restored.** -/
theorem activationRecord_longIdentity :
    (singleState longIdentity).authorizedValidatorWeights [longIdentity] =
        .ok [(longIdentity, 1)] ∧
      PorWeightActivationRecord.fromStateAndWeights (fun _ => 0) (singleState longIdentity)
        (weightMap [(longIdentity, 1)]) = .ok (singleRecord (fun _ => 0) longIdentity) ∧
      ∃ next, (⟨none⟩ : PorWeightActivationStore).persist (fun _ => 0)
          (singleRecord (fun _ => 0) longIdentity) = .ok next ∧
        next.restore (fun _ => 0) ≠ .ok (some (singleRecord (fun _ => 0) longIdentity)) := by
  have hweights := weights_singleState longIdentity
  have hrecord := record_singleState (fun _ => 0) longIdentity
  have hlen : longIdentity.bytes.length = maxStateNodeIdLen + 1 := List.length_replicate
  have hwritten := persist_singleRecord (fun _ => 0) hlen.le
  refine ⟨hweights, hrecord, _, hwritten, fun hrestored => ?_⟩
  have hfits := (PorWeightActivationStore.restore_persist_iff hwritten).1 hrestored
  have hlimits := (PorWeightActivationRecord.fits_iff hweights hrecord).1 hfits
  have hshort := hlimits.nodeIds longIdentity List.mem_cons_self
  omega

end CordialMiners.Reputation
