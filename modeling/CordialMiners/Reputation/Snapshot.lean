/-
# State snapshots

`snapshot.rs` of `crates/cordial-por`.

A snapshot is the list, the registry of excluded keys and the latest block in one
envelope.  It decodes to a state exactly where it is the encoding of that state
(`decodeSnapshot_eq_ok_iff`), so a reload changes nothing.
-/

import CordialMiners.Reputation.Wire

namespace CordialMiners.Reputation

open Codec

/-! ### The format -/

namespace PorWriter

/-- List and registry, without a limit on the size. -/
def state (s : ReputationState) : PorWriter Unit := do
  u64 ⊤ .reputationStateSnapshotTooLarge s.currentRound
  list ⊤ .reputationStateSnapshotTooLarge s.reputationList
  count ⊤ .reputationStateSnapshotTooLarge s.excludedKeys.toList.length
  s.excludedKeys.toList.forM (nodeId ⊤ .reputationStateSnapshotTooLarge)

end PorWriter

namespace PorReader

/-- Round, list and excluded keys of a snapshot. -/
def state : PorReader (U64 × ReputationList × List NodeId) := do
  let round ← u64 .malformedReputationStateSnapshot
  let list ← list .reputationStateSnapshotTooLarge .malformedReputationStateSnapshot
  let excludedCount ← count .reputationStateSnapshotTooLarge .malformedReputationStateSnapshot
  let excluded ← readAscending .reputationStateSnapshotExclusionMismatch
    (nodeId .reputationStateSnapshotTooLarge .malformedReputationStateSnapshot) excludedCount none
  pure (round, list, excluded)

end PorReader

/-- `map_reputation_block_wire_error`. -/
def mapReputationBlockWireError : PorError → PorError
  | .reputationBlockWireTooLarge => .reputationStateSnapshotTooLarge
  | .malformedReputationBlockWire => .malformedReputationStateSnapshot
  | .unsupportedReputationBlockWireVersion _ => .malformedReputationStateSnapshot
  | .reputationBlockWireChecksumMismatch => .malformedReputationStateSnapshot
  | other => other

/-- `POR_STATE_SNAPSHOT_MAGIC`. -/
def stateSnapshotMagic : List Byte := asciiBytes "cordial-por-state"

/-- `MAX_REPUTATION_STATE_SNAPSHOT_LEN`. -/
def maxStateSnapshotLen : ℕ := 64 * 1024 * 1024

/-- The version of a state's snapshot. -/
def snapshotVersion (latestBlock : Option ReputationBlock) : U16 :=
  match latestBlock with
  | none => reputationBlockVersion
  | some block =>
      if block.header.version = checkpointReputationBlockVersion then
        checkpointReputationBlockVersion
      else reputationBlockVersion

/-- The latest block belongs in a snapshot of the version. -/
def versionMatches (version : U16) (latestBlock : Option ReputationBlock) : Bool :=
  match latestBlock with
  | none => version = reputationBlockVersion
  | some block =>
      (version = reputationBlockVersion ∧ block.header.version = reputationBlockVersion) ∨
        (version = checkpointReputationBlockVersion ∧
          block.header.version = checkpointReputationBlockVersion)

section Hasher

variable (hasher : List Byte → ContentHash)

/-- `snapshot_checksum`. -/
def snapshotChecksum (version : U16) (payload : List Byte) : ContentHash :=
  hasher ((if version = reputationBlockVersion then asciiBytes "cordial-por:state-snapshot:v2"
      else asciiBytes "cordial-por:state-snapshot:v3") ++
    stateSnapshotMagic ++ beBytes 2 version.val ++ beBytes 8 payload.length ++ payload)

/-- The envelope of a snapshot. -/
def stateSnapshotFormat : EnvelopeFormat where
  magic := stateSnapshotMagic
  checksum := snapshotChecksum hasher
  tooLarge := .reputationStateSnapshotTooLarge
  payloadTooLarge := .malformedReputationStateSnapshot
  malformed := .malformedReputationStateSnapshot
  unsupported := .unsupportedReputationStateSnapshotVersion
  checksumMismatch := .reputationStateSnapshotChecksumMismatch

/-- The latest block behind what is written, with its discriminant. -/
def appendLatestBlock (payload : List Byte) (latestBlock : Option ReputationBlock) :
    Except PorError (List Byte) :=
  match latestBlock with
  | none => .ok (payload ++ [0])
  | some block => do
      let encoded ← (encodeReputationBlockPayload hasher block).mapError mapReputationBlockWireError
      if (payload ++ 1 :: encoded).length > maxStateSnapshotLen - fixedEnvelopeLen then
        .error .reputationStateSnapshotTooLarge
      else .ok (payload ++ 1 :: encoded)

/-- `encode_reputation_state_snapshot`. -/
def encodeReputationStateSnapshot (s : ReputationState) : Except PorError (List Byte) := do
  s.validateSnapshotInvariants hasher
  let payload ← Prod.snd <$> (PorWriter.state s).run []
  let payload ← appendLatestBlock hasher payload s.latestBlock
  if fixedEnvelopeLen + payload.length > maxStateSnapshotLen then
    .error .reputationStateSnapshotTooLarge
  else .ok ((stateSnapshotFormat hasher).seal (snapshotVersion s.latestBlock) payload)

/-- The latest block at the end of a payload. -/
def readLatestBlock (present : Bool) (rest : List Byte) :
    Except PorError (Option ReputationBlock) :=
  if present then
    some <$> (decodeReputationBlockPayload hasher rest).mapError mapReputationBlockWireError
  else if rest ≠ [] then .error .malformedReputationStateSnapshot
  else .ok none

/-- `from_snapshot_parts`. -/
def fromSnapshotParts (round : U64) (list : ReputationList) (excluded : OrderedSet NodeId)
    (latestBlock : Option ReputationBlock) : Except PorError ReputationState := do
  ReputationState.validateSnapshotInvariants hasher ⟨round, list, excluded, [], latestBlock⟩
  .ok ⟨round, list, excluded, [], latestBlock⟩

/-- `decode_reputation_state_snapshot`. -/
def decodeReputationStateSnapshot (bytes : List Byte) : Except PorError ReputationState := do
  let (version, payload) ← (stateSnapshotFormat hasher).unseal bytes
  let ((round, list, excluded), rest) ← PorReader.state.run payload
  let (present, rest) ←
    (PorReader.discriminant .malformedReputationStateSnapshot).run rest
  let latestBlock ← readLatestBlock hasher present rest
  if !versionMatches version latestBlock then .error .reputationStateSnapshotBlockVersionMismatch
  else fromSnapshotParts hasher round list (excluded.foldl OrderedSet.insert .empty) latestBlock

end Hasher

/-! ### Decoding undoes encoding -/

/-- List and registry as they are written. -/
def stateLayout (s : ReputationState) : List Byte :=
  beBytes 8 s.currentRound.val ++ listLayout s.reputationList ++
    beBytes 8 s.excludedKeys.toList.length ++
    s.excludedKeys.toList.flatMap fun id => putBytes id.bytes

/-- The latest block as it is written. -/
def latestLayout : Option ReputationBlock → List Byte
  | none => [0]
  | some block => 1 :: payloadLayout block

/-- Counts, identities and the whole are within the limits of a snapshot. -/
structure ReputationState.Fits (s : ReputationState) : Prop where
  list : s.reputationList.Fits
  excludedCount : s.excludedKeys.toList.length ≤ maxBlockEntries
  excludedIds : ∀ id ∈ s.excludedKeys, NodeIdFits id
  latest : ∀ block, s.latestBlock = some block → block.reputationList.Fits
  size : (stateLayout s ++ latestLayout s.latestBlock).length ≤ maxStateSnapshotLen - fixedEnvelopeLen

variable {hasher : List Byte → ContentHash} {s t : ReputationState} {bytes : List Byte}

theorem PorWriter.writes_state (s : ReputationState) :
    Writes ⊤ (PorWriter.state s) (stateLayout s) (s.reputationList.Fits ∧
      s.excludedKeys.toList.length ≤ maxBlockEntries ∧ ∀ id ∈ s.excludedKeys, NodeIdFits id) :=
  (((@Writes.put _ _ _ _ .reputationStateSnapshotTooLarge).seq
    ((PorWriter.writes_list _).seq ((PorWriter.writes_count _).seq
    (Writes.forM PorWriter.writes_nodeId)))).congr (by rw [true_and]; rfl)).regroup
    (by simp only [stateLayout, List.append_assoc])

theorem appendLatestBlock_eq_ok {payload : List Byte} {latestBlock : Option ReputationBlock} :
    appendLatestBlock hasher payload latestBlock = .ok bytes ↔
      bytes = payload ++ latestLayout latestBlock ∧ ∀ block, latestBlock = some block →
        validateReputationBlock hasher block = .ok () ∧ block.reputationList.Fits ∧
          bytes.length ≤ maxStateSnapshotLen - fixedEnvelopeLen := by
  cases latestBlock with
  | none => simp [appendLatestBlock, latestLayout, eq_comm]
  | some block =>
      unfold appendLatestBlock
      dsimp only
      rw [bind_eq_ok]
      simp only [mapError_eq_ok, encodePayload_eq_ok, guard_eq_ok,
        not_lt, Except.ok.injEq, Option.some.injEq, forall_eq', latestLayout]
      constructor
      · rintro ⟨_, ⟨hvalid, hfits, -, rfl⟩, hlen, rfl⟩
        exact ⟨rfl, hvalid, hfits, hlen⟩
      · rintro ⟨rfl, hvalid, hfits, hlen⟩
        refine ⟨_, ⟨hvalid, hfits, ?_, rfl⟩, hlen, rfl⟩
        have hmax : maxStateSnapshotLen - fixedEnvelopeLen = maxBlockPayloadLen := rfl
        rw [hmax, List.length_append, List.length_cons] at hlen
        omega

/-- **What a snapshot is.** -/
theorem encodeSnapshot_eq_ok :
    encodeReputationStateSnapshot hasher s = .ok bytes ↔
      s.validateSnapshotInvariants hasher = .ok () ∧ s.Fits ∧
        bytes = (stateSnapshotFormat hasher).seal (snapshotVersion s.latestBlock)
          (stateLayout s ++ latestLayout s.latestBlock) := by
  unfold encodeReputationStateSnapshot
  rw [check_eq_ok, bind_eq_ok]
  refine and_congr_right fun hinv => ?_
  have hvalid := (ReputationState.validateSnapshotInvariants_eq_ok.1 hinv).2.2
  simp only [bind_eq_ok, (PorWriter.writes_state s).run_nil,
    appendLatestBlock_eq_ok, guard_eq_ok, not_lt, Except.ok.injEq]
  constructor
  · rintro ⟨_, ⟨⟨hlist, hcount, hids⟩, -, rfl⟩, _, ⟨rfl, hlatest⟩, hlen, rfl⟩
    refine ⟨⟨hlist, hcount, hids, fun block hb => (hlatest block hb).2.1, ?_⟩, rfl⟩
    omega
  · rintro ⟨h, rfl⟩
    have hsize := h.size
    refine ⟨_, ⟨⟨h.list, h.excludedCount, h.excludedIds⟩, le_top, rfl⟩, _, ⟨rfl, fun block hb =>
      ⟨(hvalid block hb).1, h.latest block hb, hsize⟩⟩, ?_, rfl⟩
    unfold maxStateSnapshotLen fixedEnvelopeLen at *
    omega

theorem PorReader.run_state {payload rest : List Byte} {round : U64} {list : ReputationList}
    {excluded : List NodeId} :
    PorReader.state.run payload = .ok ((round, list, excluded), rest) ↔
      (list.Fits ∧ excluded.length ≤ maxBlockEntries ∧ (∀ id ∈ excluded, NodeIdFits id) ∧
        excluded.Pairwise (· < ·)) ∧
      payload = beBytes 8 round.val ++ listLayout list ++ beBytes 8 excluded.length ++
        (excluded.flatMap fun id => putBytes id.bytes) ++ rest := by
  unfold PorReader.state PorReader.count
  simp only [run_bind_eq_ok, run_pure_eq_ok, PorReader.decodes_u64 _ _ _,
    PorReader.decodes_list _ _ _,
    PorReader.decodes_bounded (show maxBlockEntries < 256 ^ 8 by decide) _ _ _,
    decodes_readAscending _ PorReader.decodes_nodeId _ _ _ _ _, true_and, Nat.lt_succ_iff]
  constructor
  · rintro ⟨_, _, rfl, _, _, ⟨hlist, rfl⟩, _, _, ⟨hcount, rfl⟩, _, _,
      ⟨⟨rfl, hids, hascending, -⟩, rfl⟩, heq, rfl⟩
    cases heq
    exact ⟨⟨hlist, hcount, hids, hascending⟩, by simp only [List.append_assoc]⟩
  · rintro ⟨⟨hlist, hcount, hids, hascending⟩, rfl⟩
    refine ⟨round, _, ?_, list, _, ⟨hlist, rfl⟩, excluded.length, _, ⟨hcount, rfl⟩, excluded, rest,
      ⟨⟨rfl, hids, hascending, by simp⟩, rfl⟩, rfl, rfl⟩
    simp only [List.append_assoc]

/-- Keys read in order make up the set of them. -/
theorem OrderedSet.foldl_insert_toList {κ : Type} [LinearOrder κ] (keys : OrderedSet κ) :
    keys.toList.foldl OrderedSet.insert .empty = keys := by
  refine OrderedSet.ext_mem fun k => ?_
  have hfold : ∀ (l : List κ) (start : OrderedSet κ),
      k ∈ l.foldl OrderedSet.insert start ↔ k ∈ l ∨ k ∈ start := by
    intro l
    induction l with
    | nil => simp
    | cons a l ih =>
        intro start
        rw [List.foldl_cons, ih, OrderedSet.mem_insert, List.mem_cons]
        tauto
  rw [hfold]
  simp [OrderedSet.mem_toList]

theorem versionMatches_iff {version : U16} {latestBlock : Option ReputationBlock}
    (h : ∀ block, latestBlock = some block → KnownVersion block.header.version) :
    versionMatches version latestBlock = true ↔ version = snapshotVersion latestBlock := by
  have hne : checkpointReputationBlockVersion ≠ reputationBlockVersion := by decide
  cases latestBlock with
  | none => simp [versionMatches, snapshotVersion]
  | some block =>
      unfold versionMatches snapshotVersion
      rcases h block rfl with hb | hb
      · simp [hb, hne.symm]
      · simp [hb, hne]

theorem readLatestBlock_eq_ok {present : Bool} {rest : List Byte}
    {latestBlock : Option ReputationBlock} :
    readLatestBlock hasher present rest = .ok latestBlock ↔
      (if present then 1 else 0) :: rest = latestLayout latestBlock ∧
        present = latestBlock.isSome ∧ ∀ block, latestBlock = some block →
          encodeReputationBlockPayload hasher block = .ok (payloadLayout block) := by
  unfold readLatestBlock
  cases present with
  | false =>
      rw [if_neg (by simp), guard_eq_ok, not_not]
      cases latestBlock with
      | none => simp [latestLayout]
      | some block => simp
  | true =>
      rw [if_pos rfl]
      simp only [Functor.map, map_eq_ok, mapError_eq_ok,
        decodePayload_eq_ok]
      cases latestBlock with
      | none => simp
      | some block =>
          simp only [Option.some.injEq, exists_eq_right, latestLayout, List.cons.injEq,
            Option.isSome_some, forall_eq', true_and, if_true]
          constructor
          · intro h
            obtain ⟨-, -, -, rfl⟩ := encodePayload_eq_ok.1 h
            exact ⟨rfl, h⟩
          · rintro ⟨rfl, h⟩
            exact h

/-- **A snapshot decodes to a state exactly where it is the encoding of it.** -/
theorem decodeSnapshot_eq_ok_iff :
    decodeReputationStateSnapshot hasher bytes = .ok s ↔
      encodeReputationStateSnapshot hasher s = .ok bytes := by
  have hknown : ∀ block, validateReputationBlock hasher block = .ok () →
      KnownVersion block.header.version := by
    intro block h
    rcases validateReputationBlock_sourceFits h with ⟨h, -⟩ | ⟨h, -⟩
    · exact Or.inl h
    · exact Or.inr h
  unfold decodeReputationStateSnapshot fromSnapshotParts
  rw [encodeSnapshot_eq_ok]
  simp only [bind_eq_ok, Prod.exists, guard_eq_ok,
    EnvelopeFormat.unseal_eq_ok (show (stateSnapshotFormat hasher).magic.length = 17 from rfl), PorReader.run_state,
    PorReader.decodes_discriminant _ _ _, readLatestBlock_eq_ok, true_and, Except.ok.injEq]
  constructor
  · rintro ⟨version, payload, ⟨-, hlen, rfl⟩, round, list, excluded, rest,
      ⟨⟨hlist, hcount, hids, hascending⟩, rfl⟩, present, rest, rfl, latest, ⟨hlayout, -, hlatest⟩,
      hversion, ⟨⟩, hinv, rfl⟩
    have hkeys : (⟨excluded, hascending⟩ : OrderedSet NodeId) =
        excluded.foldl OrderedSet.insert .empty :=
      (OrderedSet.foldl_insert_toList ⟨excluded, hascending⟩).symm
    rw [← hkeys] at hinv ⊢
    have hvalid := (ReputationState.validateSnapshotInvariants_eq_ok.1 hinv).2.2
    rw [Bool.not_eq_true, Bool.not_eq_false', versionMatches_iff
      fun block hb => hknown block (hvalid block hb).1] at hversion
    subst hversion
    have hpayload : beBytes 8 round.val ++ listLayout list ++ beBytes 8 excluded.length ++
        (excluded.flatMap fun id => putBytes id.bytes) ++ ([if present then 1 else 0] ++ rest) =
          stateLayout ⟨round, list, ⟨excluded, hascending⟩, [], latest⟩ ++ latestLayout latest := by
      rw [← hlayout]
      rfl
    rw [hpayload] at hlen ⊢
    exact ⟨hinv, ⟨hlist, hcount, hids, fun block hb =>
      (encodePayload_eq_ok.1 (hlatest block hb)).2.1, hlen⟩, rfl⟩
  · rintro ⟨hinv, hfits, rfl⟩
    obtain ⟨hpending, -, hvalid⟩ := ReputationState.validateSnapshotInvariants_eq_ok.1 hinv
    have hlatest : latestLayout s.latestBlock =
        [if s.latestBlock.isSome then 1 else 0] ++ (latestLayout s.latestBlock).tail := by
      cases s.latestBlock <;> rfl
    have hsize := hfits.size
    refine ⟨_, _, ⟨?_, hsize, rfl⟩, s.currentRound, s.reputationList, s.excludedKeys.toList, _,
      ⟨⟨hfits.list, hfits.excludedCount, hfits.excludedIds, ?_⟩, rfl⟩, s.latestBlock.isSome, _,
      hlatest, s.latestBlock, ⟨?_, rfl, fun block hb => ?_⟩, ?_, (), ?_, ?_⟩
    · unfold snapshotVersion
      split
      · exact Or.inl rfl
      · split_ifs
        · exact Or.inr rfl
        · exact Or.inl rfl
    · exact s.excludedKeys.ascending
    · rw [hlatest]
      rfl
    · refine encodePayload_eq_ok.2 ⟨(hvalid block hb).1, hfits.latest block hb, ?_, rfl⟩
      have hmax : maxStateSnapshotLen - fixedEnvelopeLen = maxBlockPayloadLen := rfl
      rw [hb, hmax, List.length_append, latestLayout, List.length_cons] at hsize
      omega
    · rw [Bool.not_eq_true, Bool.not_eq_false', versionMatches_iff
        fun block hb => hknown block (hvalid block hb).1]
    · rw [OrderedSet.foldl_insert_toList, ← hpending]
      exact hinv
    · rw [OrderedSet.foldl_insert_toList, ← hpending]

/-- **The codec of state snapshots is exact.**  A snapshot decodes to the very state
that was encoded, and only what some state encodes to is decoded. -/
theorem reputation_state_snapshot_codec (hasher : List Byte → ContentHash) :
    (∀ s bytes, encodeReputationStateSnapshot hasher s = .ok bytes →
      decodeReputationStateSnapshot hasher bytes = .ok s) ∧
    ∀ bytes s, decodeReputationStateSnapshot hasher bytes = .ok s →
      encodeReputationStateSnapshot hasher s = .ok bytes := by
  constructor
  · intro s bytes hencode
    exact decodeSnapshot_eq_ok_iff.2 hencode
  · intro bytes s hdecode
    exact decodeSnapshot_eq_ok_iff.1 hdecode

end CordialMiners.Reputation
