/-
# A checkpoint pins the prefix

`finalized_prefix_checkpoint` and `validate_finalized_prefix_checkpoint` of
`por/finality.rs` over two outputs.

The prefix hash is a hash chain over the identities of the prefix, with a delimited
layout for each link.  A checkpoint of one output is therefore valid against another
exactly where the other has an anchor and the same identities up to the end of the
checkpoint (`prefix_pinned_of_checkpoint`).  An output that extends the first has them, and
its checkpoint of the round is the same (`finalizedPrefixCheckpoint_of_extendedBy`).
-/

import CordialMiners.Codec.HashChain
import CordialMiners.Reputation.Preimages
import CordialMiners.Slashing.Window

namespace CordialMiners.Reputation

open Codec (beBytes Delimited bind_eq_ok)

/-- The later output keeps the finalized blocks and, once there is one, an anchor. -/
structure OrderedFinalizedOutput.ExtendedBy (output later : OrderedFinalizedOutput) : Prop where
  blocks : output.blocks <+: later.blocks
  anchored : output.anchor ≠ none → later.anchor ≠ none

/-- The bytes of one link of the prefix hash. -/
def prefixLinkLayout (index : ℕ) (hash : ContentHash) (block : BlockIdentity) : List Byte :=
  finalizedPrefixHashDomain ++ contentHashBytes hash ++ beBytes 8 index ++
    contentHashBytes block.contentHash ++ putBytes block.creator.bytes ++ putBytes block.signature

/-- What `finalized_prefix_hash` hashes behind the domain. -/
def prefixHashInputs (hasher : List Byte → ContentHash) (blocks : List BlockIdentity) :
    List (List Byte) :=
  HashChain.inputs hasher prefixLinkLayout (hasher finalizedPrefixHashDomain) blocks

variable {hasher : List Byte → ContentHash} {output later : OrderedFinalizedOutput}
  {checkpoint : FinalizedPrefixCheckpoint} {porRound : U64}

/-- The prefix hash is the last link of a hash chain. -/
theorem finalizedPrefixHash_eq (blocks : List BlockIdentity) :
    finalizedPrefixHash hasher blocks =
      HashChain.last hasher prefixLinkLayout (hasher finalizedPrefixHashDomain) blocks := rfl

/-- An identity behind its hash, its creator and its signature. -/
theorem delimited_identity : Delimited (256 ^ 8) fun id : BlockIdentity =>
    contentHashBytes id.contentHash ++ (putBytes id.creator.bytes ++ putBytes id.signature) :=
  (delimited_hash.seq (delimited_nodeId.seq delimited_bytes)).map
    (fun id : BlockIdentity => (id.contentHash, id.creator, id.signature)) fun a b h => by
      cases a
      cases b
      simpa using h

/-- A link of fewer than `2 ^ 64` bytes determines the previous hash and the identity. -/
theorem prefixLinkLayout_inj {index : ℕ} {hash hash' : ContentHash} {block block' : BlockIdentity}
    (hlen : (prefixLinkLayout index hash block).length < 256 ^ 8)
    (heq : prefixLinkLayout index hash block = prefixLinkLayout index hash' block') :
    hash = hash' ∧ block = block' := by
  have hlayout := (delimited_hash.seq (delimited_identity.behind (beBytes 8 index))).behind
    finalizedPrefixHashDomain
  have h := hlayout.inj (hash, block) (hash', block')
    (by simpa only [prefixLinkLayout, List.append_assoc] using hlen)
    (by simpa only [prefixLinkLayout, List.append_assoc] using heq)
  exact Prod.mk.injEq .. ▸ h

/-- The checkpoint that is read is that of the output at the round. -/
theorem finalizedPrefixCheckpoint_eq_some_iff :
    finalizedPrefixCheckpoint hasher output porRound = .ok (some checkpoint) ↔
      CheckpointOf hasher output checkpoint ∧ checkpoint.porRound = porRound := by
  rw [← validateFinalizedPrefixCheckpoint_eq_ok]
  unfold validateFinalizedPrefixCheckpoint
  constructor
  · intro h
    have hround : checkpoint.porRound = porRound := by
      unfold finalizedPrefixCheckpoint at h
      split_ifs at h with hzero hanchor hblocks
      · split at h <;> exact absurd h (by simp)
      · split at h <;> exact absurd h (by simp)
      split at h
      · exact absurd h (by simp)
      simp only [Except.ok.injEq, Option.map_eq_some_iff] at h
      obtain ⟨terminal, -, rfl⟩ := h
      rfl
    refine ⟨?_, hround⟩
    rw [hround, h]
    exact if_pos rfl
  · rintro ⟨h, rfl⟩
    obtain ⟨expected, hexpected, hcond⟩ := bind_eq_ok.1 h
    split_ifs at hcond with heq
    rw [hexpected, heq]

/-- A checkpoint ends inside the output. -/
theorem CheckpointOf.le_length (h : CheckpointOf hasher output checkpoint) :
    checkpoint.porRound.val * finalizedBlocksPerCheckpoint ≤ output.blocks.length := by
  obtain ⟨hlt, -⟩ := List.getElem?_eq_some_iff.1 h.terminal
  rw [h.length] at hlt
  omega

/-- Where the prefix of the checkpoint is the same, the checkpoint is. -/
theorem CheckpointOf.of_take_eq (h : CheckpointOf hasher output checkpoint)
    (hanchor : later.anchor ≠ none)
    (hblocks : later.blocks.take (checkpoint.porRound.val * finalizedBlocksPerCheckpoint) =
      output.blocks.take (checkpoint.porRound.val * finalizedBlocksPerCheckpoint)) :
    CheckpointOf hasher later checkpoint := by
  have hpos : 0 < checkpoint.porRound.val := Nat.pos_of_ne_zero fun hzero =>
    h.round_ne (Fin.ext hzero)
  have hend : checkpoint.finalizedPrefixLen.val - 1 <
      checkpoint.porRound.val * finalizedBlocksPerCheckpoint := by
    have hlength := h.length
    unfold finalizedBlocksPerCheckpoint at hlength ⊢
    omega
  refine ⟨h.round_ne, h.length, hanchor, ?_, ?_⟩
  · rw [← List.getElem?_take_of_lt hend, hblocks, List.getElem?_take_of_lt hend]
    exact h.terminal
  · rw [h.length, hblocks, ← h.length]
    exact h.hash

/-- **An output that extends another has its checkpoints.** -/
theorem finalizedPrefixCheckpoint_of_extendedBy
    (h : finalizedPrefixCheckpoint hasher output porRound = .ok (some checkpoint))
    (hext : output.ExtendedBy later) :
    finalizedPrefixCheckpoint hasher later porRound = .ok (some checkpoint) := by
  obtain ⟨hof, hround⟩ := finalizedPrefixCheckpoint_eq_some_iff.1 h
  refine finalizedPrefixCheckpoint_eq_some_iff.2
    ⟨hof.of_take_eq (hext.anchored hof.anchored) ?_, hround⟩
  obtain ⟨rest, hrest⟩ := hext.blocks
  rw [← hrest, List.take_append_of_le_length hof.le_length]

/-- Outputs that extend one another have the checkpoints of the first. -/
theorem finalizedPrefixCheckpoint_of_isChain {outputs : List OrderedFinalizedOutput}
    (h : finalizedPrefixCheckpoint hasher output porRound = .ok (some checkpoint))
    (hchain : (output :: outputs).IsChain OrderedFinalizedOutput.ExtendedBy) :
    ∀ later ∈ outputs,
      finalizedPrefixCheckpoint hasher later porRound = .ok (some checkpoint) := by
  induction outputs generalizing output with
  | nil => simp
  | cons next outputs ih =>
      obtain ⟨hext, hchain⟩ := List.isChain_cons_cons.1 hchain
      have hnext := finalizedPrefixCheckpoint_of_extendedBy h hext
      intro later hlater
      rcases List.mem_cons.1 hlater with rfl | hlater
      · exact hnext
      · exact ih hnext hchain later hlater

/-- Checkpoints of one round with one hash have one prefix. -/
theorem CheckpointOf.take_eq (h : CheckpointOf hasher output checkpoint)
    (h' : CheckpointOf hasher later checkpoint)
    (hsize : ∀ x ∈ prefixHashInputs hasher
      (later.blocks.take (checkpoint.porRound.val * finalizedBlocksPerCheckpoint)),
      x.length < 2 ^ 64)
    (hfree : Set.InjOn hasher {x |
      x ∈ prefixHashInputs hasher
        (later.blocks.take (checkpoint.porRound.val * finalizedBlocksPerCheckpoint)) ∨
      x ∈ prefixHashInputs hasher
        (output.blocks.take (checkpoint.porRound.val * finalizedBlocksPerCheckpoint))}) :
    later.blocks.take (checkpoint.porRound.val * finalizedBlocksPerCheckpoint) =
      output.blocks.take (checkpoint.porRound.val * finalizedBlocksPerCheckpoint) := by
  have hhash := h'.hash.symm.trans h.hash
  rw [h.length] at hhash
  refine HashChain.last_inj ?_ hfree (fun k hash item hash' item' hmem heq => ?_) hhash
  · rw [List.length_take, List.length_take, min_eq_left h.le_length, min_eq_left h'.le_length]
  · exact prefixLinkLayout_inj ((hsize _ hmem).trans_eq (by norm_num)) heq

/-- **A checkpoint pins the prefix.**  It is valid against another output exactly where
that has an anchor and the same identities up to its end; against every output of a
chain that extends its own it stays valid, and it is the checkpoint of the round there.
Strings that are hashed have fewer than `2 ^ 64` bytes, and no two of them collide. -/
theorem prefix_pinned_of_checkpoint {hasher : List Byte → ContentHash}
    {o₁ : OrderedFinalizedOutput} {round : U64} {c : FinalizedPrefixCheckpoint}
    (h : finalizedPrefixCheckpoint hasher o₁ round = .ok (some c)) :
    (∀ o₂ : OrderedFinalizedOutput,
      (∀ x ∈ prefixHashInputs hasher (o₂.blocks.take (16 * round.val)), x.length < 2 ^ 64) →
      Set.InjOn hasher {x | x ∈ prefixHashInputs hasher (o₂.blocks.take (16 * round.val)) ∨
        x ∈ prefixHashInputs hasher (o₁.blocks.take (16 * round.val))} →
      (validateFinalizedPrefixCheckpoint hasher o₂ c = .ok () ↔
        o₂.anchor ≠ none ∧
          o₂.blocks.take (16 * round.val) = o₁.blocks.take (16 * round.val))) ∧
      ∀ outputs : List OrderedFinalizedOutput,
        (o₁ :: outputs).IsChain OrderedFinalizedOutput.ExtendedBy → ∀ later ∈ outputs,
          finalizedPrefixCheckpoint hasher later round = .ok (some c) ∧
            validateFinalizedPrefixCheckpoint hasher later c = .ok () := by
  obtain ⟨hof, rfl⟩ := finalizedPrefixCheckpoint_eq_some_iff.1 h
  rw [Nat.mul_comm 16]
  refine ⟨fun o₂ hsize hfree => ?_, fun outputs hchain later hlater => ?_⟩
  · rw [validateFinalizedPrefixCheckpoint_eq_ok]
    constructor
    · exact fun hvalid => ⟨hvalid.anchored, hof.take_eq hvalid hsize hfree⟩
    · rintro ⟨hanchor, hblocks⟩
      exact hof.of_take_eq hanchor hblocks
  · have hlater := finalizedPrefixCheckpoint_of_isChain h hchain later hlater
    exact ⟨hlater, validateFinalizedPrefixCheckpoint_eq_ok.2
      (finalizedPrefixCheckpoint_eq_some_iff.1 hlater).1⟩

/-- A polynomial hash. -/
def polynomialHasher (bytes : List Byte) : ContentHash :=
  Fin.ofNat (2 ^ 256) (bytes.foldl (fun h byte => (h * 257 + byte.val + 1) % (2 ^ 256 - 189)) 0)

/-- The first `n` blocks of one creator, finalized. -/
def finalizedRun (n : ℕ) : OrderedFinalizedOutput where
  blocks := (List.range n).map fun k => ⟨Fin.ofNat _ k, ⟨[1]⟩, [2]⟩
  anchor := some ⟨0, ⟨[1]⟩, [2]⟩
  wavelength := 3

/-- The first checkpoint of them. -/
def firstCheckpoint : FinalizedPrefixCheckpoint :=
  ⟨1, 16, finalizedPrefixHash polynomialHasher (finalizedRun 16).blocks, ⟨15, ⟨[1]⟩, [2]⟩⟩

/-- The checkpoint of sixteen blocks is valid after the seventeenth. -/
theorem prefix_pinned_firstCheckpoint :
    finalizedPrefixCheckpoint polynomialHasher (finalizedRun 16) 1 = .ok (some firstCheckpoint) ∧
      (validateFinalizedPrefixCheckpoint polynomialHasher (finalizedRun 17) firstCheckpoint = .ok () ↔
        (finalizedRun 17).anchor ≠ none ∧
          (finalizedRun 17).blocks.take 16 = (finalizedRun 16).blocks.take 16) ∧
      validateFinalizedPrefixCheckpoint polynomialHasher (finalizedRun 17) firstCheckpoint =
        .ok () := by
  have hfirst : finalizedPrefixCheckpoint polynomialHasher (finalizedRun 16) 1 =
      .ok (some firstCheckpoint) := by decide +kernel
  have htake : (finalizedRun 17).blocks.take 16 = (finalizedRun 16).blocks.take 16 := by
    decide +kernel
  have hnodup : ((prefixHashInputs polynomialHasher ((finalizedRun 16).blocks.take 16)).map
      polynomialHasher).Nodup := by decide +kernel
  have hiff := (prefix_pinned_of_checkpoint hfirst).1 (finalizedRun 17)
    (show ∀ x ∈ prefixHashInputs polynomialHasher ((finalizedRun 17).blocks.take 16),
      x.length < 2 ^ 64 by decide +kernel) (by
        show Set.InjOn polynomialHasher
          {x | x ∈ prefixHashInputs polynomialHasher ((finalizedRun 17).blocks.take 16) ∨
            x ∈ prefixHashInputs polynomialHasher ((finalizedRun 16).blocks.take 16)}
        rw [htake]
        intro x hx y hy heq
        exact List.inj_on_of_nodup_map hnodup ((or_self_iff).1 hx) ((or_self_iff).1 hy) heq)
  exact ⟨hfirst, hiff, hiff.2 ⟨by decide, htake⟩⟩

end CordialMiners.Reputation
