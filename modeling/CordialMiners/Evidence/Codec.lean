/-
# Equivocation evidence as bytes

`VerifiedEquivocationEvidence::canonical_bytes` and `decode_equivocation_evidence`
of `consensus/verified_evidence.rs`.

Encoder and decoder share one layout (`claimLayout`): lengths and counts of eight
bytes, the highest first, and the references of a block by hash and creator.  The
encoder lays out the blocks and references in order; the decoder takes any order,
but refuses a block that refers to one hash and creator twice.  The decoder
undoes the layout (`decodeEquivocationEvidence_eq_ok`), so

* evidence comes back from its bytes exactly where no block in it refers to one
  hash and creator under two signatures;
* bytes that are accepted and verify are the canonical ones exactly where blocks
  and references stand in them in order

(`evidence_codec_iff`).
-/

import CordialMiners.Evidence.Verified
import CordialMiners.Validation.Hash

namespace CordialMiners

open Codec

/-! ### The layout -/

/-- A byte string behind its length, `put_bytes`. -/
def putBytes (bytes : List Byte) : List Byte := beBytes 8 bytes.length ++ bytes

/-- A reference: hash and creator. -/
def referenceLayout (id : BlockIdentity) : List Byte :=
  contentHashBytes id.contentHash ++ putBytes id.creator.bytes

/-- A block, its references in the order given. -/
def blockLayout (block : Block) : List Byte :=
  contentHashBytes block.identity.contentHash ++ (putBytes block.identity.creator.bytes ++
    (putBytes block.identity.signature ++ (putBytes block.content.payload ++
      (beBytes 8 block.content.predecessors.length ++
        block.content.predecessors.flatMap referenceLayout))))

/-- The bytes every encoded claim starts with. -/
def evidenceDomain : List Byte := asciiBytes "cordial:verified-equivocation:v1"

/-- A claim, behind the domain. -/
def claimLayout (claim : CordialEquivocationEvidence) : List Byte :=
  putBytes claim.validator.bytes ++ (beBytes 8 claim.round ++
    (beBytes 8 claim.blocks.length ++ claim.blocks.flatMap blockLayout))

/-- The block with its references in order. -/
def Block.sortPredecessors (block : Block) : Block :=
  { block with content := { block.content with
      predecessors := sortReferences block.content.predecessors } }

/-- `canonical_bytes`. -/
def VerifiedEquivocationEvidence.canonicalBytes (evidence : VerifiedEquivocationEvidence) :
    List Byte :=
  evidenceDomain ++ claimLayout
    ⟨evidence.validator, evidence.round, evidence.blocks.map Block.sortPredecessors⟩

/-! ### The reader -/

abbrev EvidenceReader := Reader Byte EvidenceVerificationError

namespace EvidenceReader

/-- `Reader::number`. -/
def number : EvidenceReader ℕ := ofBeBytes <$> take .malformedEncoding 8

/-- `Reader::bytes`. -/
def bytes : EvidenceReader (List Byte) := number >>= take .malformedEncoding

/-- `Reader::count`. -/
def count : EvidenceReader ℕ := countWithin number .malformedEncoding 32

/-- A content hash, `take(32)`. -/
def contentHash : EvidenceReader ContentHash := contentHashOf <$> take .malformedEncoding 32

/-- A length and the bytes of a key. -/
def nodeId : EvidenceReader NodeId := NodeId.mk <$> bytes

/-- Hash and creator, without a signature. -/
def reference : EvidenceReader BlockIdentity := do
  let hash ← contentHash
  let creator ← nodeId
  pure ⟨hash, creator, []⟩

/-- A block whose references are read by `references`. -/
def block (references : ℕ → EvidenceReader (List BlockIdentity)) : EvidenceReader Block := do
  let hash ← contentHash
  let creator ← nodeId
  let signature ← bytes
  let payload ← bytes
  let predecessors ← count >>= references
  pure ⟨⟨hash, creator, signature⟩, ⟨payload, predecessors⟩⟩

/-- The references of a block: a set, none of them twice. -/
def references (n : ℕ) : EvidenceReader (List BlockIdentity) :=
  readDistinct .malformedEncoding reference n []

/-- Creator, round and blocks. -/
def claim (block : EvidenceReader Block) : EvidenceReader CordialEquivocationEvidence := do
  let validator ← nodeId
  let round ← number
  let blocks ← count >>= readMany block
  pure ⟨validator, round, blocks⟩

end EvidenceReader

/-- `decode_equivocation_evidence`. -/
def decodeEquivocationEvidence (bytes : List Byte) :
    Except EvidenceVerificationError CordialEquivocationEvidence :=
  match evidenceDomain.isPrefixOf? bytes with
  | none => .error .malformedEncoding
  | some rest =>
      match (EvidenceReader.claim (.block .references)).run rest with
      | .error error => .error error
      | .ok (raw, []) => .ok raw
      | .ok (_, _ :: _) => .error .malformedEncoding

/-! ### The decoder undoes the layout -/

/-- The lengths of the block fit in eight bytes, as they do in memory. -/
structure Block.Sized (block : Block) : Prop where
  creator : block.identity.creator.bytes.length < 256 ^ 8
  signature : block.identity.signature.length < 256 ^ 8
  payload : block.content.payload.length < 256 ^ 8
  predecessors : block.content.predecessors.length < 256 ^ 8
  references : ∀ p ∈ block.content.predecessors, p.creator.bytes.length < 256 ^ 8

/-- References as they come out of the bytes: without signatures. -/
def Block.UnsignedRefs (block : Block) : Prop := ∀ p ∈ block.content.predecessors, p.signature = []

/-- The lengths of the claim and of its blocks fit in eight bytes. -/
structure EquivocationEvidence.Sized (claim : CordialEquivocationEvidence) : Prop where
  validator : claim.validator.bytes.length < 256 ^ 8
  round : claim.round < 256 ^ 8
  count : claim.blocks.length < 256 ^ 8
  blocks : ∀ b ∈ claim.blocks, b.Sized

namespace EvidenceReader

theorem decodes_number : Decodes number (beBytes 8) (· < 256 ^ 8) := Codec.decodes_number _ 8

theorem decodes_bytes : Decodes bytes putBytes fun bytes => bytes.length < 256 ^ 8 := by
  have htake : ∀ n, Decodes (take .malformedEncoding n : EvidenceReader (List Byte)) id
      fun bytes => bytes.length = n ∧ True := fun n =>
    (decodes_take EvidenceVerificationError.malformedEncoding n).congr fun _ =>
      (and_iff_left trivial).symm
  exact (decodes_number.sized htake).congr fun _ => and_iff_left trivial

theorem decodes_nodeId : Decodes nodeId (fun id => putBytes id.bytes)
    fun id => id.bytes.length < 256 ^ 8 :=
  decodes_bytes.map (fun _ h => ⟨h, rfl⟩) fun _ h => ⟨h, rfl⟩

theorem decodes_contentHash : Decodes contentHash contentHashBytes fun _ => True :=
  (decodes_take EvidenceVerificationError.malformedEncoding 32).map
    (fun _ h => ⟨trivial, contentHashBytes_contentHashOf h⟩)
    fun hash _ => ⟨length_contentHashBytes hash, contentHashOf_contentHashBytes hash⟩

theorem decodes_reference : Decodes reference referenceLayout
    fun id => id.signature = [] ∧ id.creator.bytes.length < 256 ^ 8 := by
  intro input id rest
  simp only [reference, run_bind_eq_ok, run_pure_eq_ok, decodes_contentHash _ _ _,
    decodes_nodeId _ _ _, true_and]
  constructor
  · rintro ⟨hash, mid, rfl, creator, mid', ⟨hcreator, rfl⟩, rfl, rfl⟩
    exact ⟨⟨rfl, hcreator⟩, (List.append_assoc _ _ _).symm⟩
  · rintro ⟨⟨hsig, hcreator⟩, rfl⟩
    refine ⟨id.contentHash, _, List.append_assoc _ _ _, id.creator, rest, ⟨hcreator, rfl⟩, ?_, rfl⟩
    rw [← hsig]

/-- References are long enough for the check of their count. -/
theorem length_references (l : List BlockIdentity) :
    32 * l.length ≤ (l.flatMap referenceLayout).length := by
  induction l with
  | nil => simp
  | cons id l ih =>
      rw [List.flatMap_cons, List.length_append, List.length_cons, referenceLayout,
        List.length_append, length_contentHashBytes]
      omega

/-- Blocks are long enough for the check of their count. -/
theorem length_blocks (l : List Block) : 32 * l.length ≤ (l.flatMap blockLayout).length := by
  induction l with
  | nil => simp
  | cons block l ih =>
      rw [List.flatMap_cons, List.length_append, List.length_cons, blockLayout,
        List.length_append, length_contentHashBytes]
      omega

/-- **A block**, read with any reader of references. -/
theorem decodes_block {references : ℕ → EvidenceReader (List BlockIdentity)}
    {Valid : List BlockIdentity → Prop}
    (h : ∀ n, Decodes (references n) (fun l => l.flatMap referenceLayout)
      fun l => l.length = n ∧ Valid l) :
    Decodes (block references) blockLayout fun b =>
      b.identity.creator.bytes.length < 256 ^ 8 ∧ b.identity.signature.length < 256 ^ 8 ∧
        b.content.payload.length < 256 ^ 8 ∧ b.content.predecessors.length < 256 ^ 8 ∧
        Valid b.content.predecessors := by
  have hrefs : Decodes (count >>= references)
      (fun l => beBytes 8 l.length ++ l.flatMap referenceLayout)
      fun l => l.length < 256 ^ 8 ∧ Valid l :=
    Decodes.counted (by omega) decodes_number h fun l _ => length_references l
  intro input b rest
  unfold block
  generalize (count >>= references) = readReferences at hrefs ⊢
  simp only [run_bind_eq_ok, run_pure_eq_ok, decodes_contentHash _ _ _,
    decodes_nodeId _ _ _, decodes_bytes _ _ _, hrefs _ _ _, true_and]
  constructor
  · rintro ⟨hash, mid₁, rfl, creator, mid₂, ⟨hcreator, rfl⟩, signature, mid₃, ⟨hsignature, rfl⟩,
      payload, mid₄, ⟨hpayload, rfl⟩, predecessors, mid₅, ⟨⟨hcount, hvalid⟩, rfl⟩, rfl, rfl⟩
    refine ⟨⟨hcreator, hsignature, hpayload, hcount, hvalid⟩, ?_⟩
    simp only [blockLayout, List.append_assoc]
  · rintro ⟨⟨hcreator, hsignature, hpayload, hcount, hvalid⟩, rfl⟩
    refine ⟨b.identity.contentHash, _, ?_, b.identity.creator, _, ⟨hcreator, rfl⟩,
      b.identity.signature, _, ⟨hsignature, rfl⟩, b.content.payload, _, ⟨hpayload, rfl⟩,
      b.content.predecessors, rest, ⟨⟨hcount, hvalid⟩, rfl⟩, rfl, rfl⟩
    simp only [blockLayout, List.append_assoc]

/-- **A claim**, read with any reader of blocks. -/
theorem decodes_claim {block : EvidenceReader Block} {Valid : Block → Prop}
    (h : Decodes block blockLayout Valid) :
    Decodes (claim block) claimLayout fun claim =>
      claim.validator.bytes.length < 256 ^ 8 ∧ claim.round < 256 ^ 8 ∧
        claim.blocks.length < 256 ^ 8 ∧ ∀ b ∈ claim.blocks, Valid b := by
  have hblocks : Decodes (count >>= readMany block)
      (fun l => beBytes 8 l.length ++ l.flatMap blockLayout)
      fun l => l.length < 256 ^ 8 ∧ ∀ b ∈ l, Valid b :=
    Decodes.counted (by omega) decodes_number (decodes_readMany h) fun l _ => length_blocks l
  intro input b rest
  unfold claim
  generalize (count >>= readMany block) = readBlocks at hblocks ⊢
  simp only [run_bind_eq_ok, run_pure_eq_ok, decodes_nodeId _ _ _, decodes_number _ _ _,
    hblocks _ _ _]
  constructor
  · rintro ⟨validator, mid₁, ⟨hvalidator, rfl⟩, round, mid₂, ⟨hround, rfl⟩, blocks, mid₃,
      ⟨⟨hcount, hvalid⟩, rfl⟩, rfl, rfl⟩
    refine ⟨⟨hvalidator, hround, hcount, hvalid⟩, ?_⟩
    simp only [claimLayout, List.append_assoc]
  · rintro ⟨⟨hvalidator, hround, hcount, hvalid⟩, rfl⟩
    refine ⟨b.validator, _, ⟨hvalidator, ?_⟩, b.round, _, ⟨hround, rfl⟩, b.blocks, rest,
      ⟨⟨hcount, hvalid⟩, rfl⟩, rfl, rfl⟩
    simp only [claimLayout, List.append_assoc]

/-- Sizes and unsigned references, field by field. -/
theorem sized_unsignedRefs_iff {b : Block} :
    (b.identity.creator.bytes.length < 256 ^ 8 ∧ b.identity.signature.length < 256 ^ 8 ∧
      b.content.payload.length < 256 ^ 8 ∧ b.content.predecessors.length < 256 ^ 8 ∧
      ∀ p ∈ b.content.predecessors, p.signature = [] ∧ p.creator.bytes.length < 256 ^ 8) ↔
      b.Sized ∧ b.UnsignedRefs := by
  constructor
  · rintro ⟨hcreator, hsignature, hpayload, hcount, hrefs⟩
    exact ⟨⟨hcreator, hsignature, hpayload, hcount, fun p hp => (hrefs p hp).2⟩,
      fun p hp => (hrefs p hp).1⟩
  · rintro ⟨h, hrefs⟩
    exact ⟨h.creator, h.signature, h.payload, h.predecessors,
      fun p hp => ⟨hrefs p hp, h.references p hp⟩⟩

/-- Reading a claim whose blocks pass `Valid`. -/
theorem decodes_sizedClaim {block : EvidenceReader Block} {Valid : Block → Prop}
    (h : Decodes block blockLayout fun b => b.Sized ∧ Valid b) :
    Decodes (claim block) claimLayout fun claim => claim.Sized ∧ ∀ b ∈ claim.blocks, Valid b := by
  refine (decodes_claim h).congr fun claim => ⟨?_, ?_⟩
  · rintro ⟨hvalidator, hround, hcount, hblocks⟩
    exact ⟨⟨hvalidator, hround, hcount, fun b hb => (hblocks b hb).1⟩, fun b hb => (hblocks b hb).2⟩
  · rintro ⟨h, hblocks⟩
    exact ⟨h.validator, h.round, h.count, fun b hb => ⟨h.blocks b hb, hblocks b hb⟩⟩

/-- Blocks whose references may repeat. -/
theorem decodes_anyBlock :
    Decodes (block (readMany reference)) blockLayout fun b => b.Sized ∧ b.UnsignedRefs :=
  (decodes_block (decodes_readMany decodes_reference)).congr fun _ => sized_unsignedRefs_iff

/-- Blocks as the decoder reads them. -/
theorem decodes_strictBlock :
    Decodes (block references) blockLayout fun b =>
      b.Sized ∧ b.UnsignedRefs ∧ b.content.predecessors.Nodup := by
  have hrefs : ∀ n, Decodes (references n) (fun l => l.flatMap referenceLayout) fun l =>
      l.length = n ∧ (∀ p ∈ l, p.signature = [] ∧ p.creator.bytes.length < 256 ^ 8) ∧ l.Nodup := by
    intro n
    refine (decodes_readDistinct EvidenceVerificationError.malformedEncoding decodes_reference n
      []).congr fun l => ?_
    simp only [List.not_mem_nil, not_false_eq_true, implies_true, and_true]
  refine (decodes_block hrefs).congr fun b => ?_
  rw [← and_assoc (b := b.UnsignedRefs), ← sized_unsignedRefs_iff]
  tauto

end EvidenceReader

open EvidenceReader

variable {claim claim' raw : CordialEquivocationEvidence} {bytes : List Byte}

/-- Claims that fit the layout are the only ones with their bytes. -/
theorem claimLayout_inj (h : claim.Sized) (hrefs : ∀ b ∈ claim.blocks, b.UnsignedRefs)
    (h' : claim'.Sized) (hrefs' : ∀ b ∈ claim'.blocks, b.UnsignedRefs)
    (heq : claimLayout claim = claimLayout claim') : claim = claim' :=
  ((decodes_sizedClaim decodes_anyBlock).append_inj ⟨h, hrefs⟩ ⟨h', hrefs'⟩
    (congrArg (· ++ []) heq)).1

/-- The layout of a list is at least as long as that of a member. -/
theorem length_le_length_flatMap {α β : Type} (layout : α → List β) {l : List α} {a : α}
    (ha : a ∈ l) : (layout a).length ≤ (l.flatMap layout).length := by
  obtain ⟨s, t, rfl⟩ := List.append_of_mem ha
  rw [List.flatMap_append, List.flatMap_cons, List.length_append, List.length_append]
  omega

theorem Block.sized_of_length {block : Block} (h : (blockLayout block).length < 256 ^ 8) :
    block.Sized := by
  have hcount := length_references block.content.predecessors
  unfold blockLayout putBytes at h
  simp only [List.length_append, length_beBytes, length_contentHashBytes] at h
  refine ⟨by omega, by omega, by omega, by omega, fun p hp => ?_⟩
  have hle := length_le_length_flatMap referenceLayout hp
  have hreference : (referenceLayout p).length = 32 + (8 + p.creator.bytes.length) := by
    unfold referenceLayout putBytes
    rw [List.length_append, List.length_append, length_beBytes, length_contentHashBytes]
  omega

/-- A claim whose layout is not too long has lengths that fit. -/
theorem EquivocationEvidence.sized_of_length (hround : claim.round < 256 ^ 8)
    (h : (claimLayout claim).length < 256 ^ 8) : claim.Sized := by
  have hcount := length_blocks claim.blocks
  unfold claimLayout putBytes at h
  simp only [List.length_append, length_beBytes] at h
  refine ⟨by omega, hround, by omega, fun b hb => Block.sized_of_length ?_⟩
  have hle := length_le_length_flatMap blockLayout hb
  omega

/-- **What the decoder accepts:** the layout of a claim, the references of each
block without repetition. -/
theorem decodeEquivocationEvidence_eq_ok :
    decodeEquivocationEvidence bytes = .ok raw ↔ bytes = evidenceDomain ++ claimLayout raw ∧
      raw.Sized ∧ ∀ b ∈ raw.blocks, b.UnsignedRefs ∧ b.content.predecessors.Nodup := by
  have hread := decodes_sizedClaim decodes_strictBlock
  unfold decodeEquivocationEvidence
  cases hdomain : evidenceDomain.isPrefixOf? bytes with
  | none =>
      refine iff_of_false (by simp) ?_
      rintro ⟨rfl, -⟩
      rw [List.isPrefixOf?_eq_some_iff_append_eq.2 rfl] at hdomain
      exact absurd hdomain (by simp)
  | some rest =>
      obtain rfl := List.isPrefixOf?_eq_some_iff_append_eq.1 hdomain
      simp only [List.append_cancel_left_eq]
      have hrun := hread rest raw []
      rw [List.append_nil, and_comm] at hrun
      rw [← hrun]
      cases (claim (block references)).run rest with
      | error error => simp
      | ok out =>
          obtain ⟨found, _ | ⟨byte, left⟩⟩ := out
          · simp
          · simp

/-! ### Evidence and its bytes -/

namespace Block

/-- The block as the canonical bytes have it: references in order, without signatures. -/
def canonical (b : Block) : Block :=
  { b with content := { b.content with
      predecessors := (sortReferences b.content.predecessors).map BlockIdentity.consensusIdentity } }

variable {b : Block}

theorem blockLayout_canonical (b : Block) :
    blockLayout b.canonical = blockLayout b.sortPredecessors := by
  unfold blockLayout canonical sortPredecessors
  simp only [List.length_map, List.flatMap_map]
  rfl

theorem perm_canonical (b : Block) : b.canonical.content.predecessors.Perm b.consensusRefs :=
  perm_sortReferences.map _

theorem unsignedRefs_canonical (b : Block) : b.canonical.UnsignedRefs := by
  intro p hp
  obtain ⟨q, -, rfl⟩ := List.mem_map.1 hp
  rfl

theorem UnsignedRefs.consensusRefs_eq (h : b.UnsignedRefs) :
    b.consensusRefs = b.content.predecessors := by
  refine (List.map_congr_left fun p hp => ?_).trans (List.map_id _)
  exact BlockIdentity.consensusIdentity_of_unsigned (h p hp)

theorem Sized.canonical (h : b.Sized) : b.canonical.Sized where
  creator := h.creator
  signature := h.signature
  payload := h.payload
  predecessors := by
    rw [(perm_canonical b).length_eq, consensusRefs, List.length_map]
    exact h.predecessors
  references p hp := by
    obtain ⟨q, hq, rfl⟩ := List.mem_map.1 ((perm_canonical b).mem_iff.1 hp)
    exact h.references q hq

/-- References in order and unsigned are in canonical form, and no others. -/
theorem UnsignedRefs.canonical_eq_iff (h : b.UnsignedRefs) :
    b.canonical = b ↔ b.content.predecessors.Pairwise (· ≤ ·) := by
  have hsorted : b.canonical.content.predecessors =
      b.content.predecessors.insertionSort (· ≤ ·) := by
    rw [← h.consensusRefs_eq]
    exact map_sortReferences
  constructor
  · intro heq
    rw [heq] at hsorted
    rw [hsorted]
    exact List.pairwise_insertionSort _ _
  · intro hpairwise
    rw [hpairwise.insertionSort_eq] at hsorted
    cases b with
    | mk identity content =>
        cases content with
        | mk payload predecessors =>
            simp only [Block.canonical, Block.mk.injEq, BlockContent.mk.injEq, true_and] at hsorted ⊢
            exact hsorted

theorem pairwise_canonical (b : Block) : b.canonical.content.predecessors.Pairwise (· ≤ ·) := by
  have h : b.canonical.content.predecessors = b.consensusRefs.insertionSort (· ≤ ·) :=
    map_sortReferences
  rw [h]
  exact List.pairwise_insertionSort _ _

/-- A block in canonical form stays as it is. -/
theorem canonical_canonical (b : Block) : b.canonical.canonical = b.canonical :=
  (unsignedRefs_canonical b).canonical_eq_iff.2 (pairwise_canonical b)

theorem mem_consensusRefs_canonical (b : Block) (q : BlockIdentity) :
    q ∈ b.canonical.consensusRefs ↔ q ∈ b.consensusRefs := by
  rw [(unsignedRefs_canonical b).consensusRefs_eq]
  exact (perm_canonical b).mem_iff

/-- The hash of a block is the hash of its canonical form. -/
theorem Hashed.canonical {hasher : List Byte → ContentHash}
    {verify : ContentHash → List Byte → List Byte → Bool}
    (h : b.Hashed (hasherCrypto hasher verify)) :
    b.canonical.Hashed (hasherCrypto hasher verify) := by
  refine Eq.trans h (blockHashExt_congr rfl ?_)
  rw [show b.canonical.content.predecessors.map BlockIdentity.consensusIdentity =
    b.canonical.content.predecessors from (unsignedRefs_canonical b).consensusRefs_eq]
  exact (perm_canonical b).symm

end Block

/-- A conflict is one of hashes, signatures and what the blocks refer to. -/
theorem Conflict.map {crypto : BlockCrypto} {B : Blocklace} {v : NodeId} {round : ℕ}
    {blocks : List Block} (h : Conflict crypto B v round blocks) {f : Block → Block}
    (hid : ∀ b, (f b).identity = b.identity)
    (hhashed : ∀ b, b.Hashed crypto → (f b).Hashed crypto)
    (hrefs : ∀ b q, q ∈ (f b).consensusRefs ↔ q ∈ b.consensusRefs) :
    Conflict crypto B v round (blocks.map f) where
  many := by simpa using h.many
  creator b hb := by
    obtain ⟨c, hc, rfl⟩ := List.mem_map.1 hb
    rw [hid]
    exact h.creator c hc
  signed b hb := by
    obtain ⟨c, hc, rfl⟩ := List.mem_map.1 hb
    unfold Block.Signed
    rw [hid]
    exact h.signed c hc
  history b hb := by
    obtain ⟨c, hc, rfl⟩ := List.mem_map.1 hb
    obtain ⟨hself, d, hd, hround⟩ := h.history c hc
    rw [hid, Blocklace.inHistory_congr (hrefs c)]
    exact ⟨hself, d, hd, hround.congr (hhashed c hround.hashed) (hrefs c)⟩
  distinct := by
    rw [List.map_map]
    simpa only [Function.comp_def, hid] using h.distinct
  earliest := by
    obtain ⟨c, hc, hround⟩ := h.earliest
    exact ⟨f c, List.mem_map_of_mem hc, hround.congr (hhashed c hround.hashed) (hrefs c)⟩
  incomparable := by
    rw [List.pairwise_map]
    simpa only [hid, fun b q => Blocklace.inHistory_congr (B := B) (q := q) (hrefs b)]
      using h.incomparable

namespace VerifiedEquivocationEvidence

/-- The evidence as a claim. -/
def asClaim (evidence : VerifiedEquivocationEvidence) : CordialEquivocationEvidence :=
  ⟨evidence.validator, evidence.round, evidence.blocks⟩

/-- The claim that the canonical bytes hold. -/
def canonicalClaim (evidence : VerifiedEquivocationEvidence) : CordialEquivocationEvidence :=
  ⟨evidence.validator, evidence.round, evidence.blocks.map Block.canonical⟩

variable {evidence : VerifiedEquivocationEvidence}

theorem canonicalBytes_eq :
    evidence.canonicalBytes = evidenceDomain ++ claimLayout evidence.canonicalClaim := by
  unfold canonicalBytes claimLayout canonicalClaim
  simp only [List.length_map, List.flatMap_map, Block.blockLayout_canonical]

theorem sized_canonicalClaim (h : evidence.asClaim.Sized) : evidence.canonicalClaim.Sized where
  validator := h.validator
  round := h.round
  count := by
    rw [canonicalClaim, List.length_map]
    exact h.count
  blocks b hb := by
    obtain ⟨c, hc, rfl⟩ := List.mem_map.1 hb
    exact (h.blocks c hc).canonical

theorem unsignedRefs_canonicalClaim : ∀ b ∈ evidence.canonicalClaim.blocks, b.UnsignedRefs := by
  intro b hb
  obtain ⟨c, -, rfl⟩ := List.mem_map.1 hb
  exact Block.unsignedRefs_canonical c

end VerifiedEquivocationEvidence

/-- The bytes hold a claim, its blocks in the order of their identities and the
references of each block in order. -/
def InOrder (bytes : List Byte) : Prop :=
  ∃ claim : CordialEquivocationEvidence, bytes = evidenceDomain ++ claimLayout claim ∧
    claim.Sized ∧ (∀ b ∈ claim.blocks, b.UnsignedRefs) ∧
    (claim.blocks.Pairwise fun left right => left.identity ≤ right.identity) ∧
    ∀ b ∈ claim.blocks, b.content.predecessors.Pairwise (· ≤ ·)

section RoundTrip

variable {hasher : List Byte → ContentHash} {verify : ContentHash → List Byte → List Byte → Bool}
  {B : Blocklace} {evidence : VerifiedEquivocationEvidence}

/-- **Evidence comes back from its bytes** exactly where no block refers to one hash
and creator twice. -/
theorem decode_canonicalBytes_iff
    (hverify : verifyEquivocationEvidence (hasherCrypto hasher verify) raw B = .ok evidence)
    (hsized : evidence.asClaim.Sized) :
    (∃ raw' evidence', decodeEquivocationEvidence evidence.canonicalBytes = .ok raw' ∧
      verifyEquivocationEvidence (hasherCrypto hasher verify) raw' B = .ok evidence' ∧
      evidence'.canonicalBytes = evidence.canonicalBytes) ↔
      ∀ b ∈ evidence.blocks, b.consensusRefs.Nodup := by
  constructor
  · rintro ⟨raw', evidence', hdecode, -⟩ b hb
    obtain ⟨heq, hsized', hrefs⟩ := decodeEquivocationEvidence_eq_ok.1 hdecode
    rw [VerifiedEquivocationEvidence.canonicalBytes_eq, List.append_cancel_left_eq] at heq
    obtain rfl := claimLayout_inj (VerifiedEquivocationEvidence.sized_canonicalClaim hsized)
      VerifiedEquivocationEvidence.unsignedRefs_canonicalClaim hsized'
      (fun b hb => (hrefs b hb).1) heq
    exact (Block.perm_canonical b).nodup_iff.1 (hrefs _ (List.mem_map_of_mem hb)).2
  · intro hnodup
    obtain ⟨hconflict, rfl⟩ := verify_eq_ok.1 hverify
    have hperm := List.perm_insertionSort (fun left right : Block => left.identity ≤ right.identity)
      raw.blocks
    have hsorted : (raw.blocks.insertionSort fun left right => left.identity ≤ right.identity).map
        Block.canonical |>.Pairwise fun left right => left.identity ≤ right.identity :=
      List.pairwise_map.2 (List.pairwise_insertionSort _ _)
    have hconflict' := (hconflict.perm hperm.symm).map (f := Block.canonical) (fun _ => rfl)
      (fun _ h => h.canonical) Block.mem_consensusRefs_canonical
    refine ⟨_, _, decodeEquivocationEvidence_eq_ok.2
      ⟨VerifiedEquivocationEvidence.canonicalBytes_eq,
        VerifiedEquivocationEvidence.sized_canonicalClaim hsized, fun b hb =>
        ⟨VerifiedEquivocationEvidence.unsignedRefs_canonicalClaim b hb, ?_⟩⟩,
      verify_eq_ok.2 ⟨hconflict', rfl⟩, ?_⟩
    · obtain ⟨c, hc, rfl⟩ := List.mem_map.1 hb
      exact (Block.perm_canonical c).nodup_iff.2 (hnodup c hc)
    · rw [VerifiedEquivocationEvidence.canonicalBytes_eq,
        VerifiedEquivocationEvidence.canonicalBytes_eq]
      unfold VerifiedEquivocationEvidence.canonicalClaim
      dsimp only
      rw [hsorted.insertionSort_eq, List.map_map]
      simp only [Function.comp_def, Block.canonical_canonical]

/-- **Accepted bytes are the canonical ones** exactly where they are in order. -/
theorem eq_canonicalBytes_iff (hdecode : decodeEquivocationEvidence bytes = .ok raw)
    (hverify : verifyEquivocationEvidence (hasherCrypto hasher verify) raw B = .ok evidence) :
    bytes = evidence.canonicalBytes ↔ InOrder bytes := by
  obtain ⟨rfl, hsized, hrefs⟩ := decodeEquivocationEvidence_eq_ok.1 hdecode
  obtain ⟨-, rfl⟩ := verify_eq_ok.1 hverify
  have hperm := List.perm_insertionSort (fun left right : Block => left.identity ≤ right.identity)
    raw.blocks
  constructor
  · intro heq
    refine ⟨_, heq.trans VerifiedEquivocationEvidence.canonicalBytes_eq, ?_,
      VerifiedEquivocationEvidence.unsignedRefs_canonicalClaim, ?_, fun b hb => ?_⟩
    · refine VerifiedEquivocationEvidence.sized_canonicalClaim ⟨hsized.validator, hsized.round,
        ?_, fun b hb => hsized.blocks b (hperm.mem_iff.1 hb)⟩
      rw [VerifiedEquivocationEvidence.asClaim, hperm.length_eq]
      exact hsized.count
    · exact List.pairwise_map.2 (List.pairwise_insertionSort _ _)
    · obtain ⟨c, -, rfl⟩ := List.mem_map.1 hb
      exact Block.pairwise_canonical c
  · rintro ⟨claim, heq, hsized', hrefs', hblocks, hpreds⟩
    rw [List.append_cancel_left_eq] at heq
    obtain rfl := claimLayout_inj hsized (fun b hb => (hrefs b hb).1) hsized' hrefs' heq
    have hcanonical : raw.blocks.map Block.canonical = raw.blocks :=
      (List.map_congr_left fun b hb =>
        ((hrefs' b hb).canonical_eq_iff).2 (hpreds b hb)).trans (List.map_id _)
    rw [VerifiedEquivocationEvidence.canonicalBytes_eq]
    unfold VerifiedEquivocationEvidence.canonicalClaim
    dsimp only
    rw [hblocks.insertionSort_eq, hcanonical]

end RoundTrip

/-- **When the codec goes round, both ways.**  Verified evidence comes back from its
canonical bytes exactly if no block in it refers to one hash and creator twice;
bytes whose content verifies are canonical exactly if they are in order. -/
theorem evidence_codec_iff (hasher : List Byte → ContentHash)
    (verify : ContentHash → List Byte → List Byte → Bool) (B : Blocklace) :
    (∀ raw evidence,
      verifyEquivocationEvidence (hasherCrypto hasher verify) raw B = .ok evidence →
      evidence.asClaim.Sized →
      ((∃ raw' evidence', decodeEquivocationEvidence evidence.canonicalBytes = .ok raw' ∧
        verifyEquivocationEvidence (hasherCrypto hasher verify) raw' B = .ok evidence' ∧
        evidence'.canonicalBytes = evidence.canonicalBytes) ↔
        ∀ b ∈ evidence.blocks, b.consensusRefs.Nodup)) ∧
    (∀ bytes raw evidence, decodeEquivocationEvidence bytes = .ok raw →
      verifyEquivocationEvidence (hasherCrypto hasher verify) raw B = .ok evidence →
      (bytes = evidence.canonicalBytes ↔ InOrder bytes)) :=
  ⟨fun _ _ => decode_canonicalBytes_iff, fun _ _ _ => eq_canonicalBytes_iff⟩

/-- A block that carries its hash. -/
def summedBlock (creator payload : Byte) (predecessors : List BlockIdentity) : Block :=
  ⟨⟨blockHashExt sumHasher ⟨[creator]⟩ ⟨[payload], predecessors⟩, ⟨[creator]⟩, [7]⟩,
    ⟨[payload], predecessors⟩⟩

/-- A genesis block of creator `2`. -/
def codecGenesis : Block := summedBlock 2 0 []

def codecBase : Blocklace := (Blocklace.new 0).growBy [codecGenesis]

/-- Two blocks of creator `1` on the genesis block. -/
def codecClaim : CordialEquivocationEvidence :=
  ⟨⟨[1]⟩, 1, [summedBlock 1 0 [codecGenesis.identity], summedBlock 1 1 [codecGenesis.identity]]⟩

/-- The second one refers to the genesis block under a second signature as well. -/
def twiceReferredClaim : CordialEquivocationEvidence :=
  ⟨⟨[1]⟩, 1, [summedBlock 1 0 [codecGenesis.identity], summedBlock 1 1 [codecGenesis.identity,
    { codecGenesis.identity with signature := [8] }]]⟩

/-- Signatures are not checked; every block has its hash. -/
def sumCrypto : BlockCrypto := hasherCrypto sumHasher fun _ _ _ => true

theorem sized_summedBlock {creator payload : Byte} {predecessors : List BlockIdentity}
    (hcount : predecessors.length < 256 ^ 8)
    (hrefs : ∀ p ∈ predecessors, p.creator.bytes.length < 256 ^ 8) :
    (summedBlock creator payload predecessors).Sized where
  creator := by simp [summedBlock]
  signature := by simp [summedBlock]
  payload := by simp [summedBlock]
  predecessors := hcount
  references := hrefs

/-- What verification makes of `codecClaim`. -/
def codecEvidence : VerifiedEquivocationEvidence := ⟨⟨[1]⟩, 1, codecClaim.blocks⟩

/-- Evidence in which no reference repeats comes back, and its bytes are in order. -/
theorem evidence_codec_codecClaim :
    (∃ raw' evidence', decodeEquivocationEvidence codecEvidence.canonicalBytes = .ok raw' ∧
      verifyEquivocationEvidence sumCrypto raw' codecBase = .ok evidence' ∧
      evidence'.canonicalBytes = codecEvidence.canonicalBytes) ∧
    InOrder codecEvidence.canonicalBytes := by
  have hverify : verifyEquivocationEvidence sumCrypto codecClaim codecBase = .ok codecEvidence := by
    decide +kernel
  have hsized : codecEvidence.asClaim.Sized := by
    refine ⟨by decide, by decide, by decide, fun b hb => ?_⟩
    simp only [codecEvidence, VerifiedEquivocationEvidence.asClaim, codecClaim, List.mem_cons,
      List.not_mem_nil, or_false] at hb
    obtain rfl | rfl := hb
    · exact sized_summedBlock (by decide) (by decide +kernel)
    · exact sized_summedBlock (by decide) (by decide +kernel)
  obtain ⟨hforth, hback⟩ := evidence_codec_iff sumHasher (fun _ _ _ => true) codecBase
  obtain ⟨raw', evidence', hdecode, hverify', heq⟩ :=
    (hforth codecClaim codecEvidence hverify hsized).2 (by decide +kernel)
  exact ⟨⟨raw', evidence', hdecode, hverify', heq⟩,
    (hback _ raw' evidence' hdecode hverify').1 heq.symm⟩

/-- **The round trip fails both ways.**  The bytes of verified evidence with a
reference under two signatures are refused by the decoder; bytes with the two
blocks swapped are accepted and verify, and are not canonical. -/
theorem evidence_codec_fails :
    (¬ ∀ (hasher : List Byte → ContentHash) (verify : ContentHash → List Byte → List Byte → Bool)
      (B : Blocklace) (raw : CordialEquivocationEvidence) (evidence : VerifiedEquivocationEvidence),
      verifyEquivocationEvidence (hasherCrypto hasher verify) raw B = .ok evidence →
      evidence.asClaim.Sized →
      ∃ raw' evidence', decodeEquivocationEvidence evidence.canonicalBytes = .ok raw' ∧
        verifyEquivocationEvidence (hasherCrypto hasher verify) raw' B = .ok evidence' ∧
        evidence'.canonicalBytes = evidence.canonicalBytes) ∧
    ¬ ∀ (hasher : List Byte → ContentHash) (verify : ContentHash → List Byte → List Byte → Bool)
      (B : Blocklace) (bytes : List Byte) (raw : CordialEquivocationEvidence)
      (evidence : VerifiedEquivocationEvidence), decodeEquivocationEvidence bytes = .ok raw →
      verifyEquivocationEvidence (hasherCrypto hasher verify) raw B = .ok evidence →
      bytes = evidence.canonicalBytes := by
  constructor
  · intro h
    obtain ⟨raw', -, hdecode, -⟩ := h sumHasher (fun _ _ _ => true) codecBase twiceReferredClaim
      ⟨⟨[1]⟩, 1, twiceReferredClaim.blocks⟩ (by decide +kernel) (by
        refine ⟨by decide, by decide, by decide, fun b hb => ?_⟩
        simp only [VerifiedEquivocationEvidence.asClaim, twiceReferredClaim, List.mem_cons,
          List.not_mem_nil, or_false] at hb
        obtain rfl | rfl := hb
        · exact sized_summedBlock (by decide) (by decide +kernel)
        · exact sized_summedBlock (by decide) (by decide +kernel))
    have hrefused : (decodeEquivocationEvidence (VerifiedEquivocationEvidence.canonicalBytes
        ⟨⟨[1]⟩, 1, twiceReferredClaim.blocks⟩)).toBool = false := by decide +kernel
    rw [hdecode] at hrefused
    exact absurd hrefused (by simp [Except.toBool])
  · intro h
    have hswapped := h sumHasher (fun _ _ _ => true) codecBase
      (VerifiedEquivocationEvidence.canonicalBytes ⟨⟨[1]⟩, 1, codecClaim.blocks.reverse⟩)
      ⟨⟨[1]⟩, 1, codecClaim.blocks.reverse.map Block.canonical⟩
      ⟨⟨[1]⟩, 1, codecClaim.blocks.map Block.canonical⟩ (by decide +kernel) (by decide +kernel)
    exact absurd hswapped (by decide +kernel)

end CordialMiners
