/-
# What the hash of a block is taken of

`block_hash_ext` of `crypto.rs` hashes creator, payload and references behind their lengths,
which are little-endian, the references in the order of their hashes and creators.

Each part ends by itself, so the bytes determine creator, payload and the sorted references
(`delimited_preimage`); and sorting forgets nothing but the order.  References that differ in
hash or creator are therefore determined as a set, and nothing else of them is
(`blockHashBytes_eq_iff`).
-/

import CordialMiners.Codec.Delimited
import CordialMiners.Validation.Hash

namespace CordialMiners

open Codec (leBytes Delimited announces_leBytes)

/-- What a descendant says of a block: its content hash and its creator. -/
def BlockIdentity.reference (pred : BlockIdentity) : ContentHash × NodeId :=
  (pred.contentHash, pred.creator)

/-- The references of a content, without signatures. -/
def BlockContent.references (content : BlockContent) : List (ContentHash × NodeId) :=
  content.predecessors.map BlockIdentity.reference

/-- A creator behind its length. -/
def creatorLayout (creator : NodeId) : List Byte :=
  leBytes 8 creator.bytes.length ++ creator.bytes

/-- A reference: the hash, and the creator behind its length. -/
def predecessorLayout (ref : ContentHash × NodeId) : List Byte :=
  contentHashBytes ref.1 ++ creatorLayout ref.2

/-- Creator, payload and references, behind the domain. -/
def preimageLayout (t : NodeId × List Byte × List (ContentHash × NodeId)) : List Byte :=
  blockHashDomain ++ (creatorLayout t.1 ++ ((leBytes 8 t.2.1.length ++ t.2.1) ++
    (leBytes 8 t.2.2.length ++ t.2.2.flatMap predecessorLayout)))

variable {limit : ℕ} {creator creator' : NodeId} {content content' : BlockContent}

/-- **The bytes that are hashed lay out the sorted references.** -/
theorem blockHashBytes_eq : blockHashBytes creator content =
    preimageLayout (creator, content.payload,
      (sortReferences content.predecessors).map BlockIdentity.reference) := by
  have hlength : ((sortReferences content.predecessors).map BlockIdentity.reference).length =
      content.predecessors.length := by
    rw [List.length_map, perm_sortReferences.length_eq]
  unfold blockHashBytes preimageLayout
  rw [hlength, List.flatMap_map]
  simp only [creatorLayout, predecessorLayout, BlockIdentity.reference, List.append_assoc]

theorem delimited_contentHash : Delimited limit contentHashBytes :=
  .of_decodes (decodes_contentHash ())

theorem delimited_creator : Delimited (256 ^ 8) creatorLayout :=
  (Delimited.bytes (announces_leBytes 8)).map NodeId.bytes fun a b h => by
    cases a
    cases b
    exact congrArg NodeId.mk h

theorem delimited_predecessor : Delimited (256 ^ 8) predecessorLayout :=
  delimited_contentHash.seq delimited_creator

/-- **The parts end by themselves.** -/
theorem delimited_preimage : Delimited (256 ^ 8) preimageLayout := by
  have hpos : ∀ ref, 0 < (predecessorLayout ref).length := by
    intro ref
    rw [predecessorLayout, List.length_append, length_contentHashBytes]
    omega
  exact (delimited_creator.seq ((Delimited.bytes (announces_leBytes 8)).seq
    (delimited_predecessor.counted (announces_leBytes 8) hpos))).behind blockHashDomain

/-- References that agree without signatures agree as consensus identities. -/
theorem perm_consensusIdentity (h : content.references.Perm content'.references) :
    (content.predecessors.map BlockIdentity.consensusIdentity).Perm
      (content'.predecessors.map BlockIdentity.consensusIdentity) := by
  have hmap : ∀ predecessors : List BlockIdentity,
      predecessors.map BlockIdentity.consensusIdentity =
        (predecessors.map BlockIdentity.reference).map fun ref => ⟨ref.1, ref.2, []⟩ := by
    intro predecessors
    rw [List.map_map]
    rfl
  rw [hmap, hmap]
  exact h.map _

/-- **The bytes that are hashed are injective.**  As long as no two references of a content
have one hash and creator, the bytes of two blocks are the same exactly where creators,
payloads and the sets of references are the same; neither the iteration order of the sets nor
the signatures in the references come up.  The length of the buffer is a number of the
machine, like the lengths that are written into it. -/
theorem blockHashBytes_eq_iff (hnodup : content.references.Nodup)
    (hnodup' : content'.references.Nodup)
    (hbuffer : (blockHashBytes creator content).length < 2 ^ 64) :
    blockHashBytes creator content = blockHashBytes creator' content' ↔
      creator = creator' ∧ content.payload = content'.payload ∧
        ∀ ref, ref ∈ content.references ↔ ref ∈ content'.references := by
  constructor
  · intro heq
    rw [blockHashBytes_eq] at heq hbuffer
    rw [blockHashBytes_eq] at heq
    have hparts := delimited_preimage.inj _ _ (hbuffer.trans_eq (by norm_num)) heq
    simp only [Prod.mk.injEq] at hparts
    obtain ⟨hcreator, hpayload, hreferences⟩ := hparts
    -- the sorted references are those of the set
    have hperm : ∀ content : BlockContent,
        ((sortReferences content.predecessors).map BlockIdentity.reference).Perm
          content.references := fun content => perm_sortReferences.map _
    refine ⟨hcreator, hpayload, fun ref => ?_⟩
    rw [← (hperm content).mem_iff, hreferences, (hperm content').mem_iff]
  · rintro ⟨rfl, hpayload, hreferences⟩
    have hperm := (List.perm_ext_iff_of_nodup hnodup hnodup').2 hreferences
    exact blockHashBytes_congr hpayload (perm_consensusIdentity hperm)

/-- Two references, each with a signature of its own. -/
def twoReferences : BlockContent := ⟨[7], [⟨3, ⟨[1]⟩, [8]⟩, ⟨3, ⟨[]⟩, []⟩]⟩

/-- The same in the other order, with other signatures. -/
def twoReferencesAgain : BlockContent := ⟨[7], [⟨3, ⟨[]⟩, [9, 9]⟩, ⟨3, ⟨[1]⟩, []⟩]⟩

theorem blockHashBytes_eq_iff_twoReferences :
    blockHashBytes ⟨[5]⟩ twoReferences = blockHashBytes ⟨[5]⟩ twoReferencesAgain ↔
      (⟨[5]⟩ : NodeId) = ⟨[5]⟩ ∧ twoReferences.payload = twoReferencesAgain.payload ∧
        ∀ ref, ref ∈ twoReferences.references ↔ ref ∈ twoReferencesAgain.references :=
  blockHashBytes_eq_iff (by decide +kernel) (by decide +kernel) (by decide +kernel)

end CordialMiners
