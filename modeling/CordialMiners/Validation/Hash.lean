/-
# The hash of a block

`block_hash_ext` of `crypto.rs`, over any hasher of byte strings.

The bytes that are hashed name the creator, the payload and the references in the
order of their hashes and creators; the signatures of the references do not come
up.  The hash therefore depends on the references as hashes and creators only,
in any order (`blockHashExt_congr`).
-/

import CordialMiners.Validation.Block
import CordialMiners.Codec.Reader

namespace CordialMiners

open Codec (leBytes beBytes ofBeBytes)

/-- The references by content hash and creator, `sort_by_key(|id| (id.content_hash,
&id.creator))`; the signature of a consensus identity is empty. -/
def sortReferences (predecessors : List BlockIdentity) : List BlockIdentity :=
  predecessors.insertionSort fun left right => left.consensusIdentity ≤ right.consensusIdentity

/-- The bytes of an ASCII literal. -/
def asciiBytes (text : String) : List Byte := text.toList.map fun c => Fin.ofNat 256 c.toNat

/-- The 32 bytes of a content hash. -/
def contentHashBytes (hash : ContentHash) : List Byte := beBytes 32 hash.val

/-- The content hash with the given bytes. -/
def contentHashOf (bytes : List Byte) : ContentHash := Fin.ofNat (2 ^ 256) (ofBeBytes bytes)

@[simp] theorem length_contentHashBytes (hash : ContentHash) :
    (contentHashBytes hash).length = 32 := Codec.length_beBytes 32 _

@[simp] theorem contentHashOf_contentHashBytes (hash : ContentHash) :
    contentHashOf (contentHashBytes hash) = hash := by
  have hlt : hash.val < 256 ^ 32 := by
    rw [show 256 ^ 32 = 2 ^ 256 by norm_num]
    exact hash.isLt
  apply Fin.ext
  rw [contentHashOf, contentHashBytes, Codec.ofBeBytes_beBytes hlt, Fin.val_ofNat,
    Nat.mod_eq_of_lt hash.isLt]

theorem contentHashBytes_injective : Function.Injective contentHashBytes := fun hash hash' h => by
  rw [← contentHashOf_contentHashBytes hash, h, contentHashOf_contentHashBytes]

theorem contentHashBytes_contentHashOf {bytes : List Byte} (h : bytes.length = 32) :
    contentHashBytes (contentHashOf bytes) = bytes := by
  have hlt := Codec.ofBeBytes_lt h
  rw [show 256 ^ 32 = 2 ^ 256 by norm_num] at hlt
  rw [contentHashBytes, contentHashOf, Fin.val_ofNat, Nat.mod_eq_of_lt hlt,
    Codec.beBytes_ofBeBytes h]

/-- A content hash is read back from its bytes. -/
theorem decodes_contentHash {ε : Type} (bad : ε) :
    Codec.Decodes (contentHashOf <$> Codec.take bad 32) contentHashBytes fun _ => True :=
  (Codec.decodes_take bad 32).map (fun _ h => ⟨trivial, contentHashBytes_contentHashOf h⟩)
    fun hash _ => ⟨length_contentHashBytes hash, contentHashOf_contentHashBytes hash⟩

/-- `BLOCK_HASH_DOMAIN`. -/
def blockHashDomain : List Byte := asciiBytes "cordial-block-hash-v3"

/-- The bytes that `block_hash_ext` hashes. -/
def blockHashBytes (creator : NodeId) (content : BlockContent) : List Byte :=
  blockHashDomain ++
    leBytes 8 creator.bytes.length ++ creator.bytes ++
    leBytes 8 content.payload.length ++ content.payload ++
    leBytes 8 content.predecessors.length ++
    (sortReferences content.predecessors).flatMap fun pred =>
      contentHashBytes pred.contentHash ++ leBytes 8 pred.creator.bytes.length ++ pred.creator.bytes

/-- `block_hash_ext`. -/
def blockHashExt (hasher : List Byte → ContentHash) (creator : NodeId) (content : BlockContent) :
    ContentHash := hasher (blockHashBytes creator content)

/-- The hash over `hasher` and the given signature check. -/
def hasherCrypto (hasher : List Byte → ContentHash)
    (verify : ContentHash → List Byte → List Byte → Bool) : BlockCrypto :=
  ⟨blockHashExt hasher, verify⟩

/-- A hasher of byte strings: their sum. -/
def sumHasher (bytes : List Byte) : ContentHash := Fin.ofNat _ (bytes.map Fin.val).sum

variable {predecessors predecessors' : List BlockIdentity}

theorem perm_sortReferences : (sortReferences predecessors).Perm predecessors :=
  List.perm_insertionSort _ _

/-- Sorted and stripped of signatures, references are in the order of identities. -/
theorem map_sortReferences :
    (sortReferences predecessors).map BlockIdentity.consensusIdentity =
      (predecessors.map BlockIdentity.consensusIdentity).insertionSort (· ≤ ·) :=
  List.map_insertionSort _ _ _ _ fun _ _ _ _ => Iff.rfl

/-- Sorting forgets the order. -/
theorem map_sortReferences_congr (h : (predecessors.map BlockIdentity.consensusIdentity).Perm
      (predecessors'.map BlockIdentity.consensusIdentity)) :
    (sortReferences predecessors).map BlockIdentity.consensusIdentity =
      (sortReferences predecessors').map BlockIdentity.consensusIdentity := by
  rw [map_sortReferences, map_sortReferences]
  refine List.Perm.eq_of_pairwise' (List.pairwise_insertionSort _ _)
    (List.pairwise_insertionSort _ _) ?_
  exact (List.perm_insertionSort _ _).trans (h.trans (List.perm_insertionSort _ _).symm)

/-- The bytes that are hashed depend on the references as hashes and creators, in any order. -/
theorem blockHashBytes_congr {creator : NodeId} {content content' : BlockContent}
    (hpayload : content.payload = content'.payload)
    (h : (content.predecessors.map BlockIdentity.consensusIdentity).Perm
      (content'.predecessors.map BlockIdentity.consensusIdentity)) :
    blockHashBytes creator content = blockHashBytes creator content' := by
  have hlength : content.predecessors.length = content'.predecessors.length := by
    simpa using h.length_eq
  have hbytes : ∀ l : List BlockIdentity,
      (l.flatMap fun pred => contentHashBytes pred.contentHash ++
        leBytes 8 pred.creator.bytes.length ++ pred.creator.bytes) =
      (l.map BlockIdentity.consensusIdentity).flatMap fun pred =>
        contentHashBytes pred.contentHash ++ leBytes 8 pred.creator.bytes.length ++
          pred.creator.bytes := by
    intro l
    rw [List.flatMap_map]
    rfl
  unfold blockHashBytes
  rw [hpayload, hlength, hbytes, map_sortReferences_congr h, ← hbytes]

/-- **The hash depends on the references as hashes and creators**, in any order. -/
theorem blockHashExt_congr {hasher : List Byte → ContentHash} {creator : NodeId}
    {content content' : BlockContent} (hpayload : content.payload = content'.payload)
    (h : (content.predecessors.map BlockIdentity.consensusIdentity).Perm
      (content'.predecessors.map BlockIdentity.consensusIdentity)) :
    blockHashExt hasher creator content = blockHashExt hasher creator content' :=
  congrArg hasher (blockHashBytes_congr hpayload h)

end CordialMiners
