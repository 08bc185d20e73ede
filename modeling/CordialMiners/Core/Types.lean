/-
# Identities, contents and blocks

`crates/cordial-miners-core/src/types` and `block.rs`.

A block is an identity together with a content `C = (v, P)`: a payload and the
set of the identities it points at.  An identity carries the content hash, the
creator and the signature of the creator; consensus compares only the first two
(`sameConsensusIdentity`), because one hash can have more than one valid
signature.

Byte strings are lists of `Byte`.  The 32 bytes of a content hash are read as
one big-endian number, so that the derived byte order of `[u8; 32]` is the order
of `Fin (2 ^ 256)`.  A `HashSet` is the list of its members in the order of
iteration; no result of the model depends on that order.
-/

import Mathlib.Data.List.Lex
import Mathlib.Data.Prod.Lex
import Mathlib.Data.List.AList
import Mathlib.Tactic
import CordialMiners.Codec.Reader

namespace CordialMiners

/-- One byte, `u8`. -/
abbrev Byte := Fin 256

/-- A content hash, `[u8; 32]`, read big-endian. -/
abbrev ContentHash := Fin (2 ^ 256)

instance neZeroHash : NeZero (2 ^ 256) := ⟨by decide⟩

/-- A node identity: in practice a public key, `NodeId(Vec<u8>)`. -/
structure NodeId where
  bytes : List Byte
deriving DecidableEq, Repr

/-- `NodeId` derives `Ord`: byte-lexicographic. -/
instance : LinearOrder NodeId :=
  LinearOrder.lift' NodeId.bytes fun a b h => by cases a; cases b; exact congrArg _ h

/-- The cryptographic identity of a block (`types/identity_id.rs`). -/
structure BlockIdentity where
  contentHash : ContentHash
  creator : NodeId
  signature : List Byte
deriving DecidableEq, Repr

namespace BlockIdentity

/-- The fields in the order the derived `Ord` compares them. -/
def toLexKey (i : BlockIdentity) : ContentHash ×ₗ NodeId ×ₗ List Byte :=
  toLex (i.contentHash, toLex (i.creator, i.signature))

theorem toLexKey_injective : Function.Injective toLexKey := by
  intro a b h
  have h₁ := congrArg ofLex h
  simp only [toLexKey, ofLex_toLex, Prod.mk.injEq, EmbeddingLike.apply_eq_iff_eq] at h₁
  obtain ⟨hh, hc, hs⟩ := h₁
  cases a; cases b; simp_all

/-- `BlockIdentity` derives `Ord`: lexicographic in the order of its fields. -/
instance : LinearOrder BlockIdentity :=
  LinearOrder.lift' toLexKey toLexKey_injective

/-- Whether two identities name the same consensus block. -/
def sameConsensusIdentity (a b : BlockIdentity) : Bool :=
  a.contentHash = b.contentHash ∧ a.creator = b.creator

/-- The signature-independent identity used by consensus output. -/
def consensusIdentity (i : BlockIdentity) : BlockIdentity :=
  { i with signature := [] }

@[simp] theorem consensusIdentity_contentHash (i : BlockIdentity) :
    i.consensusIdentity.contentHash = i.contentHash := rfl

@[simp] theorem consensusIdentity_creator (i : BlockIdentity) :
    i.consensusIdentity.creator = i.creator := rfl

@[simp] theorem consensusIdentity_signature (i : BlockIdentity) :
    i.consensusIdentity.signature = [] := rfl

@[simp] theorem consensusIdentity_idem (i : BlockIdentity) :
    i.consensusIdentity.consensusIdentity = i.consensusIdentity := rfl

/-- **Two identities share a consensus identity exactly when they agree on hash
and creator.** -/
theorem consensusIdentity_eq_iff {a b : BlockIdentity} :
    a.consensusIdentity = b.consensusIdentity ↔
      a.contentHash = b.contentHash ∧ a.creator = b.creator := by
  simp [consensusIdentity]

theorem sameConsensusIdentity_iff {a b : BlockIdentity} :
    a.sameConsensusIdentity b = true ↔ a.consensusIdentity = b.consensusIdentity := by
  simp [sameConsensusIdentity, consensusIdentity_eq_iff]

/-- An unsigned identity is its own consensus identity. -/
theorem consensusIdentity_of_unsigned {i : BlockIdentity} (h : i.signature = []) :
    i.consensusIdentity = i := by
  cases i; simp_all [consensusIdentity]

end BlockIdentity

/-- `C = (v, P)`: payload and predecessor references (`types/content_id.rs`). -/
structure BlockContent where
  payload : List Byte
  predecessors : List BlockIdentity
deriving DecidableEq, Repr

/-- A block: identity and content (`block.rs`). -/
structure Block where
  identity : BlockIdentity
  content : BlockContent
deriving DecidableEq, Repr

namespace Block

/-- `node(b)`: the creator of the block. -/
def node (b : Block) : NodeId := b.identity.creator

end Block

end CordialMiners
