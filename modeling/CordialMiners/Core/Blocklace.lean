/-
# The blocklace

`crates/cordial-miners-core/src/blocklace.rs`.

A blocklace maps block identities to contents.  References between blocks may
leave out the signature; `resolveIdentity` finds the stored block they name.
`insert` enforces the closure axiom, `commitValidated` the rule that one
`(content hash, creator)` pair is stored under one signature only; the latter is
a field of the structure, `variantNodup`, because no operation of the source
breaks it.

`ancestor_index`, the lazily built ancestor matrix behind a mutex, is stamped
with the generation and rebuilt on every mismatch; it always equals
`AncestorIndex.build` of the current value and is not stored here.  The trace
events of the `trace` feature are left out.  `cacheIdentity` stands for the
`Arc` allocated by `new`: a token that no other blocklace shares.
-/

import CordialMiners.Core.Types
import CordialMiners.Graph.Explore

namespace CordialMiners

open FinGraph

/-- `HashMap<BlockIdentity, BlockContent>`. -/
abbrev BlockMap := AList fun _ : BlockIdentity => BlockContent

/-- `CryptoVerifier::verify_block` of some implementation of the trait. -/
abbrev CryptoVerifier := BlockContent → List Byte → NodeId → Except String Unit

/-- Resolve a reference against the stored identities: exactly, or, for an
unsigned reference, by hash and creator when the match is unique. -/
def resolveIdentityIn (blocks : BlockMap) (id : BlockIdentity) : Option BlockIdentity :=
  if id ∈ blocks then some id
  else if id.signature ≠ [] then none
  else
    match blocks.keys.filter fun candidate =>
        candidate.contentHash = id.contentHash ∧ candidate.creator = id.creator with
    | [resolved] => some resolved
    | _ => none

/-- The blocklace `B`. -/
structure Blocklace where
  blocks : BlockMap
  /-- Missing predecessors accepted at a bounded-view boundary. -/
  trustedBoundaryPredecessors : List (BlockIdentity × List BlockIdentity)
  checkpoint : Option BlockIdentity
  checkpointDepth : Option ℕ
  checkpointOrderPrefix : List BlockIdentity
  checkpointWeightedOrderPrefix : List BlockIdentity
  generation : ℕ
  cacheIdentity : ℕ
  /-- One signature variant of each `(content hash, creator)`. -/
  variantNodup : (blocks.keys.map BlockIdentity.consensusIdentity).Nodup

/-- Why `Blocklace::insert` refuses a block. -/
inductive InsertError where
  | invalidSignature (reason : String)
  | closureViolation (missing : BlockIdentity)
  | identityConflict (conflicting : BlockIdentity)
deriving DecidableEq, Repr

namespace Blocklace

/-- `Blocklace::new`, with the token of its freshly allocated `Arc`. -/
def new (cacheIdentity : ℕ) : Blocklace where
  blocks := ∅
  trustedBoundaryPredecessors := []
  checkpoint := none
  checkpointDepth := none
  checkpointOrderPrefix := []
  checkpointWeightedOrderPrefix := []
  generation := 0
  cacheIdentity := cacheIdentity
  variantNodup := by simp

/-! ### The map view -/

/-- The stored identity a reference names. -/
def resolveIdentity (B : Blocklace) (id : BlockIdentity) : Option BlockIdentity :=
  resolveIdentityIn B.blocks id

/-- `B(b)`. -/
def content (B : Blocklace) (id : BlockIdentity) : Option BlockContent :=
  (B.resolveIdentity id).bind fun resolved => B.blocks.lookup resolved

/-- `B[b]`. -/
def get (B : Blocklace) (id : BlockIdentity) : Option Block :=
  (B.resolveIdentity id).bind fun resolved =>
    (B.blocks.lookup resolved).map fun content => ⟨resolved, content⟩

/-- `dom(B)`. -/
def dom (B : Blocklace) : List BlockIdentity := B.blocks.keys

/-- `B[P]`. -/
def getSet (B : Blocklace) (ids : List BlockIdentity) : List Block := ids.filterMap B.get

/-- Whether `id` is the in-memory genesis left by a prune. -/
def isCheckpointBoundary (B : Blocklace) (id : BlockIdentity) : Bool := B.checkpoint = some id

/-- Whether the blocklace is a bounded partial view. -/
def hasTrustedBoundaries (B : Blocklace) : Bool := !B.trustedBoundaryPredecessors.isEmpty

/-- A stored identity with the hash and creator of `id` but another signature. -/
def conflictingIdentityVariant (B : Blocklace) (id : BlockIdentity) : Option BlockIdentity :=
  if id ∈ B.blocks then none
  else B.blocks.keys.find? fun candidate =>
    candidate.contentHash = id.contentHash ∧ candidate.creator = id.creator

/-! ### Structural mutation -/

theorem variantNodup_insert (B : Blocklace) {id : BlockIdentity} (content : BlockContent)
    (h : B.conflictingIdentityVariant id = none) :
    ((B.blocks.insert id content).keys.map BlockIdentity.consensusIdentity).Nodup := by
  rw [AList.keys_insert]
  by_cases hid : id ∈ B.blocks
  · exact ((List.perm_cons_erase (AList.mem_keys.1 hid)).map _).nodup_iff.1 B.variantNodup
  · rw [List.erase_of_not_mem (by rwa [← AList.mem_keys]), List.map_cons, List.nodup_cons]
    refine ⟨fun hmem => ?_, B.variantNodup⟩
    obtain ⟨k, hk, hkid⟩ := List.mem_map.1 hmem
    rw [conflictingIdentityVariant, if_neg hid, List.find?_eq_none] at h
    exact h k hk (by simpa using BlockIdentity.consensusIdentity_eq_iff.1 hkid)

/-- Drop the boundary references that resolve in `blocks`, then the emptied rows. -/
def clearResolvedBoundaries (blocks : BlockMap)
    (boundaries : List (BlockIdentity × List BlockIdentity)) :
    List (BlockIdentity × List BlockIdentity) :=
  (boundaries.map fun row =>
      (row.1, row.2.filter fun pred => (resolveIdentityIn blocks pred).isNone)).filter
    fun row => !row.2.isEmpty

/-- Store validated content and bump the generation.  An identity that is stored
already gets the new content; another signature variant of it is refused. -/
def commitValidated (B : Blocklace) (id : BlockIdentity) (content : BlockContent) :
    Except BlockIdentity Blocklace :=
  match h : B.conflictingIdentityVariant id with
  | some conflicting => .error conflicting
  | none => .ok
      { B with
        blocks := B.blocks.insert id content
        trustedBoundaryPredecessors :=
          clearResolvedBoundaries (B.blocks.insert id content)
            (B.trustedBoundaryPredecessors.filter fun row => row.1 ≠ id)
        generation := B.generation + 1
        variantNodup := B.variantNodup_insert content h }

/-- Remove a block, bumping the generation if anything was removed. -/
def forgetBlock (B : Blocklace) (id : BlockIdentity) : Blocklace :=
  if id ∈ B.blocks then
    { B with
      blocks := B.blocks.erase id
      trustedBoundaryPredecessors := B.trustedBoundaryPredecessors.filter fun row => row.1 ≠ id
      generation := B.generation + 1
      variantNodup := by
        rw [AList.keys_erase]
        exact B.variantNodup.sublist (List.erase_sublist.map _) }
  else B

/-- Install checkpoint state and bump the generation. -/
def setCheckpointState (B : Blocklace) (checkpoint : BlockIdentity) (depth : ℕ)
    (orderPrefix weightedOrderPrefix : List BlockIdentity) : Blocklace :=
  { B with
    checkpoint := some checkpoint
    checkpointDepth := some depth
    checkpointOrderPrefix := orderPrefix
    checkpointWeightedOrderPrefix := weightedOrderPrefix
    generation := B.generation + 1 }

/-! ### Insertion and the closure axiom -/

/-- The references of a content that name no stored block. -/
def missingPredecessors (B : Blocklace) (content : BlockContent) : List BlockIdentity :=
  content.predecessors.filter fun pred => (B.resolveIdentity pred).isNone

/-- Insert a block, enforcing the closure axiom. -/
def insert (B : Blocklace) (block : Block) (verifier : CryptoVerifier) :
    Except InsertError Blocklace :=
  match verifier block.content block.identity.signature block.identity.creator with
  | .error e => .error (.invalidSignature e)
  | .ok () =>
      match B.missingPredecessors block.content with
      | missing :: _ => .error (.closureViolation missing)
      | [] =>
          match B.commitValidated block.identity block.content with
          | .error conflicting => .error (.identityConflict conflicting)
          | .ok B' => .ok B'

/-- Insert a block into a bounded mirror, recording its missing predecessors. -/
def insertWithTrustedBoundary (B : Blocklace) (block : Block) (verifier : CryptoVerifier) :
    Except InsertError (List BlockIdentity × Blocklace) :=
  match verifier block.content block.identity.signature block.identity.creator with
  | .error e => .error (.invalidSignature e)
  | .ok () =>
      let missing := B.missingPredecessors block.content
      match B.commitValidated block.identity block.content with
      | .error conflicting => .error (.identityConflict conflicting)
      | .ok B' =>
          if missing = [] then .ok (missing, B')
          else .ok (missing,
            { B' with
              trustedBoundaryPredecessors :=
                (block.identity, missing) ::
                  B'.trustedBoundaryPredecessors.filter fun row => row.1 ≠ block.identity })

/-- CLOSED: every reference of every block but the checkpoint resolves. -/
def isClosed (B : Blocklace) : Bool :=
  B.blocks.entries.all fun entry =>
    B.isCheckpointBoundary entry.1 ||
      entry.2.predecessors.all fun pred => (B.resolveIdentity pred).isSome

/-! ### The pointed relation and its closures -/

/-- The stored blocks a loop over the predecessors of `id` meets; none at the
checkpoint boundary. -/
def expand (B : Blocklace) (id : BlockIdentity) : List BlockIdentity :=
  if B.isCheckpointBoundary id then []
  else
    match B.content id with
    | none => []
    | some content => content.predecessors.filterMap B.resolveIdentity

/-- `≺b`: depth-first over the predecessor graph, `id` itself not included. -/
def ancestors (B : Blocklace) (id : BlockIdentity) : List Block :=
  (explore pushTop B.expand (B.dom.length + 1) [id] []).filterMap B.get

/-- The closure `[b]`: breadth-first over the predecessor graph. -/
def observe (B : Blocklace) (source : BlockIdentity) : List BlockIdentity :=
  match B.resolveIdentity source with
  | none => []
  | some id => explore pushBack B.expand (B.dom.length + 1) [id] [id]

/-- `a ≺ b`. -/
def precedes (B : Blocklace) (a b : BlockIdentity) : Bool :=
  match B.resolveIdentity a with
  | none => false
  | some a => (B.ancestors b).any fun block => block.identity = a

/-- `a ⪯ b`. -/
def preceedesOrEquals (B : Blocklace) (a b : BlockIdentity) : Bool :=
  match B.resolveIdentity a, B.resolveIdentity b with
  | some a, some b => a = b || B.precedes a b
  | _, _ => false

/-! ### The chain axiom -/

/-- All blocks by a node. -/
def blocksBy (B : Blocklace) (node : NodeId) : List Block :=
  (B.blocks.entries.filter fun entry => entry.1.creator = node).map fun entry =>
    ⟨entry.1, entry.2⟩

/-- CHAIN for one node: any two of its blocks are comparable under `≺`. -/
def satisfiesChainAxiom (B : Blocklace) (node : NodeId) : Bool :=
  decide ((B.blocksBy node).Pairwise fun a b =>
    B.precedes a.identity b.identity ∨ B.precedes b.identity a.identity)

/-- The nodes that created a stored block. -/
def allNodes (B : Blocklace) : List NodeId := (B.dom.map BlockIdentity.creator).dedup

/-- CHAIN for every node. -/
def satisfiesChainAxiomAll (B : Blocklace) : Bool := B.allNodes.all B.satisfiesChainAxiom

/-- The equivocators: the nodes violating CHAIN. -/
def findEquivacators (B : Blocklace) : List NodeId :=
  B.allNodes.filter fun node => !B.satisfiesChainAxiom node

end Blocklace

end CordialMiners
