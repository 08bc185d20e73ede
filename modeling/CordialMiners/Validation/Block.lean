/-
# Block validation

`consensus/validation.rs`, with what it calls of `consensus/cordiality.rs`,
`consensus/fork_choice.rs` and `Blocklace::tip_of`.

`validateBlock` runs every enabled check and collects the errors.  The checks of
the content hash and the signature call the hash function and the signature
schemes of the `crypto` module; these are a parameter, `BlockCrypto`.

`reportsEquivocation_iff` is the chain check as a statement: it reports when a
stored block of the creator is neither seen from the references of the new block
nor sees the new block.
-/

import CordialMiners.Core.Growth
import CordialMiners.Core.Weights

namespace CordialMiners

open Relation

/-- `crypto::block_hash` and `crypto::verify`. -/
structure BlockCrypto where
  blockHash : NodeId → BlockContent → ContentHash
  /-- Hash, public key and signature. -/
  verify : ContentHash → List Byte → List Byte → Bool

/-- Reasons a block can be rejected during validation. -/
inductive InvalidBlock where
  | invalidContentHash (expected actual : ContentHash)
  | invalidSignature
  | unknownSender (creator : NodeId)
  | missingPredecessors (missing : List BlockIdentity)
  | identityCollision (conflicting : BlockIdentity)
  | equivocation (conflicting : BlockIdentity)
  | notCordial (missingTips : List BlockIdentity)
  | hiddenEquivocation (creator : NodeId) (round : ℕ) (hidden : List BlockIdentity)
deriving DecidableEq, Repr

/-- Result of block validation. -/
inductive ValidationResult where
  | valid
  | invalid (errors : List InvalidBlock)
deriving DecidableEq, Repr

namespace ValidationResult

def isValid : ValidationResult → Bool
  | valid => true
  | invalid _ => false

/-- The errors of an invalid block. -/
def errors : ValidationResult → List InvalidBlock
  | valid => []
  | invalid errors => errors

end ValidationResult

/-- Which validation checks to run. -/
structure ValidationConfig where
  checkContentHash : Bool
  checkSignature : Bool
  checkSender : Bool
  checkClosure : Bool
  checkChainAxiom : Bool
  checkCordial : Bool
deriving DecidableEq, Repr

namespace ValidationConfig

/-- The cordial condition is off by default. -/
protected def default : ValidationConfig where
  checkContentHash := true
  checkSignature := true
  checkSender := true
  checkClosure := true
  checkChainAxiom := true
  checkCordial := false

/-- All checks enabled. -/
def strict : ValidationConfig := { ValidationConfig.default with checkCordial := true }

end ValidationConfig

/-- A same-round equivocation; also one that a block hides, with its hidden branches. -/
structure Equivocation where
  creator : NodeId
  round : ℕ
  blocks : List BlockIdentity
deriving DecidableEq, Repr

namespace Blocklace

/-! ### Tips and same-round equivocations -/

/-- `tip_of`: a block of the node that no other of its blocks is above. -/
def tipOf (B : Blocklace) (node : NodeId) : Option Block :=
  (B.blocksBy node).find? fun candidate =>
    !(B.blocksBy node).any fun other =>
      other.identity ≠ candidate.identity && B.precedes candidate.identity other.identity

/-- `collect_validator_tips`: the tips of the bonded nodes that satisfy CHAIN. -/
def collectValidatorTips (B : Blocklace) (bonds : Bonds) : List (NodeId × BlockIdentity) :=
  (bonds.table.keys.filter (· ∉ B.findEquivacators)).filterMap fun node =>
    (B.tipOf node).map fun tip => (node, tip.identity)

/-- `creator_blocks_at_round`. -/
def creatorBlocksAtRound (B : Blocklace) (creator : NodeId) (round : ℕ) : List Block :=
  (B.blocksAtDepth round).filter fun b => b.identity.creator = creator

/-- `equivocation_blocks_at_round`: the blocks of the round if they are two or more. -/
def equivocationBlocksAtRound (B : Blocklace) (creator : NodeId) (round : ℕ) : List Block :=
  if 2 ≤ (B.creatorBlocksAtRound creator round).length then B.creatorBlocksAtRound creator round
  else []

/-- `all_equivocations`: over the creators in order, then over the rounds. -/
def allEquivocations (B : Blocklace) : List Equivocation :=
  match (B.dom.filterMap B.depth).max? with
  | none => []
  | some maxRound =>
      (B.allNodes.mergeSort fun a b => a ≤ b).flatMap fun creator =>
        (List.range (maxRound + 1)).filterMap fun round =>
          let blocks := (B.equivocationBlocksAtRound creator round).map Block.identity
          if 2 ≤ blocks.length then some ⟨creator, round, blocks⟩ else none

/-- `observed_block_ids`: what the references of a block see. -/
def observedBlockIds (B : Blocklace) (block : Block) : List BlockIdentity :=
  (block.content.predecessors.flatMap B.observe).dedup

/-- `hidden_equivocations`: the equivocations with a branch that the block does not see. -/
def hiddenEquivocations (B : Blocklace) (block : Block) : List Equivocation :=
  B.allEquivocations.filterMap fun equivocation =>
    let hidden := equivocation.blocks.filter (· ∉ B.observedBlockIds block)
    if hidden = [] then none else some { equivocation with blocks := hidden }

/-- `missing_known_tips`: the tips a block neither is nor refers to, sorted. -/
def missingKnownTips (block : Block) (knownTips : List (NodeId × BlockIdentity)) :
    List BlockIdentity :=
  ((knownTips.map Prod.snd).filter fun tip =>
    !block.identity.sameConsensusIdentity tip &&
      !block.content.predecessors.any fun p => p.sameConsensusIdentity tip).mergeSort
    fun a b => a ≤ b

/-! ### The checks -/

/-- The references without a stored content. -/
def absentPredecessors (B : Blocklace) (block : Block) : List BlockIdentity :=
  block.content.predecessors.filter fun pred => (B.content pred).isNone

/-- Whether `existing` and the new block are incomparable: no reference of the
new block has it in its past, nor is the new block in its past. -/
def conflictsWith (B : Blocklace) (block existing : Block) : Bool :=
  !(block.content.predecessors.any fun pred => B.preceedesOrEquals existing.identity pred) &&
    !B.precedes block.identity existing.identity && block.identity ≠ existing.identity

/-- `validate_block`.  The chain and the cordial checks wait for the references. -/
def validateBlock (crypto : BlockCrypto) (block : Block) (B : Blocklace) (bonds : Bonds)
    (config : ValidationConfig) : ValidationResult :=
  let expected := crypto.blockHash block.identity.creator block.content
  let missing := B.absentPredecessors block
  let errors :=
    (if config.checkContentHash ∧ block.identity.contentHash ≠ expected then
      [.invalidContentHash expected block.identity.contentHash] else []) ++
    (if config.checkSignature ∧ block.identity.signature ≠ [] ∧
        !crypto.verify block.identity.contentHash block.identity.creator.bytes
          block.identity.signature then
      [.invalidSignature] else []) ++
    (if config.checkSender ∧ block.identity.creator ∉ bonds.table then
      [.unknownSender block.identity.creator] else []) ++
    (if config.checkClosure ∧ missing ≠ [] then [.missingPredecessors missing] else []) ++
    ((B.conflictingIdentityVariant block.identity).toList.map InvalidBlock.identityCollision) ++
    (if config.checkChainAxiom ∧ missing = [] then
      (((B.blocksBy block.identity.creator).find? (B.conflictsWith block)).map fun existing =>
        InvalidBlock.equivocation existing.identity).toList else []) ++
    (if config.checkCordial ∧ missing = [] then
      (if missingKnownTips block (B.collectValidatorTips bonds) ≠ [] then
        [.notCordial (missingKnownTips block (B.collectValidatorTips bonds))] else []) ++
      (B.hiddenEquivocations block).map fun hidden =>
        .hiddenEquivocation hidden.creator hidden.round hidden.blocks
    else [])
  if errors = [] then .valid else .invalid errors

/-- `validated_insert`: validate, and commit a valid block. -/
def validatedInsert (crypto : BlockCrypto) (block : Block) (B : Blocklace) (bonds : Bonds)
    (config : ValidationConfig) : ValidationResult × Blocklace :=
  let result := B.validateBlock crypto block bonds config
  if result.isValid then
    match B.commitValidated block.identity block.content with
    | .ok B' => (result, B')
    | .error conflicting => (.invalid [.identityCollision conflicting], B)
  else (result, B)

/-! ### What the chain check reports -/

/-- Validation reports an equivocation. -/
def ReportsEquivocation (crypto : BlockCrypto) (B : Blocklace) (block : Block) (bonds : Bonds)
    (config : ValidationConfig) : Prop :=
  ∃ conflicting,
    InvalidBlock.equivocation conflicting ∈ (B.validateBlock crypto block bonds config).errors

variable {B : Blocklace} {block : Block} {crypto : BlockCrypto} {bonds : Bonds}
  {config : ValidationConfig} {a : BlockIdentity}

/-- A stored block and the new block are comparable: some reference of the new
block sees it, or it has the new block strictly below it. -/
def Comparable (B : Blocklace) (block : Block) (a : BlockIdentity) : Prop :=
  (∃ p ∈ block.content.predecessors, ∃ r, B.resolveIdentity p = some r ∧ B.Sees r a) ∨
    ∃ b, B.resolveIdentity block.identity = some b ∧ B.Below b a

theorem absentPredecessors_eq_nil_iff :
    B.absentPredecessors block = [] ↔
      ∀ p ∈ block.content.predecessors, ∃ r, B.resolveIdentity p = some r := by
  unfold absentPredecessors
  rw [List.filter_eq_nil_iff]
  refine forall₂_congr fun p _ => ?_
  rw [Option.isNone_iff_eq_none, ← ne_eq, ← Option.isSome_iff_ne_none]
  unfold content
  constructor
  · intro h
    obtain ⟨content, hc⟩ := Option.isSome_iff_exists.1 h
    obtain ⟨r, hr, -⟩ := Option.bind_eq_some_iff.1 hc
    exact ⟨r, hr⟩
  · rintro ⟨r, hr⟩
    obtain ⟨content, hc⟩ := exists_lookup (resolveIdentity_mem hr)
    rw [hr, Option.bind_some, hc]
    rfl

theorem conflictsWith_iff {existing : Block} (h : B.Stores existing) :
    B.conflictsWith block existing = true ↔
      ¬ B.Comparable block existing.identity ∧ block.identity ≠ existing.identity := by
  have hex := resolveIdentity_of_mem h.mem
  unfold conflictsWith Comparable
  rw [Bool.and_eq_true, Bool.and_eq_true, Bool.not_eq_true', Bool.not_eq_true', decide_eq_true_eq,
    not_or, ← Bool.not_eq_true, ← Bool.not_eq_true, List.any_eq_true, precedes_iff]
  refine and_congr_left fun _ => and_congr_left fun _ => not_congr ?_
  constructor
  · rintro ⟨p, hp, hprec⟩
    obtain ⟨x, r, hx, hr, hsees⟩ := preceedesOrEquals_iff.1 hprec
    obtain rfl := Option.some.inj (hex.symm.trans hx)
    exact ⟨p, hp, r, hr, hsees⟩
  · rintro ⟨p, hp, r, hr, hsees⟩
    exact ⟨p, hp, preceedesOrEquals_iff.2 ⟨_, r, hex, hr, hsees⟩⟩

/-- The errors of the result are the ones collected. -/
theorem mem_errors_validateBlock {conflicting : BlockIdentity} :
    InvalidBlock.equivocation conflicting ∈ (B.validateBlock crypto block bonds config).errors ↔
      config.checkChainAxiom = true ∧ B.absentPredecessors block = [] ∧
        ∃ existing, (B.blocksBy block.identity.creator).find? (B.conflictsWith block) =
          some existing ∧ existing.identity = conflicting := by
  have herr : ∀ errors : List InvalidBlock,
      (if errors = [] then ValidationResult.valid else .invalid errors).errors = errors := by
    intro errors
    split_ifs with h
    · exact h.symm
    · rfl
  unfold validateBlock
  rw [herr]
  simp only [List.mem_append]
  constructor
  · rintro ((((((h | h) | h) | h) | h) | h) | h)
    · split_ifs at h <;> simp at h
    · split_ifs at h <;> simp at h
    · split_ifs at h <;> simp at h
    · split_ifs at h <;> simp at h
    · simp at h
    · split_ifs at h with hc
      · obtain ⟨existing, hfind, heq⟩ := Option.map_eq_some_iff.1 (Option.mem_toList.1 h)
        exact ⟨hc.1, hc.2, existing, hfind, by simpa using heq⟩
      · simp at h
    · split_ifs at h <;> simp at h
  · rintro ⟨hchain, hmissing, existing, hfind, rfl⟩
    refine Or.inl (Or.inr ?_)
    rw [if_pos ⟨hchain, hmissing⟩, hfind]
    simp

/-- **When validation reports an equivocation:** all references resolve and a
stored block of the creator is incomparable with the new block. -/
theorem reportsEquivocation_iff (hchain : config.checkChainAxiom = true) :
    ReportsEquivocation crypto B block bonds config ↔
      (∀ p ∈ block.content.predecessors, ∃ r, B.resolveIdentity p = some r) ∧
        ∃ a ∈ B.blocks, a.creator = block.identity.creator ∧ a ≠ block.identity ∧
          ¬ B.Comparable block a := by
  unfold ReportsEquivocation
  simp only [mem_errors_validateBlock, hchain, true_and]
  rw [← absentPredecessors_eq_nil_iff]
  constructor
  · rintro ⟨_, hmissing, existing, hfind, rfl⟩
    obtain ⟨hst, hcreator⟩ := mem_blocksBy_iff.1 (List.mem_of_find?_eq_some hfind)
    obtain ⟨hcomp, hne⟩ := (conflictsWith_iff hst).1 (List.find?_some hfind)
    exact ⟨hmissing, existing.identity, hst.mem, hcreator, hne.symm, hcomp⟩
  · rintro ⟨hmissing, a, ha, hcreator, hne, hcomp⟩
    obtain ⟨content, hl⟩ := exists_lookup ha
    have hst : B.Stores ⟨a, content⟩ := hl
    cases hfind : (B.blocksBy block.identity.creator).find? (B.conflictsWith block) with
    | some existing => exact ⟨_, hmissing, existing, rfl, rfl⟩
    | none =>
        have hnone := List.find?_eq_none.1 hfind ⟨a, content⟩ (mem_blocksBy_iff.2 ⟨hst, hcreator⟩)
        exact absurd ((conflictsWith_iff hst).2 ⟨hcomp, hne.symm⟩) hnone

/-- The hashes are those of the listed blocks, every signature verifies. -/
def listedCrypto (blocks : List Block) : BlockCrypto where
  blockHash creator content :=
    ((blocks.find? fun b => b.identity.creator = creator ∧ b.content = content).map
      fun b => b.identity.contentHash).getD 0
  verify _ _ _ := true

/-- A signed identity. -/
def signedId (hash : ℕ) (creator : Byte) : BlockIdentity :=
  { sampleId hash creator with signature := [7] }

/-- Creators `1`, `2` and `3` are bonded. -/
def threeBonds : Bonds :=
  ⟨((AList.singleton ⟨[1]⟩ 1).insert ⟨[2]⟩ 1).insert ⟨[3]⟩ 1, by decide⟩

end Blocklace

end CordialMiners
