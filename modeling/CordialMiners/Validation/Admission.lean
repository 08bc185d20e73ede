/-
# What validation admits

`validateBlock` as statements.  A block passes exactly when every enabled check
does (`validateBlock_eq_valid_iff`).  A block that is in order by itself and
whose hash and creator are new or its own fails for one reason at a time: its
references are missing, or a stored block of its creator is incomparable
(`validateBlock_default`).  `validatedInsert` stores a valid block and changes
nothing otherwise (`validatedInsert_cases`).
-/

import CordialMiners.Core.References
import CordialMiners.Validation.Block

namespace CordialMiners

open FinGraph

namespace Block

/-- The block carries the hash of its content. -/
def Hashed (crypto : BlockCrypto) (b : Block) : Prop :=
  b.identity.contentHash = crypto.blockHash b.identity.creator b.content

instance (crypto : BlockCrypto) (b : Block) : Decidable (b.Hashed crypto) :=
  inferInstanceAs (Decidable (_ = _))

/-- The block carries a signature of its creator. -/
def Signed (crypto : BlockCrypto) (b : Block) : Prop :=
  crypto.verify b.identity.contentHash b.identity.creator.bytes b.identity.signature = true

instance (crypto : BlockCrypto) (b : Block) : Decidable (b.Signed crypto) :=
  inferInstanceAs (Decidable (_ = _))

end Block

/-- What the default checks ask of a block without its history: hash, signature
and sender. -/
structure Block.InOrder (crypto : BlockCrypto) (bonds : Bonds) (b : Block) : Prop where
  hash : b.identity.contentHash = crypto.blockHash b.identity.creator b.content
  signature : b.identity.signature = [] ∨
    crypto.verify b.identity.contentHash b.identity.creator.bytes b.identity.signature = true
  sender : b.identity.creator ∈ bonds.table

namespace Blocklace

variable {B B' : Blocklace} {block : Block} {crypto : BlockCrypto} {bonds : Bonds}
  {config : ValidationConfig} {errors : List InvalidBlock}

theorem absentPredecessors_eq_nil_iff_available :
    B.absentPredecessors block = [] ↔ Available Block.refs B.Resolves block :=
  absentPredecessors_eq_nil_iff

/-- The stored blocks of the creator are all comparable with the block, or it. -/
theorem find?_conflictsWith_eq_none_iff :
    (B.blocksBy block.identity.creator).find? (B.conflictsWith block) = none ↔
      ∀ a ∈ B.blocks, a.creator = block.identity.creator → a ≠ block.identity →
        B.Comparable block a := by
  rw [List.find?_eq_none]
  constructor
  · intro h a ha hcreator hne
    obtain ⟨content, hl⟩ := exists_lookup ha
    have hst : B.Stores ⟨a, content⟩ := hl
    by_contra hcomp
    exact h ⟨a, content⟩ (mem_blocksBy_iff.2 ⟨hst, hcreator⟩)
      ((conflictsWith_iff hst).2 ⟨hcomp, hne.symm⟩)
  · intro h existing hmem hconf
    obtain ⟨hst, hcreator⟩ := mem_blocksBy_iff.1 hmem
    obtain ⟨hcomp, hne⟩ := (conflictsWith_iff hst).1 hconf
    exact hcomp (h existing.identity hst.mem hcreator hne.symm)

/-- **When a block is valid:** every enabled check passes. -/
theorem validateBlock_eq_valid_iff :
    B.validateBlock crypto block bonds config = .valid ↔
      (config.checkContentHash = true →
        block.identity.contentHash = crypto.blockHash block.identity.creator block.content) ∧
      (config.checkSignature = true → block.identity.signature = [] ∨
        crypto.verify block.identity.contentHash block.identity.creator.bytes
          block.identity.signature = true) ∧
      (config.checkSender = true → block.identity.creator ∈ bonds.table) ∧
      (config.checkClosure = true → Available Block.refs B.Resolves block) ∧
      B.conflictingIdentityVariant block.identity = none ∧
      (config.checkChainAxiom = true → Available Block.refs B.Resolves block →
        ∀ a ∈ B.blocks, a.creator = block.identity.creator → a ≠ block.identity →
          B.Comparable block a) ∧
      (config.checkCordial = true → Available Block.refs B.Resolves block →
        missingKnownTips block (B.collectValidatorTips bonds) = [] ∧
          B.hiddenEquivocations block = []) := by
  have hvalid : ∀ errors : List InvalidBlock,
      (if errors = [] then ValidationResult.valid else .invalid errors) = .valid ↔ errors = [] := by
    intro errors
    split_ifs with h
    · exact iff_of_true rfl h
    · exact iff_of_false (by simp) h
  unfold validateBlock
  rw [hvalid]
  simp only [List.append_eq_nil_iff, and_assoc, ← absentPredecessors_eq_nil_iff_available,
    ← find?_conflictsWith_eq_none_iff]
  refine and_congr ?_ (and_congr ?_ (and_congr ?_ (and_congr ?_ (and_congr ?_ (and_congr ?_ ?_)))))
  · split_ifs with h
    · simpa using h
    · simpa using h
  · split_ifs with h
    · simpa using h
    · simp only [not_and, Bool.not_eq_true, Bool.not_eq_false', true_iff] at h ⊢
      intro hc
      by_cases hsig : block.identity.signature = []
      · exact Or.inl hsig
      · exact Or.inr (by simpa using h hc hsig)
  · split_ifs with h
    · simpa using h
    · simpa using h
  · split_ifs with h
    · simpa using h
    · simpa using h
  · cases B.conflictingIdentityVariant block.identity <;> simp
  · split_ifs with h
    · cases (B.blocksBy block.identity.creator).find? (B.conflictsWith block) <;> simp [h]
    · simp only [true_iff]
      exact fun hc hm => absurd ⟨hc, hm⟩ h
  · split_ifs with h htips
    · simp [htips, h]
    · simp [h, not_not.1 htips]
    · simp only [true_iff]
      exact fun hc hm => absurd ⟨hc, hm⟩ h

/-- An invalid block has an error. -/
theorem errors_ne_nil (h : B.validateBlock crypto block bonds config = .invalid errors) :
    errors ≠ [] := by
  have hinvalid : ∀ collected : List InvalidBlock,
      (if collected = [] then ValidationResult.valid else .invalid collected) = .invalid errors →
        errors ≠ [] := by
    intro collected hc
    split_ifs at hc with hnil
    exact ValidationResult.invalid.inj hc ▸ hnil
  exact hinvalid _ h

/-- Missing references are reported only where some are missing. -/
theorem missingPredecessors_mem_errors {missing : List BlockIdentity}
    (h : InvalidBlock.missingPredecessors missing ∈
      (B.validateBlock crypto block bonds config).errors) : B.absentPredecessors block ≠ [] := by
  have herr : ∀ errors : List InvalidBlock,
      (if errors = [] then ValidationResult.valid else .invalid errors).errors = errors := by
    intro errors
    split_ifs with h
    · exact h.symm
    · rfl
  unfold validateBlock at h
  rw [herr] at h
  simp only [List.mem_append] at h
  rcases h with (((((h | h) | h) | h) | h) | h) | h
  · split_ifs at h <;> simp at h
  · split_ifs at h <;> simp at h
  · split_ifs at h <;> simp at h
  · split_ifs at h with hc
    · exact hc.2
    · simp at h
  · simp at h
  · split_ifs at h <;> simp at h
  · split_ifs at h <;> simp at h

/-- **The default checks of a block that is in order.** -/
theorem validateBlock_default (hin : block.InOrder crypto bonds)
    (hvar : B.conflictingIdentityVariant block.identity = none) :
    B.validateBlock crypto block bonds .default =
      if B.absentPredecessors block = [] then
        match (B.blocksBy block.identity.creator).find? (B.conflictsWith block) with
        | none => .valid
        | some existing => .invalid [.equivocation existing.identity]
      else .invalid [.missingPredecessors (B.absentPredecessors block)] := by
  have hsig : ¬ (block.identity.signature ≠ [] ∧ !crypto.verify block.identity.contentHash
      block.identity.creator.bytes block.identity.signature) := by
    rintro ⟨hne, hver⟩
    rw [hin.signature.resolve_left hne] at hver
    exact absurd hver (by simp)
  unfold validateBlock
  simp only [ValidationConfig.default, hvar, true_and, hin.hash.symm, hin.sender]
  by_cases hmissing : B.absentPredecessors block = []
  · simp only [hmissing, hsig]
    cases (B.blocksBy block.identity.creator).find? (B.conflictsWith block) <;> simp
  · simp only [hmissing, hsig]
    simp [hmissing]

/-! ### Storing a valid block -/

/-- A valid block is stored, an invalid one changes nothing. -/
theorem validatedInsert_cases :
    (B.validateBlock crypto block bonds config = .valid ∧
      ∃ B', B.commitValidated block.identity block.content = .ok B' ∧
        B.validatedInsert crypto block bonds config = (.valid, B')) ∨
    ∃ errors, B.validateBlock crypto block bonds config = .invalid errors ∧
      B.validatedInsert crypto block bonds config = (.invalid errors, B) := by
  cases h : B.validateBlock crypto block bonds config with
  | valid =>
      have hvar := (validateBlock_eq_valid_iff.1 h).2.2.2.2.1
      have hcommit : ∃ B', B.commitValidated block.identity block.content = .ok B' := by
        unfold commitValidated
        split
        · next heq => rw [hvar] at heq; exact absurd heq (by simp)
        · exact ⟨_, rfl⟩
      obtain ⟨B', hB'⟩ := hcommit
      refine Or.inl ⟨rfl, B', hB', ?_⟩
      simp [validatedInsert, h, ValidationResult.isValid, hB']
  | invalid errors =>
      refine Or.inr ⟨errors, rfl, ?_⟩
      simp [validatedInsert, h, ValidationResult.isValid]

/-- `B'` is `B` after a valid block has been stored. -/
structure Admitted (crypto : BlockCrypto) (bonds : Bonds) (config : ValidationConfig)
    (B : Blocklace) (block : Block) (B' : Blocklace) : Prop where
  valid : B.validateBlock crypto block bonds config = .valid
  commit : B.commitValidated block.identity block.content = .ok B'

/-- Under the closure check an admitted block has been inserted. -/
theorem Admitted.inserted (h : Admitted crypto bonds config B block B')
    (hclosure : config.checkClosure = true) : B.Inserted block B' := by
  have hav := (validateBlock_eq_valid_iff.1 h.valid).2.2.2.1 hclosure
  obtain ⟨hnone, hv, rfl⟩ := commitValidated_ok h.commit
  exact ⟨hnone, missingPredecessors_eq_nil_iff.2 hav, rfl, rfl, rfl, rfl, rfl, rfl, rfl, rfl⟩

/-- A run of admissions of blocks from `allowed`. -/
inductive AdmitRun (crypto : BlockCrypto) (bonds : Bonds) (config : ValidationConfig)
    (allowed : Set Block) : Blocklace → Blocklace → Prop
  | refl (B : Blocklace) : AdmitRun crypto bonds config allowed B B
  | store {B B₁ B₂ : Blocklace} {block : Block} (run : AdmitRun crypto bonds config allowed B B₁)
      (mem : block ∈ allowed) (h : Admitted crypto bonds config B₁ block B₂) :
      AdmitRun crypto bonds config allowed B B₂

namespace AdmitRun

variable {allowed allowed' : Set Block} {B₁ : Blocklace} {p : BlockIdentity}

theorem trans (h : AdmitRun crypto bonds config allowed B B₁)
    (h' : AdmitRun crypto bonds config allowed B₁ B') :
    AdmitRun crypto bonds config allowed B B' := by
  induction h' with
  | refl => exact h
  | store _ hmem hadm ih => exact .store ih hmem hadm

theorem mono (hsub : allowed ⊆ allowed') (h : AdmitRun crypto bonds config allowed B B') :
    AdmitRun crypto bonds config allowed' B B' := by
  induction h with
  | refl => exact .refl _
  | store _ hmem hadm ih => exact .store ih (hsub hmem) hadm

/-- References that resolve go on resolving. -/
theorem resolves (h : AdmitRun crypto bonds config allowed B B')
    (hclosure : config.checkClosure = true) (hp : B.Resolves p) : B'.Resolves p := by
  induction h with
  | refl => exact hp
  | store _ _ hadm ih => exact (hadm.inserted hclosure).resolves_iff.2 (Or.inl ih)

end AdmitRun

end Blocklace

end CordialMiners
