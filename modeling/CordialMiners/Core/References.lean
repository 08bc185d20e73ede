/-
# References and what makes them resolve

A reference names the block with its hash and creator, signed exactly so unless
the reference is unsigned.  Inserting a block makes the references to it resolve
and no others (`Inserted.resolves_iff`), and an insert whose references all
resolve fails on the verifier alone or on a second signature variant
(`exists_insert_ok`).  The blocks that wait for their references are handled
with `FinGraph.Rooted`.
-/

import CordialMiners.Core.Growth
import CordialMiners.Graph.Rooted

namespace CordialMiners

open FinGraph

/-- The reference `p` names the identity `r`. -/
def BlockIdentity.Names (p r : BlockIdentity) : Prop :=
  p.consensusIdentity = r.consensusIdentity ∧ (p = r ∨ p.signature = [])

instance (p r : BlockIdentity) : Decidable (p.Names r) :=
  inferInstanceAs (Decidable (_ ∧ (_ ∨ _)))

namespace Block

/-- The references of a block. -/
def refs (b : Block) : List BlockIdentity := b.content.predecessors

/-- The reference `p` names the block. -/
def NamedBy (p : BlockIdentity) (b : Block) : Prop := p.Names b.identity

instance (p : BlockIdentity) (b : Block) : Decidable (b.NamedBy p) :=
  inferInstanceAs (Decidable (p.Names b.identity))

/-- The verifier accepts the signature of the block. -/
def AcceptedBy (verifier : CryptoVerifier) (b : Block) : Prop :=
  verifier b.content b.identity.signature b.identity.creator = .ok ()

end Block

/-- The blocks of a map. -/
def BlockMap.toSet (blocks : BlockMap) : Set Block :=
  {b | blocks.lookup b.identity = some b.content}

namespace BlockMap

variable {blocks : BlockMap} {block b : Block}

theorem mem_toSet : b ∈ toSet blocks ↔ blocks.lookup b.identity = some b.content := Iff.rfl

theorem mem_of_mem_toSet (h : b ∈ toSet blocks) : b.identity ∈ blocks :=
  AList.lookup_isSome.1 (by rw [mem_toSet.1 h]; rfl)

theorem mem_toSet_empty : b ∉ toSet ∅ := fun h =>
  AList.notMem_empty _ (mem_of_mem_toSet h)

theorem mem_toSet_insert (hnew : block.identity ∉ blocks) :
    b ∈ toSet (blocks.insert block.identity block.content) ↔
      b ∈ toSet blocks ∨ b = block := by
  rw [mem_toSet, mem_toSet]
  by_cases hid : b.identity = block.identity
  · rw [hid, AList.lookup_insert, Option.some.injEq, AList.lookup_eq_none.2 hnew]
    constructor
    · intro hc
      exact Or.inr (by cases b; cases block; simp_all)
    · rintro (hF | rfl)
      · exact absurd hF (by simp)
      · rfl
  · rw [AList.lookup_insert_ne hid]
    exact ⟨Or.inl, fun hb => hb.resolve_right fun heq => hid (heq ▸ rfl)⟩

theorem mem_toSet_erase (hblock : block ∈ toSet blocks) :
    b ∈ toSet (blocks.erase block.identity) ↔ b ∈ toSet blocks ∧ b ≠ block := by
  rw [mem_toSet, mem_toSet]
  by_cases hid : b.identity = block.identity
  · rw [hid, AList.lookup_erase]
    refine ⟨fun h => absurd h (by simp), fun ⟨hb, hne⟩ => absurd ?_ hne⟩
    have hc : block.content = b.content := Option.some.inj ((mem_toSet.1 hblock).symm.trans hb)
    cases block; cases b; simp_all
  · rw [AList.lookup_erase_ne hid]
    exact ⟨fun h => ⟨h, fun heq => hid (heq ▸ rfl)⟩, fun h => h.1⟩

end BlockMap

namespace Blocklace

variable {B B' : Blocklace} {block b : Block} {p id : BlockIdentity} {verifier : CryptoVerifier}

theorem exists_stores (h : id ∈ B.blocks) : ∃ b, b.identity = id ∧ B.Stores b := by
  obtain ⟨content, hc⟩ := exists_lookup h
  exact ⟨⟨id, content⟩, rfl, hc⟩

/-- The reference names a stored block. -/
def Resolves (B : Blocklace) (p : BlockIdentity) : Prop := ∃ r, B.resolveIdentity p = some r

theorem resolves_iff : B.Resolves p ↔ ∃ r ∈ B.blocks, p.Names r := by
  unfold Resolves BlockIdentity.Names
  simp only [resolveIdentity_eq_some_iff]

theorem content_isSome_iff : (B.content p).isSome = true ↔ B.Resolves p := by
  unfold content Resolves
  constructor
  · intro h
    obtain ⟨content, hc⟩ := Option.isSome_iff_exists.1 h
    obtain ⟨r, hr, -⟩ := Option.bind_eq_some_iff.1 hc
    exact ⟨r, hr⟩
  · rintro ⟨r, hr⟩
    obtain ⟨content, hc⟩ := exists_lookup (resolveIdentity_mem hr)
    rw [hr, Option.bind_some, hc]
    rfl

theorem missingPredecessors_eq_nil_iff :
    B.missingPredecessors block.content = [] ↔ Available Block.refs B.Resolves block := by
  unfold missingPredecessors Available Resolves Block.refs
  rw [List.filter_eq_nil_iff]
  refine forall₂_congr fun p _ => ?_
  rw [Option.isNone_iff_eq_none, ← ne_eq, ← Option.isSome_iff_ne_none, Option.isSome_iff_exists]

theorem conflictingIdentityVariant_eq_none_iff :
    B.conflictingIdentityVariant id = none ↔
      id ∈ B.blocks ∨ ∀ k ∈ B.blocks, k.consensusIdentity ≠ id.consensusIdentity := by
  unfold conflictingIdentityVariant
  split_ifs with h
  · simp [h]
  · rw [List.find?_eq_none]
    simp only [h, false_or, decide_eq_true_eq]
    exact forall₂_congr fun k _ => not_congr BlockIdentity.consensusIdentity_eq_iff.symm

/-- No stored block has the consensus identity of `id`. -/
def Unused (B : Blocklace) (id : BlockIdentity) : Prop :=
  ∀ k ∈ B.blocks, k.consensusIdentity ≠ id.consensusIdentity

theorem Unused.not_mem (h : B.Unused id) : id ∉ B.blocks := fun hmem => h id hmem rfl

/-! ### Inserting -/

/-- What stops an insert of an available block that is new: the verifier only. -/
theorem exists_insert_ok (hacc : block.AcceptedBy verifier)
    (hav : Available Block.refs B.Resolves block)
    (hvar : B.conflictingIdentityVariant block.identity = none) :
    ∃ B', B.insert block verifier = .ok B' := by
  unfold insert
  rw [hacc, missingPredecessors_eq_nil_iff.2 hav]
  simp only
  unfold commitValidated
  split
  · next conflicting heq =>
    exfalso
    split at heq
    · next h => rw [hvar] at h; exact absurd h (by simp)
    · exact absurd heq (by simp)
  · exact ⟨_, rfl⟩

theorem insert_of_not_acceptedBy (h : ¬ block.AcceptedBy verifier) :
    ∃ e, B.insert block verifier = .error e := by
  unfold insert
  unfold Block.AcceptedBy at h
  split
  · exact ⟨_, rfl⟩
  · next heq => exact absurd heq h

theorem acceptedBy_of_insert (h : B.insert block verifier = .ok B') :
    block.AcceptedBy verifier := by
  by_contra hacc
  obtain ⟨e, he⟩ := insert_of_not_acceptedBy (B := B) hacc
  rw [he] at h
  exact absurd h (by simp)

/-- An insert with a trusted boundary stores the block as any other insert does. -/
theorem insertWithTrustedBoundary_blocks {missing : List BlockIdentity}
    (h : B.insertWithTrustedBoundary block verifier = .ok (missing, B')) :
    B'.blocks = B.blocks.insert block.identity block.content := by
  obtain ⟨-, B₁, hcommit, rfl⟩ := insertWithTrustedBoundary_ok h
  obtain ⟨-, hv, rfl⟩ := commitValidated_ok hcommit
  rfl

/-- **Storing a block makes the references to it resolve, and no others.** -/
theorem resolves_iff_of_blocks
    (hblocks : B'.blocks = B.blocks.insert block.identity block.content) :
    B'.Resolves p ↔ B.Resolves p ∨ block.NamedBy p := by
  rw [Blocklace.resolves_iff, Blocklace.resolves_iff, hblocks]
  unfold Block.NamedBy
  constructor
  · rintro ⟨r, hr, hn⟩
    obtain rfl | hr := (AList.mem_insert _).1 hr
    · exact Or.inr hn
    · exact Or.inl ⟨r, hr, hn⟩
  · rintro (⟨r, hr, hn⟩ | hn)
    · exact ⟨r, (AList.mem_insert _).2 (Or.inr hr), hn⟩
    · exact ⟨_, (AList.mem_insert _).2 (Or.inl rfl), hn⟩

namespace Inserted

theorem mem_iff (h : B.Inserted block B') : id ∈ B'.blocks ↔ id = block.identity ∨ id ∈ B.blocks := by
  rw [h.blocks, AList.mem_insert]

/-- **An insert makes the references to the block resolve, and no others.** -/
theorem resolves_iff (h : B.Inserted block B') :
    B'.Resolves p ↔ B.Resolves p ∨ block.NamedBy p := resolves_iff_of_blocks h.blocks

/-- A new block is added to the stored ones. -/
theorem stores_iff (h : B.Inserted block B') (hnew : block.identity ∉ B.blocks) :
    B'.Stores b ↔ B.Stores b ∨ b = block := by
  unfold Stores
  rw [h.blocks]
  exact BlockMap.mem_toSet_insert hnew

theorem unused_iff (h : B.Inserted block B') :
    B'.Unused id ↔ B.Unused id ∧ block.identity.consensusIdentity ≠ id.consensusIdentity := by
  unfold Unused
  simp only [h.mem_iff]
  constructor
  · exact fun hu => ⟨fun k hk => hu k (Or.inr hk), hu _ (Or.inl rfl)⟩
  · rintro ⟨hu, hne⟩ k (rfl | hk)
    · exact hne
    · exact hu k hk

end Inserted

end Blocklace

end CordialMiners
