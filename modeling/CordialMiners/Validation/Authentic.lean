/-
# Correctly hashed blocks

The hash of a block covers its creator, its payload and the hashes and creators
of its references (`crypto.rs`); the signatures of the references are left out.
Where no two blocks of a set `S` collide, a hash therefore fixes what the block
refers to, whichever copy of the block is at hand, and what a block observes
(`ObservesIn`) is a matter of hashes alone.

A closed blocklace of correctly hashed blocks (`HashedLace`) sees everything that
its blocks observe in `S` (`HashedLace.sees_of_observes`).
-/

import CordialMiners.Validation.Admission

namespace CordialMiners

open FinGraph Relation

namespace Block

/-- The hashes and creators that the block refers to. -/
def consensusRefs (b : Block) : List BlockIdentity := b.refs.map BlockIdentity.consensusIdentity

/-- The block refers to `a`, by hash and creator. -/
def RefersTo (b a : Block) : Prop := a.identity.consensusIdentity ∈ b.consensusRefs

instance (b a : Block) : Decidable (b.RefersTo a) := inferInstanceAs (Decidable (_ ∈ _))

end Block

/-- No two blocks of `S` have one hash unless creator, payload and referenced
blocks agree. -/
def BlockCrypto.CollisionFree (crypto : BlockCrypto) (S : Set Block) : Prop :=
  ∀ a ∈ S, ∀ b ∈ S, crypto.blockHash a.identity.creator a.content =
      crypto.blockHash b.identity.creator b.content →
    a.identity.creator = b.identity.creator ∧ a.content.payload = b.content.payload ∧
      ∀ q, q ∈ a.consensusRefs ↔ q ∈ b.consensusRefs

/-- The content hashes of `S` come in an order in which a hash is later than the
hashes its content refers to: to close a cycle, a content would have to contain
its own hash. -/
def BlockCrypto.NoHashCycle (crypto : BlockCrypto) (S : Set Block) : Prop :=
  ∃ rank : ContentHash → ℕ, ∀ b ∈ S, ∀ p ∈ b.content.predecessors,
    rank p.contentHash < rank (crypto.blockHash b.identity.creator b.content)

/-- `b` observes `a`: references lead from `b` to the hash and creator of `a`,
through correctly hashed blocks of `S`. -/
def ObservesIn (crypto : BlockCrypto) (S : Set Block) (b a : Block) : Prop :=
  ∃ c, ReflTransGen (fun x y => y ∈ S ∧ y.Hashed crypto ∧ x.RefersTo y) b c ∧ c.RefersTo a

variable {crypto : BlockCrypto} {bonds : Bonds} {config : ValidationConfig} {S : Set Block}
  {B B' : Blocklace} {a b c x : Block}

namespace Blocklace

/-- `B` is closed and holds correctly hashed blocks of `S`, unsigned or with a
valid signature. -/
structure HashedLace (crypto : BlockCrypto) (S : Set Block) (B : Blocklace) : Prop where
  mem : ∀ b, B.Stores b → b ∈ S
  hashed : ∀ b, B.Stores b → b.Hashed crypto
  signed : ∀ b, B.Stores b → b.identity.signature = [] ∨ b.Signed crypto
  complete : ∀ b, B.Stores b → Available Block.refs B.Resolves b
  checkpoint : B.checkpoint = none

theorem hashedLace_new (k : ℕ) : HashedLace crypto S (Blocklace.new k) where
  mem _ h := absurd h BlockMap.mem_toSet_empty
  hashed _ h := absurd h BlockMap.mem_toSet_empty
  signed _ h := absurd h BlockMap.mem_toSet_empty
  complete _ h := absurd h BlockMap.mem_toSet_empty
  checkpoint := rfl

theorem Inserted.stores_cases (hins : B.Inserted b B') (hc : B'.Stores c) : B.Stores c ∨ c = b := by
  unfold Stores at hc
  rw [hins.blocks] at hc
  by_cases hid : c.identity = b.identity
  · rw [hid, AList.lookup_insert] at hc
    refine Or.inr ?_
    cases b; cases c; simp_all
  · rw [AList.lookup_insert_ne hid] at hc
    exact Or.inl hc

namespace HashedLace

/-- Storing a valid block of `S` keeps the blocklace correctly hashed. -/
theorem admitted (hhash : config.checkContentHash = true) (hsig : config.checkSignature = true)
    (hclosure : config.checkClosure = true) (h : HashedLace crypto S B) (hb : b ∈ S)
    (hadm : Admitted crypto bonds config B b B') : HashedLace crypto S B' := by
  have hins := hadm.inserted hclosure
  obtain ⟨hhashed, hsigned, -⟩ := validateBlock_eq_valid_iff.1 hadm.valid
  have hstores : ∀ {P : Block → Prop}, (∀ c, B.Stores c → P c) → P b → ∀ c, B'.Stores c → P c := by
    intro P hold hnew c hc
    obtain hc | rfl := hins.stores_cases hc
    · exact hold c hc
    · exact hnew
  refine ⟨hstores h.mem hb, hstores h.hashed (hhashed hhash), hstores h.signed (hsigned hsig),
    hstores (fun c hc p hp => ?_) (fun p hp => ?_), hins.checkpoint.trans h.checkpoint⟩
  · exact hins.resolves_iff.2 (Or.inl (h.complete c hc p hp))
  · exact hins.resolves_iff.2 (Or.inl (missingPredecessors_eq_nil_iff.1 hins.closed p hp))

theorem run (hhash : config.checkContentHash = true) (hsig : config.checkSignature = true)
    (hclosure : config.checkClosure = true) (h : HashedLace crypto S B)
    (hrun : AdmitRun crypto bonds config S B B') : HashedLace crypto S B' := by
  induction hrun with
  | refl => exact h
  | store _ hmem hadm ih => exact ih.admitted hhash hsig hclosure hmem hadm

/-- **What a block observes, its references see**, once they resolve. -/
theorem sees_of_observes (hfree : crypto.CollisionFree S) (h : HashedLace crypto S B)
    (hav : Available Block.refs B.Resolves b) (hobs : ObservesIn crypto S b a) :
    ∃ p ∈ b.refs, ∃ r, B.resolveIdentity p = some r ∧
      ∃ y, B.Sees r y ∧ y.consensusIdentity = a.identity.consensusIdentity := by
  obtain ⟨c, hpath, hc⟩ := hobs
  -- along the path the stored copies stand in for the blocks of `S`
  have hcopy : ∀ x : Block, (∀ q, q ∈ b.consensusRefs ↔ q ∈ x.consensusRefs) →
      Available Block.refs B.Resolves x → ∃ p ∈ x.refs, ∃ r, B.resolveIdentity p = some r ∧
        ∃ y, B.Sees r y ∧ y.consensusIdentity = a.identity.consensusIdentity := by
    clear hav
    induction hpath using ReflTransGen.head_induction_on with
    | refl =>
        intro x hx hav
        obtain ⟨p, hp, hpa⟩ := List.mem_map.1 ((hx _).1 hc)
        obtain ⟨r, hr⟩ := hav p hp
        exact ⟨p, hp, r, hr, r, Sees.refl B r, (resolveIdentity_eq_some_iff.1 hr).2.1.symm.trans hpa⟩
    | @head u v huv _ ih =>
        intro x hx hav
        obtain ⟨hvS, hv, huv⟩ := huv
        obtain ⟨p, hp, hpv⟩ := List.mem_map.1 ((hx _).1 huv)
        obtain ⟨r, hr⟩ := hav p hp
        obtain ⟨s, rfl, hs⟩ := exists_stores (resolveIdentity_mem hr)
        have hcons : v.identity.consensusIdentity = s.identity.consensusIdentity :=
          hpv.symm.trans (resolveIdentity_eq_some_iff.1 hr).2.1
        have hhash : crypto.blockHash v.identity.creator v.content =
            crypto.blockHash s.identity.creator s.content := by
          rw [← show v.identity.contentHash = _ from hv,
            ← show s.identity.contentHash = _ from h.hashed s hs]
          exact (BlockIdentity.consensusIdentity_eq_iff.1 hcons).1
        obtain ⟨q, hq, t, ht, y, hy, hya⟩ :=
          ih s (hfree v hvS s (h.mem s hs) hhash).2.2 (h.complete s hs)
        have hstep : t ∈ B.expand s.identity := by
          rw [expand_of_lookup hs (by simp [h.checkpoint])]
          exact List.mem_filterMap.2 ⟨q, hq, ht⟩
        exact ⟨p, hp, s.identity, hr, y, .head hstep hy, hya⟩
  exact hcopy b (fun _ => Iff.rfl) hav

end HashedLace

end Blocklace

end CordialMiners
