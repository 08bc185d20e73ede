/-
# A blocklace that holds part of a set of blocks

Let `S` be a set of blocks, no two of which share hash and creator.  A closed
blocklace whose blocks are all of `S` sees of a stored block exactly what the
references of `S` lead to: what is below the block in the blocklace is what is
an ancestor of it in `S` (`PartOf.ancestor_iff`), whichever part is stored.
The chain check of validation is then a statement about `S` alone
(`PartOf.comparable_iff`).

Nothing here depends on the order in which blocks were stored, so these lemmas
turn results about deliveries in any order into results about `S`.  Hashes that
come in an order (`BlockCrypto.NoHashCycle`) give every stored block a round.
-/

import CordialMiners.Validation.Authentic

namespace CordialMiners

open FinGraph Relation

/-- `a` is an ancestor of `b` along references of `S`. -/
def Ancestor (S : Set Block) (a b : Block) : Prop :=
  TransGen (RefersIn Block.refs Block.NamedBy S) b a

/-- No two blocks of `S` have one hash and creator. -/
def DistinctBlocks (S : Set Block) : Prop :=
  ∀ a ∈ S, ∀ b ∈ S, a.identity.consensusIdentity = b.identity.consensusIdentity → a = b

/-- The blocks of a creator in `S` are pairwise comparable. -/
def ChainIn (S : Set Block) (creator : NodeId) : Prop :=
  ∀ a ∈ S, ∀ b ∈ S, a.identity.creator = creator → b.identity.creator = creator → a ≠ b →
    Ancestor S a b ∨ Ancestor S b a

/-- Every block of `S` carries the hash of its content. -/
def BlockCrypto.Hashed (crypto : BlockCrypto) (S : Set Block) : Prop :=
  ∀ b ∈ S, b.Hashed crypto

section Rank

variable {crypto : BlockCrypto} {S : Set Block} {a b : Block} {rank : ContentHash → ℕ}

theorem Ancestor.mem (h : Ancestor S a b) : a ∈ S := by
  obtain ⟨c, -, hc⟩ := TransGen.tail'_iff.1 h
  exact hc.1

theorem Ancestor.mono {S' : Set Block} (hS : S ⊆ S') (h : Ancestor S a b) : Ancestor S' a b :=
  TransGen.mono (fun _ _ hstep => ⟨hS hstep.1, hstep.2⟩) _ _ h

theorem rank_lt_of_refersIn (hhash : crypto.Hashed S)
    (hrank : ∀ b ∈ S, ∀ p ∈ b.content.predecessors,
      rank p.contentHash < rank (crypto.blockHash b.identity.creator b.content))
    (hb : b ∈ S) (h : RefersIn Block.refs Block.NamedBy S b a) :
    rank a.identity.contentHash < rank b.identity.contentHash := by
  obtain ⟨-, p, hp, hname⟩ := h
  have hpa : p.contentHash = a.identity.contentHash := (BlockIdentity.consensusIdentity_eq_iff.1 hname.1).1
  rw [hhash b hb, ← hpa]
  exact hrank b hb p hp

/-- The hash of an ancestor comes earlier. -/
theorem Ancestor.rank_lt (hhash : crypto.Hashed S)
    (hrank : ∀ b ∈ S, ∀ p ∈ b.content.predecessors,
      rank p.contentHash < rank (crypto.blockHash b.identity.creator b.content))
    (hb : b ∈ S) (h : Ancestor S a b) :
    rank a.identity.contentHash < rank b.identity.contentHash := by
  induction h with
  | single hstep => exact rank_lt_of_refersIn hhash hrank hb hstep
  | tail hpath hstep ih =>
      exact (rank_lt_of_refersIn hhash hrank (Ancestor.mem hpath) hstep).trans ih

/-- Where the references of `b` lead to `below` and do not leave it, other blocks
are no ancestors. -/
theorem not_ancestor_of_below {below : List Block} (ha : a ∉ below)
    (h : ∀ x ∈ b :: below, ∀ c ∈ S, (∃ p ∈ x.refs, c.NamedBy p) → c ∈ below) :
    ¬ Ancestor S a b := by
  intro hab
  have hmem : ∀ c, Ancestor S c b → c ∈ below := by
    intro c hc
    induction hc with
    | single hstep => exact h b (by simp) _ hstep.1 hstep.2
    | tail _ hstep ih => exact h _ (List.mem_cons_of_mem _ ih) _ hstep.1 hstep.2
  exact ha (hmem a hab)

/-- Where two blocks of one creator always refer to each other, creators keep to chains. -/
theorem chainIn_of_refersIn {v : NodeId}
    (h : ∀ a ∈ S, ∀ b ∈ S, a.identity.creator = v → b.identity.creator = v → a ≠ b →
      (∃ p ∈ b.refs, a.NamedBy p) ∨ ∃ p ∈ a.refs, b.NamedBy p) : ChainIn S v := by
  intro a ha b hb hav hbv hne
  obtain hab | hba := h a ha b hb hav hbv hne
  · exact Or.inl (.single ⟨ha, hab⟩)
  · exact Or.inr (.single ⟨hb, hba⟩)

/-- Where every creator keeps to a chain, hash and creator identify a block. -/
theorem distinctBlocks_of_chainIn (hhash : crypto.Hashed S) (hcycle : crypto.NoHashCycle S)
    (hchain : ∀ v, ChainIn S v) : DistinctBlocks S := by
  obtain ⟨rank, hrank⟩ := hcycle
  intro a ha b hb hcons
  obtain ⟨hab, hcreator⟩ := BlockIdentity.consensusIdentity_eq_iff.1 hcons
  by_contra hne
  obtain h | h := hchain b.identity.creator a ha b hb hcreator rfl hne
  · exact absurd (h.rank_lt hhash hrank hb) (hab ▸ lt_irrefl _)
  · exact absurd (h.rank_lt hhash hrank ha) (hab ▸ lt_irrefl _)

end Rank

namespace Blocklace

/-- `B` is closed and holds blocks of `S` only. -/
structure PartOf (S : Set Block) (B : Blocklace) : Prop where
  mem : ∀ b, B.Stores b → b ∈ S
  complete : ∀ b, B.Stores b → Available Block.refs B.Resolves b
  checkpoint : B.checkpoint = none

theorem partOf_new (S : Set Block) (k : ℕ) : PartOf S (Blocklace.new k) where
  mem _ h := absurd h BlockMap.mem_toSet_empty
  complete _ h := absurd h BlockMap.mem_toSet_empty
  checkpoint := rfl

variable {S : Set Block} {B B' : Blocklace} {a b c : Block} {x : BlockIdentity}

namespace PartOf

section Distinct

variable (hS : DistinctBlocks S)

include hS

/-- A stored block with the hash and creator of a block of `S` is that block. -/
theorem stores_of_consensus (h : PartOf S B) (hb : b ∈ S) (hx : x ∈ B.blocks)
    (hc : x.consensusIdentity = b.identity.consensusIdentity) : B.Stores b := by
  obtain ⟨c, rfl, hst⟩ := exists_stores hx
  exact hS c (h.mem c hst) b hb hc ▸ hst

theorem noVariant (h : PartOf S B) (hb : b ∈ S) :
    B.conflictingIdentityVariant b.identity = none := by
  rw [conflictingIdentityVariant_eq_none_iff]
  by_contra hnot
  push Not at hnot
  obtain ⟨hmem, k, hk, hc⟩ := hnot
  exact hmem (h.stores_of_consensus hS hb hk hc).mem

theorem stores_inserted_iff (h : PartOf S B) (hb : b ∈ S) (hins : B.Inserted b B') :
    B'.Stores c ↔ B.Stores c ∨ c = b := by
  by_cases hmem : b.identity ∈ B.blocks
  · have hst := h.stores_of_consensus hS hb hmem rfl
    unfold Stores
    rw [hins.blocks]
    by_cases hid : c.identity = b.identity
    · rw [hid, AList.lookup_insert, show B.blocks.lookup b.identity = some b.content from hst]
      constructor
      · exact Or.inl
      · rintro (hc | rfl)
        · exact hc
        · rfl
    · rw [AList.lookup_insert_ne hid]
      exact ⟨Or.inl, fun hc => hc.resolve_right fun heq => hid (heq ▸ rfl)⟩
  · exact hins.stores_iff hmem

/-- Storing a block of `S` keeps the blocklace part of `S`. -/
theorem inserted (h : PartOf S B) (hb : b ∈ S) (hins : B.Inserted b B') : PartOf S B' where
  mem c hc := by
    obtain hc | rfl := (h.stores_inserted_iff hS hb hins).1 hc
    · exact h.mem c hc
    · exact hb
  complete c hc p hp := by
    obtain hc | rfl := (h.stores_inserted_iff hS hb hins).1 hc
    · exact hins.resolves_iff.2 (Or.inl (h.complete c hc p hp))
    · exact hins.resolves_iff.2 (Or.inl (missingPredecessors_eq_nil_iff.1 hins.closed p hp))
  checkpoint := hins.checkpoint.trans h.checkpoint

/-- A reference that resolves names one block of `S`, which is stored. -/
theorem stores_of_names (h : PartOf S B) (hc : c ∈ S) {p : BlockIdentity} (hp : c.NamedBy p)
    (hr : B.Resolves p) : B.Stores c ∧ B.resolveIdentity p = some c.identity := by
  obtain ⟨r, hr⟩ := hr
  obtain ⟨hmem, hcons, hsig⟩ := resolveIdentity_eq_some_iff.1 hr
  have hst := h.stores_of_consensus hS hc hmem (hcons.symm.trans hp.1)
  have : r = c.identity := eq_of_consensusIdentity_eq hmem hst.mem (hcons.symm.trans hp.1)
  exact ⟨hst, this ▸ hr⟩

/-- The references of a stored block lead to the same blocks in `S` and in `B`. -/
theorem refersIn_iff (h : PartOf S B) (hb : B.Stores b) :
    RefersIn Block.refs Block.NamedBy S b c ↔ B.Stores c ∧ c.identity ∈ B.expand b.identity := by
  have hcp : B.checkpoint ≠ some b.identity := by simp [h.checkpoint]
  rw [expand_of_lookup hb hcp, List.mem_filterMap]
  constructor
  · rintro ⟨hc, p, hp, hname⟩
    obtain ⟨hst, hres⟩ := h.stores_of_names hS hc hname (h.complete b hb p hp)
    exact ⟨hst, p, hp, hres⟩
  · rintro ⟨hst, p, hp, hres⟩
    exact ⟨h.mem c hst, p, hp, (resolveIdentity_eq_some_iff.1 hres).2⟩

/-- **Below a stored block is what is an ancestor of it in `S`.** -/
theorem ancestor_iff (h : PartOf S B) (hb : B.Stores b) :
    Ancestor S a b ↔ B.Stores a ∧ B.Below a.identity b.identity := by
  constructor
  · intro hab
    induction hab with
    | single hstep =>
        obtain ⟨hst, hexp⟩ := (h.refersIn_iff hS hb).1 hstep
        exact ⟨hst, .single hexp⟩
    | tail _ hstep ih =>
        obtain ⟨hst, hexp⟩ := (h.refersIn_iff hS ih.1).1 hstep
        exact ⟨hst, ih.2.tail hexp⟩
  · rintro ⟨ha, hbelow⟩
    have hgen : ∀ y, TransGen (Step B.expand) b.identity y → ∀ c, B.Stores c → c.identity = y →
        Ancestor S c b := by
      intro y hy
      induction hy with
      | single hstep =>
          rintro c hc rfl
          exact .single ((h.refersIn_iff hS hb).2 ⟨hc, hstep⟩)
      | tail hpath hstep ih =>
          rintro c hc rfl
          obtain ⟨m, rfl, hm⟩ := exists_stores (Below.mem hpath)
          exact (ih m hm rfl).tail ((h.refersIn_iff hS hm).2 ⟨hc, hstep⟩)
    exact hgen _ hbelow a ha rfl

/-- **The chain check against `B` is a statement about `S`.** -/
theorem comparable_iff (h : PartOf S B) (hb : b ∈ S) (hav : Available Block.refs B.Resolves b)
    (ha : B.Stores a) :
    B.Comparable b a.identity ↔ Ancestor S a b ∨ Ancestor S b a := by
  unfold Comparable
  refine or_congr ?_ ?_
  · constructor
    · rintro ⟨p, hp, r, hr, hsees⟩
      obtain ⟨c, rfl, hc⟩ := exists_stores (resolveIdentity_mem hr)
      have hstep : RefersIn Block.refs Block.NamedBy S b c :=
        ⟨h.mem c hc, p, hp, (resolveIdentity_eq_some_iff.1 hr).2⟩
      obtain heq | hbelow := sees_iff_eq_or_below.1 hsees
      · exact .single (ha.ext hc heq ▸ hstep)
      · exact .head hstep ((h.ancestor_iff hS hc).2 ⟨ha, hbelow⟩)
    · intro hab
      obtain ⟨c, ⟨hc, p, hp, hname⟩, hrest⟩ := TransGen.head'_iff.1 hab
      obtain ⟨hst, hres⟩ := h.stores_of_names hS hc hname (hav p hp)
      refine ⟨p, hp, c.identity, hres, ?_⟩
      obtain rfl | hrest := reflTransGen_iff_eq_or_transGen.1 hrest
      · exact Sees.refl B _
      · exact ((h.ancestor_iff hS hst).1 hrest).2.sees
  · constructor
    · rintro ⟨y, hy, hbelow⟩
      obtain ⟨hmem, hcons, -⟩ := resolveIdentity_eq_some_iff.1 hy
      have hst := h.stores_of_consensus hS hb hmem hcons.symm
      rw [← eq_of_consensusIdentity_eq hst.mem hmem hcons] at hbelow
      exact (h.ancestor_iff hS ha).2 ⟨hst, hbelow⟩
    · intro hba
      obtain ⟨hst, hbelow⟩ := (h.ancestor_iff hS ha).1 hba
      exact ⟨b.identity, resolveIdentity_of_mem hst.mem, hbelow⟩

/-- Storing a block of `S` takes no block away. -/
theorem stores_of_run {bonds : Bonds} {crypto : BlockCrypto} {config : ValidationConfig}
    (hclosure : config.checkClosure = true) (h : PartOf S B)
    (hrun : AdmitRun crypto bonds config S B B') :
    PartOf S B' ∧ ∀ c, B.Stores c → B'.Stores c := by
  induction hrun with
  | refl => exact ⟨h, fun _ hc => hc⟩
  | store _ hmem hadm ih =>
      have hins := hadm.inserted hclosure
      exact ⟨ih.1.inserted hS hmem hins,
        fun c hc => (ih.1.stores_inserted_iff hS hmem hins).2 (Or.inl (ih.2 c hc))⟩

end Distinct

/-- **Every stored block has a round.** -/
theorem exists_round_of_stores {crypto : BlockCrypto} (h : PartOf S B) (hhash : crypto.Hashed S)
    (hcycle : crypto.NoHashCycle S) (hb : B.Stores b) : ∃ d, B.Round b.identity d := by
  obtain ⟨rank, hrank⟩ := hcycle
  have hstep : ∀ k ∈ B.blocks, ∀ x ∈ B.expand k, rank x.contentHash < rank k.contentHash := by
    intro k hk x hx
    obtain ⟨c, rfl, hc⟩ := exists_stores hk
    obtain ⟨a, rfl, ha⟩ := exists_stores (mem_of_mem_expand hx)
    rw [expand_of_lookup hc (by simp [h.checkpoint])] at hx
    obtain ⟨p, hp, hres⟩ := List.mem_filterMap.1 hx
    exact rank_lt_of_refersIn hhash hrank (h.mem c hc)
      ⟨h.mem a ha, p, hp, (resolveIdentity_eq_some_iff.1 hres).2⟩
  exact exists_round h.checkpoint (fun k _ c hc p hp => h.complete ⟨k, c⟩ hc p hp) hstep hb.mem

/-- A block whose references are there has a candidate round. -/
theorem exists_candidateRound_of_available {crypto : BlockCrypto} (h : PartOf S B)
    (hhash : crypto.Hashed S) (hcycle : crypto.NoHashCycle S)
    (hav : Available Block.refs B.Resolves b) : ∃ d, B.CandidateRound b.content d := by
  refine exists_candidateRound fun p hp => ?_
  obtain ⟨r, hr⟩ := hav p hp
  obtain ⟨c, rfl, hc⟩ := exists_stores (resolveIdentity_mem hr)
  obtain ⟨d, hd⟩ := h.exists_round_of_stores hhash hcycle hc
  exact ⟨d, _, hr, hd⟩

end PartOf

end Blocklace

end CordialMiners
