/-
# An honest proposer over a whole run

A proposer calls `propose_at_time` again and again on a blocklace that grows between
the calls, by its own blocks and by those of others.  The blocks that its calls
returned form a chain, whatever the others do: the last of them is above the others
(`TopOf`), so it is the tip that the next call refers to.

A block that was signed but could not be broadcast is not stored, and the next call
does not know of it.  Each signed block is therefore above the ones *returned*
before it (`signed_above_returned`), and two signed blocks of which the first was
not returned need not be comparable (`signed_blocks_incomparable`).
-/

import CordialMiners.Node.Proposer
import CordialMiners.Core.PartOf

namespace CordialMiners

open FinGraph Relation

namespace Blocklace

variable {B B' : Blocklace} {v : NodeId} {x y : BlockIdentity} {block : Block}

/-! ### The last block of a creator -/

/-- `x` is a block of `v` above all its blocks, with none of them above it. -/
structure TopOf (B : Blocklace) (v : NodeId) (x : BlockIdentity) : Prop where
  mem : x ∈ B.blocks
  creator : x.creator = v
  sees : ∀ y ∈ B.blocks, y.creator = v → B.Sees x y
  last : ∀ y ∈ B.blocks, y.creator = v → ¬ B.Below x y

/-- **The top of a creator is its tip.** -/
theorem TopOf.tipOf (h : B.TopOf v x) : ∃ t, B.tipOf v = some t ∧ t.identity = x := by
  have hsome : (B.tipOf v).isSome = true := by
    obtain ⟨b, rfl, hb⟩ := exists_stores h.mem
    unfold Blocklace.tipOf
    rw [List.find?_isSome]
    refine ⟨b, mem_blocksBy_iff.2 ⟨hb, h.creator⟩, ?_⟩
    rw [Bool.not_eq_true', ← Bool.not_eq_true, List.any_eq_true]
    rintro ⟨c, hc, habove⟩
    obtain ⟨hst, hcv⟩ := mem_blocksBy_iff.1 hc
    rw [Bool.and_eq_true, precedes_of_mem h.mem] at habove
    exact h.last _ hst.mem hcv habove.2
  obtain ⟨t, ht⟩ := Option.isSome_iff_exists.1 hsome
  refine ⟨t, ht, ?_⟩
  obtain ⟨hst, htv, habove⟩ := tipOf_eq_some ht
  by_contra hne
  obtain heq | hbelow := sees_iff_eq_or_below.1 (h.sees _ hst.mem htv)
  · exact hne heq
  · exact habove x h.mem h.creator (Ne.symm hne) hbelow

/-- Nothing else of `v` is stored than the blocks of the list, its first the top. -/
def Latest (B : Blocklace) (v : NodeId) : List Block → Prop
  | [] => ∀ x ∈ B.blocks, x.creator ≠ v
  | b :: _ => B.TopOf v b.identity

section Insert

variable (hcomplete : ∀ b ∈ B.blocks, B.Complete b) (hcp : B.checkpoint = none)
  (hins : B.Inserted block B') (hk : B.KeepsReferences block)

include hcomplete hins hk

/-- In a closed blocklace an insert leaves every stored block where it was. -/
theorem Inserted.sees_iff (hx : x ∈ B.blocks) : B'.Sees x y ↔ B.Sees x y := by
  have hexp : ∀ {a b}, a ∈ B.blocks → (b ∈ B'.expand a ↔ b ∈ B.expand a) := fun ha =>
    (hins.extends hk).mem_expand_iff hins.checkpoint ha (hcomplete _ ha)
  constructor
  · intro h
    induction h with
    | refl => exact Sees.refl B x
    | tail _ hstep ih => exact ReflTransGen.tail ih ((hexp (Sees.mem ih hx)).1 hstep)
  · intro h
    induction h with
    | refl => exact Sees.refl B' x
    | tail hpath hstep ih => exact ReflTransGen.tail ih ((hexp (Sees.mem hpath hx)).2 hstep)

theorem Inserted.below_iff (hx : x ∈ B.blocks) : B'.Below y x ↔ B.Below y x := by
  have hexp : ∀ {b}, b ∈ B'.expand x ↔ b ∈ B.expand x :=
    (hins.extends hk).mem_expand_iff hins.checkpoint hx (hcomplete _ hx)
  unfold Below
  rw [TransGen.head'_iff, TransGen.head'_iff]
  constructor
  · rintro ⟨z, hz, hzy⟩
    have hz := hexp.1 hz
    exact ⟨z, hz, (hins.sees_iff hcomplete hk (mem_of_mem_expand hz)).1 hzy⟩
  · rintro ⟨z, hz, hzy⟩
    exact ⟨z, hexp.2 hz, (hins.sees_iff hcomplete hk (mem_of_mem_expand hz)).2 hzy⟩

/-- An insert keeps the blocklace closed. -/
theorem Inserted.complete_of_closed : ∀ b ∈ B'.blocks, B'.Complete b := by
  have hext := hins.extends hk
  intro b hb
  by_cases hmem : b ∈ B.blocks
  · exact hext.complete hmem (hcomplete b hmem)
  · obtain rfl := (hins.mem_iff.1 hb).resolve_right hmem
    intro c hc p hp
    rw [hins.blocks, AList.lookup_insert] at hc
    obtain rfl := Option.some.inj hc
    exact hins.resolves_iff.2 (Or.inl (missingPredecessors_eq_nil_iff.1 hins.closed p hp))

/-- An insert that brings no new block of `v` keeps its chain and its top. -/
theorem Inserted.latest_of_other (hother : block.identity ∈ B.blocks ∨ block.identity.creator ≠ v)
    {blocks : List Block} (hchain : B.satisfiesChainAxiom v = true) (hlatest : B.Latest v blocks) :
    B'.satisfiesChainAxiom v = true ∧ B'.Latest v blocks := by
  have hown : ∀ y ∈ B'.blocks, y.creator = v → y ∈ B.blocks := by
    intro y hy hyv
    obtain rfl | hy := hins.mem_iff.1 hy
    · exact hother.resolve_right (not_not.2 hyv)
    · exact hy
  refine ⟨satisfiesChainAxiom_iff.2 fun a ha b hb hav hbv hne => ?_, ?_⟩
  · rw [hins.below_iff hcomplete hk (hown a ha hav), hins.below_iff hcomplete hk (hown b hb hbv)]
    exact satisfiesChainAxiom_iff.1 hchain a (hown a ha hav) b (hown b hb hbv) hav hbv hne
  · cases blocks with
    | nil => exact fun y hy hyv => hlatest y (hown y hy hyv) hyv
    | cons b blocks =>
        have htop : B.TopOf v b.identity := hlatest
        exact
          { mem := hins.mem_iff.2 (Or.inr htop.mem)
            creator := htop.creator
            sees := fun y hy hyv =>
              (hins.sees_iff hcomplete hk htop.mem).2 (htop.sees y (hown y hy hyv) hyv)
            last := fun y hy hyv hbelow => htop.last y (hown y hy hyv) hyv
              ((hins.below_iff hcomplete hk (hown y hy hyv)).1 hbelow) }

include hcp

/-- **A new block of `v` that refers to its last one is the new last one.** -/
theorem Inserted.latest_of_next {blocks : List Block} (hnew : block.identity ∉ B.blocks)
    (hcreator : block.identity.creator = v) (hchain : B.satisfiesChainAxiom v = true)
    (hlatest : B.Latest v blocks)
    (href : ∀ b ∈ blocks.head?, b.identity.consensusIdentity ∈ block.content.predecessors) :
    B'.satisfiesChainAxiom v = true ∧ B'.Latest v (block :: blocks) := by
  have hlookup : B'.blocks.lookup block.identity = some block.content := by
    rw [hins.blocks, AList.lookup_insert]
  have hcp' : B'.checkpoint ≠ some block.identity := by simp [hins.checkpoint, hcp]
  -- what the new block points at was stored before
  have hold : ∀ z ∈ B'.expand block.identity, z ∈ B.blocks := by
    intro z hz
    rw [expand_of_lookup hlookup hcp', List.mem_filterMap] at hz
    obtain ⟨p, hp, hpz⟩ := hz
    obtain ⟨r, hr⟩ := missingPredecessors_eq_nil_iff.1 hins.closed p hp
    have hrz := (hins.extends hk).resolveIdentity hr
    rw [hpz] at hrz
    exact Option.some.inj hrz ▸ resolveIdentity_mem hr
  have hsees : ∀ y ∈ B.blocks, y.creator = v → B'.Below y block.identity := by
    intro y hy hyv
    cases blocks with
    | nil => exact absurd hyv (hlatest y hy)
    | cons b blocks =>
        have htop : B.TopOf v b.identity := hlatest
        have hexp : b.identity ∈ B'.expand block.identity := by
          rw [expand_of_lookup hlookup hcp', List.mem_filterMap]
          exact ⟨_, href b (by simp), resolveIdentity_consensusIdentity (hins.mem_iff.2 (Or.inr htop.mem))⟩
        exact TransGen.head' hexp ((hins.sees_iff hcomplete hk htop.mem).2 (htop.sees y hy hyv))
  have hlast : ∀ y ∈ B.blocks, ¬ B'.Sees y block.identity := by
    intro y hy hsee
    exact hnew (Sees.mem ((hins.sees_iff hcomplete hk hy).1 hsee) hy)
  refine ⟨satisfiesChainAxiom_iff.2 fun a ha b hb hav hbv hne => ?_, ?_⟩
  · obtain rfl | ha := hins.mem_iff.1 ha
    · obtain rfl | hb := hins.mem_iff.1 hb
      · exact absurd rfl hne
      · exact Or.inr (hsees b hb hbv)
    · obtain rfl | hb := hins.mem_iff.1 hb
      · exact Or.inl (hsees a ha hav)
      · rw [hins.below_iff hcomplete hk ha, hins.below_iff hcomplete hk hb]
        exact satisfiesChainAxiom_iff.1 hchain a ha b hb hav hbv hne
  · exact
      { mem := hins.mem_iff.2 (Or.inl rfl)
        creator := hcreator
        sees := fun y hy hyv => by
          obtain rfl | hy := hins.mem_iff.1 hy
          · exact Sees.refl B' _
          · exact (hsees y hy hyv).sees
        last := fun y hy _ hbelow => by
          obtain rfl | hy := hins.mem_iff.1 hy
          · obtain ⟨z, hz, hzy⟩ := TransGen.head'_iff.1 hbelow
            exact hlast z (hold z hz) hzy
          · exact hlast y hy hbelow.sees }

end Insert

end Blocklace

/-! ### Runs -/

/-- A block that was signed in a call, and whether the call returned it. -/
structure SignedBlock where
  block : Block
  returned : Bool
deriving DecidableEq, Repr

/-- A proposer with the blocklace it works on and what it has signed, the latest
first. -/
structure Proposing where
  blocklace : Blocklace
  proposer : CordialProposer
  signed : List SignedBlock

namespace Proposing

/-- After a call of `propose_at_time`. -/
def call (s : Proposing) (env : ProposalEnv) (pool : DeployPool) (now : ℕ) : Proposing where
  blocklace := s.blocklace
  proposer := (s.proposer.proposeAtTime env s.blocklace pool now).2
  signed :=
    match s.proposer.signNext env s.blocklace pool now with
    | .error _ => s.signed
    | .ok (block, _) =>
        ⟨block, (s.proposer.proposeAtTime env s.blocklace pool now).1.isOk⟩ :: s.signed

/-- The start of a run: a closed blocklace without checkpoint and without blocks of
the proposer, which has signed nothing. -/
structure Fresh (s : Proposing) : Prop where
  closed : s.blocklace.isClosed = true
  checkpoint : s.blocklace.checkpoint = none
  none_own : ∀ x ∈ s.blocklace.blocks, x.creator ≠ s.proposer.creator
  signed : s.signed = []

/-- The stored blocks and the signed ones. -/
def known (s : Proposing) : Set Block :=
  {b | s.blocklace.Stores b ∨ ∃ entry ∈ s.signed, entry.block = b}

/-- The entries of the calls that returned their block. -/
def returned (s : Proposing) : List SignedBlock := s.signed.filter SignedBlock.returned

end Proposing

/-- A run of a proposer.  Between the calls the blocklace grows by blocks that
`allowed` admits, those of the proposer's creator being ones it returned, and
authorizations are queued.  At a call the blocklace holds all returned blocks and
the creator has a positive stake. -/
inductive ProposerRun (allowed : Blocklace → Block → Prop) : Proposing → Proposing → Prop
  | refl (s : Proposing) : ProposerRun allowed s s
  | insert {s t : Proposing} {block : Block} {verifier : CryptoVerifier} {B : Blocklace}
      (run : ProposerRun allowed s t) (ok : allowed t.blocklace block)
      (own : block.identity.creator = t.proposer.creator → ⟨block, true⟩ ∈ t.signed)
      (h : t.blocklace.insert block verifier = .ok B) :
      ProposerRun allowed s { t with blocklace := B }
  | queue {s t : Proposing} (authorizations : List PorEquivocationAuthorization)
      (run : ProposerRun allowed s t) :
      ProposerRun allowed s
        { t with proposer := { t.proposer with porAuthorizations := authorizations } }
  | call {s t : Proposing} (env : ProposalEnv) (pool : DeployPool) (now : ℕ) {stake : U64}
      (run : ProposerRun allowed s t)
      (received : ∀ block, ⟨block, true⟩ ∈ t.signed → t.blocklace.Stores block)
      (bonded : t.proposer.bonds.table.lookup t.proposer.creator = some stake)
      (positive : 0 < stake) : ProposerRun allowed s (t.call env pool now)

/-! ### What a run keeps -/

namespace Proposing

variable {s : Proposing} {env : ProposalEnv} {pool : DeployPool} {now : ℕ} {block : Block}

/-- The returned blocks are a chain with the last of them on top, except that the
last one may not have arrived; then it refers to the one before. -/
structure Chained (s : Proposing) : Prop where
  complete : ∀ b ∈ s.blocklace.blocks, s.blocklace.Complete b
  checkpoint : s.blocklace.checkpoint = none
  chain : s.blocklace.satisfiesChainAxiom s.proposer.creator = true
  creator : ∀ entry ∈ s.signed, entry.block.identity.creator = s.proposer.creator
  stored : ∀ entry ∈ s.returned.tail, entry.block.identity ∈ s.blocklace.blocks
  latest : s.blocklace.Latest s.proposer.creator (s.returned.map SignedBlock.block) ∨
    s.blocklace.Latest s.proposer.creator (s.returned.tail.map SignedBlock.block) ∧
      ∀ entry ∈ s.returned.head?, ∀ before ∈ s.returned.tail.head?,
        before.block.identity.consensusIdentity ∈ entry.block.content.predecessors
  above : s.signed.Pairwise fun later earlier => earlier.returned = true →
    Ancestor {b | ∃ entry ∈ s.signed, entry.block = b} earlier.block later.block

theorem mem_returned {entry : SignedBlock} :
    entry ∈ s.returned ↔ entry ∈ s.signed ∧ entry.returned = true := List.mem_filter

theorem Fresh.chained (h : s.Fresh) : s.Chained where
  complete b _ c hc p hp :=
    Blocklace.isClosed_iff.1 h.closed b c hc (by simp [h.checkpoint]) p hp
  checkpoint := h.checkpoint
  chain := Blocklace.satisfiesChainAxiom_iff.2 fun a ha _ _ hav => absurd hav (h.none_own a ha)
  creator entry hentry := by simp [h.signed] at hentry
  stored entry hentry := by simp [returned, h.signed] at hentry
  latest := by
    refine Or.inl ?_
    rw [returned, h.signed]
    exact h.none_own
  above := by simp [h.signed]

/-- **An insert keeps the chain.** -/
theorem Chained.insert (h : s.Chained) {B : Blocklace} (hins : s.blocklace.Inserted block B)
    (hk : s.blocklace.KeepsReferences block)
    (own : block.identity.creator = s.proposer.creator → ⟨block, true⟩ ∈ s.signed) :
    Chained { s with blocklace := B } := by
  have hkept : ∀ {id}, id ∈ s.blocklace.blocks → id ∈ B.blocks := fun hid =>
    hins.mem_iff.2 (Or.inr hid)
  suffices hnext : B.satisfiesChainAxiom s.proposer.creator = true ∧
      (B.Latest s.proposer.creator (s.returned.map SignedBlock.block) ∨
        B.Latest s.proposer.creator (s.returned.tail.map SignedBlock.block) ∧
          ∀ entry ∈ s.returned.head?, ∀ before ∈ s.returned.tail.head?,
            before.block.identity.consensusIdentity ∈ entry.block.content.predecessors) from
    { complete := hins.complete_of_closed h.complete hk
      checkpoint := hins.checkpoint.trans h.checkpoint
      chain := hnext.1
      creator := h.creator
      stored := fun entry hentry => hkept (h.stored entry hentry)
      latest := hnext.2
      above := h.above }
  by_cases hother : block.identity ∈ s.blocklace.blocks ∨
      block.identity.creator ≠ s.proposer.creator
  · obtain hlatest | ⟨hlatest, href⟩ := h.latest
    · obtain ⟨hchain, hlatest⟩ := hins.latest_of_other h.complete hk hother h.chain hlatest
      exact ⟨hchain, Or.inl hlatest⟩
    · obtain ⟨hchain, hlatest⟩ := hins.latest_of_other h.complete hk hother h.chain hlatest
      exact ⟨hchain, Or.inr ⟨hlatest, href⟩⟩
  · -- the block is the last returned one, and arrives now
    push Not at hother
    obtain ⟨hnew, hcreator⟩ := hother
    have hmem : (⟨block, true⟩ : SignedBlock) ∈ s.returned := mem_returned.2 ⟨own hcreator, rfl⟩
    obtain ⟨entry, rest, hreturned⟩ := List.exists_cons_of_ne_nil (List.ne_nil_of_mem hmem)
    have hstored := h.stored
    have hlatest := h.latest
    rw [hreturned] at hmem hstored hlatest ⊢
    obtain rfl : entry = ⟨block, true⟩ := by
      obtain heq | hmem := List.mem_cons.1 hmem
      · exact heq.symm
      · exact absurd (hstored _ hmem) hnew
    obtain hlatest | ⟨hlatest, href⟩ := hlatest
    · exact absurd (Blocklace.TopOf.mem hlatest) hnew
    · obtain ⟨hchain, hlatest⟩ := hins.latest_of_next h.complete h.checkpoint hk hnew hcreator h.chain
        hlatest fun b hb => by
          rw [List.tail_cons, List.head?_map, Option.mem_map] at hb
          obtain ⟨before, hbefore, rfl⟩ := hb
          exact href _ rfl before hbefore
      exact ⟨hchain, Or.inl hlatest⟩

/-- Where all returned blocks have arrived, the last of them is on top. -/
theorem Chained.latest_of_received (h : s.Chained)
    (received : ∀ block, ⟨block, true⟩ ∈ s.signed → s.blocklace.Stores block) :
    s.blocklace.Latest s.proposer.creator (s.returned.map SignedBlock.block) := by
  obtain hlatest | ⟨hlatest, href⟩ := h.latest
  · exact hlatest
  · cases hreturned : s.returned with
    | nil =>
        rw [hreturned] at hlatest
        exact hlatest
    | cons entry rest =>
        rw [hreturned] at hlatest href
        obtain ⟨hsigned, hret⟩ := mem_returned.1 (hreturned ▸ List.mem_cons_self : entry ∈ s.returned)
        obtain ⟨block, ret⟩ := entry
        obtain rfl : ret = true := hret
        have hstored := received block hsigned
        have hcreator := h.creator _ hsigned
        cases rest with
        | nil => exact absurd hcreator (hlatest _ hstored.mem)
        | cons before rest =>
            -- it would be above the one before
            have htop : s.blocklace.TopOf s.proposer.creator before.block.identity := hlatest
            refine absurd ?_ (htop.last _ hstored.mem hcreator)
            refine TransGen.single ?_
            show before.block.identity ∈ s.blocklace.expand block.identity
            rw [Blocklace.expand_of_lookup hstored (by simp [h.checkpoint]), List.mem_filterMap]
            exact ⟨_, href _ rfl before rfl, Blocklace.resolveIdentity_consensusIdentity htop.mem⟩

/-- **A call refers to the last returned block**, where all of them have arrived. -/
theorem Chained.refers (h : s.Chained)
    (received : ∀ block, ⟨block, true⟩ ∈ s.signed → s.blocklace.Stores block)
    (bonded : s.proposer.creator ∈ s.proposer.bonds.table) {nextBonds : Bonds}
    (hsign : s.proposer.signNext env s.blocklace pool now = .ok (block, nextBonds))
    {last : SignedBlock} (hlast : last ∈ s.returned.head?) :
    last.block.identity.consensusIdentity ∈ block.content.predecessors := by
  obtain ⟨-, hrefs⟩ := CordialProposer.signNext_eq_ok hsign
  obtain ⟨rest, hreturned⟩ : ∃ rest, s.returned = last :: rest := by
    cases hreturned : s.returned with
    | nil => simp [hreturned] at hlast
    | cons entry rest =>
        rw [hreturned] at hlast
        exact ⟨rest, by rw [Option.some.inj hlast]⟩
  have hlatest := h.latest_of_received received
  rw [hreturned] at hlatest
  obtain ⟨tip, htip, hid⟩ := Blocklace.TopOf.tipOf hlatest
  have hhonest : s.proposer.creator ∉ s.blocklace.findEquivacators := by
    unfold Blocklace.findEquivacators
    rw [List.mem_filter, not_and]
    intro _
    simp [h.chain]
  refine (hrefs _).2 ⟨last.block.identity, ?_, rfl⟩
  exact Blocklace.mem_select.1 _ _
    (Blocklace.mem_collectValidatorTips.2 ⟨bonded, hhonest, tip, htip, hid⟩)

/-- **A call keeps the chain.** -/
theorem Chained.call (h : s.Chained)
    (received : ∀ block, ⟨block, true⟩ ∈ s.signed → s.blocklace.Stores block)
    (bonded : s.proposer.creator ∈ s.proposer.bonds.table) : (s.call env pool now).Chained := by
  have hcreator : (s.call env pool now).proposer.creator = s.proposer.creator :=
    CordialProposer.proposeAtTime_config.1
  have hlatest := h.latest_of_received received
  cases hsign : s.proposer.signNext env s.blocklace pool now with
  | error stop =>
      have hsigned : (s.call env pool now).signed = s.signed := by
        simp only [Proposing.call, hsign]
      exact
        { complete := h.complete
          checkpoint := h.checkpoint
          chain := hcreator ▸ h.chain
          creator := by rw [hsigned, hcreator]; exact h.creator
          stored := by rw [returned, hsigned]; exact h.stored
          latest := by rw [returned, hsigned, hcreator]; exact Or.inl hlatest
          above := by rw [hsigned]; exact h.above }
  | ok signed =>
      obtain ⟨block, nextBonds⟩ := signed
      obtain ⟨ret, hsigned⟩ : ∃ ret, (s.call env pool now).signed = ⟨block, ret⟩ :: s.signed :=
        ⟨_, by simp only [Proposing.call, hsign]; rfl⟩
      have hrefers := fun {last} hlast => @refers s env pool now block h received bonded nextBonds hsign last hlast
      have hstored : ∀ entry ∈ s.returned, entry.block.identity ∈ s.blocklace.blocks := by
        rintro ⟨b, r⟩ hentry
        obtain ⟨hmem, rfl⟩ := mem_returned.1 hentry
        exact (received b hmem).mem
      exact
        { complete := h.complete
          checkpoint := h.checkpoint
          chain := hcreator ▸ h.chain
          creator := by
            rw [hsigned, hcreator]
            exact List.forall_mem_cons.2 ⟨(CordialProposer.signNext_eq_ok hsign).1, h.creator⟩
          stored := by
            intro entry hentry
            rw [returned, hsigned] at hentry
            cases ret with
            | true => exact hstored entry hentry
            | false => exact h.stored entry hentry
          latest := by
            rw [returned, hsigned, hcreator]
            cases ret with
            | true =>
                refine Or.inr ⟨hlatest, fun entry hentry before hbefore => ?_⟩
                obtain rfl := Option.some.inj hentry
                exact hrefers hbefore
            | false => exact Or.inl hlatest
          above := by
            rw [hsigned]
            have hsub : {b | ∃ entry ∈ s.signed, entry.block = b} ⊆
                {b | ∃ entry ∈ (⟨block, ret⟩ : SignedBlock) :: s.signed, entry.block = b} :=
              fun b ⟨entry, hentry, heq⟩ => ⟨entry, List.mem_cons_of_mem _ hentry, heq⟩
            refine List.pairwise_cons.2 ⟨fun earlier hearlier hret => ?_,
              h.above.imp fun hanc hret => Ancestor.mono hsub (hanc hret)⟩
            have hmem := mem_returned.2 ⟨hearlier, hret⟩
            obtain ⟨last, rest, hreturned⟩ :=
              List.exists_cons_of_ne_nil (List.ne_nil_of_mem hmem)
            have hlast : last ∈ s.signed :=
              (mem_returned.1 (hreturned ▸ List.mem_cons_self : last ∈ s.returned)).1
            have hstep : RefersIn Block.refs Block.NamedBy
                {b | ∃ entry ∈ (⟨block, ret⟩ : SignedBlock) :: s.signed, entry.block = b}
                block last.block :=
              ⟨⟨last, List.mem_cons_of_mem _ hlast, rfl⟩, _, hrefers (by rw [hreturned]; rfl), rfl,
                Or.inr rfl⟩
            have hpairwise := h.above.filter SignedBlock.returned
            rw [show s.signed.filter SignedBlock.returned = _ from hreturned,
              List.pairwise_cons] at hpairwise
            rw [hreturned] at hmem
            obtain rfl | hmem := List.mem_cons.1 hmem
            · exact .single hstep
            · exact .head hstep (Ancestor.mono hsub (hpairwise.1 earlier hmem hret)) }

end Proposing

/-- **Along every run the returned blocks stay a chain.** -/
theorem ProposerRun.chained {s t : Proposing} (hfresh : s.Fresh)
    (hrun : ProposerRun Blocklace.KeepsReferences s t) : t.Chained := by
  induction hrun with
  | refl => exact hfresh.chained
  | insert _ hk own hins ih => exact ih.insert (Blocklace.insert_ok hins) hk own
  | queue authorizations _ ih =>
      obtain ⟨hcomplete, hcp, hchain, hcreator, hstored, hlatest, habove⟩ := ih
      exact ⟨hcomplete, hcp, hchain, hcreator, hstored, hlatest, habove⟩
  | call env pool now _ received bonded _ ih =>
      exact ih.call received (AList.lookup_isSome.1 (by simp [bonded]))

/-- **Every signed block is above the blocks returned before it**, whatever the
outcomes of the calls and whatever the others store, as long as no insert changes
the references stored under an identity. -/
theorem signed_above_returned {s t : Proposing} (hfresh : s.Fresh)
    (hrun : ProposerRun Blocklace.KeepsReferences s t) :
    t.signed.Pairwise fun later earlier => earlier.returned = true →
      Ancestor t.known earlier.block later.block :=
  (hrun.chained hfresh).above.imp fun hanc hret => Ancestor.mono (fun _ h => Or.inr h) (hanc hret)

/-! ### Runs that are evaluated -/

namespace Proposing

/-- Any two signed blocks are comparable. -/
def SignsChain (s : Proposing) : Prop :=
  ∀ a ∈ s.signed, ∀ b ∈ s.signed, a.block ≠ b.block →
    Ancestor s.known a.block b.block ∨ Ancestor s.known b.block a.block

/-- After a block has arrived. -/
def receive (s : Proposing) (block : Block) : Proposing :=
  { s with blocklace := s.blocklace.growBy [block] }

/-- The known blocks as a list. -/
def knownBlocks (s : Proposing) : List Block :=
  s.blocklace.blocks.entries.map (fun entry => ⟨entry.1, entry.2⟩) ++ s.signed.map SignedBlock.block

theorem mem_known_iff {s : Proposing} {b : Block} : b ∈ s.known ↔ b ∈ s.knownBlocks := by
  unfold known knownBlocks
  rw [List.mem_append, List.mem_map, List.mem_map]
  refine or_congr ⟨fun h => ⟨⟨b.identity, b.content⟩, Blocklace.mem_entries_iff.2 h, rfl⟩, ?_⟩ Iff.rfl
  rintro ⟨entry, hentry, rfl⟩
  exact Blocklace.mem_entries_iff.1 hentry

/-- The blocks are not comparable where each leads only to blocks of a list that the
other is not in. -/
theorem not_signsChain {s : Proposing} {a b : SignedBlock} (belowA belowB : List Block)
    (ha : a ∈ s.signed) (hb : b ∈ s.signed) (hne : a.block ≠ b.block)
    (haB : a.block ∉ belowB) (hbA : b.block ∉ belowA)
    (hA : ∀ x ∈ a.block :: belowA, ∀ c ∈ s.knownBlocks,
      (∃ p ∈ x.refs, p.Names c.identity) → c ∈ belowA)
    (hB : ∀ x ∈ b.block :: belowB, ∀ c ∈ s.knownBlocks,
      (∃ p ∈ x.refs, p.Names c.identity) → c ∈ belowB) : ¬ s.SignsChain := by
  intro hchain
  obtain h | h := hchain a ha b hb hne
  · exact not_ancestor_of_below haB (fun x hx c hc => hB x hx c (mem_known_iff.1 hc)) h
  · exact not_ancestor_of_below hbA (fun x hx c hc => hA x hx c (mem_known_iff.1 hc)) h

end Proposing

namespace ProposerRun

variable {allowed : Blocklace → Block → Prop} {s t : Proposing}

theorem receive (run : ProposerRun allowed s t) (block : Block) (ok : allowed t.blocklace block)
    (own : block.identity.creator = t.proposer.creator → ⟨block, true⟩ ∈ t.signed)
    (h : (t.blocklace.insert block Blocklace.alreadyValidated).isOk = true) :
    ProposerRun allowed s (t.receive block) := by
  cases hins : t.blocklace.insert block Blocklace.alreadyValidated with
  | error e => simp [hins, Except.isOk, Except.toBool] at h
  | ok B =>
      have hgrow : t.blocklace.growBy [block] = B := by
        simp [Blocklace.growBy, Blocklace.insertAll, hins, bind, Except.bind, pure, Except.pure]
      unfold Proposing.receive
      rw [hgrow]
      exact .insert run ok own hins

theorem callReceived (run : ProposerRun allowed s t) (env : ProposalEnv) (stake : U64)
    (received : ∀ entry ∈ t.signed, entry.returned = true →
      t.blocklace.blocks.lookup entry.block.identity = some entry.block.content)
    (bonded : t.proposer.bonds.table.lookup t.proposer.creator = some stake) (positive : 0 < stake) :
    ProposerRun allowed s (t.call env (.new {}) 0) :=
  .call env (.new {}) 0 run (fun block hblock => received ⟨block, true⟩ hblock rfl) bonded positive

end ProposerRun

/-! ### A small host -/

/-- The bytes of a payload with a state only. -/
def statePayloadBytes (state : BlockState) : List Byte :=
  stateBytes state ++ Codec.leBytes 8 0 ++ Codec.leBytes 8 0 ++ Codec.leBytes 8 0

/-- `bincode` on payloads with the listed states. -/
def stateBincode (states : List BlockState) : Bincode where
  legacy :=
    { serialize := fun payload => statePayloadBytes payload.1
      deserialize := fun bytes =>
        match states.find? fun state => statePayloadBytes state = bytes with
        | some state => .ok (state, [], [], [])
        | none => .error "io error: unexpected end of file" }
  payload :=
    { serialize := fun payload => Codec.leBytes 8 0 ++ statePayloadBytes payload.state
      deserialize := fun _ => .error "io error: unexpected end of file" }
  authorizations :=
    { serialize := fun _ => Codec.leBytes 8 0
      deserialize := fun _ => .error "io error: unexpected end of file" }

/-- A host that has no evidence, leaves the given state and bonds after a block, and
broadcasts as told. -/
def smallHost (states : List BlockState) (postStateHash : List Byte) (creators : List Byte)
    (broadcast : Except String Unit) (hlt : creators.length < 2 ^ 58) : ProposalEnv where
  pendingEvidence := []
  equivocatingValidatorsInRound _ := none
  toSlashSystemDeploys _ := .ok []
  toTieredSlashDeploys _ _ := .ok []
  decodeSystemDeploy _ := .error "failed to decode Protobuf message"
  execute _ := .ok ⟨postStateHash, [], [], [], creators.map fun c => ⟨⟨[c]⟩, 1⟩, by simpa using hlt⟩
  executePrepared _ := .error .unknownPreState
  signBlock := secp256k1SignBlock (blockHashExt sumHasher) fun _ => .ok [9]
  broadcast _ := broadcast
  bincode := stateBincode states
  debugIdentity _ := "BlockIdentity"
  signBlock_creator := secp256k1SignBlock_creator

/-- A proposer for creator `1`. -/
def smallProposer (bonds : Bonds) : CordialProposer where
  tipSelector := .strict
  slashPolicy := none
  creator := ⟨[1]⟩
  bonds := bonds
  deployPoolConfig := {}
  includeCloseBlock := false
  porAuthorizations := []

/-- The state after a genesis block of creator `1`. -/
def genesisState (postStateHash : List Byte) : BlockState := ⟨[], postStateHash, [⟨⟨[1]⟩, 1⟩], 0⟩

/-- A genesis block of creator `1`. -/
def genesisBlock (postStateHash : List Byte) : Block :=
  let content : BlockContent := ⟨statePayloadBytes (genesisState postStateHash), []⟩
  ⟨⟨blockHashExt sumHasher ⟨[1]⟩ content, ⟨[1]⟩, [9]⟩, content⟩

/-- The proposer of creator `1` on an empty blocklace. -/
def beforeGenesis : Proposing := ⟨Blocklace.new 0, smallProposer Blocklace.oneBond, []⟩

theorem fresh_beforeGenesis : beforeGenesis.Fresh :=
  ⟨by decide +kernel, rfl, fun x hx => absurd hx (AList.notMem_empty x), rfl⟩

/-- A host of creator `1` alone. -/
def genesisHost (postStateHash : List Byte) (broadcast : Except String Unit) : ProposalEnv :=
  smallHost [genesisState [1]] postStateHash [1] broadcast (by decide)

/-- The genesis block is returned and arrives, and the next block is signed but not
broadcast. -/
def secondUnsent : Proposing :=
  ((beforeGenesis.call (genesisHost [1] (.ok ())) (.new {}) 0).receive (genesisBlock [1])).call
    (genesisHost [2] (.error "timeout")) (.new {}) 0

/-- The hypotheses of `signed_above_returned` are met by a block that could not be
broadcast. -/
theorem signed_above_returned_secondUnsent :
    secondUnsent.signed.map SignedBlock.returned = [false, true] ∧
      secondUnsent.signed.Pairwise fun later earlier => earlier.returned = true →
        Ancestor secondUnsent.known earlier.block later.block := by
  have hstart : ProposerRun Blocklace.KeepsReferences beforeGenesis beforeGenesis := .refl _
  have hfirst := hstart.callReceived (genesisHost [1] (.ok ())) 1 (by decide +kernel)
    (by decide +kernel) (by decide)
  have hreceived := hfirst.receive (genesisBlock [1])
    (fun c hc => absurd (Blocklace.mem_of_lookup hc) (by decide +kernel))
    (fun _ => by decide +kernel) (by decide +kernel)
  exact ⟨by decide +kernel, signed_above_returned fresh_beforeGenesis
    (hreceived.callReceived _ 1 (by decide +kernel) (by decide +kernel) (by decide))⟩

/-! ### Signed blocks that are not comparable -/

/-- A genesis block is signed and not broadcast, and then another one. -/
def genesisRetried : Proposing :=
  (beforeGenesis.call (genesisHost [1] (.error "timeout")) (.new {}) 0).call
    (genesisHost [2] (.ok ())) (.new {}) 0

/-- The state after the genesis blocks of creators `2` and `3`. -/
def otherState : BlockState := ⟨[], [3], [⟨⟨[1]⟩, 1⟩, ⟨⟨[2]⟩, 1⟩, ⟨⟨[3]⟩, 1⟩], 0⟩

/-- A genesis block of another creator. -/
def otherGenesis (creator : Byte) : Block :=
  ⟨Blocklace.signedId 1 creator, ⟨statePayloadBytes otherState, []⟩⟩

/-- The proposer of creator `1` above the genesis blocks of creators `2` and `3`. -/
def beforeCycle : Proposing :=
  ⟨(Blocklace.new 0).growBy [otherGenesis 2, otherGenesis 3], smallProposer Blocklace.threeBonds, []⟩

theorem fresh_beforeCycle : beforeCycle.Fresh := by
  refine ⟨by decide +kernel, by decide +kernel, fun x hx => ?_, rfl⟩
  have hall : ∀ k ∈ beforeCycle.blocklace.blocks.keys, k.creator ≠ beforeCycle.proposer.creator := by
    decide +kernel
  exact hall x (AList.mem_keys.1 hx)

/-- A host for three validators, the bonds after a block being those of `creators`. -/
def cycleHost (postStateHash : List Byte) (creators : List Byte) (hlt : creators.length < 2 ^ 58) :
    ProposalEnv :=
  smallHost [otherState, ⟨[3], [4], [⟨⟨[1]⟩, 1⟩, ⟨⟨[2]⟩, 1⟩, ⟨⟨[3]⟩, 1⟩], 1⟩] postStateHash creators
    (.ok ()) hlt

/-- The last signed block. -/
def Proposing.lastSigned (s : Proposing) : Block :=
  (s.signed.head?.map SignedBlock.block).getD (genesisBlock [])

/-- A first block is returned. -/
def cycleFirst : Proposing := beforeCycle.call (cycleHost [4] [1, 2, 3] (by decide)) (.new {}) 0

/-- It arrives and a second one is returned, after which creator `3` has no stake. -/
def cycleSecond : Proposing :=
  (cycleFirst.receive cycleFirst.lastSigned).call (cycleHost [5] [1, 2] (by decide)) (.new {}) 0

/-- Creator `3` gives its genesis block a reference to the second block. -/
def replacedGenesis : Block :=
  { otherGenesis 3 with content := ⟨statePayloadBytes otherState,
    [cycleSecond.lastSigned.identity.consensusIdentity]⟩ }

/-- Now the blocks of creator `1` are above each other, none is a tip, and a third
block does not refer to them. -/
def cycleThird : Proposing :=
  ((cycleSecond.receive cycleSecond.lastSigned).receive replacedGenesis).call
    (cycleHost [6] [1, 2] (by decide)) (.new {}) 0

/-- **Signed blocks need not be comparable**, where a broadcast has failed, though
every insert kept references; and where an insert has replaced the references of
another creator's block, though every call returned its block. -/
theorem signed_blocks_incomparable :
    (∃ s t : Proposing, s.Fresh ∧ ProposerRun Blocklace.KeepsReferences s t ∧ ¬ t.SignsChain) ∧
      ∃ s t : Proposing, s.Fresh ∧ ProposerRun Blocklace.AnyBlock s t ∧
        (∀ entry ∈ t.signed, entry.returned = true) ∧ ¬ t.SignsChain := by
  constructor
  · have hstart : ProposerRun Blocklace.KeepsReferences beforeGenesis beforeGenesis := .refl _
    have hfirst := hstart.callReceived (genesisHost [1] (.error "timeout")) 1 (by decide +kernel)
      (by decide +kernel) (by decide)
    have hsecond := hfirst.callReceived (genesisHost [2] (.ok ())) 1 (by decide +kernel)
      (by decide +kernel) (by decide)
    refine ⟨beforeGenesis, genesisRetried, fresh_beforeGenesis, hsecond, ?_⟩
    exact Proposing.not_signsChain (a := ⟨genesisBlock [1], false⟩) (b := ⟨genesisBlock [2], true⟩)
      [] [] (by decide +kernel) (by decide +kernel) (by decide +kernel) List.not_mem_nil List.not_mem_nil
      (by decide +kernel) (by decide +kernel)
  · have hstart : ProposerRun Blocklace.AnyBlock beforeCycle beforeCycle := .refl _
    have hfirst := hstart.callReceived (cycleHost [4] [1, 2, 3] (by decide)) 1 (by decide +kernel)
      (by decide +kernel) (by decide)
    have harrived := hfirst.receive cycleFirst.lastSigned trivial (fun _ => by decide +kernel)
      (by decide +kernel)
    have hsecond := harrived.callReceived (cycleHost [5] [1, 2] (by decide)) 1 (by decide +kernel)
      (by decide +kernel) (by decide)
    have harrived := hsecond.receive cycleSecond.lastSigned trivial (fun _ => by decide +kernel)
      (by decide +kernel)
    have hreplaced := harrived.receive replacedGenesis trivial (by decide +kernel) (by decide +kernel)
    have hthird := hreplaced.callReceived (cycleHost [6] [1, 2] (by decide)) 1 (by decide +kernel)
      (by decide +kernel) (by decide)
    refine ⟨beforeCycle, cycleThird, fresh_beforeCycle, hthird, by decide +kernel, ?_⟩
    exact Proposing.not_signsChain (a := ⟨cycleFirst.lastSigned, true⟩)
      (b := ⟨cycleThird.lastSigned, true⟩)
      [otherGenesis 2, replacedGenesis, cycleSecond.lastSigned, cycleFirst.lastSigned]
      [otherGenesis 2] (by decide +kernel) (by decide +kernel) (by decide +kernel)
      (by decide +kernel) (by decide +kernel) (by decide +kernel) (by decide +kernel)

end CordialMiners
