/-
# Growing a blocklace

What a run of successful `Blocklace::insert` calls keeps.

`insert` stores a block whose references all resolve; it checks the signature
but not the content hash, and an identity that is stored already gets the new
content.  As long as no call changes the references stored under an identity
(`KeepsReferences`), everything that is read off the closure of a block with a
round is fixed for ever: its round, what it sees, what it approves and ratifies
(`Extends`).  Finality counts ratifiers, so it can only grow.
-/

import CordialMiners.Core.Finality

namespace CordialMiners

open FinGraph Relation

namespace Blocklace

/-! ### What an insert does -/

/-- `B'` is `B` with `block` stored. -/
structure Inserted (B : Blocklace) (block : Block) (B' : Blocklace) : Prop where
  noVariant : B.conflictingIdentityVariant block.identity = none
  closed : B.missingPredecessors block.content = []
  blocks : B'.blocks = B.blocks.insert block.identity block.content
  boundaries : B'.trustedBoundaryPredecessors =
    clearResolvedBoundaries (B.blocks.insert block.identity block.content)
      (B.trustedBoundaryPredecessors.filter fun row => row.1 ≠ block.identity)
  checkpoint : B'.checkpoint = B.checkpoint
  checkpointDepth : B'.checkpointDepth = B.checkpointDepth
  orderPrefix : B'.checkpointOrderPrefix = B.checkpointOrderPrefix
  weightedOrderPrefix : B'.checkpointWeightedOrderPrefix = B.checkpointWeightedOrderPrefix
  generation : B'.generation = B.generation + 1
  cacheIdentity : B'.cacheIdentity = B.cacheIdentity

variable {B B' B'' : Blocklace} {block : Block} {verifier : CryptoVerifier}

theorem commitValidated_ok {id : BlockIdentity} {content : BlockContent}
    (h : B.commitValidated id content = .ok B') :
    B.conflictingIdentityVariant id = none ∧
      ∃ hv, B' = { B with
        blocks := B.blocks.insert id content
        trustedBoundaryPredecessors :=
          clearResolvedBoundaries (B.blocks.insert id content)
            (B.trustedBoundaryPredecessors.filter fun row => row.1 ≠ id)
        generation := B.generation + 1
        variantNodup := hv } := by
  unfold commitValidated at h
  split at h
  · exact absurd h (by simp)
  · next hnone =>
    obtain rfl := Except.ok.inj h
    exact ⟨hnone, _, rfl⟩

/-- **What a successful insert has done.** -/
theorem insert_ok (h : B.insert block verifier = .ok B') : B.Inserted block B' := by
  unfold insert at h
  split at h
  · exact absurd h (by simp)
  · split at h
    · exact absurd h (by simp)
    · next hmissing =>
      split at h
      · exact absurd h (by simp)
      · next B₁ hcommit =>
        obtain rfl := Except.ok.inj h
        obtain ⟨hnone, hv, rfl⟩ := commitValidated_ok hcommit
        exact ⟨hnone, hmissing, rfl, rfl, rfl, rfl, rfl, rfl, rfl, rfl⟩

/-- **What a successful insert with a trusted boundary has done:** the commit, and a row
for the references that are missing. -/
theorem insertWithTrustedBoundary_ok {missing : List BlockIdentity}
    (h : B.insertWithTrustedBoundary block verifier = .ok (missing, B')) :
    missing = B.missingPredecessors block.content ∧
      ∃ B₁, B.commitValidated block.identity block.content = .ok B₁ ∧
        B' = { B₁ with
          trustedBoundaryPredecessors :=
            if missing = [] then B₁.trustedBoundaryPredecessors
            else (block.identity, missing) ::
              B₁.trustedBoundaryPredecessors.filter fun row => row.1 ≠ block.identity } := by
  unfold insertWithTrustedBoundary at h
  split at h
  · exact absurd h (by simp)
  · simp only at h
    split at h
    · exact absurd h (by simp)
    · next B₁ hcommit =>
      split_ifs at h with hnil
      · obtain ⟨rfl, rfl⟩ := Prod.mk.inj (Except.ok.inj h)
        exact ⟨rfl, B₁, hcommit, by rw [if_pos hnil]⟩
      · obtain ⟨rfl, rfl⟩ := Prod.mk.inj (Except.ok.inj h)
        exact ⟨rfl, B₁, hcommit, by rw [if_neg hnil]⟩

/-- A run of successful inserts, each of a block that `allowed` admits in the
blocklace it is inserted into. -/
inductive InsertRun (allowed : Blocklace → Block → Prop) : Blocklace → Blocklace → Prop
  | refl (B : Blocklace) : InsertRun allowed B B
  | insert {B B₁ B₂ : Blocklace} {block : Block} {verifier : CryptoVerifier}
      (run : InsertRun allowed B B₁) (ok : allowed B₁ block)
      (h : B₁.insert block verifier = .ok B₂) : InsertRun allowed B B₂

/-- Any block. -/
def AnyBlock (_ : Blocklace) (_ : Block) : Prop := True

/-- The block is new, or brings the references that are stored under its identity. -/
def KeepsReferences (B : Blocklace) (block : Block) : Prop :=
  ∀ c, B.blocks.lookup block.identity = some c →
    ∀ p, p ∈ c.predecessors ↔ p ∈ block.content.predecessors

theorem InsertRun.checkpoint {allowed : Blocklace → Block → Prop} (h : InsertRun allowed B B') :
    B'.checkpoint = B.checkpoint := by
  induction h with
  | refl => rfl
  | insert _ _ hins ih => rw [(insert_ok hins).checkpoint, ih]

theorem InsertRun.checkpointDepth {allowed : Blocklace → Block → Prop}
    (h : InsertRun allowed B B') : B'.checkpointDepth = B.checkpointDepth := by
  induction h with
  | refl => rfl
  | insert _ _ hins ih => rw [(insert_ok hins).checkpointDepth, ih]

/-! ### Extensions -/

/-- Every block of `B` is stored in `B'` with the same references. -/
def Extends (B B' : Blocklace) : Prop :=
  ∀ a c, B.blocks.lookup a = some c →
    ∃ c', B'.blocks.lookup a = some c' ∧ ∀ p, p ∈ c.predecessors ↔ p ∈ c'.predecessors

theorem Extends.refl (B : Blocklace) : B.Extends B := fun _ c hc => ⟨c, hc, fun _ => Iff.rfl⟩

theorem Extends.trans (h : B.Extends B') (h' : B'.Extends B'') : B.Extends B'' := by
  intro a c hc
  obtain ⟨c', hc', hp⟩ := h a c hc
  obtain ⟨c'', hc'', hp'⟩ := h' a c' hc'
  exact ⟨c'', hc'', fun p => (hp p).trans (hp' p)⟩

theorem Inserted.extends (h : B.Inserted block B') (hk : B.KeepsReferences block) :
    B.Extends B' := by
  intro a c hc
  rw [h.blocks]
  by_cases ha : a = block.identity
  · subst ha
    exact ⟨block.content, AList.lookup_insert _, hk c hc⟩
  · exact ⟨c, by rwa [AList.lookup_insert_ne ha], fun _ => Iff.rfl⟩

/-- **A run of inserts that keep references extends the blocklace.** -/
theorem InsertRun.extends (h : InsertRun KeepsReferences B B') : B.Extends B' := by
  induction h with
  | refl => exact .refl _
  | insert _ hk hins ih => exact ih.trans ((insert_ok hins).extends hk)

namespace Extends

variable {a b x r t id : BlockIdentity} {d : ℕ}

theorem mem (h : B.Extends B') (ha : a ∈ B.blocks) : a ∈ B'.blocks := by
  obtain ⟨c, hc⟩ := exists_lookup ha
  obtain ⟨c', hc', -⟩ := h a c hc
  exact mem_of_lookup hc'

/-- References keep naming the blocks they name. -/
theorem resolveIdentity (h : B.Extends B') (hr : B.resolveIdentity id = some r) :
    B'.resolveIdentity id = some r := by
  rw [resolveIdentity_eq_some_iff] at hr ⊢
  exact ⟨h.mem hr.1, hr.2⟩

theorem complete (h : B.Extends B') (hb : b ∈ B.blocks) (hc : B.Complete b) : B'.Complete b := by
  obtain ⟨c, hl⟩ := exists_lookup hb
  obtain ⟨c', hl', hp⟩ := h b c hl
  intro c'' hl'' p hpm
  rw [hl'] at hl''
  obtain rfl := Option.some.inj hl''
  obtain ⟨r, hr⟩ := hc c hl p ((hp p).2 hpm)
  exact ⟨r, h.resolveIdentity hr⟩

/-- A block whose references all resolve keeps pointing at the same blocks. -/
theorem mem_expand_iff (h : B.Extends B') (hcp : B'.checkpoint = B.checkpoint)
    (hb : b ∈ B.blocks) (hc : B.Complete b) : x ∈ B'.expand b ↔ x ∈ B.expand b := by
  by_cases hbc : B.checkpoint = some b
  · rw [expand_checkpoint hbc, expand_checkpoint (hcp.trans hbc)]
  · obtain ⟨c, hl⟩ := exists_lookup hb
    obtain ⟨c', hl', hp⟩ := h b c hl
    rw [expand_of_lookup hl hbc, expand_of_lookup hl' (by rwa [hcp]), List.mem_filterMap,
      List.mem_filterMap]
    constructor
    · rintro ⟨p, hpm, hpx⟩
      obtain ⟨r, hr⟩ := hc c hl p ((hp p).2 hpm)
      obtain rfl : r = x := Option.some.inj ((h.resolveIdentity hr).symm.trans hpx)
      exact ⟨p, (hp p).2 hpm, hr⟩
    · rintro ⟨p, hpm, hpx⟩
      exact ⟨p, (hp p).1 hpm, h.resolveIdentity hpx⟩

end Extends

theorem Round.complete {b : BlockIdentity} {d : ℕ} (h : B.Round b d)
    (hcp : B.checkpoint ≠ some b) : B.Complete b := by
  cases h with
  | checkpoint _ hcp' => exact absurd hcp' hcp
  | step _ _ _ hcomp => exact hcomp

namespace Extends

section Fixed

variable {a b x y r t id : BlockIdentity} {d : ℕ} (h : B.Extends B')
  (hcp : B'.checkpoint = B.checkpoint)

include h hcp

/-- A block with a round keeps pointing at the same blocks. -/
theorem mem_expand_iff_of_round (hb : B.Round b d) : x ∈ B'.expand b ↔ x ∈ B.expand b := by
  by_cases hbc : B.checkpoint = some b
  · rw [expand_checkpoint hbc, expand_checkpoint (hcp.trans hbc)]
  · exact h.mem_expand_iff hcp hb.mem (hb.complete hbc)

/-- **What a block with a round sees is fixed.** -/
theorem sees_iff (hb : B.Round b d) : B'.Sees b x ↔ B.Sees b x := by
  constructor
  · intro hbx
    induction hbx with
    | refl => exact .refl B b
    | tail _ hstep ih =>
        obtain ⟨e, -, hr⟩ := hb.of_sees ih
        exact ReflTransGen.tail ih ((h.mem_expand_iff_of_round hcp hr).1 hstep)
  · intro hbx
    induction hbx with
    | refl => exact .refl B' b
    | tail hpath hstep ih =>
        obtain ⟨e, -, hr⟩ := hb.of_sees hpath
        exact ReflTransGen.tail ih ((h.mem_expand_iff_of_round hcp hr).2 hstep)

/-- **What a block with a round approves is fixed.** -/
theorem approves_iff (hb : B.Round b d) : B'.Approves b t ↔ B.Approves b t := by
  have hsees : ∀ {x}, B'.Sees b x ↔ B.Sees b x := h.sees_iff hcp hb
  constructor
  · rintro ⟨hbt, hall⟩
    obtain ⟨e, -, ht⟩ := hb.of_sees (hsees.1 hbt)
    refine ⟨hsees.1 hbt, fun s hs hc hne => ?_⟩
    obtain ⟨es, -, hsr⟩ := hb.of_sees hs
    rw [← h.sees_iff hcp ht, ← h.sees_iff hcp hsr]
    exact hall s (hsees.2 hs) hc hne
  · rintro ⟨hbt, hall⟩
    obtain ⟨e, -, ht⟩ := hb.of_sees hbt
    refine ⟨hsees.2 hbt, fun s hs hc hne => ?_⟩
    obtain ⟨es, -, hsr⟩ := hb.of_sees (hsees.1 hs)
    rw [h.sees_iff hcp ht, h.sees_iff hcp hsr]
    exact hall s (hsees.1 hs) hc hne

/-- **What a block with a round ratifies is fixed.** -/
theorem ratifies_iff {Q : Quorum.Rule NodeId} (hb : B.Round b d) :
    B'.Ratifies Q b t ↔ B.Ratifies Q b t := by
  have hset : B'.approvers b t = B.approvers b t := by
    ext c
    constructor
    · rintro ⟨x, hx, happ, rfl⟩
      have hbx := (h.sees_iff hcp hb).1 hx
      obtain ⟨e, -, hxr⟩ := hb.of_sees hbx
      exact ⟨x, hbx, (h.approves_iff hcp hxr).1 happ, rfl⟩
    · rintro ⟨x, hbx, happ, rfl⟩
      obtain ⟨e, -, hxr⟩ := hb.of_sees hbx
      exact ⟨x, (h.sees_iff hcp hb).2 hbx, (h.approves_iff hcp hxr).2 happ, rfl⟩
  unfold Ratifies
  rw [hset]

variable (hdepth : B.checkpoint ≠ none → B'.checkpointDepth = B.checkpointDepth)

include hdepth

/-- **A round is fixed once the block has it.** -/
theorem round (hb : B.Round b d) : B'.Round b d := by
  induction hb with
  | @checkpoint c hc hcpc =>
      rw [← hdepth (by simp [hcpc])]
      exact .checkpoint (h.mem hc) (hcp.trans hcpc)
  | @step b d rd hb hbc hcomp hpred hlt htop ih =>
      have hexp : ∀ {x}, x ∈ B'.expand b ↔ x ∈ B.expand b := h.mem_expand_iff hcp hb hcomp
      refine .step rd (h.mem hb) (by rwa [hcp]) (h.complete hb hcomp)
        (fun x hx => ih x (hexp.1 hx)) (fun x hx => hlt x (hexp.1 hx)) ?_
      rcases htop with h0 | ⟨x, hx, hd⟩
      · exact Or.inl h0
      · exact Or.inr ⟨x, hexp.2 hx, hd⟩

theorem leaderBlock {w wave : ℕ} {ls : LeaderSelection} {L : BlockIdentity}
    (hL : B.LeaderBlock w ls wave L) : B'.LeaderBlock w ls wave L :=
  ⟨h.round hcp hdepth hL.round, hL.pos, hL.lt, hL.creator⟩

/-- **Finality can only grow.**  The ratifiers of the wave keep ratifying, and
more blocks of the wave can only add to them. -/
theorem finalLeader {Q : Quorum.Rule NodeId} {w wave : ℕ} {ls : LeaderSelection}
    {L : BlockIdentity} (hL : B.FinalLeader Q w ls wave L) : B'.FinalLeader Q w ls wave L := by
  refine ⟨h.leaderBlock hcp hdepth hL.toLeaderBlock, hL.last_lt, Q.mono ?_ hL.super⟩
  rintro c ⟨x, ⟨d, hd, h₁, h₂⟩, hrat, rfl⟩
  exact ⟨x, ⟨d, h.round hcp hdepth hd, h₁, h₂⟩, (h.ratifies_iff hcp hd).2 hrat, rfl⟩

end Fixed

end Extends

/-! ### Other orders -/

/-- The same blocks with the same references, met in other orders. -/
structure Reordered (B B' : Blocklace) : Prop where
  extends_ : B.Extends B'
  extended : B'.Extends B
  checkpoint : B'.checkpoint = B.checkpoint

namespace Reordered

theorem refl (B : Blocklace) : B.Reordered B := ⟨.refl B, .refl B, rfl⟩

variable {x y : BlockIdentity} {v : NodeId} (h : B.Reordered B')

include h

theorem mem_iff : x ∈ B'.blocks ↔ x ∈ B.blocks := ⟨h.extended.mem, h.extends_.mem⟩

theorem resolveIdentity_eq : B'.resolveIdentity x = B.resolveIdentity x := by
  refine Option.ext fun r => ?_
  exact ⟨h.extended.resolveIdentity, h.extends_.resolveIdentity⟩

theorem mem_expand_iff (hx : x ∈ B.blocks) : y ∈ B'.expand x ↔ y ∈ B.expand x := by
  by_cases hcheckpoint : B.checkpoint = some x
  · rw [expand_checkpoint hcheckpoint, expand_checkpoint (h.checkpoint.trans hcheckpoint)]
  · obtain ⟨c, hc⟩ := exists_lookup hx
    obtain ⟨c', hc', hrefs⟩ := h.extends_ x c hc
    rw [expand_of_lookup hc hcheckpoint, expand_of_lookup hc' (by rwa [h.checkpoint]),
      List.mem_filterMap, List.mem_filterMap]
    simp only [hrefs, h.resolveIdentity_eq]

theorem sees_iff (hx : x ∈ B.blocks) : B'.Sees x y ↔ B.Sees x y := by
  constructor
  · intro hsees
    induction hsees with
    | refl => exact Sees.refl B x
    | tail _ hstep ih => exact ReflTransGen.tail ih ((h.mem_expand_iff (ih.mem hx)).1 hstep)
  · intro hsees
    induction hsees with
    | refl => exact Sees.refl B' x
    | tail hsees hstep ih =>
        exact ReflTransGen.tail ih ((h.mem_expand_iff (Sees.mem hsees hx)).2 hstep)

theorem below_iff (hy : y ∈ B.blocks) : B'.Below x y ↔ B.Below x y := by
  constructor
  · intro hbelow
    obtain ⟨z, hstep, hrest⟩ := TransGen.head'_iff.1 hbelow
    have hz := (h.mem_expand_iff hy).1 hstep
    exact TransGen.head' hz ((h.sees_iff (mem_of_mem_expand hz)).1 hrest)
  · intro hbelow
    obtain ⟨z, hstep, hrest⟩ := TransGen.head'_iff.1 hbelow
    exact TransGen.head' ((h.mem_expand_iff hy).2 hstep)
      ((h.sees_iff (mem_of_mem_expand hstep)).2 hrest)

theorem satisfiesChainAxiom_eq : B'.satisfiesChainAxiom v = B.satisfiesChainAxiom v := by
  rw [Bool.eq_iff_iff, satisfiesChainAxiom_iff, satisfiesChainAxiom_iff]
  simp only [h.mem_iff]
  refine forall₂_congr fun a ha => forall₂_congr fun b hb => ?_
  rw [h.below_iff ha, h.below_iff hb]

theorem mem_findEquivacators_iff : v ∈ B'.findEquivacators ↔ v ∈ B.findEquivacators := by
  unfold findEquivacators
  simp only [List.mem_filter, mem_allNodes_iff, h.mem_iff, h.satisfiesChainAxiom_eq]

end Reordered

/-! ### Blocks with rounds -/

/-- Every stored block has a round.  No chain of references goes on for ever, and the
recursion of `depthRecursive` ends of itself. -/
def Layered (B : Blocklace) : Prop := ∀ b ∈ B.blocks, ∃ d, B.Round b d

theorem layered_new (cacheIdentity : ℕ) : (new cacheIdentity).Layered :=
  fun b hb => absurd hb (AList.notMem_empty b)

/-- **A block that keeps the references stored under its identity closes no cycle.** -/
theorem Inserted.layered (h : B.Inserted block B') (hk : B.KeepsReferences block)
    (hcp : B.checkpoint = none) (hB : B.Layered) : B'.Layered := by
  have hext := h.extends hk
  have hcp' : B'.checkpoint = B.checkpoint := h.checkpoint
  have hkept : ∀ {b d}, B.Round b d → B'.Round b d := fun hb =>
    hext.round hcp' (fun hne => absurd hcp hne) hb
  intro b hb
  rw [h.blocks, AList.mem_insert] at hb
  by_cases hold : b ∈ B.blocks
  · obtain ⟨d, hd⟩ := hB b hold
    exact ⟨d, hkept hd⟩
  · obtain rfl := hb.resolve_right hold
    have hcontent : B'.blocks.lookup block.identity = some block.content := by
      rw [h.blocks]
      exact AList.lookup_insert _
    have hrefs : ∀ p ∈ block.content.predecessors, ∃ e, B'.RoundOf p e := by
      intro p hp
      have hresolves := List.filter_eq_nil_iff.1 h.closed p hp
      obtain ⟨r, hr⟩ : ∃ r, B.resolveIdentity p = some r :=
        Option.isSome_iff_exists.1 (by simpa [Option.isSome_iff_ne_none] using hresolves)
      obtain ⟨e, he⟩ := hB r (resolveIdentity_mem hr)
      exact ⟨e, r, hext.resolveIdentity hr, hkept he⟩
    obtain ⟨d, hd⟩ := exists_candidateRound hrefs
    exact ⟨d, hd.round hcontent (by simp [hcp', hcp])⟩

/-- **Inserts that keep references keep every block on a round.** -/
theorem InsertRun.layered (h : InsertRun KeepsReferences B B') (hcp : B.checkpoint = none)
    (hB : B.Layered) : B'.Layered := by
  induction h with
  | refl => exact hB
  | insert hrun hk hins ih => exact (insert_ok hins).layered hk (hrun.checkpoint.trans hcp) ih

/-! ### Small blocklaces -/

/-- `AlreadyValidatedVerifier` of the adapter: accepts every signature. -/
def alreadyValidated : CryptoVerifier := fun _ _ _ => .ok ()

/-- Insert blocks one after another. -/
def insertAll (B : Blocklace) (blocks : List Block) : Except InsertError Blocklace :=
  blocks.foldlM (fun B block => B.insert block alreadyValidated) B

/-- `B` after the blocks are inserted, `B` itself if one is refused. -/
def growBy (B : Blocklace) (blocks : List Block) : Blocklace :=
  match B.insertAll blocks with
  | .ok B' => B'
  | .error _ => B

/-- A run whose blocks are all allowed where they are inserted. -/
theorem insertRun_insertAll {allowed : Blocklace → Block → Prop} {P : List Block → Blocklace → Prop}
    (hP : ∀ block blocks B B', P (block :: blocks) B → B.Inserted block B' →
      allowed B block ∧ P blocks B')
    {blocks : List Block} (hB : P blocks B) (h : B.insertAll blocks = .ok B') :
    InsertRun allowed B B' := by
  have hgen : ∀ (blocks : List Block) (B₁ : Blocklace), InsertRun allowed B B₁ → P blocks B₁ →
      B₁.insertAll blocks = .ok B' → InsertRun allowed B B' := by
    intro blocks
    induction blocks with
    | nil =>
        intro B₁ hrun _ h
        obtain rfl := Except.ok.inj h
        exact hrun
    | cons block blocks ih =>
        intro B₁ hrun hB₁ h
        unfold insertAll at h
        rw [List.foldlM_cons] at h
        cases hins : B₁.insert block alreadyValidated with
        | error e =>
            rw [hins] at h
            exact absurd h (by simp [bind, Except.bind])
        | ok B₂ =>
            rw [hins] at h
            obtain ⟨hallowed, hB₂⟩ := hP block blocks B₁ B₂ hB₁ (insert_ok hins)
            exact ih B₂ (.insert hrun hallowed hins) hB₂ h
  exact hgen blocks B (.refl B) hB h

theorem insertAll_growBy {blocks : List Block} (h : (B.insertAll blocks).isOk = true) :
    B.insertAll blocks = .ok (B.growBy blocks) := by
  unfold growBy
  cases hins : B.insertAll blocks with
  | error e => simp [hins, Except.isOk, Except.toBool] at h
  | ok B' => rfl

theorem insert_growBy (block : Block) (h : (B.insertAll [block]).isOk = true) :
    B.insert block alreadyValidated = .ok (B.growBy [block]) := by
  unfold growBy insertAll at *
  rw [List.foldlM_cons] at *
  cases hins : B.insert block alreadyValidated with
  | error e => simp [hins, bind, Except.bind, Except.isOk, Except.toBool] at h
  | ok B' => rfl

theorem insertRun_growBy {blocks : List Block} (h : (B.insertAll blocks).isOk = true) :
    InsertRun AnyBlock B (B.growBy blocks) :=
  insertRun_insertAll (P := fun _ _ => True) (fun _ _ _ _ _ _ => ⟨trivial, trivial⟩) trivial
    (insertAll_growBy h)

/-- Distinct new blocks keep references. -/
theorem insertRun_growBy_fresh {blocks : List Block} (hnd : (blocks.map Block.identity).Nodup)
    (hnew : ∀ block ∈ blocks, block.identity ∉ B.blocks)
    (h : (B.insertAll blocks).isOk = true) : InsertRun KeepsReferences B (B.growBy blocks) := by
  refine insertRun_insertAll (P := fun blocks B => (blocks.map Block.identity).Nodup ∧
    ∀ block ∈ blocks, block.identity ∉ B.blocks) ?_ ⟨hnd, hnew⟩ (insertAll_growBy h)
  rintro block blocks B B' ⟨hnd, hnew⟩ hins
  rw [List.map_cons, List.nodup_cons] at hnd
  refine ⟨fun c hc => absurd (mem_of_lookup hc) (hnew block List.mem_cons_self), hnd.2,
    fun b hb hmem => ?_⟩
  rw [hins.blocks, AList.mem_insert] at hmem
  rcases hmem with heq | hmem
  · exact hnd.1 (heq ▸ List.mem_map_of_mem hb)
  · exact hnew b (List.mem_cons_of_mem _ hb) hmem

/-- An unsigned identity with a one-byte creator. -/
def sampleId (hash : ℕ) (creator : Byte) : BlockIdentity :=
  ⟨Fin.ofNat _ hash, ⟨[creator]⟩, []⟩

/-- A block with the given references and an empty payload. -/
def sampleBlock (identity : BlockIdentity) (predecessors : List BlockIdentity) : Block :=
  ⟨identity, ⟨[], predecessors⟩⟩

/-! ### Finality is monotone -/

/-- **Finality is monotone** along every run of inserts that keep references.  A blocklace
to start from whose references run in a circle, as a trusted boundary can leave it, is
outside the inputs on which the source returns: there `depth_recursive` does not end. -/
theorem finality_mono (hrun : InsertRun KeepsReferences B B') (L : BlockIdentity)
    (wavelength n f : ℕ) (bonds : Bonds) (leaderSelection : LeaderSelection) :
    (B.isFinalLeader L wavelength n f leaderSelection = true →
      B'.isFinalLeader L wavelength n f leaderSelection = true) ∧
    (B.isWeightedFinalLeader L wavelength bonds leaderSelection = true →
      B'.isWeightedFinalLeader L wavelength bonds leaderSelection = true) := by
  have hext := hrun.extends
  have hcp' := hrun.checkpoint
  have hdepth := fun _ : B.checkpoint ≠ none => hrun.checkpointDepth
  constructor
  · unfold isFinalLeader
    rw [Ladder.isFinal_iff (countLadder_decides n f), Ladder.isFinal_iff (countLadder_decides n f)]
    rintro ⟨wave, hL⟩
    exact ⟨wave, hext.finalLeader hcp' hdepth hL⟩
  · rw [isWeightedFinalLeader_eq, isWeightedFinalLeader_eq,
      Ladder.isFinal_iff (stakeLadder_decides bonds), Ladder.isFinal_iff (stakeLadder_decides bonds)]
    rintro ⟨wave, hL⟩
    exact ⟨wave, hext.finalLeader hcp' hdepth hL⟩

/-- Two genesis blocks of different creators. -/
def twoGenesis : Blocklace :=
  (Blocklace.new 0).growBy
    [sampleBlock (sampleId 1 1) [], sampleBlock (sampleId 2 2) []]

/-- Creator `1` leads wave `0`, nobody the later ones. -/
def firstLeader : LeaderSelection := fun wave => if wave = 0 then some ⟨[1]⟩ else none

/-- The hypotheses of `finality_mono` are met by a new block on top. -/
theorem finality_mono_new_block :
    twoGenesis.isFinalLeader (sampleId 1 1) 1 1 0 firstLeader = true ∧
      (twoGenesis.growBy [sampleBlock (sampleId 3 2) [sampleId 2 2]]).isFinalLeader
        (sampleId 1 1) 1 1 0 firstLeader = true :=
  ⟨by decide +kernel,
    (finality_mono (insertRun_growBy_fresh (by decide +kernel) (by decide +kernel)
      (by decide +kernel)) (sampleId 1 1) 1 1 0 ⟨∅, by decide⟩ firstLeader).1
      (by decide +kernel)⟩

/-- An insert that replaces the references of a final leader moves it to
another round: it is no longer a leader block. -/
theorem finality_lost_by_replaced_references :
    ∃ B B' : Blocklace, B.checkpoint = none ∧ InsertRun AnyBlock B B' ∧
      B.isFinalLeader (sampleId 1 1) 1 1 0 firstLeader = true ∧
        B'.isFinalLeader (sampleId 1 1) 1 1 0 firstLeader = false :=
  ⟨twoGenesis, twoGenesis.growBy [sampleBlock (sampleId 1 1) [sampleId 2 2]],
    by decide +kernel, insertRun_growBy (by decide +kernel), by decide +kernel, by decide +kernel⟩

end Blocklace

end CordialMiners
