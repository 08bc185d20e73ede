/-
# Evidence in two views

Two nodes hold different parts of one set of blocks.  What one of them finds in the
history of a block, the other finds too, once it holds what the block itself refers
to: below that, both are closed (`historyRound_transfer`, `inHistory_iff`).  So a
claim that one of them verifies is verified by the other, or the other lacks a
block that the claim refers to and says so (`verify_ok_or_missing`).
-/

import CordialMiners.Evidence.Verified
import CordialMiners.Core.PartOf

namespace CordialMiners

open FinGraph Relation

/-- Every reference of the block is the hash and creator of a stored block. -/
def Blocklace.Named (B : Blocklace) (c : Block) : Prop := ∀ q ∈ c.consensusRefs, ∃ a, B.get q = some a

variable {crypto : BlockCrypto} {S : Set Block} {B B' : Blocklace} {a a' c : Block}
  {q : BlockIdentity} {d e : ℕ}

namespace Blocklace

theorem named_of_available (h : Available Block.refs B.Resolves c) : B.Named c := by
  intro q hq
  obtain ⟨p, hp, rfl⟩ := List.mem_map.1 hq
  obtain ⟨r, hr⟩ := h p hp
  obtain ⟨a, rfl, hparent, hcons⟩ := exists_parent hp hr
  exact ⟨a, hcons ▸ hparent.stores.get_consensusIdentity⟩

namespace PartOf

/-- What a view stores it can follow. -/
theorem named_of_parent (h : PartOf S B) (hparent : B.Parent c a) : B.Named a :=
  named_of_available (h.complete a hparent.stores)

variable (hS : DistinctBlocks S) (h : PartOf S B) (h' : PartOf S B')

include hS h h'

/-- Two views store one block for a hash and creator. -/
theorem eq_of_get (hget : B.get q = some a) (hget' : B'.get q = some a') : a = a' := by
  refine hS a (h.mem a (stores_of_get hget)) a' (h'.mem a' (stores_of_get hget')) ?_
  exact (consensusIdentity_of_get hget).trans (consensusIdentity_of_get hget').symm

/-- Where both views hold what a block refers to, it has the same parents. -/
theorem parent_of_named (hnamed : B'.Named c) (hparent : B.Parent c a) : B'.Parent c a := by
  obtain ⟨q, hq, hget⟩ := hparent
  obtain ⟨a', hget'⟩ := hnamed q hq
  exact ⟨q, hq, h.eq_of_get hS h' hget hget' ▸ hget'⟩

/-- **A history that one view can walk the other can walk too.** -/
theorem historyRound_transfer (hc : HistoryRound crypto B c d) (hnamed : B'.Named c) :
    HistoryRound crypto B' c d := by
  induction hc with
  | @intro c d rd hashed named parents lt top ih =>
      have hiff : ∀ a, B'.Parent c a ↔ B.Parent c a := fun a =>
        ⟨h'.parent_of_named hS h named, h.parent_of_named hS h' hnamed⟩
      refine .intro rd hashed hnamed (fun a ha => ?_) (fun a ha => lt a ((hiff a).1 ha)) ?_
      · exact ih a ((hiff a).1 ha) (h'.named_of_parent ha)
      · obtain rfl | ⟨a, ha, rfl⟩ := top
        · exact Or.inl rfl
        · exact Or.inr ⟨a, (hiff a).2 ha, rfl⟩

theorem inHistory_transfer (hnamed : B'.Named c) (hq : B.InHistory c q) : B'.InHistory c q := by
  obtain ⟨a, hpath, hq⟩ := hq
  induction hpath using ReflTransGen.head_induction_on with
  | refl => exact .of_mem hq
  | head hstep _ ih =>
      have hparent := h.parent_of_named hS h' hnamed hstep
      exact .of_parent hparent (ih (h'.named_of_parent hparent))

theorem inHistory_iff (hnamed : B.Named c) (hnamed' : B'.Named c) :
    B'.InHistory c q ↔ B.InHistory c q :=
  ⟨h'.inHistory_transfer hS h hnamed, h.inHistory_transfer hS h' hnamed'⟩

/-- **A conflict in one view is one in the other**, where that holds what the blocks
refer to. -/
theorem conflict_transfer {v : NodeId} {round : ℕ} {blocks : List Block}
    (hconflict : Conflict crypto B v round blocks) (hnamed : ∀ b ∈ blocks, B'.Named b) :
    Conflict crypto B' v round blocks := by
  have hown : ∀ b ∈ blocks, B.Named b := by
    intro b hb q hq
    obtain ⟨-, d, -, hround⟩ := hconflict.history b hb
    exact hround.named hq
  refine ⟨hconflict.many, hconflict.creator, hconflict.signed, fun b hb => ?_, hconflict.distinct,
    ?_, ?_⟩
  · obtain ⟨hself, d, hd, hround⟩ := hconflict.history b hb
    rw [h.inHistory_iff hS h' (hown b hb) (hnamed b hb)]
    exact ⟨hself, d, hd, h.historyRound_transfer hS h' hround (hnamed b hb)⟩
  · obtain ⟨b, hb, hround⟩ := hconflict.earliest
    exact ⟨b, hb, h.historyRound_transfer hS h' hround (hnamed b hb)⟩
  · refine hconflict.incomparable.imp_of_mem fun {left right} hleft hright hinc => ?_
    rw [h.inHistory_iff hS h' (hown left hleft) (hnamed left hleft),
      h.inHistory_iff hS h' (hown right hright) (hnamed right hright)]
    exact hinc

/-- The depth of a block does not depend on the view. -/
theorem round_unique {b : BlockIdentity} (hb : B.Round b d) (hb' : B'.Round b e) : d = e := by
  induction hb generalizing e with
  | checkpoint _ hcp => exact absurd hcp (by simp [h.checkpoint])
  | @step b d rd hmem hcp _ hpred hlt htop ih =>
      obtain ⟨c, rfl, hc⟩ := exists_stores hmem
      obtain ⟨c', hid, hc'⟩ := exists_stores hb'.mem
      obtain rfl : c = c' := hS c (h.mem c hc) c' (h'.mem c' hc') (by rw [hid])
      have hexp : ∀ x, x ∈ B.expand c.identity ↔ x ∈ B'.expand c.identity := by
        intro x
        rw [expand_of_lookup hc hcp, expand_of_lookup hc' (by simp [h'.checkpoint]),
          List.mem_filterMap, List.mem_filterMap]
        refine exists_congr fun p => and_congr_right fun hp => ?_
        obtain ⟨r, hr⟩ := h.complete c hc p hp
        obtain ⟨r', hr'⟩ := h'.complete c hc' p hp
        obtain ⟨u, rfl, hu⟩ := exists_stores (resolveIdentity_mem hr)
        obtain ⟨u', rfl, hu'⟩ := exists_stores (resolveIdentity_mem hr')
        obtain rfl : u = u' := hS u (h.mem u hu) u' (h'.mem u' hu')
          ((resolveIdentity_consensus hr).symm.trans (resolveIdentity_consensus hr'))
        rw [hr, hr']
      cases hb' with
      | checkpoint _ hcp' => exact absurd hcp' (by simp [h'.checkpoint])
      | step rd' _ _ _ hpred' hlt' htop' =>
          have hrd : ∀ x ∈ B.expand c.identity, rd x = rd' x := fun x hx =>
            ih x hx (hpred' x ((hexp x).1 hx))
          rcases htop with rfl | ⟨x, hx, rfl⟩ <;> rcases htop' with rfl | ⟨y, hy, rfl⟩
          · rfl
          · have := hlt y ((hexp y).2 hy)
            omega
          · have := hlt' x ((hexp x).1 hx)
            omega
          · have h₁ := hlt y ((hexp y).2 hy)
            have h₂ := hlt' x ((hexp x).1 hx)
            have h₃ := hrd x hx
            have h₄ := hrd y ((hexp y).2 hy)
            omega

theorem roundOf_unique (hd : B.RoundOf q d) (he : B'.RoundOf q e) : d = e := by
  obtain ⟨r, hr, hround⟩ := hd
  obtain ⟨r', hr', hround'⟩ := he
  obtain ⟨u, rfl, hu⟩ := exists_stores hround.mem
  obtain ⟨u', rfl, hu'⟩ := exists_stores hround'.mem
  obtain rfl : u = u' := hS u (h.mem u hu) u' (h'.mem u' hu')
    ((resolveIdentity_consensus hr).symm.trans (resolveIdentity_consensus hr'))
  exact h.round_unique hS h' hround hround'

/-- Nor does the depth that a content would have. -/
theorem candidateRound_unique {content : BlockContent} (hd : B.CandidateRound content d)
    (he : B'.CandidateRound content e) : d = e := by
  rcases hd.2 with rfl | ⟨p, hp, m, hm, rfl⟩ <;> rcases he.2 with rfl | ⟨p', hp', m', hm', rfl⟩
  · rfl
  · obtain ⟨k, hk, -⟩ := hd.1 p' hp'
    omega
  · obtain ⟨k, hk, -⟩ := he.1 p hp
    omega
  · obtain ⟨k, hk, hround⟩ := hd.1 p' hp'
    obtain ⟨k', hk', hround'⟩ := he.1 p hp
    have h₁ := h.roundOf_unique hS h' hround hm'
    have h₂ := h.roundOf_unique hS h' hm hround'
    omega

end PartOf

end Blocklace

/-! ### Verification -/

/-- A reference to nothing stops the push. -/
theorem pushPredecessors_eq_none {predecessors : List BlockIdentity} {stack : List (Block × Bool)}
    (hp : ∃ p ∈ predecessors, B.get p.consensusIdentity = none) :
    pushPredecessors B predecessors stack = none := by
  induction predecessors generalizing stack with
  | nil => simp at hp
  | cons first predecessors ih =>
      unfold pushPredecessors at ih ⊢
      rw [List.foldlM_cons]
      cases hfirst : B.get first.consensusIdentity with
      | none => rfl
      | some ancestor =>
          obtain ⟨p, hp, hnone⟩ := hp
          rcases List.mem_cons.1 hp with rfl | hp
          · rw [hfirst] at hnone
            exact absurd hnone (by simp)
          · exact ih ⟨p, hp, hnone⟩

/-- **A block that refers to nothing known has no history.** -/
theorem completeHistory_eq_missing (hhash : c.Hashed crypto) (hnamed : ¬ B.Named c) :
    completeHistory crypto c B = .error .missingHistory := by
  have hpush : ∀ stack, pushPredecessors B c.content.predecessors stack = none := by
    intro stack
    unfold Blocklace.Named at hnamed
    push Not at hnamed
    obtain ⟨q, hq, hnone⟩ := hnamed
    obtain ⟨p, hp, rfl⟩ := List.mem_map.1 hq
    exact pushPredecessors_eq_none ⟨p, hp, Option.eq_none_iff_forall_ne_some.2 hnone⟩
  obtain ⟨fuel, hfuel⟩ : ∃ fuel, historyFuel B c = fuel + 1 := ⟨_, rfl⟩
  have hstep : HistoryState.step crypto B ⟨[(c, false)], ∅, ∅, ∅⟩ = .error .missingHistory := by
    unfold HistoryState.step
    dsimp only
    rw [if_neg (AList.notMem_empty _), if_neg (not_not.2 hhash.symm), if_neg (by simp),
      if_neg (Finset.notMem_empty _), hpush]
  unfold completeHistory
  rw [hfuel, HistoryState.run]
  simp only [hstep, Except.bind]

/-- Where every block has a history or misses one, the loop finds all or misses one. -/
theorem checkBlocks_ok_or_missing {v : NodeId} {blocks : List Block}
    {identities : Finset BlockIdentity}
    (hall : ∀ b ∈ blocks, b.identity.creator = v ∧ b.Hashed crypto ∧ b.Signed crypto ∧
      b.identity.consensusIdentity ∉ identities)
    (hnodup : (blocks.map fun b => b.identity.consensusIdentity).Nodup)
    (hhistory : ∀ b ∈ blocks, (∃ history, completeHistory crypto b B = .ok history) ∨
      completeHistory crypto b B = .error .missingHistory) :
    (∃ histories, checkBlocks crypto v B blocks identities = .ok histories) ∨
      checkBlocks crypto v B blocks identities = .error .missingHistory := by
  induction blocks generalizing identities with
  | nil => exact Or.inl ⟨[], rfl⟩
  | cons b blocks ih =>
      obtain ⟨⟨hcreator, hhash, hsigned, hfresh⟩, hrest⟩ := List.forall_mem_cons.1 hall
      obtain ⟨hnew, hnodup⟩ := List.nodup_cons.1 hnodup
      obtain ⟨hfirst, hhistory⟩ := List.forall_mem_cons.1 hhistory
      subst hcreator
      unfold checkBlocks
      rw [if_neg (not_not.2 (Eq.refl _)), if_neg (not_not.2 hhash.symm),
        if_neg (by simpa [Block.Signed] using hsigned), if_neg hfresh]
      obtain ⟨history, hfirst⟩ | hfirst := hfirst
      · have hlater : ∀ b' ∈ blocks, b'.identity.creator = b.identity.creator ∧ b'.Hashed crypto ∧
            b'.Signed crypto ∧ b'.identity.consensusIdentity ∉
              insert b.identity.consensusIdentity identities := by
          intro b' hb'
          obtain ⟨h₁, h₂, h₃, h₄⟩ := hrest b' hb'
          refine ⟨h₁, h₂, h₃, fun hmem => ?_⟩
          obtain heq | hmem := Finset.mem_insert.1 hmem
          · exact hnew (List.mem_map.2 ⟨b', hb', heq⟩)
          · exact h₄ hmem
        rw [hfirst]
        obtain ⟨histories, h⟩ | h := ih hlater hnodup hhistory
        · exact Or.inl ⟨history :: histories, by simp [Except.bind, h, Except.map]⟩
        · exact Or.inr (by simp [Except.bind, h, Except.map])
      · rw [hfirst]
        exact Or.inr rfl

/-- **What one view verifies, the other verifies or cannot tell.** -/
theorem verify_ok_or_missing (hS : DistinctBlocks S) (h : B.PartOf S) (h' : B'.PartOf S)
    {claim : CordialEquivocationEvidence} {verified : VerifiedEquivocationEvidence}
    (hok : verifyEquivocationEvidence crypto claim B = .ok verified) :
    verifyEquivocationEvidence crypto claim B' = .ok verified ∨
      verifyEquivocationEvidence crypto claim B' = .error .missingHistory := by
  obtain ⟨hconflict, rfl⟩ := verify_eq_ok.1 hok
  by_cases hnamed : ∀ b ∈ claim.blocks, B'.Named b
  · exact Or.inl (verify_eq_ok.2 ⟨h.conflict_transfer hS h' hconflict hnamed, rfl⟩)
  refine Or.inr ?_
  have hhash : ∀ b ∈ claim.blocks, b.Hashed crypto := by
    intro b hb
    obtain ⟨-, d, -, hround⟩ := hconflict.history b hb
    exact hround.hashed
  have hhistory : ∀ b ∈ claim.blocks, (∃ history, completeHistory crypto b B' = .ok history) ∨
      completeHistory crypto b B' = .error .missingHistory := by
    intro b hb
    by_cases hb' : B'.Named b
    · obtain ⟨hself, d, -, hround⟩ := hconflict.history b hb
      have hown : B.Named b := fun q hq => hround.named hq
      obtain ⟨ancestors, heq, -⟩ := (h.historyRound_transfer hS h' hround hb').exists_completeHistory
        (by rwa [h.inHistory_iff hS h' hown hb'])
      exact Or.inl ⟨_, heq⟩
    · exact Or.inr (completeHistory_eq_missing (hhash b hb) hb')
  have hmany : ¬ claim.blocks.length < 2 := by
    have := hconflict.many
    omega
  have hblocks : ∀ b ∈ claim.blocks, b.identity.creator = claim.validator ∧ b.Hashed crypto ∧
      b.Signed crypto ∧ b.identity.consensusIdentity ∉ (∅ : Finset BlockIdentity) := fun b hb =>
    ⟨hconflict.creator b hb, hhash b hb, hconflict.signed b hb, Finset.notMem_empty _⟩
  obtain ⟨histories, hcheck⟩ | hcheck :=
    checkBlocks_ok_or_missing hblocks hconflict.distinct hhistory
  · -- a block without a named reference has no history to be found
    refine absurd (fun b hb => ?_) hnamed
    obtain ⟨-, -, hforall⟩ := checkBlocks_eq_ok.1 hcheck
    obtain ⟨-, hfound⟩ := forall₂_completeHistory_iff.1 hforall
    exact fun q hq => (completeHistory_eq_ok.1 (hfound b hb)).1.named hq
  · unfold verifyEquivocationEvidence
    rw [if_neg hmany, hcheck]
    rfl

end CordialMiners
