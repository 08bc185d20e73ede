/-
# Growth above a round

A blocklace that only gained blocks of rounds above `last` has the same blocks in the
rounds up to `last`.  Finality of a wave counts blocks of the wave, so the waves that end
by `last` keep their final leaders (`ExtendsAbove.finalForWave_eq`): none becomes final
late.  With that, a verified prefix that is extended over such growth is the full cached
output (`suffix_eq_full_above`).
-/

import CordialMiners.Core.References
import CordialMiners.Ordering.Suffix

namespace CordialMiners

namespace Blocklace

variable {B B' B'' : Blocklace} {block : Block} {last : ℕ}

/-- `B'` stores what `B` stores, and up to round `last` nothing else. -/
structure ExtendsAbove (B B' : Blocklace) (last : ℕ) : Prop where
  grows : B.Extends B'
  checkpoint : B'.checkpoint = B.checkpoint
  round : ∀ x d, d ≤ last → B'.Round x d → B.Round x d

theorem ExtendsAbove.refl (B : Blocklace) (last : ℕ) : B.ExtendsAbove B last :=
  ⟨.refl B, rfl, fun _ _ _ h => h⟩

theorem ExtendsAbove.trans (h : B.ExtendsAbove B' last) (h' : B'.ExtendsAbove B'' last) :
    B.ExtendsAbove B'' last where
  grows := h.grows.trans h'.grows
  checkpoint := h'.checkpoint.trans h.checkpoint
  round x d hd hx := h.round x d hd (h'.round x d hd hx)

/-- **Inserting a new block of a round above `last`.** -/
theorem Inserted.extendsAbove (h : B.Inserted block B') (hnew : block.identity ∉ B.blocks)
    (hcp : B.checkpoint = none) (hdeep : ∀ d ≤ last, ¬B'.Round block.identity d) :
    B.ExtendsAbove B' last := by
  have hext : B.Extends B' := h.extends fun c hc => absurd (mem_of_lookup hc) hnew
  refine ⟨hext, h.checkpoint, fun x d hd hx => ?_⟩
  induction hx with
  | checkpoint _ hcpx =>
      rw [h.checkpoint, hcp] at hcpx
      cases hcpx
  | @step x d rd hx hcpx hcomp hpred hlt htop ih =>
      -- neither the block nor what it points at is the new block
      have hne : x ≠ block.identity := by
        rintro rfl
        exact hdeep d hd (.step rd hx hcpx hcomp hpred hlt htop)
      have hmem : x ∈ B.blocks := (h.mem_iff.1 hx).resolve_left hne
      have hrounds : ∀ y ∈ B'.expand x, B.Round y (rd y) := fun y hy => by
        have hy' := hlt y hy
        exact ih y hy (by omega)
      have hcomplete : B.Complete x := by
        intro c hc p hp
        have hc' : B'.blocks.lookup x = some c := by
          rw [h.blocks, AList.lookup_insert_ne hne]
          exact hc
        obtain ⟨r, hr⟩ := hcomp c hc' p hp
        have hrx : r ∈ B'.expand x := by
          rw [expand_of_lookup hc' hcpx]
          exact List.mem_filterMap.2 ⟨p, hp, hr⟩
        exact ⟨r, resolveIdentity_eq_some_iff.2
          ⟨(hrounds r hrx).mem, (resolveIdentity_eq_some_iff.1 hr).2⟩⟩
      have hexpand : ∀ {y}, y ∈ B'.expand x ↔ y ∈ B.expand x :=
        hext.mem_expand_iff h.checkpoint hmem hcomplete
      refine .step rd hmem (by simp [hcp]) hcomplete (fun y hy => hrounds y (hexpand.2 hy))
        (fun y hy => hlt y (hexpand.2 hy)) ?_
      rcases htop with h0 | ⟨y, hy, hd⟩
      · exact Or.inl h0
      · exact Or.inr ⟨y, hexpand.1 hy, hd⟩

/-! ### Waves that are over -/

section Waves

variable {Q : Quorum.Rule NodeId} {w wave : ℕ} {ls : LeaderSelection} {L x : BlockIdentity} {d : ℕ}

theorem ExtendsAbove.round_iff (h : B.ExtendsAbove B' last) (hcp : B.checkpoint = none)
    (hd : d ≤ last) : B'.Round x d ↔ B.Round x d :=
  ⟨h.round x d hd, h.grows.round h.checkpoint fun hne => absurd hcp hne⟩

theorem ExtendsAbove.leaderBlock_iff (h : B.ExtendsAbove B' last) (hcp : B.checkpoint = none)
    (hle : wave * w + (w - 1) ≤ last) : B'.LeaderBlock w ls wave L ↔ B.LeaderBlock w ls wave L := by
  have hround : B'.Round L (wave * w) ↔ B.Round L (wave * w) := h.round_iff hcp (by omega)
  constructor
  · exact fun hL => ⟨hround.1 hL.round, hL.pos, hL.lt, hL.creator⟩
  · exact fun hL => ⟨hround.2 hL.round, hL.pos, hL.lt, hL.creator⟩

theorem ExtendsAbove.window_eq (h : B.ExtendsAbove B' last) (hcp : B.checkpoint = none)
    (hle : wave * w + (w - 1) ≤ last) : B'.window w wave = B.window w wave := by
  ext x
  constructor
  · rintro ⟨d, hx, hfirst, hlast⟩
    exact ⟨d, (h.round_iff hcp (by omega)).1 hx, hfirst, hlast⟩
  · rintro ⟨d, hx, hfirst, hlast⟩
    exact ⟨d, (h.round_iff hcp (by omega)).2 hx, hfirst, hlast⟩

theorem ExtendsAbove.superRatifies_iff (h : B.ExtendsAbove B' last) (hcp : B.checkpoint = none)
    (hle : wave * w + (w - 1) ≤ last) :
    B'.SuperRatifies Q (B'.window w wave) L ↔ B.SuperRatifies Q (B.window w wave) L := by
  have hset : B'.ratifiers Q (B.window w wave) L = B.ratifiers Q (B.window w wave) L := by
    ext c
    constructor
    · rintro ⟨x, hx, hrat, rfl⟩
      have hround : ∃ d, B.Round x d := hx.imp fun d hd => hd.1
      obtain ⟨d, hd⟩ := hround
      exact ⟨x, hx, (h.grows.ratifies_iff h.checkpoint hd).1 hrat, rfl⟩
    · rintro ⟨x, hx, hrat, rfl⟩
      have hround : ∃ d, B.Round x d := hx.imp fun d hd => hd.1
      obtain ⟨d, hd⟩ := hround
      exact ⟨x, hx, (h.grows.ratifies_iff h.checkpoint hd).2 hrat, rfl⟩
  unfold SuperRatifies
  rw [h.window_eq hcp hle, hset]

/-- **A wave that ends by `last` keeps its final leader**, or its lack of one. -/
theorem ExtendsAbove.finalForWave_eq {ladder : Ladder} (h : B.ExtendsAbove B' last)
    (hcp : B.checkpoint = none) (hQ : ladder.Decides Q) (hle : wave * w + (w - 1) ≤ last) :
    ladder.finalForWave B' wave w ls = ladder.finalForWave B wave w ls := by
  have hleader : ∀ {L}, B'.LeaderBlock w ls wave L ↔ B.LeaderBlock w ls wave L :=
    h.leaderBlock_iff hcp hle
  refine Option.ext fun L => ?_
  rw [Ladder.finalForWave_iff hQ, Ladder.finalForWave_iff hQ]
  constructor
  · rintro ⟨hunique, hfinal⟩
    exact ⟨⟨hleader.1 hunique.toLeaderBlock, fun L' hL' => hunique.unique L' (hleader.2 hL')⟩,
      ⟨hleader.1 hfinal.toLeaderBlock, hfinal.last_lt, (h.superRatifies_iff hcp hle).1 hfinal.super⟩⟩
  · rintro ⟨hunique, hfinal⟩
    exact ⟨⟨hleader.2 hunique.toLeaderBlock, fun L' hL' => hunique.unique L' (hleader.1 hL')⟩,
      ⟨hleader.2 hfinal.toLeaderBlock, hfinal.last_lt, (h.superRatifies_iff hcp hle).2 hfinal.super⟩⟩

end Waves

/-! ### The anchor of a suffix -/

section Anchor

variable {config : TauConfig} {anchor anchor' : BlockIdentity}

/-- The walk compares with the consensus identity of the anchor. -/
theorem tauSuffixFromLeaderCached_anchor (heq : anchor.consensusIdentity = anchor'.consensusIdentity)
    (fuel : ℕ) (L : BlockIdentity) (ordered : List BlockIdentity) (cache : OrderingCache) :
    B.tauSuffixFromLeaderCached config anchor fuel L ordered cache =
      B.tauSuffixFromLeaderCached config anchor' fuel L ordered cache := by
  have hsame : ∀ x : BlockIdentity, x.sameConsensusIdentity anchor = x.sameConsensusIdentity anchor' := by
    intro x
    rw [Bool.eq_iff_iff, BlockIdentity.sameConsensusIdentity_iff,
      BlockIdentity.sameConsensusIdentity_iff, heq]
  induction fuel generalizing L ordered cache with
  | zero => rfl
  | succ fuel ih =>
      rw [tauSuffixFromLeaderCached, tauSuffixFromLeaderCached, hsame]
      simp only [ih]

/-- **A suffix call reads the round and the consensus identity of the anchor.** -/
theorem weightedTauSuffixWithCache_anchor
    (heq : anchor.consensusIdentity = anchor'.consensusIdentity)
    (hdepth : B.depth anchor = B.depth anchor') (w : ℕ) (bonds : Bonds) (id : ℕ)
    (ls : LeaderSelection) (verified : List BlockIdentity) (cache : OrderingCache) :
    B.weightedTauSuffixWithCache w bonds id ls anchor verified cache =
      B.weightedTauSuffixWithCache w bonds id ls anchor' verified cache := by
  have hsame : ∀ x : BlockIdentity, x.sameConsensusIdentity anchor = x.sameConsensusIdentity anchor' := by
    intro x
    rw [Bool.eq_iff_iff, BlockIdentity.sameConsensusIdentity_iff,
      BlockIdentity.sameConsensusIdentity_iff, heq]
  unfold weightedTauSuffixWithCache
  simp only [hsame, hdepth, tauSuffixFromLeaderCached_anchor heq]

/-- **A verified prefix that is extended over growth above the wave of its anchor gives
the full cached output.** -/
theorem suffix_eq_full_above (registry : ℕ → LeaderSelection) (id : ℕ) {A L : BlockIdentity}
    {d w : ℕ} {bonds : Bonds} {P out : List BlockIdentity} {cache₁ cache₂ : OrderingCache}
    (h : B.ExtendsAbove B' last) (hcp : B.checkpoint = none) (hA : B.Round A d)
    (hlast : lastRoundOfWave (d / w) w = some last)
    (hP : (stakeLadder (.fromBonds bonds)).CachedOutput B w (registry id) A (.ok P))
    (h₁ : cache₁.Sound registry B') (h₂ : cache₂.Sound registry B')
    (hout : (B'.weightedTauSuffixWithCache w bonds id (registry id) A.consensusIdentity P cache₁).1 =
      .ok (some (out, L))) :
    (B'.weightedTauWithCache w bonds id (registry id) cache₂).1 = .ok out ∧ P <+: out ∧
      B'.latestWeightedFinalLeader w bonds (registry id) = some L := by
  have hcp' : B'.checkpoint = none := h.checkpoint.trans hcp
  have hA' : B'.Round A d := h.grows.round h.checkpoint (fun hne => absurd hcp hne) hA
  have hdepth : B'.depth A.consensusIdentity = B'.depth A :=
    hA'.depth_consensusIdentity.trans hA'.depth.symm
  rw [weightedTauSuffixWithCache_anchor (BlockIdentity.consensusIdentity_idem A) hdepth] at hout
  refine suffix_eq_full h.grows hcp hcp' hA hP (fun wave hwave => ?_) h₁ h₂ hout
  -- the earlier waves end before the wave of the anchor does
  obtain ⟨hpos, hlast, -⟩ := lastRoundOfWave_eq_some.1 hlast
  have hle : wave * w ≤ d / w * w := Nat.mul_le_mul_right w hwave.le
  exact h.finalForWave_eq hcp (stakeLadder_decides bonds) (by omega)

end Anchor

end Blocklace

end CordialMiners
