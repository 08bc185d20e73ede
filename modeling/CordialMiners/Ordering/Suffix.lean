/-
# Extending a verified prefix

`weighted_tau_suffix_with_cache` against `weighted_tau_with_cache`.

The suffix walk stops where it meets the anchor of the verified prefix and emits
the leaders above it on top of the prefix.  The full walk goes on below the
anchor.  The two agree as long as the full walk finds below the anchor what it
found when the prefix was computed, that is, as long as the earlier waves have
the final leaders they had; the suffix call itself only looks at the wave of the
anchor, and leaves the rest to its caller.
-/

import CordialMiners.Ordering.CacheRuns

namespace CordialMiners

open FinGraph Relation
open Codec (map_eq_ok bind_eq_ok)

namespace Blocklace

variable {B B' : Blocklace} {L A x : BlockIdentity} {d : ℕ}
  {ordered out base leaders : List BlockIdentity}

/-! ### Sorted fragments under growth -/

/-- **The sorted fragment of a block with a round is fixed.** -/
theorem Extends.emitSortedFragment_eq (h : B.Extends B') (hcp : B.checkpoint = none)
    (hcp' : B'.checkpoint = none) (hL : B.Round L d) (ordered : List BlockIdentity) :
    B'.emitSortedFragment ordered L = B.emitSortedFragment ordered L := by
  have heq : B'.checkpoint = B.checkpoint := hcp'.trans hcp.symm
  have hL' : B'.Round L d := h.round heq (fun hne => absurd hcp hne) hL
  have hset : B'.approvedSet L = B.approvedSet L := by
    ext x
    rw [mem_approvedSet_iff hL, mem_approvedSet_iff hL', h.approves_iff heq hL]
  have href : ∀ p ∈ B.approvedSet L, ∀ x ∈ B.approvedSet L, (B'.Refers x p ↔ B.Refers x p) := by
    intro p _ x hx
    obtain ⟨e, -, hx⟩ := hL.of_sees ((mem_approvedSet_iff hL).1 hx).sees
    rw [refers_iff_mem_expand (by simp [hcp]) hx.mem,
      refers_iff_mem_expand (by simp [hcp']) (h.mem hx.mem), h.mem_expand_iff_of_round heq hx]
  refine except_ext fun out => ?_
  rw [emitSortedFragment_eq_ok, emitSortedFragment_eq_ok, hset]
  constructor
  · rintro ⟨l, hl, hall, rfl⟩
    exact ⟨l, hl.congr rfl href, hall, rfl⟩
  · rintro ⟨l, hl, hall, rfl⟩
    exact ⟨l, hl.congr rfl fun p hp x hx => (href p hp x hx).symm, hall, rfl⟩

/-- Only consensus identities are emitted. -/
theorem unsigned_of_foldlM_emitSortedFragment (hbase : ∀ y ∈ ordered, y.consensusIdentity = y)
    (h : leaders.foldlM B.emitSortedFragment ordered = .ok out) :
    ∀ y ∈ out, y.consensusIdentity = y := by
  induction leaders generalizing ordered with
  | nil =>
      obtain rfl := Except.ok.inj h
      exact hbase
  | cons L leaders ih =>
      rw [List.foldlM_cons] at h
      obtain ⟨next, hnext, h⟩ := bind_eq_ok.1 h
      refine ih ?_ h
      obtain ⟨l, -, -, rfl⟩ := emitSortedFragment_eq_ok.1 hnext
      intro y hy
      rcases List.mem_append.1 hy with hy | hy
      · exact hbase y hy
      · obtain ⟨x, -, rfl⟩ := List.mem_map.1 hy
        exact BlockIdentity.consensusIdentity_idem x

/-! ### What the suffix walk returns -/

variable {registry : ℕ → LeaderSelection} {cache : OrderingCache}
  {Q : Quorum.Rule NodeId}

/-- **A suffix walk that returns has met the anchor and emitted the leaders above
it.** -/
theorem tauSuffixFromLeaderCached_some (config : TauConfig) (hcp : B.checkpoint = none)
    (hQ : config.votes.ladder.Decides Q)
    (hls : config.leaderSelection = registry config.leaderSelectionId) (hL : B.Round L d)
    {fuel : ℕ} {anchor : BlockIdentity} (h : cache.Current registry B)
    (hout : (B.tauSuffixFromLeaderCached config anchor fuel L ordered cache).1 = .ok (some out)) :
    ∃ A' later, A' ∈ B.blocks ∧ A'.sameConsensusIdentity anchor = true ∧
      later.foldlM B.emitSortedFragment ordered = .ok out ∧
      ∀ base leaders,
        config.votes.ladder.Chain B config.wavelength config.leaderSelection A' base leaders →
        config.votes.ladder.Chain B config.wavelength config.leaderSelection L base
          (leaders ++ later) := by
  induction fuel generalizing L d out cache with
  | zero => exact absurd hout (by simp [tauSuffixFromLeaderCached])
  | succ fuel ih =>
      rw [tauSuffixFromLeaderCached] at hout
      split_ifs at hout with hhit hcheck
      · simp only [Except.ok.injEq, Option.some.injEq] at hout
        exact ⟨L, [], hL.mem, hhit, by rw [hout]; rfl,
          fun base leaders hc => by rwa [List.append_nil]⟩
      · exact absurd hout (by simp)
      · obtain ⟨hprev, hcur⟩ := previousFinalLeaderCached_spec h hls L
        simp only [hprev] at hout
        cases hp : config.votes.ladder.previous B L config.wavelength config.leaderSelection with
        | none =>
            rw [hp] at hout
            exact absurd hout (by simp)
        | some P =>
            rw [hp] at hout
            obtain ⟨e, -, hP⟩ := hL.of_below (Ladder.previous_below hQ hL hp)
            have hcur' := tauSuffixFromLeaderCached_current hls anchor fuel P ordered hcur
            have hih := fun (below : List BlockIdentity)
              (hbelow : (B.tauSuffixFromLeaderCached config anchor fuel P ordered
                (B.previousFinalLeaderCached L config cache).2).1 = .ok (some below)) =>
              ih hP hcur hbelow
            simp only at hout
            generalize B.tauSuffixFromLeaderCached config anchor fuel P ordered
              (B.previousFinalLeaderCached L config cache).2 = step at *
            obtain ⟨reaches, cache'⟩ := step
            rcases reaches with e | _ | below
            · exact absurd hout (by simp)
            · exact absurd hout (by simp)
            · obtain ⟨A', later, hA', hsame, hfold, hchain⟩ := hih below rfl
              simp only [sortedApprovedFragment] at hout
              obtain ⟨sorted, hsorted, hemit⟩ := map_eq_ok.1 hout
              have hstep : B.emitSortedFragment below L = .ok out :=
                map_eq_ok.2 ⟨sorted, hsorted, Option.some.inj hemit⟩
              refine ⟨A', later ++ [L], hA', hsame, ?_, fun base leaders hc => ?_⟩
              · rw [List.foldlM_append, hfold]
                exact (bind_pure (B.emitSortedFragment below L)).trans hstep
              · rw [← List.append_assoc]
                exact .next (Ladder.emitCheckpointPrefix_none hcp _ _) hp (hchain base leaders hc)

/-- **What a successful suffix call returns.** -/
theorem weightedTauSuffixWithCache_some {w id : ℕ} {bonds : Bonds} {anchor : BlockIdentity}
    {verified : List BlockIdentity} (hcp : B.checkpoint = none) (hA : anchor ∈ B.blocks)
    (h : cache.Sound registry B)
    (hout : (B.weightedTauSuffixWithCache w bonds id (registry id) anchor verified cache).1 =
      .ok (some (out, L))) :
    B.latestWeightedFinalLeader w bonds (registry id) = some L ∧
      ∃ later, later.foldlM B.emitSortedFragment
          (verified.map BlockIdentity.consensusIdentity) = .ok out ∧
        ∀ base leaders,
          (stakeLadder (.fromBonds bonds)).Chain B w (registry id) anchor base leaders →
          (stakeLadder (.fromBonds bonds)).Chain B w (registry id) L base (leaders ++ later) := by
  unfold weightedTauSuffixWithCache at hout
  simp only at hout
  split_ifs at hout
  · exact absurd hout (by simp)
  · split at hout
    · exact absurd hout (by simp)
    · split_ifs at hout
      · exact absurd hout (by simp)
      · split at hout
        · exact absurd hout (by simp)
        · next latestLeader hlatest =>
          obtain ⟨reached, hreached, hpair⟩ := map_eq_ok.1 hout
          obtain ⟨result, rfl, heq⟩ := Option.map_eq_some_iff.1 hpair
          obtain ⟨rfl, rfl⟩ := Prod.mk.inj heq
          obtain ⟨wave, hscan, -⟩ := (Ladder.latest_iff (stakeLadder_decides bonds)).1 hlatest
          obtain ⟨A', later, hA', hsame, hfold, hchain⟩ :=
            tauSuffixFromLeaderCached_some ⟨w, .stake (.fromBonds bonds), id, registry id⟩ hcp
              (stakeLadder_decides bonds) rfl hscan.round h.sync hreached
          obtain rfl := eq_of_consensusIdentity_eq hA' hA
            (BlockIdentity.sameConsensusIdentity_iff.1 hsame)
          exact ⟨hlatest, later, hfold, hchain⟩

/-- **A successful suffix call returns the full cached output**, as long as the
prefix is the cached output of its anchor on an earlier blocklace and the earlier
waves kept their final leaders. -/
theorem suffix_eq_full {w id : ℕ} {bonds : Bonds} {P : List BlockIdentity}
    {cache₁ cache₂ : OrderingCache} (hext : B.Extends B') (hcp : B.checkpoint = none)
    (hcp' : B'.checkpoint = none) (hA : B.Round A d)
    (hP : (stakeLadder (.fromBonds bonds)).CachedOutput B w (registry id) A (.ok P))
    (hagree : ∀ wave < d / w, B'.weightedFinalLeaderForWave wave w bonds (registry id) =
      B.weightedFinalLeaderForWave wave w bonds (registry id))
    (h₁ : cache₁.Sound registry B') (h₂ : cache₂.Sound registry B')
    (hout : (B'.weightedTauSuffixWithCache w bonds id (registry id) A P cache₁).1 =
      .ok (some (out, L))) :
    (B'.weightedTauWithCache w bonds id (registry id) cache₂).1 = .ok out ∧ P <+: out ∧
      B'.latestWeightedFinalLeader w bonds (registry id) = some L := by
  have hQ := stakeLadder_decides bonds
  obtain ⟨base, leaders, hc, hfoldP⟩ := hP
  obtain rfl := hc.base_eq hcp
  have hunsigned : P.map BlockIdentity.consensusIdentity = P := by
    refine (List.map_congr_left ?_).trans (List.map_id P)
    exact unsigned_of_foldlM_emitSortedFragment (by simp) hfoldP.symm
  obtain ⟨hlatest, later, hfold, hchain⟩ :=
    weightedTauSuffixWithCache_some hcp' (hext.mem hA.mem) h₁ hout
  rw [hunsigned] at hfold
  have hc' := hchain [] leaders (hc.of_agree hQ hext hcp hcp' hA hagree)
  obtain ⟨hres, -⟩ := orderedWithCache_spec
    ⟨w, .stake (.fromBonds bonds), id, registry id⟩ hQ rfl h₂
  have hlatest' : (Votes.stake (.fromBonds bonds)).ladder.latest B' w (registry id) = some L :=
    hlatest
  simp only [hlatest'] at hres
  refine ⟨?_, prefix_foldlM_emitSortedFragment hfold, hlatest⟩
  refine hres.unique ⟨[], leaders ++ later, hc', ?_⟩
  have hfixed : leaders.foldlM B'.emitSortedFragment [] =
      leaders.foldlM B.emitSortedFragment [] := by
    refine foldlM_congr (fun x hx ordered => ?_) []
    obtain ⟨e, -, he⟩ := hA.of_sees (hc.sees hQ hA hx)
    exact hext.emitSortedFragment_eq hcp hcp' he ordered
  rw [List.foldlM_append, hfixed, ← hfoldP]
  exact hfold.symm

end Blocklace

namespace World

open Blocklace

variable {registry : ℕ → LeaderSelection} {world₀ world₁ world₂ : World} {B B' : Blocklace}

/-- **In every reachable state, a prefix that a cached call returned on `B` and a
suffix call extends on a grown `B'` becomes what a cached call returns on `B'`**,
if the waves before the anchor kept their final leaders. -/
theorem suffix_call_eq_full_call (h₀ : Reachable registry world₀) (h₁ : Reachable registry world₁)
    (h₂ : Reachable registry world₂) {i₀ i₁ i₂ : ℕ} (hB : world₀.laces i₀ = some B)
    (hB₁ : world₁.laces i₁ = some B') (hB₂ : world₂.laces i₂ = some B')
    (hcp : B.checkpoint = none) (hrun : InsertRun KeepsReferences B B') {wavelength id : ℕ}
    {bonds : Bonds} {P out : List BlockIdentity} {A L : BlockIdentity}
    (hP : (B.weightedTauWithCache wavelength bonds id (registry id) world₀.cache).1 = .ok P)
    (hA : B.latestWeightedFinalLeader wavelength bonds (registry id) = some A)
    (hagree : ∀ round, B.depth A = some round → ∀ wave < round / wavelength,
      B'.weightedFinalLeaderForWave wave wavelength bonds (registry id) =
        B.weightedFinalLeaderForWave wave wavelength bonds (registry id))
    (hout : (B'.weightedTauSuffixWithCache wavelength bonds id (registry id) A P world₁.cache).1 =
      .ok (some (out, L))) :
    (B'.weightedTauWithCache wavelength bonds id (registry id) world₂.cache).1 = .ok out ∧
      P <+: out := by
  have hQ := stakeLadder_decides bonds
  obtain ⟨wave, hscan, -⟩ := (Ladder.latest_iff hQ).1 hA
  obtain ⟨hres, -⟩ := orderedWithCache_spec
    ⟨wavelength, .stake (.fromBonds bonds), id, registry id⟩ hQ rfl (h₀.inv.sound i₀ B hB)
  have hA' : (Votes.stake (.fromBonds bonds)).ladder.latest B wavelength (registry id) = some A :=
    hA
  simp only [hA'] at hres
  have hP' : (stakeLadder (.fromBonds bonds)).CachedOutput B wavelength (registry id) A (.ok P) := by
    rw [← hP]
    exact hres
  obtain ⟨hfull, hpre, -⟩ := suffix_eq_full hrun.extends hcp (hrun.checkpoint.trans hcp)
    hscan.round hP' (hagree _ hscan.round.depth) (h₁.inv.sound i₁ B' hB₁)
    (h₂.inv.sound i₂ B' hB₂) hout
  exact ⟨hfull, hpre⟩

/-- Creator `1` leads wave `0` with its genesis block and wave `1` with a block
that also sees the genesis block of creator `2`. -/
def anchoredWave : Blocklace :=
  (Blocklace.new 0).growBy
    [sampleBlock (sampleId 2 1) [], sampleBlock (sampleId 1 2) [],
      sampleBlock (sampleId 3 1) [sampleId 2 1, sampleId 1 2]]

/-- The hypotheses of `suffix_call_eq_full_call` are met by an unrelated block. -/
theorem suffix_call_eq_full_call_unrelated_block :
    ((anchoredWave.growBy [sampleBlock (sampleId 4 3) []]).weightedTauWithCache 1 soleBond 0
        twoWaveLeader .empty).1 =
      .ok [sampleId 2 1, sampleId 1 2, sampleId 3 1] := by
  refine (suffix_call_eq_full_call
    (ofBlocklace_reachable (fun _ => twoWaveLeader) anchoredWave)
    (ofBlocklace_reachable _ (anchoredWave.growBy [sampleBlock (sampleId 4 3) []]))
    (ofBlocklace_reachable _ (anchoredWave.growBy [sampleBlock (sampleId 4 3) []]))
    (ofBlocklace_laces _ rfl) (ofBlocklace_laces _ rfl) (ofBlocklace_laces _ rfl)
    (by decide +kernel)
    (insertRun_growBy_fresh (by decide +kernel) (by decide +kernel) (by decide +kernel))
    (P := [sampleId 2 1, sampleId 1 2, sampleId 3 1])
    (A := sampleId 3 1) (L := sampleId 3 1) (by decide +kernel) (by decide +kernel)
    ?_ (by decide +kernel)).1
  intro round hround wave hlt
  have hdepth : anchoredWave.depth (sampleId 3 1) = some 1 := by decide +kernel
  obtain rfl := Option.some.inj (hdepth.symm.trans hround)
  obtain rfl : wave = 0 := by omega
  decide +kernel

/-- A second genesis block of creator `1` leaves wave `0` without a unique leader.
The suffix call still returns the old prefix; the full call starts with the
block of creator `2`. -/
theorem suffix_call_ne_full_call :
    ∃ B B' : Blocklace, B.checkpoint = none ∧ InsertRun AnyBlock B B' ∧
      Reachable (fun _ => twoWaveLeader) (ofBlocklace B) ∧
      Reachable (fun _ => twoWaveLeader) (ofBlocklace B') ∧
      B.latestWeightedFinalLeader 1 soleBond twoWaveLeader = some (sampleId 3 1) ∧
      (B.weightedTauWithCache 1 soleBond 0 twoWaveLeader (ofBlocklace B).cache).1 =
        .ok [sampleId 2 1, sampleId 1 2, sampleId 3 1] ∧
      (B'.weightedTauSuffixWithCache 1 soleBond 0 twoWaveLeader (sampleId 3 1)
          [sampleId 2 1, sampleId 1 2, sampleId 3 1] (ofBlocklace B').cache).1 =
        .ok (some ([sampleId 2 1, sampleId 1 2, sampleId 3 1],
          sampleId 3 1)) ∧
      (B'.weightedTauWithCache 1 soleBond 0 twoWaveLeader (ofBlocklace B').cache).1 ≠
        .ok [sampleId 2 1, sampleId 1 2, sampleId 3 1] :=
  ⟨anchoredWave, anchoredWave.growBy [sampleBlock (sampleId 9 1) []], by decide +kernel,
    insertRun_growBy (by decide +kernel), ofBlocklace_reachable _ _, ofBlocklace_reachable _ _,
    by decide +kernel, by decide +kernel, by decide +kernel, by decide +kernel⟩

end World

end CordialMiners
