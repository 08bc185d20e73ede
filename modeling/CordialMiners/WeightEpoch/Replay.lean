/-
# A prepared epoch replays

What `prepare` checks against the published output is what `verify_replay` finds
again from the record alone: the wave of the sealed leader, the sealed prefix, the
effective wave and the ordering across the boundary.  Tables are sorted and collected
again on the way, so the ordering is shown to depend on their entries only; and the
sealed prefix carries no signatures, so publishing it again leaves it as it is.

An ingress holds one future epoch.  `prepare` does not ask for it, and a record is
installed where no other epoch is (`prepared_epoch_replays`).
-/

import CordialMiners.Collections.Permuted
import CordialMiners.WeightEpoch.Record
import CordialMiners.Validation.Hash

namespace CordialMiners.Reputation

open Codec (bind_eq_ok check_eq_ok guard_eq_ok
  mapError_eq_ok)

/-! ### Collected tables -/

theorem dedupKeys_of_nodupKeys {l : List (Sigma fun _ : NodeId => U64)} (h : l.NodupKeys) :
    l.dedupKeys = l := by
  induction l with
  | nil => rfl
  | cons entry l ih =>
      obtain ⟨hnew, hl⟩ := List.nodupKeys_cons.1 h
      rw [List.dedupKeys_cons, List.kinsert_def, ih hl, List.kerase_of_notMem_keys hnew]

theorem perm_sortedWeights (weights : Bonds) :
    (sortedWeights weights).entries.Perm weights.table.entries := List.perm_insertionSort _ _

/-- Sorting and collecting gives the map back. -/
theorem perm_collect (weights : Bonds) :
    (sortedWeights weights).collect.table.entries.Perm weights.table.entries := by
  have hnodup : (sortedWeights weights).entries.reverse.NodupKeys :=
    (List.perm_nodupKeys ((List.reverse_perm _).trans (perm_sortedWeights weights))).2
      weights.table.nodupKeys
  show (sortedWeights weights).entries.reverse.dedupKeys.Perm _
  rw [dedupKeys_of_nodupKeys hnodup]
  exact (List.reverse_perm _).trans (perm_sortedWeights weights)

/-- A sorted table is in ascending order of its nodes. -/
theorem pairwise_sortedWeights (weights : Bonds) :
    (sortedWeights weights).entries.Pairwise fun left right => left.1 ≤ right.1 := by
  exact Permuted.pairwise_insertionSort Sigma.fst _

/-- Maps with the same entries are sorted to one table. -/
theorem sortedWeights_eq_of_perm {a b : Bonds} (h : a.table.entries.Perm b.table.entries) :
    (sortedWeights a).entries = (sortedWeights b).entries := by
  refine Permuted.insertionSort_eq_of_perm Sigma.fst h fun x hx y hy heq => ?_
  exact b.table.nodupKeys.eq_of_fst_eq (h.mem_iff.1 hx) (h.mem_iff.1 hy) heq

/-- Maps with the same entries have one snapshot. -/
theorem fromBonds_eq_of_perm {a b : Bonds} (h : a.table.entries.Perm b.table.entries) :
    WeightSnapshot.fromBonds a = WeightSnapshot.fromBonds b := by
  have hsorted : (a.table.entries.insertionSort fun x y => x.1 ≤ y.1) =
      b.table.entries.insertionSort fun x y => x.1 ≤ y.1 := sortedWeights_eq_of_perm h
  unfold WeightSnapshot.fromBonds
  simp only [hsorted]

/-! ### The epoch of collected tables -/

variable {hasher : List Byte → ContentHash}

/-- The ordering across an epoch depends on the entries of its tables only. -/
theorem weightedTauAfterEpochBoundary_congr {oldBonds oldBonds' newBonds newBonds' : Bonds}
    (hold : oldBonds.table.entries.Perm oldBonds'.table.entries)
    (hnew : newBonds.table.entries.Perm newBonds'.table.entries) (B : Blocklace) (w : ℕ)
    (boundary : WeightedEpochBoundary) (ls : LeaderSelection) :
    B.weightedTauAfterEpochBoundary w oldBonds newBonds boundary ls =
      B.weightedTauAfterEpochBoundary w oldBonds' newBonds' boundary ls := by
  have hkeys : oldBonds.table.keys.Perm oldBonds'.table.keys := hold.map Sigma.fst
  have hkeys' : newBonds.table.keys.Perm newBonds'.table.keys := hnew.map Sigma.fst
  unfold Blocklace.weightedTauAfterEpochBoundary Blocklace.weightedTauBeyondBoundary
    Blocklace.weightedTauFromEpochLeader Blocklace.weightedTauAtLeader
    Blocklace.weightedFinalLeaderForWave Blocklace.latestWeightedFinalLeader
  simp only [fromBonds_eq_of_perm hold, fromBonds_eq_of_perm hnew, hkeys.length_eq, hkeys'.length_eq,
    hkeys.mem_iff, hkeys'.mem_iff]

theorem weightedTauAtLeader_congr {bonds bonds' : Bonds}
    (h : bonds.table.entries.Perm bonds'.table.entries) (B : Blocklace) (leader : BlockIdentity)
    (w : ℕ) (ls : LeaderSelection) :
    B.weightedTauAtLeader leader w bonds ls = B.weightedTauAtLeader leader w bonds' ls := by
  unfold Blocklace.weightedTauAtLeader
  rw [fromBonds_eq_of_perm h]

/-! ### Outputs carry no signatures -/

theorem unsigned_emitFragment {B : Blocklace} {ordered out : List BlockIdentity}
    {leader : BlockIdentity} (hordered : ∀ x ∈ ordered, x.consensusIdentity = x)
    (h : B.emitFragment ordered leader = .ok out) : ∀ x ∈ out, x.consensusIdentity = x := by
  obtain ⟨l, -, -, rfl⟩ := Blocklace.emitFragment_eq_ok.1 h
  intro x hx
  rcases List.mem_append.1 hx with hx | hx
  · exact hordered x hx
  · obtain ⟨y, -, rfl⟩ := List.mem_map.1 hx
    rfl

theorem unsigned_emitCheckpointPrefix {ladder : Ladder} {B : Blocklace}
    {ordered out : List BlockIdentity} {leader : BlockIdentity}
    (hordered : ∀ x ∈ ordered, x.consensusIdentity = x)
    (h : ladder.emitCheckpointPrefix B leader ordered = some out) :
    ∀ x ∈ out, x.consensusIdentity = x := by
  unfold Ladder.emitCheckpointPrefix at h
  split_ifs at h
  obtain rfl := Option.some.inj h
  intro x hx
  rcases mem_emitAll.1 hx with hx | hx
  · exact hordered x hx
  · obtain ⟨y, -, rfl⟩ := List.mem_map.1 hx
    rfl

theorem unsigned_emitBelow {ladder : Ladder} {B : Blocklace} {ordered : List BlockIdentity}
    {leader : BlockIdentity} (hordered : ∀ x ∈ ordered, x.consensusIdentity = x) :
    ∀ x ∈ ladder.emitBelow B leader ordered, x.consensusIdentity = x := by
  unfold Ladder.emitBelow
  cases checkpointPredecessor B leader with
  | none => exact hordered
  | some checkpoint =>
      cases hstored : ladder.emitCheckpointPrefix B checkpoint ordered with
      | none => simpa only [hstored, Option.getD_none] using hordered
      | some stored =>
          simp only [hstored, Option.getD_some]
          exact unsigned_emitCheckpointPrefix hordered hstored

/-- **The ordering at a leader consists of consensus identities.** -/
theorem unsigned_tauFromLeader {ladder : Ladder} {B : Blocklace} {w fuel : ℕ}
    {ls : LeaderSelection} {leader : BlockIdentity} {ordered out : List BlockIdentity}
    (hordered : ∀ x ∈ ordered, x.consensusIdentity = x)
    (h : ladder.tauFromLeader B w ls fuel leader ordered = .ok out) :
    ∀ x ∈ out, x.consensusIdentity = x := by
  induction fuel generalizing leader out with
  | zero => exact absurd h (by simp [Ladder.tauFromLeader])
  | succ fuel ih =>
      rw [Ladder.tauFromLeader] at h
      cases hcheckpoint : ladder.emitCheckpointPrefix B leader ordered with
      | some stored =>
          simp only [hcheckpoint] at h
          obtain rfl := Except.ok.inj h
          exact unsigned_emitCheckpointPrefix hordered hcheckpoint
      | none =>
          simp only [hcheckpoint] at h
          cases hp : ladder.previous B leader w ls with
          | some previous =>
              simp only [hp] at h
              obtain ⟨below, hbelow, h⟩ := bind_eq_ok.1 h
              exact unsigned_emitFragment (ih hbelow) h
          | none =>
              simp only [hp] at h
              exact unsigned_emitFragment (unsigned_emitBelow hordered) h

/-! ### Replay -/

section Replay

variable {ingress : LiveIngress} {source : FinalizedPrefixCheckpoint}
  {checkpointHash : ReputationCommitment} {projected : Bonds} {policy : PorWeightEpochPolicy}
  {record : PorWeightEpochRecord}

/-- The leaders of the waves for the validators of the ingress. -/
def LiveIngress.leaders (ingress : LiveIngress) : LeaderSelection :=
  leaderOfWave (sortedValidators ingress.bonds.table.keys)

/-- What a successful preparation establishes. -/
structure Prepared (hasher : List Byte → ContentHash) (ingress : LiveIngress)
    (source : FinalizedPrefixCheckpoint) (checkpointHash : ReputationCommitment)
    (projected : Bonds) (policy : PorWeightEpochPolicy) (record : PorWeightEpochRecord)
    (published : OrderedFinalizedOutput) (leader : BlockIdentity) : Prop where
  published_eq : ingress.sharedOrderedOutput = some published
  leader_eq : published.anchor = some leader
  effective : policy.effectiveWave hasher ingress.blocklace published source =
    .ok record.effectiveWave
  wave : ∃ wave, waveOfLeader ingress.blocklace leader published.wavelength = some wave ∧
    record.effectiveWave = wave + 1
  boundary : ∃ result, ingress.blocklace.weightedTauAfterEpochBoundary published.wavelength
    ingress.bonds projected ⟨leader, published.blocks, record.effectiveWave⟩ ingress.leaders =
      .ok result
  prefixLen : tryU64 published.blocks.length = some record.sealedPrefixLen
  fields : record =
    { porRound := source.porRound
      reputationCheckpointHash := checkpointHash
      source := source
      delayWaves := policy.delayWaves
      effectiveWave := record.effectiveWave
      wavelength := published.wavelength
      sealedLeader := leader
      sealedPrefixLen := record.sealedPrefixLen
      sealedPrefixHash := sealedPrefixHash hasher published.blocks
      oldWeights := sortedWeights ingress.bonds
      newWeights := sortedWeights projected
      oldWeightsCommitment := authorizedWeightCommitment hasher ingress.bonds
      newWeightsCommitment := authorizedWeightCommitment hasher projected }
  valid : record.validateStructure hasher = .ok ()

/-- An effective wave is positive and a `u64`. -/
theorem effectiveWave_bounds {B : Blocklace} {output : OrderedFinalizedOutput} {wave : ℕ}
    (h : policy.effectiveWave hasher B output source = .ok wave) : 0 < wave ∧ wave < 2 ^ 64 := by
  obtain ⟨-, h⟩ := check_eq_ok.1 h
  obtain ⟨round, -, h⟩ := bind_eq_ok.1 h
  obtain ⟨sourceWave, -, h⟩ := bind_eq_ok.1 h
  rw [okOr_eq_ok] at h
  unfold checkedAdd64 at h
  split_ifs at h with hlt
  obtain rfl := Option.some.inj h
  have hpos : 0 < policy.delayWaves.val :=
    Nat.pos_of_ne_zero fun hzero => policy.positive (Fin.ext hzero)
  omega

theorem previewFutureWeightEpoch_ok {wave : ℕ} {preview : OrderedFinalizedOutput}
    (h : ingress.previewFutureWeightEpoch projected wave = .ok preview) :
    ∃ published leader publishedWave result, ingress.sharedOrderedOutput = some published ∧
      published.anchor = some leader ∧
      waveOfLeader ingress.blocklace leader published.wavelength = some publishedWave ∧
      publishedWave < wave ∧
      ingress.blocklace.weightedTauAfterEpochBoundary published.wavelength ingress.bonds projected
        ⟨leader, published.blocks, wave⟩ ingress.leaders = .ok result := by
  obtain ⟨-, h⟩ := guard_eq_ok.1 h
  obtain ⟨-, h⟩ := guard_eq_ok.1 h
  obtain ⟨published, hpublished, h⟩ := bind_eq_ok.1 h
  obtain ⟨leader, hleader, h⟩ := bind_eq_ok.1 h
  obtain ⟨round, hround, h⟩ := bind_eq_ok.1 h
  obtain ⟨publishedWave, hwave, h⟩ := bind_eq_ok.1 h
  obtain ⟨hlt, h⟩ := guard_eq_ok.1 h
  obtain ⟨result, hresult, -⟩ := bind_eq_ok.1 h
  rw [okOr_eq_ok] at hpublished hleader hround hwave
  refine ⟨published, leader, publishedWave, result, hpublished, hleader, ?_, not_le.1 hlt,
    mapError_eq_ok.1 hresult⟩
  rw [waveOfLeader, hround]
  exact hwave

theorem prepare_ok
    (h : PorWeightEpochRecord.prepare hasher ingress source checkpointHash projected policy =
      .ok record) :
    ∃ published leader, Prepared hasher ingress source checkpointHash projected policy record
      published leader := by
  obtain ⟨⟨effectiveWave, preview⟩, hpreview, h⟩ := bind_eq_ok.1 h
  obtain ⟨published, hpublished, h⟩ := bind_eq_ok.1 h
  obtain ⟨leader, hleader, h⟩ := bind_eq_ok.1 h
  obtain ⟨prefixLen, hprefixLen, h⟩ := bind_eq_ok.1 h
  obtain ⟨hvalid, h⟩ := check_eq_ok.1 h
  obtain rfl := Except.ok.inj h
  rw [okOr_eq_ok] at hpublished hleader hprefixLen
  -- the preview reads the same publication
  obtain ⟨published', hpublished', hpreview⟩ :=
    bind_eq_ok.1 (mapError_eq_ok.1 hpreview)
  obtain ⟨wave, heffective, hpreview⟩ := bind_eq_ok.1 hpreview
  obtain ⟨leader', hleader', hpreview⟩ := bind_eq_ok.1 hpreview
  obtain ⟨round, hround, hpreview⟩ := bind_eq_ok.1 hpreview
  obtain ⟨publishedWave, hwave, hpreview⟩ := bind_eq_ok.1 hpreview
  obtain ⟨hpending, hpreview⟩ := guard_eq_ok.1 hpreview
  obtain ⟨_, hfuture, hpreview⟩ := bind_eq_ok.1 hpreview
  obtain ⟨rfl, -⟩ := Prod.mk.inj (Except.ok.inj hpreview)
  rw [okOr_eq_ok] at hpublished' hleader' hround hwave
  obtain rfl := Option.some.inj (hpublished.symm.trans hpublished')
  obtain rfl := Option.some.inj (hleader.symm.trans hleader')
  obtain ⟨_, _, publishedWave', result, h₁, h₂, hwave', hlt, hresult⟩ :=
    previewFutureWeightEpoch_ok hfuture
  obtain rfl := Option.some.inj (hpublished.symm.trans h₁)
  obtain rfl := Option.some.inj (hleader.symm.trans h₂)
  rw [waveOfLeader, hround, Option.bind_some, hwave] at hwave'
  obtain rfl := Option.some.inj hwave'
  have heffective' := mapError_eq_ok.1 heffective
  have hpos := (effectiveWave_bounds heffective').1
  refine ⟨published, leader, hpublished, hleader, heffective', ⟨publishedWave, ?_, ?_⟩,
    ⟨result, hresult⟩, hprefixLen, rfl, hvalid⟩
  · rw [waveOfLeader, hround]
    exact hwave
  · dsimp only
    omega

/-- The sealed prefix carries no signatures. -/
theorem Prepared.unsigned {published : OrderedFinalizedOutput} {leader : BlockIdentity}
    (h : Prepared hasher ingress source checkpointHash projected policy record published leader) :
    published.blocks.map BlockIdentity.consensusIdentity = published.blocks := by
  obtain ⟨_, hresult⟩ := h.boundary
  have htau := (Blocklace.weightedTauAfterEpochBoundary_ok hresult).1
  exact (List.map_congr_left (unsigned_tauFromLeader (by simp) htau)).trans (List.map_id _)

/-- The effective wave depends on the blocks and the wavelength of an anchored output. -/
theorem effectiveWave_congr {B : Blocklace} {output output' : OrderedFinalizedOutput}
    (hblocks : output'.blocks = output.blocks) (hwavelength : output'.wavelength = output.wavelength)
    (hanchor : output'.anchor ≠ none) {wave : ℕ}
    (h : policy.effectiveWave hasher B output source = .ok wave) :
    validateFinalizedPrefixCheckpoint hasher output' source = .ok () ∧
      policy.effectiveWave hasher B output' source = .ok wave := by
  obtain ⟨hcheckpoint, h⟩ := check_eq_ok.1 h
  have hvalid := validateFinalizedPrefixCheckpoint_eq_ok.1
    (mapError_eq_ok.1 hcheckpoint)
  have hvalid' : validateFinalizedPrefixCheckpoint hasher output' source = .ok () :=
    validateFinalizedPrefixCheckpoint_eq_ok.2
      ⟨hvalid.round_ne, hvalid.length, hanchor, hblocks ▸ hvalid.terminal, hblocks ▸ hvalid.hash⟩
  refine ⟨hvalid', check_eq_ok.2 ⟨mapError_eq_ok.2 hvalid', ?_⟩⟩
  rw [hwavelength]
  exact h

theorem sortedValidators_eq_nodes {authorized : List NodeId} {weights : Bonds}
    (h : authorized.Perm weights.table.keys) :
    sortedValidators authorized = (sortedWeights weights).nodes := by
  refine List.Perm.eq_of_pairwise' (List.pairwise_insertionSort (· ≤ ·) authorized)
    ((pairwise_sortedWeights weights).map _ fun _ _ h => h) ?_
  exact ((List.perm_insertionSort _ _).trans h).trans ((perm_sortedWeights weights).map _).symm

/-- **A prepared record replays on its blocklace.** -/
theorem Prepared.verifyReplay {published : OrderedFinalizedOutput} {leader : BlockIdentity}
    (h : Prepared hasher ingress source checkpointHash projected policy record published leader)
    {authorized : List NodeId} (hauthorized : authorized.Perm ingress.bonds.table.keys) :
    ∃ output, record.verifyReplay hasher ingress.blocklace authorized checkpointHash = .ok output ∧
      published.blocks <+: output.blocks := by
  obtain ⟨wave, hwave, hnext⟩ := h.wave
  obtain ⟨⟨blocks, anchor⟩, hresult⟩ := h.boundary
  have hsorted := sortedValidators_eq_nodes hauthorized
  have hleaders : leaderOfWave (sortedValidators authorized) = ingress.leaders := by
    rw [hsorted, ← sortedValidators_eq_nodes (List.Perm.refl _)]
    rfl
  obtain ⟨hsealed, hbeyond⟩ := Blocklace.weightedTauAfterEpochBoundary_ok hresult
  obtain ⟨later, hlater⟩ := Blocklace.weightedTauBeyondBoundary_fold hbeyond
  have hprefix : published.blocks <+: blocks := Blocklace.prefix_foldlM_emitFragment hlater
  have hbounds := effectiveWave_bounds h.effective
  have hwavelength : record.wavelength = published.wavelength :=
    congrArg PorWeightEpochRecord.wavelength h.fields
  have hleader : record.sealedLeader = leader :=
    congrArg PorWeightEpochRecord.sealedLeader h.fields
  have hsourceEq : record.source = source := congrArg PorWeightEpochRecord.source h.fields
  have hdelay : record.delayWaves = policy.delayWaves :=
    congrArg PorWeightEpochRecord.delayWaves h.fields
  have hold : record.oldWeights = sortedWeights ingress.bonds :=
    congrArg PorWeightEpochRecord.oldWeights h.fields
  have hnew : record.newWeights = sortedWeights projected :=
    congrArg PorWeightEpochRecord.newWeights h.fields
  obtain ⟨hsource, heffective⟩ := effectiveWave_congr
    (show (OrderedFinalizedOutput.new published.blocks (some leader) published.wavelength).blocks =
      published.blocks from h.unsigned) rfl (by simp [OrderedFinalizedOutput.new]) h.effective
  refine ⟨.new blocks (some anchor) published.wavelength, ?_, ?_⟩
  · unfold PorWeightEpochRecord.verifyReplay
    rw [hwavelength, hleader, hsourceEq, hdelay, hold, hnew, hleaders, hsorted]
    refine check_eq_ok.2 ⟨h.valid, guard_eq_ok.2 ⟨?_,
      guard_eq_ok.2 ⟨not_not.2 rfl, bind_eq_ok.2 ⟨wave,
        okOr_eq_ok.2 hwave, guard_eq_ok.2 ⟨?_, bind_eq_ok.2
          ⟨published.blocks, ?_, guard_eq_ok.2 ⟨?_, check_eq_ok.2
            ⟨mapError_eq_ok.2 hsource, bind_eq_ok.2 ⟨policy, ?_,
              bind_eq_ok.2 ⟨record.effectiveWave, mapError_eq_ok.2 heffective,
                guard_eq_ok.2 ⟨not_not.2 rfl, bind_eq_ok.2
                  ⟨(blocks, anchor), ?_, rfl⟩⟩⟩⟩⟩⟩⟩⟩⟩⟩⟩⟩
    · exact not_not.2 (congrArg PorWeightEpochRecord.reputationCheckpointHash h.fields)
    · rw [not_not, checkedAdd64, if_pos (by omega), hnext]
    · rw [mapError_eq_ok,
        weightedTauAtLeader_congr (perm_collect ingress.bonds)]
      exact hsealed
    · rw [not_or, not_not, not_not]
      exact ⟨h.prefixLen, (congrArg PorWeightEpochRecord.sealedPrefixHash h.fields).symm⟩
    · rw [mapError_eq_ok, PorWeightEpochPolicy.new_delayWaves]
    · rw [mapError_eq_ok, weightedTauAfterEpochBoundary_congr
        (perm_collect ingress.bonds) (perm_collect projected)]
      exact hresult
  · have hmap := hprefix.map BlockIdentity.consensusIdentity
    rwa [h.unsigned] at hmap

/-- The bonds are the recorded old weights. -/
theorem sameWeights_collect (weights : Bonds) :
    sameWeights weights (sortedWeights weights).collect :=
  sortedWeights_eq_of_perm (perm_collect weights).symm

/-- **An epoch that is prepared can be replayed, and installed where no other epoch is
active.** -/
theorem prepared_epoch_replays (hasher : List Byte → ContentHash) (ingress : LiveIngress)
    (source : FinalizedPrefixCheckpoint) (checkpointHash : ReputationCommitment)
    (projected : Bonds) (policy : PorWeightEpochPolicy) (record : PorWeightEpochRecord)
    (h : PorWeightEpochRecord.prepare hasher ingress source checkpointHash projected policy =
      .ok record) :
    (∀ authorized : List NodeId, authorized.Perm ingress.bonds.table.keys →
      ∃ output, record.verifyReplay hasher ingress.blocklace authorized checkpointHash =
        .ok output ∧
      ∀ published, ingress.sharedOrderedOutput = some published →
        published.blocks <+: output.blocks) ∧
    ((∃ ingress', ingress.installFutureEpoch hasher record checkpointHash = .ok ingress') ↔
      ∀ active, ingress.futureEpoch = some active → active = record) := by
  obtain ⟨published, leader, hprepared⟩ := prepare_ok h
  have hpublished := hprepared.published_eq
  have hhash : record.reputationCheckpointHash = checkpointHash :=
    congrArg PorWeightEpochRecord.reputationCheckpointHash hprepared.fields
  have hold : record.oldWeights = sortedWeights ingress.bonds :=
    congrArg PorWeightEpochRecord.oldWeights hprepared.fields
  refine ⟨fun authorized hauthorized => ?_, ?_⟩
  · obtain ⟨output, hreplay, hprefix⟩ := hprepared.verifyReplay hauthorized
    refine ⟨output, hreplay, fun published' h' => ?_⟩
    obtain rfl := Option.some.inj (hpublished.symm.trans h')
    exact hprefix
  · unfold LiveIngress.installFutureEpoch
    rw [if_neg (not_not.2 hhash)]
    cases hfuture : ingress.futureEpoch with
    | some active =>
        simp only [Option.some.injEq, forall_eq']
        split_ifs with heq <;> simp [heq]
    | none =>
        obtain ⟨output, hreplay, hprefix⟩ := hprepared.verifyReplay (List.Perm.refl _)
        simp only [reduceCtorEq, false_implies, implies_true, iff_true]
        rw [if_neg (not_not.2 (hold ▸ sameWeights_collect ingress.bonds)), hreplay, hpublished]
        refine ⟨_, if_neg ?_⟩
        simpa using hprefix

end Replay

/-! ### Two epochs -/

open Blocklace (sampleId sampleBlock soleBond)

/-- Sixteen blocks of one creator. -/
def epochIdentities : List BlockIdentity := (List.range 16).map fun k => sampleId (k + 1) 1

/-- An ingress that has published a chain of sixteen blocks. -/
def epochIngress : LiveIngress where
  blocklace := (Blocklace.new 0).growBy (sampleBlock (sampleId 1 1) [] ::
    (List.range 15).map fun k => sampleBlock (sampleId (k + 2) 1) [sampleId (k + 1) 1])
  orderingCache := .empty
  sharedOrderedOutput := some ⟨epochIdentities, some (sampleId 16 1), 1⟩
  bonds := soleBond
  futureEpoch := none

/-- Its first checkpoint. -/
def epochSource : FinalizedPrefixCheckpoint :=
  ⟨1, 16, finalizedPrefixHash sumHasher epochIdentities, sampleId 16 1⟩

/-- An epoch with unchanged weights, one wave after the checkpoint. -/
def prepareEpoch (ingress : LiveIngress) (checkpointHash : ReputationCommitment) :
    Except PorWeightEpochRecordError PorWeightEpochRecord :=
  PorWeightEpochRecord.prepare sumHasher ingress epochSource checkpointHash soleBond ⟨1, by decide⟩

/-- The hypothesis of `prepared_epoch_replays` is met by an ingress without an epoch. -/
theorem prepared_epoch_replays_epochIngress :
    ∃ record ingress', prepareEpoch epochIngress 1 = .ok record ∧
      epochIngress.installFutureEpoch sumHasher record 1 = .ok ingress' := by
  have hprepare : (prepareEpoch epochIngress 1).isOk = true := by decide +kernel
  obtain ⟨record, hrecord⟩ := Codec.exists_eq_ok_of_isOk hprepare
  obtain ⟨-, hinstall⟩ := prepared_epoch_replays _ _ _ _ _ _ _ hrecord
  obtain ⟨ingress', hingress⟩ := hinstall.2 (by simp [epochIngress])
  exact ⟨record, ingress', hrecord, hingress⟩

/-- A second epoch is prepared behind an installed one, and is not installed. -/
theorem second_epoch_not_installed :
    ∃ first ingress second, prepareEpoch epochIngress 1 = .ok first ∧
      epochIngress.installFutureEpoch sumHasher first 1 = .ok ingress ∧
      prepareEpoch ingress 2 = .ok second ∧
      ¬∃ ingress', ingress.installFutureEpoch sumHasher second 2 = .ok ingress' := by
  have hrun : ((prepareEpoch epochIngress 1).toOption.bind fun first =>
      (epochIngress.installFutureEpoch sumHasher first 1).toOption.bind fun ingress =>
        (prepareEpoch ingress 2).toOption.bind fun second =>
          if (ingress.installFutureEpoch sumHasher second 2).isOk then none else some ()) =
      some () := by decide +kernel
  simp only [Option.bind_eq_some_iff] at hrun
  obtain ⟨first, hfirst, ingress, hingress, second, hsecond, hlast⟩ := hrun
  refine ⟨first, ingress, second, Codec.eq_ok_of_toOption hfirst, Codec.eq_ok_of_toOption hingress,
    Codec.eq_ok_of_toOption hsecond, ?_⟩
  rintro ⟨ingress', hingress'⟩
  rw [hingress'] at hlast
  exact absurd hlast (by simp [Except.isOk, Except.toBool])

end CordialMiners.Reputation
