/-
# Building and auditing reputation blocks

`audit.rs`, and the builders of `block.rs`.

An auditor replays the round from the recorded ratings and the previous vector and
compares the outcome with the proposed block.  What it accepts is exactly what the
builder builds from the replayed list (`verify_eq_ok`,
`verifyCheckpoint_eq_ok`), in the wave format and in the checkpoint format.
-/

import CordialMiners.Reputation.Penalties

namespace CordialMiners.Reputation

open Codec (bind_eq_ok check_eq_ok guard_eq_ok
  exists_eq_ok_of_isOk)

/-! ### Replay -/

/-- An entry of a key that was excluded before stays excluded. -/
def keepExcluded (previous : ReputationVector) (entry : ReputationEntry) : ReputationEntry :=
  match entryOf previous.values entry.nodeId with
  | some old => if old.isExcluded then entry.slashed old.retainedReputation else entry
  | none => entry

section Hasher

variable (hasher : List Byte → ContentHash)

/-- `replay_reputation_transition_with_penalties`. -/
def replayReputationTransitionWithPenalties (previous : ReputationVector)
    (ratings : List RatingRecord) (round : U64) (config : PorConfig)
    (penalties : Option ReputationPenaltyEvents) : Except PorError ReputationList := do
  config.validate
  validateReputationEntries previous.values
  let _commitment ← penaltyEventsCommitment hasher round penalties
  let batch ← buildRatingBatch round ratings config
  let matrix ← buildRatingMatrix batch
  let normalized ← normalizeRatingMatrix matrix config
  let contribution ← computeLiquidRankContribution normalized previous config
  let blended ← blendReputationTransition contribution previous config
  let clamped ← clampReputationTransition blended previous contribution config
  match penalties with
  | none => .ok ⟨clamped.round, clamped.values.map (keepExcluded previous)⟩
  | some events =>
      applyReputationPenalties hasher
        ⟨clamped.round, clamped.values.map (keepExcluded previous)⟩ previous ratings events config

/-- `replay_reputation_transition`. -/
def replayReputationTransition (previous : ReputationVector) (ratings : List RatingRecord)
    (round : U64) (config : PorConfig) : Except PorError ReputationList :=
  replayReputationTransitionWithPenalties hasher previous ratings round config none

/-! ### Builders -/

/-- What a block of the wave format is built and audited in. -/
structure ReputationBlockContext where
  shardId : List Byte
  sourceFinalizedWave : U64
  previousBlock : Option ReputationBlock

/-- What a block of the checkpoint format is built and audited in. -/
structure CheckpointReputationBlockContext where
  shardId : List Byte
  source : RatingSourceCheckpoint
  previousBlock : Option ReputationBlock

/-- `previous_reputation_hash`; the wave builder and the auditors spell it out. -/
def previousReputationHash (shardId : List Byte) (round : U64)
    (previousBlock : Option ReputationBlock) : Except PorError (Option ReputationCommitment) :=
  match previousBlock with
  | none => .ok none
  | some previous =>
      if previous.header.shardId ≠ shardId then .error .previousReputationBlockShardMismatch
      else if checkedAdd64 previous.header.round 1 ≠ some round.val then
        .error .invalidPreviousReputationBlockRound
      else (reputationBlockHash hasher previous).map some

/-- `build_reputation_block_with_penalties`. -/
def buildReputationBlockWithPenalties (context : ReputationBlockContext) (ratings : RatingBatch)
    (list : ReputationList) (config : PorConfig) (penalties : Option ReputationPenaltyEvents) :
    Except PorError ReputationBlock := do
  config.validate
  validatePenaltyContext penalties context.shardId context.sourceFinalizedWave
  validateShardId context.shardId
  let round ← ratingRoundFromFinalizedWave context.sourceFinalizedWave
  if ratings.round ≠ round then .error .invalidRatingRound
  else if list.round ≠ round then .error .invalidReputationBlockRound
  else
    let previousHash ← previousReputationHash hasher context.shardId round context.previousBlock
    let ratingsHash ← ratingBatchCommitment hasher ratings config
    let penaltiesHash ← penaltyEventsCommitment hasher round penalties
    let root ← reputationListCommitment hasher list
    let block : ReputationBlock :=
      { header :=
          { version := reputationBlockVersion
            shardId := context.shardId
            sourceFinalizedWave := context.sourceFinalizedWave
            sourceCheckpoint := none
            round := round
            previousReputationHash := previousHash
            configHash := configCommitment hasher config
            ratingsHash := ratingsHash
            penaltiesHash := penaltiesHash
            reputationRoot := root }
        reputationList := list }
    validateReputationBlock hasher block
    .ok block

/-- `build_checkpoint_reputation_block_with_penalties`. -/
def buildCheckpointReputationBlockWithPenalties (context : CheckpointReputationBlockContext)
    (ratings : RatingBatch) (list : ReputationList) (config : PorConfig)
    (penalties : Option ReputationPenaltyEvents) : Except PorError ReputationBlock := do
  config.validate
  validateShardId context.shardId
  context.source.validate
  validateCheckpointPenaltyContext penalties context.shardId context.source
  if ratings.round ≠ context.source.round then .error .invalidRatingRound
  else if list.round ≠ context.source.round then .error .invalidReputationBlockRound
  else
    let previousHash ←
      previousReputationHash hasher context.shardId context.source.round context.previousBlock
    let ratingsHash ← checkpointRatingBatchCommitment hasher ratings context.source config
    let penaltiesHash ← penaltyEventsCommitment hasher context.source.round penalties
    let root ← reputationListCommitment hasher list
    let block : ReputationBlock :=
      { header :=
          { version := checkpointReputationBlockVersion
            shardId := context.shardId
            sourceFinalizedWave := 0
            sourceCheckpoint := some context.source
            round := context.source.round
            previousReputationHash := previousHash
            configHash := configCommitment hasher config
            ratingsHash := ratingsHash
            penaltiesHash := penaltiesHash
            reputationRoot := root }
        reputationList := list }
    validateReputationBlock hasher block
    .ok block

/-! ### Auditors -/

/-- `compare_reputation_lists`: the walk over both lists. -/
def compareReputationLists : List ReputationEntry → List ReputationEntry → Except PorError Unit
  | expected :: expecteds, proposed :: proposeds =>
      if expected.nodeId < proposed.nodeId then .error .missingReputationBlockEntry
      else if expected.nodeId = proposed.nodeId then
        if expected.isExcluded ≠ proposed.isExcluded then .error .reputationExclusionMismatch
        else if expected.reputation ≠ proposed.reputation ∨
            expected.retainedReputation ≠ proposed.retainedReputation then
          .error .reputationValueMismatch
        else compareReputationLists expecteds proposeds
      else .error .unexpectedReputationBlockEntry
  | _ :: _, [] => .error .missingReputationBlockEntry
  | [], _ :: _ => .error .unexpectedReputationBlockEntry
  | [], [] => .ok ()

/-- `verify_reputation_transition_with_penalties`. -/
def verifyReputationTransitionWithPenalties (previous : ReputationVector)
    (ratings : List RatingRecord) (proposed : ReputationBlock) (context : ReputationBlockContext)
    (config : PorConfig) (penalties : Option ReputationPenaltyEvents) : Except PorError Unit := do
  config.validate
  validateReputationBlock hasher proposed
  validatePenaltyContext penalties context.shardId context.sourceFinalizedWave
  if proposed.header.version ≠ reputationBlockVersion then
    .error (.unsupportedReputationBlockAuditVersion proposed.header.version)
  else if proposed.header.shardId ≠ context.shardId then .error .reputationBlockShardMismatch
  else if proposed.header.sourceFinalizedWave ≠ context.sourceFinalizedWave then
    .error .reputationBlockSourceWaveMismatch
  else
    let expectedPreviousHash ←
      previousReputationHash hasher context.shardId proposed.header.round context.previousBlock
    if proposed.header.previousReputationHash ≠ expectedPreviousHash then
      .error .reputationBlockPreviousHashMismatch
    else if proposed.header.configHash ≠ configCommitment hasher config then
      .error .reputationBlockConfigHashMismatch
    else
      let ratingsHash ← ratingBatchCommitment hasher ⟨proposed.header.round, ratings⟩ config
      if proposed.header.ratingsHash ≠ ratingsHash then .error .reputationBlockRatingsHashMismatch
      else
        let penaltiesHash ← penaltyEventsCommitment hasher proposed.header.round penalties
        if proposed.header.penaltiesHash ≠ penaltiesHash then
          .error .reputationBlockPenaltiesHashMismatch
        else
          let expected ← replayReputationTransitionWithPenalties hasher previous ratings
            proposed.reputationList.round config penalties
          compareReputationLists expected.entries proposed.reputationList.entries

/-- `verify_checkpoint_reputation_transition_with_penalties`. -/
def verifyCheckpointReputationTransitionWithPenalties (previous : ReputationVector)
    (ratings : List RatingRecord) (proposed : ReputationBlock)
    (context : CheckpointReputationBlockContext) (config : PorConfig)
    (penalties : Option ReputationPenaltyEvents) : Except PorError Unit := do
  context.source.validate
  validateCheckpointPenaltyContext penalties context.shardId context.source
  validateReputationBlock hasher proposed
  if proposed.header.version ≠ checkpointReputationBlockVersion then
    .error (.unsupportedReputationBlockAuditVersion proposed.header.version)
  else if proposed.header.shardId ≠ context.shardId then .error .reputationBlockShardMismatch
  else if proposed.header.sourceCheckpoint ≠ some context.source then
    .error .reputationBlockSourceCheckpointMismatch
  else
    let expectedPreviousHash ←
      previousReputationHash hasher context.shardId proposed.header.round context.previousBlock
    if proposed.header.previousReputationHash ≠ expectedPreviousHash then
      .error .reputationBlockPreviousHashMismatch
    else if proposed.header.configHash ≠ configCommitment hasher config then
      .error .reputationBlockConfigHashMismatch
    else
      let ratingsHash ←
        checkpointRatingBatchCommitment hasher ⟨proposed.header.round, ratings⟩ context.source config
      if proposed.header.ratingsHash ≠ ratingsHash then .error .reputationBlockRatingsHashMismatch
      else
        let penaltiesHash ← penaltyEventsCommitment hasher proposed.header.round penalties
        if proposed.header.penaltiesHash ≠ penaltiesHash then
          .error .reputationBlockPenaltiesHashMismatch
        else
          let expected ← replayReputationTransitionWithPenalties hasher previous ratings
            proposed.header.round config penalties
          compareReputationLists expected.entries proposed.reputationList.entries

end Hasher

/-! ### What a replay returns -/

variable {hasher : List Byte → ContentHash} {previous : ReputationVector}
  {ratings : List RatingRecord} {round : U64} {config : PorConfig}
  {penalties : Option ReputationPenaltyEvents} {list : ReputationList}

/-- The stages of a replay. -/
theorem replay_stages
    (h : replayReputationTransitionWithPenalties hasher previous ratings round config penalties =
      .ok list) :
    config.Valid ∧ validateReputationEntries previous.values = .ok () ∧
      ∃ clamped : ReputationVector, clamped.round = round ∧
        checkedAdd64 previous.round 1 = some round.val ∧ Ordered clamped.values ∧
        (∀ entry ∈ clamped.values, entry.Fresh) ∧
        (∀ id ∈ previous.values.map ReputationEntry.nodeId,
          id ∈ clamped.values.map ReputationEntry.nodeId) ∧
        match penalties with
        | none => list = ⟨clamped.round, clamped.values.map (keepExcluded previous)⟩
        | some events => applyReputationPenalties hasher
            ⟨clamped.round, clamped.values.map (keepExcluded previous)⟩ previous ratings events
            config = .ok list := by
  obtain ⟨hconfig, h⟩ := check_eq_ok.1 h
  obtain ⟨hprevious, h⟩ := check_eq_ok.1 h
  obtain ⟨_, -, h⟩ := bind_eq_ok.1 h
  obtain ⟨batch, hbatch, h⟩ := bind_eq_ok.1 h
  obtain ⟨matrix, hmatrix, h⟩ := bind_eq_ok.1 h
  obtain ⟨normalized, hnormalized, h⟩ := bind_eq_ok.1 h
  obtain ⟨contribution, hcontribution, h⟩ := bind_eq_ok.1 h
  obtain ⟨blended, hblended, h⟩ := bind_eq_ok.1 h
  obtain ⟨clamped, hclamped, h⟩ := bind_eq_ok.1 h
  obtain ⟨hbround, hnext, -, hordered, hnodes⟩ := blendReputationTransition_spec hblended
  obtain ⟨hcround, hfresh, hsame⟩ := clampReputationTransition_spec hclamped
  have hround : contribution.round = round := by
    -- the stages before the blend pass the round on
    obtain ⟨-, hbatch⟩ := check_eq_ok.1 hbatch
    obtain ⟨-, hbatch⟩ := guard_eq_ok.1 hbatch
    obtain ⟨-, hmatrix⟩ := guard_eq_ok.1 hmatrix
    obtain ⟨-, hmatrix⟩ := guard_eq_ok.1 hmatrix
    obtain ⟨-, hnormalized⟩ := guard_eq_ok.1 hnormalized
    obtain ⟨_, -, hnormalized⟩ := bind_eq_ok.1 hnormalized
    obtain ⟨-, hcontribution⟩ := guard_eq_ok.1 hcontribution
    obtain ⟨-, hcontribution⟩ := check_eq_ok.1 hcontribution
    obtain ⟨_, -, hcontribution⟩ := bind_eq_ok.1 hcontribution
    rw [← Except.ok.inj hcontribution, ← Except.ok.inj hnormalized, ← Except.ok.inj hmatrix,
      ← Except.ok.inj hbatch]
  refine ⟨PorConfig.validate_eq_ok.1 hconfig, hprevious, clamped, hcround.trans
    (hbround.trans hround), hround ▸ hnext, ?_, hfresh, fun id hid => ?_, ?_⟩
  · show Keyed.Ascending _ _
    rw [Keyed.ascending_iff_map, hsame, ← Keyed.ascending_iff_map]
    exact hordered
  · rw [hsame, hnodes]
    exact Or.inr hid
  · cases penalties with
    | none => exact (Except.ok.inj h).symm
    | some events => exact h

theorem replay_round
    (h : replayReputationTransitionWithPenalties hasher previous ratings round config penalties =
      .ok list) : list.round = round := by
  obtain ⟨-, -, clamped, hround, -, -, -, -, hlist⟩ := replay_stages h
  cases penalties with
  | none => rw [hlist, ← hround]
  | some events => rw [(applyReputationPenalties_penalized hlist).round, ← hround]

@[simp] theorem keepExcluded_nodeId (entry : ReputationEntry) :
    (keepExcluded previous entry).nodeId = entry.nodeId := by
  unfold keepExcluded
  split
  · split_ifs <;> rfl
  · rfl

/-- **A replay keeps every excluded key** with its retained balance, and no penalty
can name one. -/
theorem replay_keeps_excluded
    (h : replayReputationTransitionWithPenalties hasher previous ratings round config penalties =
      .ok list) {id : NodeId} {old : ReputationEntry} (hold : entryOf previous.values id = some old)
    (hexcluded : old.isExcluded = true) :
    entryOf list.entries id = some ⟨id, 0, old.retainedReputation, true⟩ := by
  obtain ⟨-, -, clamped, hround, -, hordered, -, hcovers, hlist⟩ := replay_stages h
  obtain ⟨hmem, hid⟩ : old ∈ previous.values ∧ old.nodeId = id :=
    ⟨List.mem_of_find?_eq_some hold, by simpa using List.find?_some hold⟩
  have hkept : entryOf (clamped.values.map (keepExcluded previous)) id =
      some ⟨id, 0, old.retainedReputation, true⟩ := by
    obtain ⟨entry, hentry, hnode⟩ := List.mem_map.1 (hcovers id (hid ▸ List.mem_map_of_mem hmem))
    rw [entryOf, Keyed.find_map keepExcluded_nodeId, (Keyed.find_eq_some_iff hordered).2 ⟨hentry, hnode⟩,
      Option.map_some]
    unfold keepExcluded
    rw [hnode, hold]
    dsimp only
    rw [if_pos hexcluded, ← hnode]
    rfl
  cases penalties with
  | none => rw [hlist, hkept]
  | some events =>
      have hpenalized := applyReputationPenalties_penalized hlist
      have hactive : ∀ {offender : NodeId} {prior : ReputationEntry},
          priorEntry previous offender = .ok prior → offender ≠ id := by
        rintro offender prior hprior rfl
        obtain ⟨hfound, hactive⟩ := priorEntry_eq_ok.1 hprior
        rw [Option.some.inj (hold.symm.trans hfound)] at hexcluded
        simp [hactive] at hexcluded
      rw [hpenalized.frame id, hkept]
      unfold ReputationPenaltyEvents.offenders
      rw [List.mem_append, List.mem_map, List.mem_map]
      rintro (⟨event, he, hoffender⟩ | ⟨event, he, hoffender⟩)
      · obtain ⟨prior, hprior⟩ := (hpenalized.accepted event he).active
        exact hactive hprior hoffender
      · obtain ⟨prior, hprior⟩ := hpenalized.active event he
        exact hactive hprior hoffender

/-! ### Builder and auditor -/

/-- **The walk accepts equal lists only.** -/
theorem compareReputationLists_eq_ok {expected proposed : List ReputationEntry} :
    compareReputationLists expected proposed = .ok () ↔ expected = proposed := by
  induction expected generalizing proposed with
  | nil => cases proposed <;> simp [compareReputationLists]
  | cons first rest ih =>
      cases proposed with
      | nil => simp [compareReputationLists]
      | cons head tail =>
          unfold compareReputationLists
          rw [guard_eq_ok]
          constructor
          · rintro ⟨-, h⟩
            split_ifs at h with hid hexcluded hvalue
            obtain ⟨hreputation, hretained⟩ := not_or.1 hvalue
            rw [ih.1 h]
            congr 1
            cases first
            cases head
            simp_all
          · intro h
            obtain ⟨rfl, rfl⟩ := List.cons.inj h
            simp [ih]

/-- **An auditor of the wave format accepts what the builder builds** from the
replayed list, and nothing else. -/
theorem verify_eq_ok {block : ReputationBlock} {context : ReputationBlockContext} :
    verifyReputationTransitionWithPenalties hasher previous ratings block context config penalties =
        .ok () ↔
      ∃ list, replayReputationTransitionWithPenalties hasher previous ratings block.header.round
          config penalties = .ok list ∧
        buildReputationBlockWithPenalties hasher context ⟨block.header.round, ratings⟩ list config
          penalties = .ok block := by
  unfold verifyReputationTransitionWithPenalties buildReputationBlockWithPenalties
  simp only [bind_eq_ok, guard_eq_ok, not_not,
    compareReputationLists_eq_ok, Except.ok.injEq]
  constructor
  · rintro ⟨⟨⟩, hconfig, ⟨⟩, hblock, ⟨⟩, hcontext, hversion, hshard, hwave, _, hprevious, rfl,
      hconfigHash, _, hratings, rfl, _, hpenalties, rfl, list, hreplay, hentries⟩
    obtain ⟨hshardOk, hsource, hround, hvalid, hroot⟩ := validateReputationBlock_eq_ok.1 hblock
    obtain ⟨⟨version, shardId, wave, source, round, previousHash, configHash, ratingsHash,
      penaltiesHash, root⟩, proposed⟩ := block
    dsimp only at *
    subst hround hversion hshard hwave hconfigHash
    obtain rfl : list = proposed := by
      obtain ⟨round, entries⟩ := list
      obtain ⟨proposedRound, proposed⟩ := proposed
      rw [show round = proposedRound from replay_round hreplay, show entries = proposed from hentries]
    unfold ReputationBlockHeader.validateSource at hsource
    rw [if_pos rfl] at hsource
    obtain ⟨hsource, -⟩ := guard_eq_ok.1 hsource
    obtain ⟨hnone, hwaveRound⟩ := not_or.1 hsource
    obtain rfl : source = none := by simpa using hnone
    exact ⟨list, hreplay, (), hconfig, (), hcontext, (), validateShardId_eq_ok.2 hshardOk, _,
      not_not.1 hwaveRound, rfl, rfl, _, hprevious, _, hratings, _, hpenalties, root,
      reputationListCommitment_eq_ok.2 ⟨hvalid, hroot⟩, (), hblock, rfl⟩
  · rintro ⟨list, hreplay, ⟨⟩, hconfig, ⟨⟩, hcontext, ⟨⟩, -, round, hwaveRound, hratingsRound, -,
      previousHash, hprevious, ratingsHash, hratings, penaltiesHash, hpenalties, root, -, ⟨⟩, hblock,
      rfl⟩
    refine ⟨(), hconfig, (), hblock, (), hcontext, rfl, rfl, rfl, _, hprevious, rfl, rfl, _,
      hratings, rfl, _, hpenalties, rfl, list, ?_, rfl⟩
    dsimp only at hreplay ⊢
    rwa [replay_round hreplay]

/-- **The same in the checkpoint format.** -/
theorem verifyCheckpoint_eq_ok {block : ReputationBlock}
    {context : CheckpointReputationBlockContext} :
    verifyCheckpointReputationTransitionWithPenalties hasher previous ratings block context config
        penalties = .ok () ↔
      ∃ list, replayReputationTransitionWithPenalties hasher previous ratings block.header.round
          config penalties = .ok list ∧
        buildCheckpointReputationBlockWithPenalties hasher context ⟨block.header.round, ratings⟩
          list config penalties = .ok block := by
  unfold verifyCheckpointReputationTransitionWithPenalties
    buildCheckpointReputationBlockWithPenalties
  simp only [bind_eq_ok, guard_eq_ok, not_not,
    compareReputationLists_eq_ok, Except.ok.injEq]
  constructor
  · rintro ⟨⟨⟩, hsourceOk, ⟨⟩, hcontext, ⟨⟩, hblock, hversion, hshard, hsource, _, hprevious, rfl,
      hconfigHash, _, hratings, rfl, _, hpenalties, rfl, list, hreplay, hentries⟩
    obtain ⟨hshardOk, hsourceFields, hround, hvalid, hroot⟩ :=
      validateReputationBlock_eq_ok.1 hblock
    obtain ⟨⟨version, shardId, wave, source, round, previousHash, configHash, ratingsHash,
      penaltiesHash, root⟩, proposed⟩ := block
    dsimp only at *
    subst hround hversion hshard hsource hconfigHash
    obtain rfl : list = proposed := by
      obtain ⟨round, entries⟩ := list
      obtain ⟨proposedRound, proposed⟩ := proposed
      rw [show round = proposedRound from replay_round hreplay, show entries = proposed from hentries]
    unfold ReputationBlockHeader.validateSource at hsourceFields
    rw [if_neg (show ¬checkpointReputationBlockVersion = reputationBlockVersion by decide),
      if_pos rfl] at hsourceFields
    obtain ⟨hfields, -⟩ := guard_eq_ok.1 hsourceFields
    obtain ⟨hwave, hsourceRound⟩ := not_or.1 hfields
    obtain rfl : wave = 0 := not_not.1 hwave
    have hsourceRound : context.source.round = list.round := not_not.1 hsourceRound
    refine ⟨list, hreplay, (), PorConfig.validate_eq_ok.2 (replay_stages hreplay).1, (),
      validateShardId_eq_ok.2 hshardOk, (), hsourceOk, (), hcontext, hsourceRound.symm,
      hsourceRound.symm, previousHash, ?_, _, hratings, penaltiesHash, ?_, root,
      reputationListCommitment_eq_ok.2 ⟨hvalid, hroot⟩, (), ?_, ?_⟩
    · rw [hsourceRound]
      exact hprevious
    · rw [hsourceRound]
      exact hpenalties
    · rwa [hsourceRound]
    · rw [hsourceRound]
  · rintro ⟨list, hreplay, ⟨⟩, hconfig, ⟨⟩, -, ⟨⟩, hsourceOk, ⟨⟩, hcontext, hratingsRound, -,
      previousHash, hprevious, ratingsHash, hratings, penaltiesHash, hpenalties, root, -, ⟨⟩, hblock,
      rfl⟩
    exact ⟨(), hsourceOk, (), hcontext, (), hblock, rfl, rfl, rfl, _, hprevious, rfl, rfl, _,
      hratings, rfl, _, hpenalties, rfl, list, hreplay, rfl⟩

/-- A built block is valid, carries the list and has the round of its context. -/
theorem build_spec {batch : RatingBatch} {built : ReputationBlock} {context : ReputationBlockContext}
    (h : buildReputationBlockWithPenalties hasher context batch list config penalties = .ok built) :
    ratingRoundFromFinalizedWave context.sourceFinalizedWave = .ok built.header.round ∧
      batch.round = built.header.round ∧ built.reputationList = list ∧
      validateReputationBlock hasher built = .ok () := by
  unfold buildReputationBlockWithPenalties at h
  simp only [bind_eq_ok, guard_eq_ok, not_not, Except.ok.injEq] at h
  obtain ⟨⟨⟩, -, ⟨⟩, -, ⟨⟩, -, round, hwave, hbatch, -, _, -, _, -, _, -, _, -, ⟨⟩, hvalid, rfl⟩ := h
  exact ⟨hwave, hbatch, rfl, hvalid⟩

theorem buildCheckpoint_spec {batch : RatingBatch} {built : ReputationBlock}
    {context : CheckpointReputationBlockContext}
    (h : buildCheckpointReputationBlockWithPenalties hasher context batch list config penalties =
      .ok built) :
    built.header.round = context.source.round ∧ batch.round = context.source.round ∧
      built.reputationList = list ∧ validateReputationBlock hasher built = .ok () := by
  unfold buildCheckpointReputationBlockWithPenalties at h
  simp only [bind_eq_ok, guard_eq_ok, not_not, Except.ok.injEq] at h
  obtain ⟨⟨⟩, -, ⟨⟩, -, ⟨⟩, -, ⟨⟩, -, hbatch, -, _, -, _, -, _, -, _, -, ⟨⟩, hvalid, rfl⟩ := h
  exact ⟨rfl, hbatch, rfl, hvalid⟩

/-- What is built from the replayed list is accepted. -/
theorem buildCheckpoint_verified {previous : ReputationVector} {batch : RatingBatch}
    {built : ReputationBlock} {context : CheckpointReputationBlockContext}
    (hreplay : replayReputationTransitionWithPenalties hasher previous batch.ratings batch.round
      config penalties = .ok list)
    (hbuilt : buildCheckpointReputationBlockWithPenalties hasher context batch list config penalties =
      .ok built) :
    verifyCheckpointReputationTransitionWithPenalties hasher previous batch.ratings built context
      config penalties = .ok () := by
  obtain ⟨hsource, hbatch, -⟩ := buildCheckpoint_spec hbuilt
  refine verifyCheckpoint_eq_ok.2 ⟨list, ?_, ?_⟩
  · rwa [hsource, ← hbatch]
  · rwa [hsource, ← hbatch]

/-- A built block refers to the previous one of its shard. -/
theorem build_previous {batch : RatingBatch} {built : ReputationBlock}
    {context : ReputationBlockContext}
    (h : buildReputationBlockWithPenalties hasher context batch list config penalties = .ok built) :
    previousReputationHash hasher built.header.shardId built.header.round context.previousBlock =
      .ok built.header.previousReputationHash := by
  unfold buildReputationBlockWithPenalties at h
  simp only [bind_eq_ok, guard_eq_ok, not_not, Except.ok.injEq] at h
  obtain ⟨⟨⟩, -, ⟨⟩, -, ⟨⟩, -, round, -, -, -, _, hprevious, _, -, _, -, _, -, ⟨⟩, -, rfl⟩ := h
  exact hprevious

theorem buildCheckpoint_previous {batch : RatingBatch} {built : ReputationBlock}
    {context : CheckpointReputationBlockContext}
    (h : buildCheckpointReputationBlockWithPenalties hasher context batch list config penalties =
      .ok built) :
    previousReputationHash hasher built.header.shardId built.header.round context.previousBlock =
      .ok built.header.previousReputationHash := by
  unfold buildCheckpointReputationBlockWithPenalties at h
  simp only [bind_eq_ok, guard_eq_ok, not_not, Except.ok.injEq] at h
  obtain ⟨⟨⟩, -, ⟨⟩, -, ⟨⟩, -, ⟨⟩, -, -, -, _, hprevious, _, -, _, -, _, -, ⟨⟩, -, rfl⟩ := h
  exact hprevious

/-- **Builder and auditor agree on one block.**  In either format the block built from
the replayed list passes the audit on the same inputs, and no other block does. -/
theorem built_block_is_the_audited_one (hasher : List Byte → ContentHash)
    (previous : ReputationVector) (batch : RatingBatch) (config : PorConfig)
    (penalties : Option ReputationPenaltyEvents) (list : ReputationList)
    (hreplay : replayReputationTransitionWithPenalties hasher previous batch.ratings batch.round
      config penalties = .ok list) :
    (∀ context built,
      buildReputationBlockWithPenalties hasher context batch list config penalties = .ok built →
        verifyReputationTransitionWithPenalties hasher previous batch.ratings built context config
            penalties = .ok () ∧
          ∀ block, verifyReputationTransitionWithPenalties hasher previous batch.ratings block
            context config penalties = .ok () → block = built) ∧
    (∀ context built,
      buildCheckpointReputationBlockWithPenalties hasher context batch list config penalties =
          .ok built →
        verifyCheckpointReputationTransitionWithPenalties hasher previous batch.ratings built
            context config penalties = .ok () ∧
          ∀ block, verifyCheckpointReputationTransitionWithPenalties hasher previous batch.ratings
            block context config penalties = .ok () → block = built) := by
  -- what is accepted is built, with the round of the context, hence from the same list
  have hunique : ∀ {round : U64} {list' : ReputationList}, round = batch.round →
      replayReputationTransitionWithPenalties hasher previous batch.ratings round config penalties =
        .ok list' → list' = list := by
    rintro round list' rfl h
    exact Except.ok.inj (h.symm.trans hreplay)
  constructor
  · intro context built hbuilt
    obtain ⟨hwave, hbatch, -⟩ := build_spec hbuilt
    refine ⟨verify_eq_ok.2 ⟨list, hbatch ▸ hreplay, hbatch ▸ hbuilt⟩, fun block hblock => ?_⟩
    obtain ⟨list', hreplay', hbuilt'⟩ := verify_eq_ok.1 hblock
    have hround : block.header.round = batch.round := by
      rw [hbatch]
      exact Except.ok.inj ((build_spec hbuilt').1.symm.trans hwave)
    rw [hunique hround hreplay', hround] at hbuilt'
    exact Except.ok.inj (hbuilt'.symm.trans hbuilt)
  · intro context built hbuilt
    obtain ⟨-, hbatch, -⟩ := buildCheckpoint_spec hbuilt
    refine ⟨buildCheckpoint_verified hreplay hbuilt, fun block hblock => ?_⟩
    obtain ⟨list', hreplay', hbuilt'⟩ := verifyCheckpoint_eq_ok.1 hblock
    have hround : block.header.round = batch.round :=
      (buildCheckpoint_spec hbuilt').1.trans hbatch.symm
    rw [hunique hround hreplay', hround] at hbuilt'
    exact Except.ok.inj (hbuilt'.symm.trans hbuilt)

/-- Two active keys. -/
def sampleVector : ReputationVector := ⟨0, [.new ⟨[1]⟩ 200000000, .new ⟨[2]⟩ 400000000]⟩

/-- The first rates the second. -/
def sampleBatch : RatingBatch := ⟨1, [⟨1, ⟨[1]⟩, ⟨[2]⟩, 900000000, [7], none⟩]⟩

/-- Their reputations after the round. -/
def sampleList : ReputationList := ⟨1, [.new ⟨[1]⟩ 200000000, .new ⟨[2]⟩ 269629926]⟩

/-- The block built for it, in the wave format. -/
def sampleReputationBlock : ReputationBlock where
  header :=
    { version := 2
      shardId := [9]
      sourceFinalizedWave := 0
      sourceCheckpoint := none
      round := 1
      previousReputationHash := none
      configHash := 6116
      ratingsHash := 6299
      penaltiesHash := 4001
      reputationRoot := 4887 }
  reputationList := sampleList

theorem built_block_is_the_audited_one_sample :
    (verifyReputationTransitionWithPenalties sumHasher sampleVector sampleBatch.ratings
        sampleReputationBlock ⟨[9], 0, none⟩ .default none = .ok () ∧
      ∀ block, verifyReputationTransitionWithPenalties sumHasher sampleVector sampleBatch.ratings
        block ⟨[9], 0, none⟩ .default none = .ok () → block = sampleReputationBlock) ∧
    (∃ built, verifyCheckpointReputationTransitionWithPenalties sumHasher sampleVector
        sampleBatch.ratings built ⟨[9], ⟨1, 16, 5⟩, none⟩ .default none = .ok () ∧
      ∀ block, verifyCheckpointReputationTransitionWithPenalties sumHasher sampleVector
        sampleBatch.ratings block ⟨[9], ⟨1, 16, 5⟩, none⟩ .default none = .ok () →
          block = built) := by
  have hreplay : replayReputationTransitionWithPenalties sumHasher sampleVector
      sampleBatch.ratings sampleBatch.round .default none = .ok sampleList := by decide +kernel
  obtain ⟨hwave, hcheckpoint⟩ := built_block_is_the_audited_one sumHasher sampleVector sampleBatch
    .default none sampleList hreplay
  have hbuilt : buildReputationBlockWithPenalties sumHasher ⟨[9], 0, none⟩ sampleBatch sampleList
      .default none = .ok sampleReputationBlock := by decide +kernel
  have hsome : (buildCheckpointReputationBlockWithPenalties sumHasher ⟨[9], ⟨1, 16, 5⟩, none⟩
      sampleBatch sampleList .default none).isOk = true := by decide +kernel
  obtain ⟨built, hbuilt'⟩ := exists_eq_ok_of_isOk hsome
  exact ⟨hwave _ _ hbuilt, ⟨built, hcheckpoint _ built hbuilt'⟩⟩

end CordialMiners.Reputation
