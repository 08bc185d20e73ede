/-
# The two ways of committing a checkpoint round

`commit_completed_checkpoint_round` and `commit_completed_checkpoint_round_with_epoch` of
`por/runtime.rs`.

The first authorizes the carriers of the value again, in the runtime's own view; the second
takes the penalties that the value came with.  A value can have been authorized in another
view, under other bonds.  Where both accept one, they commit the same block with the same
penalties exactly if every validator has the same first carrier among those that count in the
runtime's view and those admitted with the value (`checkpoint_paths_agree_iff`).
-/

import CordialMiners.Reputation.Injectivity
import CordialMiners.Runtime.RuntimeRuns
import CordialMiners.Slashing.FirstCarriers

namespace CordialMiners.Reputation

open Codec (bind_eq_ok check_eq_ok guard_eq_ok
  map_eq_ok mapError_eq_ok)
open Storage Storage.Program
open CompletedCheckpointRatingRound FinalizedCheckpointAuthorization

/-- **Values that the crate builds**: from a closed exchange, and by admissions in any view. -/
inductive Built (env : PorEnv) : CompletedCheckpointRatingRound → Prop where
  | closed (checkpoint : FinalizedPrefixCheckpoint) (batch : RatingBatch)
      (carriers : OrderedSet PorEquivocationAuthorization) (state : ReputationState) :
      Built env (.new checkpoint batch carriers state)
  | authorized {completed authorized : CompletedCheckpointRatingRound} (h : Built env completed)
      (raw : List CordialEquivocationEvidence) (hround : ∀ claim ∈ raw, claim.round < 2 ^ 64)
      (B : Blocklace) (output : OrderedFinalizedOutput) (membership : Bonds) (shardId : List Byte)
      (hok : completed.withAuthorizedEquivocations env raw B output membership shardId =
        .ok authorized) : Built env authorized
  | finalized {completed authorized : CompletedCheckpointRatingRound} (h : Built env completed)
      (B : Blocklace) (output : OrderedFinalizedOutput) (membership : Bonds) (shardId : List Byte)
      (hok : completed.withFinalizedEquivocations env B output membership shardId =
        .ok authorized) : Built env authorized

/-- The carriers of a shard that count in a view. -/
def CompletedCheckpointRatingRound.Counted (env : PorEnv)
    (completed : CompletedCheckpointRatingRound) (policy : FinalizedCheckpointAuthorization)
    (shardId : List Byte) (carrier : PorEquivocationAuthorization) : Prop :=
  carrier ∈ completed.shardCarriers shardId ∧
    ∃ claim, policy.extractValidClaim env carrier shardId = .ok (some claim)

variable {env : PorEnv} {hasher : List Byte → ContentHash}
  {completed authorized : CompletedCheckpointRatingRound} {raw : List CordialEquivocationEvidence}
  {B : Blocklace} {output : OrderedFinalizedOutput} {membership : Bonds} {shardId : List Byte}
  {carrier : PorEquivocationAuthorization}

/-! ### What an admission admits -/

/-- **An admission** admits the carriers that count in its view, and the penalties are theirs. -/
theorem accounted_of_authorized (hround : ∀ claim ∈ raw, claim.round < 2 ^ 64)
    (h : completed.withAuthorizedEquivocations env raw B output membership shardId =
      .ok authorized) :
    authorized = completed.admitted env.hasher raw shardId ∧
      Accounted (completed.context shardId) raw
        (completed.Counted env (completed.policy B output membership) shardId) := by
  obtain ⟨-, hvalid, hadmissible, -, hauthorized⟩ := withAuthorizedEquivocations_eq_ok.1 h
  have hcounted : ∀ carrier,
      completed.Counted env (completed.policy B output membership) shardId carrier ↔
        carrier ∈ claimCarriers (completed.context shardId) raw := by
    intro carrier
    unfold Counted
    simp only [extractValidClaim_eq_some_iff]
    exact ((validAuthorizations_eq_ok.1 hvalid).2 carrier).symm
  refine ⟨hauthorized, fun carrier => (hcounted carrier).trans mem_claimCarriers,
    fun claim hclaim => (hadmissible claim hclaim).intent, hround, fun carrier hcarrier => ?_⟩
  obtain ⟨-, claim, hclaim⟩ := hcarrier
  have hcounts := extractValidClaim_eq_some_iff.1 hclaim
  exact ⟨claim, hcounts.decoded, hcounts.carrier_eq⟩

/-- The claims of the captured carriers are an explicit list. -/
theorem exists_authorized_of_finalized
    (h : completed.withFinalizedEquivocations env B output membership shardId = .ok authorized) :
    ∃ raw, (∀ claim ∈ raw, claim.round < 2 ^ 64) ∧
      completed.withAuthorizedEquivocations env raw B output membership shardId =
        .ok authorized := by
  obtain ⟨claims, hclaims, h⟩ := bind_eq_ok.1 h
  refine ⟨_, fun claim hclaim => ?_, h⟩
  rw [Codec.reduceOption_of_mapM hclaims] at hclaim
  obtain ⟨carrier, -, hcounts⟩ := mem_countedClaims.1 hclaim
  exact round_lt_of_decode hcounts.decoded

/-- A value admits carriers of the shard it is valid for. -/
theorem shardId_of_admitted (h : completed.validateCompleteAuthorizations shardId = .ok ())
    (hcarrier : carrier ∈ completed.admittedAuthorizations) : carrier.shardId = shardId := by
  obtain ⟨hcomplete, -⟩ := guard_eq_ok.1 h
  rw [not_or, not_not] at hcomplete
  have hmem : carrier ∈ keepMembers completed.finalizedAuthorizations (·.shardId = shardId) := by
    rw [hcomplete.2, mem_foldl_insert]
    exact Or.inr hcarrier
  simpa using (mem_keepMembers.1 hmem).2

/-- **What a built value holds**: nothing, or the penalties of the carriers it admitted. -/
theorem Built.penalties (h : Built env completed) :
    (completed.penalties = none ∧ completed.admittedAuthorizations = .empty) ∨
      ∃ shardId raw, completed.penalties =
          some (penaltyEvents env.hasher (completed.context shardId) raw) ∧
        Accounted (completed.context shardId) raw (· ∈ completed.admittedAuthorizations) := by
  have hadmitted : ∀ {completed authorized : CompletedCheckpointRatingRound}
      {raw : List CordialEquivocationEvidence} {B : Blocklace} {output : OrderedFinalizedOutput}
      {membership : Bonds} {shardId : List Byte}, (∀ claim ∈ raw, claim.round < 2 ^ 64) →
      completed.withAuthorizedEquivocations env raw B output membership shardId = .ok authorized →
      ∃ shardId raw, authorized.penalties =
          some (penaltyEvents env.hasher (authorized.context shardId) raw) ∧
        Accounted (authorized.context shardId) raw (· ∈ authorized.admittedAuthorizations) := by
    intro completed authorized raw B output membership shardId hround h
    obtain ⟨rfl, haccounted⟩ := accounted_of_authorized hround h
    refine ⟨shardId, raw, rfl, fun _ => mem_claimCarriers, haccounted.intent, hround,
      fun carrier hcarrier => ?_⟩
    exact haccounted.decoded carrier ((haccounted.carriers_iff carrier).2 (mem_claimCarriers.1 hcarrier))
  cases h with
  | closed checkpoint batch carriers state => exact Or.inl ⟨rfl, rfl⟩
  | authorized h raw hround B output membership shardId hok => exact Or.inr (hadmitted hround hok)
  | finalized h B output membership shardId hok =>
      obtain ⟨raw, hround, hok⟩ := exists_authorized_of_finalized hok
      exact Or.inr (hadmitted hround hok)

theorem accounted_nil {context : CheckpointEquivocationAuthorizationContext}
    {carriers : PorEquivocationAuthorization → Prop} (h : ∀ carrier, ¬ carriers carrier) :
    Accounted context [] carriers :=
  ⟨fun carrier => by simp [h carrier], by simp, by simp, fun carrier hcarrier => absurd hcarrier (h carrier)⟩

/-- The penalties of a built value are those of the carriers it admitted for the shard. -/
theorem Built.resolved (h : Built env completed)
    (hvalid : completed.validateCompleteAuthorizations shardId = .ok ()) :
    ∃ raw, (completed.penalties = some (penaltyEvents env.hasher (completed.context shardId) raw) ∨
        completed.penalties = none ∧ raw = []) ∧
      Accounted (completed.context shardId) raw (· ∈ completed.admittedAuthorizations) := by
  rcases h.penalties with ⟨hnone, hempty⟩ | ⟨shardId', raw, hsome, haccounted⟩
  · exact ⟨[], Or.inr ⟨hnone, rfl⟩, accounted_nil fun carrier => by simp [hempty]⟩
  · cases raw with
    | nil =>
        refine ⟨[], Or.inl hsome, accounted_nil fun carrier hcarrier => ?_⟩
        simpa using (haccounted.carriers_iff carrier).1 hcarrier
    | cons claim raw =>
        have hmem := (haccounted.carriers_iff _).2 ⟨claim, List.mem_cons_self, rfl⟩
        obtain rfl : shardId' = shardId := shardId_of_admitted hvalid hmem
        exact ⟨claim :: raw, Or.inl hsome, haccounted⟩

/-! ### Penalties and blocks -/

variable {previous : ReputationVector} {ratings : List RatingRecord} {round : U64}
  {config : PorConfig} {list list' : ReputationList}

/-- No events and an explicit empty set of events are committed to alike. -/
theorem penaltyEventsCommitment_empty (hasher : List Byte → ContentHash) (round : U64) :
    penaltyEventsCommitment hasher round (some ⟨round, [], []⟩) =
      penaltyEventsCommitment hasher round none := by
  unfold penaltyEventsCommitment
  simp

/-- A replay without events is one with an empty set of them. -/
theorem replay_empty
    (h : replayReputationTransitionWithPenalties hasher previous ratings round config none = .ok list)
    (h' : replayReputationTransitionWithPenalties hasher previous ratings round config
      (some ⟨round, [], []⟩) = .ok list') : list = list' := by
  unfold replayReputationTransitionWithPenalties at h h'
  simp only [bind_eq_ok] at h h'
  obtain ⟨_, -, _, -, _, -, batch, hbatch, matrix, hmatrix, normalized, hnormalized, contribution,
    hcontribution, blended, hblended, clamped, hclamped, h⟩ := h
  obtain ⟨_, -, _, -, _, -, _, hbatch', _, hmatrix', _, hnormalized', _, hcontribution', _, hblended',
    _, hclamped', h'⟩ := h'
  obtain rfl := Except.ok.inj (hbatch.symm.trans hbatch')
  obtain rfl := Except.ok.inj (hmatrix.symm.trans hmatrix')
  obtain rfl := Except.ok.inj (hnormalized.symm.trans hnormalized')
  obtain rfl := Except.ok.inj (hcontribution.symm.trans hcontribution')
  obtain rfl := Except.ok.inj (hblended.symm.trans hblended')
  obtain rfl := Except.ok.inj (hclamped.symm.trans hclamped')
  obtain ⟨-, h'⟩ := check_eq_ok.1 h'
  obtain ⟨-, h'⟩ := guard_eq_ok.1 h'
  exact (Except.ok.inj h).symm.trans (Except.ok.inj h')

/-- A block without events is one with an empty set of them. -/
theorem buildCheckpoint_empty (hasher : List Byte → ContentHash)
    (context : CheckpointReputationBlockContext) (batch : RatingBatch) (list : ReputationList)
    (config : PorConfig) :
    buildCheckpointReputationBlockWithPenalties hasher context batch list config
        (some ⟨context.source.round, [], []⟩) =
      buildCheckpointReputationBlockWithPenalties hasher context batch list config none := by
  unfold buildCheckpointReputationBlockWithPenalties
  rw [penaltyEventsCommitment_empty]
  rfl

/-- What a block commits its penalties to. -/
theorem buildCheckpoint_penaltiesHash {batch : RatingBatch} {built : ReputationBlock}
    {context : CheckpointReputationBlockContext} {penalties : Option ReputationPenaltyEvents}
    (h : buildCheckpointReputationBlockWithPenalties hasher context batch list config penalties =
      .ok built) :
    penaltyEventsCommitment hasher context.source.round penalties =
      .ok built.header.penaltiesHash := by
  unfold buildCheckpointReputationBlockWithPenalties at h
  simp only [bind_eq_ok, guard_eq_ok, not_not, Except.ok.injEq] at h
  obtain ⟨⟨⟩, -, ⟨⟩, -, ⟨⟩, -, ⟨⟩, -, -, -, _, -, _, -, _, hpenalties, _, -, ⟨⟩, -, rfl⟩ := h
  exact hpenalties

variable {state staged staged' : ReputationState} {applied applied' : AppliedPorReputationRound}
  {completed' : CompletedCheckpointRatingRound}

/-- **Values that differ in nothing but carriers stage one block.** -/
theorem stage_block_congr (hsource : completed.source = completed'.source)
    (hbatch : completed.batch = completed'.batch)
    (hpenalties : completed.penalties = completed'.penalties ∨
      completed.penalties = none ∧ completed'.penalties = some ⟨completed'.source.round, [], []⟩)
    (h : stageCompletedCheckpointRound hasher completed state config shardId = .ok (staged, applied))
    (h' : stageCompletedCheckpointRound hasher completed' state config shardId =
      .ok (staged', applied')) : applied.block = applied'.block := by
  obtain ⟨-, -, ⟨list, hreplay, hbuilt⟩, -⟩ := stageCompletedCheckpointRound_eq_ok.1 h
  obtain ⟨-, -, ⟨list', hreplay', hbuilt'⟩, -⟩ := stageCompletedCheckpointRound_eq_ok.1 h'
  rw [hsource, hbatch] at hbuilt
  rw [hbatch] at hreplay
  rcases hpenalties with heq | ⟨hnone, hempty⟩
  · rw [heq] at hreplay hbuilt
    obtain rfl := Except.ok.inj (hreplay.symm.trans hreplay')
    exact Except.ok.inj (hbuilt.symm.trans hbuilt')
  · have hround := (buildCheckpoint_spec hbuilt').2.1
    rw [hnone] at hreplay hbuilt
    rw [hempty] at hreplay' hbuilt'
    dsimp only at hround
    rw [hround] at hreplay hreplay'
    obtain rfl := replay_empty hreplay hreplay'
    exact Except.ok.inj (hbuilt.symm.trans ((buildCheckpoint_empty hasher
      ⟨shardId, completed'.source, state.latestBlock⟩ completed'.batch list config).symm.trans hbuilt'))

/-! ### Evidence and commitments -/

/-- Offenders with their evidence, as they are committed to. -/
def committedEvidence (penalties : Option ReputationPenaltyEvents) : List (NodeId × List Byte) :=
  (sortedEquivocations penalties).map fun event => (event.offender, event.evidence)

theorem mem_committedEvidence {events : ReputationPenaltyEvents} {pair : NodeId × List Byte} :
    pair ∈ committedEvidence (some events) ↔
      ∃ event ∈ events.equivocations, event.offender = pair.1 ∧ event.evidence = pair.2 := by
  unfold committedEvidence sortedEquivocations
  rw [List.mem_map]
  refine exists_congr fun event => and_congr ?_ Prod.ext_iff
  exact (List.perm_insertionSort _ _).mem_iff

theorem committedEvidence_congr {penalties penalties' : Option ReputationPenaltyEvents}
    (h : sortedEquivocations penalties = sortedEquivocations penalties') :
    committedEvidence penalties = committedEvidence penalties' := by
  unfold committedEvidence
  rw [h]

/-- The bytes of penalties are within the limit of a block. -/
theorem length_penaltyEventsPreimage {penalties : Option ReputationPenaltyEvents} {bytes : List Byte}
    (h : penaltyEventsPreimage hasher round penalties = .ok bytes) :
    bytes.length ≤ maxBlockWireLen := by
  have hsize : ∀ {equivocations inactivity},
      penaltiesPreimage hasher round equivocations inactivity = .ok bytes →
        bytes.length ≤ maxBlockWireLen := by
    intro equivocations inactivity h
    obtain ⟨_, -, h⟩ := bind_eq_ok.1 h
    obtain ⟨_, -, h⟩ := bind_eq_ok.1 h
    obtain ⟨hsize, h⟩ := guard_eq_ok.1 h
    obtain rfl := Except.ok.inj h
    exact not_lt.1 hsize
  cases penalties with
  | none => exact hsize h
  | some events =>
      obtain ⟨-, h⟩ := guard_eq_ok.1 h
      obtain ⟨-, h⟩ := guard_eq_ok.1 h
      exact hsize h

/-- The bytes of two penalties are different and have one hash. -/
def PenaltiesCollide (hasher : List Byte → ContentHash) (round : U64)
    (penalties penalties' : Option ReputationPenaltyEvents) : Prop :=
  ∃ bytes bytes', penaltyEventsPreimage hasher round penalties = .ok bytes ∧
    penaltyEventsPreimage hasher round penalties' = .ok bytes' ∧
      bytes ≠ bytes' ∧ hasher bytes = hasher bytes'

/-- **Penalties with one commitment hold the same evidence**, or their hashes collide. -/
theorem committedEvidence_of_commitment {penalties penalties' : Option ReputationPenaltyEvents}
    {hash : ReputationCommitment}
    (h : penaltyEventsCommitment hasher round penalties = .ok hash)
    (h' : penaltyEventsCommitment hasher round penalties' = .ok hash) :
    committedEvidence penalties = committedEvidence penalties' ∨
      PenaltiesCollide hasher round penalties penalties' := by
  rw [penaltyEventsCommitment_eq] at h h'
  obtain ⟨bytes, hbytes, rfl⟩ := map_eq_ok.1 h
  obtain ⟨bytes', hbytes', hhash⟩ := map_eq_ok.1 h'
  by_cases heq : bytes = bytes'
  · have hlength := length_penaltyEventsPreimage hbytes
    have hbody := penaltyEventsPreimage_eq hbytes
    rw [heq, penaltyEventsPreimage_eq hbytes', List.append_cancel_left_eq] at hbody
    have hcommitted : (Preimaged.penaltyEvents round penalties').committed =
        (Preimaged.penaltyEvents round penalties).committed := by
      refine Committed.body_inj trivial trivial rfl ?_ hbody
      rw [heq, penaltyEventsPreimage_eq hbytes', List.length_append] at hlength
      have hmax : maxBlockWireLen < 256 ^ 8 := by decide
      omega
    exact Or.inl (Committed.penaltyEvents.inj hcommitted).2.1.symm
  · exact Or.inr ⟨bytes, bytes', hbytes, hbytes', heq, hhash.symm⟩

/-! ### What the two commits stage -/

variable {process : DurablePorState} {rt next : PorRuntime} {files files' : PorFiles}
  {policy : PorWeightEpochPolicy} {committed : CommittedPorRound}

theorem spec_returns {α : Type} (p : Program Files Empty α) (durable : Files) :
    p.Spec durable (fun _ => True) (Returns fun _ _ => True) := by
  refine ⟨fun _ _ => trivial, ?_⟩
  cases hresult : (p durable).result with
  | ok a => exact ⟨a, rfl, trivial⟩
  | error e => exact e.elim

/-- What is committed is what was staged. -/
theorem applied_of_applyTransition {durable : Files}
    {transition : ReputationState → Except PorError (ReputationState × AppliedPorReputationRound)}
    (hok : (finish (process.applyTransition hasher transition) durable).1.1 = .ok applied) :
    ∃ staged, transition process.state = .ok (staged, applied) := by
  unfold DurablePorState.applyTransition at hok
  split at hok
  · cases hok
  split at hok
  · cases hok
  · next staged applied' htransition =>
      refine ⟨staged, ?_⟩
      have hspec : (process.commitStaged hasher staged applied').Spec durable (fun _ => True)
          (Returns fun out _ => ∀ applied, out.1 = .ok applied → applied = applied') := by
        unfold DurablePorState.commitStaged
        refine Spec.bind_returns (spec_returns _ _) fun written t _ _ => ?_
        cases written with
        | error error => exact Spec.pure_returns trivial fun applied happlied => by cases happlied
        | ok _ =>
            refine Spec.bind_returns (spec_returns _ _) fun appended t _ _ => ?_
            obtain ⟨error | _, history⟩ := appended
            · exact Spec.pure_returns trivial fun applied happlied => by cases happlied
            · exact Spec.pure_returns trivial fun applied happlied => (Except.ok.inj happlied).symm
      rw [finish_spec hspec applied hok]
      exact htransition

/-- A poll changes neither the blocks nor the bonds. -/
theorem latestFinalizedOrderedOutput_view (hasher : List Byte → ContentHash)
    (ingress : Output.LiveIngress) (wavelength : ℕ) :
    (ingress.latestFinalizedOrderedOutput hasher wavelength).2.mirror = ingress.mirror ∧
      (ingress.latestFinalizedOrderedOutput hasher wavelength).2.bonds = ingress.bonds := by
  unfold Output.LiveIngress.latestFinalizedOrderedOutput
  split
  · unfold Output.LiveIngress.pollFutureEpoch
    split
    · exact ⟨rfl, rfl⟩
    split_ifs
    · exact ⟨rfl, rfl⟩
    split
    · exact ⟨rfl, rfl⟩
    · exact ⟨rfl, rfl⟩
  · unfold Output.LiveIngress.pollOrdinary
    split
    · exact ⟨rfl, rfl⟩
    split
    · exact ⟨rfl, rfl⟩
    dsimp only
    split
    · exact ⟨rfl, rfl⟩
    · exact ⟨rfl, rfl⟩

/-- **A runtime without an epoch that publishes** keeps its view, and holds what it published. -/
theorem publishFinalizedOutput_ok (hepoch : rt.epochRecord = none)
    (hok : (rt.publishFinalizedOutput hasher).1 = .ok output) :
    ∃ ingress : Output.LiveIngress, (rt.publishFinalizedOutput hasher).2 = { rt with ingress := ingress } ∧
      ingress.blocklace = rt.ingress.blocklace ∧ ingress.bonds = rt.ingress.bonds ∧
        ingress.sharedOrderedOutput.latest = some output := by
  unfold PorRuntime.publishFinalizedOutput at hok ⊢
  rw [hepoch] at hok ⊢
  dsimp only at hok ⊢
  obtain ⟨found, hfound, hok⟩ := bind_eq_ok.1 hok
  obtain ⟨ready, -, hok⟩ := bind_eq_ok.1 hok
  obtain ⟨-, hok⟩ := guard_eq_ok.1 hok
  obtain rfl := Except.ok.inj hok
  obtain ⟨hmirror, hbonds⟩ :=
    latestFinalizedOrderedOutput_view hasher rt.ingress rt.wavelength
  obtain ⟨-, hpublished⟩ :=
    Output.LiveIngress.latestFinalizedOrderedOutput_spec hasher rt.ingress rt.wavelength
  refine ⟨_, rfl, ?_, hbonds, ?_⟩
  · unfold Output.LiveIngress.blocklace
    rw [hmirror]
  · rw [hpublished _ (mapError_eq_ok.1 hfound)]

/-- What a commit and its activation return is what was staged. -/
theorem applied_of_commitAndActivate
    {transition : ReputationState → Except PorError (ReputationState × AppliedPorReputationRound)}
    (hok : (rt.commitAndActivate hasher files (rt.state.applyTransition hasher transition)).1 =
      .ok committed) : ∃ staged, transition rt.state.state = .ok (staged, committed.applied) := by
  unfold PorRuntime.commitAndActivate at hok
  dsimp only at hok
  split at hok
  · cases hok
  · next applied happlied =>
      obtain rfl := Except.ok.inj hok
      exact applied_of_applyTransition happlied

/-- **A checkpoint round** is staged with the carriers that count in the runtime's own view. -/
theorem staged_of_commitCheckpoint
    (hok : (rt.commitCompletedCheckpointRound env files completed).1 = .ok committed) :
    ∃ output own staged, (rt.publishFinalizedOutput env.hasher).1 = .ok output ∧
      completed.withFinalizedEquivocations env rt.ingress.blocklace output rt.ingress.bonds
        rt.shardId = .ok own ∧
      stageCompletedCheckpointRound env.hasher own rt.state.state rt.config rt.shardId =
        .ok (staged, committed.applied) := by
  unfold PorRuntime.commitCompletedCheckpointRound at hok
  split at hok
  · cases hok
  next hnone =>
  have hepoch : rt.epochRecord = none := by simpa using hnone
  dsimp only at hok
  split at hok
  · cases hok
  · cases hok
  split at hok
  · cases hok
  · next own haudited =>
      obtain ⟨output, houtput, haudited⟩ := bind_eq_ok.1 haudited
      obtain ⟨ingress, hpublished, hblocklace, hbonds, hlatest⟩ :=
        publishFinalizedOutput_ok hepoch houtput
      rw [hpublished] at haudited hok
      obtain ⟨-, haudited⟩ := check_eq_ok.1 haudited
      obtain ⟨own', hown, haudited⟩ := bind_eq_ok.1 haudited
      obtain ⟨_, -, haudited⟩ := bind_eq_ok.1 haudited
      obtain ⟨_, -, haudited⟩ := bind_eq_ok.1 haudited
      obtain rfl := Except.ok.inj (check_eq_ok.1 haudited).2
      obtain ⟨_, -, hown⟩ := bind_eq_ok.1 hown
      obtain ⟨-, hown⟩ := check_eq_ok.1 hown
      obtain ⟨found, hfound, hown⟩ := bind_eq_ok.1 hown
      obtain rfl := Option.some.inj (hlatest.symm.trans (okOr_eq_ok.1 hfound))
      have hown := mapError_eq_ok.1 hown
      dsimp only at hown
      rw [hblocklace, hbonds] at hown
      obtain ⟨staged, hstaged⟩ := applied_of_commitAndActivate (mapError_eq_ok.1 hok)
      exact ⟨output, own', staged, houtput, hown, hstaged⟩

/-- **A checkpoint round with an epoch** is staged as it came. -/
theorem staged_of_commitCheckpointWithEpoch
    (hok : (rt.commitCompletedCheckpointRoundWithEpoch env files completed policy).1 =
      .ok applied) :
    ∃ staged, stageCompletedCheckpointRound env.hasher completed rt.state.state rt.config
      rt.shardId = .ok (staged, applied) := by
  obtain ⟨ingress, hpublished⟩ := publishFinalizedOutput_snd env.hasher rt
  unfold PorRuntime.commitCompletedCheckpointRoundWithEpoch at hok
  dsimp only at hok
  rw [hpublished] at hok
  split at hok
  · cases hok
  split at hok
  · cases hok
  · cases hok
  split at hok
  · cases hok
  split at hok
  · cases hok
  · unfold PorRuntime.commitEpoch at hok
    dsimp only at hok
    split at hok
    · cases hok
    · next applied' happlied =>
        split at hok
        · cases hok
        · obtain rfl := Except.ok.inj hok
          exact applied_of_applyTransition happlied

/-! ### The two commits -/

/-- Every validator has the same first carrier among those that count in the view of the runtime
and those that the value was admitted with. -/
def PorRuntime.SameCarriers (env : PorEnv) (rt : PorRuntime) (output : OrderedFinalizedOutput)
    (completed : CompletedCheckpointRatingRound) : Prop :=
  SameFirst (completed.context rt.shardId)
    (completed.Counted env (completed.policy rt.ingress.blocklace output rt.ingress.bonds) rt.shardId)
    (· ∈ completed.admittedAuthorizations)

/-- Where the penalties hold the same evidence, the first carriers are the same. -/
theorem Accounted.sameFirst {context : CheckpointEquivocationAuthorizationContext}
    {raw raw' : List CordialEquivocationEvidence}
    {carriers carriers' : PorEquivocationAuthorization → Prop} (h : Accounted context raw carriers)
    (h' : Accounted context raw' carriers')
    (hevidence : committedEvidence (some (penaltyEvents hasher context raw)) =
      committedEvidence (some (penaltyEvents hasher context raw'))) :
    SameFirst context carriers carriers' := by
  have hmem : ∀ pair : NodeId × List Byte, (∃ event ∈ (penaltyEvents hasher context raw).equivocations,
      event.offender = pair.1 ∧ event.evidence = pair.2) ↔
        ∃ event ∈ (penaltyEvents hasher context raw').equivocations,
          event.offender = pair.1 ∧ event.evidence = pair.2 := by
    intro pair
    rw [← mem_committedEvidence, hevidence, mem_committedEvidence]
  intro v carrier
  constructor
  · refine h.firstAgainst_of_evidence h' (?_ : ∀ event ∈ (penaltyEvents hasher context raw).equivocations, _)
    exact fun event hevent => (hmem (event.offender, event.evidence)).1 ⟨event, hevent, rfl, rfl⟩
  · refine h'.firstAgainst_of_evidence h (?_ : ∀ event ∈ (penaltyEvents hasher context raw').equivocations, _)
    exact fun event hevent => (hmem (event.offender, event.evidence)).2 ⟨event, hevent, rfl, rfl⟩

/-- **The two commits agree exactly on values whose first carriers are those of the runtime**:
then they commit one block, with the same penalties.  One block with different penalties takes
a collision of hashes. -/
theorem checkpoint_paths_agree_iff (hbuilt : Built env completed)
    (hcommitted : (rt.commitCompletedCheckpointRound env files completed).1 = .ok committed)
    (happlied : (rt.commitCompletedCheckpointRoundWithEpoch env files completed policy).1 =
      .ok applied) :
    ∃ output own, (rt.publishFinalizedOutput env.hasher).1 = .ok output ∧
      completed.withFinalizedEquivocations env rt.ingress.blocklace output rt.ingress.bonds
        rt.shardId = .ok own ∧
      (committed.applied.block = applied.block ∧
          sortedEquivocations own.penalties = sortedEquivocations completed.penalties ↔
        rt.SameCarriers env output completed) ∧
      (committed.applied.block = applied.block → rt.SameCarriers env output completed ∨
        PenaltiesCollide env.hasher completed.source.round own.penalties completed.penalties) := by
  obtain ⟨output, own, staged, hpublished, hown, hstaged⟩ := staged_of_commitCheckpoint hcommitted
  obtain ⟨staged', hstaged'⟩ := staged_of_commitCheckpointWithEpoch happlied
  obtain ⟨raw, hround, hauthorized⟩ := exists_authorized_of_finalized hown
  obtain ⟨rfl, hcounted⟩ := accounted_of_authorized hround hauthorized
  obtain ⟨-, hvalid, ⟨_, -, hblock'⟩, -⟩ := stageCompletedCheckpointRound_eq_ok.1 hstaged'
  obtain ⟨-, -, ⟨_, -, hblock⟩, -⟩ := stageCompletedCheckpointRound_eq_ok.1 hstaged
  obtain ⟨raw', hpenalties, hadmitted⟩ := hbuilt.resolved hvalid
  -- without penalties the evidence is that of no claims
  have hsorted : sortedEquivocations completed.penalties = sortedEquivocations
      (some (penaltyEvents env.hasher (completed.context rt.shardId) raw')) := by
    rcases hpenalties with hsome | ⟨hnone, rfl⟩
    · rw [hsome]
    · rw [hnone]
      rfl
  have hevidence := committedEvidence_congr hsorted
  refine ⟨output, _, hpublished, hown, ⟨fun h => ?_, fun h => ?_⟩, fun h => ?_⟩
  · exact hcounted.sameFirst hadmitted ((committedEvidence_congr h.2).trans hevidence)
  · have hevents : penaltyEvents env.hasher (completed.context rt.shardId) raw =
        penaltyEvents env.hasher (completed.context rt.shardId) raw' :=
      hcounted.penaltyEvents_congr hadmitted h
    constructor
    · refine (stage_block_congr ?_ ?_ ?_ hstaged' hstaged).symm
      · rfl
      · rfl
      · rcases hpenalties with hsome | ⟨hnone, rfl⟩
        · exact Or.inl (hsome.trans (congrArg some hevents.symm))
        · exact Or.inr ⟨hnone, congrArg some hevents⟩
    · rw [hsorted, ← hevents]
      rfl
  · have hhash := buildCheckpoint_penaltiesHash hblock
    rw [h] at hhash
    refine (committedEvidence_of_commitment hhash (buildCheckpoint_penaltiesHash hblock')).imp_left
      fun hsame => ?_
    exact hcounted.sameFirst hadmitted (hsame.trans hevidence)

/-! ### A validator that another view knows -/

open Blocklace (sampleId)

/-- A conflict of a validator that is no member of the runtime. -/
def foreignClaims : List CordialEquivocationEvidence := [conflictClaim 1 31 1 [sampleId 1 3]]

/-- A view with that validator. -/
def foreignBonds : Bonds := ⟨(AList.singleton ⟨[3]⟩ 600000000).insert ⟨[1]⟩ 1, by decide⟩

/-- A round without ratings, closed over the chain with the carrier of the conflict. -/
def foreignClosed : CompletedCheckpointRatingRound :=
  .new runtimeCheckpoint ⟨1, []⟩
    (claimCarriers ⟨[9], runtimeCheckpoint.ratingSource⟩ foreignClaims) runtimeState

/-- The round as it is admitted in that view. -/
def foreignAdmitted (output : OrderedFinalizedOutput) :
    Except PorError CompletedCheckpointRatingRound :=
  foreignClosed.withFinalizedEquivocations (runtimeEnv foreignClaims)
    (runtimeIngress foreignClaims).blocklace output foreignBonds [9]

theorem built_foreignAdmitted (h : (foreignAdmitted output).toOption = some completed) :
    Built (runtimeEnv foreignClaims) completed :=
  .finalized (.closed runtimeCheckpoint ⟨1, []⟩
    (claimCarriers ⟨[9], runtimeCheckpoint.ratingSource⟩ foreignClaims) runtimeState)
    (runtimeIngress foreignClaims).blocklace output foreignBonds [9] (Codec.eq_ok_of_toOption h)

/-- What the two commits make of the round, in a runtime that was just opened. -/
def foreignCommits (rt : PorRuntime) (completed : CompletedCheckpointRatingRound) :
    Option (CommittedPorRound × AppliedPorReputationRound) := do
  let committed ← (rt.commitCompletedCheckpointRound (runtimeEnv foreignClaims)
    (runtimeOpened foreignClaims).2 completed).1.toOption
  let applied ← (rt.commitCompletedCheckpointRoundWithEpoch (runtimeEnv foreignClaims)
    (runtimeOpened foreignClaims).2 completed ⟨1, nextWave_positive⟩).1.toOption
  pure (committed, applied)

/-- Both commits succeed, with different blocks. -/
theorem foreignCommits_differ : ∃ rt completed committed applied,
    (runtimeOpened foreignClaims).1.toOption = some rt ∧
      Built (runtimeEnv foreignClaims) completed ∧
      (rt.commitCompletedCheckpointRound (runtimeEnv foreignClaims)
        (runtimeOpened foreignClaims).2 completed).1 = .ok committed ∧
      (rt.commitCompletedCheckpointRoundWithEpoch (runtimeEnv foreignClaims)
        (runtimeOpened foreignClaims).2 completed
        ⟨1, Fin.ne_of_val_ne Nat.one_ne_zero⟩).1 = .ok applied ∧
      committed.applied.block ≠ applied.block := by
  have hrun : ((runtimeOpened foreignClaims).1.toOption.any fun rt =>
      (rt.publishFinalizedOutput sumHasher).1.toOption.any fun output =>
        (foreignAdmitted output).toOption.any fun completed =>
          (foreignCommits rt completed).any fun out =>
            decide (out.1.applied.block ≠ out.2.block)) = true := by decide +kernel
  obtain ⟨rt, hrt, hrun⟩ := (Option.any_eq_true _ _).1 hrun
  obtain ⟨output, -, hrun⟩ := (Option.any_eq_true _ _).1 hrun
  obtain ⟨completed, hcompleted, hrun⟩ := (Option.any_eq_true _ _).1 hrun
  obtain ⟨⟨committed, applied⟩, hcommits, hdiffer⟩ := (Option.any_eq_true _ _).1 hrun
  unfold foreignCommits at hcommits
  obtain ⟨committed', hcommitted, hcommits⟩ := Option.bind_eq_some_iff.1 hcommits
  obtain ⟨applied', happlied, hcommits⟩ := Option.bind_eq_some_iff.1 hcommits
  obtain ⟨rfl, rfl⟩ := Prod.mk.inj (Option.some.inj hcommits)
  exact ⟨rt, completed, committed', applied', hrt, built_foreignAdmitted hcompleted,
    Codec.eq_ok_of_toOption hcommitted, Codec.eq_ok_of_toOption happlied, of_decide_eq_true hdiffer⟩

/-- Both commits accept a round whose first carriers are not those of the runtime. -/
theorem checkpoint_paths_agree_iff_foreign : ∃ rt completed output,
    (runtimeOpened foreignClaims).1.toOption = some rt ∧
      Built (runtimeEnv foreignClaims) completed ∧
      (rt.publishFinalizedOutput sumHasher).1 = .ok output ∧
      ¬ rt.SameCarriers (runtimeEnv foreignClaims) output completed := by
  obtain ⟨rt, completed, committed, applied, hrt, hbuilt, hcommitted, happlied, hdiffer⟩ :=
    foreignCommits_differ
  obtain ⟨output, own, houtput, -, hagree, -⟩ :=
    checkpoint_paths_agree_iff hbuilt hcommitted happlied
  exact ⟨rt, completed, output, hrt, hbuilt, houtput, fun hsame => hdiffer (hagree.2 hsame).1⟩

/-- **The two commits of one value can differ**, in a runtime that was just opened. -/
theorem checkpoint_paths_can_differ :
    ¬ ∀ (env : PorEnv) (crypto : RatingCrypto) (rt : PorRuntime) (files : PorFiles)
      (completed : CompletedCheckpointRatingRound) (policy : PorWeightEpochPolicy)
      (committed : CommittedPorRound) (applied : AppliedPorReputationRound),
      PorRuns env crypto (fun _ _ => True) rt files → Built env completed →
      (rt.commitCompletedCheckpointRound env files completed).1 = .ok committed →
      (rt.commitCompletedCheckpointRoundWithEpoch env files completed policy).1 = .ok applied →
        committed.applied.block = applied.block := by
  intro h
  obtain ⟨rt, completed, committed, applied, hrt, hbuilt, hcommitted, happlied, hdiffer⟩ :=
    foreignCommits_differ
  exact hdiffer (h (runtimeEnv foreignClaims) keyedCrypto rt (runtimeOpened foreignClaims).2
    completed _ committed applied (porRuns_runtimeOpened hrt) hbuilt hcommitted happlied)

end CordialMiners.Reputation
