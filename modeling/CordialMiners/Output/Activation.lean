/-
# Activating reputation weights

`apply_por_weights` of `live_ingress.rs`, with `checked_por_weights` behind it: the
reputations of the bonded validators become their weights, once the round they come from
is published and the blocklace, ordered with the new weights, still starts with what is
published.

The check orders with an empty cache; a poll goes by fingerprints, saved prefixes and the
guard of the published output.  An activation that succeeds leaves the poll nothing but
the ordering that was checked, and one that fails leaves the ingress as it was
(`activation_keeps_output`).
-/

import CordialMiners.Output.Ingress
import CordialMiners.Output.PastWaves
import CordialMiners.Reputation.State

namespace CordialMiners.Output

open Codec (bind_eq_ok check_eq_ok guard_eq_ok mapError_eq_ok)
open Persistence (ValidatedF1r3nodeBlock RSpaceBlocklaceRepository)
open Reputation (OrderedFinalizedOutput PorError PorWeightEpochRecord ReputationState
  ReputationEntry finalizedPrefixCheckpoint leaderOfWave sortedValidators)

/-! ### The projection -/

/-- The table of some weights. -/
def weightEntries (weights : List (NodeId × U64)) : List (Sigma fun _ : NodeId => U64) :=
  weights.map fun pair => ⟨pair.1, pair.2⟩

theorem keys_weightEntries (weights : List (NodeId × U64)) :
    (weightEntries weights).keys = weights.map Prod.fst := by
  unfold weightEntries List.keys
  rw [List.map_map]
  rfl

theorem orderedValidators_perm (bonds : Bonds) :
    (orderedValidators bonds).Perm bonds.table.keys := List.perm_insertionSort _ _

theorem orderedValidators_nodup (bonds : Bonds) : (orderedValidators bonds).Nodup :=
  (orderedValidators_perm bonds).nodup_iff.2 bonds.table.keys_nodup

variable {s : ReputationState} {bonds next : Bonds}

theorem keys_of_authorizedValidatorWeights {weights : List (NodeId × U64)}
    (h : s.authorizedValidatorWeights (orderedValidators bonds) = .ok weights) :
    (weightEntries weights).keys = orderedValidators bonds := by
  rw [keys_weightEntries]
  exact ReputationState.authorizedValidatorWeights_keys (orderedValidators_nodup bonds) h

/-- `authorized_validator_weights` for the bonded validators. -/
def projectedWeights (s : ReputationState) (bonds : Bonds) : Except PorError Bonds :=
  match h : s.authorizedValidatorWeights (orderedValidators bonds) with
  | .error error => .error error
  | .ok weights =>
      .ok
        { table := ⟨weightEntries weights, by
            unfold List.NodupKeys
            rw [keys_of_authorizedValidatorWeights h]
            exact orderedValidators_nodup bonds⟩
          entries_lt := by
            have hkeys := congrArg List.length (keys_of_authorizedValidatorWeights h)
            have hperm := (orderedValidators_perm bonds).length_eq
            have hlt := bonds.entries_lt
            simp only [List.keys, AList.keys, List.length_map] at hkeys hperm
            show (weightEntries weights).length < 2 ^ 58
            omega }

/-- **A projection keeps the validators.** -/
theorem orderedValidators_of_projectedWeights (h : projectedWeights s bonds = .ok next) :
    orderedValidators next = orderedValidators bonds := by
  unfold projectedWeights at h
  split at h
  · cases h
  · next weights hweights =>
      obtain rfl := Except.ok.inj h
      show sortedValidators (weightEntries weights).keys = orderedValidators bonds
      rw [keys_of_authorizedValidatorWeights hweights]
      exact (List.pairwise_insertionSort (· ≤ ·) bonds.table.keys).insertionSort_eq

/-! ### The checks -/

/-- The errors of `PorWeightActivationError` that an activation can end with. -/
inductive PorWeightActivationError where
  | projection (error : PorError)
  | missingReputationCheckpoint (round : U64)
  | missingFinalizedOutput (sourceWave : U64)
  | finalizedCheckpointUnavailable (round : U64)
  | finalizedCheckpointMismatch (round : U64)
  | invalidWavelength
  | unknownFinalizedAnchor
  | finalizedWaveBehind (required : U64) (available : ℕ)
  | wouldRewriteFinalizedOutput
  | orderingFailed (error : OrderingError)
  | wouldRewriteFinalizedLeader
  | futureEpochAlreadyActive
deriving DecidableEq, Repr

namespace LiveIngress

section Hasher

variable (hasher : List Byte → ContentHash)

/-- The source of the latest reputation block is published. -/
def checkSource (ingress : LiveIngress) (s : ReputationState) :
    Except PorWeightActivationError Unit :=
  match s.latestBlock with
  | none => .ok ()
  | some checkpoint => do
      let sourceWave := checkpoint.header.sourceFinalizedWave
      let output ← okOr (.missingFinalizedOutput sourceWave) ingress.sharedOrderedOutput.latest
      if output.wavelength = 0 then .error .invalidWavelength
      else do
        let anchor ← okOr (.missingFinalizedOutput sourceWave) output.anchor
        match checkpoint.header.sourceCheckpoint with
        | some source =>
            match finalizedPrefixCheckpoint hasher output source.round with
            | .error _ => .error (.finalizedCheckpointMismatch source.round)
            | .ok none => .error (.finalizedCheckpointUnavailable source.round)
            | .ok (some found) =>
                if found.ratingSource ≠ source then
                  .error (.finalizedCheckpointMismatch source.round)
                else .ok ()
        | none => do
            let anchorRound ← okOr .unknownFinalizedAnchor (ingress.blocklace.depth anchor)
            let available ← okOr .invalidWavelength (waveOfRound anchorRound output.wavelength)
            if available < sourceWave.val then .error (.finalizedWaveBehind sourceWave available)
            else .ok ()

/-- With several validators the published final leader stays final under the new weights. -/
def checkLeader (ingress : LiveIngress) (next : Bonds) (previous : OrderedFinalizedOutput) :
    Except PorWeightActivationError Unit :=
  match previous.anchor with
  | none => .ok ()
  | some previousLeader =>
      if next.table.keys.length ≤ 1 then .ok ()
      else do
        let leaderRound ← okOr .unknownFinalizedAnchor (ingress.blocklace.depth previousLeader)
        let wave ← okOr .invalidWavelength (waveOfRound leaderRound previous.wavelength)
        if ingress.blocklace.weightedFinalLeaderForWave wave previous.wavelength next
            (leaderOfWave (orderedValidators ingress.bonds)) ≠ some previousLeader then
          .error .wouldRewriteFinalizedLeader
        else .ok ()

/-- The ordering with the new weights starts with the published blocks. -/
def checkOrdering (ingress : LiveIngress) (next : Bonds) (previous : OrderedFinalizedOutput) :
    Except PorWeightActivationError Unit := do
  let (prospective, _) ← (tryOrderedBlockIdentitiesWithCache ingress.blocklace next
    previous.wavelength .empty).1.mapError .orderingFailed
  if !previous.blocks.isPrefixOf (prospective.map BlockIdentity.consensusIdentity) then
    .error .wouldRewriteFinalizedOutput
  else .ok ()

/-- What is published stays. -/
def checkPublished (ingress : LiveIngress) (next : Bonds) : Except PorWeightActivationError Unit :=
  match ingress.sharedOrderedOutput.latest with
  | none => .ok ()
  | some previous => do
      ingress.checkLeader next previous
      ingress.checkOrdering next previous

/-- `checked_por_weights`. -/
def checkedPorWeights (ingress : LiveIngress) (s : ReputationState) :
    Except PorWeightActivationError Bonds := do
  let next ← (projectedWeights s ingress.bonds).mapError .projection
  if s.currentRound ≠ 0 ∧ s.latestBlock = none then
    .error (.missingReputationCheckpoint s.currentRound)
  else do
    ingress.checkSource hasher s
    ingress.checkPublished next
    .ok next

/-- `validate_por_weights`. -/
def validatePorWeights (ingress : LiveIngress) (s : ReputationState) :
    Except PorWeightActivationError Unit :=
  (ingress.checkedPorWeights hasher s).map fun _ => ()

/-- `apply_por_weights`. -/
def applyPorWeights (ingress : LiveIngress) (s : ReputationState) :
    Except PorWeightActivationError Unit × LiveIngress :=
  if ingress.futureEpoch.isSome then (.error .futureEpochAlreadyActive, ingress)
  else
    match ingress.checkedPorWeights hasher s with
    | .error error => (.error error, ingress)
    | .ok next => (.ok (), ingress.withWeights next)

end Hasher

end LiveIngress

/-! ### Runs -/

/-- A call of the ingress, with what the adapter, the mapper and the store answer. -/
inductive Call where
  | ingest (block : Block) (adapter : Except String Unit)
  | message (mapped : Except String Block) (adapter : Except String Unit)
  | window (block : Block) (adapter : Except String Unit)
  | native (mapped : Except String ValidatedF1r3nodeBlock) (adapter : Except String Unit)
      (repo : Option RSpaceBlocklaceRepository) (trustedUnsignedGenesis : Bool)
  | poll (wavelength : ℕ)
  | setBonds (bonds : Bonds)
  | activate (s : ReputationState)
  | install (record : PorWeightEpochRecord) (committedCheckpointHash : ContentHash)

namespace LiveIngress

variable (hasher : List Byte → ContentHash) (blockHash : NodeId → BlockContent → ContentHash)

/-- What a call leaves behind, also where it returns an error. -/
def step (ingress : LiveIngress) : Call → LiveIngress
  | .ingest block adapter => (ingress.ingestTrustedBlock block adapter).2
  | .message mapped adapter => (ingress.ingestBlockMessage mapped adapter).2
  | .window block adapter => (ingress.ingestTrustedWindowBlock block adapter).2
  | .native mapped adapter repo trustedUnsignedGenesis =>
      (ingress.ingestNativeBlock blockHash mapped adapter repo trustedUnsignedGenesis).2
  | .poll wavelength => (ingress.latestFinalizedOrderedOutput hasher wavelength).2
  | .setBonds bonds => ingress.setBonds bonds
  | .activate s => (ingress.applyPorWeights hasher s).2
  | .install record committedCheckpointHash =>
      match ingress.installFutureEpoch hasher record committedCheckpointHash with
      | .error _ => ingress
      | .ok ingress => ingress

/-- What a run of calls leaves behind. -/
def run (ingress : LiveIngress) (calls : List Call) : LiveIngress :=
  calls.foldl (step hasher blockHash) ingress

variable {hasher blockHash} {ingress : LiveIngress} {s : ReputationState} {next : Bonds}
  {published : OrderedFinalizedOutput}

theorem applyPorWeights_error {error : PorWeightActivationError}
    (h : (ingress.applyPorWeights hasher s).1 = .error error) :
    (ingress.applyPorWeights hasher s).2 = ingress := by
  unfold applyPorWeights at h ⊢
  split_ifs at h ⊢
  · rfl
  · cases hchecked : ingress.checkedPorWeights hasher s with
    | error error => rfl
    | ok next =>
        rw [hchecked] at h
        cases h

theorem applyPorWeights_ok (h : (ingress.applyPorWeights hasher s).1 = .ok ()) :
    ∃ next, ingress.checkedPorWeights hasher s = .ok next ∧
      (ingress.applyPorWeights hasher s).2 = ingress.withWeights next := by
  unfold applyPorWeights at h ⊢
  split_ifs at h ⊢
  cases hchecked : ingress.checkedPorWeights hasher s with
  | error error =>
      rw [hchecked] at h
      cases h
  | ok next => exact ⟨next, rfl, rfl⟩

/-- What a successful check has found. -/
theorem checkedPorWeights_ok (h : ingress.checkedPorWeights hasher s = .ok next) :
    projectedWeights s ingress.bonds = .ok next ∧ ingress.checkPublished next = .ok () := by
  obtain ⟨projected, hprojected, h⟩ := bind_eq_ok.1 h
  obtain ⟨-, h⟩ := guard_eq_ok.1 h
  obtain ⟨-, h⟩ := check_eq_ok.1 h
  obtain ⟨hpublished, h⟩ := check_eq_ok.1 h
  obtain rfl := Except.ok.inj h
  exact ⟨mapError_eq_ok.1 hprojected, hpublished⟩

/-- What the check of the published output has found. -/
theorem checkPublished_ok (h : ingress.checkPublished next = .ok ())
    (hpublished : ingress.sharedOrderedOutput.latest = some published) :
    ingress.checkLeader next published = .ok () ∧ ingress.checkOrdering next published = .ok () := by
  unfold checkPublished at h
  rw [hpublished] at h
  exact check_eq_ok.1 h

theorem checkOrdering_ok (h : ingress.checkOrdering next published = .ok ()) :
    ∃ blocks anchor, (tryOrderedBlockIdentitiesWithCache ingress.blocklace next
        published.wavelength .empty).1 = .ok (blocks, anchor) ∧
      published.blocks <+: blocks.map BlockIdentity.consensusIdentity := by
  obtain ⟨⟨blocks, anchor⟩, hordering, h⟩ := bind_eq_ok.1 h
  obtain ⟨hstarts, -⟩ := guard_eq_ok.1 h
  refine ⟨blocks, anchor, mapError_eq_ok.1 hordering, ?_⟩
  simpa using hstarts

theorem checkLeader_ok {leader : BlockIdentity} (h : ingress.checkLeader next published = .ok ())
    (hanchor : published.anchor = some leader) (hmany : 2 ≤ next.table.keys.length) :
    ∃ round wave, ingress.blocklace.depth leader = some round ∧
      waveOfRound round published.wavelength = some wave ∧
      ingress.blocklace.weightedFinalLeaderForWave wave published.wavelength next
        (leaderOfWave (orderedValidators ingress.bonds)) = some leader := by
  unfold checkLeader at h
  rw [hanchor] at h
  dsimp only at h
  rw [if_neg (by omega)] at h
  obtain ⟨round, hround, h⟩ := bind_eq_ok.1 h
  obtain ⟨wave, hwave, h⟩ := bind_eq_ok.1 h
  obtain ⟨hleader, -⟩ := guard_eq_ok.1 h
  exact ⟨round, wave, okOr_eq_ok.1 hround, okOr_eq_ok.1 hwave, not_not.1 hleader⟩

/-- **An activation keeps the final leader** that is published: with several validators it
is the final leader of its wave under the new weights. -/
theorem leader_of_activation {leader : BlockIdentity}
    (h : ingress.checkedPorWeights hasher s = .ok next)
    (hpublished : ingress.sharedOrderedOutput.latest = some published)
    (hanchor : published.anchor = some leader) (hmany : 2 ≤ next.table.keys.length) :
    ∃ round wave, ingress.blocklace.depth leader = some round ∧
      waveOfRound round published.wavelength = some wave ∧
      leaderForWave ingress.blocklace published.wavelength next wave = some leader := by
  obtain ⟨hprojected, hcheck⟩ := checkedPorWeights_ok h
  obtain ⟨hleader, -⟩ := checkPublished_ok hcheck hpublished
  obtain ⟨round, wave, hround, hwave, hfinal⟩ := checkLeader_ok hleader hanchor hmany
  refine ⟨round, wave, hround, hwave, ?_⟩
  unfold leaderForWave
  rwa [orderedValidators_of_projectedWeights hprojected]

/-- **Whatever is called, what is published only grows.** -/
theorem step_growsTo (ingress : LiveIngress) (call : Call) :
    ingress.sharedOrderedOutput.GrowsTo (ingress.step hasher blockHash call).sharedOrderedOutput := by
  cases call with
  | ingest block adapter =>
      show ingress.sharedOrderedOutput.GrowsTo
        (ingress.ingestTrustedBlock block adapter).2.sharedOrderedOutput
      rw [ingestTrustedBlock_sharedOrderedOutput]
  | message mapped adapter =>
      show ingress.sharedOrderedOutput.GrowsTo
        (ingress.ingestBlockMessage mapped adapter).2.sharedOrderedOutput
      rw [ingestBlockMessage_sharedOrderedOutput]
  | window block adapter =>
      show ingress.sharedOrderedOutput.GrowsTo
        (ingress.ingestTrustedWindowBlock block adapter).2.sharedOrderedOutput
      rw [ingestTrustedWindowBlock_sharedOrderedOutput]
  | native mapped adapter repo trusted => exact .refl _
  | poll wavelength => exact (latestFinalizedOrderedOutput_spec hasher ingress wavelength).1
  | setBonds bonds =>
      show ingress.sharedOrderedOutput.GrowsTo (ingress.setBonds bonds).sharedOrderedOutput
      rw [setBonds_sharedOrderedOutput]
  | activate s =>
      show ingress.sharedOrderedOutput.GrowsTo (ingress.applyPorWeights hasher s).2.sharedOrderedOutput
      cases h : (ingress.applyPorWeights hasher s).1 with
      | error error => rw [applyPorWeights_error h]
      | ok _ =>
          obtain ⟨next, -, happlied⟩ := applyPorWeights_ok h
          rw [happlied, withWeights_sharedOrderedOutput]
  | install record committed =>
      unfold step
      dsimp only
      cases h : ingress.installFutureEpoch hasher record committed with
      | error error => exact .refl _
      | ok ingress' => exact installFutureEpoch_growsTo h

/-- **In every run what is published only grows**, activations and epochs included. -/
theorem run_growsTo (calls : List Call) (ingress : LiveIngress) :
    ingress.sharedOrderedOutput.GrowsTo (ingress.run hasher blockHash calls).sharedOrderedOutput := by
  induction calls generalizing ingress with
  | nil => exact .refl _
  | cons call calls ih => exact (step_growsTo ingress call).trans (ih _)

variable (hasher blockHash ingress s)

/-- **An activation keeps the published output.**  Without a future epoch, an activation
that succeeds leaves an ingress whose next poll, with the wavelength of the published
output, succeeds and extends it; one that fails changes nothing. -/
theorem activation_keeps_output (hfuture : ingress.futureEpoch = none) :
    ((ingress.applyPorWeights hasher s).1 = .ok () →
      ∀ published, ingress.sharedOrderedOutput.latest = some published →
        ∃ output, ((ingress.applyPorWeights hasher s).2.latestFinalizedOrderedOutput hasher
            published.wavelength).1 = .ok output ∧ published.blocks <+: output.blocks) ∧
    ∀ error, (ingress.applyPorWeights hasher s).1 = .error error →
      (ingress.applyPorWeights hasher s).2.bonds = ingress.bonds ∧
      (ingress.applyPorWeights hasher s).2.sharedOrderedOutput = ingress.sharedOrderedOutput ∧
      ∀ calls wavelength,
        (((ingress.applyPorWeights hasher s).2.run hasher blockHash calls).latestFinalizedOrderedOutput
          hasher wavelength).1 =
        ((ingress.run hasher blockHash calls).latestFinalizedOrderedOutput hasher wavelength).1 := by
  refine ⟨fun hok published hpublished => ?_, fun error herror => ?_⟩
  · obtain ⟨next, hchecked, happlied⟩ := applyPorWeights_ok hok
    obtain ⟨-, hcheck⟩ := checkedPorWeights_ok hchecked
    obtain ⟨-, horder⟩ := checkPublished_ok hcheck hpublished
    obtain ⟨blocks, anchor, hordering, hextends⟩ := checkOrdering_ok horder
    have hpoll : ((ingress.withWeights next).pollOrdering
        ((ingress.withWeights next).fingerprint published.wavelength)).1 = .ok (blocks, anchor) := by
      rw [pollOrdering_withWeights]
      exact hordering
    have hnone : (ingress.withWeights next).futureEpoch = none := hfuture
    rw [happlied]
    unfold latestFinalizedOrderedOutput
    rw [hnone]
    exact exists_pollOrdinary_of_extends hpublished hpoll hextends
  · rw [applyPorWeights_error herror]
    exact ⟨rfl, rfl, fun calls wavelength => rfl⟩

end LiveIngress

/-! ### A round of weights -/

/-- The mirror of the steady chain, polled once. -/
def polledIngress : LiveIngress :=
  (({ LiveIngress.withConsensusView 0 unevenBonds with
      mirror := ⟨steadyWaves, ∅⟩ } : LiveIngress).pollOrdinary 1).2

/-- Reputations of the first round for both validators. -/
def firstReputations : ReputationState :=
  { ReputationState.new 0 with
    reputationList := ⟨0, [ReputationEntry.new ⟨[1]⟩ 20, ReputationEntry.new ⟨[2]⟩ 1]⟩ }

/-- The weights of the first round are activated over a published output, and the next poll
extends it. -/
theorem activation_keeps_output_firstReputations :
    (polledIngress.applyPorWeights (fun _ => 0) firstReputations).1 = .ok () ∧
      polledIngress.sharedOrderedOutput.latest = some steadyOutput ∧
      ∃ output, ((polledIngress.applyPorWeights (fun _ => 0) firstReputations).2
          |>.latestFinalizedOrderedOutput (fun _ => 0) 1).1 = .ok output ∧
        steadyOutput.blocks <+: output.blocks := by
  have hok : (polledIngress.applyPorWeights (fun _ => 0) firstReputations).1 = .ok () := by
    decide +kernel
  have hpublished : polledIngress.sharedOrderedOutput.latest = some steadyOutput := by
    decide +kernel
  refine ⟨hok, hpublished, ?_⟩
  exact (LiveIngress.activation_keeps_output (fun _ => 0) (fun _ _ => 0) polledIngress
    firstReputations rfl).1 hok steadyOutput hpublished

end CordialMiners.Output
