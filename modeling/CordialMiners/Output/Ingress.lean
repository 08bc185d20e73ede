/-
# The ingress and its published output

The part of `LiveIngress` (`live_ingress.rs`) around the published output: the mirror it
is computed from, the weights, what is remembered from the last poll, and the calls that
change them.

A poll returns what is published when nothing changed since the last one.  Otherwise it
extends the published prefix, where the blocks that came since allow it, or orders the
whole blocklace, and publishes the result only if it starts with what was published.
Diagnostics and the deploy tracer are left out.
-/

import CordialMiners.Node.PersistentIngress
import CordialMiners.Output.Dispatch

namespace CordialMiners.Output

open Blocklace (alreadyValidated)
open Codec (bind_eq_ok guard_eq_ok map_eq_ok)
open Persistence (LiveIngressError ValidatedF1r3nodeBlock RSpaceBlocklaceRepository)
open Reputation (OrderedFinalizedOutput PorWeightEpochRecord EpochReplayError sameWeights)

/-! ### The published output -/

/-- `preserves_prefix`. -/
def preservesPrefix (output previous : OrderedFinalizedOutput) : Bool :=
  previous.blocks.isPrefixOf output.blocks

/-- `SharedOrderedOutput`. -/
structure SharedOrderedOutput where
  latest : Option OrderedFinalizedOutput
deriving DecidableEq, Repr

/-- `SharedOrderedOutput::update`, nothing where the prefix is not preserved. -/
def SharedOrderedOutput.update (shared : SharedOrderedOutput) (output : OrderedFinalizedOutput) :
    Option SharedOrderedOutput :=
  if shared.latest.any fun previous => !preservesPrefix output previous then none
  else some ⟨some output⟩

/-! ### What a poll remembers -/

/-- `FinalizedOutputFingerprint`. -/
structure FinalizedOutputFingerprint where
  generation : ℕ
  mirroredBlocks : ℕ
  wavelength : ℕ
  weights : WeightSnapshot
deriving DecidableEq

/-- `FinalizedPrefixReuse`. -/
structure FinalizedPrefixReuse where
  fingerprint : FinalizedOutputFingerprint
  anchor : BlockIdentity
  anchorWaveEnd : ℕ
  observedGeneration : ℕ
  observedMirroredBlocks : ℕ
  safeAppend : Bool

/-- Why a poll orders the whole blocklace. -/
inductive FallbackReason where
  | noSavedPrefix
  | unsafeMirrorMutation
  | generationMismatch
  | mirrorSizeMismatch
  | unchangedGeneration
  | noMirrorGrowth
  | wavelengthChanged
  | weightsChanged
  | trustedBoundary
  | missingPublishedOutput
  | anchorNotVerified
  | suffixPrefixMismatch
deriving DecidableEq, Repr

/-- The errors of `SnapshotError` that a poll can end with. -/
inductive SnapshotError where
  | orderingFailed (error : OrderingError)
  | orderedOutputPrefixViolation
  | epochReplay (error : EpochReplayError)
deriving DecidableEq, Repr

/-- The ingress: mirror and native index, and what belongs to the published output. -/
structure LiveIngress extends Persistence.LiveIngress where
  orderingCache : OrderingCache
  lastFinalizedOutputFingerprint : Option FinalizedOutputFingerprint
  finalizedPrefixReuse : Option FinalizedPrefixReuse
  sharedOrderedOutput : SharedOrderedOutput
  bonds : Bonds
  futureEpoch : Option PorWeightEpochRecord

namespace LiveIngress

/-- An ingress that has published nothing, over what `with_persistent_store` recovers. -/
def start (stored : Persistence.LiveIngress) (bonds : Bonds) : LiveIngress where
  toLiveIngress := stored
  orderingCache := .empty
  lastFinalizedOutputFingerprint := none
  finalizedPrefixReuse := none
  sharedOrderedOutput := ⟨none⟩
  bonds := bonds
  futureEpoch := none

/-- `with_consensus_view`, with the token of the blocklace. -/
def withConsensusView (token : ℕ) (bonds : Bonds) : LiveIngress := start (.new token) bonds

/-- The blocklace of the mirror. -/
def blocklace (ingress : LiveIngress) : Blocklace := ingress.mirror.blocklace

/-- The fingerprint of a poll. -/
def fingerprint (ingress : LiveIngress) (wavelength : ℕ) : FinalizedOutputFingerprint where
  generation := ingress.blocklace.generation
  mirroredBlocks := ingress.blocklace.dom.length
  wavelength := wavelength
  weights := .fromBonds ingress.bonds

/-! ### Prefix reuse -/

/-- `invalidate_finalized_prefix_reuse`. -/
def invalidateFinalizedPrefixReuse (ingress : LiveIngress) : LiveIngress :=
  { ingress with
    finalizedPrefixReuse := ingress.finalizedPrefixReuse.map fun reuse =>
      { reuse with safeAppend := false } }

/-- `update_finalized_prefix_reuse`. -/
def updateFinalizedPrefixReuse (ingress : LiveIngress) (fingerprint : FinalizedOutputFingerprint)
    (output : OrderedFinalizedOutput) : LiveIngress :=
  { ingress with
    finalizedPrefixReuse := do
      let anchor ← output.anchor
      let anchorRound ← ingress.blocklace.depth anchor
      let anchorWave ← waveOfRound anchorRound fingerprint.wavelength
      let anchorWaveEnd ← lastRoundOfWave anchorWave fingerprint.wavelength
      pure
        { fingerprint := fingerprint
          anchor := anchor
          anchorWaveEnd := anchorWaveEnd
          observedGeneration := fingerprint.generation
          observedMirroredBlocks := fingerprint.mirroredBlocks
          safeAppend := !ingress.blocklace.hasTrustedBoundaries } }

/-- What `record_strict_mirror_update` makes of the saved prefix, `B` being the blocklace
after the update. -/
def strictMirrorReuse (B : Blocklace) (generationBefore mirroredBlocksBefore : ℕ)
    (update : MirrorUpdate) (insertedBlock : BlockIdentity) (reuse : FinalizedPrefixReuse) :
    FinalizedPrefixReuse :=
  if update.disposition = .duplicate then reuse
  else if update.disposition ≠ .applied ∨ reuse.observedGeneration ≠ generationBefore ∨
      reuse.observedMirroredBlocks ≠ mirroredBlocksBefore then
    { reuse with safeAppend := false }
  else if update.releasedFromBuffer = 0 ∧ B.generation = generationBefore + 1 ∧
      B.dom.length = mirroredBlocksBefore + 1 ∧
      (B.depth insertedBlock).any (fun round => round > reuse.anchorWaveEnd) then
    { reuse with observedGeneration := B.generation, observedMirroredBlocks := B.dom.length }
  else { reuse with safeAppend := false }

/-- What becomes of a saved prefix: it is left alone, given up, or kept over one block above
the wave of its anchor. -/
theorem strictMirrorReuse_cases (B : Blocklace) (generationBefore mirroredBlocksBefore : ℕ)
    (update : MirrorUpdate) (insertedBlock : BlockIdentity) (reuse : FinalizedPrefixReuse) :
    strictMirrorReuse B generationBefore mirroredBlocksBefore update insertedBlock reuse = reuse ∨
    strictMirrorReuse B generationBefore mirroredBlocksBefore update insertedBlock reuse =
      { reuse with safeAppend := false } ∨
    (reuse.observedGeneration = generationBefore ∧ B.generation = generationBefore + 1 ∧
      (∃ round > reuse.anchorWaveEnd, B.depth insertedBlock = some round) ∧
      strictMirrorReuse B generationBefore mirroredBlocksBefore update insertedBlock reuse =
        { reuse with
          observedGeneration := B.generation
          observedMirroredBlocks := B.dom.length }) := by
  unfold strictMirrorReuse
  split_ifs with hduplicate hchanged happended
  · exact Or.inl rfl
  · exact Or.inr (Or.inl rfl)
  · rw [not_or, not_or, not_not, not_not, not_not] at hchanged
    obtain ⟨-, hgen, -, hdepth⟩ := happended
    obtain ⟨round, hround, hdeep⟩ := (Option.any_eq_true _ _).1 hdepth
    exact Or.inr (Or.inr ⟨hchanged.2.1, hgen, ⟨round, of_decide_eq_true hdeep, hround⟩, rfl⟩)
  · exact Or.inr (Or.inl rfl)

/-- `record_strict_mirror_update`. -/
def recordStrictMirrorUpdate (ingress : LiveIngress) (generationBefore mirroredBlocksBefore : ℕ)
    (update : MirrorUpdate) (insertedBlock : BlockIdentity) : LiveIngress :=
  { ingress with
    finalizedPrefixReuse := ingress.finalizedPrefixReuse.map
      (strictMirrorReuse ingress.blocklace generationBefore mirroredBlocksBefore update
        insertedBlock) }

/-- Why a saved prefix is not extended. -/
def fallbackReason (B : Blocklace) (fingerprint : FinalizedOutputFingerprint)
    (reuse : FinalizedPrefixReuse) : Option FallbackReason :=
  if !reuse.safeAppend then some .unsafeMirrorMutation
  else if reuse.observedGeneration ≠ fingerprint.generation then some .generationMismatch
  else if reuse.observedMirroredBlocks ≠ fingerprint.mirroredBlocks then some .mirrorSizeMismatch
  else if reuse.fingerprint.generation = fingerprint.generation then some .unchangedGeneration
  else if reuse.fingerprint.mirroredBlocks ≥ fingerprint.mirroredBlocks then some .noMirrorGrowth
  else if reuse.fingerprint.wavelength ≠ fingerprint.wavelength then some .wavelengthChanged
  else if reuse.fingerprint.weights ≠ fingerprint.weights then some .weightsChanged
  else if B.hasTrustedBoundaries then some .trustedBoundary
  else none

/-- `try_extend_finalized_prefix`: the blocks and their anchor, or why not. -/
def tryExtendFinalizedPrefix (ingress : LiveIngress) (fingerprint : FinalizedOutputFingerprint) :
    Except OrderingError (Except FallbackReason (List BlockIdentity × BlockIdentity)) ×
      OrderingCache :=
  match ingress.finalizedPrefixReuse with
  | none => (.ok (.error .noSavedPrefix), ingress.orderingCache)
  | some reuse =>
      match fallbackReason ingress.blocklace fingerprint reuse with
      | some reason => (.ok (.error reason), ingress.orderingCache)
      | none =>
          match ingress.sharedOrderedOutput.latest with
          | none => (.ok (.error .missingPublishedOutput), ingress.orderingCache)
          | some previous =>
              let (extended, cache) := orderedBlockIdentitiesWithVerifiedPrefix ingress.blocklace
                ingress.bonds fingerprint.wavelength previous.blocks reuse.anchor
                ingress.orderingCache
              (extended.map fun extended =>
                match extended with
                | none => .error .anchorNotVerified
                | some (blocks, anchor) =>
                    if previous.blocks.isPrefixOf blocks then .ok (blocks, anchor)
                    else .error .suffixPrefixMismatch, cache)

/-! ### Polls -/

/-- The ordering that a poll computes: from the saved prefix where that is possible. -/
def pollOrdering (ingress : LiveIngress) (fingerprint : FinalizedOutputFingerprint) :
    Except OrderingError (List BlockIdentity × Option BlockIdentity) × OrderingCache :=
  match ingress.tryExtendFinalizedPrefix fingerprint with
  | (.error error, cache) => (.error error, cache)
  | (.ok (.ok (blocks, anchor)), cache) => (.ok (blocks, some anchor), cache)
  | (.ok (.error _), cache) =>
      tryOrderedBlockIdentitiesWithCache ingress.blocklace ingress.bonds fingerprint.wavelength
        cache

/-- The output of the last poll, if nothing changed since. -/
def unchangedOutput (ingress : LiveIngress) (wavelength : ℕ) : Option OrderedFinalizedOutput :=
  if ingress.lastFinalizedOutputFingerprint = some (ingress.fingerprint wavelength) then
    ingress.sharedOrderedOutput.latest
  else none

/-- A poll of the ordinary path. -/
def pollOrdinary (ingress : LiveIngress) (wavelength : ℕ) :
    Except SnapshotError OrderedFinalizedOutput × LiveIngress :=
  match ingress.unchangedOutput wavelength with
  | some output => (.ok output, ingress)
  | none =>
      match ingress.pollOrdering (ingress.fingerprint wavelength) with
      | (.error error, cache) =>
          (.error (.orderingFailed error), { ingress with orderingCache := cache })
      | (.ok (blocks, anchor), cache) =>
          let output := OrderedFinalizedOutput.new blocks anchor wavelength
          match ingress.sharedOrderedOutput.update output with
          | none => (.error .orderedOutputPrefixViolation, { ingress with orderingCache := cache })
          | some shared =>
              (.ok output,
                ({ ingress with
                  orderingCache := cache
                  sharedOrderedOutput := shared
                  lastFinalizedOutputFingerprint := some (ingress.fingerprint wavelength) }
                ).updateFinalizedPrefixReuse (ingress.fingerprint wavelength) output)

section Hasher

variable (hasher : List Byte → ContentHash)

/-- `replay_future_epoch`. -/
def replayFutureEpoch (ingress : LiveIngress) (record : PorWeightEpochRecord) :
    Except SnapshotError OrderedFinalizedOutput :=
  if ¬sameWeights ingress.bonds record.newWeights.collect then
    .error (.epochReplay (.text "active epoch weights changed"))
  else
    (record.verifyReplay hasher ingress.blocklace ingress.bonds.table.keys
      record.reputationCheckpointHash).mapError fun error => .epochReplay (.record error)

/-- A poll under a future epoch. -/
def pollFutureEpoch (ingress : LiveIngress) (record : PorWeightEpochRecord) (wavelength : ℕ) :
    Except SnapshotError OrderedFinalizedOutput × LiveIngress :=
  match ingress.replayFutureEpoch hasher record with
  | .error error => (.error error, ingress)
  | .ok output =>
      if output.wavelength ≠ wavelength then
        (.error (.epochReplay (.text "epoch wavelength changed")), ingress)
      else
        match ingress.sharedOrderedOutput.update output with
        | none => (.error .orderedOutputPrefixViolation, ingress)
        | some shared =>
            (.ok output,
              { ingress with
                sharedOrderedOutput := shared
                lastFinalizedOutputFingerprint := none
                finalizedPrefixReuse := none })

/-- `latest_finalized_ordered_output`. -/
def latestFinalizedOrderedOutput (ingress : LiveIngress) (wavelength : ℕ) :
    Except SnapshotError OrderedFinalizedOutput × LiveIngress :=
  match ingress.futureEpoch with
  | some record => ingress.pollFutureEpoch hasher record wavelength
  | none => ingress.pollOrdinary wavelength

/-- The part of the ingress that an epoch reads and changes. -/
def toEpoch (ingress : LiveIngress) : Reputation.LiveIngress :=
  ⟨ingress.blocklace, ingress.orderingCache, ingress.sharedOrderedOutput.latest, ingress.bonds,
    ingress.futureEpoch⟩

/-- `install_future_epoch`. -/
def installFutureEpoch (ingress : LiveIngress) (record : PorWeightEpochRecord)
    (committedCheckpointHash : ContentHash) : Except Reputation.SnapshotError LiveIngress :=
  (ingress.toEpoch.installFutureEpoch hasher record committedCheckpointHash).map fun epoch =>
    { ingress with
      orderingCache := epoch.orderingCache
      sharedOrderedOutput := ⟨epoch.sharedOrderedOutput⟩
      bonds := epoch.bonds
      futureEpoch := epoch.futureEpoch }

end Hasher

/-! ### Blocks and weights -/

/-- A block for the mirror, and what the saved prefix makes of the update. -/
def ingestMirror (ingress : LiveIngress) (block : Block) :
    Except MirrorError MirrorUpdate × LiveIngress :=
  let (result, mirror) := ingress.mirror.ingest alreadyValidated block
  let after := { ingress with mirror := mirror }
  match result with
  | .error error => (.error error, after.invalidateFinalizedPrefixReuse)
  | .ok update =>
      (.ok update, after.recordStrictMirrorUpdate ingress.blocklace.generation
        ingress.blocklace.dom.length update block.identity)

/-- `ingest_trusted_block`. -/
def ingestTrustedBlock (ingress : LiveIngress) (block : Block) (adapter : Except String Unit) :
    Except LiveIngressError MirrorUpdate × LiveIngress :=
  match adapter with
  | .error message => (.error (.adapter message), ingress)
  | .ok () =>
      let (result, after) := ingress.ingestMirror block
      (result.mapError .mirror, after)

/-- The errors of `ingest_block_message`; what the mirror refuses is reported as an error of
the adapter. -/
inductive BlockMessageError where
  | mapping (message : String)
  | adapter (error : String ⊕ MirrorError)

/-- `ingest_block_message`, for a message that the mapper has made a block of, or refused. -/
def ingestBlockMessage (ingress : LiveIngress) (mapped : Except String Block)
    (adapter : Except String Unit) : Except BlockMessageError Block × LiveIngress :=
  match mapped with
  | .error message => (.error (.mapping message), ingress)
  | .ok block =>
      match adapter with
      | .error message => (.error (.adapter (.inl message)), ingress)
      | .ok () =>
          let (result, after) := ingress.ingestMirror block
          ((result.mapError fun error => .adapter (.inr error)).map fun _ => block, after)

/-- `ingest_trusted_window_block`. -/
def ingestTrustedWindowBlock (ingress : LiveIngress) (block : Block)
    (adapter : Except String Unit) : Except LiveIngressError MirrorUpdate × LiveIngress :=
  match adapter with
  | .error message => (.error (.adapter message), ingress)
  | .ok () =>
      let (result, mirror) := ingress.mirror.ingestWithTrustedBoundary alreadyValidated block
      let after := { ingress with mirror := mirror }
      match result with
      | .error error => (.error (.mirror error), after.invalidateFinalizedPrefixReuse)
      | .ok update =>
          (.ok update,
            if update.disposition = .duplicate then after else after.invalidateFinalizedPrefixReuse)

/-- `ingest_native_block_message_inner`, with the store as it is at the call.  The saved
prefix is left as it is. -/
def ingestNativeBlock (blockHash : NodeId → BlockContent → ContentHash) (ingress : LiveIngress)
    (mapped : Except String ValidatedF1r3nodeBlock) (adapter : Except String Unit)
    (repo : Option RSpaceBlocklaceRepository) (trustedUnsignedGenesis : Bool) :
    Except LiveIngressError MirrorUpdate × LiveIngress :=
  let (result, stored, _) :=
    ingress.toLiveIngress.ingestNativeInner blockHash mapped adapter repo trustedUnsignedGenesis
  (result, { ingress with toLiveIngress := stored })

/-- New weights, and nothing computed from the old ones. -/
def withWeights (ingress : LiveIngress) (bonds : Bonds) : LiveIngress :=
  ({ ingress with bonds := bonds, orderingCache := .empty }).invalidateFinalizedPrefixReuse

/-- `set_bonds`. -/
def setBonds (ingress : LiveIngress) (bonds : Bonds) : LiveIngress :=
  if sameWeights ingress.bonds bonds then ingress else ingress.withWeights bonds

end LiveIngress

/-! ### What is published only grows -/

/-- What is published in the first is a prefix of what is published in the second. -/
def SharedOrderedOutput.GrowsTo (shared shared' : SharedOrderedOutput) : Prop :=
  ∀ previous, shared.latest = some previous →
    ∃ output, shared'.latest = some output ∧ previous.blocks <+: output.blocks

namespace SharedOrderedOutput

variable {shared shared' shared'' : SharedOrderedOutput} {output : OrderedFinalizedOutput}

@[refl] theorem GrowsTo.refl (shared : SharedOrderedOutput) : shared.GrowsTo shared :=
  fun previous h => ⟨previous, h, List.prefix_rfl⟩

theorem GrowsTo.trans (h : shared.GrowsTo shared') (h' : shared'.GrowsTo shared'') :
    shared.GrowsTo shared'' := by
  intro previous hprevious
  obtain ⟨mid, hmid, hle⟩ := h previous hprevious
  obtain ⟨output, houtput, hle'⟩ := h' mid hmid
  exact ⟨output, houtput, hle.trans hle'⟩

/-- **An update succeeds exactly for an output that extends the published one.** -/
theorem update_eq_some_iff : shared.update output = some shared' ↔
    shared' = ⟨some output⟩ ∧ shared.GrowsTo ⟨some output⟩ := by
  have hgrows : shared.GrowsTo ⟨some output⟩ ↔
      ¬(shared.latest.any fun previous => !preservesPrefix output previous) = true := by
    unfold GrowsTo preservesPrefix
    cases shared.latest with
    | none => simp
    | some previous => simp
  unfold update
  rw [hgrows]
  split_ifs with h
  · exact iff_of_false (by simp) fun hno => hno.2 h
  · rw [Option.some.injEq, eq_comm]
    exact (and_iff_left h).symm

theorem update_of_growsTo (h : shared.GrowsTo ⟨some output⟩) :
    shared.update output = some ⟨some output⟩ := update_eq_some_iff.2 ⟨rfl, h⟩

end SharedOrderedOutput

namespace LiveIngress

variable {ingress : LiveIngress} {wavelength : ℕ} {output : OrderedFinalizedOutput}

@[simp] theorem invalidateFinalizedPrefixReuse_sharedOrderedOutput (ingress : LiveIngress) :
    ingress.invalidateFinalizedPrefixReuse.sharedOrderedOutput = ingress.sharedOrderedOutput := rfl

@[simp] theorem recordStrictMirrorUpdate_sharedOrderedOutput (ingress : LiveIngress)
    (generation mirrored : ℕ) (update : MirrorUpdate) (block : BlockIdentity) :
    (ingress.recordStrictMirrorUpdate generation mirrored update block).sharedOrderedOutput =
      ingress.sharedOrderedOutput := rfl

/-- What a poll leaves published: what was there, or its result. -/
def PollSpec (ingress : LiveIngress)
    (poll : Except SnapshotError OrderedFinalizedOutput × LiveIngress) : Prop :=
  ingress.sharedOrderedOutput.GrowsTo poll.2.sharedOrderedOutput ∧
    ∀ output, poll.1 = .ok output → poll.2.sharedOrderedOutput = ⟨some output⟩

theorem pollOrdinary_spec (ingress : LiveIngress) (wavelength : ℕ) :
    ingress.PollSpec (ingress.pollOrdinary wavelength) := by
  unfold pollOrdinary
  cases hsame : ingress.unchangedOutput wavelength with
  | some output =>
      refine ⟨.refl _, fun output' h => ?_⟩
      obtain rfl := Except.ok.inj h
      unfold unchangedOutput at hsame
      split_ifs at hsame
      cases hshared : ingress.sharedOrderedOutput with
      | mk latest =>
          rw [hshared] at hsame
          exact congrArg SharedOrderedOutput.mk hsame
  | none =>
      rcases ingress.pollOrdering (ingress.fingerprint wavelength) with ⟨error | ⟨blocks, anchor⟩, cache⟩
      · exact ⟨.refl _, fun output h => by cases h⟩
      · show ingress.PollSpec (match ingress.sharedOrderedOutput.update
            (OrderedFinalizedOutput.new blocks anchor wavelength) with
          | none => _
          | some shared => _)
        cases hupdate : ingress.sharedOrderedOutput.update
            (OrderedFinalizedOutput.new blocks anchor wavelength) with
        | none => exact ⟨.refl _, fun output h => by cases h⟩
        | some shared =>
            obtain ⟨rfl, hgrows⟩ := SharedOrderedOutput.update_eq_some_iff.1 hupdate
            refine ⟨hgrows, fun output h => ?_⟩
            obtain rfl := Except.ok.inj h
            rfl

theorem pollFutureEpoch_spec (hasher : List Byte → ContentHash) (ingress : LiveIngress)
    (record : PorWeightEpochRecord) (wavelength : ℕ) :
    ingress.PollSpec (ingress.pollFutureEpoch hasher record wavelength) := by
  unfold pollFutureEpoch
  cases ingress.replayFutureEpoch hasher record with
  | error error => exact ⟨.refl _, fun output h => by cases h⟩
  | ok output =>
      dsimp only
      split_ifs
      · exact ⟨.refl _, fun output h => by cases h⟩
      · cases hupdate : ingress.sharedOrderedOutput.update output with
        | none => exact ⟨.refl _, fun output h => by cases h⟩
        | some shared =>
            obtain ⟨rfl, hgrows⟩ := SharedOrderedOutput.update_eq_some_iff.1 hupdate
            refine ⟨hgrows, fun output' h => ?_⟩
            obtain rfl := Except.ok.inj h
            rfl

/-- **A poll only extends what is published, and returns what is published then.** -/
theorem latestFinalizedOrderedOutput_spec (hasher : List Byte → ContentHash)
    (ingress : LiveIngress) (wavelength : ℕ) :
    ingress.PollSpec (ingress.latestFinalizedOrderedOutput hasher wavelength) := by
  unfold latestFinalizedOrderedOutput
  cases ingress.futureEpoch with
  | none => exact ingress.pollOrdinary_spec wavelength
  | some record => exact ingress.pollFutureEpoch_spec hasher record wavelength

@[simp] theorem withWeights_sharedOrderedOutput (ingress : LiveIngress) (bonds : Bonds) :
    (ingress.withWeights bonds).sharedOrderedOutput = ingress.sharedOrderedOutput := rfl

@[simp] theorem setBonds_sharedOrderedOutput (ingress : LiveIngress) (bonds : Bonds) :
    (ingress.setBonds bonds).sharedOrderedOutput = ingress.sharedOrderedOutput := by
  unfold setBonds
  split_ifs
  · rfl
  · exact withWeights_sharedOrderedOutput ingress bonds

/-- Blocks do not change what is published. -/
@[simp] theorem ingestMirror_sharedOrderedOutput (ingress : LiveIngress) (block : Block) :
    (ingress.ingestMirror block).2.sharedOrderedOutput = ingress.sharedOrderedOutput := by
  unfold ingestMirror
  rcases ingress.mirror.ingest alreadyValidated block with ⟨error | update, mirror⟩
  · rfl
  · rfl

@[simp] theorem ingestTrustedBlock_sharedOrderedOutput (ingress : LiveIngress) (block : Block)
    (adapter : Except String Unit) :
    (ingress.ingestTrustedBlock block adapter).2.sharedOrderedOutput =
      ingress.sharedOrderedOutput := by
  cases adapter with
  | error message => rfl
  | ok _ => exact ingestMirror_sharedOrderedOutput ingress block

@[simp] theorem ingestBlockMessage_sharedOrderedOutput (ingress : LiveIngress)
    (mapped : Except String Block) (adapter : Except String Unit) :
    (ingress.ingestBlockMessage mapped adapter).2.sharedOrderedOutput =
      ingress.sharedOrderedOutput := by
  cases mapped with
  | error message => rfl
  | ok block =>
      cases adapter with
      | error message => rfl
      | ok _ => exact ingestMirror_sharedOrderedOutput ingress block

@[simp] theorem ingestTrustedWindowBlock_sharedOrderedOutput (ingress : LiveIngress)
    (block : Block) (adapter : Except String Unit) :
    (ingress.ingestTrustedWindowBlock block adapter).2.sharedOrderedOutput =
      ingress.sharedOrderedOutput := by
  unfold ingestTrustedWindowBlock
  cases adapter with
  | error message => rfl
  | ok _ =>
      rcases ingress.mirror.ingestWithTrustedBoundary alreadyValidated block with
        ⟨error | update, mirror⟩
      · rfl
      · dsimp only
        split_ifs <;> rfl

@[simp] theorem ingestNativeBlock_sharedOrderedOutput
    (blockHash : NodeId → BlockContent → ContentHash) (ingress : LiveIngress)
    (mapped : Except String ValidatedF1r3nodeBlock) (adapter : Except String Unit)
    (repo : Option RSpaceBlocklaceRepository) (trusted : Bool) :
    (ingress.ingestNativeBlock blockHash mapped adapter repo trusted).2.sharedOrderedOutput =
      ingress.sharedOrderedOutput := rfl

/-- An epoch is installed over an output that it extends. -/
theorem installFutureEpoch_growsTo {hasher : List Byte → ContentHash} {ingress' : LiveIngress}
    {record : PorWeightEpochRecord} {committed : ContentHash}
    (h : ingress.installFutureEpoch hasher record committed = .ok ingress') :
    ingress.sharedOrderedOutput.GrowsTo ingress'.sharedOrderedOutput := by
  obtain ⟨epoch, hepoch, rfl⟩ := map_eq_ok.1 h
  unfold Reputation.LiveIngress.installFutureEpoch at hepoch
  obtain ⟨-, hepoch⟩ := guard_eq_ok.1 hepoch
  cases hactive : ingress.toEpoch.futureEpoch with
  | some active =>
      rw [hactive] at hepoch
      dsimp only at hepoch
      split_ifs at hepoch
      obtain rfl := Except.ok.inj hepoch
      exact .refl _
  | none =>
      rw [hactive] at hepoch
      obtain ⟨-, hepoch⟩ := guard_eq_ok.1 hepoch
      obtain ⟨output, -, hepoch⟩ := bind_eq_ok.1 hepoch
      obtain ⟨hextends, hepoch⟩ := guard_eq_ok.1 hepoch
      obtain rfl := Except.ok.inj hepoch
      intro previous hprevious
      refine ⟨output, rfl, ?_⟩
      simpa [toEpoch, hprevious] using hextends

/-! ### Polls that succeed -/

/-- **A poll whose ordering extends the published blocks succeeds.** -/
theorem exists_pollOrdinary_of_extends {published : OrderedFinalizedOutput}
    {blocks : List BlockIdentity} {anchor : Option BlockIdentity}
    (hlatest : ingress.sharedOrderedOutput.latest = some published)
    (hordering : (ingress.pollOrdering (ingress.fingerprint wavelength)).1 = .ok (blocks, anchor))
    (hextends : published.blocks <+: blocks.map BlockIdentity.consensusIdentity) :
    ∃ output, (ingress.pollOrdinary wavelength).1 = .ok output ∧
      published.blocks <+: output.blocks := by
  unfold pollOrdinary
  cases hsame : ingress.unchangedOutput wavelength with
  | some output =>
      -- nothing changed: the published output itself is returned
      unfold unchangedOutput at hsame
      split_ifs at hsame
      obtain rfl := Option.some.inj (hlatest.symm.trans hsame)
      exact ⟨published, rfl, List.prefix_rfl⟩
  | none =>
      have hgrows : ingress.sharedOrderedOutput.GrowsTo
          ⟨some (OrderedFinalizedOutput.new blocks anchor wavelength)⟩ := by
        intro previous hprevious
        obtain rfl := Option.some.inj (hlatest.symm.trans hprevious)
        exact ⟨_, rfl, hextends⟩
      have hupdate := SharedOrderedOutput.update_of_growsTo hgrows
      generalize ingress.pollOrdering (ingress.fingerprint wavelength) = ordering at hordering ⊢
      obtain ⟨result, cache⟩ := ordering
      obtain rfl : result = .ok (blocks, anchor) := hordering
      simp only [hupdate]
      exact ⟨_, rfl, hextends⟩

/-- After new weights the whole blocklace is ordered, from an empty cache. -/
theorem pollOrdering_withWeights (ingress : LiveIngress) (bonds : Bonds)
    (fingerprint : FinalizedOutputFingerprint) :
    (ingress.withWeights bonds).pollOrdering fingerprint =
      tryOrderedBlockIdentitiesWithCache ingress.blocklace bonds fingerprint.wavelength .empty := by
  unfold pollOrdering tryExtendFinalizedPrefix withWeights invalidateFinalizedPrefixReuse
  cases ingress.finalizedPrefixReuse with
  | none => rfl
  | some reuse => rfl

end LiveIngress

end CordialMiners.Output
