/-
# The record of a future weight epoch

`por/epoch_record.rs`, `por/epoch_policy.rs`, `authorized_weight_commitment` of
`por/activation.rs`, and the preview and installation of `live_ingress.rs`.

A record is prepared from the published output and a projected weight table, stored,
and later replayed against the blocklace before its weights become active.
-/

import CordialMiners.Ordering.Epoch
import CordialMiners.Ordering.Cache
import CordialMiners.Slashing.Window

namespace CordialMiners.Reputation

open Codec (beBytes)

/-! ### Weight tables -/

/-- `MAX_REPUTATION_STATE_ENTRIES`. -/
def maxStateEntries : ℕ := maxBlockEntries

/-- `MAX_REPUTATION_STATE_NODE_ID_LEN`. -/
def maxStateNodeIdLen : ℕ := maxNodeIdLen

/-- `Vec<(NodeId, u64)>`, with the bound of a map (`Bonds`). -/
structure WeightTable where
  entries : List (Sigma fun _ : NodeId => U64)
  entries_lt : entries.length < 2 ^ 58
deriving DecidableEq

/-- The nodes of a table. -/
def WeightTable.nodes (table : WeightTable) : List NodeId := table.entries.map Sigma.fst

/-- `sorted_weights`. -/
def sortedWeights (weights : Bonds) : WeightTable where
  entries := weights.table.entries.insertionSort fun left right => left.1 ≤ right.1
  entries_lt := by
    rw [List.length_insertionSort]
    exact weights.entries_lt

theorem length_dedupKeys_le (l : List (Sigma fun _ : NodeId => U64)) :
    l.dedupKeys.length ≤ l.length := by
  induction l with
  | nil => exact le_rfl
  | cons entry l ih =>
      rw [List.dedupKeys_cons, List.kinsert_def, List.length_cons, List.length_cons]
      have hle := (List.kerase_sublist entry.1 l.dedupKeys).length_le
      omega

/-- A table collected into a map; a later entry replaces an earlier one. -/
def WeightTable.collect (table : WeightTable) : Bonds where
  table := table.entries.reverse.toAList
  entries_lt := by
    refine (length_dedupKeys_le table.entries.reverse).trans_lt ?_
    rw [List.length_reverse]
    exact table.entries_lt

/-- Equality of two maps. -/
def sameWeights (a b : Bonds) : Prop := (sortedWeights a).entries = (sortedWeights b).entries

instance (a b : Bonds) : Decidable (sameWeights a b) :=
  inferInstanceAs (Decidable (_ = _))

section Hasher

variable (hasher : List Byte → ContentHash)

/-- `POR_WEIGHT_COMMITMENT_DOMAIN`. -/
def weightCommitmentDomain : List Byte := asciiBytes "cordial-por:authorized-weight-map:v1"

/-- `authorized_weight_commitment`. -/
def authorizedWeightCommitment (weights : Bonds) : ReputationCommitment :=
  let entries := (sortedWeights weights).entries
  hasher (weightCommitmentDomain ++ beBytes 8 entries.length ++ entries.flatMap fun entry =>
    putBytes entry.1.bytes ++ beBytes 8 entry.2.val)

/-- `PREFIX_DOMAIN`. -/
def sealedPrefixDomain : List Byte := asciiBytes "cordial-por:sealed-epoch-prefix:v1"

/-- `sealed_prefix_hash`. -/
def sealedPrefixHash (sealed : List BlockIdentity) : ContentHash :=
  hasher (sealedPrefixDomain ++ beBytes 8 sealed.length ++ sealed.flatMap fun identity =>
    contentHashBytes identity.contentHash ++ putBytes identity.creator.bytes)

end Hasher

/-! ### Policy -/

/-- `PorWeightEpochPolicy`: a delay that is positive. -/
structure PorWeightEpochPolicy where
  delayWaves : U64
  positive : delayWaves ≠ 0

/-- `PorWeightEpochPolicyError`. -/
inductive PorWeightEpochPolicyError where
  | zeroDelay
  | source (error : PorFinalityError)
  | unknownTerminalBlock
  | waveOverflow
deriving DecidableEq, Repr

namespace PorWeightEpochPolicy

/-- `PorWeightEpochPolicy::new`. -/
def new (delayWaves : U64) : Except PorWeightEpochPolicyError PorWeightEpochPolicy :=
  if h : delayWaves = 0 then .error .zeroDelay else .ok ⟨delayWaves, h⟩

/-- `PorWeightEpochPolicy::effective_wave`. -/
def effectiveWave (hasher : List Byte → ContentHash) (policy : PorWeightEpochPolicy)
    (B : Blocklace) (output : OrderedFinalizedOutput) (source : FinalizedPrefixCheckpoint) :
    Except PorWeightEpochPolicyError ℕ := do
  (validateFinalizedPrefixCheckpoint hasher output source).mapError .source
  let round ← okOr .unknownTerminalBlock (B.depth source.terminalBlock)
  let sourceWave ← okOr (.source .invalidWavelength) (waveOfRound round output.wavelength)
  okOr .waveOverflow (checkedAdd64 sourceWave policy.delayWaves.val)

theorem new_delayWaves (policy : PorWeightEpochPolicy) : new policy.delayWaves = .ok policy :=
  dif_neg policy.positive

end PorWeightEpochPolicy

/-! ### Records -/

/-- `OrderedFinalizedOutput::new`. -/
def OrderedFinalizedOutput.new (blocks : List BlockIdentity) (anchor : Option BlockIdentity)
    (wavelength : ℕ) : OrderedFinalizedOutput :=
  ⟨blocks.map BlockIdentity.consensusIdentity, anchor.map BlockIdentity.consensusIdentity,
    wavelength⟩

/-- `PorWeightEpochRecord`. -/
structure PorWeightEpochRecord where
  porRound : U64
  reputationCheckpointHash : ReputationCommitment
  source : FinalizedPrefixCheckpoint
  delayWaves : U64
  effectiveWave : ℕ
  wavelength : ℕ
  sealedLeader : BlockIdentity
  sealedPrefixLen : U64
  sealedPrefixHash : ContentHash
  oldWeights : WeightTable
  newWeights : WeightTable
  oldWeightsCommitment : ReputationCommitment
  newWeightsCommitment : ReputationCommitment
deriving DecidableEq

/-- The errors of `PorWeightActivationError` that a preview can end with. -/
inductive PorWeightActivationError where
  | activatedValidatorSetMismatch (configured recorded : ℕ)
  | missingEpochBoundary
  | unknownFinalizedAnchor
  | invalidWavelength
  | effectiveWaveAlreadyPublished (effectiveWave publishedWave : ℕ)
  | epochBoundaryWavePending (required published : ℕ)
  | futureEpoch (error : WeightedEpochError)
  | futureEpochPolicy (error : PorWeightEpochPolicyError)
deriving DecidableEq, Repr

/-- The errors of `PorWeightEpochRecordError` apart from those of the store. -/
inductive PorWeightEpochRecordError where
  | malformed (text : String)
  | tooLarge
  | preview (error : PorWeightActivationError)
  | source (error : PorFinalityError)
  | policy (error : PorWeightEpochPolicyError)
  | ordering (error : WeightedEpochError)
deriving DecidableEq, Repr

/-- The leader of a wave: the sorted validators take turns. -/
def leaderOfWave (validators : List NodeId) : LeaderSelection := fun wave =>
  validators[wave % validators.length]?

/-- Validators in order. -/
def sortedValidators (validators : List NodeId) : List NodeId :=
  validators.insertionSort (· ≤ ·)

namespace PorWeightEpochRecord

variable (hasher : List Byte → ContentHash)

/-- What `validate_structure` refuses in a weight table. -/
def invalidTable (table : WeightTable) : Prop :=
  table.entries = [] ∨ table.entries.length > maxStateEntries ∨
    (∃ entry ∈ table.entries,
      entry.1.bytes = [] ∨ entry.1.bytes.length > maxStateNodeIdLen) ∨
    (∃ pair ∈ table.nodes.zip table.nodes.tail, pair.2 ≤ pair.1) ∨
    (table.entries.map fun entry => entry.2.val).sum = 0

instance (table : WeightTable) : Decidable (invalidTable table) := by
  unfold invalidTable
  infer_instance

/-- `validate_structure`. -/
def validateStructure (record : PorWeightEpochRecord) : Except PorWeightEpochRecordError Unit :=
  if record.porRound = 0 ∨ record.source.porRound ≠ record.porRound ∨
      record.source.finalizedPrefixLen = 0 ∨
      record.source.finalizedPrefixLen > record.sealedPrefixLen ∨ record.delayWaves = 0 ∨
      record.effectiveWave = 0 ∨ record.wavelength = 0 ∨ record.sealedLeader.signature ≠ [] ∨
      record.source.terminalBlock.signature ≠ [] then
    .error (.malformed "invalid epoch fields")
  else if invalidTable record.oldWeights ∨ invalidTable record.newWeights then
    .error (.malformed "invalid weight table")
  else if record.oldWeights.nodes ≠ record.newWeights.nodes then
    .error (.malformed "validator membership changed")
  else if authorizedWeightCommitment hasher record.oldWeights.collect ≠ record.oldWeightsCommitment ∨
      authorizedWeightCommitment hasher record.newWeights.collect ≠ record.newWeightsCommitment then
    .error (.malformed "weight commitment changed")
  else .ok ()

/-- `verify_replay`. -/
def verifyReplay (record : PorWeightEpochRecord) (B : Blocklace) (authorized : List NodeId)
    (committedCheckpointHash : ReputationCommitment) :
    Except PorWeightEpochRecordError OrderedFinalizedOutput := do
  record.validateStructure hasher
  if record.reputationCheckpointHash ≠ committedCheckpointHash then
    .error (.malformed "reputation checkpoint changed")
  else if sortedValidators authorized ≠ record.oldWeights.nodes then
    .error (.malformed "authorized validator set changed")
  else
    let boundaryWave ← okOr (.malformed "sealed leader wave is unavailable")
      (waveOfLeader B record.sealedLeader record.wavelength)
    if checkedAdd64 boundaryWave 1 ≠ some record.effectiveWave then
      .error (.malformed "sealed leader is not immediately before the effective wave")
    else
      let leaderSelection := leaderOfWave (sortedValidators authorized)
      let sealed ← (B.weightedTauAtLeader record.sealedLeader record.wavelength
        record.oldWeights.collect leaderSelection).mapError fun error => .ordering (.ordering error)
      if tryU64 sealed.length ≠ some record.sealedPrefixLen ∨
          CordialMiners.Reputation.sealedPrefixHash hasher sealed ≠ record.sealedPrefixHash then
        .error (.malformed "sealed Cordial prefix changed")
      else
        let sealedOutput := OrderedFinalizedOutput.new sealed (some record.sealedLeader)
          record.wavelength
        (validateFinalizedPrefixCheckpoint hasher sealedOutput record.source).mapError .source
        let policy ← (PorWeightEpochPolicy.new record.delayWaves).mapError .policy
        let effectiveWave ← (policy.effectiveWave hasher B sealedOutput record.source).mapError
          .policy
        if effectiveWave ≠ record.effectiveWave then .error (.malformed "effective wave changed")
        else
          let (blocks, anchor) ← (B.weightedTauAfterEpochBoundary record.wavelength
            record.oldWeights.collect record.newWeights.collect
            ⟨record.sealedLeader, sealed, record.effectiveWave⟩ leaderSelection).mapError .ordering
          .ok (.new blocks (some anchor) record.wavelength)

end PorWeightEpochRecord

/-! ### The ingress -/

/-- What an epoch reads and changes of `LiveIngress`. -/
structure LiveIngress where
  blocklace : Blocklace
  orderingCache : OrderingCache
  sharedOrderedOutput : Option OrderedFinalizedOutput
  bonds : Bonds
  futureEpoch : Option PorWeightEpochRecord

/-- Why an epoch is not replayed. -/
inductive EpochReplayError where
  | text (text : String)
  | record (error : PorWeightEpochRecordError)
deriving DecidableEq, Repr

/-- The errors of `SnapshotError` that an installation can end with. -/
inductive SnapshotError where
  | orderedOutputPrefixViolation
  | epochReplay (error : EpochReplayError)
deriving DecidableEq, Repr

namespace LiveIngress

variable (hasher : List Byte → ContentHash)

/-- `preview_future_weight_epoch`. -/
def previewFutureWeightEpoch (ingress : LiveIngress) (projected : Bonds) (effectiveWave : ℕ) :
    Except PorWeightActivationError OrderedFinalizedOutput :=
  let validators := ingress.bonds.table.keys
  if validators.length ≠ projected.table.keys.length ∨
      ¬ ∀ validator ∈ validators, validator ∈ projected.table.keys then
    .error (.activatedValidatorSetMismatch validators.length projected.table.keys.length)
  else if validators = [] then .error .missingEpochBoundary
  else do
    let published ← okOr .missingEpochBoundary ingress.sharedOrderedOutput
    let leader ← okOr .missingEpochBoundary published.anchor
    let leaderRound ← okOr .unknownFinalizedAnchor (ingress.blocklace.depth leader)
    let publishedWave ← okOr .invalidWavelength (waveOfRound leaderRound published.wavelength)
    if effectiveWave ≤ publishedWave then
      .error (.effectiveWaveAlreadyPublished effectiveWave publishedWave)
    else
      let (blocks, anchor) ← (ingress.blocklace.weightedTauAfterEpochBoundary published.wavelength
        ingress.bonds projected ⟨leader, published.blocks, effectiveWave⟩
        (leaderOfWave (sortedValidators validators))).mapError .futureEpoch
      .ok (.new blocks (some anchor) published.wavelength)

/-- `preview_checkpoint_weight_epoch`. -/
def previewCheckpointWeightEpoch (ingress : LiveIngress) (projected : Bonds)
    (source : FinalizedPrefixCheckpoint) (policy : PorWeightEpochPolicy) :
    Except PorWeightActivationError (ℕ × OrderedFinalizedOutput) := do
  let published ← okOr .missingEpochBoundary ingress.sharedOrderedOutput
  let effectiveWave ← (policy.effectiveWave hasher ingress.blocklace published source).mapError
    .futureEpochPolicy
  let leader ← okOr .missingEpochBoundary published.anchor
  let leaderRound ← okOr .unknownFinalizedAnchor (ingress.blocklace.depth leader)
  let publishedWave ← okOr .invalidWavelength (waveOfRound leaderRound published.wavelength)
  if publishedWave < effectiveWave - 1 then
    .error (.epochBoundaryWavePending (effectiveWave - 1) publishedWave)
  else
    let preview ← ingress.previewFutureWeightEpoch projected effectiveWave
    .ok (effectiveWave, preview)

end LiveIngress

/-- `PorWeightEpochRecord::prepare`. -/
def PorWeightEpochRecord.prepare (hasher : List Byte → ContentHash) (ingress : LiveIngress)
    (source : FinalizedPrefixCheckpoint) (reputationCheckpointHash : ReputationCommitment)
    (projected : Bonds) (policy : PorWeightEpochPolicy) :
    Except PorWeightEpochRecordError PorWeightEpochRecord := do
  let (effectiveWave, _) ←
    (ingress.previewCheckpointWeightEpoch hasher projected source policy).mapError .preview
  let sealed ← okOr (.malformed "missing sealed output") ingress.sharedOrderedOutput
  let sealedLeader ← okOr (.malformed "missing sealed leader") sealed.anchor
  let sealedPrefixLen ← okOr .tooLarge (tryU64 sealed.blocks.length)
  let record : PorWeightEpochRecord :=
    { porRound := source.porRound
      reputationCheckpointHash := reputationCheckpointHash
      source := source
      delayWaves := policy.delayWaves
      effectiveWave := effectiveWave
      wavelength := sealed.wavelength
      sealedLeader := sealedLeader
      sealedPrefixLen := sealedPrefixLen
      sealedPrefixHash := CordialMiners.Reputation.sealedPrefixHash hasher sealed.blocks
      oldWeights := sortedWeights ingress.bonds
      newWeights := sortedWeights projected
      oldWeightsCommitment := authorizedWeightCommitment hasher ingress.bonds
      newWeightsCommitment := authorizedWeightCommitment hasher projected }
  record.validateStructure hasher
  .ok record

/-- `LiveIngress::install_future_epoch`. -/
def LiveIngress.installFutureEpoch (hasher : List Byte → ContentHash) (ingress : LiveIngress)
    (record : PorWeightEpochRecord) (committedCheckpointHash : ReputationCommitment) :
    Except SnapshotError LiveIngress :=
  if record.reputationCheckpointHash ≠ committedCheckpointHash then
    .error (.epochReplay (.text "committed checkpoint changed"))
  else
    match ingress.futureEpoch with
    | some active =>
        if active = record then .ok ingress
        else .error (.epochReplay (.text "a different future epoch is active"))
    | none =>
        if ¬sameWeights ingress.bonds record.oldWeights.collect then
          .error (.epochReplay (.text "old epoch weights changed"))
        else do
          let output ← (record.verifyReplay hasher ingress.blocklace ingress.bonds.table.keys
            committedCheckpointHash).mapError fun error => .epochReplay (.record error)
          if ingress.sharedOrderedOutput.any fun previous =>
              !previous.blocks.isPrefixOf output.blocks then
            .error .orderedOutputPrefixViolation
          else
            .ok { ingress with
              orderingCache := .empty
              sharedOrderedOutput := some output
              bonds := record.newWeights.collect
              futureEpoch := some record }

end CordialMiners.Reputation
