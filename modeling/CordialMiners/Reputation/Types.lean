/-
# Reputation data

`types.rs`, `config.rs` and `error.rs` of `crates/cordial-por`.

Reputations, scores and rounds are `u64` numbers; sums and products of them are
taken in `u128`.  The entries of a list stand in the order of their node
identities, each identity once; a binary search over them is `Keyed.find`.

An equivocation penalty carries the authorization that admitted it, which only
the crate itself can build.  The model states its results for every value of it.
-/

import CordialMiners.Core.Weights
import CordialMiners.Core.Wave
import CordialMiners.Collections.Keyed

namespace CordialMiners

/-- A `u16`. -/
abbrev U16 := Fin (2 ^ 16)

instance neZeroU16 : NeZero (2 ^ 16) := ⟨by decide⟩

/-- `u64::try_from` of a wider number. -/
def tryU64 (n : ℕ) : Option U64 := if h : n < 2 ^ 64 then some ⟨n, h⟩ else none

theorem tryU64_eq_some {n : ℕ} {x : U64} : tryU64 n = some x ↔ n = x.val := by
  unfold tryU64
  split_ifs with h
  · rw [Option.some.injEq, Fin.ext_iff]
  · refine iff_of_false (by simp) ?_
    rintro rfl
    exact h x.isLt

/-- `Option::ok_or`. -/
def okOr {ε α : Type} (error : ε) : Option α → Except ε α
  | none => .error error
  | some a => .ok a

theorem okOr_eq_ok {ε α : Type} {error : ε} {x : Option α} {a : α} :
    okOr error x = .ok a ↔ x = some a := by
  cases x <;> simp [okOr]

namespace Reputation

/-- A Blake2b-256 commitment, `[u8; 32]`. -/
abbrev ReputationCommitment := ContentHash

/-! ### Errors -/

/-- The errors of the crate that the modelled functions return. -/
inductive PorError where
  | invalidConfiguration (message : String)
  | invalidRatingRound
  | invalidRatingSourceCheckpoint
  | ratingRoundOverflow
  | selfRating
  | ratingBelowMinimum
  | ratingAboveMaximum
  | missingRatingSignature
  | duplicateRating
  | duplicateMatrixEntry
  | invalidNormalizationScale
  | normalizationOverflow
  | invalidLiquidRankScale
  | missingRaterReputation
  | duplicateReputationEntry
  | unsortedReputationVector
  | liquidRankOverflow
  | invalidTransitionScale
  | invalidLiquidRankAlpha
  | missingPreviousReputation
  | reputationTransitionOverflow
  | missingContributionEntry
  | invalidTransitionRound
  | invalidClampScale
  | clampOverflow
  | unsupportedReputationBlockWireVersion (version : U16)
  | reputationBlockWireTooLarge
  | malformedReputationBlockWire
  | reputationBlockWireChecksumMismatch
  | unsupportedReputationBlockVersion (version : U16)
  | missingReputationBlockShardId
  | reputationBlockShardIdTooLong
  | invalidReputationBlockSourceWave
  | invalidReputationBlockSourceCheckpoint
  | invalidReputationBlockRound
  | invalidPreviousReputationBlockRound
  | previousReputationBlockShardMismatch
  | reputationBlockShardMismatch
  | reputationBlockSourceWaveMismatch
  | reputationBlockSourceCheckpointMismatch
  | unsupportedReputationBlockAuditVersion (version : U16)
  | reputationBlockPreviousHashMismatch
  | reputationBlockConfigHashMismatch
  | reputationBlockRatingsHashMismatch
  | reputationBlockPenaltiesHashMismatch
  | reputationBlockRootMismatch
  | reputationExclusionMismatch
  | unsupportedReputationStateSnapshotVersion (version : U16)
  | reputationStateSnapshotTooLarge
  | malformedReputationStateSnapshot
  | reputationStateSnapshotChecksumMismatch
  | reputationStateSnapshotRoundMismatch
  | reputationStateSnapshotExclusionMismatch
  | reputationStateSnapshotBlockRoundMismatch
  | reputationStateSnapshotBlockVersionMismatch
  | reputationStateSnapshotHasPendingRatings
  | missingReputationBlockEntry
  | unexpectedReputationBlockEntry
  | reputationValueMismatch
  | emptyAuthorizedValidatorSet
  | missingAuthorizedValidatorReputation (nodeId : NodeId)
  | zeroAuthorizedValidatorWeight
  | authorizedValidatorWeightOverflow
  | unknownNode
  | invalidPenaltyEvents (message : String)
  | slashOverflow
  | inactivityDecayOverflow
  | invalidInteractionRound
  | invalidInteractionStateRound
  | unknownInteractionRater
  | ejectedInteractionRater
  | selfInteraction
  | missingInteractionReference
  | unknownInteractionRecipient
  | ejectedInteractionRecipient
deriving DecidableEq, Repr

/-! ### Configuration -/

/-- How the transition treats a node that only one of the two vectors covers. -/
inductive MissingEntryPolicy where
  | reject
  | carryForward
  | neutral
deriving DecidableEq, Repr

/-- Parameters of the calculation and of the penalties. -/
structure PorConfig where
  scale : U64
  initialReputation : U64
  liquidRankAlpha : U64
  minimumRating : U64
  maximumRating : U64
  missingEntryPolicy : MissingEntryPolicy
  correlationThreshold : U64
  baseSlashPenalty : U64
  inactivityDecayGamma : U64
deriving DecidableEq, Repr

/-- `PorConfig::validate`. -/
def PorConfig.validate (config : PorConfig) : Except PorError Unit :=
  if config.scale = 0 then .error (.invalidConfiguration "scale must be positive")
  else if config.liquidRankAlpha > config.scale ∨ config.initialReputation > config.scale then
    .error (.invalidConfiguration "alpha and initial reputation must not exceed scale")
  else if config.minimumRating > config.maximumRating then
    .error (.invalidConfiguration "minimum rating must not exceed maximum rating")
  else if config.correlationThreshold > config.scale ∨ config.baseSlashPenalty > config.scale ∨
      config.inactivityDecayGamma > config.scale then
    .error (.invalidConfiguration "penalty fractions must not exceed scale")
  else .ok ()

/-- A part of the scale, `scale * numerator / denominator`. -/
def scalePart (scale : U64) (numerator denominator : ℕ) : U64 :=
  Fin.ofNat _ (scale.val * numerator / denominator)

/-- `PorConfig::new`. -/
def PorConfig.new (scale initialReputation : U64) : PorConfig where
  scale := scale
  initialReputation := initialReputation
  liquidRankAlpha := scalePart scale 3 5
  minimumRating := 0
  maximumRating := scale
  missingEntryPolicy := .carryForward
  correlationThreshold := scalePart scale 300000000 1000000000
  baseSlashPenalty := scalePart scale 250000000 1000000000
  inactivityDecayGamma := scalePart scale 10000000 1000000000

/-- `PorConfig::default`. -/
protected def PorConfig.default : PorConfig := .new 1000000000 200000000

/-- What a valid configuration satisfies. -/
structure PorConfig.Valid (config : PorConfig) : Prop where
  scale_pos : 0 < config.scale
  alpha_le : config.liquidRankAlpha ≤ config.scale
  initial_le : config.initialReputation ≤ config.scale
  minimum_le : config.minimumRating ≤ config.maximumRating
  threshold_le : config.correlationThreshold ≤ config.scale
  penalty_le : config.baseSlashPenalty ≤ config.scale
  gamma_le : config.inactivityDecayGamma ≤ config.scale

theorem PorConfig.validate_eq_ok {config : PorConfig} :
    config.validate = .ok () ↔ config.Valid := by
  unfold validate
  constructor
  · intro h
    split_ifs at h with h₁ h₂ h₃ h₄
    simp only [not_or, not_lt] at h₂ h₃ h₄
    exact ⟨Fin.pos_iff_ne_zero.2 h₁, h₂.1, h₂.2, h₃, h₄.1, h₄.2.1, h₄.2.2⟩
  · intro h
    rw [if_neg (Fin.pos_iff_ne_zero.1 h.scale_pos), if_neg (by simp [h.alpha_le, h.initial_le]),
      if_neg (by simpa using h.minimum_le),
      if_neg (by simp [h.threshold_le, h.penalty_le, h.gamma_le])]

/-- The default configuration passes its own check. -/
theorem PorConfig.default_valid : PorConfig.default.Valid :=
  validate_eq_ok.1 (by decide +kernel)

/-! ### Ratings -/

/-- One rating: the rater scores the recipient. -/
structure RatingRecord where
  round : U64
  rater : NodeId
  recipient : NodeId
  score : U64
  signature : List Byte
  interactionRef : Option (List Byte)
deriving DecidableEq, Repr

/-- The ratings of one round. -/
structure RatingBatch where
  round : U64
  ratings : List RatingRecord
deriving DecidableEq, Repr

/-- Source identity of a checkpoint-driven round. -/
structure RatingSourceCheckpoint where
  round : U64
  finalizedPrefixLen : U64
  finalizedPrefixHash : ContentHash
deriving DecidableEq, Repr

/-- `POR_FINALIZED_BLOCKS_PER_CHECKPOINT`. -/
def finalizedBlocksPerCheckpoint : ℕ := 16

/-- `RatingSourceCheckpoint::validate`. -/
def RatingSourceCheckpoint.validate (source : RatingSourceCheckpoint) : Except PorError Unit :=
  if source.round = 0 ∨
      checkedMul64 source.round finalizedBlocksPerCheckpoint ≠ some source.finalizedPrefixLen.val then
    .error .invalidRatingSourceCheckpoint
  else .ok ()

/-! ### Reputations -/

/-- The reputation of one node. -/
structure ReputationEntry where
  nodeId : NodeId
  reputation : U64
  /-- What is left of the reputation of an excluded key. -/
  retainedReputation : U64
  isExcluded : Bool
deriving DecidableEq, Repr

namespace ReputationEntry

/-- An active entry. -/
def new (nodeId : NodeId) (reputation : U64) : ReputationEntry := ⟨nodeId, reputation, 0, false⟩

/-- An ejected entry. -/
def ejected (nodeId : NodeId) : ReputationEntry := ⟨nodeId, 0, 0, true⟩

@[simp] theorem new_nodeId (id : NodeId) (r : U64) : (new id r).nodeId = id := rfl

@[simp] theorem new_reputation (id : NodeId) (r : U64) : (new id r).reputation = r := rfl

@[simp] theorem new_retainedReputation (id : NodeId) (r : U64) :
    (new id r).retainedReputation = 0 := rfl

@[simp] theorem new_isExcluded (id : NodeId) (r : U64) : (new id r).isExcluded = false := rfl

@[simp] theorem ejected_nodeId (id : NodeId) : (ejected id).nodeId = id := rfl

end ReputationEntry

/-- The reputations after a round. -/
structure ReputationList where
  round : U64
  entries : List ReputationEntry
deriving DecidableEq, Repr

/-- The same as an input of the calculation. -/
structure ReputationVector where
  round : U64
  values : List ReputationEntry
deriving DecidableEq, Repr

/-- `entries.windows(2)`: each identity is smaller than the next. -/
def checkOrder : List ReputationEntry → Except PorError Unit
  | first :: second :: rest =>
      if first.nodeId < second.nodeId then checkOrder (second :: rest)
      else if first.nodeId = second.nodeId then .error .duplicateReputationEntry
      else .error .unsortedReputationVector
  | _ => .ok ()

/-- `validate_reputation_entries`. -/
def validateReputationEntries (entries : List ReputationEntry) : Except PorError Unit :=
  if entries.any fun entry => (entry.isExcluded && entry.reputation ≠ 0) ||
      (!entry.isExcluded && entry.retainedReputation ≠ 0) then
    .error .reputationExclusionMismatch
  else checkOrder entries

/-- Identities ascend. -/
abbrev Ordered (entries : List ReputationEntry) : Prop :=
  Keyed.Ascending ReputationEntry.nodeId entries

/-- The entry of a node, `binary_search_by`. -/
abbrev entryOf (entries : List ReputationEntry) (node : NodeId) : Option ReputationEntry :=
  Keyed.find ReputationEntry.nodeId entries node

/-- An excluded key has no weight and only an excluded key has a retained balance. -/
def ReputationEntry.Split (entry : ReputationEntry) : Prop :=
  (entry.isExcluded = true → entry.reputation = 0) ∧
    (entry.isExcluded = false → entry.retainedReputation = 0)

theorem checkOrder_eq_ok {entries : List ReputationEntry} :
    checkOrder entries = .ok () ↔ Ordered entries := by
  induction entries with
  | nil => exact iff_of_true rfl List.Pairwise.nil
  | cons first rest ih =>
      cases rest with
      | nil => exact iff_of_true rfl (List.pairwise_singleton _ _)
      | cons second rest =>
          unfold checkOrder
          constructor
          · intro h
            split_ifs at h with hlt
            have htail := ih.1 h
            refine List.pairwise_cons.2 ⟨fun b hb => ?_, htail⟩
            rcases List.mem_cons.1 hb with rfl | hb
            · exact hlt
            · exact hlt.trans ((List.pairwise_cons.1 htail).1 b hb)
          · intro h
            obtain ⟨hfirst, htail⟩ := List.pairwise_cons.1 h
            rw [if_pos (hfirst second List.mem_cons_self)]
            exact ih.2 htail

/-- **What a valid list of entries is.** -/
theorem validateReputationEntries_eq_ok {entries : List ReputationEntry} :
    validateReputationEntries entries = .ok () ↔
      Ordered entries ∧ ∀ entry ∈ entries, entry.Split := by
  unfold validateReputationEntries
  have hany : ∀ entry : ReputationEntry, ((entry.isExcluded && entry.reputation ≠ 0) ||
      (!entry.isExcluded && entry.retainedReputation ≠ 0)) = false ↔ entry.Split := by
    intro entry
    unfold ReputationEntry.Split
    cases entry.isExcluded <;> simp
  split_ifs with h
  · refine iff_of_false (by simp) ?_
    rintro ⟨-, hsplit⟩
    obtain ⟨entry, he, hbad⟩ := List.any_eq_true.1 h
    rw [(hany entry).2 (hsplit entry he)] at hbad
    exact absurd hbad (by simp)
  · rw [checkOrder_eq_ok]
    refine (and_iff_left fun entry he => (hany entry).1 ?_).symm
    rw [Bool.not_eq_true] at h
    exact List.any_eq_false.1 h entry he |> Bool.eq_false_iff.2

/-! ### Penalties and blocks -/

/-- The wave and round an authorization is for. -/
structure EquivocationAuthorizationContext where
  shardId : List Byte
  sourceFinalizedWave : U64
  round : U64
deriving DecidableEq, Repr

/-- The checkpoint an authorization is for. -/
structure CheckpointEquivocationAuthorizationContext where
  shardId : List Byte
  source : RatingSourceCheckpoint
deriving DecidableEq, Repr

inductive AuthorizationContext where
  | wave (context : EquivocationAuthorizationContext)
  | checkpoint (context : CheckpointEquivocationAuthorizationContext)
deriving DecidableEq, Repr

/-- The private part of a penalty. -/
structure EquivocationAuthorization where
  context : AuthorizationContext
  binding : ContentHash
  proofRound : ℕ
deriving DecidableEq, Repr

/-- One equivocation claim; it counts only with an intact authorization. -/
structure EquivocationPenalty where
  offender : NodeId
  evidence : List Byte
  authorization : Option EquivocationAuthorization
deriving DecidableEq, Repr

/-- One missed round. -/
structure InactivityPenalty where
  offender : NodeId
  missedRounds : U64
deriving DecidableEq, Repr

/-- The penalties of one transition. -/
structure ReputationPenaltyEvents where
  round : U64
  equivocations : List EquivocationPenalty
  inactivity : List InactivityPenalty
deriving DecidableEq, Repr

/-- What the hash of a block covers. -/
structure ReputationBlockHeader where
  version : U16
  shardId : List Byte
  sourceFinalizedWave : U64
  sourceCheckpoint : Option RatingSourceCheckpoint
  round : U64
  previousReputationHash : Option ReputationCommitment
  configHash : ReputationCommitment
  ratingsHash : ReputationCommitment
  penaltiesHash : ReputationCommitment
  reputationRoot : ReputationCommitment
deriving DecidableEq, Repr

/-- Header and list. -/
structure ReputationBlock where
  header : ReputationBlockHeader
  reputationList : ReputationList
deriving DecidableEq, Repr

end Reputation

end CordialMiners
