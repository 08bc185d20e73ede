/-
# From ratings to the next reputations

`ratings.rs`, `matrix.rs`, `normalization.rs`, `liquid_rank.rs`, `clamp.rs` and
the blend of `transition.rs`.

The ratings of a round are sorted by recipient and rater, normalised inside each
recipient's group, weighted by the previous reputation of the rater and summed;
the sum is blended with the previous reputation and clamped.  Every stage keeps
one entry for each node: the blend covers the nodes of both of its inputs
(`blendReputationTransition_spec`), and the clamp those of the blend
(`clampReputationTransition_spec`).

`integer_sqrt_u128` is the floor of the square root on the whole of `u128`
(`integerSqrtU128_eq`).
-/

import CordialMiners.Reputation.Types
import CordialMiners.Codec.Reader
import CordialMiners.Collections.Permuted

namespace CordialMiners.Reputation

open Codec (bind_eq_ok check_eq_ok guard_eq_ok forM_eq_ok mapM_eq_ok)

/-! ### Ratings and their matrix -/

/-- The order of batch and matrix: by recipient, then by rater. -/
def ratingKey (rating : RatingRecord) : NodeId ×ₗ NodeId := toLex (rating.recipient, rating.rater)

/-- `sort_by` recipient and rater; a stable sort. -/
def sortRatings (ratings : List RatingRecord) : List RatingRecord :=
  ratings.insertionSort fun a b => ratingKey a ≤ ratingKey b

/-- Whether two neighbours share recipient and rater. -/
def hasRepeat : List RatingRecord → Bool
  | previous :: current :: rest =>
      (previous.recipient = current.recipient ∧ previous.rater = current.rater) ||
        hasRepeat (current :: rest)
  | _ => false

/-- `validate_rating`. -/
def validateRating (rating : RatingRecord) (config : PorConfig) : Except PorError Unit :=
  if rating.rater = rating.recipient then .error .selfRating
  else if rating.score < config.minimumRating then .error .ratingBelowMinimum
  else if rating.score > config.maximumRating then .error .ratingAboveMaximum
  else if rating.signature = [] then .error .missingRatingSignature
  else .ok ()

/-- `build_rating_batch`. -/
def buildRatingBatch (round : U64) (ratings : List RatingRecord) (config : PorConfig) :
    Except PorError RatingBatch := do
  ratings.forM fun rating =>
    if rating.round ≠ round then .error .invalidRatingRound else validateRating rating config
  if hasRepeat (sortRatings ratings) then .error .duplicateRating
  else .ok ⟨round, sortRatings ratings⟩

/-- `RatingMatrix`. -/
structure RatingMatrix where
  round : U64
  ratings : List RatingRecord
deriving DecidableEq, Repr

/-- `build_rating_matrix`. -/
def buildRatingMatrix (batch : RatingBatch) : Except PorError RatingMatrix :=
  if batch.ratings.any fun rating => rating.round ≠ batch.round then .error .invalidRatingRound
  else if hasRepeat (sortRatings batch.ratings) then .error .duplicateMatrixEntry
  else .ok ⟨batch.round, sortRatings batch.ratings⟩

/-! ### Accepted batches -/

theorem perm_sortRatings (ratings : List RatingRecord) : (sortRatings ratings).Perm ratings :=
  List.perm_insertionSort _ _

theorem pairwise_sortRatings (ratings : List RatingRecord) :
    (sortRatings ratings).Pairwise fun a b => ratingKey a ≤ ratingKey b :=
  Permuted.pairwise_insertionSort ratingKey ratings

/-- In sorted ratings, a repetition is one of neighbours. -/
theorem hasRepeat_eq_false_iff {sorted : List RatingRecord}
    (hsorted : sorted.Pairwise fun a b => ratingKey a ≤ ratingKey b) :
    hasRepeat sorted = false ↔ sorted.Pairwise fun a b => ratingKey a < ratingKey b := by
  induction sorted with
  | nil => exact iff_of_true rfl List.Pairwise.nil
  | cons first rest ih =>
      obtain ⟨hfirst, hrest⟩ := List.pairwise_cons.1 hsorted
      cases rest with
      | nil => exact iff_of_true rfl (List.pairwise_singleton _ _)
      | cons second rest =>
          have hkey : (first.recipient = second.recipient ∧ first.rater = second.rater) ↔
              ratingKey first = ratingKey second := Prod.mk_inj.symm
          rw [hasRepeat, Bool.or_eq_false_iff, decide_eq_false_iff_not, hkey, ih hrest]
          constructor
          · rintro ⟨hne, htail⟩
            have hlt := lt_of_le_of_ne (hfirst second List.mem_cons_self) hne
            refine List.pairwise_cons.2 ⟨List.forall_mem_cons.2 ⟨hlt, fun other hother => ?_⟩, htail⟩
            exact hlt.trans ((List.pairwise_cons.1 htail).1 other hother)
          · intro h
            obtain ⟨hbelow, htail⟩ := List.pairwise_cons.1 h
            exact ⟨(hbelow second List.mem_cons_self).ne, htail⟩

/-- Sorted ratings repeat nothing exactly where no two of them share recipient and rater. -/
theorem hasRepeat_sortRatings (ratings : List RatingRecord) :
    hasRepeat (sortRatings ratings) = false ↔ (ratings.map ratingKey).Nodup := by
  rw [hasRepeat_eq_false_iff (pairwise_sortRatings ratings),
    ← ((perm_sortRatings ratings).map ratingKey).nodup_iff]
  constructor
  · intro h
    exact List.pairwise_map.2 (h.imp ne_of_lt)
  · intro h
    exact (pairwise_sortRatings ratings).imp₂ (fun _ _ => lt_of_le_of_ne) (List.pairwise_map.1 h)

/-- **What a batch is accepted for:** ratings of the round that keep to the policy, no two of
one rater for one recipient. -/
theorem buildRatingBatch_eq_ok {round : U64} {ratings : List RatingRecord} {config : PorConfig}
    {batch : RatingBatch} :
    buildRatingBatch round ratings config = .ok batch ↔
      (∀ rating ∈ ratings, rating.round = round ∧ validateRating rating config = .ok ()) ∧
        (ratings.map ratingKey).Nodup ∧ batch = ⟨round, sortRatings ratings⟩ := by
  unfold buildRatingBatch
  rw [check_eq_ok, forM_eq_ok, guard_eq_ok, Bool.not_eq_true,
    hasRepeat_sortRatings, Except.ok.injEq, eq_comm (b := batch)]
  refine and_congr_left fun _ => forall₂_congr fun rating _ => ?_
  rw [guard_eq_ok, not_not]

/-! ### Normalization -/

/-- A rater's share for a recipient. -/
structure NormalizedRatingEntry where
  rater : NodeId
  recipient : NodeId
  score : U64
  normalizedScore : U64
deriving DecidableEq, Repr

/-- The shares of a round. -/
structure NormalizedRatingMatrix where
  round : U64
  ratings : List NormalizedRatingEntry
deriving DecidableEq, Repr

/-- `normalize_score`; the quotient is at most the scale. -/
def normalizeScore (scoreDelta scale denominator : ℕ) : U64 :=
  Fin.ofNat _ ((scoreDelta + scale) * scale / denominator)

/-- `normalize_recipient_group`. -/
def normalizeRecipientGroup (scale : U64) (group : List RatingRecord) :
    Except PorError (List NormalizedRatingEntry) :=
  match group with
  | [] => .ok []
  | first :: rest =>
      let lowest := rest.foldl (fun low rating => min low rating.score) first.score
      let highest := rest.foldl (fun high rating => max high rating.score) first.score
      let denominator := (highest.val - lowest.val) + scale.val
      if denominator > (2 ^ 128 - 1) / scale.val then .error .normalizationOverflow
      else .ok (group.map fun rating =>
        { rater := rating.rater
          recipient := rating.recipient
          score := rating.score
          normalizedScore :=
            normalizeScore (rating.score.val - lowest.val) scale.val denominator })

/-- `normalize_rating_matrix`. -/
def normalizeRatingMatrix (matrix : RatingMatrix) (config : PorConfig) :
    Except PorError NormalizedRatingMatrix :=
  if config.scale = 0 then .error .invalidNormalizationScale
  else do
    let groups ← (matrix.ratings.splitBy fun left right =>
      left.recipient = right.recipient).mapM (normalizeRecipientGroup config.scale)
    .ok ⟨matrix.round, groups.flatten⟩

/-! ### Liquid rank -/

/-- `reputation_of`. -/
def reputationOf (previous : ReputationVector) (node : NodeId) : Except PorError U64 :=
  okOr .missingRaterReputation ((entryOf previous.values node).map ReputationEntry.reputation)

/-- `push_recipient_contribution`: what a group of ratings contributes. -/
def recipientContribution (previous : ReputationVector) (scale : U64)
    (group : List NormalizedRatingEntry) : Except PorError (List ReputationEntry) :=
  match group with
  | [] => .ok []
  | first :: _ => do
      let weightedScoreSum ← group.foldlM (fun sum rating => do
        let raterReputation ← reputationOf previous rating.rater
        okOr .liquidRankOverflow
          (checkedAdd128 sum (rating.normalizedScore.val * raterReputation.val))) 0
      let reputation ← okOr .liquidRankOverflow (tryU64 (weightedScoreSum / scale.val))
      .ok [.new first.recipient reputation]

/-- `compute_liquid_rank_contribution`. -/
def computeLiquidRankContribution (matrix : NormalizedRatingMatrix) (previous : ReputationVector)
    (config : PorConfig) : Except PorError ReputationVector :=
  if config.scale = 0 then .error .invalidLiquidRankScale
  else do
    checkOrder previous.values
    let groups ← (matrix.ratings.splitBy fun left right =>
      left.recipient = right.recipient).mapM (recipientContribution previous config.scale)
    .ok ⟨matrix.round, groups.flatten⟩

/-! ### Blend -/

/-- `contribution_for_unrated_node`. -/
def contributionForUnratedNode (previous : U64) (config : PorConfig) : Except PorError U64 :=
  match config.missingEntryPolicy with
  | .reject => .error .missingContributionEntry
  | .carryForward => .ok previous
  | .neutral => .ok config.initialReputation

/-- `previous_for_new_node`. -/
def previousForNewNode (config : PorConfig) : Except PorError U64 :=
  match config.missingEntryPolicy with
  | .reject => .error .missingPreviousReputation
  | .carryForward | .neutral => .ok config.initialReputation

/-- `blend_reputation`. -/
def blendReputation (contribution previous : U64) (config : PorConfig) : Except PorError U64 := do
  let contributionTerm ← okOr .reputationTransitionOverflow
    (checkedMul128 config.liquidRankAlpha contribution)
  let previousTerm ← okOr .reputationTransitionOverflow
    (checkedMul128 (config.scale.val - config.liquidRankAlpha.val) previous)
  let sum ← okOr .reputationTransitionOverflow (checkedAdd128 contributionTerm previousTerm)
  okOr .reputationTransitionOverflow (tryU64 (sum / config.scale.val))

/-- One blended entry in front of the others. -/
def blendEntry (node : NodeId) (contribution previous : Except PorError U64) (config : PorConfig)
    (rest : Except PorError (List ReputationEntry)) : Except PorError (List ReputationEntry) := do
  let contribution ← contribution
  let previous ← previous
  let reputation ← blendReputation contribution previous config
  let rest ← rest
  .ok (.new node reputation :: rest)

/-- The loop of `blend_reputation_transition` over both vectors. -/
def blendEntries (config : PorConfig) :
    List ReputationEntry → List ReputationEntry → Except PorError (List ReputationEntry)
  | [], [] => .ok []
  | entry :: contributions, [] =>
      blendEntry entry.nodeId (.ok entry.reputation) (previousForNewNode config) config
        (blendEntries config contributions [])
  | [], old :: previous =>
      blendEntry old.nodeId (contributionForUnratedNode old.reputation config) (.ok old.reputation)
        config (blendEntries config [] previous)
  | entry :: contributions, old :: previous =>
      if entry.nodeId = old.nodeId then
        blendEntry entry.nodeId (.ok entry.reputation) (.ok old.reputation) config
          (blendEntries config contributions previous)
      else if entry.nodeId < old.nodeId then
        blendEntry entry.nodeId (.ok entry.reputation) (previousForNewNode config) config
          (blendEntries config contributions (old :: previous))
      else
        blendEntry old.nodeId (contributionForUnratedNode old.reputation config)
          (.ok old.reputation) config (blendEntries config (entry :: contributions) previous)
termination_by contributions previous => contributions.length + previous.length

/-- `blend_reputation_transition`. -/
def blendReputationTransition (contribution previous : ReputationVector) (config : PorConfig) :
    Except PorError ReputationVector :=
  if config.scale = 0 then .error .invalidTransitionScale
  else if config.liquidRankAlpha > config.scale then .error .invalidLiquidRankAlpha
  else do
    config.validate
    if checkedAdd64 previous.round 1 ≠ some contribution.round.val then
      .error .invalidTransitionRound
    else
      checkOrder contribution.values
      checkOrder previous.values
      let values ← blendEntries config contribution.values previous.values
      .ok ⟨contribution.round, values⟩

/-! ### Clamp -/

/-- The binary search of `integer_sqrt_u128`; an exact root ends it early. -/
def sqrtSearch (n low high : ℕ) : Except ℕ ℕ :=
  if low + 1 < high then
    let mid := (low + high) / 2
    match checkedMul128 mid mid with
    | some square =>
        if square = n then .error mid
        else if square < n then sqrtSearch n mid high
        else sqrtSearch n low mid
    | none => sqrtSearch n low mid
  else .ok low
termination_by high - low

/-- Adjust upward while the next square still fits. -/
def sqrtRaise (n low : ℕ) : ℕ :=
  match hsquare : checkedMul128 (low + 1) (low + 1) with
  | some square => if square ≤ n then sqrtRaise n (low + 1) else low
  | none => low
termination_by n - low
decreasing_by
  unfold checkedMul128 at hsquare
  split_ifs at hsquare
  obtain rfl := Option.some.inj hsquare
  have : low + 1 ≤ (low + 1) * (low + 1) := Nat.le_mul_self _
  omega

/-- Adjust downward while the square is too large. -/
def sqrtLower (n : ℕ) : ℕ → ℕ
  | 0 => 0
  | low + 1 =>
      match checkedMul128 (low + 1) (low + 1) with
      | some square => if square > n then sqrtLower n low else low + 1
      | none => sqrtLower n low

/-- `integer_sqrt_u128`. -/
def integerSqrtU128 (n : ℕ) : ℕ :=
  match sqrtSearch n 0 (2 ^ 64) with
  | .error root => root
  | .ok low => sqrtLower n (sqrtRaise n low)

/-- `clamp_reputation_value`. -/
def clampReputationValue (value scale : U64) : Except PorError U64 :=
  if scale = 0 then .error .invalidClampScale
  else if value = 0 then .ok 0
  else do
    let scaleSquare ← okOr .clampOverflow (checkedMul128 scale scale)
    let valueSquare ← okOr .clampOverflow (checkedMul128 value value)
    let sum ← okOr .clampOverflow (checkedAdd128 scaleSquare valueSquare)
    let denominator := integerSqrtU128 sum
    if denominator = 0 then .error .clampOverflow
    else
      let numerator ← okOr .clampOverflow (checkedMul128 value scale)
      let rounded ← okOr .clampOverflow (checkedAdd128 numerator (denominator / 2))
      .ok (if rounded / denominator > 2 ^ 64 - 1 then Fin.last _
        else Fin.ofNat _ (rounded / denominator))

/-- An entry with its reputation clamped. -/
def clampEntry (scale : U64) (entry : ReputationEntry) : Except PorError ReputationEntry := do
  let clamped ← clampReputationValue entry.reputation scale
  .ok (.new entry.nodeId clamped)

/-- `clamp_reputation_vector`. -/
def clampReputationVector (reputation : ReputationVector) (config : PorConfig) :
    Except PorError ReputationVector :=
  if config.scale = 0 then .error .invalidClampScale
  else do
    let values ← reputation.values.mapM (clampEntry config.scale)
    .ok ⟨reputation.round, values⟩

/-- `advance_to`: drop the entries of smaller nodes. -/
def advanceTo (entries : List ReputationEntry) (target : NodeId) : List ReputationEntry :=
  entries.dropWhile fun entry => entry.nodeId < target

/-- `has_node_at`: the first entry, if it is the node's. -/
def nodeAt (entries : List ReputationEntry) (target : NodeId) : Option ReputationEntry :=
  entries.head?.filter fun entry => entry.nodeId = target

/-- A node without ratings keeps its previous reputation. -/
def carriedReputation (scale : U64) (previous contribution : List ReputationEntry)
    (entry : ReputationEntry) : Except PorError U64 :=
  match nodeAt previous entry.nodeId, nodeAt contribution entry.nodeId with
  | some old, none => .ok old.reputation
  | _, _ => clampReputationValue entry.reputation scale

/-- The loop of `clamp_reputation_transition` over what is left of each vector. -/
def clampCarryForward (scale : U64) :
    List ReputationEntry → List ReputationEntry → List ReputationEntry →
      Except PorError (List ReputationEntry)
  | _, _, [] => .ok []
  | previous, contribution, entry :: blended => do
      let reputation ← carriedReputation scale (advanceTo previous entry.nodeId)
        (advanceTo contribution entry.nodeId) entry
      let rest ← clampCarryForward scale (advanceTo previous entry.nodeId)
        (advanceTo contribution entry.nodeId) blended
      .ok (.new entry.nodeId reputation :: rest)

/-- `clamp_reputation_transition`. -/
def clampReputationTransition (blended previous contribution : ReputationVector)
    (config : PorConfig) : Except PorError ReputationVector :=
  if config.missingEntryPolicy ≠ .carryForward then clampReputationVector blended config
  else if config.scale = 0 then .error .invalidClampScale
  else do
    let values ← clampCarryForward config.scale previous.values contribution.values blended.values
    .ok ⟨blended.round, values⟩

/-! ### The nodes an entry list covers -/

/-- An entry of the calculation: active, nothing retained. -/
def ReputationEntry.Fresh (entry : ReputationEntry) : Prop :=
  entry.retainedReputation = 0 ∧ entry.isExcluded = false

theorem ReputationEntry.fresh_new (node : NodeId) (reputation : U64) :
    (ReputationEntry.new node reputation).Fresh := ⟨rfl, rfl⟩

variable {config : PorConfig} {out contributions previous : List ReputationEntry} {node : NodeId}

theorem blendEntry_ok {contribution old : Except PorError U64}
    {rest : Except PorError (List ReputationEntry)}
    (h : blendEntry node contribution old config rest = .ok out) :
    ∃ reputation tail, rest = .ok tail ∧ out = .new node reputation :: tail := by
  obtain ⟨_, -, h⟩ := bind_eq_ok.1 h
  obtain ⟨_, -, h⟩ := bind_eq_ok.1 h
  obtain ⟨reputation, -, h⟩ := bind_eq_ok.1 h
  obtain ⟨tail, htail, h⟩ := bind_eq_ok.1 h
  exact ⟨reputation, tail, htail, (Except.ok.inj h).symm⟩

/-- A blend has one fresh entry for each node of its inputs, in order. -/
structure Blends (contributions previous out : List ReputationEntry) : Prop where
  fresh : ∀ entry ∈ out, entry.Fresh
  nodes : ∀ id, id ∈ out.map ReputationEntry.nodeId ↔
    id ∈ contributions.map ReputationEntry.nodeId ∨ id ∈ previous.map ReputationEntry.nodeId
  ordered : Ordered contributions → Ordered previous → Ordered out

/-- One entry in front, whose node is below what is left of the inputs. -/
theorem Blends.cons {cs ps tail : List ReputationEntry} (h : Blends cs ps tail) (reputation : U64)
    (hnodes : ∀ id, (id ∈ contributions.map ReputationEntry.nodeId ∨
      id ∈ previous.map ReputationEntry.nodeId) ↔
        id = node ∨ id ∈ cs.map ReputationEntry.nodeId ∨ id ∈ ps.map ReputationEntry.nodeId)
    (hbelow : Ordered contributions → Ordered previous → (Ordered cs ∧ Ordered ps) ∧
      (∀ entry ∈ cs, node < entry.nodeId) ∧ ∀ entry ∈ ps, node < entry.nodeId) :
    Blends contributions previous (.new node reputation :: tail) where
  fresh := List.forall_mem_cons.2 ⟨ReputationEntry.fresh_new _ _, h.fresh⟩
  nodes id := by rw [List.map_cons, List.mem_cons, h.nodes, hnodes, ReputationEntry.new_nodeId]
  ordered hcontributions hprevious := by
    obtain ⟨⟨hcs, hps⟩, hbelow, hbelow'⟩ := hbelow hcontributions hprevious
    refine List.pairwise_cons.2 ⟨fun entry hentry => ?_, h.ordered hcs hps⟩
    rcases (h.nodes _).1 (List.mem_map_of_mem hentry) with hid | hid
    · obtain ⟨c, hc, heq⟩ := List.mem_map.1 hid
      exact (hbelow c hc).trans_eq heq
    · obtain ⟨p, hp, heq⟩ := List.mem_map.1 hid
      exact (hbelow' p hp).trans_eq heq

/-- What is above the first of an ordered list is above all of it. -/
theorem Ordered.below {entry : ReputationEntry} {entries : List ReputationEntry}
    (h : Ordered (entry :: entries)) (hlt : node < entry.nodeId) :
    ∀ e ∈ entry :: entries, node < e.nodeId :=
  List.forall_mem_cons.2 ⟨hlt, fun e he => hlt.trans ((List.pairwise_cons.1 h).1 e he)⟩

/-- **The blend has one fresh entry for each node of its inputs**, in order. -/
theorem blendEntries_spec (h : blendEntries config contributions previous = .ok out) :
    Blends contributions previous out := by
  fun_induction blendEntries config contributions previous generalizing out with
  | case1 =>
      obtain rfl := Except.ok.inj h
      exact ⟨by simp, by simp, fun _ _ => List.Pairwise.nil⟩
  | case2 entry contributions ih =>
      obtain ⟨reputation, tail, htail, rfl⟩ := blendEntry_ok h
      refine (ih htail).cons reputation (by simp) fun hcs hps => ?_
      obtain ⟨hbelow, hcs⟩ := List.pairwise_cons.1 hcs
      exact ⟨⟨hcs, hps⟩, hbelow, by simp⟩
  | case3 old previous ih =>
      obtain ⟨reputation, tail, htail, rfl⟩ := blendEntry_ok h
      refine (ih htail).cons reputation (by simp) fun hcs hps => ?_
      obtain ⟨hbelow, hps⟩ := List.pairwise_cons.1 hps
      exact ⟨⟨hcs, hps⟩, by simp, hbelow⟩
  | case4 entry contributions old previous heq ih =>
      obtain ⟨reputation, tail, htail, rfl⟩ := blendEntry_ok h
      refine (ih htail).cons reputation (fun id => ?_) fun hcs hps => ?_
      · rw [List.map_cons, List.mem_cons, List.map_cons, List.mem_cons, ← heq]
        tauto
      · obtain ⟨hbelow, hcs⟩ := List.pairwise_cons.1 hcs
        obtain ⟨hbelow', hps⟩ := List.pairwise_cons.1 hps
        exact ⟨⟨hcs, hps⟩, hbelow, by rwa [heq]⟩
  | case5 entry contributions old previous hne hlt ih =>
      obtain ⟨reputation, tail, htail, rfl⟩ := blendEntry_ok h
      refine (ih htail).cons reputation (by simp [or_assoc]) fun hcs hps => ?_
      obtain ⟨hbelow, hcs⟩ := List.pairwise_cons.1 hcs
      exact ⟨⟨hcs, hps⟩, hbelow, hps.below hlt⟩
  | case6 entry contributions old previous hne hlt ih =>
      obtain ⟨reputation, tail, htail, rfl⟩ := blendEntry_ok h
      refine (ih htail).cons reputation (by simp [or_left_comm]) fun hcs hps => ?_
      obtain ⟨hbelow, hps⟩ := List.pairwise_cons.1 hps
      exact ⟨⟨hcs, hps⟩, hcs.below (lt_of_le_of_ne (not_lt.1 hlt) (Ne.symm hne)), hbelow⟩

/-- The blend of two vectors covers the nodes of both. -/
theorem blendReputationTransition_spec {contribution old blended : ReputationVector}
    (h : blendReputationTransition contribution old config = .ok blended) :
    blended.round = contribution.round ∧ checkedAdd64 old.round 1 = some contribution.round.val ∧
      (∀ entry ∈ blended.values, entry.Fresh) ∧ Ordered blended.values ∧
      ∀ id, id ∈ blended.values.map ReputationEntry.nodeId ↔
        id ∈ contribution.values.map ReputationEntry.nodeId ∨
          id ∈ old.values.map ReputationEntry.nodeId := by
  unfold blendReputationTransition at h
  split_ifs at h with _ _ hround
  · obtain ⟨-, -, h⟩ := bind_eq_ok.1 h
    exact absurd h (by simp)
  obtain ⟨-, -, h⟩ := bind_eq_ok.1 h
  obtain ⟨⟨⟩, hcontribution, h⟩ := bind_eq_ok.1 h
  obtain ⟨⟨⟩, hold, h⟩ := bind_eq_ok.1 h
  obtain ⟨values, hvalues, h⟩ := bind_eq_ok.1 h
  obtain rfl := Except.ok.inj h
  have hblends := blendEntries_spec hvalues
  exact ⟨rfl, not_not.1 hround, hblends.fresh,
    hblends.ordered (checkOrder_eq_ok.1 hcontribution) (checkOrder_eq_ok.1 hold),
    hblends.nodes⟩

/-- The clamp keeps the nodes. -/
theorem clampCarryForward_spec {scale : U64} {contribution blended : List ReputationEntry}
    (h : clampCarryForward scale previous contribution blended = .ok out) :
    (∀ entry ∈ out, entry.Fresh) ∧
      out.map ReputationEntry.nodeId = blended.map ReputationEntry.nodeId := by
  induction blended generalizing previous contribution out with
  | nil =>
      obtain rfl := Except.ok.inj h
      exact ⟨by simp, rfl⟩
  | cons entry blended ih =>
      rw [clampCarryForward] at h
      obtain ⟨reputation, -, h⟩ := bind_eq_ok.1 h
      obtain ⟨rest, hrest, h⟩ := bind_eq_ok.1 h
      obtain rfl := Except.ok.inj h
      obtain ⟨hfresh, hkeys⟩ := ih hrest
      exact ⟨List.forall_mem_cons.2 ⟨ReputationEntry.fresh_new _ _, hfresh⟩, by simp [hkeys]⟩

theorem mapM_clampEntry_spec {scale : U64} {blended : List ReputationEntry}
    (h : blended.mapM (clampEntry scale) = .ok out) :
    (∀ entry ∈ out, entry.Fresh) ∧
      out.map ReputationEntry.nodeId = blended.map ReputationEntry.nodeId := by
  have hall := mapM_eq_ok.1 h
  clear h
  induction hall with
  | nil => simp
  | cons hab _ ih =>
      obtain ⟨value, -, hb⟩ := bind_eq_ok.1 hab
      obtain rfl := Except.ok.inj hb
      exact ⟨List.forall_mem_cons.2 ⟨ReputationEntry.fresh_new _ _, ih.1⟩, by simp [ih.2]⟩

/-- **The clamped vector has the nodes of the blend**, all of them fresh. -/
theorem clampReputationTransition_spec {blended old contribution clamped : ReputationVector}
    (h : clampReputationTransition blended old contribution config = .ok clamped) :
    clamped.round = blended.round ∧ (∀ entry ∈ clamped.values, entry.Fresh) ∧
      clamped.values.map ReputationEntry.nodeId = blended.values.map ReputationEntry.nodeId := by
  unfold clampReputationTransition at h
  split_ifs at h
  · unfold clampReputationVector at h
    split_ifs at h
    obtain ⟨values, hvalues, h⟩ := bind_eq_ok.1 h
    obtain rfl := Except.ok.inj h
    exact ⟨rfl, mapM_clampEntry_spec hvalues⟩
  · obtain ⟨values, hvalues, h⟩ := bind_eq_ok.1 h
    obtain rfl := Except.ok.inj h
    exact ⟨rfl, clampCarryForward_spec hvalues⟩

/-! ### The square root -/

theorem checkedMul128_self {m n : ℕ} (hn : n < 2 ^ 128) :
    (∃ square, checkedMul128 m m = some square ∧ square = m * m) ∨
      (checkedMul128 m m = none ∧ n < m * m) := by
  unfold checkedMul128
  split_ifs with h
  · exact Or.inl ⟨_, rfl, rfl⟩
  · exact Or.inr ⟨rfl, by omega⟩

/-- The search keeps the root between its bounds. -/
theorem sqrtSearch_spec {n low high : ℕ} (hn : n < 2 ^ 128) (hlow : low * low ≤ n)
    (hhigh : n < high * high) :
    match sqrtSearch n low high with
    | .error root => root * root = n
    | .ok low => low * low ≤ n ∧ n < (low + 1) * (low + 1) := by
  induction hk : high - low using Nat.strong_induction_on generalizing low high with
  | _ k ih =>
      unfold sqrtSearch
      split_ifs with hlt
      · rcases checkedMul128_self (m := (low + high) / 2) hn with ⟨square, hs, rfl⟩ | ⟨hs, hbig⟩
        · simp only [hs]
          split_ifs with heq hless
          · exact heq
          · exact ih _ (by omega) hless.le hhigh rfl
          · exact ih _ (by omega) hlow (by omega) rfl
        · simp only [hs]
          exact ih _ (by omega) hlow hbig rfl
      · have hlt' : low < high := lt_of_mul_self_lt_mul_self₀ (Nat.zero_le _) (hlow.trans_lt hhigh)
        obtain rfl : high = low + 1 := by omega
        exact ⟨hlow, hhigh⟩

/-- **`integer_sqrt_u128` is the floor of the square root.** -/
theorem integerSqrtU128_eq {n : ℕ} (hn : n < 2 ^ 128) : integerSqrtU128 n = Nat.sqrt n := by
  have hsearch := @sqrtSearch_spec n 0 (2 ^ 64) hn (by omega) (by omega)
  unfold integerSqrtU128
  cases hfound : sqrtSearch n 0 (2 ^ 64) with
  | error root =>
      rw [hfound] at hsearch
      simp only at hsearch ⊢
      rw [← hsearch, Nat.sqrt_eq]
  | ok low =>
      rw [hfound] at hsearch
      obtain ⟨hle, hlt⟩ := hsearch
      have hraise : sqrtRaise n low = low := by
        unfold sqrtRaise
        rcases checkedMul128_self (m := low + 1) hn with ⟨square, hs, rfl⟩ | ⟨hs, -⟩
        · split
          · next square hs' =>
            obtain rfl := Option.some.inj (hs.symm.trans hs')
            exact if_neg (by omega)
          · rfl
        · split
          · next square hs' => rw [hs] at hs'; exact absurd hs' (by simp)
          · rfl
      have hlower : sqrtLower n low = low := by
        cases low with
        | zero => rfl
        | succ low =>
            rcases checkedMul128_self (m := low + 1) hn with ⟨square, hs, rfl⟩ | ⟨-, hbig⟩
            · simp only [sqrtLower, hs]
              exact if_neg (by omega)
            · exact absurd hbig (by omega)
      simp only
      rw [hraise, hlower]
      exact (Nat.eq_sqrt.2 ⟨hle, hlt⟩)

end CordialMiners.Reputation
