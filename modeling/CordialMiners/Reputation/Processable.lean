/-
# Which rounds can be processed

The stages of `replay_reputation_transition` under a valid configuration, a canonical
previous vector and an accepted batch.  The validator of a configuration bounds the
fractions by the scale and leaves the scale itself free, and each stage answers an
overflow with its own error: a normalized score is a quotient of 128-bit products, a
contribution is a sum over all raters that has to fit in 64 bits, the clamp adds two
squares.

`RoundFits` says of the inputs that none of this happens.  A replay returns a list
exactly where the round fits, and an overflow error elsewhere; the blend never
overflows (`replay_ok_iff_fits`).  A round fits where the scale, taken once for each
rating of a recipient, stays within `2 ^ 63` (`RoundFits.of_scale_le`).
-/

import CordialMiners.Collections.Grouped
import CordialMiners.Reputation.Audit

namespace CordialMiners.Reputation

open Codec (beBytes)

/-! ### The numbers of a round -/

/-- The lowest score of a group. -/
def lowScore (group : List RatingRecord) : ℕ := ((group.map RatingRecord.score).min?.getD 0).val

/-- The highest score of a group. -/
def highScore (group : List RatingRecord) : ℕ := ((group.map RatingRecord.score).max?.getD 0).val

/-- The normalized score of a rating in its group. -/
def normalizedScore (scale : ℕ) (group : List RatingRecord) (rating : RatingRecord) : ℕ :=
  (rating.score.val - lowScore group + scale) * scale /
    ((highScore group - lowScore group) + scale)

/-- The reputation of a node, or a default. -/
def reputationIn (previous : ReputationVector) (node : NodeId) (default : ℕ) : ℕ :=
  ((entryOf previous.values node).map fun entry => entry.reputation.val).getD default

/-- The contribution of a group: its normalized scores under the reputations of the raters. -/
def liquidRank (scale : ℕ) (previous : ReputationVector) (group : List RatingRecord) : ℕ :=
  (group.map fun rating =>
    normalizedScore scale group rating * reputationIn previous rating.rater 0).sum / scale

/-- Contribution and previous reputation, blended. -/
def alphaBlend (config : PorConfig) (contribution old : ℕ) : ℕ :=
  (config.liquidRankAlpha.val * contribution +
    (config.scale.val - config.liquidRankAlpha.val) * old) / config.scale.val

/-- The ratings of a recipient. -/
def RatingBatch.ratingsOf (batch : RatingBatch) (recipient : NodeId) : List RatingRecord :=
  batch.ratings.filter fun rating => rating.recipient = recipient

/-- **The numbers of the round fit:** every normalized score and every clamped square in
128 bits, every contribution in 64. -/
structure RoundFits (config : PorConfig) (previous : ReputationVector) (batch : RatingBatch) :
    Prop where
  scores : ∀ rating ∈ batch.ratings,
    ((highScore (batch.ratingsOf rating.recipient) - lowScore (batch.ratingsOf rating.recipient)) +
      config.scale.val) * config.scale.val < 2 ^ 128
  ranks : ∀ rating ∈ batch.ratings,
    liquidRank config.scale.val previous (batch.ratingsOf rating.recipient) < 2 ^ 64
  rated : ∀ rating ∈ batch.ratings,
    config.scale.val ^ 2 +
      alphaBlend config
        (liquidRank config.scale.val previous (batch.ratingsOf rating.recipient))
        (reputationIn previous rating.recipient config.initialReputation.val) ^ 2 < 2 ^ 128
  unrated : config.missingEntryPolicy = .neutral → ∀ entry ∈ previous.values,
    (∀ rating ∈ batch.ratings, rating.recipient ≠ entry.nodeId) →
      config.scale.val ^ 2 +
        alphaBlend config config.initialReputation.val entry.reputation.val ^ 2 < 2 ^ 128

/-! ### Stages that fail in one way -/

/-- A stage over a list that fails with one error fails where one item does. -/
theorem mapM_ite {α β ε : Type} (fits : α → Prop) [DecidablePred fits] (f : α → β) (error : ε) :
    ∀ l : List α, (l.mapM fun a => if fits a then Except.ok (f a) else Except.error error) =
      if ∀ a ∈ l, fits a then .ok (l.map f) else .error error
  | [] => by simp [pure, Except.pure]
  | a :: l => by
      rw [List.mapM_cons, mapM_ite fits f error l]
      by_cases ha : fits a
      · by_cases hl : ∀ b ∈ l, fits b
        · rw [if_pos ha, if_pos hl, if_pos (List.forall_mem_cons.2 ⟨ha, hl⟩)]
          rfl
        · rw [if_pos ha, if_neg hl, if_neg fun h => hl (List.forall_mem_cons.1 h).2]
          rfl
      · rw [if_neg ha, if_neg fun h => ha (List.forall_mem_cons.1 h).1]
        rfl

theorem mapM_congr_mem {α β ε : Type} {f g : α → Except ε β} :
    ∀ {l : List α}, (∀ a ∈ l, f a = g a) → l.mapM f = l.mapM g
  | [], _ => rfl
  | a :: l, h => by
      rw [List.mapM_cons, List.mapM_cons, h a (List.mem_cons_self ..),
        mapM_congr_mem fun b hb => h b (List.mem_cons_of_mem _ hb)]

/-! ### Normalization -/

section Normalization

variable {scale : U64} {group : List RatingRecord} {rating : RatingRecord}

/-- The running minimum of `normalize_recipient_group`. -/
theorem foldl_min_score (first : RatingRecord) (rest : List RatingRecord) :
    (rest.foldl (fun low rating => min low rating.score) first.score).val =
      lowScore (first :: rest) := by
  rw [lowScore, List.map_cons, List.min?_cons', List.foldl_map]
  rfl

/-- The running maximum. -/
theorem foldl_max_score (first : RatingRecord) (rest : List RatingRecord) :
    (rest.foldl (fun high rating => max high rating.score) first.score).val =
      highScore (first :: rest) := by
  rw [highScore, List.map_cons, List.max?_cons', List.foldl_map]
  rfl

theorem score_le_highScore (h : rating ∈ group) : rating.score.val ≤ highScore group := by
  unfold highScore
  cases hmax : (group.map RatingRecord.score).max? with
  | none =>
      rw [List.max?_eq_none_iff, List.map_eq_nil_iff] at hmax
      simp [hmax] at h
  | some high =>
      exact (List.max?_eq_some_iff.1 hmax).2 _ (List.mem_map_of_mem h)

/-- A normalized score is at most the scale. -/
theorem normalizedScore_le (h : rating ∈ group) :
    normalizedScore scale.val group rating ≤ scale.val := by
  have hscore := score_le_highScore h
  unfold normalizedScore
  refine Nat.div_le_of_le_mul ?_
  exact Nat.mul_le_mul_right _ (by omega)

/-- A rating with its normalized score. -/
def normalizedEntry (scale : U64) (group : List RatingRecord) (rating : RatingRecord) :
    NormalizedRatingEntry :=
  ⟨rating.rater, rating.recipient, rating.score,
    Fin.ofNat _ (normalizedScore scale.val group rating)⟩

theorem normalizedEntry_score (h : rating ∈ group) :
    (normalizedEntry scale group rating).normalizedScore.val =
      normalizedScore scale.val group rating :=
  Nat.mod_eq_of_lt ((normalizedScore_le h).trans_lt scale.isLt)

/-- A group is normalized where its quotient fits. -/
theorem normalizeRecipientGroup_eq (hpos : 0 < scale.val) (hne : group ≠ []) :
    normalizeRecipientGroup scale group =
      if ((highScore group - lowScore group) + scale.val) * scale.val < 2 ^ 128 then
        .ok (group.map (normalizedEntry scale group))
      else .error .normalizationOverflow := by
  cases group with
  | nil => exact absurd rfl hne
  | cons first rest =>
      unfold normalizeRecipientGroup
      dsimp only
      rw [foldl_min_score, foldl_max_score]
      have hdiv : ((highScore (first :: rest) - lowScore (first :: rest)) + scale.val) ≤
          (2 ^ 128 - 1) / scale.val ↔
          ((highScore (first :: rest) - lowScore (first :: rest)) + scale.val) * scale.val <
            2 ^ 128 := by
        rw [Nat.le_div_iff_mul_le hpos]
        omega
      split_ifs with h₁ h₂ h₂
      · exact absurd (hdiv.2 h₂) (by omega)
      · rfl
      · rfl
      · exact absurd (hdiv.1 (by omega)) h₂

end Normalization

/-! ### Contributions -/

section Contributions

variable {config : PorConfig} {previous : ReputationVector} {round : U64} {scale : U64}
  {group ratings : List RatingRecord} {batch : RatingBatch}

/-- The groups of a list of ratings, one for each recipient. -/
abbrev recipientGroups (ratings : List RatingRecord) : List (List RatingRecord) :=
  Grouped.groups RatingRecord.recipient ratings

theorem reputationOf_eq {node : NodeId} (h : entryOf previous.values node ≠ none) :
    ∃ reputation, reputationOf previous node = .ok reputation ∧
      reputation.val = reputationIn previous node 0 := by
  obtain ⟨entry, hentry⟩ := Option.ne_none_iff_exists'.1 h
  refine ⟨entry.reputation, ?_, ?_⟩
  · unfold reputationOf
    rw [hentry]
    rfl
  · unfold reputationIn
    rw [hentry]
    rfl

/-- The checked sum of a group, from a start that fits. -/
theorem foldlM_weightedScore {entries : List NormalizedRatingEntry} {start : ℕ}
    (hraters : ∀ rating ∈ entries, entryOf previous.values rating.rater ≠ none)
    (hstart : start < 2 ^ 128) :
    (entries.foldlM (fun sum rating => do
      let raterReputation ← reputationOf previous rating.rater
      okOr PorError.liquidRankOverflow
        (checkedAdd128 sum (rating.normalizedScore.val * raterReputation.val))) start) =
      if start + (entries.map fun rating =>
          rating.normalizedScore.val * reputationIn previous rating.rater 0).sum < 2 ^ 128 then
        .ok (start + (entries.map fun rating =>
          rating.normalizedScore.val * reputationIn previous rating.rater 0).sum)
      else .error .liquidRankOverflow := by
  induction entries generalizing start with
  | nil => simpa [pure, Except.pure] using hstart
  | cons rating entries ih =>
      obtain ⟨reputation, hreputation, hval⟩ :=
        reputationOf_eq (hraters rating (List.mem_cons_self ..))
      rw [List.foldlM_cons, hreputation, List.map_cons, List.sum_cons, ← hval]
      show (okOr PorError.liquidRankOverflow
        (checkedAdd128 start (rating.normalizedScore.val * reputation.val)) >>= _) = _
      unfold checkedAdd128
      by_cases hfits : start + rating.normalizedScore.val * reputation.val < 2 ^ 128
      · rw [if_pos hfits, ← Nat.add_assoc]
        exact ih (fun r hr => hraters r (List.mem_cons_of_mem _ hr)) hfits
      · rw [if_neg hfits, if_neg (by omega)]
        rfl

/-- What a group contributes to its recipient. -/
def contributionEntry (scale : U64) (previous : ReputationVector) (group : List RatingRecord) :
    ReputationEntry :=
  .new (group.head?.elim ⟨[]⟩ RatingRecord.recipient)
    (Fin.ofNat _ (liquidRank scale.val previous group))

/-- A group contributes where its rank fits. -/
theorem recipientContribution_eq (hpos : 0 < scale.val) (hne : group ≠ [])
    (hraters : ∀ rating ∈ group, entryOf previous.values rating.rater ≠ none) :
    recipientContribution previous scale (group.map (normalizedEntry scale group)) =
      if liquidRank scale.val previous group < 2 ^ 64 then
        .ok [contributionEntry scale previous group]
      else .error .liquidRankOverflow := by
  have hsum : ((group.map (normalizedEntry scale group)).map fun rating =>
      rating.normalizedScore.val * reputationIn previous rating.rater 0).sum =
      (group.map fun rating =>
        normalizedScore scale.val group rating * reputationIn previous rating.rater 0).sum := by
    rw [List.map_map]
    congr 1
    refine List.map_congr_left fun rating hrating => ?_
    show (normalizedEntry scale group rating).normalizedScore.val * _ = _
    rw [normalizedEntry_score hrating]
    rfl
  have hentries : ∀ rating ∈ group.map (normalizedEntry scale group),
      entryOf previous.values rating.rater ≠ none := by
    intro rating hrating
    obtain ⟨r, hr, rfl⟩ := List.mem_map.1 hrating
    exact hraters r hr
  have hfold := foldlM_weightedScore hentries (Nat.two_pow_pos 128)
  rw [hsum, Nat.zero_add] at hfold
  cases group with
  | nil => exact absurd rfl hne
  | cons first rest =>
      unfold recipientContribution
      rw [List.map_cons] at hfold ⊢
      dsimp only
      rw [hfold]
      by_cases hrank : liquidRank scale.val previous (first :: rest) < 2 ^ 64
      · -- a sum whose quotient fits in 64 bits fits in 128
        have hlt : ((first :: rest).map fun rating => normalizedScore scale.val (first :: rest) rating *
            reputationIn previous rating.rater 0).sum < 2 ^ 128 := by
          have hmul := (Nat.div_lt_iff_lt_mul hpos).1 hrank
          have hscale := scale.isLt
          calc _ < 2 ^ 64 * scale.val := hmul
            _ ≤ 2 ^ 64 * 2 ^ 64 := Nat.mul_le_mul_left _ hscale.le
            _ = 2 ^ 128 := by norm_num
        have htry : tryU64 (liquidRank scale.val previous (first :: rest)) =
            some (Fin.ofNat _ (liquidRank scale.val previous (first :: rest))) :=
          tryU64_eq_some.2 (Nat.mod_eq_of_lt hrank).symm
        rw [if_pos hlt, if_pos hrank]
        show (okOr PorError.liquidRankOverflow
          (tryU64 (liquidRank scale.val previous (first :: rest))) >>= _) = _
        rw [htry]
        rfl
      · rw [if_neg hrank]
        have htry : tryU64 (liquidRank scale.val previous (first :: rest)) = none := dif_neg hrank
        split_ifs with hlt
        · show (okOr PorError.liquidRankOverflow
            (tryU64 (liquidRank scale.val previous (first :: rest))) >>= _) = _
          rw [htry]
          rfl
        · rfl

/-- The contributions of a batch: one for each group, where every number fits. -/
theorem contribution_eq (round : U64) (hpos : 0 < config.scale.val) (hprevious : Ordered previous.values)
    (hraters : ∀ rating ∈ ratings, entryOf previous.values rating.rater ≠ none) :
    (normalizeRatingMatrix ⟨round, ratings⟩ config >>= fun normalized =>
        computeLiquidRankContribution normalized previous config) =
      if ∀ group ∈ recipientGroups ratings,
          ((highScore group - lowScore group) + config.scale.val) * config.scale.val < 2 ^ 128 then
        if ∀ group ∈ recipientGroups ratings,
            liquidRank config.scale.val previous group < 2 ^ 64 then
          .ok ⟨round, (recipientGroups ratings).map (contributionEntry config.scale previous)⟩
        else .error .liquidRankOverflow
      else .error .normalizationOverflow := by
  have hscale : config.scale ≠ 0 := fun h => by simp [h] at hpos
  have hne : ∀ group ∈ recipientGroups ratings, group ≠ [] :=
    fun group hgroup => List.ne_nil_of_mem_splitBy hgroup
  have hnormalize : (recipientGroups ratings).mapM (normalizeRecipientGroup config.scale) =
      if ∀ group ∈ recipientGroups ratings,
          ((highScore group - lowScore group) + config.scale.val) * config.scale.val < 2 ^ 128 then
        .ok ((recipientGroups ratings).map fun group =>
          group.map (normalizedEntry config.scale group))
      else .error .normalizationOverflow := by
    rw [mapM_congr_mem fun group hgroup => normalizeRecipientGroup_eq hpos (hne group hgroup),
      mapM_ite]
  have hcontribute : ((recipientGroups ratings).map fun group =>
      group.map (normalizedEntry config.scale group)).mapM
        (recipientContribution previous config.scale) =
      if ∀ group ∈ recipientGroups ratings,
          liquidRank config.scale.val previous group < 2 ^ 64 then
        .ok ((recipientGroups ratings).map fun group =>
          [contributionEntry config.scale previous group])
      else .error .liquidRankOverflow := by
    rw [List.mapM_map]
    show (recipientGroups ratings).mapM (fun group =>
      recipientContribution previous config.scale (group.map (normalizedEntry config.scale group))) = _
    rw [mapM_congr_mem fun group hgroup => recipientContribution_eq hpos (hne group hgroup)
      fun rating hrating => hraters rating (Grouped.mem_of_mem_groups hgroup hrating), mapM_ite]
  have hgroups : Grouped.groups NormalizedRatingEntry.recipient ((recipientGroups ratings).map
      fun group => group.map (normalizedEntry config.scale group)).flatten =
      (recipientGroups ratings).map fun group => group.map (normalizedEntry config.scale group) :=
    Grouped.groups_flatten_map (normalizedEntry config.scale) fun _ _ => rfl
  have hvector : computeLiquidRankContribution ⟨round, ((recipientGroups ratings).map fun group =>
      group.map (normalizedEntry config.scale group)).flatten⟩ previous config =
      if ∀ group ∈ recipientGroups ratings,
          liquidRank config.scale.val previous group < 2 ^ 64 then
        .ok ⟨round, (recipientGroups ratings).map (contributionEntry config.scale previous)⟩
      else .error .liquidRankOverflow := by
    unfold computeLiquidRankContribution
    rw [if_neg hscale, checkOrder_eq_ok.2 hprevious]
    change ((Grouped.groups NormalizedRatingEntry.recipient _).mapM
      (recipientContribution previous config.scale) >>= _) = _
    rw [hgroups, hcontribute]
    split_ifs
    · show Except.ok (ReputationVector.mk round _) = _
      rw [← List.flatMap_def, List.map_eq_flatMap]
    · rfl
  unfold normalizeRatingMatrix
  rw [if_neg hscale]
  change ((recipientGroups ratings).mapM (normalizeRecipientGroup config.scale) >>= _) >>= _ = _
  rw [hnormalize, ← hvector]
  split_ifs <;> rfl

theorem contributionEntry_nodeId {rating : RatingRecord} (hgroup : group ∈ recipientGroups ratings)
    (hrating : rating ∈ group) :
    (contributionEntry scale previous group).nodeId = rating.recipient := by
  cases group with
  | nil => simp at hrating
  | cons first rest =>
      exact Grouped.key_eq_of_mem_groups hgroup (List.mem_cons_self ..) hrating

/-- The contributions are in the order of the nodes. -/
theorem ordered_contributions (hsorted : ratings.Pairwise fun a b => a.recipient ≤ b.recipient) :
    Ordered ((recipientGroups ratings).map (contributionEntry scale previous)) := by
  show List.Pairwise _ _
  rw [List.pairwise_map]
  refine (Grouped.pairwise_groups hsorted).imp_of_mem fun {g g'} hg hg' hlt => ?_
  obtain ⟨a, ha⟩ := List.exists_mem_of_ne_nil _ (List.ne_nil_of_mem_splitBy hg)
  obtain ⟨b, hb⟩ := List.exists_mem_of_ne_nil _ (List.ne_nil_of_mem_splitBy hg')
  rw [contributionEntry_nodeId hg ha, contributionEntry_nodeId hg' hb]
  exact hlt a ha b hb

/-- A rated node has the rank of its ratings. -/
theorem entryOf_contributions (scale : U64) (previous : ReputationVector) {rating : RatingRecord}
    (hsorted : ratings.Pairwise fun a b => a.recipient ≤ b.recipient) (hrating : rating ∈ ratings) :
    entryOf ((recipientGroups ratings).map (contributionEntry scale previous)) rating.recipient =
      some (.new rating.recipient (Fin.ofNat _ (liquidRank scale.val previous
        (ratings.filter fun r => r.recipient = rating.recipient)))) := by
  obtain ⟨group, hgroup, hmem⟩ : ∃ group ∈ recipientGroups ratings, rating ∈ group :=
    Grouped.exists_mem_groups hrating
  have hnode : (contributionEntry scale previous group).nodeId = rating.recipient :=
    contributionEntry_nodeId hgroup hmem
  refine (Keyed.find_eq_some_iff (ordered_contributions hsorted)).2 ⟨?_, rfl⟩
  rw [Grouped.groups_eq_filter hsorted hgroup hmem, ← hnode]
  exact List.mem_map_of_mem hgroup

/-- A node without ratings has no contribution. -/
theorem entryOf_contributions_eq_none (scale : U64) (previous : ReputationVector) {node : NodeId}
    (h : ∀ rating ∈ ratings, rating.recipient ≠ node) :
    entryOf ((recipientGroups ratings).map (contributionEntry scale previous)) node = none := by
  refine Keyed.find_eq_none_iff.2 fun entry hentry => ?_
  obtain ⟨group, hgroup, rfl⟩ := List.mem_map.1 hentry
  obtain ⟨rating, hrating⟩ := List.exists_mem_of_ne_nil _ (List.ne_nil_of_mem_splitBy hgroup)
  rw [contributionEntry_nodeId hgroup hrating]
  exact h rating (Grouped.mem_of_mem_groups hgroup hrating)

end Contributions

/-! ### The blend -/

section Blend

variable {config : PorConfig} {contributions previous : List ReputationEntry} {node : NodeId}
  {entry : ReputationEntry}

theorem entryOf_cons_self : entryOf (entry :: contributions) entry.nodeId = some entry :=
  List.find?_cons_of_pos (by simp)

theorem entryOf_cons_of_ne (h : entry.nodeId ≠ node) :
    entryOf (entry :: contributions) node = entryOf contributions node :=
  List.find?_cons_of_neg (by simpa using h)

theorem alphaBlend_sum_le (hconfig : config.Valid) {contribution old bound : ℕ}
    (hc : contribution ≤ bound) (ho : old ≤ bound) :
    config.liquidRankAlpha.val * contribution +
      (config.scale.val - config.liquidRankAlpha.val) * old ≤ config.scale.val * bound := by
  have halpha : config.liquidRankAlpha.val ≤ config.scale.val := hconfig.alpha_le
  calc _ ≤ config.liquidRankAlpha.val * bound +
        (config.scale.val - config.liquidRankAlpha.val) * bound :=
      Nat.add_le_add (Nat.mul_le_mul_left _ hc) (Nat.mul_le_mul_left _ ho)
    _ = config.scale.val * bound := by rw [← Nat.add_mul, Nat.add_sub_cancel' halpha]

/-- **A blend is bounded as its parts are.** -/
theorem alphaBlend_le (hconfig : config.Valid) {contribution old bound : ℕ}
    (hc : contribution ≤ bound) (ho : old ≤ bound) : alphaBlend config contribution old ≤ bound :=
  Nat.div_le_of_le_mul (alphaBlend_sum_le hconfig hc ho)

theorem blendReputation_eq (hconfig : config.Valid) (contribution old : U64) :
    blendReputation contribution old config =
      .ok (Fin.ofNat _ (alphaBlend config contribution.val old.val)) := by
  have hscale := config.scale.isLt
  have halpha := config.liquidRankAlpha.isLt
  have hc : contribution.val ≤ 2 ^ 64 - 1 := Nat.le_sub_one_of_lt contribution.isLt
  have ho : old.val ≤ 2 ^ 64 - 1 := Nat.le_sub_one_of_lt old.isLt
  have hsum := alphaBlend_sum_le hconfig hc ho
  have hblend := alphaBlend_le hconfig hc ho
  have hleft : checkedMul128 config.liquidRankAlpha contribution =
      some (config.liquidRankAlpha.val * contribution.val) := if_pos (by omega)
  have hright : checkedMul128 (config.scale.val - config.liquidRankAlpha.val) old =
      some ((config.scale.val - config.liquidRankAlpha.val) * old.val) := if_pos (by omega)
  have hadd : checkedAdd128 (config.liquidRankAlpha.val * contribution.val)
      ((config.scale.val - config.liquidRankAlpha.val) * old.val) = some _ := if_pos (by omega)
  have htry : tryU64 (alphaBlend config contribution.val old.val) =
      some (Fin.ofNat _ (alphaBlend config contribution.val old.val)) :=
    tryU64_eq_some.2 (Nat.mod_eq_of_lt (by omega)).symm
  unfold blendReputation
  rw [hleft, hright]
  show (okOr PorError.reputationTransitionOverflow (checkedAdd128 _ _) >>= _) = _
  rw [hadd]
  show okOr PorError.reputationTransitionOverflow (tryU64 (alphaBlend config _ _)) = _
  rw [htry]
  rfl

/-- What a node is blended with in place of a contribution. -/
def contributionAt (config : PorConfig) (contributions previous : List ReputationEntry)
    (node : NodeId) : ℕ :=
  match entryOf contributions node, config.missingEntryPolicy with
  | some entry, _ => entry.reputation.val
  | none, .carryForward =>
      ((entryOf previous node).map fun entry => entry.reputation.val).getD
        config.initialReputation.val
  | none, _ => config.initialReputation.val

/-- What a node is blended with in place of a previous reputation. -/
def priorAt (config : PorConfig) (previous : List ReputationEntry) (node : NodeId) : ℕ :=
  ((entryOf previous node).map fun entry => entry.reputation.val).getD config.initialReputation.val

/-- The value for a node without ratings. -/
theorem contributionAt_of_unrated (hnone : entryOf contributions node = none)
    (hentry : entryOf previous node = some entry) :
    contributionAt config contributions previous node =
      if config.missingEntryPolicy = .carryForward then entry.reputation.val
      else config.initialReputation.val := by
  unfold contributionAt
  rw [hnone, hentry]
  cases config.missingEntryPolicy <;> rfl

/-- One entry of a blend: the rest has to be there, and nothing else can fail. -/
theorem blendEntry_eq (hconfig : config.Valid) (contribution old : U64)
    {tail : List ReputationEntry} :
    blendEntry node (.ok contribution) (.ok old) config (.ok tail) =
      .ok (.new node (Fin.ofNat _ (alphaBlend config contribution.val old.val)) :: tail) := by
  show (blendReputation contribution old config >>= _) = _
  rw [blendReputation_eq hconfig]
  rfl

/-- Where missing entries have a rule, an unrated node is blended. -/
theorem contributionForUnratedNode_eq (hpolicy : config.missingEntryPolicy ≠ .reject) (old : U64) :
    ∃ contribution : U64, contributionForUnratedNode old config = .ok contribution ∧
      contribution.val =
        if config.missingEntryPolicy = .carryForward then old.val
        else config.initialReputation.val := by
  unfold contributionForUnratedNode
  cases hkind : config.missingEntryPolicy with
  | reject => exact absurd hkind hpolicy
  | carryForward => exact ⟨old, rfl, rfl⟩
  | neutral => exact ⟨config.initialReputation, rfl, rfl⟩

theorem previousForNewNode_eq (hpolicy : config.missingEntryPolicy ≠ .reject) :
    previousForNewNode config = .ok config.initialReputation := by
  unfold previousForNewNode
  cases hkind : config.missingEntryPolicy with
  | reject => exact absurd hkind hpolicy
  | carryForward => rfl
  | neutral => rfl

/-- The blended entries have the values of their nodes. -/
def Blended (config : PorConfig) (contributions previous out : List ReputationEntry) : Prop :=
  ∀ entry ∈ out, entry.reputation.val = alphaBlend config
    (contributionAt config contributions previous entry.nodeId)
    (priorAt config previous entry.nodeId)

/-- An entry in front, of a node below all others. -/
theorem Blended.cons {cs ps out : List ReputationEntry} {contribution old : U64}
    (hconfig : config.Valid) (h : Blended config cs ps out)
    (hsame : ∀ e ∈ out, entryOf contributions e.nodeId = entryOf cs e.nodeId ∧
      entryOf previous e.nodeId = entryOf ps e.nodeId)
    (hcontribution : contributionAt config contributions previous node = contribution.val)
    (hold : priorAt config previous node = old.val) :
    Blended config contributions previous
      (.new node (Fin.ofNat _ (alphaBlend config contribution.val old.val)) :: out) := by
  intro e he
  rcases List.mem_cons.1 he with rfl | he
  · rw [ReputationEntry.new_nodeId, hcontribution, hold]
    refine Nat.mod_eq_of_lt ?_
    have hle := alphaBlend_le hconfig (Nat.le_sub_one_of_lt contribution.isLt)
      (Nat.le_sub_one_of_lt old.isLt)
    omega
  · obtain ⟨hc, hp⟩ := hsame e he
    have htail := h e he
    unfold contributionAt priorAt at htail ⊢
    rw [hc, hp]
    exact htail

theorem entryOf_eq_none_of_lt (h : ∀ e ∈ contributions, node < e.nodeId) :
    entryOf contributions node = none :=
  Keyed.find_eq_none_iff.2 fun e he => (h e he).ne'

/-- Nodes of a blend are above a node that is below both inputs. -/
theorem lt_of_mem_blendEntries {out : List ReputationEntry}
    (hout : blendEntries config contributions previous = .ok out)
    (hcontributions : ∀ e ∈ contributions, node < e.nodeId)
    (hprevious : ∀ e ∈ previous, node < e.nodeId) : ∀ e ∈ out, node < e.nodeId := by
  intro e he
  rcases ((blendEntries_spec hout).nodes e.nodeId).1 (List.mem_map_of_mem he) with hmem | hmem
  · obtain ⟨c, hc, heq⟩ := List.mem_map.1 hmem
    exact heq ▸ hcontributions c hc
  · obtain ⟨p, hp, heq⟩ := List.mem_map.1 hmem
    exact heq ▸ hprevious p hp

/-- **The blend never fails** where missing entries have a rule. -/
theorem blendEntries_blended (hconfig : config.Valid) (hpolicy : config.missingEntryPolicy ≠ .reject) :
    ∃ out, blendEntries config contributions previous = .ok out ∧
      (Ordered contributions → Ordered previous → Blended config contributions previous out) := by
  have hnew := previousForNewNode_eq hpolicy
  fun_induction blendEntries config contributions previous with
  | case1 => exact ⟨[], rfl, fun _ _ e he => by simp at he⟩
  | case2 entry contributions ih =>
      obtain ⟨tail, htail, hblended⟩ := ih
      rw [htail, hnew]
      refine ⟨_, blendEntry_eq hconfig _ _, fun hcs hps => ?_⟩
      obtain ⟨hbelow, hcs⟩ := List.pairwise_cons.1 hcs
      refine (hblended hcs hps).cons hconfig (fun e he => ⟨entryOf_cons_of_ne ?_, rfl⟩) ?_ rfl
      · exact (lt_of_mem_blendEntries htail hbelow (by simp) e he).ne
      · unfold contributionAt
        rw [entryOf_cons_self]
  | case3 old previous ih =>
      obtain ⟨tail, htail, hblended⟩ := ih
      obtain ⟨contribution, hcontribution, hval⟩ :=
        contributionForUnratedNode_eq hpolicy old.reputation
      rw [htail, hcontribution]
      refine ⟨_, blendEntry_eq hconfig _ _, fun hcs hps => ?_⟩
      obtain ⟨hbelow, hps⟩ := List.pairwise_cons.1 hps
      refine (hblended hcs hps).cons hconfig (fun e he => ⟨rfl, entryOf_cons_of_ne ?_⟩) ?_ ?_
      · exact (lt_of_mem_blendEntries htail (by simp) hbelow e he).ne
      · rw [hval]
        exact contributionAt_of_unrated rfl entryOf_cons_self
      · unfold priorAt
        rw [entryOf_cons_self]
        rfl
  | case4 entry contributions old previous heq ih =>
      obtain ⟨tail, htail, hblended⟩ := ih
      rw [htail]
      refine ⟨_, blendEntry_eq hconfig _ _, fun hcs hps => ?_⟩
      obtain ⟨hbelow, hcs⟩ := List.pairwise_cons.1 hcs
      obtain ⟨hbelow', hps⟩ := List.pairwise_cons.1 hps
      refine (hblended hcs hps).cons hconfig
        (fun e he => ⟨entryOf_cons_of_ne ?_, entryOf_cons_of_ne ?_⟩) ?_ ?_
      · exact (lt_of_mem_blendEntries htail hbelow (heq ▸ hbelow') e he).ne
      · exact heq ▸ (lt_of_mem_blendEntries htail hbelow (heq ▸ hbelow') e he).ne
      · unfold contributionAt
        rw [entryOf_cons_self]
      · unfold priorAt
        rw [heq, entryOf_cons_self]
        rfl
  | case5 entry contributions old previous hne hlt ih =>
      obtain ⟨tail, htail, hblended⟩ := ih
      rw [htail, hnew]
      refine ⟨_, blendEntry_eq hconfig _ _, fun hcs hps => ?_⟩
      obtain ⟨hbelow, hcs⟩ := List.pairwise_cons.1 hcs
      have hbelow' : ∀ e ∈ old :: previous, entry.nodeId < e.nodeId :=
        hps.below hlt
      refine (hblended hcs hps).cons hconfig (fun e he => ⟨entryOf_cons_of_ne ?_, rfl⟩) ?_ ?_
      · exact (lt_of_mem_blendEntries htail hbelow hbelow' e he).ne
      · unfold contributionAt
        rw [entryOf_cons_self]
      · unfold priorAt
        rw [entryOf_eq_none_of_lt hbelow']
        rfl
  | case6 entry contributions old previous hne hlt ih =>
      obtain ⟨tail, htail, hblended⟩ := ih
      obtain ⟨contribution, hcontribution, hval⟩ :=
        contributionForUnratedNode_eq hpolicy old.reputation
      rw [htail, hcontribution]
      refine ⟨_, blendEntry_eq hconfig _ _, fun hcs hps => ?_⟩
      have hgt : old.nodeId < entry.nodeId := lt_of_le_of_ne (not_lt.1 hlt) (Ne.symm hne)
      obtain ⟨hbelow, hps⟩ := List.pairwise_cons.1 hps
      have hbelow' : ∀ e ∈ entry :: contributions, old.nodeId < e.nodeId :=
        hcs.below hgt
      refine (hblended hcs hps).cons hconfig (fun e he => ⟨rfl, entryOf_cons_of_ne ?_⟩) ?_ ?_
      · exact (lt_of_mem_blendEntries htail hbelow' hbelow e he).ne
      · rw [hval]
        exact contributionAt_of_unrated (entryOf_eq_none_of_lt hbelow') entryOf_cons_self
      · unfold priorAt
        rw [entryOf_cons_self]
        rfl

end Blend

/-! ### The clamp -/

section Clamp

variable {scale : U64} {value : U64} {previous contributions blended : List ReputationEntry}
  {node : NodeId}

/-- A result that is there where something fits, and one error elsewhere. -/
def FailsOnly {α : Type} (fits : Prop) (error : PorError) (result : Except PorError α) : Prop :=
  (fits → ∃ a, result = .ok a) ∧ (¬fits → result = .error error)

/-- Two stages that fail with one error. -/
theorem FailsOnly.bind {α β : Type} {fits fits' : Prop} {error : PorError} {x : Except PorError α}
    {f : α → Except PorError β} (h : FailsOnly fits error x)
    (h' : ∀ a, FailsOnly fits' error (f a)) : FailsOnly (fits ∧ fits') error (x >>= f) := by
  refine ⟨fun ⟨hfits, hfits'⟩ => ?_, fun hnot => ?_⟩
  · obtain ⟨a, rfl⟩ := h.1 hfits
    exact (h' a).1 hfits'
  · by_cases hfits : fits
    · obtain ⟨a, rfl⟩ := h.1 hfits
      exact (h' a).2 fun hfits' => hnot ⟨hfits, hfits'⟩
    · rw [h.2 hfits]
      rfl

theorem failsOnly_ok {α : Type} {error : PorError} (a : α) :
    FailsOnly True error (Except.ok a : Except PorError α) := ⟨fun _ => ⟨a, rfl⟩, fun h => absurd trivial h⟩

/-- **A value is clamped where the squares of scale and value fit.** -/
theorem clampReputationValue_failsOnly (hpos : 0 < scale.val) :
    FailsOnly (scale.val ^ 2 + value.val ^ 2 < 2 ^ 128) .clampOverflow
      (clampReputationValue value scale) := by
  have hscale : scale ≠ 0 := fun h => by simp [h] at hpos
  have hs := scale.isLt
  have hv := value.isLt
  have hss : scale.val * scale.val < 2 ^ 128 := by
    calc _ < 2 ^ 64 * 2 ^ 64 := Nat.mul_lt_mul'' hs hs
      _ = 2 ^ 128 := by norm_num
  have hvv : value.val * value.val < 2 ^ 128 := by
    calc _ < 2 ^ 64 * 2 ^ 64 := Nat.mul_lt_mul'' hv hv
      _ = 2 ^ 128 := by norm_num
  unfold clampReputationValue
  rw [if_neg hscale, pow_two, pow_two]
  split_ifs with hzero
  · refine ⟨fun _ => ⟨_, rfl⟩, fun hnot => absurd ?_ hnot⟩
    simpa [hzero] using hss
  have hscaleSquare : checkedMul128 scale scale = some (scale.val * scale.val) := if_pos hss
  have hvalueSquare : checkedMul128 value value = some (value.val * value.val) := if_pos hvv
  rw [hscaleSquare, hvalueSquare]
  show FailsOnly _ _ (okOr PorError.clampOverflow (checkedAdd128 (scale.val * scale.val)
    (value.val * value.val)) >>= _)
  unfold checkedAdd128
  split_ifs with hfits
  · -- the root is positive and twice the product is at most the sum of the squares
    have hroot : integerSqrtU128 (scale.val * scale.val + value.val * value.val) ≠ 0 := by
      rw [integerSqrtU128_eq hfits]
      have hlt := Nat.mul_pos hpos hpos
      exact (Nat.sqrt_pos.2 (by omega)).ne'
    have hrootlt : integerSqrtU128 (scale.val * scale.val + value.val * value.val) < 2 ^ 64 := by
      rw [integerSqrtU128_eq hfits, Nat.sqrt_lt]
      omega
    have hproduct : 2 * (value.val * scale.val) ≤
        scale.val * scale.val + value.val * value.val := by nlinarith [sq_nonneg ((value.val : ℤ) - scale.val)]
    have hnumerator : checkedMul128 value scale = some (value.val * scale.val) :=
      if_pos (by omega)
    refine ⟨fun _ => ?_, fun hnot => absurd hfits hnot⟩
    show ∃ a, (if integerSqrtU128 (scale.val * scale.val + value.val * value.val) = 0 then _
      else _) = Except.ok a
    rw [if_neg hroot, hnumerator]
    show ∃ a, (okOr PorError.clampOverflow (checkedAdd128 (value.val * scale.val) _) >>= _) =
      Except.ok a
    have hadd : checkedAdd128 (value.val * scale.val)
        (integerSqrtU128 (scale.val * scale.val + value.val * value.val) / 2) = some _ :=
      if_pos (by omega)
    rw [hadd]
    exact ⟨_, rfl⟩
  · exact ⟨fun h => absurd h hfits, fun _ => rfl⟩

theorem ordered_advanceTo (h : Ordered previous) : Ordered (advanceTo previous node) :=
  List.Pairwise.sublist (List.dropWhile_sublist _) h

/-- What is dropped is below the target, and so not looked up behind it. -/
theorem entryOf_advanceTo {id : NodeId} (hle : node ≤ id) :
    entryOf (advanceTo previous node) id = entryOf previous id := by
  induction previous with
  | nil => rfl
  | cons entry previous ih =>
      unfold advanceTo at ih ⊢
      rw [List.dropWhile_cons]
      split_ifs with hlt
      · rw [ih, entryOf_cons_of_ne ((of_decide_eq_true hlt).trans_le hle).ne]
      · rfl

/-- After the advance the entry of the target comes first, if there is one. -/
theorem nodeAt_advanceTo (h : Ordered previous) :
    nodeAt (advanceTo previous node) node = entryOf previous node := by
  induction previous with
  | nil => rfl
  | cons entry previous ih =>
      obtain ⟨hbelow, htail⟩ := List.pairwise_cons.1 h
      unfold advanceTo at ih ⊢
      rw [List.dropWhile_cons]
      split_ifs with hlt
      · rw [ih htail, entryOf_cons_of_ne (of_decide_eq_true hlt).ne]
      · have hge : node ≤ entry.nodeId := not_lt.1 (by simpa using hlt)
        unfold nodeAt
        rcases eq_or_lt_of_le hge with rfl | hgt
        · rw [entryOf_cons_self]
          simp
        · rw [entryOf_eq_none_of_lt (List.forall_mem_cons.2
            ⟨hgt, fun e he => hgt.trans (hbelow e he)⟩)]
          simp [hgt.ne']

/-- The clamp of a carried vector asks nothing of nodes without ratings. -/
def CarriedFits (scale : U64) (previous contributions : List ReputationEntry)
    (entry : ReputationEntry) : Prop :=
  (entryOf previous entry.nodeId ≠ none ∧ entryOf contributions entry.nodeId = none) ∨
    scale.val ^ 2 + entry.reputation.val ^ 2 < 2 ^ 128

theorem carriedReputation_failsOnly (hpos : 0 < scale.val) (hprevious : Ordered previous)
    (hcontributions : Ordered contributions) (entry : ReputationEntry) :
    FailsOnly (CarriedFits scale previous contributions entry) .clampOverflow
      (carriedReputation scale (advanceTo previous entry.nodeId)
        (advanceTo contributions entry.nodeId) entry) := by
  have hclamp : FailsOnly (scale.val ^ 2 + entry.reputation.val ^ 2 < 2 ^ 128) .clampOverflow
    (clampReputationValue entry.reputation scale) := clampReputationValue_failsOnly hpos
  unfold carriedReputation CarriedFits
  rw [nodeAt_advanceTo hprevious, nodeAt_advanceTo hcontributions]
  cases entryOf previous entry.nodeId with
  | none =>
      rw [or_iff_right (by simp)]
      exact hclamp
  | some old =>
      cases entryOf contributions entry.nodeId with
      | none => exact ⟨fun _ => ⟨_, rfl⟩, fun hnot => absurd (Or.inl ⟨by simp, rfl⟩) hnot⟩
      | some contribution =>
          rw [or_iff_right (by simp)]
          exact hclamp

/-- **The loop of the carried clamp fails only where an entry does not fit.** -/
theorem clampCarryForward_failsOnly (hpos : 0 < scale.val) (hprevious : Ordered previous)
    (hcontributions : Ordered contributions) (hblended : Ordered blended) :
    FailsOnly (∀ entry ∈ blended, CarriedFits scale previous contributions entry) .clampOverflow
      (clampCarryForward scale previous contributions blended) := by
  induction blended generalizing previous contributions with
  | nil => exact ⟨fun _ => ⟨_, rfl⟩, fun hnot => absurd (by simp) hnot⟩
  | cons entry blended ih =>
      obtain ⟨hbelow, hblended⟩ := List.pairwise_cons.1 hblended
      have hprevious' : Ordered (advanceTo previous entry.nodeId) := ordered_advanceTo hprevious
      have hcontributions' : Ordered (advanceTo contributions entry.nodeId) :=
        ordered_advanceTo hcontributions
      have hrest := ih hprevious' hcontributions' hblended
      have hsame : (∀ e ∈ blended, CarriedFits scale (advanceTo previous entry.nodeId)
          (advanceTo contributions entry.nodeId) e) ↔
          ∀ e ∈ blended, CarriedFits scale previous contributions e := by
        refine forall₂_congr fun e he => ?_
        unfold CarriedFits
        rw [entryOf_advanceTo (hbelow e he).le, entryOf_advanceTo (hbelow e he).le]
      rw [hsame] at hrest
      have hbind := (carriedReputation_failsOnly hpos hprevious hcontributions entry).bind
        fun reputation => hrest.bind fun rest =>
          failsOnly_ok (ReputationEntry.new entry.nodeId reputation :: rest)
      rw [and_true] at hbind
      rw [List.forall_mem_cons]
      exact hbind

/-- The clamp of every entry. -/
theorem mapM_clampEntry_failsOnly (hpos : 0 < scale.val) :
    FailsOnly (∀ entry ∈ blended, scale.val ^ 2 + entry.reputation.val ^ 2 < 2 ^ 128)
      .clampOverflow (blended.mapM (clampEntry scale)) := by
  induction blended with
  | nil => exact ⟨fun _ => ⟨_, rfl⟩, fun hnot => absurd (by simp) hnot⟩
  | cons entry blended ih =>
      have hvalue : FailsOnly (scale.val ^ 2 + entry.reputation.val ^ 2 < 2 ^ 128) .clampOverflow
        (clampReputationValue entry.reputation scale) := clampReputationValue_failsOnly hpos
      have hentry := hvalue.bind
        fun clamped => failsOnly_ok (ReputationEntry.new entry.nodeId clamped)
      have hbind := hentry.bind fun clamped => ih.bind fun rest => failsOnly_ok (clamped :: rest)
      rw [and_true, and_true] at hbind
      rw [List.forall_mem_cons, List.mapM_cons]
      exact hbind

end Clamp

/-! ### Replay -/

section Replay

variable {hasher : List Byte → ContentHash} {config : PorConfig} {previous : ReputationVector}
  {ratings : List RatingRecord} {round : U64} {batch : RatingBatch}

/-- An accepted batch is sorted, and its matrix is the batch. -/
theorem buildRatingMatrix_eq (h : buildRatingBatch round ratings config = .ok batch) :
    buildRatingMatrix batch = .ok ⟨round, batch.ratings⟩ ∧ batch.round = round ∧
      (batch.ratings.Pairwise fun a b => a.recipient ≤ b.recipient) ∧
      ∀ rating, rating ∈ batch.ratings ↔ rating ∈ ratings := by
  obtain ⟨hall, hdistinct, rfl⟩ := buildRatingBatch_eq_ok.1 h
  have hsorted := pairwise_sortRatings ratings
  have hsame : sortRatings (sortRatings ratings) = sortRatings ratings := hsorted.insertionSort_eq
  have hmem : ∀ rating, rating ∈ sortRatings ratings ↔ rating ∈ ratings := fun rating =>
    (perm_sortRatings ratings).mem_iff
  refine ⟨?_, rfl, hsorted.imp fun {a b} hle => ?_, hmem⟩
  · have hrounds : (sortRatings ratings).any (fun rating => rating.round ≠ round) = false := by
      rw [List.any_eq_false]
      intro rating hrating
      simpa using (hall rating ((hmem rating).1 hrating)).1
    unfold buildRatingMatrix
    dsimp only
    rw [hrounds, hsame, (hasRepeat_sortRatings ratings).2 hdistinct]
    rfl
  · rcases Prod.Lex.le_iff.1 hle with hlt | ⟨heq, -⟩
    · exact hlt.le
    · exact heq.le

/-- What holds of the groups of a batch holds of the ratings of each recipient. -/
theorem forall_groups_iff {P : List RatingRecord → Prop}
    (hsorted : batch.ratings.Pairwise fun a b => a.recipient ≤ b.recipient) :
    (∀ group ∈ recipientGroups batch.ratings, P group) ↔
      ∀ rating ∈ batch.ratings, P (batch.ratingsOf rating.recipient) := by
  constructor
  · intro h rating hrating
    obtain ⟨group, hgroup, hmem⟩ : ∃ group ∈ recipientGroups batch.ratings, rating ∈ group :=
      Grouped.exists_mem_groups hrating
    have heq : batch.ratingsOf rating.recipient = group :=
      Grouped.groups_eq_filter hsorted hgroup hmem
    rw [heq]
    exact h group hgroup
  · intro h group hgroup
    obtain ⟨rating, hmem⟩ := List.exists_mem_of_ne_nil _ (List.ne_nil_of_mem_splitBy hgroup)
    have heq : batch.ratingsOf rating.recipient = group :=
      Grouped.groups_eq_filter hsorted hgroup hmem
    rw [← heq]
    exact h rating (Grouped.mem_of_mem_groups hgroup hmem)

/-- What the clamp asks of the blended entries. -/
def ClampFits (config : PorConfig) (previous contributions out : List ReputationEntry) : Prop :=
  ∀ entry ∈ out,
    if config.missingEntryPolicy = .carryForward then
      CarriedFits config.scale previous contributions entry
    else config.scale.val ^ 2 + entry.reputation.val ^ 2 < 2 ^ 128

/-- **Behind the contributions only the clamp can fail.** -/
theorem blendAndClamp_failsOnly {values : List ReputationEntry} (hconfig : config.Valid)
    (hpolicy : config.missingEntryPolicy ≠ .reject) (hprevious : Ordered previous.values)
    (hvalues : Ordered values) (hround : checkedAdd64 previous.round 1 = some round.val) :
    ∃ out, (∀ id, id ∈ out.map ReputationEntry.nodeId ↔
        id ∈ values.map ReputationEntry.nodeId ∨
          id ∈ previous.values.map ReputationEntry.nodeId) ∧
      Blended config values previous.values out ∧
      FailsOnly (ClampFits config previous.values values out) .clampOverflow (do
        let blended ← blendReputationTransition ⟨round, values⟩ previous config
        clampReputationTransition blended previous ⟨round, values⟩ config) := by
  have hpos : 0 < config.scale.val := hconfig.scale_pos
  have hscale : config.scale ≠ 0 := fun h => by simp [h] at hpos
  obtain ⟨out, hout, hblended⟩ : ∃ out, blendEntries config values previous.values = .ok out ∧
    (Ordered values → Ordered previous.values → Blended config values previous.values out) :=
      blendEntries_blended hconfig hpolicy
  obtain ⟨-, hnodes, hordered⟩ := blendEntries_spec hout
  refine ⟨out, hnodes, hblended hvalues hprevious, ?_⟩
  have hblend : blendReputationTransition ⟨round, values⟩ previous config = .ok ⟨round, out⟩ := by
    unfold blendReputationTransition
    rw [if_neg hscale, if_neg (not_lt.2 hconfig.alpha_le), PorConfig.validate_eq_ok.2 hconfig]
    show (if checkedAdd64 previous.round 1 ≠ some round.val then _ else _) = _
    rw [if_neg (not_not.2 hround), checkOrder_eq_ok.2 hvalues, checkOrder_eq_ok.2 hprevious]
    show (blendEntries config values previous.values >>= _) = _
    rw [hout]
    rfl
  rw [hblend]
  show FailsOnly _ _ (clampReputationTransition ⟨round, out⟩ previous ⟨round, values⟩ config)
  unfold clampReputationTransition ClampFits
  by_cases hcarry : config.missingEntryPolicy = .carryForward
  · simp only [hcarry, if_true]
    rw [if_neg (not_not.2 rfl), if_neg hscale]
    have hclamp := (clampCarryForward_failsOnly hpos hprevious hvalues
      (hordered hvalues hprevious)).bind fun values => failsOnly_ok (ReputationVector.mk round values)
    rw [and_true] at hclamp
    exact hclamp
  · simp only [if_neg hcarry]
    rw [if_pos hcarry]
    unfold clampReputationVector
    rw [if_neg hscale]
    have hentries : FailsOnly
        (∀ entry ∈ out, config.scale.val ^ 2 + entry.reputation.val ^ 2 < 2 ^ 128)
        .clampOverflow (out.mapM (clampEntry config.scale)) := mapM_clampEntry_failsOnly hpos
    have hclamp := hentries.bind fun values => failsOnly_ok (ReputationVector.mk round values)
    rw [and_true] at hclamp
    exact hclamp

/-- Without events there is a commitment. -/
theorem penaltyEventsCommitment_none (hasher : List Byte → ContentHash) (round : U64) :
    ∃ commitment, penaltyEventsCommitment hasher round none = .ok commitment := by
  have hlen : ¬(penaltyEventsCommitmentDomain ++ beBytes 8 round.val ++ beBytes 8 0 ++
      beBytes 8 0).length > maxBlockWireLen := by
    simp only [List.length_append, Codec.length_beBytes]
    decide
  refine ⟨hasher (penaltyEventsCommitmentDomain ++ beBytes 8 round.val ++ beBytes 8 0 ++
    beBytes 8 0), ?_⟩
  show (if (penaltyEventsCommitmentDomain ++ beBytes 8 round.val ++ beBytes 8 0 ++
    beBytes 8 0).length > maxBlockWireLen then
      Except.error (PorError.invalidPenaltyEvents "penalty payload too large")
    else Except.ok _) = Except.ok _
  exact if_neg hlen

/-- The value of a rated node. -/
theorem Blended.rated {out : List ReputationEntry} {rating : RatingRecord} {entry : ReputationEntry}
    (h : Blended config
      ((recipientGroups batch.ratings).map (contributionEntry config.scale previous))
      previous.values out)
    (hsorted : batch.ratings.Pairwise fun a b => a.recipient ≤ b.recipient)
    (hrating : rating ∈ batch.ratings)
    (hrank : liquidRank config.scale.val previous (batch.ratingsOf rating.recipient) < 2 ^ 64)
    (hentry : entry ∈ out) (hnode : entry.nodeId = rating.recipient) :
    entryOf ((recipientGroups batch.ratings).map (contributionEntry config.scale previous))
        entry.nodeId ≠ none ∧
      entry.reputation.val = alphaBlend config
        (liquidRank config.scale.val previous (batch.ratingsOf rating.recipient))
        (reputationIn previous rating.recipient config.initialReputation.val) := by
  have hfound := entryOf_contributions config.scale previous hsorted hrating
  have hvalue := h entry hentry
  unfold contributionAt at hvalue
  rw [hnode, hfound] at hvalue
  rw [hnode, hfound]
  refine ⟨by simp, hvalue.trans ?_⟩
  have hval : (Fin.ofNat (2 ^ 64) (liquidRank config.scale.val previous
      (batch.ratingsOf rating.recipient))).val =
      liquidRank config.scale.val previous (batch.ratingsOf rating.recipient) :=
    Nat.mod_eq_of_lt hrank
  rw [← hval]
  rfl

/-- The value of a node without ratings, under the neutral rule. -/
theorem Blended.unrated {out : List ReputationEntry} {old entry : ReputationEntry}
    (h : Blended config
      ((recipientGroups batch.ratings).map (contributionEntry config.scale previous))
      previous.values out)
    (hneutral : config.missingEntryPolicy = .neutral) (hprevious : Ordered previous.values)
    (hold : old ∈ previous.values) (hnone : ∀ rating ∈ batch.ratings, rating.recipient ≠ old.nodeId)
    (hentry : entry ∈ out) (hnode : entry.nodeId = old.nodeId) :
    entry.reputation.val =
      alphaBlend config config.initialReputation.val old.reputation.val := by
  have hfound : entryOf previous.values old.nodeId = some old :=
    (Keyed.find_eq_some_iff hprevious).2 ⟨hold, rfl⟩
  have hvalue := h entry hentry
  rw [hnode, contributionAt_of_unrated (entryOf_contributions_eq_none _ _ hnone) hfound,
    if_neg (by simp [hneutral])] at hvalue
  unfold priorAt at hvalue
  rw [hfound] at hvalue
  exact hvalue

/-- What the clamp asks, said of the inputs. -/
theorem clampFits_iff {out : List ReputationEntry}
    (hpolicy : config.missingEntryPolicy ≠ .reject) (hprevious : Ordered previous.values)
    (hsorted : batch.ratings.Pairwise fun a b => a.recipient ≤ b.recipient)
    (hranks : ∀ rating ∈ batch.ratings,
      liquidRank config.scale.val previous (batch.ratingsOf rating.recipient) < 2 ^ 64)
    (hnodes : ∀ id, id ∈ out.map ReputationEntry.nodeId ↔
      id ∈ ((recipientGroups batch.ratings).map (contributionEntry config.scale previous)).map
        ReputationEntry.nodeId ∨ id ∈ previous.values.map ReputationEntry.nodeId)
    (hblended : Blended config
      ((recipientGroups batch.ratings).map (contributionEntry config.scale previous))
      previous.values out) :
    ClampFits config previous.values
        ((recipientGroups batch.ratings).map (contributionEntry config.scale previous)) out ↔
      (∀ rating ∈ batch.ratings, config.scale.val ^ 2 +
        alphaBlend config
          (liquidRank config.scale.val previous (batch.ratingsOf rating.recipient))
          (reputationIn previous rating.recipient config.initialReputation.val) ^ 2 < 2 ^ 128) ∧
      (config.missingEntryPolicy = .neutral → ∀ entry ∈ previous.values,
        (∀ rating ∈ batch.ratings, rating.recipient ≠ entry.nodeId) →
          config.scale.val ^ 2 +
            alphaBlend config config.initialReputation.val entry.reputation.val ^ 2 < 2 ^ 128) := by
  constructor
  · intro hfits
    refine ⟨fun rating hrating => ?_, fun hneutral old hold hnone => ?_⟩
    · obtain ⟨entry, hentry, hnode⟩ := List.mem_map.1 ((hnodes rating.recipient).2 (Or.inl
        (List.mem_map.2 ⟨_, List.mem_of_find?_eq_some
          (entryOf_contributions config.scale previous hsorted hrating), rfl⟩)))
      obtain ⟨hfound, hvalue⟩ := hblended.rated hsorted hrating (hranks rating hrating) hentry hnode
      have h := hfits entry hentry
      rw [← hvalue]
      split_ifs at h
      · exact h.resolve_left fun hleft => hfound hleft.2
      · exact h
    · obtain ⟨entry, hentry, hnode⟩ := List.mem_map.1 ((hnodes old.nodeId).2 (Or.inr
        (List.mem_map_of_mem hold)))
      have h := hfits entry hentry
      rw [if_neg (by simp [hneutral])] at h
      rwa [hblended.unrated hneutral hprevious hold hnone hentry hnode] at h
  · rintro ⟨hall, hneutral⟩ entry hentry
    by_cases hrecipient : ∃ rating ∈ batch.ratings, rating.recipient = entry.nodeId
    · obtain ⟨rating, hrating, hnode⟩ := hrecipient
      obtain ⟨-, hvalue⟩ :=
        hblended.rated hsorted hrating (hranks rating hrating) hentry hnode.symm
      have h := hall rating hrating
      rw [← hvalue] at h
      split_ifs
      · exact Or.inr h
      · exact h
    · push Not at hrecipient
      have hnone := entryOf_contributions_eq_none config.scale previous hrecipient
      have hold : entry.nodeId ∈ previous.values.map ReputationEntry.nodeId := by
        refine ((hnodes entry.nodeId).1 (List.mem_map_of_mem hentry)).resolve_left fun hmem => ?_
        obtain ⟨contribution, hcontribution, hnode⟩ := List.mem_map.1 hmem
        exact Keyed.find_eq_none_iff.1 hnone contribution hcontribution hnode
      obtain ⟨old, hold, hnode⟩ := List.mem_map.1 hold
      have hfound : entryOf previous.values entry.nodeId = some old :=
        (Keyed.find_eq_some_iff hprevious).2 ⟨hold, hnode⟩
      split_ifs with hcarry
      · exact Or.inl ⟨by rw [hfound]; simp, hnone⟩
      · have hkind : config.missingEntryPolicy = .neutral := by
          cases hkind : config.missingEntryPolicy with
          | reject => exact absurd hkind hpolicy
          | carryForward => exact absurd hkind hcarry
          | neutral => rfl
        rw [hblended.unrated hkind hprevious hold (by rwa [hnode]) hentry hnode.symm]
        exact hneutral hkind old hold (by rwa [hnode])

/-- A round fits where the scale, once for each rating of a recipient, stays within
`2 ^ 63`. -/
theorem RoundFits.of_scale_le (hconfig : config.Valid)
    (hbound : ∀ entry ∈ previous.values, entry.reputation ≤ config.scale)
    (hscale : config.scale.val ≤ 2 ^ 63)
    (hcount : ∀ rating ∈ batch.ratings,
      config.scale.val * (batch.ratingsOf rating.recipient).length ≤ 2 ^ 63) :
    RoundFits config previous batch := by
  have hinitial : config.initialReputation.val ≤ config.scale.val := hconfig.initial_le
  have hreputation : ∀ (node : NodeId) (default : ℕ), default ≤ config.scale.val →
      reputationIn previous node default ≤ config.scale.val := by
    intro node default hdefault
    unfold reputationIn
    cases hfound : entryOf previous.values node with
    | none => exact hdefault
    | some entry => exact hbound entry (List.mem_of_find?_eq_some hfound)
  have hrank : ∀ rating ∈ batch.ratings,
      liquidRank config.scale.val previous (batch.ratingsOf rating.recipient) ≤ 2 ^ 63 := by
    intro rating hrating
    refine le_trans (Nat.div_le_of_le_mul ?_) (hcount rating hrating)
    -- each term is at most the square of the scale
    have hterms := List.sum_le_card_nsmul ((batch.ratingsOf rating.recipient).map fun r =>
      normalizedScore config.scale.val (batch.ratingsOf rating.recipient) r *
        reputationIn previous r.rater 0) (config.scale.val * config.scale.val) (by
          intro x hx
          obtain ⟨r, hr, rfl⟩ := List.mem_map.1 hx
          exact Nat.mul_le_mul (normalizedScore_le hr) (hreputation _ _ (Nat.zero_le _)))
    rw [List.length_map, smul_eq_mul] at hterms
    calc _ ≤ _ := hterms
      _ = _ := by ring
  have hsquare : ∀ b : ℕ, b ≤ 2 ^ 63 → config.scale.val ^ 2 + b ^ 2 < 2 ^ 128 := by
    intro b hb
    calc _ ≤ (2 ^ 63) ^ 2 + (2 ^ 63) ^ 2 :=
          Nat.add_le_add (Nat.pow_le_pow_left hscale 2) (Nat.pow_le_pow_left hb 2)
      _ < 2 ^ 128 := by norm_num
  refine ⟨fun rating _ => ?_, fun rating hrating => (hrank rating hrating).trans_lt (by norm_num),
    fun rating hrating => hsquare _ ?_, fun _ entry hentry _ => hsquare _ ?_⟩
  · have hhigh : highScore (batch.ratingsOf rating.recipient) < 2 ^ 64 := Fin.isLt _
    calc _ ≤ (2 ^ 64 + 2 ^ 63) * 2 ^ 63 := Nat.mul_le_mul (by omega) hscale
      _ < 2 ^ 128 := by norm_num
  · exact alphaBlend_le hconfig (hrank rating hrating) ((hreputation _ _ hinitial).trans hscale)
  · exact alphaBlend_le hconfig (hinitial.trans hscale) (le_trans (hbound entry hentry) hscale)

/-- The steps of a replay of accepted inputs without penalties. -/
theorem replayReputationTransition_eq {ratings : List RatingRecord}
    (hconfig : config.validate = .ok ())
    (hprevious : validateReputationEntries previous.values = .ok ())
    (hbatch : buildRatingBatch round ratings config = .ok batch) :
    replayReputationTransition hasher previous ratings round config =
      (normalizeRatingMatrix ⟨round, batch.ratings⟩ config >>= fun normalized =>
        computeLiquidRankContribution normalized previous config) >>= fun contribution =>
          (do
            let blended ← blendReputationTransition contribution previous config
            clampReputationTransition blended previous contribution config) >>= fun clamped =>
              Except.ok ⟨clamped.round, clamped.values.map (keepExcluded previous)⟩ := by
  obtain ⟨commitment, hcommitment⟩ := penaltyEventsCommitment_none hasher round
  unfold replayReputationTransition replayReputationTransitionWithPenalties
  rw [hconfig, hprevious, hcommitment, hbatch]
  simp only [bind_assoc]
  show (buildRatingMatrix batch >>= _) = _
  rw [(buildRatingMatrix_eq hbatch).1]
  rfl

/-- A replay returns a list, or fails at the first number that does not fit. -/
theorem replay_cases {ratings : List RatingRecord} (hconfig : config.validate = .ok ())
    (hpolicy : config.missingEntryPolicy ≠ .reject)
    (hprevious : validateReputationEntries previous.values = .ok ())
    (hround : checkedAdd64 previous.round 1 = some round.val)
    (hbatch : buildRatingBatch round ratings config = .ok batch)
    (hraters : ∀ rating ∈ ratings, entryOf previous.values rating.rater ≠ none) :
    (RoundFits config previous batch ∧
        ∃ list, replayReputationTransition hasher previous ratings round config = .ok list) ∨
      (¬RoundFits config previous batch ∧
        ∃ error ∈ [PorError.normalizationOverflow, .liquidRankOverflow, .clampOverflow],
          replayReputationTransition hasher previous ratings round config = .error error) := by
  have hvalid := PorConfig.validate_eq_ok.1 hconfig
  have hordered := (validateReputationEntries_eq_ok.1 hprevious).1
  obtain ⟨-, -, hsorted, hmem⟩ := buildRatingMatrix_eq hbatch
  have hknown : ∀ rating ∈ batch.ratings, entryOf previous.values rating.rater ≠ none :=
    fun rating hrating => hraters rating ((hmem rating).1 hrating)
  have hvalues : Ordered ((recipientGroups batch.ratings).map
    (contributionEntry config.scale previous)) := ordered_contributions hsorted
  obtain ⟨out, hnodes, hblended, hclamp⟩ :=
    blendAndClamp_failsOnly hvalid hpolicy hordered hvalues hround
  have hscores := forall_groups_iff (P := fun group =>
    ((highScore group - lowScore group) + config.scale.val) * config.scale.val < 2 ^ 128) hsorted
  have hranks := forall_groups_iff (P := fun group =>
    liquidRank config.scale.val previous group < 2 ^ 64) hsorted
  rw [replayReputationTransition_eq hconfig hprevious hbatch,
    contribution_eq round hvalid.scale_pos hordered hknown]
  by_cases hs : ∀ group ∈ recipientGroups batch.ratings,
      ((highScore group - lowScore group) + config.scale.val) * config.scale.val < 2 ^ 128
  · rw [if_pos hs]
    by_cases hr : ∀ group ∈ recipientGroups batch.ratings,
        liquidRank config.scale.val previous group < 2 ^ 64
    · rw [if_pos hr]
      have hiff := clampFits_iff hpolicy hordered hsorted (hranks.1 hr) hnodes hblended
      by_cases hc : ClampFits config previous.values
          ((recipientGroups batch.ratings).map (contributionEntry config.scale previous)) out
      · obtain ⟨clamped, hclamped⟩ := hclamp.1 hc
        refine Or.inl ⟨⟨hscores.1 hs, hranks.1 hr, (hiff.1 hc).1, (hiff.1 hc).2⟩,
          ⟨clamped.round, clamped.values.map (keepExcluded previous)⟩, ?_⟩
        show (do
          let blended ← blendReputationTransition _ previous config
          clampReputationTransition blended previous _ config) >>= _ = _
        rw [hclamped]
        rfl
      · refine Or.inr ⟨fun h => hc (hiff.2 ⟨h.rated, h.unrated⟩), .clampOverflow, by simp, ?_⟩
        show (do
          let blended ← blendReputationTransition _ previous config
          clampReputationTransition blended previous _ config) >>= _ = _
        rw [hclamp.2 hc]
        rfl
    · rw [if_neg hr]
      exact Or.inr ⟨fun h => hr (hranks.2 h.ranks), .liquidRankOverflow, by simp, rfl⟩
  · rw [if_neg hs]
    exact Or.inr ⟨fun h => hs (hscores.2 h.scores), .normalizationOverflow, by simp, rfl⟩

end Replay

/-- **A replay returns a list exactly where the numbers of the round fit**, and an overflow
of the normalization, the contributions or the clamp elsewhere; the blend never
overflows.  They fit where the scale, once for each rating of a recipient, stays within
`2 ^ 63`. -/
theorem replay_ok_iff_fits (hasher : List Byte → ContentHash) {config : PorConfig}
    {previous : ReputationVector} {ratings : List RatingRecord} {round : U64} {batch : RatingBatch}
    (hconfig : config.validate = .ok ()) (hpolicy : config.missingEntryPolicy ≠ .reject)
    (hprevious : validateReputationEntries previous.values = .ok ())
    (hbound : ∀ entry ∈ previous.values, entry.reputation ≤ config.scale)
    (hround : checkedAdd64 previous.round 1 = some round.val)
    (hbatch : buildRatingBatch round ratings config = .ok batch)
    (hraters : ∀ rating ∈ ratings, entryOf previous.values rating.rater ≠ none) :
    ((∃ list, replayReputationTransition hasher previous ratings round config = .ok list) ↔
        RoundFits config previous batch) ∧
      (¬RoundFits config previous batch →
        ∃ error ∈ [PorError.normalizationOverflow, .liquidRankOverflow, .clampOverflow],
          replayReputationTransition hasher previous ratings round config = .error error) ∧
      (config.scale.val ≤ 2 ^ 63 →
        (∀ rating ∈ batch.ratings,
          config.scale.val * (batch.ratingsOf rating.recipient).length ≤ 2 ^ 63) →
        ∃ list, replayReputationTransition hasher previous ratings round config = .ok list) := by
  rcases replay_cases hconfig hpolicy hprevious hround hbatch hraters with ⟨hfits, hok⟩ | ⟨hnot, hfailed⟩
  · exact ⟨iff_of_true hok hfits, fun hnot => absurd hfits hnot, fun _ _ => hok⟩
  · refine ⟨iff_of_false ?_ hnot, fun _ => hfailed, fun hscale hcount =>
      absurd (RoundFits.of_scale_le (PorConfig.validate_eq_ok.1 hconfig) hbound hscale hcount) hnot⟩
    rintro ⟨list, hlist⟩
    obtain ⟨error, -, herror⟩ := hfailed
    rw [hlist] at herror
    exact absurd herror (by simp)

/-- One rating of a node without a reputation. -/
def firstRating : RatingRecord := ⟨1, ⟨[1]⟩, ⟨[2]⟩, 5, [1], none⟩

/-- The reputation of its rater. -/
def raterVector (reputation : U64) : ReputationVector := ⟨0, [.new ⟨[1]⟩ reputation]⟩

/-- The round of one rating is processed under the default configuration. -/
theorem replay_ok_of_default :
    ∃ list, replayReputationTransition (fun bytes => Fin.ofNat _ bytes.length)
      (raterVector 200000000) [firstRating] 1 .default = .ok list := by
  have hbatch : buildRatingBatch 1 [firstRating] .default = .ok ⟨1, [firstRating]⟩ := by
    decide +kernel
  exact (replay_ok_iff_fits (fun bytes => Fin.ofNat _ bytes.length)
    (PorConfig.validate_eq_ok.2 PorConfig.default_valid) (by decide) (by decide +kernel)
    (by decide +kernel) (by decide) hbatch (by decide +kernel)).2.2
    (by decide +kernel) (by decide +kernel)

/-- **Under the largest scale, which the validator accepts, one rating cannot be
processed:** the squares of scale and blended reputation leave 128 bits. -/
theorem replay_fails_under_largest_scale :
    (PorConfig.new (Fin.last _) 1).validate = .ok () ∧
      (PorConfig.new (Fin.last _) 1).missingEntryPolicy = .carryForward ∧
      validateReputationEntries (raterVector (Fin.last _)).values = .ok () ∧
      (∀ entry ∈ (raterVector (Fin.last _)).values,
        entry.reputation ≤ (PorConfig.new (Fin.last _) 1).scale) ∧
      buildRatingBatch 1 [firstRating] (PorConfig.new (Fin.last _) 1) = .ok ⟨1, [firstRating]⟩ ∧
      entryOf (raterVector (Fin.last _)).values firstRating.rater ≠ none ∧
      replayReputationTransition (fun bytes => Fin.ofNat _ bytes.length) (raterVector (Fin.last _))
        [firstRating] 1 (PorConfig.new (Fin.last _) 1) = .error .clampOverflow :=
  ⟨by decide +kernel, rfl, by decide +kernel, by decide +kernel, by decide +kernel,
    by decide +kernel, by decide +kernel⟩

end CordialMiners.Reputation
