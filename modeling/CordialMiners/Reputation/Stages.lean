/-
# The stages of a replay

`replay_reputation_transition_with_penalties` checks its inputs, calculates the round from the
ratings (`calculateRound`), puts the excluded keys back (`keepExcluded`) and applies the
penalties (`penalize`).

The contributions of a round are for its recipients (`mem_nodes_contribution`), so its list is
for these and for the nodes of the previous vector (`mem_nodes_replay`), in order
(`ordered_replay`).
-/

import CordialMiners.Reputation.Processable

namespace CordialMiners.Reputation

open Codec (bind_eq_ok check_eq_ok guard_eq_ok mapM_eq_ok)

/-- The calculation of a replay, from the ratings to the clamp. -/
def calculateRound (previous : ReputationVector) (ratings : List RatingRecord) (round : U64)
    (config : PorConfig) : Except PorError ReputationVector := do
  let batch ← buildRatingBatch round ratings config
  let matrix ← buildRatingMatrix batch
  let normalized ← normalizeRatingMatrix matrix config
  let contribution ← computeLiquidRankContribution normalized previous config
  let blended ← blendReputationTransition contribution previous config
  clampReputationTransition blended previous contribution config

/-- A clamped vector with the excluded keys put back. -/
def keptList (previous clamped : ReputationVector) : ReputationList :=
  ⟨clamped.round, clamped.values.map (keepExcluded previous)⟩

/-- The penalties, if there are any. -/
def penalize (hasher : List Byte → ContentHash) (previous : ReputationVector)
    (ratings : List RatingRecord) (config : PorConfig) (penalties : Option ReputationPenaltyEvents)
    (list : ReputationList) : Except PorError ReputationList :=
  match penalties with
  | none => .ok list
  | some events => applyReputationPenalties hasher list previous ratings events config

/-- The offenders of the penalties. -/
def offendersOf (penalties : Option ReputationPenaltyEvents) : List NodeId :=
  penalties.elim [] ReputationPenaltyEvents.offenders

variable {hasher : List Byte → ContentHash} {previous clamped contribution : ReputationVector}
  {ratings : List RatingRecord} {round : U64} {config : PorConfig}
  {penalties : Option ReputationPenaltyEvents} {list : ReputationList} {id : NodeId}

/-- **The stages of a replay, all of which succeed.** -/
theorem replay_eq_ok :
    replayReputationTransitionWithPenalties hasher previous ratings round config penalties =
        .ok list ↔
      config.validate = .ok () ∧ validateReputationEntries previous.values = .ok () ∧
        (∃ commitment, penaltyEventsCommitment hasher round penalties = .ok commitment) ∧
        ∃ clamped, calculateRound previous ratings round config = .ok clamped ∧
          penalize hasher previous ratings config penalties (keptList previous clamped) =
            .ok list := by
  have hstages : replayReputationTransitionWithPenalties hasher previous ratings round config
      penalties = (do
        config.validate
        validateReputationEntries previous.values
        let _commitment ← penaltyEventsCommitment hasher round penalties
        let clamped ← calculateRound previous ratings round config
        penalize hasher previous ratings config penalties (keptList previous clamped)) := by
    unfold replayReputationTransitionWithPenalties calculateRound penalize keptList
    cases penalties <;> simp only [bind_assoc]
  rw [hstages, check_eq_ok, check_eq_ok, bind_eq_ok,
    exists_and_right, bind_eq_ok]

/-! ### The nodes of a round -/

/-- Normalization keeps rater and recipient of each rating. -/
theorem recipients_normalized {matrix : RatingMatrix} {normalized : NormalizedRatingMatrix}
    (h : normalizeRatingMatrix matrix config = .ok normalized) :
    normalized.ratings.map NormalizedRatingEntry.recipient =
      matrix.ratings.map RatingRecord.recipient := by
  obtain ⟨-, h⟩ := guard_eq_ok.1 h
  obtain ⟨groups, hgroups, h⟩ := bind_eq_ok.1 h
  obtain rfl := Except.ok.inj h
  have hgroup : ∀ (group : List RatingRecord) (out : List NormalizedRatingEntry),
      normalizeRecipientGroup config.scale group = .ok out →
        out.map NormalizedRatingEntry.recipient = group.map RatingRecord.recipient := by
    intro group out hout
    unfold normalizeRecipientGroup at hout
    split at hout
    · rw [← Except.ok.inj hout]
      rfl
    · obtain ⟨-, hout⟩ := guard_eq_ok.1 hout
      rw [← Except.ok.inj hout, List.map_map]
      rfl
  have hflat : ∀ (ls : List (List RatingRecord)) (outs : List (List NormalizedRatingEntry)),
      List.Forall₂ (fun group out => normalizeRecipientGroup config.scale group = .ok out) ls outs →
        outs.flatten.map NormalizedRatingEntry.recipient =
          ls.flatten.map RatingRecord.recipient := by
    intro ls outs hall
    induction hall with
    | nil => rfl
    | cons hout _ ih =>
        rw [List.flatten_cons, List.flatten_cons, List.map_append, List.map_append, ih,
          hgroup _ _ hout]
  have h := hflat _ _ (mapM_eq_ok.1 hgroups)
  rwa [List.flatten_splitBy] at h

/-- **The contributions are for the recipients.** -/
theorem mem_nodes_contribution {normalized : NormalizedRatingMatrix}
    (h : computeLiquidRankContribution normalized previous config = .ok contribution) :
    id ∈ contribution.values.map ReputationEntry.nodeId ↔
      id ∈ normalized.ratings.map NormalizedRatingEntry.recipient := by
  obtain ⟨-, h⟩ := guard_eq_ok.1 h
  obtain ⟨-, h⟩ := check_eq_ok.1 h
  obtain ⟨entries, hentries, h⟩ := bind_eq_ok.1 h
  obtain rfl := Except.ok.inj h
  have hgroup : ∀ group ∈ Grouped.groups NormalizedRatingEntry.recipient normalized.ratings,
      ∀ out, recipientContribution previous config.scale group = .ok out →
        ∀ id, id ∈ out.map ReputationEntry.nodeId ↔
          id ∈ group.map NormalizedRatingEntry.recipient := by
    intro group hmem out hout id
    unfold recipientContribution at hout
    split at hout
    · exact absurd rfl (List.ne_nil_of_mem_splitBy hmem)
    · next first rest =>
        obtain ⟨_, -, hout⟩ := bind_eq_ok.1 hout
        obtain ⟨reputation, -, hout⟩ := bind_eq_ok.1 hout
        obtain rfl := Except.ok.inj hout
        rw [List.map_singleton, List.mem_singleton, ReputationEntry.new_nodeId]
        constructor
        · rintro rfl
          exact List.mem_map_of_mem List.mem_cons_self
        · intro hid
          obtain ⟨rating, hrating, rfl⟩ := List.mem_map.1 hid
          exact Grouped.key_eq_of_mem_groups hmem hrating List.mem_cons_self
  have hflat : ∀ (ls : List (List NormalizedRatingEntry)) (outs : List (List ReputationEntry)),
      (∀ group ∈ ls, group ∈ Grouped.groups NormalizedRatingEntry.recipient normalized.ratings) →
        List.Forall₂ (fun group out => recipientContribution previous config.scale group = .ok out)
          ls outs →
        (id ∈ outs.flatten.map ReputationEntry.nodeId ↔
          id ∈ ls.flatten.map NormalizedRatingEntry.recipient) := by
    intro ls outs hls hall
    induction hall with
    | nil => exact Iff.rfl
    | cons hout _ ih =>
        rw [List.flatten_cons, List.flatten_cons, List.map_append, List.map_append,
          List.mem_append, List.mem_append, hgroup _ (hls _ List.mem_cons_self) _ hout,
          ih fun group hmem => hls group (List.mem_cons_of_mem _ hmem)]
  have h := hflat _ _ (fun _ hmem => hmem) (mapM_eq_ok.1 hentries)
  rwa [List.flatten_splitBy] at h

/-- Blend and clamp of a calculated round, and what they are given. -/
theorem calculateRound_spec (h : calculateRound previous ratings round config = .ok clamped) :
    ∃ contribution blended : ReputationVector,
      (∀ id, id ∈ contribution.values.map ReputationEntry.nodeId ↔
        id ∈ ratings.map RatingRecord.recipient) ∧
      Ordered contribution.values ∧ Ordered previous.values ∧
      blendReputationTransition contribution previous config = .ok blended ∧
      clampReputationTransition blended previous contribution config = .ok clamped := by
  obtain ⟨batch, hbatch, h⟩ := bind_eq_ok.1 h
  obtain ⟨matrix, hmatrix, h⟩ := bind_eq_ok.1 h
  obtain ⟨normalized, hnormalized, h⟩ := bind_eq_ok.1 h
  obtain ⟨contribution, hcontribution, h⟩ := bind_eq_ok.1 h
  obtain ⟨blended, hblended, h⟩ := bind_eq_ok.1 h
  obtain ⟨hmatrix', -, -, hmem⟩ := buildRatingMatrix_eq hbatch
  have hsame : matrix = ⟨round, batch.ratings⟩ := Except.ok.inj (hmatrix.symm.trans hmatrix')
  rw [hsame] at hnormalized
  refine ⟨contribution, blended, fun id => ?_, ?_, ?_, hblended, h⟩
  · rw [mem_nodes_contribution hcontribution, recipients_normalized hnormalized, List.mem_map,
      List.mem_map]
    exact exists_congr fun rating => and_congr_left fun _ => hmem rating
  all_goals
    -- the blend checks the order of both
    unfold blendReputationTransition at hblended
    obtain ⟨-, hblended⟩ := guard_eq_ok.1 hblended
    obtain ⟨-, hblended⟩ := guard_eq_ok.1 hblended
    obtain ⟨-, hblended⟩ := check_eq_ok.1 hblended
    obtain ⟨-, hblended⟩ := guard_eq_ok.1 hblended
    obtain ⟨hvalues, hblended⟩ := check_eq_ok.1 hblended
    obtain ⟨hprevious, -⟩ := check_eq_ok.1 hblended
  · exact checkOrder_eq_ok.1 hvalues
  · exact checkOrder_eq_ok.1 hprevious

/-- A calculated round has the recipients and the nodes of the previous vector, in order. -/
theorem nodes_calculateRound (h : calculateRound previous ratings round config = .ok clamped) :
    Ordered clamped.values ∧ ∀ id, id ∈ clamped.values.map ReputationEntry.nodeId ↔
      id ∈ previous.values.map ReputationEntry.nodeId ∨ id ∈ ratings.map RatingRecord.recipient := by
  obtain ⟨contribution, blended, hcontribution, -, -, hblended, hclamped⟩ := calculateRound_spec h
  obtain ⟨-, -, -, hordered, hnodes⟩ := blendReputationTransition_spec hblended
  obtain ⟨-, -, hsame⟩ := clampReputationTransition_spec hclamped
  refine ⟨Keyed.ascending_iff_map.2 ?_, fun id => by rw [hsame, hnodes, hcontribution, or_comm]⟩
  rw [hsame]
  exact Keyed.ascending_iff_map.1 hordered

/-! ### From the clamp to the list -/

@[simp] theorem nodes_keptList : (keptList previous clamped).entries.map ReputationEntry.nodeId =
    clamped.values.map ReputationEntry.nodeId := by
  unfold keptList
  rw [List.map_map]
  exact List.map_congr_left fun entry _ => keepExcluded_nodeId entry

/-- An entry behind the clamp, with the excluded keys put back. -/
theorem entryOf_keptList (id : NodeId) :
    entryOf (keptList previous clamped).entries id =
      (entryOf clamped.values id).map (keepExcluded previous) :=
  Keyed.find_map keepExcluded_nodeId id

/-- The penalties keep the nodes. -/
theorem nodes_penalize {kept : ReputationList}
    (h : penalize hasher previous ratings config penalties kept = .ok list) :
    list.entries.map ReputationEntry.nodeId = kept.entries.map ReputationEntry.nodeId := by
  cases penalties with
  | none => rw [← Except.ok.inj h]
  | some events => exact (applyReputationPenalties_penalized h).nodes

/-- **The penalties keep the entries of the others.** -/
theorem entryOf_penalize {kept : ReputationList}
    (h : penalize hasher previous ratings config penalties kept = .ok list)
    (hid : id ∉ offendersOf penalties) : entryOf list.entries id = entryOf kept.entries id := by
  cases penalties with
  | none => rw [← Except.ok.inj h]
  | some events => exact (applyReputationPenalties_penalized h).frame id hid

/-- **A replayed list is in order.** -/
theorem ordered_replay
    (h : replayReputationTransitionWithPenalties hasher previous ratings round config penalties =
      .ok list) : Ordered list.entries := by
  obtain ⟨-, -, -, clamped, hclamped, hlist⟩ := replay_eq_ok.1 h
  refine Keyed.ascending_iff_map.2 ?_
  rw [nodes_penalize hlist, nodes_keptList]
  exact Keyed.ascending_iff_map.1 (nodes_calculateRound hclamped).1

/-- **A replayed list is for the nodes of the previous vector and the recipients.** -/
theorem mem_nodes_replay
    (h : replayReputationTransitionWithPenalties hasher previous ratings round config penalties =
      .ok list) :
    id ∈ list.entries.map ReputationEntry.nodeId ↔
      id ∈ previous.values.map ReputationEntry.nodeId ∨ id ∈ ratings.map RatingRecord.recipient := by
  obtain ⟨-, -, -, clamped, hclamped, hlist⟩ := replay_eq_ok.1 h
  rw [nodes_penalize hlist, nodes_keptList]
  exact (nodes_calculateRound hclamped).2 id

end CordialMiners.Reputation
