/-
# What carry-forward leaves alone

`blend_reputation_transition`, `clamp_reputation_transition` and the replay under the policy
`CarryForward`.

Every stage builds its entries anew: the blend from two sorted lists, the clamp from the blend
with a cursor in each of the two, and the replay flags the excluded keys again.  A cursor never
passes the node it is asked for, because the nodes ascend (`entryOf_clampCarryForward`).  So
the reputation of a node without ratings comes through, its flag and its balance come back with
`keepExcluded` (`keepExcluded_carried`), and no penalty of another touches them
(`carryForward_leaves_alone`).
-/

import CordialMiners.Reputation.Stages

namespace CordialMiners.Reputation

open Codec (bind_eq_ok guard_eq_ok)

section Clamp

variable {scale : U64} {previous contributions blended out : List ReputationEntry} {id : NodeId}
  {old : ReputationEntry}

/-- **The clamp carries the previous reputation of a node without a contribution.** -/
theorem entryOf_clampCarryForward (hprevious : Ordered previous)
    (hcontributions : Ordered contributions) (hblended : Ordered blended)
    (h : clampCarryForward scale previous contributions blended = .ok out)
    (hold : entryOf previous id = some old) (hnone : entryOf contributions id = none)
    (hid : id ∈ blended.map ReputationEntry.nodeId) :
    entryOf out id = some (.new id old.reputation) := by
  induction blended generalizing previous contributions out with
  | nil => exact absurd hid List.not_mem_nil
  | cons entry blended ih =>
      obtain ⟨hbelow, htail⟩ := List.pairwise_cons.1 hblended
      rw [clampCarryForward] at h
      obtain ⟨reputation, hreputation, h⟩ := bind_eq_ok.1 h
      obtain ⟨rest, hrest, h⟩ := bind_eq_ok.1 h
      obtain rfl := Except.ok.inj h
      by_cases hentry : entry.nodeId = id
      · -- both cursors are at the node
        subst hentry
        unfold carriedReputation at hreputation
        rw [nodeAt_advanceTo hprevious, nodeAt_advanceTo hcontributions, hold, hnone] at hreputation
        obtain rfl := Except.ok.inj hreputation
        exact entryOf_cons_self
      · have hmem : id ∈ blended.map ReputationEntry.nodeId := by
          rw [List.map_cons, List.mem_cons] at hid
          exact hid.resolve_left (Ne.symm hentry)
        have hlt : entry.nodeId < id := by
          obtain ⟨b, hb, rfl⟩ := List.mem_map.1 hmem
          exact hbelow b hb
        have hskip : entryOf (.new entry.nodeId reputation :: rest) id = entryOf rest id :=
          entryOf_cons_of_ne hentry
        rw [hskip]
        refine ih (ordered_advanceTo hprevious) (ordered_advanceTo hcontributions) htail hrest ?_ ?_
          hmem
        · rw [entryOf_advanceTo hlt.le, hold]
        · rw [entryOf_advanceTo hlt.le, hnone]

end Clamp

variable {hasher : List Byte → ContentHash} {previous clamped : ReputationVector}
  {ratings : List RatingRecord} {round : U64} {config : PorConfig}
  {penalties : Option ReputationPenaltyEvents} {list : ReputationList} {id : NodeId}
  {old : ReputationEntry}

/-- A carried reputation gets back what its entry had besides. -/
theorem keepExcluded_carried (hsplit : old.Split) (hold : entryOf previous.values id = some old) :
    keepExcluded previous (.new id old.reputation) = old := by
  have hid : old.nodeId = id := by simpa using List.find?_some hold
  unfold keepExcluded
  rw [ReputationEntry.new_nodeId, hold]
  obtain ⟨nodeId, reputation, retained, excluded⟩ := old
  obtain rfl : nodeId = id := hid
  cases excluded with
  | true =>
      obtain rfl : reputation = 0 := hsplit.1 rfl
      rfl
  | false =>
      obtain rfl : retained = 0 := hsplit.2 rfl
      rfl

/-- **Behind calculation and exclusions an unrated node has its previous entry.** -/
theorem entryOf_keptList_unrated (hpolicy : config.missingEntryPolicy = .carryForward)
    (hprevious : validateReputationEntries previous.values = .ok ())
    (h : calculateRound previous ratings round config = .ok clamped)
    (hid : id ∈ previous.values.map ReputationEntry.nodeId)
    (hunrated : id ∉ ratings.map RatingRecord.recipient) :
    entryOf (keptList previous clamped).entries id = entryOf previous.values id := by
  obtain ⟨hordered, hsplit⟩ := validateReputationEntries_eq_ok.1 hprevious
  obtain ⟨old, hmem, rfl⟩ := List.mem_map.1 hid
  have hold : entryOf previous.values old.nodeId = some old :=
    (Keyed.find_eq_some_iff hordered).2 ⟨hmem, rfl⟩
  obtain ⟨contribution, blended, hcontribution, hcontributions, -, hblended, hclamped⟩ :=
    calculateRound_spec h
  obtain ⟨-, -, -, hblendedOrdered, hnodes⟩ := blendReputationTransition_spec hblended
  have hnone : entryOf contribution.values old.nodeId = none := by
    refine Keyed.find_eq_none_iff.2 fun entry hentry heq => hunrated ?_
    rw [← hcontribution, ← heq]
    exact List.mem_map_of_mem hentry
  have hcarried : entryOf clamped.values old.nodeId = some (.new old.nodeId old.reputation) := by
    unfold clampReputationTransition at hclamped
    rw [if_neg (not_not.2 hpolicy)] at hclamped
    obtain ⟨-, hclamped⟩ := guard_eq_ok.1 hclamped
    obtain ⟨values, hvalues, hclamped⟩ := bind_eq_ok.1 hclamped
    obtain rfl := Except.ok.inj hclamped
    exact entryOf_clampCarryForward hordered hcontributions hblendedOrdered hvalues hold hnone
      ((hnodes old.nodeId).2 (Or.inr hid))
  rw [entryOf_keptList, hcarried, hold, Option.map_some,
    keepExcluded_carried (hsplit old hmem) hold]

/-- **Carry-forward leaves the others alone.**  The list of a replay has one entry for each
node of the previous vector and each recipient of a rating and no other, and a node of the
previous vector that is neither a recipient nor an offender has the entry that it had:
reputation, flag and retained balance. -/
theorem carryForward_leaves_alone (hpolicy : config.missingEntryPolicy = .carryForward)
    (h : replayReputationTransitionWithPenalties hasher previous ratings round config penalties =
      .ok list) :
    (list.entries.map ReputationEntry.nodeId).Nodup ∧
      (∀ id, id ∈ list.entries.map ReputationEntry.nodeId ↔
        id ∈ previous.values.map ReputationEntry.nodeId ∨
          id ∈ ratings.map RatingRecord.recipient) ∧
      ∀ old ∈ previous.values, old.nodeId ∉ ratings.map RatingRecord.recipient →
        old.nodeId ∉ offendersOf penalties →
        ∀ entry, entry ∈ list.entries ∧ entry.nodeId = old.nodeId ↔ entry = old := by
  have hordered := ordered_replay h
  refine ⟨(Keyed.ascending_iff_map.1 hordered).imp ne_of_lt, fun id => mem_nodes_replay h,
    fun old hmem hunrated hoffender entry => ?_⟩
  obtain ⟨-, hprevious, -, clamped, hclamped, hlist⟩ := replay_eq_ok.1 h
  have hold : entryOf previous.values old.nodeId = some old :=
    (Keyed.find_eq_some_iff (validateReputationEntries_eq_ok.1 hprevious).1).2 ⟨hmem, rfl⟩
  rw [← Keyed.find_eq_some_iff hordered]
  show entryOf list.entries old.nodeId = some entry ↔ _
  rw [entryOf_penalize hlist hoffender, entryOf_keptList_unrated hpolicy hprevious hclamped
    (List.mem_map_of_mem hmem) hunrated, hold, Option.some.injEq, eq_comm]

/-- Two idle keys, one of them ejected, besides the two of the sample. -/
def idleVector : ReputationVector :=
  ⟨0, [.new ⟨[0]⟩ 700000000, .new ⟨[1]⟩ 200000000, .new ⟨[2]⟩ 400000000,
    ⟨⟨[3]⟩, 0, 300000000, true⟩]⟩

theorem carryForward_leaves_alone_idle :
    ∃ list, replayReputationTransitionWithPenalties sumHasher idleVector sampleBatch.ratings 1
        .default (some ⟨1, [], [⟨⟨[0]⟩, 1⟩]⟩) = .ok list ∧
      (list.entries.map ReputationEntry.nodeId).Nodup ∧
      (∀ id, id ∈ list.entries.map ReputationEntry.nodeId ↔
        id ∈ idleVector.values.map ReputationEntry.nodeId ∨
          id ∈ sampleBatch.ratings.map RatingRecord.recipient) ∧
      ∀ entry, entry ∈ list.entries ∧ entry.nodeId = ⟨[3]⟩ ↔
        entry = ⟨⟨[3]⟩, 0, 300000000, true⟩ := by
  have hsome : (replayReputationTransitionWithPenalties sumHasher idleVector sampleBatch.ratings 1
      .default (some ⟨1, [], [⟨⟨[0]⟩, 1⟩]⟩)).isOk = true := by decide +kernel
  obtain ⟨list, hlist⟩ := Codec.exists_eq_ok_of_isOk hsome
  obtain ⟨hnodup, hnodes, halone⟩ := carryForward_leaves_alone rfl hlist
  exact ⟨list, hlist, hnodup, hnodes, halone ⟨⟨[3]⟩, 0, 300000000, true⟩ (by decide +kernel)
    (by decide +kernel) (by decide +kernel)⟩

end CordialMiners.Reputation
