/-
# Reputation state

`state.rs`, and the validator weights of `weights.rs`.

Exclusion is recorded twice: in the registry `excluded_keys`, which only grows, and
as a flag of the list's entries, which every round replaces.  `Consistent` ties the
two together: the flagged entries are exactly those of registered keys, no
registered key is missing from the list, and a flagged entry has no weight.  Every
operation keeps it, and keeps each excluded key with its retained balance
(`Keeps`).

An operation that fails leaves the state as it is.
-/

import CordialMiners.Reputation.Audit

namespace CordialMiners.Reputation

open Codec (bind_eq_ok check_eq_ok guard_eq_ok)

/-- Local reputation state; the registry is permanent, the list is replaceable. -/
structure ReputationState where
  currentRound : U64
  reputationList : ReputationList
  excludedKeys : OrderedSet NodeId
  pendingRatings : List RatingRecord
  latestBlock : Option ReputationBlock
deriving DecidableEq

namespace ReputationState

/-- The state without entries. -/
def new (round : U64) : ReputationState := ⟨round, ⟨round, []⟩, .empty, [], none⟩

/-- `add_rating`. -/
def addRating (s : ReputationState) (rating : RatingRecord) : ReputationState :=
  { s with pendingRatings := s.pendingRatings ++ [rating] }

/-- `is_ejected`. -/
def isEjected (s : ReputationState) (id : NodeId) : Bool := id ∈ s.excludedKeys

/-- Replace the entries of the list. -/
def withEntries (s : ReputationState) (entries : List ReputationEntry) : ReputationState :=
  { s with reputationList := { s.reputationList with entries := entries } }

/-- The entry of a node. -/
abbrev entry (s : ReputationState) (id : NodeId) : Option ReputationEntry :=
  entryOf s.reputationList.entries id

/-- `set_reputation`: no effect on an ejected key. -/
def setReputation (s : ReputationState) (id : NodeId) (reputation : U64) : ReputationState :=
  if id ∈ s.excludedKeys then s
  else if (s.entry id).isSome then
    s.withEntries (Keyed.modify ReputationEntry.nodeId s.reputationList.entries id
      (.decayed reputation))
  else
    s.withEntries (Keyed.insert ReputationEntry.nodeId s.reputationList.entries
      (.new id reputation))

/-- `eject_validator`. -/
def ejectValidator (s : ReputationState) (id : NodeId) : Except PorError ReputationState :=
  if id ∈ s.excludedKeys then .ok s
  else if s.entry id = none then .error .unknownNode
  else .ok { s.withEntries (Keyed.modify ReputationEntry.nodeId s.reputationList.entries id
      fun entry => entry.slashed entry.retainedReputation) with
    excludedKeys := s.excludedKeys.insert id }

/-- The retained balance of a node, zero without an entry. -/
def retainedOf (s : ReputationState) (id : NodeId) : U64 :=
  ((s.entry id).map ReputationEntry.retainedReputation).getD 0

/-- An incoming entry of an ejected key stays excluded. -/
def reapplyEjection (s : ReputationState) (entry : ReputationEntry) : ReputationEntry :=
  if entry.nodeId ∈ s.excludedKeys then entry.slashed (s.retainedOf entry.nodeId) else entry

/-- Insert an entry for an ejected key that the incoming vector leaves out. -/
def insertTombstone (s : ReputationState) (entries : List ReputationEntry) (id : NodeId) :
    List ReputationEntry :=
  if (entryOf entries id).isSome then entries
  else Keyed.insert ReputationEntry.nodeId entries ((ReputationEntry.ejected id).slashed
    (s.retainedOf id))

/-- `apply_reputation_vector`. -/
def applyReputationVector (s : ReputationState) (vector : ReputationVector) :
    Except PorError ReputationState := do
  validateReputationEntries vector.values
  if vector.values.any fun entry => entry.isExcluded && entry.nodeId ∉ s.excludedKeys then
    .error .reputationExclusionMismatch
  else
    .ok { s with
      currentRound := vector.round
      reputationList := ⟨vector.round, s.excludedKeys.toList.foldl s.insertTombstone
        (vector.values.map s.reapplyEjection)⟩ }

/-- `commit_audited_block`. -/
def commitAuditedBlock (s : ReputationState) (block : ReputationBlock) : ReputationState :=
  { s with
    currentRound := block.reputationList.round
    reputationList := block.reputationList
    excludedKeys := (block.reputationList.entries.filter ReputationEntry.isExcluded).foldl
      (fun keys entry => keys.insert entry.nodeId) s.excludedKeys
    latestBlock := some block }

/-- The vector a round starts from. -/
def previousVector (s : ReputationState) : ReputationVector :=
  ⟨s.currentRound, s.reputationList.entries⟩

section Hasher

variable (hasher : List Byte → ContentHash)

/-- `apply_reputation_block_with_penalties`. -/
def applyReputationBlockWithPenalties (s : ReputationState) (shardId : List Byte)
    (sourceFinalizedWave : U64) (ratings : List RatingRecord) (block : ReputationBlock)
    (config : PorConfig) (penalties : Option ReputationPenaltyEvents) :
    Except PorError ReputationState := do
  verifyReputationTransitionWithPenalties hasher s.previousVector ratings block
    ⟨shardId, sourceFinalizedWave, s.latestBlock⟩ config penalties
  .ok (s.commitAuditedBlock block)

/-- `apply_checkpoint_reputation_block_with_penalties`. -/
def applyCheckpointReputationBlockWithPenalties (s : ReputationState) (shardId : List Byte)
    (source : RatingSourceCheckpoint) (ratings : List RatingRecord) (block : ReputationBlock)
    (config : PorConfig) (penalties : Option ReputationPenaltyEvents) :
    Except PorError ReputationState := do
  verifyCheckpointReputationTransitionWithPenalties hasher s.previousVector ratings block
    ⟨shardId, source, s.latestBlock⟩ config penalties
  .ok (s.commitAuditedBlock block)

/-- Whether an entry contradicts the registry. -/
def contradicts (s : ReputationState) (entry : ReputationEntry) : Bool :=
  entry.isExcluded != s.isEjected entry.nodeId ||
    (s.isEjected entry.nodeId && entry.reputation ≠ 0) ||
    (!s.isEjected entry.nodeId && entry.retainedReputation ≠ 0)

/-- The check of the latest block against the round. -/
def validateLatestBlock (s : ReputationState) : Except PorError Unit :=
  match s.latestBlock with
  | none => .ok ()
  | some block => do
      validateReputationBlock hasher block
      if block.header.round ≠ s.currentRound then .error .reputationStateSnapshotBlockRoundMismatch
      else .ok ()

/-- `validate_snapshot_invariants`. -/
def validateSnapshotInvariants (s : ReputationState) : Except PorError Unit :=
  if s.pendingRatings ≠ [] then .error .reputationStateSnapshotHasPendingRatings
  else if s.reputationList.round ≠ s.currentRound then
    .error .reputationStateSnapshotRoundMismatch
  else do
    validateReputationEntries s.reputationList.entries
    if s.reputationList.entries.any s.contradicts then
      .error .reputationStateSnapshotExclusionMismatch
    else if s.excludedKeys.toList.any fun id => (s.entry id).isNone then
      .error .reputationStateSnapshotExclusionMismatch
    else s.validateLatestBlock hasher

end Hasher

/-! ### Weights -/

/-- The weight consensus gives a validator. -/
def validatorWeight (s : ReputationState) (entry : ReputationEntry) (id : NodeId) : U64 :=
  if entry.isExcluded || s.isEjected id then 0 else entry.reputation

/-- One step of the loop over the validators. -/
def addValidatorWeight (s : ReputationState) (acc : List (NodeId × U64) × ℕ) (id : NodeId) :
    Except PorError (List (NodeId × U64) × ℕ) :=
  if acc.1.any fun pair => pair.1 = id then .ok acc
  else do
    let entry ← okOr (.missingAuthorizedValidatorReputation id) (s.entry id)
    let total ← okOr .authorizedValidatorWeightOverflow
      (checkedAdd128 acc.2 (s.validatorWeight entry id).val)
    .ok (acc.1 ++ [(id, s.validatorWeight entry id)], total)

/-- `authorized_validator_weights`. -/
def authorizedValidatorWeights (s : ReputationState) (validators : List NodeId) :
    Except PorError (List (NodeId × U64)) :=
  if validators = [] then .error .emptyAuthorizedValidatorSet
  else do
    let (weights, total) ← validators.foldlM s.addValidatorWeight ([], 0)
    if total = 0 then .error .zeroAuthorizedValidatorWeight else .ok weights

/-! ### The invariant -/

/-- Registry and list say the same. -/
structure Consistent (s : ReputationState) : Prop where
  round : s.reputationList.round = s.currentRound
  ordered : Ordered s.reputationList.entries
  split : ∀ entry ∈ s.reputationList.entries, entry.Split
  registered : ∀ entry ∈ s.reputationList.entries,
    entry.isExcluded = true ↔ entry.nodeId ∈ s.excludedKeys
  covered : ∀ id ∈ s.excludedKeys, s.entry id ≠ none

/-- An ejected key keeps its place, without weight and with its retained balance. -/
def Keeps (s t : ReputationState) : Prop :=
  ∀ id ∈ s.excludedKeys, id ∈ t.excludedKeys ∧ t.retainedOf id = s.retainedOf id

variable {s t u : ReputationState} {id : NodeId}

theorem Keeps.rfl : Keeps s s := fun _ hid => ⟨hid, Eq.refl _⟩

theorem Keeps.trans (hst : Keeps s t) (htu : Keeps t u) : Keeps s u := by
  intro id hid
  obtain ⟨ht, hretained⟩ := hst id hid
  obtain ⟨hu, hretained'⟩ := htu id ht
  exact ⟨hu, hretained'.trans hretained⟩

/-- **The entry of an ejected key**: excluded and without weight. -/
theorem Consistent.ejected_entry (hs : s.Consistent) (hid : id ∈ s.excludedKeys) :
    s.entry id = some ⟨id, 0, s.retainedOf id, true⟩ := by
  obtain ⟨entry, hentry⟩ := Option.ne_none_iff_exists'.1 (hs.covered id hid)
  obtain ⟨hmem, rfl⟩ := (Keyed.find_eq_some_iff hs.ordered).1 hentry
  have hexcluded := (hs.registered entry hmem).2 hid
  unfold retainedOf
  rw [hentry, Option.some.injEq]
  obtain ⟨nodeId, reputation, retained, excluded⟩ := entry
  obtain rfl : excluded = true := hexcluded
  obtain rfl : reputation = 0 := (hs.split _ hmem).1 (Eq.refl _)
  rfl

theorem consistent_new (round : U64) : (new round).Consistent where
  round := Eq.refl _
  ordered := List.Pairwise.nil
  split := fun _ h => absurd h List.not_mem_nil
  registered := fun _ h => absurd h List.not_mem_nil
  covered := fun _ h => absurd h OrderedSet.not_mem_empty

/-! ### What the operations keep -/

theorem entryOf_modify (entries : List ReputationEntry) {f : ReputationEntry → ReputationEntry}
    (hkey : ∀ entry, (f entry).nodeId = entry.nodeId) (id k : NodeId) :
    entryOf (Keyed.modify ReputationEntry.nodeId entries id f) k =
      (entryOf entries k).map fun entry => if k = id then f entry else entry := by
  rw [entryOf, Keyed.find_modify hkey]
  congr!

theorem entryOf_insert {entries : List ReputationEntry} (entry : ReputationEntry)
    (hordered : Ordered entries) (hnew : entryOf entries entry.nodeId = none) (k : NodeId) :
    entryOf (Keyed.insert ReputationEntry.nodeId entries entry) k =
      if k = entry.nodeId then some entry else entryOf entries k := by
  rw [entryOf, Keyed.find_insert hordered (Keyed.find_eq_none_iff.1 hnew)]
  congr!

theorem Consistent.of_entry (hround : s.reputationList.round = s.currentRound)
    (hordered : Ordered s.reputationList.entries)
    (hentry : ∀ id entry, s.entry id = some entry →
      entry.Split ∧ (entry.isExcluded = true ↔ id ∈ s.excludedKeys))
    (hcovered : ∀ id ∈ s.excludedKeys, s.entry id ≠ none) : s.Consistent := by
  have hfind : ∀ entry ∈ s.reputationList.entries, s.entry entry.nodeId = some entry :=
    fun entry hmem => (Keyed.find_eq_some_iff hordered).2 ⟨hmem, Eq.refl _⟩
  exact ⟨hround, hordered, fun entry hmem => (hentry _ _ (hfind entry hmem)).1,
    fun entry hmem => (hentry _ _ (hfind entry hmem)).2, hcovered⟩

theorem Consistent.of_find (hs : s.Consistent) {entry : ReputationEntry}
    (h : s.entry id = some entry) :
    entry.Split ∧ (entry.isExcluded = true ↔ id ∈ s.excludedKeys) := by
  obtain ⟨hmem, rfl⟩ := (Keyed.find_eq_some_iff hs.ordered).1 h
  exact ⟨hs.split entry hmem, hs.registered entry hmem⟩

theorem Keeps.of_entry (hmem : ∀ id ∈ s.excludedKeys, id ∈ t.excludedKeys)
    (h : ∀ id ∈ s.excludedKeys, t.entry id = s.entry id) : Keeps s t := by
  intro id hid
  unfold retainedOf
  rw [h id hid]
  exact ⟨hmem id hid, Eq.refl _⟩

/-- `set_reputation` changes the weight of one active key. -/
theorem setReputation_spec (hs : s.Consistent) (id : NodeId) (reputation : U64) :
    (s.setReputation id reputation).Consistent ∧ Keeps s (s.setReputation id reputation) := by
  unfold setReputation
  split_ifs with hejected hfound
  · exact ⟨hs, Keeps.rfl⟩
  · -- the entry is there and active
    have hkey : ∀ entry : ReputationEntry, (entry.decayed reputation).nodeId = entry.nodeId :=
      fun _ => Eq.refl _
    have hentry := entryOf_modify s.reputationList.entries hkey id
    refine ⟨Consistent.of_entry hs.round (hs.ordered.modify hkey id) (fun k entry h => ?_)
      (fun k hk => ?_), Keeps.of_entry (fun _ hk => hk) (fun k hk => ?_)⟩
    · obtain ⟨old, hold, rfl⟩ := Option.map_eq_some_iff.1 ((hentry k).symm.trans h)
      obtain ⟨hsplit, hregistered⟩ := hs.of_find hold
      split_ifs with hk
      · subst hk
        have hactive : old.isExcluded = false := by
          rw [← Bool.not_eq_true]
          exact fun h => hejected (hregistered.1 h)
        refine ⟨⟨fun h => ?_, hsplit.2⟩, hregistered⟩
        rw [show (old.decayed reputation).isExcluded = old.isExcluded from Eq.refl _, hactive] at h
        simp at h
      · exact ⟨hsplit, hregistered⟩
    · refine ne_of_eq_of_ne (hentry k) ?_
      rw [Ne, Option.map_eq_none_iff]
      exact hs.covered k hk
    · refine (hentry k).trans ?_
      have hne : k ≠ id := fun heq => hejected (heq ▸ hk)
      simp [hne]
  · rw [Option.isSome_iff_ne_none, not_not] at hfound
    have hentry := entryOf_insert (.new id reputation) hs.ordered hfound
    refine ⟨Consistent.of_entry hs.round
      (hs.ordered.insert (Keyed.find_eq_none_iff.1 hfound)) (fun k entry h => ?_)
      (fun k hk => ?_), Keeps.of_entry (fun _ hk => hk) (fun k hk => ?_)⟩
    · replace h := (hentry k).symm.trans h
      split_ifs at h with hk
      · obtain rfl := Option.some.inj h
        subst hk
        exact ⟨⟨by simp, by simp⟩, iff_of_false (by simp) hejected⟩
      · exact hs.of_find h
    · have hne : k ≠ id := fun heq => hejected (heq ▸ hk)
      exact ne_of_eq_of_ne ((hentry k).trans (if_neg hne)) (hs.covered k hk)
    · have hne : k ≠ id := fun heq => hejected (heq ▸ hk)
      exact (hentry k).trans (if_neg hne)

/-- `eject_validator` flags one entry and registers its key. -/
theorem ejectValidator_spec (hs : s.Consistent) (h : s.ejectValidator id = .ok t) :
    t.Consistent ∧ Keeps s t := by
  unfold ejectValidator at h
  split_ifs at h with hejected hmissing
  · obtain rfl := Except.ok.inj h
    exact ⟨hs, Keeps.rfl⟩
  obtain rfl := Except.ok.inj h
  have hkey : ∀ entry : ReputationEntry,
      (entry.slashed entry.retainedReputation).nodeId = entry.nodeId := fun _ => Eq.refl _
  have hentry := entryOf_modify s.reputationList.entries hkey id
  refine ⟨Consistent.of_entry hs.round (hs.ordered.modify hkey id) (fun k entry h => ?_)
    (fun k hk => ?_), Keeps.of_entry (fun k hk => OrderedSet.mem_insert.2 (Or.inr hk))
    (fun k hk => ?_)⟩
  · obtain ⟨old, hold, rfl⟩ := Option.map_eq_some_iff.1 ((hentry k).symm.trans h)
    obtain ⟨hsplit, hregistered⟩ := hs.of_find hold
    show _ ∧ (_ ↔ k ∈ s.excludedKeys.insert id)
    rw [OrderedSet.mem_insert]
    split_ifs with hk
    · exact ⟨⟨fun _ => Eq.refl _, fun h => absurd h (by simp [ReputationEntry.slashed])⟩,
        iff_of_true (Eq.refl _) (Or.inl hk)⟩
    · rw [or_iff_right hk]
      exact ⟨hsplit, hregistered⟩
  · refine ne_of_eq_of_ne (hentry k) ?_
    rw [Ne, Option.map_eq_none_iff]
    rcases OrderedSet.mem_insert.1 hk with rfl | hk
    · exact hmissing
    · exact hs.covered k hk
  · refine (hentry k).trans ?_
    have hne : k ≠ id := fun heq => hejected (heq ▸ hk)
    simp [hne]

@[simp] theorem reapplyEjection_nodeId (entry : ReputationEntry) :
    (s.reapplyEjection entry).nodeId = entry.nodeId := by
  unfold reapplyEjection
  split_ifs <;> rfl

/-- The tombstones fill in the ejected keys that are missing and nothing else. -/
theorem foldl_insertTombstone (s : ReputationState) (ids : List NodeId) {entries : List ReputationEntry}
    (hordered : Ordered entries) :
    Ordered (ids.foldl s.insertTombstone entries) ∧
      ∀ k, entryOf (ids.foldl s.insertTombstone entries) k =
        if k ∈ ids ∧ entryOf entries k = none then some ⟨k, 0, s.retainedOf k, true⟩
        else entryOf entries k := by
  induction ids generalizing entries with
  | nil => exact ⟨hordered, fun k => by simp⟩
  | cons id ids ih =>
      rw [List.foldl_cons]
      by_cases hfound : entryOf entries id = none
      · have hstep : s.insertTombstone entries id =
            Keyed.insert ReputationEntry.nodeId entries ⟨id, 0, s.retainedOf id, true⟩ := by
          unfold insertTombstone
          rw [hfound]
          rfl
        have hentry := entryOf_insert ⟨id, 0, s.retainedOf id, true⟩ hordered hfound
        obtain ⟨hout, hk⟩ := ih (hordered.insert
          (a := ⟨id, 0, s.retainedOf id, true⟩) (Keyed.find_eq_none_iff.1 hfound))
        rw [hstep]
        refine ⟨hout, fun k => ?_⟩
        rw [hk, hentry]
        by_cases heq : k = id
        · subst heq
          simp [hfound]
        · simp [heq]
      · have hstep : s.insertTombstone entries id = entries := by
          unfold insertTombstone
          rw [if_pos (Option.isSome_iff_ne_none.2 hfound)]
        obtain ⟨hout, hk⟩ := ih hordered
        rw [hstep]
        refine ⟨hout, fun k => ?_⟩
        rw [hk]
        by_cases heq : k = id
        · subst heq
          simp [hfound]
        · simp [heq]

/-- `apply_reputation_vector` puts every ejected key back as it was. -/
theorem applyReputationVector_spec {vector : ReputationVector}
    (h : s.applyReputationVector vector = .ok t) :
    t.Consistent ∧ Keeps s t ∧ t.latestBlock = s.latestBlock ∧ t.currentRound = vector.round := by
  unfold applyReputationVector at h
  obtain ⟨hvalid, h⟩ := check_eq_ok.1 h
  obtain ⟨hnew, h⟩ := guard_eq_ok.1 h
  obtain rfl := Except.ok.inj h
  obtain ⟨hordered, hsplit⟩ := validateReputationEntries_eq_ok.1 hvalid
  obtain ⟨hout, hfold⟩ := foldl_insertTombstone s s.excludedKeys.toList
    (hordered.map (f := s.reapplyEjection) reapplyEjection_nodeId)
  have hincoming : ∀ k, entryOf (vector.values.map s.reapplyEjection) k =
      (entryOf vector.values k).map s.reapplyEjection :=
    Keyed.find_map reapplyEjection_nodeId
  -- an ejected key has its tombstone or its entry put back
  have hejected : ∀ k ∈ s.excludedKeys, entryOf (s.excludedKeys.toList.foldl s.insertTombstone
      (vector.values.map s.reapplyEjection)) k = some ⟨k, 0, s.retainedOf k, true⟩ := by
    intro k hk
    rw [hfold, hincoming]
    cases hentry : entryOf vector.values k with
    | none => exact if_pos ⟨hk, Eq.refl _⟩
    | some entry =>
        obtain ⟨-, rfl⟩ := (Keyed.find_eq_some_iff hordered).1 hentry
        rw [Option.map_some, if_neg fun h => absurd h.2 (by simp)]
        unfold reapplyEjection
        rw [if_pos hk]
        rfl
  have hactive : ∀ k ∉ s.excludedKeys, entryOf (s.excludedKeys.toList.foldl s.insertTombstone
      (vector.values.map s.reapplyEjection)) k = entryOf vector.values k := by
    intro k hk
    rw [hfold, hincoming, if_neg fun h => hk h.1]
    cases hentry : entryOf vector.values k with
    | none => rfl
    | some entry =>
        obtain ⟨-, rfl⟩ := (Keyed.find_eq_some_iff hordered).1 hentry
        rw [Option.map_some]
        unfold reapplyEjection
        rw [if_neg hk]
  refine ⟨Consistent.of_entry (Eq.refl _) hout (fun k entry h => ?_) (fun k hk => ?_),
    fun k hk => ⟨hk, ?_⟩, Eq.refl _, Eq.refl _⟩
  · by_cases hk : k ∈ s.excludedKeys
    · obtain rfl := Option.some.inj ((hejected k hk).symm.trans h)
      exact ⟨⟨fun _ => Eq.refl _, fun h => absurd h (by simp)⟩, iff_of_true (Eq.refl _) hk⟩
    · obtain ⟨hmem, rfl⟩ := (Keyed.find_eq_some_iff hordered).1 ((hactive k hk).symm.trans h)
      refine ⟨hsplit entry hmem, iff_of_false (fun hexcluded => hnew ?_) hk⟩
      exact List.any_eq_true.2 ⟨entry, hmem, by simp [hexcluded, hk]⟩
  · exact ne_of_eq_of_ne (hejected k hk) (by simp)
  · unfold retainedOf entry
    rw [hejected k hk]
    rfl

theorem mem_foldl_insert {entries : List ReputationEntry} {keys : OrderedSet NodeId} {k : NodeId} :
    k ∈ entries.foldl (fun keys entry => keys.insert entry.nodeId) keys ↔
      k ∈ keys ∨ ∃ entry ∈ entries, entry.nodeId = k := by
  induction entries generalizing keys with
  | nil => simp
  | cons first entries ih =>
      rw [List.foldl_cons, ih, OrderedSet.mem_insert, List.exists_mem_cons_iff, eq_comm (a := k)]
      tauto

/-- What the audit of a block establishes about the state before it. -/
structure Audited (hasher : List Byte → ContentHash) (s : ReputationState)
    (block : ReputationBlock) : Prop where
  valid : validateReputationBlock hasher block = .ok ()
  kept : ∀ id old, s.entry id = some old → old.isExcluded = true →
    entryOf block.reputationList.entries id = some ⟨id, 0, old.retainedReputation, true⟩

/-- A committed block keeps the excluded keys it was replayed from. -/
theorem commitAuditedBlock_spec {hasher : List Byte → ContentHash} {block : ReputationBlock}
    (hs : s.Consistent) (hblock : Audited hasher s block) :
    (s.commitAuditedBlock block).Consistent ∧ Keeps s (s.commitAuditedBlock block) := by
  obtain ⟨-, -, -, hvalid, -⟩ := validateReputationBlock_eq_ok.1 hblock.valid
  obtain ⟨hordered, hsplit⟩ := validateReputationEntries_eq_ok.1 hvalid
  have hkept : ∀ k ∈ s.excludedKeys, entryOf block.reputationList.entries k =
      some ⟨k, 0, s.retainedOf k, true⟩ := by
    intro k hk
    exact hblock.kept k _ (hs.ejected_entry hk) (Eq.refl _)
  have hmem : ∀ k, k ∈ (s.commitAuditedBlock block).excludedKeys ↔
      k ∈ s.excludedKeys ∨ ∃ entry ∈ block.reputationList.entries.filter ReputationEntry.isExcluded,
        entry.nodeId = k := fun k => mem_foldl_insert
  refine ⟨Consistent.of_entry (Eq.refl _) hordered (fun k entry h => ?_) (fun k hk => ?_),
    fun k hk => ⟨(hmem k).2 (Or.inl hk), ?_⟩⟩
  · obtain ⟨hentry, rfl⟩ := (Keyed.find_eq_some_iff hordered).1 h
    refine ⟨hsplit entry hentry, ?_⟩
    rw [hmem]
    constructor
    · intro hexcluded
      exact Or.inr ⟨entry, List.mem_filter.2 ⟨hentry, hexcluded⟩, Eq.refl _⟩
    · rintro (hk | ⟨other, hother, heq⟩)
      · rw [Option.some.inj ((show entryOf _ _ = _ from h).symm.trans (hkept _ hk))]
      · obtain ⟨hother, hexcluded⟩ := List.mem_filter.1 hother
        rwa [hordered.eq_of_key hother hentry heq] at hexcluded
  · rcases (hmem k).1 hk with hk | ⟨entry, hentry, rfl⟩
    · exact ne_of_eq_of_ne (hkept k hk) (by simp)
    · exact ne_of_eq_of_ne
        ((Keyed.find_eq_some_iff hordered).2 ⟨(List.mem_filter.1 hentry).1, Eq.refl _⟩) (by simp)
  · unfold retainedOf
    rw [show (s.commitAuditedBlock block).entry k = _ from hkept k hk]
    rfl

theorem applyBlock_audited {hasher : List Byte → ContentHash} {shardId : List Byte} {wave : U64}
    {ratings : List RatingRecord} {block : ReputationBlock} {config : PorConfig}
    {penalties : Option ReputationPenaltyEvents}
    (h : s.applyReputationBlockWithPenalties hasher shardId wave ratings block config penalties =
      .ok t) :
    t = s.commitAuditedBlock block ∧ Audited hasher s block := by
  obtain ⟨hverify, h⟩ := check_eq_ok.1 h
  obtain ⟨list, hreplay, hbuilt⟩ := verify_eq_ok.1 hverify
  obtain ⟨-, -, rfl, hvalid⟩ := build_spec hbuilt
  exact ⟨(Except.ok.inj h).symm, hvalid, fun id old hold hexcluded =>
    replay_keeps_excluded hreplay hold hexcluded⟩

theorem applyCheckpointBlock_audited {hasher : List Byte → ContentHash} {shardId : List Byte}
    {source : RatingSourceCheckpoint} {ratings : List RatingRecord} {block : ReputationBlock}
    {config : PorConfig} {penalties : Option ReputationPenaltyEvents}
    (h : s.applyCheckpointReputationBlockWithPenalties hasher shardId source ratings block config
      penalties = .ok t) :
    t = s.commitAuditedBlock block ∧ Audited hasher s block := by
  obtain ⟨hverify, h⟩ := check_eq_ok.1 h
  obtain ⟨list, hreplay, hbuilt⟩ := verifyCheckpoint_eq_ok.1 hverify
  obtain ⟨-, -, rfl, hvalid⟩ := buildCheckpoint_spec hbuilt
  exact ⟨(Except.ok.inj h).symm, hvalid, fun id old hold hexcluded =>
    replay_keeps_excluded hreplay hold hexcluded⟩

/-! ### Checks and weights -/

/-- **The snapshot check is the invariant**, together with no pending rating and a
valid latest block of the current round. -/
theorem validateSnapshotInvariants_eq_ok {hasher : List Byte → ContentHash} :
    s.validateSnapshotInvariants hasher = .ok () ↔
      s.pendingRatings = [] ∧ s.Consistent ∧ ∀ block, s.latestBlock = some block →
        validateReputationBlock hasher block = .ok () ∧ block.header.round = s.currentRound := by
  have hlatest : s.validateLatestBlock hasher = .ok () ↔ ∀ block, s.latestBlock = some block →
      validateReputationBlock hasher block = .ok () ∧ block.header.round = s.currentRound := by
    unfold validateLatestBlock
    cases s.latestBlock with
    | none => simp
    | some block =>
        dsimp only
        rw [check_eq_ok, guard_eq_ok, not_not]
        simp
  unfold validateSnapshotInvariants
  rw [guard_eq_ok, guard_eq_ok, check_eq_ok,
    guard_eq_ok, guard_eq_ok, hlatest, validateReputationEntries_eq_ok,
    not_not, not_not]
  refine and_congr_right fun _ => ?_
  constructor
  · rintro ⟨hround, ⟨hordered, hsplit⟩, hentries, hkeys, hlatest⟩
    refine ⟨⟨hround, hordered, hsplit, fun entry hmem => ?_, fun id hid hnone => hkeys ?_⟩, hlatest⟩
    · have hagree : ¬s.contradicts entry = true :=
        fun h => hentries (List.any_eq_true.2 ⟨entry, hmem, h⟩)
      unfold contradicts isEjected at hagree
      simp only [Bool.or_eq_true, bne_iff_ne, ne_eq, not_or, not_not] at hagree
      rw [hagree.1.1, decide_eq_true_iff]
    · exact List.any_eq_true.2 ⟨id, hid, by simp [hnone]⟩
  · rintro ⟨hs, hlatest⟩
    refine ⟨hs.round, ⟨hs.ordered, hs.split⟩, fun h => ?_, fun h => ?_, hlatest⟩
    · obtain ⟨entry, hmem, hbad⟩ := List.any_eq_true.1 h
      have hregistered := hs.registered entry hmem
      obtain ⟨hzero, hretained⟩ := hs.split entry hmem
      unfold contradicts isEjected at hbad
      by_cases hid : entry.nodeId ∈ s.excludedKeys
      · have hexcluded := hregistered.2 hid
        simp [hid, hexcluded, hzero hexcluded] at hbad
      · have hactive : entry.isExcluded = false := by
          rw [← Bool.not_eq_true, hregistered]
          exact hid
        simp [hid, hactive, hretained hactive] at hbad
    · obtain ⟨id, hid, hnone⟩ := List.any_eq_true.1 h
      exact hs.covered id hid (by simpa using hnone)

/-- One step of the loop: a validator that has a weight is passed over, another one gets
the weight of its entry. -/
theorem addValidatorWeight_cases {acc out : List (NodeId × U64) × ℕ}
    (h : s.addValidatorWeight acc id = .ok out) :
    (id ∈ acc.1.map Prod.fst ∧ out = acc) ∨
      (id ∉ acc.1.map Prod.fst ∧ ∃ entry, s.entry id = some entry ∧
        out.1 = acc.1 ++ [(id, s.validatorWeight entry id)]) := by
  have hany : (acc.1.any fun pair => pair.1 = id) = true ↔ id ∈ acc.1.map Prod.fst := by
    simp
  unfold addValidatorWeight at h
  split_ifs at h with hseen
  · obtain rfl := Except.ok.inj h
    exact .inl ⟨hany.1 hseen, rfl⟩
  · obtain ⟨entry, hentry, h⟩ := bind_eq_ok.1 h
    obtain ⟨total, -, h⟩ := bind_eq_ok.1 h
    obtain rfl := Except.ok.inj h
    exact .inr ⟨fun hmem => hseen (hany.2 hmem), entry, okOr_eq_ok.1 hentry, rfl⟩

/-- Every weight of the loop is the one of an entry. -/
theorem weight_of_foldlM {validators : List NodeId} {acc out : List (NodeId × U64) × ℕ}
    (h : validators.foldlM s.addValidatorWeight acc = .ok out) :
    ∀ pair ∈ out.1, pair ∈ acc.1 ∨
      ∃ entry, s.entry pair.1 = some entry ∧ pair.2 = s.validatorWeight entry pair.1 := by
  induction validators generalizing acc with
  | nil =>
      obtain rfl := Except.ok.inj h
      exact fun pair hpair => .inl hpair
  | cons validator validators ih =>
      rw [List.foldlM_cons] at h
      obtain ⟨mid, hmid, h⟩ := bind_eq_ok.1 h
      intro pair hpair
      rcases ih h pair hpair with hpair | hentry
      · rcases addValidatorWeight_cases hmid with ⟨-, rfl⟩ | ⟨-, entry, hentry, hout⟩
        · exact .inl hpair
        · rw [hout] at hpair
          rcases List.mem_append.1 hpair with hpair | hpair
          · exact .inl hpair
          · obtain rfl := List.mem_singleton.1 hpair
            exact .inr ⟨entry, hentry, rfl⟩
      · exact .inr hentry

/-- The loop gives each new validator a weight, in their order. -/
theorem keys_of_foldlM {validators : List NodeId} {acc out : List (NodeId × U64) × ℕ}
    (hnodup : (acc.1.map Prod.fst ++ validators).Nodup)
    (h : validators.foldlM s.addValidatorWeight acc = .ok out) :
    out.1.map Prod.fst = acc.1.map Prod.fst ++ validators := by
  induction validators generalizing acc with
  | nil =>
      obtain rfl := Except.ok.inj h
      exact (List.append_nil _).symm
  | cons validator validators ih =>
      rw [List.foldlM_cons] at h
      obtain ⟨mid, hmid, h⟩ := bind_eq_ok.1 h
      have hfresh := (List.nodup_append.1 hnodup).2.2
      rcases addValidatorWeight_cases hmid with ⟨hseen, -⟩ | ⟨-, entry, -, hout⟩
      · exact absurd rfl (hfresh validator hseen validator List.mem_cons_self)
      · have hkeys : mid.1.map Prod.fst = acc.1.map Prod.fst ++ [validator] := by
          rw [hout, List.map_append, List.map_singleton]
        rw [← List.singleton_append, ← List.append_assoc, ← hkeys] at hnodup
        rw [ih hnodup h, hkeys, List.append_assoc, List.singleton_append]

/-- The loop over the validators, from a successful call. -/
theorem authorizedValidatorWeights_foldlM {validators : List NodeId}
    {weights : List (NodeId × U64)} (h : s.authorizedValidatorWeights validators = .ok weights) :
    ∃ total, validators.foldlM s.addValidatorWeight ([], 0) = .ok (weights, total) := by
  unfold authorizedValidatorWeights at h
  obtain ⟨-, h⟩ := guard_eq_ok.1 h
  obtain ⟨⟨weights', total⟩, hfold, h⟩ := bind_eq_ok.1 h
  obtain ⟨-, h⟩ := guard_eq_ok.1 h
  obtain rfl := Except.ok.inj h
  exact ⟨total, hfold⟩

/-- What the loop has collected from the validators it has seen. -/
structure Collected (acc : List (NodeId × U64) × ℕ) (seen : List NodeId) : Prop where
  nodup : (acc.1.map Prod.fst).Nodup
  mem : ∀ id, id ∈ acc.1.map Prod.fst ↔ id ∈ seen
  total : acc.2 = (acc.1.map fun pair => pair.2.val).sum

theorem Collected.step {acc out : List (NodeId × U64) × ℕ} {seen : List NodeId}
    (h : Collected acc seen) (hstep : s.addValidatorWeight acc id = .ok out) :
    Collected out (seen ++ [id]) := by
  have hany : (acc.1.any fun pair => pair.1 = id) = true ↔ id ∈ acc.1.map Prod.fst := by
    simp
  unfold addValidatorWeight at hstep
  split_ifs at hstep with hseen
  · obtain rfl := Except.ok.inj hstep
    refine ⟨h.nodup, fun k => ?_, h.total⟩
    rw [h.mem, List.mem_append, List.mem_singleton, or_iff_left_of_imp]
    rintro rfl
    exact (h.mem k).1 (hany.1 hseen)
  · obtain ⟨entry, -, hstep⟩ := bind_eq_ok.1 hstep
    obtain ⟨total, htotal, hstep⟩ := bind_eq_ok.1 hstep
    obtain rfl := Except.ok.inj hstep
    have hadd := okOr_eq_ok.1 htotal
    unfold checkedAdd128 at hadd
    split_ifs at hadd
    refine ⟨?_, fun k => ?_, ?_⟩
    · rw [List.map_append, List.map_singleton, List.nodup_append]
      refine ⟨h.nodup, List.nodup_singleton _, fun k hk k' hk' => ?_⟩
      obtain rfl : k' = id := List.mem_singleton.1 hk'
      rintro rfl
      exact hseen (hany.2 hk)
    · rw [List.map_append, List.mem_append, h.mem, List.mem_append]
      rfl
    · rw [List.map_append, List.sum_append, ← h.total]
      exact (Option.some.inj hadd).symm

theorem Collected.run {validators seen : List NodeId} {acc out : List (NodeId × U64) × ℕ}
    (h : Collected acc seen) (hrun : validators.foldlM s.addValidatorWeight acc = .ok out) :
    Collected out (seen ++ validators) := by
  induction validators generalizing acc seen with
  | nil =>
      obtain rfl := Except.ok.inj hrun
      rwa [List.append_nil]
  | cons validator validators ih =>
      rw [List.foldlM_cons] at hrun
      obtain ⟨mid, hmid, hrun⟩ := bind_eq_ok.1 hrun
      rw [← List.singleton_append, ← List.append_assoc]
      exact ih (h.step hmid) hrun

/-- **Each validator has one weight**, however often it is given, and the weights are not
all zero. -/
theorem authorizedValidatorWeights_spec {validators : List NodeId}
    {weights : List (NodeId × U64)} (h : s.authorizedValidatorWeights validators = .ok weights) :
    (weights.map Prod.fst).Nodup ∧ (weights.map Prod.fst).Perm validators.dedup ∧
      (weights.map fun pair => pair.2.val).sum ≠ 0 := by
  unfold authorizedValidatorWeights at h
  obtain ⟨-, h⟩ := guard_eq_ok.1 h
  obtain ⟨⟨weights', total⟩, hfold, h⟩ := bind_eq_ok.1 h
  obtain ⟨htotal, h⟩ := guard_eq_ok.1 h
  obtain rfl := Except.ok.inj h
  have hstart : Collected ([], 0) [] := ⟨List.nodup_nil, fun _ => Iff.rfl, rfl⟩
  have hall := hstart.run hfold
  refine ⟨hall.nodup, ?_, ?_⟩
  · refine (List.perm_ext_iff_of_nodup hall.nodup validators.nodup_dedup).2 fun id => ?_
    rw [hall.mem, List.mem_dedup]
    rfl
  · rw [← hall.total]
    exact htotal

/-- **The validators of the weights are the given ones.** -/
theorem authorizedValidatorWeights_keys {validators : List NodeId}
    {weights : List (NodeId × U64)} (hnodup : validators.Nodup)
    (h : s.authorizedValidatorWeights validators = .ok weights) :
    weights.map Prod.fst = validators := by
  obtain ⟨total, hfold⟩ := authorizedValidatorWeights_foldlM h
  have hstart : ((([], 0) : List (NodeId × U64) × ℕ).1.map Prod.fst ++ validators).Nodup := hnodup
  exact keys_of_foldlM hstart hfold

/-- **No weight for an ejected key.** -/
theorem authorizedValidatorWeights_ejected {validators : List NodeId}
    {weights : List (NodeId × U64)} (h : s.authorizedValidatorWeights validators = .ok weights)
    (hid : id ∈ s.excludedKeys) : ∀ pair ∈ weights, pair.1 = id → pair.2 = 0 := by
  obtain ⟨total, hfold⟩ := authorizedValidatorWeights_foldlM h
  rintro pair hpair rfl
  rcases weight_of_foldlM hfold pair hpair with hnil | ⟨entry, -, hweight⟩
  · exact absurd hnil List.not_mem_nil
  · rw [hweight]
    unfold validatorWeight isEjected
    simp [hid]

end ReputationState

end CordialMiners.Reputation
