/-
# Runs of a reputation state

What holds of every reputation state that calls can reach, failed calls and reloads
from a snapshot included.

* An ejected key stays ejected: it keeps its entry and its retained balance, and
  never gets a weight again (`ejection_permanent`).
* A state can be persisted exactly where it has no pending rating, its latest block
  is of the current round and everything fits in a snapshot.  The round of the
  latest block is left behind only by a vector for another round
  (`persistable_iff`).
-/

import CordialMiners.Reputation.Snapshot

namespace CordialMiners.Reputation

open Codec

/-- One call on a state. -/
inductive ReputationCall where
  | addRating (rating : RatingRecord)
  | setReputation (id : NodeId) (reputation : U64)
  | ejectValidator (id : NodeId)
  | applyReputationVector (vector : ReputationVector)
  | applyReputationBlock (shardId : List Byte) (sourceFinalizedWave : U64)
      (ratings : List RatingRecord) (block : ReputationBlock) (config : PorConfig)
      (penalties : Option ReputationPenaltyEvents)
  | applyCheckpointReputationBlock (shardId : List Byte) (source : RatingSourceCheckpoint)
      (ratings : List RatingRecord) (block : ReputationBlock) (config : PorConfig)
      (penalties : Option ReputationPenaltyEvents)
  /-- Encode a snapshot and go on with what it decodes to. -/
  | reload

/-- Entry count and identities are within the limits of the format. -/
structure ReputationList.WithinLimits (list : ReputationList) : Prop where
  count : list.entries.length ≤ maxBlockEntries
  nodeIds : ∀ entry ∈ list.entries, NodeIdFits entry.nodeId

namespace ReputationState

variable (hasher : List Byte → ContentHash)

/-- What a call returns. -/
def tryCall (s : ReputationState) : ReputationCall → Except PorError ReputationState
  | .addRating rating => .ok (s.addRating rating)
  | .setReputation id reputation => .ok (s.setReputation id reputation)
  | .ejectValidator id => s.ejectValidator id
  | .applyReputationVector vector => s.applyReputationVector vector
  | .applyReputationBlock shardId wave ratings block config penalties =>
      s.applyReputationBlockWithPenalties hasher shardId wave ratings block config penalties
  | .applyCheckpointReputationBlock shardId source ratings block config penalties =>
      s.applyCheckpointReputationBlockWithPenalties hasher shardId source ratings block config
        penalties
  | .reload => encodeReputationStateSnapshot hasher s >>= decodeReputationStateSnapshot hasher

/-- The state after a call; a failed one leaves it as it is. -/
def call (s : ReputationState) (c : ReputationCall) : ReputationState :=
  match s.tryCall hasher c with
  | .ok t => t
  | .error _ => s

/-- The state after the calls. -/
def calls (s : ReputationState) (cs : List ReputationCall) : ReputationState :=
  cs.foldl (call hasher) s

/-- The states a program can have: new ones, decoded ones and those calls lead to. -/
inductive Reachable : ReputationState → Prop where
  | new (round : U64) : Reachable (new round)
  | decoded {bytes : List Byte} {s : ReputationState} :
      decodeReputationStateSnapshot hasher bytes = .ok s → Reachable s
  | call {s : ReputationState} (c : ReputationCall) : Reachable s → Reachable (s.call hasher c)

variable {hasher} {s t : ReputationState} {c : ReputationCall} {id : NodeId}

/-- A consistent state whose latest block is valid. -/
structure Sound (hasher : List Byte → ContentHash) (s : ReputationState) : Prop where
  consistent : s.Consistent
  latest : ∀ block, s.latestBlock = some block → validateReputationBlock hasher block = .ok ()

theorem reload_eq (h : s.tryCall hasher .reload = .ok t) : t = s := by
  obtain ⟨bytes, hbytes, ht⟩ := bind_eq_ok.1 h
  rw [decodeSnapshot_eq_ok_iff.2 hbytes] at ht
  exact (Except.ok.inj ht).symm

/-- **Every call keeps a sound state sound and every ejection in place.** -/
theorem tryCall_spec (hs : s.Sound hasher) (h : s.tryCall hasher c = .ok t) :
    t.Sound hasher ∧ Keeps s t := by
  cases c with
  | addRating rating =>
      obtain rfl := Except.ok.inj h
      exact ⟨⟨⟨hs.consistent.round, hs.consistent.ordered, hs.consistent.split,
        hs.consistent.registered, hs.consistent.covered⟩, hs.latest⟩, fun _ hid => ⟨hid, rfl⟩⟩
  | setReputation id reputation =>
      obtain rfl := Except.ok.inj h
      obtain ⟨hconsistent, hkeeps⟩ := setReputation_spec hs.consistent id reputation
      refine ⟨⟨hconsistent, ?_⟩, hkeeps⟩
      unfold setReputation
      split_ifs <;> exact hs.latest
  | ejectValidator id =>
      obtain ⟨hconsistent, hkeeps⟩ := ejectValidator_spec hs.consistent h
      refine ⟨⟨hconsistent, ?_⟩, hkeeps⟩
      replace h : s.ejectValidator id = .ok t := h
      unfold ejectValidator at h
      split_ifs at h
      · obtain rfl := Except.ok.inj h
        exact hs.latest
      · obtain rfl := Except.ok.inj h
        exact hs.latest
  | applyReputationVector vector =>
      obtain ⟨hconsistent, hkeeps, hlatest, -⟩ := applyReputationVector_spec h
      exact ⟨⟨hconsistent, fun block hb => hs.latest block (hlatest ▸ hb)⟩, hkeeps⟩
  | applyReputationBlock shardId wave ratings block config penalties =>
      obtain ⟨rfl, haudited⟩ := applyBlock_audited h
      obtain ⟨hconsistent, hkeeps⟩ := commitAuditedBlock_spec hs.consistent haudited
      exact ⟨⟨hconsistent, fun b hb => Option.some.inj hb ▸ haudited.valid⟩, hkeeps⟩
  | applyCheckpointReputationBlock shardId source ratings block config penalties =>
      obtain ⟨rfl, haudited⟩ := applyCheckpointBlock_audited h
      obtain ⟨hconsistent, hkeeps⟩ := commitAuditedBlock_spec hs.consistent haudited
      exact ⟨⟨hconsistent, fun b hb => Option.some.inj hb ▸ haudited.valid⟩, hkeeps⟩
  | reload =>
      obtain rfl := reload_eq h
      exact ⟨hs, Keeps.rfl⟩

theorem call_spec (hs : s.Sound hasher) : (s.call hasher c).Sound hasher ∧
    Keeps s (s.call hasher c) := by
  unfold call
  split
  · next t h => exact tryCall_spec hs h
  · exact ⟨hs, Keeps.rfl⟩

theorem calls_spec (hs : s.Sound hasher) (cs : List ReputationCall) :
    (s.calls hasher cs).Sound hasher ∧ Keeps s (s.calls hasher cs) := by
  induction cs generalizing s with
  | nil => exact ⟨hs, Keeps.rfl⟩
  | cons c cs ih =>
      obtain ⟨hc, hkeeps⟩ := call_spec (c := c) hs
      obtain ⟨hcs, hkeeps'⟩ := ih hc
      exact ⟨hcs, hkeeps.trans hkeeps'⟩

theorem sound_new (round : U64) : (new round).Sound hasher :=
  ⟨consistent_new round, fun _ h => absurd h (by simp [new])⟩

theorem Reachable.sound (hs : s.Reachable hasher) : s.Sound hasher := by
  induction hs with
  | new round => exact sound_new round
  | decoded h =>
      have hinv := (encodeSnapshot_eq_ok.1 (decodeSnapshot_eq_ok_iff.1 h)).1
      obtain ⟨-, hconsistent, hlatest⟩ := validateSnapshotInvariants_eq_ok.1 hinv
      exact ⟨hconsistent, fun block hb => (hlatest block hb).1⟩
  | call c _ ih => exact (call_spec ih).1

/-- **Ejection is permanent.**  Whatever calls follow, an ejected key stays registered
and in the list, without weight, excluded and with the same retained balance, and
consensus never counts it. -/
theorem ejection_permanent (hs : s.Reachable hasher) (hid : s.isEjected id = true)
    (cs : List ReputationCall) :
    (s.calls hasher cs).isEjected id = true ∧
      (∃ retained, s.entry id = some ⟨id, 0, retained, true⟩ ∧
        (s.calls hasher cs).entry id = some ⟨id, 0, retained, true⟩) ∧
      ∀ validators weights,
        (s.calls hasher cs).authorizedValidatorWeights validators = .ok weights →
          ∀ pair ∈ weights, pair.1 = id → pair.2 = 0 := by
  have hmem : id ∈ s.excludedKeys := of_decide_eq_true hid
  obtain ⟨hsound, hkeeps⟩ := calls_spec hs.sound cs
  obtain ⟨hejected, hretained⟩ := hkeeps id hmem
  refine ⟨decide_eq_true hejected, ⟨s.retainedOf id, hs.sound.consistent.ejected_entry hmem, ?_⟩,
    fun validators weights hweights => authorizedValidatorWeights_ejected hweights hejected⟩
  rw [hsound.consistent.ejected_entry hejected, hretained]

/-- The two keys of the sample, the second ejected. -/
def sampleEjected : ReputationState :=
  (((new 0).call sumHasher (.setReputation ⟨[1]⟩ 200000000)).call sumHasher
    (.setReputation ⟨[2]⟩ 400000000)).call sumHasher (.ejectValidator ⟨[2]⟩)

theorem sampleEjected_reachable : sampleEjected.Reachable sumHasher :=
  .call _ (.call _ (.call _ (.new 0)))

/-- A vector with a weight for the ejected key, a reload and an assignment. -/
def sampleCalls : List ReputationCall :=
  [.applyReputationVector sampleVector, .reload, .setReputation ⟨[2]⟩ 5]

theorem ejection_permanent_sample :
    (sampleEjected.calls sumHasher sampleCalls).isEjected ⟨[2]⟩ = true ∧
      (∃ retained, sampleEjected.entry ⟨[2]⟩ = some ⟨⟨[2]⟩, 0, retained, true⟩ ∧
        (sampleEjected.calls sumHasher sampleCalls).entry ⟨[2]⟩ =
          some ⟨⟨[2]⟩, 0, retained, true⟩) ∧
      ∀ validators weights,
        (sampleEjected.calls sumHasher sampleCalls).authorizedValidatorWeights validators =
            .ok weights →
          ∀ pair ∈ weights, pair.1 = ⟨[2]⟩ → pair.2 = 0 := by
  have hid : sampleEjected.isEjected ⟨[2]⟩ = true := by decide +kernel
  exact ejection_permanent sampleEjected_reachable hid sampleCalls

/-! ### Which states can be persisted -/

/-- The latest block is of the current round. -/
def LatestCurrent (s : ReputationState) : Prop :=
  ∀ block, s.latestBlock = some block → block.header.round = s.currentRound

/-- List, latest block and the whole are within the limits of a snapshot. -/
structure WithinLimits (s : ReputationState) : Prop where
  list : s.reputationList.WithinLimits
  latest : ∀ block, s.latestBlock = some block → block.reputationList.WithinLimits
  size : (stateLayout s ++ latestLayout s.latestBlock).length ≤ maxStateSnapshotLen - fixedEnvelopeLen

/-- No vector for another round comes after an audited block. -/
def Steady (hasher : List Byte → ContentHash) (s : ReputationState) : List ReputationCall → Prop
  | [] => True
  | c :: cs =>
      (match c with
        | .applyReputationVector vector =>
            s.latestBlock = none ∨ vector.round = s.currentRound
        | _ => True) ∧ Steady hasher (s.call hasher c) cs

/-- In a sound state only the limits are left to check. -/
theorem Sound.fits_iff (hs : s.Sound hasher) : s.Fits ↔ s.WithinLimits := by
  have hids : ∀ id ∈ s.excludedKeys, ∃ entry ∈ s.reputationList.entries, entry.nodeId = id :=
    fun id hid => Keyed.exists_of_find (hs.consistent.covered id hid)
  constructor
  · intro h
    exact ⟨⟨h.list.count, h.list.nodeIds⟩, fun block hb =>
      ⟨(h.latest block hb).count, (h.latest block hb).nodeIds⟩, h.size⟩
  · intro h
    refine ⟨⟨validateReputationEntries_eq_ok.2 ⟨hs.consistent.ordered, hs.consistent.split⟩,
      h.list.count, h.list.nodeIds⟩, ?_, fun id hid => ?_, fun block hb => ?_, h.size⟩
    · have hsub : s.excludedKeys.toList ⊆ s.reputationList.entries.map ReputationEntry.nodeId := by
        intro id hid
        obtain ⟨entry, hentry, heq⟩ := hids id hid
        exact List.mem_map.2 ⟨entry, hentry, heq⟩
      have hle := (s.excludedKeys.ascending.nodup.subperm hsub).length_le
      rw [List.length_map] at hle
      exact hle.trans h.list.count
    · obtain ⟨entry, hentry, rfl⟩ := hids id hid
      exact h.list.nodeIds entry hentry
    · have hvalid := (validateReputationBlock_eq_ok.1 (hs.latest block hb)).2.2.2.1
      exact ⟨hvalid, (h.latest block hb).count, (h.latest block hb).nodeIds⟩

/-- What the snapshot check leaves to check in a sound state. -/
theorem Sound.validate_iff (hs : s.Sound hasher) :
    s.validateSnapshotInvariants hasher = .ok () ↔ s.pendingRatings = [] ∧ s.LatestCurrent := by
  rw [validateSnapshotInvariants_eq_ok]
  constructor
  · rintro ⟨hpending, -, hlatest⟩
    exact ⟨hpending, fun block hb => (hlatest block hb).2⟩
  · rintro ⟨hpending, hlatest⟩
    exact ⟨hpending, hs.consistent, fun block hb => ⟨hs.latest block hb, hlatest block hb⟩⟩

theorem Sound.encode_iff (hs : s.Sound hasher) :
    (∃ bytes, encodeReputationStateSnapshot hasher s = .ok bytes) ↔
      s.pendingRatings = [] ∧ s.LatestCurrent ∧ s.WithinLimits := by
  simp only [encodeSnapshot_eq_ok, hs.validate_iff, hs.fits_iff, exists_and_left,
    exists_eq, and_true, and_assoc]

/-- A steady call keeps the latest block current. -/
theorem call_latestCurrent (hs : s.Sound hasher) (hcurrent : s.LatestCurrent)
    (hsteady : ∀ vector, c = .applyReputationVector vector →
      s.latestBlock = none ∨ vector.round = s.currentRound) :
    (s.call hasher c).LatestCurrent := by
  -- a committed block has the round it is committed in
  have hcommitted : ∀ {block : ReputationBlock}, Audited hasher s block →
      (s.commitAuditedBlock block).LatestCurrent := by
    rintro block haudited b hb
    obtain rfl := Option.some.inj hb
    exact (validateReputationBlock_eq_ok.1 haudited.valid).2.2.1
  unfold call
  split
  · next t h =>
    cases c with
    | addRating rating =>
        obtain rfl := Except.ok.inj h
        exact hcurrent
    | setReputation id reputation =>
        obtain rfl := Except.ok.inj h
        unfold setReputation
        split_ifs <;> exact hcurrent
    | ejectValidator id =>
        replace h : s.ejectValidator id = .ok t := h
        unfold ejectValidator at h
        split_ifs at h
        · obtain rfl := Except.ok.inj h
          exact hcurrent
        · obtain rfl := Except.ok.inj h
          exact hcurrent
    | applyReputationVector vector =>
        obtain ⟨-, -, hlatest, hround⟩ := applyReputationVector_spec h
        intro block hb
        rw [hlatest] at hb
        rcases hsteady vector rfl with hnone | hsame
        · rw [hnone] at hb
          exact absurd hb (by simp)
        · rw [hround, hsame]
          exact hcurrent block hb
    | applyReputationBlock shardId wave ratings block config penalties =>
        obtain ⟨rfl, haudited⟩ := applyBlock_audited h
        exact hcommitted haudited
    | applyCheckpointReputationBlock shardId source ratings block config penalties =>
        obtain ⟨rfl, haudited⟩ := applyCheckpointBlock_audited h
        exact hcommitted haudited
    | reload =>
        obtain rfl := reload_eq h
        exact hcurrent
  · exact hcurrent

theorem calls_latestCurrent (hs : s.Sound hasher) (hcurrent : s.LatestCurrent)
    {cs : List ReputationCall} (hsteady : s.Steady hasher cs) :
    (s.calls hasher cs).LatestCurrent := by
  induction cs generalizing s with
  | nil => exact hcurrent
  | cons c cs ih =>
      obtain ⟨hc, hcs⟩ := hsteady
      refine ih (call_spec hs).1 (call_latestCurrent hs hcurrent fun vector heq => ?_) hcs
      subst heq
      exact hc

/-- **Which reachable states can be persisted.**  The snapshot check passes exactly
without pending ratings and with a latest block of the current round, as it is in
every run without a vector for another round behind an audited block.  Encoding
succeeds exactly where, in addition, list, latest block and size are within the
limits. -/
theorem persistable_iff (hasher : List Byte → ContentHash) (round : U64)
    (cs : List ReputationCall) :
    ((((new round).calls hasher cs).validateSnapshotInvariants hasher = .ok ()) ↔
      ((new round).calls hasher cs).pendingRatings = [] ∧
        ((new round).calls hasher cs).LatestCurrent) ∧
    ((∃ bytes, encodeReputationStateSnapshot hasher ((new round).calls hasher cs) = .ok bytes) ↔
      ((new round).calls hasher cs).pendingRatings = [] ∧
        ((new round).calls hasher cs).LatestCurrent ∧
        ((new round).calls hasher cs).WithinLimits) ∧
    ((new round).Steady hasher cs → ((new round).calls hasher cs).LatestCurrent) := by
  have hsound := (calls_spec (@sound_new hasher round) cs).1
  exact ⟨hsound.validate_iff, hsound.encode_iff,
    calls_latestCurrent (sound_new round) fun _ h => absurd h (by simp [new])⟩

/-- An audited block, and a vector for the next round behind it. -/
def staleCalls : List ReputationCall :=
  [.setReputation ⟨[1]⟩ 200000000, .setReputation ⟨[2]⟩ 400000000,
    .applyReputationBlock [9] 0 sampleBatch.ratings sampleReputationBlock .default none,
    .applyReputationVector ⟨2, sampleList.entries⟩]

/-- `n` identities of `w` bytes, in order. -/
def wideIds (n w : ℕ) : List NodeId :=
  ((Finset.range n).image fun i => (⟨beBytes w i⟩ : NodeId)).sort

/-- A vector for them. -/
def wideVector (n w : ℕ) : ReputationVector := ⟨0, (wideIds n w).map fun id => .new id 0⟩

theorem length_wideIds {n w : ℕ} (h : n ≤ 256 ^ w) : (wideIds n w).length = n := by
  unfold wideIds
  rw [Finset.length_sort, Finset.card_image_of_injOn, Finset.card_range]
  intro i hi j hj heq
  have hi := (Finset.mem_range.1 hi).trans_le h
  have hj := (Finset.mem_range.1 hj).trans_le h
  have hbytes : beBytes w i = beBytes w j := congrArg NodeId.bytes heq
  rw [← ofBeBytes_beBytes hi, hbytes, ofBeBytes_beBytes hj]

theorem wideVector_ids {n w : ℕ} :
    ∀ entry ∈ (wideVector n w).values, entry.nodeId.bytes.length = w := by
  intro entry hentry
  obtain ⟨id, hid, rfl⟩ := List.mem_map.1 hentry
  unfold wideIds at hid
  rw [Finset.mem_sort, Finset.mem_image] at hid
  obtain ⟨i, -, rfl⟩ := hid
  exact length_beBytes w i

theorem call_wideVector (n w : ℕ) : (new 0).call hasher (.applyReputationVector (wideVector n w)) =
    ⟨0, ⟨0, (wideVector n w).values⟩, .empty, [], none⟩ := by
  have hordered : Ordered (wideVector n w).values := by
    refine Keyed.ascending_iff_map.2 ?_
    have hmap : (wideVector n w).values.map ReputationEntry.nodeId = wideIds n w := by
      unfold wideVector
      rw [List.map_map]
      exact List.map_id _
    rw [hmap]
    exact (Finset.sortedLT_sort _).pairwise
  have hfresh : ∀ entry ∈ (wideVector n w).values, entry.Fresh := by
    intro entry hentry
    obtain ⟨id, -, rfl⟩ := List.mem_map.1 hentry
    exact ReputationEntry.fresh_new id 0
  have hmap : (wideVector n w).values.map (new 0).reapplyEjection = (wideVector n w).values :=
    List.map_id'' (fun entry => if_neg OrderedSet.not_mem_empty) _
  have happly : (new 0).applyReputationVector (wideVector n w) =
      .ok ⟨0, ⟨0, (wideVector n w).values⟩, .empty, [], none⟩ := by
    refine check_eq_ok.2 ⟨validateReputationEntries_eq_ok.2 ⟨hordered,
      fun entry hentry => ⟨fun h => absurd h (by simp [(hfresh entry hentry).2]),
        fun _ => (hfresh entry hentry).1⟩⟩, guard_eq_ok.2 ⟨fun h => ?_, ?_⟩⟩
    · obtain ⟨entry, hentry, hbad⟩ := List.any_eq_true.1 h
      simp [(hfresh entry hentry).2] at hbad
    · rw [hmap]
      rfl
  have htry : (new 0).tryCall hasher (.applyReputationVector (wideVector n w)) = _ := happly
  unfold call
  rw [htry]

theorem length_listLayout {list : ReputationList} {w : ℕ}
    (h : ∀ entry ∈ list.entries, entry.nodeId.bytes.length = w) :
    (listLayout list).length = 16 + list.entries.length * (w + 25) := by
  have hentry : ∀ entry ∈ list.entries, (entryLayout entry).length = w + 25 := by
    intro entry hentry
    simp only [entryLayout, putBytes, List.length_append, length_beBytes, h entry hentry,
      List.length_singleton]
    omega
  unfold listLayout
  rw [List.length_append, List.length_append, length_beBytes, length_beBytes, List.length_flatMap,
    List.map_congr_left hentry, List.map_const', List.sum_replicate, smul_eq_mul]

/-- Two reachable states within the limits on count and identities that cannot be
persisted: one whose latest block was left behind, one that is too long. -/
theorem not_every_state_persistable :
    (((new 0).calls sumHasher staleCalls).pendingRatings = [] ∧
      ((new 0).calls sumHasher staleCalls).reputationList.WithinLimits ∧
      ((new 0).calls sumHasher staleCalls).validateSnapshotInvariants sumHasher =
        .error .reputationStateSnapshotBlockRoundMismatch) ∧
    ∃ vector, ((new 0).calls sumHasher [.applyReputationVector vector]).pendingRatings = [] ∧
      ((new 0).calls sumHasher [.applyReputationVector vector]).reputationList.WithinLimits ∧
      ∀ bytes, encodeReputationStateSnapshot sumHasher
        ((new 0).calls sumHasher [.applyReputationVector vector]) ≠ .ok bytes := by
  refine ⟨⟨by decide +kernel, ⟨by decide +kernel, ?_⟩, by decide +kernel⟩, ?_⟩
  · have hshort : (((new 0).calls sumHasher staleCalls).reputationList.entries.all fun entry =>
        entry.nodeId.bytes.length ≤ maxNodeIdLen) = true := by decide +kernel
    intro entry hentry
    show entry.nodeId.bytes.length ≤ maxNodeIdLen
    exact of_decide_eq_true (List.all_eq_true.1 hshort entry hentry)
  · -- twenty thousand identities of four thousand bytes
    obtain ⟨n, hn⟩ : ∃ n, n = 20000 := ⟨_, rfl⟩
    obtain ⟨w, hw⟩ : ∃ w, w = 4000 := ⟨_, rfl⟩
    have hcount : (wideVector n w).values.length = n := by
      unfold wideVector
      rw [List.length_map, length_wideIds]
      calc n ≤ 256 ^ 2 := by omega
        _ ≤ 256 ^ w := Nat.pow_le_pow_right (by omega) (by omega)
    have hcall : (new 0).calls sumHasher [.applyReputationVector (wideVector n w)] = _ :=
      call_wideVector n w
    refine ⟨wideVector n w, ?_⟩
    rw [hcall]
    refine ⟨rfl, ⟨?_, fun entry hentry => ?_⟩, fun bytes hbytes => ?_⟩
    · show (wideVector n w).values.length ≤ maxBlockEntries
      unfold maxBlockEntries
      omega
    · unfold NodeIdFits maxNodeIdLen
      rw [wideVector_ids entry hentry]
      omega
    · have hlist := @length_listLayout ⟨0, (wideVector n w).values⟩ w wideVector_ids
      rw [hcount] at hlist
      have hsize := (encodeSnapshot_eq_ok.1 hbytes).2.1.size
      unfold stateLayout at hsize
      simp only [List.length_append, hlist] at hsize
      unfold maxStateSnapshotLen fixedEnvelopeLen at hsize
      subst hn hw
      omega

end ReputationState

end CordialMiners.Reputation
