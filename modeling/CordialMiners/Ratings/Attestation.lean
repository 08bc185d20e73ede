/-
# Attestation and rating quorums

`por/checkpoint.rs` and `por/lifecycle/quorum.rs`.

A collector of publications snapshots the weights of the attesters it is given and counts
the publications of one audited block until the signed weight is strictly above a
fraction of the total.  A closure policy weighs the complete raters of a round against the
same kind of fraction.

The required weight is computed in a whole and a remainder part, so that no product
leaves 128 bits; it is the least weight above the fraction (`strictRequiredWeight_spec`).
What is counted is kept by every call (`Counts.observe`): the signed weight is the sum of
the snapshot weights of the publishers, all of whom published the candidate block.
-/

import CordialMiners.Ratings.Collection
import CordialMiners.Ratings.Publication
import CordialMiners.Runtime.Transition

namespace CordialMiners.Reputation

open Codec (bind_eq_ok check_eq_ok)

/-! ### Thresholds -/

/-- `strict_required_weight`; `none` on overflow. -/
def strictRequiredWeight (totalWeight numerator denominator : ℕ) : Option ℕ := do
  let whole ← checkedMul128 (totalWeight / denominator) numerator
  let remainder ← checkedMul128 (totalWeight % denominator) numerator
  let floor ← checkedAdd128 whole (remainder / denominator)
  checkedAdd128 floor 1

/-- **The required weight is the least one strictly above the fraction**, and its
computation does not overflow. -/
theorem strictRequiredWeight_spec {total numerator denominator : ℕ} (hlt : numerator < denominator)
    (hdenominator : denominator < 2 ^ 64) (htotal : total < 2 ^ 128) :
    ∃ required, strictRequiredWeight total numerator denominator = some required ∧
      ∀ weight, required ≤ weight ↔ total * numerator < weight * denominator := by
  have hpos : 0 < denominator := Nat.zero_lt_of_lt hlt
  have hfloor : total / denominator * numerator + total % denominator * numerator / denominator =
      total * numerator / denominator := by
    conv_rhs => rw [← Nat.div_add_mod total denominator]
    rw [Nat.add_mul, Nat.mul_assoc, Nat.mul_add_div hpos]
  have hle : total * numerator / denominator ≤ total := by
    refine Nat.div_le_of_le_mul ?_
    rw [Nat.mul_comm denominator]
    exact Nat.mul_le_mul_left _ hlt.le
  have hstrict : total ≠ 0 → total * numerator / denominator < total := fun hne => by
    rw [Nat.div_lt_iff_lt_mul hpos]
    exact Nat.mul_lt_mul_of_pos_left hlt (Nat.pos_of_ne_zero hne)
  have hremainder : total % denominator * numerator < 2 ^ 128 := by
    calc total % denominator * numerator < 2 ^ 64 * 2 ^ 64 :=
          Nat.mul_lt_mul'' ((Nat.mod_lt _ hpos).trans hdenominator) (hlt.trans hdenominator)
      _ = 2 ^ 128 := by norm_num
  refine ⟨total * numerator / denominator + 1, ?_, fun weight => ?_⟩
  · have hone : total * numerator / denominator + 1 < 2 ^ 128 := by
      rcases Nat.eq_zero_or_pos total with rfl | hne
      · simp
      · have := hstrict hne.ne'
        omega
    have hwhole : checkedMul128 (total / denominator) numerator =
        some (total / denominator * numerator) :=
      if_pos ((Nat.le_add_right _ _).trans_lt (hfloor.trans_lt (hle.trans_lt htotal)))
    have hmod : checkedMul128 (total % denominator) numerator =
        some (total % denominator * numerator) := if_pos hremainder
    have hsum : checkedAdd128 (total / denominator * numerator)
        (total % denominator * numerator / denominator) =
        some (total * numerator / denominator) := by
      rw [← hfloor]
      exact if_pos (hfloor.trans_lt (hle.trans_lt htotal))
    have hnext : checkedAdd128 (total * numerator / denominator) 1 =
        some (total * numerator / denominator + 1) := if_pos hone
    unfold strictRequiredWeight
    rw [hwhole, hmod]
    show (checkedAdd128 _ _ >>= _) = _
    rw [hsum]
    exact hnext
  · rw [Nat.succ_le_iff, Nat.div_lt_iff_lt_mul hpos]

/-- A strict rational threshold, `0 < numerator < denominator`. -/
structure StrictThreshold where
  numerator : U64
  denominator : U64
  numerator_pos : 0 < numerator
  numerator_lt : numerator < denominator

/-- The checks of both policies. -/
def StrictThreshold.ofParts (numerator denominator : U64) : Option StrictThreshold :=
  if h : 0 < numerator ∧ numerator < denominator then some ⟨numerator, denominator, h.1, h.2⟩
  else none

/-- Strictly more than two thirds. -/
def StrictThreshold.twoThirds : StrictThreshold := ⟨2, 3, by decide, by decide⟩

theorem StrictThreshold.required_spec (policy : StrictThreshold) {total : ℕ}
    (htotal : total < 2 ^ 128) :
    ∃ required, strictRequiredWeight total policy.numerator.val policy.denominator.val =
        some required ∧
      ∀ weight, required ≤ weight ↔
        total * policy.numerator.val < weight * policy.denominator.val :=
  strictRequiredWeight_spec policy.numerator_lt policy.denominator.isLt htotal

/-! ### Checkpoint attestation -/

/-- `PorCheckpointPolicy`. -/
abbrev PorCheckpointPolicy := StrictThreshold

/-- Observable progress of a candidate. -/
structure PorCheckpointProgress where
  authorizedAttesters : ℕ
  attesters : List NodeId
  candidateHash : Option ReputationCommitment
  totalAttesterWeight : ℕ
  signedWeight : ℕ
  requiredWeight : ℕ
deriving DecidableEq

/-- `PorCheckpointProgress::is_reached`. -/
def PorCheckpointProgress.isReached (progress : PorCheckpointProgress) : Bool :=
  progress.signedWeight ≥ progress.requiredWeight

/-- Whether a publication changed the attestation weight. -/
inductive PorCheckpointObservation where
  | counted
  | duplicate
deriving DecidableEq, Repr

variable (crypto : RatingCrypto)

/-- An attested checkpoint. -/
structure AttestedPorCheckpoint where
  block : ReputationBlock
  blockHash : ReputationCommitment
  publications : List (ReputationBlockPublicationV1 crypto)
  progress : PorCheckpointProgress

/-- Two different publications of one attester. -/
structure PorCheckpointConflictEvidence where
  attester : NodeId
  firstHash : ReputationCommitment
  conflictingHash : ReputationCommitment
  firstPublication : ReputationBlockPublicationV1 crypto
  conflictingPublication : ReputationBlockPublicationV1 crypto

/-- `PorCheckpointError`. -/
inductive PorCheckpointError where
  | invalidThreshold (numerator denominator : U64)
  | emptyAttesterSet
  | unknownAttester (attester : NodeId)
  | excludedAttester (attester : NodeId)
  | zeroAttesterWeight
  | weightOverflow
  | unauthorizedAttester (attester : NodeId)
  | conflictingPublication (evidence : PorCheckpointConflictEvidence crypto)
  | competingAuditedBlock (firstHash competingHash : ReputationCommitment)
  | audit (error : PorError)
  | thresholdAlreadyReached
  | thresholdNotReached (signedWeight requiredWeight : ℕ)

/-- `PorCheckpointPolicy::new`. -/
def PorCheckpointPolicy.new (numerator denominator : U64) :
    Except (PorCheckpointError crypto) PorCheckpointPolicy :=
  okOr (.invalidThreshold numerator denominator) (StrictThreshold.ofParts numerator denominator)

/-- The publications of one completed rating round. -/
structure PorCheckpointCollector where
  state : ReputationState
  completed : CompletedPorRatingRound
  config : PorConfig
  shardId : List Byte
  attesterWeights : OrderedMap NodeId U64
  totalAttesterWeight : ℕ
  requiredWeight : ℕ
  signedWeight : ℕ
  candidateHash : Option ReputationCommitment
  candidateBlock : Option ReputationBlock
  publications : OrderedMap NodeId (ReputationBlockPublicationV1 crypto)

namespace PorCheckpointCollector

/-- One step of the loop over the attesters: their weights and the total. -/
def snapshotAttester (state : ReputationState) (acc : OrderedMap NodeId U64 × ℕ)
    (attester : NodeId) : Except (PorCheckpointError crypto) (OrderedMap NodeId U64 × ℕ) := do
  let entry ← okOr (.unknownAttester attester) (state.entry attester)
  if entry.isExcluded || state.isEjected attester then .error (.excludedAttester attester)
  else if acc.1.lookup attester ≠ none then .ok acc
  else
    let total ← okOr .weightOverflow (checkedAdd128 acc.2 entry.reputation.val)
    .ok (acc.1.insert attester entry.reputation, total)

/-- `PorCheckpointCollector::new`. -/
def new (state : ReputationState) (completed : CompletedPorRatingRound) (config : PorConfig)
    (shardId : List Byte) (authorizedAttesters : List NodeId) (policy : PorCheckpointPolicy) :
    Except (PorCheckpointError crypto) (PorCheckpointCollector crypto) := do
  let (attesterWeights, totalAttesterWeight) ←
    authorizedAttesters.foldlM (snapshotAttester crypto state) (.empty, 0)
  if attesterWeights.keys = [] then .error .emptyAttesterSet
  else if totalAttesterWeight = 0 then .error .zeroAttesterWeight
  else
    let requiredWeight ← okOr .weightOverflow
      (strictRequiredWeight totalAttesterWeight policy.numerator.val policy.denominator.val)
    .ok
      { state, completed, config, shardId, attesterWeights, totalAttesterWeight, requiredWeight
        signedWeight := 0
        candidateHash := none
        candidateBlock := none
        publications := .empty }

variable {crypto}

/-- `progress`. -/
def progress (c : PorCheckpointCollector crypto) : PorCheckpointProgress where
  authorizedAttesters := c.attesterWeights.keys.length
  attesters := c.publications.keys
  candidateHash := c.candidateHash
  totalAttesterWeight := c.totalAttesterWeight
  signedWeight := c.signedWeight
  requiredWeight := c.requiredWeight

/-- `audit`. -/
def audit (c : PorCheckpointCollector crypto) (block : ReputationBlock) : Except PorError Unit := do
  c.completed.validateCompleteAuthorizations c.shardId
  verifyReputationTransitionWithPenalties crypto.hasher c.state.previousVector
    c.completed.batch.ratings block
    ⟨c.shardId, c.completed.opened.finalizedWave, c.state.latestBlock⟩ c.config
    c.completed.penalties

/-- The end of `observe`: the first counted block is the candidate. -/
def count (c : PorCheckpointCollector crypto) (publication : ReputationBlockPublicationV1 crypto)
    (blockHash : ReputationCommitment) (signedWeight : ℕ) : PorCheckpointCollector crypto :=
  { c with
    candidateHash := if c.candidateHash = none then some blockHash else c.candidateHash
    candidateBlock :=
      if c.candidateHash = none then some publication.encoded.block else c.candidateBlock
    publications := c.publications.insert publication.publisher publication
    signedWeight := signedWeight }

/-- `observe`: the result, and the collector after it. -/
def observe (c : PorCheckpointCollector crypto) (publication : ReputationBlockPublicationV1 crypto) :
    Except (PorCheckpointError crypto) PorCheckpointObservation × PorCheckpointCollector crypto :=
  if c.progress.isReached then (.error .thresholdAlreadyReached, c)
  else
    match c.attesterWeights.lookup publication.publisher with
    | none => (.error (.unauthorizedAttester publication.publisher), c)
    | some weight =>
        match reputationBlockHash crypto.hasher publication.encoded.block with
        | .error error => (.error (.audit error), c)
        | .ok blockHash =>
            match c.publications.lookup publication.publisher with
            | some previous =>
                match reputationBlockHash crypto.hasher previous.encoded.block with
                | .error error => (.error (.audit error), c)
                | .ok previousHash =>
                    if previousHash = blockHash then (.ok .duplicate, c)
                    else (.error (.conflictingPublication ⟨publication.publisher, previousHash,
                      blockHash, previous, publication⟩), c)
            | none =>
                match c.audit publication.encoded.block with
                | .error error => (.error (.audit error), c)
                | .ok () =>
                    if c.candidateHash.any fun firstHash => firstHash ≠ blockHash then
                      (.error (.competingAuditedBlock (c.candidateHash.getD blockHash) blockHash), c)
                    else
                      match checkedAdd128 c.signedWeight weight.val with
                      | none => (.error .weightOverflow, c)
                      | some signedWeight =>
                          (.ok .counted, c.count publication blockHash signedWeight)

/-- `into_attested`; `none` is the panic of `expect`. -/
def intoAttested (c : PorCheckpointCollector crypto) :
    Option (Except (PorCheckpointError crypto) (AttestedPorCheckpoint crypto)) :=
  if !c.progress.isReached then
    some (.error (.thresholdNotReached c.signedWeight c.requiredWeight))
  else
    match c.candidateBlock, c.candidateHash with
    | some block, some blockHash =>
        some (.ok ⟨block, blockHash, c.publications.values, c.progress⟩)
    | _, _ => none

/-- A run of calls. -/
def observeAll (c : PorCheckpointCollector crypto)
    (publications : List (ReputationBlockPublicationV1 crypto)) : PorCheckpointCollector crypto :=
  publications.foldl (fun c publication => (c.observe publication).2) c

end PorCheckpointCollector

/-! ### Closing a rating round -/

/-- `PorRatingRoundClosurePolicy`. -/
abbrev PorRatingRoundClosurePolicy := StrictThreshold

/-- `PorRatingQuorumError`. -/
inductive PorRatingQuorumError where
  | invalidThreshold (numerator denominator : U64)
  | zeroActiveWeight
  | weightOverflow
  | collector (error : PorRatingCollectorError)
deriving DecidableEq, Repr

/-- `PorRatingQuorumProgress`. -/
structure PorRatingQuorumProgress where
  eligibleRaters : ℕ
  completedRaters : List NodeId
  totalActiveWeight : ℕ
  completedWeight : ℕ
  requiredWeight : ℕ
deriving DecidableEq, Repr

/-- `PorRatingQuorumProgress::is_reached`. -/
def PorRatingQuorumProgress.isReached (progress : PorRatingQuorumProgress) : Bool :=
  progress.completedWeight ≥ progress.requiredWeight

/-- `PorRatingRoundClosurePolicy::new`. -/
def PorRatingRoundClosurePolicy.new (numerator denominator : U64) :
    Except PorRatingQuorumError PorRatingRoundClosurePolicy :=
  okOr (.invalidThreshold numerator denominator) (StrictThreshold.ofParts numerator denominator)

/-- The counters of `evaluate`. -/
structure QuorumTally where
  eligibleRaters : ℕ := 0
  completedRaters : List NodeId := []
  totalActiveWeight : ℕ := 0
  completedWeight : ℕ := 0
deriving DecidableEq, Repr

/-- One step of the loop of `evaluate` over the entries. -/
def QuorumTally.add (state : ReputationState) (collector : RatingCollector) (tally : QuorumTally)
    (entry : ReputationEntry) : Except PorRatingQuorumError QuorumTally :=
  if entry.isExcluded || state.isEjected entry.nodeId then .ok tally
  else do
    let eligibleRaters ← okOr .weightOverflow (checkedAdd64 tally.eligibleRaters 1)
    let totalActiveWeight ← okOr .weightOverflow
      (checkedAdd128 tally.totalActiveWeight entry.reputation.val)
    let isComplete ← (collector.isRaterComplete entry.nodeId).mapError .collector
    if isComplete then
      let completedWeight ← okOr .weightOverflow
        (checkedAdd128 tally.completedWeight entry.reputation.val)
      .ok ⟨eligibleRaters, tally.completedRaters ++ [entry.nodeId], totalActiveWeight,
        completedWeight⟩
    else .ok { tally with eligibleRaters, totalActiveWeight }

/-- `evaluate`; the state is the one the collector was opened over. -/
def PorRatingRoundClosurePolicy.evaluate (policy : PorRatingRoundClosurePolicy)
    (state : ReputationState) (collector : RatingCollector) :
    Except PorRatingQuorumError PorRatingQuorumProgress := do
  let tally ← state.reputationList.entries.foldlM (QuorumTally.add state collector) {}
  if tally.totalActiveWeight = 0 then .error .zeroActiveWeight
  else
    let requiredWeight ← okOr .weightOverflow
      (strictRequiredWeight tally.totalActiveWeight policy.numerator.val policy.denominator.val)
    .ok ⟨tally.eligibleRaters, tally.completedRaters, tally.totalActiveWeight,
      tally.completedWeight, requiredWeight⟩

/-! ### What is counted -/

namespace PorCheckpointCollector

variable {crypto} {c : PorCheckpointCollector crypto}
  {publication : ReputationBlockPublicationV1 crypto}

/-- The snapshot weight of an attester. -/
def weightOf (c : PorCheckpointCollector crypto) (attester : NodeId) : ℕ :=
  (c.attesterWeights.lookup attester).elim 0 Fin.val

/-- **What a call can do:** leave the collector as it is, or count an audited publication of
a new attester for the candidate. -/
theorem observe_cases (c : PorCheckpointCollector crypto)
    (publication : ReputationBlockPublicationV1 crypto) :
    ((c.observe publication).2 = c ∧ (c.observe publication).1 ≠ .ok .counted) ∨
      ∃ weight blockHash, c.attesterWeights.lookup publication.publisher = some weight ∧
        reputationBlockHash crypto.hasher publication.encoded.block = .ok blockHash ∧
        c.publications.lookup publication.publisher = none ∧
        c.audit publication.encoded.block = .ok () ∧
        (∀ firstHash, c.candidateHash = some firstHash → firstHash = blockHash) ∧
        c.observe publication =
          (.ok .counted, c.count publication blockHash (c.signedWeight + weight.val)) := by
  unfold observe
  split_ifs with hreached
  · exact Or.inl ⟨rfl, by simp⟩
  cases hweight : c.attesterWeights.lookup publication.publisher with
  | none => exact Or.inl ⟨rfl, by simp⟩
  | some weight =>
    cases hhash : reputationBlockHash crypto.hasher publication.encoded.block with
    | error error => exact Or.inl ⟨rfl, by simp⟩
    | ok blockHash =>
      cases hprevious : c.publications.lookup publication.publisher with
      | some previous =>
          dsimp only
          cases reputationBlockHash crypto.hasher previous.encoded.block with
          | error error => exact Or.inl ⟨rfl, by simp⟩
          | ok previousHash =>
              dsimp only
              split_ifs
              · exact Or.inl ⟨rfl, by simp⟩
              · exact Or.inl ⟨rfl, by simp⟩
      | none =>
          dsimp only
          cases haudit : c.audit publication.encoded.block with
          | error error => exact Or.inl ⟨rfl, by simp⟩
          | ok _ =>
              dsimp only
              split_ifs with hcompeting
              · exact Or.inl ⟨rfl, by simp⟩
              · unfold checkedAdd128
                split_ifs with hfits
                · refine Or.inr ⟨weight, blockHash, rfl, rfl, rfl, rfl, fun firstHash hfirst => ?_, rfl⟩
                  rw [hfirst] at hcompeting
                  simpa using hcompeting
                · exact Or.inl ⟨rfl, by simp⟩

/-- The audit accepts one block at most. -/
theorem audit_unique {block block' : ReputationBlock} (h : c.audit block = .ok ())
    (h' : c.audit block' = .ok ()) : block = block' := by
  obtain ⟨-, h⟩ := check_eq_ok.1 h
  obtain ⟨-, h'⟩ := check_eq_ok.1 h'
  obtain ⟨list, hlist, hbuilt⟩ := verify_eq_ok.1 h
  obtain ⟨list', hlist', hbuilt'⟩ := verify_eq_ok.1 h'
  -- both follow the round of the state, so they are built from one list
  obtain ⟨-, -, _, -, hround, -⟩ := replay_stages hlist
  obtain ⟨-, -, _, -, hround', -⟩ := replay_stages hlist'
  have hsame : block.header.round = block'.header.round :=
    Fin.ext (Option.some.inj (hround.symm.trans hround'))
  rw [hsame] at hlist hbuilt
  obtain rfl := Except.ok.inj (hlist.symm.trans hlist')
  exact Except.ok.inj (hbuilt.symm.trans hbuilt')

/-- **What is counted:** the publishers are attesters, each published the candidate, which
is audited, and the signed weight is the sum of their snapshot weights. -/
structure Counts (c : PorCheckpointCollector crypto) : Prop where
  counted : ∀ publisher publication, c.publications.lookup publisher = some publication →
    publication.publisher = publisher ∧ c.attesterWeights.lookup publisher ≠ none ∧
      c.candidateBlock = some publication.encoded.block
  candidate : ∀ blockHash, c.candidateHash = some blockHash →
    ∃ block, c.candidateBlock = some block ∧ c.audit block = .ok () ∧
      reputationBlockHash crypto.hasher block = .ok blockHash
  without : c.candidateHash = none → c.publications.entries = []
  weight : c.signedWeight = (c.publications.keys.map c.weightOf).sum

/-- The block that is counted is the candidate afterwards. -/
theorem count_candidate {blockHash : ReputationCommitment} (signedWeight : ℕ) (h : c.Counts)
    (haudit : c.audit publication.encoded.block = .ok ())
    (hfirst : ∀ firstHash, c.candidateHash = some firstHash → firstHash = blockHash) :
    (c.count publication blockHash signedWeight).candidateHash = some blockHash ∧
      (c.count publication blockHash signedWeight).candidateBlock =
        some publication.encoded.block := by
  unfold count
  dsimp only
  split_ifs with hnone
  · exact ⟨rfl, rfl⟩
  · obtain ⟨firstHash, hcandidate⟩ := Option.ne_none_iff_exists'.1 hnone
    obtain ⟨block, hblock, hblockAudit, -⟩ := h.candidate firstHash hcandidate
    rw [hblock, audit_unique hblockAudit haudit, hcandidate, hfirst firstHash hcandidate]
    exact ⟨rfl, rfl⟩

/-- **Every call keeps what is counted.** -/
theorem Counts.observe (h : c.Counts) (publication : ReputationBlockPublicationV1 crypto) :
    (c.observe publication).2.Counts := by
  rcases observe_cases c publication with
    ⟨hsame, -⟩ | ⟨weight, blockHash, hweight, hhash, hfresh, haudit, hfirst, hcounted⟩
  · rw [hsame]
    exact h
  rw [hcounted]
  obtain ⟨hcandidateHash, hcandidateBlock⟩ :=
    count_candidate (c.signedWeight + weight.val) h haudit hfirst
  refine ⟨fun publisher p hp => ?_, fun hash hhash' => ?_, fun hnone => ?_, ?_⟩
  · rw [hcandidateBlock]
    have hlookup : (c.publications.insert publication.publisher publication).lookup publisher =
        some p := hp
    rw [OrderedMap.lookup_insert] at hlookup
    split_ifs at hlookup with heq
    · obtain rfl := Option.some.inj hlookup
      refine ⟨heq.symm, ?_, rfl⟩
      show c.attesterWeights.lookup publisher ≠ none
      rw [heq, hweight]
      simp
    · obtain ⟨hpublisher, hattester, hblock⟩ := h.counted publisher p hlookup
      refine ⟨hpublisher, hattester, ?_⟩
      -- there was a candidate before, and it is the one that is counted
      have hsome : c.candidateHash ≠ none := fun hnone => by
        have hmem := OrderedMap.mem_entries_iff.2 hlookup
        rw [h.without hnone] at hmem
        simp at hmem
      obtain ⟨firstHash, hcandidate⟩ := Option.ne_none_iff_exists'.1 hsome
      obtain ⟨block, hblock', hblockAudit, -⟩ := h.candidate firstHash hcandidate
      rw [← hblock, hblock', audit_unique hblockAudit haudit]
  · rw [hcandidateHash] at hhash'
    obtain rfl := Option.some.inj hhash'
    exact ⟨_, hcandidateBlock, haudit, hhash⟩
  · rw [hcandidateHash] at hnone
    exact absurd hnone (by simp)
  · have hperm := @OrderedMap.insert_perm_of_lookup_eq_none _ _ _ _ _ publication hfresh
    show c.signedWeight + weight.val =
      (((c.publications.insert publication.publisher publication).entries.map Prod.fst).map
        c.weightOf).sum
    rw [((hperm.map Prod.fst).map c.weightOf).sum_eq, List.map_cons, List.map_cons, List.sum_cons,
      h.weight, Nat.add_comm]
    have hval : c.weightOf publication.publisher = weight.val := by
      unfold weightOf
      rw [hweight]
      rfl
    rw [hval]
    rfl

/-- What no call changes. -/
theorem observe_frame (c : PorCheckpointCollector crypto)
    (publication : ReputationBlockPublicationV1 crypto) :
    (c.observe publication).2.attesterWeights = c.attesterWeights ∧
    (c.observe publication).2.totalAttesterWeight = c.totalAttesterWeight ∧
      (c.observe publication).2.requiredWeight = c.requiredWeight := by
  rcases observe_cases c publication with
    ⟨hsame, -⟩ | ⟨weight, blockHash, -, -, -, -, -, hcounted⟩
  · rw [hsame]
    exact ⟨rfl, rfl, rfl⟩
  · rw [hcounted]
    exact ⟨rfl, rfl, rfl⟩

/-- **Every run keeps what is counted**, and the snapshot. -/
theorem Counts.observeAll (h : c.Counts)
    (publications : List (ReputationBlockPublicationV1 crypto)) :
    (c.observeAll publications).Counts ∧
      (c.observeAll publications).attesterWeights = c.attesterWeights ∧
      (c.observeAll publications).totalAttesterWeight = c.totalAttesterWeight ∧
      (c.observeAll publications).requiredWeight = c.requiredWeight := by
  induction publications generalizing c with
  | nil => exact ⟨h, rfl, rfl, rfl⟩
  | cons publication publications ih =>
      obtain ⟨hcounts, hweights, htotal, hrequired⟩ := ih (h.observe publication)
      obtain ⟨hweights', htotal', hrequired'⟩ := observe_frame c publication
      exact ⟨hcounts, hweights.trans hweights', htotal.trans htotal', hrequired.trans hrequired'⟩

/-- **A collector attests exactly where the required weight is signed**; a candidate is
there then. -/
theorem intoAttested_isOk_iff (h : c.Counts) (hpos : 0 < c.requiredWeight) :
    (∃ attested, c.intoAttested = some (.ok attested)) ↔ c.requiredWeight ≤ c.signedWeight := by
  unfold intoAttested
  by_cases hreached : c.requiredWeight ≤ c.signedWeight
  · have hprogress : c.progress.isReached = true := by
      unfold PorCheckpointProgress.isReached progress
      simpa using hreached
    rw [hprogress]
    refine iff_of_true ?_ hreached
    cases hhash : c.candidateHash with
    | none =>
        have hweight := h.weight
        unfold OrderedMap.keys at hweight
        rw [h.without hhash] at hweight
        simp only [List.map_nil, List.sum_nil] at hweight
        omega
    | some blockHash =>
        obtain ⟨block, hblock, -⟩ := h.candidate blockHash hhash
        rw [hblock]
        exact ⟨_, rfl⟩
  · have hprogress : c.progress.isReached = false := by
      unfold PorCheckpointProgress.isReached progress
      simpa using hreached
    rw [hprogress]
    refine iff_of_false ?_ hreached
    rintro ⟨attested, hattested⟩
    simp at hattested

/-- The publications that are counted in a run. -/
def countedIn (c : PorCheckpointCollector crypto) :
    List (ReputationBlockPublicationV1 crypto) → List (ReputationBlockPublicationV1 crypto)
  | [] => []
  | publication :: publications =>
      match c.observe publication with
      | (.ok .counted, c') => publication :: c'.countedIn publications
      | (_, c') => c'.countedIn publications

theorem countedIn_cons_of_eq {c' : PorCheckpointCollector crypto}
    {publications : List (ReputationBlockPublicationV1 crypto)}
    (h : c.observe publication = (.ok .counted, c')) :
    c.countedIn (publication :: publications) = publication :: c'.countedIn publications := by
  rw [countedIn, h]

theorem countedIn_cons_of_ne {publications : List (ReputationBlockPublicationV1 crypto)}
    (h : (c.observe publication).1 ≠ .ok .counted) :
    c.countedIn (publication :: publications) =
      (c.observe publication).2.countedIn publications := by
  rw [countedIn]
  split
  · next hcounted => exact absurd (congrArg Prod.fst hcounted) h
  · next hcounted => rw [hcounted]

/-- **What a run adds** is what its calls answer with `Counted`. -/
theorem countedIn_perm (c : PorCheckpointCollector crypto)
    (publications : List (ReputationBlockPublicationV1 crypto)) :
    (c.observeAll publications).publications.entries.Perm
      ((c.countedIn publications).map (fun publication => (publication.publisher, publication)) ++
        c.publications.entries) := by
  induction publications generalizing c with
  | nil => exact List.Perm.refl _
  | cons publication publications ih =>
      show ((c.observe publication).2.observeAll publications).publications.entries.Perm _
      refine (ih _).trans ?_
      rcases observe_cases c publication with
        ⟨hsame, hresult⟩ | ⟨weight, blockHash, -, -, hfresh, -, -, hcounted⟩
      · rw [countedIn_cons_of_ne hresult, hsame]
      · rw [countedIn_cons_of_eq hcounted, hcounted]
        have hinsert := @OrderedMap.insert_perm_of_lookup_eq_none _ _ _ _ _ publication hfresh
        exact (List.Perm.append_left _ hinsert).trans List.perm_middle

/-! ### The snapshot -/

/-- **A snapshot:** the weights are reputations of active entries, and the total is their
sum. -/
structure Snapshot (state : ReputationState) (attesters : List NodeId)
    (weights : OrderedMap NodeId U64) (total : ℕ) : Prop where
  active : ∀ attester weight, weights.lookup attester = some weight →
    ∃ entry, state.entry attester = some entry ∧ entry.reputation = weight ∧
      entry.isExcluded = false ∧ state.isEjected attester = false
  keys : ∀ attester, attester ∈ weights.keys ↔ attester ∈ attesters
  total : total = (weights.values.map Fin.val).sum

variable {state : ReputationState} {attester : NodeId} {attesters : List NodeId}
  {acc acc' : OrderedMap NodeId U64 × ℕ}

/-- There are as many attesters as entries at most. -/
theorem Snapshot.length_le (h : Snapshot state attesters acc.1 acc.2) :
    acc.1.keys.length ≤ state.reputationList.entries.length := by
  have hnodup : acc.1.keys.Nodup :=
    List.Pairwise.map _ (fun _ _ hlt => ne_of_lt hlt) acc.1.ascending
  have hsub : acc.1.keys ⊆ state.reputationList.entries.map ReputationEntry.nodeId :=
    fun attester hattester => by
      obtain ⟨weight, hweight⟩ :=
        Option.ne_none_iff_exists'.1 (OrderedMap.mem_keys_iff.1 hattester)
      obtain ⟨entry, hentry, -⟩ := h.active attester weight hweight
      refine List.mem_map.2 ⟨entry, List.mem_of_find?_eq_some hentry, ?_⟩
      simpa using List.find?_some hentry
  have hle := (List.subperm_of_subset hnodup hsub).length_le
  rwa [List.length_map] at hle

/-- The total is less than the attesters times `2 ^ 64`. -/
theorem Snapshot.total_le (h : Snapshot state attesters acc.1 acc.2) :
    acc.2 ≤ acc.1.keys.length * (2 ^ 64 - 1) := by
  have hle := List.sum_le_card_nsmul (acc.1.values.map Fin.val) (2 ^ 64 - 1) fun weight hweight => by
    obtain ⟨value, -, rfl⟩ := List.mem_map.1 hweight
    exact Nat.le_sub_one_of_lt value.isLt
  rw [h.total]
  simpa [OrderedMap.keys, OrderedMap.values] using hle

/-- A total of fewer than `2 ^ 64` weights fits. -/
theorem Snapshot.total_lt (h : Snapshot state attesters acc.1 acc.2)
    (hlength : state.reputationList.entries.length < 2 ^ 64) : acc.2 < 2 ^ 128 := by
  calc acc.2 ≤ acc.1.keys.length * (2 ^ 64 - 1) := h.total_le
    _ ≤ (2 ^ 64 - 1) * (2 ^ 64 - 1) :=
        Nat.mul_le_mul_right _ (h.length_le.trans (Nat.le_sub_one_of_lt hlength))
    _ < 2 ^ 128 := by norm_num

/-- One active attester more. -/
theorem Snapshot.insert {entry : ReputationEntry} (h : Snapshot state attesters acc.1 acc.2)
    (hentry : state.entry attester = some entry)
    (hactive : ¬(entry.isExcluded || state.isEjected attester) = true)
    (hnew : acc.1.lookup attester = none) :
    Snapshot state (attesters ++ [attester]) (acc.1.insert attester entry.reputation)
      (acc.2 + entry.reputation.val) := by
  rw [Bool.or_eq_true, not_or, Bool.not_eq_true, Bool.not_eq_true] at hactive
  refine ⟨fun other weight hweight => ?_, fun other => ?_, ?_⟩
  · rw [OrderedMap.lookup_insert] at hweight
    split_ifs at hweight with heq
    · subst heq
      exact ⟨entry, hentry, Option.some.inj hweight, hactive⟩
    · exact h.active other weight hweight
  · rw [OrderedMap.mem_keys_iff, OrderedMap.lookup_insert, List.mem_append, ← h.keys,
      OrderedMap.mem_keys_iff, List.mem_singleton]
    split_ifs with heq <;> simp [heq]
  · have hperm := @OrderedMap.insert_perm_of_lookup_eq_none _ _ _ _ _ entry.reputation hnew
    unfold OrderedMap.values
    rw [((hperm.map Prod.snd).map Fin.val).sum_eq, List.map_cons, List.map_cons, List.sum_cons,
      h.total, Nat.add_comm]
    rfl

/-- **One step of the snapshot** adds its attester, and the sum does not overflow. -/
theorem snapshotAttester_spec (h : Snapshot state attesters acc.1 acc.2) (hlt : acc.2 < 2 ^ 128)
    (attester : NodeId) :
    (∀ acc', snapshotAttester crypto state acc attester = .ok acc' →
        Snapshot state (attesters ++ [attester]) acc'.1 acc'.2 ∧ acc'.2 < 2 ^ 128) ∧
      (state.reputationList.entries.length < 2 ^ 64 →
        snapshotAttester crypto state acc attester ≠ .error .weightOverflow) := by
  unfold snapshotAttester
  cases hentry : state.entry attester with
  | none => exact ⟨fun _ hstep => by simp [okOr, bind, Except.bind] at hstep,
      fun _ hstep => by simp [okOr, bind, Except.bind] at hstep⟩
  | some entry =>
      show (∀ acc', ite _ _ _ = _ → _) ∧ (_ → ite _ _ _ ≠ _)
      split_ifs with hactive hseen
      · exact ⟨fun _ hstep => by simp at hstep, fun _ hstep => by simp at hstep⟩
      · refine ⟨fun acc' hstep => ?_, fun _ hstep => by simp at hstep⟩
        obtain rfl := Except.ok.inj hstep
        refine ⟨⟨h.active, fun other => ?_, h.total⟩, hlt⟩
        rw [List.mem_append, ← h.keys, List.mem_singleton, iff_self_or]
        rintro rfl
        exact OrderedMap.mem_keys_iff.2 hseen
      · have hnext := h.insert hentry hactive (not_not.1 hseen)
        unfold checkedAdd128
        split_ifs with hfits
        · refine ⟨fun acc' hstep => ?_, fun _ hstep => by simp [okOr, bind, Except.bind] at hstep⟩
          obtain rfl := Except.ok.inj hstep
          exact ⟨hnext, hfits⟩
        · refine ⟨fun _ hstep => by simp [okOr, bind, Except.bind] at hstep, fun hlength => ?_⟩
          exact absurd (@Snapshot.total_lt _ _ (_, _) hnext hlength) hfits

/-- The loop over the attesters. -/
theorem snapshot_foldlM (h : Snapshot state attesters acc.1 acc.2) (hlt : acc.2 < 2 ^ 128)
    (more : List NodeId) :
    (∀ out, more.foldlM (snapshotAttester crypto state) acc = .ok out →
        Snapshot state (attesters ++ more) out.1 out.2 ∧ out.2 < 2 ^ 128) ∧
      (state.reputationList.entries.length < 2 ^ 64 →
        more.foldlM (snapshotAttester crypto state) acc ≠ .error .weightOverflow) := by
  induction more generalizing acc attesters with
  | nil =>
      refine ⟨fun out hout => ?_, fun _ hout => by simp [pure, Except.pure] at hout⟩
      obtain rfl := Except.ok.inj hout
      rw [List.append_nil]
      exact ⟨h, hlt⟩
  | cons attester more ih =>
      obtain ⟨hnext, hfits⟩ := @snapshotAttester_spec crypto _ _ _ h hlt attester
      rw [List.foldlM_cons]
      cases hstep : snapshotAttester crypto state acc attester with
      | error error =>
          refine ⟨fun out hout => by simp [bind, Except.bind] at hout, fun hlength hout => ?_⟩
          obtain rfl := Except.error.inj hout
          exact hfits hlength hstep
      | ok mid =>
          have hrest := ih (hnext mid hstep).1 (hnext mid hstep).2
          rwa [List.append_assoc] at hrest

/-- The snapshot of no attesters. -/
theorem Snapshot.empty : Snapshot state [] (OrderedMap.empty : OrderedMap NodeId U64) 0 :=
  ⟨fun attester weight h => by simp at h, fun attester => by simp [OrderedMap.keys, OrderedMap.empty],
    rfl⟩

/-- **What a new collector is:** a snapshot of its attesters with a positive total and the
required weight of the policy, and nothing counted. -/
theorem new_spec {completed : CompletedPorRatingRound} {config : PorConfig} {shardId : List Byte}
    {policy : PorCheckpointPolicy} {start : PorCheckpointCollector crypto}
    (h : new crypto state completed config shardId attesters policy = .ok start) :
    Snapshot state attesters start.attesterWeights start.totalAttesterWeight ∧
      strictRequiredWeight start.totalAttesterWeight policy.numerator.val policy.denominator.val =
        some start.requiredWeight ∧
      start.totalAttesterWeight < 2 ^ 128 ∧ start.publications.entries = [] ∧ start.Counts := by
  obtain ⟨⟨weights, total⟩, hloop, h⟩ := bind_eq_ok.1 h
  obtain ⟨hsnapshot, hlt⟩ := (@snapshot_foldlM crypto state [] (.empty, 0) Snapshot.empty
    (by norm_num) attesters).1 _ hloop
  dsimp only at h
  split_ifs at h
  obtain ⟨required, hrequired, h⟩ := bind_eq_ok.1 h
  rw [okOr_eq_ok] at hrequired
  obtain rfl := Except.ok.inj h
  exact ⟨hsnapshot, hrequired, hlt, rfl, fun _ _ hnone => by simp at hnone,
    fun _ hnone => by simp at hnone, fun _ => rfl, rfl⟩

/-- A new collector does not fail on an overflow. -/
theorem new_ne_overflow {completed : CompletedPorRatingRound} {config : PorConfig}
    {shardId : List Byte} (policy : PorCheckpointPolicy)
    (hlength : state.reputationList.entries.length < 2 ^ 64) :
    new crypto state completed config shardId attesters policy ≠ .error .weightOverflow := by
  obtain ⟨hsnapshot, hfits⟩ :=
    @snapshot_foldlM crypto state [] (.empty, 0) Snapshot.empty (by norm_num) attesters
  unfold new
  cases hloop : attesters.foldlM (snapshotAttester crypto state) (.empty, 0) with
  | error error =>
      intro hout
      obtain rfl := Except.error.inj hout
      exact hfits hlength hloop
  | ok out =>
      show ite _ _ _ ≠ _
      split_ifs
      · simp
      · simp
      · obtain ⟨required, hrequired, -⟩ := policy.required_spec (hsnapshot out hloop).2
        rw [hrequired]
        exact fun hout => by simp [okOr, bind, Except.bind] at hout

/-- **A collector counts exactly**, from a new one over every run of calls. -/
theorem new_observeAll {completed : CompletedPorRatingRound} {config : PorConfig}
    {shardId : List Byte} {policy : PorCheckpointPolicy} {start : PorCheckpointCollector crypto}
    (h : new crypto state completed config shardId attesters policy = .ok start)
    (publications : List (ReputationBlockPublicationV1 crypto)) :
    (start.observeAll publications).signedWeight =
        ((start.countedIn publications).map fun publication =>
          start.weightOf publication.publisher).sum ∧
      ((start.countedIn publications).map ReputationBlockPublicationV1.publisher).Nodup ∧
      (∀ publication ∈ start.countedIn publications,
        (start.observeAll publications).candidateBlock = some publication.encoded.block) ∧
      ((∃ attested, (start.observeAll publications).intoAttested = some (.ok attested)) ↔
        start.totalAttesterWeight * policy.numerator.val <
          (start.observeAll publications).signedWeight * policy.denominator.val) := by
  obtain ⟨-, hrequired, hlt, hempty, hstart⟩ := new_spec h
  obtain ⟨hcounts, hweights, -, hrequired'⟩ := hstart.observeAll publications
  have hperm := start.countedIn_perm publications
  rw [hempty, List.append_nil] at hperm
  have hkeys : (start.observeAll publications).publications.keys.Perm
      ((start.countedIn publications).map ReputationBlockPublicationV1.publisher) := by
    have := hperm.map Prod.fst
    rwa [List.map_map] at this
  refine ⟨?_, ?_, fun publication hpublication => ?_, ?_⟩
  · have hweightOf : (start.observeAll publications).weightOf = start.weightOf := by
      unfold weightOf
      rw [hweights]
    rw [hcounts.weight, hweightOf, (hkeys.map _).sum_eq, List.map_map]
    rfl
  · refine hkeys.nodup_iff.1 ?_
    exact List.Pairwise.map _ (fun _ _ hlt => ne_of_lt hlt)
      (start.observeAll publications).publications.ascending
  · have hmem := hperm.mem_iff.2 (List.mem_map_of_mem (f := fun publication =>
      (publication.publisher, publication)) hpublication)
    exact (hcounts.counted _ _ (OrderedMap.mem_entries_iff.1 hmem)).2.2
  · obtain ⟨required, hsome, hspec⟩ := policy.required_spec hlt
    obtain rfl := Option.some.inj (hrequired.symm.trans hsome)
    have hpos : 0 < start.requiredWeight := by
      by_contra hzero
      have hzero' := (hspec 0).1 (Nat.le_of_not_lt hzero)
      rw [Nat.zero_mul] at hzero'
      exact absurd hzero' (Nat.not_lt_zero _)
    rw [intoAttested_isOk_iff hcounts (hrequired'.symm ▸ hpos), hrequired', hspec]

end PorCheckpointCollector

/-! ### What is evaluated -/

/-- Whether an entry counts. -/
def ReputationState.isActive (state : ReputationState) (entry : ReputationEntry) : Bool :=
  !(entry.isExcluded || state.isEjected entry.nodeId)

/-- The entries that count. -/
def ReputationState.activeEntries (state : ReputationState) : List ReputationEntry :=
  state.reputationList.entries.filter state.isActive

/-- The weight of a list of entries. -/
def entriesWeight (entries : List ReputationEntry) : ℕ :=
  (entries.map fun entry => entry.reputation.val).sum

/-- A tally with active entries added. -/
def QuorumTally.with (tally : QuorumTally) (collector : RatingCollector)
    (active : List ReputationEntry) : QuorumTally where
  eligibleRaters := tally.eligibleRaters + active.length
  completedRaters := tally.completedRaters ++
    (active.filter fun entry => collector.isComplete entry.nodeId).map ReputationEntry.nodeId
  totalActiveWeight := tally.totalActiveWeight + entriesWeight active
  completedWeight := tally.completedWeight +
    entriesWeight (active.filter fun entry => collector.isComplete entry.nodeId)

/-- A tally whose sums are those of at most `eligibleRaters` weights. -/
structure QuorumTally.Bounded (tally : QuorumTally) : Prop where
  total : tally.totalActiveWeight ≤ tally.eligibleRaters * (2 ^ 64 - 1)
  completed : tally.completedWeight ≤ tally.totalActiveWeight

section Evaluate

variable {state : ReputationState} {collector : RatingCollector} {tally : QuorumTally}

/-- **One active entry:** the collector answers for its key, and it is added. -/
theorem QuorumTally.add_spec (h : tally.Bounded) (hraters : tally.eligibleRaters + 1 < 2 ^ 64)
    {entry : ReputationEntry} (hactive : state.isActive entry = true) :
    (∃ error, tally.add state collector entry = .error (.collector error)) ∨
      tally.add state collector entry = .ok (tally.with collector [entry]) ∧
        (tally.with collector [entry]).Bounded := by
  have hreputation : entry.reputation.val ≤ 2 ^ 64 - 1 := Nat.le_sub_one_of_lt entry.reputation.isLt
  have htotal := h.total
  have hcompleted := h.completed
  have hnext : tally.totalActiveWeight + entry.reputation.val ≤
      (tally.eligibleRaters + 1) * (2 ^ 64 - 1) := by
    rw [Nat.succ_mul]
    exact Nat.add_le_add htotal hreputation
  have hfits : tally.totalActiveWeight + entry.reputation.val < 2 ^ 128 := by
    calc tally.totalActiveWeight + entry.reputation.val
        ≤ (tally.eligibleRaters + 1) * (2 ^ 64 - 1) := hnext
      _ ≤ 2 ^ 64 * (2 ^ 64 - 1) := Nat.mul_le_mul_right _ hraters.le
      _ < 2 ^ 128 := by norm_num
  have hfits' : tally.completedWeight + entry.reputation.val < 2 ^ 128 := by omega
  rw [ReputationState.isActive, Bool.not_eq_true'] at hactive
  unfold QuorumTally.add checkedAdd64 checkedAdd128
  rw [hactive, if_neg (by simp), if_pos hraters, if_pos hfits]
  cases hrater : collector.isRaterComplete entry.nodeId with
  | error error => exact Or.inl ⟨error, rfl⟩
  | ok complete =>
      have hcomplete : collector.isComplete entry.nodeId = complete := by
        unfold RatingCollector.isComplete
        rw [hrater]
      refine Or.inr ?_
      cases complete with
      | false =>
          have hwith : tally.with collector [entry] =
              { tally with
                eligibleRaters := tally.eligibleRaters + 1
                totalActiveWeight := tally.totalActiveWeight + entry.reputation.val } := by
            simp [QuorumTally.with, hcomplete, entriesWeight]
          rw [hwith]
          exact ⟨rfl, hnext, hcompleted.trans (Nat.le_add_right _ _)⟩
      | true =>
          have hwith : tally.with collector [entry] =
              ⟨tally.eligibleRaters + 1, tally.completedRaters ++ [entry.nodeId],
                tally.totalActiveWeight + entry.reputation.val,
                tally.completedWeight + entry.reputation.val⟩ := by
            simp [QuorumTally.with, hcomplete, entriesWeight]
          rw [hwith, if_pos hfits']
          exact ⟨rfl, hnext, Nat.add_le_add_right hcompleted _⟩

theorem QuorumTally.with_nil : tally.with collector [] = tally := by
  simp [QuorumTally.with, entriesWeight]

theorem QuorumTally.with_cons (entry : ReputationEntry) (active : List ReputationEntry) :
    (tally.with collector [entry]).with collector active =
      tally.with collector (entry :: active) := by
  unfold QuorumTally.with entriesWeight
  cases hcomplete : collector.isComplete entry.nodeId <;>
    simp [hcomplete, Nat.add_assoc, Nat.add_comm 1]

/-- **The loop of `evaluate`** adds the active entries, unless the collector has no answer
for one of them. -/
theorem QuorumTally.foldlM_add (h : tally.Bounded) (entries : List ReputationEntry)
    (hraters : tally.eligibleRaters + entries.length < 2 ^ 64) :
    (∃ error, entries.foldlM (QuorumTally.add state collector) tally =
        .error (.collector error)) ∨
      entries.foldlM (QuorumTally.add state collector) tally =
          .ok (tally.with collector (entries.filter state.isActive)) ∧
        (tally.with collector (entries.filter state.isActive)).Bounded := by
  induction entries generalizing tally with
  | nil => exact Or.inr ⟨by rw [List.filter_nil, with_nil]; rfl, by rwa [List.filter_nil, with_nil]⟩
  | cons entry entries ih =>
      rw [List.length_cons] at hraters
      rw [List.foldlM_cons]
      by_cases hactive : state.isActive entry = true
      · rw [List.filter_cons_of_pos hactive]
        rcases add_spec h (by omega) hactive with ⟨error, hadd⟩ | ⟨hadd, hbounded⟩
        · exact Or.inl ⟨error, by rw [hadd]; rfl⟩
        · rw [hadd, ← with_cons entry (entries.filter state.isActive)]
          refine ih hbounded ?_
          show tally.eligibleRaters + 1 + entries.length < 2 ^ 64
          omega
      · rw [List.filter_cons_of_neg hactive]
        have hadd : tally.add state collector entry = .ok tally := by
          unfold QuorumTally.add
          rw [ReputationState.isActive, Bool.not_eq_true', Bool.not_eq_false] at hactive
          rw [if_pos hactive]
        rw [hadd]
        exact ih h (by omega)

/-- **What `evaluate` reports:** the weight of the active entries, the weight of the complete
ones, and whether the fraction is passed. -/
theorem PorRatingRoundClosurePolicy.evaluate_spec (policy : PorRatingRoundClosurePolicy)
    (state : ReputationState) (collector : RatingCollector)
    (hlength : state.reputationList.entries.length < 2 ^ 64) :
    policy.evaluate state collector ≠ .error .weightOverflow ∧
      ∀ progress, policy.evaluate state collector = .ok progress →
        progress.totalActiveWeight = entriesWeight state.activeEntries ∧
        progress.completedWeight = entriesWeight (state.activeEntries.filter fun entry =>
          collector.isComplete entry.nodeId) ∧
        (progress.isReached = true ↔
          progress.totalActiveWeight * policy.numerator.val <
            progress.completedWeight * policy.denominator.val) := by
  unfold PorRatingRoundClosurePolicy.evaluate
  rcases @QuorumTally.foldlM_add state collector {} ⟨Nat.zero_le _, Nat.zero_le _⟩
    state.reputationList.entries (by simpa using hlength) with ⟨error, hloop⟩ | ⟨hloop, hbounded⟩
  · rw [hloop]
    exact ⟨fun hout => by simp [bind, Except.bind] at hout,
      fun progress hout => by simp [bind, Except.bind] at hout⟩
  rw [hloop]
  show ite _ _ _ ≠ _ ∧ ∀ progress, ite _ _ _ = _ → _
  have hlt : (QuorumTally.with {} collector state.activeEntries).totalActiveWeight < 2 ^ 128 := by
    have hraters : (QuorumTally.with {} collector state.activeEntries).eligibleRaters ≤ 2 ^ 64 - 1 := by
      have hfilter : state.activeEntries.length ≤ state.reputationList.entries.length :=
        List.length_filter_le _ _
      show 0 + state.activeEntries.length ≤ 2 ^ 64 - 1
      omega
    calc _ ≤ _ := hbounded.total
      _ ≤ (2 ^ 64 - 1) * (2 ^ 64 - 1) := Nat.mul_le_mul_right _ hraters
      _ < 2 ^ 128 := by norm_num
  obtain ⟨required, hrequired, hspec⟩ := policy.required_spec hlt
  split_ifs
  · exact ⟨by simp, fun progress hout => by simp at hout⟩
  · have hrequired' : strictRequiredWeight
        (QuorumTally.with {} collector (state.reputationList.entries.filter
          state.isActive)).totalActiveWeight policy.numerator.val policy.denominator.val =
        some required := hrequired
    rw [hrequired']
    refine ⟨fun hout => by simp [okOr, bind, Except.bind] at hout, fun progress hout => ?_⟩
    obtain rfl := Except.ok.inj hout
    refine ⟨Nat.zero_add _, Nat.zero_add _, ?_⟩
    unfold PorRatingQuorumProgress.isReached
    rw [decide_eq_true_eq]
    exact hspec _

end Evaluate

/-! ### Exact quorums -/

/-- **Quorums count exactly.**  The required weight of a valid policy never overflows; a new
collector counts each publisher once, for one candidate, over every run of calls, is left as
it is by every other call, and attests exactly where the signed weight is strictly above the
fraction; a round is closed under the same inequality over its complete raters. -/
theorem quorums_count_exactly (policy : StrictThreshold) :
    (∀ total < 2 ^ 128, ∃ required,
      strictRequiredWeight total policy.numerator.val policy.denominator.val = some required) ∧
    (∀ (crypto : RatingCrypto) (state : ReputationState) (completed : CompletedPorRatingRound)
        (config : PorConfig) (shardId : List Byte) (attesters : List NodeId),
      (state.reputationList.entries.length < 2 ^ 64 →
        PorCheckpointCollector.new crypto state completed config shardId attesters policy ≠
          .error .weightOverflow) ∧
      ∀ start,
        PorCheckpointCollector.new crypto state completed config shardId attesters policy =
            .ok start →
          PorCheckpointCollector.Snapshot state attesters start.attesterWeights
            start.totalAttesterWeight ∧
          ∀ publications,
            (start.observeAll publications).signedWeight =
                ((start.countedIn publications).map fun publication =>
                  start.weightOf publication.publisher).sum ∧
              ((start.countedIn publications).map
                ReputationBlockPublicationV1.publisher).Nodup ∧
              (∀ publication ∈ start.countedIn publications,
                (start.observeAll publications).candidateBlock = some publication.encoded.block) ∧
              (∀ publication,
                ((start.observeAll publications).observe publication).1 ≠ .ok .counted →
                ((start.observeAll publications).observe publication).2 =
                  start.observeAll publications) ∧
              ((∃ attested,
                  (start.observeAll publications).intoAttested = some (.ok attested)) ↔
                start.totalAttesterWeight * policy.numerator.val <
                  (start.observeAll publications).signedWeight * policy.denominator.val)) ∧
    ∀ (state : ReputationState) (collector : RatingCollector),
      state.reputationList.entries.length < 2 ^ 64 →
        PorRatingRoundClosurePolicy.evaluate policy state collector ≠ .error .weightOverflow ∧
        ∀ progress, PorRatingRoundClosurePolicy.evaluate policy state collector = .ok progress →
          progress.totalActiveWeight = entriesWeight state.activeEntries ∧
          progress.completedWeight = entriesWeight (state.activeEntries.filter fun entry =>
            collector.isComplete entry.nodeId) ∧
          (progress.isReached = true ↔
            progress.totalActiveWeight * policy.numerator.val <
              progress.completedWeight * policy.denominator.val) := by
  refine ⟨fun total htotal => ?_, ?_, PorRatingRoundClosurePolicy.evaluate_spec policy⟩
  · obtain ⟨required, hrequired, -⟩ := policy.required_spec htotal
    exact ⟨required, hrequired⟩
  intro crypto state completed config shardId attesters
  refine ⟨PorCheckpointCollector.new_ne_overflow policy, fun start hstart => ?_⟩
  refine ⟨(PorCheckpointCollector.new_spec hstart).1, fun publications => ?_⟩
  obtain ⟨hweight, hnodup, hcandidate, hattested⟩ :=
    PorCheckpointCollector.new_observeAll hstart publications
  refine ⟨hweight, hnodup, hcandidate, fun publication hother => ?_, hattested⟩
  rcases PorCheckpointCollector.observe_cases (start.observeAll publications) publication with
    ⟨hsame, -⟩ | ⟨_, _, -, -, -, -, -, hcounted⟩
  · exact hsame
  · rw [hcounted] at hother
    exact absurd rfl hother

/-- A closed round without ratings. -/
def quietRound : CompletedPorRatingRound :=
  ⟨⟨0, 1⟩, ⟨1, []⟩, .allAuthorizedRaters, none, .empty, .empty⟩

/-- Its block, published by each of the three creators. -/
def quietPublications : List (ReputationBlockPublicationV1 keyedCrypto) :=
  match stageCompletedReputationRound keyedCrypto.hasher quietRound ratedState .default [1] with
  | .error _ => []
  | .ok (_, applied) => [1, 2, 3].filterMap fun n =>
      (ReputationBlockPublicationV1.new keyedCrypto (keyedIdentity n).creator applied.block
        [9]).toOption

/-- Its collector, over all three. -/
def quietCollector : Except (PorCheckpointError keyedCrypto) (PorCheckpointCollector keyedCrypto) :=
  PorCheckpointCollector.new keyedCrypto ratedState quietRound .default [1]
    ([1, 2, 3].map fun n => (keyedIdentity n).creator) .twoThirds

/-- The hypotheses of `quorums_count_exactly` are met: of three equal attesters, two are exactly
two thirds and do not attest, and three do. -/
theorem quorums_count_exactly_quiet :
    ∃ start, quietCollector = .ok start ∧
      (¬∃ attested, (start.observeAll (quietPublications.take 2)).intoAttested =
        some (.ok attested)) ∧
      ∃ attested, (start.observeAll quietPublications).intoAttested = some (.ok attested) := by
  have hnew : quietCollector.isOk = true := by decide +kernel
  obtain ⟨start, hstart⟩ := Codec.exists_eq_ok_of_isOk hnew
  have hrun : (quietCollector.toOption.map fun c => (c.totalAttesterWeight,
      (c.observeAll (quietPublications.take 2)).signedWeight,
      (c.observeAll quietPublications).signedWeight)) = some (15, 10, 15) := by
    decide +kernel
  have hcount := ((quorums_count_exactly .twoThirds).2.1 keyedCrypto ratedState quietRound .default
    [1] ([1, 2, 3].map fun n => (keyedIdentity n).creator)).2 start hstart
  rw [hstart] at hrun
  obtain ⟨htotal, htwo, hthree⟩ : start.totalAttesterWeight = 15 ∧
      (start.observeAll (quietPublications.take 2)).signedWeight = 10 ∧
      (start.observeAll quietPublications).signedWeight = 15 := by
    simpa [Except.toOption] using hrun
  refine ⟨start, hstart, ?_, ?_⟩
  · rw [(hcount.2 _).2.2.2.2, htotal, htwo]
    decide
  · rw [(hcount.2 _).2.2.2.2, htotal, hthree]
    decide

end CordialMiners.Reputation
