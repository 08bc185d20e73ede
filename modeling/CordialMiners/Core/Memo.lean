/-
# The memo tables of weighted finality

The memos of `consensus/approval.rs` and `consensus/cordiality.rs`, and the
weighted half of `consensus/finality.rs` with its memos in place.

The functions of `Core.Cordiality` and `Core.Finality` are those of the source
without the tables that it threads through one evaluation.  Here the tables are
there: the closures and the approvals of an `ApprovalMemo`, the ratifications of
a `WeightedRatificationMemo`, and the one memo that `latest_weighted_final_leader`
keeps over all its waves.  `WeightedRatificationMemo.Sound` says that every entry
is the value of the function it stands for; each computation keeps that and
returns what the function without tables returns.
-/

import CordialMiners.Collections.Memo
import CordialMiners.Core.Growth

namespace CordialMiners

/-- `ApprovalMemo`. -/
structure ApprovalMemo where
  observeCache : AList fun _ : BlockIdentity => List BlockIdentity
  approvesCache : AList fun _ : BlockIdentity × BlockIdentity => Bool

instance : Inhabited ApprovalMemo := ⟨⟨∅, ∅⟩⟩

/-- `WeightedRatificationMemo`. -/
structure WeightedRatificationMemo where
  approvalMemo : ApprovalMemo
  weightedRatifiesCache : AList fun _ : BlockIdentity × BlockIdentity => Bool

instance : Inhabited WeightedRatificationMemo := ⟨⟨default, ∅⟩⟩

namespace Memoised

/-! ### The functions of the source -/

/-- A computation on the approval half of the memo. -/
def onApprovalMemo {α : Type} (m : StateM ApprovalMemo α) : StateM WeightedRatificationMemo α :=
  Memo.zoom WeightedRatificationMemo.approvalMemo
    (fun approvalMemo memo => { memo with approvalMemo := approvalMemo }) m

/-- `approves_with_memo`. -/
def approvesWithMemo (B : Blocklace) (approver target : BlockIdentity) : StateM ApprovalMemo Bool :=
  Memo.remember ApprovalMemo.approvesCache
    (fun cache memo => { memo with approvesCache := cache }) (approver, target)
    (return B.approves approver target)

/-- The closure of a block, from the table of closures. -/
def observeWithMemo (B : Blocklace) (ratifier : BlockIdentity) :
    StateM ApprovalMemo (List BlockIdentity) :=
  Memo.remember ApprovalMemo.observeCache (fun cache memo => { memo with observeCache := cache })
    ratifier (return B.observe ratifier)

/-- `weighted_approving_creators_with_memo`. -/
def weightedApprovingCreatorsWithMemo (B : Blocklace) (blocks : List Block)
    (target : BlockIdentity) (weights : WeightSnapshot) : StateM ApprovalMemo (List NodeId) := do
  let approving ← blocks.filterM fun block => approvesWithMemo B block.identity target
  return (approving.filterMap fun block =>
    if weights.weightOf block.identity.creator > 0 then some block.identity.creator
    else none).dedup

/-- `weighted_ratification_outcome`. -/
def weightedRatificationOutcome (B : Blocklace) (ratifier target : Block)
    (weights : WeightSnapshot) :
    StateM WeightedRatificationMemo (Option ThresholdCertificate) := do
  if (B.get ratifier.identity).isNone ∨ (B.get target.identity).isNone then return none
  else
    let observedIds ← onApprovalMemo (observeWithMemo B ratifier.identity)
    let observedBlocks := observedIds.filterMap B.get
    let approvingCreators ← onApprovalMemo
      (weightedApprovingCreatorsWithMemo B observedBlocks target.identity weights)
    if isWeightedSupermajoritySnapshot approvingCreators weights then
      -- every pair was evaluated above, so this walk reads the table only
      let approvers ← onApprovalMemo <| observedBlocks.filterM fun block => do
        return (← approvesWithMemo B block.identity target.identity) &&
          decide (weights.weightOf block.identity.creator > 0)
      return some (.new .ratification target.identity (some ratifier.identity)
        (approvers.map Block.identity) approvingCreators weights)
    else return none

/-- `weighted_ratifies_with_memo`. -/
def weightedRatifiesWithMemo (B : Blocklace) (ratifier target : Block)
    (weights : WeightSnapshot) : StateM WeightedRatificationMemo Bool :=
  Memo.remember WeightedRatificationMemo.weightedRatifiesCache
    (fun cache memo => { memo with weightedRatifiesCache := cache })
    (ratifier.identity, target.identity)
    (do return (← weightedRatificationOutcome B ratifier target weights).isSome)

/-- `weighted_super_ratification_outcome`. -/
def weightedSuperRatificationOutcome (B : Blocklace) (blocks : List Block) (target : Block)
    (weights : WeightSnapshot) :
    StateM WeightedRatificationMemo (Option ThresholdCertificate) := do
  let orderedBlocks := blocks.insertionSort fun x y => x.identity ≤ y.identity
  let ratifyingBlocks ← orderedBlocks.filterM fun block => do
    return (← weightedRatifiesWithMemo B block target weights) &&
      decide (weights.weightOf block.identity.creator > 0)
  let ratifyingCreators := (ratifyingBlocks.map fun block => block.identity.creator).dedup
  if isWeightedSupermajoritySnapshot ratifyingCreators weights then
    return some (.new .superRatification target.identity none (ratifyingBlocks.map Block.identity)
      ratifyingCreators weights)
  else return none

/-- `weighted_ratifies`: a decision starts with an empty memo. -/
def weightedRatifies (B : Blocklace) (ratifier target : Block) (bonds : Bonds) : Bool :=
  ((weightedRatifiesWithMemo B ratifier target (.fromBonds bonds)).run' default).run

/-- `weighted_ratifies_certificate`. -/
def weightedRatifiesCertificate (B : Blocklace) (ratifier target : Block) (bonds : Bonds) :
    Option ThresholdCertificate :=
  ((weightedRatificationOutcome B ratifier target (.fromBonds bonds)).run' default).run

/-- `weighted_super_ratifies_certificate_with_snapshot`. -/
def weightedSuperRatifiesCertificateWithSnapshot (B : Blocklace) (blocks : List Block)
    (target : Block) (weights : WeightSnapshot) : Option ThresholdCertificate :=
  ((weightedSuperRatificationOutcome B blocks target weights).run' default).run

/-- `weighted_super_ratifies_certificate`. -/
def weightedSuperRatifiesCertificate (B : Blocklace) (blocks : List Block) (target : Block)
    (bonds : Bonds) : Option ThresholdCertificate :=
  weightedSuperRatifiesCertificateWithSnapshot B blocks target (.fromBonds bonds)

/-- `weighted_super_ratifies`. -/
def weightedSuperRatifies (B : Blocklace) (blocks : List Block) (target : Block)
    (bonds : Bonds) : Bool :=
  ((do
    return (← weightedSuperRatificationOutcome B blocks target (.fromBonds bonds)).isSome :
      StateM WeightedRatificationMemo Bool).run' default).run

/-- `weighted_final_leader_certificate`. -/
def weightedFinalLeaderCertificate (B : Blocklace) (candidate : BlockIdentity) (wavelength : ℕ)
    (bonds : Bonds) (leaderSelection : LeaderSelection) : Option ThresholdCertificate :=
  match finalityWindow B candidate wavelength leaderSelection with
  | none => none
  | some (candidateBlock, witnesses) =>
      weightedSuperRatifiesCertificateWithSnapshot B witnesses candidateBlock (.fromBonds bonds)

/-- `weighted_final_leader_for_wave`. -/
def weightedFinalLeaderForWave (B : Blocklace) (wave wavelength : ℕ) (bonds : Bonds)
    (leaderSelection : LeaderSelection) : Option BlockIdentity :=
  match leaderBlockForWave B wave wavelength leaderSelection with
  | none => none
  | some leader =>
      if (weightedFinalLeaderCertificate B leader wavelength bonds leaderSelection).isSome then
        some leader
      else none

/-- One wave of the weighted scan. -/
def scanWave (B : Blocklace) (depths : Blocklace.DepthCache) (rounds : RoundIndex)
    (wavelength : ℕ) (leaderSelection : LeaderSelection) (weights : WeightSnapshot) (wave : ℕ) :
    StateM WeightedRatificationMemo (Option BlockIdentity) := do
  match uniqueLeaderBlockFromIndex rounds wave wavelength leaderSelection with
  | none => return none
  | some leader =>
      if B.checkpoint = some leader.identity then return some leader.identity
      else
        match depths.lookup leader.identity, lastRoundOfWave wave wavelength with
        | some candidateRound, some lastRound =>
            let certificate ← weightedSuperRatificationOutcome B
              (witnessBlocksFromIndex rounds candidateRound lastRound) leader weights
            if certificate.isSome then return some leader.identity else return none
        | _, _ => return none

/-- `latest_weighted_final_leader`: one memo for all the waves of the scan. -/
def latestWeightedFinalLeader (B : Blocklace) (wavelength : ℕ) (bonds : Bonds)
    (leaderSelection : LeaderSelection) : Option BlockIdentity :=
  if wavelength = 0 ∨ B.dom = [] then none
  else
    let depths := B.computeAllDepths
    match (depths.entries.map Sigma.snd).max? with
    | none => none
    | some maxRound =>
        match waveOfRound maxRound wavelength with
        | none => none
        | some latestWave =>
            (((List.range (latestWave + 1)).reverse.findSomeM?
              (scanWave B depths (buildRoundIndex B depths) wavelength leaderSelection
                (.fromBonds bonds))).run' default).run

/-! ### The tables are right -/

/-- Every entry of the approval half is the value of its function. -/
structure ApprovalSound (B : Blocklace) (memo : ApprovalMemo) : Prop where
  observe : Memo.Sound B.observe memo.observeCache
  approves : Memo.Sound (fun pair : BlockIdentity × BlockIdentity => B.approves pair.1 pair.2)
    memo.approvesCache

/-- `Blocklace.weightedRatifies` on identities: it reads no content. -/
def ratifiesPair (B : Blocklace) (weights : WeightSnapshot)
    (pair : BlockIdentity × BlockIdentity) : Bool :=
  B.weightedRatifies ⟨pair.1, { payload := [], predecessors := [] }⟩
    ⟨pair.2, { payload := [], predecessors := [] }⟩ weights

/-- Every entry of the memo is the value of its function, for one weight table. -/
structure RatificationSound (B : Blocklace) (weights : WeightSnapshot)
    (memo : WeightedRatificationMemo) : Prop where
  approval : ApprovalSound B memo.approvalMemo
  ratifies : Memo.Sound (ratifiesPair B weights) memo.weightedRatifiesCache

theorem approvalSound_default (B : Blocklace) : ApprovalSound B default :=
  ⟨Memo.Sound.empty _, Memo.Sound.empty _⟩

theorem ratificationSound_default (B : Blocklace) (weights : WeightSnapshot) :
    RatificationSound B weights default :=
  ⟨approvalSound_default B, Memo.Sound.empty _⟩

variable {B : Blocklace} {weights : WeightSnapshot}

/-- The memo of approvals changes no answer. -/
theorem computes_approves (approver target : BlockIdentity) :
    Memo.Computes (ApprovalSound B) (approvesWithMemo B approver target)
      (B.approves approver target) :=
  Memo.Computes.remember
    (f := fun pair : BlockIdentity × BlockIdentity => B.approves pair.1 pair.2)
    (fun _ h => h.approves)
    (fun _ h => ⟨h.observe, h.approves.insert (approver, target)⟩) (Memo.Computes.pure _)

theorem computes_observe (ratifier : BlockIdentity) :
    Memo.Computes (ApprovalSound B) (observeWithMemo B ratifier) (B.observe ratifier) :=
  Memo.Computes.remember (f := B.observe) (fun _ h => h.observe)
    (fun _ h => ⟨h.observe.insert ratifier, h.approves⟩) (Memo.Computes.pure _)

theorem computes_weightedApprovingCreators (blocks : List Block) (target : BlockIdentity) :
    Memo.Computes (ApprovalSound B) (weightedApprovingCreatorsWithMemo B blocks target weights)
      (B.weightedApprovingCreators blocks target weights) :=
  (Memo.Computes.filterM fun block _ => computes_approves block.identity target).map _

/-- What is computed on the approval half is computed on the memo. -/
theorem computes_onApprovalMemo {α : Type} {m : StateM ApprovalMemo α} {a : α}
    (h : Memo.Computes (ApprovalSound B) m a) :
    Memo.Computes (RatificationSound B weights) (onApprovalMemo m) a :=
  Memo.Computes.zoom (fun _ hs => hs.approval) (fun _ _ hs ht => ⟨ht, hs.ratifies⟩) h

theorem computes_weightedRatificationOutcome (ratifier target : Block) :
    Memo.Computes (RatificationSound B weights)
      (weightedRatificationOutcome B ratifier target weights)
      (B.weightedRatificationOutcome ratifier target weights) := by
  unfold weightedRatificationOutcome Blocklace.weightedRatificationOutcome
  split_ifs with hmissing
  · exact Memo.Computes.pure none
  · refine Memo.Computes.bind (computes_onApprovalMemo (computes_observe ratifier.identity)) ?_
    refine Memo.Computes.bind
      (computes_onApprovalMemo (computes_weightedApprovingCreators _ target.identity)) ?_
    show Memo.Computes _ (if isWeightedSupermajoritySnapshot (B.weightedApprovingCreators
      (B.observedBlocks ratifier) target.identity weights) weights then _ else _)
      (if isWeightedSupermajoritySnapshot (B.weightedApprovingCreators
        (B.observedBlocks ratifier) target.identity weights) weights then _ else _)
    split_ifs with hquorum
    · exact (computes_onApprovalMemo (Memo.Computes.filterM fun block _ =>
        (computes_approves block.identity target.identity).map _)).bind (Memo.Computes.pure _)
    · exact Memo.Computes.pure none

theorem computes_weightedRatifies (ratifier target : Block) :
    Memo.Computes (RatificationSound B weights)
      (weightedRatifiesWithMemo B ratifier target weights)
      (B.weightedRatifies ratifier target weights) :=
  Memo.Computes.remember (f := ratifiesPair B weights) (fun _ h => h.ratifies)
    (fun _ h => ⟨h.approval, h.ratifies.insert _⟩)
    ((computes_weightedRatificationOutcome ratifier target).map Option.isSome)

theorem computes_weightedSuperRatificationOutcome (blocks : List Block) (target : Block) :
    Memo.Computes (RatificationSound B weights)
      (weightedSuperRatificationOutcome B blocks target weights)
      (B.weightedSuperRatificationOutcome blocks target weights) := by
  unfold weightedSuperRatificationOutcome Blocklace.weightedSuperRatificationOutcome
  refine Memo.Computes.bind (Memo.Computes.filterM fun block _ =>
    (computes_weightedRatifies block target).map fun ratifies =>
      ratifies && decide (weights.weightOf block.identity.creator > 0)) ?_
  simp only
  split_ifs with hquorum
  · exact Memo.Computes.pure _
  · exact Memo.Computes.pure none

/-! ### The decisions, without the tables -/

theorem weightedRatifies_eq (ratifier target : Block) (bonds : Bonds) :
    weightedRatifies B ratifier target bonds =
      B.weightedRatifies ratifier target (.fromBonds bonds) :=
  (computes_weightedRatifies ratifier target).run'_eq (ratificationSound_default B _)

theorem weightedRatifiesCertificate_eq (ratifier target : Block) (bonds : Bonds) :
    weightedRatifiesCertificate B ratifier target bonds =
      B.weightedRatificationOutcome ratifier target (.fromBonds bonds) :=
  (computes_weightedRatificationOutcome ratifier target).run'_eq (ratificationSound_default B _)

theorem weightedSuperRatifiesCertificateWithSnapshot_eq (blocks : List Block) (target : Block) :
    weightedSuperRatifiesCertificateWithSnapshot B blocks target weights =
      B.weightedSuperRatificationOutcome blocks target weights :=
  (computes_weightedSuperRatificationOutcome blocks target).run'_eq
    (ratificationSound_default B weights)

/-- The memoised form is the definition. -/
theorem weightedSuperRatifies_eq (blocks : List Block) (target : Block) (bonds : Bonds) :
    weightedSuperRatifies B blocks target bonds =
      B.weightedSuperRatifies blocks target (.fromBonds bonds) :=
  ((computes_weightedSuperRatificationOutcome blocks target).map Option.isSome).run'_eq
    (ratificationSound_default B _)

theorem weightedFinalLeaderForWave_eq (wave wavelength : ℕ) (bonds : Bonds)
    (leaderSelection : LeaderSelection) :
    weightedFinalLeaderForWave B wave wavelength bonds leaderSelection =
      B.weightedFinalLeaderForWave wave wavelength bonds leaderSelection := by
  have hcert : ∀ candidate, weightedFinalLeaderCertificate B candidate wavelength bonds
      leaderSelection = B.weightedFinalLeaderCertificate candidate wavelength bonds
        leaderSelection := by
    intro candidate
    unfold weightedFinalLeaderCertificate Blocklace.weightedFinalLeaderCertificate
    cases finalityWindow B candidate wavelength leaderSelection with
    | none => rfl
    | some found => exact weightedSuperRatifiesCertificateWithSnapshot_eq found.2 found.1
  unfold weightedFinalLeaderForWave Blocklace.weightedFinalLeaderForWave Ladder.finalForWave
  simp only [hcert, ← Blocklace.isWeightedFinalLeader_eq]
  rfl

theorem computes_scanWave (wavelength : ℕ) (leaderSelection : LeaderSelection)
    (depths : Blocklace.DepthCache) (rounds : RoundIndex) (wave : ℕ) :
    Memo.Computes (RatificationSound B weights)
      (scanWave B depths rounds wavelength leaderSelection weights wave)
      ((stakeLadder weights).scanWave B depths rounds wavelength leaderSelection wave) := by
  unfold scanWave Ladder.scanWave
  cases uniqueLeaderBlockFromIndex rounds wave wavelength leaderSelection with
  | none => exact Memo.Computes.pure none
  | some leader =>
      simp only
      split_ifs with hcp
      · exact Memo.Computes.pure _
      · cases depths.lookup leader.identity with
        | none => exact Memo.Computes.pure none
        | some candidateRound =>
            cases lastRoundOfWave wave wavelength with
            | none => exact Memo.Computes.pure none
            | some lastRound =>
                refine Memo.Computes.bind (computes_weightedSuperRatificationOutcome _ leader) ?_
                simp only
                rw [show (stakeLadder weights).superRatifies B
                  (witnessBlocksFromIndex rounds candidateRound lastRound) leader =
                  (B.weightedSuperRatificationOutcome _ leader weights).isSome from rfl]
                generalize B.weightedSuperRatificationOutcome _ leader weights = certificate
                cases certificate with
                | none => exact Memo.Computes.pure none
                | some certificate => exact Memo.Computes.pure (some leader.identity)

/-- **One memo over all waves changes nothing:** the entries that earlier waves
leave behind are right for the later ones. -/
theorem latestWeightedFinalLeader_eq (wavelength : ℕ) (bonds : Bonds)
    (leaderSelection : LeaderSelection) :
    latestWeightedFinalLeader B wavelength bonds leaderSelection =
      B.latestWeightedFinalLeader wavelength bonds leaderSelection := by
  have hscan : ∀ (depths : Blocklace.DepthCache) (rounds : RoundIndex) (waves : List ℕ),
      ((waves.findSomeM? (scanWave B depths rounds wavelength leaderSelection
        (.fromBonds bonds))).run' default).run =
      waves.findSome? ((stakeLadder (.fromBonds bonds)).scanWave B depths rounds wavelength
        leaderSelection) := fun depths rounds waves =>
    (Memo.Computes.findSomeM? fun wave _ =>
      computes_scanWave wavelength leaderSelection depths rounds wave).run'_eq
        (ratificationSound_default B _)
  unfold latestWeightedFinalLeader Blocklace.latestWeightedFinalLeader Ladder.latest
  split_ifs
  · rfl
  · dsimp only
    cases (B.computeAllDepths.entries.map Sigma.snd).max? with
    | none => rfl
    | some maxRound =>
        dsimp only
        cases waveOfRound maxRound wavelength with
        | none => rfl
        | some latestWave => exact hscan _ _ _

end Memoised

/-! ### The scan and the waves -/

/-- The leader of the greatest wave that has one. -/
def LeaderOfGreatestWave (finalForWave : ℕ → Option BlockIdentity) : Option BlockIdentity → Prop
  | some leader => ∃ wave, finalForWave wave = some leader ∧
      ∀ wave', wave < wave' → finalForWave wave' = none
  | none => ∀ wave, finalForWave wave = none

/-- The scan stops at the greatest final wave. -/
theorem Ladder.latest_greatest {ladder : Ladder} {Q : Quorum.Rule NodeId} {B : Blocklace}
    (hQ : ladder.Decides Q) (hcp : B.checkpoint = none) (wavelength : ℕ)
    (leaderSelection : LeaderSelection) :
    LeaderOfGreatestWave (fun wave => ladder.finalForWave B wave wavelength leaderSelection)
      (ladder.latest B wavelength leaderSelection) := by
  cases hlatest : ladder.latest B wavelength leaderSelection with
  | some leader => exact (Ladder.latest_iff_finalForWave hQ hcp).1 hlatest
  | none =>
      intro wave
      cases hwave : ladder.finalForWave B wave wavelength leaderSelection with
      | none => exact hwave
      | some leader =>
          obtain ⟨L, hL⟩ := Ladder.exists_latest hQ
            ((Ladder.scanLeader_iff_finalForWave hQ hcp).2 hwave)
          rw [hlatest] at hL
          exact absurd hL (by simp)

namespace Blocklace

/-- **The indexed scan agrees with the definition.**  Without a checkpoint the
two scans return the leader of the greatest wave for which the per-wave function
of their flavour returns one, and nothing when there is no such wave. -/
theorem latest_leaderOfGreatestWave (B : Blocklace) (hcp : B.checkpoint = none)
    (wavelength : ℕ) (leaderSelection : LeaderSelection) (n f : ℕ) (bonds : Bonds) :
    LeaderOfGreatestWave (fun wave => B.finalLeaderForWave wave wavelength n f leaderSelection)
        (B.latestFinalLeader wavelength n f leaderSelection) ∧
      LeaderOfGreatestWave
        (fun wave =>
          Memoised.weightedFinalLeaderForWave B wave wavelength bonds leaderSelection)
        (Memoised.latestWeightedFinalLeader B wavelength bonds leaderSelection) := by
  constructor
  · exact Ladder.latest_greatest (countLadder_decides n f) hcp wavelength leaderSelection
  · rw [Memoised.latestWeightedFinalLeader_eq]
    simp only [Memoised.weightedFinalLeaderForWave_eq]
    exact Ladder.latest_greatest (stakeLadder_decides bonds) hcp wavelength leaderSelection

/-- A block of creator `1` over the two genesis blocks: with it the wave `1` is final too. -/
def twoWaves : Blocklace :=
  twoGenesis.growBy [sampleBlock (sampleId 3 1) [sampleId 1 1, sampleId 2 2]]

/-- Where the waves `0` and `1` are final, both scans return the leader of wave `1`. -/
theorem latest_leaderOfGreatestWave_twoWaves :
    let lead : LeaderSelection := fun _ => some ⟨[1]⟩
    twoWaves.finalLeaderForWave 0 1 1 0 lead = some (sampleId 1 1) ∧
      LeaderOfGreatestWave (fun wave => twoWaves.finalLeaderForWave wave 1 1 0 lead)
        (some (sampleId 3 1)) ∧
      LeaderOfGreatestWave (fun wave =>
        Memoised.weightedFinalLeaderForWave twoWaves wave 1 (.single ⟨[1]⟩ 5) lead)
        (some (sampleId 3 1)) := by
  intro lead
  have hcount : twoWaves.latestFinalLeader 1 1 0 lead = some (sampleId 3 1) := by decide +kernel
  have hstake : Memoised.latestWeightedFinalLeader twoWaves 1 (.single ⟨[1]⟩ 5) lead =
      some (sampleId 3 1) := by decide +kernel
  have h := latest_leaderOfGreatestWave twoWaves (by decide +kernel) 1 lead 1 0
    (.single ⟨[1]⟩ 5)
  rw [hcount, hstake] at h
  exact ⟨by decide +kernel, h⟩

end Blocklace

end CordialMiners
