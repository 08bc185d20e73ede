/-
# Threshold certificates

`ThresholdCertificate` of `consensus/certificate.rs` and the functions of
`consensus/cordiality.rs` that return one.

The creators and the blocks of a certificate come from two filters over the same
relation, and its weights are summed three times: by the quorum predicate, when
it is assembled and when it is checked.  `checkedBondWeight_eq_some_iff` makes
the three sums one, whatever the table; `ThresholdCertificate.Certifies` says
what a reader of a certificate may rely on.
-/

import CordialMiners.Core.Memo

namespace CordialMiners

/-! ### Checked sums -/

private theorem foldlM_checkedAdd128_iff {l : List ℕ} {t s : ℕ} (ht : t < 2 ^ 128) :
    l.foldlM checkedAdd128 t = some s ↔ t + l.sum = s ∧ s < 2 ^ 128 := by
  induction l generalizing t with
  | nil =>
      rw [List.foldlM_nil, List.sum_nil, Nat.add_zero]
      constructor
      · intro h
        obtain rfl := Option.some.inj h
        exact ⟨rfl, ht⟩
      · rintro ⟨rfl, -⟩
        rfl
  | cons w l ih =>
      rw [List.foldlM_cons, List.sum_cons]
      unfold checkedAdd128
      split_ifs with hw
      · show l.foldlM checkedAdd128 (t + w) = some s ↔ _
        rw [ih hw, Nat.add_assoc]
      · refine iff_of_false (fun h => absurd (h : none = some s) (by simp)) ?_
        rintro ⟨rfl, hlt⟩
        omega

/-- A checked sum succeeds exactly when the sum fits. -/
theorem checkedBondWeight_eq_some_iff {weights : List ℕ} {total : ℕ} :
    checkedBondWeight weights = some total ↔ weights.sum = total ∧ total < 2 ^ 128 := by
  unfold checkedBondWeight
  rw [foldlM_checkedAdd128_iff (by norm_num), Nat.zero_add]

/-- The order of the summands does not matter, overflow included. -/
theorem checkedBondWeight_perm {l l' : List ℕ} (h : l.Perm l') :
    checkedBondWeight l = checkedBondWeight l' := by
  refine Option.ext fun total => ?_
  rw [checkedBondWeight_eq_some_iff, checkedBondWeight_eq_some_iff, h.sum_eq]

/-- A table that decides a quorum decides it on these numbers. -/
theorem isWeightedSupermajoritySnapshot_eq_true_iff {creators : List NodeId}
    {weights : WeightSnapshot} :
    isWeightedSupermajoritySnapshot creators weights = true ↔
      ∃ support total, checkedBondWeight (creators.map weights.weightOf) = some support ∧
        weights.total = some total ∧ 0 < total ∧ strictTwoThirds support total = true := by
  unfold isWeightedSupermajoritySnapshot
  cases weights.total with
  | none => simp
  | some total =>
      simp only
      split_ifs with hzero
      · simp [hzero]
      · cases checkedBondWeight (creators.map weights.weightOf) with
        | none => simp
        | some support =>
            simp only [Option.some.injEq, exists_and_left]
            constructor
            · intro h
              exact ⟨support, rfl, total, rfl, by omega, h⟩
            · rintro ⟨support', rfl, total', rfl, -, h⟩
              exact h

/-! ### Checking a certificate -/

namespace ThresholdCertificate

/-- `satisfies_threshold`: the strict two-thirds inequality over the numbers as
carried. -/
def satisfiesThreshold (certificate : ThresholdCertificate) : Bool :=
  match checkedMul128 certificate.approverWeight 3, checkedMul128 certificate.totalWeight 2 with
  | some support, some threshold => certificate.totalWeight > 0 && support > threshold
  | _, _ => false

/-- `verify_quorum_against`: the quorum recomputed from the listed approvers. -/
def verifyQuorumAgainst (certificate : ThresholdCertificate) (weights : WeightSnapshot) : Bool :=
  if weights.id ≠ certificate.weightSnapshot then false
  -- a repeated approver would be counted twice
  else if certificate.approvers.dedup.length ≠ certificate.approvers.length then false
  else
    match checkedBondWeight (certificate.approvers.map weights.weightOf) with
    | none => false
    | some support =>
        support = certificate.approverWeight && weights.total = some certificate.totalWeight &&
          certificate.satisfiesThreshold

variable {kind : CertificateKind} {leader : BlockIdentity} {ratifier : Option BlockIdentity}
  {approverBlocks : List BlockIdentity} {approvers : List NodeId} {weights : WeightSnapshot}

/-- The quorum that assembled a certificate is found again in it. -/
theorem verifyQuorumAgainst_new (hnd : approvers.Nodup)
    (hquorum : isWeightedSupermajoritySnapshot approvers weights = true) :
    (new kind leader ratifier approverBlocks approvers
      weights).verifyQuorumAgainst weights = true := by
  obtain ⟨support, total, hsupport, htotal, hpos, hthird⟩ :=
    isWeightedSupermajoritySnapshot_eq_true_iff.1 hquorum
  have hsorted : (approvers.insertionSort (· ≤ ·)).Nodup :=
    (List.perm_insertionSort _ approvers).nodup_iff.2 hnd
  have hsum : checkedBondWeight ((approvers.insertionSort (· ≤ ·)).map weights.weightOf) =
      some support := by
    rw [checkedBondWeight_perm ((List.perm_insertionSort _ approvers).map _), hsupport]
  have hthreshold : (new kind leader ratifier approverBlocks approvers
      weights).satisfiesThreshold = true := by
    unfold satisfiesThreshold new
    simp only [hsum, htotal, Option.getD_some]
    unfold strictTwoThirds at hthird
    cases hs : checkedMul128 support 3 with
    | none => simp [hs] at hthird
    | some weighted =>
        cases ht : checkedMul128 total 2 with
        | none => simp [hs, ht] at hthird
        | some threshold =>
            simp only [hs, ht] at hthird ⊢
            rw [hthird, Bool.and_true, decide_eq_true_eq]
            exact hpos
  unfold verifyQuorumAgainst
  rw [hthreshold]
  simp only [new, hsorted.dedup, hsum, htotal, Option.getD_some, ne_eq,
    not_true_eq_false, if_false, decide_true, Bool.and_self]

/-- What a certificate of a decision on `bonds` carries. -/
structure Certifies (certificate : ThresholdCertificate) (bonds : Bonds) (leader : BlockIdentity)
    (supports : BlockIdentity → Prop) : Prop where
  leader_eq : certificate.leader = leader
  verifies : certificate.verifyQuorumAgainst (.fromBonds bonds) = true
  /-- The approvers are the creators of the approver blocks, -/
  approvers_iff : ∀ validator, validator ∈ certificate.approvers ↔
    ∃ id ∈ certificate.approverBlocks, id.creator = validator
  /-- each listed once, -/
  approvers_nodup : certificate.approvers.Nodup
  /-- and each with a bond. -/
  approvers_pos : ∀ validator ∈ certificate.approvers, 0 < bonds.weight validator
  approverBlocks_support : ∀ id ∈ certificate.approverBlocks, supports id

/-- A certificate assembled from bonded supporters and their creators. -/
theorem certifies_new {bonds : Bonds} {supports : BlockIdentity → Prop} (hnd : approvers.Nodup)
    (hquorum : isWeightedSupermajoritySnapshot approvers (.fromBonds bonds) = true)
    (hcreators : ∀ validator, validator ∈ approvers ↔ ∃ id ∈ approverBlocks, id.creator = validator)
    (hbonded : ∀ id ∈ approverBlocks, 0 < (WeightSnapshot.fromBonds bonds).weightOf id.creator)
    (hsupports : ∀ id ∈ approverBlocks, supports id) :
    (new kind leader ratifier approverBlocks approvers
      (.fromBonds bonds)).Certifies bonds leader supports where
  leader_eq := rfl
  verifies := verifyQuorumAgainst_new hnd hquorum
  approvers_iff validator := by
    simp only [new, List.mem_insertionSort]
    exact hcreators validator
  approvers_nodup := (List.perm_insertionSort _ approvers).nodup_iff.2 hnd
  approvers_pos validator hv := by
    simp only [new, List.mem_insertionSort] at hv
    obtain ⟨id, hid, rfl⟩ := (hcreators validator).1 hv
    rw [← WeightSnapshot.weightOf_fromBonds]
    exact hbonded id hid
  approverBlocks_support id hid := by
    simp only [new, List.mem_insertionSort] at hid
    exact hsupports id hid

end ThresholdCertificate

/-! ### The certificates of ratification -/

namespace Blocklace

variable {B : Blocklace} {bonds : Bonds} {certificate : ThresholdCertificate}

/-- A block of a closure is stored under the identity that is in the closure. -/
private theorem identity_mem_observe {ratifier block : Block}
    (h : block ∈ B.observedBlocks ratifier) : block.identity ∈ B.observe ratifier.identity := by
  obtain ⟨id, hid, hget⟩ := List.mem_filterMap.1 h
  obtain ⟨a, ha, hsees⟩ := mem_observe_iff.1 hid
  obtain ⟨hres, -⟩ := get_eq_some_iff.1 hget
  rw [resolveIdentity_of_mem (hsees.mem (resolveIdentity_mem ha))] at hres
  rwa [← Option.some.inj hres]

/-- **The evidence for a ratification.** -/
theorem certifies_of_ratification {ratifier target : Block}
    (h : B.weightedRatificationOutcome ratifier target (.fromBonds bonds) = some certificate) :
    certificate.Certifies bonds target.identity fun id =>
      id ∈ B.observe ratifier.identity ∧ B.approves id target.identity = true := by
  unfold weightedRatificationOutcome at h
  simp only at h
  split_ifs at h with hmissing hquorum
  obtain rfl := Option.some.inj h
  -- the two filters keep the blocks of one kind
  have hmem : ∀ id, id ∈ (((B.observedBlocks ratifier).filter fun block =>
      B.approves block.identity target.identity &&
        decide ((WeightSnapshot.fromBonds bonds).weightOf block.identity.creator > 0)).map
          Block.identity) ↔ ∃ block ∈ B.observedBlocks ratifier, block.identity = id ∧
            B.approves id target.identity = true ∧
              0 < (WeightSnapshot.fromBonds bonds).weightOf id.creator := by
    intro id
    simp only [List.mem_map, List.mem_filter, Bool.and_eq_true, decide_eq_true_eq]
    constructor
    · rintro ⟨block, ⟨hb, happ, hpos⟩, rfl⟩
      exact ⟨block, hb, rfl, happ, hpos⟩
    · rintro ⟨block, hb, rfl, happ, hpos⟩
      exact ⟨block, ⟨hb, happ, hpos⟩, rfl⟩
  refine ThresholdCertificate.certifies_new (List.nodup_dedup _) hquorum ?_ ?_ ?_
  · intro validator
    simp only [hmem, weightedApprovingCreators, List.mem_dedup, List.mem_filterMap,
      List.mem_filter]
    constructor
    · rintro ⟨block, ⟨hb, happ⟩, hcreator⟩
      split_ifs at hcreator with hpos
      exact ⟨block.identity, ⟨block, hb, rfl, happ, hpos⟩, Option.some.inj hcreator⟩
    · rintro ⟨-, ⟨block, hb, rfl, happ, hpos⟩, rfl⟩
      exact ⟨block, ⟨hb, happ⟩, if_pos hpos⟩
  · intro id hid
    obtain ⟨-, -, -, -, hpos⟩ := (hmem id).1 hid
    exact hpos
  · intro id hid
    obtain ⟨block, hb, rfl, happ, -⟩ := (hmem id).1 hid
    exact ⟨identity_mem_observe hb, happ⟩

/-- **The evidence for a super-ratification.** -/
theorem certifies_of_superRatification {blocks : List Block} {target : Block}
    (h : B.weightedSuperRatificationOutcome blocks target (.fromBonds bonds) = some certificate) :
    certificate.Certifies bonds target.identity fun id =>
      ∃ block ∈ blocks, block.identity = id ∧
        B.weightedRatifies block target (.fromBonds bonds) = true := by
  unfold weightedSuperRatificationOutcome at h
  simp only at h
  split_ifs at h with hquorum
  obtain rfl := Option.some.inj h
  have hmem : ∀ block, block ∈ ((blocks.insertionSort fun x y => x.identity ≤ y.identity).filter
      fun block => B.weightedRatifies block target (.fromBonds bonds) &&
        decide ((WeightSnapshot.fromBonds bonds).weightOf block.identity.creator > 0)) ↔
      block ∈ blocks ∧ B.weightedRatifies block target (.fromBonds bonds) = true ∧
        0 < (WeightSnapshot.fromBonds bonds).weightOf block.identity.creator := by
    intro block
    rw [List.mem_filter, List.mem_insertionSort, Bool.and_eq_true, decide_eq_true_eq]
  refine ThresholdCertificate.certifies_new (List.nodup_dedup _) hquorum ?_ ?_ ?_
  · intro validator
    rw [List.mem_dedup, List.mem_map]
    constructor
    · rintro ⟨block, hb, rfl⟩
      exact ⟨block.identity, List.mem_map_of_mem hb, rfl⟩
    · rintro ⟨id, hid, rfl⟩
      obtain ⟨block, hb, rfl⟩ := List.mem_map.1 hid
      exact ⟨block, hb, rfl⟩
  · intro id hid
    obtain ⟨block, hb, rfl⟩ := List.mem_map.1 hid
    exact ((hmem block).1 hb).2.2
  · intro id hid
    obtain ⟨block, hb, rfl⟩ := List.mem_map.1 hid
    exact ⟨block, ((hmem block).1 hb).1, rfl, ((hmem block).1 hb).2.1⟩

/-- **Certificates are sound and complete.**  There is a certificate exactly when
the boolean function answers `true`; a certificate passes the check against the
table it was made for, its approvers are the creators of its blocks, bonded and
listed once, and its blocks approve, or ratify, the certified leader. -/
theorem certificate_iff_and_certifies (B : Blocklace) (ratifier target : Block)
    (blocks : List Block) (bonds : Bonds) :
    ((Memoised.weightedRatifiesCertificate B ratifier target bonds).isSome =
        Memoised.weightedRatifies B ratifier target bonds ∧
      ∀ certificate ∈ Memoised.weightedRatifiesCertificate B ratifier target bonds,
        certificate.Certifies bonds target.identity fun id =>
          id ∈ B.observe ratifier.identity ∧ B.approves id target.identity = true) ∧
      (Memoised.weightedSuperRatifiesCertificate B blocks target bonds).isSome =
        Memoised.weightedSuperRatifies B blocks target bonds ∧
      ∀ certificate ∈ Memoised.weightedSuperRatifiesCertificate B blocks target bonds,
        certificate.Certifies bonds target.identity fun id =>
          ∃ block ∈ blocks, block.identity = id ∧
            Memoised.weightedRatifies B block target bonds = true := by
  simp only [Memoised.weightedRatifiesCertificate_eq, Memoised.weightedRatifies_eq,
    Memoised.weightedSuperRatifies_eq, Memoised.weightedSuperRatifiesCertificate,
    Memoised.weightedSuperRatifiesCertificateWithSnapshot_eq]
  exact ⟨⟨rfl, fun _ h => certifies_of_ratification h⟩, rfl,
    fun _ h => certifies_of_superRatification h⟩

end Blocklace

end CordialMiners
