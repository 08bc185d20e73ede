/-
# Approval and ratification

`consensus/approval.rs` and the ratification half of `consensus/cordiality.rs`.

A block approves a target it sees when it sees no equivocation of it
(Definition 18); it ratifies the target when its closure holds a quorum of
blocks that approve it (Definition 22); a set of blocks super-ratifies the
target when it holds a quorum of blocks that do.  Each notion exists twice in
the source, counting creators and weighing their stake.  Here both are read as
one relation over a quorum rule: `Approves`, `Ratifies` and `SuperRatifies`.

The memo tables that the source threads through one evaluation hold values of
the same pure functions on the same blocklace and are left out here;
`Core.Memo` puts them back.
-/

import CordialMiners.Core.AncestorIndex
import CordialMiners.Core.Weights

namespace CordialMiners

namespace Blocklace

/-! ### Approval -/

/-- A block approves a target it sees when no block by the same creator that
it sees is incomparable with the target. -/
def approves (B : Blocklace) (approver target : BlockIdentity) : Bool :=
  match B.resolveIdentity approver with
  | none => false
  | some resolvedApprover =>
      match (AncestorIndex.build B).indexOf resolvedApprover,
        (AncestorIndex.build B).indexOf target with
      | some observer, some observed => (AncestorIndex.build B).approves observer observed
      | _, _ => false

/-- Definition 18, as a relation. -/
structure Approves (B : Blocklace) (a t : BlockIdentity) : Prop where
  sees : B.Sees a t
  comparable : ∀ s, B.Sees a s → s.creator = t.creator → s ≠ t → B.Sees t s ∨ B.Sees s t

variable {B : Blocklace} {a t : BlockIdentity} {d : ℕ}

/-- **`approves` decides Definition 18** on every stored block below which no cycle
runs. -/
theorem approves_iff_of_grounded (ha : a ∈ B.blocks) (h : FinGraph.Grounded B.expand a) :
    B.approves a t = true ↔ B.Approves a t := by
  obtain ⟨i, hi⟩ := List.getElem?_of_mem (AList.mem_keys.1 ha)
  have hio : (AncestorIndex.build B).indexOf a = some i := AncestorIndex.idxOf_dom_iff.2 hi
  unfold approves
  rw [resolveIdentity_of_mem ha]
  simp only [hio]
  cases ht : (AncestorIndex.build B).indexOf t with
  | none =>
      have htb : t ∉ B.blocks := fun hmem => by
        obtain ⟨j, hj⟩ := List.getElem?_of_mem (AList.mem_keys.1 hmem)
        have hjo : (AncestorIndex.build B).indexOf t = some j := AncestorIndex.idxOf_dom_iff.2 hj
        rw [ht] at hjo
        exact absurd hjo (by simp)
      exact iff_of_false Bool.false_ne_true fun hat => htb (hat.sees.mem ha)
  | some j =>
      rw [AncestorIndex.approves_iff hi (AncestorIndex.idxOf_dom_iff.1 ht) h]
      exact ⟨fun hat => ⟨hat.1, hat.2⟩, fun hat => ⟨hat.sees, hat.comparable⟩⟩

theorem approves_iff (h : B.Round a d) : B.approves a t = true ↔ B.Approves a t :=
  approves_iff_of_grounded h.mem (AncestorIndex.grounded_of_round h)

theorem Approves.mem (h : B.Approves a t) (ha : a ∈ B.blocks) : t ∈ B.blocks := h.sees.mem ha

/-! ### Ratification -/

/-- The blocks of the closure of the ratifier. -/
def observedBlocks (B : Blocklace) (ratifier : Block) : List Block :=
  (B.observe ratifier.identity).filterMap B.get

/-- Whether the closure of `ratifier` holds a supermajority of approvers. -/
def ratifies (B : Blocklace) (ratifier target : Block) (n f : ℕ) : Bool :=
  isSupermajority
    ((B.observedBlocks ratifier).filter fun block => B.approves block.identity target.identity) n f

/-- Whether `blocks` hold a supermajority of ratifiers. -/
def superRatifies (B : Blocklace) (blocks : List Block) (target : Block) (n f : ℕ) : Bool :=
  isSupermajority (blocks.filter fun block => B.ratifies block target n f) n f

/-- The bonded creators in `blocks` whose blocks approve `target`. -/
def weightedApprovingCreators (B : Blocklace) (blocks : List Block) (target : BlockIdentity)
    (weights : WeightSnapshot) : List NodeId :=
  ((blocks.filter fun block => B.approves block.identity target).filterMap fun block =>
    if weights.weightOf block.identity.creator > 0 then some block.identity.creator
    else none).dedup

/-- Weighted ratification with the evidence that justifies it. -/
def weightedRatificationOutcome (B : Blocklace) (ratifier target : Block)
    (weights : WeightSnapshot) : Option ThresholdCertificate :=
  if (B.get ratifier.identity).isNone ∨ (B.get target.identity).isNone then none
  else
    let observedBlocks := B.observedBlocks ratifier
    let approvingCreators :=
      B.weightedApprovingCreators observedBlocks target.identity weights
    if isWeightedSupermajoritySnapshot approvingCreators weights then
      let approverBlocks := (observedBlocks.filter fun block =>
        B.approves block.identity target.identity &&
          decide (weights.weightOf block.identity.creator > 0)).map Block.identity
      some (.new .ratification target.identity (some ratifier.identity) approverBlocks
        approvingCreators weights)
    else none

/-- Whether `ratifier` ratifies `target` by stake. -/
def weightedRatifies (B : Blocklace) (ratifier target : Block) (weights : WeightSnapshot) : Bool :=
  (B.weightedRatificationOutcome ratifier target weights).isSome

/-- Weighted super-ratification with the evidence that justifies it. -/
def weightedSuperRatificationOutcome (B : Blocklace) (blocks : List Block) (target : Block)
    (weights : WeightSnapshot) : Option ThresholdCertificate :=
  let orderedBlocks := blocks.insertionSort fun x y => x.identity ≤ y.identity
  let ratifyingBlocks := orderedBlocks.filter fun block =>
    B.weightedRatifies block target weights && decide (weights.weightOf block.identity.creator > 0)
  let ratifyingCreators := (ratifyingBlocks.map fun block => block.identity.creator).dedup
  if isWeightedSupermajoritySnapshot ratifyingCreators weights then
    some (.new .superRatification target.identity none (ratifyingBlocks.map Block.identity)
      ratifyingCreators weights)
  else none

/-- Whether `blocks` super-ratify `target` by stake. -/
def weightedSuperRatifies (B : Blocklace) (blocks : List Block) (target : Block)
    (weights : WeightSnapshot) : Bool :=
  (B.weightedSuperRatificationOutcome blocks target weights).isSome

/-! ### The two ladders as one -/

variable {Q : Quorum.Rule NodeId}

/-- The creators of the blocks seen from `r` that approve `t`. -/
def approvers (B : Blocklace) (r t : BlockIdentity) : Set NodeId :=
  {c | ∃ x, B.Sees r x ∧ B.Approves x t ∧ x.creator = c}

/-- Definition 22 over a quorum rule. -/
def Ratifies (B : Blocklace) (Q : Quorum.Rule NodeId) (r t : BlockIdentity) : Prop :=
  Q.holds (B.approvers r t)

/-- The creators of the blocks of a set that ratify `t`. -/
def ratifiers (B : Blocklace) (Q : Quorum.Rule NodeId) (S : Set BlockIdentity)
    (t : BlockIdentity) : Set NodeId :=
  {c | ∃ x ∈ S, B.Ratifies Q x t ∧ x.creator = c}

/-- Super-ratification over a quorum rule. -/
def SuperRatifies (B : Blocklace) (Q : Quorum.Rule NodeId) (S : Set BlockIdentity)
    (t : BlockIdentity) : Prop :=
  Q.holds (B.ratifiers Q S t)

/-- A ratifier sees the target. -/
theorem Ratifies.sees {r : BlockIdentity} (h : B.Ratifies Q r t) : B.Sees r t := by
  obtain ⟨-, x, hx, happ, -⟩ := Q.nonempty h
  exact hx.trans happ.sees

theorem mem_observedBlocks_iff {ratifier block : Block} (hr : ratifier.identity ∈ B.blocks) :
    block ∈ B.observedBlocks ratifier ↔
      B.Stores block ∧ B.Sees ratifier.identity block.identity := by
  unfold observedBlocks
  rw [List.mem_filterMap]
  constructor
  · rintro ⟨id, hid, hget⟩
    rw [mem_observe_of_mem hr] at hid
    obtain ⟨hres, hst⟩ := get_eq_some_iff.1 hget
    rw [resolveIdentity_of_mem (hid.mem hr)] at hres
    obtain rfl := Option.some.inj hres
    exact ⟨hst, hid⟩
  · rintro ⟨hst, hsees⟩
    exact ⟨block.identity, (mem_observe_of_mem hr).2 hsees, hst.get⟩

/-- The stored blocks a loop over a closure finds to approve the target. -/
private theorem exists_approving_iff {ratifier target : Block} {c : NodeId}
    (h : B.Round ratifier.identity d) :
    (∃ b ∈ (B.observedBlocks ratifier).filter fun block =>
        B.approves block.identity target.identity, b.identity.creator = c) ↔
      c ∈ B.approvers ratifier.identity target.identity := by
  have hmem := h.mem
  constructor
  · rintro ⟨b, hb, rfl⟩
    rw [List.mem_filter, mem_observedBlocks_iff hmem] at hb
    obtain ⟨e, -, hbr⟩ := h.of_sees hb.1.2
    exact ⟨b.identity, hb.1.2, (approves_iff hbr).1 hb.2, rfl⟩
  · rintro ⟨x, hx, happ, rfl⟩
    obtain ⟨e, -, hxr⟩ := h.of_sees hx
    obtain ⟨content, hc⟩ := exists_lookup hxr.mem
    exact ⟨⟨x, content⟩, List.mem_filter.2
      ⟨(mem_observedBlocks_iff hmem).2 ⟨hc, hx⟩, (approves_iff hxr).2 happ⟩, rfl⟩

/-- **`ratifies` is Definition 22 for the count of creators.** -/
theorem ratifies_iff {ratifier target : Block} {n f : ℕ} (h : B.Round ratifier.identity d) :
    B.ratifies ratifier target n f = true ↔
      B.Ratifies (Quorum.count ((n + f) / 2)) ratifier.identity target.identity := by
  have hset : {c | ∃ b ∈ (B.observedBlocks ratifier).filter fun block =>
      B.approves block.identity target.identity, b.identity.creator = c} =
      B.approvers ratifier.identity target.identity := Set.ext fun c => exists_approving_iff h
  unfold ratifies Ratifies
  rw [isSupermajority_iff, hset]

/-- A stake quorum is a stake quorum of bonded creators. -/
theorem rule_holds_pos_iff (bonds : Bonds) {S : Set NodeId} :
    bonds.rule.holds {c ∈ S | 0 < bonds.weight c} ↔ bonds.rule.holds S :=
  ⟨bonds.rule.mono fun _ hc => hc.1, Quorum.stake_filter_pos⟩

/-- **`weightedRatifies` is Definition 22 for the stake of creators.** -/
theorem weightedRatifies_iff {ratifier target : Block} {bonds : Bonds}
    (h : B.Round ratifier.identity d) :
    B.weightedRatifies ratifier target (.fromBonds bonds) = true ↔
      B.Ratifies bonds.rule ratifier.identity target.identity := by
  have hset : {c | c ∈ B.weightedApprovingCreators (B.observedBlocks ratifier) target.identity
      (.fromBonds bonds)} =
      {c ∈ B.approvers ratifier.identity target.identity | 0 < bonds.weight c} := by
    ext c
    simp only [weightedApprovingCreators, Set.mem_ofPred_eq, List.mem_dedup, List.mem_filterMap,
      WeightSnapshot.weightOf_fromBonds]
    rw [← exists_approving_iff h]
    constructor
    · rintro ⟨b, hb, hbc⟩
      split_ifs at hbc with hw
      obtain rfl := Option.some.inj hbc
      exact ⟨⟨b, hb, rfl⟩, hw⟩
    · rintro ⟨⟨b, hb, rfl⟩, hw⟩
      exact ⟨b, hb, if_pos hw⟩
  have hgetr : (B.get ratifier.identity).isNone = false := by
    simpa using get_isSome_of_mem h.mem
  have hquorum : isWeightedSupermajoritySnapshot (B.weightedApprovingCreators
      (B.observedBlocks ratifier) target.identity (.fromBonds bonds)) (.fromBonds bonds) = true ↔
      bonds.rule.holds {c | c ∈ B.weightedApprovingCreators (B.observedBlocks ratifier)
        target.identity (.fromBonds bonds)} :=
    isWeightedSupermajoritySnapshot_iff (List.nodup_dedup _) bonds
  rw [hset, rule_holds_pos_iff] at hquorum
  unfold weightedRatifies weightedRatificationOutcome Ratifies
  simp only [hgetr, Bool.false_eq_true, false_or]
  split_ifs with ht hq
  · -- the target names no stored block, so nothing approves it
    refine iff_of_false Bool.false_ne_true fun hrat => ?_
    have hsees := Ratifies.sees (Q := bonds.rule) hrat
    have hget := get_isSome_of_mem (hsees.mem h.mem)
    rw [Option.isNone_iff_eq_none] at ht
    rw [ht] at hget
    exact absurd hget (by decide)
  · exact iff_of_true rfl (hquorum.1 hq)
  · exact iff_of_false Bool.false_ne_true fun hrat => hq (hquorum.2 hrat)

/-- The identities of a list of blocks. -/
def idsOf (blocks : List Block) : Set BlockIdentity := {x | ∃ b ∈ blocks, b.identity = x}

/-- **`superRatifies` is super-ratification for the count of creators.** -/
theorem superRatifies_iff {blocks : List Block} {target : Block} {n f : ℕ}
    (h : ∀ b ∈ blocks, ∃ d, B.Round b.identity d) :
    B.superRatifies blocks target n f = true ↔
      B.SuperRatifies (Quorum.count ((n + f) / 2)) (idsOf blocks) target.identity := by
  have hset : {c | ∃ b ∈ blocks.filter fun block => B.ratifies block target n f,
      b.identity.creator = c} =
      B.ratifiers (Quorum.count ((n + f) / 2)) (idsOf blocks) target.identity := by
    ext c
    constructor
    · rintro ⟨b, hb, rfl⟩
      rw [List.mem_filter] at hb
      obtain ⟨d, hd⟩ := h b hb.1
      exact ⟨b.identity, ⟨b, hb.1, rfl⟩, (ratifies_iff hd).1 hb.2, rfl⟩
    · rintro ⟨x, ⟨b, hb, rfl⟩, hrat, rfl⟩
      obtain ⟨d, hd⟩ := h b hb
      exact ⟨b, List.mem_filter.2 ⟨hb, (ratifies_iff hd).2 hrat⟩, rfl⟩
  unfold superRatifies SuperRatifies
  rw [isSupermajority_iff, hset]

/-- **`weightedSuperRatifies` is super-ratification for the stake of creators.** -/
theorem weightedSuperRatifies_iff {blocks : List Block} {target : Block} {bonds : Bonds}
    (h : ∀ b ∈ blocks, ∃ d, B.Round b.identity d) :
    B.weightedSuperRatifies blocks target (.fromBonds bonds) = true ↔
      B.SuperRatifies bonds.rule (idsOf blocks) target.identity := by
  have hset : {c | c ∈ (((blocks.insertionSort fun x y => x.identity ≤ y.identity).filter
      fun block => B.weightedRatifies block target (.fromBonds bonds) &&
        decide ((WeightSnapshot.fromBonds bonds).weightOf block.identity.creator > 0)).map
          fun block => block.identity.creator).dedup} =
      {c ∈ B.ratifiers bonds.rule (idsOf blocks) target.identity | 0 < bonds.weight c} := by
    ext c
    simp only [Set.mem_ofPred_eq, List.mem_dedup, List.mem_map, List.mem_filter,
      (List.perm_insertionSort _ blocks).mem_iff, Bool.and_eq_true, decide_eq_true_eq,
      WeightSnapshot.weightOf_fromBonds]
    constructor
    · rintro ⟨b, ⟨hb, hrat, hw⟩, rfl⟩
      obtain ⟨d, hd⟩ := h b hb
      exact ⟨⟨b.identity, ⟨b, hb, rfl⟩, (weightedRatifies_iff hd).1 hrat, rfl⟩, hw⟩
    · rintro ⟨⟨x, ⟨b, hb, rfl⟩, hrat, rfl⟩, hw⟩
      obtain ⟨d, hd⟩ := h b hb
      exact ⟨b, ⟨hb, (weightedRatifies_iff hd).2 hrat, hw⟩, rfl⟩
  unfold weightedSuperRatifies weightedSuperRatificationOutcome SuperRatifies
  simp only
  split_ifs with hq
  · rw [isWeightedSupermajoritySnapshot_iff (List.nodup_dedup _), hset, rule_holds_pos_iff] at hq
    exact iff_of_true rfl hq
  · rw [isWeightedSupermajoritySnapshot_iff (List.nodup_dedup _), hset, rule_holds_pos_iff] at hq
    exact iff_of_false Bool.false_ne_true hq

end Blocklace

end CordialMiners
