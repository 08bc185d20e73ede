/-
# Building the next block

The proposal side of `consensus/dissemination.rs`.

A proposal refers to the tips of the bonded validators that satisfy the chain
axiom.  In compatibility mode it also refers to every branch of a known
equivocation that these tips do not see; in strict mode it does not, and the
proposal is refused where such a branch exists.  A candidate also needs tips of
more than two thirds of the validators.

The stake threshold of an acknowledgement is cast to 64 bits.  Where it fits it is
the stake quorum rule (`isWeightedSupermajority_iff`); where it does not, a few
validators reach the cast value without being a quorum.

The tip of a validator without equivocations is above all its blocks
(`sees_of_tipOf`), so a candidate extends the chain of its proposer; together
with the coverage of the equivocations (`next_eq_ok`) this is what
strict validation checks (`candidate_valid`).
-/

import CordialMiners.Validation.Authentic

namespace CordialMiners

open FinGraph Relation

/-- How predecessor selection handles known equivocator branches. -/
inductive PredecessorSelectionMode where
  | compatibility
  | strict
deriving DecidableEq, Repr

/-- Reasons local proposal construction can fail. -/
inductive ProposalError where
  | insufficientAcknowledgements (observed required : ℕ)
  | noPredecessorsAvailable
  | insufficientEquivocationAcknowledgement (missing : List BlockIdentity)
deriving DecidableEq, Repr

/-- The minimum number of distinct validators a new block must acknowledge. -/
def requiredAcknowledgements (bonds : Bonds) : ℕ :=
  let n := bonds.table.entries.length
  if n = 0 then 0 else 2 * n / 3 + 1

/-- The stake a new block must acknowledge: `(2 * total_stake) / 3 + 1`, cast to `u64`. -/
def weightedRequiredAcknowledgements (bonds : Bonds) : ℕ :=
  if bonds.total = 0 then 0 else (2 * bonds.total / 3 + 1) % 2 ^ 64

/-- `is_weighted_supermajority`. -/
def isWeightedSupermajority (creators : List NodeId) (bonds : Bonds) : Bool :=
  isWeightedSupermajoritySnapshot creators (.fromBonds bonds)

namespace Blocklace

/-- Every branch of every known equivocation. -/
def equivocationBranches (B : Blocklace) : List BlockIdentity :=
  B.allEquivocations.flatMap Equivocation.blocks

/-- `select_predecessors_with_mode`. -/
def selectPredecessorsWithMode (B : Blocklace) (bonds : Bonds) (mode : PredecessorSelectionMode) :
    List BlockIdentity :=
  let predecessors := ((B.collectValidatorTips bonds).map Prod.snd).dedup
  if predecessors = [] ∨ mode = .strict then predecessors
  else
    (B.equivocationBranches.foldl (fun (s : List BlockIdentity × List BlockIdentity) branch =>
      if branch ∈ s.2 then s else (s.1 ++ [branch], branch :: s.2))
      (predecessors, predecessors.flatMap B.observe)).1

/-- `missing_equivocation_branches`: those that the predecessors do not see. -/
def missingEquivocationBranches (B : Blocklace) (predecessors : List BlockIdentity) :
    List BlockIdentity :=
  (B.equivocationBranches.filter (· ∉ predecessors.flatMap B.observe)).insertionSort (· ≤ ·)

/-- `next_block_predecessors_with_mode`. -/
def nextBlockPredecessorsWithMode (B : Blocklace) (bonds : Bonds)
    (mode : PredecessorSelectionMode) : Except ProposalError (List BlockIdentity) :=
  if B.dom = [] then .ok []
  else
    let predecessors := B.selectPredecessorsWithMode bonds mode
    if predecessors = [] then .error .noPredecessorsAvailable
    else if mode = .strict ∧ B.missingEquivocationBranches predecessors ≠ [] then
      .error (.insufficientEquivocationAcknowledgement (B.missingEquivocationBranches predecessors))
    else if (B.collectValidatorTips bonds).length < requiredAcknowledgements bonds then
      .error (.insufficientAcknowledgements (B.collectValidatorTips bonds).length
        (requiredAcknowledgements bonds))
    else .ok predecessors

/-- `build_block_candidate_with_mode`. -/
def buildBlockCandidateWithMode (B : Blocklace) (bonds : Bonds) (payload : List Byte)
    (mode : PredecessorSelectionMode) : Except ProposalError BlockContent :=
  (B.nextBlockPredecessorsWithMode bonds mode).map fun predecessors =>
    ⟨payload, (predecessors.map BlockIdentity.consensusIdentity).dedup⟩

variable {crypto : BlockCrypto} {B : Blocklace} {bonds : Bonds} {mode : PredecessorSelectionMode}
  {v : NodeId} {p x : BlockIdentity} {t : Block} {rank : ContentHash → ℕ}

/-! ### The tip of a validator -/

/-- In a blocklace of hashed blocks whose hashes come in an order, hashes go up
along `≺`. -/
theorem rank_lt_of_below (hhashed : ∀ c, B.Stores c → c.Hashed crypto)
    (hrank : ∀ c, B.Stores c → ∀ p ∈ c.content.predecessors,
      rank p.contentHash < rank (crypto.blockHash c.identity.creator c.content))
    {a b : BlockIdentity} (h : B.Below a b) : rank a.contentHash < rank b.contentHash := by
  have hstep : ∀ i j : BlockIdentity, j ∈ B.expand i → rank j.contentHash < rank i.contentHash := by
    intro i j hj
    unfold expand at hj
    split_ifs at hj with hcp
    · simp at hj
    · cases hcontent : B.content i with
      | none => simp [hcontent] at hj
      | some c =>
          rw [hcontent] at hj
          obtain ⟨r, hir, hl⟩ := Option.bind_eq_some_iff.1 hcontent
          obtain ⟨p, hp, hr⟩ := List.mem_filterMap.1 hj
          have hst : B.Stores ⟨r, c⟩ := hl
          rw [(BlockIdentity.consensusIdentity_eq_iff.1 (resolveIdentity_eq_some_iff.1 hir).2.1).1,
            show r.contentHash = _ from hhashed _ hst,
            ← (BlockIdentity.consensusIdentity_eq_iff.1 (resolveIdentity_eq_some_iff.1 hr).2.1).1]
          exact hrank _ hst p hp
  induction h with
  | single h => exact hstep _ _ h
  | tail _ h ih => exact (hstep _ _ h).trans ih

/-- A tip has no other block of its creator above it. -/
theorem tipOf_eq_some (h : B.tipOf v = some t) :
    B.Stores t ∧ t.identity.creator = v ∧
      ∀ x ∈ B.blocks, x.creator = v → x ≠ t.identity → ¬ B.Below t.identity x := by
  unfold tipOf at h
  obtain ⟨hst, hcreator⟩ := mem_blocksBy_iff.1 (List.mem_of_find?_eq_some h)
  refine ⟨hst, hcreator, fun x hx hxv hne hbelow => ?_⟩
  obtain ⟨b, rfl, hb⟩ := exists_stores hx
  have hnone := List.find?_some h
  rw [Bool.not_eq_true', ← Bool.not_eq_true, List.any_eq_true] at hnone
  refine hnone ⟨b, mem_blocksBy_iff.2 ⟨hb, hxv⟩, ?_⟩
  simpa [hne] using (precedes_of_mem hst.mem).2 hbelow

/-- A validator with a stored block has a tip. -/
theorem exists_tipOf (hhashed : ∀ c, B.Stores c → c.Hashed crypto)
    (hrank : ∀ c, B.Stores c → ∀ p ∈ c.content.predecessors,
      rank p.contentHash < rank (crypto.blockHash c.identity.creator c.content))
    (hx : x ∈ B.blocks) (hxv : x.creator = v) : ∃ t, B.tipOf v = some t := by
  obtain ⟨b, rfl, hb⟩ := exists_stores hx
  -- the block of the largest rank has nothing above it
  obtain ⟨m, hm, hmax⟩ := Finset.exists_max_image (B.blocksBy v).toFinset
    (fun c => rank c.identity.contentHash)
    ⟨b, List.mem_toFinset.2 (mem_blocksBy_iff.2 ⟨hb, hxv⟩)⟩
  rw [List.mem_toFinset] at hm
  obtain ⟨hmst, -⟩ := mem_blocksBy_iff.1 hm
  refine Option.isSome_iff_exists.1 ?_
  unfold tipOf
  rw [List.find?_isSome]
  refine ⟨m, hm, ?_⟩
  rw [Bool.not_eq_true', ← Bool.not_eq_true, List.any_eq_true]
  rintro ⟨c, hc, habove⟩
  rw [Bool.and_eq_true, precedes_of_mem hmst.mem] at habove
  have hlt := rank_lt_of_below hhashed hrank habove.2
  exact absurd (hmax c (List.mem_toFinset.2 hc)) (not_le.2 hlt)

/-- **The tip of a validator that keeps to a chain sees all its blocks.** -/
theorem sees_of_tipOf (hchain : B.satisfiesChainAxiom v = true) (ht : B.tipOf v = some t)
    (hx : x ∈ B.blocks) (hxv : x.creator = v) : B.Sees t.identity x := by
  obtain ⟨hst, htv, habove⟩ := tipOf_eq_some ht
  by_cases hxt : x = t.identity
  · exact hxt ▸ Sees.refl B x
  · obtain h | h := satisfiesChainAxiom_iff.1 hchain x hx t.identity hst.mem hxv htv hxt
    · exact h.sees
    · exact absurd h (habove x hx hxv hxt)

/-! ### What a candidate refers to -/

theorem mem_collectValidatorTips {node : NodeId} {id : BlockIdentity} :
    (node, id) ∈ B.collectValidatorTips bonds ↔
      node ∈ bonds.table ∧ node ∉ B.findEquivacators ∧ ∃ t, B.tipOf node = some t ∧ t.identity = id := by
  unfold collectValidatorTips
  rw [List.mem_filterMap]
  simp only [List.mem_filter, decide_eq_true_eq, Option.map_eq_some_iff, Prod.mk.injEq,
    ← AList.mem_keys]
  constructor
  · rintro ⟨n, ⟨hkey, hn⟩, t, ht, rfl, rfl⟩
    exact ⟨hkey, hn, t, ht, rfl⟩
  · rintro ⟨hkey, hn, t, ht, rfl⟩
    exact ⟨node, ⟨hkey, hn⟩, t, ht, rfl, rfl⟩

/-- A branch of an equivocation is stored. -/
theorem mem_of_mem_equivocationBranches (h : x ∈ B.equivocationBranches) : x ∈ B.blocks := by
  obtain ⟨equivocation, heq, hx⟩ := List.mem_flatMap.1 h
  unfold allEquivocations at heq
  split at heq
  · simp at heq
  · obtain ⟨creator, -, heq⟩ := List.mem_flatMap.1 heq
    obtain ⟨round, -, heq⟩ := List.mem_filterMap.1 heq
    simp only [Option.ite_none_right_eq_some, Option.some.injEq] at heq
    obtain ⟨-, rfl⟩ := heq
    obtain ⟨b, hb, rfl⟩ := List.mem_map.1 hx
    unfold equivocationBlocksAtRound at hb
    split_ifs at hb
    · exact (mem_blocksAtDepth_iff.1 (List.mem_filter.1 hb).1).1.mem
    · simp at hb

/-- What the loop of the compatibility mode collects. -/
theorem foldl_branches (branches : List BlockIdentity) (s : List BlockIdentity × List BlockIdentity) :
    let r := branches.foldl (fun (s : List BlockIdentity × List BlockIdentity) branch =>
      if branch ∈ s.2 then s else (s.1 ++ [branch], branch :: s.2)) s
    (∀ p ∈ s.1, p ∈ r.1) ∧ (∀ p ∈ r.1, p ∈ s.1 ∨ p ∈ branches) ∧
      ∀ branch ∈ branches, branch ∈ s.2 ∨ branch ∈ r.1 := by
  induction branches generalizing s with
  | nil => exact ⟨fun _ h => h, fun _ h => Or.inl h, by simp⟩
  | cons branch branches ih =>
      simp only [List.foldl_cons]
      by_cases hseen : branch ∈ s.2
      · obtain ⟨hkeep, hfrom, hall⟩ := ih s
        rw [if_pos hseen]
        refine ⟨hkeep, fun p hp => (hfrom p hp).imp_right (List.mem_cons_of_mem _), fun x hx => ?_⟩
        obtain rfl | hx := List.mem_cons.1 hx
        · exact Or.inl hseen
        · exact hall x hx
      · obtain ⟨hkeep, hfrom, hall⟩ := ih (s.1 ++ [branch], branch :: s.2)
        rw [if_neg hseen]
        have hnew := hkeep branch (by simp)
        refine ⟨fun p hp => hkeep p (List.mem_append_left _ hp), fun p hp => ?_, fun x hx => ?_⟩
        · obtain hp | hp := hfrom p hp
          · obtain hp | hp := List.mem_append.1 hp
            · exact Or.inl hp
            · exact Or.inr (List.mem_singleton.1 hp ▸ List.mem_cons_self)
          · exact Or.inr (List.mem_cons_of_mem _ hp)
        · obtain rfl | hx := List.mem_cons.1 hx
          · exact Or.inr hnew
          · obtain hx | hx := hall x hx
            · obtain rfl | hx := List.mem_cons.1 hx
              · exact Or.inr hnew
              · exact Or.inl hx
            · exact Or.inr hx

/-- Every tip is selected, and everything selected is stored. -/
theorem mem_select :
    (∀ node id, (node, id) ∈ B.collectValidatorTips bonds →
      id ∈ B.selectPredecessorsWithMode bonds mode) ∧
    ∀ p ∈ B.selectPredecessorsWithMode bonds mode, p ∈ B.blocks := by
  have htips : ∀ p ∈ ((B.collectValidatorTips bonds).map Prod.snd).dedup, p ∈ B.blocks := by
    intro p hp
    obtain ⟨⟨node, id⟩, hmem, rfl⟩ := List.mem_map.1 (List.mem_dedup.1 hp)
    obtain ⟨-, -, t, ht, rfl⟩ := mem_collectValidatorTips.1 hmem
    exact (tipOf_eq_some ht).1.mem
  have htip : ∀ node id, (node, id) ∈ B.collectValidatorTips bonds →
      id ∈ ((B.collectValidatorTips bonds).map Prod.snd).dedup := fun node id h =>
    List.mem_dedup.2 (List.mem_map.2 ⟨(node, id), h, rfl⟩)
  unfold selectPredecessorsWithMode
  simp only
  split_ifs with hmode
  · exact ⟨htip, htips⟩
  · obtain ⟨hkeep, hfrom, -⟩ := foldl_branches B.equivocationBranches
      (((B.collectValidatorTips bonds).map Prod.snd).dedup,
        ((B.collectValidatorTips bonds).map Prod.snd).dedup.flatMap B.observe)
    refine ⟨fun node id h => hkeep id (htip node id h), fun p hp => ?_⟩
    obtain hp | hp := hfrom p hp
    · exact htips p hp
    · exact mem_of_mem_equivocationBranches hp

/-- What a successful selection refers to. -/
theorem next_eq_ok {predecessors : List BlockIdentity}
    (h : B.nextBlockPredecessorsWithMode bonds mode = .ok predecessors) :
    (∀ node id, (node, id) ∈ B.collectValidatorTips bonds → id ∈ predecessors) ∧
      (∀ p ∈ predecessors, p ∈ B.blocks) ∧
      ∀ branch ∈ B.equivocationBranches, ∃ p ∈ predecessors, branch ∈ B.observe p := by
  unfold nextBlockPredecessorsWithMode at h
  simp only at h
  split_ifs at h with hempty hnone hmissing hack
  · obtain rfl := Except.ok.inj h
    have hblocks : ∀ k, k ∉ B.blocks := by
      intro k hk
      have := AList.mem_keys.1 hk
      rw [show B.blocks.keys = [] from hempty] at this
      exact absurd this List.not_mem_nil
    refine ⟨fun node id hid => ?_, by simp, fun branch hb => ?_⟩
    · obtain ⟨-, -, t, ht, -⟩ := mem_collectValidatorTips.1 hid
      exact absurd (tipOf_eq_some ht).1.mem (hblocks _)
    · exact absurd (mem_of_mem_equivocationBranches hb) (hblocks _)
  · obtain rfl := Except.ok.inj h
    refine ⟨mem_select.1, mem_select.2, fun branch hb => ?_⟩
    cases mode with
    | strict =>
        -- nothing is missing, or the proposal had been refused
        by_contra hnot
        push Not at hnot
        refine hmissing ⟨rfl, List.ne_nil_of_mem (a := branch) ?_⟩
        unfold missingEquivocationBranches
        rw [List.mem_insertionSort, List.mem_filter, decide_eq_true_eq, List.mem_flatMap]
        exact ⟨hb, fun ⟨p, hp, hobs⟩ => hnot p hp hobs⟩
    | compatibility =>
        have hstored := mem_of_mem_equivocationBranches hb
        by_cases htips : ((B.collectValidatorTips bonds).map Prod.snd).dedup = []
        · exact absurd (by simp [selectPredecessorsWithMode, htips]) hnone
        · rw [show B.selectPredecessorsWithMode bonds .compatibility = _ from if_neg (by simp [htips])]
          obtain ⟨hkeep, -, hall⟩ := foldl_branches B.equivocationBranches
            (((B.collectValidatorTips bonds).map Prod.snd).dedup,
              ((B.collectValidatorTips bonds).map Prod.snd).dedup.flatMap B.observe)
          obtain hseen | hadded := hall branch hb
          · obtain ⟨p, hp, hobs⟩ := List.mem_flatMap.1 hseen
            exact ⟨p, hkeep p hp, hobs⟩
          · exact ⟨branch, hadded, (mem_observe_of_mem hstored).2 (Sees.refl B branch)⟩

/-- A reference by hash and creator resolves to the stored block. -/
theorem resolveIdentity_consensusIdentity (h : p ∈ B.blocks) :
    B.resolveIdentity p.consensusIdentity = some p :=
  resolveIdentity_eq_some_iff.2 ⟨h, rfl, Or.inr rfl⟩

/-- What a candidate refers to: stored blocks, every tip, and what sees every branch. -/
theorem buildBlockCandidate_eq_ok {payload : List Byte} {content : BlockContent}
    (h : B.buildBlockCandidateWithMode bonds payload mode = .ok content) :
    (∀ q ∈ content.predecessors, ∃ p ∈ B.blocks, q = p.consensusIdentity) ∧
      (∀ node id, (node, id) ∈ B.collectValidatorTips bonds →
        id.consensusIdentity ∈ content.predecessors) ∧
      ∀ branch ∈ B.equivocationBranches, ∃ p ∈ B.blocks,
        p.consensusIdentity ∈ content.predecessors ∧ B.Sees p branch := by
  unfold buildBlockCandidateWithMode at h
  cases hnext : B.nextBlockPredecessorsWithMode bonds mode with
  | error error =>
      rw [hnext] at h
      exact absurd h (by simp [Except.map])
  | ok predecessors =>
      rw [hnext] at h
      obtain rfl := Except.ok.inj h
      obtain ⟨htips, hstored, hcover⟩ := next_eq_ok hnext
      have hmem : ∀ q, q ∈ (predecessors.map BlockIdentity.consensusIdentity).dedup ↔
          ∃ p ∈ predecessors, p.consensusIdentity = q := fun q => by
        rw [List.mem_dedup, List.mem_map]
      refine ⟨fun q hq => ?_, fun node id hid => (hmem _).2 ⟨id, htips node id hid, rfl⟩,
        fun branch hb => ?_⟩
      · obtain ⟨p, hp, rfl⟩ := (hmem q).1 hq
        exact ⟨p, hstored p hp, rfl⟩
      · obtain ⟨p, hp, hobs⟩ := hcover branch hb
        exact ⟨p, hstored p hp, (hmem _).2 ⟨p, hp, rfl⟩, (mem_observe_of_mem (hstored p hp)).1 hobs⟩

section Valid

variable {payload signature : List Byte} {content : BlockContent}
  (hhashed : ∀ c, B.Stores c → c.Hashed crypto)
  (hcycle : crypto.NoHashCycle
    {c | B.Stores c ∨ c = ⟨⟨crypto.blockHash v content, v, signature⟩, content⟩})
  (hbonded : v ∈ bonds.table) (hchain : v ∉ B.findEquivacators)
  (hbuild : B.buildBlockCandidateWithMode bonds payload mode = .ok content)

include hhashed hcycle hbonded hchain hbuild

/-- **A candidate extends the chain of its proposer:** a reference sees every
stored block of it, and no stored block has its hash. -/
theorem candidate_extends (hx : x ∈ B.blocks) (hxv : x.creator = v) :
    (∃ p ∈ content.predecessors, ∃ r, B.resolveIdentity p = some r ∧ B.Sees r x) ∧
      x.contentHash ≠ crypto.blockHash v content := by
  obtain ⟨rank, hrank⟩ := hcycle
  have hrankB : ∀ c, B.Stores c → ∀ p ∈ c.content.predecessors,
      rank p.contentHash < rank (crypto.blockHash c.identity.creator c.content) :=
    fun c hc => hrank c (Or.inl hc)
  obtain ⟨t, ht⟩ := exists_tipOf hhashed hrankB hx hxv
  have hsat : B.satisfiesChainAxiom v = true := by
    unfold findEquivacators at hchain
    rw [List.mem_filter, not_and] at hchain
    simpa using hchain (mem_allNodes_iff.2 ⟨x, hx, hxv⟩)
  have hsees := sees_of_tipOf hsat ht hx hxv
  have hst := (tipOf_eq_some ht).1
  have href := (buildBlockCandidate_eq_ok hbuild).2.1 v t.identity
    (mem_collectValidatorTips.2 ⟨hbonded, hchain, t, ht, rfl⟩)
  refine ⟨⟨_, href, t.identity, resolveIdentity_consensusIdentity hst.mem, hsees⟩, fun hhash => ?_⟩
  -- the tip is at least as late as `x`, and its hash earlier than the candidate's
  have hlt : rank t.identity.contentHash < rank (crypto.blockHash v content) :=
    hrank ⟨⟨crypto.blockHash v content, v, signature⟩, content⟩ (Or.inr rfl)
      t.identity.consensusIdentity href
  obtain rfl | hbelow := sees_iff_eq_or_below.1 hsees
  · exact absurd hlt (hhash ▸ lt_irrefl _)
  · exact absurd ((rank_lt_of_below hhashed hrankB hbelow).trans hlt) (hhash ▸ lt_irrefl _)

/-- **Proposer and validator agree.**  A candidate, hashed and signed, passes all
checks on the blocklace it was built from. -/
theorem candidate_valid
    (hsigned : crypto.verify (crypto.blockHash v content) v.bytes signature = true) :
    B.validateBlock crypto ⟨⟨crypto.blockHash v content, v, signature⟩, content⟩ bonds .strict =
      .valid := by
  have hext := fun x hx hxv => @candidate_extends crypto B bonds mode v x payload signature content
    hhashed hcycle hbonded hchain hbuild hx hxv
  obtain ⟨hstored, htips, hcover⟩ := buildBlockCandidate_eq_ok hbuild
  have hav : Available Block.refs B.Resolves
      ⟨⟨crypto.blockHash v content, v, signature⟩, content⟩ := by
    intro q hq
    obtain ⟨p, hp, rfl⟩ := hstored q hq
    exact ⟨p, resolveIdentity_consensusIdentity hp⟩
  refine validateBlock_eq_valid_iff.2 ⟨fun _ => rfl, fun _ => Or.inr hsigned, fun _ => hbonded,
    fun _ => hav, ?_, fun _ _ x hx hxv _ => Or.inl (hext x hx hxv).1, fun _ _ => ⟨?_, ?_⟩⟩
  · refine conflictingIdentityVariant_eq_none_iff.2 (Or.inr fun k hk hcons => ?_)
    obtain ⟨hhash, hcreator⟩ := BlockIdentity.consensusIdentity_eq_iff.1 hcons
    exact (hext k hk hcreator).2 hhash
  · unfold missingKnownTips
    rw [show ((B.collectValidatorTips bonds).map Prod.snd).filter _ = [] from ?_]
    · simp
    · rw [List.filter_eq_nil_iff]
      intro id hid
      obtain ⟨⟨node, id⟩, htip, rfl⟩ := List.mem_map.1 hid
      have hany : content.predecessors.any (fun p => p.sameConsensusIdentity id) = true :=
        List.any_eq_true.2 ⟨_, htips node id htip, BlockIdentity.sameConsensusIdentity_iff.2 rfl⟩
      simp [hany]
  · unfold hiddenEquivocations
    rw [List.filterMap_eq_nil_iff]
    intro equivocation hequiv
    have hobserved : equivocation.blocks.filter (· ∉ B.observedBlockIds
        ⟨⟨crypto.blockHash v content, v, signature⟩, content⟩) = [] := by
      rw [List.filter_eq_nil_iff]
      intro branch hbranch
      obtain ⟨p, hp, href, hsees⟩ := hcover branch (List.mem_flatMap.2 ⟨equivocation, hequiv, hbranch⟩)
      have hobs : branch ∈ B.observedBlockIds
          ⟨⟨crypto.blockHash v content, v, signature⟩, content⟩ := by
        unfold observedBlockIds
        rw [List.mem_dedup, List.mem_flatMap]
        exact ⟨_, href, mem_observe_iff.2 ⟨p, resolveIdentity_consensusIdentity hp, hsees⟩⟩
      simp [hobs]
    exact if_pos hobserved

end Valid

/-- Creator `1` is the only validator. -/
def oneBond : Bonds := .single ⟨[1]⟩ 1

/-- A signed genesis block. -/
def genesisOnly : Blocklace := (Blocklace.new 0).growBy [sampleBlock (signedId 1 1) []]

/-- The next block of creator `1`. -/
def secondContent : BlockContent := ⟨[5], [sampleId 1 1]⟩

/-- The hashes of the two blocks. -/
def secondCrypto : BlockCrypto :=
  listedCrypto [sampleBlock (signedId 1 1) [], ⟨signedId 2 1, secondContent⟩]

/-- The candidate on a genesis block is valid. -/
theorem candidate_valid_secondContent :
    genesisOnly.validateBlock secondCrypto
      ⟨⟨secondCrypto.blockHash ⟨[1]⟩ secondContent, ⟨[1]⟩, [7]⟩, secondContent⟩ oneBond .strict =
        .valid := by
  have hstored : ∀ c, genesisOnly.Stores c → c = sampleBlock (signedId 1 1) [] := by
    intro c hc
    have hall : ∀ entry ∈ genesisOnly.blocks.entries,
        (⟨entry.1, entry.2⟩ : Block) = sampleBlock (signedId 1 1) [] := by decide +kernel
    exact hall ⟨c.identity, c.content⟩ (mem_entries_iff.2 hc)
  have hbuild : genesisOnly.buildBlockCandidateWithMode oneBond [5] .strict =
      .ok secondContent := by decide +kernel
  refine candidate_valid (fun c hc => ?_) ⟨fun h => h.val, fun c hc => ?_⟩ (by decide)
    (by decide +kernel) hbuild rfl
  · rw [hstored c hc]
    decide +kernel
  · obtain hc | rfl := hc
    · rw [hstored c hc]
      decide +kernel
    · decide +kernel

/-- Two blocks of creator `1` under hashes that are not theirs; the first carries
the hash of the next candidate. -/
def relabelledBase : Blocklace :=
  (Blocklace.new 0).growBy [sampleBlock (signedId 5 1) [],
    sampleBlock (signedId 1 1) [signedId 5 1]]

/-- The candidate on them. -/
def relabelledContent : BlockContent := ⟨[], [sampleId 1 1]⟩

/-- The hashes of the candidate, the first block and the second. -/
def relabelledCrypto : BlockCrypto :=
  listedCrypto [⟨sampleId 5 1, relabelledContent⟩, sampleBlock (sampleId 2 1) [],
    sampleBlock (sampleId 3 1) [signedId 5 1]]

/-- **Over a block with a wrong hash a candidate can be invalid:** it collides with
the stored block that carries its hash. -/
theorem candidate_collides_with_relabelled :
    ∃ (crypto : BlockCrypto) (B : Blocklace) (bonds : Bonds) (v : NodeId) (stake : U64)
        (payload signature : List Byte) (mode : PredecessorSelectionMode) (content : BlockContent),
      B.isClosed = true ∧ B.checkpoint = none ∧ v ∉ B.findEquivacators ∧
      bonds.table.lookup v = some stake ∧ 0 < stake ∧
      B.buildBlockCandidateWithMode bonds payload mode = .ok content ∧
      crypto.verify (crypto.blockHash v content) v.bytes signature = true ∧
      B.validateBlock crypto ⟨⟨crypto.blockHash v content, v, signature⟩, content⟩ bonds .strict =
        .invalid [.identityCollision (signedId 5 1)] :=
  ⟨relabelledCrypto, relabelledBase, oneBond, ⟨[1]⟩, 1, [], [8], .compatibility, relabelledContent,
    by decide +kernel, by decide +kernel, by decide +kernel, by decide +kernel, by decide +kernel,
    by decide +kernel, rfl, by decide +kernel⟩

end Blocklace

/-! ### The weighted threshold -/

/-- Terms of less than `m` reach every value of the sum within `m`: some first terms
add up to `t` or more and to less than `t + m`. -/
theorem exists_take_sum {m : ℕ} : ∀ {l : List ℕ} {t : ℕ}, (∀ w ∈ l, w < m) → 0 < m → t ≤ l.sum →
    ∃ k, t ≤ (l.take k).sum ∧ (l.take k).sum < t + m
  | [], t, _, hm, ht => ⟨0, by simpa using ht, by simp; omega⟩
  | w :: l, t, hl, hm, ht => by
      have hw := hl w (List.mem_cons_self ..)
      rw [List.sum_cons] at ht
      rcases Nat.eq_zero_or_pos t with rfl | hpos
      · exact ⟨0, le_rfl, by simpa using hm⟩
      rcases Nat.lt_or_ge w t with hlt | hge
      · obtain ⟨k, hle, hlt⟩ := exists_take_sum (t := t - w)
          (fun x hx => hl x (List.mem_cons_of_mem _ hx)) hm (by omega)
        refine ⟨k + 1, ?_, ?_⟩ <;> rw [List.take_succ_cons, List.sum_cons] <;> omega
      · exact ⟨1, by simpa using hge, by simp; omega⟩

/-- The test of the stake predicate, as one comparison. -/
theorem isWeightedSupermajority_iff {creators : List NodeId} (hnd : creators.Nodup)
    (bonds : Bonds) :
    isWeightedSupermajority creators bonds = true ↔
      2 * bonds.total / 3 + 1 ≤ (creators.map bonds.weight).sum := by
  have hset : {c | c ∈ creators} = (creators.toFinset : Set NodeId) := by
    ext c
    simp
  unfold isWeightedSupermajority
  rw [isWeightedSupermajoritySnapshot_iff hnd, hset]
  show (Quorum.stake bonds.weight bonds.total).holds _ ↔ _
  have hsum : ∑ c ∈ creators.toFinset, bonds.weight c = (creators.map bonds.weight).sum :=
    List.sum_toFinset _ hnd
  rw [Quorum.stake_coe, hsum]
  omega

/-- A stake is a `u64`. -/
theorem Bonds.weight_lt (bonds : Bonds) (node : NodeId) : bonds.weight node < 2 ^ 64 := by
  unfold weight
  split
  · next w _ => exact w.isLt
  · norm_num

/-- **The two stake tests agree on every set of validators of the table exactly where
the threshold fits in 64 bits.** -/
theorem weighted_tests_agree_iff (bonds : Bonds) (hpos : 0 < bonds.total) :
    (∀ creators : List NodeId, creators.Nodup → (∀ c ∈ creators, c ∈ bonds.table) →
      (isWeightedSupermajority creators bonds = true ↔
        weightedRequiredAcknowledgements bonds ≤ (creators.map bonds.weight).sum)) ↔
      2 * bonds.total / 3 + 1 < 2 ^ 64 := by
  have hrequired : weightedRequiredAcknowledgements bonds = (2 * bonds.total / 3 + 1) % 2 ^ 64 :=
    if_neg hpos.ne'
  constructor
  · intro hagree
    by_contra hge
    -- the first validators whose stake reaches the cast threshold stay below the real one
    obtain ⟨k, hle, hlt⟩ := exists_take_sum (m := 2 ^ 64) (l := bonds.table.keys.map bonds.weight)
      (t := weightedRequiredAcknowledgements bonds)
      (by
        intro w hw
        obtain ⟨c, -, rfl⟩ := List.mem_map.1 hw
        exact bonds.weight_lt c) (by norm_num) (by
        rw [bonds.sum_keys]
        omega)
    rw [← List.map_take] at hle hlt
    have hnd : (bonds.table.keys.take k).Nodup :=
      List.Nodup.sublist (List.take_sublist _ _) bonds.table.nodupKeys
    have hquorum := (hagree _ hnd fun c hc =>
      AList.mem_keys.2 (List.mem_of_mem_take hc)).2 hle
    rw [isWeightedSupermajority_iff hnd] at hquorum
    omega
  · intro hfits creators hnd _
    rw [isWeightedSupermajority_iff hnd, hrequired, Nat.mod_eq_of_lt hfits]

/-- Three validators with the largest stake each. -/
def fullBonds : Bonds where
  table := ((AList.singleton ⟨[1]⟩ (2 ^ 64 - 1)).insert ⟨[2]⟩ (2 ^ 64 - 1)).insert ⟨[3]⟩ (2 ^ 64 - 1)
  entries_lt := by decide

/-- The two tests agree on `threeBonds`. -/
theorem weighted_tests_agree_of_threeBonds :
    0 < Blocklace.threeBonds.total ∧
      ∀ creators : List NodeId, creators.Nodup →
        (∀ c ∈ creators, c ∈ Blocklace.threeBonds.table) →
        (isWeightedSupermajority creators Blocklace.threeBonds = true ↔
          weightedRequiredAcknowledgements Blocklace.threeBonds ≤
            (creators.map Blocklace.threeBonds.weight).sum) :=
  ⟨by decide, (weighted_tests_agree_iff Blocklace.threeBonds (by decide)).2 (by decide)⟩

/-- **One validator of three with equal stakes reaches the cast threshold.** -/
theorem weighted_tests_disagree_over_fullBonds :
    0 < fullBonds.total ∧ ([⟨[1]⟩] : List NodeId).Nodup ∧
      (∀ c ∈ ([⟨[1]⟩] : List NodeId), c ∈ fullBonds.table) ∧
      isWeightedSupermajority [⟨[1]⟩] fullBonds = false ∧
      weightedRequiredAcknowledgements fullBonds ≤ (([⟨[1]⟩] : List NodeId).map fullBonds.weight).sum :=
  ⟨by decide, by decide, by decide, by decide, by decide⟩

end CordialMiners
