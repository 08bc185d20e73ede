/-
# Safety of the adversarial network

What the safety checks can find in a run, whatever the adversary does.

A node never has a checkpoint (`plain_run`), and where no identity is sent with two
contents, its references close no cycle (`fed_run`).  Its output lists no block twice and
no block before one it references (`Ladder.tau_direct`): the checks of a single node
always pass, and a verdict is about pairs of nodes (`checkSafety_verdict`).

Two views that are parts of one blocklace have the same final leader for a wave where
two quorums share a creator that does not equivocate (`FinalLeader.agree`).  Within the
fault bounds of the two quorum rules this leaves divergence as the only violation that
can be reported (`safety_violations_within_bounds`).
-/

import CordialMiners.Core.Agreement
import CordialMiners.Node.NetworkRuns
import CordialMiners.Node.SafetyChecks
import CordialMiners.Ordering.DirectOrder

namespace CordialMiners

open FinGraph Relation
open Blocklace (AdmitRun)

/-! ### One node -/

theorem Blocklace.AdmitRun.checkpoint_eq {crypto : BlockCrypto} {bonds : Bonds}
    {config : ValidationConfig} {allowed : Set Block} {B B' : Blocklace}
    (hclosure : config.checkClosure = true) (h : AdmitRun crypto bonds config allowed B B') :
    B'.checkpoint = B.checkpoint := by
  induction h with
  | refl => rfl
  | store _ _ hadm ih => exact (hadm.inserted hclosure).checkpoint.trans ih

/-- No identity stands for two contents in `S`. -/
def OneContent (S : Set Block) : Prop := ∀ a ∈ S, ∀ b ∈ S, a.identity = b.identity → a = b

/-- **Admissions from a set with one content for each identity keep every block on a
round**: none of them replaces the references of a stored block. -/
theorem Blocklace.AdmitRun.layered {crypto : BlockCrypto} {bonds : Bonds}
    {config : ValidationConfig} {S : Set Block} {B B' : Blocklace} (hS : OneContent S)
    (hclosure : config.checkClosure = true) (h : AdmitRun crypto bonds config S B B')
    (hcp : B.checkpoint = none) (hstored : ∀ b, B.Stores b → b ∈ S) (hB : B.Layered) :
    (∀ b, B'.Stores b → b ∈ S) ∧ B'.Layered := by
  induction h with
  | refl => exact ⟨hstored, hB⟩
  | @store B₁ B₂ block run hmem hadm ih =>
      obtain ⟨hstored₁, hB₁⟩ := ih
      have hins := hadm.inserted hclosure
      refine ⟨fun b hb => ?_, hins.layered (fun c hc p => ?_) ((run.checkpoint_eq hclosure).trans hcp)
        hB₁⟩
      · unfold Blocklace.Stores at hb
        rw [hins.blocks] at hb
        by_cases hid : b.identity = block.identity
        · rw [hid, AList.lookup_insert] at hb
          obtain ⟨identity, content⟩ := b
          obtain rfl : identity = block.identity := hid
          obtain rfl := Option.some.inj hb
          exact hmem
        · rw [AList.lookup_insert_ne hid] at hb
          exact hstored₁ b hb
      · rw [← hS ⟨block.identity, c⟩ (hstored₁ _ hc) block hmem rfl]

namespace SimNode

variable {crypto : BlockCrypto} {bonds : Bonds} {config : ValidationConfig} {node : SimNode}
  {S : Set Block}

/-- A node as a run leaves it: its parameters are kept, and it has no checkpoint. -/
structure Plain (bonds : Bonds) (config : ValidationConfig) (node : SimNode) : Prop where
  bonds : node.bonds = bonds
  config : node.validationConfig = config
  checkpoint : node.blocklace.checkpoint = none

theorem Plain.step (hclosure : config.checkClosure = true) (h : Plain bonds config node)
    (event : Event) : Plain bonds config (node.step crypto event) := by
  have hclosure' : node.validationConfig.checkClosure = true := h.config.symm ▸ hclosure
  cases event with
  | receive block =>
      obtain ⟨B', hadm, heq⟩ | ⟨errors, -, ⟨-, missing, heq⟩ | ⟨-, heq⟩⟩ :=
        receiveBlock_cases crypto node block
      · simp only [SimNode.step, heq]
        exact ⟨h.bonds, h.config, (hadm.inserted hclosure').checkpoint.trans h.checkpoint⟩
      · simp only [SimNode.step, heq]
        exact ⟨h.bonds, h.config, h.checkpoint⟩
      · simp only [SimNode.step, heq]
        exact ⟨h.bonds, h.config, h.checkpoint⟩
  | retry =>
      obtain ⟨replayed, rejected, pending', B', -, hrep, -, -, -, -, heq⟩ :=
        retry_cases crypto node hclosure'
      simp only [SimNode.step, heq]
      exact ⟨h.bonds, h.config, (hrep.run.checkpoint_eq hclosure').trans h.checkpoint⟩

theorem plain_run (hclosure : config.checkClosure = true) (id : NodeId) (policy : BufferPolicy)
    (cacheIdentity : ℕ) (events : List Event) :
    Plain bonds config ((SimNode.new id bonds config policy cacheIdentity).run crypto events) := by
  induction events using List.reverseRecOn with
  | nil => exact ⟨rfl, rfl, rfl⟩
  | append_singleton events event ih =>
      rw [run_append]
      exact ih.step hclosure event

/-- A node that was handed blocks of `S`: what it stores and what waits is from there, and
every stored block has a round. -/
structure Fed (S : Set Block) (node : SimNode) : Prop where
  stored : ∀ b, node.blocklace.Stores b → b ∈ S
  waiting : BlockMap.toSet node.pending.bufferedBlocks ⊆ S
  layered : node.blocklace.Layered

theorem Fed.step (hS : OneContent S) (hclosure : config.checkClosure = true)
    (hplain : Plain bonds config node) (h : Fed S node) {event : Event}
    (hevent : ∀ b, event = .receive b → b ∈ S) : Fed S (node.step crypto event) := by
  have hclosure' : node.validationConfig.checkClosure = true := hplain.config.symm ▸ hclosure
  cases event with
  | receive block =>
      have hblock := hevent block rfl
      obtain ⟨B', hadm, heq⟩ | ⟨errors, -, ⟨-, missing, heq⟩ | ⟨-, heq⟩⟩ :=
        receiveBlock_cases crypto node block
      · simp only [SimNode.step, heq]
        obtain ⟨hstored, hlayered⟩ := Blocklace.AdmitRun.layered hS hclosure'
          (.store (.refl _) hblock hadm) hplain.checkpoint h.stored h.layered
        exact ⟨hstored, h.waiting, hlayered⟩
      · simp only [SimNode.step, heq]
        obtain ⟨-, -, hnew, -⟩ := PendingBlockBuffer.bufferBlock_spec node.pending block missing rfl
        refine ⟨h.stored, fun x hx => ?_, h.layered⟩
        obtain hx | rfl := hnew x hx
        · exact h.waiting hx
        · exact hblock
      · simp only [SimNode.step, heq]
        exact ⟨h.stored, h.waiting, h.layered⟩
  | retry =>
      obtain ⟨replayed, rejected, pending', B', -, hrep, hsub, -, -, -, heq⟩ :=
        retry_cases crypto node hclosure'
      simp only [SimNode.step, heq]
      have htaken : BlockMap.toSet (node.pending.takeResolvedPredecessors
          node.blocklace).2.bufferedBlocks ⊆ S := h.waiting
      obtain ⟨hstored, hlayered⟩ := Blocklace.AdmitRun.layered hS hclosure' (hrep.run.mono htaken)
        hplain.checkpoint h.stored h.layered
      exact ⟨hstored, hsub.trans (hrep.subset.trans htaken), hlayered⟩

/-- **A run that hands a node blocks of `S` leaves every stored block on a round.** -/
theorem fed_run (hS : OneContent S) (hclosure : config.checkClosure = true) (id : NodeId)
    (policy : BufferPolicy) (cacheIdentity : ℕ) {events : List Event}
    (hevents : ∀ b ∈ received events, b ∈ S) :
    Fed S ((SimNode.new id bonds config policy cacheIdentity).run crypto events) := by
  induction events using List.reverseRecOn with
  | nil =>
      exact ⟨fun _ hb => absurd hb BlockMap.mem_toSet_empty,
        fun _ hb => absurd hb BlockMap.mem_toSet_empty, Blocklace.layered_new cacheIdentity⟩
  | append_singleton events event ih =>
      rw [received_append] at hevents
      rw [run_append]
      refine (ih fun b hb => hevents b (List.mem_append_left _ hb)).step hS hclosure
        (plain_run hclosure id policy cacheIdentity events) fun b hb => ?_
      subst hb
      exact hevents b (List.mem_append_right _ (by simp [received]))

/-- **The output of a node without a checkpoint passes the checks of a single node.** -/
theorem sound_of_checkpoint {ladder : Ladder} {Q : Quorum.Rule NodeId} (hQ : ladder.Decides Q)
    {output : SimNode → Except OrderingError (List BlockIdentity)} {w : ℕ} {ls : LeaderSelection}
    (hcp : node.blocklace.checkpoint = none) (hout : output node = ladder.tau node.blocklace w ls) :
    AdversarialNetwork.Sound output node := by
  obtain ⟨ordered, htau, hnd, hstored, hpair⟩ := Ladder.tau_direct hQ hcp w ls
  refine ⟨ordered, hout.trans htau, hnd, fun id => (checkCausalClosure_ok_iff hnd).2 ?_⟩
  intro i j y p content hy hp hcontent hmem
  obtain ⟨hi, rfl⟩ := List.getElem?_eq_some_iff.1 hy
  obtain ⟨hj, rfl⟩ := List.getElem?_eq_some_iff.1 hp
  by_contra hlt
  obtain ⟨u, hu, huy⟩ := hstored _ (List.getElem_mem hi)
  obtain ⟨v, hv, hvp⟩ := hstored _ (List.getElem_mem hj)
  have hcu : node.blocklace.blocks.lookup u = some content := by
    have hres : node.blocklace.resolveIdentity (ordered[i]) = some u :=
      Blocklace.resolveIdentity_eq_some_iff.2
        ⟨hu, by rw [← huy, BlockIdentity.consensusIdentity_idem], Or.inr (huy ▸ rfl)⟩
    rwa [Blocklace.content, hres] at hcontent
  have hexp : v ∈ node.blocklace.expand u := by
    rw [Blocklace.expand_of_lookup hcu (by simp [hcp]), List.mem_filterMap]
    exact ⟨_, hmem, Blocklace.resolveIdentity_eq_some_iff.2
      ⟨hv, by rw [← hvp, BlockIdentity.consensusIdentity_idem], Or.inr (hvp ▸ rfl)⟩⟩
  exact List.pairwise_iff_getElem.1 hpair i j hi hj (not_le.1 hlt) ⟨u, hu, v, hexp, huy, hvp⟩

end SimNode

/-! ### Two nodes -/

namespace Blocklace

variable {B B₁ B₂ : Blocklace} {Q : Quorum.Rule NodeId} {w wave : ℕ} {ls : LeaderSelection}
  {L₁ L₂ : BlockIdentity}

/-- **Two parts of a blocklace agree on the final leader of a wave**, where any two
quorums of creators share one that does not equivocate. -/
theorem FinalLeader.agree (h₁ : B₁.SubBlocklace B) (h₂ : B₂.SubBlocklace B)
    (hcp₁ : B₁.checkpoint = none) (hcp₂ : B₂.checkpoint = none)
    (hinter : ∀ {S T : Set NodeId}, Q.holds S → Q.holds T → S ⊆ {c | c ∈ B.allNodes} →
      T ⊆ {c | c ∈ B.allNodes} → ∃ c, c ∈ S ∧ c ∈ T ∧ c ∉ B.findEquivacators)
    (hf₁ : B₁.FinalLeader Q w ls wave L₁) (hf₂ : B₂.FinalLeader Q w ls wave L₂) : L₁ = L₂ := by
  -- the approvers of a final leader, read in the common blocklace
  have hquorum : ∀ {V : Blocklace} {L : BlockIdentity}, V.SubBlocklace B → V.checkpoint = none →
      V.FinalLeader Q w ls wave L → B.uncut.Round L (wave * w) ∧
        Q.holds {c | ∃ y ∈ B.blocks, B.uncut.Approves y L ∧ y.creator = c} := by
    intro V L hV hcp hf
    have hext := hV.extends.uncut
    obtain ⟨x, d, hx, hrat⟩ := hf.exists_ratifier
    refine ⟨hext.round hcp.symm (fun hne => absurd hcp hne) hf.round, Q.mono ?_ hrat⟩
    rintro c ⟨y, hxy, happ, rfl⟩
    obtain ⟨e, -, hy⟩ := hx.of_sees hxy
    exact ⟨y, hext.mem hy.mem, (hext.approves_iff hcp.symm hy).2 happ, rfl⟩
  have hnodes : ∀ L, {c | ∃ y ∈ B.blocks, B.uncut.Approves y L ∧ y.creator = c} ⊆
      {c | c ∈ B.allNodes} := by
    rintro L c ⟨y, hy, -, rfl⟩
    exact mem_allNodes_iff.2 ⟨y, hy, rfl⟩
  obtain ⟨hr₁, hq₁⟩ := hquorum h₁ hcp₁ hf₁
  obtain ⟨hr₂, hq₂⟩ := hquorum h₂ hcp₂ hf₂
  have hcreator : L₁.creator = L₂.creator :=
    Option.some.inj (hf₁.creator.symm.trans hf₂.creator)
  obtain ⟨c, ⟨y₁, hy₁, happ₁, rfl⟩, ⟨y₂, hy₂, happ₂, hc₂⟩, hgood⟩ :=
    hinter hq₁ hq₂ (hnodes L₁) (hnodes L₂)
  by_contra hne
  rcases sees_or_sees_of_not_equivocator hy₁ hy₂ hc₂.symm hgood with h | h
  · exact not_approves_of_sees_twin hr₂ hr₁ (Ne.symm hne) hcreator.symm
      (h.uncut.trans happ₂.sees) happ₁
  · exact not_approves_of_sees_twin hr₁ hr₂ hne hcreator (h.uncut.trans happ₁.sees) happ₂

/-- Count quorums share an honest creator within the fault bound. -/
theorem count_quorums_meet {n f : ℕ} (hcreators : B.allNodes.length ≤ n)
    (hfaults : B.findEquivacators.length ≤ f) {S T : Set NodeId}
    (hS : (Quorum.count ((n + f) / 2)).holds S) (hT : (Quorum.count ((n + f) / 2)).holds T)
    (hSU : S ⊆ {c | c ∈ B.allNodes}) (hTU : T ⊆ {c | c ∈ B.allNodes}) :
    ∃ c, c ∈ S ∧ c ∈ T ∧ c ∉ B.findEquivacators := by
  have hU : B.allNodes.toFinset.card ≤ n := (List.toFinset_card_le _).trans hcreators
  have hbad : B.findEquivacators.toFinset.card ≤ f := (List.toFinset_card_le _).trans hfaults
  obtain ⟨c, hc, hc', hgood⟩ := @Quorum.count_inter_outside _ _ _ _ _ hS hT
    B.allNodes.toFinset B.findEquivacators.toFinset (by simpa using hSU) (by simpa using hTU)
    (by omega)
  exact ⟨c, hc, hc', by simpa using hgood⟩

/-- Stake quorums share an honest creator while at most a third is at fault. -/
theorem stake_quorums_meet {bonds : Bonds}
    (hfaults : 3 * ∑ c ∈ B.findEquivacators.toFinset, bonds.weight c ≤ bonds.total)
    {S T : Set NodeId} (hS : bonds.rule.holds S) (hT : bonds.rule.holds T) :
    ∃ c, c ∈ S ∧ c ∈ T ∧ c ∉ B.findEquivacators := by
  obtain ⟨c, hc, hc', hgood⟩ := Quorum.stake_inter hS hT bonds.sum_le_total hfaults
  exact ⟨c, hc, hc', by simpa using hgood⟩

end Blocklace

/-- The leader a node reports for a wave is final in its view. -/
theorem finalLeader_of_finalLeaderWave {ladder : Ladder} {Q : Quorum.Rule NodeId}
    (hQ : ladder.Decides Q) {leader : SimNode → Option BlockIdentity} {node : SimNode} {w wave : ℕ}
    {ls : LeaderSelection} {L : BlockIdentity} (hcp : node.blocklace.checkpoint = none)
    (hleader : leader node = ladder.latest node.blocklace w ls)
    (h : finalLeaderWave leader w node = some (wave, L)) :
    node.blocklace.FinalLeader Q w ls wave L := by
  unfold finalLeaderWave at h
  simp only [Option.bind_eq_bind, Option.bind_eq_some_iff, Option.some.injEq, Prod.mk.injEq] at h
  obtain ⟨L', hL', round, hround, wave', hwave', rfl, rfl⟩ := h
  obtain ⟨k, hfinal, -⟩ := (Ladder.latest_iff_finalForWave hQ hcp).1 (hleader.symm.trans hL')
  obtain ⟨-, hf⟩ := (Ladder.finalForWave_iff hQ).1 hfinal
  obtain ⟨hw, rfl⟩ := waveOfRound_eq_some.1 hwave'
  have hk : round = k * w := Option.some.inj (hround.symm.trans hf.round.depth)
  rwa [hk, Nat.mul_div_cancel k hw]

namespace AdversarialNetwork

variable {crypto : BlockCrypto} {validators : List NodeId} {bonds : Bonds}
  {config : ValidationConfig} {cacheIdentity : NodeId → ℕ}

/-- Every node of a run is plain. -/
theorem plain_of_lookup (hclosure : config.checkClosure = true) {controls : List Control}
    {id : NodeId} {node : SimNode}
    (h : ((new validators bonds config cacheIdentity).run crypto controls).nodes.lookup id =
      some node) : SimNode.Plain bonds config node := by
  obtain ⟨⟨labels, -, hrun⟩, -, -⟩ := @run_run crypto (new validators bonds config cacheIdentity)
    controls
  rw [lookup_of_run hrun id] at h
  split_ifs at h
  rw [← Option.some.inj h]
  exact SimNode.plain_run hclosure id .default (cacheIdentity id) (nodeEvents id labels)

/-- The blocks that the controls put into the network. -/
def sentBlocks (validators : List NodeId) (controls : List Control) : Set Block :=
  {b | ∃ id, (id, b) ∈ controls.flatMap (Control.sent validators)}

/-- Every node of a run is fed with what is sent. -/
theorem fed_of_lookup (hclosure : config.checkClosure = true) {controls : List Control}
    (hone : OneContent (sentBlocks validators controls)) {id : NodeId} {node : SimNode}
    (h : ((new validators bonds config cacheIdentity).run crypto controls).nodes.lookup id =
      some node) : SimNode.Fed (sentBlocks validators controls) node := by
  obtain ⟨⟨labels, hposted, hrun⟩, -, -⟩ :=
    @run_run crypto (new validators bonds config cacheIdentity) controls
  rw [lookup_of_run hrun id] at h
  split_ifs at h
  rw [← Option.some.inj h]
  refine SimNode.fed_run hone hclosure id .default (cacheIdentity id) fun b hb => ?_
  rw [received_nodeEvents] at hb
  have hperm := hrun.addressed_perm id
  have hposts := hperm.mem_iff.2 (List.mem_append_left _ hb)
  rw [hposted] at hposts
  exact ⟨id, Asynchronous.mem_addressed.1 (by simpa [toNetwork, new] using hposts)⟩

/-- The count-based output of a plain node is sound. -/
theorem sound_orderedOutput {node : SimNode} (h : SimNode.Plain bonds config node)
    (params : ConsensusParams) (ls : LeaderSelection) :
    Sound (fun node => node.orderedOutput params.wavelength params.n params.f ls) node :=
  SimNode.sound_of_checkpoint (countLadder_decides params.n params.f) h.checkpoint rfl

/-- The weighted output of a plain node is sound. -/
theorem sound_weightedOrderedOutput {node : SimNode} (h : SimNode.Plain bonds config node) (w : ℕ)
    (ls : LeaderSelection) : Sound (fun node => node.weightedOrderedOutput w ls) node :=
  SimNode.sound_of_checkpoint (stakeLadder_decides node.bonds) h.checkpoint rfl

/-- **What a safety check says in a run.**  Where no identity is sent with two contents,
references close no cycle in any node, so every block has a depth and the check returns.
It passes exactly when the final leaders agree wave by wave and any two outputs extend one
another; otherwise it names a conflict between two nodes, never a fault of one output. -/
theorem checkSafety_verdict (crypto : BlockCrypto) (hclosure : config.checkClosure = true)
    (validators : List NodeId) (bonds : Bonds) (cacheIdentity : NodeId → ℕ)
    (controls : List Control) (hone : OneContent (sentBlocks validators controls))
    (params : ConsensusParams) (ls : LeaderSelection) :
    let net := (new validators bonds config cacheIdentity).run crypto controls
    (∀ id node, net.nodes.lookup id = some node →
      ∀ a ∈ node.blocklace.blocks, ∃ d, node.blocklace.depth a = some d) ∧
    (net.checkSafety params ls = .ok () ↔
      LeadersAgree (net.nodes.map (finalLeaderWave
        (fun node => node.latestFinalLeader params.wavelength params.n params.f ls)
        params.wavelength)) ∧
      ∀ id id' left right, (net.allOrderedOutputs params ls).lookup id = some left →
        (net.allOrderedOutputs params ls).lookup id' = some right →
          left <+: right ∨ right <+: left) ∧
    ∀ violation, net.checkSafety params ls = .error violation →
      (∃ left right index, violation = .divergence left right index) ∨
      ∃ left right L L', violation = .conflictingFinalLeaders left right L L' := by
  refine ⟨fun id node hnode a ha => ?_, checkSafetyOf_verdict fun _ _ hnode =>
    sound_orderedOutput (plain_of_lookup hclosure hnode) params ls⟩
  obtain ⟨d, hd⟩ := (fed_of_lookup hclosure hone hnode).layered a ha
  exact ⟨d, hd.depth⟩

/-- **Within the fault bounds only divergence can be reported.**  The views of the
nodes are parts of one blocklace; at most `f` of its at most `n` creators equivocate,
or equivocators hold at most a third of the stake. -/
theorem safety_violations_within_bounds (crypto : BlockCrypto)
    (hclosure : config.checkClosure = true) (validators : List NodeId) (bonds : Bonds)
    (cacheIdentity : NodeId → ℕ) (controls : List Control) {B : Blocklace}
    (hviews : ∀ id node, ((new validators bonds config cacheIdentity).run crypto
      controls).nodes.lookup id = some node → node.blocklace.SubBlocklace B) :
    (∀ (params : ConsensusParams) ls violation, B.allNodes.length ≤ params.n →
      B.findEquivacators.length ≤ params.f →
      ((new validators bonds config cacheIdentity).run crypto controls).checkSafety params ls =
        .error violation → ∃ left right index, violation = .divergence left right index) ∧
    ∀ w ls violation,
      3 * ∑ c ∈ B.findEquivacators.toFinset, bonds.weight c ≤ bonds.total →
      ((new validators bonds config cacheIdentity).run crypto controls).checkWeightedSafety w ls =
        .error violation → ∃ left right index, violation = .divergence left right index := by
  have hplain := @plain_of_lookup crypto validators bonds config cacheIdentity hclosure controls
  generalize (new validators bonds config cacheIdentity).run crypto controls = net at *
  -- a reported leader is final in the view of its node
  have hagree : ∀ {ladder : Ladder} {Q : Quorum.Rule NodeId} {w : ℕ} {ls : LeaderSelection}
      {leader : SimNode → Option BlockIdentity}, ladder.Decides Q →
      (∀ id node, net.nodes.lookup id = some node → leader node = ladder.latest node.blocklace w ls) →
      (∀ {S T : Set NodeId}, Q.holds S → Q.holds T → S ⊆ {c | c ∈ B.allNodes} →
        T ⊆ {c | c ∈ B.allNodes} → ∃ c, c ∈ S ∧ c ∈ T ∧ c ∉ B.findEquivacators) →
      LeadersAgree (net.nodes.map (finalLeaderWave leader w)) := by
    intro ladder Q w ls leader hQ hleader hinter id id' wave L L' hL hL'
    rw [OrderedMap.lookup_map, Option.map_eq_some_iff] at hL hL'
    obtain ⟨node, hnode, hL⟩ := hL
    obtain ⟨node', hnode', hL'⟩ := hL'
    have hf := finalLeader_of_finalLeaderWave hQ (hplain hnode).checkpoint (hleader id node hnode) hL
    have hf' := finalLeader_of_finalLeaderWave hQ (hplain hnode').checkpoint
      (hleader id' node' hnode') hL'
    exact Blocklace.FinalLeader.agree (hviews id node hnode) (hviews id' node' hnode')
      (hplain hnode).checkpoint (hplain hnode').checkpoint hinter hf hf'
  have honly : ∀ {output leader w violation},
      (∀ id node, net.nodes.lookup id = some node → Sound output node) →
      LeadersAgree (net.nodes.map (finalLeaderWave leader w)) →
      net.checkSafetyOf output leader w = .error violation →
      ∃ left right index, violation = .divergence left right index := by
    intro output leader w violation hsound hleaders h
    rw [checkSafetyOf_eq hsound, checkLeaderAgreement_ok_iff.2 hleaders] at h
    exact checkPrefixConsistency_error h
  refine ⟨fun params ls violation hcreators hfaults h => ?_, fun w ls violation hfaults h => ?_⟩
  · exact honly (fun _ _ hnode => sound_orderedOutput (hplain hnode) params ls)
      (hagree (countLadder_decides params.n params.f) (fun _ _ _ => rfl)
        (Blocklace.count_quorums_meet hcreators hfaults)) h
  · exact honly (fun _ _ hnode => sound_weightedOrderedOutput (hplain hnode) w ls)
      (hagree (stakeLadder_decides bonds) (fun _ _ hnode => by rw [← (hplain hnode).bonds]; rfl)
        fun hS hT _ _ => Blocklace.stake_quorums_meet hfaults hS hT) h

/-- Two genesis blocks of creator `1`. -/
def equivocatingPair : List Block :=
  [⟨Blocklace.sampleId 1 1, [1], []⟩, ⟨Blocklace.sampleId 2 1, [2], []⟩]

/-- An equivocator shows one branch to each of two validators. -/
def shownApart : List Control :=
  [.sendTo ⟨Blocklace.sampleId 1 1, [1], []⟩ [⟨[1]⟩],
    .sendTo ⟨Blocklace.sampleId 2 1, [2], []⟩ [⟨[2]⟩], .settle]

/-- The network after both branches have arrived. -/
def splitNetwork : AdversarialNetwork :=
  (new [⟨[1]⟩, ⟨[2]⟩] Blocklace.threeBonds .default fun _ => 0).run
    (Blocklace.listedCrypto equivocatingPair) shownApart

/-- Each of the two validators stores a branch. -/
theorem splitNetwork_views : ∀ id node, splitNetwork.nodes.lookup id = some node →
    node.blocklace.SubBlocklace ((Blocklace.new 0).growBy equivocatingPair) := by
  have hall : ∀ entry ∈ splitNetwork.nodes.entries, ∀ b ∈ equivocatingPair,
      ∀ c ∈ entry.2.blocklace.blocks.lookup b.identity,
        ((Blocklace.new 0).growBy equivocatingPair).blocks.lookup b.identity = some c := by
    decide +kernel
  have hids : ∀ entry ∈ splitNetwork.nodes.entries, ∀ a ∈ entry.2.blocklace.blocks.keys,
      ∃ b ∈ equivocatingPair, b.identity = a := by decide +kernel
  intro id node hnode a c hc
  have hentry := OrderedMap.mem_entries_iff.2 hnode
  obtain ⟨b, hb, rfl⟩ := hids _ hentry a (AList.mem_keys.1 (Blocklace.mem_of_lookup hc))
  exact hall _ hentry b hb c hc

/-- The fault bound is exceeded, and the two validators are found to name different
leaders. -/
theorem checkSafety_verdict_split : ∃ violation,
    splitNetwork.checkSafety ⟨1, 1, 0⟩ Blocklace.firstLeader = .error violation ∧
      ((∃ left right index, violation = .divergence left right index) ∨
        ∃ left right L L', violation = .conflictingFinalLeaders left right L L') := by
  have hfound : splitNetwork.checkSafety ⟨1, 1, 0⟩ Blocklace.firstLeader = .error
      (.conflictingFinalLeaders ⟨[1]⟩ ⟨[2]⟩ (Blocklace.sampleId 1 1)
        (Blocklace.sampleId 2 1)) := by decide +kernel
  have hsent : ∀ msg ∈ shownApart.flatMap (Control.sent [⟨[1]⟩, ⟨[2]⟩]),
      ∀ msg' ∈ shownApart.flatMap (Control.sent [⟨[1]⟩, ⟨[2]⟩]),
        msg.2.identity = msg'.2.identity → msg.2 = msg'.2 := by decide +kernel
  have hone : OneContent (sentBlocks [⟨[1]⟩, ⟨[2]⟩] shownApart) := by
    rintro a ⟨id, ha⟩ b ⟨id', hb⟩ hab
    exact hsent (id, a) ha (id', b) hb hab
  exact ⟨_, hfound, (checkSafety_verdict (Blocklace.listedCrypto equivocatingPair)
    (show ValidationConfig.default.checkClosure = true from rfl) [⟨[1]⟩, ⟨[2]⟩]
    Blocklace.threeBonds (fun _ => 0) shownApart hone ⟨1, 1, 0⟩
    Blocklace.firstLeader).2.2 _ hfound⟩

/-- One of three creators equivocates, and no conflict of leaders can be reported. -/
theorem safety_violations_within_bounds_split :
    ((Blocklace.new 0).growBy equivocatingPair).findEquivacators.length = 1 ∧
      ∀ ls violation, splitNetwork.checkSafety ⟨1, 3, 1⟩ ls = .error violation →
        ∃ left right index, violation = .divergence left right index := by
  refine ⟨by decide +kernel, fun ls violation h => ?_⟩
  exact (safety_violations_within_bounds (Blocklace.listedCrypto equivocatingPair)
    (show ValidationConfig.default.checkClosure = true from rfl) [⟨[1]⟩, ⟨[2]⟩]
    Blocklace.threeBonds (fun _ => 0) shownApart splitNetwork_views).1 ⟨1, 3, 1⟩ ls violation
    (by decide +kernel) (by decide +kernel) h

end AdversarialNetwork

end CordialMiners
