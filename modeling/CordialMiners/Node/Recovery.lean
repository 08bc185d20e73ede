/-
# Recovery of the network

What holds once a partition has healed and everything in flight has been delivered.

Any delays, partitions, orders of delivery and duplicates before that are forgotten:
every validator stores exactly the blocks that were broadcast, its buffer is empty, all
validators have the same output, and the safety checks pass (`recovered`).

The pool is empty after the recovery, so a validator has been handed every block that
was sent to it, and the last thing that happened to it is a replay; what it stores then
does not depend on the order (`SimNode.settles_on`), and the output is a function of
what is stored (`Ladder.tau_eq_of_sameBlocks`).
-/

import CordialMiners.Node.NetworkSafety
import CordialMiners.Node.SimRuns
import CordialMiners.Ordering.SameBlocks

namespace CordialMiners

open FinGraph
open SimNode (Event received)

namespace SimNode

variable {crypto : BlockCrypto} {bonds : Bonds} {S : Set Block}

/-- **A node that was handed `S` and replayed its buffer stores `S`**, where `S` has no
equivocations. -/
theorem settles_on (hin : ∀ b ∈ S, b.InOrder crypto bonds) (hcycle : crypto.NoHashCycle S)
    (hclosed : RefsClosed Block.refs Block.NamedBy S) (hchain : ∀ v, ChainIn S v)
    {id : NodeId} {policy : BufferPolicy} {cacheIdentity : ℕ} {events : List Event}
    (hevents : ∀ b, b ∈ received events ↔ b ∈ S) (hflush : Flushed events)
    (hlim : ((SimNode.new id bonds .default policy cacheIdentity).run crypto
      events).pending.LimitsKept) :
    (∀ b, ((SimNode.new id bonds .default policy cacheIdentity).run crypto events).blocklace.Stores b ↔
      b ∈ S) ∧
    BlockMap.toSet ((SimNode.new id bonds .default policy cacheIdentity).run crypto
      events).pending.bufferedBlocks = ∅ := by
  have hS : Deliverable crypto bonds S :=
    ⟨hin, distinctBlocks_of_chainIn (fun b hb => (hin b hb).hash) hcycle hchain, hcycle⟩
  have hinv := deliveryInv_run hS id policy cacheIdentity events fun b hb => (hevents b).1 hb
  have hsettled := settled_run hS id policy cacheIdentity (fun b hb => (hevents b).1 hb) hflush hlim
  have hstores : ∀ b ∈ S, ((SimNode.new id bonds .default policy cacheIdentity).run crypto
      events).blocklace.Stores b := by
    refine fun b hb => hinv.stores_of_unobserved hS hclosed (fun b hb => (hevents b).2 hb) hlim
      hsettled hb fun r hr => ?_
    -- a rejected block would conflict with a stored one
    obtain ⟨hrS, ⟨a, ha, hconf⟩, -⟩ := hinv.rejected r hr
    exact absurd hconf (chainIn_iff.1 (hchain a.identity.creator) a (hinv.lace.mem a ha) r hrS rfl)
  refine ⟨fun b => ⟨hinv.lace.mem b, hstores b⟩, Set.eq_empty_iff_forall_notMem.2 fun x hx => ?_⟩
  exact (hsettled x hx).1 (Blocklace.resolves_iff.2
    ⟨x.identity, (hstores x (hinv.waiting hx)).mem, rfl, Or.inl rfl⟩)

end SimNode

namespace AdversarialNetwork

variable {crypto : BlockCrypto} {bonds : Bonds} {config : ValidationConfig}

/-- A replay flushes every node. -/
theorem flushed_nodeEvents (id : NodeId) (labels : List (Asynchronous.Label NodeId Block Unit)) :
    SimNode.Flushed (nodeEvents id (labels ++ [.tick ()])) := by
  intro b hb
  have hlast : nodeEvents id (labels ++ [.tick ()]) = nodeEvents id labels ++ [.retry] :=
    Asynchronous.events_append
  rw [hlast, List.getLast?_concat] at hb
  exact absurd hb (by simp)

/-- **After a recovery nothing is on its way**, and the last thing that has happened is a
replay of every buffer. -/
theorem recovery_run (crypto : BlockCrypto) (validators : List NodeId) (bonds : Bonds)
    (config : ValidationConfig) (cacheIdentity : NodeId → ℕ) (controls : List Control) :
    let net := (new validators bonds config cacheIdentity).run crypto
      (controls ++ [.heal, .deliverEverything])
    net.inflight = [] ∧ net.severed = [] ∧
    ∃ labels, NetworkRun crypto (new validators bonds config cacheIdentity)
        (labels ++ [.tick ()]) net ∧
      Asynchronous.posted (labels ++ [.tick ()]) = controls.flatMap (Control.sent validators) := by
  obtain ⟨⟨labels, hposted, hrun⟩, -, -⟩ :=
    @run_run crypto (new validators bonds config cacheIdentity) controls
  obtain ⟨⟨healed, hhealed, hheal⟩, -, -⟩ :=
    @control_run crypto ((new validators bonds config cacheIdentity).run crypto controls) .heal
  obtain ⟨delivered, hdelivered, hdeliver, hinflight, hsevered, -, -⟩ :=
    @deliverEverything_spec crypto
      (((new validators bonds config cacheIdentity).run crypto controls).heal)
  unfold run at *
  rw [List.foldl_append]
  refine ⟨hinflight, hsevered, labels ++ healed ++ delivered, ?_, ?_⟩
  · rw [List.append_assoc _ delivered]
    exact (hrun.append hheal).append hdeliver
  · simp only [Asynchronous.posted_append, hposted, hhealed, hdelivered]
    simp [Asynchronous.posted, Control.sent, new]

/-- **Nodes that store the same blocks pass the safety checks**, with one output. -/
theorem checkSafetyOf_of_sameBlocks {net : AdversarialNetwork} {ladder : Ladder}
    {Q : Quorum.Rule NodeId} (hQ : ladder.Decides Q)
    {output : SimNode → Except OrderingError (List BlockIdentity)}
    {leader : SimNode → Option BlockIdentity} {w : ℕ} {ls : LeaderSelection}
    (hcp : ∀ id node, net.nodes.lookup id = some node → node.blocklace.checkpoint = none)
    (hsame : ∀ id id' node node', net.nodes.lookup id = some node →
      net.nodes.lookup id' = some node' → node.blocklace.SameBlocks node'.blocklace)
    (hout : ∀ id node, net.nodes.lookup id = some node → output node = ladder.tau node.blocklace w ls)
    (hleader : ∀ id node, net.nodes.lookup id = some node →
      leader node = ladder.latest node.blocklace w ls) :
    net.checkSafetyOf output leader w = .ok () ∧
      ∃ ordered, ∀ id node, net.nodes.lookup id = some node → output node = .ok ordered := by
  have hsound : ∀ id node, net.nodes.lookup id = some node → Sound output node := fun id node hnode =>
    SimNode.sound_of_checkpoint hQ (hcp id node hnode) (hout id node hnode)
  have houtput : ∀ id id' node node', net.nodes.lookup id = some node →
      net.nodes.lookup id' = some node' → output node' = output node := by
    intro id id' node node' hnode hnode'
    rw [hout id node hnode, hout id' node' hnode']
    exact Ladder.tau_eq_of_sameBlocks hQ (hsame id id' node node' hnode hnode') (hcp id node hnode)
      (hcp id' node' hnode') w ls
  refine ⟨(checkSafetyOf_verdict hsound).1.2 ⟨?_, ?_⟩, ?_⟩
  · intro id id' wave L L' hL hL'
    rw [OrderedMap.lookup_map, Option.map_eq_some_iff] at hL hL'
    obtain ⟨node, hnode, hL⟩ := hL
    obtain ⟨node', hnode', hL'⟩ := hL'
    have hlatest := Ladder.latest_eq_of_sameBlocks hQ (hsame id id' node node' hnode hnode')
      (hcp id node hnode) (hcp id' node' hnode') w ls
    have hsome := leader_of_finalLeaderWave hL
    have hsome' := leader_of_finalLeaderWave hL'
    rw [hleader id node hnode, ← hlatest] at hsome
    rw [hleader id' node' hnode', hsome] at hsome'
    exact Option.some.inj hsome'
  · intro id id' left right hleft hright
    simp only [outputsOf, OrderedMap.lookup_map, Option.map_eq_some_iff] at hleft hright
    obtain ⟨node, hnode, rfl⟩ := hleft
    obtain ⟨node', hnode', rfl⟩ := hright
    rw [houtput id id' node node' hnode hnode']
    exact Or.inl List.prefix_rfl
  · by_cases hnodes : ∃ id node, net.nodes.lookup id = some node
    · obtain ⟨id, node, hnode⟩ := hnodes
      obtain ⟨ordered, hordered, -⟩ := hsound id node hnode
      exact ⟨ordered, fun id' node' hnode' =>
        (houtput id id' node node' hnode hnode').trans hordered⟩
    · exact ⟨[], fun id node hnode => absurd ⟨id, node, hnode⟩ hnodes⟩

/-- **A network that heals converges.**  A set of valid blocks, closed under references
and without equivocations, is broadcast under any schedule; blocks of it are also shown
to anybody.  Once the partition has healed and everything is delivered, every validator
stores exactly the set and waits for nothing, all have one output of each kind, and the
safety checks pass. -/
theorem recovered {S : Set Block} (hin : ∀ b ∈ S, b.InOrder crypto bonds)
    (hcycle : crypto.NoHashCycle S) (hclosed : RefsClosed Block.refs Block.NamedBy S)
    (hchain : ∀ v, ChainIn S v) {validators : List NodeId} {cacheIdentity : NodeId → ℕ}
    {controls : List Control} (hall : ∀ b ∈ S, Control.broadcast b ∈ controls)
    (honly : ∀ msg ∈ controls.flatMap (Control.sent validators), msg.2 ∈ S)
    (hlim : ∀ id node, ((new validators bonds .default cacheIdentity).run crypto
      (controls ++ [.heal, .deliverEverything])).nodes.lookup id = some node →
        node.pending.LimitsKept) :
    let net := (new validators bonds .default cacheIdentity).run crypto
      (controls ++ [.heal, .deliverEverything])
    net.inflightLen = 0 ∧
    (∀ id ∈ validators, ∃ node, net.nodes.lookup id = some node ∧
      (∀ b, node.blocklace.Stores b ↔ b ∈ S) ∧ BlockMap.toSet node.pending.bufferedBlocks = ∅) ∧
    (∀ (params : ConsensusParams) ls, net.checkSafety params ls = .ok () ∧ ∃ ordered,
      ∀ id node, net.nodes.lookup id = some node →
        node.orderedOutput params.wavelength params.n params.f ls = .ok ordered) ∧
    ∀ w ls, net.checkWeightedSafety w ls = .ok () ∧ ∃ ordered,
      ∀ id node, net.nodes.lookup id = some node → node.weightedOrderedOutput w ls = .ok ordered := by
  have hplain := @plain_of_lookup crypto validators bonds .default cacheIdentity rfl
    (controls ++ [.heal, .deliverEverything])
  obtain ⟨hinflight, hsevered, labels, hrun, hposted⟩ :=
    recovery_run crypto validators bonds .default cacheIdentity controls
  generalize (new validators bonds .default cacheIdentity).run crypto
    (controls ++ [.heal, .deliverEverything]) = net at *
  have hlookup := lookup_of_run hrun
  -- a validator has been handed the blocks of `S` and no others
  have hevents : ∀ id ∈ validators, ∀ b,
      b ∈ received (nodeEvents id (labels ++ [.tick ()])) ↔ b ∈ S := by
    intro id hid b
    have hperm := hrun.addressed_perm id
    rw [hposted] at hperm
    simp only [toNetwork, new, hinflight, hsevered, List.append_nil, List.map_nil, List.nil_append,
      Asynchronous.addressed_nil] at hperm
    rw [received_nodeEvents, ← hperm.mem_iff, Asynchronous.mem_addressed]
    constructor
    · exact fun hb => honly (id, b) hb
    · exact fun hb => List.mem_flatMap.2 ⟨.broadcast b, hall b hb, List.mem_map.2 ⟨id, hid, rfl⟩⟩
  have hstored : ∀ id node, net.nodes.lookup id = some node →
      (∀ b, node.blocklace.Stores b ↔ b ∈ S) ∧
        BlockMap.toSet node.pending.bufferedBlocks = ∅ := by
    intro id node hnode
    have hnode' := hlookup id
    rw [hnode] at hnode'
    split_ifs at hnode' with hid
    have heq := Option.some.inj hnode'
    have hkept := hlim id node hnode
    rw [heq] at hkept ⊢
    exact SimNode.settles_on hin hcycle hclosed hchain (hevents id hid)
      (flushed_nodeEvents id labels) hkept
  have hsame : ∀ id id' node node', net.nodes.lookup id = some node →
      net.nodes.lookup id' = some node' → node.blocklace.SameBlocks node'.blocklace := by
    intro id id' node node' hnode hnode'
    exact Blocklace.sameBlocks_of_stores fun b =>
      ((hstored id node hnode).1 b).trans ((hstored id' node' hnode').1 b).symm
  refine ⟨by simp [inflightLen, hinflight, hsevered], fun id hid => ?_, ?_, ?_⟩
  · have hnode := (hlookup id).trans (if_pos hid)
    exact ⟨_, hnode, hstored id _ hnode⟩
  · exact fun params ls => checkSafetyOf_of_sameBlocks (countLadder_decides params.n params.f)
      (fun _ _ hnode => (hplain hnode).checkpoint) hsame (fun _ _ _ => rfl) fun _ _ _ => rfl
  · exact fun w ls => checkSafetyOf_of_sameBlocks (stakeLadder_decides bonds)
      (fun _ _ hnode => (hplain hnode).checkpoint) hsame
      (fun _ _ hnode => by rw [← (hplain hnode).bonds]; rfl)
      fun _ _ hnode => by rw [← (hplain hnode).bonds]; rfl

/-- Two groups, a delay, the children first, and one block shown twice. -/
def partedControls : List Control :=
  [.withDeliveryOrder .reverse, .partition [[⟨[1]⟩], [⟨[2]⟩]], .delayNode ⟨[1]⟩ 3] ++
    SimNode.twoRounds.map Control.broadcast ++
    [.sendTo (Blocklace.sampleBlock (Blocklace.sampleId 1 1) []) [⟨[2]⟩], .settle]

/-- The hypotheses of `recovered` are met by two rounds of blocks sent into a partition. -/
theorem recovered_partedControls :
    ((new [⟨[1]⟩, ⟨[2]⟩] Blocklace.threeBonds .default fun _ => 0).run
      (Blocklace.listedCrypto SimNode.twoRounds)
      (partedControls ++ [.heal, .deliverEverything])).inflightLen = 0 ∧
    ∃ node, ((new [⟨[1]⟩, ⟨[2]⟩] Blocklace.threeBonds .default fun _ => 0).run
      (Blocklace.listedCrypto SimNode.twoRounds)
      (partedControls ++ [.heal, .deliverEverything])).nodes.lookup ⟨[2]⟩ = some node ∧
      (∀ b, node.blocklace.Stores b ↔ b ∈ {b | b ∈ SimNode.twoRounds}) ∧
      BlockMap.toSet node.pending.bufferedBlocks = ∅ := by
  have hlim : ∀ entry ∈ ((new [⟨[1]⟩, ⟨[2]⟩] Blocklace.threeBonds .default fun _ => 0).run
      (Blocklace.listedCrypto SimNode.twoRounds)
      (partedControls ++ [.heal, .deliverEverything])).nodes.entries,
      entry.2.pending.LimitsKept := by decide +kernel
  have hall : ∀ b ∈ SimNode.twoRounds, Control.broadcast b ∈ partedControls := by decide +kernel
  have honly : ∀ msg ∈ partedControls.flatMap (Control.sent [⟨[1]⟩, ⟨[2]⟩]),
      msg.2 ∈ SimNode.twoRounds := by decide +kernel
  obtain ⟨horder, hcycle, hclosed, hchain⟩ := SimNode.twoRounds_valid
  obtain ⟨hempty, hnodes, -⟩ := @recovered (Blocklace.listedCrypto SimNode.twoRounds)
    Blocklace.threeBonds {b | b ∈ SimNode.twoRounds} horder hcycle hclosed hchain
    [⟨[1]⟩, ⟨[2]⟩] (fun _ => 0) partedControls hall honly
    (fun id node hnode => hlim _ (OrderedMap.mem_entries_iff.2 hnode))
  exact ⟨hempty, hnodes ⟨[2]⟩ (by decide)⟩

end AdversarialNetwork

end CordialMiners
