/-
# Runs of the adversarial network

What any run of the adversary does to the validators.

Every control is a run of the asynchronous network behind the scheduler
(`control_run`): a broadcast posts, a batch is a part of the pool in some order, and
a retry is a local step of every node.  So each validator is where its own events
have brought it, and every block sent to it was handed to it exactly once, is in
flight, or is held back by a partition that has not healed (`messages_conserved`).

The loop of `settle` ends, and no message that is due is left (`settle_spec`).  After
the partition heals, `deliverEverything` empties the pool, and the last thing that
happens to a node is a replay of its buffer (`deliverEverything_spec`).
-/

import CordialMiners.Node.AdversarialNetwork

namespace CordialMiners

open SimNode (Event received)
open Asynchronous (addressed posted consumed)

/-- What the network carries: a recipient and a block. -/
def InFlight.envelope (msg : InFlight) : NodeId × Block := (msg.recipient, msg.block)

namespace AdversarialNetwork

variable {crypto : BlockCrypto} {net net' : AdversarialNetwork} {block : Block} {id : NodeId}
  {recipients : List NodeId}

/-- The asynchronous network behind the scheduler. -/
def toNetwork (net : AdversarialNetwork) : Asynchronous.Network NodeId SimNode Block where
  party := net.nodes.lookup
  pool := (net.inflight ++ net.severed).map InFlight.envelope

/-- A run of the network behind the scheduler. -/
abbrev NetworkRun (crypto : BlockCrypto) (net : AdversarialNetwork)
    (labels : List (Asynchronous.Label NodeId Block Unit)) (net' : AdversarialNetwork) : Prop :=
  Asynchronous.Run (SimNode.step crypto) Event.receive (fun _ => .retry) net.toNetwork labels net'.toNetwork

/-- The messages that a control puts into the network. -/
def Control.sent (validators : List NodeId) : Control → List (NodeId × Block)
  | .broadcast block => validators.map fun id => (id, block)
  | .sendTo block recipients => recipients.map fun id => (id, block)
  | _ => []

/-! ### Sending -/

/-- Messages have been queued, and nothing else has changed for the nodes. -/
structure Queued (msgs : List (NodeId × Block)) (net net' : AdversarialNetwork) : Prop where
  nodes : net'.nodes = net.nodes
  validators : net'.validators = net.validators
  groups : net'.groups = net.groups
  pool : net'.toNetwork.pool.Perm (net.toNetwork.pool ++ msgs)
  held : net.groups = none → net'.severed = net.severed

theorem Queued.refl (net : AdversarialNetwork) : Queued [] net net :=
  ⟨rfl, rfl, rfl, by rw [List.append_nil], fun _ => rfl⟩

theorem Queued.trans {net'' : AdversarialNetwork} {msgs msgs' : List (NodeId × Block)}
    (h : Queued msgs net net') (h' : Queued msgs' net' net'') :
    Queued (msgs ++ msgs') net net'' where
  nodes := h'.nodes.trans h.nodes
  validators := h'.validators.trans h.validators
  groups := h'.groups.trans h.groups
  pool := by
    rw [← List.append_assoc]
    exact h'.pool.trans (h.pool.append_right msgs')
  held hnone := (h'.held (h.groups.trans hnone)).trans (h.held hnone)

theorem queued_broadcastTo (net : AdversarialNetwork) (block : Block) (recipient : NodeId) :
    Queued [(recipient, block)] net (broadcastTo block net recipient) := by
  unfold broadcastTo
  simp only
  split_ifs with hreach
  · refine ⟨rfl, rfl, rfl, ?_, fun _ => rfl⟩
    simp only [toNetwork, List.map_append, List.map_cons, List.map_nil, InFlight.envelope,
      List.append_assoc]
    exact List.perm_append_comm.append_left _
  · refine ⟨rfl, rfl, rfl, ?_, fun hnone => ?_⟩
    · simp [toNetwork, InFlight.envelope]
    · -- without a partition everybody is reachable
      exact absurd (Or.inr (by simp [connected, hnone])) hreach

theorem queued_broadcast (net : AdversarialNetwork) (block : Block) :
    Queued (net.validators.map fun id => (id, block)) net (net.broadcast block) := by
  unfold broadcast
  generalize net.validators = recipients
  induction recipients generalizing net with
  | nil => exact .refl net
  | cons recipient recipients ih => exact (queued_broadcastTo net block recipient).trans (ih _)

theorem queued_sendToOne (net : AdversarialNetwork) (block : Block) (recipient : NodeId) :
    Queued [(recipient, block)] net (sendToOne block net recipient) := by
  refine ⟨rfl, rfl, rfl, ?_, fun _ => rfl⟩
  simp only [toNetwork, sendToOne, List.map_append, List.map_cons, List.map_nil,
    InFlight.envelope, List.append_assoc]
  exact List.perm_append_comm.append_left _

theorem queued_sendTo (net : AdversarialNetwork) (block : Block) (recipients : List NodeId) :
    Queued (recipients.map fun id => (id, block)) net (net.sendTo block recipients) := by
  unfold sendTo
  induction recipients generalizing net with
  | nil => exact .refl net
  | cons recipient recipients ih => exact (queued_sendToOne net block recipient).trans (ih _)

theorem Queued.run {msgs : List (NodeId × Block)} (h : Queued msgs net net') :
    NetworkRun crypto net [.post msgs] net' :=
  .single (.post (congrArg OrderedMap.lookup h.nodes) h.pool)

/-! ### Delivering -/

theorem arrange_perm (net : AdversarialNetwork) (eligible : List InFlight) :
    (net.arrange eligible).1.Perm eligible := by
  have hsort := List.perm_insertionSort (fun a b : InFlight => a.seq ≤ b.seq) eligible
  unfold arrange
  cases net.order with
  | fifo => exact hsort
  | reverse => exact (List.reverse_perm _).trans hsort
  | shuffled => exact (Rng.shuffle_perm _ _).trans hsort

/-- The messages of a batch, in the order of delivery. -/
def batchOf (net : AdversarialNetwork) : List (NodeId × Block) :=
  (net.arrange (net.inflight.filter fun msg => msg.releaseStep ≤ net.step)).1.map InFlight.envelope

/-- **A batch is the part of the pool that is due.** -/
theorem deliverReady_run (net : AdversarialNetwork) :
    NetworkRun crypto net [.deliver net.batchOf] (net.deliverReady crypto).2 := by
  refine .single (.deliver (fun id => ?_) ?_)
  · refine Asynchronous.lookup_deliverAll.trans ?_
    simp only [List.foldl_map]
    rfl
  · have hdue := (net.arrange_perm
      (net.inflight.filter fun msg => msg.releaseStep ≤ net.step)).map InFlight.envelope
    have hsplit := List.filter_append_perm (fun msg : InFlight => decide (msg.releaseStep ≤ net.step))
      net.inflight
    have hpool := (hsplit.symm.map InFlight.envelope).append_right
      (net.severed.map InFlight.envelope)
    simp only [List.map_append, List.append_assoc] at hpool
    simp only [toNetwork, deliverReady, batchOf, List.map_append]
    refine hpool.trans ((hdue.symm.append_right _).trans ?_)
    simp only [decide_not]
    exact .refl _

theorem retryAllBuffers_run (net : AdversarialNetwork) :
    NetworkRun crypto net [.tick ()] (net.retryAllBuffers crypto) :=
  .single (.tick (fun _ => OrderedMap.lookup_map) rfl)

/-! ### Settling -/

/-- One pass of the scheduler: a batch, then every buffer. -/
def pass (crypto : BlockCrypto) (net : AdversarialNetwork) : AdversarialNetwork :=
  (net.deliverReady crypto).2.retryAllBuffers crypto

theorem pass_run (net : AdversarialNetwork) :
    NetworkRun crypto net [.deliver net.batchOf, .tick ()] (net.pass crypto) :=
  (deliverReady_run net).append (retryAllBuffers_run _)

/-- What only the scheduler changes. -/
structure Settles (net net' : AdversarialNetwork) : Prop where
  inflight : net'.inflight = net.inflight.filter fun msg => ¬ msg.releaseStep ≤ net.step
  severed : net'.severed = net.severed
  groups : net'.groups = net.groups
  validators : net'.validators = net.validators
  step : net'.step = net.step

theorem pass_settles (net : AdversarialNetwork) : Settles net (net.pass crypto) :=
  ⟨rfl, rfl, rfl, rfl, rfl⟩

theorem Settles.trans {net'' : AdversarialNetwork} (h : Settles net net') (h' : Settles net' net'') :
    Settles net net'' where
  inflight := by
    rw [h'.inflight, h.inflight, h.step, List.filter_filter]
    simp only [Bool.and_self]
  severed := h'.severed.trans h.severed
  groups := h'.groups.trans h.groups
  validators := h'.validators.trans h.validators
  step := h'.step.trans h.step

theorem settleLoop_spec (fuel delivered : ℕ) (net : AdversarialNetwork) :
    ∃ labels, posted labels = [] ∧
      NetworkRun crypto net (labels ++ [.tick ()])
        (settleLoop crypto (fuel + 1) delivered net).2 ∧
      Settles net (settleLoop crypto (fuel + 1) delivered net).2 := by
  have hone : ∃ labels, posted labels = [] ∧
      NetworkRun crypto net (labels ++ [.tick ()]) (net.pass crypto) ∧
      Settles net (net.pass crypto) :=
    ⟨[.deliver net.batchOf], rfl, pass_run net, pass_settles net⟩
  induction fuel generalizing delivered net with
  | zero =>
      rw [settleLoop]
      split_ifs <;> exact hone
  | succ fuel ih =>
      rw [settleLoop]
      split_ifs
      · exact hone
      · obtain ⟨labels, hposted, hrun, hsettles⟩ :=
          ih (delivered + (net.deliverReady crypto).1.length) (net.pass crypto)
            ⟨[.deliver _], rfl, pass_run _, pass_settles _⟩
        refine ⟨[.deliver net.batchOf, .tick ()] ++ labels, ?_, ?_,
          (pass_settles net).trans hsettles⟩
        · rw [Asynchronous.posted_append, hposted]
          rfl
        · rw [List.append_assoc]
          exact (pass_run net).append hrun

/-- **Settling delivers what is due and nothing else**, and ends with a replay of
every buffer. -/
theorem settle_spec (net : AdversarialNetwork) :
    ∃ labels, posted labels = [] ∧
      NetworkRun crypto net (labels ++ [.tick ()]) (net.settle crypto).2 ∧
      Settles net (net.settle crypto).2 :=
  settleLoop_spec net.inflight.length 0 net

/-- A batch that says something takes messages out of flight. -/
theorem length_pass_lt (h : (net.deliverReady crypto).1.length ≠ 0) :
    (net.pass crypto).inflight.length < net.inflight.length := by
  have hle : (net.deliverReady crypto).1.length ≤
      (net.inflight.filter fun msg => msg.releaseStep ≤ net.step).length := by
    refine Asynchronous.length_deliverAll_le.trans ?_
    rw [List.length_map, (arrange_perm net _).length_eq]
  have hsplit := (List.filter_append_perm
    (fun msg : InFlight => decide (msg.releaseStep ≤ net.step)) net.inflight).length_eq
  rw [List.length_append] at hsplit
  have hrest : (net.pass crypto).inflight.length =
      (net.inflight.filter fun msg => !decide (msg.releaseStep ≤ net.step)).length := by
    rw [(pass_settles net).inflight]
    simp only [decide_not]
  omega

/-- **The loop of `settle` ends by itself**: more fuel than messages changes nothing. -/
theorem settleLoop_fuel (delivered : ℕ) {fuel fuel' : ℕ} (hfuel : net.inflight.length < fuel)
    (hfuel' : net.inflight.length < fuel') :
    settleLoop crypto fuel delivered net = settleLoop crypto fuel' delivered net := by
  induction fuel generalizing fuel' delivered net with
  | zero => omega
  | succ fuel ih =>
      obtain _ | fuel' := fuel'
      · omega
      · rw [settleLoop, settleLoop]
        split_ifs with hzero
        · rfl
        · have hlt : (net.pass crypto).inflight.length < net.inflight.length := length_pass_lt hzero
          exact ih _ (show (net.pass crypto).inflight.length < fuel by omega)
            (show (net.pass crypto).inflight.length < fuel' by omega)

/-- **Nothing stays in flight** when the clock jumps past every delay. -/
theorem deliverEverything_spec (net : AdversarialNetwork) :
    ∃ labels, posted labels = [] ∧
      NetworkRun crypto net (labels ++ [.tick ()]) (net.deliverEverything crypto).2 ∧
      (net.deliverEverything crypto).2.inflight = [] ∧
      (net.deliverEverything crypto).2.severed = net.severed ∧
      (net.deliverEverything crypto).2.groups = net.groups ∧
      (net.deliverEverything crypto).2.validators = net.validators := by
  obtain ⟨labels, hposted, hrun, hsettles⟩ := @settle_spec crypto
    { net with
      step := max net.step (((net.inflight.map fun msg => msg.releaseStep).max?).getD net.step) }
  refine ⟨labels, hposted, hrun, hsettles.inflight.trans ?_, hsettles.severed, hsettles.groups,
    hsettles.validators⟩
  rw [List.filter_eq_nil_iff]
  intro msg hmsg
  have hmem : msg.releaseStep ∈ net.inflight.map fun msg => msg.releaseStep :=
    List.mem_map.2 ⟨msg, hmsg, rfl⟩
  obtain ⟨latest, hlatest⟩ : ∃ latest,
      (net.inflight.map fun msg => msg.releaseStep).max? = some latest := by
    rw [← Option.isSome_iff_exists, List.isSome_max?_iff]
    exact List.ne_nil_of_mem hmem
  have hle : msg.releaseStep ≤ latest := (List.max?_eq_some_iff.1 hlatest).2 _ hmem
  simp only [hlatest, Option.getD_some, decide_not, Bool.not_eq_true', decide_eq_false_iff_not,
    not_not]
  exact hle.trans (le_max_right _ _)

/-! ### Runs of the adversary -/

/-- The generator decides nothing but the order of a batch. -/
theorem reseeded (net : AdversarialNetwork) (seed : BitVec 64) (rng : Rng) :
    (∃ labels, posted labels = [] ∧
      NetworkRun crypto net labels { net with seed := seed, rng := rng }) ∧
    ({ net with seed := seed, rng := rng } : AdversarialNetwork).validators = net.validators ∧
    ((net.groups = none → net.severed = []) →
      ({ net with seed := seed, rng := rng } : AdversarialNetwork).groups = none →
      ({ net with seed := seed, rng := rng } : AdversarialNetwork).severed = []) :=
  ⟨⟨[], rfl, .nil _⟩, rfl, fun h => h⟩

/-- **What a control does to the network behind the scheduler.**  Without a partition
nothing is held back. -/
theorem control_run (net : AdversarialNetwork) (control : Control) :
    (∃ labels, posted labels = control.sent net.validators ∧
      NetworkRun crypto net labels (net.control crypto control)) ∧
    (net.control crypto control).validators = net.validators ∧
    ((net.groups = none → net.severed = []) →
      (net.control crypto control).groups = none → (net.control crypto control).severed = []) := by
  have hqueued : ∀ {msgs net'}, Queued msgs net net' → msgs = control.sent net.validators →
      (∃ labels, posted labels = control.sent net.validators ∧ NetworkRun crypto net labels net') ∧
      net'.validators = net.validators ∧
      ((net.groups = none → net.severed = []) → net'.groups = none → net'.severed = []) := by
    rintro msgs net' h rfl
    refine ⟨⟨[.post _], by simp [posted], h.run⟩, h.validators, fun hheld hnone => ?_⟩
    rw [h.groups] at hnone
    rw [h.held hnone, hheld hnone]
  cases control with
  | withSeed seed => exact reseeded net seed (.new seed)
  | withDeliveryOrder order => exact ⟨⟨[], rfl, .nil _⟩, rfl, id⟩
  | partition groups => exact ⟨⟨[], rfl, .nil _⟩, rfl, fun _ hnone => absurd hnone (by simp [control, partition])⟩
  | heal =>
      refine ⟨⟨[.post []], rfl, .single (.post rfl ?_)⟩, rfl, fun _ _ => rfl⟩
      simp only [toNetwork, control, heal, List.append_nil, List.map_append, List.map_map]
      exact .refl _
  | delayNode id steps => exact ⟨⟨[], rfl, .nil _⟩, rfl, fun h => h⟩
  | clearDelays => exact ⟨⟨[], rfl, .nil _⟩, rfl, fun h => h⟩
  | broadcast block => exact hqueued (queued_broadcast net block) rfl
  | sendTo block recipients => exact hqueued (queued_sendTo net block recipients) rfl
  | deliverReady => exact ⟨⟨_, rfl, deliverReady_run net⟩, rfl, fun h => h⟩
  | retryAllBuffers => exact ⟨⟨_, rfl, retryAllBuffers_run net⟩, rfl, fun h => h⟩
  | advance steps => exact ⟨⟨[], rfl, .nil _⟩, rfl, fun h => h⟩
  | settle =>
      obtain ⟨labels, hposted, hrun, hsettles⟩ := @settle_spec crypto net
      refine ⟨⟨_, ?_, hrun⟩, hsettles.validators, fun hheld hnone => ?_⟩
      · rw [Asynchronous.posted_append, hposted]
        rfl
      · exact hsettles.severed.trans (hheld (hsettles.groups.symm.trans hnone))
  | deliverEverything =>
      obtain ⟨labels, hposted, hrun, -, hsevered, hgroups, hvalidators⟩ :=
        @deliverEverything_spec crypto net
      refine ⟨⟨_, ?_, hrun⟩, hvalidators, fun hheld hnone => ?_⟩
      · rw [Asynchronous.posted_append, hposted]
        rfl
      · exact hsevered.trans (hheld (hgroups.symm.trans hnone))

theorem run_run (net : AdversarialNetwork) (controls : List Control) :
    (∃ labels, posted labels = controls.flatMap (Control.sent net.validators) ∧
      NetworkRun crypto net labels (net.run crypto controls)) ∧
    (net.run crypto controls).validators = net.validators ∧
    ((net.groups = none → net.severed = []) →
      (net.run crypto controls).groups = none → (net.run crypto controls).severed = []) := by
  unfold run
  induction controls generalizing net with
  | nil => exact ⟨⟨[], rfl, .nil _⟩, rfl, id⟩
  | cons control controls ih =>
      rw [List.foldl_cons, List.flatMap_cons]
      obtain ⟨⟨labels, hposted, hrun⟩, hvalidators, hheld⟩ := @control_run crypto net control
      obtain ⟨⟨rest, hposted', hrun'⟩, hvalidators', hheld'⟩ := ih (net.control crypto control)
      refine ⟨⟨labels ++ rest, ?_, hrun.append hrun'⟩, hvalidators'.trans hvalidators,
        fun h => hheld' (hheld h)⟩
      rw [Asynchronous.posted_append, hposted, hposted', hvalidators]

theorem lookup_new (validators : List NodeId) (bonds : Bonds) (config : ValidationConfig)
    (cacheIdentity : NodeId → ℕ) (id : NodeId) :
    (new validators bonds config cacheIdentity).nodes.lookup id =
      if id ∈ validators then some (.new id bonds config .default (cacheIdentity id)) else none := by
  refine Option.ext fun node => ?_
  unfold new
  simp only
  rw [OrderedMap.lookup_insertAll_iff fun a _ b _ h => by rw [h]]
  split_ifs with hmem
  · constructor
    · rintro ⟨v, -, rfl, rfl⟩
      rfl
    · intro hnode
      exact ⟨id, hmem, rfl, Option.some.inj hnode⟩
  · constructor
    · rintro ⟨v, hv, rfl, -⟩
      exact absurd hv hmem
    · intro hnode
      exact absurd hnode (by simp)

/-- The events of a node in a run of the network. -/
def nodeEvents (id : NodeId) (labels : List (Asynchronous.Label NodeId Block Unit)) : List Event :=
  Asynchronous.events Event.receive (fun _ => .retry) id labels

/-- What a node receives is what the network hands to it. -/
theorem received_nodeEvents (id : NodeId) (labels : List (Asynchronous.Label NodeId Block Unit)) :
    received (nodeEvents id labels) = addressed id (consumed labels) := by
  have hmsgs : ∀ blocks : List Block, received (blocks.map Event.receive) = blocks := by
    intro blocks
    simp [received, List.filterMap_map]
  unfold nodeEvents
  induction labels with
  | nil => rfl
  | cons label labels ih =>
      rw [← List.singleton_append, Asynchronous.events_append, Asynchronous.consumed_append,
        SimNode.received_append, Asynchronous.addressed_append, ih]
      congr 1
      cases label with
      | deliver msgs =>
          simp only [Asynchronous.events, consumed, List.flatMap_cons, List.flatMap_nil,
            List.append_nil, Asynchronous.Label.events]
          exact hmsgs _
      | post msgs => rfl
      | tick => rfl

/-- A validator is where its own events have brought it. -/
theorem lookup_of_run {validators : List NodeId} {bonds : Bonds} {config : ValidationConfig}
    {cacheIdentity : NodeId → ℕ} {labels : List (Asynchronous.Label NodeId Block Unit)}
    (h : NetworkRun crypto (new validators bonds config cacheIdentity) labels net) (id : NodeId) :
    net.nodes.lookup id = if id ∈ validators then
      some ((SimNode.new id bonds config .default (cacheIdentity id)).run crypto
        (nodeEvents id labels)) else none := by
  refine (h.state_eq id).trans ?_
  simp only [toNetwork, lookup_new]
  split_ifs <;> rfl

/-- **Every message is accounted for.**  Whatever the adversary does, a validator is
where its own deliveries and replays have brought it; the blocks sent to it are those it
has been handed and those on their way; and without a partition none is held back. -/
theorem messages_conserved (crypto : BlockCrypto) (validators : List NodeId) (bonds : Bonds)
    (config : ValidationConfig) (cacheIdentity : NodeId → ℕ) (controls : List Control) :
    let net := (new validators bonds config cacheIdentity).run crypto controls
    (net.groups = none → net.severed = []) ∧
    (∀ id ∉ validators, net.nodes.lookup id = none) ∧
    ∃ events : NodeId → List Event, ∀ id ∈ validators,
      net.nodes.lookup id = some
        ((SimNode.new id bonds config .default (cacheIdentity id)).run crypto (events id)) ∧
      (addressed id (controls.flatMap (Control.sent validators))).Perm
        (received (events id) ++ addressed id ((net.inflight ++ net.severed).map InFlight.envelope)) := by
  obtain ⟨⟨labels, hposted, hrun⟩, -, hheld⟩ :=
    @run_run crypto (new validators bonds config cacheIdentity) controls
  refine ⟨hheld fun _ => rfl, fun id hid => (lookup_of_run hrun id).trans (if_neg hid),
    fun id => nodeEvents id labels, fun id hid => ⟨(lookup_of_run hrun id).trans (if_pos hid), ?_⟩⟩
  have h := hrun.addressed_perm id
  rw [hposted] at h
  rw [received_nodeEvents]
  simpa [toNetwork, new] using h

end AdversarialNetwork

end CordialMiners
