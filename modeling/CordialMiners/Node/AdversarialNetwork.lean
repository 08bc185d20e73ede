/-
# The adversarial network

`AdversarialNetwork` of `simulation/adversary.rs`.

Every message for a validator is in flight until the clock reaches its release
step, or severed by a partition until the partition heals.  The adversary
chooses the partition, the delays, the order of delivery and whom a block is
sent to; a node only ever receives blocks and replays its buffer.

A run of the adversary is a list of `Control`s.  What a run does to one node is a
run of that node (`SimNode.run`): of a batch, and of the loop of the scheduler.
-/

import CordialMiners.Node.SimNode
import CordialMiners.Network.Asynchronous

namespace CordialMiners

/-- Deterministic xorshift64\* generator. -/
structure Rng where
  state : BitVec 64
deriving DecidableEq, Repr

namespace Rng

/-- The multiplier of xorshift64\*. -/
def multiplier : BitVec 64 := 0x2545F4914F6CDD1D#64

/-- `Rng::new`: the state is odd, hence never the fixed point `0`. -/
def new (seed : BitVec 64) : Rng := ⟨seed * multiplier ||| 1⟩

/-- One step of the generator. -/
def nextU64 (rng : Rng) : BitVec 64 × Rng :=
  let x := rng.state ^^^ (rng.state >>> 12)
  let x := x ^^^ (x <<< 25)
  let x := x ^^^ (x >>> 27)
  (x * multiplier, ⟨x⟩)

/-- Uniform-ish index below `n`, `0` for `n = 0`. -/
def below (rng : Rng) (n : ℕ) : ℕ × Rng :=
  if n = 0 then (0, rng) else ((rng.nextU64.1).toNat % n, rng.nextU64.2)

/-- `slice::swap`. -/
def swap {α : Type} (l : List α) (i j : ℕ) : List α :=
  match l[i]?, l[j]? with
  | some a, some b => (l.set i b).set j a
  | _, _ => l

/-- The positions from `i` down to `1`, each swapped with one at most as large. -/
def shuffleFrom {α : Type} : ℕ → List α → Rng → List α × Rng
  | 0, l, rng => (l, rng)
  | i + 1, l, rng => shuffleFrom i (swap l (i + 1) (rng.below (i + 2)).1) (rng.below (i + 2)).2

/-- The seeded permutation of a batch. -/
def shuffle {α : Type} (l : List α) (rng : Rng) : List α × Rng := shuffleFrom (l.length - 1) l rng

variable {α : Type} {l : List α}

theorem swap_perm (l : List α) (i j : ℕ) : (swap l i j).Perm l := by
  unfold swap
  cases hi : l[i]? with
  | none => exact .refl l
  | some a =>
      cases hj : l[j]? with
      | none => exact .refl l
      | some b =>
          obtain ⟨hil, rfl⟩ := List.getElem?_eq_some_iff.1 hi
          obtain ⟨hjl, rfl⟩ := List.getElem?_eq_some_iff.1 hj
          exact List.set_set_perm hil hjl

theorem shuffle_perm (l : List α) (rng : Rng) : (shuffle l rng).1.Perm l := by
  unfold shuffle
  generalize l.length - 1 = i
  induction i generalizing l rng with
  | zero => exact .refl l
  | succ i ih => exact (ih _ _).trans (swap_perm l _ _)

end Rng

/-- How the scheduler orders the messages that are eligible for delivery. -/
inductive DeliveryOrder where
  | fifo
  | reverse
  | shuffled
deriving DecidableEq, Repr

/-- A message on its way to a validator. -/
structure InFlight where
  recipient : NodeId
  block : Block
  /-- Step at which this message becomes eligible for delivery. -/
  releaseStep : ℕ
  /-- Monotonic queue position, for stable tie-breaking. -/
  seq : ℕ
deriving DecidableEq, Repr

/-- A network of simulated validators under adversarial scheduling. -/
structure AdversarialNetwork where
  nodes : OrderedMap NodeId SimNode
  validators : List NodeId
  bonds : Bonds
  /-- Messages that will be delivered, once their release step arrives. -/
  inflight : List InFlight
  /-- Messages held back by an active partition. -/
  severed : List InFlight
  /-- The field `partition`. -/
  groups : Option (List (OrderedSet NodeId))
  delays : OrderedMap NodeId ℕ
  order : DeliveryOrder
  step : ℕ
  seq : ℕ
  rng : Rng
  seed : BitVec 64

namespace AdversarialNetwork

/-- `AdversarialNetwork::new`, with the tokens of the blocklaces of its nodes. -/
def new (validators : List NodeId) (bonds : Bonds) (config : ValidationConfig)
    (cacheIdentity : NodeId → ℕ) : AdversarialNetwork where
  nodes := .insertAll .empty (fun id => id)
    (fun id => .new id bonds config .default (cacheIdentity id)) validators
  validators := validators
  bonds := bonds
  inflight := []
  severed := []
  groups := none
  delays := .empty
  order := .fifo
  step := 0
  seq := 0
  rng := .new 0
  seed := 0

def withSeed (net : AdversarialNetwork) (seed : BitVec 64) : AdversarialNetwork :=
  { net with seed := seed, rng := .new seed }

def withDeliveryOrder (net : AdversarialNetwork) (order : DeliveryOrder) : AdversarialNetwork :=
  { net with order := order }

/-- Number of messages still waiting to be delivered, severed ones included. -/
def inflightLen (net : AdversarialNetwork) : ℕ := net.inflight.length + net.severed.length

/-! ### Adversary controls -/

/-- Sever the network into groups. -/
def partition (net : AdversarialNetwork) (groups : List (List NodeId)) : AdversarialNetwork :=
  { net with groups := some (groups.map fun group => group.foldl .insert .empty) }

/-- Heal the partition and release every message it held back. -/
def heal (net : AdversarialNetwork) : AdversarialNetwork :=
  { net with
    groups := none
    inflight := net.inflight ++ net.severed.map fun msg => { msg with releaseStep := net.step }
    severed := [] }

/-- Delay everything subsequently sent to `id` by `steps`. -/
def delayNode (net : AdversarialNetwork) (id : NodeId) (steps : ℕ) : AdversarialNetwork :=
  { net with delays := net.delays.insert id steps }

/-- All links deliver at once again. -/
def clearDelays (net : AdversarialNetwork) : AdversarialNetwork := { net with delays := .empty }

/-- A validator absent from every group is reachable from all others. -/
def connected (net : AdversarialNetwork) (a b : NodeId) : Bool :=
  match net.groups with
  | none => true
  | some groups =>
      match groups.findIdx? (a ∈ ·), groups.findIdx? (b ∈ ·) with
      | some x, some y => x == y
      | _, _ => true

/-! ### Traffic -/

/-- One recipient of a broadcast. -/
def broadcastTo (block : Block) (net : AdversarialNetwork) (recipient : NodeId) :
    AdversarialNetwork :=
  let msg : InFlight :=
    { recipient := recipient
      block := block
      releaseStep := net.step + (net.delays.lookup recipient).getD 0
      seq := net.seq }
  if recipient = block.identity.creator ∨ net.connected block.identity.creator recipient = true then
    { net with seq := net.seq + 1, inflight := net.inflight ++ [msg] }
  else { net with seq := net.seq + 1, severed := net.severed ++ [msg] }

/-- Send a block from its creator to every validator, subject to the active
partition and the delays.  The creator always receives its own block. -/
def broadcast (net : AdversarialNetwork) (block : Block) : AdversarialNetwork :=
  net.validators.foldl (broadcastTo block) net

/-- One recipient of `sendTo`. -/
def sendToOne (block : Block) (net : AdversarialNetwork) (recipient : NodeId) :
    AdversarialNetwork :=
  { net with
    seq := net.seq + 1
    inflight := net.inflight ++
      [{ recipient := recipient, block := block, releaseStep := net.step, seq := net.seq }] }

/-- Send a block only to `recipients`, ignoring partitions and delays: the Byzantine
primitive. -/
def sendTo (net : AdversarialNetwork) (block : Block) (recipients : List NodeId) :
    AdversarialNetwork :=
  recipients.foldl (sendToOne block) net

/-- The batch in the configured order, and the generator after it. -/
def arrange (net : AdversarialNetwork) (eligible : List InFlight) : List InFlight × Rng :=
  let sorted := eligible.insertionSort fun a b => a.seq ≤ b.seq
  match net.order with
  | .fifo => (sorted, net.rng)
  | .reverse => (sorted.reverse, net.rng)
  | .shuffled => Rng.shuffle sorted net.rng

/-- Deliver every message whose release step has arrived, and say what each
recipient did with it.  A message to an unknown recipient is dropped. -/
def deliverReady (crypto : BlockCrypto) (net : AdversarialNetwork) :
    List (NodeId × DeliveryOutcome) × AdversarialNetwork :=
  let eligible := net.inflight.filter fun msg => msg.releaseStep ≤ net.step
  let arranged := net.arrange eligible
  let delivered := Asynchronous.deliverAll (fun node block => node.receiveBlock crypto block) net.nodes
    (arranged.1.map fun msg => (msg.recipient, msg.block))
  (delivered.1,
    { net with
      inflight := net.inflight.filter fun msg => ¬ msg.releaseStep ≤ net.step
      rng := arranged.2
      nodes := delivered.2 })

/-- Retry every node's buffered out-of-order blocks against its current view. -/
def retryAllBuffers (crypto : BlockCrypto) (net : AdversarialNetwork) : AdversarialNetwork :=
  { net with nodes := net.nodes.map fun node => node.retryBufferedBlocks crypto }

/-- The clock runs on. -/
def advance (net : AdversarialNetwork) (steps : ℕ) : AdversarialNetwork :=
  { net with step := net.step + steps }

/-- The loop of `settle`, with what it has delivered. -/
def settleLoop (crypto : BlockCrypto) : ℕ → ℕ → AdversarialNetwork → ℕ × AdversarialNetwork
  | 0, delivered, net => (delivered, net)
  | fuel + 1, delivered, net =>
      let r := net.deliverReady crypto
      let net := r.2.retryAllBuffers crypto
      if r.1.length = 0 then (delivered, net)
      else settleLoop crypto fuel (delivered + r.1.length) net

/-- Deliver everything currently eligible and resolve buffers, repeating until
nothing more can be delivered at the current step. -/
def settle (crypto : BlockCrypto) (net : AdversarialNetwork) : ℕ × AdversarialNetwork :=
  net.settleLoop crypto (net.inflight.length + 1) 0

/-- Resume delivery in full: jump the clock past every outstanding delay and
deliver all in-flight messages. -/
def deliverEverything (crypto : BlockCrypto) (net : AdversarialNetwork) : ℕ × AdversarialNetwork :=
  let latest := ((net.inflight.map fun msg => msg.releaseStep).max?).getD net.step
  settle crypto { net with step := max net.step latest }

/-- What the adversary and the scheduler do. -/
inductive Control where
  | withSeed (seed : BitVec 64)
  | withDeliveryOrder (order : DeliveryOrder)
  | partition (groups : List (List NodeId))
  | heal
  | delayNode (id : NodeId) (steps : ℕ)
  | clearDelays
  | broadcast (block : Block)
  | sendTo (block : Block) (recipients : List NodeId)
  | deliverReady
  | retryAllBuffers
  | advance (steps : ℕ)
  | settle
  | deliverEverything
deriving DecidableEq, Repr

/-- What one control does. -/
def control (crypto : BlockCrypto) (net : AdversarialNetwork) : Control → AdversarialNetwork
  | .withSeed seed => net.withSeed seed
  | .withDeliveryOrder order => net.withDeliveryOrder order
  | .partition groups => net.partition groups
  | .heal => net.heal
  | .delayNode id steps => net.delayNode id steps
  | .clearDelays => net.clearDelays
  | .broadcast block => net.broadcast block
  | .sendTo block recipients => net.sendTo block recipients
  | .deliverReady => (net.deliverReady crypto).2
  | .retryAllBuffers => net.retryAllBuffers crypto
  | .advance steps => net.advance steps
  | .settle => (net.settle crypto).2
  | .deliverEverything => (net.deliverEverything crypto).2

/-- A run of the adversary. -/
def run (crypto : BlockCrypto) (net : AdversarialNetwork) (controls : List Control) :
    AdversarialNetwork :=
  controls.foldl (control crypto) net

end AdversarialNetwork

end CordialMiners
