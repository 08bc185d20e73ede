/-
# A simulated node

`SimNode` of `simulation/dissemination.rs`.

A node keeps a blocklace, the buffer of the blocks that wait for their
references, and the evidence captured when a block was rejected.
`receiveBlock` delivers a block and `retryBufferedBlocks` replays the buffer;
a run is a list of such events.  The order and the time of the events are those
of the network, so the results are about every list.

`receiveBlock_cases` and `retry_cases` say everything an event can do.
-/

import CordialMiners.Node.PendingBuffer
import CordialMiners.Evidence.Pool

namespace CordialMiners

open FinGraph
open Blocklace (Admitted)
open PendingBlockBuffer (Replayed StatsLE)

/-- Outcome of delivering a block to a simulated node. -/
inductive DeliveryOutcome where
  | inserted
  | buffered
  | rejected (errors : List InvalidBlock)
deriving DecidableEq, Repr

/-- The local state of a node. -/
structure SimNode where
  id : NodeId
  blocklace : Blocklace
  pending : PendingBlockBuffer
  /-- Equivocation proof captured at the moment of rejection. -/
  evidence : CordialEvidencePool
  bonds : Bonds
  validationConfig : ValidationConfig

namespace SimNode

/-- `SimNode::new`, with the policy of its buffer and the token of its blocklace. -/
def new (id : NodeId) (bonds : Bonds) (validationConfig : ValidationConfig)
    (policy : BufferPolicy) (cacheIdentity : ℕ) : SimNode where
  id := id
  blocklace := .new cacheIdentity
  pending := .withPolicy policy
  evidence := .new
  bonds := bonds
  validationConfig := validationConfig

/-- Deliver a block into the node's local view. -/
def receiveBlock (crypto : BlockCrypto) (node : SimNode) (block : Block) :
    DeliveryOutcome × SimNode :=
  match node.blocklace.validatedInsert crypto block node.bonds node.validationConfig with
  | (.valid, B) => (.inserted, { node with blocklace := B })
  | (.invalid errors, B) =>
      let evidence := (B.recordRejectedEquivocation block errors node.evidence).2
      if errors.all isRetryableBufferError then
        let missing := block.content.predecessors.filter fun parent => (B.content parent).isNone
        (.buffered,
          { node with
            blocklace := B
            evidence := evidence
            pending := (node.pending.bufferBlockWithMissingPredecessorsKnown block missing).2 })
      else (.rejected errors, { node with blocklace := B, evidence := evidence })

/-- The replay of the buffer: what it rejects, the buffer and the blocklace. -/
def replay (crypto : BlockCrypto) (node : SimNode) :
    List (Block × List InvalidBlock) × PendingBlockBuffer × Blocklace :=
  (node.pending.takeResolvedPredecessors node.blocklace).2.retryBufferedBlocks crypto node.bonds
    node.validationConfig node.blocklace

/-- Retry any buffered blocks against the current local view. -/
def retryBufferedBlocks (crypto : BlockCrypto) (node : SimNode) : SimNode :=
  let r := node.replay crypto
  { node with
    blocklace := r.2.2
    pending := r.2.1
    evidence := r.1.foldl (fun pool rejected =>
      (r.2.2.recordRejectedEquivocation rejected.1 rejected.2 pool).2) node.evidence }

/-- How many blocks wait. -/
def pendingLen (node : SimNode) : ℕ := node.pending.bufferedBlocks.keys.length

/-- Whether this node holds proof that a validator equivocated. -/
def hasEvidenceAgainst (node : SimNode) (validator : NodeId) : Bool :=
  !(node.evidence.evidenceFor validator).isEmpty

/-- What happens to a node. -/
inductive Event where
  | receive (block : Block)
  | retry
deriving DecidableEq, Repr

/-- What one event does. -/
def step (crypto : BlockCrypto) (node : SimNode) : Event → SimNode
  | .receive block => (node.receiveBlock crypto block).2
  | .retry => node.retryBufferedBlocks crypto

/-- A run of a node. -/
def run (crypto : BlockCrypto) (node : SimNode) (events : List Event) : SimNode :=
  events.foldl (step crypto) node

/-- The blocks delivered by a list of events. -/
def received (events : List Event) : List Block :=
  events.filterMap fun event => match event with
    | .receive block => some block
    | .retry => none

/-- The blocks that an event rejects. -/
def rejections (crypto : BlockCrypto) (node : SimNode) : Event → List Block
  | .receive block =>
      match (node.receiveBlock crypto block).1 with
      | .rejected _ => [block]
      | _ => []
  | .retry => (node.replay crypto).1.map fun rejected => rejected.1

/-- The blocks rejected in a run. -/
def rejectedBlocks (crypto : BlockCrypto) : SimNode → List Event → List Block
  | _, [] => []
  | node, event :: events =>
      node.rejections crypto event ++ rejectedBlocks crypto (node.step crypto event) events

variable {crypto : BlockCrypto} {node : SimNode} {block x : Block} {events : List Event}
  {event : Event}

theorem run_append (node : SimNode) (events : List Event) (event : Event) :
    node.run crypto (events ++ [event]) = (node.run crypto events).step crypto event := by
  unfold run
  rw [List.foldl_append]
  rfl

@[simp] theorem received_append (events events' : List Event) :
    received (events ++ events') = received events ++ received events' :=
  List.filterMap_append

theorem rejectedBlocks_append (node : SimNode) (events : List Event) (event : Event) :
    rejectedBlocks crypto node (events ++ [event]) =
      rejectedBlocks crypto node events ++ (node.run crypto events).rejections crypto event := by
  induction events generalizing node with
  | nil => simp [rejectedBlocks, run]
  | cons first events ih =>
      rw [List.cons_append, rejectedBlocks, rejectedBlocks, ih, List.append_assoc]
      rfl

/-- **Everything a delivery can do.** -/
theorem receiveBlock_cases (crypto : BlockCrypto) (node : SimNode) (block : Block) :
    (∃ B', Admitted crypto node.bonds node.validationConfig node.blocklace block B' ∧
      node.receiveBlock crypto block = (.inserted, { node with blocklace := B' })) ∨
    ∃ errors, node.blocklace.validateBlock crypto block node.bonds node.validationConfig =
        .invalid errors ∧
      ((errors.all isRetryableBufferError = true ∧ ∃ missing,
        node.receiveBlock crypto block = (.buffered,
          { node with
            evidence := (node.blocklace.recordRejectedEquivocation block errors node.evidence).2
            pending :=
              (node.pending.bufferBlockWithMissingPredecessorsKnown block missing).2 })) ∨
      (errors.all isRetryableBufferError = false ∧
        node.receiveBlock crypto block = (.rejected errors,
          { node with
            evidence :=
              (node.blocklace.recordRejectedEquivocation block errors node.evidence).2 }))) := by
  unfold receiveBlock
  obtain ⟨hvalid, B', hcommit, heq⟩ | ⟨errors, hinvalid, heq⟩ :=
    @Blocklace.validatedInsert_cases node.blocklace block crypto node.bonds node.validationConfig
  · exact Or.inl ⟨B', ⟨hvalid, hcommit⟩, by rw [heq]⟩
  · refine Or.inr ⟨errors, hinvalid, ?_⟩
    rw [heq]
    cases hall : errors.all isRetryableBufferError with
    | true => exact Or.inl ⟨rfl, _, by simp only [hall]; rfl⟩
    | false => exact Or.inr ⟨rfl, by simp only [hall]; rfl⟩

/-- **Everything a retry can do.** -/
theorem retry_cases (crypto : BlockCrypto) (node : SimNode)
    (hclosure : node.validationConfig.checkClosure = true) :
    ∃ replayed rejected pending' B',
      node.replay crypto = (rejected, pending', B') ∧
      Replayed crypto node.bonds node.validationConfig
        (node.pending.takeResolvedPredecessors node.blocklace).2 node.blocklace rejected replayed B' ∧
      BlockMap.toSet pending'.bufferedBlocks ⊆ BlockMap.toSet replayed.bufferedBlocks ∧
      pending'.policy = node.pending.policy ∧ StatsLE node.pending pending' ∧
      (pending'.stats.evictedStale = node.pending.stats.evictedStale →
        pending'.bufferedBlocks = replayed.bufferedBlocks) ∧
      node.retryBufferedBlocks crypto =
        { node with
          blocklace := B'
          pending := pending'
          evidence := rejected.foldl (fun pool rejected =>
            (B'.recordRejectedEquivocation rejected.1 rejected.2 pool).2) node.evidence } := by
  cases hreplay : node.replay crypto with
  | mk rejected rest =>
      cases rest with
      | mk pending' B' =>
          obtain ⟨replayed, hrep, hsub, hpolicy, hcap, hquota, hstale, hkept⟩ :=
            PendingBlockBuffer.retry_spec hclosure _ _ hreplay
          refine ⟨replayed, rejected, pending', B', rfl, hrep, hsub, hpolicy,
            ⟨hcap.ge, hstale, hquota.ge⟩, hkept, ?_⟩
          unfold retryBufferedBlocks
          rw [hreplay]

end SimNode

end CordialMiners
