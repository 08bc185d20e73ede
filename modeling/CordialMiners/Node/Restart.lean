/-
# Restarts of the mirror

A run of calls with restarts in between, next to the same calls without any.  The two
mirrors store the same blocks where no call completes the references of a block that the
store has and the memory has not (`restart_transparent`).

A block that waits at a restart is such a block.  It is in the store, it is not
recovered without its references, and the new mirror does not wait for them: when they
arrive it stays out (`waiting_block_lost`).
-/

import CordialMiners.Node.Boot

namespace CordialMiners.Persistence

open FinGraph LiveBlocklaceMirror
open Blocklace (alreadyValidated)

variable {blockHash : NodeId → BlockContent → ContentHash} {verifier : CryptoVerifier}
  {node node' : Node} {block : Block} {S T : Set Block}

/-- A call, or a crash and a start from the store with the token of the new blocklace. -/
inductive Event where
  | call (block : Block) (adapter : Except String Unit)
  | restart (token : ℕ)

/-- What an event leaves behind; a start may fail. -/
def Node.after (blockHash : NodeId → BlockContent → ContentHash) (verifier : CryptoVerifier)
    (node : Node) : Event → Option Node
  | .call block adapter => some (node.step blockHash (.ingest block adapter))
  | .restart token =>
      match LiveIngress.withPersistentStore blockHash node.repo verifier token with
      | some (.ok (ingress, _)) => some ⟨ingress, node.repo⟩
      | _ => none

/-- A run of events. -/
def Node.events (blockHash : NodeId → BlockContent → ContentHash) (verifier : CryptoVerifier)
    (node : Node) : List Event → Option Node
  | [] => some node
  | event :: events =>
      (node.after blockHash verifier event).bind fun node' => node'.events blockHash verifier events

/-- The same calls without the restarts. -/
def withoutRestarts (events : List Event) : List Event :=
  events.filter fun event => match event with
    | .call _ _ => true
    | .restart _ => false

/-- The blocks of the calls. -/
def callBlocks (events : List Event) : List Block :=
  events.filterMap fun event => match event with
    | .call block _ => some block
    | .restart _ => none

/-- The callback takes the block of a call, and the call completes the references of no
block that only the store has.  At a restart, blocks of the store with one content hash
refer to the same content hashes, and no references lead back to where they start. -/
def Undisturbed (node : Node) : Event → Prop
  | .call block adapter => adapter = .ok () ∧
      ∀ c ∈ node.repo.stored, RootedIn (insert block node.repo.stored) c →
        node.ingress.mirror.blocklace.Stores c ∨ c ∈ node.ingress.mirror.waiting
  | .restart _ => HashConsistent node.repo.stored ∧ HashAcyclic node.repo.stored

/-- Every event of a run is undisturbed. -/
def AllUndisturbed (blockHash : NodeId → BlockContent → ContentHash) (verifier : CryptoVerifier) :
    Node → List Event → Prop
  | _, [] => True
  | node, event :: events => Undisturbed node event ∧
      ∀ node', node.after blockHash verifier event = some node' →
        AllUndisturbed blockHash verifier node' events

/-! ### What an event keeps -/

/-- The store has the blocks `T`, and the mirror has settled on some of them, the rooted
ones at least. -/
structure Holds (T : Set Block) (node : Node) : Prop where
  keyed : node.repo.Keyed
  stored : node.repo.stored = T
  native : node.repo.nativeHash = .empty
  settled : ∃ S ⊆ T, (∀ b, RootedIn T b → b ∈ S) ∧ Settled S node.ingress.mirror

theorem holds_new (codec : IdentityCodec) (token : ℕ) : Holds ∅ (Node.new codec token) where
  keyed key b hb := by cases hb
  stored := Set.eq_empty_of_forall_notMem fun b hb => absurd hb List.not_mem_nil
  native := rfl
  settled := ⟨∅, Set.Subset.refl _, fun b hb => hb.mem, settled_new token⟩

/-- **The mirror stores the rooted blocks of the store.** -/
theorem Holds.stores_iff (h : Holds T node) (b : Block) :
    node.ingress.mirror.blocklace.Stores b ↔ RootedIn T b := by
  obtain ⟨S, hS, hrooted, hsettled⟩ := h.settled
  rw [hsettled.stores_iff]
  exact ⟨fun hb => hb.mono (fun _ => id) hS, fun hb => hb.restrict hrooted⟩

/-- A call adds its block. -/
theorem Holds.call (h : Holds T node) (hsized : ∀ b ∈ insert block T, Sized b.identity)
    (hdistinct : ConsensusDistinct (insert block T))
    (hkept : ∀ c ∈ T, RootedIn (insert block T) c →
      node.ingress.mirror.blocklace.Stores c ∨ c ∈ node.ingress.mirror.waiting) :
    Holds (insert block T) (node.step blockHash (.ingest block (.ok ()))) := by
  obtain ⟨S, hS, hrooted, hsettled⟩ := h.settled
  have hfresh : node.repo.Fresh block := by
    intro c hc heq
    rw [h.stored] at hc
    exact hdistinct c (Set.mem_insert_of_mem _ hc) block (Set.mem_insert _ _) heq
  refine ⟨h.keyed.putBlock block, ?_, h.native, insert block S, Set.insert_subset_insert hS,
    fun b hb => ?_, ?_⟩
  · show (node.repo.putBlock block).stored = insert block T
    rw [RSpaceBlocklaceRepository.stored_putBlock h.keyed _ (hsized block (Set.mem_insert _ _)) hfresh,
      h.stored]
    intro b hb
    rw [h.stored] at hb
    exact hsized b (Set.mem_insert_of_mem _ hb)
  · rcases hb.mem with rfl | hmem
    · exact Set.mem_insert _ _
    · exact Set.mem_insert_of_mem _ ((hsettled.kept b).2 (hkept b hmem hb))
  · exact settled_ingest hfresh (h.stored.symm ▸ hS) hsettled

/-- **A restart keeps the rooted blocks**, and its mirror has settled on them. -/
theorem Holds.restart (h : Holds T node) (haccept : ∀ b : Block, b.AcceptedBy verifier)
    (hdistinct : ConsensusDistinct T) (hconsistent : HashConsistent T) (hcycle : HashAcyclic T)
    (token : ℕ) :
    ∃ node', node.after blockHash verifier (.restart token) = some node' ∧ Holds T node' := by
  have hstored := h.stored
  obtain ⟨engine, hrecover, hengine⟩ := RSpaceBlocklaceRepository.recoverIntoEngine_stores haccept
    h.keyed (hstored ▸ hdistinct) (hstored ▸ hconsistent) (hstored ▸ hcycle) token
  rw [hstored] at hengine
  refine ⟨⟨⟨⟨engine, ∅⟩, .new⟩, node.repo⟩, ?_, h.keyed, hstored, h.native, {b | RootedIn T b},
    fun b hb => hb.mem, fun b => id, ⟨?_, fun b => ?_, fun b hb => ?_, fun b hb => ?_⟩⟩
  · have hmappings : node.repo.nativeBlockMappings = .ok [] := by
      unfold RSpaceBlocklaceRepository.nativeBlockMappings
      rw [h.native]
      rfl
    have hstart : LiveIngress.withPersistentStore blockHash node.repo verifier token =
        some (.ok (⟨⟨engine, ∅⟩, .new⟩, node.repo.cursor)) := by
      unfold LiveIngress.withPersistentStore
      rw [hrecover, Option.map_some, hmappings]
      rfl
    unfold Node.after
    dsimp only
    rw [hstart]
  · exact ⟨fun a ha => absurd ha (AList.notMem_empty a), fun a ha => absurd ha (AList.notMem_empty a)⟩
  · refine (hengine b).symm.trans (or_iff_left ?_).symm
    exact fun hb => BlockMap.mem_toSet_empty hb
  · exact ((hengine b).1 hb).restrict fun y => id
  · exact absurd hb BlockMap.mem_toSet_empty

/-! ### Runs -/

/-- A run with restarts and the same calls without them, side by side. -/
theorem Holds.events {shadow : Node} (hnode : Holds T node) (hshadow : Holds T shadow)
    (hsettled : Settled T shadow.ingress.mirror) (haccept : ∀ b : Block, b.AcceptedBy verifier)
    (events : List Event) (hsized : ∀ b ∈ T ∪ {b | b ∈ callBlocks events}, Sized b.identity)
    (hdistinct : ConsensusDistinct (T ∪ {b | b ∈ callBlocks events}))
    (hundisturbed : AllUndisturbed blockHash verifier node events) :
    ∃ node' shadow' T', node.events blockHash verifier events = some node' ∧
      shadow.events blockHash verifier (withoutRestarts events) = some shadow' ∧
      Holds T' node' ∧ Holds T' shadow' := by
  induction events generalizing T node shadow with
  | nil => exact ⟨node, shadow, T, rfl, rfl, hnode, hshadow⟩
  | cons event events ih =>
      obtain ⟨hevent, hrest⟩ := hundisturbed
      cases event with
      | restart token =>
          obtain ⟨hconsistent, hcycle⟩ := hevent
          rw [hnode.stored] at hconsistent hcycle
          have hT : ConsensusDistinct T :=
            fun a ha b hb => hdistinct a (Or.inl ha) b (Or.inl hb)
          obtain ⟨node₁, hafter, hnode₁⟩ := hnode.restart haccept hT hconsistent hcycle token
          have hih := ih hnode₁ hshadow hsettled hsized hdistinct (hrest node₁ hafter)
          rw [Node.events, hafter, Option.bind_some]
          exact hih
      | call block adapter =>
          obtain ⟨rfl, hkept⟩ := hevent
          rw [hnode.stored] at hkept
          have hset : T ∪ {b | b ∈ callBlocks (.call block (.ok ()) :: events)} =
              insert block T ∪ {b | b ∈ callBlocks events} := by
            ext b
            simp only [callBlocks, List.filterMap_cons, List.mem_cons, Set.mem_union,
              Set.mem_ofPred_eq, Set.mem_insert_iff]
            tauto
          rw [hset] at hsized hdistinct
          have hsized₁ : ∀ b ∈ insert block T, Sized b.identity := fun b hb => hsized b (Or.inl hb)
          have hdistinct₁ : ConsensusDistinct (insert block T) :=
            fun a ha b hb => hdistinct a (Or.inl ha) b (Or.inl hb)
          have hnode₁ : Holds (insert block T) (node.step blockHash (.ingest block (.ok ()))) :=
            hnode.call hsized₁ hdistinct₁ hkept
          have hshadow₁ : Holds (insert block T) (shadow.step blockHash (.ingest block (.ok ()))) :=
            hshadow.call hsized₁ hdistinct₁ fun c hc _ => (hsettled.kept c).1 hc
          have hsettled₁ : Settled (insert block T) (shadow.ingress.mirror.ingest alreadyValidated
              block).2 := hsettled.ingest acceptedBy_alreadyValidated fun b hb =>
            hdistinct₁ b (Set.mem_insert_of_mem _ hb) block (Set.mem_insert _ _)
          exact ih hnode₁ hshadow₁ hsettled₁ hsized hdistinct (hrest _ rfl)

/-- **Restarts are transparent to the mirror** in every run of undisturbed events: the
stored blocks are those of the same calls without the restarts. -/
theorem restart_transparent (codec : IdentityCodec)
    (haccept : ∀ b : Block, b.AcceptedBy verifier) (token : ℕ) (events : List Event)
    (hsized : ∀ b ∈ callBlocks events, Sized b.identity)
    (hdistinct : ConsensusDistinct {b | b ∈ callBlocks events})
    (hundisturbed : AllUndisturbed blockHash verifier (Node.new codec token) events) :
    ∃ node shadow, (Node.new codec token).events blockHash verifier events = some node ∧
      (Node.new codec token).events blockHash verifier (withoutRestarts events) = some shadow ∧
      ∀ b, node.ingress.mirror.blocklace.Stores b ↔ shadow.ingress.mirror.blocklace.Stores b := by
  obtain ⟨node, shadow, T, hnode, hshadow, hholds, hholds'⟩ := (holds_new codec token).events
    (holds_new codec token) (settled_new token) haccept events (by rwa [Set.empty_union])
    (by rwa [Set.empty_union]) hundisturbed
  refine ⟨node, shadow, hnode, hshadow, fun b => ?_⟩
  rw [hholds.stores_iff, hholds'.stores_iff]

/-- A block arrives, the node restarts, and the block above it arrives. -/
def orderlyEvents : List Event :=
  [.call (rootBlock [2]) (.ok ()), .restart 1, .call nativeBlock (.ok ())]

theorem allUndisturbed_orderlyEvents :
    AllUndisturbed countHash alreadyValidated freshNode orderlyEvents := by
  refine ⟨⟨rfl, fun c hc => absurd hc List.not_mem_nil⟩, fun node hnode => ⟨?_, fun node' hnode' =>
    ⟨⟨rfl, fun c hc _ => Or.inl ?_⟩, fun _ _ => trivial⟩⟩⟩
  · obtain rfl := Option.some.inj hnode
    show HashConsistent (freshNode.step countHash (.ingest (rootBlock [2]) (.ok ()))).repo.stored ∧
      HashAcyclic (freshNode.step countHash (.ingest (rootBlock [2]) (.ok ()))).repo.stored
    rw [stored_honestNode]
    refine ⟨?_, hashAcyclic_of_lt ?_⟩
    · rintro a rfl b rfl -
      exact List.Subset.refl _
    · rintro b rfl
      exact fun p hp => absurd hp List.not_mem_nil
  · obtain rfl := Option.some.inj hnode
    have hstart : ((freshNode.step countHash (.ingest (rootBlock [2]) (.ok ()))).after countHash
        alreadyValidated (.restart 1)).all (fun node =>
          decide (∀ c ∈ node.repo.blocksDb.values, node.ingress.mirror.blocklace.Stores c)) = true := by
      decide +kernel
    have hnode'' : (freshNode.step countHash (.ingest (rootBlock [2]) (.ok ()))).after countHash
        alreadyValidated (.restart 1) = some node' := hnode'
    rw [hnode'', Option.all_some] at hstart
    exact of_decide_eq_true hstart c hc

/-- The orderly run ends with the blocks of the run without a restart. -/
theorem restart_transparent_orderlyEvents : ∃ node shadow,
    freshNode.events countHash alreadyValidated orderlyEvents = some node ∧
      freshNode.events countHash alreadyValidated (withoutRestarts orderlyEvents) = some shadow ∧
      ∀ b, node.ingress.mirror.blocklace.Stores b ↔ shadow.ingress.mirror.blocklace.Stores b := by
  refine restart_transparent bincodeIdentity acceptedBy_alreadyValidated 0 orderlyEvents ?_ ?_
    allUndisturbed_orderlyEvents
  · intro b hb
    rcases List.mem_pair.1 hb with rfl | rfl
    · exact ⟨by decide, by decide⟩
    · exact ⟨by decide, by decide⟩
  · show ∀ a ∈ callBlocks orderlyEvents, ∀ b ∈ callBlocks orderlyEvents, _
    decide

/-- The same events, the upper block first. -/
def hastyEvents : List Event :=
  [.call nativeBlock (.ok ()), .restart 1, .call (rootBlock [2]) (.ok ())]

/-- **A block that waits at a restart is lost** to the new mirror. -/
theorem waiting_block_lost : ConsensusDistinct {b | b ∈ callBlocks hastyEvents} ∧
    ∃ node shadow, freshNode.events countHash alreadyValidated hastyEvents = some node ∧
      freshNode.events countHash alreadyValidated (withoutRestarts hastyEvents) = some shadow ∧
      ¬node.ingress.mirror.blocklace.Stores nativeBlock ∧
      shadow.ingress.mirror.blocklace.Stores nativeBlock := by
  refine ⟨by show ∀ a ∈ callBlocks hastyEvents, ∀ b ∈ callBlocks hastyEvents, _; decide, ?_⟩
  have hlost : (freshNode.events countHash alreadyValidated hastyEvents).any
      (fun node => decide (¬node.ingress.mirror.blocklace.Stores nativeBlock)) = true := by
    decide +kernel
  have hkept : (freshNode.events countHash alreadyValidated (withoutRestarts hastyEvents)).any
      (fun shadow => decide (shadow.ingress.mirror.blocklace.Stores nativeBlock)) = true := by
    decide +kernel
  obtain ⟨node, hnode, hstores⟩ := (Option.any_eq_true _ _).1 hlost
  obtain ⟨shadow, hshadow, hstores'⟩ := (Option.any_eq_true _ _).1 hkept
  exact ⟨node, shadow, hnode, hshadow, of_decide_eq_true hstores, of_decide_eq_true hstores'⟩

end CordialMiners.Persistence
