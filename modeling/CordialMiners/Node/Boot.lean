/-
# Booting from the store

A node boots from the store that its calls have written, and finds all that its mirror
had, as long as every written block has hash and creator of its own, closes no cycle of
references, and agrees on its references with the blocks of the same content hash
(`boots_from_own_store`).

The store takes a block before the mirror checks it.  A second signature of a block that
the mirror has is refused by the mirror and stays in the store; the order of the keys
decides which of the two is recovered (`refused_variant_recovered`).
-/

import CordialMiners.Node.PersistentIngress

namespace CordialMiners.Persistence

open FinGraph LiveBlocklaceMirror
open Blocklace (alreadyValidated)

variable {blockHash : NodeId → BlockContent → ContentHash} {verifier : CryptoVerifier}
  {node : Node} {block : Block} {S T : Set Block} {m m' : LiveBlocklaceMirror}

/-- The mirror accepts every block. -/
theorem acceptedBy_alreadyValidated (b : Block) : b.AcceptedBy alreadyValidated := rfl

/-- A mirror that has seen more stores more. -/
theorem stores_mono (h : Settled S m) (h' : Settled T m') (hST : S ⊆ T)
    (hb : m.blocklace.Stores block) : m'.blocklace.Stores block :=
  h'.stores_iff.2 ((h.stores_iff.1 hb).mono (fun _ => id) hST)

/-! ### The native index -/

/-- A block as the host node knows it: unsigned, under its own hash. -/
def NativeShape (blockHash : NodeId → BlockContent → ContentHash) (block : Block) : Prop :=
  block.identity.signature = [] ∧
    block.identity.contentHash = blockHash block.identity.creator block.content

namespace NativeBlockIdentityIndex

variable {index index' : NativeBlockIdentityIndex} {candidate : ValidatedF1r3nodeBlock}

theorem checkCandidate_ok (h : index.checkCandidate blockHash candidate = .ok ()) :
    NativeShape blockHash candidate.block ∧
      (∀ id, index.byWireHash.lookup candidate.wireHash = some id → id = candidate.block.identity) := by
  unfold checkCandidate at h
  dsimp only at h
  split_ifs at h with hshape hwire hidentity
  rw [not_or, not_not, not_not] at hshape
  refine ⟨hshape, fun id hid => ?_⟩
  rw [hid, Option.any_some, decide_eq_true_eq, not_not] at hwire
  exact hwire

/-- A candidate that contradicts no entry is recorded. -/
theorem exists_recordAccepted (index : NativeBlockIdentityIndex) (candidate : ValidatedF1r3nodeBlock)
    (hshape : NativeShape blockHash candidate.block)
    (hwire : ∀ id, index.byWireHash.lookup candidate.wireHash = some id →
      id = candidate.block.identity)
    (hidentity : ∀ wire, index.byCordialIdentity.lookup candidate.block.identity = some wire →
      wire = candidate.wireHash) :
    index.recordAccepted blockHash candidate =
      .ok ⟨index.byWireHash.insert candidate.wireHash candidate.block.identity,
        index.byCordialIdentity.insert candidate.block.identity candidate.wireHash⟩ := by
  have hcheck : index.checkCandidate blockHash candidate = .ok () := by
    unfold checkCandidate
    dsimp only
    rw [if_neg (by rw [not_or, not_not, not_not]; exact hshape)]
    rw [if_neg, if_neg]
    · cases hlookup : index.byCordialIdentity.lookup candidate.block.identity with
      | none => simp
      | some wire => simp [hidentity wire hlookup]
    · cases hlookup : index.byWireHash.lookup candidate.wireHash with
      | none => simp
      | some id => simp [hwire id hlookup]
  unfold recordAccepted
  rw [hcheck]
  rfl

end NativeBlockIdentityIndex

/-- The mappings pair hashes and identities one to one, and the engine has the blocks. -/
structure Recordable (blockHash : NodeId → BlockContent → ContentHash) (engine : Blocklace)
    (all : List (ContentHash × BlockIdentity)) : Prop where
  byWire : ∀ wire id id', (wire, id) ∈ all → (wire, id') ∈ all → id = id'
  byIdentity : ∀ wire wire' id, (wire, id) ∈ all → (wire', id) ∈ all → wire = wire'
  recovered : ∀ wire id, (wire, id) ∈ all →
    ∃ b, engine.Stores b ∧ b.identity = id ∧ NativeShape blockHash b

/-- **The mappings are recorded** where they are one to one and their blocks recovered. -/
theorem Recordable.exists_recordMappings {engine : Blocklace}
    {all : List (ContentHash × BlockIdentity)} (h : Recordable blockHash engine all)
    (mappings : List (ContentHash × BlockIdentity)) (index : NativeBlockIdentityIndex) (hsub : mappings ⊆ all)
    (hwire : ∀ wire id, index.byWireHash.lookup wire = some id → (wire, id) ∈ all)
    (hidentity : ∀ wire id, index.byCordialIdentity.lookup id = some wire → (wire, id) ∈ all) :
    ∃ index', LiveIngress.recordMappings blockHash engine index mappings = .ok index' := by
  induction mappings generalizing index with
  | nil => exact ⟨index, rfl⟩
  | cons mapping mappings ih =>
      obtain ⟨wire, id⟩ := mapping
      obtain ⟨hmem, hrest⟩ := List.cons_subset.1 hsub
      obtain ⟨b, hb, rfl, hshape⟩ := h.recovered wire id hmem
      have hrecord := NativeBlockIdentityIndex.exists_recordAccepted index ⟨b, wire⟩ hshape
        (fun id hid => h.byWire wire id b.identity (hwire wire id hid) hmem)
        fun wire' hwire' => h.byIdentity wire' wire b.identity (hidentity wire' _ hwire') hmem
      rw [LiveIngress.recordMappings, hb.get]
      dsimp only
      rw [hrecord]
      refine ih _ hrest (fun wire' id' hlookup => ?_) fun wire' id' hlookup => ?_
      · rw [OrderedMap.lookup_insert] at hlookup
        split_ifs at hlookup with heq
        · obtain rfl := Option.some.inj hlookup
          exact heq ▸ hmem
        · exact hwire wire' id' hlookup
      · rw [OrderedMap.lookup_insert] at hlookup
        split_ifs at hlookup with heq
        · obtain rfl := Option.some.inj hlookup
          exact heq ▸ hmem
        · exact hidentity wire' id' hlookup

/-! ### What the calls keep -/

/-- What holds of a node all of whose written blocks were writable. -/
structure Sound (blockHash : NodeId → BlockContent → ContentHash) (node : Node) : Prop where
  keyed : node.repo.Keyed
  sized : ∀ b ∈ node.repo.stored, Sized b.identity
  distinct : ConsensusDistinct node.repo.stored
  consistent : HashConsistent node.repo.stored
  acyclic : HashAcyclic node.repo.stored
  settled : ∃ S ⊆ node.repo.stored, Settled S node.ingress.mirror
  native : ∀ wire id, node.repo.nativeHash.lookup wire = some id →
    node.repo.cordialId.lookup (node.repo.identityKey id) = some wire ∧
      ∃ b, node.ingress.mirror.blocklace.Stores b ∧ b.identity = id ∧ NativeShape blockHash b

/-- A block that may be written: its hash and creator are those of no other block in the
store, the blocks of the store that share its content hash refer to the same content
hashes, and it closes no cycle. -/
structure Writable (repo : RSpaceBlocklaceRepository) (block : Block) : Prop where
  fresh : repo.Fresh block
  consistent : HashConsistent (insert block repo.stored)
  acyclic : HashAcyclic (insert block repo.stored)

/-- The checks of a native call before the store. -/
def Passes (blockHash : NodeId → BlockContent → ContentHash) (ingress : LiveIngress)
    (validated : ValidatedF1r3nodeBlock) (adapter : Except String Unit) : Prop :=
  ingress.nativeIndex.checkCandidate blockHash validated = .ok () ∧
    match ingress.nativeIndex.byWireHash.lookup validated.wireHash with
    | some known => (ingress.mirror.blocklace.get known).isSome
    | none =>
        ¬((ingress.mirror.blocklace.get validated.block.identity).isSome ∨
          validated.block.identity ∈ ingress.mirror.pending) ∧
        ¬(validated.block.content.predecessors.any fun parent =>
          (ingress.mirror.blocklace.get parent).isNone) ∧
        adapter = .ok ()

/-- The block that a call writes, if it writes one, may be written. -/
def Admissible (blockHash : NodeId → BlockContent → ContentHash) (node : Node) : Call → Prop
  | .ingest block _ => Writable node.repo block
  | .native (.error _) _ => True
  | .native (.ok validated) adapter =>
      Passes blockHash node.ingress validated adapter →
        ∀ repo, node.repo.putNativeBlock validated.block validated.wireHash = .ok repo →
          Writable node.repo validated.block

/-- The byte strings in the identity of the block have 64-bit lengths. -/
def Call.Sized (call : Call) : Prop := ∀ b, call.block = some b → Persistence.Sized b.identity

theorem consensusDistinct_insert (h : ConsensusDistinct S)
    (hfresh : ∀ c ∈ S, c.identity.consensusIdentity = block.identity.consensusIdentity → c = block) :
    ConsensusDistinct (insert block S) := by
  rintro a (rfl | ha) b (rfl | hb) heq
  · rfl
  · exact (hfresh b hb heq.symm).symm
  · exact hfresh a ha heq
  · exact h a ha b hb heq

theorem sound_new (codec : IdentityCodec) (token : ℕ) : Sound blockHash (Node.new codec token) where
  keyed key b hb := by cases hb
  sized b hb := absurd hb List.not_mem_nil
  distinct a ha := absurd ha List.not_mem_nil
  consistent a ha := absurd ha List.not_mem_nil
  acyclic a ha := absurd ha List.not_mem_nil
  settled := ⟨∅, Set.empty_subset _, settled_new token⟩
  native wire id h := by cases h

/-- The mirror takes a block of the store. -/
theorem settled_ingest (hfresh : node.repo.Fresh block) (hS : S ⊆ node.repo.stored)
    (hsettled : Settled S m) : Settled (insert block S) (m.ingest alreadyValidated block).2 :=
  hsettled.ingest acceptedBy_alreadyValidated fun b hb hc => hfresh b (hS hb) hc

theorem Sound.ingest (h : Sound blockHash node) (hsized : Sized block.identity)
    (hwritable : Writable node.repo block) (adapter : Except String Unit) :
    Sound blockHash (node.step blockHash (.ingest block adapter)) := by
  obtain ⟨hfresh, hconsistent, hacyclic⟩ := hwritable
  obtain ⟨S, hS, hsettled⟩ := h.settled
  have hstored : (node.repo.putBlock block).stored = insert block node.repo.stored :=
    RSpaceBlocklaceRepository.stored_putBlock h.keyed h.sized hsized hfresh
  obtain ⟨T, hST, hT, hsettled'⟩ : ∃ T, S ⊆ T ∧ T ⊆ insert block node.repo.stored ∧
      Settled T (node.step blockHash (.ingest block adapter)).ingress.mirror := by
    cases adapter with
    | error message => exact ⟨S, Set.Subset.refl _, hS.trans (Set.subset_insert _ _), hsettled⟩
    | ok u =>
        exact ⟨insert block S, Set.subset_insert _ _, Set.insert_subset_insert hS,
          settled_ingest hfresh hS hsettled⟩
  refine ⟨h.keyed.putBlock block, ?_, ?_, ?_, ?_, ⟨T, ?_, hsettled'⟩, fun wire id hid => ?_⟩
  · show ∀ b ∈ (node.repo.putBlock block).stored, Sized b.identity
    rw [hstored]
    exact Set.forall_mem_insert.2 ⟨hsized, h.sized⟩
  · show ConsensusDistinct (node.repo.putBlock block).stored
    rw [hstored]
    exact consensusDistinct_insert h.distinct hfresh
  · show HashConsistent (node.repo.putBlock block).stored
    rw [hstored]
    exact hconsistent
  · show HashAcyclic (node.repo.putBlock block).stored
    rw [hstored]
    exact hacyclic
  · show T ⊆ (node.repo.putBlock block).stored
    rw [hstored]
    exact hT
  · obtain ⟨hcordial, b, hb, hrest⟩ := h.native wire id hid
    exact ⟨hcordial, b, stores_mono hsettled hsettled' hST hb, hrest⟩

/-- Writing a native block, where the mirror has it afterwards. -/
theorem Sound.writeNative {validated : ValidatedF1r3nodeBlock} {ingress : LiveIngress}
    {repo : RSpaceBlocklaceRepository} (h : Sound blockHash node)
    (hsized : Sized validated.block.identity) (hwritable : Writable node.repo validated.block)
    (hshape : NativeShape blockHash validated.block)
    (hput : node.repo.putNativeBlock validated.block validated.wireHash = .ok repo)
    (hT : T ⊆ insert validated.block node.repo.stored) (hsettled : Settled T ingress.mirror)
    (hkeep : ∀ b, node.ingress.mirror.blocklace.Stores b → ingress.mirror.blocklace.Stores b)
    (hstores : ingress.mirror.blocklace.Stores validated.block) :
    Sound blockHash ⟨ingress, repo⟩ := by
  obtain ⟨hfresh, hconsistent, hacyclic⟩ := hwritable
  obtain ⟨hkey, hblocks, hnative, hcordial, hone⟩ := RSpaceBlocklaceRepository.putNativeBlock_ok hput
  have hstored : repo.stored = insert validated.block node.repo.stored := by
    rw [← RSpaceBlocklaceRepository.stored_putBlock h.keyed h.sized hsized hfresh]
    unfold RSpaceBlocklaceRepository.stored
    rw [hblocks]
  refine ⟨fun key b hb => ?_, ?_, ?_, ?_, ?_, ⟨T, ?_, hsettled⟩, fun wire id hid => ?_⟩
  · have hkeyed := h.keyed.putBlock validated.block key b
    rw [← hblocks] at hkeyed
    exact hkey ▸ hkeyed hb
  · rw [hstored]
    exact Set.forall_mem_insert.2 ⟨hsized, h.sized⟩
  · rw [hstored]
    exact consensusDistinct_insert h.distinct hfresh
  · rw [hstored]
    exact hconsistent
  · rw [hstored]
    exact hacyclic
  · rw [hstored]
    exact hT
  · rw [hnative, OrderedMap.lookup_insert] at hid
    rw [hkey, hcordial, OrderedMap.lookup_insert]
    split_ifs at hid with hwire
    · obtain rfl := Option.some.inj hid
      exact ⟨by rw [if_pos rfl, hwire], validated.block, hstores, rfl, hshape⟩
    · obtain ⟨hold, b, hb, hrest⟩ := h.native wire id hid
      refine ⟨?_, b, hkeep b hb, hrest⟩
      rw [if_neg]
      · exact hold
      · intro hsame
        rw [hsame] at hold
        exact hwire (hone wire hold)

/-- A block that the mirror knows by hash and creator is the written one. -/
theorem eq_of_consensus (hfresh : node.repo.Fresh block) (hS : S ⊆ node.repo.stored)
    (hsettled : Settled S m) {c : Block} (hc : m.blocklace.Stores c ∨ c ∈ m.waiting)
    (heq : c.identity.consensusIdentity = block.identity.consensusIdentity) : c = block :=
  hfresh c (hS ((hsettled.kept c).2 hc)) heq

/-- After its preflight a native block is stored by the mirror. -/
theorem stores_of_preflight (hfresh : node.repo.Fresh block) (hS : S ⊆ node.repo.stored)
    (hsettled : Settled S m)
    (hparents : ¬block.content.predecessors.any fun parent => (m.blocklace.get parent).isNone) :
    (m.ingest alreadyValidated block).2.blocklace.Stores block := by
  have hready : m.Ready block := by
    intro p hp
    have hsome : (m.blocklace.get p).isSome := by
      rw [← Option.not_isNone]
      simp only [List.any_eq_true, not_exists, not_and, Bool.not_eq_true] at hparents
      rw [hparents p hp]
      rfl
    obtain ⟨r, hr⟩ := Option.isSome_iff_exists.1 (Blocklace.get_isSome_iff.1 hsome)
    exact ⟨r, hr⟩
  refine (settled_ingest hfresh hS hsettled).stores_iff.2 ?_
  exact rooted_of_ready (Set.mem_insert _ _) hready fun b hb =>
    (hsettled.rooted b hb).mono (fun _ => id) (Set.subset_insert _ _)

theorem Sound.ingestNative (h : Sound blockHash node) (mapped : Except String ValidatedF1r3nodeBlock)
    (adapter : Except String Unit) (hsized : (Call.native mapped adapter).Sized)
    (hadm : Admissible blockHash node (.native mapped adapter)) :
    Sound blockHash (node.step blockHash (.native mapped adapter)) := by
  obtain ⟨S, hS, hsettled⟩ := h.settled
  unfold Node.step LiveIngress.ingestNativeAndPersist
  cases mapped with
  | error message => exact h
  | ok validated =>
      have hblock : Sized validated.block.identity := hsized _ rfl
      dsimp only
      cases hcheck : node.ingress.nativeIndex.checkCandidate blockHash validated with
      | error message => exact h
      | ok u =>
          cases u
          obtain ⟨hshape, hsame⟩ := NativeBlockIdentityIndex.checkCandidate_ok hcheck
          dsimp only
          cases hknown : node.ingress.nativeIndex.byWireHash.lookup validated.wireHash with
          | some known =>
              obtain rfl := hsame known hknown
              dsimp only
              split_ifs with habsent
              · exact h
              · cases hput : node.repo.putNativeBlock validated.block validated.wireHash with
                | error error => exact h
                | ok repo =>
                    -- the block is in the mirror already
                    cases hget : node.ingress.mirror.blocklace.get validated.block.identity with
                    | none => simp [hget] at habsent
                    | some c =>
                        have hwritable : Writable node.repo validated.block := by
                          refine hadm ⟨hcheck, ?_⟩ repo hput
                          simp [hknown, hget]
                        obtain ⟨hresolve, hlookup⟩ := Blocklace.get_eq_some_iff.1 hget
                        have hcb : c = validated.block := eq_of_consensus hwritable.fresh hS hsettled
                          (Or.inl hlookup) (Blocklace.resolveIdentity_consensus hresolve).symm
                        subst hcb
                        exact h.writeNative hblock hwritable hshape hput
                          (hS.trans (Set.subset_insert _ _)) hsettled (fun _ hb => hb) hlookup
          | none =>
              dsimp only
              split_ifs with hpresent hparents
              · exact h
              · exact h
              · cases adapter with
                | error message => exact h
                | ok u =>
                    cases u
                    dsimp only
                    cases hput : node.repo.putNativeBlock validated.block validated.wireHash with
                    | error error => exact h
                    | ok repo =>
                        have hwritable : Writable node.repo validated.block := by
                          refine hadm ⟨hcheck, ?_⟩ repo hput
                          rw [hknown]
                          exact ⟨hpresent, hparents, rfl⟩
                        have hmirror := LiveIngress.applyNative_mirror blockHash node.ingress validated
                        have hsettled' := settled_ingest hwritable.fresh hS hsettled
                        rw [← hmirror] at hsettled'
                        refine h.writeNative hblock hwritable hshape hput
                          (Set.insert_subset_insert hS) hsettled' (fun b hb => ?_) ?_
                        · exact stores_mono hsettled hsettled' (Set.subset_insert _ _) hb
                        · rw [hmirror]
                          exact stores_of_preflight hwritable.fresh hS hsettled hparents

/-- **Every admissible call keeps the node sound.** -/
theorem Sound.step (h : Sound blockHash node) {call : Call} (hsized : call.Sized)
    (hadm : Admissible blockHash node call) : Sound blockHash (node.step blockHash call) := by
  cases call with
  | ingest block adapter => exact h.ingest (hsized block rfl) hadm adapter
  | native mapped adapter => exact h.ingestNative mapped adapter hsized hadm

/-! ### The boot -/

/-- **A sound node boots from its store** and finds what its mirror had. -/
theorem Sound.boots (h : Sound blockHash node) (haccept : ∀ b : Block, b.AcceptedBy verifier)
    (token : ℕ) : ∃ ingress,
      LiveIngress.withPersistentStore blockHash node.repo verifier token =
        some (.ok (ingress, node.repo.cursor)) ∧
      ∀ b, node.ingress.mirror.blocklace.Stores b → ingress.mirror.blocklace.Stores b := by
  obtain ⟨S, hS, hsettled⟩ := h.settled
  obtain ⟨engine, hrecover, hengine⟩ := RSpaceBlocklaceRepository.recoverIntoEngine_stores
    haccept h.keyed h.distinct h.consistent h.acyclic token
  have hkept : ∀ b, node.ingress.mirror.blocklace.Stores b → engine.Stores b := fun b hb =>
    (hengine b).2 ((hsettled.stores_iff.1 hb).mono (fun _ => id) hS)
  have hmappings : node.repo.nativeBlockMappings = .ok node.repo.nativeHash.entries := by
    unfold RSpaceBlocklaceRepository.nativeBlockMappings
    rw [if_pos]
    refine List.all_eq_true.2 fun entry hentry => ?_
    rw [decide_eq_true_eq]
    exact (h.native entry.1 entry.2 (OrderedMap.mem_entries_iff.1 hentry)).1
  have hrecordable : Recordable blockHash engine node.repo.nativeHash.entries := by
    refine ⟨fun wire id id' hid hid' => ?_, fun wire wire' id hid hid' => ?_, fun wire id hid => ?_⟩
    · rw [OrderedMap.mem_entries_iff] at hid hid'
      exact Option.some.inj (hid.symm.trans hid')
    · rw [OrderedMap.mem_entries_iff] at hid hid'
      exact Option.some.inj ((h.native wire id hid).1.symm.trans (h.native wire' id hid').1)
    · obtain ⟨-, b, hb, hrest⟩ := h.native wire id (OrderedMap.mem_entries_iff.1 hid)
      exact ⟨b, hkept b hb, hrest⟩
  obtain ⟨index, hindex⟩ := hrecordable.exists_recordMappings _ .new (List.Subset.refl _)
    (fun _ _ hlookup => by cases hlookup) fun _ _ hlookup => by cases hlookup
  refine ⟨⟨⟨engine, ∅⟩, index⟩, ?_, hkept⟩
  unfold LiveIngress.withPersistentStore
  rw [hrecover, Option.map_some, hmappings]
  simp only [Except.mapError, bind, Except.bind, hindex]
  rfl

/-- The node after calls. -/
def Node.run (blockHash : NodeId → BlockContent → ContentHash) (node : Node) (calls : List Call) :
    Node := calls.foldl (Node.step blockHash) node

/-- Every call of a run is admissible. -/
def AllAdmissible (blockHash : NodeId → BlockContent → ContentHash) : Node → List Call → Prop
  | _, [] => True
  | node, call :: calls =>
      Admissible blockHash node call ∧ AllAdmissible blockHash (node.step blockHash call) calls

theorem Sound.run (h : Sound blockHash node) (calls : List Call)
    (hsized : ∀ call ∈ calls, call.Sized) (hadm : AllAdmissible blockHash node calls) :
    Sound blockHash (node.run blockHash calls) := by
  induction calls generalizing node with
  | nil => exact h
  | cons call calls ih =>
      obtain ⟨hcall, hcalls⟩ := List.forall_mem_cons.1 hsized
      exact ih (h.step hcall hadm.1) hcalls hadm.2

/-- **A node boots from its own store.**  In every run in which each block that a call writes
may be written, every state boots, and what the mirror had is recovered. -/
theorem boots_from_own_store (codec : IdentityCodec)
    (haccept : ∀ b : Block, b.AcceptedBy verifier) (token token' : ℕ)
    (calls : List Call) (hsized : ∀ call ∈ calls, call.Sized)
    (hadm : AllAdmissible blockHash (Node.new codec token) calls) :
    ∃ ingress cursor,
      LiveIngress.withPersistentStore blockHash ((Node.new codec token).run blockHash calls).repo
        verifier token' = some (.ok (ingress, cursor)) ∧
      ∀ b, ((Node.new codec token).run blockHash calls).ingress.mirror.blocklace.Stores b →
        ingress.mirror.blocklace.Stores b := by
  obtain ⟨ingress, hboot, hkept⟩ := ((sound_new codec token).run calls hsized hadm).boots haccept token'
  exact ⟨ingress, _, hboot, hkept⟩

/-! ### Two nodes -/

instance (B : Blocklace) (b : Block) : Decidable (B.Stores b) :=
  inferInstanceAs (Decidable (B.blocks.lookup b.identity = some b.content))

/-- References to smaller hashes close no cycle. -/
theorem hashAcyclic_of_lt
    (h : ∀ b ∈ S, ∀ p ∈ b.refs, p.contentHash.val < b.identity.contentHash.val) : HashAcyclic S := by
  intro b hb hcycle
  have hlower : ∀ c, Relation.TransGen (RefersIn Block.refs HashNames S) b c →
      c.identity.contentHash.val < b.identity.contentHash.val := by
    intro c hpath
    induction hpath with
    | single hstep =>
        obtain ⟨-, p, hp, hname⟩ := hstep
        have hlt := h b hb p hp
        rwa [hname] at hlt
    | @tail c d hpath hstep ih =>
        have hc : c ∈ S := by
          obtain ⟨_, -, hlast⟩ := Relation.TransGen.tail'_iff.1 hpath
          exact hlast.1
        obtain ⟨-, p, hp, hname⟩ := hstep
        have hlt := h c hc p hp
        rw [hname] at hlt
        omega
  exact absurd (hlower b hcycle) (Nat.lt_irrefl _)

/-- A hash that tells contents apart by their references. -/
def countHash (_ : NodeId) (content : BlockContent) : ContentHash :=
  Fin.ofNat _ (content.predecessors.length + 1)

/-- A block of creator `1` without references, under some signature. -/
def rootBlock (signature : List Byte) : Block := ⟨⟨1, ⟨[1]⟩, signature⟩, ⟨[], []⟩⟩

/-- An unsigned block above it. -/
def nativeBlock : Block := ⟨⟨2, ⟨[1]⟩, []⟩, ⟨[], [(rootBlock [2]).identity]⟩⟩

/-- A fresh node over `bincode`. -/
def freshNode : Node := .new bincodeIdentity 0

/-- A block and a native block above it. -/
def honestCalls : List Call :=
  [.ingest (rootBlock [2]) (.ok ()), .native (.ok ⟨nativeBlock, 7⟩) (.ok ())]

theorem stored_honestNode : (freshNode.step countHash
    (.ingest (rootBlock [2]) (.ok ()))).repo.stored = {rootBlock [2]} := by
  have hvalues : (freshNode.step countHash
      (.ingest (rootBlock [2]) (.ok ()))).repo.blocksDb.values = [rootBlock [2]] := by decide +kernel
  unfold RSpaceBlocklaceRepository.stored
  rw [hvalues]
  exact Set.ext fun b => List.mem_singleton

theorem allAdmissible_honestCalls : AllAdmissible countHash freshNode honestCalls := by
  refine ⟨⟨fun c hc => absurd hc List.not_mem_nil, ?_, hashAcyclic_of_lt ?_⟩, fun _ repo _ =>
    ⟨?_, ?_, hashAcyclic_of_lt ?_⟩, trivial⟩
  · rintro a (rfl | ha) b (rfl | hb) -
    · exact List.Subset.refl _
    · exact absurd hb List.not_mem_nil
    · exact absurd ha List.not_mem_nil
    · exact absurd ha List.not_mem_nil
  · rintro b (rfl | hb)
    · exact fun p hp => absurd hp List.not_mem_nil
    · exact absurd hb List.not_mem_nil
  · unfold RSpaceBlocklaceRepository.Fresh
    rw [stored_honestNode]
    rintro c rfl hc
    exact absurd hc (by decide)
  · rw [stored_honestNode]
    rintro a (rfl | rfl) b (rfl | rfl) hhash
    · exact List.Subset.refl _
    · exact absurd hhash (by decide)
    · exact absurd hhash (by decide)
    · exact List.Subset.refl _
  · rw [stored_honestNode]
    rintro b (rfl | rfl)
    · decide
    · exact fun p hp => absurd hp List.not_mem_nil

theorem sized_honestCalls : ∀ call ∈ honestCalls, call.Sized := by
  intro call hcall b hb
  rcases List.mem_pair.1 hcall with rfl | rfl
  · obtain rfl := Option.some.inj hb
    exact ⟨by decide, by decide⟩
  · obtain rfl := Option.some.inj hb
    exact ⟨by decide, by decide⟩

/-- The node with a native block finds both blocks. -/
theorem boots_from_own_store_native : ∃ ingress cursor,
    LiveIngress.withPersistentStore countHash (freshNode.run countHash honestCalls).repo
      alreadyValidated 1 = some (.ok (ingress, cursor)) ∧
    ingress.mirror.blocklace.Stores nativeBlock := by
  obtain ⟨ingress, cursor, hboot, hkept⟩ := boots_from_own_store bincodeIdentity
    acceptedBy_alreadyValidated 0 1 honestCalls sized_honestCalls allAdmissible_honestCalls
  exact ⟨ingress, cursor, hboot, hkept nativeBlock (by decide +kernel)⟩

/-- A block under two signatures; the call with the second one returns an error. -/
def variantNode : Node :=
  freshNode.run countHash [.ingest (rootBlock [2]) (.ok ()), .ingest (rootBlock [1]) (.ok ())]

/-- **A refused signature of a block takes its place at boot.** -/
theorem refused_variant_recovered : variantNode.ingress.mirror.blocklace.Stores (rootBlock [2]) ∧
    ∃ ingress cursor,
      LiveIngress.withPersistentStore countHash variantNode.repo alreadyValidated 1 =
        some (.ok (ingress, cursor)) ∧
      ¬ingress.mirror.blocklace.Stores (rootBlock [2]) ∧
      ingress.mirror.blocklace.Stores (rootBlock [1]) := by
  refine ⟨by decide +kernel, ?_⟩
  have hboot : ((LiveIngress.withPersistentStore countHash variantNode.repo alreadyValidated 1).any
      fun result => result.toOption.any fun boot =>
        decide (¬boot.1.mirror.blocklace.Stores (rootBlock [2]) ∧
          boot.1.mirror.blocklace.Stores (rootBlock [1]))) = true := by decide +kernel
  obtain ⟨result, hresult, hstores⟩ := (Option.any_eq_true _ _).1 hboot
  cases result with
  | error error => simp [Except.toOption] at hstores
  | ok boot =>
      obtain ⟨ingress, cursor⟩ := boot
      exact ⟨ingress, cursor, hresult, by simpa [Except.toOption] using hstores⟩

end CordialMiners.Persistence
