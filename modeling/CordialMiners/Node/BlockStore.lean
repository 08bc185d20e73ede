/-
# The block store and recovery at boot

`RSpaceBlocklaceRepository` of `cordial-f1r3space-adapter` (`lmdb_store/repository_impl.rs`
and `lmdb_store/recovery.rs`).

The store keeps blocks under their serialized identities, and for native blocks the
hash of the host node next to the identity, in both directions.  LMDB is an ordered map
from keys to values, a write takes place as a whole, and the values are kept as what
they decode to.

At boot the blocks are read in the order of their keys, sorted by height and inserted
one by one; a block that the engine refuses is left out.  The heights are computed over
content hashes.  Where no two blocks have hash and creator in common, blocks with one
content hash refer to the same content hashes, and no references lead back to where they
start, the recovered blocks are exactly the rooted ones (`recoverIntoEngine_stores`).
-/

import CordialMiners.Collections.OrderedMap
import CordialMiners.Execution.Payload
import CordialMiners.Graph.Heights
import CordialMiners.Node.LiveMirror

namespace CordialMiners.Persistence

open FinGraph Relation

/-- The lengths of the byte strings in an identity are 64-bit numbers. -/
def Sized (id : BlockIdentity) : Prop :=
  id.creator.bytes.length < 2 ^ 64 ∧ id.signature.length < 2 ^ 64

/-- What the store relies on in `bincode`: **the keys tell identities apart.** -/
structure IdentityCodec where
  identityKey : BlockIdentity → List Byte
  identityKey_inj : ∀ {id id' : BlockIdentity}, Sized id → Sized id' →
    identityKey id = identityKey id' → id = id'

theorem sizedBytes_append_inj {bytes bytes' rest rest' : List Byte} (hb : bytes.length < 2 ^ 64)
    (hb' : bytes'.length < 2 ^ 64) (h : sizedBytes bytes ++ rest = sizedBytes bytes' ++ rest') :
    bytes = bytes' ∧ rest = rest' := by
  unfold sizedBytes at h
  rw [List.append_assoc, List.append_assoc] at h
  obtain ⟨hlen, hrest⟩ := List.append_inj h (by simp)
  have hlength : bytes.length = bytes'.length := by
    rw [← Codec.ofLeBytes_leBytes (w := 8) hb, hlen, Codec.ofLeBytes_leBytes hb']
  exact List.append_inj hrest hlength

/-- The layout of `bincode`. -/
def bincodeIdentity : IdentityCodec where
  identityKey id :=
    contentHashBytes id.contentHash ++ sizedBytes id.creator.bytes ++ sizedBytes id.signature
  identityKey_inj {id id'} hid hid' h := by
    rw [List.append_assoc, List.append_assoc] at h
    obtain ⟨hhash, hrest⟩ := List.append_inj h (by simp)
    obtain ⟨hcreator, hrest⟩ := sizedBytes_append_inj hid.1 hid'.1 hrest
    obtain ⟨hsignature, -⟩ := @sizedBytes_append_inj _ _ [] [] hid.2 hid'.2 (by simpa using hrest)
    have hcontent : id.contentHash = id'.contentHash := contentHashBytes_injective hhash
    obtain ⟨_, ⟨_⟩, _⟩ := id
    obtain ⟨_, ⟨_⟩, _⟩ := id'
    simp only [BlockIdentity.mk.injEq, NodeId.mk.injEq]
    exact ⟨hcontent, hcreator, hsignature⟩

/-- Why the repository fails. -/
inductive RepoError where
  | nativeMapping (message : String)
deriving DecidableEq, Repr

/-- The databases `cordial-blocks` and `cordial-meta`, with the codec of their keys; the latter
holds the finalized cursor and two maps under prefixes. -/
structure RSpaceBlocklaceRepository extends IdentityCodec where
  blocksDb : OrderedMap (List Byte) Block
  nativeHash : OrderedMap ContentHash BlockIdentity
  cordialId : OrderedMap (List Byte) ContentHash
  cursor : Option BlockIdentity

namespace RSpaceBlocklaceRepository

/-- A store without entries. -/
def empty (codec : IdentityCodec) : RSpaceBlocklaceRepository :=
  ⟨codec, .empty, .empty, .empty, none⟩

/-- `put_block`. -/
def putBlock (repo : RSpaceBlocklaceRepository) (block : Block) : RSpaceBlocklaceRepository :=
  { repo with blocksDb := repo.blocksDb.insert (repo.identityKey block.identity) block }

/-- `put_native_block`. -/
def putNativeBlock (repo : RSpaceBlocklaceRepository) (block : Block) (wireHash : ContentHash) :
    Except RepoError RSpaceBlocklaceRepository :=
  if (repo.blocksDb.lookup (repo.identityKey block.identity)).any fun existing => existing ≠ block then
    .error (.nativeMapping "Cordial identity already has different block contents")
  else if (repo.nativeHash.lookup wireHash).any fun existing =>
      repo.identityKey existing ≠ repo.identityKey block.identity then
    .error (.nativeMapping "native wire hash already maps to another Cordial identity")
  else if (repo.cordialId.lookup (repo.identityKey block.identity)).any fun existing =>
      existing ≠ wireHash then
    .error (.nativeMapping "distinct native wire hashes map to one Cordial identity")
  else .ok
    { repo with
      blocksDb := repo.blocksDb.insert (repo.identityKey block.identity) block
      nativeHash := repo.nativeHash.insert wireHash block.identity
      cordialId := repo.cordialId.insert (repo.identityKey block.identity) wireHash }

/-- `native_block_mappings`, in the order of the hashes. -/
def nativeBlockMappings (repo : RSpaceBlocklaceRepository) :
    Except RepoError (List (ContentHash × BlockIdentity)) :=
  if repo.nativeHash.entries.all fun entry =>
      repo.cordialId.lookup (repo.identityKey entry.2) = some entry.1 then
    .ok repo.nativeHash.entries
  else .error (.nativeMapping "native and Cordial identity mappings disagree")

end RSpaceBlocklaceRepository

/-! ### The boot order -/

/-- `block_map`: of several blocks with one content hash the last is kept. -/
def blockWithHash (blocks : List Block) (hash : ContentHash) : Option Block :=
  blocks.reverse.find? fun block => block.identity.contentHash = hash

/-- The content hashes of the references of a block. -/
def hashRefs (block : Block) : List ContentHash :=
  block.content.predecessors.map BlockIdentity.contentHash

/-- `compute_height`; the cache only spares work.  There is no result where the recursion
does not end. -/
def computeHeight (blocks : List Block) (hash : ContentHash) : Option ℕ :=
  height (fun hash => (blockWithHash blocks hash).map hashRefs) (blocks.length + 1) hash

/-- The sort key of a block. -/
def blockHeight (blocks : List Block) (block : Block) : ℕ :=
  (computeHeight blocks block.identity.contentHash).getD 0

/-- `topo_sort_blocks`. -/
def topoSortBlocks (blocks : List Block) : Option (List Block) :=
  if blocks.all fun block => (computeHeight blocks block.identity.contentHash).isSome then
    some (blocks.insertionSort fun a b => blockHeight blocks a ≤ blockHeight blocks b)
  else none

/-- Insert a block unless the engine refuses it. -/
def replay (verifier : CryptoVerifier) (engine : Blocklace) (block : Block) : Blocklace :=
  match engine.insert block verifier with
  | .ok engine' => engine'
  | .error _ => engine

/-- `recover_into_engine`, from an engine without blocks.  There is no result where the
sort does not end. -/
def RSpaceBlocklaceRepository.recoverIntoEngine (repo : RSpaceBlocklaceRepository)
    (verifier : CryptoVerifier) (engine : Blocklace) : Option (Option BlockIdentity × Blocklace) :=
  (topoSortBlocks repo.blocksDb.values).map fun sorted =>
    (repo.cursor, sorted.foldl (replay verifier) engine)

/-! ### Heights -/

/-- The reference names a block with the content hash of the given one. -/
def HashNames (p : BlockIdentity) (block : Block) : Prop := p.contentHash = block.identity.contentHash

/-- Blocks that share a content hash refer to the same content hashes. -/
def HashConsistent (S : Set Block) : Prop :=
  ∀ a ∈ S, ∀ b ∈ S, a.identity.contentHash = b.identity.contentHash → hashRefs a ⊆ hashRefs b

/-- No two blocks have hash and creator in common. -/
def ConsensusDistinct (S : Set Block) : Prop :=
  ∀ a ∈ S, ∀ b ∈ S, a.identity.consensusIdentity = b.identity.consensusIdentity → a = b

/-- No block is reached from itself along the content hashes of references. -/
def HashAcyclic (S : Set Block) : Prop := NoCycle Block.refs HashNames S

variable {blocks : List Block} {hash hash' : ContentHash} {a b c : Block}

theorem blockWithHash_eq_some (h : blockWithHash blocks hash = some b) :
    b ∈ blocks ∧ b.identity.contentHash = hash :=
  ⟨List.mem_reverse.1 (List.mem_of_find?_eq_some h), by simpa using List.find?_some h⟩

theorem exists_blockWithHash (hb : b ∈ blocks) :
    ∃ c, blockWithHash blocks b.identity.contentHash = some c := by
  unfold blockWithHash
  rw [← Option.isSome_iff_exists, List.find?_isSome]
  exact ⟨b, List.mem_reverse.2 hb, by simp⟩

/-- A hash and one that a block with it refers to. -/
theorem parentOf_iff (hconsistent : HashConsistent {b | b ∈ blocks}) :
    ParentOf (fun hash => (blockWithHash blocks hash).map hashRefs) hash' hash ↔
      ∃ b ∈ blocks, b.identity.contentHash = hash ∧ hash' ∈ hashRefs b := by
  unfold ParentOf
  simp only [Option.map_eq_some_iff]
  constructor
  · rintro ⟨_, ⟨b, hfind, rfl⟩, hmem⟩
    obtain ⟨hb, hhash⟩ := blockWithHash_eq_some hfind
    exact ⟨b, hb, hhash, hmem⟩
  · rintro ⟨b, hb, rfl, hmem⟩
    obtain ⟨c, hfind⟩ := exists_blockWithHash hb
    obtain ⟨hc, hhash⟩ := blockWithHash_eq_some hfind
    exact ⟨_, ⟨c, hfind, rfl⟩, hconsistent b hb c hc hhash.symm hmem⟩

theorem refersIn_of_hashRefs (hc : c ∈ blocks) (h : c.identity.contentHash ∈ hashRefs b) :
    RefersIn Block.refs HashNames {b | b ∈ blocks} b c := by
  obtain ⟨p, hp, hhash⟩ := List.mem_map.1 h
  exact ⟨hc, p, hp, hhash⟩

/-- A path of hashes is a path of blocks. -/
theorem transGen_refersIn (hconsistent : HashConsistent {b | b ∈ blocks})
    (h : TransGen (ParentOf fun hash => (blockWithHash blocks hash).map hashRefs) hash' hash)
    (hc : c ∈ blocks) (hhash : c.identity.contentHash = hash') :
    ∃ b ∈ blocks, b.identity.contentHash = hash ∧
      TransGen (RefersIn Block.refs HashNames {b | b ∈ blocks}) b c := by
  subst hhash
  induction h with
  | single hparent =>
      obtain ⟨b, hb, hhash, hmem⟩ := (parentOf_iff hconsistent).1 hparent
      exact ⟨b, hb, hhash, .single (refersIn_of_hashRefs hc hmem)⟩
  | tail _ hparent ih =>
      obtain ⟨b, hb, rfl, hpath⟩ := ih
      obtain ⟨d, hd, hhash, hmem⟩ := (parentOf_iff hconsistent).1 hparent
      exact ⟨d, hd, hhash, .head (refersIn_of_hashRefs hb hmem) hpath⟩

/-- The heights are computed where no hash leads back to itself. -/
theorem computeHeight_isSome_of_noCycle (hloop : ∀ hash, ¬ TransGen
      (ParentOf fun hash => (blockWithHash blocks hash).map hashRefs) hash hash)
    (hash : ContentHash) : (computeHeight blocks hash).isSome := by
  have hknown : ∀ hash, (blockWithHash blocks hash).map hashRefs ≠ none →
      hash ∈ (blocks.map fun b => b.identity.contentHash).toFinset := by
    intro hash hsome
    obtain ⟨_, hrefs⟩ := Option.ne_none_iff_exists'.1 hsome
    obtain ⟨b, hb, -⟩ := Option.map_eq_some_iff.1 hrefs
    obtain ⟨hmem, rfl⟩ := blockWithHash_eq_some hb
    exact List.mem_toFinset.2 (List.mem_map_of_mem hmem)
  obtain ⟨h, hh⟩ := Option.isSome_iff_exists.1 (height_isSome hknown hloop hash)
  have hcard : (blocks.map fun b => b.identity.contentHash).toFinset.card ≤ blocks.length := by
    refine (List.toFinset_card_le _).trans ?_
    rw [List.length_map]
  exact Option.isSome_iff_exists.2 ⟨h, height_mono hh (Nat.succ_le_succ hcard)⟩

/-- **The heights of all hashes are computed.** -/
theorem computeHeight_isSome (hconsistent : HashConsistent {b | b ∈ blocks})
    (hcycle : HashAcyclic {b | b ∈ blocks}) (hash : ContentHash) :
    (computeHeight blocks hash).isSome := by
  refine computeHeight_isSome_of_noCycle (fun hash hpath => ?_) hash
  obtain ⟨_, -, hlast⟩ := TransGen.tail'_iff.1 hpath
  obtain ⟨b, hb, hhash, -⟩ := (parentOf_iff hconsistent).1 hlast
  obtain ⟨c, hc, hchash, hblocks⟩ := transGen_refersIn hconsistent hpath hb hhash
  -- the path ends in a block with the hash that it starts from
  obtain ⟨d, hfirst, -, p, hp, hname⟩ := TransGen.tail'_iff.1 hblocks
  have hnamec : HashNames p c := hname.trans (hhash.trans hchash.symm)
  exact hcycle c hc (TransGen.tail' hfirst ⟨hc, p, hp, hnamec⟩)

/-- **A reference is lower.** -/
theorem blockHeight_lt (hconsistent : HashConsistent {b | b ∈ blocks})
    (hcycle : HashAcyclic {b | b ∈ blocks}) (hb : b ∈ blocks) {p : BlockIdentity}
    (hp : p ∈ b.refs) (hname : HashNames p c) : blockHeight blocks c < blockHeight blocks b := by
  obtain ⟨h, hh⟩ := Option.isSome_iff_exists.1
    (computeHeight_isSome hconsistent hcycle b.identity.contentHash)
  obtain ⟨h', hh', hlt⟩ := height_parent hh ((parentOf_iff hconsistent).2
    ⟨b, hb, rfl, List.mem_map.2 ⟨p, hp, hname⟩⟩)
  have hc : computeHeight blocks c.identity.contentHash = some h' := height_mono hh' (Nat.le_succ _)
  unfold blockHeight
  rw [hh, hc]
  exact hlt

/-- The sort, where all heights are computed. -/
theorem topoSortBlocks_of_isSome
    (hall : ∀ b ∈ blocks, (computeHeight blocks b.identity.contentHash).isSome) :
    ∃ sorted, topoSortBlocks blocks = some sorted ∧ sorted.Perm blocks ∧
      sorted.Pairwise fun a b => blockHeight blocks a ≤ blockHeight blocks b := by
  unfold topoSortBlocks
  rw [if_pos (List.all_eq_true.2 hall)]
  have : Std.Total fun a b : Block => blockHeight blocks a ≤ blockHeight blocks b :=
    ⟨fun a b => Nat.le_total _ _⟩
  have : IsTrans Block fun a b => blockHeight blocks a ≤ blockHeight blocks b :=
    ⟨fun a b c => Nat.le_trans⟩
  exact ⟨_, rfl, List.perm_insertionSort _ _, List.pairwise_insertionSort _ _⟩

theorem topoSortBlocks_spec (hconsistent : HashConsistent {b | b ∈ blocks})
    (hcycle : HashAcyclic {b | b ∈ blocks}) :
    ∃ sorted, topoSortBlocks blocks = some sorted ∧ sorted.Perm blocks ∧
      sorted.Pairwise fun a b => blockHeight blocks a ≤ blockHeight blocks b :=
  topoSortBlocks_of_isSome fun _ _ => computeHeight_isSome hconsistent hcycle _

/-! ### The replay -/

variable {verifier : CryptoVerifier} {engine : Blocklace}

/-- One block of the replay: it is inserted exactly where its references resolve. -/
theorem replay_cases (hacc : a.AcceptedBy verifier) (hnew : engine.Unused a.identity) :
    (Available Block.refs engine.Resolves a ∧ engine.Inserted a (replay verifier engine a)) ∨
      (¬Available Block.refs engine.Resolves a ∧ replay verifier engine a = engine) := by
  by_cases hav : Available Block.refs engine.Resolves a
  · obtain ⟨engine', hins⟩ := Blocklace.exists_insert_ok hacc hav
      (Blocklace.conflictingIdentityVariant_eq_none_iff.2 (Or.inr hnew))
    refine Or.inl ⟨hav, ?_⟩
    unfold replay
    rw [hins]
    exact Blocklace.insert_ok hins
  · refine Or.inr ⟨hav, ?_⟩
    unfold replay
    cases hins : engine.insert a verifier with
    | error error => rfl
    | ok engine' =>
        exact absurd (Blocklace.missingPredecessors_eq_nil_iff.1 (Blocklace.insert_ok hins).closed) hav

/-- The blocks that are read and lead back to blocks without references. -/
def RootedIn (S : Set Block) (b : Block) : Prop :=
  Rooted Block.refs Block.NamedBy (fun _ => False) S b

/-- **The replay of sorted blocks stores the rooted ones** among those replayed. -/
theorem replay_stores (haccept : ∀ b : Block, b.AcceptedBy verifier)
    (hdistinct : ConsensusDistinct {b | b ∈ blocks})
    (hconsistent : HashConsistent {b | b ∈ blocks}) (hcycle : HashAcyclic {b | b ∈ blocks})
    (hnodup : blocks.Nodup) {front rear : List Block} (hperm : (front ++ rear).Perm blocks)
    (hsorted : (front ++ rear).Pairwise fun a b => blockHeight blocks a ≤ blockHeight blocks b)
    (hfront : ∀ b, engine.Stores b ↔ b ∈ front ∧ RootedIn {b | b ∈ blocks} b) (b : Block) :
    (rear.foldl (replay verifier) engine).Stores b ↔ RootedIn {b | b ∈ blocks} b := by
  induction rear generalizing front engine with
  | nil =>
      rw [List.append_nil] at hperm
      rw [List.foldl_nil, hfront]
      exact and_iff_right_of_imp fun hb => hperm.mem_iff.2 hb.mem
  | cons a rear ih =>
      have hmem : ∀ c, c ∈ front ++ a :: rear ↔ c ∈ blocks := fun c => hperm.mem_iff
      have ha : a ∈ blocks := (hmem a).1 (by simp)
      have hlater : a ∉ front := fun hearly =>
        (List.disjoint_of_nodup_append (hperm.nodup_iff.2 hnodup)) hearly List.mem_cons_self
      have hnew : engine.Unused a.identity := by
        intro k hk heq
        obtain ⟨c, rfl, hc⟩ := Blocklace.exists_stores hk
        obtain ⟨hcfront, hcroot⟩ := (hfront c).1 hc
        exact hlater (hdistinct c hcroot.mem a ha heq ▸ hcfront)
      -- the references of a rooted block are lower, so they were replayed before
      have havailable : Available Block.refs engine.Resolves a ↔ RootedIn {b | b ∈ blocks} a := by
        constructor
        · intro hav
          refine .of_refs ha fun p hp => Or.inr ?_
          obtain ⟨r, hr, hname⟩ := Blocklace.resolves_iff.1 (hav p hp)
          obtain ⟨c, rfl, hc⟩ := Blocklace.exists_stores hr
          exact ⟨c, hname, ((hfront c).1 hc).2⟩
        · intro hroot p hp
          obtain ⟨c, hname, hc⟩ := (hroot.refs_cases hp).resolve_left id
          have hlower : blockHeight blocks c < blockHeight blocks a :=
            blockHeight_lt hconsistent hcycle ha hp (BlockIdentity.consensusIdentity_eq_iff.1 hname.1).1
          have hearly : c ∈ front := mem_front_of_sorted hsorted ((hmem c).2 hc.mem) hlower
          exact Blocklace.resolves_iff.2 ⟨c.identity, ((hfront c).2 ⟨hearly, hc⟩).mem, hname⟩
      rw [List.foldl_cons]
      refine @ih (replay verifier engine a) (front ++ [a]) (by simpa using hperm)
        (by simpa using hsorted) fun c => ?_
      rcases replay_cases (haccept a) hnew with ⟨hav, hins⟩ | ⟨hav, hsame⟩
      · rw [hins.stores_iff hnew.not_mem, hfront, List.mem_append, List.mem_singleton]
        have hroot := havailable.1 hav
        constructor
        · rintro (⟨hc, hcroot⟩ | rfl)
          · exact ⟨Or.inl hc, hcroot⟩
          · exact ⟨Or.inr rfl, hroot⟩
        · rintro ⟨hc | rfl, hcroot⟩
          · exact Or.inl ⟨hc, hcroot⟩
          · exact Or.inr rfl
      · rw [hsame, hfront, List.mem_append, List.mem_singleton]
        have hroot := mt havailable.2 hav
        constructor
        · exact fun ⟨hc, hcroot⟩ => ⟨Or.inl hc, hcroot⟩
        · rintro ⟨hc | rfl, hcroot⟩
          · exact ⟨hc, hcroot⟩
          · exact absurd hcroot hroot

namespace RSpaceBlocklaceRepository

variable {repo repo' : RSpaceBlocklaceRepository} {block : Block} {wireHash : ContentHash}

/-- The blocks in the store. -/
def stored (repo : RSpaceBlocklaceRepository) : Set Block := {b | b ∈ repo.blocksDb.values}

/-- Each block is under its own key. -/
def Keyed (repo : RSpaceBlocklaceRepository) : Prop :=
  ∀ key b, repo.blocksDb.lookup key = some b → key = repo.identityKey b.identity

theorem Keyed.nodup (h : repo.Keyed) : repo.blocksDb.values.Nodup := by
  have hkeys : repo.blocksDb.values.map (fun b => repo.identityKey b.identity) = repo.blocksDb.keys := by
    unfold OrderedMap.values OrderedMap.keys
    rw [List.map_map]
    refine List.map_congr_left fun entry hentry => ?_
    exact (h entry.1 entry.2 (OrderedMap.mem_entries_iff.1 hentry)).symm
  have hnodup : repo.blocksDb.keys.Nodup :=
    List.pairwise_map.2 (repo.blocksDb.ascending.imp fun hlt => hlt.ne)
  rw [← hkeys] at hnodup
  exact hnodup.of_map

/-- **Recovery stores the rooted blocks of the store.** -/
theorem recoverIntoEngine_stores (haccept : ∀ b : Block, b.AcceptedBy verifier)
    (hkeyed : repo.Keyed) (hdistinct : ConsensusDistinct repo.stored)
    (hconsistent : HashConsistent repo.stored) (hcycle : HashAcyclic repo.stored) (token : ℕ) :
    ∃ engine, repo.recoverIntoEngine verifier (.new token) = some (repo.cursor, engine) ∧
      ∀ b, engine.Stores b ↔ RootedIn repo.stored b := by
  obtain ⟨sorted, hsort, hperm, hsorted⟩ := topoSortBlocks_spec hconsistent hcycle
  refine ⟨sorted.foldl (replay verifier) (.new token), ?_, fun b => ?_⟩
  · unfold recoverIntoEngine
    rw [hsort]
    rfl
  · have hnothing : ∀ c, (Blocklace.new token).Stores c ↔ c ∈ [] ∧ RootedIn repo.stored c := by
      intro c
      refine iff_of_false (fun hc => ?_) fun hc => absurd hc.1 List.not_mem_nil
      exact BlockMap.mem_toSet_empty hc
    have hall : ([] ++ sorted).Perm repo.blocksDb.values := hperm
    exact replay_stores haccept hdistinct hconsistent hcycle hkeyed.nodup hall hsorted hnothing b

/-! ### Writing -/

/-- Hash and creator of the block belong to no other block of the store. -/
def Fresh (repo : RSpaceBlocklaceRepository) (block : Block) : Prop :=
  ∀ c ∈ repo.stored, c.identity.consensusIdentity = block.identity.consensusIdentity → c = block

theorem Keyed.putBlock (h : repo.Keyed) (block : Block) : (repo.putBlock block).Keyed := by
  intro key b hb
  rw [RSpaceBlocklaceRepository.putBlock, OrderedMap.lookup_insert] at hb
  split_ifs at hb with hkey
  · obtain rfl := Option.some.inj hb
    exact hkey
  · exact h key b hb

/-- **Writing a block with fresh hash and creator adds it.** -/
theorem stored_putBlock (h : repo.Keyed) (hstored : ∀ b ∈ repo.stored, Sized b.identity)
    (hsized : Sized block.identity) (hfresh : repo.Fresh block) :
    (repo.putBlock block).stored = insert block repo.stored := by
  refine Set.ext fun b => ?_
  show b ∈ (repo.putBlock block).blocksDb.values ↔ b = block ∨ b ∈ repo.blocksDb.values
  rw [OrderedMap.mem_values_iff, OrderedMap.mem_values_iff, RSpaceBlocklaceRepository.putBlock]
  simp only [OrderedMap.lookup_insert]
  constructor
  · rintro ⟨key, hb⟩
    split_ifs at hb with hkey
    · exact Or.inl (Option.some.inj hb).symm
    · exact Or.inr ⟨key, hb⟩
  · rintro (rfl | ⟨key, hb⟩)
    · exact ⟨repo.identityKey b.identity, if_pos rfl⟩
    · by_cases hkey : key = repo.identityKey block.identity
      · have hmem : b ∈ repo.stored := OrderedMap.mem_values_iff.2 ⟨key, hb⟩
        have hid : b.identity = block.identity :=
          repo.identityKey_inj (hstored b hmem) hsized ((h key b hb).symm.trans hkey)
        have hsame : b = block := hfresh b hmem (congrArg BlockIdentity.consensusIdentity hid)
        exact ⟨key, by rw [if_pos hkey, hsame]⟩
      · exact ⟨key, by rw [if_neg hkey]; exact hb⟩

/-- What a successful `put_native_block` has written. -/
theorem putNativeBlock_ok (h : repo.putNativeBlock block wireHash = .ok repo') :
    repo'.identityKey = repo.identityKey ∧ repo'.blocksDb = (repo.putBlock block).blocksDb ∧
      repo'.nativeHash = repo.nativeHash.insert wireHash block.identity ∧
      repo'.cordialId = repo.cordialId.insert (repo.identityKey block.identity) wireHash ∧
      ∀ wire, repo.cordialId.lookup (repo.identityKey block.identity) = some wire → wire = wireHash := by
  unfold putNativeBlock at h
  split_ifs at h with hblock hnative hcordial
  obtain rfl := Except.ok.inj h
  refine ⟨rfl, rfl, rfl, rfl, fun wire hwire => ?_⟩
  rw [hwire, Option.any_some, decide_eq_true_eq, ne_eq, not_not] at hcordial
  exact hcordial

end RSpaceBlocklaceRepository

end CordialMiners.Persistence
