/-
# When the boot order is topological

`topo_sort_blocks` of `lmdb_store/recovery.rs` on blocks that `Blocklace::insert` has accepted
with the `Secp256k1Scheme` verifier (`crypto.rs`).

The signature of a block is over the hash of its content, but neither the verifier nor the
insert compares that hash with the declared one.  The heights are computed over declared
hashes, with one block for each: the last in the list.  So a block may declare the hash of
another, the height of a block may be that of another, and a hash may lead back to itself.

The order is topological for every permutation of the list exactly where no choice of a block
for each declared hash does any harm (`recovery_order_topological_iff`).  Where the declared
hashes are distinct there is one choice, and it does none (`hashesOrdered_of_distinct`).
-/

import CordialMiners.Node.BlockStore
import CordialMiners.Validation.Block

namespace CordialMiners.Persistence

open FinGraph Relation
open Codec (bind_eq_ok)

/-- `Secp256k1Scheme::verify_block`. -/
def secp256k1Scheme (crypto : BlockCrypto) : CryptoVerifier := fun content signature creator =>
  if crypto.verify (crypto.blockHash creator content) creator.bytes signature then .ok ()
  else .error "Signature verification failed"

/-- `Blocklace::insert` for one block after another. -/
def insertAll (verifier : CryptoVerifier) (B : Blocklace) (blocks : List Block) :
    Except InsertError Blocklace :=
  blocks.foldlM (fun B block => B.insert block verifier) B

/-- **What recovery is to do with a list:** sort it so that no block comes before one that it
refers to, and so that a fresh blocklace accepts every block. -/
def Recovers (verifier : CryptoVerifier) (token : ℕ) (blocks : List Block) : Prop :=
  ∃ sorted, topoSortBlocks blocks = some sorted ∧ sorted.Perm blocks ∧
    sorted.Pairwise (fun a b => ∀ p ∈ a.refs, ¬p.Names b.identity) ∧
    ∃ B, insertAll verifier (.new token) sorted = .ok B

/-! ### Choices -/

/-- A block for each declared hash. -/
structure Choice (blocks : List Block) (choose : ContentHash → Option Block) : Prop where
  mem : ∀ hash b, choose hash = some b → b ∈ blocks ∧ b.identity.contentHash = hash
  exists_some : ∀ b ∈ blocks, ∃ c, choose b.identity.contentHash = some c

/-- The hashes that the chosen block of a hash refers to. -/
def chosenRefs (choose : ContentHash → Option Block) (hash : ContentHash) :
    Option (List ContentHash) :=
  (choose hash).map hashRefs

/-- **When the declared hashes order the blocks:** whichever block is taken for each hash, no hash
leads back to itself, and from the hash of a block lead longer paths than from its references. -/
structure HashesOrdered (blocks : List Block) : Prop where
  acyclic : ∀ choose, Choice blocks choose → ∀ hash,
    ¬TransGen (ParentOf (chosenRefs choose)) hash hash
  longer : ∀ choose, Choice blocks choose → ∀ b ∈ blocks, ∀ p ∈ b.refs, ∀ n,
    HasChain (chosenRefs choose) n p.contentHash →
      HasChain (chosenRefs choose) (n + 1) b.identity.contentHash

section Choices

variable {blocks l l' : List Block} {choose : ContentHash → Option Block} {hash : ContentHash}
  {b c : Block}

/-- The code's choice. -/
theorem choice_blockWithHash {order : List Block} (h : order.Perm blocks) :
    Choice blocks (blockWithHash order) where
  mem _ _ hb := ⟨h.mem_iff.1 (blockWithHash_eq_some hb).1, (blockWithHash_eq_some hb).2⟩
  exists_some _ hb := exists_blockWithHash (h.mem_iff.2 hb)

theorem blockWithHash_append :
    blockWithHash (l ++ l') hash = (blockWithHash l' hash).or (blockWithHash l hash) := by
  unfold blockWithHash
  rw [List.reverse_append, List.find?_append]

theorem blockWithHash_eq_none (h : ∀ b ∈ l, b.identity.contentHash ≠ hash) :
    blockWithHash l hash = none := by
  unfold blockWithHash
  rw [List.find?_eq_none]
  intro b hb
  simpa using h b (List.mem_reverse.1 hb)

/-- The blocks with those that are chosen last. -/
def chosenLast (choose : ContentHash → Option Block) (blocks : List Block) : List Block :=
  blocks.filter (fun b => choose b.identity.contentHash ≠ some b) ++
    blocks.filter fun b => choose b.identity.contentHash = some b

theorem chosenLast_perm : (chosenLast choose blocks).Perm blocks := by
  have hsplit := List.filter_append_perm
    (fun b : Block => decide (choose b.identity.contentHash ≠ some b)) blocks
  simpa [chosenLast] using hsplit

theorem blockWithHash_chosenLast (hc : c ∈ blocks)
    (hchoose : choose c.identity.contentHash = some c) :
    blockWithHash (chosenLast choose blocks) c.identity.contentHash = some c := by
  unfold chosenLast
  rw [blockWithHash_append]
  obtain ⟨d, hd⟩ : ∃ d, blockWithHash (blocks.filter fun b =>
      choose b.identity.contentHash = some b) c.identity.contentHash = some d :=
    exists_blockWithHash (List.mem_filter.2 ⟨hc, by simpa using hchoose⟩)
  obtain ⟨hmem, hhash⟩ := blockWithHash_eq_some hd
  have hchosen := (List.mem_filter.1 hmem).2
  simp only [decide_eq_true_eq, hhash, hchoose] at hchosen
  rw [hd, ← Option.some.inj hchosen]
  rfl

/-- An order that makes a choice, with the blocks of one hash first. -/
def arranged (choose : ContentHash → Option Block) (first : ContentHash) (blocks : List Block) :
    List Block :=
  chosenLast choose (blocks.filter fun b => b.identity.contentHash = first) ++
    chosenLast choose (blocks.filter fun b => b.identity.contentHash ≠ first)

theorem arranged_perm {first : ContentHash} : (arranged choose first blocks).Perm blocks := by
  have hsplit := List.filter_append_perm
    (fun b : Block => decide (b.identity.contentHash = first)) blocks
  unfold arranged
  refine (chosenLast_perm.append chosenLast_perm).trans ?_
  simpa using hsplit

/-- **Every choice is made by the code in some order.** -/
theorem blockWithHash_arranged (h : Choice blocks choose) (first : ContentHash) :
    blockWithHash (arranged choose first blocks) = choose := by
  funext hash
  cases hchoose : choose hash with
  | none =>
      refine blockWithHash_eq_none fun b hb hhash => ?_
      obtain ⟨c, hc⟩ := h.exists_some b (arranged_perm.mem_iff.1 hb)
      rw [hhash, hchoose] at hc
      cases hc
  | some c =>
      obtain ⟨hc, rfl⟩ := h.mem hash c hchoose
      unfold arranged
      rw [blockWithHash_append]
      by_cases hfirst : c.identity.contentHash = first
      · rw [blockWithHash_eq_none, Option.none_or]
        · exact blockWithHash_chosenLast (List.mem_filter.2 ⟨hc, by simpa using hfirst⟩) hchoose
        · intro b hb
          have hother := (List.mem_filter.1 (chosenLast_perm.mem_iff.1 hb)).2
          rw [hfirst]
          simpa using hother
      · rw [blockWithHash_chosenLast (List.mem_filter.2 ⟨hc, by simpa using hfirst⟩) hchoose]
        rfl

/-- The blocks of the first hash come before the others. -/
theorem pair_sublist_arranged (hb : b ∈ blocks) (hc : c ∈ blocks)
    (hne : c.identity.contentHash ≠ b.identity.contentHash) :
    [b, c].Sublist (arranged choose b.identity.contentHash blocks) := by
  have hleft : b ∈ chosenLast choose
      (blocks.filter fun d => d.identity.contentHash = b.identity.contentHash) :=
    chosenLast_perm.mem_iff.2 (List.mem_filter.2 ⟨hb, by simp⟩)
  have hright : c ∈ chosenLast choose
      (blocks.filter fun d => d.identity.contentHash ≠ b.identity.contentHash) :=
    chosenLast_perm.mem_iff.2 (List.mem_filter.2 ⟨hc, by simpa using hne⟩)
  exact (List.singleton_sublist.2 hleft).append (List.singleton_sublist.2 hright)

end Choices

/-! ### Inserting one after another -/

/-- What a fresh blocklace needs to accept the blocks one after another. -/
structure Replayable (verifier : CryptoVerifier) (blocks : List Block) : Prop where
  accepted : ∀ b ∈ blocks, b.AcceptedBy verifier
  distinct : ∀ b ∈ blocks, ∀ c ∈ blocks,
    b.identity.consensusIdentity = c.identity.consensusIdentity → b.identity = c.identity
  closed : ∀ front b rear, blocks = front ++ b :: rear → ∀ p ∈ b.refs, ∃ c ∈ front, c.NamedBy p

section Replays

variable {verifier : CryptoVerifier} {B B' : Blocklace} {blocks : List Block} {b : Block}
  {id : BlockIdentity} {token : ℕ}

theorem insertAll_concat : insertAll verifier B (blocks ++ [b]) =
    (insertAll verifier B blocks).bind fun B => B.insert b verifier := by
  unfold insertAll
  simp only [List.foldlM_append, List.foldlM_cons, List.foldlM_nil, bind_pure]
  rfl

/-- **The blocks that are stored** afterwards. -/
theorem mem_insertAll_iff (h : insertAll verifier B blocks = .ok B') :
    id ∈ B'.blocks ↔ id ∈ B.blocks ∨ ∃ b ∈ blocks, b.identity = id := by
  induction blocks using List.reverseRecOn generalizing B' with
  | nil =>
      obtain rfl := Except.ok.inj h
      simp
  | append_singleton blocks b ih =>
      rw [insertAll_concat] at h
      obtain ⟨B₁, hfront, hins⟩ := bind_eq_ok.1 h
      rw [(Blocklace.insert_ok hins).mem_iff, ih hfront]
      constructor
      · rintro (rfl | hid | ⟨c, hc, hid⟩)
        · exact Or.inr ⟨b, by simp, rfl⟩
        · exact Or.inl hid
        · exact Or.inr ⟨c, List.mem_append_left _ hc, hid⟩
      · rintro (hid | ⟨c, hc, hid⟩)
        · exact Or.inr (Or.inl hid)
        · rcases List.mem_append.1 hc with hc | hc
          · exact Or.inr (Or.inr ⟨c, hc, hid⟩)
          · obtain rfl := List.mem_singleton.1 hc
            exact Or.inl hid.symm

theorem exists_insert_ok_iff : (∃ B', B.insert b verifier = .ok B') ↔
    b.AcceptedBy verifier ∧ Available Block.refs B.Resolves b ∧
      B.conflictingIdentityVariant b.identity = none := by
  constructor
  · rintro ⟨B', hins⟩
    have hdone := Blocklace.insert_ok hins
    exact ⟨Blocklace.acceptedBy_of_insert hins,
      Blocklace.missingPredecessors_eq_nil_iff.1 hdone.closed, hdone.noVariant⟩
  · rintro ⟨hacc, hav, hvar⟩
    exact Blocklace.exists_insert_ok hacc hav hvar

theorem replayable_concat : Replayable verifier (blocks ++ [b]) ↔
    Replayable verifier blocks ∧ b.AcceptedBy verifier ∧ (∀ p ∈ b.refs, ∃ c ∈ blocks, c.NamedBy p) ∧
      ∀ c ∈ blocks, c.identity.consensusIdentity = b.identity.consensusIdentity →
        c.identity = b.identity := by
  constructor
  · intro h
    have hb : b ∈ blocks ++ [b] := by simp
    have hmem : ∀ c ∈ blocks, c ∈ blocks ++ [b] := fun c hc => List.mem_append_left _ hc
    refine ⟨⟨fun c hc => h.accepted c (hmem c hc), fun c hc d hd => h.distinct c (hmem c hc) d (hmem d hd),
      fun front c rear heq => ?_⟩, h.accepted b hb, h.closed blocks b [] rfl,
      fun c hc => h.distinct c (hmem c hc) b hb⟩
    exact h.closed front c (rear ++ [b]) (by rw [heq]; simp)
  · rintro ⟨hfront, hacc, hrefs, hvar⟩
    refine ⟨fun c hc => ?_, fun c hc d hd heq => ?_, fun front c rear heq => ?_⟩
    · rcases List.mem_append.1 hc with hc | hc
      · exact hfront.accepted c hc
      · obtain rfl := List.mem_singleton.1 hc
        exact hacc
    · rcases List.mem_append.1 hc with hc' | hc' <;> rcases List.mem_append.1 hd with hd' | hd'
      · exact hfront.distinct c hc' d hd' heq
      · obtain rfl := List.mem_singleton.1 hd'
        exact hvar c hc' heq
      · obtain rfl := List.mem_singleton.1 hc'
        exact (hvar d hd' heq.symm).symm
      · rw [List.mem_singleton.1 hc', List.mem_singleton.1 hd']
    · rcases List.eq_nil_or_concat rear with rfl | ⟨rear, last, rfl⟩
      · obtain ⟨rfl, hlast⟩ := List.append_inj' heq rfl
        obtain rfl := List.singleton_inj.1 hlast
        exact hrefs
      · have hsplit : blocks ++ [b] = (front ++ c :: rear) ++ [last] := by simpa using heq
        exact hfront.closed front c rear (List.append_inj' hsplit rfl).1

/-- One more block, inserted into what the others have made. -/
theorem exists_insert_ok_iff_of_insertAll (h : insertAll verifier (.new token) blocks = .ok B) :
    (∃ B', B.insert b verifier = .ok B') ↔
      b.AcceptedBy verifier ∧ (∀ p ∈ b.refs, ∃ c ∈ blocks, c.NamedBy p) ∧
        ∀ c ∈ blocks, c.identity.consensusIdentity = b.identity.consensusIdentity →
          c.identity = b.identity := by
  have hmem : ∀ id, id ∈ B.blocks ↔ ∃ c ∈ blocks, c.identity = id := by
    intro id
    rw [mem_insertAll_iff h]
    exact or_iff_right (AList.notMem_empty id)
  rw [exists_insert_ok_iff]
  refine and_congr_right fun _ => and_congr (forall₂_congr fun p _ => ?_) ?_
  · rw [Blocklace.resolves_iff]
    simp only [hmem, exists_exists_and_eq_and]
    rfl
  · rw [Blocklace.conflictingIdentityVariant_eq_none_iff]
    simp only [hmem, forall_exists_index, and_imp, forall_apply_eq_imp_iff₂]
    constructor
    · rintro (⟨d, hd, hid⟩ | hnone) c hc hcons
      · have hc' : c.identity ∈ B.blocks := (hmem _).2 ⟨c, hc, rfl⟩
        have hb' : b.identity ∈ B.blocks := (hmem _).2 ⟨d, hd, hid⟩
        exact Blocklace.eq_of_consensusIdentity_eq hc' hb' hcons
      · exact absurd hcons (hnone c hc)
    · intro hsame
      by_cases hold : ∃ c ∈ blocks, c.identity.consensusIdentity = b.identity.consensusIdentity
      · obtain ⟨c, hc, hcons⟩ := hold
        exact Or.inl ⟨c, hc, hsame c hc hcons⟩
      · exact Or.inr fun c hc hcons => hold ⟨c, hc, hcons⟩

/-- **When a fresh blocklace accepts the blocks one after another.** -/
theorem exists_insertAll_iff :
    (∃ B, insertAll verifier (.new token) blocks = .ok B) ↔ Replayable verifier blocks := by
  induction blocks using List.reverseRecOn with
  | nil => exact iff_of_true ⟨_, rfl⟩ ⟨by simp, by simp, by simp⟩
  | append_singleton blocks b ih =>
      rw [replayable_concat, ← ih, insertAll_concat]
      constructor
      · rintro ⟨B', hB'⟩
        obtain ⟨B, hB, hins⟩ := bind_eq_ok.1 hB'
        exact ⟨⟨B, hB⟩, (exists_insert_ok_iff_of_insertAll hB).1 ⟨B', hins⟩⟩
      · rintro ⟨⟨B, hB⟩, hrest⟩
        obtain ⟨B', hins⟩ := (exists_insert_ok_iff_of_insertAll hB).2 hrest
        exact ⟨B', bind_eq_ok.2 ⟨B, hB, hins⟩⟩

end Replays

section Order

variable {verifier : CryptoVerifier} {blocks order sorted : List Block} {b c : Block}
  {p : BlockIdentity} {hash hash' : ContentHash} {token n : ℕ}
  {choose : ContentHash → Option Block}

theorem Replayable.exists_namedBy (h : Replayable verifier blocks) (hb : b ∈ blocks)
    (hp : p ∈ b.refs) : ∃ c ∈ blocks, c.NamedBy p := by
  obtain ⟨front, rear, rfl⟩ := List.append_of_mem hb
  obtain ⟨c, hc, hname⟩ := h.closed front b rear rfl p hp
  exact ⟨c, List.mem_append_left _ hc, hname⟩

/-! ### Ordered hashes are enough -/

theorem HashesOrdered.computeHeight_isSome (h : HashesOrdered blocks) (hperm : order.Perm blocks)
    (hash : ContentHash) : (computeHeight order hash).isSome :=
  computeHeight_isSome_of_noCycle (h.acyclic _ (choice_blockWithHash hperm)) hash

theorem contentHash_of_namedBy (h : c.NamedBy p) : c.identity.contentHash = p.contentHash :=
  (BlockIdentity.consensusIdentity_eq_iff.1 h.1).1.symm

/-- **What a block refers to is lower.** -/
theorem HashesOrdered.blockHeight_lt (h : HashesOrdered blocks) (hperm : order.Perm blocks)
    (hb : b ∈ blocks) (hp : p ∈ b.refs) (hname : c.NamedBy p) :
    blockHeight order c < blockHeight order b := by
  obtain ⟨hc, hheightc⟩ := Option.isSome_iff_exists.1
    (h.computeHeight_isSome hperm c.identity.contentHash)
  obtain ⟨hb', hheightb⟩ := Option.isSome_iff_exists.1
    (h.computeHeight_isSome hperm b.identity.contentHash)
  have hchain : HasChain (chosenRefs (blockWithHash order)) hc p.contentHash := by
    rw [← contentHash_of_namedBy hname]
    exact (hasChain_iff hheightc).2 le_rfl
  have hlonger := h.longer _ (choice_blockWithHash hperm) b hb p hp hc hchain
  unfold blockHeight
  rw [hheightc, hheightb]
  exact (hasChain_iff hheightb).1 hlonger

/-- **Any order of the blocks is recovered** where the declared hashes order them. -/
theorem recovers_of_hashesOrdered (h : Replayable verifier blocks) (hord : HashesOrdered blocks)
    (hperm : order.Perm blocks) : Recovers verifier token order := by
  obtain ⟨sorted, hsort, hsorted_perm, hsorted⟩ :=
    topoSortBlocks_of_isSome fun b _ => hord.computeHeight_isSome hperm b.identity.contentHash
  have hmem : ∀ b, b ∈ sorted ↔ b ∈ blocks := fun b => (hsorted_perm.trans hperm).mem_iff
  refine ⟨sorted, hsort, hsorted_perm, ?_, exists_insertAll_iff.2 ⟨?_, ?_, ?_⟩⟩
  · refine hsorted.imp_of_mem fun {a b} ha _ hle p hp hname => ?_
    have hlt := hord.blockHeight_lt hperm ((hmem a).1 ha) hp hname
    omega
  · exact fun b hb => h.accepted b ((hmem b).1 hb)
  · exact fun b hb c hc => h.distinct b ((hmem b).1 hb) c ((hmem c).1 hc)
  · rintro front b rear rfl p hp
    have hb : b ∈ blocks := (hmem b).1 (by simp)
    obtain ⟨c, hc, hname⟩ := h.exists_namedBy hb hp
    have hlt := hord.blockHeight_lt hperm hb hp hname
    exact ⟨c, mem_front_of_sorted hsorted ((hmem c).2 hc) hlt, hname⟩

/-! ### Ordered hashes are needed -/

theorem computeHeight_of_topoSortBlocks (h : topoSortBlocks blocks = some sorted) :
    sorted = blocks.insertionSort (fun a b => blockHeight blocks a ≤ blockHeight blocks b) ∧
      ∀ b ∈ blocks, (computeHeight blocks b.identity.contentHash).isSome := by
  unfold topoSortBlocks at h
  split_ifs at h with hall
  exact ⟨(Option.some.inj h).symm, List.all_eq_true.1 hall⟩

/-- The sort keeps the order of two blocks that it need not change. -/
theorem pair_sublist_topoSortBlocks (h : topoSortBlocks blocks = some sorted)
    (hle : blockHeight blocks b ≤ blockHeight blocks c) (hpair : [b, c].Sublist blocks) :
    [b, c].Sublist sorted := by
  rw [(computeHeight_of_topoSortBlocks h).1]
  have : Std.Total fun a b : Block => blockHeight blocks a ≤ blockHeight blocks b :=
    ⟨fun a b => Nat.le_total _ _⟩
  have : IsTrans Block fun a b => blockHeight blocks a ≤ blockHeight blocks b :=
    ⟨fun a b c => Nat.le_trans⟩
  exact List.pair_sublist_insertionSort hle hpair

/-- **No hash leads back to itself** where every order is recovered. -/
theorem acyclic_of_recovers (h : ∀ order, order.Perm blocks → Recovers verifier token order)
    (hchoice : Choice blocks choose) (hash : ContentHash) :
    ¬TransGen (ParentOf (chosenRefs choose)) hash hash := by
  intro hloop
  obtain ⟨_, -, _, hrefs, -⟩ := TransGen.tail'_iff.1 hloop
  obtain ⟨b, hchoose, -⟩ := Option.map_eq_some_iff.1 hrefs
  obtain ⟨hb, rfl⟩ := hchoice.mem hash b hchoose
  -- the order that makes the choice
  have hperm : (arranged choose b.identity.contentHash blocks).Perm blocks := arranged_perm
  obtain ⟨sorted, hsort, -⟩ := h _ hperm
  obtain ⟨height, hheight⟩ := Option.isSome_iff_exists.1
    ((computeHeight_of_topoSortBlocks hsort).2 b (hperm.mem_iff.2 hb))
  unfold computeHeight at hheight
  rw [blockWithHash_arranged hchoice] at hheight
  obtain ⟨height', hheight', hlt⟩ := height_of_transGen hheight hloop
  rw [hheight'] at hheight
  have hsame := Option.some.inj hheight
  omega

/-- A block may be chosen for its own hash. -/
theorem Choice.update (h : Choice blocks choose) (hb : b ∈ blocks) :
    Choice blocks (Function.update choose b.identity.contentHash (some b)) where
  mem hash c hc := by
    by_cases hhash : hash = b.identity.contentHash
    · subst hhash
      rw [Function.update_self] at hc
      obtain rfl := Option.some.inj hc
      exact ⟨hb, rfl⟩
    · rw [Function.update_of_ne hhash] at hc
      exact h.mem hash c hc
  exists_some c hc := by
    by_cases hhash : c.identity.contentHash = b.identity.contentHash
    · exact ⟨b, by rw [hhash, Function.update_self]⟩
    · rw [Function.update_of_ne hhash]
      exact h.exists_some c hc

/-- **From a block lead longer paths than from its references** where every order is recovered. -/
theorem longer_of_recovers (haccept : Replayable verifier blocks)
    (h : ∀ order, order.Perm blocks → Recovers verifier token order)
    (hchoice : Choice blocks choose) (hb : b ∈ blocks) (hp : p ∈ b.refs)
    (hchain : HasChain (chosenRefs choose) n p.contentHash) :
    HasChain (chosenRefs choose) (n + 1) b.identity.contentHash := by
  obtain ⟨c, hc, hname⟩ := haccept.exists_namedBy hb hp
  have hhash := contentHash_of_namedBy hname
  -- else the block, chosen for its hash, refers to its own hash
  have hne : c.identity.contentHash ≠ b.identity.contentHash := by
    intro heq
    refine acyclic_of_recovers h (hchoice.update hb) b.identity.contentHash (.single ⟨hashRefs b, ?_, ?_⟩)
    · rw [chosenRefs, Function.update_self]
      rfl
    · exact List.mem_map.2 ⟨p, hp, hhash.symm.trans heq⟩
  -- an order that makes the choice and has the block first
  have hperm : (arranged choose b.identity.contentHash blocks).Perm blocks := arranged_perm
  obtain ⟨sorted, hsort, -, htopological, -⟩ := h _ hperm
  have hsome := (computeHeight_of_topoSortBlocks hsort).2
  obtain ⟨height, hheight⟩ := Option.isSome_iff_exists.1 (hsome b (hperm.mem_iff.2 hb))
  obtain ⟨height', hheight'⟩ := Option.isSome_iff_exists.1 (hsome c (hperm.mem_iff.2 hc))
  have hlt : height' < height := by
    by_contra hle
    have hkept : [b, c].Sublist sorted := by
      refine pair_sublist_topoSortBlocks hsort ?_ (pair_sublist_arranged hb hc hne)
      unfold blockHeight
      rw [hheight, hheight']
      exact Nat.le_of_not_lt hle
    exact List.rel_of_pairwise_cons (htopological.sublist hkept) (by simp) p hp hname
  unfold computeHeight at hheight hheight'
  rw [blockWithHash_arranged hchoice] at hheight hheight'
  rw [← hhash] at hchain
  have hle := (hasChain_iff hheight').1 hchain
  exact (hasChain_iff hheight).2 (by omega)

theorem recovers_iff_hashesOrdered (h : Replayable verifier blocks) :
    (∀ order, order.Perm blocks → Recovers verifier token order) ↔ HashesOrdered blocks := by
  constructor
  · intro hall
    exact ⟨fun _ hchoice => acyclic_of_recovers hall hchoice,
      fun _ hchoice _ hb _ hp _ => longer_of_recovers h hall hchoice hb hp⟩
  · exact fun hord _ hperm => recovers_of_hashesOrdered h hord hperm

/-! ### Distinct hashes -/

/-- What the chosen block of a hash refers to is first declared before it. -/
theorem idxOf_lt_of_refs (h : Replayable verifier blocks) (hb : b ∈ blocks) (hp : p ∈ b.refs) :
    ∃ c ∈ blocks, c.NamedBy p ∧ blocks.idxOf c < blocks.idxOf b := by
  obtain ⟨front, rear, rfl, hfirst⟩ := List.eq_append_cons_of_mem hb
  obtain ⟨c, hc, hname⟩ := h.closed front b rear rfl p hp
  refine ⟨c, List.mem_append_left _ hc, hname, ?_⟩
  rw [List.idxOf_append_of_mem hc, List.idxOf_append_of_notMem hfirst]
  exact (List.idxOf_lt_length_of_mem hc).trans_le (Nat.le_add_right _ _)

theorem idxOf_lt_of_parentOf (h : Replayable verifier blocks) (hchoice : Choice blocks choose)
    (hparent : ParentOf (chosenRefs choose) hash' hash) :
    ∃ b ∈ blocks, b.identity.contentHash = hash ∧ ∃ c ∈ blocks,
      c.identity.contentHash = hash' ∧ blocks.idxOf c < blocks.idxOf b := by
  obtain ⟨_, hrefs, hmem⟩ := hparent
  obtain ⟨b, hchoose, rfl⟩ := Option.map_eq_some_iff.1 hrefs
  obtain ⟨hb, rfl⟩ := hchoice.mem hash b hchoose
  obtain ⟨p, hp, rfl⟩ := List.mem_map.1 hmem
  obtain ⟨c, hc, hname, hlt⟩ := idxOf_lt_of_refs h hb hp
  exact ⟨b, hb, rfl, c, hc, contentHash_of_namedBy hname, hlt⟩

/-- Along the references the positions in the list go down. -/
theorem idxOf_lt_of_transGen (h : Replayable verifier blocks) (hchoice : Choice blocks choose)
    (hdistinct : ∀ b ∈ blocks, ∀ c ∈ blocks,
      b.identity.contentHash = c.identity.contentHash → b = c)
    (hpath : TransGen (ParentOf (chosenRefs choose)) hash' hash) :
    ∃ b ∈ blocks, b.identity.contentHash = hash ∧ ∃ c ∈ blocks,
      c.identity.contentHash = hash' ∧ blocks.idxOf c < blocks.idxOf b := by
  induction hpath with
  | single hparent => exact idxOf_lt_of_parentOf h hchoice hparent
  | tail _ hparent ih =>
      obtain ⟨b, hb, rfl, c, hc, hhash, hlt⟩ := ih
      obtain ⟨d, hd, hdhash, b', hb', heq, hlt'⟩ := idxOf_lt_of_parentOf h hchoice hparent
      obtain rfl := hdistinct b' hb' b hb heq
      exact ⟨d, hd, hdhash, c, hc, hhash, hlt.trans hlt'⟩

/-- **Distinct hashes order the blocks.** -/
theorem hashesOrdered_of_distinct (h : Replayable verifier blocks)
    (hdistinct : ∀ b ∈ blocks, ∀ c ∈ blocks,
      b.identity.contentHash = c.identity.contentHash → b = c) : HashesOrdered blocks where
  acyclic choose hchoice hash hloop := by
    obtain ⟨b, hb, rfl, c, hc, heq, hlt⟩ := idxOf_lt_of_transGen h hchoice hdistinct hloop
    rw [hdistinct c hc b hb heq] at hlt
    exact lt_irrefl _ hlt
  longer choose hchoice b hb p hp n hchain := by
    obtain ⟨c, hchoose⟩ := hchoice.exists_some b hb
    obtain ⟨hc, hhash⟩ := hchoice.mem _ c hchoose
    obtain rfl := hdistinct c hc b hb hhash
    refine ⟨p.contentHash, ⟨hashRefs c, ?_, List.mem_map_of_mem hp⟩, hchain⟩
    rw [chosenRefs, hchoose]
    rfl

end Order

/-- **When recovery sorts every order of accepted blocks** so that no block comes before one that
it refers to and a fresh blocklace accepts them all. -/
theorem recovery_order_topological_iff (crypto : BlockCrypto) (token : ℕ) {blocks : List Block}
    {B : Blocklace} (h : insertAll (secp256k1Scheme crypto) (.new token) blocks = .ok B) :
    (∀ order, order.Perm blocks → Recovers (secp256k1Scheme crypto) token order) ↔
      HashesOrdered blocks :=
  recovers_iff_hashesOrdered (exists_insertAll_iff.1 ⟨B, h⟩)

/-! ### A copied hash -/

/-- A hash tells the blocks with references from those without, a signature repeats hash and
key. -/
def plainCrypto : BlockCrypto where
  blockHash _ content := if content.predecessors = [] then 1 else 2
  verify hash key signature := signature = Fin.ofNat 256 hash.val :: key

/-- A block without references. -/
def initialBlock : Block := ⟨⟨1, ⟨[1]⟩, [1, 1]⟩, ⟨[], []⟩⟩

/-- A block of creator `2` on the initial one that declares the hash given. -/
def declaring (hash : ContentHash) : Block :=
  ⟨⟨hash, ⟨[2]⟩, [2, 2]⟩, ⟨[], [initialBlock.identity]⟩⟩

/-- Its own hash. -/
theorem own_hash_recovered :
    Recovers (secp256k1Scheme plainCrypto) 0 [declaring 2, initialBlock] := by
  obtain ⟨B, h⟩ : ∃ B, insertAll (secp256k1Scheme plainCrypto) (.new 0)
      [initialBlock, declaring 2] = .ok B := Codec.exists_eq_ok_of_isOk (by decide +kernel)
  refine (recovery_order_topological_iff plainCrypto 0 h).2
    (hashesOrdered_of_distinct (exists_insertAll_iff.1 ⟨B, h⟩) ?_) _ (List.Perm.swap _ _ _)
  simp only [← List.forall_iff_forall_mem]
  decide +kernel

/-- The hash of the initial block: the heights are not computed. -/
theorem copied_hash_not_recovered :
    (∃ B, insertAll (secp256k1Scheme plainCrypto) (.new 0) [initialBlock, declaring 1] = .ok B) ∧
      ¬∀ order, order.Perm [initialBlock, declaring 1] →
        Recovers (secp256k1Scheme plainCrypto) 0 order := by
  refine ⟨Codec.exists_eq_ok_of_isOk (by decide +kernel), fun hall => ?_⟩
  obtain ⟨sorted, hsort, -⟩ := hall _ (List.Perm.refl _)
  have hnone : topoSortBlocks [initialBlock, declaring 1] = none := by decide +kernel
  rw [hnone] at hsort
  cases hsort

end CordialMiners.Persistence
