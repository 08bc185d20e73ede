/-
# What the traversals of a blocklace compute

`observe`, `ancestors`, `precedes` and the chain axiom of `blocklace.rs`, read
as statements about one relation.  `B.Sees a b` says that a path of resolved
references leads from `a` to `b`; the references of the checkpoint are not
followed.  No assumption is made on the references: dangling ones are skipped
and cycles do no harm to the traversals.
-/

import CordialMiners.Core.Blocklace

namespace CordialMiners

open FinGraph Relation

namespace Blocklace

variable {B : Blocklace} {a b id r : BlockIdentity}

/-! ### Resolving references -/

/-- Two stored identities with one consensus identity are equal. -/
theorem eq_of_consensusIdentity_eq (ha : a ∈ B.blocks) (hb : b ∈ B.blocks)
    (h : a.consensusIdentity = b.consensusIdentity) : a = b :=
  List.inj_on_of_nodup_map B.variantNodup (AList.mem_keys.1 ha) (AList.mem_keys.1 hb) h

/-- **What a reference resolves to:** the stored block with its hash and
creator, signed exactly so unless the reference carries no signature. -/
theorem resolveIdentity_eq_some_iff :
    B.resolveIdentity id = some r ↔
      r ∈ B.blocks ∧ id.consensusIdentity = r.consensusIdentity ∧ (id = r ∨ id.signature = []) := by
  unfold resolveIdentity resolveIdentityIn
  split_ifs with hid hsig
  · constructor
    · rintro h
      obtain rfl := Option.some.inj h
      exact ⟨hid, rfl, Or.inl rfl⟩
    · rintro ⟨hr, hc, -⟩
      rw [eq_of_consensusIdentity_eq hid hr hc]
  · simp only [false_iff, not_and, not_or]
    rintro hr -
    exact ⟨fun h => hid (h ▸ hr), hsig⟩
  · set l := B.blocks.keys.filter fun candidate =>
      candidate.contentHash = id.contentHash ∧ candidate.creator = id.creator with hl
    have hmem : ∀ x, x ∈ l ↔ x ∈ B.blocks ∧ id.consensusIdentity = x.consensusIdentity := by
      intro x
      rw [hl, List.mem_filter, ← AList.mem_keys, decide_eq_true_eq,
        eq_comm (a := id.consensusIdentity), BlockIdentity.consensusIdentity_eq_iff]
    have hnd : l.Nodup := by
      rw [hl]
      exact B.blocks.nodupKeys.filter _
    have hone : ∀ x ∈ l, ∀ y ∈ l, x = y := fun x hx y hy =>
      eq_of_consensusIdentity_eq ((hmem x).1 hx).1 ((hmem y).1 hy).1
        (((hmem x).1 hx).2.symm.trans ((hmem y).1 hy).2)
    have hsig' : id.signature = [] := not_not.1 hsig
    simp only [hsig', or_true, and_true]
    rw [← hmem]
    match l, hnd, hone with
    | [], _, _ => simp
    | [x], _, _ => simp [eq_comm]
    | x :: y :: t, hnd, hone =>
        have hxy := hone x (by simp) y (by simp)
        simp [hxy] at hnd

theorem resolveIdentity_mem (h : B.resolveIdentity id = some r) : r ∈ B.blocks :=
  (resolveIdentity_eq_some_iff.1 h).1

theorem resolveIdentity_consensus (h : B.resolveIdentity id = some r) :
    id.consensusIdentity = r.consensusIdentity :=
  (resolveIdentity_eq_some_iff.1 h).2.1

/-- A stored identity names itself. -/
@[simp] theorem resolveIdentity_of_mem (h : id ∈ B.blocks) : B.resolveIdentity id = some id :=
  resolveIdentity_eq_some_iff.2 ⟨h, rfl, Or.inl rfl⟩

theorem content_of_mem (h : id ∈ B.blocks) : B.content id = B.blocks.lookup id := by
  rw [content, resolveIdentity_of_mem h, Option.bind_some]

theorem get_of_mem (h : id ∈ B.blocks) :
    B.get id = (B.blocks.lookup id).map fun content => ⟨id, content⟩ := by
  rw [get, resolveIdentity_of_mem h, Option.bind_some]

theorem exists_lookup (h : id ∈ B.blocks) : ∃ c, B.blocks.lookup id = some c :=
  Option.isSome_iff_exists.1 (AList.lookup_isSome.2 h)

theorem mem_of_lookup {c : BlockContent} (h : B.blocks.lookup id = some c) : id ∈ B.blocks :=
  AList.lookup_isSome.1 (by rw [h]; rfl)

/-- `B[b]` exists exactly for the references that resolve. -/
theorem get_eq_some_iff {block : Block} :
    B.get id = some block ↔
      B.resolveIdentity id = some block.identity ∧
        B.blocks.lookup block.identity = some block.content := by
  unfold get
  constructor
  · intro h
    obtain ⟨r, hr, h⟩ := Option.bind_eq_some_iff.1 h
    obtain ⟨c, hc, rfl⟩ := Option.map_eq_some_iff.1 h
    exact ⟨hr, hc⟩
  · rintro ⟨hr, hc⟩
    rw [hr, Option.bind_some, hc]
    rfl

theorem get_isSome_iff : (B.get id).isSome ↔ (B.resolveIdentity id).isSome := by
  constructor
  · intro h
    obtain ⟨block, hb⟩ := Option.isSome_iff_exists.1 h
    rw [(get_eq_some_iff.1 hb).1]
    rfl
  · intro h
    obtain ⟨r, hr⟩ := Option.isSome_iff_exists.1 h
    obtain ⟨c, hc⟩ := exists_lookup (resolveIdentity_mem hr)
    have hget : B.get id = some ⟨r, c⟩ := get_eq_some_iff.2 ⟨hr, hc⟩
    rw [hget]
    rfl

theorem get_isSome_of_mem (h : id ∈ B.blocks) : (B.get id).isSome := by
  rw [get_isSome_iff, resolveIdentity_of_mem h]
  rfl

/-- The stored blocks, with their contents. -/
def Stores (B : Blocklace) (block : Block) : Prop :=
  B.blocks.lookup block.identity = some block.content

theorem Stores.mem {block : Block} (h : B.Stores block) : block.identity ∈ B.blocks :=
  mem_of_lookup h

theorem Stores.get {block : Block} (h : B.Stores block) : B.get block.identity = some block :=
  get_eq_some_iff.2 ⟨resolveIdentity_of_mem h.mem, h⟩

theorem stores_of_get {block : Block} (h : B.get id = some block) : B.Stores block :=
  (get_eq_some_iff.1 h).2

theorem Stores.ext {block block' : Block} (h : B.Stores block) (h' : B.Stores block')
    (hid : block.identity = block'.identity) : block = block' := by
  unfold Stores at h h'
  rw [hid, h'] at h
  cases block; cases block'
  simp only at hid
  simp only [Option.some.injEq] at h
  simp [hid, h]

/-! ### Seeing -/

/-- A path of resolved references leads from `a` to `b`. -/
def Sees (B : Blocklace) : BlockIdentity → BlockIdentity → Prop := Reach B.expand

/-- A path of one or more resolved references leads from `b` to `a`: `a ≺ b`. -/
def Below (B : Blocklace) (a b : BlockIdentity) : Prop := TransGen (Step B.expand) b a

theorem Sees.refl (B : Blocklace) (a : BlockIdentity) : B.Sees a a := ReflTransGen.refl

theorem Sees.trans {c : BlockIdentity} (h : B.Sees a b) (h' : B.Sees b c) : B.Sees a c :=
  ReflTransGen.trans h h'

theorem Below.sees (h : B.Below b a) : B.Sees a b := TransGen.to_reflTransGen h

theorem sees_iff_eq_or_below : B.Sees a b ↔ b = a ∨ B.Below b a :=
  reflTransGen_iff_eq_or_transGen

theorem mem_of_mem_expand (h : b ∈ B.expand a) : b ∈ B.blocks := by
  unfold expand at h
  split_ifs at h
  · simp at h
  · split at h
    · simp at h
    · obtain ⟨p, -, hp⟩ := List.mem_filterMap.1 h
      exact resolveIdentity_mem hp

/-- The references of a stored block other than the checkpoint. -/
theorem expand_of_lookup {c : BlockContent} (hc : B.blocks.lookup a = some c)
    (hcp : B.checkpoint ≠ some a) : B.expand a = c.predecessors.filterMap B.resolveIdentity := by
  unfold expand isCheckpointBoundary
  rw [if_neg (by simpa using hcp), content_of_mem (mem_of_lookup hc), hc]

theorem expand_checkpoint (hcp : B.checkpoint = some a) : B.expand a = [] := by
  unfold expand isCheckpointBoundary
  rw [if_pos (by simpa using hcp)]

theorem Below.mem (h : B.Below b a) : b ∈ B.blocks := by
  obtain ⟨c, -, hc⟩ := TransGen.tail'_iff.1 h
  exact mem_of_mem_expand hc

theorem Sees.mem (h : B.Sees a b) (ha : a ∈ B.blocks) : b ∈ B.blocks := by
  rcases sees_iff_eq_or_below.1 h with rfl | h
  · exact ha
  · exact h.mem

private theorem expand_subset (B : Blocklace) :
    ∀ x, ∀ y ∈ B.expand x, y ∈ B.dom.toFinset := fun _ _ hy =>
  List.mem_toFinset.2 (AList.mem_keys.1 (mem_of_mem_expand hy))

/-- **`observe` returns what the block sees.** -/
theorem mem_observe_iff : b ∈ B.observe a ↔ ∃ a', B.resolveIdentity a = some a' ∧ B.Sees a' b := by
  unfold observe
  cases h : B.resolveIdentity a with
  | none => simp
  | some a' =>
      have hfuel : [a'].length + (B.dom.toFinset \ [a'].toFinset).card ≤ B.dom.length + 1 := by
        have h₁ := Finset.card_le_card (Finset.sdiff_subset (s := B.dom.toFinset) (t := [a'].toFinset))
        have h₂ := List.toFinset_card_le B.dom
        simp only [List.length_singleton]
        omega
      have hinv : ∀ x ∈ [a'], x ∈ [a'] ∨ ∀ y ∈ B.expand x, y ∈ [a'] := fun x hx => Or.inl hx
      simp only [mem_explore pushes_pushBack B.expand_subset hinv hfuel, List.mem_singleton,
        exists_eq_left, Option.some.injEq, exists_eq_left']
      exact sees_iff_eq_or_below.symm

theorem mem_observe_of_mem (ha : a ∈ B.blocks) : b ∈ B.observe a ↔ B.Sees a b := by
  simp [mem_observe_iff, resolveIdentity_of_mem ha]

theorem nodup_observe (B : Blocklace) (a : BlockIdentity) : (B.observe a).Nodup := by
  unfold observe
  split
  · exact List.nodup_nil
  · exact nodup_explore (List.nodup_singleton _)

/-- **`ancestors` returns the stored blocks strictly below.** -/
theorem mem_ancestors_iff {block : Block} :
    block ∈ B.ancestors a ↔ B.Stores block ∧ B.Below block.identity a := by
  unfold ancestors
  have hfuel : [a].length + (B.dom.toFinset \ ([] : List BlockIdentity).toFinset).card ≤
      B.dom.length + 1 := by
    have h₁ := Finset.card_le_card
      (Finset.sdiff_subset (s := B.dom.toFinset) (t := ([] : List BlockIdentity).toFinset))
    have h₂ := List.toFinset_card_le B.dom
    simp only [List.length_singleton]
    omega
  have hexp : ∀ z, z ∈ explore pushTop B.expand (B.dom.length + 1) [a] [] ↔ B.Below z a := by
    intro z
    rw [mem_explore pushes_pushTop B.expand_subset (by simp) hfuel]
    simp [Below]
  rw [List.mem_filterMap]
  constructor
  · rintro ⟨z, hz, hzb⟩
    have hbel := (hexp z).1 hz
    obtain ⟨hr, hc⟩ := get_eq_some_iff.1 hzb
    rw [resolveIdentity_of_mem hbel.mem] at hr
    obtain rfl := Option.some.inj hr
    exact ⟨hc, hbel⟩
  · rintro ⟨hs, hbel⟩
    exact ⟨block.identity, (hexp _).2 hbel, hs.get⟩

/-- **`precedes` decides `≺`**, after resolving the candidate ancestor. -/
theorem precedes_iff :
    B.precedes a b = true ↔ ∃ a', B.resolveIdentity a = some a' ∧ B.Below a' b := by
  unfold precedes
  cases h : B.resolveIdentity a with
  | none => simp
  | some a' =>
      simp only [List.any_eq_true, decide_eq_true_eq, Option.some.injEq, exists_eq_left']
      constructor
      · rintro ⟨block, hblock, rfl⟩
        exact (mem_ancestors_iff.1 hblock).2
      · intro hb
        obtain ⟨c, hc⟩ := exists_lookup hb.mem
        exact ⟨⟨a', c⟩, mem_ancestors_iff.2 ⟨hc, hb⟩, rfl⟩

theorem precedes_of_mem (ha : a ∈ B.blocks) : B.precedes a b = true ↔ B.Below a b := by
  simp [precedes_iff, resolveIdentity_of_mem ha]

/-- **`preceedesOrEquals` decides `⪯`** on the blocks the references name. -/
theorem preceedesOrEquals_iff :
    B.preceedesOrEquals a b = true ↔
      ∃ a' b', B.resolveIdentity a = some a' ∧ B.resolveIdentity b = some b' ∧ B.Sees b' a' := by
  unfold preceedesOrEquals
  cases ha : B.resolveIdentity a with
  | none => simp
  | some a' =>
      cases hb : B.resolveIdentity b with
      | none => simp
      | some b' =>
          simp [precedes_of_mem (resolveIdentity_mem ha), sees_iff_eq_or_below]

/-! ### The chain axiom -/

theorem mem_entries_iff {entry : Sigma fun _ : BlockIdentity => BlockContent} :
    entry ∈ B.blocks.entries ↔ B.blocks.lookup entry.1 = some entry.2 := by
  rw [← Option.mem_def, AList.mem_lookup_iff]

theorem mem_blocksBy_iff {node : NodeId} {block : Block} :
    block ∈ B.blocksBy node ↔ B.Stores block ∧ block.identity.creator = node := by
  unfold blocksBy
  rw [List.mem_map]
  constructor
  · rintro ⟨entry, he, rfl⟩
    rw [List.mem_filter, mem_entries_iff] at he
    exact ⟨he.1, by simpa using he.2⟩
  · rintro ⟨hs, hc⟩
    exact ⟨⟨block.identity, block.content⟩,
      List.mem_filter.2 ⟨mem_entries_iff.2 hs, by simpa using hc⟩, rfl⟩

/-- **CHAIN says that any two distinct blocks of the node are comparable.** -/
theorem satisfiesChainAxiom_iff {node : NodeId} :
    B.satisfiesChainAxiom node = true ↔
      ∀ a ∈ B.blocks, ∀ b ∈ B.blocks, a.creator = node → b.creator = node → a ≠ b →
        B.Below a b ∨ B.Below b a := by
  unfold satisfiesChainAxiom
  rw [decide_eq_true_eq]
  have hnd : (B.blocksBy node).Nodup := by
    unfold blocksBy
    refine ((AList.nodupKeys B.blocks).nodup.filter _).map_on ?_
    rintro ⟨i, c⟩ - ⟨j, d⟩ - h
    simpa using h
  have hsymm : Std.Symm fun a b : Block =>
      B.precedes a.identity b.identity = true ∨ B.precedes b.identity a.identity = true :=
    ⟨fun a b h => h.symm⟩
  constructor
  · intro h a ha b hb hca hcb hne
    obtain ⟨ca, hla⟩ := exists_lookup ha
    obtain ⟨cb, hlb⟩ := exists_lookup hb
    have hma : (⟨a, ca⟩ : Block) ∈ B.blocksBy node := mem_blocksBy_iff.2 ⟨hla, hca⟩
    have hmb : (⟨b, cb⟩ : Block) ∈ B.blocksBy node := mem_blocksBy_iff.2 ⟨hlb, hcb⟩
    have := h.forall hma hmb fun he => hne (congrArg Block.identity he)
    simpa [precedes_of_mem ha, precedes_of_mem hb] using this
  · intro h
    refine hnd.pairwise_of_forall_ne fun x hx y hy hne => ?_
    obtain ⟨hsx, hcx⟩ := mem_blocksBy_iff.1 hx
    obtain ⟨hsy, hcy⟩ := mem_blocksBy_iff.1 hy
    have := h _ hsx.mem _ hsy.mem hcx hcy fun he => hne (hsx.ext hsy he)
    simpa [precedes_of_mem hsx.mem, precedes_of_mem hsy.mem] using this

theorem mem_allNodes_iff {node : NodeId} :
    node ∈ B.allNodes ↔ ∃ a ∈ B.blocks, a.creator = node := by
  simp [allNodes, dom, AList.mem_keys]

/-- CHAIN for every node, as a statement about stored blocks. -/
theorem satisfiesChainAxiomAll_iff :
    B.satisfiesChainAxiomAll = true ↔
      ∀ a ∈ B.blocks, ∀ b ∈ B.blocks, a.creator = b.creator → a ≠ b →
        B.Below a b ∨ B.Below b a := by
  unfold satisfiesChainAxiomAll
  simp only [List.all_eq_true, mem_allNodes_iff, satisfiesChainAxiom_iff]
  constructor
  · intro h a ha b hb hc hne
    exact h a.creator ⟨a, ha, rfl⟩ a ha b hb rfl hc.symm hne
  · rintro h node - a ha b hb rfl hcb hne
    exact h a ha b hb hcb.symm hne

/-- CLOSED, as a statement about lookups. -/
theorem isClosed_iff :
    B.isClosed = true ↔
      ∀ a c, B.blocks.lookup a = some c → B.checkpoint ≠ some a →
        ∀ p ∈ c.predecessors, ∃ r, B.resolveIdentity p = some r := by
  unfold isClosed
  rw [List.all_eq_true]
  constructor
  · intro h a c hc hcp p hp
    have := h ⟨a, c⟩ (mem_entries_iff.2 hc)
    simp only [isCheckpointBoundary, hcp, decide_false, Bool.false_or, List.all_eq_true] at this
    exact Option.isSome_iff_exists.1 (this p hp)
  · rintro h ⟨a, c⟩ he
    by_cases hcp : B.checkpoint = some a
    · simp [isCheckpointBoundary, hcp]
    · simp only [Bool.or_eq_true, List.all_eq_true]
      exact Or.inr fun p hp =>
        Option.isSome_iff_exists.2 (h a c (mem_entries_iff.1 he) hcp p hp)

end Blocklace

end CordialMiners
