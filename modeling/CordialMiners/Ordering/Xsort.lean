/-
# Sorting a fragment

`approved_blocks_for_leader` and `xsort` of `consensus/ordering.rs`.

`xsort` is Kahn's algorithm on the references between the given blocks, with
ties broken by consensus identity.  On a set of blocks of one blocklace a
reference names inside the set what it names in the blocklace, if that is in
the set; so the result is *the* smallest-ready-first order of the set
(`Sorted`), and the sort fails exactly when that order does not take every
block, that is, when references inside the set run in a cycle.
-/

import CordialMiners.Core.Growth
import CordialMiners.Graph.Kahn

namespace CordialMiners

open FinGraph

/-- Why an ordering fails. -/
inductive OrderingError where
  | cycleDetected
deriving DecidableEq, Repr

/-- The member of a set of identities that a reference names. -/
def referenceIn (ids : List BlockIdentity) (reference : BlockIdentity) : Option BlockIdentity :=
  if reference ∈ ids then some reference
  else if reference.signature = [] then
    ((uniqueIndex (ids.map fun id => ((id.contentHash, id.creator), id))).lookup
      (reference.contentHash, reference.creator)).join
  else none

/-- Each block with the blocks of the set it waits for. -/
def xsortNodes (blocks : List Block) : List (BlockIdentity × List BlockIdentity) :=
  blocks.map fun block =>
    (block.identity,
      block.content.predecessors.filterMap (referenceIn (blocks.map Block.identity).dedup))

/-- A deterministic topological order of `blocks`, as consensus identities. -/
def xsort (blocks : List Block) : Except OrderingError (List BlockIdentity) :=
  let ordered := kahn BlockIdentity.consensusIdentity (xsortNodes blocks)
  if ordered.length ≠ blocks.length then .error .cycleDetected
  else .ok (ordered.map BlockIdentity.consensusIdentity)

namespace Blocklace

/-- The blocks a leader approves. -/
def approvedBlocksForLeader (B : Blocklace) (leader : BlockIdentity) : List Block :=
  if (B.get leader).isNone then []
  else (B.dom.filterMap B.get).filter fun block => B.approves leader block.identity

/-! ### The order of a set of blocks -/

variable {B B' : Blocklace} {a b p x L : BlockIdentity} {d : ℕ} {S S' : Set BlockIdentity}
  {l l' : List BlockIdentity} {blocks : List Block}

/-- The content of `x` has a reference that names `p`. -/
def Refers (B : Blocklace) (x p : BlockIdentity) : Prop :=
  ∃ c, B.blocks.lookup x = some c ∧ ∃ q ∈ c.predecessors, B.resolveIdentity q = some p

/-- Except for the checkpoint, what a block refers to is what it points at. -/
theorem refers_iff_mem_expand (hx : B.checkpoint ≠ some x) (hxb : x ∈ B.blocks) :
    B.Refers x p ↔ p ∈ B.expand x := by
  obtain ⟨c, hc⟩ := exists_lookup hxb
  rw [expand_of_lookup hc hx, List.mem_filterMap]
  constructor
  · rintro ⟨c', hc', q, hq, hqp⟩
    rw [hc] at hc'
    obtain rfl := Option.some.inj hc'
    exact ⟨q, hq, hqp⟩
  · rintro ⟨q, hq, hqp⟩
    exact ⟨c, hc, q, hq, hqp⟩

/-- `l` is the smallest-ready-first order of `S` under references. -/
def Sorted (B : Blocklace) (S : Set BlockIdentity) (l : List BlockIdentity) : Prop :=
  Greedy S (fun p x => B.Refers x p) BlockIdentity.consensusIdentity ∅ l

theorem injOn_consensusIdentity (hS : ∀ x ∈ S, x ∈ B.blocks) :
    Set.InjOn BlockIdentity.consensusIdentity S := fun _ hx _ hy h =>
  eq_of_consensusIdentity_eq (hS _ hx) (hS _ hy) h

theorem Sorted.unique (hS : ∀ x ∈ S, x ∈ B.blocks) (h : B.Sorted S l) (h' : B.Sorted S l') :
    l = l' := Greedy.unique (injOn_consensusIdentity hS) h h'

theorem Sorted.mem (h : B.Sorted S l) (hx : x ∈ l) : x ∈ S := (Greedy.mem h hx).1

/-- The order is read off the references inside the set. -/
theorem Sorted.congr (hS : S = S')
    (href : ∀ p ∈ S, ∀ x ∈ S, (B.Refers x p ↔ B'.Refers x p)) (h : B.Sorted S l) :
    B'.Sorted S' l := Greedy.congr hS href h

theorem Sorted.nodup_map (hS : ∀ x ∈ S, x ∈ B.blocks) (h : B.Sorted S l) :
    (l.map BlockIdentity.consensusIdentity).Nodup :=
  (Greedy.nodup h).map_on fun _ hx _ hy heq =>
    injOn_consensusIdentity hS (h.mem hx) (h.mem hy) heq

/-- Inside a set of stored blocks, a reference names what it names in the
blocklace. -/
theorem referenceIn_iff {ids : List BlockIdentity} (hids : ∀ x ∈ ids, x ∈ B.blocks)
    (hnd : ids.Nodup) : referenceIn ids a = some p ↔ p ∈ ids ∧ B.resolveIdentity a = some p := by
  unfold referenceIn
  split_ifs with ha hsig
  · rw [resolveIdentity_of_mem (hids a ha)]
    constructor
    · rintro h
      obtain rfl := Option.some.inj h
      exact ⟨ha, rfl⟩
    · exact fun h => h.2
  · rw [Option.join_eq_some_iff, lookup_uniqueIndex]
    constructor
    · intro h
      have hmem : ((a.contentHash, a.creator), p) ∈
          ids.map fun id => ((id.contentHash, id.creator), id) :=
        (List.mem_filter.1 (by rw [h]; exact List.mem_singleton_self _)).1
      obtain ⟨r, hr, hrp⟩ := List.mem_map.1 hmem
      simp only [Prod.mk.injEq] at hrp
      obtain ⟨⟨hh, hc⟩, rfl⟩ := hrp
      exact ⟨hr, resolveIdentity_eq_some_iff.2 ⟨hids r hr,
        BlockIdentity.consensusIdentity_eq_iff.2 ⟨hh.symm, hc.symm⟩, Or.inr hsig⟩⟩
    · rintro ⟨hp, hres⟩
      have hcons := BlockIdentity.consensusIdentity_eq_iff.1 (resolveIdentity_consensus hres)
      have hnd' : (ids.map fun id => ((id.contentHash, id.creator), id)).Nodup :=
        hnd.map fun _ _ h => (Prod.mk.inj h).2
      have hmem : ((a.contentHash, a.creator), p) ∈
          (ids.map fun id => ((id.contentHash, id.creator), id)).filter
            fun entry => entry.1 = (a.contentHash, a.creator) := by
        refine List.mem_filter.2 ⟨List.mem_map.2 ⟨p, hp, ?_⟩, by simp⟩
        rw [hcons.1, hcons.2]
      have hall : ∀ y ∈ (ids.map fun id => ((id.contentHash, id.creator), id)).filter
          fun entry => entry.1 = (a.contentHash, a.creator), y = ((a.contentHash, a.creator), p) := by
        intro y hy
        obtain ⟨hy, hkey⟩ := List.mem_filter.1 hy
        obtain ⟨r, hr, rfl⟩ := List.mem_map.1 hy
        simp only [Prod.mk.injEq, decide_eq_true_eq] at hkey
        have hrp : r = p := eq_of_consensusIdentity_eq (hids r hr) (hids p hp)
          (BlockIdentity.consensusIdentity_eq_iff.2
            ⟨hkey.1.trans hcons.1, hkey.2.trans hcons.2⟩)
        rw [hrp, hcons.1, hcons.2]
      have hrep := List.eq_replicate_of_mem hall
      have hlen := hnd'.filter fun entry => decide (entry.1 = (a.contentHash, a.creator))
      rw [hrep, List.nodup_replicate] at hlen
      have hpos := List.length_pos_of_mem hmem
      rw [hrep, show ((ids.map fun id => ((id.contentHash, id.creator), id)).filter
        fun entry => entry.1 = (a.contentHash, a.creator)).length = 1 by omega]
      rfl
  · simp only [false_iff, not_and]
    intro hp hres
    rcases (resolveIdentity_eq_some_iff.1 hres).2.2 with rfl | h
    · exact ha hp
    · exact hsig h

/-- Stored blocks, each listed once. -/
structure Listed (B : Blocklace) (blocks : List Block) : Prop where
  stores : ∀ b ∈ blocks, B.Stores b
  nodup : (blocks.map Block.identity).Nodup

theorem Listed.filter (h : B.Listed blocks) (p : Block → Bool) : B.Listed (blocks.filter p) :=
  ⟨fun b hb => h.stores b (List.mem_filter.1 hb).1, h.nodup.sublist (List.filter_sublist.map _)⟩

theorem Listed.mem_blocks (h : B.Listed blocks) (hx : x ∈ idsOf blocks) : x ∈ B.blocks := by
  obtain ⟨b, hb, rfl⟩ := hx
  exact (h.stores b hb).mem

/-- **`xsort` runs through the order of its set of blocks.** -/
theorem Listed.sorted (h : B.Listed blocks) :
    B.Sorted (idsOf blocks) (kahn BlockIdentity.consensusIdentity (xsortNodes blocks)) := by
  have hids : ∀ x ∈ blocks.map Block.identity, x ∈ B.blocks := by
    intro x hx
    obtain ⟨b, hb, rfl⟩ := List.mem_map.1 hx
    exact (h.stores b hb).mem
  have hdedup : (blocks.map Block.identity).dedup = blocks.map Block.identity := h.nodup.dedup
  have hset : nodeSet (xsortNodes blocks) = idsOf blocks := by
    ext x
    constructor
    · rintro ⟨ps, hps⟩
      obtain ⟨b, hb, hbx⟩ := List.mem_map.1 hps
      exact ⟨b, hb, (Prod.mk.inj hbx).1⟩
    · rintro ⟨b, hb, rfl⟩
      exact ⟨_, List.mem_map.2 ⟨b, hb, rfl⟩⟩
  have hwaits : ∀ p x, WaitsFor (xsortNodes blocks) p x ↔
      x ∈ idsOf blocks ∧ p ∈ idsOf blocks ∧ B.Refers x p := by
    intro p x
    constructor
    · rintro ⟨ps, hps, hp⟩
      obtain ⟨b, hb, hbx⟩ := List.mem_map.1 hps
      obtain ⟨rfl, rfl⟩ := Prod.mk.inj hbx
      obtain ⟨q, hq, hqp⟩ := List.mem_filterMap.1 hp
      rw [hdedup, referenceIn_iff hids h.nodup] at hqp
      obtain ⟨b', hb', hbp⟩ := List.mem_map.1 hqp.1
      exact ⟨⟨b, hb, rfl⟩, ⟨b', hb', hbp⟩, b.content, h.stores b hb, q, hq, hqp.2⟩
    · rintro ⟨⟨b, hb, rfl⟩, ⟨b', hb', rfl⟩, c, hc, q, hq, hqp⟩
      obtain rfl : b.content = c := Option.some.inj ((h.stores b hb).symm.trans hc)
      refine ⟨_, List.mem_map.2 ⟨b, hb, rfl⟩, List.mem_filterMap.2 ⟨q, hq, ?_⟩⟩
      rw [hdedup, referenceIn_iff hids h.nodup]
      exact ⟨List.mem_map_of_mem hb', hqp⟩
  have hwell : WellListed (xsortNodes blocks) := by
    refine ⟨?_, fun x ps hps p hp => ?_⟩
    · unfold xsortNodes
      rw [List.map_map]
      exact h.nodup
    · rw [hset]
      exact ((hwaits p x).1 ⟨ps, hps, hp⟩).2.1
  have hkey : Set.InjOn BlockIdentity.consensusIdentity (nodeSet (xsortNodes blocks)) := by
    rw [hset]
    exact injOn_consensusIdentity fun x hx => h.mem_blocks hx
  refine (kahn_greedy hwell hkey).congr hset fun p hp x hx => ?_
  rw [hset] at hp hx
  rw [hwaits]
  exact ⟨fun hw => hw.2.2, fun hw => ⟨hx, hp, hw⟩⟩

/-- **`xsort` succeeds exactly when the order takes every block.** -/
theorem Listed.xsort_eq_ok (h : B.Listed blocks) {out : List BlockIdentity} :
    xsort blocks = .ok out ↔
      ∃ l, B.Sorted (idsOf blocks) l ∧ (∀ x ∈ idsOf blocks, x ∈ l) ∧
        out = l.map BlockIdentity.consensusIdentity := by
  have hsorted := h.sorted
  set l := kahn BlockIdentity.consensusIdentity (xsortNodes blocks) with hl
  have hsub : l ⊆ blocks.map Block.identity := by
    intro x hx
    obtain ⟨b, hb, rfl⟩ := hsorted.mem hx
    exact List.mem_map_of_mem hb
  have hlen : l.length = blocks.length ↔ ∀ x ∈ idsOf blocks, x ∈ l := by
    have hperm := List.subperm_of_subset (Greedy.nodup hsorted) hsub
    constructor
    · rintro heq x ⟨b, hb, rfl⟩
      have hp := hperm.perm_of_length_le (by rw [List.length_map, heq])
      exact hp.mem_iff.2 (List.mem_map_of_mem hb)
    · intro hall
      have hsub' : blocks.map Block.identity ⊆ l := by
        intro x hx
        obtain ⟨b, hb, rfl⟩ := List.mem_map.1 hx
        exact hall _ ⟨b, hb, rfl⟩
      have h₁ := hperm.length_le
      have h₂ := (List.subperm_of_subset h.nodup hsub').length_le
      rw [List.length_map] at h₁ h₂
      omega
  unfold xsort
  simp only [← hl]
  split_ifs with hne
  · refine iff_of_false (by simp) ?_
    rintro ⟨l', hl', hall, -⟩
    rw [hl'.unique (fun x hx => h.mem_blocks hx) hsorted] at hall
    exact hne (hlen.2 hall)
  · constructor
    · intro hok
      exact ⟨l, hsorted, hlen.1 (not_not.1 hne), (Except.ok.inj hok).symm⟩
    · rintro ⟨l', hl', -, rfl⟩
      rw [hl'.unique (fun x hx => h.mem_blocks hx) hsorted]

/-- Where every block has a round and none is the checkpoint, no reference runs
in a cycle. -/
theorem Sorted.covers (hcp : ∀ x ∈ S, B.checkpoint ≠ some x) (hround : ∀ x ∈ S, ∃ d, B.Round x d)
    (h : B.Sorted S l) (hx : x ∈ S) : x ∈ l := by
  choose! rank hrank using hround
  refine Greedy.mem_of_rank rank (fun p hp y hy href => ?_) h hx (Set.notMem_empty x)
  have hpy := (refers_iff_mem_expand (hcp y hy) (hrank y hy).mem).1 href
  exact (hrank p hp).lt_of_below (hrank y hy) (Relation.TransGen.single hpy)

/-! ### The blocks a leader approves -/

/-- The stored blocks a leader approves. -/
def approvedSet (B : Blocklace) (L : BlockIdentity) : Set BlockIdentity :=
  {x | x ∈ B.blocks ∧ B.approves L x = true}

theorem mem_approvedSet_iff (hL : B.Round L d) : x ∈ B.approvedSet L ↔ B.Approves L x := by
  constructor
  · exact fun h => (approves_iff hL).1 h.2
  · exact fun h => ⟨h.mem hL.mem, (approves_iff hL).2 h⟩

/-- A leader with a round approves itself. -/
theorem mem_approvedSet_self (hL : B.Round L d) : L ∈ B.approvedSet L :=
  (mem_approvedSet_iff hL).2 ⟨.refl B L, fun _ hs _ _ => Or.inl hs⟩

/-- Looking up stored identities lists their blocks. -/
theorem listed_filterMap_get {ids : List BlockIdentity} (hids : ∀ x ∈ ids, x ∈ B.blocks)
    (hnd : ids.Nodup) : B.Listed (ids.filterMap B.get) := by
  have hmap : ∀ l : List BlockIdentity, (∀ x ∈ l, x ∈ B.blocks) →
      (l.filterMap B.get).map Block.identity = l := by
    intro l
    induction l with
    | nil => simp
    | cons y l ih =>
        intro hl
        obtain ⟨c, hc⟩ := exists_lookup (hl y List.mem_cons_self)
        have hget : B.get y = some ⟨y, c⟩ := by
          rw [get_of_mem (hl y List.mem_cons_self), hc]
          rfl
        rw [List.filterMap_cons, hget, List.map_cons,
          ih fun x hx => hl x (List.mem_cons_of_mem _ hx)]
  refine ⟨fun b hb => ?_, ?_⟩
  · obtain ⟨y, -, hget⟩ := List.mem_filterMap.1 hb
    exact stores_of_get hget
  · rwa [hmap ids hids]

theorem idsOf_filterMap_get {ids : List BlockIdentity} (hids : ∀ x ∈ ids, x ∈ B.blocks) :
    idsOf (ids.filterMap B.get) = {x | x ∈ ids} := by
  ext x
  constructor
  · rintro ⟨b, hb, rfl⟩
    obtain ⟨y, hy, hget⟩ := List.mem_filterMap.1 hb
    obtain ⟨hres, -⟩ := get_eq_some_iff.1 hget
    rw [resolveIdentity_of_mem (hids y hy)] at hres
    exact Option.some.inj hres ▸ hy
  · intro hx
    obtain ⟨c, hc⟩ := exists_lookup (hids x hx)
    have hst : B.Stores ⟨x, c⟩ := hc
    exact ⟨⟨x, c⟩, List.mem_filterMap.2 ⟨x, hx, hst.get⟩, rfl⟩

private theorem stored_listed (B : Blocklace) : B.Listed (B.dom.filterMap B.get) :=
  listed_filterMap_get (fun _ hx => AList.mem_keys.2 hx) B.blocks.nodupKeys

theorem approvedBlocksForLeader_listed (B : Blocklace) (L : BlockIdentity) :
    B.Listed (B.approvedBlocksForLeader L) := by
  unfold approvedBlocksForLeader
  split_ifs
  · exact ⟨by simp, by simp⟩
  · exact (stored_listed B).filter _

theorem idsOf_approvedBlocksForLeader :
    idsOf (B.approvedBlocksForLeader L) = B.approvedSet L := by
  ext x
  unfold approvedBlocksForLeader approvedSet idsOf
  split_ifs with hL
  · -- a leader that names no stored block approves nothing
    have hres : B.resolveIdentity L = none := by
      by_contra hne
      have hs := get_isSome_iff.2 (Option.isSome_iff_ne_none.2 hne)
      rw [Option.isNone_iff_eq_none] at hL
      rw [hL] at hs
      exact absurd hs (by decide)
    simp [approves, hres]
  · constructor
    · rintro ⟨b, hb, rfl⟩
      rw [List.mem_filter] at hb
      obtain ⟨y, -, hget⟩ := List.mem_filterMap.1 hb.1
      exact ⟨(stores_of_get hget).mem, hb.2⟩
    · rintro ⟨hx, happ⟩
      obtain ⟨c, hc⟩ := exists_lookup hx
      have hst : B.Stores ⟨x, c⟩ := hc
      exact ⟨⟨x, c⟩, List.mem_filter.2
        ⟨List.mem_filterMap.2 ⟨x, AList.mem_keys.1 hx, hst.get⟩, happ⟩, rfl⟩

end Blocklace

end CordialMiners
