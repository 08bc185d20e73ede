/-
# The canonical topological sort

`xsort` of `consensus/ordering.rs` on an arbitrary set of blocks.

Whatever the set, the sort either takes every block or reports a cycle.  Read as
a blocklace of its own, the set resolves its references as a blocklace does, so
the results on stored blocks (`Listed`) apply to it.  The order that comes out is
singled out among all topological orders of the set: it is the least one, and
for that reason the iteration order of a hash set cannot be seen in it.
-/

import CordialMiners.Ordering.Xsort

namespace CordialMiners

open FinGraph Relation

/-- A finite set of blocks with distinct consensus identities, in the order in
which it is iterated. -/
structure BlockSet where
  blocks : List Block
  consensusNodup : (blocks.map fun block => block.identity.consensusIdentity).Nodup

namespace BlockSet

variable {s t : BlockSet} {p x : BlockIdentity} {out out' l : List BlockIdentity}

theorem nodup (s : BlockSet) : (s.blocks.map Block.identity).Nodup := by
  refine List.Nodup.of_map BlockIdentity.consensusIdentity ?_
  rw [List.map_map]
  exact s.consensusNodup

/-- The blocks of the set and nothing else. -/
def blocklace (s : BlockSet) : Blocklace :=
  { Blocklace.new 0 with
    blocks := ⟨s.blocks.map fun block => ⟨block.identity, block.content⟩, by
      rw [List.NodupKeys, List.keys, List.map_map]
      exact s.nodup⟩
    variantNodup := by
      rw [AList.keys]
      simp only [List.keys, List.map_map]
      exact s.consensusNodup }

theorem stores {block : Block} (h : block ∈ s.blocks) : s.blocklace.Stores block := by
  have hentry : (⟨block.identity, block.content⟩ : Sigma fun _ : BlockIdentity => BlockContent) ∈
      s.blocklace.blocks.entries := List.mem_map.2 ⟨block, h, rfl⟩
  exact Blocklace.mem_entries_iff.1 hentry

theorem listed (s : BlockSet) : s.blocklace.Listed s.blocks := ⟨fun _ => stores, s.nodup⟩

theorem mem_blocklace_iff : x ∈ s.blocklace.blocks ↔ x ∈ Blocklace.idsOf s.blocks := by
  rw [AList.mem_keys, AList.keys, List.keys, blocklace, List.map_map, List.mem_map]
  rfl

/-- `x` has a reference that, resolved inside the set, names `p`. -/
def DirectPredecessor (s : BlockSet) (p x : BlockIdentity) : Prop :=
  ∃ block ∈ s.blocks, block.identity = x ∧
    ∃ reference ∈ block.content.predecessors, s.blocklace.resolveIdentity reference = some p

/-- A permutation of the consensus identities of the set in which every block
comes after all its direct predecessors. -/
structure TopologicalOrder (s : BlockSet) (out : List BlockIdentity) : Prop where
  perm : out.Perm (s.blocks.map fun block => block.identity.consensusIdentity)
  follows : ∀ before x after, out = before ++ x.consensusIdentity :: after →
    ∀ p, s.DirectPredecessor p x → p.consensusIdentity ∈ before

theorem DirectPredecessor.mem (h : s.DirectPredecessor p x) :
    p ∈ Blocklace.idsOf s.blocks ∧ x ∈ Blocklace.idsOf s.blocks := by
  obtain ⟨block, hb, rfl, reference, -, hres⟩ := h
  exact ⟨mem_blocklace_iff.1 (Blocklace.resolveIdentity_mem hres), block, hb, rfl⟩

theorem directPredecessor_iff :
    s.DirectPredecessor p x ↔ s.blocklace.Refers x p := by
  constructor
  · rintro ⟨block, hb, rfl, reference, href, hres⟩
    exact ⟨block.content, stores hb, reference, href, hres⟩
  · rintro ⟨content, hl, reference, href, hres⟩
    obtain ⟨block, hb, rfl⟩ := mem_blocklace_iff.1 (Blocklace.mem_of_lookup hl)
    obtain rfl := Option.some.inj ((stores hb).symm.trans hl)
    exact ⟨block, hb, rfl, reference, href, hres⟩

/-- What is said of a set of blocks does not depend on its iteration order. -/
theorem directPredecessor_of_perm (h : t.blocks.Perm s.blocks) :
    t.DirectPredecessor p x ↔ s.DirectPredecessor p x := by
  have hres : ∀ reference, t.blocklace.resolveIdentity reference = some p ↔
      s.blocklace.resolveIdentity reference = some p := by
    intro reference
    have hmem : p ∈ t.blocklace.blocks ↔ p ∈ s.blocklace.blocks := by
      rw [mem_blocklace_iff, mem_blocklace_iff]
      unfold Blocklace.idsOf
      simp only [Set.mem_ofPred_eq, h.mem_iff]
    rw [Blocklace.resolveIdentity_eq_some_iff, Blocklace.resolveIdentity_eq_some_iff, hmem]
  unfold DirectPredecessor
  simp only [h.mem_iff, hres]

theorem topologicalOrder_of_perm (h : t.blocks.Perm s.blocks) (hout : s.TopologicalOrder out) :
    t.TopologicalOrder out where
  perm := hout.perm.trans (h.symm.map _)
  follows before x after heq p hp :=
    hout.follows before x after heq p ((directPredecessor_of_perm h).1 hp)

theorem injOn (s : BlockSet) :
    Set.InjOn BlockIdentity.consensusIdentity (Blocklace.idsOf s.blocks) :=
  Blocklace.injOn_consensusIdentity fun _ hx => mem_blocklace_iff.2 hx

/-- A run of the sort that takes every block. -/
structure Takes (s : BlockSet) (l : List BlockIdentity) : Prop where
  sorted : s.blocklace.Sorted (Blocklace.idsOf s.blocks) l
  all : ∀ x ∈ Blocklace.idsOf s.blocks, x ∈ l

/-- `xsort` succeeds where the greedy walk takes all. -/
theorem xsort_eq_ok :
    xsort s.blocks = .ok out ↔ ∃ l, s.Takes l ∧ out = l.map BlockIdentity.consensusIdentity := by
  rw [s.listed.xsort_eq_ok]
  constructor
  · rintro ⟨l, hl, hall, rfl⟩
    exact ⟨l, ⟨hl, hall⟩, rfl⟩
  · rintro ⟨l, hl, rfl⟩
    exact ⟨l, hl.sorted, hl.all, rfl⟩

theorem Takes.perm (h : s.Takes l) : l.Perm (s.blocks.map Block.identity) := by
  refine (List.perm_ext_iff_of_nodup (Greedy.nodup h.sorted) s.nodup).2 fun x => ?_
  rw [List.mem_map]
  exact ⟨fun hx => h.sorted.mem hx, fun hx => h.all x hx⟩

theorem Takes.topologicalOrder (h : s.Takes l) :
    s.TopologicalOrder (l.map BlockIdentity.consensusIdentity) := by
  refine ⟨?_, fun before x after heq p hp => ?_⟩
  · have hmap := h.perm.map BlockIdentity.consensusIdentity
    rwa [List.map_map] at hmap
  · obtain ⟨l₁, l₂, rfl, rfl, hl₂⟩ := List.map_eq_append_iff.1 heq
    obtain ⟨y, l₃, rfl, hyx, -⟩ := List.map_eq_cons_iff.1 hl₂
    obtain rfl : y = x := s.injOn (h.sorted.mem (by simp)) hp.mem.2 hyx
    have hmem := Greedy.pre_mem h.sorted hp.mem.1 (directPredecessor_iff.1 hp)
    exact List.mem_map_of_mem (hmem.resolve_left (Set.notMem_empty p))

/-- Every topological order of the set is an order of its blocks in which each
is ready when its turn comes. -/
theorem TopologicalOrder.readyOrder (h : s.TopologicalOrder out) :
    ∃ l : List BlockIdentity, l.map BlockIdentity.consensusIdentity = out ∧
      ReadyOrder (Blocklace.idsOf s.blocks) (fun p x => s.blocklace.Refers x p) ∅ l := by
  have hne : Nonempty BlockIdentity := ⟨⟨0, ⟨[]⟩, []⟩⟩
  -- the block of each consensus identity of the set
  let block := Function.invFunOn BlockIdentity.consensusIdentity (Blocklace.idsOf s.blocks)
  have hblock : ∀ x ∈ out, block x ∈ Blocklace.idsOf s.blocks ∧
      (block x).consensusIdentity = x := by
    intro x hx
    obtain ⟨b, hb, rfl⟩ := List.mem_map.1 (h.perm.mem_iff.1 hx)
    have hex : ∃ y ∈ Blocklace.idsOf s.blocks,
        y.consensusIdentity = b.identity.consensusIdentity := ⟨b.identity, ⟨b, hb, rfl⟩, rfl⟩
    exact ⟨Function.invFunOn_mem hex, Function.invFunOn_eq hex⟩
  have hmap : (out.map block).map BlockIdentity.consensusIdentity = out := by
    rw [List.map_map]
    conv_rhs => rw [← List.map_id out]
    exact List.map_congr_left fun x hx => (hblock x hx).2
  have hS : ∀ x ∈ out.map block, x ∈ Blocklace.idsOf s.blocks := by
    intro x hx
    obtain ⟨y, hy, rfl⟩ := List.mem_map.1 hx
    exact (hblock y hy).1
  refine ⟨out.map block, hmap, readyOrder_of_pre_mem hS ?_ (fun _ _ => Set.notMem_empty _) ?_⟩
  · refine List.Nodup.of_map BlockIdentity.consensusIdentity ?_
    rw [hmap]
    exact h.perm.nodup_iff.2 s.consensusNodup
  · intro l₁ x l₂ heq p hp hpx
    rw [heq, List.map_append, List.map_cons] at hmap
    obtain ⟨q, hq, hqp⟩ := List.mem_map.1
      (h.follows _ x _ hmap.symm p (directPredecessor_iff.2 hpx))
    have hqS := hS q (by rw [heq]; exact List.mem_append_left _ hq)
    exact Or.inr (s.injOn hqS hp hqp ▸ hq)

/-- **The sort produces the least topological order.** -/
theorem Takes.least (h : s.Takes l) (hout : s.TopologicalOrder out) :
    l.map BlockIdentity.consensusIdentity ≤ out := by
  obtain ⟨l', rfl, hready⟩ := hout.readyOrder
  refine Greedy.map_le_map s.injOn h.sorted hready ?_
  have hlen := hout.perm.length_eq
  rw [List.length_map, List.length_map] at hlen
  rw [h.perm.length_eq, List.length_map, hlen]

/-- No chain of direct predecessors leads from a block to itself. -/
def Acyclic (s : BlockSet) : Prop := ∀ x, ¬ TransGen s.DirectPredecessor x x

/-- What it takes in full has no cycle. -/
theorem Takes.acyclic (h : s.Takes l) : s.Acyclic := by
  have hstep : ∀ p x, s.DirectPredecessor p x → l.idxOf p < l.idxOf x := fun p x hpx =>
    Greedy.idxOf_lt h.sorted hpx.mem.1 (h.all x hpx.mem.2) (directPredecessor_iff.1 hpx)
  have hlt : ∀ p x, TransGen s.DirectPredecessor p x → l.idxOf p < l.idxOf x := by
    intro p x hpx
    induction hpx with
    | single h => exact hstep _ _ h
    | tail _ h ih => exact ih.trans (hstep _ _ h)
  exact fun x hx => absurd (hlt x x hx) (lt_irrefl _)

/-- Without a cycle it takes all. -/
theorem Acyclic.exists_takes (h : s.Acyclic) : ∃ l, s.Takes l := by
  have hsorted := s.listed.sorted
  refine ⟨_, hsorted, fun x hx => ?_⟩
  have hfin : (Blocklace.idsOf s.blocks).Finite := by
    refine Set.Finite.subset (List.finite_toSet (s.blocks.map Block.identity)) fun y hy => ?_
    exact List.mem_map.2 hy
  have hwf := wellFounded_of_acyclic hfin (fun _ _ hpx => DirectPredecessor.mem hpx) h
  refine Greedy.mem_of_wellFounded ?_ hsorted hx (Set.notMem_empty x)
  have hsub : Subrelation (fun p x => p ∈ Blocklace.idsOf s.blocks ∧ x ∈ Blocklace.idsOf s.blocks ∧
      s.blocklace.Refers x p) s.DirectPredecessor :=
    fun {p x} hpx => directPredecessor_iff.2 hpx.2.2
  exact hsub.wf hwf

/-- **The canonical sort.**  On every set of blocks with distinct consensus
identities the sort succeeds exactly when the direct predecessors run in no
cycle; it then returns the lexicographically least topological order of the
consensus identities, and whatever it answers is the same for every iteration
order of the set. -/
theorem xsort_canonical (s : BlockSet) :
    ((∃ out, xsort s.blocks = .ok out) ↔ s.Acyclic) ∧
      (∀ out, xsort s.blocks = .ok out →
        s.TopologicalOrder out ∧ ∀ out', s.TopologicalOrder out' → out ≤ out') ∧
      ∀ t : BlockSet, t.blocks.Perm s.blocks → xsort t.blocks = xsort s.blocks := by
  have hok : ∀ s : BlockSet, (∃ out, xsort s.blocks = .ok out) ↔ s.Acyclic := by
    intro s
    constructor
    · rintro ⟨out, hout⟩
      obtain ⟨l, hl, -⟩ := xsort_eq_ok.1 hout
      exact hl.acyclic
    · intro hacyclic
      obtain ⟨l, hl⟩ := hacyclic.exists_takes
      exact ⟨_, xsort_eq_ok.2 ⟨l, hl, rfl⟩⟩
  have hleast : ∀ (s : BlockSet) (out : List BlockIdentity), xsort s.blocks = .ok out →
      s.TopologicalOrder out ∧ ∀ out', s.TopologicalOrder out' → out ≤ out' := by
    intro s out hout
    obtain ⟨l, hl, rfl⟩ := xsort_eq_ok.1 hout
    exact ⟨hl.topologicalOrder, fun _ h => hl.least h⟩
  refine ⟨hok s, hleast s, fun t hperm => ?_⟩
  have hsame : t.Acyclic ↔ s.Acyclic := by
    have hrel : t.DirectPredecessor = s.DirectPredecessor :=
      funext fun p => funext fun x => propext (directPredecessor_of_perm hperm)
    unfold Acyclic
    rw [hrel]
  cases hs : xsort s.blocks with
  | ok out =>
      obtain ⟨out', hout'⟩ := (hok t).2 (hsame.2 ((hok s).1 ⟨out, hs⟩))
      obtain ⟨htop, hmin⟩ := hleast s out hs
      obtain ⟨htop', hmin'⟩ := hleast t out' hout'
      rw [hout', le_antisymm (hmin' out (topologicalOrder_of_perm hperm htop))
        (hmin out' (topologicalOrder_of_perm hperm.symm htop'))]
  | error e =>
      cases ht : xsort t.blocks with
      | ok out =>
          obtain ⟨out', hout'⟩ := (hok s).2 (hsame.1 ((hok t).1 ⟨out, ht⟩))
          rw [hs] at hout'
          exact absurd hout' (by simp)
      | error e' =>
          cases e
          cases e'
          rfl

open Blocklace (sampleBlock sampleId) in
/-- Of the two blocks that refer to the first, the smaller comes next. -/
example : xsort [sampleBlock (sampleId 3 2) [sampleId 7 1],
    sampleBlock (sampleId 7 1) [], sampleBlock (sampleId 2 3) [sampleId 7 1]] =
    .ok [sampleId 7 1, sampleId 2 3, sampleId 3 2] := by decide +kernel

end BlockSet

end CordialMiners
