/-
# Cached against uncached ordering

`tau_with_cache` against `tau`, over every run of cached calls, inserts and
prunes of any number of blocklaces.

Invalidation works: every mutation moves the generation forward and no two
blocklaces share a token, so in every reachable state the cache is sound for
every blocklace (`Inv.sound`).  What differs is the walk itself.  The uncached
walk sorts the fresh blocks of a leader, the cached one sorts all approved
blocks and drops those emitted before.  The two agree exactly when no leader of
the chain is *disturbed*: sorting all that it approves never takes a fresh block
while a smaller fresh one waits only for blocks emitted before
(`orderedWithCache_eq_tau_iff`).
-/

import CordialMiners.Ordering.Cache
import CordialMiners.Pruning.Checkpoint

namespace CordialMiners

open FinGraph Relation
open Codec (bind_eq_ok)

/-! ### Runs -/

/-- One successful mutation of a blocklace. -/
inductive Mutates : Blocklace → Blocklace → Prop
  | insert {B B' : Blocklace} {block : Block} {verifier : CryptoVerifier}
      (h : B.insert block verifier = .ok B') : Mutates B B'
  | insertTrusted {B B' : Blocklace} {block : Block} {verifier : CryptoVerifier}
      {missing : List BlockIdentity}
      (h : B.insertWithTrustedBoundary block verifier = .ok (missing, B')) : Mutates B B'
  | prune {B B' : Blocklace} {checkpoint : BlockIdentity} {report : PruneReport}
      (h : B.pruneBelowCheckpoint checkpoint = .ok (report, B')) : Mutates B B'
  | finality {B B' : Blocklace} {wavelength n f : ℕ} {leaderSelection : LeaderSelection}
      {report : PruneReport}
      (h : B.checkpointAfterFinality wavelength n f leaderSelection = .ok (some (report, B'))) :
      Mutates B B'
  | weightedFinality {B B' : Blocklace} {wavelength : ℕ} {bonds : Bonds}
      {leaderSelection : LeaderSelection} {report : PruneReport}
      (h : B.checkpointAfterWeightedFinality wavelength bonds leaderSelection =
        .ok (some (report, B'))) : Mutates B B'

/-- The cache after one cached call on a blocklace. -/
inductive CachedCall (registry : ℕ → LeaderSelection) (B : Blocklace) (cache : OrderingCache) :
    OrderingCache → Prop
  | tau (wavelength n f id : ℕ) :
      CachedCall registry B cache (B.tauWithCache wavelength n f id (registry id) cache).2
  | weightedTau (wavelength : ℕ) (bonds : Bonds) (id : ℕ) :
      CachedCall registry B cache (B.weightedTauWithCache wavelength bonds id (registry id) cache).2
  | suffix (wavelength : ℕ) (bonds : Bonds) (id : ℕ) (anchor : BlockIdentity)
      (verified : List BlockIdentity) :
      CachedCall registry B cache
        (B.weightedTauSuffixWithCache wavelength bonds id (registry id) anchor verified cache).2

/-- Blocklaces, each under its token, and one cache. -/
structure World where
  laces : ℕ → Option Blocklace
  cache : OrderingCache

namespace World

/-- Put a blocklace under its token. -/
def set (world : World) (i : ℕ) (B : Blocklace) : World :=
  { world with laces := Function.update world.laces i (some B) }

/-- One operation; `registry` says which leader function an id names. -/
inductive Step (registry : ℕ → LeaderSelection) : World → World → Prop
  | new {world : World} {i : ℕ} (h : world.laces i = none) :
      Step registry world (world.set i (Blocklace.new i))
  | mutate {world : World} {i : ℕ} {B B' : Blocklace} (h : world.laces i = some B)
      (hm : Mutates B B') : Step registry world (world.set i B')
  | call {world : World} {i : ℕ} {B : Blocklace} {cache : OrderingCache}
      (h : world.laces i = some B) (hc : CachedCall registry B world.cache cache) :
      Step registry world { world with cache := cache }

/-- Any blocklaces under their tokens, and an empty cache. -/
structure Initial (world : World) : Prop where
  cache : world.cache = .empty
  token : ∀ i B, world.laces i = some B → B.cacheIdentity = i

/-- Reached by a run from an initial state. -/
def Reachable (registry : ℕ → LeaderSelection) (world : World) : Prop :=
  ∃ start, Initial start ∧ ReflTransGen (Step registry) start world

/-- What holds in every reachable state. -/
structure Inv (registry : ℕ → LeaderSelection) (world : World) : Prop where
  token : ∀ i B, world.laces i = some B → B.cacheIdentity = i
  sound : ∀ i B, world.laces i = some B → world.cache.Sound registry B
  bound : ∀ i, world.cache.cacheBlocklaceIdentity = some i →
    ∃ B, world.laces i = some B ∧ world.cache.cacheGeneration.1 ≤ B.generation

end World

open Blocklace

/-- A prune changes nothing or moves the generation forward. -/
theorem pruneWithPrefix_generation {B B' : Blocklace} {c : BlockIdentity} {report : PruneReport}
    {orderPrefix weightedOrderPrefix : List BlockIdentity}
    (h : B.pruneBelowCheckpointWithPrefix c orderPrefix weightedOrderPrefix = .ok (report, B')) :
    B' = B ∨ (B.generation < B'.generation ∧ B'.cacheIdentity = B.cacheIdentity) := by
  rcases pruneBelowCheckpointWithPrefix_ok h with ⟨-, rfl⟩ | ⟨hp, -⟩
  · exact Or.inl rfl
  · exact Or.inr ⟨hp.generation, hp.cacheIdentity⟩

/-- **Every mutation changes nothing or moves the generation forward.** -/
theorem Mutates.generation {B B' : Blocklace} (h : Mutates B B') :
    B' = B ∨ (B.generation < B'.generation ∧ B'.cacheIdentity = B.cacheIdentity) := by
  cases h with
  | insert h =>
      have hins := insert_ok h
      refine Or.inr ⟨?_, hins.cacheIdentity⟩
      rw [hins.generation]
      exact Nat.lt_succ_self _
  | insertTrusted h =>
      obtain ⟨-, B₁, hcommit, rfl⟩ := insertWithTrustedBoundary_ok h
      obtain ⟨-, hv, rfl⟩ := commitValidated_ok hcommit
      exact Or.inr ⟨Nat.lt_succ_self _, rfl⟩
  | prune h => exact pruneWithPrefix_generation h
  | finality h =>
      obtain ⟨L, orderPrefix, -, -, -, -, hp⟩ := Ladder.advanceCheckpoint_ok h
      exact pruneWithPrefix_generation hp
  | weightedFinality h =>
      obtain ⟨L, orderPrefix, -, -, -, -, hp⟩ := Ladder.advanceCheckpoint_ok h
      exact pruneWithPrefix_generation hp

namespace Blocklace

/-- `B'` is `B`, or `B` moved forward. -/
def Later (B B' : Blocklace) : Prop :=
  B' = B ∨ (B.generation < B'.generation ∧ B'.cacheIdentity = B.cacheIdentity)

variable {B B' B'' : Blocklace}

theorem Later.refl (B : Blocklace) : B.Later B := Or.inl rfl

theorem Later.trans (h : B.Later B') (h' : B'.Later B'') : B.Later B'' := by
  rcases h with rfl | ⟨hgen, hident⟩
  · exact h'
  · rcases h' with rfl | ⟨hgen', hident'⟩
    · exact Or.inr ⟨hgen, hident⟩
    · exact Or.inr ⟨hgen.trans hgen', hident'.trans hident⟩

theorem Later.eq_of_generation (h : B.Later B') (hgen : B'.generation = B.generation) : B' = B := by
  rcases h with rfl | ⟨hlt, -⟩
  · rfl
  · omega

theorem Inserted.later {block : Block} (h : B.Inserted block B') : B.Later B' := by
  refine Or.inr ⟨?_, h.cacheIdentity⟩
  rw [h.generation]
  exact Nat.lt_succ_self _

end Blocklace

namespace OrderingCache

/-- The cache is sound for the blocklace and was not filled after it. -/
structure Follows (registry : ℕ → LeaderSelection) (B : Blocklace) (cache : OrderingCache) :
    Prop where
  sound : cache.Sound registry B
  bound : cache.cacheBlocklaceIdentity = some B.cacheIdentity →
    cache.cacheGeneration.1 ≤ B.generation

variable {registry : ℕ → LeaderSelection} {B B' : Blocklace} {cache : OrderingCache}

theorem follows_empty (registry : ℕ → LeaderSelection) (B : Blocklace) :
    OrderingCache.empty.Follows registry B where
  sound hid := by cases hid
  bound hid := by cases hid

theorem Current.follows (h : cache.Current registry B) : cache.Follows registry B :=
  ⟨h.sound, fun _ => by rw [h.generation]⟩

/-- **A cache keeps following a blocklace that moves forward.** -/
theorem Follows.later (h : cache.Follows registry B) (hlater : B.Later B') :
    cache.Follows registry B' := by
  rcases hlater with rfl | ⟨hgen, hident⟩
  · exact h
  · refine ⟨fun hid hgeneration => ?_, fun hid => ?_⟩
    · have hbound := h.bound (hident ▸ hid)
      rw [hgeneration] at hbound
      exact absurd hbound hgen.not_ge
    · exact (h.bound (hident ▸ hid)).trans hgen.le

end OrderingCache

/-- A cached call leaves a current cache. -/
theorem CachedCall.current {registry : ℕ → LeaderSelection} {B : Blocklace}
    {cache cache' : OrderingCache} (h : CachedCall registry B cache cache')
    (hs : cache.Sound registry B) : cache'.Current registry B := by
  cases h with
  | tau wavelength n f id =>
      exact (orderedWithCache_spec ⟨wavelength, .count n f, id, registry id⟩
        (countLadder_decides n f) rfl hs).2
  | weightedTau wavelength bonds id =>
      exact (orderedWithCache_spec ⟨wavelength, .stake (.fromBonds bonds), id, registry id⟩
        (stakeLadder_decides bonds) rfl hs).2
  | suffix => exact weightedTauSuffixWithCache_current hs

namespace World

/-- Every blocklace is under its token, `P` holds of it and of the cache where the cache
matches it, and the cache was filled for no later generation. -/
structure Keeps (P : Blocklace → OrderingCache → Prop) (world : World) : Prop where
  token : ∀ i B, world.laces i = some B → B.cacheIdentity = i
  holds : ∀ i B, world.laces i = some B →
    world.cache.cacheBlocklaceIdentity = some B.cacheIdentity →
    world.cache.cacheGeneration = (B.generation, B.dom.length) → P B world.cache
  bound : ∀ i, world.cache.cacheBlocklaceIdentity = some i →
    ∃ B, world.laces i = some B ∧ world.cache.cacheGeneration.1 ≤ B.generation

variable {registry : ℕ → LeaderSelection} {world world' : World}
  {P : Blocklace → OrderingCache → Prop} {i : ℕ} {B B' : Blocklace} {cache : OrderingCache}

theorem Initial.keeps (h : world.Initial) : world.Keeps P := by
  refine ⟨h.token, fun i B _ hid => ?_, fun i hid => ?_⟩
  · rw [h.cache] at hid
    exact absurd hid (by simp [OrderingCache.empty])
  · rw [h.cache] at hid
    exact absurd hid (by simp [OrderingCache.empty])

/-- Putting a blocklace that the cache does not match. -/
private theorem Keeps.set_of_stale (h : world.Keeps P) (htoken : B'.cacheIdentity = i)
    (hstale : world.cache.cacheBlocklaceIdentity = some i →
      world.cache.cacheGeneration.1 < B'.generation) : (world.set i B').Keeps P := by
  refine ⟨fun j B hB => ?_, fun j B hB => ?_, fun j hj => ?_⟩
  · by_cases hji : j = i
    · subst hji
      simp only [set, Function.update_self, Option.some.injEq] at hB
      exact hB ▸ htoken
    · simp only [set, Function.update_of_ne hji] at hB
      exact h.token j B hB
  · by_cases hji : j = i
    · subst hji
      simp only [set, Function.update_self, Option.some.injEq] at hB
      subst hB
      intro hid hgen
      have := hstale (by rw [← htoken]; exact hid)
      rw [show world.cache.cacheGeneration = _ from hgen] at this
      exact absurd this (lt_irrefl _)
    · simp only [set, Function.update_of_ne hji] at hB
      exact h.holds j B hB
  · by_cases hji : j = i
    · subst hji
      exact ⟨B', by simp [set], (hstale hj).le⟩
    · obtain ⟨B, hB, hle⟩ := h.bound j hj
      exact ⟨B, by simp [set, Function.update_of_ne hji, hB], hle⟩

/-- A new blocklace. -/
theorem Keeps.new (h : world.Keeps P) (hnone : world.laces i = none) :
    (world.set i (Blocklace.new i)).Keeps P := by
  refine h.set_of_stale rfl fun hid => ?_
  obtain ⟨B, hB, -⟩ := h.bound i hid
  rw [hnone] at hB
  exact absurd hB (by simp)

/-- A mutation of a blocklace. -/
theorem Keeps.mutate (h : world.Keeps P) (hB : world.laces i = some B) (hm : Mutates B B') :
    (world.set i B').Keeps P := by
  rcases hm.generation with rfl | ⟨hgen, hident⟩
  · rwa [show world.set i B' = world from by
      unfold set
      rw [← hB, Function.update_eq_self]]
  · refine h.set_of_stale (hident.trans (h.token i B hB)) fun hid => ?_
    obtain ⟨B₁, hB₁, hle⟩ := h.bound i hid
    rw [hB] at hB₁
    obtain rfl := Option.some.inj hB₁
    omega

/-- A call that fills the cache for a blocklace. -/
theorem Keeps.call (h : world.Keeps P) (hB : world.laces i = some B) (hP : P B cache)
    (hident : cache.cacheBlocklaceIdentity = some B.cacheIdentity)
    (hgen : cache.cacheGeneration = (B.generation, B.dom.length)) :
    ({ world with cache := cache } : World).Keeps P := by
  have htoken := h.token i B hB
  refine ⟨h.token, fun j B' hB' hid _ => ?_, fun j hj => ?_⟩
  · -- the cache now belongs to `B` alone
    have hji : j = i := by
      rw [← h.token j B' hB', ← htoken]
      exact Option.some.inj (hid.symm.trans hident)
    subst hji
    rw [hB] at hB'
    obtain rfl := Option.some.inj hB'
    exact hP
  · obtain rfl : i = j := by
      rw [← htoken]
      exact Option.some.inj (hident.symm.trans hj)
    exact ⟨B, hB, by rw [show cache.cacheGeneration = _ from hgen]⟩

theorem inv_iff_keeps :
    world.Inv registry ↔ world.Keeps fun B cache => cache.Current registry B :=
  ⟨fun h => ⟨h.token, h.sound, h.bound⟩, fun h => ⟨h.token, h.holds, h.bound⟩⟩

theorem Initial.inv (h : world.Initial) : world.Inv registry := inv_iff_keeps.2 h.keeps

/-- **Every operation keeps the cache sound for every blocklace.** -/
theorem Inv.step (h : world.Inv registry) (hstep : Step registry world world') :
    world'.Inv registry := by
  have hkeeps := inv_iff_keeps.1 h
  refine inv_iff_keeps.2 ?_
  cases hstep with
  | new hnone => exact hkeeps.new hnone
  | mutate hB hm => exact hkeeps.mutate hB hm
  | call hB hc =>
      have hcur := hc.current (h.sound _ _ hB)
      exact hkeeps.call hB hcur hcur.identity hcur.generation

/-- **In every reachable state the cache is sound for every blocklace.** -/
theorem Reachable.inv (h : Reachable registry world) : world.Inv registry := by
  obtain ⟨start, hinit, hrun⟩ := h
  induction hrun with
  | refl => exact hinit.inv
  | tail _ hstep ih => exact ih.step hstep

end World

/-! ### Two ways to emit a chain -/

namespace Blocklace

variable {B : Blocklace} {L x : BlockIdentity} {D S T : Set BlockIdentity}
  {ordered out leaders : List BlockIdentity}

/-- Sorting the set takes every block of it. -/
def Sortable (B : Blocklace) (S : Set BlockIdentity) : Prop :=
  ∃ l, B.Sorted S l ∧ ∀ x ∈ S, x ∈ l

/-- Sorting all that `L` approves takes every block of it, and never takes a
block outside `D` while a smaller one outside `D` waits only for members of `D`. -/
def UndisturbedBy (B : Blocklace) (L : BlockIdentity) (D : Set BlockIdentity) : Prop :=
  ∃ l, B.Sorted (B.approvedSet L) l ∧ (∀ x ∈ B.approvedSet L, x ∈ l) ∧
    Undisturbed (B.approvedSet L) D (fun p x => B.Refers x p) BlockIdentity.consensusIdentity ∅ l

/-- Along the leaders, after the blocks of `D`, the fresh blocks of some leader
cannot be sorted. -/
def ChainFails (B : Blocklace) : Set BlockIdentity → List BlockIdentity → Prop
  | _, [] => False
  | D, L :: leaders => ¬ B.Sortable (B.approvedSet L \ D) ∨ B.ChainFails (D ∪ B.approvedSet L) leaders

/-- Along the leaders, after the blocks of `D`, no leader is disturbed by the
blocks emitted before it. -/
def ChainUndisturbed (B : Blocklace) : Set BlockIdentity → List BlockIdentity → Prop
  | _, [] => True
  | D, L :: leaders => B.UndisturbedBy L D ∧ B.ChainUndisturbed (D ∪ B.approvedSet L) leaders

/-- The output holds the stored blocks of `D`. -/
def Emits (B : Blocklace) (D : Set BlockIdentity) (ordered : List BlockIdentity) : Prop :=
  ∀ x ∈ B.blocks, x ∈ emitted ordered ↔ x ∈ D

theorem Emits.freshSet_eq (h : B.Emits D ordered) (L : BlockIdentity) :
    B.freshSet L ordered = B.approvedSet L \ D := by
  ext x
  constructor
  · rintro ⟨hx, hn⟩
    exact ⟨hx, fun hD => hn ((h x hx.1).2 hD)⟩
  · rintro ⟨hx, hn⟩
    exact ⟨hx, fun hD => hn ((h x hx.1).1 hD)⟩

private theorem emitted_append_map {l : List BlockIdentity} (hl : ∀ y ∈ l, y ∈ B.blocks)
    (hx : x ∈ B.blocks) :
    x ∈ emitted (ordered ++ l.map BlockIdentity.consensusIdentity) ↔
      x ∈ emitted ordered ∨ x ∈ l := by
  unfold emitted
  rw [Set.mem_ofPred_eq, Set.mem_ofPred_eq, List.mem_append, List.mem_map]
  refine or_congr_right ⟨?_, fun h => ⟨x, h, rfl⟩⟩
  rintro ⟨y, hy, heq⟩
  rwa [← eq_of_consensusIdentity_eq (hl y hy) hx heq]

theorem Emits.emitFragment (h : B.Emits D ordered) (hout : B.emitFragment ordered L = .ok out) :
    B.Emits (D ∪ B.approvedSet L) out := by
  obtain ⟨l, hl, hall, rfl⟩ := emitFragment_eq_ok.1 hout
  intro x hx
  rw [emitted_append_map (fun y hy => freshSet_mem (hl.mem hy)) hx, h x hx]
  constructor
  · rintro (hD | hxl)
    · exact Or.inl hD
    · exact Or.inr (hl.mem hxl).1
  · rintro (hD | happ)
    · exact Or.inl hD
    · by_cases hxD : x ∈ emitted ordered
      · exact Or.inl ((h x hx).1 hxD)
      · exact Or.inr (hall x ⟨happ, hxD⟩)

theorem Emits.emitSortedFragment (h : B.Emits D ordered)
    (hout : B.emitSortedFragment ordered L = .ok out) : B.Emits (D ∪ B.approvedSet L) out := by
  obtain ⟨l, hl, hall, rfl⟩ := emitSortedFragment_eq_ok.1 hout
  intro x hx
  rw [emitted_append_map (fun y hy => (hl.mem (List.mem_filter.1 hy).1).1) hx, h x hx,
    List.mem_filter, decide_eq_true_eq]
  constructor
  · rintro (hD | ⟨hxl, -⟩)
    · exact Or.inl hD
    · exact Or.inr (hl.mem hxl)
  · rintro (hD | happ)
    · exact Or.inl hD
    · by_cases hxD : x ∈ emitted ordered
      · exact Or.inl ((h x hx).1 hxD)
      · exact Or.inr ⟨hall x happ, hxD⟩

/-- The fresh part of a sortable set of approved blocks is sortable. -/
theorem Sortable.fresh (h : B.Sortable (B.approvedSet L)) (ordered : List BlockIdentity) :
    B.Sortable (B.freshSet L ordered) := by
  obtain ⟨l, hl, hall⟩ := h
  obtain ⟨l', hl'⟩ := B.exists_sorted L ordered
  exact ⟨l', hl', fun x hx => Greedy.covers_subset hl hall Set.sdiff_subset hl' hx⟩

theorem exists_emitFragment_iff :
    (∃ out, B.emitFragment ordered L = .ok out) ↔ B.Sortable (B.freshSet L ordered) := by
  constructor
  · rintro ⟨out, hout⟩
    obtain ⟨l, hl, hall, -⟩ := emitFragment_eq_ok.1 hout
    exact ⟨l, hl, hall⟩
  · rintro ⟨l, hl, hall⟩
    exact ⟨_, emitFragment_eq_ok.2 ⟨l, hl, hall, rfl⟩⟩

theorem exists_emitSortedFragment_iff :
    (∃ out, B.emitSortedFragment ordered L = .ok out) ↔ B.Sortable (B.approvedSet L) := by
  constructor
  · rintro ⟨out, hout⟩
    obtain ⟨l, hl, hall, -⟩ := emitSortedFragment_eq_ok.1 hout
    exact ⟨l, hl, hall⟩
  · rintro ⟨l, hl, hall⟩
    exact ⟨_, emitSortedFragment_eq_ok.2 ⟨l, hl, hall, rfl⟩⟩

/-- The uncached walk fails exactly when some fresh part cannot be sorted. -/
theorem foldlM_emitFragment_ok_iff (h : B.Emits D ordered) :
    (∃ out, leaders.foldlM B.emitFragment ordered = .ok out) ↔ ¬ B.ChainFails D leaders := by
  induction leaders generalizing D ordered with
  | nil => simp [ChainFails, pure, Except.pure]
  | cons L leaders ih =>
      rw [ChainFails, ← h.freshSet_eq L, ← exists_emitFragment_iff, not_or, not_not,
        List.foldlM_cons]
      constructor
      · rintro ⟨out, hout⟩
        obtain ⟨next, hnext, hout⟩ := bind_eq_ok.1 hout
        exact ⟨⟨next, hnext⟩, (ih (h.emitFragment hnext)).1 ⟨out, hout⟩⟩
      · rintro ⟨⟨next, hnext⟩, hrest⟩
        obtain ⟨out, hout⟩ := (ih (h.emitFragment hnext)).2 hrest
        exact ⟨out, bind_eq_ok.2 ⟨next, hnext, hout⟩⟩

/-- Where the uncached walk fails, the cached one fails. -/
theorem not_chainFails_of_sorted (h : B.Emits D ordered)
    (hout : leaders.foldlM B.emitSortedFragment ordered = .ok out) :
    ¬ B.ChainFails D leaders := by
  induction leaders generalizing D ordered with
  | nil => simp [ChainFails]
  | cons L leaders ih =>
      rw [List.foldlM_cons] at hout
      obtain ⟨next, hnext, hout⟩ := bind_eq_ok.1 hout
      rw [ChainFails, ← h.freshSet_eq L, not_or, not_not]
      exact ⟨(exists_emitSortedFragment_iff.1 ⟨next, hnext⟩).fresh ordered,
        ih (h.emitSortedFragment hnext) hout⟩

private theorem eq_of_map_consensusIdentity_eq {l l' : List BlockIdentity}
    (hl : ∀ x ∈ l, x ∈ B.blocks) (hl' : ∀ x ∈ l', x ∈ B.blocks)
    (h : l.map BlockIdentity.consensusIdentity = l'.map BlockIdentity.consensusIdentity) :
    l = l' := by
  induction l generalizing l' with
  | nil => exact (List.map_eq_nil_iff.1 h.symm).symm
  | cons x l ih =>
      cases l' with
      | nil => simp at h
      | cons x' l' =>
          rw [List.map_cons, List.map_cons, List.cons.injEq] at h
          rw [eq_of_consensusIdentity_eq (hl x List.mem_cons_self) (hl' x' List.mem_cons_self) h.1,
            ih (fun y hy => hl y (List.mem_cons_of_mem _ hy))
              (fun y hy => hl' y (List.mem_cons_of_mem _ hy)) h.2]

/-- **One leader: the two ways agree exactly when it is undisturbed.** -/
theorem emitSortedFragment_eq_iff (h : B.Emits D ordered)
    (hout : B.emitFragment ordered L = .ok out) :
    B.emitSortedFragment ordered L = .ok out ↔ B.UndisturbedBy L D := by
  obtain ⟨fresh, hfresh, hcover, rfl⟩ := emitFragment_eq_ok.1 hout
  have hdiff : B.approvedSet L \ emitted ordered = B.approvedSet L \ D := h.freshSet_eq L
  constructor
  · intro hsorted
    obtain ⟨l, hl, hall, heq⟩ := emitSortedFragment_eq_ok.1 hsorted
    have hlist : fresh = l.filter (· ∉ emitted ordered) :=
      eq_of_map_consensusIdentity_eq (fun x hx => freshSet_mem (hfresh.mem hx))
        (fun x hx => (hl.mem (List.mem_filter.1 hx).1).1) (List.append_cancel_left heq)
    refine ⟨l, hl, hall, Undisturbed.congr hdiff (fun y hy => hl.mem hy) ?_⟩
    exact (Greedy.filter_iff hl).1 (hlist ▸ hfresh)
  · rintro ⟨l, hl, hall, hun⟩
    refine emitSortedFragment_eq_ok.2 ⟨l, hl, hall, ?_⟩
    have hfilter : B.Sorted (B.freshSet L ordered) (l.filter (· ∉ emitted ordered)) :=
      (Greedy.filter_iff hl).2 (hun.congr hdiff.symm fun y hy => hl.mem hy)
    rw [hfresh.unique (fun x hx => freshSet_mem hx) hfilter]

/-- Both ways append equally many identities. -/
private theorem length_eq_of_emit {out' : List BlockIdentity}
    (hout : B.emitFragment ordered L = .ok out)
    (hout' : B.emitSortedFragment ordered L = .ok out') : out.length = out'.length := by
  obtain ⟨fresh, hfresh, hcover, rfl⟩ := emitFragment_eq_ok.1 hout
  obtain ⟨l, hl, hall, rfl⟩ := emitSortedFragment_eq_ok.1 hout'
  have hperm : fresh.Perm (l.filter (· ∉ emitted ordered)) := by
    refine (List.perm_ext_iff_of_nodup (Greedy.nodup hfresh) ((Greedy.nodup hl).filter _)).2
      fun x => ?_
    rw [List.mem_filter, decide_eq_true_eq]
    constructor
    · intro hx
      exact ⟨hall x (hfresh.mem hx).1, (hfresh.mem hx).2⟩
    · rintro ⟨hx, hn⟩
      exact hcover x ⟨hl.mem hx, hn⟩
  rw [List.length_append, List.length_append, List.length_map, List.length_map, hperm.length_eq]

/-- Emitting sorted fragments only appends. -/
theorem prefix_foldlM_emitSortedFragment
    (h : leaders.foldlM B.emitSortedFragment ordered = .ok out) : ordered <+: out := by
  induction leaders generalizing ordered with
  | nil =>
      obtain rfl := Except.ok.inj h
      exact List.prefix_rfl
  | cons L leaders ih =>
      rw [List.foldlM_cons] at h
      obtain ⟨next, hnext, h⟩ := bind_eq_ok.1 h
      obtain ⟨l, -, -, rfl⟩ := emitSortedFragment_eq_ok.1 hnext
      exact (List.prefix_append _ _).trans (ih h)

/-- **A chain: the two ways agree on a successful output exactly when no leader is
disturbed.** -/
theorem foldlM_emitSortedFragment_eq_iff (h : B.Emits D ordered)
    (hout : leaders.foldlM B.emitFragment ordered = .ok out) :
    leaders.foldlM B.emitSortedFragment ordered = .ok out ↔ B.ChainUndisturbed D leaders := by
  induction leaders generalizing D ordered with
  | nil =>
      obtain rfl := Except.ok.inj hout
      exact ⟨fun _ => trivial, fun _ => rfl⟩
  | cons L leaders ih =>
      rw [List.foldlM_cons] at hout ⊢
      obtain ⟨next, hnext, hout⟩ := bind_eq_ok.1 hout
      rw [ChainUndisturbed, ← emitSortedFragment_eq_iff h hnext, bind_eq_ok]
      constructor
      · rintro ⟨next', hnext', hout'⟩
        -- two prefixes of one list, equally long
        have hpre : next = next' := by
          refine (List.prefix_of_prefix_length_le (prefix_foldlM_emitFragment hout)
            (prefix_foldlM_emitSortedFragment hout') ?_).eq_of_length ?_
          · exact (length_eq_of_emit hnext hnext').le
          · exact length_eq_of_emit hnext hnext'
        subst hpre
        exact ⟨hnext', (ih (h.emitFragment hnext) hout).1 hout'⟩
      · rintro ⟨hstep, hrest⟩
        exact ⟨next, hstep, (ih (h.emitFragment hnext) hout).2 hrest⟩

/-- **A chain: when the two ways agree.** -/
theorem foldlM_emitSortedFragment_eq_foldlM_iff (h : B.Emits D ordered) :
    leaders.foldlM B.emitSortedFragment ordered = leaders.foldlM B.emitFragment ordered ↔
      B.ChainFails D leaders ∨ B.ChainUndisturbed D leaders := by
  by_cases hfail : B.ChainFails D leaders
  · refine iff_of_true (except_ext fun out => ?_) (Or.inl hfail)
    refine iff_of_false (fun hout => not_chainFails_of_sorted h hout hfail) fun hout => ?_
    exact (foldlM_emitFragment_ok_iff h).1 ⟨out, hout⟩ hfail
  · obtain ⟨out, hout⟩ := (foldlM_emitFragment_ok_iff h).2 hfail
    rw [hout, foldlM_emitSortedFragment_eq_iff h hout]
    exact (or_iff_right hfail).symm

end Blocklace

/-! ### Cached against uncached output -/

/-- Along the chain of the latest leader the cached and the uncached walk emit the
same: either both fail, or no leader is disturbed by what was emitted before. -/
def Ladder.ChainAgrees (ladder : Ladder) (B : Blocklace) (w : ℕ) (ls : LeaderSelection) : Prop :=
  ∀ L base leaders, ladder.latest B w ls = some L → ladder.Chain B w ls L base leaders →
    B.ChainFails (emitted base) leaders ∨ B.ChainUndisturbed (emitted base) leaders

/-- **With a sound cache, the cached output is the uncached one exactly when the
chain agrees.** -/
theorem orderedWithCache_eq_tau_iff {registry : ℕ → LeaderSelection} {B : Blocklace}
    {cache : OrderingCache} (config : TauConfig) {Q : Quorum.Rule NodeId}
    (hQ : config.votes.ladder.Decides Q)
    (hls : config.leaderSelection = registry config.leaderSelectionId)
    (h : cache.Sound registry B) :
    (B.orderedWithCache config cache).1 =
        config.votes.ladder.tau B config.wavelength config.leaderSelection ↔
      config.votes.ladder.ChainAgrees B config.wavelength config.leaderSelection := by
  obtain ⟨hres, -⟩ := orderedWithCache_spec config hQ hls h
  unfold Ladder.ChainAgrees Ladder.tau
  cases hL : config.votes.ladder.latest B config.wavelength config.leaderSelection with
  | none =>
      rw [hL] at hres
      exact iff_of_true hres (by simp)
  | some L =>
      rw [hL] at hres
      obtain ⟨wave, hscan, -⟩ := (Ladder.latest_iff hQ).1 hL
      obtain ⟨base, leaders, hc, hout⟩ := hres
      simp only
      rw [hout, Ladder.tauAtLeader_eq hQ hscan.round hc,
        foldlM_emitSortedFragment_eq_foldlM_iff (D := emitted base) fun x _ => Iff.rfl]
      constructor
      · rintro hagree L' base' leaders' hL' hc'
        obtain rfl := Option.some.inj hL'
        obtain ⟨rfl, rfl⟩ := hc.unique hc'
        exact hagree
      · exact fun hagree => hagree L base leaders rfl hc

namespace World

/-- One blocklace and an empty cache. -/
def ofBlocklace (B : Blocklace) : World where
  laces := fun i => if i = B.cacheIdentity then some B else none
  cache := .empty

theorem ofBlocklace_reachable (registry : ℕ → LeaderSelection) (B : Blocklace) :
    Reachable registry (ofBlocklace B) := by
  refine ⟨ofBlocklace B, ⟨rfl, fun i B' hB' => ?_⟩, ReflTransGen.refl⟩
  simp only [ofBlocklace] at hB'
  split_ifs at hB' with hi
  rw [← Option.some.inj hB', hi]

theorem ofBlocklace_laces (B : Blocklace) {i : ℕ} (hi : i = B.cacheIdentity) :
    (ofBlocklace B).laces i = some B := if_pos hi

/-- **In every reachable state the cached output is the uncached one exactly when
the chain agrees**, counting creators and weighing stake. -/
theorem withCache_eq_tau_iff {registry : ℕ → LeaderSelection} {world : World}
    (h : Reachable registry world) {i : ℕ} {B : Blocklace} (hB : world.laces i = some B)
    (wavelength n f id : ℕ) (bonds : Bonds) :
    ((B.tauWithCache wavelength n f id (registry id) world.cache).1 =
        B.tau wavelength n f (registry id) ↔
      (countLadder n f).ChainAgrees B wavelength (registry id)) ∧
    ((B.weightedTauWithCache wavelength bonds id (registry id) world.cache).1 =
        B.weightedTau wavelength bonds (registry id) ↔
      (stakeLadder (.fromBonds bonds)).ChainAgrees B wavelength (registry id)) := by
  have hsound := h.inv.sound i B hB
  constructor
  · exact orderedWithCache_eq_tau_iff ⟨wavelength, .count n f, id, registry id⟩
      (countLadder_decides n f) rfl hsound
  · exact orderedWithCache_eq_tau_iff ⟨wavelength, .stake (.fromBonds bonds), id, registry id⟩
      (stakeLadder_decides bonds) rfl hsound

/-- The chain of `thinWave` agrees, because the two outputs do. -/
theorem withCache_eq_tau_iff_thinWave :
    (thinWave.tauWithCache 3 3 0 0 twoWaveLeader (ofBlocklace thinWave).cache).1 =
        thinWave.tau 3 3 0 twoWaveLeader ∧
      (countLadder 3 0).ChainAgrees thinWave 3 twoWaveLeader := by
  have hout : (thinWave.tauWithCache 3 3 0 0 twoWaveLeader (ofBlocklace thinWave).cache).1 =
      thinWave.tau 3 3 0 twoWaveLeader := by decide +kernel
  exact ⟨hout, (withCache_eq_tau_iff (ofBlocklace_reachable (fun _ => twoWaveLeader) thinWave)
    (ofBlocklace_laces thinWave rfl) 3 3 0 0 ⟨∅, by decide⟩).1.1 hout⟩

/-- The leader of wave `0` has the largest hash; the block on top of it has the
smallest one and is seen from the leader of wave `2` together with an unrelated
block. -/
def disturbedWave : Blocklace :=
  (Blocklace.new 0).growBy
    [sampleBlock (sampleId 10 1) [], sampleBlock (sampleId 5 3) [],
      sampleBlock (sampleId 1 2) [sampleId 10 1],
      sampleBlock (sampleId 20 1) [sampleId 1 2, sampleId 5 3]]

/-- Creator `1` leads the waves `0` and `2`. -/
def evenLeader : LeaderSelection := fun wave => if wave = 0 ∨ wave = 2 then some ⟨[1]⟩ else none

/-- The cached walk sorts the unrelated block before the block that waits for the
emitted leader; the uncached walk does not wait. -/
theorem withCache_ne_tau_of_disturbed :
    Reachable (fun _ => evenLeader) (ofBlocklace disturbedWave) ∧
      (ofBlocklace disturbedWave).laces 0 = some disturbedWave ∧
      disturbedWave.tau 1 1 0 evenLeader =
        .ok [sampleId 10 1, sampleId 1 2, sampleId 5 3, sampleId 20 1] ∧
      (disturbedWave.tauWithCache 1 1 0 0 evenLeader (ofBlocklace disturbedWave).cache).1 =
        .ok [sampleId 10 1, sampleId 5 3, sampleId 1 2, sampleId 20 1] ∧
      (disturbedWave.tauWithCache 1 1 0 0 evenLeader (ofBlocklace disturbedWave).cache).1 ≠
        disturbedWave.tau 1 1 0 evenLeader :=
  ⟨ofBlocklace_reachable _ _, ofBlocklace_laces _ (by decide +kernel), by decide +kernel,
    by decide +kernel, by decide +kernel⟩

end World

end CordialMiners
