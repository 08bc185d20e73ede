/-
# Two views of what is final

`latest_finalized_block_id` and `ordered_block_identities_with_cache` of `snapshot.rs`.

The host reads the last finalized block from the one and the finalized order from the
other.  Both take the outcome for a single validator from `single_validator_leader` and
otherwise the latest weighted leader, so the leader is the same; the order holds it
once, and is empty without it.

The order is built on top of that, and building it can fail, on a reference of the
checkpoint that leads back to the checkpoint.  The order is then published as if
nothing were final, while the last finalized block is still there
(`finality_views_differ`).  Without such a cycle the views agree (`finality_views`), and
correctly hashed blocks have none (`not_checkpointCycle_of_hashed`).
-/

import CordialMiners.Ordering.Anchor
import CordialMiners.Output.Dispatch
import CordialMiners.Pruning.Closure
import CordialMiners.Validation.Authentic

namespace CordialMiners.Output

open Relation
open Blocklace (PrefixAnchored CheckpointCycle InsertRun sampleId sampleBlock)
open Reputation (leaderOfWave)

/-- `CORDIAL_WAVELENGTH`. -/
def cordialWavelength : ℕ := 3

/-- `latest_finalized_block_id`. -/
def latestFinalizedBlockId (B : Blocklace) (bonds : Bonds) : Option BlockIdentity :=
  let leaders := orderedValidators bonds
  if leaders = [] then none
  else
    match singleValidatorCase B leaders cordialWavelength with
    | .fork => none
    | .found leader => some leader
    | .incomplete =>
        B.latestWeightedFinalLeader cordialWavelength bonds (leaderOfWave leaders)

/-- `ordered_block_identities_with_cache`: an order that cannot be built is an empty one. -/
def orderedBlockIdentitiesWithCache (B : Blocklace) (bonds : Bonds) (wavelength : ℕ)
    (cache : OrderingCache) : (List BlockIdentity × Option BlockIdentity) × OrderingCache :=
  let (result, cache) := tryOrderedBlockIdentitiesWithCache B bonds wavelength cache
  (result.toOption.getD ([], none), cache)

variable {B B' : Blocklace} {bonds : Bonds} {w d : ℕ} {L : BlockIdentity} {cache : OrderingCache}
  {leaders : List NodeId}

/-! ### One validator -/

theorem exists_round_of_completeWaveLeader {validator : NodeId} {maxRound : ℕ} {waves : List ℕ}
    (h : completeWaveLeader B.computeAllDepths validator w maxRound waves = some L) :
    ∃ d, B.Round L d := by
  induction waves with
  | nil => exact absurd h (by simp [completeWaveLeader])
  | cons wave waves ih =>
      rw [completeWaveLeader] at h
      obtain ⟨lastRound, -, h⟩ := Option.bind_eq_some_iff.1 h
      split_ifs at h with hlast
      · exact ih h
      · obtain ⟨firstRound, -, h⟩ := Option.bind_eq_some_iff.1 h
        split_ifs at h with hcomplete
        · have hmem := List.mem_of_head? h
          unfold roundBlocks at hmem
          obtain ⟨entry, hentry, rfl⟩ := List.mem_map.1 hmem
          have hlookup := AList.mem_lookup_iff.2 (List.mem_filter.1 hentry).1
          exact ⟨entry.2, Blocklace.lookup_computeAllDepths_iff.1 hlookup⟩
        · exact ih h

/-- The leader of a single validator has a round, and there is no checkpoint. -/
theorem exists_round_of_found (h : singleValidatorCase B leaders w = .found L) :
    B.checkpoint = none ∧ ∃ d, B.Round L d := by
  unfold singleValidatorCase at h
  split at h
  · split_ifs at h with hcp
    refine ⟨hcp, ?_⟩
    unfold singleValidatorLeader at h
    simp only at h
    split_ifs at h
    split at h
    · next leader hleader =>
      obtain rfl := SingleValidatorLeader.found.inj h
      unfold latestSingleValidatorFinalizedBlockIdFromDepths at hleader
      split_ifs at hleader
      obtain ⟨maxRound, -, hleader⟩ := Option.bind_eq_some_iff.1 hleader
      obtain ⟨latestWave, -, hleader⟩ := Option.bind_eq_some_iff.1 hleader
      exact exists_round_of_completeWaveLeader hleader
    · exact absurd h (by simp)
  · exact absurd h (by simp)

/-- The order of what a block observes holds the block. -/
theorem observedOrder_anchored (hcp : B.checkpoint = none) (hL : B.Round L d) :
    ∃ out, observedOrder B L = .ok out ∧ Anchored L out := by
  have hmem : ∀ x ∈ B.observe L, x ∈ B.blocks := fun x hx =>
    ((Blocklace.mem_observe_of_mem hL.mem).1 hx).mem hL.mem
  have hlisted := Blocklace.listed_filterMap_get hmem (B.nodup_observe L)
  have hset := Blocklace.idsOf_filterMap_get hmem
  have hsorted := hlisted.sorted
  have hall : ∀ x ∈ Blocklace.idsOf ((B.observe L).filterMap B.get), x ∈ _ := fun x hx =>
    hsorted.covers_of_no_cycle (fun ⟨c, _, hc, _⟩ => by simp [hcp] at hc) (fun y hy => by
      rw [hset] at hy
      obtain ⟨e, -, he⟩ := hL.of_sees ((Blocklace.mem_observe_of_mem hL.mem).1 hy)
      exact ⟨e, he⟩) hx
  refine ⟨_, hlisted.xsort_eq_ok.2 ⟨_, hsorted, hall, rfl⟩, ⟨?_, ?_⟩, ?_⟩
  · exact hsorted.nodup_map fun x hx => hlisted.mem_blocks hx
  · intro x hx
    obtain ⟨y, -, rfl⟩ := List.mem_map.1 hx
    rfl
  · refine List.mem_map_of_mem (hall L ?_)
    rw [hset]
    exact (Blocklace.mem_observe_of_mem hL.mem).2 (.refl B L)

/-! ### One call -/

/-- **What a call publishes**: nothing where nothing is final, the order with its leader, or
an error that comes of a cycle through the checkpoint. -/
theorem tryOrdered_anchored (bonds : Bonds) (hB : B.PrefixAnchored)
    (hcache : cache.cacheBlocklaceIdentity = some B.cacheIdentity →
      cache.cacheGeneration = (B.generation, B.dom.length) → cache.Anchored B) :
    match latestFinalizedBlockId B bonds with
    | none => (tryOrderedBlockIdentitiesWithCache B bonds cordialWavelength cache).1 = .ok ([], none)
    | some L =>
        (∃ out, (tryOrderedBlockIdentitiesWithCache B bonds cordialWavelength cache).1 =
          .ok (out, some L) ∧ Anchored L out) ∨
        (∃ e, (tryOrderedBlockIdentitiesWithCache B bonds cordialWavelength cache).1 = .error e) ∧
          B.CheckpointCycle := by
  unfold latestFinalizedBlockId tryOrderedBlockIdentitiesWithCache
  dsimp only
  split_ifs with hleaders
  · rfl
  · cases hcase : singleValidatorCase B (orderedValidators bonds) cordialWavelength with
    | fork => rfl
    | found leader =>
        obtain ⟨hcp, d, hL⟩ := exists_round_of_found hcase
        obtain ⟨out, hout, hanchored⟩ := observedOrder_anchored hcp hL
        refine Or.inl ⟨out, ?_, hanchored⟩
        simp only [hout]
        rfl
    | incomplete =>
        obtain ⟨hwalk, -⟩ := Blocklace.orderedWithCache_anchored
          ⟨cordialWavelength, .stake (.fromBonds bonds), 0, leaderOfWave (orderedValidators bonds)⟩
          hB (stakeLadder_decides bonds) hcache
        have hlatest : B.latestWeightedFinalLeader cordialWavelength bonds
            (leaderOfWave (orderedValidators bonds)) = (Votes.stake (.fromBonds bonds)).ladder.latest
              B cordialWavelength (leaderOfWave (orderedValidators bonds)) := rfl
        have hordered : B.weightedTauWithCache cordialWavelength bonds 0
            (leaderOfWave (orderedValidators bonds)) cache = B.orderedWithCache
              ⟨cordialWavelength, .stake (.fromBonds bonds), 0,
                leaderOfWave (orderedValidators bonds)⟩ cache := rfl
        simp only [hlatest, hordered]
        dsimp only at hwalk
        generalize B.orderedWithCache ⟨cordialWavelength, .stake (.fromBonds bonds), 0,
          leaderOfWave (orderedValidators bonds)⟩ cache = walk at hwalk ⊢
        obtain ⟨result, cache'⟩ := walk
        cases hL : (Votes.stake (.fromBonds bonds)).ladder.latest B cordialWavelength
            (leaderOfWave (orderedValidators bonds)) with
        | none =>
            rw [hL] at hwalk
            simp only at hwalk
            rw [hwalk]
            rfl
        | some L =>
            rw [hL] at hwalk
            cases result with
            | ok out => exact Or.inl ⟨out, rfl, hwalk⟩
            | error e => exact Or.inr ⟨⟨e, rfl⟩, hwalk⟩

/-- A call leaves the cache, or one that is in order. -/
theorem tryOrdered_cache_anchored (hB : B.PrefixAnchored)
    (hcache : cache.cacheBlocklaceIdentity = some B.cacheIdentity →
      cache.cacheGeneration = (B.generation, B.dom.length) → cache.Anchored B) :
    (tryOrderedBlockIdentitiesWithCache B bonds w cache).2 = cache ∨
      (tryOrderedBlockIdentitiesWithCache B bonds w cache).2.Anchored B := by
  unfold tryOrderedBlockIdentitiesWithCache
  dsimp only
  split_ifs
  · exact Or.inl rfl
  · cases singleValidatorCase B (orderedValidators bonds) w with
    | fork => exact Or.inl rfl
    | found leader => exact Or.inl rfl
    | incomplete =>
        exact Or.inr (Blocklace.orderedWithCache_anchored
          ⟨w, .stake (.fromBonds bonds), 0, leaderOfWave (orderedValidators bonds)⟩ hB
          (stakeLadder_decides bonds) hcache).2

/-- So does a call with a prefix to extend. -/
theorem verifiedPrefix_cache_anchored {previousPrefix : List BlockIdentity}
    {previousAnchor : BlockIdentity}
    (hcache : cache.cacheBlocklaceIdentity = some B.cacheIdentity →
      cache.cacheGeneration = (B.generation, B.dom.length) → cache.Anchored B) :
    (orderedBlockIdentitiesWithVerifiedPrefix B bonds w previousPrefix previousAnchor cache).2 =
        cache ∨
      (orderedBlockIdentitiesWithVerifiedPrefix B bonds w previousPrefix previousAnchor
        cache).2.Anchored B := by
  have hsync := OrderingCache.anchored_sync hcache
  unfold orderedBlockIdentitiesWithVerifiedPrefix
  dsimp only
  split_ifs
  · exact Or.inl rfl
  · refine Or.inr ?_
    unfold Blocklace.weightedTauSuffixWithCache
    simp only
    split_ifs
    · exact hsync
    · split
      · exact hsync
      · split_ifs
        · exact hsync
        · split
          · exact hsync
          · refine Blocklace.tauSuffixFromLeaderCached_anchored (Q := bonds.rule) ?_ _ _ _ _ hsync
            exact stakeLadder_decides bonds

/-! ### Runs -/

/-- The cache after one call of the adapter. -/
inductive OrderingCall (B : Blocklace) (cache : OrderingCache) : OrderingCache → Prop
  | ordered (bonds : Bonds) (w : ℕ) :
      OrderingCall B cache (tryOrderedBlockIdentitiesWithCache B bonds w cache).2
  | verifiedPrefix (bonds : Bonds) (w : ℕ) (previousPrefix : List BlockIdentity)
      (previousAnchor : BlockIdentity) :
      OrderingCall B cache
        (orderedBlockIdentitiesWithVerifiedPrefix B bonds w previousPrefix previousAnchor cache).2

/-- One operation on some blocklaces and one cache. -/
inductive ViewStep : World → World → Prop
  | new {world : World} {i : ℕ} (h : world.laces i = none) :
      ViewStep world (world.set i (Blocklace.new i))
  | mutate {world : World} {i : ℕ} {B B' : Blocklace} (h : world.laces i = some B)
      (hm : Mutates B B') : ViewStep world (world.set i B')
  | call {world : World} {i : ℕ} {B : Blocklace} {cache : OrderingCache}
      (h : world.laces i = some B) (hc : OrderingCall B world.cache cache) :
      ViewStep world { world with cache := cache }

/-- Reached from nothing by inserts, prunes and calls. -/
def Viewed (world : World) : Prop := ReflTransGen ViewStep ⟨fun _ => none, .empty⟩ world

/-- The order below a stored block holds the block. -/
theorem mem_checkpointOrderPrefixOf {c : BlockIdentity} (hc : c ∈ B.blocks) :
    c.consensusIdentity ∈ (B.checkpointOrderPrefixOf c).map BlockIdentity.consensusIdentity := by
  have hself := (Blocklace.mem_observe_of_mem hc).2 (.refl B c)
  have hmem : ∀ x ∈ B.observe c, x ∈ B.blocks := fun x hx =>
    ((Blocklace.mem_observe_of_mem hc).1 hx).mem hc
  unfold Blocklace.checkpointOrderPrefixOf
  split
  · next ordered hordered =>
    have hlisted := Blocklace.listed_filterMap_get hmem (B.nodup_observe c)
    obtain ⟨l, -, hall, rfl⟩ := hlisted.xsort_eq_ok.1 hordered
    rw [Blocklace.idsOf_filterMap_get hmem] at hall
    rw [List.map_map]
    exact List.mem_map.2 ⟨c, hall c hself, rfl⟩
  · exact List.mem_map_of_mem hself

/-- The output of the latest leader holds the leader. -/
theorem mem_tau_of_latest {ladder : Ladder} {ls : LeaderSelection} {out : List BlockIdentity}
    (hQ : ∃ Q, ladder.Decides Q) (hL : ladder.latest B w ls = some L) (hcp : B.checkpoint ≠ some L)
    (hout : ladder.tau B w ls = .ok out) : L.consensusIdentity ∈ out := by
  obtain ⟨Q, hQ⟩ := hQ
  obtain ⟨wave, hscan, -⟩ := (Ladder.latest_iff hQ).1 hL
  have hpre : ladder.emitCheckpointPrefix B L [] = none := if_pos (Or.inl hcp)
  unfold Ladder.tau at hout
  rw [hL] at hout
  obtain ⟨fuel, hfuel⟩ : ∃ fuel, Ladder.tauFuel B L = fuel + 1 := ⟨_, rfl⟩
  simp only [Ladder.tauAtLeader, hfuel, Ladder.tauFromLeader, hpre] at hout
  obtain ⟨below, hfragment⟩ : ∃ below, B.emitFragment below L = .ok out := by
    cases hprevious : ladder.previous B L w ls with
    | some previous =>
        simp only [hprevious] at hout
        obtain ⟨below, -, hout⟩ := Codec.bind_eq_ok.1 hout
        exact ⟨below, hout⟩
    | none =>
        simp only [hprevious] at hout
        obtain ⟨below, -, hout⟩ := Codec.bind_eq_ok.1 hout
        exact ⟨below, hout⟩
  obtain ⟨l, -, hall, rfl⟩ := Blocklace.emitFragment_eq_ok.1 hfragment
  rw [List.mem_append]
  by_cases hemitted : L ∈ Blocklace.emitted below
  · exact Or.inl hemitted
  · have hself := Blocklace.mem_approvedSet_self hscan.round
    exact Or.inr (List.mem_map_of_mem (hall L ⟨hself, hemitted⟩))

/-- Where the checkpoint advances, the prefix holds the new checkpoint. -/
theorem exists_advanced_prefix {ladder : Ladder} {ls : LeaderSelection} {report : PruneReport}
    {prune : BlockIdentity → List BlockIdentity → Except PruneError (PruneReport × Blocklace)}
    (hQ : ∃ Q, ladder.Decides Q)
    (h : ladder.advanceCheckpoint B w ls prune = .ok (some (report, B'))) :
    ∃ c orderPrefix, prune c orderPrefix = .ok (report, B') ∧
      c.consensusIdentity ∈ orderPrefix.map BlockIdentity.consensusIdentity := by
  obtain ⟨L, orderPrefix, hL, hcp, hok, herror, hprune⟩ := Ladder.advanceCheckpoint_ok h
  refine ⟨L, orderPrefix, hprune, ?_⟩
  cases hout : ladder.tau B w ls with
  | ok out =>
      obtain rfl := hok out hout
      exact List.mem_map.2 ⟨_, mem_tau_of_latest hQ hL hcp hout, rfl⟩
  | error e =>
      obtain rfl := herror e hout
      obtain ⟨Q, hQ⟩ := hQ
      obtain ⟨wave, hscan, -⟩ := (Ladder.latest_iff hQ).1 hL
      exact mem_checkpointOrderPrefixOf hscan.round.mem

/-- A prune that stores prefixes with the block. -/
theorem prefixAnchored_prune {c : BlockIdentity} {orderPrefix weightedOrderPrefix : List BlockIdentity}
    {report : PruneReport} (hB : B.PrefixAnchored)
    (hcount : c ∈ B.blocks → orderPrefix ≠ [] →
      c.consensusIdentity ∈ orderPrefix.map BlockIdentity.consensusIdentity)
    (hstake : weightedOrderPrefix ≠ [] →
      c.consensusIdentity ∈ weightedOrderPrefix.map BlockIdentity.consensusIdentity)
    (h : B.pruneBelowCheckpointWithPrefix c orderPrefix weightedOrderPrefix = .ok (report, B')) :
    B'.PrefixAnchored := by
  obtain ⟨-, rfl⟩ | ⟨hpruned, hpre, hweighted, -⟩ := Blocklace.pruneBelowCheckpointWithPrefix_ok h
  · exact hB
  · refine ⟨fun c' hc' hne => ?_, fun c' hc' hne => ?_⟩
    · obtain rfl := Option.some.inj (hpruned.checkpoint.symm.trans hc')
      rw [hpre] at hne ⊢
      exact hcount hpruned.mem hne
    · obtain rfl := Option.some.inj (hpruned.checkpoint.symm.trans hc')
      rw [hweighted] at hne ⊢
      exact hstake hne

/-- **Every mutation keeps the checkpoint in its stored prefixes.** -/
theorem prefixAnchored_mutates (hB : B.PrefixAnchored) (h : Mutates B B') : B'.PrefixAnchored := by
  have hfields : B'.checkpoint = B.checkpoint → B'.checkpointOrderPrefix = B.checkpointOrderPrefix →
      B'.checkpointWeightedOrderPrefix = B.checkpointWeightedOrderPrefix → B'.PrefixAnchored := by
    intro hcp hpre hweighted
    refine ⟨fun c hc => ?_, fun c hc => ?_⟩
    · rw [hpre]
      exact hB.count c (hcp ▸ hc)
    · rw [hweighted]
      exact hB.stake c (hcp ▸ hc)
  cases h with
  | insert h =>
      have hins := Blocklace.insert_ok h
      exact hfields hins.checkpoint hins.orderPrefix hins.weightedOrderPrefix
  | insertTrusted h =>
      obtain ⟨-, B₁, hcommit, rfl⟩ := Blocklace.insertWithTrustedBoundary_ok h
      obtain ⟨-, hv, rfl⟩ := Blocklace.commitValidated_ok hcommit
      exact hfields rfl rfl rfl
  | prune h =>
      exact prefixAnchored_prune hB (fun hc _ => mem_checkpointOrderPrefixOf hc)
        (fun hne => absurd rfl hne) h
  | finality h =>
      obtain ⟨c, orderPrefix, hprune, hmem⟩ :=
        exists_advanced_prefix ⟨_, countLadder_decides _ _⟩ h
      exact prefixAnchored_prune hB (fun _ _ => hmem) (fun hne => absurd rfl hne) hprune
  | weightedFinality h =>
      obtain ⟨c, orderPrefix, hprune, hmem⟩ :=
        exists_advanced_prefix ⟨_, stakeLadder_decides _⟩ h
      exact prefixAnchored_prune hB (fun _ hne => absurd rfl hne) (fun _ => hmem) hprune

/-! ### The two views -/

/-- The blocklace is under its token, its prefixes hold the checkpoint, and the cache is in
order for it. -/
structure ViewInv (world : World) : Prop where
  keeps : world.Keeps fun B cache => cache.Anchored B
  prefixes : ∀ i B, world.laces i = some B → B.PrefixAnchored

theorem ViewInv.step {world world' : World} (h : ViewInv world) (hstep : ViewStep world world') :
    ViewInv world' := by
  have hset : ∀ i B', B'.PrefixAnchored → ∀ j B, (world.set i B').laces j = some B →
      B.PrefixAnchored := by
    intro i B' hB' j B hB
    by_cases hji : j = i
    · subst hji
      simp only [World.set, Function.update_self, Option.some.injEq] at hB
      exact hB ▸ hB'
    · simp only [World.set, Function.update_of_ne hji] at hB
      exact h.prefixes j B hB
  cases hstep with
  | @new i hnone => exact ⟨h.keeps.new hnone, hset i _ (Blocklace.prefixAnchored_new i)⟩
  | mutate hB hm =>
      exact ⟨h.keeps.mutate hB hm, hset _ _ (prefixAnchored_mutates (h.prefixes _ _ hB) hm)⟩
  | @call i B cache hB hc =>
      have hpre := h.prefixes i B hB
      have hcall : cache = world.cache ∨ cache.Anchored B := by
        cases hc with
        | ordered bonds w => exact tryOrdered_cache_anchored hpre (h.keeps.holds i B hB)
        | verifiedPrefix bonds w previousPrefix previousAnchor =>
            exact verifiedPrefix_cache_anchored (h.keeps.holds i B hB)
      obtain rfl | hcache := hcall
      · exact h
      · exact ⟨h.keeps.call hB hcache hcache.identity hcache.generation, h.prefixes⟩

theorem Viewed.inv {world : World} (h : Viewed world) : ViewInv world := by
  induction h with
  | refl =>
      have hinitial : World.Initial ⟨fun _ => none, .empty⟩ :=
        ⟨rfl, fun _ _ hB => absurd hB (by simp)⟩
      exact ⟨hinitial.keeps, fun _ _ hB => absurd hB (by simp)⟩
  | tail _ hstep ih => exact ih.step hstep

/-- **The two views of what is final.**  The leaders are the same unless the order could not
be built, for a cycle through the checkpoint; the order then is that of nothing.  It holds
its anchor once, and is empty exactly without one. -/
theorem finality_views {world : World} (h : Viewed world) {i : ℕ} {B : Blocklace}
    (hB : world.laces i = some B) (bonds : Bonds) :
    ((orderedBlockIdentitiesWithCache B bonds cordialWavelength world.cache).1.2 =
        latestFinalizedBlockId B bonds ∨
      (orderedBlockIdentitiesWithCache B bonds cordialWavelength world.cache).1 = ([], none) ∧
        B.CheckpointCycle) ∧
    (∀ anchor, (orderedBlockIdentitiesWithCache B bonds cordialWavelength world.cache).1.2 =
        some anchor →
      (orderedBlockIdentitiesWithCache B bonds cordialWavelength world.cache).1.1.countP
        (fun id => id.consensusIdentity = anchor.consensusIdentity) = 1) ∧
    ((orderedBlockIdentitiesWithCache B bonds cordialWavelength world.cache).1.1 = [] ↔
      (orderedBlockIdentitiesWithCache B bonds cordialWavelength world.cache).1.2 = none) := by
  have hinv := h.inv
  have htry := tryOrdered_anchored bonds (hinv.prefixes i B hB) (hinv.keeps.holds i B hB)
  unfold orderedBlockIdentitiesWithCache
  generalize tryOrderedBlockIdentitiesWithCache B bonds cordialWavelength world.cache = called
    at htry ⊢
  obtain ⟨result, cache⟩ := called
  cases hlatest : latestFinalizedBlockId B bonds with
  | none =>
      rw [hlatest] at htry
      obtain rfl : result = .ok ([], none) := htry
      exact ⟨Or.inl rfl, fun anchor hanchor => absurd hanchor (by simp [Except.toOption]),
        iff_of_true rfl rfl⟩
  | some L =>
      rw [hlatest] at htry
      obtain ⟨out, hout, hanchored⟩ | ⟨⟨e, he⟩, hcycle⟩ := htry
      · obtain rfl : result = .ok (out, some L) := hout
        refine ⟨Or.inl rfl, fun anchor hanchor => ?_, iff_of_false ?_ (by simp [Except.toOption])⟩
        · obtain rfl := Option.some.inj hanchor
          exact hanchored.countP_eq_one
        · exact List.ne_nil_of_mem hanchored.mem
      · obtain rfl : result = .error e := he
        exact ⟨Or.inr ⟨rfl, hcycle⟩, fun anchor hanchor =>
          absurd hanchor (by simp [Except.toOption]), iff_of_true rfl rfl⟩

/-- **Correctly hashed blocks have no cycle**, through the checkpoint or elsewhere. -/
theorem not_checkpointCycle_of_hashed {crypto : BlockCrypto}
    (hhash : ∀ b, B.Stores b → b.Hashed crypto)
    (hcycle : crypto.NoHashCycle {b | B.Stores b}) : ¬ B.CheckpointCycle := by
  obtain ⟨rank, hrank⟩ := hcycle
  have hrefers : ∀ {x p : BlockIdentity}, B.Refers x p →
      rank p.contentHash < rank x.contentHash := by
    rintro x p ⟨content, hcontent, q, hq, hqp⟩
    have hstores : B.Stores ⟨x, content⟩ := hcontent
    have hhashed : x.contentHash = crypto.blockHash x.creator content := hhash _ hstores
    have hsame := BlockIdentity.consensusIdentity_eq_iff.1 (Blocklace.resolveIdentity_consensus hqp)
    rw [hhashed, ← hsame.1]
    exact hrank _ hstores q hq
  rintro ⟨c, p, hcp, href, hsees⟩
  have hle : rank c.contentHash ≤ rank p.contentHash := by
    have hp : p ∈ B.blocks := by
      obtain ⟨-, -, q, -, hq⟩ := href
      exact Blocklace.resolveIdentity_mem hq
    clear href hcp
    induction hsees using ReflTransGen.head_induction_on with
    | refl => exact le_rfl
    | @head x y hstep hrest ih =>
        have hx : B.checkpoint ≠ some x := by
          intro hcp
          have hexpand : y ∈ B.expand x := hstep
          rw [Blocklace.expand_checkpoint hcp] at hexpand
          exact absurd hexpand List.not_mem_nil
        have hxy := (Blocklace.refers_iff_mem_expand hx hp).2 hstep
        exact (ih (Blocklace.mem_of_mem_expand hstep)).trans (hrefers hxy).le
  exact absurd (hrefers href) (not_lt.2 hle)

/-! ### A cycle through the checkpoint -/

/-- Mutations of one blocklace are steps, and leave the cache. -/
theorem Viewed.exists_of_mutates {world : World} {i : ℕ} (h : Viewed world)
    (hB : world.laces i = some B) (hrun : ReflTransGen Mutates B B') :
    ∃ world', Viewed world' ∧ world'.laces i = some B' ∧ world'.cache = world.cache := by
  induction hrun with
  | refl => exact ⟨world, h, hB, rfl⟩
  | @tail B₁ B₂ _ hm ih =>
      obtain ⟨world', h', hB', hcache⟩ := ih
      refine ⟨world'.set i B₂, h'.tail (.mutate hB' hm), ?_, hcache⟩
      simp only [World.set, Function.update_self]

theorem mutates_of_insertRun {allowed : Blocklace → Block → Prop} (h : InsertRun allowed B B') :
    ReflTransGen Mutates B B' := by
  induction h with
  | refl => exact .refl
  | insert _ _ h ih => exact ih.tail (.insert h)

/-- Every blocklace that mutations lead to is one the views are asked about. -/
theorem exists_viewed (hrun : ReflTransGen Mutates (Blocklace.new 0) B) :
    ∃ world, Viewed world ∧ world.laces 0 = some B ∧ world.cache = .empty := by
  have hnew : Viewed (World.set ⟨fun _ => none, .empty⟩ 0 (Blocklace.new 0)) :=
    ReflTransGen.single (.new rfl)
  exact hnew.exists_of_mutates (by simp only [World.set, Function.update_self]) hrun

/-- Creator `1` alone is bonded. -/
def loneBond : Bonds := ⟨AList.singleton ⟨[1]⟩ 1, by decide⟩

/-- A first block and one on it. -/
def twoRounds : Blocklace :=
  (Blocklace.new 0).growBy
    [sampleBlock (sampleId 1 1) [], sampleBlock (sampleId 2 1) [sampleId 1 1]]

/-- The wave of the first block is complete. -/
def threeRounds : Blocklace :=
  twoRounds.growBy [sampleBlock (sampleId 3 1) [sampleId 2 1]]

theorem mutates_twoRounds : ReflTransGen Mutates (Blocklace.new 0) twoRounds :=
  mutates_of_insertRun (Blocklace.insertRun_growBy (by decide +kernel))

theorem finality_views_threeRounds :
    ∃ world, Viewed world ∧ world.laces 0 = some threeRounds ∧
      latestFinalizedBlockId threeRounds loneBond = some (sampleId 1 1) ∧
      ((orderedBlockIdentitiesWithCache threeRounds loneBond cordialWavelength world.cache).1.2 =
          latestFinalizedBlockId threeRounds loneBond ∨
        (orderedBlockIdentitiesWithCache threeRounds loneBond cordialWavelength world.cache).1 =
            ([], none) ∧ threeRounds.CheckpointCycle) := by
  have hrun : ReflTransGen Mutates twoRounds threeRounds :=
    mutates_of_insertRun (Blocklace.insertRun_growBy (by decide +kernel))
  obtain ⟨world, hworld, hB, -⟩ := exists_viewed (mutates_twoRounds.trans hrun)
  exact ⟨world, hworld, hB, by decide +kernel, (finality_views hworld hB loneBond).1⟩

/-- The first block is pruned, and a block under its identity is stored on top of the
checkpoint, with a leader above it. -/
def restoredLace : Blocklace :=
  (twoRounds.pruneTo (sampleId 2 1)).growBy
    [sampleBlock (sampleId 1 1) [sampleId 2 1],
      sampleBlock (sampleId 3 1) [sampleId 1 1]]

theorem mutates_restoredLace : ReflTransGen Mutates (Blocklace.new 0) restoredLace := by
  obtain ⟨report, hprune⟩ := Blocklace.pruneBelowCheckpoint_pruneTo (B := twoRounds)
    (c := sampleId 2 1) (by decide +kernel)
  have hafter : ReflTransGen Mutates (twoRounds.pruneTo (sampleId 2 1)) restoredLace :=
    mutates_of_insertRun (Blocklace.insertRun_growBy (by decide +kernel))
  exact (mutates_twoRounds.tail (.prune hprune)).trans hafter

/-- The last finalized block is there, and the order is that of nothing. -/
theorem finality_views_differ :
    ∃ world, Viewed world ∧ world.laces 0 = some restoredLace ∧
      latestFinalizedBlockId restoredLace loneBond = some (sampleId 3 1) ∧
      (orderedBlockIdentitiesWithCache restoredLace loneBond cordialWavelength world.cache).1 =
        ([], none) := by
  obtain ⟨world, hworld, hB, hcache⟩ := exists_viewed mutates_restoredLace
  refine ⟨world, hworld, hB, by decide +kernel, ?_⟩
  rw [hcache]
  decide +kernel

end CordialMiners.Output
