/-
# The ordering cache

`OrderingCache` and the cached functions of `consensus/ordering.rs`.

The cache remembers previous-leader lookups and whole outputs for one blocklace
at one generation.  The four maps of the source are two here: a key says which
votes count (`Votes`), so the keys of the counting and of the weighted maps
never meet.  A cached walk sorts *all* the blocks a leader approves and then
skips what is emitted (`emitSortedFragment`), where the uncached walk sorts only
what is fresh.

`CachedOutput` is what a cached walk computes when nothing is cached; `Sound`
says that every entry of a cache that matches the blocklace is right, and each
cached function returns the right value and keeps the cache sound.
-/

import CordialMiners.Ordering.Stability

namespace CordialMiners

open FinGraph Relation
open Codec (map_eq_ok)

/-- Which votes finality counts: creators out of `n` with `f` faults, or stake. -/
inductive Votes where
  | count (n f : ℕ)
  | stake (weights : WeightSnapshot)
deriving DecidableEq

/-- The tests for the votes. -/
def Votes.ladder : Votes → Ladder
  | .count n f => countLadder n f
  | .stake weights => stakeLadder weights

/-- `PreviousLeaderCacheKey` and its three siblings. -/
structure LeaderKey where
  leader : BlockIdentity
  wavelength : ℕ
  votes : Votes
  leaderSelectionId : ℕ
deriving DecidableEq

/-- `OrderingCache`. -/
structure OrderingCache where
  cacheBlocklaceIdentity : Option ℕ
  cacheGeneration : ℕ × ℕ
  previousFinalByLeader : AList fun _ : LeaderKey => Option BlockIdentity
  tauOutputByLatestLeader : AList fun _ : LeaderKey => Except OrderingError (List BlockIdentity)

namespace OrderingCache

/-- `OrderingCache::default()`. -/
def empty : OrderingCache := ⟨none, (0, 0), ∅, ∅⟩

/-- `sync_cache_generation`: forget everything that was computed for another
blocklace or another generation of it. -/
def sync (B : Blocklace) (cache : OrderingCache) : OrderingCache :=
  if cache.cacheBlocklaceIdentity ≠ some B.cacheIdentity ∨
      cache.cacheGeneration ≠ (B.generation, B.dom.length) then
    ⟨some B.cacheIdentity, (B.generation, B.dom.length), ∅, ∅⟩
  else cache

end OrderingCache

/-- The votes and the leader function of a run, with the id that names it. -/
structure TauConfig where
  wavelength : ℕ
  votes : Votes
  leaderSelectionId : ℕ
  leaderSelection : LeaderSelection

/-- The key of a leader in a run. -/
def TauConfig.key (config : TauConfig) (leader : BlockIdentity) : LeaderKey :=
  ⟨leader, config.wavelength, config.votes, config.leaderSelectionId⟩

namespace Blocklace

/-- `previous_final_leader_cached`, `weighted_previous_final_leader_cached`. -/
def previousFinalLeaderCached (B : Blocklace) (currentLeader : BlockIdentity) (config : TauConfig)
    (cache : OrderingCache) : Option BlockIdentity × OrderingCache :=
  let cache := cache.sync B
  match cache.previousFinalByLeader.lookup (config.key currentLeader) with
  | some previous => (previous, cache)
  | none =>
      let previous := config.votes.ladder.previous B currentLeader config.wavelength
        config.leaderSelection
      (previous, { cache with
        previousFinalByLeader :=
          cache.previousFinalByLeader.insert (config.key currentLeader) previous })

/-- `sorted_approved_fragment`. -/
def sortedApprovedFragment (B : Blocklace) (leader : BlockIdentity) (cache : OrderingCache) :
    Except OrderingError (List BlockIdentity) × OrderingCache :=
  (xsort (B.approvedBlocksForLeader leader), cache.sync B)

/-- `tau_from_leader_cached`, `weighted_tau_from_leader_cached`. -/
def tauFromLeaderCached (B : Blocklace) (config : TauConfig) :
    ℕ → BlockIdentity → List BlockIdentity → OrderingCache →
      Except OrderingError (List BlockIdentity) × OrderingCache
  | 0, _, _, cache => (.error .cycleDetected, cache)
  | fuel + 1, leader, ordered, cache =>
      match config.votes.ladder.emitCheckpointPrefix B leader ordered with
      | some ordered => (.ok ordered, cache)
      | none =>
          let (previous, cache) := B.previousFinalLeaderCached leader config cache
          let (below, cache) :=
            match previous with
            | some previous => tauFromLeaderCached B config fuel previous ordered cache
            | none => (.ok (config.votes.ladder.emitBelow B leader ordered), cache)
          match below with
          | .error e => (.error e, cache)
          | .ok ordered =>
              let (sorted, cache) := B.sortedApprovedFragment leader cache
              (sorted.map (emitAll ordered), cache)

/-- The common body of `tau_with_cache` and `weighted_tau_with_cache`. -/
def orderedWithCache (B : Blocklace) (config : TauConfig) (cache : OrderingCache) :
    Except OrderingError (List BlockIdentity) × OrderingCache :=
  let cache := cache.sync B
  match config.votes.ladder.latest B config.wavelength config.leaderSelection with
  | none => (.ok [], cache)
  | some latestLeader =>
      match cache.tauOutputByLatestLeader.lookup (config.key latestLeader) with
      | some ordered => (ordered, cache)
      | none =>
          let (ordered, cache) :=
            B.tauFromLeaderCached config (Ladder.tauFuel B latestLeader) latestLeader [] cache
          (ordered, { cache with
            tauOutputByLatestLeader :=
              cache.tauOutputByLatestLeader.insert (config.key latestLeader) ordered })

/-- `tau_with_cache`. -/
def tauWithCache (B : Blocklace) (wavelength n f leaderSelectionId : ℕ)
    (leaderSelection : LeaderSelection) (cache : OrderingCache) :
    Except OrderingError (List BlockIdentity) × OrderingCache :=
  B.orderedWithCache ⟨wavelength, .count n f, leaderSelectionId, leaderSelection⟩ cache

/-- `weighted_tau_with_cache`. -/
def weightedTauWithCache (B : Blocklace) (wavelength : ℕ) (bonds : Bonds) (leaderSelectionId : ℕ)
    (leaderSelection : LeaderSelection) (cache : OrderingCache) :
    Except OrderingError (List BlockIdentity) × OrderingCache :=
  B.orderedWithCache ⟨wavelength, .stake (.fromBonds bonds), leaderSelectionId, leaderSelection⟩
    cache

/-- `weighted_tau_suffix_from_leader_cached`: the output if the walk meets the
anchor, nothing if it does not. -/
def tauSuffixFromLeaderCached (B : Blocklace) (config : TauConfig)
    (previousAnchor : BlockIdentity) :
    ℕ → BlockIdentity → List BlockIdentity → OrderingCache →
      Except OrderingError (Option (List BlockIdentity)) × OrderingCache
  | 0, _, _, cache => (.error .cycleDetected, cache)
  | fuel + 1, leader, ordered, cache =>
      if leader.sameConsensusIdentity previousAnchor then (.ok (some ordered), cache)
      else if (config.votes.ladder.emitCheckpointPrefix B leader ordered).isSome then
        (.ok none, cache)
      else
        let (previous, cache) := B.previousFinalLeaderCached leader config cache
        let (reaches, cache) :=
          match previous with
          | some previous =>
              tauSuffixFromLeaderCached B config previousAnchor fuel previous ordered cache
          | none => (.ok none, cache)
        match reaches with
        | .error e => (.error e, cache)
        | .ok none => (.ok none, cache)
        | .ok (some ordered) =>
            let (sorted, cache) := B.sortedApprovedFragment leader cache
            (sorted.map fun ids => some (emitAll ordered ids), cache)

/-- `weighted_tau_suffix_with_cache`: the verified prefix extended to the current
output, with its anchor. -/
def weightedTauSuffixWithCache (B : Blocklace) (wavelength : ℕ) (bonds : Bonds)
    (leaderSelectionId : ℕ) (leaderSelection : LeaderSelection) (previousAnchor : BlockIdentity)
    (previousPrefix : List BlockIdentity) (cache : OrderingCache) :
    Except OrderingError (Option (List BlockIdentity × BlockIdentity)) × OrderingCache :=
  let cache := cache.sync B
  if !(previousPrefix.getLast?.any fun last => last.sameConsensusIdentity previousAnchor) then
    (.ok none, cache)
  else
    match (B.depth previousAnchor).bind fun round => waveOfRound round wavelength with
    | none => (.ok none, cache)
    | some anchorWave =>
        if !((B.weightedFinalLeaderForWave anchorWave wavelength bonds leaderSelection).any
            fun leader => leader.sameConsensusIdentity previousAnchor) then
          (.ok none, cache)
        else
          match B.latestWeightedFinalLeader wavelength bonds leaderSelection with
          | none => (.ok none, cache)
          | some latestLeader =>
              let (reached, cache) := B.tauSuffixFromLeaderCached
                ⟨wavelength, .stake (.fromBonds bonds), leaderSelectionId, leaderSelection⟩
                previousAnchor (Ladder.tauFuel B latestLeader) latestLeader
                (previousPrefix.map BlockIdentity.consensusIdentity) cache
              (reached.map fun ordered => ordered.map fun ordered => (ordered, latestLeader),
                cache)

/-! ### What a cached walk emits -/

variable {B : Blocklace} {L : BlockIdentity} {d : ℕ} {ordered out : List BlockIdentity}

/-- Sort all a leader approves, then emit what is not emitted yet. -/
def emitSortedFragment (B : Blocklace) (ordered : List BlockIdentity) (leader : BlockIdentity) :
    Except OrderingError (List BlockIdentity) :=
  (xsort (B.approvedBlocksForLeader leader)).map (emitAll ordered)

/-- **A sorted fragment appends the fresh part of the order of all approved
blocks.** -/
theorem emitSortedFragment_eq_ok :
    B.emitSortedFragment ordered L = .ok out ↔
      ∃ l, B.Sorted (B.approvedSet L) l ∧ (∀ x ∈ B.approvedSet L, x ∈ l) ∧
        out = ordered ++ (l.filter (· ∉ emitted ordered)).map BlockIdentity.consensusIdentity := by
  have hlisted := approvedBlocksForLeader_listed B L
  have hemit : ∀ {l : List BlockIdentity}, B.Sorted (B.approvedSet L) l →
      emitAll ordered (l.map BlockIdentity.consensusIdentity) =
        ordered ++ (l.filter (· ∉ emitted ordered)).map BlockIdentity.consensusIdentity := by
    intro l hl
    rw [emitAll_eq (hl.nodup_map fun x hx => hx.1), List.filter_map]
    rfl
  unfold emitSortedFragment
  rw [map_eq_ok]
  constructor
  · rintro ⟨sorted, hsorted, rfl⟩
    obtain ⟨l, hl, hall, rfl⟩ := hlisted.xsort_eq_ok.1 hsorted
    rw [idsOf_approvedBlocksForLeader] at hl hall
    exact ⟨l, hl, hall, hemit hl⟩
  · rintro ⟨l, hl, hall, rfl⟩
    refine ⟨l.map BlockIdentity.consensusIdentity, hlisted.xsort_eq_ok.2 ⟨l, ?_, ?_, rfl⟩,
      hemit hl⟩
    · rwa [idsOf_approvedBlocksForLeader]
    · rwa [idsOf_approvedBlocksForLeader]

end Blocklace

/-- What a cached walk from `L` computes. -/
def Ladder.CachedOutput (ladder : Ladder) (B : Blocklace) (w : ℕ) (ls : LeaderSelection)
    (L : BlockIdentity) (result : Except OrderingError (List BlockIdentity)) : Prop :=
  ∃ base leaders, ladder.Chain B w ls L base leaders ∧
    result = leaders.foldlM B.emitSortedFragment base

theorem Ladder.CachedOutput.unique {ladder : Ladder} {B : Blocklace} {w : ℕ}
    {ls : LeaderSelection} {L : BlockIdentity}
    {result result' : Except OrderingError (List BlockIdentity)}
    (h : ladder.CachedOutput B w ls L result) (h' : ladder.CachedOutput B w ls L result') :
    result = result' := by
  obtain ⟨base, leaders, hc, rfl⟩ := h
  obtain ⟨base', leaders', hc', rfl⟩ := h'
  obtain ⟨rfl, rfl⟩ := hc.unique hc'
  rfl

/-! ### Sound caches -/

namespace OrderingCache

/-- The cache belongs to the blocklace as it is, and its entries are right;
`registry` says which leader function an id names. -/
structure Current (registry : ℕ → LeaderSelection) (B : Blocklace) (cache : OrderingCache) :
    Prop where
  identity : cache.cacheBlocklaceIdentity = some B.cacheIdentity
  generation : cache.cacheGeneration = (B.generation, B.dom.length)
  previous : ∀ key p, cache.previousFinalByLeader.lookup key = some p →
    p = key.votes.ladder.previous B key.leader key.wavelength (registry key.leaderSelectionId)
  output : ∀ key r, cache.tauOutputByLatestLeader.lookup key = some r →
    key.votes.ladder.CachedOutput B key.wavelength (registry key.leaderSelectionId) key.leader r

/-- The entries are right if the cache belongs to the blocklace as it is. -/
def Sound (registry : ℕ → LeaderSelection) (B : Blocklace) (cache : OrderingCache) : Prop :=
  cache.cacheBlocklaceIdentity = some B.cacheIdentity →
    cache.cacheGeneration = (B.generation, B.dom.length) → cache.Current registry B

variable {registry : ℕ → LeaderSelection} {B : Blocklace} {cache : OrderingCache}

theorem Current.sound (h : cache.Current registry B) : cache.Sound registry B := fun _ _ => h

/-- **After `sync` the cache is current.** -/
theorem Sound.sync (h : cache.Sound registry B) : (cache.sync B).Current registry B := by
  unfold OrderingCache.sync
  split_ifs with hstale
  · exact ⟨rfl, rfl, by simp, by simp⟩
  · rw [not_or, not_not, not_not] at hstale
    exact h hstale.1 hstale.2

theorem Current.sync_eq (h : cache.Current registry B) : cache.sync B = cache := by
  unfold OrderingCache.sync
  rw [if_neg]
  rw [not_or, not_not, not_not]
  exact ⟨h.identity, h.generation⟩

theorem Current.insert_previous (h : cache.Current registry B) (key : LeaderKey) :
    ({ cache with
      previousFinalByLeader := cache.previousFinalByLeader.insert key
        (key.votes.ladder.previous B key.leader key.wavelength
          (registry key.leaderSelectionId)) } : OrderingCache).Current registry B := by
  refine ⟨h.identity, h.generation, fun key' p hp => ?_, h.output⟩
  by_cases hkey : key' = key
  · subst hkey
    rw [AList.lookup_insert] at hp
    exact (Option.some.inj hp).symm
  · rw [AList.lookup_insert_ne hkey] at hp
    exact h.previous key' p hp

theorem Current.insert_output (h : cache.Current registry B) (key : LeaderKey)
    {r : Except OrderingError (List BlockIdentity)}
    (hr : key.votes.ladder.CachedOutput B key.wavelength (registry key.leaderSelectionId)
      key.leader r) :
    ({ cache with
      tauOutputByLatestLeader := cache.tauOutputByLatestLeader.insert key r } :
      OrderingCache).Current registry B := by
  refine ⟨h.identity, h.generation, h.previous, fun key' r' hr' => ?_⟩
  by_cases hkey : key' = key
  · subst hkey
    rw [AList.lookup_insert] at hr'
    obtain rfl := Option.some.inj hr'
    exact hr
  · rw [AList.lookup_insert_ne hkey] at hr'
    exact h.output key' r' hr'

end OrderingCache

/-! ### The cached functions -/

namespace Blocklace

variable {registry : ℕ → LeaderSelection} {B : Blocklace} {cache : OrderingCache}
  {config : TauConfig} {Q : Quorum.Rule NodeId} {L : BlockIdentity} {d : ℕ}
  {base leaders : List BlockIdentity}

/-- **A cached lookup returns the previous leader.** -/
theorem previousFinalLeaderCached_spec (h : cache.Current registry B)
    (hls : config.leaderSelection = registry config.leaderSelectionId) (L : BlockIdentity) :
    (B.previousFinalLeaderCached L config cache).1 =
        config.votes.ladder.previous B L config.wavelength config.leaderSelection ∧
      (B.previousFinalLeaderCached L config cache).2.Current registry B := by
  unfold previousFinalLeaderCached
  rw [h.sync_eq, hls]
  simp only
  cases hl : cache.previousFinalByLeader.lookup (config.key L) with
  | some p =>
      exact ⟨h.previous _ _ hl, h⟩
  | none =>
      exact ⟨rfl, h.insert_previous (config.key L)⟩

/-- **A cached walk emits the sorted fragments along the chain.** -/
theorem tauFromLeaderCached_spec (hQ : config.votes.ladder.Decides Q)
    (hls : config.leaderSelection = registry config.leaderSelectionId) (hL : B.Round L d)
    (hc : config.votes.ladder.Chain B config.wavelength config.leaderSelection L base leaders)
    {fuel : ℕ} (hfuel : d < fuel) (h : cache.Current registry B) :
    (B.tauFromLeaderCached config fuel L [] cache).1 =
        leaders.foldlM B.emitSortedFragment base ∧
      (B.tauFromLeaderCached config fuel L [] cache).2.Current registry B := by
  induction hc generalizing d fuel cache with
  | checkpoint he =>
      obtain ⟨fuel, rfl⟩ := Nat.exists_eq_succ_of_ne_zero (by omega : fuel ≠ 0)
      rw [tauFromLeaderCached, he]
      exact ⟨rfl, h⟩
  | @first L he hp =>
      obtain ⟨fuel, rfl⟩ := Nat.exists_eq_succ_of_ne_zero (by omega : fuel ≠ 0)
      obtain ⟨hprev, hcur⟩ := previousFinalLeaderCached_spec h hls L
      rw [hp] at hprev
      rw [tauFromLeaderCached, he]
      simp only [hprev, sortedApprovedFragment, hcur.sync_eq]
      exact ⟨(bind_pure (B.emitSortedFragment _ _)).symm, hcur⟩
  | @next L P base leaders he hp _ ih =>
      obtain ⟨fuel, rfl⟩ := Nat.exists_eq_succ_of_ne_zero (by omega : fuel ≠ 0)
      obtain ⟨hprev, hcur⟩ := previousFinalLeaderCached_spec h hls L
      rw [hp] at hprev
      obtain ⟨e, hlt, hP⟩ := hL.of_below (Ladder.previous_below hQ hL hp)
      obtain ⟨hbelow, hcur'⟩ := ih hP (by omega : e < fuel) hcur
      rw [tauFromLeaderCached, he, List.foldlM_append, ← hbelow]
      simp only [hprev]
      generalize B.tauFromLeaderCached config fuel P []
        (B.previousFinalLeaderCached L config cache).2 = step at *
      obtain ⟨below, cache'⟩ := step
      cases below with
      | error e => exact ⟨rfl, hcur'⟩
      | ok ordered =>
          simp only [sortedApprovedFragment, hcur'.sync_eq]
          exact ⟨(bind_pure (B.emitSortedFragment _ _)).symm, hcur'⟩

/-- The suffix walk keeps the cache current. -/
theorem tauSuffixFromLeaderCached_current
    (hls : config.leaderSelection = registry config.leaderSelectionId) (anchor : BlockIdentity)
    (fuel : ℕ) (L : BlockIdentity) (ordered : List BlockIdentity) (h : cache.Current registry B) :
    (B.tauSuffixFromLeaderCached config anchor fuel L ordered cache).2.Current registry B := by
  induction fuel generalizing L ordered cache with
  | zero => exact h
  | succ fuel ih =>
      rw [tauSuffixFromLeaderCached]
      split_ifs with hhit hcp
      · exact h
      · exact h
      · obtain ⟨hprev, hcur⟩ := previousFinalLeaderCached_spec h hls L
        simp only [hprev]
        cases hp : config.votes.ladder.previous B L config.wavelength config.leaderSelection with
        | none => exact hcur
        | some P =>
            have hcur' := ih P ordered hcur
            simp only
            generalize B.tauSuffixFromLeaderCached config anchor fuel P ordered
              (B.previousFinalLeaderCached L config cache).2 = step at *
            obtain ⟨reaches, cache'⟩ := step
            cases reaches with
            | error e => exact hcur'
            | ok reached =>
                cases reached with
                | none => exact hcur'
                | some ordered =>
                    simp only [sortedApprovedFragment, hcur'.sync_eq]
                    exact hcur'

/-- **A cached call returns what a cached walk from the latest leader computes**,
whatever sound cache it is given, and leaves a current one. -/
theorem orderedWithCache_spec (config : TauConfig) (hQ : config.votes.ladder.Decides Q)
    (hls : config.leaderSelection = registry config.leaderSelectionId)
    (h : cache.Sound registry B) :
    (match config.votes.ladder.latest B config.wavelength config.leaderSelection with
      | none => (B.orderedWithCache config cache).1 = .ok []
      | some L => config.votes.ladder.CachedOutput B config.wavelength config.leaderSelection L
          (B.orderedWithCache config cache).1) ∧
      (B.orderedWithCache config cache).2.Current registry B := by
  have hcur := h.sync
  unfold orderedWithCache
  cases hL : config.votes.ladder.latest B config.wavelength config.leaderSelection with
  | none => exact ⟨rfl, hcur⟩
  | some L =>
      simp only
      cases hl : (cache.sync B).tauOutputByLatestLeader.lookup (config.key L) with
      | some r =>
          have hr := hcur.output _ _ hl
          refine ⟨?_, hcur⟩
          rw [hls]
          exact hr
      | none =>
          obtain ⟨wave, hscan, -⟩ := (Ladder.latest_iff hQ).1 hL
          obtain ⟨base, leaders, hc⟩ :=
            Ladder.exists_chain hQ config.wavelength config.leaderSelection hscan.round
          have hfuel : wave * config.wavelength < Ladder.tauFuel B L := by
            unfold Ladder.tauFuel
            rw [hscan.round.depth, Option.getD_some]
            omega
          obtain ⟨hwalk, hcur'⟩ := tauFromLeaderCached_spec hQ hls hscan.round hc hfuel hcur
          have hout : config.votes.ladder.CachedOutput B config.wavelength config.leaderSelection L
              (B.tauFromLeaderCached config (Ladder.tauFuel B L) L [] (cache.sync B)).1 :=
            ⟨base, leaders, hc, hwalk⟩
          refine ⟨hout, hcur'.insert_output (config.key L) ?_⟩
          rw [hls] at hout
          exact hout

/-- The suffix call keeps the cache current. -/
theorem weightedTauSuffixWithCache_current {w id : ℕ} {bonds : Bonds} {anchor : BlockIdentity}
    {verified : List BlockIdentity} (h : cache.Sound registry B) :
    (B.weightedTauSuffixWithCache w bonds id (registry id) anchor verified cache).2.Current
      registry B := by
  have hcur := h.sync
  unfold weightedTauSuffixWithCache
  simp only
  split_ifs
  · exact hcur
  · split
    · exact hcur
    · split_ifs
      · exact hcur
      · split
        · exact hcur
        · exact tauSuffixFromLeaderCached_current rfl _ _ _ _ hcur

end Blocklace

end CordialMiners
