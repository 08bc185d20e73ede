/-
# Which ordering is published

The ordering behind the published output (`snapshot.rs` of the node adapter).

With one bonded validator and no checkpoint the newest complete wave of that validator
is published, and nothing if it signed two blocks of one round.  Otherwise, and where no
wave is complete, the weighted recursion decides.
-/

import CordialMiners.Ordering.CacheRuns
import CordialMiners.WeightEpoch.Record

namespace CordialMiners.Output

open Blocklace (DepthCache)
open Reputation (leaderOfWave sortedValidators)

/-- `ordered_validators`. -/
def orderedValidators (bonds : Bonds) : List NodeId := sortedValidators bonds.table.keys

/-! ### One validator -/

/-- The outcome for a single bonded validator. -/
inductive SingleValidatorLeader where
  | fork
  | found (leader : BlockIdentity)
  | incomplete
deriving DecidableEq, Repr

/-- The blocks of the validator in a round. -/
def roundBlocks (depths : DepthCache) (validator : NodeId) (round : ℕ) : List BlockIdentity :=
  (depths.entries.filter fun entry => entry.2 = round ∧ entry.1.creator = validator).map Sigma.fst

/-- `has_same_round_fork`. -/
def hasSameRoundFork (depths : DepthCache) (validator : NodeId) : Bool :=
  ¬((depths.entries.filter fun entry => entry.1.creator = validator).map Sigma.snd).Nodup

/-- The loop over the waves: the leader of the first one in which the validator has one
block in every round.  A wave whose rounds overflow ends the search. -/
def completeWaveLeader (depths : DepthCache) (validator : NodeId) (wavelength maxRound : ℕ) :
    List ℕ → Option BlockIdentity
  | [] => none
  | wave :: waves => do
      let lastRound ← lastRoundOfWave wave wavelength
      if lastRound > maxRound then completeWaveLeader depths validator wavelength maxRound waves
      else
        let firstRound ← checkedMul64 wave wavelength
        if (List.range' firstRound (lastRound + 1 - firstRound)).all fun round =>
            (roundBlocks depths validator round).length = 1 then
          (roundBlocks depths validator firstRound).head?
        else completeWaveLeader depths validator wavelength maxRound waves

/-- `latest_single_validator_finalized_block_id_from_depths`. -/
def latestSingleValidatorFinalizedBlockIdFromDepths (depths : DepthCache) (validator : NodeId)
    (wavelength : ℕ) : Option BlockIdentity :=
  if hasSameRoundFork depths validator then none
  else do
    let maxRound ← (depths.entries.map Sigma.snd).max?
    let latestWave ← waveOfRound maxRound wavelength
    completeWaveLeader depths validator wavelength maxRound (List.range (latestWave + 1)).reverse

/-- `single_validator_leader`. -/
def singleValidatorLeader (B : Blocklace) (validator : NodeId) (wavelength : ℕ) :
    SingleValidatorLeader :=
  let depths := B.computeAllDepths
  if hasSameRoundFork depths validator then .fork
  else
    match latestSingleValidatorFinalizedBlockIdFromDepths depths validator wavelength with
    | some leader => .found leader
    | none => .incomplete

/-- The part of the dispatch that is about a single validator. -/
def singleValidatorCase (B : Blocklace) (leaders : List NodeId) (wavelength : ℕ) :
    SingleValidatorLeader :=
  match leaders with
  | [validator] =>
      if B.checkpoint = none then singleValidatorLeader B validator wavelength else .incomplete
  | _ => .incomplete

/-- The order of all that a leader observes. -/
def observedOrder (B : Blocklace) (leader : BlockIdentity) :
    Except OrderingError (List BlockIdentity) := xsort ((B.observe leader).filterMap B.get)

/-! ### The dispatch -/

/-- `try_ordered_block_identities_with_cache`: the blocks and their anchor. -/
def tryOrderedBlockIdentitiesWithCache (B : Blocklace) (bonds : Bonds) (wavelength : ℕ)
    (cache : OrderingCache) :
    Except OrderingError (List BlockIdentity × Option BlockIdentity) × OrderingCache :=
  let leaders := orderedValidators bonds
  if leaders = [] then (.ok ([], none), cache)
  else
    match singleValidatorCase B leaders wavelength with
    | .fork => (.ok ([], none), cache)
    | .found leader => ((observedOrder B leader).map fun blocks => (blocks, some leader), cache)
    | .incomplete =>
        let anchor := B.latestWeightedFinalLeader wavelength bonds (leaderOfWave leaders)
        let (blocks, cache) := B.weightedTauWithCache wavelength bonds 0 (leaderOfWave leaders) cache
        (blocks.map fun blocks => (blocks, anchor), cache)

/-- `ordered_block_identities_with_verified_prefix`. -/
def orderedBlockIdentitiesWithVerifiedPrefix (B : Blocklace) (bonds : Bonds) (wavelength : ℕ)
    (previousPrefix : List BlockIdentity) (previousAnchor : BlockIdentity) (cache : OrderingCache) :
    Except OrderingError (Option (List BlockIdentity × BlockIdentity)) × OrderingCache :=
  let leaders := orderedValidators bonds
  if leaders.length < 2 ∨ B.checkpoint ≠ none ∨ B.trustedBoundaryPredecessors ≠ [] then (.ok none, cache)
  else
    B.weightedTauSuffixWithCache wavelength bonds 0 (leaderOfWave leaders) previousAnchor
      previousPrefix cache

/-- **With several validators the weighted recursion is published.** -/
theorem tryOrdered_of_several {B : Blocklace} {bonds : Bonds} (wavelength : ℕ)
    (cache : OrderingCache) (hmany : 2 ≤ bonds.table.keys.length) :
    (tryOrderedBlockIdentitiesWithCache B bonds wavelength cache).1 =
      ((B.weightedTauWithCache wavelength bonds 0 (leaderOfWave (orderedValidators bonds)) cache).1.map
        fun blocks => (blocks,
          B.latestWeightedFinalLeader wavelength bonds (leaderOfWave (orderedValidators bonds)))) := by
  have hlength : 2 ≤ (orderedValidators bonds).length := by
    unfold orderedValidators sortedValidators
    rwa [List.length_insertionSort]
  unfold tryOrderedBlockIdentitiesWithCache
  cases hleaders : orderedValidators bonds with
  | nil => simp [hleaders] at hlength
  | cons first rest =>
      cases rest with
      | nil => simp [hleaders] at hlength
      | cons second rest =>
          rw [if_neg (List.cons_ne_nil _ _)]
          rfl

/-! ### What the ordering depends on -/

section Depends

variable {B : Blocklace} {bonds bonds' : Bonds} {w : ℕ} {cache : OrderingCache}

/-- The validators are the keys of the snapshot. -/
theorem keys_fromBonds (bonds : Bonds) :
    (WeightSnapshot.fromBonds bonds).bonds.keys = orderedValidators bonds := by
  have hsorted : ((bonds.table.entries.insertionSort fun x y => x.1 ≤ y.1).map
      Sigma.fst).Pairwise (· ≤ ·) :=
    List.pairwise_map.2 (List.pairwise_insertionSort _ _)
  have hperm : ((bonds.table.entries.insertionSort fun x y => x.1 ≤ y.1).map Sigma.fst).Perm
      (orderedValidators bonds) :=
    ((List.perm_insertionSort _ _).map _).trans (List.perm_insertionSort _ _).symm
  exact hperm.eq_of_pairwise' hsorted (List.pairwise_insertionSort _ _)

/-- **The ordering reads the snapshot of the bonds.** -/
theorem tryOrdered_congr (h : WeightSnapshot.fromBonds bonds = .fromBonds bonds') :
    tryOrderedBlockIdentitiesWithCache B bonds w cache =
      tryOrderedBlockIdentitiesWithCache B bonds' w cache := by
  have hvalidators : orderedValidators bonds = orderedValidators bonds' := by
    rw [← keys_fromBonds, h, keys_fromBonds]
  unfold tryOrderedBlockIdentitiesWithCache Blocklace.latestWeightedFinalLeader
    Blocklace.weightedTauWithCache
  rw [hvalidators, h]

/-- A call with a sound cache leaves the cache, or one that is current. -/
theorem tryOrdered_cache (registry : ℕ → LeaderSelection) (w : ℕ)
    (hregistry : registry 0 = leaderOfWave (orderedValidators bonds)) (h : cache.Sound registry B) :
    (tryOrderedBlockIdentitiesWithCache B bonds w cache).2 = cache ∨
      (tryOrderedBlockIdentitiesWithCache B bonds w cache).2.Current registry B := by
  unfold tryOrderedBlockIdentitiesWithCache
  dsimp only
  split_ifs
  · exact Or.inl rfl
  · cases singleValidatorCase B (orderedValidators bonds) w with
    | fork => exact Or.inl rfl
    | found leader => exact Or.inl rfl
    | incomplete =>
        exact Or.inr (Blocklace.orderedWithCache_spec
          ⟨w, .stake (.fromBonds bonds), 0, leaderOfWave (orderedValidators bonds)⟩
          (stakeLadder_decides bonds) hregistry.symm h).2

/-- **A sound cache does not change the ordering.** -/
theorem tryOrdered_eq_of_sound (registry : ℕ → LeaderSelection) (w : ℕ)
    (hregistry : registry 0 = leaderOfWave (orderedValidators bonds)) (h : cache.Sound registry B) :
    (tryOrderedBlockIdentitiesWithCache B bonds w cache).1 =
      (tryOrderedBlockIdentitiesWithCache B bonds w .empty).1 := by
  have hempty := OrderingCache.follows_empty registry B
  have hresult : (B.weightedTauWithCache w bonds 0 (leaderOfWave (orderedValidators bonds)) cache).1 =
      (B.weightedTauWithCache w bonds 0 (leaderOfWave (orderedValidators bonds)) .empty).1 := by
    obtain ⟨hcached, -⟩ := Blocklace.orderedWithCache_spec
      ⟨w, .stake (.fromBonds bonds), 0, leaderOfWave (orderedValidators bonds)⟩
      (stakeLadder_decides bonds) hregistry.symm h
    obtain ⟨hfresh, -⟩ := Blocklace.orderedWithCache_spec
      ⟨w, .stake (.fromBonds bonds), 0, leaderOfWave (orderedValidators bonds)⟩
      (stakeLadder_decides bonds) hregistry.symm hempty.sound
    dsimp only at hcached hfresh
    cases hlatest : (Votes.stake (.fromBonds bonds)).ladder.latest B w
        (leaderOfWave (orderedValidators bonds)) with
    | none =>
        rw [hlatest] at hcached hfresh
        exact hcached.trans hfresh.symm
    | some L =>
        rw [hlatest] at hcached hfresh
        exact hcached.unique hfresh
  unfold tryOrderedBlockIdentitiesWithCache
  dsimp only
  split_ifs
  · rfl
  · cases singleValidatorCase B (orderedValidators bonds) w with
    | fork => rfl
    | found leader => rfl
    | incomplete =>
        dsimp only
        rw [hresult]

end Depends

end CordialMiners.Output
