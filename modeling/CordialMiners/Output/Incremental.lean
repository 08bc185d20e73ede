/-
# Incremental polls

The polls of the ingress against a full recomputation.

A poll may return what is published, or extend it by the leaders above its anchor.  The
first is right because every change of the mirror moves the generation forward.  The
second is right because a saved prefix stays usable only through single insertions of
blocks above the wave of its anchor, which change no wave before it.  So in every run
each successful poll returns what ordering the whole blocklace from an empty cache gives
(`poll_eq_recomputed`).
-/

import CordialMiners.Ordering.Above
import CordialMiners.Output.Activation

namespace CordialMiners

open Blocklace (alreadyValidated)

/-! ### The mirror moves forward -/

namespace LiveBlocklaceMirror

variable {verifier : CryptoVerifier} {m m' : LiveBlocklaceMirror} {err : Option MirrorError}

theorem Cascade.later (h : Cascade verifier m err m') : m.blocklace.Later m'.blocklace := by
  induction h with
  | done => exact .refl _
  | fail => exact .refl _
  | step hrel _ ih => exact hrel.inserted.later.trans ih

theorem ingest_later (verifier : CryptoVerifier) (m : LiveBlocklaceMirror) (block : Block) :
    m.blocklace.Later (m.ingest verifier block).2.blocklace := by
  rcases ingest_cases verifier m block with ⟨-, hsame⟩ | ⟨-, -, hbuffered⟩ |
    ⟨-, -, -, e, hrefused⟩ | ⟨-, -, -, B, hinsert, happlied⟩
  · rw [hsame]
    exact .refl _
  · rw [hbuffered]
    exact .refl _
  · rw [hrefused]
    exact .refl _
  · rw [happlied]
    exact (Blocklace.insert_ok hinsert).later.trans
      (applied_cascade verifier { m with blocklace := B }).later

/-- **One generation further, a delivery has inserted its block and nothing else.** -/
theorem ingest_inserted (verifier : CryptoVerifier) (m : LiveBlocklaceMirror) (block : Block)
    (hgen : (m.ingest verifier block).2.blocklace.generation = m.blocklace.generation + 1) :
    m.blocklace.Inserted block (m.ingest verifier block).2.blocklace ∧
      block.identity ∉ m.blocklace.blocks := by
  rcases ingest_cases verifier m block with ⟨-, hsame⟩ | ⟨-, -, hbuffered⟩ |
    ⟨-, -, -, e, hrefused⟩ | ⟨hfresh, -, -, B, hinsert, happlied⟩
  · rw [hsame] at hgen
    omega
  · rw [hbuffered] at hgen
    exact absurd hgen (Nat.lt_succ_self _).ne
  · rw [hrefused] at hgen
    exact absurd hgen (Nat.lt_succ_self _).ne
  · have hinserted := Blocklace.insert_ok hinsert
    have hlater := (applied_cascade verifier { m with blocklace := B }).later
    rw [happlied] at hgen ⊢
    have hB := hlater.eq_of_generation (hgen.trans hinserted.generation.symm)
    rw [hB]
    exact ⟨hinserted, hfresh.1.not_mem⟩

theorem ingestWithTrustedBoundary_later (verifier : CryptoVerifier) (m : LiveBlocklaceMirror)
    (block : Block) : m.blocklace.Later (m.ingestWithTrustedBoundary verifier block).2.blocklace := by
  unfold ingestWithTrustedBoundary
  cases m.duplicateOrIdentityConflict block.identity with
  | error e => exact .refl _
  | ok known =>
      cases known with
      | true => exact .refl _
      | false =>
          dsimp only
          cases hinsert : m.blocklace.insertWithTrustedBoundary block verifier with
          | error e => exact .refl _
          | ok inserted =>
              obtain ⟨missing, B⟩ := inserted
              have hB : m.blocklace.Later B := (Mutates.insertTrusted hinsert).generation
              exact hB.trans (applied_cascade verifier { m with blocklace := B }).later

end LiveBlocklaceMirror

/-! ### The native blocks -/

theorem Persistence.LiveIngress.ingestNativeInner_later
    (blockHash : NodeId → BlockContent → ContentHash) (ingress : Persistence.LiveIngress)
    (mapped : Except String Persistence.ValidatedF1r3nodeBlock) (adapter : Except String Unit)
    (repo : Option Persistence.RSpaceBlocklaceRepository) (trusted : Bool) :
    ingress.mirror.blocklace.Later
      (ingress.ingestNativeInner blockHash mapped adapter repo trusted).2.1.mirror.blocklace := by
  have hrefl := Blocklace.Later.refl ingress.mirror.blocklace
  unfold ingestNativeInner
  cases mapped with
  | error message => exact hrefl
  | ok validated =>
      dsimp only
      cases ingress.nativeIndex.checkCandidate blockHash validated with
      | error message => exact hrefl
      | ok _ =>
          dsimp only
          cases ingress.nativeIndex.byWireHash.lookup validated.wireHash with
          | some known =>
              rw [if_neg (by simp)]
              dsimp only
              split_ifs
              · exact hrefl
              · cases putNative repo validated with
                | error error => exact hrefl
                | ok repo' => exact hrefl
          | none =>
              dsimp only
              split_ifs
              · exact hrefl
              · exact hrefl
              · exact hrefl
              · cases adapter with
                | error message => exact hrefl
                | ok _ =>
                    dsimp only
                    cases putNative repo validated with
                    | error error => exact hrefl
                    | ok repo' =>
                        dsimp only
                        rw [applyNative_mirror]
                        exact LiveBlocklaceMirror.ingest_later alreadyValidated ingress.mirror
                          validated.block

namespace Output

open Blocklace (sampleId)
open Codec (map_eq_ok)
open Persistence (ValidatedF1r3nodeBlock RSpaceBlocklaceRepository)
open Reputation (OrderedFinalizedOutput leaderOfWave)

/-! ### What a poll may rely on -/

/-- The leader function of the weighted ordering. -/
def leaders (bonds : Bonds) : LeaderSelection := leaderOfWave (orderedValidators bonds)

/-- What ordering the blocklace from an empty cache gives. -/
def Recomputed (B : Blocklace) (bonds : Bonds) (wavelength : ℕ) (output : OrderedFinalizedOutput) :
    Prop :=
  ∃ blocks anchor, (tryOrderedBlockIdentitiesWithCache B bonds wavelength .empty).1 =
    .ok (blocks, anchor) ∧ output = .new blocks anchor wavelength

/-- What a saved prefix stands for: on a blocklace that only grew above the wave of the
anchor since, it was the recomputed output, and is still published. -/
structure Saved (now : Blocklace) (bonds : Bonds) (shared : SharedOrderedOutput)
    (reuse : FinalizedPrefixReuse) (B : Blocklace) (blocks : List BlockIdentity)
    (A : BlockIdentity) (d : ℕ) : Prop where
  above : B.ExtendsAbove now reuse.anchorWaveEnd
  ordered : (tryOrderedBlockIdentitiesWithCache B bonds reuse.fingerprint.wavelength .empty).1 =
    .ok (blocks, some A)
  published : shared.latest = some (.new blocks (some A) reuse.fingerprint.wavelength)
  anchor : reuse.anchor = A.consensusIdentity
  depth : B.depth A.consensusIdentity = some d
  last : lastRoundOfWave (d / reuse.fingerprint.wavelength) reuse.fingerprint.wavelength =
    some reuse.anchorWaveEnd

/-! ### Extending a saved prefix -/

section Extend

variable {B now : Blocklace} {bonds : Bonds} {w : ℕ} {P : List BlockIdentity} {A : BlockIdentity}
  {cache : OrderingCache}

/-- A prefix is extended with several validators, and without a checkpoint. -/
theorem verifiedPrefix_ok {extended : List BlockIdentity × BlockIdentity}
    (h : (orderedBlockIdentitiesWithVerifiedPrefix B bonds w P A cache).1 = .ok (some extended)) :
    2 ≤ bonds.table.keys.length ∧ B.checkpoint = none ∧
      (B.weightedTauSuffixWithCache w bonds 0 (leaders bonds) A P cache).1 = .ok (some extended) := by
  unfold orderedBlockIdentitiesWithVerifiedPrefix at h
  dsimp only at h
  split_ifs at h with hunfit
  · exact absurd h (by simp)
  · rw [not_or, not_or, not_lt, not_not, not_not] at hunfit
    obtain ⟨hmany, hcp, -⟩ := hunfit
    rw [(orderedValidators_perm bonds).length_eq] at hmany
    exact ⟨hmany, hcp, h⟩

theorem verifiedPrefix_follows (h : cache.Follows (fun _ => leaders bonds) B) :
    (orderedBlockIdentitiesWithVerifiedPrefix B bonds w P A cache).2.Follows
      (fun _ => leaders bonds) B := by
  unfold orderedBlockIdentitiesWithVerifiedPrefix
  dsimp only
  split_ifs
  · exact h
  · exact (Blocklace.weightedTauSuffixWithCache_current h.sound).follows

/-- **A saved prefix that is extended gives the recomputed output.** -/
theorem Saved.recomputed {shared : SharedOrderedOutput} {reuse : FinalizedPrefixReuse}
    {previous : OrderedFinalizedOutput} {blocks out : List BlockIdentity} {L : BlockIdentity} {d : ℕ}
    (h : Saved now bonds shared reuse B blocks A d) (hprevious : shared.latest = some previous)
    (hcache : cache.Sound (fun _ => leaders bonds) now)
    (hout : (orderedBlockIdentitiesWithVerifiedPrefix now bonds reuse.fingerprint.wavelength
      previous.blocks reuse.anchor cache).1 = .ok (some (out, L))) :
    (tryOrderedBlockIdentitiesWithCache now bonds reuse.fingerprint.wavelength .empty).1 =
      .ok (out, some L) := by
  obtain ⟨hmany, hcpnow, hsuffix⟩ := verifiedPrefix_ok hout
  have hcp : B.checkpoint = none := h.above.checkpoint.symm.trans hcpnow
  have hempty := OrderingCache.follows_empty (fun _ => leaders bonds)
  -- the published blocks are what the chain of the anchor emits
  obtain ⟨hlatest, hwalk⟩ := published_spec hcp hmany rfl (hempty B).sound h.ordered
  obtain ⟨below, hchain, hemit⟩ := hwalk A rfl
  have hblocks : previous.blocks = blocks := by
    obtain rfl := Option.some.inj (hprevious.symm.trans h.published)
    exact appendsFresh_emitSortedFragment.unsigned hemit
  rw [hblocks, h.anchor] at hsuffix
  obtain ⟨wave, hfinal, -⟩ := (Ladder.latest_iff_finalForWave (stakeLadder_decides bonds) hcp).1
    hlatest.symm
  obtain ⟨hunique, -⟩ := (Ladder.finalForWave_iff (stakeLadder_decides bonds)).1 hfinal
  obtain rfl := Option.some.inj (hunique.round.depth_consensusIdentity.symm.trans h.depth)
  obtain ⟨hfull, -, hleader⟩ := Blocklace.suffix_eq_full_above (fun _ => leaders bonds) 0 h.above hcp
    hunique.round h.last ⟨[], below, hchain, hemit.symm⟩ hcache (hempty now).sound hsuffix
  rw [tryOrdered_of_several _ _ hmany]
  have hleader : now.latestWeightedFinalLeader reuse.fingerprint.wavelength bonds
      (leaderOfWave (orderedValidators bonds)) = some L := hleader
  have hfull : (now.weightedTauWithCache reuse.fingerprint.wavelength bonds 0
      (leaderOfWave (orderedValidators bonds)) .empty).1 = .ok out := hfull
  rw [hfull, hleader]
  rfl

end Extend

namespace LiveIngress

/-- What holds after every run without a future epoch. -/
structure Inv (ingress : LiveIngress) : Prop where
  future : ingress.futureEpoch = none
  cache : ingress.orderingCache.Follows (fun _ => leaders ingress.bonds) ingress.blocklace
  published : ∀ fingerprint, ingress.lastFinalizedOutputFingerprint = some fingerprint →
    fingerprint.generation ≤ ingress.blocklace.generation ∧
      (fingerprint.generation = ingress.blocklace.generation →
        ∀ bonds, WeightSnapshot.fromBonds bonds = fingerprint.weights →
          ∃ output, ingress.sharedOrderedOutput.latest = some output ∧
            Recomputed ingress.blocklace bonds fingerprint.wavelength output)
  reuse : ∀ reuse, ingress.finalizedPrefixReuse = some reuse →
    reuse.observedGeneration ≤ ingress.blocklace.generation ∧
      (reuse.safeAppend = true → reuse.observedGeneration = ingress.blocklace.generation →
        ingress.blocklace.checkpoint = none → ∃ B blocks A d,
          Saved ingress.blocklace ingress.bonds ingress.sharedOrderedOutput reuse B blocks A d)

theorem inv_start (stored : Persistence.LiveIngress) (bonds : Bonds) :
    (start stored bonds).Inv where
  future := rfl
  cache := OrderingCache.follows_empty _ _
  published fingerprint h := by cases h
  reuse reuse h := by cases h

variable {ingress : LiveIngress}

/-! ### Blocks -/

/-- **The mirror moves forward.** -/
theorem Inv.stored (h : ingress.Inv) {stored : Persistence.LiveIngress}
    (hlater : ingress.blocklace.Later stored.mirror.blocklace) :
    ({ ingress with toLiveIngress := stored } : LiveIngress).Inv := by
  rcases hlater with hsame | ⟨hgen, hident⟩
  · -- the blocklace is the same
    have hB : ({ ingress with toLiveIngress := stored } : LiveIngress).blocklace =
      ingress.blocklace := hsame
    refine ⟨h.future, ?_, ?_, ?_⟩
    · rw [hB]
      exact h.cache
    · rw [hB]
      exact h.published
    · rw [hB]
      exact h.reuse
  · -- what was remembered belongs to an earlier generation
    refine ⟨h.future, h.cache.later (Or.inr ⟨hgen, hident⟩), fun fingerprint hfp => ?_,
      fun reuse hreuse => ?_⟩
    · obtain ⟨hle, -⟩ := h.published fingerprint hfp
      exact ⟨(hle.trans_lt hgen).le, fun heq => absurd heq (hle.trans_lt hgen).ne⟩
    · obtain ⟨hle, -⟩ := h.reuse reuse hreuse
      exact ⟨(hle.trans_lt hgen).le, fun _ heq => absurd heq (hle.trans_lt hgen).ne⟩

theorem Inv.invalidate (h : ingress.Inv) : ingress.invalidateFinalizedPrefixReuse.Inv := by
  refine ⟨h.future, h.cache, h.published, fun reuse hreuse => ?_⟩
  obtain ⟨reuse', hreuse', rfl⟩ := Option.map_eq_some_iff.1 hreuse
  exact ⟨(h.reuse reuse' hreuse').1, fun hsafe => by cases hsafe⟩

/-- **One block keeps a saved prefix usable only above the wave of its anchor.** -/
theorem Inv.ingestMirror (h : ingress.Inv) (block : Block) : (ingress.ingestMirror block).2.Inv := by
  have hlater : ingress.blocklace.Later (ingress.mirror.ingest alreadyValidated block).2.blocklace :=
    LiveBlocklaceMirror.ingest_later alreadyValidated ingress.mirror block
  have hinserted := LiveBlocklaceMirror.ingest_inserted alreadyValidated ingress.mirror block
  unfold LiveIngress.ingestMirror
  generalize ingress.mirror.ingest alreadyValidated block = delivered at hlater hinserted ⊢
  obtain ⟨result, mirror⟩ := delivered
  have hafter : ({ ingress with mirror := mirror } : LiveIngress).Inv :=
    h.stored hlater
  cases result with
  | error error => exact hafter.invalidate
  | ok update =>
      refine ⟨hafter.future, hafter.cache, hafter.published, fun reuse hreuse => ?_⟩
      obtain ⟨saved, hsaved, hkept⟩ := Option.map_eq_some_iff.1 hreuse
      have hcases := strictMirrorReuse_cases mirror.blocklace ingress.blocklace.generation
        ingress.blocklace.dom.length update block.identity saved
      have hkept : strictMirrorReuse mirror.blocklace ingress.blocklace.generation
        ingress.blocklace.dom.length update block.identity saved = reuse := hkept
      rw [hkept] at hcases
      rcases hcases with rfl | rfl | ⟨hobserved, hgen, ⟨round, hdeep, hround⟩, rfl⟩
      · exact hafter.reuse reuse hsaved
      · exact ⟨(hafter.reuse saved hsaved).1, fun hsafe => by cases hsafe⟩
      · refine ⟨le_rfl, fun hsafe _ hcp => ?_⟩
        obtain ⟨hblock, hnew⟩ := hinserted hgen
        have hcp : ingress.blocklace.checkpoint = none := hblock.checkpoint.symm.trans hcp
        obtain ⟨B, blocks, A, d, hs⟩ := (h.reuse saved hsaved).2 hsafe hobserved hcp
        have habove : ingress.blocklace.ExtendsAbove mirror.blocklace saved.anchorWaveEnd := by
          refine hblock.extendsAbove hnew hcp fun e he hround' => ?_
          have heq := Option.some.inj (hround.symm.trans hround'.depth)
          omega
        exact ⟨B, blocks, A, d, hs.above.trans habove, hs.ordered, hs.published, hs.anchor, hs.depth,
          hs.last⟩

theorem Inv.ingestTrustedBlock (h : ingress.Inv) (block : Block) (adapter : Except String Unit) :
    (ingress.ingestTrustedBlock block adapter).2.Inv := by
  cases adapter with
  | error message => exact h
  | ok _ => exact h.ingestMirror block

theorem Inv.ingestBlockMessage (h : ingress.Inv) (mapped : Except String Block)
    (adapter : Except String Unit) : (ingress.ingestBlockMessage mapped adapter).2.Inv := by
  cases mapped with
  | error message => exact h
  | ok block =>
      cases adapter with
      | error message => exact h
      | ok _ => exact h.ingestMirror block

theorem Inv.ingestTrustedWindowBlock (h : ingress.Inv) (block : Block)
    (adapter : Except String Unit) : (ingress.ingestTrustedWindowBlock block adapter).2.Inv := by
  have hlater := LiveBlocklaceMirror.ingestWithTrustedBoundary_later alreadyValidated ingress.mirror
    block
  unfold LiveIngress.ingestTrustedWindowBlock
  cases adapter with
  | error message => exact h
  | ok _ =>
      dsimp only
      generalize ingress.mirror.ingestWithTrustedBoundary alreadyValidated block = delivered
        at hlater ⊢
      obtain ⟨result, mirror⟩ := delivered
      have hafter : ({ ingress with mirror := mirror } : LiveIngress).Inv :=
        h.stored hlater
      cases result with
      | error error => exact hafter.invalidate
      | ok update =>
          dsimp only
          split_ifs
          · exact hafter
          · exact hafter.invalidate

theorem Inv.ingestNativeBlock (h : ingress.Inv) (blockHash : NodeId → BlockContent → ContentHash)
    (mapped : Except String ValidatedF1r3nodeBlock) (adapter : Except String Unit)
    (repo : Option RSpaceBlocklaceRepository) (trusted : Bool) :
    (ingress.ingestNativeBlock blockHash mapped adapter repo trusted).2.Inv :=
  h.stored
    (ingress.toLiveIngress.ingestNativeInner_later blockHash mapped adapter repo trusted)

/-- New weights drop what was computed with the old ones. -/
theorem Inv.withWeights (h : ingress.Inv) (bonds : Bonds) : (ingress.withWeights bonds).Inv := by
  refine ⟨h.future, OrderingCache.follows_empty _ _, h.published, fun reuse hreuse => ?_⟩
  obtain ⟨saved, hsaved, rfl⟩ := Option.map_eq_some_iff.1 hreuse
  exact ⟨(h.reuse saved hsaved).1, fun hsafe => by cases hsafe⟩

theorem Inv.setBonds (h : ingress.Inv) (bonds : Bonds) : (ingress.setBonds bonds).Inv := by
  unfold LiveIngress.setBonds
  split_ifs
  · exact h
  · exact h.withWeights bonds

theorem Inv.applyPorWeights (h : ingress.Inv) (hasher : List Byte → ContentHash)
    (s : Reputation.ReputationState) : (ingress.applyPorWeights hasher s).2.Inv := by
  cases hresult : (ingress.applyPorWeights hasher s).1 with
  | error error =>
      rw [applyPorWeights_error hresult]
      exact h
  | ok _ =>
      obtain ⟨next, -, happlied⟩ := applyPorWeights_ok hresult
      rw [happlied]
      exact h.withWeights next

/-! ### Polls -/

theorem fallbackReason_eq_none {B : Blocklace} {fingerprint : FinalizedOutputFingerprint}
    {reuse : FinalizedPrefixReuse} (h : fallbackReason B fingerprint reuse = none) :
    reuse.safeAppend = true ∧ reuse.observedGeneration = fingerprint.generation ∧
      reuse.fingerprint.wavelength = fingerprint.wavelength := by
  unfold fallbackReason at h
  split_ifs at h with hmutated hgen _ _ _ hwavelength _ _
  rw [Bool.not_eq_true', Bool.not_eq_false] at hmutated
  exact ⟨hmutated, not_not.1 hgen, not_not.1 hwavelength⟩

/-- **An extension keeps the cache usable and gives the recomputed output.** -/
theorem Inv.tryExtendFinalizedPrefix (h : ingress.Inv) (wavelength : ℕ) :
    (ingress.tryExtendFinalizedPrefix (ingress.fingerprint wavelength)).2.Follows
        (fun _ => leaders ingress.bonds) ingress.blocklace ∧
      ∀ blocks L,
        (ingress.tryExtendFinalizedPrefix (ingress.fingerprint wavelength)).1 =
          .ok (.ok (blocks, L)) →
        (tryOrderedBlockIdentitiesWithCache ingress.blocklace ingress.bonds wavelength .empty).1 =
          .ok (blocks, some L) := by
  unfold LiveIngress.tryExtendFinalizedPrefix
  cases hreuse : ingress.finalizedPrefixReuse with
  | none => exact ⟨h.cache, fun _ _ hno => by cases hno⟩
  | some reuse =>
      dsimp only
      cases hreason : fallbackReason ingress.blocklace (ingress.fingerprint wavelength) reuse with
      | some reason => exact ⟨h.cache, fun _ _ hno => by cases hno⟩
      | none =>
          dsimp only
          cases hlatest : ingress.sharedOrderedOutput.latest with
          | none => exact ⟨h.cache, fun _ _ hno => by cases hno⟩
          | some previous =>
              refine ⟨verifiedPrefix_follows h.cache, fun blocks L hout => ?_⟩
              obtain ⟨hsafe, hgen, hwavelength⟩ := fallbackReason_eq_none hreason
              have hwavelength : reuse.fingerprint.wavelength = wavelength := hwavelength
              obtain ⟨extended, hextended, hkept⟩ := map_eq_ok.1 hout
              rcases extended with _ | ⟨ordered, anchor⟩
              · cases hkept
              · dsimp only at hkept
                split_ifs at hkept
                obtain ⟨rfl, rfl⟩ := Prod.mk.inj (Except.ok.inj hkept)
                obtain ⟨-, hcp, -⟩ := verifiedPrefix_ok hextended
                obtain ⟨B, saved, A, d, hsaved⟩ := (h.reuse reuse hreuse).2 hsafe hgen hcp
                have hextended : (orderedBlockIdentitiesWithVerifiedPrefix ingress.blocklace
                    ingress.bonds wavelength previous.blocks reuse.anchor
                    ingress.orderingCache).1 = .ok (some (ordered, anchor)) := hextended
                rw [← hwavelength] at hextended ⊢
                exact hsaved.recomputed hlatest h.cache.sound hextended

/-- What a poll computes is the recomputed output. -/
theorem Inv.pollOrdering (h : ingress.Inv) (wavelength : ℕ) :
    (ingress.pollOrdering (ingress.fingerprint wavelength)).2.Follows
        (fun _ => leaders ingress.bonds) ingress.blocklace ∧
      ∀ blocks anchor, (ingress.pollOrdering (ingress.fingerprint wavelength)).1 =
          .ok (blocks, anchor) →
        (tryOrderedBlockIdentitiesWithCache ingress.blocklace ingress.bonds wavelength .empty).1 =
          .ok (blocks, anchor) := by
  obtain ⟨hcache, hextension⟩ := h.tryExtendFinalizedPrefix wavelength
  unfold LiveIngress.pollOrdering
  generalize ingress.tryExtendFinalizedPrefix (ingress.fingerprint wavelength) = extension
    at hcache hextension ⊢
  rcases extension with ⟨error | reason | ⟨extended, L⟩, cache⟩
  · exact ⟨hcache, fun _ _ hno => by cases hno⟩
  · -- the whole blocklace is ordered
    refine ⟨?_, fun blocks anchor hordering => ?_⟩
    · rcases tryOrdered_cache (fun _ => leaders ingress.bonds) wavelength rfl hcache.sound with
        hsame | hcurrent
      · exact hsame.symm ▸ hcache
      · exact hcurrent.follows
    · rw [← tryOrdered_eq_of_sound (fun _ => leaders ingress.bonds) wavelength rfl hcache.sound]
      exact hordering
  · refine ⟨hcache, fun blocks anchor hordering => ?_⟩
    obtain ⟨rfl, rfl⟩ := Prod.mk.inj (Except.ok.inj hordering)
    exact hextension extended L rfl

/-- A poll that computes publishes the recomputed output, and saves it where its anchor has
a wave. -/
theorem Inv.published_poll (h : ingress.Inv) {wavelength : ℕ} {blocks : List BlockIdentity}
    {anchor : Option BlockIdentity} {cache : OrderingCache}
    (hcache : cache.Follows (fun _ => leaders ingress.bonds) ingress.blocklace)
    (hordered : (tryOrderedBlockIdentitiesWithCache ingress.blocklace ingress.bonds wavelength
      .empty).1 = .ok (blocks, anchor)) :
    (({ ingress with
        orderingCache := cache
        sharedOrderedOutput := ⟨some (.new blocks anchor wavelength)⟩
        lastFinalizedOutputFingerprint := some (ingress.fingerprint wavelength) } : LiveIngress
      ).updateFinalizedPrefixReuse (ingress.fingerprint wavelength)
        (.new blocks anchor wavelength)).Inv := by
  refine ⟨h.future, hcache, fun fingerprint hfp => ?_, fun reuse hreuse => ?_⟩
  · obtain rfl := Option.some.inj hfp
    refine ⟨le_rfl, fun _ bonds hweights => ⟨_, rfl, blocks, anchor, ?_, rfl⟩⟩
    rw [tryOrdered_congr hweights]
    exact hordered
  · obtain ⟨_, hanchor, hreuse⟩ := Option.bind_eq_some_iff.1 hreuse
    obtain ⟨A, rfl, rfl⟩ := Option.map_eq_some_iff.1 hanchor
    obtain ⟨d, hdepth, hreuse⟩ := Option.bind_eq_some_iff.1 hreuse
    obtain ⟨wave, hwave, hreuse⟩ := Option.bind_eq_some_iff.1 hreuse
    obtain ⟨last, hlast, hreuse⟩ := Option.bind_eq_some_iff.1 hreuse
    obtain rfl := Option.some.inj hreuse
    obtain ⟨-, rfl⟩ := waveOfRound_eq_some.1 hwave
    refine ⟨le_rfl, fun _ _ _ => ⟨ingress.blocklace, blocks, A, d, ?_⟩⟩
    exact ⟨.refl _ _, hordered, rfl, rfl, hdepth, hlast⟩

/-- **A poll keeps the invariant, and a successful one returns the recomputed output.** -/
theorem Inv.pollOrdinary (h : ingress.Inv) (wavelength : ℕ) :
    (ingress.pollOrdinary wavelength).2.Inv ∧
      ∀ output, (ingress.pollOrdinary wavelength).1 = .ok output →
        Recomputed ingress.blocklace ingress.bonds wavelength output := by
  unfold LiveIngress.pollOrdinary
  cases hsame : ingress.unchangedOutput wavelength with
  | some published =>
      -- nothing changed since the last poll
      refine ⟨h, fun output houtput => ?_⟩
      obtain rfl := Except.ok.inj houtput
      unfold unchangedOutput at hsame
      split_ifs at hsame with hfp
      obtain ⟨-, hpublished⟩ := h.published _ hfp
      obtain ⟨output, hlatest, hrecomputed⟩ := hpublished rfl ingress.bonds rfl
      obtain rfl := Option.some.inj (hlatest.symm.trans hsame)
      exact hrecomputed
  | none =>
      obtain ⟨hcache, hordering⟩ := h.pollOrdering wavelength
      dsimp only
      generalize ingress.pollOrdering (ingress.fingerprint wavelength) = ordering
        at hcache hordering ⊢
      obtain ⟨result, cache⟩ := ordering
      have hafter : ({ ingress with orderingCache := cache } : LiveIngress).Inv :=
        ⟨h.future, hcache, h.published, h.reuse⟩
      rcases result with error | ⟨blocks, anchor⟩
      · exact ⟨hafter, fun output hno => by cases hno⟩
      · have hordered := hordering blocks anchor rfl
        dsimp only
        cases hupdate : ingress.sharedOrderedOutput.update (.new blocks anchor wavelength) with
        | none => exact ⟨hafter, fun output hno => by cases hno⟩
        | some shared =>
            obtain ⟨rfl, -⟩ := SharedOrderedOutput.update_eq_some_iff.1 hupdate
            refine ⟨h.published_poll hcache hordered, fun output houtput => ?_⟩
            obtain rfl := Except.ok.inj houtput
            exact ⟨blocks, anchor, hordered, rfl⟩

theorem latestFinalizedOrderedOutput_of_none (hasher : List Byte → ContentHash)
    (h : ingress.futureEpoch = none) (wavelength : ℕ) :
    ingress.latestFinalizedOrderedOutput hasher wavelength = ingress.pollOrdinary wavelength := by
  unfold latestFinalizedOrderedOutput
  rw [h]

end LiveIngress

/-! ### Runs -/

/-- The calls that install no future epoch. -/
def Call.Ordinary : Call → Prop
  | .install _ _ => False
  | _ => True

namespace LiveIngress

section Runs

variable {ingress : LiveIngress} (hasher : List Byte → ContentHash)
  (blockHash : NodeId → BlockContent → ContentHash)

/-- **Every ordinary call keeps the invariant.** -/
theorem Inv.step (h : ingress.Inv) {call : Call} (hcall : call.Ordinary) :
    (ingress.step hasher blockHash call).Inv := by
  cases call with
  | ingest block adapter => exact h.ingestTrustedBlock block adapter
  | message mapped adapter => exact h.ingestBlockMessage mapped adapter
  | window block adapter => exact h.ingestTrustedWindowBlock block adapter
  | native mapped adapter repo trusted =>
      exact h.ingestNativeBlock blockHash mapped adapter repo trusted
  | poll wavelength =>
      show (ingress.latestFinalizedOrderedOutput hasher wavelength).2.Inv
      rw [latestFinalizedOrderedOutput_of_none hasher h.future]
      obtain ⟨hafter, -⟩ := h.pollOrdinary wavelength
      exact hafter
  | setBonds bonds => exact h.setBonds bonds
  | activate s => exact h.applyPorWeights hasher s
  | install record committed => exact hcall.elim

theorem Inv.run (calls : List Call) (h : ingress.Inv) (hcalls : ∀ call ∈ calls, call.Ordinary) :
    (ingress.run hasher blockHash calls).Inv := by
  induction calls generalizing ingress with
  | nil => exact h
  | cons call calls ih =>
      have hfirst := h.step hasher blockHash (hcalls call List.mem_cons_self)
      exact ih hfirst fun call hcall => hcalls call (List.mem_cons_of_mem _ hcall)

/-- **Incremental polls never diverge from full recomputation.**  After every run of calls,
a successful poll returns what ordering the current blocklace with the current bonds from an
empty cache gives. -/
theorem poll_eq_recomputed (stored : Persistence.LiveIngress) (bonds : Bonds) (calls : List Call)
    (hcalls : ∀ call ∈ calls, call.Ordinary) (wavelength : ℕ) (output : OrderedFinalizedOutput)
    (hpoll : (((start stored bonds).run hasher blockHash calls).latestFinalizedOrderedOutput hasher
      wavelength).1 = .ok output) :
    Recomputed ((start stored bonds).run hasher blockHash calls).blocklace
      ((start stored bonds).run hasher blockHash calls).bonds wavelength output := by
  have hinv := (inv_start stored bonds).run hasher blockHash calls hcalls
  rw [latestFinalizedOrderedOutput_of_none hasher hinv.future] at hpoll
  obtain ⟨-, hrecomputed⟩ := hinv.pollOrdinary wavelength
  exact hrecomputed output hpoll

end Runs

end LiveIngress

/-! ### A run that extends -/

/-- The steady chain, with a poll before its last block. -/
def extendingCalls : List Call :=
  ((leadingChain []).take 4).map (Call.ingest · (.ok ())) ++
    .poll 1 :: ((leadingChain []).drop 4).map (Call.ingest · (.ok ()))

/-- The ingress after these calls. -/
def extendingIngress : LiveIngress :=
  (LiveIngress.start (.new 0) unevenBonds).run (fun _ => 0) (fun _ _ => 0) extendingCalls

/-- The last poll extends the first one, and returns the recomputed output. -/
theorem poll_eq_recomputed_extendingCalls :
    (extendingIngress.tryExtendFinalizedPrefix (extendingIngress.fingerprint 1)).1 =
        .ok (.ok (steadyOutput.blocks, sampleId 40 1)) ∧
      (extendingIngress.latestFinalizedOrderedOutput (fun _ => 0) 1).1 = .ok steadyOutput ∧
      Recomputed extendingIngress.blocklace extendingIngress.bonds 1 steadyOutput := by
  have hordinary : ∀ call ∈ extendingCalls, call.Ordinary := by
    simp [extendingCalls, leadingChain, Call.Ordinary]
  have hpoll : (extendingIngress.latestFinalizedOrderedOutput (fun _ => 0) 1).1 =
      .ok steadyOutput := by decide +kernel
  refine ⟨by decide +kernel, hpoll, ?_⟩
  exact LiveIngress.poll_eq_recomputed (fun _ => 0) (fun _ _ => 0) (.new 0) unevenBonds
    extendingCalls hordinary 1 steadyOutput hpoll

end Output

end CordialMiners
