/-
# An ordering holds its anchor

What every ordering of `consensus/ordering.rs` satisfies, whoever the leaders are and
whatever an earlier call has left in the cache: the leader it is computed from stands
in the output, once (`Anchored`).

The sort can fail in one way only.  Below a leader the references run downwards,
except those of the checkpoint, which depths do not follow: a block that the
checkpoint refers to, forgotten by the prune and stored again on top of it, closes a
cycle (`CheckpointCycle`).

The entries of a cache are right in this sense for the blocklace at its generation
(`OrderingCache.Anchored`); a cached call keeps that without knowing which leader
functions the earlier calls were given.
-/

import CordialMiners.Ordering.CacheRuns

namespace CordialMiners

open FinGraph Relation

/-- A list of consensus identities without repetition. -/
structure PlainList (ordered : List BlockIdentity) : Prop where
  nodup : ordered.Nodup
  plain : ∀ x ∈ ordered, x.consensusIdentity = x

theorem plainList_nil : PlainList [] := ⟨List.nodup_nil, by simp⟩

theorem nodup_emitAll {ordered : List BlockIdentity} (ids : List BlockIdentity)
    (h : ordered.Nodup) : (emitAll ordered ids).Nodup := by
  unfold emitAll
  induction ids generalizing ordered with
  | nil => exact h
  | cons id ids ih =>
      rw [List.foldl_cons]
      split_ifs with hmem
      · exact ih h
      · refine ih (List.nodup_append.2 ⟨h, List.nodup_singleton id, ?_⟩)
        rintro x hx y hy rfl
        exact hmem (List.mem_singleton.1 hy ▸ hx)

/-- Emitting consensus identities keeps the list plain. -/
theorem PlainList.emitAll_map {ordered : List BlockIdentity} (h : PlainList ordered)
    (ids : List BlockIdentity) :
    PlainList (emitAll ordered (ids.map BlockIdentity.consensusIdentity)) := by
  refine ⟨nodup_emitAll _ h.nodup, fun x hx => ?_⟩
  obtain hx | hx := mem_emitAll.1 hx
  · exact h.plain x hx
  · obtain ⟨y, -, rfl⟩ := List.mem_map.1 hx
    rfl

/-- **Exactly one identity of the output is that of the leader.** -/
structure Anchored (L : BlockIdentity) (out : List BlockIdentity) : Prop extends
    PlainList out where
  mem : L.consensusIdentity ∈ out

theorem Anchored.countP_eq_one {L : BlockIdentity} {out : List BlockIdentity}
    (h : Anchored L out) :
    out.countP (fun id => id.consensusIdentity = L.consensusIdentity) = 1 := by
  have hcount : out.countP (fun id => id.consensusIdentity = L.consensusIdentity) =
      out.count L.consensusIdentity := by
    refine List.countP_congr fun x hx => ?_
    rw [decide_eq_true_eq, h.plain x hx, beq_iff_eq]
  rw [hcount]
  exact List.count_eq_one_of_mem h.nodup h.mem

namespace Blocklace

variable {B B' : Blocklace} {c L x : BlockIdentity} {d : ℕ} {S : Set BlockIdentity}
  {l ordered : List BlockIdentity}

/-! ### When a sort fails -/

/-- A reference of the checkpoint names a block that sees the checkpoint. -/
def CheckpointCycle (B : Blocklace) : Prop :=
  ∃ c p, B.checkpoint = some c ∧ B.Refers c p ∧ B.Sees p c

/-- Where every block has a round, only a cycle through the checkpoint keeps a block out of
the order. -/
theorem Sorted.covers_of_no_cycle (hno : ¬ B.CheckpointCycle)
    (hround : ∀ x ∈ S, ∃ d, B.Round x d) (h : B.Sorted S l) (hx : x ∈ S) : x ∈ l := by
  classical
  choose! round hround using hround
  -- what sees the checkpoint comes after what does not, and then the rounds decide
  let rank : BlockIdentity → ℕ ×ₗ ℕ := fun x =>
    toLex (if ∃ c, B.checkpoint = some c ∧ B.Sees x c then 1 else 0, round x)
  have hrank : Subrelation (fun p x => p ∈ S ∧ x ∈ S ∧ B.Refers x p) (InvImage (· < ·) rank) := by
    rintro p x ⟨hp, hx, href⟩
    show rank p < rank x
    rw [Prod.Lex.lt_iff]
    simp only [rank, ofLex_toLex]
    by_cases hcp : B.checkpoint = some x
    · rw [if_neg, if_pos ⟨x, hcp, .refl B x⟩]
      · exact Or.inl Nat.zero_lt_one
      · rintro ⟨c, hc, hsees⟩
        obtain rfl := Option.some.inj (hcp.symm.trans hc)
        exact hno ⟨x, p, hcp, href, hsees⟩
    · have hstep := (refers_iff_mem_expand hcp (hround x hx).mem).1 href
      have hlt : round p < round x :=
        (hround p hp).lt_of_below (hround x hx) (TransGen.single hstep)
      by_cases hp : ∃ c, B.checkpoint = some c ∧ B.Sees p c
      · have hx : ∃ c, B.checkpoint = some c ∧ B.Sees x c := by
          obtain ⟨c, hc, hsees⟩ := hp
          exact ⟨c, hc, ReflTransGen.head hstep hsees⟩
        rw [if_pos hp, if_pos hx]
        exact Or.inr ⟨rfl, hlt⟩
      · rw [if_neg hp]
        split_ifs
        · exact Or.inl Nat.zero_lt_one
        · exact Or.inr ⟨rfl, hlt⟩
  exact Greedy.mem_of_wellFounded (hrank.wf (InvImage.wf rank wellFounded_lt)) h hx
    (Set.notMem_empty x)

/-- **The sort of what a leader approves** fails on a cycle through the checkpoint only, and
holds the leader. -/
theorem xsort_approvedBlocksForLeader (hL : B.Round L d) :
    (∃ l : List BlockIdentity, L ∈ l ∧
      xsort (B.approvedBlocksForLeader L) = .ok (l.map BlockIdentity.consensusIdentity)) ∨
    (∃ e, xsort (B.approvedBlocksForLeader L) = .error e) ∧ B.CheckpointCycle := by
  have hlisted := approvedBlocksForLeader_listed B L
  by_cases hcycle : B.CheckpointCycle
  · cases hsort : xsort (B.approvedBlocksForLeader L) with
    | error e => exact Or.inr ⟨⟨e, rfl⟩, hcycle⟩
    | ok out =>
        obtain ⟨l, -, hall, rfl⟩ := hlisted.xsort_eq_ok.1 hsort
        rw [idsOf_approvedBlocksForLeader] at hall
        exact Or.inl ⟨l, hall L (mem_approvedSet_self hL), rfl⟩
  · have hsorted := hlisted.sorted
    have hall := fun x => Sorted.covers_of_no_cycle (x := x) hcycle (fun y hy => by
      rw [idsOf_approvedBlocksForLeader, mem_approvedSet_iff hL] at hy
      obtain ⟨e, -, he⟩ := hL.of_sees hy.sees
      exact ⟨e, he⟩) hsorted
    refine Or.inl ⟨_, hall L ?_, hlisted.xsort_eq_ok.2 ⟨_, hsorted, hall, rfl⟩⟩
    rw [idsOf_approvedBlocksForLeader]
    exact mem_approvedSet_self hL

/-! ### The stored prefix of the checkpoint -/

/-- A stored prefix holds the checkpoint. -/
structure PrefixAnchored (B : Blocklace) : Prop where
  count : ∀ c, B.checkpoint = some c → B.checkpointOrderPrefix ≠ [] →
    c.consensusIdentity ∈ B.checkpointOrderPrefix.map BlockIdentity.consensusIdentity
  stake : ∀ c, B.checkpoint = some c → B.checkpointWeightedOrderPrefix ≠ [] →
    c.consensusIdentity ∈ B.checkpointWeightedOrderPrefix.map BlockIdentity.consensusIdentity

theorem prefixAnchored_new (token : ℕ) : (Blocklace.new token).PrefixAnchored :=
  ⟨fun _ hc => absurd hc (by simp [Blocklace.new]), fun _ hc => absurd hc (by simp [Blocklace.new])⟩

theorem PrefixAnchored.ladder (h : B.PrefixAnchored) (votes : Votes) (hc : B.checkpoint = some c)
    (hne : votes.ladder.orderPrefix B ≠ []) :
    c.consensusIdentity ∈ (votes.ladder.orderPrefix B).map BlockIdentity.consensusIdentity := by
  cases votes with
  | count n f => exact h.count c hc hne
  | stake weights => exact h.stake c hc hne

end Blocklace

/-! ### Cached walks -/

namespace OrderingCache

/-- The entries for the blocklace as it is: a previous leader lies in an earlier round, an
output holds its leader, and a failed one comes of a cycle. -/
structure Anchored (B : Blocklace) (cache : OrderingCache) : Prop where
  identity : cache.cacheBlocklaceIdentity = some B.cacheIdentity
  generation : cache.cacheGeneration = (B.generation, B.dom.length)
  previous : ∀ key P d, cache.previousFinalByLeader.lookup key = some (some P) →
    B.Round key.leader d → ∃ e < d, B.Round P e
  output : ∀ key out, cache.tauOutputByLatestLeader.lookup key = some (.ok out) →
    CordialMiners.Anchored key.leader out
  failure : ∀ key e, cache.tauOutputByLatestLeader.lookup key = some (.error e) →
    B.CheckpointCycle

variable {B : Blocklace} {cache : OrderingCache}

theorem anchored_sync (h : cache.cacheBlocklaceIdentity = some B.cacheIdentity →
    cache.cacheGeneration = (B.generation, B.dom.length) → cache.Anchored B) :
    (cache.sync B).Anchored B := by
  unfold OrderingCache.sync
  split_ifs with hstale
  · exact ⟨rfl, rfl, by simp, by simp, by simp⟩
  · rw [not_or, not_not, not_not] at hstale
    exact h hstale.1 hstale.2

theorem Anchored.sync_eq (h : cache.Anchored B) : cache.sync B = cache := by
  unfold OrderingCache.sync
  rw [if_neg]
  rw [not_or, not_not, not_not]
  exact ⟨h.identity, h.generation⟩

theorem Anchored.insert_previous (h : cache.Anchored B) (key : LeaderKey)
    {previous : Option BlockIdentity}
    (hprev : ∀ P d, previous = some P → B.Round key.leader d → ∃ e < d, B.Round P e) :
    ({ cache with previousFinalByLeader := cache.previousFinalByLeader.insert key previous } :
      OrderingCache).Anchored B := by
  refine ⟨h.identity, h.generation, fun key' P d hP => ?_, h.output, h.failure⟩
  by_cases hkey : key' = key
  · subst hkey
    rw [AList.lookup_insert] at hP
    exact hprev P d (Option.some.inj hP)
  · rw [AList.lookup_insert_ne hkey] at hP
    exact h.previous key' P d hP

theorem Anchored.insert_output (h : cache.Anchored B) (key : LeaderKey)
    {result : Except OrderingError (List BlockIdentity)}
    (hok : ∀ out, result = .ok out → CordialMiners.Anchored key.leader out)
    (herror : ∀ e, result = .error e → B.CheckpointCycle) :
    ({ cache with tauOutputByLatestLeader := cache.tauOutputByLatestLeader.insert key result } :
      OrderingCache).Anchored B := by
  refine ⟨h.identity, h.generation, h.previous, fun key' out hr => ?_, fun key' e hr => ?_⟩
  all_goals
    by_cases hkey : key' = key
    · subst hkey
      rw [AList.lookup_insert] at hr
      first
      | exact hok out (Option.some.inj hr)
      | exact herror e (Option.some.inj hr)
    · rw [AList.lookup_insert_ne hkey] at hr
      first
      | exact h.output key' out hr
      | exact h.failure key' e hr

end OrderingCache

namespace Blocklace

variable {B B' : Blocklace} {c L x anchor : BlockIdentity} {d fuel : ℕ}
  {ordered : List BlockIdentity} {cache : OrderingCache} {config : TauConfig}
  {Q : Quorum.Rule NodeId}

/-- A cached lookup of the previous leader finds one of an earlier round. -/
theorem previousFinalLeaderCached_anchored (config : TauConfig) (hQ : config.votes.ladder.Decides Q)
    (h : cache.Anchored B) (L : BlockIdentity) :
    (∀ P d, (B.previousFinalLeaderCached L config cache).1 = some P → B.Round L d →
      ∃ e < d, B.Round P e) ∧
      (B.previousFinalLeaderCached L config cache).2.Anchored B := by
  unfold previousFinalLeaderCached
  rw [h.sync_eq]
  simp only
  cases hl : cache.previousFinalByLeader.lookup (config.key L) with
  | some previous =>
      refine ⟨fun P d hP hL => ?_, h⟩
      exact h.previous (config.key L) P d (hl.trans (congrArg some hP)) hL
  | none =>
      have hprev : ∀ P d, config.votes.ladder.previous B L config.wavelength
          config.leaderSelection = some P → B.Round L d → ∃ e < d, B.Round P e :=
        fun P d hP hL => hL.of_below (Ladder.previous_below hQ hL hP)
      exact ⟨hprev, h.insert_previous (config.key L) hprev⟩

/-- What a walk from `L` returns. -/
def WalkFrom (B : Blocklace) (L : BlockIdentity)
    (result : Except OrderingError (List BlockIdentity)) : Prop :=
  match result with
  | .ok out => Anchored L out
  | .error _ => B.CheckpointCycle

theorem plainList_emitBelow (ladder : Ladder) (B : Blocklace) (L : BlockIdentity)
    (h : PlainList ordered) : PlainList (ladder.emitBelow B L ordered) := by
  unfold Ladder.emitBelow
  split
  · exact h
  · next checkpoint _ =>
    unfold Ladder.emitCheckpointPrefix
    split_ifs
    · exact h
    · exact h.emitAll_map _

/-- **A cached walk returns an output with its leader**, and leaves the cache in order. -/
theorem tauFromLeaderCached_anchored (hB : B.PrefixAnchored)
    (hQ : config.votes.ladder.Decides Q) (hL : B.Round L d) (hfuel : d < fuel)
    (hordered : PlainList ordered) (h : cache.Anchored B) :
    B.WalkFrom L (B.tauFromLeaderCached config fuel L ordered cache).1 ∧
      (B.tauFromLeaderCached config fuel L ordered cache).2.Anchored B := by
  induction fuel generalizing L d ordered cache with
  | zero => exact absurd hfuel (Nat.not_lt_zero d)
  | succ fuel ih =>
      rw [tauFromLeaderCached]
      cases hcp : config.votes.ladder.emitCheckpointPrefix B L ordered with
      | some out =>
          unfold Ladder.emitCheckpointPrefix at hcp
          split_ifs at hcp with hpre
          rw [not_or, not_not] at hpre
          obtain rfl := Option.some.inj hcp
          refine ⟨⟨hordered.emitAll_map _, mem_emitAll.2 (Or.inr ?_)⟩, h⟩
          exact hB.ladder config.votes hpre.1 hpre.2
      | none =>
          obtain ⟨hprev, hcache⟩ := previousFinalLeaderCached_anchored config hQ h L
          -- the fragment of the leader on top of what was emitted below it
          have htop : ∀ {below : List BlockIdentity} {cache' : OrderingCache}, PlainList below →
              cache'.Anchored B →
              B.WalkFrom L ((B.sortedApprovedFragment L cache').1.map (emitAll below)) ∧
                (B.sortedApprovedFragment L cache').2.Anchored B := by
            intro below cache' hbelow hcache'
            refine ⟨?_, ?_⟩
            · obtain ⟨l, hmem, hsort⟩ | ⟨⟨e, hsort⟩, hcycle⟩ := xsort_approvedBlocksForLeader hL
              · simp only [sortedApprovedFragment, hsort]
                exact ⟨hbelow.emitAll_map l,
                  mem_emitAll.2 (Or.inr (List.mem_map_of_mem hmem))⟩
              · simp only [sortedApprovedFragment, hsort]
                exact hcycle
            · simp only [sortedApprovedFragment, hcache'.sync_eq]
              exact hcache'
          generalize B.previousFinalLeaderCached L config cache = step at hprev hcache ⊢
          obtain ⟨previous, cache₁⟩ := step
          cases previous with
          | none => exact htop (plainList_emitBelow _ B L hordered) hcache
          | some P =>
              obtain ⟨e, hlt, hP⟩ := hprev P d rfl hL
              obtain ⟨hwalk, hcache'⟩ := ih hP (by omega : e < fuel) hordered hcache
              simp only
              generalize B.tauFromLeaderCached config fuel P ordered cache₁ = walk at hwalk hcache' ⊢
              obtain ⟨below, cache₂⟩ := walk
              cases below with
              | error e => exact ⟨hwalk, hcache'⟩
              | ok below => exact htop hwalk.toPlainList hcache'

/-- The suffix walk leaves the cache in order. -/
theorem tauSuffixFromLeaderCached_anchored (hQ : config.votes.ladder.Decides Q)
    (anchor : BlockIdentity) (fuel : ℕ) (L : BlockIdentity) (ordered : List BlockIdentity)
    (h : cache.Anchored B) :
    (B.tauSuffixFromLeaderCached config anchor fuel L ordered cache).2.Anchored B := by
  induction fuel generalizing L ordered cache with
  | zero => exact h
  | succ fuel ih =>
      rw [tauSuffixFromLeaderCached]
      split_ifs with hhit hcp
      · exact h
      · exact h
      · obtain ⟨-, hcache⟩ := previousFinalLeaderCached_anchored config hQ h L
        generalize B.previousFinalLeaderCached L config cache = step at hcache ⊢
        obtain ⟨previous, cache₁⟩ := step
        cases previous with
        | none => exact hcache
        | some P =>
            have hcache' := ih P ordered hcache
            simp only
            generalize B.tauSuffixFromLeaderCached config anchor fuel P ordered cache₁ = walk
              at hcache' ⊢
            obtain ⟨reaches, cache₂⟩ := walk
            cases reaches with
            | error e => exact hcache'
            | ok reached =>
                cases reached with
                | none => exact hcache'
                | some below =>
                    simp only [sortedApprovedFragment, hcache'.sync_eq]
                    exact hcache'

/-- **A cached ordering holds the latest leader**, is empty without one, and fails on a cycle
through the checkpoint only. -/
theorem orderedWithCache_anchored (config : TauConfig) (hB : B.PrefixAnchored)
    (hQ : config.votes.ladder.Decides Q)
    (h : cache.cacheBlocklaceIdentity = some B.cacheIdentity →
      cache.cacheGeneration = (B.generation, B.dom.length) → cache.Anchored B) :
    (match config.votes.ladder.latest B config.wavelength config.leaderSelection with
      | none => (B.orderedWithCache config cache).1 = .ok []
      | some L => B.WalkFrom L (B.orderedWithCache config cache).1) ∧
      (B.orderedWithCache config cache).2.Anchored B := by
  have hcache := OrderingCache.anchored_sync h
  unfold orderedWithCache
  cases hL : config.votes.ladder.latest B config.wavelength config.leaderSelection with
  | none => exact ⟨rfl, hcache⟩
  | some L =>
      simp only
      cases hl : (cache.sync B).tauOutputByLatestLeader.lookup (config.key L) with
      | some result =>
          refine ⟨?_, hcache⟩
          cases result with
          | ok out => exact hcache.output _ out hl
          | error e => exact hcache.failure _ e hl
      | none =>
          obtain ⟨wave, hscan, -⟩ := (Ladder.latest_iff hQ).1 hL
          have hfuel : wave * config.wavelength < Ladder.tauFuel B L := by
            unfold Ladder.tauFuel
            rw [hscan.round.depth, Option.getD_some]
            omega
          obtain ⟨hwalk, hcache'⟩ := tauFromLeaderCached_anchored hB hQ hscan.round hfuel
            plainList_nil hcache
          refine ⟨hwalk, hcache'.insert_output (config.key L) (fun out hout => ?_) fun e he => ?_⟩
          · rw [hout] at hwalk
            exact hwalk
          · rw [he] at hwalk
            exact hwalk

end Blocklace

end CordialMiners
