/-
# The buffer over whole runs

Five maps are kept in step by four ways in and out: a block is admitted, forgotten
once it is stored or rejected, evicted for room, or dropped as stale.  `InStep`
says what the maps have in common; every call keeps it, for every policy and every
blocklace a call is given.

The proofs rest on one observation.  Apart from admission, a call only forgets
entries or rewrites values under keys that are there, so an invariant that
`forget` keeps is kept by a retry (`retryLoop_of_forget`).
-/

import CordialMiners.Node.PendingBuffer

namespace CordialMiners

open FinGraph

namespace PendingBlockBuffer

/-- `buffer_block_with_missing_predecessors`. -/
def bufferBlockWithMissingPredecessors (buffer : PendingBlockBuffer) (block : Block) :
    BufferOutcome × PendingBlockBuffer :=
  buffer.bufferBlockWithMissingPredecessorsKnown block []

end PendingBlockBuffer

/-- A call of a buffer, with all that it is given. -/
inductive BufferCall where
  | buffer (block : Block)
  | bufferKnown (block : Block) (missing : List BlockIdentity)
  | takeResolved (B : Blocklace)
  | retry (crypto : BlockCrypto) (bonds : Bonds) (config : ValidationConfig) (B : Blocklace)
  | evictStale
  | forget (id : BlockIdentity)

namespace PendingBlockBuffer

/-- What a call leaves in the buffer. -/
def call (buffer : PendingBlockBuffer) : BufferCall → PendingBlockBuffer
  | .buffer block => (buffer.bufferBlockWithMissingPredecessors block).2
  | .bufferKnown block missing => (buffer.bufferBlockWithMissingPredecessorsKnown block missing).2
  | .takeResolved B => (buffer.takeResolvedPredecessors B).2
  | .retry crypto bonds config B => (buffer.retryBufferedBlocks crypto bonds config B).2.1
  | .evictStale => buffer.evictStale
  | .forget id => buffer.forget id

/-- What a sequence of calls leaves. -/
def calls (buffer : PendingBlockBuffer) (cs : List BufferCall) : PendingBlockBuffer :=
  cs.foldl call buffer

/-- The maps of a buffer have the same keys, and it is within its policy. -/
structure InStep (buffer : PendingBlockBuffer) : Prop where
  capacity : buffer.bufferedBlocks.keys.length ≤ buffer.policy.maxEntries
  quota : ∀ creator, buffer.entriesByCreator creator ≤ buffer.policy.maxEntriesPerCreator
  missing : ∀ id, id ∈ buffer.missingPredecessors ↔ id ∈ buffer.bufferedBlocks
  arrival : ∀ id, id ∈ buffer.arrival ↔ id ∈ buffer.bufferedBlocks
  retries : ∀ id, id ∈ buffer.retryPasses ↔ id ∈ buffer.bufferedBlocks
  before : ∀ id n, buffer.arrival.lookup id = some n → n < buffer.nextArrival
  distinct : ∀ i j n, buffer.arrival.lookup i = some n → buffer.arrival.lookup j = some n → i = j

variable {buffer : PendingBlockBuffer} {id : BlockIdentity}

theorem inStep_withPolicy (policy : BufferPolicy) : InStep (withPolicy policy) := by
  refine ⟨Nat.zero_le _, fun _ => Nat.zero_le _, ?_, ?_, ?_, ?_, ?_⟩ <;>
    simp [withPolicy, AList.notMem_empty]

/-! ### Forgetting -/

theorem InStep.forget (h : InStep buffer) (id : BlockIdentity) : InStep (buffer.forget id) := by
  have hsub : (buffer.forget id).bufferedBlocks.keys.Sublist buffer.bufferedBlocks.keys := by
    show (buffer.bufferedBlocks.erase id).keys.Sublist _
    rw [AList.keys_erase]
    exact List.erase_sublist
  -- what is left of the arrival numbers was there before
  have hleft : ∀ {i n}, (buffer.forget id).arrival.lookup i = some n →
      buffer.arrival.lookup i = some n := by
    intro i n hi
    by_cases hid : i = id
    · have hnone : (buffer.forget id).arrival.lookup id = none := AList.lookup_erase _ _
      rw [hid, hnone] at hi
      cases hi
    · exact (AList.lookup_erase_ne hid).symm.trans hi
  refine ⟨?_, fun creator => ?_, fun i => ?_, fun i => ?_, fun i => ?_, fun i n hi => ?_,
    fun i j n hi hj => ?_⟩
  · exact hsub.length_le.trans h.capacity
  · exact ((hsub.filter _).length_le).trans (h.quota creator)
  · exact AList.mem_erase.trans ((and_congr_right fun _ => h.missing i).trans AList.mem_erase.symm)
  · exact AList.mem_erase.trans ((and_congr_right fun _ => h.arrival i).trans AList.mem_erase.symm)
  · exact AList.mem_erase.trans ((and_congr_right fun _ => h.retries i).trans AList.mem_erase.symm)
  · exact h.before i n (hleft hi)
  · exact h.distinct i j n (hleft hi) (hleft hj)

/-- What forgetting keeps is kept when several entries are forgotten. -/
theorem forgetAll_of_forget (P : PendingBlockBuffer → Prop)
    (hforget : ∀ buffer id, P buffer → P (buffer.forget id)) (ids : List BlockIdentity)
    (h : P buffer) : P (ids.foldl forget buffer) := by
  induction ids generalizing buffer with
  | nil => exact h
  | cons id ids ih => exact ih (hforget _ id h)

/-- What forgetting keeps is kept by the passes of a retry. -/
theorem retryLoop_of_forget (P : PendingBlockBuffer → Prop)
    (hforget : ∀ buffer id, P buffer → P (buffer.forget id)) (crypto : BlockCrypto) (bonds : Bonds)
    (config : ValidationConfig) (fuel : ℕ) (B : Blocklace) (h : P buffer) :
    P (retryLoop crypto bonds config fuel buffer B).2.1 := by
  induction fuel generalizing buffer B with
  | zero => exact h
  | succ fuel ih =>
      have hrest := forgetAll_of_forget P hforget (buffer.retryPass crypto bonds config B).resolved h
      unfold retryLoop
      simp only
      split_ifs
      · exact ih _ hrest
      · exact hrest

/-! ### Rewriting values -/

/-- Values written under some keys add these keys. -/
theorem mem_foldl_insert {β : Type} (f : AList (fun _ : BlockIdentity => β) → BlockIdentity → β)
    (ids : List BlockIdentity) (m : AList fun _ : BlockIdentity => β) (i : BlockIdentity) :
    i ∈ ids.foldl (fun m id => m.insert id (f m id)) m ↔ i ∈ ids ∨ i ∈ m := by
  induction ids generalizing m with
  | nil => simp
  | cons id ids ih =>
      rw [List.foldl_cons, ih, AList.mem_insert, List.mem_cons]
      tauto

theorem InStep.takeResolvedPredecessors (h : InStep buffer) (B : Blocklace) :
    InStep (buffer.takeResolvedPredecessors B).2 := by
  refine ⟨h.capacity, h.quota, fun i => ?_, h.arrival, h.retries, h.before, h.distinct⟩
  have hkeys := mem_foldl_insert (fun _ id => ((buffer.missingPredecessors.lookup id).getD []).filter
    fun parent => (B.content parent).isNone) buffer.missingPredecessors.keys
    buffer.missingPredecessors i
  rw [AList.mem_keys.symm, or_self, AList.mem_keys] at hkeys
  exact hkeys.trans (h.missing i)

theorem InStep.countRetry (h : InStep buffer) : InStep buffer.countRetry := by
  refine ⟨h.capacity, h.quota, h.missing, h.arrival, fun i => ?_, h.before, h.distinct⟩
  have hkeys := mem_foldl_insert (fun m id => (m.lookup id).getD 0 + 1) buffer.bufferedBlocks.keys
    buffer.retryPasses i
  rw [AList.mem_keys.symm, h.retries i, or_self] at hkeys
  exact hkeys

/-- The counters are not bookkeeping. -/
theorem InStep.withStats (h : InStep buffer) (stats : BufferStats) :
    InStep { buffer with stats := stats } :=
  ⟨h.capacity, h.quota, h.missing, h.arrival, h.retries, h.before, h.distinct⟩

/-- With the maps in step there is no orphaned bookkeeping to drop. -/
theorem InStep.evictStale (h : InStep buffer) : InStep buffer.evictStale := by
  have hkept := forgetAll_of_forget InStep (fun _ id h => h.forget id)
    (buffer.bufferedBlocks.keys.filter fun id =>
      buffer.policy.maxRetryPasses < (buffer.retryPasses.lookup id).getD 0) h
  unfold PendingBlockBuffer.evictStale
  simp only
  generalize (buffer.bufferedBlocks.keys.filter fun id =>
    buffer.policy.maxRetryPasses < (buffer.retryPasses.lookup id).getD 0) = stale at hkept ⊢
  set kept := stale.foldl PendingBlockBuffer.forget buffer
  have harrival : (kept.arrival.keys.filter fun id => id ∉ kept.bufferedBlocks) = [] := by
    refine List.filter_eq_nil_iff.2 fun id hid => ?_
    simpa using (hkept.arrival id).1 (AList.mem_keys.2 hid)
  have hretries : (kept.retryPasses.keys.filter fun id => id ∉ kept.bufferedBlocks) = [] := by
    refine List.filter_eq_nil_iff.2 fun id hid => ?_
    simpa using (hkept.retries id).1 (AList.mem_keys.2 hid)
  rw [harrival, hretries]
  exact hkept.withStats _

theorem InStep.retryBufferedBlocks (h : InStep buffer) (crypto : BlockCrypto) (bonds : Bonds)
    (config : ValidationConfig) (B : Blocklace) :
    InStep (buffer.retryBufferedBlocks crypto bonds config B).2.1 :=
  (retryLoop_of_forget InStep (fun _ id h => h.forget id) crypto bonds config _ B
    h).countRetry.evictStale

/-! ### Admission -/

/-- A new entry under a new arrival number, where there is room for it. -/
theorem InStep.admitted (h : InStep buffer) (hid : id ∉ buffer.bufferedBlocks)
    (hroom : buffer.bufferedBlocks.keys.length < buffer.policy.maxEntries)
    (hquota : buffer.entriesByCreator id.creator < buffer.policy.maxEntriesPerCreator)
    (content : BlockContent) (missing : List BlockIdentity) :
    InStep
      { buffer with
        arrival := buffer.arrival.insert id buffer.nextArrival
        nextArrival := buffer.nextArrival + 1
        retryPasses := buffer.retryPasses.insert id 0
        missingPredecessors := buffer.missingPredecessors.insert id missing
        bufferedBlocks := buffer.bufferedBlocks.insert id content } := by
  have hkeys : (buffer.bufferedBlocks.insert id content).keys = id :: buffer.bufferedBlocks.keys := by
    rw [AList.keys_insert, List.erase_of_not_mem (fun hmem => hid (AList.mem_keys.2 hmem))]
  -- an arrival number is the new one, or an old one of another entry
  have hlookup : ∀ {i n}, (buffer.arrival.insert id buffer.nextArrival).lookup i = some n →
      i = id ∧ n = buffer.nextArrival ∨
        i ≠ id ∧ buffer.arrival.lookup i = some n ∧ n < buffer.nextArrival := by
    intro i n hi
    by_cases heq : i = id
    · rw [heq, AList.lookup_insert] at hi
      exact Or.inl ⟨heq, (Option.some.inj hi).symm⟩
    · rw [AList.lookup_insert_ne heq] at hi
      exact Or.inr ⟨heq, hi, h.before i n hi⟩
  refine ⟨?_, fun creator => ?_, fun i => ?_, fun i => ?_, fun i => ?_, fun i n hi => ?_,
    fun i j n hi hj => ?_⟩
  · show (buffer.bufferedBlocks.insert id content).keys.length ≤ buffer.policy.maxEntries
    rw [hkeys, List.length_cons]
    omega
  · show ((buffer.bufferedBlocks.insert id content).keys.filter fun i => i.creator = creator).length ≤
      buffer.policy.maxEntriesPerCreator
    have hold : (buffer.bufferedBlocks.keys.filter fun i => i.creator = creator).length ≤
      buffer.policy.maxEntriesPerCreator := h.quota creator
    rw [hkeys, List.filter_cons]
    split_ifs with hcreator
    · have hless : (buffer.bufferedBlocks.keys.filter fun i => i.creator = creator).length <
          buffer.policy.maxEntriesPerCreator := by
        rw [← of_decide_eq_true hcreator]
        exact hquota
      rw [List.length_cons]
      omega
    · exact hold
  · exact (AList.mem_insert _).trans ((or_congr_right (h.missing i)).trans (AList.mem_insert _).symm)
  · exact (AList.mem_insert _).trans ((or_congr_right (h.arrival i)).trans (AList.mem_insert _).symm)
  · exact (AList.mem_insert _).trans ((or_congr_right (h.retries i)).trans (AList.mem_insert _).symm)
  · show n < buffer.nextArrival + 1
    rcases hlookup hi with ⟨-, rfl⟩ | ⟨-, -, hlt⟩
    · omega
    · omega
  · rcases hlookup hi with ⟨rfl, hn⟩ | ⟨-, hi, hlt⟩ <;> rcases hlookup hj with ⟨rfl, hn'⟩ | ⟨-, hj, hlt'⟩
    · rfl
    · omega
    · omega
    · exact h.distinct i j n hi hj

/-- A held block is refreshed in place. -/
theorem InStep.refreshed (h : InStep buffer) (hid : id ∈ buffer.bufferedBlocks)
    (content : BlockContent) (missing : List BlockIdentity) :
    InStep
      { buffer with
        bufferedBlocks := buffer.bufferedBlocks.insert id content
        missingPredecessors := buffer.missingPredecessors.insert id missing } := by
  have hkeys : (buffer.bufferedBlocks.insert id content).keys.Perm buffer.bufferedBlocks.keys := by
    rw [AList.keys_insert]
    exact (List.perm_cons_erase (AList.mem_keys.1 hid)).symm
  have hmem : ∀ i, i ∈ buffer.bufferedBlocks.insert id content ↔ i ∈ buffer.bufferedBlocks :=
    fun i => (AList.mem_insert _).trans (or_iff_right_of_imp fun heq => heq ▸ hid)
  refine ⟨?_, fun creator => ?_, fun i => ?_, fun i => ?_, fun i => ?_, h.before, h.distinct⟩
  · exact hkeys.length_eq.trans_le h.capacity
  · exact (hkeys.filter _).length_eq.trans_le (h.quota creator)
  · exact (AList.mem_insert _).trans ((or_congr_right (h.missing i)).trans (AList.mem_insert _).symm)
  · exact (h.arrival i).trans (hmem i).symm
  · exact (h.retries i).trans (hmem i).symm

/-- A full buffer has an oldest entry. -/
theorem exists_oldestEntry (hpos : 0 < buffer.bufferedBlocks.keys.length) :
    ∃ victim, buffer.oldestEntry = some victim ∧ victim ∈ buffer.bufferedBlocks := by
  cases hold : buffer.oldestEntry with
  | none =>
      rw [List.argmin_eq_none.1 hold] at hpos
      exact absurd hpos (by simp)
  | some victim => exact ⟨victim, rfl, AList.mem_keys.2 (List.argmin_mem hold)⟩

/-- After an eviction there is room for one entry, unless nothing may be held. -/
theorem InStep.evictForCapacity (h : InStep buffer) (hpos : 0 < buffer.policy.maxEntries) :
    InStep buffer.evictForCapacity.2 ∧
      buffer.evictForCapacity.2.policy = buffer.policy ∧
      buffer.evictForCapacity.2.bufferedBlocks.keys.length < buffer.policy.maxEntries ∧
      buffer.evictForCapacity.2.bufferedBlocks.keys.Sublist buffer.bufferedBlocks.keys := by
  unfold PendingBlockBuffer.evictForCapacity
  split_ifs with hfull
  · have hsome : 0 < buffer.bufferedBlocks.keys.length := by omega
    obtain ⟨victim, hold, hvictim⟩ := exists_oldestEntry hsome
    have hkeys : (buffer.forget victim).bufferedBlocks.keys =
        buffer.bufferedBlocks.keys.erase victim := AList.keys_erase _ _
    rw [hold]
    refine ⟨(h.forget victim).withStats _, rfl, ?_, ?_⟩
    · show (buffer.forget victim).bufferedBlocks.keys.length < _
      rw [hkeys, List.length_erase_of_mem (AList.mem_keys.1 hvictim)]
      have := h.capacity
      omega
    · show (buffer.forget victim).bufferedBlocks.keys.Sublist _
      rw [hkeys]
      exact List.erase_sublist
  · exact ⟨h, rfl, not_le.1 hfull, List.Sublist.refl _⟩

theorem InStep.bufferBlock (h : InStep buffer) (block : Block) (missing : List BlockIdentity) :
    InStep (buffer.bufferBlockWithMissingPredecessorsKnown block missing).2 := by
  unfold bufferBlockWithMissingPredecessorsKnown
  simp only
  split_ifs with hzero hheld hquota
  · exact h
  · exact h.refreshed hheld block.content missing
  · exact h.withStats _
  · obtain ⟨hroom, hpolicy, hlt, hsub⟩ := h.evictForCapacity (Nat.pos_of_ne_zero hzero)
    have hfresh : block.identity ∉ buffer.evictForCapacity.2.bufferedBlocks := fun hmem =>
      hheld (AList.mem_keys.2 (hsub.subset (AList.mem_keys.1 hmem)))
    have hless : buffer.evictForCapacity.2.entriesByCreator block.identity.creator <
        buffer.evictForCapacity.2.policy.maxEntriesPerCreator := by
      rw [hpolicy]
      exact ((hsub.filter _).length_le).trans_lt (not_le.1 hquota)
    have hadmitted := hroom.admitted hfresh (hpolicy ▸ hlt) hless block.content missing
    rcases heq : buffer.evictForCapacity with ⟨_ | victim, room⟩
    · rw [heq] at hadmitted
      exact hadmitted
    · rw [heq] at hadmitted
      exact hadmitted

/-! ### Runs -/

theorem InStep.call (h : InStep buffer) (c : BufferCall) : InStep (buffer.call c) := by
  cases c with
  | buffer block => exact h.bufferBlock block []
  | bufferKnown block missing => exact h.bufferBlock block missing
  | takeResolved B => exact h.takeResolvedPredecessors B
  | retry crypto bonds config B => exact h.retryBufferedBlocks crypto bonds config B
  | evictStale => exact h.evictStale
  | forget id => exact h.forget id

theorem InStep.calls (h : InStep buffer) (cs : List BufferCall) : InStep (buffer.calls cs) := by
  induction cs generalizing buffer with
  | nil => exact h
  | cons c cs ih => exact ih (h.call c)

/-- What a call leaves alone. -/
structure Held (buffer buffer' : PendingBlockBuffer) : Prop where
  policy : buffer'.policy = buffer.policy
  nextArrival : buffer'.nextArrival ≤ buffer.nextArrival + 1

theorem held_call (c : BufferCall) : Held buffer (buffer.call c) := by
  -- everything but admission keeps the policy and the next arrival number
  have hforget : ∀ (b : PendingBlockBuffer) id, b.policy = buffer.policy ∧
      b.nextArrival = buffer.nextArrival → (b.forget id).policy = buffer.policy ∧
      (b.forget id).nextArrival = buffer.nextArrival := fun _ _ h => h
  have hstale : ∀ b : PendingBlockBuffer, b.policy = buffer.policy ∧
      b.nextArrival = buffer.nextArrival → Held buffer b.evictStale := by
    intro b hb
    obtain ⟨hpolicy, hnext⟩ := forgetAll_of_forget _ hforget
      (b.bufferedBlocks.keys.filter fun id =>
        b.policy.maxRetryPasses < (b.retryPasses.lookup id).getD 0) hb
    exact ⟨hpolicy, hnext.trans_le (Nat.le_succ _)⟩
  have hbuffer : ∀ block missing,
      Held buffer (buffer.bufferBlockWithMissingPredecessorsKnown block missing).2 := by
    intro block missing
    unfold bufferBlockWithMissingPredecessorsKnown
    simp only
    split_ifs
    · exact ⟨rfl, Nat.le_succ _⟩
    · exact ⟨rfl, Nat.le_succ _⟩
    · exact ⟨rfl, Nat.le_succ _⟩
    · obtain hroom | ⟨victim, hroom⟩ := evictForCapacity_cases buffer
      · rw [hroom]
        exact ⟨rfl, le_rfl⟩
      · rw [hroom]
        exact ⟨rfl, le_rfl⟩
  cases c with
  | buffer block => exact hbuffer block []
  | bufferKnown block missing => exact hbuffer block missing
  | takeResolved B => exact ⟨rfl, Nat.le_succ _⟩
  | retry crypto bonds config B =>
      exact hstale _ (retryLoop_of_forget _ hforget crypto bonds config _ B ⟨rfl, rfl⟩)
  | evictStale => exact hstale buffer ⟨rfl, rfl⟩
  | forget id => exact ⟨rfl, Nat.le_succ _⟩

theorem policy_calls (cs : List BufferCall) : (buffer.calls cs).policy = buffer.policy := by
  induction cs generalizing buffer with
  | nil => rfl
  | cons c cs ih => exact ih.trans (held_call c).policy

/-- A call uses at most one arrival number, so no run of fewer than `2^64` calls
exhausts the counter. -/
theorem nextArrival_calls_le (cs : List BufferCall) :
    (buffer.calls cs).nextArrival ≤ buffer.nextArrival + cs.length := by
  induction cs generalizing buffer with
  | nil => exact le_rfl
  | cons c cs ih =>
      have hcall : (buffer.call c).nextArrival ≤ buffer.nextArrival + 1 := (held_call c).nextArrival
      have hrest : ((buffer.call c).calls cs).nextArrival ≤
        (buffer.call c).nextArrival + cs.length := ih
      show ((buffer.call c).calls cs).nextArrival ≤ buffer.nextArrival + (cs.length + 1)
      omega

/-- What a retry leaves misses a reference, whatever is checked on admission. -/
theorem exists_missing_of_retried (crypto : BlockCrypto) (bonds : Bonds) (config : ValidationConfig)
    (B : Blocklace) {content : BlockContent}
    (h : (buffer.retryBufferedBlocks crypto bonds config B).2.1.bufferedBlocks.lookup id =
      some content) :
    ∃ p ∈ content.predecessors,
      (buffer.retryBufferedBlocks crypto bonds config B).2.2.content p = none := by
  have hloop := @retryLoop_settled crypto bonds config (buffer.bufferedBlocks.keys.length + 1) buffer B
    (Nat.lt_succ_self _)
  have hmem : (⟨id, content⟩ : Block) ∈ BlockMap.toSet
      (retryLoop crypto bonds config (buffer.bufferedBlocks.keys.length + 1) buffer
        B).2.1.bufferedBlocks :=
    (evictStale_spec (retryLoop crypto bonds config (buffer.bufferedBlocks.keys.length + 1) buffer
      B).2.1.countRetry).1 h
  obtain ⟨-, hwait⟩ := hloop _ hmem
  by_contra hall
  refine hwait fun p hp => Blocklace.content_isSome_iff.1 ?_
  exact Option.isSome_iff_ne_none.2 fun hnone => hall ⟨p, hp, hnone⟩

/-- **The buffer keeps its books.**  After any calls under any policy it is within
its limits, its maps have the buffered blocks as keys, and the arrival numbers are
distinct; and what a retry leaves lacks a reference. -/
theorem buffer_invariants (policy : BufferPolicy) (cs : List BufferCall) :
    ((withPolicy policy).calls cs).policy = policy ∧
      InStep ((withPolicy policy).calls cs) ∧
      ∀ crypto bonds config B, ∀ id content,
        (((withPolicy policy).calls cs).retryBufferedBlocks crypto bonds config
            B).2.1.bufferedBlocks.lookup id = some content →
          ∃ p ∈ content.predecessors,
            (((withPolicy policy).calls cs).retryBufferedBlocks crypto bonds config
              B).2.2.content p = none :=
  ⟨policy_calls cs, (inStep_withPolicy policy).calls cs,
    fun crypto bonds config B _ _ h => exists_missing_of_retried crypto bonds config B h⟩

end PendingBlockBuffer

end CordialMiners
