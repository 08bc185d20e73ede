/-
# The buffer of blocks that arrived before their references

`BufferPolicy` and `PendingBlockBuffer` of `consensus/dissemination.rs`.

Admission is bounded by the policy: a creator over its quota is refused, a full
buffer evicts its oldest entry, and a block that a number of retries did not
resolve is dropped.  The counters of `BufferStats` say whether one of the limits
was ever reached.  `retryBufferedBlocks` replays the buffered blocks in identity
order, in passes, as long as a pass inserts one.

The proofs use the buffer through `visit_cases`, everything that one visit of a
pass can do, and `retry_spec`, what a whole retry has done.
-/

import CordialMiners.Validation.Admission

namespace CordialMiners

open FinGraph

/-- Bounds on how many blocks may be held awaiting their causal history. -/
structure BufferPolicy where
  maxEntries : ℕ
  maxEntriesPerCreator : ℕ
  maxRetryPasses : ℕ
deriving DecidableEq, Repr

/-- `BufferPolicy::default`. -/
def BufferPolicy.default : BufferPolicy := ⟨4096, 256, 64⟩

/-- Why a block was or was not admitted to the buffer. -/
inductive BufferOutcome where
  | buffered
  | alreadyBuffered
  | bufferedEvicting (victim : BlockIdentity)
  | rejectedCreatorQuota (creator : NodeId)
  | rejectedZeroCapacity
deriving DecidableEq, Repr

/-- Counters for buffer pressure; the number of buffered blocks is read off the buffer. -/
structure BufferStats where
  evictedForCapacity : ℕ
  evictedStale : ℕ
  rejectedCreatorQuota : ℕ
deriving DecidableEq, Repr

/-- A buffer for blocks that arrive out of order. -/
structure PendingBlockBuffer where
  bufferedBlocks : BlockMap
  missingPredecessors : AList fun _ : BlockIdentity => List BlockIdentity
  policy : BufferPolicy
  arrival : AList fun _ : BlockIdentity => ℕ
  retryPasses : AList fun _ : BlockIdentity => ℕ
  nextArrival : ℕ
  stats : BufferStats

/-- A replay may no longer find the error. -/
def isRetryableBufferError : InvalidBlock → Bool
  | .missingPredecessors _ => true
  | _ => false

/-- All errors are of that kind. -/
def shouldKeepBufferedAfterValidation (errors : List InvalidBlock) : Bool :=
  errors.all isRetryableBufferError

namespace PendingBlockBuffer

/-- An empty buffer. -/
def withPolicy (policy : BufferPolicy) : PendingBlockBuffer where
  bufferedBlocks := ∅
  missingPredecessors := ∅
  policy := policy
  arrival := ∅
  retryPasses := ∅
  nextArrival := 0
  stats := ⟨0, 0, 0⟩

def new : PendingBlockBuffer := withPolicy .default

/-- How many blocks of a creator wait. -/
def entriesByCreator (buffer : PendingBlockBuffer) (creator : NodeId) : ℕ :=
  (buffer.bufferedBlocks.keys.filter fun id => id.creator = creator).length

/-- The entry that arrived first; identities break ties. -/
def oldestEntry (buffer : PendingBlockBuffer) : Option BlockIdentity :=
  buffer.bufferedBlocks.keys.argmin fun id =>
    toLex ((buffer.arrival.lookup id).getD 0, id)

/-- Drop a block that waits. -/
def forget (buffer : PendingBlockBuffer) (id : BlockIdentity) : PendingBlockBuffer :=
  { buffer with
    bufferedBlocks := buffer.bufferedBlocks.erase id
    missingPredecessors := buffer.missingPredecessors.erase id
    arrival := buffer.arrival.erase id
    retryPasses := buffer.retryPasses.erase id }

/-- Make room for one entry: the victim, and the buffer without it. -/
def evictForCapacity (buffer : PendingBlockBuffer) : Option BlockIdentity × PendingBlockBuffer :=
  if buffer.policy.maxEntries ≤ buffer.bufferedBlocks.keys.length then
    match buffer.oldestEntry with
    | none => (none, buffer)
    | some victim =>
        (some victim,
          { buffer.forget victim with
            stats := { buffer.stats with
              evictedForCapacity := buffer.stats.evictedForCapacity + 1 } })
  else (none, buffer)

/-- Buffer a block with the references that were missing when it arrived. -/
def bufferBlockWithMissingPredecessorsKnown (buffer : PendingBlockBuffer) (block : Block)
    (missing : List BlockIdentity) : BufferOutcome × PendingBlockBuffer :=
  let id := block.identity
  if buffer.policy.maxEntries = 0 then (.rejectedZeroCapacity, buffer)
  else if id ∈ buffer.bufferedBlocks then
    (.alreadyBuffered,
      { buffer with
        bufferedBlocks := buffer.bufferedBlocks.insert id block.content
        missingPredecessors := buffer.missingPredecessors.insert id missing })
  else if buffer.policy.maxEntriesPerCreator ≤ buffer.entriesByCreator id.creator then
    (.rejectedCreatorQuota id.creator,
      { buffer with stats := { buffer.stats with
          rejectedCreatorQuota := buffer.stats.rejectedCreatorQuota + 1 } })
  else
    let (evicted, room) := buffer.evictForCapacity
    let admitted : PendingBlockBuffer :=
      { room with
        arrival := room.arrival.insert id room.nextArrival
        nextArrival := room.nextArrival + 1
        retryPasses := room.retryPasses.insert id 0
        missingPredecessors := room.missingPredecessors.insert id missing
        bufferedBlocks := room.bufferedBlocks.insert id block.content }
    match evicted with
    | some victim => (.bufferedEvicting victim, admitted)
    | none => (.buffered, admitted)

/-- Take out the references that have become available; also the pairs of block
and reference, sorted. -/
def takeResolvedPredecessors (buffer : PendingBlockBuffer) (B : Blocklace) :
    List (BlockIdentity × BlockIdentity) × PendingBlockBuffer :=
  let resolved := buffer.missingPredecessors.entries.flatMap fun entry =>
    (entry.2.filter fun parent => (B.content parent).isSome).map fun parent => (entry.1, parent)
  (resolved.insertionSort fun a b => toLex a ≤ toLex b,
    { buffer with
      missingPredecessors := buffer.missingPredecessors.keys.foldl (fun m id =>
        m.insert id (((buffer.missingPredecessors.lookup id).getD []).filter fun parent =>
          (B.content parent).isNone)) buffer.missingPredecessors })

/-- Drop the entries that failed more than `maxRetryPasses` retries. -/
def evictStale (buffer : PendingBlockBuffer) : PendingBlockBuffer :=
  let stale := buffer.bufferedBlocks.keys.filter fun id =>
    buffer.policy.maxRetryPasses < (buffer.retryPasses.lookup id).getD 0
  let kept := stale.foldl forget buffer
  { kept with
    stats := { kept.stats with evictedStale := kept.stats.evictedStale + stale.length }
    arrival := (kept.arrival.keys.filter (· ∉ kept.bufferedBlocks)).foldl
      (fun m id => m.erase id) kept.arrival
    retryPasses := (kept.retryPasses.keys.filter (· ∉ kept.bufferedBlocks)).foldl
      (fun m id => m.erase id) kept.retryPasses }

/-- Everything still held has failed to resolve once more. -/
def countRetry (buffer : PendingBlockBuffer) : PendingBlockBuffer :=
  { buffer with
    retryPasses := buffer.bufferedBlocks.keys.foldl (fun m id =>
      m.insert id ((m.lookup id).getD 0 + 1)) buffer.retryPasses }

/-! ### The replay -/

/-- The state of a pass over the buffered blocks. -/
structure RetryPass where
  blocklace : Blocklace
  resolved : List BlockIdentity
  rejected : List (Block × List InvalidBlock)
  progress : Bool

section Replay

variable (crypto : BlockCrypto) (bonds : Bonds) (config : ValidationConfig)

/-- One visit of a pass: a known block is resolved, one whose references are all
there is validated and inserted, kept, or reported as rejected. -/
def visit (buffered : BlockMap) (s : RetryPass) (id : BlockIdentity) : RetryPass :=
  if (s.blocklace.content id).isSome then { s with resolved := s.resolved ++ [id] }
  else
    match buffered.lookup id with
    | none => s
    | some content =>
        if content.predecessors.all fun pred => (s.blocklace.content pred).isSome then
          match s.blocklace.validatedInsert crypto ⟨id, content⟩ bonds config with
          | (.valid, B) => { s with blocklace := B, resolved := s.resolved ++ [id], progress := true }
          | (.invalid errors, B) =>
              if shouldKeepBufferedAfterValidation errors then { s with blocklace := B }
              else
                { s with
                  blocklace := B
                  resolved := s.resolved ++ [id]
                  rejected := s.rejected ++ [(⟨id, content⟩, errors)] }
        else s

/-- One pass, in identity order. -/
def retryPass (buffer : PendingBlockBuffer) (B : Blocklace) : RetryPass :=
  (buffer.bufferedBlocks.keys.insertionSort (· ≤ ·)).foldl
    (visit crypto bonds config buffer.bufferedBlocks) ⟨B, [], [], false⟩

/-- The passes of a retry; a pass that inserts a block shortens the buffer. -/
def retryLoop : ℕ → PendingBlockBuffer → Blocklace →
    List (Block × List InvalidBlock) × PendingBlockBuffer × Blocklace
  | 0, buffer, B => ([], buffer, B)
  | fuel + 1, buffer, B =>
      let pass := buffer.retryPass crypto bonds config B
      let rest := pass.resolved.foldl forget buffer
      if pass.progress then
        let later := retryLoop fuel rest pass.blocklace
        (pass.rejected ++ later.1, later.2)
      else (pass.rejected, rest, pass.blocklace)

/-- `retry_buffered_blocks`: the rejected blocks with their errors, the buffer and
the blocklace. -/
def retryBufferedBlocks (buffer : PendingBlockBuffer) (B : Blocklace) :
    List (Block × List InvalidBlock) × PendingBlockBuffer × Blocklace :=
  let r := retryLoop crypto bonds config (buffer.bufferedBlocks.keys.length + 1) buffer B
  (r.1, r.2.1.countRetry.evictStale, r.2.2)

end Replay

/-! ### What a visit does -/

open Blocklace (Admitted AdmitRun)

variable {crypto : BlockCrypto} {bonds : Bonds} {config : ValidationConfig} {buffered : BlockMap}
  {buffer : PendingBlockBuffer} {B B' : Blocklace} {s : RetryPass} {id : BlockIdentity} {x : Block}
  {errors : List InvalidBlock}

theorem not_shouldKeep (hav : Available Block.refs B.Resolves x)
    (h : B.validateBlock crypto x bonds config = .invalid errors) :
    shouldKeepBufferedAfterValidation errors = false := by
  obtain ⟨error, herror⟩ := List.exists_mem_of_ne_nil _ (Blocklace.errors_ne_nil h)
  by_contra hkeep
  have hretry := List.all_eq_true.1 (Bool.eq_true_of_not_eq_false hkeep) error herror
  cases error with
  | missingPredecessors missing =>
      have herr : InvalidBlock.missingPredecessors missing ∈
          (B.validateBlock crypto x bonds config).errors := by
        rw [h]
        exact herror
      exact Blocklace.missingPredecessors_mem_errors herr
        (Blocklace.absentPredecessors_eq_nil_iff_available.2 hav)
  | _ => exact absurd hretry (by simp [isRetryableBufferError])

/-- **Everything a visit can do.** -/
theorem visit_cases (crypto : BlockCrypto) (bonds : Bonds) (config : ValidationConfig)
    (buffered : BlockMap) (s : RetryPass) (id : BlockIdentity) :
    (s.blocklace.Resolves id ∧
      visit crypto bonds config buffered s id = { s with resolved := s.resolved ++ [id] }) ∨
    (¬ s.blocklace.Resolves id ∧
      (∀ content, buffered.lookup id = some content →
        ¬ Available Block.refs s.blocklace.Resolves ⟨id, content⟩) ∧
      visit crypto bonds config buffered s id = s) ∨
    (∃ content B', buffered.lookup id = some content ∧
      Admitted crypto bonds config s.blocklace ⟨id, content⟩ B' ∧
      visit crypto bonds config buffered s id =
        { s with blocklace := B', resolved := s.resolved ++ [id], progress := true }) ∨
    ∃ content errors, buffered.lookup id = some content ∧
      Available Block.refs s.blocklace.Resolves ⟨id, content⟩ ∧
      s.blocklace.validateBlock crypto ⟨id, content⟩ bonds config = .invalid errors ∧
      visit crypto bonds config buffered s id =
        { s with resolved := s.resolved ++ [id],
                 rejected := s.rejected ++ [(⟨id, content⟩, errors)] } := by
  unfold visit
  by_cases hknown : (s.blocklace.content id).isSome = true
  · exact .inl ⟨Blocklace.content_isSome_iff.1 hknown, by rw [if_pos hknown]⟩
  · have hres : ¬ s.blocklace.Resolves id := fun h => hknown (Blocklace.content_isSome_iff.2 h)
    simp only [if_neg hknown]
    refine .inr ?_
    cases hlookup : buffered.lookup id with
    | none => exact .inl ⟨hres, by simp, rfl⟩
    | some content =>
        have hready : (content.predecessors.all fun pred => (s.blocklace.content pred).isSome) =
            true ↔ Available Block.refs s.blocklace.Resolves ⟨id, content⟩ := by
          rw [List.all_eq_true]
          exact forall₂_congr fun p _ => Blocklace.content_isSome_iff
        by_cases hav : Available Block.refs s.blocklace.Resolves ⟨id, content⟩
        · simp only [if_pos (hready.2 hav)]
          refine .inr ?_
          obtain ⟨hvalid, B', hcommit, heq⟩ | ⟨errors, hinvalid, heq⟩ :=
            @Blocklace.validatedInsert_cases s.blocklace ⟨id, content⟩ crypto bonds config
          · exact .inl ⟨content, B', rfl, ⟨hvalid, hcommit⟩, by rw [heq]⟩
          · refine .inr ⟨content, errors, rfl, hav, hinvalid, ?_⟩
            rw [heq]
            simp only [not_shouldKeep hav hinvalid]
            rfl
        · simp only [if_neg (fun h => hav (hready.1 h))]
          refine .inl ⟨hres, fun c hc => ?_, trivial⟩
          obtain rfl := Option.some.inj hc
          exact hav

/-! ### What a pass does -/

/-- A block has been rejected at some blocklace between `B` and `B'`. -/
def RejectedBetween (crypto : BlockCrypto) (bonds : Bonds) (config : ValidationConfig)
    (allowed : Set Block) (B B' : Blocklace) (x : Block) (errors : List InvalidBlock) : Prop :=
  x ∈ allowed ∧ ∃ B₁, AdmitRun crypto bonds config allowed B B₁ ∧
    AdmitRun crypto bonds config allowed B₁ B' ∧ Available Block.refs B₁.Resolves x ∧
    B₁.validateBlock crypto x bonds config = .invalid errors

/-- What the progress flag says of a pass that started at `B` and has visited `visited`. -/
structure PassQuiet (buffered : BlockMap) (B : Blocklace) (visited : List BlockIdentity)
    (s : RetryPass) : Prop where
  quiet : s.progress = false → s.blocklace = B ∧ ∀ id ∈ visited, id ∈ s.resolved ∨
    ¬ B.Resolves id ∧ ∀ content, buffered.lookup id = some content →
      ¬ Available Block.refs B.Resolves ⟨id, content⟩
  moved : s.progress = true → ∃ id ∈ s.resolved, id ∈ buffered

theorem PassQuiet.visit {visited : List BlockIdentity} (h : PassQuiet buffered B visited s)
    (id : BlockIdentity) :
    PassQuiet buffered B (visited ++ [id]) (visit crypto bonds config buffered s id) := by
  have hvisited : ∀ {P : BlockIdentity → Prop}, (∀ i ∈ visited, P i) → P id →
      ∀ i ∈ visited ++ [id], P i := by
    intro P hall hid i hi
    obtain hi | hi := List.mem_append.1 hi
    · exact hall i hi
    · exact List.mem_singleton.1 hi ▸ hid
  -- a block that is resolved without an insertion leaves the flag alone
  have hresolved : ∀ rejected,
      PassQuiet buffered B (visited ++ [id])
        { s with resolved := s.resolved ++ [id], rejected := rejected } := by
    refine fun rejected => ⟨fun hp => ?_, fun hp => ?_⟩
    · refine ⟨(h.quiet hp).1, hvisited (fun i hi => ?_) (.inl (by simp))⟩
      exact ((h.quiet hp).2 i hi).imp_left (List.mem_append_left _)
    · obtain ⟨i, hi, hib⟩ := h.moved hp
      exact ⟨i, List.mem_append_left _ hi, hib⟩
  obtain ⟨-, heq⟩ | ⟨hnot, hwait, heq⟩ | ⟨content, B', hl, -, heq⟩ | ⟨content, errors, -, -, -, heq⟩ :=
    visit_cases crypto bonds config buffered s id
  · rw [heq]
    exact hresolved s.rejected
  · rw [heq]
    refine ⟨fun hp => ?_, h.moved⟩
    rw [(h.quiet hp).1] at hnot hwait
    exact ⟨(h.quiet hp).1, hvisited (h.quiet hp).2 (.inr ⟨hnot, hwait⟩)⟩
  · rw [heq]
    have hmem : (⟨id, content⟩ : Block) ∈ BlockMap.toSet buffered := hl
    exact ⟨fun hp => absurd hp (by simp), fun _ => ⟨id, by simp, BlockMap.mem_of_mem_toSet hmem⟩⟩
  · rw [heq]
    exact hresolved _

/-- The state of a pass that started at `B` and has visited `visited`. -/
structure PassInv (crypto : BlockCrypto) (bonds : Bonds) (config : ValidationConfig)
    (buffered : BlockMap) (B : Blocklace) (visited : List BlockIdentity) (s : RetryPass) : Prop where
  run : AdmitRun crypto bonds config (BlockMap.toSet buffered) B s.blocklace
  resolved : ∀ id ∈ s.resolved, s.blocklace.Resolves id ∨
    ∃ x errors, x.identity = id ∧ x ∈ BlockMap.toSet buffered ∧ (x, errors) ∈ s.rejected
  rejected : ∀ x errors, (x, errors) ∈ s.rejected →
    RejectedBetween crypto bonds config (BlockMap.toSet buffered) B s.blocklace x errors
  quiet : s.progress = false → s.blocklace = B ∧ ∀ id ∈ visited, id ∈ s.resolved ∨
    ¬ B.Resolves id ∧ ∀ content, buffered.lookup id = some content →
      ¬ Available Block.refs B.Resolves ⟨id, content⟩
  moved : s.progress = true → ∃ id ∈ s.resolved, id ∈ buffered

theorem PassInv.visit {visited : List BlockIdentity} (hclosure : config.checkClosure = true)
    (h : PassInv crypto bonds config buffered B visited s) (id : BlockIdentity) :
    PassInv crypto bonds config buffered B (visited ++ [id])
      (visit crypto bonds config buffered s id) := by
  have hquiet : PassQuiet buffered B (visited ++ [id])
      (PendingBlockBuffer.visit crypto bonds config buffered s id) :=
    (PassQuiet.mk h.quiet h.moved).visit id
  refine ⟨?_, ?_, ?_, hquiet.quiet, hquiet.moved⟩
  all_goals
    obtain ⟨hknown, heq⟩ | ⟨hnot, hwait, heq⟩ | ⟨content, B', hl, hadm, heq⟩ |
      ⟨content, errors, hl, hav, hinvalid, heq⟩ := visit_cases crypto bonds config buffered s id
    all_goals rw [heq]
  · exact h.run
  · exact h.run
  · exact .store h.run hl hadm
  · exact h.run
  · intro i hi
    obtain hi | hi := List.mem_append.1 hi
    · exact h.resolved i hi
    · exact .inl (List.mem_singleton.1 hi ▸ hknown)
  · exact h.resolved
  · have hins := hadm.inserted hclosure
    intro i hi
    obtain hi | hi := List.mem_append.1 hi
    · exact (h.resolved i hi).imp_left fun hr => hins.resolves_iff.2 (.inl hr)
    · exact .inl (hins.resolves_iff.2 (.inr (List.mem_singleton.1 hi ▸ ⟨rfl, .inl rfl⟩)))
  · intro i hi
    obtain hi | hi := List.mem_append.1 hi
    · refine (h.resolved i hi).imp_right ?_
      rintro ⟨x, errs, hxi, hxb, hx⟩
      exact ⟨x, errs, hxi, hxb, List.mem_append_left _ hx⟩
    · exact .inr ⟨⟨id, content⟩, errors, (List.mem_singleton.1 hi).symm, hl, by simp⟩
  · exact h.rejected
  · exact h.rejected
  · intro x errors hx
    obtain ⟨hxb, B₁, hto, hfrom, hav, hinv⟩ := h.rejected x errors hx
    exact ⟨hxb, B₁, hto, .store hfrom hl hadm, hav, hinv⟩
  · intro x errs hx
    obtain hx | hx := List.mem_append.1 hx
    · exact h.rejected x errs hx
    · obtain ⟨rfl, rfl⟩ := Prod.mk.inj (List.mem_singleton.1 hx)
      exact ⟨hl, s.blocklace, h.run, .refl _, hav, hinvalid⟩

/-- What every visit preserves holds after the visits of a pass. -/
theorem foldl_visit (crypto : BlockCrypto) (bonds : Bonds) (config : ValidationConfig)
    (P : List BlockIdentity → RetryPass → Prop)
    (hvisit : ∀ visited s id, P visited s →
      P (visited ++ [id]) (visit crypto bonds config buffered s id))
    (ids : List BlockIdentity) {visited : List BlockIdentity} (h : P visited s) :
    P (visited ++ ids) (ids.foldl (visit crypto bonds config buffered) s) := by
  induction ids generalizing visited s with
  | nil => rwa [List.append_nil, List.foldl_nil]
  | cons id ids ih =>
      rw [List.foldl_cons, List.append_cons]
      exact ih (hvisit _ _ id h)

theorem passQuiet_retryPass (buffer : PendingBlockBuffer) (B : Blocklace) :
    PassQuiet buffer.bufferedBlocks B (buffer.bufferedBlocks.keys.insertionSort (· ≤ ·))
      (buffer.retryPass crypto bonds config B) := by
  have hstart : PassQuiet buffer.bufferedBlocks B [] ⟨B, [], [], false⟩ :=
    ⟨fun _ => ⟨rfl, by simp⟩, by simp⟩
  have hpass := foldl_visit crypto bonds config (PassQuiet buffer.bufferedBlocks B)
    (fun _ _ id h => h.visit id) (buffer.bufferedBlocks.keys.insertionSort (· ≤ ·)) hstart
  rwa [List.nil_append] at hpass

theorem passInv_retryPass (hclosure : config.checkClosure = true) (buffer : PendingBlockBuffer)
    (B : Blocklace) :
    PassInv crypto bonds config buffer.bufferedBlocks B
      (buffer.bufferedBlocks.keys.insertionSort (· ≤ ·))
      (buffer.retryPass crypto bonds config B) := by
  have hstart : PassInv crypto bonds config buffer.bufferedBlocks B [] ⟨B, [], [], false⟩ :=
    ⟨.refl _, by simp, by simp, fun _ => ⟨rfl, by simp⟩, by simp⟩
  have hpass := foldl_visit crypto bonds config (PassInv crypto bonds config buffer.bufferedBlocks B)
    (fun _ _ id h => h.visit hclosure id) (buffer.bufferedBlocks.keys.insertionSort (· ≤ ·)) hstart
  rwa [List.nil_append] at hpass

/-! ### What a retry does -/

@[simp] theorem forget_stats (buffer : PendingBlockBuffer) (id : BlockIdentity) :
    (buffer.forget id).stats = buffer.stats := rfl

@[simp] theorem forget_policy (buffer : PendingBlockBuffer) (id : BlockIdentity) :
    (buffer.forget id).policy = buffer.policy := rfl

theorem forgetAll_stats (ids : List BlockIdentity) (buffer : PendingBlockBuffer) :
    (ids.foldl forget buffer).stats = buffer.stats := by
  induction ids generalizing buffer with
  | nil => rfl
  | cons id ids ih => rw [List.foldl_cons, ih, forget_stats]

theorem forgetAll_policy (ids : List BlockIdentity) (buffer : PendingBlockBuffer) :
    (ids.foldl forget buffer).policy = buffer.policy := by
  induction ids generalizing buffer with
  | nil => rfl
  | cons id ids ih => rw [List.foldl_cons, ih, forget_policy]

theorem lookup_forgetAll (ids : List BlockIdentity) (buffer : PendingBlockBuffer)
    (i : BlockIdentity) :
    (ids.foldl forget buffer).bufferedBlocks.lookup i =
      if i ∈ ids then none else buffer.bufferedBlocks.lookup i := by
  induction ids generalizing buffer with
  | nil => simp
  | cons id ids ih =>
      rw [List.foldl_cons, ih]
      by_cases hmem : i ∈ ids
      · simp [hmem]
      · by_cases hid : i = id
        · subst hid
          simp [hmem, forget, AList.lookup_erase]
        · simp [hmem, hid, forget, AList.lookup_erase_ne hid]

theorem mem_forgetAll_iff (ids : List BlockIdentity) (buffer : PendingBlockBuffer) :
    x ∈ BlockMap.toSet (ids.foldl forget buffer).bufferedBlocks ↔
      x ∈ BlockMap.toSet buffer.bufferedBlocks ∧ x.identity ∉ ids := by
  rw [BlockMap.mem_toSet, BlockMap.mem_toSet, lookup_forgetAll]
  split_ifs with h
  · simp [h]
  · simp [h]

/-- Forgetting a buffered block shortens the buffer. -/
theorem length_forgetAll_lt {ids : List BlockIdentity} (hid : id ∈ ids)
    (hmem : id ∈ buffer.bufferedBlocks) :
    (ids.foldl forget buffer).bufferedBlocks.keys.length < buffer.bufferedBlocks.keys.length := by
  have hsub : (ids.foldl forget buffer).bufferedBlocks.keys ⊆ buffer.bufferedBlocks.keys.erase id := by
    intro i hi
    have hsome := AList.lookup_isSome.2 (AList.mem_keys.2 hi)
    rw [lookup_forgetAll] at hsome
    split_ifs at hsome with h
    · exact absurd hsome (by simp)
    · have hne : i ≠ id := fun heq => h (heq ▸ hid)
      exact (List.mem_erase_of_ne hne).2 (AList.mem_keys.1 (AList.lookup_isSome.1 hsome))
  have hle := (List.subperm_of_subset (AList.keys_nodup _) hsub).length_le
  have hpos := List.length_pos_of_mem (AList.mem_keys.1 hmem)
  rw [List.length_erase_of_mem (AList.mem_keys.1 hmem)] at hle
  omega

/-- A replay of `buffer` over `B`: what it admitted, what it rejected, and what
it left, none of which is known or ready. -/
structure Replayed (crypto : BlockCrypto) (bonds : Bonds) (config : ValidationConfig)
    (buffer : PendingBlockBuffer) (B : Blocklace) (reported : List (Block × List InvalidBlock))
    (buffer' : PendingBlockBuffer) (B' : Blocklace) : Prop where
  run : AdmitRun crypto bonds config (BlockMap.toSet buffer.bufferedBlocks) B B'
  subset : BlockMap.toSet buffer'.bufferedBlocks ⊆ BlockMap.toSet buffer.bufferedBlocks
  rejected : ∀ x errors, (x, errors) ∈ reported →
    RejectedBetween crypto bonds config (BlockMap.toSet buffer.bufferedBlocks) B B' x errors
  kept : ∀ x ∈ BlockMap.toSet buffer.bufferedBlocks,
    x ∈ BlockMap.toSet buffer'.bufferedBlocks ∨ B'.Resolves x.identity ∨
      ∃ errors, (x, errors) ∈ reported
  stuck : ∀ x ∈ BlockMap.toSet buffer'.bufferedBlocks,
    ¬ B'.Resolves x.identity ∧ ¬ Available Block.refs B'.Resolves x
  stats : buffer'.stats = buffer.stats
  policy : buffer'.policy = buffer.policy

theorem RejectedBetween.extend {allowed allowed' : Set Block} {B₀ B₁ B₂ B₃ : Blocklace}
    (h : RejectedBetween crypto bonds config allowed B₁ B₂ x errors) (hsub : allowed ⊆ allowed')
    (hto : AdmitRun crypto bonds config allowed' B₀ B₁)
    (hfrom : AdmitRun crypto bonds config allowed' B₂ B₃) :
    RejectedBetween crypto bonds config allowed' B₀ B₃ x errors := by
  obtain ⟨hx, B', hto', hfrom', hav, hinv⟩ := h
  exact ⟨hsub hx, B', hto.trans (hto'.mono hsub), (hfrom'.mono hsub).trans hfrom, hav, hinv⟩

/-- What one pass resolves is stored or reported. -/
theorem PassInv.kept {visited : List BlockIdentity}
    (h : PassInv crypto bonds config buffer.bufferedBlocks B visited s)
    (hx : x ∈ BlockMap.toSet buffer.bufferedBlocks) :
    x ∈ BlockMap.toSet (s.resolved.foldl forget buffer).bufferedBlocks ∨
      s.blocklace.Resolves x.identity ∨ ∃ errors, (x, errors) ∈ s.rejected := by
  by_cases hres : x.identity ∈ s.resolved
  · obtain hr | ⟨y, errors, hid, hy, hrej⟩ := h.resolved _ hres
    · exact .inr (.inl hr)
    · have hc : y.content = x.content := by
        have := BlockMap.mem_toSet.1 hy
        rw [hid, BlockMap.mem_toSet.1 hx] at this
        exact (Option.some.inj this).symm
      obtain rfl : y = x := by cases y; cases x; simp_all
      exact .inr (.inr ⟨errors, hrej⟩)
  · exact .inl ((mem_forgetAll_iff _ _).2 ⟨hx, hres⟩)

/-- What a retry leaves is unknown, and not ready. -/
theorem retryLoop_settled (fuel : ℕ) (buffer : PendingBlockBuffer) (B : Blocklace)
    (hfuel : buffer.bufferedBlocks.keys.length < fuel) :
    ∀ x ∈ BlockMap.toSet (retryLoop crypto bonds config fuel buffer B).2.1.bufferedBlocks,
      ¬ (retryLoop crypto bonds config fuel buffer B).2.2.Resolves x.identity ∧
        ¬ Available Block.refs (retryLoop crypto bonds config fuel buffer B).2.2.Resolves x := by
  induction fuel generalizing buffer B with
  | zero => omega
  | succ fuel ih =>
      have hpass := @passQuiet_retryPass crypto bonds config buffer B
      unfold retryLoop
      simp only
      set pass := buffer.retryPass crypto bonds config B
      cases hprogress : pass.progress with
      | false =>
          obtain ⟨hB, hquiet⟩ := hpass.quiet hprogress
          simp only [Bool.false_eq_true, if_false]
          intro x hx
          obtain ⟨hxb, hxr⟩ := (mem_forgetAll_iff _ _).1 hx
          have hvisited : x.identity ∈ buffer.bufferedBlocks.keys.insertionSort (· ≤ ·) :=
            (List.mem_insertionSort _).2 (AList.mem_keys.1 (BlockMap.mem_of_mem_toSet hxb))
          obtain ⟨hres, hav⟩ := (hquiet _ hvisited).resolve_left hxr
          rw [hB]
          exact ⟨hres, hav x.content hxb⟩
      | true =>
          obtain ⟨i, hi, hib⟩ := hpass.moved hprogress
          simp only [if_true]
          exact ih (pass.resolved.foldl forget buffer) pass.blocklace
            (by have := length_forgetAll_lt hi hib; omega)

theorem retryLoop_replayed (hclosure : config.checkClosure = true) (fuel : ℕ)
    (buffer : PendingBlockBuffer) (B : Blocklace)
    (hfuel : buffer.bufferedBlocks.keys.length < fuel) :
    Replayed crypto bonds config buffer B (retryLoop crypto bonds config fuel buffer B).1
      (retryLoop crypto bonds config fuel buffer B).2.1
      (retryLoop crypto bonds config fuel buffer B).2.2 := by
  induction fuel generalizing buffer B with
  | zero => omega
  | succ fuel ih =>
      have hpass := @passInv_retryPass crypto bonds config hclosure buffer B
      have hstuck := @retryLoop_settled crypto bonds config (fuel + 1) buffer B hfuel
      unfold retryLoop at hstuck ⊢
      simp only at hstuck ⊢
      set pass := buffer.retryPass crypto bonds config B
      have hsub : BlockMap.toSet (pass.resolved.foldl forget buffer).bufferedBlocks ⊆
          BlockMap.toSet buffer.bufferedBlocks := fun x hx => ((mem_forgetAll_iff _ _).1 hx).1
      cases hprogress : pass.progress with
      | false =>
          simp only [hprogress, Bool.false_eq_true, if_false] at hstuck ⊢
          exact ⟨hpass.run, hsub, hpass.rejected, fun x hx => hpass.kept hx, hstuck,
            forgetAll_stats _ _, forgetAll_policy _ _⟩
      | true =>
          obtain ⟨i, hi, hib⟩ := hpass.moved hprogress
          have hlater := ih (pass.resolved.foldl forget buffer) pass.blocklace
            (by have := length_forgetAll_lt hi hib; omega)
          simp only [if_true]
          refine ⟨hpass.run.trans (hlater.run.mono hsub), hlater.subset.trans hsub,
            fun x errors hx => ?_, fun x hx => ?_, hlater.stuck,
            hlater.stats.trans (forgetAll_stats _ _), hlater.policy.trans (forgetAll_policy _ _)⟩
          · obtain hx | hx := List.mem_append.1 hx
            · exact (hpass.rejected x errors hx).extend subset_rfl (.refl _)
                (hlater.run.mono hsub)
            · exact (hlater.rejected x errors hx).extend hsub hpass.run (.refl _)
          · obtain hx | hx | ⟨errors, hx⟩ := hpass.kept hx
            · refine (hlater.kept x hx).imp_right (Or.imp_right ?_)
              rintro ⟨errors, hx⟩
              exact ⟨errors, List.mem_append_right _ hx⟩
            · exact .inr (.inl (hlater.run.resolves hclosure hx))
            · exact .inr (.inr ⟨errors, List.mem_append_left _ hx⟩)

/-- Dropping stale entries only takes blocks out, and counts those it takes. -/
theorem evictStale_spec (buffer : PendingBlockBuffer) :
    BlockMap.toSet buffer.evictStale.bufferedBlocks ⊆ BlockMap.toSet buffer.bufferedBlocks ∧
      buffer.evictStale.policy = buffer.policy ∧
      buffer.evictStale.stats.evictedForCapacity = buffer.stats.evictedForCapacity ∧
      buffer.evictStale.stats.rejectedCreatorQuota = buffer.stats.rejectedCreatorQuota ∧
      buffer.stats.evictedStale ≤ buffer.evictStale.stats.evictedStale ∧
      (buffer.evictStale.stats.evictedStale = buffer.stats.evictedStale →
        buffer.evictStale.bufferedBlocks = buffer.bufferedBlocks) := by
  unfold evictStale
  simp only [forgetAll_stats, forgetAll_policy]
  refine ⟨fun x hx => ((mem_forgetAll_iff _ _).1 hx).1, trivial, trivial, trivial,
    by omega, fun h => ?_⟩
  have hnil := List.length_eq_zero_iff.1 (by omega :
    (buffer.bufferedBlocks.keys.filter fun id =>
      buffer.policy.maxRetryPasses < (buffer.retryPasses.lookup id).getD 0).length = 0)
  rw [hnil]
  rfl

/-- **What a retry has done**, up to the entries that it drops as stale. -/
theorem retry_spec (hclosure : config.checkClosure = true) (buffer : PendingBlockBuffer)
    (B : Blocklace) {rejected : List (Block × List InvalidBlock)} {buffer' : PendingBlockBuffer}
    (h : buffer.retryBufferedBlocks crypto bonds config B = (rejected, buffer', B')) :
    ∃ replayed, Replayed crypto bonds config buffer B rejected replayed B' ∧
      BlockMap.toSet buffer'.bufferedBlocks ⊆ BlockMap.toSet replayed.bufferedBlocks ∧
      buffer'.policy = buffer.policy ∧
      buffer'.stats.evictedForCapacity = buffer.stats.evictedForCapacity ∧
      buffer'.stats.rejectedCreatorQuota = buffer.stats.rejectedCreatorQuota ∧
      buffer.stats.evictedStale ≤ buffer'.stats.evictedStale ∧
      (buffer'.stats.evictedStale = buffer.stats.evictedStale →
        buffer'.bufferedBlocks = replayed.bufferedBlocks) := by
  have hloop := @retryLoop_replayed crypto bonds config hclosure
    (buffer.bufferedBlocks.keys.length + 1) buffer B (by omega)
  unfold retryBufferedBlocks at h
  simp only [Prod.mk.injEq] at h
  obtain ⟨rfl, rfl, rfl⟩ := h
  refine ⟨_, hloop, ?_⟩
  rw [← hloop.stats, ← hloop.policy]
  exact evictStale_spec _

/-! ### What admission does -/

/-- The counters of `buffer'` are at least those of `buffer`. -/
def StatsLE (buffer buffer' : PendingBlockBuffer) : Prop :=
  buffer.stats.evictedForCapacity ≤ buffer'.stats.evictedForCapacity ∧
    buffer.stats.evictedStale ≤ buffer'.stats.evictedStale ∧
    buffer.stats.rejectedCreatorQuota ≤ buffer'.stats.rejectedCreatorQuota

/-- No limit of the policy was reached. -/
def LimitsKept (buffer : PendingBlockBuffer) : Prop :=
  0 < buffer.policy.maxEntries ∧ buffer.stats = ⟨0, 0, 0⟩

instance (buffer : PendingBlockBuffer) : Decidable buffer.LimitsKept :=
  inferInstanceAs (Decidable (_ ∧ _))

theorem StatsLE.limitsKept {buffer' : PendingBlockBuffer} (h : StatsLE buffer buffer')
    (hpolicy : buffer'.policy = buffer.policy) (hkept : buffer'.LimitsKept) :
    buffer.LimitsKept := by
  obtain ⟨h₁, h₂, h₃⟩ := h
  obtain ⟨hpos, hstats⟩ := hkept
  rw [hstats] at h₁ h₂ h₃
  refine ⟨hpolicy ▸ hpos, ?_⟩
  cases hs : buffer.stats with
  | mk a b c =>
      rw [hs] at h₁ h₂ h₃
      simp only [BufferStats.mk.injEq]
      simp only at h₁ h₂ h₃
      omega

/-- What `evictForCapacity` keeps when it evicts nothing. -/
theorem evictForCapacity_cases (buffer : PendingBlockBuffer) :
    buffer.evictForCapacity = (none, buffer) ∨
      ∃ victim, buffer.evictForCapacity = (some victim,
        { buffer.forget victim with
          stats := { buffer.stats with
            evictedForCapacity := buffer.stats.evictedForCapacity + 1 } }) := by
  unfold evictForCapacity
  split_ifs with hfull
  · cases buffer.oldestEntry with
    | none => exact .inl rfl
    | some victim => exact .inr ⟨victim, rfl⟩
  · exact .inl rfl

/-- **What buffering a block does.**  Only the block itself can be new; with no
limit reached it is held, and every other entry stays. -/
theorem bufferBlock_spec (buffer : PendingBlockBuffer) (block : Block)
    (missing : List BlockIdentity) {outcome : BufferOutcome} {buffer' : PendingBlockBuffer}
    (h : buffer.bufferBlockWithMissingPredecessorsKnown block missing = (outcome, buffer')) :
    buffer'.policy = buffer.policy ∧ StatsLE buffer buffer' ∧
      (∀ x ∈ BlockMap.toSet buffer'.bufferedBlocks,
        x ∈ BlockMap.toSet buffer.bufferedBlocks ∨ x = block) ∧
      (buffer'.LimitsKept → block ∈ BlockMap.toSet buffer'.bufferedBlocks ∧
        ∀ x ∈ BlockMap.toSet buffer.bufferedBlocks, x.identity ≠ block.identity →
          x ∈ BlockMap.toSet buffer'.bufferedBlocks) := by
  have hinsert : ∀ (m : BlockMap) (x : Block),
      x ∈ BlockMap.toSet (m.insert block.identity block.content) ↔
        x = block ∨ x ∈ BlockMap.toSet m ∧ x.identity ≠ block.identity := by
    intro m x
    rw [BlockMap.mem_toSet, BlockMap.mem_toSet]
    by_cases hid : x.identity = block.identity
    · rw [hid, AList.lookup_insert]
      cases x; cases block; simp_all [eq_comm]
    · rw [AList.lookup_insert_ne hid]
      constructor
      · exact fun hx => .inr ⟨hx, hid⟩
      · rintro (rfl | hx)
        · exact absurd rfl hid
        · exact hx.1
  unfold bufferBlockWithMissingPredecessorsKnown at h
  simp only at h
  split_ifs at h with hzero hheld hquota
  · obtain ⟨-, rfl⟩ := Prod.mk.inj h
    refine ⟨rfl, ⟨le_rfl, le_rfl, le_rfl⟩, fun x hx => .inl hx, fun hkept => ?_⟩
    exact absurd hzero hkept.1.ne'
  · obtain ⟨-, rfl⟩ := Prod.mk.inj h
    refine ⟨rfl, ⟨le_rfl, le_rfl, le_rfl⟩, fun x hx => ?_, fun _ => ⟨?_, fun x hx hne => ?_⟩⟩
    · obtain rfl | hx := (hinsert _ x).1 hx
      · exact .inr rfl
      · exact .inl hx.1
    · exact (hinsert _ block).2 (.inl rfl)
    · exact (hinsert _ x).2 (.inr ⟨hx, hne⟩)
  · obtain ⟨-, rfl⟩ := Prod.mk.inj h
    refine ⟨rfl, ⟨le_rfl, le_rfl, Nat.le_succ _⟩, fun x hx => .inl hx, fun hkept => ?_⟩
    exact absurd (congrArg BufferStats.rejectedCreatorQuota hkept.2) (Nat.succ_ne_zero _)
  · obtain hroom | ⟨victim, hroom⟩ := evictForCapacity_cases buffer
    · rw [hroom] at h
      obtain ⟨-, rfl⟩ := Prod.mk.inj h
      refine ⟨rfl, ⟨le_rfl, le_rfl, le_rfl⟩, fun x hx => ?_, fun _ => ⟨?_, fun x hx hne => ?_⟩⟩
      · obtain rfl | hx := (hinsert _ x).1 hx
        · exact .inr rfl
        · exact .inl hx.1
      · exact (hinsert _ block).2 (.inl rfl)
      · exact (hinsert _ x).2 (.inr ⟨hx, hne⟩)
    · rw [hroom] at h
      obtain ⟨-, rfl⟩ := Prod.mk.inj h
      refine ⟨rfl, ⟨Nat.le_succ _, le_rfl, le_rfl⟩, fun x hx => ?_, fun hkept => ?_⟩
      · obtain rfl | hx := (hinsert _ x).1 hx
        · exact .inr rfl
        · exact .inl ((mem_forgetAll_iff [victim] buffer).1 hx.1).1
      · exact absurd (congrArg BufferStats.evictedForCapacity hkept.2) (Nat.succ_ne_zero _)

end PendingBlockBuffer

end CordialMiners
