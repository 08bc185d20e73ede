/-
# The deploy tracer

`deploy_trace.rs`: each tracked deploy advances through four states.  A block that is
correlated moves the deploys it contains to `BlockIncluded`, a finalized list moves the
deploys whose block it names to `FinalizedOrdered`.

An entry has room for one block.  The first block correlated with a deploy takes it, and a
later block with the same deploy is passed over, so a deploy that is ordered through the
later block alone stays `BlockIncluded`.  The tracer is right about a deploy exactly where
its first block is ordered, if any of its blocks is (`tracer_finds_ordered_iff`).
-/

import CordialMiners.Collections.OrderedMap
import CordialMiners.Execution.DeployPool
import Mathlib.Data.List.TakeWhile

namespace CordialMiners

/-! ### Hexadecimal strings -/

/-- A string of hexadecimal digits, as ASCII codes. -/
abbrev HexString := List ℕ

/-- `hex::encode`. -/
def hexEncode (bytes : List Byte) : HexString := hex (bytes.map Fin.val)

theorem hexDigit_injective : Function.Injective hexDigit := fun m n h => by
  unfold hexDigit at h
  split_ifs at h <;> omega

theorem hex_injective : Function.Injective hex
  | [], [], _ => rfl
  | [], b :: bs, h => by simp [hex] at h
  | a :: as, [], h => by simp [hex] at h
  | a :: as, b :: bs, h => by
      unfold hex at h
      rw [List.flatMap_cons, List.flatMap_cons] at h
      obtain ⟨hdigits, htail⟩ := List.append_inj h rfl
      obtain ⟨hhigh, hrest⟩ := List.cons.inj hdigits
      obtain ⟨hlow, -⟩ := List.cons.inj hrest
      have hval : a = b := by
        rw [← Nat.div_add_mod a 16, ← Nat.div_add_mod b 16, hexDigit_injective hhigh,
          hexDigit_injective hlow]
      rw [hval, hex_injective htail]

theorem hexEncode_injective : Function.Injective hexEncode :=
  hex_injective.comp (List.map_injective_iff.2 Fin.val_injective)

/-! ### Entries -/

/-- `DeployTraceState`. -/
inductive DeployTraceState where
  | observed
  | accepted
  | blockIncluded
  | finalizedOrdered
deriving DecidableEq, Repr

/-- The position of a state in the order of the lifecycle. -/
def DeployTraceState.rank : DeployTraceState → ℕ
  | observed => 0
  | accepted => 1
  | blockIncluded => 2
  | finalizedOrdered => 3

/-- `TraceIngressSource`. -/
inductive TraceIngressSource where
  | grpc
  | http
  | unknown
deriving DecidableEq, Repr

/-- `TraceEntry`. -/
structure TraceEntry where
  signatureHex : HexString
  state : DeployTraceState
  observedAtSecs : U64
  ingressSource : TraceIngressSource
  acceptedAtSecs : Option U64
  blockHashHex : Option HexString
  blockHeight : Option ℤ
  includedAtSecs : Option U64
  finalizedAnchorHex : Option HexString
  finalizedAtSecs : Option U64
deriving DecidableEq, Repr

namespace TraceEntry

/-- `TraceEntry::new`; `now` is the clock. -/
def new (now : U64) (sigHex : HexString) (source : TraceIngressSource) : TraceEntry where
  signatureHex := sigHex
  state := .observed
  observedAtSecs := now
  ingressSource := source
  acceptedAtSecs := none
  blockHashHex := none
  blockHeight := none
  includedAtSecs := none
  finalizedAnchorHex := none
  finalizedAtSecs := none

/-- `advance_accepted`. -/
def advanceAccepted (now : U64) (entry : TraceEntry) : TraceEntry :=
  if entry.state.rank < DeployTraceState.accepted.rank then
    { entry with state := .accepted, acceptedAtSecs := some now }
  else entry

/-- `advance_block_included`. -/
def advanceBlockIncluded (now : U64) (blockHashHex : HexString) (blockHeight : ℤ)
    (entry : TraceEntry) : TraceEntry :=
  if entry.state.rank < DeployTraceState.blockIncluded.rank then
    { entry with
      acceptedAtSecs := some (entry.acceptedAtSecs.getD now)
      state := .blockIncluded
      blockHashHex := some blockHashHex
      blockHeight := some blockHeight
      includedAtSecs := some now }
  else entry

/-- `advance_finalized`. -/
def advanceFinalized (now : U64) (anchorHex : HexString) (entry : TraceEntry) : TraceEntry :=
  if entry.state.rank < DeployTraceState.finalizedOrdered.rank then
    { entry with
      state := .finalizedOrdered
      finalizedAnchorHex := some anchorHex
      finalizedAtSecs := some now }
  else entry

/-- Whether a finalized list advances an entry. -/
def orderedBy (finalizedBlockHashes : List HexString) (entry : TraceEntry) : Bool :=
  entry.state = .blockIncluded && entry.blockHashHex.any (· ∈ finalizedBlockHashes)

end TraceEntry

/-! ### The tracer -/

/-- The entries by signature; nothing depends on the order of the hash map. -/
abbrev DeployTracer := OrderedMap HexString TraceEntry

namespace DeployTracer

/-- `record_observed`. -/
def recordObserved (tracer : DeployTracer) (now : U64) (sig : List Byte)
    (source : TraceIngressSource) : DeployTracer :=
  tracer.orInsert (hexEncode sig) (.new now (hexEncode sig) source)

/-- `record_accepted`. -/
def recordAccepted (tracer : DeployTracer) (now : U64) (sig : List Byte) : DeployTracer :=
  tracer.upsert (hexEncode sig)
    ((TraceEntry.new now (hexEncode sig) .unknown).advanceAccepted now)
    (TraceEntry.advanceAccepted now)

/-- One step of the loop of `correlate_block`: the count and the tracer. -/
def correlateSig (now : U64) (blockHashHex : HexString) (blockHeight : ℤ)
    (acc : ℕ × DeployTracer) (sig : List Byte) : ℕ × DeployTracer :=
  match acc.2.lookup (hexEncode sig) with
  | none => acc
  | some entry =>
      if entry.state.rank < DeployTraceState.blockIncluded.rank then
        (acc.1 + 1, acc.2.insert (hexEncode sig)
          (entry.advanceBlockIncluded now blockHashHex blockHeight))
      else acc

/-- `correlate_block`: how many entries advanced, and the tracer. -/
def correlateBlock (tracer : DeployTracer) (now : U64) (deploySigs : List (List Byte))
    (blockHash : List Byte) (blockHeight : ℤ) : ℕ × DeployTracer :=
  deploySigs.foldl (correlateSig now (hexEncode blockHash) blockHeight) (0, tracer)

/-- `correlate_finalized_output`. -/
def correlateFinalizedOutput (tracer : DeployTracer) (now : U64)
    (finalizedBlockHashes : List HexString) (anchorHash : List Byte) : ℕ × DeployTracer :=
  (tracer.values.countP (TraceEntry.orderedBy finalizedBlockHashes),
    tracer.map fun entry =>
      if entry.orderedBy finalizedBlockHashes then entry.advanceFinalized now (hexEncode anchorHash)
      else entry)

/-- The state of a deploy, if it is tracked. -/
def stateOf (tracer : DeployTracer) (sig : List Byte) : Option DeployTraceState :=
  (tracer.lookup (hexEncode sig)).map TraceEntry.state

end DeployTracer

/-- A call of the tracer; the mutex lets one through at a time. -/
inductive TraceCall where
  | recordObserved (now : U64) (sig : List Byte) (source : TraceIngressSource)
  | recordAccepted (now : U64) (sig : List Byte)
  | correlateBlock (now : U64) (deploySigs : List (List Byte)) (blockHash : List Byte)
      (blockHeight : ℤ)
  | correlateFinalizedOutput (now : U64) (finalizedBlockHashes : List HexString)
      (anchorHash : List Byte)
deriving DecidableEq, Repr

/-- The tracer after a call. -/
def DeployTracer.step (tracer : DeployTracer) : TraceCall → DeployTracer
  | .recordObserved now sig source => tracer.recordObserved now sig source
  | .recordAccepted now sig => tracer.recordAccepted now sig
  | .correlateBlock now sigs hash height => (tracer.correlateBlock now sigs hash height).2
  | .correlateFinalizedOutput now hashes anchor =>
      (tracer.correlateFinalizedOutput now hashes anchor).2

/-- The tracer after some calls. -/
def DeployTracer.run (calls : List TraceCall) : DeployTracer :=
  calls.foldl DeployTracer.step .empty

theorem DeployTracer.run_concat (calls : List TraceCall) (call : TraceCall) :
    DeployTracer.run (calls ++ [call]) = (DeployTracer.run calls).step call := by
  unfold DeployTracer.run
  rw [List.foldl_append]
  rfl

/-! ### What a call does to one deploy -/

local instance lawfulBEqSignatures : LawfulBEq (List Byte) := inferInstance

/-- What a call does to the entry of a deploy. -/
def TraceCall.onEntry (sig : List Byte) : TraceCall → Option TraceEntry → Option TraceEntry
  | .recordObserved now other source, entry =>
      if sig = other then some (entry.getD (.new now (hexEncode sig) source)) else entry
  | .recordAccepted now other, entry =>
      if sig = other then
        some ((entry.getD (.new now (hexEncode sig) .unknown)).advanceAccepted now)
      else entry
  | .correlateBlock now sigs hash height, entry =>
      if sig ∈ sigs then entry.map (TraceEntry.advanceBlockIncluded now (hexEncode hash) height)
      else entry
  | .correlateFinalizedOutput now hashes anchor, entry =>
      entry.map fun entry =>
        if entry.orderedBy hashes then entry.advanceFinalized now (hexEncode anchor) else entry

section Entry

variable {tracer : DeployTracer} {sig : List Byte} {now : U64} {hash : HexString} {height : ℤ}
  {entry : TraceEntry}

theorem TraceEntry.state_advanceBlockIncluded :
    DeployTraceState.blockIncluded.rank ≤ (entry.advanceBlockIncluded now hash height).state.rank := by
  unfold TraceEntry.advanceBlockIncluded
  split_ifs with hlt
  · exact le_rfl
  · exact Nat.le_of_not_lt hlt

/-- A deploy that a block names twice is advanced once. -/
theorem TraceEntry.advanceBlockIncluded_idem :
    (entry.advanceBlockIncluded now hash height).advanceBlockIncluded now hash height =
      entry.advanceBlockIncluded now hash height :=
  if_neg (Nat.not_lt.2 state_advanceBlockIncluded)

/-- One step of `correlate_block` on the entry of a deploy. -/
theorem DeployTracer.lookup_correlateSig (acc : ℕ × DeployTracer) (other : List Byte) :
    (correlateSig now hash height acc other).2.lookup (hexEncode sig) =
      if sig = other then
        (acc.2.lookup (hexEncode sig)).map (TraceEntry.advanceBlockIncluded now hash height)
      else acc.2.lookup (hexEncode sig) := by
  unfold correlateSig
  by_cases hsig : sig = other
  · subst hsig
    rw [if_pos rfl]
    cases hentry : acc.2.lookup (hexEncode sig) with
    | none => exact hentry
    | some entry =>
        dsimp only
        split_ifs with hlt
        · rw [OrderedMap.lookup_insert, if_pos rfl]
          rfl
        · rw [hentry, Option.map_some, TraceEntry.advanceBlockIncluded, if_neg hlt]
  · rw [if_neg hsig]
    split
    · rfl
    · split_ifs
      · rw [OrderedMap.lookup_insert, if_neg fun h => hsig (hexEncode_injective h)]
      · rfl

/-- The loop of `correlate_block` on the entry of a deploy. -/
theorem DeployTracer.lookup_correlateSigs (sigs : List (List Byte)) (acc : ℕ × DeployTracer) :
    (sigs.foldl (correlateSig now hash height) acc).2.lookup (hexEncode sig) =
      if sig ∈ sigs then
        (acc.2.lookup (hexEncode sig)).map (TraceEntry.advanceBlockIncluded now hash height)
      else acc.2.lookup (hexEncode sig) := by
  induction sigs generalizing acc with
  | nil => simp
  | cons other sigs ih =>
      rw [List.foldl_cons, ih, lookup_correlateSig]
      by_cases hsig : sig = other
      · rw [if_pos hsig, if_pos (List.mem_cons.2 (Or.inl hsig))]
        split_ifs
        · rw [Option.map_map]
          congr 1
          exact funext fun entry => TraceEntry.advanceBlockIncluded_idem
        · rfl
      · rw [if_neg hsig]
        exact if_congr (by simp [hsig]) rfl rfl

/-- **A call acts on each deploy by itself.** -/
theorem DeployTracer.lookup_step (call : TraceCall) :
    (tracer.step call).lookup (hexEncode sig) = call.onEntry sig (tracer.lookup (hexEncode sig)) := by
  have hkey (other : List Byte) : hexEncode sig = hexEncode other ↔ sig = other :=
    hexEncode_injective.eq_iff
  cases call with
  | recordObserved now other source =>
      show (tracer.orInsert _ _).lookup _ = ite _ _ _
      rw [OrderedMap.lookup_orInsert]
      simp only [hkey]
      split_ifs with hsig
      · rw [hsig]
      · rfl
  | recordAccepted now other =>
      show (tracer.upsert _ _ _).lookup _ = ite _ _ _
      rw [OrderedMap.lookup_upsert]
      simp only [hkey]
      split_ifs with hsig
      · subst hsig
        cases tracer.lookup (hexEncode sig) <;> rfl
      · rfl
  | correlateBlock now sigs hash height => exact lookup_correlateSigs sigs (0, tracer)
  | correlateFinalizedOutput now hashes anchor => exact OrderedMap.lookup_map

end Entry

/-! ### Runs -/

/-- Whether a call starts to track a deploy, if it is new. -/
def TraceCall.tracks (sig : List Byte) : TraceCall → Bool
  | .recordObserved _ other _ => sig = other
  | .recordAccepted _ other => sig = other
  | _ => false

/-- The hash of the block, if the call correlates one with the deploy. -/
def TraceCall.includes (sig : List Byte) : TraceCall → Option (List Byte)
  | .correlateBlock _ sigs hash _ => if sig ∈ sigs then some hash else none
  | _ => none

/-- The list, if the call correlates a finalized one. -/
def TraceCall.finalizes : TraceCall → Option (List HexString)
  | .correlateFinalizedOutput _ hashes _ => some hashes
  | _ => none

/-- Each finalized list extends the ones before it. -/
def Extends (calls : List TraceCall) : Prop :=
  (calls.filterMap TraceCall.finalizes).Pairwise (· <+: ·)

/-- Whether a deploy is tracked after some calls. -/
def Tracked (sig : List Byte) (calls : List TraceCall) : Prop := ∃ call ∈ calls, call.tracks sig

/-- Some block that was correlated with a tracked deploy is in a finalized list that was
correlated after it. -/
def OrderedSince (sig : List Byte) (calls : List TraceCall) : Prop :=
  ∃ (before : List TraceCall) (block : TraceCall) (after : List TraceCall) (hash : List Byte),
    calls = before ++ block :: after ∧ Tracked sig before ∧ block.includes sig = some hash ∧
      ∃ list ∈ after.filterMap TraceCall.finalizes, hexEncode hash ∈ list

/-- The blocks that were correlated with a deploy since it is tracked, by their hashes. -/
def includingBlocks (sig : List Byte) (calls : List TraceCall) : List (List Byte) :=
  (calls.dropWhile fun call => !call.tracks sig).filterMap (TraceCall.includes sig)

section Runs

variable {sig : List Byte} {calls : List TraceCall} {call : TraceCall} {hash : List Byte}

instance : Decidable (Tracked sig calls) := by
  unfold Tracked
  infer_instance

theorem not_tracked_iff : ¬Tracked sig calls ↔ ∀ call ∈ calls, call.tracks sig = false := by
  simp [Tracked]

theorem tracked_concat : Tracked sig (calls ++ [call]) ↔ Tracked sig calls ∨ call.tracks sig := by
  simp [Tracked, or_and_right, exists_or]

theorem includingBlocks_append_of_tracked (h : Tracked sig calls) (more : List TraceCall) :
    includingBlocks sig (calls ++ more) =
      includingBlocks sig calls ++ more.filterMap (TraceCall.includes sig) := by
  obtain ⟨call, hcall, htracks⟩ := h
  unfold includingBlocks
  rw [List.dropWhile_append, if_neg, List.filterMap_append]
  rw [List.isEmpty_iff, List.dropWhile_eq_nil_iff]
  exact fun hall => by simpa [htracks] using hall call hcall

theorem includingBlocks_append_of_not_tracked (h : ¬Tracked sig calls) (more : List TraceCall) :
    includingBlocks sig (calls ++ more) = includingBlocks sig more := by
  have hnil : (calls.dropWhile fun call => !call.tracks sig) = [] :=
    List.dropWhile_eq_nil_iff.2 fun call hcall => by simp [not_tracked_iff.1 h call hcall]
  unfold includingBlocks
  rw [List.dropWhile_append, hnil]
  rfl

/-- A call that tracks a deploy correlates nothing. -/
theorem TraceCall.includes_of_tracks (h : call.tracks sig = true) : call.includes sig = none := by
  cases call <;> simp_all [tracks, includes]

theorem includingBlocks_eq_nil_of_not_tracked (h : ¬Tracked sig calls) :
    includingBlocks sig calls = [] := by
  have := includingBlocks_append_of_not_tracked h []
  rwa [List.append_nil] at this

/-- The blocks after one more call. -/
theorem includingBlocks_concat :
    includingBlocks sig (calls ++ [call]) =
      includingBlocks sig calls ++
        if Tracked sig calls then (call.includes sig).toList else [] := by
  split_ifs with h
  · rw [includingBlocks_append_of_tracked h]
    cases hincludes : call.includes sig <;> simp [hincludes]
  · rw [includingBlocks_append_of_not_tracked h, includingBlocks_eq_nil_of_not_tracked h]
    unfold includingBlocks
    cases htracks : call.tracks sig
    · simp [htracks]
    · simp [htracks, TraceCall.includes_of_tracks htracks]

/-- A block of a deploy, where it was correlated. -/
theorem mem_includingBlocks_iff : hash ∈ includingBlocks sig calls ↔
    ∃ (before : List TraceCall) (block : TraceCall) (after : List TraceCall),
      calls = before ++ block :: after ∧ Tracked sig before ∧ block.includes sig = some hash := by
  induction calls using List.reverseRecOn with
  | nil => simp [includingBlocks]
  | append_singleton calls call ih =>
      rw [includingBlocks_concat, List.mem_append, ih]
      constructor
      · rintro (⟨before, block, after, rfl, htracked, hblock⟩ | hlast)
        · exact ⟨before, block, after ++ [call], by simp, htracked, hblock⟩
        · split_ifs at hlast with htracked
          · exact ⟨calls, call, [], rfl, htracked, by simpa using hlast⟩
          · simp at hlast
      · rintro ⟨before, block, after, heq, htracked, hblock⟩
        rcases List.eq_nil_or_concat after with rfl | ⟨after, last, rfl⟩
        · obtain ⟨rfl, hsame⟩ := List.append_inj' heq rfl
          obtain rfl := (List.cons.inj hsame).1
          right
          rw [if_pos htracked, hblock]
          simp
        · rw [List.concat_eq_append, ← List.cons_append, ← List.append_assoc] at heq
          exact Or.inl ⟨before, block, after, (List.append_inj' heq rfl).1, htracked, hblock⟩

/-- **Where the entry of a deploy stands after some calls.**  Before a block it has seen
none; with a block it has the first one; once finalized, that block is in a list. -/
def Follows (sig : List Byte) (calls : List TraceCall) : Option TraceEntry → Prop
  | none => ¬Tracked sig calls
  | some entry => Tracked sig calls ∧
      match entry.state with
      | .observed | .accepted => includingBlocks sig calls = []
      | .blockIncluded => ∃ hash, (includingBlocks sig calls).head? = some hash ∧
          entry.blockHashHex = some (hexEncode hash)
      | .finalizedOrdered => ∃ hash, (includingBlocks sig calls).head? = some hash ∧
          ∃ list ∈ calls.filterMap TraceCall.finalizes, hexEncode hash ∈ list

/-- A call that correlates nothing with a deploy leaves its blocks. -/
theorem includingBlocks_concat_of_none (h : call.includes sig = none) :
    includingBlocks sig (calls ++ [call]) = includingBlocks sig calls := by
  rw [includingBlocks_concat, h]
  simp

/-- An entry that a call leaves still stands where it stood. -/
theorem Follows.concat {entry : TraceEntry} (h : Follows sig calls (some entry))
    (hnone : call.includes sig = none) : Follows sig (calls ++ [call]) (some entry) := by
  obtain ⟨htracked, hstate⟩ := h
  refine ⟨tracked_concat.2 (Or.inl htracked), ?_⟩
  rw [includingBlocks_concat_of_none hnone, List.filterMap_append]
  cases hentry : entry.state <;> rw [hentry] at hstate
  · exact hstate
  · exact hstate
  · exact hstate
  · obtain ⟨hash, hhead, list, hlist, hmem⟩ := hstate
    exact ⟨hash, hhead, list, List.mem_append_left _ hlist, hmem⟩

/-- A deploy that a call starts to track. -/
theorem Follows.new {entry : TraceEntry} (h : ¬Tracked sig calls) (htracks : call.tracks sig = true)
    (hstate : entry.state = .observed ∨ entry.state = .accepted) :
    Follows sig (calls ++ [call]) (some entry) := by
  refine ⟨tracked_concat.2 (Or.inr htracks), ?_⟩
  have hnil : includingBlocks sig (calls ++ [call]) = [] := by
    rw [includingBlocks_concat_of_none (TraceCall.includes_of_tracks htracks),
      includingBlocks_eq_nil_of_not_tracked h]
  rcases hstate with hstate | hstate <;> rw [hstate] <;> exact hnil

/-- Acceptance moves an entry without a block. -/
theorem Follows.advanceAccepted {entry : TraceEntry} {now : U64}
    (h : Follows sig calls (some entry)) : Follows sig calls (some (entry.advanceAccepted now)) := by
  unfold TraceEntry.advanceAccepted
  split_ifs with hlt
  · obtain ⟨htracked, hstate⟩ := h
    refine ⟨htracked, ?_⟩
    cases hentry : entry.state <;> rw [hentry] at hstate hlt
    · exact hstate
    · exact absurd hlt (by decide)
    · exact absurd hlt (by decide)
    · exact absurd hlt (by decide)
  · exact h

/-- **A block takes the place of an entry that has none.** -/
theorem Follows.advanceBlockIncluded {entry : TraceEntry} {now : U64} {height : ℤ}
    (h : Follows sig calls (some entry)) (hincludes : call.includes sig = some hash) :
    Follows sig (calls ++ [call])
      (some (entry.advanceBlockIncluded now (hexEncode hash) height)) := by
  obtain ⟨htracked, hstate⟩ := h
  refine ⟨tracked_concat.2 (Or.inl htracked), ?_⟩
  rw [includingBlocks_concat, if_pos htracked, hincludes, List.filterMap_append]
  unfold TraceEntry.advanceBlockIncluded
  cases hentry : entry.state <;> rw [hentry] at hstate
  · rw [if_pos (by decide)]
    exact ⟨hash, by rw [hstate]; rfl, rfl⟩
  · rw [if_pos (by decide)]
    exact ⟨hash, by rw [hstate]; rfl, rfl⟩
  · rw [if_neg (by decide), hentry]
    obtain ⟨first, hhead, hblock⟩ := hstate
    exact ⟨first, by rw [List.head?_append, hhead]; rfl, hblock⟩
  · rw [if_neg (by decide), hentry]
    obtain ⟨first, hhead, list, hlist, hmem⟩ := hstate
    exact ⟨first, by rw [List.head?_append, hhead]; rfl, list, List.mem_append_left _ hlist, hmem⟩

/-- A list that names the block of an entry finalizes it. -/
theorem Follows.advanceFinalized {entry : TraceEntry} {now : U64} {hashes : List HexString}
    {anchor : List Byte} (h : Follows sig calls (some entry)) (hordered : entry.orderedBy hashes) :
    Follows sig (calls ++ [.correlateFinalizedOutput now hashes anchor])
      (some (entry.advanceFinalized now (hexEncode anchor))) := by
  obtain ⟨htracked, hstate⟩ := h
  unfold TraceEntry.orderedBy at hordered
  rw [Bool.and_eq_true, decide_eq_true_eq] at hordered
  obtain ⟨hphase, hblock⟩ := hordered
  rw [hphase] at hstate
  obtain ⟨hash, hhead, hhash⟩ := hstate
  unfold TraceEntry.advanceFinalized
  rw [hphase, if_pos (by decide)]
  refine ⟨tracked_concat.2 (Or.inl htracked), hash, ?_, hashes, ?_, ?_⟩
  · rw [includingBlocks_concat_of_none rfl, hhead]
  · rw [List.filterMap_append]
    exact List.mem_append_right _ (List.mem_singleton.2 rfl)
  · simpa [hhash] using hblock

/-- **Every call keeps where the entry of a deploy stands.** -/
theorem Follows.step {entry : Option TraceEntry} (h : Follows sig calls entry) (call : TraceCall) :
    Follows sig (calls ++ [call]) (call.onEntry sig entry) := by
  have hkeep (hnone : call.includes sig = none) (huntracked : call.tracks sig = false) :
      Follows sig (calls ++ [call]) entry := by
    cases entry with
    | none => exact fun htracked => (tracked_concat.1 htracked).elim h (by simp [huntracked])
    | some entry => exact h.concat hnone
  cases call with
  | recordObserved now other source =>
      rw [TraceCall.onEntry]
      split_ifs with hsig
      · subst hsig
        cases entry with
        | none => exact Follows.new h (by simp [TraceCall.tracks]) (Or.inl rfl)
        | some entry => exact h.concat rfl
      · exact hkeep rfl (by simp [TraceCall.tracks, hsig])
  | recordAccepted now other =>
      rw [TraceCall.onEntry]
      split_ifs with hsig
      · subst hsig
        cases entry with
        | none => exact Follows.new h (by simp [TraceCall.tracks]) (Or.inr rfl)
        | some entry => exact (h.concat rfl).advanceAccepted
      · exact hkeep rfl (by simp [TraceCall.tracks, hsig])
  | correlateBlock now sigs block height =>
      rw [TraceCall.onEntry]
      split_ifs with hmem
      · cases entry with
        | none => exact fun htracked => (tracked_concat.1 htracked).elim h (by simp [TraceCall.tracks])
        | some entry => exact h.advanceBlockIncluded (if_pos hmem)
      · exact hkeep (if_neg hmem) rfl
  | correlateFinalizedOutput now hashes anchor =>
      cases entry with
      | none => exact hkeep rfl rfl
      | some entry =>
          show Follows sig _ (some (ite _ _ _))
          split_ifs with hordered
          · exact h.advanceFinalized hordered
          · exact h.concat rfl

/-- **The entry of a deploy follows every run.** -/
theorem follows_run (sig : List Byte) (calls : List TraceCall) :
    Follows sig calls ((DeployTracer.run calls).lookup (hexEncode sig)) := by
  induction calls using List.reverseRecOn with
  | nil => exact fun ⟨call, hcall, _⟩ => by simp at hcall
  | append_singleton calls call ih =>
      rw [DeployTracer.run_concat, DeployTracer.lookup_step]
      exact ih.step call

/-! ### What the tracer finds -/

variable {now : U64} {last : List HexString} {anchor : List Byte}

/-- The last list extends every list. -/
theorem Extends.mem_last (h : Extends (calls ++ [.correlateFinalizedOutput now last anchor]))
    {list : List HexString} (hlist : list ∈ calls.filterMap TraceCall.finalizes)
    {block : HexString} (hmem : block ∈ list) : block ∈ last := by
  unfold Extends at h
  rw [List.filterMap_append] at h
  exact ((List.pairwise_append.1 h).2.2 list hlist last (List.mem_singleton.2 rfl)).subset hmem

/-- **The tracer finds a deploy exactly where its first block is ordered.** -/
theorem stateOf_eq_finalized_iff
    (h : Extends (calls ++ [.correlateFinalizedOutput now last anchor])) :
    (DeployTracer.run (calls ++ [.correlateFinalizedOutput now last anchor])).stateOf sig =
        some .finalizedOrdered ↔
      ∃ first, (includingBlocks sig calls).head? = some first ∧ hexEncode first ∈ last := by
  have hfollows := follows_run sig calls
  have hrun : (DeployTracer.run
      (calls ++ [.correlateFinalizedOutput now last anchor])).stateOf sig =
      ((TraceCall.correlateFinalizedOutput now last anchor).onEntry sig
        ((DeployTracer.run calls).lookup (hexEncode sig))).map TraceEntry.state := by
    rw [DeployTracer.run_concat, DeployTracer.stateOf, DeployTracer.lookup_step]
  rw [hrun]
  cases hentry : (DeployTracer.run calls).lookup (hexEncode sig) with
  | none =>
      rw [hentry] at hfollows
      rw [includingBlocks_eq_nil_of_not_tracked hfollows]
      simp [TraceCall.onEntry]
  | some entry =>
      rw [hentry] at hfollows
      obtain ⟨-, hstate⟩ := hfollows
      show some (TraceEntry.state (ite _ _ _)) = _ ↔ _
      cases hphase : entry.state <;> rw [hphase] at hstate
      · rw [if_neg (by simp [TraceEntry.orderedBy, hphase]), hphase, hstate]
        simp
      · rw [if_neg (by simp [TraceEntry.orderedBy, hphase]), hphase, hstate]
        simp
      · obtain ⟨first, hfirst, hblock⟩ := hstate
        rw [hfirst]
        unfold TraceEntry.orderedBy TraceEntry.advanceFinalized
        rw [hphase, hblock, if_pos (show DeployTraceState.blockIncluded.rank < _ by decide)]
        split_ifs with hordered
        · exact iff_of_true rfl ⟨first, rfl, by simpa using hordered⟩
        · refine iff_of_false (by simp [hphase]) ?_
          rintro ⟨other, hother, hmem⟩
          obtain rfl := Option.some.inj hother
          exact hordered (by simpa using hmem)
      · obtain ⟨first, hfirst, list, hlist, hmem⟩ := hstate
        rw [if_neg (by simp [TraceEntry.orderedBy, hphase]), hphase]
        exact iff_of_true rfl ⟨first, hfirst, h.mem_last hlist hmem⟩

/-- A deploy is ordered exactly where one of its blocks is in the last list. -/
theorem orderedSince_iff (h : Extends (calls ++ [.correlateFinalizedOutput now last anchor])) :
    OrderedSince sig (calls ++ [.correlateFinalizedOutput now last anchor]) ↔
      ∃ hash ∈ includingBlocks sig calls, hexEncode hash ∈ last := by
  constructor
  · rintro ⟨before, block, after, hash, heq, htracked, hblock, list, hlist, hmem⟩
    refine ⟨hash, ?_, ?_⟩
    · have hhash := mem_includingBlocks_iff.2 ⟨before, block, after, heq, htracked, hblock⟩
      rwa [includingBlocks_concat_of_none rfl] at hhash
    · have hall : list ∈ (calls ++ [TraceCall.correlateFinalizedOutput now last anchor]).filterMap
          TraceCall.finalizes := by
        rw [heq, List.filterMap_append]
        refine List.mem_append_right _ ?_
        exact (List.Sublist.filterMap _ (List.sublist_cons_self block after)).subset hlist
      rw [List.filterMap_append] at hall
      rcases List.mem_append.1 hall with hearlier | hlast
      · exact h.mem_last hearlier hmem
      · obtain rfl := List.mem_singleton.1 hlast
        exact hmem
  · rintro ⟨hash, hhash, hmem⟩
    obtain ⟨before, block, after, rfl, htracked, hblock⟩ := mem_includingBlocks_iff.1 hhash
    refine ⟨before, block, after ++ [.correlateFinalizedOutput now last anchor], hash, by simp,
      htracked, hblock, last, ?_, hmem⟩
    rw [List.filterMap_append]
    exact List.mem_append_right _ (List.mem_singleton.2 rfl)

end Runs

/-! ### The claim of the tracer -/

/-- The first block of a deploy is in the list, if any of its blocks is. -/
def FirstOrdered (sig : List Byte) (calls : List TraceCall) (last : List HexString) : Prop :=
  (∃ hash ∈ includingBlocks sig calls, hexEncode hash ∈ last) →
    ∃ first, (includingBlocks sig calls).head? = some first ∧ hexEncode first ∈ last

/-- Runs whose blocks come in another order between two other calls. -/
def Reordered (calls calls' : List TraceCall) : Prop :=
  ∃ before blocks blocks' after : List TraceCall, calls = before ++ blocks ++ after ∧
    calls' = before ++ blocks' ++ after ∧ blocks.Perm blocks' ∧
    ∀ call ∈ blocks, ∃ now sigs hash height, call = .correlateBlock now sigs hash height

/-- Another order of the blocks leaves which blocks a deploy has. -/
theorem Reordered.includingBlocks_perm {calls calls' : List TraceCall} (h : Reordered calls calls')
    (sig : List Byte) : (includingBlocks sig calls).Perm (includingBlocks sig calls') := by
  obtain ⟨before, blocks, blocks', after, rfl, rfl, hperm, hblocks⟩ := h
  rw [List.append_assoc, List.append_assoc]
  by_cases htracked : Tracked sig before
  · rw [includingBlocks_append_of_tracked htracked, includingBlocks_append_of_tracked htracked,
      List.filterMap_append, List.filterMap_append]
    exact ((hperm.filterMap _).append_right _).append_left _
  · have huntracked : ¬Tracked sig blocks := not_tracked_iff.2 fun call hcall => by
      obtain ⟨now, sigs, hash, height, rfl⟩ := hblocks call hcall
      rfl
    have huntracked' : ¬Tracked sig blocks' := not_tracked_iff.2 fun call hcall =>
      not_tracked_iff.1 huntracked call (hperm.mem_iff.2 hcall)
    rw [includingBlocks_append_of_not_tracked htracked,
      includingBlocks_append_of_not_tracked htracked,
      includingBlocks_append_of_not_tracked huntracked,
      includingBlocks_append_of_not_tracked huntracked']

/-- Another order of the blocks leaves the finalized lists. -/
theorem Reordered.extends_concat {calls calls' : List TraceCall} (h : Reordered calls calls')
    {final : TraceCall} (hextends : Extends (calls ++ [final])) : Extends (calls' ++ [final]) := by
  obtain ⟨before, blocks, blocks', after, rfl, rfl, hperm, hblocks⟩ := h
  have hnil : blocks.filterMap TraceCall.finalizes = [] :=
    List.filterMap_eq_nil_iff.2 fun call hcall => by
      obtain ⟨now, sigs, hash, height, rfl⟩ := hblocks call hcall
      rfl
  have hnil' : blocks'.filterMap TraceCall.finalizes = [] := by
    have hnone := (hperm.filterMap TraceCall.finalizes).symm
    rw [hnil] at hnone
    exact hnone.eq_nil
  unfold Extends at hextends ⊢
  simpa [List.filterMap_append, hnil, hnil'] using hextends

/-- **When the tracer finds a finalized deploy.**  After every finalized list that extends the
ones before it, a deploy is `FinalizedOrdered` exactly where some block of it is ordered, if and
only if its first block is ordered where any of its blocks is; and two runs that meet this and
differ in the order of their blocks give one answer. -/
theorem tracer_finds_ordered_iff (sig : List Byte) (calls : List TraceCall) (now : U64)
    (last : List HexString) (anchor : List Byte)
    (hextends : Extends (calls ++ [.correlateFinalizedOutput now last anchor])) :
    (((DeployTracer.run (calls ++ [.correlateFinalizedOutput now last anchor])).stateOf sig =
          some .finalizedOrdered ↔
        OrderedSince sig (calls ++ [.correlateFinalizedOutput now last anchor])) ↔
      FirstOrdered sig calls last) ∧
    ∀ calls', Reordered calls calls' → FirstOrdered sig calls last → FirstOrdered sig calls' last →
      ((DeployTracer.run (calls ++ [.correlateFinalizedOutput now last anchor])).stateOf sig =
          some .finalizedOrdered ↔
        (DeployTracer.run (calls' ++ [.correlateFinalizedOutput now last anchor])).stateOf sig =
          some .finalizedOrdered) := by
  have hfirst {run : List TraceCall} (h : FirstOrdered sig run last) :
      (∃ first, (includingBlocks sig run).head? = some first ∧ hexEncode first ∈ last) ↔
        ∃ hash ∈ includingBlocks sig run, hexEncode hash ∈ last := by
    refine ⟨?_, h⟩
    rintro ⟨first, hhead, hmem⟩
    exact ⟨first, List.mem_of_head? hhead, hmem⟩
  refine ⟨?_, fun calls' hreordered h h' => ?_⟩
  · rw [stateOf_eq_finalized_iff hextends, orderedSince_iff hextends]
    exact ⟨fun hiff => hiff.2, hfirst⟩
  · rw [stateOf_eq_finalized_iff hextends,
      stateOf_eq_finalized_iff (hreordered.extends_concat hextends), hfirst h, hfirst h']
    simp only [(hreordered.includingBlocks_perm sig).mem_iff]

/-- A deploy is observed, and its blocks are correlated in the given order. -/
def twoInclusions (first second : List Byte) : List TraceCall :=
  [.recordObserved 0 [1] .grpc, .correlateBlock 0 [[1]] first 7, .correlateBlock 0 [[1]] second 7]

/-- The second of two blocks is ordered: the deploy is passed over, and it is found where the
blocks come in the other order. -/
theorem tracer_misses_later_inclusion :
    ¬∀ (sig : List Byte) (calls : List TraceCall) (now : U64) (last : List HexString)
      (anchor : List Byte),
      Extends (calls ++ [.correlateFinalizedOutput now last anchor]) → Tracked sig calls →
      ((DeployTracer.run (calls ++ [.correlateFinalizedOutput now last anchor])).stateOf sig =
          some .finalizedOrdered ↔
        OrderedSince sig (calls ++ [.correlateFinalizedOutput now last anchor])) := by
  intro hall
  have hextends : Extends (twoInclusions [2] [3] ++ [.correlateFinalizedOutput 0 [hexEncode [3]] [3]]) :=
    List.pairwise_singleton _ _
  have hordered : OrderedSince [1]
      (twoInclusions [2] [3] ++ [.correlateFinalizedOutput 0 [hexEncode [3]] [3]]) :=
    (orderedSince_iff hextends).2 ⟨[3], by decide, by decide⟩
  have hfound := (hall [1] _ 0 [hexEncode [3]] [3] hextends (by decide)).2 hordered
  exact absurd hfound (by decide +kernel)

/-- The hypothesis of `tracer_finds_ordered_iff` is met by a run whose first block is ordered. -/
theorem tracer_finds_first_inclusion :
    (DeployTracer.run (twoInclusions [2] [3] ++
        [.correlateFinalizedOutput 0 [hexEncode [2]] [2]])).stateOf [1] = some .finalizedOrdered ↔
      OrderedSince [1] (twoInclusions [2] [3] ++
        [.correlateFinalizedOutput 0 [hexEncode [2]] [2]]) :=
  (tracer_finds_ordered_iff [1] (twoInclusions [2] [3]) 0 [hexEncode [2]] [2]
    (List.pairwise_singleton _ _)).1.2 fun _ => ⟨[2], by decide, by decide⟩

end CordialMiners
