/-
# The history of reputation blocks

`por/history.rs`.

The block of every round has a file that never changes: it is written under a
temporary name and linked to its own.  Opening the history removes temporary names
and reads the blocks in the order of their rounds, each of which has to follow the
one before.

`Retained` says what the files of a history are: one chain of blocks, in which each
is of the next round and refers to the hash of the one before.  Opening reads
exactly this chain (`openHistory_spec`), and an append ends with one more block in it
(`appendInner_spec`).
-/

import CordialMiners.Durable.Names

namespace CordialMiners.Reputation

open Codec (bind_eq_ok guard_eq_ok mapError_eq_ok)
open Storage Storage.Program

/-- `PorReputationBlockAppendOutcome`. -/
inductive PorReputationBlockAppendOutcome where
  | appended
  | alreadyPresent
deriving DecidableEq, Repr

/-- `PorReputationBlockHistoryError`. -/
inductive PorReputationBlockHistoryError where
  | io (error : FileError)
  | invalidBlock (error : PorError)
  | invalidFileName (name : List Byte)
  | fileRoundMismatch (fileRound blockRound : U64)
  | nonConsecutiveRound (expected actual : ℕ)
  | roundOverflow (round : U64)
  | shardMismatch
  | previousHashMismatch
  | firstBlockHasPredecessor
  | conflictingRound (round : U64)
  | recoveryRequired
  | historyAheadOfState (historyRound : U64)
  | stateHistoryTipMismatch (stateRound historyRound : U64)

/-- `RecoveredHistory`: what a process knows of the history. -/
structure RecoveredHistory where
  tip : Option ReputationBlock
  len : ℕ
  recoveryRequired : Bool

section Hasher

variable (hasher : List Byte → ContentHash)

/-- `validate_successor`. -/
def validateSuccessor (previous next : ReputationBlock) :
    Except PorReputationBlockHistoryError Unit := do
  let expected ← okOr (.roundOverflow previous.header.round)
    (checkedAdd64 previous.header.round.val 1)
  if next.header.round.val ≠ expected then .error (.nonConsecutiveRound expected next.header.round)
  else if next.header.shardId ≠ previous.header.shardId then .error .shardMismatch
  else do
    let hash ← (reputationBlockHash hasher previous).mapError .invalidBlock
    if next.header.previousReputationHash ≠ some hash then .error .previousHashMismatch else .ok ()

/-- `read_block_file`. -/
def readBlockFile (files : Files) (path : List Byte) (fileRound : U64) :
    Except PorReputationBlockHistoryError ReputationBlock := do
  let encoded ← okOr (.io .notFound) (files.read path)
  if encoded.length > maxBlockWireLen then .error (.invalidBlock .reputationBlockWireTooLarge)
  else do
    let block ← (decodeReputationBlock hasher encoded).mapError .invalidBlock
    if block.header.round ≠ fileRound then .error (.fileRoundMismatch fileRound block.header.round)
    else .ok block

/-- One name of `cleanup_temporary_files`. -/
def cleanupTemporaryFile (name : List Byte) : Program Files PorReputationBlockHistoryError Unit :=
  if isReputationBlockTempFileName name then
    (FileSystem.removeFile (historyDirectory ++ name)).mapError .io
  else pure ()

/-- `cleanup_temporary_files`. -/
def cleanupTemporaryFiles : Program Files PorReputationBlockHistoryError Unit := do
  let names ← inspect fun files => .ok (historyNames files)
  names.forM cleanupTemporaryFile

/-- One name of `recover_history`. -/
def insertRetained (retained : OrderedMap U64 (List Byte)) (name : List Byte) :
    Except PorReputationBlockHistoryError (OrderedMap U64 (List Byte)) :=
  if isReputationBlockTempFileName name then .ok retained
  else
    match parseReputationBlockFileName name with
    | none =>
        if blockFilePrefix.isPrefixOf name then .error (.invalidFileName name) else .ok retained
    | some round =>
        if retained.lookup round ≠ none then .error (.invalidFileName name)
        else .ok (retained.insert round (historyDirectory ++ name))

/-- The block of a file has to follow the tip, if there is one. -/
def validateAfter (tip : Option ReputationBlock) (block : ReputationBlock) :
    Except PorReputationBlockHistoryError Unit :=
  match tip with
  | none => .ok ()
  | some previous => validateSuccessor hasher previous block

/-- One file of `recover_history`. -/
def recoverNext (files : Files) (recovered : RecoveredHistory) (file : U64 × List Byte) :
    Except PorReputationBlockHistoryError RecoveredHistory := do
  let block ← readBlockFile hasher files file.2 file.1
  validateAfter hasher recovered.tip block
  .ok { recovered with tip := some block, len := recovered.len + 1 }

/-- `recover_history`. -/
def recoverHistory (files : Files) : Except PorReputationBlockHistoryError RecoveredHistory := do
  let retained ← (historyNames files).foldlM insertRetained .empty
  retained.entries.foldlM (recoverNext hasher files) ⟨none, 0, false⟩

/-- `PorReputationBlockHistory::open`. -/
def openHistory : Program Files PorReputationBlockHistoryError RecoveredHistory := do
  cleanupTemporaryFiles
  inspect (recoverHistory hasher)

namespace RecoveredHistory

/-- `existing_outcome`. -/
def existingOutcome (files : Files) (block : ReputationBlock) :
    Except PorReputationBlockHistoryError PorReputationBlockAppendOutcome := do
  let existing ← readBlockFile hasher files (blockPath block.header.round) block.header.round
  if existing = block then .ok .alreadyPresent else .error (.conflictingRound block.header.round)

/-- The checks of `append_inner` before it writes: what is there already, or the bytes of the
file. -/
def beforeCommit (self : RecoveredHistory) (block : ReputationBlock) (allowCheckpoint : Bool)
    (files : Files) :
    Except PorReputationBlockHistoryError (PorReputationBlockAppendOutcome ⊕ List Byte) := do
  let encoded ← (encodeReputationBlock hasher block).mapError .invalidBlock
  if self.recoveryRequired then .error .recoveryRequired
  else
    match self.tip with
    | some tip =>
        if block.header.round ≤ tip.header.round then .inl <$> existingOutcome hasher files block
        else do
          validateSuccessor hasher tip block
          if files.read (blockPath block.header.round) ≠ none then
            .inl <$> existingOutcome hasher files block
          else .ok (.inr encoded)
    | none =>
        if block.header.previousReputationHash.isSome ∧ !allowCheckpoint then
          .error .firstBlockHasPredecessor
        else if files.read (blockPath block.header.round) ≠ none then
          .inl <$> existingOutcome hasher files block
        else .ok (.inr encoded)

/-- `append_inner`: the outcome, and what the process knows then. -/
def appendInner (self : RecoveredHistory) (block : ReputationBlock) (allowCheckpoint : Bool) :
    Program Files Empty
      (Except PorReputationBlockHistoryError PorReputationBlockAppendOutcome × RecoveredHistory) := do
  match ← (inspect (self.beforeCommit hasher block allowCheckpoint)).attempt with
  | .error error => pure (.error error, self)
  | .ok (.inl outcome) => pure (.ok outcome, self)
  | .ok (.inr encoded) =>
      match ← (FileSystem.publishFile (blockTempPath block.header.round)
          (blockPath block.header.round) encoded).attempt with
      | .error error => pure (.error (.io error), { self with recoveryRequired := true })
      | .ok () => pure (.ok .appended, { self with tip := some block, len := self.len + 1 })

/-- `append`. -/
def append (self : RecoveredHistory) (block : ReputationBlock) :
    Program Files Empty
      (Except PorReputationBlockHistoryError PorReputationBlockAppendOutcome × RecoveredHistory) :=
  self.appendInner hasher block false

/-- `reconcile_state_tip`. -/
def reconcileStateTip (self : RecoveredHistory) (stateTip : Option ReputationBlock) :
    Program Files Empty (Except PorReputationBlockHistoryError Unit × RecoveredHistory) :=
  if self.recoveryRequired then pure (.error .recoveryRequired, self)
  else
    match self.tip, stateTip with
    | none, none => pure (.ok (), self)
    | none, some block => do
        let (outcome, self) ← self.appendInner hasher block true
        pure (outcome.map fun _ => (), self)
    | some history, none => pure (.error (.historyAheadOfState history.header.round), self)
    | some history, some block =>
        if history = block then pure (.ok (), self)
        else if checkedAdd64 history.header.round.val 1 = some block.header.round.val then do
          let (outcome, self) ← self.appendInner hasher block false
          pure (outcome.map fun _ => (), self)
        else
          pure (.error (.stateHistoryTipMismatch block.header.round history.header.round), self)

end RecoveredHistory

end Hasher

/-! ### Chains -/

variable {hasher : List Byte → ContentHash} {files t : Files} {chain : List ReputationBlock}
  {block previous next : ReputationBlock} {bytes path name : List Byte} {touched : Set (List Byte)}

/-- One block follows another: it is of the next round and the same shard, and has its hash. -/
structure Follows (hasher : List Byte → ContentHash) (previous next : ReputationBlock) : Prop where
  round : checkedAdd64 previous.header.round.val 1 = some next.header.round.val
  shard : next.header.shardId = previous.header.shardId
  hash : ∃ hash, reputationBlockHash hasher previous = .ok hash ∧
    next.header.previousReputationHash = some hash

theorem validateSuccessor_eq_ok :
    validateSuccessor hasher previous next = .ok () ↔ Follows hasher previous next := by
  unfold validateSuccessor
  simp only [bind_eq_ok, guard_eq_ok, okOr_eq_ok,
    mapError_eq_ok, not_not, and_true]
  constructor
  · rintro ⟨_, hround, rfl, hshard, hash, hhash, hprevious⟩
    exact ⟨hround, hshard, hash, hhash, hprevious⟩
  · rintro ⟨hround, hshard, hash, hhash, hprevious⟩
    exact ⟨_, hround, rfl, hshard, hash, hhash, hprevious⟩

theorem Follows.lt (h : Follows hasher previous next) : previous.header.round < next.header.round := by
  have hround := h.round
  unfold checkedAdd64 at hround
  split_ifs at hround
  rw [Fin.lt_def, ← Option.some.inj hround]
  omega

/-- Along a chain the rounds grow. -/
theorem ascending_of_isChain (h : chain.IsChain (Follows hasher)) :
    Keyed.Ascending (fun block => block.header.round) chain :=
  List.isChain_iff_pairwise.1 (h.imp fun _ _ => Follows.lt)

/-- The temporary files of the history. -/
def tempPaths : Set (List Byte) := {path | ∃ round, path = blockTempPath round}

/-- **What the files of a history are**: one chain, and perhaps temporary files. -/
structure Retained (hasher : List Byte → ContentHash) (files : Files)
    (chain : List ReputationBlock) : Prop where
  linked : chain.IsChain (Follows hasher)
  stored : ∀ block ∈ chain, ∃ bytes, encodeReputationBlock hasher block = .ok bytes ∧
    files.read (blockPath block.header.round) = some bytes
  only : ∀ round, files.read (blockPath round) ≠ none → ∃ block ∈ chain, block.header.round = round
  known : ∀ name, files.read (historyDirectory ++ name) ≠ none →
    ∃ round, name = reputationBlockFileName round ∨ name = reputationBlockTempFileName round

/-- A history without temporary files. -/
structure Tidy (hasher : List Byte → ContentHash) (files : Files)
    (chain : List ReputationBlock) : Prop extends Retained hasher files chain where
  noTemp : ∀ round, files.read (blockTempPath round) = none

/-- The chain ends with the latest block, or the latest block is the next one. -/
def Reaches (hasher : List Byte → ContentHash) (chain : List ReputationBlock)
    (latest : Option ReputationBlock) : Prop :=
  chain.getLast? = latest ∨ ∃ block bytes, latest = some block ∧
    encodeReputationBlock hasher block = .ok bytes ∧
    ∀ tip, chain.getLast? = some tip → Follows hasher tip block

/-- The directory of the history. -/
def historyPaths : Set (List Byte) := {path | ∃ name, path = historyDirectory ++ name}

/-- What a crash in the history leaves: a chain that reaches the latest block. -/
structure Interrupted (hasher : List Byte → ContentHash) (files t : Files)
    (latest : Option ReputationBlock) : Prop where
  keeps : files.Keeps t historyPaths
  chain : ∃ chain, Retained hasher t chain ∧ Reaches hasher chain latest

/-- What happens elsewhere, or to temporary files, keeps the chain. -/
theorem Retained.keeps (h : Retained hasher files chain) (hkeeps : files.Keeps t touched)
    (htouched : ∀ name, historyDirectory ++ name ∈ touched →
      ∃ round, name = reputationBlockTempFileName round) : Retained hasher t chain := by
  have hblock : ∀ round, blockPath round ∉ touched := by
    intro round hmem
    obtain ⟨round', heq⟩ := htouched _ hmem
    exact blockTempPath_ne_blockPath (congrArg (historyDirectory ++ ·) heq).symm
  refine ⟨h.linked, fun block hb => ?_, fun round hread => ?_, fun name hread => ?_⟩
  · rw [hkeeps.same _ (hblock _)]
    exact h.stored block hb
  · rw [hkeeps.same _ (hblock _)] at hread
    exact h.only round hread
  · by_cases hmem : historyDirectory ++ name ∈ touched
    · obtain ⟨round, rfl⟩ := htouched name hmem
      exact ⟨round, Or.inr rfl⟩
    · rw [hkeeps.same _ hmem] at hread
      exact h.known name hread

/-- **One block more.** -/
theorem Retained.concat (h : Retained hasher files chain)
    (hfollows : ∀ tip, chain.getLast? = some tip → Follows hasher tip block)
    (hencode : encodeReputationBlock hasher block = .ok bytes)
    (hkeeps : files.Keeps t {blockTempPath block.header.round, blockPath block.header.round})
    (hread : t.read (blockPath block.header.round) = some bytes) :
    Retained hasher t (chain ++ [block]) := by
  have hlinked : (chain ++ [block]).IsChain (Follows hasher) := by
    refine h.linked.append (by simp) fun tip htip next hnext => ?_
    simp only [List.head?_cons, Option.mem_def, Option.some.injEq] at hnext
    exact hnext ▸ hfollows tip htip
  have hother : ∀ round, round ≠ block.header.round → blockPath round ∉
      ({blockTempPath block.header.round, blockPath block.header.round} : Set (List Byte)) := by
    intro round hne hmem
    rcases hmem with hmem | hmem
    · exact blockTempPath_ne_blockPath hmem.symm
    · exact hne (blockPath_inj hmem)
  refine ⟨hlinked, fun b hb => ?_, fun round hround => ?_, fun name hname => ?_⟩
  · rcases List.mem_append.1 hb with hb | hb
    · have hlt := (List.pairwise_append.1 (ascending_of_isChain hlinked)).2.2 b hb block (by simp)
      rw [hkeeps.same _ (hother _ hlt.ne)]
      exact h.stored b hb
    · obtain rfl := List.mem_singleton.1 hb
      exact ⟨bytes, hencode, hread⟩
  · by_cases hne : round = block.header.round
    · exact ⟨block, by simp, hne.symm⟩
    · rw [hkeeps.same _ (hother round hne)] at hround
      obtain ⟨b, hb, hbround⟩ := h.only round hround
      exact ⟨b, List.mem_append_left _ hb, hbround⟩
  · by_cases hmem : historyDirectory ++ name ∈
        ({blockTempPath block.header.round, blockPath block.header.round} : Set (List Byte))
    · rcases hmem with hmem | hmem
      · exact ⟨_, Or.inr (List.append_cancel_left hmem)⟩
      · exact ⟨_, Or.inl (List.append_cancel_left hmem)⟩
    · rw [hkeeps.same _ hmem] at hname
      exact h.known name hname

/-- A round behind the chain has no file. -/
theorem Retained.read_next (h : Retained hasher files chain)
    (hfollows : ∀ tip, chain.getLast? = some tip → Follows hasher tip block) :
    files.read (blockPath block.header.round) = none := by
  by_contra hread
  obtain ⟨b, hb, heq⟩ := h.only _ hread
  obtain ⟨init, tip, rfl⟩ : ∃ init tip, chain = init ++ [tip] :=
    (List.eq_nil_or_concat' chain).resolve_left (List.ne_nil_of_mem hb)
  have htip := (hfollows tip (by simp)).lt
  rcases List.mem_append.1 hb with hb | hb
  · have hlt := (List.pairwise_append.1 (ascending_of_isChain h.linked)).2.2 b hb tip (by simp)
    exact absurd (hlt.trans htip) (by simp [heq])
  · obtain rfl := List.mem_singleton.1 hb
    exact absurd htip (by simp [heq])

/-! ### Opening -/

theorem readBlockFile_stored (hencode : encodeReputationBlock hasher block = .ok bytes)
    (hread : files.read path = some bytes) :
    readBlockFile hasher files path block.header.round = .ok block := by
  unfold readBlockFile
  have hlength := length_of_encodeReputationBlock hencode
  refine bind_eq_ok.2 ⟨bytes, okOr_eq_ok.2 hread, ?_⟩
  rw [if_neg (by omega)]
  refine bind_eq_ok.2 ⟨block, mapError_eq_ok.2
    (decodeReputationBlock_eq_ok_iff.2 hencode), ?_⟩
  rw [if_neg (not_not.2 rfl)]

/-- The file names of the blocks are collected by their rounds. -/
theorem foldlM_insertRetained {names : List (List Byte)} {retained : OrderedMap U64 (List Byte)}
    (hnames : ∀ name ∈ names, ∃ round, name = reputationBlockFileName round ∨
      name = reputationBlockTempFileName round) (hnodup : names.Nodup)
    (hfresh : ∀ round, reputationBlockFileName round ∈ names → retained.lookup round = none) :
    ∃ out, names.foldlM insertRetained retained = .ok out ∧ ∀ round, out.lookup round =
      if reputationBlockFileName round ∈ names then some (blockPath round)
      else retained.lookup round := by
  induction names generalizing retained with
  | nil => exact ⟨retained, rfl, fun round => by simp⟩
  | cons name names ih =>
      have hrest : ∀ name ∈ names, ∃ round, name = reputationBlockFileName round ∨
          name = reputationBlockTempFileName round :=
        fun other hother => hnames other (List.mem_cons_of_mem _ hother)
      obtain ⟨hnotMem, hnodupRest⟩ := List.nodup_cons.1 hnodup
      obtain ⟨round, rfl | rfl⟩ := hnames name List.mem_cons_self
      · have hinsert : insertRetained retained (reputationBlockFileName round) =
            .ok (retained.insert round (blockPath round)) := by
          unfold insertRetained
          rw [if_neg (by simp [isReputationBlockTempFileName_reputationBlockFileName]),
            parseReputationBlockFileName_reputationBlockFileName]
          dsimp only
          rw [if_neg (not_not.2 (hfresh round List.mem_cons_self))]
          rfl
        obtain ⟨out, hout, hlookup⟩ := @ih (retained.insert round (blockPath round)) hrest
          hnodupRest fun other hother => by
            have hne : other ≠ round := by
              rintro rfl
              exact hnotMem hother
            rw [OrderedMap.lookup_insert, if_neg hne]
            exact hfresh other (List.mem_cons_of_mem _ hother)
        refine ⟨out, bind_eq_ok.2 ⟨_, hinsert, hout⟩, fun other => ?_⟩
        rw [hlookup, OrderedMap.lookup_insert]
        by_cases heq : other = round
        · subst heq
          simp
        · have hne : reputationBlockFileName other ≠ reputationBlockFileName round :=
            fun h => heq (reputationBlockFileName_inj h)
          simp [heq, hne]
      · have htemp := isReputationBlockTempFileName_reputationBlockTempFileName round
        have hne : ∀ other, reputationBlockFileName other ≠ reputationBlockTempFileName round := by
          intro other h
          rw [← h, isReputationBlockTempFileName_reputationBlockFileName] at htemp
          exact absurd htemp (by simp)
        obtain ⟨out, hout, hlookup⟩ := ih hrest hnodupRest fun other hother =>
          hfresh other (List.mem_cons_of_mem _ hother)
        refine ⟨out, bind_eq_ok.2 ⟨retained, if_pos htemp, hout⟩, fun other => ?_⟩
        rw [hlookup]
        simp [hne other]

/-- The files of a chain are read one after the other. -/
theorem foldlM_recoverNext {tip : Option ReputationBlock} {len : ℕ}
    (hstored : ∀ block ∈ chain, ∃ bytes, encodeReputationBlock hasher block = .ok bytes ∧
      files.read (blockPath block.header.round) = some bytes)
    (hlinked : (tip.toList ++ chain).IsChain (Follows hasher)) :
    (chain.map fun block => (block.header.round, blockPath block.header.round)).foldlM
        (recoverNext hasher files) ⟨tip, len, false⟩ =
      .ok ⟨(tip.toList ++ chain).getLast?, len + chain.length, false⟩ := by
  induction chain generalizing tip len with
  | nil => cases tip <;> rfl
  | cons block chain ih =>
      obtain ⟨bytes, hencode, hread⟩ := hstored block List.mem_cons_self
      have hafter : validateAfter hasher tip block = .ok () := by
        cases tip with
        | none => rfl
        | some previous =>
            have hpair := (List.isChain_cons.1 hlinked).1 block (by simp)
            exact validateSuccessor_eq_ok.2 hpair
      have hnext : recoverNext hasher files ⟨tip, len, false⟩
          (block.header.round, blockPath block.header.round) = .ok ⟨some block, len + 1, false⟩ :=
        bind_eq_ok.2 ⟨block, readBlockFile_stored hencode hread,
          bind_eq_ok.2 ⟨(), hafter, rfl⟩⟩
      have hrest : ((some block).toList ++ chain).IsChain (Follows hasher) :=
        List.IsChain.right_of_append hlinked
      rw [List.map_cons, List.foldlM_cons, hnext]
      refine (ih (fun b hb => hstored b (List.mem_cons_of_mem _ hb)) hrest).trans ?_
      have hlast : (tip.toList ++ block :: chain).getLast? = (block :: chain).getLast? := by
        rw [List.getLast?_append]
        cases h : (block :: chain).getLast? with
        | none => exact absurd (List.getLast?_eq_none_iff.1 h) (by simp)
        | some last => rfl
      rw [hlast, List.length_cons, show len + (chain.length + 1) = len + 1 + chain.length by omega]
      rfl

theorem nodup_historyNames (files : Files) : (historyNames files).Nodup := by
  have hkeys : files.names.keys.Nodup := by
    refine List.Pairwise.map _ ?_ files.names.ascending
    exact fun _ _ h => ne_of_lt h
  refine hkeys.filterMap fun a a' b hb hb' => ?_
  obtain ⟨before, rfl, hbefore⟩ := List.dropPrefix?_eq_some_iff.1 hb
  obtain ⟨before', rfl, hbefore'⟩ := List.dropPrefix?_eq_some_iff.1 hb'
  rw [eq_of_beq hbefore, eq_of_beq hbefore']

/-- **A history is recovered as the chain that its files are.** -/
theorem Retained.recoverHistory_eq (h : Retained hasher files chain) :
    recoverHistory hasher files = .ok ⟨chain.getLast?, chain.length, false⟩ := by
  have hnames : ∀ name ∈ historyNames files, ∃ round, name = reputationBlockFileName round ∨
      name = reputationBlockTempFileName round :=
    fun name hname => h.known name (mem_historyNames_iff.1 hname)
  obtain ⟨retained, hfold, hlookup⟩ := @foldlM_insertRetained _ .empty hnames
    (nodup_historyNames files) fun _ _ => rfl
  have hascending : Keyed.Ascending Prod.fst
      (chain.map fun block => (block.header.round, blockPath block.header.round)) :=
    List.pairwise_map.2 (ascending_of_isChain h.linked)
  obtain rfl : retained = ⟨_, hascending⟩ := by
    refine OrderedMap.ext_lookup fun round => Option.ext fun path => ?_
    rw [hlookup, ← OrderedMap.mem_entries_iff, List.mem_map]
    constructor
    · intro hpath
      split_ifs at hpath with hmem
      · obtain ⟨block, hb, rfl⟩ := h.only round (mem_historyNames_iff.1 hmem)
        obtain rfl := Option.some.inj hpath
        exact ⟨block, hb, rfl⟩
      · exact absurd hpath (by simp)
    · rintro ⟨block, hb, heq⟩
      obtain ⟨rfl, rfl⟩ := Prod.mk.inj heq
      obtain ⟨bytes, -, hread⟩ := h.stored block hb
      rw [if_pos (mem_historyNames_iff.2 (ne_of_eq_of_ne hread (by simp)))]
  refine bind_eq_ok.2 ⟨_, hfold, ?_⟩
  simpa using @foldlM_recoverNext hasher files chain none 0 h.stored h.linked

variable {self : RecoveredHistory} {latest : Option ReputationBlock} {allowCheckpoint : Bool}

theorem tempPaths_subset : tempPaths ⊆ historyPaths := by
  rintro _ ⟨round, rfl⟩
  exact ⟨_, rfl⟩

theorem pair_subset_historyPaths (round : U64) :
    {blockTempPath round, blockPath round} ⊆ historyPaths := by
  rintro _ (rfl | rfl)
  · exact ⟨_, rfl⟩
  · exact ⟨_, rfl⟩

/-- Temporary files do not matter to a chain. -/
theorem Retained.keeps_temp (h : Retained hasher files chain) (hkeeps : files.Keeps t touched)
    (htouched : touched ⊆ tempPaths) : Retained hasher t chain := by
  refine h.keeps hkeeps fun name hname => ?_
  obtain ⟨round, heq⟩ := htouched hname
  exact ⟨round, List.append_cancel_left heq⟩

theorem Retained.interrupted (h : Retained hasher files chain) (hreach : Reaches hasher chain latest)
    (hkeeps : files.Keeps t touched) (htouched : touched ⊆ tempPaths) :
    Interrupted hasher files t latest :=
  ⟨hkeeps.mono (htouched.trans tempPaths_subset), chain, h.keeps_temp hkeeps htouched, hreach⟩

/-- While cleaning up: the names that are still to be looked at. -/
structure Cleaning (files : Files) (rest : List (List Byte)) (t : Files) : Prop where
  keeps : files.Keeps t tempPaths
  nodup : rest.Nodup
  there : ∀ name ∈ rest, t.read (historyDirectory ++ name) ≠ none ∧
    ∃ round, name = reputationBlockFileName round ∨ name = reputationBlockTempFileName round
  temp : ∀ round, t.read (blockTempPath round) ≠ none → reputationBlockTempFileName round ∈ rest

theorem Retained.cleaning (h : Retained hasher files chain) :
    Cleaning files (historyNames files) files :=
  ⟨.rfl, nodup_historyNames files, fun name hname =>
    ⟨mem_historyNames_iff.1 hname, h.known name (mem_historyNames_iff.1 hname)⟩,
    fun _ hround => mem_historyNames_iff.2 hround⟩

theorem cleanupTemporaryFile_spec {rest : List (List Byte)} {C : Files → Prop}
    (h : Cleaning files (name :: rest) t) (hC : ∀ u, files.Keeps u tempPaths → C u) :
    (cleanupTemporaryFile name).Spec t C (Returns fun _ => Cleaning files rest) := by
  obtain ⟨hkeeps, hnodup, hthere, htemp⟩ := h
  obtain ⟨hnotMem, hnodupRest⟩ := List.nodup_cons.1 hnodup
  obtain ⟨hread, round, rfl | rfl⟩ := hthere name List.mem_cons_self
  · have hblock := isReputationBlockTempFileName_reputationBlockFileName round
    unfold cleanupTemporaryFile
    rw [if_neg (by simp [hblock])]
    refine Spec.pure_returns (hC t hkeeps) ⟨hkeeps, hnodupRest, fun other hother =>
      hthere other (List.mem_cons_of_mem _ hother), fun other hother => ?_⟩
    refine (List.mem_cons.1 (htemp other hother)).resolve_left fun heq => ?_
    rw [← heq, isReputationBlockTempFileName_reputationBlockTempFileName] at hblock
    exact absurd hblock (by simp)
  · have hunlink : t.Keeps (t.unlink (blockTempPath round)) {blockTempPath round} :=
      FileSystem.keeps_unlink _
    have hkeeps' : files.Keeps (t.unlink (blockTempPath round)) tempPaths :=
      (hkeeps.trans hunlink).mono (Set.union_subset subset_rfl
        (Set.singleton_subset_iff.2 ⟨round, rfl⟩))
    unfold cleanupTemporaryFile
    rw [if_pos (isReputationBlockTempFileName_reputationBlockTempFileName round)]
    refine Spec.mapError_returns ((FileSystem.removeFile_spec hread (hC t hkeeps)
      (hC _ hkeeps')).mono (fun _ h => h) ?_)
    rintro r u - ⟨a, ha, rfl⟩
    refine ⟨a, ha, hkeeps', hnodupRest, fun other hother => ?_, fun other hother => ?_⟩
    · have hne : historyDirectory ++ other ∉ ({blockTempPath round} : Set (List Byte)) := by
        intro heq
        rw [List.append_cancel_left heq] at hother
        exact hnotMem hother
      rw [show (t.unlink (historyDirectory ++ reputationBlockTempFileName round)).read _ = _ from
        hunlink.same _ hne]
      exact hthere other (List.mem_cons_of_mem _ hother)
    · have hne : blockTempPath other ≠ blockTempPath round := by
        intro heq
        rw [heq] at hother
        exact hother FileSystem.read_unlink
      rw [show (t.unlink (historyDirectory ++ reputationBlockTempFileName round)).read _ = _ from
        hunlink.same _ (by simpa using hne)] at hother
      exact (List.mem_cons.1 (htemp other hother)).resolve_left fun heq =>
        hne (congrArg (historyDirectory ++ ·) heq)

/-- **Cleaning up** removes the temporary files and nothing else. -/
theorem cleanupTemporaryFiles_spec (h : Retained hasher files chain)
    (hreach : Reaches hasher chain latest) :
    cleanupTemporaryFiles.Spec files (Interrupted hasher files · latest)
      (Returns fun _ t => Tidy hasher t chain ∧ files.Keeps t historyPaths) := by
  have hC : ∀ u, files.Keeps u tempPaths → Interrupted hasher files u latest :=
    fun u hu => h.interrupted hreach hu subset_rfl
  have hnames : (inspect fun files => .ok (historyNames files) :
      Program Files PorReputationBlockHistoryError _).Spec files
        (Interrupted hasher files · latest)
        (Returns fun names t => names = historyNames files ∧ t = files) :=
    Spec.inspect_returns (hC files .rfl) rfl ⟨rfl, rfl⟩
  refine Spec.bind_returns hnames fun names t _ ht => ?_
  obtain ⟨rfl, rfl⟩ := ht
  refine (Spec.forM (Cleaning t) (fun name rest u hu => cleanupTemporaryFile_spec hu hC)
    (fun u hu => hC u hu.keeps) h.cleaning).mono (fun _ h => h) ?_
  rintro r u - ⟨a, ha, hcleaned⟩
  refine ⟨a, ha, ⟨h.keeps_temp hcleaned.keeps subset_rfl, fun round => ?_⟩,
    hcleaned.keeps.mono tempPaths_subset⟩
  by_contra hround
  exact absurd (hcleaned.temp round hround) (by simp)

/-- **Opening a history** reads the chain that its files are. -/
theorem openHistory_spec (h : Retained hasher files chain) (hreach : Reaches hasher chain latest) :
    (openHistory hasher).Spec files (Interrupted hasher files · latest)
      (Returns fun recovered t => recovered = ⟨chain.getLast?, chain.length, false⟩ ∧
        Tidy hasher t chain ∧ files.Keeps t historyPaths) := by
  refine Spec.bind_returns (cleanupTemporaryFiles_spec h hreach) fun _ t hC ht => ?_
  exact Spec.inspect_returns hC ht.1.recoverHistory_eq ⟨rfl, ht⟩

/-! ### Appending -/

/-- The block behind the chain is written. -/
theorem beforeCommit_next (h : Retained hasher files chain) (htip : self.tip = chain.getLast?)
    (hhealthy : self.recoveryRequired = false)
    (hfollows : ∀ tip, chain.getLast? = some tip → Follows hasher tip block)
    (hfirst : chain.getLast? = none → block.header.previousReputationHash = none ∨
      allowCheckpoint = true)
    (hencode : encodeReputationBlock hasher block = .ok bytes) :
    self.beforeCommit hasher block allowCheckpoint files = .ok (.inr bytes) := by
  have hfree := h.read_next hfollows
  unfold RecoveredHistory.beforeCommit
  refine bind_eq_ok.2 ⟨bytes, mapError_eq_ok.2 hencode, ?_⟩
  rw [hhealthy, if_neg (by simp), htip]
  cases hlast : chain.getLast? with
  | none =>
      dsimp only
      rw [if_neg, if_neg (not_not.2 hfree)]
      rintro ⟨hsome, hallow⟩
      rcases hfirst hlast with hnone | htrue
      · rw [hnone] at hsome
        exact absurd hsome (by simp)
      · rw [htrue] at hallow
        exact absurd hallow (by simp)
  | some tip =>
      have hnext := hfollows tip hlast
      dsimp only
      rw [if_neg (not_le.2 hnext.lt)]
      refine bind_eq_ok.2 ⟨(), validateSuccessor_eq_ok.2 hnext, ?_⟩
      rw [if_neg (not_not.2 hfree)]

/-- **An append** ends with one more block in the chain. -/
theorem appendInner_spec (h : Tidy hasher files chain) (htip : self.tip = chain.getLast?)
    (hhealthy : self.recoveryRequired = false)
    (hfollows : ∀ tip, chain.getLast? = some tip → Follows hasher tip block)
    (hfirst : chain.getLast? = none → block.header.previousReputationHash = none ∨
      allowCheckpoint = true)
    (hencode : encodeReputationBlock hasher block = .ok bytes) :
    (self.appendInner hasher block allowCheckpoint).Spec files
      (Interrupted hasher files · (some block))
      (Returns fun out t => out = (.ok .appended, ⟨some block, self.len + 1, false⟩) ∧
        Tidy hasher t (chain ++ [block]) ∧ files.Keeps t historyPaths) := by
  have hreach : Reaches hasher chain (some block) := Or.inr ⟨block, bytes, rfl, hencode, hfollows⟩
  have hlast : (chain ++ [block]).getLast? = some block := by simp
  have htemp : {blockTempPath block.header.round} ⊆ tempPaths := by
    rintro _ rfl
    exact ⟨_, rfl⟩
  have hC : ∀ t, files.Keeps t {blockTempPath block.header.round} →
      Interrupted hasher files t (some block) := fun t ht => h.interrupted hreach ht htemp
  have hchecked : (inspect (self.beforeCommit hasher block allowCheckpoint)).Spec files
      (Interrupted hasher files · (some block))
      (Returns fun checked t => checked = .inr bytes ∧ t = files) :=
    Spec.inspect_returns (hC files .rfl)
      (beforeCommit_next h.toRetained htip hhealthy hfollows hfirst hencode) ⟨rfl, rfl⟩
  refine Spec.bind_returns (Spec.attempt_returns hchecked) fun checked t _ ht => ?_
  obtain ⟨_, rfl, rfl, rfl⟩ := ht
  have hpublished : (FileSystem.publishFile (blockTempPath block.header.round)
      (blockPath block.header.round) bytes).Spec t (Interrupted hasher t · (some block))
      (Returns fun _ u => Tidy hasher u (chain ++ [block]) ∧ t.Keeps u historyPaths) := by
    refine FileSystem.publishFile_spec (h.noTemp _) (h.toRetained.read_next hfollows)
      blockTempPath_ne_blockPath hC (fun u hkeeps hread => ?_) fun u hkeeps hnone hread => ?_
    · exact ⟨hkeeps.mono (pair_subset_historyPaths _), _,
        h.toRetained.concat hfollows hencode hkeeps hread, Or.inl hlast⟩
    · refine ⟨⟨h.toRetained.concat hfollows hencode hkeeps hread, fun round => ?_⟩,
        hkeeps.mono (pair_subset_historyPaths _)⟩
      by_cases heq : blockTempPath round = blockTempPath block.header.round
      · rw [heq, hnone]
      · rw [hkeeps.same _ (by simp [heq, blockTempPath_ne_blockPath]), h.noTemp]
  refine Spec.bind_returns (Spec.attempt_returns hpublished) fun written u hC hu => ?_
  obtain ⟨_, rfl, hu⟩ := hu
  exact Spec.pure_returns hC ⟨by rw [hhealthy], hu⟩

/-- **Reconciling** ends with a chain up to the latest block of the state. -/
theorem reconcileStateTip_spec (h : Tidy hasher files chain) (hreach : Reaches hasher chain latest)
    (hself : self = ⟨chain.getLast?, chain.length, false⟩) :
    (self.reconcileStateTip hasher latest).Spec files (Interrupted hasher files · latest)
      (Returns fun out t => ∃ chain', out = (.ok (), ⟨latest, chain'.length, false⟩) ∧
        Tidy hasher t chain' ∧ chain'.getLast? = latest ∧ files.Keeps t historyPaths) := by
  have hstart := h.interrupted hreach .rfl (Set.empty_subset _)
  subst hself
  unfold RecoveredHistory.reconcileStateTip
  rw [if_neg (by simp)]
  rcases hreach with rfl | ⟨block, bytes, rfl, hencode, hfollows⟩
  · cases hlast : chain.getLast? with
    | none => exact Spec.pure_returns (hlast ▸ hstart) ⟨chain, rfl, h, hlast, .rfl⟩
    | some tip =>
        dsimp only
        rw [if_pos rfl]
        exact Spec.pure_returns (hlast ▸ hstart) ⟨chain, rfl, h, hlast, .rfl⟩
  · have happend : ∀ allow, (chain.getLast? = none → block.header.previousReputationHash = none ∨
        allow = true) → (do
          let (outcome, self) ← (⟨chain.getLast?, chain.length, false⟩ :
            RecoveredHistory).appendInner hasher block allow
          pure (outcome.map fun _ => (), self) : Program Files Empty
            (Except PorReputationBlockHistoryError Unit × RecoveredHistory)).Spec files
          (Interrupted hasher files · (some block))
          (Returns fun out t => ∃ chain', out = (.ok (), ⟨some block, chain'.length, false⟩) ∧
            Tidy hasher t chain' ∧ chain'.getLast? = some block ∧ files.Keeps t historyPaths) := by
      intro allow hfirst
      refine Spec.bind_returns (appendInner_spec h rfl rfl hfollows hfirst hencode)
        fun out t hC hout => ?_
      obtain ⟨rfl, ht, hkeeps⟩ := hout
      exact Spec.pure_returns hC ⟨chain ++ [block], by simp [Except.map], ht, by simp, hkeeps⟩
    cases hlast : chain.getLast? with
    | none =>
        have hspec := happend true fun _ => Or.inr rfl
        rw [hlast] at hspec
        exact hspec
    | some tip =>
        have hnext := hfollows tip hlast
        have hspec := happend false fun hnone => absurd (hlast.symm.trans hnone) (by simp)
        rw [hlast] at hspec
        dsimp only
        rw [if_neg fun heq => absurd hnext.lt (by simp [heq]), if_pos hnext.round]
        exact hspec

end CordialMiners.Reputation
