/-
# Names below the data directory

The file names of `por/persistence.rs`, `por/history.rs`, `por/activation.rs` and
`por/epoch_record.rs`.

Three files are replaced through a temporary file each.  The block of a round has a
file of its own in the directory of the history, named by the round in twenty
digits.  Its name says the round (`parseReputationBlockFileName_reputationBlockFileName`),
and its temporary name is recognized as one.
-/

import CordialMiners.Reputation.Snapshot
import CordialMiners.Storage.FileSystem

namespace CordialMiners.Reputation

open Storage

/-- The data directory: paths relative to it, and their bytes. -/
abbrev Files := FileSystem (List Byte) Byte

/-! ### Replaced files -/

/-- A file that is written whole, through a temporary one. -/
structure ReplacedFile where
  target : List Byte
  temporary : List Byte

/-- `POR_STATE_FILE_NAME`. -/
def stateFile : ReplacedFile :=
  ⟨asciiBytes "por/reputation-state.bin", asciiBytes "por/.reputation-state.bin.tmp"⟩

/-- `POR_WEIGHT_ACTIVATION_FILE_NAME`. -/
def activationFile : ReplacedFile :=
  ⟨asciiBytes "por/weight-activation.bin", asciiBytes "por/.weight-activation.bin.tmp"⟩

/-- `POR_WEIGHT_EPOCH_FILE_NAME`. -/
def epochFile : ReplacedFile :=
  ⟨asciiBytes "por/future-weight-epoch.bin", asciiBytes "por/.future-weight-epoch.bin.tmp"⟩

/-- The names of the replaced files. -/
def replacedNames : List (List Byte) :=
  [stateFile, activationFile, epochFile].flatMap fun file => [file.target, file.temporary]

/-! ### Rounds in names -/

/-- The last `w` decimal digits of a number, as ASCII codes. -/
def decimalDigits : ℕ → ℕ → List Byte
  | 0, _ => []
  | w + 1, n => decimalDigits w (n / 10) ++ [Fin.ofNat 256 (48 + n % 10)]

/-- `u8::is_ascii_digit`. -/
def isAsciiDigit (b : Byte) : Bool := 48 ≤ b.val && b.val ≤ 57

/-- The number that digits stand for. -/
def ofDecimalDigits (digits : List Byte) : ℕ := digits.foldl (fun n b => 10 * n + (b.val - 48)) 0

/-- `REPUTATION_BLOCK_ROUND_DIGITS`. -/
def blockRoundDigits : ℕ := 20

/-- `REPUTATION_BLOCK_FILE_PREFIX`. -/
def blockFilePrefix : List Byte := asciiBytes "reputation-block-"

/-- `REPUTATION_BLOCK_FILE_SUFFIX`. -/
def blockFileSuffix : List Byte := asciiBytes ".bin"

/-- `LEGACY_REPUTATION_BLOCK_TEMP_FILE_NAME`. -/
def legacyBlockTempFileName : List Byte := asciiBytes ".reputation-block.bin.tmp"

/-- `REPUTATION_BLOCK_TEMP_FILE_PREFIX`. -/
def blockTempFilePrefix : List Byte := asciiBytes ".reputation-block-"

/-- `REPUTATION_BLOCK_TEMP_FILE_SUFFIX`. -/
def blockTempFileSuffix : List Byte := asciiBytes ".bin.tmp"

/-- `POR_REPUTATION_BLOCK_HISTORY_DIRECTORY`. -/
def historyDirectory : List Byte := asciiBytes "por/reputation-blocks/"

/-- `reputation_block_file_name`. -/
def reputationBlockFileName (round : U64) : List Byte :=
  blockFilePrefix ++ decimalDigits blockRoundDigits round.val ++ blockFileSuffix

/-- `reputation_block_temp_file_name`. -/
def reputationBlockTempFileName (round : U64) : List Byte :=
  blockTempFilePrefix ++ decimalDigits blockRoundDigits round.val ++ blockTempFileSuffix

/-- What a name holds between two texts, where it is twenty digits. -/
def roundDigits (before after name : List Byte) : Option (List Byte) :=
  ((name.dropPrefix? before).bind fun rest => rest.dropSuffix? after).bind fun digits =>
    if digits.length ≠ blockRoundDigits ∨ !digits.all isAsciiDigit then none else some digits

/-- `is_reputation_block_temp_file_name`. -/
def isReputationBlockTempFileName (name : List Byte) : Bool :=
  name = legacyBlockTempFileName || (roundDigits blockTempFilePrefix blockTempFileSuffix name).isSome

/-- `parse_reputation_block_file_name`. -/
def parseReputationBlockFileName (name : List Byte) : Option U64 :=
  (roundDigits blockFilePrefix blockFileSuffix name).bind fun digits => tryU64 (ofDecimalDigits digits)

/-- `block_path`. -/
def blockPath (round : U64) : List Byte := historyDirectory ++ reputationBlockFileName round

/-- The path of a round's temporary file. -/
def blockTempPath (round : U64) : List Byte := historyDirectory ++ reputationBlockTempFileName round

/-- `read_dir` of the history: the names below its directory. -/
def historyNames (files : Files) : List (List Byte) :=
  files.names.keys.filterMap (·.dropPrefix? historyDirectory)

/-! ### Names say their rounds -/

variable {round round' : U64} {files : Files} {name path : List Byte}

@[simp] theorem length_decimalDigits (w n : ℕ) : (decimalDigits w n).length = w := by
  induction w generalizing n with
  | zero => rfl
  | succ w ih => rw [decimalDigits, List.length_append, ih, List.length_singleton]

theorem isAsciiDigit_of_mem {w n : ℕ} {b : Byte} (h : b ∈ decimalDigits w n) :
    isAsciiDigit b = true := by
  induction w generalizing n with
  | zero => exact absurd h (by simp [decimalDigits])
  | succ w ih =>
      rw [decimalDigits, List.mem_append, List.mem_singleton] at h
      rcases h with h | rfl
      · exact ih h
      · have hlt : n % 10 < 10 := Nat.mod_lt _ (by omega)
        unfold isAsciiDigit
        rw [Fin.val_ofNat, Nat.mod_eq_of_lt (by omega), Bool.and_eq_true, decide_eq_true_eq,
          decide_eq_true_eq]
        omega

/-- **Digits stand for the number they were made from.** -/
theorem ofDecimalDigits_decimalDigits {w n : ℕ} (h : n < 10 ^ w) :
    ofDecimalDigits (decimalDigits w n) = n := by
  induction w generalizing n with
  | zero =>
      rw [pow_zero, Nat.lt_one_iff] at h
      exact h.symm
  | succ w ih =>
      have hdiv : n / 10 < 10 ^ w := by
        rw [Nat.div_lt_iff_lt_mul (by omega)]
        rwa [pow_succ] at h
      have hlt : n % 10 < 10 := Nat.mod_lt _ (by omega)
      have hprevious := ih hdiv
      unfold ofDecimalDigits at hprevious ⊢
      rw [decimalDigits, List.foldl_append, hprevious, List.foldl_cons, List.foldl_nil, Fin.val_ofNat,
        Nat.mod_eq_of_lt (by omega)]
      omega

theorem roundDigits_append (before after : List Byte) (round : U64) :
    roundDigits before after (before ++ decimalDigits blockRoundDigits round.val ++ after) =
      some (decimalDigits blockRoundDigits round.val) := by
  have hsuffix : (decimalDigits blockRoundDigits round.val ++ after).dropSuffix? after =
      some (decimalDigits blockRoundDigits round.val) :=
    List.dropSuffix?_eq_some_iff.2 ⟨after, rfl, beq_self_eq_true _⟩
  have hdigits : (decimalDigits blockRoundDigits round.val).all isAsciiDigit = true :=
    List.all_eq_true.2 fun _ => isAsciiDigit_of_mem
  unfold roundDigits
  rw [List.append_assoc, List.dropPrefix?_append_of_beq _ (beq_self_eq_true _), Option.bind_some,
    hsuffix, Option.bind_some, if_neg]
  rw [length_decimalDigits, hdigits]
  simp

/-- **The name of a block's file says its round.** -/
theorem parseReputationBlockFileName_reputationBlockFileName (round : U64) :
    parseReputationBlockFileName (reputationBlockFileName round) = some round := by
  unfold parseReputationBlockFileName reputationBlockFileName
  rw [roundDigits_append, Option.bind_some, ofDecimalDigits_decimalDigits (by
    unfold blockRoundDigits
    omega)]
  exact tryU64_eq_some.2 rfl

theorem isReputationBlockTempFileName_reputationBlockTempFileName (round : U64) :
    isReputationBlockTempFileName (reputationBlockTempFileName round) = true := by
  unfold isReputationBlockTempFileName reputationBlockTempFileName
  rw [roundDigits_append]
  simp

/-- A name that starts with a letter is not a temporary one. -/
theorem isReputationBlockTempFileName_reputationBlockFileName (round : U64) :
    isReputationBlockTempFileName (reputationBlockFileName round) = false := by
  have hhead : (reputationBlockFileName round).head? = some 114 := rfl
  have hdot : ∀ rest, (blockTempFilePrefix ++ rest).head? = some 46 := fun _ => rfl
  unfold isReputationBlockTempFileName
  rw [Bool.or_eq_false_iff]
  constructor
  · rw [decide_eq_false_iff_not]
    intro h
    rw [h] at hhead
    exact absurd hhead (by decide)
  · unfold roundDigits
    cases hdrop : (reputationBlockFileName round).dropPrefix? blockTempFilePrefix with
    | none => rfl
    | some rest =>
        obtain ⟨before, heq, hbefore⟩ := List.dropPrefix?_eq_some_iff.1 hdrop
        rw [heq, eq_of_beq hbefore, hdot] at hhead
        exact absurd hhead (by decide)

/-! ### Paths -/

theorem reputationBlockFileName_inj (h : reputationBlockFileName round = reputationBlockFileName round') :
    round = round' := by
  have hparse := parseReputationBlockFileName_reputationBlockFileName round
  rw [h, parseReputationBlockFileName_reputationBlockFileName] at hparse
  exact (Option.some.inj hparse).symm

theorem blockPath_inj (h : blockPath round = blockPath round') : round = round' :=
  reputationBlockFileName_inj (List.append_cancel_left h)

theorem blockTempPath_ne_blockPath : blockTempPath round ≠ blockPath round' := by
  intro h
  have htemp := isReputationBlockTempFileName_reputationBlockTempFileName round
  rw [show reputationBlockTempFileName round = reputationBlockFileName round' from
    List.append_cancel_left h, isReputationBlockTempFileName_reputationBlockFileName] at htemp
  exact absurd htemp (by simp)

/-- A replaced file is not in the directory of the history. -/
theorem dropPrefix?_replacedNames (h : path ∈ replacedNames) :
    path.dropPrefix? historyDirectory = none := by
  revert path
  decide

theorem append_notMem_replacedNames : historyDirectory ++ name ∉ replacedNames := by
  intro h
  have hdrop := dropPrefix?_replacedNames h
  rw [List.dropPrefix?_append_of_beq _ (by simp)] at hdrop
  exact absurd hdrop (by simp)

theorem mem_historyNames_iff : name ∈ historyNames files ↔ files.read (historyDirectory ++ name) ≠ none := by
  unfold historyNames
  rw [List.mem_filterMap, ne_eq, FileSystem.read_eq_none_iff, ← ne_eq, ← OrderedMap.mem_keys_iff]
  constructor
  · rintro ⟨path, hpath, hdrop⟩
    obtain ⟨before, rfl, hbefore⟩ := List.dropPrefix?_eq_some_iff.1 hdrop
    rwa [← eq_of_beq hbefore]
  · exact fun h => ⟨_, h, List.dropPrefix?_append_of_beq _ (by simp)⟩

end CordialMiners.Reputation
