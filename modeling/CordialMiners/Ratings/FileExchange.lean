/-
# A shared directory of envelopes

`FileRatingBroadcaster`, `FileCheckpointRatingBroadcaster` and `publish_immutable` of
`por/transport/file_exchange.rs`.

Observers on one machine write their envelopes into one directory, each envelope under its
wave or round, its rater and its recipient.  The directory of a checkpoint round has a
marker that says the source of the round, and the marker is published before any envelope.

Any number of observers write at once and any of them may crash.  The directory stays
sound all the same (`exchange_stays_sound`): no envelope is seen in part, every one that is
seen belongs where it stands, and the envelopes of a round belong to the one source that
its marker says, though observers that have finalized different prefixes write there.
-/

import CordialMiners.Node.DeployTrace
import CordialMiners.Durable.Names
import CordialMiners.Ratings.Collection
import CordialMiners.Storage.Publishing

namespace CordialMiners.Reputation

open Storage
open Codec (beBytes ofBeBytes ofBeBytes_beBytes length_beBytes bind_eq_ok check_eq_ok guard_eq_ok
  mapError_eq_ok)

/-! ### Names -/

/-- A path below the directory of the exchange, by its parts. -/
abbrev ExchangePath := List (List Byte)

/-- `hex::encode` as a part of a path. -/
def hexName (bytes : List Byte) : List Byte := (hexEncode bytes).map (Fin.ofNat 256)

/-- A number as a part of a name. -/
def decimalText (n : ℕ) : List Byte := (Nat.toDigits 10 n).map fun c => Fin.ofNat 256 c.toNat

/-- The name of an envelope's file. -/
def envelopeName (recipient : NodeId) : List Byte := hexName recipient.bytes ++ asciiBytes ".bin"

/-- The name of a marker. -/
def sourceMarkerName : List Byte := asciiBytes "source.bin"

/-- The name of a temporary file: the process and a number of its own. -/
def exchangeTemporaryName (process number : ℕ) : List Byte :=
  asciiBytes ".tmp-" ++ decimalText process ++ asciiBytes "-" ++ decimalText number

/-- What an envelope is published for. -/
inductive ExchangeRound where
  | wave (finalizedWave : U64)
  | checkpoint (source : RatingSourceCheckpoint)
deriving DecidableEq, Repr

/-- `checkpoint_round_directory`. -/
def checkpointRoundDirectory (round : U64) : ExchangePath :=
  [asciiBytes "checkpoint-v2", decimalDigits blockRoundDigits round.val]

/-- The directory of a wave. -/
def waveDirectory (finalizedWave : U64) : ExchangePath :=
  [decimalDigits blockRoundDigits finalizedWave.val]

/-- Where the envelopes of a round are. -/
def ExchangeRound.directory : ExchangeRound → ExchangePath
  | .wave finalizedWave => waveDirectory finalizedWave
  | .checkpoint source => checkpointRoundDirectory source.round

/-- Where an envelope is. -/
def envelopePath (directory : ExchangePath) (rater recipient : NodeId) : ExchangePath :=
  directory ++ [hexName rater.bytes] ++ [envelopeName recipient]

/-- Where the marker of a round is. -/
def sourceMarkerPath (round : U64) : ExchangePath :=
  checkpointRoundDirectory round ++ [sourceMarkerName]

/-! ### Markers -/

/-- `CHECKPOINT_SOURCE_MAGIC`. -/
def checkpointSourceMagic : List Byte := asciiBytes "cordial-por-exchange-source-v2"

/-- `source_marker`. -/
def sourceMarker (source : RatingSourceCheckpoint) : List Byte :=
  checkpointSourceMagic ++ beBytes 8 source.round.val ++ beBytes 8 source.finalizedPrefixLen.val ++
    contentHashBytes source.finalizedPrefixHash

/-- Why an exchange refuses. -/
inductive ExchangeError where
  | wire (error : PorRatingWireError)
  | protocol (error : PorError)
  | rating (error : PorRatingError)
  | transport (error : ReceiveError)
  | message (text : String)
deriving DecidableEq, Repr

/-- `ensure!`. -/
def ExchangeError.require (condition : Bool) (text : String) : Except ExchangeError Unit :=
  if condition then .ok () else .error (.message text)

open ExchangeError (require)

/-- What `read_source_marker` makes of the bytes of a marker. -/
def parseSourceMarker (bytes : List Byte) : Except ExchangeError RatingSourceCheckpoint := do
  require (bytes.length = checkpointSourceMagic.length + 48 && checkpointSourceMagic.isPrefixOf bytes)
    "invalid PoR checkpoint exchange source marker"
  let fields := bytes.drop checkpointSourceMagic.length
  let source : RatingSourceCheckpoint := ⟨Fin.ofNat _ (ofBeBytes (fields.take 8)),
    Fin.ofNat _ (ofBeBytes ((fields.drop 8).take 8)), contentHashOf (fields.drop 16)⟩
  source.validate.mapError .protocol
  .ok source

/-! ### Envelopes -/

section Crypto

variable (crypto : RatingCrypto)

/-- `validate_envelope`. -/
def validateEnvelope (encoded : List Byte) (wave : U64) (rater recipient : NodeId) :
    Except ExchangeError Unit := do
  let decoded ← (BlockProductionRatingEnvelopeV1.decode encoded).mapError .wire
  require (decoded.finalizedWave = wave) "PoR exchange wave mismatch"
  require (decoded.rating.rater = rater) "PoR exchange rater mismatch"
  require (decoded.rating.recipient = recipient) "PoR exchange recipient mismatch"
  (verifyRatingSignature crypto decoded.rating).mapError .rating

/-- `validate_checkpoint_envelope`. -/
def validateCheckpointEnvelope (encoded : List Byte) (source : RatingSourceCheckpoint)
    (rater recipient : NodeId) : Except ExchangeError Unit := do
  let decoded ← (BlockProductionRatingEnvelopeV2.decode encoded).mapError .wire
  require (decoded.source = source) "PoR checkpoint exchange source mismatch"
  require (decoded.rating.rater = rater) "PoR checkpoint exchange rater mismatch"
  require (decoded.rating.recipient = recipient) "PoR checkpoint exchange recipient mismatch"
  (verifyCheckpointRatingSignature crypto decoded.rating source).mapError .rating

/-- The check of a round's envelope. -/
def ExchangeRound.validate (encoded : List Byte) (rater recipient : NodeId) :
    ExchangeRound → Except ExchangeError Unit
  | .wave finalizedWave => validateEnvelope crypto encoded finalizedWave rater recipient
  | .checkpoint source => validateCheckpointEnvelope crypto encoded source rater recipient

/-- The recipient that an envelope of a round names. -/
def ExchangeRound.recipient (encoded : List Byte) : ExchangeRound → Except ExchangeError NodeId
  | .wave _ => ((BlockProductionRatingEnvelopeV1.decode encoded).mapError .wire).map
      fun decoded => decoded.rating.recipient
  | .checkpoint _ => ((BlockProductionRatingEnvelopeV2.decode encoded).mapError .wire).map
      fun decoded => decoded.rating.recipient

/-- How long an envelope of a round is at most. -/
def ExchangeRound.limit : ExchangeRound → ℕ
  | .wave _ => maxRatingEnvelopeLen
  | .checkpoint _ => maxCheckpointRatingEnvelopeLen

/-- An envelope that a broadcaster lets through. -/
structure ExchangeFile where
  round : ExchangeRound
  rater : NodeId
  recipient : NodeId
  encoded : List Byte
  valid : round.validate crypto encoded rater recipient = .ok ()

/-- What `publish` checks before it writes. -/
def ExchangeFile.admit (round : ExchangeRound) (rater : NodeId) (encoded : List Byte) :
    Except ExchangeError (ExchangeFile crypto) := do
  let recipient ← round.recipient encoded
  match h : round.validate crypto encoded rater recipient with
  | .error error => .error error
  | .ok () => .ok ⟨round, rater, recipient, encoded, h⟩

end Crypto

/-! ### Names say what they are about -/

theorem hexDigit_lt {n : ℕ} (h : n < 16) : hexDigit n < 256 := by
  unfold hexDigit
  split_ifs <;> omega

theorem hexName_injective : Function.Injective hexName := by
  intro bytes bytes' h
  have hlt : ∀ bytes : List Byte, ∀ n ∈ hexEncode bytes, n < 256 := by
    intro bytes n hn
    unfold hexEncode hex at hn
    simp only [List.mem_flatMap, List.mem_map, List.mem_cons, List.not_mem_nil, or_false] at hn
    obtain ⟨_, ⟨b, -, rfl⟩, rfl | rfl⟩ := hn
    · exact hexDigit_lt (by omega)
    · exact hexDigit_lt (Nat.mod_lt _ (by norm_num))
  have hval : ∀ bytes : List Byte, (hexName bytes).map Fin.val = hexEncode bytes := by
    intro bytes
    unfold hexName
    rw [List.map_map]
    refine (List.map_congr_left fun n hn => ?_).trans (List.map_id _)
    exact Nat.mod_eq_of_lt (hlt bytes n hn)
  exact hexEncode_injective ((hval bytes).symm.trans ((congrArg _ h).trans (hval bytes')))

theorem decimalText_injective : Function.Injective decimalText := by
  intro m n h
  have hchars : ∀ n, (decimalText n).map (fun b => Char.ofNat b.val) = Nat.toDigits 10 n := by
    intro n
    unfold decimalText
    rw [List.map_map]
    refine (List.map_congr_left fun c hc => ?_).trans (List.map_id _)
    have hdigit := Char.isDigit_iff_toNat.1
      (Nat.isDigit_of_mem_toDigits (by norm_num) (by norm_num) hc)
    have hlt : c.toNat < 256 := hdigit.2.trans_lt (by decide)
    show Char.ofNat (c.toNat % 256) = c
    rw [Nat.mod_eq_of_lt hlt, Char.ofNat_toNat]
  have hdigits : Nat.toDigits 10 m = Nat.toDigits 10 n := by
    rw [← hchars, h, hchars]
  rw [← Nat.ofDigitChars_toDigits (b := 10) (n := m) (by norm_num) (by norm_num), hdigits,
    Nat.ofDigitChars_toDigits (by norm_num) (by norm_num)]

theorem le_of_mem_decimalText {n : ℕ} {b : Byte} (h : b ∈ decimalText n) : b.val ≤ 57 := by
  obtain ⟨c, hc, rfl⟩ := List.mem_map.1 h
  have hdigit := Char.isDigit_iff_toNat.1
    (Nat.isDigit_of_mem_toDigits (by norm_num) (by norm_num) hc)
  exact (Nat.mod_le _ _).trans hdigit.2

/-- A temporary name. -/
def IsExchangeTemporary (path : ExchangePath) : Prop :=
  ∃ directory process number, path = directory ++ [exchangeTemporaryName process number]

theorem exchangeTemporaryName_injective (process : ℕ) :
    Function.Injective (exchangeTemporaryName process) := fun _ _ h =>
  decimalText_injective (List.append_cancel_left h)

/-- Every name that is published ends in the letter `n`, and a temporary one in a digit. -/
theorem not_isExchangeTemporary {directory : ExchangePath} (name : List Byte) :
    ¬ IsExchangeTemporary (directory ++ [name ++ asciiBytes ".bin"]) := by
  rintro ⟨directory', process, number, h⟩
  have hname := List.singleton_inj.1 (List.append_inj_right' h rfl)
  have hlast := congrArg List.getLast? hname
  have hne : decimalText number ≠ [] := by
    unfold decimalText
    simp
  unfold exchangeTemporaryName at hlast
  rw [List.getLast?_append_of_ne_nil _ hne, List.getLast?_append_of_ne_nil _ (by decide)] at hlast
  have hmem : (110 : Byte) ∈ decimalText number := List.mem_of_getLast? hlast.symm
  exact absurd (le_of_mem_decimalText hmem) (by decide)

theorem decimalDigits_injective {n n' : U64}
    (h : decimalDigits blockRoundDigits n.val = decimalDigits blockRoundDigits n'.val) : n = n' := by
  have hlt : ∀ n : U64, n.val < 10 ^ blockRoundDigits := fun n =>
    n.isLt.trans_le (by unfold blockRoundDigits; norm_num)
  refine Fin.ext ?_
  rw [← ofDecimalDigits_decimalDigits (hlt n), h, ofDecimalDigits_decimalDigits (hlt n')]

theorem checkpointRoundDirectory_injective : Function.Injective checkpointRoundDirectory :=
  fun _ _ h => decimalDigits_injective (List.cons.inj (List.cons.inj h).2).1

theorem waveDirectory_injective : Function.Injective waveDirectory :=
  fun _ _ h => decimalDigits_injective (List.cons.inj h).1

theorem envelopePath_inj {directory directory' : ExchangePath}
    {rater rater' recipient recipient' : NodeId}
    (h : envelopePath directory rater recipient = envelopePath directory' rater' recipient') :
    directory = directory' ∧ rater = rater' ∧ recipient = recipient' := by
  obtain ⟨hparent, hname⟩ := List.append_inj' h rfl
  obtain ⟨hdirectory, hrater⟩ := List.append_inj' hparent rfl
  refine ⟨hdirectory, ?_, ?_⟩
  · exact congrArg NodeId.mk (hexName_injective (List.singleton_inj.1 hrater))
  · exact congrArg NodeId.mk (hexName_injective
      (List.append_cancel_right (List.singleton_inj.1 hname)))

/-- A wave has the name of its digits, and the rounds are elsewhere. -/
theorem waveDirectory_ne (finalizedWave : U64) (rest rest' : ExchangePath) (round : U64) :
    waveDirectory finalizedWave ++ rest ≠ checkpointRoundDirectory round ++ rest' := by
  intro h
  have hlength := congrArg List.length (List.cons.inj h).1
  rw [length_decimalDigits] at hlength
  exact absurd hlength (by decide)

theorem sourceMarkerPath_injective : Function.Injective sourceMarkerPath := fun _ _ h =>
  checkpointRoundDirectory_injective (List.append_cancel_right h)

/-- A marker is not an envelope. -/
theorem sourceMarkerPath_ne (round : U64) (target : ExchangeRound) (rater recipient : NodeId) :
    sourceMarkerPath round ≠ envelopePath target.directory rater recipient := by
  unfold sourceMarkerPath envelopePath
  cases target with
  | wave finalizedWave =>
      rw [List.append_assoc]
      exact (waveDirectory_ne finalizedWave _ _ round).symm
  | checkpoint source => exact fun h => absurd (congrArg List.length h) (by
      simp [ExchangeRound.directory, checkpointRoundDirectory])

/-! ### Markers say their source -/

theorem length_sourceMarker (source : RatingSourceCheckpoint) :
    (sourceMarker source).length = checkpointSourceMagic.length + 48 := by
  unfold sourceMarker
  simp only [List.length_append, length_beBytes, length_contentHashBytes]

@[simp] theorem require_eq_ok {condition : Bool} {text : String} :
    require condition text = .ok () ↔ condition = true := by
  unfold require
  cases condition <;> simp

/-- **What is read of a marker is what was written.** -/
theorem parseSourceMarker_sourceMarker {source : RatingSourceCheckpoint}
    (h : source.validate = .ok ()) : parseSourceMarker (sourceMarker source) = .ok source := by
  have hfields : (sourceMarker source).drop checkpointSourceMagic.length =
      beBytes 8 source.round.val ++ (beBytes 8 source.finalizedPrefixLen.val ++
        contentHashBytes source.finalizedPrefixHash) := by
    unfold sourceMarker
    rw [List.append_assoc, List.append_assoc, List.drop_left]
  have hmagic : checkpointSourceMagic.isPrefixOf (sourceMarker source) = true := by
    unfold sourceMarker
    rw [List.isPrefixOf_iff_prefix, List.append_assoc, List.append_assoc]
    exact List.prefix_append _ _
  have hnumber : ∀ n : U64, Fin.ofNat (2 ^ 64) (ofBeBytes (beBytes 8 n.val)) = n := by
    intro n
    rw [ofBeBytes_beBytes (n.isLt.trans_le (by norm_num))]
    exact Fin.ext (Nat.mod_eq_of_lt n.isLt)
  have hsource : (⟨Fin.ofNat _ (ofBeBytes (((sourceMarker source).drop
      checkpointSourceMagic.length).take 8)), Fin.ofNat _ (ofBeBytes ((((sourceMarker source).drop
      checkpointSourceMagic.length).drop 8).take 8)), contentHashOf (((sourceMarker source).drop
      checkpointSourceMagic.length).drop 16)⟩ : RatingSourceCheckpoint) = source := by
    rw [hfields, List.take_left' (length_beBytes 8 _), List.drop_left' (length_beBytes 8 _),
      List.take_left' (length_beBytes 8 _), ← List.append_assoc,
      List.drop_left' (by rw [List.length_append, length_beBytes, length_beBytes]), hnumber, hnumber,
      contentHashOf_contentHashBytes]
  unfold parseSourceMarker
  dsimp only
  rw [hsource]
  refine check_eq_ok.2 ⟨?_, check_eq_ok.2 ⟨?_, rfl⟩⟩
  · rw [require_eq_ok, hmagic, length_sourceMarker]
    simp
  · rw [h]
    rfl

theorem sourceMarker_inj {source source' : RatingSourceCheckpoint} (h : source.validate = .ok ())
    (h' : source'.validate = .ok ()) (heq : sourceMarker source = sourceMarker source') :
    source = source' := by
  have hparse := parseSourceMarker_sourceMarker h
  rw [heq, parseSourceMarker_sourceMarker h'] at hparse
  exact (Except.ok.inj hparse).symm

/-! ### What a valid envelope is -/

section Valid

variable {crypto : RatingCrypto} {encoded : List Byte} {rater recipient : NodeId}

/-- What the checks of an envelope say. -/
structure ExchangeRound.Accepts (round : ExchangeRound) (encoded : List Byte)
    (rater recipient : NodeId) : Prop where
  fits : encoded.length ≤ round.limit
  rater : PublicKeyLength rater.bytes
  recipient : PublicKeyLength recipient.bytes
  source : ∀ source, round = .checkpoint source → source.validate = .ok ()

theorem decodeWithin_length {α : Type} {maximum : ℕ} {read : RatingDecoder α} {a : α}
    (h : RatingDecoder.decodeWithin maximum read encoded = .ok a) : encoded.length ≤ maximum := by
  unfold RatingDecoder.decodeWithin at h
  rw [guard_eq_ok, not_lt] at h
  exact h.1

theorem validateEnvelope_eq_ok {wave : U64} :
    validateEnvelope crypto encoded wave rater recipient = .ok () ↔
      ∃ decoded, BlockProductionRatingEnvelopeV1.decode encoded = .ok decoded ∧
        decoded.finalizedWave = wave ∧ decoded.rating.rater = rater ∧
        decoded.rating.recipient = recipient ∧ verifyRatingSignature crypto decoded.rating = .ok () := by
  unfold validateEnvelope
  rw [bind_eq_ok]
  simp only [check_eq_ok, mapError_eq_ok, require_eq_ok, decide_eq_true_eq]

theorem validateCheckpointEnvelope_eq_ok {source : RatingSourceCheckpoint} :
    validateCheckpointEnvelope crypto encoded source rater recipient = .ok () ↔
      ∃ decoded, BlockProductionRatingEnvelopeV2.decode encoded = .ok decoded ∧
        decoded.source = source ∧ decoded.rating.rater = rater ∧
        decoded.rating.recipient = recipient ∧
        verifyCheckpointRatingSignature crypto decoded.rating source = .ok () := by
  unfold validateCheckpointEnvelope
  rw [bind_eq_ok]
  simp only [check_eq_ok, mapError_eq_ok, require_eq_ok, decide_eq_true_eq]

theorem ExchangeRound.accepts_of_valid {round : ExchangeRound}
    (h : round.validate crypto encoded rater recipient = .ok ()) :
    round.Accepts encoded rater recipient := by
  cases round with
  | wave finalizedWave =>
      obtain ⟨decoded, hdecoded, -, rfl, rfl, -⟩ := validateEnvelope_eq_ok.1 h
      refine ⟨?_, decoded.fits.rater, decoded.fits.recipient, nofun⟩
      unfold BlockProductionRatingEnvelopeV1.decode at hdecoded
      obtain ⟨_, hwithin, -⟩ := bind_eq_ok.1 hdecoded
      exact decodeWithin_length hwithin
  | checkpoint source =>
      obtain ⟨decoded, hdecoded, rfl, rfl, rfl, -⟩ := validateCheckpointEnvelope_eq_ok.1 h
      refine ⟨?_, decoded.fits.2.rater, decoded.fits.2.recipient, ?_⟩
      · unfold BlockProductionRatingEnvelopeV2.decode at hdecoded
        obtain ⟨_, hwithin, -⟩ := bind_eq_ok.1 hdecoded
        exact decodeWithin_length hwithin
      · rintro _ ⟨⟩
        have hshape := decoded.shape
        unfold validateCheckpointRatingShape at hshape
        rw [check_eq_ok, mapError_eq_ok] at hshape
        exact hshape.1

/-- A valid envelope names the recipient that it is valid for. -/
theorem ExchangeRound.recipient_of_valid {round : ExchangeRound}
    (h : round.validate crypto encoded rater recipient = .ok ()) :
    round.recipient encoded = .ok recipient := by
  cases round with
  | wave finalizedWave =>
      obtain ⟨decoded, hdecoded, -, -, rfl, -⟩ := validateEnvelope_eq_ok.1 h
      unfold ExchangeRound.recipient
      rw [hdecoded]
      rfl
  | checkpoint source =>
      obtain ⟨decoded, hdecoded, -, -, rfl, -⟩ := validateCheckpointEnvelope_eq_ok.1 h
      unfold ExchangeRound.recipient
      rw [hdecoded]
      rfl

/-- **What a broadcaster lets through**: what is valid for the recipient that it names. -/
theorem ExchangeFile.admit_eq_ok {round : ExchangeRound} {file : ExchangeFile crypto} :
    ExchangeFile.admit crypto round rater encoded = .ok file ↔
      file.round = round ∧ file.rater = rater ∧ file.encoded = encoded := by
  unfold ExchangeFile.admit
  rw [bind_eq_ok]
  constructor
  · rintro ⟨recipient, -, h⟩
    split at h
    · exact absurd h (by simp)
    · obtain rfl := Except.ok.inj h
      exact ⟨rfl, rfl, rfl⟩
  · rintro ⟨rfl, rfl, rfl⟩
    refine ⟨file.recipient, ?_, ?_⟩
    · exact file.round.recipient_of_valid file.valid
    · split
      · next error h => exact absurd (h.symm.trans file.valid) (by simp)
      · rfl

end Valid

/-! ### Publishing -/

section Tasks

variable {crypto : RatingCrypto} {κ : Type} (files : κ → ExchangeFile crypto) (process : κ → ℕ)

/-- A file that `publish_immutable` writes. -/
def exchangePublication (process : ℕ) (directory : ExchangePath) (name bytes : List Byte)
    (limit : ℕ) (fits : bytes.length ≤ limit) : Publication ExchangePath Byte where
  target := directory ++ [name]
  bytes
  limit
  fits
  temporary number := directory ++ [exchangeTemporaryName process number]
  injective _ _ h := exchangeTemporaryName_injective process
    (List.singleton_inj.1 (List.append_cancel_left h))

/-- What a broadcaster publishes of a call: the marker of a checkpoint round, and the envelope. -/
inductive ExchangeTask where
  | marker (k : κ) (source : RatingSourceCheckpoint) (h : (files k).round = .checkpoint source)
  | envelope (k : κ)
deriving DecidableEq

variable {files}

/-- The file of a part. -/
def ExchangeTask.publication : ExchangeTask files → Publication ExchangePath Byte
  | .marker k source _ => exchangePublication (process k) (checkpointRoundDirectory source.round)
      sourceMarkerName (sourceMarker source) 128 (by
        rw [length_sourceMarker]
        decide)
  | .envelope k => exchangePublication (process k)
      ((files k).round.directory ++ [hexName (files k).rater.bytes])
      (envelopeName (files k).recipient) (files k).encoded (files k).round.limit
      ((files k).round.accepts_of_valid (files k).valid).fits

/-- The marker of a call. -/
def ExchangeTask.markerOf (k : κ) : Option (ExchangeTask files) :=
  match h : (files k).round with
  | .wave _ => none
  | .checkpoint source => some (.marker k source h)

/-- An envelope comes after its marker. -/
def ExchangeTask.before : ExchangeTask files → Option (ExchangeTask files)
  | .marker _ _ _ => none
  | .envelope k => markerOf k

/-- Where the envelope of a call is published. -/
def ExchangeFile.path (file : ExchangeFile crypto) : ExchangePath :=
  envelopePath file.round.directory file.rater file.recipient

theorem target_not_temporary (task : ExchangeTask files) :
    ¬ IsExchangeTemporary (task.publication process).target := by
  cases task with
  | marker k source h => exact not_isExchangeTemporary (asciiBytes "source")
  | envelope k => exact not_isExchangeTemporary (hexName (files k).recipient.bytes)

theorem temporary_isExchangeTemporary (task : ExchangeTask files) (number : ℕ) :
    IsExchangeTemporary ((task.publication process).temporary number) := by
  cases task with
  | marker k source h => exact ⟨_, process k, number, rfl⟩
  | envelope k => exact ⟨_, process k, number, rfl⟩

theorem apart_tasks : Publishing.Apart fun task : ExchangeTask files => task.publication process :=
  fun i j number h => target_not_temporary process j
    (h ▸ temporary_isExchangeTemporary process i number)

end Tasks

/-! ### Sound directories -/

/-- Nothing stands where it does not belong. -/
structure SoundExchange (crypto : RatingCrypto) (fs : FileSystem ExchangePath Byte) : Prop where
  marker : ∀ round bytes, fs.read (sourceMarkerPath round) = some bytes → ∃ source,
    source.round = round ∧ source.validate = .ok () ∧ bytes = sourceMarker source
  checkpoint : ∀ round rater recipient bytes,
    fs.read (envelopePath (checkpointRoundDirectory round) rater recipient) = some bytes →
      ∃ source, fs.read (sourceMarkerPath round) = some (sourceMarker source) ∧
        source.round = round ∧ validateCheckpointEnvelope crypto bytes source rater recipient = .ok ()
  wave : ∀ finalizedWave rater recipient bytes,
    fs.read (envelopePath (waveDirectory finalizedWave) rater recipient) = some bytes →
      validateEnvelope crypto bytes finalizedWave rater recipient = .ok ()

/-- An exchange that is new. -/
theorem soundExchange_empty (crypto : RatingCrypto) : SoundExchange crypto .empty :=
  ⟨fun _ _ => nofun, fun _ _ _ _ => nofun, fun _ _ _ _ => nofun⟩

section Runs

open Publishing

variable {crypto : RatingCrypto} {κ : Type} {files : κ → ExchangeFile crypto}
  {process : κ → ℕ} {fs : FileSystem ExchangePath Byte}
  {s : Publishing (ExchangeTask files) ExchangePath Byte}

/-- What is read in a run was there, or has been published whole. -/
theorem read_cases (hgrows : Grows (ExchangeTask.publication process) (start fs) s)
    {path : ExchangePath} {bytes : List Byte} (hpath : ¬ IsExchangeTemporary path)
    (hread : s.files.read path = some bytes) : fs.read path = some bytes ∨
      ∃ task : ExchangeTask files, (task.publication process).target = path ∧
        (task.publication process).bytes = bytes ∧ (s.stage task).begun = true := by
  have hname : ∀ (task : ExchangeTask files) number,
      (task.publication process).temporary number ≠ path := by
    rintro task number rfl
    exact hpath (temporary_isExchangeTemporary process task number)
  cases hold : fs.read path with
  | none => exact .inr (hgrows.new path bytes hname hold hread)
  | some found => exact .inl ((hgrows.kept path found hname hold).symm.trans hread)

/-- An envelope that has been begun has its marker. -/
theorem marker_of_begun (hvalid : Valid (ExchangeTask.publication process) ExchangeTask.before s)
    {k : κ} (hbegun : (s.stage (.envelope k)).begun = true) {source : RatingSourceCheckpoint}
    (hround : (files k).round = .checkpoint source) :
    s.files.read (sourceMarkerPath source.round) = some (sourceMarker source) := by
  have hready := hvalid.waited _ hbegun
  have hbefore : (ExchangeTask.envelope k : ExchangeTask files).before =
      some (.marker k source hround) := by
    show ExchangeTask.markerOf k = _
    unfold ExchangeTask.markerOf
    split
    · next finalizedWave h => exact absurd (hround.symm.trans h) (by simp)
    · next found h =>
        obtain rfl := ExchangeRound.checkpoint.inj (h.symm.trans hround)
        rfl
  unfold ready at hready
  rw [hbefore, Option.all_some] at hready
  exact hvalid.published hready

/-- Only what is published for a checkpoint round stands in its directory. -/
theorem round_of_directory {target : ExchangeRound} {round : U64}
    (h : target.directory = checkpointRoundDirectory round) :
    ∃ source, target = .checkpoint source ∧ source.round = round := by
  cases target with
  | wave finalizedWave => exact absurd (congrArg (· ++ []) h) (waveDirectory_ne finalizedWave [] [] round)
  | checkpoint source => exact ⟨source, rfl, checkpointRoundDirectory_injective h⟩

theorem round_of_waveDirectory {target : ExchangeRound} {finalizedWave : U64}
    (h : target.directory = waveDirectory finalizedWave) : target = .wave finalizedWave := by
  cases target with
  | wave finalizedWave' => exact congrArg ExchangeRound.wave (waveDirectory_injective h)
  | checkpoint source =>
      exact absurd (congrArg (· ++ []) h.symm) (waveDirectory_ne finalizedWave [] [] source.round)

/-- **A run keeps the directory sound.** -/
theorem soundExchange_of_grows (hsound : SoundExchange crypto fs)
    (hvalid : Valid (ExchangeTask.publication process) ExchangeTask.before s)
    (hgrows : Grows (ExchangeTask.publication process) (start fs) s) :
    SoundExchange crypto s.files where
  marker round bytes hread := by
    rcases read_cases hgrows (not_isExchangeTemporary (asciiBytes "source")) hread with
      hold | ⟨task, htarget, rfl, -⟩
    · exact hsound.marker round bytes hold
    · cases task with
      | marker k source h =>
          have haccepts := (files k).round.accepts_of_valid (files k).valid
          exact ⟨source, sourceMarkerPath_injective htarget, haccepts.source source h, rfl⟩
      | envelope k => exact absurd htarget.symm (sourceMarkerPath_ne round (files k).round _ _)
  checkpoint round rater recipient bytes hread := by
    rcases read_cases hgrows (not_isExchangeTemporary (hexName recipient.bytes)) hread with
      hold | ⟨task, htarget, rfl, hbegun⟩
    · obtain ⟨source, hmarker, hround, hvalidated⟩ := hsound.checkpoint round rater recipient bytes hold
      refine ⟨source, hgrows.kept _ _ (fun task number h => ?_) hmarker, hround, hvalidated⟩
      exact not_isExchangeTemporary (asciiBytes "source")
        (h ▸ temporary_isExchangeTemporary process task number)
    · cases task with
      | marker k source h =>
          exact absurd htarget (sourceMarkerPath_ne source.round (.checkpoint ⟨round, 0, 0⟩) _ _)
      | envelope k =>
          obtain ⟨hdirectory, rfl, rfl⟩ := envelopePath_inj htarget
          obtain ⟨source, hround, rfl⟩ := round_of_directory hdirectory
          have hvalidated := (files k).valid
          rw [hround] at hvalidated
          exact ⟨source, marker_of_begun hvalid hbegun hround, rfl, hvalidated⟩
  wave finalizedWave rater recipient bytes hread := by
    rcases read_cases hgrows (not_isExchangeTemporary (hexName recipient.bytes)) hread with
      hold | ⟨task, htarget, rfl, -⟩
    · exact hsound.wave finalizedWave rater recipient bytes hold
    · cases task with
      | marker k source h =>
          exact absurd htarget (sourceMarkerPath_ne source.round (.wave finalizedWave) _ _)
      | envelope k =>
          obtain ⟨hdirectory, rfl, rfl⟩ := envelopePath_inj htarget
          have hvalidated := (files k).valid
          rw [round_of_waveDirectory hdirectory] at hvalidated
          exact hvalidated

/-- What is in the place of an envelope that has been begun is one of the same round. -/
theorem valid_of_begun (hsound : SoundExchange crypto s.files)
    (hvalid : Valid (ExchangeTask.publication process) ExchangeTask.before s) {k : κ}
    (hbegun : (s.stage (.envelope k)).begun = true) {other : List Byte}
    (hread : s.files.read (files k).path = some other) :
    (files k).round.validate crypto other (files k).rater (files k).recipient = .ok () := by
  unfold ExchangeFile.path at hread
  cases hround : (files k).round with
  | wave finalizedWave =>
      rw [hround] at hread
      exact hsound.wave _ _ _ _ hread
  | checkpoint source =>
      rw [hround] at hread
      obtain ⟨source', hmarker, -, hvalidated⟩ := hsound.checkpoint _ _ _ _ hread
      have hsame : sourceMarker source' = sourceMarker source :=
        Option.some.inj (hmarker.symm.trans (marker_of_begun hvalid hbegun hround))
      have haccepts := (ExchangeRound.checkpoint source').accepts_of_valid hvalidated
      rw [sourceMarker_inj (haccepts.source source' rfl)
        ((files k).round.accepts_of_valid (files k).valid |>.source source hround) hsame]
        at hvalidated
      exact hvalidated

/-- **Why an envelope is refused**: its rater has signed another one for the same place. -/
theorem envelope_refused (hsound : SoundExchange crypto s.files)
    (hvalid : Valid (ExchangeTask.publication process) ExchangeTask.before s) {k : κ}
    {error : PublishError} (hended : s.stage (.envelope k) = .ended (.error error)) :
    error = .conflicting ∧ ∃ other ≠ (files k).encoded,
      s.files.read (files k).path = some other ∧
        (files k).round.validate crypto other (files k).rater (files k).recipient = .ok () := by
  obtain ⟨other, hread, hresult⟩ := hvalid.verdict hended
  have hbegun : (s.stage (.envelope k)).begun = true := by
    rw [hended]
    rfl
  have hother := valid_of_begun hsound hvalid hbegun hread
  obtain ⟨herror, hne⟩ := Publication.compare_eq_error
    (ExchangeRound.accepts_of_valid hother).fits hresult.symm
  exact ⟨herror, other, hne, hread, hother⟩

/-- **Why a marker is refused**: the round belongs to another source. -/
theorem marker_refused (hsound : SoundExchange crypto s.files)
    (hvalid : Valid (ExchangeTask.publication process) ExchangeTask.before s) {k : κ}
    {source : RatingSourceCheckpoint} {h : (files k).round = .checkpoint source}
    {error : PublishError} (hended : s.stage (.marker k source h) = .ended (.error error)) :
    error = .conflicting ∧ ∃ other ≠ source, other.round = source.round ∧
      s.files.read (sourceMarkerPath source.round) = some (sourceMarker other) := by
  obtain ⟨found, hread, hresult⟩ := hvalid.verdict hended
  obtain ⟨other, hround, -, rfl⟩ := hsound.marker _ _ hread
  have hlength : (sourceMarker other).length ≤ 128 := by
    rw [length_sourceMarker]
    decide
  obtain ⟨herror, hne⟩ := Publication.compare_eq_error hlength hresult.symm
  refine ⟨herror, other, ?_, hround, hread⟩
  rintro rfl
  exact hne rfl

end Runs

/-- **An exchange stays sound.**  Whoever publishes at once, in whatever order the steps come
and wherever publishers crash: nothing is seen in part or where it does not belong, and what
is seen is never changed; who has succeeded is read; an envelope is refused only where its
rater has signed another one for the same place, and a marker only where the round belongs to
another source; and whoever may go on can finish alone. -/
theorem exchange_stays_sound (crypto : RatingCrypto) {κ : Type} [DecidableEq κ]
    (files : κ → ExchangeFile crypto) (process : κ → ℕ) {fs : FileSystem ExchangePath Byte}
    (hsound : SoundExchange crypto fs) (schedule : List (ExchangeTask files × ℕ)) :
    let run := fun s => Publishing.run (ExchangeTask.publication process) ExchangeTask.before s
    let s := run (Publishing.start fs) schedule
    SoundExchange crypto s.files ∧
    (∀ later path bytes, ¬ IsExchangeTemporary path → s.files.read path = some bytes →
      (run s later).files.read path = some bytes) ∧
    (∀ k, s.succeeded (.envelope k) = true →
      s.files.read (files k).path = some (files k).encoded) ∧
    (∀ k error, s.stage (.envelope k) = .ended (.error error) →
      error = .conflicting ∧ ∃ other ≠ (files k).encoded, s.files.read (files k).path = some other ∧
        (files k).round.validate crypto other (files k).rater (files k).recipient = .ok ()) ∧
    (∀ k source h error, s.stage (.marker k source h) = .ended (.error error) →
      error = .conflicting ∧ ∃ other ≠ source, other.round = source.round ∧
        s.files.read (sourceMarkerPath source.round) = some (sourceMarker other)) ∧
    ∀ task, s.ready ExchangeTask.before task = true → ∃ numbers : List ℕ, ∃ result,
      (run s (numbers.map fun number => (task, number))).stage task = .ended result := by
  intro run s
  obtain ⟨hvalid, hgrows⟩ : Publishing.Valid (ExchangeTask.publication process)
      ExchangeTask.before s ∧ Publishing.Grows (ExchangeTask.publication process)
        (Publishing.start fs) s :=
    Publishing.run_valid (apart_tasks process) (Publishing.valid_start fs) schedule
  have hafter := soundExchange_of_grows hsound hvalid hgrows
  refine ⟨hafter, fun later path bytes hpath => ?_, fun k hk => hvalid.published hk,
    fun k error => envelope_refused hafter hvalid, fun k source h error => marker_refused hafter hvalid,
    fun task hready => ?_⟩
  · obtain ⟨-, hlater⟩ := Publishing.run_valid (apart_tasks process) hvalid later
    exact hlater.kept path bytes fun task number h =>
      hpath (h ▸ temporary_isExchangeTemporary process task number)
  · obtain ⟨numbers, -, hended⟩ := Publishing.finishes (apart_tasks process) hvalid hready
    exact ⟨numbers, hended⟩

/-! ### Two observers that have finalized different prefixes -/

/-- A source of the first round. -/
def splitSource (hash : ContentHash) : RatingSourceCheckpoint := ⟨1, 16, hash⟩

/-- A rating of the third creator. -/
def splitRating (rater : Byte) : RatingRecord :=
  ⟨1, (keyedIdentity rater).creator, (keyedIdentity 3).creator, 1, [9], some (List.replicate 32 0)⟩

/-- Its envelope. -/
def splitEnvelope (rater : Byte) (hash : ContentHash) : List Byte :=
  ratingEnvelopeDomain ++ (beBytes 2 checkpointRatingEnvelopeVersion.val ++
    BlockProductionRatingEnvelopeV2.layout (splitSource hash) (splitRating rater))

theorem splitEnvelope_valid : ∀ second : Bool, (ExchangeRound.checkpoint
    (splitSource (if second then 1 else 0))).validate keyedCrypto
      (splitEnvelope (if second then 2 else 1) (if second then 1 else 0))
      (keyedIdentity (if second then 2 else 1)).creator (keyedIdentity 3).creator = .ok () := by
  decide +kernel

/-- The first creator rates under one source, and the second one under another. -/
def splitFiles (second : Bool) : ExchangeFile keyedCrypto :=
  ⟨.checkpoint (splitSource (if second then 1 else 0)), (keyedIdentity (if second then 2 else 1)).creator,
    (keyedIdentity 3).creator, splitEnvelope (if second then 2 else 1) (if second then 1 else 0),
    splitEnvelope_valid second⟩

/-- They take turns until both are writing their markers. -/
def splitSchedule : List (ExchangeTask splitFiles × ℕ) :=
  (List.replicate 5 [(.marker true _ rfl, 0), (.marker false _ rfl, 0)]).flatten

/-- Neither has published yet, and each can still finish alone. -/
theorem exchange_stays_sound_split :
    let process := fun second => if second then 1 else 0
    let run := fun s => Publishing.run (ExchangeTask.publication process) ExchangeTask.before s
    let s := run (Publishing.start .empty) splitSchedule
    SoundExchange keyedCrypto s.files ∧ ∀ second, ∃ numbers : List ℕ, ∃ result,
      (run s (numbers.map fun number => (.marker second _ rfl, number))).stage
        (.marker second _ rfl) = .ended result := by
  intro process run s
  obtain ⟨hsound, -, -, -, -, hfinish⟩ := exchange_stays_sound keyedCrypto splitFiles process
    (soundExchange_empty keyedCrypto) splitSchedule
  exact ⟨hsound, fun second => hfinish (.marker second _ rfl) rfl⟩

end CordialMiners.Reputation
