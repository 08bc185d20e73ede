/-
# Events from the finalized order

`app_event_envelope.rs`, `app_event_block_scan.rs`, `app_event_extractor.rs` and
`app_event_extraction_pipeline.rs`.

A deploy whose term is an envelope for an app becomes an event.  The bodies of the
blocks are scanned for envelopes, and the finalized order decides the order of the
events.  An event is known by a digest of its place (the block and the position among
the app deploys of that block) and of what it says.

The events of an output are its placed app deploys, numbered from the start
(`extractAppEvents_eq_ok`), so that the events of an output are those of its
first blocks, followed by those of the others (`placements_append`).

JSON, the decoding of hexadecimal and SHA-256 are parameters.
-/

import CordialMiners.App.Runtime
import CordialMiners.Collections.Matched
import CordialMiners.Node.Translation
import CordialMiners.Slashing.Window

namespace CordialMiners.App

open Reputation (OrderedFinalizedOutput)
open Codec (leBytes bind_eq_ok mapError_eq_ok)

/-! ### Envelopes -/

/-- What an app deploy says. -/
structure ExtractableAppDeploy where
  appId : AppId
  eventType : String
  payload : List Byte
  submitter : List Byte
  deploySignature : Option (List Byte)
deriving DecidableEq, Repr

/-- Why an envelope is refused. -/
inductive AppEventEnvelopeError where
  | invalidJson (error : String)
  | invalidEnvelope (error : String)
  | unsupportedVersion (version : ℕ)
  | invalidPayloadHex (error : String)
deriving DecidableEq, Repr

/-- The object in the term of an app deploy. -/
structure CordialAppEnvelope where
  version : ℕ
  appId : String
  eventType : String
  payloadHex : String

/-- What the extraction uses of other code.  `V` is the type of JSON values; failures
come with their texts. -/
structure ExtractionEnv (V : Type) where
  fromStr : String → Except String V
  get : V → String → Option V
  fromValue : V → Except String CordialAppEnvelope
  hexDecode : String → Except String (List Byte)
  sha256 : List Byte → List Byte

/-- `ENVELOPE_FIELD`. -/
def envelopeField : String := "cordial_app"

/-- `SUPPORTED_VERSION`. -/
def supportedVersion : ℕ := 1

/-- `char::is_whitespace`. -/
def isWhitespace (c : Char) : Bool :=
  (9 ≤ c.toNat && c.toNat ≤ 13) || (0x2000 ≤ c.toNat && c.toNat ≤ 0x200A) ||
    c.toNat ∈ [0x20, 0x85, 0xA0, 0x1680, 0x2028, 0x2029, 0x202F, 0x205F, 0x3000]

variable {V : Type} (env : ExtractionEnv V)

/-- `parse_app_deploy_envelope`. -/
def parseAppDeployEnvelope (deploy : Wire.SignedDeployData) :
    Except AppEventEnvelopeError (Option ExtractableAppDeploy) :=
  match env.fromStr deploy.data.term with
  | .error error =>
      -- text that does not look like an object is no envelope
      if (deploy.data.term.toList.dropWhile isWhitespace).head? = some '\x7b' then
        .error (.invalidJson error)
      else .ok none
  | .ok value =>
      match env.get value envelopeField with
      | none => .ok none
      | some envelopeValue => do
          let envelope ← (env.fromValue envelopeValue).mapError .invalidEnvelope
          if envelope.version ≠ supportedVersion then
            throw (.unsupportedVersion envelope.version)
          let payload ← (env.hexDecode envelope.payloadHex).mapError .invalidPayloadHex
          pure (some
            { appId := ⟨envelope.appId⟩
              eventType := envelope.eventType
              payload := payload
              submitter := deploy.pk
              deploySignature := some deploy.sig })

variable {env}

/-- **An app deploy names the signer and the signature of the deploy.** -/
theorem signer_of_parseAppDeployEnvelope {deploy : Wire.SignedDeployData}
    {appDeploy : ExtractableAppDeploy}
    (h : parseAppDeployEnvelope env deploy = .ok (some appDeploy)) :
    appDeploy.submitter = deploy.pk ∧ appDeploy.deploySignature = some deploy.sig := by
  unfold parseAppDeployEnvelope at h
  split at h
  · split_ifs at h
    cases h
  · split at h
    · cases h
    · obtain ⟨envelope, -, h⟩ := bind_eq_ok.1 h
      split_ifs at h
      · cases h
      · obtain ⟨payload, -, h⟩ := bind_eq_ok.1 h
        cases h
        exact ⟨rfl, rfl⟩

/-! ### The scan of the bodies -/

/-- A refused envelope and where it was found. -/
structure AppEventEnvelopeScanError where
  blockHash : List Byte
  deployIndex : ℕ
  source : AppEventEnvelopeError
deriving DecidableEq, Repr

/-- The app deploys of the bodies, and the refused envelopes. -/
structure AppEventBlockScan where
  deploysByBlockHash : OrderedMap (List Byte) (List ExtractableAppDeploy)
  envelopeErrors : List AppEventEnvelopeScanError

/-- Why a scan stops. -/
inductive AppEventBlockScanError where
  | duplicateBlockHash (blockHash : List Byte)
deriving DecidableEq, Repr

variable (env)

/-- The app deploys of a block. -/
def appDeploys (block : Wire.BlockMessage) : List ExtractableAppDeploy :=
  block.body.deploys.filterMap fun processed =>
    match parseAppDeployEnvelope env processed.deploy with
    | .ok appDeploy => appDeploy
    | .error _ => none

/-- The bad envelopes of a block. -/
def blockEnvelopeErrors (block : Wire.BlockMessage) : List AppEventEnvelopeScanError :=
  block.body.deploys.zipIdx.filterMap fun (processed, deployIndex) =>
    match parseAppDeployEnvelope env processed.deploy with
    | .ok _ => none
    | .error source => some ⟨block.blockHash, deployIndex, source⟩

/-- The loop of `scan_app_deploys_by_block_hash`. -/
def scanBlocks (seen : Finset (List Byte)) (scan : AppEventBlockScan) :
    List Wire.BlockMessage → Except AppEventBlockScanError AppEventBlockScan
  | [] => .ok scan
  | block :: blocks =>
      if block.blockHash ∈ seen then .error (.duplicateBlockHash block.blockHash)
      else scanBlocks (insert block.blockHash seen)
        ⟨scan.deploysByBlockHash.insert block.blockHash (appDeploys env block),
          scan.envelopeErrors ++ blockEnvelopeErrors env block⟩ blocks

/-- `scan_app_deploys_by_block_hash`. -/
def scanAppDeploysByBlockHash (blocks : List Wire.BlockMessage) :
    Except AppEventBlockScanError AppEventBlockScan := scanBlocks env ∅ ⟨.empty, []⟩ blocks

variable {env}

/-- A scan succeeds where no hash comes twice. -/
theorem scanBlocks_eq_ok {blocks : List Wire.BlockMessage} {seen : Finset (List Byte)}
    {scan scan' : AppEventBlockScan} (h : scanBlocks env seen scan blocks = .ok scan') :
    (blocks.map Wire.BlockMessage.blockHash).Nodup ∧
      (∀ block ∈ blocks, block.blockHash ∉ seen) ∧
      scan'.deploysByBlockHash =
        scan.deploysByBlockHash.insertAll Wire.BlockMessage.blockHash (appDeploys env) blocks := by
  induction blocks generalizing seen scan with
  | nil =>
      cases h
      exact ⟨List.nodup_nil, fun _ hmem => absurd hmem List.not_mem_nil, rfl⟩
  | cons block blocks ih =>
      rw [scanBlocks] at h
      split_ifs at h with hseen
      obtain ⟨hnodup, hnew, hmap⟩ := ih h
      refine ⟨?_, ?_, hmap⟩
      · rw [List.map_cons, List.nodup_cons, List.mem_map]
        refine ⟨?_, hnodup⟩
        rintro ⟨other, hmem, heq⟩
        exact hnew other hmem (heq ▸ Finset.mem_insert_self _ _)
      · intro other hmem
        rcases List.mem_cons.1 hmem with rfl | hmem
        · exact hseen
        · exact fun hold => hnew other hmem (Finset.mem_insert_of_mem hold)

/-- **The scan holds the app deploys of each body under the hash of its block.** -/
theorem scanAppDeploysByBlockHash_eq_ok {blocks : List Wire.BlockMessage}
    {scan : AppEventBlockScan} (h : scanAppDeploysByBlockHash env blocks = .ok scan) :
    (blocks.map Wire.BlockMessage.blockHash).Nodup ∧ ∀ hash deploys,
      scan.deploysByBlockHash.lookup hash = some deploys ↔
        ∃ block ∈ blocks, block.blockHash = hash ∧ appDeploys env block = deploys := by
  obtain ⟨hnodup, -, hmap⟩ := scanBlocks_eq_ok h
  refine ⟨hnodup, fun hash deploys => ?_⟩
  rw [hmap]
  refine OrderedMap.lookup_insertAll_iff fun a ha b hb heq => ?_
  rw [List.inj_on_of_nodup_map hnodup ha hb heq]

/-! ### The events of an output -/

/-- Why events cannot be given places. -/
inductive AppEventExtractionError where
  | missingFinalizedBlockDeploys (blockHash : List Byte)
  | orderedIndexOverflow (startingOrderedIndex : U64) (emittedCount : ℕ)
deriving DecidableEq, Repr

/-- `put_optional_bytes`. -/
def putOptionalBytes : Option (List Byte) → List Byte
  | some bytes => 1 :: sizedBytes bytes
  | none => [0]

/-- The bytes whose digest identifies an event. -/
def eventIdBytes (blockHash : List Byte) (deployIndex : ℕ) (deploy : ExtractableAppDeploy) :
    List Byte :=
  sizedBytes (asciiBytes "cordial-app-event:v1") ++ sizedBytes blockHash ++ leBytes 8 deployIndex ++
    sizedBytes (stringAsBytes deploy.appId.name) ++ sizedBytes (stringAsBytes deploy.eventType) ++
    sizedBytes deploy.payload ++ sizedBytes deploy.submitter ++
    putOptionalBytes deploy.deploySignature

/-- A digit of `hex::encode`. -/
def hexChar (n : ℕ) : Char := Char.ofNat (if n < 10 then 48 + n else 87 + n)

/-- `hex::encode`. -/
def hexText (bytes : List Byte) : String :=
  String.ofList (bytes.flatMap fun b => [hexChar (b.val / 16), hexChar (b.val % 16)])

variable (env)

/-- `event_id_for`. -/
def eventIdFor (blockHash : List Byte) (deployIndex : ℕ) (deploy : ExtractableAppDeploy) :
    AppEventId := ⟨hexText (env.sha256 (eventIdBytes blockHash deployIndex deploy))⟩

/-- `next_ordered_index`. -/
def nextOrderedIndex (startingOrderedIndex : U64) (emittedCount : ℕ) :
    Except AppEventExtractionError ℕ :=
  if startingOrderedIndex.val + emittedCount < 2 ^ 64 then
    .ok (startingOrderedIndex.val + emittedCount)
  else .error (.orderedIndexOverflow startingOrderedIndex emittedCount)

/-- `anchor_hash`, or no bytes. -/
def anchorBytes (output : OrderedFinalizedOutput) : List Byte :=
  (output.anchor.map fun id => contentHashBytes id.contentHash).getD []

/-- The event of a deploy. -/
def appEventFor (anchor blockHash : List Byte) (deployIndex : ℕ) (deploy : ExtractableAppDeploy)
    (orderedIndex : ℕ) : AppEvent :=
  { eventId := eventIdFor env blockHash deployIndex deploy
    appId := deploy.appId
    eventType := deploy.eventType
    payload := deploy.payload
    submitter := deploy.submitter
    orderedIndex := orderedIndex
    blockHash := blockHash
    deploySignature := deploy.deploySignature
    finalizedAnchor := anchor }

/-- The loop of `extract_app_events` over the deploys of a block. -/
def pushBlockEvents (start : U64) (anchor blockHash : List Byte) (events : List AppEvent) :
    List (ExtractableAppDeploy × ℕ) → Except AppEventExtractionError (List AppEvent)
  | [] => .ok events
  | (deploy, deployIndex) :: deploys => do
      let orderedIndex ← nextOrderedIndex start events.length
      pushBlockEvents start anchor blockHash
        (events ++ [appEventFor env anchor blockHash deployIndex deploy orderedIndex]) deploys

/-- The loop of `extract_app_events` over the blocks. -/
def pushEvents (deploysByBlockHash : OrderedMap (List Byte) (List ExtractableAppDeploy))
    (start : U64) (anchor : List Byte) (events : List AppEvent) :
    List BlockIdentity → Except AppEventExtractionError (List AppEvent)
  | [] => .ok events
  | block :: blocks =>
      match deploysByBlockHash.lookup (contentHashBytes block.contentHash) with
      | none => .error (.missingFinalizedBlockDeploys (contentHashBytes block.contentHash))
      | some deploys => do
          let events ← pushBlockEvents env start anchor (contentHashBytes block.contentHash) events
            deploys.zipIdx
          pushEvents deploysByBlockHash start anchor events blocks

/-- `extract_app_events`. -/
def extractAppEvents (output : OrderedFinalizedOutput)
    (deploysByBlockHash : OrderedMap (List Byte) (List ExtractableAppDeploy)) (start : U64) :
    Except AppEventExtractionError (List AppEvent) :=
  pushEvents env deploysByBlockHash start (anchorBytes output) [] output.blocks

/-- The events, and the refused envelopes. -/
structure AppEventExtraction where
  events : List AppEvent
  envelopeErrors : List AppEventEnvelopeScanError
deriving DecidableEq, Repr

/-- Why an extraction stops. -/
inductive AppEventExtractionPipelineError where
  | blockScan (source : AppEventBlockScanError)
  | extraction (source : AppEventExtractionError)
deriving DecidableEq, Repr

/-- `extract_app_events_from_blocks`. -/
def extractAppEventsFromBlocks (output : OrderedFinalizedOutput) (blocks : List Wire.BlockMessage)
    (start : U64) : Except AppEventExtractionPipelineError AppEventExtraction := do
  let scan ← (scanAppDeploysByBlockHash env blocks).mapError .blockScan
  let events ← (extractAppEvents env output scan.deploysByBlockHash start).mapError .extraction
  pure ⟨events, scan.envelopeErrors⟩

/-! ### Places -/

/-- An app deploy at its place: the block and the position among its app deploys. -/
structure Placement where
  blockHash : List Byte
  deployIndex : ℕ
  deploy : ExtractableAppDeploy
deriving DecidableEq, Repr

/-- The app deploys of a block at their places. -/
def blockPlacements (blockHash : List Byte) (deploys : List ExtractableAppDeploy) : List Placement :=
  deploys.zipIdx.map fun (deploy, deployIndex) => ⟨blockHash, deployIndex, deploy⟩

/-- The app deploys of blocks at their places, in the order of the blocks. -/
def placements (deploysOf : List Byte → List ExtractableAppDeploy) (blocks : List BlockIdentity) :
    List Placement :=
  blocks.flatMap fun block =>
    blockPlacements (contentHashBytes block.contentHash) (deploysOf (contentHashBytes block.contentHash))

/-- The events of app deploys, numbered from a start. -/
def placedEvents (anchor : List Byte) (start : ℕ) (places : List Placement) : List AppEvent :=
  (places.zipIdx start).map fun (place, orderedIndex) =>
    appEventFor env anchor place.blockHash place.deployIndex place.deploy orderedIndex

variable {env}

@[simp] theorem length_blockPlacements {blockHash : List Byte}
    {deploys : List ExtractableAppDeploy} :
    (blockPlacements blockHash deploys).length = deploys.length := by
  simp [blockPlacements]

theorem placements_cons {deploysOf : List Byte → List ExtractableAppDeploy}
    {block : BlockIdentity} {blocks : List BlockIdentity} :
    placements deploysOf (block :: blocks) =
      blockPlacements (contentHashBytes block.contentHash)
        (deploysOf (contentHashBytes block.contentHash)) ++ placements deploysOf blocks := rfl

@[simp] theorem placements_append {deploysOf : List Byte → List ExtractableAppDeploy}
    {blocks blocks' : List BlockIdentity} :
    placements deploysOf (blocks ++ blocks') =
      placements deploysOf blocks ++ placements deploysOf blocks' := List.flatMap_append

theorem placedEvents_append {anchor : List Byte} {start : ℕ} {places places' : List Placement} :
    placedEvents env anchor start (places ++ places') =
      placedEvents env anchor start places ++
        placedEvents env anchor (start + places.length) places' := by
  unfold placedEvents
  rw [List.zipIdx_append, List.map_append]

@[simp] theorem length_placedEvents {anchor : List Byte} {start : ℕ} {places : List Placement} :
    (placedEvents env anchor start places).length = places.length := by
  simp [placedEvents]

/-- The numbers of events are consecutive. -/
theorem orderedIndex_placedEvents {anchor : List Byte} {start : ℕ} {places : List Placement} :
    (placedEvents env anchor start places).map AppEvent.orderedIndex =
      List.range' start places.length := by
  unfold placedEvents
  rw [List.map_map]
  exact List.zipIdx_map_snd start places

theorem nextOrderedIndex_eq_ok {start : U64} {emitted orderedIndex : ℕ} :
    nextOrderedIndex start emitted = .ok orderedIndex ↔
      start.val + emitted < 2 ^ 64 ∧ orderedIndex = start.val + emitted := by
  unfold nextOrderedIndex
  split_ifs with h
  · rw [Except.ok.injEq]
    exact ⟨fun heq => ⟨h, heq.symm⟩, fun heq => heq.2.symm⟩
  · exact iff_of_false (fun heq => by cases heq) fun heq => h heq.1

/-- Whether numbering `count` events from a start stays within the numbers. -/
def Numbers (start count : ℕ) : Prop := count = 0 ∨ start + count ≤ 2 ^ 64

theorem pushBlockEvents_eq_ok {start : U64} {anchor blockHash : List Byte}
    {events events' : List AppEvent} {deploys : List (ExtractableAppDeploy × ℕ)} :
    pushBlockEvents env start anchor blockHash events deploys = .ok events' ↔
      Numbers (start.val + events.length) deploys.length ∧
        events' = events ++ placedEvents env anchor (start.val + events.length)
          (deploys.map fun (deploy, deployIndex) => ⟨blockHash, deployIndex, deploy⟩) := by
  induction deploys generalizing events with
  | nil =>
      rw [pushBlockEvents, Except.ok.injEq]
      simp [Numbers, placedEvents, eq_comm]
  | cons entry deploys ih =>
      obtain ⟨deploy, deployIndex⟩ := entry
      have hfirst : ∀ places : List Placement, placedEvents env anchor (start.val + events.length)
          (⟨blockHash, deployIndex, deploy⟩ :: places) =
            appEventFor env anchor blockHash deployIndex deploy (start.val + events.length) ::
              placedEvents env anchor (start.val + (events.length + 1)) places := fun _ => rfl
      rw [pushBlockEvents, bind_eq_ok]
      simp only [nextOrderedIndex_eq_ok, ih, List.length_append, List.length_cons,
        List.length_nil, List.map_cons, hfirst, Nat.zero_add, List.append_assoc, List.cons_append,
        List.nil_append]
      constructor
      · rintro ⟨_, ⟨hlt, rfl⟩, hnumbers, rfl⟩
        refine ⟨Or.inr ?_, rfl⟩
        rcases hnumbers with hnumbers | hnumbers <;> omega
      · rintro ⟨hnumbers, rfl⟩
        rcases hnumbers with hnumbers | hnumbers
        · omega
        · exact ⟨_, ⟨by omega, rfl⟩, Or.inr (by omega), rfl⟩

/-- What a scan says of a block. -/
def deploysOf (deploysByBlockHash : OrderedMap (List Byte) (List ExtractableAppDeploy))
    (blockHash : List Byte) : List ExtractableAppDeploy :=
  (deploysByBlockHash.lookup blockHash).getD []

/-- The loop makes the event of every place. -/
theorem pushEvents_eq_ok
    {deploysByBlockHash : OrderedMap (List Byte) (List ExtractableAppDeploy)} {start : U64}
    {anchor : List Byte} {events events' : List AppEvent} {blocks : List BlockIdentity} :
    pushEvents env deploysByBlockHash start anchor events blocks = .ok events' ↔
      (∀ block ∈ blocks, deploysByBlockHash.lookup (contentHashBytes block.contentHash) ≠ none) ∧
        Numbers (start.val + events.length)
          (placements (deploysOf deploysByBlockHash) blocks).length ∧
        events' = events ++ placedEvents env anchor (start.val + events.length)
          (placements (deploysOf deploysByBlockHash) blocks) := by
  induction blocks generalizing events with
  | nil =>
      rw [pushEvents, Except.ok.injEq]
      simp [Numbers, placements, placedEvents, eq_comm]
  | cons block blocks ih =>
      rw [pushEvents]
      cases hlookup : deploysByBlockHash.lookup (contentHashBytes block.contentHash) with
      | none =>
          refine iff_of_false (fun h => by cases h) fun h => ?_
          exact h.1 block List.mem_cons_self hlookup
      | some deploys =>
          have hplaces : placements (deploysOf deploysByBlockHash) (block :: blocks) =
              blockPlacements (contentHashBytes block.contentHash) deploys ++
                placements (deploysOf deploysByBlockHash) blocks := by
            rw [placements_cons, deploysOf, hlookup]
            rfl
          dsimp only
          rw [bind_eq_ok, hplaces, placedEvents_append, List.length_append]
          simp only [pushBlockEvents_eq_ok, List.length_zipIdx, ih, List.forall_mem_cons,
            length_blockPlacements]
          constructor
          · rintro ⟨_, ⟨hfirst, rfl⟩, hknown, hrest, rfl⟩
            refine ⟨⟨by simp [hlookup], hknown⟩, ?_, ?_⟩
            · unfold Numbers at hfirst hrest ⊢
              simp only [List.length_append, length_placedEvents, List.length_map,
                List.length_zipIdx] at hrest
              omega
            · simp [blockPlacements, Nat.add_assoc]
          · rintro ⟨⟨-, hknown⟩, hnumbers, rfl⟩
            refine ⟨_, ⟨?_, rfl⟩, hknown, ?_, ?_⟩
            · unfold Numbers at hnumbers ⊢
              omega
            · unfold Numbers at hnumbers ⊢
              simp only [List.length_append, length_placedEvents, List.length_map,
                List.length_zipIdx]
              omega
            · simp [blockPlacements, Nat.add_assoc]

/-- **The events of an output are its placed app deploys**, numbered from the start.
The extraction fails where a block was not scanned or the numbers end. -/
theorem extractAppEvents_eq_ok {output : OrderedFinalizedOutput}
    {deploysByBlockHash : OrderedMap (List Byte) (List ExtractableAppDeploy)} {start : U64}
    {events : List AppEvent} :
    extractAppEvents env output deploysByBlockHash start = .ok events ↔
      (∀ block ∈ output.blocks,
        deploysByBlockHash.lookup (contentHashBytes block.contentHash) ≠ none) ∧
      Numbers start.val (placements (deploysOf deploysByBlockHash) output.blocks).length ∧
      events = placedEvents env (anchorBytes output) start.val
        (placements (deploysOf deploysByBlockHash) output.blocks) := by
  unfold extractAppEvents
  rw [pushEvents_eq_ok]
  rfl

variable (env)

/-- The app deploys of the block with a given hash, among bodies. -/
def bodyDeploys (bodies : List Wire.BlockMessage) (blockHash : List Byte) :
    List ExtractableAppDeploy :=
  ((bodies.find? fun block => block.blockHash = blockHash).map (appDeploys env)).getD []

variable {env}

theorem placements_congr {deploys deploys' : List Byte → List ExtractableAppDeploy}
    {blocks : List BlockIdentity} (h : ∀ block ∈ blocks,
      deploys (contentHashBytes block.contentHash) = deploys' (contentHashBytes block.contentHash)) :
    placements deploys blocks = placements deploys' blocks := by
  unfold placements
  refine List.flatMap_congr fun block hblock => ?_
  rw [h block hblock]

/-- **Which bodies are supplied, and in which order, makes no difference**: where the
extraction succeeds, the events are those of all bodies. -/
theorem events_of_extractAppEventsFromBlocks {output : OrderedFinalizedOutput}
    {bodies supplied : List Wire.BlockMessage} {start : U64} {extraction : AppEventExtraction}
    (hbodies : (bodies.map Wire.BlockMessage.blockHash).Nodup) (hsupplied : supplied ⊆ bodies)
    (h : extractAppEventsFromBlocks env output supplied start = .ok extraction) :
    Numbers start.val (placements (bodyDeploys env bodies) output.blocks).length ∧
      extraction.events = placedEvents env (anchorBytes output) start.val
        (placements (bodyDeploys env bodies) output.blocks) := by
  unfold extractAppEventsFromBlocks at h
  obtain ⟨scan, hscan, h⟩ := bind_eq_ok.1 h
  obtain ⟨events, hevents, h⟩ := bind_eq_ok.1 h
  cases h
  obtain ⟨-, hlookup⟩ := scanAppDeploysByBlockHash_eq_ok (mapError_eq_ok.1 hscan)
  obtain ⟨hknown, hnumbers, rfl⟩ := extractAppEvents_eq_ok.1 (mapError_eq_ok.1 hevents)
  have hplaces : placements (deploysOf scan.deploysByBlockHash) output.blocks =
      placements (bodyDeploys env bodies) output.blocks := by
    refine placements_congr fun block hblock => ?_
    obtain ⟨deploys, hdeploys⟩ := Option.ne_none_iff_exists'.1 (hknown block hblock)
    obtain ⟨body, hbody, hhash, rfl⟩ := (hlookup _ _).1 hdeploys
    rw [deploysOf, hdeploys, bodyDeploys, ← hhash,
      Matched.find?_of_nodup hbodies (hsupplied hbody)]
    rfl
  rw [hplaces] at hnumbers ⊢
  exact ⟨hnumbers, rfl⟩

/-! ### Identities -/

theorem hexChar_inj {n m : ℕ} (hn : n < 16) (hm : m < 16) (h : hexChar n = hexChar m) : n = m := by
  have hall : ∀ n < 16, ∀ m < 16, hexChar n = hexChar m → n = m := by decide
  exact hall n hn m hm h

/-- Bytes can be read from their digits. -/
theorem hexText_injective : Function.Injective hexText := by
  intro bytes bytes' h
  have hlist := String.ofList_injective h
  induction bytes generalizing bytes' with
  | nil =>
      cases bytes' with
      | nil => rfl
      | cons b bytes' => simp at hlist
  | cons a bytes ih =>
      cases bytes' with
      | nil => simp at hlist
      | cons b bytes' =>
          simp only [List.flatMap_cons, List.cons_append, List.nil_append, List.cons.injEq] at hlist
          obtain ⟨hhigh, hlow, hrest⟩ := hlist
          have ha : a.val < 256 := a.isLt
          have hb : b.val < 256 := b.isLt
          have hdiv := hexChar_inj (by omega) (by omega) hhigh
          have hmod := hexChar_inj (by omega) (by omega) hlow
          have hab : a = b := Fin.ext (by omega)
          rw [hab, ih (congrArg String.ofList hrest) hrest]

theorem leBytes_inj {w n m : ℕ} (hn : n < 256 ^ w) (hm : m < 256 ^ w)
    (h : leBytes w n = leBytes w m) : n = m := by
  rw [← Codec.ofLeBytes_leBytes hn, h, Codec.ofLeBytes_leBytes hm]

/-- **The bytes of an identity start with the place.** -/
theorem eventIdBytes_inj {hash hash' : List Byte} {i i' : ℕ} {deploy deploy' : ExtractableAppDeploy}
    (hlen : hash.length = hash'.length) (hi : i < 2 ^ 64) (hi' : i' < 2 ^ 64)
    (h : eventIdBytes hash i deploy = eventIdBytes hash' i' deploy') : hash = hash' ∧ i = i' := by
  unfold eventIdBytes at h
  simp only [List.append_assoc] at h
  have hplace := List.append_cancel_left h
  obtain ⟨hhash, hplace⟩ := List.append_inj hplace (by simp [sizedBytes, hlen])
  obtain ⟨hindex, -⟩ := List.append_inj hplace (by simp)
  refine ⟨?_, leBytes_inj (by omega) (by omega) hindex⟩
  unfold sizedBytes at hhash
  rw [hlen] at hhash
  exact List.append_cancel_left hhash

theorem mem_placements {deploys : List Byte → List ExtractableAppDeploy}
    {blocks : List BlockIdentity} {place : Placement} (h : place ∈ placements deploys blocks) :
    place.blockHash.length = 32 ∧ place.deployIndex < (placements deploys blocks).length := by
  obtain ⟨block, hblock, hplace⟩ := List.mem_flatMap.1 h
  obtain ⟨⟨deploy, i⟩, hentry, rfl⟩ := List.mem_map.1 hplace
  refine ⟨length_contentHashBytes _, ?_⟩
  have hi : i < (deploys (contentHashBytes block.contentHash)).length := by
    simpa using List.snd_lt_add_of_mem_zipIdx hentry
  obtain ⟨front, rear, rfl⟩ := List.append_of_mem hblock
  rw [placements_append, List.length_append]
  rw [placements_cons, List.length_append, length_blockPlacements]
  show i < _
  omega

/-- Blocks with different hashes have different places. -/
theorem nodup_placements (deploys : List Byte → List ExtractableAppDeploy)
    {blocks : List BlockIdentity} (h : (blocks.map BlockIdentity.contentHash).Nodup) :
    ((placements deploys blocks).map fun place => (place.blockHash, place.deployIndex)).Nodup := by
  induction blocks with
  | nil => exact List.nodup_nil
  | cons block blocks ih =>
      obtain ⟨hblock, hrest⟩ := List.nodup_cons.1 h
      have hkeys : (blockPlacements (contentHashBytes block.contentHash)
          (deploys (contentHashBytes block.contentHash))).map
            (fun place => (place.blockHash, place.deployIndex)) =
          (List.range (deploys (contentHashBytes block.contentHash)).length).map
            fun i => (contentHashBytes block.contentHash, i) := by
        unfold blockPlacements
        rw [List.map_map, List.range_eq_range', ← List.zipIdx_map_snd 0, List.map_map]
        rfl
      rw [placements_cons, List.map_append, List.nodup_append', hkeys]
      refine ⟨List.nodup_range.map fun i j hij => (Prod.mk.inj hij).2, ih hrest, ?_⟩
      intro key hfirst hlater
      obtain ⟨i, -, rfl⟩ := List.mem_map.1 hfirst
      obtain ⟨place, hplace, hkey⟩ := List.mem_map.1 hlater
      obtain ⟨other, hother, hplace⟩ := List.mem_flatMap.1 hplace
      obtain ⟨⟨deploy, j⟩, -, rfl⟩ := List.mem_map.1 hplace
      have hbytes : contentHashBytes other.contentHash = contentHashBytes block.contentHash :=
        (Prod.mk.inj hkey).1
      have hhash : other.contentHash = block.contentHash := contentHashBytes_injective hbytes
      exact hblock (hhash ▸ List.mem_map_of_mem hother)

/-- The digest tells the identities of places apart. -/
def CollisionFree (env : ExtractionEnv V) (places : List Placement) : Prop :=
  ∀ p ∈ places, ∀ q ∈ places,
    env.sha256 (eventIdBytes p.blockHash p.deployIndex p.deploy) =
        env.sha256 (eventIdBytes q.blockHash q.deployIndex q.deploy) →
      eventIdBytes p.blockHash p.deployIndex p.deploy =
        eventIdBytes q.blockHash q.deployIndex q.deploy

/-- **No two events have one identity.** -/
theorem nodup_eventId_placedEvents {deploys : List Byte → List ExtractableAppDeploy}
    {blocks : List BlockIdentity} (anchor : List Byte) (start : ℕ)
    (hblocks : (blocks.map BlockIdentity.contentHash).Nodup)
    (hhash : CollisionFree env (placements deploys blocks))
    (hcount : (placements deploys blocks).length ≤ 2 ^ 64) :
    ((placedEvents env anchor start (placements deploys blocks)).map AppEvent.eventId).Nodup := by
  have hkeys := nodup_placements deploys hblocks
  have hids : (placedEvents env anchor start (placements deploys blocks)).map AppEvent.eventId =
      (placements deploys blocks).map fun place =>
        eventIdFor env place.blockHash place.deployIndex place.deploy := by
    unfold placedEvents
    conv_rhs => rw [← List.zipIdx_map_fst start (placements deploys blocks)]
    rw [List.map_map, List.map_map]
    rfl
  rw [hids]
  refine (List.Nodup.of_map _ hkeys).map_on fun p hp q hq heq => ?_
  obtain ⟨hplen, hpi⟩ := mem_placements hp
  obtain ⟨hqlen, hqi⟩ := mem_placements hq
  have hbytes := hhash p hp q hq (hexText_injective (AppEventId.mk.inj heq))
  obtain ⟨hblock, hindex⟩ := eventIdBytes_inj (hplen.trans hqlen.symm) (by omega) (by omega) hbytes
  exact List.inj_on_of_nodup_map hkeys hp hq (Prod.ext hblock hindex)

end CordialMiners.App
