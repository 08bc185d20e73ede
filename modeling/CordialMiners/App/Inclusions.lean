/-
# How often a deploy takes effect

An event is identified by its place, and the runtime decides each event once.  A
signed deploy that several blocks have included is therefore several events: an app
applies it at most as often as it is included in the finalized blocks
(`applied_le_inclusions`), and it can come to that (`deploy_applied_twice`).
-/

import CordialMiners.App.Extraction

namespace CordialMiners.App

open Reputation (OrderedFinalizedOutput)

variable {V A : Type} {env : ExtractionEnv V} {app : CordialApp A} {display : AppError → String}

/-- The runtime with apps registered. -/
def registered (app : CordialApp A) (apps : List A) : AppRuntime A :=
  apps.foldl (AppRuntime.registerApp app) .new

theorem recorded_registered (apps : List A) : (registered app apps).Recorded := by
  have hstep : ∀ (apps : List A) (rt : AppRuntime A), rt.Recorded →
      (apps.foldl (AppRuntime.registerApp app) rt).Recorded := by
    intro apps
    induction apps with
    | nil => exact fun rt hrt => hrt
    | cons a apps ih =>
        exact fun rt hrt => ih _ ⟨hrt.nodup, hrt.decided, hrt.receipt⟩
  exact hstep apps _ AppRuntime.recorded_new

theorem receipts_registered (apps : List A) : (registered app apps).receipts = [] := by
  have hstep : ∀ (apps : List A) (rt : AppRuntime A), rt.receipts = [] →
      (apps.foldl (AppRuntime.registerApp app) rt).receipts = [] := by
    intro apps
    induction apps with
    | nil => exact fun rt hrt => hrt
    | cons a apps ih => exact fun rt hrt => ih _ hrt
  exact hstep apps _ rfl

/-- An event that comes from a signed deploy. -/
def AppEvent.SignedBy (key sig : List Byte) (event : AppEvent) : Prop :=
  event.submitter = key ∧ event.deploySignature = some sig

instance (key sig : List Byte) : DecidablePred (AppEvent.SignedBy key sig) := fun event =>
  inferInstanceAs (Decidable (event.submitter = key ∧ event.deploySignature = some sig))

/-- How often a block includes a signed deploy, among bodies. -/
def inclusions (bodies : List Wire.BlockMessage) (key sig : List Byte) (block : BlockIdentity) : ℕ :=
  ((bodies.find? fun body => body.blockHash = contentHashBytes block.contentHash).map fun body =>
    body.body.deploys.countP fun processed =>
      processed.deploy.pk = key ∧ processed.deploy.sig = sig).getD 0

/-- The receipts of applied events that come from a signed deploy. -/
def appliedReceipts (rt : AppRuntime A) (events : List AppEvent) (key sig : List Byte) :
    List AppReceipt :=
  rt.receipts.filter fun receipt => receipt.status = .applied ∧
    receipt.eventId ∈ (events.filter fun event => event.SignedBy key sig).map AppEvent.eventId

/-! ### Counting -/

variable {key sig : List Byte}

/-- A block has no more app deploys of a signed deploy than it includes it. -/
theorem countP_appDeploys_le (block : Wire.BlockMessage) :
    ((appDeploys env block).countP fun deploy =>
      deploy.submitter = key ∧ deploy.deploySignature = some sig) ≤
      block.body.deploys.countP fun processed =>
        processed.deploy.pk = key ∧ processed.deploy.sig = sig := by
  unfold appDeploys
  rw [List.countP_filterMap]
  refine List.countP_mono_left fun processed _ h => ?_
  cases hparse : parseAppDeployEnvelope env processed.deploy with
  | error error => simp [hparse] at h
  | ok parsed =>
      cases parsed with
      | none => simp [hparse] at h
      | some deploy =>
          obtain ⟨hpk, hsig⟩ := signer_of_parseAppDeployEnvelope hparse
          simpa [hparse, hpk, hsig] using h

theorem countP_placedEvents {anchor : List Byte} {start : ℕ} {places : List Placement} :
    ((placedEvents env anchor start places).countP fun event => event.SignedBy key sig) =
      places.countP fun place =>
        place.deploy.submitter = key ∧ place.deploy.deploySignature = some sig := by
  induction places generalizing start with
  | nil => rfl
  | cons place places ih =>
      have hcons : placedEvents env anchor start (place :: places) =
          appEventFor env anchor place.blockHash place.deployIndex place.deploy start ::
            placedEvents env anchor (start + 1) places := rfl
      rw [hcons, List.countP_cons, List.countP_cons, ih]
      rfl

/-- The places of a signed deploy are at most its inclusions. -/
theorem countP_placements_le {bodies : List Wire.BlockMessage} (blocks : List BlockIdentity) :
    ((placements (bodyDeploys env bodies) blocks).countP fun place =>
      place.deploy.submitter = key ∧ place.deploy.deploySignature = some sig) ≤
      (blocks.map (inclusions bodies key sig)).sum := by
  induction blocks with
  | nil => simp [placements]
  | cons block blocks ih =>
      have hblock : ((blockPlacements (contentHashBytes block.contentHash)
          (bodyDeploys env bodies (contentHashBytes block.contentHash))).countP fun place =>
            place.deploy.submitter = key ∧ place.deploy.deploySignature = some sig) ≤
            inclusions bodies key sig block := by
        have hforget : ∀ (deploys : List ExtractableAppDeploy) (hash : List Byte),
            ((blockPlacements hash deploys).countP fun place =>
              place.deploy.submitter = key ∧ place.deploy.deploySignature = some sig) =
              deploys.countP fun deploy =>
                deploy.submitter = key ∧ deploy.deploySignature = some sig := by
          intro deploys hash
          unfold blockPlacements
          conv_rhs => rw [← List.zipIdx_map_fst 0 deploys]
          rw [List.countP_map, List.countP_map]
          rfl
        rw [hforget]
        unfold bodyDeploys inclusions
        cases bodies.find? fun body => body.blockHash = contentHashBytes block.contentHash with
        | none => exact Nat.le_refl 0
        | some body => exact countP_appDeploys_le body
      rw [placements_cons, List.countP_append, List.map_cons, List.sum_cons]
      exact Nat.add_le_add hblock ih

/-- Applied receipts of a signed deploy are at most its events. -/
theorem length_appliedReceipts_le {rt : AppRuntime A} (hrt : rt.Recorded) (events : List AppEvent) :
    (appliedReceipts rt events key sig).length ≤
      events.countP fun event => event.SignedBy key sig := by
  have hnodup : ((appliedReceipts rt events key sig).map AppReceipt.eventId).Nodup :=
    hrt.receipts_nodup.sublist (List.filter_sublist.map _)
  have hsub : (appliedReceipts rt events key sig).map AppReceipt.eventId ⊆
      (events.filter fun event => event.SignedBy key sig).map AppEvent.eventId := by
    intro id hid
    obtain ⟨receipt, hreceipt, rfl⟩ := List.mem_map.1 hid
    have hfilter := (List.mem_filter.1 hreceipt).2
    rw [decide_eq_true_eq] at hfilter
    exact hfilter.2
  have hlen := (List.subperm_of_subset hnodup hsub).length_le
  rwa [List.length_map, List.length_map, ← List.countP_eq_length_filter] at hlen

/-- **A signed deploy takes effect at most as often as it is included** in the finalized
blocks, whatever the chunks in which the events are extracted. -/
theorem applied_le_inclusions {output : OrderedFinalizedOutput} {bodies : List Wire.BlockMessage}
    (hbodies : (bodies.map Wire.BlockMessage.blockHash).Nodup)
    {chunks : List (List BlockIdentity)} (hchunks : chunks.flatten = output.blocks)
    {extractions : List AppEventExtraction}
    (hextract : List.Forall₂ (fun chunk extraction => ∃ supplied start, supplied ⊆ bodies ∧
      extractAppEventsFromBlocks env { output with blocks := chunk } supplied start =
        .ok extraction) chunks extractions)
    (apps : List A) (key sig : List Byte) :
    (appliedReceipts ((registered app apps).processEvents app display
        (extractions.flatMap AppEventExtraction.events)).2
      (extractions.flatMap AppEventExtraction.events) key sig).length ≤
      (output.blocks.map (inclusions bodies key sig)).sum := by
  have hrecorded : ((registered app apps).processEvents app display
      (extractions.flatMap AppEventExtraction.events)).2.Recorded :=
    (AppRuntime.receipts_processEvents app display (recorded_registered apps) _).1
  refine (length_appliedReceipts_le hrecorded _).trans ?_
  rw [← hchunks]
  clear hchunks hrecorded
  induction hextract with
  | nil => exact Nat.le_refl 0
  | @cons chunk extraction chunks extractions hfirst _ ih =>
      obtain ⟨supplied, start, hsupplied, hok⟩ := hfirst
      rw [List.flatMap_cons, List.countP_append, List.flatten_cons, List.map_append,
        List.sum_append, (events_of_extractAppEventsFromBlocks hbodies hsupplied hok).2,
        countP_placedEvents]
      exact Nat.add_le_add (countP_placements_le chunk) ih

/-! ### A deploy in two blocks -/

/-- The term of a sample deploy. -/
def sampleTerm : String :=
  "\x7b\"cordial_app\":\x7b\"version\":1,\"app_id\":\"market\",\"event_type\":\"TaskPosted\",\"payload_hex\":\"00\"\x7d\x7d"

/-- Readers that know the sample term, and a digest of the end of the block hash and the
position. -/
def sampleEnv : ExtractionEnv Unit where
  fromStr term := if term = sampleTerm then .ok () else .error "expected value at line 1 column 1"
  get _ field := if field = envelopeField then some () else none
  fromValue _ := .ok ⟨1, "market", "TaskPosted", "00"⟩
  hexDecode text := if text = "00" then .ok [0] else .error "Odd number of digits"
  sha256 bytes := (bytes.drop 67).take 2

/-- An app that counts what it applies. -/
def countingApp : CordialApp ℕ where
  appId _ := ⟨"market"⟩
  validate _ _ := .ok ()
  apply count event := (.ok ⟨event.appId, event.eventId, event.orderedIndex, .applied, none, none⟩,
    count + 1)
  snapshot count := ⟨⟨"market"⟩, none, none, [Fin.ofNat 256 count]⟩

/-- The body of a block with the sample deploy. -/
def sampleBody (hash : ContentHash) : Wire.BlockMessage where
  blockHash := contentHashBytes hash
  header := ⟨[], 0, 1, []⟩
  body :=
    { state := ⟨[], [], [], 1⟩
      deploys := [⟨⟨⟨sampleTerm, 0, 1, 1000, 0, "root", none⟩, [7], [9], "secp256k1"⟩, 1, [], false, none⟩]
      rejectedDeploys := []
      systemDeploys := []
      extraBytes := [] }
  justifications := []
  sender := [1]
  seqNum := 0
  sig := [1]
  sigAlgorithm := "ed25519"
  shardId := "root"
  extraBytes := []

/-- Two blocks side by side, by different creators. -/
def sampleOutput : OrderedFinalizedOutput :=
  ⟨[⟨1, ⟨[1]⟩, []⟩, ⟨2, ⟨[2]⟩, []⟩], some ⟨2, ⟨[2]⟩, []⟩, 3⟩

/-- The event of the sample deploy in a block. -/
def sampleEvent (hash : ContentHash) (orderedIndex : ℕ) : AppEvent :=
  appEventFor sampleEnv (contentHashBytes 2) (contentHashBytes hash) 0
    ⟨⟨"market"⟩, "TaskPosted", [0], [7], some [9]⟩ orderedIndex

/-- The two blocks extracted one after the other. -/
theorem applied_le_inclusions_twoBlocks :
    (appliedReceipts ((registered countingApp [0]).processEvents countingApp (fun _ => "")
        [sampleEvent 1 0, sampleEvent 2 1]).2 [sampleEvent 1 0, sampleEvent 2 1] [7] [9]).length ≤
      (sampleOutput.blocks.map (inclusions [sampleBody 1, sampleBody 2] [7] [9])).sum :=
  @applied_le_inclusions _ _ sampleEnv countingApp (fun _ => "") sampleOutput
    [sampleBody 1, sampleBody 2] (by decide +kernel) [[⟨1, ⟨[1]⟩, []⟩], [⟨2, ⟨[2]⟩, []⟩]] rfl
    [⟨[sampleEvent 1 0], []⟩, ⟨[sampleEvent 2 1], []⟩]
    (.cons ⟨[sampleBody 1], 0, by decide +kernel, by decide +kernel⟩
      (.cons ⟨[sampleBody 2, sampleBody 1], 1, by decide +kernel, by decide +kernel⟩ .nil))
    [0] [7] [9]

/-- **A deploy takes effect once for each block that includes it.** -/
theorem deploy_applied_twice :
    extractAppEventsFromBlocks sampleEnv sampleOutput [sampleBody 1, sampleBody 2] 0 =
        .ok ⟨[sampleEvent 1 0, sampleEvent 2 1], []⟩ ∧
      (appliedReceipts ((registered countingApp [0]).processEvents countingApp (fun _ => "")
        [sampleEvent 1 0, sampleEvent 2 1]).2 [sampleEvent 1 0, sampleEvent 2 1] [7] [9]).length = 2 := by
  constructor
  · decide +kernel
  · decide +kernel

end CordialMiners.App
