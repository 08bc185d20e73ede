/-
# Apps do not notice when a node polls

A node polls the finalized outputs of a history in which each output extends the one
before.  At a poll it extracts the events from some block on, at or before the first
one it has not read, and hands them to its runtime.

The events that reach apps are those of one pass over the history, because the
runtime decides each event once (`decisions`); only the anchor of an event tells at
which poll it was read.  Apps that do not look at it end alike
(`app_state_of_history`), others need not (`anchors_differ`).
-/

import CordialMiners.App.Inclusions

namespace CordialMiners.App

open Reputation (OrderedFinalizedOutput)

variable {V A : Type} {env : ExtractionEnv V} {app : CordialApp A} {display : AppError → String}

/-- The event without the anchor of the output it was read from. -/
def AppEvent.unanchored (event : AppEvent) : AppEvent := { event with finalizedAnchor := [] }

/-- Applying never fails on what was validated. -/
def CordialApp.Total (app : CordialApp A) : Prop :=
  ∀ a event, app.validate a event = .ok () → ∃ receipt a', app.apply a event = (.ok receipt, a')

/-- The app does not look at the anchors of events. -/
structure CordialApp.AnchorBlind (app : CordialApp A) : Prop where
  validate : ∀ a event, app.validate a event.unanchored = app.validate a event
  apply : ∀ a event, app.apply a event.unanchored = app.apply a event

/-! ### What reaches the apps -/

namespace AppRuntime

variable {rt : AppRuntime A}

/-- The event was not decided before and its app is registered. -/
def Hands (rt : AppRuntime A) (event : AppEvent) : Prop :=
  event.eventId ∉ rt.processedEventIds ∧ rt.apps.lookup event.appId ≠ none

instance (rt : AppRuntime A) (event : AppEvent) : Decidable (rt.Hands event) :=
  inferInstanceAs (Decidable (_ ∧ ¬rt.apps.lookup event.appId = none))

variable (app display)

/-- The events that `process_events` hands to apps. -/
def delivered (rt : AppRuntime A) : List AppEvent → List AppEvent
  | [] => []
  | event :: events =>
      (if rt.Hands event then [event] else []) ++
        (rt.processEvent app display event).2.delivered events

variable {app display}

theorem processEvents_append {events events' : List AppEvent} :
    (rt.processEvents app display (events ++ events')).2 =
      ((rt.processEvents app display events).2.processEvents app display events').2 := by
  induction events generalizing rt with
  | nil => rfl
  | cons event events ih => exact ih

theorem delivered_append {events events' : List AppEvent} :
    rt.delivered app display (events ++ events') = rt.delivered app display events ++
      (rt.processEvents app display events).2.delivered app display events' := by
  induction events generalizing rt with
  | nil => rfl
  | cons event events ih =>
      rw [List.cons_append, delivered, delivered, ih, List.append_assoc]
      rfl

/-- An event that is not handed to an app leaves no trace. -/
theorem processEvent_of_not_hands (app : CordialApp A) (display : AppError → String)
    {event : AppEvent} (h : ¬rt.Hands event) :
    (rt.processEvent app display event).2 = rt := by
  unfold processEvent
  split_ifs with hdup
  · rfl
  · have hunknown : rt.apps.lookup event.appId = none := by
      by_contra hknown
      exact h ⟨hdup, hknown⟩
    rw [hunknown]

/-- **Only what reaches the apps counts.** -/
theorem processEvents_delivered (events : List AppEvent) :
    (rt.processEvents app display (rt.delivered app display events)).2 =
      (rt.processEvents app display events).2 := by
  induction events generalizing rt with
  | nil => rfl
  | cons event events ih =>
      rw [delivered]
      split_ifs with hhands
      · show (AppRuntime.processEvents app display _ _).2 = _
        exact ih
      · have hsame := processEvent_of_not_hands app display hhands
        rw [List.nil_append]
        show _ = ((rt.processEvent app display event).2.processEvents app display events).2
        rw [hsame]
        exact ih

/-- The decided events after one more. -/
theorem processedEventIds_processEvent (htotal : app.Total) (event : AppEvent) :
    (rt.processEvent app display event).2.processedEventIds =
      if rt.apps.lookup event.appId = none then rt.processedEventIds
      else insert event.eventId rt.processedEventIds := by
  have hfate := fate_processEvent app display rt event
  generalize (rt.processEvent app display event).2 = rt' at hfate ⊢
  cases hfate with
  | duplicate h => simp [h]
  | unknown _ happ => simp [happ]
  | failed _ _ hvalid hfail =>
      obtain ⟨receipt, a', hok⟩ := htotal _ _ hvalid
      rw [hok] at hfail
      cases hfail
  | decided _ happ _ _ _ => simp [happ, recordProcessedEvent]

end AppRuntime

/-- The decisions on events: those of known apps are decided once. -/
def decisions (known : AppId → Prop) [DecidablePred known] :
    Redelivery (Finset AppEventId) AppEvent AppEvent where
  step ids event := if known event.appId then insert event.eventId ids else ids
  emit ids event := if event.eventId ∉ ids ∧ known event.appId then [event] else []
  Settled ids event := event.eventId ∈ ids ∨ ¬known event.appId
  settles ids event := by
    split_ifs with h
    · exact Or.inl (Finset.mem_insert_self _ _)
    · exact Or.inr h
  keeps ids event event' h := by
    refine h.imp_left fun hmem => ?_
    split_ifs
    · exact Finset.mem_insert_of_mem hmem
    · exact hmem
  idle ids event h := by
    split_ifs with hknown
    · exact Finset.insert_eq_of_mem (h.resolve_right fun hnot => hnot hknown)
    · rfl
  silent ids event h := by
    rw [if_neg]
    rintro ⟨hnew, hknown⟩
    exact h.elim hnew fun hnot => hnot hknown

section Decisions

variable {known : AppId → Prop} [DecidablePred known]

theorem emitted_sublist (ids : Finset AppEventId) (events : List AppEvent) :
    ((decisions known).emitted ids events).Sublist events := by
  induction events generalizing ids with
  | nil => exact List.Sublist.slnil
  | cons event events ih =>
      have hemit : ((decisions known).emit ids event).Sublist [event] := by
        show (if _ then [event] else []).Sublist [event]
        split_ifs
        · exact List.Sublist.refl _
        · exact List.nil_sublist _
      exact hemit.append (ih _)

/-- **What reaches the apps follows the decisions.** -/
theorem delivered_unanchored {rt : AppRuntime A} (htotal : app.Total)
    (hknown : ∀ id, known id ↔ rt.apps.lookup id ≠ none) (events : List AppEvent) :
    (rt.delivered app display events).map AppEvent.unanchored =
      (decisions known).emitted rt.processedEventIds (events.map AppEvent.unanchored) := by
  induction events generalizing rt with
  | nil => rfl
  | cons event events ih =>
      have hfate := AppRuntime.fate_processEvent app display rt event
      have hids : (rt.processEvent app display event).2.processedEventIds =
          (decisions known).step rt.processedEventIds event.unanchored := by
        rw [AppRuntime.processedEventIds_processEvent htotal]
        show _ = if known event.appId then _ else _
        by_cases hk : known event.appId
        · rw [if_pos hk, if_neg ((hknown _).1 hk)]
          rfl
        · rw [if_neg hk, if_pos (not_not.1 (mt (hknown _).2 hk))]
      have hsame : ∀ id,
          known id ↔ (rt.processEvent app display event).2.apps.lookup id ≠ none := by
        intro id
        rw [hknown, ne_eq, ne_eq, hfate.lookup_eq_none_iff]
      have hrest := ih hsame
      rw [AppRuntime.delivered, List.map_append, hrest, List.map_cons, Redelivery.emitted, hids]
      congr 1
      show _ = if event.eventId ∉ rt.processedEventIds ∧ known event.appId then _ else _
      by_cases hhands : rt.Hands event
      · rw [if_pos hhands, if_pos ⟨hhands.1, (hknown _).2 hhands.2⟩]
        rfl
      · rw [if_neg hhands, if_neg fun h => hhands ⟨h.1, (hknown _).1 h.2⟩]
        rfl

end Decisions

/-! ### Runtimes up to anchors -/

namespace AppRuntime

/-- The runtime without the anchor in its cursor. -/
def unanchored (rt : AppRuntime A) : AppRuntime A :=
  { rt with cursor := rt.cursor.map fun cursor => { cursor with finalizedAnchor := [] } }

variable {rt : AppRuntime A}

theorem processEvent_unanchored (hblind : app.AnchorBlind) (event : AppEvent) :
    (rt.unanchored.processEvent app display event.unanchored).2 =
      (rt.processEvent app display event).2.unanchored := by
  unfold processEvent
  rw [show event.unanchored.eventId = event.eventId from rfl,
    show event.unanchored.appId = event.appId from rfl,
    show rt.unanchored.processedEventIds = rt.processedEventIds from rfl,
    show rt.unanchored.apps = rt.apps from rfl]
  split_ifs
  · rfl
  · cases rt.apps.lookup event.appId with
    | none => rfl
    | some a =>
        dsimp only
        rw [hblind.validate, hblind.apply]
        cases app.validate a event with
        | error error => rfl
        | ok u =>
            cases u
            dsimp only
            cases app.apply a event with
            | mk result a' => cases result <;> rfl

/-- **Apps that do not look at anchors end alike up to anchors.** -/
theorem processEvents_unanchored (hblind : app.AnchorBlind) (events : List AppEvent) :
    (rt.unanchored.processEvents app display (events.map AppEvent.unanchored)).2 =
      (rt.processEvents app display events).2.unanchored := by
  induction events generalizing rt with
  | nil => rfl
  | cons event events ih =>
      rw [List.map_cons]
      show ((rt.unanchored.processEvent app display event.unanchored).2.processEvents app display
        (events.map AppEvent.unanchored)).2 = _
      rw [processEvent_unanchored hblind]
      exact ih

end AppRuntime

/-! ### Polls -/

/-- A node with its runtime: how many blocks of the history it has read, the events it
has extracted and those that have reached apps. -/
structure Reader (A : Type) where
  runtime : AppRuntime A
  blocksRead : ℕ
  extracted : List AppEvent
  delivered : List AppEvent

namespace Reader

/-- A node with apps that has read nothing. -/
def start (app : CordialApp A) (apps : List A) : Reader A := ⟨registered app apps, 0, [], []⟩

/-- Feed the events of a poll to the runtime. -/
def feed (app : CordialApp A) (display : AppError → String) (r : Reader A) (blocksRead : ℕ)
    (events : List AppEvent) : Reader A where
  runtime := (r.runtime.processEvents app display events).2
  blocksRead := blocksRead
  extracted := r.extracted ++ events
  delivered := r.delivered ++ r.runtime.delivered app display events

end Reader

/-- The number of app events in blocks. -/
def eventCount (env : ExtractionEnv V) (bodies : List Wire.BlockMessage)
    (blocks : List BlockIdentity) : ℕ := (placements (bodyDeploys env bodies) blocks).length

/-- A node polls outputs one after the other.  Each time it extracts the events from some
block on, which is at or before the first one it has not read; their numbers go on from
the count of the events before that block. -/
inductive Polls (env : ExtractionEnv V) (app : CordialApp A) (display : AppError → String)
    (bodies : List Wire.BlockMessage) : List OrderedFinalizedOutput → Reader A → Reader A → Prop
  | done (r : Reader A) : Polls env app display bodies [] r r
  | poll {output : OrderedFinalizedOutput} {outputs : List OrderedFinalizedOutput} {r r' : Reader A}
      {first : ℕ} {index : U64} {supplied : List Wire.BlockMessage} {extraction : AppEventExtraction}
      (hfirst : first ≤ r.blocksRead)
      (hindex : index.val = eventCount env bodies (output.blocks.take first))
      (hsupplied : supplied ⊆ bodies)
      (hextract : extractAppEventsFromBlocks env { output with blocks := output.blocks.drop first }
        supplied index = .ok extraction)
      (rest : Polls env app display bodies outputs
        (r.feed app display output.blocks.length extraction.events) r') :
      Polls env app display bodies (output :: outputs) r r'

/-- The events of blocks, without anchors. -/
def eventLog (env : ExtractionEnv V) (bodies : List Wire.BlockMessage)
    (blocks : List BlockIdentity) : List AppEvent :=
  placedEvents env [] 0 (placements (bodyDeploys env bodies) blocks)

variable {bodies : List Wire.BlockMessage} {blocks blocks' : List BlockIdentity}

theorem unanchored_placedEvents {anchor : List Byte} {start : ℕ} {places : List Placement} :
    (placedEvents env anchor start places).map AppEvent.unanchored =
      placedEvents env [] start places := by
  unfold placedEvents
  rw [List.map_map]
  rfl

theorem eventCount_append :
    eventCount env bodies (blocks ++ blocks') =
      eventCount env bodies blocks + eventCount env bodies blocks' := by
  unfold eventCount
  rw [placements_append, List.length_append]

theorem eventCount_take_mono {n m : ℕ} (h : n ≤ m) :
    eventCount env bodies (blocks.take n) ≤ eventCount env bodies (blocks.take m) := by
  have hsplit : blocks.take m = blocks.take n ++ (blocks.take m).drop n := by
    conv_lhs => rw [← List.take_append_drop n (blocks.take m), List.take_take, Nat.min_eq_left h]
  rw [hsplit, eventCount_append]
  omega

/-- The first events are those of the first blocks. -/
theorem take_eventLog {n : ℕ} :
    (eventLog env bodies blocks).take (eventCount env bodies (blocks.take n)) =
      eventLog env bodies (blocks.take n) := by
  unfold eventLog eventCount
  conv_lhs => rw [← List.take_append_drop n blocks, placements_append, placedEvents_append]
  rw [List.take_append_of_le_length (by simp)]
  exact List.take_of_length_le (by simp)

/-- The events from a block on are what is left of the events of all blocks. -/
theorem drop_eventLog {n : ℕ} :
    (eventLog env bodies blocks).drop (eventCount env bodies (blocks.take n)) =
      placedEvents env [] (eventCount env bodies (blocks.take n))
        (placements (bodyDeploys env bodies) (blocks.drop n)) := by
  unfold eventLog eventCount
  conv_lhs => rw [← List.take_append_drop n blocks, placements_append, placedEvents_append]
  rw [List.drop_left' (by simp), Nat.zero_add]

/-- **What a node extracts are slices of the events of the history.** -/
theorem Polls.reading {outputs : List OrderedFinalizedOutput} {r r' : Reader A}
    (hbodies : (bodies.map Wire.BlockMessage.blockHash).Nodup)
    (h : Polls env app display bodies outputs r r')
    (hhistory : ∀ output ∈ outputs, output.blocks <+: blocks)
    (hchain : outputs.Pairwise fun output output' => output.blocks <+: output'.blocks)
    (hread : ∀ output ∈ outputs, r.blocksRead ≤ output.blocks.length) :
    ∃ events slices, r' = ⟨(r.runtime.processEvents app display events).2, r'.blocksRead,
        r.extracted ++ events, r.delivered ++ r.runtime.delivered app display events⟩ ∧
      r'.blocksRead = (outputs.getLast?.map fun output => output.blocks.length).getD r.blocksRead ∧
      events.map AppEvent.unanchored = slices.flatten ∧
      Redelivery.Reading (eventLog env bodies blocks)
        (eventCount env bodies (blocks.take r.blocksRead)) slices
        (eventCount env bodies (blocks.take r'.blocksRead)) := by
  induction h with
  | done r => exact ⟨[], [], by simp [AppRuntime.processEvents, AppRuntime.delivered], rfl, rfl, .nil _⟩
  | @poll output outputs r r' first index supplied extraction hfirst hindex hsupplied hextract rest ih =>
      obtain ⟨hlater, hchain⟩ := List.pairwise_cons.1 hchain
      obtain ⟨hinit, hhistory⟩ := List.forall_mem_cons.1 hhistory
      obtain ⟨hhere, -⟩ := List.forall_mem_cons.1 hread
      obtain ⟨events, slices, heq, hlast, hmap, hreading⟩ := ih hhistory hchain fun o ho =>
        (hlater o ho).length_le
      have hblocks : output.blocks = blocks.take output.blocks.length :=
        List.prefix_iff_eq_take.1 hinit
      have hslice : extraction.events.map AppEvent.unanchored =
          ((eventLog env bodies blocks).take
            (eventCount env bodies (blocks.take output.blocks.length))).drop
              (eventCount env bodies (blocks.take first)) := by
        have hfront : output.blocks.take first = blocks.take first := by
          rw [hblocks, List.take_take, Nat.min_eq_left (hfirst.trans hhere)]
        rw [take_eventLog, ← hblocks, ← hfront, drop_eventLog,
          (events_of_extractAppEventsFromBlocks hbodies hsupplied hextract).2,
          unanchored_placedEvents, hindex]
      refine ⟨extraction.events ++ events, extraction.events.map AppEvent.unanchored :: slices,
        ?_, ?_, ?_, ?_⟩
      · rw [heq, AppRuntime.processEvents_append, AppRuntime.delivered_append]
        simp [Reader.feed]
      · rw [hlast, List.getLast?_cons]
        cases outputs.getLast? <;> rfl
      · rw [List.map_append, hmap, List.flatten_cons]
      · rw [hslice]
        exact .cons (eventCount_take_mono hfirst) (eventCount_take_mono hhere) hreading

/-- The numbers reach to the end of what was read. -/
theorem Polls.eventCount_le {outputs : List OrderedFinalizedOutput} {r r' : Reader A}
    (hbodies : (bodies.map Wire.BlockMessage.blockHash).Nodup)
    (h : Polls env app display bodies outputs r r') :
    ∀ output ∈ outputs, eventCount env bodies output.blocks ≤ 2 ^ 64 := by
  induction h with
  | done r => exact fun _ hmem => absurd hmem List.not_mem_nil
  | @poll output outputs r r' first index supplied extraction _ hindex hsupplied hextract rest ih =>
      refine List.forall_mem_cons.2 ⟨?_, ih⟩
      have hnumbers := (events_of_extractAppEventsFromBlocks hbodies hsupplied hextract).1
      have hsplit : eventCount env bodies output.blocks =
          index.val + eventCount env bodies (output.blocks.drop first) := by
        conv_lhs => rw [← List.take_append_drop first output.blocks, eventCount_append]
        rw [hindex]
      have hindexLt : index.val < 2 ^ 64 := index.isLt
      have hrest : eventCount env bodies (output.blocks.drop first) = 0 ∨
          index.val + eventCount env bodies (output.blocks.drop first) ≤ 2 ^ 64 := hnumbers
      omega

/-! ### The history decides -/

/-- The blocks of the last output. -/
def finalBlocks (chain : List OrderedFinalizedOutput) : List BlockIdentity :=
  (chain.getLast?.map OrderedFinalizedOutput.blocks).getD []

theorem prefix_finalBlocks {chain : List OrderedFinalizedOutput}
    (hchain : chain.Pairwise fun output output' => output.blocks <+: output'.blocks) :
    ∀ output ∈ chain, output.blocks <+: finalBlocks chain := by
  rcases List.eq_nil_or_concat chain with rfl | ⟨front, last, rfl⟩
  · exact fun _ hmem => absurd hmem List.not_mem_nil
  · intro output hmem
    rw [List.concat_eq_append] at hchain hmem ⊢
    have hlast : finalBlocks (front ++ [last]) = last.blocks := by simp [finalBlocks]
    rw [hlast]
    rcases List.mem_append.1 hmem with hfront | hlast
    · exact (List.pairwise_append.1 hchain).2.2 output hfront last (List.mem_singleton_self _)
    · rw [List.mem_singleton.1 hlast]

/-- A node that reads a history to its end, at polls of its choice. -/
structure ReadsHistory (env : ExtractionEnv V) (app : CordialApp A) (display : AppError → String)
    (bodies : List Wire.BlockMessage) (chain : List OrderedFinalizedOutput) (apps : List A)
    (polls : List OrderedFinalizedOutput) (r : Reader A) : Prop where
  subset : polls.Sublist chain
  last : polls.getLast? = chain.getLast?
  polls : Polls env app display bodies polls (Reader.start app apps) r

variable {chain polls : List OrderedFinalizedOutput} {apps : List A} {r : Reader A}

/-- **What reaches the apps is decided by the history.** -/
theorem ReadsHistory.outcome (h : ReadsHistory env app display bodies chain apps polls r)
    (hbodies : (bodies.map Wire.BlockMessage.blockHash).Nodup)
    (hchain : chain.Pairwise fun output output' => output.blocks <+: output'.blocks)
    (htotal : app.Total) :
    r.runtime = ((registered app apps).processEvents app display r.delivered).2 ∧
      r.delivered.map AppEvent.unanchored =
        (decisions fun id => (registered app apps).apps.lookup id ≠ none).emitted
          (registered app apps).processedEventIds (eventLog env bodies (finalBlocks chain)) ∧
      r.extracted.map AppEvent.unanchored ⊆ eventLog env bodies (finalBlocks chain) := by
  obtain ⟨events, slices, heq, hread, hmap, hreading⟩ := h.polls.reading hbodies
    (fun output houtput => prefix_finalBlocks hchain output (h.subset.subset houtput))
    (hchain.sublist h.subset) fun _ _ => Nat.zero_le _
  have hextracted : r.extracted = events := by
    rw [heq]
    rfl
  have hdelivered : r.delivered = (registered app apps).delivered app display events := by
    rw [heq]
    rfl
  -- the slices cover the log, from nothing to its end
  have hend : (eventLog env bodies (finalBlocks chain)).take
      (eventCount env bodies ((finalBlocks chain).take r.blocksRead)) =
        eventLog env bodies (finalBlocks chain) := by
    have hlen : r.blocksRead = (finalBlocks chain).length := by
      rw [hread, h.last]
      unfold finalBlocks
      cases chain.getLast? <;> rfl
    rw [take_eventLog, hlen, List.take_length]
  have honce := Redelivery.run_flatten
    (M := decisions fun id => (registered app apps).apps.lookup id ≠ none)
    (s := (registered app apps).processedEventIds) hreading
  rw [hend] at honce
  refine ⟨?_, ?_, ?_⟩
  · rw [hdelivered, AppRuntime.processEvents_delivered, heq]
    rfl
  · rw [hdelivered, delivered_unanchored htotal fun _ => Iff.rfl, hmap, ← honce.2]
    rfl
  · rw [hextracted, hmap]
    exact hreading.subset

/-- **App state does not depend on when a node polled.**  The events that reach apps are
equal up to the anchors of the outputs they were read from.  Apps that do not look at
these have the same receipts and snapshots.  The receipts are in the order of the
events, and identities tell events apart. -/
theorem app_state_of_history {polls' : List OrderedFinalizedOutput} {r' : Reader A}
    (hchain : chain.Pairwise fun output output' => output.blocks <+: output'.blocks)
    (hbodies : (bodies.map Wire.BlockMessage.blockHash).Nodup) (htotal : app.Total)
    (h : ReadsHistory env app display bodies chain apps polls r)
    (h' : ReadsHistory env app display bodies chain apps polls' r') :
    r.delivered.map AppEvent.unanchored = r'.delivered.map AppEvent.unanchored ∧
      (app.AnchorBlind → r.runtime.receipts = r'.runtime.receipts ∧
        r.runtime.snapshots app = r'.runtime.snapshots app) ∧
      (r.runtime.receipts.map AppReceipt.orderedIndex).Pairwise (· < ·) ∧
      (((finalBlocks chain).map BlockIdentity.contentHash).Nodup →
        CollisionFree env (placements (bodyDeploys env bodies) (finalBlocks chain)) →
        ∀ event ∈ r.extracted, ∀ event' ∈ r'.extracted, event.eventId = event'.eventId →
          event.unanchored = event'.unanchored) := by
  obtain ⟨hrun, hdelivered, hsub⟩ := h.outcome hbodies hchain htotal
  obtain ⟨hrun', hdelivered', hsub'⟩ := h'.outcome hbodies hchain htotal
  have hsame := hdelivered.trans hdelivered'.symm
  refine ⟨hsame, fun hblind => ?_, ?_, fun hblocks hhash event hevent event' hevent' hid => ?_⟩
  · have hruntimes : r.runtime.unanchored = r'.runtime.unanchored := by
      rw [hrun, hrun', ← AppRuntime.processEvents_unanchored hblind,
        ← AppRuntime.processEvents_unanchored hblind, hsame]
    constructor
    · show r.runtime.unanchored.receipts = r'.runtime.unanchored.receipts
      rw [hruntimes]
    · show r.runtime.unanchored.snapshots app = r'.runtime.unanchored.snapshots app
      rw [hruntimes]
  · obtain ⟨-, new, hreceipts, hindices, -⟩ := AppRuntime.receipts_processEvents
      app display (recorded_registered apps) r.delivered
    rw [receipts_registered, List.nil_append, ← hrun] at hreceipts
    have hlog : (r.delivered.map AppEvent.orderedIndex).Sublist
        (List.range' 0 (placements (bodyDeploys env bodies) (finalBlocks chain)).length) := by
      have hforget : r.delivered.map AppEvent.orderedIndex =
          (r.delivered.map AppEvent.unanchored).map AppEvent.orderedIndex := by
        rw [List.map_map]
        rfl
      rw [hforget, hdelivered, ← orderedIndex_placedEvents]
      exact (emitted_sublist _ _).map _
    rw [hreceipts]
    exact (List.pairwise_lt_range' ..).sublist (hindices.trans hlog)
  · have hcount : (placements (bodyDeploys env bodies) (finalBlocks chain)).length ≤ 2 ^ 64 := by
      have hall := h.polls.eventCount_le hbodies
      have hlast := h.last
      unfold finalBlocks at hevent hsub ⊢
      cases hfinal : chain.getLast? with
      | none => simp [placements]
      | some output =>
          rw [hfinal] at hlast
          exact hall output (List.mem_of_getLast? hlast)
    have hnodup := nodup_eventId_placedEvents [] 0 hblocks hhash hcount
    exact List.inj_on_of_nodup_map hnodup (hsub (List.mem_map_of_mem hevent))
      (hsub' (List.mem_map_of_mem hevent')) hid

/-! ### Two nodes -/

/-- The first block of the sample output, with its own anchor. -/
def earlyOutput : OrderedFinalizedOutput := ⟨[⟨1, ⟨[1]⟩, []⟩], some ⟨1, ⟨[1]⟩, []⟩, 3⟩

/-- The event of the first block as the early output has it. -/
def earlyEvent : AppEvent := { sampleEvent 1 0 with finalizedAnchor := contentHashBytes 1 }

/-- An app that adds up the bytes of the anchors it sees. -/
def anchorApp : CordialApp ℕ :=
  { countingApp with
    apply := fun sum event =>
      ((countingApp.apply sum event).1, sum + (event.finalizedAnchor.map Fin.val).sum) }

section TwoNodes

variable (app : CordialApp ℕ)

/-- The node that polls only once. -/
def lateReader : Reader ℕ :=
  (Reader.start app [0]).feed app (fun _ => "") 2 [sampleEvent 1 0, sampleEvent 2 1]

/-- The node that also polls early, and starts over at its second poll. -/
def earlyReader : Reader ℕ :=
  ((Reader.start app [0]).feed app (fun _ => "") 1 [earlyEvent]).feed app
    (fun _ => "") 2 [sampleEvent 1 0, sampleEvent 2 1]

theorem readsHistory_lateReader : ReadsHistory sampleEnv app (fun _ => "")
    [sampleBody 1, sampleBody 2] [earlyOutput, sampleOutput] [0] [sampleOutput]
    (lateReader app) where
  subset := by decide
  last := rfl
  polls := @Polls.poll _ _ _ _ _ _ sampleOutput [] _ _ 0 0 [sampleBody 2, sampleBody 1]
    ⟨[sampleEvent 1 0, sampleEvent 2 1], []⟩ (Nat.zero_le _) (by decide +kernel)
    (by decide +kernel) (by decide +kernel) (.done _)

theorem readsHistory_earlyReader : ReadsHistory sampleEnv app (fun _ => "")
    [sampleBody 1, sampleBody 2] [earlyOutput, sampleOutput] [0] [earlyOutput, sampleOutput]
    (earlyReader app) where
  subset := by decide
  last := rfl
  polls := @Polls.poll _ _ _ _ _ _ earlyOutput [sampleOutput] _ _ 0 0 [sampleBody 1]
    ⟨[earlyEvent], []⟩ (Nat.zero_le _) (by decide +kernel) (by decide +kernel) (by decide +kernel)
    (@Polls.poll _ _ _ _ _ _ sampleOutput [] _ _ 0 0 [sampleBody 1, sampleBody 2]
      ⟨[sampleEvent 1 0, sampleEvent 2 1], []⟩ (Nat.zero_le _) (by decide +kernel)
      (by decide +kernel) (by decide +kernel) (.done _))

end TwoNodes

/-- **The event of a block carries the anchor of the output it was read from**, and an app
that reads it can end in another state. -/
theorem anchors_differ : ∃ r r' : Reader ℕ,
    ReadsHistory sampleEnv anchorApp (fun _ => "") [sampleBody 1, sampleBody 2]
      [earlyOutput, sampleOutput] [0] [sampleOutput] r ∧
    ReadsHistory sampleEnv anchorApp (fun _ => "") [sampleBody 1, sampleBody 2]
      [earlyOutput, sampleOutput] [0] [earlyOutput, sampleOutput] r' ∧
    r.delivered ≠ r'.delivered ∧ r.runtime.snapshots anchorApp ≠ r'.runtime.snapshots anchorApp :=
  ⟨lateReader anchorApp, earlyReader anchorApp, readsHistory_lateReader _,
    readsHistory_earlyReader _, by decide +kernel, by decide +kernel⟩

/-- The two nodes end alike all the same where the app only counts. -/
theorem app_state_of_history_twoNodes :
    (lateReader countingApp).runtime.receipts = (earlyReader countingApp).runtime.receipts ∧
      (lateReader countingApp).runtime.snapshots countingApp =
        (earlyReader countingApp).runtime.snapshots countingApp :=
  (app_state_of_history (by decide +kernel) (by decide +kernel) (fun _ _ _ => ⟨_, _, rfl⟩)
    (readsHistory_lateReader _) (readsHistory_earlyReader _)).2.1
      ⟨fun _ _ => rfl, fun _ _ => rfl⟩

end CordialMiners.App
