/-
# The application runtime

`cordial-app-runtime`: apps are state machines over finalized events, and the
runtime hands them the events one by one.

An event whose identity has been decided before is refused, one for an unknown app
and one that its app fails to apply leave no record.  For every other event the
runtime keeps a receipt, in the order of decision, and moves its cursor.

The trait objects are values of one type `A`, the trait is the structure
`CordialApp A`.  What `&mut self` leaves behind is returned, also next to an error.
The text that `Display` gives an error is a parameter.
-/

import Mathlib.Data.String.Basic
import CordialMiners.Collections.OrderedMap
import CordialMiners.Collections.Redelivery
import CordialMiners.Core.Types

namespace CordialMiners.App

/-- Stable application identifier. -/
structure AppId where
  name : String
deriving DecidableEq, Repr

instance : LinearOrder AppId :=
  LinearOrder.lift' AppId.name fun a b h => by cases a; cases b; exact congrArg _ h

/-- Stable application event identifier. -/
structure AppEventId where
  name : String
deriving DecidableEq, Repr

instance : LinearOrder AppEventId :=
  LinearOrder.lift' AppEventId.name fun a b h => by cases a; cases b; exact congrArg _ h

/-- Finalized event envelope delivered to an application. -/
structure AppEvent where
  eventId : AppEventId
  appId : AppId
  eventType : String
  payload : List Byte
  submitter : List Byte
  orderedIndex : ℕ
  blockHash : List Byte
  deploySignature : Option (List Byte)
  finalizedAnchor : List Byte
deriving DecidableEq, Repr

/-- Runtime cursor for replay. -/
structure AppCursor where
  finalizedAnchor : List Byte
  orderedIndex : ℕ
deriving DecidableEq, Repr

/-- Opaque app-state snapshot. -/
structure AppSnapshot where
  appId : AppId
  cursor : Option AppCursor
  stateRoot : Option (List Byte)
  payload : List Byte
deriving DecidableEq, Repr

/-- Why an app refuses an event. -/
inductive AppError where
  | unknownApp (appId : AppId)
  | duplicateEvent (eventId : AppEventId)
  | validationRejected (message : String)
  | applyFailed (message : String)
deriving DecidableEq, Repr

/-- Application-level processing status. -/
inductive AppReceiptStatus where
  | applied
  | rejected
deriving DecidableEq, Repr

/-- Result of processing an event. -/
structure AppReceipt where
  appId : AppId
  eventId : AppEventId
  orderedIndex : ℕ
  status : AppReceiptStatus
  stateRoot : Option (List Byte)
  message : Option String
deriving DecidableEq, Repr

/-- The trait `CordialApp`, for the values of a type. -/
structure CordialApp (A : Type) where
  appId : A → AppId
  validate : A → AppEvent → Except AppError Unit
  apply : A → AppEvent → Except AppError AppReceipt × A
  snapshot : A → AppSnapshot

/-- In-memory application runtime. -/
structure AppRuntime (A : Type) where
  apps : OrderedMap AppId A
  processedEventIds : Finset AppEventId
  receiptMap : OrderedMap AppEventId AppReceipt
  receiptOrder : List AppEventId
  cursor : Option AppCursor

/-- `validation_rejection_message`. -/
def validationRejectionMessage (display : AppError → String) : AppError → String
  | .validationRejected message => message
  | error => display error

namespace AppRuntime

variable {A : Type} (app : CordialApp A) (display : AppError → String)

/-- `AppRuntime::new`. -/
def new : AppRuntime A := ⟨.empty, ∅, .empty, [], none⟩

/-- `register_app`. -/
def registerApp (rt : AppRuntime A) (a : A) : AppRuntime A :=
  { rt with apps := rt.apps.insert (app.appId a) a }

/-- `record_processed_event`. -/
def recordProcessedEvent (rt : AppRuntime A) (event : AppEvent) (receipt : AppReceipt) :
    AppRuntime A where
  apps := rt.apps
  processedEventIds := insert event.eventId rt.processedEventIds
  receiptMap := rt.receiptMap.insert event.eventId receipt
  receiptOrder := rt.receiptOrder ++ [event.eventId]
  cursor := some ⟨event.finalizedAnchor, event.orderedIndex⟩

/-- The receipt of an event that its app has applied. -/
def appliedReceipt (event : AppEvent) (receipt : AppReceipt) : AppReceipt :=
  ⟨event.appId, event.eventId, event.orderedIndex, .applied, receipt.stateRoot, receipt.message⟩

/-- The receipt of an event that its app has rejected. -/
def rejectedReceipt (event : AppEvent) (a : A) (error : AppError) : AppReceipt :=
  ⟨event.appId, event.eventId, event.orderedIndex, .rejected, (app.snapshot a).stateRoot,
    some (validationRejectionMessage display error)⟩

/-- `process_event`. -/
def processEvent (rt : AppRuntime A) (event : AppEvent) : Except AppError AppReceipt × AppRuntime A :=
  if event.eventId ∈ rt.processedEventIds then (.error (.duplicateEvent event.eventId), rt)
  else
    match rt.apps.lookup event.appId with
    | none => (.error (.unknownApp event.appId), rt)
    | some a =>
        match app.validate a event with
        | .ok () =>
            match app.apply a event with
            | (.error error, a') =>
                (.error error, { rt with apps := rt.apps.insert event.appId a' })
            | (.ok receipt, a') =>
                (.ok (appliedReceipt event receipt),
                  recordProcessedEvent { rt with apps := rt.apps.insert event.appId a' } event
                    (appliedReceipt event receipt))
        | .error error =>
            (.ok (rejectedReceipt app display event a error),
              rt.recordProcessedEvent event (rejectedReceipt app display event a error))

/-- `process_events`. -/
def processEvents (rt : AppRuntime A) : List AppEvent →
    List (Except AppError AppReceipt) × AppRuntime A
  | [] => ([], rt)
  | event :: events =>
      let (result, rt') := rt.processEvent app display event
      let (results, rt'') := rt'.processEvents events
      (result :: results, rt'')

/-- `receipts`. -/
def receipts (rt : AppRuntime A) : List AppReceipt := rt.receiptOrder.filterMap rt.receiptMap.lookup

/-- `snapshots`. -/
def snapshots (rt : AppRuntime A) : List AppSnapshot := rt.apps.values.map app.snapshot

/-! ### What one event does -/

/-- The four fates of an event: it was decided before, its app is not registered, its
app failed to apply it, or its app has decided. -/
inductive Fate (app : CordialApp A) (rt : AppRuntime A) (event : AppEvent) : AppRuntime A → Prop
  | duplicate (h : event.eventId ∈ rt.processedEventIds) : Fate app rt event rt
  | unknown (hnew : event.eventId ∉ rt.processedEventIds)
      (happ : rt.apps.lookup event.appId = none) : Fate app rt event rt
  | failed {a a' : A} {error : AppError} (hnew : event.eventId ∉ rt.processedEventIds)
      (happ : rt.apps.lookup event.appId = some a) (hvalid : app.validate a event = .ok ())
      (hfail : app.apply a event = (.error error, a')) :
      Fate app rt event { rt with apps := rt.apps.insert event.appId a' }
  | decided {a : A} {apps : OrderedMap AppId A} {receipt : AppReceipt}
      (hnew : event.eventId ∉ rt.processedEventIds)
      (happ : rt.apps.lookup event.appId = some a)
      (happs : apps = rt.apps ∨ ∃ a', apps = rt.apps.insert event.appId a')
      (hid : receipt.eventId = event.eventId)
      (hindex : receipt.orderedIndex = event.orderedIndex) :
      Fate app rt event (recordProcessedEvent { rt with apps := apps } event receipt)

variable {app display} {rt : AppRuntime A} {event : AppEvent} {events : List AppEvent}

theorem fate_processEvent (app : CordialApp A) (display : AppError → String) (rt : AppRuntime A)
    (event : AppEvent) : Fate app rt event (rt.processEvent app display event).2 := by
  unfold processEvent
  split_ifs with hdup
  · exact .duplicate hdup
  · cases happ : rt.apps.lookup event.appId with
    | none => exact .unknown hdup happ
    | some a =>
        dsimp only
        cases hvalid : app.validate a event with
        | error error => exact .decided hdup happ (Or.inl rfl) rfl rfl
        | ok u =>
            cases u
            dsimp only
            cases happly : app.apply a event with
            | mk result a' =>
                cases result with
                | error error => exact .failed hdup happ hvalid happly
                | ok receipt => exact .decided hdup happ (Or.inr ⟨a', rfl⟩) rfl rfl

/-- The registered names stay the same. -/
theorem Fate.lookup_eq_none_iff {rt' : AppRuntime A} (h : Fate app rt event rt') (id : AppId) :
    rt'.apps.lookup id = none ↔ rt.apps.lookup id = none := by
  have hinsert : ∀ {a : A}, rt.apps.lookup event.appId = some a → ∀ a',
      (rt.apps.insert event.appId a').lookup id = none ↔ rt.apps.lookup id = none := by
    intro a happ a'
    rw [OrderedMap.lookup_insert]
    split_ifs with hid
    · simp [hid, happ]
    · rfl
  cases h with
  | duplicate | unknown => rfl
  | failed _ happ _ _ => exact hinsert happ _
  | decided _ happ happs _ _ =>
      rcases happs with rfl | ⟨a', rfl⟩
      · rfl
      · exact hinsert happ a'

/-! ### Receipts -/

/-- The order of receipts names each decided event once, and each has its receipt. -/
structure Recorded (rt : AppRuntime A) : Prop where
  nodup : rt.receiptOrder.Nodup
  decided : ∀ id, id ∈ rt.receiptOrder ↔ id ∈ rt.processedEventIds
  receipt : ∀ id ∈ rt.receiptOrder, ∃ r, rt.receiptMap.lookup id = some r ∧ r.eventId = id

theorem recorded_new : Recorded (new : AppRuntime A) where
  nodup := List.nodup_nil
  decided _ := by simp [new]
  receipt _ h := absurd h List.not_mem_nil

/-- The new receipts are those of one event, or none. -/
theorem Fate.receipts {rt' : AppRuntime A} (h : Fate app rt event rt') (hrec : Recorded rt) :
    Recorded rt' ∧ ∃ new : List AppReceipt, rt'.receipts = rt.receipts ++ new ∧
      (new.map AppReceipt.orderedIndex).Sublist [event.orderedIndex] ∧
      ∀ r ∈ new, r.eventId = event.eventId := by
  cases h with
  | duplicate | unknown => exact ⟨hrec, [], by simp, by simp, by simp⟩
  | failed => exact ⟨⟨hrec.nodup, hrec.decided, hrec.receipt⟩, [], by simp [AppRuntime.receipts],
      by simp, by simp⟩
  | @decided a apps receipt hnew happ happs hid hindex =>
      have hfresh : event.eventId ∉ rt.receiptOrder := mt (hrec.decided _).1 hnew
      have hold : ∀ id ∈ rt.receiptOrder,
          (rt.receiptMap.insert event.eventId receipt).lookup id = rt.receiptMap.lookup id := by
        intro id hmem
        rw [OrderedMap.lookup_insert, if_neg]
        rintro rfl
        exact hfresh hmem
      refine ⟨⟨?_, fun id => ?_, fun id hmem => ?_⟩, [receipt], ?_, by simp [hindex], by simp [hid]⟩
      · exact List.nodup_append'.2 ⟨hrec.nodup, List.nodup_singleton _,
          List.disjoint_singleton.2 hfresh⟩
      · simp only [recordProcessedEvent, List.mem_append, List.mem_singleton, Finset.mem_insert,
          hrec.decided]
        exact or_comm
      · rcases List.mem_append.1 hmem with hmem | hmem
        · rw [recordProcessedEvent, hold id hmem]
          exact hrec.receipt id hmem
        · rw [List.mem_singleton] at hmem
          subst hmem
          exact ⟨receipt, by simp [recordProcessedEvent], hid⟩
      · unfold AppRuntime.receipts recordProcessedEvent
        rw [List.filterMap_append, List.filterMap_congr hold]
        simp

/-- **The receipts of a run** are in the order of the events, and each is that of one
of them. -/
theorem receipts_processEvents (app : CordialApp A) (display : AppError → String)
    (hrec : Recorded rt) (events : List AppEvent) :
    Recorded (rt.processEvents app display events).2 ∧ ∃ new : List AppReceipt,
      (rt.processEvents app display events).2.receipts = rt.receipts ++ new ∧
      (new.map AppReceipt.orderedIndex).Sublist (events.map AppEvent.orderedIndex) ∧
      ∀ r ∈ new, ∃ e ∈ events, r.eventId = e.eventId := by
  induction events generalizing rt with
  | nil => exact ⟨hrec, [], by simp [processEvents], by simp, by simp⟩
  | cons event events ih =>
      obtain ⟨hrec', first, hfirst, hindex, hid⟩ :=
        (fate_processEvent app display rt event).receipts hrec
      obtain ⟨hrec'', rest, hrest, hindices, hids⟩ := ih hrec'
      refine ⟨hrec'', first ++ rest, ?_, ?_, fun r hr => ?_⟩
      · rw [← List.append_assoc, ← hfirst]
        exact hrest
      · rw [List.map_append, List.map_cons]
        exact hindex.append hindices
      · rcases List.mem_append.1 hr with hr | hr
        · exact ⟨event, List.mem_cons_self, hid r hr⟩
        · obtain ⟨e, he, heq⟩ := hids r hr
          exact ⟨e, List.mem_cons_of_mem _ he, heq⟩

/-- No two receipts are of one event. -/
theorem Recorded.receipts_nodup (h : Recorded rt) :
    (rt.receipts.map AppReceipt.eventId).Nodup := by
  have hids : rt.receipts.map AppReceipt.eventId = rt.receiptOrder := by
    unfold AppRuntime.receipts
    rw [List.map_filterMap]
    have hkeep : ∀ id ∈ rt.receiptOrder,
        (rt.receiptMap.lookup id).map AppReceipt.eventId = some id := by
      intro id hmem
      obtain ⟨r, hr, hrid⟩ := h.receipt id hmem
      rw [hr, Option.map_some, hrid]
    rw [List.filterMap_congr hkeep, List.filterMap_some]
  rw [hids]
  exact h.nodup

end AppRuntime

end CordialMiners.App
