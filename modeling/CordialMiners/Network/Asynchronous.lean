/-
# Asynchronous networks

Parties with a state each, and a pool of messages that wait for their recipients.
A message is posted, delivered later or never, and the parties take local steps in
between.  Which part of the pool a step delivers, and in what order, is left open.

A run is labelled with what it does.  The events of a party can be read off the
labels (`events`), and so can the messages posted and the messages consumed.
`Run.state_eq`: the state of a party is what its events make of it.
`Run.addressed_perm`: no message is lost, made up or delivered twice.

`deliverAll` is the delivery of a batch to parties that are kept in a map.
-/

import CordialMiners.Collections.OrderedMap

namespace Asynchronous

variable {κ σ μ δ ε ρ : Type}

section Addressed

variable [DecidableEq κ] {k : κ} {msgs msgs' : List (κ × μ)}

/-- The messages of a list for one recipient. -/
def addressed (k : κ) (msgs : List (κ × μ)) : List μ :=
  msgs.filterMap fun msg => if msg.1 = k then some msg.2 else none

@[simp] theorem addressed_nil : addressed k ([] : List (κ × μ)) = [] := rfl

@[simp] theorem addressed_append :
    addressed k (msgs ++ msgs') = addressed k msgs ++ addressed k msgs' :=
  List.filterMap_append

theorem addressed_cons (msg : κ × μ) :
    addressed k (msg :: msgs) = (if msg.1 = k then [msg.2] else []) ++ addressed k msgs := by
  unfold addressed
  rw [List.filterMap_cons]
  by_cases h : msg.1 = k <;> simp [h]

theorem mem_addressed {a : μ} : a ∈ addressed k msgs ↔ (k, a) ∈ msgs := by
  unfold addressed
  rw [List.mem_filterMap]
  constructor
  · rintro ⟨⟨k', a'⟩, hmem, h⟩
    by_cases hk : k' = k
    · subst hk
      simp only [if_true, Option.some.injEq] at h
      exact h ▸ hmem
    · simp [hk] at h
  · exact fun hmem => ⟨_, hmem, by simp⟩

theorem addressed_perm (h : msgs.Perm msgs') : (addressed k msgs).Perm (addressed k msgs') :=
  h.filterMap _

end Addressed

/-! ### Runs -/

/-- The states of the parties and the messages on their way. -/
structure Network (κ σ μ : Type) where
  party : κ → Option σ
  pool : List (κ × μ)

/-- What one step of a network does. -/
inductive Label (κ μ δ : Type) where
  | post (msgs : List (κ × μ))
  | deliver (msgs : List (κ × μ))
  | tick (event : δ)

variable [DecidableEq κ] (step : σ → ε → σ) (receive : μ → ε) (act : δ → ε)

/-- One step: messages are posted, a part of the pool is delivered in some order,
or every party takes a local step. -/
inductive Step (net net' : Network κ σ μ) : Label κ μ δ → Prop
  | post {msgs : List (κ × μ)} (hparty : net'.party = net.party)
      (hpool : net'.pool.Perm (net.pool ++ msgs)) : Step net net' (.post msgs)
  | deliver {msgs : List (κ × μ)}
      (hparty : ∀ k, net'.party k =
        (net.party k).map fun s => ((addressed k msgs).map receive).foldl step s)
      (hpool : net.pool.Perm (msgs ++ net'.pool)) : Step net net' (.deliver msgs)
  | tick {event : δ} (hparty : ∀ k, net'.party k = (net.party k).map fun s => step s (act event))
      (hpool : net'.pool = net.pool) : Step net net' (.tick event)

/-- A run, with the labels of its steps. -/
inductive Run : Network κ σ μ → List (Label κ μ δ) → Network κ σ μ → Prop
  | nil (net : Network κ σ μ) : Run net [] net
  | snoc {net net' net'' : Network κ σ μ} {labels : List (Label κ μ δ)} {label : Label κ μ δ}
      (h : Run net labels net') (hstep : Step step receive act net' net'' label) :
      Run net (labels ++ [label]) net''

/-- What a label is for one party. -/
def Label.events (k : κ) : Label κ μ δ → List ε
  | .post _ => []
  | .deliver msgs => (addressed k msgs).map receive
  | .tick event => [act event]

/-- The events of one party. -/
def events (k : κ) (labels : List (Label κ μ δ)) : List ε := labels.flatMap (Label.events receive act k)

/-- The messages posted. -/
def posted (labels : List (Label κ μ δ)) : List (κ × μ) :=
  labels.flatMap fun label => match label with
    | .post msgs => msgs
    | _ => []

/-- The messages taken out of the pool. -/
def consumed (labels : List (Label κ μ δ)) : List (κ × μ) :=
  labels.flatMap fun label => match label with
    | .deliver msgs => msgs
    | _ => []

variable {step receive act} {net net' net'' : Network κ σ μ} {labels labels' : List (Label κ μ δ)}
  {label : Label κ μ δ} {k : κ}

@[simp] theorem events_append : events receive act k (labels ++ labels') =
    events receive act k labels ++ events receive act k labels' := List.flatMap_append

omit [DecidableEq κ] in
@[simp] theorem posted_append : posted (labels ++ labels') = posted labels ++ posted labels' :=
  List.flatMap_append

omit [DecidableEq κ] in
@[simp] theorem consumed_append : consumed (labels ++ labels') = consumed labels ++ consumed labels' :=
  List.flatMap_append

theorem Run.single (h : Step step receive act net net' label) : Run step receive act net [label] net' :=
  .snoc (.nil net) h

theorem Run.append (h : Run step receive act net labels net') (h' : Run step receive act net' labels' net'') :
    Run step receive act net (labels ++ labels') net'' := by
  induction h' with
  | nil => rwa [List.append_nil]
  | snoc _ hstep ih =>
      rw [← List.append_assoc]
      exact .snoc ih hstep

/-- **The state of a party is what its events make of it.** -/
theorem Run.state_eq (h : Run step receive act net labels net') (k : κ) :
    net'.party k = (net.party k).map fun s => (events receive act k labels).foldl step s := by
  induction h with
  | nil => simp [events]
  | @snoc net' net'' labels label _ hstep ih =>
      rw [events_append]
      simp only [List.foldl_append]
      cases hstep with
      | post hparty _ => simpa [hparty, events, Label.events] using ih
      | deliver hparty _ =>
          rw [hparty, ih, Option.map_map]
          simp [events, Label.events, Function.comp_def]
      | tick hparty _ =>
          rw [hparty, ih, Option.map_map]
          simp [events, Label.events, Function.comp_def]

/-- **No message is lost, made up or delivered twice.** -/
theorem Run.pool_perm (h : Run step receive act net labels net') :
    (net.pool ++ posted labels).Perm (consumed labels ++ net'.pool) := by
  induction h with
  | nil => simp [posted, consumed]
  | @snoc net' net'' labels label _ hstep ih =>
      rw [posted_append, consumed_append]
      cases hstep with
      | @post msgs _ hpool =>
          have hall : (net.pool ++ (posted labels ++ msgs)).Perm
              (consumed labels ++ (net'.pool ++ msgs)) := by
            rw [← List.append_assoc, ← List.append_assoc]
            exact ih.append_right msgs
          simpa [posted, consumed] using hall.trans (hpool.symm.append_left _)
      | @deliver msgs _ hpool =>
          have hall : (net.pool ++ posted labels).Perm (consumed labels ++ (msgs ++ net''.pool)) :=
            ih.trans (hpool.append_left _)
          simpa [posted, consumed] using hall
      | tick _ hpool => simpa [posted, consumed, hpool] using ih

/-- What one party has received and what waits for it are the messages for it. -/
theorem Run.addressed_perm (h : Run step receive act net labels net') (k : κ) :
    (addressed k net.pool ++ addressed k (posted labels)).Perm
      (addressed k (consumed labels) ++ addressed k net'.pool) := by
  rw [← addressed_append, ← addressed_append]
  exact Asynchronous.addressed_perm h.pool_perm

/-! ### Parties in a map -/

section Map

variable [LinearOrder κ] (recv : σ → μ → ρ × σ)

/-- Deliver one message, and add the answer of its recipient; a message to an
unknown recipient is dropped. -/
def deliver (state : List (κ × ρ) × OrderedMap κ σ) (msg : κ × μ) :
    List (κ × ρ) × OrderedMap κ σ :=
  match state.2.lookup msg.1 with
  | some s => (state.1 ++ [(msg.1, (recv s msg.2).1)], state.2.insert msg.1 (recv s msg.2).2)
  | none => state

/-- Deliver a batch of messages in order. -/
def deliverAll (parties : OrderedMap κ σ) (msgs : List (κ × μ)) :
    List (κ × ρ) × OrderedMap κ σ :=
  msgs.foldl (deliver recv) ([], parties)

variable {recv} {parties : OrderedMap κ σ} {msgs : List (κ × μ)} {k : κ}

theorem lookup_foldl_deliver (state : List (κ × ρ) × OrderedMap κ σ) :
    (msgs.foldl (deliver recv) state).2.lookup k =
      (state.2.lookup k).map fun s => (addressed k msgs).foldl (fun s a => (recv s a).2) s := by
  induction msgs generalizing state with
  | nil => simp
  | cons msg msgs ih =>
      rw [List.foldl_cons, ih, addressed_cons]
      unfold deliver
      cases hs : state.2.lookup msg.1 with
      | none =>
          by_cases hk : msg.1 = k
          · subst hk
            simp [hs]
          · simp [hk]
      | some s =>
          simp only [OrderedMap.lookup_insert]
          by_cases hk : msg.1 = k
          · subst hk
            simp [hs]
          · simp [hk, Ne.symm hk]

/-- **A party is changed by the messages for it only, in their order.** -/
theorem lookup_deliverAll : (deliverAll recv parties msgs).2.lookup k =
    (parties.lookup k).map fun s => (addressed k msgs).foldl (fun s a => (recv s a).2) s :=
  lookup_foldl_deliver _

omit [DecidableEq κ] in
theorem length_foldl_deliver_le (state : List (κ × ρ) × OrderedMap κ σ) :
    (msgs.foldl (deliver recv) state).1.length ≤ state.1.length + msgs.length := by
  induction msgs generalizing state with
  | nil => simp
  | cons msg msgs ih =>
      rw [List.foldl_cons, List.length_cons]
      refine (ih _).trans ?_
      unfold deliver
      cases state.2.lookup msg.1 with
      | none => simp only; omega
      | some s => simp only [List.length_append, List.length_singleton]; omega

omit [DecidableEq κ] in
/-- There are at most as many answers as messages. -/
theorem length_deliverAll_le : (deliverAll recv parties msgs).1.length ≤ msgs.length := by
  unfold deliverAll
  refine (length_foldl_deliver_le _).trans ?_
  simp

end Map

end Asynchronous
