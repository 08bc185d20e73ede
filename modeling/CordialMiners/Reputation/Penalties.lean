/-
# Slashing and decay

`penalties.rs` and `apply_reputation_penalties` of `transition.rs`.

The weight of an equivocation is the previous reputation of every offender whose
proof is for the same round.  Where it exceeds a part of the total weight, the
offenders of that round keep nothing; otherwise each loses the base part of its
previous reputation.  Either way the key is excluded and what is left moves to
its retained balance.

The events of one transition name each offender once, so an entry changes at most
once (`applyReputationPenalties_penalized`).
-/

import CordialMiners.Reputation.Commitments

namespace CordialMiners.Reputation

open Codec (bind_eq_ok check_eq_ok)

/-! ### Amounts -/

/-- `compute_slash_penalty_wide`. -/
def computeSlashPenaltyWide (equivocatingWeight totalWeight : ℕ) (config : PorConfig) :
    Except PorError U64 := do
  config.validate
  if totalWeight = 0 ∨ equivocatingWeight > totalWeight then
    .error (.invalidConfiguration
      "slash weights must satisfy equivocating weight <= total weight and total weight > 0")
  else
    let equivocating ← okOr .slashOverflow (checkedMul128 equivocatingWeight config.scale)
    let threshold ← okOr .slashOverflow (checkedMul128 totalWeight config.correlationThreshold)
    .ok (if equivocating ≤ threshold then config.baseSlashPenalty else config.scale)

/-- What survives of a weight when a part of the scale is taken. -/
def surviving (weight part : U64) (config : PorConfig) (message : String) (overflow : PorError) :
    Except PorError U64 := do
  config.validate
  if part > config.scale then .error (.invalidConfiguration message)
  else
    let value ← okOr overflow (checkedMul128 weight (config.scale.val - part.val))
    okOr overflow (tryU64 (value / config.scale.val))

/-- `apply_slash_to_reputation`. -/
def applySlashToReputation (weight penaltyRatio : U64) (config : PorConfig) :
    Except PorError U64 :=
  surviving weight penaltyRatio config "slash penalty must not exceed scale" .slashOverflow

/-- `compute_inactivity_decay`. -/
def computeInactivityDecay (weight gamma : U64) (config : PorConfig) : Except PorError U64 :=
  surviving weight gamma config "inactivity gamma must not exceed scale" .inactivityDecayOverflow

/-! ### Events -/

/-- `prior_entry`: the previous entry of an offender that is still active. -/
def priorEntry (previous : ReputationVector) (offender : NodeId) :
    Except PorError ReputationEntry :=
  match entryOf previous.values offender with
  | none => .error (.invalidPenaltyEvents "unknown penalty offender")
  | some entry =>
      if entry.isExcluded then
        .error (.invalidPenaltyEvents "cannot penalize an already ejected key")
      else .ok entry

/-- The offenders named so far and the weight of each proof round. -/
structure PenaltyScan where
  seen : List NodeId
  weights : ℕ → ℕ

variable (hasher : List Byte → ContentHash)

/-- One step of the loop that groups the equivocations. -/
def scanEquivocation (previous : ReputationVector) (round : U64) (scan : PenaltyScan)
    (event : EquivocationPenalty) : Except PorError PenaltyScan := do
  event.validateAuthorization hasher round
  if event.offender ∈ scan.seen ∨ event.evidence = [] then
    .error (.invalidPenaltyEvents "duplicate offender or empty equivocation evidence")
  else
    let proofRound ← event.proofRound
    let prior ← priorEntry previous event.offender
    let weight ← okOr .slashOverflow (checkedAdd128 (scan.weights proofRound) prior.reputation.val)
    .ok ⟨event.offender :: scan.seen, Function.update scan.weights proofRound weight⟩

/-- One step of the loop that checks the missed rounds. -/
def scanInactivity (previous : ReputationVector) (ratings : List RatingRecord)
    (seen : List NodeId) (event : InactivityPenalty) : Except PorError (List NodeId) :=
  if event.offender ∈ seen ∨ event.missedRounds ≠ 1 then
    .error (.invalidPenaltyEvents "inactivity requires one missed round and a unique offender")
  else do
    let _prior ← priorEntry previous event.offender
    if ratings.any fun rating =>
        rating.rater = event.offender || rating.recipient = event.offender then
      .error (.invalidPenaltyEvents "inactive offender participates in the rating batch")
    else .ok (event.offender :: seen)

/-- The weight of the keys that are not excluded. -/
def totalActiveWeight (previous : ReputationVector) : Except PorError ℕ :=
  (previous.values.filter fun entry => !entry.isExcluded).foldlM
    (fun sum entry => okOr .slashOverflow (checkedAdd128 sum entry.reputation.val)) 0

/-- Exclude a key and keep what the slash leaves. -/
def ReputationEntry.slashed (retained : U64) (entry : ReputationEntry) : ReputationEntry :=
  { entry with retainedReputation := retained, reputation := 0, isExcluded := true }

/-- One step of the loop that slashes. -/
def slashEntry (previous : ReputationVector) (weights : ℕ → ℕ) (total : ℕ) (config : PorConfig)
    (entries : List ReputationEntry) (event : EquivocationPenalty) :
    Except PorError (List ReputationEntry) := do
  let proofRound ← event.proofRound
  let penalty ← computeSlashPenaltyWide (weights proofRound) total config
  if entryOf entries event.offender = none then .error .missingReputationBlockEntry
  else
    let prior ← priorEntry previous event.offender
    let retained ← applySlashToReputation prior.reputation penalty config
    .ok (Keyed.modify ReputationEntry.nodeId entries event.offender (.slashed retained))

/-- One step of the loop that decays. -/
def decayEntry (previous : ReputationVector) (config : PorConfig) (entries : List ReputationEntry)
    (event : InactivityPenalty) : Except PorError (List ReputationEntry) :=
  if entryOf entries event.offender = none then .error .missingReputationBlockEntry
  else do
    let prior ← priorEntry previous event.offender
    let reputation ← computeInactivityDecay prior.reputation config.inactivityDecayGamma config
    .ok (Keyed.modify ReputationEntry.nodeId entries event.offender
      fun entry => { entry with reputation := reputation })

/-- Slash every equivocation; without one the total is not summed. -/
def slashEntries (previous : ReputationVector) (weights : ℕ → ℕ) (config : PorConfig)
    (entries : List ReputationEntry) (events : List EquivocationPenalty) :
    Except PorError (List ReputationEntry) :=
  if events = [] then .ok entries
  else do
    let total ← totalActiveWeight previous
    events.foldlM (slashEntry previous weights total config) entries

/-- `apply_reputation_penalties`. -/
def applyReputationPenalties (next : ReputationList) (previous : ReputationVector)
    (ratings : List RatingRecord) (events : ReputationPenaltyEvents) (config : PorConfig) :
    Except PorError ReputationList := do
  config.validate
  if events.round ≠ next.round ∨ checkedAdd64 previous.round 1 ≠ some events.round.val then
    .error (.invalidPenaltyEvents "event round must match the next snapshot")
  else
    let scan ← events.equivocations.foldlM (scanEquivocation hasher previous events.round)
      ⟨[], fun _ => 0⟩
    let _seen ← events.inactivity.foldlM (scanInactivity previous ratings) scan.seen
    let entries ← slashEntries previous scan.weights config next.entries events.equivocations
    let entries ← events.inactivity.foldlM (decayEntry previous config) entries
    .ok { next with entries := entries }

/-! ### What the penalties do -/

variable {hasher} {previous : ReputationVector} {config : PorConfig}

theorem priorEntry_eq_ok {offender : NodeId} {prior : ReputationEntry} :
    priorEntry previous offender = .ok prior ↔
      entryOf previous.values offender = some prior ∧ prior.isExcluded = false := by
  unfold priorEntry
  split
  · next h => simp [h]
  · next entry h =>
      rw [h, Option.some.injEq]
      split_ifs with hexcluded
      · refine iff_of_false (by simp) ?_
        rintro ⟨rfl, hactive⟩
        simp [hexcluded] at hactive
      · rw [Except.ok.injEq]
        refine ⟨fun heq => ⟨heq, ?_⟩, And.left⟩
        rw [← heq]
        simpa using hexcluded

/-- The proof round an intact event counts for. -/
def EquivocationPenalty.CountsFor (event : EquivocationPenalty) (round : ℕ) : Prop :=
  event.authorization.map EquivocationAuthorization.proofRound = some round

instance (event : EquivocationPenalty) (round : ℕ) : Decidable (event.CountsFor round) :=
  inferInstanceAs (Decidable (_ = _))

theorem proofRound_eq_ok {event : EquivocationPenalty} {round : ℕ} :
    event.proofRound = .ok round ↔ event.CountsFor round := okOr_eq_ok

/-- The previous reputation of an offender, zero if there is none. -/
def priorReputation (previous : ReputationVector) (offender : NodeId) : ℕ :=
  ((entryOf previous.values offender).map fun entry => entry.reputation.val).getD 0

/-- The previous reputation of all offenders proven in a round. -/
def roundWeight (previous : ReputationVector) (events : List EquivocationPenalty) (round : ℕ) :
    ℕ :=
  ((events.filter fun event => event.CountsFor round).map
    fun event => priorReputation previous event.offender).sum

theorem roundWeight_cons {event : EquivocationPenalty} {events : List EquivocationPenalty}
    {round : ℕ} : roundWeight previous (event :: events) round =
      (if event.CountsFor round then priorReputation previous event.offender else 0) +
        roundWeight previous events round := by
  unfold roundWeight
  rw [List.filter_cons]
  by_cases h : event.CountsFor round <;> simp [h]

/-- What the grouping loop requires of an event. -/
structure EquivocationPenalty.Accepted (hasher : List Byte → ContentHash)
    (previous : ReputationVector) (round : U64) (event : EquivocationPenalty) : Prop where
  authorized : event.validateAuthorization hasher round = .ok ()
  evidence_ne : event.evidence ≠ []
  active : ∃ prior, priorEntry previous event.offender = .ok prior

/-- **The grouping loop sums the weight of each proof round**, names every offender
once and lets only intact events of active offenders pass. -/
theorem scanEquivocation_fold {round : U64} {start scan : PenaltyScan}
    {events : List EquivocationPenalty} (hstart : start.seen.Nodup)
    (h : events.foldlM (scanEquivocation hasher previous round) start = .ok scan) :
    scan.seen = (events.map EquivocationPenalty.offender).reverse ++ start.seen ∧
      scan.seen.Nodup ∧
      (∀ r, scan.weights r = start.weights r + roundWeight previous events r) ∧
      ∀ event ∈ events, event.Accepted hasher previous round := by
  induction events generalizing start with
  | nil =>
      obtain rfl := Except.ok.inj h
      exact ⟨rfl, hstart, by simp [roundWeight], by simp⟩
  | cons event events ih =>
      obtain ⟨mid, hmid, hrest⟩ := bind_eq_ok.1 h
      obtain ⟨hauthorized, hmid⟩ := check_eq_ok.1 hmid
      by_cases hbad : event.offender ∈ start.seen ∨ event.evidence = []
      · rw [if_pos hbad] at hmid
        exact absurd hmid (by simp)
      rw [if_neg hbad] at hmid
      obtain ⟨hfresh, hevidence⟩ := not_or.1 hbad
      obtain ⟨proofRound, hproof, hmid⟩ := bind_eq_ok.1 hmid
      obtain ⟨prior, hprior, hmid⟩ := bind_eq_ok.1 hmid
      obtain ⟨weight, hweight, hmid⟩ := bind_eq_ok.1 hmid
      obtain rfl := Except.ok.inj hmid
      obtain ⟨hseen, hnodup, hweights, haccepted⟩ :=
        ih (List.nodup_cons.2 ⟨hfresh, hstart⟩) hrest
      refine ⟨by simp [hseen], hnodup, fun r => ?_,
        List.forall_mem_cons.2 ⟨⟨hauthorized, hevidence, prior, hprior⟩, haccepted⟩⟩
      have hsum : weight = start.weights proofRound + prior.reputation.val := by
        have := okOr_eq_ok.1 hweight
        unfold checkedAdd128 at this
        split_ifs at this
        exact (Option.some.inj this).symm
      have hreputation : priorReputation previous event.offender = prior.reputation.val := by
        unfold priorReputation
        rw [(priorEntry_eq_ok.1 hprior).1]
        rfl
      have hcounts := proofRound_eq_ok.1 hproof
      rw [hweights, roundWeight_cons, hreputation]
      dsimp only
      rw [Function.update_apply]
      by_cases hr : r = proofRound
      · subst hr
        rw [if_pos rfl, if_pos hcounts, hsum, Nat.add_assoc]
      · have hother : ¬event.CountsFor r := by
          intro hcounts'
          exact hr (Option.some.inj (hcounts'.symm.trans hcounts))
        rw [if_neg hr, if_neg hother, Nat.zero_add]

/-- No offender is seen twice, and each has an entry. -/
theorem scanInactivity_fold {ratings : List RatingRecord} {start seen : List NodeId}
    {events : List InactivityPenalty} (hstart : start.Nodup)
    (h : events.foldlM (scanInactivity previous ratings) start = .ok seen) :
    seen = (events.map InactivityPenalty.offender).reverse ++ start ∧ seen.Nodup ∧
      ∀ event ∈ events, ∃ prior, priorEntry previous event.offender = .ok prior := by
  induction events generalizing start with
  | nil =>
      obtain rfl := Except.ok.inj h
      exact ⟨rfl, hstart, by simp⟩
  | cons event events ih =>
      obtain ⟨mid, hmid, hrest⟩ := bind_eq_ok.1 h
      unfold scanInactivity at hmid
      by_cases hbad : event.offender ∈ start ∨ event.missedRounds ≠ 1
      · rw [if_pos hbad] at hmid
        exact absurd hmid (by simp)
      rw [if_neg hbad] at hmid
      obtain ⟨prior, hprior, hmid⟩ := bind_eq_ok.1 hmid
      split_ifs at hmid
      obtain rfl := Except.ok.inj hmid
      obtain ⟨hseen, hnodup, hactive⟩ := ih (List.nodup_cons.2 ⟨(not_or.1 hbad).1, hstart⟩) hrest
      exact ⟨by simp [hseen], hnodup, List.forall_mem_cons.2 ⟨⟨prior, hprior⟩, hactive⟩⟩

/-- What a slash leaves of the offender's previous reputation. -/
def retainedAfter (previous : ReputationVector) (weights : ℕ → ℕ) (total : ℕ)
    (config : PorConfig) (event : EquivocationPenalty) : Except PorError U64 := do
  let proofRound ← event.proofRound
  let penalty ← computeSlashPenaltyWide (weights proofRound) total config
  let prior ← priorEntry previous event.offender
  applySlashToReputation prior.reputation penalty config

/-- What a decay leaves of it. -/
def decayedAfter (previous : ReputationVector) (config : PorConfig) (event : InactivityPenalty) :
    Except PorError U64 := do
  let prior ← priorEntry previous event.offender
  computeInactivityDecay prior.reputation config.inactivityDecayGamma config

/-- Change the reputation only. -/
def ReputationEntry.decayed (reputation : U64) (entry : ReputationEntry) : ReputationEntry :=
  { entry with reputation := reputation }

/-- A slash changes the entry of its offender. -/
theorem slashEntry_changes {weights : ℕ → ℕ} {total : ℕ} :
    Keyed.Changes ReputationEntry.nodeId (slashEntry previous weights total config)
      EquivocationPenalty.offender (retainedAfter previous weights total config)
      ReputationEntry.slashed := by
  intro entries event out h
  obtain ⟨proofRound, hproof, h⟩ := bind_eq_ok.1 h
  obtain ⟨penalty, hpenalty, h⟩ := bind_eq_ok.1 h
  by_cases hmissing : entryOf entries event.offender = none
  · rw [if_pos hmissing] at h
    exact absurd h (by simp)
  rw [if_neg hmissing] at h
  obtain ⟨prior, hprior, h⟩ := bind_eq_ok.1 h
  obtain ⟨retained, hretained, h⟩ := bind_eq_ok.1 h
  refine ⟨hmissing, retained, ?_, (Except.ok.inj h).symm⟩
  exact bind_eq_ok.2 ⟨proofRound, hproof, bind_eq_ok.2
    ⟨penalty, hpenalty, bind_eq_ok.2 ⟨prior, hprior, hretained⟩⟩⟩

theorem decayEntry_changes :
    Keyed.Changes ReputationEntry.nodeId (decayEntry previous config) InactivityPenalty.offender
      (decayedAfter previous config) ReputationEntry.decayed := by
  intro entries event out h
  unfold decayEntry at h
  by_cases hmissing : entryOf entries event.offender = none
  · rw [if_pos hmissing] at h
    exact absurd h (by simp)
  rw [if_neg hmissing] at h
  obtain ⟨prior, hprior, h⟩ := bind_eq_ok.1 h
  obtain ⟨reputation, hreputation, h⟩ := bind_eq_ok.1 h
  exact ⟨hmissing, reputation, bind_eq_ok.2 ⟨prior, hprior, hreputation⟩,
    (Except.ok.inj h).symm⟩

/-- The offenders of a set of events. -/
def ReputationPenaltyEvents.offenders (events : ReputationPenaltyEvents) : List NodeId :=
  events.equivocations.map EquivocationPenalty.offender ++
    events.inactivity.map InactivityPenalty.offender

/-- The list after the penalties, against the list before them. -/
structure Penalized (hasher : List Byte → ContentHash) (next : ReputationList)
    (previous : ReputationVector) (events : ReputationPenaltyEvents) (config : PorConfig)
    (out : ReputationList) : Prop where
  config_valid : config.Valid
  event_round : events.round = next.round
  round : out.round = next.round
  nodes : out.entries.map ReputationEntry.nodeId = next.entries.map ReputationEntry.nodeId
  nodup : events.offenders.Nodup
  accepted : ∀ event ∈ events.equivocations, event.Accepted hasher previous events.round
  active : ∀ event ∈ events.inactivity, ∃ prior, priorEntry previous event.offender = .ok prior
  slashed : ∀ event ∈ events.equivocations, ∃ total entry retained,
    totalActiveWeight previous = .ok total ∧ entryOf next.entries event.offender = some entry ∧
      retainedAfter previous (roundWeight previous events.equivocations) total config event =
        .ok retained ∧ entryOf out.entries event.offender = some (entry.slashed retained)
  decayed : ∀ event ∈ events.inactivity, ∃ entry reputation,
    entryOf next.entries event.offender = some entry ∧
      decayedAfter previous config event = .ok reputation ∧
      entryOf out.entries event.offender = some (entry.decayed reputation)
  frame : ∀ id ∉ events.offenders, entryOf out.entries id = entryOf next.entries id

/-- **Every offender's entry changes once and no other entry changes.** -/
theorem applyReputationPenalties_penalized {next out : ReputationList} {ratings : List RatingRecord}
    {events : ReputationPenaltyEvents}
    (h : applyReputationPenalties hasher next previous ratings events config = .ok out) :
    Penalized hasher next previous events config out := by
  obtain ⟨hvalid, h⟩ := check_eq_ok.1 h
  by_cases hround : events.round ≠ next.round ∨
      checkedAdd64 previous.round 1 ≠ some events.round.val
  · rw [if_pos hround] at h
    exact absurd h (by simp)
  rw [if_neg hround] at h
  obtain ⟨scan, hscan, h⟩ := bind_eq_ok.1 h
  obtain ⟨seen, hseen, h⟩ := bind_eq_ok.1 h
  obtain ⟨slashed, hslashed, h⟩ := bind_eq_ok.1 h
  obtain ⟨decayed, hdecayed, h⟩ := bind_eq_ok.1 h
  obtain rfl := Except.ok.inj h
  obtain ⟨hscanned, hnodup, hweights, haccepted⟩ := scanEquivocation_fold List.nodup_nil hscan
  obtain ⟨rfl, hseenNodup, hactive⟩ := scanInactivity_fold hnodup hseen
  have hgrouped : scan.weights = roundWeight previous events.equivocations := by
    funext r
    rw [hweights, Nat.zero_add]
  rw [hgrouped] at hslashed
  have hoffenders : events.offenders.Nodup := by
    rw [hscanned, List.append_nil, ← List.reverse_append, List.nodup_reverse] at hseenNodup
    exact hseenNodup
  obtain ⟨hnodupE, hnodupI, hdisjoint⟩ := List.nodup_append.1 hoffenders
  have hkeyE : ∀ (retained : U64) (entry : ReputationEntry),
      (entry.slashed retained).nodeId = entry.nodeId := fun _ _ => rfl
  have hkeyI : ∀ (reputation : U64) (entry : ReputationEntry),
      (entry.decayed reputation).nodeId = entry.nodeId := fun _ _ => rfl
  -- without an equivocation the entries pass the first loop as they are
  have hslash : slashed.map ReputationEntry.nodeId = next.entries.map ReputationEntry.nodeId ∧
      (∀ id ∉ events.equivocations.map EquivocationPenalty.offender,
        entryOf slashed id = entryOf next.entries id) ∧
      ∀ event ∈ events.equivocations, ∃ total entry retained,
        totalActiveWeight previous = .ok total ∧
          entryOf next.entries event.offender = some entry ∧
          retainedAfter previous (roundWeight previous events.equivocations) total config event =
            .ok retained ∧ entryOf slashed event.offender = some (entry.slashed retained) := by
    unfold slashEntries at hslashed
    split_ifs at hslashed with hnone
    · obtain rfl := Except.ok.inj hslashed
      exact ⟨rfl, fun _ _ => rfl, by simp [hnone]⟩
    · obtain ⟨total, htotal, hfold⟩ := bind_eq_ok.1 hslashed
      refine ⟨Keyed.foldlM_modify_map slashEntry_changes hkeyE hfold,
        fun id hid => Keyed.foldlM_modify_frame slashEntry_changes hkeyE hfold hid,
        fun event he => ?_⟩
      obtain ⟨entry, retained, hentry, hretained, hout⟩ :=
        Keyed.foldlM_modify slashEntry_changes hkeyE hfold hnodupE he
      exact ⟨total, entry, retained, htotal, hentry, hretained, hout⟩
  obtain ⟨hnodes, hframe, hslash⟩ := hslash
  refine ⟨PorConfig.validate_eq_ok.1 hvalid, not_not.1 (not_or.1 hround).1, rfl,
    (Keyed.foldlM_modify_map decayEntry_changes hkeyI hdecayed).trans hnodes, hoffenders,
    haccepted, hactive, fun event he => ?_, fun event he => ?_, fun id hid => ?_⟩
  · obtain ⟨total, entry, retained, htotal, hentry, hretained, hout⟩ := hslash event he
    refine ⟨total, entry, retained, htotal, hentry, hretained, ?_⟩
    rw [← hout]
    refine Keyed.foldlM_modify_frame decayEntry_changes hkeyI hdecayed fun hmem => ?_
    exact hdisjoint _ (List.mem_map_of_mem he) _ hmem rfl
  · obtain ⟨entry, reputation, hentry, hreputation, hout⟩ :=
      Keyed.foldlM_modify decayEntry_changes hkeyI hdecayed hnodupI he
    refine ⟨entry, reputation, ?_, hreputation, hout⟩
    rw [← hentry]
    refine (hframe _ fun hmem => ?_).symm
    exact hdisjoint _ hmem _ (List.mem_map_of_mem he) rfl
  · unfold ReputationPenaltyEvents.offenders at hid
    rw [List.mem_append, not_or] at hid
    exact (Keyed.foldlM_modify_frame decayEntry_changes hkeyI hdecayed hid.2).trans
      (hframe id hid.1)

/-! ### How much a slash leaves -/

/-- The reputation of the keys that are not excluded. -/
def activeReputation (previous : ReputationVector) : ℕ :=
  ((previous.values.filter fun entry => !entry.isExcluded).map fun entry =>
    entry.reputation.val).sum

/-- A weight over the correlation threshold. -/
def OverThreshold (previous : ReputationVector) (config : PorConfig) (weight : ℕ) : Prop :=
  activeReputation previous * config.correlationThreshold.val < weight * config.scale.val

theorem foldlM_checkedAdd128 {α : Type} {weight : α → ℕ} {l : List α} {start total : ℕ}
    (h : l.foldlM (fun sum a => okOr PorError.slashOverflow (checkedAdd128 sum (weight a))) start =
      .ok total) : total = start + (l.map weight).sum := by
  induction l generalizing start with
  | nil => exact (Except.ok.inj h).symm
  | cons a l ih =>
      rw [List.foldlM_cons] at h
      obtain ⟨mid, hmid, h⟩ := bind_eq_ok.1 h
      rw [okOr_eq_ok] at hmid
      unfold checkedAdd128 at hmid
      split_ifs at hmid
      obtain rfl := Option.some.inj hmid
      rw [ih h, List.map_cons, List.sum_cons, Nat.add_assoc]

theorem totalActiveWeight_eq {total : ℕ} (h : totalActiveWeight previous = .ok total) :
    total = activeReputation previous :=
  (foldlM_checkedAdd128 h).trans (Nat.zero_add _)

/-- All of it above the threshold, the base below. -/
theorem computeSlashPenaltyWide_spec {weight total : ℕ} {penalty : U64}
    (h : computeSlashPenaltyWide weight total config = .ok penalty) :
    (penalty = config.scale ∧ total * config.correlationThreshold.val < weight * config.scale.val) ∨
      (penalty = config.baseSlashPenalty ∧
        weight * config.scale.val ≤ total * config.correlationThreshold.val) := by
  obtain ⟨-, h⟩ := check_eq_ok.1 h
  split_ifs at h
  obtain ⟨equivocating, hequivocating, h⟩ := bind_eq_ok.1 h
  obtain ⟨threshold, hthreshold, h⟩ := bind_eq_ok.1 h
  rw [okOr_eq_ok] at hequivocating hthreshold
  unfold checkedMul128 at hequivocating hthreshold
  split_ifs at hequivocating hthreshold
  obtain rfl := Option.some.inj hequivocating
  obtain rfl := Option.some.inj hthreshold
  obtain rfl := Except.ok.inj h
  split_ifs with hle
  · exact Or.inr ⟨rfl, hle⟩
  · exact Or.inl ⟨rfl, not_le.1 hle⟩

theorem applySlashToReputation_spec {weight part kept : U64}
    (h : applySlashToReputation weight part config = .ok kept) :
    kept.val = weight.val * (config.scale.val - part.val) / config.scale.val := by
  obtain ⟨-, h⟩ := check_eq_ok.1 h
  split_ifs at h
  obtain ⟨value, hvalue, h⟩ := bind_eq_ok.1 h
  rw [okOr_eq_ok] at hvalue h
  unfold checkedMul128 at hvalue
  split_ifs at hvalue
  obtain rfl := Option.some.inj hvalue
  exact (tryU64_eq_some.1 h).symm

/-- What the base slash leaves of a reputation. -/
def baseRetained (config : PorConfig) (reputation : ℕ) : ℕ :=
  reputation * (config.scale.val - config.baseSlashPenalty.val) / config.scale.val

/-- **A slash over the threshold leaves nothing**, any other the base part. -/
theorem retainedAfter_spec {weights : ℕ → ℕ} {event : EquivocationPenalty} {retained : U64}
    (h : retainedAfter previous weights (activeReputation previous) config event = .ok retained) :
    ∃ round, event.CountsFor round ∧
      (OverThreshold previous config (weights round) → retained.val = 0) ∧
      (¬ OverThreshold previous config (weights round) →
        retained.val = baseRetained config (priorReputation previous event.offender)) := by
  obtain ⟨round, hround, h⟩ := bind_eq_ok.1 h
  obtain ⟨penalty, hpenalty, h⟩ := bind_eq_ok.1 h
  obtain ⟨prior, hprior, h⟩ := bind_eq_ok.1 h
  have hreputation : priorReputation previous event.offender = prior.reputation.val := by
    unfold priorReputation
    rw [(priorEntry_eq_ok.1 hprior).1]
    rfl
  have hretained := applySlashToReputation_spec h
  refine ⟨round, proofRound_eq_ok.1 hround, fun hover => ?_, fun hunder => ?_⟩
  · obtain ⟨rfl, -⟩ | ⟨-, hle⟩ := computeSlashPenaltyWide_spec hpenalty
    · rw [hretained, Nat.sub_self, Nat.mul_zero, Nat.zero_div]
    · exact absurd hover (not_lt.2 hle)
  · obtain ⟨-, hlt⟩ | ⟨rfl, -⟩ := computeSlashPenaltyWide_spec hpenalty
    · exact absurd hlt hunder
    · rw [hretained, hreputation, baseRetained]

end CordialMiners.Reputation
