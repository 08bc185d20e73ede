/-
# Published shadow statuses

`por/shadow.rs`: the observer writes a status after every poll.  Before it replaces the
file it checks the new status against the one it found when the process started and the
one in the file (`validate_recovered`).

The check is transitive in everything but the candidate.  A rater, a wave or a checkpoint
that disappears is refused; a candidate that disappears is not, and once a status without
it is in the file, another candidate of that round passes.  A step is safe for all that
follows exactly where it keeps the candidate of an active round
(`validateRecovered_continues_iff`), and over a run of such steps no status contradicts an
earlier one.
-/

import CordialMiners.Collections.OrderedMap
import CordialMiners.Reputation.Types
import Mathlib.Data.String.Basic

namespace CordialMiners

open Codec (bind_eq_ok check_eq_ok)

/-! ### Statuses -/

/-- `ShadowSourceCheckpoint`. -/
structure ShadowSourceCheckpoint where
  porRound : U64
  finalizedPrefixLen : U64
  prefixHash : String
  terminalBlockHash : String
deriving DecidableEq

/-- `ShadowCandidate`. -/
structure ShadowCandidate where
  porRound : U64
  source : ShadowSourceCheckpoint
  checkpointHash : String
  weightCommitment : String
  weights : OrderedMap String U64
deriving DecidableEq

/-- `ShadowStatus`. -/
structure ShadowStatus where
  schemaVersion : ℕ
  shadowMode : Bool
  configuredRatingRater : Option String
  activePorRound : U64
  activePorCheckpoint : Option String
  nextPorSourceCheckpoint : Option ShadowSourceCheckpoint
  candidate : Option ShadowCandidate
  weightCommitment : String
  weights : OrderedMap String U64
  finalizedAnchor : Option String
  observedFinalizedWave : Option U64
  finalizedHashes : List String
  mirroredBlocks : ℕ
  sourceHeight : ℤ
deriving DecidableEq

/-- `ensure!`. -/
def ensure (condition : Prop) [Decidable condition] (message : String) : Except String Unit :=
  if condition then .ok () else .error message

namespace ShadowStatus

/-- `validate_configured_rater`. -/
def validateConfiguredRater (self : ShadowStatus) (rater : Option String) : Except String Unit :=
  match self.configuredRatingRater with
  | none => .ok ()
  | some previousRater =>
      ensure (rater = some previousRater)
        "configured PoR rating rater changed for this data directory"

/-- The finalized wave and its leader. -/
def validateWave (self recovered : ShadowStatus) : Except String Unit :=
  match self.observedFinalizedWave with
  | none => .ok ()
  | some previousWave => do
      let recoveredWave ← okOr "replayed Cordial final leader disappeared"
        recovered.observedFinalizedWave
      ensure (previousWave ≤ recoveredWave) "replayed Cordial finalized wave regressed"
      if recoveredWave = previousWave then
        ensure (recovered.finalizedAnchor = self.finalizedAnchor)
          "replayed Cordial final leader changed within the same wave"
      else .ok ()

/-- The checkpoint of the active round. -/
def validateCheckpoint (self recovered : ShadowStatus) : Except String Unit :=
  match self.activePorCheckpoint with
  | none => .ok ()
  | some checkpoint =>
      ensure (recovered.activePorCheckpoint = some checkpoint)
        "recovered PoR checkpoint differs from the previous publication"

/-- The candidates, where both are there and of one round. -/
def validateCandidate (self recovered : ShadowStatus) : Except String Unit :=
  match self.candidate, recovered.candidate with
  | some previous, some current =>
      if previous.porRound = current.porRound then
        ensure (previous = current)
          "recovered PoR checkpoint candidate differs from the previous publication"
      else .ok ()
  | _, _ => .ok ()

/-- The checks between statuses of one active round. -/
def validateRound (self recovered : ShadowStatus) : Except String Unit := do
  ensure (recovered.weightCommitment = self.weightCommitment ∧ recovered.weights = self.weights)
    "recovered PoR projection differs from the previous publication"
  self.validateCheckpoint recovered
  self.validateCandidate recovered

/-- `validate_recovered`. -/
def validateRecovered (self recovered : ShadowStatus) : Except String Unit := do
  ensure (self.schemaVersion = 1 ∧ self.shadowMode = true) "unsupported shadow status"
  self.validateConfiguredRater recovered.configuredRatingRater
  ensure (self.finalizedHashes <+: recovered.finalizedHashes)
    "replayed Cordial finalized output changed or lost its durable prefix"
  self.validateWave recovered
  ensure (self.activePorRound ≤ recovered.activePorRound) "recovered PoR activation regressed"
  if recovered.activePorRound = self.activePorRound then self.validateRound recovered else .ok ()

/-! ### What a check says -/

/-- What the check asks of two statuses, the candidates apart. -/
structure Continues (s t : ShadowStatus) : Prop where
  supported : s.schemaVersion = 1 ∧ s.shadowMode = true
  rater : ∀ rater, s.configuredRatingRater = some rater → t.configuredRatingRater = some rater
  finalized : s.finalizedHashes <+: t.finalizedHashes
  wave : ∀ wave, s.observedFinalizedWave = some wave → ∃ wave',
    t.observedFinalizedWave = some wave' ∧ wave ≤ wave' ∧
      (wave' = wave → t.finalizedAnchor = s.finalizedAnchor)
  round : s.activePorRound ≤ t.activePorRound
  projection : t.activePorRound = s.activePorRound →
    t.weightCommitment = s.weightCommitment ∧ t.weights = s.weights ∧
      ∀ checkpoint, s.activePorCheckpoint = some checkpoint →
        t.activePorCheckpoint = some checkpoint

/-- The candidates of one round under one active round are equal. -/
def Agrees (s t : ShadowStatus) : Prop :=
  t.activePorRound = s.activePorRound → ∀ previous current, s.candidate = some previous →
    t.candidate = some current → previous.porRound = current.porRound → previous = current

/-- The candidate of an active round is followed by one of its round. -/
def KeepsCandidate (s t : ShadowStatus) : Prop :=
  t.activePorRound = s.activePorRound → ∀ previous, s.candidate = some previous →
    ∃ current, t.candidate = some current ∧ current.porRound = previous.porRound

variable {s t u : ShadowStatus}

theorem ensure_eq_ok {condition : Prop} [Decidable condition] {message : String} :
    ensure condition message = .ok () ↔ condition := by
  unfold ensure
  split_ifs with h <;> simp [h]

theorem validateConfiguredRater_eq_ok {rater : Option String} :
    s.validateConfiguredRater rater = .ok () ↔
      ∀ previous, s.configuredRatingRater = some previous → rater = some previous := by
  unfold validateConfiguredRater
  cases s.configuredRatingRater with
  | none => simp
  | some previous => simp [ensure_eq_ok]

theorem validateWave_eq_ok : s.validateWave t = .ok () ↔
    ∀ wave, s.observedFinalizedWave = some wave → ∃ wave', t.observedFinalizedWave = some wave' ∧
      wave ≤ wave' ∧ (wave' = wave → t.finalizedAnchor = s.finalizedAnchor) := by
  unfold validateWave
  cases s.observedFinalizedWave with
  | none => simp
  | some wave =>
      dsimp only
      rw [bind_eq_ok]
      simp only [okOr_eq_ok, check_eq_ok, ensure_eq_ok, Option.some.injEq,
        forall_eq']
      refine exists_congr fun wave' => and_congr_right fun _ => and_congr_right fun _ => ?_
      split_ifs with hwave
      · simp [ensure_eq_ok, hwave]
      · simp [hwave]

theorem validateCheckpoint_eq_ok : s.validateCheckpoint t = .ok () ↔
    ∀ checkpoint, s.activePorCheckpoint = some checkpoint →
      t.activePorCheckpoint = some checkpoint := by
  unfold validateCheckpoint
  cases s.activePorCheckpoint with
  | none => simp
  | some checkpoint => simp [ensure_eq_ok]

theorem validateCandidate_eq_ok : s.validateCandidate t = .ok () ↔
    ∀ previous current, s.candidate = some previous → t.candidate = some current →
      previous.porRound = current.porRound → previous = current := by
  unfold validateCandidate
  cases s.candidate with
  | none => simp
  | some previous =>
      cases t.candidate with
      | none => simp
      | some current =>
          dsimp only
          split_ifs with hround
          · simp [ensure_eq_ok, hround]
          · simp [hround]

theorem validateRound_eq_ok : s.validateRound t = .ok () ↔
    (t.weightCommitment = s.weightCommitment ∧ t.weights = s.weights) ∧
      s.validateCheckpoint t = .ok () ∧ s.validateCandidate t = .ok () := by
  unfold validateRound
  rw [check_eq_ok, check_eq_ok, ensure_eq_ok]

/-- **The check is the two halves together.** -/
theorem validateRecovered_eq_ok :
    s.validateRecovered t = .ok () ↔ s.Continues t ∧ s.Agrees t := by
  unfold validateRecovered
  rw [check_eq_ok, check_eq_ok, check_eq_ok,
    check_eq_ok, check_eq_ok, ensure_eq_ok, ensure_eq_ok,
    ensure_eq_ok, validateConfiguredRater_eq_ok, validateWave_eq_ok]
  constructor
  · rintro ⟨hsupported, hrater, hfinalized, hwave, hround, hsame⟩
    refine ⟨⟨hsupported, hrater, hfinalized, hwave, hround, fun heq => ?_⟩, fun heq => ?_⟩
    · rw [if_pos heq, validateRound_eq_ok, validateCheckpoint_eq_ok] at hsame
      exact ⟨hsame.1.1, hsame.1.2, hsame.2.1⟩
    · rw [if_pos heq, validateRound_eq_ok, validateCandidate_eq_ok] at hsame
      exact hsame.2.2
  · rintro ⟨⟨hsupported, hrater, hfinalized, hwave, hround, hprojection⟩, hagrees⟩
    refine ⟨hsupported, hrater, hfinalized, hwave, hround, ?_⟩
    split_ifs with heq
    · obtain ⟨hcommitment, hweights, hcheckpoint⟩ := hprojection heq
      exact validateRound_eq_ok.2 ⟨⟨hcommitment, hweights⟩,
        validateCheckpoint_eq_ok.2 hcheckpoint, validateCandidate_eq_ok.2 (hagrees heq)⟩
    · rfl

/-! ### Statuses in a row -/

/-- **All but the candidates is transitive.** -/
theorem Continues.trans (h : s.Continues t) (h' : t.Continues u) : s.Continues u := by
  refine ⟨h.supported, fun rater hrater => h'.rater rater (h.rater rater hrater),
    h.finalized.trans h'.finalized, fun wave hwave => ?_, h.round.trans h'.round, fun heq => ?_⟩
  · obtain ⟨wave₁, hwave₁, hle₁, hanchor₁⟩ := h.wave wave hwave
    obtain ⟨wave₂, hwave₂, hle₂, hanchor₂⟩ := h'.wave wave₁ hwave₁
    refine ⟨wave₂, hwave₂, hle₁.trans hle₂, fun heq => ?_⟩
    subst heq
    -- the wave in between is the same one
    obtain rfl := le_antisymm hle₁ hle₂
    rw [hanchor₂ rfl, hanchor₁ rfl]
  · have hround : t.activePorRound = s.activePorRound := le_antisymm (heq ▸ h'.round) h.round
    obtain ⟨hcommitment, hweights, hcheckpoint⟩ := h.projection hround
    obtain ⟨hcommitment', hweights', hcheckpoint'⟩ := h'.projection (heq.trans hround.symm)
    exact ⟨hcommitment'.trans hcommitment, hweights'.trans hweights,
      fun checkpoint hc => hcheckpoint' checkpoint (hcheckpoint checkpoint hc)⟩

/-- A candidate that is kept is the one that later statuses are compared with. -/
theorem Agrees.trans (hst : s.Continues t) (htu : t.Continues u) (h : s.Agrees t) (h' : t.Agrees u)
    (hkeeps : s.KeepsCandidate t) : s.Agrees u := by
  intro heq previous current hprevious hcurrent hround
  have hround₁ : t.activePorRound = s.activePorRound := le_antisymm (heq ▸ htu.round) hst.round
  obtain ⟨middle, hmiddle, hmiddleRound⟩ := hkeeps hround₁ previous hprevious
  obtain rfl := h hround₁ previous middle hprevious hmiddle hmiddleRound.symm
  exact h' (heq.trans hround₁.symm) previous current hmiddle hcurrent hround

/-- A status continues itself. -/
theorem Continues.refl (h : s.schemaVersion = 1 ∧ s.shadowMode = true) : s.Continues s :=
  ⟨h, fun _ => id, List.prefix_refl _, fun wave hwave => ⟨wave, hwave, le_rfl, fun _ => rfl⟩, le_rfl,
    fun _ => ⟨rfl, rfl, fun _ => id⟩⟩

/-- A status with another candidate. -/
def withCandidate (s : ShadowStatus) (candidate : Option ShadowCandidate) : ShadowStatus :=
  { s with candidate := candidate }

theorem Continues.withCandidate (h : s.Continues t) (candidate : Option ShadowCandidate) :
    s.Continues (t.withCandidate candidate) :=
  ⟨h.supported, h.rater, h.finalized, h.wave, h.round, h.projection⟩

/-- **A step is safe for all that follows exactly where it keeps the candidate** of an active
round. -/
theorem validateRecovered_continues_iff (h : s.validateRecovered t = .ok ())
    (hsupported : t.schemaVersion = 1 ∧ t.shadowMode = true) :
    (∀ u, t.validateRecovered u = .ok () → s.validateRecovered u = .ok ()) ↔
      s.KeepsCandidate t := by
  simp only [validateRecovered_eq_ok] at h ⊢
  obtain ⟨hcontinues, hagrees⟩ := h
  constructor
  · intro hall hround previous hprevious
    by_contra hdropped
    push Not at hdropped
    -- another candidate of the round, which the status in between lets through
    let other : ShadowCandidate := { previous with checkpointHash := previous.checkpointHash.push '!' }
    have hother : other ≠ previous := fun heq => by
      have hlength := congrArg (fun c => c.checkpointHash.length) heq
      simp [other] at hlength
    have hpasses : t.Agrees (t.withCandidate (some other)) := by
      intro _ candidate current hcandidate hcurrent hsame
      obtain rfl := Option.some.inj hcurrent
      exact absurd hsame (hdropped candidate hcandidate)
    obtain ⟨-, hrefused⟩ := hall (t.withCandidate (some other))
      ⟨(Continues.refl hsupported).withCandidate _, hpasses⟩
    exact hother (hrefused hround previous other hprevious rfl rfl).symm
  · rintro hkeeps u ⟨hcontinues', hagrees'⟩
    exact ⟨hcontinues.trans hcontinues', Agrees.trans hcontinues hcontinues' hagrees hagrees' hkeeps⟩

end ShadowStatus

/-! ### The observer -/

/-- What a status is read off: the runtime, its output, the rater and the head. -/
structure ShadowView where
  configuredRatingRater : Option String
  activePorRound : U64
  activePorCheckpoint : Option String
  nextPorSourceCheckpoint : Option ShadowSourceCheckpoint
  weightCommitment : String
  weights : OrderedMap String U64
  finalizedAnchor : Option String
  observedFinalizedWave : Option U64
  finalizedHashes : List String
  mirroredBlocks : ℕ
  sourceHeight : ℤ

/-- `ShadowStatus::from_runtime`. -/
def ShadowStatus.fromRuntime (view : ShadowView) : ShadowStatus where
  schemaVersion := 1
  shadowMode := true
  configuredRatingRater := view.configuredRatingRater
  activePorRound := view.activePorRound
  activePorCheckpoint := view.activePorCheckpoint
  nextPorSourceCheckpoint := view.nextPorSourceCheckpoint
  candidate := none
  weightCommitment := view.weightCommitment
  weights := view.weights
  finalizedAnchor := view.finalizedAnchor
  observedFinalizedWave := view.observedFinalizedWave
  finalizedHashes := view.finalizedHashes
  mirroredBlocks := view.mirroredBlocks
  sourceHeight := view.sourceHeight

/-- The status at the start of the process and the one in the file. -/
structure ShadowObserver where
  previous : Option ShadowStatus
  published : Option ShadowStatus

/-- What happens to an observer: a poll, with the view after a commit in it and the candidate
that it derives, or a start of the process. -/
inductive ShadowEvent where
  | poll (view : ShadowView) (committed : Option ShadowView) (candidate : Option ShadowCandidate)
  | restart (rater : Option String)

namespace ShadowObserver

/-- A check against a status that may be absent. -/
def checkAgainst (earlier : Option ShadowStatus) (status : ShadowStatus) : Except String Unit :=
  match earlier with
  | none => .ok ()
  | some earlier => earlier.validateRecovered status

/-- The checks of `run_shadow` in front of the file. -/
def guardPublication (o : ShadowObserver) (status : ShadowStatus) : Except String Unit := do
  checkAgainst o.previous status
  checkAgainst o.published status

/-- The status of a view, or of the view after a commit. -/
def commit (status : ShadowStatus) (committed : Option ShadowView) : Except String ShadowStatus :=
  match committed with
  | none => .ok status
  | some view => do
      status.validateRecovered (.fromRuntime view)
      .ok (.fromRuntime view)

/-- What a poll of `run_shadow` writes. -/
def publish (o : ShadowObserver) (view : ShadowView) (committed : Option ShadowView)
    (candidate : Option ShadowCandidate) : Except String ShadowStatus := do
  o.guardPublication (.fromRuntime view)
  let status ← commit (.fromRuntime view) committed
  match candidate with
  | none => .ok status
  | some candidate => do
      o.guardPublication (status.withCandidate candidate)
      .ok (status.withCandidate candidate)

/-- The status that an event writes. -/
def written (o : ShadowObserver) : ShadowEvent → Option ShadowStatus
  | .poll view committed candidate => (o.publish view committed candidate).toOption
  | .restart _ => none

/-- The observer after an event. -/
def step (o : ShadowObserver) : ShadowEvent → ShadowObserver
  | .poll view committed candidate =>
      { o with published := (o.written (.poll view committed candidate)).or o.published }
  | .restart rater =>
      if o.published.all fun status => (status.validateConfiguredRater rater).isOk then
        { o with previous := o.published }
      else o

/-- All statuses that some events write, in their order. -/
def history (o : ShadowObserver) : List ShadowEvent → List ShadowStatus
  | [] => []
  | event :: events => (o.written event).toList ++ (o.step event).history events

variable {o : ShadowObserver} {view : ShadowView} {committed : Option ShadowView}
  {candidate : Option ShadowCandidate} {status : ShadowStatus}

theorem guardPublication_eq_ok : o.guardPublication status = .ok () ↔
    checkAgainst o.previous status = .ok () ∧ checkAgainst o.published status = .ok () :=
  check_eq_ok

/-- **What is written follows what is in the file.** -/
theorem checkAgainst_published (h : o.publish view committed candidate = .ok status) :
    checkAgainst o.published status = .ok () := by
  unfold publish at h
  rw [check_eq_ok, guardPublication_eq_ok] at h
  obtain ⟨⟨-, hfirst⟩, h⟩ := h
  obtain ⟨derived, hderived, h⟩ := bind_eq_ok.1 h
  cases candidate with
  | some candidate =>
      rw [check_eq_ok, guardPublication_eq_ok] at h
      obtain ⟨⟨-, hsecond⟩, h⟩ := h
      obtain rfl := Except.ok.inj h
      exact hsecond
  | none =>
      obtain rfl := Except.ok.inj h
      cases committed with
      | none =>
          obtain rfl := Except.ok.inj hderived
          exact hfirst
      | some view' =>
          obtain ⟨hcommit, hderived⟩ := check_eq_ok.1 hderived
          obtain rfl := Except.ok.inj hderived
          cases hpublished : o.published with
          | none => rfl
          | some earlier =>
              rw [hpublished] at hfirst
              obtain ⟨hcontinues, -⟩ := ShadowStatus.validateRecovered_eq_ok.1 hfirst
              obtain ⟨hcontinues', -⟩ := ShadowStatus.validateRecovered_eq_ok.1 hcommit
              -- no candidate is written, so none can disagree
              exact ShadowStatus.validateRecovered_eq_ok.2
                ⟨hcontinues.trans hcontinues', fun _ _ _ _ hnone => by cases hnone⟩

theorem checkAgainst_written {event : ShadowEvent} (h : o.written event = some status) :
    checkAgainst o.published status = .ok () := by
  cases event with
  | restart rater => cases h
  | poll view committed candidate => exact checkAgainst_published (Codec.eq_ok_of_toOption h)

/-- The file holds what was written last. -/
theorem published_step (o : ShadowObserver) (event : ShadowEvent) :
    (o.step event).published = (o.written event).or o.published := by
  cases event with
  | poll view committed candidate => rfl
  | restart rater =>
      rw [step]
      split_ifs <;> rfl

/-- **Every status that is written follows the one before it**, over polls and restarts. -/
theorem history_isChain (o : ShadowObserver) (events : List ShadowEvent) :
    (o.published.toList ++ o.history events).IsChain fun s t => s.validateRecovered t = .ok () := by
  induction events generalizing o with
  | nil => cases o.published <;> simp [history]
  | cons event events ih =>
      have hrest := ih (o.step event)
      rw [published_step] at hrest
      unfold history
      cases hwritten : o.written event with
      | none =>
          rw [hwritten] at hrest
          exact hrest
      | some status =>
          rw [hwritten] at hrest
          have hcheck := checkAgainst_written hwritten
          cases hpublished : o.published with
          | none => exact hrest
          | some earlier =>
              rw [hpublished] at hcheck
              exact List.isChain_cons_cons.2 ⟨hcheck, hrest⟩

end ShadowObserver

/-! ### The claim about published statuses -/

namespace ShadowStatus

/-- A step that passes the check and keeps the candidate of an active round. -/
def Keeps (s t : ShadowStatus) : Prop := s.validateRecovered t = .ok () ∧ s.KeepsCandidate t

/-- Such steps compose. -/
theorem Keeps.trans {s t u : ShadowStatus} (h : s.Keeps t) (h' : t.Keeps u) : s.Keeps u := by
  obtain ⟨hcontinues, hagrees⟩ := validateRecovered_eq_ok.1 h.1
  obtain ⟨hcontinues', hagrees'⟩ := validateRecovered_eq_ok.1 h'.1
  refine ⟨validateRecovered_eq_ok.2 ⟨hcontinues.trans hcontinues',
    Agrees.trans hcontinues hcontinues' hagrees hagrees' h.2⟩, fun heq previous hprevious => ?_⟩
  have hround : t.activePorRound = s.activePorRound :=
    le_antisymm (heq ▸ hcontinues'.round) hcontinues.round
  obtain ⟨middle, hmiddle, hmiddleRound⟩ := h.2 hround previous hprevious
  obtain ⟨current, hcurrent, hcurrentRound⟩ := h'.2 (heq.trans hround.symm) middle hmiddle
  exact ⟨current, hcurrent, hcurrentRound.trans hmiddleRound⟩

instance transKeeps : Trans Keeps Keeps Keeps := ⟨Keeps.trans⟩

end ShadowStatus

/-- **When published statuses do not contradict an earlier one.**  Over a chain of statuses that
each pass the check against the one before and keep the candidate of an active round, every
status passes the check against every earlier one.  Of a step that passes the check, this is
exactly what makes all that may follow pass the check against its first status.  The statuses
of every run of polls and restarts are such a chain, the candidates apart. -/
theorem shadow_statuses_consistent (chain : List ShadowStatus)
    (h : chain.IsChain ShadowStatus.Keeps) :
    (chain.Pairwise fun s t => s.validateRecovered t = .ok () ∧ s.Continues t ∧ s.Agrees t) ∧
    (∀ s t : ShadowStatus, s.validateRecovered t = .ok () →
      t.schemaVersion = 1 ∧ t.shadowMode = true →
      ((∀ u, t.validateRecovered u = .ok () → s.validateRecovered u = .ok ()) ↔
        s.KeepsCandidate t)) ∧
    ∀ (o : ShadowObserver) (events : List ShadowEvent),
      (o.published.toList ++ o.history events).IsChain fun s t => s.validateRecovered t = .ok () := by
  refine ⟨?_, fun s t => ShadowStatus.validateRecovered_continues_iff,
    ShadowObserver.history_isChain⟩
  refine h.pairwise.imp fun hkeeps => ⟨hkeeps.1, ?_⟩
  exact ShadowStatus.validateRecovered_eq_ok.1 hkeeps.1

/-- A status of the first round with a finalized block. -/
def quietStatus : ShadowStatus :=
  .fromRuntime ⟨none, 0, none, none, "abc", .empty, some "a", none, ["a"], 1, 10⟩

/-- A candidate of the next round. -/
def quietCandidate (checkpointHash : String) : ShadowCandidate :=
  ⟨1, ⟨1, 16, "source", "terminal"⟩, checkpointHash, "candidate-weights", .empty⟩

/-- A candidate, a status without one, and another candidate of the round. -/
theorem shadow_candidate_forgotten :
    ¬∀ chain : List ShadowStatus,
      chain.IsChain (fun s t => s.validateRecovered t = .ok ()) →
      chain.Pairwise fun s t => s.validateRecovered t = .ok () := by
  intro hall
  have hpairs := hall [quietStatus.withCandidate (some (quietCandidate "checkpoint")), quietStatus,
    quietStatus.withCandidate (some (quietCandidate "changed"))] (by decide +kernel)
  exact absurd hpairs (by decide +kernel)

/-- The hypotheses of `shadow_statuses_consistent` are met by a candidate that is kept. -/
theorem shadow_candidate_kept :
    [quietStatus, quietStatus.withCandidate (some (quietCandidate "checkpoint")),
      quietStatus.withCandidate (some (quietCandidate "checkpoint"))].Pairwise fun s t =>
        s.validateRecovered t = .ok () ∧ s.Continues t ∧ s.Agrees t := by
  refine (shadow_statuses_consistent _ (List.isChain_cons_cons.2 ⟨⟨by decide +kernel, ?_⟩,
    List.isChain_cons_cons.2 ⟨⟨by decide +kernel, ?_⟩, List.isChain_singleton _⟩⟩)).1
  · exact fun _ previous hnone => by cases hnone
  · exact fun _ previous hprevious => ⟨previous, hprevious, rfl⟩

end CordialMiners
