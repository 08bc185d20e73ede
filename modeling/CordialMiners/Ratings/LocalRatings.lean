/-
# Observers that close a round agree

`close_rating_exchange_if_complete` of `por/local_ratings.rs`.

An observer signs its own ratings, checks them against what it has staged, hands them to
the exchange, takes whatever the exchange has of its peers, and closes the round only when
every eligible rater is complete.  A quorum alone can leave observers with different
batches; this gate cannot.

Two observers with different blocklaces, keys, outboxes and exchanges that both close a
round close it with the same ratings, up to signatures, for the same reason and with the
same captured carriers (`closed_exchanges_agree`): a complete rater has one admissible
rating for each recipient, and signatures aside only one rating is admissible.
-/

import CordialMiners.Ratings.Coordinator
import CordialMiners.Slashing.Views

namespace CordialMiners.Reputation

open Codec (bind_eq_ok check_eq_ok guard_eq_ok
  mapError_eq_ok mapM_agree)
open Blocklace (PartOf)

/-! ### The exchange -/

/-- `BondedRatingKey`. -/
structure BondedRatingKey where
  rater : NodeId
  privateKey : List Byte

/-- Why a call stops; `panicked` is an `expect` that fails. -/
inductive LocalRatingError where
  | finality (error : PorFinalityError)
  | protocol (error : PorError)
  | round (error : PorRatingRoundError)
  | window (error : PorInteractionError)
  | rating (error : PorRatingError)
  | collector (error : PorRatingCollectorError)
  | transport (error : ReceiveError)
  | noAuthorizedRaters
  | storage (message : String)
  | message (text : String)
  | panicked
deriving DecidableEq, Repr

/-- What is used of `RatingOutbox` and `FileRatingExchange`, over any storage. -/
structure RatingFiles (σ : Type) where
  load : U64 → NodeId → σ → Except String (Option (List (List Byte))) × σ
  broadcaster : U64 → NodeId → RatingEnvelopeBroadcaster σ
  readPeerEnvelopes : U64 → NodeId → List NodeId → σ → Except String (List (List Byte)) × σ

/-- A call over a storage. -/
def Exchange (σ α : Type) : Type := σ → Except LocalRatingError α × σ

namespace Exchange

variable {σ α β : Type}

instance : Monad (Exchange σ) where
  pure a := fun world => (.ok a, world)
  bind x k := fun world =>
    match x world with
    | (.ok a, world) => k a world
    | (.error error, world) => (.error error, world)

/-- A result that does not touch the storage. -/
def ofExcept (r : Except LocalRatingError α) : Exchange σ α := fun world => (r, world)

/-- `ensure!`. -/
def require (condition : Bool) (text : String) : Exchange σ Unit :=
  ofExcept (if condition then .ok () else .error (.message text))

/-- A call to the storage. -/
def stored (call : σ → Except String α × σ) : Exchange σ α := fun world =>
  ((call world).1.mapError .storage, (call world).2)

/-- What a coordinator answers that may fail an `expect`. -/
def answered (answer : Option (Except PorRatingRoundError α)) : Exchange σ α :=
  ofExcept (match answer with
    | none => .error .panicked
    | some result => result.mapError .round)

/-- A call to a coordinator. -/
def called (call : PorRatingRoundCoordinator.Called α) :
    Exchange σ (α × PorRatingRoundCoordinator) :=
  ofExcept (match call with
    | none => .error .panicked
    | some (.error error, _) => .error (.round error)
    | some (.ok a, coordinator) => .ok (a, coordinator))

/-- `broadcast_pending` to a storage. -/
def broadcast (coordinator : PorRatingRoundCoordinator) (broadcaster : RatingEnvelopeBroadcaster σ) :
    Exchange σ (ℕ × PorRatingRoundCoordinator) := fun world =>
  called (coordinator.broadcastPending broadcaster world).1
    (coordinator.broadcastPending broadcaster world).2

/-- What a chain that goes through has gone through, and the world in between. -/
theorem run_bind {x : Exchange σ α} {k : α → Exchange σ β} {world world' : σ} {b : β}
    (h : (x >>= k) world = (.ok b, world')) :
    ∃ a between, x world = (.ok a, between) ∧ k a between = (.ok b, world') := by
  revert h
  show (match x world with
    | (.ok a, world) => k a world
    | (.error error, world) => (.error error, world)) = (Except.ok b, world') → _
  rcases x world with ⟨error | a, between⟩
  · exact fun h => absurd (congrArg Prod.fst h) (by simp)
  · exact fun h => ⟨a, between, rfl, h⟩

/-- What a chain that goes through has gone through. -/
theorem of_bind {x : Exchange σ α} {k : α → Exchange σ β} {world : σ} {b : β}
    (h : ((x >>= k) world).1 = .ok b) :
    ∃ a world', (x world).1 = .ok a ∧ (k a world').1 = .ok b := by
  obtain ⟨a, between, hx, hk⟩ := run_bind (Prod.ext h rfl)
  exact ⟨a, between, congrArg Prod.fst hx, congrArg Prod.fst hk⟩

theorem answered_eq_ok {answer : Option (Except PorRatingRoundError α)} {world : σ} {a : α} :
    ((answered answer : Exchange σ _) world).1 = .ok a ↔ answer = some (.ok a) := by
  unfold answered ofExcept
  rcases answer with _ | error | a' <;> simp [Except.mapError]

theorem called_eq_ok {call : PorRatingRoundCoordinator.Called α} {world : σ} {a : α}
    {coordinator : PorRatingRoundCoordinator} :
    ((called call : Exchange σ _) world).1 = .ok (a, coordinator) ↔
      call = some (.ok a, coordinator) := by
  unfold called ofExcept
  rcases call with _ | ⟨error | a', coordinator'⟩ <;> simp

end Exchange

open Exchange (ofExcept require stored answered called broadcast)

/-- The loop over the peers' envelopes. -/
def receiveAll {σ : Type} :
    List (List Byte) → PorRatingRoundCoordinator → Exchange σ PorRatingRoundCoordinator
  | [], coordinator => pure coordinator
  | envelope :: envelopes, coordinator => do
      let received ← called (coordinator.receiveEnvelope envelope)
      receiveAll envelopes received.2

/-- `PorRatingRoundClosurePolicy::default`: strictly more than two thirds. -/
def PorRatingRoundClosurePolicy.default : PorRatingRoundClosurePolicy :=
  StrictThreshold.twoThirds

/-- `close_rating_exchange_if_complete`. -/
def closeRatingExchangeIfComplete {σ : Type} (env : PorEnv) (crypto : RatingCrypto)
    (files : RatingFiles σ) (B : Blocklace) (output : OrderedFinalizedOutput)
    (state : ReputationState) (config : PorConfig) (key : BondedRatingKey)
    (authorized : List NodeId) : Exchange σ (Option CompletedPorRatingRound) := do
  let found ← ofExcept ((finalizedWaveFromOutput B output).mapError .finality)
  let wave ← ofExcept (okOr (.message "cannot close ratings without a finalized leader") found)
  require (wave = state.currentRound.val)
    "PoR rating closure wave does not match the durable reputation round"
  require (key.rater ∈ authorized) "local PoR rating rater is not authorized"
  -- from here on the wave is the round of the state
  let finalizedWave := state.currentRound
  let ratingRound ← ofExcept ((ratingRoundFromFinalizedWave finalizedWave).mapError .protocol)
  let start ← ofExcept ((PorRatingRoundCoordinator.new crypto B output ⟨finalizedWave, ratingRound⟩
    state config).mapError .round)
  let produced ← called (start.produceLocalBatch crypto key.rater key.privateKey)
  let signedEnvelopes ← ofExcept ((encodeRatingBatch finalizedWave produced.1).mapError
    fun error => .round (.transport error))
  let loaded ← stored (files.load finalizedWave key.rater)
  let staged ← ofExcept (okOr (.message "staged local PoR rating batch is missing") loaded)
  require (staged = signedEnvelopes)
    "staged local PoR ratings differ from the finalized evidence"
  let delivered ← broadcast produced.2 (files.broadcaster finalizedWave key.rater)
  let peers ← stored (files.readPeerEnvelopes finalizedWave key.rater authorized)
  let coordinator ← receiveAll peers delivered.2
  let policy := PorRatingRoundClosurePolicy.default
  let progress ← answered (coordinator.quorumProgress policy)
  if progress.completedRaters.length ≠ progress.eligibleRaters then pure none
  else
    let closed ← called (coordinator.closeIfQuorum policy)
    let completed ← answered (closed.2.intoCompleted env)
    pure (some completed)

/-! ### What two views ask of a rater -/

section Views

variable {S : Set Block} {B B' : Blocklace} {output : OrderedFinalizedOutput}
  {opened : FinalizedRatingRound} {state : ReputationState} {rater : NodeId}

/-- A rater of whom something is asked is in the state and not ejected. -/
theorem finalizedInteractions_rater {admitted : List AdmittedInteraction}
    (h : admitFinalizedBlockProductionInteractions B output opened rater state = .ok admitted)
    (hne : admitted ≠ []) : state.contains rater = true ∧ state.isEjected rater = false := by
  unfold admitFinalizedBlockProductionInteractions extractBlockProductionEvidence at h
  obtain ⟨extracted, hextracted, h⟩ := bind_eq_ok.1 h
  rw [check_eq_ok, bind_eq_ok] at hextracted
  obtain ⟨-, blocks, -, hextracted⟩ := hextracted
  obtain rfl := Except.ok.inj hextracted
  obtain ⟨interaction, hinteraction⟩ := List.exists_mem_of_ne_nil admitted hne
  obtain ⟨evidence, hevidence, hadmitted⟩ :=
    Matched.matched_right (Codec.mapM_eq_ok.1 h) interaction hinteraction
  obtain ⟨entry, -, rfl⟩ := List.mem_map.1 (List.mem_filter.1 hevidence).1
  rw [mapError_eq_ok, admitInteractionEvidence_eq_ok] at hadmitted
  obtain ⟨hrater, -⟩ := ReputationState.validateInteractionParticipants_ok hadmitted.2.1
  unfold ReputationState.validateInteractionRater at hrater
  simp only [guard_eq_ok, Bool.not_eq_true', Bool.not_eq_false,
    Bool.not_eq_true] at hrater
  exact ⟨hrater.2.1, hrater.2.2.1⟩

/-- In a consistent state such a rater has an entry that counts. -/
theorem exists_activeEntry (hstate : state.Consistent) (hcontains : state.contains rater = true)
    (hejected : state.isEjected rater = false) :
    ∃ entry ∈ state.activeEntries, entry.nodeId = rater := by
  obtain ⟨entry, hentry⟩ := Option.isSome_iff_exists.1 hcontains
  obtain ⟨hmem, rfl⟩ := (Keyed.find_eq_some_iff hstate.ordered).1 hentry
  refine ⟨entry, List.mem_filter.2 ⟨hmem, ?_⟩, rfl⟩
  have hkept : entry.isExcluded = false := by
    rw [Bool.eq_false_iff, ne_eq, hstate.registered entry hmem]
    simpa [ReputationState.isEjected] using hejected
  unfold ReputationState.isActive
  rw [hkept, hejected]
  rfl

variable (hS : DistinctBlocks S) (h : PartOf S B) (h' : PartOf S B')

include hS h h'

theorem depth_agree {id : BlockIdentity} {d d' : ℕ} (hd : B.depth id = some d)
    (hd' : B'.depth id = some d') : d = d' :=
  h.roundOf_unique hS h' (Blocklace.depth_eq_some_iff.1 hd) (Blocklace.depth_eq_some_iff.1 hd')

/-- **Two views that both answer ask the same of a rater.** -/
theorem finalizedInteractions_agree {admitted admitted' : List AdmittedInteraction}
    (hok : admitFinalizedBlockProductionInteractions B output opened rater state = .ok admitted)
    (hok' : admitFinalizedBlockProductionInteractions B' output opened rater state =
      .ok admitted') : admitted = admitted' := by
  unfold admitFinalizedBlockProductionInteractions extractBlockProductionEvidence
    finalizedWaveBlocks at hok hok'
  obtain ⟨extracted, hextracted, hok⟩ := bind_eq_ok.1 hok
  obtain ⟨extracted', hextracted', hok'⟩ := bind_eq_ok.1 hok'
  rw [check_eq_ok, bind_eq_ok] at hextracted hextracted'
  obtain ⟨-, blocks, hblocks, hextracted⟩ := hextracted
  obtain ⟨-, blocks', hblocks', hextracted'⟩ := hextracted'
  obtain ⟨found, hfound, hblocks⟩ := bind_eq_ok.1 hblocks
  obtain ⟨found', hfound', hblocks'⟩ := bind_eq_ok.1 hblocks'
  have hsame : found = found' := by
    refine mapM_agree (fun id _ wave wave' hwave hwave' => ?_) hfound hfound'
    simp only [bind_eq_ok, okOr_eq_ok] at hwave hwave'
    obtain ⟨d, hd, w, hw, hwave⟩ := hwave
    obtain ⟨d', hd', w', hw', hwave'⟩ := hwave'
    obtain rfl := depth_agree hS h h' hd hd'
    obtain rfl := Option.some.inj (hw.symm.trans hw')
    exact Except.ok.inj (hwave.symm.trans hwave')
  subst hsame
  obtain rfl := Except.ok.inj (hblocks.symm.trans hblocks')
  obtain rfl := Except.ok.inj (hextracted.symm.trans hextracted')
  exact Except.ok.inj (hok.symm.trans hok')

/-- Two views that both answer collect the same carriers. -/
theorem finalizedAuthorizations_agree {env : PorEnv}
    {found found' : OrderedSet PorEquivocationAuthorization}
    (hok : finalizedAuthorizations env B output opened = .ok found)
    (hok' : finalizedAuthorizations env B' output opened = .ok found') : found = found' := by
  have hloop : ∀ (ids : List BlockIdentity) (start found found' : OrderedSet _),
      ids.foldlM (collectWaveCarriers env B output opened) start = .ok found →
      ids.foldlM (collectWaveCarriers env B' output opened) start = .ok found' →
      found = found' := by
    intro ids
    induction ids with
    | nil => exact fun _ _ _ hok hok' => Except.ok.inj (hok.symm.trans hok')
    | cons id ids ih =>
        intro start found found' hok hok'
        rw [List.foldlM_cons] at hok hok'
        obtain ⟨mid, hmid, hok⟩ := bind_eq_ok.1 hok
        obtain ⟨mid', hmid', hok'⟩ := bind_eq_ok.1 hok'
        have hsame : mid = mid' := by
          unfold collectWaveCarriers at hmid hmid'
          obtain ⟨block, hblock, hmid⟩ := bind_eq_ok.1 hmid
          obtain ⟨block', hblock', hmid'⟩ := bind_eq_ok.1 hmid'
          obtain rfl := h.eq_of_get hS h' (okOr_eq_ok.1 hblock) (okOr_eq_ok.1 hblock')
          obtain ⟨carriers, hcarriers, hmid⟩ := bind_eq_ok.1 hmid
          obtain ⟨carriers', hcarriers', hmid'⟩ := bind_eq_ok.1 hmid'
          obtain rfl := Except.ok.inj (hcarriers.symm.trans hcarriers')
          split_ifs at hmid hmid' with hempty
          · exact Except.ok.inj (hmid.symm.trans hmid')
          · obtain ⟨d, hd, hmid⟩ := bind_eq_ok.1 hmid
            obtain ⟨d', hd', hmid'⟩ := bind_eq_ok.1 hmid'
            obtain rfl := depth_agree hS h h' (okOr_eq_ok.1 hd) (okOr_eq_ok.1 hd')
            exact Except.ok.inj (hmid.symm.trans hmid')
        subst hsame
        exact ih mid found found' hok hok'
  exact hloop _ _ _ _ hok hok'

end Views

/-! ### Complete collectors -/

/-- **What `evaluate` answers**, where the list is not too long for its counter. -/
theorem PorRatingRoundClosurePolicy.evaluate_eq_ok {policy : PorRatingRoundClosurePolicy}
    {state : ReputationState} {collector : RatingCollector} {progress : PorRatingQuorumProgress}
    (hlength : state.reputationList.entries.length < 2 ^ 64)
    (h : policy.evaluate state collector = .ok progress) :
    ∃ required, strictRequiredWeight (entriesWeight state.activeEntries) policy.numerator.val
        policy.denominator.val = some required ∧
      progress = ⟨state.activeEntries.length,
        (state.activeEntries.filter fun entry => collector.isComplete entry.nodeId).map
          ReputationEntry.nodeId, entriesWeight state.activeEntries,
        entriesWeight (state.activeEntries.filter fun entry => collector.isComplete entry.nodeId),
        required⟩ := by
  unfold PorRatingRoundClosurePolicy.evaluate at h
  obtain ⟨tally, htally, h⟩ := bind_eq_ok.1 h
  rcases @QuorumTally.foldlM_add state collector {} ⟨Nat.zero_le _, Nat.zero_le _⟩
    state.reputationList.entries (by simpa using hlength) with ⟨error, hloop⟩ | ⟨hloop, -⟩
  · rw [hloop] at htally
    exact absurd htally (by simp)
  · obtain rfl := Except.ok.inj (hloop.symm.trans htally)
    rw [guard_eq_ok] at h
    obtain ⟨required, hrequired, h⟩ := bind_eq_ok.1 h.2
    obtain rfl := Except.ok.inj h
    have hactive : state.reputationList.entries.filter state.isActive = state.activeEntries := rfl
    have htotal : (QuorumTally.with {} collector state.activeEntries).totalActiveWeight =
        entriesWeight state.activeEntries := Nat.zero_add _
    rw [hactive, okOr_eq_ok, htotal] at hrequired
    refine ⟨required, hrequired, ?_⟩
    simp [QuorumTally.with, hactive]

section Complete

variable {crypto : RatingCrypto} {S : Set Block} {B B' : Blocklace}
  {output : OrderedFinalizedOutput} {opened : FinalizedRatingRound} {state : ReputationState}
  {config : PorConfig} {c c' : RatingCollector} {rating : RatingRecord}

/-- Everyone who counts is complete. -/
def AllComplete (state : ReputationState) (c : RatingCollector) : Prop :=
  ∀ entry ∈ state.activeEntries, c.isComplete entry.nodeId = true

/-- As many complete raters as eligible ones are all of them. -/
theorem allComplete_of_progress {policy : PorRatingRoundClosurePolicy}
    {progress : PorRatingQuorumProgress} (hlength : state.reputationList.entries.length < 2 ^ 64)
    (h : policy.evaluate state c = .ok progress)
    (hall : progress.completedRaters.length = progress.eligibleRaters) : AllComplete state c := by
  obtain ⟨required, -, rfl⟩ := PorRatingRoundClosurePolicy.evaluate_eq_ok hlength h
  rw [List.length_map] at hall
  exact List.filter_eq_self.1 ((List.filter_sublist).eq_of_length hall)

/-- What a rater of an accepted rating is asked. -/
theorem exists_expected (hrules : c.rules = waveRules crypto B output state config opened)
    (hsound : c.Sound) (hrating : rating ∈ c.ratings.values) :
    ∃ admitted, admitFinalizedBlockProductionInteractions B output opened rating.rater state =
        .ok admitted ∧ admitted ≠ [] := by
  obtain ⟨expected, hexpected, interaction, hfind, -⟩ := (hsound.admissible hrating).said
  have hmem := List.mem_of_find?_eq_some hfind
  obtain ⟨admitted, hadmitted, hmap⟩ := waveRules_expected_iff.1 (hrules ▸ hexpected)
  refine ⟨admitted, hadmitted, ?_⟩
  rintro rfl
  rw [hmap] at hmem
  exact absurd hmem (by simp)

/-- The rater of an accepted rating counts. -/
theorem AllComplete.isComplete (h : AllComplete state c')
    (hrules : c.rules = waveRules crypto B output state config opened) (hsound : c.Sound)
    (hstate : state.Consistent) (hrating : rating ∈ c.ratings.values) :
    c'.isComplete rating.rater = true := by
  obtain ⟨admitted, hadmitted, hne⟩ := exists_expected hrules hsound hrating
  obtain ⟨hcontains, hejected⟩ := finalizedInteractions_rater hadmitted hne
  obtain ⟨entry, hentry, hrater⟩ := exists_activeEntry hstate hcontains hejected
  exact hrater ▸ h entry hentry

/-- Rules of one round that ask the same of a rater. -/
structure RatingRules.Agree (rules rules' : RatingRules) : Prop where
  round : rules.round = rules'.round
  expected : ∀ rater asked asked', rules.expected rater = .ok asked →
    rules'.expected rater = .ok asked' → asked = asked'

theorem RatingRules.Agree.symm {rules rules' : RatingRules} (h : rules.Agree rules') :
    rules'.Agree rules :=
  ⟨h.round.symm, fun rater asked asked' hasked hasked' =>
    (h.expected rater asked' asked hasked' hasked).symm⟩

/-- The views of a wave ask the same. -/
theorem waveRules_agree (hS : DistinctBlocks S) (h : PartOf S B) (h' : PartOf S B') :
    (waveRules crypto B output state config opened).Agree
      (waveRules crypto B' output state config opened) := by
  refine ⟨rfl, fun rater asked asked' hasked hasked' => ?_⟩
  obtain ⟨admitted, hadmitted, rfl⟩ := waveRules_expected_iff.1 hasked
  obtain ⟨admitted', hadmitted', rfl⟩ := waveRules_expected_iff.1 hasked'
  rw [finalizedInteractions_agree hS h h' hadmitted hadmitted']

/-- A rating has a counterpart in another collector where its rater is complete. -/
theorem exists_counterpart (hagree : c.rules.Agree c'.rules) (hsound : c.Sound)
    (hsound' : c'.Sound) (hlawful' : c'.rules.Lawful)
    (hcomplete : c'.isComplete rating.rater = true) (hrating : rating ∈ c.ratings.values) :
    ∃ rating' ∈ c'.ratings.values, collectorKey rating' = collectorKey rating ∧
      rating'.unsigned = rating.unsigned := by
  obtain ⟨expected, hexpected, interaction, hfind, hsaid⟩ := (hsound.admissible hrating).said
  have hmem := List.mem_of_find?_eq_some hfind
  have hrecipient : interaction.recipient = rating.recipient := by
    simpa using List.find?_some hfind
  obtain ⟨-, -, expected', hexpected', hlength⟩ := RatingCollector.isRaterComplete_true_iff.1
    (RatingCollector.isComplete_iff.1 hcomplete)
  -- both ask the same of the rater, so the interaction is expected there as well
  obtain rfl := hagree.expected _ _ _ hexpected hexpected'
  obtain ⟨rating', hrating', hrater', hrecipient'⟩ :=
    (hsound'.length_eq_iff hlawful' hexpected').1 hlength interaction hmem
  refine ⟨rating', hrating', ?_, ?_⟩
  · unfold collectorKey
    rw [hrater', hrecipient', hrecipient]
  · obtain ⟨found, hfound, interaction', hfind', hsaid'⟩ := (hsound'.admissible hrating').said
    rw [hrater', hexpected', Except.ok.injEq] at hfound
    subst hfound
    rw [hrecipient', Matched.find?_of_nodup (hlawful'.distinct hexpected') hmem,
      Option.some.injEq] at hfind'
    subst hfind'
    rw [hagree.round] at hsaid
    exact hsaid'.unsigned_eq hsaid hrater'

/-- **Collectors that are complete for one another's raters hold the same ratings**,
signatures aside. -/
theorem complete_ratings_agree (hagree : c.rules.Agree c'.rules) (hsound : c.Sound)
    (hsound' : c'.Sound) (hlawful : c.rules.Lawful) (hlawful' : c'.rules.Lawful)
    (hall : ∀ rating ∈ c'.ratings.values, c.isComplete rating.rater = true)
    (hall' : ∀ rating ∈ c.ratings.values, c'.isComplete rating.rater = true) :
    c.ratings.map RatingRecord.unsigned = c'.ratings.map RatingRecord.unsigned := by
  have hdirection : ∀ {c c' : RatingCollector}, c.rules.Agree c'.rules → c.Sound → c'.Sound →
      c'.rules.Lawful → (∀ rating ∈ c.ratings.values, c'.isComplete rating.rater = true) →
      ∀ k unsigned, (c.ratings.map RatingRecord.unsigned).lookup k = some unsigned →
        (c'.ratings.map RatingRecord.unsigned).lookup k = some unsigned := by
    intro c c' hagree hsound hsound' hlawful' hall' k unsigned hlookup
    rw [OrderedMap.lookup_map, Option.map_eq_some_iff] at hlookup ⊢
    obtain ⟨rating, hlookup, rfl⟩ := hlookup
    obtain ⟨rfl, -⟩ := hsound k rating hlookup
    have hrating := hsound.mem_values_iff.2 hlookup
    obtain ⟨rating', hrating', hkey, hunsigned⟩ :=
      exists_counterpart hagree hsound hsound' hlawful' (hall' rating hrating) hrating
    exact ⟨rating', hkey ▸ hsound'.mem_values_iff.1 hrating', hunsigned⟩
  refine OrderedMap.ext_lookup fun k => Option.ext fun unsigned =>
    ⟨hdirection hagree hsound hsound' hlawful' hall' k unsigned,
      hdirection hagree.symm hsound' hsound hlawful hall k unsigned⟩

end Complete

/-! ### What a closed exchange went through -/

section Closed

open PorRatingRoundCoordinator

variable {crypto : RatingCrypto} {σ : Type} {start : PorRatingRoundCoordinator} {world : σ}

theorem receiveAll_valid {envelopes : List (List Byte)} {stage : RoundStage}
    {c : PorRatingRoundCoordinator} (h : start.Valid crypto stage)
    (hok : (receiveAll envelopes (stage.coordinator start) world).1 = .ok c) :
    ∃ stage' : RoundStage, c = stage'.coordinator start ∧ start.Valid crypto stage' := by
  induction envelopes generalizing stage world with
  | nil => exact ⟨stage, (Except.ok.inj hok).symm, h⟩
  | cons envelope envelopes ih =>
      obtain ⟨⟨_, received⟩, world', hreceived, hok⟩ := Exchange.of_bind hok
      rw [Exchange.called_eq_ok] at hreceived
      obtain ⟨stage', rfl, hstage⟩ :=
        call_valid h () (.receiveEnvelope envelope) hreceived
      exact ih hstage hok

/-- How a round was closed: by a collector of the round in which everyone is complete. -/
structure ClosedBy (env : PorEnv) (crypto : RatingCrypto) (B : Blocklace)
    (output : OrderedFinalizedOutput) (state : ReputationState) (config : PorConfig)
    (collector : RatingCollector) (completed : CompletedPorRatingRound) : Prop where
  wave : completed.opened.finalizedWave = state.currentRound
  round : ratingRoundFromFinalizedWave state.currentRound = .ok completed.opened.ratingRound
  rules : collector.rules = waveRules crypto B output state config completed.opened
  sound : collector.Sound
  complete : AllComplete state collector
  batch : completed.batch = ⟨completed.opened.ratingRound, sortRatings collector.ratings.values⟩
  reason : ∃ required, strictRequiredWeight (entriesWeight state.activeEntries) 2 3 = some required ∧
    completed.closeReason = .quorum (entriesWeight state.activeEntries) required
  carriers : finalizedAuthorizations env B output completed.opened =
    .ok completed.finalizedAuthorizations
  untouched : completed.penalties = none ∧ completed.admittedAuthorizations = .empty

/-- Where everyone counts as complete, the complete weight is the whole. -/
theorem AllComplete.filter_eq {state : ReputationState} {collector : RatingCollector}
    (h : AllComplete state collector) :
    (state.activeEntries.filter fun entry => collector.isComplete entry.nodeId) =
      state.activeEntries := List.filter_eq_self.2 h

/-- A round that is closed only where everyone eligible is complete. -/
theorem closedBy_of_stage {env : PorEnv} {stage : RoundStage} (h : start.Valid crypto stage)
    (hstate : start.state.Consistent)
    (hlength : start.state.reputationList.entries.length < 2 ^ 64)
    (hround : ratingRoundFromFinalizedWave start.state.currentRound = .ok start.opened.ratingRound)
    (hwave : start.opened.finalizedWave = start.state.currentRound)
    {progress : PorRatingQuorumProgress} {batch : RatingBatch} {c : PorRatingRoundCoordinator}
    {completed : CompletedPorRatingRound}
    (hprogress : (stage.coordinator start).quorumProgress PorRatingRoundClosurePolicy.default =
      some (.ok progress))
    (hall : progress.completedRaters.length = progress.eligibleRaters)
    (hclosed : (stage.coordinator start).closeIfQuorum PorRatingRoundClosurePolicy.default =
      some (.ok batch, c))
    (hcompleted : c.intoCompleted env = some (.ok completed)) :
    ∃ collector, ClosedBy env crypto start.blocklace start.output start.state start.config collector
      completed := by
  rcases closeIfQuorum_cases h PorRatingRoundClosurePolicy.default with ⟨error, hclose⟩ |
    ⟨collector, localBatch, sent, closed, reached, rfl, hdelivers, hbuilt, hevaluate, -, hclose⟩
  · rw [hclose] at hclosed
    exact absurd hclosed (by simp)
  · have hsame : reached = progress := by
      have hanswer : ((RoundStage.delivering collector localBatch sent []).coordinator
          start).quorumProgress PorRatingRoundClosurePolicy.default =
            some ((PorRatingRoundClosurePolicy.default.evaluate start.state collector).mapError
              .quorum) := rfl
      rw [hanswer, hevaluate] at hprogress
      exact Except.ok.inj (Option.some.inj hprogress)
    subst hsame
    have hcomplete := allComplete_of_progress hlength hevaluate hall
    obtain ⟨required, hrequired, rfl⟩ :=
      PorRatingRoundClosurePolicy.evaluate_eq_ok hlength hevaluate
    rw [hclose, Option.some.injEq, Prod.mk.injEq] at hclosed
    obtain ⟨-, rfl⟩ := hclosed
    obtain ⟨carriers, hcarriers, hmade⟩ := bind_eq_ok.1 (Option.some.inj hcompleted)
    rw [mapError_eq_ok] at hcarriers
    obtain rfl := Except.ok.inj hmade
    have hkept : (collector.ratings.values.filter fun rating => collector.isComplete rating.rater) =
        collector.ratings.values := List.filter_eq_self.2 fun rating hrating =>
      hcomplete.isComplete hdelivers.collected.rules hdelivers.collected.sound hstate hrating
    rw [hdelivers.collected.buildCompleteBatch, Except.ok.injEq, hkept] at hbuilt
    exact ⟨collector, hwave, hround, hdelivers.collected.rules, hdelivers.collected.sound, hcomplete,
      hbuilt.symm, ⟨required, hrequired, by rw [hcomplete.filter_eq]⟩, hcarriers, rfl, rfl⟩

/-- **What closing an exchange goes through.** -/
theorem closedBy_of_ok {env : PorEnv} {files : RatingFiles σ} {B : Blocklace}
    {output : OrderedFinalizedOutput} {state : ReputationState} {config : PorConfig}
    {key : BondedRatingKey} {authorized : List NodeId} {completed : CompletedPorRatingRound}
    (hstate : state.Consistent) (hlength : state.reputationList.entries.length < 2 ^ 64)
    (hok : (closeRatingExchangeIfComplete env crypto files B output state config key authorized
      world).1 = .ok (some completed)) :
    ∃ collector, ClosedBy env crypto B output state config collector completed := by
  unfold closeRatingExchangeIfComplete at hok
  obtain ⟨found, _, -, hok⟩ := Exchange.of_bind hok
  obtain ⟨wave, _, -, hok⟩ := Exchange.of_bind hok
  obtain ⟨_, _, -, hok⟩ := Exchange.of_bind hok
  obtain ⟨_, _, -, hok⟩ := Exchange.of_bind hok
  obtain ⟨ratingRound, _, hround, hok⟩ := Exchange.of_bind hok
  obtain ⟨start, world₁, hnew, hok⟩ := Exchange.of_bind hok
  obtain ⟨⟨batch, c₁⟩, _, hproduced, hok⟩ := Exchange.of_bind hok
  obtain ⟨signedEnvelopes, _, -, hok⟩ := Exchange.of_bind hok
  obtain ⟨loaded, _, -, hok⟩ := Exchange.of_bind hok
  obtain ⟨staged, _, -, hok⟩ := Exchange.of_bind hok
  obtain ⟨_, world₂, -, hok⟩ := Exchange.of_bind hok
  obtain ⟨⟨sent, c₂⟩, _, hdelivered, hok⟩ := Exchange.of_bind hok
  obtain ⟨peers, world₃, -, hok⟩ := Exchange.of_bind hok
  obtain ⟨c₃, _, hreceived, hok⟩ := Exchange.of_bind hok
  obtain ⟨progress, _, hprogress, hok⟩ := Exchange.of_bind hok
  -- the calls lead from stage to stage
  obtain ⟨rfl, rfl, hopened, rfl, rfl, collector, hstart, hvalid⟩ :=
    new_ok (mapError_eq_ok.1 hnew)
  rw [Exchange.called_eq_ok, hstart] at hproduced
  obtain ⟨stage₁, rfl, hvalid₁⟩ := call_valid hvalid world₁
    (.produceLocalBatch key.rater key.privateKey) (by
      show Called.answer _ = _
      rw [hproduced]
      rfl)
  rw [broadcast, Exchange.called_eq_ok] at hdelivered
  obtain ⟨stage₂, rfl, hvalid₂⟩ := call_valid hvalid₁ world₂
    (.broadcastPending (files.broadcaster start.state.currentRound key.rater)) (by
      show Called.answer _ = _
      rw [hdelivered]
      rfl)
  obtain ⟨stage₃, rfl, hvalid₃⟩ := receiveAll_valid hvalid₂ hreceived
  split_ifs at hok with hall
  · exact absurd hok nofun
  obtain ⟨⟨closed, c₄⟩, _, hclosed, hok⟩ := Exchange.of_bind hok
  obtain ⟨round, _, hcompleted, hok⟩ := Exchange.of_bind hok
  obtain rfl := Option.some.inj (Except.ok.inj hok)
  rw [Exchange.called_eq_ok] at hclosed
  rw [Exchange.answered_eq_ok] at hprogress hcompleted
  refine closedBy_of_stage hvalid₃ hstate hlength ?_ ?_ hprogress (not_not.1 hall) hclosed hcompleted
  · rw [hopened]
    exact mapError_eq_ok.1 hround
  · rw [hopened]

end Closed

/-- Ratings that are equal without their signatures, and not signed in two ways. -/
theorem eq_of_map_unsigned {ratings ratings' : List RatingRecord}
    (h : ratings.map RatingRecord.unsigned = ratings'.map RatingRecord.unsigned)
    (hsigned : ∀ rating ∈ ratings, ∀ rating' ∈ ratings',
      rating.unsigned = rating'.unsigned → rating = rating') : ratings = ratings' := by
  induction ratings generalizing ratings' with
  | nil => exact (List.map_eq_nil_iff.1 h.symm).symm
  | cons rating ratings ih =>
      obtain ⟨rating', rest, rfl, hfirst, hrest⟩ := List.map_eq_cons_iff.1 h.symm
      rw [hsigned rating List.mem_cons_self rating' List.mem_cons_self hfirst.symm,
        ih hrest.symm fun a ha b hb => hsigned a (List.mem_cons_of_mem _ ha) b
          (List.mem_cons_of_mem _ hb)]

/-- **Observers that close a round agree.**  Whatever their keys, files, exchanges and
views of the blocklace are, they close the same round for the same reason with the same
ratings and the same carriers, signatures aside; and where no rating has been signed in
two ways, signatures included. -/
theorem closed_exchanges_agree {env : PorEnv} {crypto : RatingCrypto} {B B₁ B₂ : Blocklace}
    {output : OrderedFinalizedOutput} {state : ReputationState} {config : PorConfig}
    (hclosed₁ : B₁.isClosed = true) (hclosed₂ : B₂.isClosed = true)
    (hcheckpoint₁ : B₁.checkpoint = none) (hcheckpoint₂ : B₂.checkpoint = none)
    (hsub₁ : ∀ b, B₁.Stores b → B.Stores b) (hsub₂ : ∀ b, B₂.Stores b → B.Stores b)
    (hstate : state.Consistent) (hlength : state.reputationList.entries.length < 2 ^ 64)
    {σ₁ σ₂ : Type} {files₁ : RatingFiles σ₁} {files₂ : RatingFiles σ₂}
    {key₁ key₂ : BondedRatingKey} {authorized₁ authorized₂ : List NodeId} {world₁ : σ₁} {world₂ : σ₂}
    {completed₁ completed₂ : CompletedPorRatingRound}
    (h₁ : (closeRatingExchangeIfComplete env crypto files₁ B₁ output state config key₁ authorized₁
      world₁).1 = .ok (some completed₁))
    (h₂ : (closeRatingExchangeIfComplete env crypto files₂ B₂ output state config key₂ authorized₂
      world₂).1 = .ok (some completed₂)) :
    completed₁.opened = completed₂.opened ∧
      completed₁.batch.unsigned = completed₂.batch.unsigned ∧
      completed₁.closeReason = completed₂.closeReason ∧
      completed₁.finalizedAuthorizations = completed₂.finalizedAuthorizations ∧
      ((∀ rating ∈ completed₁.batch.ratings, ∀ rating' ∈ completed₂.batch.ratings,
        rating.unsigned = rating'.unsigned → rating = rating') → completed₁ = completed₂) := by
  have hS := distinctBlocks_stores B
  have hpart₁ := partOf_of_subset hclosed₁ hcheckpoint₁ hsub₁
  have hpart₂ := partOf_of_subset hclosed₂ hcheckpoint₂ hsub₂
  obtain ⟨c₁, hby₁⟩ := closedBy_of_ok hstate hlength h₁
  obtain ⟨c₂, hby₂⟩ := closedBy_of_ok hstate hlength h₂
  have hopened : completed₁.opened = completed₂.opened := by
    have hround := Except.ok.inj (hby₁.round.symm.trans hby₂.round)
    have hwave := hby₁.wave.trans hby₂.wave.symm
    cases h : completed₁.opened
    cases h' : completed₂.opened
    rw [h, h'] at hround hwave
    rw [FinalizedRatingRound.mk.injEq]
    exact ⟨hwave, hround⟩
  have hbatch : completed₁.batch.unsigned = completed₂.batch.unsigned := by
    have hagree : c₁.rules.Agree c₂.rules := by
      rw [hby₁.rules, hby₂.rules, hopened]
      exact waveRules_agree hS hpart₁ hpart₂
    have hratings := complete_ratings_agree hagree hby₁.sound hby₂.sound
      (hby₁.rules ▸ lawful_waveRules) (hby₂.rules ▸ lawful_waveRules)
      (fun rating hrating => hby₁.complete.isComplete hby₂.rules hby₂.sound hstate hrating)
      fun rating hrating => hby₂.complete.isComplete hby₁.rules hby₁.sound hstate hrating
    rw [hby₁.batch, hby₂.batch, hopened]
    unfold RatingBatch.unsigned
    dsimp only
    rw [map_sortRatings_unsigned, map_sortRatings_unsigned, ← OrderedMap.values_map,
      ← OrderedMap.values_map, hratings]
  have hreason : completed₁.closeReason = completed₂.closeReason := by
    obtain ⟨required₁, hrequired₁, hreason₁⟩ := hby₁.reason
    obtain ⟨required₂, hrequired₂, hreason₂⟩ := hby₂.reason
    obtain rfl := Option.some.inj (hrequired₁.symm.trans hrequired₂)
    exact hreason₁.trans hreason₂.symm
  have hcarriers : completed₁.finalizedAuthorizations = completed₂.finalizedAuthorizations :=
    finalizedAuthorizations_agree hS hpart₁ hpart₂ hby₁.carriers (hopened ▸ hby₂.carriers)
  refine ⟨hopened, hbatch, hreason, hcarriers, fun hsigned => ?_⟩
  obtain ⟨hpenalties₁, hadmitted₁⟩ := hby₁.untouched
  obtain ⟨hpenalties₂, hadmitted₂⟩ := hby₂.untouched
  obtain ⟨hround, hratings⟩ := RatingBatch.mk.inj hbatch
  have hsame : completed₁.batch = completed₂.batch :=
    RatingBatch.mk.injEq .. ▸ ⟨hround, eq_of_map_unsigned hratings hsigned⟩
  obtain ⟨opened₁, batch₁, reason₁, penalties₁, carriers₁, admitted₁⟩ := completed₁
  dsimp only at hopened hsame hreason hcarriers hpenalties₁ hadmitted₁
  rw [hopened, hsame, hreason, hcarriers, hpenalties₁, hadmitted₁, ← hpenalties₂, ← hadmitted₂]

/-! ### Two observers -/

/-- The envelopes of a rater. -/
def exchangedEnvelopes (rater : NodeId) : List (List Byte) :=
  ((buildFinalizedBlockProductionRatingBatch keyedCrypto ratedLace ratedOutput ⟨0, 1⟩ rater
      ratedState .default []).toOption.bind fun batch =>
    (@encodeRatingBatch Unit 0 batch).toOption).getD []

/-- An exchange where everyone's envelopes are. -/
def exchangeFiles : RatingFiles Unit where
  load _ rater := fun world => (.ok (some (exchangedEnvelopes rater)), world)
  broadcaster _ _ := fun _ world => (.ok (), world)
  readPeerEnvelopes _ own authorized := fun world =>
    (.ok ((authorized.filter (· ≠ own)).flatMap exchangedEnvelopes), world)

/-- The three genesis blocks, and one that is not finalized. -/
def widerLace : Blocklace := ratedLace.growBy [Blocklace.sampleBlock (keyedIdentity 4) []]

theorem stores_widerLace (b : Block) (hb : ratedLace.Stores b) : widerLace.Stores b := by
  have hnew : keyedIdentity 4 ∉ ratedLace.blocks := by decide +kernel
  exact ((Blocklace.insert_ok (Blocklace.insert_growBy _ (by decide +kernel))).stores_iff hnew).2
    (Or.inl hb)

/-- An observer with the key of a creator closes the round. -/
def closeRated (B : Blocklace) (creator : Byte) :
    Except LocalRatingError (Option CompletedPorRatingRound) :=
  (closeRatingExchangeIfComplete (FinalizedEquivocationAuthorization.waveEnv false) keyedCrypto
    exchangeFiles B ratedOutput ratedState .default ⟨(keyedIdentity creator).creator, []⟩
    (ratedOutput.blocks.map BlockIdentity.creator) ()).1

/-- The first and the second creator close the round of six ratings. -/
theorem closed_exchanges_agree_rated : ∃ completed₁ completed₂,
    closeRated ratedLace 1 = .ok (some completed₁) ∧
      closeRated widerLace 2 = .ok (some completed₂) ∧ completed₁.batch.ratings.length = 6 ∧
      completed₁.batch.unsigned = completed₂.batch.unsigned ∧
      completed₁.closeReason = completed₂.closeReason := by
  have hok₁ : (closeRated ratedLace 1).toOption.join.any
      (fun completed => completed.batch.ratings.length = 6) = true := by decide +kernel
  have hok₂ : (closeRated widerLace 2).toOption.join.isSome = true := by decide +kernel
  obtain ⟨completed₁, hcompleted₁, hsix⟩ := (Option.any_eq_true _ _).1 hok₁
  obtain ⟨completed₂, hcompleted₂⟩ := Option.isSome_iff_exists.1 hok₂
  have h₁ := Codec.eq_ok_of_toOption (Option.join_eq_some_iff.1 hcompleted₁)
  have h₂ := Codec.eq_ok_of_toOption (Option.join_eq_some_iff.1 hcompleted₂)
  have hstate : ratedState.Consistent :=
    (ReputationState.setReputation_spec (ReputationState.setReputation_spec
      (ReputationState.setReputation_spec (ReputationState.consistent_new 0) _ _).1 _ _).1 _ _).1
  obtain ⟨-, hbatch, hreason, -⟩ := closed_exchanges_agree (B := widerLace) (by decide +kernel)
    (by decide +kernel) (by decide +kernel) (by decide +kernel) stores_widerLace (fun _ hb => hb) hstate
    (by decide +kernel) h₁ h₂
  exact ⟨completed₁, completed₂, h₁, h₂, by simpa using hsix, hbatch, hreason⟩

end CordialMiners.Reputation
