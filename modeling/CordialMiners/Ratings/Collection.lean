/-
# Ratings in any order

Envelopes and whole batches arrive at a collector one after the other, some of them more
than once and some of them refused.

What a run of envelopes leaves is what the first admissible rating of each rater and
recipient says (`submitAll_envelopes`).  Two admissible ratings of one rater for one
recipient differ in their signatures only, so the order of arrival decides about
signatures and about nothing else; and not about these either, where no rater has signed
for one recipient in two ways (`collection_order_independent`).
-/

import CordialMiners.Ratings.Collector

namespace CordialMiners.Reputation

open Codec (bind_eq_ok check_eq_ok guard_eq_ok
  mapError_eq_ok forM_eq_ok)

/-! ### Without signatures -/

/-- The batch without its signatures. -/
def RatingBatch.unsigned (batch : RatingBatch) : RatingBatch :=
  { batch with ratings := batch.ratings.map RatingRecord.unsigned }

theorem map_sortRatings_unsigned (ratings : List RatingRecord) :
    (sortRatings ratings).map RatingRecord.unsigned =
      sortRatings (ratings.map RatingRecord.unsigned) :=
  List.map_insertionSort _ _ _ _ fun _ _ _ _ => Iff.rfl

/-! ### Submissions -/

/-- What arrives at a collector. -/
inductive Submission where
  | envelope (encoded : List Byte)
  | batch (sent : RatingBatch)

/-- The ratings that it carries. -/
def Submission.ratings (rules : RatingRules) : Submission → List RatingRecord
  | .envelope encoded => (rules.openEnvelope encoded).toOption.toList
  | .batch sent => sent.ratings

namespace RatingCollector

/-- The result of a submission, and the collector after it. -/
def submit (c : RatingCollector) : Submission → Except ReceiveError Unit × RatingCollector
  | .envelope encoded => c.receive encoded
  | .batch sent => ((c.insertBatch sent).1.mapError .collector, (c.insertBatch sent).2)

/-- One submission after the other. -/
def submitAll (c : RatingCollector) (submissions : List Submission) : RatingCollector :=
  submissions.foldl (fun c submission => (c.submit submission).2) c

variable {c c' c'' : RatingCollector} {rating : RatingRecord} {carried carried' : List RatingRecord}

/-- Every rating that is there is admissible and stands under its key. -/
def Sound (c : RatingCollector) : Prop :=
  ∀ k rating, c.ratings.lookup k = some rating →
    collectorKey rating = k ∧ Admissible c.rules rating

/-- What is there stays, and what is new is admissible and has been carried there. -/
structure Grows (c c' : RatingCollector) (carried : List RatingRecord) : Prop where
  rules : c'.rules = c.rules
  kept : ∀ k rating, c.ratings.lookup k = some rating → c'.ratings.lookup k = some rating
  new : ∀ k rating, c'.ratings.lookup k = some rating → c.ratings.lookup k = some rating ∨
    rating ∈ carried ∧ collectorKey rating = k ∧ Admissible c.rules rating

theorem Grows.refl (c : RatingCollector) (carried : List RatingRecord) : Grows c c carried :=
  ⟨rfl, fun _ _ h => h, fun _ _ h => .inl h⟩

theorem Grows.trans (h : Grows c c' carried) (h' : Grows c' c'' carried') :
    Grows c c'' (carried ++ carried') where
  rules := h'.rules.trans h.rules
  kept k rating hlookup := h'.kept k rating (h.kept k rating hlookup)
  new k rating hlookup := by
    rcases h'.new k rating hlookup with hold | ⟨hmem, hkey, hadmissible⟩
    · rcases h.new k rating hold with hold | ⟨hmem, hrest⟩
      · exact .inl hold
      · exact .inr ⟨List.mem_append_left _ hmem, hrest⟩
    · exact .inr ⟨List.mem_append_right _ hmem, hkey, h.rules ▸ hadmissible⟩

theorem Grows.sound (h : Grows c c' carried) (hsound : c.Sound) : c'.Sound := by
  intro k rating hlookup
  rw [h.rules]
  rcases h.new k rating hlookup with hold | ⟨-, hkey, hadmissible⟩
  · exact hsound k rating hold
  · exact ⟨hkey, hadmissible⟩

theorem grows_insert (hadmissible : Admissible c.rules rating)
    (hfree : c.ratings.lookup (collectorKey rating) = none) :
    Grows c { c with ratings := c.ratings.insert (collectorKey rating) rating } [rating] where
  rules := rfl
  kept k kept hkept := by
    dsimp only
    rw [OrderedMap.lookup_insert, if_neg, hkept]
    rintro rfl
    rw [hfree] at hkept
    exact absurd hkept (by simp)
  new k new hnew := by
    dsimp only at hnew
    rw [OrderedMap.lookup_insert] at hnew
    split_ifs at hnew with hk
    · obtain rfl := Option.some.inj hnew
      exact .inr ⟨List.mem_singleton.2 rfl, hk.symm, hadmissible⟩
    · exact .inl hnew

/-- The loop over a batch. -/
theorem grows_stage {ratings : List RatingRecord} {staged : AcceptedRatings}
    (h : stage c.rules ratings c.ratings = .ok staged) :
    Grows c { c with ratings := staged } ratings := by
  induction ratings generalizing c with
  | nil =>
      obtain rfl := Except.ok.inj h
      exact Grows.refl c []
  | cons rating ratings ih =>
      rw [stage, check_eq_ok, validateSubmission_eq_ok] at h
      obtain ⟨⟨hadmissible, hfree⟩, h⟩ := h
      exact (grows_insert hadmissible hfree).trans
        (ih (c := { c with ratings := c.ratings.insert (collectorKey rating) rating }) h)

/-- **One submission:** what is refused leaves the collector as it is, and what is
accepted adds admissible ratings that were carried. -/
theorem submit_cases (c : RatingCollector) (submission : Submission) :
    ((c.submit submission).1 = .ok () ∧
        Grows c (c.submit submission).2 (submission.ratings c.rules)) ∨
      ∃ error, c.submit submission = (.error error, c) := by
  cases submission with
  | envelope encoded =>
      unfold submit
      dsimp only
      rcases receive_cases c encoded with
        ⟨rating, hopen, hadmissible, hfree, hreceive⟩ | ⟨-, error, hreceive⟩
      · refine .inl ⟨by rw [hreceive], ?_⟩
        rw [hreceive, Submission.ratings, hopen]
        exact grows_insert hadmissible hfree
      · exact .inr ⟨error, hreceive⟩
  | batch sent =>
      unfold submit insertBatch
      dsimp only
      split_ifs with hround
      · exact .inr ⟨_, rfl⟩
      · cases hstage : stage c.rules sent.ratings c.ratings with
        | error error => exact .inr ⟨_, rfl⟩
        | ok staged => exact .inl ⟨rfl, grows_stage hstage⟩

theorem submit_grows (c : RatingCollector) (submission : Submission) :
    Grows c (c.submit submission).2 (submission.ratings c.rules) := by
  rcases submit_cases c submission with ⟨-, h⟩ | ⟨error, h⟩
  · exact h
  · rw [h]
    exact Grows.refl c _

/-- **A run of submissions** keeps what is there and adds admissible ratings that were
carried. -/
theorem submitAll_grows (c : RatingCollector) (submissions : List Submission) :
    Grows c (c.submitAll submissions) (submissions.flatMap (Submission.ratings c.rules)) := by
  induction submissions generalizing c with
  | nil => exact Grows.refl c _
  | cons submission submissions ih =>
      have hstep := submit_grows c submission
      have hrest := ih (c.submit submission).2
      rw [hstep.rules] at hrest
      exact hstep.trans hrest

theorem submitAll_append (c : RatingCollector) (first rest : List Submission) :
    c.submitAll (first ++ rest) = (c.submitAll first).submitAll rest :=
  List.foldl_append

/-! ### Runs of envelopes -/

/-- The admissible rating of an envelope. -/
def carriedBy (rules : RatingRules) (encoded : List Byte) : Option RatingRecord :=
  (rules.openEnvelope encoded).toOption.filter fun rating =>
    (validateSubmission rules .empty rating).isOk

theorem isOk_validateSubmission_empty {rules : RatingRules} :
    (validateSubmission rules .empty rating).isOk = true ↔ Admissible rules rating := by
  have hempty : validateSubmission rules .empty rating = .ok () ↔ Admissible rules rating := by
    rw [validateSubmission_eq_ok, OrderedMap.lookup_empty, and_iff_left rfl]
  rw [← hempty]
  cases validateSubmission rules .empty rating <;> simp [Except.isOk, Except.toBool]

theorem carriedBy_eq_some_iff {rules : RatingRules} {encoded : List Byte} :
    carriedBy rules encoded = some rating ↔
      rules.openEnvelope encoded = .ok rating ∧ Admissible rules rating := by
  unfold carriedBy
  rw [Option.filter_eq_some_iff, isOk_validateSubmission_empty]
  cases rules.openEnvelope encoded <;> simp [Except.toOption]

/-- **What a run of envelopes leaves:** the first admissible rating of each key, unless
there was one before. -/
theorem submitAll_envelopes (c : RatingCollector) (received : List (List Byte)) :
    c.submitAll (received.map .envelope) = ⟨c.rules,
      c.ratings.orInsertAll collectorKey id (received.filterMap (carriedBy c.rules))⟩ := by
  induction received generalizing c with
  | nil => rfl
  | cons encoded received ih =>
      show (c.receive encoded).2.submitAll (received.map .envelope) = _
      rw [List.filterMap_cons]
      rcases receive_cases c encoded with
        ⟨rating, hopen, hadmissible, hfree, hreceive⟩ | ⟨hrefused, error, hreceive⟩
      · have hkept : c.ratings.insert (collectorKey rating) rating =
            c.ratings.orInsert (collectorKey rating) rating := by
          refine OrderedMap.ext_lookup fun k => ?_
          rw [OrderedMap.lookup_insert, OrderedMap.lookup_orInsert, hfree]
          rfl
        rw [hreceive, ih, carriedBy_eq_some_iff.2 ⟨hopen, hadmissible⟩]
        dsimp only
        rw [hkept]
        rfl
      · rw [hreceive, ih]
        cases hcarried : carriedBy c.rules encoded with
        | none => rfl
        | some rating =>
            obtain ⟨hopen, hadmissible⟩ := carriedBy_eq_some_iff.1 hcarried
            obtain ⟨held, hheld⟩ := Option.ne_none_iff_exists'.1 fun hfree =>
              hrefused rating hopen ⟨hadmissible, hfree⟩
            have hkept : c.ratings.orInsert (collectorKey rating) rating = c.ratings := by
              refine OrderedMap.ext_lookup fun k => ?_
              rw [OrderedMap.lookup_orInsert, hheld]
              split_ifs with hk
              · rw [hk, hheld]
                rfl
              · rfl
            show _ = mk c.rules
              ((c.ratings.orInsert (collectorKey rating) rating).orInsertAll collectorKey id _)
            rw [hkept]

/-! ### Complete raters -/

/-- Ratings stand under their keys, one under each. -/
theorem Sound.keys_values (h : c.Sound) : c.ratings.values.map collectorKey = c.ratings.keys := by
  unfold OrderedMap.values OrderedMap.keys
  rw [List.map_map]
  refine List.map_congr_left fun entry hentry => ?_
  exact (h entry.1 entry.2 (OrderedMap.mem_entries_iff.1 hentry)).1

theorem Sound.nodup_values (h : c.Sound) : (c.ratings.values.map collectorKey).Nodup := by
  rw [h.keys_values]
  exact (Keyed.ascending_iff_map.1 c.ratings.ascending).imp fun hlt => hlt.ne

theorem Sound.mem_values_iff (h : c.Sound) :
    rating ∈ c.ratings.values ↔ c.ratings.lookup (collectorKey rating) = some rating := by
  rw [OrderedMap.mem_values_iff]
  constructor
  · rintro ⟨k, hlookup⟩
    rwa [(h k rating hlookup).1]
  · exact fun hlookup => ⟨_, hlookup⟩

theorem Sound.admissible (h : c.Sound) (hrating : rating ∈ c.ratings.values) :
    Admissible c.rules rating := (h _ _ (h.mem_values_iff.1 hrating)).2

/-- What is expected of a rater, and is there. -/
theorem Admissible.mem_expected {rules : RatingRules} (h : Admissible rules rating)
    {expected : List ExpectedRating} (hexpected : rules.expected rating.rater = .ok expected) :
    rating.recipient ∈ expected.map ExpectedRating.recipient := by
  obtain ⟨found, hfound, interaction, hfind, hsaid⟩ := h.said
  obtain rfl := Except.ok.inj (hfound.symm.trans hexpected)
  exact List.mem_map.2 ⟨interaction, List.mem_of_find?_eq_some hfind, hsaid.recipient.symm⟩

/-- The accepted ratings of a rater. -/
def ratingsOf (c : RatingCollector) (rater : NodeId) : List RatingRecord :=
  c.ratings.values.filter fun rating => rating.rater = rater

theorem mem_recipients_iff {rater recipient : NodeId} :
    recipient ∈ (c.ratingsOf rater).map RatingRecord.recipient ↔
      ∃ rating ∈ c.ratings.values, rating.rater = rater ∧ rating.recipient = recipient := by
  unfold ratingsOf
  simp only [List.mem_map, List.mem_filter, decide_eq_true_eq, and_assoc]

theorem Sound.nodup_recipients (h : c.Sound) (rater : NodeId) :
    ((c.ratingsOf rater).map RatingRecord.recipient).Nodup := by
  have hkeys := h.nodup_values
  unfold ratingsOf
  rw [List.Nodup, List.pairwise_map] at hkeys ⊢
  refine (hkeys.filter _).imp_of_mem fun {a b} ha hb hne heq => hne ?_
  have hra : a.rater = rater := by simpa using (List.mem_filter.1 ha).2
  have hrb : b.rater = rater := by simpa using (List.mem_filter.1 hb).2
  unfold collectorKey
  rw [hra, hrb, heq]

/-- **As many ratings as expected are all that are expected**: each stands for another
recipient, and for one that is expected. -/
theorem Sound.length_eq_iff (h : c.Sound) (hlawful : c.rules.Lawful) {rater : NodeId}
    {expected : List ExpectedRating} (hexpected : c.rules.expected rater = .ok expected) :
    (c.ratingsOf rater).length = expected.length ↔ ∀ interaction ∈ expected,
      ∃ rating ∈ c.ratings.values, rating.rater = rater ∧
        rating.recipient = interaction.recipient := by
  have hsub : (c.ratingsOf rater).map RatingRecord.recipient ⊆
      expected.map ExpectedRating.recipient := by
    intro recipient hrecipient
    obtain ⟨rating, hrating, rfl, rfl⟩ := mem_recipients_iff.1 hrecipient
    exact (h.admissible hrating).mem_expected hexpected
  have hsubperm := List.subperm_of_subset (h.nodup_recipients rater) hsub
  rw [← List.length_map RatingRecord.recipient, ← List.length_map ExpectedRating.recipient]
  constructor
  · intro hlength interaction hinteraction
    have hperm := hsubperm.perm_of_length_le hlength.ge
    exact mem_recipients_iff.1 (hperm.mem_iff.2 (List.mem_map_of_mem hinteraction))
  · intro hall
    refine le_antisymm hsubperm.length_le ?_
    refine (List.subperm_of_subset (hlawful.distinct hexpected) fun recipient hrecipient => ?_).length_le
    obtain ⟨interaction, hinteraction, rfl⟩ := List.mem_map.1 hrecipient
    exact mem_recipients_iff.2 (hall interaction hinteraction)

/-- Whether a rater is complete. -/
def isComplete (c : RatingCollector) (rater : NodeId) : Bool :=
  match c.isRaterComplete rater with
  | .ok complete => complete
  | .error _ => false

/-- **A rater with an accepted rating** is complete or not, without an error. -/
theorem Sound.isRaterComplete_eq (h : c.Sound) (hlawful : c.rules.Lawful)
    (hrating : rating ∈ c.ratings.values) :
    c.isRaterComplete rating.rater = .ok (c.isComplete rating.rater) := by
  have hadmissible := h.admissible hrating
  obtain ⟨expected, hexpected, interaction, hfind, -⟩ := hadmissible.said
  have hvalid := hlawful.rater hexpected (List.ne_nil_of_mem (List.mem_of_find?_eq_some hfind))
  unfold isComplete isRaterComplete
  rw [hadmissible.authorized, hvalid, hexpected]
  rfl

theorem isRaterComplete_true_iff {rater : NodeId} :
    c.isRaterComplete rater = .ok true ↔ c.rules.authorized rater = true ∧
      c.rules.validateRater rater = .ok () ∧ ∃ expected, c.rules.expected rater = .ok expected ∧
        (c.ratingsOf rater).length = expected.length := by
  unfold isRaterComplete ratingsOf
  rw [guard_eq_ok, check_eq_ok, bind_eq_ok, Bool.not_eq_true',
    Bool.not_eq_false]
  simp only [Except.ok.injEq, decide_eq_true_eq]

theorem isComplete_iff {rater : NodeId} :
    c.isComplete rater = true ↔ c.isRaterComplete rater = .ok true := by
  unfold isComplete
  cases c.isRaterComplete rater <;> simp

/-- The loop that collects the complete raters. -/
theorem completeOf_spec {raters : List NodeId}
    (h : ∀ rater ∈ raters, c.isRaterComplete rater = .ok (c.isComplete rater)) :
    ∃ complete, c.completeOf raters = .ok complete ∧
      ∀ rater, rater ∈ complete ↔ rater ∈ raters ∧ c.isComplete rater = true := by
  have hloop : ∀ (raters : List NodeId) (start : OrderedSet NodeId),
      (∀ rater ∈ raters, c.isRaterComplete rater = .ok (c.isComplete rater)) →
      ∃ complete, (raters.foldlM (fun complete rater => do
        let isComplete ← c.isRaterComplete rater
        .ok (if isComplete then complete.insert rater else complete)) start :
          Except PorRatingCollectorError (OrderedSet NodeId)) = .ok complete ∧
        ∀ rater, rater ∈ complete ↔ rater ∈ start ∨ rater ∈ raters ∧ c.isComplete rater = true := by
    intro raters
    induction raters with
    | nil => exact fun start _ => ⟨start, rfl, fun rater => by simp⟩
    | cons rater raters ih =>
        intro start h
        obtain ⟨hrater, hraters⟩ := List.forall_mem_cons.1 h
        obtain ⟨complete, hcomplete, hmem⟩ :=
          ih (if c.isComplete rater then start.insert rater else start) hraters
        refine ⟨complete, ?_, fun other => ?_⟩
        · rw [List.foldlM_cons, hrater]
          exact hcomplete
        · rw [hmem, List.mem_cons]
          split_ifs with hyes
          · rw [OrderedSet.mem_insert]
            constructor
            · rintro ((rfl | hstart) | ⟨hin, hc⟩)
              · exact .inr ⟨.inl rfl, hyes⟩
              · exact .inl hstart
              · exact .inr ⟨.inr hin, hc⟩
            · rintro (hstart | ⟨rfl | hin, hc⟩)
              · exact .inl (.inr hstart)
              · exact .inl (.inl rfl)
              · exact .inr ⟨hin, hc⟩
          · constructor
            · rintro (hstart | ⟨hin, hc⟩)
              · exact .inl hstart
              · exact .inr ⟨.inr hin, hc⟩
            · rintro (hstart | ⟨rfl | hin, hc⟩)
              · exact .inl hstart
              · exact absurd hc hyes
              · exact .inr ⟨hin, hc⟩
  obtain ⟨complete, hcomplete, hmem⟩ := hloop raters .empty h
  exact ⟨complete, hcomplete, fun rater => by simp [hmem]⟩

/-- **The complete batch** has the ratings of the complete raters, and is always built. -/
theorem Sound.buildCompleteBatch_eq (h : c.Sound) (hlawful : c.rules.Lawful) :
    c.buildCompleteBatch = .ok ⟨c.rules.round, sortRatings
      (c.ratings.values.filter fun rating => c.isComplete rating.rater)⟩ := by
  have hraters : ∀ rater, rater ∈ c.raters ↔ ∃ rating ∈ c.ratings.values, rating.rater = rater := by
    intro rater
    unfold raters
    rw [mem_foldl_insert, List.mem_map]
    simp
  have hdecided : ∀ rater ∈ c.raters.toList,
      c.isRaterComplete rater = .ok (c.isComplete rater) := by
    intro rater hrater
    obtain ⟨rating, hrating, rfl⟩ := (hraters rater).1 (OrderedSet.mem_toList.1 hrater)
    exact h.isRaterComplete_eq hlawful hrating
  obtain ⟨complete, hcomplete, hmem⟩ := completeOf_spec hdecided
  have hfilter : (c.ratings.values.filter fun rating => rating.rater ∈ complete) =
      c.ratings.values.filter fun rating => c.isComplete rating.rater := by
    refine List.filter_congr fun rating hrating => ?_
    rw [Bool.eq_iff_iff, decide_eq_true_eq, hmem, OrderedSet.mem_toList, hraters]
    exact and_iff_right ⟨rating, hrating, rfl⟩
  have hverified : ∀ rating ∈ c.ratings.values.filter fun rating => c.isComplete rating.rater,
      validateSignedOf c.rules.crypto c.rules.payload rating c.rules.config = .ok () ∧
        rating.round = c.rules.round := by
    intro rating hrating
    have hadmissible := h.admissible (List.mem_filter.1 hrating).1
    obtain ⟨_, _, _, _, hsaid⟩ := hadmissible.said
    exact ⟨hadmissible.signed, hsaid.round⟩
  have hdistinct : ((c.ratings.values.filter fun rating => c.isComplete rating.rater).map
      ratingKey).Nodup := by
    have hkeys := h.nodup_values
    rw [List.Nodup, List.pairwise_map] at hkeys ⊢
    refine (hkeys.filter _).imp fun {a b} hne heq => hne ?_
    obtain ⟨hrecipient, hrater⟩ : a.recipient = b.recipient ∧ a.rater = b.rater :=
      Prod.mk.inj (toLex.injective heq)
    unfold collectorKey
    rw [hrecipient, hrater]
  unfold buildCompleteBatch
  refine bind_eq_ok.2 ⟨complete, hcomplete, ?_⟩
  refine check_eq_ok.2 ⟨mapError_eq_ok.2 hlawful.source, ?_⟩
  rw [mapError_eq_ok, hfilter]
  unfold buildVerifiedOf
  refine check_eq_ok.2
    ⟨forM_eq_ok.2 fun rating hrating => (hverified rating hrating).1, ?_⟩
  rw [mapError_eq_ok]
  exact buildRatingBatch_eq_ok.2 ⟨fun rating hrating =>
    ⟨(hverified rating hrating).2, validateSignedOf_policy (hverified rating hrating).1⟩, hdistinct,
    rfl⟩

/-! ### Up to signatures -/

theorem length_ratingsOf (c : RatingCollector) (rater : NodeId) : (c.ratingsOf rater).length =
    ((c.ratings.map RatingRecord.unsigned).values.filter fun rating => rating.rater = rater).length := by
  rw [OrderedMap.values_map, List.filter_map, List.length_map]
  rfl

/-- Signatures do not decide about completeness. -/
theorem isRaterComplete_congr (hrules : c.rules = c'.rules)
    (h : c.ratings.map RatingRecord.unsigned = c'.ratings.map RatingRecord.unsigned)
    (rater : NodeId) : c.isRaterComplete rater = c'.isRaterComplete rater := by
  have hlength : (c.ratingsOf rater).length = (c'.ratingsOf rater).length := by
    rw [length_ratingsOf, length_ratingsOf, h]
  unfold ratingsOf at hlength
  unfold isRaterComplete
  rw [hlength, hrules]

/-- Signatures aside, the complete batch depends on the ratings without signatures. -/
theorem unsigned_complete (c : RatingCollector) :
    (c.ratings.values.filter fun rating => c.isComplete rating.rater).map RatingRecord.unsigned =
      (c.ratings.map RatingRecord.unsigned).values.filter fun rating => c.isComplete rating.rater := by
  rw [OrderedMap.values_map, List.filter_map]
  rfl

/-- No rater has signed two ratings for one recipient. -/
def OneRatingEach (rules : RatingRules) (received : List (List Byte)) : Prop :=
  ∀ first ∈ received, ∀ second ∈ received, ∀ rating rating',
    rules.openEnvelope first = .ok rating → rules.openEnvelope second = .ok rating' →
    validateSignedOf rules.crypto rules.payload rating rules.config = .ok () →
    validateSignedOf rules.crypto rules.payload rating' rules.config = .ok () →
    rating.rater = rating'.rater → rating.recipient = rating'.recipient → rating = rating'

/-- A collector as it comes from either constructor. -/
inductive Opened (crypto : RatingCrypto) : RatingCollector → Prop
  | wave {B : Blocklace} {output : OrderedFinalizedOutput} {state : ReputationState}
      {config : PorConfig} {opened : FinalizedRatingRound} {c : RatingCollector}
      (h : BlockProductionRatingCollector.new crypto B output state config opened = .ok c) :
      Opened crypto c
  | checkpoint {B : Blocklace} {output : OrderedFinalizedOutput} {state : ReputationState}
      {config : PorConfig} {checkpoint : FinalizedPrefixCheckpoint} {authorizedRaters : List NodeId}
      {c : RatingCollector} (h : CheckpointBlockProductionRatingCollector.new crypto B output state
        config checkpoint authorizedRaters = .ok c) : Opened crypto c

theorem Opened.lawful {crypto : RatingCrypto} (h : Opened crypto c) :
    c.rules.Lawful ∧ c.ratings = .empty := by
  cases h with
  | wave h =>
      obtain ⟨-, -, rfl⟩ := BlockProductionRatingCollector.new_eq_ok.1 h
      exact ⟨lawful_waveRules, rfl⟩
  | checkpoint h =>
      obtain ⟨hwindow, -, rfl⟩ := CheckpointBlockProductionRatingCollector.new_eq_ok.1 h
      exact ⟨lawful_checkpointRules hwindow, rfl⟩

/-- Two runs of the same envelopes, at a key. -/
theorem lookup_envelopes_congr {received received' : List (List Byte)}
    (hsame : ∀ encoded, encoded ∈ received ↔ encoded ∈ received') {μ : Type}
    {f : RatingRecord → μ} (hf : ∀ first ∈ received, ∀ second ∈ received, ∀ rating rating',
      carriedBy c.rules first = some rating → carriedBy c.rules second = some rating' →
      collectorKey rating = collectorKey rating' → f rating = f rating')
    (k : NodeId ×ₗ NodeId) :
    ((c.submitAll (received.map .envelope)).ratings.lookup k).map f =
      ((c.submitAll (received'.map .envelope)).ratings.lookup k).map f := by
  rw [submitAll_envelopes, submitAll_envelopes]
  refine OrderedMap.lookup_orInsertAll_congr (fun rating => ?_) fun a ha b hb hkey => ?_
  · simp only [List.mem_filterMap, hsame]
  · obtain ⟨first, hfirst, ha⟩ := List.mem_filterMap.1 ha
    obtain ⟨second, hsecond, hb⟩ := List.mem_filterMap.1 hb
    exact hf first hfirst second hsecond a b ha hb hkey

/-- **Collection does not depend on the order of arrival.**  Whatever a collector has
been sent before, two runs of the same envelopes leave the same ratings, the same
complete raters and the same complete batch: signatures aside, and where no rater has
signed two ratings for one recipient, signatures included.  A refused submission changes
nothing.  The complete batch has ratings of those raters only of whom it has all that
are expected, each of them received. -/
theorem collection_order_independent (crypto : RatingCrypto) (c : RatingCollector)
    (hopened : Opened crypto c) (history : List Submission) (received received' : List (List Byte))
    (hsame : ∀ encoded, encoded ∈ received ↔ encoded ∈ received') :
    let before := c.submitAll history
    let out := before.submitAll (received.map .envelope)
    let out' := before.submitAll (received'.map .envelope)
    (out.ratings.map RatingRecord.unsigned = out'.ratings.map RatingRecord.unsigned ∧
      (∀ rater, out.isRaterComplete rater = out'.isRaterComplete rater) ∧
      ∃ batch batch', out.buildCompleteBatch = .ok batch ∧ out'.buildCompleteBatch = .ok batch' ∧
        batch.unsigned = batch'.unsigned) ∧
    (OneRatingEach c.rules received → out.ratings = out'.ratings ∧
      (∀ rater, out.isRaterComplete rater = out'.isRaterComplete rater) ∧
      out.buildCompleteBatch = out'.buildCompleteBatch) ∧
    (∀ submission error, (before.submit submission).1 = .error error →
      (before.submit submission).2 = before) ∧
    ∀ batch, before.buildCompleteBatch = .ok batch → ∀ rating ∈ batch.ratings, ∃ expected,
      c.rules.expected rating.rater = .ok expected ∧ ∀ interaction ∈ expected,
        ∃ found ∈ batch.ratings, found.rater = rating.rater ∧
          found.recipient = interaction.recipient ∧
          ∃ submission ∈ history, found ∈ submission.ratings c.rules := by
  intro before out out'
  obtain ⟨hlawful, hempty⟩ := hopened.lawful
  have hbefore := submitAll_grows c history
  have hsound : before.Sound := hbefore.sound fun k rating h => by
    rw [hempty, OrderedMap.lookup_empty] at h
    exact absurd h (by simp)
  have hout := submitAll_grows before (received.map .envelope)
  have hout' := submitAll_grows before (received'.map .envelope)
  have hunsigned : out.ratings.map RatingRecord.unsigned = out'.ratings.map RatingRecord.unsigned := by
    refine OrderedMap.ext_lookup fun k => ?_
    rw [OrderedMap.lookup_map, OrderedMap.lookup_map]
    refine lookup_envelopes_congr hsame (fun _ _ _ _ rating rating' h h' hkey => ?_) k
    exact (carriedBy_eq_some_iff.1 h).2.unsigned_eq (carriedBy_eq_some_iff.1 h').2 hkey
  have hcomplete := isRaterComplete_congr (hout.rules.trans hout'.rules.symm) hunsigned
  have hbatch := (hout.sound hsound).buildCompleteBatch_eq (by rwa [hout.rules, hbefore.rules])
  have hbatch' := (hout'.sound hsound).buildCompleteBatch_eq (by rwa [hout'.rules, hbefore.rules])
  refine ⟨⟨hunsigned, hcomplete, _, _, hbatch, hbatch', ?_⟩, fun hone => ?_, ?_, ?_⟩
  · have hsame' : out.isComplete = out'.isComplete := by
      funext rater
      unfold isComplete
      rw [hcomplete]
    unfold RatingBatch.unsigned
    dsimp only
    rw [map_sortRatings_unsigned, map_sortRatings_unsigned, unsigned_complete, unsigned_complete,
      hunsigned, hsame', hout.rules, hout'.rules]
  · have heq : out.ratings = out'.ratings := by
      refine OrderedMap.ext_lookup fun k => ?_
      have hlookup := lookup_envelopes_congr (c := before) (f := id) hsame
        (fun first hfirst second hsecond rating rating' h h' hkey => ?_) k
      · simpa only [Option.map_id_fun, id] using hlookup
      · rw [carriedBy_eq_some_iff, hbefore.rules] at h h'
        obtain ⟨hrater, hrecipient⟩ : rating.rater = rating'.rater ∧
            rating.recipient = rating'.recipient := Prod.mk.inj (toLex.injective hkey)
        exact hone first hfirst second hsecond rating rating' h.1 h'.1 h.2.signed h'.2.signed
          hrater hrecipient
    have hsame' : out = out' := by
      have hrules := hout.rules.trans hout'.rules.symm
      show mk out.rules out.ratings = mk out'.rules out'.ratings
      rw [heq]
      exact congrArg (mk · _) hrules
    exact ⟨heq, hcomplete, by rw [hsame']⟩
  · intro submission error herror
    rcases submit_cases before submission with ⟨hok, -⟩ | ⟨error', hrefused⟩
    · rw [hok] at herror
      exact absurd herror (by simp)
    · rw [hrefused]
  · intro batch hbuilt rating hrating
    rw [hsound.buildCompleteBatch_eq (by rwa [hbefore.rules]), Except.ok.injEq] at hbuilt
    subst hbuilt
    have hmem : ∀ rating, rating ∈ sortRatings (before.ratings.values.filter fun rating =>
        before.isComplete rating.rater) ↔
        rating ∈ before.ratings.values ∧ before.isComplete rating.rater = true := fun rating => by
      rw [(perm_sortRatings _).mem_iff, List.mem_filter]
    obtain ⟨hthere, hyes⟩ := (hmem rating).1 hrating
    obtain ⟨-, -, expected, hexpected, hlength⟩ :=
      isRaterComplete_true_iff.1 (isComplete_iff.1 hyes)
    refine ⟨expected, hbefore.rules ▸ hexpected, fun interaction hinteraction => ?_⟩
    obtain ⟨found, hfound, hrater, hrecipient⟩ :=
      (hsound.length_eq_iff (by rwa [hbefore.rules]) hexpected).1 hlength interaction hinteraction
    refine ⟨found, (hmem found).2 ⟨hfound, hrater ▸ hyes⟩, hrater, hrecipient, ?_⟩
    rcases hbefore.new _ found (hsound.mem_values_iff.1 hfound) with hold | ⟨hcarried, -⟩
    · rw [hempty, OrderedMap.lookup_empty] at hold
      exact absurd hold (by simp)
    · exact List.mem_flatMap.1 hcarried

end RatingCollector

/-! ### A wave of three creators -/

open Blocklace (sampleBlock)

/-- An identity under a key of 33 bytes. -/
def keyedIdentity (creator : Byte) : BlockIdentity :=
  ⟨Fin.ofNat _ creator.val, ⟨List.replicate 33 creator⟩, [creator]⟩

/-- Three genesis blocks. -/
def ratedLace : Blocklace :=
  (Blocklace.new 0).growBy [sampleBlock (keyedIdentity 1) [], sampleBlock (keyedIdentity 2) [],
    sampleBlock (keyedIdentity 3) []]

/-- Their finalized wave. -/
def ratedOutput : OrderedFinalizedOutput :=
  ⟨[keyedIdentity 1, keyedIdentity 2, keyedIdentity 3], some (keyedIdentity 1), 1⟩

/-- Every creator has a reputation. -/
def ratedState : ReputationState :=
  (((ReputationState.new 0).setReputation (keyedIdentity 1).creator 5).setReputation
    (keyedIdentity 2).creator 5).setReputation (keyedIdentity 3).creator 5

/-- A key of 33 bytes signs with one byte, and two such signatures are accepted. -/
def keyedCrypto : RatingCrypto where
  hasher := sumHasher
  sign _ _ := .ok [9]
  verify _ key signature := key.length = 33 ∧ (signature = [9] ∨ signature = [8])

/-- The envelopes of the first creator. -/
def ratedEnvelopes : List (List Byte) :=
  ((buildFinalizedBlockProductionRatingBatch keyedCrypto ratedLace ratedOutput ⟨0, 1⟩
      (keyedIdentity 1).creator ratedState .default []).toOption.bind fun batch =>
    (@encodeRatingBatch Unit 0 batch).toOption).getD []

/-- The hypotheses of `collection_order_independent` are met by a wave collector: the first
creator is complete and the batch the same whichever envelope comes first. -/
theorem collection_order_independent_wave :
    ∃ c, RatingCollector.Opened keyedCrypto c ∧
      (c.submitAll (ratedEnvelopes.map .envelope)).isRaterComplete (keyedIdentity 1).creator =
        .ok true ∧
      (c.submitAll (ratedEnvelopes.reverse.map .envelope)).isRaterComplete
        (keyedIdentity 1).creator = .ok true ∧
      (c.submitAll (ratedEnvelopes.map .envelope)).buildCompleteBatch =
        (c.submitAll (ratedEnvelopes.reverse.map .envelope)).buildCompleteBatch := by
  have hnew : (BlockProductionRatingCollector.new keyedCrypto ratedLace ratedOutput ratedState
      .default ⟨0, 1⟩).isOk = true := by decide +kernel
  obtain ⟨c, hc⟩ := Codec.exists_eq_ok_of_isOk hnew
  let rules := waveRules keyedCrypto ratedLace ratedOutput ratedState .default ⟨0, 1⟩
  have hcomplete : (RatingCollector.submitAll ⟨rules, .empty⟩
      (ratedEnvelopes.map .envelope)).isComplete (keyedIdentity 1).creator = true := by
    decide +kernel
  have hapart : ((ratedEnvelopes.filterMap fun encoded =>
      (rules.openEnvelope encoded).toOption).map collectorKey).Nodup := by decide +kernel
  have hone : RatingCollector.OneRatingEach rules ratedEnvelopes :=
    fun first hfirst second hsecond rating rating' h h' _ _ hrater hrecipient =>
      List.inj_on_of_nodup_map hapart
        (List.mem_filterMap.2 ⟨first, hfirst, congrArg Except.toOption h⟩)
        (List.mem_filterMap.2 ⟨second, hsecond, congrArg Except.toOption h'⟩)
        (congrArg toLex (Prod.ext hrater hrecipient))
  obtain ⟨-, -, rfl⟩ := BlockProductionRatingCollector.new_eq_ok.1 hc
  rw [RatingCollector.isComplete_iff] at hcomplete
  have horder := RatingCollector.collection_order_independent keyedCrypto _ (.wave hc) []
    ratedEnvelopes ratedEnvelopes.reverse (by simp)
  exact ⟨_, .wave hc, hcomplete, (horder.1.2.1 _).symm.trans hcomplete, (horder.2.1 hone).2.2⟩

end CordialMiners.Reputation
