/-
# Replays in any order of their inputs

The ratings of a round and the events of its penalties reach the nodes in different orders.

A batch is sorted by recipient and rater, which no two ratings of it share, and the events by
offender, of which a commitment lets no two be the same; so batch and commitments are those of
any order (`buildRatingBatch_perm`, `penaltyEventsCommitment_perm`).  The penalties are applied
in the order of the events, but their steps commute: the grouping loop adds weights and
remembers offenders, and the loops behind it change the entries of different offenders
(`applyReputationPenalties_perm`).
-/

import CordialMiners.Reputation.Stages

namespace CordialMiners.Reputation

open Codec (bind_eq_ok check_eq_ok guard_eq_ok)
open Permuted

variable {hasher : List Byte → ContentHash} {previous : ReputationVector}
  {ratings ratings' : List RatingRecord} {round : U64} {config : PorConfig}

/-! ### Ratings -/

/-- **A batch is that of its ratings in any order.** -/
theorem buildRatingBatch_perm (hperm : ratings.Perm ratings') {batch : RatingBatch}
    (h : buildRatingBatch round ratings config = .ok batch) :
    buildRatingBatch round ratings' config = .ok batch := by
  obtain ⟨hall, hdistinct, rfl⟩ := buildRatingBatch_eq_ok.1 h
  refine buildRatingBatch_eq_ok.2 ⟨fun rating hrating => hall rating (hperm.mem_iff.2 hrating),
    (hperm.map ratingKey).nodup_iff.1 hdistinct, ?_⟩
  have hsorted : sortRatings ratings = sortRatings ratings' :=
    insertionSort_eq_of_perm ratingKey hperm fun a ha b hb =>
      List.inj_on_of_nodup_map hdistinct ha hb
  rw [hsorted]

/-- The calculation of a round is that of its ratings in any order. -/
theorem calculateRound_perm (hperm : ratings.Perm ratings') {clamped : ReputationVector}
    (h : calculateRound previous ratings round config = .ok clamped) :
    calculateRound previous ratings' round config = .ok clamped := by
  obtain ⟨batch, hbatch, h⟩ := bind_eq_ok.1 h
  exact bind_eq_ok.2 ⟨batch, buildRatingBatch_perm hperm hbatch, h⟩

/-! ### Events -/

/-- The same events in another order. -/
structure ReputationPenaltyEvents.Reordered (events events' : ReputationPenaltyEvents) : Prop where
  round : events'.round = events.round
  equivocations : events.equivocations.Perm events'.equivocations
  inactivity : events.inactivity.Perm events'.inactivity

/-- A loop that takes no offender twice. -/
theorem nodup_of_foldlM_put {β : Type} {step : PenaltyPayload → β → Except PorError PenaltyPayload}
    {offender : β → NodeId} {events : List β} {start out : PenaltyPayload}
    (h : events.foldlM step start = .ok out) (hstart : start.seen.Nodup)
    (hstep : ∀ state event out, step state event = .ok out →
      offender event ∉ state.seen ∧ out.seen = offender event :: state.seen) :
    out.seen.Nodup ∧ out.seen = (events.map offender).reverse ++ start.seen := by
  induction events generalizing start with
  | nil =>
      obtain rfl := Except.ok.inj h
      exact ⟨hstart, rfl⟩
  | cons event events ih =>
      rw [List.foldlM_cons] at h
      obtain ⟨mid, hmid, h⟩ := bind_eq_ok.1 h
      obtain ⟨hnew, hseen⟩ := hstep _ _ _ hmid
      obtain ⟨hnodup, hout⟩ := ih h (hseen ▸ List.nodup_cons.2 ⟨hnew, hstart⟩)
      exact ⟨hnodup, by rw [hout, hseen]; simp⟩

theorem seen_putEquivocation {state out : PenaltyPayload} {event : EquivocationPenalty}
    (h : state.putEquivocation hasher round event = .ok out) :
    event.offender ∉ state.seen ∧ out.seen = event.offender :: state.seen := by
  obtain ⟨-, h⟩ := check_eq_ok.1 h
  obtain ⟨hbad, h⟩ := guard_eq_ok.1 h
  obtain ⟨-, h⟩ := guard_eq_ok.1 h
  obtain rfl := Except.ok.inj h
  exact ⟨(not_or.1 hbad).1, rfl⟩

theorem seen_putInactivity {state out : PenaltyPayload} {event : InactivityPenalty}
    (h : state.putInactivity event = .ok out) :
    event.offender ∉ state.seen ∧ out.seen = event.offender :: state.seen := by
  obtain ⟨hbad, h⟩ := guard_eq_ok.1 h
  obtain ⟨-, h⟩ := guard_eq_ok.1 h
  obtain rfl := Except.ok.inj h
  exact ⟨(not_or.1 hbad).1, rfl⟩

/-- A commitment is to events of different offenders. -/
theorem nodup_of_commitPenalties {equivocations : List EquivocationPenalty}
    {inactivity : List InactivityPenalty} {commitment : ReputationCommitment}
    (h : commitPenalties hasher round equivocations inactivity = .ok commitment) :
    (equivocations.map EquivocationPenalty.offender).Nodup ∧
      (inactivity.map InactivityPenalty.offender).Nodup := by
  obtain ⟨state, hstate, h⟩ := bind_eq_ok.1 h
  obtain ⟨final, hfinal, -⟩ := bind_eq_ok.1 h
  obtain ⟨hnodup, hseen⟩ :=
    nodup_of_foldlM_put hstate List.nodup_nil fun _ _ _ => seen_putEquivocation
  obtain ⟨hnodup', hseen'⟩ :=
    nodup_of_foldlM_put hfinal hnodup fun _ _ _ => seen_putInactivity
  rw [hseen, List.append_nil, List.nodup_reverse] at hnodup
  rw [hseen'] at hnodup'
  exact ⟨hnodup, List.nodup_reverse.1 (List.nodup_append.1 hnodup').1⟩

/-- **The commitment to events is that of any order.** -/
theorem penaltyEventsCommitment_perm {events events' : ReputationPenaltyEvents}
    (horder : events.Reordered events') {commitment : ReputationCommitment}
    (h : penaltyEventsCommitment hasher round (some events) = .ok commitment) :
    penaltyEventsCommitment hasher round (some events') = .ok commitment := by
  obtain ⟨hround, h⟩ := guard_eq_ok.1 h
  obtain ⟨hcount, h⟩ := guard_eq_ok.1 h
  obtain ⟨hnodup, hnodup'⟩ := nodup_of_commitPenalties h
  rw [((List.perm_insertionSort _ _).map _).nodup_iff] at hnodup hnodup'
  have hequivocations :=
    insertionSort_eq_of_perm EquivocationPenalty.offender horder.equivocations
      fun a ha b hb => List.inj_on_of_nodup_map hnodup ha hb
  have hinactivity := insertionSort_eq_of_perm InactivityPenalty.offender horder.inactivity
    fun a ha b hb => List.inj_on_of_nodup_map hnodup' ha hb
  refine guard_eq_ok.2 ⟨by rwa [horder.round], guard_eq_ok.2 ⟨?_, ?_⟩⟩
  · rwa [← horder.equivocations.length_eq, ← horder.inactivity.length_eq]
  · rwa [← hequivocations, ← hinactivity]

/-! ### Penalties -/

/-- The weights with the previous reputation of an offender added to one round. -/
def addWeight (previous : ReputationVector) (weights : ℕ → ℕ) (proofRound : ℕ)
    (offender : NodeId) : ℕ → ℕ :=
  Function.update weights proofRound (weights proofRound + priorReputation previous offender)

theorem addWeight_apply (weights : ℕ → ℕ) (proofRound : ℕ) (offender : NodeId) (r : ℕ) :
    addWeight previous weights proofRound offender r =
      weights r + if r = proofRound then priorReputation previous offender else 0 := by
  unfold addWeight
  rw [Function.update_apply]
  split_ifs with h
  · rw [h]
  · rfl

/-- Weights add up in any order. -/
theorem addWeight_comm (weights : ℕ → ℕ) (r r' : ℕ) (offender offender' : NodeId) :
    addWeight previous (addWeight previous weights r offender) r' offender' =
      addWeight previous (addWeight previous weights r' offender') r offender := by
  funext k
  simp only [addWeight_apply]
  omega

/-- **A step of the grouping loop.** -/
theorem scanEquivocation_eq_ok {scan out : PenaltyScan} {event : EquivocationPenalty} :
    scanEquivocation hasher previous round scan event = .ok out ↔
      event.Accepted hasher previous round ∧ event.offender ∉ scan.seen ∧
        ∃ proofRound, event.CountsFor proofRound ∧
          addWeight previous scan.weights proofRound event.offender proofRound < 2 ^ 128 ∧
          out = ⟨event.offender :: scan.seen,
            addWeight previous scan.weights proofRound event.offender⟩ := by
  have hprior : ∀ {prior}, priorEntry previous event.offender = .ok prior →
      priorReputation previous event.offender = prior.reputation.val := by
    intro prior h
    unfold priorReputation
    rw [(priorEntry_eq_ok.1 h).1]
    rfl
  have hadd : ∀ {weight total : ℕ} {proofRound : ℕ},
      okOr PorError.slashOverflow (checkedAdd128 (scan.weights proofRound) weight) = .ok total ↔
        scan.weights proofRound + weight < 2 ^ 128 ∧ total = scan.weights proofRound + weight := by
    intro weight total proofRound
    rw [okOr_eq_ok, checkedAdd128]
    split_ifs with hfits
    · rw [Option.some.injEq, and_iff_right hfits, eq_comm]
    · exact iff_of_false (by simp) fun h => hfits h.1
  constructor
  · intro h
    obtain ⟨hauthorized, h⟩ := check_eq_ok.1 h
    obtain ⟨hbad, h⟩ := guard_eq_ok.1 h
    obtain ⟨hnew, hevidence⟩ := not_or.1 hbad
    obtain ⟨proofRound, hproof, h⟩ := bind_eq_ok.1 h
    obtain ⟨prior, hfound, h⟩ := bind_eq_ok.1 h
    obtain ⟨total, htotal, h⟩ := bind_eq_ok.1 h
    obtain ⟨hfits, rfl⟩ := hadd.1 htotal
    refine ⟨⟨hauthorized, hevidence, prior, hfound⟩, hnew, proofRound,
      proofRound_eq_ok.1 hproof, ?_, ?_⟩
    · rwa [addWeight, Function.update_self, hprior hfound]
    · rw [addWeight, hprior hfound]
      exact (Except.ok.inj h).symm
  · rintro ⟨haccepted, hnew, proofRound, hcounts, hfits, rfl⟩
    obtain ⟨prior, hfound⟩ := haccepted.active
    rw [addWeight, Function.update_self, hprior hfound] at hfits
    refine check_eq_ok.2 ⟨haccepted.authorized, guard_eq_ok.2
      ⟨not_or.2 ⟨hnew, haccepted.evidence_ne⟩, bind_eq_ok.2 ⟨proofRound,
        proofRound_eq_ok.2 hcounts, bind_eq_ok.2 ⟨prior, hfound,
          bind_eq_ok.2 ⟨_, hadd.2 ⟨hfits, rfl⟩, ?_⟩⟩⟩⟩⟩
    rw [addWeight, hprior hfound]

/-- The same offenders seen, with the same weights. -/
structure PenaltyScan.Same (scan scan' : PenaltyScan) : Prop where
  seen : ∀ id, id ∈ scan.seen ↔ id ∈ scan'.seen
  weights : scan.weights = scan'.weights

theorem PenaltyScan.same_equivalence : Equivalence PenaltyScan.Same where
  refl _ := ⟨fun _ => Iff.rfl, rfl⟩
  symm h := ⟨fun id => (h.seen id).symm, h.weights.symm⟩
  trans h h' := ⟨fun id => (h.seen id).trans (h'.seen id), h.weights.trans h'.weights⟩

theorem PenaltyScan.Same.cons {scan scan' : PenaltyScan} (h : scan.Same scan') (id : NodeId)
    (weights : ℕ → ℕ) : PenaltyScan.Same ⟨id :: scan.seen, weights⟩ ⟨id :: scan'.seen, weights⟩ :=
  ⟨fun other => by rw [List.mem_cons, List.mem_cons, h.seen], rfl⟩

theorem scanEquivocation_respects (event : EquivocationPenalty) :
    Respects PenaltyScan.Same (scanEquivocation hasher previous round) event := by
  intro scan scan' hsame out h
  obtain ⟨haccepted, hnew, proofRound, hcounts, hfits, rfl⟩ := scanEquivocation_eq_ok.1 h
  rw [hsame.seen] at hnew
  rw [hsame.weights] at hfits ⊢
  exact ⟨_, scanEquivocation_eq_ok.2 ⟨haccepted, hnew, proofRound, hcounts, hfits, rfl⟩,
    hsame.cons _ _⟩

/-- **The grouping loop takes its events in any order.** -/
theorem scanEquivocation_commutes {a b : EquivocationPenalty} (hne : a.offender ≠ b.offender) :
    Commutes PenaltyScan.Same (scanEquivocation hasher previous round) a b := by
  intro scan scan' hsame out h
  obtain ⟨mid, hmid, hout⟩ := bind_eq_ok.1 h
  obtain ⟨ha, hnewA, r, hcountsA, hfitsA, rfl⟩ := scanEquivocation_eq_ok.1 hmid
  obtain ⟨hb, hnewB, r', hcountsB, hfitsB, rfl⟩ := scanEquivocation_eq_ok.1 hout
  rw [hsame.seen] at hnewA
  rw [List.mem_cons, not_or, hsame.seen] at hnewB
  dsimp only at hfitsB ⊢
  rw [hsame.weights] at hfitsA hfitsB ⊢
  -- each weight fits where the sum of both does
  have hleft : addWeight previous scan'.weights r' b.offender r' < 2 ^ 128 := by
    simp only [addWeight_apply] at hfitsB ⊢
    omega
  have hright : addWeight previous (addWeight previous scan'.weights r' b.offender) r a.offender r <
      2 ^ 128 := by
    rw [addWeight_comm]
    by_cases heq : r = r'
    · subst heq
      exact hfitsB
    · rw [addWeight_apply, if_neg heq]
      exact hfitsA
  refine ⟨_, bind_eq_ok.2 ⟨_, scanEquivocation_eq_ok.2 ⟨hb, hnewB.2, r', hcountsB,
    hleft, rfl⟩, scanEquivocation_eq_ok.2 ⟨ha, ?_, r, hcountsA, hright, rfl⟩⟩, ?_, ?_⟩
  · rw [List.mem_cons, not_or]
    exact ⟨hne, hnewA⟩
  · intro id
    simp only [List.mem_cons, hsame.seen]
    tauto
  · exact addWeight_comm _ _ _ _ _

/-- **A step of the loop over the missed rounds.** -/
theorem scanInactivity_eq_ok {seen out : List NodeId} {event : InactivityPenalty} :
    scanInactivity previous ratings seen event = .ok out ↔
      event.offender ∉ seen ∧ event.missedRounds = 1 ∧
        (∃ prior, priorEntry previous event.offender = .ok prior) ∧
        (∀ rating ∈ ratings, rating.rater ≠ event.offender ∧ rating.recipient ≠ event.offender) ∧
        out = event.offender :: seen := by
  unfold scanInactivity
  rw [guard_eq_ok, not_or, not_not, bind_eq_ok, and_assoc]
  refine and_congr_right fun _ => and_congr_right fun _ => ?_
  simp only [guard_eq_ok, List.any_eq_true, Bool.or_eq_true, decide_eq_true_eq, not_exists,
    not_and, not_or, Except.ok.injEq, exists_and_right, eq_comm (a := out)]

/-- The same offenders, seen in some order. -/
def SameMembers (seen seen' : List NodeId) : Prop := ∀ id, id ∈ seen ↔ id ∈ seen'

theorem sameMembers_equivalence : Equivalence SameMembers where
  refl _ _ := Iff.rfl
  symm h id := (h id).symm
  trans h h' id := (h id).trans (h' id)

theorem scanInactivity_respects (event : InactivityPenalty) :
    Respects SameMembers (scanInactivity previous ratings) event := by
  intro seen seen' hsame out h
  obtain ⟨hnew, hmissed, hactive, hidle, rfl⟩ := scanInactivity_eq_ok.1 h
  rw [hsame] at hnew
  refine ⟨_, scanInactivity_eq_ok.2 ⟨hnew, hmissed, hactive, hidle, rfl⟩, fun id => ?_⟩
  rw [List.mem_cons, List.mem_cons, hsame]

theorem scanInactivity_commutes {a b : InactivityPenalty} (hne : a.offender ≠ b.offender) :
    Commutes SameMembers (scanInactivity previous ratings) a b := by
  intro seen seen' hsame out h
  obtain ⟨mid, hmid, hout⟩ := bind_eq_ok.1 h
  obtain ⟨hnewA, hmissedA, hactiveA, hidleA, rfl⟩ := scanInactivity_eq_ok.1 hmid
  obtain ⟨hnewB, hmissedB, hactiveB, hidleB, rfl⟩ := scanInactivity_eq_ok.1 hout
  rw [hsame] at hnewA
  rw [List.mem_cons, not_or, hsame] at hnewB
  refine ⟨_, bind_eq_ok.2 ⟨_, scanInactivity_eq_ok.2 ⟨hnewB.2, hmissedB, hactiveB,
    hidleB, rfl⟩, scanInactivity_eq_ok.2 ⟨?_, hmissedA, hactiveA, hidleA, rfl⟩⟩, fun id => ?_⟩
  · rw [List.mem_cons, not_or]
    exact ⟨hne, hnewA⟩
  · simp only [List.mem_cons, hsame id]
    tauto

/-- **A slash changes the entry of its offender.** -/
theorem slashEntry_modifies {weights : ℕ → ℕ} {total : ℕ} :
    Modifies ReputationEntry.nodeId (slashEntry previous weights total config)
      EquivocationPenalty.offender (retainedAfter previous weights total config)
      ReputationEntry.slashed := by
  refine fun entries event out => ⟨slashEntry_changes entries event out, ?_⟩
  rintro ⟨hfound, retained, hretained, rfl⟩
  obtain ⟨proofRound, hproof, hretained⟩ := bind_eq_ok.1 hretained
  obtain ⟨penalty, hpenalty, hretained⟩ := bind_eq_ok.1 hretained
  obtain ⟨prior, hprior, hretained⟩ := bind_eq_ok.1 hretained
  exact bind_eq_ok.2 ⟨proofRound, hproof, bind_eq_ok.2 ⟨penalty, hpenalty,
    guard_eq_ok.2 ⟨hfound, bind_eq_ok.2 ⟨prior, hprior,
      bind_eq_ok.2 ⟨retained, hretained, rfl⟩⟩⟩⟩⟩

/-- **A decay changes the entry of its offender.** -/
theorem decayEntry_modifies :
    Modifies ReputationEntry.nodeId (decayEntry previous config) InactivityPenalty.offender
      (decayedAfter previous config) ReputationEntry.decayed := by
  refine fun entries event out => ⟨decayEntry_changes entries event out, ?_⟩
  rintro ⟨hfound, reputation, hreputation, rfl⟩
  obtain ⟨prior, hprior, hreputation⟩ := bind_eq_ok.1 hreputation
  exact guard_eq_ok.2 ⟨hfound, bind_eq_ok.2 ⟨prior, hprior,
    bind_eq_ok.2 ⟨reputation, hreputation, rfl⟩⟩⟩

/-- The slashes are those of the events in any order. -/
theorem slashEntries_perm {weights : ℕ → ℕ} {entries out : List ReputationEntry}
    {events events' : List EquivocationPenalty} (hperm : events.Perm events')
    (hdistinct : ∀ a ∈ events, ∀ b ∈ events, a ≠ b → a.offender ≠ b.offender)
    (h : slashEntries previous weights config entries events = .ok out) :
    slashEntries previous weights config entries events' = .ok out := by
  unfold slashEntries at h ⊢
  by_cases hnone : events = []
  · rw [if_pos hnone] at h
    rw [if_pos (List.nil_perm.1 (hnone ▸ hperm))]
    exact h
  · have hnone' : events' ≠ [] := by
      rintro rfl
      exact hnone hperm.eq_nil
    rw [if_neg hnone] at h
    rw [if_neg hnone']
    obtain ⟨total, htotal, h⟩ := bind_eq_ok.1 h
    exact bind_eq_ok.2 ⟨total, htotal, foldlM_eq_of_perm hperm
      (fun a ha b hb hne => slashEntry_modifies.commutes (fun _ _ => rfl) (hdistinct a ha b hb hne)) h⟩

/-- **The penalties are those of the events and the ratings in any order.** -/
theorem applyReputationPenalties_perm {next list : ReputationList}
    {events events' : ReputationPenaltyEvents} (hratings : ratings.Perm ratings')
    (horder : events.Reordered events')
    (h : applyReputationPenalties hasher next previous ratings events config = .ok list) :
    applyReputationPenalties hasher next previous ratings' events' config = .ok list := by
  obtain ⟨hnodupE, hnodupI, -⟩ := List.nodup_append.1 (applyReputationPenalties_penalized h).nodup
  have hdistinctE : ∀ a ∈ events.equivocations, ∀ b ∈ events.equivocations, a ≠ b →
      a.offender ≠ b.offender := fun a ha b hb hne heq =>
    hne (List.inj_on_of_nodup_map hnodupE ha hb heq)
  have hdistinctI : ∀ a ∈ events.inactivity, ∀ b ∈ events.inactivity, a ≠ b →
      a.offender ≠ b.offender := fun a ha b hb hne heq =>
    hne (List.inj_on_of_nodup_map hnodupI ha hb heq)
  obtain ⟨hvalid, h⟩ := check_eq_ok.1 h
  obtain ⟨hround, h⟩ := guard_eq_ok.1 h
  obtain ⟨scan, hscan, h⟩ := bind_eq_ok.1 h
  obtain ⟨seen, hseen, h⟩ := bind_eq_ok.1 h
  obtain ⟨slashed, hslashed, h⟩ := bind_eq_ok.1 h
  obtain ⟨decayed, hdecayed, h⟩ := bind_eq_ok.1 h
  -- the loop over the missed rounds reads the ratings as a set
  have hidle : scanInactivity previous ratings = scanInactivity previous ratings' := by
    funext seen event
    unfold scanInactivity
    rw [hratings.any_eq]
  obtain ⟨scan', hscan', hsame⟩ := foldlM_perm PenaltyScan.same_equivalence horder.equivocations
    (fun event _ => scanEquivocation_respects event)
    (fun a ha b hb hne => scanEquivocation_commutes (hdistinctE a ha b hb hne))
    (PenaltyScan.same_equivalence.refl _) scan hscan
  obtain ⟨seen', hseen', -⟩ := foldlM_perm sameMembers_equivalence horder.inactivity
    (fun event _ => scanInactivity_respects event)
    (fun a ha b hb hne => scanInactivity_commutes (hdistinctI a ha b hb hne))
    (show SameMembers scan.seen scan'.seen from hsame.seen) seen hseen
  refine check_eq_ok.2 ⟨hvalid, guard_eq_ok.2 ⟨by rwa [horder.round],
    bind_eq_ok.2 ⟨scan', by rwa [horder.round], bind_eq_ok.2 ⟨seen', ?_,
      bind_eq_ok.2 ⟨slashed, ?_, bind_eq_ok.2 ⟨decayed, ?_, h⟩⟩⟩⟩⟩⟩
  · rwa [← hidle]
  · rw [← hsame.weights]
    exact slashEntries_perm horder.equivocations hdistinctE hslashed
  · exact foldlM_eq_of_perm horder.inactivity
      (fun a ha b hb hne => decayEntry_modifies.commutes (fun _ _ => rfl)
        (hdistinctI a ha b hb hne)) hdecayed

/-! ### The replay -/

variable {penalties penalties' : Option ReputationPenaltyEvents}

theorem ReputationPenaltyEvents.Reordered.symm {events events' : ReputationPenaltyEvents}
    (h : events.Reordered events') : events'.Reordered events :=
  ⟨h.round.symm, h.equivocations.symm, h.inactivity.symm⟩

/-- No penalties on both sides, or the same events in another order. -/
abbrev ReorderedPenalties : Option ReputationPenaltyEvents → Option ReputationPenaltyEvents → Prop :=
  Option.Rel ReputationPenaltyEvents.Reordered

theorem ReorderedPenalties.symm (h : ReorderedPenalties penalties penalties') :
    ReorderedPenalties penalties' penalties := by
  cases h with
  | none => exact .none
  | some horder => exact .some horder.symm

/-- A replay that succeeds does so with its inputs in any order. -/
theorem replay_perm (hratings : ratings.Perm ratings')
    (hpenalties : ReorderedPenalties penalties penalties') {list : ReputationList}
    (h : replayReputationTransitionWithPenalties hasher previous ratings round config penalties =
      .ok list) :
    replayReputationTransitionWithPenalties hasher previous ratings' round config penalties' =
      .ok list := by
  obtain ⟨hconfig, hprevious, ⟨commitment, hcommitment⟩, clamped, hclamped, hlist⟩ :=
    replay_eq_ok.1 h
  have hclamped' := calculateRound_perm hratings hclamped
  cases hpenalties with
  | none =>
      exact replay_eq_ok.2 ⟨hconfig, hprevious, ⟨commitment, hcommitment⟩, clamped, hclamped',
        hlist⟩
  | some horder =>
      exact replay_eq_ok.2 ⟨hconfig, hprevious,
        ⟨commitment, penaltyEventsCommitment_perm horder hcommitment⟩, clamped, hclamped',
        applyReputationPenalties_perm hratings horder hlist⟩

theorem ratingBatchCommitment_perm (hratings : ratings.Perm ratings')
    {commitment : ReputationCommitment}
    (h : ratingBatchCommitment hasher ⟨round, ratings⟩ config = .ok commitment) :
    ratingBatchCommitment hasher ⟨round, ratings'⟩ config = .ok commitment := by
  obtain ⟨batch, hbatch, h⟩ := bind_eq_ok.1 h
  exact bind_eq_ok.2 ⟨batch, buildRatingBatch_perm hratings hbatch, h⟩

theorem checkpointRatingBatchCommitment_perm (hratings : ratings.Perm ratings')
    {source : RatingSourceCheckpoint} {commitment : ReputationCommitment}
    (h : checkpointRatingBatchCommitment hasher ⟨round, ratings⟩ source config = .ok commitment) :
    checkpointRatingBatchCommitment hasher ⟨round, ratings'⟩ source config = .ok commitment := by
  obtain ⟨batch, hbatch, h⟩ := bind_eq_ok.1 h
  exact bind_eq_ok.2 ⟨batch, buildRatingBatch_perm hratings hbatch, h⟩

/-- **Neither a replay nor a commitment depends on the order of its inputs.**  With the ratings
in another order, and the equivocations and missed rounds of the penalties in another order, a
replay returns the same list or fails on both, and so do the commitments to the batch, in
either format, and to the penalties. -/
theorem replay_order_independent (hratings : ratings.Perm ratings')
    (hpenalties : ReorderedPenalties penalties penalties') :
    (∀ list,
      replayReputationTransitionWithPenalties hasher previous ratings round config penalties =
          .ok list ↔
        replayReputationTransitionWithPenalties hasher previous ratings' round config penalties' =
          .ok list) ∧
    (∀ commitment, ratingBatchCommitment hasher ⟨round, ratings⟩ config = .ok commitment ↔
      ratingBatchCommitment hasher ⟨round, ratings'⟩ config = .ok commitment) ∧
    (∀ source commitment,
      checkpointRatingBatchCommitment hasher ⟨round, ratings⟩ source config = .ok commitment ↔
        checkpointRatingBatchCommitment hasher ⟨round, ratings'⟩ source config = .ok commitment) ∧
    ∀ commitment, penaltyEventsCommitment hasher round penalties = .ok commitment ↔
      penaltyEventsCommitment hasher round penalties' = .ok commitment := by
  refine ⟨fun list => ⟨replay_perm hratings hpenalties, replay_perm hratings.symm hpenalties.symm⟩,
    fun commitment => ⟨ratingBatchCommitment_perm hratings,
      ratingBatchCommitment_perm hratings.symm⟩,
    fun source commitment => ⟨checkpointRatingBatchCommitment_perm hratings,
      checkpointRatingBatchCommitment_perm hratings.symm⟩, fun commitment => ?_⟩
  cases hpenalties with
  | none => exact Iff.rfl
  | some horder =>
      exact ⟨penaltyEventsCommitment_perm horder, penaltyEventsCommitment_perm horder.symm⟩

/-- Two keys that rate each other. -/
def mutualRatings : List RatingRecord :=
  [⟨1, ⟨[1]⟩, ⟨[2]⟩, 900000000, [7], none⟩, ⟨1, ⟨[2]⟩, ⟨[1]⟩, 5, [8], none⟩]

/-- An equivocation that is authorized for the round. -/
def provenEquivocation (offender : NodeId) (proofRound : ℕ) : EquivocationPenalty :=
  ⟨offender, [1], some ⟨.wave ⟨[9], 0, 1⟩,
    sumHasher ((authorizationPayload ⟨[9], 0, 1⟩ offender [1]).toOption.getD []), proofRound⟩⟩

/-- Two keys that equivocated and two that missed the round. -/
def fourOffenders : ReputationPenaltyEvents :=
  ⟨1, [provenEquivocation ⟨[3]⟩ 1, provenEquivocation ⟨[4]⟩ 2], [⟨⟨[0]⟩, 1⟩, ⟨⟨[5]⟩, 1⟩]⟩

/-- All of them. -/
def sixKeys : ReputationVector :=
  ⟨0, [.new ⟨[0]⟩ 700000000, .new ⟨[1]⟩ 200000000, .new ⟨[2]⟩ 400000000, .new ⟨[3]⟩ 300000000,
    .new ⟨[4]⟩ 100000000, .new ⟨[5]⟩ 600000000]⟩

theorem replay_order_independent_sixKeys :
    ∃ list, replayReputationTransitionWithPenalties sumHasher sixKeys mutualRatings 1 .default
        (some fourOffenders) = .ok list ∧
      replayReputationTransitionWithPenalties sumHasher sixKeys mutualRatings.reverse 1 .default
        (some ⟨1, fourOffenders.equivocations.reverse, fourOffenders.inactivity.reverse⟩) =
          .ok list := by
  have hsome : (replayReputationTransitionWithPenalties sumHasher sixKeys mutualRatings 1 .default
      (some fourOffenders)).isOk = true := by decide +kernel
  obtain ⟨list, hlist⟩ := Codec.exists_eq_ok_of_isOk hsome
  have hratings : mutualRatings.Perm mutualRatings.reverse := (List.reverse_perm _).symm
  have hpenalties : ReorderedPenalties (some fourOffenders)
      (some ⟨1, fourOffenders.equivocations.reverse, fourOffenders.inactivity.reverse⟩) :=
    .some ⟨rfl, (List.reverse_perm _).symm, (List.reverse_perm _).symm⟩
  exact ⟨list, hlist, ((replay_order_independent hratings hpenalties).1 list).1 hlist⟩

end CordialMiners.Reputation
