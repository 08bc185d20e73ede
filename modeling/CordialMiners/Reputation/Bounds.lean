/-
# Reputations stay within the scale

The clamp rounds a quotient by the floor of a root.  The root is at least each of the two
numbers below it, so the rounded quotient is at most each of them (`rootClamp_le_left`,
`rootClamp_le_right`); and where one of them grows, the root grows by no more than it does,
so the quotient does not fall (`rootClamp_mono`).

What a replay returns is therefore bounded by the scale whatever the blend was: a clamped
reputation by the clamp, a carried one as it was, and a slash or a decay takes a part away
(`withinScale_replay`).  Every call on a state keeps the bound (`call_withinScale`).
-/

import CordialMiners.Collections.Matched
import CordialMiners.Reputation.Stages
import CordialMiners.Reputation.StateRuns

namespace CordialMiners.Reputation

open Codec (bind_eq_ok check_eq_ok guard_eq_ok mapM_eq_ok)

/-! ### The clamp of numbers -/

section Numbers

variable {r r' s : ℕ}

/-- `round((r * s) / sqrt(s^2 + r^2))`, with the floor of the root. -/
def rootClamp (r s : ℕ) : ℕ :=
  (r * s + Nat.sqrt (s * s + r * r) / 2) / Nat.sqrt (s * s + r * r)

theorem left_le_sqrt : r ≤ Nat.sqrt (s * s + r * r) :=
  Nat.le_sqrt.2 (Nat.le_add_left _ _)

theorem right_le_sqrt : s ≤ Nat.sqrt (s * s + r * r) :=
  Nat.le_sqrt.2 (Nat.le_add_right _ _)

/-- Where a side grows by `k`, the root grows by `k` at most. -/
theorem sqrt_add_le (r s k : ℕ) :
    Nat.sqrt (s * s + (r + k) * (r + k)) ≤ Nat.sqrt (s * s + r * r) + k := by
  obtain ⟨root, hroot⟩ : ∃ root, root = Nat.sqrt (s * s + r * r) := ⟨_, rfl⟩
  have hlt : s * s + r * r < (root + 1) * (root + 1) := hroot ▸ Nat.lt_succ_sqrt _
  have hle : r ≤ root := hroot ▸ left_le_sqrt
  rw [← hroot, ← Nat.lt_succ_iff, Nat.sqrt_lt]
  have hk : k * r ≤ k * (root + 1) := Nat.mul_le_mul_left _ (by omega)
  calc s * s + (r + k) * (r + k) = s * s + r * r + 2 * (k * r) + k * k := by ring
    _ < (root + 1) * (root + 1) + 2 * (k * (root + 1)) + k * k := by omega
    _ = (root + k).succ * (root + k).succ := by rw [Nat.succ_eq_add_one]; ring

/-- A rounded quotient of a product by more than one of its factors is at most the other. -/
theorem rounded_div_le {a b root : ℕ} (hroot : 0 < root) (hb : b ≤ root) :
    (a * b + root / 2) / root ≤ a := by
  rw [← Nat.lt_succ_iff, Nat.div_lt_iff_lt_mul hroot, Nat.succ_mul]
  have hmul : a * b ≤ a * root := Nat.mul_le_mul_left _ hb
  omega

theorem rootClamp_le_left (hs : 0 < s) : rootClamp r s ≤ r :=
  rounded_div_le (hs.trans_le right_le_sqrt) right_le_sqrt

theorem rootClamp_le_right (hs : 0 < s) : rootClamp r s ≤ s := by
  unfold rootClamp
  rw [Nat.mul_comm r s]
  exact rounded_div_le (hs.trans_le right_le_sqrt) left_le_sqrt

/-- The root is at most the product, so that a positive number stays positive. -/
theorem rootClamp_pos (hr : 0 < r) (hs : 0 < s) : 0 < rootClamp r s := by
  have hroot : Nat.sqrt (s * s + r * r) ≤ r * s := by
    rw [← Nat.lt_succ_iff, Nat.sqrt_lt]
    obtain ⟨a, rfl⟩ := Nat.exists_eq_add_of_lt hr
    obtain ⟨b, rfl⟩ := Nat.exists_eq_add_of_lt hs
    have hring : ((0 + a + 1) * (0 + b + 1)).succ * ((0 + a + 1) * (0 + b + 1)).succ =
        (0 + b + 1) * (0 + b + 1) + (0 + a + 1) * (0 + a + 1) +
          (a * a * b * b + 2 * a * a * b + 2 * a * b * b + 6 * a * b + 2 * a + 2 * b + 2) := by
      rw [Nat.succ_eq_add_one]
      ring
    omega
  exact Nat.div_pos (by omega) (hs.trans_le right_le_sqrt)

/-- **The clamp does not fall where its argument grows.**  The quotient is at most `s`, so that
what the root gains is paid for by what the product gains. -/
theorem rootClamp_mono (hs : 0 < s) (h : r ≤ r') : rootClamp r s ≤ rootClamp r' s := by
  obtain ⟨k, rfl⟩ := Nat.exists_eq_add_of_le h
  have hgrow := sqrt_add_le r s k
  have hmono : Nat.sqrt (s * s + r * r) ≤ Nat.sqrt (s * s + (r + k) * (r + k)) :=
    Nat.sqrt_le_sqrt (Nat.add_le_add_left (Nat.mul_self_le_mul_self h) _)
  have hquotient : rootClamp r s * Nat.sqrt (s * s + r * r) ≤
      r * s + Nat.sqrt (s * s + r * r) / 2 := Nat.div_mul_le_self _ _
  have hgain : rootClamp r s * k ≤ k * s := by
    rw [Nat.mul_comm]
    exact Nat.mul_le_mul_left _ (rootClamp_le_right hs)
  refine (Nat.le_div_iff_mul_le (hs.trans_le right_le_sqrt)).2 ?_
  calc rootClamp r s * Nat.sqrt (s * s + (r + k) * (r + k))
      ≤ rootClamp r s * (Nat.sqrt (s * s + r * r) + k) := Nat.mul_le_mul_left _ hgrow
    _ = rootClamp r s * Nat.sqrt (s * s + r * r) + rootClamp r s * k := Nat.mul_add ..
    _ ≤ r * s + k * s + Nat.sqrt (s * s + r * r) / 2 := by omega
    _ ≤ (r + k) * s + Nat.sqrt (s * s + (r + k) * (r + k)) / 2 := by
      rw [Nat.add_mul]
      exact Nat.add_le_add_left (Nat.div_le_div_right hmono) _

end Numbers

/-! ### The clamp of reputations -/

section Clamp

variable {value value' scale result result' : U64}

/-- **What `clamp_reputation_value` returns.** -/
theorem clampReputationValue_eq (h : clampReputationValue value scale = .ok result) :
    0 < scale.val ∧ result.val = rootClamp value.val scale.val := by
  obtain ⟨hscale, h⟩ := guard_eq_ok.1 h
  have hpos : 0 < scale.val := Nat.pos_of_ne_zero fun hzero => hscale (Fin.ext hzero)
  refine ⟨hpos, ?_⟩
  split_ifs at h with hzero
  · obtain rfl := Except.ok.inj h
    subst hzero
    exact (Nat.le_zero.1 (rootClamp_le_left hpos)).symm
  obtain ⟨scaleSquare, hscaleSquare, h⟩ := bind_eq_ok.1 h
  obtain ⟨valueSquare, hvalueSquare, h⟩ := bind_eq_ok.1 h
  obtain ⟨sum, hsum, h⟩ := bind_eq_ok.1 h
  obtain ⟨-, h⟩ := guard_eq_ok.1 h
  obtain ⟨numerator, hnumerator, h⟩ := bind_eq_ok.1 h
  obtain ⟨rounded, hrounded, h⟩ := bind_eq_ok.1 h
  rw [okOr_eq_ok] at hscaleSquare hvalueSquare hsum hnumerator hrounded
  unfold checkedMul128 at hscaleSquare hvalueSquare hnumerator
  unfold checkedAdd128 at hsum hrounded
  split_ifs at hscaleSquare hvalueSquare hsum hnumerator hrounded with _ _ hfits
  obtain rfl := Option.some.inj hscaleSquare
  obtain rfl := Option.some.inj hvalueSquare
  obtain rfl := Option.some.inj hsum
  obtain rfl := Option.some.inj hnumerator
  obtain rfl := Option.some.inj hrounded
  rw [integerSqrtU128_eq hfits] at h
  have hle : rootClamp value.val scale.val ≤ scale.val := rootClamp_le_right hpos
  have hlt := hle.trans_lt scale.isLt
  unfold rootClamp at hlt
  rw [if_neg (by omega)] at h
  obtain rfl := Except.ok.inj h
  exact Nat.mod_eq_of_lt hlt

theorem clampReputationValue_le (h : clampReputationValue value scale = .ok result) :
    result ≤ min value scale := by
  obtain ⟨hpos, hresult⟩ := clampReputationValue_eq h
  refine le_min ?_ ?_
  · rw [Fin.le_def, hresult]
    exact rootClamp_le_left hpos
  · rw [Fin.le_def, hresult]
    exact rootClamp_le_right hpos

theorem clampReputationValue_pos (h : clampReputationValue value scale = .ok result)
    (hvalue : 0 < value) : 0 < result := by
  obtain ⟨hpos, hresult⟩ := clampReputationValue_eq h
  rw [Fin.lt_def, hresult]
  exact rootClamp_pos hvalue hpos

theorem clampReputationValue_mono (h : clampReputationValue value scale = .ok result)
    (h' : clampReputationValue value' scale = .ok result') (hle : value ≤ value') :
    result ≤ result' := by
  obtain ⟨hpos, hresult⟩ := clampReputationValue_eq h
  rw [Fin.le_def, hresult, (clampReputationValue_eq h').2]
  exact rootClamp_mono hpos hle

end Clamp

/-- **A normalized score is at most the scale.** -/
theorem normalized_le_scale {matrix : RatingMatrix} {normalized : NormalizedRatingMatrix}
    {config : PorConfig} (h : normalizeRatingMatrix matrix config = .ok normalized) :
    ∀ rating ∈ normalized.ratings, rating.normalizedScore ≤ config.scale := by
  obtain ⟨hscale, h⟩ := guard_eq_ok.1 h
  obtain ⟨groups, hgroups, h⟩ := bind_eq_ok.1 h
  obtain rfl := Except.ok.inj h
  have hpos : 0 < config.scale.val := Nat.pos_of_ne_zero fun hzero => hscale (Fin.ext hzero)
  intro rating hrating
  obtain ⟨out, hout, hmem⟩ := List.mem_flatten.1 hrating
  obtain ⟨group, hgroup, hnormalized⟩ := Matched.matched_right (mapM_eq_ok.1 hgroups) out hout
  rw [normalizeRecipientGroup_eq hpos (List.ne_nil_of_mem_splitBy hgroup)] at hnormalized
  split_ifs at hnormalized
  obtain rfl := Except.ok.inj hnormalized
  obtain ⟨record, hrecord, rfl⟩ := List.mem_map.1 hmem
  rw [Fin.le_def, normalizedEntry_score hrecord]
  exact normalizedScore_le hrecord

/-! ### The bound of a list -/

/-- Reputations and retained balances are at most the scale. -/
def WithinScale (scale : U64) (entries : List ReputationEntry) : Prop :=
  ∀ entry ∈ entries, entry.reputation ≤ scale ∧ entry.retainedReputation ≤ scale

section Replay

variable {hasher : List Byte → ContentHash} {scale : U64} {previous clamped : ReputationVector}
  {ratings : List RatingRecord} {round : U64} {config : PorConfig}
  {penalties : Option ReputationPenaltyEvents} {list kept : ReputationList} {id : NodeId}
  {old contributions blended out : List ReputationEntry} {entry : ReputationEntry}

theorem WithinScale.of_entryOf (h : WithinScale scale old) (hentry : entryOf old id = some entry) :
    entry.reputation ≤ scale ∧ entry.retainedReputation ≤ scale :=
  h entry (List.mem_of_find?_eq_some hentry)

theorem withinScale_new (node : NodeId) {reputation : U64} (h : reputation ≤ scale) :
    (ReputationEntry.new node reputation).reputation ≤ scale ∧
      (ReputationEntry.new node reputation).retainedReputation ≤ scale :=
  ⟨h, Fin.zero_le _⟩

/-- A carried reputation is one of before, any other one is clamped. -/
theorem carriedReputation_le {reputation : U64} (hold : WithinScale scale old)
    (h : carriedReputation scale old contributions entry = .ok reputation) : reputation ≤ scale := by
  unfold carriedReputation at h
  split at h
  · next _ _ found hfound _ =>
      obtain rfl := Except.ok.inj h
      obtain ⟨hhead, -⟩ := Option.filter_eq_some_iff.1 hfound
      exact (hold found (List.mem_of_head? hhead)).1
  · exact (clampReputationValue_le h).trans (min_le_right _ _)

theorem withinScale_clampCarryForward (hold : WithinScale scale old)
    (h : clampCarryForward scale old contributions blended = .ok out) : WithinScale scale out := by
  induction blended generalizing old contributions out with
  | nil =>
      obtain rfl := Except.ok.inj h
      exact fun entry hentry => absurd hentry List.not_mem_nil
  | cons entry blended ih =>
      rw [clampCarryForward] at h
      obtain ⟨reputation, hreputation, h⟩ := bind_eq_ok.1 h
      obtain ⟨rest, hrest, h⟩ := bind_eq_ok.1 h
      obtain rfl := Except.ok.inj h
      have hadvanced : WithinScale scale (advanceTo old entry.nodeId) := fun e he =>
        hold e ((List.dropWhile_sublist _).subset he)
      exact List.forall_mem_cons.2 ⟨withinScale_new _ (carriedReputation_le hadvanced hreputation),
        ih hadvanced hrest⟩

theorem withinScale_mapM_clampEntry (h : blended.mapM (clampEntry scale) = .ok out) :
    WithinScale scale out := by
  intro entry hentry
  obtain ⟨before, -, hclamped⟩ := Matched.matched_right (mapM_eq_ok.1 h) entry hentry
  obtain ⟨value, hvalue, hclamped⟩ := bind_eq_ok.1 hclamped
  obtain rfl := Except.ok.inj hclamped
  exact withinScale_new _ ((clampReputationValue_le hvalue).trans (min_le_right _ _))

/-- **The calculation of a round stays within the scale.** -/
theorem withinScale_calculateRound (hprevious : WithinScale config.scale previous.values)
    (h : calculateRound previous ratings round config = .ok clamped) :
    WithinScale config.scale clamped.values := by
  obtain ⟨contribution, blended, -, -, -, -, hclamped⟩ := calculateRound_spec h
  unfold clampReputationTransition at hclamped
  split_ifs at hclamped
  · obtain ⟨-, hclamped⟩ := guard_eq_ok.1 hclamped
    obtain ⟨values, hvalues, hclamped⟩ := bind_eq_ok.1 hclamped
    obtain rfl := Except.ok.inj hclamped
    exact withinScale_mapM_clampEntry hvalues
  · obtain ⟨values, hvalues, hclamped⟩ := bind_eq_ok.1 hclamped
    obtain rfl := Except.ok.inj hclamped
    exact withinScale_clampCarryForward hprevious hvalues

theorem withinScale_keptList (hprevious : WithinScale scale previous.values)
    (hclamped : WithinScale scale clamped.values) :
    WithinScale scale (keptList previous clamped).entries := by
  intro entry hentry
  obtain ⟨before, hbefore, rfl⟩ := List.mem_map.1 hentry
  unfold keepExcluded
  split
  · next old hold =>
      split_ifs
      · exact ⟨Fin.zero_le _, (hprevious.of_entryOf hold).2⟩
      · exact hclamped before hbefore
  · exact hclamped before hbefore

/-- What survives of a weight is at most the weight. -/
theorem surviving_le {weight part remaining : U64} {message : String} {overflow : PorError}
    (h : surviving weight part config message overflow = .ok remaining) : remaining ≤ weight := by
  obtain ⟨-, h⟩ := check_eq_ok.1 h
  obtain ⟨-, h⟩ := guard_eq_ok.1 h
  obtain ⟨value, hvalue, h⟩ := bind_eq_ok.1 h
  rw [okOr_eq_ok] at hvalue h
  unfold checkedMul128 at hvalue
  split_ifs at hvalue
  obtain rfl := Option.some.inj hvalue
  rw [Fin.le_def, ← tryU64_eq_some.1 h]
  refine Nat.div_le_of_le_mul ?_
  rw [Nat.mul_comm config.scale.val]
  exact Nat.mul_le_mul_left _ (Nat.sub_le _ _)

/-- **Penalties stay within the scale.** -/
theorem withinScale_penalize (hprevious : WithinScale scale previous.values)
    (hkept : WithinScale scale kept.entries) (hordered : Ordered kept.entries)
    (h : penalize hasher previous ratings config penalties kept = .ok list) :
    WithinScale scale list.entries := by
  cases penalties with
  | none => exact Except.ok.inj h ▸ hkept
  | some events =>
      have hpenalized := applyReputationPenalties_penalized h
      have hlist : Ordered list.entries := by
        refine Keyed.ascending_iff_map.2 ?_
        rw [hpenalized.nodes]
        exact Keyed.ascending_iff_map.1 hordered
      have hprior : ∀ {offender : NodeId} {prior : ReputationEntry},
          priorEntry previous offender = .ok prior → prior.reputation ≤ scale := fun hprior =>
        (hprevious.of_entryOf (priorEntry_eq_ok.1 hprior).1).1
      intro entry hentry
      have hfound : entryOf list.entries entry.nodeId = some entry :=
        (Keyed.find_eq_some_iff hlist).2 ⟨hentry, rfl⟩
      by_cases hoffender : entry.nodeId ∈ events.offenders
      · rcases List.mem_append.1 hoffender with hid | hid
        · obtain ⟨event, he, hid⟩ := List.mem_map.1 hid
          obtain ⟨total, before, retained, -, -, hretained, hout⟩ := hpenalized.slashed event he
          obtain rfl := Option.some.inj ((hid ▸ hout).symm.trans hfound)
          obtain ⟨_, -, hretained⟩ := bind_eq_ok.1 hretained
          obtain ⟨_, -, hretained⟩ := bind_eq_ok.1 hretained
          obtain ⟨prior, hpriorEntry, hretained⟩ := bind_eq_ok.1 hretained
          exact ⟨Fin.zero_le _, (surviving_le hretained).trans (hprior hpriorEntry)⟩
        · obtain ⟨event, he, hid⟩ := List.mem_map.1 hid
          obtain ⟨before, reputation, hbefore, hreputation, hout⟩ := hpenalized.decayed event he
          obtain rfl := Option.some.inj ((hid ▸ hout).symm.trans hfound)
          obtain ⟨prior, hpriorEntry, hreputation⟩ := bind_eq_ok.1 hreputation
          exact ⟨(surviving_le hreputation).trans (hprior hpriorEntry),
            (hkept.of_entryOf hbefore).2⟩
      · rw [hpenalized.frame _ hoffender] at hfound
        exact hkept.of_entryOf hfound

/-- **A replay stays within the scale.** -/
theorem withinScale_replay (hprevious : WithinScale config.scale previous.values)
    (h : replayReputationTransitionWithPenalties hasher previous ratings round config penalties =
      .ok list) : WithinScale config.scale list.entries := by
  obtain ⟨-, -, -, clamped, hclamped, hlist⟩ := replay_eq_ok.1 h
  refine withinScale_penalize hprevious
    (withinScale_keptList hprevious (withinScale_calculateRound hprevious hclamped)) ?_ hlist
  refine Keyed.ascending_iff_map.2 ?_
  rw [nodes_keptList]
  exact Keyed.ascending_iff_map.1 (nodes_calculateRound hclamped).1

end Replay

/-! ### The bound of a state -/

/-- What a call may bring in: an assigned reputation and the entries of a vector are within the
scale, and a block is replayed under a configuration with this scale. -/
def ReputationCall.WithinScale (scale : U64) : ReputationCall → Prop
  | .addRating _ | .ejectValidator _ | .reload => True
  | .setReputation _ reputation => reputation ≤ scale
  | .applyReputationVector vector => Reputation.WithinScale scale vector.values
  | .applyReputationBlock _ _ _ _ config _ => config.scale = scale
  | .applyCheckpointReputationBlock _ _ _ _ config _ => config.scale = scale

namespace ReputationState

variable {hasher : List Byte → ContentHash} {scale : U64} {s t : ReputationState}
  {c : ReputationCall} {id : NodeId}

/-- The list of a state is within the scale. -/
def WithinScale (scale : U64) (s : ReputationState) : Prop :=
  Reputation.WithinScale scale s.reputationList.entries

theorem retainedOf_le (hs : s.WithinScale scale) (id : NodeId) : s.retainedOf id ≤ scale := by
  unfold retainedOf
  cases hentry : s.entry id with
  | none => exact Fin.zero_le _
  | some entry => exact (hs.of_entryOf hentry).2

theorem withinScale_modify {entries : List ReputationEntry} {f : ReputationEntry → ReputationEntry}
    (h : Reputation.WithinScale scale entries)
    (hf : ∀ entry ∈ entries, (f entry).reputation ≤ scale ∧ (f entry).retainedReputation ≤ scale) :
    Reputation.WithinScale scale (Keyed.modify ReputationEntry.nodeId entries id f) := by
  intro entry hentry
  obtain ⟨before, hbefore, rfl⟩ := List.mem_map.1 hentry
  split_ifs
  · exact hf before hbefore
  · exact h before hbefore

theorem withinScale_insert {entries : List ReputationEntry} {entry : ReputationEntry}
    (h : Reputation.WithinScale scale entries)
    (hentry : entry.reputation ≤ scale ∧ entry.retainedReputation ≤ scale) :
    Reputation.WithinScale scale (Keyed.insert ReputationEntry.nodeId entries entry) := by
  intro other hother
  rcases Keyed.mem_insert.1 hother with rfl | hother
  · exact hentry
  · exact h other hother

theorem withinScale_setReputation (hs : s.WithinScale scale) {reputation : U64}
    (h : reputation ≤ scale) : (s.setReputation id reputation).WithinScale scale := by
  unfold setReputation
  split_ifs
  · exact hs
  · exact withinScale_modify hs fun entry hentry => ⟨h, (hs entry hentry).2⟩
  · exact withinScale_insert hs (withinScale_new id h)

theorem withinScale_ejectValidator (hs : s.WithinScale scale) (h : s.ejectValidator id = .ok t) :
    t.WithinScale scale := by
  unfold ejectValidator at h
  split_ifs at h
  · exact Except.ok.inj h ▸ hs
  · obtain rfl := Except.ok.inj h
    exact withinScale_modify hs fun entry hentry => ⟨Fin.zero_le _, (hs entry hentry).2⟩

/-- Tombstones have the retained balances of the state. -/
theorem withinScale_foldl_insertTombstone (hs : s.WithinScale scale) (ids : List NodeId)
    {entries : List ReputationEntry} (h : Reputation.WithinScale scale entries) :
    Reputation.WithinScale scale (ids.foldl s.insertTombstone entries) := by
  induction ids generalizing entries with
  | nil => exact h
  | cons id ids ih =>
      refine ih ?_
      unfold insertTombstone
      split_ifs
      · exact h
      · exact withinScale_insert h ⟨Fin.zero_le _, retainedOf_le hs id⟩

theorem withinScale_applyReputationVector {vector : ReputationVector} (hs : s.WithinScale scale)
    (hvector : Reputation.WithinScale scale vector.values)
    (h : s.applyReputationVector vector = .ok t) : t.WithinScale scale := by
  unfold applyReputationVector at h
  obtain ⟨-, h⟩ := check_eq_ok.1 h
  obtain ⟨-, h⟩ := guard_eq_ok.1 h
  obtain rfl := Except.ok.inj h
  refine withinScale_foldl_insertTombstone hs _ fun entry hentry => ?_
  obtain ⟨before, hbefore, rfl⟩ := List.mem_map.1 hentry
  unfold reapplyEjection
  split_ifs
  · exact ⟨Fin.zero_le _, retainedOf_le hs _⟩
  · exact hvector before hbefore

/-- **Every call keeps the list within the scale.** -/
theorem tryCall_withinScale (hs : s.WithinScale scale) (hc : c.WithinScale scale)
    (h : s.tryCall hasher c = .ok t) : t.WithinScale scale := by
  cases c with
  | addRating rating => exact Except.ok.inj h ▸ hs
  | setReputation id reputation => exact Except.ok.inj h ▸ withinScale_setReputation hs hc
  | ejectValidator id => exact withinScale_ejectValidator hs h
  | applyReputationVector vector => exact withinScale_applyReputationVector hs hc h
  | applyReputationBlock shardId wave ratings block config penalties =>
      obtain rfl : config.scale = scale := hc
      obtain ⟨hverify, h⟩ := check_eq_ok.1 h
      obtain ⟨list, hreplay, hbuilt⟩ := verify_eq_ok.1 hverify
      obtain ⟨-, -, rfl, -⟩ := build_spec hbuilt
      obtain rfl := Except.ok.inj h
      exact withinScale_replay
        (show Reputation.WithinScale config.scale s.previousVector.values from hs) hreplay
  | applyCheckpointReputationBlock shardId source ratings block config penalties =>
      obtain rfl : config.scale = scale := hc
      obtain ⟨hverify, h⟩ := check_eq_ok.1 h
      obtain ⟨list, hreplay, hbuilt⟩ := verifyCheckpoint_eq_ok.1 hverify
      obtain ⟨-, -, rfl, -⟩ := buildCheckpoint_spec hbuilt
      obtain rfl := Except.ok.inj h
      exact withinScale_replay
        (show Reputation.WithinScale config.scale s.previousVector.values from hs) hreplay
  | reload => exact reload_eq h ▸ hs

theorem call_withinScale (hs : s.WithinScale scale) (hc : c.WithinScale scale) :
    (s.call hasher c).WithinScale scale := by
  unfold call
  split
  · next t h => exact tryCall_withinScale hs hc h
  · exact hs

theorem calls_withinScale (hs : s.WithinScale scale) {cs : List ReputationCall}
    (hcs : ∀ c ∈ cs, c.WithinScale scale) : (s.calls hasher cs).WithinScale scale := by
  induction cs generalizing s with
  | nil => exact hs
  | cons c cs ih =>
      obtain ⟨hc, hcs⟩ := List.forall_mem_cons.1 hcs
      exact ih (call_withinScale hs hc) hcs

end ReputationState

/-- **Reputations stay within the scale.**  What the clamp returns is at most value and scale,
positive for a positive value and monotone; a normalized score is at most the scale; a replay
of a vector within the scale returns an ordered list within it; and so does every run of calls
that apply blocks, whether they succeed or not, with whatever other calls between them that
bring in nothing above the scale. -/
theorem reputation_within_scale (config : PorConfig) :
    (∀ value result, clampReputationValue value config.scale = .ok result →
      result ≤ min value config.scale ∧ (0 < value → 0 < result) ∧
        ∀ value' result', clampReputationValue value' config.scale = .ok result' →
          value ≤ value' → result ≤ result') ∧
    (∀ matrix normalized, normalizeRatingMatrix matrix config = .ok normalized →
      ∀ rating ∈ normalized.ratings, rating.normalizedScore ≤ config.scale) ∧
    (∀ hasher previous ratings round penalties list, WithinScale config.scale previous.values →
      replayReputationTransitionWithPenalties hasher previous ratings round config penalties =
        .ok list → Ordered list.entries ∧ WithinScale config.scale list.entries) ∧
    ∀ hasher (s : ReputationState) cs, s.Reachable hasher → s.WithinScale config.scale →
      (∀ c ∈ cs, ReputationCall.WithinScale config.scale c) →
      Ordered (s.calls hasher cs).reputationList.entries ∧
        (s.calls hasher cs).WithinScale config.scale := by
  refine ⟨fun value result h => ⟨clampReputationValue_le h, clampReputationValue_pos h,
    fun value' result' h' => clampReputationValue_mono h h'⟩, fun matrix normalized h =>
    normalized_le_scale h, fun hasher previous ratings round penalties list hprevious h =>
    ⟨ordered_replay h, withinScale_replay hprevious h⟩, fun hasher s cs hs hwithin hcs =>
    ⟨(ReputationState.calls_spec hs.sound cs).1.consistent.ordered,
      ReputationState.calls_withinScale hwithin hcs⟩⟩

theorem reputation_within_scale_staleCalls :
    Ordered ((ReputationState.new 0).calls sumHasher
        ReputationState.staleCalls).reputationList.entries ∧
      ((ReputationState.new 0).calls sumHasher ReputationState.staleCalls).WithinScale
        PorConfig.default.scale := by
  have hassigned : (200000000 : U64) ≤ PorConfig.default.scale ∧
      (400000000 : U64) ≤ PorConfig.default.scale := by decide +kernel
  have hvector : ∀ entry ∈ sampleList.entries, entry.reputation ≤ PorConfig.default.scale ∧
      entry.retainedReputation ≤ PorConfig.default.scale := by decide +kernel
  refine (reputation_within_scale .default).2.2.2 sumHasher (.new 0) ReputationState.staleCalls
    (.new 0) (fun entry hentry => absurd hentry List.not_mem_nil) ?_
  exact List.forall_mem_cons.2 ⟨hassigned.1, List.forall_mem_cons.2 ⟨hassigned.2,
    List.forall_mem_cons.2 ⟨rfl, List.forall_mem_cons.2 ⟨hvector, by simp⟩⟩⟩⟩

end CordialMiners.Reputation
