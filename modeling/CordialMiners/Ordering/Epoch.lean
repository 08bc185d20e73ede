/-
# The output across a weight epoch

`weighted_tau_after_epoch_boundary` of `consensus/ordering.rs`.

A weight epoch seals the output of one final leader under the old bond table;
leaders of later waves are found under the new table and emit on top of the
sealed prefix.  The epoch walk searches only the waves from the effective wave
on, so it never asks which leader the sealed one continues.

With equal tables it is the ordinary recursion: the waves strictly fall along
the chain of leaders (`previous_wave_lt`), so a chain that passes through the
sealed leader visits no other wave below the effective one, and the walk emits
exactly the leaders above it (`fromEpochLeader_of_meets`).  Whatever the tables
are, a walk that returns is a fold of fragments over the sealed prefix
(`fromEpochLeader_fold`), which only appends and repeats nothing.
-/

import CordialMiners.Ordering.Stability

namespace CordialMiners

open FinGraph Relation
open Codec (bind_eq_ok mapError_eq_ok)

/-- `WeightedEpochBoundary`: the leader whose output is sealed, that output, and
the first wave of the new table. -/
structure WeightedEpochBoundary where
  finalLeader : BlockIdentity
  orderedPrefix : List BlockIdentity
  effectiveWave : ℕ
deriving DecidableEq, Repr

/-- `WeightedEpochError`. -/
inductive WeightedEpochError where
  | invalidBoundary
  | validatorSetMismatch
  | boundaryNotFinal
  | prefixMismatch
  | leaderOutsideBoundary
  | ordering (error : OrderingError)
deriving DecidableEq, Repr

/-- The wave of a stored block. -/
def waveOfLeader (B : Blocklace) (leader : BlockIdentity) (wavelength : ℕ) : Option ℕ :=
  (B.depth leader).bind fun round => waveOfRound round wavelength

/-- The newest final leader of the waves from `first` up to the current one that
the current block ratifies. -/
def Ladder.previousFrom (ladder : Ladder) (B : Blocklace) (currentBlock : Block)
    (wavelength : ℕ) (leaderSelection : LeaderSelection) (first currentWave : ℕ) :
    Option BlockIdentity :=
  (List.range' first (currentWave - first)).reverse.findSome?
    (ladder.ratifiedLeader B currentBlock wavelength leaderSelection)

/-- `weighted_tau_from_epoch_leader`.  The previous leader lies in an earlier
wave, so the round of the leader bounds the recursion; running out of fuel stands
for a recursion that does not return. -/
def Ladder.fromEpochLeader (ladder : Ladder) (B : Blocklace) (wavelength : ℕ)
    (boundary : WeightedEpochBoundary) (leaderSelection : LeaderSelection) :
    ℕ → BlockIdentity → List BlockIdentity → Except WeightedEpochError (List BlockIdentity)
  | 0, _, _ => .error (.ordering .cycleDetected)
  | fuel + 1, leader, ordered =>
      match waveOfLeader B leader wavelength with
      | none => .error .leaderOutsideBoundary
      | some currentWave =>
          if currentWave < boundary.effectiveWave ∨
              B.precedes boundary.finalLeader leader = false then
            .error .leaderOutsideBoundary
          else
            match B.get leader with
            | none => .error .leaderOutsideBoundary
            | some currentBlock => do
                let ordered ←
                  match ladder.previousFrom B currentBlock wavelength leaderSelection
                      boundary.effectiveWave currentWave with
                  | some previous =>
                      fromEpochLeader ladder B wavelength boundary leaderSelection fuel previous
                        ordered
                  | none => .ok ordered
                (B.emitFragment ordered leader).mapError .ordering

namespace Blocklace

/-- `weighted_tau_from_epoch_leader`. -/
def weightedTauFromEpochLeader (B : Blocklace) (leader : BlockIdentity) (wavelength : ℕ)
    (bonds : Bonds) (boundary : WeightedEpochBoundary) (leaderSelection : LeaderSelection)
    (ordered : List BlockIdentity) : Except WeightedEpochError (List BlockIdentity) :=
  (stakeLadder (.fromBonds bonds)).fromEpochLeader B wavelength boundary leaderSelection
    (Ladder.tauFuel B leader) leader ordered

/-- What follows the sealed prefix under the new table. -/
def weightedTauBeyondBoundary (B : Blocklace) (wavelength : ℕ) (newBonds : Bonds)
    (boundary : WeightedEpochBoundary) (leaderSelection : LeaderSelection)
    (oldPrefix : List BlockIdentity) :
    Except WeightedEpochError (List BlockIdentity × BlockIdentity) :=
  match B.latestWeightedFinalLeader wavelength newBonds leaderSelection with
  | none => .ok (oldPrefix, boundary.finalLeader)
  | some latestLeader =>
      match waveOfLeader B latestLeader wavelength with
      | none => .error .leaderOutsideBoundary
      | some latestWave =>
          if latestWave < boundary.effectiveWave then .ok (oldPrefix, boundary.finalLeader)
          else do
            let ordered ← B.weightedTauFromEpochLeader latestLeader wavelength newBonds boundary
              leaderSelection oldPrefix
            .ok (ordered, latestLeader)

/-- `weighted_tau_after_epoch_boundary`. -/
def weightedTauAfterEpochBoundary (B : Blocklace) (wavelength : ℕ) (oldBonds newBonds : Bonds)
    (boundary : WeightedEpochBoundary) (leaderSelection : LeaderSelection) :
    Except WeightedEpochError (List BlockIdentity × BlockIdentity) :=
  if oldBonds.table.keys.length ≠ newBonds.table.keys.length ∨
      ¬ ∀ validator ∈ oldBonds.table.keys, validator ∈ newBonds.table.keys then
    .error .validatorSetMismatch
  else
    match waveOfLeader B boundary.finalLeader wavelength with
    | none => .error .invalidBoundary
    | some boundaryWave =>
        if boundary.effectiveWave ≤ boundaryWave then .error .invalidBoundary
        else if ¬ (B.weightedFinalLeaderForWave boundaryWave wavelength oldBonds
            leaderSelection).any (·.sameConsensusIdentity boundary.finalLeader) then
          .error .boundaryNotFinal
        else do
          let oldPrefix ← (B.weightedTauAtLeader boundary.finalLeader wavelength oldBonds
            leaderSelection).mapError .ordering
          if oldPrefix ≠ boundary.orderedPrefix then .error .prefixMismatch
          else B.weightedTauBeyondBoundary wavelength newBonds boundary leaderSelection oldPrefix

end Blocklace

/-! ### The waves of a chain -/

namespace Ladder

open Blocklace

variable {ladder : Ladder} {Q : Quorum.Rule NodeId} {B : Blocklace} {w wave first m d e : ℕ}
  {ls : LeaderSelection} {L P A : BlockIdentity}

theorem waveOfLeader_eq (hL : B.Round L d) (hw : 0 < w) : waveOfLeader B L w = some (d / w) := by
  unfold waveOfLeader
  rw [hL.depth, Option.bind_some, waveOfRound_eq_some.2 ⟨hw, rfl⟩]

/-- A backward search over the waves from `first` to `m` finds the newest hit. -/
theorem findSome_reverse_range' {α : Type} {f : ℕ → Option α} {y : α} :
    (List.range' first (m - first)).reverse.findSome? f = some y ↔
      ∃ k, first ≤ k ∧ k < m ∧ f k = some y ∧ ∀ j, k < j → j < m → f j = none := by
  obtain hle | hlt := le_or_gt m first
  · rw [show m - first = 0 by omega]
    refine iff_of_false (by simp) ?_
    rintro ⟨k, hk, hkm, -⟩
    omega
  · have hshift : (List.range' first (m - first)).reverse.findSome? f =
        (List.range (m - first)).reverse.findSome? fun i => f (first + i) := by
      rw [List.range'_eq_map_range, ← List.map_reverse, List.findSome?_map]
      rfl
    rw [hshift, findSome_reverse_range]
    constructor
    · rintro ⟨k, hk, hf, hlater⟩
      refine ⟨first + k, by omega, by omega, hf, fun j hj hjm => ?_⟩
      have := hlater (j - first) (by omega) (by omega)
      rwa [show first + (j - first) = j by omega] at this
    · rintro ⟨k, hk, hkm, hf, hlater⟩
      refine ⟨k - first, by omega, ?_, fun j hj hlt => hlater (first + j) (by omega) (by omega)⟩
      rwa [show first + (k - first) = k by omega]

/-- **The waves fall along the chain of leaders.** -/
theorem previous_wave_lt (hQ : ladder.Decides Q) (hcp : B.checkpoint = none) (hL : B.Round L d)
    (hP : B.Round P e) (h : ladder.previous B L w ls = some P) : e / w < d / w := by
  obtain ⟨hw, wave, hlt, hat, -⟩ := (previous_iff hQ hL).1 h
  obtain ⟨hfinal, -⟩ := (previousAt_iff_of_no_checkpoint hcp).1 hat
  obtain ⟨hu, -⟩ := (finalForWave_iff hQ).1 hfinal
  rw [← hu.round.unique hP, Nat.mul_div_cancel _ hw]
  exact hlt

/-- The bounded search agrees with the search for the previous leader, as long as
that leader lies within the bound. -/
theorem previousFrom_of_previous (hQ : ladder.Decides Q) (hcp : B.checkpoint = none)
    (block : Block) (hL : B.Round block.identity d) (hP : B.Round P e)
    (h : ladder.previous B block.identity w ls = some P) :
    ladder.previousFrom B block w ls first (d / w) = if first ≤ e / w then some P else none := by
  obtain ⟨hw, wave, hlt, hat, hlater⟩ := (previous_iff hQ hL).1 h
  obtain ⟨hfinal, hrat⟩ := (previousAt_iff_of_no_checkpoint hcp).1 hat
  obtain ⟨hu, -⟩ := (finalForWave_iff hQ).1 hfinal
  have hwave : e / w = wave := by rw [← hu.round.unique hP, Nat.mul_div_cancel _ hw]
  have hnone : ∀ j, wave < j → j < d / w → ladder.ratifiedLeader B block w ls j = none := by
    intro j hj hjd
    cases hx : ladder.ratifiedLeader B block w ls j with
    | none => rfl
    | some P' =>
        have hP' := (previousAt_iff_of_no_checkpoint hcp).2 ((ratifiedLeader_iff hQ hL).1 hx)
        exact absurd hP' (hlater j hjd hj P')
  unfold previousFrom
  split_ifs with hfirst
  · exact findSome_reverse_range'.2
      ⟨wave, by omega, hlt, (ratifiedLeader_iff hQ hL).2 ⟨hfinal, hrat⟩, hnone⟩
  · cases hx : (List.range' first (d / w - first)).reverse.findSome?
        (ladder.ratifiedLeader B block w ls) with
    | none => rfl
    | some P' =>
        obtain ⟨k, hk, hkd, hk', -⟩ := findSome_reverse_range'.1 hx
        rw [hnone k (by omega) hkd] at hk'
        exact absurd hk' (by simp)

/-! ### The walk above the sealed leader -/

variable {boundary : WeightedEpochBoundary} {fuel : ℕ} {ordered : List BlockIdentity}
  {base leaders : List BlockIdentity}

variable (ladder ls) in
/-- One call of the walk, for a leader inside the epoch. -/
theorem fromEpochLeader_succ {block : Block} (hs : B.Stores block)
    (hL : B.Round block.identity d) (hw : 0 < w) (hwave : boundary.effectiveWave ≤ d / w)
    (hbelow : B.Below boundary.finalLeader block.identity) (fuel : ℕ)
    (ordered : List BlockIdentity) :
    ladder.fromEpochLeader B w boundary ls (fuel + 1) block.identity ordered =
      (match ladder.previousFrom B block w ls boundary.effectiveWave (d / w) with
        | some previous => ladder.fromEpochLeader B w boundary ls fuel previous ordered
        | none => .ok ordered) >>= fun ordered =>
          (B.emitFragment ordered block.identity).mapError .ordering := by
  obtain ⟨k, -, hA⟩ := hL.of_below hbelow
  have hprec : B.precedes boundary.finalLeader block.identity = true :=
    (precedes_of_mem hA.mem).2 hbelow
  rw [fromEpochLeader, waveOfLeader_eq hL hw]
  simp only
  rw [if_neg (by rw [hprec]; simp; omega), hs.get]
  cases hp : ladder.previousFrom B block w ls boundary.effectiveWave (d / w) <;> simp only [hp]

/-- **The walk from a leader whose chain passes through the sealed one emits the
leaders above it.** -/
theorem fromEpochLeader_of_meets (hQ : ladder.Decides Q) (hcp : B.checkpoint = none)
    (hw : 0 < w) (hA : B.Round boundary.finalLeader e)
    (heff : boundary.effectiveWave = e / w + 1) (hc : ladder.Chain B w ls boundary.finalLeader
      base leaders)
    (h : TransGen (fun x y => ladder.previous B x w ls = some y) L boundary.finalLeader)
    (hL : B.Round L d) :
    boundary.effectiveWave ≤ d / w ∧ B.Below boundary.finalLeader L ∧
      ∃ later, ladder.Chain B w ls L base (leaders ++ later) ∧
      ∀ fuel ordered, d < fuel → ladder.fromEpochLeader B w boundary ls fuel L ordered =
        (later.foldlM B.emitFragment ordered).mapError .ordering := by
  induction h using TransGen.head_induction_on generalizing d with
  | @single L hp =>
      have hlt := previous_wave_lt hQ hcp hL hA hp
      obtain ⟨c, hc'⟩ := exists_lookup hL.mem
      have hs : B.Stores ⟨L, c⟩ := hc'
      have hbelow := previous_below hQ hL hp
      refine ⟨by omega, hbelow, [L], .next (emitCheckpointPrefix_none hcp _ _) hp hc,
        fun fuel ordered hfuel => ?_⟩
      obtain ⟨fuel, rfl⟩ := Nat.exists_eq_succ_of_ne_zero (by omega : fuel ≠ 0)
      have hstep := fromEpochLeader_succ ladder ls hs hL hw (by omega)
        hbelow fuel ordered
      -- the sealed leader lies below the first wave of the search
      rw [previousFrom_of_previous hQ hcp ⟨L, c⟩ hL hA hp, if_neg (by omega)] at hstep
      refine hstep.trans ?_
      rw [List.foldlM_cons]
      exact congrArg (Except.mapError WeightedEpochError.ordering) (bind_pure _).symm
  | @head L P hp _ ih =>
      obtain ⟨k, hkd, hP⟩ := hL.of_below (previous_below hQ hL hp)
      obtain ⟨hwave, hbelowP, later, hchain, hwalk⟩ := ih hP
      have hlt := previous_wave_lt hQ hcp hL hP hp
      obtain ⟨c, hc'⟩ := exists_lookup hL.mem
      have hs : B.Stores ⟨L, c⟩ := hc'
      have hbelow : B.Below boundary.finalLeader L := (previous_below hQ hL hp).trans hbelowP
      refine ⟨by omega, hbelow, later ++ [L], ?_, fun fuel ordered hfuel => ?_⟩
      · rw [← List.append_assoc]
        exact .next (emitCheckpointPrefix_none hcp _ _) hp hchain
      · obtain ⟨fuel, rfl⟩ := Nat.exists_eq_succ_of_ne_zero (by omega : fuel ≠ 0)
        have hstep := fromEpochLeader_succ ladder ls hs hL hw (by omega)
          hbelow fuel ordered
        rw [previousFrom_of_previous hQ hcp ⟨L, c⟩ hL hP hp, if_pos (by omega)] at hstep
        simp only [hwalk fuel ordered (by omega)] at hstep
        refine hstep.trans ?_
        rw [List.foldlM_append]
        cases hx : later.foldlM B.emitFragment ordered with
        | error error => rfl
        | ok out => exact congrArg (Except.mapError WeightedEpochError.ordering) (bind_pure _).symm

/-- The fuel of the walk is enough: a previous leader has a smaller round. -/
theorem fromEpochLeader_fuel (hQ : ladder.Decides Q) (hL : B.Round L d) {fuel fuel' : ℕ}
    (hfuel : d < fuel) (hfuel' : d < fuel') (ordered : List BlockIdentity) :
    ladder.fromEpochLeader B w boundary ls fuel L ordered =
      ladder.fromEpochLeader B w boundary ls fuel' L ordered := by
  induction d using Nat.strong_induction_on generalizing L fuel fuel' ordered with
  | _ d ih =>
      obtain ⟨fuel, rfl⟩ := Nat.exists_eq_succ_of_ne_zero (by omega : fuel ≠ 0)
      obtain ⟨fuel', rfl⟩ := Nat.exists_eq_succ_of_ne_zero (by omega : fuel' ≠ 0)
      rw [fromEpochLeader, fromEpochLeader]
      cases hwave : waveOfLeader B L w with
      | none => rfl
      | some currentWave =>
          cases hget : B.get L with
          | none => rfl
          | some block =>
              cases hp : ladder.previousFrom B block w ls boundary.effectiveWave currentWave with
              | none => simp only [hp]
              | some P =>
                  obtain ⟨k, -, hk, hP, -⟩ := findSome_reverse_range'.1 hp
                  have hfinal : ladder.finalForWave B k w ls = some P := by
                    obtain ⟨P', hP', hrest⟩ := Option.bind_eq_some_iff.1 hP
                    obtain ⟨block', -, hif⟩ := Option.bind_eq_some_iff.1 hrest
                    split_ifs at hif
                    obtain rfl := Option.some.inj hif
                    exact hP'
                  obtain ⟨hu, -⟩ := (finalForWave_iff hQ).1 hfinal
                  have hw := hu.pos
                  rw [waveOfLeader_eq hL hw] at hwave
                  obtain rfl := Option.some.inj hwave
                  have hlt : k * w < d := by
                    calc k * w < d / w * w := Nat.mul_lt_mul_of_pos_right hk hw
                      _ ≤ d := Nat.div_mul_le_self d w
                  simp only [hp, ih (k * w) hlt hu.round (by omega : k * w < fuel)
                    (by omega : k * w < fuel') ordered]

/-! ### Folds of fragments -/

/-- One more fragment on top of a fold. -/
theorem foldlM_emitFragment_nil (B : Blocklace) (ordered : List BlockIdentity) :
    ([] : List BlockIdentity).foldlM B.emitFragment ordered = .ok ordered := rfl

theorem foldlM_concat_emitFragment {below out : List BlockIdentity}
    (hbelow : leaders.foldlM B.emitFragment ordered = .ok below)
    (hout : B.emitFragment below L = .ok out) :
    (leaders ++ [L]).foldlM B.emitFragment ordered = .ok out := by
  rw [List.foldlM_append, hbelow]
  exact (bind_pure (B.emitFragment below L)).trans hout

/-- **A walk that returns is a fold of fragments** over what it started from. -/
theorem fromEpochLeader_fold {out : List BlockIdentity}
    (h : ladder.fromEpochLeader B w boundary ls fuel L ordered = .ok out) :
    ∃ leaders : List BlockIdentity, leaders.foldlM B.emitFragment ordered = .ok out := by
  induction fuel generalizing L out with
  | zero => exact absurd h (by simp [fromEpochLeader])
  | succ fuel ih =>
      rw [fromEpochLeader] at h
      split at h
      · exact absurd h (by simp)
      · next currentWave _ =>
        split_ifs at h
        split at h
        · exact absurd h (by simp)
        · next block _ =>
          cases hp : ladder.previousFrom B block w ls boundary.effectiveWave currentWave with
          | none =>
              simp only [hp] at h
              exact ⟨[L], foldlM_concat_emitFragment (foldlM_emitFragment_nil B ordered)
                (mapError_eq_ok.1 h)⟩
          | some P =>
              simp only [hp] at h
              obtain ⟨below, hbelow, hemit⟩ := bind_eq_ok.1 h
              obtain ⟨leaders, hfold⟩ := ih hbelow
              exact ⟨leaders ++ [L],
                foldlM_concat_emitFragment hfold (mapError_eq_ok.1 hemit)⟩

/-- Without a checkpoint the ordinary recursion is a fold of fragments as well. -/
theorem tauFromLeader_fold (hcp : B.checkpoint = none) {out : List BlockIdentity}
    (h : ladder.tauFromLeader B w ls fuel L ordered = .ok out) :
    ∃ leaders : List BlockIdentity, leaders.foldlM B.emitFragment ordered = .ok out := by
  induction fuel generalizing L out with
  | zero => exact absurd h (by simp [tauFromLeader])
  | succ fuel ih =>
      rw [tauFromLeader] at h
      simp only [emitCheckpointPrefix_none hcp] at h
      cases hp : ladder.previous B L w ls with
      | none =>
          simp only [hp, emitBelow_of_no_checkpoint hcp] at h
          exact ⟨[L], foldlM_concat_emitFragment (foldlM_emitFragment_nil B ordered) h⟩
      | some P =>
          simp only [hp] at h
          obtain ⟨below, hbelow, hemit⟩ := bind_eq_ok.1 h
          obtain ⟨leaders, hfold⟩ := ih hbelow
          exact ⟨leaders ++ [L], foldlM_concat_emitFragment hfold hemit⟩

end Ladder

namespace Blocklace

variable {B : Blocklace} {L : BlockIdentity} {w : ℕ} {ls : LeaderSelection}
  {ordered out leaders : List BlockIdentity}

/-- A fragment repeats nothing. -/
theorem nodup_emitFragment (hnd : ordered.Nodup) (h : B.emitFragment ordered L = .ok out) :
    out.Nodup := by
  obtain ⟨l, hl, -, rfl⟩ := emitFragment_eq_ok.1 h
  refine List.nodup_append.2 ⟨hnd, hl.nodup_map fun x hx => freshSet_mem hx, ?_⟩
  rintro y hy z hz rfl
  obtain ⟨x, hx, rfl⟩ := List.mem_map.1 hz
  exact (hl.mem hx).2 hy

theorem nodup_foldlM_emitFragment (hnd : ordered.Nodup)
    (h : leaders.foldlM B.emitFragment ordered = .ok out) : out.Nodup := by
  induction leaders generalizing ordered with
  | nil =>
      obtain rfl := Except.ok.inj h
      exact hnd
  | cons L leaders ih =>
      rw [List.foldlM_cons] at h
      obtain ⟨next, hnext, h⟩ := bind_eq_ok.1 h
      exact ih (nodup_emitFragment hnd hnext) h

/-! ### The boundary -/

/-- What the checks before the walk establish. -/
theorem weightedTauAfterEpochBoundary_ok {oldBonds newBonds : Bonds}
    {boundary : WeightedEpochBoundary} {result : List BlockIdentity × BlockIdentity}
    (h : B.weightedTauAfterEpochBoundary w oldBonds newBonds boundary ls = .ok result) :
    B.weightedTauAtLeader boundary.finalLeader w oldBonds ls = .ok boundary.orderedPrefix ∧
      B.weightedTauBeyondBoundary w newBonds boundary ls boundary.orderedPrefix = .ok result := by
  unfold weightedTauAfterEpochBoundary at h
  split_ifs at h
  split at h
  · exact absurd h (by simp)
  · split_ifs at h
    obtain ⟨oldPrefix, hold, h⟩ := bind_eq_ok.1 h
    split_ifs at h with hne
    rw [not_not] at hne
    subst hne
    exact ⟨mapError_eq_ok.1 hold, h⟩

/-- What lies beyond the boundary is a fold of fragments over the sealed prefix. -/
theorem weightedTauBeyondBoundary_fold {newBonds : Bonds} {boundary : WeightedEpochBoundary}
    (h : B.weightedTauBeyondBoundary w newBonds boundary ls ordered = .ok (out, L)) :
    ∃ leaders : List BlockIdentity, leaders.foldlM B.emitFragment ordered = .ok out := by
  unfold weightedTauBeyondBoundary at h
  split at h
  · exact ⟨[], by rw [← (Prod.mk.inj (Except.ok.inj h)).1]; rfl⟩
  · split at h
    · exact absurd h (by simp)
    · split_ifs at h
      · exact ⟨[], by rw [← (Prod.mk.inj (Except.ok.inj h)).1]; rfl⟩
      · obtain ⟨ordered', hwalk, h⟩ := bind_eq_ok.1 h
        rw [← (Prod.mk.inj (Except.ok.inj h)).1]
        exact Ladder.fromEpochLeader_fold hwalk

/-- **A weight epoch with equal tables changes nothing, and every weight epoch
extends the sealed prefix without repeating a block.**

If the sealed leader is the final leader of its wave under `bonds`, its output is
sealed, the epoch starts with the next wave and the recursion of `weightedTau`
meets the sealed leader, then the call with equal tables returns the list and the
latest leader of `weightedTau`. -/
theorem weight_epoch_boundary (hcp : B.checkpoint = none) (boundary : WeightedEpochBoundary) :
    (∀ (bonds : Bonds) (wave : ℕ) (latest : BlockIdentity),
      B.weightedFinalLeaderForWave wave w bonds ls = some boundary.finalLeader →
      B.weightedTauAtLeader boundary.finalLeader w bonds ls = .ok boundary.orderedPrefix →
      boundary.effectiveWave = wave + 1 →
      B.latestWeightedFinalLeader w bonds ls = some latest →
      (stakeLadder (.fromBonds bonds)).Meets B w ls latest boundary.finalLeader →
      ∃ out, B.weightedTau w bonds ls = .ok out ∧
        B.weightedTauAfterEpochBoundary w bonds bonds boundary ls = .ok (out, latest)) ∧
    ∀ (oldBonds newBonds : Bonds) (out : List BlockIdentity) (leader : BlockIdentity),
      B.weightedTauAfterEpochBoundary w oldBonds newBonds boundary ls = .ok (out, leader) →
      boundary.orderedPrefix <+: out ∧ out.Nodup := by
  constructor
  · intro bonds wave latest hfinal hprefix heff hlatest hmeets
    have hQ := stakeLadder_decides bonds
    obtain ⟨hu, -⟩ := (Ladder.finalForWave_iff hQ).1 hfinal
    have hw := hu.pos
    have hdiv : wave * w / w = wave := Nat.mul_div_cancel _ hw
    obtain ⟨latestWave, hfinalLatest, -⟩ := (Ladder.latest_iff_finalForWave hQ hcp).1 hlatest
    obtain ⟨huLatest, -⟩ := (Ladder.finalForWave_iff hQ).1 hfinalLatest
    -- the checks pass and the walk starts from the sealed prefix
    have hchecks : B.weightedTauAfterEpochBoundary w bonds bonds boundary ls =
        B.weightedTauBeyondBoundary w bonds boundary ls boundary.orderedPrefix := by
      unfold weightedTauAfterEpochBoundary
      rw [if_neg (by simp), Ladder.waveOfLeader_eq hu.round hw, hdiv]
      simp only
      rw [if_neg (by omega), if_neg (by simp [hfinal, BlockIdentity.sameConsensusIdentity_iff]),
        hprefix]
      exact if_neg (by simp)
    have htau : B.weightedTau w bonds ls = B.weightedTauAtLeader latest w bonds ls := by
      unfold weightedTau Ladder.tau
      rw [show (stakeLadder (.fromBonds bonds)).latest B w ls = some latest from hlatest]
      rfl
    rw [hchecks, htau]
    unfold weightedTauBeyondBoundary
    rw [hlatest]
    simp only [Ladder.waveOfLeader_eq huLatest.round hw]
    rcases Relation.reflTransGen_iff_eq_or_transGen.1 hmeets with heq | hmeets
    · -- the sealed leader is still the latest one
      obtain rfl : boundary.finalLeader = latest := heq
      rw [hu.round.unique huLatest.round] at hdiv
      rw [if_pos (by omega)]
      exact ⟨_, hprefix, rfl⟩
    · obtain ⟨base, leaders, hc⟩ := Ladder.exists_chain hQ w ls hu.round
      obtain ⟨hwave, -, later, hchain, hwalk⟩ := Ladder.fromEpochLeader_of_meets hQ hcp hw hu.round
        (by omega) hc hmeets huLatest.round
      obtain rfl := hc.base_eq hcp
      have hsealed : leaders.foldlM B.emitFragment [] = .ok boundary.orderedPrefix :=
        (Ladder.tauAtLeader_eq hQ hu.round hc).symm.trans hprefix
      have hround : ∀ M ∈ later, ∃ d, B.Round M d := by
        intro M hM
        have hsees := hchain.sees hQ huLatest.round (List.mem_append_right _ hM)
        obtain ⟨e, -, he⟩ := huLatest.round.of_sees hsees
        exact ⟨e, he⟩
      obtain ⟨out, hout⟩ := exists_foldlM_emitFragment hcp hround boundary.orderedPrefix
      refine ⟨out, ?_, ?_⟩
      · refine (Ladder.tauAtLeader_eq hQ huLatest.round hchain).trans ?_
        rw [List.foldlM_append, hsealed]
        exact hout
      · have hrun := hwalk (Ladder.tauFuel B latest) boundary.orderedPrefix (by
          unfold Ladder.tauFuel
          rw [huLatest.round.depth, Option.getD_some]
          omega)
        unfold weightedTauFromEpochLeader
        rw [if_neg (by omega), hrun, hout]
        rfl
  · intro oldBonds newBonds out leader h
    obtain ⟨hold, hnew⟩ := weightedTauAfterEpochBoundary_ok h
    obtain ⟨earlier, hearlier⟩ := Ladder.tauFromLeader_fold hcp hold
    obtain ⟨later, hlater⟩ := weightedTauBeyondBoundary_fold hnew
    exact ⟨prefix_foldlM_emitFragment hlater,
      nodup_foldlM_emitFragment (nodup_foldlM_emitFragment List.nodup_nil hearlier) hlater⟩

/-- Creator `1` leads every wave; its third block also sees a block of creator `2`. -/
def epochChain : Blocklace :=
  (Blocklace.new 0).growBy
    [sampleBlock (sampleId 2 1) [], sampleBlock (sampleId 1 2) [],
      sampleBlock (sampleId 3 1) [sampleId 2 1],
      sampleBlock (sampleId 4 1) [sampleId 3 1, sampleId 1 2]]

/-- The hypotheses of `weight_epoch_boundary` are met by the first leader of three. -/
theorem weight_epoch_boundary_epochChain :
    ∃ out, epochChain.weightedTau 1 soleBond (fun _ => some ⟨[1]⟩) = .ok out ∧
      epochChain.weightedTauAfterEpochBoundary 1 soleBond soleBond
        ⟨sampleId 2 1, [sampleId 2 1], 1⟩ (fun _ => some ⟨[1]⟩) =
          .ok (out, sampleId 4 1) := by
  refine (weight_epoch_boundary (by decide +kernel) _).1 soleBond 0 (sampleId 4 1)
    (by decide +kernel) (by decide +kernel) rfl (by decide +kernel) ?_
  have hfirst : (stakeLadder (.fromBonds soleBond)).previous epochChain (sampleId 4 1) 1
      (fun _ => some ⟨[1]⟩) = some (sampleId 3 1) := by decide +kernel
  have hsecond : (stakeLadder (.fromBonds soleBond)).previous epochChain (sampleId 3 1) 1
      (fun _ => some ⟨[1]⟩) = some (sampleId 2 1) := by decide +kernel
  exact ReflTransGen.head hfirst (ReflTransGen.single hsecond)

end Blocklace

end CordialMiners
