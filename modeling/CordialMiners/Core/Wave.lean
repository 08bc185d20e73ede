/-
# Waves

`crates/cordial-miners-core/src/consensus/wave.rs`.

Rounds are grouped into waves of `wavelength` rounds; the first round of a wave
is its leader round, and the blocks of the selected leader in it are its leader
blocks.  Products and sums of rounds are checked `u64` operations.
-/

import CordialMiners.Core.Round

namespace CordialMiners

/-- `u64::checked_mul`. -/
def checkedMul64 (a b : ℕ) : Option ℕ := if a * b < 2 ^ 64 then some (a * b) else none

/-- `u64::checked_add`. -/
def checkedAdd64 (a b : ℕ) : Option ℕ := if a + b < 2 ^ 64 then some (a + b) else none

/-- The wave that contains `round`. -/
def waveOfRound (round wavelength : ℕ) : Option ℕ :=
  if wavelength = 0 then none else some (round / wavelength)

/-- The first round of `wave`. -/
def firstRoundOfWave (wave wavelength : ℕ) : Option ℕ :=
  if wavelength = 0 then none else checkedMul64 wave wavelength

/-- The last round of `wave`. -/
def lastRoundOfWave (wave wavelength : ℕ) : Option ℕ :=
  (firstRoundOfWave wave wavelength).bind fun first => checkedAdd64 first (wavelength - 1)

/-- The leader round of a wave is its first round. -/
def leaderRoundOfWave (wave wavelength : ℕ) : Option ℕ := firstRoundOfWave wave wavelength

/-- A leader function: the miner selected for each wave. -/
abbrev LeaderSelection := ℕ → Option NodeId

/-- All leader blocks of `wave`. -/
def leaderBlocksOfWave (B : Blocklace) (wave wavelength : ℕ) (leaderSelection : LeaderSelection) :
    List Block :=
  match leaderSelection wave with
  | none => []
  | some leader =>
      match leaderRoundOfWave wave wavelength with
      | none => []
      | some leaderRound =>
          (B.blocksAtDepth leaderRound).filter fun block => block.identity.creator = leader

variable {round wave wavelength r : ℕ}

theorem waveOfRound_eq_some : waveOfRound round wavelength = some wave ↔
    0 < wavelength ∧ round / wavelength = wave := by
  unfold waveOfRound
  split_ifs with h
  · simp [h]
  · simp [Nat.pos_of_ne_zero h]

theorem firstRoundOfWave_eq_some : firstRoundOfWave wave wavelength = some r ↔
    0 < wavelength ∧ wave * wavelength = r ∧ r < 2 ^ 64 := by
  unfold firstRoundOfWave checkedMul64
  split_ifs with h hlt
  · simp [h]
  · simp only [Option.some.injEq, Nat.pos_of_ne_zero h, true_and]
    constructor
    · rintro rfl
      exact ⟨rfl, hlt⟩
    · exact fun hr => hr.1
  · simp only [false_iff, not_and]
    rintro - rfl
    exact hlt

theorem lastRoundOfWave_eq_some : lastRoundOfWave wave wavelength = some r ↔
    0 < wavelength ∧ wave * wavelength + (wavelength - 1) = r ∧ r < 2 ^ 64 := by
  unfold lastRoundOfWave
  rw [Option.bind_eq_some_iff]
  constructor
  · rintro ⟨first, hf, hl⟩
    obtain ⟨hw, rfl, -⟩ := firstRoundOfWave_eq_some.1 hf
    unfold checkedAdd64 at hl
    split_ifs at hl with hlt
    obtain rfl := Option.some.inj hl
    exact ⟨hw, rfl, hlt⟩
  · rintro ⟨hw, rfl, hlt⟩
    refine ⟨wave * wavelength, firstRoundOfWave_eq_some.2 ⟨hw, rfl, by omega⟩, ?_⟩
    exact if_pos hlt

/-- **A leader block is a block of the selected leader in the leader round.** -/
theorem mem_leaderBlocksOfWave_iff {B : Blocklace} {leaderSelection : LeaderSelection}
    {block : Block} :
    block ∈ leaderBlocksOfWave B wave wavelength leaderSelection ↔
      B.Stores block ∧ B.Round block.identity (wave * wavelength) ∧ 0 < wavelength ∧
        wave * wavelength < 2 ^ 64 ∧ leaderSelection wave = some block.identity.creator := by
  unfold leaderBlocksOfWave leaderRoundOfWave
  cases hl : leaderSelection wave with
  | none => simp
  | some leader =>
      cases hr : firstRoundOfWave wave wavelength with
      | none =>
          simp only [List.not_mem_nil, false_iff, not_and]
          intro _ _ hw hlt
          have := firstRoundOfWave_eq_some.2 ⟨hw, rfl, hlt⟩
          rw [hr] at this
          exact absurd this (by simp)
      | some r =>
          obtain ⟨hw, rfl, hlt⟩ := firstRoundOfWave_eq_some.1 hr
          simp only [List.mem_filter, Blocklace.mem_blocksAtDepth_iff, decide_eq_true_eq,
            Option.some.injEq]
          constructor
          · rintro ⟨⟨hs, hround⟩, hc⟩
            exact ⟨hs, hround, hw, hlt, hc.symm⟩
          · rintro ⟨hs, hround, -, -, hc⟩
            exact ⟨⟨hs, hround⟩, hc.symm⟩

end CordialMiners
