/-
# Leader finality

`consensus/finality.rs`.

A leader block is final when the blocks of its own wave super-ratify it
(Definition 24).  The counting and the stake-weighted functions of the source
differ only in the quorum they ask for, so each pair is one definition over a
`Ladder`, the ratification tests of one flavour; `Ladder.Decides` names the
quorum rule that these tests decide.  `FinalLeader`, `UniqueLeader` and `ScanLeader` say what the
functions compute; `latest_iff` is the backward scan over the round index,
which trusts the checkpoint instead of deriving its finality again.
-/

import CordialMiners.Core.Cordiality
import CordialMiners.Core.Wave

namespace CordialMiners

/-- The ratification tests of one flavour of finality, and the stored order
prefix that flavour starts from. -/
structure Ladder where
  ratifies : Blocklace → Block → Block → Bool
  superRatifies : Blocklace → List Block → Block → Bool
  orderPrefix : Blocklace → List BlockIdentity

/-- Counting creators. -/
def countLadder (n f : ℕ) : Ladder where
  ratifies B ratifier target := B.ratifies ratifier target n f
  superRatifies B blocks target := B.superRatifies blocks target n f
  orderPrefix := Blocklace.checkpointOrderPrefix

/-- Weighing the stake of creators. -/
def stakeLadder (weights : WeightSnapshot) : Ladder where
  ratifies B ratifier target := B.weightedRatifies ratifier target weights
  superRatifies B blocks target := B.weightedSuperRatifies blocks target weights
  orderPrefix := Blocklace.checkpointWeightedOrderPrefix

/-- The tests decide ratification and super-ratification for a quorum rule. -/
structure Ladder.Decides (ladder : Ladder) (Q : Quorum.Rule NodeId) : Prop where
  ratifies_iff : ∀ {B : Blocklace} {ratifier target : Block} {d : ℕ},
    B.Round ratifier.identity d →
      (ladder.ratifies B ratifier target = true ↔
        B.Ratifies Q ratifier.identity target.identity)
  superRatifies_iff : ∀ {B : Blocklace} {blocks : List Block} {target : Block},
    (∀ b ∈ blocks, ∃ d, B.Round b.identity d) →
      (ladder.superRatifies B blocks target = true ↔
        B.SuperRatifies Q (Blocklace.idsOf blocks) target.identity)

theorem countLadder_decides (n f : ℕ) :
    (countLadder n f).Decides (Quorum.count ((n + f) / 2)) :=
  ⟨Blocklace.ratifies_iff, Blocklace.superRatifies_iff⟩

theorem stakeLadder_decides (bonds : Bonds) :
    (stakeLadder (.fromBonds bonds)).Decides bonds.rule :=
  ⟨Blocklace.weightedRatifies_iff, Blocklace.weightedSuperRatifies_iff⟩

/-! ### One leader -/

/-- The leader block of a wave, when there is exactly one. -/
def leaderBlockForWave (B : Blocklace) (wave wavelength : ℕ) (leaderSelection : LeaderSelection) :
    Option BlockIdentity :=
  match (leaderBlocksOfWave B wave wavelength leaderSelection).map Block.identity with
  | [leader] => some leader
  | _ => none

/-- The blocks of the rounds from `first` to `last`. -/
def witnessBlocks (B : Blocklace) (first last : ℕ) : List Block :=
  (List.range' first (last + 1 - first)).flatMap B.blocksAtDepth

/-- The structural checks of a finality decision: the candidate is a leader
block of its wave, and the wave has a last round.  Returns the candidate and
the witness blocks of its wave. -/
def finalityWindow (B : Blocklace) (candidate : BlockIdentity) (wavelength : ℕ)
    (leaderSelection : LeaderSelection) : Option (Block × List Block) := do
  let candidateBlock ← B.get candidate
  let candidateRound ← B.depth candidate
  let wave ← waveOfRound candidateRound wavelength
  if (leaderBlocksOfWave B wave wavelength leaderSelection).any
      fun leaderBlock => leaderBlock.identity = candidate then
    let lastRound ← lastRoundOfWave wave wavelength
    some (candidateBlock, witnessBlocks B candidateRound lastRound)
  else none

namespace Ladder

/-- Whether a leader block is final within its wave. -/
def isFinal (ladder : Ladder) (B : Blocklace) (candidate : BlockIdentity) (wavelength : ℕ)
    (leaderSelection : LeaderSelection) : Bool :=
  match finalityWindow B candidate wavelength leaderSelection with
  | none => false
  | some (candidateBlock, witnesses) => ladder.superRatifies B witnesses candidateBlock

/-- The final leader block of a wave, if there is one. -/
def finalForWave (ladder : Ladder) (B : Blocklace) (wave wavelength : ℕ)
    (leaderSelection : LeaderSelection) : Option BlockIdentity :=
  match leaderBlockForWave B wave wavelength leaderSelection with
  | none => none
  | some leader =>
      if ladder.isFinal B leader wavelength leaderSelection then some leader else none

end Ladder

/-! ### The latest leader -/

/-- `HashMap<u64, Vec<Block>>`. -/
abbrev RoundIndex := AList fun _ : ℕ => List Block

/-- The blocks of each round. -/
def buildRoundIndex (B : Blocklace) (depths : Blocklace.DepthCache) : RoundIndex :=
  depths.entries.foldl (fun rounds entry =>
    match B.get entry.1 with
    | none => rounds
    | some block => rounds.insert entry.2 ((rounds.lookup entry.2).getD [] ++ [block])) ∅

/-- The leader block of a wave in the index, when there is exactly one. -/
def uniqueLeaderBlockFromIndex (rounds : RoundIndex) (wave wavelength : ℕ)
    (leaderSelection : LeaderSelection) : Option Block := do
  let leader ← leaderSelection wave
  let leaderRound ← checkedMul64 wave wavelength
  let blocks ← rounds.lookup leaderRound
  match blocks.filter fun block => block.identity.creator = leader with
  | [first] => some first
  | _ => none

/-- The blocks of the rounds from `first` to `last` in the index. -/
def witnessBlocksFromIndex (rounds : RoundIndex) (first last : ℕ) : List Block :=
  (List.range' first (last + 1 - first)).flatMap fun round => (rounds.lookup round).getD []

namespace Ladder

/-- One wave of the backward scan. -/
def scanWave (ladder : Ladder) (B : Blocklace) (depths : Blocklace.DepthCache)
    (rounds : RoundIndex) (wavelength : ℕ) (leaderSelection : LeaderSelection) (wave : ℕ) :
    Option BlockIdentity :=
  match uniqueLeaderBlockFromIndex rounds wave wavelength leaderSelection with
  | none => none
  | some leader =>
      -- the checkpoint was proven final before its evidence was pruned
      if B.checkpoint = some leader.identity then some leader.identity
      else
        match depths.lookup leader.identity, lastRoundOfWave wave wavelength with
        | some candidateRound, some lastRound =>
            if ladder.superRatifies B (witnessBlocksFromIndex rounds candidateRound lastRound)
                leader then
              some leader.identity
            else none
        | _, _ => none

/-- The newest wave whose unique leader block is final, scanning backward. -/
def latest (ladder : Ladder) (B : Blocklace) (wavelength : ℕ) (leaderSelection : LeaderSelection) :
    Option BlockIdentity :=
  if wavelength = 0 ∨ B.dom = [] then none
  else
    let depths := B.computeAllDepths
    match (depths.entries.map Sigma.snd).max? with
    | none => none
    | some maxRound =>
        match waveOfRound maxRound wavelength with
        | none => none
        | some latestWave =>
            (List.range (latestWave + 1)).reverse.findSome?
              (ladder.scanWave B depths (buildRoundIndex B depths) wavelength leaderSelection)

end Ladder

/-! ### The functions of the source -/

namespace Blocklace

/-- `is_final_leader`. -/
def isFinalLeader (B : Blocklace) (candidate : BlockIdentity) (wavelength n f : ℕ)
    (leaderSelection : LeaderSelection) : Bool :=
  (countLadder n f).isFinal B candidate wavelength leaderSelection

/-- `final_leader_for_wave`. -/
def finalLeaderForWave (B : Blocklace) (wave wavelength n f : ℕ)
    (leaderSelection : LeaderSelection) : Option BlockIdentity :=
  (countLadder n f).finalForWave B wave wavelength leaderSelection

/-- `latest_final_leader`. -/
def latestFinalLeader (B : Blocklace) (wavelength n f : ℕ) (leaderSelection : LeaderSelection) :
    Option BlockIdentity :=
  (countLadder n f).latest B wavelength leaderSelection

/-- `weighted_final_leader_certificate`: weighted finality with its evidence. -/
def weightedFinalLeaderCertificate (B : Blocklace) (candidate : BlockIdentity) (wavelength : ℕ)
    (bonds : Bonds) (leaderSelection : LeaderSelection) : Option ThresholdCertificate :=
  match finalityWindow B candidate wavelength leaderSelection with
  | none => none
  | some (candidateBlock, witnesses) =>
      B.weightedSuperRatificationOutcome witnesses candidateBlock (.fromBonds bonds)

/-- `is_weighted_final_leader`. -/
def isWeightedFinalLeader (B : Blocklace) (candidate : BlockIdentity) (wavelength : ℕ)
    (bonds : Bonds) (leaderSelection : LeaderSelection) : Bool :=
  (B.weightedFinalLeaderCertificate candidate wavelength bonds leaderSelection).isSome

/-- `weighted_final_leader_for_wave`. -/
def weightedFinalLeaderForWave (B : Blocklace) (wave wavelength : ℕ) (bonds : Bonds)
    (leaderSelection : LeaderSelection) : Option BlockIdentity :=
  (stakeLadder (.fromBonds bonds)).finalForWave B wave wavelength leaderSelection

/-- `latest_weighted_final_leader`. -/
def latestWeightedFinalLeader (B : Blocklace) (wavelength : ℕ) (bonds : Bonds)
    (leaderSelection : LeaderSelection) : Option BlockIdentity :=
  (stakeLadder (.fromBonds bonds)).latest B wavelength leaderSelection

theorem isWeightedFinalLeader_eq (B : Blocklace) (candidate : BlockIdentity) (wavelength : ℕ)
    (bonds : Bonds) (leaderSelection : LeaderSelection) :
    B.isWeightedFinalLeader candidate wavelength bonds leaderSelection =
      (stakeLadder (.fromBonds bonds)).isFinal B candidate wavelength leaderSelection := by
  unfold isWeightedFinalLeader weightedFinalLeaderCertificate Ladder.isFinal
  cases finalityWindow B candidate wavelength leaderSelection <;> rfl

end Blocklace

/-! ### What a final leader is -/

namespace Blocklace

variable {B : Blocklace} {Q : Quorum.Rule NodeId} {w wave : ℕ} {ls : LeaderSelection}
  {L L' : BlockIdentity}

/-- `L` is a leader block of the wave. -/
structure LeaderBlock (B : Blocklace) (w : ℕ) (ls : LeaderSelection) (wave : ℕ)
    (L : BlockIdentity) : Prop where
  round : B.Round L (wave * w)
  pos : 0 < w
  lt : wave * w < 2 ^ 64
  creator : ls wave = some L.creator

/-- The blocks of the rounds of a wave. -/
def window (B : Blocklace) (w wave : ℕ) : Set BlockIdentity :=
  {x | ∃ d, B.Round x d ∧ wave * w ≤ d ∧ d ≤ wave * w + (w - 1)}

/-- `L` is a leader block of the wave, super-ratified within it. -/
structure FinalLeader (B : Blocklace) (Q : Quorum.Rule NodeId) (w : ℕ) (ls : LeaderSelection)
    (wave : ℕ) (L : BlockIdentity) : Prop extends LeaderBlock B w ls wave L where
  last_lt : wave * w + (w - 1) < 2 ^ 64
  super : B.SuperRatifies Q (B.window w wave) L

/-- `L` is the only leader block of the wave. -/
structure UniqueLeader (B : Blocklace) (w : ℕ) (ls : LeaderSelection) (wave : ℕ)
    (L : BlockIdentity) : Prop extends LeaderBlock B w ls wave L where
  unique : ∀ L', B.LeaderBlock w ls wave L' → L' = L

theorem UniqueLeader.eq (h : B.UniqueLeader w ls wave L) (h' : B.UniqueLeader w ls wave L') :
    L = L' := h'.unique L h.toLeaderBlock

/-- The wave of a leader block is read off its round. -/
theorem LeaderBlock.wave_eq {wave' : ℕ} (h : B.LeaderBlock w ls wave L)
    (h' : B.LeaderBlock w ls wave' L) : wave = wave' :=
  Nat.eq_of_mul_eq_mul_right h.pos (h.round.unique h'.round)

theorem mem_leaderBlocks_iff {block : Block} :
    block ∈ leaderBlocksOfWave B wave w ls ↔
      B.Stores block ∧ B.LeaderBlock w ls wave block.identity := by
  rw [mem_leaderBlocksOfWave_iff]
  exact ⟨fun ⟨hs, hr, hp, hlt, hc⟩ => ⟨hs, hr, hp, hlt, hc⟩,
    fun ⟨hs, h⟩ => ⟨hs, h.round, h.pos, h.lt, h.creator⟩⟩

/-- The blocks of a round are listed once. -/
theorem nodup_blocksAtDepth (d : ℕ) : ((B.blocksAtDepth d).map Block.identity).Nodup := by
  have hmap : ∀ l : List (Sigma fun _ : BlockIdentity => ℕ), (∀ e ∈ l, e.1 ∈ B.blocks) →
      (l.filterMap fun entry => B.get entry.1).map Block.identity = l.map Sigma.fst := by
    intro l
    induction l with
    | nil => simp
    | cons e l ih =>
        intro hl
        obtain ⟨c, hc⟩ := exists_lookup (hl e List.mem_cons_self)
        have hget : B.get e.1 = some ⟨e.1, c⟩ := by
          rw [get_of_mem (hl e List.mem_cons_self), hc]
          rfl
        rw [List.filterMap_cons, hget, List.map_cons, List.map_cons,
          ih fun x hx => hl x (List.mem_cons_of_mem _ hx)]
  unfold blocksAtDepth
  rw [hmap]
  · exact List.Nodup.sublist (List.filter_sublist.map _) B.computeAllDepths.nodupKeys
  · intro e he
    have hl := AList.mem_lookup_iff.2 (List.mem_filter.1 he).1
    exact (lookup_computeAllDepths_iff.1 hl).mem

theorem nodup_leaderBlocks :
    ((leaderBlocksOfWave B wave w ls).map Block.identity).Nodup := by
  unfold leaderBlocksOfWave
  split
  · exact List.nodup_nil
  · split
    · exact List.nodup_nil
    · exact (nodup_blocksAtDepth _).sublist (List.filter_sublist.map _)

/-- **`leaderBlockForWave` returns the only leader block of a wave.** -/
theorem leaderBlockForWave_iff :
    leaderBlockForWave B wave w ls = some L ↔ B.UniqueLeader w ls wave L := by
  have hmem : ∀ x, x ∈ (leaderBlocksOfWave B wave w ls).map Block.identity ↔
      B.LeaderBlock w ls wave x := by
    intro x
    rw [List.mem_map]
    constructor
    · rintro ⟨block, hb, rfl⟩
      exact (mem_leaderBlocks_iff.1 hb).2
    · intro h
      obtain ⟨c, hc⟩ := exists_lookup h.round.mem
      exact ⟨⟨x, c⟩, mem_leaderBlocks_iff.2 ⟨hc, h⟩, rfl⟩
  have hone : leaderBlockForWave B wave w ls = some L ↔
      (leaderBlocksOfWave B wave w ls).map Block.identity = [L] := by
    unfold leaderBlockForWave
    split
    · next leader hl => simp [hl]
    · next hl =>
      refine iff_of_false (by simp) fun h => hl L h
  rw [hone, eq_singleton_iff_of_nodup nodup_leaderBlocks, hmem]
  constructor
  · rintro ⟨h, hall⟩
    exact ⟨h, fun L' h' => hall L' ((hmem L').2 h')⟩
  · intro h
    exact ⟨h.toLeaderBlock, fun L' h' => h.unique L' ((hmem L').1 h')⟩

theorem idsOf_witnessBlocks {first last : ℕ} :
    idsOf (witnessBlocks B first last) = {x | ∃ d, B.Round x d ∧ first ≤ d ∧ d ≤ last} := by
  ext x
  simp only [idsOf, witnessBlocks, List.mem_flatMap, List.mem_range'_1, mem_blocksAtDepth_iff,
    Set.mem_ofPred_eq]
  constructor
  · rintro ⟨b, ⟨d, hd, -, hround⟩, rfl⟩
    exact ⟨d, hround, by omega, by omega⟩
  · rintro ⟨d, hround, h₁, h₂⟩
    obtain ⟨c, hc⟩ := exists_lookup hround.mem
    exact ⟨⟨x, c⟩, ⟨d, by omega, hc, hround⟩, rfl⟩

theorem rounded_witnessBlocks {first last : ℕ} :
    ∀ b ∈ witnessBlocks B first last, ∃ d, B.Round b.identity d := by
  intro b hb
  obtain ⟨d, -, hd⟩ := List.mem_flatMap.1 hb
  exact ⟨d, (mem_blocksAtDepth_iff.1 hd).2⟩

/-- The structural checks pass on the leader blocks of a wave that ends. -/
theorem finalityWindow_eq_some {block : Block} {witnesses : List Block} :
    finalityWindow B L w ls = some (block, witnesses) ↔
      ∃ wave, B.LeaderBlock w ls wave L ∧ wave * w + (w - 1) < 2 ^ 64 ∧ B.Stores block ∧
        block.identity = L ∧ witnesses = witnessBlocks B (wave * w) (wave * w + (w - 1)) := by
  unfold finalityWindow
  simp only [Option.bind_eq_bind, Option.bind_eq_some_iff]
  constructor
  · rintro ⟨candidate, hget, round, hdepth, wave, hwave, h⟩
    split_ifs at h with hleader
    obtain ⟨last, hlast, h⟩ := Option.bind_eq_some_iff.1 h
    obtain ⟨rfl, rfl⟩ := Prod.mk.inj (Option.some.inj h)
    obtain ⟨leaderBlock, hmem, hid⟩ := List.any_eq_true.1 hleader
    rw [decide_eq_true_eq] at hid
    obtain ⟨hst, hlb⟩ := mem_leaderBlocks_iff.1 hmem
    rw [hid] at hlb
    obtain ⟨hr, hcontent⟩ := get_eq_some_iff.1 hget
    rw [resolveIdentity_of_mem hlb.round.mem] at hr
    obtain ⟨-, rfl, hlt⟩ := lastRoundOfWave_eq_some.1 hlast
    have hround : round = wave * w :=
      Option.some.inj (hdepth.symm.trans hlb.round.depth)
    exact ⟨wave, hlb, hlt, hcontent, (Option.some.inj hr).symm, by rw [hround]⟩
  · rintro ⟨wave, hlb, hlt, hst, rfl, rfl⟩
    have hwave : waveOfRound (wave * w) w = some wave :=
      waveOfRound_eq_some.2 ⟨hlb.pos, Nat.mul_div_cancel _ hlb.pos⟩
    refine ⟨block, hst.get, wave * w, hlb.round.depth, wave, hwave, ?_⟩
    rw [if_pos (List.any_eq_true.2 ⟨block, mem_leaderBlocks_iff.2 ⟨hst, hlb⟩, by simp⟩),
      lastRoundOfWave_eq_some.2 ⟨hlb.pos, rfl, hlt⟩]
    rfl

end Blocklace

namespace Ladder

open Blocklace

variable {ladder : Ladder} {Q : Quorum.Rule NodeId} {B : Blocklace} {w wave : ℕ}
  {ls : LeaderSelection} {L : BlockIdentity}

/-- **`isFinal` decides finality.** -/
theorem isFinal_iff (hQ : ladder.Decides Q) :
    ladder.isFinal B L w ls = true ↔ ∃ wave, B.FinalLeader Q w ls wave L := by
  unfold isFinal
  constructor
  · intro h
    split at h
    · exact absurd h Bool.false_ne_true
    · next block witnesses hwin =>
      obtain ⟨wave, hlb, hlt, -, rfl, rfl⟩ := finalityWindow_eq_some.1 hwin
      rw [hQ.superRatifies_iff rounded_witnessBlocks, idsOf_witnessBlocks] at h
      exact ⟨wave, hlb, hlt, h⟩
  · rintro ⟨wave, h⟩
    obtain ⟨c, hc⟩ := exists_lookup h.round.mem
    have hst : B.Stores ⟨L, c⟩ := hc
    have hwin := finalityWindow_eq_some.2 ⟨wave, h.toLeaderBlock, h.last_lt, hst, rfl, rfl⟩
    rw [hwin]
    simp only
    rw [hQ.superRatifies_iff rounded_witnessBlocks, idsOf_witnessBlocks]
    exact h.super

/-- **`finalForWave` returns the unique leader block of the wave, if final.** -/
theorem finalForWave_iff (hQ : ladder.Decides Q) :
    ladder.finalForWave B wave w ls = some L ↔
      B.UniqueLeader w ls wave L ∧ B.FinalLeader Q w ls wave L := by
  unfold finalForWave
  constructor
  · intro h
    split at h
    · exact absurd h (by simp)
    · next leader hl =>
      split_ifs at h with hf
      obtain rfl := Option.some.inj h
      have hu := leaderBlockForWave_iff.1 hl
      obtain ⟨wave', hfinal⟩ := (isFinal_iff hQ).1 hf
      obtain rfl := hu.toLeaderBlock.wave_eq hfinal.toLeaderBlock
      exact ⟨hu, hfinal⟩
  · rintro ⟨hu, hfinal⟩
    rw [leaderBlockForWave_iff.2 hu]
    simp only
    rw [if_pos ((isFinal_iff hQ).2 ⟨wave, hfinal⟩)]

end Ladder

/-! ### What the backward scan finds -/

namespace Blocklace

variable {B : Blocklace} {w wave : ℕ} {ls : LeaderSelection} {L : BlockIdentity}

/-- The index holds the blocks of each round. -/
theorem lookup_buildRoundIndex (r : ℕ) :
    ((buildRoundIndex B B.computeAllDepths).lookup r).getD [] = B.blocksAtDepth r := by
  have hfold : ∀ (l : List (Sigma fun _ : BlockIdentity => ℕ)) (rounds : RoundIndex),
      ((l.foldl (fun rounds entry =>
        match B.get entry.1 with
        | none => rounds
        | some block => rounds.insert entry.2 ((rounds.lookup entry.2).getD [] ++ [block]))
          rounds).lookup r).getD [] =
      (rounds.lookup r).getD [] ++
        ((l.filter fun entry => entry.2 = r).filterMap fun entry => B.get entry.1) := by
    intro l
    induction l with
    | nil => simp
    | cons e l ih =>
        intro rounds
        rw [List.foldl_cons, ih]
        cases hget : B.get e.1 with
        | none =>
            by_cases her : e.2 = r
            · rw [List.filter_cons_of_pos (by simpa using her), List.filterMap_cons, hget]
            · rw [List.filter_cons_of_neg (by simpa using her)]
        | some block =>
            by_cases her : e.2 = r
            · subst her
              rw [List.filter_cons_of_pos (by simp), List.filterMap_cons, hget]
              simp [AList.lookup_insert]
            · rw [List.filter_cons_of_neg (by simpa using her)]
              simp only
              rw [AList.lookup_insert_ne (Ne.symm her)]
  have h := hfold B.computeAllDepths.entries ∅
  rw [AList.lookup_empty] at h
  exact h

/-- **The indexed leader lookup finds the only leader block of a wave.** -/
theorem uniqueLeaderBlockFromIndex_iff {block : Block} (hw : 0 < w) :
    uniqueLeaderBlockFromIndex (buildRoundIndex B B.computeAllDepths) wave w ls = some block ↔
      B.Stores block ∧ B.UniqueLeader w ls wave block.identity := by
  -- a missing row of the index is an empty one
  have hlist : uniqueLeaderBlockFromIndex (buildRoundIndex B B.computeAllDepths) wave w ls =
      some block ↔ leaderBlocksOfWave B wave w ls = [block] := by
    unfold uniqueLeaderBlockFromIndex leaderBlocksOfWave leaderRoundOfWave firstRoundOfWave
    rw [if_neg (by omega)]
    cases ls wave with
    | none => simp
    | some leader =>
        cases checkedMul64 wave w with
        | none => simp
        | some r =>
            have hrow := lookup_buildRoundIndex (B := B) r
            cases hl : (buildRoundIndex B B.computeAllDepths).lookup r with
            | none =>
                rw [hl, Option.getD_none] at hrow
                simp [hl, ← hrow]
            | some blocks =>
                rw [hl, Option.getD_some] at hrow
                subst hrow
                simp only [Option.bind_eq_bind, Option.bind_some, hl]
                generalize (B.blocksAtDepth r).filter _ = found
                rcases found with _ | ⟨x, _ | ⟨y, t⟩⟩ <;> simp
  have hnd : (leaderBlocksOfWave B wave w ls).Nodup := nodup_leaderBlocks.of_map
  rw [hlist, eq_singleton_iff_of_nodup hnd, mem_leaderBlocks_iff]
  constructor
  · rintro ⟨⟨hst, hlb⟩, hall⟩
    refine ⟨hst, hlb, fun L' hL' => ?_⟩
    obtain ⟨c, hc⟩ := exists_lookup hL'.round.mem
    exact congrArg Block.identity (hall ⟨L', c⟩ (mem_leaderBlocks_iff.2 ⟨hc, hL'⟩))
  · rintro ⟨hst, hu⟩
    refine ⟨⟨hst, hu.toLeaderBlock⟩, fun b hb => ?_⟩
    obtain ⟨hbst, hblb⟩ := mem_leaderBlocks_iff.1 hb
    exact hbst.ext hst (hu.unique _ hblb)

/-- What one wave of the scan accepts: the unique leader block of the wave, if
it is the checkpoint or final. -/
structure ScanLeader (B : Blocklace) (Q : Quorum.Rule NodeId) (w : ℕ) (ls : LeaderSelection)
    (wave : ℕ) (L : BlockIdentity) : Prop extends UniqueLeader B w ls wave L where
  accepted : B.checkpoint = some L ∨ B.FinalLeader Q w ls wave L

end Blocklace

namespace Ladder

open Blocklace

variable {ladder : Ladder} {Q : Quorum.Rule NodeId} {B : Blocklace} {w wave : ℕ}
  {ls : LeaderSelection} {L : BlockIdentity}

theorem scanWave_iff (hQ : ladder.Decides Q) (hw : 0 < w) :
    ladder.scanWave B B.computeAllDepths (buildRoundIndex B B.computeAllDepths) w ls wave = some L ↔
      B.ScanLeader Q w ls wave L := by
  have hwit : ∀ first last,
      witnessBlocksFromIndex (buildRoundIndex B B.computeAllDepths) first last =
        witnessBlocks B first last := by
    intro first last
    unfold witnessBlocksFromIndex witnessBlocks
    congr 1
    exact funext lookup_buildRoundIndex
  unfold scanWave
  constructor
  · intro h
    split at h
    · exact absurd h (by simp)
    · next leader hl =>
      obtain ⟨-, hu⟩ := (uniqueLeaderBlockFromIndex_iff hw).1 hl
      split_ifs at h with hcp
      · obtain rfl := Option.some.inj h
        exact ⟨hu, Or.inl hcp⟩
      · split at h
        · next round last hround hlast =>
          split_ifs at h with hsuper
          obtain rfl := Option.some.inj h
          obtain rfl := (lookup_computeAllDepths_iff.1 hround).unique hu.round
          obtain ⟨-, rfl, hlt⟩ := lastRoundOfWave_eq_some.1 hlast
          rw [hwit, hQ.superRatifies_iff rounded_witnessBlocks, idsOf_witnessBlocks] at hsuper
          exact ⟨hu, Or.inr ⟨hu.toLeaderBlock, hlt, hsuper⟩⟩
        · exact absurd h (by simp)
  · rintro ⟨hu, hacc⟩
    obtain ⟨c, hc⟩ := exists_lookup hu.round.mem
    have hst : B.Stores ⟨L, c⟩ := hc
    rw [(uniqueLeaderBlockFromIndex_iff hw).2 ⟨hst, hu⟩]
    simp only
    split_ifs with hcp
    · rfl
    · have hfinal := hacc.resolve_left hcp
      rw [lookup_computeAllDepths_iff.2 hu.round,
        lastRoundOfWave_eq_some.2 ⟨hw, rfl, hfinal.last_lt⟩]
      simp only
      rw [if_pos]
      rw [hwit, hQ.superRatifies_iff rounded_witnessBlocks, idsOf_witnessBlocks]
      exact hfinal.super

/-- A backward search over `0, …, m - 1` finds the largest hit. -/
theorem findSome_reverse_range {α : Type} {f : ℕ → Option α} {m : ℕ} {y : α} :
    (List.range m).reverse.findSome? f = some y ↔
      ∃ k < m, f k = some y ∧ ∀ j < m, k < j → f j = none := by
  induction m with
  | zero => simp
  | succ m ih =>
      rw [List.range_succ, List.reverse_append, List.reverse_singleton, List.singleton_append,
        List.findSome?_cons]
      cases hf : f m with
      | some x =>
          simp only [Option.some.injEq]
          constructor
          · rintro rfl
            exact ⟨m, by omega, hf, fun j hj hlt => by omega⟩
          · rintro ⟨k, hk, hfk, hlater⟩
            by_cases hkm : k = m
            · rw [hkm, hf] at hfk
              exact Option.some.inj hfk
            · have := hlater m (by omega) (by omega)
              rw [hf] at this
              exact absurd this (by simp)
      | none =>
          simp only
          rw [ih]
          constructor
          · rintro ⟨k, hk, hfk, hlater⟩
            refine ⟨k, by omega, hfk, fun j hj hlt => ?_⟩
            by_cases hjm : j = m
            · rwa [hjm]
            · exact hlater j (by omega) hlt
          · rintro ⟨k, hk, hfk, hlater⟩
            have hkm : k ≠ m := by
              rintro rfl
              rw [hf] at hfk
              exact absurd hfk (by simp)
            exact ⟨k, by omega, hfk, fun j hj hlt => hlater j (by omega) hlt⟩

/-- **`latest` returns the accepted leader of the newest wave that has one.** -/
theorem latest_iff (hQ : ladder.Decides Q) :
    ladder.latest B w ls = some L ↔
      ∃ wave, B.ScanLeader Q w ls wave L ∧
        ∀ wave' L', wave < wave' → ¬ B.ScanLeader Q w ls wave' L' := by
  -- no wave beyond the one of the largest round has a leader block
  have hmax : ∀ m, (B.computeAllDepths.entries.map Sigma.snd).max? = some m → 0 < w →
      ∀ wave L, B.LeaderBlock w ls wave L → wave ≤ m / w := by
    intro m hm hw wave L hL
    have hmem : (⟨L, wave * w⟩ : Sigma fun _ : BlockIdentity => ℕ) ∈ B.computeAllDepths.entries :=
      AList.mem_lookup_iff.1 (lookup_computeAllDepths_iff.2 hL.round)
    have hle : wave * w ≤ m := (List.max?_eq_some_iff.1 hm).2 _ (List.mem_map.2 ⟨_, hmem, rfl⟩)
    exact (Nat.le_div_iff_mul_le hw).2 hle
  unfold latest
  split_ifs with h0
  · refine iff_of_false (by simp) ?_
    rintro ⟨wave, hL, -⟩
    rcases h0 with h0 | h0
    · exact absurd hL.pos (by omega)
    · have := AList.mem_keys.1 hL.round.mem
      rw [show B.blocks.keys = [] from h0] at this
      simp at this
  · rw [not_or] at h0
    have hw : 0 < w := by omega
    simp only
    cases hm : (B.computeAllDepths.entries.map Sigma.snd).max? with
    | none =>
        refine iff_of_false (by simp) ?_
        rintro ⟨wave, hL, -⟩
        have hmem : (⟨L, wave * w⟩ : Sigma fun _ : BlockIdentity => ℕ) ∈
            B.computeAllDepths.entries :=
          AList.mem_lookup_iff.1 (lookup_computeAllDepths_iff.2 hL.round)
        rw [List.max?_eq_none_iff, List.map_eq_nil_iff] at hm
        rw [hm] at hmem
        simp at hmem
    | some m =>
        simp only [waveOfRound, if_neg h0.1]
        rw [findSome_reverse_range]
        constructor
        · rintro ⟨k, -, hk, hlater⟩
          refine ⟨k, (scanWave_iff hQ hw).1 hk, fun wave' L' hlt hL' => ?_⟩
          have hnone := hlater wave'
            (Nat.lt_succ_of_le (hmax m hm hw wave' L' hL'.toLeaderBlock)) hlt
          rw [(scanWave_iff hQ hw).2 hL'] at hnone
          exact absurd hnone (by simp)
        · rintro ⟨wave, hL, hlater⟩
          refine ⟨wave, Nat.lt_succ_of_le (hmax m hm hw wave L hL.toLeaderBlock),
            (scanWave_iff hQ hw).2 hL, fun j _ hlt => ?_⟩
          cases hj : ladder.scanWave B B.computeAllDepths
            (buildRoundIndex B B.computeAllDepths) w ls j with
          | none => rfl
          | some L' => exact absurd ((scanWave_iff hQ hw).1 hj) (hlater j L' hlt)

/-- Some leader is the latest if some leader is accepted: the waves of accepted
leaders are bounded by the rounds of stored blocks. -/
theorem exists_latest (hQ : ladder.Decides Q) (h : B.ScanLeader Q w ls wave L) :
    ∃ L', ladder.latest B w ls = some L' := by
  classical
  let accepts (k : ℕ) : Prop := ∃ L', B.ScanLeader Q w ls k L'
  let bound := B.dom.toFinset.sup fun L' => (B.depth L').getD 0
  have hbound : ∀ k, accepts k → k ≤ bound := by
    rintro k ⟨L', hL'⟩
    have hle : (B.depth L').getD 0 ≤ bound :=
      Finset.le_sup (f := fun L' => (B.depth L').getD 0)
        (List.mem_toFinset.2 (AList.mem_keys.1 hL'.round.mem))
    rw [hL'.round.depth, Option.getD_some] at hle
    exact (Nat.le_mul_of_pos_right k hL'.pos).trans hle
  obtain ⟨L', hL'⟩ := Nat.findGreatest_spec (P := accepts) (hbound wave ⟨L, h⟩) ⟨L, h⟩
  refine ⟨L', (latest_iff hQ).2 ⟨_, hL', fun k L'' hlt hL'' => ?_⟩⟩
  exact Nat.findGreatest_is_greatest hlt (hbound k ⟨L'', hL''⟩) ⟨L'', hL''⟩

/-- Without a checkpoint the scan accepts the final leaders. -/
theorem scanLeader_iff_finalForWave (hQ : ladder.Decides Q) (hcp : B.checkpoint = none) :
    B.ScanLeader Q w ls wave L ↔ ladder.finalForWave B wave w ls = some L := by
  rw [finalForWave_iff hQ]
  constructor
  · rintro ⟨hu, hacc⟩
    exact ⟨hu, hacc.resolve_left (by simp [hcp])⟩
  · rintro ⟨hu, hf⟩
    exact ⟨hu, Or.inr hf⟩

/-- The latest leader, without a checkpoint. -/
theorem latest_iff_finalForWave (hQ : ladder.Decides Q) (hcp : B.checkpoint = none) :
    ladder.latest B w ls = some L ↔
      ∃ wave, ladder.finalForWave B wave w ls = some L ∧
        ∀ wave', wave < wave' → ladder.finalForWave B wave' w ls = none := by
  rw [latest_iff hQ]
  constructor
  · rintro ⟨wave, hL, hlater⟩
    refine ⟨wave, (scanLeader_iff_finalForWave hQ hcp).1 hL, fun wave' hlt => ?_⟩
    cases hL' : ladder.finalForWave B wave' w ls with
    | none => rfl
    | some L' => exact absurd ((scanLeader_iff_finalForWave hQ hcp).2 hL') (hlater wave' L' hlt)
  · rintro ⟨wave, hL, hlater⟩
    refine ⟨wave, (scanLeader_iff_finalForWave hQ hcp).2 hL, fun wave' L' hlt hL' => ?_⟩
    have hnone := hlater wave' hlt
    rw [(scanLeader_iff_finalForWave hQ hcp).1 hL'] at hnone
    exact absurd hnone (by simp)

end Ladder

end CordialMiners
