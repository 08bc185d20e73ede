/-
# Past waves of the published output

`finalized_output_for_wave` of `por/finality.rs`: the output that ended with the leader
of an earlier wave, replayed from the blocklace and compared with the published one.

Where creators do not fork and every block observes more than two thirds of the stake in
the round before its own, every earlier final leader is on the chain of the latest one.
The published output sorts all that a leader approves and then leaves out what is emitted
already, the replay sorts what is left.  The past waves replay as prefixes exactly where
no leader of the chain below the latest one is disturbed by what was emitted before it
(`past_waves_replay_iff`).
-/

import CordialMiners.Ordering.Stability
import CordialMiners.Output.Dispatch

namespace CordialMiners.Output

open Reputation (OrderedFinalizedOutput PorFinalityError finalizedWaveFromOutput leaderOfWave)
open Codec (bind_eq_ok map_eq_ok)

/-- The errors of `PorFinalityError` that a replay can end with. -/
inductive PastWaveError where
  | finality (error : PorFinalityError)
  | missingFinalLeaderForWave (wave : ℕ)
  | historicalPrefixMismatch (wave : ℕ)
  | ordering (error : OrderingError)
deriving DecidableEq, Repr

/-- The final leader of a wave, the bonded validators taking turns. -/
def leaderForWave (B : Blocklace) (wavelength : ℕ) (bonds : Bonds) (wave : ℕ) :
    Option BlockIdentity :=
  B.weightedFinalLeaderForWave wave wavelength bonds (leaderOfWave (orderedValidators bonds))

/-- The ordering that a replay compares. -/
def replayedBlocks (B : Blocklace) (wavelength : ℕ) (bonds : Bonds) (leader : BlockIdentity) :
    Except OrderingError (List BlockIdentity) :=
  let validators := orderedValidators bonds
  if validators.length = 1 ∧ B.checkpoint = none then observedOrder B leader
  else B.weightedTauAtLeader leader wavelength bonds (leaderOfWave validators)

/-- `finalized_output_for_wave`. -/
def finalizedOutputForWave (B : Blocklace) (latest : OrderedFinalizedOutput) (bonds : Bonds)
    (wave : ℕ) : Except PastWaveError (Option OrderedFinalizedOutput) :=
  match finalizedWaveFromOutput B latest with
  | .error error => .error (.finality error)
  | .ok none => .ok none
  | .ok (some latestWave) =>
      if latestWave < wave then .ok none
      else if wave = latestWave then .ok (some latest)
      else if bonds.table.keys = [] then .error (.missingFinalLeaderForWave wave)
      else
        match leaderForWave B latest.wavelength bonds wave with
        | none => .error (.missingFinalLeaderForWave wave)
        | some leader =>
            match replayedBlocks B latest.wavelength bonds leader with
            | .error error => .error (.ordering error)
            | .ok blocks =>
                if ¬blocks <+: latest.blocks ∨ leader.consensusIdentity ∉ blocks then
                  .error (.historicalPrefixMismatch wave)
                else .ok (some (.new blocks (some leader) latest.wavelength))

/-- Every block above round `0` observes blocks of the round before by creators with more
than two thirds of the stake. -/
def observesStake (B : Blocklace) (bonds : Bonds) : Bool :=
  B.dom.all fun b =>
    match B.depth b with
    | none => true
    | some 0 => true
    | some (d + 1) =>
        isWeightedSupermajoritySnapshot
          (((B.observe b).filter fun x => B.depth x = some d).map BlockIdentity.creator).dedup
          (.fromBonds bonds)

/-- The output ends with what the leader adds: all that it approves and that is not there
before, itself included. -/
def EndsWith (B : Blocklace) (leader : BlockIdentity) (out : List BlockIdentity) : Prop :=
  ∃ below added, out = below ++ added ∧ leader.consensusIdentity ∈ added ∧
    ∀ id, id ∈ added ↔ id ∉ below ∧ ∃ x ∈ B.approvedSet leader, x.consensusIdentity = id

/-- Every wave up to the one of the latest output that has a final leader replays as a
prefix of it that ends with what the leader adds, and an earlier one as a prefix of a
later one. -/
def PastWavesReplay (B : Blocklace) (bonds : Bonds) (latest : OrderedFinalizedOutput) : Prop :=
  ∀ latestWave, finalizedWaveFromOutput B latest = .ok (some latestWave) → ∀ wave ≤ latestWave,
    ∀ leader, leaderForWave B latest.wavelength bonds wave = some leader →
      ∃ output, finalizedOutputForWave B latest bonds wave = .ok (some output) ∧
        output.blocks <+: latest.blocks ∧ EndsWith B leader output.blocks ∧
        ∀ earlier ≤ wave, (leaderForWave B latest.wavelength bonds earlier).isSome →
          ∃ output', finalizedOutputForWave B latest bonds earlier = .ok (some output') ∧
            output'.blocks <+: output.blocks

/-! ### Steps that append -/

section Appends

variable {B : Blocklace} {step step' : List BlockIdentity → BlockIdentity →
    Except OrderingError (List BlockIdentity)}
  {ordered out out' leaders : List BlockIdentity} {id L : BlockIdentity}

/-- A step appends what its leader approves and is not there, each once. -/
def AppendsFresh (B : Blocklace) (step : List BlockIdentity → BlockIdentity →
    Except OrderingError (List BlockIdentity)) : Prop :=
  ∀ ordered L out, step ordered L = .ok out → ∃ added, out = ordered ++ added ∧ added.Nodup ∧
    ∀ id, id ∈ added ↔ id ∉ ordered ∧ ∃ x ∈ B.approvedSet L, x.consensusIdentity = id

theorem appendsFresh_emitFragment : AppendsFresh B B.emitFragment := by
  intro ordered L out hout
  obtain ⟨l, hl, hall, rfl⟩ := Blocklace.emitFragment_eq_ok.1 hout
  refine ⟨_, rfl, hl.nodup_map fun x hx => Blocklace.freshSet_mem hx, fun id => ?_⟩
  rw [List.mem_map]
  constructor
  · rintro ⟨x, hx, rfl⟩
    exact ⟨(hl.mem hx).2, x, (hl.mem hx).1, rfl⟩
  · rintro ⟨hnew, x, hx, rfl⟩
    exact ⟨x, hall x ⟨hx, hnew⟩, rfl⟩

theorem appendsFresh_emitSortedFragment : AppendsFresh B B.emitSortedFragment := by
  intro ordered L out hout
  obtain ⟨l, hl, hall, rfl⟩ := Blocklace.emitSortedFragment_eq_ok.1 hout
  have hnodup := hl.nodup_map fun x (hx : x ∈ B.approvedSet L) => hx.1
  refine ⟨_, rfl, hnodup.sublist ((List.filter_sublist).map _), fun id => ?_⟩
  rw [List.mem_map]
  constructor
  · rintro ⟨x, hx, rfl⟩
    obtain ⟨hxl, hnew⟩ := List.mem_filter.1 hx
    exact ⟨of_decide_eq_true hnew, x, hl.mem hxl, rfl⟩
  · rintro ⟨hnew, x, hx, rfl⟩
    exact ⟨x, List.mem_filter.2 ⟨hall x hx, decide_eq_true hnew⟩, rfl⟩

/-- What the steps over some leaders have appended. -/
theorem AppendsFresh.mem_foldlM (h : AppendsFresh B step)
    (hout : leaders.foldlM step ordered = .ok out) :
    id ∈ out ↔ id ∈ ordered ∨ ∃ L ∈ leaders, ∃ x ∈ B.approvedSet L, x.consensusIdentity = id := by
  induction leaders generalizing ordered with
  | nil =>
      obtain rfl := Except.ok.inj hout
      simp
  | cons L leaders ih =>
      rw [List.foldlM_cons] at hout
      obtain ⟨next, hnext, hout⟩ := bind_eq_ok.1 hout
      obtain ⟨added, rfl, -, hadded⟩ := h ordered L next hnext
      rw [ih hout, List.mem_append, hadded]
      by_cases hid : id ∈ ordered
      · simp [hid]
      · simp [hid]

theorem AppendsFresh.nodup_foldlM (h : AppendsFresh B step) (hnodup : ordered.Nodup)
    (hout : leaders.foldlM step ordered = .ok out) : out.Nodup := by
  induction leaders generalizing ordered with
  | nil =>
      obtain rfl := Except.ok.inj hout
      exact hnodup
  | cons L leaders ih =>
      rw [List.foldlM_cons] at hout
      obtain ⟨next, hnext, hout⟩ := bind_eq_ok.1 hout
      obtain ⟨added, rfl, hadded, hmem⟩ := h ordered L next hnext
      refine ih (List.Nodup.append hnodup hadded fun id hid hid' => ?_) hout
      exact ((hmem id).1 hid').1 hid

/-- Two ways to append over the same leaders give equally long outputs. -/
theorem AppendsFresh.length_eq (h : AppendsFresh B step) (h' : AppendsFresh B step')
    (hnodup : ordered.Nodup) (hout : leaders.foldlM step ordered = .ok out)
    (hout' : leaders.foldlM step' ordered = .ok out') : out.length = out'.length := by
  refine ((List.perm_ext_iff_of_nodup (h.nodup_foldlM hnodup hout)
    (h'.nodup_foldlM hnodup hout')).2 fun id => ?_).length_eq
  rw [h.mem_foldlM hout, h'.mem_foldlM hout']

/-- Outputs from nothing carry no signatures. -/
theorem AppendsFresh.unsigned (h : AppendsFresh B step) (hout : leaders.foldlM step [] = .ok out) :
    out.map BlockIdentity.consensusIdentity = out := by
  refine (List.map_congr_left fun id hid => ?_).trans (List.map_id out)
  rcases (h.mem_foldlM hout).1 hid with hid | ⟨L, -, x, -, rfl⟩
  · exact absurd hid List.not_mem_nil
  · exact BlockIdentity.consensusIdentity_idem x

end Appends

/-! ### What a leader adds -/

section Chain

variable {ladder : Ladder} {Q : Quorum.Rule NodeId} {B : Blocklace} {w d : ℕ} {ls : LeaderSelection}
  {L : BlockIdentity} {base leaders out : List BlockIdentity}
  {step : List BlockIdentity → BlockIdentity → Except OrderingError (List BlockIdentity)}

/-- Without a checkpoint a chain ends in its leader, and before it is the chain of the
previous leader. -/
theorem chain_cases (hcp : B.checkpoint = none) (hc : ladder.Chain B w ls L base leaders) :
    leaders = [L] ∨ ∃ P below, ladder.previous B L w ls = some P ∧
      ladder.Chain B w ls P base below ∧ leaders = below ++ [L] := by
  cases hc with
  | checkpoint he =>
      rw [Ladder.emitCheckpointPrefix_none hcp] at he
      exact absurd he (by simp)
  | first => exact Or.inl rfl
  | next _ hp hc => exact Or.inr ⟨_, _, hp, hc, rfl⟩

theorem getLast?_of_chain (hcp : B.checkpoint = none) (hc : ladder.Chain B w ls L base leaders) :
    leaders.getLast? = some L := by
  rcases chain_cases hcp hc with rfl | ⟨P, below, -, -, rfl⟩
  · rfl
  · exact List.getLast?_concat

/-- **The walk to a leader ends with what the leader adds.** -/
theorem endsWith_of_foldlM (happends : AppendsFresh B step) (hQ : ladder.Decides Q)
    (hcp : B.checkpoint = none) (hL : B.Round L d)
    (hc : ladder.Chain B w ls L base leaders) (hout : leaders.foldlM step [] = .ok out) :
    EndsWith B L out := by
  obtain ⟨below, rfl, hbelow⟩ : ∃ below, leaders = below ++ [L] ∧
      ∀ K ∈ below, ∃ e < d, B.Round K e := by
    rcases chain_cases hcp hc with rfl | ⟨P, below, hp, hcP, rfl⟩
    · exact ⟨[], rfl, fun K hK => absurd hK List.not_mem_nil⟩
    · refine ⟨below, rfl, fun K hK => ?_⟩
      obtain ⟨e, hlt, hP⟩ := hL.of_below (Ladder.previous_below hQ hL hp)
      obtain ⟨k, hle, hk⟩ := hP.of_sees (hcP.sees hQ hP hK)
      exact ⟨k, by omega, hk⟩
  rw [List.foldlM_append] at hout
  obtain ⟨mid, hmid, hout⟩ := bind_eq_ok.1 hout
  rw [List.foldlM_cons] at hout
  obtain ⟨next, hnext, hout⟩ := bind_eq_ok.1 hout
  obtain rfl := Except.ok.inj hout
  obtain ⟨added, rfl, -, hadded⟩ := happends mid L next hnext
  refine ⟨mid, added, rfl, (hadded _).2 ⟨fun hmem => ?_, L, Blocklace.mem_approvedSet_self hL, rfl⟩,
    hadded⟩
  -- what earlier leaders approve is below the leader
  rcases (happends.mem_foldlM hmid).1 hmem with hnil | ⟨K, hK, x, hx, heq⟩
  · exact absurd hnil List.not_mem_nil
  · obtain ⟨e, hlt, hKe⟩ := hbelow K hK
    obtain rfl := Blocklace.eq_of_consensusIdentity_eq hx.1 hL.mem heq
    obtain ⟨k, hle, hk⟩ := hKe.of_sees ((Blocklace.mem_approvedSet_iff hKe).1 hx).sees
    have hkd := hk.unique hL
    omega

end Chain

/-! ### Quorums of stake -/

section Stake

variable {B : Blocklace} {bonds : Bonds} {w wave d : ℕ} {ls : LeaderSelection} {L x : BlockIdentity}

theorem observesStake_round (h : observesStake B bonds = true) {b : BlockIdentity}
    (hb : B.Round b (d + 1)) :
    bonds.rule.holds {c | ∃ x, B.Sees b x ∧ B.Round x d ∧ x.creator = c} := by
  have hall := List.all_eq_true.1 h b (AList.mem_keys.1 hb.mem)
  rw [hb.depth] at hall
  refine bonds.rule.mono (fun c hc => ?_)
    ((isWeightedSupermajoritySnapshot_iff (List.nodup_dedup _) bonds).1 hall)
  obtain ⟨x, hx, rfl⟩ := List.mem_map.1 (List.mem_dedup.1 hc)
  obtain ⟨hobserved, hdepth⟩ := List.mem_filter.1 hx
  have hsees := (Blocklace.mem_observe_of_mem hb.mem).1 hobserved
  have hround := of_decide_eq_true hdepth
  exact ⟨x, hsees, (Blocklace.depth_eq_some_of_mem (hsees.mem hb.mem)).1 hround, rfl⟩

/-- Every block of a later wave ratifies a final leader, weighing stake. -/
theorem ratifies_of_later_stake (hcp : B.checkpoint = none)
    (hchain : B.satisfiesChainAxiomAll = true) (hseen : observesStake B bonds = true)
    (hL : B.FinalLeader bonds.rule w ls wave L) (hx : B.Round x d) (hd : wave * w + w ≤ d) :
    B.Ratifies bonds.rule x L := by
  refine hL.ratifies_of_meeting hcp hchain (observesStake_round hseen) ?_ hx hd
  intro S T hS hT _ _
  have hnone : 3 * ∑ c ∈ (∅ : Finset NodeId), bonds.weight c ≤ bonds.total := by simp
  obtain ⟨c, hcS, hcT, -⟩ := Quorum.stake_inter hS hT bonds.sum_le_total hnone
  exact ⟨c, hcS, hcT⟩

end Stake

/-! ### The published output -/

section Published

variable {B : Blocklace} {bonds : Bonds} {w wave latestWave : ℕ} {L A : BlockIdentity}
  {latest : OrderedFinalizedOutput} {blocks leaders : List BlockIdentity}

/-- The wave of an output is the one its leader is final in. -/
theorem finalizedWave_of_leader (hL : leaderForWave B w bonds wave = some L)
    (blocks : List BlockIdentity) :
    finalizedWaveFromOutput B (.new blocks (some L) w) = .ok (some wave) := by
  obtain ⟨hu, -⟩ := (Ladder.finalForWave_iff (stakeLadder_decides bonds)).1 hL
  have hdepth : B.depth L.consensusIdentity = some (wave * w) := hu.round.depth_consensusIdentity
  have hwave : waveOfRound (wave * w) w = some wave :=
    waveOfRound_eq_some.2 ⟨hu.pos, Nat.mul_div_cancel _ hu.pos⟩
  unfold finalizedWaveFromOutput OrderedFinalizedOutput.new
  dsimp only [Option.map_some]
  rw [if_neg hu.pos.ne', hdepth]
  show (okOr _ (waveOfRound (wave * w) w) >>= _) = _
  rw [hwave]
  rfl

/-- The check of an earlier wave. -/
theorem finalizedOutputForWave_of_lt
    (hlatest : finalizedWaveFromOutput B latest = .ok (some latestWave)) (hlt : wave < latestWave)
    (hmany : 2 ≤ bonds.table.keys.length)
    (hA : leaderForWave B latest.wavelength bonds wave = some A)
    (hblocks : B.weightedTauAtLeader A latest.wavelength bonds
      (leaderOfWave (orderedValidators bonds)) = .ok blocks) :
    finalizedOutputForWave B latest bonds wave =
      if ¬blocks <+: latest.blocks ∨ A.consensusIdentity ∉ blocks then
        .error (.historicalPrefixMismatch wave)
      else .ok (some (.new blocks (some A) latest.wavelength)) := by
  have hlength : (orderedValidators bonds).length ≠ 1 := by
    unfold orderedValidators Reputation.sortedValidators
    rw [List.length_insertionSort]
    omega
  have hkeys : bonds.table.keys ≠ [] := by
    rintro hnil
    rw [hnil] at hmany
    simp at hmany
  have hreplayed : replayedBlocks B latest.wavelength bonds A = .ok blocks := by
    unfold replayedBlocks
    dsimp only
    rw [if_neg fun h => hlength h.1, hblocks]
  unfold finalizedOutputForWave
  rw [hlatest]
  dsimp only
  rw [if_neg (by omega), if_neg (by omega), if_neg hkeys, hA]
  dsimp only
  rw [hreplayed]

/-- **What is published**: the leaders of the chain emit all they approve in order. -/
theorem published_spec {registry : ℕ → LeaderSelection} {cache : OrderingCache}
    {anchor : Option BlockIdentity} (hcp : B.checkpoint = none)
    (hmany : 2 ≤ bonds.table.keys.length)
    (hregistry : registry 0 = leaderOfWave (orderedValidators bonds))
    (hcache : cache.Sound registry B)
    (hpublished : (tryOrderedBlockIdentitiesWithCache B bonds w cache).1 = .ok (blocks, anchor)) :
    anchor = B.latestWeightedFinalLeader w bonds (leaderOfWave (orderedValidators bonds)) ∧
      ∀ L, anchor = some L → ∃ leaders,
        (stakeLadder (.fromBonds bonds)).Chain B w (leaderOfWave (orderedValidators bonds)) L []
          leaders ∧ leaders.foldlM B.emitSortedFragment [] = .ok blocks := by
  rw [tryOrdered_of_several w cache hmany] at hpublished
  obtain ⟨ordered, hordered, heq⟩ := map_eq_ok.1 hpublished
  obtain ⟨rfl, rfl⟩ := Prod.mk.inj heq
  refine ⟨rfl, fun L hL => ?_⟩
  obtain ⟨hresult, -⟩ := Blocklace.orderedWithCache_spec
    ⟨w, .stake (.fromBonds bonds), 0, leaderOfWave (orderedValidators bonds)⟩
    (stakeLadder_decides bonds) hregistry.symm hcache
  have hlatest : (Votes.stake (.fromBonds bonds)).ladder.latest B w
      (leaderOfWave (orderedValidators bonds)) = some L := hL
  dsimp only at hresult
  rw [hlatest] at hresult
  obtain ⟨base, leaders, hc, hout⟩ := hresult
  obtain rfl := hc.base_eq hcp
  exact ⟨leaders, hc, hout.symm.trans hordered⟩

/-- The leaders of a chain below the latest one are not disturbed by what was emitted
before them. -/
def UndisturbedBelowLatest (B : Blocklace) (bonds : Bonds) (w : ℕ) : Prop :=
  ∀ L leaders,
    B.latestWeightedFinalLeader w bonds (leaderOfWave (orderedValidators bonds)) = some L →
    (stakeLadder (.fromBonds bonds)).Chain B w (leaderOfWave (orderedValidators bonds)) L [] leaders →
      B.ChainUndisturbed ∅ leaders.dropLast

/-- Blocks as they are published over the chain of the final leader of a wave. -/
structure PublishedAt (B : Blocklace) (bonds : Bonds) (w : ℕ) (blocks : List BlockIdentity)
    (wave : ℕ) (L : BlockIdentity) (leaders : List BlockIdentity) : Prop where
  leader : leaderForWave B w bonds wave = some L
  chain : (stakeLadder (.fromBonds bonds)).Chain B w (leaderOfWave (orderedValidators bonds)) L []
    leaders
  output : leaders.foldlM B.emitSortedFragment [] = .ok blocks

theorem PublishedAt.round (h : PublishedAt B bonds w blocks wave L leaders) :
    B.Round L (wave * w) :=
  ((Ladder.finalForWave_iff (stakeLadder_decides bonds)).1 h.leader).1.round

/-- The wave of what is published, and its blocks. -/
theorem PublishedAt.blocks_eq (h : PublishedAt B bonds w blocks wave L leaders) :
    (OrderedFinalizedOutput.new blocks (some L) w).blocks = blocks :=
  appendsFresh_emitSortedFragment.unsigned h.output

/-- What a replay finds at an earlier final leader. -/
structure ReplayAt (B : Blocklace) (bonds : Bonds) (w : ℕ) (leaders : List BlockIdentity)
    (A : BlockIdentity) (below out : List BlockIdentity) : Prop where
  chain : (stakeLadder (.fromBonds bonds)).Chain B w (leaderOfWave (orderedValidators bonds)) A []
    below
  extended : ∃ later, later ≠ [] ∧ leaders = below ++ later
  walked : below.foldlM B.emitFragment [] = .ok out
  output : B.weightedTauAtLeader A w bonds (leaderOfWave (orderedValidators bonds)) = .ok out

/-- **An earlier final leader is on the chain of the latest one.** -/
theorem PublishedAt.exists_replayAt {earlier : ℕ}
    (h : PublishedAt B bonds w blocks wave L leaders) (hcp : B.checkpoint = none)
    (hchain : B.satisfiesChainAxiomAll = true) (hseen : observesStake B bonds = true)
    (hA : leaderForWave B w bonds earlier = some A) (hlt : earlier < wave) :
    ∃ below out, ReplayAt B bonds w leaders A below out := by
  have hQ := stakeLadder_decides bonds
  obtain ⟨hu, hfinal⟩ := (Ladder.finalForWave_iff hQ).1 hA
  have hmeets := Ladder.meets_of_ratified hQ hcp hA
    (fun x e hx he => ratifies_of_later_stake hcp hchain hseen hfinal hx he) h.leader hlt.le
  obtain ⟨base, below, hc⟩ := Ladder.exists_chain hQ w (leaderOfWave (orderedValidators bonds))
    hu.round
  obtain rfl := hc.base_eq hcp
  obtain ⟨later, hlater⟩ := hc.of_meets hcp hmeets
  obtain ⟨-, hleaders⟩ := h.chain.unique hlater
  obtain ⟨out, hout⟩ := Blocklace.exists_foldlM_emitFragment hcp (fun K hK => by
    obtain ⟨e, -, he⟩ := hu.round.of_sees (hc.sees hQ hu.round hK)
    exact ⟨e, he⟩) []
  refine ⟨below, out, hc, ⟨later, ?_, hleaders⟩, hout, ?_⟩
  · -- the two leaders are of different waves
    rintro rfl
    rw [List.append_nil] at hleaders
    have hlast := getLast?_of_chain hcp h.chain
    rw [hleaders, getLast?_of_chain hcp hc] at hlast
    obtain rfl := Option.some.inj hlast
    have hround := h.round.unique hu.round
    have hpos := hu.pos
    exact absurd (Nat.eq_of_mul_eq_mul_right hpos hround) hlt.ne'
  · unfold Blocklace.weightedTauAtLeader
    rw [Ladder.tauAtLeader_eq hQ hu.round hc, hout]

/-- **The replay is a prefix of what is published exactly where its chain is not
disturbed.** -/
theorem PublishedAt.prefix_iff {below out : List BlockIdentity}
    (h : PublishedAt B bonds w blocks wave L leaders) (hA : ReplayAt B bonds w leaders A below out) :
    out <+: blocks ↔ B.ChainUndisturbed ∅ below := by
  obtain ⟨later, -, hleaders⟩ := hA.extended
  have hsorted := h.output
  rw [hleaders, List.foldlM_append] at hsorted
  obtain ⟨mid, hmid, hrest⟩ := bind_eq_ok.1 hsorted
  have hmidblocks := Blocklace.prefix_foldlM_emitSortedFragment hrest
  have hlength := appendsFresh_emitFragment.length_eq appendsFresh_emitSortedFragment
    List.nodup_nil hA.walked hmid
  have hnone : B.Emits ∅ [] := fun x _ => iff_of_false List.not_mem_nil (Set.notMem_empty x)
  rw [← Blocklace.foldlM_emitSortedFragment_eq_iff hnone hA.walked, hmid]
  constructor
  · intro hout
    rw [(List.prefix_of_prefix_length_le hout hmidblocks hlength.le).eq_of_length hlength]
  · intro heq
    exact Except.ok.inj heq ▸ hmidblocks

/-- A chain is undisturbed as far as a longer one is. -/
theorem chainUndisturbed_append {D : Set BlockIdentity} {below later : List BlockIdentity}
    (h : B.ChainUndisturbed D (below ++ later)) : B.ChainUndisturbed D below := by
  induction below generalizing D with
  | nil => trivial
  | cons K below ih => exact ⟨h.1, ih h.2⟩

/-- What the replay of a wave up to the published one returns. -/
theorem PublishedAt.exists_output {k : ℕ} (h : PublishedAt B bonds w blocks wave L leaders)
    (hcp : B.checkpoint = none) (hmany : 2 ≤ bonds.table.keys.length)
    (hchain : B.satisfiesChainAxiomAll = true) (hseen : observesStake B bonds = true)
    (hundisturbed : B.ChainUndisturbed ∅ leaders.dropLast) (hk : k ≤ wave)
    (hA : leaderForWave B w bonds k = some A) :
    ∃ output, finalizedOutputForWave B (.new blocks (some L) w) bonds k = .ok (some output) ∧
      output.blocks <+: blocks ∧ EndsWith B A output.blocks ∧
      (k < wave →
        B.weightedTauAtLeader A w bonds (leaderOfWave (orderedValidators bonds)) = .ok output.blocks) ∧
      (k = wave → output.blocks = blocks) := by
  have hQ := stakeLadder_decides bonds
  have hwave := finalizedWave_of_leader h.leader blocks
  rcases Nat.lt_or_eq_of_le hk with hlt | rfl
  · obtain ⟨below, out, hreplay⟩ := h.exists_replayAt hcp hchain hseen hA hlt
    obtain ⟨hu, -⟩ := (Ladder.finalForWave_iff hQ).1 hA
    have hunsigned := appendsFresh_emitFragment.unsigned hreplay.walked
    obtain ⟨later, hlater, hleaders⟩ := hreplay.extended
    rw [hleaders, List.dropLast_append_of_ne_nil hlater] at hundisturbed
    have hbefore := (h.prefix_iff hreplay).2 (chainUndisturbed_append hundisturbed)
    have hends := endsWith_of_foldlM appendsFresh_emitFragment hQ hcp hu.round hreplay.chain
      hreplay.walked
    have hmem : A.consensusIdentity ∈ out := by
      obtain ⟨front, added, rfl, hadded, -⟩ := hends
      exact List.mem_append_right _ hadded
    have hcheck := finalizedOutputForWave_of_lt hwave hlt hmany hA hreplay.output
    rw [h.blocks_eq, if_neg (by rw [not_or, not_not, not_not]; exact ⟨hbefore, hmem⟩)] at hcheck
    refine ⟨_, hcheck, ?_, ?_, fun _ => ?_, fun heq => absurd heq hlt.ne⟩
    · show out.map BlockIdentity.consensusIdentity <+: blocks
      rwa [hunsigned]
    · show EndsWith B A (out.map BlockIdentity.consensusIdentity)
      rwa [hunsigned]
    · show _ = Except.ok (out.map BlockIdentity.consensusIdentity)
      rw [hunsigned]
      exact hreplay.output
  · obtain rfl : A = L := Option.some.inj (hA.symm.trans h.leader)
    have hsame : finalizedOutputForWave B (.new blocks (some A) w) bonds k =
        .ok (some (.new blocks (some A) w)) := by
      unfold finalizedOutputForWave
      rw [hwave]
      dsimp only
      rw [if_neg (Nat.lt_irrefl k), if_pos rfl]
    refine ⟨_, hsame, ?_, ?_, fun hlt => absurd hlt (Nat.lt_irrefl k), fun _ => h.blocks_eq⟩
    · rw [h.blocks_eq]
    · rw [h.blocks_eq]
      exact endsWith_of_foldlM appendsFresh_emitSortedFragment hQ hcp h.round h.chain h.output

/-- **Past waves replay as prefixes exactly where the chain is undisturbed below the
latest leader.** -/
theorem past_waves_replay_iff {registry : ℕ → LeaderSelection} {cache : OrderingCache}
    {anchor : Option BlockIdentity} (hcp : B.checkpoint = none)
    (hmany : 2 ≤ bonds.table.keys.length) (hchain : B.satisfiesChainAxiomAll = true)
    (hseen : observesStake B bonds = true)
    (hregistry : registry 0 = leaderOfWave (orderedValidators bonds))
    (hcache : cache.Sound registry B)
    (hpublished : (tryOrderedBlockIdentitiesWithCache B bonds w cache).1 = .ok (blocks, anchor)) :
    PastWavesReplay B bonds (.new blocks anchor w) ↔ UndisturbedBelowLatest B bonds w := by
  have hQ := stakeLadder_decides bonds
  obtain ⟨hanchor, hwalk⟩ := published_spec hcp hmany hregistry hcache hpublished
  unfold UndisturbedBelowLatest
  cases anchor with
  | none =>
      rw [← hanchor]
      refine iff_of_true (fun latestWave hwave => ?_) fun L leaders hL => by cases hL
      exact absurd hwave (by simp [finalizedWaveFromOutput, OrderedFinalizedOutput.new])
  | some L =>
      obtain ⟨leaders, hc, hout⟩ := hwalk L rfl
      rw [← hanchor]
      obtain ⟨n, hL, -⟩ := (Ladder.latest_iff_finalForWave hQ hcp).1 hanchor.symm
      have h : PublishedAt B bonds w blocks n L leaders := ⟨hL, hc, hout⟩
      have hwave := finalizedWave_of_leader h.leader blocks
      constructor
      · rintro hreplay L' leaders' hL' hc'
        obtain rfl := Option.some.inj hL'
        obtain ⟨-, rfl⟩ := hc.unique hc'
        rcases chain_cases hcp hc with rfl | ⟨P, below, hp, hcP, rfl⟩
        · trivial
        -- the leader before the latest one is final in an earlier wave
        rw [List.dropLast_concat]
        obtain ⟨hw, k, hk, hP, -⟩ := (Ladder.previous_iff hQ h.round).1 hp
        rw [Nat.mul_div_cancel _ hw] at hk
        obtain ⟨hfinal, -⟩ := (Ladder.previousAt_iff_of_no_checkpoint hcp).1 hP
        obtain ⟨below', out, hreplayAt⟩ := h.exists_replayAt hcp hchain hseen hfinal hk
        obtain ⟨-, rfl⟩ := hcP.unique hreplayAt.chain
        obtain ⟨output, houtput, -⟩ := hreplay n hwave k hk.le P hfinal
        rw [finalizedOutputForWave_of_lt hwave hk hmany hfinal hreplayAt.output] at houtput
        split_ifs at houtput with hmismatch
        rw [not_or, not_not, h.blocks_eq] at hmismatch
        exact (h.prefix_iff hreplayAt).1 hmismatch.1
      · intro hundisturbed n' hn' wave hle A hA
        obtain rfl : n = n' := Option.some.inj (Except.ok.inj (hwave.symm.trans hn'))
        have hbelow := hundisturbed L leaders rfl hc
        obtain ⟨output, houtput, hbefore, hends, hlower, hlast⟩ :=
          h.exists_output hcp hmany hchain hseen hbelow hle hA
        refine ⟨output, houtput, by rwa [h.blocks_eq], hends, fun earlier hearlier hsome => ?_⟩
        obtain ⟨K, hK⟩ := Option.isSome_iff_exists.1 hsome
        obtain ⟨output', houtput', hbefore', -, hlower', hlast'⟩ :=
          h.exists_output hcp hmany hchain hseen hbelow (hearlier.trans hle) hK
        refine ⟨output', houtput', ?_⟩
        rcases Nat.lt_or_eq_of_le hle with hlt | rfl
        · -- two replays: the later leader meets the earlier one
          obtain ⟨huA, -⟩ := (Ladder.finalForWave_iff hQ).1 hA
          obtain ⟨-, hfinalK⟩ := (Ladder.finalForWave_iff hQ).1 hK
          have hmeets := Ladder.meets_of_ratified hQ hcp hK
            (fun x e hx he => ratifies_of_later_stake hcp hchain hseen hfinalK hx he) hA hearlier
          obtain ⟨out', out, hout', hout, hpre⟩ :=
            Ladder.tauAtLeader_prefix_of_meets hQ hcp huA.round hmeets
          obtain rfl := Except.ok.inj (hout.symm.trans (hlower hlt))
          obtain rfl := Except.ok.inj (hout'.symm.trans (hlower' (by omega)))
          exact hpre
        · rw [hlast rfl]
          exact hbefore'

end Published

/-! ### A late block -/

open Blocklace (sampleBlock sampleId)

/-- Ten units of stake for creator `1`, one for creator `2`. -/
def unevenBonds : Bonds :=
  ⟨((∅ : AList fun _ : NodeId => U64).insert ⟨[2]⟩ 1).insert ⟨[1]⟩ 10, by decide⟩

/-- Five blocks of creator `1` in a row, the third one with further references. -/
def leadingChain (further : List BlockIdentity) : List Block :=
  [sampleBlock (sampleId 10 1) [], sampleBlock (sampleId 1 1) [sampleId 10 1],
    sampleBlock (sampleId 20 1) (sampleId 1 1 :: further),
    sampleBlock (sampleId 30 1) [sampleId 20 1],
    sampleBlock (sampleId 40 1) [sampleId 30 1]]

/-- The chain alone. -/
def steadyWaves : Blocklace := (Blocklace.new 0).growBy (leadingChain [])

/-- Creator `2` starts late: the third block of the chain is the first that refers to it. -/
def lateGenesis : Blocklace :=
  (Blocklace.new 0).growBy (sampleBlock (sampleId 5 2) [] :: leadingChain [sampleId 5 2])

/-- The output of the chain. -/
def steadyOutput : OrderedFinalizedOutput :=
  .new [sampleId 10 1, sampleId 1 1, sampleId 20 1, sampleId 30 1,
    sampleId 40 1] (some (sampleId 40 1)) 1

theorem undisturbed_steadyWaves : UndisturbedBelowLatest steadyWaves unevenBonds 1 := by
  intro L leaders hL hc
  have hlatest : steadyWaves.latestWeightedFinalLeader 1 unevenBonds
      (leaderOfWave (orderedValidators unevenBonds)) = some (sampleId 40 1) := by decide +kernel
  obtain rfl := Option.some.inj (hlatest.symm.trans hL)
  have hcp : steadyWaves.checkpoint = none := by decide +kernel
  have hnone : ∀ x, (stakeLadder (.fromBonds unevenBonds)).emitCheckpointPrefix steadyWaves x [] =
      none := fun x => Ladder.emitCheckpointPrefix_none hcp x []
  have hwalk : (stakeLadder (.fromBonds unevenBonds)).Chain steadyWaves 1
      (leaderOfWave (orderedValidators unevenBonds)) (sampleId 40 1) _
      [sampleId 10 1, sampleId 20 1, sampleId 40 1] :=
    .next (hnone _) (by decide +kernel) (.next (hnone _) (by decide +kernel)
      (.first (hnone _) (by decide +kernel)))
  obtain ⟨-, rfl⟩ := hc.unique hwalk
  have hstart : steadyWaves.Emits ∅ [] := fun x _ =>
    iff_of_false List.not_mem_nil (Set.notMem_empty x)
  have hfresh : [sampleId 10 1, sampleId 20 1].foldlM steadyWaves.emitFragment [] =
      .ok [sampleId 10 1, sampleId 1 1, sampleId 20 1] := by decide +kernel
  exact (Blocklace.foldlM_emitSortedFragment_eq_iff hstart hfresh).1 (by decide +kernel)

/-- The waves of the chain replay. -/
theorem past_waves_replay_steadyWaves : PastWavesReplay steadyWaves unevenBonds steadyOutput := by
  have hcache : OrderingCache.empty.Sound (fun _ => leaderOfWave (orderedValidators unevenBonds))
      steadyWaves := fun h => by cases h
  have hpublished : (tryOrderedBlockIdentitiesWithCache steadyWaves unevenBonds 1 .empty).1 =
      .ok (steadyOutput.blocks, some (sampleId 40 1)) := by decide +kernel
  refine (past_waves_replay_iff ?_ ?_ ?_ ?_ ?_ hcache hpublished).2 undisturbed_steadyWaves
  · decide +kernel
  · decide
  · decide +kernel
  · decide +kernel
  · rfl

/-- **A past wave does not replay** after a late block: wave `2` has a final leader, and
its replay is no prefix of the published output. -/
theorem past_wave_mismatch : lateGenesis.isClosed = true ∧ lateGenesis.checkpoint = none ∧
    lateGenesis.satisfiesChainAxiomAll = true ∧ observesStake lateGenesis unevenBonds = true ∧
    ∃ blocks, (tryOrderedBlockIdentitiesWithCache lateGenesis unevenBonds 1 .empty).1 =
        .ok (blocks, some (sampleId 40 1)) ∧
      leaderForWave lateGenesis 1 unevenBonds 2 = some (sampleId 20 1) ∧
      finalizedOutputForWave lateGenesis (.new blocks (some (sampleId 40 1)) 1) unevenBonds 2 =
        .error (.historicalPrefixMismatch 2) := by
  refine ⟨by decide +kernel, by decide +kernel, by decide +kernel, by decide +kernel,
    [sampleId 10 1, sampleId 5 2, sampleId 1 1, sampleId 20 1,
      sampleId 30 1, sampleId 40 1], by decide +kernel, by decide +kernel,
    by decide +kernel⟩

end CordialMiners.Output
