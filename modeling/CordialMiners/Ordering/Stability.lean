/-
# Growth and the output order

What inserts change about the output, without a checkpoint.

The fragment of a leader is read off its closure, so it is fixed
(`Extends.emitFragment_eq`).  The chain is not: the previous leader is looked up
among the leaders that are final *in the whole blocklace*, and a block that
arrives late can make a leader of an earlier wave final.  As long as the final
leaders of the waves below a leader stay what they are, its output stays what it
is (`tauAtLeader_eq_of_agree`).

`tau_prefix_stable` is the stability of the output.  In a blocklace where every
block sees a quorum of the round before, every block of a later wave ratifies
every final leader (`FinalLeader.ratifies_of_later`), so the chain passes
through the old anchor; what remains is that no wave below the anchor becomes
final late.  `tau_reordered_by_late_finality` is a run in which one does.
-/

import CordialMiners.Ordering.Tau
import CordialMiners.Core.Agreement

namespace CordialMiners

open FinGraph Relation

namespace Blocklace

variable {B B' : Blocklace} {L P x : BlockIdentity} {d : ℕ} {ordered : List BlockIdentity}

/-! ### What growth leaves alone -/

/-- **The fragment of a block with a round is fixed.** -/
theorem Extends.emitFragment_eq (h : B.Extends B') (hcp : B.checkpoint = none)
    (hcp' : B'.checkpoint = none) (hL : B.Round L d) (ordered : List BlockIdentity) :
    B'.emitFragment ordered L = B.emitFragment ordered L := by
  have heq : B'.checkpoint = B.checkpoint := hcp'.trans hcp.symm
  have hL' : B'.Round L d := h.round heq (fun hne => absurd hcp hne) hL
  have hset : B.freshSet L ordered = B'.freshSet L ordered := by
    unfold freshSet
    congr 1
    ext x
    rw [mem_approvedSet_iff hL, mem_approvedSet_iff hL', h.approves_iff heq hL]
  refine (emitFragment_congr hset fun p _ x hx => ?_).symm
  obtain ⟨e, -, hx⟩ := hL.of_sees ((mem_approvedSet_iff hL).1 hx.1).sees
  rw [refers_iff_mem_expand (by simp [hcp]) hx.mem,
    refers_iff_mem_expand (by simp [hcp']) (h.mem hx.mem), h.mem_expand_iff_of_round heq hx]

end Blocklace

namespace Ladder

open Blocklace

variable {ladder : Ladder} {Q : Quorum.Rule NodeId} {B B' : Blocklace} {w wave d : ℕ}
  {ls : LeaderSelection} {L P A : BlockIdentity} {base leaders : List BlockIdentity}

/-- Without a checkpoint the search finds the final leaders that are ratified. -/
theorem previousAt_iff_of_no_checkpoint (hcp : B.checkpoint = none) :
    ladder.PreviousAt Q B w ls L wave P ↔
      ladder.finalForWave B wave w ls = some P ∧ B.Ratifies Q L P := by
  unfold PreviousAt
  rw [checkpointFloor_none hcp]
  simp

section Agree

variable (hQ : ladder.Decides Q) (hext : B.Extends B') (hcp : B.checkpoint = none)
  (hcp' : B'.checkpoint = none)

include hQ hext hcp hcp'

/-- The previous leader is fixed as long as the earlier final leaders are. -/
theorem previous_eq_of_agree (hL : B.Round L d)
    (hagree : ∀ wave < d / w, ladder.finalForWave B' wave w ls = ladder.finalForWave B wave w ls) :
    ladder.previous B' L w ls = ladder.previous B L w ls := by
  have heq : B'.checkpoint = B.checkpoint := hcp'.trans hcp.symm
  have hL' : B'.Round L d := hext.round heq (fun hne => absurd hcp hne) hL
  have hat : ∀ wave < d / w, ∀ P,
      (ladder.PreviousAt Q B' w ls L wave P ↔ ladder.PreviousAt Q B w ls L wave P) := by
    intro wave hlt P
    rw [previousAt_iff_of_no_checkpoint hcp, previousAt_iff_of_no_checkpoint hcp',
      hagree wave hlt, hext.ratifies_iff heq hL]
  refine Option.ext fun P => ?_
  rw [previous_iff hQ hL, previous_iff hQ hL']
  constructor
  · rintro ⟨hw, wave, hlt, hP, hlater⟩
    exact ⟨hw, wave, hlt, (hat wave hlt P).1 hP, fun wave' hlt' hgt P' hP' =>
      hlater wave' hlt' hgt P' ((hat wave' hlt' P').2 hP')⟩
  · rintro ⟨hw, wave, hlt, hP, hlater⟩
    exact ⟨hw, wave, hlt, (hat wave hlt P).2 hP, fun wave' hlt' hgt P' hP' =>
      hlater wave' hlt' hgt P' ((hat wave' hlt' P').1 hP')⟩

/-- The chain of a leader is fixed as long as the earlier final leaders are. -/
theorem Chain.of_agree (hc : ladder.Chain B w ls L base leaders) (hL : B.Round L d)
    (hagree : ∀ wave < d / w, ladder.finalForWave B' wave w ls = ladder.finalForWave B wave w ls) :
    ladder.Chain B' w ls L base leaders := by
  induction hc generalizing d with
  | checkpoint he =>
      rw [emitCheckpointPrefix_none hcp] at he
      exact absurd he (by simp)
  | first _ hp =>
      rw [emitBelow_of_no_checkpoint hcp]
      rw [← previous_eq_of_agree hQ hext hcp hcp' hL hagree] at hp
      have hfirst := Chain.first (emitCheckpointPrefix_none hcp' _ _) hp
      rwa [emitBelow_of_no_checkpoint hcp'] at hfirst
  | next _ hp _ ih =>
      obtain ⟨e, hlt, hP⟩ := hL.of_below (previous_below hQ hL hp)
      rw [← previous_eq_of_agree hQ hext hcp hcp' hL hagree] at hp
      have hdiv : e / w ≤ d / w := Nat.div_le_div_right hlt.le
      exact .next (emitCheckpointPrefix_none hcp' _ _) hp
        (ih hP fun wave hwave => hagree wave (hwave.trans_le hdiv))

/-- **The output anchored at a leader is fixed as long as the earlier final
leaders are.** -/
theorem tauAtLeader_eq_of_agree (hL : B.Round L d)
    (hagree : ∀ wave < d / w, ladder.finalForWave B' wave w ls = ladder.finalForWave B wave w ls) :
    ladder.tauAtLeader B' L w ls = ladder.tauAtLeader B L w ls := by
  have heq : B'.checkpoint = B.checkpoint := hcp'.trans hcp.symm
  have hL' : B'.Round L d := hext.round heq (fun hne => absurd hcp hne) hL
  obtain ⟨base, leaders, hc⟩ := exists_chain hQ w ls hL
  rw [tauAtLeader_eq hQ hL hc,
    tauAtLeader_eq hQ hL' (hc.of_agree hQ hext hcp hcp' hL hagree)]
  refine foldlM_congr (fun x hx ordered => ?_) base
  obtain ⟨e, -, he⟩ := hL.of_sees (hc.sees hQ hL hx)
  exact hext.emitFragment_eq hcp hcp' he ordered

end Agree

/-- Without a checkpoint a chain starts from nothing. -/
theorem Chain.base_eq (hcp : B.checkpoint = none) (h : ladder.Chain B w ls L base leaders) :
    base = [] := by
  induction h with
  | checkpoint he =>
      rw [emitCheckpointPrefix_none hcp] at he
      exact absurd he (by simp)
  | first => exact emitBelow_of_no_checkpoint hcp _ _
  | next _ _ _ ih => exact ih

/-! ### Chains that meet -/

/-- `A` is met by the recursion from `L`. -/
def Meets (ladder : Ladder) (B : Blocklace) (w : ℕ) (ls : LeaderSelection) (L A : BlockIdentity) :
    Prop := ReflTransGen (fun x y => ladder.previous B x w ls = some y) L A

/-- The chain of `L` continues the chain of every leader it meets. -/
theorem Chain.of_meets (hcp : B.checkpoint = none) (hc : ladder.Chain B w ls A base leaders)
    (h : ladder.Meets B w ls L A) :
    ∃ later, ladder.Chain B w ls L base (leaders ++ later) := by
  induction h using ReflTransGen.head_induction_on with
  | refl => exact ⟨[], by rwa [List.append_nil]⟩
  | @head x _ hp _ ih =>
      obtain ⟨later, hc'⟩ := ih
      refine ⟨later ++ [x], ?_⟩
      rw [← List.append_assoc]
      exact .next (emitCheckpointPrefix_none hcp _ _) hp hc'

theorem Meets.sees (hQ : ladder.Decides Q) (h : ladder.Meets B w ls L A) (hL : B.Round L d) :
    B.Sees L A := by
  induction h using ReflTransGen.head_induction_on generalizing d with
  | refl => exact .refl B A
  | head hp _ ih =>
      have hbelow := previous_below hQ hL hp
      obtain ⟨e, -, he⟩ := hL.of_below hbelow
      exact hbelow.sees.trans (ih he)

/-- **The output of a leader starts with the output of every leader it meets.** -/
theorem tauAtLeader_prefix_of_meets (hQ : ladder.Decides Q) (hcp : B.checkpoint = none)
    (hL : B.Round L d) (h : ladder.Meets B w ls L A) :
    ∃ out out', ladder.tauAtLeader B A w ls = .ok out ∧ ladder.tauAtLeader B L w ls = .ok out' ∧
      out <+: out' := by
  obtain ⟨e, -, hA⟩ := hL.of_sees (h.sees hQ hL)
  obtain ⟨base, leaders, hc⟩ := exists_chain hQ w ls hA
  obtain ⟨later, hc'⟩ := hc.of_meets hcp h
  have hround : ∀ {top : BlockIdentity} {k : ℕ} {l : List BlockIdentity}, B.Round top k →
      ladder.Chain B w ls top base l → ∀ x ∈ l, ∃ k, B.Round x k := by
    intro top k l htop hl x hx
    obtain ⟨k', -, hk'⟩ := htop.of_sees (hl.sees hQ htop hx)
    exact ⟨k', hk'⟩
  obtain ⟨out, hout⟩ := exists_foldlM_emitFragment hcp (hround hA hc) base
  obtain ⟨out', hout'⟩ := exists_foldlM_emitFragment hcp (hround hL hc') base
  refine ⟨out, out', by rw [tauAtLeader_eq hQ hA hc, hout],
    by rw [tauAtLeader_eq hQ hL hc', hout'], ?_⟩
  rw [List.foldlM_append, hout] at hout'
  exact prefix_foldlM_emitFragment hout'

end Ladder

/-! ### Every later wave ratifies -/

namespace Blocklace

variable {B B' : Blocklace} {Q : Quorum.Rule NodeId} {w wave n f d : ℕ} {ls : LeaderSelection}
  {L x : BlockIdentity}

/-- Every block above round `0` observes blocks of the round before by more than
`(n + f) / 2` creators. -/
def observesQuorums (B : Blocklace) (n f : ℕ) : Bool :=
  B.dom.all fun b =>
    match B.depth b with
    | none => true
    | some 0 => true
    | some (d + 1) =>
        (n + f) / 2 <
          (((B.observe b).filter fun x => B.depth x = some d).map BlockIdentity.creator).dedup.length

theorem observesQuorums_round (h : B.observesQuorums n f = true) {b : BlockIdentity}
    (hb : B.Round b (d + 1)) :
    (Quorum.count ((n + f) / 2)).holds {c | ∃ x, B.Sees b x ∧ B.Round x d ∧ x.creator = c} := by
  have hall := List.all_eq_true.1 h b (AList.mem_keys.1 hb.mem)
  rw [hb.depth] at hall
  simp only [decide_eq_true_eq] at hall
  refine ⟨(((B.observe b).filter fun x => B.depth x = some d).map
    BlockIdentity.creator).toFinset, fun c hc => ?_, ?_⟩
  · rw [List.coe_toFinset] at hc
    obtain ⟨x, hx, rfl⟩ := List.mem_map.1 hc
    obtain ⟨hobs, hdepth⟩ := List.mem_filter.1 hx
    have hsees := (mem_observe_of_mem hb.mem).1 hobs
    rw [decide_eq_true_eq] at hdepth
    exact ⟨x, hsees, (depth_eq_some_of_mem (hsees.mem hb.mem)).1 hdepth, rfl⟩
  · rwa [List.card_toFinset]

/-- A block ratifies whatever a block it sees ratifies. -/
theorem Ratifies.of_sees {r : BlockIdentity} (h : B.Ratifies Q r L) (hx : B.Sees x r) :
    B.Ratifies Q x L := by
  refine Q.mono ?_ h
  rintro c ⟨y, hy, happ, rfl⟩
  exact ⟨y, hx.trans hy, happ, rfl⟩

/-- Under the chain axiom the later of two blocks of one creator sees the other. -/
theorem sees_of_chain (hchain : B.satisfiesChainAxiomAll = true) {a b : BlockIdentity} {e : ℕ}
    (ha : B.Round a e) (hb : B.Round b d) (hc : a.creator = b.creator) (hle : e ≤ d) :
    B.Sees b a := by
  by_cases heq : a = b
  · exact heq ▸ .refl B a
  · rcases satisfiesChainAxiomAll_iff.1 hchain a ha.mem b hb.mem hc heq with h | h
    · exact h.sees
    · exact absurd (hb.lt_of_below ha h) (by omega)

/-- Under the chain axiom a wave has one leader block. -/
theorem LeaderBlock.uniqueLeader (hchain : B.satisfiesChainAxiomAll = true)
    (hL : B.LeaderBlock w ls wave L) : B.UniqueLeader w ls wave L := by
  refine ⟨hL, fun L' hL' => ?_⟩
  have hc : L'.creator = L.creator := Option.some.inj (hL'.creator.symm.trans hL.creator)
  have hsees := sees_of_chain hchain hL'.round hL.round hc le_rfl
  exact hL'.round.sees_antisymm (sees_of_chain hchain hL.round hL'.round hc.symm le_rfl) hsees

/-- **Every block of a later wave ratifies a final leader** where two quorums of
creators meet.  It sees a quorum of the last round of the wave, which shares a creator
with the super-ratifiers; by the chain axiom the block seen is above the one that
ratifies. -/
theorem FinalLeader.ratifies_of_meeting (hcp : B.checkpoint = none)
    (hchain : B.satisfiesChainAxiomAll = true)
    (hseen : ∀ {y e}, B.Round y (e + 1) →
      Q.holds {c | ∃ x, B.Sees y x ∧ B.Round x e ∧ x.creator = c})
    (hmeet : ∀ {S T : Set NodeId}, Q.holds S → Q.holds T → S ⊆ {c | c ∈ B.allNodes} →
      T ⊆ {c | c ∈ B.allNodes} → ∃ c, c ∈ S ∧ c ∈ T)
    (hL : B.FinalLeader Q w ls wave L) (hx : B.Round x d) (hd : wave * w + w ≤ d) :
    B.Ratifies Q x L := by
  have hw := hL.pos
  obtain ⟨y, hxy, hy⟩ := hx.exists_sees hcp hd
  rw [show wave * w + w = wave * w + (w - 1) + 1 by omega] at hy
  obtain ⟨c, ⟨z, hyz, hz, hzc⟩, ⟨v, ⟨e, hv, -, hve⟩, hrat, hvc⟩⟩ :=
    hmeet (hseen hy) hL.super
      (by
        rintro c ⟨z, -, hz, rfl⟩
        exact mem_allNodes_iff.2 ⟨z, hz.mem, rfl⟩)
      (by
        rintro c ⟨v, ⟨e, hv, -⟩, -, rfl⟩
        exact mem_allNodes_iff.2 ⟨v, hv.mem, rfl⟩)
  have hzv : B.Sees z v := sees_of_chain hchain hv hz (hvc.trans hzc.symm) hve
  exact hrat.of_sees (hxy.trans (hyz.trans hzv))

/-- Every block of a later wave ratifies a final leader, counting creators. -/
theorem FinalLeader.ratifies_of_later (hcp : B.checkpoint = none)
    (hchain : B.satisfiesChainAxiomAll = true) (hcreators : B.allNodes.length ≤ n)
    (hquorums : B.observesQuorums n f = true)
    (hL : B.FinalLeader (Quorum.count ((n + f) / 2)) w ls wave L) (hx : B.Round x d)
    (hd : wave * w + w ≤ d) : B.Ratifies (Quorum.count ((n + f) / 2)) x L := by
  have hU : B.allNodes.toFinset.card ≤ 2 * ((n + f) / 2) + 1 := by
    have := List.toFinset_card_le B.allNodes
    omega
  have hcreator : {c | c ∈ B.allNodes} = (B.allNodes.toFinset : Set NodeId) :=
    (List.coe_toFinset _).symm
  refine hL.ratifies_of_meeting hcp hchain (observesQuorums_round hquorums) ?_ hx hd
  intro S T hS hT hSU hTU
  rw [hcreator] at hSU hTU
  exact Quorum.count_inter hS hT hSU hTU hU

end Blocklace

/-! ### Prefix stability -/

namespace Ladder

open Blocklace

variable {ladder : Ladder} {Q : Quorum.Rule NodeId} {B B' : Blocklace} {w wave wave' d : ℕ}
  {ls : LeaderSelection} {L A : BlockIdentity}

/-- A final leader that every block of a later wave ratifies is met from every
final leader of a later wave. -/
theorem meets_of_ratified (hQ : ladder.Decides Q) (hcp : B.checkpoint = none)
    (hA : ladder.finalForWave B wave w ls = some A)
    (hrat : ∀ x e, B.Round x e → wave * w + w ≤ e → B.Ratifies Q x A)
    (hL : ladder.finalForWave B wave' w ls = some L) (hle : wave ≤ wave') :
    ladder.Meets B w ls L A := by
  induction wave' using Nat.strong_induction_on generalizing L with
  | _ wave' ih =>
      obtain ⟨huA, -⟩ := (finalForWave_iff hQ).1 hA
      obtain ⟨huL, -⟩ := (finalForWave_iff hQ).1 hL
      by_cases heq : wave = wave'
      · subst heq
        obtain rfl := Option.some.inj (hA.symm.trans hL)
        exact ReflTransGen.refl
      · have hlt : wave < wave' := by omega
        have hw := huL.pos
        have hdiv : wave' * w / w = wave' := Nat.mul_div_cancel _ hw
        have hsucc : wave * w + w ≤ wave' * w := by
          calc wave * w + w = (wave + 1) * w := by ring
            _ ≤ wave' * w := Nat.mul_le_mul_right w hlt
        -- the search stops at the wave of `A` if not before
        have hAat : ladder.PreviousAt Q B w ls L wave A :=
          (previousAt_iff_of_no_checkpoint hcp).2 ⟨hA, hrat L _ huL.round hsucc⟩
        obtain ⟨P, hp⟩ := exists_previous hQ huL.round hw (by rw [hdiv]; exact hlt) hAat
        obtain ⟨-, k, hk, hP, hlater⟩ := (previous_iff hQ huL.round).1 hp
        rw [hdiv] at hk hlater
        have hwk : wave ≤ k := by
          by_contra hnot
          exact hlater wave hlt (by omega) A hAat
        have hfP := ((previousAt_iff_of_no_checkpoint hcp).1 hP).1
        exact ReflTransGen.head hp (ih k hk hfP hwk)

/-- Without a checkpoint the output exists. -/
theorem exists_tau (hQ : ladder.Decides Q) (hcp : B.checkpoint = none) (w : ℕ)
    (ls : LeaderSelection) : ∃ out, ladder.tau B w ls = .ok out := by
  unfold tau
  cases hL : ladder.latest B w ls with
  | none => exact ⟨[], rfl⟩
  | some L =>
      obtain ⟨wave, hL, -⟩ := (latest_iff_finalForWave hQ hcp).1 hL
      obtain ⟨hu, -⟩ := (finalForWave_iff hQ).1 hL
      obtain ⟨out, -, hout, -⟩ :=
        tauAtLeader_prefix_of_meets hQ hcp hu.round
          (show ladder.Meets B w ls L L from ReflTransGen.refl)
      exact ⟨out, hout⟩

/-- No wave before the anchor of `B` has a final leader in `B'` but none in `B`. -/
def NoLateFinality (ladder : Ladder) (B B' : Blocklace) (w : ℕ) (ls : LeaderSelection) : Prop :=
  ∀ A round, ladder.latest B w ls = some A → B.depth A = some round →
    ∀ wave < round / w, (ladder.finalForWave B' wave w ls).isSome →
      (ladder.finalForWave B wave w ls).isSome

section Growth

variable (hQ : ladder.Decides Q) (hext : B.Extends B') (hcp : B.checkpoint = none)
  (hcp' : B'.checkpoint = none) (hchain : B'.satisfiesChainAxiomAll = true)

include hQ hext hcp hcp' hchain

/-- A final leader stays the final leader of its wave. -/
theorem finalForWave_of_extends (hL : ladder.finalForWave B wave w ls = some L) :
    ladder.finalForWave B' wave w ls = some L := by
  obtain ⟨-, hfinal⟩ := (finalForWave_iff hQ).1 hL
  have hfinal' := hext.finalLeader (hcp'.trans hcp.symm) (fun hne => absurd hcp hne) hfinal
  exact (finalForWave_iff hQ).2 ⟨hfinal'.toLeaderBlock.uniqueLeader hchain, hfinal'⟩

/-- Without late finality the final leaders before the anchor are what they were. -/
theorem NoLateFinality.agree (hlate : ladder.NoLateFinality B B' w ls)
    (hA : ladder.latest B w ls = some A) (hround : B.Round A d) :
    ∀ k < d / w, ladder.finalForWave B' k w ls = ladder.finalForWave B k w ls := by
  intro k hk
  cases hL : ladder.finalForWave B k w ls with
  | some L => exact finalForWave_of_extends hQ hext hcp hcp' hchain hL
  | none =>
      by_contra hne
      have := hlate A _ hA hround.depth k hk (Option.isSome_iff_ne_none.2 hne)
      rw [hL] at this
      exact absurd this (by simp)

end Growth

end Ladder

namespace Blocklace

variable {B B' : Blocklace}

/-- **The output is stable under growth** unless a wave before its anchor becomes
final late. -/
theorem tau_prefix_stable (hcp : B.checkpoint = none) (hrun : InsertRun KeepsReferences B B')
    {wavelength n f : ℕ} {leaderSelection : LeaderSelection}
    (hchain : B'.satisfiesChainAxiomAll = true) (hcreators : B'.allNodes.length ≤ n)
    (hquorums : B'.observesQuorums n f = true)
    (hlate : (countLadder n f).NoLateFinality B B' wavelength leaderSelection) :
    ∃ out out', B.tau wavelength n f leaderSelection = .ok out ∧
      B'.tau wavelength n f leaderSelection = .ok out' ∧ out <+: out' := by
  have hQ := countLadder_decides n f
  have hext := hrun.extends
  have hcp' : B'.checkpoint = none := hrun.checkpoint.trans hcp
  obtain ⟨out', hout'⟩ := Ladder.exists_tau hQ hcp' wavelength leaderSelection
  unfold tau
  cases hA : (countLadder n f).latest B wavelength leaderSelection with
  | none => exact ⟨[], out', by simp [Ladder.tau, hA], hout', List.nil_prefix⟩
  | some A =>
      obtain ⟨wave, hfA, -⟩ := (Ladder.latest_iff_finalForWave hQ hcp).1 hA
      have hfA' := Ladder.finalForWave_of_extends hQ hext hcp hcp' hchain hfA
      obtain ⟨huA, -⟩ := (Ladder.finalForWave_iff hQ).1 hfA
      obtain ⟨-, hfinalA'⟩ := (Ladder.finalForWave_iff hQ).1 hfA'
      -- the anchor of `B'` meets the anchor of `B`
      obtain ⟨L', hL'⟩ :=
        Ladder.exists_latest hQ ((Ladder.scanLeader_iff_finalForWave hQ hcp').2 hfA')
      obtain ⟨wave', hfL', hlater⟩ := (Ladder.latest_iff_finalForWave hQ hcp').1 hL'
      have hle : wave ≤ wave' := by
        by_contra hnot
        have hnone := hlater wave (by omega)
        rw [hfA'] at hnone
        exact absurd hnone (by simp)
      have hmeets := Ladder.meets_of_ratified hQ hcp' hfA'
        (fun x e hx he => hfinalA'.ratifies_of_later hcp' hchain hcreators hquorums hx he) hfL' hle
      obtain ⟨huL', -⟩ := (Ladder.finalForWave_iff hQ).1 hfL'
      obtain ⟨out, out₂, hout, hout₂, hpre⟩ :=
        Ladder.tauAtLeader_prefix_of_meets hQ hcp' huL'.round hmeets
      -- below the anchor of `B` nothing has changed
      have hagree := hlate.agree hQ hext hcp hcp' hchain hA huA.round
      rw [Ladder.tauAtLeader_eq_of_agree hQ hext hcp hcp' huA.round hagree] at hout
      refine ⟨out, out₂, ?_, ?_, hpre⟩
      · unfold Ladder.tau
        rw [hA]
        exact hout
      · unfold Ladder.tau
        rw [hL']
        exact hout₂

/-- Three creators; creator `1` leads the waves `0` and `1` of length three.  In
round `1` only creators `1` and `2` have a block, and only one block of wave `0`
ratifies the first leader. -/
def thinWave : Blocklace :=
  (Blocklace.new 0).growBy
    [sampleBlock (sampleId 2 1) [], sampleBlock (sampleId 1 2) [],
      sampleBlock (sampleId 3 3) [],
      sampleBlock (sampleId 4 1) [sampleId 2 1, sampleId 1 2],
      sampleBlock (sampleId 5 2) [sampleId 1 2, sampleId 3 3],
      sampleBlock (sampleId 6 1) [sampleId 4 1, sampleId 5 2],
      sampleBlock (sampleId 7 2) [sampleId 4 1, sampleId 5 2],
      sampleBlock (sampleId 8 1) [sampleId 6 1, sampleId 7 2],
      sampleBlock (sampleId 9 2) [sampleId 6 1, sampleId 7 2],
      sampleBlock (sampleId 10 1) [sampleId 8 1, sampleId 9 2],
      sampleBlock (sampleId 11 2) [sampleId 8 1, sampleId 9 2],
      sampleBlock (sampleId 12 1) [sampleId 10 1, sampleId 11 2]]

/-- Creator `1` leads the waves `0` and `1`. -/
def twoWaveLeader : LeaderSelection := fun wave => if wave ≤ 1 then some ⟨[1]⟩ else none

/-- The hypotheses of `tau_prefix_stable` are met by one more block on top. -/
theorem tau_prefix_stable_thinWave :
    ∃ out out', thinWave.tau 3 3 0 twoWaveLeader = .ok out ∧
      (thinWave.growBy [sampleBlock (sampleId 13 2)
        [sampleId 10 1, sampleId 11 2]]).tau 3 3 0 twoWaveLeader = .ok out' ∧
        out <+: out' := by
  refine tau_prefix_stable (by decide +kernel)
    (insertRun_growBy_fresh (by decide +kernel) (by decide +kernel) (by decide +kernel))
    (by decide +kernel) (by decide +kernel) (by decide +kernel) ?_
  intro A round hA hround wave hlt hsome
  have hlatest : (countLadder 3 0).latest thinWave 3 twoWaveLeader =
      some (sampleId 8 1) := by decide +kernel
  obtain rfl := Option.some.inj (hlatest.symm.trans hA)
  have hdepth : thinWave.depth (sampleId 8 1) = some 3 := by decide +kernel
  obtain rfl := Option.some.inj (hdepth.symm.trans hround)
  obtain rfl : wave = 0 := by omega
  exact absurd hsome (by decide +kernel)

/-- A block of creator `3` that arrives late makes the leader of wave `0` final.
The output had begun with the block of creator `2`; now it begins with the
leader. -/
theorem tau_reordered_by_late_finality :
    ∃ B B' : Blocklace, B.checkpoint = none ∧ B'.checkpoint = none ∧ InsertRun AnyBlock B B' ∧
      B'.satisfiesChainAxiomAll = true ∧ B'.allNodes.length ≤ 3 ∧
      B'.observesQuorums 3 0 = true ∧
      ∃ out out', B.tau 3 3 0 twoWaveLeader = .ok out ∧ B'.tau 3 3 0 twoWaveLeader = .ok out' ∧
        ¬ out <+: out' := by
  refine ⟨thinWave, thinWave.growBy [sampleBlock (sampleId 20 3)
    [sampleId 2 1, sampleId 3 3]], by decide +kernel, by decide +kernel,
    insertRun_growBy (by decide +kernel), by decide +kernel, by decide +kernel,
    by decide +kernel,
    [sampleId 1 2, sampleId 2 1, sampleId 3 3, sampleId 4 1,
      sampleId 5 2, sampleId 6 1, sampleId 7 2, sampleId 8 1],
    [sampleId 2 1, sampleId 1 2, sampleId 3 3, sampleId 4 1,
      sampleId 5 2, sampleId 6 1, sampleId 7 2, sampleId 8 1],
    by decide +kernel, by decide +kernel, by decide +kernel⟩

end Blocklace

end CordialMiners
