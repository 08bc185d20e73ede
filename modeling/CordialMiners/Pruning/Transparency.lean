/-
# Pruning and the output order

Whether the output of a pruned blocklace is the output of the whole one, after
both have taken the same blocks.

From the round of the checkpoint on, both sides have the same blocks, and as long
as the chain axiom holds on both sides a block approves what it sees, so the
ratifiers and the final leaders of these waves agree (`CutAt.finalForWave_eq`).
What a later leader sees only through the checkpoint has been emitted with the
stored prefix, so the fragments agree too (`CutAt.emitFragment_eq`).  Two things
are left to the history below: the output of the checkpoint itself, which must
still be the stored prefix, and the step of the walk to the checkpoint, which the
pruned side takes without asking whether the later leader ratifies it.

`tau_transparent` puts this together.
-/

import CordialMiners.Pruning.Cut
import CordialMiners.Ordering.Stability
import CordialMiners.Ordering.Causality

namespace CordialMiners

open FinGraph Relation

namespace Blocklace

variable {B P : Blocklace} {Q : Quorum.Rule NodeId} {w k k₀ d e : ℕ} {ls : LeaderSelection}
  {a c r t x L : BlockIdentity} {ordered stored : List BlockIdentity}

/-- Under the chain axiom a block approves what it sees. -/
theorem approves_iff_sees (hchain : B.satisfiesChainAxiomAll = true) (ha : a ∈ B.blocks) :
    B.Approves a t ↔ B.Sees a t := by
  refine ⟨Approves.sees, fun h => ⟨h, fun s hs hc hne => ?_⟩⟩
  rcases satisfiesChainAxiomAll_iff.1 hchain s (hs.mem ha) t (h.mem ha) hc hne with hb | hb
  · exact Or.inl hb.sees
  · exact Or.inr hb.sees

namespace CutAt

section Chained

variable (h : B.CutAt c P) (hB : B.satisfiesChainAxiomAll = true)
  (hP : P.satisfiesChainAxiomAll = true)

include h hB hP

/-- **Ratification of what is not strictly below the checkpoint survives.** -/
theorem ratifies_iff (hr : r ∈ P.blocks) (ht : ¬ B.Below t c) :
    P.Ratifies Q r t ↔ B.Ratifies Q r t := by
  have hset : P.approvers r t = B.approvers r t := by
    ext creator
    constructor
    · rintro ⟨x, hx, happ, rfl⟩
      have hxP := hx.mem hr
      refine ⟨x, h.sees_whole hr hx, ?_, rfl⟩
      rw [approves_iff_sees hB (h.mem_whole hxP)]
      exact h.sees_whole hxP happ.sees
    · rintro ⟨x, hx, happ, rfl⟩
      -- a block that sees the target is not strictly below the checkpoint either
      have hxc : ¬ B.Below x c := fun hb => ht (TransGen.trans_left hb happ.sees)
      have hxP := h.mem_of_not_below (hx.mem (h.mem_whole hr)) hxc
      refine ⟨x, (h.sees_iff_of_not_below hr hxc).2 hx, ?_, rfl⟩
      rw [approves_iff_sees hP hxP]
      exact (h.sees_iff_of_not_below hxP ht).2 happ.sees
  unfold Ratifies
  rw [hset]

omit hB hP in
/-- From the round of the checkpoint on, both sides have the same blocks. -/
theorem round_iff_of_le (hc : B.Round c e) (hle : e ≤ d) : P.Round x d ↔ B.Round x d := by
  rw [h.round_iff]
  refine and_iff_right_of_imp fun hx => h.mem_of_not_below hx.mem fun hb => ?_
  have := hx.lt_of_below hc hb
  omega

omit hB hP in
theorem leaderBlock_iff (hc : B.Round c e) (hle : e ≤ k * w) :
    P.LeaderBlock w ls k L ↔ B.LeaderBlock w ls k L := by
  have hround := h.round_iff_of_le (x := L) hc hle
  exact ⟨fun ⟨h₁, h₂, h₃, h₄⟩ => ⟨hround.1 h₁, h₂, h₃, h₄⟩,
    fun ⟨h₁, h₂, h₃, h₄⟩ => ⟨hround.2 h₁, h₂, h₃, h₄⟩⟩

omit hB hP in
theorem uniqueLeader_iff (hc : B.Round c e) (hle : e ≤ k * w) :
    P.UniqueLeader w ls k L ↔ B.UniqueLeader w ls k L := by
  have hlead : ∀ L, P.LeaderBlock w ls k L ↔ B.LeaderBlock w ls k L := fun L =>
    h.leaderBlock_iff hc hle
  exact ⟨fun ⟨h₁, h₂⟩ => ⟨(hlead L).1 h₁, fun L' h' => h₂ L' ((hlead L').2 h')⟩,
    fun ⟨h₁, h₂⟩ => ⟨(hlead L).2 h₁, fun L' h' => h₂ L' ((hlead L').1 h')⟩⟩

/-- **Finality survives from the wave of the checkpoint on.** -/
theorem finalLeader_iff (hc : B.Round c e) (hle : e ≤ k * w) :
    P.FinalLeader Q w ls k L ↔ B.FinalLeader Q w ls k L := by
  have hsuper : B.Round L (k * w) → (P.SuperRatifies Q (P.window w k) L ↔
      B.SuperRatifies Q (B.window w k) L) := by
    intro hL
    have hLc : ¬ B.Below L c := fun hb => by
      have := hL.lt_of_below hc hb
      omega
    have hset : P.ratifiers Q (P.window w k) L = B.ratifiers Q (B.window w k) L := by
      ext creator
      constructor
      · rintro ⟨x, ⟨d, hx, h₁, h₂⟩, hrat, rfl⟩
        have hxB := (h.round_iff_of_le hc (hle.trans h₁)).1 hx
        exact ⟨x, ⟨d, hxB, h₁, h₂⟩, (h.ratifies_iff hB hP hx.mem hLc).1 hrat, rfl⟩
      · rintro ⟨x, ⟨d, hx, h₁, h₂⟩, hrat, rfl⟩
        have hxP := (h.round_iff_of_le hc (hle.trans h₁)).2 hx
        exact ⟨x, ⟨d, hxP, h₁, h₂⟩, (h.ratifies_iff hB hP hxP.mem hLc).2 hrat, rfl⟩
    unfold SuperRatifies
    rw [hset]
  constructor
  · rintro ⟨hL, hlt, hs⟩
    have hL' := (h.leaderBlock_iff hc hle).1 hL
    exact ⟨hL', hlt, (hsuper hL'.round).1 hs⟩
  · rintro ⟨hL, hlt, hs⟩
    exact ⟨(h.leaderBlock_iff hc hle).2 hL, hlt, (hsuper hL.round).2 hs⟩

theorem finalForWave_eq {ladder : Ladder} (hQ : ladder.Decides Q) (hc : B.Round c e)
    (hle : e ≤ k * w) : ladder.finalForWave P k w ls = ladder.finalForWave B k w ls := by
  refine Option.ext fun L => ?_
  rw [Ladder.finalForWave_iff hQ, Ladder.finalForWave_iff hQ, h.uniqueLeader_iff hc hle,
    h.finalLeader_iff hB hP hc hle]

/-- **The fragment of a later block survives** once all that the checkpoint sees
is emitted. -/
theorem emitFragment_eq (hL : P.Round L d)
    (hemitted : ∀ x, B.Sees c x → x.consensusIdentity ∈ ordered) :
    P.emitFragment ordered L = B.emitFragment ordered L := by
  obtain ⟨hLP, hLB⟩ := h.round_iff.1 hL
  have hset : P.freshSet L ordered = B.freshSet L ordered := by
    ext x
    refine and_congr_left fun hfresh => ?_
    rw [mem_approvedSet_iff hL, mem_approvedSet_iff hLB, approves_iff_sees hP hLP,
      approves_iff_sees hB hLB.mem]
    exact h.sees_iff_of_not_below hLP fun hb => hfresh (hemitted x hb.sees)
  refine emitFragment_congr hset fun p _ x hx => ?_
  refine h.refers_iff (freshSet_mem hx) fun hxc => ?_
  subst hxc
  exact hx.2 (hemitted x (.refl B x))

theorem foldlM_emitFragment_eq {leaders : List BlockIdentity}
    (hleaders : ∀ L ∈ leaders, ∃ d, P.Round L d)
    (hemitted : ∀ x, B.Sees c x → x.consensusIdentity ∈ ordered) :
    leaders.foldlM P.emitFragment ordered = leaders.foldlM B.emitFragment ordered := by
  refine foldlM_congr_of_invariant (fun ordered => ∀ x, B.Sees c x → x.consensusIdentity ∈ ordered)
    (fun L hL ordered hord => ?_) (fun L _ ordered next hord hnext x hx => ?_) hemitted
  · obtain ⟨d, hd⟩ := hleaders L hL
    exact h.emitFragment_eq hB hP hd hord
  · exact (prefix_emitFragment hnext).subset (hord x hx)

end Chained

end CutAt

end Blocklace

/-! ### The walk from a later leader -/

namespace Ladder

open Blocklace

variable {ladder : Ladder} {Q : Quorum.Rule NodeId} {B P : Blocklace} {w k k₀ d e : ℕ}
  {ls : LeaderSelection} {c L M : BlockIdentity} {base leaders stored : List BlockIdentity}

/-- Every final leader of a wave after `k₀` ratifies a final leader of an earlier
wave that is not before `k₀`. -/
def DescendsTo (ladder : Ladder) (Q : Quorum.Rule NodeId) (B : Blocklace) (w : ℕ)
    (ls : LeaderSelection) (k₀ : ℕ) : Prop :=
  ∀ k L, ladder.finalForWave B k w ls = some L → k₀ < k →
    ∃ j M, k₀ ≤ j ∧ j < k ∧ ladder.finalForWave B j w ls = some M ∧ B.Ratifies Q L M

/-- Without a checkpoint a chain emits its own leader. -/
theorem Chain.mem_leaders (hcp : B.checkpoint = none) (h : ladder.Chain B w ls L base leaders) :
    L ∈ leaders := by
  cases h with
  | checkpoint he =>
      rw [emitCheckpointPrefix_none hcp] at he
      exact absurd he (by simp)
  | first => simp
  | next => simp

section Cut

variable (hQ : ladder.Decides Q) (hcut : B.CutAt c P) (hB : B.satisfiesChainAxiomAll = true)
  (hP : P.satisfiesChainAxiomAll = true) (hc : ladder.finalForWave B k₀ w ls = some c)

include hQ hcut hB hP hc

/-- **The pruned walk takes the step of the whole one.** -/
theorem exists_previous_of_cut (hdesc : ladder.DescendsTo Q B w ls k₀)
    (hL : ladder.finalForWave B k w ls = some L) (hlt : k₀ < k) :
    ∃ j M, k₀ ≤ j ∧ j < k ∧ ladder.finalForWave B j w ls = some M ∧
      ladder.previous B L w ls = some M ∧ ladder.previous P L w ls = some M := by
  obtain ⟨huc, -⟩ := (finalForWave_iff hQ).1 hc
  obtain ⟨huL, -⟩ := (finalForWave_iff hQ).1 hL
  have hw := huc.pos
  have hdiv : k * w / w = k := Nat.mul_div_cancel _ hw
  have hle : ∀ {j}, k₀ ≤ j → k₀ * w ≤ j * w := fun hj => Nat.mul_le_mul_right w hj
  have hLP : P.Round L (k * w) := (hcut.round_iff_of_le huc.round (hle hlt.le)).2 huL.round
  have hnot : ∀ {j M}, k₀ ≤ j → ladder.finalForWave B j w ls = some M → ¬ B.Below M c := by
    intro j M hj hM hb
    have := ((finalForWave_iff hQ).1 hM).1.round.lt_of_below huc.round hb
    have := hle hj
    omega
  have hfinal : ∀ {j M}, k₀ ≤ j → (ladder.finalForWave P j w ls = some M ↔
      ladder.finalForWave B j w ls = some M) := by
    intro j M hj
    rw [hcut.finalForWave_eq hB hP hQ huc.round (hle hj)]
  -- the newest wave of the whole walk
  obtain ⟨i, N, hi, hik, hN, hrat⟩ := hdesc k L hL hlt
  obtain ⟨M, hM⟩ := exists_previous hQ huL.round hw (by rw [hdiv]; exact hik)
    ((previousAt_iff_of_no_checkpoint hcut.whole).2 ⟨hN, hrat⟩)
  obtain ⟨-, j, hj, hMat, hlater⟩ := (previous_iff hQ huL.round).1 hM
  rw [hdiv] at hj hlater
  obtain ⟨hMj, hratM⟩ := (previousAt_iff_of_no_checkpoint hcut.whole).1 hMat
  have hij : i ≤ j := by
    by_contra hji
    exact hlater i hik (by omega) N ((previousAt_iff_of_no_checkpoint hcut.whole).2 ⟨hN, hrat⟩)
  have hk₀j : k₀ ≤ j := hi.trans hij
  refine ⟨j, M, hk₀j, hj, hMj, hM, ?_⟩
  -- the floor of the pruned walk, where it has one, is the checkpoint in its wave
  have hfloor : ∀ {c' k'}, checkpointFloor P L w ls = some (c', k') → c' = c ∧ k' = k₀ := by
    intro c' k' hf
    obtain ⟨hcp, -, -, hu⟩ := checkpointFloor_eq_some.1 hf
    rw [hcut.checkpoint] at hcp
    obtain rfl := Option.some.inj hcp
    have hu' := (hcut.uniqueLeader_iff huc.round le_rfl).2 huc
    exact ⟨rfl, hu.toLeaderBlock.wave_eq hu'.toLeaderBlock⟩
  refine (previous_iff hQ hLP).2 ⟨hw, j, by rw [hdiv]; exact hj, ?_, ?_⟩
  · by_cases hjk : j = k₀
    · subst hjk
      obtain rfl := Option.some.inj (hc.symm.trans hMj)
      refine Or.inl ⟨j, checkpointFloor_eq_some.2 ⟨hcut.checkpoint, ?_, ?_, ?_⟩, le_rfl⟩
      · rintro rfl
        have := huc.toLeaderBlock.wave_eq huL.toLeaderBlock
        omega
      · rw [precedes_of_mem hcut.mem]
        have hsees := (hcut.sees_iff_of_not_below hLP.mem (hnot le_rfl hc)).2 hratM.sees
        refine (sees_iff_eq_or_below.1 hsees).resolve_left ?_
        rintro rfl
        have := huc.toLeaderBlock.wave_eq huL.toLeaderBlock
        omega
      · exact (hcut.uniqueLeader_iff huc.round le_rfl).2 huc
    · refine Or.inr ⟨fun c' k' hf => ?_, (hfinal hk₀j).2 hMj,
        (hcut.ratifies_iff hB hP hLP.mem (hnot hk₀j hMj)).2 hratM⟩
      have := (hfloor hf).2
      omega
  · intro j' hj' hgt M' hM'
    rw [hdiv] at hj'
    rcases hM' with ⟨k', hf, hle'⟩ | ⟨-, hfin, hr⟩
    · have := (hfloor hf).2
      omega
    · have hM'' := (hfinal (by omega)).1 hfin
      refine hlater j' hj' hgt M' ((previousAt_iff_of_no_checkpoint hcut.whole).2 ⟨hM'', ?_⟩)
      exact (hcut.ratifies_iff hB hP hLP.mem (hnot (by omega) hM'')).1 hr

/-- The two walks meet the same leaders, down to the checkpoint. -/
theorem exists_chain_of_cut (hdesc : ladder.DescendsTo Q B w ls k₀)
    (hcB : ladder.Chain B w ls c base leaders)
    (hcP : ladder.emitCheckpointPrefix P c [] = some stored)
    (hL : ladder.finalForWave B k w ls = some L) (hle : k₀ ≤ k) :
    ∃ later, ladder.Chain B w ls L base (leaders ++ later) ∧
      ladder.Chain P w ls L stored later ∧ ∀ M ∈ later, ∃ d, P.Round M d := by
  induction k using Nat.strong_induction_on generalizing L with
  | _ k ih =>
      by_cases hk : k = k₀
      · subst hk
        obtain rfl := Option.some.inj (hc.symm.trans hL)
        exact ⟨[], by rwa [List.append_nil], .checkpoint hcP, by simp⟩
      · obtain ⟨j, M, hj, hjk, hM, hpB, hpP⟩ := exists_previous_of_cut hQ hcut hB hP hc hdesc hL
          (show k₀ < k by omega)
        obtain ⟨later, hchB, hchP, hround⟩ := ih j hjk hM hj
        obtain ⟨huc, -⟩ := (finalForWave_iff hQ).1 hc
        obtain ⟨huL, -⟩ := (finalForWave_iff hQ).1 hL
        have hLP : P.Round L (k * w) :=
          (hcut.round_iff_of_le huc.round (Nat.mul_le_mul_right w hle)).2 huL.round
        have hLc : P.checkpoint ≠ some L := by
          rw [hcut.checkpoint]
          rintro hcL
          obtain rfl := Option.some.inj hcL
          exact hk (huL.toLeaderBlock.wave_eq huc.toLeaderBlock)
        refine ⟨later ++ [L], ?_, .next ?_ hpP hchP, fun N hN => ?_⟩
        · rw [← List.append_assoc]
          exact .next (emitCheckpointPrefix_none hcut.whole _ _) hpB hchB
        · unfold emitCheckpointPrefix
          rw [if_pos (Or.inl hLc)]
        · rcases List.mem_append.1 hN with hN | hN
          · exact hround N hN
          · exact ⟨k * w, List.mem_singleton.1 hN ▸ hLP⟩

/-- **Both sides anchor at the same leader**, in the wave of the checkpoint or later. -/
theorem exists_latest_of_cut :
    ∃ k L, k₀ ≤ k ∧ ladder.finalForWave B k w ls = some L ∧ ladder.latest B w ls = some L ∧
      ladder.latest P w ls = some L := by
  obtain ⟨huc, -⟩ := (finalForWave_iff hQ).1 hc
  have hle : ∀ {j}, k₀ ≤ j → k₀ * w ≤ j * w := fun hj => Nat.mul_le_mul_right w hj
  obtain ⟨L, hL⟩ := exists_latest hQ ((scanLeader_iff_finalForWave hQ hcut.whole).2 hc)
  obtain ⟨k, hLk, hlater⟩ := (latest_iff_finalForWave hQ hcut.whole).1 hL
  have hk : k₀ ≤ k := by
    by_contra hlt
    have hnone := hlater k₀ (by omega)
    rw [hc] at hnone
    exact absurd hnone (by simp)
  obtain ⟨huL, hfL⟩ := (finalForWave_iff hQ).1 hLk
  refine ⟨k, L, hk, hLk, hL, (latest_iff hQ).2 ⟨k, ⟨?_, Or.inr ?_⟩, ?_⟩⟩
  · exact (hcut.uniqueLeader_iff huc.round (hle hk)).2 huL
  · exact (hcut.finalLeader_iff hB hP huc.round (hle hk)).2 hfL
  · rintro k' L' hgt ⟨hu, hacc⟩
    have hu' := (hcut.uniqueLeader_iff huc.round (hle (by omega))).1 hu
    rcases hacc with hcp | hf
    · rw [hcut.checkpoint] at hcp
      obtain rfl := Option.some.inj hcp
      have := hu'.toLeaderBlock.wave_eq huc.toLeaderBlock
      omega
    · have hf' := (hcut.finalLeader_iff hB hP huc.round (hle (by omega))).1 hf
      have hnone := hlater k' hgt
      rw [(finalForWave_iff hQ).2 ⟨hu', hf'⟩] at hnone
      exact absurd hnone (by simp)

omit hP in
/-- The output of a leader of the whole: each block once, unsigned, and all that
the leader sees. -/
theorem tauAtLeader_emission {out : List BlockIdentity}
    (hout : ladder.tauAtLeader B c w ls = .ok out) :
    out.Nodup ∧ (∀ y ∈ out, y.consensusIdentity = y) ∧
      ∀ x, B.Sees c x → x.consensusIdentity ∈ out := by
  obtain ⟨huc, -⟩ := (finalForWave_iff hQ).1 hc
  obtain ⟨base, leaders, hch⟩ := exists_chain hQ w ls huc.round
  obtain rfl := hch.base_eq hcut.whole
  rw [tauAtLeader_eq hQ huc.round hch] at hout
  obtain ⟨hemit, -⟩ := Emission.foldlM hcut.whole (fun M hM => by
      obtain ⟨e, -, he⟩ := huc.round.of_sees (hch.sees hQ huc.round hM)
      exact ⟨e, he⟩)
    (by simpa using hch.pairwise_sees hQ huc.round) B.emission_nil hout
  rw [List.nil_append] at hemit
  have hmem : c ∈ leaders := hch.mem_leaders hcut.whole
  refine ⟨hemit.nodup, fun y hy => ?_, fun x hx => hemit.all c hmem x ?_⟩
  · obtain ⟨x, -, rfl, -⟩ := hemit.approved y hy
    exact BlockIdentity.consensusIdentity_idem x
  · rwa [approves_iff_sees hB huc.round.mem]

/-- **The output survives the cut** when the stored prefix is the output of the
checkpoint and the walk of the whole leads to it. -/
theorem tau_eq_of_cut (hdesc : ladder.DescendsTo Q B w ls k₀)
    (hout : ladder.tauAtLeader B c w ls = .ok stored) (hstored : ladder.orderPrefix P = stored) :
    ladder.tau P w ls = ladder.tau B w ls := by
  obtain ⟨huc, -⟩ := (finalForWave_iff hQ).1 hc
  obtain ⟨hnodup, hunsigned, hall⟩ := tauAtLeader_emission hQ hcut hB hc hout
  have hne : stored ≠ [] := List.ne_nil_of_mem (hall c (.refl B c))
  have hprefix : ladder.emitCheckpointPrefix P c [] = some stored := by
    unfold emitCheckpointPrefix
    rw [if_neg (by simp [hcut.checkpoint, hstored, hne]), hstored,
      List.map_congr_left hunsigned, List.map_id', emitAll_eq hnodup]
    simp
  obtain ⟨k, L, hk, hLk, hlB, hlP⟩ := exists_latest_of_cut hQ hcut hB hP hc
  obtain ⟨base, leaders, hch⟩ := exists_chain hQ w ls huc.round
  obtain ⟨later, hchB, hchP, hround⟩ := exists_chain_of_cut hQ hcut hB hP hc hdesc hch hprefix hLk hk
  obtain ⟨huL, -⟩ := (finalForWave_iff hQ).1 hLk
  have hLP : P.Round L (k * w) :=
    (hcut.round_iff_of_le huc.round (Nat.mul_le_mul_right w hk)).2 huL.round
  rw [tauAtLeader_eq hQ huc.round hch] at hout
  unfold tau
  rw [hlB, hlP]
  calc ladder.tauAtLeader P L w ls
      = later.foldlM P.emitFragment stored := tauAtLeader_eq hQ hLP hchP
    _ = later.foldlM B.emitFragment stored := hcut.foldlM_emitFragment_eq hB hP hround hall
    _ = (leaders ++ later).foldlM B.emitFragment base := by
        rw [List.foldlM_append, hout]
        rfl
    _ = ladder.tauAtLeader B L w ls := (tauAtLeader_eq hQ huL.round hchB).symm

end Cut

end Ladder

/-! ### Growing both sides -/

namespace Blocklace

variable {B B' P P' : Blocklace} {c : BlockIdentity} {allowed : Blocklace → Block → Prop}

/-- The same blocks are inserted one after another on both sides, each allowed
in the blocklace it is inserted into on the left. -/
inductive TwinRun (allowed : Blocklace → Block → Prop) (B P : Blocklace) :
    Blocklace → Blocklace → Prop
  | refl : TwinRun allowed B P B P
  | insert {B₁ P₁ B₂ P₂ : Blocklace} {block : Block} {verifier verifier' : CryptoVerifier}
      (run : TwinRun allowed B P B₁ P₁) (ok : allowed B₁ block)
      (hB : B₁.insert block verifier = .ok B₂) (hP : P₁.insert block verifier' = .ok P₂) :
      TwinRun allowed B P B₂ P₂

namespace TwinRun

theorem insertRun (h : TwinRun allowed B P B' P') : InsertRun allowed B B' := by
  induction h with
  | refl => exact .refl B
  | insert _ ok hB _ ih => exact .insert ih ok hB

theorem orderPrefix (h : TwinRun allowed B P B' P') :
    P'.checkpointOrderPrefix = P.checkpointOrderPrefix := by
  induction h with
  | refl => rfl
  | insert _ _ _ hP ih => rw [(insert_ok hP).orderPrefix, ih]

/-- **A cut stays a cut.** -/
theorem cutAt (h : TwinRun KeepsReferences B P B' P') (hcut : B.CutAt c P) : B'.CutAt c P' := by
  induction h with
  | refl => exact hcut
  | insert _ hk hB hP ih => exact ih.insert (insert_ok hB) (insert_ok hP) hk

end TwinRun

/-- **Pruning is transparent to the output** along every run of inserts that keep
references, as long as both sides satisfy the chain axiom, no wave before the
checkpoint becomes final late, and every later final leader ratifies the
checkpoint or a final leader after it. -/
theorem tau_transparent {wavelength n f : ℕ} {leaderSelection : LeaderSelection}
    {report : PruneReport} (hcp : B.checkpoint = none) (hclosed : B.isClosed = true)
    (hprune : B.checkpointAfterFinality wavelength n f leaderSelection = .ok (some (report, P)))
    (hrun : TwinRun KeepsReferences B P B' P')
    (hchain : B'.satisfiesChainAxiomAll = true) (hchainP : P'.satisfiesChainAxiomAll = true)
    (hlate : (countLadder n f).NoLateFinality B B' wavelength leaderSelection)
    (hdesc : ∀ A round, B.latestFinalLeader wavelength n f leaderSelection = some A →
      B.depth A = some round → (countLadder n f).DescendsTo (Quorum.count ((n + f) / 2)) B'
        wavelength leaderSelection (round / wavelength)) :
    P'.tau wavelength n f leaderSelection = B'.tau wavelength n f leaderSelection := by
  have hQ := countLadder_decides n f
  obtain ⟨c, orderPrefix, hlatest, hprefix, hpr⟩ := checkpointAfterFinality_ok hprune
  rcases pruneBelowCheckpointWithPrefix_ok hpr with ⟨hcp', -⟩ | ⟨hpruned, hstored, -, -⟩
  · simp [hcp] at hcp'
  have hext := hrun.insertRun.extends
  have hcp' : B'.checkpoint = none := hrun.insertRun.checkpoint.trans hcp
  have hcut := hrun.cutAt (hpruned.cutAt hcp hclosed)
  obtain ⟨k₀, hc, -⟩ := (Ladder.latest_iff_finalForWave hQ hcp).1 hlatest
  obtain ⟨hu, hfinal⟩ := (Ladder.finalForWave_iff hQ).1 hc
  have hdiv : k₀ * wavelength / wavelength = k₀ := Nat.mul_div_cancel _ hu.pos
  have hagree := hlate.agree hQ hext hcp hcp' hchain hlatest hu.round
  -- the stored prefix is the output of the checkpoint
  obtain ⟨out, hout⟩ := Ladder.exists_tau hQ hcp wavelength leaderSelection
  obtain rfl := hprefix out hout
  have hout' : (countLadder n f).tauAtLeader B' c wavelength leaderSelection = .ok orderPrefix := by
    rw [Ladder.tauAtLeader_eq_of_agree hQ hext hcp hcp' hu.round hagree]
    rwa [Ladder.tau, show (countLadder n f).latest B wavelength leaderSelection = some c from hlatest]
      at hout
  have hdesc' := hdesc c _ hlatest hu.round.depth
  rw [hdiv] at hdesc'
  exact Ladder.tau_eq_of_cut hQ hcut hchain hchainP
    (Ladder.finalForWave_of_extends hQ hext hcp hcp' hchain hc) hdesc' hout'
    (hrun.orderPrefix.trans hstored)

/-- `B` after a checkpoint at its latest final leader, `B` itself if there is none. -/
def checkpointTo (B : Blocklace) (wavelength n f : ℕ) (leaderSelection : LeaderSelection) :
    Blocklace :=
  match B.checkpointAfterFinality wavelength n f leaderSelection with
  | .ok (some (_, P)) => P
  | _ => B

theorem checkpointAfterFinality_checkpointTo {w n f : ℕ} {ls : LeaderSelection}
    (hcp : B.checkpoint = none) (h : (B.checkpointTo w n f ls).checkpoint.isSome = true) :
    ∃ report, B.checkpointAfterFinality w n f ls =
      .ok (some (report, B.checkpointTo w n f ls)) := by
  unfold checkpointTo at h ⊢
  rcases hr : B.checkpointAfterFinality w n f ls with e | _ | ⟨report, P⟩
  · simp [hr, hcp] at h
  · simp [hr, hcp] at h
  · exact ⟨report, rfl⟩

theorem TwinRun.insertAll {B₁ P₁ B₂ P₂ : Blocklace} {blocks : List Block}
    (run : TwinRun AnyBlock B P B₁ P₁) (hB : B₁.insertAll blocks = .ok B₂)
    (hP : P₁.insertAll blocks = .ok P₂) : TwinRun AnyBlock B P B₂ P₂ := by
  have hcons : ∀ {B₁ B₂ : Blocklace} {block blocks}, B₁.insertAll (block :: blocks) = .ok B₂ →
      ∃ B', B₁.insert block alreadyValidated = .ok B' ∧ B'.insertAll blocks = .ok B₂ := by
    intro B₁ B₂ block blocks h
    unfold Blocklace.insertAll at h
    rw [List.foldlM_cons] at h
    cases hins : B₁.insert block alreadyValidated with
    | error e => simp [hins, bind, Except.bind] at h
    | ok B' =>
        rw [hins] at h
        exact ⟨B', rfl, h⟩
  induction blocks generalizing B₁ P₁ with
  | nil =>
      obtain rfl := Except.ok.inj hB
      obtain rfl := Except.ok.inj hP
      exact run
  | cons block blocks ih =>
      obtain ⟨B', hB', hB⟩ := hcons hB
      obtain ⟨P', hP', hP⟩ := hcons hP
      exact ih (.insert run trivial hB' hP') hB hP

/-- The blocks of `start` are inserted, the blocklace is pruned at its latest
final leader, and after the blocks of `later` on both sides the outputs differ. -/
def OutputsDiffer (wavelength n f : ℕ) (leaderSelection : LeaderSelection)
    (start later : List Block) : Prop :=
  ∃ B P B' P' report, InsertRun AnyBlock (new 0) B ∧
    (new 0).insertAll start = .ok B ∧ B.checkpoint = none ∧ B.isClosed = true ∧
    B.satisfiesChainAxiomAll = true ∧
    B.checkpointAfterFinality wavelength n f leaderSelection = .ok (some (report, P)) ∧
    TwinRun AnyBlock B P B' P' ∧ B.insertAll later = .ok B' ∧ P.insertAll later = .ok P' ∧
    B'.satisfiesChainAxiomAll = true ∧
    P'.tau wavelength n f leaderSelection ≠ B'.tau wavelength n f leaderSelection

theorem outputsDiffer_of {w n f : ℕ} {ls : LeaderSelection} {start later : List Block}
    (hstart : ((new 0).insertAll start).isOk = true)
    (hB : B = (new 0).growBy start) (hP : P = B.checkpointTo w n f ls)
    (hclosed : B.isClosed = true) (hchain : B.satisfiesChainAxiomAll = true)
    (hcheckpoint : P.checkpoint.isSome = true) (hlaterB : (B.insertAll later).isOk = true)
    (hlaterP : (P.insertAll later).isOk = true)
    (hchain' : (B.growBy later).satisfiesChainAxiomAll = true)
    (hne : (P.growBy later).tau w n f ls ≠ (B.growBy later).tau w n f ls) :
    OutputsDiffer w n f ls start later := by
  subst hB hP
  have hrun := insertRun_growBy hstart
  obtain ⟨report, hprune⟩ := checkpointAfterFinality_checkpointTo hrun.checkpoint hcheckpoint
  exact ⟨_, _, _, _, report, hrun, insertAll_growBy hstart, hrun.checkpoint, hclosed, hchain, hprune,
    .insertAll .refl (insertAll_growBy hlaterB) (insertAll_growBy hlaterP), insertAll_growBy hlaterB,
    insertAll_growBy hlaterP, hchain', hne⟩

/-- Creator `1` leads the waves `1` and `3`. -/
def oddWaves : LeaderSelection := fun wave => if wave = 1 ∨ wave = 3 then some ⟨[1]⟩ else none

/-- Creator `2` leads wave `0`, creator `1` the waves `1` and `2`. -/
def mixedLeaders : LeaderSelection := fun wave =>
  if wave = 0 then some ⟨[2]⟩ else if wave ≤ 2 then some ⟨[1]⟩ else none

/-- A genesis block of creator `2` that creator `3` refers to as well. -/
def sharedGenesis : List Block :=
  [sampleBlock (sampleId 1 1) [], sampleBlock (sampleId 2 2) [],
    sampleBlock (sampleId 3 1) [sampleId 1 1, sampleId 2 2],
    sampleBlock (sampleId 4 3) [sampleId 2 2]]

/-- Creator `1` leads wave `1` with block `4`, which creators `2` and `4`
ratify; the leader block `2` of wave `0` has one ratifier. -/
def finalSecondWave : List Block :=
  [sampleBlock (sampleId 1 5) [], sampleBlock (sampleId 2 2) [],
    sampleBlock (sampleId 3 1) [sampleId 1 5, sampleId 2 2],
    sampleBlock (sampleId 4 1) [sampleId 3 1],
    sampleBlock (sampleId 5 2) [sampleId 4 1, sampleId 2 2],
    sampleBlock (sampleId 6 4) [sampleId 4 1]]

/-- The blocklace of these blocks. -/
def secondWave : Blocklace := (new 0).growBy finalSecondWave

/-- One more block of creator `4`. -/
def topBlock : Block := sampleBlock (sampleId 7 4) [sampleId 6 4]

/-- The hypotheses of `tau_transparent` are met by one more block on top. -/
theorem tau_transparent_one_block :
    ((secondWave.checkpointTo 2 3 0 mixedLeaders).growBy [topBlock]).tau 2 3 0 mixedLeaders =
      (secondWave.growBy [topBlock]).tau 2 3 0 mixedLeaders := by
  obtain ⟨report, hprune⟩ := checkpointAfterFinality_checkpointTo (B := secondWave) (by decide +kernel)
    (by decide +kernel : (secondWave.checkpointTo 2 3 0 mixedLeaders).checkpoint.isSome = true)
  have hlatest : secondWave.latestFinalLeader 2 3 0 mixedLeaders = some (sampleId 4 1) := by
    decide +kernel
  have hdepth : secondWave.depth (sampleId 4 1) = some 2 := by decide +kernel
  have hrun : TwinRun KeepsReferences secondWave (secondWave.checkpointTo 2 3 0 mixedLeaders)
      (secondWave.growBy [topBlock])
      ((secondWave.checkpointTo 2 3 0 mixedLeaders).growBy [topBlock]) :=
    .insert .refl (fun c hc => absurd (mem_of_lookup hc) (by decide +kernel))
      (insert_growBy topBlock (by decide +kernel)) (insert_growBy topBlock (by decide +kernel))
  refine tau_transparent (by decide +kernel) (by decide +kernel) hprune hrun (by decide +kernel)
    (by decide +kernel) ?_ ?_
  · intro A round hA hround wave hlt hsome
    obtain rfl := Option.some.inj (hlatest.symm.trans hA)
    obtain rfl := Option.some.inj (hdepth.symm.trans hround)
    obtain rfl : wave = 0 := by omega
    exact absurd hsome (by decide +kernel)
  · -- no later wave has a leader block yet
    intro A round hA hround k L hL hlt
    obtain rfl := Option.some.inj (hlatest.symm.trans hA)
    obtain rfl := Option.some.inj (hdepth.symm.trans hround)
    obtain ⟨hu, -⟩ := (Ladder.finalForWave_iff (countLadder_decides 3 0)).1 hL
    have hall : ∀ x ∈ (secondWave.growBy [topBlock]).dom,
        ((secondWave.growBy [topBlock]).depth x).getD 0 ≤ 4 ∧
        ((secondWave.growBy [topBlock]).depth x = some 4 → x.creator ≠ ⟨[1]⟩) := by decide +kernel
    obtain ⟨hle, hcreator⟩ := hall L (AList.mem_keys.1 hu.round.mem)
    rw [hu.round.depth, Option.getD_some] at hle
    obtain rfl : k = 2 := by omega
    have hlead : mixedLeaders 2 = some ⟨[1]⟩ := by decide +kernel
    exact absurd (Option.some.inj (hu.creator.symm.trans hlead)) (hcreator hu.round.depth)

/-- Pruning changes the output.  A block of creator `2` on the checkpoint does
not see its protected genesis block any more, and a leader that sees both leaves
it out; a block that arrives late makes the leader of wave `0` final, in the
whole only; a later leader does not ratify the checkpoint, and the pruned walk
stops there all the same; a block that is delivered again with other references
moves the checkpoint to another round, in the whole only. -/
theorem output_changed_by_prune :
    OutputsDiffer 1 1 0 oddWaves sharedGenesis
      [sampleBlock (sampleId 5 2) [sampleId 3 1],
        sampleBlock (sampleId 6 1) [sampleId 5 2, sampleId 4 3]] ∧
    OutputsDiffer 2 3 0 mixedLeaders finalSecondWave
      [sampleBlock (sampleId 7 3) [sampleId 2 2]] ∧
    OutputsDiffer 2 3 0 mixedLeaders finalSecondWave
      [sampleBlock (sampleId 0 7) [],
        sampleBlock (sampleId 7 1) [sampleId 4 1, sampleId 0 7],
        sampleBlock (sampleId 8 1) [sampleId 7 1],
        sampleBlock (sampleId 9 2) [sampleId 8 1, sampleId 5 2],
        sampleBlock (sampleId 10 4) [sampleId 8 1, sampleId 6 4]] ∧
    OutputsDiffer 2 3 0 mixedLeaders finalSecondWave [sampleBlock (sampleId 3 1) []] := by
  refine ⟨outputsDiffer_of ?_ rfl rfl ?_ ?_ ?_ ?_ ?_ ?_ ?_,
    outputsDiffer_of ?_ rfl rfl ?_ ?_ ?_ ?_ ?_ ?_ ?_, outputsDiffer_of ?_ rfl rfl ?_ ?_ ?_ ?_ ?_ ?_ ?_,
    outputsDiffer_of ?_ rfl rfl ?_ ?_ ?_ ?_ ?_ ?_ ?_⟩ <;> decide +kernel

end Blocklace

end CordialMiners
