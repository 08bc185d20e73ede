/-
# Direct references in the output

A block is output after the blocks it references itself, also where the output is
not causal.

The sort of a fragment follows the references between approved blocks, and what an
output block references is output with it or before it, if its leader approves it
(`Emission.pairwise_direct`).  So nothing has to be assumed of the chain of leaders
(`tau_respects_references`): causal order is lost along longer paths only.  The inserts
keep the references of stored blocks, without which the source need not return.
-/

import CordialMiners.Ordering.Causality

namespace CordialMiners

open FinGraph Relation
open Codec (bind_eq_ok)

namespace Blocklace

variable {B : Blocklace} {L x : BlockIdentity} {d : ℕ} {earlier out out' : List BlockIdentity}

/-- `y` is output of a block that references the block of `z`. -/
def PointsAt (B : Blocklace) (y z : BlockIdentity) : Prop :=
  ∃ u ∈ B.blocks, ∃ v ∈ B.expand u, u.consensusIdentity = y ∧ v.consensusIdentity = z

/-- **A fragment keeps the output in the order of direct references.** -/
theorem Emission.pairwise_direct (h : B.Emission earlier out) (hcp : B.checkpoint = none)
    (hL : B.Round L d) (hsees : ∀ M ∈ earlier, B.Sees L M)
    (hpair : out.Pairwise fun y z => ¬ B.PointsAt y z)
    (hout : B.emitFragment out L = .ok out') : out'.Pairwise fun y z => ¬ B.PointsAt y z := by
  obtain ⟨l, hl, -, rfl⟩ := emitFragment_eq_ok.1 hout
  have hstored : ∀ {y}, y ∈ l → y ∈ B.blocks := fun hy => freshSet_mem (hl.mem hy)
  have happ : ∀ {y}, y ∈ l → B.Approves L y := fun hy => (mem_approvedSet_iff hL).1 (hl.mem hy).1
  have hsame : ∀ {u v : BlockIdentity}, u ∈ B.blocks → v ∈ B.blocks →
      u.consensusIdentity = v.consensusIdentity → u = v :=
    fun hu hv => eq_of_consensusIdentity_eq hu hv
  refine List.pairwise_append.2 ⟨hpair, List.pairwise_map.2 ?_, ?_⟩
  · -- inside the fragment the sort puts a reference first
    refine List.pairwise_iff_getElem.2 fun i j hi hj hij => ?_
    have hyi := List.getElem_mem hi
    have hzj := List.getElem_mem hj
    rintro ⟨u, hu, v, huv, huy, hvz⟩
    obtain rfl := hsame hu (hstored hyi) huy
    obtain rfl := hsame (mem_of_mem_expand huv) (hstored hzj) hvz
    have hlt := Greedy.idxOf_lt hl (hl.mem hzj) hyi
      ((refers_iff_mem_expand (by simp [hcp]) (hstored hyi)).2 huv)
    rw [(Greedy.nodup hl).idxOf_getElem, (Greedy.nodup hl).idxOf_getElem] at hlt
    exact absurd hlt (not_lt.2 hij.le)
  · -- what an earlier block references was output with it or before it
    intro y hy z hz
    obtain ⟨v, hv, rfl⟩ := List.mem_map.1 hz
    obtain ⟨u, hu, rfl, M, hM, hMu⟩ := h.approved y hy
    rintro ⟨u', hu', v', huv, huy, hvz⟩
    obtain rfl := hsame hu' hu huy
    obtain rfl := hsame (mem_of_mem_expand huv) (hstored hv) hvz
    have hMv : B.Sees M v' := hMu.sees.trans (ReflTransGen.single huv)
    exact (hl.mem hv).2 (h.all M hM v' ((happ hv).of_sees (hsees M hM) hMv))

/-- Emitting leaders, each of which sees those before it. -/
theorem Emission.foldlM_direct (hcp : B.checkpoint = none) {leaders : List BlockIdentity}
    (hround : ∀ L ∈ leaders, ∃ d, B.Round L d)
    (hsees : (earlier ++ leaders).Pairwise fun M L => B.Sees L M)
    (h : B.Emission earlier out) (hpair : out.Pairwise fun y z => ¬ B.PointsAt y z)
    (hout : leaders.foldlM B.emitFragment out = .ok out') :
    B.Emission (earlier ++ leaders) out' ∧ out'.Pairwise fun y z => ¬ B.PointsAt y z := by
  induction leaders generalizing earlier out with
  | nil =>
      obtain rfl := Except.ok.inj hout
      exact ⟨by rwa [List.append_nil], hpair⟩
  | cons L leaders ih =>
      rw [List.foldlM_cons] at hout
      obtain ⟨next, hnext, hout⟩ := bind_eq_ok.1 hout
      obtain ⟨d, hL⟩ := hround L List.mem_cons_self
      rw [List.append_cons] at hsees ⊢
      have hbefore : ∀ M ∈ earlier, B.Sees L M := fun M hM =>
        (List.pairwise_append.1 (List.pairwise_append.1 hsees).1).2.2 M hM L
          (List.mem_singleton_self L)
      exact ih (fun x hx => hround x (List.mem_cons_of_mem _ hx)) hsees (h.emitFragment hL hnext)
        (h.pairwise_direct hcp hL hbefore hpair hnext) hout

end Blocklace

namespace Ladder

open Blocklace

variable {ladder : Ladder} {Q : Quorum.Rule NodeId} {B : Blocklace}

/-- **The output lists stored blocks, each once and after what it references.** -/
theorem tau_direct (hQ : ladder.Decides Q) (hcp : B.checkpoint = none) (w : ℕ)
    (ls : LeaderSelection) :
    ∃ out, ladder.tau B w ls = .ok out ∧ out.Nodup ∧
      (∀ y ∈ out, ∃ x ∈ B.blocks, x.consensusIdentity = y) ∧
      out.Pairwise fun y z => ¬ B.PointsAt y z := by
  unfold tau
  cases hL : ladder.latest B w ls with
  | none => exact ⟨[], rfl, List.nodup_nil, by simp, List.Pairwise.nil⟩
  | some L =>
      obtain ⟨wave, hscan, -⟩ := (latest_iff hQ).1 hL
      obtain ⟨base, leaders, hc⟩ := exists_chain hQ w ls hscan.round
      obtain rfl := hc.base_eq hcp
      have hround : ∀ M ∈ leaders, ∃ d, B.Round M d := by
        intro M hM
        obtain ⟨e, -, he⟩ := hscan.round.of_sees (hc.sees hQ hscan.round hM)
        exact ⟨e, he⟩
      obtain ⟨out, hout⟩ := exists_foldlM_emitFragment hcp hround []
      obtain ⟨hemit, hpair⟩ := Emission.foldlM_direct hcp hround
        (by simpa using hc.pairwise_sees hQ hscan.round) B.emission_nil List.Pairwise.nil hout
      refine ⟨out, by simp only; rw [tauAtLeader_eq hQ hscan.round hc, hout], hemit.nodup,
        fun y hy => ?_, hpair⟩
      obtain ⟨x, hx, hxy, -⟩ := hemit.approved y hy
      exact ⟨x, hx, hxy⟩

end Ladder

namespace Blocklace

variable {B : Blocklace}

/-- **No block is output before a block it references**, whoever equivocates.  As long as
no insert replaces the references of a stored block, references close no cycle: every
block has a depth, and both forms of `tau` return. -/
theorem tau_respects_references {token : ℕ} (hrun : InsertRun KeepsReferences (.new token) B)
    (wavelength n f : ℕ) (bonds : Bonds) (leaderSelection : LeaderSelection) :
    (∀ a ∈ B.blocks, ∃ d, B.depth a = some d) ∧
    (∃ out, B.tau wavelength n f leaderSelection = .ok out ∧ out.Nodup ∧
      (∀ y ∈ out, ∃ x ∈ B.blocks, x.consensusIdentity = y) ∧
      out.Pairwise fun y z => ¬ B.PointsAt y z) ∧
    (∃ out, B.weightedTau wavelength bonds leaderSelection = .ok out ∧ out.Nodup ∧
      (∀ y ∈ out, ∃ x ∈ B.blocks, x.consensusIdentity = y) ∧
      out.Pairwise fun y z => ¬ B.PointsAt y z) := by
  have hcp : B.checkpoint = none := hrun.checkpoint
  refine ⟨fun a ha => ?_, ?_⟩
  · obtain ⟨d, hd⟩ := hrun.layered rfl (layered_new token) a ha
    exact ⟨d, hd.depth⟩
  exact ⟨Ladder.tau_direct (countLadder_decides n f) hcp wavelength leaderSelection,
    Ladder.tau_direct (stakeLadder_decides bonds) hcp wavelength leaderSelection⟩

/-- The output that is not causal keeps to direct references. -/
theorem tau_respects_references_equivocatedPath :
    ∃ out, equivocatedPath.tau 1 1 0 thirdLeader = .ok out ∧ out.Nodup ∧
      (∀ y ∈ out, ∃ x ∈ equivocatedPath.blocks, x.consensusIdentity = y) ∧
      out.Pairwise fun y z => ¬ equivocatedPath.PointsAt y z :=
  (tau_respects_references (insertRun_growBy_fresh (by decide +kernel) (by decide +kernel)
    (by decide +kernel)) 1 1 0 ⟨∅, by decide⟩ thirdLeader).2.1

end Blocklace

end CordialMiners
