/-
# Two views agree on the leader of a wave

Any two partial views of one blocklace name the same weighted final leader of a
wave, as long as the creators that violate the chain axiom in it hold at most a
third of the stake.

The approvers of the two leaders are two stake quorums, so they share a creator
that does not equivocate.  Its two approving blocks are comparable, and the
later one sees both leaders, which are distinct blocks of one creator and one
round, hence incomparable: it approves neither.  The argument runs in the
common blocklace with its checkpoint lifted, where approval by a block of a
view is what it is in the view (`Extends.approves_iff`).
-/

import CordialMiners.Core.Growth

namespace CordialMiners

open FinGraph Relation

namespace Blocklace

variable {B B₁ B₂ : Blocklace} {a b x y L₁ L₂ : BlockIdentity} {d e : ℕ}

/-- The blocks of `B₁` are blocks of `B`, with the same contents. -/
def SubBlocklace (B₁ B : Blocklace) : Prop :=
  ∀ a c, B₁.blocks.lookup a = some c → B.blocks.lookup a = some c

theorem SubBlocklace.extends (h : B₁.SubBlocklace B) : B₁.Extends B := fun a c hc =>
  ⟨c, h a c hc, fun _ => Iff.rfl⟩

/-- `B` with its checkpoint lifted: every reference is followed. -/
def uncut (B : Blocklace) : Blocklace := { B with checkpoint := none }

@[simp] theorem uncut_checkpoint (B : Blocklace) : B.uncut.checkpoint = none := rfl

theorem Extends.uncut (h : B₁.Extends B) : B₁.Extends B.uncut := h

theorem mem_expand_uncut (h : x ∈ B.expand a) : x ∈ B.uncut.expand a := by
  unfold expand at h
  split_ifs at h
  · simp at h
  · exact h

theorem Sees.uncut (h : B.Sees a b) : B.uncut.Sees a b := by
  induction h with
  | refl => exact .refl _ a
  | tail _ hstep ih => exact ReflTransGen.tail ih (mem_expand_uncut hstep)

/-- The blocks of a creator that satisfies the chain axiom are comparable. -/
theorem sees_or_sees_of_not_equivocator (ha : a ∈ B.blocks) (hb : b ∈ B.blocks)
    (hab : a.creator = b.creator) (hc : a.creator ∉ B.findEquivacators) :
    B.Sees a b ∨ B.Sees b a := by
  by_cases heq : a = b
  · exact Or.inl (heq ▸ .refl B a)
  · have hchain : B.satisfiesChainAxiom a.creator = true := by
      unfold findEquivacators at hc
      rw [List.mem_filter, not_and] at hc
      simpa using hc (mem_allNodes_iff.2 ⟨a, ha, rfl⟩)
    rcases satisfiesChainAxiom_iff.1 hchain a ha b hb rfl hab.symm heq with h | h
    · exact Or.inr h.sees
    · exact Or.inl h.sees

/-- **A block that sees two blocks of one creator and one round approves neither.** -/
theorem not_approves_of_sees_twin (hx : B.Round x e) (hy : B.Round y e) (hne : x ≠ y)
    (hc : x.creator = y.creator) (hax : B.Sees a x) : ¬ B.Approves a y := by
  intro happ
  rcases happ.comparable x hax hc hne with h | h
  · rcases sees_iff_eq_or_below.1 h with heq | hlt
    · exact hne heq
    · exact absurd (hx.lt_of_below hy hlt) (lt_irrefl e)
  · rcases sees_iff_eq_or_below.1 h with heq | hlt
    · exact hne heq.symm
    · exact absurd (hy.lt_of_below hx hlt) (lt_irrefl e)

/-- A final leader has a quorum of approvers seen from one block of its wave. -/
theorem FinalLeader.exists_ratifier {Q : Quorum.Rule NodeId} {w wave : ℕ} {ls : LeaderSelection}
    (h : B.FinalLeader Q w ls wave a) : ∃ x d, B.Round x d ∧ B.Ratifies Q x a := by
  obtain ⟨c, x, ⟨d, hd, -, -⟩, hrat, -⟩ := Q.nonempty h.super
  exact ⟨x, d, hd, hrat⟩

/-- **Two views agree on the weighted final leader of a wave.**  Closedness of
the views is not needed: a final leader and its approvers have a round. -/
theorem weighted_final_leader_agreement (h₁ : B₁.SubBlocklace B) (h₂ : B₂.SubBlocklace B)
    (hcp₁ : B₁.checkpoint = none) (hcp₂ : B₂.checkpoint = none) (bonds : Bonds)
    (hbad : 3 * ∑ c ∈ B.findEquivacators.toFinset, bonds.weight c ≤ bonds.total)
    {wave wavelength : ℕ} {leaderSelection : LeaderSelection}
    (hL₁ : B₁.weightedFinalLeaderForWave wave wavelength bonds leaderSelection = some L₁)
    (hL₂ : B₂.weightedFinalLeaderForWave wave wavelength bonds leaderSelection = some L₂) :
    L₁.consensusIdentity = L₂.consensusIdentity := by
  obtain ⟨-, hf₁⟩ := (Ladder.finalForWave_iff (stakeLadder_decides bonds)).1 hL₁
  obtain ⟨-, hf₂⟩ := (Ladder.finalForWave_iff (stakeLadder_decides bonds)).1 hL₂
  have he₁ := h₁.extends.uncut
  have he₂ := h₂.extends.uncut
  -- finality and approval in a view, read in the common blocklace
  have hround : ∀ {V : Blocklace} {z : BlockIdentity} {k : ℕ}, V.checkpoint = none →
      V.Extends B.uncut → V.Round z k → B.uncut.Round z k := fun hcp hext hz =>
    hext.round hcp.symm (fun hne => absurd hcp hne) hz
  have happrove : ∀ {V : Blocklace} {L z : BlockIdentity} {k : ℕ}, V.checkpoint = none →
      V.Extends B.uncut → V.Round z k → V.Ratifies bonds.rule z L →
      bonds.rule.holds {c | ∃ y ∈ B.blocks, B.uncut.Approves y L ∧ y.creator = c} := by
    intro V L z k hcp hext hz hrat
    refine bonds.rule.mono ?_ hrat
    rintro c ⟨y, hzy, happ, rfl⟩
    obtain ⟨e, -, hy⟩ := hz.of_sees hzy
    exact ⟨y, hext.mem hy.mem, (hext.approves_iff hcp.symm hy).2 happ, rfl⟩
  obtain ⟨x₁, d₁, hx₁, hrat₁⟩ := hf₁.exists_ratifier
  obtain ⟨x₂, d₂, hx₂, hrat₂⟩ := hf₂.exists_ratifier
  have hr₁ := hround hcp₁ he₁ hf₁.round
  have hr₂ := hround hcp₂ he₂ hf₂.round
  have hcreator : L₁.creator = L₂.creator :=
    Option.some.inj (hf₁.creator.symm.trans hf₂.creator)
  obtain ⟨c, ⟨y₁, hy₁, happ₁, hc₁⟩, ⟨y₂, hy₂, happ₂, hc₂⟩, hgood⟩ :=
    Quorum.stake_inter (happrove hcp₁ he₁ hx₁ hrat₁) (happrove hcp₂ he₂ hx₂ hrat₂)
      bonds.sum_le_total hbad
  by_contra hne
  have hL : L₁ ≠ L₂ := fun h => hne (congrArg _ h)
  rw [List.mem_toFinset, ← hc₁] at hgood
  rcases sees_or_sees_of_not_equivocator hy₁ hy₂ (hc₁.trans hc₂.symm) hgood with h | h
  · exact not_approves_of_sees_twin hr₂ hr₁ (Ne.symm hL) hcreator.symm
      (h.uncut.trans happ₂.sees) happ₁
  · exact not_approves_of_sees_twin hr₁ hr₂ hL hcreator (h.uncut.trans happ₁.sees) happ₂

/-- One validator with one unit of stake. -/
def soleBond : Bonds := .single ⟨[1]⟩ 1

/-- The hypotheses of `weighted_final_leader_agreement` are met by two views of
different size that both finalise the genesis block of the sole validator. -/
theorem weighted_final_leader_agreement_two_genesis :
    ((Blocklace.new 0).growBy [sampleBlock (sampleId 1 1) []]).weightedFinalLeaderForWave
        0 1 soleBond firstLeader = some (sampleId 1 1) ∧
      twoGenesis.weightedFinalLeaderForWave 0 1 soleBond firstLeader =
        some (sampleId 1 1) ∧
      (sampleId 1 1).consensusIdentity = (sampleId 1 1).consensusIdentity := by
  have h₁ : ((Blocklace.new 0).growBy [sampleBlock (sampleId 1 1) []]).weightedFinalLeaderForWave
      0 1 soleBond firstLeader = some (sampleId 1 1) := by decide +kernel
  have h₂ : twoGenesis.weightedFinalLeaderForWave 0 1 soleBond firstLeader =
      some (sampleId 1 1) := by decide +kernel
  refine ⟨h₁, h₂, weighted_final_leader_agreement (B := twoGenesis) ?_ (fun _ _ h => h)
    (by decide +kernel) (by decide +kernel) soleBond (by decide +kernel) h₁ h₂⟩
  intro a c hc
  have hmem : (⟨a, c⟩ : Sigma fun _ : BlockIdentity => BlockContent) ∈
      ((Blocklace.new 0).growBy [sampleBlock (sampleId 1 1) []]).blocks.entries :=
    mem_entries_iff.2 hc
  have hall : ∀ entry ∈ ((Blocklace.new 0).growBy
      [sampleBlock (sampleId 1 1) []]).blocks.entries,
      twoGenesis.blocks.lookup entry.1 = some entry.2 := by decide +kernel
  exact hall ⟨a, c⟩ hmem

end Blocklace

end CordialMiners
