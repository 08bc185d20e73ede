/-
# Deliveries in any order

A node is handed the blocks of a set `S`, in some order and some of them more
than once, and replays its buffer now and then.  Validation asks of a block
whose references are there only whether its creator has a stored block
incomparable with it, and that is a statement about `S`
(`Blocklace.PartOf.comparable_iff`); so the runs share one invariant
(`DeliveryInv`): what was delivered is stored, waits, or has been rejected for
a conflict in `S` of which the node holds evidence.

After a replay nothing that waits is ready.  Going up along the references, every
block is then stored that has no rejected block among its ancestors
(`DeliveryInv.stores_of_unobserved`).  Without equivocations nothing is rejected,
and the node holds all of `S` (`exactly_delivered_after_run`); with one equivocator the
rejected blocks are its own, and there are some (`equivocation_retained`).
-/

import CordialMiners.Core.PartOf
import CordialMiners.Node.SimNode

namespace CordialMiners

open FinGraph Relation
open Blocklace (Admitted AdmitRun PartOf sampleId signedId sampleBlock listedCrypto
  threeBonds)
open PendingBlockBuffer (LimitsKept)

/-- Blocks that fail validation for their references or as an equivocation only. -/
structure Deliverable (crypto : BlockCrypto) (bonds : Bonds) (S : Set Block) : Prop where
  inOrder : ∀ b ∈ S, b.InOrder crypto bonds
  distinct : DistinctBlocks S
  noHashCycle : crypto.NoHashCycle S

/-- Two blocks of one creator of which neither observes the other. -/
def ConflictIn (S : Set Block) (a b : Block) : Prop :=
  a.identity.creator = b.identity.creator ∧ a ≠ b ∧ ¬ Ancestor S a b ∧ ¬ Ancestor S b a

theorem chainIn_iff {S : Set Block} {v : NodeId} :
    ChainIn S v ↔ ∀ a ∈ S, ∀ b ∈ S, a.identity.creator = v → ¬ ConflictIn S a b := by
  constructor
  · rintro h a ha b hb hav ⟨hcreator, hne, hab, hba⟩
    exact (h a ha b hb hav (hcreator ▸ hav) hne).elim hab hba
  · intro h a ha b hb hav hbv hne
    by_contra hnot
    push Not at hnot
    exact h a ha b hb hav ⟨hav.trans hbv.symm, hne, hnot.1, hnot.2⟩

variable {crypto : BlockCrypto} {bonds : Bonds} {S : Set Block} {B B' : Blocklace} {a b x : Block}
  {errors : List InvalidBlock} {node : SimNode}

namespace Deliverable

theorem hashed (hS : Deliverable crypto bonds S) : crypto.Hashed S :=
  fun b hb => (hS.inOrder b hb).hash

/-- **What the default checks say of a block of `S`**, whatever part is stored. -/
theorem validateBlock_cases (hS : Deliverable crypto bonds S) (h : PartOf S B) (hb : b ∈ S) :
    (B.validateBlock crypto b bonds .default = .valid ∧ ∀ a, B.Stores a → ¬ ConflictIn S a b) ∨
    (Available Block.refs B.Resolves b ∧ ∃ a, B.Stores a ∧ ConflictIn S a b ∧
      B.validateBlock crypto b bonds .default = .invalid [.equivocation a.identity]) ∨
    (¬ Available Block.refs B.Resolves b ∧ ∃ missing,
      B.validateBlock crypto b bonds .default = .invalid [.missingPredecessors missing]) := by
  rw [Blocklace.validateBlock_default (hS.inOrder b hb) (h.noVariant hS.distinct hb)]
  by_cases hav : Available Block.refs B.Resolves b
  · rw [if_pos (Blocklace.absentPredecessors_eq_nil_iff_available.2 hav)]
    cases hfind : (B.blocksBy b.identity.creator).find? (B.conflictsWith b) with
    | none =>
        refine Or.inl ⟨rfl, ?_⟩
        rintro a ha ⟨hcreator, hne, hab, hba⟩
        have hid : a.identity ≠ b.identity := fun heq =>
          hne (hS.distinct a (h.mem a ha) b hb (by rw [heq]))
        obtain hanc | hanc := (h.comparable_iff hS.distinct hb hav ha).1
          (Blocklace.find?_conflictsWith_eq_none_iff.1 hfind a.identity ha.mem hcreator hid)
        · exact hab hanc
        · exact hba hanc
    | some existing =>
        obtain ⟨hst, hcreator⟩ := Blocklace.mem_blocksBy_iff.1 (List.mem_of_find?_eq_some hfind)
        obtain ⟨hcomp, hne⟩ :=
          (Blocklace.conflictsWith_iff hst).1 (List.find?_some hfind)
        rw [h.comparable_iff hS.distinct hb hav hst, not_or] at hcomp
        exact Or.inr (Or.inl ⟨hav, existing, hst,
          ⟨hcreator, fun heq => hne (heq ▸ rfl), hcomp.1, hcomp.2⟩, rfl⟩)
  · rw [if_neg (fun hnil => hav (Blocklace.absentPredecessors_eq_nil_iff_available.1 hnil))]
    exact Or.inr (Or.inr ⟨hav, _, rfl⟩)

end Deliverable

/-- `B` is a part of `S` without conflicts. -/
structure Blocklace.ConflictFree (S : Set Block) (B : Blocklace) : Prop extends PartOf S B where
  chain : ∀ a b, B.Stores a → B.Stores b → ¬ ConflictIn S a b

namespace Blocklace.ConflictFree

theorem admitted (hS : Deliverable crypto bonds S) (h : ConflictFree S B) (hb : b ∈ S)
    (hadm : Admitted crypto bonds .default B b B') : ConflictFree S B' := by
  have hins := hadm.inserted rfl
  have hstores := fun c => @PartOf.stores_inserted_iff S B B' b c hS.distinct h.toPartOf hb hins
  have hsymm : ∀ a c, ConflictIn S a c → ConflictIn S c a := fun a c hac =>
    ⟨hac.1.symm, hac.2.1.symm, hac.2.2.2, hac.2.2.1⟩
  have hfree : ∀ a, B.Stores a → ¬ ConflictIn S a b := by
    obtain ⟨-, hfree⟩ | ⟨-, a, -, -, hinv⟩ | ⟨-, missing, hinv⟩ :=
      hS.validateBlock_cases h.toPartOf hb
    · exact hfree
    · exact absurd (hadm.valid.symm.trans hinv) (by simp)
    · exact absurd (hadm.valid.symm.trans hinv) (by simp)
  refine ⟨h.inserted hS.distinct hb hins, fun a c ha hc hconf => ?_⟩
  obtain ha | rfl := (hstores a).1 ha <;> obtain hc | rfl := (hstores c).1 hc
  · exact h.chain a c ha hc hconf
  · exact hfree a ha hconf
  · exact hfree c hc (hsymm _ _ hconf)
  · exact hconf.2.1 rfl

theorem run (hS : Deliverable crypto bonds S) (h : ConflictFree S B)
    (hrun : AdmitRun crypto bonds .default S B B') :
    ConflictFree S B' ∧ ∀ c, B.Stores c → B'.Stores c := by
  refine ⟨?_, (h.toPartOf.stores_of_run hS.distinct rfl hrun).2⟩
  induction hrun with
  | refl => exact h
  | store _ hmem hadm ih => exact ih.admitted hS hmem hadm

/-- A block refused once its references were there conflicts with a stored block. -/
theorem exists_conflict (hS : Deliverable crypto bonds S) (h : ConflictFree S B) (hb : b ∈ S)
    (hav : Available Block.refs B.Resolves b)
    (hinv : B.validateBlock crypto b bonds .default = .invalid errors) :
    ∃ a, B.Stores a ∧ ConflictIn S a b ∧ errors = [.equivocation a.identity] := by
  obtain ⟨hvalid, -⟩ | ⟨-, a, ha, hconf, heq⟩ | ⟨hnot, -⟩ := hS.validateBlock_cases h.toPartOf hb
  · exact absurd (hvalid.symm.trans hinv) (by simp)
  · exact ⟨a, ha, hconf, (ValidationResult.invalid.inj (heq.symm.trans hinv)).symm⟩
  · exact absurd hav hnot

/-- **The conflict leaves evidence**, in the blocklace of the check or a later one. -/
theorem evidence_ne_nil (hS : Deliverable crypto bonds S) (h : ConflictFree S B)
    (ha : B.Stores a) (hconf : ConflictIn S a b) (hb : b ∈ S)
    (hav : Available Block.refs B.Resolves b) (pool : CordialEvidencePool) :
    (B.recordRejectedEquivocation b [.equivocation a.identity] pool).2.evidenceFor
      b.identity.creator ≠ [] := by
  obtain ⟨round, hround⟩ := h.exists_round_of_stores hS.hashed hS.noHashCycle ha
  obtain ⟨candidate, hcandidate⟩ :=
    h.exists_candidateRound_of_available hS.hashed hS.noHashCycle hav
  refine Blocklace.evidenceFor_recordRejected_ne_nil (by simp) ha hround hcandidate fun heq => ?_
  exact hconf.2.1 (hS.distinct a (h.mem a ha) b hb (by rw [heq]))

end Blocklace.ConflictFree

/-! ### The invariant of a run -/

namespace SimNode

theorem hasEvidenceAgainst_iff {v : NodeId} :
    node.hasEvidenceAgainst v = true ↔ node.evidence.evidenceFor v ≠ [] := by
  simp [hasEvidenceAgainst]

/-- After the events so far, `delivered` are the blocks handed to the node and
`rejected` those it refused. -/
structure DeliveryInv (bonds : Bonds) (S : Set Block) (delivered rejected : List Block)
    (node : SimNode) : Prop where
  bonds : node.bonds = bonds
  config : node.validationConfig = .default
  lace : Blocklace.ConflictFree S node.blocklace
  waiting : BlockMap.toSet node.pending.bufferedBlocks ⊆ S
  delivered : node.pending.LimitsKept → ∀ x ∈ delivered, node.blocklace.Stores x ∨
    x ∈ BlockMap.toSet node.pending.bufferedBlocks ∨ x ∈ rejected
  rejected : ∀ x ∈ rejected, x ∈ S ∧ (∃ a, node.blocklace.Stores a ∧ ConflictIn S a x) ∧
    node.evidence.evidenceFor x.identity.creator ≠ []

variable {delivered rejected : List Block}

theorem deliveryInv_new (id : NodeId) (policy : BufferPolicy) (cacheIdentity : ℕ) :
    DeliveryInv bonds S [] [] (new id bonds .default policy cacheIdentity) where
  bonds := rfl
  config := rfl
  lace := ⟨Blocklace.partOf_new S cacheIdentity,
    fun _ _ h _ => absurd h BlockMap.mem_toSet_empty⟩
  waiting _ h := absurd h BlockMap.mem_toSet_empty
  delivered _ _ h := absurd h List.not_mem_nil
  rejected _ h := absurd h List.not_mem_nil

/-- Evidence stays when more is recorded. -/
theorem evidenceFor_ne_nil_mono {pool pool' : CordialEvidencePool} {v : NodeId}
    (hsub : ∀ e ∈ pool.evidenceFor v, e ∈ pool'.evidenceFor v) (h : pool.evidenceFor v ≠ []) :
    pool'.evidenceFor v ≠ [] := by
  obtain ⟨e, he⟩ := List.exists_mem_of_ne_nil _ h
  exact List.ne_nil_of_mem (hsub e he)

/-- **A delivery keeps the invariant.** -/
theorem DeliveryInv.receive (hS : Deliverable crypto bonds S)
    (h : DeliveryInv bonds S delivered rejected node) (hb : b ∈ S) :
    DeliveryInv bonds S (delivered ++ [b]) (rejected ++ node.rejections crypto (.receive b))
      (node.step crypto (.receive b)) := by
  have hmem : ∀ {P : Block → Prop}, (∀ x ∈ delivered, P x) → P b → ∀ x ∈ delivered ++ [b], P x := by
    intro P hold hnew x hx
    obtain hx | hx := List.mem_append.1 hx
    · exact hold x hx
    · exact List.mem_singleton.1 hx ▸ hnew
  simp only [step, rejections]
  obtain ⟨B', hadm, heq⟩ | ⟨errors, hinv, hcase⟩ := receiveBlock_cases crypto node b
  · rw [heq]
    rw [h.bonds, h.config] at hadm
    have hstores := fun c => @Blocklace.PartOf.stores_inserted_iff S node.blocklace B' b c hS.distinct
      h.lace.toPartOf hb (hadm.inserted rfl)
    refine ⟨h.bonds, h.config, h.lace.admitted hS hb hadm, h.waiting, fun hkept => ?_, ?_⟩
    · simp only [List.append_nil]
      refine hmem (fun x hx => ?_) (Or.inl ((hstores b).2 (Or.inr rfl)))
      exact (h.delivered hkept x hx).imp_left fun hst => (hstores x).2 (Or.inl hst)
    · intro x hx
      obtain ⟨hxS, ⟨a, ha, hconf⟩, hev⟩ := h.rejected x (by simpa using hx)
      exact ⟨hxS, ⟨a, (hstores a).2 (Or.inl ha), hconf⟩, hev⟩
  · rw [h.bonds, h.config] at hinv
    have hold : ∀ x ∈ rejected, x ∈ S ∧ (∃ a, node.blocklace.Stores a ∧ ConflictIn S a x) ∧
        (node.blocklace.recordRejectedEquivocation b errors node.evidence).2.evidenceFor
          x.identity.creator ≠ [] := fun x hx =>
      ⟨(h.rejected x hx).1, (h.rejected x hx).2.1, evidenceFor_ne_nil_mono
        (fun _ => Blocklace.evidenceFor_subset_recordRejected) (h.rejected x hx).2.2⟩
    obtain ⟨-, missing, heq⟩ | ⟨hall, heq⟩ := hcase
    · rw [heq]
      obtain ⟨hpolicy, hle, hnew, hheld⟩ :=
        PendingBlockBuffer.bufferBlock_spec node.pending b missing rfl
      refine ⟨h.bonds, h.config, h.lace, fun x hx => ?_, fun hkept => ?_, fun x hx => ?_⟩
      · obtain hx | rfl := hnew x hx
        · exact h.waiting hx
        · exact hb
      · obtain ⟨hheldb, hheldx⟩ := hheld hkept
        refine hmem (fun x hx => ?_) (Or.inr (Or.inl hheldb))
        obtain hst | hwait | hrej := h.delivered (hle.limitsKept hpolicy hkept) x hx
        · exact Or.inl hst
        · refine Or.inr (Or.inl ?_)
          by_cases hid : x.identity = b.identity
          · obtain rfl := hS.distinct x (h.waiting hwait) b hb (by rw [hid])
            exact hheldb
          · exact hheldx x hwait hid
        · exact Or.inr (Or.inr (List.mem_append_left _ hrej))
      · exact hold x (by simpa using hx)
    · rw [heq]
      obtain ⟨hvalid, -⟩ | ⟨hav, a, ha, hconf, herr⟩ | ⟨-, missing, herr⟩ :=
        hS.validateBlock_cases h.lace.toPartOf hb
      · exact absurd (hvalid.symm.trans hinv) (by simp)
      · obtain rfl := ValidationResult.invalid.inj (herr.symm.trans hinv)
        refine ⟨h.bonds, h.config, h.lace, h.waiting, fun hkept => ?_, fun x hx => ?_⟩
        · refine hmem (fun x hx => ?_) (Or.inr (Or.inr (by simp)))
          exact (h.delivered hkept x hx).imp_right (Or.imp_right (List.mem_append_left _))
        · obtain hx | hx := List.mem_append.1 hx
          · exact hold x hx
          · obtain rfl := List.mem_singleton.1 hx
            exact ⟨hb, ⟨a, ha, hconf⟩, h.lace.evidence_ne_nil hS ha hconf hb hav _⟩
      · obtain rfl := ValidationResult.invalid.inj (herr.symm.trans hinv)
        exact absurd hall (by simp [isRetryableBufferError])

/-- The evidence of a replay: nothing is lost, and each rejection leaves some. -/
theorem evidenceFor_foldl {reported : List (Block × List InvalidBlock)} {pool : CordialEvidencePool}
    {v : NodeId} (h : pool.evidenceFor v ≠ [] ∨ ∃ x errors, (x, errors) ∈ reported ∧
      ∀ pool, (B.recordRejectedEquivocation x errors pool).2.evidenceFor v ≠ []) :
    (reported.foldl (fun pool rejected =>
      (B.recordRejectedEquivocation rejected.1 rejected.2 pool).2) pool).evidenceFor v ≠ [] := by
  induction reported generalizing pool with
  | nil => simpa using h
  | cons first reported ih =>
      rw [List.foldl_cons]
      refine ih ?_
      obtain h | ⟨x, errors, hx, hev⟩ := h
      · exact Or.inl (evidenceFor_ne_nil_mono
          (fun _ => Blocklace.evidenceFor_subset_recordRejected) h)
      · obtain rfl | hx := List.mem_cons.1 hx
        · exact Or.inl (hev pool)
        · exact Or.inr ⟨x, errors, hx, hev⟩

/-- Nothing that waits is stored or ready. -/
def Settled (node : SimNode) : Prop :=
  ∀ x ∈ BlockMap.toSet node.pending.bufferedBlocks,
    ¬ node.blocklace.Resolves x.identity ∧ ¬ Available Block.refs node.blocklace.Resolves x

/-- **A replay keeps the invariant**, and with no limit reached leaves the node settled. -/
theorem DeliveryInv.retry (hS : Deliverable crypto bonds S)
    (h : DeliveryInv bonds S delivered rejected node) :
    DeliveryInv bonds S delivered (rejected ++ node.rejections crypto .retry)
      (node.step crypto .retry) ∧
    ((node.step crypto .retry).pending.LimitsKept → (node.step crypto .retry).Settled) := by
  obtain ⟨replayed, reported, pending', B', hreplay, hrep, hsub, hpolicy, hle, hkeep, heq⟩ :=
    retry_cases crypto node (by rw [h.config]; rfl)
  simp only [step, rejections, hreplay]
  rw [heq]
  rw [h.bonds, h.config] at hrep
  have hrun := hrep.run.mono h.waiting
  obtain ⟨hlace, hstores⟩ := h.lace.run hS hrun
  have hkept : pending'.LimitsKept → pending'.bufferedBlocks = replayed.bufferedBlocks := by
    intro hlim
    refine hkeep ?_
    rw [hlim.2, (hle.limitsKept hpolicy hlim).2]
  -- what the replay reports conflicts with a block stored then, hence stored now
  have hreported : ∀ x errors, (x, errors) ∈ reported → x ∈ S ∧
      (∃ a, B'.Stores a ∧ ConflictIn S a x) ∧
      ∀ pool, (B'.recordRejectedEquivocation x errors pool).2.evidenceFor
        x.identity.creator ≠ [] := by
    intro x errors hx
    obtain ⟨hxw, B₁, hto, hfrom, hav, hinv⟩ := hrep.rejected x errors hx
    have hxS := h.waiting hxw
    have hlace₁ := (h.lace.run hS (hto.mono h.waiting)).1
    obtain ⟨a, ha, hconf, rfl⟩ := hlace₁.exists_conflict hS hxS hav hinv
    have ha' := (hlace₁.run hS (hfrom.mono h.waiting)).2 a ha
    have hav' : Available Block.refs B'.Resolves x := fun p hp => hfrom.resolves rfl (hav p hp)
    exact ⟨hxS, ⟨a, ha', hconf⟩, hlace.evidence_ne_nil hS ha' hconf hxS hav'⟩
  refine ⟨⟨h.bonds, h.config, hlace, fun x hx => ?_, fun hlim x hx => ?_, fun x hx => ?_⟩,
    fun hlim x hx => ?_⟩
  · exact h.waiting (hrep.subset (hsub hx))
  · obtain hst | hwait | hrej := h.delivered (hle.limitsKept hpolicy hlim) x hx
    · exact Or.inl (hstores x hst)
    · obtain hwait' | ⟨r, hr⟩ | ⟨errors, hrej⟩ := hrep.kept x hwait
      · exact Or.inr (Or.inl ((hkept hlim).symm ▸ hwait'))
      · obtain ⟨hmem, hcons, -⟩ := Blocklace.resolveIdentity_eq_some_iff.1 hr
        exact Or.inl (hlace.stores_of_consensus hS.distinct (h.waiting hwait) hmem hcons.symm)
      · exact Or.inr (Or.inr (List.mem_append_right _ (List.mem_map.2 ⟨_, hrej, rfl⟩)))
    · exact Or.inr (Or.inr (List.mem_append_left _ hrej))
  · obtain hx | hx := List.mem_append.1 hx
    · obtain ⟨hxS, ⟨a, ha, hconf⟩, hev⟩ := h.rejected x hx
      exact ⟨hxS, ⟨a, hstores a ha, hconf⟩, evidenceFor_foldl (Or.inl hev)⟩
    · obtain ⟨⟨x, errors⟩, hrej, rfl⟩ := List.mem_map.1 hx
      obtain ⟨hxS, hconf, hev⟩ := hreported x errors hrej
      exact ⟨hxS, hconf, evidenceFor_foldl (Or.inr ⟨x, errors, hrej, hev⟩)⟩
  · exact hrep.stuck x ((hkept hlim) ▸ hx)

/-- **The invariant holds after every run** that delivers blocks of `S` only. -/
theorem deliveryInv_run (hS : Deliverable crypto bonds S) (id : NodeId) (policy : BufferPolicy)
    (cacheIdentity : ℕ) (events : List Event) (hevents : ∀ b ∈ received events, b ∈ S) :
    DeliveryInv bonds S (received events)
      (rejectedBlocks crypto (new id bonds .default policy cacheIdentity) events)
      ((new id bonds .default policy cacheIdentity).run crypto events) := by
  induction events using List.reverseRecOn with
  | nil => exact deliveryInv_new id policy cacheIdentity
  | append_singleton events event ih =>
      rw [received_append] at hevents
      have hinit := ih fun b hb => hevents b (List.mem_append_left _ hb)
      rw [rejectedBlocks_append, run_append, received_append]
      cases event with
      | receive b => exact hinit.receive hS (hevents b (List.mem_append_right _ (by simp [received])))
      | retry =>
          rw [show received [Event.retry] = [] from rfl, List.append_nil]
          exact (hinit.retry hS).1

/-! ### Deliveries in causal order -/

/-- Every reference of a block names a block that stands before it. -/
def CausallyListed (blocks : List Block) : Prop :=
  ∀ before b after, blocks = before ++ b :: after → ∀ p ∈ b.refs, ∃ c ∈ before, c.NamedBy p

/-- The node stores the blocks handed to it, no others, and waits for none. -/
structure Holds (bonds : Bonds) (S : Set Block) (delivered : List Block) (node : SimNode) : Prop where
  bonds : node.bonds = bonds
  config : node.validationConfig = .default
  lace : Blocklace.ConflictFree S node.blocklace
  stores : ∀ b, node.blocklace.Stores b ↔ b ∈ delivered
  buffer : BlockMap.toSet node.pending.bufferedBlocks = ∅

theorem CausallyListed.of_append {blocks rest : List Block} (h : CausallyListed (blocks ++ rest)) :
    CausallyListed blocks := fun before b after heq =>
  h before b (after ++ rest) (by rw [heq, List.append_assoc, List.cons_append])

theorem causallyListed_iff {blocks : List Block} :
    CausallyListed blocks ↔ ∀ l ∈ blocks.inits, ∀ b ∈ l.getLast?.toList, ∀ p ∈ b.refs,
      ∃ c ∈ l.dropLast, c.NamedBy p := by
  simp only [List.mem_inits, Option.mem_toList]
  constructor
  · rintro h l ⟨after, rfl⟩ b hb
    refine h l.dropLast b after ?_
    rw [← List.singleton_append, ← List.append_assoc, List.dropLast_append_getLast? b hb]
  · intro h before b after heq
    have hlast := h (before ++ [b]) ⟨after, by rw [heq, List.append_assoc, List.singleton_append]⟩ b
      List.getLast?_concat
    rwa [List.dropLast_concat] at hlast

instance (blocks : List Block) : Decidable (CausallyListed blocks) :=
  decidable_of_iff _ causallyListed_iff.symm

/-- Nothing waits where no block does. -/
theorem pendingLen_eq_zero (h : ∀ x, x ∉ BlockMap.toSet node.pending.bufferedBlocks) :
    node.pendingLen = 0 := by
  unfold pendingLen
  rw [List.length_eq_zero_iff, List.eq_nil_iff_forall_not_mem]
  intro i hi
  obtain ⟨content, hc⟩ := Option.isSome_iff_exists.1 (AList.lookup_isSome.2 (AList.mem_keys.2 hi))
  exact h ⟨i, content⟩ hc

theorem holds_new (id : NodeId) (policy : BufferPolicy) (cacheIdentity : ℕ) :
    Holds bonds S [] (new id bonds .default policy cacheIdentity) where
  bonds := rfl
  config := rfl
  lace := (deliveryInv_new id policy cacheIdentity).lace
  stores _ := iff_of_false BlockMap.mem_toSet_empty List.not_mem_nil
  buffer := Set.eq_empty_of_forall_notMem fun _ => BlockMap.mem_toSet_empty

/-- **A block whose references were delivered is stored**, or was before. -/
theorem Holds.receive (hS : Deliverable crypto bonds S) (hchain : ∀ v, ChainIn S v)
    (h : Holds bonds S delivered node) (hold : ∀ x ∈ delivered, x ∈ S) (hb : b ∈ S)
    (hrefs : ∀ p ∈ b.refs, ∃ c ∈ delivered, c.NamedBy p) :
    Holds bonds S (delivered ++ [b]) (node.step crypto (.receive b)) := by
  have hav : Available Block.refs node.blocklace.Resolves b := by
    intro p hp
    obtain ⟨c, hc, hname⟩ := hrefs p hp
    exact Blocklace.resolves_iff.2 ⟨c.identity, ((h.stores c).2 hc).mem, hname⟩
  have hvalid : node.blocklace.validateBlock crypto b bonds .default = .valid := by
    obtain ⟨hvalid, -⟩ | ⟨-, a, ha, hconf, -⟩ | ⟨hnot, -⟩ := hS.validateBlock_cases h.lace.toPartOf hb
    · exact hvalid
    · exact absurd hconf (chainIn_iff.1 (hchain _) a (hold a ((h.stores a).1 ha)) b hb rfl)
    · exact absurd hav hnot
  simp only [step]
  obtain ⟨B', hadm, heq⟩ | ⟨errors, hinv, -⟩ := receiveBlock_cases crypto node b
  · rw [heq]
    rw [h.bonds, h.config] at hadm
    refine ⟨h.bonds, h.config, h.lace.admitted hS hb hadm, fun c => ?_, h.buffer⟩
    rw [@Blocklace.PartOf.stores_inserted_iff S node.blocklace B' b c hS.distinct h.lace.toPartOf hb
      (hadm.inserted rfl), h.stores c, List.mem_append, List.mem_singleton]
  · rw [h.bonds, h.config, hvalid] at hinv
    exact absurd hinv (by simp)

/-- With an empty buffer a replay does nothing to the blocks. -/
theorem Holds.retry (h : Holds bonds S delivered node) :
    Holds bonds S delivered (node.step crypto .retry) := by
  obtain ⟨replayed, reported, pending', B', -, hrep, hsub, -, -, -, heq⟩ :=
    retry_cases crypto node (by rw [h.config]; rfl)
  have hempty : BlockMap.toSet (node.pending.takeResolvedPredecessors node.blocklace).2.bufferedBlocks =
      ∅ := h.buffer
  have hsame : B' = node.blocklace := by
    have hrun := hrep.run
    rw [hempty] at hrun
    cases hrun with
    | refl => rfl
    | store _ hmem _ => exact absurd hmem (Set.notMem_empty _)
  simp only [step]
  rw [heq, hsame]
  refine ⟨h.bonds, h.config, h.lace, h.stores, Set.subset_eq_empty ?_ rfl⟩
  exact fun x hx => hempty ▸ hrep.subset (hsub hx)

/-- The last delivery has been followed by a replay. -/
def Flushed (events : List Event) : Prop := ∀ b, events.getLast? ≠ some (.receive b)

instance (events : List Event) : Decidable (Flushed events) :=
  match h : events.getLast? with
  | none => isTrue fun b => by simp [h]
  | some .retry => isTrue fun b => by simp [h]
  | some (.receive b) => isFalse fun hf => hf b h

/-- A flushed run with no limit reached leaves nothing ready in the buffer. -/
theorem settled_run (hS : Deliverable crypto bonds S) (id : NodeId) (policy : BufferPolicy)
    (cacheIdentity : ℕ) {events : List Event} (hevents : ∀ b ∈ received events, b ∈ S)
    (hflush : Flushed events)
    (hlim : ((new id bonds .default policy cacheIdentity).run crypto events).pending.LimitsKept) :
    ((new id bonds .default policy cacheIdentity).run crypto events).Settled := by
  induction events using List.reverseRecOn with
  | nil => exact fun x hx => absurd hx BlockMap.mem_toSet_empty
  | append_singleton events event _ =>
      cases event with
      | receive b => exact absurd List.getLast?_concat (hflush b)
      | retry =>
          rw [received_append] at hevents
          have hinit := deliveryInv_run hS id policy cacheIdentity events fun b hb =>
            hevents b (List.mem_append_left _ hb)
          rw [run_append] at hlim ⊢
          exact (hinit.retry hS).2 hlim

/-- **Everything is stored that observes no rejected block.**  The induction goes up
along the hashes: the references of such a block name blocks of the same kind. -/
theorem DeliveryInv.stores_of_unobserved (hS : Deliverable crypto bonds S)
    (hclosed : RefsClosed Block.refs Block.NamedBy S)
    (h : DeliveryInv bonds S delivered rejected node) (hall : ∀ b ∈ S, b ∈ delivered)
    (hlim : node.pending.LimitsKept) (hsettled : node.Settled) (hb : b ∈ S)
    (hobs : ∀ r ∈ rejected, r ≠ b ∧ ¬ Ancestor S r b) : node.blocklace.Stores b := by
  obtain ⟨rank, hrank⟩ := hS.noHashCycle
  induction hn : rank b.identity.contentHash using Nat.strong_induction_on generalizing b with
  | _ n ih =>
      have hav : Available Block.refs node.blocklace.Resolves b := by
        intro p hp
        obtain ⟨c, hc, hname⟩ := hclosed b hb p hp
        have hstep : RefersIn Block.refs Block.NamedBy S b c := ⟨hc, p, hp, hname⟩
        have hst := ih _ (hn ▸ rank_lt_of_refersIn hS.hashed hrank hb hstep) hc
          (fun r hr => ⟨fun heq => (hobs r hr).2 (heq ▸ .single hstep),
            fun hanc => (hobs r hr).2 (.head hstep hanc)⟩) rfl
        exact Blocklace.resolves_iff.2 ⟨c.identity, hst.mem, hname⟩
      obtain hst | hwait | hrej := h.delivered hlim b (hall b hb)
      · exact hst
      · exact absurd hav (hsettled b hwait).2
      · exact absurd rfl (hobs b hrej).1

section Main

variable (hin : ∀ b ∈ S, b.InOrder crypto bonds) (hcycle : crypto.NoHashCycle S)
  (hclosed : RefsClosed Block.refs Block.NamedBy S) {id : NodeId} {policy : BufferPolicy}
  {cacheIdentity : ℕ} {events : List Event} (hevents : ∀ b, b ∈ received events ↔ b ∈ S)
  (hflush : Flushed events)
  (hlim : ((new id bonds .default policy cacheIdentity).run crypto events).pending.LimitsKept)

include hin hcycle hclosed hevents hflush hlim

/-- **The order of delivery does not matter.**  Blocks in order and without
equivocation, handed to a node in any order and any number of times, are all
stored in the end; nothing else is, and nothing is left in the buffer. -/
theorem exactly_delivered_after_run (hchain : ∀ v, ChainIn S v) :
    (∀ b, ((new id bonds .default policy cacheIdentity).run crypto events).blocklace.Stores b ↔
      b ∈ S) ∧
    ((new id bonds .default policy cacheIdentity).run crypto events).pendingLen = 0 := by
  have hS : Deliverable crypto bonds S :=
    ⟨hin, distinctBlocks_of_chainIn (fun b hb => (hin b hb).hash) hcycle hchain, hcycle⟩
  have hinv := deliveryInv_run hS id policy cacheIdentity events fun b hb => (hevents b).1 hb
  have hsettled := settled_run hS id policy cacheIdentity (fun b hb => (hevents b).1 hb) hflush hlim
  -- a rejected block would conflict with a stored one
  have hnone : ∀ r ∈ rejectedBlocks crypto
      (new id bonds .default policy cacheIdentity) events, False := by
    intro r hr
    obtain ⟨hrS, ⟨a, ha, hconf⟩, -⟩ := hinv.rejected r hr
    exact chainIn_iff.1 (hchain a.identity.creator) a (hinv.lace.mem a ha) r hrS rfl hconf
  have hstores : ∀ b ∈ S, ((new id bonds .default policy cacheIdentity).run crypto
      events).blocklace.Stores b := fun b hb =>
    hinv.stores_of_unobserved hS hclosed (fun b hb => (hevents b).2 hb) hlim hsettled hb
      fun r hr => (hnone r hr).elim
  refine ⟨fun b => ⟨hinv.lace.mem b, hstores b⟩, pendingLen_eq_zero fun x hwait => ?_⟩
  exact (hsettled x hwait).1
    ⟨x.identity, Blocklace.resolveIdentity_of_mem (hstores x (hinv.waiting hwait)).mem⟩

/-- **An equivocation that is delivered is retained.**  One validator breaks the
chain axiom: in the end the node holds evidence against it, stores every block
that observes no rejected block of it, and stores a chain of its blocks. -/
theorem equivocation_retained (hdistinct : DistinctBlocks S) {v : NodeId}
    (hv : ∀ w, ¬ ChainIn S w ↔ w = v) :
    ((new id bonds .default policy cacheIdentity).run crypto events).hasEvidenceAgainst v = true ∧
    (∀ b ∈ S, (∀ r ∈ rejectedBlocks crypto (new id bonds .default policy cacheIdentity) events,
        r.identity.creator = v → r ≠ b ∧ ¬ Ancestor S r b) →
      ((new id bonds .default policy cacheIdentity).run crypto events).blocklace.Stores b) ∧
    ((new id bonds .default policy cacheIdentity).run crypto
      events).blocklace.satisfiesChainAxiom v = true := by
  have hS : Deliverable crypto bonds S := ⟨hin, hdistinct, hcycle⟩
  have hinv := deliveryInv_run hS id policy cacheIdentity events fun b hb => (hevents b).1 hb
  have hsettled := settled_run hS id policy cacheIdentity (fun b hb => (hevents b).1 hb) hflush hlim
  have hcreator : ∀ r ∈ rejectedBlocks crypto
      (new id bonds .default policy cacheIdentity) events, r.identity.creator = v := by
    intro r hr
    obtain ⟨hrS, ⟨a, ha, hconf⟩, -⟩ := hinv.rejected r hr
    refine (hv _).1 fun hchain => ?_
    exact chainIn_iff.1 hchain a (hinv.lace.mem a ha) r hrS hconf.1 hconf
  have hstores : ∀ b ∈ S, (∀ r ∈ rejectedBlocks crypto
        (new id bonds .default policy cacheIdentity) events,
        r.identity.creator = v → r ≠ b ∧ ¬ Ancestor S r b) →
      ((new id bonds .default policy cacheIdentity).run crypto events).blocklace.Stores b :=
    fun b hb hobs => hinv.stores_of_unobserved hS hclosed (fun b hb => (hevents b).2 hb) hlim
      hsettled hb fun r hr => hobs r hr (hcreator r hr)
  refine ⟨?_, hstores, ?_⟩
  · rw [hasEvidenceAgainst_iff]
    by_contra hno
    -- without evidence nothing was rejected, so both branches would be stored
    have hnone : ∀ r ∈ rejectedBlocks crypto
        (new id bonds .default policy cacheIdentity) events, False := by
      intro r hr
      exact (hinv.rejected r hr).2.2 ((hcreator r hr).symm ▸ hno)
    refine (hv v).2 rfl (chainIn_iff.2 fun a ha b hb _ hconf => ?_)
    exact hinv.lace.chain a b (hstores a ha fun r hr => (hnone r hr).elim)
      (hstores b hb fun r hr => (hnone r hr).elim) hconf
  · rw [Blocklace.satisfiesChainAxiom_iff]
    intro i hi j hj hiv hjv hne
    obtain ⟨a, rfl, ha⟩ := Blocklace.exists_stores hi
    obtain ⟨b, rfl, hb⟩ := Blocklace.exists_stores hj
    by_contra hnot
    push Not at hnot
    refine hinv.lace.chain a b ha hb ⟨hiv.trans hjv.symm, fun heq => hne (heq ▸ rfl), ?_, ?_⟩
    · exact fun hanc => hnot.1 ((hinv.lace.ancestor_iff hdistinct hb).1 hanc).2
    · exact fun hanc => hnot.2 ((hinv.lace.ancestor_iff hdistinct ha).1 hanc).2

end Main

/-- Two genesis blocks and a block of creator `1` on both. -/
def twoRounds : List Block :=
  [sampleBlock (sampleId 1 1) [], sampleBlock (sampleId 2 2) [],
    sampleBlock (sampleId 3 1) [sampleId 1 1, sampleId 2 2]]

/-- Validated blocks without a cycle, closed, and a chain for each creator. -/
theorem twoRounds_valid : (∀ b ∈ {b | b ∈ twoRounds}, b.InOrder (listedCrypto twoRounds) threeBonds) ∧
    (listedCrypto twoRounds).NoHashCycle {b | b ∈ twoRounds} ∧
    RefsClosed Block.refs Block.NamedBy {b | b ∈ twoRounds} ∧
    ∀ v, ChainIn {b | b ∈ twoRounds} v := by
  have horder : ∀ b ∈ twoRounds,
      b.identity.contentHash = (listedCrypto twoRounds).blockHash b.identity.creator b.content ∧
      b.identity.signature = [] ∧ b.identity.creator ∈ threeBonds.table := by decide +kernel
  have hlinked : ∀ a ∈ twoRounds, ∀ b ∈ twoRounds, a.identity.creator = b.identity.creator →
      a ≠ b → (∃ p ∈ b.refs, a.NamedBy p) ∨ ∃ p ∈ a.refs, b.NamedBy p := by decide +kernel
  refine ⟨fun b hb => ⟨(horder b hb).1, .inl (horder b hb).2.1, (horder b hb).2.2⟩,
    ⟨fun h => h.val, ?_⟩, ?_, fun v => chainIn_of_refersIn fun a ha b hb hav hbv hne =>
      hlinked a ha b hb (hav.trans hbv.symm) hne⟩
  · exact (by decide +kernel : ∀ b ∈ twoRounds, ∀ p ∈ b.content.predecessors,
      p.contentHash.val < ((listedCrypto twoRounds).blockHash b.identity.creator b.content).val)
  · exact (by decide +kernel : ∀ b ∈ twoRounds, ∀ p ∈ b.refs, ∃ c ∈ twoRounds, c.NamedBy p)

/-- The block of the second round comes first, and again after one of its references. -/
def childFirst : List Event :=
  [.receive (sampleBlock (sampleId 3 1) [sampleId 1 1, sampleId 2 2]),
    .receive (sampleBlock (sampleId 2 2) []), .retry,
    .receive (sampleBlock (sampleId 3 1) [sampleId 1 1, sampleId 2 2]),
    .receive (sampleBlock (sampleId 1 1) []), .retry]

/-- A node that is handed the child first ends with the three blocks. -/
theorem exactly_delivered_after_run_childFirst :
    (∀ b, ((new ⟨[1]⟩ threeBonds .default .default 0).run
        (listedCrypto twoRounds) childFirst).blocklace.Stores b ↔ b ∈ {b | b ∈ twoRounds}) ∧
      ((new ⟨[1]⟩ threeBonds .default .default 0).run
        (listedCrypto twoRounds) childFirst).pendingLen = 0 := by
  obtain ⟨horder, hcycle, hclosed, hchain⟩ := twoRounds_valid
  refine exactly_delivered_after_run horder hcycle hclosed ?_ (by decide) (by decide +kernel)
    hchain
  intro b
  have hreceived : (received childFirst).Perm
      (twoRounds ++ [sampleBlock (sampleId 3 1) [sampleId 1 1, sampleId 2 2]]) := by
    decide +kernel
  rw [hreceived.mem_iff]
  simp [twoRounds]

/-- Two genesis blocks, a second genesis block of creator `1` that refers to the
other creator only, and a block on it. -/
def forkedBlocks : List Block :=
  [sampleBlock (signedId 1 1) [], sampleBlock (signedId 2 3) [],
    sampleBlock (signedId 3 1) [signedId 2 3],
    sampleBlock (signedId 4 2) [signedId 3 1]]

/-- The last block comes first, and the second branch of creator `1` waits for
its reference before it is rejected. -/
def forkedDelivery : List Event :=
  [.receive (sampleBlock (signedId 4 2) [signedId 3 1]), .retry,
    .receive (sampleBlock (signedId 3 1) [signedId 2 3]), .retry,
    .receive (sampleBlock (signedId 1 1) []), .retry,
    .receive (sampleBlock (signedId 2 3) []), .retry]

/-- The two branches of creator `1` conflict. -/
theorem forkedBlocks_conflict :
    ConflictIn {b | b ∈ forkedBlocks} (sampleBlock (signedId 1 1) [])
      (sampleBlock (signedId 3 1) [signedId 2 3]) := by
  refine ⟨rfl, by decide, ?_, ?_⟩
  · have hbelow : ∀ x ∈ [sampleBlock (signedId 3 1) [signedId 2 3],
        sampleBlock (signedId 2 3) []], ∀ c ∈ forkedBlocks, (∃ p ∈ x.refs, c.NamedBy p) →
          c ∈ [sampleBlock (signedId 2 3) []] := by decide
    exact not_ancestor_of_below (by decide) hbelow
  · have hbelow : ∀ x ∈ [sampleBlock (signedId 1 1) []], ∀ c ∈ forkedBlocks,
        (∃ p ∈ x.refs, c.NamedBy p) → c ∈ ([] : List Block) := by decide
    exact not_ancestor_of_below (by decide) hbelow

/-- Creator `1` is the only one whose blocks are no chain. -/
theorem forkedBlocks_chainIn_iff (w : NodeId) :
    ¬ ChainIn {b | b ∈ forkedBlocks} w ↔ w = ⟨[1]⟩ := by
  constructor
  · intro h
    by_contra hw
    have hone : ∀ a ∈ forkedBlocks, ∀ b ∈ forkedBlocks,
        a.identity.creator = b.identity.creator → a.identity.creator ≠ ⟨[1]⟩ → a = b := by
      decide
    refine h fun a ha b hb haw hbw hne => ?_
    exact absurd (hone a ha b hb (haw.trans hbw.symm) (haw ▸ hw)) hne
  · rintro rfl hchain
    exact chainIn_iff.1 hchain _ (by decide) _ (by decide) rfl forkedBlocks_conflict

/-- The rejection of the waiting branch leaves evidence. -/
theorem equivocation_retained_forkedDelivery :
    ((new ⟨[2]⟩ threeBonds .default .default 0).run (listedCrypto forkedBlocks)
      forkedDelivery).hasEvidenceAgainst ⟨[1]⟩ = true ∧
    ((new ⟨[2]⟩ threeBonds .default .default 0).run (listedCrypto forkedBlocks)
      forkedDelivery).blocklace.Stores (sampleBlock (signedId 1 1) []) ∧
    ((new ⟨[2]⟩ threeBonds .default .default 0).run (listedCrypto forkedBlocks)
      forkedDelivery).blocklace.satisfiesChainAxiom ⟨[1]⟩ = true := by
  have horder : ∀ b ∈ forkedBlocks,
      b.identity.contentHash =
        (listedCrypto forkedBlocks).blockHash b.identity.creator b.content ∧
      b.identity.creator ∈ threeBonds.table := by decide +kernel
  have hcycle : ∀ b ∈ forkedBlocks, ∀ p ∈ b.content.predecessors, p.contentHash.val <
      ((listedCrypto forkedBlocks).blockHash b.identity.creator b.content).val := by decide +kernel
  have hclosed : ∀ b ∈ forkedBlocks, ∀ p ∈ b.refs, ∃ c ∈ forkedBlocks, c.NamedBy p := by
    decide +kernel
  have hreceived : (received forkedDelivery).Perm forkedBlocks := by decide +kernel
  have hdistinct : ∀ a ∈ forkedBlocks, ∀ b ∈ forkedBlocks,
      a.identity.consensusIdentity = b.identity.consensusIdentity → a = b := by decide +kernel
  have hrejected : ∀ r ∈ rejectedBlocks (listedCrypto forkedBlocks)
      (new ⟨[2]⟩ threeBonds .default .default 0) forkedDelivery,
      r = sampleBlock (signedId 3 1) [signedId 2 3] := by decide +kernel
  obtain ⟨hevidence, hstores, hchain⟩ := @equivocation_retained (listedCrypto forkedBlocks)
    threeBonds {b | b ∈ forkedBlocks}
    (fun b hb => ⟨(horder b hb).1, Or.inr rfl, (horder b hb).2⟩) ⟨fun h => h.val, hcycle⟩ hclosed
    ⟨[2]⟩ .default 0 forkedDelivery (fun _ => hreceived.mem_iff) (by decide) (by decide +kernel)
    hdistinct ⟨[1]⟩ forkedBlocks_chainIn_iff
  refine ⟨hevidence, hstores _ (by decide +kernel) fun r hr _ => ?_, hchain⟩
  obtain rfl := hrejected r hr
  exact ⟨by decide, forkedBlocks_conflict.2.2.2⟩

end SimNode

end CordialMiners
