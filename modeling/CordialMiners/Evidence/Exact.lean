/-
# Verification is exact

What `verify_equivocation_evidence` accepts, in terms of the references alone: at least
two blocks of the validator, hashed and signed, distinct by hash and creator, above
ancestors that are all stored and hashed, none above another, with the claimed round as
the least of their depths.  The depth of a block is the length of a longest path of
references down from it.

The walk through a history is a loop, and its run with fuel is what the loop computes
(`HistoryState.run_ends`).  It refuses a block that comes up in its own history.  Where
the blocklace is acyclic, such a block is not stored and has the hash and creator of a
block that is: it takes two contents of one hash.
-/

import CordialMiners.Collections.Permuted
import CordialMiners.Evidence.Verified
import CordialMiners.Graph.Greedy
import CordialMiners.Graph.LongestPath

namespace CordialMiners

open FinGraph Relation

variable {crypto : BlockCrypto} {B : Blocklace} {a b c x : Block} {q : BlockIdentity} {d e : ℕ}

/-! ### The loop ends -/

/-- What the loop computes: it ends with an empty stack or the error of a step. -/
inductive HistoryState.Ends (crypto : BlockCrypto) (B : Blocklace) :
    HistoryState → Except EvidenceVerificationError HistoryState → Prop
  | empty {s : HistoryState} (hs : s.stack = []) : Ends crypto B s (.ok s)
  | refused {s : HistoryState} {error : EvidenceVerificationError} (hs : s.stack ≠ [])
      (hstep : s.step crypto B = .error error) : Ends crypto B s (.error error)
  | step {s s' : HistoryState} {out : Except EvidenceVerificationError HistoryState}
      (hs : s.stack ≠ []) (hstep : s.step crypto B = .ok s') (hrest : Ends crypto B s' out) :
      Ends crypto B s out

/-- With fuel for the potential, the run is that of the loop. -/
theorem HistoryState.ends_of_potential_lt {s : HistoryState} {fuel : ℕ} (hnodes : s.OnNodes B x)
    (hfuel : s.potential B x < fuel) : Ends crypto B s (s.run crypto B fuel) := by
  induction fuel generalizing s with
  | zero => exact absurd hfuel (Nat.not_lt_zero _)
  | succ fuel ih =>
      rw [HistoryState.run]
      cases hs : s.stack with
      | nil => exact .empty hs
      | cons entry rest =>
          have hne : s.stack ≠ [] := by
            rw [hs]
            exact List.cons_ne_nil _ _
          cases hstep : s.step crypto B with
          | error error => exact .refused hne hstep
          | ok s' =>
              obtain ⟨hnodes', hlt⟩ := potential_lt hne hnodes hstep
              exact .step hne hstep (ih hnodes' (by omega))

/-- **The walk of every history ends**, within its fuel. -/
theorem HistoryState.run_ends (crypto : BlockCrypto) (B : Blocklace) (x : Block) :
    Ends crypto B ⟨[(x, false)], ∅, ∅, ∅⟩
      (run crypto B (historyFuel B x) ⟨[(x, false)], ∅, ∅, ∅⟩) := by
  refine ends_of_potential_lt (fun entry hentry => ?_) potential_start
  obtain rfl := List.mem_singleton.1 hentry
  exact mem_historyNodes.2 (.inl rfl)

/-! ### Depths -/

namespace Blocklace

/-- No stored block is its own ancestor. -/
def AcyclicRefs (B : Blocklace) : Prop := ∀ a, B.Stores a → ¬ TransGen B.Parent a a

/-- Everything that comes up in the history is stored, with a correct hash. -/
def CompleteHistory (crypto : BlockCrypto) (B : Blocklace) (c : Block) : Prop :=
  ∀ q, B.InHistory c q → ∃ a, B.get q = some a ∧ a.Hashed crypto

/-- The round in the history is the depth. -/
theorem HistoryRound.longestPath (h : HistoryRound crypto B c d) : LongestPath B.Parent c d := by
  induction h with
  | intro rd _ _ _ lt top ih =>
      refine LongestPath.of_successors (fun a ha => ⟨rd a, lt a ha, ih a ha⟩) (top.imp_right ?_)
      rintro ⟨a, ha, rfl⟩
      exact ⟨a, ha, rd a, ih a ha, rfl⟩

theorem HistoryRound.completeHistory (h : HistoryRound crypto B c d) :
    B.CompleteHistory crypto c := by
  rintro q ⟨a, ha, hq⟩
  obtain ⟨e, -, hround⟩ := h.of_reflTransGen ha
  obtain ⟨a', hget⟩ := hround.named hq
  obtain ⟨e', -, hround'⟩ := hround.parent ⟨q, hq, hget⟩
  exact ⟨a', hget, hround'.hashed⟩

theorem finite_parents (B : Blocklace) (c : Block) : {a | B.Parent c a}.Finite :=
  (historyNodes B c).finite_toSet.subset fun _ ha => mem_historyNodes.2 (.inr ha.stores)

/-- A block whose parents have rounds has one. -/
theorem exists_historyRound_of_parents (hc : c.Hashed crypto) (hcomplete : B.CompleteHistory crypto c)
    (hparents : ∀ a, B.Parent c a → ∃ e, HistoryRound crypto B a e) :
    ∃ d, HistoryRound crypto B c d := by
  choose! rd hrd using hparents
  obtain ⟨d, hlt, htop⟩ := exists_above (B.finite_parents c) rd
  refine ⟨d, .intro rd hc (fun q hq => ?_) hrd hlt htop⟩
  obtain ⟨a, hget, -⟩ := hcomplete q (.of_mem hq)
  exact ⟨a, hget⟩

theorem CompleteHistory.parent (h : B.CompleteHistory crypto c) (ha : B.Parent c a) :
    a.Hashed crypto ∧ B.CompleteHistory crypto a := by
  refine ⟨?_, fun q hq => h q (hq.of_parent ha)⟩
  obtain ⟨a', hget, hashed⟩ := h _ (.of_mem ha.mem)
  rw [ha.stores.get_consensusIdentity] at hget
  exact Option.some.inj hget ▸ hashed

/-- **On an acyclic blocklace a complete history has a round.** -/
theorem AcyclicRefs.exists_historyRound (h : B.AcyclicRefs) (hc : c.Hashed crypto)
    (hcomplete : B.CompleteHistory crypto c) : ∃ d, HistoryRound crypto B c d := by
  have hwf : WellFounded fun a b => B.Stores b ∧ B.Parent b a := by
    refine wellFounded_of_acyclic (S := {a | B.Stores a})
      ((historyNodes B c).finite_toSet.subset fun a ha => mem_historyNodes.2 (.inr ha))
      (fun a b hab => ⟨hab.2.stores, hab.1⟩) fun a haa => ?_
    have hmono : TransGen (fun a b => B.Stores b ∧ B.Parent b a) ≤
        TransGen (Function.swap B.Parent) := TransGen.mono fun _ _ hab => hab.2
    obtain ⟨b, hab, -⟩ := TransGen.head'_iff.1 haa
    exact h a hab.2.stores (transGen_swap.1 (hmono _ _ haa))
  have hstored : ∀ a, B.Stores a → a.Hashed crypto → B.CompleteHistory crypto a →
      ∃ e, HistoryRound crypto B a e := by
    intro a
    induction a using hwf.induction with
    | _ a ih =>
        intro ha hashed hall
        refine exists_historyRound_of_parents hashed hall fun b hb => ?_
        obtain ⟨hbashed, hball⟩ := hall.parent hb
        exact ih b ⟨ha, hb⟩ hb.stores hbashed hball
  refine exists_historyRound_of_parents hc hcomplete fun a ha => ?_
  obtain ⟨hashed, hall⟩ := hcomplete.parent ha
  exact hstored a ha.stores hashed hall

/-- Only a collision of hashes leads a hashed block back to itself. -/
theorem AcyclicRefs.not_inHistory_self (h : B.AcyclicRefs)
    (hfree : crypto.CollisionFree {b | B.Stores b ∨ b = c}) (hc : c.Hashed crypto)
    (hcomplete : B.CompleteHistory crypto c) : ¬ B.InHistory c c.identity.consensusIdentity := by
  intro hself
  obtain ⟨a, hget, hashed⟩ := hcomplete _ hself
  have ha := stores_of_get hget
  have hcons : a.identity.consensusIdentity = c.identity.consensusIdentity := by
    have hname := consensusIdentity_of_get hget
    exact hname
  have hcontent := (BlockIdentity.consensusIdentity_eq_iff.1 hcons).1
  obtain ⟨-, -, hrefs⟩ := hfree a (.inl ha) c (.inr rfl) (by rw [← hashed, ← hc, hcontent])
  -- the stored block has the same references, and is in its own history
  obtain ⟨b, hab, hb⟩ := (inHistory_congr hrefs).2 hself
  exact h a ha (TransGen.tail' hab (ha.parent (hcons ▸ hb)))

end Blocklace

/-! ### What is accepted -/

/-- **An equivocation**, in terms of the references of the blocks. -/
structure AuthenticEquivocation (crypto : BlockCrypto) (B : Blocklace) (raw : CordialEquivocationEvidence) :
    Prop where
  many : 2 ≤ raw.blocks.length
  authentic : ∀ b ∈ raw.blocks,
    b.identity.creator = raw.validator ∧ b.Hashed crypto ∧ b.Signed crypto
  distinct : (raw.blocks.map fun b => b.identity.consensusIdentity).Nodup
  complete : ∀ b ∈ raw.blocks, B.CompleteHistory crypto b
  incomparable : raw.blocks.Pairwise fun left right =>
    ¬ B.InHistory left right.identity.consensusIdentity ∧
      ¬ B.InHistory right left.identity.consensusIdentity
  round : IsLeast {d | ∃ b ∈ raw.blocks, LongestPath B.Parent b d} raw.round

variable {raw : CordialEquivocationEvidence}

/-- A conflict is an equivocation none of whose blocks is in its own history. -/
theorem conflict_iff_equivocation (hacyclic : B.AcyclicRefs) :
    Conflict crypto B raw.validator raw.round raw.blocks ↔
      AuthenticEquivocation crypto B raw ∧
        ∀ b ∈ raw.blocks, ¬ B.InHistory b b.identity.consensusIdentity := by
  constructor
  · intro h
    refine ⟨⟨h.many, fun b hb => ?_, h.distinct, fun b hb => ?_, h.incomparable, ?_, ?_⟩,
      fun b hb => (h.history b hb).1⟩
    · obtain ⟨-, d, -, hround⟩ := h.history b hb
      exact ⟨h.creator b hb, hround.hashed, h.signed b hb⟩
    · obtain ⟨-, d, -, hround⟩ := h.history b hb
      exact hround.completeHistory
    · obtain ⟨b, hb, hround⟩ := h.earliest
      exact ⟨b, hb, hround.longestPath⟩
    · rintro e ⟨b, hb, hpath⟩
      obtain ⟨-, d, hd, hround⟩ := h.history b hb
      exact (hround.longestPath.unique hpath) ▸ hd
  · rintro ⟨h, hself⟩
    have hround : ∀ b ∈ raw.blocks, ∃ d, Blocklace.HistoryRound crypto B b d := fun b hb =>
      hacyclic.exists_historyRound (h.authentic b hb).2.1 (h.complete b hb)
    refine ⟨h.many, fun b hb => (h.authentic b hb).1, fun b hb => (h.authentic b hb).2.2,
      fun b hb => ⟨hself b hb, ?_⟩, h.distinct, ?_, h.incomparable⟩
    · obtain ⟨d, hd⟩ := hround b hb
      exact ⟨d, h.round.2 ⟨b, hb, hd.longestPath⟩, hd⟩
    · obtain ⟨b, hb, hpath⟩ := h.round.1
      obtain ⟨d, hd⟩ := hround b hb
      exact ⟨b, hb, hd.longestPath.unique hpath ▸ hd⟩

/-- Blocks that are distinct by hash and creator are sorted to one list. -/
theorem sorted_eq_of_perm {blocks blocks' : List Block} (hperm : blocks.Perm blocks')
    (hdistinct : (blocks.map fun b => b.identity.consensusIdentity).Nodup) :
    (blocks.insertionSort fun left right => left.identity ≤ right.identity) =
      blocks'.insertionSort fun left right => left.identity ≤ right.identity := by
  refine Permuted.insertionSort_eq_of_perm Block.identity hperm fun a ha b hb heq => ?_
  exact List.inj_on_of_nodup_map hdistinct ha hb (congrArg BlockIdentity.consensusIdentity heq)

/-- Neither acceptance nor the result depends on the order of the blocks. -/
theorem verify_perm {blocks : List Block} (hperm : raw.blocks.Perm blocks) :
    ∀ verified, verifyEquivocationEvidence crypto raw B = .ok verified ↔
      verifyEquivocationEvidence crypto { raw with blocks := blocks } B = .ok verified := by
  have hsub : ∀ (raw : CordialEquivocationEvidence) (blocks : List Block) verified,
      raw.blocks.Perm blocks → verifyEquivocationEvidence crypto raw B = .ok verified →
        verifyEquivocationEvidence crypto { raw with blocks := blocks } B = .ok verified := by
    intro raw blocks verified hperm h
    obtain ⟨hconflict, rfl⟩ := verify_eq_ok.1 h
    refine verify_eq_ok.2 ⟨hconflict.perm hperm, ?_⟩
    rw [sorted_eq_of_perm hperm hconflict.distinct]
  intro verified
  exact ⟨hsub raw blocks verified hperm,
    hsub { raw with blocks := blocks } raw.blocks verified hperm.symm⟩

/-- **Verification is exact.**  The walks end; on an acyclic blocklace evidence is accepted
exactly where it is an equivocation; and neither acceptance nor the result depends on the
order of the blocks. -/
theorem verify_equivocation_exact (hacyclic : B.AcyclicRefs)
    (hfree : crypto.CollisionFree {b | B.Stores b ∨ b ∈ raw.blocks}) :
    (∀ block, HistoryState.Ends crypto B ⟨[(block, false)], ∅, ∅, ∅⟩
      (HistoryState.run crypto B (historyFuel B block) ⟨[(block, false)], ∅, ∅, ∅⟩)) ∧
    ((∃ verified, verifyEquivocationEvidence crypto raw B = .ok verified) ↔
      AuthenticEquivocation crypto B raw) ∧
    ∀ blocks, raw.blocks.Perm blocks → ∀ verified,
      verifyEquivocationEvidence crypto raw B = .ok verified ↔
        verifyEquivocationEvidence crypto { raw with blocks := blocks } B = .ok verified := by
  refine ⟨HistoryState.run_ends crypto B, ?_, fun blocks hperm => verify_perm hperm⟩
  constructor
  · rintro ⟨verified, h⟩
    exact ((conflict_iff_equivocation hacyclic).1 (verify_eq_ok.1 h).1).1
  · intro h
    refine ⟨_, verify_eq_ok.2 ⟨(conflict_iff_equivocation hacyclic).2 ⟨h, fun b hb => ?_⟩, rfl⟩⟩
    have hsub : ∀ a, B.Stores a ∨ a = b → B.Stores a ∨ a ∈ raw.blocks := by
      rintro a (ha | rfl)
      · exact .inl ha
      · exact .inr hb
    exact hacyclic.not_inHistory_self (fun a ha a' ha' => hfree a (hsub a ha) a' (hsub a' ha'))
      (h.authentic b hb).2.1 (h.complete b hb)

open Blocklace (signedId sampleBlock listedCrypto)

/-- The claim that the two first blocks of creator `1` conflict. -/
def forkClaim : CordialEquivocationEvidence :=
  ⟨⟨[1]⟩, 0, [sampleBlock (signedId 1 1) [], forkBlock]⟩

theorem verify_equivocation_exact_forkClaim :
    AuthenticEquivocation (listedCrypto (historyNodes forkBase forkBlock)) forkBase forkClaim := by
  have hstored : ∀ c ∈ historyNodes forkBase forkBlock, c = forkBlock ∨ c.consensusRefs = [] := by
    decide +kernel
  have hnew : forkBlock.identity ∉ forkBase.blocks := by decide +kernel
  have hacyclic : forkBase.AcyclicRefs := by
    intro a ha haa
    obtain ⟨b, hab, -⟩ := TransGen.head'_iff.1 haa
    rcases hstored a (mem_historyNodes.2 (.inr ha)) with rfl | hnil
    · exact hnew ha.mem
    · exact absurd (hnil ▸ hab.mem) List.not_mem_nil
  have hfree : ∀ a ∈ historyNodes forkBase forkBlock, ∀ b ∈ historyNodes forkBase forkBlock,
      (listedCrypto (historyNodes forkBase forkBlock)).blockHash a.identity.creator a.content =
        (listedCrypto (historyNodes forkBase forkBlock)).blockHash b.identity.creator b.content →
      a.identity.creator = b.identity.creator ∧ a.content.payload = b.content.payload ∧
        a.consensusRefs = b.consensusRefs := by decide +kernel
  have hnodes : ∀ b ∈ forkClaim.blocks, b ∈ historyNodes forkBase forkBlock := by decide +kernel
  refine (verify_equivocation_exact hacyclic fun a ha b hb heq => ?_).2.1.1
    (Codec.exists_eq_ok_of_isOk (by decide +kernel))
  have hmem : ∀ c, forkBase.Stores c ∨ c ∈ forkClaim.blocks → c ∈ historyNodes forkBase forkBlock := by
    rintro c (hc | hc)
    · exact mem_historyNodes.2 (.inr hc)
    · exact hnodes c hc
  obtain ⟨hcreator, hpayload, hrefs⟩ := hfree a (hmem a ha) b (hmem b hb) heq
  exact ⟨hcreator, hpayload, fun q => by rw [hrefs]⟩

end CordialMiners
