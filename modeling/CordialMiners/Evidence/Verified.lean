/-
# Verifying equivocation evidence

`verify_equivocation_evidence` of `consensus/verified_evidence.rs`.

Evidence is a claim until it is verified: every block is hashed and signed by the
validator, no two have one hash and creator, the round is the earliest of theirs,
and none is an ancestor of another.  Hash and creator decide what an ancestor is;
validation, which reports an equivocation, compares whole identities.  The two
agree on a reported block, in every order of the stored blocks, exactly when no
signature variant of it is a conflicting block or is below one
(`recorded_evidence_verified_iff`).
-/

import CordialMiners.Evidence.Pool
import CordialMiners.Evidence.History
import CordialMiners.Codec.Reader

namespace CordialMiners

open FinGraph Relation
open Codec (map_eq_ok bind_eq_ok)

/-- Authenticated conflicting blocks. -/
structure VerifiedEquivocationEvidence where
  validator : NodeId
  round : ℕ
  blocks : List Block
deriving DecidableEq, Repr

/-- Check the blocks one by one; the history of each. -/
def checkBlocks (crypto : BlockCrypto) (validator : NodeId) (B : Blocklace) :
    List Block → Finset BlockIdentity →
      Except EvidenceVerificationError (List (ℕ × Finset BlockIdentity))
  | [], _ => .ok []
  | block :: blocks, identities =>
      if block.identity.creator ≠ validator then .error .wrongCreator
      else if crypto.blockHash block.identity.creator block.content ≠
          block.identity.contentHash then .error .invalidHash
      else if !crypto.verify block.identity.contentHash validator.bytes block.identity.signature then
        .error .invalidSignature
      else if block.identity.consensusIdentity ∈ identities then .error .duplicateBlock
      else
        (completeHistory crypto block B).bind fun history =>
          (checkBlocks crypto validator B blocks
            (insert block.identity.consensusIdentity identities)).map (history :: ·)

/-- `verify_equivocation_evidence`. -/
def verifyEquivocationEvidence (crypto : BlockCrypto) (raw : CordialEquivocationEvidence)
    (B : Blocklace) : Except EvidenceVerificationError VerifiedEquivocationEvidence :=
  if raw.blocks.length < 2 then .error .tooFewBlocks
  else
    (checkBlocks crypto raw.validator B raw.blocks ∅).bind fun histories =>
      if (histories.map Prod.fst).min? ≠ some raw.round then .error .wrongRound
      else if (raw.blocks.zip histories).Pairwise fun left right =>
          right.1.identity.consensusIdentity ∉ left.2.2 ∧
            left.1.identity.consensusIdentity ∉ right.2.2 then
        .ok ⟨raw.validator, raw.round,
          raw.blocks.insertionSort fun left right => left.identity ≤ right.identity⟩
      else .error .comparableBlocks

variable {crypto : BlockCrypto} {B : Blocklace} {block u w : Block} {bonds : Bonds} {v : NodeId}
  {rank : ContentHash → ℕ}

/-- **A verified conflict:** at least two blocks, of the validator and signed by it,
distinct by hash and creator, with complete histories of which `round` is the
earliest, none in the history of another. -/
structure Conflict (crypto : BlockCrypto) (B : Blocklace) (validator : NodeId) (round : ℕ)
    (blocks : List Block) : Prop where
  many : 2 ≤ blocks.length
  creator : ∀ b ∈ blocks, b.identity.creator = validator
  signed : ∀ b ∈ blocks, b.Signed crypto
  history : ∀ b ∈ blocks, ¬ B.InHistory b b.identity.consensusIdentity ∧
    ∃ d ≥ round, Blocklace.HistoryRound crypto B b d
  distinct : (blocks.map fun b => b.identity.consensusIdentity).Nodup
  earliest : ∃ b ∈ blocks, Blocklace.HistoryRound crypto B b round
  incomparable : blocks.Pairwise fun left right =>
    ¬ B.InHistory left right.identity.consensusIdentity ∧
      ¬ B.InHistory right left.identity.consensusIdentity

/-- The loop over the blocks succeeds where every block passes its checks. -/
theorem checkBlocks_eq_ok {blocks : List Block} {identities : Finset BlockIdentity}
    {histories : List (ℕ × Finset BlockIdentity)} :
    checkBlocks crypto v B blocks identities = .ok histories ↔
      (∀ b ∈ blocks, b.identity.creator = v ∧ b.Hashed crypto ∧ b.Signed crypto ∧
        b.identity.consensusIdentity ∉ identities) ∧
      (blocks.map fun b => b.identity.consensusIdentity).Nodup ∧
      List.Forall₂ (fun b history => completeHistory crypto b B = .ok history) blocks histories := by
  induction blocks generalizing identities histories with
  | nil => simp [checkBlocks, eq_comm]
  | cons b blocks ih =>
      have hhead : ∀ {P : Prop}, ((∀ b' ∈ b :: blocks, b'.identity.creator = v ∧
          b'.Hashed crypto ∧ b'.Signed crypto ∧
          b'.identity.consensusIdentity ∉ identities) ∧ P) → b.identity.creator = v ∧
          b.Hashed crypto ∧ b.Signed crypto ∧ b.identity.consensusIdentity ∉ identities :=
        fun h => h.1 b (by simp)
      unfold checkBlocks
      split_ifs with hcreator hhash hverify hmem
      · exact iff_of_false (by simp) fun h => hcreator (hhead h).1
      · exact iff_of_false (by simp) fun h => hhash (hhead h).2.1.symm
      · refine iff_of_false (by simp) fun h => ?_
        obtain ⟨rfl, -, hsigned, -⟩ := hhead h
        rw [Block.Signed] at hsigned
        simp [hsigned] at hverify
      · exact iff_of_false (by simp) fun h => (hhead h).2.2.2 hmem
      · have hchecks : b.identity.creator = v ∧ b.Hashed crypto ∧ b.Signed crypto ∧
            b.identity.consensusIdentity ∉ identities := by
          obtain rfl := not_not.1 hcreator
          exact ⟨rfl, (not_not.1 hhash).symm, by simpa [Block.Signed] using hverify, hmem⟩
        rw [List.forall_mem_cons, and_iff_right hchecks, List.map_cons, List.nodup_cons,
          List.forall₂_cons_left_iff]
        constructor
        · intro h
          obtain ⟨history, hhistory, h⟩ := bind_eq_ok.1 h
          obtain ⟨rest, hrest, rfl⟩ := map_eq_ok.1 h
          obtain ⟨hall, hnodup, hforall⟩ := ih.1 hrest
          refine ⟨fun b' hb' => ?_, ⟨?_, hnodup⟩, history, rest, hhistory, hforall, rfl⟩
          · obtain ⟨h₁, h₂, h₃, h₄⟩ := hall b' hb'
            exact ⟨h₁, h₂, h₃, fun h => h₄ (Finset.mem_insert_of_mem h)⟩
          · rintro hb
            obtain ⟨b', hb', heq⟩ := List.mem_map.1 hb
            exact (hall b' hb').2.2.2 (heq ▸ Finset.mem_insert_self _ _)
        · rintro ⟨hall, ⟨hnew, hnodup⟩, history, rest, hhistory, hforall, rfl⟩
          have hrest : checkBlocks crypto v B blocks
              (insert b.identity.consensusIdentity identities) = .ok rest := by
            refine ih.2 ⟨fun b' hb' => ?_, hnodup, hforall⟩
            obtain ⟨h₁, h₂, h₃, h₄⟩ := hall b' hb'
            refine ⟨h₁, h₂, h₃, fun h => ?_⟩
            obtain heq | h := Finset.mem_insert.1 h
            · exact hnew (List.mem_map.2 ⟨b', hb', heq⟩)
            · exact h₄ h
          rw [hhistory]
          simp only [Except.bind, hrest, Except.map]

/-- What `completeHistory` finds, where it finds something. -/
def historyOf (crypto : BlockCrypto) (B : Blocklace) (b : Block) : ℕ × Finset BlockIdentity :=
  (completeHistory crypto b B).toOption.getD (0, ∅)

theorem forall₂_completeHistory_iff {blocks : List Block}
    {histories : List (ℕ × Finset BlockIdentity)} :
    List.Forall₂ (fun b history => completeHistory crypto b B = .ok history) blocks histories ↔
      histories = blocks.map (historyOf crypto B) ∧
        ∀ b ∈ blocks, completeHistory crypto b B = .ok (historyOf crypto B b) := by
  have hof : ∀ {b history}, completeHistory crypto b B = .ok history →
      historyOf crypto B b = history := fun h => by simp [historyOf, h, Except.toOption]
  constructor
  · intro h
    induction h with
    | nil => simp
    | cons hb _ ih =>
        rw [List.map_cons, hof hb, ← ih.1]
        exact ⟨rfl, List.forall_mem_cons.2 ⟨by rw [hof hb, hb], ih.2⟩⟩
  · rintro ⟨rfl, h⟩
    exact List.forall₂_map_right_iff.2 (List.forall₂_same.2 h)

/-- **What verification accepts**, and what it makes of it. -/
theorem verify_eq_ok {raw : CordialEquivocationEvidence}
    {verified : VerifiedEquivocationEvidence} :
    verifyEquivocationEvidence crypto raw B = .ok verified ↔
      Conflict crypto B raw.validator raw.round raw.blocks ∧
        verified = ⟨raw.validator, raw.round,
          raw.blocks.insertionSort fun left right => left.identity ≤ right.identity⟩ := by
  have hspec : ∀ b, completeHistory crypto b B = .ok (historyOf crypto B b) →
      Blocklace.HistoryRound crypto B b (historyOf crypto B b).1 ∧
        ¬ B.InHistory b b.identity.consensusIdentity ∧
        ∀ q, q ∈ (historyOf crypto B b).2 ↔ B.InHistory b q := fun b h =>
    completeHistory_eq_ok.1 h
  have hpair : (∀ b ∈ raw.blocks, completeHistory crypto b B = .ok (historyOf crypto B b)) →
      (((raw.blocks.zip (raw.blocks.map (historyOf crypto B))).Pairwise fun left right =>
        right.1.identity.consensusIdentity ∉ left.2.2 ∧
          left.1.identity.consensusIdentity ∉ right.2.2) ↔
      raw.blocks.Pairwise fun left right => ¬ B.InHistory left right.identity.consensusIdentity ∧
        ¬ B.InHistory right left.identity.consensusIdentity) := by
    intro hall
    rw [← List.map_prod_left_eq_zip, List.pairwise_map]
    refine List.Pairwise.iff_of_mem fun {left right} hleft hright => ?_
    rw [(hspec left (hall left hleft)).2.2, (hspec right (hall right hright)).2.2]
  have hmin : (∀ b ∈ raw.blocks, completeHistory crypto b B = .ok (historyOf crypto B b)) →
      (((raw.blocks.map (historyOf crypto B)).map Prod.fst).min? = some raw.round ↔
        (∃ b ∈ raw.blocks, Blocklace.HistoryRound crypto B b raw.round) ∧
          ∀ b ∈ raw.blocks, ∃ d ≥ raw.round, Blocklace.HistoryRound crypto B b d) := by
    intro hall
    simp only [List.min?_eq_some_iff, List.mem_map, exists_exists_and_eq_and,
      forall_exists_index, and_imp, forall_apply_eq_imp_iff₂]
    refine and_congr ⟨?_, ?_⟩ ⟨fun h b hb => ?_, fun h b hb => ?_⟩
    · rintro ⟨b, hb, hround⟩
      exact ⟨b, hb, hround ▸ (hspec b (hall b hb)).1⟩
    · rintro ⟨b, hb, hround⟩
      exact ⟨b, hb, (hspec b (hall b hb)).1.unique hround⟩
    · exact ⟨_, h b hb, (hspec b (hall b hb)).1⟩
    · obtain ⟨d, hd, hround⟩ := h b hb
      rwa [(hspec b (hall b hb)).1.unique hround]
  constructor
  · intro h
    unfold verifyEquivocationEvidence at h
    split_ifs at h with hshort
    obtain ⟨histories, hcheck, h⟩ := bind_eq_ok.1 h
    obtain ⟨hchecks, hnodup, hforall⟩ := checkBlocks_eq_ok.1 hcheck
    obtain ⟨rfl, hall⟩ := forall₂_completeHistory_iff.1 hforall
    split_ifs at h with hround hinc
    obtain ⟨hearliest, hrounds⟩ := (hmin hall).1 (not_not.1 hround)
    refine ⟨⟨by omega, fun b hb => (hchecks b hb).1, fun b hb => (hchecks b hb).2.2.1,
      fun b hb => ⟨(hspec b (hall b hb)).2.1, hrounds b hb⟩, hnodup, hearliest,
      (hpair hall).1 hinc⟩, (Except.ok.inj h).symm⟩
  · rintro ⟨h, rfl⟩
    have hall : ∀ b ∈ raw.blocks, completeHistory crypto b B = .ok (historyOf crypto B b) := by
      intro b hb
      obtain ⟨hself, d, -, hround⟩ := h.history b hb
      obtain ⟨ancestors, heq, -⟩ := hround.exists_completeHistory hself
      simp [historyOf, heq, Except.toOption]
    have hcheck : checkBlocks crypto raw.validator B raw.blocks ∅ =
        .ok (raw.blocks.map (historyOf crypto B)) :=
      checkBlocks_eq_ok.2 ⟨fun b hb => ⟨h.creator b hb, (hspec b (hall b hb)).1.hashed,
        h.signed b hb, Finset.notMem_empty _⟩, h.distinct,
        forall₂_completeHistory_iff.2 ⟨rfl, hall⟩⟩
    have hround := (hmin hall).2 ⟨h.earliest, fun b hb => (h.history b hb).2⟩
    have hinc := (hpair hall).2 h.incomparable
    have hmany : ¬ raw.blocks.length < 2 := by have := h.many; omega
    unfold verifyEquivocationEvidence
    rw [if_neg hmany, hcheck]
    simp only [Except.bind, hround, hinc, ne_eq, not_true_eq_false, if_false, if_true]

/-- A conflict does not depend on the order of its blocks. -/
theorem Conflict.perm {round : ℕ} {blocks blocks' : List Block}
    (h : Conflict crypto B v round blocks) (hperm : blocks.Perm blocks') :
    Conflict crypto B v round blocks' where
  many := hperm.length_eq ▸ h.many
  creator b hb := h.creator b (hperm.mem_iff.2 hb)
  signed b hb := h.signed b (hperm.mem_iff.2 hb)
  history b hb := h.history b (hperm.mem_iff.2 hb)
  distinct := (hperm.map _).nodup_iff.1 h.distinct
  earliest := by
    obtain ⟨b, hb, hround⟩ := h.earliest
    exact ⟨b, hperm.mem_iff.1 hb, hround⟩
  incomparable := h.incomparable.perm hperm fun hab => ⟨hab.2, hab.1⟩

/-- **When a pair is accepted:** the two differ in hash or creator and neither is
below the other. -/
theorem verify_pair_iff {blocks : List Block} (hperm : blocks.Perm [u, w])
    (hu : Walkable crypto B u rank) (hw : Walkable crypto B w rank)
    (husigned : u.Signed crypto) (hwsigned : w.Signed crypto) (hucreator : u.identity.creator = v)
    (hwcreator : w.identity.creator = v) {d e : ℕ} (hd : B.CandidateRound u.content d)
    (he : B.CandidateRound w.content e) :
    (∃ verified, verifyEquivocationEvidence crypto ⟨v, min d e, blocks⟩ B = .ok verified) ↔
      u.identity.consensusIdentity ≠ w.identity.consensusIdentity ∧
        ¬ B.Under u w.identity.consensusIdentity ∧ ¬ B.Under w u.identity.consensusIdentity := by
  obtain ⟨d', hud, hd'⟩ := hu.exists_historyRound (mem_historyNodes.2 (Or.inl rfl))
  obtain ⟨e', hwe, he'⟩ := hw.exists_historyRound (mem_historyNodes.2 (Or.inl rfl))
  obtain rfl := hd.unique hd'
  obtain rfl := he.unique he'
  rw [← hu.inHistory_iff_under, ← hw.inHistory_iff_under]
  constructor
  · rintro ⟨verified, hverified⟩
    have hconflict := (verify_eq_ok.1 hverified).1.perm hperm
    have hdistinct := hconflict.distinct
    have hincomparable := List.pairwise_pair.1 hconflict.incomparable
    simp only [List.map_cons, List.map_nil, List.nodup_cons, List.mem_singleton] at hdistinct
    exact ⟨hdistinct.1, hincomparable⟩
  · rintro ⟨hne, hinc⟩
    refine ⟨_, verify_eq_ok.2 ⟨Conflict.perm ?_ hperm.symm, rfl⟩⟩
    refine ⟨le_rfl, by simp [hucreator, hwcreator], by simp [husigned, hwsigned], ?_, by simp [hne],
      ?_, List.pairwise_pair.2 hinc⟩
    · simp only [List.mem_cons, List.not_mem_nil, or_false, forall_eq_or_imp, forall_eq]
      exact ⟨⟨hu.not_inHistory_self, d, by simp, hud⟩, hw.not_inHistory_self, e, by simp, hwe⟩
    · obtain hmin | hmin := min_choice d e
      · exact ⟨u, by simp, by rwa [hmin]⟩
      · exact ⟨w, by simp, by rwa [hmin]⟩

/-- What is strictly below a stored block. -/
theorem Blocklace.under_iff_below (hcheckpoint : B.checkpoint = none) (hu : B.Stores u)
    {q : BlockIdentity} :
    B.Under u q ↔ ∃ y, B.Below y u.identity ∧ y.consensusIdentity = q := by
  have hexp := expand_of_lookup hu (by simp [hcheckpoint])
  constructor
  · rintro ⟨p, hp, r, hr, y, hry, rfl⟩
    have hstep : r ∈ B.expand u.identity := hexp ▸ List.mem_filterMap.2 ⟨p, hp, hr⟩
    exact ⟨y, TransGen.head' hstep hry, rfl⟩
  · rintro ⟨y, hbelow, rfl⟩
    obtain ⟨r, hstep, hry⟩ := TransGen.head'_iff.1 hbelow
    have hmem : r ∈ B.expand u.identity := hstep
    rw [hexp] at hmem
    obtain ⟨p, hp, hr⟩ := List.mem_filterMap.1 hmem
    exact ⟨p, hp, r, hr, y, hry, rfl⟩

namespace Blocklace

/-- The same blocks, iterated in some other order. -/
structure OtherOrder (B B' : Blocklace) : Prop where
  entries : B'.blocks.entries.Perm B.blocks.entries
  checkpoint : B'.checkpoint = B.checkpoint

/-- The evidence that a rejected block leaves. -/
def recorded (crypto : BlockCrypto) (bonds : Bonds) (B : Blocklace) (block : Block) :
    CordialEvidencePool :=
  (B.recordRejectedEquivocation block (B.validateBlock crypto block bonds .default).errors .new).2

/-- A rejected block leaves evidence, and the verifier accepts all of it. -/
def RecordedVerified (crypto : BlockCrypto) (bonds : Bonds) (B : Blocklace) (block : Block) : Prop :=
  (∃ evidence, evidence ∈ (B.recorded crypto bonds block).evidenceFor block.identity.creator) ∧
    ∀ v, ∀ evidence ∈ (B.recorded crypto bonds block).evidenceFor v,
      ∃ verified, verifyEquivocationEvidence crypto evidence B = .ok verified

namespace OtherOrder

variable {B' : Blocklace} {c : Block} (h : B.OtherOrder B')

include h

theorem lookup_eq (x : BlockIdentity) : B'.blocks.lookup x = B.blocks.lookup x :=
  AList.perm_lookup h.entries

theorem stores_iff : B'.Stores c ↔ B.Stores c := by
  unfold Stores
  rw [h.lookup_eq]

theorem reordered : B.Reordered B' where
  extends_ a c hc := ⟨c, (h.lookup_eq a).trans hc, fun _ => Iff.rfl⟩
  extended a c hc := ⟨c, (h.lookup_eq a).symm.trans hc, fun _ => Iff.rfl⟩
  checkpoint := h.checkpoint

theorem isClosed_eq : B'.isClosed = B.isClosed := by
  rw [Bool.eq_iff_iff, isClosed_iff, isClosed_iff]
  simp only [h.lookup_eq, h.checkpoint, h.reordered.resolveIdentity_eq]

theorem available_iff :
    Available Block.refs B'.Resolves block ↔ Available Block.refs B.Resolves block := by
  unfold Available Resolves
  simp only [h.reordered.resolveIdentity_eq]

theorem mem_historyNodes_iff : c ∈ historyNodes B' block ↔ c ∈ historyNodes B block := by
  rw [mem_historyNodes, mem_historyNodes, h.stores_iff]

theorem conflictsWith_eq (hc : B.Stores c) : B'.conflictsWith block c = B.conflictsWith block c := by
  have hcomparable : B'.Comparable block c.identity ↔ B.Comparable block c.identity := by
    unfold Comparable
    simp only [h.reordered.resolveIdentity_eq, h.reordered.below_iff hc.mem]
    refine or_congr_left (exists_congr fun p => and_congr_right fun _ => exists_congr fun r =>
      and_congr_right fun hr => h.reordered.sees_iff (resolveIdentity_mem hr))
  rw [Bool.eq_iff_iff, conflictsWith_iff hc, conflictsWith_iff (h.stores_iff.2 hc), hcomparable]

/-- Every order finds a conflict where one does. -/
theorem exists_find? {existing : Block}
    (hfind : (B.blocksBy block.identity.creator).find? (B.conflictsWith block) = some existing) :
    ∃ held, (B'.blocksBy block.identity.creator).find? (B'.conflictsWith block) = some held := by
  obtain ⟨hst, hcreator⟩ := mem_blocksBy_iff.1 (List.mem_of_find?_eq_some hfind)
  rw [← Option.isSome_iff_exists, List.find?_isSome]
  refine ⟨existing, mem_blocksBy_iff.2 ⟨h.stores_iff.2 hst, hcreator⟩, ?_⟩
  rw [h.conflictsWith_eq hst]
  exact List.find?_some hfind

end OtherOrder

/-- Any conflicting block is the first one in some order. -/
theorem exists_otherOrder_find? {held : Block} (hst : B.Stores held)
    (hcreator : held.identity.creator = block.identity.creator)
    (hconf : B.conflictsWith block held = true) :
    ∃ B', B.OtherOrder B' ∧
      (B'.blocksBy block.identity.creator).find? (B'.conflictsWith block) = some held := by
  have hvariant : B.conflictingIdentityVariant held.identity = none := if_pos hst.mem
  let B' : Blocklace :=
    { B with
      blocks := B.blocks.insert held.identity held.content
      variantNodup := B.variantNodup_insert held.content hvariant }
  have hentries : B'.blocks.entries.Perm B.blocks.entries := by
    refine List.lookup_ext B'.blocks.nodupKeys B.blocks.nodupKeys fun x c => ?_
    show c ∈ B'.blocks.lookup x ↔ c ∈ B.blocks.lookup x
    by_cases hx : x = held.identity
    · subst hx
      rw [AList.lookup_insert, show B.blocks.lookup held.identity = some held.content from hst]
    · rw [AList.lookup_insert_ne hx]
  have hsame : B.OtherOrder B' := ⟨hentries, rfl⟩
  refine ⟨B', hsame, ?_⟩
  unfold blocksBy
  rw [show B'.blocks.entries = ⟨held.identity, held.content⟩ ::
      B.blocks.entries.kerase held.identity from AList.entries_insert,
    List.filter_cons_of_pos (by simpa using hcreator), List.map_cons,
    List.find?_cons_of_pos (by rw [hsame.conflictsWith_eq hst, hconf])]

end Blocklace

section Detector

variable (hclosed : B.isClosed = true) (hcheckpoint : B.checkpoint = none)
  (hblocks : ∀ c, B.Stores c → c.Hashed crypto ∧ c.Signed crypto) (hhashed : block.Hashed crypto)
  (hsigned : block.Signed crypto)
  (hcycle : crypto.NoHashCycle {c | c ∈ historyNodes B block})

include hclosed hcheckpoint hblocks hhashed hcycle

/-- The walks from the block and from every stored block find their way. -/
theorem exists_walkable (hav : Available Block.refs B.Resolves block) :
    ∃ rank, ∀ x ∈ historyNodes B block, Walkable crypto B x rank := by
  obtain ⟨rank, hrank⟩ := hcycle
  have hnodes : ∀ x ∈ historyNodes B block, ∀ c ∈ historyNodes B x, c ∈ historyNodes B block := by
    intro x hx c hc
    obtain rfl | hc := mem_historyNodes.1 hc
    · exact hx
    · exact mem_historyNodes.2 (Or.inr hc)
  have hhash : ∀ c ∈ historyNodes B block, c.Hashed crypto := by
    intro c hc
    obtain rfl | hc := mem_historyNodes.1 hc
    · exact hhashed
    · exact (hblocks c hc).1
  refine ⟨rank, fun x hx => ⟨fun c hc => hhash c (hnodes x hx c hc), fun c hc => ?_,
    fun c hc p hp => ?_, hcheckpoint⟩⟩
  · obtain rfl | hc := mem_historyNodes.1 (hnodes x hx c hc)
    · exact hav
    · exact Blocklace.isClosed_iff.1 hclosed c.identity c.content hc (by simp [hcheckpoint])
  · rw [hhash c (hnodes x hx c hc)]
    exact hrank c (hnodes x hx c hc) p hp

/-- The conflict that validation reports: the stored block `existing`, of round `d`,
and the new block, of candidate round `e`. -/
structure ReportedConflict (crypto : BlockCrypto) (bonds : Bonds) (B : Blocklace)
    (block existing : Block) (d e : ℕ) : Prop where
  error : .equivocation existing.identity ∈ (B.validateBlock crypto block bonds .default).errors
  only : ∀ i, InvalidBlock.equivocation i ∈
    (B.validateBlock crypto block bonds .default).errors → i = existing.identity
  stored : B.Stores existing
  creator : existing.identity.creator = block.identity.creator
  conflicts : B.conflictsWith block existing = true
  walkable : ∃ rank, Walkable crypto B existing rank ∧ Walkable crypto B block rank
  round : B.Round existing.identity d
  existingRound : B.CandidateRound existing.content d
  blockRound : B.CandidateRound block.content e

/-- The block that the search finds is reported. -/
theorem reportedConflict_of_find? {existing : Block} (hav : Available Block.refs B.Resolves block)
    (hfind : (B.blocksBy block.identity.creator).find? (B.conflictsWith block) = some existing) :
    ∃ d e, ReportedConflict crypto bonds B block existing d e := by
  obtain ⟨hst, hcreator⟩ := Blocklace.mem_blocksBy_iff.1 (List.mem_of_find?_eq_some hfind)
  obtain ⟨rank, hwalk⟩ := exists_walkable hclosed hcheckpoint hblocks hhashed hcycle hav
  have hwalkb := hwalk block (mem_historyNodes.2 (Or.inl rfl))
  have hwalke := hwalk existing (mem_historyNodes.2 (Or.inr hst))
  have hmissing := Blocklace.absentPredecessors_eq_nil_iff_available.2 hav
  obtain ⟨e, -, -, he, -⟩ := hwalkb.exists_completeHistory
  obtain ⟨d, -, -, hd, -⟩ := hwalke.exists_completeHistory
  refine ⟨d, e, Blocklace.mem_errors_validateBlock.2 ⟨rfl, hmissing, existing, hfind, rfl⟩,
    fun i hi => ?_, hst, hcreator, List.find?_some hfind, ⟨rank, hwalke, hwalkb⟩,
    hd.round hst (by simp [hcheckpoint]), hd, he⟩
  obtain ⟨-, -, found, hfound, rfl⟩ := Blocklace.mem_errors_validateBlock.1 hi
  rw [Option.some.inj (hfound.symm.trans hfind)]

omit hclosed hcheckpoint hblocks hhashed hcycle

namespace ReportedConflict

variable {existing : Block} {d e : ℕ} (h : ReportedConflict crypto bonds B block existing d e)

include h

theorem ne : block.identity ≠ existing.identity :=
  ((Blocklace.conflictsWith_iff h.stored).1 h.conflicts).2

/-- The pool holds claims about the two blocks only. -/
theorem claims {evidence : CordialEquivocationEvidence}
    (hevidence : evidence ∈ (B.recorded crypto bonds block).evidenceFor v) :
    ∃ blocks : List Block, blocks.Perm [existing, block] ∧
      evidence = ⟨block.identity.creator, min d e, blocks⟩ := by
  obtain hold | ⟨rfl, held, round, candidate, hrec⟩ := Blocklace.mem_evidenceFor_recordRejected
    (fun i hi => h.only i hi ▸ h.stored.mem) hevidence
  · exact absurd hold (by simp [InMemoryEvidencePool.new, InMemoryEvidencePool.evidenceFor,
      InMemoryEvidencePool.roundsOf, sortedEntries])
  · obtain rfl := hrec.stored.ext h.stored (h.only _ hrec.error)
    obtain rfl := hrec.heldRound.unique h.round
    obtain rfl := hrec.candidateRound.unique h.blockRound
    have hperm : (InMemoryEvidencePool.recordOf Block.identity block.identity.creator
        (min round candidate) [block, held]).blocks.Perm [held, block] :=
      InMemoryEvidencePool.recordOf_pair h.ne
    exact ⟨_, hperm, hrec.eq⟩

/-- It holds one. -/
theorem exists_evidence :
    ∃ evidence, evidence ∈ (B.recorded crypto bonds block).evidenceFor block.identity.creator :=
  List.exists_mem_of_ne_nil _ (Blocklace.evidenceFor_recordRejected_ne_nil h.error h.stored h.round
    h.blockRound h.ne)

/-- The stored block is not below the new one, so a claim about the two is accepted
exactly if the new block is, by hash and creator, neither the stored one nor below it. -/
theorem accepted_iff {blocks : List Block} (hperm : blocks.Perm [existing, block])
    (hexisting : existing.Signed crypto) (hsigned : block.Signed crypto) :
    (∃ verified, verifyEquivocationEvidence crypto
      ⟨block.identity.creator, min d e, blocks⟩ B = .ok verified) ↔
      existing.identity.consensusIdentity ≠ block.identity.consensusIdentity ∧
        ¬ B.Under existing block.identity.consensusIdentity := by
  obtain ⟨rank, hwalke, hwalkb⟩ := h.walkable
  rw [verify_pair_iff hperm hwalke hwalkb hexisting hsigned h.creator rfl h.existingRound
    h.blockRound]
  refine and_congr_right fun _ => and_iff_left ?_
  rintro ⟨p, hp, r, hr, y, hry, hy⟩
  have hymem : y ∈ B.blocks := by
    obtain rfl | hbelow := Blocklace.sees_iff_eq_or_below.1 hry
    · exact Blocklace.resolveIdentity_mem hr
    · exact hbelow.mem
  rw [Blocklace.eq_of_consensusIdentity_eq hymem h.stored.mem hy] at hry
  exact ((Blocklace.conflictsWith_iff h.stored).1 h.conflicts).1 (Or.inl ⟨p, hp, r, hr, hry⟩)

/-- In terms of signature variants: the stored block sees none of the new block. -/
theorem no_variant_iff (hcheckpoint : B.checkpoint = none) :
    (existing.identity.consensusIdentity ≠ block.identity.consensusIdentity ∧
      ¬ B.Under existing block.identity.consensusIdentity) ↔
      ∀ y ∈ B.blocks, y.consensusIdentity = block.identity.consensusIdentity →
        B.Sees existing.identity y → y = block.identity := by
  rw [Blocklace.under_iff_below hcheckpoint h.stored]
  constructor
  · rintro ⟨hcons, hnot⟩ y - hy hsees
    obtain rfl | hbelow := Blocklace.sees_iff_eq_or_below.1 hsees
    · exact absurd hy hcons
    · exact absurd ⟨y, hbelow, hy⟩ hnot
  · refine fun hall => ⟨fun hcons => h.ne ?_, ?_⟩
    · exact (hall existing.identity h.stored.mem hcons (Blocklace.Sees.refl B _)).symm
    · rintro ⟨y, hbelow, hy⟩
      obtain rfl := hall y hbelow.mem hy hbelow.sees
      exact ((Blocklace.conflictsWith_iff h.stored).1 h.conflicts).1
        (Or.inr ⟨_, Blocklace.resolveIdentity_of_mem hbelow.mem, hbelow⟩)

/-- **When the verifier accepts what the detector reports**, for the stored block that
is found. -/
theorem recorded_verified_iff (hcheckpoint : B.checkpoint = none)
    (hexisting : existing.Signed crypto) (hsigned : block.Signed crypto) :
    B.RecordedVerified crypto bonds block ↔
      ∀ y ∈ B.blocks, y.consensusIdentity = block.identity.consensusIdentity →
        B.Sees existing.identity y → y = block.identity := by
  rw [← h.no_variant_iff hcheckpoint]
  constructor
  · rintro ⟨⟨evidence, hevidence⟩, hall⟩
    obtain ⟨blocks, hperm, rfl⟩ := h.claims hevidence
    exact (h.accepted_iff hperm hexisting hsigned).1 (hall _ _ hevidence)
  · intro hvariant
    refine ⟨h.exists_evidence, fun v evidence hevidence => ?_⟩
    obtain ⟨blocks, hperm, rfl⟩ := h.claims hevidence
    exact (h.accepted_iff hperm hexisting hsigned).2 hvariant

end ReportedConflict

include hclosed hcheckpoint hblocks hhashed hcycle hsigned

/-- **When the verifier accepts what the detector reports.**  A block that validation
rejects for an equivocation leaves evidence, and the evidence is accepted, in whatever
order the stored blocks are iterated, exactly if no stored block of the creator that
conflicts with the block is a signature variant of it or has one below. -/
theorem recorded_evidence_verified_iff
    (hreports : Blocklace.ReportsEquivocation crypto B block bonds .default) :
    (∀ B', B.OtherOrder B' → B'.RecordedVerified crypto bonds block) ↔
    ∀ held, B.Stores held → held.identity.creator = block.identity.creator →
      B.conflictsWith block held = true →
      ∀ y ∈ B.blocks, y.consensusIdentity = block.identity.consensusIdentity →
        B.Sees held.identity y → y = block.identity := by
  obtain ⟨_, hreport⟩ := hreports
  obtain ⟨-, hmissing, existing, hfind, -⟩ := Blocklace.mem_errors_validateBlock.1 hreport
  have hav := Blocklace.absentPredecessors_eq_nil_iff_available.1 hmissing
  -- in an order that finds `held`, the evidence is about `held`
  have horder : ∀ {B' held}, B.OtherOrder B' →
      (B'.blocksBy block.identity.creator).find? (B'.conflictsWith block) = some held →
      (B'.RecordedVerified crypto bonds block ↔
        ∀ y ∈ B.blocks, y.consensusIdentity = block.identity.consensusIdentity →
          B.Sees held.identity y → y = block.identity) := by
    intro B' held hsame hheld
    have hst' := (Blocklace.mem_blocksBy_iff.1 (List.mem_of_find?_eq_some hheld)).1
    have hst := hsame.stores_iff.1 hst'
    obtain ⟨d, e, hconf⟩ : ∃ d e, ReportedConflict crypto bonds B' block held d e :=
      reportedConflict_of_find? (hsame.isClosed_eq.trans hclosed) (hsame.checkpoint.trans hcheckpoint)
      (fun c hc => hblocks c (hsame.stores_iff.1 hc)) hhashed
      (hcycle.imp fun _ hrank c hc => hrank c (hsame.mem_historyNodes_iff.1 hc))
      (hsame.available_iff.2 hav) hheld
    rw [hconf.recorded_verified_iff (hsame.checkpoint.trans hcheckpoint) (hblocks held hst).2 hsigned]
    simp only [hsame.reordered.mem_iff, hsame.reordered.sees_iff hst.mem]
  constructor
  · intro hall held hst hcreator hconf
    obtain ⟨B', hsame, hheld⟩ := Blocklace.exists_otherOrder_find? hst hcreator hconf
    exact (horder hsame hheld).1 (hall B' hsame)
  · intro hall B' hsame
    obtain ⟨held, hheld⟩ := hsame.exists_find? hfind
    obtain ⟨hst', hcreator⟩ := Blocklace.mem_blocksBy_iff.1 (List.mem_of_find?_eq_some hheld)
    have hst := hsame.stores_iff.1 hst'
    refine (horder hsame hheld).2 (hall held hst hcreator ?_)
    rw [← hsame.conflictsWith_eq hst]
    exact List.find?_some hheld

end Detector

open Blocklace (signedId sampleBlock listedCrypto threeBonds)

/-- Two signed genesis blocks. -/
def forkBase : Blocklace :=
  (Blocklace.new 0).growBy [sampleBlock (signedId 1 1) [], sampleBlock (signedId 2 3) []]

/-- Another first block of creator `1`, on the genesis block of creator `3`. -/
def forkBlock : Block := sampleBlock (signedId 3 1) [signedId 2 3]

/-- Two branches of creator `1`, the second on a genesis block of creator `2`. -/
def branchedBase : Blocklace :=
  (Blocklace.new 0).growBy [sampleBlock (signedId 1 1) [], sampleBlock (signedId 2 3) [],
    sampleBlock (signedId 4 2) [], sampleBlock (signedId 5 1) [signedId 4 2]]

/-- The same blocks, the first branch stored last. -/
def branchedOther : Blocklace :=
  (Blocklace.new 0).growBy [sampleBlock (signedId 2 3) [], sampleBlock (signedId 4 2) [],
    sampleBlock (signedId 5 1) [signedId 4 2], sampleBlock (signedId 1 1) []]

/-- The two orders find different blocks, and the evidence about either is accepted. -/
theorem recorded_evidence_verified_forkBlock :
    (branchedBase.blocksBy ⟨[1]⟩).find? (branchedBase.conflictsWith forkBlock) ≠
      (branchedOther.blocksBy ⟨[1]⟩).find? (branchedOther.conflictsWith forkBlock) ∧
    branchedBase.RecordedVerified (listedCrypto (historyNodes branchedBase forkBlock)) threeBonds
      forkBlock ∧
    branchedOther.RecordedVerified (listedCrypto (historyNodes branchedBase forkBlock)) threeBonds
      forkBlock := by
  have hnodes : ∀ c ∈ historyNodes branchedBase forkBlock,
      c.Hashed (listedCrypto (historyNodes branchedBase forkBlock)) := by decide +kernel
  have hcycle : ∀ b ∈ historyNodes branchedBase forkBlock, ∀ p ∈ b.content.predecessors,
      p.contentHash.val < ((listedCrypto (historyNodes branchedBase forkBlock)).blockHash
        b.identity.creator b.content).val := by decide +kernel
  have hnew : ∀ y ∈ branchedBase.dom,
      y.consensusIdentity ≠ forkBlock.identity.consensusIdentity := by decide +kernel
  have hall := (@recorded_evidence_verified_iff (listedCrypto (historyNodes branchedBase forkBlock))
    branchedBase forkBlock threeBonds (by decide +kernel) (by decide +kernel)
    (fun c hc => ⟨hnodes c (mem_historyNodes.2 (Or.inr hc)), rfl⟩)
    (hnodes forkBlock (mem_historyNodes.2 (Or.inl rfl))) rfl
    ⟨fun h => h.val, hcycle⟩ ⟨signedId 5 1, by decide +kernel⟩).2
    fun _ _ _ _ y hy hcons _ => absurd hcons (hnew y (AList.mem_keys.1 hy))
  exact ⟨by decide +kernel, hall branchedBase ⟨.refl _, rfl⟩,
    hall branchedOther ⟨by decide +kernel, rfl⟩⟩

/-- A signed genesis block. -/
def variantBase : Blocklace := (Blocklace.new 0).growBy [sampleBlock (signedId 1 1) []]

/-- The same block under a second signature. -/
def variantBlock : Block := sampleBlock { signedId 1 1 with signature := [8] } []

/-- **A second signature is reported as an equivocation, and the evidence refused.** -/
theorem variant_evidence_refused :
    ∃ (crypto : BlockCrypto) (B : Blocklace) (block : Block) (bonds : Bonds),
      B.isClosed = true ∧ B.checkpoint = none ∧
      (∀ c, B.Stores c → c.Hashed crypto ∧ c.Signed crypto) ∧
      block.Hashed crypto ∧ block.Signed crypto ∧
      crypto.CollisionFree {c | c ∈ historyNodes B block} ∧
      crypto.NoHashCycle {c | c ∈ historyNodes B block} ∧
      Blocklace.ReportsEquivocation crypto B block bonds .default ∧
      ¬ B.RecordedVerified crypto bonds block := by
  have hnodes : ∀ c ∈ historyNodes variantBase variantBlock,
      c.Hashed (listedCrypto (historyNodes variantBase variantBlock)) := by decide +kernel
  have hcontent : ∀ a ∈ historyNodes variantBase variantBlock,
      a.identity.creator = ⟨[1]⟩ ∧ a.content = ⟨[], []⟩ := by decide +kernel
  refine ⟨listedCrypto (historyNodes variantBase variantBlock), variantBase, variantBlock, threeBonds,
    by decide +kernel, by decide +kernel, fun c hc => ⟨hnodes c (mem_historyNodes.2 (Or.inr hc)), rfl⟩,
    hnodes _ (mem_historyNodes.2 (Or.inl rfl)), rfl, fun a ha b hb _ => ?_,
    ⟨fun h => h.val, fun a ha p hp => ?_⟩, ⟨signedId 1 1, by decide +kernel⟩, ?_⟩
  · obtain ⟨hac, hacont⟩ := hcontent a ha
    obtain ⟨hbc, hbcont⟩ := hcontent b hb
    rw [hac, hbc, Block.consensusRefs, Block.consensusRefs, Block.refs, Block.refs, hacont, hbcont]
    exact ⟨rfl, rfl, fun _ => Iff.rfl⟩
  · rw [(hcontent a ha).2] at hp
    exact absurd hp (by simp)
  · rintro ⟨⟨evidence, hevidence⟩, hall⟩
    have hrefused : ∀ evidence ∈ (variantBase.recorded (listedCrypto (historyNodes variantBase
        variantBlock)) threeBonds variantBlock).evidenceFor variantBlock.identity.creator,
        (verifyEquivocationEvidence (listedCrypto (historyNodes variantBase variantBlock)) evidence
          variantBase).toBool = false := by decide +kernel
    obtain ⟨verified, hverified⟩ := hall _ evidence hevidence
    have := hrefused evidence hevidence
    rw [hverified] at this
    exact absurd this (by simp [Except.toBool])

end CordialMiners
