/-
# Closure and depth across prunes

A prune forgets no block that a block other than the new checkpoint still needs:
what a retained block refers to is retained (`Pruned.resolveIdentity`).  One
block escapes the argument, the checkpoint of the prune before.  Its own
references may be gone already, and it stops being the boundary; if it is
retained as a protected block, the blocklace is no longer closed.  A prune is
safe when this does not happen (`SafePrune`), and a prune of a closed blocklace
leaves it closed exactly when it is safe (`Pruned.isClosed_iff`).

The depth of a block is compared with its height in the graph that content
hashes span: `refs` gives the references behind a hash and a creator, `Height`
the longest path in it.  Along a run of inserts that respect `refs` and of safe
prunes, every stored block has its height as depth.
-/

import CordialMiners.Pruning.Checkpoint
import CordialMiners.Core.Growth

namespace CordialMiners

open FinGraph Relation

namespace Blocklace

variable {B B' P : Blocklace} {a b c p x y : BlockIdentity} {d e : ℕ}

/-! ### What a prune keeps -/

namespace Pruned

theorem mem_iff (h : B.Pruned c P) : x ∈ P.blocks ↔ x ∈ B.blocks ∧ ¬ B.Dropped c x := by
  constructor
  · intro hx
    obtain ⟨content, hl⟩ := exists_lookup hx
    have hkept : ¬ B.Dropped c x := fun hd => by simp [h.dropped x hd] at hl
    exact ⟨mem_of_lookup ((h.kept x hkept).symm.trans hl), hkept⟩
  · rintro ⟨hx, hkept⟩
    obtain ⟨content, hl⟩ := exists_lookup hx
    exact mem_of_lookup ((h.kept x hkept).trans hl)

theorem lookup (h : B.Pruned c P) (hx : x ∈ P.blocks) : P.blocks.lookup x = B.blocks.lookup x :=
  h.kept x (h.mem_iff.1 hx).2

theorem mem_checkpoint (h : B.Pruned c P) : c ∈ P.blocks :=
  h.mem_iff.2 ⟨h.mem, fun hd => hd.1.2 rfl⟩

/-- References that still name a block name the block they named. -/
theorem resolveIdentity_iff (h : B.Pruned c P) :
    P.resolveIdentity p = some x ↔ B.resolveIdentity p = some x ∧ ¬ B.Dropped c x := by
  rw [resolveIdentity_eq_some_iff, resolveIdentity_eq_some_iff, h.mem_iff]
  tauto

/-- What a retained block other than the checkpoint refers to is not dropped. -/
theorem not_dropped_of_refers (h : B.Pruned c P) (hx : x ∈ P.blocks) (hxc : x ≠ c)
    (hxy : B.Refers x y) : ¬ B.Dropped c y := by
  rintro ⟨hcand, hnot⟩
  obtain ⟨hxB, hkept⟩ := h.mem_iff.1 hx
  refine hnot ?_
  by_cases hcx : B.Sees c x
  · -- a candidate that is retained is protected, and protection is passed on
    obtain ⟨s, t, hs, hout, hst, ht, htx⟩ : B.Protected c x :=
      not_not.1 fun hnp => hkept ⟨⟨hcx, hxc⟩, hnp⟩
    exact ⟨s, t, hs, hout, hst, ht, ReflTransGen.tail htx ⟨hxy, hcand⟩⟩
  · exact ⟨x, y, hxB, hcx, hxy, hcand, ReflTransGen.refl⟩

/-- **A retained block other than the checkpoint keeps its references.** -/
theorem resolveIdentity {content : BlockContent} (h : B.Pruned c P)
    (hx : P.blocks.lookup x = some content) (hxc : x ≠ c) (hp : p ∈ content.predecessors) :
    P.resolveIdentity p = B.resolveIdentity p := by
  have hxP := mem_of_lookup hx
  rw [h.lookup hxP] at hx
  ext y
  rw [h.resolveIdentity_iff]
  exact ⟨And.left, fun hy => ⟨hy, h.not_dropped_of_refers hxP hxc ⟨content, hx, p, hp, hy⟩⟩⟩

theorem complete_iff (h : B.Pruned c P) (hx : x ∈ P.blocks) (hxc : x ≠ c) :
    P.Complete x ↔ B.Complete x := by
  constructor
  · intro hcomp content hl q hq
    have hl' := (h.lookup hx).trans hl
    rw [← h.resolveIdentity hl' hxc hq]
    exact hcomp content hl' q hq
  · intro hcomp content hl q hq
    rw [h.resolveIdentity hl hxc hq]
    exact hcomp content ((h.lookup hx).symm.trans hl) q hq

end Pruned

/-! ### Safe prunes -/

/-- The old checkpoint goes, or its references are all there. -/
def SafePrune (B : Blocklace) (c : BlockIdentity) : Prop :=
  ∀ old, B.checkpoint = some old → old ≠ c → B.Protected c old → B.Complete old

/-- The checkpoint, if there is one, is stored and is seen from the new one. -/
def Connects (B : Blocklace) (c : BlockIdentity) : Prop :=
  ∀ old, B.checkpoint = some old → old ∈ B.blocks ∧ B.Sees c old

theorem connects_of_preceedesOrEquals (hmem : ∀ old, B.checkpoint = some old → old ∈ B.blocks)
    (hc : c ∈ B.blocks)
    (h : ∀ old, B.checkpoint = some old → B.preceedesOrEquals old c = true) : B.Connects c := by
  intro old hold
  obtain ⟨x, y, hx, hy, hyx⟩ := preceedesOrEquals_iff.1 (h old hold)
  rw [resolveIdentity_of_mem (hmem old hold)] at hx
  rw [resolveIdentity_of_mem hc] at hy
  obtain rfl := Option.some.inj hx
  obtain rfl := Option.some.inj hy
  exact ⟨hmem old hold, hyx⟩

/-- The old checkpoint survives exactly as a protected block. -/
theorem Pruned.mem_old_iff {old : BlockIdentity} (h : B.Pruned c P) (hconn : B.Connects c)
    (hold : B.checkpoint = some old) (hne : old ≠ c) : old ∈ P.blocks ↔ B.Protected c old := by
  obtain ⟨hmem, hsees⟩ := hconn old hold
  rw [h.mem_iff]
  refine ⟨fun hP => not_not.1 fun hnp => hP.2 ⟨⟨hsees, hne⟩, hnp⟩, fun hprot => ⟨hmem, ?_⟩⟩
  exact fun hd => hd.2 hprot

/-- CLOSED says that every block but the checkpoint is complete. -/
theorem isClosed_iff_complete :
    B.isClosed = true ↔ ∀ a ∈ B.blocks, B.checkpoint ≠ some a → B.Complete a := by
  rw [isClosed_iff]
  constructor
  · exact fun h a _ hcp content hl q hq => h a content hl hcp q hq
  · exact fun h a content hl hcp q hq => h a (mem_of_lookup hl) hcp content hl q hq

/-- **A prune of a closed blocklace leaves it closed exactly when it is safe.** -/
theorem Pruned.isClosed_iff (h : B.Pruned c P) (hconn : B.Connects c) (hB : B.isClosed = true) :
    P.isClosed = true ↔ B.SafePrune c := by
  rw [isClosed_iff_complete] at hB ⊢
  constructor
  · intro hP old hold hne hprot
    have hmem := (h.mem_old_iff hconn hold hne).2 hprot
    exact (h.complete_iff hmem hne).1 (hP old hmem (by rw [h.checkpoint]; simpa using hne.symm))
  · intro hsafe x hx hcp
    have hxc : x ≠ c := by
      rintro rfl
      exact hcp h.checkpoint
    rw [h.complete_iff hx hxc]
    by_cases hold : B.checkpoint = some x
    · exact hsafe x hold hxc ((h.mem_old_iff hconn hold hxc).1 hx)
    · exact hB x (h.mem_iff.1 hx).1 hold

/-! ### Heights -/

/-- The height of a hash and creator in the graph of the references `refs`. -/
inductive Height (refs : BlockIdentity → List BlockIdentity) : BlockIdentity → ℕ → Prop
  | intro {x : BlockIdentity} {d : ℕ} (ht : BlockIdentity → ℕ)
      (hpred : ∀ p ∈ refs x, Height refs p.consensusIdentity (ht p))
      (hlt : ∀ p ∈ refs x, ht p < d)
      (htop : d = 0 ∨ ∃ p ∈ refs x, d = ht p + 1) : Height refs x d

variable {refs : BlockIdentity → List BlockIdentity}

theorem Height.unique (h : Height refs x d) (h' : Height refs x e) : d = e := by
  induction h generalizing e with
  | intro ht _ hlt htop ih =>
      obtain ⟨ht', hpred', hlt', htop'⟩ := h'
      have heq : ∀ p ∈ refs _, ht p = ht' p := fun p hp => ih p hp (hpred' p hp)
      rcases htop with rfl | ⟨p, hp, rfl⟩ <;> rcases htop' with rfl | ⟨q, hq, rfl⟩
      · rfl
      · have := hlt q hq
        omega
      · have := hlt' p hp
        omega
      · have h₁ := hlt q hq
        have h₂ := hlt' p hp
        have h₃ := heq p hp
        have h₄ := heq q hq
        omega

/-- The content of a block is the one behind its hash. -/
def ContentAddressed (refs : BlockIdentity → List BlockIdentity) (block : Block) : Prop :=
  ∀ p, p ∈ block.content.predecessors ↔ p ∈ refs block.identity.consensusIdentity

/-- A stored block has its height as round. -/
def AtHeight (B : Blocklace) (refs : BlockIdentity → List BlockIdentity) (b : BlockIdentity)
    (d : ℕ) : Prop :=
  B.Round b d ∧ Height refs b.consensusIdentity d

/-- A complete block over blocks at their heights is at its height. -/
theorem exists_atHeight {content : BlockContent} (hb : B.blocks.lookup b = some content)
    (hcp : B.checkpoint ≠ some b) (hrefs : ContentAddressed refs ⟨b, content⟩)
    (hpred : ∀ q ∈ content.predecessors, ∃ r d, B.resolveIdentity q = some r ∧ B.AtHeight refs r d) :
    ∃ d, B.AtHeight refs b d := by
  choose! res ht hres hat using hpred
  have hexp : ∀ x ∈ B.expand b, ∃ q ∈ content.predecessors, res q = x := by
    intro x hx
    rw [expand_of_lookup hb hcp] at hx
    obtain ⟨q, hq, hqx⟩ := List.mem_filterMap.1 hx
    exact ⟨q, hq, Option.some.inj ((hres q hq).symm.trans hqx)⟩
  have hin : ∀ q ∈ content.predecessors, res q ∈ B.expand b := by
    intro q hq
    rw [expand_of_lookup hb hcp]
    exact List.mem_filterMap.2 ⟨q, hq, hres q hq⟩
  choose! back hback hback_eq using hexp
  have hroundx : ∀ x ∈ B.expand b, B.Round x (ht (back x)) := by
    intro x hx
    have := (hat (back x) (hback x hx)).1
    rwa [hback_eq x hx] at this
  have hcomp : B.Complete b := by
    intro content' hl q hq
    rw [hb] at hl
    obtain rfl := Option.some.inj hl
    exact ⟨res q, hres q hq⟩
  set d := content.predecessors.toFinset.sup fun q => ht q + 1 with hd
  have hlt : ∀ q ∈ content.predecessors, ht q < d := fun q hq =>
    Finset.le_sup (f := fun q => ht q + 1) (List.mem_toFinset.2 hq)
  have htop : d = 0 ∨ ∃ q ∈ content.predecessors, d = ht q + 1 := by
    by_cases hne : content.predecessors.toFinset.Nonempty
    · obtain ⟨q, hq, hdq⟩ := Finset.exists_mem_eq_sup _ hne fun q => ht q + 1
      exact Or.inr ⟨q, List.mem_toFinset.1 hq, hdq⟩
    · rw [Finset.not_nonempty_iff_eq_empty] at hne
      exact Or.inl (by rw [hd, hne, Finset.sup_empty, bot_eq_zero])
  refine ⟨d, .step (fun x => ht (back x)) (mem_of_lookup hb) hcp hcomp hroundx
    (fun x hx => hlt _ (hback x hx)) ?_, .intro ht (fun q hq => ?_) (fun q hq => ?_) ?_⟩
  · rcases htop with h0 | ⟨q, hq, hdq⟩
    · exact Or.inl h0
    · have hsame := (hroundx _ (hin q hq)).unique (hat q hq).1
      exact Or.inr ⟨res q, hin q hq, by omega⟩
  · have hq' := (hrefs q).2 hq
    rw [resolveIdentity_consensus (hres q hq')]
    exact (hat q hq').2
  · exact hlt q ((hrefs q).2 hq)
  · rcases htop with h0 | ⟨q, hq, hdq⟩
    · exact Or.inl h0
    · exact Or.inr ⟨q, (hrefs q).1 hq, hdq⟩

/-! ### The invariant -/

/-- Every stored content is the one behind its hash, the checkpoint is stored,
and every block has its height as round. -/
structure Intact (refs : BlockIdentity → List BlockIdentity) (B : Blocklace) : Prop where
  content : ∀ b content, B.blocks.lookup b = some content → ContentAddressed refs ⟨b, content⟩
  checkpoint : ∀ c, B.checkpoint = some c → c ∈ B.blocks
  height : ∀ b ∈ B.blocks, ∃ d, B.AtHeight refs b d

theorem Intact.isClosed (h : Intact refs B) : B.isClosed = true := by
  rw [isClosed_iff_complete]
  intro a ha hcp
  obtain ⟨d, hd, -⟩ := h.height a ha
  exact hd.complete hcp

theorem intact_new (k : ℕ) : Intact refs (new k) where
  content := by simp [new]
  checkpoint := by simp [new]
  height := by simp [new]

/-- **An insert of a block with the content behind its hash keeps the invariant.** -/
theorem Intact.insert {block : Block} (h : Intact refs B) (hins : B.Inserted block B')
    (hblock : ContentAddressed refs block) : Intact refs B' := by
  have hkeep : B.KeepsReferences block := fun content hl q =>
    (h.content _ content hl q).trans (hblock q).symm
  have hext := hins.extends hkeep
  have hround : ∀ {b d}, B.AtHeight refs b d → B'.AtHeight refs b d := fun hb =>
    ⟨hext.round hins.checkpoint (fun _ => hins.checkpointDepth) hb.1, hb.2⟩
  have hlookup : ∀ b content, B'.blocks.lookup b = some content →
      (b = block.identity ∧ content = block.content) ∨ B.blocks.lookup b = some content := by
    intro b content hl
    rw [hins.blocks] at hl
    by_cases hb : b = block.identity
    · subst hb
      rw [AList.lookup_insert] at hl
      exact Or.inl ⟨rfl, (Option.some.inj hl).symm⟩
    · rw [AList.lookup_insert_ne hb] at hl
      exact Or.inr hl
  refine ⟨fun b content hl => ?_, fun c hc => ?_, fun b hb => ?_⟩
  · rcases hlookup b content hl with ⟨rfl, rfl⟩ | hl
    · exact hblock
    · exact h.content b content hl
  · exact hext.mem (h.checkpoint c (hins.checkpoint.symm.trans hc))
  · by_cases hold : b ∈ B.blocks
    · obtain ⟨d, hd⟩ := h.height b hold
      exact ⟨d, hround hd⟩
    · obtain ⟨content, hl⟩ := exists_lookup hb
      obtain ⟨rfl, rfl⟩ := (hlookup b content hl).resolve_right fun hl => hold (mem_of_lookup hl)
      refine exists_atHeight hl (fun hcp => hold (h.checkpoint _ (hins.checkpoint ▸ hcp))) hblock ?_
      intro q hq
      obtain ⟨r, hr⟩ : ∃ r, B.resolveIdentity q = some r := by
        have hnone := List.filter_eq_nil_iff.1 hins.closed q hq
        rw [Option.isNone_iff_eq_none] at hnone
        exact Option.ne_none_iff_exists'.1 hnone
      obtain ⟨d, hd⟩ := h.height r (resolveIdentity_mem hr)
      exact ⟨r, d, hext.resolveIdentity hr, hround hd⟩

/-- **A safe prune keeps the invariant.**  By induction on the height: the new
checkpoint keeps its depth as stored depth, and every other retained block
refers to retained blocks of smaller height. -/
theorem Intact.prune (h : Intact refs B) (hpr : B.Pruned c P) (hconn : B.Connects c)
    (hsafe : B.SafePrune c) : Intact refs P := by
  have hclosed := isClosed_iff_complete.1 ((hpr.isClosed_iff hconn h.isClosed).2 hsafe)
  have hcontent : ∀ b content, P.blocks.lookup b = some content →
      ContentAddressed refs ⟨b, content⟩ := fun b content hl =>
    h.content b content ((hpr.lookup (mem_of_lookup hl)).symm.trans hl)
  have hround : ∀ d b, b ∈ P.blocks → Height refs b.consensusIdentity d →
      P.AtHeight refs b d := by
    intro d
    induction d using Nat.strong_induction_on with
    | _ d ih =>
        intro b hb hd
        by_cases hbc : b = c
        · subst hbc
          obtain ⟨e, he, hhe⟩ := h.height b hpr.mem
          obtain rfl := hd.unique hhe
          have hr := Round.checkpoint hb hpr.checkpoint
          rw [hpr.depth, he.depth, Option.getD_some] at hr
          exact ⟨hr, hd⟩
        · have hcp : P.checkpoint ≠ some b := by
            rw [hpr.checkpoint]
            simpa using Ne.symm hbc
          obtain ⟨content, hl⟩ := exists_lookup hb
          obtain ⟨e, he⟩ := exists_atHeight hl hcp (hcontent b content hl) (by
            intro q hq
            obtain ⟨r, hr⟩ := hclosed b hb hcp content hl q hq
            obtain ⟨ht, hpred, hlt, -⟩ := hd
            have hq' := (hcontent b content hl q).1 hq
            have hh := hpred q hq'
            rw [resolveIdentity_consensus hr] at hh
            exact ⟨r, ht q, hr, ih _ (hlt q hq') r (resolveIdentity_mem hr) hh⟩)
          rwa [hd.unique he.2]
  refine ⟨hcontent, fun c' hc' => ?_, fun b hb => ?_⟩
  · rw [hpr.checkpoint] at hc'
    obtain rfl := Option.some.inj hc'
    exact hpr.mem_checkpoint
  · obtain ⟨d, -, hd⟩ := h.height b (hpr.mem_iff.1 hb).1
    exact ⟨d, hround d b hb hd⟩

/-! ### Runs of inserts and prunes -/

/-- `born` with the depth of a block that has just been inserted. -/
def recordDepth (born : BlockIdentity → Option ℕ) (B : Blocklace) (id : BlockIdentity) :
    BlockIdentity → Option ℕ :=
  Function.update born id (B.depth id)

/-- The blocklaces reached from the empty one by successful inserts and prunes,
each admitted by `okInsert` or `okPrune`, with the depth each block had when it
was inserted. -/
inductive PruneRun (okInsert : Block → Prop) (okPrune : Blocklace → BlockIdentity → Prop) :
    Blocklace → (BlockIdentity → Option ℕ) → Prop
  | new (cacheIdentity : ℕ) : PruneRun okInsert okPrune (.new cacheIdentity) fun _ => none
  | insert {B B' : Blocklace} {born : BlockIdentity → Option ℕ} {block : Block}
      {verifier : CryptoVerifier} (run : PruneRun okInsert okPrune B born) (ok : okInsert block)
      (h : B.insert block verifier = .ok B') :
      PruneRun okInsert okPrune B' (recordDepth born B' block.identity)
  | prune {B P : Blocklace} {born : BlockIdentity → Option ℕ} {c : BlockIdentity}
      {report : PruneReport} (run : PruneRun okInsert okPrune B born) (ok : okPrune B c)
      (h : B.pruneBelowCheckpoint c = .ok (report, P)) : PruneRun okInsert okPrune P born
  | finality {B P : Blocklace} {born : BlockIdentity → Option ℕ} {wavelength n f : ℕ}
      {leaderSelection : LeaderSelection} {report : PruneReport}
      (run : PruneRun okInsert okPrune B born)
      (ok : ∀ c, B.latestFinalLeader wavelength n f leaderSelection = some c → okPrune B c)
      (h : B.checkpointAfterFinality wavelength n f leaderSelection = .ok (some (report, P))) :
      PruneRun okInsert okPrune P born

theorem PruneRun.mono {okInsert okInsert' : Block → Prop}
    {okPrune okPrune' : Blocklace → BlockIdentity → Prop} {born : BlockIdentity → Option ℕ}
    (run : PruneRun okInsert okPrune B born) (hi : ∀ block, okInsert block → okInsert' block)
    (hp : ∀ B c, okPrune B c → okPrune' B c) : PruneRun okInsert' okPrune' B born := by
  induction run with
  | new k => exact .new k
  | insert _ ok h ih => exact .insert ih (hi _ ok) h
  | prune _ ok h ih => exact .prune ih (hp _ _ ok) h
  | finality _ ok h ih => exact .finality ih (fun c hc => hp _ _ (ok c hc)) h

/-- What the prunes of a run do: nothing, or one prune at an admitted block. -/
theorem prune_cases {c : BlockIdentity} {orderPrefix weightedOrderPrefix : List BlockIdentity}
    {report : PruneReport} (hmem : ∀ old, B.checkpoint = some old → old ∈ B.blocks)
    (h : B.pruneBelowCheckpointWithPrefix c orderPrefix weightedOrderPrefix = .ok (report, P)) :
    P = B ∨ (B.Pruned c P ∧ B.Connects c) := by
  rcases pruneBelowCheckpointWithPrefix_ok h with ⟨-, rfl⟩ | ⟨hpr, -, -, hprec⟩
  · exact Or.inl rfl
  · exact Or.inr ⟨hpr, connects_of_preceedesOrEquals hmem hpr.mem hprec⟩

theorem checkpointAfterFinality_ok {w n f : ℕ} {ls : LeaderSelection} {report : PruneReport}
    (h : B.checkpointAfterFinality w n f ls = .ok (some (report, P))) :
    ∃ c orderPrefix, B.latestFinalLeader w n f ls = some c ∧
      (∀ out, B.tau w n f ls = .ok out → orderPrefix = out) ∧
      B.pruneBelowCheckpointWithPrefix c orderPrefix [] = .ok (report, P) := by
  obtain ⟨c, orderPrefix, hc, -, hout, -, hpr⟩ := Ladder.advanceCheckpoint_ok h
  exact ⟨c, orderPrefix, hc, hout, hpr⟩

/-- What holds along a run: the invariant, and each block was inserted at its
height. -/
theorem PruneRun.intact {born : BlockIdentity → Option ℕ}
    (run : PruneRun (ContentAddressed refs) SafePrune B born) :
    Intact refs B ∧ ∀ b ∈ B.blocks, ∃ d, born b = some d ∧ Height refs b.consensusIdentity d := by
  have hpruned : ∀ {B P : Blocklace} {born : BlockIdentity → Option ℕ} {c : BlockIdentity}
      {orderPrefix weightedOrderPrefix : List BlockIdentity} {report : PruneReport},
      (Intact refs B ∧ ∀ b ∈ B.blocks, ∃ d, born b = some d ∧
        Height refs b.consensusIdentity d) → B.SafePrune c →
      B.pruneBelowCheckpointWithPrefix c orderPrefix weightedOrderPrefix = .ok (report, P) →
      Intact refs P ∧ ∀ b ∈ P.blocks, ∃ d, born b = some d ∧
        Height refs b.consensusIdentity d := by
    rintro B P born c op wp report ⟨hB, hborn⟩ hsafe h
    rcases prune_cases hB.checkpoint h with rfl | ⟨hpr, hconn⟩
    · exact ⟨hB, hborn⟩
    · exact ⟨hB.prune hpr hconn hsafe, fun b hb => hborn b (hpr.mem_iff.1 hb).1⟩
  induction run with
  | new k => exact ⟨intact_new k, by simp [Blocklace.new]⟩
  | @insert B B' born block verifier _ hblock h ih =>
      obtain ⟨hB, hborn⟩ := ih
      have hins := insert_ok h
      have hB' := hB.insert hins hblock
      refine ⟨hB', fun b hb => ?_⟩
      unfold recordDepth
      by_cases hid : b = block.identity
      · obtain ⟨d, hd, hht⟩ := hB'.height b hb
        subst hid
        rw [Function.update_self, hd.depth]
        exact ⟨d, rfl, hht⟩
      · rw [Function.update_of_ne hid]
        rw [hins.blocks, AList.mem_insert] at hb
        exact hborn b (hb.resolve_left hid)
  | prune _ hsafe h ih => exact hpruned ih hsafe h
  | finality _ hsafe h ih =>
      obtain ⟨c, op, hc, -, h⟩ := checkpointAfterFinality_ok h
      exact hpruned ih (hsafe c hc) h

/-- **Closure and depth along every run** of inserts that bring the content
behind their hash and of safe prunes; and the next prune leaves the blocklace
closed exactly when it is safe. -/
theorem closed_and_depth_kept {refs : BlockIdentity → List BlockIdentity} {B : Blocklace}
    {born : BlockIdentity → Option ℕ}
    (run : PruneRun (ContentAddressed refs) SafePrune B born) :
    (B.isClosed = true ∧ ∀ b ∈ B.blocks, ∃ d, born b = some d ∧ B.depth b = some d) ∧
      ∀ c report P, B.checkpoint ≠ some c → B.pruneBelowCheckpoint c = .ok (report, P) →
        (P.isClosed = true ↔ B.SafePrune c) := by
  obtain ⟨hB, hborn⟩ := run.intact
  refine ⟨⟨hB.isClosed, fun b hb => ?_⟩, fun c report P hc h => ?_⟩
  · obtain ⟨d, hd, hht⟩ := hborn b hb
    obtain ⟨e, he, hhe⟩ := hB.height b hb
    obtain rfl := hht.unique hhe
    exact ⟨d, hd, he.depth⟩
  · rcases pruneBelowCheckpointWithPrefix_ok h with ⟨hcp, -⟩ | ⟨hpr, -, -, hprec⟩
    · exact absurd hcp hc
    · exact hpr.isClosed_iff (connects_of_preceedesOrEquals hB.checkpoint hpr.mem hprec) hB.isClosed

/-- `B` after a prune, `B` itself if the prune is refused. -/
def pruneTo (B : Blocklace) (c : BlockIdentity) : Blocklace :=
  match B.pruneBelowCheckpoint c with
  | .ok (_, P) => P
  | .error _ => B

theorem pruneBelowCheckpoint_pruneTo (h : (B.pruneBelowCheckpoint c).isOk = true) :
    ∃ report, B.pruneBelowCheckpoint c = .ok (report, B.pruneTo c) := by
  unfold pruneTo
  cases hpr : B.pruneBelowCheckpoint c with
  | error e => simp [hpr, Except.isOk, Except.toBool] at h
  | ok result => exact ⟨result.1, rfl⟩

/-- A genesis block, a block on it, a second creator's block on that, and the
next block of the first creator. -/
def lateBlocks : List Block :=
  [sampleBlock (sampleId 1 1) [],
    sampleBlock (sampleId 2 1) [sampleId 1 1],
    sampleBlock (sampleId 3 2) [sampleId 2 1],
    sampleBlock (sampleId 4 1) [sampleId 2 1]]

/-- The references behind the hashes of the blocks. -/
def refsOf (blocks : List Block) (id : BlockIdentity) : List BlockIdentity :=
  ((blocks.find? fun block => block.identity.consensusIdentity = id).map fun block =>
    block.content.predecessors).getD []

theorem contentAddressed_refsOf {blocks : List Block} {block : Block}
    (h : refsOf blocks block.identity.consensusIdentity = block.content.predecessors) :
    ContentAddressed (refsOf blocks) block := by
  intro p
  rw [h]

/-- The second block is made the checkpoint. -/
def firstCheckpoint : Blocklace :=
  ((new 0).growBy (lateBlocks.take 2)).pruneTo (sampleId 2 1)

theorem pruneRun_firstCheckpoint (okPrune : Blocklace → BlockIdentity → Prop)
    (ok : okPrune ((new 0).growBy (lateBlocks.take 2)) (sampleId 2 1)) :
    ∃ born, PruneRun (ContentAddressed (refsOf lateBlocks)) okPrune firstCheckpoint born ∧
      born (sampleId 2 1) = some 1 := by
  obtain ⟨report, hprune⟩ := pruneBelowCheckpoint_pruneTo
    (B := (new 0).growBy (lateBlocks.take 2)) (c := sampleId 2 1) (by decide +kernel)
  have h₁ := PruneRun.insert (.new 0 : PruneRun (ContentAddressed (refsOf lateBlocks)) okPrune _ _)
    (contentAddressed_refsOf (by decide +kernel)) (insert_growBy
      (sampleBlock (sampleId 1 1) []) (by decide +kernel))
  have h₂ := PruneRun.insert h₁ (contentAddressed_refsOf (by decide +kernel)) (insert_growBy
      (sampleBlock (sampleId 2 1) [sampleId 1 1]) (by decide +kernel))
  exact ⟨_, PruneRun.prune h₂ ok hprune, by decide +kernel⟩

/-- A second prune that forgets the old checkpoint is safe. -/
theorem closed_and_depth_kept_second_prune :
    ∃ B born, PruneRun (ContentAddressed (refsOf lateBlocks)) SafePrune B born ∧
      B.checkpoint = some (sampleId 4 1) ∧ sampleId 2 1 ∉ B.blocks ∧
      B.isClosed = true ∧ B.depth (sampleId 4 1) = some 2 ∧
      born (sampleId 4 1) = some 2 := by
  set B := firstCheckpoint.growBy [sampleBlock (sampleId 4 1) [sampleId 2 1]] with hB
  obtain ⟨born, hrun, -⟩ := pruneRun_firstCheckpoint SafePrune fun old hold => by
    rw [show ((new 0).growBy (lateBlocks.take 2)).checkpoint = none by decide +kernel] at hold
    simp at hold
  have hsafe : B.SafePrune (sampleId 4 1) := by
    intro old hold _ hprot
    rw [show B.checkpoint = some (sampleId 2 1) by decide +kernel] at hold
    obtain rfl := Option.some.inj hold
    have hmem := (mem_protectedCandidateClosure_iff (c := sampleId 4 1) (by decide +kernel)).2 hprot
    exact absurd hmem (by decide +kernel)
  obtain ⟨report, hprune⟩ := pruneBelowCheckpoint_pruneTo (B := B) (c := sampleId 4 1)
    (by decide +kernel)
  have h₁ := PruneRun.insert hrun (contentAddressed_refsOf (by decide +kernel)) (insert_growBy
    (sampleBlock (sampleId 4 1) [sampleId 2 1]) (by decide +kernel))
  have h₂ := PruneRun.prune h₁ hsafe hprune
  obtain ⟨⟨hclosed, hdepth⟩, -⟩ := closed_and_depth_kept h₂
  obtain ⟨d, hborn, hd⟩ := hdepth (sampleId 4 1) (by decide +kernel)
  have htwo : (B.pruneTo (sampleId 4 1)).depth (sampleId 4 1) = some 2 := by
    decide +kernel
  exact ⟨_, _, h₂, by decide +kernel, by decide +kernel, hclosed, htwo,
    hborn.trans (hd.symm.trans htwo)⟩

/-- The old checkpoint is retained for a block on it, without its own reference:
the blocklace is not closed, and the old checkpoint has no depth any more. -/
theorem old_checkpoint_retained_without_references :
    ∃ B born, PruneRun (fun _ => True) (fun _ _ => True) B born ∧
      PruneRun (ContentAddressed (refsOf lateBlocks)) (fun _ _ => True) B born ∧
      B.isClosed = false ∧ sampleId 2 1 ∈ B.blocks ∧
      born (sampleId 2 1) = some 1 ∧ B.depth (sampleId 2 1) = none := by
  obtain ⟨born, hrun, hborn⟩ := pruneRun_firstCheckpoint (fun _ _ => True) trivial
  set B := firstCheckpoint.growBy (lateBlocks.drop 2) with hB
  obtain ⟨report, hprune⟩ := pruneBelowCheckpoint_pruneTo (B := B) (c := sampleId 4 1)
    (by decide +kernel)
  have h₁ := PruneRun.insert hrun (contentAddressed_refsOf (by decide +kernel)) (insert_growBy
    (sampleBlock (sampleId 3 2) [sampleId 2 1]) (by decide +kernel))
  have h₂ := PruneRun.insert h₁ (contentAddressed_refsOf (by decide +kernel)) (insert_growBy
    (sampleBlock (sampleId 4 1) [sampleId 2 1]) (by decide +kernel))
  have h₃ := PruneRun.prune h₂ trivial hprune
  refine ⟨_, _, ?_, h₃, by decide +kernel, by decide +kernel, ?_, by decide +kernel⟩
  · exact h₃.mono (fun _ _ => trivial) (fun _ _ _ => trivial)
  · unfold recordDepth
    rw [Function.update_of_ne (by decide +kernel), Function.update_of_ne (by decide +kernel), hborn]

end Blocklace

end CordialMiners
