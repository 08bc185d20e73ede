/-
# Runs of the live mirror

Two results about deliveries in any order and any number.

* With a verifier that accepts every block, the mirror ends with the largest
  part of the delivered blocks that refers only to itself and has no cycle of
  references; the rest waits, and nothing that waits is ready
  (`mirror_converges`).
* A call that returns an error has left the mirror as it was exactly when it did
  not apply its block, or the verifier accepts every waiting block that the
  block releases (`ingest_error_unchanged_iff`): the waiting blocks are verified
  only when they are released.
-/

import CordialMiners.Node.LiveMirror

namespace CordialMiners

open FinGraph
open Blocklace (sampleBlock sampleId alreadyValidated)

namespace LiveBlocklaceMirror

variable {verifier : CryptoVerifier} {m m' : LiveBlocklaceMirror} {block b : Block}
  {err : Option MirrorError} {id : BlockIdentity}

/-! ### What a cascade does -/

theorem Clean.erase (h : m.Clean) (id : BlockIdentity) :
    Clean { m with pending := m.pending.erase id } where
  unused a ha := h.unused a (AList.mem_erase.1 ha).2
  distinct a ha c hc := h.distinct a (AList.mem_erase.1 ha).2 c (AList.mem_erase.1 hc).2

namespace Cascade

theorem clean (h : Cascade verifier m err m') (hm : m.Clean) : m'.Clean := by
  induction h with
  | done => exact hm
  | fail _ _ _ => exact hm.erase _
  | step hrel _ ih => exact ih (hrel.clean hm)

/-- A cascade fails exactly when it reaches a block that the verifier rejects. -/
theorem err_eq_none_iff (h : Cascade verifier m err m') (hm : m.Clean) :
    err = none ↔ ∀ b, m.Reached b → b.AcceptedBy verifier := by
  induction h with
  | done hstuck => exact iff_of_true rfl fun b hb => absurd hb (not_rooted_of_stuck hstuck)
  | @fail m b e hw hr hins =>
      refine iff_of_false (by simp) fun hall => ?_
      have hvar : m.blocklace.conflictingIdentityVariant b.identity = none :=
        Blocklace.conflictingIdentityVariant_eq_none_iff.2
          (Or.inr (hm.unused _ (mem_pending_of_waiting hw)))
      obtain ⟨B, hB⟩ := Blocklace.exists_insert_ok (hall b (.of_available hw hr)) hr hvar
      rw [hB] at hins
      exact absurd hins (by simp)
  | step hrel _ ih =>
      rw [ih (hrel.clean hm)]
      constructor
      · intro hall b hb
        obtain rfl | hb := hrel.reached_iff.1 hb
        · exact Blocklace.acceptedBy_of_insert hrel.insert
        · exact hall b hb
      · exact fun hall b hb => hall b (hrel.reached_iff.2 (Or.inr hb))

theorem mem_blocks (h : Cascade verifier m err m') (hid : id ∈ m.blocklace.blocks) :
    id ∈ m'.blocklace.blocks := by
  induction h with
  | done => exact hid
  | fail _ _ _ => exact hid
  | step hrel _ ih => exact ih (hrel.inserted.mem_iff.2 (Or.inr hid))

end Cascade

/-! ### What a call does -/

/-- Hash and creator of the block are new to the mirror. -/
def Fresh (m : LiveBlocklaceMirror) (block : Block) : Prop :=
  m.blocklace.Unused block.identity ∧
    ∀ a ∈ m.pending, a.consensusIdentity ≠ block.identity.consensusIdentity

/-- The state of a mirror that has stored `block`, up to its releases. -/
theorem applied_cascade (verifier : CryptoVerifier) (m : LiveBlocklaceMirror) :
    Cascade verifier m (errorOf (m.applied verifier).1) (m.applied verifier).2 := by
  unfold applied
  rw [errorOf_map]
  exact releasePending_cascade verifier m

/-- **Everything a call can do.** -/
theorem ingest_cases (verifier : CryptoVerifier) (m : LiveBlocklaceMirror) (block : Block) :
    (¬ m.Fresh block ∧ (m.ingest verifier block).2 = m) ∨
    (m.Fresh block ∧ ¬ m.Ready block ∧ m.ingest verifier block = (.ok ⟨.buffered, 0⟩,
      { m with pending := m.pending.insert block.identity block.content })) ∨
    (m.Fresh block ∧ m.Ready block ∧ ¬ block.AcceptedBy verifier ∧
      ∃ e, m.ingest verifier block = (.error (.insert e), m)) ∨
    (m.Fresh block ∧ m.Ready block ∧ block.AcceptedBy verifier ∧
      ∃ B, m.blocklace.insert block verifier = .ok B ∧
        m.ingest verifier block = applied verifier { m with blocklace := B }) := by
  unfold ingest
  cases hdup : m.duplicateOrIdentityConflict block.identity with
  | error e =>
      refine Or.inl ⟨fun hfresh => ?_, rfl⟩
      rw [duplicateOrIdentityConflict_eq_false_iff.2 hfresh] at hdup
      exact absurd hdup (by simp)
  | ok known =>
      cases known with
      | true =>
          refine Or.inl ⟨fun hfresh => ?_, rfl⟩
          rw [duplicateOrIdentityConflict_eq_false_iff.2 hfresh] at hdup
          exact absurd hdup (by simp)
      | false =>
          have hfresh : m.Fresh block := duplicateOrIdentityConflict_eq_false_iff.1 hdup
          refine Or.inr ?_
          by_cases hr : m.Ready block
          · have hav := predecessorsAvailable_iff.2 hr
            refine Or.inr ?_
            by_cases hacc : block.AcceptedBy verifier
            · obtain ⟨B, hB⟩ := Blocklace.exists_insert_ok hacc hr
                (Blocklace.conflictingIdentityVariant_eq_none_iff.2 (Or.inr hfresh.1))
              refine Or.inr ⟨hfresh, hr, hacc, B, hB, ?_⟩
              simp [hav, hB]
            · obtain ⟨e, he⟩ := Blocklace.insert_of_not_acceptedBy (B := m.blocklace) hacc
              refine Or.inl ⟨hfresh, hr, hacc, e, ?_⟩
              simp [hav, he]
          · have hav : m.predecessorsAvailable block = false := by
              rw [← Bool.not_eq_true, predecessorsAvailable_iff]
              exact hr
            refine Or.inl ⟨hfresh, hr, ?_⟩
            simp [hav]

theorem Clean.insert_blocklace {B : Blocklace} (h : m.Clean) (hfresh : m.Fresh block)
    (hB : B.blocks = m.blocklace.blocks.insert block.identity block.content) :
    Clean { m with blocklace := B } where
  unused a ha k hk := by
    rw [hB, AList.mem_insert] at hk
    obtain rfl | hk := hk
    · exact fun heq => hfresh.2 a ha heq.symm
    · exact h.unused a ha k hk
  distinct := h.distinct

theorem Clean.insert_pending (h : m.Clean) (hfresh : m.Fresh block) :
    Clean { m with pending := m.pending.insert block.identity block.content } where
  unused a ha := by
    obtain rfl | ha := (AList.mem_insert _).1 ha
    · exact hfresh.1
    · exact h.unused a ha
  distinct a ha c hc heq := by
    obtain rfl | ha := (AList.mem_insert _).1 ha <;> obtain rfl | hc := (AList.mem_insert _).1 hc
    · rfl
    · exact absurd heq.symm (hfresh.2 c hc)
    · exact absurd heq (hfresh.2 a ha)
    · exact h.distinct a ha c hc heq

theorem Clean.ingest (h : m.Clean) (verifier : CryptoVerifier) (block : Block) :
    (m.ingest verifier block).2.Clean := by
  obtain ⟨-, heq⟩ | ⟨hfresh, -, heq⟩ | ⟨-, -, -, e, heq⟩ | ⟨hfresh, -, -, B, hB, heq⟩ :=
    ingest_cases verifier m block
  · rw [heq]
    exact h
  · rw [heq]
    exact h.insert_pending hfresh
  · rw [heq]
    exact h
  · rw [heq]
    exact (applied_cascade verifier _).clean
      (h.insert_blocklace hfresh (Blocklace.insert_ok hB).blocks)

theorem Clean.ingestWithTrustedBoundary (h : m.Clean) (verifier : CryptoVerifier) (block : Block) :
    (m.ingestWithTrustedBoundary verifier block).2.Clean := by
  unfold LiveBlocklaceMirror.ingestWithTrustedBoundary
  split
  · exact h
  · exact h
  · next hdup =>
    have hfresh : m.Fresh block := duplicateOrIdentityConflict_eq_false_iff.1 hdup
    split
    · exact h
    · next B hB =>
      exact (applied_cascade verifier _).clean
        (h.insert_blocklace hfresh (Blocklace.insertWithTrustedBoundary_blocks hB))

/-! ### Errors -/

/-- A state of the mirror that deliveries lead to. -/
inductive Reachable (verifier : CryptoVerifier) : LiveBlocklaceMirror → Prop
  | new (k : ℕ) : Reachable verifier (.new k)
  | ingest {m : LiveBlocklaceMirror} (run : Reachable verifier m) (block : Block) :
      Reachable verifier (m.ingest verifier block).2
  | ingestWithTrustedBoundary {m : LiveBlocklaceMirror} (run : Reachable verifier m)
      (block : Block) : Reachable verifier (m.ingestWithTrustedBoundary verifier block).2

theorem Reachable.clean (h : Reachable verifier m) : m.Clean := by
  induction h with
  | new k => exact clean_new k
  | ingest _ block ih => exact ih.ingest verifier block
  | ingestWithTrustedBoundary _ block ih => exact ih.ingestWithTrustedBoundary verifier block

/-- The waiting blocks that follow from what is stored together with `block`. -/
def ReleasedBy (m : LiveBlocklaceMirror) (block b : Block) : Prop :=
  Rooted Block.refs Block.NamedBy (fun p => m.blocklace.Resolves p ∨ block.NamedBy p) m.waiting b

theorem reached_insert_iff {B : Blocklace} (h : m.blocklace.Inserted block B) :
    Reached { m with blocklace := B } b ↔ m.ReleasedBy block b := by
  unfold Reached ReleasedBy
  have hbase : Blocklace.Resolves B = fun p => m.blocklace.Resolves p ∨ block.NamedBy p :=
    funext fun p => propext h.resolves_iff
  rw [hbase]
  rfl

/-- **When an error leaves the mirror as it was.**  Exactly when the block is not
applied (its hash and creator are known, it waits, or the verifier rejects it),
or the verifier accepts every waiting block that it releases. -/
theorem ingest_error_unchanged_iff (hrun : Reachable verifier m) (block : Block) :
    (∀ e m', m.ingest verifier block = (.error e, m') → m' = m) ↔
      (m.Fresh block → m.Ready block → block.AcceptedBy verifier →
        ∀ b, m.ReleasedBy block b → b.AcceptedBy verifier) := by
  have hclean := hrun.clean
  obtain ⟨hfresh, heq⟩ | ⟨-, hready, heq⟩ | ⟨-, -, hacc, e, heq⟩ | ⟨hfresh, hr, hacc, B, hB, heq⟩ :=
    ingest_cases verifier m block
  · refine iff_of_true (fun e m' h => ?_) fun h => absurd h hfresh
    rw [← heq, h]
  · refine iff_of_true (fun e m' h => ?_) fun _ h => absurd h hready
    rw [heq] at h
    exact absurd h (by simp)
  · refine iff_of_true (fun e' m' h => ?_) fun _ _ h => absurd h hacc
    rw [heq] at h
    exact (Prod.mk.inj h).2.symm
  · have hins := Blocklace.insert_ok hB
    have hcas := applied_cascade verifier { m with blocklace := B }
    have hnone := hcas.err_eq_none_iff (hclean.insert_blocklace hfresh hins.blocks)
    simp only [reached_insert_iff hins] at hnone
    rw [heq]
    constructor
    · intro h _ _ _
      rw [← hnone]
      cases hres : applied verifier { m with blocklace := B } with
      | mk res m' =>
          cases res with
          | ok update => rfl
          | error e =>
              -- the block itself has been stored
              have hmem : block.identity ∈ m'.blocklace.blocks := by
                rw [hres] at hcas
                exact hcas.mem_blocks (hins.mem_iff.2 (Or.inl rfl))
              rw [h e m' hres] at hmem
              exact absurd hmem hfresh.1.not_mem
    · intro h e m' hres
      rw [hres] at hnone
      exact absurd (hnone.2 (h hfresh hr hacc)) (by simp [errorOf])

/-- A verifier that rejects the blocks of creator `2`. -/
def rejectsSecond : CryptoVerifier := fun _ _ creator =>
  if creator = ⟨[2]⟩ then .error "signature" else .ok ()

/-- A genesis block of creator `1` and a block of creator `2` on it. -/
def forgedChild : Block := sampleBlock (sampleId 2 2) [sampleId 1 1]

/-- A mirror in which the block of creator `2` waits for the genesis block. -/
def waitingForged : LiveBlocklaceMirror := ((new 0).ingest rejectsSecond forgedChild).2

/-- A block of creator `2` that is ready when it arrives is refused, and the
mirror with the waiting block stays as it was. -/
theorem ingest_error_unchanged_refused :
    waitingForged.ingest rejectsSecond (sampleBlock (sampleId 3 2) []) =
      (.error (.insert (.invalidSignature "signature")), waitingForged) := by
  have hrun : Reachable rejectsSecond waitingForged := .ingest (.new 0) forgedChild
  have hrejected : ¬ (sampleBlock (sampleId 3 2) []).AcceptedBy rejectsSecond := by
    unfold Block.AcceptedBy
    decide +kernel
  have hkeep := (ingest_error_unchanged_iff hrun (sampleBlock (sampleId 3 2) [])).2
    fun _ _ hacc => absurd hacc hrejected
  have herr : (waitingForged.ingest rejectsSecond (sampleBlock (sampleId 3 2) [])).1 =
      .error (.insert (.invalidSignature "signature")) := by decide +kernel
  exact Prod.ext herr (hkeep _ _ (Prod.ext herr rfl))

/-- The genesis block arrives.  The call returns an error, the genesis block is
stored, and the waiting block is gone. -/
theorem error_after_partial_release :
    ∃ (verifier : CryptoVerifier) (m m' : LiveBlocklaceMirror) (block child : Block)
      (e : MirrorError), Reachable verifier m ∧ m.ingest verifier block = (.error e, m') ∧
        block.identity ∉ m.blocklace.blocks ∧ block.identity ∈ m'.blocklace.blocks ∧
        child.identity ∈ m.pending ∧ child.identity ∉ m'.pending ∧
        child.identity ∉ m'.blocklace.blocks :=
  ⟨rejectsSecond, waitingForged,
    (waitingForged.ingest rejectsSecond (sampleBlock (sampleId 1 1) [])).2,
    sampleBlock (sampleId 1 1) [], forgedChild, .insert (.invalidSignature "signature"),
    .ingest (.new 0) forgedChild, Prod.ext (by decide +kernel) rfl, by decide +kernel,
    by decide +kernel, by decide +kernel, by decide +kernel, by decide +kernel⟩

/-! ### Convergence -/

/-- The mirror after the deliveries. -/
def ingestAll (verifier : CryptoVerifier) (m : LiveBlocklaceMirror) (deliveries : List Block) :
    LiveBlocklaceMirror :=
  deliveries.foldl (fun m block => (m.ingest verifier block).2) m

/-- What holds after the deliveries of `S`: every delivered block is stored or
waits, the stored ones are rooted, and nothing that waits is ready. -/
structure Settled (S : Set Block) (m : LiveBlocklaceMirror) : Prop where
  clean : m.Clean
  kept : ∀ b, b ∈ S ↔ m.blocklace.Stores b ∨ b ∈ m.waiting
  rooted : ∀ b, m.blocklace.Stores b → Rooted Block.refs Block.NamedBy (fun _ => False) S b
  stuck : ∀ b ∈ m.waiting, ¬ m.Ready b

theorem settled_new (k : ℕ) : Settled ∅ (new k) where
  clean := clean_new k
  kept b := iff_of_false (Set.notMem_empty b)
    (by rintro (h | h) <;> exact BlockMap.mem_toSet_empty h)
  rooted b h := absurd h BlockMap.mem_toSet_empty
  stuck b h := absurd h BlockMap.mem_toSet_empty

/-- A block whose references are stored is rooted when the stored blocks are. -/
theorem rooted_of_ready {S : Set Block} (hS : block ∈ S) (hr : m.Ready block)
    (hrooted : ∀ b, m.blocklace.Stores b → Rooted Block.refs Block.NamedBy (fun _ => False) S b) :
    Rooted Block.refs Block.NamedBy (fun _ => False) S block := by
  refine .of_refs hS fun p hp => Or.inr ?_
  obtain ⟨r, hmem, hnames⟩ := Blocklace.resolves_iff.1 (hr p hp)
  obtain ⟨content, hc⟩ := Blocklace.exists_lookup hmem
  exact ⟨⟨r, content⟩, hnames, hrooted ⟨r, content⟩ hc⟩

/-- A cascade without an error settles what it starts from. -/
theorem Cascade.settled {S : Set Block} (h : Cascade verifier m err m') (herr : err = none)
    (hclean : m.Clean) (hkept : ∀ b, b ∈ S ↔ m.blocklace.Stores b ∨ b ∈ m.waiting)
    (hrooted : ∀ b, m.blocklace.Stores b → Rooted Block.refs Block.NamedBy (fun _ => False) S b) :
    Settled S m' := by
  induction h with
  | done hstuck => exact ⟨hclean, hkept, hrooted, hstuck⟩
  | fail _ _ _ => exact absurd herr (by simp)
  | @step m m₁ m' b err hrel _ ih =>
      have hnew := (hclean.unused _ (mem_pending_of_waiting hrel.waiting)).not_mem
      have hstores : ∀ x, m₁.blocklace.Stores x ↔ m.blocklace.Stores x ∨ x = b :=
        fun x => hrel.inserted.stores_iff hnew
      refine ih herr (hrel.clean hclean) (fun x => ?_) fun x hx => ?_
      · rw [hkept, hstores, hrel.mem_waiting_iff]
        by_cases hxb : x = b
        · simp [hxb, hrel.waiting]
        · simp [hxb]
      · obtain hx | rfl := (hstores x).1 hx
        · exact hrooted x hx
        · exact rooted_of_ready ((hkept x).2 (Or.inr hrel.waiting)) hrel.ready hrooted

/-- **One delivery settles the delivered blocks.** -/
theorem Settled.ingest {S : Set Block} (h : Settled S m) (haccept : ∀ b : Block, b.AcceptedBy verifier)
    (hdistinct : ∀ b ∈ S, b.identity.consensusIdentity = block.identity.consensusIdentity →
      b = block) : Settled (insert block S) (m.ingest verifier block).2 := by
  have hmono : ∀ b, m.blocklace.Stores b →
      Rooted Block.refs Block.NamedBy (fun _ => False) (insert block S) b :=
    fun b hb => (h.rooted b hb).mono (fun _ => id) (Set.subset_insert _ _)
  obtain ⟨hknown, heq⟩ | ⟨hfresh, hr, heq⟩ | ⟨-, -, hacc, -⟩ | ⟨hfresh, hr, -, B, hB, heq⟩ :=
    ingest_cases verifier m block
  · -- hash and creator are known, so the block itself is
    have hmem : block ∈ S := by
      by_contra hnot
      refine hknown ⟨fun k hk hc => hnot ?_, fun a ha hc => hnot ?_⟩
      · obtain ⟨content, hl⟩ := Blocklace.exists_lookup hk
        have hkS : (⟨k, content⟩ : Block) ∈ S := (h.kept _).2 (Or.inl hl)
        exact hdistinct _ hkS hc ▸ hkS
      · obtain ⟨content, hl⟩ := Option.isSome_iff_exists.1 (AList.lookup_isSome.2 ha)
        have haS : (⟨a, content⟩ : Block) ∈ S := (h.kept _).2 (Or.inr hl)
        exact hdistinct _ haS hc ▸ haS
    rw [heq, Set.insert_eq_of_mem hmem]
    exact h
  · rw [heq]
    have hnot : block.identity ∉ m.pending := fun hmem => hfresh.2 _ hmem rfl
    have hwait : ∀ b, b ∈ waiting
        { m with pending := m.pending.insert block.identity block.content } ↔
          b ∈ m.waiting ∨ b = block := fun b => BlockMap.mem_toSet_insert hnot
    refine ⟨h.clean.insert_pending hfresh, fun b => ?_, hmono, fun b hb => ?_⟩
    · rw [Set.mem_insert_iff, h.kept, hwait]
      tauto
    · obtain hb | rfl := (hwait b).1 hb
      · exact h.stuck b hb
      · exact hr
  · exact absurd (haccept block) hacc
  · have hins := Blocklace.insert_ok hB
    have hclean := h.clean.insert_blocklace hfresh hins.blocks
    have hcas := applied_cascade verifier { m with blocklace := B }
    have hstores : ∀ x, B.Stores x ↔ m.blocklace.Stores x ∨ x = block :=
      fun x => hins.stores_iff hfresh.1.not_mem
    rw [heq]
    refine hcas.settled ((hcas.err_eq_none_iff hclean).2 fun b _ => haccept b) hclean
      (fun b => ?_) fun b hb => ?_
    · rw [Set.mem_insert_iff, h.kept]
      show _ ↔ B.Stores b ∨ b ∈ m.waiting
      rw [hstores]
      tauto
    · obtain hb | rfl := (hstores b).1 hb
      · exact hmono b hb
      · exact rooted_of_ready (Set.mem_insert _ _) hr hmono

theorem Settled.ingestAll {S : Set Block} (haccept : ∀ b : Block, b.AcceptedBy verifier)
    (deliveries : List Block) (h : Settled S m)
    (hdistinct : ∀ b ∈ S ∪ {b | b ∈ deliveries}, ∀ c ∈ S ∪ {b | b ∈ deliveries},
      b.identity.consensusIdentity = c.identity.consensusIdentity → b = c) :
    Settled (S ∪ {b | b ∈ deliveries}) (m.ingestAll verifier deliveries) := by
  induction deliveries generalizing S m with
  | nil => simpa [ingestAll] using h
  | cons block deliveries ih =>
      have hset : S ∪ {b | b ∈ block :: deliveries} =
          insert block S ∪ {b | b ∈ deliveries} := by
        ext b
        simp only [List.mem_cons, Set.mem_union, Set.mem_ofPred_eq, Set.mem_insert_iff]
        tauto
      rw [hset] at hdistinct ⊢
      refine ih (h.ingest haccept fun b hb hc => ?_) hdistinct
      exact hdistinct b (Or.inl (Or.inr hb)) block (Or.inl (Or.inl rfl)) hc

/-- Every rooted block of a settled mirror is stored. -/
theorem Settled.stores_iff {S : Set Block} (h : Settled S m) :
    m.blocklace.Stores b ↔ Rooted Block.refs Block.NamedBy (fun _ => False) S b := by
  refine ⟨h.rooted b, fun hb => ?_⟩
  induction hb with
  | @intro b source hmem hnames _ ih =>
      refine ((h.kept b).1 hmem).resolve_right fun hwait => h.stuck b hwait fun p hp => ?_
      exact Blocklace.resolves_iff.2 ⟨_, (ih p hp id).mem, hnames p hp id⟩

/-- **The mirror converges.**  For every list of deliveries of blocks with
distinct hash and creator, the stored blocks are the largest part of the
delivered ones that refers only to itself without a cycle, which is the largest
part that refers only to itself when the delivered blocks have no cycle; the
others wait, and none of them has all its references stored. -/
theorem mirror_converges (haccept : ∀ b : Block, b.AcceptedBy verifier) (k : ℕ)
    (deliveries : List Block)
    (hdistinct : ∀ b ∈ deliveries, ∀ c ∈ deliveries,
      b.identity.consensusIdentity = c.identity.consensusIdentity → b = c) :
    IsGreatest {T | T ⊆ {b | b ∈ deliveries} ∧ RefsClosed Block.refs Block.NamedBy T ∧
        NoCycle Block.refs Block.NamedBy T}
      {b | ((new k).ingestAll verifier deliveries).blocklace.Stores b} ∧
    (NoCycle Block.refs Block.NamedBy {b | b ∈ deliveries} →
      IsGreatest {T | T ⊆ {b | b ∈ deliveries} ∧ RefsClosed Block.refs Block.NamedBy T}
        {b | ((new k).ingestAll verifier deliveries).blocklace.Stores b}) ∧
    (∀ b, b ∈ ((new k).ingestAll verifier deliveries).waiting ↔
      b ∈ deliveries ∧ ¬ ((new k).ingestAll verifier deliveries).blocklace.Stores b) ∧
    ∀ b ∈ ((new k).ingestAll verifier deliveries).waiting,
      ¬ ((new k).ingestAll verifier deliveries).Ready b := by
  set m := (new k).ingestAll verifier deliveries
  have hsettled : Settled {b | b ∈ deliveries} m := by
    have := (settled_new k).ingestAll haccept deliveries (by simpa using hdistinct)
    simpa using this
  have hone : ∀ p, ∀ x ∈ {b | b ∈ deliveries}, ∀ y ∈ {b | b ∈ deliveries},
      Block.NamedBy p x → Block.NamedBy p y → x = y :=
    fun p x hx y hy hpx hpy => hdistinct x hx y hy (hpx.1.symm.trans hpy.1)
  have hstores : {b | m.blocklace.Stores b} =
      {b | Rooted Block.refs Block.NamedBy (fun _ => False) {b | b ∈ deliveries} b} :=
    Set.ext fun b => hsettled.stores_iff
  have hgreatest := @isGreatest_rooted _ _ Block.refs _ _ hone (List.finite_toSet deliveries)
  rw [← hstores] at hgreatest
  refine ⟨hgreatest, fun hcycle => ⟨⟨hgreatest.1.1, hgreatest.1.2.1⟩, ?_⟩, fun b => ?_,
    hsettled.stuck⟩
  · rintro T ⟨hT, hclosed⟩
    exact hgreatest.2 ⟨hT, hclosed, NoCycle.mono hT hcycle⟩
  · constructor
    · intro hb
      exact ⟨(hsettled.kept b).2 (Or.inr hb), fun hst =>
        (hsettled.clean.unused _ (mem_pending_of_waiting hb)).not_mem hst.mem⟩
    · exact fun ⟨hb, hst⟩ => ((hsettled.kept b).1 hb).resolve_left hst

/-- Two blocks that arrive in the wrong order, the second of them twice. -/
theorem mirror_converges_child_first :
    ((new 0).ingestAll alreadyValidated [forgedChild, sampleBlock (sampleId 1 1) [],
      forgedChild]).blocklace.Stores forgedChild := by
  have hdistinct : ∀ b ∈ [forgedChild, sampleBlock (sampleId 1 1) [], forgedChild],
      ∀ c ∈ [forgedChild, sampleBlock (sampleId 1 1) [], forgedChild],
        b.identity.consensusIdentity = c.identity.consensusIdentity → b = c := by decide +kernel
  obtain ⟨-, -, hwait, hstuck⟩ := mirror_converges
    (fun _ => rfl : ∀ b : Block, b.AcceptedBy alreadyValidated) 0
    [forgedChild, sampleBlock (sampleId 1 1) [], forgedChild] hdistinct
  by_contra hst
  refine hstuck forgedChild ((hwait forgedChild).2 ⟨by decide, hst⟩) ?_
  rw [← predecessorsAvailable_iff]
  decide +kernel

/-- A block that refers to itself. -/
def selfReference : Block := sampleBlock (sampleId 1 1) [sampleId 1 1]

/-- A block that refers to itself refers only to delivered blocks and is never stored. -/
theorem closed_part_not_stored :
    ∃ (verifier : CryptoVerifier) (deliveries : List Block),
      (∀ b : Block, b.AcceptedBy verifier) ∧
      (∀ b ∈ deliveries, ∀ c ∈ deliveries,
        b.identity.consensusIdentity = c.identity.consensusIdentity → b = c) ∧
      ¬ IsGreatest {T | T ⊆ {b | b ∈ deliveries} ∧ RefsClosed Block.refs Block.NamedBy T}
        {b | ((new 0).ingestAll verifier deliveries).blocklace.Stores b} := by
  refine ⟨alreadyValidated, [selfReference], fun _ => rfl, by decide, fun h => ?_⟩
  have hclosed : RefsClosed Block.refs Block.NamedBy {selfReference} := by
    intro x hx p hp
    obtain rfl := Set.mem_singleton_iff.1 hx
    obtain rfl : p = sampleId 1 1 := by simpa [Block.refs, selfReference, sampleBlock] using hp
    exact ⟨_, hx, rfl, Or.inl rfl⟩
  have hstored := h.2 ⟨by simp, hclosed⟩ (Set.mem_singleton selfReference)
  exact absurd (Blocklace.Stores.mem hstored) (by decide +kernel)

end LiveBlocklaceMirror

end CordialMiners
