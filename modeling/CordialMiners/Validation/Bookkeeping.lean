/-
# The books of a blocklace

Three calls store a block: `insert`, `insert_with_trusted_boundary` and
`validated_insert`.  The first and the last refuse a block whose references do not
all resolve, the second records the ones that do not as a trusted boundary of the
block.

All three come down to one change (`Stored`), and this change keeps the rows of the
boundary map exact: there is one row for each stored block with unresolved
references, and it lists them (`Booked`).  What the queries rely on follows, for
every run of calls.  A commit under an identity that is stored already replaces the
content, so it is the identity that a reference goes on naming, not the content.
-/

import CordialMiners.Validation.Admission

namespace CordialMiners

open FinGraph

/-- A call that stores a block. -/
inductive StoreCall where
  | insert (block : Block) (verifier : CryptoVerifier)
  | insertWithTrustedBoundary (block : Block) (verifier : CryptoVerifier)
  | validatedInsert (crypto : BlockCrypto) (block : Block) (bonds : Bonds) (config : ValidationConfig)

namespace StoreCall

/-- The block of a call. -/
def block : StoreCall → Block
  | insert block _ => block
  | insertWithTrustedBoundary block _ => block
  | validatedInsert _ block _ _ => block

/-- The block does not name itself, and validation checks closure. -/
structure Allowed (c : StoreCall) : Prop where
  notSelf : ∀ p ∈ c.block.content.predecessors, ¬ c.block.NamedBy p
  closure : ∀ crypto block bonds config, c = validatedInsert crypto block bonds config →
    config.checkClosure = true

theorem allowed_insert {block : Block} (h : ∀ p ∈ block.content.predecessors, ¬ block.NamedBy p)
    (verifier : CryptoVerifier) : (insert block verifier).Allowed :=
  ⟨h, fun _ _ _ _ heq => by cases heq⟩

theorem allowed_insertWithTrustedBoundary {block : Block}
    (h : ∀ p ∈ block.content.predecessors, ¬ block.NamedBy p) (verifier : CryptoVerifier) :
    (insertWithTrustedBoundary block verifier).Allowed :=
  ⟨h, fun _ _ _ _ heq => by cases heq⟩

end StoreCall

namespace Blocklace

/-- `trusted_boundary_predecessors`: the row of a block. -/
def trustedBoundaryPredecessorsOf (B : Blocklace) (id : BlockIdentity) :
    Option (List BlockIdentity) :=
  B.trustedBoundaryPredecessors.lookup id

/-- Whether a call succeeds, and the blocklace after it.  `insert` and
`insert_with_trusted_boundary` return their errors before anything is changed. -/
def store (B : Blocklace) : StoreCall → Bool × Blocklace
  | .insert block verifier =>
      match B.insert block verifier with
      | .ok B' => (true, B')
      | .error _ => (false, B)
  | .insertWithTrustedBoundary block verifier =>
      match B.insertWithTrustedBoundary block verifier with
      | .ok (_, B') => (true, B')
      | .error _ => (false, B)
  | .validatedInsert crypto block bonds config =>
      let (result, B') := B.validatedInsert crypto block bonds config
      (result.isValid, B')

/-- What a run of calls leaves, the failed ones included. -/
def storeAll (B : Blocklace) (calls : List StoreCall) : Blocklace :=
  calls.foldl (fun B c => (B.store c).2) B

/-! ### What a call does -/

/-- `B'` is `B` with `block` stored and its unresolved references recorded. -/
structure Stored (B : Blocklace) (block : Block) (B' : Blocklace) : Prop where
  blocks : B'.blocks = B.blocks.insert block.identity block.content
  boundaries : B'.trustedBoundaryPredecessors =
    (if B.missingPredecessors block.content = [] then []
      else [(block.identity, B.missingPredecessors block.content)]) ++
    clearResolvedBoundaries B'.blocks
      (B.trustedBoundaryPredecessors.filter fun row => row.1 ≠ block.identity)
  checkpoint : B'.checkpoint = B.checkpoint

variable {B B' : Blocklace} {block b : Block} {p id r : BlockIdentity} {verifier : CryptoVerifier}
  {missing : List BlockIdentity} {content : BlockContent}

theorem mem_clearResolvedBoundaries_iff {blocks : BlockMap}
    {boundaries : List (BlockIdentity × List BlockIdentity)} :
    (id, missing) ∈ clearResolvedBoundaries blocks boundaries ↔ missing ≠ [] ∧
      ∃ old, (id, old) ∈ boundaries ∧
        missing = old.filter fun pred => (resolveIdentityIn blocks pred).isNone := by
  unfold clearResolvedBoundaries
  rw [List.mem_filter, List.mem_map]
  constructor
  · rintro ⟨⟨⟨i, old⟩, hold, heq⟩, hne⟩
    obtain ⟨rfl, rfl⟩ := Prod.mk.inj heq
    exact ⟨by simpa using hne, old, hold, rfl⟩
  · rintro ⟨hne, old, hold, rfl⟩
    exact ⟨⟨(id, old), hold, rfl⟩, by simpa using hne⟩

theorem clearResolvedBoundaries_keys (blocks : BlockMap)
    (boundaries : List (BlockIdentity × List BlockIdentity)) :
    ((clearResolvedBoundaries blocks boundaries).map Prod.fst).Sublist
      (boundaries.map Prod.fst) := by
  have hmap : (boundaries.map fun row : BlockIdentity × List BlockIdentity =>
      (row.1, row.2.filter fun pred => (resolveIdentityIn blocks pred).isNone)).map Prod.fst =
        boundaries.map Prod.fst := by
    rw [List.map_map]
    rfl
  rw [← hmap]
  exact List.Sublist.map _ List.filter_sublist

theorem stored_of_commit (h : B.commitValidated block.identity block.content = .ok B')
    (hclosed : B.missingPredecessors block.content = []) : B.Stored block B' := by
  obtain ⟨-, hv, rfl⟩ := commitValidated_ok h
  refine ⟨rfl, ?_, rfl⟩
  rw [if_pos hclosed, List.nil_append]

theorem stored_of_insert (h : B.insert block verifier = .ok B') : B.Stored block B' := by
  have hins := insert_ok h
  refine ⟨hins.blocks, ?_, hins.checkpoint⟩
  rw [if_pos hins.closed, List.nil_append, hins.boundaries, hins.blocks]

theorem stored_of_insertWithTrustedBoundary
    (h : B.insertWithTrustedBoundary block verifier = .ok (missing, B')) : B.Stored block B' := by
  obtain ⟨rfl, B₁, hcommit, rfl⟩ := insertWithTrustedBoundary_ok h
  split_ifs with hnil
  · exact stored_of_commit hcommit hnil
  · obtain ⟨-, hv, rfl⟩ := commitValidated_ok hcommit
    refine ⟨rfl, ?_, rfl⟩
    rw [if_neg hnil, List.singleton_append]
    -- the rows of other blocks are not touched again
    refine congrArg (_ :: ·) (List.filter_eq_self.2 ?_)
    rintro ⟨i, m⟩ hrow
    obtain ⟨-, old, hold, -⟩ := mem_clearResolvedBoundaries_iff.1 hrow
    exact (List.mem_filter.1 hold).2

/-- **A call stores its block, or changes nothing.** -/
theorem store_cases {c : StoreCall} (hallowed : c.Allowed) :
    (B.store c).1 = true ∧ B.Stored c.block (B.store c).2 ∨ B.store c = (false, B) := by
  cases c with
  | insert block verifier =>
      cases h : B.insert block verifier with
      | error e => exact Or.inr (by simp only [store, h])
      | ok B' =>
          have hstore : B.store (.insert block verifier) = (true, B') := by simp only [store, h]
          rw [hstore]
          exact Or.inl ⟨rfl, stored_of_insert h⟩
  | insertWithTrustedBoundary block verifier =>
      cases h : B.insertWithTrustedBoundary block verifier with
      | error e => exact Or.inr (by simp only [store, h])
      | ok result =>
          have hstore : B.store (.insertWithTrustedBoundary block verifier) = (true, result.2) := by
            simp only [store, h]
          rw [hstore]
          exact Or.inl ⟨rfl, stored_of_insertWithTrustedBoundary h⟩
  | validatedInsert crypto block bonds config =>
      obtain ⟨hvalid, B', hcommit, heq⟩ | ⟨errors, -, heq⟩ :=
        @validatedInsert_cases B block crypto bonds config
      · have hstore : B.store (.validatedInsert crypto block bonds config) = (true, B') := by
          simp only [store, heq, ValidationResult.isValid]
        have hclosure := hallowed.closure crypto block bonds config rfl
        rw [hstore]
        exact Or.inl ⟨rfl, stored_of_commit hcommit (missingPredecessors_eq_nil_iff.2
          ((validateBlock_eq_valid_iff.1 hvalid).2.2.2.1 hclosure))⟩
      · exact Or.inr (by simp only [store, heq, ValidationResult.isValid])

/-! ### The boundary map is exact -/

/-- There is one row for each stored block with unresolved references, and it
lists them. -/
structure Booked (B : Blocklace) : Prop where
  checkpoint : B.checkpoint = none
  keys : (B.trustedBoundaryPredecessors.map Prod.fst).Nodup
  rows : ∀ id missing, (id, missing) ∈ B.trustedBoundaryPredecessors ↔ missing ≠ [] ∧
    ∃ content, B.blocks.lookup id = some content ∧ missing = B.missingPredecessors content

theorem booked_new (token : ℕ) : Booked (new token) := by
  refine ⟨rfl, List.nodup_nil, fun id missing => ?_⟩
  refine iff_of_false List.not_mem_nil ?_
  rintro ⟨-, content, hl, -⟩
  exact absurd (mem_of_lookup hl) (AList.notMem_empty id)

/-- What is unresolved after the block is stored was unresolved before, and does not
name the block. -/
theorem Stored.missing_eq_filter (h : B.Stored block B') (content : BlockContent) :
    B'.missingPredecessors content =
      (B.missingPredecessors content).filter fun pred => (B'.resolveIdentity pred).isNone := by
  unfold missingPredecessors
  rw [List.filter_filter]
  refine List.filter_congr fun pred _ => ?_
  rw [Bool.eq_iff_iff, Bool.and_eq_true, iff_self_and]
  intro hnone
  rw [Option.isNone_iff_eq_none, ← Option.not_isSome_iff_eq_none] at hnone ⊢
  refine fun hsome => hnone ?_
  obtain ⟨r, hr⟩ := (resolves_iff_of_blocks h.blocks).2 (Or.inl (Option.isSome_iff_exists.1 hsome))
  rw [hr]
  rfl

/-- Nothing the block refers to becomes resolved by it. -/
theorem Stored.missing_self (h : B.Stored block B')
    (hself : ∀ p ∈ block.content.predecessors, ¬ block.NamedBy p) :
    B'.missingPredecessors block.content = B.missingPredecessors block.content := by
  unfold missingPredecessors
  refine List.filter_congr fun pred hpred => ?_
  rw [Bool.eq_iff_iff, Option.isNone_iff_eq_none, Option.isNone_iff_eq_none,
    ← Option.not_isSome_iff_eq_none, ← Option.not_isSome_iff_eq_none, Option.isSome_iff_exists,
    Option.isSome_iff_exists]
  exact not_congr ((resolves_iff_of_blocks h.blocks).trans (or_iff_left (hself pred hpred)))

theorem Booked.stored (hbooked : B.Booked) (h : B.Stored block B')
    (hself : ∀ p ∈ block.content.predecessors, ¬ block.NamedBy p) : B'.Booked := by
  have hothers : ∀ i m, (i, m) ∈ clearResolvedBoundaries B'.blocks
      (B.trustedBoundaryPredecessors.filter fun row => row.1 ≠ block.identity) ↔
      m ≠ [] ∧ i ≠ block.identity ∧
        ∃ content, B.blocks.lookup i = some content ∧ m = B'.missingPredecessors content := by
    intro i m
    rw [mem_clearResolvedBoundaries_iff]
    refine and_congr_right fun hne => ?_
    simp only [List.mem_filter, decide_eq_true_eq, hbooked.rows]
    constructor
    · rintro ⟨_, ⟨⟨-, content, hl, rfl⟩, hi⟩, rfl⟩
      exact ⟨hi, content, hl, (h.missing_eq_filter content).symm⟩
    · rintro ⟨hi, content, hl, rfl⟩
      refine ⟨_, ⟨⟨?_, content, hl, rfl⟩, hi⟩, h.missing_eq_filter content⟩
      intro hnil
      rw [h.missing_eq_filter, hnil] at hne
      exact hne rfl
  refine ⟨h.checkpoint.trans hbooked.checkpoint, ?_, fun i m => ?_⟩
  · rw [h.boundaries, List.map_append, List.nodup_append']
    refine ⟨by split_ifs <;> simp, ?_, ?_⟩
    · exact (hbooked.keys.sublist (List.filter_sublist.map _)).sublist
        (clearResolvedBoundaries_keys _ _)
    · intro i hi hrest
      obtain ⟨⟨i, m⟩, hrow, rfl⟩ := List.mem_map.1 hrest
      split_ifs at hi with hnil
      · exact List.not_mem_nil hi
      · exact ((hothers i m).1 hrow).2.1 (by simpa using hi)
  · rw [h.boundaries, List.mem_append, hothers, h.blocks]
    by_cases hi : i = block.identity
    · subst hi
      rw [AList.lookup_insert]
      simp only [ne_eq, not_true_eq_false, false_and, and_false, or_false, Option.some.injEq,
        exists_eq_left', h.missing_self hself]
      split_ifs with hnil
      · simp [hnil]
      · rw [List.mem_singleton, Prod.mk.injEq]
        constructor
        · rintro ⟨-, rfl⟩
          exact ⟨hnil, rfl⟩
        · rintro ⟨-, rfl⟩
          exact ⟨rfl, rfl⟩
    · rw [AList.lookup_insert_ne hi]
      have hown : (i, m) ∉ if B.missingPredecessors block.content = [] then []
          else [(block.identity, B.missingPredecessors block.content)] := by
        split_ifs <;> simp [hi]
      simp [hown, hi]

theorem Booked.storeAll {calls : List StoreCall} (hbooked : B.Booked)
    (hallowed : ∀ c ∈ calls, c.Allowed) : (B.storeAll calls).Booked := by
  induction calls generalizing B with
  | nil => exact hbooked
  | cons c calls ih =>
      refine ih ?_ fun d hd => hallowed d (List.mem_cons_of_mem _ hd)
      have hc := hallowed c List.mem_cons_self
      obtain ⟨-, hstored⟩ | hsame := @store_cases B c hc
      · exact hbooked.stored hstored hc.notSelf
      · show (B.store c).2.Booked
        rwa [hsame]

/-! ### What the queries see -/

theorem Booked.lookup_eq_some_iff (h : B.Booked) :
    B.trustedBoundaryPredecessorsOf id = some missing ↔
      (id, missing) ∈ B.trustedBoundaryPredecessors := by
  unfold trustedBoundaryPredecessorsOf
  have hkeys := h.keys
  clear h
  generalize B.trustedBoundaryPredecessors = rows at hkeys ⊢
  induction rows with
  | nil => simp
  | cons row rows ih =>
      obtain ⟨i, m⟩ := row
      rw [List.map_cons, List.nodup_cons] at hkeys
      rw [List.lookup_cons, List.mem_cons, Prod.mk.injEq]
      by_cases hid : id = i
      · subst hid
        have hrest : (id, missing) ∉ rows := fun hmem => hkeys.1 (List.mem_map.2 ⟨_, hmem, rfl⟩)
        simp [hrest, eq_comm]
      · have hbeq : (id == i) = false := by simpa using hid
        rw [hbeq]
        simp only [hid, false_and, false_or]
        exact ih hkeys.2

/-- A reference of a stored block resolves, or is recorded as its boundary. -/
theorem Booked.resolves_or_recorded (h : B.Booked) (hb : B.Stores b)
    (hp : p ∈ b.content.predecessors) :
    B.Resolves p ∨ ∃ missing, B.trustedBoundaryPredecessorsOf b.identity = some missing ∧
      p ∈ missing := by
  by_cases hres : B.Resolves p
  · exact Or.inl hres
  · have hmem : p ∈ B.missingPredecessors b.content := by
      refine List.mem_filter.2 ⟨hp, ?_⟩
      rw [Option.isNone_iff_eq_none, ← Option.not_isSome_iff_eq_none, Option.isSome_iff_exists]
      exact hres
    refine Or.inr ⟨_, h.lookup_eq_some_iff.2 ((h.rows _ _).2 ⟨?_, b.content, hb, rfl⟩), hmem⟩
    exact List.ne_nil_of_mem hmem

/-- There is no boundary exactly where nothing is missing. -/
theorem Booked.hasTrustedBoundaries_eq_false_iff (h : B.Booked) :
    B.hasTrustedBoundaries = false ↔ B.isClosed = true := by
  have hnil : B.hasTrustedBoundaries = false ↔ B.trustedBoundaryPredecessors = [] := by
    simp [hasTrustedBoundaries]
  have hempty : ∀ content, B.missingPredecessors content = [] ↔
      ∀ p ∈ content.predecessors, ∃ r, B.resolveIdentity p = some r := by
    intro content
    exact @missingPredecessors_eq_nil_iff B ⟨sampleId 0 0, content⟩
  rw [hnil, isClosed_iff]
  constructor
  · intro hrows id content hl _
    refine (hempty content).1 (by_contra fun hne => ?_)
    have hrow := (h.rows id _).2 ⟨hne, content, hl, rfl⟩
    rw [hrows] at hrow
    exact List.not_mem_nil hrow
  · intro hclosed
    refine List.eq_nil_iff_forall_not_mem.2 ?_
    rintro ⟨id, missing⟩ hrow
    obtain ⟨hne, content, hl, rfl⟩ := (h.rows id missing).1 hrow
    exact hne ((hempty content).2 (hclosed id content hl (by rw [h.checkpoint]; simp)))

/-! ### What a reference goes on naming -/

theorem Stored.resolveIdentity (h : B.Stored block B') (hr : B.resolveIdentity p = some r) :
    B'.resolveIdentity p = some r := by
  rw [resolveIdentity_eq_some_iff] at hr ⊢
  rw [h.blocks]
  exact ⟨(AList.mem_insert _).2 (Or.inr hr.1), hr.2⟩

/-- A call keeps what a reference names, but for the content of the call's own block. -/
theorem get_store {c : StoreCall} (hallowed : c.Allowed) (hb : B.get p = some b) :
    (B.store c).2.get p = some b ∨ c.block.identity = b.identity ∧
      (B.store c).2.get p = some c.block := by
  obtain ⟨-, hstored⟩ | hsame := @store_cases B c hallowed
  · obtain ⟨hr, hl⟩ := get_eq_some_iff.1 hb
    have hr' := hstored.resolveIdentity hr
    by_cases hid : c.block.identity = b.identity
    · refine Or.inr ⟨hid, get_eq_some_iff.2 ⟨hid ▸ hr', ?_⟩⟩
      rw [hstored.blocks, AList.lookup_insert]
    · refine Or.inl (get_eq_some_iff.2 ⟨hr', ?_⟩)
      rw [hstored.blocks, AList.lookup_insert_ne (Ne.symm hid)]
      exact hl
  · rw [hsame]
    exact Or.inl hb

/-- **A run keeps the identity that a reference names**, and the whole block if no
call of the run brings its identity with another content. -/
theorem get_storeAll {calls : List StoreCall} (hallowed : ∀ c ∈ calls, c.Allowed)
    (hb : B.get p = some b) :
    ∃ b', (B.storeAll calls).get p = some b' ∧ b'.identity = b.identity ∧
      ((∀ c ∈ calls, c.block.identity = b.identity → c.block.content = b.content) → b' = b) := by
  induction calls generalizing B b with
  | nil => exact ⟨b, hb, rfl, fun _ => rfl⟩
  | cons c calls ih =>
      have hrest := fun d hd => hallowed d (List.mem_cons_of_mem c hd)
      obtain hkept | ⟨hid, hnew⟩ := get_store (hallowed c List.mem_cons_self) hb
      · obtain ⟨b', hb', hid', hsame⟩ := ih hrest hkept
        exact ⟨b', hb', hid', fun h => hsame fun d hd => h d (List.mem_cons_of_mem c hd)⟩
      · obtain ⟨b', hb', hid', hsame⟩ := ih hrest hnew
        refine ⟨b', hb', hid'.trans hid, fun h => ?_⟩
        have hblock : c.block = b := by
          have hcontent := h c List.mem_cons_self hid
          cases hc : c.block
          cases b
          simp_all
        rw [← hblock]
        exact hsame fun d hd hd' => by
          rw [hblock] at hd' ⊢
          exact h d (List.mem_cons_of_mem c hd) hd'

/-! ### The invariant -/

/-- **The representation invariant of the blocklace.**  After any run of allowed
calls from the empty blocklace, failed ones included: one signature variant of each
hash and creator is stored; a reference resolves or is recorded as a boundary of its
block; there is no boundary exactly where the blocklace is closed; whatever calls
follow, a reference goes on naming the identity it names, and the block as long as
none of them brings other content for it; and a call that fails changes nothing. -/
theorem representation_invariant (token : ℕ) (calls later : List StoreCall)
    (hallowed : ∀ c ∈ calls ++ later, c.Allowed) :
    (∀ a ∈ ((new token).storeAll calls).blocks,
      ∀ b ∈ ((new token).storeAll calls).blocks,
        a.consensusIdentity = b.consensusIdentity → a = b) ∧
    (∀ b, ((new token).storeAll calls).Stores b → ∀ p ∈ b.content.predecessors,
      ((new token).storeAll calls).Resolves p ∨ ∃ missing,
        ((new token).storeAll calls).trustedBoundaryPredecessorsOf b.identity =
          some missing ∧ p ∈ missing) ∧
    (((new token).storeAll calls).hasTrustedBoundaries = false ↔
      ((new token).storeAll calls).isClosed = true) ∧
    (∀ p b, ((new token).storeAll calls).get p = some b →
      ∃ b', (((new token).storeAll calls).storeAll later).get p = some b' ∧
        b'.identity = b.identity ∧
          ((∀ c ∈ later, c.block.identity = b.identity → c.block.content = b.content) → b' = b)) ∧
    ∀ c : StoreCall, c.Allowed → (((new token).storeAll calls).store c).1 = false →
      (((new token).storeAll calls).store c).2 =
        (new token).storeAll calls := by
  have hbooked : ((new token).storeAll calls).Booked :=
    (booked_new token).storeAll fun c hc => hallowed c (List.mem_append_left _ hc)
  refine ⟨fun a ha b hb => eq_of_consensusIdentity_eq ha hb,
    fun b hb p hp => hbooked.resolves_or_recorded hb hp,
    hbooked.hasTrustedBoundaries_eq_false_iff,
    fun p b hb => get_storeAll (fun c hc => hallowed c (List.mem_append_right _ hc)) hb,
    fun c hc hfail => ?_⟩
  obtain ⟨hok, -⟩ | hsame := @store_cases ((new token).storeAll calls) c hc
  · rw [hok] at hfail
    exact absurd hfail (by simp)
  · rw [hsame]

/-- A block whose reference, unsigned, is not there yet. -/
def orphan : Block := sampleBlock (sampleId 2 2) [sampleId 1 1]

/-- The block it refers to, signed. -/
def signedParent : Block := sampleBlock { sampleId 1 1 with signature := [8] } []

/-- The same identity with a payload. -/
def replacedParent : Block := ⟨signedParent.identity, ⟨[7], []⟩⟩

theorem allowed_orphanCalls : ∀ c ∈ ([.insertWithTrustedBoundary orphan alreadyValidated,
    .insert signedParent alreadyValidated] ++ [.insert replacedParent alreadyValidated] :
      List StoreCall), c.Allowed := by
  intro c hc
  simp only [List.cons_append, List.nil_append, List.mem_cons, List.not_mem_nil, or_false] at hc
  rcases hc with rfl | rfl | rfl
  · exact StoreCall.allowed_insertWithTrustedBoundary (by decide) _
  · exact StoreCall.allowed_insert (by decide) _
  · exact StoreCall.allowed_insert (by decide) _

/-- A boundary is recorded, and filled in by an ordinary insert under a signature. -/
theorem representation_invariant_orphan :
    ((new 0).storeAll
        [.insertWithTrustedBoundary orphan alreadyValidated]).hasTrustedBoundaries = true ∧
      ((new 0).storeAll [.insertWithTrustedBoundary orphan alreadyValidated,
        .insert signedParent alreadyValidated]).hasTrustedBoundaries = false ∧
      ∃ b, (((new 0).storeAll [.insertWithTrustedBoundary orphan alreadyValidated,
        .insert signedParent alreadyValidated]).storeAll
          [.insert replacedParent alreadyValidated]).get (sampleId 1 1) = some b ∧
        b.identity = signedParent.identity := by
  obtain ⟨-, -, hclosed, hkept, -⟩ := representation_invariant 0 _ _ allowed_orphanCalls
  obtain ⟨b, hb, hid, -⟩ := hkept (sampleId 1 1) signedParent (by decide +kernel)
  exact ⟨by decide +kernel, hclosed.2 (by decide +kernel), b, hb, hid⟩

/-- **A reference can come to name another content.**  An insert under a stored
identity replaces what is stored there. -/
theorem reference_to_replaced_content :
    ∃ (calls later : List StoreCall) (p : BlockIdentity) (b : Block),
      (∀ c ∈ calls ++ later, c.Allowed) ∧
        ((new 0).storeAll calls).get p = some b ∧
        (((new 0).storeAll calls).storeAll later).get p ≠ some b :=
  ⟨_, _, sampleId 1 1, signedParent, allowed_orphanCalls, by decide +kernel,
    by decide +kernel⟩

end Blocklace

end CordialMiners
