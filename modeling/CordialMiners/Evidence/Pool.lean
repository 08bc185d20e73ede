/-
# Retaining equivocation evidence

`consensus/evidence.rs`.

A pool keeps records under the validator, then the round, then the sorted
identities of the conflicting blocks, so that one conflict is recorded once.
The pool is generic in the validators, the blocks and their identities, as in
the source; its maps are ordered, and `evidenceFor` reads them in key order.

`recordRejectedEquivocation` is called with a block that validation has refused:
it looks up the stored block that each equivocation error names and records the
two under the smaller of their rounds.
-/

import CordialMiners.Validation.Block

namespace CordialMiners

/-- An untrusted claim that one validator created conflicting blocks. -/
structure EquivocationEvidence (V P : Type) where
  validator : V
  round : ℕ
  blocks : List P
deriving DecidableEq, Repr

/-- `BTreeMap<Vec<Id>, EquivocationEvidence>`. -/
abbrev EvidenceBucket (V P Id : Type) := AList fun _ : List Id => EquivocationEvidence V P

/-- `BTreeMap<u64, EvidenceBucket>`. -/
abbrev EvidenceRounds (V P Id : Type) := AList fun _ : ℕ => EvidenceBucket V P Id

/-- The in-memory pool, keyed by validator, then by round. -/
structure InMemoryEvidencePool (V P Id : Type) where
  records : AList fun _ : V => EvidenceRounds V P Id

/-- The entries of an ordered map in key order. -/
def sortedEntries {κ β : Type} [LinearOrder κ] (m : AList fun _ : κ => β) :
    List (Sigma fun _ : κ => β) :=
  m.entries.insertionSort fun a b => a.1 ≤ b.1

theorem mem_sortedEntries {κ β : Type} [LinearOrder κ] {m : AList fun _ : κ => β}
    {entry : Sigma fun _ : κ => β} : entry ∈ sortedEntries m ↔ entry ∈ m.entries := by
  unfold sortedEntries
  exact List.mem_insertionSort _

namespace InMemoryEvidencePool

variable {V P Id : Type} [LinearOrder V] [LinearOrder Id]

/-- `InMemoryEvidencePool::new`. -/
def new : InMemoryEvidencePool V P Id := ⟨∅⟩

/-- The distinct blocks by identity, the first of each. -/
def uniqueBlocks (evidenceId : P → Id) (blocks : List P) : AList fun _ : Id => P :=
  blocks.foldl (fun m block =>
    if evidenceId block ∈ m then m else m.insert (evidenceId block) block) ∅

/-- The records of a validator. -/
def roundsOf (pool : InMemoryEvidencePool V P Id) (validator : V) : EvidenceRounds V P Id :=
  (pool.records.lookup validator).getD ∅

/-- The records of a validator in a round. -/
def bucketOf (pool : InMemoryEvidencePool V P Id) (validator : V) (round : ℕ) :
    EvidenceBucket V P Id :=
  ((pool.roundsOf validator).lookup round).getD ∅

/-- `record_equivocation`: `true` when a new record was inserted. -/
def recordEquivocation (evidenceId : P → Id) (pool : InMemoryEvidencePool V P Id) (validator : V)
    (round : ℕ) (blocks : List P) : Bool × InMemoryEvidencePool V P Id :=
  let unique := sortedEntries (uniqueBlocks evidenceId blocks)
  let key := unique.map fun entry => entry.1
  let bucket := pool.bucketOf validator round
  if unique.length < 2 then (false, pool)
  else if key ∈ bucket then (false, pool)
  else
    (true,
      ⟨pool.records.insert validator ((pool.roundsOf validator).insert round
        (bucket.insert key ⟨validator, round, unique.map fun entry => entry.2⟩))⟩)

/-- `evidence_for`: by round, then by the identities of the blocks. -/
def evidenceFor (pool : InMemoryEvidencePool V P Id) (validator : V) :
    List (EquivocationEvidence V P) :=
  (sortedEntries (pool.roundsOf validator)).flatMap fun entry =>
    (sortedEntries entry.2).map fun record => record.2

variable {pool : InMemoryEvidencePool V P Id} {v w : V} {round : ℕ} {blocks : List P}
  {evidenceId : P → Id} {evidence : EquivocationEvidence V P}

theorem mem_evidenceFor_iff :
    evidence ∈ pool.evidenceFor v ↔
      ∃ (round : ℕ) (key : List Id), (pool.bucketOf v round).lookup key = some evidence := by
  unfold evidenceFor bucketOf
  simp only [List.mem_flatMap, List.mem_map, mem_sortedEntries, Sigma.exists]
  constructor
  · rintro ⟨round, bucket, hb, key, e, he, rfl⟩
    refine ⟨round, key, ?_⟩
    rw [AList.mem_lookup_iff.2 hb]
    exact AList.mem_lookup_iff.2 he
  · rintro ⟨round, key, h⟩
    cases hb : (pool.roundsOf v).lookup round with
    | none =>
        rw [hb] at h
        exact absurd h (by simp)
    | some bucket =>
        rw [hb] at h
        exact ⟨round, bucket, AList.mem_lookup_iff.1 hb, key, evidence, AList.mem_lookup_iff.1 h, rfl⟩

omit [LinearOrder Id] in
/-- The bucket of a new record, and every other bucket. -/
theorem bucketOf_insert (rounds : ℕ) (bucket : EvidenceBucket V P Id) (w : V) (k : ℕ) :
    bucketOf ⟨pool.records.insert v ((pool.roundsOf v).insert rounds bucket)⟩ w k =
      if w = v ∧ k = rounds then bucket else pool.bucketOf w k := by
  unfold bucketOf roundsOf
  by_cases hw : w = v
  · subst hw
    rw [AList.lookup_insert, Option.getD_some]
    by_cases hk : k = rounds
    · subst hk
      rw [AList.lookup_insert]
      simp
    · rw [AList.lookup_insert_ne hk]
      simp [hk]
  · rw [AList.lookup_insert_ne hw]
    simp [hw]

/-- The record that a call makes of its blocks. -/
def recordOf (evidenceId : P → Id) (v : V) (round : ℕ) (blocks : List P) :
    EquivocationEvidence V P :=
  ⟨v, round, (sortedEntries (uniqueBlocks evidenceId blocks)).map fun entry => entry.2⟩

/-- **What a call adds:** the record of its blocks at most. -/
theorem mem_evidenceFor_of_record
    (h : evidence ∈ (pool.recordEquivocation evidenceId v round blocks).2.evidenceFor w) :
    evidence ∈ pool.evidenceFor w ∨ w = v ∧ evidence = recordOf evidenceId v round blocks := by
  unfold recordEquivocation at h
  simp only at h
  split_ifs at h with hfew hkey
  · exact Or.inl h
  · exact Or.inl h
  · obtain ⟨k, key, hk⟩ := mem_evidenceFor_iff.1 h
    rw [bucketOf_insert] at hk
    split_ifs at hk with hwk
    · obtain ⟨rfl, rfl⟩ := hwk
      by_cases hkk : key = (sortedEntries (uniqueBlocks evidenceId blocks)).map fun entry => entry.1
      · subst hkk
        rw [AList.lookup_insert] at hk
        exact Or.inr ⟨rfl, (Option.some.inj hk).symm⟩
      · rw [AList.lookup_insert_ne hkk] at hk
        exact Or.inl (mem_evidenceFor_iff.2 ⟨k, key, hk⟩)
    · exact Or.inl (mem_evidenceFor_iff.2 ⟨k, key, hk⟩)

/-- No record is lost. -/
theorem mem_evidenceFor_record (h : evidence ∈ pool.evidenceFor w) :
    evidence ∈ (pool.recordEquivocation evidenceId v round blocks).2.evidenceFor w := by
  unfold recordEquivocation
  simp only
  split_ifs with hfew hkey
  · exact h
  · exact h
  · obtain ⟨k, key, hk⟩ := mem_evidenceFor_iff.1 h
    refine mem_evidenceFor_iff.2 ⟨k, key, ?_⟩
    rw [bucketOf_insert]
    split_ifs with hwk
    · obtain ⟨rfl, rfl⟩ := hwk
      have hne : key ≠ (sortedEntries (uniqueBlocks evidenceId blocks)).map fun entry => entry.1 := by
        rintro rfl
        exact hkey (AList.lookup_isSome.1 (by rw [hk]; rfl))
      rw [AList.lookup_insert_ne hne]
      exact hk
    · exact hk

/-- Two distinct blocks leave evidence against the validator. -/
theorem evidenceFor_record_ne_nil
    (h : 2 ≤ (sortedEntries (uniqueBlocks evidenceId blocks)).length) :
    (pool.recordEquivocation evidenceId v round blocks).2.evidenceFor v ≠ [] := by
  unfold recordEquivocation
  simp only
  rw [if_neg (by omega)]
  split_ifs with hkey
  · obtain ⟨evidence, he⟩ := Option.isSome_iff_exists.1 (AList.lookup_isSome.2 hkey)
    exact List.ne_nil_of_mem (mem_evidenceFor_iff.2 ⟨round, _, he⟩)
  · refine List.ne_nil_of_mem (a := recordOf evidenceId v round blocks) ?_
    refine mem_evidenceFor_iff.2
      ⟨round, (sortedEntries (uniqueBlocks evidenceId blocks)).map fun entry => entry.1, ?_⟩
    rw [bucketOf_insert, if_pos ⟨rfl, rfl⟩, AList.lookup_insert]
    rfl

/-- Two blocks with different identities are both kept. -/
theorem sortedEntries_pair {x y : P} (h : evidenceId x ≠ evidenceId y) :
    (sortedEntries (uniqueBlocks evidenceId [x, y])).Perm
      [⟨evidenceId y, y⟩, ⟨evidenceId x, x⟩] := by
  let first : AList fun _ : Id => P := (∅ : AList fun _ : Id => P).insert (evidenceId x) x
  have hmem : evidenceId y ∉ first := by
    intro hmem
    obtain heq | hF := (AList.mem_insert _).1 hmem
    · exact h heq.symm
    · exact AList.notMem_empty _ hF
  have hunique : uniqueBlocks evidenceId [x, y] = first.insert (evidenceId y) y := by
    simp only [uniqueBlocks, List.foldl_cons, List.foldl_nil, AList.notMem_empty, if_false]
    exact if_neg hmem
  have hentries : (uniqueBlocks evidenceId [x, y]).entries =
      [⟨evidenceId y, y⟩, ⟨evidenceId x, x⟩] := by
    rw [hunique, AList.entries_insert_of_notMem hmem]
    rfl
  unfold sortedEntries
  rw [hentries]
  exact List.perm_insertionSort _ _

theorem length_sortedEntries_pair {x y : P} (h : evidenceId x ≠ evidenceId y) :
    (sortedEntries (uniqueBlocks evidenceId [x, y])).length = 2 :=
  (sortedEntries_pair h).length_eq

omit [LinearOrder V] in
theorem recordOf_pair {x y : P} (h : evidenceId x ≠ evidenceId y) :
    (recordOf evidenceId v round [x, y]).blocks.Perm [y, x] :=
  (sortedEntries_pair h).map _

/-- Two blocks leave a record when their identities differ. -/
theorem evidenceFor_record_pair {x y : P} (h : evidenceId x ≠ evidenceId y) :
    (pool.recordEquivocation evidenceId v round [x, y]).2.evidenceFor v ≠ [] :=
  evidenceFor_record_ne_nil (length_sortedEntries_pair h).ge

end InMemoryEvidencePool

/-! ### Capturing the proof at the rejection -/

abbrev CordialEquivocationEvidence := EquivocationEvidence NodeId Block

abbrev CordialEvidencePool := InMemoryEvidencePool NodeId Block BlockIdentity

namespace Blocklace

/-- What one error of a rejected block adds to the pool. -/
def recordConflict (rejected : Block) (B : Blocklace) (state : Bool × CordialEvidencePool) :
    InvalidBlock → Bool × CordialEvidencePool
  | .equivocation conflicting =>
      match B.get conflicting, B.depth conflicting, B.candidateDepth rejected.content with
      | some held, some round, some rejectedRound =>
          let result := state.2.recordEquivocation Block.identity rejected.identity.creator
            (min round rejectedRound) [rejected, held]
          (state.1 || result.1, result.2)
      | _, _, _ => state
  | _ => state

/-- `record_rejected_equivocation`: `true` when new evidence was stored. -/
def recordRejectedEquivocation (rejected : Block) (errors : List InvalidBlock) (B : Blocklace)
    (pool : CordialEvidencePool) : Bool × CordialEvidencePool :=
  errors.foldl (recordConflict rejected B) (false, pool)

variable {rejected : Block} {B : Blocklace} {state : Bool × CordialEvidencePool}
  {errors : List InvalidBlock} {pool : CordialEvidencePool} {v : NodeId}
  {evidence : CordialEquivocationEvidence}

/-- The record of a rejected block and the stored block it conflicts with. -/
structure ConflictRecord (rejected : Block) (B : Blocklace) (errors : List InvalidBlock)
    (evidence : CordialEquivocationEvidence) (held : Block) (round rejectedRound : ℕ) : Prop where
  error : InvalidBlock.equivocation held.identity ∈ errors
  stored : B.Stores held
  heldRound : B.Round held.identity round
  candidateRound : B.CandidateRound rejected.content rejectedRound
  eq : evidence = InMemoryEvidencePool.recordOf Block.identity rejected.identity.creator
    (min round rejectedRound) [rejected, held]

theorem mem_evidenceFor_recordConflict {error : InvalidBlock}
    (h : evidence ∈ (recordConflict rejected B state error).2.evidenceFor v) :
    evidence ∈ state.2.evidenceFor v ∨
      v = rejected.identity.creator ∧ ∃ conflicting held round rejectedRound,
        error = .equivocation conflicting ∧ B.get conflicting = some held ∧
          B.depth conflicting = some round ∧
          B.candidateDepth rejected.content = some rejectedRound ∧
          evidence = InMemoryEvidencePool.recordOf Block.identity rejected.identity.creator
            (min round rejectedRound) [rejected, held] := by
  unfold recordConflict at h
  split at h
  · next conflicting =>
    split at h
    · next held round rejectedRound hget hdepth hcand =>
      obtain h | ⟨rfl, heq⟩ := InMemoryEvidencePool.mem_evidenceFor_of_record h
      · exact Or.inl h
      · exact Or.inr ⟨rfl, conflicting, held, round, rejectedRound, rfl, hget, hdepth, hcand, heq⟩
    · exact Or.inl h
  · exact Or.inl h

theorem evidenceFor_subset_recordConflict {error : InvalidBlock}
    (h : evidence ∈ state.2.evidenceFor v) :
    evidence ∈ (recordConflict rejected B state error).2.evidenceFor v := by
  unfold recordConflict
  split
  · split
    · exact InMemoryEvidencePool.mem_evidenceFor_record h
    · exact h
  · exact h

/-- **No evidence is lost, and new evidence is against the creator of the
rejected block**, for a stored block that an error names. -/
theorem mem_evidenceFor_recordRejected
    (hstored : ∀ conflicting, InvalidBlock.equivocation conflicting ∈ errors →
      conflicting ∈ B.blocks)
    (h : evidence ∈ (B.recordRejectedEquivocation rejected errors pool).2.evidenceFor v) :
    evidence ∈ pool.evidenceFor v ∨
      v = rejected.identity.creator ∧ ∃ held round rejectedRound,
        ConflictRecord rejected B errors evidence held round rejectedRound := by
  unfold recordRejectedEquivocation at h
  revert h
  refine List.foldlRecOn (motive := fun state => evidence ∈ state.2.evidenceFor v → _) errors
    (recordConflict rejected B) Or.inl fun state ih error herror h => ?_
  obtain h | ⟨rfl, conflicting, held, round, rejectedRound, rfl, hget, hdepth, hcand, heq⟩ :=
    mem_evidenceFor_recordConflict h
  · exact ih h
  · have hmem := hstored conflicting herror
    have hid : held.identity = conflicting := by
      have := (get_eq_some_iff.1 hget).1
      rw [resolveIdentity_of_mem hmem] at this
      exact (Option.some.inj this).symm
    subst hid
    exact Or.inr ⟨rfl, held, round, rejectedRound, herror, stores_of_get hget,
      (depth_eq_some_of_mem hmem).1 hdepth, candidateDepth_eq_some_iff.1 hcand, heq⟩

theorem evidenceFor_subset_recordRejected (h : evidence ∈ pool.evidenceFor v) :
    evidence ∈ (B.recordRejectedEquivocation rejected errors pool).2.evidenceFor v := by
  unfold recordRejectedEquivocation
  refine List.foldlRecOn (motive := fun state => evidence ∈ state.2.evidenceFor v) errors
    (recordConflict rejected B) ?_ fun state ih error _ => ?_
  · exact h
  · exact evidenceFor_subset_recordConflict ih

/-- **A conflict with a stored block leaves evidence** when both have a round. -/
theorem evidenceFor_recordRejected_ne_nil {held : Block} {round rejectedRound : ℕ}
    (herror : InvalidBlock.equivocation held.identity ∈ errors) (hheld : B.Stores held)
    (hround : B.Round held.identity round)
    (hcand : B.CandidateRound rejected.content rejectedRound)
    (hne : rejected.identity ≠ held.identity) :
    (B.recordRejectedEquivocation rejected errors pool).2.evidenceFor
      rejected.identity.creator ≠ [] := by
  have hstep : ∀ state : Bool × CordialEvidencePool,
      (recordConflict rejected B state (.equivocation held.identity)).2.evidenceFor
        rejected.identity.creator ≠ [] := by
    intro state
    simp only [recordConflict, hheld.get, hround.depth, candidateDepth_eq_some_iff.2 hcand]
    exact InMemoryEvidencePool.evidenceFor_record_pair hne
  obtain ⟨before, after, rfl⟩ := List.append_of_mem herror
  unfold recordRejectedEquivocation
  rw [List.foldl_append, List.foldl_cons]
  obtain ⟨evidence, hevidence⟩ := List.exists_mem_of_ne_nil _ (hstep
    (before.foldl (recordConflict rejected B) (false, pool)))
  refine List.ne_nil_of_mem (a := evidence) ?_
  refine List.foldlRecOn
    (motive := fun state => evidence ∈ state.2.evidenceFor rejected.identity.creator) after
    (recordConflict rejected B) hevidence fun state ih error _ => ?_
  exact evidenceFor_subset_recordConflict ih

end Blocklace

end CordialMiners
