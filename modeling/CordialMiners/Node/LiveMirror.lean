/-
# The live mirror

`LiveBlocklaceMirror` of `cordial-f1r3node-adapter/src/live_ingress.rs`.

The mirror keeps a blocklace and the blocks that arrived before one of their
references.  `ingest` stores an available block and then releases waiting blocks
in passes until none is available.  The mirror is the state that a call leaves
behind, also when the call returns an error: a waiting block is taken out of the
map before it is inserted, and an insert that fails ends the call.

A call is described by its `Cascade`, the releases one after another; the
waiting blocks it can reach are the rooted ones (`Reached`).
-/

import CordialMiners.Core.References

namespace CordialMiners

open FinGraph

/-- What became of a delivered block. -/
inductive MirrorDisposition where
  | applied
  | buffered
  | duplicate
deriving DecidableEq, Repr

/-- What an ingest did, and how many waiting blocks it stored. -/
structure MirrorUpdate where
  disposition : MirrorDisposition
  releasedFromBuffer : ℕ
deriving DecidableEq, Repr

/-- The error strings of the mirror. -/
inductive MirrorError where
  /-- Hash and creator belong to another identity. -/
  | identityConflict (conflicting : BlockIdentity)
  | insert (error : InsertError)
deriving DecidableEq, Repr

/-- `pending` holds each waiting block under its identity.  The verifier of the
source is a parameter of the operations. -/
structure LiveBlocklaceMirror where
  blocklace : Blocklace
  pending : BlockMap

namespace LiveBlocklaceMirror

/-- `LiveBlocklaceMirror::new`, with the token of its blocklace. -/
def new (cacheIdentity : ℕ) : LiveBlocklaceMirror := ⟨.new cacheIdentity, ∅⟩

/-- The block is known, or another under its identity. -/
def duplicateOrIdentityConflict (m : LiveBlocklaceMirror) (id : BlockIdentity) :
    Except MirrorError Bool :=
  if (m.blocklace.get id).isSome ∨ id ∈ m.pending then .ok true
  else
    match (m.blocklace.conflictingIdentityVariant id).or
        (m.pending.keys.find? fun candidate => candidate.sameConsensusIdentity id) with
    | some conflicting => .error (.identityConflict conflicting)
    | none => .ok false

/-- All references are stored. -/
def predecessorsAvailable (m : LiveBlocklaceMirror) (block : Block) : Bool :=
  block.content.predecessors.all fun pred => (m.blocklace.content pred).isSome

/-- The waiting blocks that a pass of `release_pending` takes up. -/
def readyIds (m : LiveBlocklaceMirror) : List BlockIdentity :=
  (m.pending.entries.filter fun entry => m.predecessorsAvailable ⟨entry.1, entry.2⟩).map
    fun entry => entry.1

/-- One pass of `release_pending`: take each block out of the map and insert it.
The count of the blocks inserted, or the first error. -/
def releaseReady (verifier : CryptoVerifier) :
    List BlockIdentity → LiveBlocklaceMirror → Except MirrorError ℕ × LiveBlocklaceMirror
  | [], m => (.ok 0, m)
  | id :: ids, m =>
      match m.pending.lookup id with
      | none => releaseReady verifier ids m
      | some content =>
          match m.blocklace.insert ⟨id, content⟩ verifier with
          | .error e => (.error (.insert e), { m with pending := m.pending.erase id })
          | .ok B =>
              let r := releaseReady verifier ids ⟨B, m.pending.erase id⟩
              (r.1.map (· + 1), r.2)

/-- The loop of `release_pending`; a pass with a ready block empties part of the
map, so `fuel` passes are enough when the map is shorter. -/
def releaseLoop (verifier : CryptoVerifier) :
    ℕ → LiveBlocklaceMirror → Except MirrorError ℕ × LiveBlocklaceMirror
  | 0, m => (.ok 0, m)
  | fuel + 1, m =>
      if m.readyIds = [] then (.ok 0, m)
      else
        match releaseReady verifier m.readyIds m with
        | (.error e, m') => (.error e, m')
        | (.ok released, m') =>
            let r := releaseLoop verifier fuel m'
            (r.1.map (released + ·), r.2)

/-- Store what no longer waits, until nothing is ready. -/
def releasePending (verifier : CryptoVerifier) (m : LiveBlocklaceMirror) :
    Except MirrorError ℕ × LiveBlocklaceMirror :=
  releaseLoop verifier (m.pending.keys.length + 1) m

/-- What follows a successful insert. -/
def applied (verifier : CryptoVerifier) (m : LiveBlocklaceMirror) :
    Except MirrorError MirrorUpdate × LiveBlocklaceMirror :=
  let r := m.releasePending verifier
  (r.1.map fun released => ⟨.applied, released⟩, r.2)

/-- Store a block and what it releases, or let it wait. -/
def ingest (verifier : CryptoVerifier) (m : LiveBlocklaceMirror) (block : Block) :
    Except MirrorError MirrorUpdate × LiveBlocklaceMirror :=
  match m.duplicateOrIdentityConflict block.identity with
  | .error e => (.error e, m)
  | .ok true => (.ok ⟨.duplicate, 0⟩, m)
  | .ok false =>
      if !m.predecessorsAvailable block then
        (.ok ⟨.buffered, 0⟩,
          { m with pending := m.pending.insert block.identity block.content })
      else
        match m.blocklace.insert block verifier with
        | .error e => (.error (.insert e), m)
        | .ok B => applied verifier { m with blocklace := B }

/-- As `ingest`; absent references are trusted. -/
def ingestWithTrustedBoundary (verifier : CryptoVerifier) (m : LiveBlocklaceMirror)
    (block : Block) : Except MirrorError MirrorUpdate × LiveBlocklaceMirror :=
  match m.duplicateOrIdentityConflict block.identity with
  | .error e => (.error e, m)
  | .ok true => (.ok ⟨.duplicate, 0⟩, m)
  | .ok false =>
      match m.blocklace.insertWithTrustedBoundary block verifier with
      | .error e => (.error (.insert e), m)
      | .ok (_, B) => applied verifier { m with blocklace := B }

variable {verifier : CryptoVerifier} {m m' m₁ : LiveBlocklaceMirror} {block b : Block}
  {id : BlockIdentity}

/-! ### The waiting blocks -/

/-- The waiting blocks. -/
def waiting (m : LiveBlocklaceMirror) : Set Block := BlockMap.toSet m.pending

/-- Every reference of the block resolves. -/
def Ready (m : LiveBlocklaceMirror) (block : Block) : Prop :=
  Available Block.refs m.blocklace.Resolves block

/-- The waiting blocks that follow from what is stored. -/
def Reached (m : LiveBlocklaceMirror) (block : Block) : Prop :=
  Rooted Block.refs Block.NamedBy m.blocklace.Resolves m.waiting block

/-- No `(content hash, creator)` twice among the stored and the waiting blocks. -/
structure Clean (m : LiveBlocklaceMirror) : Prop where
  unused : ∀ a ∈ m.pending, m.blocklace.Unused a
  distinct : ∀ a ∈ m.pending, ∀ b ∈ m.pending, a.consensusIdentity = b.consensusIdentity → a = b

theorem clean_new (k : ℕ) : (LiveBlocklaceMirror.new k).Clean where
  unused a ha := absurd ha (AList.notMem_empty a)
  distinct a ha := absurd ha (AList.notMem_empty a)

theorem predecessorsAvailable_iff : m.predecessorsAvailable block = true ↔ m.Ready block := by
  unfold predecessorsAvailable Ready Available Block.refs
  rw [List.all_eq_true]
  exact forall₂_congr fun p _ => Blocklace.content_isSome_iff

theorem mem_pending_of_waiting (h : b ∈ m.waiting) : b.identity ∈ m.pending :=
  BlockMap.mem_of_mem_toSet h

/-- A pass takes up the ready blocks. -/
theorem mem_readyIds_iff :
    id ∈ m.readyIds ↔ ∃ content, (⟨id, content⟩ : Block) ∈ m.waiting ∧ m.Ready ⟨id, content⟩ := by
  unfold readyIds waiting BlockMap.toSet
  simp only [List.mem_map, List.mem_filter, predecessorsAvailable_iff, Set.mem_ofPred_eq]
  constructor
  · rintro ⟨entry, ⟨hentry, hready⟩, rfl⟩
    exact ⟨entry.2, AList.mem_lookup_iff.2 hentry, hready⟩
  · rintro ⟨content, hlookup, hready⟩
    exact ⟨⟨id, content⟩, ⟨AList.mem_lookup_iff.1 hlookup, hready⟩, rfl⟩

theorem nodup_readyIds (m : LiveBlocklaceMirror) : m.readyIds.Nodup := by
  have hsub : m.readyIds.Sublist m.pending.keys := List.filter_sublist.map _
  exact List.Nodup.sublist hsub m.pending.keys_nodup

/-- What the duplicate check lets through: a consensus identity that is new. -/
theorem duplicateOrIdentityConflict_eq_false_iff :
    m.duplicateOrIdentityConflict id = .ok false ↔
      m.blocklace.Unused id ∧
        ∀ a ∈ m.pending, a.consensusIdentity ≠ id.consensusIdentity := by
  unfold duplicateOrIdentityConflict
  split_ifs with hdup
  · simp only [Except.ok.injEq, Bool.true_eq_false, false_iff, not_and]
    intro hunused hpending
    rcases hdup with hget | hmem
    · obtain ⟨r, hr⟩ := Option.isSome_iff_exists.1 (Blocklace.get_isSome_iff.1 hget)
      exact hunused r (Blocklace.resolveIdentity_mem hr) (Blocklace.resolveIdentity_consensus hr).symm
    · exact hpending id hmem rfl
  · have hnot : id ∉ m.blocklace.blocks := fun h =>
      hdup (Or.inl (Blocklace.get_isSome_of_mem h))
    have hvar := @Blocklace.conflictingIdentityVariant_eq_none_iff m.blocklace id
    rw [or_iff_right hnot] at hvar
    have hfind : (m.pending.keys.find? fun candidate => candidate.sameConsensusIdentity id) = none ↔
        ∀ a ∈ m.pending, a.consensusIdentity ≠ id.consensusIdentity := by
      rw [List.find?_eq_none]
      exact forall₂_congr fun a _ => not_congr BlockIdentity.sameConsensusIdentity_iff
    unfold Blocklace.Unused
    rw [← hvar, ← hfind]
    cases h₁ : m.blocklace.conflictingIdentityVariant id with
    | some conflicting => simp
    | none =>
        cases h₂ : m.pending.keys.find? fun candidate => candidate.sameConsensusIdentity id with
        | some conflicting => simp
        | none => simp

/-! ### Releasing waiting blocks -/

/-- A waiting block that is ready has been inserted. -/
structure ReleaseStep (verifier : CryptoVerifier) (m : LiveBlocklaceMirror) (b : Block)
    (m' : LiveBlocklaceMirror) : Prop where
  waiting : b ∈ m.waiting
  ready : m.Ready b
  insert : m.blocklace.insert b verifier = .ok m'.blocklace
  pending : m'.pending = m.pending.erase b.identity

namespace ReleaseStep

theorem inserted (h : ReleaseStep verifier m b m') : m.blocklace.Inserted b m'.blocklace :=
  Blocklace.insert_ok h.insert

theorem mem_waiting_iff (h : ReleaseStep verifier m b m') :
    block ∈ m'.waiting ↔ block ∈ m.waiting ∧ block ≠ b := by
  unfold LiveBlocklaceMirror.waiting
  rw [h.pending]
  exact BlockMap.mem_toSet_erase h.waiting

theorem mem_pending_iff (h : ReleaseStep verifier m b m') :
    id ∈ m'.pending ↔ id ≠ b.identity ∧ id ∈ m.pending := by
  rw [h.pending, AList.mem_erase]

/-- **What a release leaves to be reached.** -/
theorem reached_iff (h : ReleaseStep verifier m b m') :
    m.Reached block ↔ block = b ∨ m'.Reached block :=
  rooted_release h.waiting h.ready (fun _ => h.inserted.resolves_iff) fun _ => h.mem_waiting_iff

theorem clean (h : ReleaseStep verifier m b m') (hm : m.Clean) : m'.Clean where
  unused a ha := by
    obtain ⟨hne, ha⟩ := h.mem_pending_iff.1 ha
    exact h.inserted.unused_iff.2 ⟨hm.unused a ha, fun heq =>
      hne (hm.distinct a ha b.identity (mem_pending_of_waiting h.waiting) heq.symm)⟩
  distinct a ha c hc :=
    hm.distinct a (h.mem_pending_iff.1 ha).2 c (h.mem_pending_iff.1 hc).2

end ReleaseStep

/-- The releases of one call, one after another: until no waiting block is
ready, or up to a block that the insert refuses. -/
inductive Cascade (verifier : CryptoVerifier) :
    LiveBlocklaceMirror → Option MirrorError → LiveBlocklaceMirror → Prop
  | done {m : LiveBlocklaceMirror} (stuck : ∀ b ∈ m.waiting, ¬ m.Ready b) :
      Cascade verifier m none m
  | fail {m : LiveBlocklaceMirror} {b : Block} {e : InsertError} (waiting : b ∈ m.waiting)
      (ready : m.Ready b) (insert : m.blocklace.insert b verifier = .error e) :
      Cascade verifier m (some (.insert e)) { m with pending := m.pending.erase b.identity }
  | step {m m₁ m' : LiveBlocklaceMirror} {b : Block} {err : Option MirrorError}
      (release : ReleaseStep verifier m b m₁) (rest : Cascade verifier m₁ err m') :
      Cascade verifier m err m'

/-- The error of a result. -/
def errorOf {α : Type} : Except MirrorError α → Option MirrorError
  | .ok _ => none
  | .error e => some e

@[simp] theorem errorOf_map {α β : Type} (f : α → β) (r : Except MirrorError α) :
    errorOf (r.map f) = errorOf r := by
  cases r <;> rfl

/-- A release keeps the other ready blocks ready. -/
theorem ReleaseStep.ready_waiting (h : ReleaseStep verifier m b m') (hne : id ≠ b.identity)
    {content : BlockContent} (hw : (⟨id, content⟩ : Block) ∈ m.waiting)
    (hr : m.Ready ⟨id, content⟩) :
    (⟨id, content⟩ : Block) ∈ m'.waiting ∧ m'.Ready ⟨id, content⟩ :=
  ⟨h.mem_waiting_iff.2 ⟨hw, fun heq => hne (congrArg Block.identity heq)⟩,
    fun p hp => h.inserted.resolves_iff.2 (Or.inl (hr p hp))⟩

theorem releaseReady_cons_error {content : BlockContent} {e : InsertError}
    (ids : List BlockIdentity) (hlookup : m.pending.lookup id = some content)
    (hins : m.blocklace.insert ⟨id, content⟩ verifier = .error e) :
    releaseReady verifier (id :: ids) m =
      (.error (.insert e), { m with pending := m.pending.erase id }) := by
  simp only [releaseReady, hlookup, hins]

theorem releaseReady_cons_ok {content : BlockContent} {B : Blocklace}
    (ids : List BlockIdentity) (hlookup : m.pending.lookup id = some content)
    (hins : m.blocklace.insert ⟨id, content⟩ verifier = .ok B) :
    releaseReady verifier (id :: ids) m =
      ((releaseReady verifier ids ⟨B, m.pending.erase id⟩).1.map (· + 1),
        (releaseReady verifier ids ⟨B, m.pending.erase id⟩).2) := by
  simp only [releaseReady, hlookup, hins]

/-- A pass is a part of a cascade: it fails as one, or what follows it continues one. -/
theorem releaseReady_cascade (ids : List BlockIdentity) (hnd : ids.Nodup)
    (hids : ∀ id ∈ ids, ∃ content, (⟨id, content⟩ : Block) ∈ m.waiting ∧ m.Ready ⟨id, content⟩) :
    (∃ e m', releaseReady verifier ids m = (.error e, m') ∧ Cascade verifier m (some e) m') ∨
      ∃ m', releaseReady verifier ids m = (.ok ids.length, m') ∧
        m'.pending.keys.length + ids.length = m.pending.keys.length ∧
        ∀ err m'', Cascade verifier m' err m'' → Cascade verifier m err m'' := by
  induction ids generalizing m with
  | nil => exact Or.inr ⟨m, rfl, by simp, fun _ _ h => h⟩
  | cons id ids ih =>
      rw [List.nodup_cons] at hnd
      obtain ⟨content, hw, hr⟩ := hids id List.mem_cons_self
      have hlookup : m.pending.lookup id = some content := hw
      cases hins : m.blocklace.insert ⟨id, content⟩ verifier with
      | error e =>
          exact Or.inl ⟨_, _, releaseReady_cons_error ids hlookup hins, .fail hw hr hins⟩
      | ok B =>
          have hstep : ReleaseStep verifier m ⟨id, content⟩ ⟨B, m.pending.erase id⟩ :=
            ⟨hw, hr, hins, rfl⟩
          have hrest : ∀ id' ∈ ids, ∃ c, (⟨id', c⟩ : Block) ∈ waiting ⟨B, m.pending.erase id⟩ ∧
              Ready ⟨B, m.pending.erase id⟩ ⟨id', c⟩ := by
            intro id' hid'
            obtain ⟨c, hw', hr'⟩ := hids id' (List.mem_cons_of_mem _ hid')
            have hne : id' ≠ id := fun heq => hnd.1 (heq ▸ hid')
            exact ⟨c, hstep.ready_waiting hne hw' hr'⟩
          have hlen : (m.pending.erase id).keys.length + 1 = m.pending.keys.length := by
            have hmem := AList.mem_keys.1 (mem_pending_of_waiting hw)
            rw [AList.keys_erase, List.length_erase_of_mem hmem]
            have := List.length_pos_of_mem hmem
            omega
          rw [releaseReady_cons_ok ids hlookup hins]
          obtain ⟨e, m', heq, hc⟩ | ⟨m', heq, hlen', hc⟩ := ih hnd.2 hrest
          · exact Or.inl ⟨e, m', by rw [heq]; rfl, .step hstep hc⟩
          · refine Or.inr ⟨m', by rw [heq]; rfl, ?_, fun err m'' h => .step hstep (hc err m'' h)⟩
            rw [← hlen, List.length_cons, ← Nat.add_assoc]
            exact congrArg (· + 1) hlen'

/-- With enough passes the loop is a cascade. -/
theorem releaseLoop_cascade (fuel : ℕ) (hfuel : m.pending.keys.length < fuel) :
    Cascade verifier m (errorOf (releaseLoop verifier fuel m).1) (releaseLoop verifier fuel m).2 := by
  induction fuel generalizing m with
  | zero => omega
  | succ fuel ih =>
      unfold releaseLoop
      split_ifs with hready
      · refine .done fun b hb hr => ?_
        have : b.identity ∈ m.readyIds := mem_readyIds_iff.2 ⟨b.content, hb, hr⟩
        rw [hready] at this
        exact absurd this List.not_mem_nil
      · obtain ⟨e, m', heq, hc⟩ | ⟨m', heq, hlen, hc⟩ :=
          @releaseReady_cascade verifier m m.readyIds m.nodup_readyIds
            fun id hid => mem_readyIds_iff.1 hid
        · rw [heq]
          exact hc
        · rw [heq]
          simp only [errorOf_map]
          have := List.length_pos_of_ne_nil hready
          exact hc _ _ (ih (by omega))

/-- **A call releases waiting blocks until none is ready.** -/
theorem releasePending_cascade (verifier : CryptoVerifier) (m : LiveBlocklaceMirror) :
    Cascade verifier m (errorOf (m.releasePending verifier).1) (m.releasePending verifier).2 :=
  releaseLoop_cascade _ (by omega)

end LiveBlocklaceMirror

end CordialMiners
