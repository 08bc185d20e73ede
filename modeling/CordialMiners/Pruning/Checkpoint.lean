/-
# Pruning below a checkpoint

`consensus/pruning.rs`.

A prune makes a block the in-memory genesis: it forgets what the block observes,
except for the candidates that other blocks still refer to (the protected
closure), and stores the block with its depth and the order of what it forgot.
`pruneBelowCheckpointWithPrefix_ok` says what a successful prune leaves behind.

The source keeps `removed` in a `BTreeSet`; here it is the list of its members.
-/

import CordialMiners.Ordering.Tau

namespace CordialMiners

open FinGraph Relation

/-- Why a prune is rejected. -/
inductive PruneError where
  | unknownCheckpoint (checkpoint : BlockIdentity)
  | checkpointRegression (current requested : BlockIdentity)
  | disconnectedCheckpoint (current requested : BlockIdentity)
deriving DecidableEq, Repr

/-- Summary of a prune. -/
structure PruneReport where
  checkpoint : BlockIdentity
  checkpointDepth : ℕ
  removed : List BlockIdentity
  retainedBlocks : ℕ
  tauPrefixLen : ℕ
  weightedTauPrefixLen : ℕ
deriving DecidableEq, Repr

namespace Blocklace

/-- The candidates that a content refers to. -/
def candidateReferences (B : Blocklace) (candidates : List BlockIdentity) (content : BlockContent) :
    List BlockIdentity :=
  (content.predecessors.filterMap B.resolveIdentity).filter (· ∈ candidates)

/-- The candidates a loop over the references of `id` meets. -/
def candidatePredecessors (B : Blocklace) (candidates : List BlockIdentity) (id : BlockIdentity) :
    List BlockIdentity :=
  match B.content id with
  | none => []
  | some content => B.candidateReferences candidates content

/-- `protected_candidate_closure`: the candidates that blocks outside still
refer to, directly or through other candidates. -/
def protectedCandidateClosure (B : Blocklace) (checkpoint : BlockIdentity)
    (candidates : List BlockIdentity) : List BlockIdentity :=
  let seeds := mark pushTop
    (B.blocks.entries.flatMap fun entry =>
      if entry.1 ∈ candidates ∨ entry.1 = checkpoint then []
      else B.candidateReferences candidates entry.2) ([], [])
  explore pushTop (B.candidatePredecessors candidates) (B.dom.length + 1) seeds.1 seeds.2

/-- What a prune at `checkpoint` forgets. -/
def pruneCandidates (B : Blocklace) (checkpoint : BlockIdentity) : List BlockIdentity :=
  let candidates := (B.observe checkpoint).filter (· ≠ checkpoint)
  let kept := B.protectedCandidateClosure checkpoint candidates
  candidates.filter (· ∉ kept)

/-- `prune_below_checkpoint_with_prefix`. -/
def pruneBelowCheckpointWithPrefix (B : Blocklace) (checkpoint : BlockIdentity)
    (orderPrefix weightedOrderPrefix : List BlockIdentity) :
    Except PruneError (PruneReport × Blocklace) :=
  if checkpoint ∉ B.blocks then .error (.unknownCheckpoint checkpoint)
  else
    match B.depth checkpoint with
    | none => .error (.unknownCheckpoint checkpoint)
    | some checkpointDepth =>
        let prune : Except PruneError (PruneReport × Blocklace) :=
          let removed := B.pruneCandidates checkpoint
          let pruned := (removed.foldl forgetBlock B).setCheckpointState checkpoint checkpointDepth
            orderPrefix weightedOrderPrefix
          .ok (⟨checkpoint, checkpointDepth, removed, pruned.dom.length, orderPrefix.length,
            weightedOrderPrefix.length⟩, pruned)
        match B.checkpoint with
        | none => prune
        | some current =>
            if current = checkpoint then
              .ok (⟨checkpoint, checkpointDepth, [], B.dom.length, B.checkpointOrderPrefix.length,
                B.checkpointWeightedOrderPrefix.length⟩, B)
            else if B.checkpointDepth.any fun currentDepth => checkpointDepth < currentDepth then
              .error (.checkpointRegression current checkpoint)
            else if !B.preceedesOrEquals current checkpoint then
              .error (.disconnectedCheckpoint current checkpoint)
            else prune

/-- `checkpoint_order_prefix`: the order of what the checkpoint observes. -/
def checkpointOrderPrefixOf (B : Blocklace) (checkpoint : BlockIdentity) : List BlockIdentity :=
  match xsort (B.getSet (B.observe checkpoint)) with
  | .ok ordered => ordered
  | .error _ => B.observe checkpoint

/-- `CheckpointGc::prune_below_checkpoint`. -/
def pruneBelowCheckpoint (B : Blocklace) (checkpoint : BlockIdentity) :
    Except PruneError (PruneReport × Blocklace) :=
  B.pruneBelowCheckpointWithPrefix checkpoint (B.checkpointOrderPrefixOf checkpoint) []

end Blocklace

/-- Advance the checkpoint to the latest final leader, if it is a new one, with
the output of that leader as stored prefix. -/
def Ladder.advanceCheckpoint (ladder : Ladder) (B : Blocklace) (wavelength : ℕ)
    (leaderSelection : LeaderSelection)
    (prune : BlockIdentity → List BlockIdentity → Except PruneError (PruneReport × Blocklace)) :
    Except PruneError (Option (PruneReport × Blocklace)) :=
  match ladder.latest B wavelength leaderSelection with
  | none => .ok none
  | some finalLeader =>
      if B.checkpoint = some finalLeader then .ok none
      else
        let orderPrefix :=
          match ladder.tau B wavelength leaderSelection with
          | .ok ordered => ordered
          | .error _ => B.checkpointOrderPrefixOf finalLeader
        (prune finalLeader orderPrefix).map some

namespace Blocklace

/-- `checkpoint_after_finality`. -/
def checkpointAfterFinality (B : Blocklace) (wavelength n f : ℕ)
    (leaderSelection : LeaderSelection) : Except PruneError (Option (PruneReport × Blocklace)) :=
  (countLadder n f).advanceCheckpoint B wavelength leaderSelection fun finalLeader orderPrefix =>
    B.pruneBelowCheckpointWithPrefix finalLeader orderPrefix []

/-- `checkpoint_after_weighted_finality`. -/
def checkpointAfterWeightedFinality (B : Blocklace) (wavelength : ℕ) (bonds : Bonds)
    (leaderSelection : LeaderSelection) : Except PruneError (Option (PruneReport × Blocklace)) :=
  (stakeLadder (.fromBonds bonds)).advanceCheckpoint B wavelength leaderSelection
    fun finalLeader orderPrefix => B.pruneBelowCheckpointWithPrefix finalLeader [] orderPrefix

/-! ### What a prune keeps -/

variable {B P : Blocklace} {a b c x y : BlockIdentity} {d : ℕ}
  {orderPrefix weightedOrderPrefix : List BlockIdentity}

/-- `x` lies strictly below `c` in what `c` sees. -/
def Candidate (B : Blocklace) (c x : BlockIdentity) : Prop := B.Sees c x ∧ x ≠ c

/-- A candidate that a block not seen from `c` refers to, directly or through
other candidates. -/
def Protected (B : Blocklace) (c x : BlockIdentity) : Prop :=
  ∃ a y, a ∈ B.blocks ∧ ¬ B.Sees c a ∧ B.Refers a y ∧ B.Candidate c y ∧
    ReflTransGen (fun u v => B.Refers u v ∧ B.Candidate c v) y x

/-- What a prune at `c` forgets. -/
def Dropped (B : Blocklace) (c x : BlockIdentity) : Prop :=
  B.Candidate c x ∧ ¬ B.Protected c x

theorem mem_candidateReferences_iff {candidates : List BlockIdentity} {content : BlockContent}
    (hx : B.blocks.lookup a = some content) :
    y ∈ B.candidateReferences candidates content ↔ B.Refers a y ∧ y ∈ candidates := by
  unfold candidateReferences
  rw [List.mem_filter, List.mem_filterMap, decide_eq_true_eq]
  refine and_congr_left fun _ => ⟨fun ⟨q, hq, hqy⟩ => ⟨content, hx, q, hq, hqy⟩, ?_⟩
  rintro ⟨content', hx', q, hq, hqy⟩
  rw [hx] at hx'
  obtain rfl := Option.some.inj hx'
  exact ⟨q, hq, hqy⟩

private theorem mem_candidates_iff (hc : c ∈ B.blocks) :
    x ∈ (B.observe c).filter (· ≠ c) ↔ B.Candidate c x := by
  rw [List.mem_filter, mem_observe_of_mem hc, decide_eq_true_eq]
  rfl

/-- **`protectedCandidateClosure` returns the protected candidates.** -/
theorem mem_protectedCandidateClosure_iff (hc : c ∈ B.blocks) :
    x ∈ B.protectedCandidateClosure c ((B.observe c).filter (· ≠ c)) ↔ B.Protected c x := by
  set candidates := (B.observe c).filter (· ≠ c) with hcand
  have hmem : ∀ {z}, z ∈ candidates ↔ B.Candidate c z := mem_candidates_iff hc
  have hstored : ∀ {z}, z ∈ candidates → z ∈ B.dom.toFinset := fun hz =>
    List.mem_toFinset.2 (AList.mem_keys.1 ((hmem.1 hz).1.mem hc))
  have hnext : ∀ {u v}, u ∈ B.blocks →
      (v ∈ B.candidatePredecessors candidates u ↔ B.Refers u v ∧ B.Candidate c v) := by
    intro u v hu
    obtain ⟨content, hl⟩ := exists_lookup hu
    unfold candidatePredecessors
    rw [content_of_mem hu, hl]
    simp only
    rw [mem_candidateReferences_iff hl, hmem]
  have hU : ∀ u, ∀ v ∈ B.candidatePredecessors candidates u, v ∈ B.dom.toFinset := by
    intro u v hv
    unfold candidatePredecessors at hv
    split at hv
    · simp at hv
    · exact hstored (by simpa using (List.mem_filter.1 hv).2)
  -- the blocks outside and what they refer to
  have hseed : ∀ {z}, z ∈ (B.blocks.entries.flatMap fun entry =>
      if entry.1 ∈ candidates ∨ entry.1 = c then []
      else B.candidateReferences candidates entry.2) ↔
      ∃ a, a ∈ B.blocks ∧ ¬ B.Sees c a ∧ B.Refers a z ∧ B.Candidate c z := by
    intro z
    rw [List.mem_flatMap]
    constructor
    · rintro ⟨entry, he, hz⟩
      have hl := mem_entries_iff.1 he
      split_ifs at hz with hout
      · simp at hz
      · rw [mem_candidateReferences_iff hl, hmem] at hz
        rw [not_or] at hout
        exact ⟨entry.1, mem_of_lookup hl, fun hsees => hout.1 (hmem.2 ⟨hsees, hout.2⟩), hz⟩
    · rintro ⟨a, ha, hout, hz⟩
      obtain ⟨content, hl⟩ := exists_lookup ha
      refine ⟨⟨a, content⟩, mem_entries_iff.2 hl, ?_⟩
      rw [if_neg, mem_candidateReferences_iff hl, hmem]
      · exact hz
      · rintro (h | rfl)
        · exact hout (hmem.1 h).1
        · exact hout (.refl B a)
  have hseedU : ∀ z ∈ (B.blocks.entries.flatMap fun entry =>
      if entry.1 ∈ candidates ∨ entry.1 = c then []
      else B.candidateReferences candidates entry.2), z ∈ B.dom.toFinset := by
    intro z hz
    obtain ⟨-, -, -, -, hcz⟩ := hseed.1 hz
    exact hstored (hmem.2 hcz)
  have hpath : ∀ {y u}, B.Candidate c y →
      ReflTransGen (fun u v => B.Refers u v ∧ B.Candidate c v) y u → u ∈ B.blocks := by
    intro y u hy hyu
    rcases ReflTransGen.cases_tail hyu with rfl | ⟨_, -, h⟩
    · exact hy.1.mem hc
    · exact h.2.1.mem hc
  unfold protectedCandidateClosure
  rw [mem_explore_mark pushes_pushTop hU hseedU
    ((List.toFinset_card_le B.dom).trans (Nat.le_succ _))]
  constructor
  · rintro ⟨y, hy, hyx⟩
    obtain ⟨a, ha, hout, href, hcy⟩ := hseed.1 hy
    refine ⟨a, y, ha, hout, href, hcy, ?_⟩
    induction hyx with
    | refl => exact ReflTransGen.refl
    | tail _ hstep ih => exact ReflTransGen.tail ih ((hnext (hpath hcy ih)).1 hstep)
  · rintro ⟨a, y, ha, hout, href, hcy, hyx⟩
    refine ⟨y, hseed.2 ⟨a, ha, hout, href, hcy⟩, ?_⟩
    induction hyx with
    | refl => exact ReflTransGen.refl
    | tail h hstep ih => exact ReflTransGen.tail ih ((hnext (hpath hcy h)).2 hstep)

theorem mem_pruneCandidates_iff (hc : c ∈ B.blocks) :
    x ∈ B.pruneCandidates c ↔ B.Dropped c x := by
  unfold pruneCandidates
  rw [List.mem_filter, decide_eq_true_eq, mem_protectedCandidateClosure_iff hc,
    mem_candidates_iff hc]
  rfl

/-- What forgetting blocks does. -/
structure Forgot (B : Blocklace) (ids : List BlockIdentity) (B' : Blocklace) : Prop where
  lookup : ∀ x, B'.blocks.lookup x = if x ∈ ids then none else B.blocks.lookup x
  generation : B.generation ≤ B'.generation
  cacheIdentity : B'.cacheIdentity = B.cacheIdentity

theorem forgetBlock_forgot (B : Blocklace) (id : BlockIdentity) : B.Forgot [id] (B.forgetBlock id) := by
  unfold forgetBlock
  split_ifs with hid
  · refine ⟨fun x => ?_, Nat.le_succ _, rfl⟩
    by_cases hx : x = id
    · subst hx
      simp
    · simp [hx, AList.lookup_erase_ne hx]
  · refine ⟨fun x => ?_, le_rfl, rfl⟩
    by_cases hx : x = id
    · subst hx
      simpa using AList.lookup_eq_none.2 hid
    · simp [hx]

theorem forgetAll_forgot (B : Blocklace) (ids : List BlockIdentity) :
    B.Forgot ids (ids.foldl forgetBlock B) := by
  induction ids generalizing B with
  | nil => exact ⟨by simp, le_rfl, rfl⟩
  | cons id ids ih =>
      have h₁ := B.forgetBlock_forgot id
      have h₂ := ih (B.forgetBlock id)
      rw [List.foldl_cons]
      refine ⟨fun x => ?_, h₁.generation.trans h₂.generation,
        h₂.cacheIdentity.trans h₁.cacheIdentity⟩
      rw [h₂.lookup, h₁.lookup]
      by_cases hx : x = id <;> by_cases hxs : x ∈ ids <;> simp [hx, hxs]

/-- `P` is `B` pruned below `c`. -/
structure Pruned (B : Blocklace) (c : BlockIdentity) (P : Blocklace) : Prop where
  mem : c ∈ B.blocks
  kept : ∀ x, ¬ B.Dropped c x → P.blocks.lookup x = B.blocks.lookup x
  dropped : ∀ x, B.Dropped c x → P.blocks.lookup x = none
  checkpoint : P.checkpoint = some c
  depth : P.checkpointDepth = B.depth c
  depth_isSome : (B.depth c).isSome
  generation : B.generation < P.generation
  cacheIdentity : P.cacheIdentity = B.cacheIdentity

/-- **What a successful prune leaves behind:** the blocklace as it was, if the
block was the checkpoint already, and else the blocks that are not dropped. -/
theorem pruneBelowCheckpointWithPrefix_ok {report : PruneReport}
    (h : B.pruneBelowCheckpointWithPrefix c orderPrefix weightedOrderPrefix = .ok (report, P)) :
    (B.checkpoint = some c ∧ P = B) ∨
      (B.Pruned c P ∧ P.checkpointOrderPrefix = orderPrefix ∧
        P.checkpointWeightedOrderPrefix = weightedOrderPrefix ∧
        ∀ current, B.checkpoint = some current → B.preceedesOrEquals current c = true) := by
  unfold pruneBelowCheckpointWithPrefix at h
  split_ifs at h with hc
  split at h
  · exact absurd h (by simp)
  · next d hd =>
    have hforgot := B.forgetAll_forgot (B.pruneCandidates c)
    have hpruned : B.Pruned c (((B.pruneCandidates c).foldl forgetBlock B).setCheckpointState c d
        orderPrefix weightedOrderPrefix) := by
      refine ⟨hc, fun x hx => ?_, fun x hx => ?_, rfl, hd.symm, by rw [hd]; rfl,
        Nat.lt_succ_of_le hforgot.generation, hforgot.cacheIdentity⟩
      · exact (hforgot.lookup x).trans (if_neg fun hmem => hx ((mem_pruneCandidates_iff hc).1 hmem))
      · exact (hforgot.lookup x).trans (if_pos ((mem_pruneCandidates_iff hc).2 hx))
    split at h
    · next hcp =>
      obtain ⟨-, rfl⟩ := Prod.mk.inj (Except.ok.inj h)
      exact Or.inr ⟨hpruned, rfl, rfl, fun current hcur => by rw [hcp] at hcur; simp at hcur⟩
    · next current hcp =>
      split_ifs at h with hsame hregress hconn
      · obtain ⟨-, rfl⟩ := Prod.mk.inj (Except.ok.inj h)
        exact Or.inl ⟨by rw [hcp, hsame], rfl⟩
      · obtain ⟨-, rfl⟩ := Prod.mk.inj (Except.ok.inj h)
        refine Or.inr ⟨hpruned, rfl, rfl, fun current' hcur => ?_⟩
        rw [hcp] at hcur
        obtain rfl := Option.some.inj hcur
        simpa using hconn

end Blocklace

/-- **What advancing the checkpoint did:** a prune at the latest final leader, with
the output as stored prefix if there is one. -/
theorem Ladder.advanceCheckpoint_ok {ladder : Ladder} {B P : Blocklace} {w : ℕ}
    {ls : LeaderSelection} {report : PruneReport}
    {prune : BlockIdentity → List BlockIdentity → Except PruneError (PruneReport × Blocklace)}
    (h : ladder.advanceCheckpoint B w ls prune = .ok (some (report, P))) :
    ∃ L orderPrefix, ladder.latest B w ls = some L ∧ B.checkpoint ≠ some L ∧
      (∀ out, ladder.tau B w ls = .ok out → orderPrefix = out) ∧
      (∀ e, ladder.tau B w ls = .error e → orderPrefix = B.checkpointOrderPrefixOf L) ∧
      prune L orderPrefix = .ok (report, P) := by
  have hsome : ∀ {result : Except PruneError (PruneReport × Blocklace)},
      result.map some = .ok (some (report, P)) → result = .ok (report, P) := by
    intro result hr
    cases result with
    | error e => simp [Except.map] at hr
    | ok value =>
        simp only [Except.map, Except.ok.injEq, Option.some.injEq] at hr
        rw [hr]
  unfold advanceCheckpoint at h
  split at h
  · exact absurd h (by simp)
  · next L hL =>
    split_ifs at h with hcp
    · exact absurd (Except.ok.inj h) (by simp)
    · cases hout : ladder.tau B w ls with
      | ok ordered =>
          rw [hout] at h
          exact ⟨L, ordered, hL, hcp, fun out ho => Except.ok.inj ho, fun e he => by simp at he,
            hsome h⟩
      | error e =>
          rw [hout] at h
          exact ⟨L, _, hL, hcp, fun out ho => by simp at ho, fun _ _ => rfl, hsome h⟩

end CordialMiners
