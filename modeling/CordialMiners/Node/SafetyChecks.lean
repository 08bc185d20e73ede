/-
# Safety checks of a simulation

The checks of `simulation/adversary.rs` that are made after every adversarial step,
and what each of them says of the outputs it is given.

Count-based and weighted checks are the same check (`checkSafetyOf`), of another
output and another final leader.  `checkSafetyOf_verdict` collects the four parts.
-/

import CordialMiners.Node.AdversarialNetwork
import CordialMiners.Ordering.Tau

namespace CordialMiners

open Codec (bind_eq_ok)

/-- A safety invariant that the simulated run broke. -/
inductive SafetyViolation where
  /-- Two nodes committed different blocks at the same position. -/
  | divergence (left right : NodeId) (index : ℕ)
  /-- A node emitted the same block twice. -/
  | duplicateCommit (node : NodeId) (block : BlockIdentity)
  /-- A node ordered a block before one of its predecessors. -/
  | causalityViolation (node : NodeId) (block predecessor : BlockIdentity)
  /-- Two nodes finalised different leader blocks for the same wave. -/
  | conflictingFinalLeaders (left right : NodeId) (leftLeader rightLeader : BlockIdentity)
  /-- A node's ordered output could not be computed at all. -/
  | ordering (node : NodeId) (error : OrderingError)
deriving DecidableEq, Repr

/-- `Err` of the violation that was found, if any. -/
def safetyResult : Option SafetyViolation → Except SafetyViolation Unit
  | none => .ok ()
  | some violation => .error violation

/-- Consensus parameters shared by every observation made of a run. -/
structure ConsensusParams where
  wavelength : ℕ
  n : ℕ
  f : ℕ
deriving DecidableEq, Repr

namespace SimNode

/-- The last final leader a node sees, by count. -/
def latestFinalLeader (node : SimNode) (wavelength n f : ℕ) (leaderSelection : LeaderSelection) :
    Option BlockIdentity := node.blocklace.latestFinalLeader wavelength n f leaderSelection

/-- The order a node has, by count. -/
def orderedOutput (node : SimNode) (wavelength n f : ℕ) (leaderSelection : LeaderSelection) :
    Except OrderingError (List BlockIdentity) := node.blocklace.tau wavelength n f leaderSelection

/-- The last final leader it sees, by stake. -/
def latestWeightedFinalLeader (node : SimNode) (wavelength : ℕ) (leaderSelection : LeaderSelection) :
    Option BlockIdentity :=
  node.blocklace.latestWeightedFinalLeader wavelength node.bonds leaderSelection

/-- The order it has, by stake. -/
def weightedOrderedOutput (node : SimNode) (wavelength : ℕ) (leaderSelection : LeaderSelection) :
    Except OrderingError (List BlockIdentity) :=
  node.blocklace.weightedTau wavelength node.bonds leaderSelection

end SimNode

/-! ### The checks -/

/-- Length of the longest common prefix of two ordered outputs. -/
def commonPrefixLen (left right : List BlockIdentity) : ℕ :=
  ((left.zip right).takeWhile fun pair => pair.1 = pair.2).length

/-- The outputs of two nodes, the shorter not a prefix of the longer. -/
def divergenceOf (left right : NodeId × List BlockIdentity) : Option SafetyViolation :=
  let shared := commonPrefixLen left.2 right.2
  if shared < min left.2.length right.2.length then some (.divergence left.1 right.1 shared)
  else none

/-- The first pair of nodes that diverge. -/
def firstDivergence : List (NodeId × List BlockIdentity) → Option SafetyViolation
  | [] => none
  | left :: rest => (rest.findSome? (divergenceOf left)).or (firstDivergence rest)

/-- Check that the shorter of every pair of outputs is a prefix of the longer. -/
def checkPrefixConsistency (outputs : OrderedMap NodeId (List BlockIdentity)) :
    Except SafetyViolation Unit := safetyResult (firstDivergence outputs.entries)

/-- The first block that has been seen before. -/
def firstDuplicate : List BlockIdentity → List BlockIdentity → Option BlockIdentity
  | _, [] => none
  | seen, id :: output => if id ∈ seen then some id else firstDuplicate (id :: seen) output

/-- Check that a node ordered no block more than once. -/
def checkNoDuplicates (node : NodeId) (output : List BlockIdentity) : Except SafetyViolation Unit :=
  safetyResult ((firstDuplicate [] output).map (.duplicateCommit node))

/-- A predecessor of the block at `index` that is ordered later. -/
def laterPredecessor (B : Blocklace) (positions : OrderedMap BlockIdentity ℕ)
    (entry : BlockIdentity × ℕ) : Option (BlockIdentity × BlockIdentity) :=
  (B.content entry.1).bind fun content =>
    (content.predecessors.find? fun predecessor =>
      ((positions.lookup predecessor).any fun index => entry.2 < index)).map fun predecessor =>
        (entry.1, predecessor)

/-- Check that every ordered block appears after all of its predecessors that are
themselves ordered. -/
def checkCausalClosure (node : NodeId) (B : Blocklace) (output : List BlockIdentity) :
    Except SafetyViolation Unit :=
  let positions := OrderedMap.insertAll .empty Prod.fst Prod.snd output.zipIdx
  safetyResult ((output.zipIdx.findSome? (laterPredecessor B positions)).map fun found =>
    .causalityViolation node found.1 found.2)

/-- One node of `checkLeaderAgreement`. -/
def agreementStep (byWave : OrderedMap ℕ (NodeId × BlockIdentity))
    (entry : NodeId × Option (ℕ × BlockIdentity)) :
    Except SafetyViolation (OrderedMap ℕ (NodeId × BlockIdentity)) :=
  match entry.2 with
  | none => .ok byWave
  | some (wave, leader) =>
      match byWave.lookup wave with
      | some (other, otherLeader) =>
          if otherLeader ≠ leader then
            .error (.conflictingFinalLeaders other entry.1 otherLeader leader)
          else .ok byWave
      | none => .ok (byWave.insert wave (entry.1, leader))

/-- Check that no two nodes finalised different leader blocks for the same wave. -/
def checkLeaderAgreement (leaders : OrderedMap NodeId (Option (ℕ × BlockIdentity))) :
    Except SafetyViolation Unit :=
  (leaders.entries.foldlM agreementStep .empty).map fun _ => ()

/-- A final leader with the wave it leads in a node's own view. -/
def finalLeaderWave (leader : SimNode → Option BlockIdentity) (wavelength : ℕ) (node : SimNode) :
    Option (ℕ × BlockIdentity) := do
  let leader ← leader node
  let round ← node.blocklace.depth leader
  let wave ← waveOfRound round wavelength
  some (wave, leader)

namespace AdversarialNetwork

/-- The output of one node, checked by itself. -/
def checkedOutput (output : SimNode → Except OrderingError (List BlockIdentity))
    (outputs : OrderedMap NodeId (List BlockIdentity)) (entry : NodeId × SimNode) :
    Except SafetyViolation (OrderedMap NodeId (List BlockIdentity)) := do
  let ordered ← (output entry.2).mapError (SafetyViolation.ordering entry.1)
  checkNoDuplicates entry.1 ordered
  checkCausalClosure entry.1 entry.2.blocklace ordered
  .ok (outputs.insert entry.1 ordered)

/-- The four safety invariants, of an output and a final leader. -/
def checkSafetyOf (output : SimNode → Except OrderingError (List BlockIdentity))
    (leader : SimNode → Option BlockIdentity) (wavelength : ℕ) (net : AdversarialNetwork) :
    Except SafetyViolation Unit := do
  let outputs ← net.nodes.entries.foldlM (checkedOutput output) .empty
  checkLeaderAgreement (net.nodes.map (finalLeaderWave leader wavelength))
  checkPrefixConsistency outputs

/-- `check_safety`. -/
def checkSafety (net : AdversarialNetwork) (params : ConsensusParams)
    (leaderSelection : LeaderSelection) : Except SafetyViolation Unit :=
  net.checkSafetyOf (fun node => node.orderedOutput params.wavelength params.n params.f leaderSelection)
    (fun node => node.latestFinalLeader params.wavelength params.n params.f leaderSelection)
    params.wavelength

/-- `check_weighted_safety`. -/
def checkWeightedSafety (net : AdversarialNetwork) (wavelength : ℕ)
    (leaderSelection : LeaderSelection) : Except SafetyViolation Unit :=
  net.checkSafetyOf (fun node => node.weightedOrderedOutput wavelength leaderSelection)
    (fun node => node.latestWeightedFinalLeader wavelength leaderSelection) wavelength

/-- `all_ordered_outputs`: an output that cannot be computed counts as empty. -/
def allOrderedOutputs (net : AdversarialNetwork) (params : ConsensusParams)
    (leaderSelection : LeaderSelection) : OrderedMap NodeId (List BlockIdentity) :=
  net.nodes.map fun node =>
    ((node.orderedOutput params.wavelength params.n params.f leaderSelection).toOption).getD []

end AdversarialNetwork

/-! ### What the checks say -/

section Checks

variable {node : NodeId} {left right output : List BlockIdentity}

theorem safetyResult_eq_ok {found : Option SafetyViolation} :
    safetyResult found = .ok () ↔ found = none := by
  cases found <;> simp [safetyResult]

/-- The common prefix is all of one of the two outputs when one extends the other. -/
theorem commonPrefixLen_lt_iff : commonPrefixLen left right < min left.length right.length ↔
    ¬ (left <+: right ∨ right <+: left) := by
  induction left generalizing right with
  | nil => simp [commonPrefixLen]
  | cons a left ih =>
      cases right with
      | nil => simp [commonPrefixLen]
      | cons b right =>
          by_cases hab : a = b
          · subst hab
            have hlen : commonPrefixLen (a :: left) (a :: right) = commonPrefixLen left right + 1 := by
              simp [commonPrefixLen]
            rw [hlen, List.length_cons, List.length_cons, List.prefix_cons_inj,
              List.prefix_cons_inj, ← ih]
            omega
          · have hlen : commonPrefixLen (a :: left) (b :: right) = 0 := by
              simp [commonPrefixLen, hab]
            rw [hlen, List.length_cons, List.length_cons, List.cons_prefix_cons, List.cons_prefix_cons]
            simp [hab, Ne.symm hab]

theorem divergenceOf_eq_none_iff {a b : NodeId × List BlockIdentity} :
    divergenceOf a b = none ↔ a.2 <+: b.2 ∨ b.2 <+: a.2 := by
  unfold divergenceOf
  simp only [commonPrefixLen_lt_iff, ite_eq_right_iff, reduceCtorEq, imp_false, not_not]

theorem firstDivergence_eq_none_iff {l : List (NodeId × List BlockIdentity)} :
    firstDivergence l = none ↔ l.Pairwise fun a b => a.2 <+: b.2 ∨ b.2 <+: a.2 := by
  induction l with
  | nil => simp [firstDivergence]
  | cons a l ih =>
      rw [firstDivergence, Option.or_eq_none_iff, List.findSome?_eq_none_iff, List.pairwise_cons, ih]
      simp only [divergenceOf_eq_none_iff]

/-- **Consistent outputs extend one another.** -/
theorem checkPrefixConsistency_ok_iff {outputs : OrderedMap NodeId (List BlockIdentity)} :
    checkPrefixConsistency outputs = .ok () ↔
      ∀ id id' left right, outputs.lookup id = some left → outputs.lookup id' = some right →
        left <+: right ∨ right <+: left := by
  unfold checkPrefixConsistency
  rw [safetyResult_eq_ok, firstDivergence_eq_none_iff]
  constructor
  · intro h id id' left right hleft hright
    have hself : ∀ entry ∈ outputs.entries, entry.2 <+: entry.2 ∨ entry.2 <+: entry.2 :=
      fun _ _ => Or.inl List.prefix_rfl
    exact List.Pairwise.forall_of_forall_of_flip hself h (h.imp fun hab => hab.symm)
      (OrderedMap.mem_entries_iff.2 hleft) (OrderedMap.mem_entries_iff.2 hright)
  · intro h
    refine List.pairwise_of_forall_mem_list fun a ha b hb => ?_
    exact h a.1 b.1 a.2 b.2 (OrderedMap.mem_entries_iff.1 ha) (OrderedMap.mem_entries_iff.1 hb)

theorem firstDuplicate_eq_none_iff {seen : List BlockIdentity} :
    firstDuplicate seen output = none ↔ output.Nodup ∧ ∀ id ∈ output, id ∉ seen := by
  induction output generalizing seen with
  | nil => simp [firstDuplicate]
  | cons a output ih =>
      rw [firstDuplicate]
      split_ifs with ha
      · simp [ha]
      · rw [ih, List.nodup_cons]
        constructor
        · rintro ⟨hnd, hnew⟩
          refine ⟨⟨fun hmem => hnew a hmem List.mem_cons_self, hnd⟩, ?_⟩
          simpa [ha] using fun id hid hseen => hnew id hid (List.mem_cons_of_mem _ hseen)
        · rintro ⟨⟨hfresh, hnd⟩, hnew⟩
          refine ⟨hnd, fun id hid hmem => ?_⟩
          obtain rfl | hseen := List.mem_cons.1 hmem
          · exact hfresh hid
          · exact hnew id (List.mem_cons_of_mem _ hid) hseen

theorem checkNoDuplicates_ok_iff : checkNoDuplicates node output = .ok () ↔ output.Nodup := by
  unfold checkNoDuplicates
  rw [safetyResult_eq_ok, Option.map_eq_none_iff, firstDuplicate_eq_none_iff]
  simp

/-- **Closed outputs put references first**, as far as they are output. -/
theorem checkCausalClosure_ok_iff {B : Blocklace} (hnd : output.Nodup) :
    checkCausalClosure node B output = .ok () ↔
      ∀ (i j : ℕ) y p content, output[i]? = some y → output[j]? = some p → B.content y = some content →
        p ∈ content.predecessors → j ≤ i := by
  have hposition : ∀ p j, (OrderedMap.insertAll .empty Prod.fst Prod.snd output.zipIdx).lookup p =
      some j ↔ output[j]? = some p := by
    intro p j
    rw [OrderedMap.lookup_insertAll_iff]
    · constructor
      · rintro ⟨⟨p, j⟩, hmem, rfl, rfl⟩
        exact List.mk_mem_zipIdx_iff_getElem?.1 hmem
      · exact fun h => ⟨(p, j), List.mk_mem_zipIdx_iff_getElem?.2 h, rfl, rfl⟩
    · rintro ⟨a, i⟩ ha ⟨b, j⟩ hb (rfl : a = b)
      rw [List.mk_mem_zipIdx_iff_getElem?] at ha hb
      exact (List.getElem?_inj (List.getElem?_eq_some_iff.1 ha).1 hnd).1 (ha.trans hb.symm)
  unfold checkCausalClosure
  rw [safetyResult_eq_ok, Option.map_eq_none_iff, List.findSome?_eq_none_iff]
  constructor
  · intro h i j y p content hy hp hcontent hmem
    have hnone := h (y, i) (List.mk_mem_zipIdx_iff_getElem?.2 hy)
    unfold laterPredecessor at hnone
    rw [hcontent, Option.bind_some, Option.map_eq_none_iff, List.find?_eq_none] at hnone
    have hlater := hnone p hmem
    rw [(hposition p j).2 hp] at hlater
    simpa using hlater
  · rintro h ⟨y, i⟩ hy
    rw [List.mk_mem_zipIdx_iff_getElem?] at hy
    unfold laterPredecessor
    cases hcontent : B.content y with
    | none => rfl
    | some content =>
        rw [Option.bind_some, Option.map_eq_none_iff, List.find?_eq_none]
        intro p hp hlater
        obtain ⟨j, hj, hlt⟩ := (Option.any_eq_true _ _).1 hlater
        have hle := h i j y p content hy ((hposition p j).1 hj) hcontent hp
        exact absurd (of_decide_eq_true hlt) (not_lt.2 hle)

theorem leader_of_finalLeaderWave {leader : SimNode → Option BlockIdentity} {w wave : ℕ}
    {L : BlockIdentity} {simNode : SimNode} (h : finalLeaderWave leader w simNode = some (wave, L)) :
    leader simNode = some L := by
  unfold finalLeaderWave at h
  simp only [Option.bind_eq_bind, Option.bind_eq_some_iff, Option.some.injEq, Prod.mk.injEq] at h
  obtain ⟨L', hL', -, -, -, -, -, rfl⟩ := h
  exact hL'

/-- Two nodes that name a final leader for one wave name the same one. -/
def LeadersAgree (leaders : OrderedMap NodeId (Option (ℕ × BlockIdentity))) : Prop :=
  ∀ id id' wave L L', leaders.lookup id = some (some (wave, L)) →
    leaders.lookup id' = some (some (wave, L')) → L = L'

/-- One pass over the nodes succeeds when every leader agrees with those before it. -/
theorem foldlM_agreementStep {entries : List (NodeId × Option (ℕ × BlockIdentity))}
    {byWave : OrderedMap ℕ (NodeId × BlockIdentity)} :
    (∃ byWave', entries.foldlM agreementStep byWave = .ok byWave') ↔
      (∀ entry ∈ entries, ∀ wave L o, entry.2 = some (wave, L) → byWave.lookup wave = some o →
        o.2 = L) ∧
      entries.Pairwise fun a b => ∀ wave L L', a.2 = some (wave, L) → b.2 = some (wave, L') →
        L = L' := by
  induction entries generalizing byWave with
  | nil => exact ⟨fun _ => ⟨by simp, List.Pairwise.nil⟩, fun _ => ⟨byWave, rfl⟩⟩
  | cons entry entries ih =>
      obtain ⟨id, decided⟩ := entry
      rw [List.foldlM_cons, List.pairwise_cons, List.forall_mem_cons]
      cases decided with
      | none =>
          have hstep : agreementStep byWave (id, none) = .ok byWave := rfl
          rw [hstep]
          refine (@ih byWave).trans ?_
          simp
      | some decided =>
          obtain ⟨wave, L⟩ := decided
          cases hseen : byWave.lookup wave with
          | none =>
              have hstep : agreementStep byWave (id, some (wave, L)) =
                  .ok (byWave.insert wave (id, L)) := by
                simp [agreementStep, hseen]
              rw [hstep]
              refine (@ih (byWave.insert wave (id, L))).trans ?_
              constructor
              · rintro ⟨hrest, hpair⟩
                refine ⟨⟨?_, ?_⟩, ?_, hpair⟩
                · rintro wave' L' o ⟨⟩ ho
                  exact absurd (hseen.symm.trans ho) (by simp)
                · intro entry hentry wave' L' o hd ho
                  have hne : wave' ≠ wave := fun heq => by
                    rw [heq, hseen] at ho
                    exact absurd ho (by simp)
                  exact hrest entry hentry wave' L' o hd (by simp [hne, ho])
                · rintro entry hentry wave' L₁ L₂ ⟨⟩ hd
                  exact hrest entry hentry wave L₂ (id, L) hd (by simp)
              · rintro ⟨⟨-, hrest⟩, hfirst, hpair⟩
                refine ⟨fun entry hentry wave' L' o hd ho => ?_, hpair⟩
                rw [OrderedMap.lookup_insert] at ho
                split_ifs at ho with heq
                · obtain rfl := Option.some.inj ho
                  exact hfirst entry hentry wave' L L' (by rw [heq]) hd
                · exact hrest entry hentry wave' L' o hd ho
          | some other =>
              by_cases hL : other.2 = L
              · have hstep : agreementStep byWave (id, some (wave, L)) = .ok byWave := by
                  simp [agreementStep, hseen, hL]
                rw [hstep]
                refine (@ih byWave).trans ?_
                constructor
                · rintro ⟨hrest, hpair⟩
                  refine ⟨⟨?_, hrest⟩, ?_, hpair⟩
                  · rintro wave' L' o ⟨⟩ ho
                    obtain rfl := Option.some.inj (hseen.symm.trans ho)
                    exact hL
                  · rintro entry hentry wave' L₁ L₂ ⟨⟩ hd
                    exact hL.symm.trans (hrest entry hentry wave L₂ other hd hseen)
                · rintro ⟨⟨-, hrest⟩, -, hpair⟩
                  exact ⟨hrest, hpair⟩
              · have hstep : agreementStep byWave (id, some (wave, L)) =
                    .error (.conflictingFinalLeaders other.1 id other.2 L) := by
                  simp [agreementStep, hseen, hL]
                rw [hstep]
                constructor
                · rintro ⟨byWave', ⟨⟩⟩
                · rintro ⟨⟨hentry, -⟩, -⟩
                  exact absurd (hentry wave L other rfl hseen) hL

/-- **Leaders that pass the check agree wave by wave.** -/
theorem checkLeaderAgreement_ok_iff {leaders : OrderedMap NodeId (Option (ℕ × BlockIdentity))} :
    checkLeaderAgreement leaders = .ok () ↔ LeadersAgree leaders := by
  have hpass : checkLeaderAgreement leaders = .ok () ↔
      ∃ byWave', leaders.entries.foldlM agreementStep .empty = .ok byWave' := by
    unfold checkLeaderAgreement
    rw [Codec.map_eq_ok]
    simp
  rw [hpass, foldlM_agreementStep]
  constructor
  · rintro ⟨-, hpair⟩ id id' wave L L' hL hL'
    have hself : ∀ entry ∈ leaders.entries, ∀ wave L L', entry.2 = some (wave, L) →
        entry.2 = some (wave, L') → L = L' := by
      rintro entry - wave L L' h h'
      have hsame := Option.some.inj (h.symm.trans h')
      exact congrArg Prod.snd hsame
    exact List.Pairwise.forall_of_forall_of_flip hself hpair
      (hpair.imp fun h wave L L' ha hb => (h wave L' L hb ha).symm)
      (OrderedMap.mem_entries_iff.2 hL) (OrderedMap.mem_entries_iff.2 hL') wave L L' rfl rfl
  · intro h
    refine ⟨by simp, List.pairwise_of_forall_mem_list fun a ha b hb wave L L' hd hd' => ?_⟩
    exact h a.1 b.1 wave L L' (hd ▸ OrderedMap.mem_entries_iff.1 ha)
      (hd' ▸ OrderedMap.mem_entries_iff.1 hb)

theorem checkPrefixConsistency_error {outputs : OrderedMap NodeId (List BlockIdentity)}
    {violation : SafetyViolation} (h : checkPrefixConsistency outputs = .error violation) :
    ∃ left right index, violation = .divergence left right index := by
  have hfound : ∀ {l}, firstDivergence l = some violation →
      ∃ left right index, violation = .divergence left right index := by
    intro l hl
    induction l with
    | nil => exact absurd hl (by simp [firstDivergence])
    | cons a l ih =>
        rw [firstDivergence, Option.or_eq_some_iff] at hl
        obtain hl | ⟨-, hl⟩ := hl
        · obtain ⟨b, -, hb⟩ := List.exists_of_findSome?_eq_some hl
          unfold divergenceOf at hb
          simp only at hb
          split_ifs at hb
          exact ⟨_, _, _, (Option.some.inj hb).symm⟩
        · exact ih hl
  unfold checkPrefixConsistency at h
  cases hl : firstDivergence outputs.entries with
  | none =>
      rw [hl] at h
      exact absurd h (by simp [safetyResult])
  | some found =>
      rw [hl] at h
      obtain rfl := Except.error.inj h
      exact hfound hl

theorem checkLeaderAgreement_error {leaders : OrderedMap NodeId (Option (ℕ × BlockIdentity))}
    {violation : SafetyViolation} (h : checkLeaderAgreement leaders = .error violation) :
    ∃ left right L L', violation = .conflictingFinalLeaders left right L L' := by
  have hpass : ∀ {l : List (NodeId × Option (ℕ × BlockIdentity))} {byWave},
      l.foldlM agreementStep byWave = .error violation →
      ∃ left right L L', violation = .conflictingFinalLeaders left right L L' := by
    intro l byWave hl
    induction l generalizing byWave with
    | nil => exact absurd hl (by simp [pure, Except.pure])
    | cons entry l ih =>
        rw [List.foldlM_cons] at hl
        obtain hl | ⟨byWave', -, hl⟩ := Codec.bind_eq_error.1 hl
        · unfold agreementStep at hl
          split at hl
          · exact absurd hl (by simp)
          · split at hl
            · split_ifs at hl
              exact ⟨_, _, _, _, (Except.error.inj hl).symm⟩
            · exact absurd hl (by simp)
        · exact ih hl
  unfold checkLeaderAgreement at h
  cases hl : leaders.entries.foldlM agreementStep .empty with
  | ok byWave =>
      rw [hl] at h
      exact absurd h (by simp [Except.map])
  | error found =>
      rw [hl] at h
      obtain rfl := Except.error.inj h
      exact hpass hl

end Checks

namespace AdversarialNetwork

variable {output : SimNode → Except OrderingError (List BlockIdentity)}
  {leader : SimNode → Option BlockIdentity} {net : AdversarialNetwork} {w : ℕ}

/-- An output of a node that passes the checks of a single node. -/
def Sound (output : SimNode → Except OrderingError (List BlockIdentity)) (node : SimNode) : Prop :=
  ∃ ordered, output node = .ok ordered ∧ ordered.Nodup ∧
    ∀ id, checkCausalClosure id node.blocklace ordered = .ok ()

/-- The outputs of the nodes. -/
def outputsOf (output : SimNode → Except OrderingError (List BlockIdentity))
    (net : AdversarialNetwork) : OrderedMap NodeId (List BlockIdentity) :=
  net.nodes.map fun node => ((output node).toOption).getD []

theorem foldlM_checkedOutput {l : List (NodeId × SimNode)} (hsound : ∀ entry ∈ l, Sound output entry.2)
    (outputs : OrderedMap NodeId (List BlockIdentity)) :
    l.foldlM (checkedOutput output) outputs =
      .ok (outputs.insertAll Prod.fst (fun entry => ((output entry.2).toOption).getD []) l) := by
  induction l generalizing outputs with
  | nil => rfl
  | cons entry l ih =>
      obtain ⟨ordered, hordered, hnd, hcausal⟩ := hsound entry List.mem_cons_self
      have hentry : checkedOutput output outputs entry = .ok (outputs.insert entry.1 ordered) := by
        refine bind_eq_ok.2 ⟨ordered, by rw [hordered]; rfl, ?_⟩
        refine Codec.check_eq_ok.2 ⟨checkNoDuplicates_ok_iff.2 hnd, ?_⟩
        exact Codec.check_eq_ok.2 ⟨hcausal _, rfl⟩
      rw [List.foldlM_cons, hentry]
      refine (ih (fun e he => hsound e (List.mem_cons_of_mem _ he)) _).trans ?_
      simp only [OrderedMap.insertAll, List.foldl_cons, hordered]
      rfl

/-- **Where every node's own output is sound, the safety check compares the nodes.** -/
theorem checkSafetyOf_eq (hsound : ∀ id node, net.nodes.lookup id = some node → Sound output node) :
    net.checkSafetyOf output leader w =
      (checkLeaderAgreement (net.nodes.map (finalLeaderWave leader w)) >>= fun _ =>
        checkPrefixConsistency (net.outputsOf output)) := by
  have hentries : ∀ entry ∈ net.nodes.entries, Sound output entry.2 := fun entry hentry =>
    hsound entry.1 entry.2 (OrderedMap.mem_entries_iff.1 hentry)
  have hmap : OrderedMap.insertAll .empty Prod.fst (fun entry => ((output entry.2).toOption).getD [])
      net.nodes.entries = net.outputsOf output := by
    have hself := OrderedMap.insertAll_entries (m := net.outputsOf output)
    unfold OrderedMap.insertAll at hself ⊢
    rw [← hself]
    simp only [outputsOf, OrderedMap.map, List.foldl_map]
    rfl
  unfold checkSafetyOf
  rw [foldlM_checkedOutput hentries, hmap]
  rfl

/-- **The exact verdict of the safety check**, for sound outputs. -/
theorem checkSafetyOf_verdict (hsound : ∀ id node, net.nodes.lookup id = some node → Sound output node) :
    (net.checkSafetyOf output leader w = .ok () ↔
      LeadersAgree (net.nodes.map (finalLeaderWave leader w)) ∧
      ∀ id id' left right, (net.outputsOf output).lookup id = some left →
        (net.outputsOf output).lookup id' = some right → left <+: right ∨ right <+: left) ∧
    ∀ violation, net.checkSafetyOf output leader w = .error violation →
      (∃ left right index, violation = .divergence left right index) ∨
      ∃ left right L L', violation = .conflictingFinalLeaders left right L L' := by
  rw [checkSafetyOf_eq hsound]
  refine ⟨?_, fun violation h => ?_⟩
  · rw [Codec.check_eq_ok, checkLeaderAgreement_ok_iff, checkPrefixConsistency_ok_iff]
  · obtain h | ⟨-, -, h⟩ := Codec.bind_eq_error.1 h
    · exact Or.inr (checkLeaderAgreement_error h)
    · exact Or.inl (checkPrefixConsistency_error h)

end AdversarialNetwork

end CordialMiners
