/-
# The history of a block, walked in full

`complete_history` of `consensus/verified_evidence.rs`.

The walk keeps a stack of blocks, each of them pushed once to be opened and once
to be closed.  Opening a block pushes the blocks its references name, looked up
by hash and creator; closing it gives it a round, one more than the largest round
it refers to.  A block opened while it is open lies on a cycle, and a reference
that names nothing ends the walk.

The history of a block is a relation (`InHistory`, `HistoryRound`), and the walk
succeeds exactly where the relation says so, whatever the blocklace
(`completeHistory_eq_ok`): `Walking` is its invariant, and the steps are
counted by `HistoryState.potential`, which every step lowers.  On a closed
blocklace whose hashes come in an order, the round found is the one the block has
or would have, and the history everything below it (`Walkable`).
-/

import CordialMiners.Validation.Authentic

namespace CordialMiners

open FinGraph Relation

/-- Why a claim of equivocation is refused. -/
inductive EvidenceVerificationError where
  | tooFewBlocks
  | malformedEncoding
  | wrongCreator
  | invalidHash
  | invalidSignature
  | duplicateBlock
  | invalidBlock
  | missingHistory
  | wrongRound
  | comparableBlocks
deriving DecidableEq, Repr

/-- `BTreeMap<BlockIdentity, u64>`. -/
abbrev RoundMap := AList fun _ : BlockIdentity => ℕ

/-- The state of the walk; a stack entry says whether its block has been opened. -/
structure HistoryState where
  stack : List (Block × Bool)
  rounds : RoundMap
  visiting : Finset BlockIdentity
  ancestors : Finset BlockIdentity

/-- The round above the rounds of the references; `none` where one has no round yet. -/
def roundAbove (rounds : RoundMap) (predecessors : List BlockIdentity) : Option ℕ :=
  predecessors.foldlM (fun round predecessor =>
    (rounds.lookup predecessor.consensusIdentity).map fun r => max round (r + 1)) 0

/-- Push the blocks that the references name; `none` where one names nothing. -/
def pushPredecessors (B : Blocklace) (predecessors : List BlockIdentity)
    (stack : List (Block × Bool)) : Option (List (Block × Bool)) :=
  predecessors.foldlM (fun stack predecessor =>
    (B.get predecessor.consensusIdentity).map fun ancestor => (ancestor, false) :: stack) stack

/-- One round of the loop. -/
def HistoryState.step (crypto : BlockCrypto) (B : Blocklace) (s : HistoryState) :
    Except EvidenceVerificationError HistoryState :=
  match s.stack with
  | [] => .ok s
  | (current, expanded) :: rest =>
      let identity := current.identity.consensusIdentity
      if identity ∈ s.rounds then .ok { s with stack := rest }
      else if crypto.blockHash current.identity.creator current.content ≠
          current.identity.contentHash then .error .invalidHash
      else if expanded then
        match roundAbove s.rounds current.content.predecessors with
        | none => .error .missingHistory
        | some round =>
            .ok { s with
              stack := rest
              visiting := s.visiting.erase identity
              rounds := s.rounds.insert identity round }
      else if identity ∈ s.visiting then .error .invalidBlock
      else
        match pushPredecessors B current.content.predecessors ((current, true) :: rest) with
        | none => .error .missingHistory
        | some stack =>
            .ok { s with
              stack := stack
              visiting := insert identity s.visiting
              ancestors := s.ancestors ∪
                (current.content.predecessors.map BlockIdentity.consensusIdentity).toFinset }

/-- The loop. -/
def HistoryState.run (crypto : BlockCrypto) (B : Blocklace) :
    ℕ → HistoryState → Except EvidenceVerificationError HistoryState
  | 0, _ => .error .invalidBlock
  | fuel + 1, s =>
      match s.stack with
      | [] => .ok s
      | _ :: _ => (s.step crypto B).bind (run crypto B fuel)

/-- The blocks that the walk from `block` can meet. -/
def historyNodes (B : Blocklace) (block : Block) : List Block :=
  block :: B.blocks.entries.map fun entry => ⟨entry.1, entry.2⟩

/-- Every block is opened once and closed once, every reference pushed once. -/
def historyFuel (B : Blocklace) (block : Block) : ℕ :=
  ((historyNodes B block).map fun c => c.refs.length + 1).sum + 2

/-- `complete_history`: the round of the block and what is below it. -/
def completeHistory (crypto : BlockCrypto) (block : Block) (B : Blocklace) :
    Except EvidenceVerificationError (ℕ × Finset BlockIdentity) :=
  match HistoryState.run crypto B (historyFuel B block) ⟨[(block, false)], ∅, ∅, ∅⟩ with
  | .error error => .error error
  | .ok s =>
      match s.rounds.lookup block.identity.consensusIdentity with
      | none => .error .missingHistory
      | some round => .ok (round, s.ancestors)

/-! ### The walk takes few steps -/

variable {crypto : BlockCrypto} {B : Blocklace} {block x c : Block} {s s' : HistoryState}

namespace HistoryState

/-- Stack entries still to be popped, and blocks and references still to be pushed. -/
def potential (B : Blocklace) (x : Block) (s : HistoryState) : ℕ :=
  s.stack.length +
    (((historyNodes B x).filter fun c => c.identity.consensusIdentity ∉ s.visiting ∧
      c.identity.consensusIdentity ∉ s.rounds).map fun c => c.refs.length + 1).sum

/-- The stack holds blocks that the walk from `x` can meet. -/
def OnNodes (B : Blocklace) (x : Block) (s : HistoryState) : Prop :=
  ∀ entry ∈ s.stack, entry.1 ∈ historyNodes B x

end HistoryState

theorem mem_historyNodes : c ∈ historyNodes B x ↔ c = x ∨ B.Stores c := by
  unfold historyNodes
  rw [List.mem_cons, List.mem_map]
  refine or_congr Iff.rfl ⟨?_, fun hc => ?_⟩
  · rintro ⟨entry, hentry, rfl⟩
    exact Blocklace.mem_entries_iff.1 hentry
  · exact ⟨⟨c.identity, c.content⟩, Blocklace.mem_entries_iff.2 hc, rfl⟩

theorem pushPredecessors_eq_some {predecessors : List BlockIdentity}
    {stack stack' : List (Block × Bool)}
    (h : pushPredecessors B predecessors stack = some stack') :
    ∃ pushed : List Block, stack' = pushed.map (·, false) ++ stack ∧
      pushed.length = predecessors.length ∧ (∀ c ∈ pushed, B.Stores c) ∧
      ∀ q, (∃ c ∈ pushed, c.identity.consensusIdentity = q) ↔
        ∃ p ∈ predecessors, p.consensusIdentity = q := by
  induction predecessors generalizing stack with
  | nil =>
      obtain rfl : stack = stack' := by simpa [pushPredecessors] using h
      exact ⟨[], by simp, rfl, by simp, by simp⟩
  | cons p predecessors ih =>
      unfold pushPredecessors at h
      rw [List.foldlM_cons] at h
      obtain ⟨stack₁, hfirst, hrest⟩ := Option.bind_eq_some_iff.1 h
      obtain ⟨ancestor, hget, rfl⟩ := Option.map_eq_some_iff.1 hfirst
      obtain ⟨pushed, rfl, hlen, hst, hq⟩ := ih hrest
      have hcons : ancestor.identity.consensusIdentity = p.consensusIdentity :=
        (Blocklace.resolveIdentity_eq_some_iff.1 (Blocklace.get_eq_some_iff.1 hget).1).2.1.symm
      refine ⟨pushed ++ [ancestor], by simp, by simp [hlen], fun c hc => ?_, fun q => ?_⟩
      · obtain hc | hc := List.mem_append.1 hc
        · exact hst c hc
        · exact List.mem_singleton.1 hc ▸ Blocklace.stores_of_get hget
      · simp only [List.mem_append, List.mem_cons, List.not_mem_nil, or_false, or_and_right,
          exists_or, exists_eq_left, hq, hcons]
        exact or_comm

namespace HistoryState

/-- **Everything a step can do** without an error. -/
theorem step_ok_cases {current : Block} {expanded : Bool} {rest : List (Block × Bool)}
    (hs : s.stack = (current, expanded) :: rest) (h : s.step crypto B = .ok s') :
    (current.identity.consensusIdentity ∈ s.rounds ∧ s' = { s with stack := rest }) ∨
    (current.identity.consensusIdentity ∉ s.rounds ∧ current.Hashed crypto ∧ expanded = true ∧
      ∃ round, roundAbove s.rounds current.content.predecessors = some round ∧
      s' = { s with
        stack := rest
        visiting := s.visiting.erase current.identity.consensusIdentity
        rounds := s.rounds.insert current.identity.consensusIdentity round }) ∨
    (current.identity.consensusIdentity ∉ s.rounds ∧ current.Hashed crypto ∧ expanded = false ∧
      current.identity.consensusIdentity ∉ s.visiting ∧ ∃ stack,
      pushPredecessors B current.content.predecessors ((current, true) :: rest) = some stack ∧
      s' = { s with
        stack := stack
        visiting := insert current.identity.consensusIdentity s.visiting
        ancestors := s.ancestors ∪ current.consensusRefs.toFinset }) := by
  unfold step at h
  rw [hs] at h
  simp only at h
  split_ifs at h with hround hhash hexp hvisit
  · exact .inl ⟨hround, (Except.ok.inj h).symm⟩
  · split at h
    · exact absurd h (by simp)
    · next round hr =>
      exact .inr (.inl ⟨hround, (not_not.1 hhash).symm, hexp, round, hr,
        (Except.ok.inj h).symm⟩)
  · split at h
    · exact absurd h (by simp)
    · next stack hpush =>
      exact .inr (.inr ⟨hround, (not_not.1 hhash).symm, Bool.not_eq_true _ ▸ hexp, hvisit,
        stack, hpush, (Except.ok.inj h).symm⟩)

/-- Taking an element out of a filtered sum. -/
private theorem sum_filter_add_le {α : Type} (f : α → ℕ) {P Q : α → Bool} {l : List α} {a : α}
    (hPQ : ∀ b, P b = true → Q b = true) (ha : a ∈ l) (hQ : Q a = true) (hP : P a = false) :
    ((l.filter P).map f).sum + f a ≤ ((l.filter Q).map f).sum := by
  have hle : ∀ m : List α, ((m.filter P).map f).sum ≤ ((m.filter Q).map f).sum := by
    intro m
    refine List.Sublist.sum_le_sum (List.Sublist.map f ?_) fun _ _ => Nat.zero_le _
    exact List.monotone_filter_right m hPQ
  obtain ⟨before, after, rfl⟩ := List.append_of_mem ha
  have h₁ := hle before
  have h₂ := hle after
  simp only [List.filter_append, List.filter_cons, hP, hQ, Bool.false_eq_true, if_false, if_true,
    List.map_append, List.sum_append, List.map_cons, List.sum_cons]
  omega

/-- **Every step lowers the potential.** -/
theorem potential_lt (hstack : s.stack ≠ []) (hnodes : s.OnNodes B x)
    (h : s.step crypto B = .ok s') : s'.OnNodes B x ∧ s'.potential B x < s.potential B x := by
  cases hs : s.stack with
  | nil => exact absurd hs hstack
  | cons entry rest =>
      obtain ⟨current, expanded⟩ := entry
      have hcurrent : current ∈ historyNodes B x := hnodes (current, expanded) (by simp [hs])
      have hrest : ∀ entry ∈ rest, entry.1 ∈ historyNodes B x := fun entry he =>
        hnodes entry (by rw [hs]; exact List.mem_cons_of_mem _ he)
      obtain ⟨-, rfl⟩ | ⟨hround, -, -, round, -, rfl⟩ | ⟨hround, -, -, hvisit, stack, hpush, rfl⟩ :=
        step_ok_cases hs h
      · refine ⟨hrest, ?_⟩
        unfold potential
        rw [hs, List.length_cons]
        dsimp only
        omega
      · refine ⟨hrest, ?_⟩
        unfold potential
        rw [hs, List.length_cons]
        -- the block moves from the open ones to those with a round
        have hle : ((historyNodes B x).filter fun c =>
            c.identity.consensusIdentity ∉ s.visiting.erase current.identity.consensusIdentity ∧
            c.identity.consensusIdentity ∉
              s.rounds.insert current.identity.consensusIdentity round).Sublist
            ((historyNodes B x).filter fun c => c.identity.consensusIdentity ∉ s.visiting ∧
              c.identity.consensusIdentity ∉ s.rounds) := by
          refine List.monotone_filter_right _ fun c hc => ?_
          simp only [decide_eq_true_eq, AList.mem_insert, not_or, Finset.mem_erase, not_and] at hc ⊢
          exact ⟨fun hv => hc.1 hc.2.1 hv, hc.2.2⟩
        have := List.Sublist.sum_le_sum (hle.map fun c => c.refs.length + 1)
          fun _ _ => Nat.zero_le _
        simp only at this ⊢
        omega
      · obtain ⟨pushed, rfl, hlen, hst, -⟩ := pushPredecessors_eq_some hpush
        refine ⟨fun entry he => ?_, ?_⟩
        · obtain he | he := List.mem_append.1 he
          · obtain ⟨c, hc, rfl⟩ := List.mem_map.1 he
            exact mem_historyNodes.2 (.inr (hst c hc))
          · obtain rfl | he := List.mem_cons.1 he
            · exact hcurrent
            · exact hrest entry he
        · unfold potential
          have hdrop := sum_filter_add_le (fun c : Block => c.refs.length + 1)
            (P := fun c => decide (c.identity.consensusIdentity ∉
                insert current.identity.consensusIdentity s.visiting ∧
              c.identity.consensusIdentity ∉ s.rounds))
            (Q := fun c => decide (c.identity.consensusIdentity ∉ s.visiting ∧
              c.identity.consensusIdentity ∉ s.rounds))
            (fun c hc => by
              simp only [decide_eq_true_eq, Finset.mem_insert, not_or] at hc ⊢
              exact ⟨hc.1.2, hc.2⟩)
            hcurrent (by simp [hround, hvisit]) (by simp)
          have hrefs : current.refs.length = current.content.predecessors.length := rfl
          rw [hs]
          simp only [List.length_append, List.length_map, List.length_cons, hlen] at hdrop ⊢
          omega

/-- The loop starts with enough fuel. -/
theorem potential_start : potential B x ⟨[(x, false)], ∅, ∅, ∅⟩ < historyFuel B x := by
  have hle := List.Sublist.sum_le_sum (List.Sublist.map (fun c : Block => c.refs.length + 1)
    (List.filter_sublist (p := fun c : Block => decide (c.identity.consensusIdentity ∉
      (∅ : Finset BlockIdentity) ∧ c.identity.consensusIdentity ∉ (∅ : RoundMap)))
      (l := historyNodes B x))) fun _ _ => Nat.zero_le _
  unfold potential historyFuel
  simp only [List.length_singleton] at hle ⊢
  omega

end HistoryState

/-! ### The history as a relation -/

namespace Blocklace

/-- `c` refers to the stored block `a`, by hash and creator. -/
def Parent (B : Blocklace) (c a : Block) : Prop := ∃ q ∈ c.consensusRefs, B.get q = some a

/-- The hash and creator `q` come up in the history of `c`. -/
def InHistory (B : Blocklace) (c : Block) (q : BlockIdentity) : Prop :=
  ∃ a, ReflTransGen B.Parent c a ∧ q ∈ a.consensusRefs

/-- The history of `c` can be walked to its end, and `c` is of round `d` in it. -/
inductive HistoryRound (crypto : BlockCrypto) (B : Blocklace) : Block → ℕ → Prop
  | intro {c : Block} {d : ℕ} (rd : Block → ℕ) (hashed : c.Hashed crypto)
      (named : ∀ q ∈ c.consensusRefs, ∃ a, B.get q = some a)
      (parents : ∀ a, B.Parent c a → HistoryRound crypto B a (rd a))
      (lt : ∀ a, B.Parent c a → rd a < d) (top : d = 0 ∨ ∃ a, B.Parent c a ∧ d = rd a + 1) :
      HistoryRound crypto B c d

variable {crypto : BlockCrypto} {B : Blocklace} {a b c : Block} {q : BlockIdentity} {d e : ℕ}

theorem consensusIdentity_of_get (h : B.get q = some a) :
    a.identity.consensusIdentity = q.consensusIdentity :=
  (resolveIdentity_eq_some_iff.1 (get_eq_some_iff.1 h).1).2.1.symm

theorem Parent.stores (h : B.Parent c a) : B.Stores a := by
  obtain ⟨q, -, hq⟩ := h
  exact stores_of_get hq

theorem Parent.mem (h : B.Parent c a) : a.identity.consensusIdentity ∈ c.consensusRefs := by
  obtain ⟨q, hq, hget⟩ := h
  obtain ⟨p, hp, rfl⟩ := List.mem_map.1 hq
  rw [consensusIdentity_of_get hget]
  exact hq

/-- A stored block is found by its hash and creator. -/
theorem Stores.get_consensusIdentity (h : B.Stores a) :
    B.get a.identity.consensusIdentity = some a :=
  get_eq_some_iff.2 ⟨resolveIdentity_eq_some_iff.2 ⟨h.mem, rfl, .inr rfl⟩, h⟩

theorem Stores.parent (h : B.Stores a) (hc : a.identity.consensusIdentity ∈ c.consensusRefs) :
    B.Parent c a := ⟨_, hc, h.get_consensusIdentity⟩

/-- One block is stored for a hash and creator. -/
theorem Stores.eq_of_consensusIdentity (ha : B.Stores a) (hb : B.Stores b)
    (h : a.identity.consensusIdentity = b.identity.consensusIdentity) : a = b :=
  ha.ext hb (eq_of_consensusIdentity_eq ha.mem hb.mem h)

theorem InHistory.of_mem (h : q ∈ c.consensusRefs) : B.InHistory c q := ⟨c, .refl, h⟩

/-- The history of a parent is part of the history. -/
theorem InHistory.of_parent (hp : B.Parent c a) (h : B.InHistory a q) : B.InHistory c q := by
  obtain ⟨k, hk, hq⟩ := h
  exact ⟨k, .head hp hk, hq⟩

theorem InHistory.trans (ha : B.Stores a) (h : B.InHistory c a.identity.consensusIdentity)
    (hq : q ∈ a.consensusRefs) : B.InHistory c q := by
  obtain ⟨k, hk, hak⟩ := h
  exact ⟨a, hk.tail (ha.parent hak), hq⟩

theorem HistoryRound.hashed (h : HistoryRound crypto B c d) : c.Hashed crypto := by
  cases h with
  | intro _ hashed _ _ _ _ => exact hashed

theorem HistoryRound.named (h : HistoryRound crypto B c d) (hq : q ∈ c.consensusRefs) :
    ∃ a, B.get q = some a := by
  cases h with
  | intro _ _ named _ _ _ => exact named q hq

theorem HistoryRound.parent (h : HistoryRound crypto B c d) (ha : B.Parent c a) :
    ∃ e < d, HistoryRound crypto B a e := by
  cases h with
  | intro rd _ _ parents lt _ => exact ⟨rd a, lt a ha, parents a ha⟩

/-- A block has one round in its history. -/
theorem HistoryRound.unique (h : HistoryRound crypto B c d) (h' : HistoryRound crypto B c e) :
    d = e := by
  induction h generalizing e with
  | intro rd _ _ _ lt top ih =>
      cases h' with
      | intro rd' _ _ parents' lt' top' =>
          have hrd : ∀ a, B.Parent _ a → rd a = rd' a := fun a ha => ih a ha (parents' a ha)
          rcases top with rfl | ⟨a, ha, rfl⟩ <;> rcases top' with rfl | ⟨b, hb, rfl⟩
          · rfl
          · have := lt b hb
            omega
          · have := lt' a ha
            omega
          · have h₁ := lt b hb
            have h₂ := lt' a ha
            have h₃ := hrd a ha
            have h₄ := hrd b hb
            omega

/-- What the history leads to has a history of its own, of no larger round. -/
theorem HistoryRound.of_reflTransGen (h : HistoryRound crypto B c d)
    (ha : ReflTransGen B.Parent c a) : ∃ e ≤ d, HistoryRound crypto B a e := by
  induction ha with
  | refl => exact ⟨d, le_rfl, h⟩
  | tail _ hstep ih =>
      obtain ⟨e, he, hround⟩ := ih
      obtain ⟨e', he', hround'⟩ := hround.parent hstep
      exact ⟨e', by omega, hround'⟩

/-- A stored block does not come up in its own history. -/
theorem HistoryRound.not_inHistory_self (h : HistoryRound crypto B c d) (hc : B.Stores c) :
    ¬ B.InHistory c c.identity.consensusIdentity := by
  rintro ⟨a, ha, hca⟩
  obtain ⟨e, he, hround⟩ := h.of_reflTransGen ha
  obtain ⟨d', hd', hround'⟩ := hround.parent (hc.parent hca)
  have := h.unique hround'
  omega

/-- The history of a block depends on its hash and what it refers to. -/
theorem HistoryRound.congr (h : HistoryRound crypto B c d) (hb : b.Hashed crypto)
    (hrefs : ∀ q, q ∈ b.consensusRefs ↔ q ∈ c.consensusRefs) : HistoryRound crypto B b d := by
  have hparent : ∀ a, B.Parent b a ↔ B.Parent c a := fun a => by
    unfold Parent
    simp only [hrefs]
  cases h with
  | intro rd _ named parents lt top =>
      refine .intro rd hb (fun q hq => named q ((hrefs q).1 hq))
        (fun a ha => parents a ((hparent a).1 ha)) (fun a ha => lt a ((hparent a).1 ha))
        (top.imp_right ?_)
      rintro ⟨a, ha, rfl⟩
      exact ⟨a, (hparent a).2 ha, rfl⟩

theorem inHistory_congr (hrefs : ∀ q, q ∈ b.consensusRefs ↔ q ∈ c.consensusRefs) :
    B.InHistory b q ↔ B.InHistory c q := by
  have hsub : ∀ b c : Block, (∀ q, q ∈ b.consensusRefs ↔ q ∈ c.consensusRefs) →
      B.InHistory b q → B.InHistory c q := by
    rintro b c hrefs ⟨a, ha, hq⟩
    obtain rfl | ⟨k, hk, hka⟩ := ReflTransGen.cases_head ha
    · exact .of_mem ((hrefs q).1 hq)
    · obtain ⟨q', hq', hget⟩ := hk
      exact ⟨a, .head ⟨q', (hrefs q').1 hq', hget⟩ hka, hq⟩
  exact ⟨hsub b c hrefs, hsub c b fun q => (hrefs q).symm⟩

end Blocklace

/-! ### The walk finds the history -/

/-- Where all references have rounds, `roundAbove` is one above the largest. -/
theorem roundAbove_eq_some_iff {rounds : RoundMap} {d : ℕ} :
    roundAbove rounds c.content.predecessors = some d ↔
      (∀ q ∈ c.consensusRefs, ∃ e < d, rounds.lookup q = some e) ∧
        (d = 0 ∨ ∃ q ∈ c.consensusRefs, ∃ e, rounds.lookup q = some e ∧ d = e + 1) := by
  have hfold : ∀ (preds : List BlockIdentity) (start : ℕ),
      preds.foldlM (fun round predecessor =>
          (rounds.lookup predecessor.consensusIdentity).map fun r => max round (r + 1)) start =
          some d ↔
        start ≤ d ∧ (∀ p ∈ preds, ∃ e < d, rounds.lookup p.consensusIdentity = some e) ∧
        (d = start ∨ ∃ p ∈ preds, ∃ e, rounds.lookup p.consensusIdentity = some e ∧ d = e + 1) := by
    intro preds
    induction preds with
    | nil =>
        intro start
        simp only [List.foldlM_nil, Option.pure_def, Option.some.injEq, List.not_mem_nil,
          false_implies, implies_true, true_and, false_and, exists_false, or_false]
        omega
    | cons p preds ih =>
        intro start
        rw [List.foldlM_cons]
        cases hp : rounds.lookup p.consensusIdentity with
        | none => simp [hp]
        | some e =>
            simp only [Option.map_some, Option.bind_eq_bind, Option.bind_some, ih, List.mem_cons,
              forall_eq_or_imp, hp, Option.some.injEq, exists_eq_right', exists_eq_or_imp]
            constructor
            · rintro ⟨hle, hlt, htop⟩
              refine ⟨by omega, ⟨by omega, hlt⟩, ?_⟩
              obtain hmax | htop := htop
              · obtain hstart | hnext := max_choice start (e + 1)
                · exact .inl (hmax.trans hstart)
                · exact .inr (.inl ⟨e, rfl, hmax.trans hnext⟩)
              · exact .inr (.inr htop)
            · rintro ⟨hle, ⟨hlt, hrest⟩, htop⟩
              refine ⟨by omega, hrest, ?_⟩
              obtain rfl | ⟨e', rfl, rfl⟩ | htop := htop
              · exact .inl (by omega)
              · exact .inl (by omega)
              · exact .inr htop
  unfold roundAbove
  rw [hfold]
  simp only [Block.consensusRefs, Block.refs, List.mem_map, forall_exists_index, and_imp,
    forall_apply_eq_imp_iff₂, exists_exists_and_eq_and, Nat.zero_le, true_and]

theorem exists_roundAbove {rounds : RoundMap} (h : ∀ q ∈ c.consensusRefs, q ∈ rounds) :
    ∃ d, roundAbove rounds c.content.predecessors = some d := by
  have hfold : ∀ (preds : List BlockIdentity) (start : ℕ),
      (∀ p ∈ preds, p.consensusIdentity ∈ rounds) →
      ∃ d, preds.foldlM (fun round predecessor =>
        (rounds.lookup predecessor.consensusIdentity).map fun r => max round (r + 1)) start =
          some d := by
    intro preds
    induction preds with
    | nil => exact fun start _ => ⟨start, rfl⟩
    | cons p preds ih =>
        intro start hpreds
        obtain ⟨e, he⟩ := Option.isSome_iff_exists.1 (AList.lookup_isSome.2 (hpreds p (by simp)))
        rw [List.foldlM_cons, he]
        exact ih (max start (e + 1)) fun q hq => hpreds q (List.mem_cons_of_mem _ hq)
  exact hfold c.content.predecessors 0 fun p hp => h _ (List.mem_map_of_mem hp)

theorem exists_pushPredecessors (h : ∀ q ∈ c.consensusRefs, ∃ a, B.get q = some a)
    (stack : List (Block × Bool)) :
    ∃ stack', pushPredecessors B c.content.predecessors stack = some stack' := by
  have hfold : ∀ (preds : List BlockIdentity) (stack : List (Block × Bool)),
      (∀ p ∈ preds, ∃ a, B.get p.consensusIdentity = some a) →
      ∃ stack', pushPredecessors B preds stack = some stack' := by
    intro preds
    induction preds with
    | nil => exact fun stack _ => ⟨stack, rfl⟩
    | cons p preds ih =>
        intro stack hpreds
        obtain ⟨a, ha⟩ := hpreds p (by simp)
        obtain ⟨stack', hstack'⟩ := ih ((a, false) :: stack) fun q hq =>
          hpreds q (List.mem_cons_of_mem _ hq)
        refine ⟨stack', ?_⟩
        unfold pushPredecessors
        rw [List.foldlM_cons, ha]
        exact hstack'
  exact hfold c.content.predecessors stack fun p hp => h _ (List.mem_map_of_mem hp)

/-- The references of the open blocks of a stack have rounds or stand above them;
`above` is what stands above the stack. -/
def Pending (rounds : RoundMap) : Set BlockIdentity → List (Block × Bool) → Prop
  | _, [] => True
  | above, (c, expanded) :: rest =>
      (expanded = true → ∀ q ∈ c.consensusRefs, q ∈ rounds ∨ q ∈ above) ∧
        Pending rounds (insert c.identity.consensusIdentity above) rest

theorem Pending.mono {rounds rounds' : RoundMap} {above above' : Set BlockIdentity}
    {stack : List (Block × Bool)} (h : Pending rounds above stack)
    (hrounds : ∀ q ∈ rounds, q ∈ rounds') (habove : ∀ q ∈ above, q ∈ rounds' ∨ q ∈ above') :
    Pending rounds' above' stack := by
  induction stack generalizing above above' with
  | nil => trivial
  | cons entry rest ih =>
      obtain ⟨hopen, hrest⟩ := h
      refine ⟨fun hexp q hq => ?_, ih hrest fun q hq => ?_⟩
      · exact (hopen hexp q hq).elim (fun h => .inl (hrounds q h)) (habove q)
      · obtain rfl | hq := hq
        · exact .inr (.inl rfl)
        · exact (habove q hq).imp_right Or.inr

/-- Blocks that are not open ask for nothing. -/
theorem Pending.of_pushed {rounds : RoundMap} {pushed : List Block} {rest : List (Block × Bool)}
    {above : Set BlockIdentity}
    (h : Pending rounds ({q | ∃ c ∈ pushed, c.identity.consensusIdentity = q} ∪ above) rest) :
    Pending rounds above (pushed.map (·, false) ++ rest) := by
  induction pushed generalizing above with
  | nil => exact h.mono (fun _ hq => hq) fun q hq => .inr (by simpa using hq)
  | cons c pushed ih =>
      refine ⟨fun hexp => absurd hexp (by simp), ih (h.mono (fun _ hq => hq) fun q hq => ?_)⟩
      obtain ⟨k, hk, rfl⟩ | hq := hq
      · obtain rfl | hk := List.mem_cons.1 hk
        · exact .inr (.inr (.inl rfl))
        · exact .inr (.inl ⟨k, hk, rfl⟩)
      · exact .inr (.inr (.inr hq))

/-- **The invariant of the walk** from `x`, once `x` is open: `front` is the stack
above `x`. -/
structure Walking (crypto : BlockCrypto) (B : Blocklace) (x : Block)
    (front : List (Block × Bool)) (s : HistoryState) : Prop where
  stack : s.stack = front ++ [(x, true)]
  hashed : x.Hashed crypto
  stored : ∀ entry ∈ front, B.Stores entry.1 ∧ B.InHistory x entry.1.identity.consensusIdentity
  opened : ∀ k, (k, true) ∈ s.stack → ∀ q ∈ k.consensusRefs, q ∈ s.ancestors
  others : ∀ k, (k, true) ∈ front → k.identity.consensusIdentity ≠ x.identity.consensusIdentity
  root : x.identity.consensusIdentity ∈ s.visiting ∧ x.identity.consensusIdentity ∉ s.rounds
  visiting : ∀ i ∈ s.visiting, i ∈ s.rounds ∨
    ∃ k, (k, true) ∈ s.stack ∧ k.identity.consensusIdentity = i
  rounds : ∀ i d, s.rounds.lookup i = some d → ∃ c, B.Stores c ∧ c.identity.consensusIdentity = i ∧
    Blocklace.HistoryRound crypto B c d ∧ ∀ q ∈ c.consensusRefs, q ∈ s.ancestors
  ancestors : ∀ q ∈ s.ancestors, B.InHistory x q ∧
    (q ∈ s.rounds ∨ ∃ entry ∈ front, entry.1.identity.consensusIdentity = q)
  pending : Pending s.rounds ∅ s.stack
  below : s.stack.Pairwise fun above below => below.2 = true →
    B.InHistory below.1 above.1.identity.consensusIdentity

namespace Walking

variable {front : List (Block × Bool)} {entry : Block × Bool} {d : ℕ}

/-- Closing a block gives it the round of its history. -/
theorem historyRound (h : Walking crypto B x front s) (hc : c.Hashed crypto)
    (hd : roundAbove s.rounds c.content.predecessors = some d) :
    Blocklace.HistoryRound crypto B c d := by
  obtain ⟨hlt, htop⟩ := roundAbove_eq_some_iff.1 hd
  -- the stored block that a reference names is the one that was given the round
  have hparent : ∀ q ∈ c.consensusRefs, ∀ e, s.rounds.lookup q = some e →
      ∃ a, B.get q = some a ∧ Blocklace.HistoryRound crypto B a e := by
    intro q hq e he
    obtain ⟨a, ha, rfl, hround, -⟩ := h.rounds q e he
    exact ⟨a, ha.get_consensusIdentity, hround⟩
  refine .intro (fun a => (s.rounds.lookup a.identity.consensusIdentity).getD 0) hc
    (fun q hq => ?_) (fun a ha => ?_) (fun a ha => ?_) (htop.imp_right ?_)
  · obtain ⟨e, -, he⟩ := hlt q hq
    obtain ⟨a, ha, -⟩ := hparent q hq e he
    exact ⟨a, ha⟩
  · obtain ⟨e, -, he⟩ := hlt _ ha.mem
    obtain ⟨b, hb, hround⟩ := hparent _ ha.mem e he
    rw [ha.stores.get_consensusIdentity] at hb
    obtain rfl := Option.some.inj hb
    rw [he]
    exact hround
  · obtain ⟨e, hed, he⟩ := hlt _ ha.mem
    rw [he]
    exact hed
  · rintro ⟨q, hq, e, he, rfl⟩
    obtain ⟨a, ha, rfl, -, -⟩ := h.rounds q e he
    refine ⟨a, ha.parent hq, ?_⟩
    rw [he, Option.getD_some]

/-- Leaving the top block of the stack, now that it has a round. -/
theorem leave {rounds : RoundMap} {visiting : Finset BlockIdentity}
    (h : Walking crypto B x (entry :: front) s) (hgrow : ∀ q ∈ s.rounds, q ∈ rounds)
    (htop : entry.1.identity.consensusIdentity ∈ rounds)
    (hroot : x.identity.consensusIdentity ∈ visiting ∧ x.identity.consensusIdentity ∉ rounds)
    (hvisiting : visiting ⊆ s.visiting)
    (hrounds : ∀ i d, rounds.lookup i = some d → ∃ c, B.Stores c ∧
      c.identity.consensusIdentity = i ∧ Blocklace.HistoryRound crypto B c d ∧
      ∀ q ∈ c.consensusRefs, q ∈ s.ancestors) :
    Walking crypto B x front ⟨front ++ [(x, true)], rounds, visiting, s.ancestors⟩ := by
  have hstack : s.stack = entry :: (front ++ [(x, true)]) := h.stack
  have hpending := h.pending
  have hbelow := h.below
  have hopened := h.opened
  have hvisit := h.visiting
  rw [hstack] at hpending hbelow hopened hvisit
  refine ⟨rfl, h.hashed, fun e he => h.stored e (List.mem_cons_of_mem _ he),
    fun k hk => hopened k (List.mem_cons_of_mem _ hk),
    fun k hk => h.others k (List.mem_cons_of_mem _ hk), hroot, fun i hi => ?_, hrounds,
    fun q hq => ⟨(h.ancestors q hq).1, ?_⟩, ?_, (List.pairwise_cons.1 hbelow).2⟩
  · obtain hi | ⟨k, hk, rfl⟩ := hvisit i (hvisiting hi)
    · exact .inl (hgrow i hi)
    · obtain rfl | hk := List.mem_cons.1 hk
      · exact .inl htop
      · exact .inr ⟨k, hk, rfl⟩
  · obtain hq | ⟨e, he, rfl⟩ := (h.ancestors q hq).2
    · exact .inl (hgrow q hq)
    · obtain rfl | he := List.mem_cons.1 he
      · exact .inl htop
      · exact .inr ⟨e, he, rfl⟩
  · refine hpending.2.mono hgrow fun q hq => .inl ?_
    obtain rfl | hq := hq
    · exact htop
    · exact absurd hq (Set.notMem_empty q)

/-- Opening the top block of the stack. -/
theorem enter {pushed : List Block} (h : Walking crypto B x ((c, false) :: front) s)
    (hvisit : c.identity.consensusIdentity ∉ s.visiting) (hst : ∀ k ∈ pushed, B.Stores k)
    (hpushed : ∀ q, (∃ k ∈ pushed, k.identity.consensusIdentity = q) ↔ q ∈ c.consensusRefs) :
    Walking crypto B x (pushed.map (·, false) ++ (c, true) :: front)
      ⟨pushed.map (·, false) ++ (c, true) :: (front ++ [(x, true)]), s.rounds,
        insert c.identity.consensusIdentity s.visiting, s.ancestors ∪ c.consensusRefs.toFinset⟩ := by
  have hstack : s.stack = (c, false) :: (front ++ [(x, true)]) := h.stack
  have hpending := h.pending
  have hbelow := h.below
  have hopened := h.opened
  have hvisiting := h.visiting
  rw [hstack] at hpending hbelow hopened hvisiting
  obtain ⟨hcst, hcx⟩ := h.stored (c, false) (by simp)
  have hcne : c.identity.consensusIdentity ≠ x.identity.consensusIdentity := fun heq =>
    hvisit (heq ▸ h.root.1)
  refine ⟨by simp, h.hashed, fun e he => ?_, fun k hk q hq => ?_, fun k hk => ?_,
    ⟨Finset.mem_insert_of_mem h.root.1, h.root.2⟩, fun i hi => ?_, fun i d hd => ?_,
    fun q hq => ?_, ?_, ?_⟩
  · obtain he | he := List.mem_append.1 he
    · obtain ⟨k, hk, rfl⟩ := List.mem_map.1 he
      exact ⟨hst k hk, .trans hcst hcx ((hpushed _).1 ⟨k, hk, rfl⟩)⟩
    · obtain rfl | he := List.mem_cons.1 he
      · exact ⟨hcst, hcx⟩
      · exact h.stored e (List.mem_cons_of_mem _ he)
  · simp only [List.mem_append, List.mem_map, Prod.mk.injEq, Bool.false_eq_true, and_false,
      exists_false, false_or, List.mem_cons, and_true] at hk
    obtain rfl | hk := hk
    · exact Finset.mem_union_right _ (List.mem_toFinset.2 hq)
    · exact Finset.mem_union_left _ (hopened k (by simpa using hk) q hq)
  · simp only [List.mem_append, List.mem_map, Prod.mk.injEq, Bool.false_eq_true, and_false,
      exists_false, false_or, List.mem_cons, and_true] at hk
    obtain rfl | hk := hk
    · exact hcne
    · exact h.others k (List.mem_cons_of_mem _ hk)
  · obtain rfl | hi := Finset.mem_insert.1 hi
    · exact .inr ⟨c, by simp, rfl⟩
    · refine (hvisiting i hi).imp_right ?_
      rintro ⟨k, hk, rfl⟩
      obtain hk | hk := List.mem_cons.1 hk
      · exact absurd (congrArg Prod.snd hk) (by simp)
      · exact ⟨k, List.mem_append_right _ (List.mem_cons_of_mem _ hk), rfl⟩
  · obtain ⟨k, hk, hki, hround, hrefs⟩ := h.rounds i d hd
    exact ⟨k, hk, hki, hround, fun q hq => Finset.mem_union_left _ (hrefs q hq)⟩
  · obtain hq | hq := Finset.mem_union.1 hq
    · obtain ⟨hin, hq | ⟨e, he, rfl⟩⟩ := h.ancestors q hq
      · exact ⟨hin, .inl hq⟩
      · refine ⟨hin, .inr ?_⟩
        obtain rfl | he := List.mem_cons.1 he
        · exact ⟨(c, true), by simp, rfl⟩
        · exact ⟨e, List.mem_append_right _ (List.mem_cons_of_mem _ he), rfl⟩
    · have hq := List.mem_toFinset.1 hq
      obtain ⟨k, hk, rfl⟩ := (hpushed q).2 hq
      exact ⟨.trans hcst hcx hq, .inr ⟨(k, false),
        List.mem_append_left _ (List.mem_map_of_mem hk), rfl⟩⟩
  · refine Pending.of_pushed ⟨fun _ q hq => .inr (.inl ((hpushed q).2 hq)), ?_⟩
    refine hpending.2.mono (fun _ hq => hq) fun q hq => .inr ?_
    obtain rfl | hq := hq
    · exact .inl rfl
    · exact absurd hq (Set.notMem_empty q)
  · -- what stands above `c` is in the history of every open block from `c` down
    have hcbelow := List.pairwise_cons.1 hbelow
    refine List.pairwise_append.2 ⟨List.Pairwise.map _ (fun _ _ _ hexp => absurd hexp (by simp))
      (List.pairwise_of_forall fun _ _ => trivial),
      List.pairwise_cons.2 ⟨fun e he => hcbelow.1 e he, hcbelow.2⟩, fun e he e' he' hexp => ?_⟩
    obtain ⟨k, hk, rfl⟩ := List.mem_map.1 he
    have hkc := (hpushed _).1 ⟨k, hk, rfl⟩
    obtain rfl | he' := List.mem_cons.1 he'
    · exact .of_mem hkc
    · exact .trans hcst (hcbelow.1 e' he' hexp) hkc

/-- **The invariant is kept** while blocks stand above the first one. -/
theorem next (h : Walking crypto B x (entry :: front) s) (hstep : s.step crypto B = .ok s') :
    ∃ front', Walking crypto B x front' s' := by
  obtain ⟨c, expanded⟩ := entry
  have hstack : s.stack = (c, expanded) :: (front ++ [(x, true)]) := h.stack
  obtain ⟨hround, rfl⟩ | ⟨hround, hhashed, rfl, round, hr, rfl⟩ |
    ⟨hround, hhashed, rfl, hvisit, stack, hpush, rfl⟩ := HistoryState.step_ok_cases hstack hstep
  · exact ⟨front, h.leave (fun _ hq => hq) hround h.root subset_rfl h.rounds⟩
  · have hcne := h.others c (by simp)
    have hrefs := h.opened c (by rw [hstack]; simp)
    refine ⟨front, h.leave (fun q hq => (AList.mem_insert _).2 (.inr hq))
      ((AList.mem_insert _).2 (.inl rfl)) ⟨Finset.mem_erase.2 ⟨hcne.symm, h.root.1⟩, ?_⟩
      (Finset.erase_subset _ _) fun i d hd => ?_⟩
    · rw [AList.mem_insert, not_or]
      exact ⟨hcne.symm, h.root.2⟩
    · by_cases hic : i = c.identity.consensusIdentity
      · subst hic
        rw [AList.lookup_insert] at hd
        obtain rfl := Option.some.inj hd
        exact ⟨c, (h.stored (c, true) (by simp)).1, rfl, h.historyRound hhashed hr, hrefs⟩
      · rw [AList.lookup_insert_ne hic] at hd
        exact h.rounds i d hd
  · obtain ⟨pushed, rfl, -, hst, hq⟩ := pushPredecessors_eq_some hpush
    exact ⟨_, h.enter hvisit hst fun q => (hq q).trans List.mem_map.symm⟩

/-- What comes up in the history of `x` is found: it is a reference of an open block
or of a block that has a round. -/
theorem mem_ancestors (h : Walking crypto B x [] s) {q : BlockIdentity} (hq : B.InHistory x q) :
    q ∈ s.ancestors := by
  obtain ⟨a, ha, hqa⟩ := hq
  have hrefs : ∀ q ∈ a.consensusRefs, q ∈ s.ancestors := by
    clear hqa
    induction ha with
    | refl => exact h.opened x (by rw [h.stack]; simp)
    | tail _ hstep ih =>
        obtain hround | ⟨_, hnil, -⟩ := (h.ancestors _ (ih _ hstep.mem)).2
        · obtain ⟨d, hd⟩ := Option.isSome_iff_exists.1 (AList.lookup_isSome.2 hround)
          obtain ⟨k, hk, hcons, -, hrefs⟩ := h.rounds _ d hd
          exact hk.eq_of_consensusIdentity hstep.stores hcons ▸ hrefs
        · exact absurd hnil (by simp)
  exact hrefs q hqa

/-- **The last step** gives the first block the round of its history. -/
theorem finish (h : Walking crypto B x [] s) (hstep : s.step crypto B = .ok s') :
    s'.stack = [] ∧ (∃ d, s'.rounds.lookup x.identity.consensusIdentity = some d ∧
        Blocklace.HistoryRound crypto B x d) ∧
      ¬ B.InHistory x x.identity.consensusIdentity ∧ ∀ q, q ∈ s'.ancestors ↔ B.InHistory x q := by
  have hiff : ∀ q, q ∈ s.ancestors ↔ B.InHistory x q := fun q =>
    ⟨fun hq => (h.ancestors q hq).1, h.mem_ancestors⟩
  obtain ⟨hround, -⟩ | ⟨-, hhashed, -, round, hr, rfl⟩ | ⟨-, -, hexp, -⟩ :=
    HistoryState.step_ok_cases h.stack hstep
  · exact absurd hround h.root.2
  · refine ⟨rfl, ⟨round, AList.lookup_insert _, h.historyRound hhashed hr⟩, fun hself => ?_, hiff⟩
    obtain hround | ⟨_, hnil, -⟩ := (h.ancestors _ ((hiff _).2 hself)).2
    · exact h.root.2 hround
    · exact absurd hnil (by simp)
  · exact absurd hexp (by simp)

/-- **No step fails** on a history that can be walked and does not lead back to `x`. -/
theorem exists_step (h : Walking crypto B x front s) (hx : Blocklace.HistoryRound crypto B x d)
    (hself : ¬ B.InHistory x x.identity.consensusIdentity) : ∃ s', s.step crypto B = .ok s' := by
  have hnodes : ∀ entry ∈ s.stack, (∃ e, Blocklace.HistoryRound crypto B entry.1 e) ∧
      ¬ B.InHistory entry.1 entry.1.identity.consensusIdentity := by
    intro entry hentry
    rw [h.stack] at hentry
    obtain hentry | hentry := List.mem_append.1 hentry
    · obtain ⟨hst, a, ha, hmem⟩ := h.stored entry hentry
      obtain ⟨e, -, hround⟩ := hx.of_reflTransGen (ha.tail (hst.parent hmem))
      exact ⟨⟨e, hround⟩, hround.not_inHistory_self hst⟩
    · obtain rfl := List.mem_singleton.1 hentry
      exact ⟨⟨d, hx⟩, hself⟩
  obtain ⟨⟨c, expanded⟩, rest, hs⟩ : ∃ entry rest, s.stack = entry :: rest :=
    List.exists_cons_of_ne_nil (by rw [h.stack]; simp)
  obtain ⟨⟨e, hround⟩, hcself⟩ := hnodes (c, expanded) (by simp [hs])
  have hpending := h.pending
  have hbelow := h.below
  rw [hs] at hpending hbelow
  have hhash : crypto.blockHash c.identity.creator c.content = c.identity.contentHash :=
    hround.hashed.symm
  unfold HistoryState.step
  rw [hs]
  simp only [hhash, ne_eq, not_true_eq_false, if_false]
  split_ifs with hin hexp hvisit
  · exact ⟨_, rfl⟩
  · obtain ⟨r, hr⟩ := exists_roundAbove fun q hq => (hpending.1 hexp q hq).resolve_right
      (Set.notMem_empty q)
    rw [hr]
    exact ⟨_, rfl⟩
  · -- an open block with this hash and creator would be in its own history
    obtain hin' | ⟨k, hk, hkc⟩ := h.visiting _ hvisit
    · exact absurd hin' hin
    · rw [hs] at hk
      obtain hk | hk := List.mem_cons.1 hk
      · exact absurd (congrArg Prod.snd hk).symm hexp
      · have hkself := (hnodes (k, true) (by rw [hs]; exact List.mem_cons_of_mem _ hk)).2
        exact absurd (hkc ▸ (List.pairwise_cons.1 hbelow).1 (k, true) hk rfl) hkself
  · obtain ⟨stack, hpush⟩ := exists_pushPredecessors
      (fun q hq => hround.named hq) ((c, true) :: rest)
    rw [hpush]
    exact ⟨_, rfl⟩

end Walking

/-- Opening the first block. -/
theorem walking_of_step (hstep : HistoryState.step crypto B ⟨[(x, false)], ∅, ∅, ∅⟩ = .ok s) :
    ∃ front, Walking crypto B x front s := by
  obtain ⟨hround, -⟩ | ⟨-, -, hexp, -⟩ | ⟨-, hhashed, -, -, stack, hpush, rfl⟩ :=
    HistoryState.step_ok_cases rfl hstep
  · exact absurd hround (AList.notMem_empty _)
  · exact absurd hexp (by simp)
  · obtain ⟨pushed, rfl, -, hst, hq⟩ := pushPredecessors_eq_some hpush
    have hrefs : ∀ k ∈ pushed, k.identity.consensusIdentity ∈ x.consensusRefs := fun k hk =>
      List.mem_map.2 ((hq _).1 ⟨k, hk, rfl⟩)
    refine ⟨pushed.map (·, false), rfl, hhashed, fun e he => ?_, fun k hk q hqk => ?_,
      fun k hk => ?_, ⟨by simp, AList.notMem_empty _⟩, fun i hi => .inr ⟨x, by simp, ?_⟩,
      fun i d hd => absurd hd (by simp), fun q hq' => ?_, ?_, ?_⟩
    · obtain ⟨k, hk, rfl⟩ := List.mem_map.1 he
      exact ⟨hst k hk, .of_mem (hrefs k hk)⟩
    · simp only [List.mem_append, List.mem_map, Prod.mk.injEq, Bool.false_eq_true, and_false,
        exists_false, false_or, List.mem_singleton, and_true] at hk
      subst hk
      simpa using hqk
    · simp at hk
    · simp only [insert_empty_eq, Finset.mem_singleton] at hi
      exact hi.symm
    · have hq' : q ∈ x.consensusRefs := by simpa using hq'
      obtain ⟨k, hk, rfl⟩ := (hq q).2 (List.mem_map.1 hq')
      exact ⟨.of_mem hq', .inr ⟨(k, false), List.mem_map_of_mem hk, rfl⟩⟩
    · exact Pending.of_pushed ⟨fun _ q hqx => .inr (.inl ((hq q).2 (List.mem_map.1 hqx))),
        trivial⟩
    · refine List.pairwise_append.2 ⟨List.Pairwise.map _ (fun _ _ _ hexp => absurd hexp (by simp))
        (List.pairwise_of_forall fun _ _ => trivial), List.pairwise_singleton _ _,
        fun e he e' he' _ => ?_⟩
      obtain ⟨k, hk, rfl⟩ := List.mem_map.1 he
      obtain rfl := List.mem_singleton.1 he'
      exact .of_mem (hrefs k hk)

/-- What a walk that has come to its end has found. -/
def HistoryState.Found (crypto : BlockCrypto) (B : Blocklace) (x : Block) (s : HistoryState) :
    Prop :=
  (∃ d, s.rounds.lookup x.identity.consensusIdentity = some d ∧
      Blocklace.HistoryRound crypto B x d) ∧
    ¬ B.InHistory x x.identity.consensusIdentity ∧ ∀ q, q ∈ s.ancestors ↔ B.InHistory x q

/-- **A walk that ends has found the history.** -/
theorem Walking.run_found {front : List (Block × Bool)} {fuel : ℕ}
    (h : Walking crypto B x front s) (hrun : s.run crypto B fuel = .ok s') :
    s'.Found crypto B x := by
  induction fuel generalizing front s with
  | zero => exact absurd hrun (by simp [HistoryState.run])
  | succ fuel ih =>
      obtain ⟨entry, rest, hs⟩ : ∃ entry rest, s.stack = entry :: rest :=
        List.exists_cons_of_ne_nil (by rw [h.stack]; simp)
      rw [HistoryState.run, hs] at hrun
      simp only at hrun
      cases hstep : s.step crypto B with
      | error e => simp [hstep, Except.bind] at hrun
      | ok s₁ =>
          rw [hstep] at hrun
          cases front with
          | cons top front =>
              obtain ⟨front', hnext⟩ := h.next hstep
              exact ih hnext hrun
          | nil =>
              obtain ⟨hend, hfound⟩ := h.finish hstep
              cases fuel with
              | zero => exact absurd hrun (by simp [Except.bind, HistoryState.run])
              | succ fuel =>
                  simp only [Except.bind, HistoryState.run, hend, Except.ok.injEq] at hrun
                  exact hrun ▸ hfound

/-- **A walk through a history ends.** -/
theorem Walking.exists_run {front : List (Block × Bool)} {fuel d : ℕ}
    (h : Walking crypto B x front s) (hx : Blocklace.HistoryRound crypto B x d)
    (hself : ¬ B.InHistory x x.identity.consensusIdentity) (hnodes : s.OnNodes B x)
    (hfuel : s.potential B x < fuel) : ∃ s', s.run crypto B fuel = .ok s' := by
  induction fuel generalizing front s with
  | zero => omega
  | succ fuel ih =>
      obtain ⟨entry, rest, hs⟩ : ∃ entry rest, s.stack = entry :: rest :=
        List.exists_cons_of_ne_nil (by rw [h.stack]; simp)
      obtain ⟨s₁, hstep⟩ := h.exists_step hx hself
      obtain ⟨hnodes₁, hlt⟩ := HistoryState.potential_lt (by simp [hs]) hnodes hstep
      rw [HistoryState.run, hs]
      simp only [hstep, Except.bind]
      cases front with
      | cons top front =>
          obtain ⟨front', hnext⟩ := h.next hstep
          exact ih hnext hnodes₁ (by omega)
      | nil =>
          obtain ⟨hend, -⟩ := h.finish hstep
          obtain ⟨fuel, rfl⟩ := Nat.exists_eq_succ_of_ne_zero (show fuel ≠ 0 by omega)
          exact ⟨s₁, by rw [HistoryState.run, hend]⟩

/-- The first step succeeds. -/
theorem exists_first_step {d : ℕ} (hx : Blocklace.HistoryRound crypto B x d) :
    ∃ s, HistoryState.step crypto B ⟨[(x, false)], ∅, ∅, ∅⟩ = .ok s := by
  have hhash : crypto.blockHash x.identity.creator x.content = x.identity.contentHash :=
    hx.hashed.symm
  obtain ⟨stack, hpush⟩ := exists_pushPredecessors (fun q hq => hx.named hq) [(x, true)]
  unfold HistoryState.step
  simp only [AList.notMem_empty, hhash, hpush, ne_eq, not_true_eq_false, if_false,
    Bool.false_eq_true, Finset.notMem_empty]
  exact ⟨_, rfl⟩

/-- What the loop finds from the first block. -/
theorem HistoryState.run_found
    (hrun : HistoryState.run crypto B (historyFuel B x) ⟨[(x, false)], ∅, ∅, ∅⟩ = .ok s) :
    s.Found crypto B x := by
  obtain ⟨fuel, hfuel⟩ : ∃ fuel, historyFuel B x = fuel + 1 := ⟨_, rfl⟩
  rw [hfuel, HistoryState.run] at hrun
  simp only at hrun
  cases hstep : HistoryState.step crypto B ⟨[(x, false)], ∅, ∅, ∅⟩ with
  | error e => simp [hstep, Except.bind] at hrun
  | ok s₁ =>
      rw [hstep] at hrun
      obtain ⟨front, hwalk⟩ := walking_of_step hstep
      exact hwalk.run_found hrun

/-- A history that can be walked is found. -/
theorem Blocklace.HistoryRound.exists_completeHistory {d : ℕ}
    (hx : Blocklace.HistoryRound crypto B x d)
    (hself : ¬ B.InHistory x x.identity.consensusIdentity) :
    ∃ ancestors, completeHistory crypto x B = .ok (d, ancestors) ∧
      ∀ q, q ∈ ancestors ↔ B.InHistory x q := by
  obtain ⟨s, hrun⟩ : ∃ s, HistoryState.run crypto B (historyFuel B x)
      ⟨[(x, false)], ∅, ∅, ∅⟩ = .ok s := by
    obtain ⟨fuel, hfuel⟩ : ∃ fuel, historyFuel B x = fuel + 1 := ⟨_, rfl⟩
    obtain ⟨s₁, hstep⟩ := exists_first_step hx
    obtain ⟨front, hwalk⟩ := walking_of_step hstep
    obtain ⟨hnodes, hlt⟩ := HistoryState.potential_lt (x := x) (by simp)
      (fun entry he => mem_historyNodes.2 (.inl (by simp_all))) hstep
    have hstart := HistoryState.potential_start (B := B) (x := x)
    rw [hfuel, HistoryState.run]
    simp only [hstep, Except.bind]
    exact hwalk.exists_run hx hself hnodes (by omega)
  obtain ⟨⟨e, he, hround⟩, -, hanc⟩ := HistoryState.run_found hrun
  refine ⟨s.ancestors, ?_, hanc⟩
  unfold completeHistory
  rw [hrun]
  simp only [he]
  rw [hx.unique hround]

/-- **What `complete_history` finds:** the round of the block in its history and
the hashes and creators of everything in it.  It fails exactly where the history
is incomplete, has a wrong hash in it, or leads back to the block. -/
theorem completeHistory_eq_ok {d : ℕ} {ancestors : Finset BlockIdentity} :
    completeHistory crypto x B = .ok (d, ancestors) ↔
      Blocklace.HistoryRound crypto B x d ∧ ¬ B.InHistory x x.identity.consensusIdentity ∧
        ∀ q, q ∈ ancestors ↔ B.InHistory x q := by
  constructor
  · intro h
    unfold completeHistory at h
    split at h
    · exact absurd h (by simp)
    · next s hrun =>
      obtain ⟨⟨e, he, hround⟩, hself, hanc⟩ := HistoryState.run_found hrun
      rw [he] at h
      obtain ⟨rfl, rfl⟩ := Prod.mk.inj (Except.ok.inj h)
      exact ⟨hround, hself, hanc⟩
  · rintro ⟨hx, hself, hanc⟩
    obtain ⟨found, heq, hfound⟩ := hx.exists_completeHistory hself
    rw [heq, Finset.ext fun q => (hfound q).trans (hanc q).symm]

/-! ### Histories on closed blocklaces -/

/-- The blocks of a walk from `x`: closed, correctly hashed, and in an order in
which references go down. -/
structure Walkable (crypto : BlockCrypto) (B : Blocklace) (x : Block) (rank : ContentHash → ℕ) :
    Prop where
  hashed : ∀ c ∈ historyNodes B x, c.Hashed crypto
  complete : ∀ c ∈ historyNodes B x, Available Block.refs B.Resolves c
  descends : ∀ c ∈ historyNodes B x, ∀ p ∈ c.refs,
    rank p.contentHash < rank c.identity.contentHash
  checkpoint : B.checkpoint = none

/-- Something strictly below `x` has the hash and creator `q`. -/
def Blocklace.Under (B : Blocklace) (x : Block) (q : BlockIdentity) : Prop :=
  ∃ p ∈ x.refs, ∃ r, B.resolveIdentity p = some r ∧ ∃ y, B.Sees r y ∧ y.consensusIdentity = q

/-- The block a reference resolves to is a parent. -/
theorem Blocklace.exists_parent {p : BlockIdentity} {r : BlockIdentity} (hp : p ∈ c.refs)
    (hr : B.resolveIdentity p = some r) :
    ∃ a, a.identity = r ∧ B.Parent c a ∧ r.consensusIdentity = p.consensusIdentity := by
  obtain ⟨hmem, hcons, -⟩ := resolveIdentity_eq_some_iff.1 hr
  obtain ⟨a, rfl, ha⟩ := exists_stores hmem
  exact ⟨a, rfl, ha.parent (hcons ▸ List.mem_map_of_mem hp), hcons.symm⟩

namespace Walkable

variable {rank : ContentHash → ℕ} {a : Block} {q : BlockIdentity}

/-- A parent is what one of the references resolves to. -/
theorem exists_ref (hw : Walkable crypto B x rank) (hc : c ∈ historyNodes B x)
    (ha : B.Parent c a) : ∃ p ∈ c.refs, B.resolveIdentity p = some a.identity ∧
      rank a.identity.contentHash < rank c.identity.contentHash := by
  obtain ⟨p, hp, hcons⟩ := List.mem_map.1 ha.mem
  obtain ⟨r, hr⟩ := hw.complete c hc p hp
  obtain ⟨hmem, hrcons, -⟩ := Blocklace.resolveIdentity_eq_some_iff.1 hr
  have hra : r = a.identity :=
    Blocklace.eq_of_consensusIdentity_eq hmem ha.stores.mem (hrcons.symm.trans hcons)
  refine ⟨p, hp, hra ▸ hr, ?_⟩
  rw [← (BlockIdentity.consensusIdentity_eq_iff.1 hcons).1]
  exact hw.descends c hc p hp

/-- **The round in the history is the round** the block has or would have. -/
theorem exists_historyRound (hw : Walkable crypto B x rank) (hc : c ∈ historyNodes B x) :
    ∃ d, Blocklace.HistoryRound crypto B c d ∧ B.CandidateRound c.content d := by
  induction hn : rank c.identity.contentHash using Nat.strong_induction_on generalizing c with
  | _ n ih =>
      subst hn
      have hparent : ∀ a, B.Parent c a → ∃ e, Blocklace.HistoryRound crypto B a e ∧
          B.Round a.identity e := by
        intro a ha
        obtain ⟨p, hp, hr, hlt⟩ := hw.exists_ref hc ha
        obtain ⟨e, hround, hcand⟩ := ih _ hlt (mem_historyNodes.2 (.inr ha.stores)) rfl
        exact ⟨e, hround, hcand.round ha.stores (by simp [hw.checkpoint])⟩
      choose! rd hrd hround using hparent
      have hrefs : ∀ p ∈ c.content.predecessors, ∃ e, B.RoundOf p e := by
        intro p hp
        obtain ⟨r, hr⟩ := hw.complete c hc p hp
        obtain ⟨a, rfl, ha, -⟩ := Blocklace.exists_parent hp hr
        exact ⟨rd a, a.identity, hr, hround a ha⟩
      obtain ⟨d, hlt, htop⟩ := Blocklace.exists_candidateRound hrefs
      refine ⟨d, .intro rd (hw.hashed c hc) (fun q hq => ?_) hrd (fun a ha => ?_)
        (htop.imp_right ?_), hlt, htop⟩
      · obtain ⟨p, hp, rfl⟩ := List.mem_map.1 hq
        obtain ⟨r, hr⟩ := hw.complete c hc p hp
        obtain ⟨a, rfl, ha, hcons⟩ := Blocklace.exists_parent hp hr
        exact ⟨a, hcons ▸ ha.stores.get_consensusIdentity⟩
      · obtain ⟨p, hp, hr, -⟩ := hw.exists_ref hc ha
        obtain ⟨e, he, hpe⟩ := hlt p hp
        rw [Blocklace.RoundOf.unique ⟨_, hr, hround a ha⟩ hpe]
        exact he
      · rintro ⟨p, hp, e, ⟨r, hr, hre⟩, rfl⟩
        obtain ⟨a, rfl, ha, -⟩ := Blocklace.exists_parent hp hr
        exact ⟨a, ha, by rw [(hround a ha).unique hre]⟩

/-- What comes up in the history is strictly below the block. -/
theorem inHistory_iff_under (hw : Walkable crypto B x rank) : B.InHistory x q ↔ B.Under x q := by
  have hx : x ∈ historyNodes B x := mem_historyNodes.2 (.inl rfl)
  constructor
  · rintro ⟨a, ha, hq⟩
    induction ha generalizing q with
    | refl =>
        obtain ⟨p, hp, rfl⟩ := List.mem_map.1 hq
        obtain ⟨r, hr⟩ := hw.complete x hx p hp
        exact ⟨p, hp, r, hr, r, Blocklace.Sees.refl B r,
          (Blocklace.resolveIdentity_eq_some_iff.1 hr).2.1.symm⟩
    | @tail b a _ hba ih =>
        obtain ⟨p, hp, r, hr, y, hry, hy⟩ := ih hba.mem
        have hymem : y ∈ B.blocks := hry.mem (Blocklace.resolveIdentity_mem hr)
        obtain rfl := Blocklace.eq_of_consensusIdentity_eq hymem hba.stores.mem hy
        obtain ⟨p', hp', rfl⟩ := List.mem_map.1 hq
        obtain ⟨t, ht⟩ := hw.complete a (mem_historyNodes.2 (.inr hba.stores)) p' hp'
        have hstep : t ∈ B.expand a.identity := by
          rw [Blocklace.expand_of_lookup hba.stores (by simp [hw.checkpoint])]
          exact List.mem_filterMap.2 ⟨p', hp', ht⟩
        exact ⟨p, hp, r, hr, t, hry.tail hstep,
          (Blocklace.resolveIdentity_eq_some_iff.1 ht).2.1.symm⟩
  · rintro ⟨p, hp, r, hr, y, hry, rfl⟩
    obtain ⟨k, rfl, hk, -⟩ := Blocklace.exists_parent hp hr
    have hpath : ∃ a, ReflTransGen B.Parent x a ∧ y.consensusIdentity ∈ a.consensusRefs ∧
        ∃ b, b.identity = y ∧ B.Parent a b := by
      induction hry with
      | refl => exact ⟨x, .refl, hk.mem, k, rfl, hk⟩
      | @tail z w _ hzw ih =>
          obtain ⟨a, ha, -, b, rfl, hb⟩ := ih
          have hzw' : w ∈ B.expand b.identity := hzw
          rw [Blocklace.expand_of_lookup hb.stores (by simp [hw.checkpoint])] at hzw'
          obtain ⟨p', hp', hres⟩ := List.mem_filterMap.1 hzw'
          obtain ⟨b', rfl, hb', -⟩ := Blocklace.exists_parent hp' hres
          exact ⟨b, ha.tail hb, hb'.mem, b', rfl, hb'⟩
    obtain ⟨a, ha, hmem, -⟩ := hpath
    exact ⟨a, ha, hmem⟩

/-- No history leads back to its block. -/
theorem not_inHistory_self (hw : Walkable crypto B x rank) :
    ¬ B.InHistory x x.identity.consensusIdentity := by
  rintro ⟨a, ha, hmem⟩
  have hle : a ∈ historyNodes B x ∧
      rank a.identity.contentHash ≤ rank x.identity.contentHash := by
    clear hmem
    induction ha with
    | refl => exact ⟨mem_historyNodes.2 (.inl rfl), le_rfl⟩
    | tail _ hstep ih =>
        obtain ⟨-, -, -, hlt⟩ := hw.exists_ref ih.1 hstep
        exact ⟨mem_historyNodes.2 (.inr hstep.stores), hlt.le.trans ih.2⟩
  obtain ⟨p, hp, hcons⟩ := List.mem_map.1 hmem
  have hlt := hw.descends a hle.1 p hp
  rw [(BlockIdentity.consensusIdentity_eq_iff.1 hcons).1] at hlt
  omega

/-- **On a closed blocklace `complete_history` finds** the round the block has or
would have, and everything below it. -/
theorem exists_completeHistory (hw : Walkable crypto B x rank) :
    ∃ d ancestors, completeHistory crypto x B = .ok (d, ancestors) ∧
      B.CandidateRound x.content d ∧ ∀ q, q ∈ ancestors ↔ B.Under x q := by
  obtain ⟨d, hround, hcand⟩ := hw.exists_historyRound (mem_historyNodes.2 (.inl rfl))
  obtain ⟨ancestors, heq, hanc⟩ := hround.exists_completeHistory hw.not_inHistory_self
  exact ⟨d, ancestors, heq, hcand, fun q => (hanc q).trans hw.inHistory_iff_under⟩

end Walkable

end CordialMiners
