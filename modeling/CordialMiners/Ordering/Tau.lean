/-
# The output order

`tau` and `weighted_tau` of `consensus/ordering.rs`.

The output of a final leader is the output of the previous final leader it
ratifies, followed by the blocks it approves that have not been emitted yet, in
the order of `xsort`.  The counting and the weighted recursion differ only in
their tests, so each pair of functions is one definition over a `Ladder`.

`Chain` unrolls the recursion: it lists the leaders whose fragments are emitted,
oldest first, and the identities the checkpoint hands over before them.  The
output is then a fold over this list (`tauFromLeader_eq`), and each step of the
fold appends the order of one set of blocks (`emitFragment_eq_ok`).

`TauState` is its `ordered` list here: `emitted` always holds the members of it.
The trace events of the `trace` feature are left out.
-/

import CordialMiners.Ordering.Xsort
import CordialMiners.Codec.Reader

namespace CordialMiners

open FinGraph Relation
open Codec (map_eq_ok bind_eq_ok)

/-- Append the identities that are not emitted yet, one after another. -/
def emitAll (ordered ids : List BlockIdentity) : List BlockIdentity :=
  ids.foldl (fun ordered id => if id ∈ ordered then ordered else ordered ++ [id]) ordered

/-- `checkpoint_floor`: the checkpoint with its wave, when it lies strictly below
the leader and is the unique leader block of its wave. -/
def checkpointFloor (B : Blocklace) (currentLeader : BlockIdentity) (wavelength : ℕ)
    (leaderSelection : LeaderSelection) : Option (BlockIdentity × ℕ) := do
  let checkpoint ← B.checkpoint
  if checkpoint = currentLeader ∨ !B.precedes checkpoint currentLeader then none
  else
    let round ← B.depth checkpoint
    let wave ← waveOfRound round wavelength
    if leaderBlockForWave B wave wavelength leaderSelection ≠ some checkpoint then none
    else some (checkpoint, wave)

/-- `checkpoint_predecessor`: the checkpoint, when it lies strictly below the leader. -/
def checkpointPredecessor (B : Blocklace) (leader : BlockIdentity) : Option BlockIdentity := do
  let checkpoint ← B.checkpoint
  if checkpoint = leader ∨ !B.precedes checkpoint leader then none else some checkpoint

namespace Ladder

/-- The final leader of a wave, if the current block ratifies it. -/
def ratifiedLeader (ladder : Ladder) (B : Blocklace) (currentBlock : Block) (wavelength : ℕ)
    (leaderSelection : LeaderSelection) (wave : ℕ) : Option BlockIdentity := do
  let previousLeader ← ladder.finalForWave B wave wavelength leaderSelection
  let previousBlock ← B.get previousLeader
  if ladder.ratifies B currentBlock previousBlock then some previousLeader else none

/-- One wave of the search for the previous final leader. -/
def previousAt (ladder : Ladder) (B : Blocklace) (currentBlock : Block)
    (floor : Option (BlockIdentity × ℕ)) (wavelength : ℕ) (leaderSelection : LeaderSelection)
    (wave : ℕ) : Option BlockIdentity :=
  match floor with
  | none => ladder.ratifiedLeader B currentBlock wavelength leaderSelection wave
  | some (checkpoint, checkpointWave) =>
      -- the search does not go below the checkpoint
      if wave ≤ checkpointWave then some checkpoint
      else ladder.ratifiedLeader B currentBlock wavelength leaderSelection wave

/-- The newest earlier final leader that the current leader ratifies. -/
def previous (ladder : Ladder) (B : Blocklace) (currentLeader : BlockIdentity) (wavelength : ℕ)
    (leaderSelection : LeaderSelection) : Option BlockIdentity := do
  let currentBlock ← B.get currentLeader
  let currentRound ← B.depth currentLeader
  let currentWave ← waveOfRound currentRound wavelength
  (List.range currentWave).reverse.findSome?
    (ladder.previousAt B currentBlock
      (checkpointFloor B currentLeader wavelength leaderSelection) wavelength leaderSelection)

/-- The output with the stored prefix of the checkpoint, if the leader is the
checkpoint and a prefix is stored. -/
def emitCheckpointPrefix (ladder : Ladder) (B : Blocklace) (leader : BlockIdentity)
    (ordered : List BlockIdentity) : Option (List BlockIdentity) :=
  if B.checkpoint ≠ some leader ∨ ladder.orderPrefix B = [] then none
  else some (emitAll ordered ((ladder.orderPrefix B).map BlockIdentity.consensusIdentity))

end Ladder

namespace Blocklace

/-- Emit what a leader approves and is not emitted yet. -/
def emitFragment (B : Blocklace) (ordered : List BlockIdentity) (leader : BlockIdentity) :
    Except OrderingError (List BlockIdentity) :=
  (xsort ((B.approvedBlocksForLeader leader).filter
    fun block => block.identity.consensusIdentity ∉ ordered)).map (emitAll ordered)

end Blocklace

namespace Ladder

/-- What the recursion starts from below a leader without a previous one. -/
def emitBelow (ladder : Ladder) (B : Blocklace) (leader : BlockIdentity)
    (ordered : List BlockIdentity) : List BlockIdentity :=
  match checkpointPredecessor B leader with
  | none => ordered
  | some checkpoint => (ladder.emitCheckpointPrefix B checkpoint ordered).getD ordered

/-- `tau_from_leader`.  The previous leader lies in an earlier round, so the
round of the leader bounds the recursion; running out of fuel stands for a
recursion that does not return. -/
def tauFromLeader (ladder : Ladder) (B : Blocklace) (wavelength : ℕ)
    (leaderSelection : LeaderSelection) :
    ℕ → BlockIdentity → List BlockIdentity → Except OrderingError (List BlockIdentity)
  | 0, _, _ => .error .cycleDetected
  | fuel + 1, leader, ordered =>
      match ladder.emitCheckpointPrefix B leader ordered with
      | some ordered => .ok ordered
      | none => do
          let ordered ←
            match ladder.previous B leader wavelength leaderSelection with
            | some previous => tauFromLeader ladder B wavelength leaderSelection fuel previous ordered
            | none => .ok (ladder.emitBelow B leader ordered)
          B.emitFragment ordered leader

/-- Enough fuel for the recursion from a leader. -/
def tauFuel (B : Blocklace) (leader : BlockIdentity) : ℕ := (B.depth leader).getD 0 + 2

/-- The output anchored at a leader. -/
def tauAtLeader (ladder : Ladder) (B : Blocklace) (leader : BlockIdentity) (wavelength : ℕ)
    (leaderSelection : LeaderSelection) : Except OrderingError (List BlockIdentity) :=
  ladder.tauFromLeader B wavelength leaderSelection (tauFuel B leader) leader []

/-- The output anchored at the latest final leader. -/
def tau (ladder : Ladder) (B : Blocklace) (wavelength : ℕ) (leaderSelection : LeaderSelection) :
    Except OrderingError (List BlockIdentity) :=
  match ladder.latest B wavelength leaderSelection with
  | none => .ok []
  | some latestLeader => ladder.tauAtLeader B latestLeader wavelength leaderSelection

end Ladder

namespace Blocklace

/-- `previous_final_leader`. -/
def previousFinalLeader (B : Blocklace) (currentLeader : BlockIdentity) (wavelength n f : ℕ)
    (leaderSelection : LeaderSelection) : Option BlockIdentity :=
  (countLadder n f).previous B currentLeader wavelength leaderSelection

/-- `weighted_previous_final_leader`. -/
def weightedPreviousFinalLeader (B : Blocklace) (currentLeader : BlockIdentity) (wavelength : ℕ)
    (bonds : Bonds) (leaderSelection : LeaderSelection) : Option BlockIdentity :=
  (stakeLadder (.fromBonds bonds)).previous B currentLeader wavelength leaderSelection

/-- `tau`. -/
def tau (B : Blocklace) (wavelength n f : ℕ) (leaderSelection : LeaderSelection) :
    Except OrderingError (List BlockIdentity) :=
  (countLadder n f).tau B wavelength leaderSelection

/-- `weighted_tau_at_leader`. -/
def weightedTauAtLeader (B : Blocklace) (leader : BlockIdentity) (wavelength : ℕ) (bonds : Bonds)
    (leaderSelection : LeaderSelection) : Except OrderingError (List BlockIdentity) :=
  (stakeLadder (.fromBonds bonds)).tauAtLeader B leader wavelength leaderSelection

/-- `weighted_tau`. -/
def weightedTau (B : Blocklace) (wavelength : ℕ) (bonds : Bonds)
    (leaderSelection : LeaderSelection) : Except OrderingError (List BlockIdentity) :=
  (stakeLadder (.fromBonds bonds)).tau B wavelength leaderSelection

end Blocklace

/-! ### Emitting -/

theorem emitAll_eq {ordered ids : List BlockIdentity} (hnd : ids.Nodup) :
    emitAll ordered ids = ordered ++ ids.filter (· ∉ ordered) := by
  unfold emitAll
  induction ids generalizing ordered with
  | nil => simp
  | cons id ids ih =>
      obtain ⟨hid, hnd⟩ := List.nodup_cons.1 hnd
      rw [List.foldl_cons]
      by_cases hmem : id ∈ ordered
      · rw [if_pos hmem, ih hnd, List.filter_cons_of_neg (by simpa using hmem)]
      · rw [if_neg hmem, ih hnd, List.filter_cons_of_pos (by simpa using hmem), List.append_assoc,
          List.singleton_append]
        congr 2
        refine List.filter_congr fun x hx => ?_
        have hne : x ≠ id := fun h => hid (h ▸ hx)
        simp [hne]

theorem mem_emitAll {ordered ids : List BlockIdentity} {x : BlockIdentity} :
    x ∈ emitAll ordered ids ↔ x ∈ ordered ∨ x ∈ ids := by
  unfold emitAll
  induction ids generalizing ordered with
  | nil => simp
  | cons id ids ih =>
      rw [List.foldl_cons, ih, List.mem_cons]
      split_ifs with hmem
      · constructor
        · rintro (h | h)
          · exact Or.inl h
          · exact Or.inr (Or.inr h)
        · rintro (h | rfl | h)
          · exact Or.inl h
          · exact Or.inl hmem
          · exact Or.inr h
      · rw [List.mem_append, List.mem_singleton, or_assoc]

/-- Two results are equal when they succeed alike: there is one way to fail. -/
theorem except_ext {α : Type} {x y : Except OrderingError α}
    (h : ∀ out, x = .ok out ↔ y = .ok out) : x = y := by
  cases x with
  | ok out => exact ((h out).1 rfl).symm
  | error e =>
      cases y with
      | ok out => exact (h out).2 rfl
      | error e' => cases e; cases e'; rfl

/-- A fold reads its step on the members of the list and on the values that an
invariant of the steps admits. -/
theorem foldlM_congr_of_invariant {α β : Type} {step step' : β → α → Except OrderingError β}
    {l : List α} (I : β → Prop) (h : ∀ x ∈ l, ∀ acc, I acc → step acc x = step' acc x)
    (hI : ∀ x ∈ l, ∀ acc next, I acc → step' acc x = .ok next → I next) {acc : β} (hacc : I acc) :
    l.foldlM step acc = l.foldlM step' acc := by
  induction l generalizing acc with
  | nil => rw [List.foldlM_nil, List.foldlM_nil]
  | cons x l ih =>
      rw [List.foldlM_cons, List.foldlM_cons, h x List.mem_cons_self acc hacc]
      cases hnext : step' acc x with
      | error e => rfl
      | ok next =>
          exact ih (fun y hy => h y (List.mem_cons_of_mem _ hy))
            (fun y hy => hI y (List.mem_cons_of_mem _ hy)) (hI x List.mem_cons_self acc next hacc hnext)

/-- A fold reads its step on the members of the list only. -/
theorem foldlM_congr {α β : Type} {step step' : β → α → Except OrderingError β} {l : List α}
    (h : ∀ x ∈ l, ∀ acc, step acc x = step' acc x) (acc : β) :
    l.foldlM step acc = l.foldlM step' acc :=
  foldlM_congr_of_invariant (fun _ => True) (fun x hx acc _ => h x hx acc)
    (fun _ _ _ _ _ _ => trivial) trivial

namespace Blocklace

variable {B B' : Blocklace} {L P x : BlockIdentity} {d : ℕ} {ordered out : List BlockIdentity}

/-- The blocks whose consensus identity has been emitted. -/
def emitted (ordered : List BlockIdentity) : Set BlockIdentity :=
  {x | x.consensusIdentity ∈ ordered}

instance (ordered : List BlockIdentity) : DecidablePred (· ∈ emitted ordered) := fun x =>
  inferInstanceAs (Decidable (x.consensusIdentity ∈ ordered))

/-- The blocks a leader approves beyond those emitted. -/
def freshSet (B : Blocklace) (L : BlockIdentity) (ordered : List BlockIdentity) :
    Set BlockIdentity := B.approvedSet L \ emitted ordered

theorem freshSet_mem (hx : x ∈ B.freshSet L ordered) : x ∈ B.blocks := hx.1.1

/-- The blocks a fragment sorts. -/
theorem fresh_listed (B : Blocklace) (L : BlockIdentity) (ordered : List BlockIdentity) :
    B.Listed ((B.approvedBlocksForLeader L).filter
      fun block => block.identity.consensusIdentity ∉ ordered) :=
  (approvedBlocksForLeader_listed B L).filter _

theorem idsOf_fresh :
    idsOf ((B.approvedBlocksForLeader L).filter
      fun block => block.identity.consensusIdentity ∉ ordered) = B.freshSet L ordered := by
  unfold freshSet
  rw [← idsOf_approvedBlocksForLeader]
  ext x
  constructor
  · rintro ⟨b, hb, rfl⟩
    obtain ⟨hb, hnot⟩ := List.mem_filter.1 hb
    exact ⟨⟨b, hb, rfl⟩, by simpa [emitted] using hnot⟩
  · rintro ⟨⟨b, hb, rfl⟩, hnot⟩
    exact ⟨b, List.mem_filter.2 ⟨hb, by simpa [emitted] using hnot⟩, rfl⟩

/-- The order of the fresh blocks exists. -/
theorem exists_sorted (B : Blocklace) (L : BlockIdentity) (ordered : List BlockIdentity) :
    ∃ l, B.Sorted (B.freshSet L ordered) l :=
  ⟨_, (fresh_listed B L ordered).sorted.congr idsOf_fresh fun _ _ _ _ => Iff.rfl⟩

/-- **A fragment appends the order of the fresh blocks**, and fails exactly when
their references run in a cycle. -/
theorem emitFragment_eq_ok :
    B.emitFragment ordered L = .ok out ↔
      ∃ l, B.Sorted (B.freshSet L ordered) l ∧ (∀ x ∈ B.freshSet L ordered, x ∈ l) ∧
        out = ordered ++ l.map BlockIdentity.consensusIdentity := by
  -- nothing of a sorted fresh set is dropped again
  have hemit : ∀ {l : List BlockIdentity}, B.Sorted (B.freshSet L ordered) l →
      emitAll ordered (l.map BlockIdentity.consensusIdentity) =
        ordered ++ l.map BlockIdentity.consensusIdentity := by
    intro l hl
    rw [emitAll_eq (hl.nodup_map fun x hx => freshSet_mem hx), List.filter_eq_self.2]
    intro y hy
    obtain ⟨x, hx, rfl⟩ := List.mem_map.1 hy
    simpa [emitted] using (hl.mem hx).2
  unfold emitFragment
  rw [map_eq_ok]
  constructor
  · rintro ⟨sorted, hsorted, rfl⟩
    obtain ⟨l, hl, hall, rfl⟩ := (fresh_listed B L ordered).xsort_eq_ok.1 hsorted
    rw [idsOf_fresh] at hl hall
    exact ⟨l, hl, hall, hemit hl⟩
  · rintro ⟨l, hl, hall, rfl⟩
    refine ⟨l.map BlockIdentity.consensusIdentity,
      (fresh_listed B L ordered).xsort_eq_ok.2 ⟨l, ?_, ?_, rfl⟩, hemit hl⟩
    · rwa [idsOf_fresh]
    · rwa [idsOf_fresh]

/-- A fragment is read off the fresh blocks and the references among them. -/
theorem emitFragment_congr (hset : B.freshSet L ordered = B'.freshSet L ordered)
    (href : ∀ p ∈ B.freshSet L ordered, ∀ x ∈ B.freshSet L ordered,
      (B.Refers x p ↔ B'.Refers x p)) :
    B.emitFragment ordered L = B'.emitFragment ordered L := by
  refine except_ext fun out => ?_
  rw [emitFragment_eq_ok, emitFragment_eq_ok, ← hset]
  constructor
  · rintro ⟨l, hl, hall, rfl⟩
    exact ⟨l, hl.congr rfl href, hall, rfl⟩
  · rintro ⟨l, hl, hall, rfl⟩
    exact ⟨l, hl.congr rfl fun p hp x hx => (href p hp x hx).symm, hall, rfl⟩

/-- Emitting a fragment only appends. -/
theorem prefix_emitFragment (h : B.emitFragment ordered L = .ok out) : ordered <+: out := by
  obtain ⟨l, -, -, rfl⟩ := emitFragment_eq_ok.1 h
  exact List.prefix_append _ _

/-- Emitting fragments only appends. -/
theorem prefix_foldlM_emitFragment {leaders : List BlockIdentity}
    (h : leaders.foldlM B.emitFragment ordered = .ok out) : ordered <+: out := by
  induction leaders generalizing ordered with
  | nil =>
      obtain rfl := Except.ok.inj h
      exact List.prefix_rfl
  | cons L leaders ih =>
      rw [List.foldlM_cons] at h
      obtain ⟨next, hnext, h⟩ := bind_eq_ok.1 h
      exact (prefix_emitFragment hnext).trans (ih h)

/-- Without a checkpoint no fragment fails. -/
theorem exists_emitFragment (hcp : B.checkpoint = none) (hL : B.Round L d)
    (ordered : List BlockIdentity) : ∃ out, B.emitFragment ordered L = .ok out := by
  obtain ⟨l, hl⟩ := B.exists_sorted L ordered
  refine ⟨_, emitFragment_eq_ok.2 ⟨l, hl, fun x hx => ?_, rfl⟩⟩
  refine hl.covers (fun y _ => by simp [hcp]) (fun y hy => ?_) hx
  obtain ⟨e, -, he⟩ := hL.of_sees ((mem_approvedSet_iff hL).1 hy.1).sees
  exact ⟨e, he⟩

theorem exists_foldlM_emitFragment (hcp : B.checkpoint = none) {leaders : List BlockIdentity}
    (hround : ∀ L ∈ leaders, ∃ d, B.Round L d) (ordered : List BlockIdentity) :
    ∃ out, leaders.foldlM B.emitFragment ordered = .ok out := by
  induction leaders generalizing ordered with
  | nil => exact ⟨ordered, rfl⟩
  | cons L leaders ih =>
      obtain ⟨d, hL⟩ := hround L List.mem_cons_self
      obtain ⟨next, hnext⟩ := exists_emitFragment hcp hL ordered
      obtain ⟨out, hout⟩ := ih (fun x hx => hround x (List.mem_cons_of_mem _ hx)) next
      exact ⟨out, by rw [List.foldlM_cons, hnext]; exact hout⟩

end Blocklace

/-! ### The chain of leaders -/

namespace Ladder

open Blocklace

variable {ladder : Ladder} {Q : Quorum.Rule NodeId} {B : Blocklace} {w wave d : ℕ}
  {ls : LeaderSelection} {L P : BlockIdentity}

theorem emitCheckpointPrefix_none (hcp : B.checkpoint = none) (L : BlockIdentity)
    (ordered : List BlockIdentity) : ladder.emitCheckpointPrefix B L ordered = none := by
  unfold emitCheckpointPrefix
  rw [if_pos (Or.inl (by simp [hcp]))]

theorem emitBelow_of_no_checkpoint (hcp : B.checkpoint = none) (L : BlockIdentity)
    (ordered : List BlockIdentity) : ladder.emitBelow B L ordered = ordered := by
  unfold emitBelow checkpointPredecessor
  simp [hcp]

theorem checkpointFloor_none (hcp : B.checkpoint = none) :
    checkpointFloor B L w ls = none := by
  unfold checkpointFloor
  simp [hcp]

theorem checkpointFloor_eq_some {c : BlockIdentity} :
    checkpointFloor B L w ls = some (c, wave) ↔
      B.checkpoint = some c ∧ c ≠ L ∧ B.precedes c L = true ∧
        B.UniqueLeader w ls wave c := by
  unfold checkpointFloor
  simp only [Option.bind_eq_bind, Option.bind_eq_some_iff]
  constructor
  · rintro ⟨c', hcp, h⟩
    split_ifs at h with hbelow
    obtain ⟨round, hround, h⟩ := Option.bind_eq_some_iff.1 h
    obtain ⟨wave', hwave, h⟩ := Option.bind_eq_some_iff.1 h
    split_ifs at h with hlead
    obtain ⟨rfl, rfl⟩ := Prod.mk.inj (Option.some.inj h)
    rw [not_or] at hbelow
    exact ⟨hcp, hbelow.1, by simpa using hbelow.2, leaderBlockForWave_iff.1 (not_not.1 hlead)⟩
  · rintro ⟨hcp, hne, hprec, hu⟩
    refine ⟨c, hcp, ?_⟩
    rw [if_neg (by rw [not_or]; exact ⟨hne, by simp [hprec]⟩)]
    rw [hu.round.depth, Option.bind_some,
      waveOfRound_eq_some.2 ⟨hu.pos, Nat.mul_div_cancel _ hu.pos⟩, Option.bind_some,
      if_neg (not_not.2 (leaderBlockForWave_iff.2 hu))]

theorem ratifiedLeader_iff (hQ : ladder.Decides Q) {block : Block} (hb : B.Round block.identity d) :
    ladder.ratifiedLeader B block w ls wave = some P ↔
      ladder.finalForWave B wave w ls = some P ∧ B.Ratifies Q block.identity P := by
  unfold ratifiedLeader
  simp only [Option.bind_eq_bind, Option.bind_eq_some_iff]
  constructor
  · rintro ⟨P', hfinal, block', hget, h⟩
    split_ifs at h with hrat
    obtain rfl := Option.some.inj h
    rw [hQ.ratifies_iff hb] at hrat
    obtain ⟨hu, -⟩ := (finalForWave_iff hQ).1 hfinal
    have hres := (get_eq_some_iff.1 hget).1
    rw [resolveIdentity_of_mem hu.round.mem] at hres
    rw [← Option.some.inj hres] at hrat
    exact ⟨hfinal, hrat⟩
  · rintro ⟨hfinal, hrat⟩
    obtain ⟨hu, -⟩ := (finalForWave_iff hQ).1 hfinal
    obtain ⟨c, hc⟩ := exists_lookup hu.round.mem
    have hst : B.Stores ⟨P, c⟩ := hc
    exact ⟨P, hfinal, ⟨P, c⟩, hst.get, by rw [if_pos ((hQ.ratifies_iff hb).2 hrat)]⟩

/-- What one wave of the search below `L` finds: the floor, or above it a final
leader that `L` ratifies. -/
def PreviousAt (ladder : Ladder) (Q : Quorum.Rule NodeId) (B : Blocklace) (w : ℕ)
    (ls : LeaderSelection) (L : BlockIdentity) (wave : ℕ) (P : BlockIdentity) : Prop :=
  (∃ k, checkpointFloor B L w ls = some (P, k) ∧ wave ≤ k) ∨
    ((∀ c k, checkpointFloor B L w ls = some (c, k) → k < wave) ∧
      ladder.finalForWave B wave w ls = some P ∧ B.Ratifies Q L P)

theorem previousAt_iff (hQ : ladder.Decides Q) (block : Block) (hb : B.Round block.identity d) :
    ladder.previousAt B block (checkpointFloor B block.identity w ls) w ls wave = some P ↔
      ladder.PreviousAt Q B w ls block.identity wave P := by
  unfold previousAt PreviousAt
  cases checkpointFloor B block.identity w ls with
  | none =>
      simp only
      rw [ratifiedLeader_iff hQ hb]
      simp
  | some floor =>
      obtain ⟨c, k⟩ := floor
      simp only [Option.some.injEq, Prod.mk.injEq]
      split_ifs with hle
      · constructor
        · rintro h
          obtain rfl := Option.some.inj h
          exact Or.inl ⟨k, ⟨rfl, rfl⟩, hle⟩
        · rintro (⟨k', ⟨rfl, rfl⟩, -⟩ | ⟨habove, -⟩)
          · rfl
          · exact absurd (habove c k ⟨rfl, rfl⟩) (by omega)
      · rw [ratifiedLeader_iff hQ hb]
        constructor
        · intro h
          refine Or.inr ⟨?_, h⟩
          rintro c' k' ⟨rfl, rfl⟩
          omega
        · rintro (⟨k', ⟨rfl, rfl⟩, hle'⟩ | ⟨-, h⟩)
          · exact absurd hle' hle
          · exact h

/-- **`previous` finds the newest wave below the leader's that yields one.** -/
theorem previous_iff (hQ : ladder.Decides Q) (hL : B.Round L d) :
    ladder.previous B L w ls = some P ↔
      0 < w ∧ ∃ wave < d / w, ladder.PreviousAt Q B w ls L wave P ∧
        ∀ wave' < d / w, wave < wave' → ∀ P', ¬ ladder.PreviousAt Q B w ls L wave' P' := by
  obtain ⟨c, hc⟩ := exists_lookup hL.mem
  have hst : B.Stores ⟨L, c⟩ := hc
  have hat : ∀ {wave P}, ladder.previousAt B ⟨L, c⟩ (checkpointFloor B L w ls) w ls wave = some P ↔
      ladder.PreviousAt Q B w ls L wave P := previousAt_iff hQ ⟨L, c⟩ hL
  unfold previous
  rw [show B.get L = some ⟨L, c⟩ from hst.get, hL.depth]
  simp only [Option.bind_eq_bind, Option.bind_some, waveOfRound]
  split_ifs with hw
  · simp [hw]
  · rw [Option.bind_some, findSome_reverse_range]
    constructor
    · rintro ⟨wave, hlt, hP, hlater⟩
      refine ⟨by omega, wave, hlt, hat.1 hP, fun wave' hlt' hgt P' hP' => ?_⟩
      have := hlater wave' hlt' hgt
      rw [hat.2 hP'] at this
      exact absurd this (by simp)
    · rintro ⟨-, wave, hlt, hP, hlater⟩
      refine ⟨wave, hlt, hat.2 hP, fun wave' hlt' hgt => ?_⟩
      cases hP' : ladder.previousAt B ⟨L, c⟩ (checkpointFloor B L w ls) w ls wave' with
      | none => rfl
      | some P' => exact absurd (hat.1 hP') (hlater wave' hlt' hgt P')

/-- The search finds something if some wave yields something. -/
theorem exists_previous (hQ : ladder.Decides Q) (hL : B.Round L d) (hw : 0 < w)
    (hlt : wave < d / w) (hP : ladder.PreviousAt Q B w ls L wave P) :
    ∃ P', ladder.previous B L w ls = some P' := by
  classical
  let yields (k : ℕ) : Prop := k < d / w ∧ ∃ P', ladder.PreviousAt Q B w ls L k P'
  have hbound : ∀ k, yields k → k ≤ d / w := fun k hk => hk.1.le
  have htop : yields (Nat.findGreatest yields (d / w)) :=
    Nat.findGreatest_spec (P := yields) (hbound wave ⟨hlt, P, hP⟩) ⟨hlt, P, hP⟩
  obtain ⟨htop, P', hP'⟩ := htop
  refine ⟨P', (previous_iff hQ hL).2 ⟨hw, _, htop, hP', fun k hk hgt P'' hP'' => ?_⟩⟩
  exact Nat.findGreatest_is_greatest hgt hk.le ⟨hk, P'', hP''⟩

/-- **The previous leader lies strictly below.** -/
theorem previous_below (hQ : ladder.Decides Q) (hL : B.Round L d)
    (h : ladder.previous B L w ls = some P) : B.Below P L := by
  obtain ⟨hw, wave, hlt, hP, -⟩ := (previous_iff hQ hL).1 h
  rcases hP with ⟨k, hfloor, -⟩ | ⟨-, hfinal, hrat⟩
  · obtain ⟨hcp, -, hprec, hu⟩ := checkpointFloor_eq_some.1 hfloor
    exact (precedes_of_mem hu.round.mem).1 hprec
  · obtain ⟨hu, -⟩ := (finalForWave_iff hQ).1 hfinal
    rcases sees_iff_eq_or_below.1 hrat.sees with rfl | hbelow
    · -- a leader of an earlier wave has a smaller round
      have hd := hu.round.unique hL
      rw [← hd, Nat.mul_div_cancel _ hw] at hlt
      exact absurd hlt (lt_irrefl _)
    · exact hbelow

/-- The leaders whose fragments the recursion from `L` emits, oldest first, and
the output they are added to. -/
inductive Chain (ladder : Ladder) (B : Blocklace) (w : ℕ) (ls : LeaderSelection) :
    BlockIdentity → List BlockIdentity → List BlockIdentity → Prop
  | checkpoint {L : BlockIdentity} {base : List BlockIdentity}
      (h : ladder.emitCheckpointPrefix B L [] = some base) : Chain ladder B w ls L base []
  | first {L : BlockIdentity} (h : ladder.emitCheckpointPrefix B L [] = none)
      (hp : ladder.previous B L w ls = none) :
      Chain ladder B w ls L (ladder.emitBelow B L []) [L]
  | next {L P : BlockIdentity} {base leaders : List BlockIdentity}
      (h : ladder.emitCheckpointPrefix B L [] = none)
      (hp : ladder.previous B L w ls = some P) (hc : Chain ladder B w ls P base leaders) :
      Chain ladder B w ls L base (leaders ++ [L])

variable {base base' leaders leaders' : List BlockIdentity}

theorem Chain.unique (h : ladder.Chain B w ls L base leaders)
    (h' : ladder.Chain B w ls L base' leaders') : base = base' ∧ leaders = leaders' := by
  induction h generalizing base' leaders' with
  | checkpoint he =>
      cases h' with
      | checkpoint he' => exact ⟨Option.some.inj (he.symm.trans he'), rfl⟩
      | first he' => rw [he] at he'; exact absurd he' (by simp)
      | next he' => rw [he] at he'; exact absurd he' (by simp)
  | first he hp =>
      cases h' with
      | checkpoint he' => rw [he] at he'; exact absurd he' (by simp)
      | first => exact ⟨rfl, rfl⟩
      | next _ hp' => rw [hp] at hp'; exact absurd hp' (by simp)
  | next he hp _ ih =>
      cases h' with
      | checkpoint he' => rw [he] at he'; exact absurd he' (by simp)
      | first _ hp' => rw [hp] at hp'; exact absurd hp' (by simp)
      | next _ hp' hc' =>
          obtain rfl := Option.some.inj (hp.symm.trans hp')
          obtain ⟨rfl, rfl⟩ := ih hc'
          exact ⟨rfl, rfl⟩

/-- **The recursion from a block with a round ends.** -/
theorem exists_chain (hQ : ladder.Decides Q) (w : ℕ) (ls : LeaderSelection) (hL : B.Round L d) :
    ∃ base leaders, ladder.Chain B w ls L base leaders := by
  induction d using Nat.strong_induction_on generalizing L with
  | _ d ih =>
      cases he : ladder.emitCheckpointPrefix B L [] with
      | some base => exact ⟨base, [], .checkpoint he⟩
      | none =>
          cases hp : ladder.previous B L w ls with
          | none => exact ⟨_, _, .first he hp⟩
          | some P =>
              obtain ⟨e, hlt, hP⟩ := hL.of_below (previous_below hQ hL hp)
              obtain ⟨base, leaders, hc⟩ := ih e hlt hP
              exact ⟨base, _, .next he hp hc⟩

/-- Every leader of the chain is seen from its top. -/
theorem Chain.sees (hQ : ladder.Decides Q) (hL : B.Round L d)
    (h : ladder.Chain B w ls L base leaders) (hP : P ∈ leaders) : B.Sees L P := by
  induction h generalizing d with
  | checkpoint => simp at hP
  | first => rw [List.mem_singleton.1 hP]; exact .refl B _
  | next he hp _ ih =>
      rcases List.mem_append.1 hP with hP | hP
      · have hbelow := previous_below hQ hL hp
        obtain ⟨e, -, hround⟩ := hL.of_below hbelow
        exact hbelow.sees.trans (ih hround hP)
      · rw [List.mem_singleton.1 hP]
        exact .refl B _

/-- **The recursion is a fold over its chain.** -/
theorem tauFromLeader_eq (hQ : ladder.Decides Q) (hL : B.Round L d)
    (hc : ladder.Chain B w ls L base leaders) {fuel : ℕ} (hfuel : d < fuel) :
    ladder.tauFromLeader B w ls fuel L [] = leaders.foldlM B.emitFragment base := by
  induction hc generalizing d fuel with
  | checkpoint he =>
      obtain ⟨fuel, rfl⟩ := Nat.exists_eq_succ_of_ne_zero (by omega : fuel ≠ 0)
      rw [tauFromLeader, he]
      rfl
  | first he hp =>
      obtain ⟨fuel, rfl⟩ := Nat.exists_eq_succ_of_ne_zero (by omega : fuel ≠ 0)
      rw [tauFromLeader, he, hp]
      exact (bind_pure (B.emitFragment _ _)).symm
  | next he hp _ ih =>
      obtain ⟨fuel, rfl⟩ := Nat.exists_eq_succ_of_ne_zero (by omega : fuel ≠ 0)
      obtain ⟨e, hlt, hP⟩ := hL.of_below (previous_below hQ hL hp)
      rw [tauFromLeader, he, hp, List.foldlM_append, ← ih hP (by omega : e < fuel)]
      simp only [List.foldlM_cons, List.foldlM_nil, bind_pure]

theorem tauAtLeader_eq (hQ : ladder.Decides Q) (hL : B.Round L d)
    (hc : ladder.Chain B w ls L base leaders) :
    ladder.tauAtLeader B L w ls = leaders.foldlM B.emitFragment base := by
  refine tauFromLeader_eq hQ hL hc ?_
  unfold tauFuel
  rw [hL.depth, Option.getD_some]
  omega

end Ladder

end CordialMiners
