/-
# The head that a proposal builds on

`derive_chain_head` of `proposer.rs` on the predecessors that were selected.

The loop keeps the predecessor with the largest block number, of several the one
with the largest identity, so that the head does not depend on the order of the
set (`foldlM_considerPredecessor`).  It reads every payload on the way, and the
checks of a block never do: one selected block whose payload cannot be read ends
every proposal (`chain_head_of_selected`).
-/

import CordialMiners.Execution.Inclusion
import CordialMiners.Node.Proposer
import CordialMiners.Validation.Provenance

namespace CordialMiners

namespace CordialProposer

variable {bincode : Bincode} (debugIdentity : BlockIdentity → String) {B : Blocklace}
  {p : BlockIdentity} {predecessors : List BlockIdentity} {best e : BestPredecessor}

/-- What a predecessor is compared by. -/
def headKey (e : BestPredecessor) : ℕ ×ₗ BlockIdentity := toLex (e.1, e.2.1)

/-- What the loop remembers of a predecessor whose payload can be read. -/
def headEntry (bincode : Bincode) (B : Blocklace) (p : BlockIdentity) : Option BestPredecessor :=
  (B.payloadAt bincode p).map fun payload =>
    (payload.state.blockNumber, p, payload.state.postStateHash, payload.state.bonds)

theorem headEntry_eq_some_iff : headEntry bincode B p = some e ↔
    ∃ payload, B.payloadAt bincode p = some payload ∧
      e = (payload.state.blockNumber, p, payload.state.postStateHash, payload.state.bonds) := by
  unfold headEntry
  rw [Option.map_eq_some_iff]
  refine exists_congr fun payload => and_congr_right fun _ => eq_comm

theorem payloadAt_eq_get : B.payloadAt bincode p = (B.get p).bind fun block =>
    (CordialBlockPayload.fromBytes bincode block.content.payload).toOption := by
  unfold Blocklace.payloadAt Blocklace.content Blocklace.get
  cases B.resolveIdentity p with
  | none => rfl
  | some r => cases hlookup : B.blocks.lookup r <;> simp [hlookup]

/-- A readable predecessor replaces a smaller one. -/
theorem considerPredecessor_of_readable (h : headEntry bincode B p = some e)
    (best : Option BestPredecessor) :
    considerPredecessor bincode debugIdentity B best p =
      .ok (some (best.elim e fun b => if headKey b < headKey e then e else b)) := by
  obtain ⟨payload, hpayload, rfl⟩ := headEntry_eq_some_iff.1 h
  rw [payloadAt_eq_get] at hpayload
  obtain ⟨block, hblock, hread⟩ := Option.bind_eq_some_iff.1 hpayload
  have hok : CordialBlockPayload.fromBytes bincode block.content.payload = .ok payload := by
    cases hcase : CordialBlockPayload.fromBytes bincode block.content.payload with
    | error message => simp [hcase, Except.toOption] at hread
    | ok found =>
        rw [hcase] at hread
        exact congrArg _ (Option.some.inj hread)
  unfold considerPredecessor
  simp only [hblock, hok]
  cases best with
  | none => rfl
  | some best =>
      obtain ⟨number, id, rest⟩ := best
      simp only [Option.elim_some, headKey, Prod.Lex.toLex_lt_toLex]
      split_ifs <;> rfl

/-- Any other ends the loop. -/
theorem considerPredecessor_of_unreadable (h : B.payloadAt bincode p = none)
    (best : Option BestPredecessor) : ∃ message,
      considerPredecessor bincode debugIdentity B best p =
        .error (.error (.payloadDecode message)) := by
  rw [payloadAt_eq_get] at h
  unfold considerPredecessor
  cases hblock : B.get p with
  | none => exact ⟨_, rfl⟩
  | some block =>
      rw [hblock, Option.bind_some] at h
      cases hcase : CordialBlockPayload.fromBytes bincode block.content.payload with
      | error message => exact ⟨message, by simp only [hcase]⟩
      | ok found => simp [hcase, Except.toOption] at h

/-- **The loop ends with the greatest entry** of those it has seen and the one it
started from. -/
theorem foldlM_considerPredecessor
    (hread : ∀ p ∈ predecessors, (headEntry bincode B p).isSome) (best : BestPredecessor) :
    ∃ e, predecessors.foldlM (considerPredecessor bincode debugIdentity B) (some best) =
        .ok (some e) ∧
      (e = best ∨ ∃ p ∈ predecessors, headEntry bincode B p = some e) ∧
      headKey best ≤ headKey e ∧
      ∀ p ∈ predecessors, ∀ x, headEntry bincode B p = some x → headKey x ≤ headKey e := by
  induction predecessors generalizing best with
  | nil => exact ⟨best, rfl, Or.inl rfl, le_rfl, by simp⟩
  | cons p predecessors ih =>
      obtain ⟨x, hx⟩ := Option.isSome_iff_exists.1 (hread p List.mem_cons_self)
      obtain ⟨e, hfold, hfrom, hstart, hall⟩ := ih (fun q hq => hread q (List.mem_cons_of_mem _ hq))
        (if headKey best < headKey x then x else best)
      have hmax : headKey best ≤ headKey (if headKey best < headKey x then x else best) ∧
          headKey x ≤ headKey (if headKey best < headKey x then x else best) := by
        split_ifs with hlt
        · exact ⟨hlt.le, le_rfl⟩
        · exact ⟨le_rfl, not_lt.1 hlt⟩
      refine ⟨e, ?_, ?_, hmax.1.trans hstart, ?_⟩
      · rw [List.foldlM_cons, considerPredecessor_of_readable debugIdentity hx]
        exact hfold
      · rcases hfrom with rfl | ⟨q, hq, hqe⟩
        · split_ifs with hlt
          · exact Or.inr ⟨p, List.mem_cons_self, hx⟩
          · exact Or.inl rfl
        · exact Or.inr ⟨q, List.mem_cons_of_mem _ hq, hqe⟩
      · intro q hq y hy
        rcases List.mem_cons.1 hq with rfl | hq
        · obtain rfl := Option.some.inj (hx.symm.trans hy)
          exact hmax.2.trans hstart
        · exact hall q hq y hy

/-- An unreadable predecessor ends the loop wherever it stands. -/
theorem foldlM_considerPredecessor_unreadable (hp : p ∈ predecessors)
    (hread : B.payloadAt bincode p = none) (best : Option BestPredecessor) : ∃ message,
      predecessors.foldlM (considerPredecessor bincode debugIdentity B) best =
        .error (.error (.payloadDecode message)) := by
  induction predecessors generalizing best with
  | nil => exact absurd hp List.not_mem_nil
  | cons q predecessors ih =>
      rw [List.foldlM_cons]
      cases hq : B.payloadAt bincode q with
      | none =>
          obtain ⟨message, hstop⟩ := considerPredecessor_of_unreadable debugIdentity hq best
          rw [hstop]
          exact ⟨message, rfl⟩
      | some payload =>
          have hne : p ≠ q := by
            rintro rfl
            rw [hread] at hq
            exact absurd hq (by simp)
          have hentry : headEntry bincode B q = some (payload.state.blockNumber, q,
              payload.state.postStateHash, payload.state.bonds) := by
            rw [headEntry, hq, Option.map_some]
          rw [considerPredecessor_of_readable debugIdentity hentry]
          exact ih ((List.mem_cons.1 hp).resolve_left hne) _

/-- The head is the greatest entry. -/
theorem deriveChainHead_eq_ok (hne : predecessors ≠ [])
    (hread : ∀ p ∈ predecessors, (headEntry bincode B p).isSome) :
    ∃ e, (∃ p ∈ predecessors, headEntry bincode B p = some e) ∧
      (∀ p ∈ predecessors, ∀ x, headEntry bincode B p = some x → headKey x ≤ headKey e) ∧
      deriveChainHead bincode debugIdentity B predecessors =
        if e.1 + 1 < 2 ^ 64 then .ok (e.2.2.1, e.1 + 1, e.2.2.2) else .error .overflow := by
  obtain ⟨p, rest, rfl⟩ := List.exists_cons_of_ne_nil hne
  obtain ⟨x, hx⟩ := Option.isSome_iff_exists.1 (hread p List.mem_cons_self)
  obtain ⟨e, hfold, hfrom, hstart, hall⟩ := foldlM_considerPredecessor
    debugIdentity (fun q hq => hread q (List.mem_cons_of_mem _ hq)) x
  refine ⟨e, ?_, ?_, ?_⟩
  · rcases hfrom with rfl | ⟨q, hq, hqe⟩
    · exact ⟨p, List.mem_cons_self, hx⟩
    · exact ⟨q, List.mem_cons_of_mem _ hq, hqe⟩
  · intro q hq y hy
    rcases List.mem_cons.1 hq with rfl | hq
    · obtain rfl := Option.some.inj (hx.symm.trans hy)
      exact hstart
    · exact hall q hq y hy
  · have hwhole : (p :: rest).foldlM (considerPredecessor bincode debugIdentity B) none =
        .ok (some e) := by
      rw [List.foldlM_cons, considerPredecessor_of_readable debugIdentity hx]
      exact hfold
    unfold deriveChainHead
    rw [hwhole]
    rfl

/-- Two entries with one key are of one predecessor. -/
theorem eq_of_headKey_eq {q : BlockIdentity} {x : BestPredecessor}
    (he : headEntry bincode B p = some e) (hx : headEntry bincode B q = some x)
    (h : headKey e = headKey x) : e = x := by
  have hid : p = q := by
    obtain ⟨_, -, rfl⟩ := headEntry_eq_some_iff.1 he
    obtain ⟨_, -, rfl⟩ := headEntry_eq_some_iff.1 hx
    exact (Prod.mk.inj (congrArg ofLex h)).2
  rw [hid, hx] at he
  exact (Option.some.inj he).symm

/-- **What a proposal builds on.**  Where all selected payloads can be read and no
number is the last one, the head is found and is the same in every order, and its
number is larger than all of theirs; where one cannot be read, no order finds a
head. -/
theorem chain_head_of_selected (bincode : Bincode) (debugIdentity : BlockIdentity → String)
    (B : Blocklace) (bonds : Bonds) (mode : PredecessorSelectionMode)
    (hne : B.selectPredecessorsWithMode bonds mode ≠ []) :
    ((∀ p ∈ B.selectPredecessorsWithMode bonds mode, ∃ payload,
        B.payloadAt bincode p = some payload ∧ payload.state.blockNumber < 2 ^ 64 - 1) →
      ∃ preStateHash blockNumber bonds',
        (∀ order : List BlockIdentity, order.Perm (B.selectPredecessorsWithMode bonds mode) →
          deriveChainHead bincode debugIdentity B order =
            .ok (preStateHash, blockNumber, bonds')) ∧
        ∀ p ∈ B.selectPredecessorsWithMode bonds mode, ∀ payload,
          B.payloadAt bincode p = some payload → payload.state.blockNumber < blockNumber) ∧
    ((∃ p ∈ B.selectPredecessorsWithMode bonds mode, B.payloadAt bincode p = none) →
      ∀ order : List BlockIdentity, order.Perm (B.selectPredecessorsWithMode bonds mode) →
        ∃ message, deriveChainHead bincode debugIdentity B order =
          .error (.error (.payloadDecode message))) := by
  constructor
  · intro hall
    have hread : ∀ p ∈ B.selectPredecessorsWithMode bonds mode,
        (headEntry bincode B p).isSome := by
      intro p hp
      obtain ⟨payload, hpayload, -⟩ := hall p hp
      rw [headEntry, hpayload]
      rfl
    obtain ⟨e, ⟨p, hp, hpe⟩, hmax, -⟩ :=
      deriveChainHead_eq_ok debugIdentity hne hread
    have hlt : e.1 + 1 < 2 ^ 64 := by
      obtain ⟨payload, hpayload, hnumber⟩ := hall p hp
      obtain ⟨found, hfound, rfl⟩ := headEntry_eq_some_iff.1 hpe
      obtain rfl := Option.some.inj (hpayload.symm.trans hfound)
      show payload.state.blockNumber + 1 < 2 ^ 64
      omega
    refine ⟨e.2.2.1, e.1 + 1, e.2.2.2, fun order horder => ?_, fun q hq payload hpayload => ?_⟩
    · have hne' : order ≠ [] := fun hnil => hne (List.nil_perm.1 (hnil ▸ horder))
      obtain ⟨x, ⟨q, hq, hqx⟩, hmax', hderive⟩ :=
        deriveChainHead_eq_ok debugIdentity hne' fun q hq => hread q (horder.mem_iff.1 hq)
      have hkey : headKey x = headKey e :=
        le_antisymm (hmax q (horder.mem_iff.1 hq) x hqx) (hmax' p (horder.mem_iff.2 hp) e hpe)
      obtain rfl := eq_of_headKey_eq hqx hpe hkey
      rw [hderive, if_pos hlt]
    · have hentry : headEntry bincode B q = some (payload.state.blockNumber, q,
          payload.state.postStateHash, payload.state.bonds) := by
        rw [headEntry, hpayload, Option.map_some]
      have hle := hmax q hq _ hentry
      have hfst : payload.state.blockNumber ≤ e.1 := by
        rcases Prod.Lex.toLex_le_toLex.1 hle with hlt | ⟨heq, -⟩
        · exact hlt.le
        · exact heq.le
      omega
  · rintro ⟨p, hp, hunreadable⟩ order horder
    obtain ⟨message, hfold⟩ := foldlM_considerPredecessor_unreadable debugIdentity
      (horder.mem_iff.2 hp) hunreadable none
    refine ⟨message, ?_⟩
    unfold deriveChainHead
    rw [hfold]
    rfl

/-! ### A head and a block that stops every proposal -/

/-- The two readable blocks. -/
def readableLace : Blocklace := (Blocklace.new 0).growBy [Blocklace.firstBlock, Blocklace.heirBlock]

/-- The head above the two blocks has number `2`. -/
theorem chain_head_of_selected_nextBlock :
    readableLace.selectPredecessorsWithMode Blocklace.threeBonds .strict =
        [Blocklace.heirBlock.identity] ∧
      ∃ preStateHash blockNumber bonds,
        deriveChainHead Blocklace.garbledBincode (fun _ => "BlockIdentity") readableLace
          [Blocklace.heirBlock.identity] = .ok (preStateHash, blockNumber, bonds) ∧
        1 < blockNumber := by
  have hselected : readableLace.selectPredecessorsWithMode Blocklace.threeBonds .strict =
      [Blocklace.heirBlock.identity] := by decide +kernel
  have hpayload : readableLace.payloadAt Blocklace.garbledBincode Blocklace.heirBlock.identity =
      some Blocklace.nextPayload := by decide +kernel
  have hne : readableLace.selectPredecessorsWithMode Blocklace.threeBonds .strict ≠ [] := by
    simp [hselected]
  obtain ⟨preStateHash, blockNumber, bonds, hok, hlt⟩ :=
    (chain_head_of_selected Blocklace.garbledBincode (fun _ => "BlockIdentity") readableLace
      Blocklace.threeBonds .strict hne).1 (by
        intro p hp
        rw [hselected, List.mem_singleton] at hp
        exact ⟨Blocklace.nextPayload, hp ▸ hpayload, by decide⟩)
  rw [hselected] at hok hlt
  exact ⟨hselected, preStateHash, blockNumber, bonds, hok _ (List.Perm.refl _),
    hlt _ (List.mem_singleton.2 rfl) _ hpayload⟩

/-- A signed block of creator `1` with one byte as its payload. -/
def garbledGenesis : Block := ⟨Blocklace.signedId 1 1, ⟨[0], []⟩⟩

/-- **A block that passes the strict checks stops every proposal.** -/
theorem admitted_block_stops_proposals :
    ¬ ∀ (bincode : Bincode) (debugIdentity : BlockIdentity → String) (crypto : BlockCrypto)
      (bonds : Bonds) (k : ℕ) (calls : List StoreCall) (mode : PredecessorSelectionMode),
      (∀ c ∈ calls, ∃ block, c = .validatedInsert crypto block bonds .strict) →
      ((Blocklace.new k).storeAll calls).selectPredecessorsWithMode bonds mode ≠ [] →
      ∃ head, deriveChainHead bincode debugIdentity ((Blocklace.new k).storeAll calls)
        (((Blocklace.new k).storeAll calls).selectPredecessorsWithMode bonds mode) = .ok head := by
  intro h
  have hselected : ((Blocklace.new 0).storeAll [.validatedInsert
      (Blocklace.sevenCrypto [garbledGenesis]) garbledGenesis Blocklace.threeBonds .strict]
      ).selectPredecessorsWithMode Blocklace.threeBonds .strict = [garbledGenesis.identity] := by
    decide +kernel
  have hunreadable : ((Blocklace.new 0).storeAll [.validatedInsert
      (Blocklace.sevenCrypto [garbledGenesis]) garbledGenesis Blocklace.threeBonds .strict]
      ).payloadAt Blocklace.garbledBincode garbledGenesis.identity = none := by decide +kernel
  obtain ⟨head, hhead⟩ := h Blocklace.garbledBincode (fun _ => "BlockIdentity")
    (Blocklace.sevenCrypto [garbledGenesis]) Blocklace.threeBonds 0 [.validatedInsert
      (Blocklace.sevenCrypto [garbledGenesis]) garbledGenesis Blocklace.threeBonds .strict] .strict
    (by
      intro c hc
      rw [List.mem_singleton.1 hc]
      exact ⟨_, rfl⟩)
    (by simp [hselected])
  obtain ⟨message, hfold⟩ := foldlM_considerPredecessor_unreadable (fun _ => "BlockIdentity")
    (List.mem_singleton.2 rfl) hunreadable none
  unfold deriveChainHead at hhead
  rw [hselected, hfold] at hhead
  exact absurd hhead (by simp [Except.bind])

end CordialProposer

end CordialMiners
