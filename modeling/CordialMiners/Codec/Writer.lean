/-
# Writers with a limit

A writer appends to what is already written, or fails.  `Writes limit write items
Fits` says all there is to say about one: behind anything within the limit it
appends `items` exactly where `Fits` holds and the whole stays within the limit.
Such writers are put together like the readers that undo them.

The limit is `⊤` where nothing is checked.
-/

import CordialMiners.Codec.Reader

namespace Codec

variable {σ ε α β : Type}

/-- Writing behind what is written so far. -/
abbrev Writer (σ ε : Type) := StateT (List σ) (Except ε)

/-- Append items, unless the whole would exceed the limit. -/
def put (limit : WithTop ℕ) (tooLong : ε) (items : List σ) : Writer σ ε Unit := fun out =>
  if ((out ++ items).length : WithTop ℕ) > limit then .error tooLong else .ok ((), out ++ items)

/-- What it means that `write` appends `items`. -/
def Writes (limit : WithTop ℕ) (write : Writer σ ε Unit) (items : List σ) (Fits : Prop) : Prop :=
  ∀ out out', (out.length : WithTop ℕ) ≤ limit → (write.run out = .ok ((), out') ↔
    Fits ∧ ((out ++ items).length : WithTop ℕ) ≤ limit ∧ out' = out ++ items)

variable {limit : WithTop ℕ} {write write' : Writer σ ε Unit} {items items' : List σ}
  {Fits Fits' : Prop} {tooLong error : ε}

theorem run_lift_eq_ok {x : Except ε α} {input rest : List σ} {a : α} :
    (liftM x : StateT (List σ) (Except ε) α).run input = .ok (a, rest) ↔ x = .ok a ∧ input = rest := by
  cases x with
  | error e => simp [liftM, monadLift, MonadLift.monadLift, StateT.lift, StateT.run, bind, Except.bind]
  | ok b =>
      simp [liftM, monadLift, MonadLift.monadLift, StateT.lift, StateT.run, bind, Except.bind, pure,
        Except.pure]

namespace Writes

theorem put : Writes limit (Codec.put limit tooLong items) items True := by
  intro out out' _
  unfold Codec.put StateT.run
  dsimp only
  rw [guard_eq_ok, not_lt, true_and, Except.ok.injEq, Prod.mk.injEq]
  simp [eq_comm]

theorem congr (h : Writes limit write items Fits) (hiff : Fits ↔ Fits') :
    Writes limit write items Fits' := fun out out' hout => by rw [h out out' hout, hiff]

/-- The same items, grouped otherwise. -/
theorem regroup (h : Writes limit write items Fits) (heq : items = items') :
    Writes limit write items' Fits := heq ▸ h

/-- Writing nothing. -/
theorem pure : Writes limit (Pure.pure () : Writer σ ε Unit) [] True := by
  intro out out' hout
  rw [run_pure_eq_ok]
  simp [hout, eq_comm]

/-- One after the other. -/
theorem seq (h : Writes limit write items Fits) (h' : Writes limit write' items' Fits') :
    Writes limit (write >>= fun _ => write') (items ++ items') (Fits ∧ Fits') := by
  intro out out' hout
  rw [run_bind_eq_ok, ← List.append_assoc]
  constructor
  · rintro ⟨⟨⟩, mid, hmid, hrest⟩
    obtain ⟨hfits, hlen, rfl⟩ := (h out mid hout).1 hmid
    obtain ⟨hfits', hlen', rfl⟩ := (h' _ out' hlen).1 hrest
    exact ⟨⟨hfits, hfits'⟩, hlen', rfl⟩
  · rintro ⟨⟨hfits, hfits'⟩, hlen', rfl⟩
    have hlen : ((out ++ items).length : WithTop ℕ) ≤ limit := by
      refine le_trans (Nat.cast_le.2 ?_) hlen'
      simp only [List.length_append]
      omega
    exact ⟨(), _, (h out _ hout).2 ⟨hfits, hlen, rfl⟩, (h' _ _ hlen).2 ⟨hfits', hlen', rfl⟩⟩

/-- Behind a refusal. -/
theorem guard {bad : Prop} [Decidable bad] (h : Writes limit write items Fits) :
    Writes limit (if bad then throw error else write) items (¬bad ∧ Fits) := by
  intro out out' hout
  split_ifs with hbad
  · refine iff_of_false (fun hrun => ?_) (by simp [hbad])
    exact absurd hrun run_throw_ne_ok
  · rw [h out out' hout]
    simp [hbad]

/-- Behind a check. -/
theorem check {x : Except ε Unit} (h : Writes limit write items Fits) :
    Writes limit (liftM x >>= fun _ => write) items (x = .ok () ∧ Fits) := by
  intro out out' hout
  rw [run_bind_eq_ok]
  constructor
  · rintro ⟨⟨⟩, mid, hmid, hrest⟩
    obtain ⟨hx, rfl⟩ := run_lift_eq_ok.1 hmid
    obtain ⟨hfits, hout'⟩ := (h _ _ hout).1 hrest
    exact ⟨⟨hx, hfits⟩, hout'⟩
  · rintro ⟨⟨hx, hfits⟩, hout'⟩
    exact ⟨(), out, run_lift_eq_ok.2 ⟨hx, rfl⟩, (h _ _ hout).2 ⟨hfits, hout'⟩⟩

/-- Many items one after the other. -/
theorem forM {l : List α} {write : α → Writer σ ε Unit} {encode : α → List σ} {Fits : α → Prop}
    (h : ∀ a, Writes limit (write a) (encode a) (Fits a)) :
    Writes limit (l.forM write) (l.flatMap encode) (∀ a ∈ l, Fits a) := by
  induction l with
  | nil => exact pure.congr (by simp)
  | cons a l ih => exact ((h a).seq ih).congr List.forall_mem_cons.symm

/-- What a writer writes from nothing. -/
theorem run_nil (h : Writes limit write items Fits) {out : List σ} :
    (Prod.snd <$> write.run []) = .ok out ↔
      Fits ∧ (items.length : WithTop ℕ) ≤ limit ∧ out = items := by
  have hrun := h [] out bot_le
  rw [List.nil_append] at hrun
  rw [← hrun]
  simp only [Functor.map, map_eq_ok, Prod.exists]
  constructor
  · rintro ⟨⟨⟩, _, hw, rfl⟩
    exact hw
  · intro hw
    exact ⟨(), out, hw, rfl⟩

end Writes

/-- A reader whose result must pass a check. -/
def checked (read : Reader σ ε α) (check : α → Except ε Unit) : Reader σ ε α := do
  let a ← read
  check a
  return a

/-- The check restricts the valid values. -/
theorem Decodes.checked {read : Reader σ ε α} {encode : α → List σ} {Valid : α → Prop}
    (h : Decodes read encode Valid) (check : α → Except ε Unit) :
    Decodes (Codec.checked read check) encode fun a => Valid a ∧ check a = .ok () := by
  intro input a rest
  unfold Codec.checked
  simp only [run_bind_eq_ok, run_pure_eq_ok]
  constructor
  · rintro ⟨b, mid, hb, ⟨⟩, mid', hcheck, rfl, rfl⟩
    obtain ⟨hvalid, rfl⟩ := (h _ _ _).1 hb
    obtain ⟨hok, rfl⟩ := run_lift_eq_ok.1 hcheck
    exact ⟨⟨hvalid, hok⟩, rfl⟩
  · rintro ⟨⟨hvalid, hcheck⟩, rfl⟩
    exact ⟨a, rest, h.run hvalid rest, (), rest, run_lift_eq_ok.2 ⟨hcheck, rfl⟩, rfl, rfl⟩

end Codec
