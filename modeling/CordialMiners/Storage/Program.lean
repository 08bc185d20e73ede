/-
# Programs that a crash can stop

A program changes a state in single steps and ends with a value or an error.  Its
run is the list of the states after its steps: a crash leaves one of them, or the
state the program started from.

`Spec` says both halves of what is promised about a program from a given state:
every state that a crash can leave satisfies a condition, and the run ends in a
postcondition.  It is put together from the parts of the program: what is done
without a step, one step, one program after another (`Spec.bind`), a loop
(`Spec.forM`).
-/

import Mathlib.Tactic

namespace Storage

/-- What a run leaves behind: the states after its steps, and its result. -/
structure Run (σ ε α : Type) where
  passed : List σ
  result : Except ε α

/-- A program that changes a state step by step. -/
def Program (σ ε α : Type) : Type := σ → Run σ ε α

namespace Program

variable {σ ε ε' α β : Type}

/-- The state a run ends in. -/
def final (p : Program σ ε α) (s : σ) : σ := (p s).passed.getLastD s

/-- The states that a crash of the run can leave. -/
def crashes (p : Program σ ε α) (s : σ) : List σ := s :: (p s).passed

/-- Look at the state, without a step. -/
def inspect (f : σ → Except ε α) : Program σ ε α := fun s => ⟨[], f s⟩

/-- A result, without a step. -/
def done (r : Except ε α) : Program σ ε α := inspect fun _ => r

/-- One step; where it fails the state stays. -/
def step (f : σ → Except ε (α × σ)) : Program σ ε α := fun s =>
  match f s with
  | .ok (a, t) => ⟨[t], .ok a⟩
  | .error e => ⟨[], .error e⟩

/-- One program, and another with its value. -/
def andThen (p : Program σ ε α) (k : α → Program σ ε β) : Program σ ε β := fun s =>
  match (p s).result with
  | .ok a => ⟨(p s).passed ++ (k a (p.final s)).passed, (k a (p.final s)).result⟩
  | .error e => ⟨(p s).passed, .error e⟩

instance : Monad (Program σ ε) where
  pure a := done (.ok a)
  bind := andThen

/-- The same program with its error in other words. -/
def mapError (f : ε → ε') (p : Program σ ε α) : Program σ ε' α := fun s =>
  ⟨(p s).passed, (p s).result.mapError f⟩

/-- The same program, which hands on its result instead of stopping with an error. -/
def attempt (p : Program σ ε α) : Program σ ε' (Except ε α) := fun s =>
  ⟨(p s).passed, .ok (p s).result⟩

/-- **What is promised about a program from a state**: the condition `C` on whatever a
crash leaves, and the postcondition `Q`. -/
structure Spec (p : Program σ ε α) (s : σ) (C : σ → Prop) (Q : Except ε α → σ → Prop) : Prop where
  crash : ∀ t ∈ p.crashes s, C t
  ends : Q (p s).result (p.final s)

/-- A run that ends with a value. -/
def Returns (Q : α → σ → Prop) (r : Except ε α) (t : σ) : Prop := ∃ a, r = .ok a ∧ Q a t

variable {p : Program σ ε α} {k : α → Program σ ε β} {s : σ} {C C' : σ → Prop}
  {Q Q' : Except ε α → σ → Prop} {R : Except ε β → σ → Prop}

theorem final_mem_crashes : p.final s ∈ p.crashes s := List.getLastD_mem_cons

theorem getLastD_append (l l' : List α) (a : α) : (l ++ l').getLastD a = l'.getLastD (l.getLastD a) := by
  induction l generalizing a with
  | nil => rfl
  | cons b l ih => rw [List.cons_append, List.getLastD_cons, List.getLastD_cons, ih]

namespace Spec

theorem inspect {f : σ → Except ε α} (hs : C s) (h : Q (f s) s) : (Program.inspect f).Spec s C Q :=
  ⟨fun _ ht => List.mem_singleton.1 ht ▸ hs, h⟩

theorem done {r : Except ε α} (hs : C s) (h : Q r s) : (Program.done r).Spec s C Q := inspect hs h

theorem pure {a : α} (hs : C s) (h : Q (.ok a) s) : (Pure.pure a : Program σ ε α).Spec s C Q :=
  inspect hs h

theorem inspect_returns {f : σ → Except ε α} {P : α → σ → Prop} {a : α} (hs : C s)
    (hf : f s = .ok a) (hP : P a s) : (Program.inspect f).Spec s C (Returns P) :=
  inspect hs ⟨a, hf, hP⟩

theorem pure_returns {a : α} {P : α → σ → Prop} (hs : C s) (hP : P a s) :
    (Pure.pure a : Program σ ε α).Spec s C (Returns P) := pure hs ⟨a, rfl, hP⟩

theorem step {f : σ → Except ε (α × σ)} (hs : C s) (hok : ∀ a t, f s = .ok (a, t) → C t ∧ Q (.ok a) t)
    (herror : ∀ e, f s = .error e → Q (.error e) s) : (Program.step f).Spec s C Q := by
  unfold Program.step
  cases hf : f s with
  | error e =>
      refine ⟨fun t ht => ?_, ?_⟩
      · unfold crashes at ht
        simp only [hf, List.mem_singleton] at ht
        exact ht ▸ hs
      · simp only [final, hf]
        exact herror e hf
  | ok out =>
      obtain ⟨hC, hQ⟩ := hok out.1 out.2 hf
      refine ⟨fun t ht => ?_, ?_⟩
      · unfold crashes at ht
        simp only [hf, List.mem_cons, List.not_mem_nil, or_false] at ht
        rcases ht with rfl | rfl
        · exact hs
        · exact hC
      · simp only [final, hf]
        exact hQ

theorem step_returns {f : σ → Except ε (α × σ)} {P : α → σ → Prop} {a : α} {t : σ} (hs : C s)
    (hf : f s = .ok (a, t)) (hC : C t) (hP : P a t) : (Program.step f).Spec s C (Returns P) := by
  refine step hs (fun a' t' h => ?_) fun e h => ?_
  · obtain ⟨rfl, rfl⟩ := Prod.mk.inj (Except.ok.inj (hf.symm.trans h))
    exact ⟨hC, a, rfl, hP⟩
  · exact absurd (hf.symm.trans h) (by simp)

/-- Weaken what is promised. -/
theorem mono (h : p.Spec s C Q) (hC : ∀ t, C t → C' t) (hQ : ∀ r t, C t → Q r t → Q' r t) :
    p.Spec s C' Q' :=
  ⟨fun t ht => hC t (h.crash t ht), hQ _ _ (h.crash _ final_mem_crashes) h.ends⟩

/-- **One program after another**, from whatever the first ends in. -/
theorem bind (h : p.Spec s C Q) (hok : ∀ a t, C t → Q (.ok a) t → (k a).Spec t C R)
    (herror : ∀ e t, C t → Q (.error e) t → R (.error e) t) : (p >>= k).Spec s C R := by
  have hC := h.crash _ final_mem_crashes
  have hends := h.ends
  show (andThen p k).Spec s C R
  cases hr : (p s).result with
  | error e =>
      rw [hr] at hends
      have hrun : andThen p k s = ⟨(p s).passed, .error e⟩ := by
        unfold andThen
        rw [hr]
      refine ⟨fun t ht => ?_, ?_⟩
      · unfold crashes at ht
        rw [hrun] at ht
        exact h.crash t ht
      · unfold final
        rw [hrun]
        exact herror e _ hC hends
  | ok a =>
      rw [hr] at hends
      have hrun : andThen p k s =
          ⟨(p s).passed ++ (k a (p.final s)).passed, (k a (p.final s)).result⟩ := by
        unfold andThen
        rw [hr]
      have hk := hok a _ hC hends
      refine ⟨fun t ht => ?_, ?_⟩
      · unfold crashes at ht
        rw [hrun, ← List.cons_append, List.mem_append] at ht
        rcases ht with ht | ht
        · exact h.crash t ht
        · exact hk.crash t (List.mem_cons_of_mem _ ht)
      · have hfinal : (andThen p k).final s = (k a).final (p.final s) := by
          unfold final
          rw [hrun]
          exact getLastD_append _ _ _
        rw [hfinal, hrun]
        exact hk.ends

/-- One program after another that ends with a value. -/
theorem bind_returns {P : α → σ → Prop} (h : p.Spec s C (Returns P))
    (hnext : ∀ a t, C t → P a t → (k a).Spec t C R) : (p >>= k).Spec s C R := by
  refine bind h (fun a t hC hP => ?_) fun e t _ hP => ?_
  · obtain ⟨_, heq, hP⟩ := hP
    obtain rfl := Except.ok.inj heq
    exact hnext _ t hC hP
  · obtain ⟨_, heq, -⟩ := hP
    exact absurd heq (by simp)

theorem mapError_returns {f : ε → ε'} {P : α → σ → Prop} (h : p.Spec s C (Returns P)) :
    (p.mapError f).Spec s C (Returns P) := by
  refine ⟨h.crash, ?_⟩
  obtain ⟨a, ha, hP⟩ := h.ends
  refine ⟨a, ?_, hP⟩
  show (p s).result.mapError f = .ok a
  rw [ha]
  rfl

theorem mapError {f : ε → ε'} {Q' : Except ε' α → σ → Prop} (h : p.Spec s C Q)
    (hQ : ∀ r t, Q r t → Q' (r.mapError f) t) : (p.mapError f).Spec s C Q' :=
  ⟨h.crash, hQ _ _ h.ends⟩

theorem attempt {R : Except ε' (Except ε α) → σ → Prop} (h : p.Spec s C fun r t => R (.ok r) t) :
    p.attempt.Spec s C R := ⟨h.crash, h.ends⟩

/-- An attempt hands on what was returned. -/
theorem attempt_returns {P : α → σ → Prop} (h : p.Spec s C (Returns P)) :
    (p.attempt : Program σ ε' _).Spec s C (Returns fun r t => ∃ a, r = .ok a ∧ P a t) :=
  ⟨h.crash, _, rfl, h.ends⟩

/-- **A loop**, with an invariant on the items that are left. -/
theorem forM {items : List β} {f : β → Program σ ε Unit} (I : List β → σ → Prop)
    (h : ∀ b rest t, I (b :: rest) t → (f b).Spec t C (Returns fun _ => I rest))
    (hC : ∀ t, I [] t → C t) (hs : I items s) :
    (items.forM f).Spec s C (Returns fun _ => I []) := by
  induction items generalizing s with
  | nil => exact pure (hC s hs) ⟨(), rfl, hs⟩
  | cons b rest ih =>
      show ((f b >>= fun _ => rest.forM f) : Program σ ε Unit).Spec s C _
      exact bind_returns (h b rest s hs) fun _ t _ ht => ih ht

end Spec

end Program

end Storage
