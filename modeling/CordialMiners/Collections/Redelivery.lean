/-
# Reading a log in overlapping slices

A machine reads items and may emit something for each.  Once an item has been read
it is settled: from then on reading it again neither changes the state nor emits
anything.

Such a machine does not notice how a log is cut.  A reader may take it in slices
that start again before the place where the last one ended; the state and what was
emitted are those of one pass (`run_flatten`).
-/

import Mathlib.Data.List.Basic
import Mathlib.Tactic

/-- A machine for which an item that was read once is settled. -/
structure Redelivery (σ ε ο : Type*) where
  step : σ → ε → σ
  emit : σ → ε → List ο
  Settled : σ → ε → Prop
  settles : ∀ s e, Settled (step s e) e
  keeps : ∀ s e e', Settled s e → Settled (step s e') e
  idle : ∀ s e, Settled s e → step s e = s
  silent : ∀ s e, Settled s e → emit s e = []

namespace Redelivery

variable {σ ε ο : Type*} (M : Redelivery σ ε ο)

/-- The state after all items. -/
def run (s : σ) (l : List ε) : σ := l.foldl M.step s

/-- What is emitted on the way. -/
def emitted : σ → List ε → List ο
  | _, [] => []
  | s, e :: l => M.emit s e ++ emitted (M.step s e) l

variable {M} {s : σ} {e : ε} {l l' log : List ε}

@[simp] theorem run_nil : M.run s [] = s := rfl

@[simp] theorem run_cons : M.run s (e :: l) = M.run (M.step s e) l := rfl

@[simp] theorem run_append : M.run s (l ++ l') = M.run (M.run s l) l' := List.foldl_append

@[simp] theorem emitted_nil : M.emitted s [] = [] := rfl

@[simp] theorem emitted_append :
    M.emitted s (l ++ l') = M.emitted s l ++ M.emitted (M.run s l) l' := by
  induction l generalizing s with
  | nil => rfl
  | cons e l ih => rw [List.cons_append, emitted, emitted, ih, List.append_assoc, run_cons]

/-- A settled item stays settled. -/
theorem Settled.run (h : M.Settled s e) : M.Settled (M.run s l) e := by
  induction l generalizing s with
  | nil => exact h
  | cons e' l ih => exact ih (M.keeps s e e' h)

/-- What was read is settled. -/
theorem settled_of_mem (h : e ∈ l) : M.Settled (M.run s l) e := by
  induction l generalizing s with
  | nil => exact absurd h List.not_mem_nil
  | cons e' l ih =>
      rcases List.mem_cons.1 h with rfl | h
      · show M.Settled (M.run (M.step s e) l) e
        exact Settled.run (M.settles s e)
      · exact ih h

/-- Settled items are passed over. -/
theorem run_of_settled (h : ∀ e ∈ l, M.Settled s e) : M.run s l = s ∧ M.emitted s l = [] := by
  induction l with
  | nil => exact ⟨rfl, rfl⟩
  | cons e l ih =>
      have he := h e List.mem_cons_self
      obtain ⟨hrun, hemit⟩ := ih fun e' he' => h e' (List.mem_cons_of_mem _ he')
      constructor
      · rw [run_cons, M.idle s e he, hrun]
      · rw [emitted, M.idle s e he, M.silent s e he, hemit, List.append_nil]

/-- The slices that a reader takes who has read `n` items of the log, and how many it
has read after them. -/
inductive Reading (log : List ε) : ℕ → List (List ε) → ℕ → Prop
  | nil (n : ℕ) : Reading log n [] n
  | cons {n start m k : ℕ} {slices : List (List ε)} (hstart : start ≤ n) (hend : n ≤ m)
      (rest : Reading log m slices k) : Reading log n ((log.take m).drop start :: slices) k

/-- What is read comes from the log. -/
theorem Reading.subset {n k : ℕ} {slices : List (List ε)} (h : Reading log n slices k) :
    slices.flatten ⊆ log := by
  induction h with
  | nil n => exact List.nil_subset _
  | cons hstart hend rest ih =>
      rw [List.flatten_cons]
      exact List.append_subset.2
        ⟨fun e he => List.mem_of_mem_take (List.mem_of_mem_drop he), ih⟩

/-- **The state and the emissions are those of one pass.** -/
theorem run_flatten {n k : ℕ} {slices : List (List ε)} (h : Reading log n slices k) :
    M.run (M.run s (log.take n)) slices.flatten = M.run s (log.take k) ∧
      M.emitted s (log.take n) ++ M.emitted (M.run s (log.take n)) slices.flatten =
        M.emitted s (log.take k) := by
  induction h with
  | nil n => exact ⟨rfl, List.append_nil _⟩
  | @cons n start m k slices hstart hend rest ih =>
      -- the slice is a part that was read before and the part up to `m`
      have hfront : log.take n = (log.take m).take n := by
        rw [List.take_take, Nat.min_eq_left hend]
      have hslice : (log.take m).drop start =
          (log.take n).drop start ++ (log.take m).drop n := by
        rw [hfront]
        conv_lhs => rw [← List.take_append_drop n (log.take m)]
        by_cases hlen : n ≤ (log.take m).length
        · rw [List.drop_append_of_le_length]
          rw [List.length_take, Nat.min_eq_left hlen]
          exact hstart
        · have hall : (log.take m).drop n = [] := List.drop_eq_nil_of_le (by omega)
          rw [hall, List.append_nil, List.append_nil]
      have hwhole : log.take n ++ (log.take m).drop n = log.take m := by
        rw [hfront]
        exact List.take_append_drop n _
      obtain ⟨hrun, hemit⟩ := run_of_settled (M := M) (s := M.run s (log.take n))
        (l := (log.take n).drop start) fun e he => settled_of_mem (List.mem_of_mem_drop he)
      have hstate : M.run (M.run s (log.take n)) ((log.take m).drop start) =
          M.run s (log.take m) := by
        rw [hslice, run_append, hrun, ← run_append, hwhole]
      have hout : M.emitted s (log.take n) ++
          M.emitted (M.run s (log.take n)) ((log.take m).drop start) =
            M.emitted s (log.take m) := by
        rw [hslice, emitted_append, hrun, hemit, List.nil_append, ← emitted_append, hwhole]
      rw [List.flatten_cons, run_append, emitted_append, hstate, ← List.append_assoc, hout]
      exact ih

end Redelivery
