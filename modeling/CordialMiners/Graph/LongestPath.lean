/-
# Longest paths

The length of a longest path along a relation from a given point: it is one more than
the largest from a successor (`LongestPath.of_successors`), of which there is one where
the successors are finitely many (`exists_above`).
-/

import Mathlib.Data.Set.Finite.Basic
import Mathlib.Order.Bounds.Basic
import Mathlib.Tactic

namespace FinGraph

variable {α : Type} {r : α → α → Prop} {a : α} {d e n : ℕ}

/-- A path of `n` steps leads from `a`. -/
def HasPath (r : α → α → Prop) : ℕ → α → Prop
  | 0, _ => True
  | n + 1, a => ∃ b, r a b ∧ HasPath r n b

/-- The longest paths from `a` have `d` steps. -/
def LongestPath (r : α → α → Prop) (a : α) (d : ℕ) : Prop := IsGreatest {n | HasPath r n a} d

theorem LongestPath.unique (h : LongestPath r a d) (h' : LongestPath r a e) : d = e :=
  IsGreatest.unique h h'

/-- **A longest path goes on with a longest path of a successor.** -/
theorem LongestPath.of_successors (hbelow : ∀ b, r a b → ∃ e < d, LongestPath r b e)
    (htop : d = 0 ∨ ∃ b, r a b ∧ ∃ e, LongestPath r b e ∧ d = e + 1) : LongestPath r a d := by
  constructor
  · rcases htop with rfl | ⟨b, hab, e, hb, rfl⟩
    · exact trivial
    · exact ⟨b, hab, hb.1⟩
  · intro n hn
    cases n with
    | zero => exact Nat.zero_le d
    | succ n =>
        obtain ⟨b, hab, hpath⟩ := hn
        obtain ⟨e, he, hb⟩ := hbelow b hab
        exact (hb.2 hpath).trans_lt he

/-- One more than the largest of finitely many lengths. -/
theorem exists_above {s : Set α} (hs : s.Finite) (f : α → ℕ) :
    ∃ d, (∀ b ∈ s, f b < d) ∧ (d = 0 ∨ ∃ b ∈ s, d = f b + 1) := by
  by_cases hne : s.Nonempty
  · obtain ⟨b, hb, hmax⟩ := Set.exists_max_image s f hs hne
    exact ⟨f b + 1, fun c hc => Nat.lt_succ_of_le (hmax c hc), .inr ⟨b, hb, rfl⟩⟩
  · rw [Set.not_nonempty_iff_eq_empty] at hne
    subst hne
    exact ⟨0, fun b hb => absurd hb (Set.notMem_empty b), .inl rfl⟩

end FinGraph
