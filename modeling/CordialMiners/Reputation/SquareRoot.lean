/-
# The loops of the square root

`integer_sqrt_u128` of `clamp.rs` one pass at a time, with the arithmetic of `u128`: a
multiplication is checked by the code, an addition or a subtraction that does not fit is a
panic.

The bounds of the search close in on the root (`SqrtState.Brackets`), and every pass costs a
part of what is left (`SqrtState.rank`): each halves the distance of the bounds, and three more
find that the root is where the search ends.  So no argument panics, and the root is there
after 67 passes (`integerSqrtU128_exact`).
-/

import CordialMiners.Reputation.Calculation

namespace CordialMiners.Reputation

/-- Subtraction in `u128`. -/
def checkedSub128 (a b : ℕ) : Option ℕ := if b ≤ a then some (a - b) else none

/-- Where `integer_sqrt_u128` is. -/
inductive SqrtState where
  | search (low high : ℕ)
  /-- The loop that adjusts upward. -/
  | raise (low : ℕ)
  /-- The loop that adjusts downward. -/
  | lower (low : ℕ)
  | done (root : ℕ)
deriving DecidableEq, Repr

namespace SqrtState

/-- One pass of the loop it is in, the check of the loop included; `none` is a panic. -/
def step (n : ℕ) : SqrtState → Option SqrtState
  | search low high => do
      let next ← checkedAdd128 low 1
      if next < high then
        let sum ← checkedAdd128 low high
        let mid := sum / 2
        match checkedMul128 mid mid with
        | some midSq =>
            if midSq = n then some (done mid)
            else if midSq < n then some (search mid high)
            else some (search low mid)
        | none => some (search low mid)
      else some (raise low)
  | raise low => do
      let next ← checkedAdd128 low 1
      match checkedMul128 next next with
      | some sq => if sq ≤ n then some (raise next) else some (lower low)
      | none => some (lower low)
  | lower low =>
      match checkedMul128 low low with
      | some sq => if sq > n then (checkedSub128 low 1).map lower else some (done low)
      | none => (checkedSub128 low 1).map lower
  | done root => some (done root)

/-- So many passes. -/
def run (n : ℕ) : ℕ → SqrtState → Option SqrtState
  | 0, s => some s
  | steps + 1, s => (s.step n).bind (run n steps)

/-- `low = 0` and `high = 1 << 64`. -/
def start : SqrtState := search 0 (2 ^ 64)

/-- The root is where the loops look for it. -/
def Brackets (n : ℕ) : SqrtState → Prop
  | search low high => low * low ≤ n ∧ n < high * high ∧ high ≤ 2 ^ 64
  | raise low | lower low | done low => low * low ≤ n ∧ n < (low + 1) * (low + 1)

/-- How many passes are left. -/
def rank : SqrtState → ℕ
  | search low high => Nat.clog 2 (high - low) + 3
  | raise _ => 2
  | lower _ => 1
  | done _ => 0

variable {n : ℕ} {s : SqrtState}

theorem checkedAdd128_of_lt {a b : ℕ} (ha : a < 2 ^ 64) (hb : b ≤ 2 ^ 64) :
    checkedAdd128 a b = some (a + b) := if_pos (by omega)

/-- Half of a distance, rounded up or down, takes one pass less. -/
theorem clog_half_lt {d d' : ℕ} (hd : 2 ≤ d) (hd' : d' ≤ (d + 1) / 2) :
    Nat.clog 2 d' < Nat.clog 2 d := by
  rw [Nat.clog_of_two_le one_lt_two hd]
  exact Nat.lt_succ_of_le (Nat.clog_mono_right 2 hd')

/-- **Every pass goes through**, keeps the root bracketed and has fewer passes left, up to the
end. -/
theorem step_brackets (hn : n < 2 ^ 128) (h : s.Brackets n) :
    ∃ t, s.step n = some t ∧ t.Brackets n ∧ t.rank ≤ s.rank - 1 := by
  cases s with
  | search low high =>
      obtain ⟨hlow, hhigh, hbound⟩ := h
      have hlt : low < high := lt_of_mul_self_lt_mul_self₀ (Nat.zero_le _) (hlow.trans_lt hhigh)
      have hnext := checkedAdd128_of_lt (b := 1) (hlt.trans_le hbound) (by omega)
      by_cases hmore : low + 1 < high
      · have hsum := checkedAdd128_of_lt (hlt.trans_le hbound) hbound
        obtain ⟨mid, hmid⟩ : ∃ mid, mid = (low + high) / 2 := ⟨_, rfl⟩
        -- the middle as lower or as upper bound
        have hupper : rank (search mid high) ≤ rank (search low high) - 1 := by
          have hclog : Nat.clog 2 (high - mid) < Nat.clog 2 (high - low) :=
            clog_half_lt (by omega) (by omega)
          simp only [rank]
          omega
        have hlower : rank (search low mid) ≤ rank (search low high) - 1 := by
          have hclog : Nat.clog 2 (mid - low) < Nat.clog 2 (high - low) :=
            clog_half_lt (by omega) (by omega)
          simp only [rank]
          omega
        have hstep : (search low high).step n =
            match checkedMul128 mid mid with
            | some midSq =>
                if midSq = n then some (done mid)
                else if midSq < n then some (search mid high)
                else some (search low mid)
            | none => some (search low mid) := by
          simp only [step, hnext, Option.bind_eq_bind, Option.bind_some, if_pos hmore, hsum, hmid]
        rcases checkedMul128_self (m := mid) hn with ⟨midSq, hsq, rfl⟩ | ⟨hsq, hbig⟩
        · rw [hstep, hsq]
          rcases lt_trichotomy (mid * mid) n with hless | heq | hgreater
          · refine ⟨search mid high, ?_, ⟨hless.le, hhigh, hbound⟩, hupper⟩
            simp only [if_neg hless.ne, if_pos hless]
          · refine ⟨done mid, if_pos heq, ⟨heq.le, ?_⟩, Nat.zero_le _⟩
            rw [← heq]
            exact Nat.mul_self_lt_mul_self (Nat.lt_succ_self mid)
          · refine ⟨search low mid, ?_, ⟨hlow, hgreater, by omega⟩, hlower⟩
            simp only [if_neg hgreater.ne', if_neg hgreater.le.not_gt]
        · rw [hstep, hsq]
          exact ⟨search low mid, rfl, ⟨hlow, hbig, by omega⟩, hlower⟩
      · obtain rfl : high = low + 1 := by omega
        refine ⟨raise low, ?_, ⟨hlow, hhigh⟩, by simp only [rank]; omega⟩
        simp only [step, hnext, Option.bind_eq_bind, Option.bind_some, if_neg hmore]
  | raise low =>
      obtain ⟨hlow, hhigh⟩ := h
      have hlt : low < 2 ^ 64 := lt_of_mul_self_lt_mul_self₀ (Nat.zero_le _) (by omega)
      have hnext := checkedAdd128_of_lt (b := 1) hlt (by omega)
      refine ⟨lower low, ?_, ⟨hlow, hhigh⟩, le_rfl⟩
      simp only [step, hnext, Option.bind_eq_bind, Option.bind_some]
      rcases checkedMul128_self (m := low + 1) hn with ⟨sq, hsq, rfl⟩ | ⟨hsq, -⟩
      · simp only [hsq, if_neg hhigh.not_ge]
      · simp only [hsq]
  | lower low =>
      obtain ⟨hlow, hhigh⟩ := h
      refine ⟨done low, ?_, ⟨hlow, hhigh⟩, le_rfl⟩
      rcases checkedMul128_self (m := low) hn with ⟨sq, hsq, rfl⟩ | ⟨-, hbig⟩
      · simp only [step, hsq, if_neg hlow.not_gt]
      · exact absurd hbig hlow.not_gt
  | done root => exact ⟨done root, rfl, h, le_rfl⟩

theorem start_brackets (hn : n < 2 ^ 128) : start.Brackets n :=
  ⟨Nat.zero_le _, hn.trans_eq (by norm_num), le_rfl⟩

/-- The passes go through, and the last ones are at the end. -/
theorem run_brackets (hn : n < 2 ^ 128) (steps : ℕ) (h : s.Brackets n) :
    ∃ t, s.run n steps = some t ∧ t.Brackets n ∧ t.rank ≤ s.rank - steps := by
  induction steps generalizing s with
  | zero => exact ⟨s, rfl, h, le_rfl⟩
  | succ steps ih =>
      obtain ⟨mid, hmid, hbrackets, hrank⟩ := step_brackets hn h
      obtain ⟨t, ht, htb, htr⟩ := ih hbrackets
      refine ⟨t, ?_, htb, by omega⟩
      rw [run, hmid, Option.bind_some, ht]

theorem rank_start : start.rank = 67 := by
  show Nat.clog 2 (2 ^ 64) + 3 = 67
  rw [Nat.clog_pow 2 64 one_lt_two]

/-- Without passes left, the loops are through. -/
theorem eq_done_of_rank (h : s.rank = 0) : ∃ root, s = done root := by
  cases s with
  | search low high => exact absurd h (Nat.succ_ne_zero _)
  | raise low => exact absurd h two_ne_zero
  | lower low => exact absurd h one_ne_zero
  | done root => exact ⟨root, rfl⟩

end SqrtState

open SqrtState

/-- **`integer_sqrt_u128` is exact on all of `u128`.**  No number of passes panics, after 67 of
them the loops are at the root, and the root is the one number whose square is at most the
argument and the square of whose successor is not. -/
theorem integerSqrtU128_exact (n : Fin (2 ^ 128)) :
    (∀ steps, (start.run n steps).isSome = true) ∧
      ∃ root, (∀ steps, 67 ≤ steps → start.run n steps = some (.done root)) ∧
        (∀ r, (r * r ≤ n.val ∧ n.val < (r + 1) * (r + 1)) ↔ r = root) ∧
        integerSqrtU128 n = root := by
  have hrun := fun steps => run_brackets n.isLt steps (start_brackets n.isLt)
  refine ⟨fun steps => ?_, Nat.sqrt n, fun steps hsteps => ?_, fun r => ?_,
    integerSqrtU128_eq n.isLt⟩
  · obtain ⟨t, ht, -⟩ := hrun steps
    rw [ht]
    rfl
  · obtain ⟨t, ht, hbrackets, hrank⟩ := hrun steps
    rw [rank_start] at hrank
    obtain ⟨root, rfl⟩ := eq_done_of_rank (s := t) (by omega)
    rw [ht, Nat.eq_sqrt.2 hbrackets]
  · exact ⟨Nat.eq_sqrt.2, Nat.eq_sqrt.1⟩

/-- Both ends of `u128`, a square and its neighbour. -/
example : [0, 1, 15, 16, 2 ^ 128 - 1].map integerSqrtU128 = [0, 1, 3, 4, 2 ^ 64 - 1] := by
  decide +kernel

end CordialMiners.Reputation
