/-
# Bit matrices in 64-bit words

A matrix of bits stored row by row in one list of words, every row starting at a
word of its own.  Two operations write: setting a bit, and adding one row to
another, word by word.  Both are read back bit by bit (`bit_setBit`,
`bit_orRow`), and the number of ones in the words of a row is the number of its
bits (`countRow_eq`).
-/

import Mathlib.Data.List.GetD
import Mathlib.Tactic

namespace BitMatrix

variable {words : ℕ} {bits : List (BitVec 64)} {a b c x y : ℕ}

/-- The bit of column `b` in row `a`. -/
def bit (words : ℕ) (bits : List (BitVec 64)) (a b : ℕ) : Bool :=
  (bits.getD (a * words + b / 64) 0).getLsbD (b % 64)

/-- Set the bit of column `b` in row `a`. -/
def setBit (words : ℕ) (a b : ℕ) (bits : List (BitVec 64)) : List (BitVec 64) :=
  bits.set (a * words + b / 64) (bits.getD (a * words + b / 64) 0 ||| 1#64 <<< (b % 64))

/-- Add the bits of row `c` to row `a`. -/
def orRow (words : ℕ) (a c : ℕ) (bits : List (BitVec 64)) : List (BitVec 64) :=
  (List.range words).foldl (fun bits w =>
    bits.set (a * words + w) (bits.getD (a * words + w) 0 ||| bits.getD (c * words + w) 0)) bits

/-- `u64::count_ones`. -/
def countOnes (word : BitVec 64) : ℕ := (List.range 64).countP word.getLsbD

/-- The number of ones in the words of a row. -/
def countRow (words : ℕ) (bits : List (BitVec 64)) (a : ℕ) : ℕ :=
  ((List.range words).map fun w => countOnes (bits.getD (a * words + w) 0)).sum

/-- Different words of different rows stand at different places. -/
theorem index_inj {i j : ℕ} (hi : i < words) (hj : j < words) :
    x * words + i = a * words + j ↔ x = a ∧ i = j := by
  constructor
  · intro h
    have hx : (x * words + i) / words = x := by
      rw [Nat.mul_comm, Nat.mul_add_div (by omega), Nat.div_eq_of_lt hi, Nat.add_zero]
    have ha : (a * words + j) / words = a := by
      rw [Nat.mul_comm, Nat.mul_add_div (by omega), Nat.div_eq_of_lt hj, Nat.add_zero]
    obtain rfl : x = a := by rw [← hx, h, ha]
    exact ⟨rfl, by omega⟩
  · rintro ⟨rfl, rfl⟩
    rfl

/-- Writing a word of a row changes that word only. -/
theorem getD_set {i j : ℕ} {word : BitVec 64} (hi : i < words) (hj : j < words)
    (hlen : (a + 1) * words ≤ bits.length) :
    (bits.set (a * words + j) word).getD (x * words + i) 0 =
      if x = a ∧ i = j then word else bits.getD (x * words + i) 0 := by
  have hmul : (a + 1) * words = a * words + words := Nat.succ_mul a words
  rw [List.getD_eq_getElem?_getD, List.getElem?_set, List.getD_eq_getElem?_getD]
  by_cases heq : x = a ∧ i = j
  · rw [if_pos heq, if_pos ((index_inj hi hj).2 heq).symm, if_pos (by omega)]
    rfl
  · rw [if_neg heq, if_neg fun h => heq ((index_inj hi hj).1 h.symm)]

@[simp] theorem length_setBit : (setBit words a b bits).length = bits.length := List.length_set

private theorem length_orWords (l : List ℕ) (bits : List (BitVec 64)) :
    (l.foldl (fun bits w => bits.set (a * words + w)
      (bits.getD (a * words + w) 0 ||| bits.getD (c * words + w) 0)) bits).length =
        bits.length := by
  induction l generalizing bits with
  | nil => rfl
  | cons w l ih => rw [List.foldl_cons, ih, List.length_set]

@[simp] theorem length_orRow : (orRow words a c bits).length = bits.length := length_orWords _ _

theorem bit_setBit (hlen : (a + 1) * words ≤ bits.length) (hb : b < 64 * words)
    (hy : y < 64 * words) :
    bit words (setBit words a b bits) x y =
      (bit words bits x y || (decide (x = a) && decide (y = b))) := by
  have hyw : y / 64 < words := by omega
  have hbw : b / 64 < words := by omega
  unfold bit setBit
  rw [getD_set hyw hbw hlen]
  by_cases hxa : x = a
  · subst hxa
    by_cases hword : y / 64 = b / 64
    · rw [if_pos ⟨rfl, hword⟩, BitVec.getLsbD_or, hword, BitVec.getLsbD_shiftLeft,
        BitVec.getLsbD_one]
      -- inside one word the columns differ in their place in the word
      have hcol : (decide (y % 64 < 64) && !decide (y % 64 < b % 64) &&
          (decide (0 < 64) && decide (y % 64 - b % 64 = 0))) = decide (y = b) := by
        by_cases hyb : y = b
        · subst hyb
          simp [Nat.mod_lt]
        · have hmod : y % 64 ≠ b % 64 := by omega
          rw [decide_eq_false hyb]
          by_cases hlt : y % 64 < b % 64
          · simp [hlt]
          · have hsub : y % 64 - b % 64 ≠ 0 := by omega
            simp [hsub]
      rw [hcol]
      simp
    · rw [if_neg fun h => hword h.2]
      have hyb : y ≠ b := fun h => hword (by rw [h])
      simp [hyb]
  · rw [if_neg fun h => hxa h.1]
    simp [hxa]

theorem getD_orRow (hlen : (a + 1) * words ≤ bits.length) (hac : a ≠ c) {w : ℕ} (hw : w < words) :
    (orRow words a c bits).getD (x * words + w) 0 =
      if x = a then bits.getD (a * words + w) 0 ||| bits.getD (c * words + w) 0
      else bits.getD (x * words + w) 0 := by
  have hmul : (a + 1) * words = a * words + words := Nat.succ_mul a words
  -- after `k` words of the row
  have hloop : ∀ k ≤ words, ∀ (x : ℕ) {w : ℕ}, w < words →
      ((List.range k).foldl (fun bits w => bits.set (a * words + w)
        (bits.getD (a * words + w) 0 ||| bits.getD (c * words + w) 0)) bits).getD
          (x * words + w) 0 =
        if x = a ∧ w < k then bits.getD (a * words + w) 0 ||| bits.getD (c * words + w) 0
        else bits.getD (x * words + w) 0 := by
    intro k
    induction k with
    | zero => simp
    | succ k ih =>
        intro hk x w hw
        have hka := ih (by omega) a (w := k) (by omega)
        have hkc := ih (by omega) c (w := k) (by omega)
        rw [if_neg (by omega)] at hka hkc
        rw [List.range_succ, List.foldl_append, List.foldl_cons, List.foldl_nil,
          getD_set hw (by omega) (by rw [length_orWords]; exact hlen), ih (by omega) x hw, hka, hkc]
        by_cases hxa : x = a
        · subst hxa
          by_cases hwk : w = k
          · subst hwk
            rw [if_pos ⟨rfl, rfl⟩, if_pos ⟨rfl, by omega⟩]
          · rw [if_neg fun h => hwk h.2]
            by_cases hlt : w < k
            · rw [if_pos ⟨rfl, hlt⟩, if_pos ⟨rfl, by omega⟩]
            · rw [if_neg fun h => hlt h.2, if_neg fun h => hlt (by omega)]
        · rw [if_neg fun h => hxa h.1, if_neg fun h => hxa h.1, if_neg fun h => hxa h.1]
  have h := hloop words le_rfl x hw
  simp only [hw, and_true] at h
  exact h

theorem bit_orRow (hlen : (a + 1) * words ≤ bits.length) (hac : a ≠ c) (hy : y < 64 * words) :
    bit words (orRow words a c bits) x y =
      (bit words bits x y || (decide (x = a) && bit words bits c y)) := by
  unfold bit
  rw [getD_orRow hlen hac (by omega)]
  by_cases hxa : x = a
  · subst hxa
    rw [if_pos rfl, BitVec.getLsbD_or]
    simp
  · rw [if_neg hxa]
    simp [hxa]

/-- The ones of a row, word by word, are its bits. -/
theorem countRow_eq :
    countRow words bits a = (List.range (64 * words)).countP (bit words bits a) := by
  have hword : ∀ k, ((List.range k).map fun w => countOnes (bits.getD (a * words + w) 0)).sum =
      (List.range (64 * k)).countP (bit words bits a) := by
    intro k
    induction k with
    | zero => rfl
    | succ k ih =>
        rw [List.range_succ, List.map_append, List.sum_append, ih, Nat.mul_succ, List.range_add,
          List.countP_append, List.countP_map, List.map_singleton, List.sum_singleton]
        congr 1
        unfold countOnes
        refine List.countP_congr fun i hi => ?_
        rw [List.mem_range] at hi
        have hdiv : (64 * k + i) / 64 = k := by omega
        have hmod : (64 * k + i) % 64 = i := by omega
        simp only [Function.comp_apply, bit, hdiv, hmod]
  exact hword words

end BitMatrix
