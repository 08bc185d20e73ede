/-
# Heights over parents

The height of a node: zero where it has no parents or is not known, else one more than
the greatest height of its parents: the length of the longest path (`hasChain_iff`).  The
recursion ends on nodes that are on no cycle (`height_isSome`), parents are lower
(`height_parent`), and in a list that is sorted by height the parents of an item come
before it (`mem_front_of_sorted`).
-/

import Mathlib.Data.Finset.Card
import Mathlib.Data.List.MinMax
import Mathlib.Data.List.Sort
import Mathlib.Logic.Relation
import Mathlib.Tactic

namespace FinGraph

open Relation

variable {κ α : Type*}

/-- The height of a node; `none` where the recursion is deeper than the fuel. -/
def height (parents : κ → Option (List κ)) : ℕ → κ → Option ℕ
  | 0, _ => none
  | fuel + 1, k =>
      match parents k with
      | none => some 0
      | some [] => some 0
      | some (p :: ps) =>
          if (p :: ps).all fun q => (height parents fuel q).isSome then
            some (((p :: ps).filterMap (height parents fuel)).foldr max 0 + 1)
          else none

/-- A known node and one of its parents. -/
def ParentOf (parents : κ → Option (List κ)) (p k : κ) : Prop := ∃ ps, parents k = some ps ∧ p ∈ ps

variable {parents : κ → Option (List κ)} {fuel n m h : ℕ} {k p : κ}

/-- **Parents are lower.** -/
theorem height_parent (hk : height parents (fuel + 1) k = some h) (hp : ParentOf parents p k) :
    ∃ h', height parents fuel p = some h' ∧ h' < h := by
  obtain ⟨ps, hps, hmem⟩ := hp
  rw [height, hps] at hk
  cases ps with
  | nil => exact absurd hmem List.not_mem_nil
  | cons q ps =>
      dsimp only at hk
      split_ifs at hk with hall
      obtain ⟨h', hh'⟩ := Option.isSome_iff_exists.1 (List.all_eq_true.1 hall p hmem)
      have hle : h' ≤ ((q :: ps).filterMap (height parents fuel)).foldr max 0 :=
        List.le_max_of_le' 0 (List.mem_filterMap.2 ⟨p, hmem, hh'⟩) le_rfl
      have heq := Option.some.inj hk
      exact ⟨h', hh', by omega⟩

/-- More fuel gives the same height. -/
theorem height_mono (hk : height parents n k = some h) (hnm : n ≤ m) :
    height parents m k = some h := by
  induction n generalizing m k h with
  | zero => cases hk
  | succ n ih =>
      obtain ⟨m, rfl⟩ : ∃ m', m = m' + 1 := ⟨m - 1, by omega⟩
      rw [height] at hk ⊢
      cases hps : parents k with
      | none =>
          rw [hps] at hk
          exact hk
      | some ps =>
          rw [hps] at hk
          cases ps with
          | nil => exact hk
          | cons q ps =>
              dsimp only at hk ⊢
              split_ifs at hk with hall
              have hsame : ∀ p ∈ q :: ps, height parents m p = height parents n p := by
                intro p hp
                obtain ⟨h', hh'⟩ := Option.isSome_iff_exists.1 (List.all_eq_true.1 hall p hp)
                rw [hh', ih hh' (by omega)]
              rw [List.filterMap_congr hsame, if_pos]
              · exact hk
              · refine List.all_eq_true.2 fun p hp => ?_
                rw [hsame p hp]
                exact List.all_eq_true.1 hall p hp

/-- A path of so many steps leads from the node to parents. -/
def HasChain (parents : κ → Option (List κ)) : ℕ → κ → Prop
  | 0, _ => True
  | n + 1, k => ∃ p, ParentOf parents p k ∧ HasChain parents n p

theorem foldr_max_mem (l : List ℕ) : l.foldr max 0 = 0 ∨ l.foldr max 0 ∈ l := by
  induction l with
  | nil => exact Or.inl rfl
  | cons a l ih =>
      rw [List.foldr_cons]
      rcases max_choice a (l.foldr max 0) with hmax | hmax
      · exact Or.inr (hmax.symm ▸ List.mem_cons_self ..)
      · rw [hmax]
        exact ih.imp_right (List.mem_cons_of_mem a)

/-- **The height is the length of the longest path.** -/
theorem hasChain_iff (hk : height parents fuel k = some h) : HasChain parents n k ↔ n ≤ h := by
  induction fuel generalizing k h n with
  | zero => cases hk
  | succ fuel ih =>
      cases n with
      | zero => exact iff_of_true trivial (Nat.zero_le h)
      | succ n =>
          constructor
          · rintro ⟨p, hp, hchain⟩
            obtain ⟨h', hh', hlt⟩ := height_parent hk hp
            have hle := (ih hh').1 hchain
            omega
          · intro hle
            rw [height] at hk
            cases hps : parents k with
            | none =>
                rw [hps] at hk
                have hzero := Option.some.inj hk
                omega
            | some ps =>
                rw [hps] at hk
                cases ps with
                | nil =>
                    have hzero := Option.some.inj hk
                    omega
                | cons q ps =>
                    dsimp only at hk
                    split_ifs at hk with hall
                    have heq := Option.some.inj hk
                    rcases foldr_max_mem ((q :: ps).filterMap (height parents fuel)) with hmax | hmax
                    · obtain rfl : n = 0 := by omega
                      exact ⟨q, ⟨_, hps, List.mem_cons_self ..⟩, trivial⟩
                    · obtain ⟨p, hp, hheight⟩ := List.mem_filterMap.1 hmax
                      exact ⟨p, ⟨_, hps, hp⟩, (ih hheight).2 (by omega)⟩

/-- What leads to a node is lower. -/
theorem height_of_transGen (hk : height parents fuel k = some h)
    (hp : TransGen (ParentOf parents) p k) : ∃ h', height parents fuel p = some h' ∧ h' < h := by
  induction hp using TransGen.head_induction_on with
  | single hstep =>
      obtain ⟨fuel, rfl⟩ : ∃ m, fuel = m + 1 := ⟨fuel - 1, by cases fuel; cases hk; rfl⟩
      obtain ⟨h', hh', hlt⟩ := height_parent hk hstep
      exact ⟨h', height_mono hh' (Nat.le_succ _), hlt⟩
  | head hstep _ ih =>
      obtain ⟨h', hh', hlt⟩ := ih
      obtain ⟨fuel, rfl⟩ : ∃ m, fuel = m + 1 := ⟨fuel - 1, by cases fuel; cases hk; rfl⟩
      obtain ⟨h'', hh'', hlt'⟩ := height_parent hh' hstep
      exact ⟨h'', height_mono hh'' (Nat.le_succ _), hlt'.trans hlt⟩

/-- **The recursion ends on nodes that are on no cycle**, with one step more than there
are known nodes. -/
theorem height_isSome {known : Finset κ} (hknown : ∀ k, parents k ≠ none → k ∈ known)
    (hcycle : ∀ k, ¬ TransGen (ParentOf parents) k k) (k : κ) :
    (height parents (known.card + 1) k).isSome := by
  classical
  -- by induction on the number of known nodes at or above the node
  have hfuel : ∀ n k, (known.filter fun a => ReflTransGen (ParentOf parents) a k).card < n →
      (height parents n k).isSome := by
    intro n
    induction n with
    | zero => exact fun k hlt => absurd hlt (Nat.not_lt_zero _)
    | succ n ih =>
        intro k hlt
        rw [height]
        cases hps : parents k with
        | none => rfl
        | some ps =>
            cases ps with
            | nil => rfl
            | cons q ps =>
                have hall : ((q :: ps).all fun p => (height parents n p).isSome) = true := by
                  refine List.all_eq_true.2 fun p hp => ih p (Nat.lt_of_lt_of_le ?_ (Nat.le_of_lt_succ hlt))
                  have hparent : ParentOf parents p k := ⟨_, hps, hp⟩
                  refine Finset.card_lt_card (Finset.ssubset_iff_of_subset ?_ |>.2 ⟨k, ?_, ?_⟩)
                  · intro a ha
                    rw [Finset.mem_filter] at ha ⊢
                    exact ⟨ha.1, ha.2.tail hparent⟩
                  · rw [Finset.mem_filter]
                    exact ⟨hknown k (by simp [hps]), .refl⟩
                  · rw [Finset.mem_filter]
                    rintro ⟨-, hback⟩
                    exact hcycle k (TransGen.tail' hback hparent)
                dsimp only
                rw [if_pos hall]
                rfl
  exact hfuel _ k (Nat.lt_succ_of_le (Finset.card_filter_le _ _))

/-- **In a sorted list, what is lower comes first.** -/
theorem mem_front_of_sorted {f : α → ℕ} {front rear : List α} {a b : α}
    (hsorted : (front ++ b :: rear).Pairwise fun x y => f x ≤ f y) (ha : a ∈ front ++ b :: rear)
    (hlt : f a < f b) : a ∈ front := by
  rcases List.mem_append.1 ha with ha | ha
  · exact ha
  · have hrear := (List.pairwise_append.1 hsorted).2.1
    rcases List.mem_cons.1 ha with rfl | ha
    · omega
    · have hle := (List.pairwise_cons.1 hrear).1 a ha
      omega

end FinGraph
