/-
# Memo tables

A computation that threads tables of values already computed.  It computes a
value when it returns that value from every memo whose entries are right, and
leaves such a memo behind; then neither the tables it is given nor the order of
the calls before it can be seen in the result.
-/

import Mathlib.Data.List.AList
import Mathlib.Tactic

namespace Memo

variable {σ α β κ : Type} {Inv : σ → Prop}

/-- From every memo of the invariant, `m` returns `a` and keeps the invariant. -/
def Computes (Inv : σ → Prop) (m : StateM σ α) (a : α) : Prop :=
  ∀ s, Inv s → (m.run s).run.1 = a ∧ Inv (m.run s).run.2

theorem Computes.run'_eq {m : StateM σ α} {a : α} (h : Computes Inv m a) {s : σ} (hs : Inv s) :
    (m.run' s).run = a := (h s hs).1

theorem Computes.pure (a : α) : Computes Inv (Pure.pure a : StateM σ α) a := fun _ hs => ⟨rfl, hs⟩

theorem Computes.bind {m : StateM σ α} {k : α → StateM σ β} {a : α} {b : β}
    (hm : Computes Inv m a) (hk : Computes Inv (k a) b) : Computes Inv (m >>= k) b := by
  intro s hs
  obtain ⟨ha, hs'⟩ := hm s hs
  have hrun : ((m >>= k).run s).run = ((k a).run (m.run s).run.2).run := by
    rw [← ha]
    rfl
  rw [hrun]
  exact hk _ hs'

/-- The last step of a computation may be pure. -/
theorem Computes.map {m : StateM σ α} {a : α} (f : α → β) (hm : Computes Inv m a) :
    Computes Inv (do return f (← m)) (f a) :=
  hm.bind (Computes.pure (f a))

section Zoom

variable {τ : Type} {get : σ → τ} {set : τ → σ → σ} {part : τ → Prop}

/-- A computation on a part of the memo. -/
def zoom (get : σ → τ) (set : τ → σ → σ) (m : StateM τ α) : StateM σ α := fun memo =>
  ((m.run (get memo)).run.1, set (m.run (get memo)).run.2 memo)

theorem Computes.zoom {m : StateM τ α} {a : α} (hget : ∀ s, Inv s → part (get s))
    (hset : ∀ s t, Inv s → part t → Inv (set t s)) (h : Computes part m a) :
    Computes Inv (Memo.zoom get set m) a := by
  intro s hs
  obtain ⟨ha, ht⟩ := h (get s) (hget s hs)
  exact ⟨ha, hset s _ hs ht⟩

end Zoom

/-! ### Loops -/

section Loops

variable {p : α → StateM σ Bool} {q : α → Bool}

private theorem computes_filterAuxM {l : List α} (h : ∀ x ∈ l, Computes Inv (p x) (q x))
    (acc : List α) :
    Computes Inv (List.filterAuxM p l acc) ((l.filter q).reverse ++ acc) := by
  induction l generalizing acc with
  | nil => exact Computes.pure acc
  | cons x l ih =>
      have hrest := ih (fun y hy => h y (List.mem_cons_of_mem _ hy)) (bif q x then x :: acc else acc)
      refine Computes.bind (h x List.mem_cons_self) ?_
      cases hq : q x with
      | true =>
          rw [hq] at hrest
          rw [List.filter_cons_of_pos hq, List.reverse_cons, List.append_assoc]
          exact hrest
      | false =>
          rw [hq] at hrest
          rw [List.filter_cons_of_neg (by simp [hq])]
          exact hrest

theorem Computes.filterM {l : List α} (h : ∀ x ∈ l, Computes Inv (p x) (q x)) :
    Computes Inv (l.filterM p) (l.filter q) := by
  have haux := computes_filterAuxM h []
  rw [List.append_nil] at haux
  have hmap := haux.map List.reverse
  rw [List.reverse_reverse] at hmap
  exact hmap

/-- A search that may stop early. -/
theorem Computes.findSomeM? {l : List α} {p : α → StateM σ (Option β)} {q : α → Option β}
    (h : ∀ x ∈ l, Computes Inv (p x) (q x)) :
    Computes Inv (l.findSomeM? p) (l.findSome? q) := by
  induction l with
  | nil => exact Computes.pure none
  | cons x l ih =>
      rw [List.findSomeM?_cons, List.findSome?_cons]
      refine Computes.bind (h x List.mem_cons_self) ?_
      cases q x with
      | some b => exact Computes.pure (some b)
      | none => exact ih fun y hy => h y (List.mem_cons_of_mem _ hy)

end Loops

/-! ### Tables -/

section Tables

variable [DecidableEq κ]

/-- The values of the table are the values of the function. -/
def Sound (f : κ → β) (table : AList fun _ : κ => β) : Prop :=
  ∀ key value, table.lookup key = some value → value = f key

theorem Sound.empty (f : κ → β) : Sound f ∅ := by
  intro key value h
  rw [AList.lookup_empty] at h
  exact absurd h (by simp)

theorem Sound.insert {f : κ → β} {table : AList fun _ : κ => β} (h : Sound f table) (key : κ) :
    Sound f (table.insert key (f key)) := by
  intro k value hk
  rcases eq_or_ne k key with rfl | hne
  · rw [AList.lookup_insert] at hk
    exact (Option.some.inj hk).symm
  · rw [AList.lookup_insert_ne hne] at hk
    exact h k value hk

/-- Answer from a table of the memo; otherwise compute the answer and enter it. -/
def remember (table : σ → AList fun _ : κ => β) (store : (AList fun _ : κ => β) → σ → σ)
    (key : κ) (compute : StateM σ β) : StateM σ β := do
  match (table (← get)).lookup key with
  | some value => return value
  | none =>
      let value ← compute
      modify fun memo => store ((table memo).insert key value) memo
      return value

/-- A remembered computation computes what its table is about. -/
theorem Computes.remember {table : σ → AList fun _ : κ => β}
    {store : (AList fun _ : κ => β) → σ → σ} {f : κ → β} {key : κ} {compute : StateM σ β}
    (htable : ∀ memo, Inv memo → Sound f (table memo))
    (hstore : ∀ memo, Inv memo → Inv (store ((table memo).insert key (f key)) memo))
    (h : Computes Inv compute (f key)) :
    Computes Inv (Memo.remember table store key compute) (f key) := by
  intro s hs
  cases hl : (table s).lookup key with
  | some value =>
      have hrun : ((Memo.remember table store key compute).run s).run = (value, s) := by
        unfold Memo.remember
        simp [hl]
      rw [hrun]
      exact ⟨htable s hs key value hl, hs⟩
  | none =>
      obtain ⟨hvalue, hs'⟩ := h s hs
      have hrun : ((Memo.remember table store key compute).run s).run =
          ((compute.run s).run.1, store
            ((table (compute.run s).run.2).insert key (compute.run s).run.1)
            (compute.run s).run.2) := by
        unfold Memo.remember
        simp [hl]
      rw [hrun, hvalue]
      exact ⟨rfl, hstore _ hs'⟩

end Tables

end Memo
