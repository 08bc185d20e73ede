/-
# Lists in any order

What does not depend on the order of a list.

* Items that differ in a key are sorted by it to one list (`insertionSort_eq_of_perm`).
* A loop whose steps may fail ends alike over a list in any order, if its steps commute
  (`foldlM_perm`): whenever two steps succeed one after the other, so do they the other way
  round, with a result that a relation does not tell from the first.  The relation leaves out
  what a loop only keeps track of, such as the order in which it has seen things.
* Steps that change the items of different keys commute (`Modifies.commutes`).
-/

import Mathlib.Data.List.Sort
import CordialMiners.Collections.Keyed

namespace Permuted

variable {α σ ε κ : Type} {l l' : List α}

/-! ### Sorting by a key -/

section Sorting

variable [LinearOrder κ] (key : α → κ)

theorem pairwise_insertionSort (l : List α) :
    (l.insertionSort fun a b => key a ≤ key b).Pairwise fun a b => key a ≤ key b := by
  have : Std.Total fun a b : α => key a ≤ key b := ⟨fun a b => le_total (key a) (key b)⟩
  have : IsTrans α fun a b => key a ≤ key b := ⟨fun _ _ _ => le_trans⟩
  exact List.pairwise_insertionSort _ _

/-- **Items of different keys are sorted to one list.** -/
theorem insertionSort_eq_of_perm (hperm : l.Perm l')
    (hkey : ∀ a ∈ l, ∀ b ∈ l, key a = key b → a = b) :
    (l.insertionSort fun a b => key a ≤ key b) = l'.insertionSort fun a b => key a ≤ key b := by
  have hsorted := List.perm_insertionSort fun a b => key a ≤ key b
  refine List.Perm.eq_of_pairwise (fun a b ha hb hab hba => ?_) (pairwise_insertionSort key l)
    (pairwise_insertionSort key l') ((hsorted l).trans (hperm.trans (hsorted l').symm))
  exact hkey a ((hsorted l).mem_iff.1 ha) b (hperm.mem_iff.2 ((hsorted l').mem_iff.1 hb))
    (le_antisymm hab hba)

end Sorting

/-! ### Loops whose steps commute -/

section Loop

variable {R : σ → σ → Prop} {f : σ → α → Except ε σ} {a b : α} {s s' t : σ}

/-- Where the first succeeds, so does the second, with a related result. -/
def Yields (R : σ → σ → Prop) (x y : Except ε σ) : Prop :=
  ∀ t, x = .ok t → ∃ t', y = .ok t' ∧ R t t'

/-- A step does alike in related states. -/
def Respects (R : σ → σ → Prop) (f : σ → α → Except ε σ) (a : α) : Prop :=
  ∀ s s', R s s' → Yields R (f s a) (f s' a)

/-- Two steps do alike in either order. -/
def Commutes (R : σ → σ → Prop) (f : σ → α → Except ε σ) (a b : α) : Prop :=
  ∀ s s', R s s' → Yields R (f s a >>= fun t => f t b) (f s' b >>= fun t => f t a)

theorem respects_eq (f : σ → α → Except ε σ) (a : α) : Respects Eq f a := by
  rintro s _ rfl t h
  exact ⟨t, h, rfl⟩

/-- A loop does alike in related states. -/
theorem foldlM_respects (hf : ∀ a ∈ l, Respects R f a) (h : R s s') :
    Yields R (l.foldlM f s) (l.foldlM f s') := by
  induction l generalizing s s' with
  | nil =>
      intro t ht
      obtain rfl := Except.ok.inj ht
      exact ⟨s', rfl, h⟩
  | cons a l ih =>
      intro t ht
      obtain ⟨ha, hl⟩ := List.forall_mem_cons.1 hf
      rw [List.foldlM_cons] at ht ⊢
      obtain ⟨mid, hmid, ht⟩ := Codec.bind_eq_ok.1 ht
      obtain ⟨mid', hmid', hrel⟩ := ha s s' h mid hmid
      obtain ⟨t', ht', hrel⟩ := ih hl hrel t ht
      exact ⟨t', Codec.bind_eq_ok.2 ⟨mid', hmid', ht'⟩, hrel⟩

/-- **A loop of commuting steps ends alike in any order.** -/
theorem foldlM_perm (hR : Equivalence R) (hperm : l.Perm l') (hf : ∀ a ∈ l, Respects R f a)
    (hcommutes : ∀ a ∈ l, ∀ b ∈ l, a ≠ b → Commutes R f a b) (h : R s s') :
    Yields R (l.foldlM f s) (l'.foldlM f s') := by
  induction hperm generalizing s s' with
  | nil => exact foldlM_respects hf h
  | cons a _ ih =>
      intro t ht
      obtain ⟨ha, hl⟩ := List.forall_mem_cons.1 hf
      rw [List.foldlM_cons] at ht ⊢
      obtain ⟨mid, hmid, ht⟩ := Codec.bind_eq_ok.1 ht
      obtain ⟨mid', hmid', hrel⟩ := ha s s' h mid hmid
      obtain ⟨t', ht', hrel⟩ := ih hl (fun a ha b hb => hcommutes a (List.mem_cons_of_mem _ ha) b
        (List.mem_cons_of_mem _ hb)) hrel t ht
      exact ⟨t', Codec.bind_eq_ok.2 ⟨mid', hmid', ht'⟩, hrel⟩
  | swap a b l =>
      obtain ⟨hb, hf⟩ := List.forall_mem_cons.1 hf
      obtain ⟨ha, hl⟩ := List.forall_mem_cons.1 hf
      by_cases heq : b = a
      · subst heq
        exact foldlM_respects (List.forall_mem_cons.2 ⟨hb, List.forall_mem_cons.2 ⟨ha, hl⟩⟩) h
      intro t ht
      rw [List.foldlM_cons] at ht ⊢
      simp only [List.foldlM_cons, ← bind_assoc] at ht ⊢
      obtain ⟨mid, hmid, ht⟩ := Codec.bind_eq_ok.1 ht
      obtain ⟨mid', hmid', hrel⟩ := hcommutes b List.mem_cons_self a
        (List.mem_cons_of_mem _ List.mem_cons_self) heq s s' h mid hmid
      obtain ⟨t', ht', hrel⟩ := foldlM_respects hl hrel t ht
      exact ⟨t', Codec.bind_eq_ok.2 ⟨mid', hmid', ht'⟩, hrel⟩
  | trans hperm _ ih ih' =>
      intro t ht
      have hmem := fun a => hperm.mem_iff (a := a)
      obtain ⟨mid, hmid, hrel⟩ := ih hf hcommutes h t ht
      obtain ⟨t', ht', hrel'⟩ := ih' (fun a ha => hf a ((hmem a).2 ha))
        (fun a ha b hb => hcommutes a ((hmem a).2 ha) b ((hmem b).2 hb)) (hR.refl s') mid hmid
      exact ⟨t', ht', hR.trans hrel hrel'⟩

/-- The same where the results are equal. -/
theorem foldlM_eq_of_perm (hperm : l.Perm l')
    (hcommutes : ∀ a ∈ l, ∀ b ∈ l, a ≠ b → Commutes Eq f a b) (h : l.foldlM f s = .ok t) :
    l'.foldlM f s = .ok t := by
  obtain ⟨t', ht', rfl⟩ :=
    foldlM_perm eq_equivalence hperm (fun a _ => respects_eq f a) hcommutes rfl t h
  exact ht'

end Loop

/-! ### Steps that change one item each -/

section Modify

variable [LinearOrder κ] {β γ : Type} {key : α → κ} {keyOf : β → κ} {change : β → Except ε γ}
  {f : γ → α → α} {step : List α → β → Except ε (List α)}

/-- Changes of different items commute. -/
theorem modify_comm {g g' : α → α} (hg : ∀ a, key (g a) = key a) (hg' : ∀ a, key (g' a) = key a)
    {k k' : κ} (hne : k ≠ k') :
    Keyed.modify key (Keyed.modify key l k g) k' g' =
      Keyed.modify key (Keyed.modify key l k' g') k g := by
  unfold Keyed.modify
  rw [List.map_map, List.map_map]
  refine List.map_congr_left fun a _ => ?_
  simp only [Function.comp_apply]
  by_cases hk : key a = k
  · have hk' : key a ≠ k' := fun h => hne (hk.symm.trans h)
    rw [if_pos hk, hg, if_neg hk', if_neg hk', if_pos hk]
  · by_cases hk' : key a = k'
    · rw [if_neg hk, if_pos hk', hg', if_neg hk]
    · rw [if_neg hk, if_neg hk', if_neg hk]

/-- What a step does that finds the item of its event and changes it, and when it does. -/
def Modifies (key : α → κ) (step : List α → β → Except ε (List α)) (keyOf : β → κ)
    (change : β → Except ε γ) (f : γ → α → α) : Prop :=
  ∀ l event out, step l event = .ok out ↔ Keyed.find key l (keyOf event) ≠ none ∧
    ∃ c, change event = .ok c ∧ out = Keyed.modify key l (keyOf event) (f c)

/-- **Steps that change the items of different keys commute.** -/
theorem Modifies.commutes (hstep : Modifies key step keyOf change f)
    (hkey : ∀ c a, key (f c a) = key a) {a b : β} (hne : keyOf a ≠ keyOf b) :
    Commutes Eq step a b := by
  have hfind : ∀ (l : List α) (k k' : κ) (c : γ),
      Keyed.find key (Keyed.modify key l k (f c)) k' ≠ none ↔ Keyed.find key l k' ≠ none := by
    intro l k k' c
    rw [Keyed.find_modify (hkey c), Ne, Option.map_eq_none_iff]
  rintro l _ rfl out h
  obtain ⟨mid, hmid, hout⟩ := Codec.bind_eq_ok.1 h
  obtain ⟨hfound, c, hc, rfl⟩ := (hstep _ _ _).1 hmid
  obtain ⟨hfound', c', hc', rfl⟩ := (hstep _ _ _).1 hout
  refine ⟨_, Codec.bind_eq_ok.2 ⟨Keyed.modify key l (keyOf b) (f c'),
    (hstep _ _ _).2 ⟨(hfind l _ _ c).1 hfound', c', hc', rfl⟩,
    (hstep _ _ _).2 ⟨(hfind l _ _ c').2 hfound, c, hc, rfl⟩⟩, ?_⟩
  exact modify_comm (hkey c) (hkey c') hne

end Modify

end Permuted
