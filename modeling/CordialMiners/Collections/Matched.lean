/-
# Matched lists

Two lists of which the items are related one by one: every item has a partner, and
what holds between the items of one list holds between their partners.  In a list
without repetition of keys, the search for a key finds its item.
-/

import Mathlib.Data.List.Forall2
import Mathlib.Data.List.Nodup
import Mathlib.Tactic

namespace Matched

variable {α β : Type} {R : α → β → Prop} {l : List α} {l' : List β}

theorem matched_right (h : List.Forall₂ R l l') : ∀ b ∈ l', ∃ a ∈ l, R a b := by
  induction h with
  | nil => simp
  | cons hab _ ih =>
      refine List.forall_mem_cons.2 ⟨⟨_, List.mem_cons_self, hab⟩, fun b hb => ?_⟩
      obtain ⟨a, ha, hab⟩ := ih b hb
      exact ⟨a, List.mem_cons_of_mem _ ha, hab⟩

theorem matched_left (h : List.Forall₂ R l l') : ∀ a ∈ l, ∃ b ∈ l', R a b :=
  matched_right (List.Forall₂.flip (R := fun b a => R a b) h)

/-- Items of a matched list stand to each other as the items they are matched with. -/
theorem matched_pairwise {S : α → α → Prop} (hunique : ∀ a a' b, R a b → R a' b → a = a')
    (h : List.Forall₂ R l l') (hl : l.Pairwise S) :
    l'.Pairwise fun b b' => ∀ a a', R a b → R a' b' → S a a' := by
  induction h with
  | nil => exact List.Pairwise.nil
  | @cons a b l l' hab hrest ih =>
      obtain ⟨ha, hl⟩ := List.pairwise_cons.1 hl
      refine List.pairwise_cons.2 ⟨fun b' hb' c c' hcb hcb' => ?_, ih hl⟩
      obtain ⟨a', ha', hab'⟩ := matched_right hrest b' hb'
      rw [hunique c a b hcb hab, hunique c' a' b' hcb' hab']
      exact ha a' ha'

/-- In a list without repetition of keys, the item of a key is found. -/
theorem find?_of_nodup {κ : Type} [DecidableEq κ] {key : α → κ} (h : (l.map key).Nodup) {a : α}
    (ha : a ∈ l) : (l.find? fun b => key b = key a) = some a := by
  cases hfind : l.find? fun b => key b = key a with
  | none => exact absurd (List.find?_eq_none.1 hfind a ha) (by simp)
  | some b =>
      have hkey : key b = key a := by simpa using List.find?_some hfind
      rw [List.inj_on_of_nodup_map h (List.mem_of_find?_eq_some hfind) ha hkey]

end Matched
