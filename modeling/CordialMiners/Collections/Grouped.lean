/-
# Runs of equal keys

A list in the order of its keys, split where the key changes: `chunk_by` on a sorted
list.  There is one group for each key, in order, and it holds all items with the key
(`groups_eq_filter`).  A change of the items that keeps the keys keeps the groups
(`groups_flatten_map`).
-/

import Mathlib.Data.List.SplitBy
import Mathlib.Tactic

namespace Grouped

variable {α β κ : Type} [DecidableEq κ] (key : α → κ)

/-- The groups of equal keys. -/
abbrev groups (l : List α) : List (List α) := l.splitBy fun a b => decide (key a = key b)

variable {key} {l g : List α} {a b : α}

/-- The items of a group have one key. -/
theorem key_eq_of_mem_groups (hg : g ∈ groups key l) (ha : a ∈ g) (hb : b ∈ g) : key a = key b := by
  have hchain : g.IsChain fun a b => key a = key b :=
    (List.isChain_of_mem_splitBy hg).imp fun a b hab => of_decide_eq_true hab
  have : IsTrans α fun a b => key a = key b := ⟨fun a b c => Eq.trans⟩
  have : Std.Symm fun a b => key a = key b := ⟨fun a b => Eq.symm⟩
  have hall := List.Pairwise.forall_of_forall (R := fun a b => key a = key b) (fun _ _ => rfl)
    (List.isChain_iff_pairwise.1 hchain)
  exact hall ha hb

/-- Every item is in a group. -/
theorem exists_mem_groups (ha : a ∈ l) : ∃ g ∈ groups key l, a ∈ g := by
  rw [← List.flatten_splitBy (fun a b => decide (key a = key b)) l] at ha
  exact List.mem_flatten.1 ha

theorem mem_of_mem_groups (hg : g ∈ groups key l) (ha : a ∈ g) : a ∈ l := by
  rw [← List.flatten_splitBy (fun a b => decide (key a = key b)) l]
  exact List.mem_flatten.2 ⟨g, hg, ha⟩

/-- **A change that keeps the keys keeps the groups**; it may depend on the group. -/
theorem groups_flatten_map {key' : β → κ} (f : List α → α → β) (hkey : ∀ g a, key' (f g a) = key a) :
    groups key' ((groups key l).map fun g => g.map (f g)).flatten =
      (groups key l).map fun g => g.map (f g) := by
  have hmem : ∀ g ∈ groups key l, g ≠ [] := fun g hg => List.ne_nil_of_mem_splitBy hg
  refine List.splitBy_flatten ?_ (fun m hm => ?_) ?_
  · intro hnil
    obtain ⟨g, hg, heq⟩ := List.mem_map.1 hnil
    exact hmem g hg (List.map_eq_nil_iff.1 heq)
  · obtain ⟨g, hg, rfl⟩ := List.mem_map.1 hm
    refine List.isChain_map _ |>.2 ?_
    refine (List.isChain_of_mem_splitBy hg).imp fun a b hab => ?_
    rwa [hkey, hkey]
  · refine (List.isChain_map _).2 ?_
    refine (List.isChain_getLast_head_splitBy _ l).imp ?_
    rintro g g' ⟨ha, hb, hne⟩
    refine ⟨by simpa using ha, by simpa using hb, ?_⟩
    rw [List.getLast_map, List.head_map, hkey, hkey]
    exact hne

section Sorted

variable [LinearOrder κ]

/-- **The groups of a sorted list ascend.** -/
theorem pairwise_groups (h : l.Pairwise fun a b => key a ≤ key b) :
    (groups key l).Pairwise fun g g' => ∀ a ∈ g, ∀ b ∈ g', key a < key b := by
  have hle : (groups key l).Pairwise fun g g' => ∀ a ∈ g, ∀ b ∈ g', key a ≤ key b := by
    rw [← List.flatten_splitBy (fun a b => decide (key a = key b)) l, List.pairwise_flatten] at h
    exact h.2
  -- neighbours differ where they meet, and each group has one key
  have hchain := List.isChain_getLast_head_splitBy (fun a b => decide (key a = key b)) l
  have hmem : ∀ g ∈ groups key l, g ≠ [] := fun g hg => List.ne_nil_of_mem_splitBy hg
  have hone : ∀ g ∈ groups key l, ∀ a ∈ g, ∀ b ∈ g, key a = key b :=
    fun g hg a ha b hb => key_eq_of_mem_groups hg ha hb
  change (groups key l).IsChain _ at hchain
  generalize groups key l = gs at hle hchain hmem hone ⊢
  induction gs with
  | nil => exact List.Pairwise.nil
  | cons g gs ih =>
      obtain ⟨hhead, htail⟩ := List.pairwise_cons.1 hle
      have hrest := ih htail hchain.tail (fun g' hg' => hmem g' (List.mem_cons_of_mem _ hg'))
        (fun g' hg' => hone g' (List.mem_cons_of_mem _ hg'))
      refine List.pairwise_cons.2 ⟨fun g' hg' a ha b hb => ?_, hrest⟩
      cases gs with
      | nil => simp at hg'
      | cons next gs =>
          obtain ⟨hlast, hfirst, hne⟩ := (List.isChain_cons_cons.1 hchain).1
          have hlt : ∀ c ∈ next, key a < key c := by
            intro c hc
            have ha' := hone g (List.mem_cons_self ..) a ha _ (List.getLast_mem hlast)
            have hc' := hone next (by simp) c hc _ (List.head_mem hfirst)
            rw [ha', hc']
            exact lt_of_le_of_ne (hhead next (List.mem_cons_self ..) _ (List.getLast_mem hlast) _
              (List.head_mem hfirst)) (by simpa using hne)
          rcases List.mem_cons.1 hg' with rfl | hg'
          · exact hlt b hb
          · exact (hlt _ (List.head_mem hfirst)).trans_le
              ((List.pairwise_cons.1 htail).1 g' hg' _ (List.head_mem hfirst) b hb)

/-- **A group holds all items with its key.** -/
theorem groups_eq_filter (h : l.Pairwise fun a b => key a ≤ key b) (hg : g ∈ groups key l)
    (ha : a ∈ g) : l.filter (fun b => key b = key a) = g := by
  obtain ⟨before, after, heq⟩ := List.append_of_mem hg
  have hpair := pairwise_groups h
  rw [heq] at hpair
  obtain ⟨-, hafter, hbefore⟩ := List.pairwise_append.1 hpair
  obtain ⟨hafter, -⟩ := List.pairwise_cons.1 hafter
  have hflat : l = before.flatten ++ (g ++ after.flatten) := by
    conv_lhs => rw [← List.flatten_splitBy (fun a b => decide (key a = key b)) l]
    show (groups key l).flatten = _
    rw [heq, List.flatten_append, List.flatten_cons]
  have hnil : ∀ gs : List (List α), (∀ g' ∈ gs, ∀ b ∈ g', key b ≠ key a) →
      gs.flatten.filter (fun b => key b = key a) = [] := by
    intro gs hne
    refine List.filter_eq_nil_iff.2 fun b hb => ?_
    obtain ⟨g', hg', hb⟩ := List.mem_flatten.1 hb
    simpa using hne g' hg' b hb
  rw [hflat, List.filter_append, List.filter_append, hnil before, hnil after,
    List.nil_append, List.append_nil, List.filter_eq_self]
  · exact fun b hb => by simpa using key_eq_of_mem_groups hg hb ha
  · exact fun g' hg' b hb => (hafter g' hg' a ha b hb).ne'
  · exact fun g' hg' b hb => (hbefore g' hg' g (List.mem_cons_self ..) b hb a ha).ne

end Sorted

end Grouped
