/-
# Smallest-ready-first topological orders

Kahn's algorithm with a priority queue takes, again and again, the smallest
element all of whose direct predecessors have been taken.  `Greedy S pre key`
says this of a list, over any type, any predecessor relation and any key: each
entry is ready when its turn comes and no ready element has a smaller key.

* the list is determined by `S`, by `pre` inside `S` and by `key`
  (`Greedy.unique`, `Greedy.congr`);
* it respects every direct edge inside `S` (`Greedy.pre_mem`, `Greedy.idxOf_lt`);
* it takes all of `S` when the edges inside `S` are well-founded
  (`Greedy.mem_of_wellFounded`), as they are when they descend in some rank or
  run in no cycle of a finite set (`wellFounded_of_acyclic`), and then the run
  over a subset takes all of that (`Greedy.covers_subset`);
* of all orders that respect the edges it is the least, compared key by key
  (`Greedy.map_le_map`);
* removing a set `D` of elements from it gives the order of `S \ D` exactly
  when the run is undisturbed by `D` (`Greedy.filter_iff`): it never takes an
  element outside `D` while a smaller one outside `D` waits only for members of
  `D`.
-/

import Mathlib.Data.Set.Insert
import Mathlib.Data.Set.Function
import Mathlib.Order.WellFoundedSet
import Mathlib.Tactic

namespace FinGraph

variable {α κ : Type*} [LinearOrder κ] {S S' : Set α} {pre pre' : α → α → Prop} {key : α → κ}

/-- `x` is a member of `S` not taken yet, whose direct predecessors in `S` all are. -/
structure Ready (S : Set α) (pre : α → α → Prop) (done : Set α) (x : α) : Prop where
  mem : x ∈ S
  notDone : x ∉ done
  preds : ∀ p ∈ S, pre p x → p ∈ done

/-- Readiness reads only which members of `S` are taken. -/
theorem ready_congr {done done' : Set α} (hd : ∀ x ∈ S, (x ∈ done ↔ x ∈ done')) {x : α} :
    Ready S pre done x ↔ Ready S pre done' x := by
  constructor
  · rintro ⟨hx, hn, hp⟩
    exact ⟨hx, fun h => hn ((hd x hx).2 h), fun p hpS hpx => (hd p hpS).1 (hp p hpS hpx)⟩
  · rintro ⟨hx, hn, hp⟩
    exact ⟨hx, fun h => hn ((hd x hx).1 h), fun p hpS hpx => (hd p hpS).2 (hp p hpS hpx)⟩

/-- The list is what the smallest-ready-first loop takes after `done`. -/
inductive Greedy (S : Set α) (pre : α → α → Prop) (key : α → κ) : Set α → List α → Prop
  | nil {done : Set α} (h : ∀ x, ¬ Ready S pre done x) : Greedy S pre key done []
  | cons {done : Set α} {x : α} {l : List α} (hx : Ready S pre done x)
      (hmin : ∀ y, Ready S pre done y → key x ≤ key y)
      (hl : Greedy S pre key (insert x done) l) : Greedy S pre key done (x :: l)

namespace Greedy

variable {done : Set α} {l l' : List α}

/-- Only members of `S` that were not taken before are taken. -/
theorem mem (h : Greedy S pre key done l) {x : α} (hx : x ∈ l) : x ∈ S ∧ x ∉ done := by
  induction h with
  | nil => simp at hx
  | cons hy _ _ ih =>
      rcases List.mem_cons.1 hx with rfl | hx
      · exact ⟨hy.mem, hy.notDone⟩
      · exact ⟨(ih hx).1, fun hd => (ih hx).2 (Set.mem_insert_of_mem _ hd)⟩

/-- Nothing is taken twice. -/
theorem nodup (h : Greedy S pre key done l) : l.Nodup := by
  induction h with
  | nil => exact List.nodup_nil
  | cons _ _ hl ih =>
      exact List.nodup_cons.2 ⟨fun hx => (hl.mem hx).2 (Set.mem_insert _ _), ih⟩

/-- **There is one such list**, as long as the key tells the members apart. -/
theorem unique (hkey : Set.InjOn key S) (h : Greedy S pre key done l)
    (h' : Greedy S pre key done l') : l = l' := by
  induction h generalizing l' with
  | nil hn =>
      cases h' with
      | nil => rfl
      | cons hx => exact absurd hx (hn _)
  | cons hx hmin hl ih =>
      cases h' with
      | nil hn => exact absurd hx (hn _)
      | cons hx' hmin' hl' =>
          have heq := hkey hx.mem hx'.mem (le_antisymm (hmin _ hx') (hmin' _ hx))
          subst heq
          rw [ih hl']

/-- Only the members of `S` among those taken matter. -/
theorem done_congr {done' : Set α} (hd : ∀ x ∈ S, (x ∈ done ↔ x ∈ done'))
    (h : Greedy S pre key done l) : Greedy S pre key done' l := by
  induction h generalizing done' with
  | nil hn => exact .nil fun x hx => hn x ((ready_congr hd).2 hx)
  | @cons done y l hy hmin _ ih =>
      refine .cons ((ready_congr hd).1 hy) (fun z hz => hmin z ((ready_congr hd).2 hz)) (ih ?_)
      intro x hx
      rw [Set.mem_insert_iff, Set.mem_insert_iff, hd x hx]

/-- The run reads `S`, the edges inside it and the keys, nothing else. -/
theorem congr (hS : S = S') (hpre : ∀ p ∈ S, ∀ x ∈ S, (pre p x ↔ pre' p x))
    (h : Greedy S pre key done l) : Greedy S' pre' key done l := by
  subst hS
  have hr : ∀ {done : Set α} {x : α}, Ready S pre done x ↔ Ready S pre' done x := fun {_ x} =>
    ⟨fun hx => ⟨hx.mem, hx.notDone, fun p hp hpx => hx.preds p hp ((hpre p hp x hx.mem).2 hpx)⟩,
      fun hx => ⟨hx.mem, hx.notDone, fun p hp hpx => hx.preds p hp ((hpre p hp x hx.mem).1 hpx)⟩⟩
  induction h with
  | nil hn => exact .nil fun x hx => hn x (hr.2 hx)
  | cons hx hmin _ ih => exact .cons (hr.1 hx) (fun y hy => hmin y (hr.2 hy)) ih

/-- **The order respects the direct edges of `S`.** -/
theorem pre_mem {l₁ l₂ : List α} {p x : α} (h : Greedy S pre key done (l₁ ++ x :: l₂))
    (hp : p ∈ S) (hpx : pre p x) : p ∈ done ∨ p ∈ l₁ := by
  induction l₁ generalizing done with
  | nil =>
      cases h with
      | cons hx => exact Or.inl (hx.preds p hp hpx)
  | cons y l₁ ih =>
      cases h with
      | cons _ _ hl =>
          rcases ih hl with h | h
          · rcases Set.mem_insert_iff.1 h with rfl | h
            · exact Or.inr List.mem_cons_self
            · exact Or.inl h
          · exact Or.inr (List.mem_cons_of_mem _ h)

/-- **Without cycles everything is taken.**  When the direct edges inside `S` are
well-founded, an element left over would leave a minimal one, which would be
ready. -/
theorem mem_of_wellFounded (hwf : WellFounded fun p x => p ∈ S ∧ x ∈ S ∧ pre p x)
    (h : Greedy S pre key done l) {x : α} (hx : x ∈ S) (hd : x ∉ done) : x ∈ l := by
  induction h with
  | @nil done hn =>
      exfalso
      induction x using hwf.induction with
      | _ x ih =>
          refine hn x ⟨hx, hd, fun p hp hpx => ?_⟩
          by_contra hpd
          exact ih p ⟨hp, hx, hpx⟩ hp hpd
  | @cons done y l _ _ _ ih =>
      by_cases hxy : x = y
      · exact hxy ▸ List.mem_cons_self
      · exact List.mem_cons_of_mem _ (ih fun h => (Set.mem_insert_iff.1 h).elim hxy hd)

/-- Edges that descend in a rank are well-founded. -/
theorem mem_of_rank (rank : α → ℕ) (hrank : ∀ p ∈ S, ∀ x ∈ S, pre p x → rank p < rank x)
    (h : Greedy S pre key done l) {x : α} (hx : x ∈ S) (hd : x ∉ done) : x ∈ l := by
  have hsub : Subrelation (fun p x => p ∈ S ∧ x ∈ S ∧ pre p x) (InvImage (· < ·) rank) :=
    fun {p x} hpx => hrank p hpx.1 x hpx.2.1 hpx.2.2
  exact h.mem_of_wellFounded (hsub.wf (InvImage.wf rank Nat.lt_wfRel.wf)) hx hd

/-- **Direct predecessors stand earlier.** -/
theorem idxOf_lt [DecidableEq α] (h : Greedy S pre key ∅ l) {p x : α} (hp : p ∈ S) (hx : x ∈ l)
    (hpx : pre p x) : l.idxOf p < l.idxOf x := by
  obtain ⟨l₁, l₂, rfl⟩ := List.append_of_mem hx
  have hp₁ := (h.pre_mem hp hpx).resolve_left (Set.notMem_empty p)
  have hx₁ : x ∉ l₁ := by
    intro hmem
    have hnd := h.nodup
    rw [List.nodup_append] at hnd
    exact hnd.2.2 x hmem x List.mem_cons_self rfl
  rw [List.idxOf_append_of_mem hp₁, List.idxOf_append_of_notMem hx₁, List.idxOf_cons_self]
  exact (List.idxOf_lt_length_of_mem hp₁).trans_le (Nat.le_add_right _ _)

/-- **If the run over a set takes all of it, so does the run over every subset.** -/
theorem covers_subset {T : Set α} (h : Greedy S pre key ∅ l) (hall : ∀ x ∈ S, x ∈ l) (hT : T ⊆ S)
    (h' : Greedy T pre key ∅ l') {x : α} (hx : x ∈ T) : x ∈ l' := by
  classical
  -- the position in the larger run is a rank
  refine mem_of_rank (fun y => l.idxOf y) (fun p hp y hy hpy => ?_) h' hx (Set.notMem_empty x)
  exact h.idxOf_lt (hT hp) (hall y (hT hy)) hpy

end Greedy

/-! ### Among all topological orders -/

/-- Each element of the list is ready when its turn comes. -/
inductive ReadyOrder (S : Set α) (pre : α → α → Prop) : Set α → List α → Prop
  | nil {done : Set α} : ReadyOrder S pre done []
  | cons {done : Set α} {x : α} {l : List α} (hx : Ready S pre done x)
      (hl : ReadyOrder S pre (insert x done) l) : ReadyOrder S pre done (x :: l)

omit [LinearOrder κ] in
/-- A list that names each direct predecessor before the element is such an order. -/
theorem readyOrder_of_pre_mem {done : Set α} {l : List α} (hS : ∀ x ∈ l, x ∈ S) (hnd : l.Nodup)
    (hdone : ∀ x ∈ l, x ∉ done)
    (hpre : ∀ l₁ x l₂, l = l₁ ++ x :: l₂ → ∀ p ∈ S, pre p x → p ∈ done ∨ p ∈ l₁) :
    ReadyOrder S pre done l := by
  induction l generalizing done with
  | nil => exact .nil
  | cons x l ih =>
      rw [List.nodup_cons] at hnd
      refine .cons ⟨hS x List.mem_cons_self, hdone x List.mem_cons_self, fun p hp hpx => ?_⟩ ?_
      · exact (hpre [] x l rfl p hp hpx).resolve_right List.not_mem_nil
      · refine ih (fun y hy => hS y (List.mem_cons_of_mem _ hy)) hnd.2 ?_ ?_
        · intro y hy hin
          rcases Set.mem_insert_iff.1 hin with rfl | hin
          · exact hnd.1 hy
          · exact hdone y (List.mem_cons_of_mem _ hy) hin
        · rintro l₁ y l₂ rfl p hp hpy
          rcases hpre (x :: l₁) y l₂ rfl p hp hpy with h | h
          · exact Or.inl (Set.mem_insert_of_mem _ h)
          · rcases List.mem_cons.1 h with rfl | h
            · exact Or.inl (Set.mem_insert _ _)
            · exact Or.inr h

/-- **The smallest-ready-first order is the lexicographically least one.** -/
theorem Greedy.map_le_map {done : Set α} {l l' : List α} (hkey : Set.InjOn key S)
    (h : Greedy S pre key done l) (h' : ReadyOrder S pre done l') (hlen : l.length ≤ l'.length) :
    l.map key ≤ l'.map key := by
  induction h generalizing l' with
  | nil => exact not_lt.1 (List.not_lt_nil _)
  | @cons done x l hx hmin hl ih =>
      cases h' with
      | nil => simp at hlen
      | @cons _ y l' hy hl' =>
          rw [List.map_cons, List.map_cons]
          rcases (hmin y hy).lt_or_eq with hlt | heq
          · exact (List.cons_lt_cons_iff.2 (Or.inl hlt)).le
          · obtain rfl := hkey hx.mem hy.mem heq
            exact List.cons_le_cons _ (ih hl' (by simpa using hlen))

/-- On a finite set, edges without a cycle are well-founded. -/
theorem wellFounded_of_acyclic {r : α → α → Prop} (hfin : S.Finite)
    (hmem : ∀ p x, r p x → p ∈ S ∧ x ∈ S) (hacyclic : ∀ x, ¬ Relation.TransGen r x x) :
    WellFounded r := by
  have hstrict : IsStrictOrder α (Relation.TransGen r) :=
    { irrefl := hacyclic, trans := fun _ _ _ => Relation.TransGen.trans }
  have hon := Set.wellFoundedOn_iff.1 (hfin.wellFoundedOn (r := Relation.TransGen r))
  have hsub : Subrelation r fun p x => Relation.TransGen r p x ∧ p ∈ S ∧ x ∈ S :=
    fun {p x} hpx => ⟨Relation.TransGen.single hpx, hmem p x hpx⟩
  exact hsub.wf hon

/-! ### Removing elements from a run -/

/-- The run over `S` never takes an element outside `D` while a smaller one
outside `D` waits only for members of `D`, and leaves no such element behind. -/
def Undisturbed (S D : Set α) (pre : α → α → Prop) (key : α → κ) : Set α → List α → Prop
  | done, [] => ∀ x, ¬ Ready (S \ D) pre done x
  | done, y :: l =>
      (y ∉ D → ∀ x, Ready (S \ D) pre done x → key y ≤ key x) ∧
        Undisturbed S D pre key (insert y done) l

/-- Which members of `S` are removed is all that matters. -/
theorem Undisturbed.congr {D D' done : Set α} {l : List α} (hD : S \ D = S \ D')
    (hl : ∀ y ∈ l, y ∈ S) (h : Undisturbed S D pre key done l) :
    Undisturbed S D' pre key done l := by
  induction l generalizing done with
  | nil =>
      rw [Undisturbed] at h ⊢
      rwa [← hD]
  | cons y l ih =>
      rw [Undisturbed] at h ⊢
      refine ⟨fun hy => ?_, ih (fun z hz => hl z (List.mem_cons_of_mem _ hz)) h.2⟩
      have hyD : y ∈ S \ D := hD ▸ ⟨hl y List.mem_cons_self, hy⟩
      rw [← hD]
      exact h.1 hyD.2

/-- **Removing `D` from the order of `S` gives the order of `S \ D` exactly when
the run is undisturbed.**  Whatever is ready among all of `S` is ready among
`S \ D`; the converse is what can fail. -/
theorem Greedy.filter_iff {D done : Set α} [DecidablePred (· ∈ D)] {l : List α}
    (h : Greedy S pre key done l) :
    Greedy (S \ D) pre key done (l.filter (· ∉ D)) ↔ Undisturbed S D pre key done l := by
  induction h with
  | nil =>
      refine ⟨fun h => ?_, fun h => .nil h⟩
      cases h with
      | nil hn => exact hn
  | @cons done y l hy hmin hl ih =>
      by_cases hyD : y ∈ D
      · have hd : ∀ x ∈ S \ D, (x ∈ insert y done ↔ x ∈ done) := fun x hx => by
          rw [Set.mem_insert_iff]
          exact or_iff_right fun h => hx.2 (h ▸ hyD)
        rw [List.filter_cons_of_neg (by simpa using hyD), Undisturbed, ← ih]
        exact ⟨fun h => ⟨fun hn => absurd hyD hn, h.done_congr fun x hx => (hd x hx).symm⟩,
          fun h => h.2.done_congr hd⟩
      · rw [List.filter_cons_of_pos (by simpa using hyD), Undisturbed, ← ih]
        have hyr : Ready (S \ D) pre done y :=
          ⟨⟨hy.mem, hyD⟩, hy.notDone, fun p hp hpy => hy.preds p hp.1 hpy⟩
        constructor
        · intro h
          cases h with
          | cons _ hmin' hl' => exact ⟨fun _ => hmin', hl'⟩
        · rintro ⟨hmin', hl'⟩
          exact .cons hyr (hmin' hyD) hl'

end FinGraph
