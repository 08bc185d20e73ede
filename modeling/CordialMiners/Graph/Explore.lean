/-
# Worklist exploration of a finite graph

A graph is a successor function `next : α → List α`.  `explore` is the loop

    while let Some(x) = worklist.pop() {
        for y in next(x) { if visited.insert(y) { worklist.push(y) } }
    }

for either discipline of the worklist: `push` says where a new node goes, so
that a queue (`push_back`) and a stack are the same function.  On a finite
universe the loop returns what it was given as visited together with everything
one or more steps away from the worklist (`mem_explore`), and
`worklist length + unvisited nodes` rounds are enough.

`drain` is the other loop, which marks a node only when it is taken off the stack

    while let Some(x) = stack.pop() {
        if !visited.insert(x) { continue; }
        for y in next(x) { if !visited.contains(y) { stack.push(y) } }
    }

and so may hold a node several times; it returns what its stack reaches
(`mem_drain`).
-/

import Mathlib.Logic.Relation
import Mathlib.Data.Finset.Card
import Mathlib.Data.Finset.SDiff
import Mathlib.Tactic

namespace FinGraph

open Relation

variable {α : Type*}

/-- `b` is a direct successor of `a`. -/
def Step (next : α → List α) (a b : α) : Prop := b ∈ next a

/-- `b` is `a` or a successor of it in any number of steps. -/
def Reach (next : α → List α) : α → α → Prop := ReflTransGen (Step next)

/-- Where a worklist discipline may put a node: somewhere, and once. -/
structure Pushes (push : List α → α → List α) : Prop where
  mem : ∀ {q : List α} {y z : α}, z ∈ push q y ↔ z = y ∨ z ∈ q
  length : ∀ (q : List α) (y : α), (push q y).length = q.length + 1

/-- `VecDeque::push_back`. -/
def pushBack (q : List α) (y : α) : List α := q ++ [y]

/-- `Vec::push`, the top of the stack being the head of the list. -/
def pushTop (q : List α) (y : α) : List α := y :: q

theorem pushes_pushBack : Pushes (@pushBack α) :=
  ⟨by intro q y z; simp [pushBack, or_comm], by intro q y; simp [pushBack]⟩

theorem pushes_pushTop : Pushes (@pushTop α) :=
  ⟨by intro q y z; simp [pushTop], by intro q y; simp [pushTop]⟩

section Mark

variable [DecidableEq α] {push : List α → α → List α}

/-- Visit the unvisited members of a list and put each on the worklist. -/
def mark (push : List α → α → List α) : List α → List α × List α → List α × List α
  | [], s => s
  | y :: ys, (worklist, visited) =>
      if y ∈ visited then mark push ys (worklist, visited)
      else mark push ys (push worklist y, y :: visited)

theorem mem_mark_visited {ys q v : List α} {z : α} :
    z ∈ (mark push ys (q, v)).2 ↔ z ∈ ys ∨ z ∈ v := by
  induction ys generalizing q v with
  | nil => simp [mark]
  | cons y ys ih =>
      rw [mark]
      split_ifs with hy
      · rw [ih, List.mem_cons]
        constructor
        · rintro (h | h) <;> simp [h]
        · rintro ((rfl | h) | h) <;> simp [*]
      · rw [ih, List.mem_cons, List.mem_cons]
        tauto

/-- The worklist keeps what it held and gains only what was newly visited. -/
theorem mem_mark_worklist (hp : Pushes push) {ys q v : List α} {z : α} :
    z ∈ (mark push ys (q, v)).1 ↔ z ∈ q ∨ (z ∈ ys ∧ z ∉ v) := by
  induction ys generalizing q v with
  | nil => simp [mark]
  | cons y ys ih =>
      rw [mark]
      split_ifs with hy
      · rw [ih, List.mem_cons]
        constructor
        · rintro (h | ⟨h, hv⟩) <;> tauto
        · rintro (h | ⟨rfl | h, hv⟩) <;> tauto
      · rw [ih, hp.mem, List.mem_cons, List.mem_cons]
        constructor
        · rintro ((rfl | h) | ⟨h, hv⟩) <;> tauto
        · rintro (h | ⟨rfl | h, hv⟩)
          · tauto
          · tauto
          · by_cases hzy : z = y <;> tauto

/-- Nothing is visited twice. -/
theorem nodup_mark {ys q v : List α} (h : v.Nodup) : (mark push ys (q, v)).2.Nodup := by
  induction ys generalizing q v with
  | nil => exact h
  | cons y ys ih =>
      rw [mark]
      split_ifs with hy
      · exact ih h
      · exact ih (List.nodup_cons.2 ⟨hy, h⟩)

/-- Marking moves nodes from the unvisited ones to the worklist, one for one. -/
theorem mark_measure (hp : Pushes push) {U : Finset α} {ys q v : List α} (hU : ∀ y ∈ ys, y ∈ U) :
    (mark push ys (q, v)).1.length + (U \ (mark push ys (q, v)).2.toFinset).card =
      q.length + (U \ v.toFinset).card := by
  induction ys generalizing q v with
  | nil => rfl
  | cons y ys ih =>
      have hys : ∀ z ∈ ys, z ∈ U := fun z hz => hU z (List.mem_cons_of_mem _ hz)
      rw [mark]
      split_ifs with hy
      · exact ih hys
      · have hyU : y ∈ U \ v.toFinset := by simp [hU y, hy]
        have hcard := Finset.card_erase_add_one hyU
        have herase : U \ (y :: v).toFinset = (U \ v.toFinset).erase y := by
          ext z; simp [and_left_comm, not_or]
        rw [ih hys, hp.length, herase]
        omega

end Mark

section Explore

variable [DecidableEq α] {push : List α → α → List α} {next : α → List α}

/-- The worklist loop.  `fuel` bounds the number of rounds. -/
def explore (push : List α → α → List α) (next : α → List α) : ℕ → List α → List α → List α
  | 0, _, visited => visited
  | _ + 1, [], visited => visited
  | fuel + 1, x :: worklist, visited =>
      let s := mark push (next x) (worklist, visited)
      explore push next fuel s.1 s.2

/-- Nothing is returned twice. -/
theorem nodup_explore {fuel : ℕ} {q v : List α} (h : v.Nodup) :
    (explore push next fuel q v).Nodup := by
  induction fuel generalizing q v with
  | zero => exact h
  | succ fuel ih =>
      cases q with
      | nil => exact h
      | cons x q => exact ih (nodup_mark h)

/-- Nothing is returned that is neither given nor reached from the worklist. -/
theorem explore_sound (hp : Pushes push) {fuel : ℕ} {q v : List α} {z : α}
    (hz : z ∈ explore push next fuel q v) :
    z ∈ v ∨ ∃ x ∈ q, TransGen (Step next) x z := by
  induction fuel generalizing q v with
  | zero => exact .inl hz
  | succ fuel ih =>
      cases q with
      | nil => exact .inl hz
      | cons x q =>
          rw [explore] at hz
          rcases ih hz with h | ⟨y, hy, hyz⟩
          · rcases mem_mark_visited.1 h with h | h
            · exact .inr ⟨x, List.mem_cons_self, .single h⟩
            · exact .inl h
          · rcases (mem_mark_worklist hp).1 hy with h | ⟨h, -⟩
            · exact .inr ⟨y, List.mem_cons_of_mem _ h, hyz⟩
            · exact .inr ⟨x, List.mem_cons_self, .head h hyz⟩

/-- What the loop returns contains what it was given, the successors of the
worklist, and the successors of each of its members. -/
theorem explore_closed (hp : Pushes push) {U : Finset α} (hU : ∀ x, ∀ y ∈ next x, y ∈ U)
    {fuel : ℕ} {q v : List α} (hinv : ∀ x ∈ v, x ∈ q ∨ ∀ y ∈ next x, y ∈ v)
    (hfuel : q.length + (U \ v.toFinset).card ≤ fuel) :
    (∀ x ∈ v, x ∈ explore push next fuel q v) ∧
      (∀ x ∈ q, ∀ y ∈ next x, y ∈ explore push next fuel q v) ∧
      ∀ x ∈ explore push next fuel q v, ∀ y ∈ next x, y ∈ explore push next fuel q v := by
  induction fuel generalizing q v with
  | zero =>
      have hq : q = [] := List.length_eq_zero_iff.1 (by omega)
      subst hq
      simp only [explore]
      exact ⟨fun _ h => h, by simp, fun x hx y hy => by simpa using (hinv x hx).resolve_left (by simp) y hy⟩
  | succ fuel ih =>
      cases q with
      | nil =>
          simp only [explore]
          exact ⟨fun _ h => h, by simp, fun x hx y hy => by
            simpa using (hinv x hx).resolve_left (by simp) y hy⟩
      | cons x q =>
          rw [explore]
          have hm := mark_measure hp (q := q) (v := v) (hU x)
          -- the invariant after the round: `x` is done, its new successors wait
          have hinv' : ∀ z ∈ (mark push (next x) (q, v)).2,
              z ∈ (mark push (next x) (q, v)).1 ∨
                ∀ y ∈ next z, y ∈ (mark push (next x) (q, v)).2 := by
            intro z hz
            by_cases hzv : z ∈ v
            · rcases hinv z hzv with h | h
              · rcases List.mem_cons.1 h with rfl | h
                · exact .inr fun y hy => mem_mark_visited.2 (.inl hy)
                · exact .inl ((mem_mark_worklist hp).2 (.inl h))
              · exact .inr fun y hy => mem_mark_visited.2 (.inr (h y hy))
            · have hzn := (mem_mark_visited.1 hz).resolve_right hzv
              exact .inl ((mem_mark_worklist hp).2 (.inr ⟨hzn, hzv⟩))
          simp only [List.length_cons] at hfuel
          obtain ⟨h₁, h₂, h₃⟩ := ih hinv' (by omega)
          refine ⟨fun z hz => h₁ z (mem_mark_visited.2 (.inr hz)), fun z hz y hy => ?_, h₃⟩
          rcases List.mem_cons.1 hz with rfl | hz
          · exact h₁ y (mem_mark_visited.2 (.inl hy))
          · exact h₂ z ((mem_mark_worklist hp).2 (.inl hz)) y hy

/-- **The loop computes reachability.**  With enough rounds it returns what was
visited already and everything one or more steps away from the worklist. -/
theorem mem_explore (hp : Pushes push) {U : Finset α} (hU : ∀ x, ∀ y ∈ next x, y ∈ U)
    {fuel : ℕ} {q v : List α} (hinv : ∀ x ∈ v, x ∈ q ∨ ∀ y ∈ next x, y ∈ v)
    (hfuel : q.length + (U \ v.toFinset).card ≤ fuel) {z : α} :
    z ∈ explore push next fuel q v ↔ z ∈ v ∨ ∃ x ∈ q, TransGen (Step next) x z := by
  refine ⟨explore_sound hp, ?_⟩
  obtain ⟨h₁, h₂, h₃⟩ := explore_closed hp hU hinv hfuel
  rintro (h | ⟨x, hx, hxz⟩)
  · exact h₁ z h
  · induction hxz with
    | single h => exact h₂ x hx _ h
    | tail _ h ih => exact h₃ _ ih _ h

/-- **Started from marked seeds, the loop returns what the seeds reach.** -/
theorem mem_explore_mark (hp : Pushes push) {U : Finset α} (hU : ∀ x, ∀ y ∈ next x, y ∈ U)
    {seeds : List α} (hseeds : ∀ y ∈ seeds, y ∈ U) {fuel : ℕ} (hfuel : U.card ≤ fuel) {z : α} :
    z ∈ explore push next fuel (mark push seeds ([], [])).1 (mark push seeds ([], [])).2 ↔
      ∃ y ∈ seeds, Reach next y z := by
  have hwork : ∀ x, x ∈ (mark push seeds ([], [])).1 ↔ x ∈ seeds := by
    intro x
    rw [mem_mark_worklist hp]
    simp
  have hvisited : ∀ x, x ∈ (mark push seeds ([], [])).2 ↔ x ∈ seeds := by
    intro x
    rw [mem_mark_visited]
    simp
  have hm := mark_measure hp (q := []) (v := []) hseeds
  rw [List.toFinset_nil, Finset.sdiff_empty, List.length_nil, Nat.zero_add] at hm
  rw [mem_explore hp hU (fun x hx => .inl ((hwork x).2 ((hvisited x).1 hx))) (by omega)]
  simp only [hwork, hvisited]
  constructor
  · rintro (h | ⟨x, hx, hxz⟩)
    · exact ⟨z, h, ReflTransGen.refl⟩
    · exact ⟨x, hx, hxz.to_reflTransGen⟩
  · rintro ⟨y, hy, hyz⟩
    rcases reflTransGen_iff_eq_or_transGen.1 hyz with rfl | h
    · exact .inl hy
    · exact .inr ⟨y, hy, h⟩

end Explore

section Drain

variable [DecidableEq α] {next : α → List α}

/-- The loop that marks a node when it is taken off the stack. -/
def drain (next : α → List α) : ℕ → List α → List α → List α
  | 0, _, visited => visited
  | _ + 1, [], visited => visited
  | fuel + 1, x :: stack, visited =>
      if x ∈ visited then drain next fuel stack visited
      else drain next fuel (((next x).filter (· ∉ x :: visited)).reverse ++ stack) (x :: visited)

/-- Nothing is returned that is neither given nor reached from the stack. -/
theorem drain_sound {fuel : ℕ} {q v : List α} {z : α} (hz : z ∈ drain next fuel q v) :
    z ∈ v ∨ ∃ x ∈ q, Reach next x z := by
  induction fuel generalizing q v with
  | zero => exact .inl hz
  | succ fuel ih =>
      cases q with
      | nil => exact .inl hz
      | cons x q =>
          rw [drain] at hz
          split_ifs at hz with hx
          · obtain h | ⟨y, hy, hyz⟩ := ih hz
            · exact .inl h
            · exact .inr ⟨y, List.mem_cons_of_mem _ hy, hyz⟩
          · obtain h | ⟨y, hy, hyz⟩ := ih hz
            · obtain rfl | h := List.mem_cons.1 h
              · exact .inr ⟨z, List.mem_cons_self, .refl⟩
              · exact .inl h
            · obtain hy | hy := List.mem_append.1 hy
              · have hstep := (List.mem_filter.1 (List.mem_reverse.1 hy)).1
                exact .inr ⟨x, List.mem_cons_self, .head hstep hyz⟩
              · exact .inr ⟨y, List.mem_cons_of_mem _ hy, hyz⟩

theorem nodup_drain {fuel : ℕ} {q v : List α} (h : v.Nodup) : (drain next fuel q v).Nodup := by
  induction fuel generalizing q v with
  | zero => exact h
  | succ fuel ih =>
      cases q with
      | nil => exact h
      | cons x q =>
          rw [drain]
          split_ifs with hx
          · exact ih h
          · exact ih (List.nodup_cons.2 ⟨hx, h⟩)

/-- What the loop returns contains what it was given, the stack, and the
successors of each of its members. -/
theorem drain_closed {U : Finset α} (hU : ∀ x, ∀ y ∈ next x, y ∈ U) {fuel : ℕ} {q v : List α}
    (hq : ∀ x ∈ q, x ∈ U) (hinv : ∀ x ∈ v, ∀ y ∈ next x, y ∈ v ∨ y ∈ q)
    (hfuel : q.length + ∑ x ∈ U \ v.toFinset, (next x).length ≤ fuel) :
    (∀ x ∈ v, x ∈ drain next fuel q v) ∧ (∀ x ∈ q, x ∈ drain next fuel q v) ∧
      ∀ x ∈ drain next fuel q v, ∀ y ∈ next x, y ∈ drain next fuel q v := by
  induction fuel generalizing q v with
  | zero =>
      obtain rfl : q = [] := List.length_eq_zero_iff.1 (by omega)
      simp only [drain]
      exact ⟨fun _ h => h, by simp, fun x hx y hy => (hinv x hx y hy).resolve_right (by simp)⟩
  | succ fuel ih =>
      cases q with
      | nil =>
          simp only [drain]
          exact ⟨fun _ h => h, by simp, fun x hx y hy => (hinv x hx y hy).resolve_right (by simp)⟩
      | cons x q =>
          have hqU : ∀ z ∈ q, z ∈ U := fun z hz => hq z (List.mem_cons_of_mem _ hz)
          rw [List.length_cons] at hfuel
          rw [drain]
          split_ifs with hx
          · have hinv' : ∀ z ∈ v, ∀ y ∈ next z, y ∈ v ∨ y ∈ q := by
              intro z hz y hy
              obtain h | h := hinv z hz y hy
              · exact .inl h
              · obtain rfl | h := List.mem_cons.1 h
                · exact .inl hx
                · exact .inr h
            obtain ⟨h₁, h₂, h₃⟩ := ih hqU hinv' (by omega)
            refine ⟨h₁, fun z hz => ?_, h₃⟩
            obtain rfl | hz := List.mem_cons.1 hz
            · exact h₁ _ hx
            · exact h₂ z hz
          · -- the successors of `x` go from the sum to the stack
            have hxU : x ∈ U \ v.toFinset := by simp [hq x, hx]
            have herase : U \ (x :: v).toFinset = (U \ v.toFinset).erase x := by
              ext z; simp [and_left_comm, not_or]
            have hsum := Finset.add_sum_erase (U \ v.toFinset) (fun z => (next z).length) hxU
            have hlen := List.length_filter_le (fun z => decide (z ∉ x :: v)) (next x)
            have hqU' : ∀ z ∈ ((next x).filter (· ∉ x :: v)).reverse ++ q, z ∈ U := by
              intro z hz
              obtain hz | hz := List.mem_append.1 hz
              · exact hU x z (List.mem_filter.1 (List.mem_reverse.1 hz)).1
              · exact hqU z hz
            have hinv' : ∀ z ∈ x :: v, ∀ y ∈ next z,
                y ∈ x :: v ∨ y ∈ ((next x).filter (· ∉ x :: v)).reverse ++ q := by
              intro z hz y hy
              by_cases hyv : y ∈ x :: v
              · exact .inl hyv
              · refine .inr (List.mem_append.2 ?_)
                obtain rfl | hz := List.mem_cons.1 hz
                · exact .inl (List.mem_reverse.2 (List.mem_filter.2 ⟨hy, by simpa using hyv⟩))
                · obtain h | h := hinv z hz y hy
                  · exact absurd (List.mem_cons_of_mem _ h) hyv
                  · obtain rfl | h := List.mem_cons.1 h
                    · exact absurd List.mem_cons_self hyv
                    · exact .inr h
            obtain ⟨h₁, h₂, h₃⟩ := ih hqU' hinv' (by
              rw [herase, List.length_append, List.length_reverse]
              omega)
            refine ⟨fun z hz => h₁ z (List.mem_cons_of_mem _ hz), fun z hz => ?_, h₃⟩
            obtain rfl | hz := List.mem_cons.1 hz
            · exact h₁ _ List.mem_cons_self
            · exact h₂ z (List.mem_append_right _ hz)

/-- **The loop returns what its stack reaches.** -/
theorem mem_drain {U : Finset α} (hU : ∀ x, ∀ y ∈ next x, y ∈ U) {fuel : ℕ} {q : List α}
    (hq : ∀ x ∈ q, x ∈ U) (hfuel : q.length + ∑ x ∈ U, (next x).length ≤ fuel) {z : α} :
    z ∈ drain next fuel q [] ↔ ∃ x ∈ q, Reach next x z := by
  constructor
  · intro hz
    exact (drain_sound hz).resolve_left (by simp)
  · rintro ⟨x, hx, hxz⟩
    obtain ⟨-, h₂, h₃⟩ := drain_closed hU hq (v := []) (by simp) (by simpa using hfuel)
    induction hxz with
    | refl => exact h₂ x hx
    | tail _ hstep ih => exact h₃ _ ih _ hstep

end Drain

end FinGraph
