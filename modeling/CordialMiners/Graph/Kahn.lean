/-
# Kahn's algorithm with a sorted ready list

A node comes with the list of the nodes it waits for.  The loop pops the ready
node with the smallest key, lowers the count of each node that waits for it,
and makes a node ready when its count reaches zero.  As long as the key tells
the nodes apart, the loop produces the smallest-ready-first order
(`kahn_greedy`).
-/

import CordialMiners.Graph.Greedy

namespace FinGraph

variable {α κ : Type*} [DecidableEq α] [LinearOrder κ]

/-- Insert into a list sorted by key, in place of an entry with the same key. -/
def insertReady (key : α → κ) (x : α) : List α → List α
  | [] => [x]
  | y :: ys =>
      if key x < key y then x :: y :: ys
      else if key x = key y then x :: ys
      else y :: insertReady key x ys

/-- Lower the count of each child; one that reaches zero becomes ready. -/
def release (key : α → κ) : List α → (α → ℕ) × List α → (α → ℕ) × List α
  | [], s => s
  | child :: children, (indegree, ready) =>
      let degree := indegree child - 1
      release key children
        (Function.update indegree child degree,
          if degree = 0 then insertReady key child ready else ready)

/-- The nodes that wait for `p`, once for each time they do. -/
def dependentsOf (nodes : List (α × List α)) (p : α) : List α :=
  nodes.flatMap fun node => (node.2.filter (· = p)).map fun _ => node.1

/-- The loop; `fuel` bounds the number of pops. -/
def kahnLoop (key : α → κ) (nodes : List (α × List α)) : ℕ → (α → ℕ) → List α → List α
  | 0, _, _ => []
  | _ + 1, _, [] => []
  | fuel + 1, indegree, next :: ready =>
      let s := release key (dependentsOf nodes next) (indegree, ready)
      next :: kahnLoop key nodes fuel s.1 s.2

/-- How many nodes a node waits for. -/
def indegreeOf (nodes : List (α × List α)) (x : α) : ℕ :=
  ((nodes.filter fun node => node.1 = x).map fun node => node.2.length).sum

/-- The nodes that wait for nothing. -/
def initialReady (key : α → κ) (nodes : List (α × List α)) : List α :=
  (nodes.filter fun node => indegreeOf nodes node.1 = 0).foldl
    (fun ready node => insertReady key node.1 ready) []

/-- Kahn's algorithm. -/
def kahn (key : α → κ) (nodes : List (α × List α)) : List α :=
  kahnLoop key nodes nodes.length (indegreeOf nodes) (initialReady key nodes)

/-! ### The ready list -/

section Ready

variable {key : α → κ} {S : Set α} {x y : α} {l : List α}

/-- Sorted by key, and inside a set on which the key is injective. -/
structure SortedIn (S : Set α) (key : α → κ) (l : List α) : Prop where
  mem : ∀ x ∈ l, x ∈ S
  sorted : l.Pairwise fun x y => key x < key y

theorem mem_insertReady (hkey : Set.InjOn key S) (hx : x ∈ S) (hl : ∀ y ∈ l, y ∈ S) :
    y ∈ insertReady key x l ↔ y = x ∨ y ∈ l := by
  induction l with
  | nil => simp [insertReady]
  | cons z l ih =>
      have hrest := ih fun y hy => hl y (List.mem_cons_of_mem _ hy)
      rw [insertReady]
      split_ifs with h₁ h₂
      · simp
      · have hxz : x = z := hkey hx (hl z List.mem_cons_self) h₂
        subst hxz
        simp
      · simp only [List.mem_cons, hrest]
        tauto

theorem SortedIn.insertReady (hkey : Set.InjOn key S) (hx : x ∈ S) (h : SortedIn S key l) :
    SortedIn S key (insertReady key x l) := by
  refine ⟨fun y hy => ?_, ?_⟩
  · rcases (mem_insertReady hkey hx h.mem).1 hy with rfl | hy
    · exact hx
    · exact h.mem y hy
  · have hmem := h.mem
    have hsorted := h.sorted
    clear h
    induction l with
    | nil => simp [FinGraph.insertReady]
    | cons z l ih =>
        rw [List.pairwise_cons] at hsorted
        have hl : ∀ y ∈ l, y ∈ S := fun y hy => hmem y (List.mem_cons_of_mem _ hy)
        rw [FinGraph.insertReady]
        split_ifs with h₁ h₂
        · refine List.pairwise_cons.2 ⟨fun y hy => ?_, List.pairwise_cons.2 hsorted⟩
          rcases List.mem_cons.1 hy with rfl | hy
          · exact h₁
          · exact h₁.trans (hsorted.1 y hy)
        · exact List.pairwise_cons.2 ⟨fun y hy => h₂ ▸ hsorted.1 y hy, hsorted.2⟩
        · refine List.pairwise_cons.2 ⟨fun y hy => ?_, ih hl hsorted.2⟩
          rcases (mem_insertReady hkey hx hl).1 hy with rfl | hy
          · exact lt_of_le_of_ne (not_lt.1 h₁) (Ne.symm h₂)
          · exact hsorted.1 y hy

/-- A released child is ready if it was waited for once. -/
theorem mem_released {n : ℕ} (hkey : Set.InjOn key S) (hx : x ∈ S) (hready : SortedIn S key l)
    (hn : 0 < n) : y ∈ (if n - 1 = 0 then insertReady key x l else l) ↔ y ∈ l ∨ y = x ∧ n = 1 := by
  split_ifs with h
  · rw [mem_insertReady hkey hx hready.mem, or_comm]
    simp [show n = 1 by omega]
  · simp [show n ≠ 1 by omega]

/-- **What releasing the children of a popped node does.** -/
theorem release_spec (hkey : Set.InjOn key S) {children : List α} {indegree : α → ℕ}
    {ready : List α} (hch : ∀ x ∈ children, x ∈ S) (hready : SortedIn S key ready)
    (hcount : ∀ x, children.count x ≤ indegree x) :
    (∀ x, (release key children (indegree, ready)).1 x = indegree x - children.count x) ∧
      SortedIn S key (release key children (indegree, ready)).2 ∧
      ∀ x, x ∈ (release key children (indegree, ready)).2 ↔
        x ∈ ready ∨ (x ∈ children ∧ indegree x = children.count x) := by
  induction children generalizing indegree ready with
  | nil => simpa [release] using hready
  | cons c children ih =>
      have hc : c ∈ S := hch c List.mem_cons_self
      have hrest : ∀ x ∈ children, x ∈ S := fun x hx => hch x (List.mem_cons_of_mem _ hx)
      have hcc := hcount c
      rw [List.count_cons_self] at hcc
      have hcount' : ∀ x, children.count x ≤ Function.update indegree c (indegree c - 1) x := by
        intro x
        by_cases hxc : x = c
        · subst hxc
          rw [Function.update_self]
          omega
        · rw [Function.update_of_ne hxc]
          have := hcount x
          rwa [List.count_cons_of_ne (Ne.symm hxc)] at this
      have hready' : SortedIn S key
          (if indegree c - 1 = 0 then FinGraph.insertReady key c ready else ready) := by
        split_ifs
        · exact hready.insertReady hkey hc
        · exact hready
      obtain ⟨h₁, h₂, h₃⟩ := ih hrest hready' hcount'
      rw [release]
      refine ⟨fun x => ?_, h₂, fun x => ?_⟩
      · rw [h₁ x]
        by_cases hxc : x = c
        · subst hxc
          rw [Function.update_self, List.count_cons_self]
          omega
        · rw [Function.update_of_ne hxc, List.count_cons_of_ne (Ne.symm hxc)]
      · rw [h₃ x, mem_released hkey hc hready (by omega)]
        by_cases hxc : x = c
        · subst hxc
          rw [Function.update_self, List.count_cons_self]
          constructor
          · rintro ((h | ⟨-, h⟩) | ⟨-, h⟩)
            · exact Or.inl h
            · exact Or.inr ⟨List.mem_cons_self, by omega⟩
            · exact Or.inr ⟨List.mem_cons_self, by omega⟩
          · rintro (h | ⟨-, h⟩)
            · exact Or.inl (Or.inl h)
            · by_cases hx : x ∈ children
              · exact Or.inr ⟨hx, by omega⟩
              · rw [List.count_eq_zero_of_not_mem hx] at h
                exact Or.inl (Or.inr ⟨rfl, h⟩)
        · rw [Function.update_of_ne hxc, List.count_cons_of_ne (Ne.symm hxc), List.mem_cons]
          simp [hxc]

end Ready

/-! ### The loop -/

section Loop

variable {key : α → κ} {nodes : List (α × List α)}

/-- The names of the nodes. -/
def nodeSet (nodes : List (α × List α)) : Set α := {x | ∃ ps, (x, ps) ∈ nodes}

/-- `x` waits for `p`. -/
def WaitsFor (nodes : List (α × List α)) (p x : α) : Prop := ∃ ps, (x, ps) ∈ nodes ∧ p ∈ ps

/-- A node is listed once, and waits for nodes of the list. -/
structure WellListed (nodes : List (α × List α)) : Prop where
  nodup : (nodes.map Prod.fst).Nodup
  closed : ∀ x ps, (x, ps) ∈ nodes → ∀ p ∈ ps, p ∈ nodeSet nodes

omit [DecidableEq α] in
theorem WellListed.inj (h : WellListed nodes) {x : α} {ps qs : List α} (hp : (x, ps) ∈ nodes)
    (hq : (x, qs) ∈ nodes) : ps = qs :=
  congrArg Prod.snd (List.inj_on_of_nodup_map h.nodup hp hq rfl)

theorem count_dependentsOf (h : (nodes.map Prod.fst).Nodup) {x p : α} {ps : List α}
    (hx : (x, ps) ∈ nodes) : (dependentsOf nodes p).count x = ps.count p := by
  induction nodes with
  | nil => simp at hx
  | cons node nodes ih =>
      rw [List.map_cons, List.nodup_cons] at h
      unfold dependentsOf at ih ⊢
      rw [List.flatMap_cons, List.count_append]
      have hconst : ((node.2.filter (· = p)).map fun _ => node.1).count x =
          if node.1 = x then node.2.count p else 0 := by
        rw [show ((node.2.filter (· = p)).map fun _ => node.1) =
          List.replicate (node.2.filter (· = p)).length node.1 by simp [List.map_const'],
          List.count_replicate]
        simp only [beq_iff_eq]
        congr 1
        rw [List.count_eq_length_filter]
        congr 2
      rcases List.mem_cons.1 hx with heq | hx
      · subst heq
        have hnone : (nodes.flatMap fun node => (node.2.filter (· = p)).map fun _ => node.1).count
            x = 0 := by
          rw [List.count_eq_zero]
          intro hmem
          obtain ⟨node, hnode, hmem⟩ := List.mem_flatMap.1 hmem
          obtain ⟨-, -, hxn⟩ := List.mem_map.1 hmem
          exact h.1 (List.mem_map.2 ⟨node, hnode, hxn⟩)
        rw [hconst, hnone, if_pos rfl]
        rfl
      · have hne : node.1 ≠ x := fun heq => h.1 (List.mem_map.2 ⟨(x, ps), hx, heq.symm⟩)
        rw [hconst, if_neg hne, ih h.2 hx]
        omega

theorem mem_dependentsOf {x p : α} : x ∈ dependentsOf nodes p ↔ WaitsFor nodes p x := by
  unfold dependentsOf WaitsFor
  rw [List.mem_flatMap]
  constructor
  · rintro ⟨⟨y, ps⟩, hy, hx⟩
    obtain ⟨q, hq, rfl⟩ := List.mem_map.1 hx
    rw [List.mem_filter, decide_eq_true_eq] at hq
    exact ⟨ps, hy, hq.2 ▸ hq.1⟩
  · rintro ⟨ps, hps, hp⟩
    exact ⟨(x, ps), hps, List.mem_map.2 ⟨p, List.mem_filter.2 ⟨hp, by simp⟩, rfl⟩⟩

/-- The state of the loop after the nodes of `done` were popped: counts are the
predecessors not popped yet, and the ready list holds the ready nodes. -/
structure LoopInv (key : α → κ) (nodes : List (α × List α)) (done : Finset α)
    (indegree : α → ℕ) (ready : List α) : Prop where
  counts : ∀ x ps, (x, ps) ∈ nodes → indegree x = (ps.filter (· ∉ done)).length
  sorted : SortedIn (nodeSet nodes) key ready
  ready_iff : ∀ x, x ∈ ready ↔ Ready (nodeSet nodes) (WaitsFor nodes) (done : Set α) x
  done_closed : ∀ x ∈ done, ∀ p, WaitsFor nodes p x → p ∈ done

/-- A node is ready when it was not popped and its count is zero. -/
theorem ready_iff_filter (h : WellListed nodes) {done : Finset α} {x : α} {ps : List α}
    (hx : (x, ps) ∈ nodes) :
    Ready (nodeSet nodes) (WaitsFor nodes) (done : Set α) x ↔
      x ∉ done ∧ (ps.filter (· ∉ done)).length = 0 := by
  rw [List.length_eq_zero_iff, List.filter_eq_nil_iff]
  constructor
  · rintro ⟨-, hnd, hpre⟩
    refine ⟨by simpa using hnd, fun p hp => ?_⟩
    simpa using hpre p (h.closed x ps hx p hp) ⟨ps, hx, hp⟩
  · rintro ⟨hnd, hall⟩
    refine ⟨⟨ps, hx⟩, by simpa using hnd, ?_⟩
    rintro p - ⟨qs, hqs, hp⟩
    rw [h.inj hqs hx] at hp
    simpa using hall p hp

/-- The predecessors left over lose the occurrences of a popped node. -/
theorem length_filter_notMem_insert {done : Finset α} {next : α} (hnd : next ∉ done) (ps : List α) :
    (ps.filter (· ∉ done)).length = (ps.filter (· ∉ insert next done)).length + ps.count next := by
  induction ps with
  | nil => simp
  | cons p ps ih =>
      by_cases hpn : p = next
      · subst hpn
        rw [List.filter_cons_of_pos (by simpa using hnd), List.filter_cons_of_neg (by simp),
          List.count_cons_self, List.length_cons]
        omega
      · rw [List.count_cons_of_ne hpn]
        by_cases hpd : p ∈ done
        · rw [List.filter_cons_of_neg (by simpa using hpd), List.filter_cons_of_neg (by simp [hpd])]
          exact ih
        · rw [List.filter_cons_of_pos (by simpa using hpd),
            List.filter_cons_of_pos (by simp [hpd, hpn]), List.length_cons, List.length_cons]
          omega

/-- The ready list after the first ready node was popped: what was ready before, and what
waited for that node alone. -/
theorem LoopInv.ready_pop (h : WellListed nodes) {done : Finset α} {indegree : α → ℕ} {next x : α}
    {ready : List α} (hinv : LoopInv key nodes done indegree (next :: ready)) :
    (x ∈ ready ∨ (x ∈ dependentsOf nodes next ∧
      indegree x = (dependentsOf nodes next).count x)) ↔
      Ready (nodeSet nodes) (WaitsFor nodes) ((insert next done : Finset α) : Set α) x := by
  have hnext := (hinv.ready_iff next).1 List.mem_cons_self
  have hnd : next ∉ done := by simpa using hnext.notDone
  have hsplit := length_filter_notMem_insert hnd
  constructor
  · rintro (hx | ⟨hx, hzero⟩)
    · have hxr := (hinv.ready_iff x).1 (List.mem_cons_of_mem _ hx)
      obtain ⟨ps, hps⟩ := hxr.mem
      obtain ⟨hxd, hlen⟩ := (ready_iff_filter h hps).1 hxr
      refine (ready_iff_filter h hps).2 ⟨?_, by have := hsplit ps; omega⟩
      rw [Finset.mem_insert, not_or]
      refine ⟨?_, hxd⟩
      rintro rfl
      exact absurd ((List.pairwise_cons.1 hinv.sorted.sorted).1 x hx) (lt_irrefl _)
    · obtain ⟨ps, hps, hpn⟩ := mem_dependentsOf.1 hx
      rw [count_dependentsOf h.nodup hps, hinv.counts x ps hps] at hzero
      have hlen := hsplit ps
      refine (ready_iff_filter h hps).2 ⟨?_, by omega⟩
      rw [Finset.mem_insert, not_or]
      constructor
      · -- the popped node does not wait for itself
        rintro rfl
        exact hnext.notDone (hnext.preds x hnext.mem ⟨ps, hps, hpn⟩)
      · exact fun hxd => hnd (hinv.done_closed x hxd next ⟨ps, hps, hpn⟩)
  · intro hxr
    obtain ⟨ps, hps⟩ := hxr.mem
    obtain ⟨hxd, hlen⟩ := (ready_iff_filter h hps).1 hxr
    rw [Finset.mem_insert, not_or] at hxd
    have hsum := hsplit ps
    by_cases hpn : next ∈ ps
    · refine Or.inr ⟨mem_dependentsOf.2 ⟨ps, hps, hpn⟩, ?_⟩
      rw [count_dependentsOf h.nodup hps, hinv.counts x ps hps]
      omega
    · rw [List.count_eq_zero_of_not_mem hpn] at hsum
      have hold := (hinv.ready_iff x).2 ((ready_iff_filter h hps).2 ⟨hxd.2, by omega⟩)
      exact Or.inl ((List.mem_cons.1 hold).resolve_left hxd.1)

/-- Popping the first ready node keeps the invariant. -/
theorem LoopInv.pop (h : WellListed nodes) (hkey : Set.InjOn key (nodeSet nodes))
    {done : Finset α} {indegree : α → ℕ} {next : α} {ready : List α}
    (hinv : LoopInv key nodes done indegree (next :: ready)) :
    LoopInv key nodes (insert next done)
      (release key (dependentsOf nodes next) (indegree, ready)).1
      (release key (dependentsOf nodes next) (indegree, ready)).2 := by
  have hnext := (hinv.ready_iff next).1 List.mem_cons_self
  have hnd : next ∉ done := by simpa using hnext.notDone
  have hsorted : SortedIn (nodeSet nodes) key ready :=
    ⟨fun x hx => hinv.sorted.mem x (List.mem_cons_of_mem _ hx),
      (List.pairwise_cons.1 hinv.sorted.sorted).2⟩
  have hsplit := length_filter_notMem_insert hnd
  have hcount : ∀ x, (dependentsOf nodes next).count x ≤ indegree x := by
    intro x
    by_cases hx : x ∈ dependentsOf nodes next
    · obtain ⟨ps, hps, -⟩ := mem_dependentsOf.1 hx
      rw [count_dependentsOf h.nodup hps, hinv.counts x ps hps, hsplit ps]
      omega
    · rw [List.count_eq_zero_of_not_mem hx]
      omega
  have hch : ∀ x ∈ dependentsOf nodes next, x ∈ nodeSet nodes := by
    intro x hx
    obtain ⟨ps, hps, -⟩ := mem_dependentsOf.1 hx
    exact ⟨ps, hps⟩
  obtain ⟨h₁, h₂, h₃⟩ := release_spec hkey hch hsorted hcount
  have hcounts : ∀ x ps, (x, ps) ∈ nodes →
      (release key (dependentsOf nodes next) (indegree, ready)).1 x =
        (ps.filter (· ∉ insert next done)).length := by
    intro x ps hps
    rw [h₁ x, hinv.counts x ps hps, count_dependentsOf h.nodup hps, hsplit ps]
    omega
  refine ⟨hcounts, h₂, fun x => ?_, fun x hx p hp => ?_⟩
  · rw [h₃ x, hinv.ready_pop h]
  · rcases Finset.mem_insert.1 hx with rfl | hx
    · obtain ⟨ps, hps, hpp⟩ := hp
      have := hnext.preds p (h.closed x ps hps p hpp) ⟨ps, hps, hpp⟩
      exact Finset.mem_insert_of_mem (by simpa using this)
    · exact Finset.mem_insert_of_mem (hinv.done_closed x hx p hp)

/-- The loop takes, after `done`, what the smallest-ready-first order takes. -/
theorem LoopInv.greedy (h : WellListed nodes) (hkey : Set.InjOn key (nodeSet nodes))
    {fuel : ℕ} {done : Finset α} {indegree : α → ℕ} {ready : List α}
    (hinv : LoopInv key nodes done indegree ready)
    (hfuel : ((nodes.map Prod.fst).toFinset \ done).card ≤ fuel) :
    Greedy (nodeSet nodes) (WaitsFor nodes) key (done : Set α)
      (kahnLoop key nodes fuel indegree ready) := by
  have hleft : ∀ {done : Finset α} {x : α},
      Ready (nodeSet nodes) (WaitsFor nodes) (done : Set α) x →
        x ∈ (nodes.map Prod.fst).toFinset \ done := by
    intro done x hx
    obtain ⟨ps, hps⟩ := hx.mem
    rw [Finset.mem_sdiff, List.mem_toFinset]
    exact ⟨List.mem_map.2 ⟨_, hps, rfl⟩, by simpa using hx.notDone⟩
  induction fuel generalizing done indegree ready with
  | zero =>
      refine .nil fun x hx => ?_
      have := Finset.card_pos.2 ⟨x, hleft hx⟩
      omega
  | succ fuel ih =>
      cases ready with
      | nil => exact .nil fun x hx => absurd ((hinv.ready_iff x).2 hx) List.not_mem_nil
      | cons next ready =>
          have hnext := (hinv.ready_iff next).1 List.mem_cons_self
          have hcard : ((nodes.map Prod.fst).toFinset \ insert next done).card + 1 =
              ((nodes.map Prod.fst).toFinset \ done).card := by
            rw [Finset.sdiff_insert, Finset.card_erase_add_one (hleft hnext)]
          rw [kahnLoop]
          refine .cons hnext (fun y hy => ?_) ?_
          · rcases List.mem_cons.1 ((hinv.ready_iff y).2 hy) with rfl | hyr
            · exact le_rfl
            · exact ((List.pairwise_cons.1 hinv.sorted.sorted).1 y hyr).le
          · have hgreedy := ih (hinv.pop h hkey) (by omega)
            rwa [Finset.coe_insert] at hgreedy

theorem indegreeOf_eq (h : (nodes.map Prod.fst).Nodup) {x : α} {ps : List α}
    (hx : (x, ps) ∈ nodes) : indegreeOf nodes x = ps.length := by
  induction nodes with
  | nil => simp at hx
  | cons node nodes ih =>
      rw [List.map_cons, List.nodup_cons] at h
      unfold indegreeOf at ih ⊢
      rcases List.mem_cons.1 hx with heq | hx
      · subst heq
        have hnone : nodes.filter (fun node => node.1 = x) = [] := by
          rw [List.filter_eq_nil_iff]
          intro node hnode heq
          exact h.1 (List.mem_map.2 ⟨node, hnode, by simpa using heq⟩)
        rw [List.filter_cons_of_pos (by simp), hnone]
        simp
      · have hne : node.1 ≠ x := fun heq => h.1 (List.mem_map.2 ⟨(x, ps), hx, heq.symm⟩)
        rw [List.filter_cons_of_neg (by simpa using hne)]
        exact ih h.2 hx

/-- **Kahn's algorithm produces the smallest-ready-first order.** -/
theorem kahn_greedy (h : WellListed nodes) (hkey : Set.InjOn key (nodeSet nodes)) :
    Greedy (nodeSet nodes) (WaitsFor nodes) key ∅ (kahn key nodes) := by
  have hready : ∀ l : List (α × List α), (∀ node ∈ l, node ∈ nodes) → ∀ ready,
      SortedIn (nodeSet nodes) key ready →
      SortedIn (nodeSet nodes) key (l.foldl (fun ready node => insertReady key node.1 ready) ready) ∧
        ∀ x, x ∈ l.foldl (fun ready node => insertReady key node.1 ready) ready ↔
          x ∈ ready ∨ x ∈ l.map Prod.fst := by
    intro l
    induction l with
    | nil => exact fun _ ready hs => ⟨hs, by simp⟩
    | cons node l ih =>
        intro hl ready hs
        have hn : node.1 ∈ nodeSet nodes := ⟨node.2, hl node List.mem_cons_self⟩
        obtain ⟨h₁, h₂⟩ := ih (fun x hx => hl x (List.mem_cons_of_mem _ hx)) _
          (hs.insertReady hkey hn)
        refine ⟨h₁, fun x => ?_⟩
        rw [List.foldl_cons, h₂ x, mem_insertReady hkey hn hs.mem, List.map_cons, List.mem_cons]
        tauto
  obtain ⟨hsorted, hmem⟩ := hready (nodes.filter fun node => indegreeOf nodes node.1 = 0)
    (fun node hnode => (List.mem_filter.1 hnode).1) [] ⟨by simp, List.Pairwise.nil⟩
  have hinv : LoopInv key nodes ∅ (indegreeOf nodes) (initialReady key nodes) := by
    refine ⟨fun x ps hps => ?_, hsorted, fun x => ?_, by simp⟩
    · rw [indegreeOf_eq h.nodup hps]
      simp
    · unfold initialReady
      rw [hmem x]
      constructor
      · rintro (hx | hx)
        · simp at hx
        · obtain ⟨⟨y, ps⟩, hy, rfl⟩ := List.mem_map.1 hx
          rw [List.mem_filter, decide_eq_true_eq] at hy
          have hlen := hy.2
          rw [indegreeOf_eq h.nodup hy.1] at hlen
          exact (ready_iff_filter h hy.1).2 ⟨by simp, by simpa using hlen⟩
      · intro hx
        obtain ⟨ps, hps⟩ := hx.mem
        have hlen := ((ready_iff_filter h hps).1 hx).2
        refine Or.inr (List.mem_map.2 ⟨(x, ps), List.mem_filter.2 ⟨hps, ?_⟩, rfl⟩)
        rw [decide_eq_true_eq, indegreeOf_eq h.nodup hps]
        simpa using hlen
  have hfuel : ((nodes.map Prod.fst).toFinset \ ∅).card ≤ nodes.length := by
    have h₁ := List.toFinset_card_le (nodes.map Prod.fst)
    rw [Finset.sdiff_empty]
    simpa using h₁
  have hgreedy := hinv.greedy h hkey hfuel
  rwa [Finset.coe_empty] at hgreedy

end Loop

end FinGraph
