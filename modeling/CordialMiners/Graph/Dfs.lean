/-
# Iterative depth-first search with a postorder action

The loop

    while let Some((node, next)) = stack.last_mut() {
        if next < children(node).len() {
            next += 1; push the child unless it was visited
        } else {
            finish(node); mark node complete; stack.pop()
        }
    }

run from each root of a list that is still unvisited.  `finish` is any action on
some data, so the invariant rule `forest_induction` is about the order of the
`finish` calls alone: every node is finished once, and when a node is finished
its children are finished already, unless a cycle runs below it (`Grounded`
rules that out).
-/

import CordialMiners.Graph.Explore

namespace FinGraph

open Relation

variable {α σ : Type} {children : α → List α} {a b : α}

/-- No infinite path leaves the node. -/
def Grounded (children : α → List α) (a : α) : Prop := Acc (fun y x => y ∈ children x) a

theorem Grounded.of_step (h : Grounded children a) (hb : b ∈ children a) : Grounded children b :=
  h.inv hb

theorem Grounded.of_reach (h : Grounded children a) (hb : Reach children a b) :
    Grounded children b := by
  induction hb with
  | refl => exact h
  | tail _ hc ih => exact ih.of_step hc

/-- No cycle passes through a grounded node. -/
theorem Grounded.irrefl (h : Grounded children a) : ¬ TransGen (Step children) a a := by
  induction h with
  | intro a _ ih =>
      intro haa
      obtain ⟨c, hac, hca⟩ := TransGen.head'_iff.1 haa
      exact ih c hac (TransGen.tail' hca hac)

/-- The mark of a node: not visited, on the stack, or finished. -/
inductive Mark where
  | unvisited
  | onStack
  | complete
deriving DecidableEq, Repr

/-- The state of the search; each stack entry holds the next child to look at. -/
structure Dfs (α σ : Type) where
  state : α → Mark
  stack : List (α × ℕ)
  data : σ

namespace Dfs

variable [DecidableEq α] {finish : α → (α → Mark) → σ → σ}

/-- One round of the inner loop. -/
def step (children : α → List α) (finish : α → (α → Mark) → σ → σ) (s : Dfs α σ) : Dfs α σ :=
  match s.stack with
  | [] => s
  | (node, next) :: rest =>
      match (children node)[next]? with
      | some child =>
          if s.state child = .unvisited then
            { s with
              state := Function.update s.state child .onStack
              stack := (child, 0) :: (node, next + 1) :: rest }
          else { s with stack := (node, next + 1) :: rest }
      | none =>
          { state := Function.update s.state node .complete
            stack := rest
            data := finish node s.state s.data }

/-- The inner loop. -/
def run (children : α → List α) (finish : α → (α → Mark) → σ → σ) : ℕ → Dfs α σ → Dfs α σ
  | 0, s => s
  | fuel + 1, s =>
      match s.stack with
      | [] => s
      | _ :: _ => run children finish fuel (s.step children finish)

/-- The outer loop: search from each root that no earlier search has met. -/
def forest (children : α → List α) (finish : α → (α → Mark) → σ → σ) (fuel : ℕ)
    (roots : List α) (s : Dfs α σ) : Dfs α σ :=
  roots.foldl (fun s root =>
    if s.state root = .unvisited then
      run children finish fuel
        { s with state := Function.update s.state root .onStack, stack := [(root, 0)] }
    else s) s

/-- Every child of every node is looked at once, and every node is finished once. -/
def fuelFor (children : α → List α) (nodes : List α) : ℕ :=
  (nodes.map fun a => (children a).length + 1).sum

/-! ### The invariant -/

/-- The stack is a path, the marks say what is on it, and the children already
looked at have been visited. -/
structure Inv (children : α → List α) (s : Dfs α σ) : Prop where
  onStack : ∀ a, s.state a = .onStack ↔ a ∈ s.stack.map Prod.fst
  nodup : (s.stack.map Prod.fst).Nodup
  path : s.stack.Pairwise fun x y => TransGen (Step children) y.1 x.1
  looked : ∀ e ∈ s.stack, ∀ k < e.2, ∀ c, (children e.1)[k]? = some c → s.state c ≠ .unvisited

/-- The three things a round can do. -/
theorem step_cases (children : α → List α) (finish : α → (α → Mark) → σ → σ) {s : Dfs α σ}
    {node : α} {next : ℕ} {rest : List (α × ℕ)} (hs : s.stack = (node, next) :: rest) :
    (∃ child, (children node)[next]? = some child ∧ s.state child = .unvisited ∧
      s.step children finish =
        { s with
          state := Function.update s.state child .onStack
          stack := (child, 0) :: (node, next + 1) :: rest }) ∨
    (∃ child, (children node)[next]? = some child ∧ s.state child ≠ .unvisited ∧
      s.step children finish = { s with stack := (node, next + 1) :: rest }) ∨
    ((children node)[next]? = none ∧
      s.step children finish =
        { state := Function.update s.state node .complete
          stack := rest
          data := finish node s.state s.data }) := by
  unfold step
  rw [hs]
  cases hc : (children node)[next]? with
  | none => exact Or.inr (Or.inr ⟨rfl, by simp [hc]⟩)
  | some child =>
      by_cases hu : s.state child = .unvisited
      · exact Or.inl ⟨child, rfl, hu, by simp [hc, hu]⟩
      · exact Or.inr (Or.inl ⟨child, rfl, hu, by simp [hc, hu]⟩)

omit [DecidableEq α] in
/-- A list position just looked at joins those looked at before. -/
private theorem looked_succ {state : α → Mark} {node child : α} {next : ℕ}
    (hchild : (children node)[next]? = some child) (hv : state child ≠ .unvisited)
    (h : ∀ k < next, ∀ c, (children node)[k]? = some c → state c ≠ .unvisited) :
    ∀ k < next + 1, ∀ c, (children node)[k]? = some c → state c ≠ .unvisited := by
  intro k hk c hc
  rcases Nat.lt_succ_iff_lt_or_eq.1 hk with hk | rfl
  · exact h k hk c hc
  · rw [hchild] at hc
    obtain rfl := Option.some.inj hc
    exact hv

/-- A visited node stays visited. -/
private theorem update_ne_unvisited {state : α → Mark} {m : Mark} {c : α} (hm : m ≠ .unvisited)
    (h : state c ≠ .unvisited) : Function.update state a m c ≠ .unvisited := by
  by_cases hca : c = a
  · rwa [hca, Function.update_self]
  · rwa [Function.update_of_ne hca]

theorem Inv.step {s : Dfs α σ} (h : Inv children s) : Inv children (s.step children finish) := by
  rcases hs : s.stack with _ | ⟨⟨node, next⟩, rest⟩
  · unfold Dfs.step
    rw [hs]
    exact h
  · have hon := h.onStack
    have hnd := h.nodup
    have hpath := h.path
    have hlook := h.looked
    rw [hs] at hnd hpath hlook
    simp only [hs, List.map_cons, List.mem_cons] at hon
    simp only [List.map_cons, List.nodup_cons] at hnd
    rw [List.pairwise_cons] at hpath
    have htop := hlook (node, next) List.mem_cons_self
    rcases step_cases children finish hs with
      ⟨child, hc, hu, heq⟩ | ⟨child, hc, hv, heq⟩ | ⟨-, heq⟩
    · -- a child is pushed: it was on no stack, and everything below reaches it
      rw [heq]
      have hnew : child ≠ node ∧ child ∉ rest.map Prod.fst := by
        have := (hon child).not.1 (by rw [hu]; decide)
        tauto
      have hvis {c : α} (hcv : s.state c ≠ .unvisited) :
          Function.update s.state child .onStack c ≠ .unvisited :=
        update_ne_unvisited (by decide) hcv
      refine ⟨fun a => ?_, ?_, ?_, fun e he => ?_⟩
      · by_cases hac : a = child
        · subst hac; simp
        · show Function.update s.state child .onStack a = .onStack ↔ _
          rw [Function.update_of_ne hac, hon a]
          simp [hac]
      · simp only [List.map_cons, List.nodup_cons, List.mem_cons, not_or]
        exact ⟨hnew, hnd⟩
      · have hstep : TransGen (Step children) node child :=
          .single (List.mem_of_getElem? hc)
        refine List.pairwise_cons.2 ⟨fun e he => ?_, List.pairwise_cons.2 ⟨?_, hpath.2⟩⟩
        · rcases List.mem_cons.1 he with rfl | he
          · exact hstep
          · exact (hpath.1 e he).trans hstep
        · exact fun e he => hpath.1 e he
      · rcases List.mem_cons.1 he with rfl | he
        · simp
        · rcases List.mem_cons.1 he with rfl | he
          · exact looked_succ hc (by simp) fun k hk c hkc => hvis (htop k hk c hkc)
          · exact fun k hk c hkc => hvis (hlook e (List.mem_cons_of_mem _ he) k hk c hkc)
    · -- the child was visited before: only the position moves
      rw [heq]
      refine ⟨fun a => by simpa using hon a, by simpa using hnd,
        List.pairwise_cons.2 ⟨fun e he => hpath.1 e he, hpath.2⟩, fun e he => ?_⟩
      rcases List.mem_cons.1 he with rfl | he
      · exact looked_succ hc hv htop
      · exact hlook e (List.mem_cons_of_mem _ he)
    · -- the top is finished
      rw [heq]
      refine ⟨fun a => ?_, hnd.2, hpath.2, fun e he k hk c hkc => ?_⟩
      · by_cases han : a = node
        · subst han
          simp only [Function.update_self, reduceCtorEq, false_iff]
          exact hnd.1
        · show Function.update s.state node .complete a = .onStack ↔ _
          rw [Function.update_of_ne han, hon a]
          simp [han]
      · exact update_ne_unvisited (by decide) (hlook e (List.mem_cons_of_mem _ he) k hk c hkc)

omit [DecidableEq α] in
/-- **When a grounded node is finished, its children are.**  A child still on
the stack would lie below the node and above it. -/
theorem Inv.children_complete {s : Dfs α σ} (h : Inv children s) {node : α} {next : ℕ}
    {rest : List (α × ℕ)} (hs : s.stack = (node, next) :: rest)
    (hnext : (children node)[next]? = none) (hg : Grounded children node) :
    ∀ c ∈ children node, s.state c = .complete := by
  intro c hc
  obtain ⟨k, hk, hkc⟩ := List.mem_iff_getElem.1 hc
  have hlen := List.getElem?_eq_none_iff.1 hnext
  have hlook := h.looked (node, next) (by rw [hs]; exact List.mem_cons_self) k (by simp only; omega) c
    (by rw [← hkc]; exact List.getElem?_eq_getElem hk)
  cases hst : s.state c with
  | unvisited => exact absurd hst hlook
  | complete => rfl
  | onStack =>
      exfalso
      have hmem := (h.onStack c).1 hst
      have hpath := h.path
      rw [hs] at hmem hpath
      rw [List.pairwise_cons] at hpath
      obtain ⟨e, he, rfl⟩ := List.mem_map.1 hmem
      rcases List.mem_cons.1 he with rfl | he
      · exact hg.irrefl (.single hc)
      · exact hg.irrefl (.head hc (hpath.1 e he))

/-! ### Enough fuel empties the stack -/

/-- What is left to do on the stack. -/
def stackWork (children : α → List α) (stack : List (α × ℕ)) : ℕ :=
  (stack.map fun e => (children e.1).length - e.2 + 1).sum

/-- What is left to do on the unvisited nodes of a list. -/
def unvisitedWork (children : α → List α) (nodes : List α) (state : α → Mark) : ℕ :=
  (nodes.map fun a => if state a = .unvisited then (children a).length + 1 else 0).sum

theorem unvisitedWork_update_of_not_mem (children : α → List α) {nodes : List α}
    (state : α → Mark) {m : Mark} (ha : a ∉ nodes) :
    unvisitedWork children nodes (Function.update state a m) =
      unvisitedWork children nodes state := by
  unfold unvisitedWork
  congr 1
  refine List.map_congr_left fun x hx => ?_
  rw [Function.update_of_ne (ne_of_mem_of_not_mem hx ha)]

/-- Visiting a node takes its work from the unvisited ones. -/
theorem unvisitedWork_visit (children : α → List α) {nodes : List α} (hnd : nodes.Nodup) (ha : a ∈ nodes)
    {state : α → Mark} (hu : state a = .unvisited) {m : Mark} (hm : m ≠ .unvisited) :
    unvisitedWork children nodes (Function.update state a m) + ((children a).length + 1) =
      unvisitedWork children nodes state := by
  induction nodes with
  | nil => simp at ha
  | cons x nodes ih =>
      rw [List.nodup_cons] at hnd
      by_cases hxa : x = a
      · subst hxa
        have hrest := unvisitedWork_update_of_not_mem children state (m := m) hnd.1
        unfold unvisitedWork at hrest ⊢
        simp only [List.map_cons, List.sum_cons, Function.update_self, if_neg hm, if_pos hu, hrest]
        omega
      · have hrest := ih hnd.2 ((List.mem_cons.1 ha).resolve_left (Ne.symm hxa))
        unfold unvisitedWork at hrest ⊢
        simp only [List.map_cons, List.sum_cons, Function.update_of_ne hxa]
        omega

theorem unvisitedWork_update_of_visited {nodes : List α} {state : α → Mark} {m : Mark}
    (ha : state a ≠ .unvisited) (hm : m ≠ .unvisited) :
    unvisitedWork children nodes (Function.update state a m) =
      unvisitedWork children nodes state := by
  unfold unvisitedWork
  congr 1
  refine List.map_congr_left fun x _ => ?_
  by_cases hxa : x = a
  · subst hxa
    simp [hm, ha]
  · rw [Function.update_of_ne hxa]

/-- Every round does one unit of the remaining work. -/
theorem work_step (finish : α → (α → Mark) → σ → σ) {nodes : List α} (hnd : nodes.Nodup)
    (hcl : ∀ a, ∀ c ∈ children a, c ∈ nodes)
    {s : Dfs α σ} (h : Inv children s) (hs : s.stack ≠ []) :
    stackWork children (s.step children finish).stack +
        unvisitedWork children nodes (s.step children finish).state + 1 ≤
      stackWork children s.stack + unvisitedWork children nodes s.state := by
  rcases hst : s.stack with _ | ⟨⟨node, next⟩, rest⟩
  · exact absurd hst hs
  · rcases step_cases children finish hst with
      ⟨child, hc, hu, heq⟩ | ⟨child, hc, -, heq⟩ | ⟨hc, heq⟩
    · have hlt := (List.getElem?_eq_some_iff.1 hc).1
      have hvisit := unvisitedWork_visit children hnd
        (hcl node child (List.mem_of_getElem? hc)) hu (m := .onStack) (by decide)
      rw [heq]
      simp only [stackWork, List.map_cons, List.sum_cons]
      omega
    · have hlt := (List.getElem?_eq_some_iff.1 hc).1
      rw [heq]
      simp only [stackWork, List.map_cons, List.sum_cons]
      omega
    · have hon : s.state node = .onStack := (h.onStack node).2 (by rw [hst]; simp)
      rw [heq]
      simp only [stackWork, List.map_cons, List.sum_cons]
      rw [unvisitedWork_update_of_visited (by rw [hon]; decide) (by decide)]
      omega

/-! ### The invariant rule -/

/-- What holds of the finished nodes and the data: `P` is kept by finishing a
node whose children, if no cycle runs below it, are finished. -/
def FinishKeeps (children : α → List α) (finish : α → (α → Mark) → σ → σ)
    (P : Set α → σ → Prop) : Prop :=
  ∀ (state : α → Mark) (node : α) (data : σ), state node = .onStack →
    P {a | state a = .complete} data →
    (Grounded children node → ∀ c ∈ children node, state c = .complete) →
    P (insert node {a | state a = .complete}) (finish node state data)

private theorem complete_update {state : α → Mark} {node : α} :
    {a | Function.update state node .complete a = .complete} =
      insert node {a | state a = .complete} := by
  ext a
  by_cases han : a = node
  · subst han; simp
  · simp [han]

private theorem complete_update_onStack {state : α → Mark} {node : α}
    (hn : state node ≠ .complete) :
    {a | Function.update state node .onStack a = .complete} = {a | state a = .complete} := by
  ext a
  by_cases han : a = node
  · subst han; simpa using hn
  · simp [Function.update_of_ne han]

theorem step_keeps {P : Set α → σ → Prop} (hP : FinishKeeps children finish P) {s : Dfs α σ}
    (h : Inv children s) (hs : P {a | s.state a = .complete} s.data) :
    P {a | (s.step children finish).state a = .complete} (s.step children finish).data := by
  rcases hst : s.stack with _ | ⟨⟨node, next⟩, rest⟩
  · unfold step
    rw [hst]
    exact hs
  · rcases step_cases children finish hst with
      ⟨child, -, hu, heq⟩ | ⟨child, -, -, heq⟩ | ⟨hc, heq⟩
    · rw [heq]
      simp only [complete_update_onStack (by rw [hu]; decide : s.state child ≠ .complete)]
      exact hs
    · rw [heq]
      exact hs
    · rw [heq]
      simp only [complete_update]
      exact hP s.state node s.data ((h.onStack node).2 (by rw [hst]; simp)) hs
        (h.children_complete hst hc)

/-- Once visited, a node stays visited. -/
theorem step_visited {s : Dfs α σ} (ha : s.state a ≠ .unvisited) :
    (s.step children finish).state a ≠ .unvisited := by
  rcases hst : s.stack with _ | ⟨⟨node, next⟩, rest⟩
  · unfold step
    rw [hst]
    exact ha
  · rcases step_cases children finish hst with
      ⟨child, -, -, heq⟩ | ⟨child, -, -, heq⟩ | ⟨-, heq⟩
    · rw [heq]
      by_cases hac : a = child
      · subst hac; simp
      · simpa [Function.update_of_ne hac] using ha
    · rw [heq]
      exact ha
    · rw [heq]
      by_cases han : a = node
      · subst han; simp
      · simpa [Function.update_of_ne han] using ha

/-- **A search with enough fuel empties its stack** and keeps the invariants. -/
theorem run_spec {nodes : List α} (hnd : nodes.Nodup) (hcl : ∀ a, ∀ c ∈ children a, c ∈ nodes)
    {P : Set α → σ → Prop} (hP : FinishKeeps children finish P) {fuel : ℕ} {s : Dfs α σ}
    (h : Inv children s) (hs : P {a | s.state a = .complete} s.data)
    (hfuel : stackWork children s.stack + unvisitedWork children nodes s.state ≤ fuel) :
    (run children finish fuel s).stack = [] ∧ Inv children (run children finish fuel s) ∧
      P {a | (run children finish fuel s).state a = .complete} (run children finish fuel s).data ∧
      ∀ a, s.state a ≠ .unvisited → (run children finish fuel s).state a ≠ .unvisited := by
  induction fuel generalizing s with
  | zero =>
      rcases hst : s.stack with _ | ⟨e, rest⟩
      · exact ⟨hst, h, hs, fun _ ha => ha⟩
      · rw [hst] at hfuel
        simp [stackWork] at hfuel
  | succ fuel ih =>
      rw [run]
      rcases hst : s.stack with _ | ⟨e, rest⟩
      · exact ⟨hst, h, hs, fun _ ha => ha⟩
      · have hwork := work_step finish hnd hcl h (by rw [hst]; simp)
        obtain ⟨h₁, h₂, h₃, h₄⟩ := ih h.step (step_keeps hP h hs) (by omega)
        exact ⟨h₁, h₂, h₃, fun a ha => h₄ a (step_visited ha)⟩

/-- Between two roots the stack is empty: what is visited is finished. -/
structure Between (children : α → List α) (P : Set α → σ → Prop) (s : Dfs α σ) : Prop where
  stack : s.stack = []
  inv : Inv children s
  keeps : P {a | s.state a = .complete} s.data

omit [DecidableEq α] in
theorem Between.complete {P : Set α → σ → Prop} {s : Dfs α σ} (h : Between children P s) {a : α}
    (ha : s.state a ≠ .unvisited) : s.state a = .complete := by
  have hoff := (h.inv.onStack a).not.2 (by simp [h.stack])
  cases hst : s.state a with
  | unvisited => exact absurd hst ha
  | onStack => exact absurd hst hoff
  | complete => rfl

omit [DecidableEq α] in
theorem Between.init {P : Set α → σ → Prop} {data : σ} (h₀ : P ∅ data) :
    Between children P { state := fun _ => .unvisited, stack := [], data := data } := by
  refine ⟨rfl, ⟨fun a => ?_, List.nodup_nil, List.Pairwise.nil, fun e he => ?_⟩, by simpa using h₀⟩
  · simp
  · exact absurd he List.not_mem_nil

/-- The search from a root that is not visited yet. -/
theorem Between.run {nodes : List α} (hnd : nodes.Nodup) (hcl : ∀ a, ∀ c ∈ children a, c ∈ nodes)
    {P : Set α → σ → Prop} (hP : FinishKeeps children finish P) {s : Dfs α σ} {root : α}
    (h : Between children P s) (hroot : root ∈ nodes) (hu : s.state root = .unvisited) :
    let out := Dfs.run children finish (fuelFor children nodes)
      { s with state := Function.update s.state root .onStack, stack := [(root, 0)] }
    Between children P out ∧ out.state root ≠ .unvisited ∧
      ∀ a, s.state a ≠ .unvisited → out.state a ≠ .unvisited := by
  have hinv : Inv children
      { s with state := Function.update s.state root .onStack, stack := [(root, 0)] } := by
    refine ⟨fun a => ?_, by simp, by simp, by simp⟩
    by_cases har : a = root
    · subst har; simp
    · have := (h.inv.onStack a).not.2 (by simp [h.stack])
      simp [har, this]
  have hbound : unvisitedWork children nodes s.state ≤ fuelFor children nodes := by
    unfold unvisitedWork fuelFor
    refine List.sum_le_sum fun a _ => ?_
    split_ifs <;> omega
  have hwork : stackWork children [(root, 0)] +
      unvisitedWork children nodes (Function.update s.state root .onStack) ≤
        fuelFor children nodes := by
    have hvisit := unvisitedWork_visit children hnd hroot hu (m := .onStack) (by decide)
    simp only [stackWork, List.map_cons, List.map_nil, List.sum_cons, List.sum_nil]
    omega
  have hkeeps : P {a | Function.update s.state root .onStack a = .complete} s.data := by
    rw [complete_update_onStack (by rw [hu]; decide)]
    exact h.keeps
  obtain ⟨hstack, hinv', hkeeps', hvisited⟩ := run_spec hnd hcl hP hinv hkeeps hwork
  refine ⟨⟨hstack, hinv', hkeeps'⟩, hvisited root (by simp), fun a ha => hvisited a ?_⟩
  by_cases har : a = root
  · subst har; simp
  · simpa [Function.update_of_ne har] using ha

/-- The searches from all roots. -/
theorem Between.forest {nodes : List α} (hnd : nodes.Nodup)
    (hcl : ∀ a, ∀ c ∈ children a, c ∈ nodes) {P : Set α → σ → Prop}
    (hP : FinishKeeps children finish P) {roots : List α} (hroots : ∀ r ∈ roots, r ∈ nodes)
    {s : Dfs α σ} (h : Between children P s) :
    let out := Dfs.forest children finish (fuelFor children nodes) roots s
    Between children P out ∧ (∀ r ∈ roots, out.state r ≠ .unvisited) ∧
      ∀ a, s.state a ≠ .unvisited → out.state a ≠ .unvisited := by
  unfold Dfs.forest
  induction roots generalizing s with
  | nil => exact ⟨h, by simp, fun _ ha => ha⟩
  | cons root roots ih =>
      have hrest : ∀ r ∈ roots, r ∈ nodes := fun r hr => hroots r (List.mem_cons_of_mem _ hr)
      rw [List.foldl_cons]
      split_ifs with hu
      · obtain ⟨hroot, hvisited, hkept⟩ := h.run hnd hcl hP (hroots root List.mem_cons_self) hu
        obtain ⟨hall, hvisited', hkept'⟩ := ih hrest hroot
        exact ⟨hall, List.forall_mem_cons.2 ⟨hkept' root hvisited, hvisited'⟩,
          fun a ha => hkept' a (hkept a ha)⟩
      · obtain ⟨hall, hvisited, hkept⟩ := ih hrest h
        exact ⟨hall, List.forall_mem_cons.2 ⟨hkept root hu, hvisited⟩, hkept⟩

/-- **The invariant rule of the search.**  Starting from nothing visited, with
the fuel for all nodes, every root is finished at the end and `P` holds of the
finished nodes and the data. -/
theorem forest_induction {nodes : List α} (hnd : nodes.Nodup)
    (hcl : ∀ a, ∀ c ∈ children a, c ∈ nodes) {P : Set α → σ → Prop}
    (hP : FinishKeeps children finish P) {data : σ} (h₀ : P ∅ data) :
    ∃ C : Set α, (∀ a ∈ nodes, a ∈ C) ∧
      P C (forest children finish (fuelFor children nodes) nodes
        { state := fun _ => .unvisited, stack := [], data := data }).data := by
  obtain ⟨hout, hvisited, -⟩ := (Between.init h₀).forest hnd hcl hP (fun _ hr => hr)
  exact ⟨_, fun a ha => hout.complete (hvisited a ha), hout.keeps⟩

/-! ### Two searches over related data -/

section Related

variable {τ : Type} {finish' : α → (α → Mark) → τ → τ} {R : σ → τ → Prop}

/-- The same marks, the same stack and related data. -/
structure Related (R : σ → τ → Prop) (s : Dfs α σ) (t : Dfs α τ) : Prop where
  state : s.state = t.state
  stack : s.stack = t.stack
  data : R s.data t.data

theorem Related.step
    (hR : ∀ node state d d', R d d' → R (finish node state d) (finish' node state d'))
    {s : Dfs α σ} {t : Dfs α τ} (h : Related R s t) :
    Related R (s.step children finish) (t.step children finish') := by
  obtain ⟨state, stack, d⟩ := s
  obtain ⟨state', stack', d'⟩ := t
  obtain ⟨rfl, rfl, hd⟩ := h
  unfold Dfs.step
  rcases stack with _ | ⟨⟨node, next⟩, rest⟩
  · exact ⟨rfl, rfl, hd⟩
  · simp only
    cases (children node)[next]? with
    | none => exact ⟨rfl, rfl, hR node state d d' hd⟩
    | some child =>
        simp only
        split_ifs with hu
        · exact ⟨rfl, rfl, hd⟩
        · exact ⟨rfl, rfl, hd⟩

theorem Related.run
    (hR : ∀ node state d d', R d d' → R (finish node state d) (finish' node state d'))
    (fuel : ℕ) {s : Dfs α σ} {t : Dfs α τ} (h : Related R s t) :
    Related R (Dfs.run children finish fuel s) (Dfs.run children finish' fuel t) := by
  induction fuel generalizing s t with
  | zero => exact h
  | succ fuel ih =>
      rw [Dfs.run, Dfs.run, ← h.stack]
      cases s.stack with
      | nil => exact h
      | cons _ _ => exact ih (h.step hR)

/-- **The data of a search does not steer it:** related actions on related data
leave related data. -/
theorem Related.forest
    (hR : ∀ node state d d', R d d' → R (finish node state d) (finish' node state d'))
    (fuel : ℕ) (roots : List α) {s : Dfs α σ} {t : Dfs α τ} (h : Related R s t) :
    Related R (Dfs.forest children finish fuel roots s)
      (Dfs.forest children finish' fuel roots t) := by
  unfold Dfs.forest
  induction roots generalizing s t with
  | nil => exact h
  | cons root roots ih =>
      rw [List.foldl_cons, List.foldl_cons]
      refine ih ?_
      rw [← h.state]
      split_ifs with hu
      · exact Related.run hR fuel ⟨rfl, rfl, h.data⟩
      · exact h

end Related

end Dfs

end FinGraph
