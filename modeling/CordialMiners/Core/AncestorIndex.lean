/-
# The ancestor index

`crates/cordial-miners-core/src/ancestor_index.rs`.

`Closure.build` fills a bit matrix, row `i` holding the nodes that node `i`
observes, by an iterative depth-first search; the words of a row are kept here
as one natural number, and the rows that have been written as a list, the last
write first.  Every bit is a path (`observes_sound`), and below a node
without cycles every path is a bit (`observes_complete`).  `AncestorIndex.build`
numbers the stored blocks, resolves their references and lists, for each block,
the blocks of its creator it is incomparable with; `AncestorIndex.approves` then
evaluates Definition 18 (`approves_iff`).
-/

import CordialMiners.Core.Round
import CordialMiners.Graph.Dfs

namespace CordialMiners

open FinGraph Relation

theorem eq_singleton_iff_of_nodup {α : Type} {l : List α} {x : α} (hnd : l.Nodup) :
    l = [x] ↔ x ∈ l ∧ ∀ y ∈ l, y = x := by
  rw [← List.perm_singleton, List.perm_ext_iff_of_nodup hnd (List.nodup_singleton x)]
  simp only [List.mem_singleton]
  exact ⟨fun h => ⟨(h x).2 rfl, fun y => (h y).1⟩, fun ⟨hx, h⟩ y => ⟨h y, fun hy => hy ▸ hx⟩⟩

/-! ### The bit matrix -/

/-- Row `i` is the set of nodes that node `i` observes, as a bit mask. -/
structure Closure where
  size : ℕ
  bits : List (ℕ × ℕ)

namespace Closure

/-- The row of a node, `0` until it is written. -/
def row (bits : List (ℕ × ℕ)) (node : ℕ) : ℕ := (bits.lookup node).getD 0

theorem row_cons_self (bits : List (ℕ × ℕ)) (node value : ℕ) :
    row ((node, value) :: bits) node = value := by
  rw [row, List.lookup_cons_self, Option.getD_some]

theorem row_cons_of_ne {x node : ℕ} (h : x ≠ node) (bits : List (ℕ × ℕ)) (value : ℕ) :
    row ((node, value) :: bits) x = row bits x := by
  rw [row, List.lookup_cons, show (x == node) = false by simpa using h, row]

/-- The nodes the search goes to from `node`: none where it stops. -/
def children (preds : List (List ℕ)) (stop : List Bool) (node : ℕ) : List ℕ :=
  if stop.getD node false then [] else preds.getD node []

/-- Complete the row of `node`: its own bit and the rows of its finished children. -/
def finishRow (preds : List (List ℕ)) (stop : List Bool) (node : ℕ) (state : ℕ → Mark)
    (bits : List (ℕ × ℕ)) : List (ℕ × ℕ) :=
  (node,
    (children preds stop node).foldl
      (fun acc child =>
        if state child = .complete ∧ child ≠ node then acc ||| row bits child else acc)
      (row bits node ||| 1 <<< node)) :: bits

/-- The closure of every node. -/
def build (preds : List (List ℕ)) (stop : List Bool) : Closure where
  size := preds.length
  bits :=
    (Dfs.forest (children preds stop) (finishRow preds stop)
      (Dfs.fuelFor (children preds stop) (List.range preds.length)) (List.range preds.length)
      { state := fun _ => .unvisited, stack := [], data := [] }).data

/-- `b` is in the closure of `a`. -/
def observes (c : Closure) (a b : ℕ) : Bool := (row c.bits a).testBit b

/-- The number of bits of a row. -/
def count (c : Closure) (a : ℕ) : ℕ := (List.range c.size).countP (c.observes a)

/-- Order the members by closure size, ties by index. -/
def sortMembers (c : Closure) (members : List ℕ) : List ℕ :=
  members.insertionSort fun x y => c.count x < c.count y ∨ (c.count x = c.count y ∧ x ≤ y)

/-- Every neighbouring pair of the sorted members is comparable. -/
def isChain (c : Closure) (sorted : List ℕ) : Bool :=
  (sorted.zip sorted.tail).all fun pair => pair.1 ≠ pair.2 && c.observes pair.2 pair.1

/-- For each member the other members it is incomparable with, if there are any. -/
def incomparablePairs (c : Closure) (members : List ℕ) : List (ℕ × List ℕ) :=
  (members.map fun a =>
      (a, members.filter fun b => b ≠ a && !c.observes a b && !c.observes b a)).filter
    fun row => row.2 ≠ []

variable {preds : List (List ℕ)} {stop : List Bool} {a b : ℕ}

private theorem testBit_foldl_or {p : ℕ → Prop} [DecidablePred p] {bits : ℕ → ℕ} {l : List ℕ}
    {r₀ : ℕ} :
    (l.foldl (fun row c => if p c then row ||| bits c else row) r₀).testBit b = true ↔
      r₀.testBit b = true ∨ ∃ c ∈ l, p c ∧ (bits c).testBit b = true := by
  induction l generalizing r₀ with
  | nil => simp
  | cons c l ih =>
      rw [List.foldl_cons, ih]
      split_ifs with hc
      · rw [Nat.testBit_or, Bool.or_eq_true]
        simp [hc, or_assoc]
      · simp [hc]

/-- Every bit of every row is a path, and the rows of the finished nodes below
which no cycle runs hold every path. -/
private def RowsRight (preds : List (List ℕ)) (stop : List Bool) (C : Set ℕ)
    (bits : List (ℕ × ℕ)) : Prop :=
  (∀ a b, (row bits a).testBit b = true → Reach (children preds stop) a b) ∧
    ∀ a ∈ C, Grounded (children preds stop) a →
      ∀ b, Reach (children preds stop) a b → (row bits a).testBit b = true

private theorem finishRow_keeps :
    Dfs.FinishKeeps (children preds stop) (finishRow preds stop) (RowsRight preds stop) := by
  rintro state node bits hon ⟨hsound, hcomp⟩ hch
  have hrow : ∀ b, (row (finishRow preds stop node state bits) node).testBit b = true ↔
      ((row bits node).testBit b = true ∨ node = b) ∨
        ∃ c ∈ children preds stop node, (state c = .complete ∧ c ≠ node) ∧
          (row bits c).testBit b = true := by
    intro b
    unfold finishRow
    rw [row_cons_self, testBit_foldl_or, Nat.testBit_or, Bool.or_eq_true, Nat.one_shiftLeft,
      Nat.testBit_two_pow, decide_eq_true_eq]
  have hother : ∀ x, x ≠ node → row (finishRow preds stop node state bits) x = row bits x :=
    fun x hx => row_cons_of_ne hx _ _
  constructor
  · intro a b hab
    by_cases han : a = node
    · subst han
      rcases (hrow b).1 hab with (h | rfl) | ⟨c, hc, -, hcb⟩
      · exact hsound a b h
      · exact ReflTransGen.refl
      · exact ReflTransGen.head hc (hsound c b hcb)
    · rw [hother a han] at hab
      exact hsound a b hab
  · intro a ha hg b hab
    by_cases han : a = node
    · subst han
      rw [hrow]
      rcases ReflTransGen.cases_head hab with rfl | ⟨c, hc, hcb⟩
      · exact Or.inl (Or.inr rfl)
      · have hcc := hch hg c hc
        refine Or.inr ⟨c, hc, ⟨hcc, ?_⟩, hcomp c hcc (hg.of_step hc) b hcb⟩
        rintro rfl
        exact hg.irrefl (.single hc)
    · rw [hother a han]
      exact hcomp a ((Set.mem_insert_iff.1 ha).resolve_left han) hg b hab

/-- The search stays among the nodes. -/
theorem children_lt (hpreds : ∀ l ∈ preds, ∀ c ∈ l, c < preds.length)
    (h : b ∈ children preds stop a) : b < preds.length := by
  unfold children at h
  split_ifs at h
  · exact absurd h List.not_mem_nil
  · rw [List.getD_eq_getElem?_getD] at h
    cases hl : preds[a]? with
    | none => simp [hl] at h
    | some l =>
        rw [hl] at h
        exact hpreds l (List.mem_of_getElem? hl) b h

private theorem rowsRight_build (stop : List Bool) (hpreds : ∀ l ∈ preds, ∀ c ∈ l, c < preds.length) :
    ∃ C : Set ℕ, (∀ a ∈ List.range preds.length, a ∈ C) ∧
      RowsRight preds stop C (build preds stop).bits := by
  refine Dfs.forest_induction List.nodup_range ?_ finishRow_keeps
    ⟨by simp [row], by simp⟩
  exact fun a c hc => List.mem_range.2 (children_lt hpreds hc)

/-- **Every bit is a path.** -/
theorem observes_sound (hpreds : ∀ l ∈ preds, ∀ c ∈ l, c < preds.length)
    (h : (build preds stop).observes a b = true) : Reach (children preds stop) a b := by
  obtain ⟨C, -, hsound, -⟩ := rowsRight_build stop hpreds
  exact hsound a b h

/-- **Every path below a node without cycles is a bit.** -/
theorem observes_complete (hpreds : ∀ l ∈ preds, ∀ c ∈ l, c < preds.length)
    (ha : a < preds.length) (hg : Grounded (children preds stop) a)
    (h : Reach (children preds stop) a b) : (build preds stop).observes a b = true := by
  obtain ⟨C, hC, -, hcomp⟩ := rowsRight_build stop hpreds
  exact hcomp a (hC a (List.mem_range.2 ha)) hg b h

/-- Along a chain every later member reaches every earlier one. -/
theorem pairwise_of_isChain {R : ℕ → ℕ → Prop} (htrans : ∀ {x y z}, R x y → R y z → R x z)
    {c : Closure} (hR : ∀ a b, c.observes a b = true → R a b) {sorted : List ℕ} (h : c.isChain sorted = true) :
    sorted.Pairwise fun x y => R y x := by
  induction sorted with
  | nil => exact .nil
  | cons x l ih =>
      cases l with
      | nil => simp
      | cons y l =>
          simp only [isChain, List.tail_cons, List.zip_cons_cons, List.all_cons,
            Bool.and_eq_true] at h
          have hl : (y :: l).Pairwise fun x y => R y x := ih (by simpa [isChain] using h.2)
          have hyx : R y x := hR y x h.1.2
          refine List.pairwise_cons.2 ⟨fun z hz => ?_, hl⟩
          rcases List.mem_cons.1 hz with rfl | hz
          · exact hyx
          · exact htrans ((List.pairwise_cons.1 hl).1 z hz) hyx

private theorem lookup_rows {f : ℕ → List ℕ} {l : List ℕ} :
    (((l.map fun a => (a, f a)).filter fun row => row.2 ≠ []).lookup a).getD [] =
      if a ∈ l then f a else [] := by
  induction l with
  | nil => simp
  | cons x l ih =>
      rw [List.map_cons]
      by_cases hx : f x = []
      · rw [List.filter_cons_of_neg (by simpa using hx), ih]
        by_cases hxa : a = x
        · subst hxa
          simp [hx]
        · simp [hxa]
      · rw [List.filter_cons_of_pos (by simpa using hx), List.lookup_cons]
        by_cases hxa : a = x
        · subst hxa
          simp
        · rw [show (a == x) = false by simpa using hxa]
          simp only [ih, List.mem_cons, hxa, false_or]

/-- What the conflict row of a node holds. -/
theorem mem_incomparablePairs {c : Closure} {members : List ℕ} :
    b ∈ ((c.incomparablePairs members).lookup a).getD [] ↔
      a ∈ members ∧ b ∈ members ∧ b ≠ a ∧ c.observes a b = false ∧ c.observes b a = false := by
  unfold incomparablePairs
  rw [lookup_rows]
  split_ifs with ha
  · simp [ha, and_assoc]
  · simp [ha]

end Closure

/-! ### Looking references up by hash and creator -/

/-- The map of a list of keyed values that keeps the keys met once and blanks
those met again. -/
def uniqueIndex {κ ι : Type} [DecidableEq κ] (l : List (κ × ι)) : AList fun _ : κ => Option ι :=
  l.foldl (fun index entry =>
    if entry.1 ∈ index then index.insert entry.1 none
    else index.insert entry.1 (some entry.2)) ∅

/-- What a key finds in the index, from its entries and from what it found before. -/
def uniqueFound {κ ι : Type} : List (κ × ι) → Option (Option ι) → Option (Option ι)
  | [], found => found
  | [entry], none => some (some entry.2)
  | _, _ => some none

/-- **A key finds its value exactly when it was met once.** -/
theorem lookup_uniqueIndex {κ ι : Type} [DecidableEq κ] {l : List (κ × ι)} {k : κ} {i : ι} :
    (uniqueIndex l).lookup k = some (some i) ↔ l.filter (fun entry => entry.1 = k) = [(k, i)] := by
  have hfold : ∀ (l : List (κ × ι)) (index : AList fun _ : κ => Option ι),
      (l.foldl (fun index entry =>
        if entry.1 ∈ index then index.insert entry.1 none
        else index.insert entry.1 (some entry.2)) index).lookup k =
      uniqueFound (l.filter fun entry => entry.1 = k) (index.lookup k) := by
    intro l
    induction l with
    | nil => simp [uniqueFound]
    | cons e l ih =>
        intro index
        rw [List.foldl_cons, ih]
        by_cases hek : e.1 = k
        · subst hek
          rw [List.filter_cons_of_pos (by simp)]
          split_ifs with hmem
          · obtain ⟨o, ho⟩ := Option.isSome_iff_exists.1 (AList.lookup_isSome.2 hmem)
            rw [AList.lookup_insert, ho]
            generalize l.filter _ = found
            rcases found with _ | ⟨x, _ | ⟨y, t⟩⟩ <;> rfl
          · rw [AList.lookup_insert, AList.lookup_eq_none.2 hmem]
            generalize l.filter _ = found
            rcases found with _ | ⟨x, _ | ⟨y, t⟩⟩ <;> rfl
        · rw [List.filter_cons_of_neg (by simpa using hek)]
          split_ifs with hmem <;> rw [AList.lookup_insert_ne (Ne.symm hek)]
  unfold uniqueIndex
  rw [hfold, AList.lookup_empty]
  have hkey : ∀ x ∈ l.filter fun entry => entry.1 = k, x.1 = k := fun x hx => by
    simpa using (List.mem_filter.1 hx).2
  generalize l.filter (fun entry => decide (entry.1 = k)) = found at hkey ⊢
  rcases found with _ | ⟨x, _ | ⟨y, t⟩⟩
  · simp [uniqueFound]
  · obtain rfl := hkey x List.mem_cons_self
    simp [uniqueFound, Prod.ext_iff]
  · simp [uniqueFound]

/-! ### The index of a blocklace -/

/-- Generation-stamped ancestor index over a blocklace. -/
structure AncestorIndex where
  generation : ℕ
  ids : List BlockIdentity
  closure : Closure
  /-- For every block with incomparable blocks of the same creator, those blocks. -/
  conflicts : List (ℕ × List ℕ)

namespace AncestorIndex

/-- Resolve a reference to a node, as `Blocklace::resolve_identity` does. -/
def resolve (ids : List BlockIdentity) (reference : BlockIdentity) : Option ℕ :=
  match ids.idxOf? reference with
  | some i => some i
  | none =>
      if reference.signature ≠ [] then none
      else
        ((uniqueIndex (ids.zipIdx.map fun entry =>
          ((entry.1.contentHash, entry.1.creator), entry.2))).lookup
            (reference.contentHash, reference.creator)).join

/-- The predecessor nodes of each block. -/
def predsOf (B : Blocklace) : List (List ℕ) :=
  B.blocks.entries.map fun entry => entry.2.predecessors.filterMap (resolve B.dom)

/-- Where the search stops. -/
def stopOf (B : Blocklace) : List Bool := B.dom.map B.isCheckpointBoundary

/-- The nodes of one creator. -/
def membersOf (ids : List BlockIdentity) (creator : NodeId) : List ℕ :=
  (ids.zipIdx.filter fun entry => entry.1.creator = creator).map Prod.snd

/-- The conflicts of one creator; a chain has none. -/
def conflictsOf (closure : Closure) (members : List ℕ) : List (ℕ × List ℕ) :=
  if members.length > 1 ∧ closure.isChain (closure.sortMembers members) = false then
    closure.incomparablePairs (closure.sortMembers members)
  else []

/-- The index of a blocklace. -/
def build (B : Blocklace) : AncestorIndex :=
  let closure := Closure.build (predsOf B) (stopOf B)
  { generation := B.generation
    ids := B.dom
    closure := closure
    conflicts := B.allNodes.flatMap fun creator => conflictsOf closure (membersOf B.dom creator) }

/-- Index of a stored identity. -/
def indexOf (index : AncestorIndex) (id : BlockIdentity) : Option ℕ := index.ids.idxOf? id

/-- Definition 18 on nodes. -/
def approves (index : AncestorIndex) (observer target : ℕ) : Bool :=
  index.closure.observes observer target &&
    match index.conflicts.lookup target with
    | none => true
    | some siblings => !siblings.any fun sibling => index.closure.observes observer sibling

/-! ### Nodes and blocks -/

section Nodes

variable {B : Blocklace} {i j : ℕ} {a b id : BlockIdentity} {d : ℕ}

private theorem dom_nodup (B : Blocklace) : B.dom.Nodup := B.blocks.nodupKeys

private theorem node_inj (hi : B.dom[i]? = some a) (hj : B.dom[j]? = some a) : i = j :=
  (List.getElem?_inj (List.getElem?_eq_some_iff.1 hi).1 (dom_nodup B)).1 (hi.trans hj.symm)

private theorem mem_of_node (hi : B.dom[i]? = some a) : a ∈ B.blocks :=
  AList.mem_keys.2 (List.mem_of_getElem? hi)

private theorem exists_node (ha : a ∈ B.blocks) : ∃ i : ℕ, B.dom[i]? = some a :=
  List.getElem?_of_mem (AList.mem_keys.1 ha)

theorem idxOf_dom_iff : B.dom.idxOf? a = some i ↔ B.dom[i]? = some a := by
  constructor
  · intro h
    obtain ⟨hi, hia, -⟩ := List.idxOf?_eq_some_iff.1 h
    rw [List.getElem?_eq_getElem hi, hia]
  · intro h
    have ha : a ∈ B.dom := List.mem_of_getElem? h
    cases hk : B.dom.idxOf? a with
    | none => exact absurd ha (List.idxOf?_eq_none_iff.1 hk)
    | some k =>
        obtain ⟨hlt, hka, -⟩ := List.idxOf?_eq_some_iff.1 hk
        have hk' : B.dom[k]? = some a := by rw [List.getElem?_eq_getElem hlt, hka]
        rw [node_inj hk' h]

/-- The index resolves references as the blocklace does. -/
theorem resolve_iff :
    resolve B.dom id = some i ↔ ∃ r, B.resolveIdentity id = some r ∧ B.dom[i]? = some r := by
  unfold resolve
  cases hk : B.dom.idxOf? id with
  | some k =>
      have hid := idxOf_dom_iff.1 hk
      simp only [Option.some.injEq, Blocklace.resolveIdentity_of_mem (mem_of_node hid),
        exists_eq_left']
      exact ⟨fun h => h ▸ hid, fun h => node_inj hid h⟩
  | none =>
      have hid : id ∉ B.blocks := fun h =>
        (List.idxOf?_eq_none_iff.1 hk) (AList.mem_keys.1 h)
      simp only
      split_ifs with hsig
      · simp only [false_iff, not_exists, not_and]
        intro r hr
        rcases (Blocklace.resolveIdentity_eq_some_iff.1 hr).2.2 with rfl | h
        · exact absurd (Blocklace.resolveIdentity_mem hr) hid
        · exact absurd h hsig
      · rw [Option.join_eq_some_iff, lookup_uniqueIndex]
        constructor
        · intro h
          have hmem : ((id.contentHash, id.creator), i) ∈
              (B.dom.zipIdx.map fun entry =>
                ((entry.1.contentHash, entry.1.creator), entry.2)) :=
            (List.mem_filter.1 (by rw [h]; exact List.mem_singleton_self _)).1
          obtain ⟨⟨r, k⟩, hr, hrk⟩ := List.mem_map.1 hmem
          simp only [Prod.mk.injEq] at hrk
          obtain ⟨⟨hh, hc⟩, rfl⟩ := hrk
          have hr' := List.mk_mem_zipIdx_iff_getElem?.1 hr
          exact ⟨r, Blocklace.resolveIdentity_eq_some_iff.2 ⟨mem_of_node hr',
            BlockIdentity.consensusIdentity_eq_iff.2 ⟨hh.symm, hc.symm⟩, Or.inr (not_not.1 hsig)⟩, hr'⟩
        · rintro ⟨r, hr, hri⟩
          have hcons := BlockIdentity.consensusIdentity_eq_iff.1 (Blocklace.resolveIdentity_consensus hr)
          have hnd : (B.dom.zipIdx.map fun entry =>
              ((entry.1.contentHash, entry.1.creator), entry.2)).Nodup := by
            refine List.Nodup.of_map Prod.snd ?_
            rw [List.map_map, show (Prod.snd ∘ fun entry : BlockIdentity × ℕ =>
              ((entry.1.contentHash, entry.1.creator), entry.2)) = Prod.snd from rfl,
              List.zipIdx_map_snd]
            exact List.nodup_range'
          refine (eq_singleton_iff_of_nodup (hnd.filter _)).2
            ⟨List.mem_filter.2 ⟨?_, by simp⟩, ?_⟩
          · exact List.mem_map.2 ⟨(r, i), List.mk_mem_zipIdx_iff_getElem?.2 hri, by simp [hcons]⟩
          · intro y hy
            obtain ⟨hy, hkey⟩ := List.mem_filter.1 hy
            obtain ⟨⟨r', k⟩, hr', rfl⟩ := List.mem_map.1 hy
            have hrk := List.mk_mem_zipIdx_iff_getElem?.1 hr'
            simp only [Prod.mk.injEq, decide_eq_true_eq] at hkey
            have hrr : r' = r := Blocklace.eq_of_consensusIdentity_eq (mem_of_node hrk)
              (mem_of_node hri) (BlockIdentity.consensusIdentity_eq_iff.2
                ⟨hkey.1.trans hcons.1, hkey.2.trans hcons.2⟩)
            subst hrr
            rw [node_inj hrk hri, hkey.1, hkey.2]

theorem predsOf_length : (predsOf B).length = B.dom.length := by
  simp [predsOf, Blocklace.dom, AList.keys, List.keys]

theorem predsOf_lt : ∀ l ∈ predsOf B, ∀ c ∈ l, c < (predsOf B).length := by
  intro l hl c hc
  obtain ⟨entry, -, rfl⟩ := List.mem_map.1 hl
  obtain ⟨p, -, hp⟩ := List.mem_filterMap.1 hc
  obtain ⟨r, -, hr⟩ := resolve_iff.1 hp
  rw [predsOf_length]
  exact (List.getElem?_eq_some_iff.1 hr).1

/-- The children of a node are the nodes of the blocks its block points at. -/
theorem mem_children_iff (hi : B.dom[i]? = some a) :
    j ∈ Closure.children (predsOf B) (stopOf B) i ↔ ∃ b ∈ B.expand a, B.dom[j]? = some b := by
  have hentry : ∃ c, B.blocks.entries[i]? = some ⟨a, c⟩ := by
    have h : (B.blocks.entries[i]?).map Sigma.fst = some a := by
      rw [← List.getElem?_map]
      exact hi
    obtain ⟨⟨k, c⟩, he, rfl⟩ := Option.map_eq_some_iff.1 h
    exact ⟨c, he⟩
  obtain ⟨c, he⟩ := hentry
  have hl : B.blocks.lookup a = some c :=
    Blocklace.mem_entries_iff.1 (List.mem_of_getElem? he)
  have hstop : (stopOf B).getD i false = B.isCheckpointBoundary a := by
    simp [stopOf, List.getD_eq_getElem?_getD, hi]
  have hpreds : (predsOf B).getD i [] = c.predecessors.filterMap (resolve B.dom) := by
    simp [predsOf, List.getD_eq_getElem?_getD, he]
  unfold Closure.children
  rw [hstop, hpreds]
  by_cases hcp : B.checkpoint = some a
  · simp [Blocklace.isCheckpointBoundary, hcp, Blocklace.expand_checkpoint hcp]
  · rw [Blocklace.expand_of_lookup hl hcp]
    simp only [Blocklace.isCheckpointBoundary, hcp, decide_false, Bool.false_eq_true, if_false,
      List.mem_filterMap, resolve_iff]
    constructor
    · rintro ⟨p, hp, r, hr, hrj⟩
      exact ⟨r, ⟨p, hp, hr⟩, hrj⟩
    · rintro ⟨r, ⟨p, hp, hr⟩, hrj⟩
      exact ⟨p, hp, r, hr, hrj⟩

/-- A path of nodes is a path of blocks. -/
private theorem sees_of_reach (hi : B.dom[i]? = some a)
    (h : Reach (Closure.children (predsOf B) (stopOf B)) i j) :
    ∃ b, B.dom[j]? = some b ∧ B.Sees a b := by
  induction h with
  | refl => exact ⟨a, hi, .refl B a⟩
  | tail _ hstep ih =>
      obtain ⟨b, hb, hab⟩ := ih
      obtain ⟨c, hbc, hc⟩ := (mem_children_iff hb).1 hstep
      exact ⟨c, hc, ReflTransGen.tail hab hbc⟩

private theorem reach_of_sees (hi : B.dom[i]? = some a) (h : B.Sees a b)
    (hj : B.dom[j]? = some b) : Reach (Closure.children (predsOf B) (stopOf B)) i j := by
  induction h generalizing j with
  | refl => exact node_inj hi hj ▸ ReflTransGen.refl
  | @tail b c hab hbc ih =>
      have hb : b ∈ B.blocks := Blocklace.Sees.mem hab (mem_of_node hi)
      obtain ⟨k, hk⟩ := exists_node hb
      exact ReflTransGen.tail (ih hk) ((mem_children_iff hk).2 ⟨c, hbc, hj⟩)

/-- No cycle runs below a block with a round. -/
theorem grounded_of_round (h : B.Round a d) : Grounded B.expand a := by
  induction d using Nat.strong_induction_on generalizing a with
  | _ d ih =>
      refine Acc.intro a fun b hb => ?_
      obtain ⟨e, he, hr⟩ := h.of_mem_expand hb
      exact ih e he hr

/-- The node of a block below which no cycle runs. -/
private theorem grounded_node (hi : B.dom[i]? = some a) (h : Grounded B.expand a) :
    Grounded (Closure.children (predsOf B) (stopOf B)) i := by
  induction h generalizing i with
  | intro a _ ih =>
      refine Acc.intro i fun j hj => ?_
      obtain ⟨b, hb, hjb⟩ := (mem_children_iff hi).1 hj
      exact ih b hb hjb

/-- Every bit of the index is a path of references. -/
theorem sees_of_observes (hi : B.dom[i]? = some a) (hj : B.dom[j]? = some b)
    (h : (build B).closure.observes i j = true) : B.Sees a b := by
  obtain ⟨b', hb', hab⟩ := sees_of_reach hi (Closure.observes_sound predsOf_lt h)
  rw [hj] at hb'
  exact Option.some.inj hb' ▸ hab

/-- **Where no cycle runs below a block, its bits are the paths of references.** -/
theorem observes_iff (hi : B.dom[i]? = some a) (hj : B.dom[j]? = some b)
    (h : Grounded B.expand a) :
    (build B).closure.observes i j = true ↔ B.Sees a b := by
  refine ⟨sees_of_observes hi hj, fun hab => ?_⟩
  have hlt : i < (predsOf B).length := by
    rw [predsOf_length]
    exact (List.getElem?_eq_some_iff.1 hi).1
  exact Closure.observes_complete predsOf_lt hlt (grounded_node hi h) (reach_of_sees hi hab hj)

theorem mem_membersOf_iff {creator : NodeId} :
    i ∈ membersOf B.dom creator ↔ ∃ a, B.dom[i]? = some a ∧ a.creator = creator := by
  unfold membersOf
  rw [List.mem_map]
  constructor
  · rintro ⟨⟨a, k⟩, hk, rfl⟩
    rw [List.mem_filter, List.mk_mem_zipIdx_iff_getElem?, decide_eq_true_eq] at hk
    exact ⟨a, hk⟩
  · rintro ⟨a, ha, hc⟩
    exact ⟨(a, i), List.mem_filter.2 ⟨List.mk_mem_zipIdx_iff_getElem?.2 ha, by simpa using hc⟩, rfl⟩

private theorem mem_sortMembers {c : Closure} {members : List ℕ} :
    i ∈ c.sortMembers members ↔ i ∈ members :=
  (List.perm_insertionSort _ members).mem_iff

private theorem lookup_flatMap {ι : Type} (rows : ι → List (ℕ × List ℕ)) {l : List ι} {c : ι}
    [DecidableEq ι] (hc : c ∈ l) (hother : ∀ x ∈ l, x ≠ c → (rows x).lookup i = none) :
    (l.flatMap rows).lookup i = (rows c).lookup i := by
  induction l with
  | nil => simp at hc
  | cons x l ih =>
      rw [List.flatMap_cons, List.lookup_append]
      by_cases hxc : x = c
      · subst hxc
        cases hl : (rows x).lookup i with
        | some row => rfl
        | none =>
            by_cases hxl : x ∈ l
            · rw [ih hxl fun y hy => hother y (List.mem_cons_of_mem _ hy), hl]
              rfl
            · rw [Option.none_or]
              refine List.lookup_eq_none_iff.2 fun p hp => ?_
              obtain ⟨y, hy, hpy⟩ := List.mem_flatMap.1 hp
              have hyx : y ≠ x := ne_of_mem_of_not_mem hy hxl
              exact List.lookup_eq_none_iff.1 (hother y (List.mem_cons_of_mem _ hy) hyx) p hpy
      · rw [hother x List.mem_cons_self hxc, Option.none_or]
        exact ih ((List.mem_cons.1 hc).resolve_left (Ne.symm hxc))
          fun y hy => hother y (List.mem_cons_of_mem _ hy)

/-- The conflict row of a node, in the index of a blocklace. -/
theorem lookup_conflicts (hi : B.dom[i]? = some a) :
    (build B).conflicts.lookup i =
      (conflictsOf (build B).closure (membersOf B.dom a.creator)).lookup i := by
  refine lookup_flatMap
    (fun creator => conflictsOf (build B).closure (membersOf B.dom creator))
    (Blocklace.mem_allNodes_iff.2 ⟨a, mem_of_node hi, rfl⟩) fun creator _ hne => ?_
  refine List.lookup_eq_none_iff.2 fun row hrow => ?_
  unfold conflictsOf at hrow
  split_ifs at hrow
  · obtain ⟨k, hk, rfl⟩ := List.mem_map.1 (List.mem_filter.1 hrow).1
    obtain ⟨b, hb, hbc⟩ := mem_membersOf_iff.1 (mem_sortMembers.1 hk)
    simp only [bne_iff_ne, ne_eq]
    rintro rfl
    rw [hi] at hb
    obtain rfl := Option.some.inj hb
    exact hne hbc.symm
  · simp at hrow

/-- Two incomparable blocks of one creator are no chain. -/
private theorem isChain_eq_false {s : BlockIdentity} {k : ℕ} (hj : B.dom[j]? = some b)
    (hk : B.dom[k]? = some s) (hc : s.creator = b.creator) (hkj : k ≠ j) (h₁ : ¬ B.Sees b s)
    (h₂ : ¬ B.Sees s b) :
    (build B).closure.isChain
      ((build B).closure.sortMembers (membersOf B.dom b.creator)) = false := by
  rw [Bool.eq_false_iff]
  intro hchain
  have hpw := Closure.pairwise_of_isChain
    (R := Reach (Closure.children (predsOf B) (stopOf B)))
    (fun h₁ h₂ => ReflTransGen.trans h₁ h₂)
    (fun x y hxy => Closure.observes_sound predsOf_lt hxy) hchain
  have hcmp := hpw.imp (S := fun x y => Reach (Closure.children (predsOf B) (stopOf B)) x y ∨
    Reach (Closure.children (predsOf B) (stopOf B)) y x) fun h => Or.inr h
  have hsymm : Std.Symm fun x y => Reach (Closure.children (predsOf B) (stopOf B)) x y ∨
    Reach (Closure.children (predsOf B) (stopOf B)) y x := ⟨fun _ _ h => h.symm⟩
  have hjm := mem_sortMembers (c := (build B).closure).2 (mem_membersOf_iff.2 ⟨b, hj, rfl⟩)
  have hkm := mem_sortMembers (c := (build B).closure).2 (mem_membersOf_iff.2 ⟨s, hk, hc⟩)
  rcases hcmp.forall hkm hjm hkj with hr | hr
  · obtain ⟨x, hx, hsx⟩ := sees_of_reach hk hr
    rw [hj] at hx
    exact h₂ (Option.some.inj hx ▸ hsx)
  · obtain ⟨x, hx, hbx⟩ := sees_of_reach hj hr
    rw [hk] at hx
    exact h₁ (Option.some.inj hx ▸ hbx)

/-- **The conflict row of a block:** the incomparable blocks of its creator, as
far as no cycle runs below either. -/
theorem mem_conflicts_iff {s : BlockIdentity} {k : ℕ} (hj : B.dom[j]? = some b)
    (hk : B.dom[k]? = some s) (hb : Grounded B.expand b) (hs : Grounded B.expand s) :
    k ∈ ((build B).conflicts.lookup j).getD [] ↔
      s.creator = b.creator ∧ s ≠ b ∧ ¬ B.Sees b s ∧ ¬ B.Sees s b := by
  have hobs : ((build B).closure.observes j k = false ∧ (build B).closure.observes k j = false) ↔
      ¬ B.Sees b s ∧ ¬ B.Sees s b := by
    rw [← observes_iff hj hk hb, ← observes_iff hk hj hs, Bool.not_eq_true, Bool.not_eq_true]
  have hmem : k ∈ membersOf B.dom b.creator ↔ s.creator = b.creator := by
    rw [mem_membersOf_iff]
    simp [hk]
  have hne : k ≠ j ↔ s ≠ b := by
    refine not_congr ⟨?_, ?_⟩
    · rintro rfl
      rw [hk] at hj
      exact Option.some.inj hj
    · rintro rfl
      exact node_inj hk hj
  have hjm : j ∈ membersOf B.dom b.creator := mem_membersOf_iff.2 ⟨b, hj, rfl⟩
  rw [lookup_conflicts hj]
  unfold conflictsOf
  constructor
  · intro h
    split_ifs at h
    · obtain ⟨-, hkm, hkj, hoff⟩ := Closure.mem_incomparablePairs.1 h
      exact ⟨hmem.1 (mem_sortMembers.1 hkm), hne.1 hkj, hobs.1 hoff⟩
    · simp at h
  · rintro ⟨hc, hsb, hoff⟩
    have hkj := hne.2 hsb
    have hlen : (membersOf B.dom b.creator).length > 1 := by
      have hkm := hmem.2 hc
      generalize membersOf B.dom b.creator = members at hjm hkm
      rcases members with _ | ⟨x, _ | ⟨y, l⟩⟩
      · simp at hjm
      · rw [List.mem_singleton] at hjm hkm
        exact absurd (hkm.trans hjm.symm) hkj
      · simp
    rw [if_pos ⟨hlen, isChain_eq_false hj hk hc hkj hoff.1 hoff.2⟩, Closure.mem_incomparablePairs]
    exact ⟨mem_sortMembers.2 hjm, mem_sortMembers.2 (hmem.2 hc), hkj, hobs.2 hoff⟩

/-- **`approves` is Definition 18** for an observer below which no cycle runs: it
sees the target, and every other block it sees of the same creator is comparable
with the target. -/
theorem approves_iff (hi : B.dom[i]? = some a) (hj : B.dom[j]? = some b)
    (h : Grounded B.expand a) :
    (build B).approves i j = true ↔
      B.Sees a b ∧ ∀ s, B.Sees a s → s.creator = b.creator → s ≠ b → B.Sees b s ∨ B.Sees s b := by
  have hmatch : (match (build B).conflicts.lookup j with
      | none => true
      | some siblings => !siblings.any fun sibling => (build B).closure.observes i sibling) = true ↔
      ∀ k ∈ ((build B).conflicts.lookup j).getD [], (build B).closure.observes i k = false := by
    cases (build B).conflicts.lookup j with
    | none => simp
    | some siblings => simp
  unfold approves
  rw [Bool.and_eq_true, hmatch, observes_iff hi hj h]
  refine and_congr_right fun hab => ?_
  have hbr := h.of_reach hab
  constructor
  · -- an incomparable block the observer sees would be in the row of the target
    intro hrow s has hsc hsb
    obtain ⟨k, hk⟩ := exists_node (has.mem (mem_of_node hi))
    have hsr := h.of_reach has
    by_contra hnot
    rw [not_or] at hnot
    have hfalse := hrow k ((mem_conflicts_iff hj hk hbr hsr).2 ⟨hsc, hsb, hnot⟩)
    rw [(observes_iff hi hk h).2 has] at hfalse
    exact absurd hfalse (by decide)
  · intro hall k hk
    rw [Bool.eq_false_iff]
    intro hobs
    have hkm : ∃ s, B.dom[k]? = some s := by
      obtain ⟨s, hs, -⟩ := sees_of_reach hi (Closure.observes_sound predsOf_lt hobs)
      exact ⟨s, hs⟩
    obtain ⟨s, hs⟩ := hkm
    have has := (observes_iff hi hs h).1 hobs
    have hsr := h.of_reach has
    obtain ⟨hsc, hsb, h₁, h₂⟩ := (mem_conflicts_iff hj hs hbr hsr).1 hk
    exact (hall s has hsc hsb).elim h₁ h₂

end Nodes

end AncestorIndex

end CordialMiners
