/-
# The ancestor index in 64-bit words

`crates/cordial-miners-core/src/ancestor_index.rs`, with its bit matrix as it is
stored: one vector of 64-bit words, `max 1 (n / 64 rounded up)` of them for each
of the `n` rows.

`Core.AncestorIndex` keeps a row as one number.  Here the same search writes the
words, and every bit it can be asked for is the bit of that number
(`observes_build`), so the chain test, the conflict rows and the approvals are
the same (`approvesBlock_eq`).  `wordIndex_approves_iff` then reads the index
against the definition over `observe`.
-/

import CordialMiners.Collections.BitMatrix
import CordialMiners.Core.Growth
import CordialMiners.Graph.Greedy

namespace CordialMiners

open FinGraph

/-! ### The bit matrix -/

/-- `Closure`: row-major, `words` words a row. -/
structure WordClosure where
  words : ℕ
  bits : List (BitVec 64)

namespace WordClosure

/-- Complete the row of `node`: its own bit and the rows of its finished children. -/
def finishRow (preds : List (List ℕ)) (stop : List Bool) (words : ℕ) (node : ℕ)
    (state : ℕ → Mark) (bits : List (BitVec 64)) : List (BitVec 64) :=
  (Closure.children preds stop node).foldl
    (fun bits child =>
      if state child = .complete ∧ child ≠ node then BitMatrix.orRow words node child bits
      else bits)
    (BitMatrix.setBit words node node bits)

/-- The words of a row of `n` bits. -/
def wordsFor (n : ℕ) : ℕ := max ((n + 63) / 64) 1

/-- The closure of every node. -/
def build (preds : List (List ℕ)) (stop : List Bool) : WordClosure :=
  let words := wordsFor preds.length
  { words := words
    bits :=
      (Dfs.forest (Closure.children preds stop) (finishRow preds stop words)
        (Dfs.fuelFor (Closure.children preds stop) (List.range preds.length))
        (List.range preds.length)
        { state := fun _ => .unvisited
          stack := []
          data := List.replicate (preds.length * words) 0 }).data }

/-- `b` is in the closure of `a`: one shift and one mask. -/
def observes (c : WordClosure) (a b : ℕ) : Bool :=
  (c.bits.getD (a * c.words + b / 64) 0 >>> (b % 64)) &&& 1#64 == 1#64

/-- The number of ones in the words of a row. -/
def count (c : WordClosure) (a : ℕ) : ℕ := BitMatrix.countRow c.words c.bits a

/-- Order the members by closure size, ties by index. -/
def sortMembers (c : WordClosure) (members : List ℕ) : List ℕ :=
  members.insertionSort fun x y => c.count x < c.count y ∨ (c.count x = c.count y ∧ x ≤ y)

/-- Every neighbouring pair of the sorted members is comparable. -/
def isChain (c : WordClosure) (sorted : List ℕ) : Bool :=
  (sorted.zip sorted.tail).all fun pair => pair.1 ≠ pair.2 && c.observes pair.2 pair.1

/-- For each member the other members it is incomparable with, if there are any. -/
def incomparablePairs (c : WordClosure) (members : List ℕ) : List (ℕ × List ℕ) :=
  (members.map fun a =>
      (a, members.filter fun b => b ≠ a && !c.observes a b && !c.observes b a)).filter
    fun row => row.2 ≠ []

variable {preds : List (List ℕ)} {stop : List Bool} {words a b : ℕ}

theorem le_wordsFor (n : ℕ) : n ≤ 64 * wordsFor n := by
  unfold wordsFor
  omega

/-- The words hold the rows: every bit below the width is the bit of the number
that stands for the row. -/
structure Holds (n words : ℕ) (rows : List (ℕ × ℕ)) (bits : List (BitVec 64)) : Prop where
  length : bits.length = n * words
  bit : ∀ a < n, ∀ b < 64 * words, BitMatrix.bit words bits a b = (Closure.row rows a).testBit b

/-- A row within the matrix. -/
private theorem row_le {n node : ℕ} {bits : List (BitVec 64)} (hnode : node < n)
    (hlen : bits.length = n * words) : (node + 1) * words ≤ bits.length := by
  rw [hlen]
  exact Nat.mul_le_mul_right words hnode

/-- Adding the rows of the finished children to the row of a node, in words and
in numbers. -/
private theorem foldl_children {n node : ℕ} (rows : List (ℕ × ℕ)) (state : ℕ → Mark)
    (hnode : node < n) :
    ∀ (l : List ℕ) (bits : List (BitVec 64)) (acc : ℕ), (∀ c ∈ l, c < n) →
      bits.length = n * words →
      (∀ a < n, ∀ b < 64 * words, BitMatrix.bit words bits a b =
        (if a = node then acc else Closure.row rows a).testBit b) →
      (l.foldl (fun bits child =>
        if state child = .complete ∧ child ≠ node then BitMatrix.orRow words node child bits
        else bits) bits).length = n * words ∧
      ∀ a < n, ∀ b < 64 * words, BitMatrix.bit words (l.foldl (fun bits child =>
        if state child = .complete ∧ child ≠ node then BitMatrix.orRow words node child bits
        else bits) bits) a b =
        (if a = node then l.foldl (fun acc child =>
          if state child = .complete ∧ child ≠ node then acc ||| Closure.row rows child else acc)
            acc else Closure.row rows a).testBit b := by
  intro l
  induction l with
  | nil => exact fun bits acc _ hlen hbit => ⟨hlen, hbit⟩
  | cons c l ih =>
      intro bits acc hl hlen hbit
      have hc := hl c List.mem_cons_self
      have hrest : ∀ c ∈ l, c < n := fun d hd => hl d (List.mem_cons_of_mem _ hd)
      rw [List.foldl_cons, List.foldl_cons]
      split_ifs with hdone
      · refine ih _ _ hrest (by rw [BitMatrix.length_orRow, hlen]) fun a ha b hb => ?_
        rw [BitMatrix.bit_orRow (row_le hnode hlen) (Ne.symm hdone.2) hb, hbit a ha b hb,
          hbit c hc b hb, if_neg hdone.2]
        by_cases han : a = node
        · rw [if_pos han, if_pos han, Nat.testBit_or]
          simp [han]
        · rw [if_neg han, if_neg han]
          simp [han]
      · exact ih _ _ hrest hlen hbit

/-- **Finishing a node does the same to the words and to the numbers.** -/
theorem Holds.finishRow (hpreds : ∀ l ∈ preds, ∀ c ∈ l, c < preds.length)
    (hwords : preds.length ≤ 64 * words) (node : ℕ) (state : ℕ → Mark) (rows : List (ℕ × ℕ))
    (bits : List (BitVec 64)) (h : Holds preds.length words rows bits) :
    Holds preds.length words (Closure.finishRow preds stop node state rows)
      (WordClosure.finishRow preds stop words node state bits) := by
  by_cases hnode : node < preds.length
  · have hchildren : ∀ c ∈ Closure.children preds stop node, c < preds.length :=
      fun c hc => Closure.children_lt hpreds hc
    have hown : ∀ a < preds.length, ∀ b < 64 * words,
        BitMatrix.bit words (BitMatrix.setBit words node node bits) a b =
          (if a = node then Closure.row rows node ||| 1 <<< node
            else Closure.row rows a).testBit b := by
      intro a ha b hb
      rw [BitMatrix.bit_setBit (row_le hnode h.length) (by omega) hb, h.bit a ha b hb]
      by_cases han : a = node
      · subst han
        rw [if_pos rfl, Nat.testBit_or, Nat.one_shiftLeft, Nat.testBit_two_pow]
        simp [eq_comm]
      · simp [han]
    obtain ⟨hlen, hbit⟩ := foldl_children rows state hnode
      (Closure.children preds stop node) _ _ hchildren
      (by rw [BitMatrix.length_setBit, h.length]) hown
    refine ⟨hlen, fun a ha b hb => ?_⟩
    unfold WordClosure.finishRow Closure.finishRow
    rw [hbit a ha b hb]
    by_cases han : a = node
    · subst han
      rw [if_pos rfl, Closure.row_cons_self]
    · rw [if_neg han, Closure.row_cons_of_ne han]
  · -- outside the matrix nothing is written
    have hnil : Closure.children preds stop node = [] := by
      unfold Closure.children
      split_ifs
      · rfl
      · exact List.getD_eq_default _ _ (by omega)
    have hset : BitMatrix.setBit words node node bits = bits := by
      have hle : preds.length * words ≤ node * words := Nat.mul_le_mul_right words (by omega)
      unfold BitMatrix.setBit
      exact List.set_eq_of_length_le (by rw [h.length]; omega)
    have heq : WordClosure.finishRow preds stop words node state bits = bits := by
      unfold WordClosure.finishRow
      rw [hnil, List.foldl_nil, hset]
    rw [heq]
    refine ⟨h.length, fun a ha b hb => ?_⟩
    unfold Closure.finishRow
    rw [Closure.row_cons_of_ne (by omega), h.bit a ha b hb]

theorem holds_build (stop : List Bool) (hpreds : ∀ l ∈ preds, ∀ c ∈ l, c < preds.length) :
    Holds preds.length (build preds stop).words (Closure.build preds stop).bits
      (build preds stop).bits := by
  refine (Dfs.Related.forest (R := Holds preds.length (wordsFor preds.length)) ?_ _ _
    ⟨rfl, rfl, ?_, ?_⟩).data
  · exact fun node state rows bits h =>
      Holds.finishRow hpreds (le_wordsFor preds.length) node state rows bits h
  · exact List.length_replicate
  · intro a _ b _
    simp [BitMatrix.bit, Closure.row]

/-- The shift and the mask read one bit. -/
theorem observes_eq_bit (c : WordClosure) (a b : ℕ) :
    c.observes a b = BitMatrix.bit c.words c.bits a b := by
  unfold observes BitMatrix.bit
  generalize c.bits.getD (a * c.words + b / 64) 0 = word
  rw [BitVec.and_one_eq_setWidth_ofBool_getLsbD, BitVec.getLsbD_ushiftRight, Nat.add_zero]
  cases word.getLsbD (b % 64) <;> rfl

/-- **The words answer as the numbers do.** -/
theorem observes_build (hpreds : ∀ l ∈ preds, ∀ c ∈ l, c < preds.length) (ha : a < preds.length)
    (hb : b < preds.length) :
    (build preds stop).observes a b = (Closure.build preds stop).observes a b := by
  have hle := le_wordsFor preds.length
  rw [observes_eq_bit, (holds_build stop hpreds).bit a ha b]
  · rfl
  · show b < 64 * wordsFor preds.length
    omega

/-- **The words of a row have as many ones as the row has members.** -/
theorem count_build (hpreds : ∀ l ∈ preds, ∀ c ∈ l, c < preds.length) (ha : a < preds.length) :
    (build preds stop).count a = (Closure.build preds stop).count a := by
  have hle := le_wordsFor preds.length
  have hbit : ∀ b < 64 * wordsFor preds.length,
      BitMatrix.bit (build preds stop).words (build preds stop).bits a b =
        (Closure.build preds stop).observes a b :=
    fun b hb => (holds_build stop hpreds).bit a ha b hb
  -- no row has a bit beyond the last node
  have hbeyond : ∀ b, (Closure.build preds stop).observes a b = true → b < preds.length := by
    intro b hb
    have hpath := Closure.observes_sound hpreds hb
    rcases Relation.ReflTransGen.cases_tail hpath with rfl | ⟨c, -, hcb⟩
    · exact ha
    · exact Closure.children_lt hpreds hcb
  have hsplit : 64 * wordsFor preds.length =
      preds.length + (64 * wordsFor preds.length - preds.length) := by omega
  unfold count Closure.count
  rw [BitMatrix.countRow_eq]
  show (List.range (64 * wordsFor preds.length)).countP _ = (List.range preds.length).countP _
  rw [hsplit, List.range_add, List.countP_append, List.countP_map]
  have hzero : (List.range (64 * wordsFor preds.length - preds.length)).countP
      (BitMatrix.bit (build preds stop).words (build preds stop).bits a ∘ (preds.length + ·)) =
        0 := by
    rw [List.countP_eq_zero]
    intro i hi hone
    rw [List.mem_range] at hi
    rw [Function.comp_apply, hbit _ (by omega)] at hone
    have := hbeyond _ hone
    omega
  rw [hzero, Nat.add_zero]
  refine List.countP_congr fun b hb => ?_
  rw [List.mem_range] at hb
  rw [hbit b (by omega)]

/-! ### The chain test and the conflict rows -/

section Agree

variable {c : WordClosure} {d : Closure} {members : List ℕ}

/-- The two closures answer alike about the nodes of a list. -/
structure Agree (c : WordClosure) (d : Closure) (members : List ℕ) : Prop where
  observes : ∀ a ∈ members, ∀ b ∈ members, c.observes a b = d.observes a b
  count : ∀ a ∈ members, c.count a = d.count a

theorem Agree.sortMembers (h : Agree c d members) :
    c.sortMembers members = d.sortMembers members := by
  unfold WordClosure.sortMembers Closure.sortMembers
  have hmap := List.map_insertionSort
    (fun x y => c.count x < c.count y ∨ (c.count x = c.count y ∧ x ≤ y))
    (fun x y => d.count x < d.count y ∨ (d.count x = d.count y ∧ x ≤ y)) id members
    fun a ha b hb => by rw [id, id, h.count a ha, h.count b hb]
  rwa [List.map_id, List.map_id] at hmap

theorem Agree.isChain (h : Agree c d members) : c.isChain members = d.isChain members := by
  unfold WordClosure.isChain Closure.isChain
  rw [Bool.eq_iff_iff, List.all_eq_true, List.all_eq_true]
  refine forall₂_congr fun pair hpair => ?_
  obtain ⟨h₁, h₂⟩ := List.of_mem_zip hpair
  rw [h.observes pair.2 (List.mem_of_mem_tail h₂) pair.1 h₁]

theorem Agree.incomparablePairs (h : Agree c d members) :
    c.incomparablePairs members = d.incomparablePairs members := by
  unfold WordClosure.incomparablePairs Closure.incomparablePairs
  congr 1
  refine List.map_congr_left fun a ha => ?_
  refine congrArg (Prod.mk a) (List.filter_congr fun b hb => ?_)
  rw [h.observes a ha b hb, h.observes b hb a ha]

end Agree

end WordClosure

/-! ### The index of a blocklace -/

/-- `AncestorIndex`, over the words. -/
structure WordIndex where
  generation : ℕ
  ids : List BlockIdentity
  closure : WordClosure
  conflicts : List (ℕ × List ℕ)

namespace WordIndex

open AncestorIndex (predsOf stopOf membersOf)

/-- The conflicts of one creator; a chain has none. -/
def conflictsOf (closure : WordClosure) (members : List ℕ) : List (ℕ × List ℕ) :=
  if members.length > 1 ∧ closure.isChain (closure.sortMembers members) = false then
    closure.incomparablePairs (closure.sortMembers members)
  else []

/-- `AncestorIndex::build`. -/
def build (B : Blocklace) : WordIndex :=
  let closure := WordClosure.build (predsOf B) (stopOf B)
  { generation := B.generation
    ids := B.dom
    closure := closure
    conflicts := B.allNodes.flatMap fun creator => conflictsOf closure (membersOf B.dom creator) }

/-- Index of a stored identity. -/
def indexOf (index : WordIndex) (id : BlockIdentity) : Option ℕ := index.ids.idxOf? id

/-- `AncestorIndex::approves`. -/
def approves (index : WordIndex) (observer target : ℕ) : Bool :=
  index.closure.observes observer target &&
    match index.conflicts.lookup target with
    | none => true
    | some siblings => !siblings.any fun sibling => index.closure.observes observer sibling

variable {B : Blocklace} {a b : ℕ}

theorem agree_members (B : Blocklace) {members : List ℕ} (h : ∀ a ∈ members, a < B.dom.length) :
    WordClosure.Agree (build B).closure (AncestorIndex.build B).closure members := by
  have hlen := AncestorIndex.predsOf_length (B := B)
  exact ⟨fun a ha b hb => WordClosure.observes_build AncestorIndex.predsOf_lt
      (by rw [hlen]; exact h a ha) (by rw [hlen]; exact h b hb),
    fun a ha => WordClosure.count_build AncestorIndex.predsOf_lt (by rw [hlen]; exact h a ha)⟩

theorem membersOf_lt {creator : NodeId} (h : a ∈ membersOf B.dom creator) : a < B.dom.length := by
  obtain ⟨id, hid, -⟩ := AncestorIndex.mem_membersOf_iff.1 h
  exact (List.getElem?_eq_some_iff.1 hid).1

theorem conflicts_build (B : Blocklace) :
    (build B).conflicts = (AncestorIndex.build B).conflicts := by
  show (B.allNodes.flatMap fun creator => conflictsOf (build B).closure (membersOf B.dom creator)) =
    B.allNodes.flatMap fun creator =>
      AncestorIndex.conflictsOf (AncestorIndex.build B).closure (membersOf B.dom creator)
  refine List.flatMap_congr fun creator _ => ?_
  have hagree := agree_members B fun a (ha : a ∈ membersOf B.dom creator) => membersOf_lt ha
  have hsorted := agree_members B fun a ha => @membersOf_lt B a creator
    ((List.mem_insertionSort _).1
      (ha : a ∈ (AncestorIndex.build B).closure.sortMembers (membersOf B.dom creator)))
  unfold conflictsOf AncestorIndex.conflictsOf
  rw [hagree.sortMembers, hsorted.isChain, hsorted.incomparablePairs]

/-- The siblings listed in a conflict row are nodes. -/
theorem lt_of_mem_conflicts {siblings : List ℕ} (hb : b < B.dom.length)
    (h : (AncestorIndex.build B).conflicts.lookup b = some siblings) :
    ∀ sibling ∈ siblings, sibling < B.dom.length := by
  intro sibling hsibling
  obtain ⟨id, hid⟩ : ∃ id, B.dom[b]? = some id := ⟨_, List.getElem?_eq_getElem hb⟩
  rw [AncestorIndex.lookup_conflicts hid] at h
  unfold AncestorIndex.conflictsOf at h
  split_ifs at h
  · have hrow : sibling ∈ (((AncestorIndex.build B).closure.incomparablePairs
        ((AncestorIndex.build B).closure.sortMembers (membersOf B.dom id.creator))).lookup
          b).getD [] := by
      rw [h]
      exact hsibling
    obtain ⟨-, hmem, -⟩ := Closure.mem_incomparablePairs.1 hrow
    exact membersOf_lt ((List.mem_insertionSort _).1 hmem)
  · exact absurd h (by simp)

/-- **The words give the same approvals**, whatever the blocklace. -/
theorem approves_eq (ha : a < B.dom.length) (hb : b < B.dom.length) :
    (build B).approves a b = (AncestorIndex.build B).approves a b := by
  have hobs : ∀ c < B.dom.length,
      (build B).closure.observes a c = (AncestorIndex.build B).closure.observes a c :=
    fun c hc => (agree_members B (show ∀ d ∈ [a, c], d < B.dom.length by simp [ha, hc])).observes a
      (by simp) c (by simp)
  unfold approves AncestorIndex.approves
  rw [hobs b hb, conflicts_build]
  congr 1
  cases hl : (AncestorIndex.build B).conflicts.lookup b with
  | none => rfl
  | some siblings =>
      simp only
      congr 1
      rw [Bool.eq_iff_iff, List.any_eq_true, List.any_eq_true]
      refine exists_congr fun sibling => and_congr_right fun hsibling => ?_
      rw [hobs sibling (lt_of_mem_conflicts hb hl sibling hsibling)]

/-- `approval::approves`, without its memo. -/
def approvesBlock (B : Blocklace) (approver target : BlockIdentity) : Bool :=
  match B.resolveIdentity approver with
  | none => false
  | some resolvedApprover =>
      match (build B).indexOf resolvedApprover, (build B).indexOf target with
      | some observer, some observed => (build B).approves observer observed
      | _, _ => false

/-- `Blocklace.approves` is what the source computes from the words. -/
theorem approvesBlock_eq (B : Blocklace) (approver target : BlockIdentity) :
    approvesBlock B approver target = B.approves approver target := by
  unfold approvesBlock Blocklace.approves
  cases B.resolveIdentity approver with
  | none => rfl
  | some resolvedApprover =>
      show (match B.dom.idxOf? resolvedApprover, B.dom.idxOf? target with
        | some observer, some observed => (build B).approves observer observed
        | _, _ => false) = match B.dom.idxOf? resolvedApprover, B.dom.idxOf? target with
        | some observer, some observed => (AncestorIndex.build B).approves observer observed
        | _, _ => false
      cases ho : B.dom.idxOf? resolvedApprover with
      | none => rfl
      | some observer =>
          cases ht : B.dom.idxOf? target with
          | none => rfl
          | some observed =>
              exact approves_eq (List.idxOf?_eq_some_iff.1 ho).1 (List.idxOf?_eq_some_iff.1 ht).1

end WordIndex

/-! ### Definition 18 -/

namespace Blocklace

variable {B : Blocklace} {a t : BlockIdentity}

/-- Definition 18, over the sets that `observe` returns. -/
def ApprovesByObserve (B : Blocklace) (a t : BlockIdentity) : Prop :=
  t ∈ B.observe a ∧ ∀ x ∈ B.observe a, x.creator = t.creator → x ≠ t →
    x ∈ B.observe t ∨ t ∈ B.observe x

instance : Decidable (B.ApprovesByObserve a t) :=
  inferInstanceAs (Decidable (t ∈ B.observe a ∧ ∀ x ∈ B.observe a, x.creator = t.creator →
    x ≠ t → x ∈ B.observe t ∨ t ∈ B.observe x))

theorem approves_iff_approvesByObserve (ha : a ∈ B.blocks) (ht : t ∈ B.blocks) :
    B.Approves a t ↔ B.ApprovesByObserve a t := by
  unfold ApprovesByObserve
  rw [mem_observe_of_mem ha]
  constructor
  · rintro ⟨hsees, hcmp⟩
    refine ⟨hsees, fun x hx hc hne => ?_⟩
    rw [mem_observe_of_mem ha] at hx
    rw [mem_observe_of_mem ht, mem_observe_of_mem (hx.mem ha)]
    exact hcmp x hx hc hne
  · rintro ⟨hsees, hcmp⟩
    refine ⟨hsees, fun x hx hc hne => ?_⟩
    have h := hcmp x ((mem_observe_of_mem ha).2 hx) hc hne
    rwa [mem_observe_of_mem ht, mem_observe_of_mem (hx.mem ha)] at h

/-- The blocks seen from a stored block are finitely many, so without a cycle
among them no path leads on for ever. -/
theorem grounded_of_acyclic (ha : a ∈ B.blocks) (h : ∀ x ∈ B.observe a, ¬ B.Below x x) :
    Grounded B.expand a := by
  have hfin : {x | B.Sees a x}.Finite := by
    refine Set.Finite.subset (List.finite_toSet B.dom) fun x hx => ?_
    exact AList.mem_keys.1 (Sees.mem hx ha)
  have hbelow : ∀ p x, Relation.TransGen (fun p x => B.Sees a x ∧ p ∈ B.expand x) p x →
      B.Below p x ∧ B.Sees a x := by
    intro p x hpx
    induction hpx with
    | single h => exact ⟨.single h.2, h.1⟩
    | tail _ h ih => exact ⟨.trans (.single h.2) ih.1, h.1⟩
  have hwf : WellFounded fun p x => B.Sees a x ∧ p ∈ B.expand x :=
    wellFounded_of_acyclic hfin
      (fun p x hpx => ⟨Relation.ReflTransGen.tail hpx.1 hpx.2, hpx.1⟩)
      fun x hx => h x ((mem_observe_of_mem ha).2 (hbelow x x hx).2) (hbelow x x hx).1
  have hground : ∀ x, B.Sees a x → Grounded B.expand x := by
    intro x
    induction x using hwf.induction with
    | _ x ih =>
        intro hx
        exact Acc.intro x fun p hp => ih p ⟨hx, hp⟩ (Relation.ReflTransGen.tail hx hp)
  exact hground a (.refl B a)

/-- **The ancestor index computes Definition 18** for every stored block below
which no references run in a cycle: asked by row, and asked by `approves`. -/
theorem wordIndex_approves_iff (ha : a ∈ B.blocks) (ht : t ∈ B.blocks)
    (hacyclic : ∀ x ∈ B.observe a, ¬ B.Below x x) :
    (∃ observer target, (WordIndex.build B).indexOf a = some observer ∧
      (WordIndex.build B).indexOf t = some target ∧
        ((WordIndex.build B).approves observer target = true ↔ B.ApprovesByObserve a t)) ∧
      (WordIndex.approvesBlock B a t = true ↔ B.ApprovesByObserve a t) := by
  have hg := grounded_of_acyclic ha hacyclic
  have hblock : WordIndex.approvesBlock B a t = true ↔ B.ApprovesByObserve a t := by
    rw [WordIndex.approvesBlock_eq, approves_iff_of_grounded ha hg,
      approves_iff_approvesByObserve ha ht]
  refine ⟨?_, hblock⟩
  obtain ⟨observer, ho⟩ := List.getElem?_of_mem (AList.mem_keys.1 ha)
  obtain ⟨target, htgt⟩ := List.getElem?_of_mem (AList.mem_keys.1 ht)
  have hio : (WordIndex.build B).indexOf a = some observer := AncestorIndex.idxOf_dom_iff.2 ho
  have hit : (WordIndex.build B).indexOf t = some target := AncestorIndex.idxOf_dom_iff.2 htgt
  refine ⟨observer, target, hio, hit, ?_⟩
  rw [← hblock, WordIndex.approvesBlock, resolveIdentity_of_mem ha]
  simp only [hio, hit]

/-- A block that sees both branches of creator `2` and the genesis block below. -/
def forkedView : Blocklace :=
  (Blocklace.new 0).growBy
    [sampleBlock (sampleId 1 1) [], sampleBlock (sampleId 2 2) [sampleId 1 1],
      sampleBlock (sampleId 3 2) [sampleId 1 1],
      sampleBlock (sampleId 4 3) [sampleId 2 2, sampleId 3 2]]

/-- The hypotheses of `wordIndex_approves_iff` hold of a block that sees a fork:
it approves the genesis block and neither branch. -/
theorem wordIndex_approves_iff_forkedView :
    (WordIndex.approvesBlock forkedView (sampleId 4 3) (sampleId 1 1) = true ↔
      forkedView.ApprovesByObserve (sampleId 4 3) (sampleId 1 1)) ∧
      forkedView.ApprovesByObserve (sampleId 4 3) (sampleId 1 1) ∧
        ¬ forkedView.ApprovesByObserve (sampleId 4 3) (sampleId 2 2) := by
  have hround : forkedView.Round (sampleId 4 3) 2 :=
    (depth_eq_some_of_mem (by decide +kernel)).1 (by decide +kernel)
  refine ⟨(wordIndex_approves_iff (by decide +kernel) (by decide +kernel) fun x hx => ?_).2,
    by decide +kernel, by decide +kernel⟩
  rw [mem_observe_of_mem hround.mem] at hx
  obtain ⟨e, -, hr⟩ := hround.of_sees hx
  exact hr.not_below_self

/-- A rewritten block closes a cycle, and the index loses a bit below it. -/
theorem wordIndex_approves_ne_definition18 :
    ∃ B a t, InsertRun AnyBlock (Blocklace.new 0) B ∧ a ∈ B.blocks ∧ t ∈ B.blocks ∧
      WordIndex.approvesBlock B a t = false ∧ B.ApprovesByObserve a t := by
  refine ⟨(Blocklace.new 0).growBy
    [sampleBlock (sampleId 1 1) [], sampleBlock (sampleId 2 2) [sampleId 1 1],
      sampleBlock (sampleId 1 1) [sampleId 2 2]], sampleId 2 2,
    sampleId 1 1, insertRun_growBy (by decide +kernel), by decide +kernel,
    by decide +kernel, by decide +kernel, by decide +kernel⟩

end Blocklace

end CordialMiners
