/-
# Hash chains

A chain starts from a seed and goes from item to item: each link hashes the position,
the previous link and the item.  `HashChain.inputs` are the strings that are hashed on
the way.

Where the hash is collision free on what is hashed along two chains of one length, and
the layout of a link determines the previous link and the item, the last links are
equal only for equal items (`HashChain.last_inj`): the last link fixes the last item
and the link before it.
-/

import Mathlib.Data.List.Basic
import Mathlib.Tactic

namespace HashChain

variable {α β δ : Type} (hash : β → δ) (layout : ℕ → δ → α → β) (seed : δ)

/-- One link: the position behind it, and its hash. -/
def link (state : ℕ × δ) (item : α) : ℕ × δ := (state.1 + 1, hash (layout state.1 state.2 item))

/-- The last link of the chain. -/
def last (items : List α) : δ := (items.foldl (link hash layout) (0, seed)).2

/-- What is hashed along the chain. -/
def inputs (items : List α) : List β :=
  items.zipIdx.map fun item => layout item.2 (last hash layout seed (items.take item.2)) item.1

variable {hash : β → δ} {layout : ℕ → δ → α → β} {seed : δ}

/-- The position counts the items. -/
theorem foldl_link_fst (items : List α) (state : ℕ × δ) :
    (items.foldl (link hash layout) state).1 = state.1 + items.length := by
  induction items generalizing state with
  | nil => rfl
  | cons item items ih =>
      rw [List.foldl_cons, ih, List.length_cons]
      show state.1 + 1 + items.length = _
      omega

theorem last_concat (items : List α) (item : α) :
    last hash layout seed (items ++ [item]) =
      hash (layout items.length (last hash layout seed items) item) := by
  unfold last
  rw [List.foldl_append, List.foldl_cons, List.foldl_nil]
  show hash (layout (items.foldl (link hash layout) (0, seed)).1 _ item) = _
  rw [foldl_link_fst, Nat.zero_add]

theorem inputs_concat (items : List α) (item : α) :
    inputs hash layout seed (items ++ [item]) = inputs hash layout seed items ++
      [layout items.length (last hash layout seed items) item] := by
  unfold inputs
  rw [List.zipIdx_append, List.map_append]
  congr 1
  · refine List.map_congr_left fun entry hentry => ?_
    have hlt := List.snd_lt_of_mem_zipIdx hentry
    rw [List.take_append_of_le_length (by omega)]
  · simp

/-- **The last link determines the items**, among chains of one length. -/
theorem last_inj {items items' : List α} (hlen : items.length = items'.length)
    (hfree : Set.InjOn hash
      {x | x ∈ inputs hash layout seed items ∨ x ∈ inputs hash layout seed items'})
    (hlayout : ∀ k h item h' item', layout k h item ∈ inputs hash layout seed items →
      layout k h item = layout k h' item' → h = h' ∧ item = item')
    (heq : last hash layout seed items = last hash layout seed items') : items = items' := by
  induction items using List.reverseRecOn generalizing items' with
  | nil => exact (List.length_eq_zero_iff.1 hlen.symm).symm
  | append_singleton items item ih =>
      obtain rfl | ⟨items', item', rfl⟩ := List.eq_nil_or_concat' items'
      · simp at hlen
      have hlen' : items.length = items'.length := by simpa using hlen
      simp only [inputs_concat, List.mem_append, List.mem_singleton] at hfree hlayout
      rw [last_concat, last_concat] at heq
      -- equal links were made of one string, and the string holds what it was made of
      have hstring := hfree (Or.inl (Or.inr rfl)) (Or.inr (Or.inr rfl)) heq
      rw [← hlen'] at hstring
      obtain ⟨hlast, rfl⟩ := hlayout _ _ _ _ _ (Or.inr rfl) hstring
      rw [ih hlen' (hfree.mono ?_) (fun k h x h' x' hmem => hlayout k h x h' x' (Or.inl hmem)) hlast]
      rintro x (hx | hx)
      · exact Or.inl (Or.inl hx)
      · exact Or.inr (Or.inl hx)

end HashChain
