/-
# Lists in the order of their keys

Items with a key in a linear order, in a list along which the keys strictly
ascend: the shape of a canonical list of entries and of the iteration over an
ordered map or set.  Binary search finds the one item with a key (`find`), and an
item goes in at its partition point (`insert`).

A loop that changes one item after the other, each key once, leaves every other item
as it is and changes each of its own as if it were alone (`foldlM_modify`).

`OrderedSet` is the set whose members are such a list; two of them are equal when
they have the same members (`OrderedSet.ext_mem`).
-/

import CordialMiners.Codec.Reader

namespace Keyed

variable {α β κ : Type} [LinearOrder κ] (key : α → κ)

/-- The keys strictly ascend. -/
def Ascending (l : List α) : Prop := l.Pairwise fun a b => key a < key b

instance (l : List α) : Decidable (Ascending key l) :=
  inferInstanceAs (Decidable (l.Pairwise _))

/-- What a binary search for a key finds in an ascending list. -/
def find (l : List α) (k : κ) : Option α := l.find? fun a => key a = k

/-- Change the item with a key. -/
def modify (l : List α) (k : κ) (f : α → α) : List α := l.map fun a => if key a = k then f a else a

/-- Insert an item at the partition point of its key. -/
def insert (l : List α) (a : α) : List α :=
  l.takeWhile (fun b => key b < key a) ++ a :: l.dropWhile fun b => key b < key a

variable {key} {l : List α} {a b : α} {k : κ}

theorem Ascending.eq_of_key (h : Ascending key l) (ha : a ∈ l) (hb : b ∈ l)
    (heq : key a = key b) : a = b := by
  induction l with
  | nil => simp at ha
  | cons c l ih =>
      obtain ⟨hc, hl⟩ := List.pairwise_cons.1 h
      rcases List.mem_cons.1 ha with rfl | ha'
      · rcases List.mem_cons.1 hb with rfl | hb'
        · rfl
        · exact absurd heq (hc b hb').ne
      · rcases List.mem_cons.1 hb with rfl | hb'
        · exact absurd heq (hc a ha').ne'
        · exact ih hl ha' hb'

theorem Ascending.nodup (h : Ascending key l) : l.Nodup :=
  h.imp fun hlt heq => hlt.ne (congrArg key heq)

/-- **The search finds exactly the item with the key.** -/
theorem find_eq_some_iff (h : Ascending key l) : find key l k = some a ↔ a ∈ l ∧ key a = k := by
  unfold find
  constructor
  · intro hf
    exact ⟨List.mem_of_find?_eq_some hf, by simpa using List.find?_some hf⟩
  · rintro ⟨ha, rfl⟩
    cases hf : l.find? fun b => key b = key a with
    | none => exact absurd (List.find?_eq_none.1 hf a ha) (by simp)
    | some b =>
        have hb : key b = key a := by simpa using List.find?_some hf
        rw [h.eq_of_key (List.mem_of_find?_eq_some hf) ha hb]

theorem find_eq_none_iff : find key l k = none ↔ ∀ a ∈ l, key a ≠ k := by
  unfold find
  simp

theorem exists_of_find (h : find key l k ≠ none) : ∃ a ∈ l, key a = k := by
  obtain ⟨a, ha⟩ := Option.ne_none_iff_exists'.1 h
  exact ⟨a, List.mem_of_find?_eq_some ha, by simpa using List.find?_some ha⟩

/-- A change that keeps the keys keeps the order. -/
theorem Ascending.map {key' : β → κ} {f : α → β} (h : Ascending key l)
    (hkey : ∀ a, key' (f a) = key a) : Ascending key' (l.map f) := by
  unfold Ascending
  rw [List.pairwise_map]
  exact h.imp fun {a b} hlt => by rwa [hkey a, hkey b]

theorem find_map {key' : β → κ} {f : α → β} (hkey : ∀ a, key' (f a) = key a) (k : κ) :
    find key' (l.map f) k = (find key l k).map f := by
  unfold find
  rw [List.find?_map]
  congr 2
  funext a
  simp [hkey]

@[simp] theorem map_modify {f : α → α} (hkey : ∀ a, key (f a) = key a) (k : κ) :
    (modify key l k f).map key = l.map key := by
  unfold modify
  rw [List.map_map]
  refine List.map_congr_left fun a _ => ?_
  simp only [Function.comp]
  split_ifs
  · exact hkey a
  · rfl

/-- Same keys, same order. -/
theorem ascending_iff_map : Ascending key l ↔ (l.map key).Pairwise (· < ·) := by
  unfold Ascending
  rw [List.pairwise_map]

theorem Ascending.modify {f : α → α} (h : Ascending key l) (hkey : ∀ a, key (f a) = key a) (k : κ) :
    Ascending key (Keyed.modify key l k f) := by
  rw [ascending_iff_map, map_modify hkey, ← ascending_iff_map]
  exact h

theorem find_modify {f : α → α} (hkey : ∀ a, key (f a) = key a) {k' : κ} :
    find key (modify key l k f) k' =
      (find key l k').map fun a => if k' = k then f a else a := by
  have hkey' : ∀ a, key (if key a = k then f a else a) = key a := by
    intro a
    split_ifs
    · exact hkey a
    · rfl
  unfold modify
  rw [find_map hkey']
  cases hf : find key l k' with
  | none => rfl
  | some a =>
      have ha : key a = k' := by simpa using List.find?_some hf
      rw [Option.map_some, Option.map_some, ha]

theorem mem_insert : b ∈ insert key l a ↔ b = a ∨ b ∈ l := by
  unfold insert
  rw [List.mem_append, List.mem_cons]
  constructor
  · rintro (h | rfl | h)
    · exact Or.inr ((List.takeWhile_sublist _).subset h)
    · exact Or.inl rfl
    · exact Or.inr ((List.dropWhile_sublist _).subset h)
  · rintro (rfl | h)
    · exact Or.inr (Or.inl rfl)
    · rw [← List.takeWhile_append_dropWhile (p := fun b => decide (key b < key a)) (l := l)] at h
      rcases List.mem_append.1 h with h | h
      · exact Or.inl h
      · exact Or.inr (Or.inr h)

/-- **An item with a new key goes in where the order wants it.** -/
theorem Ascending.insert (h : Ascending key l) (hnew : ∀ b ∈ l, key b ≠ key a) :
    Ascending key (Keyed.insert key l a) := by
  induction l with
  | nil => exact List.pairwise_singleton _ _
  | cons c l ih =>
      obtain ⟨hc, hl⟩ := List.pairwise_cons.1 h
      have hne := hnew c List.mem_cons_self
      by_cases hlt : key c < key a
      · have hstep : Keyed.insert key (c :: l) a = c :: Keyed.insert key l a := by
          unfold Keyed.insert
          rw [List.takeWhile_cons_of_pos (by simpa using hlt),
            List.dropWhile_cons_of_pos (by simpa using hlt), List.cons_append]
        rw [hstep]
        refine List.pairwise_cons.2
          ⟨fun b hb => ?_, ih hl fun b hb => hnew b (List.mem_cons_of_mem _ hb)⟩
        rcases mem_insert.1 hb with rfl | hb
        · exact hlt
        · exact hc b hb
      · have hstep : Keyed.insert key (c :: l) a = a :: c :: l := by
          unfold Keyed.insert
          rw [List.takeWhile_cons_of_neg (by simpa using hlt),
            List.dropWhile_cons_of_neg (by simpa using hlt), List.nil_append]
        have hgt : key a < key c := lt_of_le_of_ne (not_lt.1 hlt) hne.symm
        rw [hstep]
        refine List.pairwise_cons.2 ⟨fun b hb => ?_, h⟩
        rcases List.mem_cons.1 hb with rfl | hb
        · exact hgt
        · exact hgt.trans (hc b hb)

theorem find_insert (h : Ascending key l) (hnew : ∀ b ∈ l, key b ≠ key a) :
    find key (insert key l a) k = if k = key a then some a else find key l k := by
  refine Option.ext fun b => ?_
  rw [find_eq_some_iff (h.insert hnew), mem_insert]
  split_ifs with hk
  · rw [hk, Option.some.injEq]
    constructor
    · rintro ⟨rfl | hb, heq⟩
      · rfl
      · exact absurd heq (hnew b hb)
    · rintro rfl
      exact ⟨Or.inl rfl, rfl⟩
  · rw [find_eq_some_iff h]
    constructor
    · rintro ⟨rfl | hb, rfl⟩
      · exact absurd rfl hk
      · exact ⟨hb, rfl⟩
    · rintro ⟨hb, heq⟩
      exact ⟨Or.inr hb, heq⟩

/-! ### Changing one item after the other -/

section Fold

variable {γ ε : Type} {step : List α → β → Except ε (List α)} {keyOf : β → κ}
  {change : β → Except ε γ} {f : γ → α → α} {events : List β} {out : List α}

/-- What a step of such a loop does: it finds the item of its event and changes it. -/
def Changes (key : α → κ) (step : List α → β → Except ε (List α)) (keyOf : β → κ)
    (change : β → Except ε γ) (f : γ → α → α) : Prop :=
  ∀ l event out, step l event = .ok out → find key l (keyOf event) ≠ none ∧
    ∃ c, change event = .ok c ∧ out = modify key l (keyOf event) (f c)

theorem foldlM_modify_map (hstep : Changes key step keyOf change f)
    (hkey : ∀ c a, key (f c a) = key a) (h : events.foldlM step l = .ok out) :
    out.map key = l.map key := by
  induction events generalizing l with
  | nil => rw [← Except.ok.inj h]
  | cons event events ih =>
      obtain ⟨mid, hmid, hrest⟩ := Codec.bind_eq_ok.1 h
      obtain ⟨-, c, -, rfl⟩ := hstep _ _ _ hmid
      rw [ih hrest, map_modify (hkey c)]

/-- The items of other keys stay. -/
theorem foldlM_modify_frame (hstep : Changes key step keyOf change f)
    (hkey : ∀ c a, key (f c a) = key a) (h : events.foldlM step l = .ok out)
    (hk : k ∉ events.map keyOf) : find key out k = find key l k := by
  induction events generalizing l with
  | nil => rw [← Except.ok.inj h]
  | cons event events ih =>
      obtain ⟨mid, hmid, hrest⟩ := Codec.bind_eq_ok.1 h
      obtain ⟨-, c, -, rfl⟩ := hstep _ _ _ hmid
      rw [List.map_cons, List.mem_cons, not_or] at hk
      rw [ih hrest hk.2, find_modify (hkey c)]
      simp [hk.1]

/-- **Each item of the loop changes once, as if it were alone.** -/
theorem foldlM_modify (hstep : Changes key step keyOf change f)
    (hkey : ∀ c a, key (f c a) = key a) (h : events.foldlM step l = .ok out)
    (hnodup : (events.map keyOf).Nodup) {event : β} (he : event ∈ events) :
    ∃ a c, find key l (keyOf event) = some a ∧ change event = .ok c ∧
      find key out (keyOf event) = some (f c a) := by
  induction events generalizing l with
  | nil => simp at he
  | cons first events ih =>
      obtain ⟨mid, hmid, hrest⟩ := Codec.bind_eq_ok.1 h
      obtain ⟨hfound, c, hc, rfl⟩ := hstep _ _ _ hmid
      obtain ⟨hfirst, hnodup⟩ := List.nodup_cons.1 hnodup
      rcases List.mem_cons.1 he with rfl | he
      · obtain ⟨a, ha⟩ := Option.ne_none_iff_exists'.1 hfound
        refine ⟨a, c, ha, hc, ?_⟩
        rw [foldlM_modify_frame hstep hkey hrest hfirst, find_modify (hkey c), ha]
        simp
      · obtain ⟨a, d, ha, hd, hout⟩ := ih hrest hnodup he
        have hne : keyOf event ≠ keyOf first := by
          intro heq
          exact hfirst (heq ▸ List.mem_map_of_mem he)
        refine ⟨a, d, ?_, hd, hout⟩
        rw [find_modify (hkey c)] at ha
        obtain ⟨b, hb, hba⟩ := Option.map_eq_some_iff.1 ha
        rw [if_neg hne] at hba
        exact hba ▸ hb

end Fold

end Keyed

/-- A set of ordered items; its list is the order of iteration. -/
structure OrderedSet (κ : Type) [LinearOrder κ] where
  toList : List κ
  ascending : Keyed.Ascending id toList
deriving DecidableEq

namespace OrderedSet

variable {κ : Type} [LinearOrder κ]

instance : Membership κ (OrderedSet κ) := ⟨fun s k => k ∈ s.toList⟩

instance (s : OrderedSet κ) (k : κ) : Decidable (k ∈ s) := inferInstanceAs (Decidable (k ∈ s.toList))

/-- The set without members. -/
def empty : OrderedSet κ := ⟨[], List.Pairwise.nil⟩

/-- Add a member. -/
def insert (s : OrderedSet κ) (k : κ) : OrderedSet κ :=
  if h : k ∈ s.toList then s
  else ⟨Keyed.insert id s.toList k, s.ascending.insert fun b hb heq => h ((show b = k from heq) ▸ hb)⟩

variable {s t : OrderedSet κ} {k k' : κ}

theorem mem_toList : k ∈ s.toList ↔ k ∈ s := Iff.rfl

@[simp] theorem not_mem_empty : k ∉ (empty : OrderedSet κ) := List.not_mem_nil

@[simp] theorem mem_insert : k ∈ s.insert k' ↔ k = k' ∨ k ∈ s := by
  unfold insert
  split_ifs with h
  · constructor
    · exact Or.inr
    · rintro (rfl | hk)
      · exact h
      · exact hk
  · exact Keyed.mem_insert

/-- **A set is what its members are.** -/
theorem ext_mem (h : ∀ k, k ∈ s ↔ k ∈ t) : s = t := by
  have hperm : s.toList.Perm t.toList :=
    (List.perm_ext_iff_of_nodup s.ascending.nodup t.ascending.nodup).2 h
  obtain ⟨s, hs⟩ := s
  obtain ⟨t, ht⟩ := t
  obtain rfl : s = t := List.Perm.eq_of_pairwise (fun _ _ _ _ hab hba => absurd hba hab.asymm) hs ht hperm
  rfl

end OrderedSet
