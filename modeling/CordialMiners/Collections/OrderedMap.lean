/-
# Ordered maps

A map from ordered keys to values is the list of its entries in the order of the
keys.  An entry is written over (`insert`), or kept where there is one already
(`orInsert`).

Filling a map from a list, the last item with a key wins in the first case
(`lookup_insertAll`) and the first in the second (`lookup_orInsertAll`).
-/

import CordialMiners.Collections.Keyed

namespace Keyed

variable {α κ : Type} [LinearOrder κ] {key : α → κ} {l : List α} {a : α} {p : α → Bool}

/-- **The first item with a property is the one of the least key.** -/
theorem Ascending.find?_eq_some_iff (h : Ascending key l) :
    l.find? p = some a ↔ a ∈ l ∧ p a = true ∧ ∀ b ∈ l, p b = true → key a ≤ key b := by
  induction l with
  | nil => simp
  | cons c l ih =>
      obtain ⟨hc, hl⟩ := List.pairwise_cons.1 h
      rw [List.find?_cons]
      cases hpc : p c with
      | true =>
          simp only [Option.some.injEq]
          constructor
          · rintro rfl
            refine ⟨List.mem_cons_self, hpc, fun b hb _ => ?_⟩
            rcases List.mem_cons.1 hb with rfl | hb
            · exact le_rfl
            · exact (hc b hb).le
          · rintro ⟨ha, -, hleast⟩
            rcases List.mem_cons.1 ha with rfl | ha
            · rfl
            · exact absurd (hleast c List.mem_cons_self hpc) (hc a ha).not_ge
      | false =>
          rw [ih hl]
          constructor
          · rintro ⟨ha, hpa, hleast⟩
            refine ⟨List.mem_cons_of_mem _ ha, hpa, fun b hb hpb => ?_⟩
            rcases List.mem_cons.1 hb with rfl | hb
            · rw [hpc] at hpb
              exact absurd hpb (by simp)
            · exact hleast b hb hpb
          · rintro ⟨ha, hpa, hleast⟩
            rcases List.mem_cons.1 ha with rfl | ha
            · rw [hpc] at hpa
              exact absurd hpa (by simp)
            · exact ⟨ha, hpa, fun b hb => hleast b (List.mem_cons_of_mem _ hb)⟩

end Keyed

/-- A map from ordered keys; its list is the order of iteration. -/
structure OrderedMap (κ ν : Type) [LinearOrder κ] where
  entries : List (κ × ν)
  ascending : Keyed.Ascending Prod.fst entries

namespace OrderedMap

variable {κ ν α : Type} [LinearOrder κ]

/-- Two maps are equal where their entries are. -/
instance decidableEq [DecidableEq ν] : DecidableEq (OrderedMap κ ν) := fun m m' =>
  decidable_of_iff (m.entries = m'.entries) ⟨fun h => by cases m; cases m'; congr, fun h => by rw [h]⟩

/-- The map without entries. -/
def empty : OrderedMap κ ν := ⟨[], List.Pairwise.nil⟩

/-- The value of a key. -/
def lookup (m : OrderedMap κ ν) (k : κ) : Option ν := (Keyed.find Prod.fst m.entries k).map Prod.snd

/-- The values in the order of their keys. -/
def values (m : OrderedMap κ ν) : List ν := m.entries.map Prod.snd

/-- The keys in their order. -/
def keys (m : OrderedMap κ ν) : List κ := m.entries.map Prod.fst

/-- Remove the entry of a key. -/
def erase (m : OrderedMap κ ν) (k : κ) : OrderedMap κ ν :=
  ⟨m.entries.filter fun entry => entry.1 ≠ k, m.ascending.filter _⟩

/-- Change the value of a key, or add an entry for it. -/
def upsert (m : OrderedMap κ ν) (k : κ) (v : ν) (change : ν → ν) : OrderedMap κ ν :=
  if h : Keyed.find Prod.fst m.entries k = none then
    ⟨Keyed.insert Prod.fst m.entries (k, v), m.ascending.insert fun b hb =>
      Keyed.find_eq_none_iff.1 h b hb⟩
  else
    ⟨Keyed.modify Prod.fst m.entries k (Prod.map id change), m.ascending.modify (fun a => by simp) k⟩

/-- Set the value of a key. -/
def insert (m : OrderedMap κ ν) (k : κ) (v : ν) : OrderedMap κ ν := m.upsert k v fun _ => v

/-- Set the value of a key that has none. -/
def orInsert (m : OrderedMap κ ν) (k : κ) (v : ν) : OrderedMap κ ν := m.upsert k v id

variable {m : OrderedMap κ ν} {k k' : κ} {v : ν} {change : ν → ν}

@[simp] theorem lookup_empty : (empty : OrderedMap κ ν).lookup k = none := rfl

theorem mem_entries_iff : (k, v) ∈ m.entries ↔ m.lookup k = some v := by
  unfold lookup
  rw [Option.map_eq_some_iff]
  constructor
  · intro h
    exact ⟨(k, v), (Keyed.find_eq_some_iff m.ascending).2 ⟨h, rfl⟩, rfl⟩
  · rintro ⟨entry, hentry, rfl⟩
    obtain ⟨hmem, rfl⟩ := (Keyed.find_eq_some_iff m.ascending).1 hentry
    exact hmem

theorem mem_values_iff : v ∈ m.values ↔ ∃ k, m.lookup k = some v := by
  unfold values
  rw [List.mem_map]
  constructor
  · rintro ⟨⟨k, v⟩, hmem, rfl⟩
    exact ⟨k, mem_entries_iff.1 hmem⟩
  · rintro ⟨k, h⟩
    exact ⟨(k, v), mem_entries_iff.2 h, rfl⟩

theorem mem_keys_iff : k ∈ m.keys ↔ m.lookup k ≠ none := by
  unfold keys
  rw [List.mem_map, Option.ne_none_iff_exists']
  constructor
  · rintro ⟨⟨k, v⟩, hmem, rfl⟩
    exact ⟨v, mem_entries_iff.1 hmem⟩
  · rintro ⟨v, h⟩
    exact ⟨(k, v), mem_entries_iff.2 h, rfl⟩

/-- **A map is what its keys have as values.** -/
theorem ext_lookup {m' : OrderedMap κ ν} (h : ∀ k, m.lookup k = m'.lookup k) : m = m' := by
  have hperm : m.entries.Perm m'.entries := by
    refine (List.perm_ext_iff_of_nodup m.ascending.nodup m'.ascending.nodup).2 fun ⟨k, v⟩ => ?_
    rw [mem_entries_iff, mem_entries_iff, h]
  obtain ⟨l, hl⟩ := m
  obtain ⟨l', hl'⟩ := m'
  obtain rfl : l = l' :=
    List.Perm.eq_of_pairwise (fun _ _ _ _ hab hba => absurd hba hab.asymm) hl hl' hperm
  rfl

@[simp] theorem lookup_erase : (m.erase k).lookup k' = if k' = k then none else m.lookup k' := by
  refine Option.ext fun v => ?_
  unfold erase
  rw [← mem_entries_iff, List.mem_filter, decide_eq_true_eq]
  split_ifs with hk
  · simp [hk]
  · rw [mem_entries_iff]
    simp [hk]

theorem lookup_upsert : (m.upsert k v change).lookup k' =
    if k' = k then some (((m.lookup k).map change).getD v) else m.lookup k' := by
  unfold upsert lookup
  split_ifs with hnew hk hk
  · subst hk
    dsimp only
    rw [Keyed.find_insert m.ascending (Keyed.find_eq_none_iff.1 hnew), if_pos rfl, hnew]
    rfl
  · dsimp only
    rw [Keyed.find_insert m.ascending (Keyed.find_eq_none_iff.1 hnew), if_neg (fun h => hk h)]
  · subst hk
    dsimp only
    rw [Keyed.find_modify fun a => by simp]
    obtain ⟨entry, hentry⟩ := Option.ne_none_iff_exists'.1 hnew
    simp [hentry]
  · dsimp only
    rw [Keyed.find_modify fun a => by simp]
    simp [hk]

@[simp] theorem lookup_insert :
    (m.insert k v).lookup k' = if k' = k then some v else m.lookup k' := by
  unfold insert
  rw [lookup_upsert]
  cases m.lookup k <;> rfl

@[simp] theorem lookup_orInsert :
    (m.orInsert k v).lookup k' = if k' = k then some ((m.lookup k).getD v) else m.lookup k' := by
  unfold orInsert
  rw [lookup_upsert, Option.map_id]
  rfl

/-! ### Changing all values -/

/-- The map with its values changed. -/
def map {μ : Type} (f : ν → μ) (m : OrderedMap κ ν) : OrderedMap κ μ :=
  ⟨m.entries.map (Prod.map id f), m.ascending.map fun _ => rfl⟩

@[simp] theorem lookup_map {μ : Type} {f : ν → μ} : (m.map f).lookup k = (m.lookup k).map f := by
  unfold lookup map
  dsimp only
  rw [Keyed.find_map (fun _ => rfl) k, Option.map_map, Option.map_map]
  rfl

theorem values_map {μ : Type} {f : ν → μ} : (m.map f).values = m.values.map f := by
  unfold values map
  rw [List.map_map, List.map_map]
  rfl

/-! ### Filling a map -/

variable {key : α → κ} {value : α → ν} {items : List α}

/-- Set the values of the keys one after the other. -/
def insertAll (m : OrderedMap κ ν) (key : α → κ) (value : α → ν) (items : List α) :
    OrderedMap κ ν := items.foldl (fun m a => m.insert (key a) (value a)) m

/-- Set the values of the keys that have none, one after the other. -/
def orInsertAll (m : OrderedMap κ ν) (key : α → κ) (value : α → ν) (items : List α) :
    OrderedMap κ ν := items.foldl (fun m a => m.orInsert (key a) (value a)) m

/-- **The last item with a key wins.** -/
theorem lookup_insertAll : (m.insertAll key value items).lookup k =
    ((items.reverse.find? fun a => key a = k).map value).or (m.lookup k) := by
  induction items generalizing m with
  | nil => rfl
  | cons a items ih =>
      unfold insertAll at ih ⊢
      rw [List.foldl_cons, ih, List.reverse_cons, List.find?_append]
      cases items.reverse.find? fun b => key b = k with
      | some b => rfl
      | none =>
          by_cases hk : key a = k
          · simp [hk]
          · simp [hk, Ne.symm hk]

/-- **The first item with a key wins**, unless the key has a value. -/
theorem lookup_orInsertAll : (m.orInsertAll key value items).lookup k =
    (m.lookup k).or ((items.find? fun a => key a = k).map value) := by
  induction items generalizing m with
  | nil => simp [orInsertAll]
  | cons a items ih =>
      unfold orInsertAll at ih ⊢
      rw [List.foldl_cons, ih, List.find?_cons, lookup_orInsert]
      by_cases hk : key a = k
      · subst hk
        cases m.lookup (key a) <;> simp
      · simp [hk, Ne.symm hk]

/-- **The order of the items does not matter**, nor how often each comes up, as far as
the items of a key agree. -/
theorem lookup_orInsertAll_congr {μ : Type} {f : ν → μ} {items' : List α}
    (hmem : ∀ a, a ∈ items ↔ a ∈ items')
    (hf : ∀ a ∈ items, ∀ b ∈ items, key a = key b → f (value a) = f (value b)) :
    ((m.orInsertAll key value items).lookup k).map f =
      ((m.orInsertAll key value items').lookup k).map f := by
  rw [lookup_orInsertAll, lookup_orInsertAll]
  cases m.lookup k with
  | some v => rfl
  | none =>
      rw [Option.none_or, Option.none_or, Option.map_map, Option.map_map]
      cases hfind : items.find? fun a => key a = k with
      | none =>
          have hnone : (items'.find? fun a => key a = k) = none := by
            rw [List.find?_eq_none] at hfind ⊢
            exact fun a ha => hfind a ((hmem a).2 ha)
          rw [hnone]
      | some a =>
          have ha := List.mem_of_find?_eq_some hfind
          have hka : key a = k := by simpa using List.find?_some hfind
          cases hfind' : items'.find? fun a => key a = k with
          | none => exact absurd (List.find?_eq_none.1 hfind' a ((hmem a).1 ha)) (by simp [hka])
          | some b =>
              have hb := (hmem b).2 (List.mem_of_find?_eq_some hfind')
              have hkb : key b = k := by simpa using List.find?_some hfind'
              exact congrArg some (hf a ha b hb (hka.trans hkb.symm))

/-- What a filled map holds comes from an item. -/
theorem exists_of_lookup_insertAll (h : (insertAll empty key value items).lookup k = some v) :
    ∃ a ∈ items, key a = k ∧ value a = v := by
  rw [lookup_insertAll, lookup_empty, Option.or_none, Option.map_eq_some_iff] at h
  obtain ⟨a, ha, rfl⟩ := h
  exact ⟨a, List.mem_reverse.1 (List.mem_of_find?_eq_some ha), by simpa using List.find?_some ha, rfl⟩

theorem exists_lookup_insertAll {a : α} (ha : a ∈ items) :
    ∃ v, (insertAll empty key value items).lookup (key a) = some v := by
  rw [lookup_insertAll, lookup_empty, Option.or_none]
  cases hfind : items.reverse.find? fun b => key b = key a with
  | some b => exact ⟨value b, rfl⟩
  | none =>
      have hnone := List.find?_eq_none.1 hfind a (List.mem_reverse.2 ha)
      simp at hnone

/-- Where the key decides the value, the map holds the value of every item. -/
theorem lookup_insertAll_iff
    (hvalue : ∀ a ∈ items, ∀ b ∈ items, key a = key b → value a = value b) :
    (insertAll empty key value items).lookup k = some v ↔ ∃ a ∈ items, key a = k ∧ value a = v := by
  refine ⟨exists_of_lookup_insertAll, ?_⟩
  rintro ⟨a, ha, rfl, rfl⟩
  obtain ⟨v, hv⟩ : ∃ v, (insertAll empty key value items).lookup (key a) = some v :=
    exists_lookup_insertAll ha
  obtain ⟨b, hb, hkey, rfl⟩ := exists_of_lookup_insertAll hv
  rw [hv, hvalue b hb a ha hkey]

/-- A map is filled again from its entries. -/
theorem insertAll_entries : insertAll empty Prod.fst Prod.snd m.entries = m := by
  refine ext_lookup fun k => Option.ext fun v => ?_
  rw [lookup_insertAll_iff]
  · constructor
    · rintro ⟨⟨k, v⟩, hmem, rfl, rfl⟩
      exact mem_entries_iff.1 hmem
    · intro h
      exact ⟨(k, v), mem_entries_iff.2 h, rfl, rfl⟩
  · rintro ⟨k, v⟩ ha ⟨k', v'⟩ hb rfl
    exact Option.some.inj ((mem_entries_iff.1 ha).symm.trans (mem_entries_iff.1 hb))

/-- **Items with keys of their own are the entries of the map filled from them.** -/
theorem insertAll_perm (hnodup : (items.map key).Nodup) :
    (insertAll empty key value items).entries.Perm (items.map fun a => (key a, value a)) := by
  have hinj := List.inj_on_of_nodup_map hnodup
  have hitems : (items.map fun a => (key a, value a)).Nodup := by
    refine List.Nodup.of_map Prod.fst ?_
    rw [List.map_map]
    exact hnodup
  refine (List.perm_ext_iff_of_nodup (insertAll empty key value items).ascending.nodup hitems).2
    fun ⟨k, v⟩ => ?_
  rw [mem_entries_iff, lookup_insertAll_iff fun a ha b hb h => congrArg value (hinj ha hb h),
    List.mem_map]
  simp only [Prod.mk.injEq]

/-- A new key is one more entry. -/
theorem insert_perm_of_lookup_eq_none (h : m.lookup k = none) :
    (m.insert k v).entries.Perm ((k, v) :: m.entries) := by
  have hnotMem : (k, v) ∉ m.entries := by
    rw [mem_entries_iff, h]
    simp
  refine (List.perm_ext_iff_of_nodup (m.insert k v).ascending.nodup
    (List.nodup_cons.2 ⟨hnotMem, m.ascending.nodup⟩)).2 fun ⟨k', v'⟩ => ?_
  rw [List.mem_cons, mem_entries_iff, mem_entries_iff, lookup_insert, Prod.mk.injEq]
  split_ifs with hk
  · subst hk
    simp [h, eq_comm]
  · simp [hk]

end OrderedMap
