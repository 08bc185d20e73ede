/-
# Fork choice

`fork_choice`, `compute_lca` and `walk_to_lca` of `consensus/fork_choice.rs`.

The tips of the bonded validators that satisfy the chain axiom have common ancestors; one of
them that no other is above is taken for the lowest, and every block on a path from a tip
down to it is scored with the stakes of the tips above it.

Hash maps and sets have no order of their own, so the orders in which the bonds and the common
ancestors are met are parameters (`IterationOrder`); the orders of the blocks and of the
references are those of the blocklace (`Reordered`).  The answer does not depend on any of
them exactly where one common ancestor is the highest, the stakes fit 64 bits, and no two
tips are ranked equal (`fork_choice_order_free_iff`).
-/

import CordialMiners.Collections.OrderedMap
import CordialMiners.Core.Growth
import CordialMiners.Core.Wave
import CordialMiners.Node.Candidate

namespace CordialMiners

open FinGraph Relation

/-- `ForkChoice`. -/
structure ForkChoice where
  tips : List BlockIdentity
  lca : BlockIdentity
  scores : OrderedMap BlockIdentity ℕ

/-- The orders in which the bonds and the common ancestors are met. -/
structure IterationOrder where
  bonded : List NodeId → List NodeId
  common : List BlockIdentity → List BlockIdentity
  bonded_perm : ∀ l, (bonded l).Perm l
  common_perm : ∀ l, (common l).Perm l

/-- A list with one of its members moved to the front. -/
def frontFirst {α : Type} [DecidableEq α] (a : α) (l : List α) : List α :=
  if a ∈ l then a :: l.erase a else l

theorem frontFirst_perm {α : Type} [DecidableEq α] (a : α) (l : List α) :
    (frontFirst a l).Perm l := by
  unfold frontFirst
  split_ifs with ha
  · exact (List.perm_cons_erase ha).symm
  · exact List.Perm.refl l

namespace IterationOrder

/-- The orders of the lists themselves. -/
def plain : IterationOrder := ⟨id, id, .refl, .refl⟩

/-- The order that meets a block first. -/
def preferring (order : IterationOrder) (x : BlockIdentity) : IterationOrder :=
  { order with common := frontFirst x, common_perm := frontFirst_perm x }

/-- The order that meets a validator first. -/
def leading (order : IterationOrder) (v : NodeId) : IterationOrder :=
  { order with bonded := frontFirst v, bonded_perm := frontFirst_perm v }

end IterationOrder

namespace Blocklace

/-! ### The tips and their lowest common ancestor -/

/-- The bonded validators that do not equivocate, with their tips. -/
def validatorTips (B : Blocklace) (bonds : Bonds) (order : IterationOrder) :
    List (NodeId × Block) :=
  ((order.bonded bonds.table.keys).filter (· ∉ B.findEquivacators)).filterMap fun node =>
    (B.tipOf node).map fun tip => (node, tip)

/-- `ancestors_inclusive`. -/
def ancestorsInclusive (B : Blocklace) (id : BlockIdentity) : List Block :=
  match B.get id with
  | none => B.ancestors id
  | some block => (B.ancestors id).insert block

/-- The intersection of the ancestor sets of some tips. -/
def commonAncestors (B : Blocklace) : List BlockIdentity → List BlockIdentity
  | [] => []
  | tip :: rest =>
      rest.foldl (fun common tip => common.filter (· ∈ (B.ancestorsInclusive tip).map Block.identity))
        ((B.ancestorsInclusive tip).map Block.identity)

/-- `compute_lca`. -/
def computeLca (B : Blocklace) (order : IterationOrder) :
    List BlockIdentity → Option BlockIdentity
  | [] => none
  | [tip] => some tip
  | tips =>
      let common := B.commonAncestors tips
      if common = [] then none
      else (order.common common).find? fun candidate =>
        !common.any fun other => other ≠ candidate && B.precedes candidate other

/-- The references that the walk to `target` follows from a block. -/
def walkNext (B : Blocklace) (target current : BlockIdentity) : List BlockIdentity :=
  if current = target then []
  else
    match B.content current with
    | none => []
    | some content => (content.predecessors.filterMap B.resolveIdentity).filter fun resolved =>
        B.preceedesOrEquals target resolved

/-- `walk_to_lca`. -/
def walkToLca (B : Blocklace) (start target : BlockIdentity) : List BlockIdentity :=
  match B.resolveIdentity start with
  | none => []
  | some start => drain (B.walkNext target)
      (1 + ∑ x ∈ B.dom.toFinset, (B.walkNext target x).length) [start] []

/-! ### Scores and ranks -/

/-- `scores.entry(id).or_insert(0) += stake` over the blocks of a walk; `none` where a sum
overflows. -/
def addStake (stake : ℕ) (ids : List BlockIdentity) (scores : OrderedMap BlockIdentity ℕ) :
    Option (OrderedMap BlockIdentity ℕ) :=
  ids.foldlM (fun scores id => do
    let total ← checkedAdd64 ((scores.lookup id).getD 0) stake
    some (scores.insert id total)) scores

/-- The score map. -/
def scoreMap (B : Blocklace) (bonds : Bonds) (lca : BlockIdentity)
    (tips : List (NodeId × Block)) : Option (OrderedMap BlockIdentity ℕ) :=
  tips.foldlM (fun scores entry =>
    let stake := bonds.weight entry.1
    if stake = 0 then some scores
    else addStake stake (B.walkToLca entry.2.identity lca) scores) .empty

/-- Whether a tip is ranked before another, or equal to it. -/
def RankedBefore (scores : OrderedMap BlockIdentity ℕ) (a b : BlockIdentity) : Prop :=
  (scores.lookup b).getD 0 < (scores.lookup a).getD 0 ∨
    (scores.lookup b).getD 0 = (scores.lookup a).getD 0 ∧ a.contentHash ≤ b.contentHash

instance (scores : OrderedMap BlockIdentity ℕ) : DecidableRel (RankedBefore scores) := fun _ _ =>
  inferInstanceAs (Decidable (_ ∨ _))

/-- `fork_choice`; `none` where a score overflows. -/
def forkChoice (B : Blocklace) (bonds : Bonds) (order : IterationOrder) :
    Option (Option ForkChoice) :=
  let tips := B.validatorTips bonds order
  let ids := tips.map fun entry => entry.2.identity
  if tips = [] then some none
  else
    match B.computeLca order ids with
    | none => some none
    | some lca => do
        let scores ← B.scoreMap bonds lca tips
        some (some ⟨ids.eraseDups.insertionSort (RankedBefore scores), lca, scores⟩)

/-! ### What the functions compute -/

variable {B B' : Blocklace} {bonds : Bonds} {order : IterationOrder} {v w : NodeId}
  {s t x y lca : BlockIdentity} {tips : List (NodeId × Block)}

/-- The tip of a bonded validator that does not equivocate. -/
def Tip (B : Blocklace) (bonds : Bonds) (v : NodeId) (t : BlockIdentity) : Prop :=
  v ∈ bonds.table ∧ v ∉ B.findEquivacators ∧ ∃ tip, B.tipOf v = some tip ∧ tip.identity = t

/-- What all tips see. -/
def Common (B : Blocklace) (bonds : Bonds) (x : BlockIdentity) : Prop :=
  ∀ v t, B.Tip bonds v t → B.Sees t x

/-- **A lowest common ancestor:** the tip, if there is one only; else a block that all tips see
and that is not below another such block. -/
def IsLca (B : Blocklace) (bonds : Bonds) (x : BlockIdentity) : Prop :=
  (∃ v, B.Tip bonds v x ∧ ∀ w t, B.Tip bonds w t → w = v) ∨
    (∃ v w s t, B.Tip bonds v s ∧ B.Tip bonds w t ∧ v ≠ w) ∧ B.Common bonds x ∧
      ∀ y, B.Common bonds y → y ≠ x → ¬B.Below x y

/-- The references of a block on a path down to `lca`. -/
def downTo (B : Blocklace) (lca x : BlockIdentity) : List BlockIdentity :=
  if x = lca then [] else B.expand x

/-- A path from `t` down to `lca` passes `x`. -/
def OnPath (B : Blocklace) (lca t x : BlockIdentity) : Prop :=
  Reach (B.downTo lca) t x ∧ B.Sees x lca

theorem Tip.mem (h : B.Tip bonds v t) : t ∈ B.blocks := by
  obtain ⟨-, -, tip, htip, rfl⟩ := h
  exact (tipOf_eq_some htip).1.mem

theorem Tip.creator (h : B.Tip bonds v t) : t.creator = v := by
  obtain ⟨-, -, tip, htip, rfl⟩ := h
  exact (tipOf_eq_some htip).2.1

theorem Tip.unique (hs : B.Tip bonds v s) (ht : B.Tip bonds v t) : s = t := by
  obtain ⟨-, -, tip, htip, rfl⟩ := hs
  obtain ⟨-, -, tip', htip', rfl⟩ := ht
  rw [Option.some.inj (htip.symm.trans htip')]

theorem mem_validatorTips {b : Block} :
    (v, b) ∈ B.validatorTips bonds order ↔ v ∈ bonds.table ∧ v ∉ B.findEquivacators ∧
      B.tipOf v = some b := by
  unfold validatorTips
  rw [List.mem_filterMap]
  simp only [List.mem_filter, decide_eq_true_eq, Option.map_eq_some_iff, Prod.mk.injEq,
    (order.bonded_perm _).mem_iff, ← AList.mem_keys]
  constructor
  · rintro ⟨n, ⟨hkey, hn⟩, tip, htip, rfl, rfl⟩
    exact ⟨hkey, hn, htip⟩
  · rintro ⟨hkey, hn, htip⟩
    exact ⟨v, ⟨hkey, hn⟩, b, htip, rfl, rfl⟩

/-- The tips that the code has collected. -/
theorem exists_mem_validatorTips_iff :
    (∃ b, (v, b) ∈ B.validatorTips bonds order ∧ b.identity = t) ↔ B.Tip bonds v t := by
  simp only [mem_validatorTips]
  constructor
  · rintro ⟨b, ⟨hkey, hn, hb⟩, rfl⟩
    exact ⟨hkey, hn, b, hb, rfl⟩
  · rintro ⟨hkey, hn, b, hb, rfl⟩
    exact ⟨b, ⟨hkey, hn, hb⟩, rfl⟩

theorem tip_of_mem_validatorTips {entry : NodeId × Block}
    (h : entry ∈ B.validatorTips bonds order) : B.Tip bonds entry.1 entry.2.identity :=
  exists_mem_validatorTips_iff.1 ⟨entry.2, h, rfl⟩

/-- Every validator is collected once. -/
theorem nodup_validatorTips :
    ((B.validatorTips bonds order).map Prod.fst).Nodup := by
  have hkeys : (order.bonded bonds.table.keys).Nodup :=
    (order.bonded_perm _).nodup_iff.2 bonds.table.nodupKeys
  have hmap (l : List NodeId) : ((l.filterMap fun node =>
      (B.tipOf node).map fun tip => (node, tip)).map Prod.fst).Sublist l := by
    induction l with
    | nil => exact List.Sublist.refl []
    | cons node l ih =>
        rw [List.filterMap_cons]
        cases htip : B.tipOf node with
        | none => exact ih.cons node
        | some tip => exact ih.cons_cons node
  exact (hkeys.filter _).sublist (hmap _)

/-- The tips as identities. -/
def tipIds (B : Blocklace) (bonds : Bonds) (order : IterationOrder) : List BlockIdentity :=
  (B.validatorTips bonds order).map fun entry => entry.2.identity

/-- The tips are distinct blocks. -/
theorem nodup_tipIds : (B.tipIds bonds order).Nodup := by
  have hcreators : ((B.validatorTips bonds order).map fun entry => entry.2.identity).map
      BlockIdentity.creator = (B.validatorTips bonds order).map Prod.fst := by
    rw [List.map_map]
    refine List.map_congr_left fun entry hentry => ?_
    exact (tip_of_mem_validatorTips hentry).creator
  exact List.Nodup.of_map _ (hcreators ▸ nodup_validatorTips)

theorem mem_ancestorsInclusive_iff (ht : t ∈ B.blocks) :
    x ∈ (B.ancestorsInclusive t).map Block.identity ↔ B.Sees t x := by
  obtain ⟨b, rfl, hb⟩ := exists_stores ht
  unfold ancestorsInclusive
  rw [hb.get, List.mem_map, sees_iff_eq_or_below]
  constructor
  · rintro ⟨c, hc, rfl⟩
    rcases List.mem_insert_iff.1 hc with rfl | hc
    · exact .inl rfl
    · exact .inr (mem_ancestors_iff.1 hc).2
  · rintro (rfl | hbelow)
    · exact ⟨b, List.mem_insert_self, rfl⟩
    · obtain ⟨c, rfl, hc⟩ := exists_stores hbelow.mem
      exact ⟨c, List.mem_insert_of_mem (mem_ancestors_iff.2 ⟨hc, hbelow⟩), rfl⟩

theorem mem_commonAncestors_iff {ids : List BlockIdentity} (hne : ids ≠ [])
    (hids : ∀ t ∈ ids, t ∈ B.blocks) : x ∈ B.commonAncestors ids ↔ ∀ t ∈ ids, B.Sees t x := by
  cases ids with
  | nil => exact absurd rfl hne
  | cons tip rest =>
      have hfold (rest common : List BlockIdentity) (hrest : ∀ t ∈ rest, t ∈ B.blocks) :
          x ∈ rest.foldl (fun common tip =>
              common.filter (· ∈ (B.ancestorsInclusive tip).map Block.identity)) common ↔
            x ∈ common ∧ ∀ t ∈ rest, B.Sees t x := by
        induction rest generalizing common with
        | nil => simp
        | cons tip rest ih =>
            rw [List.foldl_cons, ih _ fun t ht => hrest t (List.mem_cons_of_mem _ ht),
              List.mem_filter, decide_eq_true_eq,
              mem_ancestorsInclusive_iff (hrest tip (List.mem_cons_self ..)), List.forall_mem_cons,
              and_assoc]
      unfold commonAncestors
      rw [hfold rest _ fun t ht => hids t (List.mem_cons_of_mem _ ht),
        mem_ancestorsInclusive_iff (hids tip (List.mem_cons_self ..)), List.forall_mem_cons]

/-! ### The lowest common ancestor -/

theorem mem_tipIds : t ∈ B.tipIds bonds order ↔ ∃ v, B.Tip bonds v t := by
  unfold tipIds
  rw [List.mem_map]
  constructor
  · rintro ⟨entry, hentry, rfl⟩
    exact ⟨entry.1, tip_of_mem_validatorTips hentry⟩
  · rintro ⟨v, htip⟩
    obtain ⟨b, hb, rfl⟩ : ∃ b, (v, b) ∈ B.validatorTips bonds order ∧ b.identity = t :=
      exists_mem_validatorTips_iff.2 htip
    exact ⟨(v, b), hb, rfl⟩

theorem tipIds_subset : ∀ t ∈ B.tipIds bonds order, t ∈ B.blocks := fun t ht => by
  obtain ⟨v, htip⟩ := mem_tipIds.1 ht
  exact htip.mem

theorem mem_commonAncestors_tipIds (hne : B.tipIds bonds order ≠ []) :
    x ∈ B.commonAncestors (B.tipIds bonds order) ↔ B.Common bonds x := by
  rw [mem_commonAncestors_iff hne tipIds_subset]
  simp only [mem_tipIds]
  exact ⟨fun h v t htip => h t ⟨v, htip⟩, fun h t ⟨v, htip⟩ => h v t htip⟩

/-- The test of a candidate. -/
theorem candidate_iff {common : List BlockIdentity} (hx : x ∈ B.blocks)
    (hcommon : ∀ y, y ∈ common ↔ B.Common bonds y) :
    (!common.any fun other => other ≠ x && B.precedes x other) = true ↔
      ∀ y, B.Common bonds y → y ≠ x → ¬B.Below x y := by
  simp only [Bool.not_eq_true', ← Bool.not_eq_true, List.any_eq_true, Bool.and_eq_true,
    decide_eq_true_eq, precedes_of_mem hx, hcommon]
  push Not
  rfl

/-- There are tips of two validators exactly where two identities are collected. -/
theorem two_tips_iff : 2 ≤ (B.tipIds bonds order).length ↔
    ∃ v w s t, B.Tip bonds v s ∧ B.Tip bonds w t ∧ v ≠ w := by
  constructor
  · intro hlength
    have hnodup : (B.tipIds bonds order).Nodup := nodup_tipIds
    cases hids : B.tipIds bonds order with
    | nil => simp [hids] at hlength
    | cons s rest =>
        cases rest with
        | nil => simp [hids] at hlength
        | cons t rest =>
            obtain ⟨v, hv⟩ := mem_tipIds.1 (hids ▸ List.mem_cons_self ..)
            obtain ⟨w, hw⟩ := mem_tipIds.1
              (hids ▸ List.mem_cons_of_mem s (List.mem_cons_self (a := t) (l := rest)))
            refine ⟨v, w, s, t, hv, hw, fun heq => ?_⟩
            subst heq
            rw [hids, hv.unique hw] at hnodup
            exact (List.nodup_cons.1 hnodup).1 (List.mem_cons_self ..)
  · rintro ⟨v, w, s, t, hs, ht, hne⟩
    have hst : s ≠ t := fun heq => hne (by rw [← hs.creator, ← ht.creator, heq])
    have hsub : ({s, t} : Finset BlockIdentity) ⊆ (B.tipIds bonds order).toFinset := by
      intro x hx
      rw [List.mem_toFinset, mem_tipIds]
      rcases Finset.mem_insert.1 hx with rfl | hx
      · exact ⟨v, hs⟩
      · exact Finset.mem_singleton.1 hx ▸ ⟨w, ht⟩
    have hcard := Finset.card_le_card hsub
    rw [Finset.card_pair hst] at hcard
    exact hcard.trans (List.toFinset_card_le _)

theorem computeLca_of_two {ids : List BlockIdentity} (h : 2 ≤ ids.length) :
    B.computeLca order ids = if B.commonAncestors ids = [] then none
      else (order.common (B.commonAncestors ids)).find? fun candidate =>
        !(B.commonAncestors ids).any fun other =>
          other ≠ candidate && B.precedes candidate other := by
  match ids, h with
  | [], h => simp at h
  | [_], h => simp at h
  | _ :: _ :: _, _ => rfl

/-- One tip. -/
theorem isLca_of_single (h : B.tipIds bonds order = [t]) : B.IsLca bonds x ↔ x = t := by
  have honly {w : NodeId} {s : BlockIdentity} (hs : B.Tip bonds w s) : s = t :=
    List.mem_singleton.1 (h ▸ mem_tipIds.2 ⟨w, hs⟩)
  obtain ⟨v, hv⟩ : ∃ v, B.Tip bonds v t := mem_tipIds.1 (h ▸ List.mem_singleton_self t)
  constructor
  · rintro (⟨w, hw, -⟩ | ⟨htwo, -⟩)
    · exact honly hw
    · have hlength : 2 ≤ (B.tipIds bonds order).length := two_tips_iff.2 htwo
      rw [h] at hlength
      simp at hlength
  · rintro rfl
    refine .inl ⟨v, hv, fun w s hs => ?_⟩
    rw [← hs.creator, honly hs, hv.creator]

/-- Two tips or more. -/
theorem isLca_of_two (h : 2 ≤ (B.tipIds bonds order).length) : B.IsLca bonds x ↔
    B.Common bonds x ∧ ∀ y, B.Common bonds y → y ≠ x → ¬B.Below x y := by
  have htwo := two_tips_iff.1 h
  constructor
  · rintro (⟨u, -, honly⟩ | ⟨-, hhighest⟩)
    · obtain ⟨v, w, s, t, hs, ht, hne⟩ := htwo
      exact absurd ((honly v s hs).trans (honly w t ht).symm) hne
    · exact hhighest
  · exact fun hhighest => .inr ⟨htwo, hhighest⟩

theorem Common.mem (h : B.Common bonds x) (htip : B.Tip bonds v t) : x ∈ B.blocks :=
  (h v t htip).mem htip.mem

/-- **What `compute_lca` returns** is a lowest common ancestor. -/
theorem isLca_of_computeLca (h : B.computeLca order (B.tipIds bonds order) = some x) :
    B.IsLca bonds x := by
  by_cases htwo : 2 ≤ (B.tipIds bonds order).length
  · rw [computeLca_of_two htwo] at h
    split_ifs at h with hnone
    have hne : B.tipIds bonds order ≠ [] := fun hnil => by simp [hnil] at htwo
    have hx := (order.common_perm _).mem_iff.1 (List.mem_of_find?_eq_some h)
    have hcommon := (mem_commonAncestors_tipIds hne).1 hx
    obtain ⟨v, _, t, _, htip, -⟩ := two_tips_iff.1 htwo
    have htest := List.find?_some h
    rw [candidate_iff (hcommon.mem htip) fun y => mem_commonAncestors_tipIds hne] at htest
    exact (isLca_of_two htwo).2 ⟨hcommon, htest⟩
  · cases hids : B.tipIds bonds order with
    | nil => simp [hids, computeLca] at h
    | cons t rest =>
        cases rest with
        | nil =>
            rw [hids] at h
            obtain rfl := Option.some.inj h
            exact (isLca_of_single hids).2 rfl
        | cons t' rest => simp [hids] at htwo

/-- **`compute_lca` finds a lowest common ancestor where there is one.** -/
theorem computeLca_isSome (h : B.IsLca bonds x) :
    (B.computeLca order (B.tipIds bonds order)).isSome = true := by
  by_cases htwo : 2 ≤ (B.tipIds bonds order).length
  · have hne : B.tipIds bonds order ≠ [] := fun hnil => by simp [hnil] at htwo
    obtain ⟨hcommon, hhighest⟩ := (isLca_of_two htwo).1 h
    obtain ⟨v, _, t, _, htip, -⟩ := two_tips_iff.1 htwo
    have hx := (mem_commonAncestors_tipIds hne).2 hcommon
    rw [computeLca_of_two htwo, if_neg (List.ne_nil_of_mem hx), List.find?_isSome]
    exact ⟨x, (order.common_perm _).mem_iff.2 hx, (candidate_iff (hcommon.mem htip) fun y =>
      mem_commonAncestors_tipIds hne).2 hhighest⟩
  · cases hids : B.tipIds bonds order with
    | nil =>
        obtain ⟨v, htip⟩ : ∃ v t, B.Tip bonds v t := by
          rcases h with ⟨v, hv, -⟩ | ⟨⟨v, _, t, _, hv, -⟩, -⟩
          · exact ⟨v, x, hv⟩
          · exact ⟨v, t, hv⟩
        obtain ⟨t, htip⟩ := htip
        have hmem : t ∈ B.tipIds bonds order := mem_tipIds.2 ⟨v, htip⟩
        simp [hids] at hmem
    | cons t rest =>
        cases rest with
        | nil => rfl
        | cons t' rest => simp [hids] at htwo

/-- **Each lowest common ancestor is returned in some order.** -/
theorem computeLca_preferring (h : B.IsLca bonds x) :
    B.computeLca (order.preferring x) (B.tipIds bonds order) = some x := by
  by_cases htwo : 2 ≤ (B.tipIds bonds order).length
  · have hne : B.tipIds bonds order ≠ [] := fun hnil => by simp [hnil] at htwo
    obtain ⟨hcommon, hhighest⟩ := (isLca_of_two htwo).1 h
    obtain ⟨v, _, t, _, htip, -⟩ := two_tips_iff.1 htwo
    have hx := (mem_commonAncestors_tipIds hne).2 hcommon
    have hfirst : (order.preferring x).common (B.commonAncestors (B.tipIds bonds order)) =
        x :: (B.commonAncestors (B.tipIds bonds order)).erase x := if_pos hx
    rw [computeLca_of_two htwo, if_neg (List.ne_nil_of_mem hx), hfirst]
    exact List.find?_cons_of_pos ((candidate_iff (hcommon.mem htip) fun y =>
      mem_commonAncestors_tipIds hne).2 hhighest)
  · have hsome : (B.computeLca order (B.tipIds bonds order)).isSome = true := computeLca_isSome h
    cases hids : B.tipIds bonds order with
    | nil => simp [hids, computeLca] at hsome
    | cons t rest =>
        cases rest with
        | nil => exact congrArg some ((isLca_of_single hids).1 h).symm
        | cons t' rest => simp [hids] at htwo

/-! ### The walk -/

theorem mem_walkNext_iff (hlca : lca ∈ B.blocks) (hsees : B.Sees x lca) :
    y ∈ B.walkNext lca x ↔ y ∈ B.downTo lca x ∧ B.Sees y lca := by
  unfold walkNext downTo
  by_cases hx : x = lca
  · rw [if_pos hx, if_pos hx]
    simp
  rw [if_neg hx, if_neg hx]
  -- the checkpoint sees no other block
  have hcheckpoint : B.isCheckpointBoundary x = false := by
    cases hboundary : B.isCheckpointBoundary x with
    | false => rfl
    | true =>
        rcases ReflTransGen.cases_head hsees with heq | ⟨z, hz, -⟩
        · exact absurd heq hx
        · have hz : z ∈ B.expand x := hz
          simp [expand, hboundary] at hz
  unfold expand
  rw [hcheckpoint, if_neg Bool.false_ne_true]
  cases hcontent : B.content x with
  | none => simp
  | some content =>
      dsimp only
      rw [List.mem_filter]
      refine and_congr_right fun hy => ?_
      obtain ⟨p, -, hp⟩ := List.mem_filterMap.1 hy
      have hyB := resolveIdentity_mem hp
      rw [preceedesOrEquals_iff]
      simp [resolveIdentity_of_mem hlca, resolveIdentity_of_mem hyB]

/-- **The walk collects the blocks on the paths** from a tip down to the target. -/
theorem mem_walkToLca_iff (ht : t ∈ B.blocks) (hsees : B.Sees t lca) :
    x ∈ B.walkToLca t lca ↔ B.OnPath lca t x := by
  have hlca := hsees.mem ht
  have hnext : ∀ a, ∀ b ∈ B.walkNext lca a, b ∈ B.dom.toFinset := by
    intro a b hb
    unfold walkNext at hb
    split_ifs at hb
    · simp at hb
    · cases hcontent : B.content a with
      | none => simp [hcontent] at hb
      | some content =>
          rw [hcontent] at hb
          obtain ⟨p, -, hp⟩ := List.mem_filterMap.1 (List.mem_filter.1 hb).1
          exact List.mem_toFinset.2 (AList.mem_keys.1 (resolveIdentity_mem hp))
  unfold walkToLca
  rw [resolveIdentity_of_mem ht]
  dsimp only
  rw [mem_drain hnext (fun a ha => List.mem_singleton.1 ha ▸
    List.mem_toFinset.2 (AList.mem_keys.1 ht)) (by rw [List.length_singleton])]
  simp only [List.mem_singleton, exists_eq_left]
  constructor
  · intro hreach
    induction hreach with
    | refl => exact ⟨ReflTransGen.refl, hsees⟩
    | tail _ hstep ih =>
        obtain ⟨hdown, hbelow⟩ := (mem_walkNext_iff hlca ih.2).1 hstep
        exact ⟨ih.1.tail hdown, hbelow⟩
  · rintro ⟨hreach, hbelow⟩
    induction hreach with
    | refl => exact ReflTransGen.refl
    | @tail a b _ hstep ih =>
        have hexpand : b ∈ B.expand a := by
          have hstep : b ∈ B.downTo lca a := hstep
          unfold downTo at hstep
          split_ifs at hstep
          · simp at hstep
          · exact hstep
        have hsees' : B.Sees a lca := ReflTransGen.head hexpand hbelow
        exact (ih hsees').tail ((mem_walkNext_iff hlca hsees').2 ⟨hstep, hbelow⟩)

theorem nodup_walkToLca : (B.walkToLca t lca).Nodup := by
  unfold walkToLca
  split
  · exact List.nodup_nil
  · exact nodup_drain List.nodup_nil

theorem mem_expand_of_mem_downTo (h : y ∈ B.downTo lca x) : y ∈ B.expand x := by
  unfold downTo at h
  split_ifs at h
  · simp at h
  · exact h

/-- A path follows references down to the target, or passes it. -/
theorem reach_downTo (h : B.Sees t x) :
    Reach (B.downTo lca) t x ∨ Reach (B.downTo lca) t lca ∧ B.Below x lca := by
  induction h with
  | refl => exact .inl ReflTransGen.refl
  | @tail a b _ hstep ih =>
      rcases ih with hreach | ⟨hreach, hbelow⟩
      · by_cases ha : a = lca
        · exact .inr ⟨ha ▸ hreach, ha ▸ TransGen.single hstep⟩
        · refine .inl (hreach.tail ?_)
          show b ∈ B.downTo lca a
          unfold downTo
          rwa [if_neg ha]
      · exact .inr ⟨hreach, hbelow.tail hstep⟩

/-- The target itself is on every path. -/
theorem onPath_lca (h : B.Sees t lca) : B.OnPath lca t lca := by
  rcases reach_downTo h with hreach | ⟨hreach, -⟩
  · exact ⟨hreach, Sees.refl B lca⟩
  · exact ⟨hreach, Sees.refl B lca⟩

theorem OnPath.sees (h : B.OnPath lca t x) : B.Sees t x :=
  ReflTransGen.mono (fun _ _ hstep => mem_expand_of_mem_downTo hstep) _ _ h.1

theorem IsLca.sees (h : B.IsLca bonds lca) (htip : B.Tip bonds v t) : B.Sees t lca := by
  rcases h with ⟨w, hw, honly⟩ | ⟨-, hcommon, -⟩
  · obtain rfl := honly v t htip
    exact hw.unique htip ▸ Sees.refl B _
  · exact hcommon v t htip

/-- **A tip is on the paths of all tips that see it.** -/
theorem onPath_tip_iff (h : B.IsLca bonds lca) (hs : B.Tip bonds v s) :
    B.OnPath lca t s ↔ B.Sees t s := by
  refine ⟨OnPath.sees, fun hsees => ?_⟩
  rcases reach_downTo hsees with hreach | ⟨hreach, hbelow⟩
  · exact ⟨hreach, h.sees hs⟩
  · -- the lowest common ancestor is not below the tip, so it is the tip
    have heq : s = lca := by
      rcases h with ⟨u, hu, honly⟩ | ⟨-, hcommon, hhighest⟩
      · obtain rfl := honly v s hs
        exact hs.unique hu
      · by_contra hne
        have hall : B.Common bonds s := fun u r hr => (hcommon u r hr).trans hbelow.sees
        rcases sees_iff_eq_or_below.1 (hcommon v s hs) with heq | hlower
        · exact hne heq.symm
        · exact hhighest s hall hne hlower
    subst heq
    exact ⟨hreach, Sees.refl B s⟩

/-! ### The scores -/

/-- The map holds the positive values of a function. -/
structure Represents (m : OrderedMap BlockIdentity ℕ) (f : BlockIdentity → ℕ) : Prop where
  getD : ∀ x, (m.lookup x).getD 0 = f x
  positive : ∀ x, m.lookup x ≠ some 0

theorem Represents.ext {m m' : OrderedMap BlockIdentity ℕ} {f : BlockIdentity → ℕ}
    (h : Represents m f) (h' : Represents m' f) : m = m' := by
  refine OrderedMap.ext_lookup fun x => ?_
  have hsame := (h.getD x).trans (h'.getD x).symm
  have hpos := h.positive x
  have hpos' := h'.positive x
  cases hx : m.lookup x <;> cases hx' : m'.lookup x <;> simp_all

/-- One stake is added to each block of a walk, or a sum overflows. -/
theorem addStake_cases {stake : ℕ} (hstake : stake ≠ 0) {ids : List BlockIdentity}
    (hnodup : ids.Nodup) {m : OrderedMap BlockIdentity ℕ} {f : BlockIdentity → ℕ}
    (hm : Represents m f) :
    if ∀ x ∈ ids, f x + stake < 2 ^ 64 then
      ∃ m', addStake stake ids m = some m' ∧
        Represents m' fun x => f x + if x ∈ ids then stake else 0
    else addStake stake ids m = none := by
  induction ids generalizing m f with
  | nil =>
      rw [if_pos (by simp)]
      exact ⟨m, rfl, by simpa using hm⟩
  | cons id ids ih =>
      obtain ⟨hid, hnodup⟩ := List.nodup_cons.1 hnodup
      have hcall : addStake stake (id :: ids) m = (checkedAdd64 (f id) stake).bind fun total =>
          addStake stake ids (m.insert id total) := by
        unfold addStake
        rw [List.foldlM_cons]
        simp only [hm.getD, Option.bind_eq_bind, Option.bind_assoc, Option.bind_some]
      have hcons : (∀ x ∈ id :: ids, f x + stake < 2 ^ 64) ↔
          f id + stake < 2 ^ 64 ∧ ∀ x ∈ ids, f x + stake < 2 ^ 64 := List.forall_mem_cons
      rw [hcall]
      unfold checkedAdd64
      by_cases hfit : f id + stake < 2 ^ 64
      · have hinsert : Represents (m.insert id (f id + stake))
            fun x => f x + if x = id then stake else 0 := by
          refine ⟨fun x => ?_, fun x => ?_⟩
          · rw [OrderedMap.lookup_insert]
            by_cases hx : x = id
            · simp [hx]
            · simpa [hx] using hm.getD x
          · rw [OrderedMap.lookup_insert]
            split_ifs with hx
            · simp [hstake]
            · exact hm.positive x
        have hother {x : BlockIdentity} (hx : x ∈ ids) :
            f x + (if x = id then stake else 0) = f x := by
          rw [if_neg fun heq : x = id => hid (heq ▸ hx), Nat.add_zero]
        have hrest := ih hnodup hinsert
        rw [if_pos hfit, Option.bind_some]
        by_cases hall : ∀ x ∈ ids, f x + stake < 2 ^ 64
        · rw [if_pos fun x hx => by rw [hother hx]; exact hall x hx] at hrest
          obtain ⟨m', hm', hrep⟩ := hrest
          rw [if_pos (hcons.2 ⟨hfit, hall⟩)]
          refine ⟨m', hm', fun x => (hrep.getD x).trans ?_, hrep.positive⟩
          by_cases hx : x = id
          · subst hx
            simp [hid]
          · simp [hx]
        · rw [if_neg fun hnot => hall fun x hx => by rw [← hother hx]; exact hnot x hx] at hrest
          rw [if_neg fun hnot => hall (hcons.1 hnot).2]
          exact hrest
      · rw [if_neg hfit, if_neg fun hnot => hfit (hcons.1 hnot).1]
        rfl

/-- What some tips add to the score of a block. -/
def gain (B : Blocklace) (bonds : Bonds) (lca : BlockIdentity) (tips : List (NodeId × Block))
    (x : BlockIdentity) : ℕ :=
  (tips.map fun entry =>
    if x ∈ B.walkToLca entry.2.identity lca then bonds.weight entry.1 else 0).sum

/-- **The score map adds up the stakes**, or a sum overflows. -/
theorem scoreMap_cases (tips : List (NodeId × Block)) :
    (∀ x, B.gain bonds lca tips x < 2 ^ 64) ∧ (∃ m, B.scoreMap bonds lca tips = some m ∧
        Represents m (B.gain bonds lca tips)) ∨
      (∃ x, 2 ^ 64 ≤ B.gain bonds lca tips x) ∧ B.scoreMap bonds lca tips = none := by
  have hgo (tips : List (NodeId × Block)) (m : OrderedMap BlockIdentity ℕ)
      (f : BlockIdentity → ℕ) (hm : Represents m f) (hf : ∀ x, f x < 2 ^ 64) :
      let call := tips.foldlM (fun scores entry =>
        let stake := bonds.weight entry.1
        if stake = 0 then some scores
        else addStake stake (B.walkToLca entry.2.identity lca) scores) m
      (∀ x, f x + B.gain bonds lca tips x < 2 ^ 64) ∧ (∃ m', call = some m' ∧
          Represents m' fun x => f x + B.gain bonds lca tips x) ∨
        (∃ x, 2 ^ 64 ≤ f x + B.gain bonds lca tips x) ∧ call = none := by
    induction tips generalizing m f with
    | nil => exact .inl ⟨by simpa [gain] using hf, m, rfl, by simpa [gain] using hm⟩
    | cons entry tips ih =>
        have hgain (x : BlockIdentity) : B.gain bonds lca (entry :: tips) x =
            (if x ∈ B.walkToLca entry.2.identity lca then bonds.weight entry.1 else 0) +
              B.gain bonds lca tips x := by
          unfold gain
          rw [List.map_cons, List.sum_cons]
        simp only [hgain, List.foldlM_cons]
        by_cases hstake : bonds.weight entry.1 = 0
        · simpa [hstake] using ih m f hm hf
        rw [if_neg hstake]
        have hwalk : (B.walkToLca entry.2.identity lca).Nodup := nodup_walkToLca
        have hadd := addStake_cases hstake hwalk hm
        by_cases hfit : ∀ x ∈ B.walkToLca entry.2.identity lca, f x + bonds.weight entry.1 < 2 ^ 64
        · rw [if_pos hfit] at hadd
          obtain ⟨m₁, hm₁, hrep⟩ := hadd
          have hrest := ih m₁ _ hrep fun x => by
            by_cases hx : x ∈ B.walkToLca entry.2.identity lca
            · rw [if_pos hx]
              exact hfit x hx
            · rw [if_neg hx, Nat.add_zero]
              exact hf x
          simp only [Nat.add_assoc] at hrest
          rw [hm₁]
          exact hrest
        · rw [if_neg hfit] at hadd
          push Not at hfit
          obtain ⟨x, hx, hbig⟩ := hfit
          rw [hadd]
          refine .inr ⟨⟨x, ?_⟩, rfl⟩
          rw [if_pos hx]
          omega
  have hempty : Represents .empty fun _ => 0 := ⟨fun _ => rfl, fun _ hx => by cases hx⟩
  have h := hgo tips .empty (fun _ => 0) hempty fun _ => by norm_num
  simp only [Nat.zero_add] at h
  exact h

/-! ### The sums of the stakes -/

open Classical in
/-- The stakes of the validators whose tip has a property. -/
noncomputable def tipStake (B : Blocklace) (bonds : Bonds) (p : BlockIdentity → Prop) : ℕ :=
  ∑ v ∈ bonds.table.keys.toFinset with ∃ t, B.Tip bonds v t ∧ p t, bonds.weight v

/-- **The score of a block:** the stakes of the validators from whose tip a path down to the
lowest common ancestor passes it. -/
noncomputable def score (B : Blocklace) (bonds : Bonds) (lca x : BlockIdentity) : ℕ :=
  B.tipStake bonds fun t => B.OnPath lca t x

/-- The stakes of the validators whose tip sees a block. -/
noncomputable def support (B : Blocklace) (bonds : Bonds) (x : BlockIdentity) : ℕ :=
  B.tipStake bonds fun t => B.Sees t x

theorem tipStake_congr {p q : BlockIdentity → Prop}
    (h : ∀ v t, B.Tip bonds v t → (p t ↔ q t)) : B.tipStake bonds p = B.tipStake bonds q := by
  classical
  unfold tipStake
  refine Finset.sum_congr (Finset.filter_congr fun v _ => ?_) fun _ _ => rfl
  exact exists_congr fun t => and_congr_right fun htip => h v t htip

theorem tipStake_mono {p q : BlockIdentity → Prop} (h : ∀ v t, B.Tip bonds v t → p t → q t) :
    B.tipStake bonds p ≤ B.tipStake bonds q := by
  classical
  unfold tipStake
  refine Finset.sum_le_sum_of_subset (Finset.monotone_filter_right _ fun v _ => ?_)
  rintro ⟨t, htip, hp⟩
  exact ⟨t, htip, h v t htip hp⟩

/-- The sum over the collected tips. -/
theorem sum_validatorTips (p : BlockIdentity → Prop) [DecidablePred p] :
    ((B.validatorTips bonds order).map fun entry =>
      if p entry.2.identity then bonds.weight entry.1 else 0).sum = B.tipStake bonds p := by
  classical
  have hnodup : (B.validatorTips bonds order).Nodup := List.Nodup.of_map _ nodup_validatorTips
  have hinj : Set.InjOn Prod.fst
      (((B.validatorTips bonds order).toFinset.filter fun entry => p entry.2.identity) :
        Set (NodeId × Block)) := by
    intro e he e' he' heq
    simp only [Finset.coe_filter, List.mem_toFinset, Set.mem_ofPred_eq] at he he'
    exact List.inj_on_of_nodup_map nodup_validatorTips he.1 he'.1 heq
  rw [← List.sum_toFinset _ hnodup, ← Finset.sum_filter, tipStake,
    ← Finset.sum_image (g := Prod.fst) (f := bonds.weight) hinj]
  refine Finset.sum_congr ?_ fun _ _ => rfl
  ext v
  simp only [Finset.mem_image, Finset.mem_filter, List.mem_toFinset, Prod.exists, exists_and_right,
    exists_eq_right, ← AList.mem_keys]
  constructor
  · rintro ⟨b, hb, hp⟩
    have htip := tip_of_mem_validatorTips hb
    exact ⟨htip.1, b.identity, htip, hp⟩
  · rintro ⟨-, t, htip, hp⟩
    obtain ⟨b, hb, rfl⟩ : ∃ b, (v, b) ∈ B.validatorTips bonds order ∧ b.identity = t :=
      exists_mem_validatorTips_iff.2 htip
    exact ⟨b, hb, hp⟩

/-- **What the tips add up to is the score.** -/
theorem gain_eq_score (h : B.IsLca bonds lca) :
    B.gain bonds lca (B.validatorTips bonds order) x = B.score bonds lca x := by
  unfold gain score
  rw [← tipStake_congr fun v t htip => mem_walkToLca_iff htip.mem (h.sees htip)]
  exact sum_validatorTips fun t => x ∈ B.walkToLca t lca

/-- The lowest common ancestor has the stakes of all tips. -/
theorem score_lca (h : B.IsLca bonds lca) :
    B.score bonds lca lca = B.tipStake bonds fun _ => True :=
  tipStake_congr fun _ _ htip => iff_true_intro (onPath_lca (h.sees htip))

theorem score_le : B.score bonds lca x ≤ B.tipStake bonds fun _ => True :=
  tipStake_mono fun _ _ _ _ => trivial

/-- The score of a tip is its support. -/
theorem score_tip (h : B.IsLca bonds lca) (hs : B.Tip bonds v s) :
    B.score bonds lca s = B.support bonds s :=
  tipStake_congr fun _ _ _ => onPath_tip_iff h hs

/-! ### The answer -/

instance (scores : OrderedMap BlockIdentity ℕ) : Std.Total (RankedBefore scores) :=
  ⟨fun a b => by
    unfold RankedBefore
    rcases lt_trichotomy ((scores.lookup b).getD 0) ((scores.lookup a).getD 0) with h | h | h
    · exact .inl (.inl h)
    · rcases le_total a.contentHash b.contentHash with h' | h'
      · exact .inl (.inr ⟨h, h'⟩)
      · exact .inr (.inr ⟨h.symm, h'⟩)
    · exact .inr (.inl h)⟩

instance (scores : OrderedMap BlockIdentity ℕ) : IsTrans BlockIdentity (RankedBefore scores) :=
  ⟨fun a b c hab hbc => by
    unfold RankedBefore at *
    rcases hab with hab | ⟨hab, hab'⟩
    · rcases hbc with hbc | ⟨hbc, -⟩
      · exact .inl (hbc.trans hab)
      · exact .inl (hbc ▸ hab)
    · rcases hbc with hbc | ⟨hbc, hbc'⟩
      · exact .inl (hab ▸ hbc)
      · exact .inr ⟨hbc.trans hab, hab'.trans hbc'⟩⟩

/-- **What an answer is:** a lowest common ancestor, the scores, and the tips by their ranks. -/
structure Answer (B : Blocklace) (bonds : Bonds) (fc : ForkChoice) : Prop where
  lca : B.IsLca bonds fc.lca
  scores : Represents fc.scores (B.score bonds fc.lca)
  mem : ∀ t, t ∈ fc.tips ↔ ∃ v, B.Tip bonds v t
  nodup : fc.tips.Nodup
  ranked : fc.tips.Pairwise (RankedBefore fc.scores)

theorem eraseDups_of_nodup {ids : List BlockIdentity} (h : ids.Nodup) : ids.eraseDups = ids := by
  induction ids with
  | nil => rfl
  | cons id ids ih =>
      obtain ⟨hid, hrest⟩ := List.nodup_cons.1 h
      rw [List.eraseDups_cons, List.filter_eq_self.2, ih hrest]
      intro x hx
      have hne : x ≠ id := fun heq => hid (heq ▸ hx)
      simpa using hne

/-- **What `fork_choice` returns.** -/
theorem forkChoice_cases (B : Blocklace) (bonds : Bonds) (order : IterationOrder) :
    (¬∃ x, B.IsLca bonds x) ∧ B.forkChoice bonds order = some none ∨
      ∃ lca, B.computeLca order (B.tipIds bonds order) = some lca ∧
        (B.tipStake bonds (fun _ => True) < 2 ^ 64 ∧ (∃ fc, fc.lca = lca ∧
            fc.tips = (B.tipIds bonds order).insertionSort (RankedBefore fc.scores) ∧
            B.forkChoice bonds order = some (some fc) ∧ B.Answer bonds fc) ∨
          2 ^ 64 ≤ B.tipStake bonds (fun _ => True) ∧ B.forkChoice bonds order = none) := by
  by_cases hnil : B.validatorTips bonds order = []
  · have hids : B.tipIds bonds order = [] := by rw [tipIds, hnil, List.map_nil]
    refine .inl ⟨fun ⟨x, hx⟩ => ?_, ?_⟩
    · have hsome : (B.computeLca order (B.tipIds bonds order)).isSome = true := computeLca_isSome hx
      simp [hids, computeLca] at hsome
    · unfold forkChoice
      exact if_pos hnil
  have hcall : B.forkChoice bonds order =
      match B.computeLca order (B.tipIds bonds order) with
      | none => some none
      | some lca => (B.scoreMap bonds lca (B.validatorTips bonds order)).bind fun scores =>
          some (some ⟨(B.tipIds bonds order).eraseDups.insertionSort (RankedBefore scores), lca,
            scores⟩) := by
    unfold forkChoice
    exact if_neg hnil
  cases hlca : B.computeLca order (B.tipIds bonds order) with
  | none =>
      refine .inl ⟨fun ⟨x, hx⟩ => ?_, by rw [hcall, hlca]⟩
      have hsome : (B.computeLca order (B.tipIds bonds order)).isSome = true := computeLca_isSome hx
      simp [hlca] at hsome
  | some lca =>
      have hIs := isLca_of_computeLca hlca
      rw [hlca, eraseDups_of_nodup nodup_tipIds] at hcall
      dsimp only at hcall
      refine .inr ⟨lca, rfl, ?_⟩
      have hgain : B.gain bonds lca (B.validatorTips bonds order) = B.score bonds lca :=
        funext fun x => gain_eq_score hIs
      have hscores : (∀ x, B.score bonds lca x < 2 ^ 64) ∧ (∃ m,
          B.scoreMap bonds lca (B.validatorTips bonds order) = some m ∧
            Represents m (B.score bonds lca)) ∨
          (∃ x, 2 ^ 64 ≤ B.score bonds lca x) ∧
            B.scoreMap bonds lca (B.validatorTips bonds order) = none :=
        hgain ▸ scoreMap_cases (B.validatorTips bonds order)
      rcases hscores with ⟨hfits, m, hm, hrep⟩ | ⟨⟨x, hbig⟩, hnone⟩
      · refine .inl ⟨score_lca hIs ▸ hfits lca, _, rfl, rfl, by rw [hcall, hm]; rfl, ?_⟩
        exact
          { lca := hIs
            scores := hrep
            mem := fun t => (List.mem_insertionSort _).trans mem_tipIds
            nodup := (List.perm_insertionSort _ _).nodup_iff.2 nodup_tipIds
            ranked := List.pairwise_insertionSort _ _ }
      · exact .inr ⟨hbig.trans score_le, by rw [hcall, hnone]; rfl⟩

/-- **When fork choice is decided:** one block is the lowest common ancestor, the stakes of the
tips fit 64 bits, and tips with one content hash have different support. -/
structure Decided (B : Blocklace) (bonds : Bonds) : Prop where
  one : ∀ x y, B.IsLca bonds x → B.IsLca bonds y → x = y
  fits : (∃ x, B.IsLca bonds x) → B.tipStake bonds (fun _ => True) < 2 ^ 64
  untied : (∃ x, B.IsLca bonds x) → ∀ v w s t, B.Tip bonds v s → B.Tip bonds w t → s ≠ t →
    s.contentHash = t.contentHash → B.support bonds s ≠ B.support bonds t

theorem Answer.score_eq {fc : ForkChoice} (h : B.Answer bonds fc) (hs : B.Tip bonds v s) :
    (fc.scores.lookup s).getD 0 = B.support bonds s :=
  (h.scores.getD s).trans (score_tip h.lca hs)

/-- **There is one answer.** -/
theorem Answer.unique {fc fc' : ForkChoice} (h : B.Answer bonds fc) (h' : B.Answer bonds fc')
    (hdecided : B.Decided bonds) : fc = fc' := by
  obtain ⟨tips, lca, scores⟩ := fc
  obtain ⟨tips', lca', scores'⟩ := fc'
  obtain rfl : lca = lca' := hdecided.one _ _ h.lca h'.lca
  obtain rfl : scores = scores' := h.scores.ext h'.scores
  have hperm : tips.Perm tips' := (List.perm_ext_iff_of_nodup h.nodup h'.nodup).2 fun t =>
    (h.mem t).trans (h'.mem t).symm
  have htips : tips = tips' := by
    refine List.Perm.eq_of_pairwise (fun s t hs ht hst hts => ?_) h.ranked h'.ranked hperm
    by_contra hne
    obtain ⟨v, hv⟩ := (h.mem s).1 hs
    obtain ⟨w, hw⟩ := (h'.mem t).1 ht
    have hsame : (scores.lookup s).getD 0 = (scores.lookup t).getD 0 ∧
        s.contentHash = t.contentHash := by
      rcases hst with hlt | ⟨heq, hle⟩
      · rcases hts with hlt' | ⟨heq', -⟩
        · exact absurd hlt' hlt.asymm
        · exact absurd hlt (heq' ▸ lt_irrefl _)
      · rcases hts with hlt' | ⟨-, hle'⟩
        · exact absurd hlt' (heq ▸ lt_irrefl _)
        · exact ⟨heq.symm, le_antisymm hle hle'⟩
    refine hdecided.untied ⟨lca, h.lca⟩ v w s t hv hw hne hsame.2 ?_
    rw [← h.score_eq hv, ← h.score_eq hw]
    exact hsame.1
  rw [htips]

/-! ### Other orders -/

/-- **The tip of a validator that keeps to a chain** is its one block below no other of it. -/
theorem tip_iff : B.Tip bonds v t ↔ v ∈ bonds.table ∧ v ∉ B.findEquivacators ∧
    t ∈ B.blocks ∧ t.creator = v ∧
      ∀ x ∈ B.blocks, x.creator = v → x ≠ t → ¬B.Below t x := by
  unfold Tip
  refine and_congr_right fun _ => and_congr_right fun hchain => ?_
  constructor
  · rintro ⟨tip, htip, rfl⟩
    obtain ⟨hst, hcreator, habove⟩ := tipOf_eq_some htip
    exact ⟨hst.mem, hcreator, habove⟩
  · rintro ⟨ht, hcreator, habove⟩
    have hsome : (B.tipOf v).isSome = true := by
      obtain ⟨b, rfl, hb⟩ := exists_stores ht
      unfold tipOf
      rw [List.find?_isSome]
      refine ⟨b, mem_blocksBy_iff.2 ⟨hb, hcreator⟩, ?_⟩
      rw [Bool.not_eq_true', ← Bool.not_eq_true, List.any_eq_true]
      rintro ⟨c, hc, hcb⟩
      obtain ⟨hst, hcv⟩ := mem_blocksBy_iff.1 hc
      rw [Bool.and_eq_true, precedes_of_mem hb.mem, decide_eq_true_eq] at hcb
      exact habove c.identity hst.mem hcv hcb.1 hcb.2
    obtain ⟨tip, htip⟩ := Option.isSome_iff_exists.1 hsome
    obtain ⟨hst, htipCreator, htipAbove⟩ := tipOf_eq_some htip
    refine ⟨tip, htip, ?_⟩
    by_contra hne
    -- two blocks of one chain are comparable
    have hsat : B.satisfiesChainAxiom v = true := by
      unfold findEquivacators at hchain
      rw [List.mem_filter, not_and] at hchain
      simpa using hchain (mem_allNodes_iff.2 ⟨t, ht, hcreator⟩)
    rcases satisfiesChainAxiom_iff.1 hsat _ hst.mem t ht htipCreator hcreator hne with hlow | hlow
    · exact htipAbove t ht hcreator (Ne.symm hne) hlow
    · exact habove _ hst.mem htipCreator hne hlow

namespace Reordered

variable (h : B.Reordered B')

include h

theorem tip_iff : B'.Tip bonds v t ↔ B.Tip bonds v t := by
  rw [Blocklace.tip_iff, Blocklace.tip_iff, h.mem_findEquivacators_iff, h.mem_iff]
  refine and_congr_right fun _ => and_congr_right fun _ => and_congr_right fun ht =>
    and_congr_right fun _ => forall_congr' fun x => ?_
  rw [h.mem_iff]
  refine forall_congr' fun hx => ?_
  rw [h.below_iff hx]

theorem common_iff : B'.Common bonds x ↔ B.Common bonds x := by
  unfold Common
  refine forall₂_congr fun v t => ?_
  rw [h.tip_iff]
  exact forall_congr' fun htip => h.sees_iff htip.mem

theorem isLca_iff : B'.IsLca bonds x ↔ B.IsLca bonds x := by
  unfold IsLca
  simp only [h.tip_iff, h.common_iff]
  refine or_congr_right (and_congr_right fun ⟨v, _, t, _, htip, _⟩ => and_congr_right fun _ =>
    forall_congr' fun y => forall_congr' fun hy => ?_)
  rw [h.below_iff (hy.mem htip)]

theorem onPath_iff (ht : t ∈ B.blocks) : B'.OnPath lca t x ↔ B.OnPath lca t x := by
  have hdown {a b : BlockIdentity} (ha : a ∈ B.blocks) :
      b ∈ B'.downTo lca a ↔ b ∈ B.downTo lca a := by
    unfold downTo
    split_ifs
    · exact Iff.rfl
    · exact h.mem_expand_iff ha
  have hmem {a : BlockIdentity} (hreach : Reach (B.downTo lca) t a) : a ∈ B.blocks := by
    induction hreach with
    | refl => exact ht
    | tail _ hstep _ => exact mem_of_mem_expand (mem_expand_of_mem_downTo hstep)
  have hreach {a : BlockIdentity} :
      Reach (B'.downTo lca) t a ↔ Reach (B.downTo lca) t a := by
    constructor
    · intro hpath
      induction hpath with
      | refl => exact ReflTransGen.refl
      | tail _ hstep ih => exact ih.tail ((hdown (hmem ih)).1 hstep)
    · intro hpath
      induction hpath with
      | refl => exact ReflTransGen.refl
      | tail hpath hstep ih => exact ih.tail ((hdown (hmem hpath)).2 hstep)
  unfold OnPath
  rw [hreach]
  exact and_congr_right fun hpath => h.sees_iff (hmem hpath)

theorem tipStake_eq {p : BlockIdentity → Prop} :
    B'.tipStake bonds p = B.tipStake bonds p := by
  classical
  unfold tipStake
  refine Finset.sum_congr (Finset.filter_congr fun v _ => ?_) fun _ _ => rfl
  exact exists_congr fun t => and_congr_left fun _ => h.tip_iff

theorem answer_iff {fc : ForkChoice} : B'.Answer bonds fc ↔ B.Answer bonds fc := by
  have hscore : B'.score bonds fc.lca = B.score bonds fc.lca := funext fun x => by
    unfold score
    rw [h.tipStake_eq]
    exact tipStake_congr fun _ _ htip => h.onPath_iff htip.mem
  constructor
  · rintro ⟨hlca, hscores, hmem, hnodup, hranked⟩
    exact ⟨h.isLca_iff.1 hlca, hscore ▸ hscores, fun t => (hmem t).trans (by simp only [h.tip_iff]),
      hnodup, hranked⟩
  · rintro ⟨hlca, hscores, hmem, hnodup, hranked⟩
    exact ⟨h.isLca_iff.2 hlca, hscore ▸ hscores, fun t => (hmem t).trans (by simp only [h.tip_iff]),
      hnodup, hranked⟩

end Reordered

/-! ### One answer for all orders -/

/-- **Fork choice does not depend on any order**, and its scores are the sums of the stakes. -/
def OrderFree (B : Blocklace) (bonds : Bonds) : Prop :=
  ∃ answer : Option ForkChoice,
    (∀ B' order, B.Reordered B' → B'.forkChoice bonds order = some answer) ∧
      ∀ fc, answer = some fc → ∀ x, (fc.scores.lookup x).getD 0 = B.score bonds fc.lca x

/-- A validator that is met first has its tip first. -/
theorem tipIds_leading (hs : B.Tip bonds v s) :
    ∃ rest, B.tipIds bonds (order.leading v) = s :: rest := by
  obtain ⟨hkey, hchain, tip, htip, rfl⟩ := hs
  have hfront : (order.leading v).bonded bonds.table.keys = v :: bonds.table.keys.erase v :=
    if_pos (AList.mem_keys.1 hkey)
  unfold tipIds validatorTips
  rw [hfront, List.filter_cons_of_pos (by simpa using hchain), List.filterMap_cons, htip]
  exact ⟨_, rfl⟩

/-- Tips that are ranked equal stay in their order. -/
theorem pair_sublist_tips {fc : ForkChoice} (hs : B.Tip bonds v s) (ht : B.Tip bonds w t)
    (hne : s ≠ t) (hrank : RankedBefore fc.scores s t)
    (htips : fc.tips = (B.tipIds bonds (order.leading v)).insertionSort (RankedBefore fc.scores)) :
    [s, t].Sublist fc.tips := by
  obtain ⟨rest, hids⟩ : ∃ rest, B.tipIds bonds (order.leading v) = s :: rest := tipIds_leading hs
  have hmem : t ∈ B.tipIds bonds (order.leading v) := mem_tipIds.2 ⟨w, ht⟩
  rw [hids] at hmem htips
  rw [htips]
  exact List.pair_sublist_insertionSort hrank (List.cons_sublist_cons.2 (List.singleton_sublist.2
    ((List.mem_cons.1 hmem).resolve_left (Ne.symm hne))))

/-- Two members of a list come in one order. -/
theorem not_pair_sublist {l : List BlockIdentity} (hnodup : l.Nodup) (h : [s, t].Sublist l) :
    ¬[t, s].Sublist l := by
  intro h'
  induction l with
  | nil => cases h
  | cons x l ih =>
      obtain ⟨hx, hrest⟩ := List.nodup_cons.1 hnodup
      rcases List.sublist_cons_iff.1 h with hl | ⟨_, heq, hrestSub⟩
      · rcases List.sublist_cons_iff.1 h' with hl' | ⟨_, heq', -⟩
        · exact ih hrest hl hl'
        · obtain ⟨rfl, -⟩ := List.cons.inj heq'
          exact hx (hl.subset (List.mem_cons_of_mem s (List.mem_singleton_self t)))
      · obtain ⟨rfl, rfl⟩ := List.cons.inj heq
        rcases List.sublist_cons_iff.1 h' with hl' | ⟨_, heq', -⟩
        · exact hx (hl'.subset (List.mem_cons_of_mem t (List.mem_singleton_self s)))
        · obtain ⟨rfl, -⟩ := List.cons.inj heq'
          exact hx (List.singleton_sublist.1 hrestSub)

/-- **Fork choice has one answer for all orders exactly where it is decided.** -/
theorem fork_choice_order_free_iff (B : Blocklace) (bonds : Bonds) :
    B.OrderFree bonds ↔ B.Decided bonds := by
  constructor
  · rintro ⟨answer, hall, -⟩
    have hcall (order : IterationOrder) : B.forkChoice bonds order = some answer :=
      hall B order (.refl B)
    -- where there is a lowest common ancestor, every order gives the same choice
    have hchoice (hlca : ∃ x, B.IsLca bonds x) (order : IterationOrder) :
        B.tipStake bonds (fun _ => True) < 2 ^ 64 ∧ ∃ fc, answer = some fc ∧
          B.computeLca order (B.tipIds bonds order) = some fc.lca ∧
          fc.tips = (B.tipIds bonds order).insertionSort (RankedBefore fc.scores) ∧
          B.Answer bonds fc := by
      rcases forkChoice_cases B bonds order with ⟨hnone, -⟩ |
        ⟨lca, hcompute, ⟨hfits, fc, rfl, htips, hfc, hanswer⟩ | ⟨-, hoverflow⟩⟩
      · exact absurd hlca hnone
      · exact ⟨hfits, fc, Option.some.inj ((hcall order).symm.trans hfc), hcompute, htips, hanswer⟩
      · rw [hcall order] at hoverflow
        cases hoverflow
    refine ⟨fun x y hx hy => ?_, fun hlca => (hchoice hlca .plain).1, ?_⟩
    · obtain ⟨-, fc, hfc, hcompute, -⟩ := hchoice ⟨x, hx⟩ (.preferring .plain x)
      obtain ⟨-, fc', hfc', hcompute', -⟩ := hchoice ⟨x, hx⟩ (.preferring .plain y)
      obtain rfl := Option.some.inj (hfc.symm.trans hfc')
      have hleft : B.computeLca (.preferring .plain x) (B.tipIds bonds .plain) = some x :=
        computeLca_preferring hx
      have hright : B.computeLca (.preferring .plain y) (B.tipIds bonds .plain) = some y :=
        computeLca_preferring hy
      exact Option.some.inj ((hleft.symm.trans hcompute).trans (hcompute'.symm.trans hright))
    · intro hlca v w s t hs ht hne hhash hsupport
      obtain ⟨-, fc, hfc, -, htips, hanswer⟩ := hchoice hlca (.leading .plain v)
      obtain ⟨-, fc', hfc', -, htips', -⟩ := hchoice hlca (.leading .plain w)
      obtain rfl := Option.some.inj (hfc.symm.trans hfc')
      have hscore : (fc.scores.lookup s).getD 0 = (fc.scores.lookup t).getD 0 := by
        rw [hanswer.score_eq hs, hanswer.score_eq ht, hsupport]
      refine not_pair_sublist hanswer.nodup
        (pair_sublist_tips hs ht hne (.inr ⟨hscore.symm, hhash.le⟩) htips)
        (pair_sublist_tips ht hs (Ne.symm hne) (.inr ⟨hscore, hhash.ge⟩) htips')
  · intro hdecided
    by_cases hlca : ∃ x, B.IsLca bonds x
    · have hchoice (B' : Blocklace) (order : IterationOrder) (h : B.Reordered B') :
          ∃ fc, B'.forkChoice bonds order = some (some fc) ∧ B.Answer bonds fc := by
        rcases forkChoice_cases B' bonds order with ⟨hnone, -⟩ |
          ⟨lca, -, ⟨-, fc, -, -, hfc, hanswer⟩ | ⟨hbig, -⟩⟩
        · simp only [h.isLca_iff] at hnone
          exact absurd hlca hnone
        · exact ⟨fc, hfc, h.answer_iff.1 hanswer⟩
        · rw [h.tipStake_eq] at hbig
          exact absurd (hdecided.fits hlca) (not_lt.2 hbig)
      obtain ⟨fc, -, hanswer⟩ := hchoice B .plain (.refl B)
      refine ⟨some fc, fun B' order h => ?_, fun fc' hfc' x => ?_⟩
      · obtain ⟨fc', hfc', hanswer'⟩ := hchoice B' order h
        rw [hfc', hanswer'.unique hanswer hdecided]
      · obtain rfl := Option.some.inj hfc'
        exact hanswer.scores.getD x
    · refine ⟨none, fun B' order h => ?_, fun fc hfc => by cases hfc⟩
      rcases forkChoice_cases B' bonds order with ⟨-, hnone⟩ | ⟨lca, hcompute, -⟩
      · exact hnone
      · exact absurd ⟨lca, h.isLca_iff.1 (isLca_of_computeLca hcompute)⟩ hlca

/-! ### Two roots -/

/-- A block with its number as its hash and its creator. -/
def crossedBlock (number : Byte) (predecessors : List BlockIdentity) : Block where
  identity := ⟨⟨number.val, number.isLt.trans (by decide)⟩, ⟨[number]⟩, []⟩
  content := ⟨[], predecessors⟩

/-- Two roots, and two blocks that refer to both. -/
def crossedBlocks : List Block :=
  let roots := [(crossedBlock 1 []).identity, (crossedBlock 2 []).identity]
  [crossedBlock 1 [], crossedBlock 2 [], crossedBlock 3 roots, crossedBlock 4 roots]

def crossed : Blocklace :=
  { Blocklace.new 0 with
    blocks := (crossedBlocks.map fun b => ⟨b.identity, b.content⟩).toAList
    variantNodup := by decide }

/-- The creators of the two tips are bonded. -/
def crossedBonds : Bonds :=
  ⟨[⟨⟨[3]⟩, 1⟩, ⟨⟨[4]⟩, 1⟩].toAList, by decide⟩

/-- **The lowest common ancestor is either root,** whichever is met first. -/
theorem crossed_depends_on_order :
    crossed.isClosed = true ∧ ¬crossed.OrderFree crossedBonds := by
  refine ⟨by decide +kernel, ?_⟩
  rintro ⟨answer, hall, -⟩
  have hfirst : (crossed.forkChoice crossedBonds
      (.preferring .plain (crossedBlock 1 []).identity)).map (Option.map ForkChoice.lca) =
        some (some (crossedBlock 1 []).identity) := by decide +kernel
  have hsecond : (crossed.forkChoice crossedBonds
      (.preferring .plain (crossedBlock 2 []).identity)).map (Option.map ForkChoice.lca) =
        some (some (crossedBlock 2 []).identity) := by decide +kernel
  rw [hall crossed _ (.refl crossed)] at hfirst hsecond
  have hsame := hfirst.symm.trans hsecond
  revert hsame
  decide

end Blocklace

end CordialMiners
