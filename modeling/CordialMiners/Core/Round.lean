/-
# Depths and rounds

`crates/cordial-miners-core/src/consensus/round.rs`.

The depth of a block is the length of the longest path of references below it;
the checkpoint counts as a genesis with the depth it had when it was installed.
`depthRecursive` is the memoised recursion of the source; `Round` is the depth
as a relation.  They agree (`depth_eq_some_iff`): the recursion answers exactly
on the blocks below which every reference resolves and no cycle runs.  On a
cycle of references the recursion of the source does not return; the model runs
out of fuel there and answers `none`.

`u64` depths are naturals: a depth is at most the number of blocks.
-/

import CordialMiners.Core.View

namespace CordialMiners

open FinGraph Relation

namespace Blocklace

/-- The memo of a depth computation, `HashMap<BlockIdentity, u64>`. -/
abbrev DepthCache := AList fun _ : BlockIdentity => ℕ

/-- The loop over the predecessors: the largest depth met, or `none` at the
first reference without one. -/
def maxPredDepth (visit : BlockIdentity → DepthCache → Option ℕ × DepthCache) :
    List BlockIdentity → ℕ → DepthCache → Option ℕ × DepthCache
  | [], maxSoFar, cache => (some maxSoFar, cache)
  | pred :: preds, maxSoFar, cache =>
      match visit pred cache with
      | (none, cache) => (none, cache)
      | (some d, cache) => maxPredDepth visit preds (max maxSoFar d) cache

/-- Memoised recursive depth; `fuel` bounds the depth of the recursion. -/
def depthRecursive (B : Blocklace) : ℕ → BlockIdentity → DepthCache → Option ℕ × DepthCache
  | 0, _, cache => (none, cache)
  | fuel + 1, reference, cache =>
      match B.resolveIdentity reference with
      | none => (none, cache)
      | some id =>
          match cache.lookup id with
          | some d => (some d, cache)
          | none =>
              if B.checkpoint = some id then
                let depth := B.checkpointDepth.getD 0
                (some depth, cache.insert id depth)
              else
                match B.content id with
                | none => (none, cache)
                | some content =>
                    if content.predecessors = [] then (some 0, cache.insert id 0)
                    else
                      match maxPredDepth (depthRecursive B fuel) content.predecessors 0 cache with
                      | (none, cache) => (none, cache)
                      | (some m, cache) => (some (m + 1), cache.insert id (m + 1))

/-- No path of references is longer than the number of stored blocks. -/
def depthFuel (B : Blocklace) : ℕ := B.dom.length + 1

/-- The depth of a block, `none` if it is not stored. -/
def depth (B : Blocklace) (id : BlockIdentity) : Option ℕ :=
  (B.depthRecursive B.depthFuel id ∅).1

/-- The depths of all blocks, sharing one memo. -/
def computeAllDepths (B : Blocklace) : DepthCache :=
  B.dom.foldl (fun cache id => (B.depthRecursive B.depthFuel id cache).2) ∅

/-- All blocks at depth `d`. -/
def blocksAtDepth (B : Blocklace) (d : ℕ) : List Block :=
  (B.computeAllDepths.entries.filter fun entry => entry.2 = d).filterMap fun entry => B.get entry.1

/-! ### The depth as a relation -/

/-- Every reference of the block resolves. -/
def Complete (B : Blocklace) (b : BlockIdentity) : Prop :=
  ∀ c, B.blocks.lookup b = some c → ∀ p ∈ c.predecessors, ∃ r, B.resolveIdentity p = some r

/-- `b` is a block of round `d`: one more than the largest round it points at,
and `0` where it points at nothing. -/
inductive Round (B : Blocklace) : BlockIdentity → ℕ → Prop
  | checkpoint {c : BlockIdentity} (hc : c ∈ B.blocks) (hcp : B.checkpoint = some c) :
      Round B c (B.checkpointDepth.getD 0)
  | step {b : BlockIdentity} {d : ℕ} (rd : BlockIdentity → ℕ) (hb : b ∈ B.blocks)
      (hcp : B.checkpoint ≠ some b) (hcomp : B.Complete b)
      (hpred : ∀ x ∈ B.expand b, Round B x (rd x)) (hlt : ∀ x ∈ B.expand b, rd x < d)
      (htop : d = 0 ∨ ∃ x ∈ B.expand b, d = rd x + 1) : Round B b d

variable {B : Blocklace} {a b id r : BlockIdentity} {d e : ℕ}

theorem Round.mem (h : B.Round b d) : b ∈ B.blocks := by
  cases h <;> assumption

/-- A block has one round. -/
theorem Round.unique (h : B.Round b d) (h' : B.Round b e) : d = e := by
  induction h generalizing e with
  | checkpoint _ hcp =>
      cases h' with
      | checkpoint => rfl
      | step _ _ hcp' => exact absurd hcp hcp'
  | step rd _ hcp _ _ hlt htop ih =>
      cases h' with
      | checkpoint _ hcp' => exact absurd hcp' hcp
      | step rd' _ _ _ hpred' hlt' htop' =>
          have hrd : ∀ x ∈ B.expand _, rd x = rd' x := fun x hx => ih x hx (hpred' x hx)
          rcases htop with rfl | ⟨x, hx, rfl⟩ <;> rcases htop' with rfl | ⟨y, hy, rfl⟩
          · rfl
          · have := hlt y hy
            omega
          · have := hlt' x hx
            omega
          · have h₁ := hlt y hy
            have h₂ := hlt' x hx
            have h₃ := hrd x hx
            have h₄ := hrd y hy
            omega

/-- What a block points at has a smaller round. -/
theorem Round.of_mem_expand (h : B.Round b d) (ha : a ∈ B.expand b) : ∃ e < d, B.Round a e := by
  cases h with
  | checkpoint _ hcp => simp [expand_checkpoint hcp] at ha
  | step rd _ _ _ hpred hlt => exact ⟨rd a, hlt a ha, hpred a ha⟩

/-- **Rounds fall along references.** -/
theorem Round.of_below (h : B.Round b d) (hab : B.Below a b) : ∃ e < d, B.Round a e := by
  induction hab with
  | single ha => exact h.of_mem_expand ha
  | tail _ ha ih =>
      obtain ⟨e, he, hr⟩ := ih
      obtain ⟨e', he', hr'⟩ := hr.of_mem_expand ha
      exact ⟨e', by omega, hr'⟩

theorem Round.of_sees (h : B.Round b d) (hba : B.Sees b a) : ∃ e ≤ d, B.Round a e := by
  rcases sees_iff_eq_or_below.1 hba with rfl | hab
  · exact ⟨d, le_rfl, h⟩
  · obtain ⟨e, he, hr⟩ := h.of_below hab
    exact ⟨e, he.le, hr⟩

theorem Round.lt_of_below (ha : B.Round a e) (hb : B.Round b d) (hab : B.Below a b) : e < d := by
  obtain ⟨e', he', hr⟩ := hb.of_below hab
  rwa [ha.unique hr]

/-- No path of references leads from a block with a round back to it. -/
theorem Round.not_below_self (h : B.Round b d) : ¬ B.Below b b := fun hbb =>
  absurd (h.lt_of_below h hbb) (lt_irrefl d)

theorem Round.sees_antisymm (ha : B.Round a e) (hab : B.Sees a b) (hba : B.Sees b a) : a = b := by
  rcases sees_iff_eq_or_below.1 hab with rfl | hb
  · rfl
  · rcases sees_iff_eq_or_below.1 hba with rfl | ha'
    · rfl
    · exact absurd (TransGen.trans hb ha') ha.not_below_self

/-- The reference that gives a round above `0` its height. -/
theorem Round.exists_pred (h : B.Round b (d + 1)) (hcp : B.checkpoint ≠ some b) :
    ∃ a ∈ B.expand b, B.Round a d := by
  generalize hn : d + 1 = n at h
  cases h with
  | checkpoint _ hcp' => exact absurd hcp' hcp
  | step rd _ _ _ hpred _ htop =>
      rcases htop with h0 | ⟨x, hx, hd⟩
      · omega
      · obtain rfl : d = rd x := by omega
        exact ⟨x, hx, hpred x hx⟩

/-- Below the round of a block, every round is met along some path. -/
theorem Round.exists_sees (h : B.Round b d) (hcp : B.checkpoint = none) (he : e ≤ d) :
    ∃ a, B.Sees b a ∧ B.Round a e := by
  induction d generalizing b with
  | zero =>
      obtain rfl : e = 0 := by omega
      exact ⟨b, .refl B b, h⟩
  | succ d ih =>
      by_cases hed : e = d + 1
      · exact ⟨b, .refl B b, hed ▸ h⟩
      · obtain ⟨x, hx, hr⟩ := h.exists_pred (by simp [hcp])
        obtain ⟨a, hxa, ha⟩ := ih hr (by omega)
        exact ⟨a, ReflTransGen.head hx hxa, ha⟩

/-! ### The recursion is sound -/

/-- Every memoised depth is right. -/
def CacheSound (B : Blocklace) (cache : DepthCache) : Prop :=
  ∀ k d, cache.lookup k = some d → B.Round k d

theorem cacheSound_empty : B.CacheSound ∅ := by
  intro k d h
  simp at h

theorem CacheSound.insert {cache : DepthCache} (hc : B.CacheSound cache) (h : B.Round id d) :
    B.CacheSound (cache.insert id d) := by
  intro k e hk
  by_cases hkid : k = id
  · subst hkid
    rw [AList.lookup_insert] at hk
    exact Option.some.inj hk ▸ h
  · rw [AList.lookup_insert_ne hkid] at hk
    exact hc k e hk

/-- A reference names a block of round `d`. -/
def RoundOf (B : Blocklace) (p : BlockIdentity) (d : ℕ) : Prop :=
  ∃ r, B.resolveIdentity p = some r ∧ B.Round r d

theorem RoundOf.unique (h : B.RoundOf id d) (h' : B.RoundOf id e) : d = e := by
  obtain ⟨r, hr, hd⟩ := h
  obtain ⟨r', hr', he⟩ := h'
  obtain rfl : r = r' := Option.some.inj (hr.symm.trans hr')
  exact hd.unique he

/-- The loop answers with the largest round its references name. -/
theorem maxPredDepth_sound {visit : BlockIdentity → DepthCache → Option ℕ × DepthCache}
    (hv : ∀ p cache, B.CacheSound cache → B.CacheSound (visit p cache).2 ∧
      ∀ d, (visit p cache).1 = some d → B.RoundOf p d)
    (preds : List BlockIdentity) (m₀ : ℕ) {cache : DepthCache} (hc : B.CacheSound cache) :
    B.CacheSound (maxPredDepth visit preds m₀ cache).2 ∧
      ∀ m, (maxPredDepth visit preds m₀ cache).1 = some m →
        m₀ ≤ m ∧ (∀ p ∈ preds, ∃ d ≤ m, B.RoundOf p d) ∧
          (m = m₀ ∨ ∃ p ∈ preds, B.RoundOf p m) := by
  induction preds generalizing m₀ cache with
  | nil =>
      refine ⟨hc, fun m hm => ?_⟩
      obtain rfl : m₀ = m := Option.some.inj hm
      simp
  | cons p preds ih =>
      obtain ⟨hs, hr⟩ := hv p cache hc
      rw [maxPredDepth]
      rcases hvp : visit p cache with ⟨_ | d, cache'⟩
      · rw [hvp] at hs
        exact ⟨hs, by simp⟩
      · rw [hvp] at hs hr
        have hd := hr d rfl
        refine ⟨(ih _ hs).1, fun m hm => ?_⟩
        obtain ⟨hle, hall, htop⟩ := (ih _ hs).2 m hm
        refine ⟨by omega, fun q hq => ?_, ?_⟩
        · rcases List.mem_cons.1 hq with rfl | hq
          · exact ⟨d, by omega, hd⟩
          · exact hall q hq
        · rcases htop with htop | ⟨q, hq, hqm⟩
          · rcases max_choice m₀ d with h | h
            · exact Or.inl (htop.trans h)
            · rw [htop, h]
              exact Or.inr ⟨p, List.mem_cons_self, hd⟩
          · exact Or.inr ⟨q, List.mem_cons_of_mem _ hq, hqm⟩

/-- The round of a block from the rounds its references name. -/
theorem round_of_preds {c : BlockContent} {m : ℕ} (hb : B.blocks.lookup b = some c)
    (hcp : B.checkpoint ≠ some b) (hne : c.predecessors ≠ [])
    (hall : ∀ p ∈ c.predecessors, ∃ d ≤ m, B.RoundOf p d)
    (htop : m = 0 ∨ ∃ p ∈ c.predecessors, B.RoundOf p m) : B.Round b (m + 1) := by
  have hexp : ∀ x ∈ B.expand b, ∃ d ≤ m, B.Round x d := by
    intro x hx
    rw [expand_of_lookup hb hcp] at hx
    obtain ⟨p, hp, hpx⟩ := List.mem_filterMap.1 hx
    obtain ⟨d, hd, r, hr, hrd⟩ := hall p hp
    obtain rfl : r = x := Option.some.inj (hr.symm.trans hpx)
    exact ⟨d, hd, hrd⟩
  choose! rd hle hrd using hexp
  have hmem : ∀ p ∈ c.predecessors, ∀ d, B.RoundOf p d → ∃ x ∈ B.expand b, rd x = d := by
    rintro p hp d ⟨r, hr, hd⟩
    have hrx : r ∈ B.expand b := by
      rw [expand_of_lookup hb hcp]
      exact List.mem_filterMap.2 ⟨p, hp, hr⟩
    exact ⟨r, hrx, (hrd r hrx).unique hd⟩
  have hcomp : B.Complete b := by
    intro c' hc' p hp
    rw [hb] at hc'
    obtain rfl := Option.some.inj hc'
    obtain ⟨d, -, r, hr, -⟩ := hall p hp
    exact ⟨r, hr⟩
  refine .step rd (mem_of_lookup hb) hcp hcomp hrd (fun x hx => Nat.lt_succ_of_le (hle x hx))
    (Or.inr ?_)
  rcases htop with rfl | ⟨p, hp, hpm⟩
  · obtain ⟨p, hp⟩ := List.exists_mem_of_ne_nil _ hne
    obtain ⟨d, hd, hpd⟩ := hall p hp
    obtain rfl : d = 0 := by omega
    obtain ⟨x, hx, hxd⟩ := hmem p hp 0 hpd
    exact ⟨x, hx, by omega⟩
  · obtain ⟨x, hx, hxd⟩ := hmem p hp m hpm
    exact ⟨x, hx, by omega⟩

/-- **Every depth the recursion returns or memoises is the round of the block.** -/
theorem depthRecursive_sound (fuel : ℕ) (id : BlockIdentity) {cache : DepthCache} (hc : B.CacheSound cache) :
    B.CacheSound (B.depthRecursive fuel id cache).2 ∧
      ∀ d, (B.depthRecursive fuel id cache).1 = some d → B.RoundOf id d := by
  induction fuel generalizing id cache with
  | zero => exact ⟨hc, by simp [depthRecursive]⟩
  | succ fuel ih =>
      rw [depthRecursive]
      split
      · exact ⟨hc, by simp⟩
      · next r hr =>
        have hmem := resolveIdentity_mem hr
        split
        · next d hd =>
          refine ⟨hc, fun e he => ⟨r, hr, ?_⟩⟩
          obtain rfl : d = e := Option.some.inj he
          exact hc r d hd
        · split_ifs with hcp
          · have hround := Round.checkpoint hmem hcp
            refine ⟨hc.insert hround, fun e he => ⟨r, hr, ?_⟩⟩
            obtain rfl := Option.some.inj he
            exact hround
          · split
            · exact ⟨hc, by simp⟩
            · next c hcont =>
              rw [content_of_mem hmem] at hcont
              split_ifs with hp
              · have hexp : B.expand r = [] := by rw [expand_of_lookup hcont hcp, hp]; rfl
                have hcomp : B.Complete r := by
                  intro c' hc' p hp'
                  rw [hcont] at hc'
                  obtain rfl := Option.some.inj hc'
                  simp [hp] at hp'
                have hround : B.Round r 0 :=
                  .step (fun _ => 0) hmem hcp hcomp (by simp [hexp]) (by simp [hexp]) (Or.inl rfl)
                refine ⟨hc.insert hround, fun e he => ⟨r, hr, ?_⟩⟩
                obtain rfl := Option.some.inj he
                exact hround
              · have hloop := maxPredDepth_sound (fun p cache hs => ih p hs) c.predecessors 0 hc
                rcases hm : maxPredDepth (B.depthRecursive fuel) c.predecessors 0 cache with
                  ⟨_ | m, cache'⟩
                · rw [hm] at hloop
                  exact ⟨hloop.1, by simp⟩
                · rw [hm] at hloop
                  obtain ⟨-, hall, htop⟩ := hloop.2 m rfl
                  have hround := round_of_preds hcont hcp hp hall htop
                  refine ⟨hloop.1.insert hround, fun e he => ⟨r, hr, ?_⟩⟩
                  obtain rfl := Option.some.inj he
                  exact hround

/-! ### The recursion answers -/

theorem maxPredDepth_isSome {visit : BlockIdentity → DepthCache → Option ℕ × DepthCache}
    {preds : List BlockIdentity}
    (hv : ∀ p cache, B.CacheSound cache → B.CacheSound (visit p cache).2)
    (hs : ∀ p ∈ preds, ∀ cache, B.CacheSound cache → (visit p cache).1.isSome)
    (m₀ : ℕ) {cache : DepthCache} (hc : B.CacheSound cache) :
    (maxPredDepth visit preds m₀ cache).1.isSome := by
  induction preds generalizing m₀ cache with
  | nil => rfl
  | cons p preds ih =>
      have h₁ := hs p List.mem_cons_self cache hc
      have h₂ := hv p cache hc
      rw [maxPredDepth]
      rcases hvp : visit p cache with ⟨_ | d, cache'⟩
      · simp [hvp] at h₁
      · rw [hvp] at h₂
        exact ih (fun q hq => hs q (List.mem_cons_of_mem _ hq)) _ h₂

/-- The recursion answers on a block with a round: each call goes to a block of
smaller round, so the blocks of the path are distinct. -/
theorem depthRecursive_isSome {fuel : ℕ} {cache : DepthCache} (hc : B.CacheSound cache)
    (hr : B.resolveIdentity id = some r) (hround : B.Round r d) (U : Finset BlockIdentity)
    (hU : ∀ x, B.Sees r x → x ∈ U) (hfuel : U.card ≤ fuel) :
    (B.depthRecursive fuel id cache).1.isSome := by
  induction fuel generalizing id r d cache U with
  | zero =>
      have := Finset.card_pos.2 ⟨r, hU r (.refl B r)⟩
      omega
  | succ fuel ih =>
      rw [depthRecursive, hr]
      simp only
      cases hl : cache.lookup r with
      | some d => rfl
      | none =>
          simp only
          split_ifs with hcp
          · rfl
          · obtain ⟨c, hcl⟩ := exists_lookup hround.mem
            simp only [content_of_mem hround.mem, hcl]
            split_ifs with hp
            · rfl
            · have hpreds : ∀ p ∈ c.predecessors, ∀ cache, B.CacheSound cache →
                  (B.depthRecursive fuel p cache).1.isSome := by
                intro p hpm cache hcache
                cases hround with
                | checkpoint _ hcp' => exact absurd hcp' hcp
                | step rd hmem _ hcomp hpred hlt htop =>
                    obtain ⟨x, hx⟩ := hcomp c hcl p hpm
                    have hxe : x ∈ B.expand r := by
                      rw [expand_of_lookup hcl hcp]
                      exact List.mem_filterMap.2 ⟨p, hpm, hx⟩
                    have hround : B.Round r d := .step rd hmem hcp hcomp hpred hlt htop
                    refine ih hcache hx (hpred x hxe) (U.erase r) (fun y hy => ?_) ?_
                    · refine Finset.mem_erase.2 ⟨?_, hU y (ReflTransGen.head hxe hy)⟩
                      rintro rfl
                      exact hround.not_below_self (TransGen.head' hxe hy)
                    · have := Finset.card_erase_of_mem (hU r (.refl B r))
                      omega
              have hsome := maxPredDepth_isSome
                (fun p cache hs => (depthRecursive_sound fuel p hs).1) hpreds 0 hc
              rcases hm : maxPredDepth (B.depthRecursive fuel) c.predecessors 0 cache with
                ⟨_ | m, cache'⟩
              · simp [hm] at hsome
              · rfl

/-- With the fuel of `depth` and any sound memo, the recursion computes rounds. -/
theorem depthRecursive_eq_some_iff {cache : DepthCache} (hc : B.CacheSound cache) :
    (B.depthRecursive B.depthFuel id cache).1 = some d ↔ B.RoundOf id d := by
  refine ⟨(depthRecursive_sound _ _ hc).2 d, ?_⟩
  rintro ⟨r, hr, hround⟩
  have hcard : B.dom.toFinset.card ≤ B.depthFuel := by
    have := List.toFinset_card_le B.dom
    unfold depthFuel
    omega
  have hsome := depthRecursive_isSome hc hr hround B.dom.toFinset
    (fun x hx => List.mem_toFinset.2 (AList.mem_keys.1 (hx.mem hround.mem))) hcard
  obtain ⟨e, he⟩ := Option.isSome_iff_exists.1 hsome
  rw [he, RoundOf.unique ⟨r, hr, hround⟩ ((depthRecursive_sound _ _ hc).2 e he)]

/-- **`depth` computes the round** of the block a reference names. -/
theorem depth_eq_some_iff : B.depth id = some d ↔ B.RoundOf id d :=
  depthRecursive_eq_some_iff cacheSound_empty

theorem depth_eq_some_of_mem (hb : b ∈ B.blocks) : B.depth b = some d ↔ B.Round b d := by
  rw [depth_eq_some_iff]
  simp [RoundOf, resolveIdentity_of_mem hb]

theorem Round.depth (h : B.Round b d) : B.depth b = some d :=
  (depth_eq_some_of_mem h.mem).2 h

/-- An unsigned reference has the round of the block it names. -/
theorem Round.depth_consensusIdentity (h : B.Round b d) : B.depth b.consensusIdentity = some d :=
  depth_eq_some_iff.2 ⟨b, resolveIdentity_eq_some_iff.2 ⟨h.mem, rfl, Or.inr rfl⟩, h⟩

/-! ### The round of a block that is not stored -/

/-- `candidate_depth`: the round a content would have, `none` if one of its
references has none. -/
def candidateDepth (B : Blocklace) (content : BlockContent) : Option ℕ :=
  if content.predecessors = [] then some 0
  else if content.predecessors.all fun pred => (B.depth pred).isSome then
    (content.predecessors.filterMap B.depth).max?.map (· + 1)
  else none

/-- `d` is one more than the largest round the references name, `0` without references. -/
def CandidateRound (B : Blocklace) (content : BlockContent) (d : ℕ) : Prop :=
  (∀ p ∈ content.predecessors, ∃ e < d, B.RoundOf p e) ∧
    (d = 0 ∨ ∃ p ∈ content.predecessors, ∃ e, B.RoundOf p e ∧ d = e + 1)

/-- **`candidateDepth` computes the candidate round.** -/
theorem candidateDepth_eq_some_iff {content : BlockContent} :
    B.candidateDepth content = some d ↔ B.CandidateRound content d := by
  unfold candidateDepth CandidateRound
  split_ifs with hnil hall
  · rw [hnil]
    simp only [List.not_mem_nil, false_implies, implies_true, true_and, false_and, exists_false,
      or_false, Option.some.injEq]
    exact eq_comm
  · have hdepth : ∀ e, e ∈ content.predecessors.filterMap B.depth ↔
        ∃ p ∈ content.predecessors, B.RoundOf p e := by
      intro e
      simp only [List.mem_filterMap, depth_eq_some_iff]
    simp only [Option.map_eq_some_iff, List.max?_eq_some_iff, hdepth]
    constructor
    · rintro ⟨m, ⟨⟨p, hp, hpm⟩, hle⟩, rfl⟩
      refine ⟨fun q hq => ?_, Or.inr ⟨p, hp, m, hpm, rfl⟩⟩
      obtain ⟨e, he⟩ := Option.isSome_iff_exists.1 (List.all_eq_true.1 hall q hq)
      have hqe := depth_eq_some_iff.1 he
      exact ⟨e, Nat.lt_succ_of_le (hle e ⟨q, hq, hqe⟩), hqe⟩
    · rintro ⟨hlt, rfl | ⟨p, hp, m, hpm, rfl⟩⟩
      · obtain ⟨p, hp⟩ := List.exists_mem_of_ne_nil _ hnil
        obtain ⟨e, he, -⟩ := hlt p hp
        omega
      · refine ⟨m, ⟨⟨p, hp, hpm⟩, ?_⟩, rfl⟩
        rintro e ⟨q, hq, hqe⟩
        obtain ⟨e', he', hqe'⟩ := hlt q hq
        have := hqe.unique hqe'
        omega
  · refine iff_of_false (by simp) fun h => hall (List.all_eq_true.2 fun p hp => ?_)
    obtain ⟨e, -, hpe⟩ := h.1 p hp
    rw [depth_eq_some_iff.2 hpe]
    rfl

/-- A content has one candidate round. -/
theorem CandidateRound.unique {content : BlockContent} (h : B.CandidateRound content d)
    (h' : B.CandidateRound content e) : d = e :=
  Option.some.inj
    ((candidateDepth_eq_some_iff.2 h).symm.trans (candidateDepth_eq_some_iff.2 h'))

/-- A content whose references all have a round has one itself. -/
theorem exists_candidateRound {content : BlockContent}
    (h : ∀ p ∈ content.predecessors, ∃ e, B.RoundOf p e) : ∃ d, B.CandidateRound content d := by
  by_cases hnil : content.predecessors = []
  · exact ⟨0, by simp [CandidateRound, hnil]⟩
  · choose! e he using h
    obtain ⟨p, hp, hmax⟩ := Finset.exists_max_image content.predecessors.toFinset e
      (List.toFinset_nonempty_iff _ |>.2 hnil)
    rw [List.mem_toFinset] at hp
    refine ⟨e p + 1, fun q hq => ?_, Or.inr ⟨p, hp, e p, he p hp, rfl⟩⟩
    exact ⟨e q, Nat.lt_succ_of_le (hmax q (List.mem_toFinset.2 hq)), he q hq⟩

/-- A stored content with a candidate round has that round. -/
theorem CandidateRound.round {c : BlockContent} (h : B.CandidateRound c d)
    (hb : B.blocks.lookup b = some c) (hcp : B.checkpoint ≠ some b) : B.Round b d := by
  obtain ⟨hlt, rfl | ⟨p, hp, e, hpe, rfl⟩⟩ := h
  · have hexp : B.expand b = [] := by
      rw [expand_of_lookup hb hcp, List.filterMap_eq_nil_iff]
      intro p hp
      obtain ⟨e, he, -⟩ := hlt p hp
      omega
    refine .step (fun _ => 0) (mem_of_lookup hb) hcp ?_ (by simp [hexp]) (by simp [hexp])
      (Or.inl rfl)
    intro c' hc' p hp
    obtain rfl := Option.some.inj (hb.symm.trans hc')
    obtain ⟨e, he, -⟩ := hlt p hp
    omega
  · refine round_of_preds hb hcp (List.ne_nil_of_mem hp) (fun q hq => ?_) (Or.inr ⟨p, hp, hpe⟩)
    obtain ⟨e', he', hq'⟩ := hlt q hq
    exact ⟨e', by omega, hq'⟩

/-- Where references go down a rank and all resolve, every block has a round. -/
theorem exists_round {rank : BlockIdentity → ℕ} (hcp : B.checkpoint = none)
    (hcomp : ∀ k ∈ B.blocks, B.Complete k)
    (hrank : ∀ k ∈ B.blocks, ∀ x ∈ B.expand k, rank x < rank k) (hb : b ∈ B.blocks) :
    ∃ d, B.Round b d := by
  induction hn : rank b using Nat.strong_induction_on generalizing b with
  | _ n ih =>
      obtain ⟨c, hc⟩ := exists_lookup hb
      have hcpb : B.checkpoint ≠ some b := by simp [hcp]
      have hrefs : ∀ p ∈ c.predecessors, ∃ e, B.RoundOf p e := by
        intro p hp
        obtain ⟨r, hr⟩ := hcomp b hb c hc p hp
        have hrb : r ∈ B.expand b := by
          rw [expand_of_lookup hc hcpb]
          exact List.mem_filterMap.2 ⟨p, hp, hr⟩
        obtain ⟨e, he⟩ := ih (rank r) (hn ▸ hrank b hb r hrb) (resolveIdentity_mem hr) rfl
        exact ⟨e, r, hr, he⟩
      obtain ⟨d, hd⟩ := exists_candidateRound hrefs
      exact ⟨d, hd.round hc hcpb⟩

/-! ### All depths at once -/

private theorem mem_depthRecursive_cache {fuel : ℕ} (id : BlockIdentity) {cache : DepthCache}
    {k : BlockIdentity} (hk : k ∈ cache) : k ∈ (B.depthRecursive fuel id cache).2 := by
  induction fuel generalizing id cache with
  | zero => exact hk
  | succ fuel ih =>
      have hloop : ∀ preds m₀ cache, k ∈ cache →
          k ∈ (maxPredDepth (B.depthRecursive fuel) preds m₀ cache).2 := by
        intro preds
        induction preds with
        | nil => exact fun _ _ h => h
        | cons p preds ihp =>
            intro m₀ cache h
            have hp := ih p h
            rw [maxPredDepth]
            rcases hvp : B.depthRecursive fuel p cache with ⟨_ | d, cache'⟩
            · rwa [hvp] at hp
            · rw [hvp] at hp
              exact ihp _ _ hp
      rw [depthRecursive]
      split
      · exact hk
      · split
        · exact hk
        · split_ifs with hcp
          · exact (AList.mem_insert _).2 (Or.inr hk)
          · split
            · exact hk
            · next c _ =>
              split_ifs with hp
              · exact (AList.mem_insert _).2 (Or.inr hk)
              · have h := hloop c.predecessors 0 cache hk
                rcases hm : maxPredDepth (B.depthRecursive fuel) c.predecessors 0 cache with
                  ⟨_ | m, cache'⟩
                · rwa [hm] at h
                · rw [hm] at h
                  exact (AList.mem_insert _).2 (Or.inr h)

/-- A depth that is returned is memoised under the stored identity. -/
private theorem mem_depthRecursive_of_isSome {fuel : ℕ} {cache : DepthCache}
    (hr : B.resolveIdentity id = some r) (hs : (B.depthRecursive fuel id cache).1.isSome) :
    r ∈ (B.depthRecursive fuel id cache).2 := by
  cases fuel with
  | zero => simp [depthRecursive] at hs
  | succ fuel =>
      rw [depthRecursive, hr] at hs ⊢
      simp only at hs ⊢
      split
      · next d hd => exact AList.lookup_isSome.1 (by rw [hd]; rfl)
      · next hl =>
        rw [hl] at hs
        simp only at hs
        split_ifs at hs ⊢ with hcp
        · exact (AList.mem_insert _).2 (Or.inl rfl)
        · split
          · next hcont => simp [hcont] at hs
          · next c hcont =>
            rw [hcont] at hs
            simp only at hs
            split_ifs at hs ⊢ with hp
            · exact (AList.mem_insert _).2 (Or.inl rfl)
            · rcases hm : maxPredDepth (B.depthRecursive fuel) c.predecessors 0 cache with
                ⟨_ | m, cache'⟩
              · simp [hm] at hs
              · exact (AList.mem_insert _).2 (Or.inl rfl)

/-- **`computeAllDepths` maps each block with a round to it**, and nothing else. -/
theorem lookup_computeAllDepths_iff :
    B.computeAllDepths.lookup id = some d ↔ B.Round id d := by
  -- the memo stays sound, keeps its keys, and gains each block it is asked about
  have hfold : ∀ (l : List BlockIdentity) (cache : DepthCache), B.CacheSound cache →
      let out := l.foldl (fun cache id => (B.depthRecursive B.depthFuel id cache).2) cache
      B.CacheSound out ∧ (∀ k ∈ cache, k ∈ out) ∧
        ∀ k ∈ l, ∀ d, B.Round k d → k ∈ out := by
    intro l
    induction l with
    | nil => exact fun cache hc => ⟨hc, fun _ h => h, by simp⟩
    | cons x l ih =>
        intro cache hc
        obtain ⟨hs, hkeep, hnew⟩ := ih _ (depthRecursive_sound B.depthFuel x hc).1
        refine ⟨hs, fun k hk => hkeep k (mem_depthRecursive_cache x hk), fun k hk d hd => ?_⟩
        rcases List.mem_cons.1 hk with rfl | hk
        · have hres := resolveIdentity_of_mem hd.mem
          have hsome := (depthRecursive_eq_some_iff hc).2 ⟨k, hres, hd⟩
          exact hkeep k (mem_depthRecursive_of_isSome hres (by rw [hsome]; rfl))
        · exact hnew k hk d hd
  obtain ⟨hs, -, hnew⟩ := hfold B.dom ∅ cacheSound_empty
  refine ⟨hs id d, fun hround => ?_⟩
  have hmem := hnew id (AList.mem_keys.1 hround.mem) d hround
  obtain ⟨e, he⟩ := Option.isSome_iff_exists.1 (AList.lookup_isSome.2 hmem)
  have := hround.unique (hs id e he)
  subst this
  exact he

/-- **`blocksAtDepth` returns the stored blocks of a round.** -/
theorem mem_blocksAtDepth_iff {block : Block} :
    block ∈ B.blocksAtDepth d ↔ B.Stores block ∧ B.Round block.identity d := by
  unfold blocksAtDepth
  rw [List.mem_filterMap]
  constructor
  · rintro ⟨⟨k, e⟩, hk, hget⟩
    rw [List.mem_filter, decide_eq_true_eq, ← AList.mem_lookup_iff, Option.mem_def,
      lookup_computeAllDepths_iff] at hk
    obtain ⟨hround, rfl⟩ := hk
    obtain ⟨hres, hst⟩ := get_eq_some_iff.1 hget
    rw [resolveIdentity_of_mem hround.mem] at hres
    obtain rfl := Option.some.inj hres
    exact ⟨hst, hround⟩
  · rintro ⟨hst, hround⟩
    refine ⟨⟨block.identity, d⟩, ?_, hst.get⟩
    rw [List.mem_filter, decide_eq_true_eq, ← AList.mem_lookup_iff, Option.mem_def,
      lookup_computeAllDepths_iff]
    exact ⟨hround, rfl⟩

end Blocklace

end CordialMiners
