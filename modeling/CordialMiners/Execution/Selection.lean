/-
# What a selection holds

`DeployPool::select_for_block` against its cap.

Where no more deploys may go in than the cap allows, all of them go in.  Where more
may, the newest goes in and the `cap - 1` oldest; the signatures of a pool differ, so
the order of the keys is strict and the choice does not depend on the order of
iteration (`selectForBlock_eq_of_reordered`).  A cap of zero has no newest deploy to
leave out: `cap - 1` underflows as soon as one deploy may go in
(`selectForBlock_respectsCap_iff`).
-/

import CordialMiners.Execution.Inclusion

namespace CordialMiners

namespace DeployPool

/-- The same pool, iterated in another order. -/
structure Reordered (pool pool' : DeployPool) : Prop where
  config : pool'.config = pool.config
  perm : pool'.deploys.entries.Perm pool.deploys.entries

/-- The newest of the deploys and the `cap - 1` oldest. -/
structure OldestAndNewest (all : List SignedDeploy) (cap : ℕ) (oldest : List SignedDeploy)
    (newest : SignedDeploy) : Prop where
  count : oldest.length + 1 = cap
  newest_mem : newest ∈ all
  le_newest : ∀ d ∈ all, d.selectionKey ≤ newest.selectionKey
  oldest_le : ∀ o ∈ oldest, ∀ d ∈ all, d ∉ oldest → o.selectionKey ≤ d.selectionKey

section Selection

variable (pool : DeployPool) (currentBlockNumber currentTimeMillis : ℕ)
  (deploysInScope : List (List Byte))

/-- The deploy is pending, started, unexpired by block and by time, and not in scope. -/
structure Eligible (d : SignedDeploy) : Prop where
  pending : d ∈ pool.deploys.entries.map Sigma.snd
  started : d.deploy.validAfterBlockNumber ≤ currentBlockNumber
  unexpired : currentBlockNumber < d.deploy.validAfterBlockNumber + pool.config.deployLifespan
  inTime : ∀ expiration, d.deploy.expirationTimestamp = some expiration →
    currentTimeMillis ≤ expiration
  outOfScope : d.signature ∉ deploysInScope

/-- What a selection is for. -/
structure RespectsCap (selected : SelectedDeploys) : Prop where
  length_le : selected.deploys.length ≤ pool.config.maxUserDeploysPerBlock
  signatures : (selected.deploys.map SignedDeploy.signature).Nodup
  eligible : ∀ d ∈ selected.deploys,
    pool.Eligible currentBlockNumber currentTimeMillis deploysInScope d
  complete : (pool.selectable currentBlockNumber currentTimeMillis deploysInScope).length ≤
    pool.config.maxUserDeploysPerBlock →
    ∀ d, pool.Eligible currentBlockNumber currentTimeMillis deploysInScope d → d ∈ selected.deploys
  capped : pool.config.maxUserDeploysPerBlock <
    (pool.selectable currentBlockNumber currentTimeMillis deploysInScope).length →
    ∃ oldest newest, selected.deploys = oldest ++ [newest] ∧
      OldestAndNewest (pool.selectable currentBlockNumber currentTimeMillis deploysInScope)
        pool.config.maxUserDeploysPerBlock oldest newest

end Selection

variable {pool pool' : DeployPool} {currentBlockNumber currentTimeMillis : ℕ}
  {deploysInScope : List (List Byte)} {d : SignedDeploy}

/-- The filters of the selection, one by one. -/
theorem mem_selectable_iff :
    d ∈ pool.selectable currentBlockNumber currentTimeMillis deploysInScope ↔
      pool.Eligible currentBlockNumber currentTimeMillis deploysInScope d := by
  unfold selectable
  rw [List.mem_filter, SignedDeploy.isSelectable_iff, SignedDeploy.Live,
    isBlockExpired_eq_false_iff]
  constructor
  · rintro ⟨hmem, ⟨hstarted, hlive⟩, htime, hscope⟩
    exact ⟨hmem, hstarted, by omega, htime, hscope⟩
  · rintro ⟨hmem, hstarted, hunexpired, htime, hscope⟩
    exact ⟨hmem, ⟨hstarted, by omega⟩, htime, hscope⟩

/-- The deploys of a pool lie under their signatures. -/
theorem map_signature (pool : DeployPool) :
    (pool.deploys.entries.map Sigma.snd).map SignedDeploy.signature = pool.deploys.keys := by
  rw [List.map_map]
  exact List.map_congr_left pool.keyed

/-- No two deploys that may go in have one signature. -/
theorem nodup_signatures :
    ((pool.selectable currentBlockNumber currentTimeMillis deploysInScope).map
      SignedDeploy.signature).Nodup := by
  have hall : ((pool.deploys.entries.map Sigma.snd).map SignedDeploy.signature).Nodup := by
    rw [map_signature]
    exact pool.deploys.nodupKeys
  exact hall.sublist ((List.filter_sublist).map _)

/-- Deploys with one key have one signature, and so are one deploy of the pool. -/
theorem eq_of_selectionKey_eq {e : SignedDeploy}
    (hd : d ∈ pool.selectable currentBlockNumber currentTimeMillis deploysInScope)
    (he : e ∈ pool.selectable currentBlockNumber currentTimeMillis deploysInScope)
    (heq : d.selectionKey = e.selectionKey) : d = e := by
  have hsig : d.signature = e.signature := by
    have h := congrArg ofLex heq
    simp only [SignedDeploy.selectionKey, ofLex_toLex, Prod.mk.injEq,
      EmbeddingLike.apply_eq_iff_eq] at h
    exact h.2.2
  exact List.inj_on_of_nodup_map nodup_signatures hd he hsig

/-- The deploys that may go in, from the oldest on. -/
def byAge (pool : DeployPool) (currentBlockNumber currentTimeMillis : ℕ)
    (deploysInScope : List (List Byte)) : List SignedDeploy :=
  (pool.selectable currentBlockNumber currentTimeMillis deploysInScope).insertionSort
    fun a b => a.selectionKey ≤ b.selectionKey

theorem perm_byAge : (pool.byAge currentBlockNumber currentTimeMillis deploysInScope).Perm
    (pool.selectable currentBlockNumber currentTimeMillis deploysInScope) :=
  List.perm_insertionSort _ _

theorem pairwise_byAge : (pool.byAge currentBlockNumber currentTimeMillis deploysInScope).Pairwise
    fun a b => a.selectionKey ≤ b.selectionKey := by
  have : Std.Total fun a b : SignedDeploy => a.selectionKey ≤ b.selectionKey :=
    ⟨fun a b => le_total _ _⟩
  have : IsTrans SignedDeploy fun a b => a.selectionKey ≤ b.selectionKey :=
    ⟨fun a b c => le_trans⟩
  exact List.pairwise_insertionSort _ _

/-- A cap that is exceeded and is not zero takes the first `cap - 1` and the last. -/
theorem selectForBlock_of_lt {init : List SignedDeploy} {newest : SignedDeploy}
    (hpos : 0 < pool.config.maxUserDeploysPerBlock)
    (hlt : pool.config.maxUserDeploysPerBlock <
      (pool.selectable currentBlockNumber currentTimeMillis deploysInScope).length)
    (hsorted : pool.byAge currentBlockNumber currentTimeMillis deploysInScope = init ++ [newest]) :
    pool.selectForBlock currentBlockNumber currentTimeMillis deploysInScope =
      some ⟨init.take (pool.config.maxUserDeploysPerBlock - 1) ++ [newest], true⟩ := by
  have hlen : pool.config.maxUserDeploysPerBlock ≤ init.length := by
    have hperm : (pool.byAge currentBlockNumber currentTimeMillis deploysInScope).length =
      (pool.selectable currentBlockNumber currentTimeMillis deploysInScope).length :=
        perm_byAge.length_eq
    rw [hsorted, List.length_append, List.length_singleton] at hperm
    omega
  unfold byAge at hsorted
  unfold selectForBlock
  dsimp only
  rw [if_neg (by omega), hsorted, List.getLast?_concat, Option.toList_some,
    List.take_append_of_le_length (by omega), if_neg hpos.ne']
  split_ifs with hone
  · simp [hone]
  · rfl

theorem reordered_selectable (h : Reordered pool pool') :
    (pool'.selectable currentBlockNumber currentTimeMillis deploysInScope).Perm
      (pool.selectable currentBlockNumber currentTimeMillis deploysInScope) := by
  unfold selectable
  rw [h.config]
  exact (h.perm.map _).filter _

/-- The keys of a pool order its deploys in one way. -/
theorem reordered_byAge (h : Reordered pool pool') :
    pool'.byAge currentBlockNumber currentTimeMillis deploysInScope =
      pool.byAge currentBlockNumber currentTimeMillis deploysInScope := by
  have hperm : (pool'.selectable currentBlockNumber currentTimeMillis deploysInScope).Perm
    (pool.selectable currentBlockNumber currentTimeMillis deploysInScope) := reordered_selectable h
  refine List.Perm.eq_of_pairwise (fun a b ha hb hab hba => ?_) pairwise_byAge pairwise_byAge
    (perm_byAge.trans (hperm.trans perm_byAge.symm))
  exact eq_of_selectionKey_eq (hperm.mem_iff.1 (perm_byAge.mem_iff.1 ha))
    (perm_byAge.mem_iff.1 hb) (le_antisymm hab hba)

/-- **Where the cap is exceeded the choice does not depend on the order of iteration.** -/
theorem selectForBlock_eq_of_reordered (h : Reordered pool pool')
    (hlt : pool.config.maxUserDeploysPerBlock <
      (pool.selectable currentBlockNumber currentTimeMillis deploysInScope).length) :
    pool'.selectForBlock currentBlockNumber currentTimeMillis deploysInScope =
      pool.selectForBlock currentBlockNumber currentTimeMillis deploysInScope := by
  have hlen : (pool'.selectable currentBlockNumber currentTimeMillis deploysInScope).length =
    (pool.selectable currentBlockNumber currentTimeMillis deploysInScope).length :=
      (reordered_selectable h).length_eq
  have hage : pool'.byAge currentBlockNumber currentTimeMillis deploysInScope =
    pool.byAge currentBlockNumber currentTimeMillis deploysInScope := reordered_byAge h
  unfold byAge at hage
  unfold selectForBlock
  dsimp only
  rw [h.config, hlen, if_neg (by omega), if_neg (not_le.2 hlt), hage]

/-- The first `cap - 1` by age and the last are the oldest and the newest. -/
theorem oldestAndNewest_byAge {init : List SignedDeploy} {newest : SignedDeploy}
    (hpos : 0 < pool.config.maxUserDeploysPerBlock)
    (hlt : pool.config.maxUserDeploysPerBlock <
      (pool.selectable currentBlockNumber currentTimeMillis deploysInScope).length)
    (hsorted : pool.byAge currentBlockNumber currentTimeMillis deploysInScope = init ++ [newest]) :
    OldestAndNewest (pool.selectable currentBlockNumber currentTimeMillis deploysInScope)
      pool.config.maxUserDeploysPerBlock
      (init.take (pool.config.maxUserDeploysPerBlock - 1)) newest := by
  have hperm : (pool.byAge currentBlockNumber currentTimeMillis deploysInScope).Perm
    (pool.selectable currentBlockNumber currentTimeMillis deploysInScope) := perm_byAge
  have hpair : (pool.byAge currentBlockNumber currentTimeMillis deploysInScope).Pairwise
    fun a b => a.selectionKey ≤ b.selectionKey := pairwise_byAge
  rw [hsorted] at hperm hpair
  have hlen := hperm.length_eq
  rw [List.length_append, List.length_singleton] at hlen
  refine ⟨?_, hperm.mem_iff.1 (by simp), fun d hd => ?_, fun o ho d hd hnot => ?_⟩
  · rw [List.length_take]
    omega
  · rcases List.mem_append.1 (hperm.mem_iff.2 hd) with hinit | hlast
    · exact (List.pairwise_append.1 hpair).2.2 d hinit newest (by simp)
    · rw [List.mem_singleton.1 hlast]
  · -- what is not among the first comes behind them
    rw [← List.take_append_drop (pool.config.maxUserDeploysPerBlock - 1) init,
      List.append_assoc] at hperm hpair
    have hbehind := (List.mem_append.1 (hperm.mem_iff.2 hd)).resolve_left hnot
    exact (List.pairwise_append.1 hpair).2.2 o ho d hbehind

/-- The first deploys by age and the last have different signatures and may go in. -/
theorem sublist_byAge {init : List SignedDeploy} {newest : SignedDeploy} (n : ℕ)
    (hsorted : pool.byAge currentBlockNumber currentTimeMillis deploysInScope = init ++ [newest]) :
    (init.take n ++ [newest]).Sublist
      (pool.byAge currentBlockNumber currentTimeMillis deploysInScope) := by
  rw [hsorted]
  exact (List.take_sublist _ _).append (List.Sublist.refl _)

/-- A selection within a cap that is not zero, or of nothing, does what it is for. -/
theorem exists_selectForBlock_respectsCap
    (h : 0 < pool.config.maxUserDeploysPerBlock ∨
      ∀ d, ¬pool.Eligible currentBlockNumber currentTimeMillis deploysInScope d) :
    ∃ selected,
      pool.selectForBlock currentBlockNumber currentTimeMillis deploysInScope = some selected ∧
        pool.RespectsCap currentBlockNumber currentTimeMillis deploysInScope selected := by
  rcases Nat.lt_or_ge pool.config.maxUserDeploysPerBlock
    (pool.selectable currentBlockNumber currentTimeMillis deploysInScope).length with hlt | hle
  · have hpos : 0 < pool.config.maxUserDeploysPerBlock := by
      refine h.resolve_right fun hnone => ?_
      obtain ⟨d, hd⟩ := List.exists_mem_of_length_pos (Nat.zero_lt_of_lt hlt)
      exact hnone d (mem_selectable_iff.1 hd)
    have hne : pool.byAge currentBlockNumber currentTimeMillis deploysInScope ≠ [] := by
      intro hnil
      have hlen : (pool.byAge currentBlockNumber currentTimeMillis deploysInScope).length =
        (pool.selectable currentBlockNumber currentTimeMillis deploysInScope).length :=
          perm_byAge.length_eq
      rw [hnil, List.length_nil] at hlen
      omega
    obtain ⟨init, newest, hsorted⟩ := (List.eq_nil_or_concat' _).resolve_left hne
    have hparts := oldestAndNewest_byAge hpos hlt hsorted
    have hsub := sublist_byAge (pool.config.maxUserDeploysPerBlock - 1) hsorted
    refine ⟨_, selectForBlock_of_lt hpos hlt hsorted, ?_, ?_, fun d hd => ?_,
      fun hle => absurd hlt hle.not_gt, fun _ => ⟨_, _, rfl, hparts⟩⟩
    · rw [List.length_append, List.length_singleton, hparts.count]
    · exact ((perm_byAge.map _).nodup_iff.2 nodup_signatures).sublist (hsub.map _)
    · exact mem_selectable_iff.1 (perm_byAge.mem_iff.1 (hsub.subset hd))
  · refine ⟨_, if_pos hle, hle, nodup_signatures, fun d hd => mem_selectable_iff.1 hd,
      fun _ d hd => mem_selectable_iff.2 hd, fun hlt => absurd hle hlt.not_ge⟩

/-- **The selection respects its cap exactly where the cap is not zero or nothing may
go in.** -/
theorem selectForBlock_respectsCap_iff (pool : DeployPool)
    (currentBlockNumber currentTimeMillis : ℕ) (deploysInScope : List (List Byte)) :
    (∃ selected,
      pool.selectForBlock currentBlockNumber currentTimeMillis deploysInScope = some selected ∧
        pool.RespectsCap currentBlockNumber currentTimeMillis deploysInScope selected ∧
        ∀ pool', Reordered pool pool' → pool.config.maxUserDeploysPerBlock <
          (pool.selectable currentBlockNumber currentTimeMillis deploysInScope).length →
          pool'.selectForBlock currentBlockNumber currentTimeMillis deploysInScope =
            some selected) ↔
      0 < pool.config.maxUserDeploysPerBlock ∨
        ∀ d, ¬pool.Eligible currentBlockNumber currentTimeMillis deploysInScope d := by
  constructor
  · rintro ⟨selected, hselected, -, -⟩
    by_contra hcond
    obtain ⟨hzero, heligible⟩ := not_or.1 hcond
    push Not at heligible
    obtain ⟨d, hd⟩ := heligible
    have hlen := List.length_pos_of_mem (mem_selectable_iff.2 hd)
    unfold selectForBlock at hselected
    dsimp only at hselected
    rw [if_neg (by omega), if_neg (by omega), if_pos (by omega)] at hselected
    exact absurd hselected (by simp)
  · intro h
    obtain ⟨selected, hselected, hrespects⟩ := exists_selectForBlock_respectsCap h
    refine ⟨selected, hselected, hrespects, fun pool' hpool hlt => ?_⟩
    rw [selectForBlock_eq_of_reordered hpool hlt, hselected]

/-- A pool whose cap is zero, with one deploy. -/
def closedPool : DeployPool where
  deploys := AList.singleton Blocklace.firstDeploy.signature Blocklace.firstDeploy
  config := { maxUserDeploysPerBlock := 0 }
  keyed := (single Blocklace.firstDeploy 50).keyed

/-- **With a cap of zero one deploy that may go in makes the selection fail.** -/
theorem selectForBlock_closedPool :
    closedPool.Eligible 2 0 [] Blocklace.firstDeploy ∧ closedPool.selectForBlock 2 0 [] = none :=
  ⟨mem_selectable_iff.1 (by decide +kernel), by decide +kernel⟩

end DeployPool

end CordialMiners
