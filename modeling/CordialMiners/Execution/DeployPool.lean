/-
# Pending deploys

`execution/deploy_pool.rs`: the pool of user deploys and the choice of those that
go into a new block.

A deploy is chosen where it has started, has not expired by block number or by
time, and is not in scope: `computeDeploysInScope` walks the ancestry of the new
block and collects the deploys of the blocks inside the lifespan.  The walk stops
at a block that is older and at one whose payload cannot be read
(`mem_computeDeploysInScope_iff`).

`cap - 1` is a subtraction of `usize`; where it underflows the selection ends in
an arithmetic panic, which is `none` here.
-/

import CordialMiners.Execution.Payload
import CordialMiners.Core.References

namespace CordialMiners

open FinGraph

/-- Configuration of deploy selection. -/
structure DeployPoolConfig where
  maxUserDeploysPerBlock : ℕ := 32
  deployLifespan : ℕ := 50
  minPhloPrice : ℕ := 1
deriving DecidableEq, Repr

/-- Why a deploy is not taken into the pool. -/
inductive PoolError where
  | duplicate
  | insufficientPhloPrice (required actual : ℕ)
  | invalidSignature
deriving DecidableEq, Repr

/-- Pending deploys by signature. -/
structure DeployPool where
  deploys : AList fun _ : List Byte => SignedDeploy
  config : DeployPoolConfig
  keyed : ∀ entry ∈ deploys.entries, entry.2.signature = entry.1

/-- The choice of `select_for_block`. -/
structure SelectedDeploys where
  deploys : List SignedDeploy
  capHit : Bool
deriving DecidableEq, Repr

/-- Whether the block number is `lifespan` or more past `validAfter`; no deploy has
expired before block number `lifespan`. -/
def isBlockExpired (validAfter currentBlockNumber lifespan : ℕ) : Bool :=
  if lifespan ≤ currentBlockNumber then validAfter ≤ currentBlockNumber - lifespan else false

/-- Whether a deploy may go into the block. -/
def SignedDeploy.isSelectable (d : SignedDeploy)
    (currentBlockNumber currentTimeMillis lifespan : ℕ) (deploysInScope : List (List Byte)) : Bool :=
  d.deploy.validAfterBlockNumber ≤ currentBlockNumber &&
    !isBlockExpired d.deploy.validAfterBlockNumber currentBlockNumber lifespan &&
    d.deploy.expirationTimestamp.all (fun expiration => currentTimeMillis ≤ expiration) &&
    d.signature ∉ deploysInScope

/-- The order in which deploys are chosen: by start, time and signature. -/
def SignedDeploy.selectionKey (d : SignedDeploy) : ℕ ×ₗ ℕ ×ₗ List Byte :=
  toLex (d.deploy.validAfterBlockNumber, toLex (d.deploy.timestamp, d.signature))

namespace DeployPool

/-- `DeployPool::new`. -/
def new (config : DeployPoolConfig) : DeployPool := ⟨∅, config, by simp⟩

/-- `DeployPool::add`. -/
def add (pool : DeployPool) (deploy : SignedDeploy) : Except PoolError DeployPool :=
  if deploy.signature = [] then .error .invalidSignature
  else if deploy.deploy.phloPrice < pool.config.minPhloPrice then
    .error (.insufficientPhloPrice pool.config.minPhloPrice deploy.deploy.phloPrice)
  else if hnew : deploy.signature ∈ pool.deploys then .error .duplicate
  else .ok
    { pool with
      deploys := pool.deploys.insert deploy.signature deploy
      keyed := by
        intro entry hentry
        rw [AList.entries_insert_of_notMem hnew] at hentry
        obtain rfl | hentry := List.mem_cons.1 hentry
        · rfl
        · exact pool.keyed entry hentry }

/-- The deploys that may go into the block, in the order of iteration. -/
def selectable (pool : DeployPool) (currentBlockNumber currentTimeMillis : ℕ)
    (deploysInScope : List (List Byte)) : List SignedDeploy :=
  (pool.deploys.entries.map Sigma.snd).filter fun d =>
    d.isSelectable currentBlockNumber currentTimeMillis pool.config.deployLifespan deploysInScope

/-- `DeployPool::select_for_block`: all that may go in, or else the `cap - 1` oldest
and the newest. -/
def selectForBlock (pool : DeployPool) (currentBlockNumber currentTimeMillis : ℕ)
    (deploysInScope : List (List Byte)) : Option SelectedDeploys :=
  let valid := pool.selectable currentBlockNumber currentTimeMillis deploysInScope
  let cap := pool.config.maxUserDeploysPerBlock
  if valid.length ≤ cap then some ⟨valid, false⟩
  else
    let sorted := valid.insertionSort fun a b => a.selectionKey ≤ b.selectionKey
    if cap = 1 then some ⟨sorted.getLast?.toList, true⟩
    else if cap = 0 then none
    else some ⟨sorted.take (cap - 1) ++ sorted.getLast?.toList, true⟩

end DeployPool

/-! ### Deploys in scope -/

namespace Blocklace

variable (bincode : Bincode) (B : Blocklace) (earliest : ℕ)

/-- What the walk reads at a reference: the content and the payload of a block whose
number is `earliest` or more. -/
def readInWindow (id : BlockIdentity) : Option (BlockContent × CordialBlockPayload) :=
  (B.content id).bind fun content =>
    match CordialBlockPayload.fromBytes bincode content.payload with
    | .error _ => none
    | .ok payload =>
        if payload.state.blockNumber < earliest then none else some (content, payload)

/-- Where the walk goes on. -/
def windowReferences (id : BlockIdentity) : List BlockIdentity :=
  match B.readInWindow bincode earliest id with
  | none => []
  | some (content, _) => content.predecessors

/-- The signatures of the deploys that the walk finds at a reference. -/
def windowDeploys (id : BlockIdentity) : List (List Byte) :=
  match B.readInWindow bincode earliest id with
  | none => []
  | some (_, payload) => payload.deploys.map fun pd => pd.deploy.signature

/-- All references of stored blocks. -/
def allReferences : List BlockIdentity :=
  B.blocks.entries.flatMap fun entry => entry.2.predecessors

/-- `compute_deploys_in_scope`. -/
def computeDeploysInScope (predecessors : List BlockIdentity)
    (currentBlockNumber deployLifespan : ℕ) : List (List Byte) :=
  let earliest := currentBlockNumber - deployLifespan
  let next := B.windowReferences bincode earliest
  let nodes := (predecessors ++ B.allReferences).dedup
  let visited := drain next (predecessors.length + (nodes.map fun id => (next id).length).sum)
    predecessors.reverse []
  (visited.flatMap (B.windowDeploys bincode earliest)).dedup

variable {bincode B earliest}

/-- The walk goes to references of stored blocks. -/
theorem mem_allReferences_of_windowReferences {id p : BlockIdentity}
    (h : p ∈ B.windowReferences bincode earliest id) : p ∈ B.allReferences := by
  unfold windowReferences at h
  split at h
  · simp at h
  · next content payload hread =>
    obtain ⟨c, hc, hmatch⟩ := Option.bind_eq_some_iff.1 hread
    obtain ⟨r, -, hr⟩ := Option.bind_eq_some_iff.1 hc
    have hcontent : content = c := by
      split at hmatch
      · simp at hmatch
      · split_ifs at hmatch
        exact (congrArg Prod.fst (Option.some.inj hmatch)).symm
    subst hcontent
    exact List.mem_flatMap.2 ⟨⟨r, content⟩, mem_entries_iff.2 hr, h⟩

/-- **A deploy is in scope** where the walk from the new block's references, from
block to block inside the lifespan, meets a block that holds it. -/
theorem mem_computeDeploysInScope_iff {predecessors : List BlockIdentity}
    {currentBlockNumber deployLifespan : ℕ} {signature : List Byte} :
    signature ∈ B.computeDeploysInScope bincode predecessors currentBlockNumber deployLifespan ↔
      ∃ p ∈ predecessors, ∃ id,
        Reach (B.windowReferences bincode (currentBlockNumber - deployLifespan)) p id ∧
          signature ∈ B.windowDeploys bincode (currentBlockNumber - deployLifespan) id := by
  have hwalk : ∀ id, id ∈ drain (B.windowReferences bincode (currentBlockNumber - deployLifespan))
      (predecessors.length + ((predecessors ++ B.allReferences).dedup.map fun id =>
        (B.windowReferences bincode (currentBlockNumber - deployLifespan) id).length).sum)
      predecessors.reverse [] ↔ ∃ p ∈ predecessors.reverse,
        Reach (B.windowReferences bincode (currentBlockNumber - deployLifespan)) p id := by
    intro id
    refine mem_drain (U := (predecessors ++ B.allReferences).dedup.toFinset) (fun x y hy => ?_)
      (fun x hx => ?_) ?_
    · simp [mem_allReferences_of_windowReferences hy]
    · simp_all
    · rw [List.length_reverse, List.sum_toFinset _ (List.nodup_dedup _)]
  unfold computeDeploysInScope
  simp only [List.mem_dedup, List.mem_flatMap, hwalk, List.mem_reverse]
  constructor
  · rintro ⟨id, ⟨p, hp, hreach⟩, hsig⟩
    exact ⟨p, hp, id, hreach, hsig⟩
  · rintro ⟨p, hp, id, hreach, hsig⟩
    exact ⟨id, ⟨p, hp, hreach⟩, hsig⟩

end Blocklace

end CordialMiners
