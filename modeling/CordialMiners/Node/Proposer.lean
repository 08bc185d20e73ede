/-
# Proposing a block

`CordialProposer::propose_at_time` of `proposer.rs`.

A call selects the tips to build on, reads the state of the best of them, asks for
slash deploys and user deploys, has them executed, signs the block and broadcasts
it.  Each stage can fail.  Only a call that comes to its end moves the bond table
to the one after the block and drops the queued authorizations; after a failed one
the next call starts from the same view, even where the block had been signed.

The traits of the source are fields of `ProposalEnv`: what the evidence source, the
slash formatter, the execution engine, the signer and the broadcaster answer in one
call.  Of the signer the model knows that it names the creator it is given, as
`Secp256k1BlockSigner` does.  `bincode`, the protobuf decoder of system deploys, the
`Debug` text of an identity and the penalty of a `TieredSlashPolicy` are parameters.
Arithmetic on `u64` and `usize` is checked: an overflow ends the call in a panic.
-/

import CordialMiners.Node.Candidate
import CordialMiners.Evidence.Pool
import CordialMiners.Execution.DeployPool

namespace CordialMiners

open Codec (bind_eq_ok mapError_eq_ok)

/-! ### What a call exchanges with its host -/

/-- Error from runtime operations. -/
inductive RuntimeError where
  | unknownPreState
  | unsupportedDeploySignatureAlgorithm (name : String)
  | invalidDeploySignature
  | invalidDeploy (reason : String)
  | internalError (reason : String)
deriving DecidableEq, Repr

/-- Why a call returns no block. -/
inductive ProposeError where
  | noTips
  | execution (error : RuntimeError)
  | sign (message : String)
  | broadcast (message : String)
  | payloadDecode (message : String)
  | slashFormat (message : String)
  | clock (message : String)
deriving DecidableEq, Repr

/-- How a call ends without a block: with an error, or in an arithmetic panic. -/
inductive ProposeStop where
  | error (error : ProposeError)
  | overflow
deriving DecidableEq, Repr

/-- A system-level operation to execute as part of a block. -/
inductive SystemDeployRequest where
  | slash (validator : NodeId) (invalidBlockHash : List Byte)
  | closeBlock
deriving DecidableEq, Repr

/-- What the runtime is asked to execute. -/
structure ExecutionRequest where
  preStateHash : List Byte
  deploys : List SignedDeploy
  systemDeploys : List SystemDeployRequest
  bonds : List Bond
  blockNumber : ℕ
deriving DecidableEq, Repr

/-- What the runtime returns. -/
structure ExecutionResult where
  postStateHash : List Byte
  processedDeploys : List ProcessedDeploy
  rejectedDeploys : List RejectedDeploy
  systemDeploys : List ProcessedSystemDeploy
  newBonds : List Bond
  /-- A `Vec` of bonds fits into memory. -/
  newBonds_lt : newBonds.length < 2 ^ 58

/-- Slash bytes with the penalty and the blocks they are about. -/
structure FormattedSlashEvidence where
  penaltyRatioBps : ℕ
  slashSystemDeploy : List Byte
  conflictingBlockBytes : List (List Byte)
deriving DecidableEq, Repr

/-- One item of a prepared batch. -/
inductive ExecutionBatchItem where
  | slashSystemDeploy (validator : NodeId) (round : ℕ) (evidence : FormattedSlashEvidence)
  | userDeploy (deploy : SignedDeploy)
  | closeBlock
deriving DecidableEq, Repr

/-- A request with the batch it was prepared from. -/
structure PreparedExecutionRequest where
  request : ExecutionRequest
  batch : List ExecutionBatchItem

/-- The system deploy of a `ProcessedSystemDeployProto`. -/
inductive HostSystemDeploy where
  | slashSystemDeploy (invalidBlockHash : List Byte)
  | other
deriving DecidableEq, Repr

/-- The penalty of a round with the given offenders. -/
structure TieredSlashPolicy where
  penaltyRatioBps : ℕ → List NodeId → Except String ℕ

/-- The answers of the traits in one call. -/
structure ProposalEnv where
  pendingEvidence : List CordialEquivocationEvidence
  equivocatingValidatorsInRound : ℕ → Option (List NodeId)
  toSlashSystemDeploys : List CordialEquivocationEvidence → Except String (List (List Byte))
  toTieredSlashDeploys :
    List CordialEquivocationEvidence → ℕ → Except String (List FormattedSlashEvidence)
  decodeSystemDeploy : List Byte → Except String (Option HostSystemDeploy)
  execute : ExecutionRequest → Except RuntimeError ExecutionResult
  executePrepared : PreparedExecutionRequest → Except RuntimeError ExecutionResult
  signBlock : BlockContent → NodeId → Except String BlockIdentity
  broadcast : Block → Except String Unit
  bincode : Bincode
  debugIdentity : BlockIdentity → String
  signBlock_creator : ∀ content creator identity,
    signBlock content creator = .ok identity → identity.creator = creator

/-- `CordialProposer`, apart from the traits. -/
structure CordialProposer where
  tipSelector : PredecessorSelectionMode
  slashPolicy : Option TieredSlashPolicy
  creator : NodeId
  bonds : Bonds
  deployPoolConfig : DeployPoolConfig
  includeCloseBlock : Bool
  porAuthorizations : List PorEquivocationAuthorization

/-- `Secp256k1BlockSigner::sign_block`. -/
def secp256k1SignBlock (blockHash : NodeId → BlockContent → ContentHash)
    (sign : ContentHash → Except String (List Byte)) (content : BlockContent) (creator : NodeId) :
    Except String BlockIdentity :=
  (sign (blockHash creator content)).map fun signature =>
    ⟨blockHash creator content, creator, signature⟩

theorem secp256k1SignBlock_creator {blockHash : NodeId → BlockContent → ContentHash}
    {sign : ContentHash → Except String (List Byte)} (content : BlockContent) (creator : NodeId)
    (identity : BlockIdentity)
    (h : secp256k1SignBlock blockHash sign content creator = .ok identity) :
    identity.creator = creator := by
  obtain ⟨signature, -, rfl⟩ := Codec.map_eq_ok.1 h
  rfl

/-! ### The state to build on -/

/-- `bonds_map_to_vec`. -/
def bondsMapToVec (bonds : Bonds) : List Bond :=
  (bonds.table.entries.map fun entry => (⟨entry.1, entry.2.val⟩ : Bond)).insertionSort
    fun a b => a.validator ≤ b.validator

/-- `active_bonds_to_map`: the positive stakes, a later bond of a validator in place
of an earlier one. -/
def activeBondsToMap (result : ExecutionResult) : Bonds where
  table := (result.newBonds.filter fun bond => 0 < bond.stake).foldl
    (fun table bond => table.insert bond.validator (Fin.ofNat (2 ^ 64) bond.stake)) ∅
  entries_lt := by
    have hstep : ∀ (bonds : List Bond) (table : AList fun _ : NodeId => U64),
        (bonds.foldl (fun table bond =>
          table.insert bond.validator (Fin.ofNat (2 ^ 64) bond.stake)) table).entries.length ≤
            table.entries.length + bonds.length := by
      intro bonds
      induction bonds with
      | nil => simp
      | cons bond bonds ih =>
          intro table
          refine (ih _).trans ?_
          have hkerase := (List.kerase_sublist bond.validator table.entries).length_le
          rw [AList.entries_insert, List.length_cons, List.length_cons]
          omega
    have hfold := hstep (result.newBonds.filter fun bond => decide (0 < bond.stake)) ∅
    have hfilter := List.length_filter_le (fun bond : Bond => decide (0 < bond.stake)) result.newBonds
    rw [AList.empty_entries, List.length_nil, Nat.zero_add] at hfold
    exact lt_of_le_of_lt (hfold.trans hfilter) result.newBonds_lt

/-- The best predecessor so far: number, identity, state after it and bonds. -/
abbrev BestPredecessor := ℕ × BlockIdentity × List Byte × List Bond

/-- One round of the loop of `derive_chain_head`. -/
def considerPredecessor (bincode : Bincode) (debugIdentity : BlockIdentity → String) (B : Blocklace)
    (best : Option BestPredecessor) (predId : BlockIdentity) :
    Except ProposeStop (Option BestPredecessor) :=
  match B.get predId with
  | none => .error (.error (.payloadDecode ("missing predecessor " ++ debugIdentity predId)))
  | some block =>
      match CordialBlockPayload.fromBytes bincode block.content.payload with
      | .error message => .error (.error (.payloadDecode message))
      | .ok payload =>
          let found := (payload.state.blockNumber, predId, payload.state.postStateHash,
            payload.state.bonds)
          match best with
          | none => .ok (some found)
          | some (number, id, rest) =>
              if number < payload.state.blockNumber ∨
                  number = payload.state.blockNumber ∧ id < predId then
                .ok (some found)
              else .ok (some (number, id, rest))

/-- `derive_chain_head`: the state after the predecessor with the largest block
number, the next number and the bonds. -/
def deriveChainHead (bincode : Bincode) (debugIdentity : BlockIdentity → String) (B : Blocklace)
    (predecessors : List BlockIdentity) : Except ProposeStop (List Byte × ℕ × List Bond) :=
  (predecessors.foldlM (considerPredecessor bincode debugIdentity B) none).bind fun best =>
    match best with
    | none => .ok ([], 0, [])
    | some (number, _, preStateHash, bonds) =>
        if number + 1 < 2 ^ 64 then .ok (preStateHash, number + 1, bonds) else .error .overflow

/-! ### Slash deploys -/

/-- `SystemDeployRequest::validate_invalid_block_hash`. -/
def validateInvalidBlockHash (hash : List Byte) : Except String Unit :=
  if hash.length = 32 then .ok ()
  else .error ("invalid_block_hash must be exactly 32 bytes, got " ++ toString hash.length ++ " bytes")

/-- `decode_slash_system_deploy`. -/
def decodeSlashSystemDeploy (env : ProposalEnv) (record : CordialEquivocationEvidence)
    (bytes : List Byte) : Except ProposeError SystemDeployRequest :=
  match env.decodeSystemDeploy bytes with
  | .error message => .error (.slashFormat message)
  | .ok none => .error (.slashFormat "missing slash system deploy")
  | .ok (some .other) => .error (.slashFormat "formatted system deploy is not a slash deploy")
  | .ok (some (.slashSystemDeploy invalidBlockHash)) =>
      match validateInvalidBlockHash invalidBlockHash with
      | .error message => .error (.slashFormat message)
      | .ok () => .ok (.slash record.validator invalidBlockHash)

/-- The text of an answer of the wrong length. -/
def formatterLengthError (returned records : ℕ) : ProposeError :=
  .slashFormat ("formatter returned " ++ toString returned ++ " slash deploys for " ++
    toString records ++ " evidence records")

/-- `slash_system_deploys`. -/
def slashSystemDeploys (env : ProposalEnv) : Except ProposeError (List SystemDeployRequest) :=
  if env.pendingEvidence = [] then .ok []
  else do
    let formatted ← (env.toSlashSystemDeploys env.pendingEvidence).mapError .slashFormat
    if formatted.length ≠ env.pendingEvidence.length then
      throw (formatterLengthError formatted.length env.pendingEvidence.length)
    (env.pendingEvidence.zip formatted).mapM fun row => decodeSlashSystemDeploy env row.1 row.2

/-- One record of a round with its slash evidence. -/
def tieredSlashDeploy (env : ProposalEnv) (round ratio : ℕ) (record : CordialEquivocationEvidence)
    (evidence : FormattedSlashEvidence) :
    Except ProposeError (SystemDeployRequest × ExecutionBatchItem) := do
  if evidence.penaltyRatioBps ≠ ratio then
    throw (.slashFormat "formatter changed the computed slash penalty")
  let request ← decodeSlashSystemDeploy env record evidence.slashSystemDeploy
  match request with
  | .slash _ invalidBlockHash =>
      if record.blocks.any fun block =>
          contentHashBytes block.identity.contentHash = invalidBlockHash then
        pure (request, .slashSystemDeploy record.validator round evidence)
      else throw (.slashFormat "formatted slash hash is not present in the selected evidence")
  | .closeBlock => pure (request, .slashSystemDeploy record.validator round evidence)

/-- The slash deploys of one round. -/
def tieredRoundDeploys (env : ProposalEnv) (policy : TieredSlashPolicy) (round : ℕ) :
    Except ProposeError (List (SystemDeployRequest × ExecutionBatchItem)) := do
  let records := env.pendingEvidence.filter fun record => record.round = round
  match env.equivocatingValidatorsInRound round with
  | none => throw (.slashFormat "tiered slashing requires round-grouped evidence")
  | some offenders =>
      if records.any fun record => record.validator ∉ offenders then
        throw (.slashFormat "selected slash evidence is absent from the round's offender set")
      let ratio ← (policy.penaltyRatioBps round offenders).mapError .slashFormat
      let key := fun record : CordialEquivocationEvidence =>
        toLex (record.validator, (record.blocks.map Block.identity).insertionSort (· ≤ ·))
      let sorted := records.insertionSort fun a b => key a ≤ key b
      let formatted ← (env.toTieredSlashDeploys sorted ratio).mapError .slashFormat
      if formatted.length ≠ sorted.length then
        throw (formatterLengthError formatted.length sorted.length)
      (sorted.zip formatted).mapM fun row => tieredSlashDeploy env round ratio row.1 row.2

/-- `tiered_slash_system_deploys`: round by round. -/
def tieredSlashSystemDeploys (env : ProposalEnv) (policy : TieredSlashPolicy) :
    Except ProposeError (List SystemDeployRequest × List ExecutionBatchItem) := do
  let rounds := ((env.pendingEvidence.map fun record => record.round).dedup).insertionSort (· ≤ ·)
  let deploys ← rounds.mapM (tieredRoundDeploys env policy)
  pure (deploys.flatten.map Prod.fst, deploys.flatten.map Prod.snd)

/-! ### One call -/

namespace CordialProposer

/-- The tips, the state before the block, its number and the bonds before it. -/
def chainHead (proposer : CordialProposer) (env : ProposalEnv) (B : Blocklace)
    (predecessors : List BlockIdentity) : Except ProposeStop (List Byte × ℕ × List Bond) :=
  if predecessors = [] then
    if B.dom = [] then .ok ([], 0, bondsMapToVec proposer.bonds) else .error (.error .noTips)
  else deriveChainHead env.bincode env.debugIdentity B predecessors

/-- The slash deploys, with a batch where a policy is set. -/
def slashDeploys (proposer : CordialProposer) (env : ProposalEnv) :
    Except ProposeStop (List SystemDeployRequest × Option (List ExecutionBatchItem)) :=
  match proposer.slashPolicy with
  | some policy =>
      ((tieredSlashSystemDeploys env policy).map fun deploys =>
        (deploys.1, some deploys.2)).mapError .error
  | none => ((slashSystemDeploys env).map fun requests => (requests, none)).mapError .error

/-- The user deploys of the block. -/
def userDeploys (proposer : CordialProposer) (env : ProposalEnv) (B : Blocklace)
    (pool : DeployPool) (currentTimeMillis : ℕ) (predecessors : List BlockIdentity)
    (blockNumber : ℕ) : Except ProposeStop (List SignedDeploy) :=
  let deploysInScope := B.computeDeploysInScope env.bincode predecessors blockNumber
    proposer.deployPoolConfig.deployLifespan
  match pool.selectForBlock blockNumber currentTimeMillis deploysInScope with
  | some selected => .ok selected.deploys
  | none => .error .overflow

/-- Have the request executed, with its batch where there is one. -/
def executeRequest (proposer : CordialProposer) (env : ProposalEnv) (request : ExecutionRequest)
    (preparedBatch : Option (List ExecutionBatchItem)) : Except ProposeStop ExecutionResult :=
  (match preparedBatch with
    | some batch => env.executePrepared ⟨request, batch ++
        request.deploys.map ExecutionBatchItem.userDeploy ++
          if proposer.includeCloseBlock then [ExecutionBatchItem.closeBlock] else []⟩
    | none => env.execute request).mapError fun error => .error (.execution error)

/-- `propose_at_time` up to and including the signature: the signed block and the
bond table after it. -/
def signNext (proposer : CordialProposer) (env : ProposalEnv) (B : Blocklace) (pool : DeployPool)
    (currentTimeMillis : ℕ) : Except ProposeStop (Block × Bonds) := do
  let predecessors := B.selectPredecessorsWithMode proposer.bonds proposer.tipSelector
  let (preStateHash, blockNumber, bonds) ← proposer.chainHead env B predecessors
  let (requests, preparedBatch) ← proposer.slashDeploys env
  let systemDeploys := if proposer.includeCloseBlock then requests ++ [.closeBlock] else requests
  let deploys ← proposer.userDeploys env B pool currentTimeMillis predecessors blockNumber
  let request := ⟨preStateHash, deploys, systemDeploys, bonds, blockNumber⟩
  let result ← proposer.executeRequest env request preparedBatch
  let payload : CordialBlockPayload :=
    { porAuthorizations := proposer.porAuthorizations
      state := ⟨preStateHash, result.postStateHash, result.newBonds, blockNumber⟩
      deploys := result.processedDeploys
      rejectedDeploys := result.rejectedDeploys
      systemDeploys := result.systemDeploys }
  -- references carry no signatures, so that a peer with another proof resolves them
  let content : BlockContent :=
    ⟨payload.toBytes env.bincode, (predecessors.map BlockIdentity.consensusIdentity).dedup⟩
  let identity ← (env.signBlock content proposer.creator).mapError fun message =>
    .error (.sign message)
  pure (⟨identity, content⟩, activeBondsToMap result)

/-- `CordialProposer::propose_at_time`. -/
def proposeAtTime (proposer : CordialProposer) (env : ProposalEnv) (B : Blocklace)
    (pool : DeployPool) (currentTimeMillis : ℕ) : Except ProposeStop Block × CordialProposer :=
  match proposer.signNext env B pool currentTimeMillis with
  | .error stop => (.error stop, proposer)
  | .ok (block, nextBonds) =>
      match env.broadcast block with
      | .error message => (.error (.error (.broadcast message)), proposer)
      | .ok () => (.ok block, { proposer with bonds := nextBonds, porAuthorizations := [] })

variable {proposer : CordialProposer} {env : ProposalEnv} {B : Blocklace} {pool : DeployPool}
  {now : ℕ} {block : Block} {nextBonds : Bonds}

/-- **What a call signs:** a block of the creator that refers to the selected tips by
hash and creator. -/
theorem signNext_eq_ok (h : proposer.signNext env B pool now = .ok (block, nextBonds)) :
    block.identity.creator = proposer.creator ∧
      ∀ p, p ∈ block.content.predecessors ↔
        ∃ tip ∈ B.selectPredecessorsWithMode proposer.bonds proposer.tipSelector,
          tip.consensusIdentity = p := by
  unfold signNext at h
  obtain ⟨⟨preStateHash, blockNumber, bonds⟩, -, h⟩ := bind_eq_ok.1 h
  obtain ⟨⟨requests, preparedBatch⟩, -, h⟩ := bind_eq_ok.1 h
  obtain ⟨deploys, -, h⟩ := bind_eq_ok.1 h
  obtain ⟨result, -, h⟩ := bind_eq_ok.1 h
  obtain ⟨identity, hsign, h⟩ := bind_eq_ok.1 h
  rw [mapError_eq_ok] at hsign
  obtain ⟨rfl, -⟩ := Prod.mk.inj (Except.ok.inj h)
  refine ⟨env.signBlock_creator _ _ _ hsign, fun p => ?_⟩
  rw [List.mem_dedup, List.mem_map]

/-- The creator and the tip selector stay. -/
theorem proposeAtTime_config : (proposer.proposeAtTime env B pool now).2.creator = proposer.creator ∧
    (proposer.proposeAtTime env B pool now).2.tipSelector = proposer.tipSelector := by
  unfold proposeAtTime
  split
  · exact ⟨rfl, rfl⟩
  · split <;> exact ⟨rfl, rfl⟩

end CordialProposer

end CordialMiners
