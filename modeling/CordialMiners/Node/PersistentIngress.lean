/-
# The ingress with a store

The part of `LiveIngress` (`live_ingress.rs`) that writes blocks to the store before it
hands them to the mirror, with the index of native blocks (`grpc_ingest.rs`), and its
start from a store.

The consensus callback of a call is a parameter of the call: what it answers.  A native
message comes as what the mapper makes of it.  The mirror accepts every signature, as
`AlreadyValidatedVerifier` does.  The phase and the data of the ordering are left out.
-/

import CordialMiners.Node.BlockStore
import CordialMiners.Node.MirrorRuns

namespace CordialMiners.Persistence

open Blocklace (alreadyValidated)

/-- A native block after translation. -/
structure ValidatedF1r3nodeBlock where
  block : Block
  wireHash : ContentHash
deriving DecidableEq, Repr

/-- `NativeBlockIdentityIndex`. -/
structure NativeBlockIdentityIndex where
  byWireHash : OrderedMap ContentHash BlockIdentity
  byCordialIdentity : OrderedMap BlockIdentity ContentHash

namespace NativeBlockIdentityIndex

def new : NativeBlockIdentityIndex := ⟨.empty, .empty⟩

variable (blockHash : NodeId → BlockContent → ContentHash)

/-- `check_candidate`. -/
def checkCandidate (index : NativeBlockIdentityIndex) (candidate : ValidatedF1r3nodeBlock) :
    Except String Unit :=
  let identity := candidate.block.identity
  if identity.signature ≠ [] ∨
      identity.contentHash ≠ blockHash identity.creator candidate.block.content then
    .error "native block has an invalid translated Cordial identity"
  else if (index.byWireHash.lookup candidate.wireHash).any fun existing => existing ≠ identity then
    .error "native wire hash already maps to another Cordial identity"
  else if (index.byCordialIdentity.lookup identity).any fun existing =>
      existing ≠ candidate.wireHash then
    .error "distinct native wire blocks collapse to one Cordial identity"
  else .ok ()

/-- `record_accepted`. -/
def recordAccepted (index : NativeBlockIdentityIndex) (candidate : ValidatedF1r3nodeBlock) :
    Except String NativeBlockIdentityIndex := do
  index.checkCandidate blockHash candidate
  pure ⟨index.byWireHash.insert candidate.wireHash candidate.block.identity,
    index.byCordialIdentity.insert candidate.block.identity candidate.wireHash⟩

end NativeBlockIdentityIndex

/-- The errors of a call. -/
inductive LiveIngressError where
  | mapping (message : String)
  | adapter (message : String)
  | mirror (error : MirrorError)
  | refused (message : String)
  | persistence (error : RepoError)
deriving DecidableEq, Repr

/-- The ingress: its mirror and its native index. -/
structure LiveIngress where
  mirror : LiveBlocklaceMirror
  nativeIndex : NativeBlockIdentityIndex

namespace LiveIngress

/-- A fresh ingress, with the token of its blocklace. -/
def new (token : ℕ) : LiveIngress := ⟨.new token, .new⟩

/-- `ingest_trusted_block`. -/
def ingestTrustedBlock (ingress : LiveIngress) (block : Block) (adapter : Except String Unit) :
    Except LiveIngressError MirrorUpdate × LiveIngress :=
  match adapter with
  | .error message => (.error (.adapter message), ingress)
  | .ok () =>
      let (result, mirror) := ingress.mirror.ingest alreadyValidated block
      (result.mapError .mirror, { ingress with mirror := mirror })

/-- `ingest_and_persist`. -/
def ingestAndPersist (ingress : LiveIngress) (block : Block) (adapter : Except String Unit)
    (repo : RSpaceBlocklaceRepository) :
    Except LiveIngressError MirrorUpdate × LiveIngress × RSpaceBlocklaceRepository :=
  let (result, ingress') := ingress.ingestTrustedBlock block adapter
  (result, ingress', repo.putBlock block)

variable (blockHash : NodeId → BlockContent → ContentHash)

/-- The end of `ingest_native_block_message_inner`, from the mirror on. -/
def applyNative (ingress : LiveIngress) (validated : ValidatedF1r3nodeBlock) :
    Except LiveIngressError MirrorUpdate × LiveIngress :=
  match ingress.mirror.ingest alreadyValidated validated.block with
  | (.error error, mirror) => (.error (.mirror error), { ingress with mirror := mirror })
  | (.ok update, mirror) =>
      if update.disposition ≠ .applied then
        (.error (.refused "native block was not applied after predecessor preflight"),
          { ingress with mirror := mirror })
      else
        match ingress.nativeIndex.recordAccepted blockHash validated with
        | .error message => (.error (.mapping message), { ingress with mirror := mirror })
        | .ok index => (.ok update, ⟨mirror, index⟩)

/-- `ingest_native_block_message_and_persist`, for a message that the mapper has made a
validated block of, or refused. -/
def ingestNativeAndPersist (ingress : LiveIngress) (mapped : Except String ValidatedF1r3nodeBlock)
    (adapter : Except String Unit) (repo : RSpaceBlocklaceRepository) :
    Except LiveIngressError MirrorUpdate × LiveIngress × RSpaceBlocklaceRepository :=
  match mapped with
  | .error message => (.error (.mapping message), ingress, repo)
  | .ok validated =>
      match ingress.nativeIndex.checkCandidate blockHash validated with
      | .error message => (.error (.mapping message), ingress, repo)
      | .ok () =>
          match ingress.nativeIndex.byWireHash.lookup validated.wireHash with
          | some known =>
              if (ingress.mirror.blocklace.get known).isNone then
                (.error (.refused "indexed native block is absent from the Cordial mirror"),
                  ingress, repo)
              else
                match repo.putNativeBlock validated.block validated.wireHash with
                | .error error => (.error (.persistence error), ingress, repo)
                | .ok repo' => (.ok ⟨.duplicate, 0⟩, ingress, repo')
          | none =>
              if (ingress.mirror.blocklace.get validated.block.identity).isSome ∨
                  validated.block.identity ∈ ingress.mirror.pending then
                (.error (.mapping "Cordial block is present without its native wire-hash mapping"),
                  ingress, repo)
              else if validated.block.content.predecessors.any fun parent =>
                  (ingress.mirror.blocklace.get parent).isNone then
                (.error (.refused "resolved native parent is absent from the Cordial mirror"),
                  ingress, repo)
              else
                match adapter with
                | .error message => (.error (.adapter message), ingress, repo)
                | .ok () =>
                    match repo.putNativeBlock validated.block validated.wireHash with
                    | .error error => (.error (.persistence error), ingress, repo)
                    | .ok repo' =>
                        let (result, ingress') := ingress.applyNative blockHash validated
                        (result, ingress', repo')

/-- A native block for the store, where there is one. -/
def putNative (repo : Option RSpaceBlocklaceRepository) (validated : ValidatedF1r3nodeBlock) :
    Except RepoError (Option RSpaceBlocklaceRepository) :=
  match repo with
  | none => .ok none
  | some repo => (repo.putNativeBlock validated.block validated.wireHash).map some

/-- `ingest_native_block_message_inner`: without a store it is `ingest_native_block_message`,
with the flag the trusted unsigned genesis. -/
def ingestNativeInner (ingress : LiveIngress) (mapped : Except String ValidatedF1r3nodeBlock)
    (adapter : Except String Unit) (repo : Option RSpaceBlocklaceRepository)
    (trustedUnsignedGenesis : Bool) :
    Except LiveIngressError MirrorUpdate × LiveIngress × Option RSpaceBlocklaceRepository :=
  match mapped with
  | .error message => (.error (.mapping message), ingress, repo)
  | .ok validated =>
      match ingress.nativeIndex.checkCandidate blockHash validated with
      | .error message => (.error (.mapping message), ingress, repo)
      | .ok () =>
          if trustedUnsignedGenesis ∧ ingress.nativeIndex.byWireHash.lookup validated.wireHash = none ∧
              ingress.mirror.blocklace.dom ≠ [] then
            (.error (.refused "unsigned genesis cannot be added after other Cordial blocks"),
              ingress, repo)
          else
            match ingress.nativeIndex.byWireHash.lookup validated.wireHash with
            | some known =>
                if (ingress.mirror.blocklace.get known).isNone then
                  (.error (.refused "indexed native block is absent from the Cordial mirror"),
                    ingress, repo)
                else
                  match putNative repo validated with
                  | .error error => (.error (.persistence error), ingress, repo)
                  | .ok repo' => (.ok ⟨.duplicate, 0⟩, ingress, repo')
            | none =>
                if (ingress.mirror.blocklace.get validated.block.identity).isSome ∨
                    validated.block.identity ∈ ingress.mirror.pending then
                  (.error (.mapping "Cordial block is present without its native wire-hash mapping"),
                    ingress, repo)
                else if validated.block.content.predecessors.any fun parent =>
                    (ingress.mirror.blocklace.get parent).isNone then
                  (.error (.refused "resolved native parent is absent from the Cordial mirror"),
                    ingress, repo)
                else
                  match adapter with
                  | .error message => (.error (.adapter message), ingress, repo)
                  | .ok () =>
                      match putNative repo validated with
                      | .error error => (.error (.persistence error), ingress, repo)
                      | .ok repo' =>
                          let (result, ingress') := ingress.applyNative blockHash validated
                          (result, ingress', repo')

/-- The native index leaves the mirror to the mirror. -/
theorem applyNative_mirror (ingress : LiveIngress) (validated : ValidatedF1r3nodeBlock) :
    (ingress.applyNative blockHash validated).2.mirror =
      (ingress.mirror.ingest alreadyValidated validated.block).2 := by
  unfold applyNative
  rcases ingress.mirror.ingest alreadyValidated validated.block with ⟨error | update, mirror⟩
  · rfl
  · dsimp only
    split_ifs
    · rfl
    · cases ingress.nativeIndex.recordAccepted blockHash validated with
      | error message => rfl
      | ok index => rfl

/-! ### The start from a store -/

/-- Why a start fails: a mapping of the store names a block that was not recovered, or
contradicts another one, or the store refuses. -/
inductive BootError where
  | unrecovered (identity : BlockIdentity)
  | nativeMapping (message : String)
  | repo (error : RepoError)
deriving DecidableEq, Repr

/-- The loop over the mappings of the store. -/
def recordMappings (engine : Blocklace) (index : NativeBlockIdentityIndex) :
    List (ContentHash × BlockIdentity) → Except BootError NativeBlockIdentityIndex
  | [] => .ok index
  | (wireHash, identity) :: mappings =>
      match engine.get identity with
      | none => .error (.unrecovered identity)
      | some block => do
          let index ← (index.recordAccepted blockHash ⟨block, wireHash⟩).mapError .nativeMapping
          recordMappings engine index mappings

/-- `with_persistent_store`, with the token of the new blocklace.  There is no result
where the recovery does not end. -/
def withPersistentStore (repo : RSpaceBlocklaceRepository) (verifier : CryptoVerifier) (token : ℕ) :
    Option (Except BootError (LiveIngress × Option BlockIdentity)) :=
  (repo.recoverIntoEngine verifier (.new token)).map fun (cursor, engine) => do
    let mappings ← repo.nativeBlockMappings.mapError .repo
    let index ← recordMappings blockHash engine .new mappings
    pure (⟨⟨engine, ∅⟩, index⟩, cursor)

end LiveIngress

/-! ### Calls -/

/-- An ingress and its store. -/
structure Node where
  ingress : LiveIngress
  repo : RSpaceBlocklaceRepository

/-- A call with a block for the store, and the answer of the consensus callback. -/
inductive Call where
  | ingest (block : Block) (adapter : Except String Unit)
  | native (mapped : Except String ValidatedF1r3nodeBlock) (adapter : Except String Unit)

/-- The block that a call hands over. -/
def Call.block : Call → Option Block
  | .ingest block _ => some block
  | .native (.ok validated) _ => some validated.block
  | .native (.error _) _ => none

namespace Node

/-- A fresh ingress with an empty store. -/
def new (codec : IdentityCodec) (token : ℕ) : Node := ⟨.new token, .empty codec⟩

variable (blockHash : NodeId → BlockContent → ContentHash)

/-- What a call leaves behind, also where it returns an error. -/
def step (node : Node) : Call → Node
  | .ingest block adapter =>
      let (_, ingress, repo) := node.ingress.ingestAndPersist block adapter node.repo
      ⟨ingress, repo⟩
  | .native mapped adapter =>
      let (_, ingress, repo) := node.ingress.ingestNativeAndPersist blockHash mapped adapter node.repo
      ⟨ingress, repo⟩

end Node

end CordialMiners.Persistence
