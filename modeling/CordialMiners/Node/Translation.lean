/-
# Blocks as messages of the host node

`block_to_message` and `message_to_block` of `block_translation.rs`.

The message keeps the hashes of the references in one list and hashes with
creators in another, the numbers as `i64`, the algorithms by name and the
authorizations in spare bytes.  Most numbers are checked on the way out; the stake
of a bond is cast, so that from `2^63` on it comes out negative and is refused on
the way back.  An algorithm comes back as what its name spells, a payload without
authorizations in its short form, and of several references with one hash one is
left.

These are all the ways in which a block does not come back
(`message_to_block_iff`).
-/

import CordialMiners.Execution.Payload

namespace CordialMiners

open Codec (bind_eq_ok map_eq_ok mapError_eq_ok)

/-! ### The types of the host node -/

namespace Wire

abbrev ByteString := List Byte

/-- The header of a message. -/
structure Header where
  parentsHashList : List ByteString
  timestamp : ℤ
  version : ℤ
  extraBytes : ByteString
deriving DecidableEq, Repr

structure Bond where
  validator : ByteString
  stake : ℤ
deriving DecidableEq, Repr

/-- The state of a body. -/
structure F1r3flyState where
  preStateHash : ByteString
  postStateHash : ByteString
  bonds : List Bond
  blockNumber : ℤ
deriving DecidableEq, Repr

/-- A reference to the latest block of a validator. -/
structure Justification where
  validator : ByteString
  latestBlockHash : ByteString
deriving DecidableEq, Repr

structure DeployData where
  term : String
  timeStamp : ℤ
  phloPrice : ℤ
  phloLimit : ℤ
  validAfterBlockNumber : ℤ
  shardId : String
  expirationTimestamp : Option ℤ
deriving DecidableEq, Repr

/-- A deploy with its signature. -/
structure SignedDeployData where
  data : DeployData
  pk : ByteString
  sig : ByteString
  sigAlgorithm : String
deriving DecidableEq, Repr

/-- A deploy with its cost. -/
structure ProcessedDeploy where
  deploy : SignedDeployData
  cost : ℤ
  deployLog : List Byte
  isFailed : Bool
  systemDeployError : Option String
deriving DecidableEq, Repr

structure RejectedDeploy where
  sig : ByteString
deriving DecidableEq, Repr

/-- A system deploy that ran. -/
inductive ProcessedSystemDeploy where
  | slash (validator : ByteString) (succeeded : Bool)
  | closeBlock (succeeded : Bool)
deriving DecidableEq, Repr

/-- The body of a message. -/
structure Body where
  state : F1r3flyState
  deploys : List ProcessedDeploy
  rejectedDeploys : List RejectedDeploy
  systemDeploys : List ProcessedSystemDeploy
  extraBytes : ByteString
deriving DecidableEq, Repr

/-- A block as the host stores it. -/
structure BlockMessage where
  blockHash : ByteString
  header : Header
  body : Body
  justifications : List Justification
  sender : ByteString
  seqNum : ℤ
  sig : ByteString
  sigAlgorithm : String
  shardId : String
  extraBytes : ByteString
deriving DecidableEq, Repr

end Wire

/-- Errors from translating between the two formats. -/
inductive TranslationError where
  | payloadDecodeFailed (error : String)
  | numericOverflow (field : String)
  | invalidPredecessorHash (expectedLen got : ℕ)
  | invalidDeployTermUtf8 (error : String)
deriving DecidableEq, Repr

/-! ### Numbers and strings -/

/-- `u64_to_i64`. -/
def u64ToI64 (v : ℕ) (field : String) : Except TranslationError ℤ :=
  if v < 2 ^ 63 then .ok v else .error (.numericOverflow field)

/-- `i64_to_u64`. -/
def i64ToU64 (v : ℤ) (field : String) : Except TranslationError ℕ :=
  if 0 ≤ v then .ok v.toNat else .error (.numericOverflow field)

/-- `v as i64`: the same 64 bits. -/
@[irreducible] def asI64 (v : ℕ) : ℤ := (v : ℤ).bmod (2 ^ 64)

/-- `String::from_utf8`, with the text of its error. -/
def stringFromUtf8 (utf8Error : List Byte → String) (bytes : List Byte) :
    Except TranslationError String :=
  match String.fromUTF8? ⟨(bytes.map UInt8.ofFin).toArray⟩ with
  | some text => .ok text
  | none => .error (.invalidDeployTermUtf8 (utf8Error bytes))

/-- `str::as_bytes`. -/
def stringAsBytes (text : String) : List Byte := text.toUTF8.data.toList.map UInt8.toFin

/-! ### From the blocklace to the host node -/

/-- What the translation uses of other code: `bincode` and the error text of a
string that is not UTF-8. -/
structure TranslationEnv where
  bincode : Bincode
  utf8Error : List Byte → String

/-- The stake goes through `as i64`. -/
def bondToF1r3node (b : Bond) : Wire.Bond := ⟨b.validator.bytes, asI64 b.stake⟩

def deployToF1r3node (env : TranslationEnv) (d : Deploy) :
    Except TranslationError Wire.DeployData := do
  let term ← stringFromUtf8 env.utf8Error d.term
  let timeStamp ← u64ToI64 d.timestamp "deploy.timestamp"
  let phloPrice ← u64ToI64 d.phloPrice "deploy.phlo_price"
  let phloLimit ← u64ToI64 d.phloLimit "deploy.phlo_limit"
  let validAfterBlockNumber ← u64ToI64 d.validAfterBlockNumber "deploy.valid_after_block_number"
  let expirationTimestamp ← d.expirationTimestamp.mapM fun value =>
    u64ToI64 value "deploy.expiration_timestamp"
  pure ⟨term, timeStamp, phloPrice, phloLimit, validAfterBlockNumber, d.shardId,
    expirationTimestamp⟩

def signedDeployToF1r3node (env : TranslationEnv) (sd : SignedDeploy) :
    Except TranslationError Wire.SignedDeployData := do
  let data ← deployToF1r3node env sd.deploy
  pure ⟨data, sd.deployer, sd.signature, sd.signatureAlgorithm.asName⟩

def processedDeployToF1r3node (env : TranslationEnv) (pd : ProcessedDeploy) :
    Except TranslationError Wire.ProcessedDeploy := do
  let deploy ← signedDeployToF1r3node env pd.deploy
  let cost ← u64ToI64 pd.cost "processed_deploy.cost"
  pure ⟨deploy, cost, [], pd.isFailed, none⟩

/-- The reason is dropped. -/
def rejectedDeployToF1r3node (rd : RejectedDeploy) : Wire.RejectedDeploy := ⟨rd.deploy.signature⟩

def systemDeployToF1r3node : ProcessedSystemDeploy → Wire.ProcessedSystemDeploy
  | .slash validator succeeded => .slash validator.bytes succeeded
  | .closeBlock succeeded => .closeBlock succeeded

/-- `block_to_message`. -/
def blockToMessage (env : TranslationEnv) (block : Block) (shardId : String) :
    Except TranslationError Wire.BlockMessage := do
  let payload ← (CordialBlockPayload.fromBytes env.bincode block.content.payload).mapError
    .payloadDecodeFailed
  let parents := (block.content.predecessors.map fun id => contentHashBytes id.contentHash).insertionSort
    (· ≤ ·)
  let justifications := (block.content.predecessors.map fun id =>
    (⟨id.creator.bytes, contentHashBytes id.contentHash⟩ : Wire.Justification)).insertionSort
      fun a b => toLex (a.validator, a.latestBlockHash) ≤ toLex (b.validator, b.latestBlockHash)
  let blockNumber ← u64ToI64 payload.state.blockNumber "block_number"
  let deploys ← payload.deploys.mapM (processedDeployToF1r3node env)
  pure
    { blockHash := contentHashBytes block.identity.contentHash
      header := ⟨parents, 0, 1, []⟩
      body :=
        { state := ⟨payload.state.preStateHash, payload.state.postStateHash,
            payload.state.bonds.map bondToF1r3node, blockNumber⟩
          deploys := deploys
          rejectedDeploys := payload.rejectedDeploys.map rejectedDeployToF1r3node
          systemDeploys := payload.systemDeploys.map systemDeployToF1r3node
          extraBytes := CordialBlockPayload.encodePorExtra env.bincode payload.porAuthorizations }
      justifications := justifications
      sender := block.identity.creator.bytes
      seqNum := 0
      sig := block.identity.signature
      sigAlgorithm := "ed25519"
      shardId := shardId
      extraBytes := [] }

/-! ### From the host node to the blocklace -/

/-- A negative stake is refused. -/
def bondFromF1r3node (b : Wire.Bond) : Except TranslationError Bond := do
  let stake ← i64ToU64 b.stake "bond.stake"
  pure ⟨⟨b.validator⟩, stake⟩

/-- Negative numbers are refused. -/
def deployFromF1r3node (d : Wire.DeployData) : Except TranslationError Deploy := do
  let timestamp ← i64ToU64 d.timeStamp "deploy.time_stamp"
  let phloPrice ← i64ToU64 d.phloPrice "deploy.phlo_price"
  let phloLimit ← i64ToU64 d.phloLimit "deploy.phlo_limit"
  let validAfterBlockNumber ← i64ToU64 d.validAfterBlockNumber "deploy.valid_after_block_number"
  let expirationTimestamp ← d.expirationTimestamp.mapM fun value =>
    i64ToU64 value "deploy.expiration_timestamp"
  pure ⟨stringAsBytes d.term, timestamp, phloPrice, phloLimit, validAfterBlockNumber, d.shardId,
    expirationTimestamp⟩

def signedDeployFromF1r3node (sd : Wire.SignedDeployData) :
    Except TranslationError SignedDeploy := do
  let deploy ← deployFromF1r3node sd.data
  pure ⟨deploy, sd.pk, sd.sig, .fromName sd.sigAlgorithm⟩

def processedDeployFromF1r3node (pd : Wire.ProcessedDeploy) :
    Except TranslationError ProcessedDeploy := do
  let deploy ← signedDeployFromF1r3node pd.deploy
  let cost ← i64ToU64 pd.cost "processed_deploy.cost"
  pure ⟨deploy, cost, pd.isFailed⟩

/-- A rejected deploy comes back as little more than its signature. -/
def rejectedDeployFromF1r3node (rd : Wire.RejectedDeploy) : RejectedDeploy :=
  ⟨⟨⟨[], 0, 0, 0, 0, "", none⟩, [], rd.sig, .unspecified⟩, .invalidSignature⟩

def systemDeployFromF1r3node : Wire.ProcessedSystemDeploy → ProcessedSystemDeploy
  | .slash validator succeeded => .slash ⟨validator⟩ succeeded
  | .closeBlock succeeded => .closeBlock succeeded

/-- The creator that a justification names for each hash; a later one wins. -/
def hashToCreator (justifications : List Wire.Justification) :
    AList fun _ : Wire.ByteString => Wire.ByteString :=
  justifications.foldl (fun map j => map.insert j.latestBlockHash j.validator) ∅

/-- Union of the parents and the hashes of the justifications. -/
def Wire.BlockMessage.predHashes (msg : Wire.BlockMessage) : List Wire.ByteString :=
  (msg.header.parentsHashList ++ msg.justifications.map Wire.Justification.latestBlockHash).dedup

/-- The reference that a hash stands for. -/
def predecessorOf (msg : Wire.BlockMessage) (hash : Wire.ByteString) :
    Except TranslationError BlockIdentity :=
  if hash.length = 32 then
    .ok ⟨contentHashOf hash,
      ⟨((hashToCreator msg.justifications).lookup hash).getD msg.sender⟩, []⟩
  else .error (.invalidPredecessorHash 32 hash.length)

/-- `message_to_block`. -/
def messageToBlock (env : TranslationEnv) (hasher : List Byte → ContentHash)
    (msg : Wire.BlockMessage) : Except TranslationError Block := do
  let predecessors ← msg.predHashes.mapM (predecessorOf msg)
  let porAuthorizations ← (CordialBlockPayload.decodePorExtra env.bincode
    msg.body.extraBytes).mapError .payloadDecodeFailed
  let bonds ← msg.body.state.bonds.mapM bondFromF1r3node
  let blockNumber ← i64ToU64 msg.body.state.blockNumber "block_number"
  let deploys ← msg.body.deploys.mapM processedDeployFromF1r3node
  let payload : CordialBlockPayload :=
    { porAuthorizations := porAuthorizations
      state := ⟨msg.body.state.preStateHash, msg.body.state.postStateHash, bonds, blockNumber⟩
      deploys := deploys
      rejectedDeploys := msg.body.rejectedDeploys.map rejectedDeployFromF1r3node
      systemDeploys := msg.body.systemDeploys.map systemDeployFromF1r3node }
  let content : BlockContent := ⟨payload.toBytes env.bincode, predecessors⟩
  let creator : NodeId := ⟨msg.sender⟩
  pure ⟨⟨blockHashExt hasher creator content, creator, msg.sig⟩, content⟩

/-! ### What comes back -/

/-- The numbers below `2^63` go through. -/
theorem u64ToI64_eq_ok {v : ℕ} {w : ℤ} {field : String} :
    u64ToI64 v field = .ok w ↔ v < 2 ^ 63 ∧ w = v := by
  unfold u64ToI64
  split_ifs with h
  · rw [and_iff_right h, Except.ok.injEq]
    exact eq_comm
  · exact iff_of_false (by simp) fun hv => h hv.1

@[simp] theorem i64ToU64_natCast (v : ℕ) (field : String) :
    i64ToU64 (v : ℤ) field = .ok v := by simp [i64ToU64]

/-- A string that was read from bytes has these bytes. -/
theorem stringAsBytes_of_stringFromUtf8 {utf8Error : List Byte → String} {bytes : List Byte}
    {text : String} (h : stringFromUtf8 utf8Error bytes = .ok text) :
    stringAsBytes text = bytes := by
  unfold stringFromUtf8 at h
  split at h
  · next found hfound =>
    obtain rfl := Except.ok.inj h
    unfold String.fromUTF8? at hfound
    split at hfound
    · obtain rfl := Option.some.inj hfound
      simp [stringAsBytes, String.fromUTF8, Function.comp_def]
    · exact absurd hfound (by simp)
  · exact absurd h (by simp)

/-- Going there and back, item by item. -/
theorem mapM_of_mapM {ε α β γ : Type} {f : α → Except ε β} {g : β → Except ε γ} {h : α → γ}
    (hgf : ∀ a b, f a = .ok b → g b = .ok (h a)) {l : List α} {m : List β}
    (hm : l.mapM f = .ok m) : m.mapM g = .ok (l.map h) := by
  induction l generalizing m with
  | nil =>
      obtain rfl : [] = m := Except.ok.inj (by rw [← hm]; rfl)
      rfl
  | cons a l ih =>
      rw [List.mapM_cons] at hm
      obtain ⟨b, hb, hm⟩ := bind_eq_ok.1 hm
      obtain ⟨m', hm', hcons⟩ := bind_eq_ok.1 hm
      obtain rfl : b :: m' = m := Except.ok.inj hcons
      rw [List.mapM_cons, hgf a b hb, ih hm']
      rfl

theorem option_mapM_of_mapM {ε α β γ : Type} {f : α → Except ε β} {g : β → Except ε γ}
    {h : α → γ} (hgf : ∀ a b, f a = .ok b → g b = .ok (h a)) {o : Option α} {m : Option β}
    (hm : o.mapM f = .ok m) : m.mapM g = .ok (o.map h) := by
  cases o with
  | none =>
      obtain rfl : none = m := Except.ok.inj (by rw [← hm]; rfl)
      rfl
  | some a =>
      rw [Option.mapM_some] at hm
      obtain ⟨b, hb, rfl⟩ := map_eq_ok.1 hm
      rw [Option.mapM_some, hgf a b hb]
      rfl

/-- A deploy comes back as it was. -/
theorem deployFromF1r3node_of_to {env : TranslationEnv} {d : Deploy} {w : Wire.DeployData}
    (h : deployToF1r3node env d = .ok w) : deployFromF1r3node w = .ok d := by
  unfold deployToF1r3node at h
  simp only [bind_eq_ok, u64ToI64_eq_ok] at h
  obtain ⟨term, hterm, _, ⟨-, rfl⟩, _, ⟨-, rfl⟩, _, ⟨-, rfl⟩, _, ⟨-, rfl⟩, expiration, hexp, hw⟩ := h
  obtain rfl := Except.ok.inj hw
  have hback : expiration.mapM (fun value => i64ToU64 value "deploy.expiration_timestamp") =
      .ok (d.expirationTimestamp.map id) := by
    refine option_mapM_of_mapM (fun a b hab => ?_) hexp
    obtain ⟨-, rfl⟩ := u64ToI64_eq_ok.1 hab
    exact i64ToU64_natCast a _
  unfold deployFromF1r3node
  simp only [i64ToU64_natCast, hback, Option.map_id, id, stringAsBytes_of_stringFromUtf8 hterm]
  rfl

/-- The deploy with the algorithm that its name spells. -/
def ProcessedDeploy.respelled (pd : ProcessedDeploy) : ProcessedDeploy :=
  { pd with deploy := { pd.deploy with
      signatureAlgorithm := .fromName pd.deploy.signatureAlgorithm.asName } }

theorem processedDeployFromF1r3node_of_to {env : TranslationEnv} {pd : ProcessedDeploy}
    {w : Wire.ProcessedDeploy} (h : processedDeployToF1r3node env pd = .ok w) :
    processedDeployFromF1r3node w = .ok pd.respelled := by
  unfold processedDeployToF1r3node signedDeployToF1r3node at h
  simp only [bind_eq_ok, u64ToI64_eq_ok] at h
  obtain ⟨signed, ⟨data, hdata, hsigned⟩, _, ⟨-, rfl⟩, hw⟩ := h
  obtain rfl := Except.ok.inj hsigned
  obtain rfl := Except.ok.inj hw
  unfold processedDeployFromF1r3node signedDeployFromF1r3node
  simp only [deployFromF1r3node_of_to hdata, i64ToU64_natCast]
  rfl

theorem systemDeployFromF1r3node_to (sd : ProcessedSystemDeploy) :
    systemDeployFromF1r3node (systemDeployToF1r3node sd) = sd := by
  cases sd <;> rfl

/-- The cast of a stake is negative from `2^63` on. -/
theorem asI64_nonneg_iff {v : ℕ} : 0 ≤ asI64 v ∧ (asI64 v).toNat = v ↔ v < 2 ^ 63 := by
  unfold asI64 Int.bmod
  simp only
  split_ifs with h
  · omega
  · omega

/-! ### References -/

/-- A justification gives its hash a creator, and only justifications do. -/
theorem lookup_hashToCreator {justifications : List Wire.Justification} {hash : Wire.ByteString}
    (h : ∃ j ∈ justifications, j.latestBlockHash = hash) :
    ∃ j ∈ justifications, j.latestBlockHash = hash ∧
      (hashToCreator justifications).lookup hash = some j.validator := by
  have hfold : ∀ (js : List Wire.Justification) (map : AList fun _ : Wire.ByteString =>
      Wire.ByteString),
      (js.foldl (fun map j => map.insert j.latestBlockHash j.validator) map).lookup hash =
          map.lookup hash ∧ (∀ j ∈ js, j.latestBlockHash ≠ hash) ∨
        ∃ j ∈ js, j.latestBlockHash = hash ∧
          (js.foldl (fun map j => map.insert j.latestBlockHash j.validator) map).lookup hash =
            some j.validator := by
    intro js
    induction js with
    | nil => exact fun map => Or.inl ⟨rfl, by simp⟩
    | cons j js ih =>
        intro map
        obtain ⟨hlookup, hnone⟩ | ⟨k, hk, hkh, hlookup⟩ :=
          ih (map.insert j.latestBlockHash j.validator)
        · by_cases hj : j.latestBlockHash = hash
          · refine Or.inr ⟨j, by simp, hj, hlookup.trans ?_⟩
            rw [← hj, AList.lookup_insert]
          · refine Or.inl ⟨hlookup.trans (AList.lookup_insert_ne (Ne.symm hj)), ?_⟩
            exact List.forall_mem_cons.2 ⟨hj, hnone⟩
        · exact Or.inr ⟨k, List.mem_cons_of_mem _ hk, hkh, hlookup⟩
  obtain ⟨-, hnone⟩ | hsome := hfold justifications ∅
  · obtain ⟨j, hj, hjh⟩ := h
    exact absurd hjh (hnone j hj)
  · exact hsome

/-- References that keep one of each hash are all of them, up to signatures, exactly
where no hash comes twice. -/
theorem references_perm_iff {found predecessors : List BlockIdentity}
    (hfound : (found.map BlockIdentity.contentHash).Nodup)
    (hsub : ∀ r ∈ found, ∃ p ∈ predecessors, p.consensusIdentity = r)
    (hcover : ∀ p ∈ predecessors, ∃ r ∈ found, r.contentHash = p.contentHash) :
    found.Perm (predecessors.map BlockIdentity.consensusIdentity) ↔
      (predecessors.map BlockIdentity.contentHash).Nodup := by
  have hhashes : (predecessors.map BlockIdentity.consensusIdentity).map BlockIdentity.contentHash =
      predecessors.map BlockIdentity.contentHash := by
    rw [List.map_map]
    rfl
  constructor
  · intro hperm
    rw [← hhashes]
    exact (hperm.map _).nodup_iff.1 hfound
  · intro hnodup
    refine (List.perm_ext_iff_of_nodup (List.Nodup.of_map _ hfound) ?_).2 fun q => ⟨?_, ?_⟩
    · rw [← hhashes] at hnodup
      exact List.Nodup.of_map _ hnodup
    · intro hq
      obtain ⟨p, hp, rfl⟩ := hsub q hq
      exact List.mem_map_of_mem hp
    · intro hq
      obtain ⟨p, hp, rfl⟩ := List.mem_map.1 hq
      obtain ⟨r, hr, hrp⟩ := hcover p hp
      obtain ⟨p', hp', rfl⟩ := hsub r hr
      rwa [List.inj_on_of_nodup_map hnodup hp' hp hrp] at hr

/-- The message names the references of the block. -/
structure Wire.BlockMessage.Names (msg : Wire.BlockMessage) (predecessors : List BlockIdentity) : Prop where
  parents : ∀ hash, hash ∈ msg.header.parentsHashList ↔
    ∃ p ∈ predecessors, contentHashBytes p.contentHash = hash
  justifications : ∀ j, j ∈ msg.justifications ↔
    ∃ p ∈ predecessors, (⟨p.creator.bytes, contentHashBytes p.contentHash⟩ : Wire.Justification) = j

/-- **The references that come back:** one for each hash, with a creator that one of
the references gave it. -/
theorem exists_predecessors {msg : Wire.BlockMessage} {predecessors : List BlockIdentity}
    (h : msg.Names predecessors) :
    ∃ found, msg.predHashes.mapM (predecessorOf msg) = .ok found ∧
      (found.map BlockIdentity.contentHash).Nodup ∧
      (∀ r ∈ found, ∃ p ∈ predecessors, p.consensusIdentity = r) ∧
      ∀ p ∈ predecessors, ∃ r ∈ found, r.contentHash = p.contentHash := by
  have hmem : ∀ hash, hash ∈ msg.predHashes ↔
      ∃ p ∈ predecessors, contentHashBytes p.contentHash = hash := by
    intro hash
    unfold Wire.BlockMessage.predHashes
    rw [List.mem_dedup, List.mem_append, h.parents, List.mem_map]
    refine or_iff_left_of_imp ?_
    rintro ⟨j, hj, rfl⟩
    obtain ⟨p, hp, rfl⟩ := (h.justifications j).1 hj
    exact ⟨p, hp, rfl⟩
  let reference : Wire.ByteString → BlockIdentity := fun hash => ⟨contentHashOf hash,
    ⟨((hashToCreator msg.justifications).lookup hash).getD msg.sender⟩, []⟩
  have hread : ∀ hash ∈ msg.predHashes, predecessorOf msg hash = .ok (reference hash) := by
    intro hash hhash
    obtain ⟨p, -, rfl⟩ := (hmem hash).1 hhash
    unfold predecessorOf
    rw [if_pos (length_contentHashBytes _)]
  refine ⟨_, Codec.mapM_eq_ok_map hread, ?_, fun r hr => ?_, fun p hp => ?_⟩
  · rw [List.map_map]
    refine List.Nodup.map_on (fun a ha b hb hab => ?_) (List.nodup_dedup _)
    obtain ⟨p, -, rfl⟩ := (hmem a).1 ha
    obtain ⟨q, -, rfl⟩ := (hmem b).1 hb
    simp only [reference, Function.comp_apply, contentHashOf_contentHashBytes] at hab
    rw [hab]
  · obtain ⟨hash, hhash, rfl⟩ := List.mem_map.1 hr
    obtain ⟨p, hp, hpash⟩ := (hmem hash).1 hhash
    obtain ⟨j, hj, hjh, hlookup⟩ := lookup_hashToCreator
      ⟨_, (h.justifications _).2 ⟨p, hp, rfl⟩, hpash⟩
    obtain ⟨q, hq, rfl⟩ := (h.justifications j).1 hj
    refine ⟨q, hq, ?_⟩
    subst hjh
    simp only [reference, hlookup, Option.getD_some, contentHashOf_contentHashBytes]
    rfl
  · refine ⟨_, List.mem_map_of_mem ((hmem _).2 ⟨p, hp, rfl⟩), ?_⟩
    exact contentHashOf_contentHashBytes _

/-! ### The round trip -/

/-- The payload as it comes back: stakes cast, algorithms respelled, of a rejected
deploy its signature. -/
def CordialBlockPayload.translated (payload : CordialBlockPayload) : CordialBlockPayload :=
  { payload with
    state := { payload.state with
      bonds := payload.state.bonds.map fun b => { b with stake := (asI64 b.stake).toNat } }
    deploys := payload.deploys.map ProcessedDeploy.respelled
    rejectedDeploys := payload.rejectedDeploys.map fun rd =>
      rejectedDeployFromF1r3node (rejectedDeployToF1r3node rd) }

variable {env : TranslationEnv} {hasher : List Byte → ContentHash} {block : Block}
  {shardId : String} {payload : CordialBlockPayload} {msg : Wire.BlockMessage}

/-- The stakes that are not negative go through. -/
theorem bondFromF1r3node_eq_ok {b : Wire.Bond} {found : Bond} :
    bondFromF1r3node b = .ok found ↔ 0 ≤ b.stake ∧ found = ⟨⟨b.validator⟩, b.stake.toNat⟩ := by
  unfold bondFromF1r3node i64ToU64
  rw [bind_eq_ok]
  split_ifs with h
  · simp only [Except.ok.injEq, exists_eq_left', h, true_and]
    exact ⟨fun heq => (Except.ok.inj heq).symm, fun heq => heq ▸ rfl⟩
  · simp [h]

/-- The bonds come back where no stake is negative. -/
theorem bonds_mapM {bonds : List Wire.Bond} {found : List Bond} :
    bonds.mapM bondFromF1r3node = .ok found ↔
      (∀ b ∈ bonds, 0 ≤ b.stake) ∧
        found = bonds.map fun b => ⟨⟨b.validator⟩, b.stake.toNat⟩ := by
  induction bonds generalizing found with
  | nil =>
      simp only [List.map_nil, List.mapM_nil, List.not_mem_nil, false_implies, implies_true,
        true_and]
      exact ⟨fun h => (Except.ok.inj h).symm, fun h => h ▸ rfl⟩
  | cons b bonds ih =>
      rw [List.mapM_cons, bind_eq_ok, List.forall_mem_cons, List.map_cons]
      simp only [bind_eq_ok, ih, bondFromF1r3node_eq_ok]
      constructor
      · rintro ⟨first, ⟨hb, rfl⟩, _, ⟨hall, rfl⟩, hfound⟩
        exact ⟨⟨hb, hall⟩, (Except.ok.inj hfound).symm⟩
      · rintro ⟨⟨hb, hall⟩, rfl⟩
        exact ⟨_, ⟨hb, rfl⟩, _, ⟨hall, rfl⟩, rfl⟩

/-- What a message made from a block is. -/
theorem blockToMessage_eq_ok (hpayload : CordialBlockPayload.fromBytes env.bincode
      block.content.payload = .ok payload) (h : blockToMessage env block shardId = .ok msg) :
    msg.Names block.content.predecessors ∧ msg.sender = block.identity.creator.bytes ∧
      msg.sig = block.identity.signature ∧
      msg.body.extraBytes =
        CordialBlockPayload.encodePorExtra env.bincode payload.porAuthorizations ∧
      msg.body.state = ⟨payload.state.preStateHash, payload.state.postStateHash,
        payload.state.bonds.map bondToF1r3node, payload.state.blockNumber⟩ ∧
      payload.deploys.mapM (processedDeployToF1r3node env) = .ok msg.body.deploys ∧
      msg.body.rejectedDeploys = payload.rejectedDeploys.map rejectedDeployToF1r3node ∧
      msg.body.systemDeploys = payload.systemDeploys.map systemDeployToF1r3node := by
  unfold blockToMessage at h
  rw [hpayload] at h
  simp only [bind_eq_ok, mapError_eq_ok, Except.ok.injEq, exists_eq_left',
    u64ToI64_eq_ok] at h
  obtain ⟨_, ⟨-, rfl⟩, deploys, hdeploys, hmsg⟩ := h
  obtain rfl := Except.ok.inj hmsg
  refine ⟨⟨fun hash => ?_, fun j => ?_⟩, rfl, rfl, rfl, rfl, hdeploys, rfl, rfl⟩
  · rw [List.mem_insertionSort, List.mem_map]
  · rw [List.mem_insertionSort, List.mem_map]

/-- **What comes back from the message of a block:** nothing where a stake came out
negative, and else the translated payload with one reference for each hash. -/
theorem messageToBlock_eq_ok (hasher : List Byte → ContentHash)
    (hbincode : env.bincode.Lawful)
    (hpayload : CordialBlockPayload.fromBytes env.bincode block.content.payload = .ok payload)
    (h : blockToMessage env block shardId = .ok msg) :
    ∃ found : List BlockIdentity, (found.map BlockIdentity.contentHash).Nodup ∧
      (∀ r ∈ found, ∃ p ∈ block.content.predecessors, p.consensusIdentity = r) ∧
      (∀ p ∈ block.content.predecessors, ∃ r ∈ found, r.contentHash = p.contentHash) ∧
      ∀ back, messageToBlock env hasher msg = .ok back ↔
        (∀ b ∈ payload.state.bonds, 0 ≤ asI64 b.stake) ∧
          back = ⟨⟨blockHashExt hasher block.identity.creator
              ⟨payload.translated.toBytes env.bincode, found⟩, block.identity.creator,
              block.identity.signature⟩, ⟨payload.translated.toBytes env.bincode, found⟩⟩ := by
  obtain ⟨hnames, hsender, hsig, hextra, hstate, hdeploys, hrejected, hsystem⟩ :=
    blockToMessage_eq_ok hpayload h
  obtain ⟨found, hfound, hnodup, hsub, hcover⟩ := exists_predecessors hnames
  have hdeploysBack : msg.body.deploys.mapM processedDeployFromF1r3node =
      .ok (payload.deploys.map ProcessedDeploy.respelled) :=
    mapM_of_mapM (fun _ _ => processedDeployFromF1r3node_of_to) hdeploys
  have hsystemBack : msg.body.systemDeploys.map systemDeployFromF1r3node = payload.systemDeploys := by
    rw [hsystem, List.map_map]
    exact (List.map_congr_left fun sd _ => systemDeployFromF1r3node_to sd).trans (List.map_id _)
  refine ⟨found, hnodup, hsub, hcover, fun back => ?_⟩
  unfold messageToBlock
  rw [hfound, hextra, CordialBlockPayload.decodePorExtra_encodePorExtra hbincode, hdeploysBack,
    hsystemBack, hrejected, hstate, hsender, hsig, List.map_map]
  simp only [bind_eq_ok, mapError_eq_ok, Except.ok.injEq, exists_eq_left',
    i64ToU64_natCast, bonds_mapM, List.forall_mem_map, List.map_map]
  constructor
  · rintro ⟨bonds, ⟨hall, rfl⟩, hback⟩
    exact ⟨hall, (Except.ok.inj hback).symm⟩
  · rintro ⟨hall, rfl⟩
    exact ⟨_, ⟨hall, rfl⟩, rfl⟩

/-- **When the payload comes back as it was.** -/
theorem translated_eq_iff (hrejected : payload.rejectedDeploys = []) :
    ((∀ b ∈ payload.state.bonds, 0 ≤ asI64 b.stake) ∧ payload.translated = payload) ↔
      (∀ b ∈ payload.state.bonds, b.stake < 2 ^ 63) ∧
        ∀ pd ∈ payload.deploys, pd.deploy.signatureAlgorithm.Canonical := by
  have hbonds : (payload.state.bonds.map fun b => { b with stake := (asI64 b.stake).toNat }) =
      payload.state.bonds ↔ ∀ b ∈ payload.state.bonds, (asI64 b.stake).toNat = b.stake := by
    refine (Iff.of_eq (congrArg _ (List.map_id _).symm)).trans (List.map_inj_left.trans ?_)
    refine forall₂_congr fun b _ => ?_
    obtain ⟨validator, stake⟩ := b
    simp only [id, Bond.mk.injEq, true_and]
  have hdeploys : payload.deploys.map ProcessedDeploy.respelled = payload.deploys ↔
      ∀ pd ∈ payload.deploys, pd.deploy.signatureAlgorithm.Canonical := by
    refine (Iff.of_eq (congrArg _ (List.map_id _).symm)).trans (List.map_inj_left.trans ?_)
    refine forall₂_congr fun pd _ => ?_
    rw [← DeploySignatureAlgorithm.fromName_asName_iff]
    obtain ⟨⟨deploy, deployer, signature, algorithm⟩, cost, isFailed⟩ := pd
    simp [ProcessedDeploy.respelled]
  have htranslated : payload.translated = payload ↔
      (payload.state.bonds.map fun b => { b with stake := (asI64 b.stake).toNat }) =
        payload.state.bonds ∧ payload.deploys.map ProcessedDeploy.respelled = payload.deploys := by
    obtain ⟨authorizations, ⟨pre, post, bonds, number⟩, deploys, rejected, system⟩ := payload
    obtain rfl : rejected = [] := hrejected
    simp [CordialBlockPayload.translated]
  rw [htranslated, hbonds, hdeploys, ← and_assoc, ← forall₂_and]
  refine and_congr_left fun _ => forall₂_congr fun b _ => ?_
  exact asI64_nonneg_iff

/-- **The ways in which a block can fail to come back** are ruled out: a stake of
`2^63` or more, another name for a known algorithm, two references with one hash,
and the long form of a payload without authorizations. -/
structure Translatable (block : Block) (payload : CordialBlockPayload) : Prop where
  stakes : ∀ b ∈ payload.state.bonds, b.stake < 2 ^ 63
  algorithms : ∀ pd ∈ payload.deploys, pd.deploy.signatureAlgorithm.Canonical
  hashes : (block.content.predecessors.map BlockIdentity.contentHash).Nodup
  shortForm : ¬ (CordialBlockPayload.payloadV2 <+: block.content.payload ∧
    payload.porAuthorizations = [])

/-- **A block comes back from its message exactly where it is translatable:** with
its creator, hash and signature, its payload and, up to signatures, its
references. -/
theorem message_to_block_iff (hbincode : env.bincode.Lawful)
    (hhash : block.identity.contentHash =
      blockHashExt hasher block.identity.creator block.content)
    (hpayload : CordialBlockPayload.fromBytes env.bincode block.content.payload = .ok payload)
    (hrejected : payload.rejectedDeploys = []) (h : blockToMessage env block shardId = .ok msg) :
    (∃ back, messageToBlock env hasher msg = .ok back ∧
      back.identity.creator = block.identity.creator ∧
      back.identity.contentHash = block.identity.contentHash ∧
      back.identity.signature = block.identity.signature ∧
      back.content.payload = block.content.payload ∧
      (back.content.predecessors.map BlockIdentity.consensusIdentity).Perm
        (block.content.predecessors.map BlockIdentity.consensusIdentity)) ↔
      Translatable block payload := by
  obtain ⟨found, hnodup, hsub, hcover, hback⟩ :=
    messageToBlock_eq_ok hasher hbincode hpayload h
  have hunsigned : found.map BlockIdentity.consensusIdentity = found := by
    refine (List.map_congr_left fun r hr => ?_).trans (List.map_id _)
    obtain ⟨p, -, rfl⟩ := hsub r hr
    rfl
  have hrefs := references_perm_iff hnodup hsub hcover
  have hbytes := CordialBlockPayload.toBytes_of_fromBytes hbincode hpayload
  constructor
  · rintro ⟨back, hok, -, -, -, hsame, hperm⟩
    obtain ⟨hstakes, rfl⟩ := (hback back).1 hok
    rw [hunsigned] at hperm
    have htranslated : payload.translated = payload := by
      have hread := CordialBlockPayload.fromBytes_toBytes hbincode payload.translated
      rw [show payload.translated.toBytes env.bincode = block.content.payload from hsame,
        hpayload] at hread
      exact (Except.ok.inj hread).symm
    obtain ⟨hstakes, halgorithms⟩ := (translated_eq_iff hrejected).1 ⟨hstakes, htranslated⟩
    rw [htranslated] at hsame
    exact ⟨hstakes, halgorithms, hrefs.1 hperm, hbytes.1 hsame⟩
  · intro ht
    obtain ⟨hstakes, htranslated⟩ := (translated_eq_iff hrejected).2 ⟨ht.stakes, ht.algorithms⟩
    have hsame : payload.translated.toBytes env.bincode = block.content.payload := by
      rw [htranslated]
      exact hbytes.2 ht.shortForm
    have hperm := hrefs.2 ht.hashes
    refine ⟨_, (hback _).2 ⟨hstakes, rfl⟩, rfl, ?_, rfl, hsame, by rwa [hunsigned]⟩
    rw [hhash]
    exact blockHashExt_congr hsame (by rwa [hunsigned])

/-! ### A block that comes back and one that does not -/

instance countableChar : Countable Char :=
  Function.Injective.countable (f := Char.toNat) fun _ _ h => Char.ext (UInt32.toNat_inj.1 h)

instance countableString : Countable String :=
  Function.Injective.countable (f := String.toList) fun _ _ h => String.toList_injective h

deriving instance Countable for NodeId, Bond, BlockState, Deploy, DeploySignatureAlgorithm,
  SignedDeploy, ProcessedDeploy, RejectReason, RejectedDeploy, ProcessedSystemDeploy,
  PorEquivocationAuthorization, CordialBlockPayload

section Sample

variable {α : Type}

open Classical in
/-- A serialization with the given bytes for one value. -/
noncomputable def Serde.withSample [Countable α] (a : α) (bytes : List Byte) : Serde α where
  serialize b :=
    if b = a then bytes
    else 255 :: List.replicate ((Countable.exists_injective_nat α).choose b) 0
  deserialize found :=
    if h : ∃ b : α, found = (if b = a then bytes
        else 255 :: List.replicate ((Countable.exists_injective_nat α).choose b) 0) then
      .ok h.choose
    else .error "unexpected end of file"

/-- It is lawful where the bytes are not marked as those of other values are. -/
theorem Serde.lawful_withSample [Countable α] {a : α} {bytes : List Byte}
    (h : bytes.head? ≠ some 255) : (Serde.withSample a bytes).Lawful := by
  have hinj : Function.Injective (Serde.withSample a bytes).serialize := by
    intro b c hbc
    unfold Serde.withSample at hbc
    dsimp only at hbc
    split_ifs at hbc with hb hc hc
    · rw [hb, hc]
    · rw [hbc] at h
      exact absurd rfl h
    · rw [← hbc] at h
      exact absurd rfl h
    · refine (Countable.exists_injective_nat α).choose_spec ?_
      simpa using congrArg List.length hbc
  intro found b
  constructor
  · intro hread
    unfold Serde.withSample at hread
    dsimp only at hread
    split_ifs at hread with hex
    obtain rfl := Except.ok.inj hread
    exact hex.choose_spec
  · rintro rfl
    have hex : ∃ c : α, (Serde.withSample a bytes).serialize b =
        (Serde.withSample a bytes).serialize c := ⟨b, rfl⟩
    have hread : (Serde.withSample a bytes).deserialize
        ((Serde.withSample a bytes).serialize b) = .ok hex.choose := dif_pos hex
    rw [hread, ← hinj hex.choose_spec]

end Sample

/-- A payload with one bond and no deploys. -/
def stakePayload (stake : ℕ) : CordialBlockPayload := ⟨[], ⟨[], [], [⟨⟨[1]⟩, stake⟩], 0⟩, [], [], []⟩

/-- Its bytes: the state and three empty lists. -/
def stakeBytes (stake : ℕ) : List Byte :=
  stateBytes (stakePayload stake).state ++ Codec.leBytes 8 0 ++ Codec.leBytes 8 0 ++ Codec.leBytes 8 0

/-- `bincode` with these bytes for this payload. -/
noncomputable def stakeEnv (stake : ℕ) : TranslationEnv where
  bincode :=
    { legacy := .withSample ((stakePayload stake).state, [], [], []) (stakeBytes stake)
      payload := .withSample (stakePayload stake) (Codec.leBytes 8 0 ++ stakeBytes stake)
      authorizations := .withSample [] (Codec.leBytes 8 0) }
  utf8Error _ := "invalid utf-8 sequence"

/-- A block with that payload on one reference. -/
def stakeBlock (stake : ℕ) : Block :=
  let content : BlockContent := ⟨stakeBytes stake, [⟨7, ⟨[2]⟩, [9]⟩]⟩
  ⟨⟨blockHashExt sumHasher ⟨[1]⟩ content, ⟨[1]⟩, [8]⟩, content⟩

theorem hashed_stakeBlock (stake : ℕ) : (stakeBlock stake).identity.contentHash =
    blockHashExt sumHasher (stakeBlock stake).identity.creator (stakeBlock stake).content := rfl

theorem head_stakeBytes (stake : ℕ) : (stakeBytes stake).head? = some 0 := rfl

theorem lawful_stakeEnv (stake : ℕ) : (stakeEnv stake).bincode.Lawful where
  legacy := Serde.lawful_withSample (by rw [head_stakeBytes]; decide)
  payload := Serde.lawful_withSample (by simp [Codec.leBytes])
  authorizations := Serde.lawful_withSample (by simp [Codec.leBytes])
  unmarked body := by
    rintro ⟨rest, hrest⟩
    have hhead := congrArg List.head? hrest
    have hmarker : (CordialBlockPayload.payloadV2 ++ rest).head? = some 99 := rfl
    rw [hmarker] at hhead
    unfold stakeEnv Serde.withSample at hhead
    dsimp only at hhead
    split_ifs at hhead
    · rw [head_stakeBytes] at hhead
      exact absurd hhead (by decide)
    · exact absurd hhead (by simp)

theorem fromBytes_stakeBlock (stake : ℕ) :
    CordialBlockPayload.fromBytes (stakeEnv stake).bincode (stakeBlock stake).content.payload =
      .ok (stakePayload stake) := by
  have hbytes : (stakeBlock stake).content.payload =
      (stakePayload stake).toBytes (stakeEnv stake).bincode := by
    unfold CordialBlockPayload.toBytes stakeEnv Serde.withSample
    exact (if_pos rfl).symm
  rw [hbytes]
  exact CordialBlockPayload.fromBytes_toBytes (lawful_stakeEnv stake) _

theorem exists_message_stakeBlock (stake : ℕ) :
    ∃ msg, blockToMessage (stakeEnv stake) (stakeBlock stake) "root" = .ok msg := by
  unfold blockToMessage
  rw [fromBytes_stakeBlock]
  exact ⟨_, rfl⟩

/-- A block with a stake of `1` comes back. -/
theorem message_to_block_stake_one :
    ∃ msg back, blockToMessage (stakeEnv 1) (stakeBlock 1) "root" = .ok msg ∧
      messageToBlock (stakeEnv 1) sumHasher msg = .ok back ∧
      back.identity = (stakeBlock 1).identity ∧
      back.content.payload = (stakeBlock 1).content.payload := by
  obtain ⟨msg, hmsg⟩ := exists_message_stakeBlock 1
  have htranslatable : Translatable (stakeBlock 1) (stakePayload 1) :=
    ⟨by decide, by simp [stakePayload], by decide, by decide +kernel⟩
  obtain ⟨back, hback, hcreator, hhash, hsig, hpayload, -⟩ := (message_to_block_iff
    (lawful_stakeEnv 1) (hashed_stakeBlock 1) (fromBytes_stakeBlock 1) rfl hmsg).2 htranslatable
  refine ⟨msg, back, hmsg, hback, ?_, hpayload⟩
  obtain ⟨⟨hash, creator, signature⟩, content⟩ := back
  simp only at hcreator hhash hsig ⊢
  rw [hcreator, hhash, hsig]

/-- **A stake of `2^63` does not come back.** -/
theorem message_to_block_fails :
    ¬ ∀ (env : TranslationEnv) (hasher : List Byte → ContentHash) (block : Block)
      (shardId : String) (payload : CordialBlockPayload) (msg : Wire.BlockMessage),
      env.bincode.Lawful →
      block.identity.contentHash = blockHashExt hasher block.identity.creator block.content →
      CordialBlockPayload.fromBytes env.bincode block.content.payload = .ok payload →
      payload.rejectedDeploys = [] → blockToMessage env block shardId = .ok msg →
      ∃ back, messageToBlock env hasher msg = .ok back ∧
        back.identity.creator = block.identity.creator ∧
        back.identity.contentHash = block.identity.contentHash ∧
        back.identity.signature = block.identity.signature ∧
        back.content.payload = block.content.payload ∧
        (back.content.predecessors.map BlockIdentity.consensusIdentity).Perm
          (block.content.predecessors.map BlockIdentity.consensusIdentity) := by
  intro h
  obtain ⟨msg, hmsg⟩ := exists_message_stakeBlock (2 ^ 63)
  obtain ⟨back, hback, -⟩ := h (stakeEnv (2 ^ 63)) sumHasher (stakeBlock (2 ^ 63)) "root"
    (stakePayload (2 ^ 63)) msg (lawful_stakeEnv _) (hashed_stakeBlock _)
    (fromBytes_stakeBlock _) rfl hmsg
  obtain ⟨_, -, -, -, hiff⟩ := messageToBlock_eq_ok sumHasher (lawful_stakeEnv (2 ^ 63))
    (fromBytes_stakeBlock _) hmsg
  have hnonneg := ((hiff back).1 hback).1 ⟨⟨[1]⟩, 2 ^ 63⟩ (by simp [stakePayload])
  exact absurd hnonneg (by decide +kernel)

end CordialMiners
