/-
# The Casper adapter

`CordialCasperAdapter` of `casper_adapter.rs`: what it does with a block of the host
node.

`validate` translates a message and runs the configured checks; a block with absent
references is answered `MissingBlocks`, "block is buffered awaiting them".
`handle_valid_block` stores a block and retries the buffer.  No method writes to the
buffer, so it stays empty, and a block that comes before its references is lost.

The blocks that are driven are all kept exactly where none comes before its references
and, under the cordial check, each is cordial when it comes
(`keeps_waiting_blocks_iff`).  What is in the blocklace has passed the checks and is in
the repository.

The locks are left out: one call follows the other.  The repository writes or keeps what
it has; LMDB does not fail here.
-/

import CordialMiners.Core.PartOf
import CordialMiners.Node.BlockStore
import CordialMiners.Node.Translation
import CordialMiners.Output.Views

namespace CordialMiners.Casper

open Blocklace (PartOf)
open FinGraph
open Output (latestFinalizedBlockId)
open Persistence (RSpaceBlocklaceRepository bincodeIdentity replay Sized)

/-! ### The adapter -/

/-- `InvalidBlock` of the adapter. -/
inductive InvalidBlock where
  | invalidBlockHash
  | invalidSignature
  | invalidSender
  | invalidParents
  | admissibleEquivocation
  | notOfInterest
  | invalidFormat
  | hiddenEquivocation
deriving DecidableEq, Repr

/-- Why a block is not stored. -/
inductive BlockError where
  | processed
  | missingBlocks
  | invalid (block : InvalidBlock)
  | blockException (message : String)
deriving DecidableEq, Repr

/-- The verdict on a valid block. -/
inductive ValidBlock where
  | valid
deriving DecidableEq, Repr

/-- `CasperError`; `insert` is the state error with the text `insert: …`. -/
inductive CasperError where
  | translation (error : TranslationError)
  | insert (error : InsertError)
deriving DecidableEq, Repr

/-- What the adapter uses of other code: the translation's, the hash and the signature
schemes. -/
structure CasperEnv extends TranslationEnv where
  hasher : List Byte → ContentHash
  verify : ContentHash → List Byte → List Byte → Bool

namespace CasperEnv

def crypto (env : CasperEnv) : BlockCrypto := hasherCrypto env.hasher env.verify

def translate (env : CasperEnv) (msg : Wire.BlockMessage) : Except TranslationError Block :=
  messageToBlock env.toTranslationEnv env.hasher msg

end CasperEnv

/-- `CordialCasperAdapter`, with the fields that its blocks go through. -/
structure CordialCasperAdapter where
  blocklace : Blocklace
  /-- Pending blocks awaiting predecessor arrival, keyed by block hash. -/
  buffer : AList fun _ : Wire.ByteString => Wire.BlockMessage
  verifier : CryptoVerifier
  bonds : Bonds
  validationConfig : ValidationConfig
  repository : Option RSpaceBlocklaceRepository

/-- `map_core_error`. -/
def mapCoreError : CordialMiners.InvalidBlock → InvalidBlock
  | .invalidContentHash _ _ => .invalidBlockHash
  | .invalidSignature => .invalidSignature
  | .unknownSender _ => .invalidSender
  | .missingPredecessors _ => .invalidParents
  | .identityCollision _ => .invalidParents
  | .equivocation _ => .admissibleEquivocation
  | .notCordial _ => .notOfInterest
  | .hiddenEquivocation _ _ _ => .hiddenEquivocation

/-- The answer for the errors of a block: absent references, or else the first error. -/
def answer (errors : List CordialMiners.InvalidBlock) (h : errors ≠ []) : BlockError :=
  if errors.any fun | .missingPredecessors _ => true | _ => false then .missingBlocks
  else .invalid (mapCoreError (errors.head h))

namespace CordialCasperAdapter

/-- `new_with_verifier`: the cordial check is off. -/
def newWithVerifier (bonds : Bonds) (verifier : CryptoVerifier) (token : ℕ) :
    CordialCasperAdapter where
  blocklace := .new token
  buffer := ∅
  verifier := verifier
  bonds := bonds
  validationConfig := { ValidationConfig.default with checkCordial := false }
  repository := none

def withRepository (adapter : CordialCasperAdapter) (repo : RSpaceBlocklaceRepository) :
    CordialCasperAdapter := { adapter with repository := some repo }

def withValidationConfig (adapter : CordialCasperAdapter) (config : ValidationConfig) :
    CordialCasperAdapter := { adapter with validationConfig := config }

/-- `persist_block`. -/
def persistBlock (adapter : CordialCasperAdapter) (block : Block) : CordialCasperAdapter :=
  { adapter with repository := adapter.repository.map fun repo => repo.putBlock block }

/-- `persist_finalized_cursor`. -/
def persistFinalizedCursor (adapter : CordialCasperAdapter) (id : BlockIdentity) :
    CordialCasperAdapter :=
  { adapter with repository := adapter.repository.map fun repo => { repo with cursor := some id } }

/-- `dag_contains`. -/
def dagContains (adapter : CordialCasperAdapter) (hash : Wire.ByteString) : Bool :=
  adapter.blocklace.dom.any fun id => contentHashBytes id.contentHash = hash

/-- `get_all_from_buffer`. -/
def getAllFromBuffer (adapter : CordialCasperAdapter) : List Wire.BlockMessage :=
  adapter.buffer.entries.map Sigma.snd

/-- `validate_translated_block`. -/
def validateTranslatedBlock (env : CasperEnv) (adapter : CordialCasperAdapter) (block : Block)
    (config : ValidationConfig) : ValidationResult :=
  adapter.blocklace.validateBlock env.crypto block adapter.bonds config

/-- `validate`. -/
def validate (env : CasperEnv) (adapter : CordialCasperAdapter) (msg : Wire.BlockMessage) :
    BlockError ⊕ ValidBlock :=
  match env.translate msg with
  | .error _ => .inl (.invalid .invalidFormat)
  | .ok block =>
      match h : adapter.validateTranslatedBlock env block adapter.validationConfig with
      | .valid => .inr .valid
      | .invalid errors => .inl (answer errors (Blocklace.errors_ne_nil h))

/-- `handle_valid_core_block`: the block is persisted before it is inserted. -/
def handleValidCoreBlock (adapter : CordialCasperAdapter) (block : Block) :
    Except CasperError Unit × CordialCasperAdapter :=
  let adapter := adapter.persistBlock block
  let inserted :=
    if (adapter.blocklace.content block.identity).isNone then
      adapter.blocklace.insert block adapter.verifier
    else .ok adapter.blocklace
  match inserted with
  | .error error => (.error (.insert error), adapter)
  | .ok lace =>
      let adapter := { adapter with blocklace := lace }
      match latestFinalizedBlockId lace adapter.bonds with
      | none => (.ok (), adapter)
      | some finalizedId => (.ok (), adapter.persistFinalizedCursor finalizedId)

/-- One pending block of the drain, with the hashes of those promoted so far. -/
def retryPending (env : CasperEnv) (verifier : CryptoVerifier)
    (state : List Wire.ByteString × Blocklace) (pending : Wire.BlockMessage) :
    List Wire.ByteString × Blocklace :=
  match env.translate pending with
  | .error _ => state
  | .ok translated =>
      match state.2.insert translated verifier with
      | .error _ => state
      | .ok lace => (state.1 ++ [pending.blockHash], lace)

/-- `handle_valid_block`: the drain inserts what it can, in the order of the buffer. -/
def handleValidBlock (env : CasperEnv) (adapter : CordialCasperAdapter)
    (msg : Wire.BlockMessage) : Except CasperError Unit × CordialCasperAdapter :=
  match env.translate msg with
  | .error error => (.error (.translation error), adapter)
  | .ok block =>
      match adapter.handleValidCoreBlock block with
      | (.error error, adapter) => (.error error, adapter)
      | (.ok (), adapter) =>
          let buffer := adapter.buffer.erase msg.blockHash
          let toRetry := buffer.entries.map Sigma.snd
          let (promoted, lace) :=
            toRetry.foldl (retryPending env adapter.verifier) ([], adapter.blocklace)
          (.ok (), { adapter with
            blocklace := lace
            buffer := promoted.foldl (fun buffer hash => buffer.erase hash) buffer })

/-- A block is driven through the adapter: validated, and handled when it is valid. -/
def drive (env : CasperEnv) (adapter : CordialCasperAdapter) (msg : Wire.BlockMessage) :
    CordialCasperAdapter :=
  match adapter.validate env msg with
  | .inr .valid => (adapter.handleValidBlock env msg).2
  | .inl _ => adapter

/-- The blocks of a list are driven one after the other. -/
def driveAll (env : CasperEnv) (adapter : CordialCasperAdapter) (order : List Wire.BlockMessage) :
    CordialCasperAdapter :=
  order.foldl (drive env) adapter

variable {env : CasperEnv} {adapter adapter' : CordialCasperAdapter} {msg : Wire.BlockMessage}
  {block b c : Block} {S : Set Block} {B B' : Blocklace} {crypto : BlockCrypto} {bonds : Bonds}
  {config : ValidationConfig}

/-! ### One block -/

/-- The block refers to the tips the blocklace knows and hides no equivocation. -/
def Acknowledges (bonds : Bonds) (B : Blocklace) (block : Block) : Prop :=
  Blocklace.missingKnownTips block (B.collectValidatorTips bonds) = [] ∧
    B.hiddenEquivocations block = []

/-- **When a block of chains is valid**, whatever part of `S` is stored. -/
theorem validateBlock_eq_valid_iff (hdistinct : DistinctBlocks S) (hchain : ∀ v, ChainIn S v)
    (h : PartOf S B) (hb : b ∈ S) (hin : b.InOrder crypto bonds) :
    B.validateBlock crypto b bonds config = .valid ↔
      (config.checkClosure = true → Available Block.refs B.Resolves b) ∧
      (config.checkCordial = true → Available Block.refs B.Resolves b →
        Acknowledges bonds B b) := by
  have hcomparable : Available Block.refs B.Resolves b → ∀ a ∈ B.blocks,
      a.creator = b.identity.creator → a ≠ b.identity → B.Comparable b a := by
    intro hav a ha hcreator hne
    obtain ⟨c, rfl, hc⟩ := Blocklace.exists_stores ha
    refine (h.comparable_iff hdistinct hb hav hc).2 ?_
    exact hchain b.identity.creator c (h.mem c hc) b hb hcreator rfl fun heq => hne (heq ▸ rfl)
  rw [Blocklace.validateBlock_eq_valid_iff]
  constructor
  · rintro ⟨-, -, -, hclosure, -, -, hcordial⟩
    exact ⟨hclosure, hcordial⟩
  · rintro ⟨hclosure, hcordial⟩
    exact ⟨fun _ => hin.hash, fun _ => hin.signature, fun _ => hin.sender, hclosure,
      h.noVariant hdistinct hb, fun _ => hcomparable, hcordial⟩

theorem validate_eq_valid_iff (htranslate : env.translate msg = .ok block) :
    adapter.validate env msg = .inr .valid ↔
      adapter.blocklace.validateBlock env.crypto block adapter.bonds adapter.validationConfig =
        .valid := by
  unfold validate
  rw [htranslate]
  dsimp only
  split
  · next h => exact iff_of_true rfl h
  · next errors h =>
    refine iff_of_false (by simp) fun hvalid => ?_
    exact absurd (h.symm.trans hvalid) (by simp)

/-- The block is in the repository of the adapter. -/
def Given (adapter : CordialCasperAdapter) (block : Block) : Prop :=
  ∃ repo, adapter.repository = some repo ∧
    repo.blocksDb.lookup (repo.identityKey block.identity) = some block

/-- Blocks that no repository keeps under one key. -/
structure KeyedApart (b c : Block) : Prop where
  sized : Sized b.identity ∧ Sized c.identity
  ne : b.identity ≠ c.identity

/-- `adapter'` is `adapter` after the block has been written: the blocklace is `lace`, and
the buffer was and is empty. -/
structure Wrote (adapter : CordialCasperAdapter) (block : Block) (lace : Blocklace)
    (adapter' : CordialCasperAdapter) : Prop where
  blocklace : adapter'.blocklace = lace
  buffer : adapter'.buffer = ∅
  verifier : adapter'.verifier = adapter.verifier
  bonds : adapter'.bonds = adapter.bonds
  config : adapter'.validationConfig = adapter.validationConfig
  repository : ∃ cursor : RSpaceBlocklaceRepository → Option BlockIdentity,
    adapter'.repository = adapter.repository.map fun repo =>
      { repo.putBlock block with cursor := cursor repo }

theorem Wrote.attached (h : adapter.Wrote block B adapter')
    (hattached : adapter.repository.isSome = true) : adapter'.repository.isSome = true := by
  obtain ⟨cursor, hrepository⟩ := h.repository
  rw [hrepository, Option.isSome_map]
  exact hattached

theorem Wrote.given_self (h : adapter.Wrote block B adapter')
    (hattached : adapter.repository.isSome = true) : adapter'.Given block := by
  obtain ⟨cursor, hrepository⟩ := h.repository
  obtain ⟨repo, hrepo⟩ := Option.isSome_iff_exists.1 hattached
  rw [hrepo] at hrepository
  refine ⟨_, hrepository, ?_⟩
  simp [RSpaceBlocklaceRepository.putBlock]

theorem Wrote.given (h : adapter.Wrote block B adapter') (hc : adapter.Given c)
    (hapart : KeyedApart c block) : adapter'.Given c := by
  obtain ⟨cursor, hrepository⟩ := h.repository
  obtain ⟨repo, hrepo, hlookup⟩ := hc
  have hkey : repo.identityKey c.identity ≠ repo.identityKey block.identity := fun heq =>
    hapart.ne (repo.identityKey_inj hapart.sized.1 hapart.sized.2 heq)
  rw [hrepo] at hrepository
  refine ⟨_, hrepository, ?_⟩
  simpa [RSpaceBlocklaceRepository.putBlock, hkey] using hlookup

/-- Handling a new block writes it; it is stored where its references are. -/
theorem handleValidBlock_cases (htranslate : env.translate msg = .ok block)
    (hbuffer : adapter.buffer = ∅) (hacc : block.AcceptedBy adapter.verifier)
    (hnew : adapter.blocklace.Unused block.identity) :
    (∃ B', adapter.blocklace.insert block adapter.verifier = .ok B' ∧
      adapter.Wrote block B' (adapter.handleValidBlock env msg).2) ∨
    (¬ Available Block.refs adapter.blocklace.Resolves block ∧
      adapter.Wrote block adapter.blocklace (adapter.handleValidBlock env msg).2) := by
  have hcontent : (adapter.blocklace.content block.identity).isNone = true := by
    rw [Option.isNone_iff_eq_none, ← Option.not_isSome_iff_eq_none, Blocklace.content_isSome_iff,
      Blocklace.resolves_iff]
    rintro ⟨r, hr, hname⟩
    exact hnew r hr hname.1.symm
  unfold handleValidBlock
  rw [htranslate]
  simp only [handleValidCoreBlock, persistBlock, hcontent, if_true]
  cases hins : adapter.blocklace.insert block adapter.verifier with
  | error error =>
      refine Or.inr ⟨fun hav => ?_, rfl, hbuffer, rfl, rfl, rfl, RSpaceBlocklaceRepository.cursor,
        rfl⟩
      obtain ⟨B', hB'⟩ := Blocklace.exists_insert_ok hacc hav
        (Blocklace.conflictingIdentityVariant_eq_none_iff.2 (Or.inr hnew))
      exact absurd (hins.symm.trans hB') (by simp)
  | ok B' =>
      refine Or.inl ⟨B', rfl, ?_⟩
      have herase : (∅ : AList fun _ : Wire.ByteString => Wire.BlockMessage).erase msg.blockHash =
          ∅ := rfl
      cases hfinal : latestFinalizedBlockId B' adapter.bonds with
      | none =>
          simp only [hfinal, hbuffer, herase]
          exact ⟨rfl, rfl, rfl, rfl, rfl, RSpaceBlocklaceRepository.cursor, rfl⟩
      | some finalizedId =>
          simp only [hfinal, persistFinalizedCursor, hbuffer, herase, Option.map_map]
          exact ⟨rfl, rfl, rfl, rfl, rfl, fun _ => some finalizedId, rfl⟩

/-- The references of the block are stored and, if that is checked, it acknowledges the
blocklace. -/
def Admits (config : ValidationConfig) (bonds : Bonds) (B : Blocklace) (block : Block) : Prop :=
  Available Block.refs B.Resolves block ∧
    (config.checkCordial = true → Acknowledges bonds B block)

/-- **Driving a new block stores it or loses it.** -/
theorem drive_cases (hdistinct : DistinctBlocks S) (hchain : ∀ v, ChainIn S v)
    (h : PartOf S adapter.blocklace) (hb : b ∈ S) (htranslate : env.translate msg = .ok b)
    (hbuffer : adapter.buffer = ∅) (hin : b.InOrder env.crypto adapter.bonds)
    (hacc : b.AcceptedBy adapter.verifier) (hnew : ¬ adapter.blocklace.Stores b) :
    (adapter.validate env msg = .inr .valid ∧
      Admits adapter.validationConfig adapter.bonds adapter.blocklace b ∧
      ∃ B', adapter.blocklace.insert b adapter.verifier = .ok B' ∧
        adapter.Wrote b B' (adapter.drive env msg)) ∨
    (¬ Admits adapter.validationConfig adapter.bonds adapter.blocklace b ∧
      (adapter.drive env msg = adapter ∨
        adapter.Wrote b adapter.blocklace (adapter.drive env msg))) := by
  have hunused : adapter.blocklace.Unused b.identity := fun k hk heq =>
    hnew (h.stores_of_consensus hdistinct hb hk heq)
  have hiff : adapter.blocklace.validateBlock env.crypto b adapter.bonds adapter.validationConfig =
      .valid ↔ _ := validateBlock_eq_valid_iff hdistinct hchain h hb hin
  by_cases hvalid : adapter.validate env msg = .inr .valid
  · have hdrive : adapter.drive env msg = (adapter.handleValidBlock env msg).2 := by
      unfold drive
      rw [hvalid]
    rw [hdrive]
    obtain ⟨-, hcordial⟩ := hiff.1 ((validate_eq_valid_iff htranslate).1 hvalid)
    obtain ⟨B', hins, hwrote⟩ | ⟨hmissing, hwrote⟩ :=
      handleValidBlock_cases htranslate hbuffer hacc hunused
    · have hav := Blocklace.missingPredecessors_eq_nil_iff.1 (Blocklace.insert_ok hins).closed
      exact Or.inl ⟨hvalid, ⟨hav, fun hc => hcordial hc hav⟩, B', hins, hwrote⟩
    · exact Or.inr ⟨fun hadmits => hmissing hadmits.1, Or.inr hwrote⟩
  · refine Or.inr ⟨fun hadmits => hvalid ?_, Or.inl ?_⟩
    · exact (validate_eq_valid_iff htranslate).2
        (hiff.2 ⟨fun _ => hadmits.1, fun hc _ => hadmits.2 hc⟩)
    · unfold drive
      cases hanswer : adapter.validate env msg with
      | inl error => rfl
      | inr answer => exact absurd hanswer hvalid

/-! ### All blocks -/

/-- The blocklace after the inserts of a list. -/
def laceOf (verifier : CryptoVerifier) (token : ℕ) (blocks : List Block) : Blocklace :=
  blocks.foldl (replay verifier) (.new token)

/-- A block comes after its references and, if that is checked, acknowledges what came
before it. -/
def ComesInTime (config : ValidationConfig) (bonds : Bonds) (verifier : CryptoVerifier)
    (token : ℕ) (front : List Block) (block : Block) : Prop :=
  (∀ p ∈ block.refs, ∃ c ∈ front, c.NamedBy p) ∧
    (config.checkCordial = true → Acknowledges bonds (laceOf verifier token front) block)

/-- Every block of the list comes in time. -/
def InTime (config : ValidationConfig) (bonds : Bonds) (verifier : CryptoVerifier) (token : ℕ)
    (blocks : List Block) : Prop :=
  ∀ front block, front ++ [block] <+: blocks → ComesInTime config bonds verifier token front block

/-- The checks passed the block when it was driven. -/
def Passed (env : CasperEnv) (start : CordialCasperAdapter) (order : List Wire.BlockMessage)
    (block : Block) : Prop :=
  ∃ front msg, front ++ [msg] <+: order ∧ env.translate msg = .ok block ∧
    (start.driveAll env front).validate env msg = .inr .valid

variable {start : CordialCasperAdapter} {order front rear : List Wire.BlockMessage}
  {blocks before after : List Block} {verifier : CryptoVerifier} {token : ℕ}

theorem driveAll_concat :
    start.driveAll env (order ++ [msg]) = (start.driveAll env order).drive env msg := by
  unfold driveAll
  rw [List.foldl_append]
  rfl

theorem Passed.concat (h : Passed env start order block) :
    Passed env start (order ++ [msg]) block := by
  obtain ⟨front, msg', hpre, htranslate, hvalid⟩ := h
  exact ⟨front, msg', hpre.trans (List.prefix_append _ _), htranslate, hvalid⟩

theorem inTime_nil : InTime config bonds verifier token [] := fun front block h =>
  absurd (List.prefix_nil.1 h) (by simp)

theorem inTime_concat :
    InTime config bonds verifier token (before ++ [b]) ↔
      InTime config bonds verifier token before ∧
        ComesInTime config bonds verifier token before b := by
  unfold InTime
  constructor
  · exact fun h => ⟨fun front block hpre => h front block
      (hpre.trans (List.prefix_append _ _)), h before b List.prefix_rfl⟩
  · rintro ⟨hbefore, hb⟩ front block hpre
    obtain heq | hpre := List.prefix_concat_iff.1 hpre
    · obtain ⟨rfl, hblock⟩ := List.append_inj' heq rfl
      obtain rfl := List.singleton_inj.1 hblock
      exact hb
    · exact hbefore front block hpre

/-- What holds after the messages `order` of the blocks `blocks` have been driven. -/
structure Driven (env : CasperEnv) (start : CordialCasperAdapter) (token : ℕ) (S : Set Block)
    (order : List Wire.BlockMessage) (blocks : List Block) : Prop where
  verifier : (start.driveAll env order).verifier = start.verifier
  bonds : (start.driveAll env order).bonds = start.bonds
  config : (start.driveAll env order).validationConfig = start.validationConfig
  buffer : (start.driveAll env order).buffer = ∅
  attached : (start.driveAll env order).repository.isSome = true
  lace : PartOf S (start.driveAll env order).blocklace
  stored : ∀ b, (start.driveAll env order).blocklace.Stores b →
    b ∈ blocks ∧ Passed env start order b ∧ (start.driveAll env order).Given b
  kept : (∀ b ∈ blocks, (start.driveAll env order).blocklace.Stores b) ↔
    InTime start.validationConfig start.bonds start.verifier token blocks
  replayed : (∀ b ∈ blocks, (start.driveAll env order).blocklace.Stores b) →
    (start.driveAll env order).blocklace = laceOf start.verifier token blocks

/-- In a blocklace of the blocks before it, a block is admitted where it comes in time. -/
theorem Driven.admits_iff (h : Driven env start token S order blocks)
    (hall : ∀ c ∈ blocks, (start.driveAll env order).blocklace.Stores c) :
    Admits start.validationConfig start.bonds (start.driveAll env order).blocklace b ↔
      ComesInTime start.validationConfig start.bonds start.verifier token blocks b := by
  have hresolves : ∀ p, (start.driveAll env order).blocklace.Resolves p ↔
      ∃ c ∈ blocks, c.NamedBy p := by
    intro p
    rw [Blocklace.resolves_iff]
    constructor
    · rintro ⟨r, hr, hname⟩
      obtain ⟨c, rfl, hc⟩ := Blocklace.exists_stores hr
      exact ⟨c, (h.stored c hc).1, hname⟩
    · rintro ⟨c, hc, hname⟩
      exact ⟨c.identity, (hall c hc).mem, hname⟩
  unfold Admits ComesInTime
  rw [← h.replayed hall]
  exact and_congr_left fun _ => forall₂_congr fun p _ => hresolves p

/-- A message whose block is stored. -/
theorem Driven.insert (hdistinct : DistinctBlocks S) (h : Driven env start token S order blocks)
    (hb : b ∈ S) (htranslate : env.translate msg = .ok b)
    (hapart : ∀ c ∈ blocks, KeyedApart c b) {B' : Blocklace}
    (hvalid : (start.driveAll env order).validate env msg = .inr .valid)
    (hadmits : Admits start.validationConfig start.bonds (start.driveAll env order).blocklace b)
    (hins : (start.driveAll env order).blocklace.insert b start.verifier = .ok B')
    (hwrote : (start.driveAll env order).Wrote b B' (start.driveAll env (order ++ [msg]))) :
    Driven env start token S (order ++ [msg]) (blocks ++ [b]) := by
  have hnew : b ∉ blocks := fun hmem => (hapart b hmem).ne rfl
  have hstores := fun c => @PartOf.stores_inserted_iff S _ B' b c hdistinct h.lace hb
    (Blocklace.insert_ok hins)
  have hlace := hwrote.blocklace
  have hall : (∀ c ∈ blocks ++ [b], B'.Stores c) ↔
      ∀ c ∈ blocks, (start.driveAll env order).blocklace.Stores c := by
    constructor
    · intro hall c hc
      obtain hst | rfl := (hstores c).1 (hall c (List.mem_append_left _ hc))
      · exact hst
      · exact absurd hc hnew
    · intro hall c hc
      obtain hc | hc := List.mem_append.1 hc
      · exact (hstores c).2 (Or.inl (hall c hc))
      · exact (hstores c).2 (Or.inr (List.mem_singleton.1 hc))
  refine ⟨hwrote.verifier.trans h.verifier, hwrote.bonds.trans h.bonds,
    hwrote.config.trans h.config, hwrote.buffer, hwrote.attached h.attached, ?_, fun c hc => ?_,
    ?_, fun hstored => ?_⟩
  · rw [hlace]
    exact h.lace.inserted hdistinct hb (Blocklace.insert_ok hins)
  · rw [hlace] at hc
    obtain hc | rfl := (hstores c).1 hc
    · obtain ⟨hmem, hpassed, hgiven⟩ := h.stored c hc
      exact ⟨List.mem_append_left _ hmem, hpassed.concat, hwrote.given hgiven (hapart c hmem)⟩
    · exact ⟨by simp, ⟨order, msg, List.prefix_rfl, htranslate, hvalid⟩,
        hwrote.given_self h.attached⟩
  · rw [hlace, hall, inTime_concat, ← h.kept]
    exact ⟨fun hstored => ⟨hstored, (h.admits_iff hstored).1 hadmits⟩, And.left⟩
  · rw [hlace] at hstored ⊢
    have hbefore := h.replayed (hall.1 hstored)
    unfold laceOf
    rw [List.foldl_append, List.foldl_cons, List.foldl_nil]
    show B' = replay start.verifier (laceOf start.verifier token blocks) b
    rw [← hbefore, replay, hins]

/-- A message whose block is lost. -/
theorem Driven.lose (h : Driven env start token S order blocks)
    (hapart : ∀ c ∈ blocks, KeyedApart c b)
    (hlost : ¬ (start.driveAll env order).blocklace.Stores b)
    (hnot : ¬ Admits start.validationConfig start.bonds (start.driveAll env order).blocklace b)
    (hsame : start.driveAll env (order ++ [msg]) = start.driveAll env order ∨
      (start.driveAll env order).Wrote b (start.driveAll env order).blocklace
        (start.driveAll env (order ++ [msg]))) :
    Driven env start token S (order ++ [msg]) (blocks ++ [b]) := by
  have hlace : (start.driveAll env (order ++ [msg])).blocklace =
      (start.driveAll env order).blocklace := by
    obtain heq | hwrote := hsame
    · rw [heq]
    · exact hwrote.blocklace
  have hnone : ¬ ∀ c ∈ blocks ++ [b], (start.driveAll env (order ++ [msg])).blocklace.Stores c := by
    intro hall
    have hst := hall b (by simp)
    rw [hlace] at hst
    exact hlost hst
  have hlate : ¬ InTime start.validationConfig start.bonds start.verifier token (blocks ++ [b]) := by
    intro hin
    obtain ⟨hbefore, hb⟩ := inTime_concat.1 hin
    exact hnot ((h.admits_iff (h.kept.2 hbefore)).2 hb)
  have hgiven : ∀ c ∈ blocks, (start.driveAll env order).Given c →
      (start.driveAll env (order ++ [msg])).Given c := by
    intro c hc hgiven
    obtain heq | hwrote := hsame
    · exact heq ▸ hgiven
    · exact hwrote.given hgiven (hapart c hc)
  have hstored : ∀ c, (start.driveAll env (order ++ [msg])).blocklace.Stores c →
      c ∈ blocks ++ [b] ∧ Passed env start (order ++ [msg]) c ∧
        (start.driveAll env (order ++ [msg])).Given c := by
    intro c hc
    rw [hlace] at hc
    obtain ⟨hmem, hpassed, hc⟩ := h.stored c hc
    exact ⟨List.mem_append_left _ hmem, hpassed.concat, hgiven c hmem hc⟩
  have hpart : PartOf S (start.driveAll env (order ++ [msg])).blocklace := hlace ▸ h.lace
  obtain heq | hwrote := hsame
  · exact ⟨heq ▸ h.verifier, heq ▸ h.bonds, heq ▸ h.config, heq ▸ h.buffer, heq ▸ h.attached,
      hpart, hstored, iff_of_false hnone hlate, fun hall => absurd hall hnone⟩
  · refine ⟨hwrote.verifier.trans h.verifier, hwrote.bonds.trans h.bonds,
      hwrote.config.trans h.config, hwrote.buffer, hwrote.attached h.attached, hpart, hstored,
      iff_of_false hnone hlate, fun hall => absurd hall hnone⟩

/-- **One more block.** -/
theorem Driven.step (hdistinct : DistinctBlocks S) (hchain : ∀ v, ChainIn S v)
    (h : Driven env start token S order blocks) (hb : b ∈ S) (htranslate : env.translate msg = .ok b)
    (hin : b.InOrder env.crypto start.bonds) (hacc : b.AcceptedBy start.verifier)
    (hapart : ∀ c ∈ blocks, KeyedApart c b) :
    Driven env start token S (order ++ [msg]) (blocks ++ [b]) := by
  have hlost : ¬ (start.driveAll env order).blocklace.Stores b := fun hst =>
    (hapart b (h.stored b hst).1).ne rfl
  have hcases := drive_cases hdistinct hchain h.lace hb htranslate h.buffer (h.bonds ▸ hin)
    (h.verifier ▸ hacc) hlost
  rw [h.config, h.bonds, h.verifier, ← driveAll_concat] at hcases
  obtain ⟨hvalid, hadmits, B', hins, hwrote⟩ | ⟨hnot, hsame⟩ := hcases
  · exact h.insert hdistinct hb htranslate hapart hvalid hadmits hins hwrote
  · exact h.lose hapart hlost hnot hsame

/-- **All of the blocks.** -/
theorem Driven.run (hdistinct : DistinctBlocks S) (hchain : ∀ v, ChainIn S v)
    (h : Driven env start token S front before)
    (htranslate : List.Forall₂ (fun msg b => env.translate msg = .ok b) rear after)
    (hS : ∀ b ∈ after, b ∈ S ∧ b.InOrder env.crypto start.bonds ∧ b.AcceptedBy start.verifier)
    (hapart : (before ++ after).Pairwise KeyedApart) :
    Driven env start token S (front ++ rear) (before ++ after) := by
  induction htranslate generalizing front before with
  | nil => simpa using h
  | @cons msg b rear after hmsg _ ih =>
      obtain ⟨hb, hin, hacc⟩ := hS b List.mem_cons_self
      have hstep := h.step hdistinct hchain hb hmsg hin hacc fun c hc =>
        (List.pairwise_append.1 hapart).2.2 c hc b List.mem_cons_self
      rw [List.append_cons before] at hapart ⊢
      rw [List.append_cons front]
      exact ih hstep (fun c hc => hS c (List.mem_cons_of_mem _ hc)) hapart

theorem driven_nil (hattached : start.repository.isSome = true) (hbuffer : start.buffer = ∅)
    (hlace : start.blocklace = .new token) : Driven env start token S [] [] where
  verifier := rfl
  bonds := rfl
  config := rfl
  buffer := hbuffer
  attached := hattached
  lace := by
    show PartOf S start.blocklace
    exact hlace ▸ Blocklace.partOf_new S token
  stored b hb := by
    have hst : start.blocklace.Stores b := hb
    rw [hlace] at hst
    exact absurd hst BlockMap.mem_toSet_empty
  kept := iff_of_true (fun _ h => absurd h List.not_mem_nil) inTime_nil
  replayed _ := hlace

/-- Blocks with different hashes: the DAG contains the hash of one where it is stored. -/
theorem dagContains_iff (hhashes : (blocks.map fun b => b.identity.contentHash).Nodup)
    (hstored : ∀ b, adapter.blocklace.Stores b → b ∈ blocks) (hb : b ∈ blocks) :
    adapter.dagContains (contentHashBytes b.identity.contentHash) = true ↔
      adapter.blocklace.Stores b := by
  unfold dagContains
  simp only [List.any_eq_true, decide_eq_true_eq]
  constructor
  · rintro ⟨id, hid, hhash⟩
    obtain ⟨c, rfl, hc⟩ := Blocklace.exists_stores (AList.mem_keys.1 hid)
    exact List.inj_on_of_nodup_map hhashes (hstored c hc) hb (contentHashBytes_injective hhash) ▸ hc
  · exact fun hst => ⟨b.identity, AList.mem_keys.2 hst.mem, rfl⟩

/-- **The driven blocks are all kept exactly where they come in time.**  The hashes are
different and the blocks of each validator a chain; the messages are driven once. -/
theorem keeps_waiting_blocks_iff {repo : RSpaceBlocklaceRepository}
    (htranslate : List.Forall₂ (fun msg b => env.translate msg = .ok b) order blocks)
    (hin : ∀ b ∈ blocks, b.InOrder env.crypto bonds) (hacc : ∀ b ∈ blocks, b.AcceptedBy verifier)
    (hsized : ∀ b ∈ blocks, Sized b.identity)
    (hhashes : (blocks.map fun b => b.identity.contentHash).Nodup)
    (hchain : ∀ v, ChainIn {b | b ∈ blocks} v)
    (hstart : start = ((newWithVerifier bonds verifier token).withRepository
      repo).withValidationConfig config) :
    ((∀ b ∈ blocks, (start.driveAll env order).dagContains
          (contentHashBytes b.identity.contentHash) = true) ∧
        (start.driveAll env order).getAllFromBuffer = [] ∧
        ∀ b, (start.driveAll env order).blocklace.Stores b →
          Passed env start order b ∧ (start.driveAll env order).Given b) ↔
      InTime config bonds verifier token blocks := by
  have hdistinct : DistinctBlocks {b | b ∈ blocks} := fun a ha b hb hcons =>
    List.inj_on_of_nodup_map hhashes ha hb (BlockIdentity.consensusIdentity_eq_iff.1 hcons).1
  have hapart : ([] ++ blocks).Pairwise KeyedApart :=
    (List.pairwise_map.1 hhashes).imp_of_mem fun ha hb hne =>
      ⟨⟨hsized _ ha, hsized _ hb⟩, fun heq => hne (congrArg BlockIdentity.contentHash heq)⟩
  have hnil : Driven env start token {b | b ∈ blocks} [] [] := by
    subst hstart
    exact driven_nil rfl rfl rfl
  have hallowed : ∀ b ∈ blocks, b ∈ {b | b ∈ blocks} ∧ b.InOrder env.crypto start.bonds ∧
      b.AcceptedBy start.verifier := by
    subst hstart
    exact fun b hb => ⟨hb, hin b hb, hacc b hb⟩
  have hdriven : Driven env start token {b | b ∈ blocks} order blocks :=
    hnil.run hdistinct hchain htranslate hallowed hapart
  have hkept : (∀ b ∈ blocks, (start.driveAll env order).blocklace.Stores b) ↔
      InTime config bonds verifier token blocks := by
    subst hstart
    exact hdriven.kept
  have hcontains : (∀ b ∈ blocks, (start.driveAll env order).dagContains
      (contentHashBytes b.identity.contentHash) = true) ↔
        ∀ b ∈ blocks, (start.driveAll env order).blocklace.Stores b :=
    forall₂_congr fun b hb => dagContains_iff hhashes (fun c hc => (hdriven.stored c hc).1) hb
  rw [hcontains]
  refine Iff.trans ⟨And.left, fun hall => ⟨hall, ?_, fun b hb => (hdriven.stored b hb).2⟩⟩ hkept
  unfold getAllFromBuffer
  rw [hdriven.buffer]
  rfl

/-! ### A block that comes before its reference -/

/-- `bincode` of payloads without deploys. -/
def emptyBincode : Bincode where
  legacy :=
    { serialize := fun payload => stateBytes payload.1 ++ Codec.leBytes 8 payload.2.1.length ++
        Codec.leBytes 8 payload.2.2.1.length ++ Codec.leBytes 8 payload.2.2.2.length
      deserialize := fun _ => .error "unexpected end of file" }
  payload := ⟨fun _ => [], fun _ => .error "unexpected end of file"⟩
  authorizations := ⟨fun _ => [], fun _ => .error "unexpected end of file"⟩

/-- Every signature verifies. -/
def hostEnv : CasperEnv where
  bincode := emptyBincode
  utf8Error _ := "invalid utf-8 sequence"
  hasher := sumHasher
  verify _ _ _ := true

/-- A block of creator `1` without deploys. -/
def hostBlock (parents : List BlockIdentity) : Block :=
  let payload : CordialBlockPayload := ⟨[], ⟨[], [], [], 0⟩, [], [], []⟩
  let content : BlockContent := ⟨payload.toBytes emptyBincode, parents⟩
  ⟨⟨blockHashExt sumHasher ⟨[1]⟩ content, ⟨[1]⟩, [7]⟩, content⟩

/-- Its message. -/
def hostMessage (parents : List BlockIdentity) : Wire.BlockMessage where
  blockHash := contentHashBytes (hostBlock parents).identity.contentHash
  header := ⟨parents.map fun p => contentHashBytes p.contentHash, 0, 1, []⟩
  body := ⟨⟨[], [], [], 0⟩, [], [], [], []⟩
  justifications := parents.map fun p => ⟨p.creator.bytes, contentHashBytes p.contentHash⟩
  sender := [1]
  seqNum := 0
  sig := [7]
  sigAlgorithm := "ed25519"
  shardId := "root"
  extraBytes := []

/-- The reference to the first block, as it comes from a message. -/
def firstParent : BlockIdentity := (hostBlock []).identity.consensusIdentity

/-- The adapter of creator `1`. -/
def hostAdapter : CordialCasperAdapter :=
  ((newWithVerifier Output.loneBond (fun _ _ _ => .ok ()) 0).withRepository
    (.empty bincodeIdentity)).withValidationConfig .default

theorem translate_hostMessage :
    hostEnv.translate (hostMessage []) = .ok (hostBlock []) ∧
      hostEnv.translate (hostMessage [firstParent]) = .ok (hostBlock [firstParent]) := by
  decide +kernel

/-- The two blocks are in order, and small. -/
theorem inOrder_hostBlock : ∀ b ∈ [hostBlock [], hostBlock [firstParent]],
    b.InOrder hostEnv.crypto Output.loneBond ∧ Sized b.identity := by
  have hall : ∀ b ∈ [hostBlock [], hostBlock [firstParent]],
      b.identity.contentHash = hostEnv.crypto.blockHash b.identity.creator b.content ∧
        b.identity.creator ∈ Output.loneBond.table ∧ b.identity.creator.bytes.length < 2 ^ 64 ∧
        b.identity.signature.length < 2 ^ 64 := by decide +kernel
  intro b hb
  obtain ⟨hhash, hsender, hsized⟩ := hall b hb
  exact ⟨⟨hhash, Or.inr rfl, hsender⟩, hsized⟩

theorem chainIn_hostBlock {blocks : List Block}
    (hblocks : ∀ b ∈ blocks, b ∈ [hostBlock [], hostBlock [firstParent]]) (v : NodeId) :
    ChainIn {b | b ∈ blocks} v := by
  refine chainIn_of_refersIn fun a ha b hb _ _ hne => ?_
  exact (by decide +kernel : ∀ a ∈ [hostBlock [], hostBlock [firstParent]],
    ∀ b ∈ [hostBlock [], hostBlock [firstParent]], a ≠ b →
      (∃ p ∈ b.refs, a.NamedBy p) ∨ ∃ p ∈ a.refs, b.NamedBy p) a (hblocks a ha) b (hblocks b hb) hne

/-- In order both blocks are kept. -/
theorem keeps_waiting_blocks_in_order :
    (∀ b ∈ [hostBlock [], hostBlock [firstParent]],
      (hostAdapter.driveAll hostEnv [hostMessage [], hostMessage [firstParent]]).dagContains
        (contentHashBytes b.identity.contentHash) = true) ∧
    (hostAdapter.driveAll hostEnv [hostMessage [], hostMessage [firstParent]]).getAllFromBuffer = [] ∧
    ∀ b, (hostAdapter.driveAll hostEnv
        [hostMessage [], hostMessage [firstParent]]).blocklace.Stores b →
      Passed hostEnv hostAdapter [hostMessage [], hostMessage [firstParent]] b ∧
        (hostAdapter.driveAll hostEnv [hostMessage [], hostMessage [firstParent]]).Given b := by
  obtain ⟨hfirst, hsecond⟩ := translate_hostMessage
  have hparent : ∃ c ∈ [hostBlock []], c.NamedBy firstParent := by decide +kernel
  have hacc : ∀ b ∈ [hostBlock [], hostBlock [firstParent]],
      b.AcceptedBy hostAdapter.verifier := fun _ _ => rfl
  refine (keeps_waiting_blocks_iff (.cons hfirst (.cons hsecond .nil))
    (fun b hb => (inOrder_hostBlock b hb).1) hacc (fun b hb => (inOrder_hostBlock b hb).2)
    (by decide +kernel) (chainIn_hostBlock fun _ hb => hb) rfl).2 ?_
  show InTime .default Output.loneBond _ 0 ([] ++ [hostBlock []] ++ [hostBlock [firstParent]])
  refine inTime_concat.2 ⟨inTime_concat.2 ⟨inTime_nil, ?_, by simp [ValidationConfig.default]⟩, ?_,
    by simp [ValidationConfig.default]⟩
  · exact fun p hp => absurd hp List.not_mem_nil
  · intro p hp
    obtain rfl := List.mem_singleton.1 hp
    exact hparent

/-- **A block that comes before its reference is lost:** it is answered `MissingBlocks`, and
in the end it is neither stored nor in the buffer. -/
theorem loses_waiting_block :
    List.Forall₂ (fun msg b => hostEnv.translate msg = .ok b)
      [hostMessage [firstParent], hostMessage []] [hostBlock [firstParent], hostBlock []] ∧
    (∀ b ∈ [hostBlock [firstParent], hostBlock []], b.InOrder hostEnv.crypto Output.loneBond ∧
      b.Signed hostEnv.crypto ∧ b.AcceptedBy hostAdapter.verifier ∧
      ∀ p ∈ b.refs, ∃ c ∈ [hostBlock [firstParent], hostBlock []], c.NamedBy p) ∧
    (∀ v, ChainIn {b | b ∈ [hostBlock [firstParent], hostBlock []]} v) ∧
    hostAdapter.validate hostEnv (hostMessage [firstParent]) = .inl .missingBlocks ∧
    (hostAdapter.driveAll hostEnv [hostMessage [firstParent], hostMessage []]).dagContains
      (hostMessage [firstParent]).blockHash = false ∧
    (hostAdapter.driveAll hostEnv
      [hostMessage [firstParent], hostMessage []]).getAllFromBuffer = [] := by
  obtain ⟨hfirst, hsecond⟩ := translate_hostMessage
  have hmem : ∀ b ∈ [hostBlock [firstParent], hostBlock []],
      b ∈ [hostBlock [], hostBlock [firstParent]] := fun b hb => by
    simpa [or_comm] using hb
  have hclosed : ∀ b ∈ [hostBlock [firstParent], hostBlock []], ∀ p ∈ b.refs,
      ∃ c ∈ [hostBlock [firstParent], hostBlock []], c.NamedBy p := by decide +kernel
  exact ⟨.cons hsecond (.cons hfirst .nil),
    fun b hb => ⟨(inOrder_hostBlock b (hmem b hb)).1, rfl, rfl, hclosed b hb⟩,
    chainIn_hostBlock hmem, by decide +kernel, by decide +kernel, by decide +kernel⟩

end CordialCasperAdapter

end CordialMiners.Casper
