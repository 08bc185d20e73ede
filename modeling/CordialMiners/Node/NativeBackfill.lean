/-
# Native backfill

`ingest_with_native_backfill` of `native_live_runner.rs`, over the native part of the
ingress: before a block is ingested, the blocks it depends on are read from the store of
the host and ingested.

The walk keeps a stack of blocks to enter and blocks to apply, the hashes of the blocks
that wait to be applied, and how many blocks it has read.  It stops within a bound that
the limit gives (`ingestWithNativeBackfill_isSome`), and names a cycle where there is one
(`cycle_of_ingestWithNativeBackfill`).

The count goes up at every read.  A dependency that is not indexed yet when a block is
entered is read even if it waits on the stack already.  A block waits on the stack where a
block of the first path to it, the path that takes the first dependency in the order of the
hashes, names it before the path gets there.  So the limit may be reached though the blocks
that are needed are within it, and native backfill is complete for every limit exactly where
the graph has no such detour (`native_backfill_complete_iff`).
-/

import CordialMiners.Graph.PostOrder
import CordialMiners.Node.PersistentIngress
import CordialMiners.Node.Translation
import CordialMiners.Validation.Hash

namespace CordialMiners.Persistence

open Relation FinGraph
open Codec (bind_eq_ok bind_eq_error)

/-! ### Blocks of the host -/

/-- The errors of a store that answers. -/
inductive NativeBlockSourceError where
  | missingBlock (hash : ContentHash)
  | hashMismatch (hash : ContentHash)
deriving DecidableEq, Repr

/-- `NativeBackfillError`. -/
inductive NativeBackfillError where
  | invalidHash (field : String)
  | cycle (hash : ContentHash)
  | backfillLimit (limit : ℕ)
  | source (error : NativeBlockSourceError)
  | ingress (error : LiveIngressError)
deriving DecidableEq, Repr

/-- The blocks of the host by their hashes. -/
abbrev LocalNativeBlockSource := OrderedMap ContentHash Wire.BlockMessage

/-- `LocalNativeBlockSource::read`: the block has to declare its hash. -/
def LocalNativeBlockSource.read (source : LocalNativeBlockSource) (hash : ContentHash) :
    Except NativeBlockSourceError Wire.BlockMessage :=
  match source.lookup hash with
  | none => .error (.missingBlock hash)
  | some block =>
      if block.blockHash ≠ contentHashBytes hash then .error (.hashMismatch hash) else .ok block

/-- `hash_32`. -/
def hash32 (bytes : List Byte) (field : String) : Except NativeBackfillError ContentHash :=
  if bytes.length = 32 then .ok (contentHashOf bytes) else .error (.invalidHash field)

/-- The parents and justifications of a block, sorted and each once. -/
def nativeDependencies (block : Wire.BlockMessage) :
    Except NativeBackfillError (List ContentHash) := do
  let parents ← block.header.parentsHashList.mapM fun parent => hash32 parent "parent"
  let justifications ← block.justifications.mapM fun justification =>
    hash32 justification.latestBlockHash "justification"
  .ok ((parents ++ justifications).insertionSort (· ≤ ·)).dedup

/-! ### Ingesting a block -/

/-- The mapper of native blocks: it recomputes the wire hash and compares it with the declared
one. -/
structure NativeMapper where
  fromTrustedUnsignedGenesis : Wire.BlockMessage → Except String ValidatedF1r3nodeBlock
  fromProtobufWithParents : Wire.BlockMessage → NativeBlockIdentityIndex →
    Except String ValidatedF1r3nodeBlock
  genesis_wireHash : ∀ {block validated}, fromTrustedUnsignedGenesis block = .ok validated →
    contentHashBytes validated.wireHash = block.blockHash
  protobuf_wireHash : ∀ {block index validated},
    fromProtobufWithParents block index = .ok validated →
      contentHashBytes validated.wireHash = block.blockHash

/-- What a walk works on: the hashes of blocks, the mapper, the answers of the consensus
callback. -/
structure NativeContext where
  blockHash : NodeId → BlockContent → ContentHash
  mapper : NativeMapper
  onBlock : Block → Except String Unit

/-- The ingress beside its store. -/
structure NativeNode where
  ingress : LiveIngress
  repo : RSpaceBlocklaceRepository

/-- Whether `native_identity_for_wire_hash` finds a block. -/
def NativeNode.isIndexed (node : NativeNode) (hash : ContentHash) : Bool :=
  (node.ingress.nativeIndex.byWireHash.lookup hash).isSome

section Context

variable (ctx : NativeContext)

/-- What the mapper makes of a block; a block of height zero without a signature is the trusted
genesis. -/
def mapNative (node : NativeNode) (block : Wire.BlockMessage) :
    Except String ValidatedF1r3nodeBlock :=
  if block.body.state.blockNumber = 0 ∧ block.sig = [] then
    ctx.mapper.fromTrustedUnsignedGenesis block
  else ctx.mapper.fromProtobufWithParents block node.ingress.nativeIndex

/-- Ingest and persist a native block. -/
def NativeNode.ingest (node : NativeNode) (block : Wire.BlockMessage) :
    Except LiveIngressError MirrorUpdate × NativeNode :=
  let mapped := mapNative ctx node block
  let answer := match mapped with
    | .ok validated => ctx.onBlock validated.block
    | .error _ => .ok ()
  let (result, ingress, repo) := node.ingress.ingestNativeInner ctx.blockHash mapped answer
    (some node.repo) (block.body.state.blockNumber = 0 ∧ block.sig = [])
  (result, ⟨ingress, repo.getD node.repo⟩)

end Context

/-! ### The walk -/

/-- `Work`. -/
inductive Work where
  | enter (block : Wire.BlockMessage)
  | apply (block : Wire.BlockMessage)
deriving DecidableEq, Repr

/-- The variables of the loop. -/
structure Backfill where
  stack : List Work
  ancestry : List ContentHash
  fetched : ℕ
  applied : ℕ
  node : NativeNode

section Walk

variable (ctx : NativeContext) (source : LocalNativeBlockSource) (limit : ℕ)

/-- The loop over the dependencies: the stack and the number of reads. -/
def pushDependencies (node : NativeNode) (ancestry : List ContentHash) :
    List ContentHash → List Work → ℕ → Except NativeBackfillError (List Work × ℕ)
  | [], stack, fetched => .ok (stack, fetched)
  | dependency :: rest, stack, fetched =>
      if node.isIndexed dependency then pushDependencies node ancestry rest stack fetched
      else if dependency ∈ ancestry then .error (.cycle dependency)
      else if limit ≤ fetched then .error (.backfillLimit limit)
      else
        match source.read dependency with
        | .error error => .error (.source error)
        | .ok block => pushDependencies node ancestry rest (.enter block :: stack) (fetched + 1)

/-- `Work::Enter`, taken off the stack. -/
def Backfill.enter (w : Backfill) (block : Wire.BlockMessage) :
    Except NativeBackfillError Backfill := do
  let hash ← hash32 block.blockHash "block"
  if w.node.isIndexed hash then .ok w
  else if hash ∈ w.ancestry then .error (.cycle hash)
  else
    let dependencies ← nativeDependencies block
    let (stack, fetched) ← pushDependencies source limit w.node (hash :: w.ancestry)
      dependencies.reverse (.apply block :: w.stack) w.fetched
    .ok { w with stack, fetched, ancestry := hash :: w.ancestry }

/-- `Work::Apply`, taken off the stack; the node is there on an error too. -/
def Backfill.apply (w : Backfill) (block : Wire.BlockMessage) :
    Except (NativeBackfillError × NativeNode) Backfill :=
  match hash32 block.blockHash "block" with
  | .error error => .error (error, w.node)
  | .ok hash =>
      match w.node.ingest ctx block with
      | (.error error, node) => .error (.ingress error, node)
      | (.ok update, node) => .ok
          { w with
            node
            applied := if update.disposition = .applied then w.applied + 1 else w.applied
            ancestry := w.ancestry.filter (· ≠ hash) }

/-- One pass of the loop; an error is a return, with the node then. -/
def Backfill.step (w : Backfill) :
    Except (Except NativeBackfillError ℕ × NativeNode) Backfill :=
  match w.stack with
  | [] => .error (.ok w.applied, w.node)
  | .enter block :: stack =>
      ({ w with stack }.enter source limit block).mapError fun error => (.error error, w.node)
  | .apply block :: stack =>
      ({ w with stack }.apply ctx block).mapError fun (error, node) => (.error error, node)

/-- Some passes of the loop. -/
def Backfill.run : ℕ → Backfill → Option (Except NativeBackfillError ℕ × NativeNode)
  | 0, _ => none
  | fuel + 1, w =>
      match w.step ctx source limit with
      | .error result => some result
      | .ok w' => run fuel w'

/-- The loop before its first pass. -/
def Backfill.start (node : NativeNode) (target : Wire.BlockMessage) : Backfill where
  stack := [.enter target]
  ancestry := []
  fetched := 0
  applied := 0
  node := node

/-- Enough passes for a limit. -/
def backfillFuel : ℕ := 3 * limit + 3

/-- `ingest_with_native_backfill`: what it returns, and the node then. -/
def ingestWithNativeBackfill (node : NativeNode) (target : Wire.BlockMessage) :
    Option (Except NativeBackfillError ℕ × NativeNode) :=
  (Backfill.start node target).run ctx source limit (backfillFuel limit)

end Walk

/-! ### What one pass does -/

section Passes

variable {ctx : NativeContext} {source : LocalNativeBlockSource} {limit : ℕ} {w w' : Backfill}
  {hash : ContentHash} {block : Wire.BlockMessage}

/-- **What the loop over the dependencies does:** read some that are not indexed and do not
wait, within the limit. -/
theorem pushDependencies_ok {node : NativeNode} {ancestry dependencies : List ContentHash}
    {stack stack' : List Work} {fetched fetched' : ℕ}
    (h : pushDependencies source limit node ancestry dependencies stack fetched =
      .ok (stack', fetched')) :
    ∃ blocks : List Wire.BlockMessage, stack' = blocks.map .enter ++ stack ∧
      fetched' = fetched + blocks.length ∧ (blocks = [] ∨ fetched' ≤ limit) ∧
      ∀ block ∈ blocks, ∃ dependency ∈ dependencies, dependency ∉ ancestry ∧
        source.read dependency = .ok block := by
  induction dependencies generalizing stack fetched with
  | nil =>
      obtain ⟨rfl, rfl⟩ := Prod.mk.inj (Except.ok.inj h)
      exact ⟨[], rfl, rfl, Or.inl rfl, by simp⟩
  | cons dependency dependencies ih =>
      unfold pushDependencies at h
      split_ifs at h with hindexed hancestry hlimit
      · obtain ⟨blocks, hstack, hfetched, hle, hread⟩ := ih h
        refine ⟨blocks, hstack, hfetched, hle, fun block hblock => ?_⟩
        obtain ⟨d, hd, hrest⟩ := hread block hblock
        exact ⟨d, List.mem_cons_of_mem _ hd, hrest⟩
      · cases hblock : source.read dependency with
        | error error => simp [hblock] at h
        | ok block =>
            rw [hblock] at h
            obtain ⟨blocks, hstack, hfetched, hle, hread⟩ := ih h
            refine ⟨blocks ++ [block], by simp [hstack], ?_, Or.inr ?_, fun other hother => ?_⟩
            · rw [hfetched, List.length_append, List.length_singleton]
              omega
            · rcases hle with rfl | hle
              · rw [hfetched, List.length_nil]
                omega
              · exact hle
            · rcases List.mem_append.1 hother with hother | hother
              · obtain ⟨d, hd, hrest⟩ := hread other hother
                exact ⟨d, List.mem_cons_of_mem _ hd, hrest⟩
              · obtain rfl := List.mem_singleton.1 hother
                exact ⟨dependency, List.mem_cons_self .., hancestry, hblock⟩

/-- A cycle that the loop names waits to be applied. -/
theorem pushDependencies_cycle {node : NativeNode} {ancestry dependencies : List ContentHash}
    {stack : List Work} {fetched : ℕ}
    (h : pushDependencies source limit node ancestry dependencies stack fetched =
      .error (.cycle hash)) : hash ∈ dependencies ∧ hash ∈ ancestry := by
  induction dependencies generalizing stack fetched with
  | nil => cases h
  | cons dependency dependencies ih =>
      unfold pushDependencies at h
      split_ifs at h with hindexed hancestry hlimit
      · exact ⟨List.mem_cons_of_mem _ (ih h).1, (ih h).2⟩
      · obtain rfl := NativeBackfillError.cycle.inj (Except.error.inj h)
        exact ⟨List.mem_cons_self .., hancestry⟩
      · simp at h
      · cases hblock : source.read dependency with
        | error error => simp [hblock] at h
        | ok block =>
            rw [hblock] at h
            exact ⟨List.mem_cons_of_mem _ (ih h).1, (ih h).2⟩

theorem hash32_eq_ok {bytes : List Byte} {field : String} :
    hash32 bytes field = .ok hash ↔ bytes = contentHashBytes hash := by
  unfold hash32
  constructor
  · intro h
    split_ifs at h with hlength
    rw [← Except.ok.inj h, contentHashBytes_contentHashOf hlength]
  · rintro rfl
    rw [if_pos (length_contentHashBytes hash), contentHashOf_contentHashBytes]

theorem read_eq_ok (h : source.read hash = .ok block) : block.blockHash = contentHashBytes hash := by
  unfold LocalNativeBlockSource.read at h
  cases hlookup : source.lookup hash with
  | none => simp [hlookup] at h
  | some found =>
      rw [hlookup] at h
      dsimp only at h
      split_ifs at h with hdeclared
      obtain rfl := Except.ok.inj h
      exact not_not.1 hdeclared

/-- **What entering a block does:** pass over an indexed one, or put it on the stack under some
of its dependencies. -/
theorem enter_ok (h : w.enter source limit block = .ok w') :
    w' = w ∨ ∃ (hash : ContentHash) (dependencies : List ContentHash)
        (blocks : List Wire.BlockMessage),
      block.blockHash = contentHashBytes hash ∧ hash ∉ w.ancestry ∧
      nativeDependencies block = .ok dependencies ∧
      (blocks = [] ∨ w.fetched + blocks.length ≤ limit) ∧
      (∀ other ∈ blocks, ∃ dependency ∈ dependencies, dependency ∉ hash :: w.ancestry ∧
        source.read dependency = .ok other) ∧
      w' = { w with
        stack := blocks.map .enter ++ .apply block :: w.stack
        fetched := w.fetched + blocks.length
        ancestry := hash :: w.ancestry } := by
  unfold Backfill.enter at h
  obtain ⟨hash, hhash, h⟩ := bind_eq_ok.1 h
  split_ifs at h with hindexed hancestry
  · exact Or.inl (Except.ok.inj h).symm
  · obtain ⟨dependencies, hdependencies, h⟩ := bind_eq_ok.1 h
    obtain ⟨⟨stack, fetched⟩, hpush, h⟩ := bind_eq_ok.1 h
    obtain ⟨blocks, rfl, rfl, hle, hread⟩ := pushDependencies_ok hpush
    refine Or.inr ⟨hash, dependencies, blocks, hash32_eq_ok.1 hhash, hancestry, hdependencies,
      hle, fun other hother => ?_, (Except.ok.inj h).symm⟩
    obtain ⟨d, hd, hrest⟩ := hread other hother
    exact ⟨d, List.mem_reverse.1 hd, hrest⟩

/-- What applying a block does. -/
theorem apply_ok (h : w.apply ctx block = .ok w') :
    ∃ (hash : ContentHash) (node : NativeNode) (applied : ℕ),
      block.blockHash = contentHashBytes hash ∧
      w' = { w with node, applied, ancestry := w.ancestry.filter (· ≠ hash) } := by
  unfold Backfill.apply at h
  cases hhash : hash32 block.blockHash "block" with
  | error error => simp [hhash] at h
  | ok hash =>
      rw [hhash] at h
      dsimp only at h
      rcases hingest : w.node.ingest ctx block with ⟨error | update, node⟩
      · simp [hingest] at h
      · rw [hingest] at h
        exact ⟨hash, node, _, hash32_eq_ok.1 hhash, (Except.ok.inj h).symm⟩

/-! ### The end of the loop -/

/-- Two for a block to enter, one for a block to apply. -/
def Work.cost : Work → ℕ
  | .enter _ => 2
  | .apply _ => 1

/-- What is left to do at most. -/
def Backfill.cost (limit : ℕ) (w : Backfill) : ℕ :=
  3 * (limit - w.fetched) + (w.stack.map Work.cost).sum

theorem sum_cost_enter (blocks : List Wire.BlockMessage) :
    ((blocks.map Work.enter).map Work.cost).sum = 2 * blocks.length := by
  induction blocks with
  | nil => rfl
  | cons block blocks ih =>
      rw [List.map_cons, List.map_cons, List.sum_cons, ih, List.length_cons]
      simp only [Work.cost]
      omega

/-- **A pass leaves less to do.** -/
theorem step_cost (h : w.step ctx source limit = .ok w') (hle : w.fetched ≤ limit) :
    w'.cost limit < w.cost limit ∧ w'.fetched ≤ limit := by
  unfold Backfill.step at h
  unfold Backfill.cost
  cases hstack : w.stack with
  | nil => simp [hstack] at h
  | cons work stack =>
      rw [hstack] at h
      cases work with
      | enter block =>
          dsimp only at h
          rw [Codec.mapError_eq_ok] at h
          rcases enter_ok h with rfl | ⟨hash, dependencies, blocks, -, -, -, hbound, -, rfl⟩
          · exact ⟨by simp [Work.cost], hle⟩
          · dsimp only at hbound ⊢
            rw [List.map_append, List.sum_append, sum_cost_enter, List.map_cons, List.sum_cons,
              List.map_cons, List.sum_cons]
            simp only [Work.cost]
            rcases hbound with rfl | hbound
            · rw [List.length_nil]
              omega
            · omega
      | apply block =>
          dsimp only at h
          rw [Codec.mapError_eq_ok] at h
          obtain ⟨hash, node, applied, -, rfl⟩ := apply_ok h
          exact ⟨by simp [Work.cost], hle⟩

/-- The loop ends. -/
theorem run_isSome (fuel : ℕ) (hle : w.fetched ≤ limit) (hfuel : w.cost limit < fuel) :
    (w.run ctx source limit fuel).isSome := by
  induction fuel generalizing w with
  | zero => exact absurd hfuel (Nat.not_lt_zero _)
  | succ fuel ih =>
      unfold Backfill.run
      cases hstep : w.step ctx source limit with
      | error result => rfl
      | ok w' =>
          obtain ⟨hless, hle'⟩ := step_cost hstep hle
          exact ih hle' (by omega)

/-- **Native backfill always ends.** -/
theorem ingestWithNativeBackfill_isSome (ctx : NativeContext) (source : LocalNativeBlockSource)
    (limit : ℕ) (node : NativeNode) (target : Wire.BlockMessage) :
    (ingestWithNativeBackfill ctx source limit node target).isSome := by
  refine run_isSome _ (Nat.zero_le _) ?_
  simp [Backfill.cost, Backfill.start, Work.cost, backfillFuel]

end Passes

/-! ### Cycles -/

section Cycles

variable (source : LocalNativeBlockSource) (target : Wire.BlockMessage)

/-- The block that a walk means by a hash. -/
def messageOf (hash : ContentHash) : Option Wire.BlockMessage :=
  if target.blockHash = contentHashBytes hash then some target else (source.read hash).toOption

/-- The dependencies that the block of a hash names. -/
def dependenciesOf (hash : ContentHash) : List ContentHash :=
  ((messageOf source target hash).bind fun block => (nativeDependencies block).toOption).getD []

/-- The block of a work. -/
def Work.block : Work → Wire.BlockMessage
  | .enter block => block
  | .apply block => block

/-- The hash of a block that waits to be applied. -/
def Work.waiting : Work → Option ContentHash
  | .enter _ => none
  | .apply block => (hash32 block.blockHash "block").toOption

/-- **The stack is a path:** the blocks that wait are those of `ancestry`, each once, and each
reaches all that is above it; at the bottom waits the target. -/
structure Backfill.Sound (w : Backfill) : Prop where
  ancestry : w.ancestry = w.stack.filterMap Work.waiting
  nodup : w.ancestry.Nodup
  known : ∀ work ∈ w.stack, ∀ hash, work.block.blockHash = contentHashBytes hash →
    messageOf source target hash = some work.block
  above : w.stack.Pairwise fun upper lower => ∀ x hash, lower.waiting = some x →
    upper.block.blockHash = contentHashBytes hash →
      TransGen (Step (dependenciesOf source target)) x hash
  bottom : w.stack = [] ∨ w.stack = [.enter target] ∨ w.stack.getLast? = some (.apply target)

variable {source target} {ctx : NativeContext} {limit : ℕ} {w w' : Backfill} {hash : ContentHash}
  {block : Wire.BlockMessage} {dependencies : List ContentHash}

theorem waiting_apply (h : block.blockHash = contentHashBytes hash) :
    (Work.apply block).waiting = some hash := by
  rw [Work.waiting, hash32_eq_ok.2 h]
  rfl

theorem dependenciesOf_eq (hblock : messageOf source target hash = some block)
    (hdependencies : nativeDependencies block = .ok dependencies) :
    dependenciesOf source target hash = dependencies := by
  unfold dependenciesOf
  rw [hblock, Option.bind_some, hdependencies]
  rfl

theorem Backfill.Sound.start (node : NativeNode) (target : Wire.BlockMessage) :
    (Backfill.start node target).Sound source target := by
  refine ⟨rfl, List.nodup_nil, fun work hwork hash hhash => ?_, List.pairwise_singleton _ _,
    Or.inr (Or.inl rfl)⟩
  obtain rfl := List.mem_singleton.1 hwork
  exact if_pos hhash

/-- The blocks that are put on the stack are not the target. -/
theorem Backfill.Sound.messageOf_read {work : Work} {stack : List Work} {dependency : ContentHash}
    (h : w.Sound source target) (hstack : w.stack = work :: stack)
    (hhash : work.block.blockHash = contentHashBytes hash) (hwait : work.waiting = none)
    (hnew : dependency ∉ hash :: w.ancestry) (hread : source.read dependency = .ok block) :
    messageOf source target dependency = some block := by
  unfold messageOf
  rw [if_neg, hread]
  · rfl
  intro htarget
  refine hnew ?_
  rcases h.bottom with hnil | hone | hlast
  · simp [hnil] at hstack
  · obtain ⟨rfl, -⟩ := List.cons.inj (hone.symm.trans hstack)
    exact contentHashBytes_injective (htarget.symm.trans hhash) ▸ List.mem_cons_self ..
  · refine List.mem_cons_of_mem _ ?_
    rw [h.ancestry]
    exact List.mem_filterMap.2 ⟨_, List.mem_of_getLast? hlast, waiting_apply htarget⟩

/-- Entering a block keeps the path. -/
theorem Backfill.Sound.enter {stack : List Work} (h : w.Sound source target)
    (hstack : w.stack = .enter block :: stack)
    (henter : ({ w with stack } : Backfill).enter source limit block = .ok w') :
    w'.Sound source target := by
  have hancestry : w.ancestry = stack.filterMap Work.waiting := by
    rw [h.ancestry, hstack]
    rfl
  have habove := h.above
  have hbottom := h.bottom
  have hknown := h.known
  rw [hstack] at habove hbottom hknown
  obtain ⟨hfirst, hrest⟩ := List.pairwise_cons.1 habove
  rcases enter_ok henter with rfl | ⟨hash, dependencies, blocks, hhash, hnew, hdeps, -, hread, rfl⟩
  · refine ⟨hancestry, h.nodup, fun work hwork => hknown work (List.mem_cons_of_mem _ hwork), hrest, ?_⟩
    rcases hbottom with hnil | hone | hlast
    · simp at hnil
    · exact Or.inl (List.cons.inj hone).2
    · cases stack with
      | nil => exact Or.inl rfl
      | cons work stack => exact Or.inr (Or.inr (by simpa using hlast))
  have hblock := hknown _ (List.mem_cons_self ..) hash hhash
  have hdependencies := dependenciesOf_eq hblock hdeps
  have hmessage {other : Wire.BlockMessage} (hother : other ∈ blocks) :
      ∃ dependency ∈ dependencies, other.blockHash = contentHashBytes dependency ∧
        messageOf source target dependency = some other := by
    obtain ⟨dependency, hd, hfresh, hother⟩ := hread other hother
    exact ⟨dependency, hd, read_eq_ok hother, h.messageOf_read hstack hhash rfl hfresh hother⟩
  refine ⟨?_, List.nodup_cons.2 ⟨hnew, h.nodup⟩, fun work hwork hash' hhash' => ?_, ?_, ?_⟩
  · dsimp only
    rw [List.filterMap_append, List.filterMap_cons_some (waiting_apply hhash), hancestry]
    have hnone : (blocks.map Work.enter).filterMap Work.waiting = [] := by
      rw [List.filterMap_map]
      exact List.filterMap_eq_nil_iff.2 fun _ _ => rfl
    rw [hnone, List.nil_append]
  · rcases List.mem_append.1 hwork with hwork | hwork
    · obtain ⟨other, hother, rfl⟩ := List.mem_map.1 hwork
      obtain ⟨dependency, -, hbytes, hsome⟩ := hmessage hother
      rwa [← contentHashBytes_injective (hbytes.symm.trans hhash')]
    · rcases List.mem_cons.1 hwork with rfl | hwork
      · exact contentHashBytes_injective (hhash.symm.trans hhash') ▸ hblock
      · exact hknown work (List.mem_cons_of_mem _ hwork) hash' hhash'
  · refine List.pairwise_append.2 ⟨?_, List.pairwise_cons.2 ⟨hfirst, hrest⟩, ?_⟩
    · exact List.pairwise_map.2 (List.pairwise_of_forall fun _ _ _ _ hnone => by cases hnone)
    · intro upper hupper lower hlower x hash' hwait hhash'
      obtain ⟨other, hother, rfl⟩ := List.mem_map.1 hupper
      obtain ⟨dependency, hd, hbytes, -⟩ := hmessage hother
      have hstep : Step (dependenciesOf source target) hash hash' := by
        rw [← contentHashBytes_injective (hbytes.symm.trans hhash')]
        show dependency ∈ dependenciesOf source target hash
        rwa [hdependencies]
      rcases List.mem_cons.1 hlower with rfl | hlower
      · obtain rfl := Option.some.inj ((waiting_apply hhash).symm.trans hwait)
        exact TransGen.single hstep
      · exact (hfirst lower hlower x hash hwait hhash).tail hstep
  · refine Or.inr (Or.inr ?_)
    rw [List.getLast?_append, List.getLast?_cons]
    rcases hbottom with hnil | hone | hlast
    · simp at hnil
    · obtain ⟨hsame, rfl⟩ := List.cons.inj hone
      obtain rfl := Work.enter.inj hsame
      rfl
    · cases stack with
      | nil => simp at hlast
      | cons work stack =>
          rw [List.getLast?_cons_cons] at hlast
          rw [hlast]
          rfl

/-- Applying a block keeps the path. -/
theorem Backfill.Sound.apply {stack : List Work} (h : w.Sound source target)
    (hstack : w.stack = .apply block :: stack)
    (happly : ({ w with stack } : Backfill).apply ctx block = .ok w') : w'.Sound source target := by
  obtain ⟨hash, node, applied, hhash, rfl⟩ := apply_ok happly
  have hancestry : w.ancestry = hash :: stack.filterMap Work.waiting := by
    rw [h.ancestry, hstack, List.filterMap_cons_some (waiting_apply hhash)]
  have hnodup := h.nodup
  have hknown := h.known
  have habove := h.above
  have hbottom := h.bottom
  rw [hancestry] at hnodup
  rw [hstack] at hknown habove hbottom
  obtain ⟨hnew, hrest⟩ := List.nodup_cons.1 hnodup
  have hfilter : w.ancestry.filter (· ≠ hash) = stack.filterMap Work.waiting := by
    rw [hancestry, List.filter_cons_of_neg (by simp), List.filter_eq_self]
    intro x hx
    simp only [ne_eq, decide_not, Bool.not_eq_eq_eq_not, Bool.not_true, decide_eq_false_iff_not]
    exact fun heq => hnew (heq ▸ hx)
  refine ⟨hfilter, ?_, fun work hwork => hknown work (List.mem_cons_of_mem _ hwork),
    (List.pairwise_cons.1 habove).2, ?_⟩
  · dsimp only
    rwa [hfilter]
  · rcases hbottom with hnil | hone | hlast
    · simp at hnil
    · simp at hone
    · cases stack with
      | nil => exact Or.inl rfl
      | cons work stack =>
          rw [List.getLast?_cons_cons] at hlast
          exact Or.inr (Or.inr hlast)

/-- **Every pass keeps the path.** -/
theorem Backfill.Sound.step (h : w.Sound source target) (hstep : w.step ctx source limit = .ok w') :
    w'.Sound source target := by
  unfold Backfill.step at hstep
  cases hstack : w.stack with
  | nil => simp [hstack] at hstep
  | cons work stack =>
      rw [hstack] at hstep
      cases work with
      | enter block => exact h.enter hstack (Codec.mapError_eq_ok.1 hstep)
      | apply block => exact h.apply hstack (Codec.mapError_eq_ok.1 hstep)

theorem hash32_ne_cycle {bytes : List Byte} {field : String} :
    hash32 bytes field ≠ .error (.cycle hash) := by
  unfold hash32
  split_ifs <;> simp

/-- Reading the dependencies off a block names no cycle. -/
theorem nativeDependencies_ne_cycle : nativeDependencies block ≠ .error (.cycle hash) := by
  intro h
  rcases bind_eq_error.1 h with hparents | ⟨parents, -, h⟩
  · obtain ⟨parent, -, hparent⟩ := Codec.exists_of_mapM_eq_error hparents
    exact hash32_ne_cycle hparent
  · rcases bind_eq_error.1 h with hjustifications | ⟨justifications, -, hok⟩
    · obtain ⟨justification, -, hjustification⟩ := Codec.exists_of_mapM_eq_error hjustifications
      exact hash32_ne_cycle hjustification
    · cases hok

/-- **A cycle that entering a block names is there.** -/
theorem Backfill.Sound.cycle {stack : List Work} (h : w.Sound source target)
    (hstack : w.stack = .enter block :: stack)
    (henter : ({ w with stack } : Backfill).enter source limit block = .error (.cycle hash)) :
    TransGen (Step (dependenciesOf source target)) hash hash := by
  have hbelow {x own : ContentHash} (hx : x ∈ w.ancestry)
      (hown : block.blockHash = contentHashBytes own) :
      TransGen (Step (dependenciesOf source target)) x own := by
    rw [h.ancestry, hstack] at hx
    obtain ⟨lower, hlower, hwait⟩ := List.mem_filterMap.1
      (show x ∈ stack.filterMap Work.waiting from hx)
    have habove := h.above
    rw [hstack] at habove
    exact (List.pairwise_cons.1 habove).1 lower hlower x own hwait hown
  rcases bind_eq_error.1 henter with hbad | ⟨own, hhash, henter⟩
  · exact absurd hbad hash32_ne_cycle
  have hown := hash32_eq_ok.1 hhash
  split_ifs at henter with hindexed hancestry
  · obtain rfl := NativeBackfillError.cycle.inj (Except.error.inj henter)
    exact hbelow hancestry hown
  rcases bind_eq_error.1 henter with hbad | ⟨dependencies, hdeps, henter⟩
  · exact absurd hbad nativeDependencies_ne_cycle
  rcases bind_eq_error.1 henter with hpush | ⟨pushed, -, hok⟩
  · obtain ⟨hmem, hwaits⟩ := pushDependencies_cycle hpush
    have hblock := h.known (.enter block) (by rw [hstack]; exact List.mem_cons_self ..) own hown
    have hstep : Step (dependenciesOf source target) own hash := by
      show hash ∈ dependenciesOf source target own
      rw [dependenciesOf_eq hblock hdeps]
      exact List.mem_reverse.1 hmem
    rcases List.mem_cons.1 hwaits with rfl | hwaits
    · exact TransGen.single hstep
    · exact (hbelow hwaits hown).tail hstep
  · cases hok

/-- Applying a block names no cycle. -/
theorem apply_ne_cycle {node : NativeNode} : w.apply ctx block ≠ .error (.cycle hash, node) := by
  unfold Backfill.apply
  intro h
  cases hhash : hash32 block.blockHash "block" with
  | error error =>
      rw [hhash] at h
      obtain ⟨rfl, -⟩ := Prod.mk.inj (Except.error.inj h)
      exact hash32_ne_cycle hhash
  | ok own =>
      rw [hhash] at h
      dsimp only at h
      rcases hingest : w.node.ingest ctx block with ⟨error | update, node⟩
      · simp [hingest] at h
      · simp [hingest] at h

/-- A pass that names a cycle names a real one. -/
theorem Backfill.Sound.step_cycle {node : NativeNode} (h : w.Sound source target)
    (hstep : w.step ctx source limit = .error (.error (.cycle hash), node)) :
    TransGen (Step (dependenciesOf source target)) hash hash := by
  unfold Backfill.step at hstep
  cases hstack : w.stack with
  | nil => simp [hstack] at hstep
  | cons work stack =>
      rw [hstack] at hstep
      cases work with
      | enter block =>
          cases henter : ({ w with stack } : Backfill).enter source limit block with
          | ok w' => simp [henter, Except.mapError] at hstep
          | error error =>
              simp only [henter, Except.mapError, Except.error.injEq, Prod.mk.injEq] at hstep
              exact h.cycle hstack (hstep.1 ▸ henter)
      | apply block =>
          cases happly : ({ w with stack } : Backfill).apply ctx block with
          | ok w' => simp [happly, Except.mapError] at hstep
          | error failed =>
              obtain ⟨error, node'⟩ := failed
              simp only [happly, Except.mapError, Except.error.injEq, Prod.mk.injEq] at hstep
              exact absurd (hstep.1 ▸ happly) apply_ne_cycle

/-- A loop that names a cycle names a real one. -/
theorem Backfill.Sound.run {node : NativeNode} (fuel : ℕ) (h : w.Sound source target)
    (hrun : w.run ctx source limit fuel = some (.error (.cycle hash), node)) :
    TransGen (Step (dependenciesOf source target)) hash hash := by
  induction fuel generalizing w with
  | zero => cases hrun
  | succ fuel ih =>
      unfold Backfill.run at hrun
      cases hstep : w.step ctx source limit with
      | ok w' =>
          rw [hstep] at hrun
          exact ih (h.step hstep) hrun
      | error result =>
          rw [hstep] at hrun
          obtain rfl := Option.some.inj hrun
          exact h.step_cycle hstep

/-- **A cycle is named only where the graph has one.** -/
theorem cycle_of_ingestWithNativeBackfill {node node' : NativeNode}
    (h : ingestWithNativeBackfill ctx source limit node target =
      some (.error (.cycle hash), node')) :
    TransGen (Step (dependenciesOf source target)) hash hash :=
  (Backfill.Sound.start node target).run _ h

end Cycles

/-! ### What is ingested -/

section Ingest

variable {ctx : NativeContext} {node node' : NativeNode} {hash : ContentHash}
  {block : Wire.BlockMessage} {update : MirrorUpdate}

/-- The wire hash of a mapped block is the declared one. -/
theorem wireHash_of_mapNative {validated : ValidatedF1r3nodeBlock}
    (h : mapNative ctx node block = .ok validated) :
    contentHashBytes validated.wireHash = block.blockHash := by
  unfold mapNative at h
  split_ifs at h
  · exact ctx.mapper.genesis_wireHash h
  · exact ctx.mapper.protobuf_wireHash h

/-- A native block that is applied is applied to the mirror, and its hash is indexed. -/
theorem applyNative_ok {ingress ingress' : LiveIngress} {validated : ValidatedF1r3nodeBlock}
    {blockHash : NodeId → BlockContent → ContentHash}
    (h : ingress.applyNative blockHash validated = (.ok update, ingress')) :
    update.disposition = .applied ∧ ingress'.nativeIndex.byWireHash =
      ingress.nativeIndex.byWireHash.insert validated.wireHash validated.block.identity := by
  unfold LiveIngress.applyNative at h
  rcases hingest : ingress.mirror.ingest Blocklace.alreadyValidated validated.block with
    ⟨error | found, mirror⟩
  · simp [hingest] at h
  · rw [hingest] at h
    dsimp only at h
    split_ifs at h with hdisposition
    · simp at h
    · cases hrecord : ingress.nativeIndex.recordAccepted blockHash validated with
      | error message => simp [hrecord] at h
      | ok index =>
          rw [hrecord] at h
          obtain ⟨hok, rfl⟩ := Prod.mk.inj h
          obtain rfl := Except.ok.inj hok
          obtain ⟨-, hindex⟩ := Codec.check_eq_ok.1 hrecord
          obtain rfl := Except.ok.inj hindex
          exact ⟨not_not.1 hdisposition, rfl⟩

/-- The call of the ingress that accepts a block that is not indexed. -/
theorem ingestNativeInner_ok {ingress ingress' : LiveIngress} {validated : ValidatedF1r3nodeBlock}
    {blockHash : NodeId → BlockContent → ContentHash} {answer : Except String Unit}
    {repo repo' : Option RSpaceBlocklaceRepository} {genesis : Bool}
    (h : ingress.ingestNativeInner blockHash (.ok validated) answer repo genesis =
      (.ok update, ingress', repo'))
    (hnew : ingress.nativeIndex.byWireHash.lookup validated.wireHash = none) :
    update.disposition = .applied ∧ ingress'.nativeIndex.byWireHash =
      ingress.nativeIndex.byWireHash.insert validated.wireHash validated.block.identity := by
  unfold LiveIngress.ingestNativeInner at h
  dsimp only at h
  cases hcheck : ingress.nativeIndex.checkCandidate blockHash validated with
  | error message => simp [hcheck] at h
  | ok _ =>
      rw [hcheck, hnew] at h
      dsimp only at h
      split_ifs at h with hgenesis hpresent hparent
      · simp at h
      · simp at h
      · simp at h
      · cases answer with
        | error message => simp at h
        | ok _ =>
            dsimp only at h
            cases hput : LiveIngress.putNative repo validated with
            | error error => simp [hput] at h
            | ok stored =>
                rw [hput] at h
                dsimp only at h
                obtain ⟨hresult, hrest⟩ := Prod.mk.inj h
                obtain ⟨hingress, -⟩ := Prod.mk.inj hrest
                exact applyNative_ok (Prod.ext hresult hingress)

/-- **A block that is ingested anew** is applied, and its hash is indexed afterwards. -/
theorem ingest_ok (h : node.ingest ctx block = (.ok update, node'))
    (hhash : block.blockHash = contentHashBytes hash) (hnew : node.isIndexed hash = false) :
    update.disposition = .applied ∧ node'.isIndexed = finished node.isIndexed [hash] := by
  unfold NativeNode.ingest at h
  cases hmapped : mapNative ctx node block with
  | error message => simp [hmapped, LiveIngress.ingestNativeInner] at h
  | ok validated =>
      obtain rfl : validated.wireHash = hash :=
        contentHashBytes_injective ((wireHash_of_mapNative hmapped).trans hhash)
      have hlookup : node.ingress.nativeIndex.byWireHash.lookup validated.wireHash = none := by
        simpa [NativeNode.isIndexed] using hnew
      rw [hmapped] at h
      rcases hcall : node.ingress.ingestNativeInner ctx.blockHash (.ok validated)
        (ctx.onBlock validated.block) (some node.repo)
        (block.body.state.blockNumber = 0 ∧ block.sig = []) with ⟨result, ingress', repo'⟩
      dsimp only at h
      rw [hcall] at h
      obtain ⟨rfl, rfl⟩ := Prod.mk.inj h
      obtain ⟨hdisposition, hindex⟩ := ingestNativeInner_ok hcall hlookup
      refine ⟨hdisposition, funext fun other => ?_⟩
      unfold NativeNode.isIndexed finished
      dsimp only
      rw [hindex, OrderedMap.lookup_insert]
      split_ifs with heq
      · simp [heq]
      · simp [heq]

end Ingest

/-! ### Passes -/

section Runs

variable {ctx : NativeContext} {source : LocalNativeBlockSource} {limit : ℕ} {w w' : Backfill}
  {result result' : Except NativeBackfillError ℕ × NativeNode}

/-- Some passes lead from one state of the loop to another. -/
def Steps (ctx : NativeContext) (source : LocalNativeBlockSource) (limit : ℕ) :
    Backfill → Backfill → Prop :=
  ReflTransGen fun w w' => w.step ctx source limit = .ok w'

theorem Steps.head {w'' : Backfill} (h : Steps ctx source limit w' w'')
    (hstep : w.step ctx source limit = .ok w') : Steps ctx source limit w w'' :=
  ReflTransGen.head hstep h

theorem run_of_passes (h : Steps ctx source limit w w')
    (hend : w'.step ctx source limit = .error result) :
    ∃ fuel, w.run ctx source limit fuel = some result := by
  induction h using ReflTransGen.head_induction_on with
  | refl =>
      refine ⟨1, ?_⟩
      unfold Backfill.run
      rw [hend]
  | head hstep _ ih =>
      obtain ⟨fuel, hrun⟩ := ih
      refine ⟨fuel + 1, ?_⟩
      unfold Backfill.run
      rw [hstep]
      exact hrun

theorem run_mono {fuel fuel' : ℕ} (h : w.run ctx source limit fuel = some result)
    (hle : fuel ≤ fuel') : w.run ctx source limit fuel' = some result := by
  induction fuel generalizing w fuel' with
  | zero => cases h
  | succ fuel ih =>
      obtain ⟨fuel', rfl⟩ := Nat.exists_eq_add_of_lt hle
      unfold Backfill.run at h ⊢
      cases hstep : w.step ctx source limit with
      | error ended =>
          rw [hstep] at h
          exact h
      | ok w' =>
          rw [hstep] at h
          exact ih h (by omega)

/-- **The loop returns what its passes lead to.** -/
theorem ingestWithNativeBackfill_of_passes {node : NativeNode} {target : Wire.BlockMessage}
    (h : Steps ctx source limit (Backfill.start node target) w')
    (hend : w'.step ctx source limit = .error result) :
    ingestWithNativeBackfill ctx source limit node target = some result := by
  obtain ⟨fuel, hrun⟩ := run_of_passes h hend
  obtain ⟨result', hresult⟩ := Option.isSome_iff_exists.1
    (ingestWithNativeBackfill_isSome ctx source limit node target)
  have hsame := run_mono hresult (Nat.le_max_left _ fuel)
  have hsame' := run_mono hrun (Nat.le_max_right (backfillFuel limit) _)
  rw [hresult, ← hsame, hsame']

end Runs

/-! ### The graph of a target -/

section Complete

variable (ctx : NativeContext) (source : LocalNativeBlockSource) (node : NativeNode)
  (target : Wire.BlockMessage) (t : ContentHash)

/-- The hashes of the graph that are not indexed yet. -/
def Needed (x : ContentHash) : Prop :=
  node.isIndexed t = false ∧
    Reach (pending (dependenciesOf source target) node.isIndexed) t x

/-- The block of a hash. -/
def blockOf (x : ContentHash) : Wire.BlockMessage := (messageOf source target x).getD target

/-- **Blocks of the graph are ingested**, each after its dependencies and while it is new. -/
inductive Ingested : List ContentHash → NativeNode → Prop
  | start : Ingested [] node
  | next {order : List ContentHash} {node' node'' : NativeNode} {x : ContentHash}
      {update : MirrorUpdate} (h : Ingested order node')
      (hneeded : Needed source node target t x) (hnew : node'.isIndexed x = false)
      (hdependencies : ∀ d ∈ dependenciesOf source target x, node'.isIndexed d = true)
      (hingest : node'.ingest ctx (blockOf source target x) = (.ok update, node'')) :
      Ingested (order ++ [x]) node''

/-- **The graph of a target can be ingested:** it has no cycle, its blocks are in the store and
name hashes, and each is accepted once its dependencies are indexed. -/
structure Backfillable : Prop where
  hash : target.blockHash = contentHashBytes t
  acyclic : ∀ x, Needed source node target t x →
    ¬TransGen (Step (pending (dependenciesOf source target) node.isIndexed)) x x
  available : ∀ x, Needed source node target t x → x ≠ t → ∃ block, source.read x = .ok block
  wellFormed : ∀ x, Needed source node target t x →
    ∃ dependencies, nativeDependencies (blockOf source target x) = .ok dependencies
  acceptable : ∀ order node' x, Ingested ctx source node target t order node' →
    Needed source node target t x → node'.isIndexed x = false →
    (∀ d ∈ dependenciesOf source target x, node'.isIndexed d = true) →
    ∃ update node'', node'.ingest ctx (blockOf source target x) = (.ok update, node'')

variable {ctx source node target t} {x y a : ContentHash} {done : ContentHash → Bool}

theorem Needed.step (h : Needed source node target t x)
    (hstep : Step (pending (dependenciesOf source target) node.isIndexed) x y) :
    Needed source node target t y := ⟨h.1, h.2.tail hstep⟩

/-- What is below a block of the graph is in the store. -/
theorem Backfillable.read (h : Backfillable ctx source node target t)
    (hx : Needed source node target t x)
    (hstep : Step (pending (dependenciesOf source target) node.isIndexed) x y) :
    source.read y = .ok (blockOf source target y) ∧ y ≠ t := by
  have hne : y ≠ t := by
    rintro rfl
    exact h.acyclic y (hx.step hstep) (TransGen.tail' hx.2 hstep)
  obtain ⟨block, hblock⟩ := h.available y (hx.step hstep) hne
  refine ⟨?_, hne⟩
  unfold blockOf messageOf
  rw [if_neg fun heq => hne (contentHashBytes_injective (heq.symm.trans h.hash)), hblock]
  rfl

/-- The message of a hash of the graph. -/
theorem Backfillable.messageOf (h : Backfillable ctx source node target t)
    (hx : Needed source node target t x) :
    messageOf source target x = some (blockOf source target x) := by
  rcases ReflTransGen.cases_tail hx.2 with rfl | ⟨z, hz, hlast⟩
  · unfold blockOf
    rw [Persistence.messageOf, if_pos h.hash]
    rfl
  · obtain ⟨hread, hne⟩ := h.read ⟨hx.1, hz⟩ hlast
    rw [Persistence.messageOf, if_neg fun heq =>
      hne (contentHashBytes_injective (heq.symm.trans h.hash)), hread]
    rfl

theorem Backfillable.blockHash (h : Backfillable ctx source node target t)
    (hx : Needed source node target t x) :
    (blockOf source target x).blockHash = contentHashBytes x := by
  rcases ReflTransGen.cases_tail hx.2 with rfl | ⟨z, hz, hlast⟩
  · have hmessage := h.messageOf hx
    rw [Persistence.messageOf, if_pos h.hash] at hmessage
    rw [← Option.some.inj hmessage]
    exact h.hash
  · exact read_eq_ok (h.read ⟨hx.1, hz⟩ hlast).1

theorem Backfillable.dependencies (h : Backfillable ctx source node target t)
    (hx : Needed source node target t x) :
    nativeDependencies (blockOf source target x) = .ok (dependenciesOf source target x) := by
  obtain ⟨dependencies, hdependencies⟩ := h.wellFormed x hx
  rw [dependenciesOf_eq (h.messageOf hx) hdependencies, hdependencies]

/-- **What the loop over the dependencies comes to** where all are in the store and none waits. -/
theorem pushDependencies_eq {limit : ℕ} {indexed : NativeNode} {ancestry : List ContentHash}
    {f : ContentHash → Wire.BlockMessage} (dependencies : List ContentHash) (stack : List Work)
    (fetched : ℕ) (hle : fetched ≤ limit)
    (h : ∀ d ∈ dependencies, indexed.isIndexed d = false →
      d ∉ ancestry ∧ source.read d = .ok (f d)) :
    pushDependencies source limit indexed ancestry dependencies stack fetched =
      if fetched + (dependencies.filter fun d => !indexed.isIndexed d).length ≤ limit then
        .ok (((dependencies.filter fun d => !indexed.isIndexed d).map fun d =>
            Work.enter (f d)).reverse ++ stack,
          fetched + (dependencies.filter fun d => !indexed.isIndexed d).length)
      else .error (.backfillLimit limit) := by
  induction dependencies generalizing stack fetched with
  | nil =>
      rw [List.filter_nil, List.length_nil, Nat.add_zero, if_pos hle]
      rfl
  | cons d dependencies ih =>
      have hrest : ∀ d ∈ dependencies, indexed.isIndexed d = false →
          d ∉ ancestry ∧ source.read d = .ok (f d) := fun d hd => h d (List.mem_cons_of_mem _ hd)
      unfold pushDependencies
      cases hindexed : indexed.isIndexed d with
      | true =>
          rw [if_pos rfl, List.filter_cons_of_neg (by simp [hindexed])]
          exact ih stack fetched hle hrest
      | false =>
          obtain ⟨hfresh, hread⟩ := h d (List.mem_cons_self ..) hindexed
          rw [if_neg (by simp), if_neg hfresh, List.filter_cons_of_pos (by simp [hindexed]),
            List.length_cons]
          by_cases hlimit : limit ≤ fetched
          · rw [if_pos hlimit, if_neg (by omega)]
          · rw [if_neg hlimit, hread]
            dsimp only
            rw [ih (.enter (f d) :: stack) (fetched + 1) (by omega) hrest]
            have hlength (n : ℕ) : fetched + 1 + n = fetched + (n + 1) := by omega
            rw [hlength]
            simp

/-! ### The walk of the loop -/

/-- Where the loop is in a walk: what is above `rest` on the stack is to be entered, the node has
finished `done`, and what waits reaches it. -/
structure At (ctx : NativeContext) (source : LocalNativeBlockSource) (node : NativeNode)
    (target : Wire.BlockMessage) (t : ContentHash) (limit : ℕ) (done : ContentHash → Bool)
    (l : List ContentHash) (rest : List Work) (given : List ContentHash) (w : Backfill) :
    Prop where
  stack : w.stack = l.map (fun a => .enter (blockOf source target a)) ++ rest
  indexed : w.node.isIndexed = done
  known : ∀ x, node.isIndexed x = true → done x = true
  ingested : Ingested ctx source node target t given w.node
  needed : ∀ a ∈ l, Needed source node target t a
  waiting : ∀ x ∈ w.ancestry, ∀ a ∈ l,
    TransGen (Step (pending (dependenciesOf source target) node.isIndexed)) x a
  fetched : w.fetched ≤ limit

section Simulation

variable {limit : ℕ} {l : List ContentHash} {rest : List Work} {given : List ContentHash}
  {w : Backfill}

/-- A block that is indexed is passed over. -/
theorem step_enter_indexed {block : Wire.BlockMessage} {stack : List Work}
    (hstack : w.stack = .enter block :: stack) (hhash : block.blockHash = contentHashBytes a)
    (hindexed : w.node.isIndexed a = true) :
    w.step ctx source limit = .ok { w with stack } := by
  unfold Backfill.step
  rw [hstack]
  dsimp only
  unfold Backfill.enter
  rw [hash32_eq_ok.2 hhash]
  show Except.mapError _ (ite _ _ _) = _
  rw [if_pos hindexed]
  rfl

/-- The dependencies of a block that is not indexed are pushed. -/
theorem step_enter_eq {block : Wire.BlockMessage} {stack : List Work}
    {dependencies : List ContentHash} (hstack : w.stack = .enter block :: stack)
    (hhash : block.blockHash = contentHashBytes a)
    (hdependencies : nativeDependencies block = .ok dependencies)
    (hindexed : w.node.isIndexed a = false) (hfresh : a ∉ w.ancestry) :
    w.step ctx source limit = Except.mapError (fun error => (.error error, w.node))
      ((pushDependencies source limit w.node (a :: w.ancestry) dependencies.reverse
        (.apply block :: stack) w.fetched).map fun pushed =>
          { w with stack := pushed.1, fetched := pushed.2, ancestry := a :: w.ancestry }) := by
  unfold Backfill.step
  rw [hstack]
  dsimp only
  unfold Backfill.enter
  rw [hash32_eq_ok.2 hhash, hdependencies]
  show Except.mapError _ (ite _ _ _) = _
  rw [if_neg (by simp [hindexed]), if_neg hfresh]
  rfl

/-- A finished block is passed over. -/
theorem At.known_pass (h : At ctx source node target t limit done (a :: l) rest given w)
    (hb : Backfillable ctx source node target t) (hdone : done a = true) :
    At ctx source node target t limit done l rest given { w with
        stack := l.map (fun a => .enter (blockOf source target a)) ++ rest } ∧
      w.step ctx source limit = .ok { w with
        stack := l.map (fun a => .enter (blockOf source target a)) ++ rest } := by
  have ha := h.needed a (List.mem_cons_self ..)
  refine ⟨⟨rfl, h.indexed, h.known, h.ingested, fun b hmem => h.needed b (List.mem_cons_of_mem _ hmem),
    fun x hx b hmem => h.waiting x hx b (List.mem_cons_of_mem _ hmem), h.fetched⟩, ?_⟩
  exact step_enter_indexed h.stack (hb.blockHash ha) (h.indexed ▸ hdone)

/-- A new block is put on the stack under its pending dependencies, if the limit allows. -/
theorem At.enter_pass (h : At ctx source node target t limit done (a :: l) rest given w)
    (hb : Backfillable ctx source node target t) (hdone : done a = false) :
    (if w.fetched + (pending (dependenciesOf source target) done a).length ≤ limit then
      ∃ w', w.step ctx source limit = .ok w' ∧
        At ctx source node target t limit done (pending (dependenciesOf source target) done a)
          (.apply (blockOf source target a) ::
            (l.map (fun a => .enter (blockOf source target a)) ++ rest)) given w' ∧
        w'.ancestry = a :: w.ancestry ∧ a ∉ w.ancestry ∧
        w'.fetched = w.fetched + (pending (dependenciesOf source target) done a).length ∧
        w'.applied = w.applied
    else w.step ctx source limit = .error (.error (.backfillLimit limit), w.node)) := by
  have ha := h.needed a (List.mem_cons_self ..)
  have hfresh : a ∉ w.ancestry := fun hmem =>
    hb.acyclic a ha (h.waiting a hmem a (List.mem_cons_self ..))
  have hstack : w.stack = .enter (blockOf source target a) ::
      (l.map (fun a => .enter (blockOf source target a)) ++ rest) := h.stack
  have hchild {d : ContentHash} (hd : d ∈ dependenciesOf source target a)
      (hnew : w.node.isIndexed d = false) :
      Step (pending (dependenciesOf source target) node.isIndexed) a d :=
    step_pending_mono h.known (mem_pending_iff.2 ⟨hd, h.indexed ▸ hnew⟩)
  have hread (d : ContentHash) (hd : d ∈ (dependenciesOf source target a).reverse)
      (hnew : w.node.isIndexed d = false) :
      d ∉ a :: w.ancestry ∧ source.read d = .ok (blockOf source target d) := by
    have hstep := hchild (List.mem_reverse.1 hd) hnew
    refine ⟨fun hmem => ?_, (hb.read ha hstep).1⟩
    rcases List.mem_cons.1 hmem with rfl | hmem
    · exact hb.acyclic d ha (TransGen.single hstep)
    · exact hb.acyclic d (ha.step hstep) ((h.waiting d hmem a (List.mem_cons_self ..)).tail hstep)
  have hpush := pushDependencies_eq (dependenciesOf source target a).reverse
    (.apply (blockOf source target a) ::
      (l.map (fun a => .enter (blockOf source target a)) ++ rest)) w.fetched h.fetched hread
  have hpending : (dependenciesOf source target a).reverse.filter (fun d => !w.node.isIndexed d) =
      (pending (dependenciesOf source target) done a).reverse := by
    rw [List.filter_reverse, h.indexed]
    rfl
  rw [hpending, List.length_reverse, List.map_reverse, List.reverse_reverse] at hpush
  have hnode : w.node.isIndexed a = false := h.indexed ▸ hdone
  have hstep : w.step ctx source limit = _ :=
    step_enter_eq hstack (hb.blockHash ha) (hb.dependencies ha) hnode hfresh
  split_ifs with hlimit
  · rw [if_pos hlimit] at hpush
    rw [hstep, hpush]
    refine ⟨_, rfl, ⟨rfl, h.indexed, h.known, h.ingested, fun d hd => ?_, fun x hx d hd => ?_,
      hlimit⟩, rfl, hfresh, rfl, rfl⟩
    · exact ha.step (step_pending_mono h.known hd)
    · rcases List.mem_cons.1 hx with rfl | hx
      · exact TransGen.single (step_pending_mono h.known hd)
      · exact (h.waiting x hx a (List.mem_cons_self ..)).tail (step_pending_mono h.known hd)
  · rw [if_neg hlimit] at hpush
    rw [hstep, hpush]
    rfl

/-- A block whose dependencies have been finished is applied. -/
theorem At.apply_pass {waits : List ContentHash}
    (h : At ctx source node target t limit done [] (.apply (blockOf source target a) ::
      (l.map (fun a => .enter (blockOf source target a)) ++ rest)) given w)
    (hb : Backfillable ctx source node target t) (ha : Needed source node target t a)
    (hnew : done a = false) (hdependencies : ∀ d ∈ dependenciesOf source target a, done d = true)
    (hancestry : w.ancestry = a :: waits) (hfresh : a ∉ waits)
    (hneeded : ∀ b ∈ l, Needed source node target t b)
    (hwaits : ∀ x ∈ waits, ∀ b ∈ l,
      TransGen (Step (pending (dependenciesOf source target) node.isIndexed)) x b) :
    ∃ w', w.step ctx source limit = .ok w' ∧
      At ctx source node target t limit (finished done [a]) l rest (given ++ [a]) w' ∧
      w'.ancestry = waits ∧ w'.fetched = w.fetched ∧ w'.applied = w.applied + 1 := by
  have hstack : w.stack = .apply (blockOf source target a) ::
      (l.map (fun a => .enter (blockOf source target a)) ++ rest) := h.stack
  have hindexed : w.node.isIndexed a = false := h.indexed ▸ hnew
  have hbelow : ∀ d ∈ dependenciesOf source target a, w.node.isIndexed d = true := fun d hd =>
    h.indexed ▸ hdependencies d hd
  obtain ⟨update, node', hingest⟩ := hb.acceptable given w.node a h.ingested ha hindexed hbelow
  obtain ⟨hdisposition, hafter⟩ := ingest_ok hingest (hb.blockHash ha) hindexed
  have hfilter : w.ancestry.filter (· ≠ a) = waits := by
    rw [hancestry, List.filter_cons_of_neg (by simp), List.filter_eq_self]
    intro x hx
    simp only [ne_eq, decide_not, Bool.not_eq_eq_eq_not, Bool.not_true, decide_eq_false_iff_not]
    exact fun heq => hfresh (heq ▸ hx)
  refine ⟨{ w with
      stack := l.map (fun a => .enter (blockOf source target a)) ++ rest
      node := node'
      applied := w.applied + 1
      ancestry := waits }, ?_, ⟨rfl, ?_, fun x hx => done_le_finished x (h.known x hx),
    h.ingested.next ha hindexed hbelow hingest, hneeded, hwaits, h.fetched⟩, rfl, rfl, rfl⟩
  · unfold Backfill.step
    rw [hstack]
    dsimp only
    unfold Backfill.apply
    rw [hash32_eq_ok.2 (hb.blockHash ha)]
    dsimp only
    rw [hingest]
    dsimp only
    rw [if_pos hdisposition, hfilter]
    rfl
  · dsimp only
    rw [hafter, h.indexed]

/-- **The loop follows the walk** as far as the limit allows. -/
theorem At.walks {reads order : List ContentHash}
    (hwalk : Walks (dependenciesOf source target) done l reads order)
    (h : At ctx source node target t limit done l rest given w)
    (hb : Backfillable ctx source node target t) :
    if w.fetched + reads.length ≤ limit then
      ∃ w', Steps ctx source limit w w' ∧
        At ctx source node target t limit (finished done order) [] rest (given ++ order) w' ∧
        w'.ancestry = w.ancestry ∧ w'.fetched = w.fetched + reads.length ∧
        w'.applied = w.applied + order.length
    else ∃ w', Steps ctx source limit w w' ∧
      w'.step ctx source limit = .error (.error (.backfillLimit limit), w'.node) := by
  induction hwalk generalizing rest given w with
  | nil =>
      rw [List.length_nil, Nat.add_zero, if_pos h.fetched]
      refine ⟨w, ReflTransGen.refl, ?_, rfl, rfl, rfl⟩
      rwa [finished_nil, List.append_nil]
  | known hdone _ ih =>
      obtain ⟨hnext, hstep⟩ := h.known_pass hb hdone
      have hrest := ih hnext
      dsimp only at hrest
      split_ifs at hrest ⊢ with hlimit
      · obtain ⟨w', hpasses, hafter⟩ := hrest
        exact ⟨w', hpasses.head hstep, hafter⟩
      · obtain ⟨w', hpasses, hend⟩ := hrest
        exact ⟨w', hpasses.head hstep, hend⟩
  | @enter done a l reads order reads' order' hdone hbelow hrest ih ih' =>
      have ha := h.needed a (List.mem_cons_self ..)
      have hcount : (pending (dependenciesOf source target) done a ++ reads ++ reads').length =
          (pending (dependenciesOf source target) done a).length + reads.length + reads'.length := by
        rw [List.length_append, List.length_append]
      have hone := h.enter_pass hb hdone
      split_ifs at hone with hchildren
      · obtain ⟨w₁, hstep₁, hat₁, hancestry₁, hfresh, hfetched₁, happlied₁⟩ := hone
        have htwo := ih hat₁
        split_ifs at htwo with hreads
        · obtain ⟨w₂, hpasses₂, hat₂, hancestry₂, hfetched₂, happlied₂⟩ := htwo
          have hself : a ∉ order := fun hmem => by
            obtain ⟨b, hb', -, hreach⟩ := hbelow.exists_reach hmem
            exact hb.acyclic a ha (transGen_pending_mono h.known (TransGen.head' hb' hreach))
          have hnew : finished done order a = false := finished_eq_false_iff.2 ⟨hdone, hself⟩
          have hdependencies : ∀ d ∈ dependenciesOf source target a,
              finished done order d = true := fun d hd => by
            refine finished_eq_true_iff.2 ?_
            by_cases hknown : done d = true
            · exact Or.inl hknown
            · exact hbelow.complete (mem_pending_iff.2 ⟨hd, Bool.eq_false_iff.2 hknown⟩)
          obtain ⟨w₃, hstep₃, hat₃, hancestry₃, hfetched₃, happlied₃⟩ := hat₂.apply_pass hb ha hnew
            hdependencies (hancestry₂.trans hancestry₁) hfresh
            (fun b hmem => h.needed b (List.mem_cons_of_mem _ hmem))
            (fun x hx b hmem => h.waiting x hx b (List.mem_cons_of_mem _ hmem))
          rw [finished_finished, List.append_assoc given] at hat₃
          have hpasses₃ : Steps ctx source limit w w₃ :=
            (hpasses₂.head hstep₁).tail hstep₃
          have hthree := ih' hat₃
          have hlength : w₃.fetched + reads'.length = w.fetched +
              (pending (dependenciesOf source target) done a ++ reads ++ reads').length := by
            rw [hcount]
            omega
          rw [hlength] at hthree
          split_ifs at hthree ⊢ with hlimit
          · obtain ⟨w₄, hpasses₄, hat₄, hancestry₄, hfetched₄, happlied₄⟩ := hthree
            rw [finished_finished, List.append_assoc given] at hat₄
            refine ⟨w₄, hpasses₃.trans hpasses₄, hat₄, hancestry₄.trans hancestry₃, hfetched₄, ?_⟩
            rw [List.length_append, List.length_append, List.length_singleton]
            omega
          · obtain ⟨w₄, hpasses₄, hend⟩ := hthree
            exact ⟨w₄, hpasses₃.trans hpasses₄, hend⟩
        · obtain ⟨w₂, hpasses₂, hend⟩ := htwo
          rw [if_neg (by omega)]
          exact ⟨w₂, hpasses₂.head hstep₁, hend⟩
      · rw [if_neg (by omega)]
        exact ⟨w, ReflTransGen.refl, hone⟩

/-! ### What the loop comes to -/

theorem Ingested.isIndexed {order : List ContentHash} {node' : NativeNode}
    (h : Ingested ctx source node target t order node')
    (hb : Backfillable ctx source node target t) :
    node'.isIndexed = finished node.isIndexed order := by
  induction h with
  | start => exact finished_nil.symm
  | next _ hneeded hnew _ hingest ih =>
      rw [(ingest_ok hingest (hb.blockHash hneeded) hnew).2, ih, finished_finished]

/-- No block is ingested twice. -/
theorem Ingested.nodup {order : List ContentHash} {node' : NativeNode}
    (h : Ingested ctx source node target t order node')
    (hb : Backfillable ctx source node target t) : order.Nodup := by
  induction h with
  | start => exact List.nodup_nil
  | @next order node' node'' x update h hneeded hnew _ _ ih =>
      rw [h.isIndexed hb] at hnew
      refine List.nodup_append.2 ⟨ih, List.nodup_singleton x, fun y hy z hz heq => ?_⟩
      obtain rfl := List.mem_singleton.1 hz
      exact (finished_eq_false_iff.1 hnew).2 (heq ▸ hy)

theorem nodup_dependenciesOf (source : LocalNativeBlockSource) (target : Wire.BlockMessage)
    (x : ContentHash) : (dependenciesOf source target x).Nodup := by
  unfold dependenciesOf
  cases hmessage : Persistence.messageOf source target x with
  | none => exact List.nodup_nil
  | some block =>
      rw [Option.bind_some]
      cases hdependencies : nativeDependencies block with
      | error error => exact List.nodup_nil
      | ok dependencies =>
          obtain ⟨parents, -, h⟩ := bind_eq_ok.1 hdependencies
          obtain ⟨justifications, -, h⟩ := bind_eq_ok.1 h
          rw [← Except.ok.inj h]
          exact List.nodup_dedup _

/-- The blocks of the graph are the target and some of the store. -/
theorem Backfillable.finite (h : Backfillable ctx source node target t) :
    {x | Needed source node target t x}.Finite := by
  refine (insert t source.keys.toFinset).finite_toSet.subset fun x hx => ?_
  by_cases hne : x = t
  · simp [hne]
  · obtain ⟨block, hblock⟩ := h.available x hx hne
    have hkey : x ∈ source.keys := by
      rw [OrderedMap.mem_keys_iff]
      intro hnone
      simp [LocalNativeBlockSource.read, hnone] at hblock
    simp [hkey]

theorem Backfillable.grounded (h : Backfillable ctx source node target t)
    (hnew : node.isIndexed t = false) :
    Grounded (pending (dependenciesOf source target) node.isIndexed) t :=
  grounded_of_finite (h.finite.subset fun _ hx => ⟨hnew, hx⟩) fun x hx => h.acyclic x ⟨hnew, hx⟩

/-- The blocks below a new target. -/
theorem Backfillable.below_eq (h : Backfillable ctx source node target t)
    (hnew : node.isIndexed t = false) :
    {x | Needed source node target t x ∧ x ≠ t} =
      {x | TransGen (Step (pending (dependenciesOf source target) node.isIndexed)) t x} := by
  ext x
  constructor
  · rintro ⟨hx, hne⟩
    exact (reflTransGen_iff_eq_or_transGen.1 hx.2).resolve_left hne
  · intro hx
    have hneeded : Needed source node target t x := ⟨hnew, hx.to_reflTransGen⟩
    exact ⟨hneeded, fun heq => h.acyclic x hneeded (heq ▸ hx)⟩

/-- An indexed target is passed over. -/
theorem ingestWithNativeBackfill_indexed (hhash : target.blockHash = contentHashBytes t)
    (hindexed : node.isIndexed t = true) :
    ingestWithNativeBackfill ctx source limit node target = some (.ok 0, node) := by
  have hstep := @step_enter_indexed ctx source t limit (Backfill.start node target) target [] rfl
    hhash hindexed
  exact ingestWithNativeBackfill_of_passes (ReflTransGen.single hstep) rfl

/-- **What comes of a new target:** the walk from it, if the limit allows the reads. -/
theorem Backfillable.result (h : Backfillable ctx source node target t)
    (hnew : node.isIndexed t = false) {reads order : List ContentHash}
    (hwalk : Walks (dependenciesOf source target) node.isIndexed [t] reads order) :
    if reads.length ≤ limit then
      ∃ node', ingestWithNativeBackfill ctx source limit node target =
        some (.ok order.length, node') ∧ Ingested ctx source node target t order node'
    else ∃ node', ingestWithNativeBackfill ctx source limit node target =
      some (.error (.backfillLimit limit), node') := by
  have hself : Needed source node target t t := ⟨hnew, ReflTransGen.refl⟩
  have hblock : blockOf source target t = target := by
    unfold blockOf Persistence.messageOf
    rw [if_pos h.hash]
    rfl
  have hstart : At ctx source node target t limit node.isIndexed [t] [] []
      (Backfill.start node target) :=
    { stack := by rw [List.map_singleton, hblock]; rfl
      indexed := rfl
      known := fun _ hx => hx
      ingested := .start
      needed := fun a ha => List.mem_singleton.1 ha ▸ hself
      waiting := fun x hx => by cases hx
      fetched := Nat.zero_le _ }
  have hend := hstart.walks hwalk h
  have hfetched : (Backfill.start node target).fetched + reads.length = reads.length :=
    Nat.zero_add _
  rw [hfetched] at hend
  split_ifs at hend ⊢ with hlimit
  · obtain ⟨w', hpasses, hat, -, -, happlied⟩ := hend
    refine ⟨w'.node, ingestWithNativeBackfill_of_passes hpasses ?_, hat.ingested⟩
    unfold Backfill.step
    rw [hat.stack]
    show Except.error (Except.ok w'.applied, w'.node) = _
    rw [happlied]
    exact congrArg (fun n => Except.error (Except.ok n, w'.node)) (Nat.zero_add _)
  · obtain ⟨w', hpasses, hstep⟩ := hend
    exact ⟨w'.node, ingestWithNativeBackfill_of_passes hpasses hstep⟩

end Simulation

variable (ctx source node target) in
/-- **What native backfill is to do within a limit:** end, name a cycle only where the graph has
one, and ingest a graph that can be ingested if no more than `limit` of the ancestors are new:
the blocks that are needed, each after its dependencies and once. -/
structure CompleteWithin (limit : ℕ) : Prop where
  ends : (ingestWithNativeBackfill ctx source limit node target).isSome
  cycle : ∀ hash node', ingestWithNativeBackfill ctx source limit node target =
    some (.error (.cycle hash), node') → TransGen (Step (dependenciesOf source target)) hash hash
  complete : ∀ t, Backfillable ctx source node target t →
    {x | Needed source node target t x ∧ x ≠ t}.ncard ≤ limit →
    ∃ order node', ingestWithNativeBackfill ctx source limit node target =
        some (.ok order.length, node') ∧
      Ingested ctx source node target t order node' ∧ order.Nodup ∧
      ∀ x, node'.isIndexed x = true ↔ node.isIndexed x = true ∨ Needed source node target t x

/-- What is finished from a new target is what is needed. -/
theorem mem_order_iff_needed {reads order : List ContentHash} {x : ContentHash}
    (hwalk : Walks (dependenciesOf source target) node.isIndexed [t] reads order)
    (hnew : node.isIndexed t = false) : x ∈ order ↔ Needed source node target t x := by
  constructor
  · intro hx
    obtain ⟨a, ha, -, hreach⟩ := hwalk.exists_reach hx
    exact ⟨hnew, List.mem_singleton.1 ha ▸ hreach⟩
  · rintro ⟨-, hreach⟩
    have ht : t ∈ order := (hwalk.complete (List.mem_singleton_self t)).resolve_left (by simp [hnew])
    exact hwalk.mem_order_of_reach ht hreach

/-- **Native backfill is complete for every limit exactly where the graph has no detours.** -/
theorem native_backfill_complete_iff (ctx : NativeContext) (source : LocalNativeBlockSource)
    (node : NativeNode) (target : Wire.BlockMessage) :
    (∀ limit, CompleteWithin ctx source node target limit) ↔
      ∀ t, Backfillable ctx source node target t → node.isIndexed t = false →
        NoDetour (dependenciesOf source target) node.isIndexed t := by
  constructor
  · intro h t hb hnew
    obtain ⟨reads, order, hwalk⟩ := Walks.exists_walks (l := [t]) fun a ha =>
      List.mem_singleton.1 ha ▸ hb.grounded hnew
    have hself := hb.acyclic t ⟨hnew, ReflTransGen.refl⟩
    refine (hwalk.nodup_reads_iff (nodup_dependenciesOf source target)
      (fun x hx => hb.acyclic x ⟨hnew, hx⟩) hnew).1 ((hwalk.length_reads_le_iff hself hnew).1 ?_)
    by_contra hmany
    obtain ⟨order', node', hok, -⟩ :=
      (h _).complete t hb (congrArg Set.ncard (hb.below_eq hnew)).le
    have hresult := @Backfillable.result _ _ _ _ _
      {x | TransGen (Step (pending (dependenciesOf source target) node.isIndexed)) t x}.ncard
      hb hnew reads order hwalk
    rw [if_neg hmany] at hresult
    obtain ⟨node'', hlimit⟩ := hresult
    rw [hlimit] at hok
    simp at hok
  · intro h limit
    refine ⟨ingestWithNativeBackfill_isSome ctx source limit node target,
      fun hash node' => cycle_of_ingestWithNativeBackfill, fun t hb hfew => ?_⟩
    cases hnew : node.isIndexed t with
    | true =>
        refine ⟨[], node, ingestWithNativeBackfill_indexed hb.hash hnew, .start, List.nodup_nil,
          fun x => ⟨Or.inl, fun hx => hx.resolve_right fun hneeded => ?_⟩⟩
        simp [hneeded.1] at hnew
    | false =>
        obtain ⟨reads, order, hwalk⟩ := Walks.exists_walks (l := [t]) fun a ha =>
          List.mem_singleton.1 ha ▸ hb.grounded hnew
        have hself := hb.acyclic t ⟨hnew, ReflTransGen.refl⟩
        have hnodup := (hwalk.nodup_reads_iff (nodup_dependenciesOf source target)
          (fun x hx => hb.acyclic x ⟨hnew, hx⟩) hnew).2 (h t hb hnew)
        have hreads := (hwalk.length_reads_le_iff hself hnew).2 hnodup
        rw [← hb.below_eq hnew] at hreads
        have hresult := @Backfillable.result _ _ _ _ _ limit hb hnew reads order hwalk
        rw [if_pos (hreads.trans hfew)] at hresult
        obtain ⟨node', hok, hingested⟩ := hresult
        refine ⟨order, node', hok, hingested, hingested.nodup hb, fun x => ?_⟩
        rw [hingested.isIndexed hb, finished_eq_true_iff, mem_order_iff_needed hwalk hnew]

end Complete

/-! ### A triangle -/

/-- A message of the host that names its parents. -/
def triangleMessage (hash : ContentHash) (parents : List ContentHash) (number : ℤ)
    (sig : List Byte) : Wire.BlockMessage where
  blockHash := contentHashBytes hash
  header := ⟨parents.map contentHashBytes, 0, 1, []⟩
  body := ⟨⟨[], [], [], number⟩, [], [], [], []⟩
  justifications := []
  sender := [0]
  seqNum := number
  sig := sig
  sigAlgorithm := "secp256k1"
  shardId := "root"
  extraBytes := []

/-- The block of a message, over the identities of its parents. -/
def triangleBlock (message : Wire.BlockMessage) (predecessors : List BlockIdentity) :
    Except String ValidatedF1r3nodeBlock :=
  if message.blockHash.length = 32 then
    .ok ⟨⟨⟨contentHashOf message.blockHash, ⟨message.sender⟩, []⟩,
      ⟨message.blockHash, predecessors⟩⟩, contentHashOf message.blockHash⟩
  else .error "Wire hash mismatch"

theorem triangleBlock_wireHash {message : Wire.BlockMessage} {predecessors : List BlockIdentity}
    {validated : ValidatedF1r3nodeBlock} (h : triangleBlock message predecessors = .ok validated) :
    contentHashBytes validated.wireHash = message.blockHash := by
  unfold triangleBlock at h
  split_ifs at h with hlength
  obtain rfl := Except.ok.inj h
  exact contentHashBytes_contentHashOf hlength

/-- The identities of the parents that the index knows. -/
def resolvedParents (message : Wire.BlockMessage) (index : NativeBlockIdentityIndex) :
    List BlockIdentity :=
  message.header.parentsHashList.filterMap fun parent =>
    index.byWireHash.lookup (contentHashOf parent)

/-- A mapper that takes the payload of a block for its hash. -/
def triangleMapper : NativeMapper where
  fromTrustedUnsignedGenesis message := triangleBlock message []
  fromProtobufWithParents message index := triangleBlock message (resolvedParents message index)
  genesis_wireHash := triangleBlock_wireHash
  protobuf_wireHash := triangleBlock_wireHash

/-- The context of the sample: every block is accepted. -/
def triangleContext : NativeContext where
  blockHash _ content := contentHashOf content.payload
  mapper := triangleMapper
  onBlock _ := .ok ()

/-- The target names both other blocks, of which the first names the second. -/
def triangleTarget : Wire.BlockMessage := triangleMessage 3 [1, 2] 2 [1]

def triangleSource : LocalNativeBlockSource :=
  (OrderedMap.empty.insert 1 (triangleMessage 1 [2] 1 [1])).insert 2 (triangleMessage 2 [] 0 [])

/-- The blocks, each after its dependencies. -/
def triangleOrder : List ContentHash := [2, 1, 3]

/-- The node after the first blocks of the order. -/
def triangleNode : ℕ → NativeNode
  | 0 => ⟨.new 0, .empty bincodeIdentity⟩
  | n + 1 =>
      ((triangleNode n).ingest triangleContext
        (blockOf triangleSource triangleTarget (triangleOrder.getD n 3))).2

theorem triangle_below : ∀ x ∈ triangleOrder, ∀ y ∈ dependenciesOf triangleSource triangleTarget x,
    y ∈ triangleOrder ∧ triangleOrder.idxOf y < triangleOrder.idxOf x := by
  simp only [← List.forall_iff_forall_mem]
  decide +kernel

/-- Only the next block of the order is new and has its dependencies. -/
theorem triangle_next : ∀ k : Fin 4, ∀ x ∈ triangleOrder, (triangleNode k).isIndexed x = false →
    (∀ d ∈ dependenciesOf triangleSource triangleTarget x, (triangleNode k).isIndexed d = true) →
      k.val < 3 ∧ x = triangleOrder.getD k 3 := by
  simp only [← List.forall_iff_forall_mem]
  decide +kernel

theorem triangle_accepts : ∀ k : Fin 3, ((triangleNode k).ingest triangleContext
    (blockOf triangleSource triangleTarget (triangleOrder.getD k 3))).1.isOk = true := by
  decide +kernel

theorem mem_triangleOrder_of_needed {x : ContentHash}
    (h : Needed triangleSource (triangleNode 0) triangleTarget 3 x) : x ∈ triangleOrder := by
  obtain ⟨-, hreach⟩ := h
  induction hreach with
  | refl => decide
  | tail _ hstep ih => exact (triangle_below _ ih _ (mem_pending_iff.1 hstep).1).1

/-- The blocks can only be ingested in their order. -/
theorem exists_triangleNode {order : List ContentHash} {node : NativeNode}
    (h : Ingested triangleContext triangleSource (triangleNode 0) triangleTarget 3 order node) :
    ∃ k : Fin 4, node = triangleNode k := by
  induction h with
  | start => exact ⟨0, rfl⟩
  | @next order node' node'' x update _ hneeded hnew hdependencies hingest ih =>
      obtain ⟨k, rfl⟩ := ih
      obtain ⟨hlt, rfl⟩ := triangle_next k x (mem_triangleOrder_of_needed hneeded) hnew hdependencies
      refine ⟨⟨k + 1, by omega⟩, ?_⟩
      show node'' = ((triangleNode k).ingest triangleContext _).2
      rw [hingest]

theorem triangle_backfillable :
    Backfillable triangleContext triangleSource (triangleNode 0) triangleTarget 3 where
  hash := rfl
  acyclic x hx hcycle := by
    have hless {y : ContentHash} (hy : TransGen (Step (pending
        (dependenciesOf triangleSource triangleTarget) (triangleNode 0).isIndexed)) x y) :
        y ∈ triangleOrder ∧ triangleOrder.idxOf y < triangleOrder.idxOf x := by
      induction hy with
      | single hstep =>
          exact triangle_below x (mem_triangleOrder_of_needed hx) _ (mem_pending_iff.1 hstep).1
      | tail _ hstep ih =>
          obtain ⟨hmem, hlt⟩ := triangle_below _ ih.1 _ (mem_pending_iff.1 hstep).1
          exact ⟨hmem, hlt.trans ih.2⟩
    exact lt_irrefl _ (hless hcycle).2
  available x hx hne := by
    have hread : ∀ x ∈ triangleOrder, x ≠ 3 → (triangleSource.read x).isOk = true := by
      simp only [← List.forall_iff_forall_mem]
      decide +kernel
    exact Codec.exists_eq_ok_of_isOk (hread x (mem_triangleOrder_of_needed hx) hne)
  wellFormed x hx := by
    have hdependencies : ∀ x ∈ triangleOrder,
        (nativeDependencies (blockOf triangleSource triangleTarget x)).isOk = true := by
      simp only [← List.forall_iff_forall_mem]
      decide +kernel
    exact Codec.exists_eq_ok_of_isOk (hdependencies x (mem_triangleOrder_of_needed hx))
  acceptable order node' x hingested hneeded hnew hdependencies := by
    obtain ⟨k, rfl⟩ := exists_triangleNode hingested
    obtain ⟨hlt, rfl⟩ := triangle_next k x (mem_triangleOrder_of_needed hneeded) hnew hdependencies
    obtain ⟨update, hupdate⟩ := Codec.exists_eq_ok_of_isOk (triangle_accepts ⟨k, hlt⟩)
    exact ⟨update, _, Prod.ext hupdate rfl⟩

/-- **A block that waits is counted again:** two ancestors are new, and a limit of two is not
enough. -/
theorem triangle_exceeds_limit :
    ¬CompleteWithin triangleContext triangleSource (triangleNode 0) triangleTarget 2 := by
  intro h
  have hfew : {x | Needed triangleSource (triangleNode 0) triangleTarget 3 x ∧ x ≠ 3}.ncard ≤ 2 := by
    have hsub : {x | Needed triangleSource (triangleNode 0) triangleTarget 3 x ∧ x ≠ 3} ⊆
        (({1, 2} : Finset ContentHash) : Set ContentHash) := by
      rintro x ⟨hneeded, hne⟩
      have hmem := mem_triangleOrder_of_needed hneeded
      simp only [triangleOrder, List.mem_cons, List.not_mem_nil, or_false] at hmem
      simp only [Finset.coe_insert, Finset.coe_singleton, Set.mem_insert_iff,
        Set.mem_singleton_iff]
      tauto
    refine (Set.ncard_le_ncard hsub (Finset.finite_toSet _)).trans ?_
    rw [Set.ncard_coe_finset]
    decide
  have hresult : (ingestWithNativeBackfill triangleContext triangleSource 2 (triangleNode 0)
      triangleTarget).map Prod.fst = some (.error (.backfillLimit 2)) := by decide +kernel
  obtain ⟨order, node', hok, -⟩ := h.complete 3 triangle_backfillable hfew
  rw [hok] at hresult
  cases hresult

end CordialMiners.Persistence
