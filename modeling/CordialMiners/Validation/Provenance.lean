/-
# Who vouches for a stored block

`Blocklace::insert` with `Secp256k1Scheme`, and `validated_insert` with the
default or the strict checks.

The two paths check different things.  The first verifies the signature over the
hash that it computes itself and does not look at the declared one.  The second
compares the declared hash with the computed one and verifies the signature only
where there is one.  What both leave is that a block that carries a signature was
signed by its creator, content included, and that an unsigned block has its
declared hash (`stored_blocks_authentic`).
-/

import CordialMiners.Validation.Authentic
import CordialMiners.Validation.Bookkeeping

namespace CordialMiners

/-- `Secp256k1Scheme::verify_block`. -/
def secp256k1Scheme (crypto : BlockCrypto) : CryptoVerifier := fun content signature creator =>
  if crypto.verify (crypto.blockHash creator content) creator.bytes signature then .ok ()
  else .error "Signature verification failed"

/-- The creator has signed the creator and content of the block. -/
def Block.Endorsed (crypto : BlockCrypto) (b : Block) : Prop :=
  crypto.verify (crypto.blockHash b.identity.creator b.content) b.identity.creator.bytes
    b.identity.signature = true

instance (crypto : BlockCrypto) (b : Block) : Decidable (b.Endorsed crypto) :=
  inferInstanceAs (Decidable (_ = _))

theorem Block.Signed.endorsed {crypto : BlockCrypto} {b : Block} (h : b.Signed crypto)
    (hhash : b.Hashed crypto) : b.Endorsed crypto := by
  unfold Block.Endorsed
  rw [← show b.identity.contentHash = _ from hhash]
  exact h

/-- An insert under `Secp256k1Scheme`, or a validated one under the default or the
strict checks. -/
inductive StoreCall.Checked (crypto : BlockCrypto) : StoreCall → Prop
  | insert (block : Block) : Checked crypto (.insert block (secp256k1Scheme crypto))
  | default (block : Block) (bonds : Bonds) :
      Checked crypto (.validatedInsert crypto block bonds .default)
  | strict (block : Block) (bonds : Bonds) :
      Checked crypto (.validatedInsert crypto block bonds .strict)

namespace Blocklace

variable {crypto : BlockCrypto} {B B' : Blocklace} {a b block : Block} {calls : List StoreCall}
  {bonds : Bonds} {config : ValidationConfig} {c : StoreCall}

/-- What is known of the blocks that `calls` have stored. -/
structure Vouched (crypto : BlockCrypto) (calls : List StoreCall) (B : Blocklace) : Prop where
  offered : ∀ b, B.Stores b → b ∈ calls.map StoreCall.block
  endorsed : ∀ b, B.Stores b →
    b.Endorsed crypto ∨ b.identity.signature = [] ∧ b.Hashed crypto
  hashed : ∀ b, B.Stores b →
    StoreCall.insert b (secp256k1Scheme crypto) ∉ calls → b.Hashed crypto

theorem vouched_new (k : ℕ) : Vouched crypto [] (new k) where
  offered _ h := absurd h BlockMap.mem_toSet_empty
  endorsed _ h := absurd h BlockMap.mem_toSet_empty
  hashed _ h := absurd h BlockMap.mem_toSet_empty

theorem Vouched.cons (h : Vouched crypto calls B) (c : StoreCall) :
    Vouched crypto (c :: calls) B where
  offered b hb := List.mem_cons_of_mem _ (h.offered b hb)
  endorsed := h.endorsed
  hashed b hb hnot := h.hashed b hb fun hmem => hnot (List.mem_cons_of_mem _ hmem)

/-- A call that has stored its block, with what it has checked. -/
theorem Vouched.inserted (h : Vouched crypto calls B) (hins : B.Inserted c.block B')
    (hendorsed : c.block.Endorsed crypto ∨ c.block.identity.signature = [] ∧ c.block.Hashed crypto)
    (hhashed : StoreCall.insert c.block (secp256k1Scheme crypto) ≠ c → c.block.Hashed crypto) :
    Vouched crypto (c :: calls) B' := by
  refine ⟨fun b hb => ?_, fun b hb => ?_, fun b hb hnot => ?_⟩
  · rcases hins.stores_cases hb with hold | rfl
    · exact List.mem_cons_of_mem _ (h.offered b hold)
    · exact List.mem_cons_self
  · rcases hins.stores_cases hb with hold | rfl
    · exact h.endorsed b hold
    · exact hendorsed
  · rcases hins.stores_cases hb with hold | rfl
    · exact h.hashed b hold fun hmem => hnot (List.mem_cons_of_mem _ hmem)
    · exact hhashed fun heq => hnot (List.mem_cons.2 (Or.inl heq))

theorem Vouched.insert (h : Vouched crypto calls B) (block : Block) :
    Vouched crypto (.insert block (secp256k1Scheme crypto) :: calls)
      (B.store (.insert block (secp256k1Scheme crypto))).2 := by
  cases hins : B.insert block (secp256k1Scheme crypto) with
  | error e =>
      have hsame : (B.store (.insert block (secp256k1Scheme crypto))).2 = B := by
        simp only [store, hins]
      rw [hsame]
      exact h.cons _
  | ok B' =>
      have hstore : (B.store (.insert block (secp256k1Scheme crypto))).2 = B' := by
        simp only [store, hins]
      have hverified : block.Endorsed crypto := by
        unfold Blocklace.insert at hins
        split at hins
        · exact absurd hins (by simp)
        · next hok =>
          unfold secp256k1Scheme at hok
          split_ifs at hok with hverify
          exact hverify
      rw [hstore]
      exact h.inserted (insert_ok hins) (Or.inl hverified) fun hne => absurd rfl hne

theorem Vouched.validated (h : Vouched crypto calls B) (hhash : config.checkContentHash = true)
    (hsig : config.checkSignature = true) (hclosure : config.checkClosure = true) (block : Block)
    (bonds : Bonds) :
    Vouched crypto (.validatedInsert crypto block bonds config :: calls)
      (B.store (.validatedInsert crypto block bonds config)).2 := by
  obtain ⟨hvalid, B', hcommit, heq⟩ | ⟨errors, -, heq⟩ :=
    @validatedInsert_cases B block crypto bonds config
  · have hstore : (B.store (.validatedInsert crypto block bonds config)).2 = B' := by
      simp only [store, heq]
    obtain ⟨hhashed, hsigned, -⟩ := validateBlock_eq_valid_iff.1 hvalid
    have hins : B.Inserted block B' := Admitted.inserted ⟨hvalid, hcommit⟩ hclosure
    rw [hstore]
    refine h.inserted hins ?_ fun _ => hhashed hhash
    rcases hsigned hsig with hempty | hverify
    · exact Or.inr ⟨hempty, hhashed hhash⟩
    · exact Or.inl (Block.Signed.endorsed hverify (hhashed hhash))
  · have hsame : (B.store (.validatedInsert crypto block bonds config)).2 = B := by
      simp only [store, heq]
    rw [hsame]
    exact h.cons _

/-- A run of checked calls, the last one first. -/
theorem Vouched.storeAll {later : List StoreCall} (h : Vouched crypto calls B)
    (hchecked : ∀ c ∈ later, c.Checked crypto) :
    Vouched crypto (later.reverse ++ calls) (B.storeAll later) := by
  induction later generalizing B calls with
  | nil => exact h
  | cons c later ih =>
      rw [List.reverse_cons, List.append_assoc, List.singleton_append]
      refine ih ?_ fun d hd => hchecked d (List.mem_cons_of_mem _ hd)
      cases hchecked c List.mem_cons_self with
      | insert block => exact h.insert block
      | default block bonds => exact h.validated rfl rfl rfl block bonds
      | strict block bonds => exact h.validated rfl rfl rfl block bonds

theorem vouched_storeAll (k : ℕ) (hchecked : ∀ c ∈ calls, c.Checked crypto) :
    Vouched crypto calls.reverse ((new k).storeAll calls) := by
  have hrun := (vouched_new k).storeAll hchecked
  rwa [List.append_nil] at hrun

/-- **Authenticity of stored blocks.**  A stored block is endorsed by its creator or
unsigned; it has its declared hash unless it went through `insert`; and a hash with a
creator names one block, and one payload with one set of references over all runs. -/
theorem stored_blocks_authentic (k : ℕ) (hchecked : ∀ c ∈ calls, c.Checked crypto) :
    (∀ b, ((new k).storeAll calls).Stores b →
      (b.Endorsed crypto ∨ b.identity.signature = [] ∧ b.Hashed crypto) ∧
      (StoreCall.insert b (secp256k1Scheme crypto) ∉ calls → b.Hashed crypto)) ∧
    (∀ a b, ((new k).storeAll calls).Stores a →
      ((new k).storeAll calls).Stores b →
      a.identity.consensusIdentity = b.identity.consensusIdentity → a = b) ∧
    ∀ (k' : ℕ) (calls' : List StoreCall), (∀ c ∈ calls', c.Checked crypto) →
      crypto.CollisionFree {b | b ∈ (calls ++ calls').map StoreCall.block} →
      ∀ a b, ((new k).storeAll calls).Stores a →
        ((new k').storeAll calls').Stores b → a.Hashed crypto → b.Hashed crypto →
        a.identity.consensusIdentity = b.identity.consensusIdentity →
        a.content.payload = b.content.payload ∧ ∀ q, q ∈ a.consensusRefs ↔ q ∈ b.consensusRefs := by
  have hvouched := vouched_storeAll k hchecked
  refine ⟨fun b hb => ⟨hvouched.endorsed b hb, fun hnot => hvouched.hashed b hb ?_⟩,
    fun a b ha hb heq => ha.ext hb (eq_of_consensusIdentity_eq ha.mem hb.mem heq), ?_⟩
  · rwa [List.mem_reverse]
  · intro k' calls' hchecked' hfree a b ha hb hahash hbhash heq
    have hvouched' := vouched_storeAll k' hchecked'
    have hmem : a ∈ (calls ++ calls').map StoreCall.block := by
      have hoffered := hvouched.offered a ha
      rw [List.map_reverse, List.mem_reverse] at hoffered
      rw [List.map_append]
      exact List.mem_append_left _ hoffered
    have hmem' : b ∈ (calls ++ calls').map StoreCall.block := by
      have hoffered := hvouched'.offered b hb
      rw [List.map_reverse, List.mem_reverse] at hoffered
      rw [List.map_append]
      exact List.mem_append_right _ hoffered
    have hhash : crypto.blockHash a.identity.creator a.content =
        crypto.blockHash b.identity.creator b.content := by
      rw [← show a.identity.contentHash = _ from hahash,
        ← show b.identity.contentHash = _ from hbhash]
      exact (BlockIdentity.consensusIdentity_eq_iff.1 heq).1
    exact (hfree a hmem b hmem' hhash).2

/-! ### A signed block and an unsigned one -/

/-- The hashes are those of the listed blocks and `7` is the only signature. -/
def sevenCrypto (blocks : List Block) : BlockCrypto :=
  { listedCrypto blocks with verify := fun _ _ signature => signature = [7] }

/-- A signed block of creator `1`. -/
def signedGenesis : Block := ⟨signedId 1 1, ⟨[], []⟩⟩

/-- A signed block of creator `2` above it. -/
def signedChild : Block := ⟨signedId 2 2, ⟨[], [signedGenesis.identity]⟩⟩

/-- An unsigned block in the name of creator `1`. -/
def unsignedGenesis : Block := ⟨sampleId 1 1, ⟨[], []⟩⟩

/-- The first block is inserted and the second validated. -/
def signedCalls : List StoreCall :=
  [.insert signedGenesis (secp256k1Scheme (sevenCrypto [signedGenesis, signedChild])),
    .validatedInsert (sevenCrypto [signedGenesis, signedChild]) signedChild threeBonds .strict]

/-- Both signed blocks are stored and endorsed. -/
theorem stored_blocks_authentic_signedChild :
    ((new 0).storeAll signedCalls).dom.length = 2 ∧
      signedChild.Endorsed (sevenCrypto [signedGenesis, signedChild]) ∧
      signedChild.Hashed (sevenCrypto [signedGenesis, signedChild]) := by
  have hchecked : ∀ c ∈ signedCalls, c.Checked (sevenCrypto [signedGenesis, signedChild]) := by
    intro c hc
    simp only [signedCalls, List.mem_cons, List.not_mem_nil, or_false] at hc
    rcases hc with rfl | rfl
    · exact .insert _
    · exact .strict _ _
  obtain ⟨hvouched, hhashed⟩ := (stored_blocks_authentic 0 hchecked).1 signedChild (by
    unfold Stores
    decide +kernel)
  refine ⟨by decide +kernel, hvouched.resolve_right fun h => absurd h.1 (by decide), hhashed ?_⟩
  intro hmem
  simp only [signedCalls, List.mem_cons, List.not_mem_nil, or_false, reduceCtorEq] at hmem
  exact absurd (congrArg StoreCall.block hmem) (by decide +kernel)

/-- **An unsigned block is stored** in the name of its creator, who has not signed
it. -/
theorem unsigned_block_stored :
    ¬ ∀ (crypto : BlockCrypto) (k : ℕ) (calls : List StoreCall),
      (∀ c ∈ calls, c.Checked crypto) → ∀ b, ((new k).storeAll calls).Stores b →
        b.Hashed crypto ∧ b.Signed crypto := by
  intro h
  have hchecked : ∀ c ∈ [StoreCall.validatedInsert (sevenCrypto [unsignedGenesis]) unsignedGenesis
      threeBonds .default], c.Checked (sevenCrypto [unsignedGenesis]) := by
    intro c hc
    rw [List.mem_singleton.1 hc]
    exact .default _ _
  have hstored : ((new 0).storeAll [.validatedInsert (sevenCrypto [unsignedGenesis])
      unsignedGenesis threeBonds .default]).Stores unsignedGenesis := by
    unfold Stores
    decide +kernel
  exact absurd (h (sevenCrypto [unsignedGenesis]) 0 _ hchecked unsignedGenesis hstored).2
    (by decide +kernel)

end Blocklace

end CordialMiners
