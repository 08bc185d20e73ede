/-
# What evidence against a validator says

A node keeps evidence whenever a rejected block conflicts with a stored one, for
any list of delivered blocks: forged, unsigned, signed again or replayed.  The
pool does not authenticate what it keeps; that is left to the verification of
the evidence.

The stored block of the pair has passed validation, so its hash is right and its
signature, if it has one, is valid.  Of the rejected block nothing is known but
its creator field and that its identity is another one.  Unless a second block
with the same hash and creator was delivered, the two are incomparable all the
same (`evidence_names_conflict`).  A block with a wrong hash is enough to leave
evidence against a validator that made one block
(`evidence_against_honest_validator`).
-/

import CordialMiners.Validation.Authentic
import CordialMiners.Node.SimNode

namespace CordialMiners

open FinGraph Relation
open Blocklace (AdmitRun HashedLace ReportsEquivocation signedId sampleBlock listedCrypto
  threeBonds)

variable {crypto : BlockCrypto} {bonds : Bonds} {config : ValidationConfig} {S : Set Block}
  {B B' : Blocklace} {a b x : Block} {errors : List InvalidBlock} {node : SimNode} {v : NodeId}

/-- The stored block `a` and the rejected block `b` of a record against `v`. -/
structure Accusation (crypto : BlockCrypto) (bonds : Bonds) (config : ValidationConfig)
    (S : Set Block) (B : Blocklace) (v : NodeId) (a b : Block) : Prop where
  /-- On the way to `B` the node stored `a` and turned `b` away. -/
  turned_away : ∃ B₀, AdmitRun crypto bonds config S B₀ B ∧ B₀.Stores a ∧
    ReportsEquivocation crypto B₀ b bonds config
  stored_mem : a ∈ S
  rejected_mem : b ∈ S
  stored_creator : a.identity.creator = v
  rejected_creator : b.identity.creator = v
  distinct : a.identity ≠ b.identity
  hashed : a.Hashed crypto
  signed : a.identity.signature = [] ∨ a.Signed crypto
  /-- Without a second block of the hash and creator of `b`, the two conflict. -/
  conflict : (∀ y ∈ S, y.identity.consensusIdentity = b.identity.consensusIdentity →
      y.identity = b.identity) →
    a.identity.consensusIdentity ≠ b.identity.consensusIdentity ∧
      ¬ ObservesIn crypto S a b ∧ ¬ ObservesIn crypto S b a

/-- An accusation stays one as the blocklace grows. -/
theorem Accusation.grow (h : Accusation crypto bonds config S B v a b)
    (hrun : AdmitRun crypto bonds config S B B') : Accusation crypto bonds config S B' v a b := by
  obtain ⟨B₀, hto, hreports⟩ := h.turned_away
  exact { h with turned_away := ⟨B₀, hto.trans hrun, hreports⟩ }

/-- **A reported equivocation is an accusation.** -/
theorem Blocklace.HashedLace.exists_accusation (hchain : config.checkChainAxiom = true)
    (hfree : crypto.CollisionFree S) (h : HashedLace crypto S B) (hx : x ∈ S)
    (hreports : ReportsEquivocation crypto B x bonds config) :
    ∃ a, Accusation crypto bonds config S B x.identity.creator a x := by
  obtain ⟨hav, k, hk, hcreator, hne, hcomp⟩ := (Blocklace.reportsEquivocation_iff hchain).1 hreports
  obtain ⟨a, rfl, ha⟩ := Blocklace.exists_stores hk
  refine ⟨a, ⟨B, .refl B, ha, hreports⟩, h.mem a ha, hx, hcreator, rfl, hne, h.hashed a ha,
    h.signed a ha, fun hone => ?_⟩
  refine ⟨fun hcons => hne (hone a (h.mem a ha) hcons), fun hobs => hcomp (Or.inr ?_),
    fun hobs => hcomp (Or.inl ?_)⟩
  · -- `a` would see a stored copy of `x`, and that is `x`
    obtain ⟨p, hp, r, hr, y, hry, hcons⟩ := h.sees_of_observes hfree (h.complete a ha) hobs
    have hstep : r ∈ B.expand a.identity := by
      rw [Blocklace.expand_of_lookup ha (by simp [h.checkpoint])]
      exact List.mem_filterMap.2 ⟨p, hp, hr⟩
    have hbelow : B.Below y a.identity := TransGen.head' hstep hry
    obtain ⟨c, rfl, hc⟩ := Blocklace.exists_stores hbelow.mem
    rw [hone c (h.mem c hc) hcons] at hbelow
    exact ⟨x.identity, Blocklace.resolveIdentity_of_mem hbelow.mem, hbelow⟩
  · obtain ⟨p, hp, r, hr, y, hry, hcons⟩ := h.sees_of_observes hfree hav hobs
    have hy : y ∈ B.blocks := by
      obtain rfl | hbelow := Blocklace.sees_iff_eq_or_below.1 hry
      · exact Blocklace.resolveIdentity_mem hr
      · exact hbelow.mem
    exact ⟨p, hp, r, hr, Blocklace.eq_of_consensusIdentity_eq hy ha.mem hcons ▸ hry⟩

/-- Hash, signature, closure and chain are checked by default, and so by all checks. -/
theorem checks_of_default_or_strict (h : config = .default ∨ config = .strict) :
    config.checkContentHash = true ∧ config.checkSignature = true ∧
      config.checkClosure = true ∧ config.checkChainAxiom = true := by
  obtain rfl | rfl := h <;> exact ⟨rfl, rfl, rfl, rfl⟩

namespace SimNode

/-- Evidence against `v` is old, or `v` created the rejected block and an error
names an equivocation. -/
theorem evidenceFor_recordRejected_cases {pool : CordialEvidencePool}
    (h : (B.recordRejectedEquivocation x errors pool).2.evidenceFor v ≠ []) :
    pool.evidenceFor v ≠ [] ∨ v = x.identity.creator ∧
      ∃ conflicting, InvalidBlock.equivocation conflicting ∈ errors := by
  revert h
  unfold Blocklace.recordRejectedEquivocation
  refine List.foldlRecOn (motive := fun state => state.2.evidenceFor v ≠ [] → _) errors
    (Blocklace.recordConflict x B) Or.inl fun state ih error herror h => ?_
  obtain ⟨evidence, hevidence⟩ := List.exists_mem_of_ne_nil _ h
  obtain hold | ⟨hv, conflicting, -, -, -, rfl, -⟩ :=
    Blocklace.mem_evidenceFor_recordConflict hevidence
  · exact ih (List.ne_nil_of_mem hold)
  · exact Or.inr ⟨hv, conflicting, herror⟩

/-- What holds in every run: evidence comes with an accusation. -/
structure AccusationInv (crypto : BlockCrypto) (bonds : Bonds) (config : ValidationConfig)
    (S : Set Block) (node : SimNode) : Prop where
  bonds_eq : node.bonds = bonds
  config_eq : node.validationConfig = config
  lace : HashedLace crypto S node.blocklace
  waiting : BlockMap.toSet node.pending.bufferedBlocks ⊆ S
  evidence : ∀ v, node.evidence.evidenceFor v ≠ [] →
    ∃ a b, Accusation crypto bonds config S node.blocklace v a b

section Step

variable (hconfig : config = .default ∨ config = .strict) (hfree : crypto.CollisionFree S)

include hconfig hfree

theorem AccusationInv.receive (h : AccusationInv crypto bonds config S node) (hb : b ∈ S) :
    AccusationInv crypto bonds config S (node.step crypto (.receive b)) := by
  obtain ⟨hhash, hsig, hclosure, hchain⟩ := checks_of_default_or_strict hconfig
  simp only [step]
  obtain ⟨B', hadm, heq⟩ | ⟨errors, hinv, hcase⟩ := receiveBlock_cases crypto node b
  · rw [heq]
    rw [h.bonds_eq, h.config_eq] at hadm
    refine ⟨h.bonds_eq, h.config_eq, h.lace.admitted hhash hsig hclosure hb hadm, h.waiting,
      fun v hv => ?_⟩
    obtain ⟨a, c, hac⟩ := h.evidence v hv
    exact ⟨a, c, hac.grow (.store (.refl _) hb hadm)⟩
  · rw [h.bonds_eq, h.config_eq] at hinv
    have hevidence : ∀ v, (node.blocklace.recordRejectedEquivocation b errors
        node.evidence).2.evidenceFor v ≠ [] →
          ∃ a b, Accusation crypto bonds config S node.blocklace v a b := by
      intro v hv
      obtain hold | ⟨rfl, conflicting, herror⟩ := evidenceFor_recordRejected_cases hv
      · exact h.evidence v hold
      · have hreports : ReportsEquivocation crypto node.blocklace b bonds config :=
          ⟨conflicting, by rw [hinv]; exact herror⟩
        obtain ⟨a, ha⟩ := h.lace.exists_accusation hchain hfree hb hreports
        exact ⟨a, b, ha⟩
    obtain ⟨-, missing, heq⟩ | ⟨-, heq⟩ := hcase
    · rw [heq]
      refine ⟨h.bonds_eq, h.config_eq, h.lace, fun x hx => ?_, hevidence⟩
      obtain hx | rfl :=
        (PendingBlockBuffer.bufferBlock_spec node.pending b missing rfl).2.2.1 x hx
      · exact h.waiting hx
      · exact hb
    · rw [heq]
      exact ⟨h.bonds_eq, h.config_eq, h.lace, h.waiting, hevidence⟩

theorem AccusationInv.retry (h : AccusationInv crypto bonds config S node) :
    AccusationInv crypto bonds config S (node.step crypto .retry) := by
  obtain ⟨hhash, hsig, hclosure, hchain⟩ := checks_of_default_or_strict hconfig
  obtain ⟨replayed, reported, pending', B', -, hrep, hsub, -, -, -, heq⟩ :=
    retry_cases crypto node (by rw [h.config_eq]; exact hclosure)
  simp only [step]
  rw [heq]
  rw [h.bonds_eq, h.config_eq] at hrep
  have hrun := hrep.run.mono h.waiting
  refine ⟨h.bonds_eq, h.config_eq, h.lace.run hhash hsig hclosure hrun, fun x hx => ?_, ?_⟩
  · exact h.waiting (hrep.subset (hsub hx))
  · intro v
    refine List.foldlRecOn (motive := fun pool : CordialEvidencePool =>
      pool.evidenceFor v ≠ [] → ∃ a b, Accusation crypto bonds config S B' v a b) reported _
        (fun hv => ?_) ?_
    · obtain ⟨a, b, hab⟩ := h.evidence v hv
      exact ⟨a, b, hab.grow hrun⟩
    rintro pool ih ⟨x, errors⟩ hx hv
    obtain hold | ⟨rfl, conflicting, herror⟩ := evidenceFor_recordRejected_cases hv
    · exact ih hold
    · -- the error was found in a blocklace between the two
      obtain ⟨hxw, B₁, hto, hfrom, -, hinv⟩ := hrep.rejected x errors hx
      have hreports : ReportsEquivocation crypto B₁ x bonds config :=
        ⟨conflicting, by rw [hinv]; exact herror⟩
      obtain ⟨a, ha⟩ := (h.lace.run hhash hsig hclosure
        (hto.mono h.waiting)).exists_accusation hchain hfree (h.waiting hxw) hreports
      exact ⟨a, x, ha.grow (hfrom.mono h.waiting)⟩

/-- **Evidence comes with an accusation after every run.** -/
theorem accusationInv_run (id : NodeId) (policy : BufferPolicy) (cacheIdentity : ℕ)
    (events : List Event) (hevents : ∀ b ∈ received events, b ∈ S) :
    AccusationInv crypto bonds config S
      ((SimNode.new id bonds config policy cacheIdentity).run crypto events) := by
  induction events using List.reverseRecOn with
  | nil =>
      refine ⟨rfl, rfl, Blocklace.hashedLace_new cacheIdentity,
        fun _ hx => absurd hx BlockMap.mem_toSet_empty, fun v hv => absurd ?_ hv⟩
      rfl
  | append_singleton events event ih =>
      rw [received_append] at hevents
      have hinit := ih fun b hb => hevents b (List.mem_append_left _ hb)
      rw [run_append]
      cases event with
      | receive b =>
          exact hinit.receive hconfig hfree (hevents b (List.mem_append_right _ (by simp [received])))
      | retry => exact hinit.retry hconfig hfree

end Step

/-- **Evidence against a validator names two delivered blocks** that carry its
name and different identities; one has been stored and the other turned away.  Unless that
one was also delivered under a second signature, neither observes the other. -/
theorem evidence_names_conflict (hconfig : config = .default ∨ config = .strict) {id : NodeId}
    {policy : BufferPolicy} {cacheIdentity : ℕ} {events : List Event}
    (hfree : crypto.CollisionFree {b | b ∈ received events}) :
    let node := (SimNode.new id bonds config policy cacheIdentity).run crypto events
    node.hasEvidenceAgainst v = true →
      ∃ a b, Accusation crypto bonds config {b | b ∈ received events} node.blocklace v a b := by
  intro node h
  have hinv : AccusationInv crypto bonds config {b | b ∈ received events} node :=
    accusationInv_run hconfig hfree id policy cacheIdentity events fun _ hb => hb
  exact hinv.evidence v (by simpa [hasEvidenceAgainst] using h)

/-- A signed genesis block of creator `1`. -/
def honestGenesis : Block := sampleBlock (signedId 1 1) []

/-- A block that claims to be of creator `1`, under a hash that is not its own. -/
def forgedGenesis : Block := ⟨signedId 2 1, ⟨[5], []⟩⟩

/-- The forged block comes after the honest one. -/
def forgedDelivery : List Event := [.receive honestGenesis, .receive forgedGenesis]

/-- The evidence that the forged block leaves names the two. -/
theorem evidence_names_conflict_forgedDelivery :
    let crypto := listedCrypto [honestGenesis]
    ∃ a b, Accusation crypto threeBonds .default {b | b ∈ received forgedDelivery}
      ((SimNode.new ⟨[2]⟩ threeBonds .default .default 0).run crypto forgedDelivery).blocklace
      ⟨[1]⟩ a b := by
  intro crypto
  have hfree : ∀ a ∈ received forgedDelivery, ∀ b ∈ received forgedDelivery,
      crypto.blockHash a.identity.creator a.content =
        crypto.blockHash b.identity.creator b.content → a = b := by decide +kernel
  have hevidence : ((SimNode.new ⟨[2]⟩ threeBonds .default .default 0).run
      crypto forgedDelivery).hasEvidenceAgainst ⟨[1]⟩ = true := by decide +kernel
  refine evidence_names_conflict (.inl rfl) (fun a ha b hb heq => ?_) hevidence
  obtain rfl := hfree a ha b hb heq
  exact ⟨rfl, rfl, fun _ => Iff.rfl⟩

/-- **A forged block leaves evidence against a validator that made one block.** -/
theorem evidence_against_honest_validator :
    ∃ (crypto : BlockCrypto) (events : List Event) (v : NodeId),
      ((SimNode.new ⟨[2]⟩ threeBonds .default .default 0).run crypto
        events).hasEvidenceAgainst v = true ∧
      ¬ ∃ a ∈ received events, ∃ b ∈ received events,
        a.identity.creator = v ∧ b.identity.creator = v ∧
        a.identity.consensusIdentity ≠ b.identity.consensusIdentity ∧
        a.Hashed crypto ∧ a.Signed crypto ∧ b.Hashed crypto ∧ b.Signed crypto ∧
        ¬ ObservesIn crypto {b | b ∈ received events} a b ∧
        ¬ ObservesIn crypto {b | b ∈ received events} b a := by
  refine ⟨listedCrypto [honestGenesis], forgedDelivery, ⟨[1]⟩, by decide +kernel, ?_⟩
  rintro ⟨a, ha, b, hb, -, -, hne, haHash, -, hbHash, -, -, -⟩
  have hone : ∀ x ∈ received forgedDelivery, x.Hashed (listedCrypto [honestGenesis]) →
      x = honestGenesis := by decide +kernel
  exact hne (by rw [hone a ha haHash, hone b hb hbHash])

end SimNode

end CordialMiners
