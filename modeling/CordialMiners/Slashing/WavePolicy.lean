/-
# Authorizations in a finalized wave

`FinalizedEquivocationAuthorization` of `por/evidence.rs`.

A proof of equivocation is authorized in the round that a finalized wave opens, by a
block of that wave which carries its message, signed by a creator with weight.  The
blocks of the finalized output are tried in order.

`authorize_readable_carriers` says how far other blocks matter.  Everything in front
of the block that authorizes must be readable, for a payload behind `PAYLOAD_V2` that
cannot be decoded fails closed; what stands after it is never looked at.
-/

import CordialMiners.Slashing.Admission
import CordialMiners.Ratings.Interactions

namespace CordialMiners.Reputation

open Codec (bind_eq_ok check_eq_ok guard_eq_ok forM_eq_ok)

/-- The text of an error of `validate_finalized_rating_round`, which ends with no other
error of the last two kinds than an overflow of the round. -/
def InteractionError.roundText : InteractionError → String
  | .window error => error.text
  | .invalidWavelength => "finalized output wavelength must be non-zero"
  | .unknownFinalLeader => "final leader anchor is not present in the blocklace"
  | .finalizedRoundMismatch => "opened PoR round does not match the finalized output wave"
  | .ratingRound _ | .admission _ => "finalized wave cannot advance to a rating round"

/-- The node's own view of the wave that opened a round. -/
structure FinalizedEquivocationAuthorization where
  blocklace : Blocklace
  output : OrderedFinalizedOutput
  opened : FinalizedRatingRound
  authorizedValidators : Bonds
  opens : validateFinalizedRatingRound blocklace output opened = .ok ()

namespace FinalizedEquivocationAuthorization

/-- `new`. -/
def new (B : Blocklace) (output : OrderedFinalizedOutput) (opened : FinalizedRatingRound)
    (authorizedValidators : Bonds) : Except PorError FinalizedEquivocationAuthorization :=
  match h : validateFinalizedRatingRound B output opened with
  | .ok () => .ok ⟨B, output, opened, authorizedValidators, h⟩
  | .error error => .error (invalid error.roundText)

/-- The context is that of the opened round, and the offender has weight. -/
def InContext (policy : FinalizedEquivocationAuthorization)
    (context : EquivocationAuthorizationContext) (evidence : VerifiedEquivocationEvidence) : Prop :=
  context.round = policy.opened.ratingRound ∧
    context.sourceFinalizedWave = policy.opened.finalizedWave ∧
    policy.authorizedValidators.weight evidence.validator ≠ 0

instance (policy : FinalizedEquivocationAuthorization) (context : EquivocationAuthorizationContext)
    (evidence : VerifiedEquivocationEvidence) : Decidable (policy.InContext context evidence) :=
  inferInstanceAs (Decidable (_ ∧ _))

/-- A conflicting block must not be newer than the finalized wave. -/
def checkConflicting (policy : FinalizedEquivocationAuthorization) (block : Block) :
    Except PorError Unit := do
  let round ← okOr (invalid "equivocation ancestry is unavailable")
    (policy.blocklace.candidateDepth block.content)
  if (waveOfRound round policy.output.wavelength).all fun wave =>
      wave > policy.opened.finalizedWave.val then
    .error (invalid "equivocation is newer than the finalized source wave")
  else .ok ()

/-- Whether a carrier asks for the message in the context. -/
def asksFor (context : EquivocationAuthorizationContext) (payload : List Byte)
    (carrier : PorEquivocationAuthorization) : Bool :=
  carrier.shardId = context.shardId &&
    carrier.sourceFinalizedWave = context.sourceFinalizedWave.val &&
    carrier.round = context.round.val && carrier.message = payload

variable (env : PorEnv)

/-- The checks of a block that carries the message. -/
def checkAuthorization (policy : FinalizedEquivocationAuthorization) (block : Block) :
    Except PorError Unit := do
  let blockRound ← okOr (invalid "authorization block ancestry is unavailable")
    (policy.blocklace.depth block.identity)
  if waveOfRound blockRound policy.output.wavelength ≠ some policy.opened.finalizedWave.val ∨
      policy.authorizedValidators.weight block.identity.creator = 0 ∨
      env.crypto.blockHash block.identity.creator block.content ≠ block.identity.contentHash ∨
      !env.crypto.verify block.identity.contentHash block.identity.creator.bytes
        block.identity.signature then
    .error (invalid "invalid finalized equivocation authorization block")
  else .ok ()

/-- The loop over the output: the first block with the message decides. -/
def authorizeFrom (policy : FinalizedEquivocationAuthorization)
    (context : EquivocationAuthorizationContext) (payload : List Byte) :
    List BlockIdentity → Except PorError Unit
  | [] => .error (invalid "verified equivocation has no finalized authorization payload")
  | reference :: references => do
      let block ← okOr (invalid "finalized authorization block is unavailable")
        (policy.blocklace.get reference)
      let authorizations ← blockCarriers env block
      if ¬ authorizations.any (asksFor context payload) then
        authorizeFrom policy context payload references
      else policy.checkAuthorization env block

/-- `authorize`. -/
def authorize (policy : FinalizedEquivocationAuthorization)
    (context : EquivocationAuthorizationContext) (evidence : VerifiedEquivocationEvidence) :
    Except PorError Unit :=
  if ¬ policy.InContext context evidence then
    .error (invalid "equivocation is outside the authorized validator/round context")
  else do
    evidence.blocks.forM policy.checkConflicting
    let payload ← authorizationPayload context evidence.validator evidence.canonicalBytes
    policy.authorizeFrom env context payload policy.output.blocks

end FinalizedEquivocationAuthorization

section Carriers

variable (env : PorEnv)

/-- A carrier that asks for a penalty in the opened round. -/
def ForWave (opened : FinalizedRatingRound) (carrier : PorEquivocationAuthorization) : Prop :=
  checkpointEquivocationAuthorizationDomain.isPrefixOf carrier.message = false ∧
    carrier.sourceFinalizedWave = opened.finalizedWave.val ∧
    carrier.round = opened.ratingRound.val

instance (opened : FinalizedRatingRound) (carrier : PorEquivocationAuthorization) :
    Decidable (ForWave opened carrier) := inferInstanceAs (Decidable (_ ∧ _))

/-- Collect the carriers of one block, if it lies in the finalized wave. -/
def collectWaveCarriers (B : Blocklace) (output : OrderedFinalizedOutput)
    (opened : FinalizedRatingRound) (messages : OrderedSet PorEquivocationAuthorization)
    (reference : BlockIdentity) : Except PorError (OrderedSet PorEquivocationAuthorization) := do
  let block ← okOr (invalid "finalized block is unavailable") (B.get reference)
  let carriers ← blockCarriers env block
  if carriers.isEmpty then .ok messages
  else
    let round ← okOr (invalid "authorization ancestry is unavailable") (B.depth block.identity)
    .ok (if waveOfRound round output.wavelength = some opened.finalizedWave.val then
      (carriers.filter fun carrier => ForWave opened carrier).foldl OrderedSet.insert messages
    else messages)

/-- `finalized_authorizations`. -/
def finalizedAuthorizations (B : Blocklace) (output : OrderedFinalizedOutput)
    (opened : FinalizedRatingRound) : Except PorError (OrderedSet PorEquivocationAuthorization) :=
  output.blocks.foldlM (collectWaveCarriers env B output opened) OrderedSet.empty

end Carriers

namespace FinalizedEquivocationAuthorization

/-! ### Blocks that can be read, carry the message and authorize -/

variable {env : PorEnv} {policy : FinalizedEquivocationAuthorization}
  {context : EquivocationAuthorizationContext} {evidence : VerifiedEquivocationEvidence}
  {payload : List Byte} {reference : BlockIdentity}

/-- Every conflicting block lies in a wave up to the finalized one. -/
def Settled (policy : FinalizedEquivocationAuthorization)
    (evidence : VerifiedEquivocationEvidence) : Prop :=
  ∀ block ∈ evidence.blocks, ∃ round wave,
    policy.blocklace.candidateDepth block.content = some round ∧
      waveOfRound round policy.output.wavelength = some wave ∧
      wave ≤ policy.opened.finalizedWave.val

/-- The block is stored and its carriers are these. -/
def Reads (env : PorEnv) (policy : FinalizedEquivocationAuthorization) (reference : BlockIdentity)
    (block : Block) (carriers : List PorEquivocationAuthorization) : Prop :=
  policy.blocklace.get reference = some block ∧ blockCarriers env block = .ok carriers

/-- The block can be read. -/
def Readable (env : PorEnv) (policy : FinalizedEquivocationAuthorization)
    (reference : BlockIdentity) : Prop :=
  ∃ block carriers, policy.Reads env reference block carriers

/-- A block that carries the message. -/
def CarriesMessage (env : PorEnv) (policy : FinalizedEquivocationAuthorization)
    (context : EquivocationAuthorizationContext) (payload : List Byte)
    (reference : BlockIdentity) : Prop :=
  ∃ block carriers, policy.Reads env reference block carriers ∧
    ∃ carrier ∈ carriers, asksFor context payload carrier = true

/-- **A block that authorizes the message**: it carries it, in the finalized wave, with a
correct hash and signature, and its creator has weight. -/
def Authorizes (env : PorEnv) (policy : FinalizedEquivocationAuthorization)
    (context : EquivocationAuthorizationContext) (payload : List Byte)
    (reference : BlockIdentity) : Prop :=
  ∃ block carriers, policy.Reads env reference block carriers ∧
    (∃ carrier ∈ carriers, asksFor context payload carrier = true) ∧
    (∃ blockRound, policy.blocklace.depth block.identity = some blockRound ∧
      waveOfRound blockRound policy.output.wavelength = some policy.opened.finalizedWave.val) ∧
    policy.authorizedValidators.weight block.identity.creator ≠ 0 ∧
    env.crypto.blockHash block.identity.creator block.content = block.identity.contentHash ∧
    env.crypto.verify block.identity.contentHash block.identity.creator.bytes
      block.identity.signature = true

theorem checkConflicting_eq_ok {block : Block} :
    policy.checkConflicting block = .ok () ↔ ∃ round wave,
      policy.blocklace.candidateDepth block.content = some round ∧
        waveOfRound round policy.output.wavelength = some wave ∧
        wave ≤ policy.opened.finalizedWave.val := by
  unfold checkConflicting
  simp only [bind_eq_ok, okOr_eq_ok, guard_eq_ok]
  constructor
  · rintro ⟨round, hround, hwave, -⟩
    cases hw : waveOfRound round policy.output.wavelength with
    | none =>
        rw [hw] at hwave
        exact absurd Option.all_none hwave
    | some wave =>
        rw [hw, Option.all_some, decide_eq_true_eq] at hwave
        exact ⟨round, wave, hround, hw, not_lt.1 hwave⟩
  · rintro ⟨round, wave, hround, hwave, hle⟩
    refine ⟨round, hround, ?_, trivial⟩
    rw [hwave, Option.all_some, decide_eq_true_eq]
    exact not_lt.2 hle

theorem settled_iff : evidence.blocks.forM policy.checkConflicting = .ok () ↔
    policy.Settled evidence := by
  rw [forM_eq_ok]
  exact forall₂_congr fun block _ => checkConflicting_eq_ok

/-! ### The loop -/

theorem authorizeFrom_cons {block : Block} {carriers : List PorEquivocationAuthorization}
    (references : List BlockIdentity) (hreads : policy.Reads env reference block carriers) :
    policy.authorizeFrom env context payload (reference :: references) =
      if ¬ carriers.any (asksFor context payload) then
        policy.authorizeFrom env context payload references
      else policy.checkAuthorization env block := by
  rw [authorizeFrom, hreads.1, okOr]
  show (blockCarriers env block >>= _) = _
  rw [hreads.2]
  rfl

/-- A block that does not carry the message is passed over. -/
theorem authorizeFrom_cons_of_not_carries {block : Block}
    {carriers : List PorEquivocationAuthorization} (references : List BlockIdentity)
    (hreads : policy.Reads env reference block carriers)
    (hcarries : ¬ policy.CarriesMessage env context payload reference) :
    policy.authorizeFrom env context payload (reference :: references) =
      policy.authorizeFrom env context payload references := by
  rw [authorizeFrom_cons references hreads]
  refine if_pos fun hany => hcarries ?_
  exact ⟨block, carriers, hreads, List.any_eq_true.1 hany⟩

theorem checkAuthorization_eq_ok {block : Block} :
    policy.checkAuthorization env block = .ok () ↔
      (∃ blockRound, policy.blocklace.depth block.identity = some blockRound ∧
        waveOfRound blockRound policy.output.wavelength = some policy.opened.finalizedWave.val) ∧
      policy.authorizedValidators.weight block.identity.creator ≠ 0 ∧
      env.crypto.blockHash block.identity.creator block.content = block.identity.contentHash ∧
      env.crypto.verify block.identity.contentHash block.identity.creator.bytes
        block.identity.signature = true := by
  unfold checkAuthorization
  simp only [bind_eq_ok, okOr_eq_ok, guard_eq_ok, not_or, not_not,
    Bool.not_eq_true', Bool.not_eq_false, and_true]
  constructor
  · rintro ⟨blockRound, hdepth, hwave, hblock⟩
    exact ⟨⟨blockRound, hdepth, hwave⟩, hblock⟩
  · rintro ⟨⟨blockRound, hdepth, hwave⟩, hblock⟩
    exact ⟨blockRound, hdepth, hwave, hblock⟩

/-- A block that carries the message decides. -/
theorem authorizeFrom_cons_of_carries (references : List BlockIdentity)
    (hcarries : policy.CarriesMessage env context payload reference) :
    policy.authorizeFrom env context payload (reference :: references) = .ok () ↔
      policy.Authorizes env context payload reference := by
  obtain ⟨block, carriers, hreads, hany⟩ := hcarries
  rw [authorizeFrom_cons references hreads, if_neg (not_not.2 (List.any_eq_true.2 hany)),
    checkAuthorization_eq_ok]
  constructor
  · exact fun hblock => ⟨block, carriers, hreads, hany, hblock⟩
  · rintro ⟨block', -, ⟨hget, -⟩, -, hblock⟩
    obtain rfl := Option.some.inj (hreads.1.symm.trans hget)
    exact hblock

theorem Authorizes.carries (h : policy.Authorizes env context payload reference) :
    policy.CarriesMessage env context payload reference := by
  obtain ⟨block, carriers, hreads, hany, -⟩ := h
  exact ⟨block, carriers, hreads, hany⟩

/-- The loop ends well at a block that authorizes, with readable blocks in front of it. -/
theorem exists_authorizes_of_authorizeFrom {references : List BlockIdentity}
    (h : policy.authorizeFrom env context payload references = .ok ()) :
    ∃ before reference after, references = before ++ reference :: after ∧
      policy.Authorizes env context payload reference ∧
      ∀ earlier ∈ before, policy.Readable env earlier := by
  induction references with
  | nil => exact absurd h (by simp [authorizeFrom])
  | cons reference references ih =>
      have hreads : policy.Readable env reference := by
        rw [authorizeFrom] at h
        obtain ⟨block, hget, h⟩ := bind_eq_ok.1 h
        obtain ⟨carriers, hcarriers, -⟩ := bind_eq_ok.1 h
        exact ⟨block, carriers, okOr_eq_ok.1 hget, hcarriers⟩
      by_cases hcarries : policy.CarriesMessage env context payload reference
      · exact ⟨[], reference, references, rfl, (authorizeFrom_cons_of_carries _ hcarries).1 h,
          by simp⟩
      · obtain ⟨block, carriers, hblock⟩ := hreads
        rw [authorizeFrom_cons_of_not_carries references hblock hcarries] at h
        obtain ⟨before, found, after, rfl, hfound, hbefore⟩ := ih h
        exact ⟨reference :: before, found, after, rfl, hfound,
          List.forall_mem_cons.2 ⟨⟨block, carriers, hblock⟩, hbefore⟩⟩

/-- The loop ends well where a block authorizes and no earlier one is unreadable or carries
the message without authorizing it. -/
theorem authorizeFrom_of_authorizes {before after : List BlockIdentity}
    (h : policy.Authorizes env context payload reference)
    (hbefore : ∀ earlier ∈ before, policy.Readable env earlier ∧
      (policy.CarriesMessage env context payload earlier →
        policy.Authorizes env context payload earlier)) :
    policy.authorizeFrom env context payload (before ++ reference :: after) = .ok () := by
  induction before with
  | nil => exact (authorizeFrom_cons_of_carries after h.carries).2 h
  | cons earlier before ih =>
      obtain ⟨⟨⟨block, carriers, hreads⟩, hearlier⟩, hbefore⟩ := List.forall_mem_cons.1 hbefore
      by_cases hcarries : policy.CarriesMessage env context payload earlier
      · exact (authorizeFrom_cons_of_carries _ hcarries).2 (hearlier hcarries)
      · rw [List.cons_append, authorizeFrom_cons_of_not_carries _ hreads hcarries]
        exact ih hbefore

theorem authorize_eq_ok : policy.authorize env context evidence = .ok () ↔
    policy.InContext context evidence ∧ policy.Settled evidence ∧ ∃ payload,
      authorizationPayload context evidence.validator evidence.canonicalBytes = .ok payload ∧
        policy.authorizeFrom env context payload policy.output.blocks = .ok () := by
  unfold authorize
  rw [guard_eq_ok, not_not, check_eq_ok, settled_iff, bind_eq_ok]

/-- **What an authorization takes, and what is enough.**  A finalized block of the wave
authorizes the message, and every block in front of it can be read; that is enough where
the blocks in front of it that carry the same message authorize it too. -/
theorem authorize_readable_carriers (env : PorEnv) (policy : FinalizedEquivocationAuthorization)
    (context : EquivocationAuthorizationContext) (evidence : VerifiedEquivocationEvidence) :
    (policy.authorize env context evidence = .ok () →
      policy.InContext context evidence ∧ policy.Settled evidence ∧ ∃ payload,
        authorizationPayload context evidence.validator evidence.canonicalBytes = .ok payload ∧
        ∃ before reference after, policy.output.blocks = before ++ reference :: after ∧
          policy.Authorizes env context payload reference ∧
          ∀ earlier ∈ before, policy.Readable env earlier) ∧
    (policy.InContext context evidence → policy.Settled evidence →
      ∀ payload before reference after,
        authorizationPayload context evidence.validator evidence.canonicalBytes = .ok payload →
        policy.output.blocks = before ++ reference :: after →
        policy.Authorizes env context payload reference →
        (∀ earlier ∈ before, policy.Readable env earlier ∧
          (policy.CarriesMessage env context payload earlier →
            policy.Authorizes env context payload earlier)) →
        policy.authorize env context evidence = .ok ()) := by
  constructor
  · intro h
    obtain ⟨hcontext, hsettled, payload, hpayload, hloop⟩ := authorize_eq_ok.1 h
    exact ⟨hcontext, hsettled, payload, hpayload, exists_authorizes_of_authorizeFrom hloop⟩
  · intro hcontext hsettled payload before reference after hpayload hblocks hgood hbefore
    refine authorize_eq_ok.2 ⟨hcontext, hsettled, payload, hpayload, ?_⟩
    rw [hblocks]
    exact authorizeFrom_of_authorizes hgood hbefore

/-! ### A sample wave -/

open Blocklace (signedId listedCrypto threeBonds)

/-- The round that wave `1` opens. -/
def waveContext : EquivocationAuthorizationContext := ⟨[9], 1, 2⟩

/-- Two first blocks of creator `1`. -/
def waveConflict : CordialEquivocationEvidence := conflictClaim 1 31 0 []

/-- The message of the conflict. -/
def waveMessage : List Byte :=
  (authorizationPayload waveContext ⟨[1]⟩ (verifiedClaim waveConflict).canonicalBytes).toOption.getD []

/-- A block of creator `3` that carries the message, on top of one whose payload may be
spoiled. -/
def waveChain (spoiled : Bool) : List Block :=
  [⟨signedId 1 3, ⟨if spoiled then CordialBlockPayload.payloadV2 else [], []⟩⟩,
    ⟨signedId 2 3, ⟨CordialBlockPayload.payloadV2 ++
      carrierSerde.serialize ⟨[⟨[9], 1, 2, waveMessage⟩], ⟨[], [], [], 0⟩, [], [], []⟩,
      [signedId 1 3]⟩⟩]

/-- The hashes of the chain and of the conflict. -/
def waveEnv (spoiled : Bool) : PorEnv where
  hasher := sumHasher
  crypto := listedCrypto (waveChain spoiled ++ waveConflict.blocks)
  bincode := carrierBincode

/-- The chain is finalized up to its last block, each wave being one round. -/
def wavePolicy (spoiled : Bool) : FinalizedEquivocationAuthorization where
  blocklace := (Blocklace.new 0).growBy (waveChain spoiled)
  output := ⟨[signedId 1 3, signedId 2 3], some (signedId 2 3), 1⟩
  opened := ⟨1, 2⟩
  authorizedValidators := threeBonds
  opens := by cases spoiled <;> decide +kernel

/-- The block on top authorizes the message, whatever it stands on. -/
theorem authorizes_waveChain (spoiled : Bool) :
    (wavePolicy spoiled).Authorizes (waveEnv spoiled) waveContext waveMessage
      (signedId 2 3) := by
  refine ⟨⟨signedId 2 3, ⟨CordialBlockPayload.payloadV2 ++
      carrierSerde.serialize ⟨[⟨[9], 1, 2, waveMessage⟩], ⟨[], [], [], 0⟩, [], [], []⟩,
      [signedId 1 3]⟩⟩, [⟨[9], 1, 2, waveMessage⟩], ⟨?_, ?_⟩,
    ⟨_, List.mem_singleton_self _, ?_⟩, ⟨1, ?_, ?_⟩, ?_, ?_, ?_⟩ <;>
    cases spoiled <;> decide +kernel

/-- Without the spoiled payload the proof is authorized. -/
theorem authorize_readable_carriers_waveChain :
    (wavePolicy false).authorize (waveEnv false) waveContext (verifiedClaim waveConflict) =
      .ok () := by
  refine (authorize_readable_carriers _ _ _ _).2 (by decide +kernel)
    (settled_iff.1 (by decide +kernel)) waveMessage [signedId 1 3] (signedId 2 3) []
    (by decide +kernel) rfl (authorizes_waveChain false) ?_
  rintro _ (_ | ⟨_, ⟨⟩⟩)
  have hreads : (wavePolicy false).Reads (waveEnv false) (signedId 1 3)
      ⟨signedId 1 3, ⟨[], []⟩⟩ [] := ⟨by decide +kernel, by decide +kernel⟩
  refine ⟨⟨_, _, hreads⟩, ?_⟩
  rintro ⟨block, carriers, hblock, carrier, hcarrier, -⟩
  obtain rfl := Option.some.inj (hreads.1.symm.trans hblock.1)
  obtain rfl := Except.ok.inj (hreads.2.symm.trans hblock.2)
  exact absurd hcarrier List.not_mem_nil

/-- A payload that cannot be decoded hides the block that authorizes. -/
theorem authorize_spoiled_payload :
    ∃ (env : PorEnv) (policy : FinalizedEquivocationAuthorization)
      (context : EquivocationAuthorizationContext) (claim : CordialEquivocationEvidence)
      (evidence : VerifiedEquivocationEvidence) (payload : List Byte),
      verifyEquivocationEvidence env.crypto claim policy.blocklace = .ok evidence ∧
      policy.InContext context evidence ∧ policy.Settled evidence ∧
      authorizationPayload context evidence.validator evidence.canonicalBytes = .ok payload ∧
      (∃ reference ∈ policy.output.blocks, policy.Authorizes env context payload reference) ∧
      policy.authorize env context evidence ≠ .ok () :=
  ⟨waveEnv true, wavePolicy true, waveContext, waveConflict, verifiedClaim waveConflict,
    waveMessage, by decide +kernel, by decide +kernel, settled_iff.1 (by decide +kernel),
    by decide +kernel, ⟨signedId 2 3, by decide +kernel, authorizes_waveChain true⟩,
    by decide +kernel⟩

end FinalizedEquivocationAuthorization

end CordialMiners.Reputation
