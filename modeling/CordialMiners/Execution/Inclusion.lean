/-
# No deploy goes in twice

What `select_for_block` chooses against the scope that
`compute_deploys_in_scope` has walked.

The walk is cut at a block number and the choice at the start of the deploy, and
the two cuts meet: a deploy that has not expired started after the last block the
walk leaves out, so the block that holds it is inside (`mem_scope_of_visible`).
The walk is also cut at a payload that cannot be read.  The references of that
block are not followed, so the deploys behind it are not in scope, and a deploy
that is only there is chosen again (`deploy_not_included_twice_iff`,
`deploy_included_twice`).
-/

import CordialMiners.Execution.DeployPool

namespace CordialMiners

open FinGraph Relation

/-! ### What is chosen -/

/-- The deploy has started and has not expired at the block number. -/
def SignedDeploy.Live (d : SignedDeploy) (currentBlockNumber lifespan : ℕ) : Prop :=
  d.deploy.validAfterBlockNumber ≤ currentBlockNumber ∧
    isBlockExpired d.deploy.validAfterBlockNumber currentBlockNumber lifespan = false

instance (d : SignedDeploy) (currentBlockNumber lifespan : ℕ) :
    Decidable (d.Live currentBlockNumber lifespan) := inferInstanceAs (Decidable (_ ∧ _))

theorem isBlockExpired_eq_false_iff {validAfter currentBlockNumber lifespan : ℕ} :
    isBlockExpired validAfter currentBlockNumber lifespan = false ↔
      currentBlockNumber < lifespan ∨ currentBlockNumber - lifespan < validAfter := by
  unfold isBlockExpired
  split_ifs with h
  · rw [decide_eq_false_iff_not]
    omega
  · exact iff_of_true rfl (Or.inl (by omega))

/-- A block that holds a live deploy, and not before its start, is not older than
the lifespan. -/
theorem SignedDeploy.Live.earliest_le {d : SignedDeploy} {currentBlockNumber lifespan number : ℕ}
    (h : d.Live currentBlockNumber lifespan) (hstarted : d.deploy.validAfterBlockNumber ≤ number) :
    currentBlockNumber - lifespan ≤ number := by
  have hcut := isBlockExpired_eq_false_iff.1 h.2
  omega

theorem SignedDeploy.isSelectable_iff {d : SignedDeploy}
    {currentBlockNumber currentTimeMillis lifespan : ℕ} {deploysInScope : List (List Byte)} :
    d.isSelectable currentBlockNumber currentTimeMillis lifespan deploysInScope = true ↔
      d.Live currentBlockNumber lifespan ∧
        (∀ expiration, d.deploy.expirationTimestamp = some expiration →
          currentTimeMillis ≤ expiration) ∧
        d.signature ∉ deploysInScope := by
  unfold SignedDeploy.isSelectable SignedDeploy.Live
  simp only [Bool.and_eq_true, decide_eq_true_iff, Bool.not_eq_true', Option.all_eq_true]
  tauto

namespace DeployPool

/-- What `add` asks of every deploy that it takes. -/
def Admitted (pool : DeployPool) : Prop :=
  ∀ d ∈ pool.deploys.entries.map Sigma.snd,
    d.signature ≠ [] ∧ pool.config.minPhloPrice ≤ d.deploy.phloPrice

theorem admitted_new (config : DeployPoolConfig) : (DeployPool.new config).Admitted := by
  simp [Admitted, DeployPool.new]

theorem Admitted.add {pool pool' : DeployPool} {d : SignedDeploy} (h : pool.Admitted)
    (hadd : pool.add d = .ok pool') : pool'.Admitted := by
  unfold DeployPool.add at hadd
  split_ifs at hadd with hsig hprice hnew
  obtain rfl := Except.ok.inj hadd
  intro found hfound
  simp only [AList.entries_insert_of_notMem hnew, List.map_cons, List.mem_cons] at hfound
  rcases hfound with rfl | hfound
  · exact ⟨hsig, not_lt.1 hprice⟩
  · exact h found hfound

variable {pool : DeployPool} {currentBlockNumber currentTimeMillis : ℕ}
  {deploysInScope : List (List Byte)} {selected : SelectedDeploys} {d : SignedDeploy}

/-- What is chosen may go in. -/
theorem mem_selectable_of_selectForBlock
    (h : pool.selectForBlock currentBlockNumber currentTimeMillis deploysInScope = some selected)
    (hd : d ∈ selected.deploys) :
    d ∈ pool.selectable currentBlockNumber currentTimeMillis deploysInScope := by
  have hlast : ∀ {xs : List SignedDeploy}, d ∈ xs.getLast?.toList → d ∈ xs := fun hmem =>
    List.mem_of_getLast? (Option.mem_toList.1 hmem)
  unfold selectForBlock at h
  dsimp only at h
  split_ifs at h with hall hone hzero
  · obtain rfl := Option.some.inj h
    exact hd
  · obtain rfl := Option.some.inj h
    exact List.mem_insertionSort _ |>.1 (hlast hd)
  · obtain rfl := Option.some.inj h
    rcases List.mem_append.1 hd with htake | hmem
    · exact List.mem_insertionSort _ |>.1 (List.mem_of_mem_take htake)
    · exact List.mem_insertionSort _ |>.1 (hlast hmem)

/-- The pool that holds one deploy. -/
def single (d : SignedDeploy) (lifespan : ℕ) : DeployPool where
  deploys := AList.singleton d.signature d
  config := { deployLifespan := lifespan, minPhloPrice := 0 }
  keyed := by
    intro entry hentry
    rw [AList.singleton_entries, List.mem_singleton] at hentry
    rw [hentry]

theorem admitted_single {lifespan : ℕ} (h : d.signature ≠ []) : (single d lifespan).Admitted := by
  simp [Admitted, single, h]

/-- A live deploy out of scope is chosen from it. -/
theorem selectForBlock_single {lifespan : ℕ} (hlive : d.Live currentBlockNumber lifespan)
    (hscope : d.signature ∉ deploysInScope) :
    (single d lifespan).selectForBlock currentBlockNumber 0 deploysInScope = some ⟨[d], false⟩ := by
  have hd : d.isSelectable currentBlockNumber 0 lifespan deploysInScope = true :=
    SignedDeploy.isSelectable_iff.2 ⟨hlive, fun _ _ => Nat.zero_le _, hscope⟩
  have hall : (single d lifespan).selectable currentBlockNumber 0 deploysInScope = [d] := by
    simp [selectable, single, hd]
  unfold selectForBlock
  rw [hall]
  exact if_pos (by simp [single])

end DeployPool

/-! ### What the ancestry holds -/

namespace Blocklace

variable (bincode : Bincode) (B : Blocklace)

/-- The payload of the block that a reference names, where it can be read. -/
def payloadAt (id : BlockIdentity) : Option CordialBlockPayload :=
  (B.content id).bind fun content =>
    (CordialBlockPayload.fromBytes bincode content.payload).toOption

/-- The references of the block that a reference names. -/
def references (id : BlockIdentity) : List BlockIdentity :=
  match B.content id with
  | none => []
  | some content => content.predecessors

/-- The same where its payload can be read. -/
def readableReferences (id : BlockIdentity) : List BlockIdentity :=
  if (B.payloadAt bincode id).isSome then B.references id else []

/-- The block that a reference names holds the deploy. -/
def Holds (id : BlockIdentity) (d : SignedDeploy) : Prop :=
  ∃ payload, B.payloadAt bincode id = some payload ∧ ∃ pd ∈ payload.deploys, pd.deploy = d

/-- One of the predecessors holds the deploy, or an ancestor of one. -/
def Included (predecessors : List BlockIdentity) (d : SignedDeploy) : Prop :=
  ∃ p ∈ predecessors, ∃ id, Reach B.references p id ∧ B.Holds bincode id d

/-- Block numbers grow along references, and no block holds a deploy before its
start. -/
structure Numbered : Prop where
  increasing : ∀ {a b : BlockIdentity} {older newer : CordialBlockPayload},
    TransGen (Step B.references) b a → B.payloadAt bincode a = some older →
      B.payloadAt bincode b = some newer → older.state.blockNumber < newer.state.blockNumber
  started : ∀ {id : BlockIdentity} {payload : CordialBlockPayload},
    B.payloadAt bincode id = some payload → ∀ pd ∈ payload.deploys,
      pd.deploy.deploy.validAfterBlockNumber ≤ payload.state.blockNumber

/-- A chain of blocks with readable payloads joins a predecessor to a block that
holds the deploy, or to one inside the lifespan that holds another deploy with its
signature. -/
def Visible (predecessors : List BlockIdentity) (currentBlockNumber lifespan : ℕ)
    (d : SignedDeploy) : Prop :=
  ∃ p ∈ predecessors, ∃ id, Reach (B.readableReferences bincode) p id ∧
    ∃ payload, B.payloadAt bincode id = some payload ∧ ∃ pd ∈ payload.deploys,
      pd.deploy.signature = d.signature ∧
        (pd.deploy = d ∨ currentBlockNumber - lifespan ≤ payload.state.blockNumber)

variable {bincode B} {id p : BlockIdentity} {earliest : ℕ} {content : BlockContent}
  {payload : CordialBlockPayload}

theorem payloadAt_eq_some_iff : B.payloadAt bincode id = some payload ↔
    ∃ content, B.content id = some content ∧
      CordialBlockPayload.fromBytes bincode content.payload = .ok payload := by
  unfold payloadAt
  simp only [Option.bind_eq_some_iff]
  refine exists_congr fun content => and_congr_right fun _ => ?_
  cases CordialBlockPayload.fromBytes bincode content.payload <;> simp [Except.toOption]

/-- What the walk reads: the payload and the references of a block inside. -/
theorem readInWindow_eq_some_iff : B.readInWindow bincode earliest id = some (content, payload) ↔
    B.content id = some content ∧ B.payloadAt bincode id = some payload ∧
      earliest ≤ payload.state.blockNumber := by
  unfold readInWindow payloadAt
  cases hcontent : B.content id with
  | none => simp
  | some found =>
      simp only [Option.bind_some, Option.some.injEq]
      cases hread : CordialBlockPayload.fromBytes bincode found.payload with
      | error message => simp [Except.toOption]
      | ok read =>
          simp only [Except.toOption, Option.some.injEq]
          split_ifs with hold
          · simp only [false_iff, not_and]
            rintro - rfl
            exact not_le.2 hold
          · simp only [Option.some.injEq, Prod.mk.injEq]
            refine and_congr_right fun _ => ⟨?_, And.left⟩
            rintro rfl
            exact ⟨rfl, not_lt.1 hold⟩

/-- Where the walk goes on. -/
theorem mem_windowReferences_iff : p ∈ B.windowReferences bincode earliest id ↔
    p ∈ B.references id ∧ ∃ payload, B.payloadAt bincode id = some payload ∧
      earliest ≤ payload.state.blockNumber := by
  unfold windowReferences references
  constructor
  · intro h
    split at h
    · simp at h
    · next content payload hread =>
      obtain ⟨hcontent, hpayload, hle⟩ := readInWindow_eq_some_iff.1 hread
      rw [hcontent]
      exact ⟨h, payload, hpayload, hle⟩
  · rintro ⟨h, payload, hpayload, hle⟩
    obtain ⟨content, hcontent, -⟩ := payloadAt_eq_some_iff.1 hpayload
    rw [readInWindow_eq_some_iff.2 ⟨hcontent, hpayload, hle⟩]
    rwa [hcontent] at h

theorem mem_readableReferences_iff : p ∈ B.readableReferences bincode id ↔
    p ∈ B.references id ∧ (B.payloadAt bincode id).isSome := by
  unfold readableReferences
  split_ifs with h <;> simp [h]

theorem mem_windowDeploys_iff {signature : List Byte} :
    signature ∈ B.windowDeploys bincode earliest id ↔
      ∃ payload, B.payloadAt bincode id = some payload ∧ earliest ≤ payload.state.blockNumber ∧
        ∃ pd ∈ payload.deploys, pd.deploy.signature = signature := by
  unfold windowDeploys
  constructor
  · intro h
    split at h
    · simp at h
    · next content payload hread =>
      obtain ⟨-, hpayload, hle⟩ := readInWindow_eq_some_iff.1 hread
      exact ⟨payload, hpayload, hle, List.mem_map.1 h⟩
  · rintro ⟨payload, hpayload, hle, h⟩
    obtain ⟨content, hcontent, -⟩ := payloadAt_eq_some_iff.1 hpayload
    rw [readInWindow_eq_some_iff.2 ⟨hcontent, hpayload, hle⟩]
    exact List.mem_map.2 h

/-! ### The cuts of the walk -/

theorem reach_references (h : Reach (B.readableReferences bincode) p id) :
    Reach B.references p id :=
  ReflTransGen.mono (fun _ _ hstep => (mem_readableReferences_iff.1 hstep).1) _ _ h

/-- A block with a number as large as `earliest` is met along readable payloads:
all blocks above it have larger numbers. -/
theorem reach_windowReferences (hnumbered : B.Numbered bincode)
    (h : Reach (B.readableReferences bincode) p id)
    (hpayload : B.payloadAt bincode id = some payload)
    (hle : earliest ≤ payload.state.blockNumber) :
    Reach (B.windowReferences bincode earliest) p id := by
  induction h using ReflTransGen.head_induction_on with
  | refl => exact ReflTransGen.refl
  | head hstep hrest ih =>
      obtain ⟨href, hread⟩ := mem_readableReferences_iff.1 hstep
      obtain ⟨newer, hnewer⟩ := Option.isSome_iff_exists.1 hread
      have hlt := hnumbered.increasing (TransGen.head' href (reach_references hrest)) hpayload hnewer
      exact ih.head (mem_windowReferences_iff.2 ⟨href, newer, hnewer, by omega⟩)

theorem reach_readableReferences (h : Reach (B.windowReferences bincode earliest) p id) :
    Reach (B.readableReferences bincode) p id := by
  refine ReflTransGen.mono (fun a b hstep => ?_) _ _ h
  obtain ⟨href, _, hpayload, -⟩ := mem_windowReferences_iff.1 hstep
  exact mem_readableReferences_iff.2 ⟨href, Option.isSome_of_eq_some hpayload⟩

variable {predecessors : List BlockIdentity} {currentBlockNumber lifespan : ℕ} {d : SignedDeploy}

/-- **The two cuts meet:** a live deploy that is visible is in scope. -/
theorem mem_scope_of_visible (hnumbered : B.Numbered bincode)
    (hlive : d.Live currentBlockNumber lifespan)
    (h : B.Visible bincode predecessors currentBlockNumber lifespan d) :
    d.signature ∈ B.computeDeploysInScope bincode predecessors currentBlockNumber lifespan := by
  obtain ⟨p, hp, id, hreach, payload, hpayload, pd, hpd, hsig, hcut⟩ := h
  have hle : currentBlockNumber - lifespan ≤ payload.state.blockNumber := by
    rcases hcut with rfl | hle
    · exact hlive.earliest_le (hnumbered.started hpayload pd hpd)
    · exact hle
  exact mem_computeDeploysInScope_iff.2 ⟨p, hp, id, reach_windowReferences hnumbered hreach hpayload hle,
    mem_windowDeploys_iff.2 ⟨payload, hpayload, hle, pd, hpd, hsig⟩⟩

theorem visible_of_mem_scope
    (h : d.signature ∈ B.computeDeploysInScope bincode predecessors currentBlockNumber lifespan) :
    B.Visible bincode predecessors currentBlockNumber lifespan d := by
  obtain ⟨p, hp, id, hreach, hmem⟩ := mem_computeDeploysInScope_iff.1 h
  obtain ⟨payload, hpayload, hle, pd, hpd, hsig⟩ := mem_windowDeploys_iff.1 hmem
  exact ⟨p, hp, id, reach_readableReferences hreach, payload, hpayload, pd, hpd, hsig, Or.inr hle⟩

/-- Where every payload of the ancestry can be read, every deploy of it is visible. -/
theorem visible_of_readable
    (hread : ∀ p ∈ predecessors, ∀ id, Reach B.references p id → (B.payloadAt bincode id).isSome)
    (h : B.Included bincode predecessors d) :
    B.Visible bincode predecessors currentBlockNumber lifespan d := by
  obtain ⟨p, hp, id, hreach, payload, hpayload, pd, hpd, rfl⟩ := h
  refine ⟨p, hp, id, ?_, payload, hpayload, pd, hpd, rfl, Or.inl rfl⟩
  have hall : ∀ id, Reach B.references p id → Reach (B.readableReferences bincode) p id := by
    intro id hid
    induction hid with
    | refl => exact ReflTransGen.refl
    | tail hprev hstep ih =>
        exact ih.tail (mem_readableReferences_iff.2 ⟨hstep, hread p hp _ hprev⟩)
  exact hall id hreach

/-- **No deploy of the ancestry is chosen again exactly where all its live deploys
are visible.** -/
theorem deploy_not_included_twice_iff (hnumbered : B.Numbered bincode)
    (predecessors : List BlockIdentity) (currentBlockNumber lifespan : ℕ) :
    (∀ pool : DeployPool, pool.Admitted → pool.config.deployLifespan = lifespan →
      ∀ (currentTimeMillis : ℕ) (selected : SelectedDeploys),
        pool.selectForBlock currentBlockNumber currentTimeMillis
            (B.computeDeploysInScope bincode predecessors currentBlockNumber
              pool.config.deployLifespan) = some selected →
          ∀ d ∈ selected.deploys, ¬ B.Included bincode predecessors d) ↔
      ∀ d, B.Included bincode predecessors d → d.signature ≠ [] →
        d.Live currentBlockNumber lifespan →
          B.Visible bincode predecessors currentBlockNumber lifespan d := by
  constructor
  · intro hsafe d hd hsig hlive
    by_contra hhidden
    have hscope := mt visible_of_mem_scope hhidden
    exact hsafe (.single d lifespan) (DeployPool.admitted_single hsig) rfl 0 _
      (DeployPool.selectForBlock_single hlive hscope) d (List.mem_singleton.2 rfl) hd
  · rintro hvisible pool hadmitted rfl time selected hselected d hd hhistory
    obtain ⟨hpool, hselectable⟩ :=
      List.mem_filter.1 (DeployPool.mem_selectable_of_selectForBlock hselected hd)
    obtain ⟨hlive, -, hscope⟩ := SignedDeploy.isSelectable_iff.1 hselectable
    exact hscope (mem_scope_of_visible hnumbered hlive
      (hvisible d hhistory (hadmitted d hpool).1 hlive))

/-! ### A deploy behind a payload that cannot be read -/

/-- `bincode` on payloads without rejected and system deploys, of which it knows the
listed ones. -/
def knownBincode (known : List CordialBlockPayload) : Bincode where
  legacy :=
    { serialize := fun payload => acceptedBytes payload.1 payload.2.1
      deserialize := fun bytes =>
        match known.find? fun payload => acceptedBytes payload.state payload.deploys = bytes with
        | some payload => .ok (payload.state, payload.deploys, [], [])
        | none => .error "io error: unexpected end of file" }
  payload :=
    { serialize := fun payload => Codec.leBytes 8 0 ++ acceptedBytes payload.state payload.deploys
      deserialize := fun _ => .error "io error: unexpected end of file" }
  authorizations :=
    { serialize := fun _ => Codec.leBytes 8 0
      deserialize := fun _ => .error "io error: unexpected end of file" }

/-- A deploy that may go in from the start. -/
def firstDeploy : SignedDeploy := ⟨⟨[64], 1, 1, 100, 0, "root", none⟩, [5], [6], .secp256k1⟩

/-- The payload of the first block. -/
def firstPayload : CordialBlockPayload := ⟨[], ⟨[], [7], [], 0⟩, [⟨firstDeploy, 10, false⟩], [], []⟩

/-- The payload of the next block. -/
def nextPayload : CordialBlockPayload := ⟨[], ⟨[7], [8], [], 1⟩, [], [], []⟩

/-- A block with the first payload. -/
def firstBlock : Block := ⟨sampleId 1 1, ⟨acceptedBytes firstPayload.state firstPayload.deploys, []⟩⟩

/-- A block above it. -/
def heirBlock : Block :=
  ⟨sampleId 2 1, ⟨acceptedBytes nextPayload.state nextPayload.deploys, [firstBlock.identity]⟩⟩

/-- A block above it with one byte as its payload. -/
def garbledBlock : Block := ⟨sampleId 3 2, ⟨[0], [firstBlock.identity]⟩⟩

/-- The three blocks. -/
def garbledLace : Blocklace := (new 0).growBy [firstBlock, heirBlock, garbledBlock]

/-- `bincode` on the payloads of the two blocks. -/
def garbledBincode : Bincode := knownBincode [firstPayload, nextPayload]

theorem payloadAt_garbledLace {id : BlockIdentity} {payload : CordialBlockPayload}
    (h : garbledLace.payloadAt garbledBincode id = some payload) :
    payload = firstPayload ∧ garbledLace.references id = [] ∨
      payload = nextPayload ∧ garbledLace.references id = [firstBlock.identity] := by
  obtain ⟨content, hcontent, hread⟩ := payloadAt_eq_some_iff.1 h
  obtain ⟨r, -, hlookup⟩ := Option.bind_eq_some_iff.1 hcontent
  have hstored : content ∈ garbledLace.blocks.entries.map Sigma.snd :=
    List.mem_map.2 ⟨⟨r, content⟩, mem_entries_iff.2 hlookup, rfl⟩
  have hcontents : garbledLace.blocks.entries.map Sigma.snd =
      [garbledBlock.content, heirBlock.content, firstBlock.content] := by decide +kernel
  rw [hcontents] at hstored
  unfold references
  rw [hcontent]
  simp only [List.mem_cons, List.not_mem_nil, or_false] at hstored
  rcases hstored with rfl | rfl | rfl
  · have hgarbled : CordialBlockPayload.fromBytes garbledBincode garbledBlock.content.payload =
        .error (CordialBlockPayload.decodeError "io error: unexpected end of file") := by
      decide +kernel
    rw [hgarbled] at hread
    exact absurd hread (by simp)
  · have hnext : CordialBlockPayload.fromBytes garbledBincode heirBlock.content.payload =
        .ok nextPayload := by decide +kernel
    exact Or.inr ⟨Except.ok.inj (hread.symm.trans hnext), rfl⟩
  · have hfirst : CordialBlockPayload.fromBytes garbledBincode firstBlock.content.payload =
        .ok firstPayload := by decide +kernel
    exact Or.inl ⟨Except.ok.inj (hread.symm.trans hfirst), rfl⟩

theorem numbered_garbledLace : garbledLace.Numbered garbledBincode where
  increasing {a b older newer} hbelow holder hnewer := by
    have hhead : ∀ {c}, TransGen (Step garbledLace.references) c a →
        garbledLace.references c ≠ [] := by
      intro c hc hnil
      obtain ⟨x, hx, -⟩ := TransGen.head'_iff.1 hc
      rw [Step, hnil] at hx
      exact absurd hx List.not_mem_nil
    rcases payloadAt_garbledLace hnewer with ⟨rfl, hrefs⟩ | ⟨rfl, hrefs⟩
    · exact absurd hrefs (hhead hbelow)
    · obtain ⟨x, hx, hrest⟩ := TransGen.head'_iff.1 hbelow
      rw [Step, hrefs, List.mem_singleton] at hx
      subst hx
      rcases reflTransGen_iff_eq_or_transGen.1 hrest with rfl | hrest
      · rcases payloadAt_garbledLace holder with ⟨rfl, -⟩ | ⟨-, hrefs⟩
        · decide
        · exact absurd hrefs (by decide +kernel)
      · exact absurd (by decide +kernel) (hhead hrest)
  started {id payload} h pd hpd := by
    rcases payloadAt_garbledLace h with ⟨rfl, -⟩ | ⟨rfl, -⟩
    · rw [List.mem_singleton.1 hpd]
      decide
    · exact absurd hpd List.not_mem_nil

/-- The first block holds its deploy, below the garbled one. -/
theorem inHistory_firstDeploy :
    garbledLace.Included garbledBincode [garbledBlock.identity] firstDeploy :=
  ⟨garbledBlock.identity, List.mem_singleton.2 rfl, firstBlock.identity,
    ReflTransGen.single (show firstBlock.identity ∈ garbledLace.references _ by decide),
    firstPayload, by decide +kernel,
    ⟨firstDeploy, 10, false⟩, List.mem_singleton.2 rfl, rfl⟩

/-- Above the block that can be read the deploy is not chosen again. -/
theorem deploy_not_included_twice_nextBlock : garbledLace.Numbered garbledBincode ∧
    garbledLace.Included garbledBincode [heirBlock.identity] firstDeploy ∧
    ∀ (time : ℕ) (selected : SelectedDeploys),
      (DeployPool.single firstDeploy 50).selectForBlock 2 time
          (garbledLace.computeDeploysInScope garbledBincode [heirBlock.identity] 2 50) =
        some selected → firstDeploy ∉ selected.deploys := by
  have hhistory : garbledLace.Included garbledBincode [heirBlock.identity] firstDeploy :=
    ⟨heirBlock.identity, List.mem_singleton.2 rfl, firstBlock.identity,
      ReflTransGen.single (show firstBlock.identity ∈ garbledLace.references _ by decide),
      firstPayload, by decide +kernel,
      ⟨firstDeploy, 10, false⟩, List.mem_singleton.2 rfl, rfl⟩
  refine ⟨numbered_garbledLace, hhistory, fun time selected hselected hmem => ?_⟩
  refine (deploy_not_included_twice_iff numbered_garbledLace [heirBlock.identity] 2 50).2 ?_
    (.single firstDeploy 50) (DeployPool.admitted_single (by decide)) rfl time selected hselected
    firstDeploy hmem hhistory
  intro d hd _ _
  refine visible_of_readable (fun p hp id hreach => ?_) hd
  rw [List.mem_singleton.1 hp] at hreach
  obtain heq | ⟨x, hx, hrest⟩ := hreach.cases_head
  · rw [← heq]
    decide +kernel
  · have hrefs : garbledLace.references heirBlock.identity = [firstBlock.identity] := by
      decide +kernel
    rw [Step, hrefs, List.mem_singleton] at hx
    subst hx
    obtain heq | ⟨y, hy, -⟩ := hrest.cases_head
    · rw [← heq]
      decide +kernel
    · have hnil : garbledLace.references firstBlock.identity = [] := by decide +kernel
      rw [Step, hnil] at hy
      exact absurd hy List.not_mem_nil

/-- **Above the garbled block it is.** -/
theorem deploy_included_twice :
    ¬ ∀ (bincode : Bincode) (B : Blocklace) (predecessors : List BlockIdentity)
      (currentBlockNumber : ℕ) (pool : DeployPool) (currentTimeMillis : ℕ)
      (selected : SelectedDeploys),
      B.isClosed = true → B.Numbered bincode → predecessors ≠ [] →
      (∀ p ∈ predecessors, ∀ payload, B.payloadAt bincode p = some payload →
        payload.state.blockNumber < currentBlockNumber) →
      pool.Admitted →
      pool.selectForBlock currentBlockNumber currentTimeMillis
          (B.computeDeploysInScope bincode predecessors currentBlockNumber
            pool.config.deployLifespan) = some selected →
      ∀ d ∈ selected.deploys, ¬ B.Included bincode predecessors d := by
  intro h
  refine h garbledBincode garbledLace [garbledBlock.identity] 1 (.single firstDeploy 50) 0
    ⟨[firstDeploy], false⟩ (by decide +kernel) numbered_garbledLace (by simp) ?_
    (DeployPool.admitted_single (by decide)) ?_ firstDeploy (List.mem_singleton.2 rfl)
    inHistory_firstDeploy
  · intro p hp payload hpayload
    rw [List.mem_singleton.1 hp] at hpayload
    have hgarbled : garbledLace.payloadAt garbledBincode garbledBlock.identity = none := by
      decide +kernel
    rw [hgarbled] at hpayload
    exact absurd hpayload (by simp)
  · have hscope : garbledLace.computeDeploysInScope garbledBincode [garbledBlock.identity] 1 50 =
        [] := by decide +kernel
    have hlive : firstDeploy.Live 1 50 := by decide
    exact DeployPool.selectForBlock_single hlive (by
      show firstDeploy.signature ∉ garbledLace.computeDeploysInScope garbledBincode
        [garbledBlock.identity] 1 50
      rw [hscope]
      exact List.not_mem_nil)

end Blocklace

end CordialMiners
