/-
# Causal order of the output

Whether a block that another one observes is output before it.

Nothing is output twice (`Emission.nodup`), and the fragments of successive
leaders line up: what a leader approves inside the closure of an earlier leader,
the earlier leader approves as well (`Approves.of_sees`), so it has been output.
Inside one fragment the sort follows direct references between approved blocks
only.  A leader does not approve the blocks of a creator it has seen equivocate,
and a causal path may run through such a block; `Connected` excludes this for the
blocks that no earlier leader approves, and then the output is causal
(`tau_output_causal`).  In `tau_breaks_causal_order` the path runs through the block
of an equivocator; in `tau_output_causal_laterFork` the fork shows only after the
path has been output.
-/

import CordialMiners.Ordering.Stability

namespace CordialMiners

open FinGraph Relation
open Codec (bind_eq_ok)

namespace Blocklace

variable {B : Blocklace} {L M a b x : BlockIdentity} {d : ℕ} {earlier out out' : List BlockIdentity}

/-- `z` is output of a block that the block of `y` observes. -/
def Observes (B : Blocklace) (y z : BlockIdentity) : Prop :=
  ∃ x ∈ B.observe y, x.consensusIdentity = z

/-- Distinct blocks of the output, one of which observes the other, stand in
causal order. -/
def CausalOrder (B : Blocklace) (out : List BlockIdentity) : Prop :=
  ∀ a ∈ out, ∀ b ∈ out, a ≠ b → B.Observes b a → out.idxOf a < out.idxOf b

theorem causalOrder_of_pairwise (h : out.Pairwise fun y z => ¬ B.Observes y z) :
    B.CausalOrder out := by
  intro a ha b hb hne hobs
  by_contra hnot
  have ha' := List.idxOf_lt_length_of_mem ha
  have hb' := List.idxOf_lt_length_of_mem hb
  have hlt : out.idxOf b < out.idxOf a := by
    refine lt_of_le_of_ne (not_lt.1 hnot) fun heq => hne ?_
    exact (List.idxOf_inj ha).1 heq.symm
  have hpair := List.pairwise_iff_getElem.1 h _ _ hb' ha' hlt
  rw [List.getElem_idxOf hb', List.getElem_idxOf ha'] at hpair
  exact hpair hobs

/-- A consensus identity names the stored block it belongs to. -/
theorem observes_consensusIdentity_iff (ha : a ∈ B.blocks) (hb : b ∈ B.blocks) :
    B.Observes a.consensusIdentity b.consensusIdentity ↔ B.Sees a b := by
  have hres : B.resolveIdentity a.consensusIdentity = some a :=
    resolveIdentity_eq_some_iff.2 ⟨ha, rfl, Or.inr rfl⟩
  unfold Observes
  constructor
  · rintro ⟨x, hx, heq⟩
    obtain ⟨a', ha', hsees⟩ := mem_observe_iff.1 hx
    obtain rfl := Option.some.inj (hres.symm.trans ha')
    rwa [← eq_of_consensusIdentity_eq (hsees.mem ha) hb heq]
  · exact fun h => ⟨b, mem_observe_iff.2 ⟨a, hres, h⟩, rfl⟩

/-- **What a leader approves inside an earlier closure, the earlier leader
approves.** -/
theorem Approves.of_sees (h : B.Approves L x) (hM : B.Sees L M) (hx : B.Sees M x) :
    B.Approves M x :=
  ⟨hx, fun s hs hc hne => h.comparable s (hM.trans hs) hc hne⟩

/-- What the output of a list of leaders holds. -/
structure Emission (B : Blocklace) (earlier out : List BlockIdentity) : Prop where
  nodup : out.Nodup
  approved : ∀ y ∈ out, ∃ x ∈ B.blocks, x.consensusIdentity = y ∧ ∃ M ∈ earlier, B.Approves M x
  all : ∀ M ∈ earlier, ∀ x, B.Approves M x → x.consensusIdentity ∈ out

theorem emission_nil (B : Blocklace) : B.Emission [] [] :=
  ⟨List.nodup_nil, by simp, by simp⟩

/-- **A fragment adds the blocks its leader approves, each once.** -/
theorem Emission.emitFragment (h : B.Emission earlier out) (hL : B.Round L d)
    (hout : B.emitFragment out L = .ok out') : B.Emission (earlier ++ [L]) out' := by
  obtain ⟨l, hl, hall, rfl⟩ := emitFragment_eq_ok.1 hout
  refine ⟨?_, fun y hy => ?_, fun M hM x hx => ?_⟩
  · refine List.nodup_append.2 ⟨h.nodup, hl.nodup_map fun x hx => freshSet_mem hx, ?_⟩
    rintro y hy z hz rfl
    obtain ⟨x, hx, rfl⟩ := List.mem_map.1 hz
    exact (hl.mem hx).2 hy
  · rcases List.mem_append.1 hy with hy | hy
    · obtain ⟨x, hx, hxy, M, hM, happ⟩ := h.approved y hy
      exact ⟨x, hx, hxy, M, List.mem_append_left _ hM, happ⟩
    · obtain ⟨x, hx, rfl⟩ := List.mem_map.1 hy
      exact ⟨x, freshSet_mem (hl.mem hx), rfl, L, by simp,
        (mem_approvedSet_iff hL).1 (hl.mem hx).1⟩
  · rcases List.mem_append.1 hM with hM | hM
    · exact List.mem_append_left _ (h.all M hM x hx)
    · rw [List.mem_singleton.1 hM] at hx
      by_cases hxo : x.consensusIdentity ∈ out
      · exact List.mem_append_left _ hxo
      · have hfresh : x ∈ B.freshSet L out := ⟨(mem_approvedSet_iff hL).2 hx, hxo⟩
        exact List.mem_append_right _ (List.mem_map.2 ⟨x, hall x hfresh, rfl⟩)

/-- `L` approves the block, and no earlier leader does. -/
def NewlyApproved (B : Blocklace) (earlier : List BlockIdentity) (L x : BlockIdentity) : Prop :=
  B.Approves L x ∧ ∀ M ∈ earlier, ¬ B.Approves M x

/-- Newly approved blocks that see each other are linked by references through
approved blocks. -/
def Connected (B : Blocklace) (earlier : List BlockIdentity) (L : BlockIdentity) : Prop :=
  ∀ a b, B.NewlyApproved earlier L a → B.NewlyApproved earlier L b → B.Sees b a →
    ReflTransGen (fun u v => v ∈ B.expand u ∧ B.Approves L v) b a

/-- A leader that has seen no fork approves all it sees, and links it. -/
theorem connected_of_approves (h : ∀ x, B.Sees L x → B.Approves L x) : B.Connected earlier L := by
  intro a b ha hb hab
  clear ha
  induction hab with
  | refl => exact ReflTransGen.refl
  | tail hsees hstep ih =>
      exact ih.tail ⟨hstep, h _ (hb.1.sees.trans (ReflTransGen.tail hsees hstep))⟩

theorem sees_of_linked (h : ReflTransGen (fun u v => v ∈ B.expand u ∧ B.Approves L v) b a) :
    B.Sees b a := by
  induction h with
  | refl => exact .refl B b
  | tail _ hstep ih => exact ReflTransGen.tail ih hstep.1

/-- **A connected fragment keeps the output causal.** -/
theorem Emission.pairwise (h : B.Emission earlier out) (hcp : B.checkpoint = none)
    (hL : B.Round L d) (hsees : ∀ M ∈ earlier, B.Sees L M) (hconn : B.Connected earlier L)
    (hpair : out.Pairwise fun y z => ¬ B.Observes y z)
    (hout : B.emitFragment out L = .ok out') : out'.Pairwise fun y z => ¬ B.Observes y z := by
  obtain ⟨l, hl, hall, rfl⟩ := emitFragment_eq_ok.1 hout
  have hstored : ∀ {y}, y ∈ l → y ∈ B.blocks := fun hy => freshSet_mem (hl.mem hy)
  have happ : ∀ {y}, y ∈ l → B.Approves L y := fun hy => (mem_approvedSet_iff hL).1 (hl.mem hy).1
  have hnew : ∀ {y}, y ∈ l → B.NewlyApproved earlier L y := fun hy =>
    ⟨happ hy, fun M hM hMy => (hl.mem hy).2 (h.all M hM _ hMy)⟩
  -- a block seen from an output block is output, if the leader approves it
  have hdone : ∀ {u v}, u ∈ B.blocks → u.consensusIdentity ∈ out → B.Sees u v → B.Approves L v →
      v.consensusIdentity ∈ out := by
    intro u v hu huo huv hv
    obtain ⟨u', hu', heq, M, hM, hMu⟩ := h.approved _ huo
    obtain rfl := eq_of_consensusIdentity_eq hu' hu heq
    exact h.all M hM v (hv.of_sees (hsees M hM) (hMu.sees.trans huv))
  refine List.pairwise_append.2 ⟨hpair, List.pairwise_map.2 ?_, ?_⟩
  · -- inside the fragment a path of references leads to earlier positions
    have hpath : ∀ {y z}, y ∈ l → z ∈ l →
        ReflTransGen (fun u v => v ∈ B.expand u ∧ B.Approves L v) y z →
        l.idxOf z ≤ l.idxOf y := by
      intro y z hy hz hyz
      induction hyz using ReflTransGen.head_induction_on with
      | refl => exact le_rfl
      | @head u v huv hvz ih =>
          have hvz' : B.Sees v z := sees_of_linked hvz
          have hvl : v ∈ l := by
            refine hall v ⟨(mem_approvedSet_iff hL).2 huv.2, fun hvo => ?_⟩
            exact (hl.mem hz).2 (hdone (mem_of_mem_expand huv.1) hvo hvz' (happ hz))
          have hlt : l.idxOf v < l.idxOf u :=
            Greedy.idxOf_lt hl (hl.mem hvl) hy
              ((refers_iff_mem_expand (by simp [hcp]) (hstored hy)).2 huv.1)
          exact (ih hvl).trans hlt.le
    refine (List.pairwise_iff_getElem.2 fun i j hi hj hij => ?_)
    have hyi := List.getElem_mem hi
    have hzj := List.getElem_mem hj
    rw [observes_consensusIdentity_iff (hstored hyi) (hstored hzj)]
    intro hsee
    have hle := hpath hyi hzj (hconn _ _ (hnew hzj) (hnew hyi) hsee)
    rw [(Greedy.nodup hl).idxOf_getElem, (Greedy.nodup hl).idxOf_getElem] at hle
    omega
  · intro y hy z hz
    obtain ⟨v, hv, rfl⟩ := List.mem_map.1 hz
    obtain ⟨u, hu, rfl, -⟩ := h.approved y hy
    rw [observes_consensusIdentity_iff hu (hstored hv)]
    intro huv
    exact (hl.mem hv).2 (hdone hu hy huv (happ hv))

/-- Emitting leaders, each of which sees those before it. -/
theorem Emission.foldlM (hcp : B.checkpoint = none) {leaders : List BlockIdentity}
    (hround : ∀ L ∈ leaders, ∃ d, B.Round L d)
    (hsees : (earlier ++ leaders).Pairwise fun M L => B.Sees L M)
    (h : B.Emission earlier out) (hout : leaders.foldlM B.emitFragment out = .ok out') :
    B.Emission (earlier ++ leaders) out' ∧
      ((∀ before L after, leaders = before ++ L :: after → B.Connected (earlier ++ before) L) →
        (out.Pairwise fun y z => ¬ B.Observes y z) →
          out'.Pairwise fun y z => ¬ B.Observes y z) := by
  induction leaders generalizing earlier out with
  | nil =>
      obtain rfl := Except.ok.inj hout
      exact ⟨by rwa [List.append_nil], fun _ hpair => hpair⟩
  | cons L leaders ih =>
      rw [List.foldlM_cons] at hout
      obtain ⟨next, hnext, hout⟩ := bind_eq_ok.1 hout
      obtain ⟨d, hL⟩ := hround L List.mem_cons_self
      rw [List.append_cons] at hsees ⊢
      obtain ⟨hemit, hrest⟩ := ih (fun x hx => hround x (List.mem_cons_of_mem _ hx)) hsees
        (h.emitFragment hL hnext) hout
      refine ⟨hemit, fun hconn hpair => hrest (fun before M after heq => ?_) ?_⟩
      · rw [List.append_assoc]
        exact hconn (L :: before) M after (congrArg (L :: ·) heq)
      have hfirst := hconn [] L leaders rfl
      rw [List.append_nil] at hfirst
      refine h.pairwise hcp hL (fun M hM => ?_) hfirst hpair hnext
      rw [List.pairwise_append] at hsees
      exact (List.pairwise_append.1 hsees.1).2.2 M hM L (List.mem_singleton_self L)

end Blocklace

namespace Ladder

open Blocklace

variable {ladder : Ladder} {Q : Quorum.Rule NodeId} {B : Blocklace} {w d : ℕ}
  {ls : LeaderSelection} {L : BlockIdentity} {base leaders : List BlockIdentity}

/-- Each leader of a chain sees those before it. -/
theorem Chain.pairwise_sees (hQ : ladder.Decides Q) (hL : B.Round L d)
    (h : ladder.Chain B w ls L base leaders) : leaders.Pairwise fun M L => B.Sees L M := by
  induction h generalizing d with
  | checkpoint => exact List.Pairwise.nil
  | first => exact List.pairwise_singleton _ _
  | next he hp hc ih =>
      have hbelow := previous_below hQ hL hp
      obtain ⟨e, -, hP⟩ := hL.of_below hbelow
      refine List.pairwise_append.2 ⟨ih hP, List.pairwise_singleton _ _, fun M hM N hN => ?_⟩
      rw [List.mem_singleton.1 hN]
      exact hbelow.sees.trans (hc.sees hQ hP hM)

/-- On the chain of the latest leader, each is connected in what those before it do not
approve. -/
def ChainConnected (ladder : Ladder) (B : Blocklace) (w : ℕ) (ls : LeaderSelection) : Prop :=
  ∀ L base leaders, ladder.latest B w ls = some L → ladder.Chain B w ls L base leaders →
    ∀ before M after, leaders = before ++ M :: after → B.Connected before M

/-- **The output lists no block twice, and is causal if the chain is connected.** -/
theorem tau_causal (hQ : ladder.Decides Q) (hcp : B.checkpoint = none) {w : ℕ}
    {ls : LeaderSelection} {out : List BlockIdentity} (h : ladder.tau B w ls = .ok out) :
    out.Nodup ∧ (ladder.ChainConnected B w ls → B.CausalOrder out) := by
  unfold tau at h
  cases hL : ladder.latest B w ls with
  | none =>
      rw [hL] at h
      obtain rfl := Except.ok.inj h
      exact ⟨List.nodup_nil, fun _ => causalOrder_of_pairwise List.Pairwise.nil⟩
  | some L =>
      rw [hL] at h
      obtain ⟨wave, hscan, -⟩ := (latest_iff hQ).1 hL
      obtain ⟨base, leaders, hc⟩ := exists_chain hQ w ls hscan.round
      obtain rfl := hc.base_eq hcp
      have hround : ∀ M ∈ leaders, ∃ d, B.Round M d := by
        intro M hM
        obtain ⟨e, -, he⟩ := hscan.round.of_sees (hc.sees hQ hscan.round hM)
        exact ⟨e, he⟩
      dsimp only at h
      have hout := (tauAtLeader_eq hQ hscan.round hc).symm.trans h
      obtain ⟨hemit, hcausal⟩ := Emission.foldlM hcp hround
        (by simpa using hc.pairwise_sees hQ hscan.round) B.emission_nil hout
      exact ⟨hemit.nodup, fun hconn =>
        causalOrder_of_pairwise (hcausal (hconn L [] leaders hL hc) List.Pairwise.nil)⟩

end Ladder

namespace Blocklace

variable {B : Blocklace}

/-- **The output of every blocklace reached by inserts lists no block twice, and
it is causal if every leader on the chain of the latest one is connected** in what
the leaders before it do not approve. -/
theorem tau_output_causal {token : ℕ} (hrun : InsertRun AnyBlock (Blocklace.new token) B)
    (wavelength n f : ℕ) (bonds : Bonds) (leaderSelection : LeaderSelection) :
    (∀ out, B.tau wavelength n f leaderSelection = .ok out → out.Nodup ∧
      ((countLadder n f).ChainConnected B wavelength leaderSelection → B.CausalOrder out)) ∧
    (∀ out, B.weightedTau wavelength bonds leaderSelection = .ok out → out.Nodup ∧
      ((stakeLadder (.fromBonds bonds)).ChainConnected B wavelength leaderSelection →
        B.CausalOrder out)) := by
  have hcp : B.checkpoint = none := hrun.checkpoint
  exact ⟨fun _ h => Ladder.tau_causal (countLadder_decides n f) hcp h,
    fun _ h => Ladder.tau_causal (stakeLadder_decides bonds) hcp h⟩

/-- `b` observes `a` through the block of creator `2`, and the leader also sees
the other block of creator `2`. -/
def equivocatedPath : Blocklace :=
  (Blocklace.new 0).growBy
    [sampleBlock (sampleId 9 3) [], sampleBlock (sampleId 6 2) [],
      sampleBlock (sampleId 5 2) [sampleId 9 3],
      sampleBlock (sampleId 1 4) [sampleId 5 2],
      sampleBlock (sampleId 20 1) [sampleId 1 4, sampleId 6 2]]

/-- Creator `1` leads wave `3`. -/
def thirdLeader : LeaderSelection := fun wave => if wave = 3 then some ⟨[1]⟩ else none

/-- The leader approves `a` and `b` but not the equivocator's block between them,
so `b`, with the smaller hash, is output first. -/
theorem tau_breaks_causal_order :
    InsertRun AnyBlock (Blocklace.new 0) equivocatedPath ∧
      equivocatedPath.tau 1 1 0 thirdLeader =
        .ok [sampleId 1 4, sampleId 9 3, sampleId 20 1] ∧
      ¬ equivocatedPath.CausalOrder
        [sampleId 1 4, sampleId 9 3, sampleId 20 1] := by
  refine ⟨insertRun_growBy (by decide +kernel), by decide +kernel, fun h => ?_⟩
  have hobs : sampleId 9 3 ∈ equivocatedPath.observe (sampleId 1 4) := by
    decide +kernel
  have hlt := h (sampleId 9 3) (by simp) (sampleId 1 4) (by simp) (by decide)
    ⟨sampleId 9 3, hobs, by decide⟩
  exact absurd hlt (by decide)

/-- A leader orders the path before the next one sees that creator `2` has forked. -/
def laterFork : Blocklace :=
  (Blocklace.new 0).growBy
    [sampleBlock (sampleId 9 3) [], sampleBlock (sampleId 5 2) [sampleId 9 3],
      sampleBlock (sampleId 1 4) [sampleId 5 2],
      sampleBlock (sampleId 7 1) [sampleId 1 4], sampleBlock (sampleId 6 2) [],
      sampleBlock (sampleId 20 1) [sampleId 7 1, sampleId 6 2]]

/-- Creator `1` leads waves `3` and `4`. -/
def laterLeaders : LeaderSelection := fun wave =>
  if wave = 3 ∨ wave = 4 then some ⟨[1]⟩ else none

/-- The later leader approves the ends of the path and not the block between them, which
the earlier one has ordered. -/
theorem chainConnected_laterFork : (countLadder 1 0).ChainConnected laterFork 1 laterLeaders := by
  have hround : ∀ {L d}, laterFork.depth L = some d → L ∈ laterFork.blocks →
      laterFork.Round L d := fun hd hL => (depth_eq_some_of_mem hL).1 hd
  have hr₁ : laterFork.Round (sampleId 7 1) 3 := hround (by decide +kernel) (by decide +kernel)
  have hr₂ : laterFork.Round (sampleId 20 1) 4 := hround (by decide +kernel) (by decide +kernel)
  have hall : ∀ x ∈ laterFork.observe (sampleId 7 1),
      laterFork.approves (sampleId 7 1) x = true := by decide +kernel
  have honly : ∀ x ∈ laterFork.observe (sampleId 20 1),
      laterFork.approves (sampleId 20 1) x = true →
        laterFork.approves (sampleId 7 1) x = true ∨ x = sampleId 20 1 := by
    decide +kernel
  have hlast : ∀ x, laterFork.NewlyApproved [sampleId 7 1] (sampleId 20 1) x →
      x = sampleId 20 1 := by
    rintro x ⟨hx, hnew⟩
    have hseen := (mem_observe_of_mem hr₂.mem).2 hx.sees
    exact (honly x hseen ((approves_iff hr₂).2 hx)).resolve_left fun h =>
      hnew _ (List.mem_singleton_self _) ((approves_iff hr₁).1 h)
  intro L base leaders hL hc before M after hleaders
  have hlatest : (countLadder 1 0).latest laterFork 1 laterLeaders = some (sampleId 20 1) := by
    decide +kernel
  obtain rfl := Option.some.inj (hlatest.symm.trans hL)
  have hchain : (countLadder 1 0).Chain laterFork 1 laterLeaders (sampleId 20 1) _
      ([sampleId 7 1] ++ [sampleId 20 1]) :=
    .next (by decide +kernel) (P := sampleId 7 1) (by decide +kernel)
      (.first (by decide +kernel) (by decide +kernel))
  rw [(hc.unique hchain).2] at hleaders
  rcases before with _ | ⟨first, before⟩
  · obtain ⟨rfl, -⟩ := List.cons.inj hleaders
    exact connected_of_approves fun x hx =>
      (approves_iff hr₁).1 (hall x ((mem_observe_of_mem hr₁.mem).2 hx))
  · obtain ⟨rfl, hrest⟩ := List.cons.inj hleaders
    rcases before with _ | ⟨second, before⟩
    · obtain ⟨rfl, -⟩ := List.cons.inj hrest
      intro a b ha hb _
      rw [hlast a ha, hlast b hb]
    · exact absurd (congrArg List.length (List.cons.inj hrest).2) (by simp)

/-- The path stays in causal order, though creator `2` has forked. -/
theorem tau_output_causal_laterFork :
    laterFork.tau 1 1 0 laterLeaders = .ok [sampleId 9 3, sampleId 5 2,
        sampleId 1 4, sampleId 7 1, sampleId 20 1] ∧
      laterFork.CausalOrder [sampleId 9 3, sampleId 5 2, sampleId 1 4,
        sampleId 7 1, sampleId 20 1] := by
  have hout : laterFork.tau 1 1 0 laterLeaders = .ok [sampleId 9 3, sampleId 5 2,
      sampleId 1 4, sampleId 7 1, sampleId 20 1] := by decide +kernel
  exact ⟨hout, ((tau_output_causal (insertRun_growBy (by decide +kernel)) 1 1 0 ⟨∅, by decide⟩
    laterLeaders).1 _ hout).2 chainConnected_laterFork⟩

end Blocklace

end CordialMiners
