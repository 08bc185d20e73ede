/-
# A blocklace and its cut

`P` is a cut of `B` at `c`: it has `c` as its checkpoint, stores the blocks of
`B` but for some that lie strictly below `c`, and every stored block other than
`c` keeps its references.  A prune yields a cut (`Pruned.cutAt`), and a cut stays
one while both sides take the same blocks (`CutAt.insert`).

Paths of the cut are the paths of the whole that do not run through the
references of `c` (`CutAt.sees_iff`), so both see the same of everything that is
not strictly below `c` (`CutAt.sees_iff_of_not_below`), and the rounds agree
(`CutAt.round_iff`).
-/

import CordialMiners.Pruning.Closure

namespace CordialMiners

open FinGraph Relation

namespace Blocklace

variable {B B' P P' : Blocklace} {a b c p x y : BlockIdentity} {d e : ℕ} {block : Block}

/-- `P` is `B` cut at the checkpoint `c`. -/
structure CutAt (B : Blocklace) (c : BlockIdentity) (P : Blocklace) : Prop where
  whole : B.checkpoint = none
  checkpoint : P.checkpoint = some c
  mem : c ∈ P.blocks
  lookup : ∀ x ∈ P.blocks, P.blocks.lookup x = B.blocks.lookup x
  complete : ∀ x ∈ P.blocks, x ≠ c → P.Complete x
  missing : ∀ x ∈ B.blocks, x ∉ P.blocks → B.Below x c
  depth : P.checkpointDepth = B.depth c
  depth_isSome : (B.depth c).isSome

/-- A reference that a path around `c` may take. -/
def StepAround (B : Blocklace) (c u v : BlockIdentity) : Prop := v ∈ B.expand u ∧ u ≠ c

/-- A path from `a` to `b` that does not run through the references of `c`. -/
def SeesAround (B : Blocklace) (c a b : BlockIdentity) : Prop :=
  ReflTransGen (B.StepAround c) a b

/-- A path of one or more such references from `b` to `a`. -/
def BelowAround (B : Blocklace) (c a b : BlockIdentity) : Prop :=
  TransGen (B.StepAround c) b a

/-- **A prune of a closed blocklace without checkpoint is a cut.** -/
theorem Pruned.cutAt (h : B.Pruned c P) (hcp : B.checkpoint = none) (hB : B.isClosed = true) :
    B.CutAt c P where
  whole := hcp
  checkpoint := h.checkpoint
  mem := h.mem_checkpoint
  lookup := fun _ hx => h.lookup hx
  complete := fun x hx hxc => (h.complete_iff hx hxc).2
    (isClosed_iff_complete.1 hB x (h.mem_iff.1 hx).1 (by simp [hcp]))
  missing := by
    intro x hx hxP
    have hd : B.Dropped c x := not_not.1 fun hnot => hxP (h.mem_iff.2 ⟨hx, hnot⟩)
    exact (sees_iff_eq_or_below.1 hd.1.1).resolve_left hd.1.2
  depth := h.depth
  depth_isSome := h.depth_isSome

namespace CutAt

theorem mem_whole (h : B.CutAt c P) (hx : x ∈ P.blocks) : x ∈ B.blocks := by
  obtain ⟨content, hl⟩ := exists_lookup hx
  exact mem_of_lookup ((h.lookup x hx).symm.trans hl)

theorem exists_round (h : B.CutAt c P) : ∃ d, B.Round c d := by
  obtain ⟨d, hd⟩ := Option.isSome_iff_exists.1 h.depth_isSome
  exact ⟨d, (depth_eq_some_of_mem (h.mem_whole h.mem)).1 hd⟩

/-- What is not strictly below the checkpoint is stored in the cut. -/
theorem mem_of_not_below (h : B.CutAt c P) (hx : x ∈ B.blocks) (hxc : ¬ B.Below x c) :
    x ∈ P.blocks := not_not.1 fun hxP => hxc (h.missing x hx hxP)

theorem resolveIdentity_whole (h : B.CutAt c P) (hp : P.resolveIdentity p = some x) :
    B.resolveIdentity p = some x := by
  rw [resolveIdentity_eq_some_iff] at hp ⊢
  exact ⟨h.mem_whole hp.1, hp.2⟩

/-- A stored block other than the checkpoint refers to the same blocks. -/
theorem refers_iff (h : B.CutAt c P) (hx : x ∈ P.blocks) (hxc : x ≠ c) :
    P.Refers x y ↔ B.Refers x y := by
  constructor
  · rintro ⟨content, hl, q, hq, hqy⟩
    exact ⟨content, (h.lookup x hx).symm.trans hl, q, hq, h.resolveIdentity_whole hqy⟩
  · rintro ⟨content, hl, q, hq, hqy⟩
    have hl' := (h.lookup x hx).trans hl
    obtain ⟨r, hr⟩ := h.complete x hx hxc content hl' q hq
    obtain rfl := Option.some.inj ((h.resolveIdentity_whole hr).symm.trans hqy)
    exact ⟨content, hl', q, hq, hr⟩

/-- **The references that the cut follows.** -/
theorem mem_expand_iff (h : B.CutAt c P) (hx : x ∈ P.blocks) :
    y ∈ P.expand x ↔ B.StepAround c x y := by
  unfold StepAround
  by_cases hxc : x = c
  · subst hxc
    simp [expand_checkpoint h.checkpoint]
  · have hcp : P.checkpoint ≠ some x := by
      rw [h.checkpoint]
      simpa using Ne.symm hxc
    rw [← refers_iff_mem_expand hcp hx, ← refers_iff_mem_expand (by simp [h.whole]) (h.mem_whole hx),
      h.refers_iff hx hxc]
    simp [hxc]

/-- **The paths of the cut are the paths around the checkpoint.** -/
theorem sees_iff (h : B.CutAt c P) (hx : x ∈ P.blocks) : P.Sees x y ↔ B.SeesAround c x y := by
  constructor
  · intro hxy
    induction hxy with
    | refl => exact ReflTransGen.refl
    | tail hpath hstep ih =>
        exact ReflTransGen.tail ih ((h.mem_expand_iff (Sees.mem hpath hx)).1 hstep)
  · intro hxy
    induction hxy with
    | refl => exact .refl P x
    | tail _ hstep ih => exact ReflTransGen.tail ih ((h.mem_expand_iff (ih.mem hx)).2 hstep)

theorem below_iff (h : B.CutAt c P) (hx : x ∈ P.blocks) : P.Below y x ↔ B.BelowAround c y x := by
  unfold Below BelowAround
  rw [TransGen.head'_iff, TransGen.head'_iff]
  refine exists_congr fun z => ?_
  constructor
  · rintro ⟨hstep, hpath⟩
    exact ⟨(h.mem_expand_iff hx).1 hstep, (h.sees_iff (mem_of_mem_expand hstep)).1 hpath⟩
  · rintro ⟨hstep, hpath⟩
    have hz := (h.mem_expand_iff hx).2 hstep
    exact ⟨hz, (h.sees_iff (mem_of_mem_expand hz)).2 hpath⟩

end CutAt

theorem SeesAround.sees (h : B.SeesAround c a b) : B.Sees a b := by
  induction h with
  | refl => exact .refl B a
  | tail _ hstep ih => exact ReflTransGen.tail ih hstep.1

/-- A path avoids the references of `c`, or reaches `c` before it takes one. -/
theorem Sees.around (h : B.Sees a b) : B.SeesAround c a b ∨ (B.SeesAround c a c ∧ B.Below b c) := by
  induction h with
  | refl => exact Or.inl ReflTransGen.refl
  | @tail u v _ hstep ih =>
      rcases ih with ih | ⟨hc, hbelow⟩
      · by_cases huc : u = c
        · subst huc
          exact Or.inr ⟨ih, TransGen.single hstep⟩
        · exact Or.inl (ReflTransGen.tail ih ⟨hstep, huc⟩)
      · exact Or.inr ⟨hc, TransGen.tail hbelow hstep⟩

namespace CutAt

theorem sees_whole (h : B.CutAt c P) (hx : x ∈ P.blocks) (hxy : P.Sees x y) : B.Sees x y :=
  ((h.sees_iff hx).1 hxy).sees

/-- What the cut no longer shows lies strictly below the checkpoint. -/
theorem sees_or_below (h : B.CutAt c P) (hx : x ∈ P.blocks) (hxy : B.Sees x y) :
    P.Sees x y ∨ (P.Sees x c ∧ B.Below y c) := by
  rcases hxy.around (c := c) with haround | ⟨hc, hbelow⟩
  · exact Or.inl ((h.sees_iff hx).2 haround)
  · exact Or.inr ⟨(h.sees_iff hx).2 hc, hbelow⟩

/-- **Both sides see the same of what is not strictly below the checkpoint.** -/
theorem sees_iff_of_not_below (h : B.CutAt c P) (hx : x ∈ P.blocks) (hy : ¬ B.Below y c) :
    P.Sees x y ↔ B.Sees x y :=
  ⟨h.sees_whole hx, fun hxy => (h.sees_or_below hx hxy).resolve_right fun hr => hy hr.2⟩

/-- **Rounds survive the cut.** -/
theorem round_iff (h : B.CutAt c P) : P.Round x d ↔ x ∈ P.blocks ∧ B.Round x d := by
  have hround : ∀ {e}, B.Round c e → P.Round c e := by
    intro e he
    have hr := Round.checkpoint h.mem h.checkpoint
    rwa [h.depth, he.depth, Option.getD_some] at hr
  have hcp : ∀ {x}, x ≠ c → P.checkpoint ≠ some x := by
    intro x hxc
    rw [h.checkpoint]
    simpa using Ne.symm hxc
  have hexp : ∀ {x y}, x ∈ P.blocks → x ≠ c → (y ∈ P.expand x ↔ y ∈ B.expand x) := by
    intro x y hx hxc
    rw [h.mem_expand_iff hx]
    simp [StepAround, hxc]
  constructor
  · intro hd
    refine ⟨hd.mem, ?_⟩
    induction hd with
    | @checkpoint c' hc' hcp' =>
        rw [h.checkpoint] at hcp'
        obtain rfl := Option.some.inj hcp'
        obtain ⟨e, he⟩ := h.exists_round
        rwa [h.depth, he.depth, Option.getD_some]
    | @step x d rd hx hxcp hcomp _ hlt htop ih =>
        have hxc : x ≠ c := by
          rintro rfl
          exact hxcp h.checkpoint
        refine .step rd (h.mem_whole hx) (by simp [h.whole]) ?_ (fun y hy => ih y ((hexp hx hxc).2 hy))
          (fun y hy => hlt y ((hexp hx hxc).2 hy)) ?_
        · intro content hl q hq
          obtain ⟨r, hr⟩ := hcomp content ((h.lookup x hx).trans hl) q hq
          exact ⟨r, h.resolveIdentity_whole hr⟩
        · exact htop.imp_right fun ⟨y, hy, hdy⟩ => ⟨y, (hexp hx hxc).1 hy, hdy⟩
  · rintro ⟨hx, hd⟩
    induction hd with
    | checkpoint _ hcp' => simp [h.whole] at hcp'
    | @step x d rd hxB hxcp hcomp hpred hlt htop ih =>
        by_cases hxc : x = c
        · subst hxc
          exact hround (.step rd hxB hxcp hcomp hpred hlt htop)
        · refine .step rd hx (hcp hxc) (h.complete x hx hxc) (fun y hy => ?_)
            (fun y hy => hlt y ((hexp hx hxc).1 hy)) ?_
          · exact ih y ((hexp hx hxc).1 hy) (mem_of_mem_expand hy)
          · exact htop.imp_right fun ⟨y, hy, hdy⟩ => ⟨y, (hexp hx hxc).2 hy, hdy⟩

/-- **The same insert on both sides keeps the cut.** -/
theorem insert (h : B.CutAt c P) (hB : B.Inserted block B') (hP : P.Inserted block P')
    (hk : B.KeepsReferences block) : B'.CutAt c P' := by
  have hext := hB.extends hk
  obtain ⟨d, hc⟩ := h.exists_round
  have hcp : B'.checkpoint = B.checkpoint := hB.checkpoint
  have hround' : B'.Round c d := hext.round hcp (fun hne => absurd h.whole hne) hc
  have hmemB : ∀ {x}, x ∈ B'.blocks ↔ x = block.identity ∨ x ∈ B.blocks := by
    intro x
    rw [hB.blocks, AList.mem_insert]
  have hmemP : ∀ {x}, x ∈ P'.blocks ↔ x = block.identity ∨ x ∈ P.blocks := by
    intro x
    rw [hP.blocks, AList.mem_insert]
  have hresolve : ∀ {q r}, P.resolveIdentity q = some r → P'.resolveIdentity q = some r := by
    intro q r hr
    rw [resolveIdentity_eq_some_iff] at hr ⊢
    exact ⟨hmemP.2 (Or.inr hr.1), hr.2⟩
  refine ⟨hcp.trans h.whole, hP.checkpoint.trans h.checkpoint, hmemP.2 (Or.inr h.mem),
    fun x hx => ?_, fun x hx hxc content hl q hq => ?_, fun x hx hxP => ?_, ?_, ?_⟩
  · rw [hB.blocks, hP.blocks]
    by_cases hid : x = block.identity
    · subst hid
      rw [AList.lookup_insert, AList.lookup_insert]
    · rw [AList.lookup_insert_ne hid, AList.lookup_insert_ne hid]
      exact h.lookup x ((hmemP.1 hx).resolve_left hid)
  · by_cases hid : x = block.identity
    · subst hid
      rw [hP.blocks, AList.lookup_insert] at hl
      obtain rfl := Option.some.inj hl
      have hnone := List.filter_eq_nil_iff.1 hP.closed q hq
      rw [Option.isNone_iff_eq_none] at hnone
      obtain ⟨r, hr⟩ := Option.ne_none_iff_exists'.1 hnone
      exact ⟨r, hresolve hr⟩
    · rw [hP.blocks, AList.lookup_insert_ne hid] at hl
      obtain ⟨r, hr⟩ := h.complete x (mem_of_lookup hl) hxc content hl q hq
      exact ⟨r, hresolve hr⟩
  · rw [hmemP, not_or] at hxP
    have hbelow := h.missing x ((hmemB.1 hx).resolve_left hxP.1) hxP.2
    have hsees := (hext.sees_iff hcp hc).2 hbelow.sees
    refine (sees_iff_eq_or_below.1 hsees).resolve_left ?_
    rintro rfl
    exact hc.not_below_self hbelow
  · rw [hP.checkpointDepth, h.depth, hc.depth, hround'.depth]
  · rw [hround'.depth]
    rfl

end CutAt

end Blocklace

end CordialMiners
