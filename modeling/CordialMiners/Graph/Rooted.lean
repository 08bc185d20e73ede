/-
# Items that wait for what they refer to

An item comes with a list of references, and a reference may name items.  Some
references are available from the start (`base`); an item of the waiting set
`W` is rooted when each of its references is available or names a rooted
item.  Releasing one item whose references are all available makes the
references to it available and roots nothing else (`rooted_release`), so
the order of the releases does not matter; when nothing is left to release, no
waiting item is rooted (`not_rooted_of_stuck`).

With nothing available from the start, the rooted items are the largest part
of `W` that refers only to itself and has no cycle (`isGreatest_rooted`).
-/

import Mathlib.Data.Fintype.Card
import Mathlib.Order.WellFounded
import Mathlib.Logic.Relation
import Mathlib.Order.RelClasses
import Mathlib.Data.Set.Finite.Basic

namespace FinGraph

open Relation

variable {α ρ : Type*} {refs : α → List ρ} {names : ρ → α → Prop} {base base' : ρ → Prop}
  {W W' : Set α} {x y : α}

/-- The items of `W` whose references lead back to `base` in finitely many steps. -/
inductive Rooted (refs : α → List ρ) (names : ρ → α → Prop) (base : ρ → Prop) (W : Set α) :
    α → Prop
  | intro {x : α} (source : ρ → α) (mem : x ∈ W)
      (names_source : ∀ p ∈ refs x, ¬ base p → names p (source p))
      (rooted : ∀ p ∈ refs x, ¬ base p → Rooted refs names base W (source p)) :
      Rooted refs names base W x

/-- Every reference of the item is available. -/
def Available (refs : α → List ρ) (base : ρ → Prop) (x : α) : Prop := ∀ p ∈ refs x, base p

namespace Rooted

theorem mem (h : Rooted refs names base W x) : x ∈ W := by
  cases h with
  | intro _ hx _ _ => exact hx

theorem of_refs (hx : x ∈ W)
    (h : ∀ p ∈ refs x, base p ∨ ∃ y, names p y ∧ Rooted refs names base W y) :
    Rooted refs names base W x := by
  classical
  have hsource : ∀ p, ∃ y, p ∈ refs x → ¬ base p →
      names p y ∧ Rooted refs names base W y := by
    intro p
    by_cases hp : p ∈ refs x ∧ ¬ base p
    · obtain ⟨y, hy⟩ := (h p hp.1).resolve_left hp.2
      exact ⟨y, fun _ _ => hy⟩
    · exact ⟨x, fun h₁ h₂ => absurd ⟨h₁, h₂⟩ hp⟩
  choose source hs using hsource
  exact .intro source hx (fun p hp hb => (hs p hp hb).1) fun p hp hb => (hs p hp hb).2

theorem refs_cases (h : Rooted refs names base W x) {p : ρ} (hp : p ∈ refs x) :
    base p ∨ ∃ y, names p y ∧ Rooted refs names base W y := by
  cases h with
  | intro source _ hn hg =>
      by_cases hb : base p
      · exact Or.inl hb
      · exact Or.inr ⟨source p, hn p hp hb, hg p hp hb⟩

/-- More items and more available references root more. -/
theorem mono (hb : ∀ p, base p → base' p) (hW : W ⊆ W') (h : Rooted refs names base W x) :
    Rooted refs names base' W' x := by
  induction h with
  | intro source hx hn _ ih =>
      exact .intro source (hW hx) (fun p hp h => hn p hp fun hbp => h (hb p hbp))
        fun p hp h => ih p hp fun hbp => h (hb p hbp)

theorem of_available (hx : x ∈ W) (h : Available refs base x) : Rooted refs names base W x :=
  of_refs hx fun p hp => Or.inl (h p hp)

/-- What is rooted is rooted among any items that hold all that is rooted. -/
theorem restrict (hW : ∀ y, Rooted refs names base W y → y ∈ W') (h : Rooted refs names base W x) :
    Rooted refs names base W' x := by
  induction h with
  | @intro x source hx hn hg ih =>
      exact .intro source (hW x (.intro source hx hn hg)) hn fun p hp hb => ih p hp hb

end Rooted

/-- **Nothing is rooted once nothing can be released.** -/
theorem not_rooted_of_stuck (h : ∀ y ∈ W, ¬ Available refs base y) :
    ¬ Rooted refs names base W x := by
  intro hx
  induction hx with
  | intro source hmem hn _ ih =>
      refine h _ hmem fun p hp => ?_
      by_contra hb
      exact ih p hp hb

/-- **Releasing an item.**  When `y` is available, the rooted items are `y`
and those that are rooted once the references to `y` are available. -/
theorem rooted_release (hy : y ∈ W) (hav : Available refs base y)
    (hbase : ∀ p, base' p ↔ base p ∨ names p y) (hW : ∀ z, z ∈ W' ↔ z ∈ W ∧ z ≠ y) :
    Rooted refs names base W x ↔ x = y ∨ Rooted refs names base' W' x := by
  constructor
  · intro h
    induction h with
    | @intro x source hmem hn _ ih =>
        by_cases hxy : x = y
        · exact Or.inl hxy
        · refine Or.inr (.of_refs ((hW x).2 ⟨hmem, hxy⟩) fun p hp => ?_)
          by_cases hb : base p
          · exact Or.inl ((hbase p).2 (Or.inl hb))
          · obtain heq | hg := ih p hp hb
            · exact Or.inl ((hbase p).2 (Or.inr (heq ▸ hn p hp hb)))
            · exact Or.inr ⟨source p, hn p hp hb, hg⟩
  · rintro (rfl | h)
    · exact .of_available hy hav
    · induction h with
      | intro source hmem hn _ ih =>
          refine .of_refs ((hW _).1 hmem).1 fun p hp => ?_
          by_cases hb : base' p
          · obtain hb | hname := (hbase p).1 hb
            · exact Or.inl hb
            · exact Or.inr ⟨y, hname, .of_available hy hav⟩
          · exact Or.inr ⟨source p, hn p hp hb, ih p hp hb⟩

/-! ### The largest part without cycles -/

/-- Every reference of an item of `T` names an item of `T`. -/
def RefsClosed (refs : α → List ρ) (names : ρ → α → Prop) (T : Set α) : Prop :=
  ∀ x ∈ T, ∀ p ∈ refs x, ∃ y ∈ T, names p y

/-- `x` has a reference that names the item `y` of `T`. -/
def RefersIn (refs : α → List ρ) (names : ρ → α → Prop) (T : Set α) (x y : α) : Prop :=
  y ∈ T ∧ ∃ p ∈ refs x, names p y

/-- No item of `T` refers back to itself through items of `T`. -/
def NoCycle (refs : α → List ρ) (names : ρ → α → Prop) (T : Set α) : Prop :=
  ∀ x ∈ T, ¬ TransGen (RefersIn refs names T) x x

theorem NoCycle.mono {S T : Set α} (hTS : T ⊆ S) (h : NoCycle refs names S) :
    NoCycle refs names T := by
  intro x hx hcycle
  have hsub : RefersIn refs names T ≤ RefersIn refs names S := fun _ _ hab => ⟨hTS hab.1, hab.2⟩
  exact h x (hTS hx) (TransGen.mono hsub x x hcycle)

/-- A finite set without cycles has no infinite descent. -/
theorem NoCycle.acc {T : Set α} (hT : T.Finite) (h : NoCycle refs names T) (hx : x ∈ T) :
    Acc (flip (RefersIn refs names T)) x := by
  have : Finite T := hT
  let r : T → T → Prop := fun a b => TransGen (RefersIn refs names T) b.1 a.1
  have hirr : Std.Irrefl r := ⟨fun a => h a.1 a.2⟩
  have htrans : IsTrans T r := ⟨fun a b c hab hbc => TransGen.trans hbc hab⟩
  have hwf : WellFounded r := Finite.wellFounded_of_trans_of_irrefl r
  have hacc : ∀ a : T, Acc (flip (RefersIn refs names T)) a.1 := by
    intro a
    induction a using hwf.induction with
    | _ a ih => exact ⟨_, fun b hb => ih ⟨b, hb.1⟩ (.single hb)⟩
  exact hacc ⟨x, hx⟩

/-- A closed part without cycles is rooted. -/
theorem rooted_of_acc {T : Set α} (hTW : T ⊆ W) (hclosed : RefsClosed refs names T) (hx : x ∈ T)
    (hacc : Acc (flip (RefersIn refs names T)) x) : Rooted refs names base W x := by
  induction hacc with
  | intro x _ ih =>
      refine .of_refs (hTW hx) fun p hp => ?_
      obtain ⟨y, hyT, hy⟩ := hclosed x hx p hp
      exact Or.inr ⟨y, hy, ih y ⟨hyT, p, hp, hy⟩ hyT⟩

section NothingAvailable

variable (hnames : ∀ p, ∀ x ∈ W, ∀ y ∈ W, names p x → names p y → x = y)

include hnames

/-- Where a reference names one item at most, a rooted item is on no cycle. -/
theorem Rooted.not_transGen (h : Rooted refs names (fun _ => False) W x) :
    ¬ TransGen (RefersIn refs names {y | Rooted refs names (fun _ => False) W y}) x x := by
  induction h with
  | @intro x source hmem hn hg ih =>
      intro hcycle
      -- the first step of the cycle leads to a source of `x`, and the rest back to it
      obtain ⟨b, hb, hrest⟩ := TransGen.head'_iff.1 hcycle
      obtain ⟨hbg, p, hp, hpb⟩ := hb
      obtain rfl := hnames p _ hbg.mem _ (hg p hp id).mem hpb (hn p hp id)
      exact ih p hp id (TransGen.tail' hrest ⟨hbg, p, hp, hpb⟩)

/-- **The rooted items are the largest closed part without cycles.** -/
theorem isGreatest_rooted (hW : W.Finite) :
    IsGreatest {T | T ⊆ W ∧ RefsClosed refs names T ∧ NoCycle refs names T}
      {x | Rooted refs names (fun _ => False) W x} := by
  refine ⟨⟨fun x hx => hx.mem, fun x hx p hp => ?_, fun x hx => hx.not_transGen hnames⟩, ?_⟩
  · obtain hF | ⟨y, hy, hg⟩ := hx.refs_cases hp
    · exact hF.elim
    · exact ⟨y, hg, hy⟩
  · rintro T ⟨hTW, hclosed, hcycle⟩ x hx
    exact rooted_of_acc hTW hclosed hx (hcycle.acc (hW.subset hTW) hx)

end NothingAvailable

end FinGraph
