/-
# Readers and the encodings they undo

A reader takes a value from the front of its input and leaves the rest, or fails
with an error.  `Decodes read encode Valid` says all there is to say about one:
it reads `a` and leaves `rest` exactly where `a` is valid and the input is the
encoding of `a` followed by `rest`.  Such readers are put together from smaller
ones: fixed lengths, numbers of a fixed width, lengths in front of what they
count, many items one after the other, and items that must not repeat.

A valid value is then the only one with its encoding, whatever follows it
(`Decodes.append_inj`).
-/

import Mathlib.Data.List.ReduceOption
import Mathlib.Tactic

namespace Codec

variable {σ ε α β : Type}

/-- A byte has 256 values. -/
instance neZeroByte : NeZero 256 := ⟨by decide⟩

theorem map_eq_ok {x : Except ε α} {g : α → β} {out : β} :
    x.map g = .ok out ↔ ∃ a, x = .ok a ∧ g a = out := by
  cases x <;> simp [Except.map]

theorem bind_eq_ok {x : Except ε α} {g : α → Except ε β} {out : β} :
    (x >>= g) = .ok out ↔ ∃ a, x = .ok a ∧ g a = .ok out := by
  cases x <;> simp [bind, Except.bind]

theorem bind_eq_error {x : Except ε α} {g : α → Except ε β} {error : ε} :
    (x >>= g) = .error error ↔ x = .error error ∨ ∃ a, x = .ok a ∧ g a = .error error := by
  cases x <;> simp [bind, Except.bind]

/-- A step that succeeds leaves the rest to succeed. -/
theorem exists_bind_eq_ok {x : Except ε α} {g : α → Except ε β} {a : α} (hx : x = .ok a)
    (h : ∃ out, g a = .ok out) : ∃ out, (x >>= g) = .ok out := by
  obtain ⟨out, hout⟩ := h
  exact ⟨out, bind_eq_ok.2 ⟨a, hx, hout⟩⟩

theorem exists_eq_ok_of_isOk {x : Except ε α} (h : x.isOk = true) : ∃ a, x = .ok a := by
  cases x with
  | error e => simp [Except.isOk, Except.toBool] at h
  | ok a => exact ⟨a, rfl⟩

theorem eq_ok_of_toOption {x : Except ε α} {a : α} (h : x.toOption = some a) : x = .ok a := by
  cases x with
  | error error => cases h
  | ok b => exact congrArg Except.ok (Option.some.inj h)

/-- A check in front of a computation. -/
theorem check_eq_ok {x : Except ε Unit} {g : Unit → Except ε β} {out : β} :
    (x >>= g) = .ok out ↔ x = .ok () ∧ g () = .ok out := by
  rw [bind_eq_ok]
  constructor
  · rintro ⟨⟨⟩, hx, hg⟩
    exact ⟨hx, hg⟩
  · rintro ⟨hx, hg⟩
    exact ⟨(), hx, hg⟩

/-- A refusal in front of a computation. -/
theorem guard_eq_ok {bad : Prop} [Decidable bad] {error : ε} {x : Except ε α} {a : α} :
    (if bad then .error error else x) = .ok a ↔ ¬bad ∧ x = .ok a := by
  split_ifs with h <;> simp [h]

/-- A mapped list succeeds item by item. -/
theorem mapM_eq_ok {f : α → Except ε β} {l : List α} {out : List β} :
    l.mapM f = .ok out ↔ List.Forall₂ (fun a b => f a = .ok b) l out := by
  induction l generalizing out with
  | nil => cases out <;> simp [pure, Except.pure]
  | cons a l ih =>
      rw [List.mapM_cons, bind_eq_ok, List.forall₂_cons_left_iff]
      constructor
      · rintro ⟨b, hb, hrest⟩
        obtain ⟨rest, hrest, hout⟩ := bind_eq_ok.1 hrest
        exact ⟨b, rest, hb, ih.1 hrest, (Except.ok.inj hout).symm⟩
      · rintro ⟨b, rest, hb, hrest, rfl⟩
        exact ⟨b, hb, bind_eq_ok.2 ⟨rest, ih.2 hrest, rfl⟩⟩

/-- A mapped list fails at an item. -/
theorem exists_of_mapM_eq_error {f : α → Except ε β} {l : List α} {error : ε}
    (h : l.mapM f = .error error) : ∃ a ∈ l, f a = .error error := by
  induction l with
  | nil => simp [pure, Except.pure] at h
  | cons a l ih =>
      rw [List.mapM_cons, bind_eq_error] at h
      rcases h with ha | ⟨b, -, h⟩
      · exact ⟨a, List.mem_cons_self .., ha⟩
      · rcases bind_eq_error.1 h with hl | ⟨out, -, hpure⟩
        · obtain ⟨a', ha', hf⟩ := ih hl
          exact ⟨a', List.mem_cons_of_mem _ ha', hf⟩
        · cases hpure

/-- A list mapped by steps that agree with a function. -/
theorem mapM_eq_ok_map {f : α → Except ε β} {g : α → β} {l : List α}
    (h : ∀ a ∈ l, f a = .ok (g a)) : l.mapM f = .ok (l.map g) :=
  mapM_eq_ok.2 (List.forall₂_map_right_iff.2 (List.forall₂_same.2 h))

/-- Steps with one possible result each. -/
theorem mapM_eq_ok_map_iff {f : α → Except ε β} {g : α → β} {l : List α} {out : List β}
    (hg : ∀ a b, f a = .ok b → b = g a) :
    l.mapM f = .ok out ↔ out = l.map g ∧ ∀ a ∈ l, f a = .ok (g a) := by
  constructor
  · intro h
    have hall := mapM_eq_ok.1 h
    obtain rfl : out = l.map g := by
      rw [← List.forall₂_eq_eq_eq, List.forall₂_map_right_iff]
      exact List.Forall₂.flip (hall.imp hg)
    exact ⟨rfl, List.forall₂_same.1 (List.forall₂_map_right_iff.1 hall)⟩
  · rintro ⟨rfl, h⟩
    exact mapM_eq_ok_map h

/-- A loop succeeds where every step does. -/
theorem exists_mapM_eq_ok {f : α → Except ε β} {l : List α} (h : ∀ a ∈ l, ∃ b, f a = .ok b) :
    ∃ out, l.mapM f = .ok out := by
  induction l with
  | nil => exact ⟨[], rfl⟩
  | cons a l ih =>
      obtain ⟨⟨b, hb⟩, hl⟩ := List.forall_mem_cons.1 h
      obtain ⟨out, hout⟩ := ih hl
      exact ⟨b :: out, mapM_eq_ok.2 (.cons hb (mapM_eq_ok.1 hout))⟩

/-- What a loop with optional results leaves. -/
theorem reduceOption_of_mapM {f : α → Except ε (Option β)} {l : List α} {out : List (Option β)}
    (h : l.mapM f = .ok out) : out.reduceOption = l.filterMap fun a => (f a).toOption.join := by
  rw [mapM_eq_ok] at h
  induction h with
  | nil => rfl
  | @cons a b l out hab _ ih =>
      cases b with
      | none =>
          rw [List.reduceOption_cons_of_none, ih, List.filterMap_cons, hab]
          rfl
      | some b =>
          rw [List.reduceOption_cons_of_some, ih, List.filterMap_cons, hab]
          rfl

/-- Two mapped lists whose items agree where both succeed are equal. -/
theorem mapM_agree {f g : α → Except ε β} {l : List α} {out out' : List β}
    (h : ∀ a ∈ l, ∀ b b', f a = .ok b → g a = .ok b' → b = b') (hf : l.mapM f = .ok out)
    (hg : l.mapM g = .ok out') : out = out' := by
  induction l generalizing out out' with
  | nil => exact (Except.ok.inj hf).symm.trans (Except.ok.inj hg)
  | cons a l ih =>
      rw [List.mapM_cons, bind_eq_ok] at hf hg
      obtain ⟨b, hb, hf⟩ := hf
      obtain ⟨b', hb', hg⟩ := hg
      obtain ⟨rest, hrest, hf⟩ := bind_eq_ok.1 hf
      obtain ⟨rest', hrest', hg⟩ := bind_eq_ok.1 hg
      obtain rfl := h a List.mem_cons_self b b' hb hb'
      obtain rfl := ih (fun a ha => h a (List.mem_cons_of_mem _ ha)) hrest hrest'
      exact (Except.ok.inj hf).symm.trans (Except.ok.inj hg)

/-- A loop of checks passes when every check does. -/
theorem forM_eq_ok {f : α → Except ε Unit} {l : List α} :
    l.forM f = .ok () ↔ ∀ a ∈ l, f a = .ok () := by
  induction l with
  | nil => exact iff_of_true rfl (by simp)
  | cons a l ih =>
      show (f a >>= fun _ => l.forM f) = .ok () ↔ _
      rw [check_eq_ok, ih, List.forall_mem_cons]

/-- A search succeeds where every test does. -/
theorem exists_anyM_eq_ok {f : α → Except ε Bool} {l : List α}
    (h : ∀ a ∈ l, ∃ found, f a = .ok found) : ∃ found, l.anyM f = .ok found := by
  induction l with
  | nil => exact ⟨false, rfl⟩
  | cons a l ih =>
      obtain ⟨⟨found, hfound⟩, hl⟩ := List.forall_mem_cons.1 h
      rw [List.anyM_cons, hfound]
      cases found with
      | true => exact ⟨true, rfl⟩
      | false => exact ih hl

/-- Two searches whose tests agree where both succeed find the same. -/
theorem anyM_agree {f g : α → Except ε Bool} {l : List α} {found found' : Bool}
    (h : ∀ a ∈ l, ∀ b b', f a = .ok b → g a = .ok b' → b = b') (hf : l.anyM f = .ok found)
    (hg : l.anyM g = .ok found') : found = found' := by
  induction l with
  | nil => exact (Except.ok.inj hf).symm.trans (Except.ok.inj hg)
  | cons a l ih =>
      rw [List.anyM_cons, bind_eq_ok] at hf hg
      obtain ⟨b, hb, hf⟩ := hf
      obtain ⟨b', hb', hg⟩ := hg
      obtain rfl := h a List.mem_cons_self b b' hb hb'
      cases b with
      | true => exact (Except.ok.inj hf).symm.trans (Except.ok.inj hg)
      | false => exact ih (fun a ha => h a (List.mem_cons_of_mem _ ha)) hf hg

theorem mapError_eq_ok {ε' : Type} {x : Except ε α} {f : ε → ε'} {a : α} :
    x.mapError f = .ok a ↔ x = .ok a := by
  cases x <;> simp [Except.mapError]

/-- Reading from the front of a list. -/
abbrev Reader (σ ε α : Type) := StateT (List σ) (Except ε) α

/-- What it means that `read` undoes `encode` on the valid values. -/
def Decodes (read : Reader σ ε α) (encode : α → List σ) (Valid : α → Prop) : Prop :=
  ∀ input a rest, read.run input = .ok (a, rest) ↔ Valid a ∧ input = encode a ++ rest

section Sequence

theorem run_bind_eq_ok {read : Reader σ ε α} {next : α → Reader σ ε β} {input rest : List σ}
    {b : β} : (read >>= next).run input = .ok (b, rest) ↔
      ∃ a mid, read.run input = .ok (a, mid) ∧ (next a).run mid = .ok (b, rest) := by
  rw [StateT.run_bind, bind_eq_ok, Prod.exists]

theorem run_pure_eq_ok {input rest : List σ} {a b : α} :
    (pure a : Reader σ ε α).run input = .ok (b, rest) ↔ a = b ∧ input = rest := by
  rw [StateT.run_pure]
  simp [pure, Except.pure]

theorem run_throw_ne_ok {input rest : List σ} {a : α} {error : ε} :
    (throw error : Reader σ ε α).run input ≠ .ok (a, rest) := by
  simp [throw, throwThe, MonadExceptOf.throw, StateT.run, StateT.lift, bind, Except.bind]

theorem run_guard_eq_ok {bad : Prop} [Decidable bad] {read : Reader σ ε α} {error : ε}
    {input : List σ} {out : α × List σ} :
    (if bad then throw error else read : Reader σ ε α).run input = .ok out ↔
      ¬bad ∧ read.run input = .ok out := by
  split_ifs with h
  · exact iff_of_false run_throw_ne_ok (by simp [h])
  · simp [h]

theorem run_get_eq_ok {input rest state : List σ} :
    (get : Reader σ ε (List σ)).run input = .ok (state, rest) ↔ input = state ∧ input = rest := by
  rw [StateT.run_get]
  simp [pure, Except.pure]

theorem run_map_eq_ok {read : Reader σ ε α} {g : α → β} {input rest : List σ} {b : β} :
    (g <$> read).run input = .ok (b, rest) ↔
      ∃ a, read.run input = .ok (a, rest) ∧ g a = b := by
  rw [StateT.run_map]
  simp only [Functor.map, map_eq_ok, Prod.exists, Prod.mk.injEq]
  constructor
  · rintro ⟨a, mid, h, rfl, rfl⟩
    exact ⟨a, h, rfl⟩
  · rintro ⟨a, h, rfl⟩
    exact ⟨a, rest, h, rfl, rfl⟩

end Sequence

namespace Decodes

variable {read : Reader σ ε α} {encode : α → List σ} {Valid : α → Prop}

theorem run (h : Decodes read encode Valid) {a : α} (ha : Valid a) (rest : List σ) :
    read.run (encode a ++ rest) = .ok (a, rest) := (h _ a rest).2 ⟨ha, rfl⟩

/-- **A valid value is the only one with its encoding**, whatever follows. -/
theorem append_inj (h : Decodes read encode Valid) {a b : α} {rest rest' : List σ} (ha : Valid a)
    (hb : Valid b) (heq : encode a ++ rest = encode b ++ rest') : a = b ∧ rest = rest' := by
  have hread := h.run ha rest
  rw [heq, h.run hb rest'] at hread
  have := Except.ok.inj hread
  exact ⟨(Prod.mk.inj this).1.symm, (Prod.mk.inj this).2.symm⟩

theorem congr (h : Decodes read encode Valid) {Valid' : α → Prop}
    (hvalid : ∀ a, Valid a ↔ Valid' a) : Decodes read encode Valid' := fun input a rest => by
  rw [h input a rest, hvalid]

/-- Reading through a change of representation. -/
theorem map (h : Decodes read encode Valid) {f : α → β} {g : β → α} {Valid' : β → Prop}
    (hfg : ∀ a, Valid a → Valid' (f a) ∧ g (f a) = a)
    (hgf : ∀ b, Valid' b → Valid (g b) ∧ f (g b) = b) :
    Decodes (f <$> read) (fun b => encode (g b)) Valid' := by
  intro input b rest
  rw [run_map_eq_ok]
  constructor
  · rintro ⟨a, ha, rfl⟩
    obtain ⟨hvalid, rfl⟩ := (h _ a rest).1 ha
    refine ⟨(hfg a hvalid).1, ?_⟩
    dsimp only
    rw [(hfg a hvalid).2]
  · rintro ⟨hb, rfl⟩
    exact ⟨g b, h.run (hgf b hb).1 rest, (hgf b hb).2⟩

/-- A size in front of what it measures. -/
theorem sized {number : Reader σ ε ℕ} {encodeNumber : ℕ → List σ} {bound : ℕ}
    (hnumber : Decodes number encodeNumber (· < bound)) {read : ℕ → Reader σ ε α} {size : α → ℕ}
    (h : ∀ n, Decodes (read n) encode fun a => size a = n ∧ Valid a) :
    Decodes (number >>= read) (fun a => encodeNumber (size a) ++ encode a)
      fun a => size a < bound ∧ Valid a := by
  intro input a rest
  rw [run_bind_eq_ok]
  constructor
  · rintro ⟨n, mid, hn, hread⟩
    obtain ⟨hlt, rfl⟩ := (hnumber _ n mid).1 hn
    obtain ⟨⟨rfl, hvalid⟩, rfl⟩ := (h n _ a rest).1 hread
    exact ⟨⟨hlt, hvalid⟩, (List.append_assoc _ _ _).symm⟩
  · rintro ⟨⟨hlt, hvalid⟩, rfl⟩
    refine ⟨size a, encode a ++ rest, ?_, (h _).run ⟨rfl, hvalid⟩ rest⟩
    rw [List.append_assoc]
    exact hnumber.run hlt _

end Decodes

/-- A count of items, refused where the input is too short for items of at least
`width`. -/
def countWithin (number : Reader σ ε ℕ) (bad : ε) (width : ℕ) : Reader σ ε ℕ := do
  let n ← number
  let rest ← get
  if n > rest.length / width then throw bad else pure n

theorem run_countWithin_eq_ok {number : Reader σ ε ℕ} {bad : ε} {width n : ℕ}
    {input rest : List σ} : (countWithin number bad width).run input = .ok (n, rest) ↔
      number.run input = .ok (n, rest) ∧ n ≤ rest.length / width := by
  unfold countWithin
  simp only [run_bind_eq_ok, run_get_eq_ok]
  constructor
  · rintro ⟨m, mid, hm, state, mid', ⟨rfl, rfl⟩, h⟩
    split_ifs at h with hlong
    · exact absurd h run_throw_ne_ok
    · obtain ⟨rfl, rfl⟩ := run_pure_eq_ok.1 h
      exact ⟨hm, by omega⟩
  · rintro ⟨hn, hle⟩
    refine ⟨n, rest, hn, rest, rest, ⟨rfl, rfl⟩, ?_⟩
    rw [if_neg (by omega)]
    exact run_pure_eq_ok.2 ⟨rfl, rfl⟩

/-- A count in front of items, each at least `width` long: the check of the count
refuses nothing. -/
theorem Decodes.counted {number : Reader σ ε ℕ} {encodeNumber : ℕ → List σ} {bound width : ℕ}
    {bad : ε} (hwidth : 0 < width) (hnumber : Decodes number encodeNumber (· < bound))
    {read : ℕ → Reader σ ε α} {encode : α → List σ} {size : α → ℕ} {Valid : α → Prop}
    (h : ∀ n, Decodes (read n) encode fun a => size a = n ∧ Valid a)
    (hlong : ∀ a, Valid a → width * size a ≤ (encode a).length) :
    Decodes (countWithin number bad width >>= read) (fun a => encodeNumber (size a) ++ encode a)
      fun a => size a < bound ∧ Valid a := by
  intro input a rest
  rw [← (hnumber.sized h) input a rest]
  simp only [run_bind_eq_ok, run_countWithin_eq_ok]
  constructor
  · rintro ⟨n, mid, ⟨hn, -⟩, hread⟩
    exact ⟨n, mid, hn, hread⟩
  · rintro ⟨n, mid, hn, hread⟩
    refine ⟨n, mid, ⟨hn, ?_⟩, hread⟩
    obtain ⟨⟨rfl, hvalid⟩, rfl⟩ := (h n _ a rest).1 hread
    rw [Nat.le_div_iff_mul_le hwidth, List.length_append, Nat.mul_comm]
    exact (hlong a hvalid).trans (Nat.le_add_right _ _)

/-! ### Fixed lengths and numbers -/

/-- The next `n` items. -/
def take (bad : ε) (n : ℕ) : Reader σ ε (List σ) := fun input =>
  if n > input.length then .error bad else .ok (input.splitAt n)

theorem decodes_take (bad : ε) (n : ℕ) :
    Decodes (take bad n) id fun items : List σ => items.length = n := by
  intro input items rest
  unfold take StateT.run
  dsimp only
  split_ifs with hshort
  · refine iff_of_false (by simp) ?_
    rintro ⟨rfl, rfl⟩
    simp at hshort
  · simp only [List.splitAt_eq, Except.ok.injEq, Prod.mk.injEq, id]
    constructor
    · rintro ⟨rfl, rfl⟩
      exact ⟨List.length_take_of_le (by omega), (List.take_append_drop n input).symm⟩
    · rintro ⟨rfl, rfl⟩
      exact ⟨List.take_left, List.drop_left⟩

/-- The `w` lowest bytes of a number, the lowest first. -/
def leBytes : ℕ → ℕ → List (Fin 256)
  | 0, _ => []
  | w + 1, n => Fin.ofNat 256 n :: leBytes w (n / 256)

/-- The number whose bytes are given, the lowest first. -/
def ofLeBytes : List (Fin 256) → ℕ
  | [] => 0
  | b :: bytes => b.val + 256 * ofLeBytes bytes

/-- The highest byte first. -/
def beBytes (w n : ℕ) : List (Fin 256) := (leBytes w n).reverse

/-- The number whose bytes are given, the highest first. -/
def ofBeBytes (bytes : List (Fin 256)) : ℕ := ofLeBytes bytes.reverse

@[simp] theorem length_leBytes (w n : ℕ) : (leBytes w n).length = w := by
  induction w generalizing n with
  | zero => rfl
  | succ w ih => rw [leBytes, List.length_cons, ih]

theorem ofLeBytes_leBytes {w n : ℕ} (h : n < 256 ^ w) : ofLeBytes (leBytes w n) = n := by
  induction w generalizing n with
  | zero => simp_all [leBytes, ofLeBytes]
  | succ w ih =>
      have hdiv : n / 256 < 256 ^ w := by
        rw [Nat.div_lt_iff_lt_mul (by omega)]
        rwa [pow_succ] at h
      rw [leBytes, ofLeBytes, ih hdiv, Fin.val_ofNat]
      omega

theorem leBytes_ofLeBytes (bytes : List (Fin 256)) :
    leBytes bytes.length (ofLeBytes bytes) = bytes := by
  induction bytes with
  | nil => rfl
  | cons b bytes ih =>
      have hdiv : (b.val + 256 * ofLeBytes bytes) / 256 = ofLeBytes bytes := by omega
      have hmod : Fin.ofNat 256 (b.val + 256 * ofLeBytes bytes) = b := by
        apply Fin.ext
        rw [Fin.val_ofNat]
        omega
      rw [List.length_cons, leBytes, ofLeBytes, hdiv, hmod, ih]

theorem ofLeBytes_lt (bytes : List (Fin 256)) : ofLeBytes bytes < 256 ^ bytes.length := by
  induction bytes with
  | nil => simp [ofLeBytes]
  | cons b bytes ih =>
      rw [ofLeBytes, List.length_cons, pow_succ]
      omega

@[simp] theorem length_beBytes (w n : ℕ) : (beBytes w n).length = w := by simp [beBytes]

theorem ofBeBytes_beBytes {w n : ℕ} (h : n < 256 ^ w) : ofBeBytes (beBytes w n) = n := by
  rw [ofBeBytes, beBytes, List.reverse_reverse, ofLeBytes_leBytes h]

theorem beBytes_ofBeBytes {w : ℕ} {bytes : List (Fin 256)} (h : bytes.length = w) :
    beBytes w (ofBeBytes bytes) = bytes := by
  have hle := leBytes_ofLeBytes bytes.reverse
  rw [List.length_reverse, h] at hle
  rw [beBytes, ofBeBytes, hle, List.reverse_reverse]

theorem ofBeBytes_lt {w : ℕ} {bytes : List (Fin 256)} (h : bytes.length = w) :
    ofBeBytes bytes < 256 ^ w := by
  have hlt := ofLeBytes_lt bytes.reverse
  rwa [List.length_reverse, h] at hlt

/-- A number of `w` bytes. -/
theorem decodes_number (bad : ε) (w : ℕ) :
    Decodes (ofBeBytes <$> take bad w) (beBytes w) (· < 256 ^ w) :=
  (decodes_take bad w).map (fun _ h => ⟨ofBeBytes_lt h, beBytes_ofBeBytes h⟩)
    fun _ h => ⟨length_beBytes w _, ofBeBytes_beBytes h⟩

/-- A number of `w` bytes, as one of the values that many bytes have. -/
theorem decodes_fin (bad : ε) {w n : ℕ} [NeZero n] (hn : 256 ^ w = n) :
    Decodes ((fun k => Fin.ofNat n k) <$> (ofBeBytes <$> take bad w))
      (fun k : Fin n => beBytes w k.val) fun _ => True :=
  (decodes_number bad w).map
    (fun k hk => ⟨trivial, by rw [Fin.val_ofNat]; exact Nat.mod_eq_of_lt (hn ▸ hk)⟩)
    fun k _ => ⟨hn ▸ k.isLt, by simp⟩

/-! ### Many items -/

/-- `n` items one after the other. -/
def readMany (read : Reader σ ε α) : ℕ → Reader σ ε (List α)
  | 0 => pure []
  | n + 1 => do
      let a ← read
      let items ← readMany read n
      pure (a :: items)

/-- `n` items one after the other, none of them twice or among those `seen`. -/
def readDistinct [DecidableEq α] (bad : ε) (read : Reader σ ε α) :
    ℕ → List α → Reader σ ε (List α)
  | 0, _ => pure []
  | n + 1, seen => do
      let a ← read
      if a ∈ seen then throw bad
      else
        let items ← readDistinct bad read n (a :: seen)
        pure (a :: items)

/-- `n` items one after the other, each greater than the one before it. -/
def readAscending [LinearOrder α] (bad : ε) (read : Reader σ ε α) :
    ℕ → Option α → Reader σ ε (List α)
  | 0, _ => pure []
  | n + 1, previous => do
      let a ← read
      if previous.any fun b => a ≤ b then throw bad
      else
        let items ← readAscending bad read n (some a)
        pure (a :: items)

/-- `n` items one after the other, each read under what the one before it leaves. -/
def readChain {τ : Type} (read : τ → Reader σ ε α) (next : α → τ) : ℕ → τ → Reader σ ε (List α)
  | 0, _ => pure []
  | n + 1, state => do
      let a ← read state
      let items ← readChain read next n (next a)
      pure (a :: items)

/-- Each item is valid under what the one before it leaves. -/
def Chained {τ : Type} (Valid : τ → α → Prop) (next : α → τ) : τ → List α → Prop
  | _, [] => True
  | state, a :: items => Valid state a ∧ Chained Valid next (next a) items

variable {read : Reader σ ε α} {encode : α → List σ} {Valid : α → Prop}

theorem decodes_readMany (h : Decodes read encode Valid) (n : ℕ) :
    Decodes (readMany read n) (fun items => items.flatMap encode) fun items =>
      items.length = n ∧ ∀ a ∈ items, Valid a := by
  induction n with
  | zero =>
      intro input items rest
      simp only [readMany, run_pure_eq_ok, List.length_eq_zero_iff]
      constructor
      · rintro ⟨rfl, rfl⟩
        exact ⟨⟨rfl, by simp⟩, rfl⟩
      · rintro ⟨⟨rfl, -⟩, rfl⟩
        exact ⟨rfl, rfl⟩
  | succ n ih =>
      intro input items rest
      simp only [readMany, run_bind_eq_ok, run_pure_eq_ok]
      constructor
      · rintro ⟨a, mid, ha, tail, mid', htail, rfl, rfl⟩
        obtain ⟨hvalid, rfl⟩ := (h _ _ _).1 ha
        obtain ⟨⟨rfl, hall⟩, rfl⟩ := (ih _ _ _).1 htail
        exact ⟨⟨rfl, List.forall_mem_cons.2 ⟨hvalid, hall⟩⟩,
          by rw [List.flatMap_cons, List.append_assoc]⟩
      · rintro ⟨⟨hlen, hall⟩, rfl⟩
        obtain ⟨a, tail, rfl⟩ := List.exists_cons_of_length_eq_add_one hlen
        obtain ⟨ha, htail⟩ := List.forall_mem_cons.1 hall
        refine ⟨a, tail.flatMap encode ++ rest, ?_, tail, rest,
          ih.run ⟨by simpa using hlen, htail⟩ rest, rfl, rfl⟩
        rw [List.flatMap_cons, List.append_assoc]
        exact h.run ha _

theorem decodes_readChain {τ : Type} {read : τ → Reader σ ε α} (next : α → τ)
    {Valid : τ → α → Prop} (h : ∀ state, Decodes (read state) encode (Valid state)) (n : ℕ)
    (state : τ) :
    Decodes (readChain read next n state) (fun items => items.flatMap encode) fun items =>
      items.length = n ∧ Chained Valid next state items := by
  induction n generalizing state with
  | zero =>
      intro input items rest
      simp only [readChain, run_pure_eq_ok, List.length_eq_zero_iff]
      constructor
      · rintro ⟨rfl, rfl⟩
        exact ⟨⟨rfl, trivial⟩, rfl⟩
      · rintro ⟨⟨rfl, -⟩, rfl⟩
        exact ⟨rfl, rfl⟩
  | succ n ih =>
      intro input items rest
      simp only [readChain, run_bind_eq_ok, run_pure_eq_ok]
      constructor
      · rintro ⟨a, mid, ha, tail, mid', htail, rfl, rfl⟩
        obtain ⟨hvalid, rfl⟩ := (h _ _ _ _).1 ha
        obtain ⟨⟨rfl, hall⟩, rfl⟩ := (ih _ _ _ _).1 htail
        exact ⟨⟨rfl, hvalid, hall⟩, by rw [List.flatMap_cons, List.append_assoc]⟩
      · rintro ⟨⟨hlen, hall⟩, rfl⟩
        obtain ⟨a, tail, rfl⟩ := List.exists_cons_of_length_eq_add_one hlen
        obtain ⟨ha, htail⟩ := hall
        refine ⟨a, tail.flatMap encode ++ rest, ?_, tail, rest,
          (ih _).run ⟨by simpa using hlen, htail⟩ rest, rfl, rfl⟩
        rw [List.flatMap_cons, List.append_assoc]
        exact (h state).run ha _

/-- Items whose keys ascend, each with a property of its own. -/
theorem chained_ascending_iff {κ : Type} [Preorder κ] {key : α → κ} {items : List α}
    {previous : Option κ} :
    Chained (fun previous a => (∀ k ∈ previous, k < key a) ∧ Valid a) (fun a => some (key a))
        previous items ↔
      items.Pairwise (fun a b => key a < key b) ∧ (∀ a ∈ items, Valid a) ∧
        ∀ k ∈ previous, ∀ a ∈ items, k < key a := by
  induction items generalizing previous with
  | nil => simp [Chained]
  | cons a items ih =>
      rw [Chained, ih, List.pairwise_cons, List.forall_mem_cons]
      simp only [List.forall_mem_cons, Option.mem_def, Option.some.injEq, forall_eq']
      constructor
      · rintro ⟨⟨hlt, ha⟩, hascending, hall, habove⟩
        exact ⟨⟨habove, hascending⟩, ⟨ha, hall⟩, fun k hk =>
          ⟨hlt k hk, fun b hb => (hlt k hk).trans (habove b hb)⟩⟩
      · rintro ⟨⟨habove, hascending⟩, ⟨ha, hall⟩, hprevious⟩
        exact ⟨⟨fun k hk => (hprevious k hk).1, ha⟩, hascending, hall, habove⟩

theorem decodes_readDistinct [DecidableEq α] (bad : ε) (h : Decodes read encode Valid) (n : ℕ)
    (seen : List α) :
    Decodes (readDistinct bad read n seen) (fun items => items.flatMap encode) fun items =>
      items.length = n ∧ (∀ a ∈ items, Valid a) ∧ items.Nodup ∧ ∀ a ∈ items, a ∉ seen := by
  induction n generalizing seen with
  | zero =>
      intro input items rest
      simp only [readDistinct, run_pure_eq_ok, List.length_eq_zero_iff]
      constructor
      · rintro ⟨rfl, rfl⟩
        exact ⟨⟨rfl, by simp⟩, rfl⟩
      · rintro ⟨⟨rfl, -⟩, rfl⟩
        exact ⟨rfl, rfl⟩
  | succ n ih =>
      intro input items rest
      simp only [readDistinct, run_bind_eq_ok]
      constructor
      · rintro ⟨a, mid, ha, hrest⟩
        split_ifs at hrest with hseen
        · exact absurd hrest run_throw_ne_ok
        · simp only [run_bind_eq_ok, run_pure_eq_ok] at hrest
          obtain ⟨tail, mid', htail, rfl, rfl⟩ := hrest
          obtain ⟨hvalid, rfl⟩ := (h _ _ _).1 ha
          obtain ⟨⟨rfl, hall, hnodup, hnew⟩, rfl⟩ := (ih _ _ _ _).1 htail
          refine ⟨⟨rfl, List.forall_mem_cons.2 ⟨hvalid, hall⟩, List.nodup_cons.2 ⟨fun hmem => ?_,
            hnodup⟩, List.forall_mem_cons.2 ⟨hseen, fun b hb hmem => ?_⟩⟩,
            by rw [List.flatMap_cons, List.append_assoc]⟩
          · exact hnew a hmem List.mem_cons_self
          · exact hnew b hb (List.mem_cons_of_mem _ hmem)
      · rintro ⟨⟨hlen, hall, hnodup, hnew⟩, rfl⟩
        obtain ⟨a, tail, rfl⟩ := List.exists_cons_of_length_eq_add_one hlen
        obtain ⟨ha, htail⟩ := List.forall_mem_cons.1 hall
        obtain ⟨hseen, hnew⟩ := List.forall_mem_cons.1 hnew
        obtain ⟨hne, hnodup⟩ := List.nodup_cons.1 hnodup
        refine ⟨a, tail.flatMap encode ++ rest, ?_, ?_⟩
        · rw [List.flatMap_cons, List.append_assoc]
          exact h.run ha _
        · simp only [hseen, if_false, run_bind_eq_ok, run_pure_eq_ok]
          refine ⟨tail, rest, (ih _).run ⟨by simpa using hlen, htail, hnodup, fun b hb hmem => ?_⟩
            rest, rfl, rfl⟩
          obtain rfl | hmem := List.mem_cons.1 hmem
          · exact hne hb
          · exact hnew b hb hmem

theorem decodes_readAscending [LinearOrder α] (bad : ε) (h : Decodes read encode Valid) (n : ℕ)
    (previous : Option α) :
    Decodes (readAscending bad read n previous) (fun items => items.flatMap encode) fun items =>
      items.length = n ∧ (∀ a ∈ items, Valid a) ∧ items.Pairwise (· < ·) ∧
        ∀ b ∈ previous, ∀ a ∈ items, b < a := by
  induction n generalizing previous with
  | zero =>
      intro input items rest
      simp only [readAscending, run_pure_eq_ok, List.length_eq_zero_iff]
      constructor
      · rintro ⟨rfl, rfl⟩
        exact ⟨⟨rfl, by simp⟩, rfl⟩
      · rintro ⟨⟨rfl, -⟩, rfl⟩
        exact ⟨rfl, rfl⟩
  | succ n ih =>
      intro input items rest
      simp only [readAscending, run_bind_eq_ok]
      have hany : ∀ a, (previous.any fun b => a ≤ b) = true ↔ ¬∀ b ∈ previous, b < a := by
        intro a
        cases previous <;> simp
      constructor
      · rintro ⟨a, mid, ha, hrest⟩
        split_ifs at hrest with hbad
        · exact absurd hrest run_throw_ne_ok
        · simp only [run_bind_eq_ok, run_pure_eq_ok] at hrest
          obtain ⟨tail, mid', htail, rfl, rfl⟩ := hrest
          obtain ⟨hvalid, rfl⟩ := (h _ _ _).1 ha
          obtain ⟨⟨rfl, hall, hascending, habove⟩, rfl⟩ := (ih _ _ _ _).1 htail
          have hlt := not_not.1 fun hnot => hbad ((hany a).2 hnot)
          refine ⟨⟨rfl, List.forall_mem_cons.2 ⟨hvalid, hall⟩,
            List.pairwise_cons.2 ⟨habove a rfl, hascending⟩, fun b hb =>
              List.forall_mem_cons.2 ⟨hlt b hb, fun c hc => (hlt b hb).trans (habove a rfl c hc)⟩⟩,
            by rw [List.flatMap_cons, List.append_assoc]⟩
      · rintro ⟨⟨hlen, hall, hascending, habove⟩, rfl⟩
        obtain ⟨a, tail, rfl⟩ := List.exists_cons_of_length_eq_add_one hlen
        obtain ⟨ha, htail⟩ := List.forall_mem_cons.1 hall
        obtain ⟨hlt, hascending⟩ := List.pairwise_cons.1 hascending
        refine ⟨a, tail.flatMap encode ++ rest, ?_, ?_⟩
        · rw [List.flatMap_cons, List.append_assoc]
          exact h.run ha _
        · rw [if_neg fun hbad => (hany a).1 hbad fun b hb => habove b hb a List.mem_cons_self]
          simp only [run_bind_eq_ok, run_pure_eq_ok]
          refine ⟨tail, rest, (ih _).run ⟨by simpa using hlen, htail, hascending, fun b hb => ?_⟩
            rest, rfl, rfl⟩
          obtain rfl := Option.mem_some.1 hb
          exact hlt

end Codec
