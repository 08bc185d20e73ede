/-
# Layouts that end by themselves

A layout is delimited within a limit if a string below the limit can start with it
in one way only: the value and what follows it are determined.  Delimited layouts
are put together like the records they lay out.  A length or a count delimits what
it announces, as long as it is written without loss, which the limit ensures.

Domains none of which starts with another keep whole families of strings apart
(`append_inj_of_domains`).
-/

import CordialMiners.Codec.Reader

namespace Codec

variable {σ α β κ : Type} {limit : ℕ} {layout : α → List σ} {layout' : β → List σ}

/-- Below the limit, a string starts with one value at most. -/
def Delimited (limit : ℕ) (layout : α → List σ) : Prop :=
  ∀ a b rest rest', (layout a ++ rest).length < limit → layout a ++ rest = layout b ++ rest' →
    a = b ∧ rest = rest'

namespace Delimited

/-- What a reader reads back is delimited. -/
theorem of_decodes {ε : Type} {read : Reader σ ε α} (h : Decodes read layout fun _ => True) :
    Delimited limit layout := fun _ _ _ _ _ heq => h.append_inj trivial trivial heq

/-- A delimited layout has one value for each string below the limit. -/
theorem inj (h : Delimited limit layout) (a b : α) (hlen : (layout a).length < limit)
    (heq : layout a = layout b) : a = b := by
  refine (h a b [] [] ?_ (by rw [heq])).1
  rwa [List.append_nil]

theorem regroup (h : Delimited limit layout) {other : α → List σ} (heq : ∀ a, layout a = other a) :
    Delimited limit other := by
  obtain rfl : layout = other := funext heq
  exact h

/-- A value that is determined by a delimited one is delimited. -/
theorem map (h : Delimited limit layout) (f : β → α) (hf : Function.Injective f) :
    Delimited limit fun b => layout (f b) := fun a b rest rest' hlen heq =>
  (h (f a) (f b) rest rest' hlen heq).imp_left fun hab => hf hab

/-- One layout behind another. -/
theorem seq (h : Delimited limit layout) (h' : Delimited limit layout') :
    Delimited limit fun p : α × β => layout p.1 ++ layout' p.2 := by
  rintro ⟨a, b⟩ ⟨a', b'⟩ rest rest' hlen heq
  simp only [List.append_assoc] at hlen heq
  obtain ⟨rfl, hrest⟩ := h a a' _ _ hlen heq
  have hlen' : (layout' b ++ rest).length < limit := by
    rw [List.length_append] at hlen
    omega
  obtain ⟨rfl, hrest'⟩ := h' b b' rest rest' hlen' hrest
  exact ⟨rfl, hrest'⟩

/-- Fixed items in front. -/
theorem behind (h : Delimited limit layout) (front : List σ) :
    Delimited limit fun a => front ++ layout a := by
  intro a b rest rest' hlen heq
  rw [List.append_assoc, List.append_assoc] at heq
  refine h a b rest rest' ?_ (List.append_cancel_left heq)
  rw [List.append_assoc, List.length_append] at hlen
  omega

/-- One item, different for different values. -/
theorem item (f : α → σ) (hf : Function.Injective f) : Delimited limit fun a => [f a] := by
  intro a b rest rest' _ heq
  exact ⟨hf (List.cons.inj heq).1, (List.cons.inj heq).2⟩

/-- Nothing, or a value, behind different items. -/
theorem option (h : Delimited limit layout) {absent present : σ} (hne : absent ≠ present) :
    Delimited limit fun o : Option α =>
      match o with
      | none => [absent]
      | some a => present :: layout a := by
  rintro (_ | a) (_ | b) rest rest' hlen heq
  · exact ⟨rfl, (List.cons.inj heq).2⟩
  · exact absurd (List.cons.inj heq).1 hne
  · exact absurd (List.cons.inj heq).1.symm hne
  · have hlen' : (layout a ++ rest).length < limit := by
      rw [List.cons_append, List.length_cons] at hlen
      omega
    obtain ⟨rfl, hrest⟩ := h a b rest rest' hlen' (List.cons.inj heq).2
    exact ⟨rfl, hrest⟩

/-- Values of known number, each of which takes some space. -/
theorem flatMap_inj (h : Delimited limit layout) {l l' : List α} {rest rest' : List σ}
    (hnumber : l.length = l'.length) (hlen : (l.flatMap layout ++ rest).length < limit)
    (heq : l.flatMap layout ++ rest = l'.flatMap layout ++ rest') : l = l' ∧ rest = rest' := by
  induction l generalizing l' with
  | nil =>
      obtain rfl := List.length_eq_zero_iff.1 hnumber.symm
      exact ⟨rfl, heq⟩
  | cons a l ih =>
      cases l' with
      | nil => cases hnumber
      | cons b l' =>
          rw [List.flatMap_cons, List.append_assoc] at hlen
          rw [List.flatMap_cons, List.flatMap_cons, List.append_assoc, List.append_assoc] at heq
          obtain ⟨rfl, hrest⟩ := h a b _ _ hlen heq
          have hlen' : (l.flatMap layout ++ rest).length < limit := by
            rw [List.length_append] at hlen
            omega
          obtain ⟨rfl, hrest'⟩ := ih (Nat.succ.inj hnumber) hlen' hrest
          exact ⟨rfl, hrest'⟩

end Delimited

/-! ### Lengths and counts -/

/-- Numbers below `256 ^ w` that end by themselves. -/
def Announces (w : ℕ) (number : ℕ → List (Fin 256)) : Prop :=
  ∀ m n rest rest', m < 256 ^ w → n < 256 ^ w → number m ++ rest = number n ++ rest' →
    m = n ∧ rest = rest'

/-- Big-endian numbers. -/
theorem announces_beBytes (w : ℕ) : Announces w (beBytes w) := fun _ _ _ _ hm hn heq =>
  (decodes_number () w).append_inj hm hn heq

/-- Little-endian numbers. -/
theorem announces_leBytes (w : ℕ) : Announces w (leBytes w) := by
  intro m n rest rest' hm hn heq
  have hlength : (leBytes w m).length = (leBytes w n).length := by
    rw [length_leBytes, length_leBytes]
  obtain ⟨hbytes, hrest⟩ := List.append_inj heq hlength
  refine ⟨?_, hrest⟩
  rw [← ofLeBytes_leBytes hm, hbytes, ofLeBytes_leBytes hn]

variable {w : ℕ} {number : ℕ → List (Fin 256)}

/-- An announced length that is at most what follows fits. -/
theorem lt_of_announced {k : ℕ} {l rest : List (Fin 256)} (hk : k ≤ l.length)
    (hlen : (number k ++ l ++ rest).length < 256 ^ w) : k < 256 ^ w := by
  rw [List.length_append, List.length_append] at hlen
  omega

namespace Delimited

/-- Bytes behind their length. -/
theorem bytes (hnumber : Announces w number) :
    Delimited (256 ^ w) fun bytes : List (Fin 256) => number bytes.length ++ bytes := by
  intro a b rest rest' hlen heq
  have ha := lt_of_announced le_rfl hlen
  have hb : b.length < 256 ^ w := lt_of_announced le_rfl (heq ▸ hlen)
  rw [List.append_assoc, List.append_assoc] at heq
  obtain ⟨hsize, heq⟩ := hnumber _ _ _ _ ha hb heq
  exact List.append_inj heq hsize

/-- A payload behind its length, where payloads differ. -/
theorem nested (hnumber : Announces w number) {payload : α → List (Fin 256)}
    (hinj : ∀ a b, (payload a).length < 256 ^ w → payload a = payload b → a = b) :
    Delimited (256 ^ w) fun a => number (payload a).length ++ payload a := by
  intro a b rest rest' hlen heq
  have ha := lt_of_announced le_rfl hlen
  obtain ⟨hpayload, hrest⟩ := bytes hnumber (payload a) (payload b) rest rest' hlen heq
  exact ⟨hinj a b ha hpayload, hrest⟩

/-- Values behind their number. -/
theorem counted {layout : α → List (Fin 256)} (h : Delimited (256 ^ w) layout)
    (hnumber : Announces w number) (hpos : ∀ a, 0 < (layout a).length) :
    Delimited (256 ^ w) fun l : List α => number l.length ++ l.flatMap layout := by
  have hcount : ∀ l : List α, l.length ≤ (l.flatMap layout).length := by
    intro l
    induction l with
    | nil => exact le_rfl
    | cons a l ih =>
        have := hpos a
        rw [List.flatMap_cons, List.length_append, List.length_cons]
        omega
  intro l l' rest rest' hlen heq
  have hl := lt_of_announced (hcount l) hlen
  have hl' : l'.length < 256 ^ w := lt_of_announced (hcount l') (heq ▸ hlen)
  rw [List.append_assoc] at hlen
  rw [List.append_assoc, List.append_assoc] at heq
  obtain ⟨hnumber, heq⟩ := hnumber _ _ _ _ hl hl' heq
  refine h.flatMap_inj hnumber ?_ heq
  rw [List.length_append] at hlen
  omega

end Delimited

/-! ### Domains -/

/-- Behind domains none of which starts with another, strings are equal only under
one domain. -/
theorem append_inj_of_domains {domain : κ → List σ}
    (hdomain : ∀ k k', domain k <+: domain k' → k = k') {k k' : κ} {x y : List σ}
    (heq : domain k ++ x = domain k' ++ y) : k = k' ∧ x = y := by
  have hkk : k = k' := by
    obtain h | h := List.prefix_or_prefix_of_prefix (List.prefix_append (domain k) x)
      (heq ▸ List.prefix_append (domain k') y)
    · exact hdomain k k' h
    · exact (hdomain k' k h).symm
  subst hkk
  exact ⟨rfl, List.append_cancel_left heq⟩

end Codec
