/-
# The post-order of a walk that grows its set of finished nodes

A walk from a list of nodes finishes each node after its children.  It looks at the
children of a node when it enters it, and of these only at the ones that are not
finished then.  A child that is looked at is read; it is entered later, unless it
has been finished in between.

`Walks next done l reads order` says that the walk from `l` reads `reads` and finishes
`order`, both in their order.  The finished nodes are the new ones below `l`, each once
and after its children.  What is read depends on the order of the children: the walk
finds a node by the path that takes the first child that reaches it, at every node, and
each node of that path reads it if it is a child there.  So nothing is read twice exactly
where only the last node of that path has it as a child (`Walks.nodup_reads_iff`).
-/

import CordialMiners.Graph.Dfs

namespace FinGraph

open Relation

variable {α : Type} [DecidableEq α] {next : α → List α} {done done' : α → Bool} {l l₁ l₂ : List α}
  {reads reads' order order' : List α} {a b x y : α}

/-- The finished nodes with some more. -/
def finished (done : α → Bool) (order : List α) : α → Bool := fun x => done x || order.contains x

/-- The children of a node that are not finished. -/
def pending (next : α → List α) (done : α → Bool) (a : α) : List α :=
  (next a).filter fun b => !done b

theorem finished_eq_true_iff : finished done order x = true ↔ done x = true ∨ x ∈ order := by
  simp [finished]

theorem finished_eq_false_iff : finished done order x = false ↔ done x = false ∧ x ∉ order := by
  simp [finished]

theorem finished_nil : finished done [] = done := by
  funext x
  simp [finished]

theorem finished_finished : finished (finished done order) order' = finished done (order ++ order') := by
  funext x
  simp [finished, Bool.or_assoc]

omit [DecidableEq α] in
theorem mem_pending_iff : b ∈ pending next done a ↔ b ∈ next a ∧ done b = false := by
  simp [pending]

omit [DecidableEq α] in
/-- With more nodes finished, fewer children are pending. -/
theorem step_pending_mono (h : ∀ x, done x = true → done' x = true)
    (hstep : Step (pending next done') a b) : Step (pending next done) a b := by
  obtain ⟨hnext, hfalse⟩ := mem_pending_iff.1 hstep
  refine mem_pending_iff.2 ⟨hnext, ?_⟩
  cases hdone : done b with
  | false => rfl
  | true => exact absurd (h b hdone) (by simp [hfalse])

omit [DecidableEq α] in
theorem reach_pending_mono (h : ∀ x, done x = true → done' x = true)
    (hreach : Reach (pending next done') a b) : Reach (pending next done) a b :=
  ReflTransGen.mono (fun _ _ hstep => step_pending_mono h hstep) _ _ hreach

omit [DecidableEq α] in
theorem transGen_pending_mono (h : ∀ x, done x = true → done' x = true)
    (hreach : TransGen (Step (pending next done')) a b) : TransGen (Step (pending next done)) a b :=
  TransGen.mono (fun _ _ hstep => step_pending_mono h hstep) _ _ hreach

theorem done_le_finished : ∀ x, done x = true → finished done order x = true := fun _ hx =>
  finished_eq_true_iff.2 (Or.inl hx)

omit [DecidableEq α] in
/-- A node that reaches finitely many nodes and no cycle is grounded. -/
theorem grounded_of_finite {children : α → List α} (hfin : {x | Reach children a x}.Finite)
    (hacyclic : ∀ x, Reach children a x → ¬TransGen (Step children) x x) : Grounded children a := by
  induction hn : {x | Reach children a x}.ncard using Nat.strong_induction_on generalizing a with
  | _ n ih =>
      refine Acc.intro a fun b hb => ?_
      have hab : Reach children a b := ReflTransGen.single hb
      have hsub : {x | Reach children b x} ⊆ {x | Reach children a x} := fun x hx => hab.trans hx
      have hssub : {x | Reach children b x} ⊂ {x | Reach children a x} :=
        (Set.ssubset_iff_of_subset hsub).2 ⟨a, ReflTransGen.refl, fun hba =>
          hacyclic a ReflTransGen.refl (TransGen.head' hb hba)⟩
      exact ih _ (hn ▸ Set.ncard_lt_ncard hssub hfin) (hfin.subset hsub)
        (fun x hx => hacyclic x (hab.trans hx)) rfl

/-! ### First paths -/

/-- The first child of `a` that reaches `c`. -/
def FirstChild (next : α → List α) (done : α → Bool) (c a b : α) : Prop :=
  b ∈ pending next done a ∧ Reach (pending next done) b c ∧
    ∀ b', [b', b].Sublist (pending next done a) → ¬Reach (pending next done) b' c

/-- **No detours:** where a node is on the first path from `a` to a child of it, that child is the
next node of the path. -/
def NoDetour (next : α → List α) (done : α → Bool) (a : α) : Prop :=
  ∀ b c, ReflTransGen (FirstChild next done c) a b → c ∈ pending next done b →
    FirstChild next done c b c

/-- With more nodes finished, of which none reaches `c`, the way to `c` stays. -/
structure Spares (next : α → List α) (done done' : α → Bool) (c : α) : Prop where
  mono : ∀ x, done x = true → done' x = true
  spared : ∀ x, done x = false → Reach (pending next done) x c → done' x = false

omit [DecidableEq α] in
theorem pending_sublist (h : ∀ x, done x = true → done' x = true) :
    (pending next done' a).Sublist (pending next done a) := by
  refine List.monotone_filter_right _ fun b hb => ?_
  cases hdone : done b with
  | false => rfl
  | true => simp [h b hdone] at hb

omit [DecidableEq α] in
theorem Spares.refl (c : α) : Spares next done done c := ⟨fun _ hx => hx, fun _ hx _ => hx⟩

theorem Spares.finished {c : α} (h : Spares next done done' c)
    (horder : ∀ x ∈ order, ¬Reach (pending next done) x c) :
    Spares next done (finished done' order) c where
  mono x hx := done_le_finished x (h.mono x hx)
  spared x hx hreach := finished_eq_false_iff.2
    ⟨h.spared x hx hreach, fun hmem => horder x hmem hreach⟩

omit [DecidableEq α] in
theorem Spares.mem_pending {c : α} (h : Spares next done done' c) (hb : b ∈ pending next done a)
    (hreach : Reach (pending next done) b c) : b ∈ pending next done' a :=
  mem_pending_iff.2 ⟨(mem_pending_iff.1 hb).1, h.spared b (mem_pending_iff.1 hb).2 hreach⟩

omit [DecidableEq α] in
theorem Spares.reach {c : α} (h : Spares next done done' c)
    (hreach : Reach (pending next done) a c) : Reach (pending next done') a c := by
  induction hreach using ReflTransGen.head_induction_on with
  | refl => exact ReflTransGen.refl
  | head hstep hrest ih => exact ReflTransGen.head (h.mem_pending hstep hrest) ih

omit [DecidableEq α] in
/-- Two children that reach `c` stay in their order. -/
theorem Spares.pair_sublist {c : α} {b' : α} (h : Spares next done done' c)
    (hsub : [b', b].Sublist (pending next done a)) (hb' : Reach (pending next done) b' c)
    (hb : Reach (pending next done) b c) : [b', b].Sublist (pending next done' a) := by
  have hmem' := h.mem_pending (hsub.subset (List.mem_cons_self ..)) hb'
  have hmem := h.mem_pending (hsub.subset (List.mem_cons_of_mem _ (List.mem_singleton_self b))) hb
  have hkept := (hsub.trans List.filter_sublist).filter fun x => !done' x
  rwa [List.filter_eq_self.2] at hkept
  intro x hx
  rcases List.mem_cons.1 hx with rfl | hx
  · simp [(mem_pending_iff.1 hmem').2]
  · obtain rfl := List.mem_singleton.1 hx
    simp [(mem_pending_iff.1 hmem).2]

omit [DecidableEq α] in
/-- The first child that reaches `c` was the first before. -/
theorem Spares.firstChild {c : α} (h : Spares next done done' c)
    (hfirst : FirstChild next done' c a b) : FirstChild next done c a b := by
  obtain ⟨hmem, hreach, hbefore⟩ := hfirst
  have hreach' := reach_pending_mono h.mono hreach
  refine ⟨step_pending_mono h.mono hmem, hreach', fun b' hsub hb' => ?_⟩
  exact hbefore b' (h.pair_sublist hsub hb' hreach') (h.reach hb')

/-- The walk from a list of nodes. -/
inductive Walks (next : α → List α) : (α → Bool) → List α → List α → List α → Prop
  | nil (done : α → Bool) : Walks next done [] [] []
  | known {done : α → Bool} {a : α} {l reads order : List α} (hdone : done a = true)
      (hrest : Walks next done l reads order) : Walks next done (a :: l) reads order
  | enter {done : α → Bool} {a : α} {l reads order reads' order' : List α}
      (hdone : done a = false)
      (hbelow : Walks next done (pending next done a) reads order)
      (hrest : Walks next (finished done (order ++ [a])) l reads' order') :
      Walks next done (a :: l) (pending next done a ++ reads ++ reads')
        (order ++ [a] ++ order')

namespace Walks

/-! ### What is finished -/

/-- Only new nodes are finished. -/
theorem done_of_mem_order (h : Walks next done l reads order) (hx : x ∈ order) :
    done x = false := by
  induction h with
  | nil => cases hx
  | known _ _ ih => exact ih hx
  | enter hdone _ _ ih ih' =>
      rcases List.mem_append.1 hx with hx | hx
      · rcases List.mem_append.1 hx with hx | hx
        · exact ih hx
        · exact List.mem_singleton.1 hx ▸ hdone
      · exact (finished_eq_false_iff.1 (ih' hx)).1

/-- Every node of the list is finished afterwards. -/
theorem complete (h : Walks next done l reads order) (ha : a ∈ l) :
    done a = true ∨ a ∈ order := by
  induction h with
  | nil => cases ha
  | known hdone _ ih =>
      rcases List.mem_cons.1 ha with rfl | ha
      · exact Or.inl hdone
      · exact ih ha
  | @enter done c l reads order reads' order' hdone _ _ _ ih' =>
      rcases List.mem_cons.1 ha with rfl | ha
      · simp
      · rcases ih' ha with hmark | hmem
        · rcases finished_eq_true_iff.1 hmark with hknown | hmem
          · exact Or.inl hknown
          · exact Or.inr (List.mem_append_left _ hmem)
        · exact Or.inr (List.mem_append_right _ hmem)

/-- **A node is finished after its children.** -/
theorem children_before (h : Walks next done l reads order) {order₁ order₂ : List α}
    (heq : order = order₁ ++ x :: order₂) (hy : y ∈ next x) : done y = true ∨ y ∈ order₁ := by
  induction h generalizing order₁ order₂ with
  | nil => simp at heq
  | known _ _ ih => exact ih heq
  | @enter done c l reads order reads' order' hdone hbelow _ ih ih' =>
      rw [List.append_assoc, List.append_eq_append_iff] at heq
      rcases heq with ⟨between, rfl, hrest⟩ | ⟨between, rfl, hrest⟩
      · cases between with
        | nil =>
            -- the node itself: its pending children have just been finished
            obtain ⟨rfl, -⟩ := List.cons.inj hrest
            by_cases hknown : done y = true
            · exact Or.inl hknown
            · refine Or.inr ?_
              have hpending := mem_pending_iff.2 ⟨hy, Bool.eq_false_iff.2 hknown⟩
              rw [List.append_nil]
              exact (hbelow.complete hpending).resolve_left hknown
        | cons c' between =>
            obtain ⟨rfl, hlater⟩ := List.cons.inj hrest
            rcases ih' hlater with hmark | hmem
            · rcases finished_eq_true_iff.1 hmark with hknown | hmem
              · exact Or.inl hknown
              · right
                rw [List.append_cons]
                exact List.mem_append_left _ hmem
            · exact Or.inr (List.mem_append_right _ (List.mem_cons_of_mem _ hmem))
      · cases between with
        | nil =>
            obtain ⟨rfl, -⟩ := List.cons.inj hrest
            by_cases hknown : done y = true
            · exact Or.inl hknown
            · refine Or.inr ?_
              have hpending := mem_pending_iff.2 ⟨hy, Bool.eq_false_iff.2 hknown⟩
              have hmem := (hbelow.complete hpending).resolve_left hknown
              rwa [List.append_nil] at hmem
        | cons c' between =>
            obtain ⟨rfl, -⟩ := List.cons.inj hrest
            exact ih rfl

/-- The children of a finished node are finished. -/
theorem closed (h : Walks next done l reads order) (hx : x ∈ order) (hy : y ∈ next x) :
    done y = true ∨ y ∈ order := by
  obtain ⟨order₁, order₂, heq⟩ := List.append_of_mem hx
  rcases h.children_before heq hy with hknown | hmem
  · exact Or.inl hknown
  · exact Or.inr (heq ▸ List.mem_append_left _ hmem)

/-- **Finished nodes are reached** through nodes that were not finished. -/
theorem exists_reach (h : Walks next done l reads order) (hx : x ∈ order) :
    ∃ a ∈ l, done a = false ∧ Reach (pending next done) a x := by
  induction h with
  | nil => cases hx
  | known _ _ ih =>
      obtain ⟨a, ha, hreach⟩ := ih hx
      exact ⟨a, List.mem_cons_of_mem _ ha, hreach⟩
  | @enter done c l reads order reads' order' hdone _ _ ih ih' =>
      rcases List.mem_append.1 hx with hx | hx
      · rcases List.mem_append.1 hx with hx | hx
        · obtain ⟨b, hb, -, hreach⟩ := ih hx
          exact ⟨c, List.mem_cons_self .., hdone, ReflTransGen.head hb hreach⟩
        · exact ⟨c, List.mem_cons_self .., hdone, List.mem_singleton.1 hx ▸ ReflTransGen.refl⟩
      · obtain ⟨b, hb, hfalse, hreach⟩ := ih' hx
        refine ⟨b, List.mem_cons_of_mem _ hb, (finished_eq_false_iff.1 hfalse).1, ?_⟩
        exact reach_pending_mono done_le_finished hreach

/-- What a finished node of the walk reaches is finished. -/
theorem mem_order_of_reach (h : Walks next done l reads order) (hx : x ∈ order)
    (hreach : Reach (pending next done) x y) : y ∈ order := by
  induction hreach with
  | refl => exact hx
  | tail _ hstep ih =>
      obtain ⟨hnext, hfalse⟩ := mem_pending_iff.1 hstep
      exact (h.closed ih hnext).resolve_left (by simp [hfalse])

/-! ### What is read -/

/-- What is read is finished. -/
theorem mem_order_of_mem_reads (h : Walks next done l reads order) (hx : x ∈ reads) :
    x ∈ order := by
  induction h with
  | nil => cases hx
  | known _ _ ih => exact ih hx
  | @enter done c l reads order reads' order' hdone hbelow _ ih ih' =>
      rcases List.mem_append.1 hx with hx | hx
      · refine List.mem_append_left _ (List.mem_append_left _ ?_)
        rcases List.mem_append.1 hx with hx | hx
        · have hfalse := (mem_pending_iff.1 hx).2
          exact (hbelow.complete hx).resolve_left (by simp [hfalse])
        · exact ih hx
      · exact List.mem_append_right _ (ih' hx)

/-- What is finished was read, or given. -/
theorem mem_reads_of_mem_order (h : Walks next done l reads order) (hx : x ∈ order) :
    x ∈ l ∨ x ∈ reads := by
  induction h with
  | nil => cases hx
  | known _ _ ih =>
      rcases ih hx with hl | hreads
      · exact Or.inl (List.mem_cons_of_mem _ hl)
      · exact Or.inr hreads
  | @enter done c l reads order reads' order' _ _ _ ih ih' =>
      rcases List.mem_append.1 hx with hx | hx
      · rcases List.mem_append.1 hx with hx | hx
        · refine Or.inr (List.mem_append_left _ ?_)
          exact List.mem_append.2 (ih hx)
        · exact Or.inl (List.mem_singleton.1 hx ▸ List.mem_cons_self ..)
      · rcases ih' hx with hl | hreads
        · exact Or.inl (List.mem_cons_of_mem _ hl)
        · exact Or.inr (List.mem_append_right _ hreads)

/-! ### Walks from lists -/

/-- Two walks in a row. -/
theorem append (h : Walks next done l₁ reads order)
    (h' : Walks next (finished done order) l₂ reads' order') :
    Walks next done (l₁ ++ l₂) (reads ++ reads') (order ++ order') := by
  induction h with
  | nil => rwa [finished_nil] at h'
  | known hdone _ ih => exact known hdone (ih h')
  | enter hdone hbelow _ _ ih' =>
      rw [← finished_finished] at h'
      simpa [List.append_assoc] using enter hdone hbelow (ih' h')

/-- A walk from two lists is two walks in a row. -/
theorem of_append (h : Walks next done (l₁ ++ l₂) reads order) :
    ∃ reads₁ order₁ reads₂ order₂ : List α, Walks next done l₁ reads₁ order₁ ∧
      Walks next (finished done order₁) l₂ reads₂ order₂ ∧ reads = reads₁ ++ reads₂ ∧
      order = order₁ ++ order₂ := by
  induction l₁ generalizing done reads order with
  | nil => exact ⟨[], [], reads, order, nil done, by rwa [finished_nil], rfl, rfl⟩
  | cons a l₁ ih =>
      rw [List.cons_append] at h
      cases h with
      | known hdone hrest =>
          obtain ⟨reads₁, order₁, reads₂, order₂, h₁, h₂, hreads, horder⟩ := ih hrest
          exact ⟨reads₁, order₁, reads₂, order₂, known hdone h₁, h₂, hreads, horder⟩
      | enter hdone hbelow hrest =>
          obtain ⟨reads₁, order₁, reads₂, order₂, h₁, h₂, rfl, rfl⟩ := ih hrest
          rw [finished_finished] at h₂
          exact ⟨_, _, reads₂, order₂, enter hdone hbelow h₁, h₂, by simp, by simp⟩

/-- **From grounded nodes there is a walk.** -/
theorem exists_walks (h : ∀ a ∈ l, Grounded (pending next done) a) :
    ∃ reads order, Walks next done l reads order := by
  have hlist (l : List α) (hsingle : ∀ a ∈ l, ∀ done' : α → Bool,
      (∀ x, done x = true → done' x = true) → ∃ reads order, Walks next done' [a] reads order) :
      ∀ done' : α → Bool, (∀ x, done x = true → done' x = true) →
        ∃ reads order, Walks next done' l reads order := by
    induction l with
    | nil => exact fun done' _ => ⟨[], [], nil done'⟩
    | cons a l ih =>
        intro done' hle
        obtain ⟨reads, order, hwalk⟩ := hsingle a (List.mem_cons_self ..) done' hle
        obtain ⟨reads', order', hrest⟩ := ih (fun b hb => hsingle b (List.mem_cons_of_mem _ hb))
          (finished done' order) fun x hx => finished_eq_true_iff.2 (Or.inl (hle x hx))
        exact ⟨_, _, hwalk.append hrest⟩
  refine hlist l (fun a ha => ?_) done fun x hx => hx
  have hgrounded := h a ha
  clear ha
  induction hgrounded with
  | intro a _ ih =>
      intro done' hle
      cases hdone : done' a with
      | true => exact ⟨[], [], known hdone (nil done')⟩
      | false =>
          obtain ⟨reads, order, hbelow⟩ := hlist (pending next done' a)
            (fun b hb => ih b (step_pending_mono hle hb)) done' hle
          exact ⟨_, _, enter hdone hbelow (nil _)⟩

/-- What is read is below the list. -/
theorem exists_transGen_of_mem_reads (h : Walks next done l reads order) (hx : x ∈ reads) :
    ∃ a ∈ l, TransGen (Step (pending next done)) a x := by
  induction h with
  | nil => cases hx
  | known _ _ ih =>
      obtain ⟨a, ha, hreach⟩ := ih hx
      exact ⟨a, List.mem_cons_of_mem _ ha, hreach⟩
  | @enter done c l reads order reads' order' _ _ _ ih ih' =>
      rcases List.mem_append.1 hx with hx | hx
      · refine ⟨c, List.mem_cons_self .., ?_⟩
        rcases List.mem_append.1 hx with hx | hx
        · exact TransGen.single hx
        · obtain ⟨b, hb, hreach⟩ := ih hx
          exact TransGen.head hb hreach
      · obtain ⟨b, hb, hreach⟩ := ih' hx
        exact ⟨b, List.mem_cons_of_mem _ hb, transGen_pending_mono done_le_finished hreach⟩

/-- **What is read below a node** is what it reaches. -/
theorem mem_reads_iff (h : Walks next done [a] reads order)
    (hacyclic : ¬TransGen (Step (pending next done)) a a) (hdone : done a = false) :
    x ∈ reads ↔ TransGen (Step (pending next done)) a x := by
  have ha : a ∈ order := (h.complete (List.mem_singleton_self a)).resolve_left (by simp [hdone])
  constructor
  · intro hx
    obtain ⟨b, hb, hreach⟩ := h.exists_transGen_of_mem_reads hx
    exact List.mem_singleton.1 hb ▸ hreach
  · intro hreach
    have hx := h.mem_order_of_reach ha hreach.to_reflTransGen
    rcases h.mem_reads_of_mem_order hx with hsame | hreads
    · obtain rfl := List.mem_singleton.1 hsame
      exact absurd hreach hacyclic
    · exact hreads

/-! ### What is read twice -/

/-- What does not reach `c` does not read it. -/
theorem count_reads_eq_zero {c : α} (h : Walks next done' l reads order)
    (hle : ∀ x, done x = true → done' x = true)
    (hnot : ∀ a ∈ l, ¬Reach (pending next done) a c) : reads.count c = 0 := by
  refine List.count_eq_zero.2 fun hmem => ?_
  obtain ⟨a, ha, hreach⟩ := h.exists_transGen_of_mem_reads hmem
  exact hnot a ha (transGen_pending_mono hle hreach).to_reflTransGen

/-- Off its own cycle a node is not read below itself. -/
theorem count_reads_self (h : Walks next done' (pending next done' a) reads order)
    (hle : ∀ x, done x = true → done' x = true)
    (hself : ¬TransGen (Step (pending next done)) a a) :
    (pending next done' a ++ reads).count a = 0 := by
  refine List.count_eq_zero.2 fun hmem => hself ?_
  rcases List.mem_append.1 hmem with hmem | hmem
  · exact TransGen.single (step_pending_mono hle hmem)
  · obtain ⟨b, hb, hb'⟩ := h.exists_transGen_of_mem_reads hmem
    exact transGen_pending_mono hle (TransGen.head hb hb')

omit [DecidableEq α] in
theorem pair_sublist_cons {c d : α} (h : [c, d].Sublist (a :: l)) :
    [c, d].Sublist l ∨ c = a ∧ d ∈ l := by
  rcases List.sublist_cons_iff.1 h with hsub | ⟨_, heq, hsub⟩
  · exact Or.inl hsub
  · obtain ⟨rfl, rfl⟩ := List.cons.inj heq
    exact Or.inr ⟨rfl, List.singleton_sublist.1 hsub⟩

/-- From a list whose walk takes no detour to `c`: no node reaches a later `c`, and on the way from
the first node that reaches `c` it is a first child. -/
structure Direct (next : α → List α) (done : α → Bool) (c : α) (l : List α) : Prop where
  new : ∀ a ∈ l, done a = false
  nodup : l.Nodup
  later : ∀ b, [b, c].Sublist l → ¬Reach (pending next done) b c
  no_detour : ∀ a ∈ l, Reach (pending next done) a c →
    (∀ b, [b, a].Sublist l → ¬Reach (pending next done) b c) →
    ∀ b, ReflTransGen (FirstChild next done c) a b → c ∈ pending next done b →
      FirstChild next done c b c

omit [DecidableEq α] in
theorem Direct.tail {c : α} (h : Direct next done c (a :: l))
    (hnot : ¬Reach (pending next done) a c) : Direct next done c l where
  new b hb := h.new b (List.mem_cons_of_mem _ hb)
  nodup := h.nodup.of_cons
  later b hsub := h.later b (hsub.cons a)
  no_detour b hb hreach hfirst := by
    refine h.no_detour b (List.mem_cons_of_mem _ hb) hreach fun b' hsub hb' => ?_
    rcases pair_sublist_cons hsub with hsub | ⟨rfl, -⟩
    · exact hfirst b' hsub hb'
    · exact hnot hb'

omit [DecidableEq α] in
/-- The children of a node that reaches `c`, where more is done already. -/
theorem Direct.children {c : α} (h : Direct next done c (a :: l)) (hnext : ∀ a, (next a).Nodup)
    (hspares : Spares next done done' c) (hreach : Reach (pending next done) a c) :
    Direct next done c (pending next done' a) := by
  have hfresh := (List.nodup_cons.1 h.nodup).1
  have hhere := h.no_detour a (List.mem_cons_self ..) hreach fun b hsub => by
    rcases pair_sublist_cons hsub with hsub | ⟨-, hmem⟩
    · exact absurd (hsub.subset (by simp)) hfresh
    · exact absurd hmem hfresh
  refine ⟨fun b hb => (mem_pending_iff.1 (step_pending_mono hspares.mono hb)).2,
    (hnext a).filter _, fun b hsub => ?_, fun b hb hb' hbefore x hpath hx => ?_⟩
  · have hsub' := hsub.trans (pending_sublist hspares.mono)
    exact (hhere a ReflTransGen.refl (hsub'.subset (by simp))).2.2 b hsub'
  · refine hhere x (ReflTransGen.head (hspares.firstChild ⟨hb, hspares.reach hb', ?_⟩) hpath) hx
    exact fun b' hsub hreach' => hbefore b' hsub (reach_pending_mono hspares.mono hreach')

/-- **Without detours a node is read once** below a list in which no node reaches a later one. -/
theorem count_reads_le {c : α} (h : Walks next done' l reads order) (hnext : ∀ a, (next a).Nodup)
    (hspares : Spares next done done' c) (hself : ¬TransGen (Step (pending next done)) c c)
    (hdirect : Direct next done c l) : (l ++ reads).count c ≤ 1 := by
  induction h with
  | nil => exact Nat.zero_le _
  | @known done' a l reads order hdone hrest ih =>
      have hfalse := hdirect.new a (List.mem_cons_self ..)
      have hnot : ¬Reach (pending next done) a c := fun hreach => by
        simp [hspares.spared a hfalse hreach] at hdone
      have hne : a ≠ c := fun heq => hnot (heq ▸ ReflTransGen.refl)
      rw [List.cons_append, List.count_cons_of_ne hne]
      exact ih hspares (hdirect.tail hnot)
  | @enter done' a l reads order reads' order' hdone hbelow hrest ih ih' =>
      have hwalk := enter hdone hbelow (nil _)
      rw [List.append_nil, List.append_nil] at hwalk
      by_cases hreach : Reach (pending next done) a c
      · -- the walk from `a` finishes `c`
        have hfinished : c ∈ order ++ [a] :=
          hwalk.mem_order_of_reach (List.mem_append_right _ (List.mem_singleton_self a))
            (hspares.reach hreach)
        have hreads' : reads'.count c = 0 := List.count_eq_zero.2 fun hmem =>
          (finished_eq_false_iff.1 (hrest.done_of_mem_order (hrest.mem_order_of_mem_reads hmem))).2
            hfinished
        have hlist : l.count c = 0 := List.count_eq_zero.2 fun hmem =>
          hdirect.later a (List.cons_sublist_cons.2 (List.singleton_sublist.2 hmem)) hreach
        have hchildren := ih hspares (hdirect.children hnext hspares hreach)
        rw [List.count_append, List.count_append, List.count_cons, hlist, hreads']
        split_ifs with heq
        · obtain rfl := eq_of_beq heq
          have hnone := hbelow.count_reads_self hspares.mono hself
          omega
        · omega
      · have hne : a ≠ c := fun heq => hreach (heq ▸ ReflTransGen.refl)
        have hnot : ∀ b ∈ pending next done' a, ¬Reach (pending next done) b c := fun b hb hb' =>
          hreach (ReflTransGen.head (step_pending_mono hspares.mono hb) hb')
        have hreads := hbelow.count_reads_eq_zero hspares.mono hnot
        have hpending : (pending next done' a).count c = 0 :=
          List.count_eq_zero.2 fun hmem => hnot c hmem ReflTransGen.refl
        have horder : ∀ x ∈ order ++ [a], ¬Reach (pending next done) x c := fun x hx hx' => by
          obtain ⟨b, hb, -, hb'⟩ := hwalk.exists_reach hx
          obtain rfl := List.mem_singleton.1 hb
          exact hreach ((reach_pending_mono hspares.mono hb').trans hx')
        have hothers := ih' (hspares.finished horder) (hdirect.tail hreach)
        rw [List.count_append] at hothers
        rw [List.cons_append, List.count_cons_of_ne hne, List.count_append, List.count_append,
          List.count_append, hreads, hpending]
        omega

/-- **A detour reads a node twice.** -/
theorem not_nodup_reads {c : α} (h : Walks next done' [a] reads order)
    (hnext : ∀ a, (next a).Nodup) (hspares : Spares next done done' c) (hnew : done a = false)
    (hpath : ReflTransGen (FirstChild next done c) a b) (hchild : c ∈ pending next done b)
    (hdetour : ¬FirstChild next done c b c) : ¬reads.Nodup := by
  induction hpath using ReflTransGen.head_induction_on generalizing done' reads order with
  | refl =>
      have hreach : Reach (pending next done) b c := ReflTransGen.single hchild
      have hfalse := hspares.spared b hnew hreach
      cases h with
      | known htrue _ => simp [hfalse] at htrue
      | @enter _ _ _ reads order reads' order' _ hbelow hrest =>
          have hexists : ∃ d, [d, c].Sublist (pending next done b) ∧
              Reach (pending next done) d c := by
            by_contra hnone
            push Not at hnone
            exact hdetour ⟨hchild, ReflTransGen.refl, hnone⟩
          obtain ⟨d, hsub, hd⟩ := hexists
          have hsub' := hspares.pair_sublist hsub hd ReflTransGen.refl
          -- the children up to `d` come before those from `c` on
          obtain ⟨before, after, hsplit, hdMem, hcMem⟩ := List.append_sublist_iff.1
            (show ([d] ++ [c]).Sublist (pending next done' b) from hsub')
          have hdMem := List.singleton_sublist.1 hdMem
          have hcMem := List.singleton_sublist.1 hcMem
          have hchildren : (pending next done' b).Nodup := (hnext b).filter _
          have hdFalse : done' d = false :=
            (mem_pending_iff.1 (hsplit ▸ List.mem_append_left _ hdMem)).2
          rw [hsplit] at hbelow hchildren
          obtain ⟨reads₁, order₁, reads₂, order₂, hfirst, -, rfl, -⟩ := hbelow.of_append
          have hdOrder : d ∈ order₁ := (hfirst.complete hdMem).resolve_left (by simp [hdFalse])
          have hcOrder : c ∈ order₁ := hfirst.mem_order_of_reach hdOrder (hspares.reach hd)
          have hcReads : c ∈ reads₁ := (hfirst.mem_reads_of_mem_order hcOrder).resolve_left
            fun hmem => (List.nodup_append.1 hchildren).2.2 c hmem c hcMem rfl
          intro hnodup
          rw [List.append_assoc, List.nodup_append] at hnodup
          refine hnodup.2.2 c ?_ c (List.mem_append_left _ (List.mem_append_left _ hcReads)) rfl
          rw [hsplit]
          exact List.mem_append_right _ hcMem
  | @head a x hstep hpath ih =>
      obtain ⟨hmem, hreach, hbefore⟩ := hstep
      have hfalse := hspares.spared a hnew (ReflTransGen.head hmem hreach)
      cases h with
      | known htrue _ => simp [hfalse] at htrue
      | @enter _ _ _ reads order reads' order' _ hbelow hrest =>
          obtain ⟨before, after, hsplit⟩ := List.append_of_mem (hspares.mem_pending hmem hreach)
          have hnot : ∀ y ∈ before, ¬Reach (pending next done) y c := fun y hy => by
            refine hbefore y (List.Sublist.trans ?_ (pending_sublist hspares.mono))
            rw [hsplit]
            exact (List.singleton_sublist.2 hy).append
              (List.singleton_sublist.2 (List.mem_cons_self ..))
          rw [hsplit, List.append_cons] at hbelow
          obtain ⟨reads₁, order₁, _, _, hfirst, -, rfl, -⟩ := hbelow.of_append
          obtain ⟨reads₂, order₂, reads₃, order₃, hearlier, hhere, rfl, -⟩ := hfirst.of_append
          have horder : ∀ y ∈ order₂, ¬Reach (pending next done) y c := fun y hy hy' => by
            obtain ⟨z, hz, -, hreach'⟩ := hearlier.exists_reach hy
            exact hnot z hz ((reach_pending_mono hspares.mono hreach').trans hy')
          have htwice := ih hhere (hspares.finished horder) (mem_pending_iff.1 hmem).2
          intro hnodup
          refine htwice (hnodup.sublist ?_)
          exact ((List.sublist_append_right _ _).trans (List.sublist_append_left _ _)).trans
            ((List.sublist_append_right _ _).trans (List.sublist_append_left _ _))

/-- **Nothing is read twice** exactly where there are no detours. -/
theorem nodup_reads_iff (h : Walks next done [a] reads order) (hnext : ∀ a, (next a).Nodup)
    (hacyclic : ∀ x, Reach (pending next done) a x → ¬TransGen (Step (pending next done)) x x)
    (hdone : done a = false) : reads.Nodup ↔ NoDetour next done a := by
  constructor
  · intro hnodup b c hpath hchild
    by_contra hdetour
    exact h.not_nodup_reads hnext (Spares.refl c) hdone hpath hchild hdetour hnodup
  · intro hno
    refine List.nodup_iff_count_le_one.2 fun c => ?_
    by_cases hc : c ∈ reads
    · obtain ⟨b, hb, hreach⟩ := h.exists_transGen_of_mem_reads hc
      obtain rfl := List.mem_singleton.1 hb
      have hpair {x y : α} : ¬[x, y].Sublist [b] := fun hsub => by simpa using hsub.length_le
      have hcount : ([b] ++ reads).count c ≤ 1 := by
        refine h.count_reads_le hnext (Spares.refl c) (hacyclic c hreach.to_reflTransGen)
          ⟨fun x hx => List.mem_singleton.1 hx ▸ hdone, List.nodup_singleton b,
            fun x hsub => absurd hsub hpair, fun x hx _ _ y hpath hy => ?_⟩
        exact hno y c (List.mem_singleton.1 hx ▸ hpath) hy
      rw [List.count_append] at hcount
      omega
    · rw [List.count_eq_zero.2 hc]
      exact Nat.zero_le 1

/-- **How much is read below a node:** as much as it reaches exactly where nothing is read
twice. -/
theorem length_reads_le_iff (h : Walks next done [a] reads order)
    (hacyclic : ¬TransGen (Step (pending next done)) a a) (hdone : done a = false) :
    reads.length ≤ {x | TransGen (Step (pending next done)) a x}.ncard ↔ reads.Nodup := by
  have hset : {x | TransGen (Step (pending next done)) a x} = (reads.toFinset : Set α) := by
    ext x
    simp [h.mem_reads_iff hacyclic hdone]
  rw [hset, Set.ncard_coe_finset, List.card_toFinset]
  constructor
  · intro hle
    have hsub := List.dedup_sublist reads
    rw [← hsub.eq_of_length (le_antisymm hsub.length_le hle)]
    exact List.nodup_dedup reads
  · intro hnodup
    rw [hnodup.dedup]

end Walks

end FinGraph
