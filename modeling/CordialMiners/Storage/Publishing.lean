/-
# Publishing files side by side

Many publishers write into one directory at once, each its own file under a name that
must never be written twice.  A publisher looks whether the name is taken; if not, it
draws names until it creates a temporary file, writes that, links it to the name, removes
the temporary name, and reads the name again where the link came too late.

The publishers take their steps in any order, a publisher may wait for another one to have
succeeded, and one that takes no more steps has crashed.  The directory they start from may
hold anything.

Whatever the order, a name that reads something reads it for good, and it reads the whole of
what one publisher published (`run_valid`).  A publisher that has ended answers what
comparing its bytes with the name's yields, so it never ends for any other reason
(`Valid.verdict`), and nobody keeps it from ending (`finishes`).
-/

import CordialMiners.Storage.FileSystem

namespace Storage

namespace Program

variable {σ ε α : Type}

/-- The result of a program, and the state after it. -/
def act (p : Program σ ε α) (s : σ) : Except ε α × σ := ((p s).result, p.final s)

theorem act_step (f : σ → Except ε (α × σ)) (s : σ) : (step f).act s = match f s with
    | .ok (a, t) => (.ok a, t)
    | .error e => (.error e, s) := by
  unfold act final step
  cases f s <;> simp

end Program

open Program

/-- Why a publication fails. -/
inductive PublishError where
  | tooLarge
  | conflicting
  | disappeared
  | file (error : FileError)
deriving DecidableEq, Repr

/-- A file that is published under a name once and for all. -/
structure Publication (Name β : Type) where
  target : Name
  bytes : List β
  /-- How much is read of a file that is already there. -/
  limit : ℕ
  fits : bytes.length ≤ limit
  /-- Where the file is written first, by the number that is drawn. -/
  temporary : ℕ → Name
  injective : Function.Injective temporary

/-- Where a publisher stands. -/
inductive PublishStage (Name β : Type) where
  | looking
  | reading (file : ℕ)
  | drawing
  | writing (temporary : Name) (file : ℕ) (rest : List β)
  | linking (temporary : Name)
  | removing (temporary : Name) (linked : Except FileError Unit)
  | confirming
  | ended (result : Except PublishError Unit)

/-- The temporary name that a publisher holds. -/
def PublishStage.own {Name β : Type} : PublishStage Name β → Option Name
  | .writing temporary _ _ | .linking temporary | .removing temporary _ => some temporary
  | _ => none

/-- Whether a publisher has begun. -/
def PublishStage.begun {Name β : Type} : PublishStage Name β → Bool
  | .looking => false
  | _ => true

namespace Publication

variable {Name β : Type} [LinearOrder Name] [DecidableEq β]

/-- What a publisher answers about a file that is there. -/
def compare (p : Publication Name β) (found : List β) : Except PublishError Unit :=
  if p.limit < found.length then .error .tooLarge
  else if found = p.bytes then .ok ()
  else .error .conflicting

/-- **One step of a publisher**, with the number it would draw. -/
def advance (p : Publication Name β) (number : ℕ) :
    PublishStage Name β → FileSystem Name β → PublishStage Name β × FileSystem Name β
  | .looking, fs => match fs.names.lookup p.target with
      | none => (.drawing, fs)
      | some file => (.reading file, fs)
  | .reading file, fs => (.ended (p.compare (fs.contents file)), fs)
  | .drawing, fs => match (FileSystem.createNew (p.temporary number)).act fs with
      | (.ok file, fs) => (.writing (p.temporary number) file p.bytes, fs)
      | (.error .alreadyExists, fs) => (.drawing, fs)
      | (.error error, fs) => (.ended (.error (.file error)), fs)
  | .writing temporary _ [], fs => (.linking temporary, fs)
  | .writing temporary file (b :: rest), fs => match (FileSystem.append file b).act fs with
      | (.ok (), fs) => (.writing temporary file rest, fs)
      | (.error error, fs) => (.ended (.error (.file error)), fs)
  | .linking temporary, fs =>
      let out := (FileSystem.hardLink temporary p.target).act fs
      (.removing temporary out.1, out.2)
  | .removing temporary linked, fs => match (FileSystem.removeFile temporary).act fs, linked with
      | (.ok (), fs), .ok () => (.ended (.ok ()), fs)
      | (.ok (), fs), .error .alreadyExists => (.confirming, fs)
      | (.ok (), fs), .error error => (.ended (.error (.file error)), fs)
      | (.error error, fs), _ => (.ended (.error (.file error)), fs)
  | .confirming, fs => match fs.names.lookup p.target with
      | none => (.ended (.error .disappeared), fs)
      | some file => (.reading file, fs)
  | .ended result, fs => (.ended result, fs)

end Publication

namespace FileSystem

variable {Name β : Type} [LinearOrder Name] {fs t : FileSystem Name β} {name other : Name}
  {file : ℕ} {own : Option Name}

theorem act_createNew (fs : FileSystem Name β) (name : Name) : (createNew name).act fs =
    if fs.names.lookup name ≠ none then (.error .alreadyExists, fs)
    else (.ok fs.next, fs.create name) := by
  unfold createNew
  rw [act_step]
  split_ifs <;> rfl

theorem act_removeFile (fs : FileSystem Name β) (name : Name) : (removeFile name).act fs =
    if fs.names.lookup name = none then (.error .notFound, fs) else (.ok (), fs.unlink name) := by
  unfold removeFile
  rw [act_step]
  split_ifs <;> rfl

theorem act_hardLink {source target : Name} (h : fs.names.lookup source = some file) :
    (hardLink source target).act fs =
      if fs.names.lookup target ≠ none then (.error .alreadyExists, fs)
      else (.ok (), fs.link target file (fs.fresh source file h)) := by
  obtain ⟨f, hf, hvalue⟩ : ∃ f, hardLink source target = step f ∧ f fs =
      if fs.names.lookup target ≠ none then .error .alreadyExists
      else .ok ((), fs.link target file (fs.fresh source file h)) := by
    refine ⟨_, rfl, ?_⟩
    split
    · next hnone => exact absurd (h.symm.trans hnone) (by simp)
    · next file' hfile' =>
        obtain rfl := Option.some.inj (h.symm.trans hfile')
        rfl
  rw [hf, act_step, hvalue]
  split_ifs <;> rfl

/-- What a step keeps of the names that the one who takes it does not hold. -/
structure Frame (fs t : FileSystem Name β) (own : Option Name) : Prop where
  named : ∀ name file, own ≠ some name → fs.names.lookup name = some file →
    t.names.lookup name = some file ∧ t.contents file = fs.contents file
  sole : ∀ name file, own ≠ some name → fs.names.lookup name = some file → fs.Sole name →
    t.Sole name

theorem Frame.refl (fs : FileSystem Name β) (own : Option Name) : fs.Frame fs own :=
  ⟨fun _ _ _ h => ⟨h, rfl⟩, fun _ _ _ _ h => h⟩

theorem Frame.read (h : fs.Frame t own) {bytes : List β} (hown : own ≠ some name)
    (hread : fs.read name = some bytes) : t.read name = some bytes := by
  obtain ⟨file, hfile, rfl⟩ := read_eq_some_iff.1 hread
  obtain ⟨hfile', hcontents⟩ := h.named name file hown hfile
  exact read_eq_some_iff.2 ⟨file, hfile', hcontents⟩

theorem frame_create (hfree : fs.names.lookup name = none) : fs.Frame (fs.create name) none := by
  have hne : ∀ other file, fs.names.lookup other = some file → other ∉ ({name} : Set Name) := by
    rintro other file hfile rfl
    rw [hfree] at hfile
    exact absurd hfile (by simp)
  refine ⟨fun other file _ hfile => ⟨?_, ?_⟩, fun other file _ hfile => ?_⟩
  · unfold create
    rw [OrderedMap.lookup_insert, if_neg (by simpa using hne other file hfile), hfile]
  · exact Function.update_of_ne (fs.fresh other file hfile).ne _ _
  · exact keeps_create.sole other (hne other file hfile)

theorem frame_write {bytes : List β} (hfile : fs.names.lookup name = some file)
    (hsole : fs.Sole name) : fs.Frame (fs.write file bytes) (some name) := by
  refine ⟨fun other file' hown hfile' => ⟨hfile', ?_⟩, fun _ _ _ _ h => h⟩
  refine Function.update_of_ne ?_ _ _
  rintro rfl
  exact hown (congrArg some (hsole other file' hfile hfile').symm)

theorem frame_link {target : Name} (hfile : fs.names.lookup name = some file)
    (hfree : fs.names.lookup target = none) :
    fs.Frame (fs.link target file (fs.fresh name file hfile)) (some name) := by
  refine ⟨fun other file' _ hfile' => ⟨?_, rfl⟩, fun other file' hown hfile' hsole => ?_⟩
  · unfold link
    rw [OrderedMap.lookup_insert, if_neg, hfile']
    rintro rfl
    rw [hfree] at hfile'
    exact absurd hfile' (by simp)
  · have hne : other ∉ ({name, target} : Set Name) := by
      rintro (rfl | rfl)
      · exact hown rfl
      · rw [hfree] at hfile'
        exact absurd hfile' (by simp)
    intro third file'' hfile'' hthird
    unfold link at hfile'' hthird
    rw [OrderedMap.lookup_insert, if_neg fun h => hne (by simp [h]), hfile', Option.some.injEq] at hfile''
    subst hfile''
    rw [OrderedMap.lookup_insert] at hthird
    split_ifs at hthird with heq
    · obtain rfl := Option.some.inj hthird
      exact absurd (hsole name file hfile' hfile) fun h => hne (by simp [h])
    · exact hsole third file' hfile' hthird

theorem frame_unlink (name : Name) : fs.Frame (fs.unlink name) (some name) := by
  refine ⟨fun other file hown hfile => ⟨?_, rfl⟩, fun other file hown _ => ?_⟩
  · unfold unlink
    rw [OrderedMap.lookup_erase, if_neg, hfile]
    rintro rfl
    exact hown rfl
  · refine (keeps_unlink name).sole other ?_
    rintro rfl
    exact hown rfl

end FileSystem

/-! ### What holds of one publisher -/

namespace Publication

variable {Name β : Type} [LinearOrder Name] [DecidableEq β] {p : Publication Name β}
  {fs t : FileSystem Name β} {stage stage' : PublishStage Name β} {found : List β}
  {result : Except PublishError Unit}

/-- A publisher has compared its bytes with what its name reads. -/
def Verdict (p : Publication Name β) (fs : FileSystem Name β) (result : Except PublishError Unit) :
    Prop := ∃ found, fs.read p.target = some found ∧ result = p.compare found

/-- What a publisher knows of the directory. -/
def Stands (p : Publication Name β) (fs : FileSystem Name β) : PublishStage Name β → Prop
  | .looking | .drawing => True
  | .reading file => fs.names.lookup p.target = some file
  | .writing temporary file rest => fs.names.lookup temporary = some file ∧ fs.Sole temporary ∧
      fs.contents file ++ rest = p.bytes
  | .linking temporary => fs.read temporary = some p.bytes ∧ fs.Sole temporary
  | .removing temporary linked => fs.names.lookup temporary ≠ none ∧
      (linked = .ok () ∧ fs.read p.target = some p.bytes ∨
        linked = .error .alreadyExists ∧ fs.names.lookup p.target ≠ none)
  | .confirming => fs.names.lookup p.target ≠ none
  | .ended result => p.Verdict fs result

/-- The name that a publisher holds is one of its temporary names. -/
def Holds (p : Publication Name β) (stage : PublishStage Name β) : Prop :=
  ∀ temporary, stage.own = some temporary → ∃ number, temporary = p.temporary number

/-- What one step does. -/
structure Advanced (p : Publication Name β) (stage : PublishStage Name β) (fs : FileSystem Name β)
    (stage' : PublishStage Name β) (t : FileSystem Name β) : Prop where
  frame : fs.Frame t stage.own
  stands : p.Stands t stage'
  holds : p.Holds stage'
  begun : stage'.begun = true
  /-- A name that is held now was held before or was free. -/
  own : ∀ temporary, stage'.own = some temporary →
    stage.own = some temporary ∨ fs.names.lookup temporary = none
  /-- A name that reads something now is the target or temporary. -/
  new : ∀ name bytes, fs.read name = none → t.read name = some bytes →
    (∃ number, name = p.temporary number) ∨ name = p.target ∧ bytes = p.bytes

omit [LinearOrder Name] in
theorem compare_bytes (p : Publication Name β) : p.compare p.bytes = .ok () := by
  unfold compare
  rw [if_neg (not_lt.2 p.fits), if_pos rfl]

omit [LinearOrder Name] in
theorem compare_eq_ok : p.compare found = .ok () ↔ found = p.bytes := by
  constructor
  · intro h
    unfold compare at h
    split_ifs at h with _ hsame
    exact hsame
  · rintro rfl
    exact compare_bytes p

omit [LinearOrder Name] in
/-- A file that is short enough is refused for its bytes only. -/
theorem compare_eq_error {error : PublishError} (hlength : found.length ≤ p.limit)
    (h : p.compare found = .error error) : error = .conflicting ∧ found ≠ p.bytes := by
  unfold compare at h
  rw [if_neg (not_lt.2 hlength)] at h
  split_ifs at h with hsame
  exact ⟨(Except.error.inj h).symm, hsame⟩

theorem Stands.named (h : p.Stands fs stage) {temporary : Name}
    (hown : stage.own = some temporary) : fs.names.lookup temporary ≠ none := by
  cases stage with
  | writing temporary' file rest =>
      obtain rfl := Option.some.inj hown
      rw [h.1]
      exact Option.some_ne_none file
  | linking temporary' =>
      obtain rfl := Option.some.inj hown
      rw [ne_eq, ← FileSystem.read_eq_none_iff, h.1]
      exact Option.some_ne_none _
  | removing temporary' linked =>
      obtain rfl := Option.some.inj hown
      exact h.1
  | looking => exact absurd hown nofun
  | reading file => exact absurd hown nofun
  | drawing => exact absurd hown nofun
  | confirming => exact absurd hown nofun
  | ended result => exact absurd hown nofun

/-- A step that leaves the directory as it is. -/
theorem Advanced.same (hstands : p.Stands fs stage') (hholds : p.Holds stage')
    (hbegun : stage'.begun = true)
    (hown : ∀ temporary, stage'.own = some temporary → stage.own = some temporary) :
    p.Advanced stage fs stage' fs where
  frame := .refl fs _
  stands := hstands
  holds := hholds
  begun := hbegun
  own temporary h := .inl (hown temporary h)
  new name bytes hnone hsome := absurd (hnone.symm.trans hsome) (by simp)

theorem advance_looking (number : ℕ) : p.advance number .looking fs =
    match fs.names.lookup p.target with
    | none => (.drawing, fs)
    | some file => (.reading file, fs) := rfl

theorem advance_confirming (number : ℕ) : p.advance number .confirming fs =
    match fs.names.lookup p.target with
    | none => (.ended (.error .disappeared), fs)
    | some file => (.reading file, fs) := rfl

theorem advance_drawing (number : ℕ) : p.advance number .drawing fs =
    if fs.names.lookup (p.temporary number) ≠ none then (.drawing, fs)
    else (.writing (p.temporary number) fs.next p.bytes, fs.create (p.temporary number)) := by
  unfold advance
  dsimp only
  rw [FileSystem.act_createNew]
  split_ifs <;> rfl

theorem advance_linking {temporary : Name} {file : ℕ} (h : fs.names.lookup temporary = some file)
    (number : ℕ) : p.advance number (.linking temporary) fs =
      if fs.names.lookup p.target ≠ none then (.removing temporary (.error .alreadyExists), fs)
      else (.removing temporary (.ok ()), fs.link p.target file (fs.fresh temporary file h)) := by
  unfold advance
  dsimp only
  rw [FileSystem.act_hardLink h]
  split_ifs <;> rfl

theorem advance_removing {temporary : Name} (h : fs.names.lookup temporary ≠ none)
    (linked : Except FileError Unit) (number : ℕ) :
    p.advance number (.removing temporary linked) fs = (match linked with
      | .ok () => .ended (.ok ())
      | .error .alreadyExists => .confirming
      | .error error => .ended (.error (.file error)), fs.unlink temporary) := by
  unfold advance
  dsimp only
  rw [FileSystem.act_removeFile, if_neg h]
  rcases linked with (_ | _) | _ <;> rfl

/-- A temporary file is created. -/
theorem advanced_create {number : ℕ} (hfree : fs.names.lookup (p.temporary number) = none) :
    p.Advanced .drawing fs (.writing (p.temporary number) fs.next p.bytes)
      (fs.create (p.temporary number)) where
  frame := FileSystem.frame_create hfree
  stands := by
    refine ⟨by simp [FileSystem.create], FileSystem.sole_create, ?_⟩
    show Function.update fs.contents fs.next [] fs.next ++ p.bytes = p.bytes
    rw [Function.update_self, List.nil_append]
  holds := fun _ h => ⟨number, (Option.some.inj h).symm⟩
  begun := rfl
  own := fun _ h => .inr (Option.some.inj h ▸ hfree)
  new := by
    intro name bytes hnone hsome
    rw [FileSystem.read_eq_none_iff] at hnone
    obtain ⟨file, hfile, -⟩ := FileSystem.read_eq_some_iff.1 hsome
    unfold FileSystem.create at hfile
    rw [OrderedMap.lookup_insert] at hfile
    split_ifs at hfile with heq
    · exact .inl ⟨number, heq⟩
    · exact absurd (hnone.symm.trans hfile) (by simp)

/-- One more byte is written. -/
theorem advanced_append {temporary : Name} {file : ℕ} {b : β} {rest : List β}
    (hstands : p.Stands fs (.writing temporary file (b :: rest)))
    (hholds : p.Holds (.writing temporary file (b :: rest))) :
    p.Advanced (.writing temporary file (b :: rest)) fs (.writing temporary file rest)
      (fs.write file (fs.contents file ++ [b])) where
  frame := FileSystem.frame_write hstands.1 hstands.2.1
  stands := by
    refine ⟨hstands.1, hstands.2.1, ?_⟩
    show Function.update fs.contents file (fs.contents file ++ [b]) file ++ rest = p.bytes
    rw [Function.update_self, List.append_assoc, List.singleton_append, hstands.2.2]
  holds := hholds
  begun := rfl
  own := fun _ h => .inl h
  new := by
    intro name bytes hnone hsome
    rw [FileSystem.read_eq_none_iff] at hnone
    obtain ⟨file', hfile', -⟩ := FileSystem.read_eq_some_iff.1 hsome
    exact absurd (hnone.symm.trans hfile') (by simp)

/-- The file is linked to its name. -/
theorem advanced_link {temporary : Name} {file : ℕ} (hne : temporary ≠ p.target)
    (hholds : p.Holds (.linking temporary)) (hfile : fs.names.lookup temporary = some file)
    (hbytes : fs.contents file = p.bytes) (hfree : fs.names.lookup p.target = none) :
    p.Advanced (.linking temporary) fs (.removing temporary (.ok ()))
      (fs.link p.target file (fs.fresh temporary file hfile)) where
  frame := FileSystem.frame_link hfile hfree
  stands := by
    refine ⟨by simp [FileSystem.link, hne, hfile], .inl ⟨rfl, ?_⟩⟩
    exact FileSystem.read_eq_some_iff.2 ⟨file, by simp [FileSystem.link], hbytes⟩
  holds := hholds
  begun := rfl
  own := fun _ h => .inl h
  new := by
    intro name bytes hnone hsome
    rw [FileSystem.read_eq_none_iff] at hnone
    obtain ⟨file', hfile', hbytes'⟩ := FileSystem.read_eq_some_iff.1 hsome
    unfold FileSystem.link at hfile'
    rw [OrderedMap.lookup_insert] at hfile'
    split_ifs at hfile' with heq
    · obtain rfl := Option.some.inj hfile'
      exact .inr ⟨heq, hbytes'.symm.trans hbytes⟩
    · exact absurd (hnone.symm.trans hfile') (by simp)

/-- The temporary name is removed. -/
theorem advanced_unlink {temporary : Name} {linked : Except FileError Unit}
    (hstands : p.Stands (fs.unlink temporary) stage') (hheld : stage'.own = none)
    (hbegun : stage'.begun = true) :
    p.Advanced (.removing temporary linked) fs stage' (fs.unlink temporary) where
  frame := FileSystem.frame_unlink temporary
  stands := hstands
  holds := fun _ h => absurd (hheld.symm.trans h) (by simp)
  begun := hbegun
  own := fun _ h => absurd (hheld.symm.trans h) (by simp)
  new := by
    intro name bytes hnone hsome
    rw [FileSystem.read_eq_none_iff] at hnone
    obtain ⟨file, hfile, -⟩ := FileSystem.read_eq_some_iff.1 hsome
    unfold FileSystem.unlink at hfile
    rw [OrderedMap.lookup_erase] at hfile
    split_ifs at hfile
    exact absurd (hnone.symm.trans hfile) (by simp)

/-- **One step of a publisher.** -/
theorem advance_spec (hapart : ∀ number, p.temporary number ≠ p.target) (hstands : p.Stands fs stage)
    (hholds : p.Holds stage) (number : ℕ) :
    p.Advanced stage fs (p.advance number stage fs).1 (p.advance number stage fs).2 := by
  cases stage with
  | looking =>
      rw [advance_looking]
      cases hfile : fs.names.lookup p.target with
      | none => exact .same trivial nofun rfl nofun
      | some file => exact .same hfile nofun rfl nofun
  | reading file =>
      exact .same ⟨fs.contents file, FileSystem.read_eq_some_iff.2 ⟨file, hstands, rfl⟩, rfl⟩ nofun
        rfl nofun
  | ended result => exact .same hstands nofun rfl nofun
  | confirming =>
      obtain ⟨file, hfile⟩ := Option.ne_none_iff_exists'.1 hstands
      rw [advance_confirming, hfile]
      exact .same hfile nofun rfl nofun
  | drawing =>
      rw [advance_drawing]
      split_ifs with htaken
      · exact .same trivial nofun rfl nofun
      · exact advanced_create (not_not.1 htaken)
  | writing temporary file rest =>
      cases rest with
      | nil =>
          obtain ⟨hfile, hsole, hbytes⟩ := hstands
          rw [List.append_nil] at hbytes
          exact .same ⟨FileSystem.read_eq_some_iff.2 ⟨file, hfile, hbytes⟩, hsole⟩ hholds rfl fun _ h => h
      | cons b rest => exact advanced_append hstands hholds
  | linking temporary =>
      obtain ⟨hread, hsole⟩ := hstands
      obtain ⟨file, hfile, hbytes⟩ := FileSystem.read_eq_some_iff.1 hread
      have hne : temporary ≠ p.target := by
        obtain ⟨number, rfl⟩ := hholds temporary rfl
        exact hapart number
      rw [advance_linking hfile]
      split_ifs with htaken
      · exact .same ⟨by simp [hfile], .inr ⟨rfl, htaken⟩⟩ hholds rfl fun _ h => h
      · exact advanced_link hne hholds hfile hbytes (not_not.1 htaken)
  | removing temporary linked =>
      obtain ⟨hnamed, hlinked⟩ := hstands
      have hne : (PublishStage.removing temporary linked : PublishStage Name β).own ≠
          some p.target := by
        obtain ⟨number, rfl⟩ := hholds temporary rfl
        exact fun h => hapart number (Option.some.inj h)
      rw [advance_removing hnamed]
      rcases hlinked with ⟨rfl, hread⟩ | ⟨rfl, htaken⟩
      · exact advanced_unlink ⟨p.bytes, (FileSystem.frame_unlink temporary).read hne hread,
          p.compare_bytes.symm⟩ rfl rfl
      · obtain ⟨file, hfile⟩ := Option.ne_none_iff_exists'.1 htaken
        refine advanced_unlink (show p.Stands _ .confirming from ?_) rfl rfl
        rw [Stands, ((FileSystem.frame_unlink temporary).named _ _ hne hfile).1]
        exact Option.some_ne_none file

/-- **What another publisher knows stays true.** -/
theorem Stands.framed {own : Option Name} (h : p.Stands fs stage) (hframe : fs.Frame t own)
    (htarget : own ≠ some p.target) (hown : ∀ name, stage.own = some name → own ≠ some name) :
    p.Stands t stage := by
  have hnamed : ∀ {name}, own ≠ some name → fs.names.lookup name ≠ none →
      t.names.lookup name ≠ none := by
    intro name hname hsome
    obtain ⟨file, hfile⟩ := Option.ne_none_iff_exists'.1 hsome
    rw [(hframe.named name file hname hfile).1]
    exact Option.some_ne_none file
  cases stage with
  | looking => exact trivial
  | drawing => exact trivial
  | reading file => exact (hframe.named _ file htarget h).1
  | confirming => exact hnamed htarget h
  | ended result =>
      obtain ⟨found, hread, hresult⟩ := h
      exact ⟨found, hframe.read htarget hread, hresult⟩
  | writing temporary file rest =>
      obtain ⟨hfile, hsole, hbytes⟩ := h
      obtain ⟨hfile', hcontents⟩ := hframe.named _ file (hown temporary rfl) hfile
      exact ⟨hfile', hframe.sole _ file (hown temporary rfl) hfile hsole, hcontents ▸ hbytes⟩
  | linking temporary =>
      obtain ⟨hread, hsole⟩ := h
      obtain ⟨file, hfile, -⟩ := FileSystem.read_eq_some_iff.1 hread
      exact ⟨hframe.read (hown temporary rfl) hread,
        hframe.sole _ file (hown temporary rfl) hfile hsole⟩
  | removing temporary linked =>
      obtain ⟨hheld, hlinked⟩ := h
      refine ⟨hnamed (hown temporary rfl) hheld, hlinked.imp (fun h => ⟨h.1, ?_⟩) fun h => ⟨h.1, ?_⟩⟩
      · exact hframe.read htarget h.2
      · exact hnamed htarget h.2

end Publication

/-- A directory, and where each publisher stands. -/
structure Publishing (ι Name β : Type) [LinearOrder Name] where
  files : FileSystem Name β
  stage : ι → PublishStage Name β

namespace Publishing

variable {ι Name β : Type} [DecidableEq ι] [LinearOrder Name] [DecidableEq β]

/-- Nobody has begun. -/
def start (files : FileSystem Name β) : Publishing ι Name β := ⟨files, fun _ => .looking⟩

/-- Whether a publisher has succeeded. -/
def succeeded (s : Publishing ι Name β) (i : ι) : Bool :=
  match s.stage i with
  | .ended (.ok ()) => true
  | _ => false

variable (publications : ι → Publication Name β) (before : ι → Option ι)

/-- Whether the publisher that comes before has succeeded. -/
def ready (s : Publishing ι Name β) (i : ι) : Bool := (before i).all s.succeeded

/-- A publisher takes a step, unless it has to wait. -/
def step (s : Publishing ι Name β) (move : ι × ℕ) : Publishing ι Name β :=
  if s.ready before move.1 then
    let out := (publications move.1).advance move.2 (s.stage move.1) s.files
    ⟨out.2, Function.update s.stage move.1 out.1⟩
  else s

/-- Steps in the order of a schedule. -/
def run (s : Publishing ι Name β) (schedule : List (ι × ℕ)) : Publishing ι Name β :=
  schedule.foldl (step publications before) s

/-! ### What holds of all of them -/

/-- No name is published that may be a temporary one. -/
def Apart : Prop := ∀ i j number, (publications i).temporary number ≠ (publications j).target

/-- Publishers stand where they say, no two of them hold one temporary name, and none has begun
that has to wait. -/
structure Valid (s : Publishing ι Name β) : Prop where
  stands : ∀ i, (publications i).Stands s.files (s.stage i)
  holds : ∀ i, (publications i).Holds (s.stage i)
  apart : ∀ i j name, i ≠ j → (s.stage i).own = some name → (s.stage j).own ≠ some name
  waited : ∀ i, (s.stage i).begun = true → s.ready before i = true

/-- Of the names that cannot be temporary, what is read stays, and what is new is the whole
of what a publisher publishes that has begun; and who has ended has ended. -/
structure Grows (s t : Publishing ι Name β) : Prop where
  kept : ∀ name bytes, (∀ i number, (publications i).temporary number ≠ name) →
    s.files.read name = some bytes → t.files.read name = some bytes
  new : ∀ name bytes, (∀ i number, (publications i).temporary number ≠ name) →
    s.files.read name = none → t.files.read name = some bytes →
      ∃ i, (publications i).target = name ∧ (publications i).bytes = bytes ∧
        (t.stage i).begun = true
  begun : ∀ i, (s.stage i).begun = true → (t.stage i).begun = true
  ended : ∀ i result, s.stage i = .ended result → t.stage i = .ended result

variable {publications before} {s t u : Publishing ι Name β}

omit [DecidableEq ι] [DecidableEq β] in
theorem Grows.refl (s : Publishing ι Name β) : Grows publications s s :=
  ⟨fun _ _ _ h => h, fun _ _ _ h h' => absurd (h.symm.trans h') (by simp), fun _ h => h,
    fun _ _ h => h⟩

omit [DecidableEq ι] [DecidableEq β] in
theorem Grows.trans (h : Grows publications s t) (h' : Grows publications t u) :
    Grows publications s u where
  kept name bytes hname hread := h'.kept name bytes hname (h.kept name bytes hname hread)
  new name bytes hname hnone hread := by
    cases hmid : t.files.read name with
    | none => exact h'.new name bytes hname hmid hread
    | some found =>
        obtain rfl := Option.some.inj ((h'.kept name found hname hmid).symm.trans hread)
        obtain ⟨i, htarget, hbytes, hbegun⟩ := h.new name found hname hnone hmid
        exact ⟨i, htarget, hbytes, h'.begun i hbegun⟩
  begun i hbegun := h'.begun i (h.begun i hbegun)
  ended i result hended := h'.ended i result (h.ended i result hended)

omit [DecidableEq ι] [DecidableEq β] in
theorem succeeded_iff {i : ι} :
    s.succeeded i = true ↔ s.stage i = .ended (.ok ()) := by
  unfold succeeded
  split <;> simp_all

omit [DecidableEq ι] [DecidableEq β] in
theorem Grows.ready (h : Grows publications s t) {i : ι} (hready : s.ready before i = true) :
    t.ready before i = true := by
  unfold Publishing.ready at hready ⊢
  cases hbefore : before i with
  | none => rfl
  | some j =>
      rw [hbefore, Option.all_some, succeeded_iff] at hready
      exact succeeded_iff.2 (h.ended j _ hready)

omit [DecidableEq ι] in
theorem valid_start (fs : FileSystem Name β) : Valid publications before (start fs) :=
  ⟨fun _ => trivial, fun _ => nofun, fun _ _ _ _ => nofun, fun _ => nofun⟩

omit [DecidableEq ι] in
/-- A publisher that takes a step holds no name that another one holds. -/
theorem apart_of_advanced {i j : ι} {stage' : PublishStage Name β} {fs : FileSystem Name β}
    (h : Valid publications before s)
    (hstep : (publications i).Advanced (s.stage i) s.files stage' fs) (hne : i ≠ j) {name : Name}
    (hi : stage'.own = some name) : (s.stage j).own ≠ some name := by
  intro hj
  rcases hstep.own name hi with hheld | hfree
  · exact h.apart i j name hne hheld hj
  · exact (h.stands j).named hj hfree

/-- **One step** keeps everyone's place, and only adds what is published. -/
theorem step_valid (hapart : Apart publications) (h : Valid publications before s)
    (move : ι × ℕ) : Valid publications before (s.step publications before move) ∧
      Grows publications s (s.step publications before move) := by
  obtain ⟨i, number⟩ := move
  have hstep := Publication.advance_spec (fun number => hapart i i number) (h.stands i) (h.holds i)
    number
  have htemporary : ∀ name, (∀ j number, (publications j).temporary number ≠ name) →
      (s.stage i).own ≠ some name := by
    intro name hname hown
    obtain ⟨number, rfl⟩ := h.holds i name hown
    exact hname i number rfl
  have hended : ∀ result, s.stage i = .ended result →
      ((publications i).advance number (s.stage i) s.files).1 = .ended result := by
    rintro result hresult
    rw [hresult]
    rfl
  unfold step
  dsimp only
  generalize (publications i).advance number (s.stage i) s.files = out at hstep hended
  split_ifs with hready
  · have hgrows : Grows publications s ⟨out.2, Function.update s.stage i out.1⟩ := by
      refine ⟨fun name bytes hname => hstep.frame.read (htemporary name hname),
        fun name bytes hname hnone hread => ?_, ?_, ?_⟩
      · rcases hstep.new name bytes hnone hread with ⟨number, rfl⟩ | ⟨rfl, rfl⟩
        · exact absurd rfl (hname i number)
        · exact ⟨i, rfl, rfl, by simpa using hstep.begun⟩
      · exact (Function.forall_update_iff s.stage fun j stage =>
          (s.stage j).begun = true → stage.begun = true).2 ⟨fun _ => hstep.begun, fun _ _ h => h⟩
      · exact (Function.forall_update_iff s.stage fun j stage =>
          ∀ result, s.stage j = .ended result → stage = .ended result).2
            ⟨hended, fun _ _ _ h => h⟩
    refine ⟨⟨?_, ?_, ?_, ?_⟩, hgrows⟩
    · exact (Function.forall_update_iff s.stage fun j stage =>
        (publications j).Stands out.2 stage).2 ⟨hstep.stands, fun j hji =>
          (h.stands j).framed hstep.frame (htemporary _ fun k number => hapart k j number)
            fun name hj hi => h.apart i j name hji.symm hi hj⟩
    · exact (Function.forall_update_iff s.stage fun j stage => (publications j).Holds stage).2
        ⟨hstep.holds, fun j _ => h.holds j⟩
    · refine (Function.forall_update_iff s.stage fun j stage => ∀ k name, j ≠ k →
        stage.own = some name → (Function.update s.stage i out.1 k).own ≠ some name).2
          ⟨fun k name hik hown => ?_, fun j hji k name hjk hown => ?_⟩
      · rw [Function.update_of_ne hik.symm]
        exact apart_of_advanced h hstep hik hown
      · by_cases hki : k = i
        · subst hki
          rw [Function.update_self]
          exact fun hk => apart_of_advanced h hstep hji.symm hk hown
        · rw [Function.update_of_ne hki]
          exact h.apart j k name hjk hown
    · exact (Function.forall_update_iff s.stage fun j stage => stage.begun = true →
        ready before ⟨out.2, Function.update s.stage i out.1⟩ j = true).2
          ⟨fun _ => hgrows.ready hready, fun j _ hj => hgrows.ready (h.waited j hj)⟩
  · exact ⟨h, .refl s⟩

/-- **A run** keeps everyone's place, and only adds what is published. -/
theorem run_valid (hapart : Apart publications) (h : Valid publications before s)
    (schedule : List (ι × ℕ)) :
    Valid publications before (s.run publications before schedule) ∧
      Grows publications s (s.run publications before schedule) := by
  induction schedule generalizing s with
  | nil => exact ⟨h, .refl s⟩
  | cons move schedule ih =>
      obtain ⟨hvalid, hgrows⟩ := step_valid hapart h move
      obtain ⟨hrun, hgrows'⟩ := ih hvalid
      exact ⟨hrun, hgrows.trans hgrows'⟩

/-! ### Ending -/

/-- How many steps a publisher takes at most, where the names it draws are free. -/
def remaining (p : Publication Name β) : PublishStage Name β → ℕ
  | .looking => p.bytes.length + 7
  | .drawing => p.bytes.length + 6
  | .writing _ _ rest => rest.length + 5
  | .linking _ => 4
  | .removing _ _ => 3
  | .confirming => 2
  | .reading _ => 1
  | .ended _ => 0

omit [DecidableEq ι] in
theorem remaining_le (h : Valid publications before s) (i : ι) :
    remaining (publications i) (s.stage i) ≤ (publications i).bytes.length + 7 := by
  have hstands := h.stands i
  cases hstage : s.stage i with
  | writing temporary file rest =>
      rw [hstage] at hstands
      have hlength := congrArg List.length hstands.2.2
      rw [List.length_append] at hlength
      show rest.length + 5 ≤ (publications i).bytes.length + 7
      omega
  | _ => simp [remaining]

omit [DecidableEq ι] in
/-- A publisher that has ended answers what its name reads. -/
theorem Valid.verdict (h : Valid publications before s) {i : ι} {result : Except PublishError Unit}
    (hended : s.stage i = .ended result) : (publications i).Verdict s.files result := by
  have hstands := h.stands i
  rwa [hended] at hstands

omit [DecidableEq ι] in
/-- A publisher that has succeeded reads its bytes. -/
theorem Valid.published (h : Valid publications before s) {i : ι} (hi : s.succeeded i = true) :
    s.files.read (publications i).target = some (publications i).bytes := by
  obtain ⟨found, hread, hresult⟩ := h.verdict (succeeded_iff.1 hi)
  rwa [Publication.compare_eq_ok.1 hresult.symm] at hread

/-- **A step of a publisher brings it closer to its end.** -/
theorem remaining_advance {p : Publication Name β} {fs : FileSystem Name β}
    {stage : PublishStage Name β} (hstands : p.Stands fs stage) {number : ℕ}
    (hfree : fs.names.lookup (p.temporary number) = none) (hpos : remaining p stage ≠ 0) :
    remaining p (p.advance number stage fs).1 < remaining p stage := by
  cases stage with
  | looking =>
      rw [Publication.advance_looking]
      cases fs.names.lookup p.target <;> simp [remaining]
  | reading file => exact Nat.zero_lt_one
  | drawing =>
      rw [Publication.advance_drawing, if_neg (not_not.2 hfree)]
      exact Nat.lt_succ_self _
  | writing temporary file rest =>
      cases rest with
      | nil => exact Nat.lt_succ_self 4
      | cons b rest => exact Nat.lt_succ_self (rest.length + 5)
  | linking temporary => exact Nat.lt_succ_self 3
  | removing temporary linked =>
      obtain ⟨hnamed, hlinked⟩ := hstands
      rw [Publication.advance_removing hnamed]
      rcases hlinked with ⟨rfl, -⟩ | ⟨rfl, -⟩ <;> simp [remaining]
  | confirming =>
      rw [Publication.advance_confirming]
      cases fs.names.lookup p.target <;> simp [remaining]
  | ended result => exact absurd rfl hpos

omit [DecidableEq β] in
/-- A directory never takes all temporary names. -/
theorem exists_free (p : Publication Name β) (fs : FileSystem Name β) :
    ∃ number, fs.names.lookup (p.temporary number) = none := by
  obtain ⟨_, ⟨number, rfl⟩, hfree⟩ :=
    (Set.infinite_range_of_injective p.injective).exists_notMem_finset fs.names.keys.toFinset
  rw [List.mem_toFinset, OrderedMap.mem_keys_iff, not_not] at hfree
  exact ⟨number, hfree⟩

/-- **Nobody keeps a publisher from ending**: where it does not have to wait, a few steps of
its own are enough, whatever the others have left behind. -/
theorem finishes (hapart : Apart publications) (h : Valid publications before s) {i : ι}
    (hready : s.ready before i = true) : ∃ numbers : List ℕ,
      numbers.length ≤ (publications i).bytes.length + 7 ∧ ∃ result,
        (s.run publications before (numbers.map fun number => (i, number))).stage i =
          .ended result := by
  suffices ∃ numbers : List ℕ, numbers.length ≤ remaining (publications i) (s.stage i) ∧ ∃ result,
      (s.run publications before (numbers.map fun number => (i, number))).stage i =
        .ended result by
    obtain ⟨numbers, hlength, hended⟩ := this
    exact ⟨numbers, hlength.trans (remaining_le h i), hended⟩
  -- by induction on what remains, under the invariant and with the publisher ready
  generalize hleft : remaining (publications i) (s.stage i) = left
  induction left using Nat.strong_induction_on generalizing s with
  | _ left ih =>
      by_cases hzero : left = 0
      · subst hzero
        refine ⟨[], le_rfl, ?_⟩
        show ∃ result, s.stage i = .ended result
        cases hstage : s.stage i with
        | ended result => exact ⟨result, rfl⟩
        | _ => simp [remaining, hstage] at hleft
      · obtain ⟨number, hfree⟩ := exists_free (publications i) s.files
        obtain ⟨hvalid, hgrows⟩ := step_valid hapart h (i, number)
        have hstep : (s.step publications before (i, number)).stage i =
            ((publications i).advance number (s.stage i) s.files).1 := by
          unfold step
          rw [if_pos hready]
          exact Function.update_self _ _ _
        have hless := remaining_advance (h.stands i) hfree (hleft ▸ hzero)
        rw [← hstep, hleft] at hless
        obtain ⟨numbers, hlength, hended⟩ := ih _ hless hvalid (hgrows.ready hready) rfl
        exact ⟨number :: numbers, (Nat.succ_le_succ hlength).trans hless, hended⟩

end Publishing

end Storage
