/-
# Files and their names

A directory maps names to files, and several names may stand for one file.  Bytes
are written to a file, never to a name: what a name reads changes with every name of
the same file.  A name is the `Sole` name of its file if no other name shares it, so
writing to that file changes what no other name reads.

Two ways of writing a file so that a crash leaves it whole or not at all:

* `replaceFile` writes a temporary file and renames it over the target.  Until the
  rename only the temporary name reads something else (`replaceFile_spec`).
* `publishFile` writes a new temporary file, links it to a target that must not
  exist, and removes the temporary name (`publishFile_spec`).  A crash may leave both
  names for one file.

Every step takes effect at once and lasts.
-/

import CordialMiners.Storage.Program
import CordialMiners.Collections.OrderedMap

namespace Storage

open Program

/-- Why a step on files fails. -/
inductive FileError where
  | notFound
  | alreadyExists
deriving DecidableEq, Repr

/-- A directory and its files; a file that is still to come has no name. -/
structure FileSystem (Name β : Type) [LinearOrder Name] where
  names : OrderedMap Name ℕ
  contents : ℕ → List β
  next : ℕ
  fresh : ∀ name file, names.lookup name = some file → file < next

namespace FileSystem

variable {Name β : Type} [LinearOrder Name]

/-- No files. -/
def empty : FileSystem Name β := ⟨.empty, fun _ => [], 0, fun _ _ h => absurd h (by simp)⟩

/-- What a name reads. -/
def read (fs : FileSystem Name β) (name : Name) : Option (List β) :=
  (fs.names.lookup name).map fs.contents

/-- A new file without bytes. -/
def create (fs : FileSystem Name β) (name : Name) : FileSystem Name β where
  names := fs.names.insert name fs.next
  contents := Function.update fs.contents fs.next []
  next := fs.next + 1
  fresh := by
    intro other file h
    rw [OrderedMap.lookup_insert] at h
    split_ifs at h
    · exact Option.some.inj h ▸ Nat.lt_succ_self _
    · exact (fs.fresh other file h).trans (Nat.lt_succ_self _)

/-- Set the bytes of a file. -/
def write (fs : FileSystem Name β) (file : ℕ) (bytes : List β) : FileSystem Name β :=
  { fs with contents := Function.update fs.contents file bytes }

/-- One more name for the file of a name. -/
def link (fs : FileSystem Name β) (name : Name) (file : ℕ) (h : file < fs.next) :
    FileSystem Name β where
  names := fs.names.insert name file
  contents := fs.contents
  next := fs.next
  fresh := by
    intro other file' hlookup
    rw [OrderedMap.lookup_insert] at hlookup
    split_ifs at hlookup
    · exact Option.some.inj hlookup ▸ h
    · exact fs.fresh other file' hlookup

/-- One name less. -/
def unlink (fs : FileSystem Name β) (name : Name) : FileSystem Name β where
  names := fs.names.erase name
  contents := fs.contents
  next := fs.next
  fresh := by
    intro other file h
    rw [OrderedMap.lookup_erase] at h
    split_ifs at h
    exact fs.fresh other file h

/-- No other name stands for the file of this one. -/
def Sole (fs : FileSystem Name β) (name : Name) : Prop :=
  ∀ other file, fs.names.lookup name = some file → fs.names.lookup other = some file → other = name

/-- Only these names changed: the others read the same, and none of them shares its file
with more names than before. -/
structure Keeps (fs t : FileSystem Name β) (touched : Set Name) : Prop where
  same : ∀ name ∉ touched, t.read name = fs.read name
  sole : ∀ name ∉ touched, fs.Sole name → t.Sole name

/-! ### Steps -/

/-- Open for writing, without bytes, and create the file if it is not there. -/
def openTruncated (name : Name) : Program (FileSystem Name β) FileError ℕ :=
  step fun fs => match fs.names.lookup name with
    | some file => .ok (file, fs.write file [])
    | none => .ok (fs.next, fs.create name)

/-- Open a new file for writing. -/
def createNew (name : Name) : Program (FileSystem Name β) FileError ℕ :=
  step fun fs =>
    if fs.names.lookup name ≠ none then .error .alreadyExists else .ok (fs.next, fs.create name)

/-- Write one more byte. -/
def append (file : ℕ) (b : β) : Program (FileSystem Name β) FileError Unit :=
  step fun fs => .ok ((), fs.write file (fs.contents file ++ [b]))

/-- Write byte by byte. -/
def writeAll (file : ℕ) (bytes : List β) : Program (FileSystem Name β) FileError Unit :=
  bytes.forM (append file)

/-- Move a name over another one; two names of one file stay as they are. -/
def rename (source target : Name) : Program (FileSystem Name β) FileError Unit :=
  step fun fs => match h : fs.names.lookup source with
    | none => .error .notFound
    | some file => .ok ((), if fs.names.lookup target = some file then fs
        else (fs.link target file (fs.fresh source file h)).unlink source)

/-- Give the file of a name one more name. -/
def hardLink (source target : Name) : Program (FileSystem Name β) FileError Unit :=
  step fun fs => match h : fs.names.lookup source with
    | none => .error .notFound
    | some file =>
        if fs.names.lookup target ≠ none then .error .alreadyExists
        else .ok ((), fs.link target file (fs.fresh source file h))

/-- Remove a name. -/
def removeFile (name : Name) : Program (FileSystem Name β) FileError Unit :=
  step fun fs => if fs.names.lookup name = none then .error .notFound
    else .ok ((), fs.unlink name)

/-- Write a file through a temporary one that is renamed. -/
def replaceFile (temporary target : Name) (bytes : List β) :
    Program (FileSystem Name β) FileError Unit := do
  let file ← openTruncated temporary
  writeAll file bytes
  rename temporary target

/-- Write a new file through a temporary one that is linked and removed. -/
def publishFile (temporary target : Name) (bytes : List β) :
    Program (FileSystem Name β) FileError Unit := do
  let file ← createNew temporary
  writeAll file bytes
  hardLink temporary target
  removeFile temporary

variable {fs t u : FileSystem Name β} {name other temporary target : Name} {file : ℕ}
  {bytes : List β} {touched touched' : Set Name} {C : FileSystem Name β → Prop}
  {Q : FileSystem Name β → Prop}

/-! ### What a step keeps -/

theorem read_eq_none_iff : fs.read name = none ↔ fs.names.lookup name = none := by
  unfold read
  rw [Option.map_eq_none_iff]

theorem read_eq_some_iff : fs.read name = some bytes ↔
    ∃ file, fs.names.lookup name = some file ∧ fs.contents file = bytes := by
  unfold read
  rw [Option.map_eq_some_iff]

theorem Keeps.rfl : fs.Keeps fs touched := ⟨fun _ _ => Eq.refl _, fun _ _ h => h⟩

theorem Keeps.trans (h : fs.Keeps t touched) (h' : t.Keeps u touched') :
    fs.Keeps u (touched ∪ touched') := by
  constructor
  · intro name hname
    rw [Set.mem_union, not_or] at hname
    rw [h'.same name hname.2, h.same name hname.1]
  · intro name hname hsole
    rw [Set.mem_union, not_or] at hname
    exact h'.sole name hname.2 (h.sole name hname.1 hsole)

theorem Keeps.mono (h : fs.Keeps t touched) (hsub : touched ⊆ touched') : fs.Keeps t touched' :=
  ⟨fun name hname => h.same name fun hmem => hname (hsub hmem),
    fun name hname => h.sole name fun hmem => hname (hsub hmem)⟩

@[simp] theorem read_create : (fs.create name).read name = some [] := by
  unfold read create
  simp

/-- Only the new name reads something else. -/
theorem keeps_create : fs.Keeps (fs.create name) {name} := by
  have hlookup : ∀ {other : Name}, other ∉ ({name} : Set Name) →
      (fs.create name).names.lookup other = fs.names.lookup other := by
    intro other hother
    rw [Set.mem_singleton_iff] at hother
    unfold create
    rw [OrderedMap.lookup_insert, if_neg hother]
  constructor
  · intro other hother
    unfold read
    rw [hlookup hother]
    cases hfile : fs.names.lookup other with
    | none => rfl
    | some file =>
        have hne : file ≠ fs.next := (fs.fresh other file hfile).ne
        show some (Function.update fs.contents fs.next [] file) = some (fs.contents file)
        rw [Function.update_of_ne hne]
  · intro other hother hsole third file hfile hthird
    rw [hlookup hother] at hfile
    by_cases hname : third ∈ ({name} : Set Name)
    · rw [Set.mem_singleton_iff] at hname
      subst hname
      have hnext : (fs.create third).names.lookup third = some fs.next := by
        unfold create
        simp
      obtain rfl := Option.some.inj (hnext.symm.trans hthird)
      exact absurd (fs.fresh other fs.next hfile) (lt_irrefl _)
    · rw [hlookup hname] at hthird
      exact hsole third file hfile hthird

/-- A new file has one name. -/
theorem sole_create : (fs.create name).Sole name := by
  intro other file hname hother
  unfold create at hname hother
  rw [OrderedMap.lookup_insert, if_pos rfl] at hname
  obtain rfl := Option.some.inj hname
  rw [OrderedMap.lookup_insert] at hother
  split_ifs at hother with h
  · exact h
  · exact absurd (fs.fresh other fs.next hother) (lt_irrefl _)

theorem keeps_write (hfile : fs.names.lookup name = some file) (hsole : fs.Sole name) :
    fs.Keeps (fs.write file bytes) {name} := by
  constructor
  · intro other hother
    rw [Set.mem_singleton_iff] at hother
    show (fs.names.lookup other).map (Function.update fs.contents file bytes) = _
    unfold read
    cases hfile' : fs.names.lookup other with
    | none => rfl
    | some file' =>
        have hne : file' ≠ file := by
          rintro rfl
          exact hother (hsole other file' hfile hfile')
        rw [Option.map_some, Option.map_some, Function.update_of_ne hne]
  · exact fun _ _ h => h

theorem keeps_link (target : Name) {h : file < fs.next} (hsource : fs.names.lookup temporary = some file)
    (hsole : fs.Sole temporary) : fs.Keeps (fs.link target file h) {temporary, target} := by
  have hlookup : ∀ {other : Name}, other ∉ ({temporary, target} : Set Name) →
      (fs.link target file h).names.lookup other = fs.names.lookup other := by
    intro other hother
    unfold link
    rw [OrderedMap.lookup_insert, if_neg fun heq => hother (by simp [heq])]
  constructor
  · intro other hother
    unfold read
    rw [hlookup hother]
    rfl
  · intro other hother hother' third file' hfile' hthird
    rw [hlookup hother] at hfile'
    have hne : file' ≠ file := by
      rintro rfl
      exact hother (by simp [hsole other file' hsource hfile'])
    unfold link at hthird
    rw [OrderedMap.lookup_insert] at hthird
    split_ifs at hthird with heq
    · exact absurd (Option.some.inj hthird) hne.symm
    · exact hother' third file' hfile' hthird

theorem keeps_unlink (name : Name) : fs.Keeps (fs.unlink name) {name} := by
  have hlookup : ∀ {other : Name}, other ≠ name →
      (fs.unlink name).names.lookup other = fs.names.lookup other := by
    intro other hother
    unfold unlink
    rw [OrderedMap.lookup_erase, if_neg hother]
  constructor
  · intro other hother
    rw [Set.mem_singleton_iff] at hother
    unfold read
    rw [hlookup hother]
    rfl
  · intro other hother hsole third file hfile hthird
    rw [Set.mem_singleton_iff] at hother
    rw [hlookup hother] at hfile
    unfold unlink at hthird
    rw [OrderedMap.lookup_erase] at hthird
    split_ifs at hthird
    exact hsole third file hfile hthird

@[simp] theorem read_unlink : (fs.unlink name).read name = none := by
  rw [read_eq_none_iff]
  unfold unlink
  simp

/-! ### Writing a file -/

/-- A file under one name that is being written: `rest` is still to come. -/
structure Writing (fs t : FileSystem Name β) (temporary : Name) (file : ℕ) (bytes rest : List β) :
    Prop where
  keeps : fs.Keeps t {temporary}
  named : t.names.lookup temporary = some file
  sole : t.Sole temporary
  written : t.contents file ++ rest = bytes

theorem Writing.contents_eq (h : fs.Writing t temporary file bytes []) : t.contents file = bytes := by
  rw [← h.written, List.append_nil]

/-- An opened file is empty, and nothing else changes. -/
theorem openTruncated_spec (bytes : List β) (hsole : fs.Sole temporary)
    (hC : ∀ t, fs.Keeps t {temporary} → t.Sole temporary → C t) :
    (openTruncated temporary).Spec fs C
      (Returns fun file t => fs.Writing t temporary file bytes bytes) := by
  have hopened : ∃ file t, (match fs.names.lookup temporary with
      | some file => .ok (file, fs.write file [])
      | none => .ok (fs.next, fs.create temporary) : Except FileError (ℕ × FileSystem Name β)) =
        .ok (file, t) ∧ fs.Writing t temporary file bytes bytes := by
    cases hfile : fs.names.lookup temporary with
    | none =>
        exact ⟨_, _, rfl, keeps_create, by simp [create], sole_create, by simp [create]⟩
    | some file =>
        exact ⟨_, _, rfl, keeps_write hfile hsole, hfile, hsole, by simp [write]⟩
  obtain ⟨file, t, hopen, ht⟩ := hopened
  exact Spec.step_returns (hC fs .rfl hsole) hopen (hC t ht.keeps ht.sole) ht

/-- A free name is opened. -/
theorem createNew_spec (bytes : List β) (hnew : fs.read temporary = none)
    (hC : ∀ t, fs.Keeps t {temporary} → C t) :
    (createNew temporary).Spec fs C
      (Returns fun file t => fs.Writing t temporary file bytes bytes) := by
  refine Spec.step_returns (hC fs .rfl) (if_neg (not_not.2 (read_eq_none_iff.1 hnew)))
    (hC _ keeps_create) ?_
  exact ⟨keeps_create, by simp [create], sole_create, by simp [create]⟩

/-- **Writing byte by byte** changes what the one name reads. -/
theorem writeAll_spec (h : fs.Writing t temporary file bytes bytes)
    (hC : ∀ t, fs.Keeps t {temporary} → t.Sole temporary → C t) :
    (writeAll file bytes).Spec t C
      (Returns fun _ u => fs.Writing u temporary file bytes []) := by
  refine Spec.forM (fun rest u => fs.Writing u temporary file bytes rest) ?_ ?_ h
  · intro b rest u hu
    have hkeeps : u.Keeps (u.write file (u.contents file ++ [b])) {temporary} :=
      keeps_write hu.named hu.sole
    have hwriting : fs.Writing (u.write file (u.contents file ++ [b])) temporary file bytes rest := by
      refine ⟨(hu.keeps.trans hkeeps).mono (by simp), hu.named, hu.sole, ?_⟩
      rw [← hu.written]
      simp [write]
    exact Spec.step_returns (hC u hu.keeps hu.sole) rfl (hC _ hwriting.keeps hwriting.sole) hwriting
  · exact fun u hu => hC u hu.keeps hu.sole

/-- The file changes its name in one step. -/
theorem rename_spec (hsource : fs.names.lookup temporary = some file)
    (hfresh : fs.names.lookup target ≠ some file) (hs : C fs)
    (hC : C ((fs.link target file (fs.fresh _ _ hsource)).unlink temporary)) :
    (rename temporary target).Spec fs C
      (Returns fun _ t => t = (fs.link target file (fs.fresh _ _ hsource)).unlink temporary) := by
  refine Spec.step_returns (a := ()) hs ?_ hC rfl
  split
  · next hnone => exact absurd (hsource.symm.trans hnone) (by simp)
  · next file' hfile' =>
      obtain rfl := Option.some.inj (hsource.symm.trans hfile')
      rw [if_neg hfresh]

/-- The file gets a second name. -/
theorem hardLink_spec (hsource : fs.names.lookup temporary = some file)
    (hfresh : fs.names.lookup target = none) (hs : C fs)
    (hC : C (fs.link target file (fs.fresh _ _ hsource))) :
    (hardLink temporary target).Spec fs C
      (Returns fun _ t => t = fs.link target file (fs.fresh _ _ hsource)) := by
  refine Spec.step_returns (a := ()) hs ?_ hC rfl
  split
  · next hnone => exact absurd (hsource.symm.trans hnone) (by simp)
  · next file' hfile' =>
      obtain rfl := Option.some.inj (hsource.symm.trans hfile')
      rw [if_neg (not_not.2 hfresh)]

theorem removeFile_spec (hnamed : fs.read name ≠ none) (hs : C fs) (hC : C (fs.unlink name)) :
    (removeFile name).Spec fs C (Returns fun _ t => t = fs.unlink name) :=
  Spec.step_returns hs (if_neg fun h => hnamed (read_eq_none_iff.2 h)) hC rfl

/-- **Replacing a file**: until it is done only the temporary name reads something else. -/
theorem replaceFile_spec (hsole : fs.Sole temporary) (hne : temporary ≠ target)
    (hC : ∀ t, fs.Keeps t {temporary} → t.Sole temporary → C t)
    (hdone : ∀ t, fs.Keeps t {temporary, target} → t.read temporary = none →
      t.read target = some bytes → C t ∧ Q t) :
    (replaceFile temporary target bytes).Spec fs C (Returns fun _ => Q) := by
  refine Spec.bind_returns (openTruncated_spec bytes hsole hC) fun file t _ ht => ?_
  refine Spec.bind_returns (writeAll_spec ht hC) fun _ u _ hu => ?_
  have hfresh : u.names.lookup target ≠ some file :=
    fun h => hne (hu.sole target file hu.named h).symm
  have hlink : u.Keeps (u.link target file (u.fresh _ _ hu.named)) {temporary, target} :=
    keeps_link target hu.named hu.sole
  have hkeeps := (hu.keeps.trans hlink).trans (keeps_unlink temporary)
  have hread : ((u.link target file (u.fresh _ _ hu.named)).unlink temporary).read target =
      some bytes := by
    rw [read_eq_some_iff]
    exact ⟨file, by simp [unlink, link, hne.symm], hu.contents_eq⟩
  obtain ⟨hCv, hQv⟩ := hdone _ (hkeeps.mono (by grind)) read_unlink hread
  refine (rename_spec hu.named hfresh (hC u hu.keeps hu.sole) hCv).mono (fun _ h => h) ?_
  rintro r v - ⟨a, ha, rfl⟩
  exact ⟨a, ha, hQv⟩

/-- **Publishing a file**: until it is linked only the temporary name reads something else,
and from then on the target reads all of it. -/
theorem publishFile_spec (htemporary : fs.read temporary = none) (htarget : fs.read target = none)
    (hne : temporary ≠ target)
    (hC : ∀ t, fs.Keeps t {temporary} → C t)
    (hlinked : ∀ t, fs.Keeps t {temporary, target} → t.read target = some bytes → C t)
    (hdone : ∀ t, fs.Keeps t {temporary, target} → t.read temporary = none →
      t.read target = some bytes → Q t) :
    (publishFile temporary target bytes).Spec fs C (Returns fun _ => Q) := by
  refine Spec.bind_returns (createNew_spec bytes htemporary hC) fun file t _ ht => ?_
  refine Spec.bind_returns (writeAll_spec ht fun t ht _ => hC t ht) fun _ u _ hu => ?_
  have hutarget : u.names.lookup target = none := by
    rw [← read_eq_none_iff, hu.keeps.same target (by simpa using hne.symm), htarget]
  have hlink : u.Keeps (u.link target file (u.fresh _ _ hu.named)) {temporary, target} :=
    keeps_link target hu.named hu.sole
  have hkeeps : fs.Keeps (u.link target file (u.fresh _ _ hu.named)) {temporary, target} :=
    (hu.keeps.trans hlink).mono (by grind)
  have hread : (u.link target file (u.fresh _ _ hu.named)).read target = some bytes := by
    rw [read_eq_some_iff]
    exact ⟨file, by simp [link], hu.contents_eq⟩
  have hnamed : (u.link target file (u.fresh _ _ hu.named)).read temporary ≠ none := by
    rw [ne_eq, read_eq_none_iff]
    simp [link, hne, hu.named]
  refine Spec.bind_returns (hardLink_spec hu.named hutarget (hC u hu.keeps) (hlinked _ hkeeps hread))
    fun _ v hv hlinkv => ?_
  obtain rfl := hlinkv
  have hkeeps' := (hkeeps.trans (keeps_unlink temporary)).mono
    (show _ ⊆ ({temporary, target} : Set Name) by grind)
  have hread' := ((keeps_unlink temporary).same target (by simpa using hne.symm)).trans hread
  refine (removeFile_spec hnamed hv (hlinked _ hkeeps' hread')).mono (fun _ h => h) ?_
  rintro r w - ⟨a, ha, rfl⟩
  exact ⟨a, ha, hdone _ hkeeps' read_unlink hread'⟩

end FileSystem

end Storage
