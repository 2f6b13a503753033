import Lfsx.Files.DiskRules
import Lfsx.Storage.LocalForm

/-!
# What the paths of a volume say

An *entry* is a path that stands for an object: under `.content`, or in a repository.  A
volume is sound when the file of every entry decodes to the object the entry names.  A
staging file is not an entry, and another number is another staging file.

`Grown` is what a step may do that is atomic: every entry is what it was, or it was not
there and is now complete.
-/

namespace Lfsx.Storage

open Request Files

namespace LocalStore

abbrev Volume := Disk Text

/-- A path that stands for an object. -/
inductive Entry : LocalPath → Oid → Prop
  | held (org repo first second : Text) (oid : Oid) :
      Entry [org, repo, first, second, oid.text] oid
  | content (oid : Oid) : Entry (contentPath oid) oid

/-- The staging path that goes with a number. -/
def part (dir : LocalPath) (oid : Oid) (ticket : Nat) : LocalPath := dir ++ [partName oid ticket]

theorem entry_objectPath (ns : Namespace) (oid : Oid) : Entry (objectPath ns oid) oid :=
  .held _ _ _ _ oid

theorem Entry.getLast? {path : LocalPath} {oid : Oid} (h : Entry path oid) :
    path.getLast? = some oid.text := by
  cases h <;> rfl

theorem Entry.unique {path : LocalPath} {oid oid' : Oid} (h : Entry path oid)
    (h' : Entry path oid') : oid = oid' := by
  have hlast := h.getLast?
  rw [h'.getLast?, Option.some.injEq] at hlast
  exact (Oid.ext hlast).symm

theorem partName_ne_text (oid oid' : Oid) (ticket : Nat) : partName oid ticket ≠ oid'.text := by
  intro h
  refine dot_not_mem_oid oid' ?_
  rw [← h, partName]
  simp

theorem partName_inj {oid oid' : Oid} {t t' : Nat} (h : partName oid t = partName oid' t') :
    oid = oid' ∧ t = t' := by
  rw [partName, partName] at h
  obtain ⟨htext, hrest⟩ := List.append_inj h (by simp)
  rw [List.cons.injEq] at hrest
  exact ⟨Oid.ext htext, decimal_inj (List.append_cancel_right hrest.2)⟩

theorem part_inj {dir dir' : LocalPath} {oid oid' : Oid} {t t' : Nat}
    (h : part dir oid t = part dir' oid' t') : dir = dir' ∧ oid = oid' ∧ t = t' := by
  obtain ⟨hdir, hname⟩ := List.append_inj' h rfl
  rw [List.cons.injEq] at hname
  exact ⟨hdir, partName_inj hname.1⟩

/-- A staging file is no entry. -/
theorem Entry.ne_part {path : LocalPath} {oid : Oid} (h : Entry path oid) (dir : LocalPath)
    (oid' : Oid) (ticket : Nat) : path ≠ part dir oid' ticket := by
  rintro rfl
  have hlast := h.getLast?
  rw [part, List.getLast?_append, List.getLast?_singleton, Option.some_or, Option.some.injEq]
    at hlast
  exact partName_ne_text oid' oid ticket hlast

theorem objectPath_ne_contentPath (ns : Namespace) (oid oid' : Oid) :
    objectPath ns oid ≠ contentPath oid' := by
  intro h
  have := congrArg List.length h
  simp [objectPath, contentPath] at this

/-! ## Sound volumes -/

section

variable (crates : Crates) (sha256 : Bytes → Text) (keys : Option (Keyring crates))

/-- Every entry decodes to the object it names. -/
def Sound (d : Volume) : Prop :=
  ∀ path oid f, Entry path oid → d.find path = some f → Decodes crates sha256 keys oid f.bytes

/-- Every entry is what it was, or it is new and complete. -/
def Grown (d d' : Volume) : Prop :=
  ∀ path oid, Entry path oid → d'.find path = d.find path ∨
    d.find path = none ∧ ∃ f, d'.find path = some f ∧ Decodes crates sha256 keys oid f.bytes

/-- Every entry is what it was. -/
def Untouched (d d' : Volume) : Prop := ∀ path oid, Entry path oid → d'.find path = d.find path

end

section

variable {crates : Crates} {sha256 : Bytes → Text} {keys : Option (Keyring crates)}
  {d d' d'' : Volume}

theorem Untouched.refl (d : Volume) : Untouched d d := fun _ _ _ => rfl

theorem Untouched.trans (h : Untouched d d') (h' : Untouched d' d'') : Untouched d d'' :=
  fun path oid hentry => (h' path oid hentry).trans (h path oid hentry)

theorem Untouched.grown (h : Untouched d d') : Grown crates sha256 keys d d' :=
  fun path oid hentry => Or.inl (h path oid hentry)

theorem Untouched.sound (h : Untouched d d') (hsound : Sound crates sha256 keys d) :
    Sound crates sha256 keys d' :=
  fun path oid f hentry hfind => hsound path oid f hentry (by rw [← h path oid hentry, hfind])

theorem untouched_of_alike (h : d.Alike d') : Untouched d d' := fun path _ _ => h.find path

theorem Grown.sound (h : Grown crates sha256 keys d d') (hsound : Sound crates sha256 keys d) :
    Sound crates sha256 keys d' := by
  intro path oid f hentry hfind
  rcases h path oid hentry with hsame | ⟨-, f', hf', hdecodes⟩
  · exact hsound path oid f hentry (by rw [← hsame, hfind])
  · rw [hfind] at hf'
    cases hf'
    exact hdecodes

theorem Grown.trans (h : Grown crates sha256 keys d d') (h' : Grown crates sha256 keys d' d'') :
    Grown crates sha256 keys d d'' := by
  intro path oid hentry
  rcases h' path oid hentry with hsame | ⟨hnone, hnew⟩
  · rw [hsame]
    exact h path oid hentry
  · rcases h path oid hentry with hsame | ⟨-, f, hf, -⟩
    · exact Or.inr ⟨by rw [← hsame, hnone], hnew⟩
    · rw [hnone] at hf
      cases hf

/-- A new file under a name that is no entry. -/
theorem untouched_add {dir : LocalPath} {oid : Oid} {ticket time : Nat} :
    Untouched d (d.add (part dir oid ticket) time) :=
  fun _ _ hentry => Disk.find_add (hentry.ne_part dir oid ticket)

/-- A file no entry names. -/
theorem untouched_fill {i time : Nat} {bytes : Files.Bytes}
    (h : ∀ path oid, Entry path oid → d.inode path ≠ some i) :
    Untouched d (d.fill i bytes time) :=
  fun path oid hentry => Disk.find_fill (h path oid hentry)

theorem untouched_unname {dir : LocalPath} {oid : Oid} {ticket : Nat} :
    Untouched d (d.unname (part dir oid ticket)) := by
  intro path oid' hentry
  rw [Disk.find_unname, if_neg (hentry.ne_part dir oid ticket)]

/-- One more name that is no entry. -/
theorem untouched_link {source dir : LocalPath} {oid : Oid} {ticket i : Nat}
    (hi : d.inode source = some i) : Untouched d (d.link source (part dir oid ticket)) := by
  intro path oid' hentry
  rw [Disk.find_link hi, if_neg (hentry.ne_part dir oid ticket)]

/-- One more name, of a file that is complete. -/
theorem grown_link {source target : LocalPath} {oid : Oid} {i : Nat} {f : File}
    (hi : d.inode source = some i) (hf : d.file i = some f) (htarget : d.inode target = none)
    (hentry : Entry target oid) (hdecodes : Decodes crates sha256 keys oid f.bytes) :
    Grown crates sha256 keys d (d.link source target) := by
  intro path oid' hpath
  rw [Disk.find_link hi]
  by_cases h : path = target
  · subst h
    rw [hpath.unique hentry, if_pos rfl]
    exact Or.inr ⟨Disk.find_eq_none.mpr htarget, f, hf, hdecodes⟩
  · rw [if_neg h]
    exact Or.inl rfl

end

end LocalStore

end Lfsx.Storage
