import Mathlib.Data.List.AList
import Mathlib.Data.List.Dedup
import Mathlib.Data.List.Infix
import Lfsx.Request.Fallible

/-!
# Disks

A disk is a table of files and the names they have.  A file is known by its place in
the table, its inode, and several paths may name one file.  A file that lost its last
name stays in the table, since an open handle still reads it, so a handle is the inode
it was opened on.

`Req` is what a program asks of a disk, one system call each, beside a look at the
clock, a number nobody else was given and some random bytes.  `Answers` is what POSIX
has a call answer.  `Faulty may` adds that a request in `may` is refused: a refused
write leaves any part of what was to be written from its start, a listing may end
early, and any other refused request leaves the disk alone.  A link is refused after
both names were looked up, so a name that is missing or taken is reported as that.

Three calls are coarser than the system's.  `write` gives a file all of its bytes,
`readAll` reads a file to its end, and `readExact` fills a buffer: each stands for a
loop of system calls on one open file.  Directories are implied by the paths that go
through them, so `createDirAll` has nothing to do, and no directory is ever in the way.
-/

namespace Files

open Request

/-- A path is the names it goes through. -/
abbrev Path (Name : Type) := List Name

abbrev Bytes := List UInt8

/-- Why a request was not served. -/
inductive Refused where
  | notFound
  | alreadyExists
  | other
deriving DecidableEq

structure File where
  bytes : Bytes
  modified : Nat
deriving DecidableEq

/-- What a call answers about a file. -/
structure Metadata where
  inode : Nat
  length : Nat
  modified : Nat
  /-- The number of names. -/
  links : Nat
deriving DecidableEq

variable {Name : Type} [DecidableEq Name]

structure Disk (Name : Type) where
  names : AList fun _ : Path Name => Nat
  files : List File
  clock : Nat
  /-- The next number to hand out. -/
  ticket : Nat
  /-- A name is the name of a file. -/
  named : ∀ e ∈ names.entries, e.2 < files.length

namespace Disk

/-- A disk with nothing on it. -/
def empty : Disk Name := { names := ∅, files := [], clock := 0, ticket := 0, named := by simp }

def inode (d : Disk Name) (path : Path Name) : Option Nat := d.names.lookup path

def file (d : Disk Name) (i : Nat) : Option File := d.files[i]?

/-- The file a path names. -/
def find (d : Disk Name) (path : Path Name) : Option File := (d.inode path).bind d.file

/-- The number of names a file has. -/
def links (d : Disk Name) (i : Nat) : Nat := (d.names.entries.filter fun e => e.2 = i).length

def stat (d : Disk Name) (i : Nat) : Option Metadata :=
  (d.file i).map fun f => ⟨i, f.bytes.length, f.modified, d.links i⟩

/-- What is in a directory. -/
def children (d : Disk Name) (dir : Path Name) : List (Path Name) :=
  ((d.names.keys.filter fun path => dir.isPrefixOf path && dir.length < path.length).map
    fun path => path.take (dir.length + 1)).dedup

theorem inode_lt {d : Disk Name} {path : Path Name} {i : Nat} (h : d.inode path = some i) :
    i < d.files.length :=
  d.named ⟨path, i⟩ (AList.mem_lookup_iff.mp h)

theorem exists_file {d : Disk Name} {path : Path Name} {i : Nat} (h : d.inode path = some i) :
    ∃ f, d.file i = some f :=
  ⟨d.files.get ⟨i, inode_lt h⟩, List.getElem?_eq_getElem (inode_lt h)⟩

/-! ## What a call changes -/

def tick (d : Disk Name) (time : Nat) : Disk Name := { d with clock := time }

/-- A new file, with nothing in it. -/
def add (d : Disk Name) (path : Path Name) (time : Nat) : Disk Name where
  names := d.names.insert path d.files.length
  files := d.files ++ [⟨[], time⟩]
  clock := time
  ticket := d.ticket
  named := by
    intro e he
    rw [List.length_append, List.length_singleton]
    rw [AList.entries_insert, List.mem_cons] at he
    rcases he with rfl | he
    · exact Nat.lt_succ_self _
    · exact Nat.lt_succ_of_lt (d.named e (List.kerase_sublist _ _ |>.subset he))

/-- All the bytes of a file. -/
def fill (d : Disk Name) (i : Nat) (bytes : Bytes) (time : Nat) : Disk Name where
  names := d.names
  files := d.files.set i ⟨bytes, time⟩
  clock := time
  ticket := d.ticket
  named := by
    intro e he
    rw [List.length_set]
    exact d.named e he

/-- One more name for the file `source` names. -/
def link (d : Disk Name) (source target : Path Name) : Disk Name :=
  match h : d.inode source with
  | none => d
  | some i =>
      { d with
        names := d.names.insert target i
        named := by
          intro e he
          rw [AList.entries_insert, List.mem_cons] at he
          rcases he with rfl | he
          · exact inode_lt h
          · exact d.named e (List.kerase_sublist _ _ |>.subset he) }

def unname (d : Disk Name) (path : Path Name) : Disk Name :=
  { d with
    names := d.names.erase path
    named := fun e he => d.named e (List.kerase_sublist _ _ |>.subset he) }

/-- Two names of one file stay as they are. -/
def rename (d : Disk Name) (source target : Path Name) : Disk Name :=
  if d.inode source = d.inode target then d else (d.link source target).unname source

def issue (d : Disk Name) : Disk Name := { d with ticket := d.ticket + 1 }

end Disk

/-! ## Requests -/

inductive Req (Name : Type) where
  | metadata (path : Path Name)
  | openFile (path : Path Name)
  | stat (handle : Nat)
  | readExact (handle offset length : Nat)
  | read (handle offset length : Nat)
  | readAll (handle : Nat)
  | create (path : Path Name)
  | write (handle : Nat) (bytes : Bytes)
  | rename (source target : Path Name)
  | link (source target : Path Name)
  | unlink (path : Path Name)
  | createDirAll (path : Path Name)
  | readDir (path : Path Name)
  | now
  | ticket
  | random (count : Nat)
deriving DecidableEq

abbrev Resp : Req Name → Type
  | .metadata _ => Except Refused Metadata
  | .openFile _ => Except Refused Nat
  | .stat _ => Except Refused Metadata
  | .readExact _ _ _ => Except Refused Bytes
  | .read _ _ _ => Except Refused Bytes
  | .readAll _ => Except Refused Bytes
  | .create _ => Except Refused Nat
  | .write _ _ => Except Refused Unit
  | .rename _ _ => Except Refused Unit
  | .link _ _ => Except Refused Unit
  | .unlink _ => Except Refused Unit
  | .createDirAll _ => Except Refused Unit
  | .readDir _ => Except Refused (List (Path Name) × Bool)
  | .now => Nat
  | .ticket => Nat
  | .random count => { bytes : Bytes // bytes.length = count }

section

omit [DecidableEq Name]

theorem resp_openFile (path : Path Name) : Resp (.openFile path) = Except Refused Nat := rfl

theorem resp_readAll (i : Nat) : Resp (.readAll i : Req Name) = Except Refused Bytes := rfl

theorem resp_write (i : Nat) (bytes : Bytes) :
    Resp (.write i bytes : Req Name) = Except Refused Unit := rfl

theorem resp_unlink (path : Path Name) : Resp (.unlink path) = Except Refused Unit := rfl

end

/-! ## What a disk answers -/

/-- The value, or the refusal if there is none. -/
def Refused.unless {α : Type} (refused : Refused) : Option α → Except Refused α
  | some a => .ok a
  | none => .error refused

/-- The bytes of a file at an offset, as many as there are. -/
def File.part (f : File) (offset length : Nat) : Bytes := (f.bytes.drop offset).take length

/-- The bytes of a file at an offset, all that were asked for. -/
def File.exactly (f : File) (offset length : Nat) : Option Bytes :=
  if length = 0 ∨ offset + length ≤ f.bytes.length then some (f.part offset length) else none

def Answers : Semantics (Req Name) Resp (Disk Name)
  | .metadata path, d, answer, d' =>
      answer = Refused.notFound.unless ((d.inode path).bind d.stat) ∧ d' = d
  | .openFile path, d, answer, d' => answer = Refused.notFound.unless (d.inode path) ∧ d' = d
  | .stat handle, d, answer, d' => answer = Refused.other.unless (d.stat handle) ∧ d' = d
  | .readExact handle offset length, d, answer, d' =>
      answer = Refused.other.unless ((d.file handle).bind (·.exactly offset length)) ∧ d' = d
  | .read handle offset length, d, answer, d' =>
      (match d.file handle with
        | some f => ∃ bytes, answer = .ok bytes ∧ bytes <+: f.part offset length ∧
            (bytes = [] → f.part offset length = [])
        | none => answer = .error .other) ∧ d' = d
  | .readAll handle, d, answer, d' =>
      answer = Refused.other.unless ((d.file handle).map File.bytes) ∧ d' = d
  | .create path, d, answer, d' =>
      ∃ time, d.clock ≤ time ∧ match d.inode path with
        | some i => answer = .ok i ∧ d' = d.fill i [] time
        | none => answer = .ok d.files.length ∧ d' = d.add path time
  | .write handle bytes, d, answer, d' =>
      answer = .ok () ∧ ∃ time, d.clock ≤ time ∧ d' = d.fill handle bytes time
  | .rename source target, d, answer, d' =>
      match d.inode source with
      | some _ => answer = .ok () ∧ d' = d.rename source target
      | none => answer = .error .notFound ∧ d' = d
  | .link source target, d, answer, d' =>
      match d.inode source, d.inode target with
      | some _, none => answer = .ok () ∧ d' = d.link source target
      | some _, some _ => answer = .error .alreadyExists ∧ d' = d
      | none, _ => answer = .error .notFound ∧ d' = d
  | .unlink path, d, answer, d' =>
      match d.inode path with
      | some _ => answer = .ok () ∧ d' = d.unname path
      | none => answer = .error .notFound ∧ d' = d
  | .createDirAll _, d, answer, d' => answer = .ok () ∧ d' = d
  | .readDir path, d, answer, d' =>
      (if d.children path = [] then answer = .error .notFound
        else ∃ entries, answer = .ok (entries, true) ∧ entries.Perm (d.children path)) ∧ d' = d
  | .now, d, time, d' => d.clock ≤ time ∧ d' = d.tick time
  | .ticket, d, answer, d' => answer = d.ticket ∧ d' = d.issue
  | .random _, d, _, d' => d' = d

/-- What a request that is refused answers, and what it leaves. -/
def Refuses : Semantics (Req Name) Resp (Disk Name)
  | .metadata _, d, answer, d' => answer = .error .other ∧ d' = d
  | .openFile _, d, answer, d' => answer = .error .other ∧ d' = d
  | .stat _, d, answer, d' => answer = .error .other ∧ d' = d
  | .readExact _ _ _, d, answer, d' => answer = .error .other ∧ d' = d
  | .read _ _ _, d, answer, d' => answer = .error .other ∧ d' = d
  | .readAll _, d, answer, d' => answer = .error .other ∧ d' = d
  | .create _, d, answer, d' => answer = .error .other ∧ d' = d
  | .write handle bytes, d, answer, d' =>
      answer = .error .other ∧ ∃ short time, short <+: bytes ∧ d.clock ≤ time ∧
        d' = d.fill handle short time
  | .rename _ _, d, answer, d' => answer = .error .other ∧ d' = d
  | .link source target, d, answer, d' =>
      answer = .error .other ∧ d' = d ∧ (d.inode source).isSome ∧ d.inode target = none
  | .unlink _, d, answer, d' => answer = .error .other ∧ d' = d
  | .createDirAll _, d, answer, d' => answer = .error .other ∧ d' = d
  | .readDir path, d, answer, d' =>
      (answer = .error .other ∨
        ∃ entries, answer = .ok (entries, false) ∧ entries ⊆ d.children path) ∧ d' = d
  | .now, _, _, _ => False
  | .ticket, _, _, _ => False
  | .random _, _, _, _ => False

/-- A disk that may refuse the requests in `may`. -/
def Faulty (may : Req Name → Prop) : Semantics (Req Name) Resp (Disk Name) := fun r d answer d' =>
  Answers r d answer d' ∨ may r ∧ Refuses r d answer d'

/-- A disk that answers at once and whose clock stands still. -/
def respond : (r : Req Name) → Disk Name → Resp r × Disk Name
  | .metadata path, d => (Refused.notFound.unless ((d.inode path).bind d.stat), d)
  | .openFile path, d => (Refused.notFound.unless (d.inode path), d)
  | .stat handle, d => (Refused.other.unless (d.stat handle), d)
  | .readExact handle offset length, d =>
      (Refused.other.unless ((d.file handle).bind (·.exactly offset length)), d)
  | .read handle offset length, d =>
      (Refused.other.unless ((d.file handle).map (·.part offset length)), d)
  | .readAll handle, d => (Refused.other.unless ((d.file handle).map File.bytes), d)
  | .create path, d =>
      match d.inode path with
      | some i => (.ok i, d.fill i [] d.clock)
      | none => (.ok d.files.length, d.add path d.clock)
  | .write handle bytes, d => (.ok (), d.fill handle bytes d.clock)
  | .rename source target, d =>
      match d.inode source with
      | some _ => (.ok (), d.rename source target)
      | none => (.error .notFound, d)
  | .link source target, d =>
      match d.inode source, d.inode target with
      | some _, none => (.ok (), d.link source target)
      | some _, some _ => (.error .alreadyExists, d)
      | none, _ => (.error .notFound, d)
  | .unlink path, d =>
      match d.inode path with
      | some _ => (.ok (), d.unname path)
      | none => (.error .notFound, d)
  | .createDirAll _, d => (.ok (), d)
  | .readDir path, d =>
      (if d.children path = [] then .error .notFound else .ok (d.children path, true), d)
  | .now, d => (d.clock, d)
  | .ticket, d => (d.ticket, d.issue)
  | .random count, d => (⟨List.replicate count 0, List.length_replicate⟩, d)

theorem respond_answers (r : Req Name) (d : Disk Name) :
    Answers r d (respond r d).1 (respond r d).2 := by
  cases r with
  | metadata path => exact ⟨rfl, rfl⟩
  | openFile path => exact ⟨rfl, rfl⟩
  | stat handle => exact ⟨rfl, rfl⟩
  | readExact handle offset length => exact ⟨rfl, rfl⟩
  | read handle offset length =>
      rw [Answers, respond]
      refine ⟨?_, rfl⟩
      cases d.file handle with
      | none => rfl
      | some f => exact ⟨_, rfl, List.prefix_refl _, fun h => h⟩
  | readAll handle => exact ⟨rfl, rfl⟩
  | create path =>
      simp only [Answers, respond]
      refine ⟨d.clock, le_refl _, ?_⟩
      cases d.inode path <;> exact ⟨rfl, rfl⟩
  | write handle bytes => exact ⟨rfl, d.clock, le_refl _, rfl⟩
  | rename source target =>
      simp only [Answers, respond]
      cases d.inode source <;> exact ⟨rfl, rfl⟩
  | link source target =>
      simp only [Answers, respond]
      cases d.inode source with
      | none => exact ⟨rfl, rfl⟩
      | some i => cases d.inode target <;> exact ⟨rfl, rfl⟩
  | unlink path =>
      simp only [Answers, respond]
      cases d.inode path <;> exact ⟨rfl, rfl⟩
  | createDirAll path => exact ⟨rfl, rfl⟩
  | readDir path =>
      rw [Answers, respond]
      refine ⟨?_, rfl⟩
      by_cases h : d.children path = []
      · rw [if_pos h, if_pos h]
      · rw [if_neg h, if_neg h]
        exact ⟨_, rfl, .refl _⟩
  | now => exact ⟨le_refl _, rfl⟩
  | ticket => exact ⟨rfl, rfl⟩
  | random count => exact rfl

theorem respond_faulty (may : Req Name → Prop) (r : Req Name) (d : Disk Name) :
    Faulty may r d (respond r d).1 (respond r d).2 :=
  Or.inl (respond_answers r d)

theorem respond_some (may : Req Name → Prop) (r : Req Name) (d : Disk Name)
    (answered : Resp r × Disk Name) (h : some (respond r d) = some answered) :
    Faulty may r d answered.1 answered.2 := by
  cases h
  exact respond_faulty may r d

/-! ## Operations -/

/-- A program against a disk. -/
abbrev Io (Name α : Type) := Fallible Refused (Req Name) Resp α

section

variable {Name : Type}

def metadata (path : Path Name) : Io Name Metadata := Fallible.ask (.metadata path) rfl

def openFile (path : Path Name) : Io Name Nat := Fallible.ask (.openFile path) rfl

def statOf (handle : Nat) : Io Name Metadata := Fallible.ask (.stat handle) rfl

def readAll (handle : Nat) : Io Name Bytes := Fallible.ask (.readAll handle) rfl

def create (path : Path Name) : Io Name Nat := Fallible.ask (.create path) rfl

def write (handle : Nat) (bytes : Bytes) : Io Name Unit := Fallible.ask (.write handle bytes) rfl

def rename (source target : Path Name) : Io Name Unit := Fallible.ask (.rename source target) rfl

def hardLink (source target : Path Name) : Io Name Unit := Fallible.ask (.link source target) rfl

def removeFile (path : Path Name) : Io Name Unit := Fallible.ask (.unlink path) rfl

def createDirAll (path : Path Name) : Io Name Unit := Fallible.ask (.createDirAll path) rfl

/-- What is in a directory, and whether that is everything. -/
def readDir (path : Path Name) : Io Name (List (Path Name) × Bool) :=
  Fallible.ask (.readDir path) rfl

/-- A file of its own with the same bytes, over whatever was there. -/
def copy (source target : Path Name) : Io Name Unit := do
  let reader ← openFile source
  let writer ← create target
  let bytes ← readAll reader
  write writer bytes

end

end Files
