import Mathlib.Data.List.Sort
import Lfsx.Files.DiskRules
import Lfsx.Request.Within
import Lfsx.Storage.Local
import Lfsx.Trim

/-!
# The cache beside a bucket

A directory with the stored form of objects, each under its id, and beside it a file with the
BLAKE3 digest of it.  `Cache::open` serves an object after its first check against the digest,
`Cache::fill` stages an object under a name of its own and renames it into place, and then evicts
what was used longest ago until the ceiling is met.

The directory is the root of a disk.  What the process keeps beside it is `Shared`, and `Req` is
what an operation asks of either: a call of the disk, or a step on one of the fields.  `writeAt`
is a write at the offset of a handle, which is how many bytes were written through it, `stamp` a
change of the modification time.
-/

namespace Lfsx.Storage

namespace Cache

open Request

/-! ## What an operation asks -/

inductive Req where
  | disk (r : Files.Req Text)
  | writeAt (handle offset : Nat) (bytes : Bytes)
  /-- `set_modified(SystemTime::now())`. -/
  | stamp (handle : Nat)
  /-- `verified.contains` -/
  | isVerified (name : Text)
  | verify (name : Text)
  | unverify (name : Text)
  /-- `verifying.insert`: false if it is there already. -/
  | startCheck (name : Text)
  | endCheck (name : Text)
  | hit
  | miss
  /-- `bytes.fetch_add` -/
  | grow (size : Nat)
  /-- `bytes.fetch_sub` of a size, or of all the bytes if there are fewer. -/
  | shrink (size : Nat)
deriving DecidableEq

abbrev Resp : Req → Type
  | .disk r => Files.Resp r
  | .writeAt _ _ _ => Except Files.Refused Unit
  | .stamp _ => Except Files.Refused Unit
  | .isVerified _ => Bool
  | .startCheck _ => Bool
  | _ => Unit

/-- What the process keeps beside the directory. -/
structure Memory where
  verified : Finset Text
  verifying : Finset Text
  bytes : Nat
  hits : Nat
  misses : Nat

structure Stats where
  hits : Nat
  misses : Nat
  bytes : Nat

def Memory.stats (m : Memory) : Stats := ⟨m.hits, m.misses, m.bytes⟩

structure Shared where
  disk : Files.Disk Text
  memory : Memory

theorem Shared.eq {s s' : Shared} (hdisk : s'.disk = s.disk) (hmemory : s'.memory = s.memory) :
    s' = s := by
  cases s
  cases s'
  cases hdisk
  cases hmemory
  rfl

/-- The bytes of a file after a write at an offset, with zeros where there was nothing. -/
def overwritten (old : Bytes) (offset : Nat) (bytes : Bytes) : Bytes :=
  (old ++ List.replicate (offset - old.length) 0).take offset ++ bytes ++
    old.drop (offset + bytes.length)

/-- A write at an offset of a file. -/
def wroteAt (d : Files.Disk Text) (handle offset : Nat) (bytes : Bytes) (time : Nat) :
    Files.Disk Text :=
  match d.file handle with
  | some f => d.fill handle (overwritten f.bytes offset bytes) time
  | none => d

def stamped (d : Files.Disk Text) (handle time : Nat) : Files.Disk Text :=
  match d.file handle with
  | some f => d.fill handle f.bytes time
  | none => d

/-- What is done to the fields of the process. -/
def remembered : Req → Memory → Memory
  | .verify name, m => { m with verified := insert name m.verified }
  | .unverify name, m => { m with verified := m.verified.erase name }
  | .startCheck name, m => { m with verifying := insert name m.verifying }
  | .endCheck name, m => { m with verifying := m.verifying.erase name }
  | .hit, m => { m with hits := m.hits + 1 }
  | .miss, m => { m with misses := m.misses + 1 }
  | .grow size, m => { m with bytes := m.bytes + size }
  | .shrink size, m => { m with bytes := m.bytes - min size m.bytes }
  | _, m => m

/-- A process over a disk that may refuse the calls in `may`.  A write that is refused leaves any
part of what was to be written. -/
def Answers (may : Req → Prop) : Semantics Req Resp Shared
  | .disk r, s, answer, s' =>
      Files.Faulty (fun r => may (.disk r)) r s.disk answer s'.disk ∧ s'.memory = s.memory
  | .writeAt handle offset bytes, s, answer, s' =>
      s'.memory = s.memory ∧ ∃ time, s.disk.clock ≤ time ∧
        (answer = .ok () ∧ s'.disk = wroteAt s.disk handle offset bytes time ∨
          may (.writeAt handle offset bytes) ∧ answer = .error .other ∧
            ∃ short, short <+: bytes ∧ s'.disk = wroteAt s.disk handle offset short time)
  | .stamp handle, s, answer, s' =>
      s'.memory = s.memory ∧
        ((answer = .ok () ∧ ∃ time, s.disk.clock ≤ time ∧ s'.disk = stamped s.disk handle time) ∨
          may (.stamp handle) ∧ answer = .error .other ∧ s'.disk = s.disk)
  | .isVerified name, s, answer, s' => answer = decide (name ∈ s.memory.verified) ∧ s' = s
  | .startCheck name, s, answer, s' =>
      answer = decide (name ∉ s.memory.verifying) ∧ s'.disk = s.disk ∧
        s'.memory = remembered (.startCheck name) s.memory
  | r, s, _, s' => s'.disk = s.disk ∧ s'.memory = remembered r s.memory

/-- A process whose disk answers at once. -/
def respond : (r : Req) → Shared → Resp r × Shared
  | .disk r, s => ((Files.respond r s.disk).1, { s with disk := (Files.respond r s.disk).2 })
  | .writeAt handle offset bytes, s =>
      (.ok (), { s with disk := wroteAt s.disk handle offset bytes s.disk.clock })
  | .stamp handle, s => (.ok (), { s with disk := stamped s.disk handle s.disk.clock })
  | .isVerified name, s => (decide (name ∈ s.memory.verified), s)
  | .startCheck name, s =>
      (decide (name ∉ s.memory.verifying),
        { s with memory := remembered (.startCheck name) s.memory })
  | .verify name, s => ((), { s with memory := remembered (.verify name) s.memory })
  | .unverify name, s => ((), { s with memory := remembered (.unverify name) s.memory })
  | .endCheck name, s => ((), { s with memory := remembered (.endCheck name) s.memory })
  | .hit, s => ((), { s with memory := remembered .hit s.memory })
  | .miss, s => ((), { s with memory := remembered .miss s.memory })
  | .grow size, s => ((), { s with memory := remembered (.grow size) s.memory })
  | .shrink size, s => ((), { s with memory := remembered (.shrink size) s.memory })

theorem respond_answers (may : Req → Prop) (r : Req) (s : Shared) :
    Answers may r s (respond r s).1 (respond r s).2 := by
  cases r with
  | disk r => exact ⟨Files.respond_faulty _ r s.disk, rfl⟩
  | writeAt handle offset bytes => exact ⟨rfl, _, le_refl _, Or.inl ⟨rfl, rfl⟩⟩
  | stamp handle => exact ⟨rfl, Or.inl ⟨rfl, _, le_refl _, rfl⟩⟩
  | isVerified name => exact ⟨rfl, rfl⟩
  | startCheck name => exact ⟨rfl, rfl, rfl⟩
  | _ => exact ⟨rfl, rfl⟩

/-! ## Operations -/

/-- A call, with the error of the disk. -/
abbrev Io (α : Type) := Fallible Files.Refused Req Resp α

/-- An operation of the cache. -/
abbrev Op (α : Type) := Fallible Error Req Resp α

/-- A call of the disk. -/
def call {α : Type} (r : Files.Req Text) (h : Files.Resp r = Except Files.Refused α) : Io α :=
  Fallible.ask (.disk r) h

/-- The `?` on a call. -/
def io {α : Type} (call : Io α) : Op α := call.mapError Error.ofRefused

/-- A step on a field. -/
def step (r : Req) : Op (Resp r) := Fallible.certain r

def incomingPrefix : Text := ".incoming-".toList

def object (oid : Oid) : LocalPath := [oid.text]

/-- The name of the digest of an entry. -/
def sidecar (name : Text) : Text := name ++ ".b3".toList

def digest (oid : Oid) : LocalPath := [sidecar oid.text]

def incoming (oid : Oid) : LocalPath := [incomingPrefix ++ oid.text]

/-- Not a cached object: the digest of one, or a fill in flight. -/
def skip (name : Text) : Bool := ".b3".toList.isSuffixOf name || incomingPrefix.isPrefixOf name

/-- `entry.file_name()`. -/
def fileName (path : LocalPath) : Text := path.getLast?.getD []

end Cache

/-- `Cache`, and BLAKE3: a digest in hex is of the form of an object id. -/
structure Cache where
  ceiling : Nat
  blake3 : Bytes → Oid

namespace Cache

open Request

section

variable (cache : Cache)

def fits (size : Nat) : Bool := size ≤ cache.ceiling

/-! ### Serving -/

/-- `read_to_string`. -/
def readToString (path : LocalPath) : Op (Option Text) := do
  match ← (call (.openFile path) (Files.resp_openFile path) : Io Nat).caught with
  | .error _ => return none
  | .ok file => do
      match ← (call (.readAll file) (Files.resp_readAll file) : Io Bytes).caught with
      | .error _ => return none
      | .ok bytes => return utf8Decode bytes

/-- The bytes of the object, read in frames. -/
def readBytes (path : LocalPath) : Op (Option Bytes) := do
  match ← (call (.openFile path) (Files.resp_openFile path) : Io Nat).caught with
  | .error _ => return none
  | .ok file => do
      match ← (call (.readAll file) (Files.resp_readAll file) : Io Bytes).caught with
      | .error _ => return none
      | .ok bytes => return some bytes

/-- Does the object match the digest beside it? -/
def intact (oid : Oid) : Op Bool := do
  match ← readToString (digest oid) with
  | none => return false
  | some recorded => do
      match ← readBytes (object oid) with
      | none => return false
      | some bytes => return (cache.blake3 bytes).text = trim isBlank recorded

def touch (oid : Oid) : Op Unit := do
  match ← (call (.openFile (digest oid)) rfl : Io Nat).caught with
  | .error _ => return ()
  | .ok file => do
      let _ ← (Fallible.ask (.stamp file) rfl : Io Unit).caught
      return ()

def discard (oid : Oid) : Op Unit := do
  let _ ← (call (.unlink (object oid)) rfl : Io Unit).caught
  let _ ← (call (.unlink (digest oid)) rfl : Io Unit).caught
  return ()

def missed : Op (Option Nat) := do
  step .miss
  return none

def served (oid : Oid) (file : Nat) : Op (Option Nat) := do
  touch oid
  step .hit
  return some file

/-- The first check of an entry, by whoever is first to start it. -/
def checked (oid : Oid) (file : Nat) : Op (Option Nat) := do
  if ← step (.startCheck oid.text) then do
    let intact ← cache.intact oid
    step (.endCheck oid.text)
    if intact then do
      step (.verify oid.text)
      served oid file
    else do
      discard oid
      missed
  else missed

def «open» (oid : Oid) : Op (Option Nat) := do
  match ← (call (.openFile (object oid)) rfl : Io Nat).caught with
  | .error _ => missed
  | .ok file => do
      if ← step (.isVerified oid.text) then served oid file else cache.checked oid file

/-! ### Eviction -/

/-- A cached object, as eviction finds it. -/
structure Found where
  used : Nat
  size : Nat
  path : LocalPath
  name : Text

/-- The cached objects of a listing. -/
def survey : List LocalPath → List Found → Op (List Found)
  | [], found => return found
  | path :: rest, found =>
      let name := fileName path
      if skip name then survey rest found
      else do
        match ← (call (.metadata path) rfl : Io Files.Metadata).caught with
        | .error _ => survey rest found
        | .ok m => do
            let beside ← (call (.metadata [sidecar name]) rfl : Io Files.Metadata).caught
            let used := match beside with
              | .ok sidecar => sidecar.modified
              | .error _ => m.modified
            survey rest (found ++ [⟨used, m.length, path, name⟩])

def total (found : List Found) : Nat := (found.map Found.size).sum

/-- Remove one after the other until the ceiling is met. -/
def removeOldest : (total : Nat) → List Found → Op Unit
  | _, [] => return ()
  | total, entry :: rest =>
      if total ≤ cache.ceiling then return ()
      else do
        match ← (call (.unlink entry.path) rfl : Io Unit).caught with
        | .error _ => removeOldest total rest
        | .ok () => do
            let _ ← (call (.unlink [sidecar entry.name]) rfl : Io Unit).caught
            step (.shrink entry.size)
            step (.unverify entry.name)
            removeOldest (total - entry.size) rest

/-- `sort_by_key`, which is stable. -/
def byUse (found : List Found) : List Found := found.insertionSort fun a b => a.used ≤ b.used

def evict : Op Unit := do
  match ← (call (.readDir []) rfl : Io (List LocalPath × Bool)).caught with
  | .error _ => return ()
  | .ok (listing, _) => do
      let found ← survey listing []
      if total found ≤ cache.ceiling then return ()
      else cache.removeOldest (total found) (byUse found)

/-! ### Filling -/

/-- The loop of `stage`: what came, written as it comes. -/
def receive (file : Nat) : List (Except Error Bytes) → (taken : Bytes) → Op Bytes
  | [], taken => return taken
  | .error e :: _, _ => throw e
  | .ok chunk :: rest, taken => do
      io (Fallible.ask (.writeAt file taken.length chunk) rfl)
      receive file rest (taken ++ chunk)

def stage (oid : Oid) (size : Nat) (chunks : List (Except Error Bytes)) : Op Unit := do
  let file ← io (call (.create (incoming oid)) rfl)
  let taken ← receive file chunks []
  if taken.length ≠ size then throw (.storage "a short read cannot be cached")
  else do
    let beside ← io (call (.create (digest oid)) rfl)
    io (call (.write beside (utf8Encode (cache.blake3 taken).text)) rfl)
    io (call (.rename (incoming oid) (object oid)) rfl)
    step (.grow size)

def fill (oid : Oid) (size : Nat) (chunks : List (Except Error Bytes)) : Op Unit := do
  match ← (cache.stage oid size chunks).attempt with
  | .error e => do
      let _ ← (call (.unlink (incoming oid)) rfl : Io Unit).caught
      throw e
  | .ok () => cache.evict

/-! ### Starting -/

/-- Remove what earlier fills left. -/
def removeIncoming : List LocalPath → Op Unit
  | [] => return ()
  | path :: rest =>
      if incomingPrefix.isPrefixOf (fileName path) then do
        let _ ← (call (.unlink path) (Files.resp_unlink path) : Io Unit).caught
        removeIncoming rest
      else removeIncoming rest

def sweepIncoming : Op Unit := do
  match ← (call (.readDir []) rfl : Io (List LocalPath × Bool)).caught with
  | .error _ => return ()
  | .ok (listing, _) => removeIncoming listing

/-- The bytes of the cached objects of a listing. -/
def measure : List LocalPath → (held : Nat) → Op Nat
  | [], held => return held
  | path :: rest, held =>
      if skip (fileName path) then measure rest held
      else do
        match ← (call (.metadata path) rfl : Io Files.Metadata).caught with
        | .error _ => measure rest held
        | .ok m => measure rest (held + m.length)

/-- `Cache::new`: what the process remembers when it starts. -/
def new : Op Memory := do
  io (call (.createDirAll []) rfl)
  sweepIncoming
  match ← (call (.readDir []) rfl : Io (List LocalPath × Bool)).caught with
  | .error _ => return ⟨∅, ∅, 0, 0, 0⟩
  | .ok (listing, _) => do
      let held ← measure listing 0
      return ⟨∅, ∅, held, 0, 0⟩

end

/-! ### Calls -/

inductive Call where
  | «open» (oid : Oid)
  | fill (oid : Oid) (size : Nat) (chunks : List (Except Error Bytes))
  | evict
  | discard (oid : Oid)

/-- A call, and the file it opens if it opens one. -/
def Call.op (cache : Cache) : Call → Op (Option Nat)
  | .open oid => cache.open oid
  | .fill oid size chunks => do
      cache.fill oid size chunks
      return none
  | .evict => do
      cache.evict
      return none
  | .discard oid => do
      Cache.discard oid
      return none

end Cache

end Lfsx.Storage
