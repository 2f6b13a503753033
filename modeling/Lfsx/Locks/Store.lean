import Mathlib.Data.Char
import Mathlib.Data.List.Lex
import Mathlib.Data.List.Sort
import Lfsx.Shelves
import Lfsx.Storage.Local

/-!
# File locks

`LockStore` keeps a lock per path: in a file on a volume, or under a key in a bucket, named
by a digest of the path.  `create` takes a lock, and takes over one that is older than
`maxAge`; `unlock` is the route that gives one back, or opens one by force.

Each of these reads a lock and then acts on what it read.  In one process a gate orders
them (`exclusive`).  Replicas share a bucket and no gates: there a lock is put only under a
free key, and removed only under the version that was read.

A look at the clock answers anything: a replica has its own, and it may be set.
-/

namespace Lfsx.Locks

open Request
open Files (Disk Refused Bytes)
open Storage (LocalPath decimal)

/-! ## Locks -/

structure Owner where
  name : Text
  id : Option Text
deriving DecidableEq

structure Lock where
  id : Text
  path : Text
  lockedAt : Text
  owner : Owner
deriving DecidableEq

/-- Who makes a request. -/
structure Actor where
  login : Text
  id : Text
deriving DecidableEq

/-- `Owner::is`. -/
def Owner.is (owner : Owner) (actor : Actor) : Bool :=
  match owner.id with
  | some id => id == actor.id
  | none => owner.name == actor.login

inductive Permission where
  | read
  | write
  | admin
deriving DecidableEq

inductive LockError where
  | malformedLockPath
  | lockPathTooLong (actual limit : Nat)
  | lockLimitReached (limit : Nat)
  | lockHeld (lock : Lock)
  | lockNotFound
  | forbidden
  | unsupported (what : String)
  | serialisation
  | storage (e : Error)
deriving DecidableEq

def LockError.ofRefused (e : Refused) : LockError := .storage (Storage.Error.ofRefused e)

/-- A moment, in nanoseconds. -/
abbrev Time := Int

/-- What the store relies on: `serde_json` for a lock, SHA-256 for a path, and RFC 3339 for
a moment. -/
structure Formats where
  encode : Lock → Option Bytes
  decode : Bytes → Option Lock
  digest : Text → Oid
  format : Time → Option Text
  parse : Text → Option Time

/-- A lock is read back. -/
structure Formats.Lawful (formats : Formats) : Prop where
  decode_encode : ∀ lock encoded, formats.encode lock = some encoded →
    formats.decode encoded = some lock

/-! ## Requests -/

inductive Req where
  | acquire (slot : Nat)
  /-- A guard is dropped. -/
  | drop (slot : Nat)
  | now
  | disk (r : Files.Req Text)
  /-- `OpenOptions::create_new`. -/
  | createNew (path : LocalPath)
  | bucket (r : Shelves.Req Text Bytes Text)

abbrev Resp : Req → Type
  | .acquire _ => Unit
  | .drop _ => Unit
  | .now => Time
  | .disk r => Files.Resp r
  | .createNew _ => Except Refused Nat
  | .bucket r => Shelves.Resp Error r

/-- A program of the lock store. -/
abbrev Op (α : Type) := Fallible LockError Req Resp α

def onDisk {α : Type} (r : Files.Req Text) (h : Files.Resp r = Except Refused α) :
    Fallible Refused Req Resp α :=
  Fallible.ask (.disk r) h

def inBucket {α : Type} (r : Shelves.Req Text Bytes Text)
    (h : Shelves.Resp Error r = Except Error α) : Op α :=
  (Fallible.ask (.bucket r) h : Fallible Error Req Resp α).mapError .storage

def io {α : Type} (call : Fallible Refused Req Resp α) : Op α := call.mapError LockError.ofRefused

/-! ## The store -/

/-- Where the locks are: on a volume, that may ignore the case of a name, or in a bucket.
Staging files carry the number of the process. -/
inductive Backend where
  | «local» (caseless : Bool) (process : Nat)
  | bucket

structure LockStore where
  backend : Backend
  maxAge : Option Nat
  capacity : Nat
  conditionalWrites : Bool

def maxPathBytes : Nat := 4096

def defaultCapacity : Nat := 10000

def gates : Nat := 64

/-- The value of a hex digit, in either case. -/
def hexDigit (c : Char) : Option Nat :=
  if c.isDigit then some (c.toNat - '0'.toNat)
  else if 'a' ≤ c ∧ c ≤ 'f' then some (c.toNat - 'a'.toNat + 10)
  else if 'A' ≤ c ∧ c ≤ 'F' then some (c.toNat - 'A'.toNat + 10)
  else none

/-- `usize::from_str_radix(head, 16)` of a head of two characters, the first of which may be
a plus sign. -/
def fromHex (a b : Char) : Option Nat :=
  if a = '+' then hexDigit b
  else (hexDigit a).bind fun high => (hexDigit b).map fun low => 16 * high + low

/-- The gate an id is under. -/
def slot : Text → Nat
  | a :: b :: _ => (fromHex a b).getD 0 % gates
  | _ => 0

/-- `str::len`. -/
def utf8Length (t : Text) : Nat := (t.map Char.utf8Size).sum

def isWellFormedId (id : Text) : Bool := id.length == 32 && id.all fun c => (hexDigit c).isSome

/-- A lock that was read, and the version it was read under. -/
structure Held where
  lock : Lock
  version : Option Text

namespace LockStore

/-- `LockStore::id_of`. -/
def idOf (formats : Formats) (path : Text) : Text := (formats.digest path).text.take 32

/-- `LockStore::prefix`. -/
def keyPrefix (ns : Namespace) : Text := Path.under [".locks".toList, ns.storedOrg, ns.storedRepo]

def keyOf (ns : Namespace) (id : Text) : Text :=
  Path.joined [".locks".toList, ns.storedOrg, ns.storedRepo, id ++ ".json".toList]

/-- `LockStore::directory_in`, below the root. -/
def directory (ns : Namespace) : LocalPath := [".locks".toList, ns.storedOrg, ns.storedRepo]

/-- What a volume makes of a name. -/
def spelled (caseless : Bool) (name : Text) : Text := if caseless then lower name else name

/-- `LockStore::path_in`. -/
def pathIn (caseless : Bool) (ns : Namespace) (id : Text) : LocalPath :=
  directory ns ++ [spelled caseless (id ++ ".json".toList)]

def stagedName (process n : Nat) : Text :=
  '.' :: (decimal process ++ '-' :: (decimal n ++ ".part".toList))

/-- Hold the gate of an id.  The guard is dropped however the body ends. -/
def exclusive {α : Type} (id : Text) (body : Op α) : Op α := do
  let _ ← (Fallible.certain (Req.acquire (slot id)) : Op Unit)
  let answer ← body.attempt
  let _ ← (Fallible.certain (Req.drop (slot id)) : Op Unit)
  Fallible.ofExcept answer

variable (formats : Formats) (store : LockStore)

/-- How old a lock is that is older than `maxAge`.  A moment ahead of the clock is no age. -/
def aged (maxAge : Nat) (taken now : Time) : Option Nat :=
  if now < taken then none
  else if maxAge < (now - taken).toNat then some (now - taken).toNat
  else none

/-- `stale_for`, at a moment. -/
def staleAt (lock : Lock) (now : Time) : Option Nat :=
  match store.maxAge, formats.parse lock.lockedAt with
  | some maxAge, some taken => aged maxAge taken now
  | _, _ => none

def staleFor (lock : Lock) : Op (Option Nat) :=
  match store.maxAge, formats.parse lock.lockedAt with
  | some maxAge, some taken => do
      let now ← (Fallible.certain Req.now : Op Time)
      return aged maxAge taken now
  | _, _ => return none

/-! ### Reading -/

/-- `fs::read`. -/
def readFile (path : LocalPath) : Fallible Refused Req Resp Bytes := do
  let handle ← onDisk (.openFile path) rfl
  onDisk (.readAll handle) rfl

def readLocal (path : LocalPath) : Op (Option Held) := do
  match ← (readFile path).caught with
  | .ok encoded => return (formats.decode encoded).map fun lock => ⟨lock, none⟩
  | .error .notFound => return none
  | .error e => throw (.ofRefused e)

def readBucket (key : Text) : Op (Option Held) := do
  match ← inBucket (.get key) rfl with
  | some item => return (formats.decode item.value).map fun lock => ⟨lock, some item.version⟩
  | none => return none

def read (ns : Namespace) (id : Text) : Op (Option Held) :=
  if !isWellFormedId id then return none
  else match store.backend with
    | .local caseless _ => readLocal formats (pathIn caseless ns id)
    | .bucket => readBucket formats (keyOf ns id)

def get (ns : Namespace) (id : Text) : Op (Option Lock) := do
  let held ← store.read formats ns id
  return held.map Held.lock

/-- `.json` at the end of a name. -/
def isLockFile (path : LocalPath) : Bool :=
  match path.getLast? with
  | some name => ".json".toList.isSuffixOf name
  | none => false

def countLocal (ns : Namespace) : Op Nat := do
  match ← (onDisk (.readDir (directory ns)) rfl).caught with
  | .error _ => return 0
  | .ok (entries, ended) =>
      if ended then return (entries.filter isLockFile).length
      else throw (.ofRefused .other)

def count (ns : Namespace) : Op Nat :=
  match store.backend with
  | .local _ _ => countLocal ns
  | .bucket => do
      let keys ← inBucket (.keys (keyPrefix ns)) rfl
      return keys.length

/-! ### Listing -/

/-- The locks of some files, but for those that cannot be read. -/
def listFiles : List LocalPath → Op (List Lock)
  | [] => return []
  | path :: rest => do
      if isLockFile path then
        match ← (readFile path).caught with
        | .ok encoded => do
            let locks ← listFiles rest
            return (formats.decode encoded).toList ++ locks
        | .error _ => listFiles rest
      else listFiles rest

def listLocal (directory : LocalPath) : Op (List Lock) := do
  match ← (onDisk (.readDir directory) rfl).caught with
  | .error _ => return []
  | .ok (entries, ended) => do
      let locks ← listFiles formats entries
      if ended then return locks
      else throw (.ofRefused .other)

/-- The locks under some keys. -/
def listKeys : List Text → Op (List Lock)
  | [] => return []
  | key :: rest => do
      match ← inBucket (.get key) rfl with
      | some item => do
          let locks ← listKeys rest
          return (formats.decode item.value).toList ++ locks
      | none => listKeys rest

def listBucket (ns : Namespace) : Op (List Lock) := do
  let keys ← inBucket (.keys (keyPrefix ns)) rfl
  listKeys formats keys

def list (ns : Namespace) : Op (List Lock) := do
  let locks ← match store.backend with
    | .local _ _ => listLocal formats (directory ns)
    | .bucket => listBucket formats ns
  return locks.insertionSort fun one other => one.path ≤ other.path

/-! ### Taking -/

def createInPlace (path : LocalPath) (encoded : Bytes) : Op Bool := do
  match ← (Fallible.ask (Req.createNew path) rfl : Fallible Refused Req Resp Nat).caught with
  | .ok file => do
      io (onDisk (.write file encoded) rfl)
      return true
  | .error .alreadyExists => return false
  | .error e => throw (.ofRefused e)

/-- Once the lock was linked to its path, or was not. -/
def writeLinked (path : LocalPath) (encoded : Bytes) : Except Refused Unit → Op Bool
  | .ok () => return true
  | .error .alreadyExists => return false
  | .error _ => createInPlace path encoded

def writeNew (process : Nat) (ns : Namespace) (path : LocalPath) (encoded : Bytes) : Op Bool := do
  io (onDisk (.createDirAll (directory ns)) rfl)
  let n ← (Fallible.certain (Req.disk .ticket) : Op Nat)
  let staged := directory ns ++ [stagedName process n]
  let file ← io (onDisk (.create staged) rfl)
  io (onDisk (.write file encoded) rfl)
  let linked ← (onDisk (.link staged path) rfl).caught
  let _ ← (onDisk (.unlink staged) rfl).caught
  writeLinked path encoded linked

def putIfAbsent (key : Text) (encoded : Bytes) : Op Bool := do
  let version ← inBucket (.putIfAbsent key encoded) rfl
  return version.isSome

def take (ns : Namespace) (lock : Lock) (encoded : Bytes) : Op Bool :=
  match store.backend with
  | .local caseless process => writeNew process ns (pathIn caseless ns lock.id) encoded
  | .bucket =>
      if !store.conditionalWrites then
        throw (.unsupported ("this object store does not refuse a conditional write, so a lock " ++
          "here could be held by two people at once"))
      else putIfAbsent (keyOf ns lock.id) encoded

/-! ### Giving back -/

def removeLocal (path : LocalPath) : Op Bool := do
  match ← (onDisk (.unlink path) rfl).caught with
  | .ok () => return true
  | .error .notFound => return false
  | .error e => throw (.ofRefused e)

/-- Whether a lock that was held is removed. -/
def removed (ns : Namespace) (held : Held) : Op Bool :=
  match store.backend, held.version with
  | .local caseless _, _ => removeLocal (pathIn caseless ns held.lock.id)
  | .bucket, some version => inBucket (.deleteIf (keyOf ns held.lock.id) version) rfl
  | .bucket, none => return false

def release (ns : Namespace) (held : Held) : Op Unit := do
  if ← store.removed ns held then return ()
  else throw .lockNotFound

def discard (ns : Namespace) (held : Held) : Op Unit := do
  match ← (store.release ns held).attempt with
  | .ok () => return ()
  | .error .lockNotFound => return ()
  | .error e => throw e

/-! ### Operations -/

/-- The lock an actor asks for. -/
def asked (path : Text) (owner : Actor) (now : Time) : Lock where
  id := idOf formats path
  path := path
  lockedAt := (formats.format now).getD "1970-01-01T00:00:00Z".toList
  owner := ⟨owner.login, some owner.id⟩

/-- The lock is held: it is taken over if it is stale. -/
def takeOver (ns : Namespace) (lock : Lock) (encoded : Bytes) : Op Lock := do
  match ← store.read formats ns lock.id with
  | none => throw (.lockHeld lock)
  | some held => do
      match ← store.staleFor formats held.lock with
      | none => throw (.lockHeld held.lock)
      | some _ => do
          store.discard ns held
          if ← store.take ns lock encoded then return lock
          else do
            match ← store.get formats ns lock.id with
            | some other => throw (.lockHeld other)
            | none => throw (.lockHeld lock)

/-- A lock that would be new is refused if there are too many. -/
def checkCapacity (ns : Namespace) (lock : Lock) : Op Unit := do
  match ← store.get formats ns lock.id with
  | some _ => return ()
  | none => do
      let found ← store.count ns
      if store.capacity ≤ found then throw (.lockLimitReached store.capacity)
      else return ()

/-- `create`, under the gate. -/
def createGated (ns : Namespace) (path : Text) (owner : Actor) : Op Lock := do
  let now ← (Fallible.certain Req.now : Op Time)
  let lock := asked formats path owner now
  match formats.encode lock with
  | none => throw .serialisation
  | some encoded => do
      store.checkCapacity formats ns lock
      if ← store.take ns lock encoded then return lock
      else store.takeOver formats ns lock encoded

def create (ns : Namespace) (path : Text) (owner : Actor) : Op Lock :=
  if path.isEmpty then throw .malformedLockPath
  else if maxPathBytes < utf8Length path then
    throw (.lockPathTooLong (utf8Length path) maxPathBytes)
  else exclusive (idOf formats path) (store.createGated formats ns path owner)

end LockStore

/-! ## Routes -/

def Permission.requireWrite : Permission → Except LockError Unit
  | .read => .error .forbidden
  | .write => .ok ()
  | .admin => .ok ()

def Permission.requireAdmin : Permission → Except LockError Unit
  | .read => .error .forbidden
  | .write => .error .forbidden
  | .admin => .ok ()

/-- May the caller give back a lock: its owner may, and an admin who forces it. -/
def mayUnlock (lock : Lock) (caller : Actor) (permission : Permission) (force : Bool) :
    Except LockError Unit :=
  if lock.owner.is caller then .ok ()
  else if !force then .error .forbidden
  else permission.requireAdmin

/-- `unlock`, under the gate. -/
def unlockGated (formats : Formats) (store : LockStore) (ns : Namespace) (id : Text)
    (caller : Actor) (permission : Permission) (force : Bool) : Op Lock := do
  match ← store.read formats ns id with
  | none => throw .lockNotFound
  | some held => do
      Fallible.ofExcept (mayUnlock held.lock caller permission force)
      store.release ns held
      return held.lock

/-- What a client asks of the locks. -/
inductive Call where
  | create (permission : Permission) (ns : Namespace) (path : Text) (owner : Actor)
  | unlock (permission : Permission) (ns : Namespace) (id : Text) (caller : Actor) (force : Bool)

def Call.op (formats : Formats) (store : LockStore) : Call → Op Lock
  | create permission ns path owner => do
      Fallible.ofExcept permission.requireWrite
      store.create formats ns path owner
  | unlock permission ns id caller force => do
      Fallible.ofExcept permission.requireWrite
      LockStore.exclusive id (unlockGated formats store ns id caller permission force)

/-! ## Processes -/

/-- What the processes share, and who holds the gates of each. -/
structure World (ρ ι : Type) where
  gates : ρ → Nat → Option ι
  disk : Disk Text
  bucket : Shelves.Shelf Text Bytes Text

section

variable {ρ ι : Type} [DecidableEq ρ]

/-- A gate of a process is held by a thread, or by none. -/
def World.gate (w : World ρ ι) (process : ρ) (slot : Nat) (holder : Option ι) : World ρ ι :=
  { w with
    gates := Function.update w.gates process (Function.update (w.gates process) slot holder) }

/-- What a thread of a process is answered.  A disk may refuse the requests in `may`, and a
bucket any. -/
def serves (process : ι → ρ) (may : Files.Req Text → Prop) (i : ι) : Semantics Req Resp (World ρ ι)
  | .acquire slot, w, _, w' =>
      w.gates (process i) slot = none ∧ w' = w.gate (process i) slot (some i)
  | .drop slot, w, _, w' => w' = w.gate (process i) slot none
  | .now, w, _, w' => w' = w
  | .disk r, w, answer, w' => ∃ d, Files.Faulty may r w.disk answer d ∧ w' = { w with disk := d }
  | .createNew path, w, answer, w' =>
      (match w.disk.inode path with
        | some _ => answer = .error .alreadyExists ∧ w' = w
        | none => answer = .ok w.disk.files.length ∧ ∃ time, w.disk.clock ≤ time ∧
            w' = { w with disk := w.disk.add path time }) ∨
        may (.create path) ∧ answer = .error .other ∧ w' = w
  | .bucket r, w, answer, w' =>
      ∃ b, Shelves.Faulty r w.bucket answer b ∧ w' = { w with bucket := b }

end

end Lfsx.Locks
