import Lfsx.Storage.Keys
import Lfsx.Storage.Keyspace

/-!
# Objects in a bucket

The operations of `S3Store` on one object: pushing it (`store`, `adopt`), asking
for it, reclaiming uploads nobody came back for and measuring a repository.  A push
writes three keys, each by a request of its own, and its order is the argument for
everything the sweeps rely on: the reference first, then the content unless it is
there, then the marker.

Where the code runs requests side by side (`buffer_unordered`), the model runs them
one after the other, in an order the store chooses (`unordered`).
-/

namespace Lfsx.Storage

open Request Keyspace

/-- Some of `xs`, at the given places. -/
def reordered {α : Type} (order : List Nat) (xs : List α) : List α :=
  order.filterMap fun i => xs[i]?

/-! ## The claim index -/

namespace Refs

def ready : Op Bool := found complete

def write (ns : Namespace) (oid : Oid) : Op Unit := put (key ns oid) []

/-- Does the index name a holder other than `ns`?  A listing that failed counts as
yes. -/
def claimedByAnother (keys : Keyspace) (ns : Namespace) (oid : Oid) : Op Bool := do
  match ← (keys.listKeys (keyPrefix oid)).attempt with
  | .ok holders => pure (holders.any fun holder => holder != key ns oid)
  | .error _ => pure true

/-- Write an empty value under each key, and stop at the first that fails. -/
def putEach : List Text → Op Unit
  | [] => pure ()
  | key :: rest => do
      put key []
      putEach rest

/-- Give every marker a reference, then record that it happened. -/
def backfill (markers : List Text) : Op Unit := do
  let refs := markers.filterMap fromMarker
  let order ← (Fallible.certain (Req.unordered refs.length) : Op (List Nat))
  putEach (reordered order refs)
  put complete []

end Refs

/-! ## The size index -/

namespace Sizes

def write (ns : Namespace) (oid : Oid) (size : Nat) : Op Unit := put (key ns oid size) []

end Sizes

/-- What a reclaimer removed. -/
structure Reclaimed where
  files : Nat
  bytes : Nat
deriving DecidableEq

/-- `age.is_none_or(|age| age < limit)`: too young to touch. -/
def tooYoung (age : Option Nat) (limit : Nat) : Bool := age.all fun age => age < limit

namespace S3Store

def exists' (ns : Namespace) (oid : Oid) : Op Bool := found (markerKey ns oid)

def sizeOf (oid : Oid) : Op Nat := head (contentKey oid)

/-- `size_of(oid).unwrap_or_default()`. -/
def sizeOrZero (oid : Oid) : Op Nat := do
  match ← (sizeOf oid).attempt with
  | .ok size => pure size
  | .error _ => pure 0

/-- `if head(content).is_err() { put_file(content, staged) }`. -/
def pushContent (oid : Oid) (staged : Bytes) : Op Unit := do
  if ← found (contentKey oid) then pure () else putFile (contentKey oid) staged

def store (ns : Namespace) (oid : Oid) (staged : Bytes) : Op Unit := do
  Refs.write ns oid
  pushContent oid staged
  put (markerKey ns oid) []
  Sizes.write ns oid staged.length

variable (keys : Keyspace)

/-- `if head(content).is_err() { copy(incoming, content) }`. -/
def copyContent (ns : Namespace) (oid : Oid) : Op Unit := do
  if ← found (contentKey oid) then pure ()
  else keys.copy (incomingKey ns oid) (contentKey oid)

def adopt (ns : Namespace) (oid : Oid) (size : Nat) : Op Unit := do
  Refs.write ns oid
  copyContent keys ns oid
  put (markerKey ns oid) []
  Sizes.write ns oid size
  -- An upload that stays behind costs a key, so a failure is only logged.
  let _ ← (keys.delete (incomingKey ns oid)).attempt
  pure ()

/-! ### Reclaiming -/

def reclaimEach (olderThan : Nat) : List Entry → Reclaimed → Op Reclaimed
  | [], reclaimed => pure reclaimed
  | entry :: rest, reclaimed => do
      let age ← entry.age
      if tooYoung age olderThan then reclaimEach olderThan rest reclaimed
      else do
        match ← (keys.delete entry.key).attempt with
        | .ok _ =>
            reclaimEach olderThan rest
              { files := reclaimed.files + 1, bytes := reclaimed.bytes + entry.size }
        | .error _ => reclaimEach olderThan rest reclaimed

def reclaimUnder (olderThan : Nat) : List Text → Reclaimed → Op Reclaimed
  | [], reclaimed => pure reclaimed
  | under :: rest, reclaimed => do
      let entries ← keys.entries under
      let reclaimed ← reclaimEach keys olderThan entries reclaimed
      reclaimUnder olderThan rest reclaimed

def reclaimIncoming (olderThan : Nat) : Op Reclaimed :=
  reclaimUnder keys olderThan [".incoming/".toList, ".probe/".toList] ⟨0, 0⟩

/-! ### Measuring -/

/-- The sizes the keys of a repository carry and the oids its markers claim. -/
structure Measured where
  indexed : AList fun _ : Oid => Nat
  held : List Oid

def Measured.file (m : Measured) (key : Text) : Measured :=
  match Sizes.read key with
  | some (oid, size) => { m with indexed := m.indexed.insert oid size }
  | none =>
      match markerOid key with
      | some oid => { m with held := m.held ++ [oid] }
      | none => m

/-- Ask the size of each object and write it down. -/
def measureEach (ns : Namespace) : List Oid → (held : Nat) → Op Nat
  | [], held => pure held
  | oid :: rest, held => do
      let size ← sizeOrZero oid
      let _ ← (Sizes.write ns oid size).attempt
      measureEach ns rest (held + size)

def measureAndIndex (ns : Namespace) (oids : List Oid) : Op Nat := do
  let order ← (Fallible.certain (Req.unordered oids.length) : Op (List Nat))
  measureEach ns (reordered order oids) 0

/-- How many objects a repository holds, and how many bytes they are. -/
def usageOf (ns : Namespace) : Op (Nat × Nat) := do
  match ← (keys.listKeys (ownPrefix ns)).attempt with
  | .error _ => pure (0, 0)
  | .ok listed =>
      let measured := listed.foldl Measured.file ⟨∅, []⟩
      let bytes := (measured.held.filterMap fun oid => measured.indexed.lookup oid).sum
      let unindexed := measured.held.filter fun oid => (measured.indexed.lookup oid).isNone
      if unindexed.isEmpty then pure (measured.held.length, bytes)
      else do
        let more ← measureAndIndex ns unindexed
        pure (measured.held.length, bytes + more)

end S3Store

end Lfsx.Storage
