import Lfsx.Files.Disk
import Lfsx.Storage.CodecReads
import Lfsx.Storage.Keys

/-!
# Objects on a volume

`LocalStore` keeps an object in one file with several names: `contentPath` under
`.content`, and `objectPath` in each repository that holds it.  What arrives is staged
beside the place it goes to, checked, and then named.

```
{org}/{repo}/{aa}/{bb}/{oid}              the object, as a repository holds it
{org}/{repo}/{aa}/{bb}/{oid}.{n}.part     a staging file
.content/{aa}/{bb}/{oid}                  the object, for whoever pushes it next
```

The bytes of a transfer reach its staging file as they come.  Nobody opens that file
before it is complete, so the model writes it once, when the last chunk was taken.
-/

namespace Lfsx.Storage

open Request Files

/-- An error of a disk, as a storage error. -/
def Error.ofRefused : Refused → Error
  | .notFound => .storage "entity not found"
  | .alreadyExists => .storage "entity already exists"
  | .other => .storage "other error"

/-- A path under the root of a store. -/
abbrev LocalPath := Files.Path Text

/-! ## The sink -/

/-- Where the chunks of a transfer go. -/
inductive Sink where
  | undecided (held : Bytes) (oid : Oid)
  | raw (file : Bytes)
  | framed (writer : Writer)

namespace Sink

variable (crates : Crates)

/-- `Sink::raw`: the first bytes are held until they tell an object from a container. -/
def unsettled (oid : Oid) : Sink := .undecided [] oid

def settle : Sink → Except Error Sink
  | .undecided held oid =>
      if Codec.collides held then do
        let writer ← (Writer.start none none oid).push crates held
        return .framed writer
      else return .raw held
  | sink => return sink

def write (sink : Sink) (chunk : Bytes) : Except Error Sink :=
  match sink with
  | .undecided held oid =>
      if Codec.sniff ≤ (held ++ chunk).length then settle crates (.undecided (held ++ chunk) oid)
      else return .undecided (held ++ chunk) oid
  | .raw file => return .raw (file ++ chunk)
  | .framed writer => do
      let writer ← writer.push crates chunk
      return .framed writer

/-- The bytes of the file. -/
def finish (sink : Sink) : Except Error Bytes := do
  match ← sink.settle crates with
  | .raw file => return file
  | .framed writer => writer.finish crates
  | .undecided held _ => return held

end Sink

/-! ## The store -/

/-- What is left of a repository's budget. -/
structure Budget where
  used : Nat
  limit : Nat

namespace Budget

def exceededBy (budget : Budget) (arriving : Nat) : Bool :=
  budget.limit < saturatingAdd budget.used arriving

def refusal (budget : Budget) : Error := .overQuota budget.used budget.limit

end Budget

/-- A transfer that has passed every check. -/
structure Staged where
  path : LocalPath
  destination : LocalPath
  written : Nat
  stored : Nat
  fresh : Bool

/-- What a write did. -/
structure Put where
  bytes : Nat
  stored : Nat
  fresh : Bool

structure LocalStore (crates : Crates) where
  maxObjectSize : Option Nat
  compression : Option Int
  keys : Option (Keyring crates)

namespace LocalStore

/-- An operation of the store. -/
abbrev Op (α : Type) := Fallible Error (Files.Req Text) Files.Resp α

/-- The `?` on a call of the disk. -/
def io {α : Type} (call : Io Text α) : Op α := call.mapError Error.ofRefused

def objectPath (ns : Namespace) (oid : Oid) : LocalPath :=
  [ns.storedOrg, ns.storedRepo, oid.fanout.1, oid.fanout.2, oid.text]

def contentPath (oid : Oid) : LocalPath :=
  [".content".toList, oid.fanout.1, oid.fanout.2, oid.text]

/-- `path.parent()`. -/
def parent (path : LocalPath) : LocalPath := path.dropLast

/-- The name of a staging file. -/
def partName (oid : Oid) (ticket : Nat) : Text :=
  oid.text ++ '.' :: (decimal ticket ++ ".part".toList)

def stagingPath (dir : LocalPath) (oid : Oid) : Op LocalPath := do
  let ticket ← (Fallible.certain Files.Req.ticket : Op Nat)
  return dir ++ [partName oid ticket]

def exists' (ns : Namespace) (oid : Oid) : Op Bool := do
  match ← (metadata (objectPath ns oid)).caught with
  | .ok _ => return true
  | .error _ => return false

/-- `keys.map(Keyring::writing)`. -/
def writingKey {crates : Crates} : Option (Keyring crates) → Op (Option ObjectKey)
  | none => return none
  | some ring => do
      let salt ← (Fallible.certain (Files.Req.random Crypt.salt) : Op Salt)
      return some (ring.writing salt)

section

variable {crates : Crates} (sha256 : Bytes → Text) (store : LocalStore crates)

/-! ### Staging -/

/-- The loop of `stream_to`: what the sink took, and the bytes of the object so far. -/
def receive (budget : Option Budget) :
    List (Except String Bytes) → Sink → Bytes → Except Error (Sink × Bytes)
  | [], sink, taken => return (sink, taken)
  | .error e :: _, _, _ => throw (.storage e)
  | .ok chunk :: rest, sink, taken =>
      match store.maxObjectSize.filter fun limit => limit < (taken ++ chunk).length with
      | some limit => throw (.tooLarge limit)
      | none =>
          match budget.filter fun budget => budget.exceededBy (taken ++ chunk).length with
          | some budget => throw budget.refusal
          | none => do
              let sink ← sink.write crates chunk
              receive budget rest sink (taken ++ chunk)

/-- The sink of a transfer: only a store that neither compresses nor seals keeps the bytes
as they are. -/
def sinkFor (oid : Oid) : Op Sink := do
  match store.compression, store.keys with
  | none, none => return Sink.unsettled oid
  | level, keys => do
      let key ← writingKey keys
      return .framed (Writer.start level key oid)

/-- The digest and the length of what came. -/
def streamTo (staged : LocalPath) (oid : Oid) (budget : Option Budget)
    (chunks : List (Except String Bytes)) : Op (Text × Nat) := do
  let file ← io (create staged)
  let sink ← store.sinkFor oid
  let received ← Fallible.ofExcept (store.receive budget chunks sink [])
  let bytes ← Fallible.ofExcept (received.1.finish crates)
  io (Files.write file bytes)
  return (sha256 received.2, received.2.length)

def agrees (oid : Oid) (expectedSize : Option Nat) (digest : Text) (written : Nat) :
    Except Error Unit :=
  match expectedSize.filter fun declared => declared ≠ written with
  | some declared => throw (.sizeMismatch declared written)
  | none => if digest = oid.text then return () else throw (.oidMismatch oid.text digest)

/-- Remove the staging file, whatever comes of it, and answer the error. -/
def giveUp {α : Type} (staged : LocalPath) (e : Error) : Op α := do
  let _ ← (removeFile staged).caught
  throw e

def stage (ns : Namespace) (oid : Oid) (expectedSize : Option Nat) (budget : Option Budget)
    (chunks : List (Except String Bytes)) : Op Staged :=
  match store.maxObjectSize.filter fun limit => expectedSize.any (limit < ·) with
  | some limit => throw (.tooLarge limit)
  | none => do
      let path := objectPath ns oid
      io (createDirAll (parent path))
      let held ← (metadata path).caught
      let staged ← stagingPath (parent path) oid
      match ← (store.streamTo sha256 staged oid budget chunks).attempt with
      | .error e => giveUp staged e
      | .ok (digest, written) =>
          match agrees oid expectedSize digest written with
          | .error e => giveUp staged e
          | .ok () => do
              let stored ← io (metadata staged)
              return { path := staged, destination := path, written, stored := stored.length
                       fresh := !held.isOk }

/-! ### Naming -/

/-- A hard link, or a copy where there are none. -/
def link (content target : LocalPath) : Io Text Unit := do
  match ← (hardLink content target).caught with
  | .ok () => return ()
  | .error .alreadyExists => return ()
  | .error .notFound => throw .notFound
  | .error .other => copy content target

/-- `if metadata(content).is_err() { link(staged, content) }`. -/
def ensureContent (staged content : LocalPath) : Op Unit := do
  match ← (metadata content).caught with
  | .ok _ => return ()
  | .error _ => io (link staged content)

/-- Name the content in the repository.  The content may have been collected since it was
looked for, and then it is put back. -/
def nameContent (staged content target : LocalPath) : Op Unit := do
  match ← (link content target).caught with
  | .error .notFound => do
      io (link staged content)
      io (link content target)
  | .error e => throw (Error.ofRefused e)
  | .ok () => return ()

def linkOrMove (staged target : LocalPath) (oid : Oid) : Op Unit := do
  io (createDirAll (parent (contentPath oid)))
  ensureContent staged (contentPath oid)
  nameContent staged (contentPath oid) target
  let _ ← (removeFile staged).caught
  return ()

def write (ns : Namespace) (oid : Oid) (expectedSize : Option Nat) (budget : Option Budget)
    (chunks : List (Except String Bytes)) : Op Put := do
  let staged ← store.stage sha256 ns oid expectedSize budget chunks
  linkOrMove staged.path staged.destination oid
  return { bytes := staged.written, stored := staged.stored, fresh := staged.fresh }

/-! ### Reading -/

end

/-- An object that was opened, and the handle it is read from. -/
structure Opened where
  handle : Nat
  object : Object

/-- A reading program on an open file. -/
def onHandle {α : Type} (handle : Nat) : Reading α → Program (Files.Req Text) Files.Resp α
  | .pure a => .pure a
  | .request r next =>
      .request (.readExact handle r.offset r.length) fun answer =>
        onHandle handle (next (answer.mapError fun _ =>
          .storage "failed to fill whole buffer"))

/-- A reading program that may end in an error. -/
def reading {α : Type} (handle : Nat) (p : Reading (Except Error α)) : Op α :=
  ExceptT.mk (onHandle handle p)

/-- `map_err(|_| Error::NotFound)` on opening a path. -/
def openOrNotFound (path : LocalPath) : Op Nat := (openFile path).mapError fun _ => .notFound

variable {crates : Crates} (store : LocalStore crates)

def «open» (ns : Namespace) (oid : Oid) : Op Opened := do
  let path := objectPath ns oid
  let file ← openOrNotFound path
  let onDisk ← io (statOf file)
  match ← reading file (Framed.open crates onDisk.length store.keys oid) with
  | some framed => return ⟨file, .framed framed⟩
  | none => do
      let file ← openOrNotFound path
      return ⟨file, .raw onDisk.length⟩

/-- A raw stream: reads at the cursor until enough came or the file ended.  Every read
gives at least one byte, so `wanted` reads are enough and `fuel` never runs out. -/
def rawFrom (handle : Nat) : (fuel pos wanted : Nat) → Program (Files.Req Text) Files.Resp Streamed
  | 0, _, _ => .pure ⟨[], .ok ()⟩
  | fuel + 1, pos, wanted =>
      if wanted = 0 then .pure ⟨[], .ok ()⟩
      else .request (.read handle pos wanted) fun answer =>
        match answer with
        | .error e => .pure ⟨[], .error (Error.ofRefused e)⟩
        | .ok [] => .pure ⟨[], .ok ()⟩
        | .ok bytes => do
            let rest ← rawFrom handle fuel (pos + bytes.length) (wanted - bytes.length)
            return ⟨bytes :: rest.items, rest.outcome⟩

end LocalStore

/-- `Object::size`. -/
def Object.size : Object → Nat
  | .framed f => f.plaintext
  | .raw size => size

/-- `Object::stream`, on a file. -/
def LocalStore.Opened.stream (crates : Crates) (opened : LocalStore.Opened) (start length : Nat) :
    Program (Files.Req Text) Files.Resp Streamed :=
  match opened.object with
  | .framed f => LocalStore.onHandle opened.handle (f.stream crates start length)
  | .raw _ => LocalStore.rawFrom opened.handle length start length

end Lfsx.Storage
