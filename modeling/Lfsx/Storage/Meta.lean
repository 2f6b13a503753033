import Lfsx.Shelves
import Lfsx.Storage.Local

/-!
# What the server keeps for itself

A few small files under `.lfsx`: the session key, the dashboard's tokens, its access
settings.  On a volume a file is staged beside its place and renamed or linked into it; in a
bucket it is a key.  With a signing key a file is kept in an envelope with a MAC, and one
whose MAC does not match is as good as none.

A request may be refused, and it may also be refused after it took effect.
-/

namespace Lfsx.Meta

open Request
open Files (Disk Refused)
open Shelves (Shelf)
open Storage (LocalPath decimal)

inductive MetaError where
  | storage (e : Error)
  | serialisation
  | misconfigured (what : String)
deriving DecidableEq

def MetaError.ofRefused (e : Refused) : MetaError := .storage (Storage.Error.ofRefused e)

/-! ## Requests -/

inductive Req where
  | disk (r : Files.Req Text)
  /-- `STAGED.fetch_add(1)`. -/
  | staged
  | bucket (r : Shelves.Req Text Bytes Text)
  | put (key : Text) (bytes : Bytes)
  | delete (key : Text)

abbrev Resp : Req → Type
  | .disk r => Files.Resp r
  | .staged => Nat
  | .bucket r => Shelves.Resp Error r
  | .put _ _ => Except Error Unit
  | .delete _ => Except Error Unit

/-- A volume, a bucket, and how many files each process has staged. -/
structure World (ρ : Type) where
  staged : ρ → Nat
  disk : Disk Text
  bucket : Shelf Text Bytes Text

/-- A request that is refused after it took effect. -/
def Lost : (r : Files.Req Text) → Files.Resp r → Prop
  | .metadata _, answer => answer = .error .other
  | .openFile _, answer => answer = .error .other
  | .stat _, answer => answer = .error .other
  | .readExact _ _ _, answer => answer = .error .other
  | .read _ _ _, answer => answer = .error .other
  | .readAll _, answer => answer = .error .other
  | .create _, answer => answer = .error .other
  | .write _ _, answer => answer = .error .other
  | .rename _ _, answer => answer = .error .other
  | .link _ _, answer => answer = .error .other
  | .unlink _, answer => answer = .error .other
  | .createDirAll _, answer => answer = .error .other
  | .readDir _, answer => answer = .error .other
  | .now, _ => False
  | .ticket, _ => False
  | .random _, _ => False

/-- What a thread of a process is answered. -/
def serves {ρ ι : Type} [DecidableEq ρ] (process : ι → ρ) (i : ι) : Semantics Req Resp (World ρ)
  | .disk r, w, answer, w' => ∃ d, w' = { w with disk := d } ∧
      (Files.Faulty (fun _ => True) r w.disk answer d ∨
        Lost r answer ∧ ∃ answer', Files.Answers r w.disk answer' d)
  | .staged, w, answer, w' => answer = w.staged (process i) ∧
      w' = { w with staged := Function.update w.staged (process i) (w.staged (process i) + 1) }
  | .bucket r, w, answer, w' =>
      ∃ b, w' = { w with bucket := b } ∧ Shelves.Faulty r w.bucket answer b
  | .put key bytes, w, answer, w' =>
      ((∃ e, answer = .error e) ∧ w' = w) ∨
        ∃ version, ∃ hfresh : w.bucket.Fresh version,
          w' = { w with bucket := w.bucket.put key bytes version hfresh }
  | .delete key, w, answer, w' =>
      ((∃ e, answer = .error e) ∧ w' = w) ∨ w' = { w with bucket := w.bucket.remove key }

/-! ## Files -/

abbrev Op (α : Type) := Fallible MetaError Req Resp α

def onDisk {α : Type} (r : Files.Req Text) (h : Files.Resp r = Except Refused α) :
    Fallible Refused Req Resp α :=
  Fallible.ask (.disk r) h

def inBucket {α : Type} (r : Req) (h : Resp r = Except Error α) : Op α :=
  (Fallible.ask r h : Fallible Error Req Resp α).mapError .storage

def io {α : Type} (call : Fallible Refused Req Resp α) : Op α := call.mapError MetaError.ofRefused

/-- Where the files are.  The name of a staged file carries the number of the process. -/
inductive Backend where
  | «local» (number : Nat)
  | bucket
deriving DecidableEq

/-- `DIRECTORY`. -/
def directory : Text := ".lfsx".toList

def pathOf (name : Text) : LocalPath := [directory, name]

def keyOf (name : Text) : Text := Path.joined [directory, name]

def stagedName (name : Text) (number n : Nat) : Text :=
  name ++ '.' :: (decimal number ++ '.' :: (decimal n ++ ".part".toList))

/-- `fs::read`. -/
def readFile (path : LocalPath) : Fallible Refused Req Resp Bytes := do
  let handle ← onDisk (.openFile path) (Files.resp_openFile path)
  onDisk (.readAll handle) (Files.resp_readAll handle)

def stage (number : Nat) (name : Text) (bytes : Bytes) : Op LocalPath := do
  io (onDisk (.createDirAll [directory]) rfl)
  let n ← (Fallible.certain Req.staged : Op Nat)
  let staged := pathOf (stagedName name number n)
  let file ← io (onDisk (.create staged) rfl)
  io (onDisk (.write file bytes) (Files.resp_write file bytes))
  return staged

namespace Backend

variable (backend : Backend) (name : Text)

def readMeta : Op (Option Bytes) :=
  match backend with
  | .local _ => do
      match ← (readFile (pathOf name)).caught with
      | .ok bytes => return some bytes
      | .error .notFound => return none
      | .error e => throw (.ofRefused e)
  | .bucket => do
      let item ← inBucket (.bucket (.get (keyOf name))) rfl
      return item.map Shelves.Item.value

def writeMeta (bytes : Bytes) : Op Unit :=
  match backend with
  | .local number => do
      let staged ← stage number name bytes
      io (onDisk (.rename staged (pathOf name)) rfl)
  | .bucket => inBucket (.put (keyOf name) bytes) rfl

/-- Once the staged file was linked to its place, or was not. -/
def created : Except Refused Unit → Op Bool
  | .ok () => return true
  | .error .alreadyExists => return false
  | .error e => throw (.ofRefused e)

def createMeta (bytes : Bytes) : Op Bool :=
  match backend with
  | .local number => do
      let staged ← stage number name bytes
      let linked ← (onDisk (.link staged (pathOf name)) rfl).caught
      let _ ← (onDisk (.unlink staged) (Files.resp_unlink staged)).caught
      created linked
  | .bucket => do
      let version ← inBucket (.bucket (.putIfAbsent (keyOf name) bytes)) rfl
      return version.isSome

def deleteMeta : Op Unit :=
  match backend with
  | .local _ => do
      match ← (onDisk (.unlink (pathOf name)) rfl).caught with
      | .ok () => return ()
      | .error .notFound => return ()
      | .error e => throw (.ofRefused e)
  | .bucket => inBucket (.delete (keyOf name)) rfl

end Backend

/-- What a file holds. -/
def Backend.holds {ρ : Type} (backend : Backend) (name : Text) (w : World ρ) : Option Bytes :=
  match backend with
  | .local _ => (w.disk.find (pathOf name)).map Files.File.bytes
  | .bucket => (w.bucket.items (keyOf name)).map Shelves.Item.value

/-- A request was refused, whether or not it took effect. -/
def Refusal : (r : Req) → Resp r → Prop
  | .disk r, answer => Lost r answer
  | .staged, _ => False
  | .bucket r, answer => Shelves.Refusal r answer
  | .put _ _, answer => ∃ e, answer = .error e
  | .delete _, answer => ∃ e, answer = .error e

/-! ## Signed files -/

/-- What signing rests on: `serde_json` for a payload and for an envelope, and
HMAC-SHA256. -/
structure Signing where
  /-- A payload, read and printed again. -/
  canonical : Bytes → Option Bytes
  /-- The MAC of a payload under a name. -/
  mac : Fixed 32 → Text → Bytes → Bytes
  envelope : Bytes → Bytes → Bytes
  /-- The payload of an envelope and the MAC that stands in it. -/
  opened : Bytes → Option (Bytes × Bytes)

/-- Where the files are, and the key that signs them. -/
structure Store where
  backend : Backend
  signing : Option (Fixed 32)

namespace Store

variable (formats : Signing) (store : Store) (name : Text)

/-- What a stored file says, once its signature was checked. -/
def verified (bytes : Bytes) : Option Bytes :=
  match store.signing with
  | none => some bytes
  | some key =>
      match formats.opened bytes with
      | some (payload, signature) =>
          if formats.mac key name payload = signature then some payload else none
      | none => none

def readSigned : Op (Option Bytes) := do
  match ← store.backend.readMeta name with
  | none => return none
  | some bytes => return store.verified formats name bytes

/-- What is stored for a payload. -/
def signed (bytes : Bytes) : Option Bytes :=
  match store.signing with
  | none => some bytes
  | some key => (formats.canonical bytes).map fun payload =>
      formats.envelope payload (formats.mac key name payload)

def writeSigned (bytes : Bytes) : Op Unit :=
  match store.signed formats name bytes with
  | none => throw .serialisation
  | some kept => store.backend.writeMeta name kept

end Store

/-! ## A store that answers at once -/

section

variable {ρ ι : Type} [DecidableEq ρ] (process : ι → ρ)

/-- The version after those that were given. -/
def nextVersion (b : Shelf Text Bytes Text) : Text := decimal b.granted.length

/-- A store that refuses nothing. -/
def respond (i : ι) : (r : Req) → World ρ → Option (Resp r × World ρ)
  | .disk r, w => some ((Files.respond r w.disk).1, { w with disk := (Files.respond r w.disk).2 })
  | .staged, w => some (w.staged (process i),
      { w with staged := Function.update w.staged (process i) (w.staged (process i) + 1) })
  | .bucket (.get key), w => some (.ok (w.bucket.items key), w)
  | .bucket (.putIfAbsent key value), w =>
      match w.bucket.items key with
      | some _ => some (.ok none, w)
      | none =>
          if hfresh : w.bucket.Fresh (nextVersion w.bucket) then
            some (.ok (some (nextVersion w.bucket)),
              { w with bucket := w.bucket.put key value _ hfresh })
          else none
  | .bucket (.deleteIf _ _), _ => none
  | .bucket (.keys _), _ => none
  | .put key bytes, w =>
      if hfresh : w.bucket.Fresh (nextVersion w.bucket) then
        some (.ok (), { w with bucket := w.bucket.put key bytes _ hfresh })
      else none
  | .delete key, w => some (.ok (), { w with bucket := w.bucket.remove key })

theorem respond_serves (i : ι) (r : Req) (w : World ρ) (answered : Resp r × World ρ)
    (h : respond process i r w = some answered) : serves process i r w answered.1 answered.2 := by
  cases r with
  | disk r =>
      cases h
      exact ⟨_, rfl, Or.inl (Files.respond_faulty _ r w.disk)⟩
  | staged =>
      cases h
      exact ⟨rfl, rfl⟩
  | bucket r =>
      cases r with
      | get key =>
          cases h
          exact ⟨w.bucket, rfl, Or.inl ⟨rfl, rfl⟩⟩
      | putIfAbsent key value =>
          rw [respond] at h
          cases hitem : w.bucket.items key with
          | some item =>
              simp only [hitem] at h
              cases h
              refine ⟨w.bucket, rfl, Or.inl ?_⟩
              rw [Shelves.Answers, hitem]
              exact ⟨rfl, rfl⟩
          | none =>
              simp only [hitem] at h
              split at h
              case isTrue hfresh =>
                cases h
                refine ⟨_, rfl, Or.inl ?_⟩
                rw [Shelves.Answers, hitem]
                exact ⟨_, hfresh, rfl, rfl⟩
              case isFalse => cases h
      | deleteIf key version => cases h
      | keys under => cases h
  | put key bytes =>
      rw [respond] at h
      split at h
      case isTrue hfresh =>
        cases h
        exact Or.inr ⟨_, hfresh, rfl⟩
      case isFalse => cases h
  | delete key =>
      cases h
      exact Or.inr rfl

end

end Lfsx.Meta
