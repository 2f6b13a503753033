import Lfsx.Auth.Authorizer
import Lfsx.Request.Within
import Lfsx.Storage.Meta

/-!
# Access settings

The dashboard changes the access settings of a running server: `write` saves them and puts
them in force, `reset` deletes what was saved and puts the environment's in force.  A
replica reads what was saved back every so often (`refreshOne`), since another replica may
have saved it.

A refresh reads the store, and what it read may be stale when it has it.  So it notes the
revision of the settings first, and replaces them only if nobody changed them since.  This
is one target: a server with several forges has one for each.
-/

namespace Lfsx.Console.Settings

open Request
open Auth (Access Authorizer Namespaces Unicode)
open Meta (MetaError)

/-- What the dashboard saves. -/
structure Saved where
  anonymousRead : Bool
  restricted : List Text
  allowed : Option (List Text)
deriving DecidableEq

/-- What the dashboard shows. -/
structure Shown where
  editable : Bool
  source : String
  anonymousRead : Bool
  restricted : List Text
  allowed : Option (List Text)
deriving DecidableEq

/-- `Saved::access`: the settings, or the entries that cannot be read. -/
def Saved.access (unicode : Unicode) (saved : Saved) : Except (List Text) Access :=
  let restricted := Namespaces.fromEntries unicode saved.restricted
  let allowed : Except (List Text) (Option Namespaces) := match saved.allowed with
    | none => .ok none
    | some entries => (Namespaces.fromEntries unicode entries).map some
  match restricted, allowed with
  | .ok restricted, .ok allowed => .ok ⟨saved.anonymousRead, restricted, allowed⟩
  | .error unreadable, .ok _ => .error unreadable
  | .ok _, .error unreadable => .error unreadable
  | .error unreadable, .error more => .error (unreadable ++ more)

/-- What saving rests on: `serde_json` for what is saved, signing, and Unicode. -/
structure Formats where
  encode : Saved → Option Bytes
  decode : Bytes → Option Saved
  signing : Meta.Signing
  unicode : Unicode

/-! ## Requests -/

inductive Req where
  | auth (r : Auth.Req)
  | store (r : Meta.Req)

abbrev Resp : Req → Type
  | .auth r => Auth.Resp r
  | .store r => Meta.Resp r

/-- A replica's settings, and the store. -/
structure World (ρ : Type) where
  auth : Authorizer
  store : Meta.World ρ

def serves {ρ ι : Type} [DecidableEq ρ] (sha256 : Bytes → Fixed 32) (process : ι → ρ) (i : ι) :
    Semantics Req Resp (World ρ)
  | .auth r, w, answer, w' => ∃ a, w' = { w with auth := a } ∧ Auth.Answers sha256 r w.auth answer a
  | .store r, w, answer, w' =>
      ∃ s, w' = { w with store := s } ∧ Meta.serves process i r w.store answer s

abbrev Op (α : Type) := Fallible MetaError Req Resp α

/-- An operation of the store. -/
def inStore {α : Type} (op : Meta.Op α) : Op α := op.within .store fun _ answer => answer

/-! ## Settings -/

/-- What a target is: where its settings are saved, and what the environment says. -/
structure Target where
  store : Meta.Store
  file : Text
  environment : Access

namespace Target

variable (formats : Formats) (target : Target)

def saved : Op (Option Saved) := do
  match ← inStore (target.store.readSigned formats.signing target.file) with
  | none => return none
  | some bytes =>
      match formats.decode bytes with
      | some saved => return some saved
      | none => throw .serialisation

/-- The settings that what was saved asks for. -/
def asked : Option Saved → Access
  | none => target.environment
  | some saved =>
      match saved.access formats.unicode with
      | .ok access => access
      | .error _ => target.environment

/-- What a reading of the saved settings should give. -/
def truth {ρ : Type} (w : Meta.World ρ) : Except MetaError (Option Saved) :=
  match (target.store.backend.holds target.file w).bind
      (target.store.verified formats.signing target.file) with
  | none => .ok none
  | some payload =>
      match formats.decode payload with
      | some saved => .ok (some saved)
      | none => .error .serialisation

/-- The settings that should be in force: those that are saved, and the ones in force if what
is saved cannot be read. -/
def due {ρ : Type} (w : World ρ) : Access :=
  match target.truth formats w.store with
  | .ok found => target.asked formats found
  | .error _ => w.auth.access

def refreshOne : Op Unit := do
  let seen ← (Fallible.certain (Req.auth .revision) : Op Nat)
  match ← (target.saved formats).attempt with
  | .error _ => return ()
  | .ok found => do
      let access := target.asked formats found
      let held ← (Fallible.certain (Req.auth .access) : Op Access)
      if held ≠ access then
        let _ ← (Fallible.certain (Req.auth (.refreshAccess seen access)) : Op Bool)
        return ()
      else return ()

def shown : Op Shown := do
  let found ← target.saved formats
  let access ← (Fallible.certain (Req.auth .access) : Op Access)
  return {
    editable := true
    source := if found.isSome then "dashboard" else "environment"
    anonymousRead := access.anonymousRead
    restricted := access.restricted.map Auth.Pattern.entry
    allowed := access.allowed.map fun allowed => allowed.map Auth.Pattern.entry }

/-- `write`, past its checks: the entries that cannot be read, or what is shown after. -/
def write (saved : Saved) : Op (Except (List Text) Shown) :=
  match saved.access formats.unicode with
  | .error unreadable => return .error unreadable
  | .ok access => do
      let _ ← target.shown formats
      match formats.encode saved with
      | none => throw .serialisation
      | some bytes => do
          inStore (target.store.writeSigned formats.signing target.file bytes)
          let _ ← (Fallible.certain (Req.auth (.setAccess access)) : Op Unit)
          let after ← target.shown formats
          return .ok after

def reset : Op Shown := do
  let _ ← target.shown formats
  inStore (target.store.backend.deleteMeta target.file)
  let _ ← (Fallible.certain (Req.auth (.setAccess target.environment)) : Op Unit)
  target.shown formats

end Target

end Lfsx.Console.Settings
