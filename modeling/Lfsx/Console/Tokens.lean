import Lfsx.Base64
import Lfsx.Storage.Replicas

/-!
# Dashboard tokens

The store keeps one list with the name and the hash of every token that was issued.  `create`
and `revoke` read the list, change it and write it back, from any replica or from the command
line.  A replica asks who holds a token of a list it loaded at most half a minute ago, and
loads it again after that.
-/

namespace Lfsx.Console.Tokens

open Request
open Meta (MetaError Req Resp Process Deployment Cluster Store)

/-! ## Tokens -/

/-- `FILE`. -/
def fileName : Text := "dashboard-tokens.json".toList

/-- `PREFIX`. -/
def start : Text := "lfsx_".toList

/-- `hex::encode`. -/
def hex (bytes : Bytes) : Text :=
  bytes.flatMap fun b => [Nat.digitChar (b.toNat / 16), Nat.digitChar (b.toNat % 16)]

structure Issued where
  name : Text
  created : Nat
  hash : Text
deriving DecidableEq

inductive Refusal where
  | unreadable
  | taken (name : Text)
  | unknown (name : Text)
  | store (e : MetaError)
deriving DecidableEq

/-- What the list rests on: `serde_json` for a list, signing, SHA-256, and `URL_SAFE_NO_PAD`. -/
structure Formats where
  encode : List Issued → Option Bytes
  decode : Bytes → Option (List Issued)
  signing : Meta.Signing
  sha256 : Bytes → Fixed 32
  base64 : Base64.UrlSafe

/-- What is read back is what was written. -/
structure Formats.Lawful (formats : Formats) : Prop where
  decode : ∀ list bytes, formats.encode list = some bytes → formats.decode bytes = some list
  canonical : ∀ list bytes payload, formats.encode list = some bytes →
    formats.signing.canonical bytes = some payload → formats.decode payload = some list
  opened : ∀ payload signature,
    formats.signing.opened (formats.signing.envelope payload signature) = some (payload, signature)

def Formats.digest (formats : Formats) (token : Text) : Text :=
  hex (formats.sha256 (token.flatMap String.utf8EncodeChar)).1

/-- The token of a secret. -/
def Formats.tokenOf (formats : Formats) (secret : Bytes) : Text :=
  start ++ formats.base64.encode secret

def readable (name : Text) : Bool :=
  let length := (name.map Char.utf8Size).sum
  decide (1 ≤ length ∧ length ≤ 64) &&
    name.all fun c => c.isAlphanum || c == '.' || c == '-' || c == '_'

/-! ## Operations -/

abbrev Op (α : Type) := Fallible Refusal Req Resp α

section

variable (formats : Formats) (store : Store)

/-- What a stored file says was issued.  One that is not signed says nothing. -/
def listOf (kept : Option Bytes) : Option (List Issued) :=
  match kept.bind (store.verified formats.signing fileName) with
  | some bytes => formats.decode bytes
  | none => some []

def issued : Meta.Op (List Issued) := do
  match ← store.readSigned formats.signing fileName with
  | some bytes =>
      match formats.decode bytes with
      | some list => return list
      | none => throw .serialisation
  | none => return []

def keep (list : List Issued) : Meta.Op Unit :=
  match formats.encode list with
  | some bytes => store.writeSigned formats.signing fileName bytes
  | none => throw .serialisation

/-- What is stored for a list. -/
def kept (list : List Issued) : Option Bytes :=
  (formats.encode list).bind (store.signed formats.signing fileName)

def create (name : Text) : Op Text := do
  if !readable name then throw .unreadable
  let list ← (issued formats store).mapError .store
  if list.any (·.name == name) then throw (.taken name)
  let secret ← (Fallible.certain (Req.disk (.random 32)) : Op (Fixed 32))
  let token := formats.tokenOf secret.1
  let now ← (Fallible.certain (Req.disk .now) : Op Nat)
  (keep formats store (list ++ [⟨name, now, formats.digest token⟩])).mapError .store
  return token

def revoke (name : Text) : Op Unit := do
  let list ← (issued formats store).mapError .store
  let left := list.filter (·.name != name)
  if left.length = list.length then throw (.unknown name)
  (keep formats store left).mapError .store

/-! ## Who holds a token -/

/-- `EVERY`, in seconds. -/
def every : Nat := 30

/-- `Registry::all`: the list that was loaded, with its age, or the list as it is. -/
def all (cached : Option (Nat × List Issued)) : Meta.Op (List Issued) :=
  match cached with
  | some (age, list) => if age < every then return list else issued formats store
  | none => issued formats store

def holderIn (list : List Issued) (token : Text) : Option Issued :=
  list.find? (·.hash == formats.digest token)

/-- `Registry::holder`. -/
def holder (cached : Option (Nat × List Issued)) (token : Text) : Meta.Op (Option Issued) :=
  if !start.isPrefixOf token then return none
  else do
    let list ← all formats store cached
    return holderIn formats list token

end

/-! ## Replicas -/

inductive Job where
  | create (name : Text)
  | revoke (name : Text)
deriving DecidableEq

/-- What a call answers: a token, or nothing. -/
def Job.op (formats : Formats) (store : Store) : Job → Op (Option Text)
  | create name => do
      let token ← Tokens.create formats store name
      return some token
  | revoke name => do
      Tokens.revoke formats store name
      return none

variable {ι : Type}

abbrev Past (ι : Type) := Log ι Req Resp

/-- The hash of the token that goes with a draw. -/
def drawnHash (formats : Formats) : (r : Req) → Resp r → Option Text
  | .disk (.random _), secret => some (formats.digest (formats.tokenOf secret.1))
  | _, _ => none

/-- The hashes that were drawn. -/
def drawn (formats : Formats) (past : Past ι) : List Text :=
  past.filterMap fun e => drawnHash formats e.req e.answer

/-- What a thread read of the list last, if it read it. -/
def lastRead (read : Option (Option Bytes)) : (r : Req) → Resp r → Option (Option Bytes)
  | .disk (.readAll _), .ok bytes => some (some bytes)
  | .disk (.openFile _), .error .notFound => some none
  | .bucket (.get _), .ok item => some (item.map Shelves.Item.value)
  | _, _ => read

/-- The replicas over one store.  The secrets do not repeat, nor do their hashes: `known` are
those of the tokens there were. -/
def serves (formats : Formats) (deployment : Deployment) (process : ι → Process)
    (known : List Text) (i : ι) : Semantics Req Resp (Cluster × Past ι) :=
  fun r w answer w' =>
    recording (deployment.serves process) i r w answer w' ∧
      ∀ hash, drawnHash formats r answer = some hash → hash ∉ known ∧ hash ∉ drawn formats w.2

/-- A request that may change the list. -/
def Writes : Req → Prop
  | .disk (.rename _ _) => True
  | .put _ _ => True
  | _ => False

/-- The list is written while it is still what the thread read. -/
def Current [DecidableEq ι] (deployment : Deployment) (i : ι) (r : Req) (w : Cluster × Past ι) :
    Prop :=
  Writes r → trail lastRead none i w.2 = some (deployment.holds fileName w.1)

/-- Calls, each in a process of its own or not. -/
def calls (formats : Formats) (signing : Option (Fixed 32)) (deployment : Deployment)
    (process : ι → Process) (jobs : ι → Job) (w : Cluster) :
    Pool ι Req Resp (Except Refusal (Option Text)) (Cluster × Past ι) :=
  ⟨fun i => ((jobs i).op formats ⟨deployment.backend (process i), signing⟩).run, (w, [])⟩

end Lfsx.Console.Tokens
