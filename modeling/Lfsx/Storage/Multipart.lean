import Lfsx.Base64
import Lfsx.Request.Fallible
import Lfsx.Storage.Checked
import Lfsx.Storage.Keys
import Lfsx.Tiling

/-!
# Large files

How a file goes up that is over what one request may carry: in parts to S3, in blocks to Azure,
and in chunks to Google.

A panic, which is what an overflow would be, is an ending of its own.  So is a loop that was
not over when it had gone round once for every byte.
-/

namespace Lfsx.Storage.Multipart

open Request

/-- How an upload ends without an answer. -/
inductive Failure where
  | refused (error : Error)
  | panicked
  | endless
deriving DecidableEq

section Operations

variable {Req : Type} {Resp : Req → Type} {α : Type}

/-- Arithmetic that panics. -/
def checked (answer : Option α) : Fallible Failure Req Resp α :=
  match answer with
  | some a => pure a
  | none => throw .panicked

/-- A request whose error ends the upload. -/
def sent (r : Req) (h : Resp r = Except Error α) : Fallible Failure Req Resp α :=
  (Fallible.ask r h).mapError .refused

def refuse (what : String) : Fallible Failure Req Resp α := throw (.refused (.storage what))

end Operations

/-- `u16`. -/
def u16 (n : Nat) : Option Nat := if n < 2 ^ 16 then some n else none

/-! ## Parts -/

namespace S3

def singlePutCeiling : Nat := 5 * 1024 * 1024 * 1024

def smallestPart : Nat := 5 * 1024 * 1024

def mostParts : Nat := 10000

def part : Nat := 64 * 1024 * 1024

def partSize (length : Nat) : Nat := max (max part (divCeil length mostParts)) smallestPart

inductive Req where
  | put (length : Nat)
  | create
  /-- Open the file and seek. -/
  | source (offset : Nat)
  | part (upload : Text) (number : Nat) (span : Span)
  | complete (upload : Text) (etags : List Text)
  | abort (upload : Text)

/-- A part is answered with its tag, if the store sent one. -/
abbrev Resp : Req → Type
  | .put _ => Except Error Unit
  | .create => Except Error Text
  | .source _ => Except Error Unit
  | .part _ _ _ => Except Error (Option Text)
  | .complete _ _ => Except Error Unit
  | .abort _ => Except Error Unit

abbrev Op (α : Type) := Fallible Failure Req Resp α

/-- The loop of `parts`, with `left` parts to go. -/
def partsFrom (upload : Text) (length size : Nat) : (left index : Nat) → List Text → Op (List Text)
  | 0, _, etags => pure etags
  | left + 1, index, etags => do
      let offset ← checked (Checked.mul index size)
      let rest ← checked (Checked.sub length offset)
      let this := min size rest
      sent (.source offset) rfl
      -- S3 numbers parts from one.
      let number ← checked (u16 (index + 1))
      match ← sent (.part upload number ⟨offset, this⟩) rfl with
      | some etag => partsFrom upload length size left (index + 1) (etags ++ [etag])
      | none => refuse "the object store tagged no part"

def parts (upload : Text) (length size : Nat) : Op (List Text) := do
  let pieces ← checked (Checked.ceilDiv length size)
  match u16 pieces with
  | some count => partsFrom upload length size count 0 []
  | none => refuse "this object needs more parts than one upload may have"

def putInParts (length size : Nat) : Op Unit := do
  let upload ← sent .create rfl
  match ← (parts upload length size).attempt with
  | .ok etags => sent (.complete upload etags) rfl
  | .error (.refused error) => do
      let _ ← (sent (.abort upload) rfl : Op Unit).attempt
      throw (.refused error)
  | .error failure => throw failure

/-- `put_file`, of a file of some length. -/
def putFile (length : Nat) : Op Unit :=
  if singlePutCeiling < length then putInParts length (partSize length)
  else sent (.put length) rfl

end S3

/-! ## Blocks -/

namespace Azure

def singlePutCeiling : Nat := 5000 * 1024 * 1024

def block : Nat := 64 * 1024 * 1024

def largestBlock : Nat := 4000 * 1024 * 1024

def mostBlocks : Nat := 50000

def blockSize (length : Nat) : Nat := min (max block (divCeil length mostBlocks)) largestBlock

/-- Zeros before some digits. -/
def padded (width : Nat) (digits : Text) : Text :=
  List.replicate (width - digits.length) '0' ++ digits

/-- `format!("{upload:016x}{index:08}")`, encoded. -/
def blockId (engine : Base64.Engine) (upload : UInt64) (index : Nat) : Text :=
  engine.encode (utf8Encode
    (padded 16 (Nat.toDigits 16 upload.toNat) ++ padded 8 (decimal index)))

inductive Req where
  | put (length : Nat)
  | source (offset : Nat)
  | block (id : Text) (span : Span)
  | blockList (ids : List Text)

abbrev Resp : Req → Type
  | .put _ => Except Error Unit
  | .source _ => Except Error Unit
  | .block _ _ => Except Error Unit
  | .blockList _ => Except Error Unit

abbrev Op (α : Type) := Fallible Failure Req Resp α

-- `upload` is the random number of an upload, `upload_tag`.
variable (engine : Base64.Engine) (upload : UInt64)

/-- The loop of `put_in_blocks`, with `left` blocks to go. -/
def blocksFrom (length size : Nat) : (left index : Nat) → List Text → Op (List Text)
  | 0, _, ids => pure ids
  | left + 1, index, ids => do
      let offset ← checked (Checked.mul index size)
      let rest ← checked (Checked.sub length offset)
      let this := min size rest
      sent (.source offset) rfl
      let id := blockId engine upload index
      sent (.block id ⟨offset, this⟩) rfl
      blocksFrom length size left (index + 1) (ids ++ [id])

def putInBlocks (length size : Nat) : Op Unit := do
  let count ← checked (Checked.ceilDiv length size)
  if mostBlocks < count then refuse "this object needs more blocks than one blob may have"
  else do
    let ids ← blocksFrom engine upload length size count 0 []
    sent (.blockList ids) rfl

def putFile (length : Nat) : Op Unit :=
  if singlePutCeiling < length then putInBlocks engine upload length (blockSize length)
  else sent (.put length) rfl

end Azure

/-! ## Chunks -/

namespace Gcs

def singlePutCeiling : Nat := 256 * 1024 * 1024

def chunk : Nat := 64 * 1024 * 1024

def resumeIncomplete : Nat := 308

/-- The status of an answer, as it is shown, and what the store said. -/
structure Status where
  code : Nat
  shown : String
  detail : String

def expectSuccess (what : String) (status : Status) : Except Failure Unit :=
  if 200 ≤ status.code ∧ status.code < 300 then .ok ()
  else
    .error (.refused (.storage
      s!"the object store refused a {what} with {status.shown}: {status.detail}"))

inductive Req where
  | put (length : Nat)
  | session (length : Nat)
  | source (offset : Nat)
  | chunk (session range : Text) (span : Span)

/-- A session is answered with where it is, if the store sent that. -/
abbrev Resp : Req → Type
  | .put _ => Except Error Unit
  | .session _ => Except Error (Option Text)
  | .source _ => Except Error Unit
  | .chunk _ _ _ => Except Error Status

abbrev Op (α : Type) := Fallible Failure Req Resp α

/-- `format!("bytes {offset}-{last}/{length}")`. -/
def contentRange (offset last length : Nat) : Text :=
  "bytes ".toList ++ decimal offset ++ '-' :: (decimal last ++ '/' :: decimal length)

-- `endpoint.join`, of where the session is.
variable (join : Text → Option Text)

/-- The loop of `put_resumable`. -/
def chunksFrom (session : Text) (length chunk : Nat) : (fuel offset : Nat) → Op Unit
  | 0, _ => throw .endless
  | fuel + 1, offset =>
      if offset < length then do
        let rest ← checked (Checked.sub length offset)
        let this := min chunk rest
        sent (.source offset) rfl
        match join session with
        | none => refuse "the object store named an unusable upload session"
        | some url => do
            let stop ← checked (Checked.add offset this)
            let last ← checked (Checked.sub stop 1)
            let status ← sent (.chunk url (contentRange offset last length) ⟨offset, this⟩) rfl
            if status.code = resumeIncomplete ∧ stop ≠ length then
              chunksFrom session length chunk fuel stop
            else if stop = length then do
              Fallible.ofExcept (expectSuccess "finish a resumable upload" status)
              chunksFrom session length chunk fuel stop
            else do
              Fallible.ofExcept (expectSuccess "write a chunk" status)
              refuse "the object store finished an upload before it had every chunk"
      else pure ()

def putResumable (length chunk : Nat) : Op Unit := do
  match ← sent (.session length) rfl with
  | some session => chunksFrom join session length chunk (length + 1) 0
  | none => refuse "the object store named no upload session"

def putFile (length : Nat) : Op Unit :=
  if singlePutCeiling < length then putResumable join length chunk
  else sent (.put length) rfl

end Gcs

end Lfsx.Storage.Multipart
