import Lfsx.Request.Program
import Lfsx.Storage.Crypt

/-!
# The container

An object compressed or sealed at rest is a container: a header, the frames one
after the other, and an index with one word per frame.  `Writer` builds one from
the chunks of an upload and `Framed` reads one back.

```
header   "LFZ1"  version  0 0 0  plaintext:8  frame:4  frames:4  index:8
         and when sealed  id:4  salt:16  0 * 12
frames   body  body  ...
index    length:4  length:4  ...           (top bit: the body is not compressed)
```

A reader makes positional reads and never learns where they are answered.  So
`Framed.open` and `Framed.stream` are programs over `ReadAt`, and `Reader.file`
and `Reader.bucket` are the two handlers: a file, whose reads are exact, and a
bucket, which answers a ranged request.
-/

namespace Lfsx.Storage

open Request

/-! ## Positional reads -/

/-- `read_at`: a read of `length` bytes at `offset`. -/
structure ReadAt where
  offset : Nat
  length : Nat
deriving DecidableEq

/-- A program that reads. -/
abbrev Reading (α : Type) := Program ReadAt (fun _ => Except Error Bytes) α

def readAt (offset length : Nat) : Reading (Except Error Bytes) := Program.ask ⟨offset, length⟩

namespace Reader

/-- `Reader::File` over a file that holds `held`: a seek and a `read_exact`. -/
def file (held : Bytes) (r : ReadAt) : Except Error Bytes :=
  if r.length = 0 ∨ r.offset + r.length ≤ held.length then
    .ok (slice held r.offset r.length)
  else .error (.storage "failed to fill whole buffer")

/-- What a store answers to `Range: bytes=start-last` on a key that holds `held`:
the bytes of the range that exist, or a refusal when the first one does not. -/
def byteRange (held : Bytes) (start last : Nat) : Except Error Bytes :=
  if start < held.length then .ok (slice held start (last + 1 - start)) else .error .notFound

/-- `Reader::Bucket` over a key that holds `held`: one ranged request, whose last
byte is `start + length.saturating_sub(1)`. -/
def bucket (held : Bytes) (r : ReadAt) : Except Error Bytes :=
  byteRange held r.offset (r.offset + (r.length - 1))

end Reader

/-- Run a reading program against a reader. -/
def Reading.run {α : Type} (p : Reading α) (reader : ReadAt → Except Error Bytes) : α :=
  (p.eval (fun r (_ : Unit) => (reader r, ())) ()).1

/-! ## The format -/

namespace Codec

/-- `LFZ1`. -/
def magic : Bytes := [0x4c, 0x46, 0x5a, 0x31]

def vPlain : UInt8 := 1

def vSealed : UInt8 := 2

/-- Bytes that tell a container from an object. -/
def sniff : Nat := magic.length

def collides (head : Bytes) : Bool := magic.isPrefixOf head

def header : Nat := 32

def sealedHeader : Nat := 64

def headerLen (version : UInt8) : Nat := if version = vSealed then sealedHeader else header

/-- The top bit of an index word. -/
def stored : Nat := 2 ^ 31

/-- `entry & !STORED` on a `u32`. -/
def lengthOf (entry : Nat) : Nat := entry &&& (2 ^ 31 - 1)

/-- `entry & STORED != 0`. -/
def isStored (entry : Nat) : Bool := entry &&& stored != 0

/-- Plaintext bytes per frame. -/
def frame : Nat := 4 * 1024 * 1024

def frameMin : Nat := 64 * 1024

def frameMax : Nat := 16 * 1024 * 1024

def isPlausible (plaintext frameSize frames : Nat) : Bool :=
  frameMin ≤ frameSize && frameSize ≤ frameMax && frames == divCeil plaintext frameSize

end Codec

/-! ## Writing -/

/-- A container being written. -/
structure Writer where
  file : Bytes
  level : Option Int
  key : Option ObjectKey
  oid : Oid
  /-- One index word per frame written. -/
  lengths : List Nat
  plaintext : Nat
  pending : Bytes

namespace Writer

open Codec

variable (crates : Crates)

def version (w : Writer) : UInt8 := if w.key.isSome then vSealed else vPlain

/-- `Writer::open`: room for the header, and nothing else. -/
def start (level : Option Int) (key : Option ObjectKey) (oid : Oid) : Writer :=
  { file := List.replicate (headerLen (if key.isSome then vSealed else vPlain)) 0
    level, key, oid, lengths := [], plaintext := 0, pending := [] }

/-- The body of a frame before it is sealed, and whether it is the frame itself. -/
def squeeze (level : Option Int) (plain : Bytes) : Except Error (Bytes × Bool) :=
  match level with
  | some level =>
      match crates.compress level plain with
      | none => .error (.storage "zstd")
      | some compressed =>
          if compressed.length ≥ plain.length - plain.length / 20 then .ok (plain, true)
          else .ok (compressed, false)
  | none => .ok (plain, true)

/-- The index word of a body. -/
def word (body : Bytes) (isStored : Bool) : Nat :=
  (body.length % 2 ^ 32) ||| (if isStored then stored else 0)

/-- The header, once everything it states is known. -/
def headerOf (w : Writer) (index : Nat) : Bytes :=
  magic ++ [w.version, 0, 0, 0] ++ leBytes 8 w.plaintext ++ leBytes 4 frame
    ++ leBytes 4 w.lengths.length ++ leBytes 8 index
    ++ match w.key with
      | some key => key.id.val ++ key.salt.val ++ List.replicate 12 0
      | none => []

end Writer

/-! The writer calls the cipher, and itself: it is written over what encrypts and what flushes,
in any monad that may fail, so that one who looks on can see what is asked of them. -/

namespace Writing

open Codec

variable {m : Type → Type} [Monad m] [MonadExceptOf Error m]

def flush (crates : Crates) (encrypt : (key nonce aad plain : Bytes) → m (Option Bytes))
    (w : Writer) (plain : Bytes) (last : Bool) : m Writer := do
  let (body, isStored) ← MonadExcept.ofExcept (Writer.squeeze crates w.level plain)
  let index := w.lengths.length
  let body ← match w.key with
    | some key => key.sealWith encrypt index last w.oid body
    | none => pure body
  return { w with file := w.file ++ body, lengths := w.lengths ++ [Writer.word body isStored] }

variable (flushed : Writer → (plain : Bytes) → (last : Bool) → m Writer)

/-- The loop of `push`: while more than a frame is pending, write one.  A full
frame waits until something follows it. -/
def drain (w : Writer) : m Writer :=
  if frame < w.pending.length then do
    let w' ← flushed w (w.pending.take frame) false
    drain { w' with pending := w.pending.drop frame }
  else pure w
termination_by w.pending.length
decreasing_by
  simp only [List.length_drop]
  have : 0 < frame := by decide
  omega

def push (w : Writer) (chunk : Bytes) : m Writer :=
  drain flushed
    { w with plaintext := w.plaintext + chunk.length, pending := w.pending ++ chunk }

/-- Write the last frame and the index, and put the header over the room kept
for it. -/
def finish (w : Writer) : m Bytes := do
  let w ← if w.pending = [] then pure w else flushed w w.pending true
  let file := w.file ++ w.lengths.flatMap (leBytes 4)
  let header := headerLen w.version
  let index := header + (w.lengths.map lengthOf).sum
  return w.headerOf index ++ file.drop header

/-- Everything a container is made of: open, push each chunk, finish. -/
def write (level : Option Int) (key : Option ObjectKey) (oid : Oid) (chunks : List Bytes) :
    m Bytes := do
  let w ← chunks.foldlM (push flushed) (Writer.start level key oid)
  finish flushed w

end Writing

namespace Writer

variable (crates : Crates)

def flush (w : Writer) (plain : Bytes) (last : Bool) : Except Error Writer :=
  Writing.flush crates
    (fun cipher nonce aad plain => .ok (crates.encrypt cipher nonce aad plain)) w plain last

def push (w : Writer) (chunk : Bytes) : Except Error Writer := Writing.push (flush crates) w chunk

def finish (w : Writer) : Except Error Bytes := Writing.finish (flush crates) w

def write (level : Option Int) (key : Option ObjectKey) (oid : Oid) (chunks : List Bytes) :
    Except Error Bytes :=
  Writing.write (flush crates) level key oid chunks

end Writer

/-! ## Opening -/

/-- The fields of a header, as they stand in it. -/
structure Header where
  version : UInt8
  plaintext : Nat
  frame : Nat
  frames : Nat
  index : Nat
deriving DecidableEq

/-- A container that was accepted. -/
structure Framed where
  plaintext : Nat
  frame : Nat
  frames : Nat
  offsets : List Nat
  stored : List Bool
  key : Option ObjectKey
  oid : Oid
deriving DecidableEq

/-- What a stream gave: its items, and how it ended. -/
structure Streamed where
  items : List Bytes
  outcome : Except Error Unit
deriving DecidableEq

namespace Header

open Codec

def parse (bytes : Bytes) : Header :=
  { version := bytes.getD 4 0
    plaintext := fromLe (slice bytes 8 8)
    frame := fromLe (slice bytes 16 4)
    frames := fromLe (slice bytes 20 4)
    index := fromLe (slice bytes 24 8) }

def indexed (h : Header) : Nat := saturatingMul h.frames 4

/-- The first test of `open`: enough bytes, the magic and a version. -/
def begins (bytes : Bytes) : Bool :=
  header ≤ bytes.length && slice bytes 0 4 == magic
    && (bytes.getD 4 0 == vPlain || bytes.getD 4 0 == vSealed)

/-- The second test of `open`: the arithmetic of the header against the file. -/
def agrees (h : Header) (read onDisk : Nat) : Bool :=
  isPlausible h.plaintext h.frame h.frames && headerLen h.version ≤ h.index
    && saturatingAdd h.index h.indexed == onDisk && headerLen h.version ≤ read

/-- The header `open` goes on with, when it takes the file for a container. -/
def accept (bytes : Bytes) (onDisk : Nat) : Option Header :=
  if begins bytes && agrees (parse bytes) bytes.length onDisk then some (parse bytes) else none

end Header

namespace Framed

open Codec

variable (crates : Crates)

/-- An array of zeros with a slice of `bytes` copied over it. -/
def array (bytes : Bytes) (offset n : Nat) : Fixed n :=
  ⟨(slice bytes offset n ++ List.replicate n 0).take n, by simp⟩

def sealedKey (header : Bytes) (keys : Option (Keyring crates)) : Except Error ObjectKey :=
  match keys with
  | none => .error .notDecryptable
  | some ring => ring.reading (array header 32 Crypt.id) (array header 36 Crypt.salt)

/-- The key of a container: only a sealed one has one. -/
def keyOf (h : Header) (bytes : Bytes) (keys : Option (Keyring crates)) :
    Except Error (Option ObjectKey) :=
  if h.version = vSealed then (sealedKey crates bytes keys).map some else .ok none

/-- The words of an index: whole groups of four bytes. -/
def entries : Bytes → List Nat
  | a :: b :: c :: d :: rest => fromLe [a, b, c, d] :: entries rest
  | _ => []

/-- Where each frame starts, and where the last one ends. -/
def offsetsOf (start : Nat) (words : List Nat) : List Nat :=
  words.scanl (fun pos word => pos + lengthOf word) start

/-- Take the index in: the frames must account for the bytes before it. -/
def ofIndex (h : Header) (key : Option ObjectKey) (oid : Oid) (lengths : Bytes) : Option Framed :=
  let words := entries lengths
  if headerLen h.version + (words.map lengthOf).sum = h.index then
    some
      { plaintext := h.plaintext, frame := h.frame, frames := h.frames
        offsets := offsetsOf (headerLen h.version) words
        stored := words.map isStored, key, oid }
  else none

/-- `Framed::open`.  `none` means the file is not a container. -/
def «open» (onDisk : Nat) (keys : Option (Keyring crates)) (oid : Oid) :
    Reading (Except Error (Option Framed)) :=
  if onDisk < header then pure (.ok none)
  else do
    -- A read that fails counts as one that returned nothing.
    let bytes := (← readAt 0 (min sealedHeader onDisk)).toOption.getD []
    match Header.accept bytes onDisk with
    | none => pure (.ok none)
    | some h =>
        match keyOf crates h bytes keys with
        | .error e => pure (.error e)
        | .ok key =>
            match ← readAt h.index h.indexed with
            | .error e => pure (.error e)
            | .ok lengths => pure (.ok (ofIndex h key oid lengths))

/-! ## Streaming -/

/-- The body of a frame, out of its seal if the container is sealed. -/
def unsealed (f : Framed) (index : Nat) (body : Bytes) : Except Error Bytes :=
  match f.key with
  | some key => key.openFrame crates index (index + 1 == f.frames) f.oid body
  | none => .ok body

def decode (f : Framed) (index : Nat) (body : Bytes) : Except Error Bytes := do
  let body ← f.unsealed crates index body
  if f.stored.getD index false then return body
  match crates.decompress body f.frame with
  | some plain => return plain
  | none => throw (.storage "zstd")

/-- The text of the error a frame gives that is too short for its place. -/
def shortFrame (f : Framed) (index length skip : Nat) : String :=
  s!"frame {index} of {String.ofList f.oid.text} decoded to {length} bytes, short of offset " ++
    s!"{skip} the header implies; yielding nothing here would advance neither position nor " ++
    "remainder"

/-- The item one frame gives: the part of it that is wanted, never empty. -/
def yield (f : Framed) (index pos wanted : Nat) (body : Bytes) : Except Error Bytes := do
  let plain ← f.decode crates index body
  let skip := pos % f.frame
  let take := min wanted (plain.length - skip)
  if take = 0 then throw (.storage (f.shortFrame index plain.length skip))
  return slice plain skip take

/-- The stream from `pos`, with `wanted` bytes to go.  Every item has at least
one byte, so `wanted` items are enough and `fuel` never runs out. -/
def streamFrom (f : Framed) : (fuel pos wanted : Nat) → Reading Streamed
  | 0, _, _ => pure ⟨[], .ok ()⟩
  | fuel + 1, pos, wanted =>
      if wanted = 0 then pure ⟨[], .ok ()⟩
      else
        let index := pos / f.frame
        match f.offsets[index]?, f.offsets[index + 1]? with
        | some lo, some hi => do
            match ← readAt lo (hi - lo) with
            | .error e => pure ⟨[], .error e⟩
            | .ok body =>
                match f.yield crates index pos wanted body with
                | .error e => pure ⟨[], .error e⟩
                | .ok bytes => do
                    let rest ← f.streamFrom fuel (pos + bytes.length) (wanted - bytes.length)
                    pure ⟨bytes :: rest.items, rest.outcome⟩
        | _, _ => pure ⟨[], .ok ()⟩

def stream (f : Framed) (start length : Nat) : Reading Streamed :=
  f.streamFrom crates length start length

end Framed

end Lfsx.Storage
