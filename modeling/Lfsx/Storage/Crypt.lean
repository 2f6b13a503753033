import Mathlib.Data.List.Nodup
import Lfsx.Oid

/-!
# Keys and sealing

The cryptographic and compression crates are not part of the repository.  They
are the functions of `Crates`, and what the storage layer relies on is
`Crates.Lawful`: decompression undoes compression within the capacity, opening
undoes sealing for the same key, nonce and associated data, and a seal is a
tag longer than what it seals.

A master key is known by the first four bytes of its hash (`Crates.identify`).
A `Keyring` holds master keys whose ids are all different, and the first one
writes.  Every object has its own key, derived from a master key and a salt, so
its nonces are frame numbers.
-/

namespace Lfsx.Storage

/-- The third-party functions the codec calls. -/
structure Crates where
  /-- `zstd::bulk::compress`. -/
  compress : (level : Int) → (plain : Bytes) → Option Bytes
  /-- `zstd::bulk::decompress`. -/
  decompress : (compressed : Bytes) → (capacity : Nat) → Option Bytes
  /-- ChaCha20-Poly1305 `encrypt`. -/
  encrypt : (key nonce aad plain : Bytes) → Option Bytes
  /-- ChaCha20-Poly1305 `decrypt`. -/
  decrypt : (key nonce aad sealed : Bytes) → Option Bytes
  /-- `blake3::hash`. -/
  hash : Bytes → Fixed 32
  /-- A `blake3` derived key. -/
  deriveKey : (context : String) → (material : Bytes) → Bytes

namespace Crypt

/-- Bytes of a master key. -/
def keySize : Nat := 32

/-- Bytes of a salt. -/
def salt : Nat := 16

/-- Bytes of a key id. -/
def id : Nat := 4

/-- Bytes a seal adds. -/
def tag : Nat := 16

end Crypt

abbrev MasterKey := Fixed Crypt.keySize
abbrev Salt := Fixed Crypt.salt
abbrev KeyId := Fixed Crypt.id

/-- What the codec relies on. -/
structure Crates.Lawful (crates : Crates) : Prop where
  decompress_compress : ∀ level plain compressed capacity,
    crates.compress level plain = some compressed → plain.length ≤ capacity →
    crates.decompress compressed capacity = some plain
  decrypt_encrypt : ∀ key nonce aad plain sealed,
    crates.encrypt key nonce aad plain = some sealed →
    crates.decrypt key nonce aad sealed = some plain
  length_encrypt : ∀ key nonce aad plain sealed,
    crates.encrypt key nonce aad plain = some sealed →
    sealed.length = plain.length + Crypt.tag

section

variable (crates : Crates)

/-- `identify`: the id of a master key. -/
def Crates.identify (key : MasterKey) : KeyId :=
  ⟨(crates.hash key.val).val.take Crypt.id, by
    rw [List.length_take, (crates.hash key.val).property]
    rfl⟩

/-- The master keys of a server, with their ids. -/
structure Keyring where
  keys : List (MasterKey × KeyId)
  /-- A server with a keyring has a key to write with. -/
  nonempty : keys ≠ []
  /-- Each key stands beside its own id. -/
  identified : ∀ entry ∈ keys, entry.2 = crates.identify entry.1
  /-- No two keys answer to the same id. -/
  distinct : (keys.map Prod.snd).Nodup

/-- The key one object is sealed under. -/
structure ObjectKey where
  /-- The key of the cipher. -/
  cipher : Bytes
  id : KeyId
  salt : Salt
deriving DecidableEq

namespace ObjectKey

def context : String := "LFSX 2026-08-16 object encryption key"

def derive (master : MasterKey) (id : KeyId) (salt : Salt) : ObjectKey :=
  { cipher := crates.deriveKey context (master.val ++ salt.val), id, salt }

end ObjectKey

namespace Crypt

/-- Eight zero bytes and the frame number, most significant byte first. -/
def nonce (frame : Nat) : Bytes := List.replicate 8 0 ++ (leBytes 4 frame).reverse

/-- What a frame is bound to: the object, its place, and whether it is the last. -/
def associated (frame : Nat) (last : Bool) (oid : Oid) : Bytes :=
  oid.asBytes ++ leBytes 4 frame ++ [if last then 1 else 0]

end Crypt

namespace ObjectKey

/-- `seal`, with the cipher it calls. -/
def sealWith {m : Type → Type} [Monad m] [MonadExceptOf Error m]
    (encrypt : (key nonce aad plain : Bytes) → m (Option Bytes)) (key : ObjectKey) (frame : Nat)
    (last : Bool) (oid : Oid) (plain : Bytes) : m Bytes := do
  match ← encrypt key.cipher (Crypt.nonce frame) (Crypt.associated frame last oid) plain with
  | some sealed => return sealed
  | none => throw (.storage "a frame could not be encrypted")

def sealFrame (key : ObjectKey) (frame : Nat) (last : Bool) (oid : Oid) (plain : Bytes) :
    Except Error Bytes :=
  key.sealWith (fun cipher nonce aad plain => .ok (crates.encrypt cipher nonce aad plain)) frame
    last oid plain

theorem sealFrame_eq (key : ObjectKey) (frame : Nat) (last : Bool) (oid : Oid) (plain : Bytes) :
    key.sealFrame crates frame last oid plain =
      match crates.encrypt key.cipher (Crypt.nonce frame) (Crypt.associated frame last oid)
          plain with
      | some sealed => .ok sealed
      | none => .error (.storage "a frame could not be encrypted") := rfl

def openFrame (key : ObjectKey) (frame : Nat) (last : Bool) (oid : Oid) (sealed : Bytes) :
    Except Error Bytes :=
  match crates.decrypt key.cipher (Crypt.nonce frame) (Crypt.associated frame last oid) sealed with
  | some plain => .ok plain
  | none => .error .tampered

end ObjectKey

end

namespace Keyring

variable {crates : Crates}

/-- The key a new object is sealed under, for a fresh salt. -/
def writing (ring : Keyring crates) (salt : Salt) : ObjectKey :=
  ObjectKey.derive crates (ring.keys.head ring.nonempty).1 (ring.keys.head ring.nonempty).2 salt

/-- The key of a stored object, from the id and the salt in its header. -/
def reading (ring : Keyring crates) (id : KeyId) (salt : Salt) : Except Error ObjectKey :=
  match ring.keys.find? fun entry => entry.2 = id with
  | some entry => .ok (ObjectKey.derive crates entry.1 entry.2 salt)
  | none => .error .unknownKey

/-- The ring holds a master key. -/
def Holds (ring : Keyring crates) (master : MasterKey) : Prop :=
  master ∈ ring.keys.map Prod.fst

/-- The ring holds a key that answers to an id. -/
def Knows (ring : Keyring crates) (id : KeyId) : Prop := id ∈ ring.keys.map Prod.snd

instance (ring : Keyring crates) (id : KeyId) : Decidable (ring.Knows id) :=
  inferInstanceAs (Decidable (id ∈ ring.keys.map Prod.snd))

theorem Holds.mem {ring : Keyring crates} {master : MasterKey} (h : ring.Holds master) :
    (master, crates.identify master) ∈ ring.keys := by
  obtain ⟨⟨key, id⟩, hmem, rfl⟩ := List.mem_map.mp h
  rwa [← ring.identified _ hmem]

theorem Holds.knows {ring : Keyring crates} {master : MasterKey} (h : ring.Holds master) :
    ring.Knows (crates.identify master) :=
  List.mem_map.mpr ⟨_, h.mem, rfl⟩

/-- The key that writes is one the ring holds. -/
theorem writing_eq (ring : Keyring crates) (salt : Salt) :
    ∃ master, ring.Holds master ∧
      ring.writing salt = ObjectKey.derive crates master (crates.identify master) salt := by
  refine ⟨(ring.keys.head ring.nonempty).1, ?_, ?_⟩
  · exact List.mem_map.mpr ⟨_, List.head_mem _, rfl⟩
  · rw [writing, ring.identified _ (List.head_mem _)]

/-- An id picks out one key. -/
theorem reading_of_holds {ring : Keyring crates} {master : MasterKey} (h : ring.Holds master)
    (salt : Salt) :
    ring.reading (crates.identify master) salt =
      .ok (ObjectKey.derive crates master (crates.identify master) salt) := by
  rw [reading]
  cases hfind : ring.keys.find? fun entry => entry.2 = crates.identify master with
  | none =>
      have := List.find?_eq_none.mp hfind _ h.mem
      simp at this
  | some entry =>
      have hid : entry.2 = crates.identify master := by
        simpa using List.find?_some hfind
      have hsame : entry = (master, crates.identify master) :=
        List.inj_on_of_nodup_map ring.distinct (List.mem_of_find?_eq_some hfind) h.mem hid
      rw [hsame]

theorem reading_of_not_knows {ring : Keyring crates} {id : KeyId} (h : ¬ ring.Knows id)
    (salt : Salt) : ring.reading id salt = .error .unknownKey := by
  rw [reading]
  cases hfind : ring.keys.find? fun entry => entry.2 = id with
  | none => rfl
  | some entry =>
      have hid : entry.2 = id := by simpa using List.find?_some hfind
      exact absurd (List.mem_map.mpr ⟨entry, List.mem_of_find?_eq_some hfind, hid⟩) h

/-- What a reader gets is derived from a key of the ring and the salt it was given. -/
theorem reading_eq_ok {ring : Keyring crates} {id : KeyId} {salt : Salt} {key : ObjectKey}
    (h : ring.reading id salt = .ok key) :
    ∃ master, ring.Holds master ∧ crates.identify master = id ∧
      key = ObjectKey.derive crates master id salt := by
  rw [reading] at h
  cases hfind : ring.keys.find? fun entry => entry.2 = id with
  | none => rw [hfind] at h; cases h
  | some entry =>
      rw [hfind] at h
      cases h
      have hid : entry.2 = id := by simpa using List.find?_some hfind
      have hmem := List.mem_of_find?_eq_some hfind
      refine ⟨entry.1, List.mem_map.mpr ⟨entry, hmem, rfl⟩, ?_, by rw [hid]⟩
      rw [← ring.identified _ hmem, hid]

end Keyring

end Lfsx.Storage
