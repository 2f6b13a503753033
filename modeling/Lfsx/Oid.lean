import Lfsx.Bytes
import Lfsx.Paths

/-!
# Object ids and errors

An object is named by the SHA-256 digest of its bytes, in lowercase hex.  The
name is checked once, where it enters, and every later function takes an `Oid`,
which carries the check as a field.

`Error` has the refusals of the storage layer, with the figures and the texts
they carry.
-/

namespace Lfsx

/-- What a storage operation can answer instead of a result. -/
inductive Error where
  | malformedOid
  | malformedNamespace
  | oidMismatch (declared actual : Text)
  | sizeMismatch (declared actual : Nat)
  | tooLarge (limit : Nat)
  | overQuota (used limit : Nat)
  | compressionDisabled
  | notDecryptable
  | unknownKey
  | tampered
  | unsupported (what : String)
  | notFound
  | storage (what : String)
deriving DecidableEq, Repr

namespace Oid

/-- A digit of a lowercase hex digest. -/
def isHexDigit (c : Char) : Bool := c.isDigit || ('a' ≤ c && c ≤ 'f')

/-- Sixty-four lowercase hex digits. -/
def wellFormed (raw : Text) : Bool := raw.length == 64 && raw.all isHexDigit

end Oid

/-- An object id: a well-formed digest. -/
structure Oid where
  /-- The digest in hex. -/
  text : Text
  /-- It was checked. -/
  checked : Oid.wellFormed text = true
deriving DecidableEq

namespace Oid

def parse (raw : Text) : Except Error Oid :=
  if h : wellFormed raw = true then .ok ⟨raw, h⟩ else .error .malformedOid

/-- The two directory levels an object files under. -/
def fanout (oid : Oid) : Text × Text := (oid.text.take 2, (oid.text.drop 2).take 2)

/-- `as_str().as_bytes()`.  Every digit is ASCII, so a character is one byte. -/
def asBytes (oid : Oid) : Bytes := oid.text.map fun c => UInt8.ofNat c.toNat

theorem ext {a b : Oid} (h : a.text = b.text) : a = b := by
  cases a
  cases b
  cases h
  rfl

@[simp] theorem length_text (oid : Oid) : oid.text.length = 64 := by
  have h := oid.checked
  simp only [wellFormed, Bool.and_eq_true, beq_iff_eq] at h
  exact h.1

theorem isHexDigit_of_mem {oid : Oid} {c : Char} (h : c ∈ oid.text) : isHexDigit c = true := by
  have hc := oid.checked
  simp only [wellFormed, Bool.and_eq_true, List.all_eq_true] at hc
  exact hc.2 c h

theorem toNat_lt_of_isHexDigit {c : Char} (h : isHexDigit c = true) : c.toNat < 128 := by
  rw [isHexDigit, Bool.or_eq_true, Bool.and_eq_true, decide_eq_true_eq, decide_eq_true_eq] at h
  rcases h with hdigit | ⟨-, hle⟩
  · simp only [Char.isDigit, Bool.and_eq_true, decide_eq_true_eq, UInt32.le_iff_toNat_le] at hdigit
    exact lt_of_le_of_lt hdigit.2 (by decide)
  · rw [Char.le_def, UInt32.le_iff_toNat_le] at hle
    exact lt_of_le_of_lt hle (by decide)

theorem utf8Size_of_isHexDigit {c : Char} (h : isHexDigit c = true) : c.utf8Size = 1 := by
  rw [Char.utf8Size, if_pos]
  rw [UInt32.le_iff_toNat_le]
  exact Nat.lt_succ_iff.mp (toNat_lt_of_isHexDigit h)

/-- The bytes of an object id name it. -/
theorem asBytes_inj {a b : Oid} (h : a.asBytes = b.asBytes) : a = b := by
  have hread : ∀ oid : Oid, oid.asBytes.map (fun x => Char.ofNat x.toNat) = oid.text := by
    intro oid
    rw [asBytes, List.map_map]
    conv_rhs => rw [← List.map_id oid.text]
    apply List.map_congr_left
    intro c hc
    have hlt := (toNat_lt_of_isHexDigit (isHexDigit_of_mem hc)).trans (by decide : 128 < 256)
    simp only [Function.comp_apply, id_eq, UInt8.toNat_ofNat']
    rw [Nat.mod_eq_of_lt hlt, Char.ofNat_toNat]
  apply ext
  rw [← hread a, ← hread b, h]

@[simp] theorem length_asBytes (oid : Oid) : oid.asBytes.length = 64 := by simp [asBytes]

/-- Parsing reads back exactly the text of an object id. -/
@[simp] theorem parse_text (oid : Oid) : parse oid.text = .ok oid := by
  rw [parse, dif_pos oid.checked]

/-- Object ids to try things with. -/
def zeros : Oid := ⟨List.replicate 64 '0', by decide⟩

def ones : Oid := ⟨List.replicate 64 '1', by decide⟩

def twos : Oid := ⟨List.replicate 64 '2', by decide⟩

def threes : Oid := ⟨List.replicate 64 '3', by decide⟩

theorem parse_eq_ok {raw : Text} {oid : Oid} (h : parse raw = .ok oid) : oid.text = raw := by
  rw [parse] at h
  split at h
  · cases h; rfl
  · cases h

end Oid

end Lfsx
