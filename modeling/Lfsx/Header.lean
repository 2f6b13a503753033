import Lfsx.Storage.Keys

/-!
# Header values

`HeaderValues` is what the server relies on of the `http` crate: a value may be read as text, and a
text may be put into a value.  The crate says that visible ASCII is taken, and what else it takes
does not matter here; `ascii` takes what the crate takes.
-/

namespace Lfsx

/-- A character that can be seen, or a space. -/
def isVisible (c : Char) : Bool := 0x20 ≤ c.toNat && c.toNat < 0x7f

/-- Numbers can be seen. -/
theorem isVisible_decimal {n : Nat} {c : Char} (h : c ∈ Storage.decimal n) :
    isVisible c = true := by
  have hdigit : c.isDigit = true := Nat.isDigit_of_mem_toDigits (by decide) (by decide) h
  rw [Char.isDigit, Bool.and_eq_true, decide_eq_true_eq, decide_eq_true_eq] at hdigit
  have hrange : 48 ≤ c.toNat ∧ c.toNat ≤ 57 := hdigit
  rw [isVisible, Bool.and_eq_true, decide_eq_true_eq, decide_eq_true_eq]
  omega

theorem all_isVisible_decimal (n : Nat) : (Storage.decimal n).all isVisible = true :=
  List.all_eq_true.mpr fun _ => isVisible_decimal

/-- The values of headers. -/
structure HeaderValues where
  /-- `HeaderValue::to_str`, of the bytes of a value. -/
  toStr : Bytes → Option Text
  /-- Is a text taken by `HeaderValue::from_str`? -/
  fromStr : Text → Bool
  visible : ∀ text, text.all isVisible = true → fromStr text = true

namespace HeaderValues

/-- A value is text if it is made of visible characters and tabs. -/
def asciiOf (value : Bytes) : Option Text :=
  if value.all fun b => (32 ≤ b && b < 127) || b == 9 then
    some (value.map fun b => Char.ofNat b.toNat)
  else none

/-- Only control characters are not taken, and a tab is. -/
def isTaken (c : Char) : Bool := (0x20 ≤ c.toNat && c.toNat != 0x7f) || c == '\t'

theorem isTaken_of_isVisible {c : Char} (h : isVisible c = true) : isTaken c = true := by
  rw [isVisible, Bool.and_eq_true, decide_eq_true_eq, decide_eq_true_eq] at h
  rw [isTaken, Bool.or_eq_true, Bool.and_eq_true, decide_eq_true_eq, bne_iff_ne]
  omega

def ascii : HeaderValues where
  toStr := asciiOf
  fromStr text := text.all isTaken
  visible _ h := List.all_eq_true.mpr fun c hc => isTaken_of_isVisible (List.all_eq_true.mp h c hc)

end HeaderValues

end Lfsx
