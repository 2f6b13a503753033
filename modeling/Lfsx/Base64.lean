import Lfsx.Bytes
import Lfsx.Paths

/-!
# Base64

Three bytes are four letters of an alphabet of 64, and what is left at the end is padded.  So
texts of one length encode to texts of one length, and different bytes to different texts.

`Engine` is what a program relies on of an encoder; `standard` is the alphabet of the standard,
with its padding.  `UrlSafe` is what it relies on where texts are read back and stand in cookies;
`UrlSafe.unpadded` is the alphabet for that, without padding.
-/

namespace Lfsx.Base64

/-- An encoder. -/
structure Engine where
  encode : Bytes → Text
  injective : Function.Injective encode
  length_encode : ∀ bytes, (encode bytes).length = 4 * ((bytes.length + 2) / 3)

/-- A character that may stand in an address as it is. -/
def isUrlSafe (c : Char) : Bool :=
  ('A' ≤ c && c ≤ 'Z') || ('a' ≤ c && c ≤ 'z') || ('0' ≤ c && c ≤ '9') || c == '-' || c == '_'

/-- An encoder of texts that are read back, and may stand in an address as they are. -/
structure UrlSafe where
  encode : Bytes → Text
  decode : Text → Option Bytes
  decode_encode : ∀ bytes, decode (encode bytes) = some bytes
  safe : ∀ bytes, ∀ c ∈ encode bytes, isUrlSafe c = true

def alphabet : Text := "ABCDEFGHIJKLMNOPQRSTUVWXYZabcdefghijklmnopqrstuvwxyz0123456789+/".toList

/-- The letter for six bits. -/
def letter (n : Nat) : Char := alphabet.getD n '='

def encode : Bytes → Text
  | a :: b :: c :: rest =>
      letter (a.toNat / 4) :: letter (a.toNat % 4 * 16 + b.toNat / 16)
        :: letter (b.toNat % 16 * 4 + c.toNat / 64) :: letter (c.toNat % 64) :: encode rest
  | [a, b] =>
      [letter (a.toNat / 4), letter (a.toNat % 4 * 16 + b.toNat / 16),
        letter (b.toNat % 16 * 4), '=']
  | [a] => [letter (a.toNat / 4), letter (a.toNat % 4 * 16), '=', '=']
  | [] => []

theorem letter_inj {m n : Nat} (hm : m < 64) (hn : n < 64) (h : letter m = letter n) : m = n := by
  have hall : ∀ m < 64, ∀ n < 64, letter m = letter n → m = n := by decide +kernel
  exact hall m hm n hn h

theorem letter_ne_pad {n : Nat} (hn : n < 64) : letter n ≠ '=' := by
  have hall : ∀ n < 64, letter n ≠ '=' := by decide +kernel
  exact hall n hn

theorem length_encode (bytes : Bytes) :
    (encode bytes).length = 4 * ((bytes.length + 2) / 3) := by
  induction bytes using encode.induct with
  | case1 a b c rest ih =>
      rw [encode, List.length_cons, List.length_cons, List.length_cons, List.length_cons, ih]
      simp only [List.length_cons]
      omega
  | case2 a b => simp [encode]
  | case3 a => simp [encode]
  | case4 => simp [encode]

/-- Four letters tell three bytes. -/
theorem group_inj {a b c a' b' c' : UInt8}
    (h₁ : letter (a.toNat / 4) = letter (a'.toNat / 4))
    (h₂ : letter (a.toNat % 4 * 16 + b.toNat / 16) = letter (a'.toNat % 4 * 16 + b'.toNat / 16))
    (h₃ : letter (b.toNat % 16 * 4 + c.toNat / 64) = letter (b'.toNat % 16 * 4 + c'.toNat / 64))
    (h₄ : letter (c.toNat % 64) = letter (c'.toNat % 64)) : a = a' ∧ b = b' ∧ c = c' := by
  have ha := a.toNat_lt
  have hb := b.toNat_lt
  have hc := c.toNat_lt
  have ha' := a'.toNat_lt
  have hb' := b'.toNat_lt
  have hc' := c'.toNat_lt
  have e₁ := letter_inj (by omega) (by omega) h₁
  have e₂ := letter_inj (by omega) (by omega) h₂
  have e₃ := letter_inj (by omega) (by omega) h₃
  have e₄ := letter_inj (by omega) (by omega) h₄
  refine ⟨UInt8.toNat_inj.mp ?_, UInt8.toNat_inj.mp ?_, UInt8.toNat_inj.mp ?_⟩
  · omega
  · omega
  · omega

/-- What is left of two bytes tells them. -/
theorem pair_inj {a b a' b' : UInt8}
    (h₁ : letter (a.toNat / 4) = letter (a'.toNat / 4))
    (h₂ : letter (a.toNat % 4 * 16 + b.toNat / 16) = letter (a'.toNat % 4 * 16 + b'.toNat / 16))
    (h₃ : letter (b.toNat % 16 * 4) = letter (b'.toNat % 16 * 4)) : a = a' ∧ b = b' := by
  have h := @group_inj a b 0 a' b' 0 h₁ h₂ (by simpa using h₃) rfl
  exact ⟨h.1, h.2.1⟩

/-- And what is left of one. -/
theorem single_inj {a a' : UInt8} (h₁ : letter (a.toNat / 4) = letter (a'.toNat / 4))
    (h₂ : letter (a.toNat % 4 * 16) = letter (a'.toNat % 4 * 16)) : a = a' := by
  have h := @pair_inj a 0 a' 0 h₁ (by simpa using h₂) rfl
  exact h.1

/-- **Different bytes have different texts.** -/
theorem encode_injective : Function.Injective encode := by
  intro x y h
  have hlast : ∀ n : Nat, letter (n % 64) ≠ '=' := fun n => letter_ne_pad (by omega)
  have hshort : ∀ n : Nat, letter (n % 16 * 4) ≠ '=' := fun n => letter_ne_pad (by omega)
  induction x using encode.induct generalizing y with
  | case1 a b c rest ih =>
      match y with
      | a' :: b' :: c' :: rest' =>
          simp only [encode, List.cons.injEq] at h
          obtain ⟨h₁, h₂, h₃, h₄, hrest⟩ := h
          obtain ⟨rfl, rfl, rfl⟩ := group_inj h₁ h₂ h₃ h₄
          rw [ih hrest]
      | [a', b'] =>
          simp only [encode, List.cons.injEq] at h
          exact absurd h.2.2.2.1 (hlast _)
      | [a'] =>
          simp only [encode, List.cons.injEq] at h
          exact absurd h.2.2.2.1 (hlast _)
      | [] => simp [encode] at h
  | case2 a b =>
      match y with
      | a' :: b' :: c' :: rest' =>
          simp only [encode, List.cons.injEq] at h
          exact absurd h.2.2.2.1.symm (hlast _)
      | [a', b'] =>
          simp only [encode, List.cons.injEq] at h
          obtain ⟨rfl, rfl⟩ := pair_inj h.1 h.2.1 h.2.2.1
          rfl
      | [a'] =>
          simp only [encode, List.cons.injEq] at h
          exact absurd h.2.2.1 (hshort _)
      | [] => simp [encode] at h
  | case3 a =>
      match y with
      | a' :: b' :: c' :: rest' =>
          simp only [encode, List.cons.injEq] at h
          exact absurd h.2.2.2.1.symm (hlast _)
      | [a', b'] =>
          simp only [encode, List.cons.injEq] at h
          exact absurd h.2.2.1.symm (hshort _)
      | [a'] =>
          simp only [encode, List.cons.injEq] at h
          rw [single_inj h.1 h.2.1]
      | [] => simp [encode] at h
  | case4 =>
      match y with
      | a' :: b' :: c' :: rest' => simp [encode] at h
      | [a', b'] => simp [encode] at h
      | [a'] => simp [encode] at h
      | [] => rfl

/-- The alphabet of the standard, padded. -/
def standard : Engine := ⟨encode, encode_injective, length_encode⟩

/-! ## Without padding -/

def urlLetter (n : Nat) : Char :=
  if n < 26 then Char.ofNat ('A'.toNat + n)
  else if n < 52 then Char.ofNat ('a'.toNat + (n - 26))
  else if n < 62 then Char.ofNat ('0'.toNat + (n - 52))
  else if n = 62 then '-'
  else '_'

def encodeUrl : Bytes → Text
  | [] => []
  | [a] => [urlLetter (a.toNat / 4), urlLetter (a.toNat % 4 * 16)]
  | [a, b] =>
      [urlLetter (a.toNat / 4), urlLetter (a.toNat % 4 * 16 + b.toNat / 16),
        urlLetter (b.toNat % 16 * 4)]
  | a :: b :: c :: rest =>
      urlLetter (a.toNat / 4) :: urlLetter (a.toNat % 4 * 16 + b.toNat / 16) ::
        urlLetter (b.toNat % 16 * 4 + c.toNat / 64) :: urlLetter (c.toNat % 64) :: encodeUrl rest

def urlValue (c : Char) : Option Nat :=
  if 'A' ≤ c ∧ c ≤ 'Z' then some (c.toNat - 'A'.toNat)
  else if 'a' ≤ c ∧ c ≤ 'z' then some (c.toNat - 'a'.toNat + 26)
  else if '0' ≤ c ∧ c ≤ '9' then some (c.toNat - '0'.toNat + 52)
  else if c = '-' then some 62
  else if c = '_' then some 63
  else none

/-- The bits that are left over must be zero. -/
def decodeUrl : Text → Option Bytes
  | [] => some []
  | [_] => none
  | [a, b] => do
      let x ← urlValue a
      let y ← urlValue b
      if y % 16 = 0 then some [UInt8.ofNat (x * 4 + y / 16)] else none
  | [a, b, c] => do
      let x ← urlValue a
      let y ← urlValue b
      let z ← urlValue c
      if z % 4 = 0 then
        some [UInt8.ofNat (x * 4 + y / 16), UInt8.ofNat (y % 16 * 16 + z / 4)]
      else none
  | a :: b :: c :: d :: rest => do
      let x ← urlValue a
      let y ← urlValue b
      let z ← urlValue c
      let w ← urlValue d
      let bytes ← decodeUrl rest
      return UInt8.ofNat (x * 4 + y / 16) :: UInt8.ofNat (y % 16 * 16 + z / 4) ::
        UInt8.ofNat (z % 4 * 64 + w) :: bytes

theorem urlValue_urlLetter {n : Nat} (h : n < 64) :
    urlValue (urlLetter n) = some n := by
  have hall : ∀ m < 64, urlValue (urlLetter m) = some m := by decide
  exact hall n h

/-- A byte that is put together again. -/
theorem ofNat_eq {n : Nat} {a : UInt8} (h : n = a.toNat) : UInt8.ofNat n = a := by
  rw [h, UInt8.ofNat_toNat]

/-- **Round trip.**  What was encoded is read back. -/
theorem decodeUrl_encodeUrl (bytes : Bytes) : decodeUrl (encodeUrl bytes) = some bytes := by
  induction bytes using encodeUrl.induct with
  | case1 => rfl
  | case2 a =>
      have ha := a.toNat_lt
      rw [encodeUrl, decodeUrl, urlValue_urlLetter (by omega),
        urlValue_urlLetter (by omega)]
      have hfirst : UInt8.ofNat (a.toNat / 4 * 4 + a.toNat % 4 * 16 / 16) = a :=
        ofNat_eq (by omega)
      refine (if_pos (by omega)).trans ?_
      rw [hfirst]
  | case3 a b =>
      have ha := a.toNat_lt
      have hb := b.toNat_lt
      rw [encodeUrl, decodeUrl, urlValue_urlLetter (by omega),
        urlValue_urlLetter (by omega), urlValue_urlLetter (by omega)]
      have hfirst : UInt8.ofNat (a.toNat / 4 * 4 + (a.toNat % 4 * 16 + b.toNat / 16) / 16) = a :=
        ofNat_eq (by omega)
      have hsecond : UInt8.ofNat ((a.toNat % 4 * 16 + b.toNat / 16) % 16 * 16 +
          b.toNat % 16 * 4 / 4) = b := ofNat_eq (by omega)
      refine (if_pos (by omega)).trans ?_
      rw [hfirst, hsecond]
  | case4 a b c rest ih =>
      have ha := a.toNat_lt
      have hb := b.toNat_lt
      have hc := c.toNat_lt
      rw [encodeUrl, decodeUrl, urlValue_urlLetter (by omega),
        urlValue_urlLetter (by omega), urlValue_urlLetter (by omega),
        urlValue_urlLetter (by omega), ih]
      have hfirst : UInt8.ofNat (a.toNat / 4 * 4 + (a.toNat % 4 * 16 + b.toNat / 16) / 16) = a :=
        ofNat_eq (by omega)
      have hsecond : UInt8.ofNat ((a.toNat % 4 * 16 + b.toNat / 16) % 16 * 16 +
          (b.toNat % 16 * 4 + c.toNat / 64) / 4) = b := ofNat_eq (by omega)
      have hthird : UInt8.ofNat ((b.toNat % 16 * 4 + c.toNat / 64) % 4 * 64 + c.toNat % 64) = c :=
        ofNat_eq (by omega)
      refine congrArg some ?_
      rw [hfirst, hsecond, hthird]

theorem isUrlSafe_urlLetter (n : Nat) : isUrlSafe (urlLetter n) = true := by
  have hupper : ∀ m < 26, isUrlSafe (Char.ofNat ('A'.toNat + m)) = true := by decide
  have hlower : ∀ m < 26, isUrlSafe (Char.ofNat ('a'.toNat + m)) = true := by decide
  have hdigit : ∀ m < 10, isUrlSafe (Char.ofNat ('0'.toNat + m)) = true := by decide
  rw [urlLetter]
  split
  · exact hupper n (by omega)
  · split
    · exact hlower (n - 26) (by omega)
    · split
      · exact hdigit (n - 52) (by omega)
      · split <;> decide

theorem isUrlSafe_encodeUrl (bytes : Bytes) : ∀ c ∈ encodeUrl bytes, isUrlSafe c = true := by
  induction bytes using encodeUrl.induct with
  | case1 => simp [encodeUrl]
  | case2 a => simp [encodeUrl, isUrlSafe_urlLetter]
  | case3 a b => simp [encodeUrl, isUrlSafe_urlLetter]
  | case4 a b c rest ih => simpa [encodeUrl, isUrlSafe_urlLetter] using ih

/-- The alphabet for addresses, not padded. -/
def UrlSafe.unpadded : UrlSafe := ⟨encodeUrl, decodeUrl, decodeUrl_encodeUrl, isUrlSafe_encodeUrl⟩

end Lfsx.Base64
