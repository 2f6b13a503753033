import Lfsx.Paths
import Lfsx.Trim

/-!
# Lower case

`str::to_lowercase`.  A character is mapped to the characters its entry in the Unicode data says,
apart from a capital sigma, which is mapped to one of two letters by what stands around it.

`Casing` is what a version of Unicode says, with what holds of every version: a text that was
lowered is left as it is when it is lowered again (`toLowercase_idem`), and lowering takes no
ASCII character but a letter for another (`mem_toLowercase`).  So a text can be taken apart
at a mark before it is lowered or after.

`Casing.unicode` is the data itself, as ranges of code points.
-/

namespace Lfsx

/-- What `str::to_lowercase` reads of a version of Unicode. -/
structure Casing where
  /-- What a character is mapped to, wherever it stands. -/
  lowercase : Char → Text
  cased : Char → Bool
  caseIgnorable : Char → Bool
  ascii : ∀ c, c.toNat < 128 → lowercase c = [c.toLower]
  ne_nil : ∀ c, lowercase c ≠ []
  settled : ∀ c, ∀ d ∈ lowercase c, lowercase d = [d]
  sigma : lowercase 'Σ' = ['σ']
  finalSigma : lowercase 'ς' = ['ς']
  letters : ∀ c, ∀ d ∈ lowercase c, d ≠ c → isBlank d = false ∧ (d.toNat < 128 → d.isLower = true)

namespace Casing

variable (casing : Casing)

/-- `case_ignorable_then_cased`. -/
def caseIgnorableThenCased (t : Text) : Bool :=
  match t.dropWhile casing.caseIgnorable with
  | [] => false
  | c :: _ => casing.cased c

/-- `map_uppercase_sigma`: a sigma that ends a word has a form of its own. -/
def mapUppercaseSigma (before after : Text) : Char :=
  if casing.caseIgnorableThenCased before.reverse && !casing.caseIgnorableThenCased after then 'ς'
  else 'σ'

/-- What a character between two texts is mapped to. -/
def mapped (before : Text) (c : Char) (after : Text) : Text :=
  if c = 'Σ' then [casing.mapUppercaseSigma before after] else casing.lowercase c

def lowercaseFrom (before : Text) : Text → Text
  | [] => []
  | c :: after => casing.mapped before c after ++ lowercaseFrom (before ++ [c]) after

/-- `str::to_lowercase`. -/
def toLowercase (t : Text) : Text := casing.lowercaseFrom [] t

/-- Lowering leaves the character. -/
def Settled (c : Char) : Prop := c ≠ 'Σ' ∧ casing.lowercase c = [c]

variable {casing} {before after t : Text} {c d : Char}

/-! ## A character -/

theorem mapped_ne_nil : casing.mapped before c after ≠ [] := by
  rw [mapped]
  split
  · simp
  · exact casing.ne_nil c

theorem mapUppercaseSigma_eq (casing : Casing) (before after : Text) :
    casing.mapUppercaseSigma before after = 'ς' ∨ casing.mapUppercaseSigma before after = 'σ' := by
  rw [mapUppercaseSigma]
  split <;> simp

theorem settled_sigma : casing.lowercase 'σ' = ['σ'] :=
  casing.settled 'Σ' 'σ' (by simp [casing.sigma])

/-- **What a character is mapped to stays.** -/
theorem settled_mapped (h : d ∈ casing.mapped before c after) : casing.Settled d := by
  rw [mapped] at h
  split at h
  case isTrue =>
    rw [List.mem_singleton.mp h]
    rcases mapUppercaseSigma_eq casing before after with heq | heq
    · rw [heq]
      exact ⟨by decide, casing.finalSigma⟩
    · rw [heq]
      exact ⟨by decide, settled_sigma⟩
  case isFalse =>
    have hd := casing.settled c d h
    refine ⟨?_, hd⟩
    rintro rfl
    have hsigma := casing.sigma
    rw [hd] at hsigma
    exact absurd (List.cons.inj hsigma).1 (by decide)

/-- What is not the character itself is no blank and no mark. -/
theorem letter_mapped (h : d ∈ casing.mapped before c after) (hne : d ≠ c) :
    isBlank d = false ∧ (d.toNat < 128 → d.isLower = true) := by
  rw [mapped] at h
  split at h
  case isTrue =>
    rw [List.mem_singleton.mp h]
    rcases mapUppercaseSigma_eq casing before after with heq | heq
    · rw [heq]
      decide
    · rw [heq]
      decide
  case isFalse => exact casing.letters c d h hne

/-! ## A text -/

theorem lowercaseFrom_cons : casing.lowercaseFrom before (c :: t) =
    casing.mapped before c t ++ casing.lowercaseFrom (before ++ [c]) t := rfl

theorem settled_of_mem (h : d ∈ casing.lowercaseFrom before t) : casing.Settled d := by
  induction t generalizing before with
  | nil => simp [lowercaseFrom] at h
  | cons c t ih =>
      rw [lowercaseFrom_cons] at h
      rcases List.mem_append.mp h with h | h
      · exact settled_mapped h
      · exact ih h

theorem lowercaseFrom_settled (h : ∀ c ∈ t, casing.Settled c) :
    casing.lowercaseFrom before t = t := by
  induction t generalizing before with
  | nil => rfl
  | cons c t ih =>
      obtain ⟨hsigma, hc⟩ := h c List.mem_cons_self
      rw [lowercaseFrom_cons, ih fun d hd => h d (List.mem_cons_of_mem _ hd), mapped,
        if_neg hsigma, hc]
      rfl

/-- **A text that was lowered is in lower case.** -/
theorem toLowercase_idem (t : Text) :
    casing.toLowercase (casing.toLowercase t) = casing.toLowercase t :=
  lowercaseFrom_settled fun _ hd => settled_of_mem hd

theorem lowercaseFrom_eq_nil : casing.lowercaseFrom before t = [] ↔ t = [] := by
  cases t with
  | nil => simp [lowercaseFrom]
  | cons c t => simp [lowercaseFrom_cons, mapped_ne_nil]

@[simp] theorem toLowercase_eq_nil : casing.toLowercase t = [] ↔ t = [] := lowercaseFrom_eq_nil

@[simp] theorem toLowercase_nil : casing.toLowercase [] = [] := rfl

/-- **A character of a lowered text was in it, or it is no blank and no mark.** -/
theorem mem_lowercaseFrom (h : d ∈ casing.lowercaseFrom before t) :
    d ∈ t ∨ isBlank d = false ∧ (d.toNat < 128 → d.isLower = true) := by
  induction t generalizing before with
  | nil => simp [lowercaseFrom] at h
  | cons c t ih =>
      rw [lowercaseFrom_cons] at h
      rcases List.mem_append.mp h with h | h
      · by_cases hc : d = c
        · exact Or.inl (by simp [hc])
        · exact Or.inr (letter_mapped h hc)
      · rcases ih h with hmem | hletter
        · exact Or.inl (List.mem_cons_of_mem _ hmem)
        · exact Or.inr hletter

/-- A mark that is in the lowered text was in it before. -/
theorem mem_of_mem_toLowercase (hascii : d.toNat < 128) (hmark : d.isLower = false)
    (h : d ∈ casing.toLowercase t) : d ∈ t := by
  rcases mem_lowercaseFrom h with hmem | ⟨-, hletter⟩
  · exact hmem
  · rw [hletter hascii] at hmark
    cases hmark

/-- The first character comes from the first. -/
theorem head_toLowercase (h : (casing.toLowercase (c :: t)).head? = some d) :
    d = c ∨ isBlank d = false ∧ (d.toNat < 128 → d.isLower = true) := by
  have hmem : d ∈ casing.mapped [] c t := by
    rw [toLowercase, lowercaseFrom_cons, List.head?_append_of_ne_nil _ mapped_ne_nil] at h
    exact List.mem_of_mem_head? h
  by_cases hc : d = c
  · exact Or.inl hc
  · exact Or.inr (letter_mapped hmem hc)

/-- The last character comes from the last. -/
theorem last_lowercaseFrom (h : (casing.lowercaseFrom before (t ++ [c])).getLast? = some d) :
    d = c ∨ isBlank d = false ∧ (d.toNat < 128 → d.isLower = true) := by
  induction t generalizing before with
  | nil =>
      have hmem : d ∈ casing.mapped before c [] := by
        simp only [List.nil_append, lowercaseFrom_cons, lowercaseFrom, List.append_nil] at h
        exact List.mem_of_mem_getLast? h
      by_cases hc : d = c
      · exact Or.inl hc
      · exact Or.inr (letter_mapped hmem hc)
  | cons b t ih =>
      rw [List.cons_append, lowercaseFrom_cons, List.getLast?_append_of_ne_nil] at h
      · exact ih h
      · simp [lowercaseFrom_eq_nil]

/-! ## ASCII -/

theorem lowercaseFrom_ascii (h : ∀ c ∈ t, c.toNat < 128) :
    casing.lowercaseFrom before t = t.map Char.toLower := by
  induction t generalizing before with
  | nil => rfl
  | cons c t ih =>
      have hc := h c List.mem_cons_self
      have hsigma : c ≠ 'Σ' := by
        rintro rfl
        exact absurd hc (by decide)
      rw [lowercaseFrom_cons, ih fun d hd => h d (List.mem_cons_of_mem _ hd), mapped,
        if_neg hsigma, casing.ascii c hc]
      rfl

/-- What was lowered has no ASCII capitals. -/
theorem map_toLower_toLowercase (t : Text) :
    (casing.toLowercase t).map Char.toLower = casing.toLowercase t := by
  rw [List.map_congr_left (g := id), List.map_id]
  intro c hc
  rcases Nat.lt_or_ge c.toNat 128 with hascii | hlarge
  · have hsettled := (settled_of_mem hc).2
    rw [casing.ascii c hascii] at hsettled
    exact (List.cons.inj hsettled).1
  · have hupper : ¬(c.val ≥ 'A'.val ∧ c.val ≤ 'Z'.val) := by
      rintro ⟨-, hle⟩
      have hle' : c.toNat ≤ 90 := by simpa [UInt32.le_iff_toNat_le] using hle
      omega
    exact dif_neg hupper

end Casing

/-! ## The data -/

/-- Every `step`-th code point from `first` to `last`, with the lower case of the first. -/
structure CaseRange where
  first : Nat
  last : Nat
  step : Nat
  lower : Nat
deriving DecidableEq

namespace CaseRange

def has (range : CaseRange) (n : Nat) : Bool :=
  range.first.ble n && n.ble range.last && (n - range.first) % range.step == 0

/-- The lower case of a code point of the range. -/
def image (range : CaseRange) (n : Nat) : Nat := range.lower + (n - range.first)

/-- The last lower case. -/
def top (range : CaseRange) : Nat := range.lower + (range.last - range.first)

/-- No lower case of `a` is in `b`. -/
def apart (a b : CaseRange) : Bool :=
  a.top.blt b.first || b.last.blt a.lower
    || (a.step == 2 && b.step == 2 && b.first ≤ a.lower && (a.lower - b.first) % 2 == 1)
    || (a.step == 2 && b.step == 2 && a.lower ≤ b.first && (b.first - a.lower) % 2 == 1)

/-- Its lower cases are characters, and neither blanks nor marks. -/
def sound (range : CaseRange) : Bool :=
  0x61 ≤ range.lower && range.top ≤ 0x7a || 0xa0 < range.lower && range.top < 0x1680
    || 0x1680 < range.lower && range.top < 0x2000 || 0x205f < range.lower && range.top < 0x3000
    || 0x3000 < range.lower && range.top < 0xd800 || 0xdfff < range.lower && range.top < 0x110000

end CaseRange

/-- The code points with a lower case of one character, in version 14 of Unicode. -/
def caseRanges : List CaseRange :=
  [⟨0x41, 0x5a, 1, 0x61⟩, ⟨0xc0, 0xd6, 1, 0xe0⟩, ⟨0xd8, 0xde, 1, 0xf8⟩, ⟨0x100, 0x12e, 2, 0x101⟩,
   ⟨0x132, 0x136, 2, 0x133⟩, ⟨0x139, 0x147, 2, 0x13a⟩, ⟨0x14a, 0x176, 2, 0x14b⟩,
   ⟨0x178, 0x178, 1, 0xff⟩, ⟨0x179, 0x17d, 2, 0x17a⟩, ⟨0x181, 0x181, 1, 0x253⟩,
   ⟨0x182, 0x184, 2, 0x183⟩, ⟨0x186, 0x186, 1, 0x254⟩, ⟨0x187, 0x187, 1, 0x188⟩,
   ⟨0x189, 0x18a, 1, 0x256⟩, ⟨0x18b, 0x18b, 1, 0x18c⟩, ⟨0x18e, 0x18e, 1, 0x1dd⟩,
   ⟨0x18f, 0x18f, 1, 0x259⟩, ⟨0x190, 0x190, 1, 0x25b⟩, ⟨0x191, 0x191, 1, 0x192⟩,
   ⟨0x193, 0x193, 1, 0x260⟩, ⟨0x194, 0x194, 1, 0x263⟩, ⟨0x196, 0x196, 1, 0x269⟩,
   ⟨0x197, 0x197, 1, 0x268⟩, ⟨0x198, 0x198, 1, 0x199⟩, ⟨0x19c, 0x19c, 1, 0x26f⟩,
   ⟨0x19d, 0x19d, 1, 0x272⟩, ⟨0x19f, 0x19f, 1, 0x275⟩, ⟨0x1a0, 0x1a4, 2, 0x1a1⟩,
   ⟨0x1a6, 0x1a6, 1, 0x280⟩, ⟨0x1a7, 0x1a7, 1, 0x1a8⟩, ⟨0x1a9, 0x1a9, 1, 0x283⟩,
   ⟨0x1ac, 0x1ac, 1, 0x1ad⟩, ⟨0x1ae, 0x1ae, 1, 0x288⟩, ⟨0x1af, 0x1af, 1, 0x1b0⟩,
   ⟨0x1b1, 0x1b2, 1, 0x28a⟩, ⟨0x1b3, 0x1b5, 2, 0x1b4⟩, ⟨0x1b7, 0x1b7, 1, 0x292⟩,
   ⟨0x1b8, 0x1b8, 1, 0x1b9⟩, ⟨0x1bc, 0x1bc, 1, 0x1bd⟩, ⟨0x1c4, 0x1c4, 1, 0x1c6⟩,
   ⟨0x1c5, 0x1c5, 1, 0x1c6⟩, ⟨0x1c7, 0x1c7, 1, 0x1c9⟩, ⟨0x1c8, 0x1c8, 1, 0x1c9⟩,
   ⟨0x1ca, 0x1ca, 2, 0x1cc⟩, ⟨0x1cb, 0x1db, 2, 0x1cc⟩, ⟨0x1de, 0x1ee, 2, 0x1df⟩,
   ⟨0x1f1, 0x1f1, 2, 0x1f3⟩, ⟨0x1f2, 0x1f4, 2, 0x1f3⟩, ⟨0x1f6, 0x1f6, 1, 0x195⟩,
   ⟨0x1f7, 0x1f7, 1, 0x1bf⟩, ⟨0x1f8, 0x21e, 2, 0x1f9⟩, ⟨0x220, 0x220, 1, 0x19e⟩,
   ⟨0x222, 0x232, 2, 0x223⟩, ⟨0x23a, 0x23a, 1, 0x2c65⟩, ⟨0x23b, 0x23b, 1, 0x23c⟩,
   ⟨0x23d, 0x23d, 1, 0x19a⟩, ⟨0x23e, 0x23e, 1, 0x2c66⟩, ⟨0x241, 0x241, 1, 0x242⟩,
   ⟨0x243, 0x243, 1, 0x180⟩, ⟨0x244, 0x244, 1, 0x289⟩, ⟨0x245, 0x245, 1, 0x28c⟩,
   ⟨0x246, 0x24e, 2, 0x247⟩, ⟨0x370, 0x372, 2, 0x371⟩, ⟨0x376, 0x376, 1, 0x377⟩,
   ⟨0x37f, 0x37f, 1, 0x3f3⟩, ⟨0x386, 0x386, 1, 0x3ac⟩, ⟨0x388, 0x38a, 1, 0x3ad⟩,
   ⟨0x38c, 0x38c, 1, 0x3cc⟩, ⟨0x38e, 0x38f, 1, 0x3cd⟩, ⟨0x391, 0x3a1, 1, 0x3b1⟩,
   ⟨0x3a3, 0x3ab, 1, 0x3c3⟩, ⟨0x3cf, 0x3cf, 1, 0x3d7⟩, ⟨0x3d8, 0x3ee, 2, 0x3d9⟩,
   ⟨0x3f4, 0x3f4, 1, 0x3b8⟩, ⟨0x3f7, 0x3f7, 1, 0x3f8⟩, ⟨0x3f9, 0x3f9, 1, 0x3f2⟩,
   ⟨0x3fa, 0x3fa, 1, 0x3fb⟩, ⟨0x3fd, 0x3ff, 1, 0x37b⟩, ⟨0x400, 0x40f, 1, 0x450⟩,
   ⟨0x410, 0x42f, 1, 0x430⟩, ⟨0x460, 0x480, 2, 0x461⟩, ⟨0x48a, 0x4be, 2, 0x48b⟩,
   ⟨0x4c0, 0x4c0, 1, 0x4cf⟩, ⟨0x4c1, 0x4cd, 2, 0x4c2⟩, ⟨0x4d0, 0x52e, 2, 0x4d1⟩,
   ⟨0x531, 0x556, 1, 0x561⟩, ⟨0x10a0, 0x10c5, 1, 0x2d00⟩, ⟨0x10c7, 0x10c7, 1, 0x2d27⟩,
   ⟨0x10cd, 0x10cd, 1, 0x2d2d⟩, ⟨0x13a0, 0x13ef, 1, 0xab70⟩, ⟨0x13f0, 0x13f5, 1, 0x13f8⟩,
   ⟨0x1c90, 0x1cba, 1, 0x10d0⟩, ⟨0x1cbd, 0x1cbf, 1, 0x10fd⟩, ⟨0x1e00, 0x1e94, 2, 0x1e01⟩,
   ⟨0x1e9e, 0x1e9e, 1, 0xdf⟩, ⟨0x1ea0, 0x1efe, 2, 0x1ea1⟩, ⟨0x1f08, 0x1f0f, 1, 0x1f00⟩,
   ⟨0x1f18, 0x1f1d, 1, 0x1f10⟩, ⟨0x1f28, 0x1f2f, 1, 0x1f20⟩, ⟨0x1f38, 0x1f3f, 1, 0x1f30⟩,
   ⟨0x1f48, 0x1f4d, 1, 0x1f40⟩, ⟨0x1f59, 0x1f5f, 2, 0x1f51⟩, ⟨0x1f68, 0x1f6f, 1, 0x1f60⟩,
   ⟨0x1f88, 0x1f8f, 1, 0x1f80⟩, ⟨0x1f98, 0x1f9f, 1, 0x1f90⟩, ⟨0x1fa8, 0x1faf, 1, 0x1fa0⟩,
   ⟨0x1fb8, 0x1fb9, 1, 0x1fb0⟩, ⟨0x1fba, 0x1fbb, 1, 0x1f70⟩, ⟨0x1fbc, 0x1fbc, 1, 0x1fb3⟩,
   ⟨0x1fc8, 0x1fcb, 1, 0x1f72⟩, ⟨0x1fcc, 0x1fcc, 1, 0x1fc3⟩, ⟨0x1fd8, 0x1fd9, 1, 0x1fd0⟩,
   ⟨0x1fda, 0x1fdb, 1, 0x1f76⟩, ⟨0x1fe8, 0x1fe9, 1, 0x1fe0⟩, ⟨0x1fea, 0x1feb, 1, 0x1f7a⟩,
   ⟨0x1fec, 0x1fec, 1, 0x1fe5⟩, ⟨0x1ff8, 0x1ff9, 1, 0x1f78⟩, ⟨0x1ffa, 0x1ffb, 1, 0x1f7c⟩,
   ⟨0x1ffc, 0x1ffc, 1, 0x1ff3⟩, ⟨0x2126, 0x2126, 1, 0x3c9⟩, ⟨0x212a, 0x212a, 1, 0x6b⟩,
   ⟨0x212b, 0x212b, 1, 0xe5⟩, ⟨0x2132, 0x2132, 1, 0x214e⟩, ⟨0x2160, 0x216f, 1, 0x2170⟩,
   ⟨0x2183, 0x2183, 1, 0x2184⟩, ⟨0x24b6, 0x24cf, 1, 0x24d0⟩, ⟨0x2c00, 0x2c2f, 1, 0x2c30⟩,
   ⟨0x2c60, 0x2c60, 1, 0x2c61⟩, ⟨0x2c62, 0x2c62, 1, 0x26b⟩, ⟨0x2c63, 0x2c63, 1, 0x1d7d⟩,
   ⟨0x2c64, 0x2c64, 1, 0x27d⟩, ⟨0x2c67, 0x2c6b, 2, 0x2c68⟩, ⟨0x2c6d, 0x2c6d, 1, 0x251⟩,
   ⟨0x2c6e, 0x2c6e, 1, 0x271⟩, ⟨0x2c6f, 0x2c6f, 1, 0x250⟩, ⟨0x2c70, 0x2c70, 1, 0x252⟩,
   ⟨0x2c72, 0x2c72, 1, 0x2c73⟩, ⟨0x2c75, 0x2c75, 1, 0x2c76⟩, ⟨0x2c7e, 0x2c7f, 1, 0x23f⟩,
   ⟨0x2c80, 0x2ce2, 2, 0x2c81⟩, ⟨0x2ceb, 0x2ced, 2, 0x2cec⟩, ⟨0x2cf2, 0x2cf2, 1, 0x2cf3⟩,
   ⟨0xa640, 0xa66c, 2, 0xa641⟩, ⟨0xa680, 0xa69a, 2, 0xa681⟩, ⟨0xa722, 0xa72e, 2, 0xa723⟩,
   ⟨0xa732, 0xa76e, 2, 0xa733⟩, ⟨0xa779, 0xa77b, 2, 0xa77a⟩, ⟨0xa77d, 0xa77d, 1, 0x1d79⟩,
   ⟨0xa77e, 0xa786, 2, 0xa77f⟩, ⟨0xa78b, 0xa78b, 1, 0xa78c⟩, ⟨0xa78d, 0xa78d, 1, 0x265⟩,
   ⟨0xa790, 0xa792, 2, 0xa791⟩, ⟨0xa796, 0xa7a8, 2, 0xa797⟩, ⟨0xa7aa, 0xa7aa, 1, 0x266⟩,
   ⟨0xa7ab, 0xa7ab, 1, 0x25c⟩, ⟨0xa7ac, 0xa7ac, 1, 0x261⟩, ⟨0xa7ad, 0xa7ad, 1, 0x26c⟩,
   ⟨0xa7ae, 0xa7ae, 1, 0x26a⟩, ⟨0xa7b0, 0xa7b0, 1, 0x29e⟩, ⟨0xa7b1, 0xa7b1, 1, 0x287⟩,
   ⟨0xa7b2, 0xa7b2, 1, 0x29d⟩, ⟨0xa7b3, 0xa7b3, 1, 0xab53⟩, ⟨0xa7b4, 0xa7c2, 2, 0xa7b5⟩,
   ⟨0xa7c4, 0xa7c4, 1, 0xa794⟩, ⟨0xa7c5, 0xa7c5, 1, 0x282⟩, ⟨0xa7c6, 0xa7c6, 1, 0x1d8e⟩,
   ⟨0xa7c7, 0xa7c9, 2, 0xa7c8⟩, ⟨0xa7d0, 0xa7d0, 1, 0xa7d1⟩, ⟨0xa7d6, 0xa7d8, 2, 0xa7d7⟩,
   ⟨0xa7f5, 0xa7f5, 1, 0xa7f6⟩, ⟨0xff21, 0xff3a, 1, 0xff41⟩, ⟨0x10400, 0x10427, 1, 0x10428⟩,
   ⟨0x104b0, 0x104d3, 1, 0x104d8⟩, ⟨0x10570, 0x10594, 2, 0x10597⟩, ⟨0x10571, 0x1057a, 1, 0x10598⟩,
   ⟨0x1057d, 0x1058a, 1, 0x105a4⟩, ⟨0x1058d, 0x10592, 1, 0x105b4⟩, ⟨0x10595, 0x10595, 1, 0x105bc⟩,
   ⟨0x10c80, 0x10cb2, 1, 0x10cc0⟩, ⟨0x118a0, 0x118bf, 1, 0x118c0⟩, ⟨0x16e40, 0x16e5f, 1, 0x16e60⟩,
   ⟨0x1e900, 0x1e921, 1, 0x1e922⟩]


/-- The lower case of a code point. -/
def lowercaseAt (n : Nat) : Nat :=
  match caseRanges.find? fun range => range.has n with
  | some range => range.image n
  | none => n

/-- `conversions::to_lower`: a capital `I` with a dot is the one that takes two characters. -/
def toLower (c : Char) : Text :=
  if c = 'İ' then ['i', '\u0307'] else [Char.ofNat (lowercaseAt c.toNat)]

section Data

variable {a b range : CaseRange} {n : Nat} {c d : Char}

theorem caseRanges_sound : ∀ range ∈ caseRanges, range.sound = true := by decide +kernel

theorem caseRanges_apart : ∀ a ∈ caseRanges, ∀ b ∈ caseRanges, a.apart b = true := by
  have hall : (caseRanges.all fun a => caseRanges.all fun b => a.apart b) = true := by
    decide +kernel
  simpa only [List.all_eq_true] using hall

theorem caseRanges_dotted : ∀ range ∈ caseRanges, range.top < 0x130 ∨ 0x130 < range.lower := by
  decide +kernel

theorem lowercaseAt_ascii : ∀ n < 128, lowercaseAt n = (Char.ofNat n).toLower.toNat := by
  decide +kernel

theorem CaseRange.has_iff : range.has n = true ↔
    range.first ≤ n ∧ n ≤ range.last ∧ (n - range.first) % range.step = 0 := by
  simp [CaseRange.has, and_assoc, Nat.ble_eq]

theorem CaseRange.image_le (h : range.has n = true) :
    range.lower ≤ range.image n ∧ range.image n ≤ range.top := by
  obtain ⟨hfirst, hlast, -⟩ := CaseRange.has_iff.mp h
  simp only [CaseRange.image, CaseRange.top]
  omega

theorem CaseRange.not_has_image (happart : a.apart b = true) (h : a.has n = true) :
    b.has (a.image n) = false := by
  obtain ⟨hfirst, hlast, hstep⟩ := CaseRange.has_iff.mp h
  have himage := CaseRange.image_le h
  rw [Bool.eq_false_iff]
  intro hb
  obtain ⟨hfirst', hlast', hstep'⟩ := CaseRange.has_iff.mp hb
  simp only [CaseRange.apart, Bool.or_eq_true, Bool.and_eq_true, decide_eq_true_eq,
    beq_iff_eq, Nat.blt_eq] at happart
  rcases happart with ((happart | happart) | ⟨⟨⟨ha, hb⟩, hle⟩, hodd⟩) | ⟨⟨⟨ha, hb⟩, hle⟩, hodd⟩
  · omega
  · omega
  · -- Both go in steps of two, and they are an odd distance apart.
    rw [ha] at hstep
    rw [hb, CaseRange.image] at hstep'
    rw [CaseRange.image] at hfirst'
    omega
  · rw [ha] at hstep
    rw [hb, CaseRange.image] at hstep'
    rw [CaseRange.image] at hfirst'
    omega

/-- A code point is in a range, or it is its own lower case. -/
theorem lowercaseAt_cases (n : Nat) : lowercaseAt n = n ∨
    ∃ range ∈ caseRanges, range.has n = true ∧ lowercaseAt n = range.image n := by
  rw [lowercaseAt]
  cases hfind : caseRanges.find? fun range => range.has n with
  | none => exact Or.inl rfl
  | some range =>
      have hhas := List.find?_some hfind
      exact Or.inr ⟨range, List.mem_of_find?_eq_some hfind, hhas, rfl⟩

theorem lowercaseAt_image (hrange : range ∈ caseRanges) (h : range.has n = true) :
    lowercaseAt (range.image n) = range.image n := by
  rcases lowercaseAt_cases (range.image n) with heq | ⟨other, hother, hhas, -⟩
  · exact heq
  · rw [CaseRange.not_has_image (caseRanges_apart range hrange other hother) h] at hhas
    cases hhas

theorem CaseRange.toNat_image (hsound : range.sound = true) (h : range.has n = true) :
    (Char.ofNat (range.image n)).toNat = range.image n := by
  have himage := CaseRange.image_le h
  simp only [CaseRange.sound, Bool.or_eq_true, Bool.and_eq_true, decide_eq_true_eq] at hsound
  have hvalid : (range.image n).isValidChar := by
    simp only [Nat.isValidChar]
    omega
  rw [Char.ofNat, dif_pos hvalid]
  rfl

/-- A lower case is no blank, and in ASCII it is a letter. -/
theorem CaseRange.letter_image (hsound : range.sound = true) (h : range.has n = true) :
    isBlank (Char.ofNat (range.image n)) = false ∧
      ((Char.ofNat (range.image n)).toNat < 128 →
        (Char.ofNat (range.image n)).isLower = true) := by
  have himage := CaseRange.image_le h
  have hnat := CaseRange.toNat_image hsound h
  simp only [CaseRange.sound, Bool.or_eq_true, Bool.and_eq_true, decide_eq_true_eq] at hsound
  constructor
  · simp only [isBlank, hnat, Bool.or_eq_false_iff, Bool.and_eq_false_iff, decide_eq_false_iff_not,
      beq_eq_false_iff_ne]
    omega
  · intro hascii
    rw [hnat] at hascii
    have hlower : ∀ c : Char, 97 ≤ c.toNat → c.toNat ≤ 122 → c.isLower = true := by
      intro c hle hge
      refine Bool.and_eq_true_iff.mpr ⟨decide_eq_true ?_, decide_eq_true ?_⟩
      · exact UInt32.le_iff_toNat_le.mpr hle
      · exact UInt32.le_iff_toNat_le.mpr hge
    apply hlower
    · omega
    · omega

theorem ne_dotted (hrange : range ∈ caseRanges) (h : range.has n = true) :
    Char.ofNat (range.image n) ≠ 'İ' := by
  have himage := CaseRange.image_le h
  have hnat := CaseRange.toNat_image (caseRanges_sound range hrange) h
  have hdotted := caseRanges_dotted range hrange
  intro heq
  rw [heq] at hnat
  have h130 : 'İ'.toNat = 0x130 := rfl
  omega

/-- A character other than the dotted one is its own lower case, or it is in a range. -/
theorem toLower_cases (hc : c ≠ 'İ') : toLower c = [c] ∨
    ∃ range ∈ caseRanges, range.has c.toNat = true ∧
      toLower c = [Char.ofNat (range.image c.toNat)] := by
  rw [toLower, if_neg hc]
  rcases lowercaseAt_cases c.toNat with heq | ⟨range, hrange, hhas, heq⟩
  · exact Or.inl (by rw [heq, Char.ofNat_toNat])
  · exact Or.inr ⟨range, hrange, hhas, by rw [heq]⟩

theorem toLower_settled (h : d ∈ toLower c) : toLower d = [d] := by
  by_cases hc : c = 'İ'
  · subst hc
    have hmem : d = 'i' ∨ d = '\u0307' := by simpa [toLower] using h
    rcases hmem with rfl | rfl
    · decide +kernel
    · decide +kernel
  · rcases toLower_cases hc with heq | ⟨range, hrange, hhas, heq⟩
    · rw [heq] at h
      rw [List.mem_singleton.mp h, heq]
    · rw [heq] at h
      rw [List.mem_singleton.mp h, toLower, if_neg (ne_dotted hrange hhas),
        CaseRange.toNat_image (caseRanges_sound range hrange) hhas, lowercaseAt_image hrange hhas]

theorem toLower_letter (h : d ∈ toLower c) (hne : d ≠ c) :
    isBlank d = false ∧ (d.toNat < 128 → d.isLower = true) := by
  by_cases hc : c = 'İ'
  · subst hc
    have hmem : d = 'i' ∨ d = '\u0307' := by simpa [toLower] using h
    rcases hmem with rfl | rfl
    · decide
    · decide
  · rcases toLower_cases hc with heq | ⟨range, hrange, hhas, heq⟩
    · rw [heq] at h
      exact absurd (List.mem_singleton.mp h) hne
    · rw [heq] at h
      rw [List.mem_singleton.mp h]
      exact CaseRange.letter_image (caseRanges_sound range hrange) hhas

theorem toLower_ascii (h : c.toNat < 128) : toLower c = [c.toLower] := by
  have hc : c ≠ 'İ' := by
    rintro rfl
    exact absurd h (by decide)
  rw [toLower, if_neg hc, lowercaseAt_ascii c.toNat h, Char.ofNat_toNat, Char.ofNat_toNat]

/-- **Version 14 of Unicode**, whatever it says of the ends of words. -/
def Casing.unicode (cased caseIgnorable : Char → Bool) : Casing where
  lowercase := toLower
  cased
  caseIgnorable
  ascii _ h := toLower_ascii h
  ne_nil c := by
    rw [toLower]
    split <;> simp
  settled _ _ h := toLower_settled h
  sigma := by decide +kernel
  finalSigma := by decide +kernel
  letters _ _ h hne := toLower_letter h hne

end Data

end Lfsx
