import Mathlib.Data.List.TakeDrop
import Mathlib.Data.List.TakeWhile
import Lfsx.Auth.Namespaces
import Lfsx.Lowercase

/-!
# Lists that are saved and read back

What the dashboard saves of a list is `entries`, and what it reads back is `fromEntries` of them.
An entry that was read is written in lower case, with nothing to trim and its slash where it was
(`Readable`), so that reading it gives the same pattern (`parse_entry`).

A pattern covers the namespaces that its entry names (`covers_iff`): the organisation and the
repository are the entry's without regard to case, or the repository starts as the entry says.
-/

namespace Lfsx

namespace Casing

/-- `str::trim` and `str::to_lowercase`. -/
def text (casing : Casing) : Auth.Unicode := ⟨trim isBlank, casing.toLowercase⟩

end Casing

namespace Auth

namespace Namespaces

/-- `Namespaces::parse`, of the value of a variable. -/
def parse (unicode : Unicode) (value : Option Text) : Namespaces :=
  let named := (((value.getD []).splitOn ',').map unicode.trim).filter fun entry => !entry.isEmpty
  named.filterMap (Pattern.parse unicode)

def entries (all : Namespaces) : List Text := all.map Pattern.entry

end Namespaces

/-- What a list is read from. -/
inductive Source where
  | environment (value : Option Text)
  | listed (entries : List Text)

namespace Source

/-- The entries, before they are trimmed. -/
def pieces : Source → List Text
  | .environment value => (value.getD []).splitOn ','
  | .listed entries => entries

/-- The list, or the entries that cannot be read. -/
def read (unicode : Unicode) : Source → Except (List Text) Namespaces
  | .environment value => .ok (Namespaces.parse unicode value)
  | .listed entries => Namespaces.fromEntries unicode entries

end Source

/-- An entry reads as `org/repo`. -/
def Reads (unicode : Unicode) (entry : Text) : Prop :=
  (Pattern.parse unicode (unicode.trim entry)).isSome = true

instance (unicode : Unicode) (entry : Text) : Decidable (Reads unicode entry) :=
  inferInstanceAs (Decidable (_ = true))

/-- An entry names a repository, without regard to case: all of the organisation's, those that
start as it says, or one. -/
inductive Names (casing : Casing) (ns : Namespace) : Text → Prop where
  | any {org : Text} : '/' ∉ org → casing.toLowercase org = casing.toLowercase ns.org →
      Names casing ns (org ++ '/' :: ['*'])
  | starting {org start : Text} : '/' ∉ org → start ≠ [] →
      casing.toLowercase org = casing.toLowercase ns.org →
      casing.toLowercase start <+: casing.toLowercase ns.repo →
      Names casing ns (org ++ '/' :: (start ++ ['*']))
  | exact {org repo : Text} : '/' ∉ org → repo.getLast? ≠ some '*' →
      casing.toLowercase org = casing.toLowercase ns.org →
      casing.toLowercase repo = casing.toLowercase ns.repo →
      Names casing ns (org ++ '/' :: repo)

/-! ## Where an entry is split -/

theorem splitOnce_eq_some {entry org repo : Text} :
    splitOnce entry = some (org, repo) ↔ entry = org ++ '/' :: repo ∧ '/' ∉ org := by
  rw [splitOnce, List.span_eq_takeWhile_dropWhile]
  constructor
  · intro h
    have hsplit := List.takeWhile_append_dropWhile (p := (· != '/')) (l := entry)
    have horg : '/' ∉ entry.takeWhile (· != '/') := by
      intro hmem
      exact absurd (List.mem_takeWhile_imp hmem) (by decide)
    cases hrest : entry.dropWhile (· != '/') with
    | nil =>
        rw [hrest] at h
        cases h
    | cons c rest =>
        have hslash : c = '/' := by
          have hhead := List.head?_dropWhile_not (· != '/') entry
          simpa [hrest] using hhead
        rw [hrest] at h hsplit
        cases h
        rw [hslash] at hsplit
        exact ⟨hsplit.symm, horg⟩
  · rintro ⟨rfl, horg⟩
    have hnot : ∀ c ∈ org, (c != '/') = true := by
      intro c hc
      rw [bne_iff_ne]
      rintro rfl
      exact horg hc
    rw [List.takeWhile_append_of_pos hnot, List.dropWhile_append_of_pos hnot]
    simp

theorem stripStar_eq_some {repo start : Text} :
    stripStar repo = some start ↔ repo = start ++ ['*'] := by
  rw [stripStar]
  constructor
  · intro h
    split at h
    case isTrue hlast =>
      obtain ⟨init, rfl⟩ := List.getLast?_eq_some_iff.mp hlast
      simpa using h
    case isFalse => cases h
  · rintro rfl
    simp

theorem stripStar_eq_none {repo : Text} : stripStar repo = none ↔ repo.getLast? ≠ some '*' := by
  rw [stripStar]
  split <;> simp_all

/-- What the repository of an entry says. -/
inductive Says (casing : Casing) : Text → Repo → Prop where
  | any : Says casing ['*'] .any
  | starting {start : Text} : start ≠ [] →
      Says casing (start ++ ['*']) (.starting (casing.toLowercase start))
  | exact {repo : Text} : repo ≠ [] → repo.getLast? ≠ some '*' →
      Says casing repo (.exact (casing.toLowercase repo))

variable {casing : Casing} {entry piece org repo : Text} {p : Pattern} {n : Namespaces}

/-- **What parses is an organisation, a slash and a repository.** -/
theorem parse_eq_some : Pattern.parse casing.text entry = some p ↔
    ∃ org repo, entry = org ++ '/' :: repo ∧ '/' ∉ org ∧ org ≠ [] ∧
      p.org = casing.toLowercase org ∧ Says casing repo p.repo := by
  rw [Pattern.parse]
  constructor
  · intro h
    cases hsplit : splitOnce entry with
    | none => simp [hsplit] at h
    | some parts =>
        obtain ⟨org, repo⟩ := parts
        obtain ⟨hentry, hslash⟩ := splitOnce_eq_some.mp hsplit
        simp only [hsplit] at h
        split at h
        case isTrue => cases h
        case isFalse hne =>
          simp only [Bool.or_eq_true, List.isEmpty_iff, not_or] at hne
          refine ⟨org, repo, hentry, hslash, hne.1, ?_⟩
          cases h
          refine ⟨rfl, ?_⟩
          cases hstar : stripStar repo with
          | none => exact .exact hne.2 (stripStar_eq_none.mp hstar)
          | some start =>
              rw [stripStar_eq_some.mp hstar]
              cases start with
              | nil => exact .any
              | cons c start => exact .starting (by simp)
  · rintro ⟨org, repo, hentry, hslash, horg, hp, hspec⟩
    have hsplit := splitOnce_eq_some.mpr ⟨hentry, hslash⟩
    obtain ⟨porg, prepo⟩ := p
    simp only at hp hspec
    cases hspec with
    | any => simp [hsplit, horg, hp, stripStar, Casing.text]
    | @starting start hstart =>
        have hstar : stripStar (start ++ ['*']) = some start := stripStar_eq_some.mpr rfl
        cases start with
        | nil => exact absurd rfl hstart
        | cons c start =>
            simp only [hsplit, hstar, hp]
            simp [horg, Casing.text]
    | @exact repo hrepo hlast =>
        have hstar := stripStar_eq_none.mpr hlast
        simp [hsplit, hstar, horg, hrepo, hp, Casing.text]

/-! ## Entries that were read -/

/-- A text does not begin with a blank. -/
def Begins (t : Text) : Prop := ∃ c rest, t = c :: rest ∧ isBlank c = false

/-- A text does not end with a blank. -/
def Finishes (t : Text) : Prop := ∃ init c, t = init ++ [c] ∧ isBlank c = false

theorem begins_of_dropWhile {t : Text} (hne : t ≠ []) (h : t.dropWhile isBlank = t) : Begins t := by
  cases t with
  | nil => exact absurd rfl hne
  | cons c rest =>
      refine ⟨c, rest, rfl, ?_⟩
      have hhead := List.dropWhile_eq_self_iff.mp h (by simp)
      simpa using hhead

theorem finishes_of_rdropWhile {t : Text} (hne : t ≠ []) (h : t.rdropWhile isBlank = t) :
    Finishes t := by
  have hlast := List.rdropWhile_eq_self_iff.mp h hne
  refine ⟨t.dropLast, t.getLast hne, (List.dropLast_append_getLast hne).symm, ?_⟩
  simpa using hlast

theorem Begins.dropWhile {t : Text} (h : Begins t) : t.dropWhile isBlank = t := by
  obtain ⟨c, rest, rfl, hc⟩ := h
  simp [hc]

theorem Finishes.rdropWhile {t : Text} (h : Finishes t) : t.rdropWhile isBlank = t := by
  obtain ⟨init, c, rfl, hc⟩ := h
  simp [hc]

/-- **Lowering keeps what a text begins with from being a blank.** -/
theorem Begins.toLowercase {t : Text} (h : Begins t) : Begins (casing.toLowercase t) := by
  obtain ⟨c, rest, rfl, hc⟩ := h
  cases hlower : casing.toLowercase (c :: rest) with
  | nil => simp at hlower
  | cons d tail =>
      refine ⟨d, tail, rfl, ?_⟩
      have hhead : (casing.toLowercase (c :: rest)).head? = some d := by simp [hlower]
      rcases Casing.head_toLowercase hhead with rfl | ⟨hd, -⟩
      · exact hc
      · exact hd

/-- Lowering keeps what a text ends with from being a blank or a star. -/
theorem Finishes.toLowercase {t : Text} (h : Finishes t) : Finishes (casing.toLowercase t) := by
  obtain ⟨init, c, rfl, hc⟩ := h
  have hne : casing.toLowercase (init ++ [c]) ≠ [] := by simp
  have hlast := List.getLast?_eq_some_getLast hne
  refine ⟨_, _, (List.dropLast_append_getLast hne).symm, ?_⟩
  rcases Casing.last_lowercaseFrom hlast with heq | ⟨hd, -⟩
  · rw [heq]
    exact hc
  · exact hd

theorem unstarred_toLowercase {t : Text} (hne : t ≠ []) (h : t.getLast? ≠ some '*') :
    (casing.toLowercase t).getLast? ≠ some '*' := by
  obtain ⟨init, c, ht⟩ := (List.eq_nil_or_concat t).resolve_left hne
  rw [List.concat_eq_append] at ht
  subst ht
  intro hlast
  rcases Casing.last_lowercaseFrom hlast with rfl | ⟨-, hletter⟩
  · simp at h
  · exact absurd (hletter (by decide)) (by decide)

/-- What an entry says of a repository, in lower case and with nothing to trim. -/
def Repo.Readable (casing : Casing) : Repo → Prop
  | .any => True
  | .starting start => start ≠ [] ∧ casing.toLowercase start = start
  | .exact name =>
      Finishes name ∧ name.getLast? ≠ some '*' ∧ casing.toLowercase name = name

/-- A pattern that is written as it is read. -/
structure Pattern.Readable (casing : Casing) (p : Pattern) : Prop where
  begins : Begins p.org
  plain : '/' ∉ p.org
  lowered : casing.toLowercase p.org = p.org
  repo : p.repo.Readable casing

theorem trim_trim (t : Text) : trim isBlank (trim isBlank t) = trim isBlank t := by
  conv_lhs => rw [trim.eq_def isBlank t]
  rw [trim_rdropWhile, trim_dropWhile]

/-- What was trimmed and split has nothing to trim at either end. -/
theorem split_trimmed (h : trim isBlank piece = org ++ '/' :: repo) (hslash : '/' ∉ org) :
    org.dropWhile isBlank = org ∧ repo.rdropWhile isBlank = repo := by
  have htrim := trim_trim piece
  rw [h, trim_append_cons (by decide)] at htrim
  have hdropped : '/' ∉ org.dropWhile isBlank := fun hmem =>
    hslash (List.dropWhile_sublist _ |>.mem hmem)
  have hleft : splitOnce (org ++ '/' :: repo) =
      some (org.dropWhile isBlank, repo.rdropWhile isBlank) :=
    splitOnce_eq_some.mpr ⟨htrim.symm, hdropped⟩
  have hright : splitOnce (org ++ '/' :: repo) = some (org, repo) :=
    splitOnce_eq_some.mpr ⟨rfl, hslash⟩
  rw [hright] at hleft
  simpa using hleft.symm

/-- **What a trimmed entry parses to is written as it is read.** -/
theorem readable_of_parse (h : Pattern.parse casing.text (trim isBlank piece) = some p) :
    p.Readable casing := by
  obtain ⟨org, repo, hentry, hslash, horg, hp, hspec⟩ := parse_eq_some.mp h
  obtain ⟨hbegins, hfinishes⟩ := split_trimmed hentry hslash
  obtain ⟨porg, prepo⟩ := p
  simp only at hp hspec
  refine ⟨?_, ?_, ?_, ?_⟩
  · rw [hp]
    exact (begins_of_dropWhile horg hbegins).toLowercase
  · rw [hp]
    intro hmem
    exact hslash (Casing.mem_of_mem_toLowercase (by decide) (by decide) hmem)
  · rw [hp, Casing.toLowercase_idem]
  · cases hspec with
    | any => trivial
    | starting hstart => exact ⟨by simpa using hstart, Casing.toLowercase_idem _⟩
    | exact hrepo hlast =>
        exact ⟨(finishes_of_rdropWhile hrepo hfinishes).toLowercase,
          unstarred_toLowercase hrepo hlast, Casing.toLowercase_idem _⟩

/-- **And reading what is written gives the pattern.** -/
theorem parse_entry (h : p.Readable casing) :
    Pattern.parse casing.text p.entry = some p ∧ trim isBlank p.entry = p.entry := by
  obtain ⟨porg, prepo⟩ := p
  obtain ⟨hbegins, hplain, hlowered, hrepo⟩ := h
  simp only at hbegins hplain hlowered hrepo
  have horg : porg ≠ [] := by
    obtain ⟨c, rest, rfl, -⟩ := hbegins
    simp
  have hslash : isBlank '/' = false := by decide
  cases prepo with
  | any =>
      have hparse : Says casing ['*'] .any := .any
      refine ⟨parse_eq_some.mpr ⟨porg, ['*'], rfl, hplain, horg, hlowered.symm, hparse⟩, ?_⟩
      show trim isBlank (porg ++ '/' :: ['*']) = _
      rw [trim_append_cons hslash, hbegins.dropWhile]
      rfl
  | starting start =>
      obtain ⟨hne, hstart⟩ := hrepo
      have hspec : Says casing (start ++ ['*']) (.starting (casing.toLowercase start)) :=
        .starting hne
      rw [hstart] at hspec
      refine ⟨parse_eq_some.mpr ⟨porg, _, rfl, hplain, horg, hlowered.symm, hspec⟩, ?_⟩
      have hfinishes : Finishes (start ++ ['*']) := ⟨start, '*', rfl, by decide⟩
      rw [Pattern.entry, trim_append_cons hslash, hbegins.dropWhile, hfinishes.rdropWhile]
  | exact name =>
      obtain ⟨hfinishes, hlast, hname⟩ := hrepo
      have hne : name ≠ [] := by
        obtain ⟨init, c, rfl, -⟩ := hfinishes
        simp
      have hspec : Says casing name (.exact (casing.toLowercase name)) := .exact hne hlast
      rw [hname] at hspec
      refine ⟨parse_eq_some.mpr ⟨porg, _, rfl, hplain, horg, hlowered.symm, hspec⟩, ?_⟩
      rw [Pattern.entry, trim_append_cons hslash, hbegins.dropWhile, hfinishes.rdropWhile]

/-! ## What a list holds -/

theorem parse_nil : Pattern.parse casing.text [] = none := rfl

/-- An entry without a character is skipped, and it would not parse. -/
theorem patterns_eq (pieces : List Text) :
    (((pieces.map casing.text.trim).filter fun entry => !entry.isEmpty).filterMap
      (Pattern.parse casing.text)) =
      pieces.filterMap fun piece => Pattern.parse casing.text (trim isBlank piece) := by
  induction pieces with
  | nil => rfl
  | cons piece pieces ih =>
      have htrim : casing.text.trim piece = trim isBlank piece := rfl
      cases hpiece : trim isBlank piece with
      | nil => simpa [htrim, hpiece, parse_nil] using ih
      | cons c rest => simp [htrim, hpiece, List.filterMap_cons, ← ih]

theorem fromEntries_eq_ok {entries : List Text} :
    Namespaces.fromEntries casing.text entries = .ok n ↔
      (∀ entry ∈ entries, trim isBlank entry ≠ [] → Reads casing.text entry) ∧
        n = entries.filterMap fun entry => Pattern.parse casing.text (trim isBlank entry) := by
  have hall : ((((entries.map casing.text.trim).filter fun entry => !entry.isEmpty).filter
      fun entry => (Pattern.parse casing.text entry).isNone).isEmpty = true) ↔
      ∀ entry ∈ entries, trim isBlank entry ≠ [] → Reads casing.text entry := by
    simp only [List.isEmpty_iff, List.filter_eq_nil_iff, List.mem_filter, List.mem_map, Reads,
      Casing.text, Option.isNone_iff_eq_none, Option.isSome_iff_ne_none, Bool.not_eq_true',
      List.isEmpty_eq_false_iff]
    constructor
    · intro h entry hentry hne
      exact h _ ⟨⟨entry, hentry, rfl⟩, hne⟩
    · rintro h _ ⟨⟨entry, hentry, rfl⟩, hne⟩
      exact h entry hentry hne
  rw [Namespaces.fromEntries, ← patterns_eq, ← hall]
  split
  case isTrue hreads =>
    constructor
    · intro h
      cases h
      exact ⟨hreads, rfl⟩
    · rintro ⟨-, rfl⟩
      rfl
  case isFalse hreads =>
    constructor
    · intro h
      cases h
    · rintro ⟨hread, -⟩
      exact absurd hread hreads

/-- **A list holds what its entries parse to.** -/
theorem Source.read_eq {source : Source} (h : source.read casing.text = .ok n) :
    n = source.pieces.filterMap fun piece => Pattern.parse casing.text (trim isBlank piece) := by
  cases source with
  | environment value =>
      cases h
      exact patterns_eq _
  | listed entries => exact (fromEntries_eq_ok.mp h).2

theorem Source.readable {source : Source} (h : source.read casing.text = .ok n) :
    ∀ p ∈ n, p.Readable casing := by
  intro p hp
  rw [source.read_eq h] at hp
  obtain ⟨piece, -, hpiece⟩ := List.mem_filterMap.mp hp
  exact readable_of_parse hpiece

/-- **What is saved of a list is read back as the list.** -/
theorem fromEntries_entries (h : ∀ p ∈ n, p.Readable casing) :
    Namespaces.fromEntries casing.text n.entries = .ok n := by
  have hparse : ∀ p ∈ n, Pattern.parse casing.text (trim isBlank p.entry) = some p := by
    intro p hp
    obtain ⟨hparse, htrim⟩ := parse_entry (h p hp)
    rw [htrim]
    exact hparse
  rw [fromEntries_eq_ok]
  constructor
  · intro entry hentry _
    obtain ⟨p, hp, rfl⟩ := List.mem_map.mp hentry
    have hreads := hparse p hp
    show (Pattern.parse casing.text (trim isBlank p.entry)).isSome = true
    rw [hreads]
    rfl
  · rw [Namespaces.entries, List.filterMap_map]
    symm
    calc n.filterMap ((fun entry => Pattern.parse casing.text (trim isBlank entry)) ∘ Pattern.entry)
        = n.filterMap some := List.filterMap_congr fun p hp => hparse p hp
      _ = n := List.filterMap_some

/-! ## What a list covers -/

variable {ns : Namespace}

/-- A name is ASCII, so that lowering it is lowering its letters. -/
theorem toLowercase_name (casing : Casing) {name : Text} (h : isWellFormed name = true) :
    casing.toLowercase name = lower name := by
  apply Casing.lowercaseFrom_ascii
  intro c hc
  have hname := (Namespace.isWellFormed_iff.mp h).2.2.2 c hc
  have hbelow : ∀ bound : UInt32, bound.toNat < 128 → c.val ≤ bound → c.val.toNat < 128 :=
    fun bound hbound hle => lt_of_le_of_lt (UInt32.le_iff_toNat_le.mp hle) hbound
  simp only [isNameChar, Bool.or_eq_true, beq_iff_eq] at hname
  show c.val.toNat < 128
  rcases hname with ((hname | rfl) | rfl) | rfl
  · rcases Bool.or_eq_true_iff.mp hname with hletter | hdigit
    · rcases Bool.or_eq_true_iff.mp hletter with hupper | hlower
      · exact hbelow 'Z'.val (by decide) (of_decide_eq_true hupper).2
      · exact hbelow 'z'.val (by decide) (of_decide_eq_true (Bool.and_eq_true_iff.mp hlower).2)
    · exact hbelow '9'.val (by decide) (of_decide_eq_true (Bool.and_eq_true_iff.mp hdigit).2)
  · decide
  · decide
  · decide

theorem eqIgnoreAsciiCase_iff {name t : Text} (h : isWellFormed name = true) :
    eqIgnoreAsciiCase name (casing.toLowercase t) = true ↔
      casing.toLowercase t = casing.toLowercase name := by
  rw [eqIgnoreAsciiCase, beq_iff_eq, toLowercase_name casing h, lower, lower,
    Casing.map_toLower_toLowercase]
  exact eq_comm

theorem covers_spec (ns : Namespace) (hspec : Says casing repo p.repo) :
    p.covers ns = true ↔ eqIgnoreAsciiCase ns.org p.org = true ∧ (repo = ['*'] ∨
      (∃ start, start ≠ [] ∧ repo = start ++ ['*'] ∧
        casing.toLowercase start <+: casing.toLowercase ns.repo) ∨
      (repo.getLast? ≠ some '*' ∧ casing.toLowercase repo = casing.toLowercase ns.repo)) := by
  obtain ⟨porg, prepo⟩ := p
  simp only at hspec
  rw [Pattern.covers, Bool.and_eq_true]
  refine and_congr_right fun _ => ?_
  cases hspec with
  | any => simp
  | @starting start hstart =>
      simp only [List.isPrefixOf_iff_prefix, ← toLowercase_name casing ns.repoChecked]
      constructor
      · intro h
        exact Or.inr (Or.inl ⟨start, hstart, rfl, h⟩)
      · rintro (h | ⟨other, -, heq, h⟩ | ⟨h, -⟩)
        · simp at h
          exact absurd h hstart
        · rw [List.append_cancel_right heq]
          exact h
        · simp at h
  | exact hrepo hlast =>
      rw [eqIgnoreAsciiCase_iff ns.repoChecked]
      constructor
      · intro h
        exact Or.inr (Or.inr ⟨hlast, h⟩)
      · rintro (rfl | ⟨start, -, rfl, -⟩ | ⟨-, h⟩)
        · simp at hlast
        · simp at hlast
        · exact h

/-- **A pattern covers what its entry names.** -/
theorem covers_iff (h : Pattern.parse casing.text entry = some p) :
    p.covers ns = true ↔ Names casing ns entry := by
  obtain ⟨org, repo, hentry, hslash, -, hp, hspec⟩ := parse_eq_some.mp h
  subst hentry
  rw [covers_spec ns hspec, hp, eqIgnoreAsciiCase_iff ns.orgChecked]
  constructor
  · rintro ⟨horg, rfl | ⟨start, hne, rfl, hstart⟩ | ⟨hlast, hrepo⟩⟩
    · exact .any hslash horg
    · exact .starting hslash hne horg hstart
    · exact .exact hslash hlast horg hrepo
  · intro hnames
    have hsplit : splitOnce (org ++ '/' :: repo) = some (org, repo) :=
      splitOnce_eq_some.mpr ⟨rfl, hslash⟩
    generalize hentry : org ++ '/' :: repo = entry at hnames hsplit
    cases hnames with
    | @any org' hslash' horg =>
        rw [splitOnce_eq_some.mpr ⟨rfl, hslash'⟩] at hsplit
        cases hsplit
        exact ⟨horg, Or.inl rfl⟩
    | @starting org' start hslash' hne horg hstart =>
        rw [splitOnce_eq_some.mpr ⟨rfl, hslash'⟩] at hsplit
        cases hsplit
        exact ⟨horg, Or.inr (Or.inl ⟨start, hne, rfl, hstart⟩)⟩
    | @exact org' repo' hslash' hlast horg hrepo =>
        rw [splitOnce_eq_some.mpr ⟨rfl, hslash'⟩] at hsplit
        cases hsplit
        exact ⟨horg, Or.inr (Or.inr ⟨hlast, hrepo⟩)⟩

/-- Equal namespaces have their names in common, in lower case. -/
theorem lower_of_eq {a b : Namespace} (h : a.eq b = true) :
    lower a.org = lower b.org ∧ lower a.repo = lower b.repo := by
  have hsame := Namespace.eq_iff_same.mp h
  have hforge := Namespace.forge_of_storedOrg hsame.1
  have horg := hsame.1
  rw [Namespace.storedOrg, Namespace.storedOrg, ← hforge] at horg
  refine ⟨?_, hsame.2⟩
  cases hname : a.forge with
  | none => simpa [hname] using horg
  | some forge => simpa [hname] using horg

theorem covers_of_eq {a b : Namespace} (h : a.eq b = true) : p.covers a = p.covers b := by
  obtain ⟨horg, hrepo⟩ := lower_of_eq h
  rw [Pattern.covers, Pattern.covers]
  simp only [eqIgnoreAsciiCase, horg, hrepo]

theorem covers_source {source : Source} (h : source.read casing.text = .ok n) :
    n.covers ns = true ↔ ∃ piece ∈ source.pieces,
      Reads casing.text piece ∧ Names casing ns (trim isBlank piece) := by
  rw [Namespaces.covers, List.any_eq_true, source.read_eq h]
  constructor
  · rintro ⟨p, hp, hcovers⟩
    obtain ⟨piece, hpiece, hparse⟩ := List.mem_filterMap.mp hp
    refine ⟨piece, hpiece, ?_, (covers_iff hparse).mp hcovers⟩
    show (Pattern.parse casing.text (trim isBlank piece)).isSome = true
    rw [hparse]
    rfl
  · rintro ⟨piece, hpiece, hreads, hnames⟩
    obtain ⟨p, hparse⟩ := Option.isSome_iff_exists.mp hreads
    exact ⟨p, List.mem_filterMap.mpr ⟨piece, hpiece, hparse⟩, (covers_iff hparse).mpr hnames⟩

/-- The entries that cannot be read add nothing. -/
theorem read_readable {source : Source} (h : source.read casing.text = .ok n) :
    (Source.listed (source.pieces.filter fun piece => decide (Reads casing.text piece))).read
      casing.text = .ok n := by
  rw [Source.read, fromEntries_eq_ok, source.read_eq h]
  constructor
  · intro piece hpiece _
    simpa using (List.mem_filter.mp hpiece).2
  · rw [List.filterMap_filter]
    apply List.filterMap_congr
    intro piece _
    by_cases hreads : Reads casing.text piece
    · simp [hreads]
    · have hnone : Pattern.parse casing.text (trim isBlank piece) = none := by
        exact Option.not_isSome_iff_eq_none.mp hreads
      simp [hreads, hnone]

/-- **A list survives saving, and it covers what its entries name.**  Read from a variable or
from what was saved, it is read back from its entries as it was; it tells equal namespaces
alike; it covers a namespace exactly if one entry that can be read names it; and without the
entries that cannot be read it is the same. -/
theorem lists_survive (casing : Casing) {source : Source} {n : Namespaces}
    (h : source.read casing.text = .ok n) :
    (∃ n', Namespaces.fromEntries casing.text n.entries = .ok n' ∧
      ∀ ns, n'.covers ns = n.covers ns) ∧
    (∀ a b : Namespace, a.eq b = true → n.covers a = n.covers b) ∧
    (∀ ns, n.covers ns = true ↔ ∃ piece ∈ source.pieces,
      Reads casing.text piece ∧ Names casing ns (trim isBlank piece)) ∧
    (Source.listed (source.pieces.filter fun piece => decide (Reads casing.text piece))).read
      casing.text = .ok n := by
  refine ⟨⟨n, fromEntries_entries (source.readable h), fun _ => rfl⟩, ?_, ?_, read_readable h⟩
  · intro a b heq
    have hsame : ∀ p : Pattern, p.covers a = p.covers b := fun p => covers_of_eq heq
    simp only [Namespaces.covers, hsame]
  · intro ns
    exact covers_source h

/-- The Kelvin sign is a letter of ASCII in lower case. -/
theorem lists_survive_kelvin :
    (Source.environment (some " \u212aelvin/Game-*, nonsense".toList)).read
        (Casing.unicode (fun _ => false) fun _ => false).text =
      .ok [⟨"kelvin".toList, .starting "game-".toList⟩] ∧
    (∃ n', Namespaces.fromEntries (Casing.unicode (fun _ => false) fun _ => false).text
        (Namespaces.entries [⟨"kelvin".toList, .starting "game-".toList⟩]) = .ok n' ∧
      ∀ ns, n'.covers ns =
        Namespaces.covers [⟨"kelvin".toList, .starting "game-".toList⟩] ns) :=
  have hread : (Source.environment (some " \u212aelvin/Game-*, nonsense".toList)).read
      (Casing.unicode (fun _ => false) fun _ => false).text =
      .ok [⟨"kelvin".toList, .starting "game-".toList⟩] := by decide +kernel
  ⟨hread, (lists_survive _ hread).1⟩

end Auth

end Lfsx
