import Lfsx.Oid

/-!
# Namespaces

A repository is an organisation and a name, on the default forge or on a named
one.  Two spellings of one repository differ in case only, so everything stored is
stored under the lowercase form, and a named forge stands before the organisation
with a `~` between them.

The parts of a namespace are checked where it is built, so a `Namespace` carries
the checks.  What the keys rely on is that the two stored parts are plain segments
of a key that do not start with a dot (`plain_storedOrg`, `undotted_storedOrg` and
the same for the repository): a dot starts the keys that belong to no repository.
-/

namespace Lfsx

/-- What a segment of a name may be made of. -/
def isNameChar (c : Char) : Bool := c.isAlphanum || c == '-' || c == '_' || c == '.'

/-- `is_well_formed`: an organisation or a repository. -/
def isWellFormed (segment : Text) : Bool :=
  !segment.isEmpty && segment.length ≤ 100 && segment.head? != some '.' && segment.all isNameChar

/-- What the name of a forge may be made of. -/
def isForgeChar (c : Char) : Bool := c.isLower || c.isDigit || c == '-'

/-- `is_forge_name`. -/
def isForgeName (name : Text) : Bool :=
  1 ≤ name.length && name.length ≤ 32 && (name.head?.any fun c => c.isLower || c.isDigit)
    && name.all isForgeChar && name != "api".toList && name != "dashboard".toList

/-- `to_ascii_lowercase`. -/
def lower (t : Text) : Text := t.map Char.toLower

structure Namespace where
  forge : Option Text
  org : Text
  repo : Text
  forgeChecked : ∀ name ∈ forge, isForgeName name = true
  orgChecked : isWellFormed org = true
  repoChecked : isWellFormed repo = true

namespace Namespace

def new (org repo : Text) : Except Error Namespace :=
  if h : isWellFormed org = true ∧ isWellFormed repo = true then
    .ok { forge := none, org, repo, forgeChecked := by simp, orgChecked := h.1, repoChecked := h.2 }
  else .error .malformedNamespace

def on (forge org repo : Text) : Except Error Namespace :=
  if hforge : isForgeName forge = true then
    if h : isWellFormed org = true ∧ isWellFormed repo = true then
      .ok { forge := some forge, org, repo, forgeChecked := by simpa using hforge
            orgChecked := h.1, repoChecked := h.2 }
    else .error .malformedNamespace
  else .error .malformedNamespace

def storedOrg (ns : Namespace) : Text :=
  match ns.forge with
  | none => lower ns.org
  | some forge => forge ++ '~' :: lower ns.org

def storedRepo (ns : Namespace) : Text := lower ns.repo

/-- Two namespaces are stored as one repository. -/
def Same (a b : Namespace) : Prop := a.storedOrg = b.storedOrg ∧ a.storedRepo = b.storedRepo

instance (a b : Namespace) : Decidable (Same a b) := inferInstanceAs (Decidable (_ ∧ _))

theorem Same.refl (a : Namespace) : Same a a := ⟨rfl, rfl⟩

theorem Same.symm {a b : Namespace} (h : Same a b) : Same b a := ⟨h.1.symm, h.2.symm⟩

/-- `PartialEq::eq`. -/
def eq (a b : Namespace) : Bool :=
  decide (a.forge = b.forge) && decide (a.storedOrg = b.storedOrg) &&
    decide (a.storedRepo = b.storedRepo)

/-- `Display::fmt`. -/
def display (ns : Namespace) : Text := ns.storedOrg ++ '/' :: ns.storedRepo

/-- A repository to try things with. -/
def acme : Namespace where
  forge := none
  org := "acme".toList
  repo := "game".toList
  forgeChecked := by simp
  orgChecked := by decide
  repoChecked := by decide

/-- And another. -/
def tools : Namespace where
  forge := none
  org := "acme".toList
  repo := "tools".toList
  forgeChecked := by simp
  orgChecked := by decide
  repoChecked := by decide

/-! ## Stored segments -/

/-- A segment does not start with a dot. -/
def Undotted (t : Text) : Prop := t.head? ≠ some '.'

/-- A capital is lowered, and any other character is left. -/
theorem toLower_cases (c : Char) :
    (65 ≤ c.toNat ∧ c.toNat ≤ 90 ∧ c.toLower.toNat = c.toNat + 32) ∨ c.toLower = c := by
  by_cases hupper : c.val ≥ 'A'.val ∧ c.val ≤ 'Z'.val
  · have hge : 65 ≤ c.toNat := by simpa [UInt32.le_iff_toNat_le] using hupper.1
    have hle : c.toNat ≤ 90 := by simpa [UInt32.le_iff_toNat_le] using hupper.2
    have hlower : c.toLower.val = c.val + ('a'.val - 'A'.val) := congrArg Char.val (dif_pos hupper)
    have h32 : ('a'.val - 'A'.val).toNat = 32 := rfl
    refine Or.inl ⟨hge, hle, ?_⟩
    simp only [Char.toNat] at hge hle ⊢
    rw [hlower, UInt32.toNat_add, h32]
    omega
  · exact Or.inr (dif_neg hupper)

/-- Lowering a letter gives a letter. -/
theorem toLower_eq {c d : Char} (hd : d.toNat < 65) (h : c.toLower = d) : c = d := by
  rcases toLower_cases c with ⟨hge, -, hval⟩ | hsame
  · rw [h] at hval
    omega
  · exact hsame.symm.trans h

theorem isWellFormed_iff {s : Text} : isWellFormed s = true ↔
    s ≠ [] ∧ s.length ≤ 100 ∧ Undotted s ∧ ∀ c ∈ s, isNameChar c = true := by
  simp [isWellFormed, Undotted, and_assoc]

theorem plain_lower {s : Text} (h : isWellFormed s = true) : Path.Plain (lower s) := by
  intro hslash
  obtain ⟨c, hc, hlower⟩ := List.mem_map.mp hslash
  have hname := (isWellFormed_iff.mp h).2.2.2 c hc
  rw [toLower_eq (by decide) hlower] at hname
  exact absurd hname (by decide)

theorem undotted_lower {s : Text} (h : isWellFormed s = true) : Undotted (lower s) := by
  have hdot := (isWellFormed_iff.mp h).2.2.1
  intro hlower
  rw [lower, List.head?_map, Option.map_eq_some_iff] at hlower
  obtain ⟨c, hc, heq⟩ := hlower
  rw [toLower_eq (by decide) heq] at hc
  exact hdot hc

theorem lower_ne_nil {s : Text} (h : isWellFormed s = true) : lower s ≠ [] := by
  have hne := (isWellFormed_iff.mp h).1
  simpa [lower] using hne

theorem plain_forge {name : Text} (h : isForgeName name = true) : Path.Plain name := by
  simp only [isForgeName, Bool.and_eq_true, List.all_eq_true] at h
  intro hslash
  exact absurd (h.1.1.2 '/' hslash) (by decide)

theorem undotted_forge {name : Text} (h : isForgeName name = true) :
    name ≠ [] ∧ Undotted name := by
  simp only [isForgeName, Bool.and_eq_true] at h
  have hhead := h.1.1.1.2
  rw [Option.any_eq_true] at hhead
  obtain ⟨c, hc, hchar⟩ := hhead
  refine ⟨?_, ?_⟩
  · rintro rfl
    cases hc
  · intro hdot
    rw [hdot] at hc
    cases hc
    exact absurd hchar (by decide)

variable (ns : Namespace)

theorem plain_storedRepo : Path.Plain ns.storedRepo := plain_lower ns.repoChecked

theorem undotted_storedRepo : Undotted ns.storedRepo := undotted_lower ns.repoChecked

theorem plain_storedOrg : Path.Plain ns.storedOrg := by
  rw [storedOrg]
  cases hforge : ns.forge with
  | none => exact plain_lower ns.orgChecked
  | some forge =>
      have hplain := plain_forge (ns.forgeChecked forge hforge)
      have horg := plain_lower ns.orgChecked
      simp only [Path.Plain, List.mem_append, List.mem_cons, not_or]
      exact ⟨hplain, by decide, horg⟩

theorem undotted_storedOrg : Undotted ns.storedOrg := by
  rw [storedOrg]
  cases hforge : ns.forge with
  | none => exact undotted_lower ns.orgChecked
  | some forge =>
      obtain ⟨hne, hdot⟩ := undotted_forge (ns.forgeChecked forge hforge)
      simp only [Undotted, List.head?_append_of_ne_nil _ hne]
      exact hdot

/-! ## Equality -/

/-- Every namespace comes from one of the two constructors. -/
theorem built : (∃ org repo, new org repo = .ok ns) ∨
    ∃ forge org repo, on forge org repo = .ok ns := by
  obtain ⟨forge, org, repo, hforge, horg, hrepo⟩ := ns
  cases forge with
  | none => exact Or.inl ⟨org, repo, by rw [new, dif_pos ⟨horg, hrepo⟩]⟩
  | some forge =>
      exact Or.inr ⟨forge, org, repo, by rw [on, dif_pos (hforge forge rfl), dif_pos ⟨horg, hrepo⟩]⟩

/-- The separator is in no organisation. -/
theorem tilde_not_mem_lower {s : Text} (h : isWellFormed s = true) : '~' ∉ lower s := by
  intro htilde
  obtain ⟨c, hc, hlower⟩ := List.mem_map.mp htilde
  have hname := (isWellFormed_iff.mp h).2.2.2 c hc
  rcases toLower_cases c with ⟨-, hle, hval⟩ | hsame
  · have htilde : ('~').toNat = 126 := rfl
    rw [hlower] at hval
    omega
  · obtain rfl : c = '~' := hsame.symm.trans hlower
    exact absurd hname (by decide)

/-- And in no forge. -/
theorem tilde_not_mem_forge {name : Text} (h : isForgeName name = true) : '~' ∉ name := by
  simp only [isForgeName, Bool.and_eq_true, List.all_eq_true] at h
  intro htilde
  exact absurd (h.1.1.2 '~' htilde) (by decide)

/-- Where an organisation is stored tells its forge. -/
theorem forge_of_storedOrg {a b : Namespace} (h : a.storedOrg = b.storedOrg) :
    a.forge = b.forge := by
  have hbefore : ∀ ns : Namespace, ∀ forge, ns.forge = some forge →
      ns.storedOrg.takeWhile (· != '~') = forge := by
    intro ns forge hforge
    have hnot := tilde_not_mem_forge (ns.forgeChecked forge hforge)
    rw [storedOrg, hforge]
    rw [List.takeWhile_append_of_pos fun c hc => by
      rw [bne_iff_ne]
      rintro rfl
      exact hnot hc]
    simp
  have htilde : ∀ ns : Namespace, '~' ∈ ns.storedOrg ↔ ns.forge ≠ none := by
    intro ns
    rw [storedOrg]
    cases ns.forge with
    | none => simpa using tilde_not_mem_lower ns.orgChecked
    | some forge => simp
  cases ha : a.forge with
  | none =>
      cases hb : b.forge with
      | none => rfl
      | some forge =>
          have hmem := (htilde b).mpr (by simp [hb])
          rw [← h, htilde a] at hmem
          exact absurd ha hmem
  | some forge =>
      cases hb : b.forge with
      | none =>
          have hmem := (htilde a).mpr (by simp [ha])
          rw [h, htilde b] at hmem
          exact absurd hb hmem
      | some forge' => rw [← hbefore a forge ha, ← hbefore b forge' hb, h]

/-- Equal namespaces are those that are stored as one repository. -/
theorem eq_iff_same {a b : Namespace} : a.eq b = true ↔ a.Same b := by
  simp only [eq, Bool.and_eq_true, decide_eq_true_eq]
  constructor
  · rintro ⟨⟨-, horg⟩, hrepo⟩
    exact ⟨horg, hrepo⟩
  · rintro ⟨horg, hrepo⟩
    exact ⟨⟨forge_of_storedOrg horg, horg⟩, hrepo⟩

/-- And those that display the same. -/
theorem display_eq_iff {a b : Namespace} : a.display = b.display ↔ a.Same b := by
  constructor
  · intro h
    have hplain : ∀ ns : Namespace, ∀ s ∈ [ns.storedOrg, ns.storedRepo], Path.Plain s := by
      intro ns s hs
      simp only [List.mem_cons, List.not_mem_nil, or_false] at hs
      rcases hs with rfl | rfl
      exacts [ns.plain_storedOrg, ns.plain_storedRepo]
    have hjoined : ∀ ns : Namespace, ns.display = Path.joined [ns.storedOrg, ns.storedRepo] := by
      intro ns
      rw [Path.joined_cons, Path.joined_singleton]
      rfl
    rw [hjoined, hjoined] at h
    have hparts := Path.joined_inj (hplain a) (hplain b) (by simp) (by simp) h
    rw [List.cons.injEq, List.cons.injEq] at hparts
    exact ⟨hparts.1, hparts.2.1⟩
  · rintro ⟨horg, hrepo⟩
    rw [display, display, horg, hrepo]

end Namespace

end Lfsx
