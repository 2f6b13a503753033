import Lfsx.Locks.Store
import Lfsx.Request.Within
import Lfsx.Storage.KeyspaceRules

/-!
# Folding the spellings of a namespace

An earlier version stored a namespace under the spelling a client used.  On its first start the
server moves every key that carries a namespace to the key with the namespace in lowercase.

* *Keys.*  `canonicalKey` finds the namespace in a key by its shape.  A key that is read back
  from its canonical form has the same parts (`parts_canonical`), so folding a key twice is
  folding it once (`canonicalKey_folded`), and a key an earlier version wrote folds to the key
  the builders of today make (`folded_spelled`).
* *The fold.*  `plan` lists the bucket, `move` copies one key to its place and removes it, and
  `mark` says that all is done.  The moves run side by side.  The code has at most sixteen of
  them under way; here any number are, so every run of the code is one of these.
-/

namespace Lfsx.Storage.Canonical

open Request Lfsx.Path

/-! ## Keys -/

/-- `DONE`. -/
def done : Text := ".lfsx/namespace-case".toList

/-- A key taken apart at its namespace. -/
structure Parts where
  head : List Text
  org : Text
  repo : Text
  tail : List Text

def lockParts : List Text → Option Parts
  | first :: org :: repo :: tail =>
      if first = ".locks".toList ∧ tail ≠ [] then some ⟨[first], org, repo, tail⟩ else none
  | _ => none

def refParts : List Text → Option Parts
  | [first, oid, org, repo] =>
      if first = ".refs".toList ∧ oid ≠ ".complete".toList then some ⟨[first, oid], org, repo, []⟩
      else none
  | _ => none

def ownParts : List Text → Option Parts
  | org :: repo :: tail =>
      if org.head? = some '.' ∨ tail = [] then none else some ⟨[], org, repo, tail⟩
  | _ => none

/-- The arms of the match, in order. -/
def partsOf (segments : List Text) : Option Parts :=
  lockParts segments <|> refParts segments <|> ownParts segments

namespace Parts

def segments (p : Parts) : List Text := p.head ++ p.org :: p.repo :: p.tail

def lowered (p : Parts) : Parts := { p with org := lower p.org, repo := lower p.repo }

def canonical (p : Parts) : Text := joined p.lowered.segments

end Parts

def canonicalKey (key : Text) : Option Text :=
  (partsOf (segments key)).bind fun p => if p.canonical = key then none else some p.canonical

/-- `canonical_key`, or the key itself. -/
def folded (key : Text) : Text := (canonicalKey key).getD key

/-! ### Lowercase -/

theorem toLower_toLower (c : Char) : c.toLower.toLower = c.toLower := by
  rcases Namespace.toLower_cases c with ⟨hge, -, hval⟩ | hsame
  · rcases Namespace.toLower_cases c.toLower with ⟨-, hle, -⟩ | hsame
    · omega
    · exact hsame
  · rw [hsame, hsame]

theorem lower_lower (t : Text) : lower (lower t) = lower t := by
  rw [lower, lower, List.map_map]
  exact List.map_congr_left fun c _ => toLower_toLower c

theorem plain_lower {t : Text} (h : Plain t) : Plain (lower t) := by
  intro hslash
  obtain ⟨c, hc, hlower⟩ := List.mem_map.mp hslash
  rw [Namespace.toLower_eq (by decide) hlower] at hc
  exact h hc

theorem head_lower {t : Text} : (lower t).head? = some '.' ↔ t.head? = some '.' := by
  rw [lower, List.head?_map, Option.map_eq_some_iff]
  constructor
  · rintro ⟨c, hc, hlower⟩
    rwa [Namespace.toLower_eq (by decide) hlower] at hc
  · exact fun h => ⟨'.', h, by decide⟩

namespace Parts

@[simp] theorem lowered_lowered (p : Parts) : p.lowered.lowered = p.lowered := by
  simp [lowered, lower_lower]

theorem segments_ne_nil (p : Parts) : p.segments ≠ [] := by
  simp [segments]

theorem plain_lowered {p : Parts} (h : ∀ s ∈ p.segments, Plain s) :
    ∀ s ∈ p.lowered.segments, Plain s := by
  intro s hs
  simp only [segments, lowered, List.mem_append, List.mem_cons] at hs h
  rcases hs with hs | rfl | rfl | hs
  · exact h s (Or.inl hs)
  · exact plain_lower (h _ (Or.inr (Or.inl rfl)))
  · exact plain_lower (h _ (Or.inr (Or.inr (Or.inl rfl))))
  · exact h s (Or.inr (Or.inr (Or.inr hs)))

end Parts

/-! Each arm finds what it found again, in lowercase. -/

theorem lockParts_eq_some {ss : List Text} {p : Parts} (h : lockParts ss = some p) :
    p.segments = ss ∧ lockParts p.lowered.segments = some p.lowered := by
  match ss with
  | [] => cases h
  | [_] => cases h
  | [_, _] => cases h
  | first :: org :: repo :: tail =>
      rw [lockParts] at h
      split at h
      case isTrue hshape =>
        cases h
        obtain ⟨rfl, htail⟩ := hshape
        exact ⟨rfl, if_pos ⟨rfl, htail⟩⟩
      case isFalse => cases h

theorem refParts_eq_some {ss : List Text} {p : Parts} (h : refParts ss = some p) :
    p.segments = ss ∧ lockParts p.lowered.segments = none ∧
      refParts p.lowered.segments = some p.lowered := by
  match ss with
  | [] => cases h
  | [_] => cases h
  | [_, _] => cases h
  | [_, _, _] => cases h
  | _ :: _ :: _ :: _ :: _ :: _ => cases h
  | [first, oid, org, repo] =>
      rw [refParts] at h
      split at h
      case isTrue hshape =>
        cases h
        obtain ⟨rfl, hoid⟩ := hshape
        have hlock : lockParts [".refs".toList, oid, lower org, lower repo] = none := by
          rw [lockParts, if_neg]
          exact fun hshape => absurd hshape.1 (by decide)
        exact ⟨rfl, hlock, if_pos ⟨rfl, hoid⟩⟩
      case isFalse => cases h

theorem parts_undotted {org : Text} (h : org.head? ≠ some '.') (repo : Text) (tail : List Text) :
    lockParts (org :: repo :: tail) = none ∧ refParts (org :: repo :: tail) = none := by
  have hne : ∀ t : Text, t.head? = some '.' → org ≠ t := by
    rintro t ht rfl
    exact h ht
  constructor
  · cases tail with
    | nil => rfl
    | cons t tail => exact if_neg fun hshape => hne _ rfl hshape.1
  · match tail with
    | [] => rfl
    | [_] => rfl
    | [_, _] => exact if_neg fun hshape => hne _ rfl hshape.1
    | _ :: _ :: _ :: _ => rfl

theorem ownParts_eq_some {ss : List Text} {p : Parts} (h : ownParts ss = some p) :
    p.segments = ss ∧ lockParts p.lowered.segments = none ∧ refParts p.lowered.segments = none ∧
      ownParts p.lowered.segments = some p.lowered := by
  match ss with
  | [] => cases h
  | [_] => cases h
  | org :: repo :: tail =>
      rw [ownParts] at h
      split at h
      case isTrue => cases h
      case isFalse hshape =>
        cases h
        rw [not_or] at hshape
        have hdot : (lower org).head? ≠ some '.' := fun hhead => hshape.1 (head_lower.mp hhead)
        obtain ⟨hlock, href⟩ := parts_undotted hdot (lower repo) tail
        exact ⟨rfl, hlock, href, if_neg (not_or.mpr ⟨hdot, hshape.2⟩)⟩

/-- What is found in some segments is them, and it is found in lowercase too. -/
theorem partsOf_eq_some {ss : List Text} {p : Parts} (h : partsOf ss = some p) :
    p.segments = ss ∧ partsOf p.lowered.segments = some p.lowered := by
  cases hlock : lockParts ss with
  | some q =>
      rw [partsOf, hlock] at h
      cases h
      obtain ⟨hsegments, hlowered⟩ := lockParts_eq_some hlock
      exact ⟨hsegments, by rw [partsOf, hlowered]; rfl⟩
  | none =>
      cases href : refParts ss with
      | some q =>
          rw [partsOf, hlock, href] at h
          cases h
          obtain ⟨hsegments, hnone, hlowered⟩ := refParts_eq_some href
          exact ⟨hsegments, by rw [partsOf, hnone, hlowered]; rfl⟩
      | none =>
          rw [partsOf, hlock, href] at h
          obtain ⟨hsegments, hnone, hnone', hlowered⟩ := ownParts_eq_some h
          exact ⟨hsegments, by rw [partsOf, hnone, hnone', hlowered]; rfl⟩

/-! ### Folding a key -/

section Folding

variable {key : Text} {p : Parts}

/-- **A canonical key has the parts of the key it came from, in lowercase.** -/
theorem parts_canonical (h : partsOf (segments key) = some p) :
    partsOf (segments p.canonical) = some p.lowered := by
  obtain ⟨hsegments, hlowered⟩ := partsOf_eq_some h
  have hplain : ∀ s ∈ p.lowered.segments, Plain s := by
    refine Parts.plain_lowered ?_
    rw [hsegments]
    exact plain_of_mem_segments key
  rw [Parts.canonical, segments_joined hplain p.lowered.segments_ne_nil]
  exact hlowered

theorem folded_of_parts (h : partsOf (segments key) = some p) : folded key = p.canonical := by
  rw [folded, canonicalKey, h, Option.bind_some]
  split
  case isTrue heq => exact heq.symm
  case isFalse => rfl

theorem folded_of_none (h : partsOf (segments key) = none) : folded key = key := by
  rw [folded, canonicalKey, h]
  rfl

/-- A key is left alone if and only if it is folded to itself. -/
theorem canonicalKey_eq_none : canonicalKey key = none ↔ folded key = key := by
  cases hparts : partsOf (segments key) with
  | none =>
      refine iff_of_true ?_ (folded_of_none hparts)
      rw [canonicalKey, hparts]
      rfl
  | some p =>
      rw [folded_of_parts hparts, canonicalKey, hparts, Option.bind_some]
      by_cases heq : p.canonical = key <;> simp [heq]

theorem canonicalKey_eq_some {canonical : Text} (h : canonicalKey key = some canonical) :
    folded key = canonical := by
  rw [folded, h]
  rfl

/-- **Folding a key twice is folding it once.** -/
theorem folded_folded (key : Text) : folded (folded key) = folded key := by
  cases hparts : partsOf (segments key) with
  | none => rw [folded_of_none hparts, folded_of_none hparts]
  | some p =>
      rw [folded_of_parts hparts, folded_of_parts (parts_canonical hparts), Parts.canonical,
        Parts.canonical, Parts.lowered_lowered]

/-- A key is folded to the mark of the fold if and only if it is that mark. -/
theorem folded_eq_done : folded key = done ↔ key = done := by
  have hdone : partsOf (segments done) = none := by decide
  constructor
  · intro h
    cases hparts : partsOf (segments key) with
    | none =>
        rw [folded_of_none hparts] at h
        exact h
    | some p =>
        have hcanonical := parts_canonical hparts
        rw [← folded_of_parts hparts, h, hdone] at hcanonical
        cases hcanonical
  · rintro rfl
    exact folded_of_none hdone

end Folding

/-! ### Keys of an earlier version -/

/-- What is stored under a key with a namespace in it. -/
inductive Carrier where
  | marker (oid : Oid)
  | size (oid : Oid) (size : Nat)
  | reference (oid : Oid)
  | lock (id : { t : Text // Plain t })

namespace Carrier

/-- The segments of its key, with the namespace as it is spelled. -/
def parts (org repo : Text) : Carrier → Parts
  | marker oid => ⟨[], org, repo, [oid.fanout.1, oid.fanout.2, oid.text]⟩
  | size oid n => ⟨[], org, repo, [".sizes".toList, oid.text ++ '.' :: decimal n]⟩
  | reference oid => ⟨[".refs".toList, oid.text], org, repo, []⟩
  | lock id => ⟨[".locks".toList], org, repo, [id.val ++ ".json".toList]⟩

/-- The key the builders of today make. -/
def key (ns : Namespace) : Carrier → Text
  | marker oid => S3Store.markerKey ns oid
  | size oid n => Sizes.key ns oid n
  | reference oid => Refs.key ns oid
  | lock id => Locks.LockStore.keyOf ns id.val

end Carrier

/-- An organisation as a client spelled it. -/
def spelledOrg (ns : Namespace) : Text :=
  match ns.forge with
  | none => ns.org
  | some forge => forge ++ '~' :: ns.org

/-- The key an earlier version wrote. -/
def spelled (ns : Namespace) (c : Carrier) : Text :=
  joined (c.parts (spelledOrg ns) ns.repo).segments

theorem lower_forge {forge : Text} (h : isForgeName forge = true) : lower forge = forge := by
  simp only [isForgeName, Bool.and_eq_true, List.all_eq_true] at h
  have hchar : ∀ c ∈ forge, c.toLower = c := by
    intro c hc
    have hforge := h.1.1.2 c hc
    simp only [isForgeChar, Char.isDigit, Bool.or_eq_true, Bool.and_eq_true,
      decide_eq_true_eq, UInt32.le_iff_toNat_le, beq_iff_eq] at hforge
    rcases Namespace.toLower_cases c with ⟨hge, hle, -⟩ | hsame
    · exfalso
      rcases hforge with (hlow | ⟨-, hdigit⟩) | rfl
      · have h97 : 97 ≤ c.toNat :=
          UInt32.le_iff_toNat_le.mp (of_decide_eq_true (Bool.and_eq_true_iff.mp hlow).1)
        omega
      · have h57 : c.toNat ≤ 57 := hdigit
        omega
      · exact absurd hge (by decide)
    · exact hsame
  rw [lower]
  exact (List.map_congr_left hchar).trans (List.map_id _)

theorem lower_spelledOrg (ns : Namespace) : lower (spelledOrg ns) = ns.storedOrg := by
  rw [spelledOrg, Namespace.storedOrg]
  cases hforge : ns.forge with
  | none => rfl
  | some forge =>
      have hlower := lower_forge (ns.forgeChecked forge hforge)
      rw [lower] at hlower
      simp [lower, hlower]

theorem plain_of_lower {t : Text} (h : Plain (lower t)) : Plain t := by
  intro hslash
  exact h (List.mem_map.mpr ⟨'/', hslash, by decide⟩)

theorem plain_spelledOrg (ns : Namespace) : Plain (spelledOrg ns) := by
  refine plain_of_lower ?_
  rw [lower_spelledOrg]
  exact ns.plain_storedOrg

theorem undotted_spelledOrg (ns : Namespace) : (spelledOrg ns).head? ≠ some '.' := by
  intro h
  have hlower := head_lower.mpr h
  rw [lower_spelledOrg] at hlower
  exact ns.undotted_storedOrg hlower

theorem plain_repo (ns : Namespace) : Plain ns.repo := plain_of_lower ns.plain_storedRepo

theorem plain_parts (ns : Namespace) (c : Carrier) :
    ∀ s ∈ (c.parts (spelledOrg ns) ns.repo).segments, Plain s := by
  have horg := plain_spelledOrg ns
  have hrepo := plain_repo ns
  intro s hs
  cases c with
  | marker oid =>
      simp only [Carrier.parts, Parts.segments, List.nil_append, List.mem_cons, List.not_mem_nil,
        or_false] at hs
      rcases hs with rfl | rfl | rfl | rfl | rfl
      exacts [horg, hrepo, (Key.plain_fanout oid).1, (Key.plain_fanout oid).2, Key.plain_oid oid]
  | size oid n =>
      simp only [Carrier.parts, Parts.segments, List.nil_append, List.mem_cons, List.not_mem_nil,
        or_false] at hs
      rcases hs with rfl | rfl | rfl | rfl
      exacts [horg, hrepo, by decide,
        Key.plain_append (Key.plain_oid oid) (Key.plain_append (s := ['.']) (by decide)
          (Key.plain_decimal n))]
  | reference oid =>
      simp only [Carrier.parts, Parts.segments, List.cons_append, List.nil_append, List.mem_cons,
        List.not_mem_nil, or_false] at hs
      rcases hs with rfl | rfl | rfl | rfl
      exacts [by decide, Key.plain_oid oid, horg, hrepo]
  | lock id =>
      simp only [Carrier.parts, Parts.segments, List.cons_append, List.nil_append, List.mem_cons,
        List.not_mem_nil, or_false] at hs
      rcases hs with rfl | rfl | rfl | rfl
      exacts [by decide, horg, hrepo, Key.plain_append id.property (by decide)]

theorem partsOf_spelled (ns : Namespace) (c : Carrier) :
    partsOf (c.parts (spelledOrg ns) ns.repo).segments =
      some (c.parts (spelledOrg ns) ns.repo) := by
  have hdot := undotted_spelledOrg ns
  have hown : ∀ t tail, partsOf (spelledOrg ns :: ns.repo :: t :: tail) =
      some ⟨[], spelledOrg ns, ns.repo, t :: tail⟩ := by
    intro t tail
    obtain ⟨hlock, href⟩ := parts_undotted hdot ns.repo (t :: tail)
    rw [partsOf, hlock, href]
    exact if_neg (not_or.mpr ⟨hdot, List.cons_ne_nil t tail⟩)
  cases c with
  | marker oid => exact hown _ _
  | size oid n => exact hown _ _
  | reference oid =>
      have hoid : oid.text ≠ ".complete".toList := by
        intro h
        refine dot_not_mem_oid oid ?_
        rw [h]
        decide
      have hlock : lockParts [".refs".toList, oid.text, spelledOrg ns, ns.repo] = none := by
        rw [lockParts, if_neg]
        exact fun hshape => absurd hshape.1 (by decide)
      have href : refParts [".refs".toList, oid.text, spelledOrg ns, ns.repo] =
          some ⟨[".refs".toList, oid.text], spelledOrg ns, ns.repo, []⟩ := if_pos ⟨rfl, hoid⟩
      change partsOf [".refs".toList, oid.text, spelledOrg ns, ns.repo] = _
      rw [partsOf, hlock, href]
      rfl
  | lock id =>
      have hlock : lockParts [".locks".toList, spelledOrg ns, ns.repo, id.val ++ ".json".toList] =
          some ⟨[".locks".toList], spelledOrg ns, ns.repo, [id.val ++ ".json".toList]⟩ := by
        rw [lockParts, if_pos]
        exact ⟨rfl, List.cons_ne_nil _ _⟩
      change partsOf [".locks".toList, spelledOrg ns, ns.repo, id.val ++ ".json".toList] = _
      rw [partsOf, hlock]
      rfl

/-- **A key an earlier version wrote folds to the key of today.** -/
theorem folded_spelled (ns : Namespace) (c : Carrier) : folded (spelled ns c) = c.key ns := by
  have hparts : partsOf (segments (spelled ns c)) = some (c.parts (spelledOrg ns) ns.repo) := by
    rw [spelled, segments_joined (plain_parts ns c) (Parts.segments_ne_nil _)]
    exact partsOf_spelled ns c
  have hlowered : (c.parts (spelledOrg ns) ns.repo).lowered =
      c.parts ns.storedOrg ns.storedRepo := by
    rw [← lower_spelledOrg]
    cases c <;> rfl
  rw [folded_of_parts hparts, Parts.canonical, hlowered]
  cases c <;> rfl

end Lfsx.Storage.Canonical
