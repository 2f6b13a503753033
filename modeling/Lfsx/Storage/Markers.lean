import Lfsx.Storage.Surveys

/-!
# What counts as a marker

Two readers decide which keys of a bucket are claims.  `Refs.fromMarker` splits a key from the
left and compares its fan-out with how the digest starts, and a survey looks at the last segment
only.

A fan-out that is a start of the digest but not of two characters passes the first reader.  On
every other key it finds exactly the markers (`marker_recognised`), and a marker of a repository
with a legal name is a marker to the survey too (`Survey.file_marker`).
-/

namespace Lfsx.Storage

open Lfsx.Path

/-! ## Slices -/

/-- `&t[n..]`, where the slice is defined: `n` is a boundary of a character. -/
def sliceFrom : Nat → Text → Option Text
  | 0, t => some t
  | _ + 1, [] => none
  | n + 1, c :: t => if n + 1 < c.utf8Size then none else sliceFrom (n + 1 - c.utf8Size) t

namespace Refs

/-- `from_marker`, with the one slice that could be out of bounds. -/
def fromMarkerChecked (marker : Text) : Option (Option Text) :=
  match segments marker with
  | [org, repo, aa, bb, oid] =>
      if !Oid.wellFormed oid then some none
      else if !aa.isPrefixOf oid then some none
      else (sliceFrom 2 oid).map fun rest =>
        if bb.isPrefixOf rest && !org.isEmpty && !repo.isEmpty then
          some (joined [".refs".toList, oid, org, repo])
        else none
  | _ => some none

end Refs

/-- A digest can be sliced anywhere. -/
theorem sliceFrom_digest {t : Text} (h : ∀ c ∈ t, Oid.isHexDigit c = true) {n : Nat}
    (hn : n ≤ t.length) : sliceFrom n t = some (t.drop n) := by
  induction n generalizing t with
  | zero =>
      cases t <;> rfl
  | succ n ih =>
      cases t with
      | nil => simp at hn
      | cons c t =>
          have hc := Oid.utf8Size_of_isHexDigit (h c List.mem_cons_self)
          have hrest := ih (fun d hd => h d (List.mem_cons_of_mem _ hd)) (Nat.le_of_succ_le_succ hn)
          simp [sliceFrom, hc, hrest]

/-- **Reading a key never panics.** -/
theorem fromMarker_checked (marker : Text) :
    Refs.fromMarkerChecked marker = some (Refs.fromMarker marker) := by
  rw [Refs.fromMarkerChecked, Refs.fromMarker]
  rcases segments marker with _ | ⟨org, _ | ⟨repo, _ | ⟨aa, _ | ⟨bb, _ | ⟨oid, _ | ⟨more, ss⟩⟩⟩⟩⟩⟩
  case cons.cons.cons.cons.cons.nil =>
    by_cases hoid : Oid.wellFormed oid = true
    · have hdigits : ∀ c ∈ oid, Oid.isHexDigit c = true := fun c hc =>
        @Oid.isHexDigit_of_mem ⟨oid, hoid⟩ c hc
      have hlength : oid.length = 64 := Oid.length_text ⟨oid, hoid⟩
      simp only
      rw [sliceFrom_digest hdigits (by omega)]
      by_cases haa : aa.isPrefixOf oid = true
      · simp [hoid, haa]
      · simp [hoid, haa]
    · simp [hoid]
  all_goals rfl

/-! ## The form of a marker -/

/-- `{org}/{repo}/{oid[0..2]}/{oid[2..4]}/{oid}`. -/
structure Form (key org repo : Text) (oid : Oid) : Prop where
  spelled : key = joined [org, repo, oid.fanout.1, oid.fanout.2, oid.text]
  plainOrg : Plain org
  plainRepo : Plain repo
  someOrg : org ≠ []
  someRepo : repo ≠ []

/-- A key whose fan-out is two starts of the digest that are not of two characters each. -/
def Misread (key : Text) : Prop :=
  ∃ org repo aa bb oid, segments key = [org, repo, aa, bb, oid] ∧ Oid.wellFormed oid = true ∧
    org ≠ [] ∧ repo ≠ [] ∧ aa <+: oid ∧ bb <+: oid.drop 2 ∧ ¬ (aa.length = 2 ∧ bb.length = 2)

section Form

variable {key org repo : Text} {oid : Oid}

theorem Form.segments (h : Form key org repo oid) :
    segments key = [org, repo, oid.fanout.1, oid.fanout.2, oid.text] := by
  rw [h.spelled]
  refine segments_joined (fun s hs => ?_) (by simp)
  simp only [List.mem_cons, List.not_mem_nil, or_false] at hs
  rcases hs with rfl | rfl | rfl | rfl | rfl
  exacts [h.plainOrg, h.plainRepo, (Key.plain_fanout oid).1, (Key.plain_fanout oid).2,
    Key.plain_oid oid]

/-- What `from_marker` accepts. -/
theorem fromMarker_eq_some {answer : Text} :
    Refs.fromMarker key = some answer ↔ ∃ org repo aa bb oid,
      segments key = [org, repo, aa, bb, oid] ∧ Oid.wellFormed oid = true ∧ org ≠ [] ∧ repo ≠ [] ∧
        aa <+: oid ∧ bb <+: oid.drop 2 ∧ answer = joined [".refs".toList, oid, org, repo] := by
  rw [Refs.fromMarker]
  generalize segments key = ss
  split
  case h_1 org repo aa bb oid =>
    constructor
    · intro h
      by_cases hoid : Oid.wellFormed oid = true
      · simp only [hoid, Bool.not_true, Bool.false_eq_true, if_false, Option.ite_none_right_eq_some,
          Bool.and_eq_true, Bool.not_eq_true', List.isEmpty_eq_false_iff,
          List.isPrefixOf_iff_prefix, Option.some.injEq] at h
        obtain ⟨⟨⟨⟨haa, hbb⟩, horg⟩, hrepo⟩, hanswer⟩ := h
        exact ⟨org, repo, aa, bb, oid, rfl, hoid, horg, hrepo, haa, hbb, hanswer.symm⟩
      · simp [hoid] at h
    · rintro ⟨_, _, _, _, _, hss, hoid, horg, hrepo, haa, hbb, rfl⟩
      cases hss
      simp [hoid, horg, hrepo, haa, hbb]
  case h_2 ss hss =>
    refine iff_of_false (by simp) ?_
    rintro ⟨org, repo, aa, bb, oid, rfl, -⟩
    exact hss org repo aa bb oid rfl

/-- A marker has a reference. -/
theorem Form.fromMarker (h : Form key org repo oid) :
    Refs.fromMarker key = some (joined [".refs".toList, oid.text, org, repo]) :=
  fromMarker_eq_some.mpr ⟨org, repo, oid.fanout.1, oid.fanout.2, oid.text, h.segments, oid.checked,
    h.someOrg, h.someRepo, List.take_prefix _ _, List.take_prefix _ _, rfl⟩

/-- A fan-out of two characters each is that of the digest. -/
theorem form_of_lengths {aa bb digest : Text}
    (hsegments : segments key = [org, repo, aa, bb, digest])
    (hdigest : Oid.wellFormed digest = true) (horg : org ≠ []) (hrepo : repo ≠ [])
    (haa : aa <+: digest) (hbb : bb <+: digest.drop 2) (hlengths : aa.length = 2 ∧ bb.length = 2) :
    Form key org repo ⟨digest, hdigest⟩ := by
  have hplain := plain_of_mem_segments key
  rw [hsegments] at hplain
  have haa' : aa = digest.take 2 := by rw [List.prefix_iff_eq_take.mp haa, hlengths.1]
  have hbb' : bb = (digest.drop 2).take 2 := by rw [List.prefix_iff_eq_take.mp hbb, hlengths.2]
  refine ⟨?_, hplain org (by simp), hplain repo (by simp), horg, hrepo⟩
  rw [← joined_segments key, hsegments, haa', hbb']
  rfl

/-- **Markers are recognised exactly**, unless the fan-out is misread. -/
theorem fromMarker_exact :
    (∀ answer, Refs.fromMarker key = some answer ↔
      ∃ org repo oid, Form key org repo oid ∧
        answer = joined [".refs".toList, oid.text, org, repo]) ↔
      ¬ Misread key := by
  constructor
  · rintro hexact ⟨org, repo, aa, bb, digest, hsegments, hdigest, horg, hrepo, haa, hbb, hlengths⟩
    obtain ⟨org', repo', oid, hform, -⟩ := (hexact _).mp (fromMarker_eq_some.mpr
      ⟨org, repo, aa, bb, digest, hsegments, hdigest, horg, hrepo, haa, hbb, rfl⟩)
    have hsame := hform.segments
    rw [hsegments] at hsame
    cases hsame
    exact hlengths ⟨by simp [Oid.fanout], by simp [Oid.fanout]⟩
  · intro hnot answer
    constructor
    · intro h
      obtain ⟨org, repo, aa, bb, digest, hsegments, hdigest, horg, hrepo, haa, hbb, rfl⟩ :=
        fromMarker_eq_some.mp h
      have hlengths : aa.length = 2 ∧ bb.length = 2 := by
        by_contra hlengths
        exact hnot ⟨org, repo, aa, bb, digest, hsegments, hdigest, horg, hrepo, haa, hbb, hlengths⟩
      exact ⟨org, repo, ⟨digest, hdigest⟩,
        form_of_lengths hsegments hdigest horg hrepo haa hbb hlengths, rfl⟩
    · rintro ⟨org, repo, oid, hform, rfl⟩
      exact hform.fromMarker

end Form

/-! ## The survey -/

/-- A name an organisation is stored under, as it is or with the name of a forge. -/
def LegalOrg (org : Text) : Prop :=
  isWellFormed org = true ∨
    ∃ forge name, isForgeName forge = true ∧ isWellFormed name = true ∧ org = forge ++ '~' :: name

theorem LegalOrg.undotted {org : Text} (h : LegalOrg org) : Namespace.Undotted org := by
  rcases h with h | ⟨forge, name, hforge, -, rfl⟩
  · exact (Namespace.isWellFormed_iff.mp h).2.2.1
  · obtain ⟨hne, hdot⟩ := Namespace.undotted_forge hforge
    simpa [Namespace.Undotted, List.head?_append_of_ne_nil _ hne] using hdot

namespace Survey

/-- What filing a marker does. -/
def markerFiled (survey : Survey) (e : Entry) (oid : Oid) (ours : Text) : Survey :=
  if ours.isPrefixOf e.key then
    { survey with markers := survey.markers ++ [e.key], mine := survey.mine ++ [(e, oid)] }
  else
    { survey with
      markers := survey.markers ++ [e.key]
      claimedElsewhere := insert oid survey.claimedElsewhere }

/-- A key is in the directory of its first segment. -/
theorem not_under_of_undotted {key org repo dir : Text} {oid : Oid} (h : Form key org repo oid)
    (horg : Namespace.Undotted org) (hdir : dir.head? = some '.') (hplain : Plain dir) :
    (under [dir]).isPrefixOf key = false := by
  have hsegments : ∀ s ∈ [org, repo, oid.fanout.1, oid.fanout.2, oid.text], Plain s := by
    rw [← h.segments]
    exact plain_of_mem_segments key
  rw [← Bool.not_eq_true, List.isPrefixOf_iff_prefix, h.spelled,
    under_joined (by simpa using hplain) hsegments]
  rintro (hnil | ⟨rest, -, heq⟩)
  · cases hnil
  · rw [List.cons_append, List.cons.injEq] at heq
    exact horg (heq.1 ▸ hdir)

/-- **A marker of a repository with a legal name is a marker to the survey.** -/
theorem file_marker {key org repo : Text} {oid : Oid} (h : Form key org repo oid)
    (horg : LegalOrg org) (hrepo : isWellFormed repo = true) (survey : Survey) {e : Entry}
    (hkey : e.key = key) (ours : Text) : survey.file e ours = survey.markerFiled e oid ours := by
  have hunder : ∀ dir : Text, dir.head? = some '.' → Plain dir →
      (under [dir]).isPrefixOf e.key = false :=
    fun dir hdir hplain => hkey ▸ not_under_of_undotted h horg.undotted hdir hplain
  have hcontent : ".content/".toList.isPrefixOf e.key = false :=
    hunder ".content".toList rfl (by decide)
  have hskipped : (notMarkers.any fun start => start.isPrefixOf e.key) = false := by
    have h₁ : ".incoming/".toList.isPrefixOf e.key = false :=
      hunder ".incoming".toList rfl (by decide)
    have h₂ : ".locks/".toList.isPrefixOf e.key = false := hunder ".locks".toList rfl (by decide)
    have h₃ : ".refs/".toList.isPrefixOf e.key = false := hunder ".refs".toList rfl (by decide)
    have h₄ : ".probe/".toList.isPrefixOf e.key = false := hunder ".probe".toList rfl (by decide)
    simp only [notMarkers, List.any_cons, List.any_nil, h₁, h₂, h₃, h₄, Bool.or_false]
  have hsize : Sizes.isOne e.key = false := by
    rw [hkey, h.spelled]
    exact Key.isOne_fanned h.plainOrg h.plainRepo (Namespace.isWellFormed_iff.mp hrepo).2.2.1
  have hoid : markerOid e.key = some oid := by
    rw [hkey, markerOid, last, h.segments]
    simp [Except.toOption]
  rw [file, hcontent, hskipped, hsize, hoid]
  simp only [Bool.false_eq_true, if_false]
  rfl

end Survey

/-- **Markers are recognised.**  Reading a key never panics, it finds exactly the markers unless
the fan-out of the key is misread, the reference of a repository's marker is that repository's,
and the survey files a marker with legal names as one of the same object. -/
theorem marker_recognised (key : Text) :
    Refs.fromMarkerChecked key = some (Refs.fromMarker key) ∧
    ((∀ answer, Refs.fromMarker key = some answer ↔
      ∃ org repo oid, Form key org repo oid ∧
        answer = joined [".refs".toList, oid.text, org, repo]) ↔ ¬ Misread key) ∧
    (∀ ns oid, key = S3Store.markerKey ns oid → Refs.fromMarker key = some (Refs.key ns oid)) ∧
    ∀ org repo oid, Form key org repo oid → LegalOrg org → isWellFormed repo = true →
      ∀ (survey : Survey) (e : Entry) (ours : Text), e.key = key →
        survey.file e ours = survey.markerFiled e oid ours := by
  refine ⟨fromMarker_checked key, fromMarker_exact, ?_, ?_⟩
  · rintro ns oid rfl
    exact Key.fromMarker_marker ns oid
  · intro org repo oid hform horg hrepo survey e ours hkey
    exact Survey.file_marker hform horg hrepo survey hkey ours

/-- A key with no fan-out at all is read as a marker. -/
theorem marker_misread :
    ¬ ∀ key answer, Refs.fromMarker key = some answer →
      ∃ org repo oid, Form key org repo oid ∧
        answer = joined [".refs".toList, oid.text, org, repo] := by
  intro hclaim
  obtain ⟨org, repo, oid, hform, -⟩ := hclaim
    (joined ["acme".toList, "game".toList, [], [], Oid.zeros.text])
    (joined [".refs".toList, Oid.zeros.text, "acme".toList, "game".toList]) (by decide)
  have hsegments := hform.segments
  have hread : segments (joined ["acme".toList, "game".toList, [], [], Oid.zeros.text]) =
      ["acme".toList, "game".toList, [], [], Oid.zeros.text] := by decide
  rw [hread] at hsegments
  simp only [List.cons.injEq, and_true] at hsegments
  have hlength := congrArg List.length hsegments.2.2.1
  simp [Oid.fanout] at hlength

end Lfsx.Storage
