import Lfsx.Storage.Collect

/-!
# Surveys of what the server wrote

A survey sorts the keys of a listing by how they start, what they contain and how
they end.  On keys the server wrote this finds what they are (`Survey.file_text`),
and each field of a survey is known from the keys of the listing: the markers are
those of the listing (`mem_markers`), `mine` are the markers of the repository, each
object once (`of_mem_mine`, `nodup_mine`), and the objects claimed elsewhere are
those another repository has a marker of (`mem_claimedElsewhere`).
-/

namespace Lfsx.Storage

open Lfsx.Path

namespace Key

/-! ## What the readers find -/

theorem isOne_size (ns : Namespace) (oid : Oid) (n : Nat) :
    Sizes.isOne (size ns oid n).text = true := by
  rw [Sizes.isOne, text, contains_joined (size ns oid n).plain_segments (by decide)]
  exact ⟨[ns.storedOrg, ns.storedRepo], [oid.text ++ '.' :: decimal n], by simp, by simp, rfl⟩

/-- A dot starts the name of the size index and nothing else inside a marker. -/
theorem isOne_fanned {org repo : Text} {oid : Oid} (horg : Plain org) (hplain : Plain repo)
    (hrepo : Namespace.Undotted repo) :
    Sizes.isOne (joined [org, repo, oid.fanout.1, oid.fanout.2, oid.text]) = false := by
  have hsegments : ∀ s ∈ [org, repo, oid.fanout.1, oid.fanout.2, oid.text], Plain s := by
    intro s hs
    simp only [List.mem_cons, List.not_mem_nil, or_false] at hs
    rcases hs with rfl | rfl | rfl | rfl | rfl
    exacts [horg, hplain, (plain_fanout oid).1, (plain_fanout oid).2, plain_oid oid]
  rw [← Bool.not_eq_true, Sizes.isOne, contains_joined hsegments (by decide)]
  rintro ⟨before, after, hbefore, hafter, h⟩
  have hmem : ".sizes".toList ∈ [repo, oid.fanout.1, oid.fanout.2, oid.text] := by
    obtain ⟨b, bs, rfl⟩ := List.exists_cons_of_ne_nil hbefore
    have htail := congrArg List.tail h
    rw [List.cons_append, List.tail_cons, List.tail_cons] at htail
    rw [htail]
    simp
  have hhex : ∀ t : Text, (∀ c ∈ t, c ∈ oid.text) → ".sizes".toList ≠ t := by
    rintro t ht rfl
    exact absurd (Oid.isHexDigit_of_mem (ht '.' (by decide))) (by decide)
  simp only [List.mem_cons, List.not_mem_nil, or_false] at hmem
  rcases hmem with hmem | hmem | hmem | hmem
  · exact hrepo (by rw [← hmem]; rfl)
  · exact hhex _ (fun c hc => List.mem_of_mem_take hc) hmem
  · exact hhex _ (fun c hc => List.mem_of_mem_drop (List.mem_of_mem_take hc)) hmem
  · exact hhex _ (fun c hc => hc) hmem

theorem isOne_marker (ns : Namespace) (oid : Oid) : Sizes.isOne (marker ns oid).text = false :=
  isOne_fanned ns.plain_storedOrg ns.plain_storedRepo ns.undotted_storedRepo

theorem isOne_console (name : { t : Text // Plain t ∧ Oid.wellFormed t = false }) :
    Sizes.isOne (console name).text = false := by
  rw [← Bool.not_eq_true, Sizes.isOne, text,
    contains_joined (console name).plain_segments (by decide)]
  rintro ⟨before, after, hbefore, hafter, h⟩
  have hlength := congrArg List.length h
  have hb := List.length_pos_of_ne_nil hbefore
  have ha := List.length_pos_of_ne_nil hafter
  simp only [segments, List.length_cons, List.length_append, List.length_nil] at hlength
  omega

theorem markerOid_marker (ns : Namespace) (oid : Oid) :
    markerOid (marker ns oid).text = some oid := by
  rw [markerOid, last_text]
  simp [segments, Except.toOption]

theorem markerOid_console (name : { t : Text // Plain t ∧ Oid.wellFormed t = false }) :
    markerOid (console name).text = none := by
  rw [markerOid, last_text]
  simp [segments, Oid.parse, name.property.2, Except.toOption]

/-- Every marker has a reference to give it. -/
theorem fromMarker_marker (ns : Namespace) (oid : Oid) :
    Refs.fromMarker (marker ns oid).text = some (reference ns oid).text := by
  have horg : ns.storedOrg ≠ [] := by
    rw [Namespace.storedOrg]
    cases hforge : ns.forge with
    | none => exact Namespace.lower_ne_nil ns.orgChecked
    | some forge => simp
  have hrepo : ns.storedRepo ≠ [] := Namespace.lower_ne_nil ns.repoChecked
  have haa : oid.fanout.1 <+: oid.text := List.take_prefix _ _
  have hbb : oid.fanout.2 <+: oid.text.drop 2 := List.take_prefix _ _
  rw [Refs.fromMarker, segments_text]
  simp [segments, oid.checked, List.isPrefixOf_iff_prefix, haa, hbb, horg, hrepo, text]

end Key

namespace Survey

open S3Store (ownPrefix)

variable {survey : Survey} {e : Entry} {ns : Namespace}

/-! ## Filing what the server wrote -/

/-- What filing a key of the server does. -/
def filed (survey : Survey) (e : Entry) (ns : Namespace) : Key → Survey
  | .content oid => { survey with contentSizes := survey.contentSizes.insert oid.text e.size }
  | .marker ns' oid =>
      if ns'.Same ns then
        { survey with markers := survey.markers ++ [e.key], mine := survey.mine ++ [(e, oid)] }
      else
        { survey with
          markers := survey.markers ++ [e.key]
          claimedElsewhere := insert oid survey.claimedElsewhere }
  | .size ns' _ _ =>
      if ns'.Same ns then
        match Sizes.read e.key with
        | some (oid, _) => { survey with sized := survey.sized.insert oid e.key }
        | none => survey
      else survey
  | _ => survey

theorem ownPrefix_marker {ns' : Namespace} {oid : Oid} :
    (ownPrefix ns).isPrefixOf (Key.marker ns' oid).text = decide (ns'.Same ns) := by
  rw [Bool.eq_iff_iff, List.isPrefixOf_iff_prefix, Key.ownPrefix_text, decide_eq_true_eq]
  constructor
  · rintro ⟨ns'', hsame, ⟨_, h⟩ | ⟨_, _, h⟩⟩
    · cases h
      exact hsame
    · cases h
  · exact fun hsame => ⟨ns', hsame, Or.inl ⟨oid, rfl⟩⟩

theorem ownPrefix_size {ns' : Namespace} {oid : Oid} {n : Nat} :
    (ownPrefix ns).isPrefixOf (Key.size ns' oid n).text = decide (ns'.Same ns) := by
  rw [Bool.eq_iff_iff, List.isPrefixOf_iff_prefix, Key.ownPrefix_text, decide_eq_true_eq]
  constructor
  · rintro ⟨ns'', hsame, ⟨_, h⟩ | ⟨_, _, h⟩⟩
    · cases h
    · cases h
      exact hsame
  · exact fun hsame => ⟨ns', hsame, Or.inr ⟨oid, n, rfl⟩⟩

/-- The directories whose keys a survey passes over. -/
def Skipped (dir : Text) : Prop :=
  dir = ".incoming".toList ∨ dir = ".locks".toList ∨ dir = ".refs".toList ∨ dir = ".probe".toList

theorem isContent_text {k : Key} :
    ".content/".toList.isPrefixOf k.text = true ↔ k.dir = ".content".toList := by
  rw [List.isPrefixOf_iff_prefix]
  exact Key.dir_text (d := ".content".toList) (by decide)

theorem notMarkers_text {k : Key} :
    (notMarkers.any fun start => start.isPrefixOf k.text) = true ↔ Skipped k.dir := by
  have hdirs : notMarkers = [under [".incoming".toList], under [".locks".toList],
      under [".refs".toList], under [".probe".toList]] := by decide
  rw [hdirs]
  simp only [List.any_cons, List.any_nil, Bool.or_false, Bool.or_eq_true,
    List.isPrefixOf_iff_prefix]
  rw [Key.dir_text (by decide), Key.dir_text (by decide), Key.dir_text (by decide),
    Key.dir_text (by decide)]
  rfl

theorem file_skipped {k : Key} {ours : Text} (hk : e.key = k.text)
    (hcontent : k.dir ≠ ".content".toList) (hskipped : Skipped k.dir) :
    survey.file e ours = survey := by
  rw [file, hk, if_neg (isContent_text.not.mpr hcontent), if_pos (notMarkers_text.mpr hskipped)]

/-- A repository is in no directory of the server. -/
theorem storedOrg_dir (ns : Namespace) :
    ns.storedOrg ≠ ".content".toList ∧ ¬ Skipped ns.storedOrg := by
  refine ⟨Key.storedOrg_ne ns rfl, ?_⟩
  rintro (h | h | h | h)
  exacts [Key.storedOrg_ne ns rfl h, Key.storedOrg_ne ns rfl h, Key.storedOrg_ne ns rfl h,
    Key.storedOrg_ne ns rfl h]

/-- The name of an object is read off the key of its content. -/
theorem last_content (oid : Oid) :
    last ((Key.content oid).text.drop ".content/".length) = oid.text := by
  have hrest : (Key.content oid).text.drop ".content/".length =
      joined [oid.fanout.1, oid.fanout.2, oid.text] := by
    rw [Key.text, Key.segments, joined_cons]
    rfl
  have hplain : ∀ s ∈ [oid.fanout.1, oid.fanout.2, oid.text], Plain s := by
    intro s hs
    exact (Key.content oid).plain_segments s (List.mem_cons_of_mem _ hs)
  rw [hrest, last_joined hplain (by simp)]
  rfl

/-- **A survey knows what the server wrote.** -/
theorem file_text {k : Key} (hk : e.key = k.text) :
    survey.file e (ownPrefix ns) = survey.filed e ns k := by
  cases k with
  | content oid =>
      rw [file, hk, if_pos (isContent_text.mpr rfl), last_content]
      rfl
  | marker ns' oid =>
      obtain ⟨hcontent, hskipped⟩ := storedOrg_dir ns'
      rw [file, hk, if_neg ((isContent_text (k := .marker ns' oid)).not.mpr hcontent),
        if_neg ((notMarkers_text (k := .marker ns' oid)).not.mpr hskipped), Key.isOne_marker,
          Key.markerOid_marker,
        ownPrefix_marker, filed, hk]
      simp only [Bool.false_eq_true, if_false, decide_eq_true_eq]
  | size ns' oid n =>
      obtain ⟨hcontent, hskipped⟩ := storedOrg_dir ns'
      rw [file, hk, if_neg ((isContent_text (k := .size ns' oid n)).not.mpr hcontent),
        if_neg ((notMarkers_text (k := .size ns' oid n)).not.mpr hskipped), Key.isOne_size,
          ownPrefix_size, filed, hk]
      rw [if_pos rfl]
      exact if_congr decide_eq_true_iff rfl rfl
  | console name =>
      have hcontent : (Key.console name).dir ≠ ".content".toList := by
        change ".lfsx".toList ≠ _
        decide
      have hskipped : ¬ Skipped (Key.console name).dir := by
        change ¬ Skipped ".lfsx".toList
        unfold Skipped
        decide
      rw [file, hk, if_neg (isContent_text.not.mpr hcontent),
        if_neg (notMarkers_text.not.mpr hskipped), Key.isOne_console, Key.markerOid_console]
      rfl
  | reference ns' oid =>
      exact file_skipped hk (show ".refs".toList ≠ _ by decide) (Or.inr (Or.inr (Or.inl rfl)))
  | incoming ns' oid =>
      exact file_skipped hk (show ".incoming".toList ≠ _ by decide) (Or.inl rfl)
  | complete =>
      exact file_skipped hk (show ".refs".toList ≠ _ by decide) (Or.inr (Or.inr (Or.inl rfl)))
  | lock ns' id =>
      exact file_skipped hk (show ".locks".toList ≠ _ by decide) (Or.inr (Or.inl rfl))
  | probe name =>
      exact file_skipped hk (show ".probe".toList ≠ _ by decide) (Or.inr (Or.inr (Or.inr rfl)))

theorem of_append (entries : List Entry) (e : Entry) (ours : Text) :
    Survey.of (entries ++ [e]) ours = (Survey.of entries ours).file e ours := by
  rw [Survey.of, List.foldl_append]
  rfl

/-! ## What a survey holds -/

section Written

variable {entries : List Entry} {oid : Oid} {key : Text}

/-- What filing one more key does: it is a marker of the repository or of another,
the content of an object, a size of the repository, or none of these. -/
theorem file_cases (survey : Survey) (ns : Namespace) (h : Key.Written e.key) :
    (∃ oid, e.key = (Key.marker ns oid).text ∧ survey.file e (ownPrefix ns) =
      { survey with markers := survey.markers ++ [e.key], mine := survey.mine ++ [(e, oid)] }) ∨
    (∃ ns' oid, ¬ ns'.Same ns ∧ e.key = (Key.marker ns' oid).text ∧
      survey.file e (ownPrefix ns) =
        { survey with
          markers := survey.markers ++ [e.key]
          claimedElsewhere := insert oid survey.claimedElsewhere }) ∨
    (∃ oid, e.key = (Key.content oid).text ∧ survey.file e (ownPrefix ns) =
      { survey with contentSizes := survey.contentSizes.insert oid.text e.size }) ∨
    (∃ ns' oid n oid', e.key = (Key.size ns' oid n).text ∧ survey.file e (ownPrefix ns) =
      { survey with sized := survey.sized.insert oid' e.key }) ∨
    ((∀ ns' oid, e.key ≠ (Key.marker ns' oid).text) ∧ (∀ oid, e.key ≠ (Key.content oid).text) ∧
      survey.file e (ownPrefix ns) = survey) := by
  obtain ⟨k, hk⟩ := h
  rw [file_text hk]
  have hnone : (∀ ns' oid, k ≠ .marker ns' oid) → (∀ oid, k ≠ .content oid) →
      (∀ ns' oid, e.key ≠ (Key.marker ns' oid).text) ∧ ∀ oid, e.key ≠ (Key.content oid).text := by
    intro hmarker hcontent
    rw [hk]
    refine ⟨fun ns' oid heq => ?_, fun oid heq => hcontent oid (Key.eq_content heq)⟩
    obtain ⟨ns'', h, -⟩ := Key.eq_marker heq
    exact hmarker ns'' oid h
  have hrest : survey.filed e ns k = survey → (∀ ns' oid, k ≠ .marker ns' oid) →
      (∀ oid, k ≠ .content oid) →
      (∀ ns' oid, e.key ≠ (Key.marker ns' oid).text) ∧ (∀ oid, e.key ≠ (Key.content oid).text) ∧
        survey.filed e ns k = survey := by
    intro hfiled hmarker hcontent
    obtain ⟨h₁, h₂⟩ := hnone hmarker hcontent
    exact ⟨h₁, h₂, hfiled⟩
  cases k with
  | marker ns' oid =>
      by_cases hsame : ns'.Same ns
      · refine Or.inl ⟨oid, hk.trans (Key.marker_eq_iff.mpr ⟨hsame, rfl⟩), ?_⟩
        rw [filed, if_pos hsame]
      · refine Or.inr (Or.inl ⟨ns', oid, hsame, hk, ?_⟩)
        rw [filed, if_neg hsame]
  | content oid => exact Or.inr (Or.inr (Or.inl ⟨oid, hk, rfl⟩))
  | size ns' oid n =>
      right; right; right
      rw [filed]
      split
      · split
        · exact Or.inl ⟨ns', oid, n, _, hk, rfl⟩
        · exact Or.inr ⟨(hnone (by simp) (by simp)).1, (hnone (by simp) (by simp)).2, rfl⟩
      · exact Or.inr ⟨(hnone (by simp) (by simp)).1, (hnone (by simp) (by simp)).2, rfl⟩
  | reference ns' oid => exact Or.inr (Or.inr (Or.inr (Or.inr (hrest rfl (by simp) (by simp)))))
  | incoming ns' oid => exact Or.inr (Or.inr (Or.inr (Or.inr (hrest rfl (by simp) (by simp)))))
  | complete => exact Or.inr (Or.inr (Or.inr (Or.inr (hrest rfl (by simp) (by simp)))))
  | lock ns' id => exact Or.inr (Or.inr (Or.inr (Or.inr (hrest rfl (by simp) (by simp)))))
  | console name => exact Or.inr (Or.inr (Or.inr (Or.inr (hrest rfl (by simp) (by simp)))))
  | probe name => exact Or.inr (Or.inr (Or.inr (Or.inr (hrest rfl (by simp) (by simp)))))

/-- Induction over a listing, newest key last. -/
theorem of_induction {motive : List Entry → Survey → Prop} (h : ∀ e ∈ entries, Key.Written e.key)
    (nil : motive [] empty)
    (file : ∀ entries e survey, Key.Written e.key → motive entries survey →
      motive (entries ++ [e]) (survey.file e (ownPrefix ns))) :
    motive entries (Survey.of entries (ownPrefix ns)) := by
  induction entries using List.reverseRecOn with
  | nil => exact nil
  | append_singleton entries e ih =>
      rw [of_append]
      exact file entries e _ (h e (by simp)) (ih fun e he => h e (by simp [he]))

/-- What is in `mine` is a marker of the repository, from the listing. -/
theorem of_mem_mine (h : ∀ e ∈ entries, Key.Written e.key) :
    ∀ p ∈ (Survey.of entries (ownPrefix ns)).mine,
      p.1 ∈ entries ∧ p.1.key = (Key.marker ns p.2).text := by
  refine of_induction (motive := fun entries survey => ∀ p ∈ survey.mine,
    p.1 ∈ entries ∧ p.1.key = (Key.marker ns p.2).text) h (by simp [empty]) ?_
  intro entries e survey he ih p hp
  have hold : p ∈ survey.mine →
      p.1 ∈ entries ++ [e] ∧ p.1.key = (Key.marker ns p.2).text := fun hp =>
    ⟨List.mem_append_left _ (ih p hp).1, (ih p hp).2⟩
  rcases file_cases survey ns he with
    ⟨oid, hkey, hf⟩ | ⟨_, _, _, _, hf⟩ | ⟨_, _, hf⟩ | ⟨_, _, _, _, _, hf⟩ | ⟨_, _, hf⟩ <;>
    rw [hf] at hp
  · rcases List.mem_append.mp hp with hp | hp
    · exact hold hp
    · rw [List.mem_singleton] at hp
      subst hp
      exact ⟨by simp, hkey⟩
  all_goals exact hold hp

theorem sublist_mine (h : ∀ e ∈ entries, Key.Written e.key) :
    ((Survey.of entries (ownPrefix ns)).mine.map Prod.fst).Sublist entries := by
  refine of_induction (motive := fun entries survey =>
    (survey.mine.map Prod.fst).Sublist entries) h List.Sublist.slnil ?_
  intro entries e survey he ih
  have hold : (survey.mine.map Prod.fst).Sublist (entries ++ [e]) :=
    ih.trans (List.sublist_append_left _ _)
  rcases file_cases survey ns he with
    ⟨oid, hkey, hf⟩ | ⟨_, _, _, _, hf⟩ | ⟨_, _, hf⟩ | ⟨_, _, _, _, _, hf⟩ | ⟨_, _, hf⟩ <;> rw [hf]
  · rw [List.map_append]
    exact ih.append (List.Sublist.refl _)
  all_goals exact hold

/-- A repository's markers are each of another object. -/
theorem nodup_mine (h : ∀ e ∈ entries, Key.Written e.key)
    (hsorted : (entries.map Entry.key).Pairwise (· < ·)) :
    ((Survey.of entries (ownPrefix ns)).mine.map Prod.snd).Nodup := by
  have hnodup : (entries.map Entry.key).Nodup := hsorted.imp fun hlt => ne_of_lt hlt
  have hkeys : ((Survey.of entries (ownPrefix ns)).mine.map Prod.snd).map
      (fun oid => (Key.marker ns oid).text) =
        ((Survey.of entries (ownPrefix ns)).mine.map Prod.fst).map Entry.key := by
    rw [List.map_map, List.map_map]
    apply List.map_congr_left
    intro p hp
    exact (of_mem_mine h p hp).2.symm
  refine List.Nodup.of_map (fun oid => (Key.marker ns oid).text) ?_
  rw [hkeys]
  exact hnodup.sublist ((sublist_mine h).map Entry.key)

/-- One of the markers a sweep drops: its object is not that of another. -/
theorem of_sublist_mine {before rest : List (Entry × Oid)}
    (h : ∀ e ∈ entries, Key.Written e.key) (hsorted : (entries.map Entry.key).Pairwise (· < ·))
    (hsub : (before ++ (e, oid) :: rest).Sublist (Survey.of entries (ownPrefix ns)).mine) :
    e.key = (Key.marker ns oid).text ∧ (∀ p ∈ before, p.2 ≠ oid) ∧ ∀ p ∈ rest, p.2 ≠ oid := by
  have hmem : (e, oid) ∈ before ++ (e, oid) :: rest := by simp
  have hnodup := (nodup_mine h hsorted).sublist (hsub.map Prod.snd)
  rw [List.map_append, List.map_cons, List.nodup_append, List.nodup_cons] at hnodup
  refine ⟨(of_mem_mine h _ (hsub.subset hmem)).2, fun p hp heq => ?_, fun p hp heq => ?_⟩
  · exact hnodup.2.2 p.2 (List.mem_map_of_mem hp) oid List.mem_cons_self heq
  · exact hnodup.2.1.1 (List.mem_map.mpr ⟨p, hp, heq⟩)

/-- The markers of a survey are those of the listing. -/
theorem mem_markers (h : ∀ e ∈ entries, Key.Written e.key) :
    ∀ key, key ∈ (Survey.of entries (ownPrefix ns)).markers ↔
      key ∈ entries.map Entry.key ∧ ∃ ns' oid, key = (Key.marker ns' oid).text := by
  refine of_induction (motive := fun entries survey => ∀ key, key ∈ survey.markers ↔
    key ∈ entries.map Entry.key ∧ ∃ ns' oid, key = (Key.marker ns' oid).text) h
    (by simp [empty]) ?_
  intro entries e survey he ih key
  have hadd : (∃ ns' oid, e.key = (Key.marker ns' oid).text) →
      (key ∈ survey.markers ++ [e.key] ↔ key ∈ (entries ++ [e]).map Entry.key ∧
        ∃ ns' oid, key = (Key.marker ns' oid).text) := by
    intro hmarker
    rw [List.map_append, List.mem_append, List.mem_append, ih key, or_and_right]
    refine or_congr_right (by simpa using fun heq => heq ▸ hmarker)
  have hskip : (∀ ns' oid, e.key ≠ (Key.marker ns' oid).text) →
      (key ∈ survey.markers ↔ key ∈ (entries ++ [e]).map Entry.key ∧
        ∃ ns' oid, key = (Key.marker ns' oid).text) := by
    intro hnot
    rw [List.map_append, List.mem_append, or_and_right, ih key]
    refine (or_iff_left ?_).symm
    rintro ⟨hkey, ns', oid, rfl⟩
    rw [List.map_singleton, List.mem_singleton] at hkey
    exact hnot ns' oid hkey.symm
  rcases file_cases survey ns he with
    ⟨oid, hkey, hf⟩ | ⟨ns', oid, _, hkey, hf⟩ | ⟨oid, hkey, hf⟩ | ⟨ns', oid, n, _, hkey, hf⟩ |
    ⟨hnot, _, hf⟩ <;> rw [hf]
  · exact hadd ⟨ns, oid, hkey⟩
  · exact hadd ⟨ns', oid, hkey⟩
  · refine hskip fun ns' oid' heq => ?_
    obtain ⟨_, hk, -⟩ := Key.eq_marker (hkey.symm.trans heq)
    cases hk
  · refine hskip fun ns'' oid' heq => ?_
    obtain ⟨_, hk, -⟩ := Key.eq_marker (hkey.symm.trans heq)
    cases hk
  · exact hskip hnot

/-- The objects claimed elsewhere are those of the markers of other repositories. -/
theorem mem_claimedElsewhere (h : ∀ e ∈ entries, Key.Written e.key) :
    ∀ oid, oid ∈ (Survey.of entries (ownPrefix ns)).claimedElsewhere ↔
      ∃ ns', ¬ ns'.Same ns ∧ (Key.marker ns' oid).text ∈ entries.map Entry.key := by
  refine of_induction (motive := fun entries survey => ∀ oid, oid ∈ survey.claimedElsewhere ↔
    ∃ ns', ¬ ns'.Same ns ∧ (Key.marker ns' oid).text ∈ entries.map Entry.key) h
    (by simp [empty]) ?_
  intro entries e survey he ih oid
  have hskip : (∀ ns', ¬ ns'.Same ns → e.key ≠ (Key.marker ns' oid).text) →
      (oid ∈ survey.claimedElsewhere ↔ ∃ ns', ¬ ns'.Same ns ∧
        (Key.marker ns' oid).text ∈ (entries ++ [e]).map Entry.key) := by
    intro hnot
    rw [ih oid]
    refine exists_congr fun ns' => and_congr_right fun hne => ?_
    rw [List.map_append, List.mem_append]
    refine (or_iff_left fun hkey => ?_).symm
    rw [List.map_singleton, List.mem_singleton] at hkey
    exact hnot ns' hne hkey.symm
  rcases file_cases survey ns he with
    ⟨oid', hkey, hf⟩ | ⟨ns', oid', hne, hkey, hf⟩ | ⟨oid', hkey, hf⟩ | ⟨ns', oid', n, _, hkey, hf⟩ |
    ⟨hnot, _, hf⟩ <;> rw [hf]
  · refine hskip fun ns' hne heq => hne ?_
    exact (Key.marker_eq_iff.mp (heq.symm.trans hkey)).1
  · rw [Finset.mem_insert, List.map_append]
    by_cases heq : oid = oid'
    · subst heq
      simp only [true_or, true_iff]
      exact ⟨ns', hne, by simp [hkey]⟩
    · rw [or_iff_right heq, ← List.map_append]
      refine hskip fun ns'' _ h => heq ?_
      exact (Key.marker_eq_iff.mp (h.symm.trans hkey)).2
  · refine hskip fun ns' _ heq => ?_
    obtain ⟨_, hk, -⟩ := Key.eq_marker (hkey.symm.trans heq)
    cases hk
  · refine hskip fun ns'' _ heq => ?_
    obtain ⟨_, hk, -⟩ := Key.eq_marker (hkey.symm.trans heq)
    cases hk
  · exact hskip fun ns' _ => hnot ns' oid

/-- What is kept for a size is the key of one. -/
theorem of_lookup_sized (h : ∀ e ∈ entries, Key.Written e.key) :
    ∀ oid key, (Survey.of entries (ownPrefix ns)).sized.lookup oid = some key →
      ∃ ns' oid' n, key = (Key.size ns' oid' n).text := by
  refine of_induction (motive := fun _ survey => ∀ oid key, survey.sized.lookup oid = some key →
    ∃ ns' oid' n, key = (Key.size ns' oid' n).text) h (by simp [empty]) ?_
  intro entries e survey he ih oid key hkey
  rcases file_cases survey ns he with
    ⟨_, _, hf⟩ | ⟨_, _, _, _, hf⟩ | ⟨_, _, hf⟩ | ⟨ns', oid', n, oid'', hsize, hf⟩ | ⟨_, _, hf⟩ <;>
    rw [hf] at hkey
  case inr.inr.inr.inl =>
    rcases eq_or_ne oid oid'' with rfl | hne
    · rw [AList.lookup_insert] at hkey
      cases hkey
      exact ⟨ns', oid', n, hsize⟩
    · rw [AList.lookup_insert_ne hne] at hkey
      exact ih oid key hkey
  all_goals exact ih oid key hkey

/-- The size of an object is that of its content in the listing. -/
theorem lookup_contentSizes (ns : Namespace) (h : ∀ e ∈ entries, Key.Written e.key)
    (hsorted : (entries.map Entry.key).Pairwise (· < ·)) (oid : Oid) (size : Nat) :
    (Survey.of entries (ownPrefix ns)).contentSizes.lookup oid.text = some size ↔
      ∃ e ∈ entries, e.key = (Key.content oid).text ∧ e.size = size := by
  have hnodup : (entries.map Entry.key).Nodup := hsorted.imp fun hlt => ne_of_lt hlt
  refine of_induction (motive := fun entries survey => (entries.map Entry.key).Nodup →
    ∀ oid size, survey.contentSizes.lookup oid.text = some size ↔
      ∃ e ∈ entries, e.key = (Key.content oid).text ∧ e.size = size) h (by simp [empty]) ?_
    hnodup oid size
  intro entries e survey he ih hnodup oid size
  rw [List.map_append, List.nodup_append] at hnodup
  have hold := ih hnodup.1 oid size
  have hskip : e.key ≠ (Key.content oid).text →
      (survey.contentSizes.lookup oid.text = some size ↔
        ∃ e' ∈ entries ++ [e], e'.key = (Key.content oid).text ∧ e'.size = size) := by
    intro hne
    rw [hold]
    simp [or_and_right, exists_or, hne]
  rcases file_cases survey ns he with
    ⟨oid', hkey, hf⟩ | ⟨ns', oid', _, hkey, hf⟩ | ⟨oid', hkey, hf⟩ |
    ⟨ns', oid', n, _, hkey, hf⟩ | ⟨_, hnot, hf⟩ <;> rw [hf]
  · refine hskip fun heq => ?_
    obtain ⟨_, hk, -⟩ := Key.eq_marker (heq.symm.trans hkey)
    cases hk
  · refine hskip fun heq => ?_
    obtain ⟨_, hk, -⟩ := Key.eq_marker (heq.symm.trans hkey)
    cases hk
  · by_cases heq : oid = oid'
    · subst heq
      rw [AList.lookup_insert, Option.some.injEq]
      constructor
      · rintro rfl
        exact ⟨e, by simp, hkey, rfl⟩
      · rintro ⟨e', he', hkey', rfl⟩
        rcases List.mem_append.mp he' with hmem | hmem
        · exact absurd (hkey'.trans hkey.symm)
            (hnodup.2.2 _ (List.mem_map_of_mem hmem) _ (by simp))
        · rw [List.mem_singleton.mp hmem]
    · have hne : oid.text ≠ oid'.text := fun h => heq (Oid.ext h)
      rw [AList.lookup_insert_ne hne]
      exact hskip fun h => heq (Key.content_eq_iff.mp (h.symm.trans hkey))
  · refine hskip fun heq => ?_
    have hk := Key.eq_content (hkey.symm.trans heq)
    cases hk
  · exact hskip (hnot oid)

end Written

/-! ## Listing the keys of a repository only -/

/-- What filing a key does to what is kept of the repository depends on no more. -/
theorem file_own {survey survey' : Survey} {ours : Text}
    (h : survey.mine = survey'.mine ∧ survey.sized = survey'.sized) (e : Entry) :
    (survey.file e ours).mine = (survey'.file e ours).mine ∧
      (survey.file e ours).sized = (survey'.file e ours).sized := by
  obtain ⟨hmine, hsized⟩ := h
  unfold file
  split
  · exact ⟨hmine, hsized⟩
  split
  · exact ⟨hmine, hsized⟩
  split
  · split
    · split
      · exact ⟨hmine, by rw [hsized]⟩
      · exact ⟨hmine, hsized⟩
    · exact ⟨hmine, hsized⟩
  · split
    · exact ⟨hmine, hsized⟩
    · split
      · exact ⟨by rw [hmine], hsized⟩
      · exact ⟨hmine, hsized⟩

theorem file_not_own (survey : Survey) {ours : Text} (h : ours.isPrefixOf e.key = false) :
    (survey.file e ours).mine = survey.mine ∧ (survey.file e ours).sized = survey.sized := by
  unfold file
  rw [h]
  split
  · exact ⟨rfl, rfl⟩
  split
  · exact ⟨rfl, rfl⟩
  split
  · exact ⟨rfl, rfl⟩
  · split <;> exact ⟨rfl, rfl⟩

/-- A survey of the keys of the repository finds what a survey of them all does. -/
theorem of_filter (entries : List Entry) (ours : Text) :
    (Survey.of (entries.filter fun e => ours.isPrefixOf e.key) ours).mine =
        (Survey.of entries ours).mine ∧
      (Survey.of (entries.filter fun e => ours.isPrefixOf e.key) ours).sized =
        (Survey.of entries ours).sized := by
  induction entries using List.reverseRecOn with
  | nil => exact ⟨rfl, rfl⟩
  | append_singleton entries e ih =>
      rw [List.filter_append, of_append]
      cases hours : ours.isPrefixOf e.key with
      | true =>
          rw [List.filter_singleton, hours, cond_true, of_append]
          exact file_own ih e
      | false =>
          rw [List.filter_singleton, hours, cond_false, List.append_nil]
          obtain ⟨hmine, hsized⟩ := file_not_own (Survey.of entries ours) hours
          exact ⟨ih.1.trans hmine.symm, ih.2.trans hsized.symm⟩

/-! ## What any listing is sorted into -/

/-- A key that is in no directory of the server. -/
def Filed (key : Text) : Prop :=
  ".content/".toList.isPrefixOf key = false ∧
    (notMarkers.any fun start => start.isPrefixOf key) = false

/-- A key in the directory of a repository that ends in an oid. -/
structure Marks (ours : Text) (key : Text) (oid : Oid) : Prop where
  filed : Filed key
  own : ours.isPrefixOf key = true
  isOne : Sizes.isOne key = false
  names : markerOid key = some oid

/-- What filing a key adds to what is kept of the repository. -/
theorem file_adds (survey : Survey) (e : Entry) (ours : Text) :
    (∀ p ∈ (survey.file e ours).mine, p ∈ survey.mine ∨ Marks ours p.1.key p.2) ∧
      ∀ oid key, (survey.file e ours).sized.lookup oid = some key →
        survey.sized.lookup oid = some key ∨ Filed key ∧ Sizes.isOne key = true := by
  have hsame : (∀ p ∈ survey.mine, p ∈ survey.mine ∨ Marks ours p.1.key p.2) ∧
      ∀ oid key, survey.sized.lookup oid = some key →
        survey.sized.lookup oid = some key ∨ Filed key ∧ Sizes.isOne key = true :=
    ⟨fun p hp => Or.inl hp, fun oid key hkey => Or.inl hkey⟩
  unfold file
  split
  · exact hsame
  next hcontent =>
  split
  · exact hsame
  next hskipped =>
  have hfiled : Filed e.key := ⟨Bool.eq_false_iff.mpr hcontent, Bool.eq_false_iff.mpr hskipped⟩
  split
  · next hone =>
      split
      · split
        · next oid' n _ =>
            refine ⟨hsame.1, fun oid key hkey => ?_⟩
            dsimp only at hkey
            rcases eq_or_ne oid oid' with rfl | hne
            · rw [AList.lookup_insert, Option.some.injEq] at hkey
              exact Or.inr (hkey ▸ ⟨hfiled, hone⟩)
            · rw [AList.lookup_insert_ne hne] at hkey
              exact Or.inl hkey
        · exact hsame
      · exact hsame
  · next hone =>
      split
      · exact hsame
      · next oid hoid =>
          split
          · next hown =>
              refine ⟨fun p hp => ?_, hsame.2⟩
              rcases List.mem_append.mp hp with hp | hp
              · exact Or.inl hp
              · obtain rfl := List.mem_singleton.mp hp
                exact Or.inr ⟨hfiled, hown, Bool.eq_false_iff.mpr hone, hoid⟩
          · exact hsame

theorem of_adds (entries : List Entry) (ours : Text) :
    (∀ p ∈ (Survey.of entries ours).mine, Marks ours p.1.key p.2) ∧
      ∀ oid key, (Survey.of entries ours).sized.lookup oid = some key →
        Filed key ∧ Sizes.isOne key = true := by
  induction entries using List.reverseRecOn with
  | nil =>
      exact ⟨fun p hp => absurd hp List.not_mem_nil,
        fun oid key hkey => by simp [Survey.of, empty] at hkey⟩
  | append_singleton entries e ih =>
      rw [of_append]
      obtain ⟨hmine, hsized⟩ := file_adds (Survey.of entries ours) e ours
      refine ⟨fun p hp => (hmine p hp).elim (ih.1 p) id, fun oid key hkey => ?_⟩
      exact (hsized oid key hkey).elim (ih.2 oid key) id

end Survey

end Lfsx.Storage
