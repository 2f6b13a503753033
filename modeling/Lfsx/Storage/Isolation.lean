import Lfsx.Storage.Surveys

/-!
# Keys and namespaces kept apart

One flat key space holds everything of every repository, told apart by shape alone.  The
server's keys are read back without loss: keys of two kinds, or of two different parts,
are two different texts (`Key.text_eq_iff`), a size key carries its oid and its size
(`Sizes.read_key`), a survey files each key as what it is (`survey_exact`), and a
repository's own prefix lists its markers and its sizes and nothing else
(`Key.ownPrefix_text`).
-/

namespace Lfsx.Storage

open Lfsx.Path

/-! ## Numbers in keys -/

/-- A number that fits is read back. -/
theorem parseU64_decimal {n : Nat} (h : n ≤ maxU64) : parseU64 (decimal n) = some n := by
  have hdigit : ∀ c ∈ decimal n, c.isDigit = true :=
    fun c hc => Nat.isDigit_of_mem_toDigits (by decide) (by decide) hc
  have hne : decimal n ≠ [] := Nat.toDigits_ne_nil
  have hplus : (decimal n).head? ≠ some '+' := by
    intro hhead
    exact absurd (hdigit '+' (List.mem_of_head? hhead)) (by decide)
  have hvalue : (decimal n).foldl (fun v c => 10 * v + (c.toNat - 48)) 0 = n :=
    Nat.ofDigitChars_ten_toDigits
  rw [parseU64, if_neg hplus]
  simp only [hvalue]
  rw [if_neg, if_pos h]
  simp only [Bool.or_eq_true, List.isEmpty_iff, Bool.not_eq_true', not_or, Bool.not_eq_false,
    List.all_eq_true]
  exact ⟨hne, hdigit⟩

theorem rsplitOnce_append {c : Char} {before after : Text} (h : c ∉ after) :
    rsplitOnce c (before ++ c :: after) = some (before, after) := by
  have hreverse : (before ++ c :: after).reverse = after.reverse ++ c :: before.reverse := by
    simp
  have hall : ∀ d ∈ after.reverse, (d != c) = true := by
    intro d hd
    rw [bne_iff_ne]
    rintro rfl
    exact h (List.mem_reverse.mp hd)
  rw [rsplitOnce, if_pos (by simp), hreverse, List.dropWhile_append_of_pos hall,
    List.takeWhile_append_of_pos hall]
  simp

/-- **A size key carries its oid and its size.** -/
theorem Sizes.read_key (ns : Namespace) (oid : Oid) {n : Nat} (h : n ≤ maxU64) :
    Sizes.read (Sizes.key ns oid n) = some (oid, n) := by
  have hlast : last (Sizes.key ns oid n) = oid.text ++ '.' :: decimal n := by
    change last (Key.size ns oid n).text = _
    rw [Key.last_text]
    rfl
  rw [Sizes.read, hlast, rsplitOnce_append (dot_not_mem_decimal n)]
  simp only [Oid.parse_text, parseU64_decimal h]

/-! ## Keys -/

namespace Key

/-- The keys are those the code formats. -/
theorem text_formatted (ns : Namespace) (oid : Oid) (n : Nat) :
    (content oid).text = S3Store.contentKey oid ∧
      (incoming ns oid).text = S3Store.incomingKey ns oid ∧
      (marker ns oid).text = S3Store.markerKey ns oid ∧
      (reference ns oid).text = Refs.key ns oid ∧ (size ns oid n).text = Sizes.key ns oid n :=
  ⟨rfl, rfl, rfl, rfl, rfl⟩

/-- The same thing of the same repository. -/
inductive Same : Key → Key → Prop where
  | marker {ns ns' : Namespace} (oid : Oid) : ns.Same ns' → Same (marker ns oid) (marker ns' oid)
  | reference {ns ns' : Namespace} (oid : Oid) :
      ns.Same ns' → Same (reference ns oid) (reference ns' oid)
  | content (oid : Oid) : Same (content oid) (content oid)
  | incoming {ns ns' : Namespace} (oid : Oid) :
      ns.Same ns' → Same (incoming ns oid) (incoming ns' oid)
  | size {ns ns' : Namespace} (oid : Oid) (n : Nat) :
      ns.Same ns' → Same (size ns oid n) (size ns' oid n)
  | complete : Same complete complete
  | lock {ns ns' : Namespace} (id : { t : Text // Plain t }) :
      ns.Same ns' → Same (lock ns id) (lock ns' id)
  | console (name : { t : Text // Plain t ∧ Oid.wellFormed t = false }) :
      Same (console name) (console name)
  | probe (name : { t : Text // Plain t }) : Same (probe name) (probe name)

theorem Same.text_eq {k l : Key} (h : k.Same l) : k.text = l.text := by
  have hsegments : k.segments = l.segments := by
    cases h with
    | marker oid h => rw [segments, segments, h.1, h.2]
    | reference oid h => rw [segments, segments, h.1, h.2]
    | incoming oid h => rw [segments, segments, h.1, h.2]
    | size oid n h => rw [segments, segments, h.1, h.2]
    | lock id h => rw [segments, segments, h.1, h.2]
    | content oid => rfl
    | complete => rfl
    | console name => rfl
    | probe name => rfl
  rw [Key.text, Key.text, hsegments]

theorem same_incoming {k : Key} {ns : Namespace} {oid : Oid}
    (h : k.text = (incoming ns oid).text) : k.Same (incoming ns oid) := by
  have hs := segments_eq h
  cases k with
  | incoming ns' oid' =>
      simp only [segments, List.cons.injEq, and_true, true_and] at hs
      obtain ⟨horg, hrepo, -, -, hoid⟩ := hs
      cases Oid.ext hoid
      exact .incoming _ ⟨horg, hrepo⟩
  | marker ns' oid' => simp [segments] at hs
  | reference ns' oid' => simp [segments] at hs
  | content oid' => simp [segments] at hs
  | size ns' oid' n => simp [segments] at hs
  | complete => simp [segments] at hs
  | lock ns' id => simp [segments] at hs
  | console name => simp [segments] at hs
  | probe name => simp [segments] at hs

theorem same_size {k : Key} {ns : Namespace} {oid : Oid} {n : Nat}
    (h : k.text = (size ns oid n).text) : k.Same (size ns oid n) := by
  have hs := segments_eq h
  cases k with
  | size ns' oid' n' =>
      simp only [segments, List.cons.injEq, and_true, true_and] at hs
      obtain ⟨horg, hrepo, hname⟩ := hs
      have hsplit := congrArg (rsplitOnce '.') hname
      rw [rsplitOnce_append (dot_not_mem_decimal n'), rsplitOnce_append (dot_not_mem_decimal n),
        Option.some.injEq, Prod.mk.injEq] at hsplit
      cases Oid.ext hsplit.1
      cases decimal_inj hsplit.2
      exact .size _ _ ⟨horg, hrepo⟩
  | reference ns' oid' =>
      rw [segments, segments, List.cons.injEq] at hs
      exact absurd hs.1.symm (storedOrg_ne ns rfl)
  | content oid' =>
      rw [segments, segments, List.cons.injEq] at hs
      exact absurd hs.1.symm (storedOrg_ne ns rfl)
  | lock ns' id =>
      rw [segments, segments, List.cons.injEq] at hs
      exact absurd hs.1.symm (storedOrg_ne ns rfl)
  | marker ns' oid' => simp [segments] at hs
  | incoming ns' oid' => simp [segments] at hs
  | complete => simp [segments] at hs
  | console name => simp [segments] at hs
  | probe name => simp [segments] at hs

theorem same_lock {k : Key} {ns : Namespace} {id : { t : Text // Plain t }}
    (h : k.text = (lock ns id).text) : k.Same (lock ns id) := by
  have hs := segments_eq h
  cases k with
  | lock ns' id' =>
      simp only [segments, List.cons.injEq, and_true, true_and] at hs
      obtain ⟨horg, hrepo, hname⟩ := hs
      cases Subtype.ext (List.append_cancel_right hname)
      exact .lock _ ⟨horg, hrepo⟩
  | size ns' oid' n =>
      rw [segments, segments, List.cons.injEq] at hs
      exact absurd hs.1 (storedOrg_ne ns' rfl)
  | reference ns' oid' =>
      rw [segments, segments, List.cons.injEq] at hs
      exact absurd hs.1 (by decide)
  | content oid' =>
      rw [segments, segments, List.cons.injEq] at hs
      exact absurd hs.1 (by decide)
  | marker ns' oid' => simp [segments] at hs
  | incoming ns' oid' => simp [segments] at hs
  | complete => simp [segments] at hs
  | console name => simp [segments] at hs
  | probe name => simp [segments] at hs

theorem same_console {k : Key} {name : { t : Text // Plain t ∧ Oid.wellFormed t = false }}
    (h : k.text = (console name).text) : k.Same (console name) := by
  have hs := segments_eq h
  cases k with
  | console name' =>
      simp only [segments, List.cons.injEq, and_true, true_and] at hs
      cases Subtype.ext hs
      exact .console _
  | complete =>
      rw [segments, segments, List.cons.injEq] at hs
      exact absurd hs.1 (by decide)
  | probe name' =>
      rw [segments, segments, List.cons.injEq] at hs
      exact absurd hs.1 (by decide)
  | marker ns' oid' => simp [segments] at hs
  | reference ns' oid' => simp [segments] at hs
  | content oid' => simp [segments] at hs
  | incoming ns' oid' => simp [segments] at hs
  | size ns' oid' n => simp [segments] at hs
  | lock ns' id => simp [segments] at hs

theorem same_probe {k : Key} {name : { t : Text // Plain t }}
    (h : k.text = (probe name).text) : k.Same (probe name) := by
  have hs := segments_eq h
  cases k with
  | probe name' =>
      simp only [segments, List.cons.injEq, and_true, true_and] at hs
      cases Subtype.ext hs
      exact .probe _
  | complete =>
      rw [segments, segments, List.cons.injEq] at hs
      exact absurd hs.1 (by decide)
  | console name' =>
      rw [segments, segments, List.cons.injEq] at hs
      exact absurd hs.1 (by decide)
  | marker ns' oid' => simp [segments] at hs
  | reference ns' oid' => simp [segments] at hs
  | content oid' => simp [segments] at hs
  | incoming ns' oid' => simp [segments] at hs
  | size ns' oid' n => simp [segments] at hs
  | lock ns' id => simp [segments] at hs

/-- **Keys of two kinds, or of different parts, are different.** -/
theorem text_eq_iff {k l : Key} : k.text = l.text ↔ k.Same l := by
  refine ⟨fun h => ?_, Same.text_eq⟩
  cases l with
  | marker ns oid =>
      obtain ⟨ns', rfl, hsame⟩ := eq_marker h
      exact .marker _ hsame
  | reference ns oid =>
      obtain ⟨ns', rfl, hsame⟩ := eq_reference h
      exact .reference _ hsame
  | content oid =>
      cases eq_content h
      exact .content _
  | complete =>
      cases eq_complete h
      exact .complete
  | incoming ns oid => exact same_incoming h
  | size ns oid n => exact same_size h
  | lock ns id => exact same_lock h
  | console name => exact same_console h
  | probe name => exact same_probe h

end Key

/-! ## Surveys -/

namespace Survey

open S3Store (ownPrefix)

/-- What a survey is to make of the keys of the server, each of an entry as it was listed. -/
structure Exact (ns : Namespace) (file : Survey → Entry → Survey) : Prop where
  mine : ∀ survey ns' oid modified size, ns'.Same ns →
    file survey ⟨(Key.marker ns' oid).text, modified, size⟩ =
      { survey with
        markers := survey.markers ++ [(Key.marker ns' oid).text]
        mine := survey.mine ++ [(⟨(Key.marker ns' oid).text, modified, size⟩, oid)] }
  elsewhere : ∀ survey ns' oid modified size, ¬ ns'.Same ns →
    file survey ⟨(Key.marker ns' oid).text, modified, size⟩ =
      { survey with
        markers := survey.markers ++ [(Key.marker ns' oid).text]
        claimedElsewhere := insert oid survey.claimedElsewhere }
  content : ∀ survey oid modified size,
    file survey ⟨(Key.content oid).text, modified, size⟩ =
      { survey with contentSizes := survey.contentSizes.insert oid.text size }
  sized : ∀ survey ns' oid (n : UInt64) modified size, ns'.Same ns →
    file survey ⟨(Key.size ns' oid n.toNat).text, modified, size⟩ =
      { survey with sized := survey.sized.insert oid (Key.size ns' oid n.toNat).text }
  sizedElsewhere : ∀ survey ns' oid (n : UInt64) modified size, ¬ ns'.Same ns →
    file survey ⟨(Key.size ns' oid n.toNat).text, modified, size⟩ = survey
  passedOver : ∀ survey (k : Key) modified size, (∀ ns' oid, k ≠ .marker ns' oid) →
    (∀ oid, k ≠ .content oid) → (∀ ns' oid n, k ≠ .size ns' oid n) →
    file survey ⟨k.text, modified, size⟩ = survey

/-- **A survey files each key of the server as what it is.** -/
theorem survey_exact (ns : Namespace) : Exact ns fun survey e => survey.file e (ownPrefix ns) where
  mine survey ns' oid modified size hsame := by
    rw [file_text (k := .marker ns' oid) rfl, filed, if_pos hsame]
  elsewhere survey ns' oid modified size hsame := by
    rw [file_text (k := .marker ns' oid) rfl, filed, if_neg hsame]
  content survey oid modified size := by
    rw [file_text (k := .content oid) rfl, filed]
  sized survey ns' oid n modified size hsame := by
    have hfits : n.toNat ≤ maxU64 := Nat.le_pred_of_lt n.toNat_lt
    have htext : (Key.size ns' oid n.toNat).text = Sizes.key ns' oid n.toNat := rfl
    rw [file_text (k := .size ns' oid n.toNat) rfl, filed, if_pos hsame, htext,
      Sizes.read_key ns' oid hfits]
  sizedElsewhere survey ns' oid n modified size hsame := by
    rw [file_text (k := .size ns' oid n.toNat) rfl, filed, if_neg hsame]
  passedOver survey k modified size hmarker hcontent hsize := by
    rw [file_text (k := k) rfl]
    cases k with
    | marker ns' oid => exact absurd rfl (hmarker ns' oid)
    | content oid => exact absurd rfl (hcontent oid)
    | size ns' oid n => exact absurd rfl (hsize ns' oid n)
    | reference ns' oid => rfl
    | incoming ns' oid => rfl
    | complete => rfl
    | lock ns' id => rfl
    | console name => rfl
    | probe name => rfl

end Survey

/-- **Namespaces and keys are kept apart.** -/
theorem isolation :
    (∀ ns ns' : Namespace, (ns.eq ns' = true ↔ ns.display = ns'.display) ∧
      (ns.eq ns' = true ↔ ns.storedOrg = ns'.storedOrg ∧ ns.storedRepo = ns'.storedRepo)) ∧
    (∀ k l : Key, k.text = l.text ↔ k.Same l) ∧
    (∀ ns, Survey.Exact ns fun survey e => survey.file e (S3Store.ownPrefix ns)) ∧
    (∀ (ns : Namespace) (k : Key), S3Store.ownPrefix ns <+: k.text ↔
      ∃ ns' : Namespace, ns'.Same ns ∧
        ((∃ oid, k = .marker ns' oid) ∨ ∃ oid n, k = .size ns' oid n)) ∧
    ∀ (ns : Namespace) (oid : Oid) (n : UInt64),
      Sizes.read (Sizes.key ns oid n.toNat) = some (oid, n.toNat) := by
  refine ⟨fun ns ns' => ⟨?_, Namespace.eq_iff_same⟩, fun _ _ => Key.text_eq_iff,
    Survey.survey_exact, fun _ _ => Key.ownPrefix_text, fun ns oid n => ?_⟩
  · rw [Namespace.eq_iff_same, Namespace.display_eq_iff]
  · exact Sizes.read_key ns oid (Nat.le_pred_of_lt n.toNat_lt)

end Lfsx.Storage
