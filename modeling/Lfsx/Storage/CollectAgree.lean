import Lfsx.Storage.BucketSound
import Lfsx.Storage.KeyspaceAlone
import Lfsx.Storage.S3Rules

/-!
# The two sweeps agree

What a sweep is for can be said without an index and without a survey: the markers of a
repository that are neither retained nor young go, each with its size, and so does the
content of an object that no other repository has a marker of.  `Swept` says this of
the bucket that is left and `report` of what is answered, both in terms of the bucket
the sweep began with.

Alone in a bucket whose references mirror its markers, both sweeps do exactly this
(`sweepIndexed_computes`, `sweepWholeBucket_computes`), so they agree (`sweeps_agree`).
The one asks the index about each object, and the others' references never change; the
other one surveys the whole bucket before it drops anything.
-/

namespace Lfsx.Storage.Agree

open Request Keyspace

/-! ## What a sweep does -/

/-- Another repository has a marker of the object. -/
def HeldElsewhere (b : Bucket) (ns : Namespace) (oid : Oid) : Prop :=
  ∃ ns' : Namespace, ¬ ns'.Same ns ∧ b.Has (Key.marker ns' oid).text

/-- What the content of an object weighs. -/
def weight (b : Bucket) (oid : Oid) : Nat :=
  ((b.find (Key.content oid).text).map fun o => o.body.length).getD 0

open Classical in
/-- What goes with the marker of an object. -/
noncomputable def freed (b : Bucket) (ns : Namespace) (oid : Oid) : Nat :=
  if HeldElsewhere b ns oid then 0 else weight b oid

def ageAt (now : Nat) (e : Entry) : Option Nat :=
  match e.modified with
  | none => none
  | some modified => if modified ≤ now then some (now - modified) else none

section Markers

variable (b : Bucket) (ns : Namespace) (retained : Finset Oid) (grace : Nat)

/-- What a listing of the repository finds. -/
def survey : Survey := Survey.of (b.listed (S3Store.ownPrefix ns)) (S3Store.ownPrefix ns)

/-- The markers that are too young. -/
def young : List (Entry × Oid) :=
  (survey b ns).mine.filter fun p =>
    decide (p.2 ∉ retained) && tooYoung (ageAt b.clock p.1) grace

/-- The markers that go. -/
def dropped : List (Entry × Oid) :=
  (survey b ns).mine.filter fun p =>
    decide (p.2 ∉ retained) && !tooYoung (ageAt b.clock p.1) grace

noncomputable def report (dryRun : Bool) : SweepReport :=
  { swept := (dropped b ns retained grace).length
    bytes := ((dropped b ns retained grace).map fun p => freed b ns p.2).sum
    withinGrace := (young b ns retained grace).length
    incomplete := false
    dryRun }

end Markers

/-- What is left of `b₀` when the markers and the sizes of the objects in `gone` were
dropped, and the content of those in `freed` that no other repository holds. -/
structure Swept (b₀ : Bucket) (ns : Namespace) (sized : AList fun _ : Oid => Text)
    (gone freed : List Oid) (b : Bucket) : Prop where
  written : ∀ key, b.Has key → Key.Written key
  few : b.objects.entries.length ≤ b₀.objects.entries.length + 1
  clock : b.clock = b₀.clock
  marker : ∀ ns' oid, b.Has (Key.marker ns' oid).text ↔
    b₀.Has (Key.marker ns' oid).text ∧ ¬ (ns'.Same ns ∧ oid ∈ gone)
  reference : ∀ ns' oid, ¬ ns'.Same ns →
    (b.Has (Key.reference ns' oid).text ↔ b₀.Has (Key.marker ns' oid).text)
  content : ∀ oid, ¬ (oid ∈ freed ∧ ¬ HeldElsewhere b₀ ns oid) →
    b.find (Key.content oid).text = b₀.find (Key.content oid).text
  freed : ∀ oid ∈ freed, ¬ HeldElsewhere b₀ ns oid → ¬ b.Has (Key.content oid).text
  size : ∀ ns' oid n, b.Has (Key.size ns' oid n).text ↔
    b₀.Has (Key.size ns' oid n).text ∧
      ∀ oid' ∈ gone, sized.lookup oid' ≠ some (Key.size ns' oid n).text

section Swept

variable {b₀ b : Bucket} {ns : Namespace} {sized : AList fun _ : Oid => Text}
  {gone freed : List Oid} {oid : Oid}

/-- Where references mirror markers, nothing is swept yet. -/
theorem Swept.start (hwritten : ∀ key, b₀.Has key → Key.Written key)
    (hmirror : ∀ ns' oid, b₀.Has (Key.reference ns' oid).text ↔
      b₀.Has (Key.marker ns' oid).text) : Swept b₀ ns sized [] [] b₀ where
  written := hwritten
  few := Nat.le_succ _
  clock := rfl
  marker := by simp
  reference ns' oid _ := hmirror ns' oid
  content _ _ := rfl
  freed := by simp
  size := by simp

theorem length_remove_le (b : Bucket) (key : Text) :
    (b.remove key).objects.entries.length ≤ b.objects.entries.length :=
  (List.kerase_sublist _ _).length_le

theorem length_write_le (b : Bucket) (key : Text) (body : Bytes) (time : Nat) :
    (b.write key body time).objects.entries.length ≤ b.objects.entries.length + 1 :=
  Nat.succ_le_succ (List.kerase_sublist _ _).length_le

/-- Writing over a key adds none. -/
theorem length_write_of_has {key : Text} (h : b.Has key) (body : Bytes) (time : Nat) :
    (b.write key body time).objects.entries.length = b.objects.entries.length := by
  obtain ⟨o, before, after, -, hsplit, herase⟩ :=
    List.exists_of_kerase (List.dlookup_isSome.mp h)
  change (b.objects.entries.kerase key).length + 1 = _
  rw [herase, hsplit, List.length_append, List.length_append, List.length_cons]
  rfl

/-! ### What a sweep deletes -/

/-- The bucket when the marker of an object was dropped, with its reference and its
size. -/
def without (ns : Namespace) (oid : Oid) (sized : AList fun _ : Oid => Text) (b : Bucket) :
    Bucket :=
  let rest := (b.remove (Key.marker ns oid).text).remove (Key.reference ns oid).text
  match sized.lookup oid with
  | none => rest
  | some key => rest.remove key

theorem find_without {key : Text} : (without ns oid sized b).find key =
    if key = (Key.marker ns oid).text ∨ key = (Key.reference ns oid).text ∨
      sized.lookup oid = some key then none else b.find key := by
  rw [without]
  cases hlookup : sized.lookup oid with
  | none =>
      simp only [Bucket.find_remove, reduceCtorEq, or_false]
      split_ifs <;> simp_all
  | some key' =>
      simp only [Bucket.find_remove, Option.some.injEq]
      split_ifs <;> simp_all

theorem has_without {key : Text} : (without ns oid sized b).Has key ↔
    b.Has key ∧ key ≠ (Key.marker ns oid).text ∧ key ≠ (Key.reference ns oid).text ∧
      sized.lookup oid ≠ some key := by
  rw [Bucket.Has, find_without]
  split_ifs with h
  · simp only [Option.isSome_none, Bool.false_eq_true, false_iff]
    rintro ⟨-, hmarker, hreference, hsize⟩
    rcases h with h | h | h
    exacts [hmarker h, hreference h, hsize h]
  · simp only [not_or] at h
    exact ⟨fun hhas => ⟨hhas, h⟩, fun hhas => hhas.1⟩

/-- What is kept for a size is the key of one. -/
def Sized (sized : AList fun _ : Oid => Text) : Prop :=
  ∀ oid key, sized.lookup oid = some key → ∃ ns oid' n, key = (Key.size ns oid' n).text

theorem length_without_le :
    (without ns oid sized b).objects.entries.length ≤ b.objects.entries.length := by
  have hrest := (length_remove_le (b.remove (Key.marker ns oid).text)
    (Key.reference ns oid).text).trans (length_remove_le b _)
  rw [without]
  cases sized.lookup oid with
  | none => exact hrest
  | some key => exact (length_remove_le _ _).trans hrest

theorem clock_without : (without ns oid sized b).clock = b.clock := by
  rw [without]
  cases sized.lookup oid <;> rfl

/-- **The first half of a sweep of an object**: its marker goes. -/
theorem Swept.drop (h : Swept b₀ ns sized gone freed b) (hsized : Sized sized) (oid : Oid) :
    Swept b₀ ns sized (oid :: gone) freed (without ns oid sized b) := by
  have hmarker : ∀ ns' oid', sized.lookup oid ≠ some (Key.marker ns' oid').text := by
    intro ns' oid' hlookup
    obtain ⟨_, _, _, htext⟩ := hsized oid _ hlookup
    exact Key.text_ne_marker (by simp) ns' oid' htext.symm
  have hreference : ∀ ns' oid', sized.lookup oid ≠ some (Key.reference ns' oid').text := by
    intro ns' oid' hlookup
    obtain ⟨_, _, _, htext⟩ := hsized oid _ hlookup
    exact Key.text_ne_reference (by simp) ns' oid' htext.symm
  have hcontent : ∀ oid', sized.lookup oid ≠ some (Key.content oid').text := by
    intro oid' hlookup
    obtain ⟨_, _, _, htext⟩ := hsized oid _ hlookup
    exact Key.text_ne_content (by simp) oid' htext.symm
  have hfind : ∀ oid', (without ns oid sized b).find (Key.content oid').text =
      b.find (Key.content oid').text := by
    intro oid'
    rw [find_without, if_neg]
    rintro (hkey | hkey | hkey)
    exacts [Key.text_ne_marker (by simp) _ _ hkey, Key.text_ne_reference (by simp) _ _ hkey,
      hcontent _ hkey]
  refine ⟨fun key hkey => h.written key (has_without.mp hkey).1, length_without_le.trans h.few,
    clock_without.trans h.clock, fun ns' oid' => ?_, fun ns' oid' hne => ?_, fun oid' hoid => ?_,
    fun oid' hoid hnot => ?_, fun ns' oid' n => ?_⟩
  · rw [has_without, h.marker, List.mem_cons]
    constructor
    · rintro ⟨⟨hhas, hgone⟩, hne, -, -⟩
      refine ⟨hhas, fun ⟨hsame, hoid⟩ => ?_⟩
      rcases hoid with rfl | hoid
      · exact hne (Key.marker_eq_iff.mpr ⟨hsame, rfl⟩)
      · exact hgone ⟨hsame, hoid⟩
    · rintro ⟨hhas, hgone⟩
      refine ⟨⟨hhas, fun ⟨hsame, hoid⟩ => hgone ⟨hsame, .inr hoid⟩⟩, fun hkey => ?_,
        Key.text_ne_reference (by simp) _ _, hmarker _ _⟩
      obtain ⟨hsame, hoid⟩ := Key.marker_eq_iff.mp hkey
      exact hgone ⟨hsame, .inl hoid⟩
  · rw [has_without, ← h.reference ns' oid' hne]
    refine and_iff_left ⟨Key.text_ne_marker (by simp) _ _, fun hkey => ?_, hreference _ _⟩
    exact hne (Key.reference_eq_iff.mp hkey).1
  · rw [hfind]
    exact h.content oid' hoid
  · rw [Bucket.Has, hfind]
    exact h.freed oid' hoid hnot
  · rw [has_without, h.size]
    constructor
    · rintro ⟨⟨hhas, hgone⟩, -, -, hne⟩
      refine ⟨hhas, fun oid'' hoid => ?_⟩
      rcases List.mem_cons.mp hoid with rfl | hoid
      exacts [hne, hgone oid'' hoid]
    · rintro ⟨hhas, hgone⟩
      exact ⟨⟨hhas, fun oid'' hoid => hgone oid'' (List.mem_cons_of_mem _ hoid)⟩,
        Key.text_ne_marker (by simp) _ _, Key.text_ne_reference (by simp) _ _,
        hgone oid List.mem_cons_self⟩

/-- **The second half**, for an object that another repository holds. -/
theorem Swept.keep (h : Swept b₀ ns sized gone freed b) (hheld : HeldElsewhere b₀ ns oid) :
    Swept b₀ ns sized gone (oid :: freed) b where
  written := h.written
  few := h.few
  clock := h.clock
  marker := h.marker
  reference := h.reference
  content oid' hoid := h.content oid' fun ⟨hfreed, hnot⟩ =>
    hoid ⟨List.mem_cons_of_mem _ hfreed, hnot⟩
  freed oid' hoid hnot := by
    rcases List.mem_cons.mp hoid with rfl | hoid
    · exact absurd hheld hnot
    · exact h.freed oid' hoid hnot
  size := h.size

/-- **The second half**, for an object that no other repository holds. -/
theorem Swept.free (h : Swept b₀ ns sized gone freed b) (hnot : ¬ HeldElsewhere b₀ ns oid) :
    Swept b₀ ns sized gone (oid :: freed) (b.remove (Key.content oid).text) where
  written key hkey := h.written key (Bucket.has_remove.mp hkey).2
  few := (length_remove_le b _).trans h.few
  clock := h.clock
  marker ns' oid' := by
    rw [Bucket.has_remove, and_iff_right (Key.text_ne_content (by simp) _)]
    exact h.marker ns' oid'
  reference ns' oid' hne := by
    rw [Bucket.has_remove, and_iff_right (Key.text_ne_content (by simp) _)]
    exact h.reference ns' oid' hne
  content oid' hoid := by
    have hne : oid' ≠ oid := by
      rintro rfl
      exact hoid ⟨List.mem_cons_self, hnot⟩
    rw [Bucket.find_remove, if_neg fun hkey => hne (Key.content_eq_iff.mp hkey)]
    exact h.content oid' fun ⟨hfreed, hnot'⟩ => hoid ⟨List.mem_cons_of_mem _ hfreed, hnot'⟩
  freed oid' hoid hnot' hhas := by
    obtain ⟨hne, hhas⟩ := Bucket.has_remove.mp hhas
    rcases List.mem_cons.mp hoid with rfl | hoid
    · exact hne rfl
    · exact h.freed oid' hoid hnot' hhas
  size ns' oid' n := by
    rw [Bucket.has_remove, and_iff_right (Key.text_ne_content (by simp) _)]
    exact h.size ns' oid' n

/-- Building the index writes what is no marker, no content and no size, and no reference
that is not there. -/
theorem Swept.write (h : Swept b₀ ns sized gone freed b) (k : Key)
    (hmarker : ∀ ns oid, (Key.marker ns oid).text ≠ k.text)
    (hcontent : ∀ oid, (Key.content oid).text ≠ k.text)
    (hsize : ∀ ns oid n, (Key.size ns oid n).text ≠ k.text)
    (hreference : ∀ ns oid, (Key.reference ns oid).text = k.text → b.Has k.text)
    (hfew : (b.write k.text [] b.clock).objects.entries.length ≤
      b₀.objects.entries.length + 1) :
    Swept b₀ ns sized gone freed (b.write k.text [] b.clock) where
  written key hkey := by
    rcases Bucket.has_write.mp hkey with rfl | hkey
    · exact k.written
    · exact h.written key hkey
  few := hfew
  clock := h.clock
  marker ns' oid' := by
    rw [Bucket.has_write, or_iff_right (hmarker ns' oid')]
    exact h.marker ns' oid'
  reference ns' oid' hne := by
    rw [← h.reference ns' oid' hne, Bucket.has_write, or_iff_right_iff_imp]
    intro heq
    rw [heq]
    exact hreference ns' oid' heq
  content oid' hoid := by
    rw [Bucket.find_write, if_neg (hcontent oid')]
    exact h.content oid' hoid
  freed oid' hoid hnot hhas := by
    rw [Bucket.has_write, or_iff_right (hcontent oid')] at hhas
    exact h.freed oid' hoid hnot hhas
  size ns' oid' n := by
    rw [Bucket.has_write, or_iff_right (hsize ns' oid' n)]
    exact h.size ns' oid' n

end Swept

/-! ## One object -/

section One

variable {σ : Type} {provider : Provider}
  {handle : (r : Req) → Bucket × σ → Resp r × (Bucket × σ)} {keys : Keyspace} {b₀ b : Bucket}
  {ns : Namespace} {sized : AList fun _ : Oid => Text} {gone freed : List Oid} {oid : Oid}

variable (hquiet : Quiet keys.provider handle)
include hquiet

/-- The index names the repositories that hold an object. -/
theorem claimedByAnother_computes (ns : Namespace) (oid : Oid)
    (hwritten : ∀ key, b.Has key → Key.Written key)
    (hpages : b.objects.entries.length < keys.pages) :
    ∃ claimed, Computes handle (Refs.claimedByAnother keys ns oid) b claimed b ∧
      (claimed = true ↔ ∃ ns' : Namespace, ¬ ns'.Same ns ∧ b.Has (Key.reference ns' oid).text) := by
  have hlisted := entries_computes hquiet (Refs.keyPrefix oid) hpages
  have hkeys : Computes handle (keys.listKeys (Refs.keyPrefix oid)) b
      ((b.listed (Refs.keyPrefix oid)).map Entry.key) b := hlisted.bind .pure
  refine ⟨_, hkeys.attempt .pure, ?_⟩
  rw [List.any_map, List.any_eq_true]
  constructor
  · rintro ⟨e, he, hne⟩
    obtain ⟨hunder, o, hfind, -⟩ := mem_listed.mp he
    have hhas : b.Has e.key := by
      rw [Bucket.Has, hfind]
      rfl
    obtain ⟨k, hk⟩ := hwritten e.key hhas
    rw [hk] at hunder
    obtain ⟨ns', rfl⟩ := Key.keyPrefix_text.mp hunder
    refine ⟨ns', fun hsame => ?_, hk ▸ hhas⟩
    have heq : e.key = Refs.key ns oid := hk.trans (Key.reference_eq_iff.mpr ⟨hsame, rfl⟩)
    simp [heq] at hne
  · rintro ⟨ns', hne, hhas⟩
    obtain ⟨o, hfind⟩ := Option.isSome_iff_exists.mp hhas
    refine ⟨⟨(Key.reference ns' oid).text, o.modified, o.body.length⟩,
      mem_listed.mpr ⟨Key.keyPrefix_text.mpr ⟨ns', rfl⟩, o, hfind, rfl, rfl⟩, ?_⟩
    have hkey : (Key.reference ns' oid).text ≠ Refs.key ns oid :=
      fun heq => hne (Key.reference_eq_iff.mp heq).1
    simpa using hkey

theorem claimed_swept (oid : Oid) (h : Swept b₀ ns sized gone freed b)
    (hpages : b₀.objects.entries.length + 1 < keys.pages) :
    ∃ claimed, Computes handle (Refs.claimedByAnother keys ns oid) b claimed b ∧
      (claimed = true ↔ HeldElsewhere b₀ ns oid) := by
  obtain ⟨claimed, hcomputes, hiff⟩ :=
    claimedByAnother_computes hquiet ns oid h.written (h.few.trans_lt hpages)
  refine ⟨claimed, hcomputes, hiff.trans (exists_congr fun ns' => and_congr_right fun hne => ?_)⟩
  exact h.reference ns' oid hne

theorem sizeOrZero_computes :
    Computes handle (S3Store.sizeOrZero oid) b (weight b oid) b := by
  refine head_computes hquiet ?_
  rw [weight]
  change Computes handle _ b (((b.find (S3Store.contentKey oid)).map _).getD 0) b
  cases b.find (S3Store.contentKey oid) <;> exact .pure

theorem dropMarker_computes :
    Computes handle (S3Store.dropMarker keys ns oid (Key.marker ns oid).text sized) b ()
      (without ns oid sized b) := by
  refine (delete_computes hquiet rfl).bind ((delete_computes hquiet rfl).attempt ?_)
  rw [S3Store.dropSize, without]
  cases sized.lookup oid with
  | none => exact .pure
  | some key => exact (delete_computes hquiet rfl).attempt .pure

/-- What is freed is what the content weighs, if there is any. -/
theorem freeContent_computes :
    Computes handle (S3Store.freeContent keys oid (weight b oid)) b (weight b oid)
      (b.remove (Key.content oid).text) := by
  refine (delete_computes hquiet rfl).bind ?_
  by_cases hhas : b.Has (S3Store.contentKey oid)
  · rw [if_pos (decide_eq_true hhas)]
    exact .pure
  · have hnone : b.find (Key.content oid).text = none := Option.not_isSome_iff_eq_none.mp hhas
    have hzero : weight b oid = 0 := by rw [weight, hnone]; rfl
    rw [if_neg (by simpa using hhas), hzero]
    exact .pure

omit hquiet in
/-- What is not freed yet weighs what it did. -/
theorem Swept.weight_eq (h : Swept b₀ ns sized gone freed b) (hoid : oid ∉ freed) :
    weight b oid = weight b₀ oid := by
  rw [weight, weight, h.content oid fun hfreed => hoid hfreed.1]

omit hquiet in
theorem freed_of_held (h : HeldElsewhere b ns oid) : Agree.freed b ns oid = 0 := if_pos h

omit hquiet in
theorem freed_of_not_held (h : ¬ HeldElsewhere b ns oid) :
    Agree.freed b ns oid = weight b oid :=
  if_neg h

theorem freeIndexed_computes (frees : Bool) (h : Swept b₀ ns sized gone freed b)
    (hpages : b₀.objects.entries.length + 1 < keys.pages) (hoid : oid ∉ freed)
    (hfrees : frees = true ↔ ¬ HeldElsewhere b₀ ns oid) :
    ∃ b', Computes handle (S3Store.freeIndexed keys ns oid frees) b (Agree.freed b₀ ns oid) b' ∧
      Swept b₀ ns sized gone (oid :: freed) b' := by
  rw [S3Store.freeIndexed]
  by_cases hheld : HeldElsewhere b₀ ns oid
  · rw [if_neg fun htrue => hfrees.mp htrue hheld, freed_of_held hheld]
    exact ⟨b, .pure, h.keep hheld⟩
  · obtain ⟨claimed, hclaimed, hiff⟩ := claimed_swept hquiet oid h hpages
    have hfalse : claimed = false := Bool.eq_false_iff.mpr fun htrue => hheld (hiff.mp htrue)
    subst hfalse
    rw [if_pos (hfrees.mpr hheld), freed_of_not_held hheld, ← h.weight_eq hoid]
    exact ⟨_, hclaimed.bind ((sizeOrZero_computes hquiet).bind (freeContent_computes hquiet)),
      h.free hheld⟩

theorem freeListed_computes (frees : Bool) (h : Swept b₀ ns sized gone freed b)
    (hpages : b₀.objects.entries.length + 1 < keys.pages) (hoid : oid ∉ freed)
    (hfrees : frees = true ↔ ¬ HeldElsewhere b₀ ns oid) :
    ∃ b', Computes handle (S3Store.freeListed keys ns oid frees (weight b₀ oid)) b
        (Agree.freed b₀ ns oid) b' ∧
      Swept b₀ ns sized gone (oid :: freed) b' := by
  rw [S3Store.freeListed]
  by_cases hheld : HeldElsewhere b₀ ns oid
  · rw [if_neg fun htrue => hfrees.mp htrue hheld, freed_of_held hheld]
    exact ⟨b, .pure, h.keep hheld⟩
  · obtain ⟨claimed, hclaimed, hiff⟩ := claimed_swept hquiet oid h hpages
    have hfalse : claimed = false := Bool.eq_false_iff.mpr fun htrue => hheld (hiff.mp htrue)
    subst hfalse
    rw [if_pos (hfrees.mpr hheld), freed_of_not_held hheld, ← h.weight_eq hoid]
    exact ⟨_, hclaimed.bind (freeContent_computes hquiet), h.free hheld⟩

/-- One turn of the loop of the indexed sweep. -/
theorem sweepOne_computes {entry : Entry} (h : Swept b₀ ns sized gone freed b)
    (hsized : Sized sized) (hpages : b₀.objects.entries.length + 1 < keys.pages)
    (hoid : oid ∉ freed) (hentry : entry.key = (Key.marker ns oid).text) :
    ∃ b', Computes handle (S3Store.sweepOne keys ns sized false entry oid) b
        (Agree.freed b₀ ns oid) b' ∧
      Swept b₀ ns sized (oid :: gone) (oid :: freed) b' := by
  obtain ⟨claimed, hclaimed, hiff⟩ := claimed_swept hquiet oid h hpages
  obtain ⟨b', hfree, hswept⟩ := freeIndexed_computes hquiet (!claimed)
    (h.drop hsized oid) hpages hoid (by rw [← hiff]; cases claimed <;> simp)
  refine ⟨b', hclaimed.bind ?_, hswept⟩
  rw [hentry]
  exact (dropMarker_computes hquiet).bind hfree

theorem sweepOne_dry {entry : Entry} (h : Swept b₀ ns sized [] [] b)
    (hpages : b₀.objects.entries.length + 1 < keys.pages) :
    Computes handle (S3Store.sweepOne keys ns sized true entry oid) b
      (Agree.freed b₀ ns oid) b := by
  obtain ⟨claimed, hclaimed, hiff⟩ := claimed_swept hquiet oid h hpages
  refine hclaimed.bind ?_
  cases claimed with
  | true =>
      rw [freed_of_held (hiff.mp rfl)]
      exact .pure
  | false =>
      rw [freed_of_not_held fun hheld => absurd (hiff.mpr hheld) (by decide),
        ← h.weight_eq List.not_mem_nil]
      exact sizeOrZero_computes hquiet

/-- A survey of the whole bucket knows what the index knows. -/
def Surveyed (b₀ : Bucket) (ns : Namespace) (survey : Survey) : Prop :=
  ∀ oid, (oid ∈ survey.claimedElsewhere ↔ HeldElsewhere b₀ ns oid) ∧
    (survey.contentSizes.lookup oid.text).getD 0 = weight b₀ oid

theorem sweepOneListed_computes {entry : Entry} {survey : Survey}
    (h : Swept b₀ ns survey.sized gone freed b) (hsurvey : Surveyed b₀ ns survey)
    (hsized : Sized survey.sized) (hpages : b₀.objects.entries.length + 1 < keys.pages)
    (hoid : oid ∉ freed) (hentry : entry.key = (Key.marker ns oid).text) :
    ∃ b', Computes handle (S3Store.sweepOneListed keys ns survey true false entry oid) b
        (Agree.freed b₀ ns oid) b' ∧
      Swept b₀ ns survey.sized (oid :: gone) (oid :: freed) b' := by
  obtain ⟨hclaimed, hweight⟩ := hsurvey oid
  obtain ⟨b', hfree, hswept⟩ := freeListed_computes hquiet
    (true && decide (oid ∉ survey.claimedElsewhere)) (h.drop hsized oid) hpages hoid
    (by rw [Bool.true_and, decide_eq_true_eq, hclaimed])
  refine ⟨b', ?_, hswept⟩
  rw [S3Store.sweepOneListed, hweight, hentry]
  exact (dropMarker_computes hquiet).bind hfree

omit hquiet in
theorem sweepOneListed_dry {entry : Entry} {survey : Survey} (hsurvey : Surveyed b₀ ns survey) :
    Computes handle (S3Store.sweepOneListed keys ns survey true true entry oid) b
      (Agree.freed b₀ ns oid) b := by
  obtain ⟨hclaimed, hweight⟩ := hsurvey oid
  rw [S3Store.sweepOneListed, hweight, if_pos rfl]
  by_cases hheld : HeldElsewhere b₀ ns oid
  · rw [freed_of_held hheld, if_neg (by simpa using hclaimed.mpr hheld)]
    exact .pure
  · rw [freed_of_not_held hheld, if_pos (by simpa using fun hmem => hheld (hclaimed.mp hmem))]
    exact .pure

end One

/-! ## The loops -/

section Loops

variable {σ : Type} {provider : Provider}
  {handle : (r : Req) → Bucket × σ → Resp r × (Bucket × σ)} {b₀ b : Bucket} {ns : Namespace}

/-- A loop whose every turn frees what goes with the object. -/
theorem sweepEach_computes {I : List Oid → Bucket → Prop} {one : Entry → Oid → Op Nat}
    {dropped : List (Entry × Oid)} (hnodup : (dropped.map Prod.snd).Nodup)
    (hone : ∀ done entry oid b, I done b → (entry, oid) ∈ dropped → oid ∉ done →
      ∃ b', Computes handle (one entry oid) b (freed b₀ ns oid) b' ∧ I (oid :: done) b')
    {done : List Oid} (hdone : ∀ p ∈ dropped, p.2 ∉ done) (report : SweepReport) (h : I done b) :
    ∃ b', Computes handle (S3Store.sweepEach one dropped report) b
        { report with bytes := report.bytes + (dropped.map fun p => freed b₀ ns p.2).sum } b' ∧
      I ((dropped.map Prod.snd).reverse ++ done) b' := by
  induction dropped generalizing b done report with
  | nil => exact ⟨b, .pure, h⟩
  | cons p rest ih =>
      obtain ⟨entry, oid⟩ := p
      rw [List.map_cons, List.nodup_cons] at hnodup
      obtain ⟨b₁, hturn, h₁⟩ := hone done entry oid b h List.mem_cons_self
        (hdone _ List.mem_cons_self)
      obtain ⟨b₂, hrest, h₂⟩ := ih hnodup.2
        (fun done entry oid b h hmem => hone done entry oid b h (List.mem_cons_of_mem _ hmem))
        (fun p hp hmem => by
          rcases List.mem_cons.mp hmem with heq | hmem
          · exact hnodup.1 (List.mem_map.mpr ⟨p, hp, heq⟩)
          · exact hdone p (List.mem_cons_of_mem _ hp) hmem)
        { report with bytes := report.bytes + freed b₀ ns oid } h₁
      refine ⟨b₂, hturn.bind ?_, by simpa using h₂⟩
      simpa [Nat.add_assoc] using hrest

theorem age_computes (hquiet : Quiet provider handle) (e : Entry) :
    Computes handle e.age b (ageAt b.clock e) b := by
  refine (now_computes hquiet).bind ?_
  rw [ageAt]
  cases e.modified with
  | none => exact .pure
  | some modified =>
      by_cases hle : modified ≤ b.clock
      · simpa only [if_pos hle] using .pure
      · simpa only [if_neg hle] using .pure

/-- What a sweep may drop depends on the clock only. -/
theorem droppable_computes (hquiet : Quiet provider handle) (retained : Finset Oid) (grace : Nat)
    (mine : List (Entry × Oid)) (report : SweepReport) :
    Computes handle (S3Store.droppable retained grace mine report) b
      (mine.filter fun p => decide (p.2 ∉ retained) && !tooYoung (ageAt b.clock p.1) grace,
        { report with
          swept := report.swept + (mine.filter fun p =>
            decide (p.2 ∉ retained) && !tooYoung (ageAt b.clock p.1) grace).length
          withinGrace := report.withinGrace + (mine.filter fun p =>
            decide (p.2 ∉ retained) && tooYoung (ageAt b.clock p.1) grace).length }) b := by
  induction mine generalizing report with
  | nil => exact .pure
  | cons p rest ih =>
      obtain ⟨entry, oid⟩ := p
      rw [S3Store.droppable]
      by_cases hretained : oid ∈ retained
      · rw [if_pos hretained]
        simpa [hretained] using ih report
      · rw [if_neg hretained]
        refine (age_computes hquiet entry).bind ?_
        by_cases hyoung : tooYoung (ageAt b.clock entry) grace = true
        · rw [if_pos hyoung]
          simpa [hretained, hyoung, Nat.add_assoc, Nat.add_comm 1] using
            ih { report with withinGrace := report.withinGrace + 1 }
        · rw [if_neg hyoung]
          rw [Bool.not_eq_true] at hyoung
          refine (ih { report with swept := report.swept + 1 }).bind ?_
          simpa [hretained, hyoung, Nat.add_assoc, Nat.add_comm 1] using .pure

end Loops

/-! ## Surveys -/

section Surveys

variable {b : Bucket} {ns : Namespace}

theorem has_of_mem_listed {under : Text} {e : Entry} (h : e ∈ b.listed under) : b.Has e.key := by
  obtain ⟨-, o, hfind, -⟩ := mem_listed.mp h
  rw [Bucket.Has, hfind]
  rfl

theorem written_listed (hwritten : ∀ key, b.Has key → Key.Written key) (under : Text) :
    ∀ e ∈ b.listed under, Key.Written e.key := by
  exact fun e he => hwritten e.key (has_of_mem_listed he)

/-- A survey of the whole bucket finds of the repository what a listing of it finds. -/
theorem survey_eq (b : Bucket) (ns : Namespace) :
    (survey b ns).mine = (Survey.of (b.listed []) (S3Store.ownPrefix ns)).mine ∧
      (survey b ns).sized = (Survey.of (b.listed []) (S3Store.ownPrefix ns)).sized := by
  rw [survey, listed_eq_filter b (S3Store.ownPrefix ns)]
  exact Survey.of_filter _ _

theorem sized_survey (ns : Namespace) (hwritten : ∀ key, b.Has key → Key.Written key) :
    Sized (survey b ns).sized :=
  Survey.of_lookup_sized (written_listed hwritten _)

theorem surveyed (ns : Namespace) (hwritten : ∀ key, b.Has key → Key.Written key) :
    Surveyed b ns (Survey.of (b.listed []) (S3Store.ownPrefix ns)) := by
  intro oid
  have hlisted := written_listed hwritten []
  constructor
  · rw [Survey.mem_claimedElsewhere hlisted]
    refine exists_congr fun ns' => and_congr_right fun _ => ?_
    rw [List.mem_map]
    constructor
    · rintro ⟨e, he, hkey⟩
      exact hkey ▸ has_of_mem_listed he
    · intro hhas
      obtain ⟨o, hfind⟩ := Option.isSome_iff_exists.mp hhas
      exact ⟨⟨_, o.modified, o.body.length⟩,
        mem_listed.mpr ⟨List.nil_prefix, o, hfind, rfl, rfl⟩, rfl⟩
  · have hlookup := Survey.lookup_contentSizes ns hlisted (sorted_listed b []) oid
    rw [weight]
    cases hfind : b.find (Key.content oid).text with
    | none =>
        cases hsize : (Survey.of (b.listed []) (S3Store.ownPrefix ns)).contentSizes.lookup oid.text
          with
        | none => rfl
        | some size =>
            obtain ⟨e, he, hkey, -⟩ := (hlookup size).mp hsize
            obtain ⟨-, o, hsome, -⟩ := mem_listed.mp he
            rw [hkey, hfind] at hsome
            cases hsome
    | some o =>
        have hmem : (⟨(Key.content oid).text, o.modified, o.body.length⟩ : Entry) ∈ b.listed [] :=
          mem_listed.mpr ⟨List.nil_prefix, o, hfind, rfl, rfl⟩
        rw [(hlookup o.body.length).mpr ⟨_, hmem, rfl, rfl⟩]
        rfl

/-- The objects a sweep drops are each dropped once, by their markers. -/
theorem dropped_spec (ns : Namespace) (hwritten : ∀ key, b.Has key → Key.Written key)
    (retained : Finset Oid)
    (grace : Nat) : ((dropped b ns retained grace).map Prod.snd).Nodup ∧
      ∀ p ∈ dropped b ns retained grace, p.1.key = (Key.marker ns p.2).text := by
  have hlisted := written_listed hwritten (S3Store.ownPrefix ns)
  constructor
  · exact (Survey.nodup_mine hlisted (sorted_listed b _)).sublist (List.filter_sublist.map _)
  · intro p hp
    exact (Survey.of_mem_mine hlisted p (List.mem_of_mem_filter hp)).2

end Surveys

/-! ## The sweeps -/

section Sweeps

variable {σ : Type} {handle : (r : Req) → Bucket × σ → Resp r × (Bucket × σ)} {keys : Keyspace}
  {b : Bucket} (ns : Namespace) (retained : Finset Oid) (grace : Nat) (dryRun : Bool)

/-- What is left when some objects were dropped, or would have been. -/
def Left (b₀ : Bucket) (ns : Namespace) (dryRun : Bool) (done : List Oid) (b : Bucket) : Prop :=
  Swept b₀ ns (survey b₀ ns).sized (if dryRun then [] else done) (if dryRun then [] else done) b

/-- References that are there are written again, and the bucket does not grow. -/
theorem putEach_computes {ns : Namespace} (hquiet : Quiet keys.provider handle)
    {refs : List Text} {b₁ : Bucket}
    (hrefs : ∀ key ∈ refs, ∃ ns' oid, key = (Key.reference ns' oid).text ∧
      b.Has (Key.marker ns' oid).text)
    (h : Left b ns false [] b₁) (hfew : b₁.objects.entries.length ≤ b.objects.entries.length)
    (hthere : ∀ ns' oid, b.Has (Key.marker ns' oid).text → b₁.Has (Key.reference ns' oid).text) :
    ∃ b₂, Computes handle (Refs.putEach refs) b₁ () b₂ ∧ Left b ns false [] b₂ ∧
      b₂.objects.entries.length ≤ b.objects.entries.length := by
  induction refs generalizing b₁ with
  | nil => exact ⟨b₁, .pure, h, hfew⟩
  | cons key rest ih =>
      obtain ⟨ns', oid, rfl, hmarker⟩ := hrefs key List.mem_cons_self
      have hhas := hthere ns' oid hmarker
      have hlength := length_write_of_has hhas [] b₁.clock
      have hnext : Left b ns false [] (b₁.write (Key.reference ns' oid).text [] b₁.clock) :=
        Swept.write h _ (fun _ _ => Key.text_ne_reference (by simp) _ _)
          (fun _ => Key.text_ne_reference (by simp) _ _)
          (fun _ _ _ => Key.text_ne_reference (by simp) _ _) (fun _ _ _ => hhas) (by omega)
      obtain ⟨b₂, hrest, h₂⟩ := ih (fun key hkey => hrefs key (List.mem_cons_of_mem _ hkey)) hnext
        (by omega)
        (fun ns'' oid' hmarker' => Bucket.has_write.mpr (.inr (hthere ns'' oid' hmarker')))
      exact ⟨b₂, (put_computes hquiet).bind hrest, h₂⟩

/-- What a sweep goes into its loop with. -/
def counted (b : Bucket) (ns : Namespace) (retained : Finset Oid) (grace : Nat) (dryRun : Bool) :
    SweepReport :=
  { swept := 0 + (dropped b ns retained grace).length
    bytes := 0
    withinGrace := 0 + (young b ns retained grace).length
    incomplete := false
    dryRun }

/-- A loop whose every turn does with its object what a sweep should. -/
theorem loop_computes {ns : Namespace} {dryRun : Bool} {one : Entry → Oid → Op Nat} {b₁ : Bucket}
    (hwritten : ∀ key, b.Has key → Key.Written key) (h : Left b ns dryRun [] b₁)
    (hone : ∀ done entry oid b₁, Left b ns dryRun done b₁ → oid ∉ done →
      entry.key = (Key.marker ns oid).text →
      ∃ b', Computes handle (one entry oid) b₁ (freed b ns oid) b' ∧
        Left b ns dryRun (oid :: done) b') :
    ∃ b', Computes handle (S3Store.sweepEach one (dropped b ns retained grace)
        (counted b ns retained grace dryRun)) b₁ (report b ns retained grace dryRun) b' ∧
      Left b ns dryRun ((dropped b ns retained grace).map Prod.snd).reverse b' := by
  obtain ⟨hnodup, hkeys⟩ := dropped_spec ns hwritten retained grace
  obtain ⟨b', hloop, hleft⟩ := sweepEach_computes hnodup
    (fun done entry oid b₁ h hmem hdone => hone done entry oid b₁ h hdone (hkeys _ hmem))
    (by simp) (counted b ns retained grace dryRun) h
  refine ⟨b', ?_, by simpa using hleft⟩
  simpa [report, counted] using hloop

variable (hquiet : Quiet keys.provider handle) (hwritten : ∀ key, b.Has key → Key.Written key)
  (hmirror : ∀ ns' oid, b.Has (Key.reference ns' oid).text ↔ b.Has (Key.marker ns' oid).text)
  (hpages : b.objects.entries.length + 1 < keys.pages)

include hwritten hmirror in
theorem left_start : Left b ns dryRun [] b := by
  rw [Left, ite_self]
  exact Swept.start hwritten hmirror

include hquiet hwritten hmirror hpages

/-- **What the sweep by the index does.** -/
theorem sweepIndexed_computes :
    ∃ b', Computes handle (S3Store.sweepIndexed keys ns retained grace dryRun) b
        (report b ns retained grace dryRun) b' ∧
      Left b ns dryRun ((dropped b ns retained grace).map Prod.snd).reverse b' := by
  obtain ⟨b', hloop, hleft⟩ := loop_computes retained grace hwritten
    (left_start ns dryRun hwritten hmirror)
    (fun done entry oid b₁ h hdone hkey => show ∃ b',
        Computes handle (S3Store.sweepOne keys ns (survey b ns).sized dryRun entry oid) b₁
          (freed b ns oid) b' ∧ _ by
      cases dryRun with
      | true => exact ⟨b₁, sweepOne_dry hquiet h hpages, h⟩
      | false => exact sweepOne_computes hquiet h (sized_survey ns hwritten) hpages hdone hkey)
  refine ⟨b', ?_, hleft⟩
  exact (listing_computes hquiet _ (by omega)).bind
    ((droppable_computes hquiet retained grace _ _).bind hloop)

/-- Building an index that is there already changes nothing a sweep is about. -/
theorem buildIndex_ensures {markers : List Text}
    (hmarkers : ∀ key ∈ markers, ∃ ns' oid, key = (Key.marker ns' oid).text ∧ b.Has key) :
    Ensures handle (S3Store.buildIndex markers true dryRun) b
      fun _ b₁ => Left b ns dryRun [] b₁ := by
  have hstart := left_start ns dryRun hwritten hmirror
  cases dryRun with
  | true => exact Computes.pure.ensures hstart
  | false =>
      have hrefs : ∀ key ∈ markers.filterMap Refs.fromMarker, ∃ ns' oid,
          key = (Key.reference ns' oid).text ∧ b.Has (Key.marker ns' oid).text := by
        intro key hkey
        obtain ⟨marker, hmarker, href⟩ := List.mem_filterMap.mp hkey
        obtain ⟨ns', oid, rfl, hhas⟩ := hmarkers marker hmarker
        rw [Key.fromMarker_marker, Option.some.injEq] at href
        exact ⟨ns', oid, href.symm, hhas⟩
      have hbackfill : Ensures handle (Refs.backfill markers) b
          fun _ b₁ => Left b ns false [] b₁ := by
        refine (unordered_ensures hquiet).bind fun order b₁ ⟨hperm, hb₁⟩ => ?_
        subst hb₁
        obtain ⟨b₂, hput, hleft, hfew⟩ := putEach_computes hquiet
          (fun key hkey => hrefs key ((S3Store.mem_reordered hperm).mp hkey)) hstart (le_refl _)
          (fun ns' oid hmarker => (hmirror ns' oid).mpr hmarker)
        refine (hput.bind (put_computes hquiet)).ensures
          (Swept.write hleft .complete ?_ ?_ ?_ ?_ ?_)
        · exact fun _ _ => Key.text_ne_complete (by simp)
        · exact fun _ => Key.text_ne_complete (by simp)
        · exact fun _ _ _ => Key.text_ne_complete (by simp)
        · exact fun _ _ heq => absurd heq (Key.text_ne_complete (by simp))
        · exact (length_write_le _ _ _ _).trans (Nat.succ_le_succ hfew)
      exact hbackfill.attempt fun _ b₁ h => Computes.pure.ensures h

/-- **What the sweep by the whole bucket does.** -/
theorem sweepWholeBucket_ensures :
    Ensures handle (S3Store.sweepWholeBucket keys ns retained grace dryRun) b fun r b' =>
      r = report b ns retained grace dryRun ∧
        Left b ns dryRun ((dropped b ns retained grace).map Prod.snd).reverse b' := by
  have hlisted := written_listed hwritten []
  have hsurveyed := surveyed ns hwritten
  obtain ⟨hmine, hsized⟩ := survey_eq b ns
  have hturn : ∀ done entry oid b₁, Left b ns dryRun done b₁ → oid ∉ done →
      entry.key = (Key.marker ns oid).text →
      ∃ b', Computes handle (S3Store.sweepOneListed keys ns
          (Survey.of (b.listed []) (S3Store.ownPrefix ns)) true dryRun entry oid) b₁
          (freed b ns oid) b' ∧
        Left b ns dryRun (oid :: done) b' := by
    intro done entry oid b₁ h hdone hkey
    have hsizes := sized_survey ns hwritten
    unfold Left at h ⊢
    rw [hsized] at h hsizes ⊢
    cases dryRun with
    | true => exact ⟨b₁, sweepOneListed_dry hsurveyed, h⟩
    | false =>
        exact sweepOneListed_computes hquiet h hsurveyed hsizes hpages hdone hkey
  have hmarkers : ∀ key ∈ (Survey.of (b.listed []) (S3Store.ownPrefix ns)).markers,
      ∃ ns' oid, key = (Key.marker ns' oid).text ∧ b.Has key := by
    intro key hkey
    obtain ⟨hmem, ns', oid, rfl⟩ := (Survey.mem_markers hlisted key).mp hkey
    obtain ⟨e, he, hkey⟩ := List.mem_map.mp hmem
    exact ⟨ns', oid, rfl, hkey ▸ has_of_mem_listed he⟩
  intro t
  have hlisting := listing_computes hquiet [] (hpages.trans' (Nat.lt_succ_self _))
  obtain ⟨t₁, ht₁⟩ := hlisting t
  obtain ⟨_, b₁, t₂, hbuild, hleft⟩ :=
    buildIndex_ensures ns dryRun hquiet hwritten hmirror hpages hmarkers t₁
  obtain ⟨b₂, hloop, hend⟩ := loop_computes retained grace hwritten hleft hturn
  have hdroppable := droppable_computes (b := b₁) hquiet retained grace (survey b ns).mine
    { swept := 0, bytes := 0, withinGrace := 0, incomplete := !true, dryRun }
  rw [hleft.clock] at hdroppable
  obtain ⟨t₃, ht₃⟩ := hdroppable.bind (f := fun dropped => S3Store.sweepEach
    (S3Store.sweepOneListed keys ns (Survey.of (b.listed []) (S3Store.ownPrefix ns)) true dryRun)
    dropped.1 dropped.2) hloop t₂
  rw [hmine] at ht₃
  exact ⟨_, b₂, t₃, ht₁.bind (hbuild.bind ht₃), rfl, hend⟩

end Sweeps

/-- What a sweep says it leaves is all there is to say of its markers, contents and
sizes. -/
theorem Swept.same {b₀ b₁ b₂ : Bucket} {ns : Namespace} {sized : AList fun _ : Oid => Text}
    {gone freed : List Oid} (h₁ : Swept b₀ ns sized gone freed b₁)
    (h₂ : Swept b₀ ns sized gone freed b₂) :
    (∀ ns' oid, b₁.Has (Key.marker ns' oid).text ↔ b₂.Has (Key.marker ns' oid).text) ∧
      (∀ oid, b₁.Has (Key.content oid).text ↔ b₂.Has (Key.content oid).text) ∧
      ∀ ns' oid n, b₁.Has (Key.size ns' oid n).text ↔ b₂.Has (Key.size ns' oid n).text := by
  refine ⟨fun ns' oid => (h₁.marker ns' oid).trans (h₂.marker ns' oid).symm, fun oid => ?_,
    fun ns' oid n => (h₁.size ns' oid n).trans (h₂.size ns' oid n).symm⟩
  by_cases hfreed : oid ∈ freed ∧ ¬ HeldElsewhere b₀ ns oid
  · exact iff_of_false (h₁.freed oid hfreed.1 hfreed.2) (h₂.freed oid hfreed.1 hfreed.2)
  · rw [Bucket.Has, Bucket.Has, h₁.content oid hfreed, h₂.content oid hfreed]

/-- **The two sweeps agree.**  Alone in a bucket the server wrote, whose references mirror
its markers, they answer the same report and leave the same markers, contents and sizes,
whatever is retained, for every grace, in a dry run and in a real one. -/
theorem sweeps_agree {σ σ' : Type} {handle : (r : Req) → Bucket × σ → Resp r × (Bucket × σ)}
    {handle' : (r : Req) → Bucket × σ' → Resp r × (Bucket × σ')} {keys : Keyspace} {b : Bucket}
    (hquiet : Quiet keys.provider handle) (hquiet' : Quiet keys.provider handle')
    (hwritten : ∀ key, b.Has key → Key.Written key)
    (hmirror : ∀ ns' oid, b.Has (Refs.key ns' oid) ↔ b.Has (S3Store.markerKey ns' oid))
    (hpages : b.objects.entries.length + 1 < keys.pages) (ns : Namespace) (retained : Finset Oid)
    (grace : Nat) (dryRun : Bool) (t : σ) (t' : σ') :
    ∃ r b₁ t₁ b₂ t₂,
      (S3Store.sweepIndexed keys ns retained grace dryRun).Returns handle (b, t) r (b₁, t₁) ∧
      (S3Store.sweepWholeBucket keys ns retained grace dryRun).Returns handle' (b, t') r (b₂, t₂) ∧
      r.incomplete = false ∧
      (∀ ns' oid, b₁.Has (S3Store.markerKey ns' oid) ↔ b₂.Has (S3Store.markerKey ns' oid)) ∧
      (∀ oid, b₁.Has (S3Store.contentKey oid) ↔ b₂.Has (S3Store.contentKey oid)) ∧
      ∀ ns' oid n, b₁.Has (Sizes.key ns' oid n) ↔ b₂.Has (Sizes.key ns' oid n) := by
  obtain ⟨b₁, hindexed, hleft⟩ :=
    sweepIndexed_computes ns retained grace dryRun hquiet hwritten hmirror hpages
  obtain ⟨t₁, ht₁⟩ := hindexed t
  obtain ⟨r, b₂, t₂, hwhole, rfl, hleft'⟩ :=
    sweepWholeBucket_ensures ns retained grace dryRun hquiet' hwritten hmirror hpages t'
  exact ⟨_, b₁, t₁, b₂, t₂, ht₁, hwhole, rfl, Swept.same hleft hleft'⟩

theorem length_holding (oid : Oid) (body : Bytes) (holders : List Namespace) :
    (holding oid body holders).objects.entries.length < 2 * holders.length + 3 := by
  induction holders with
  | nil => exact Nat.lt_succ_of_le (length_write_le _ _ _ _)
  | cons ns rest ih =>
      have hreference := length_write_le (holding oid body rest) (Refs.key ns oid) [] 0
      have hmarker := length_write_le ((holding oid body rest).write (Refs.key ns oid) [] 0)
        (S3Store.markerKey ns oid) [] 0
      rw [holding, List.length_cons]
      omega

/-- An object two repositories share, swept in one of them. -/
theorem sweeps_agree_shared :
    ∃ r b₁ t₁ b₂ t₂,
      (S3Store.sweepIndexed ⟨.s3, 9⟩ Namespace.acme ∅ 0 false).Returns (respondAlone .s3 1000)
        (holding Oid.zeros [1] [Namespace.acme, Namespace.tools], ()) r (b₁, t₁) ∧
      (S3Store.sweepWholeBucket ⟨.s3, 9⟩ Namespace.acme ∅ 0 false).Returns (respondAlone .s3 2)
        (holding Oid.zeros [1] [Namespace.acme, Namespace.tools], ()) r (b₂, t₂) ∧
      r.incomplete = false ∧
      (∀ ns' oid, b₁.Has (S3Store.markerKey ns' oid) ↔ b₂.Has (S3Store.markerKey ns' oid)) ∧
      (∀ oid, b₁.Has (S3Store.contentKey oid) ↔ b₂.Has (S3Store.contentKey oid)) ∧
      ∀ ns' oid n, b₁.Has (Sizes.key ns' oid n) ↔ b₂.Has (Sizes.key ns' oid n) := by
  have hlength := length_holding Oid.zeros [1] [Namespace.acme, Namespace.tools]
  rw [List.length_cons, List.length_cons, List.length_nil] at hlength
  have hpages : (holding Oid.zeros [1]
      [Namespace.acme, Namespace.tools]).objects.entries.length + 1 <
        (⟨.s3, 9⟩ : Keyspace).pages := by
    change _ < 9
    omega
  have hquiet : Quiet Provider.s3 (respondAlone .s3 1000) := respondAlone_quiet (by decide)
  have hquiet' : Quiet Provider.s3 (respondAlone .s3 2) := respondAlone_quiet (by decide)
  exact sweeps_agree hquiet hquiet' (sound_holding _ _ _).written
    (fun _ _ => reference_holding.trans marker_holding.symm) hpages Namespace.acme ∅ 0 false () ()

end Lfsx.Storage.Agree
