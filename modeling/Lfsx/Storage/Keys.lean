import Lfsx.Namespace

/-!
# The keys of a bucket

Everything a bucket holds is under a key that names what it is.

```
.content/{aa}/{bb}/{oid}                    the bytes of an object
{org}/{repo}/{aa}/{bb}/{oid}                a marker: the repository holds it
.refs/{oid}/{org}/{repo}                    its entry in the claim index
.refs/.complete                             the index covers every marker
{org}/{repo}/.sizes/{oid}.{size}            its entry in the size index
.incoming/{org}/{repo}/{aa}/{bb}/{oid}      an upload that was not adopted yet
.locks/{org}/{repo}/{id}.json               a lock
.lfsx/{name}                                what the console keeps
.probe/{what}-{suffix}                      what a startup probe wrote
```

`Key` is the type of what the server writes and `Key.text` the key it writes it
under.  Keys of different kinds or of different parts are different texts, since
the segments are read back from the text (`Key.segments_eq`).  The functions that
read a key (`fromMarker`, `Sizes.isOne`, `markerOid`) are given as the code has
them, on any text, with what they answer on the keys of the server.
-/

namespace Lfsx.Storage

open Lfsx.Path

/-! ## Formatting -/

namespace S3Store

def contentKey (oid : Oid) : Text :=
  joined [".content".toList, oid.fanout.1, oid.fanout.2, oid.text]

def incomingKey (ns : Namespace) (oid : Oid) : Text :=
  joined [".incoming".toList, ns.storedOrg, ns.storedRepo, oid.fanout.1, oid.fanout.2, oid.text]

def markerKey (ns : Namespace) (oid : Oid) : Text :=
  joined [ns.storedOrg, ns.storedRepo, oid.fanout.1, oid.fanout.2, oid.text]

def ownPrefix (ns : Namespace) : Text := under [ns.storedOrg, ns.storedRepo]

end S3Store

namespace Refs

def complete : Text := joined [".refs".toList, ".complete".toList]

def key (ns : Namespace) (oid : Oid) : Text :=
  joined [".refs".toList, oid.text, ns.storedOrg, ns.storedRepo]

def keyPrefix (oid : Oid) : Text := under [".refs".toList, oid.text]

/-- The reference of a marker, if the key is one. -/
def fromMarker (marker : Text) : Option Text :=
  match segments marker with
  | [org, repo, aa, bb, oid] =>
      if !Oid.wellFormed oid then none
      else if aa.isPrefixOf oid && bb.isPrefixOf (oid.drop 2) && !org.isEmpty && !repo.isEmpty then
        some (joined [".refs".toList, oid, org, repo])
      else none
  | _ => none

end Refs

/-- `String::into_bytes`. -/
def utf8Encode (text : Text) : Bytes := text.flatMap String.utf8EncodeChar

/-- `String::from_utf8`. -/
def utf8Decode (bytes : Bytes) : Option Text :=
  (String.fromUTF8? ⟨bytes.toArray⟩).map String.toList

theorem utf8Decode_utf8Encode (text : Text) : utf8Decode (utf8Encode text) = some text := by
  have hbytes : (⟨(utf8Encode text).toArray⟩ : ByteArray) = (String.ofList text).toByteArray := by
    apply ByteArray.ext
    simp [utf8Encode, List.utf8Encode]
  rw [utf8Decode, hbytes, String.fromUTF8?, dif_pos (String.ofList text).isValidUTF8,
    Option.map_some]
  exact congrArg some String.toList_ofList

/-- `format!("{n}")`. -/
def decimal (n : Nat) : Text := Nat.toDigits 10 n

theorem decimal_inj {m n : Nat} (h : decimal m = decimal n) : m = n := by
  have hread := congrArg (Nat.ofDigitChars 10 · 0) h
  simpa [decimal] using hread

theorem dot_not_mem_decimal (n : Nat) : '.' ∉ decimal n := by
  intro hdot
  exact absurd (Nat.isDigit_of_mem_toDigits (by decide) (by decide) hdot) (by decide)

theorem dot_not_mem_oid (oid : Oid) : '.' ∉ oid.text := by
  intro hdot
  exact absurd (Oid.isHexDigit_of_mem hdot) (by decide)

/-- `str::parse::<u64>`: digits, after a plus sign if there is one. -/
def parseU64 (t : Text) : Option Nat :=
  let digits := if t.head? = some '+' then t.drop 1 else t
  if digits.isEmpty || !digits.all Char.isDigit then none
  else
    let value := digits.foldl (fun v c => 10 * v + (c.toNat - 48)) 0
    if value ≤ maxU64 then some value else none

/-- `str::rsplit_once`: what stands before and after the last `c`. -/
def rsplitOnce (c : Char) (t : Text) : Option (Text × Text) :=
  if c ∈ t then
    some (((t.reverse.dropWhile (· != c)).drop 1).reverse, (t.reverse.takeWhile (· != c)).reverse)
  else none

namespace Sizes

def key (ns : Namespace) (oid : Oid) (size : Nat) : Text :=
  joined [ns.storedOrg, ns.storedRepo, ".sizes".toList, oid.text ++ '.' :: decimal size]

def isOne (key : Text) : Bool := containsSegment ".sizes".toList key

/-- The oid and the size a key carries. -/
def read (key : Text) : Option (Oid × Nat) :=
  match rsplitOnce '.' (last key) with
  | none => none
  | some (raw, size) =>
      match Oid.parse raw, parseU64 size with
      | .ok oid, some size => some (oid, size)
      | _, _ => none

end Sizes

/-- The oid a key ends in. -/
def markerOid (key : Text) : Option Oid := (Oid.parse (last key)).toOption

/-! ## What the server writes -/

/-- What the server writes into a bucket. -/
inductive Key where
  | marker (ns : Namespace) (oid : Oid)
  | reference (ns : Namespace) (oid : Oid)
  | content (oid : Oid)
  | incoming (ns : Namespace) (oid : Oid)
  | size (ns : Namespace) (oid : Oid) (size : Nat)
  | complete
  | lock (ns : Namespace) (id : { t : Text // Plain t })
  | console (name : { t : Text // Plain t ∧ Oid.wellFormed t = false })
  | probe (name : { t : Text // Plain t })

namespace Key

def segments : Key → List Text
  | marker ns oid => [ns.storedOrg, ns.storedRepo, oid.fanout.1, oid.fanout.2, oid.text]
  | reference ns oid => [".refs".toList, oid.text, ns.storedOrg, ns.storedRepo]
  | content oid => [".content".toList, oid.fanout.1, oid.fanout.2, oid.text]
  | incoming ns oid =>
      [".incoming".toList, ns.storedOrg, ns.storedRepo, oid.fanout.1, oid.fanout.2, oid.text]
  | size ns oid n => [ns.storedOrg, ns.storedRepo, ".sizes".toList, oid.text ++ '.' :: decimal n]
  | complete => [".refs".toList, ".complete".toList]
  | lock ns id => [".locks".toList, ns.storedOrg, ns.storedRepo, id.val ++ ".json".toList]
  | console name => [".lfsx".toList, name.val]
  | probe name => [".probe".toList, name.val]

/-- The key something is written under. -/
def text (k : Key) : Text := joined k.segments

/-- A key the server writes. -/
def Written (key : Text) : Prop := ∃ k : Key, key = k.text

theorem written (k : Key) : Written k.text := ⟨k, rfl⟩

theorem plain_oid (oid : Oid) : Plain oid.text := by
  intro h
  exact absurd (Oid.isHexDigit_of_mem h) (by decide)

theorem plain_fanout (oid : Oid) : Plain oid.fanout.1 ∧ Plain oid.fanout.2 :=
  ⟨fun h => plain_oid oid (List.mem_of_mem_take h),
    fun h => plain_oid oid (List.mem_of_mem_drop (List.mem_of_mem_take h))⟩

theorem plain_decimal (n : Nat) : Plain (decimal n) := by
  intro h
  exact absurd (Nat.isDigit_of_mem_toDigits (by decide) (by decide) h) (by decide)

theorem plain_append {s t : Text} (hs : Plain s) (ht : Plain t) : Plain (s ++ t) := by
  simp only [Plain, List.mem_append, not_or]
  exact ⟨hs, ht⟩

theorem plain_segments (k : Key) : ∀ s ∈ k.segments, Plain s := by
  intro s hs
  cases k with
  | marker ns oid =>
      simp only [segments, List.mem_cons, List.not_mem_nil, or_false] at hs
      rcases hs with rfl | rfl | rfl | rfl | rfl
      exacts [ns.plain_storedOrg, ns.plain_storedRepo, (plain_fanout oid).1, (plain_fanout oid).2,
        plain_oid oid]
  | reference ns oid =>
      simp only [segments, List.mem_cons, List.not_mem_nil, or_false] at hs
      rcases hs with rfl | rfl | rfl | rfl
      exacts [by decide, plain_oid oid, ns.plain_storedOrg, ns.plain_storedRepo]
  | content oid =>
      simp only [segments, List.mem_cons, List.not_mem_nil, or_false] at hs
      rcases hs with rfl | rfl | rfl | rfl
      exacts [by decide, (plain_fanout oid).1, (plain_fanout oid).2, plain_oid oid]
  | incoming ns oid =>
      simp only [segments, List.mem_cons, List.not_mem_nil, or_false] at hs
      rcases hs with rfl | rfl | rfl | rfl | rfl | rfl
      exacts [by decide, ns.plain_storedOrg, ns.plain_storedRepo, (plain_fanout oid).1,
        (plain_fanout oid).2, plain_oid oid]
  | size ns oid n =>
      have hdot : Plain ['.'] := by decide
      simp only [segments, List.mem_cons, List.not_mem_nil, or_false] at hs
      rcases hs with rfl | rfl | rfl | rfl
      exacts [ns.plain_storedOrg, ns.plain_storedRepo, by decide,
        plain_append (plain_oid oid) (plain_append hdot (plain_decimal n))]
  | complete =>
      simp only [segments, List.mem_cons, List.not_mem_nil, or_false] at hs
      rcases hs with rfl | rfl
      exacts [by decide, by decide]
  | lock ns id =>
      simp only [segments, List.mem_cons, List.not_mem_nil, or_false] at hs
      rcases hs with rfl | rfl | rfl | rfl
      exacts [by decide, ns.plain_storedOrg, ns.plain_storedRepo,
        plain_append id.property (by decide)]
  | console name =>
      simp only [segments, List.mem_cons, List.not_mem_nil, or_false] at hs
      rcases hs with rfl | rfl
      exacts [by decide, name.property.1]
  | probe name =>
      simp only [segments, List.mem_cons, List.not_mem_nil, or_false] at hs
      rcases hs with rfl | rfl
      exacts [by decide, name.property]

theorem segments_ne_nil (k : Key) : k.segments ≠ [] := by
  cases k <;> simp [segments]

/-- **A key is read back as its segments.** -/
theorem segments_text (k : Key) : Path.segments k.text = k.segments :=
  segments_joined k.plain_segments k.segments_ne_nil

theorem segments_eq {k l : Key} (h : k.text = l.text) : k.segments = l.segments := by
  rw [← segments_text, h, segments_text]

theorem last_text (k : Key) : last k.text = k.segments.getLast k.segments_ne_nil :=
  last_joined k.plain_segments k.segments_ne_nil

/-! ### Inversion

What is written under a key is known from the key, up to the spelling of the
namespace. -/

theorem storedOrg_ne (ns : Namespace) {t : Text} (h : t.head? = some '.') : ns.storedOrg ≠ t := by
  rintro rfl
  exact ns.undotted_storedOrg h

theorem eq_marker {k : Key} {ns : Namespace} {oid : Oid} (h : k.text = (marker ns oid).text) :
    ∃ ns', k = marker ns' oid ∧ ns'.Same ns := by
  have hs := segments_eq h
  cases k with
  | marker ns' oid' =>
      simp only [segments, List.cons.injEq, and_true] at hs
      obtain ⟨horg, hrepo, -, -, hoid⟩ := hs
      exact ⟨ns', by rw [Oid.ext hoid], horg, hrepo⟩
  | incoming ns' oid' => simp [segments] at hs
  | reference ns' oid' => simp [segments] at hs
  | content oid' => simp [segments] at hs
  | size ns' oid' n => simp [segments] at hs
  | complete => simp [segments] at hs
  | lock ns' id => simp [segments] at hs
  | console name => simp [segments] at hs
  | probe name => simp [segments] at hs

theorem eq_reference {k : Key} {ns : Namespace} {oid : Oid}
    (h : k.text = (reference ns oid).text) : ∃ ns', k = reference ns' oid ∧ ns'.Same ns := by
  have hs := segments_eq h
  cases k with
  | reference ns' oid' =>
      simp only [segments, List.cons.injEq, and_true, true_and] at hs
      obtain ⟨hoid, horg, hrepo⟩ := hs
      exact ⟨ns', by rw [Oid.ext hoid], horg, hrepo⟩
  | size ns' oid' n =>
      rw [segments, segments, List.cons.injEq] at hs
      exact absurd hs.1 (storedOrg_ne ns' rfl)
  | content oid' =>
      rw [segments, segments, List.cons.injEq] at hs
      exact absurd hs.1 (by decide)
  | lock ns' id =>
      rw [segments, segments, List.cons.injEq] at hs
      exact absurd hs.1 (by decide)
  | marker ns' oid' => simp [segments] at hs
  | incoming ns' oid' => simp [segments] at hs
  | complete => simp [segments] at hs
  | console name => simp [segments] at hs
  | probe name => simp [segments] at hs

theorem eq_content {k : Key} {oid : Oid} (h : k.text = (content oid).text) : k = content oid := by
  have hs := segments_eq h
  cases k with
  | content oid' =>
      simp only [segments, List.cons.injEq, and_true, true_and] at hs
      rw [Oid.ext hs.2.2]
  | size ns' oid' n =>
      rw [segments, segments, List.cons.injEq] at hs
      exact absurd hs.1 (storedOrg_ne ns' rfl)
  | reference ns' oid' =>
      rw [segments, segments, List.cons.injEq] at hs
      exact absurd hs.1 (by decide)
  | lock ns' id =>
      rw [segments, segments, List.cons.injEq] at hs
      exact absurd hs.1 (by decide)
  | marker ns' oid' => simp [segments] at hs
  | incoming ns' oid' => simp [segments] at hs
  | complete => simp [segments] at hs
  | console name => simp [segments] at hs
  | probe name => simp [segments] at hs

theorem eq_complete {k : Key} (h : k.text = complete.text) : k = complete := by
  have hs := segments_eq h
  cases k with
  | complete => rfl
  | console name =>
      rw [segments, segments, List.cons.injEq] at hs
      exact absurd hs.1 (by decide)
  | probe name =>
      rw [segments, segments, List.cons.injEq] at hs
      exact absurd hs.1 (by decide)
  | marker ns' oid' => simp [segments] at hs
  | reference ns' oid' => simp [segments] at hs
  | content oid' => simp [segments] at hs
  | incoming ns' oid' => simp [segments] at hs
  | size ns' oid' n => simp [segments] at hs
  | lock ns' id => simp [segments] at hs

theorem marker_eq_iff {ns ns' : Namespace} {oid oid' : Oid} :
    (marker ns oid).text = (marker ns' oid').text ↔ ns.Same ns' ∧ oid = oid' := by
  constructor
  · intro h
    obtain ⟨_, hk, hsame⟩ := eq_marker h
    cases hk
    exact ⟨hsame, rfl⟩
  · rintro ⟨⟨horg, hrepo⟩, rfl⟩
    rw [text, text, segments, segments, horg, hrepo]

theorem reference_eq_iff {ns ns' : Namespace} {oid oid' : Oid} :
    (reference ns oid).text = (reference ns' oid').text ↔ ns.Same ns' ∧ oid = oid' := by
  constructor
  · intro h
    obtain ⟨_, hk, hsame⟩ := eq_reference h
    cases hk
    exact ⟨hsame, rfl⟩
  · rintro ⟨⟨horg, hrepo⟩, rfl⟩
    rw [text, text, segments, segments, horg, hrepo]

theorem content_eq_iff {oid oid' : Oid} :
    (content oid).text = (content oid').text ↔ oid = oid' := by
  constructor
  · intro h
    cases eq_content h
    rfl
  · rintro rfl
    rfl

/-! Keys of two kinds differ. -/

theorem text_ne_marker {k : Key} (hk : ∀ ns oid, k ≠ marker ns oid) (ns : Namespace) (oid : Oid) :
    k.text ≠ (marker ns oid).text := by
  intro h
  obtain ⟨ns', rfl, -⟩ := eq_marker h
  exact hk ns' oid rfl

theorem text_ne_reference {k : Key} (hk : ∀ ns oid, k ≠ reference ns oid) (ns : Namespace)
    (oid : Oid) : k.text ≠ (reference ns oid).text := by
  intro h
  obtain ⟨ns', rfl, -⟩ := eq_reference h
  exact hk ns' oid rfl

theorem text_ne_content {k : Key} (hk : ∀ oid, k ≠ content oid) (oid : Oid) :
    k.text ≠ (content oid).text :=
  fun h => hk oid (eq_content h)

theorem text_ne_complete {k : Key} (hk : k ≠ complete) : k.text ≠ complete.text :=
  fun h => hk (eq_complete h)

/-! ### Listing under segments -/

/-- The first segment of a key. -/
def dir : Key → Text
  | marker ns _ => ns.storedOrg
  | reference _ _ => ".refs".toList
  | content _ => ".content".toList
  | incoming _ _ => ".incoming".toList
  | size ns _ _ => ns.storedOrg
  | complete => ".refs".toList
  | lock _ _ => ".locks".toList
  | console _ => ".lfsx".toList
  | probe _ => ".probe".toList

theorem segments_eq_dir (k : Key) : ∃ rest, rest ≠ [] ∧ k.segments = k.dir :: rest := by
  cases k <;> exact ⟨_, by simp, rfl⟩

/-- A key is in the directory of its first segment and in no other. -/
theorem dir_text {k : Key} {d : Text} (hd : Plain d) : under [d] <+: k.text ↔ k.dir = d := by
  obtain ⟨rest, hrest, hsegments⟩ := k.segments_eq_dir
  rw [text, under_joined (by simpa using hd) k.plain_segments, hsegments]
  constructor
  · rintro (h | ⟨rest', -, h⟩)
    · cases h
    · rw [List.cons_append, List.cons.injEq] at h
      exact h.1
  · rintro rfl
    exact Or.inr ⟨rest, hrest, rfl⟩

/-- The keys a listing of the references of an object returns. -/
theorem keyPrefix_text {k : Key} {oid : Oid} :
    Refs.keyPrefix oid <+: k.text ↔ ∃ ns, k = reference ns oid := by
  have hplain : ∀ p ∈ [".refs".toList, oid.text], Plain p := by
    intro p hp
    simp only [List.mem_cons, List.not_mem_nil, or_false] at hp
    rcases hp with rfl | rfl
    exacts [by decide, plain_oid oid]
  rw [Refs.keyPrefix, text, under_joined hplain k.plain_segments]
  constructor
  · rintro (h | ⟨rest, hrest, hs⟩)
    · cases h
    · cases k with
      | reference ns oid' =>
          simp only [segments, List.cons_append, List.cons.injEq, true_and] at hs
          exact ⟨ns, by rw [Oid.ext hs.1]⟩
      | complete =>
          simp only [segments, List.cons_append, List.cons.injEq, List.nil_append] at hs
          exact absurd hs.2.2.symm hrest
      | marker ns oid' =>
          rw [segments, List.cons_append, List.cons.injEq] at hs
          exact absurd hs.1 (storedOrg_ne ns rfl)
      | size ns oid' n =>
          rw [segments, List.cons_append, List.cons.injEq] at hs
          exact absurd hs.1 (storedOrg_ne ns rfl)
      | content oid' =>
          rw [segments, List.cons_append, List.cons.injEq] at hs
          exact absurd hs.1 (by decide)
      | incoming ns oid' =>
          rw [segments, List.cons_append, List.cons.injEq] at hs
          exact absurd hs.1 (by decide)
      | lock ns id =>
          rw [segments, List.cons_append, List.cons.injEq] at hs
          exact absurd hs.1 (by decide)
      | console name =>
          rw [segments, List.cons_append, List.cons.injEq] at hs
          exact absurd hs.1 (by decide)
      | probe name =>
          rw [segments, List.cons_append, List.cons.injEq] at hs
          exact absurd hs.1 (by decide)
  · rintro ⟨ns, rfl⟩
    exact Or.inr ⟨[ns.storedOrg, ns.storedRepo], by simp, rfl⟩

/-- The keys a listing of a repository's own keys returns. -/
theorem ownPrefix_text {k : Key} {ns : Namespace} :
    S3Store.ownPrefix ns <+: k.text ↔
      ∃ ns', ns'.Same ns ∧ ((∃ oid, k = marker ns' oid) ∨ ∃ oid n, k = size ns' oid n) := by
  have hplain : ∀ p ∈ [ns.storedOrg, ns.storedRepo], Plain p := by
    intro p hp
    simp only [List.mem_cons, List.not_mem_nil, or_false] at hp
    rcases hp with rfl | rfl
    exacts [ns.plain_storedOrg, ns.plain_storedRepo]
  rw [S3Store.ownPrefix, text, under_joined hplain k.plain_segments]
  constructor
  · rintro (h | ⟨rest, hrest, hs⟩)
    · cases h
    · cases k with
      | marker ns' oid' =>
          simp only [segments, List.cons_append, List.cons.injEq] at hs
          exact ⟨ns', ⟨hs.1, hs.2.1⟩, Or.inl ⟨oid', rfl⟩⟩
      | size ns' oid' n =>
          simp only [segments, List.cons_append, List.cons.injEq] at hs
          exact ⟨ns', ⟨hs.1, hs.2.1⟩, Or.inr ⟨oid', n, rfl⟩⟩
      | reference ns' oid' =>
          rw [segments, List.cons_append, List.cons.injEq] at hs
          exact absurd hs.1.symm (storedOrg_ne ns rfl)
      | complete =>
          rw [segments, List.cons_append, List.cons.injEq] at hs
          exact absurd hs.1.symm (storedOrg_ne ns rfl)
      | content oid' =>
          rw [segments, List.cons_append, List.cons.injEq] at hs
          exact absurd hs.1.symm (storedOrg_ne ns rfl)
      | incoming ns' oid' =>
          rw [segments, List.cons_append, List.cons.injEq] at hs
          exact absurd hs.1.symm (storedOrg_ne ns rfl)
      | lock ns' id =>
          rw [segments, List.cons_append, List.cons.injEq] at hs
          exact absurd hs.1.symm (storedOrg_ne ns rfl)
      | console name =>
          rw [segments, List.cons_append, List.cons.injEq] at hs
          exact absurd hs.1.symm (storedOrg_ne ns rfl)
      | probe name =>
          rw [segments, List.cons_append, List.cons.injEq] at hs
          exact absurd hs.1.symm (storedOrg_ne ns rfl)
  · rintro ⟨ns', ⟨horg, hrepo⟩, ⟨oid, rfl⟩ | ⟨oid, n, rfl⟩⟩
    · exact Or.inr ⟨[oid.fanout.1, oid.fanout.2, oid.text], by simp, by
        rw [segments, horg, hrepo]
        rfl⟩
    · exact Or.inr ⟨[".sizes".toList, oid.text ++ '.' :: decimal n], by simp, by
        rw [segments, horg, hrepo]
        rfl⟩

end Key

end Lfsx.Storage
