import Lfsx.Storage.CodecRoundTrip

/-!
# Reads that fail

`Framed.open` gets its bytes from a reader that may refuse a read, and a bucket
may return less than it was asked for.  `Reader.Over held` is every such reader
of a file.

`open` has one answer, `none`, for two cases: the file is an object as it is, or
the read of its header gave too little to tell.  So it does not always report a
failure, and `Object.open`, the end of `Store::open` and of `LocalStore::open`,
serves the stored bytes in both.  `ReadsReported` is what should hold, and
`readsReported_iff` says when it does: the header was read, and after it the key
was missing, or the index was refused, or everything was read in full.
-/

namespace Lfsx.Storage

open Request Codec

/-! ## What a download is given -/

/-- What a store hands to a download: a decoder, or the stored bytes as they are. -/
inductive Object where
  | framed (f : Framed)
  | raw (size : Nat)
deriving DecidableEq

/-- The end of `Store::open` and of `LocalStore::open`: what is not a container is
served as it is stored. -/
def Object.open (crates : Crates) (onDisk : Nat) (keys : Option (Keyring crates)) (oid : Oid) :
    Reading (Except Error Object) := do
  match ← Framed.open crates onDisk keys oid with
  | .error e => pure (.error e)
  | .ok (some f) => pure (.ok (.framed f))
  | .ok none => pure (.ok (.raw onDisk))

theorem Object.run_open {crates : Crates} (reader : ReadAt → Except Error Bytes) (onDisk : Nat)
    (keys : Option (Keyring crates)) (oid : Oid) :
    (Object.open crates onDisk keys oid).run reader =
      ((Framed.open crates onDisk keys oid).run reader).map fun opened =>
        match opened with
        | some f => .framed f
        | none => .raw onDisk := by
  rw [Object.open, Reading.run_bind]
  cases (Framed.open crates onDisk keys oid).run reader with
  | error e => rfl
  | ok opened => cases opened <;> rfl

/-! ## Readers that fail -/

namespace Reader

/-- A reader of `held` that may refuse a read or cut it short.  A read of no bytes
may return one: a bucket has no range without a byte. -/
def Over (held : Bytes) (reader : ReadAt → Except Error Bytes) : Prop :=
  ∀ r bytes, reader r = .ok bytes → bytes <+: slice held r.offset (max r.length 1)

/-- A reader whose connection drops at some of the reads. -/
def dropping (drops : ReadAt → Bool) (reader : ReadAt → Except Error Bytes) (r : ReadAt) :
    Except Error Bytes :=
  if drops r then .error (.storage "connection reset") else reader r

theorem Over.dropping {held : Bytes} {reader : ReadAt → Except Error Bytes}
    (hover : Over held reader) (drops : ReadAt → Bool) : Over held (dropping drops reader) := by
  intro r bytes h
  rw [Reader.dropping] at h
  split at h
  · cases h
  · exact hover r bytes h

/-- A read that returned all it was asked for. -/
def Complete (held : Bytes) (reader : ReadAt → Except Error Bytes) (r : ReadAt) : Prop :=
  reader r = .ok (slice held r.offset r.length)

theorem slice_cut (held : Bytes) (offset : Nat) {n m : Nat} (h : n ≤ m) :
    slice held offset n <+: slice held offset m := by
  have hmin : (slice held offset m).take n = slice held offset n := by
    rw [slice, slice, List.take_take, Nat.min_eq_left h]
  rw [← hmin]
  exact List.take_prefix n _

/-- A file is such a reader, -/
theorem over_file (held : Bytes) : Over held (file held) := by
  intro r bytes h
  rw [file] at h
  split at h
  · cases h
    exact slice_cut held r.offset (by omega)
  · cases h

/-- and so is a key of a bucket. -/
theorem over_bucket (held : Bytes) : Over held (bucket held) := by
  intro r bytes h
  rw [bucket, byteRange] at h
  split at h
  · cases h
    have hlength : r.offset + (r.length - 1) + 1 - r.offset = max r.length 1 := by omega
    rw [hlength]
  · cases h

end Reader

/-! ## A header cut short -/

namespace Header

theorem slice_of_cut {short bytes : Bytes} (h : short <+: bytes) {o n : Nat}
    (hlen : o + n ≤ short.length) : slice short o n = slice bytes o n := by
  obtain ⟨rest, rfl⟩ := h
  rw [slice_append_left hlen]

theorem getD_of_cut {short bytes : Bytes} (h : short <+: bytes) {i : Nat}
    (hi : i < short.length) : short.getD i 0 = bytes.getD i 0 := by
  obtain ⟨rest, rfl⟩ := h
  rw [List.getD_append _ _ _ _ hi]

theorem parse_of_cut {short bytes : Bytes} (h : short <+: bytes) (hlen : 32 ≤ short.length) :
    parse short = parse bytes := by
  simp only [parse, getD_of_cut h (show 4 < short.length by omega),
    slice_of_cut h (show 8 + 8 ≤ short.length by omega),
    slice_of_cut h (show 16 + 4 ≤ short.length by omega),
    slice_of_cut h (show 20 + 4 ≤ short.length by omega),
    slice_of_cut h (show 24 + 8 ≤ short.length by omega)]

theorem begins_of_cut {short bytes : Bytes} (h : short <+: bytes)
    (hbegins : begins bytes = true) : begins short = decide (header ≤ short.length) := by
  rw [begins]
  by_cases hlen : header ≤ short.length
  · have h32 : 32 ≤ short.length := hlen
    simp only [begins, Bool.and_eq_true] at hbegins
    rw [getD_of_cut h (show 4 < short.length by omega),
      slice_of_cut h (show 0 + 4 ≤ short.length by omega), hbegins.2, hbegins.1.2]
    simp
  · simp [hlen]

/-- A header is accepted as far as it was read. -/
theorem accept_of_cut {short bytes : Bytes} {onDisk : Nat} {h : Header}
    (hcut : short <+: bytes) (haccept : accept bytes onDisk = some h) :
    accept short onDisk = if headerLen h.version ≤ short.length then some h else none := by
  obtain ⟨hbegins, hparse, hagrees⟩ := accept_eq_some haccept
  have hlen := Piece.le_headerLen h.version
  rw [accept, begins_of_cut hcut hbegins]
  by_cases h32 : 32 ≤ short.length
  · rw [parse_of_cut hcut h32, ← hparse]
    simp only [agrees, Bool.and_eq_true, decide_eq_true_eq] at hagrees
    simp only [agrees, hagrees.1.1.1, hagrees.1.1.2, hagrees.1.2, decide_true, Bool.true_and,
      show header ≤ short.length from h32, decide_eq_true_eq]
  · have hheader : ¬ header ≤ short.length := h32
    rw [decide_eq_false hheader, Bool.false_and, if_neg (by simp), if_neg (by omega)]

end Header

/-! ## Opening a container through a reader that fails -/

namespace Framed

variable {crates : Crates} {held : Bytes} {reader : ReadAt → Except Error Bytes}

/-- What the first read of `open` gave. -/
def headerRead (held : Bytes) (reader : ReadAt → Except Error Bytes) : Bytes :=
  (reader ⟨0, min sealedHeader held.length⟩).toOption.getD []

theorem headerRead_cut (hover : Reader.Over held reader) (hlen : header ≤ held.length) :
    headerRead held reader <+: prefixOf held := by
  rw [headerRead]
  cases hread : reader ⟨0, min sealedHeader held.length⟩ with
  | error e => exact List.nil_prefix
  | ok bytes =>
      have hcut := hover _ _ hread
      have hmax : max (min sealedHeader held.length) 1 = min sealedHeader held.length := by
        have : 32 ≤ held.length := hlen
        rw [sealedHeader]
        omega
      rwa [hmax] at hcut

theorem keyOf_of_cut {short : Bytes} {h : Header} {keys : Option (Keyring crates)}
    (hcut : short <+: prefixOf held) (hlen : headerLen h.version ≤ short.length) :
    keyOf crates h short keys = keyOf crates h (prefixOf held) keys := by
  by_cases hsealed : h.version = vSealed
  · have h64 : 64 ≤ short.length := by
      simpa [headerLen, hsealed, sealedHeader] using hlen
    have hle : (prefixOf held).length ≤ short.length := by
      rw [length_prefixOf, sealedHeader]
      omega
    rw [hcut.eq_of_length_le hle]
  · rw [keyOf, keyOf, if_neg hsealed, if_neg hsealed]

/-- **Opening a container.**  What was read of its header decides whether it is
taken for one. -/
theorem run_open_of_header {h : Header} (hover : Reader.Over held reader)
    (hh : Container.header? held = some h) (keys : Option (Keyring crates)) (oid : Oid) :
    (Framed.open crates held.length keys oid).run reader =
      if headerLen h.version ≤ (headerRead held reader).length then
        match keyOf crates h (prefixOf held) keys with
        | .error e => .error e
        | .ok key => (reader ⟨h.index, h.indexed⟩).map (ofIndex h key oid)
      else .ok none := by
  obtain ⟨hlen, haccept⟩ := Container.header?_eq_some hh
  have hcut := headerRead_cut hover hlen
  rw [run_open, if_neg (by omega), ← headerRead, openAfter,
    Header.accept_of_cut hcut haccept]
  by_cases hheard : headerLen h.version ≤ (headerRead held reader).length
  · cases hkey : keyOf crates h (prefixOf held) keys with
    | error e => simp only [if_pos hheard, keyOf_of_cut hcut hheard, hkey]
    | ok key => simp only [if_pos hheard, keyOf_of_cut hcut hheard, hkey]
  · simp only [if_neg hheard]

end Framed

/-- A reader reports its failures: `open` takes a file for an object only if it is
not a container, so that a download is never given the stored bytes of one, and a
read of a container that did not return all it was asked for is an error. -/
structure ReadsReported (crates : Crates) (held : Bytes) (reader : ReadAt → Except Error Bytes)
    (keys : Option (Keyring crates)) (oid : Oid) : Prop where
  object : (Framed.open crates held.length keys oid).run reader = .ok none → ¬ Container held
  served : ∀ size, (Object.open crates held.length keys oid).run reader = .ok (.raw size) →
    ¬ Container held
  refused : ∀ h, Container.header? held = some h → Container.Filled held h →
    ¬ (Reader.Complete held reader ⟨0, min sealedHeader held.length⟩ ∧
      Reader.Complete held reader ⟨h.index, h.indexed⟩) →
    ∃ e, (Framed.open crates held.length keys oid).run reader = .error e

/-- When a failing read of a container is reported: the bytes read cover its
header, and then its key is missing, or the read of its index is refused, or both
reads return all they were asked for. -/
def ReadsSuffice (crates : Crates) (held : Bytes) (reader : ReadAt → Except Error Bytes)
    (keys : Option (Keyring crates)) (h : Header) : Prop :=
  headerLen h.version ≤ (Framed.headerRead held reader).length ∧
    ((∃ e, Framed.keyOf crates h (prefixOf held) keys = .error e) ∨
      (∃ e, reader ⟨h.index, h.indexed⟩ = .error e) ∨
      Reader.Complete held reader ⟨0, min sealedHeader held.length⟩ ∧
        Reader.Complete held reader ⟨h.index, h.indexed⟩)

section Reported

variable {crates : Crates} {held : Bytes} {reader : ReadAt → Except Error Bytes}
  {keys : Option (Keyring crates)} {oid : Oid} {h : Header}

/-- A read that suffices is an error or opens the container. -/
theorem ReadsSuffice.open (hsuffice : ReadsSuffice crates held reader keys h) (oid : Oid)
    (hover : Reader.Over held reader) (hh : Container.header? held = some h)
    (hfilled : Container.Filled held h) :
    (∃ e, (Framed.open crates held.length keys oid).run reader = .error e) ∨
      (∃ f, (Framed.open crates held.length keys oid).run reader = .ok (some f)) ∧
      Reader.Complete held reader ⟨0, min sealedHeader held.length⟩ ∧
        Reader.Complete held reader ⟨h.index, h.indexed⟩ := by
  obtain ⟨hheard, hrest⟩ := hsuffice
  rw [Framed.run_open_of_header hover hh, if_pos hheard]
  cases hkey : Framed.keyOf crates h (prefixOf held) keys with
  | error e => exact Or.inl ⟨e, rfl⟩
  | ok key =>
      rcases hrest with ⟨e, he⟩ | ⟨e, he⟩ | ⟨hheader, hindex⟩
      · rw [hkey] at he
        cases he
      · exact Or.inl ⟨e, by rw [he]; rfl⟩
      · refine Or.inr ⟨?_, hheader, hindex⟩
        cases hofIndex : Framed.ofIndex h key oid (slice held h.index h.indexed) with
        | none => exact absurd hfilled ((Framed.ofIndex_eq_none_iff held h key oid).mp hofIndex)
        | some f =>
            refine ⟨f, ?_⟩
            have hread : reader ⟨h.index, h.indexed⟩ = .ok (slice held h.index h.indexed) := hindex
            simp only [hread, Except.map, hofIndex]

/-- **When reads are reported.**  Over every reader of a file that may refuse a
read or cut it short, a failure is reported if and only if the file is not a
container or the reads suffice. -/
theorem readsReported_iff (hover : Reader.Over held reader) :
    ReadsReported crates held reader keys oid ↔
      ∀ h, Container.header? held = some h → Container.Filled held h →
        ReadsSuffice crates held reader keys h := by
  constructor
  · rintro ⟨hobject, -, hrefused⟩ h hh hfilled
    have hopen := Framed.run_open_of_header hover hh keys oid
    by_cases hheard : headerLen h.version ≤ (Framed.headerRead held reader).length
    · refine ⟨hheard, ?_⟩
      rw [if_pos hheard] at hopen
      cases hkey : Framed.keyOf crates h (prefixOf held) keys with
      | error e => exact Or.inl ⟨e, rfl⟩
      | ok key =>
          rw [hkey] at hopen
          cases hindex : reader ⟨h.index, h.indexed⟩ with
          | error e => exact Or.inr (Or.inl ⟨e, rfl⟩)
          | ok lengths =>
              -- `open` answered, so a read that came back short went unreported.
              rw [hindex] at hopen
              refine Or.inr (Or.inr (not_not.mp fun hshort => ?_))
              obtain ⟨e, he⟩ := hrefused h hh hfilled hshort
              rw [hopen] at he
              cases he
    · rw [if_neg hheard] at hopen
      exact absurd ⟨h, hh, hfilled⟩ (hobject hopen)
  · intro hsuffice
    have hcontainer : ∀ h, Container.header? held = some h → Container.Filled held h → _ :=
      fun h hh hfilled => (hsuffice h hh hfilled).open oid hover hh hfilled
    have hobject : (Framed.open crates held.length keys oid).run reader = .ok none →
        ¬ Container held := by
      rintro hopen ⟨h, hh, hfilled⟩
      rcases hcontainer h hh hfilled with ⟨e, he⟩ | ⟨⟨f, hf⟩, -⟩
      · rw [hopen] at he
        cases he
      · rw [hopen] at hf
        cases hf
    refine ⟨hobject, fun size hraw => hobject ?_, fun h hh hfilled hshort => ?_⟩
    · rw [Object.run_open] at hraw
      cases hopen : (Framed.open crates held.length keys oid).run reader with
      | error e => rw [hopen] at hraw; cases hraw
      | ok opened =>
          rw [hopen] at hraw
          cases opened with
          | none => rfl
          | some f => cases hraw
    · rcases hcontainer h hh hfilled with herror | ⟨-, hcomplete⟩
      · exact herror
      · exact absurd hcomplete hshort

end Reported

/-- A plain container of one byte, in one frame that is not compressed. -/
def oneByte : Bytes := Piece.container none 1 [⟨[0x78], true⟩]

theorem header?_oneByte : Container.header? oneByte = some ⟨vPlain, 1, frame, 1, 33⟩ := by decide

/-- The read of its index is refused, which `open` reports. -/
theorem readsReported_index_refused :
    ReadsReported Crates.plain oneByte
      (Reader.dropping (fun r => r.offset == 33) (Reader.bucket oneByte)) none Oid.zeros := by
  apply (readsReported_iff ((Reader.over_bucket oneByte).dropping _)).mpr
  intro h hh _
  rw [header?_oneByte] at hh
  cases hh
  exact ⟨by decide, Or.inr (Or.inl ⟨.storage "connection reset", rfl⟩)⟩

/-- **The read of its header is refused, and the container is served as an object.** -/
theorem readsReported_header_refused :
    let reader := Reader.dropping (fun r => r.offset == 0) (Reader.bucket oneByte)
    Reader.Over oneByte reader ∧ Container oneByte ∧
      (Object.open Crates.plain oneByte.length none Oid.zeros).run reader = .ok (.raw 37) ∧
      ¬ ReadsReported Crates.plain oneByte reader none Oid.zeros := by
  intro reader
  have hcontainer : Container oneByte := by decide
  have hserved : (Object.open Crates.plain oneByte.length none Oid.zeros).run reader =
      .ok (.raw 37) := by
    rw [Object.run_open, Framed.run_open]
    rfl
  refine ⟨(Reader.over_bucket oneByte).dropping _, hcontainer, hserved, fun hreported => ?_⟩
  exact hreported.served 37 hserved hcontainer

end Lfsx.Storage
