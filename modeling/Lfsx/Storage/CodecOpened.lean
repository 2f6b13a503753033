import Lfsx.Storage.CodecWritten

/-!
# What a reader opens

`Framed.open` is two reads and some arithmetic.  `Framed.run_open` states it as
one equation, over any reader: what the first read returned decides whether the
file is a container, and what the second returned is its index.

`Container` is the property the arithmetic decides, on the stored bytes
alone: a header that agrees with the length of the file, and an index whose
lengths fill the space before it.  It names no read, so it is what "this file is
a container" means when a read fails.  On a reader that answers in full, `open`
refuses exactly the files that are not containers (`Framed.open_file_none`).

The containers a writer writes are among them, with the fields it put there
(`Framed.open_container`).
-/

namespace Lfsx.Storage

open Request Codec

/-! ## Running a reading program -/

namespace Reading

variable {α β : Type} (reader : ReadAt → Except Error Bytes)

@[simp] theorem run_pure (a : α) : Reading.run (Program.pure a) reader = a := rfl

@[simp] theorem run_bind (p : Reading α) (f : α → Reading β) :
    Reading.run (p >>= f) reader = (f (p.run reader)).run reader := by
  rw [Reading.run, Program.eval_bind]
  rfl

@[simp] theorem run_readAt (offset length : Nat) :
    Reading.run (readAt offset length) reader = reader ⟨offset, length⟩ := rfl

end Reading

namespace Reader

/-- A read inside the file returns the bytes there. -/
theorem file_of_le {held : Bytes} {offset length : Nat} (h : offset + length ≤ held.length) :
    file held ⟨offset, length⟩ = .ok (slice held offset length) := by
  rw [file, if_pos (Or.inr h)]

/-- A ranged request of at least one byte inside the object returns the bytes there. -/
theorem bucket_of_le {held : Bytes} {offset length : Nat} (hpos : 0 < length)
    (h : offset + length ≤ held.length) :
    bucket held ⟨offset, length⟩ = .ok (slice held offset length) := by
  have hlast : offset + (length - 1) + 1 - offset = length := by omega
  rw [bucket, byteRange, if_pos (by show offset < held.length; omega)]
  exact congrArg (fun n => Except.ok (slice held offset n)) hlast

end Reader

/-! ## Opening, as one equation -/

namespace Framed

variable (crates : Crates)

/-- What `open` answers once it has its first read. -/
def openAfter (reader : ReadAt → Except Error Bytes) (onDisk : Nat)
    (keys : Option (Keyring crates)) (oid : Oid) (bytes : Bytes) :
    Except Error (Option Framed) :=
  match Header.accept bytes onDisk with
  | none => .ok none
  | some h =>
      match keyOf crates h bytes keys with
      | .error e => .error e
      | .ok key => (reader ⟨h.index, h.indexed⟩).map (ofIndex h key oid)

variable {crates}

theorem run_open (reader : ReadAt → Except Error Bytes) (onDisk : Nat)
    (keys : Option (Keyring crates)) (oid : Oid) :
    (Framed.open crates onDisk keys oid).run reader =
      if onDisk < header then .ok none
      else openAfter crates reader onDisk keys oid
        ((reader ⟨0, min sealedHeader onDisk⟩).toOption.getD []) := by
  unfold Framed.open openAfter
  split
  · rfl
  · simp only [Reading.run_bind, Reading.run_readAt]
    cases Header.accept ((reader ⟨0, min sealedHeader onDisk⟩).toOption.getD []) onDisk with
    | none => rfl
    | some h =>
        simp only
        cases keyOf crates h ((reader ⟨0, min sealedHeader onDisk⟩).toOption.getD []) keys with
        | error e => rfl
        | ok key =>
            simp only [Reading.run_bind, Reading.run_readAt]
            cases reader ⟨h.index, h.indexed⟩ <;> rfl

end Framed

/-! ## Containers -/

/-- The first bytes of a file, as `open` reads them. -/
def prefixOf (held : Bytes) : Bytes := slice held 0 (min sealedHeader held.length)

theorem length_prefixOf (held : Bytes) :
    (prefixOf held).length = min sealedHeader held.length := by
  rw [prefixOf, length_slice]
  omega

/-- The header of a container. -/
def Container.header? (held : Bytes) : Option Header :=
  if held.length < header then none else Header.accept (prefixOf held) held.length

/-- The lengths in the index at `h` fill the space between the header and the index. -/
def Container.Filled (held : Bytes) (h : Header) : Prop :=
  headerLen h.version + ((Framed.entries (slice held h.index h.indexed)).map lengthOf).sum = h.index

instance (held : Bytes) (h : Header) : Decidable (Container.Filled held h) :=
  inferInstanceAs (Decidable (_ = _))

/-- The stored bytes are laid out as a container. -/
def Container (held : Bytes) : Prop :=
  ∃ h, Container.header? held = some h ∧ Container.Filled held h

instance (held : Bytes) : Decidable (Container held) :=
  match hh : Container.header? held with
  | none => .isFalse fun ⟨h, heq, _⟩ => by rw [hh] at heq; cases heq
  | some h =>
      if hf : Container.Filled held h then .isTrue ⟨h, hh, hf⟩
      else .isFalse fun ⟨h', heq, hf'⟩ => by
        rw [hh] at heq
        cases heq
        exact hf hf'

namespace Header

theorem accept_eq_some {bytes : Bytes} {onDisk : Nat} {h : Header}
    (haccept : accept bytes onDisk = some h) :
    begins bytes = true ∧ h = parse bytes ∧ agrees h bytes.length onDisk = true := by
  rw [accept] at haccept
  split at haccept
  case isTrue hall =>
    cases haccept
    rw [Bool.and_eq_true] at hall
    exact ⟨hall.1, rfl, hall.2⟩
  case isFalse => cases haccept

theorem frames_parse_lt (bytes : Bytes) : (parse bytes).frames < 2 ^ 32 := by
  have hlt := fromLe_lt (slice bytes 20 4)
  have hlen : (slice bytes 20 4).length ≤ 4 := by
    rw [length_slice]
    omega
  calc (parse bytes).frames = fromLe (slice bytes 20 4) := rfl
    _ < 256 ^ (slice bytes 20 4).length := hlt
    _ ≤ 256 ^ 4 := Nat.pow_le_pow_right (by decide) hlen
    _ = 2 ^ 32 := by decide

/-- Four bytes a frame, and no more frames than a `u32` counts. -/
theorem indexed_parse (bytes : Bytes) : (parse bytes).indexed = 4 * (parse bytes).frames := by
  have hlt := frames_parse_lt bytes
  rw [indexed, saturatingMul, Nat.mul_comm, Nat.min_eq_left]
  rw [maxU64]
  omega

end Header

theorem Container.header?_eq_some {held : Bytes} {h : Header}
    (hh : Container.header? held = some h) :
    header ≤ held.length ∧ Header.accept (prefixOf held) held.length = some h := by
  rw [Container.header?] at hh
  split at hh
  · cases hh
  · exact ⟨by omega, hh⟩

/-- The index of a container is inside the file. -/
theorem Container.index_le {held : Bytes} {h : Header} (hsize : held.length < maxU64)
    (hh : Container.header? held = some h) : h.index + h.indexed = held.length := by
  obtain ⟨-, haccept⟩ := Container.header?_eq_some hh
  obtain ⟨-, -, hagrees⟩ := Header.accept_eq_some haccept
  simp only [Header.agrees, Bool.and_eq_true, beq_iff_eq, saturatingAdd] at hagrees
  omega

namespace Framed

variable {crates : Crates}

/-- The first read of `open` on a file. -/
theorem file_prefixOf (held : Bytes) :
    ((Reader.file held ⟨0, min sealedHeader held.length⟩).toOption.getD []) = prefixOf held := by
  rw [Reader.file_of_le (by omega)]
  rfl

theorem open_file (held : Bytes) (keys : Option (Keyring crates)) (oid : Oid) :
    (Framed.open crates held.length keys oid).run (Reader.file held) =
      match Container.header? held with
      | none => .ok none
      | some h =>
          match keyOf crates h (prefixOf held) keys with
          | .error e => .error e
          | .ok key => (Reader.file held ⟨h.index, h.indexed⟩).map (ofIndex h key oid) := by
  rw [run_open, file_prefixOf, Container.header?]
  split
  · rfl
  · rfl

theorem ofIndex_eq_none_iff (held : Bytes) (h : Header) (key : Option ObjectKey) (oid : Oid) :
    ofIndex h key oid (slice held h.index h.indexed) = none ↔ ¬ Container.Filled held h := by
  simp only [ofIndex, Container.Filled]
  split
  case isTrue hf => simp [hf]
  case isFalse hf => simp [hf]

/-- **On a file, `open` takes a file for an object only if it is not a container.** -/
theorem open_file_none {held : Bytes} (hsize : held.length < maxU64)
    {keys : Option (Keyring crates)} {oid : Oid}
    (h : (Framed.open crates held.length keys oid).run (Reader.file held) = .ok none) :
    ¬ Container held := by
  rintro ⟨hd, hh, hfilled⟩
  rw [open_file, hh] at h
  simp only at h
  cases hkey : keyOf crates hd (prefixOf held) keys with
  | error e => rw [hkey] at h; cases h
  | ok key =>
      have hle := Container.index_le hsize hh
      rw [hkey, Reader.file_of_le (by omega)] at h
      have hnone : ofIndex hd key oid (slice held hd.index hd.indexed) = none :=
        Except.ok.inj h
      exact (ofIndex_eq_none_iff held hd key oid).mp hnone hfilled

/-- A file that is not a container is opened as one by no key, unless the key is
missing: the header may promise a sealed container the index does not keep. -/
theorem open_file_of_not_header {held : Bytes} (hno : Container.header? held = none)
    (keys : Option (Keyring crates)) (oid : Oid) :
    (Framed.open crates held.length keys oid).run (Reader.file held) = .ok none := by
  rw [open_file, hno]

end Framed

/-! ## The containers of a writer -/

namespace Piece

/-- The pieces fit the words of the format. -/
structure Fits (plaintext : Nat) (ps : List Piece) : Prop where
  short : ∀ p ∈ ps, p.body.length < 2 ^ 31
  count : ps.length = divCeil plaintext frame
  frames : ps.length < 2 ^ 32

/-- The empty object has no pieces. -/
theorem fits_nil : Fits 0 [] := ⟨by simp, rfl, by decide⟩

theorem sum_words {ps : List Piece} (h : ∀ p ∈ ps, p.body.length < 2 ^ 31) :
    (ps.map fun p => lengthOf p.word).sum = (bodies ps).length := by
  induction ps with
  | nil => rfl
  | cons p ps ih =>
      rw [List.map_cons, List.sum_cons, lengthOf_word (h p List.mem_cons_self),
        ih fun q hq => h q (List.mem_cons_of_mem _ hq), bodies_cons, List.length_append]

theorem length_fixedHeader (version : UInt8) (plaintext frameSize frames index : Nat) :
    (fixedHeader version plaintext frameSize frames index).length = 32 := by
  simp [fixedHeader, magic]

theorem length_sealing (key : Option ObjectKey) :
    32 + (sealing key).length = headerLen (versionOf key) := by
  cases key with
  | none => rfl
  | some key => simp [sealing, versionOf, headerLen, key.id.property, key.salt.property,
      Crypt.id, Crypt.salt, sealedHeader]

theorem divCeil_le {a b : Nat} (hb : 0 < b) : a ≤ divCeil a b * b := by
  have hdiv := Nat.div_add_mod a b
  have hmod := Nat.mod_lt a hb
  rw [divCeil]
  split
  · rw [Nat.mul_comm]
    omega
  · rw [Nat.succ_mul, Nat.mul_comm]
    omega

theorem mul_lt_of_lt_divCeil {a b k : Nat} (hk : k < divCeil a b) : k * b < a := by
  rw [divCeil] at hk
  have hdiv := Nat.div_add_mod a b
  split at hk
  case isTrue hmod =>
    have := Nat.mul_le_mul_left b hk
    rw [Nat.mul_comm k b]
    rcases Nat.eq_zero_or_pos b with rfl | hb
    · simp at hk
    · rw [Nat.mul_succ] at this
      omega
  case isFalse hmod =>
    have := Nat.mul_le_mul_left b (Nat.le_of_lt_succ hk)
    rw [Nat.mul_comm k b]
    omega

theorem Fits.plaintext_lt {plaintext : Nat} {ps : List Piece} (h : Fits plaintext ps) :
    plaintext < 2 ^ 64 := by
  have hle := divCeil_le (a := plaintext) (b := frame) (by decide)
  rw [← h.count] at hle
  have hframes := h.frames
  have hmul : ps.length * frame ≤ 2 ^ 32 * frame := Nat.mul_le_mul_right _ (by omega)
  have hframe : 2 ^ 32 * frame < 2 ^ 64 := by decide
  omega

theorem Fits.length_bodies {plaintext : Nat} {ps : List Piece} (h : Fits plaintext ps) :
    (bodies ps).length ≤ 2 ^ 31 * ps.length := by
  have hbodies := h.short
  clear h
  induction ps with
  | nil => simp
  | cons p ps ih =>
      have hp := hbodies p List.mem_cons_self
      have hps := ih fun q hq => hbodies q (List.mem_cons_of_mem _ hq)
      rw [bodies_cons, List.length_append, List.length_cons]
      omega

theorem Fits.indexAt_eq {plaintext : Nat} {ps : List Piece} (h : Fits plaintext ps)
    (key : Option ObjectKey) :
    indexAt key ps = headerLen (versionOf key) + (bodies ps).length := by
  rw [indexAt, sum_words h.short]

theorem headerLen_le (version : UInt8) : headerLen version ≤ 64 := by
  rw [headerLen]
  split <;> decide

theorem le_headerLen (version : UInt8) : 32 ≤ headerLen version := by
  rw [headerLen]
  split <;> decide

theorem Fits.indexAt_lt {plaintext : Nat} {ps : List Piece} (h : Fits plaintext ps)
    (key : Option ObjectKey) : indexAt key ps + 4 * ps.length < maxU64 := by
  have hbodies := h.length_bodies
  have hframes := h.frames
  have hhead := headerLen_le (versionOf key)
  rw [h.indexAt_eq, maxU64]
  omega

theorem Fits.length_container {plaintext : Nat} {ps : List Piece} (h : Fits plaintext ps)
    (key : Option ObjectKey) :
    (container key plaintext ps).length = indexAt key ps + 4 * ps.length := by
  rw [h.indexAt_eq, ← length_sealing]
  simp only [container, List.length_append, length_fixedHeader, length_index]

theorem Fits.length_container_lt {plaintext : Nat} {ps : List Piece} (h : Fits plaintext ps)
    (key : Option ObjectKey) : (container key plaintext ps).length < maxU64 := by
  rw [h.length_container]
  exact h.indexAt_lt key

/-! ### The header read back -/

section Fields

variable {version : UInt8} {plaintext frameSize frames index : Nat} (rest : Bytes)

/-- The fixed header, byte by byte as far as the version. -/
theorem fixedHeader_append_eq :
    fixedHeader version plaintext frameSize frames index ++ rest =
      [0x4c, 0x46, 0x5a, 0x31, version, 0, 0, 0] ++ leBytes 8 plaintext ++
        (leBytes 4 frameSize ++ leBytes 4 frames ++ leBytes 8 index ++ rest) := by
  simp [fixedHeader, magic]

/-- The first 32 bytes of a file decide what `parse` reads. -/
theorem parse_fixedHeader {n : Nat} (hn : 32 ≤ n) (hplaintext : plaintext < 2 ^ 64)
    (hframe : frameSize < 2 ^ 32) (hframes : frames < 2 ^ 32) (hindex : index < 2 ^ 64) :
    Header.parse (slice (fixedHeader version plaintext frameSize frames index ++ rest) 0 n) =
      ⟨version, plaintext, frameSize, frames, index⟩ := by
  set held := fixedHeader version plaintext frameSize frames index ++ rest with hheld
  have hsub : ∀ o k, o + k ≤ n → slice (slice held 0 n) o k = slice held o k := fun o k h => by
    rw [slice_slice h, Nat.zero_add]
  have hversion : (slice held 0 n).getD 4 0 = version := by
    rw [slice, List.drop_zero, List.getD_eq_getElem?_getD, List.getElem?_take_of_lt (by omega),
      hheld, fixedHeader_append_eq]
    rfl
  have h8 : slice held 8 8 = leBytes 8 plaintext := by
    rw [hheld, fixedHeader_append_eq]
    simpa using slice_append_exact [0x4c, 0x46, 0x5a, 0x31, version, 0, 0, 0]
      (leBytes 8 plaintext) _
  have h16 : slice held 16 4 = leBytes 4 frameSize := by
    have := slice_append_exact ([0x4c, 0x46, 0x5a, 0x31, version, 0, 0, 0] ++ leBytes 8 plaintext)
      (leBytes 4 frameSize) (leBytes 4 frames ++ leBytes 8 index ++ rest)
    rw [hheld, fixedHeader_append_eq]
    simpa using this
  have h20 : slice held 20 4 = leBytes 4 frames := by
    have := slice_append_exact ([0x4c, 0x46, 0x5a, 0x31, version, 0, 0, 0] ++ leBytes 8 plaintext
      ++ leBytes 4 frameSize) (leBytes 4 frames) (leBytes 8 index ++ rest)
    rw [hheld, fixedHeader_append_eq]
    simpa using this
  have h24 : slice held 24 8 = leBytes 8 index := by
    have := slice_append_exact ([0x4c, 0x46, 0x5a, 0x31, version, 0, 0, 0] ++ leBytes 8 plaintext
      ++ leBytes 4 frameSize ++ leBytes 4 frames) (leBytes 8 index) rest
    rw [hheld, fixedHeader_append_eq]
    simpa using this
  rw [Header.parse, hversion, hsub 8 8 (by omega), hsub 16 4 (by omega), hsub 20 4 (by omega),
    hsub 24 8 (by omega), h8, h16, h20, h24, fromLe_leBytes (by omega), fromLe_leBytes (by omega),
    fromLe_leBytes (by omega), fromLe_leBytes (by omega)]

theorem begins_fixedHeader {n : Nat} (hn : 32 ≤ n)
    (hversion : version = vPlain ∨ version = vSealed) :
    Header.begins (slice (fixedHeader version plaintext frameSize frames index ++ rest) 0 n) =
      true := by
  set held := fixedHeader version plaintext frameSize frames index ++ rest with hheld
  have hlen : 32 ≤ (slice held 0 n).length := by
    rw [length_slice, hheld, List.length_append, length_fixedHeader]
    omega
  have hmagic : slice (slice held 0 n) 0 4 = magic := by
    rw [slice_slice (by omega), Nat.zero_add, hheld, fixedHeader_append_eq]
    rfl
  have hget : (slice held 0 n).getD 4 0 = version := by
    rw [slice, List.drop_zero, List.getD_eq_getElem?_getD, List.getElem?_take_of_lt (by omega),
      hheld, fixedHeader_append_eq]
    rfl
  simp only [Header.begins, hget, hmagic, Bool.and_eq_true, decide_eq_true_eq, beq_self_eq_true,
    Bool.or_eq_true, beq_iff_eq]
  exact ⟨⟨hlen, trivial⟩, hversion⟩

end Fields

theorem container_eq (key : Option ObjectKey) (plaintext : Nat) (ps : List Piece) :
    container key plaintext ps =
      fixedHeader (versionOf key) plaintext frame ps.length (indexAt key ps) ++
        (sealing key ++ (bodies ps ++ index ps)) := by
  simp only [container, List.append_assoc]

/-- The header of a container. -/
def headerOf (key : Option ObjectKey) (plaintext : Nat) (ps : List Piece) : Header :=
  ⟨versionOf key, plaintext, frame, ps.length, indexAt key ps⟩

theorem versionOf_mem (key : Option ObjectKey) :
    versionOf key = vPlain ∨ versionOf key = vSealed := by
  cases key with
  | none => exact Or.inl rfl
  | some key => exact Or.inr rfl

theorem Fits.header?_container {plaintext : Nat} {ps : List Piece} (h : Fits plaintext ps)
    (key : Option ObjectKey) :
    Container.header? (container key plaintext ps) = some (headerOf key plaintext ps) := by
  have hlength := h.length_container key
  have hlt := h.indexAt_lt key
  have hhead := le_headerLen (versionOf key)
  have hindexAt := h.indexAt_eq key
  have hmin : headerLen (versionOf key) ≤ min sealedHeader (container key plaintext ps).length := by
    have := headerLen_le (versionOf key)
    rw [sealedHeader]
    omega
  have hparse : Header.parse (prefixOf (container key plaintext ps)) =
      headerOf key plaintext ps := by
    rw [prefixOf, container_eq key plaintext ps] at *
    exact parse_fixedHeader _ (by omega) h.plaintext_lt (by decide) h.frames
      (by rw [maxU64] at hlt; omega)
  have hbegins : Header.begins (prefixOf (container key plaintext ps)) = true := by
    rw [prefixOf, container_eq key plaintext ps] at *
    exact begins_fixedHeader _ (by omega) (versionOf_mem key)
  have hindexed : (headerOf key plaintext ps).indexed = 4 * ps.length := by
    rw [← hparse, Header.indexed_parse, hparse]
    rfl
  have hagrees : Header.agrees (headerOf key plaintext ps)
      (prefixOf (container key plaintext ps)).length (container key plaintext ps).length =
        true := by
    simp only [Header.agrees, hindexed, Bool.and_eq_true, beq_iff_eq, decide_eq_true_eq,
      length_prefixOf]
    refine ⟨⟨⟨?_, ?_⟩, ?_⟩, hmin⟩
    · simp only [isPlausible, headerOf, h.count, Bool.and_eq_true, decide_eq_true_eq,
        beq_self_eq_true, and_true]
      decide
    · show headerLen (versionOf key) ≤ indexAt key ps
      omega
    · show saturatingAdd (indexAt key ps) (4 * ps.length) = _
      rw [saturatingAdd, hlength]
      omega
  rw [Container.header?, if_neg (by rw [header]; omega), Header.accept, hbegins, hparse, hagrees]
  rfl

theorem entries_index {ps : List Piece} (h : ∀ p ∈ ps, p.body.length < 2 ^ 31) :
    Framed.entries (index ps) = ps.map word := by
  induction ps with
  | nil => rfl
  | cons p ps ih =>
      have hword := fromLe_leBytes (w := 4) (word_lt (h p List.mem_cons_self))
      rw [index_cons, List.map_cons, ← ih fun q hq => h q (List.mem_cons_of_mem _ hq)]
      simp only [leBytes] at hword ⊢
      simp only [List.cons_append, List.nil_append, Framed.entries, hword]

theorem Fits.slice_index {plaintext : Nat} {ps : List Piece} (h : Fits plaintext ps)
    (key : Option ObjectKey) :
    slice (container key plaintext ps) (indexAt key ps) (4 * ps.length) = index ps := by
  have hpre : (fixedHeader (versionOf key) plaintext frame ps.length (indexAt key ps)
      ++ sealing key ++ bodies ps).length = indexAt key ps := by
    rw [h.indexAt_eq, ← length_sealing]
    simp only [List.length_append, length_fixedHeader]
  have hexact := slice_append_exact (fixedHeader (versionOf key) plaintext frame ps.length
    (indexAt key ps) ++ sealing key ++ bodies ps) (index ps) []
  rwa [List.append_nil, hpre, length_index] at hexact

/-- What `open` makes of a container, for the key it was given. -/
def framed (plaintext : Nat) (ps : List Piece) (key : Option ObjectKey) (opened : Option ObjectKey)
    (oid : Oid) : Framed :=
  { plaintext, frame := Codec.frame, frames := ps.length
    offsets := Framed.offsetsOf (headerLen (versionOf key)) (ps.map word)
    stored := ps.map isStored, key := opened, oid }

theorem Fits.ofIndex_container {plaintext : Nat} {ps : List Piece} (h : Fits plaintext ps)
    (key opened : Option ObjectKey) (oid : Oid) :
    Framed.ofIndex (headerOf key plaintext ps) opened oid (index ps) =
      some (framed plaintext ps key opened oid) := by
  have hstored : (ps.map word).map Codec.isStored = ps.map isStored := by
    rw [List.map_map]
    exact List.map_congr_left fun p hp => isStored_word (h.short p hp)
  have hsum : ((ps.map word).map lengthOf).sum = (ps.map fun p => lengthOf p.word).sum := by
    rw [List.map_map]
    rfl
  simp only [Framed.ofIndex, entries_index h.short, hstored, hsum]
  exact if_pos rfl

end Piece

namespace Framed

variable {crates : Crates}

/-- **`open` reads the containers of a writer back.**  Only the key is still in
question. -/
theorem open_container {plaintext : Nat} {ps : List Piece} (h : Piece.Fits plaintext ps)
    (key : Option ObjectKey) (keys : Option (Keyring crates)) (oid : Oid) :
    (Framed.open crates (Piece.container key plaintext ps).length keys oid).run
        (Reader.file (Piece.container key plaintext ps)) =
      (keyOf crates (Piece.headerOf key plaintext ps)
        (prefixOf (Piece.container key plaintext ps)) keys).map fun opened =>
          some (Piece.framed plaintext ps key opened oid) := by
  have hlength := h.length_container key
  have hindexed : (Piece.headerOf key plaintext ps).indexed = 4 * ps.length := by
    have hhead := h.header?_container key
    obtain ⟨-, haccept⟩ := Container.header?_eq_some hhead
    obtain ⟨-, hparse, -⟩ := Header.accept_eq_some haccept
    rw [hparse, Header.indexed_parse, ← hparse]
    rfl
  rw [open_file, h.header?_container]
  simp only
  cases keyOf crates (Piece.headerOf key plaintext ps)
      (prefixOf (Piece.container key plaintext ps)) keys with
  | error e => rfl
  | ok opened =>
      have hread : Reader.file (Piece.container key plaintext ps)
          ⟨(Piece.headerOf key plaintext ps).index, (Piece.headerOf key plaintext ps).indexed⟩ =
          .ok (Piece.index ps) := by
        rw [hindexed, Reader.file_of_le (by show Piece.indexAt key ps + _ ≤ _; omega)]
        exact congrArg Except.ok (h.slice_index key)
      rw [hread]
      exact congrArg Except.ok (h.ofIndex_container key opened oid)

/-- The array read at `offset` of a sealed header is the field that stands there. -/
theorem array_container {plaintext : Nat} {ps : List Piece} {key : ObjectKey} {n : Nat}
    (field : Fixed n) (before after : Bytes)
    (hsealing : Piece.sealing (some key) = before ++ field.val ++ after)
    (hlen : 64 ≤ (Piece.container (some key) plaintext ps).length)
    (hle : 32 + before.length + n ≤ 64) :
    array (prefixOf (Piece.container (some key) plaintext ps)) (32 + before.length) n = field := by
  set head := Piece.fixedHeader (Piece.versionOf (some key)) plaintext Codec.frame ps.length
    (Piece.indexAt (some key) ps) with hhead
  have hcut : (head ++ before).length = 32 + before.length := by
    rw [List.length_append, hhead, Piece.length_fixedHeader]
  have hexact := slice_append_exact (head ++ before) field.val
    (after ++ (Piece.bodies ps ++ Piece.index ps))
  rw [hcut, field.property] at hexact
  have hslice : slice (prefixOf (Piece.container (some key) plaintext ps))
      (32 + before.length) n = field.val := by
    rw [prefixOf, slice_slice (by rw [sealedHeader]; omega), Nat.zero_add, Piece.container_eq,
      hsealing, ← hhead]
    simpa only [List.append_assoc] using hexact
  apply Subtype.ext
  show (slice _ _ _ ++ List.replicate n 0).take n = field.val
  rw [hslice]
  exact List.take_left' field.property

/-- The key id and the salt stand in the header of a sealed container. -/
theorem sealedKey_container {plaintext : Nat} {ps : List Piece} (h : Piece.Fits plaintext ps)
    (key : ObjectKey) (ring : Keyring crates) :
    sealedKey crates (prefixOf (Piece.container (some key) plaintext ps)) (some ring) =
      ring.reading key.id key.salt := by
  have hlen : 64 ≤ (Piece.container (some key) plaintext ps).length := by
    have hhead : headerLen (Piece.versionOf (some key)) = 64 := by
      simp [Piece.versionOf, headerLen, sealedHeader]
    rw [h.length_container, h.indexAt_eq, hhead]
    omega
  have hid := array_container key.id [] (key.salt.val ++ List.replicate 12 0)
    (by simp [Piece.sealing]) hlen (by decide)
  have hsalt := array_container key.salt key.id.val (List.replicate 12 0)
    (by simp [Piece.sealing]) hlen (by rw [key.id.property]; decide)
  rw [key.id.property] at hsalt
  simp only [sealedKey]
  exact congrArg₂ ring.reading hid hsalt

/-- The key a container is opened with. -/
theorem keyOf_container {plaintext : Nat} {ps : List Piece} (h : Piece.Fits plaintext ps)
    (key : Option ObjectKey) (keys : Option (Keyring crates)) :
    keyOf crates (Piece.headerOf key plaintext ps)
        (prefixOf (Piece.container key plaintext ps)) keys =
      match key, keys with
      | none, _ => .ok none
      | some _, none => .error .notDecryptable
      | some key, some ring => (ring.reading key.id key.salt).map some := by
  cases key with
  | none =>
      have hplain : (Piece.headerOf none plaintext ps).version ≠ vSealed := by
        simp [Piece.headerOf, Piece.versionOf, vPlain, vSealed]
      rw [keyOf, if_neg hplain]
  | some key =>
      have hsealed : (Piece.headerOf (some key) plaintext ps).version = vSealed := rfl
      cases keys with
      | none => rw [keyOf, if_pos hsealed]; rfl
      | some ring => rw [keyOf, if_pos hsealed, sealedKey_container h]

end Framed

end Lfsx.Storage
