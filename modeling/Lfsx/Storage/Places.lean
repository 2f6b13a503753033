import Lfsx.Storage.CodecRanges

/-!
# One object in two places

Whatever bytes a bucket holds, an object read from there and from a file of the same bytes comes
out alike unless the code reads no bytes somewhere on the way: at the index of a container of no
frames, in an empty range of an object that is kept as it is, or at a frame that the index says is
empty.  A client may put any bytes in a bucket, so the last is not a matter of what the server
writes.

* `Reader.bucket_eq_file_iff`: one read.
* `Framed.frameAt_alike`, `Framed.frameAt_differs`: one frame.  A sealed frame that is empty has no
  seal, and is an error of the same text from both.
* `Framed.stream_alike`, `Framed.stream_differs`: a stream, as far as it comes (`Framed.Comes`).
* `places_agree`: every file, every keyring and every range.
-/

namespace Lfsx.Storage

open Request Codec

/-- What ChaCha20-Poly1305 and `zstd::bulk::decompress` do with next to nothing: a seal has a tag
at the least, no bytes are a stream of no frames, and one byte is no stream. -/
structure Crates.Ends (crates : Crates) : Prop where
  decrypt : ∀ key nonce aad sealed, sealed.length < Crypt.tag →
    crates.decrypt key nonce aad sealed = none
  nothing : ∀ capacity, crates.decompress [] capacity = some []
  byte : ∀ b capacity, crates.decompress [b] capacity ≠ some []

/-! ## What is opened -/

/-- What some bytes are taken for, when all that is read of them is read. -/
def Object.ofBytes (crates : Crates) (held : Bytes) (keys : Option (Keyring crates)) (oid : Oid) :
    Except Error Object :=
  match Container.header? held with
  | none => .ok (.raw held.length)
  | some h =>
      match Framed.keyOf crates h (prefixOf held) keys with
      | .error e => .error e
      | .ok key =>
          match Framed.ofIndex h key oid (slice held h.index h.indexed) with
          | some f => .ok (.framed f)
          | none => .ok (.raw held.length)

section Opening

variable {crates : Crates} {held : Bytes}

theorem Object.run_open_file (hsize : held.length < maxU64) (keys : Option (Keyring crates))
    (oid : Oid) :
    (Object.open crates held.length keys oid).run (Place.file.reader held) =
      Object.ofBytes crates held keys oid := by
  rw [Object.run_open, Framed.run_open_place, Object.ofBytes]
  cases hh : Container.header? held with
  | none => rfl
  | some h =>
      have hread : Place.file.reader held ⟨h.index, h.indexed⟩ =
          .ok (slice held h.index h.indexed) := Reader.file_of_le (Container.index_le hsize hh).le
      cases hkey : Framed.keyOf crates h (prefixOf held) keys with
      | error e =>
          simp only [hkey]
          rfl
      | ok key =>
          simp only [hkey, hread, Except.map]
          cases Framed.ofIndex h key oid (slice held h.index h.indexed) with
          | none => rfl
          | some f => rfl

/-- **An object opens alike from both places exactly when it is not hollow.** -/
theorem Object.open_alike_iff (hsize : held.length < maxU64) (keys : Option (Keyring crates))
    (oid : Oid) :
    (Object.open crates held.length keys oid).run (Place.bucket.reader held) =
        (Object.open crates held.length keys oid).run (Place.file.reader held) ↔
      ¬ Hollow crates held keys := by
  rw [Object.run_open, Object.run_open]
  constructor
  · intro heq hollow
    obtain ⟨hbucket, opened, hfile⟩ := Framed.open_of_hollow hsize hollow oid
    rw [hbucket, hfile] at heq
    cases heq
  · intro hollow
    rw [Framed.open_of_not_hollow hsize hollow]

/-- What is taken for a container opens as one. -/
theorem Object.framed_of_ofBytes (hsize : held.length < maxU64) {keys : Option (Keyring crates)}
    {oid : Oid} {f : Framed} (h : Object.ofBytes crates held keys oid = .ok (.framed f)) :
    (Framed.open crates held.length keys oid).run (Reader.file held) = .ok (some f) := by
  rw [← Object.run_open_file hsize, Object.run_open] at h
  cases hopen : (Framed.open crates held.length keys oid).run (Place.file.reader held) with
  | error e =>
      rw [hopen] at h
      cases h
  | ok opened =>
      rw [hopen] at h
      cases opened with
      | none => cases h
      | some f' =>
          cases h
          exact hopen

/-- What is kept as it is has the size of what is kept. -/
theorem Object.size_of_ofBytes {keys : Option (Keyring crates)} {oid : Oid} {size : Nat}
    (h : Object.ofBytes crates held keys oid = .ok (.raw size)) : size = held.length := by
  rw [Object.ofBytes] at h
  cases hh : Container.header? held with
  | none =>
      rw [hh] at h
      cases h
      rfl
  | some header =>
      simp only [hh] at h
      cases hkey : Framed.keyOf crates header (prefixOf held) keys with
      | error e =>
          simp only [hkey] at h
          cases h
      | ok key =>
          simp only [hkey] at h
          split at h
          case h_1 => cases h
          case h_2 =>
            cases h
            rfl

end Opening

namespace Framed

variable {crates : Crates} {held : Bytes} {f : Framed}

/-! ## One frame -/

/-- The text of a frame that is too short tells its length. -/
theorem shortFrame_inj {index length length' skip : Nat}
    (h : f.shortFrame index length skip = f.shortFrame index length' skip) : length = length' := by
  have htext := congrArg String.toList h
  simp only [shortFrame, toString, String.toList_append, List.append_assoc,
    List.append_cancel_left_eq] at htext
  simp only [← List.append_assoc, List.append_cancel_right_eq] at htext
  have hdigits : decimal length = decimal length' := by simpa [decimal, Nat.repr] using htext
  exact decimal_inj hdigits

/-- It is not the text of a frame that does not decompress. -/
theorem shortFrame_ne_zstd (index length skip : Nat) : f.shortFrame index length skip ≠ "zstd" := by
  intro h
  have htext := congrArg String.toList h
  simp [shortFrame, toString, String.toList_append] at htext

/-- A frame that is not sealed is as it is, or decompresses. -/
theorem decode_plain (hkey : f.key = none) (k : Nat) (body : Bytes) :
    f.decode crates k body =
      if f.stored.getD k false then .ok body
      else (crates.decompress body f.frame).elim (.error (.storage "zstd")) .ok := by
  rw [decode, unsealed, hkey]
  cases f.stored.getD k false with
  | true => rfl
  | false =>
      cases hplain : crates.decompress body f.frame <;> simp [hplain, bind, Except.bind] <;> rfl

section Opened

variable {keys : Option (Keyring crates)} {oid : Oid}

theorem wellFormed_of_file (hsize : held.length < maxU64)
    (hopen : (Framed.open crates held.length keys oid).run (Reader.file held) = .ok (some f)) :
    WellFormed held f :=
  wellFormed_of_open hsize (Reader.whole_file held) hopen

/-- The frame at a word of the index, from any reader. -/
theorem frameAt_word (hsize : held.length < maxU64)
    (hopen : (Framed.open crates held.length keys oid).run (Reader.file held) = .ok (some f))
    {k word : Nat} (hword : (wordsOf held)[k]? = some word) :
    ∃ lo, lo + lengthOf word < held.length ∧ ∀ reader : ReadAt → Except Error Bytes,
      f.frameAt crates reader k = (reader ⟨lo, lengthOf word⟩).bind (f.decode crates k) := by
  obtain ⟨-, hoffsets⟩ := indexed_of_open hsize (Reader.whole_file held) hopen
  obtain ⟨lo, hlo, hhi, hlt⟩ := place_of_word (wellFormed_of_file hsize hopen) hoffsets hword
  refine ⟨lo, hlt, fun reader => ?_⟩
  rw [frameAt, hlo, hhi]
  simp only [Nat.add_sub_cancel_left]

/-- **A frame that is not empty is the same from both places, and so is one that is sealed.** -/
theorem frameAt_alike (ends : crates.Ends) (hsize : held.length < maxU64)
    (hopen : (Framed.open crates held.length keys oid).run (Reader.file held) = .ok (some f))
    {k word : Nat} (hword : (wordsOf held)[k]? = some word)
    (hfull : lengthOf word ≠ 0 ∨ f.key ≠ none) :
    f.frameAt crates (Reader.bucket held) k = f.frameAt crates (Reader.file held) k := by
  obtain ⟨lo, hlt, hframe⟩ := frameAt_word hsize hopen hword
  rw [hframe, hframe]
  by_cases hpos : lengthOf word = 0
  · -- Neither no bytes nor the one that the bucket returns has room for a tag.
    obtain ⟨key, hkey⟩ := Option.ne_none_iff_exists'.mp (hfull.resolve_left (not_not.mpr hpos))
    have hdecode : ∀ body : Bytes, body.length < Crypt.tag →
        f.decode crates k body = .error .tampered := by
      intro body hshort
      rw [decode, unsealed, hkey]
      simp only [ObjectKey.openFrame, ends.decrypt _ _ _ _ hshort]
      rfl
    have hinside : lo < held.length := by omega
    rw [hpos, Reader.file_of_le (by omega)]
    rw [Reader.bucket, Reader.byteRange, if_pos hinside]
    simp only [Except.bind]
    rw [hdecode _ (by rw [length_slice, Crypt.tag]; omega),
      hdecode _ (by rw [length_slice, Crypt.tag]; omega)]
  · rw [(Reader.bucket_eq_file_iff hlt.le).mpr hpos]

/-- **An empty frame that is not sealed decodes to no bytes from a file.  From a bucket it decodes
to some, or not at all.** -/
theorem frameAt_differs (ends : crates.Ends) (hsize : held.length < maxU64)
    (hopen : (Framed.open crates held.length keys oid).run (Reader.file held) = .ok (some f))
    {k word : Nat} (hword : (wordsOf held)[k]? = some word) (hempty : lengthOf word = 0)
    (hkey : f.key = none) :
    f.frameAt crates (Reader.file held) k = .ok [] ∧
      ((∃ plain, plain ≠ [] ∧ f.frameAt crates (Reader.bucket held) k = .ok plain) ∨
        f.frameAt crates (Reader.bucket held) k = .error (.storage "zstd")) := by
  obtain ⟨lo, hlt, hframe⟩ := frameAt_word hsize hopen hword
  have hinside : lo < held.length := by omega
  rw [hframe, hframe, hempty]
  constructor
  · rw [Reader.file_of_le (by omega), slice_zero_length]
    simp only [Except.bind]
    rw [decode_plain hkey, ends.nothing]
    split <;> rfl
  · have hbyte : Reader.bucket held ⟨lo, 0⟩ = .ok [held[lo]] := by
      rw [Reader.bucket, Reader.byteRange, if_pos hinside]
      simp [slice, List.take_one_drop_eq_of_lt_length hinside]
    rw [hbyte]
    simp only [Except.bind]
    rw [decode_plain hkey]
    split
    · exact Or.inl ⟨[held[lo]], List.cons_ne_nil _ _, rfl⟩
    · cases hplain : crates.decompress [held[lo]] f.frame with
      | none => exact Or.inr rfl
      | some plain =>
          refine Or.inl ⟨plain, ?_, rfl⟩
          rintro rfl
          exact ends.byte _ _ hplain

end Opened

/-! ## A stream -/

/-- The frames a stream of `wanted` bytes from `pos` comes to: the one it begins in, and if
that gives some of the bytes from a file, those the rest comes to. -/
inductive Comes (crates : Crates) (f : Framed) (held : Bytes) : (pos wanted k : Nat) → Prop
  | here {pos wanted : Nat} (hwanted : wanted ≠ 0) : Comes crates f held pos wanted (pos / f.frame)
  | on {pos wanted k take : Nat} {plain : Bytes}
      (hframe : f.frameAt crates (Reader.file held) (pos / f.frame) = .ok plain)
      (htake : take = min wanted (plain.length - pos % f.frame)) (hsome : take ≠ 0)
      (hrest : Comes crates f held (pos + take) (wanted - take) k) :
      Comes crates f held pos wanted k

theorem Comes.wanted_ne_zero {pos wanted k : Nat} (h : Comes crates f held pos wanted k) :
    wanted ≠ 0 := by
  cases h with
  | here hwanted => exact hwanted
  | on hframe htake hsome hrest => omega

section Streams

variable {keys : Option (Keyring crates)} {oid : Oid}

theorem word_of_pos (hsize : held.length < maxU64)
    (hopen : (Framed.open crates held.length keys oid).run (Reader.file held) = .ok (some f))
    {pos : Nat} (hpos : pos < f.plaintext) :
    ∃ word, (wordsOf held)[pos / f.frame]? = some word := by
  have hindex := (wellFormed_of_file hsize hopen).covers.offsets pos hpos
  obtain ⟨-, hoffsets⟩ := indexed_of_open hsize (Reader.whole_file held) hopen
  rw [hoffsets, length_offsetsOf] at hindex
  exact ⟨_, List.getElem?_eq_getElem (by omega)⟩

/-- **A stream that comes to no empty frame is the same from both places, and so is one of a sealed
container.** -/
theorem stream_alike (ends : crates.Ends) (hsize : held.length < maxU64)
    (hopen : (Framed.open crates held.length keys oid).run (Reader.file held) = .ok (some f))
    {pos wanted : Nat} (hrange : pos + wanted ≤ f.plaintext)
    (hfull : f.key = none → ∀ k, Comes crates f held pos wanted k →
      ∀ word, (wordsOf held)[k]? = some word → lengthOf word ≠ 0) :
    (f.stream crates pos wanted).run (Reader.bucket held) =
      (f.stream crates pos wanted).run (Reader.file held) := by
  have hcovers := (wellFormed_of_file hsize hopen).covers
  induction wanted using Nat.strong_induction_on generalizing pos with
  | _ wanted ih =>
      by_cases hwanted : wanted = 0
      · subst hwanted
        rw [stream, run_streamFrom_zero, run_streamFrom_zero]
      · obtain ⟨word, hword⟩ := word_of_pos hsize hopen (show pos < f.plaintext by omega)
        have hsame := frameAt_alike ends hsize hopen hword (by
          by_cases hkey : f.key = none
          · exact Or.inl (hfull hkey _ (.here hwanted) word hword)
          · exact Or.inr hkey)
        rw [run_stream_frame hwanted (hcovers.offsets pos (by omega)),
          run_stream_frame hwanted (hcovers.offsets pos (by omega)), hsame]
        cases hframe : f.frameAt crates (Reader.file held) (pos / f.frame) with
        | error e => rfl
        | ok plain =>
            simp only
            by_cases htake : min wanted (plain.length - pos % f.frame) = 0
            · rw [if_pos htake, if_pos htake]
            · rw [if_neg htake, if_neg htake]
              rw [ih _ (by omega) (by omega) fun hkey k hrest =>
                hfull hkey k (.on hframe rfl htake hrest)]

/-- **A stream that comes to an empty frame is not the same from both places.** -/
theorem stream_differs (ends : crates.Ends) (hsize : held.length < maxU64)
    (hopen : (Framed.open crates held.length keys oid).run (Reader.file held) = .ok (some f))
    (hkey : f.key = none) {pos wanted k word : Nat} (hrange : pos + wanted ≤ f.plaintext)
    (hcomes : Comes crates f held pos wanted k) (hword : (wordsOf held)[k]? = some word)
    (hempty : lengthOf word = 0) :
    (f.stream crates pos wanted).run (Reader.bucket held) ≠
      (f.stream crates pos wanted).run (Reader.file held) := by
  have hcovers := (wellFormed_of_file hsize hopen).covers
  induction hcomes with
  | @here pos wanted hwanted =>
      obtain ⟨hfile, hbucket⟩ := frameAt_differs ends hsize hopen hword hempty hkey
      have hindex := hcovers.offsets pos (by omega)
      rw [run_stream_frame hwanted hindex, run_stream_frame hwanted hindex, hfile]
      intro heq
      simp only [List.length_nil, Nat.zero_sub, Nat.min_zero, if_true] at heq
      rcases hbucket with ⟨plain, hplain, hframe⟩ | hframe
      · rw [hframe] at heq
        simp only at heq
        by_cases htake : min wanted (plain.length - pos % f.frame) = 0
        · -- Both are errors, and their texts tell the lengths of the frames.
          rw [if_pos htake] at heq
          simp only [Streamed.mk.injEq, Except.error.injEq, Error.storage.injEq, true_and] at heq
          exact hplain (List.length_eq_zero_iff.mp (shortFrame_inj heq))
        · rw [if_neg htake] at heq
          cases heq
      · rw [hframe] at heq
        simp only [Streamed.mk.injEq, Except.error.injEq, Error.storage.injEq, true_and] at heq
        exact shortFrame_ne_zstd _ _ _ heq.symm
  | @on pos wanted k take plain hframe htake hsome hrest ih =>
      subst htake
      have hwanted : wanted ≠ 0 := by omega
      have hindex := hcovers.offsets pos (by omega)
      obtain ⟨first, hfirst⟩ := word_of_pos hsize hopen (show pos < f.plaintext by omega)
      have hfull : lengthOf first ≠ 0 := by
        intro hnone
        obtain ⟨hfile, -⟩ := frameAt_differs ends hsize hopen hfirst hnone hkey
        cases hframe.symm.trans hfile
        simp at hsome
      rw [run_stream_frame hwanted hindex, run_stream_frame hwanted hindex,
        frameAt_alike ends hsize hopen hfirst (Or.inl hfull), hframe]
      simp only [if_neg hsome]
      intro heq
      simp only [Streamed.mk.injEq, List.cons.injEq, true_and] at heq
      apply ih (by omega) hword
      cases hleft : (f.stream crates (pos + min wanted (plain.length - pos % f.frame))
        (wanted - min wanted (plain.length - pos % f.frame))).run (Reader.bucket held) with
      | mk items outcome =>
          rw [hleft] at heq
          rw [← Streamed.mk.injEq] at heq
          exact heq

end Streams

end Framed

/-! ## What is served -/

/-- When a range of an object is served alike from both places. -/
structure Alike (crates : Crates) (held : Bytes) (keys : Option (Keyring crates)) (oid : Oid)
    (start length : Nat) : Prop where
  /-- It is not a container of no frames whose key is at hand. -/
  solid : ¬ Hollow crates held keys
  /-- If it is kept as it is, the range is not empty. -/
  raw : ∀ size, Object.ofBytes crates held keys oid = .ok (.raw size) → length ≠ 0
  /-- If it is a container that is not sealed, no frame the stream comes to is empty in the
  index. -/
  framed : ∀ f, Object.ofBytes crates held keys oid = .ok (.framed f) → f.key = none →
    ∀ k, f.Comes crates held start length k →
      ∀ word, (Framed.wordsOf held)[k]? = some word → lengthOf word ≠ 0

/-- When all of its ranges are. -/
structure AlikeThroughout (crates : Crates) (held : Bytes) (keys : Option (Keyring crates))
    (oid : Oid) : Prop where
  solid : ¬ Hollow crates held keys
  framed : ∀ size, Object.ofBytes crates held keys oid ≠ .ok (.raw size)
  /-- If the container is not sealed, its index has no empty frame. -/
  full : ∀ f, Object.ofBytes crates held keys oid = .ok (.framed f) → f.key = none →
    ∀ word ∈ Framed.wordsOf held, lengthOf word ≠ 0

/-- A range is inside the object that some bytes are taken for. -/
def Inside (crates : Crates) (held : Bytes) (keys : Option (Keyring crates)) (oid : Oid)
    (start length : Nat) : Prop :=
  ∀ object, Object.ofBytes crates held keys oid = .ok object → start + length ≤ object.size

section Serve

variable {crates : Crates} {held : Bytes} {keys : Option (Keyring crates)} {oid : Oid}
  {start length : Nat}

/-- What opens alike is served alike when it streams alike. -/
theorem serve_opened {object : Object} (place : Place)
    (hopen : (Object.open crates held.length keys oid).run (place.reader held) = .ok object) :
    serve crates place held keys oid start length =
      (object.stream crates place held start length).map fun streamed =>
        (object.size, streamed) := by
  rw [serve, hopen]
  rfl

theorem serve_refused {e : Error} (place : Place)
    (hopen : (Object.open crates held.length keys oid).run (place.reader held) = .error e) :
    serve crates place held keys oid start length = .error e := by
  rw [serve, hopen]
  rfl

theorem stream_raw_iff (size : Nat) (hrange : start + length ≤ held.length) :
    (Object.raw size).stream crates .bucket held start length =
        (Object.raw size).stream crates .file held start length ↔ length ≠ 0 := by
  rw [← Reader.bucket_eq_file_iff hrange, Reader.file_of_le hrange]
  simp only [Object.stream]
  cases Reader.bucket held ⟨start, length⟩ with
  | error e => simp [Except.map]
  | ok bytes => simp [Except.map]

theorem stream_framed_iff (ends : crates.Ends) (hsize : held.length < maxU64) {f : Framed}
    (hopen : (Framed.open crates held.length keys oid).run (Reader.file held) = .ok (some f))
    (hrange : start + length ≤ f.plaintext) :
    (Object.framed f).stream crates .bucket held start length =
        (Object.framed f).stream crates .file held start length ↔
      (f.key = none → ∀ k, f.Comes crates held start length k →
        ∀ word, (Framed.wordsOf held)[k]? = some word → lengthOf word ≠ 0) := by
  simp only [Object.stream, Place.reader, Except.ok.injEq]
  constructor
  · intro heq hkey k hcomes word hword hempty
    exact Framed.stream_differs ends hsize hopen hkey hrange hcomes hword hempty heq
  · exact Framed.stream_alike ends hsize hopen hrange

theorem map_pair_inj {size : Nat} {x y : Except Error Streamed} :
    (x.map fun streamed => (size, streamed)) = (y.map fun streamed => (size, streamed)) ↔
      x = y := by
  cases x <;> cases y <;> simp [Except.map]

/-- **A range of any bytes is served alike exactly when no read of it is of no bytes.** -/
theorem serve_alike_iff (ends : crates.Ends) (hsize : held.length < maxU64)
    (hrange : Inside crates held keys oid start length) :
    serve crates .bucket held keys oid start length =
        serve crates .file held keys oid start length ↔
      Alike crates held keys oid start length := by
  have hfile := Object.run_open_file hsize keys oid
  by_cases hollow : Hollow crates held keys
  · obtain ⟨hbucket, opened, hopened⟩ := Framed.open_of_hollow hsize hollow oid
    refine iff_of_false (fun heq => ?_) fun halike => halike.solid hollow
    rw [serve_eq, serve_eq, hbucket, hopened] at heq
    cases opened <;> cases heq
  · have hbucket := (Object.open_alike_iff hsize keys oid).mpr hollow
    rw [hfile] at hbucket
    cases hobject : Object.ofBytes crates held keys oid with
    | error e =>
        rw [hobject] at hfile hbucket
        rw [serve_refused .bucket hbucket, serve_refused .file hfile]
        refine iff_of_true rfl ⟨hollow, fun size h => ?_, fun f h => ?_⟩
        · cases hobject.symm.trans h
        · cases hobject.symm.trans h
    | ok object =>
        have hinside := hrange object hobject
        rw [hobject] at hfile hbucket
        rw [serve_opened .bucket hbucket, serve_opened .file hfile, map_pair_inj]
        cases object with
        | raw size =>
            cases Object.size_of_ofBytes hobject
            rw [stream_raw_iff held.length hinside]
            constructor
            · intro hlength
              refine ⟨hollow, fun _ _ => hlength, fun f h => ?_⟩
              cases hobject.symm.trans h
            · intro halike
              exact halike.raw _ hobject
        | framed f =>
            rw [stream_framed_iff ends hsize (Object.framed_of_ofBytes hsize hobject) hinside]
            constructor
            · intro hfull
              refine ⟨hollow, fun size h => ?_, fun f' h => ?_⟩
              · cases hobject.symm.trans h
              · cases hobject.symm.trans h
                exact hfull
            · intro halike
              exact halike.framed f hobject

/-- Each frame is where some range begins. -/
theorem serve_throughout_iff (ends : crates.Ends) (hsize : held.length < maxU64) :
    (∀ start length, Inside crates held keys oid start length →
        serve crates .bucket held keys oid start length =
          serve crates .file held keys oid start length) ↔
      AlikeThroughout crates held keys oid := by
  constructor
  · intro hall
    have halike : ∀ start length, Inside crates held keys oid start length →
        Alike crates held keys oid start length := fun start length hrange =>
      (serve_alike_iff ends hsize hrange).mp (hall start length hrange)
    have hnone := halike 0 0 fun _ _ => Nat.zero_le _
    refine ⟨hnone.solid, fun size hraw => hnone.raw size hraw rfl, fun f hobject hkey => ?_⟩
    intro word hmem
    obtain ⟨k, hword⟩ := List.mem_iff_getElem?.mp hmem
    have hopen := Object.framed_of_ofBytes hsize hobject
    have hcovers := (Framed.wellFormed_of_file hsize hopen).covers
    obtain ⟨-, hoffsets⟩ := Framed.indexed_of_open hsize (Reader.whole_file held) hopen
    have hlt : k < (Framed.wordsOf held).length := (List.getElem?_eq_some_iff.mp hword).1
    have hstart := hcovers.starts k (by rw [hoffsets, Framed.length_offsetsOf]; omega)
    have hcomes : f.Comes crates held (k * f.frame) 1 (k * f.frame / f.frame) :=
      .here one_ne_zero
    rw [Nat.mul_div_cancel k hcovers.frame] at hcomes
    refine (halike (k * f.frame) 1 fun object h => ?_).framed f hobject hkey k hcomes word hword
    cases hobject.symm.trans h
    exact hstart
  · intro hthroughout start length hrange
    refine (serve_alike_iff ends hsize hrange).mpr ⟨hthroughout.solid, fun size hraw => ?_, ?_⟩
    · exact absurd hraw (hthroughout.framed size)
    · intro f hobject hkey k _ word hword
      exact hthroughout.full f hobject hkey word (List.mem_of_getElem? hword)

end Serve

/-- **Two places, one answer.**  A read inside the stored bytes agrees exactly when it is of some
bytes.  Whatever the stored bytes are, whoever put them there and whichever keys are at hand, the
object opens alike exactly when it is not hollow, a range of it is served alike exactly when it is
`Alike`, and all of them are when its index has no empty frame. -/
theorem places_agree (crates : Crates) (ends : crates.Ends) :
    (∀ held : Bytes, ∀ offset length, offset + length ≤ held.length →
      (Reader.bucket held ⟨offset, length⟩ = Reader.file held ⟨offset, length⟩ ↔ length ≠ 0)) ∧
    ∀ held : Bytes, held.length < maxU64 → ∀ (keys : Option (Keyring crates)) (oid : Oid),
      ((Object.open crates held.length keys oid).run (Place.bucket.reader held) =
          (Object.open crates held.length keys oid).run (Place.file.reader held) ↔
        ¬ Hollow crates held keys) ∧
      (∀ start length, Inside crates held keys oid start length →
        (serve crates .bucket held keys oid start length =
            serve crates .file held keys oid start length ↔
          Alike crates held keys oid start length)) ∧
      ((∀ start length, Inside crates held keys oid start length →
          serve crates .bucket held keys oid start length =
            serve crates .file held keys oid start length) ↔
        AlikeThroughout crates held keys oid) :=
  ⟨fun _ _ _ h => Reader.bucket_eq_file_iff h, fun _ hsize keys oid =>
    ⟨Object.open_alike_iff hsize keys oid, fun _ _ hrange => serve_alike_iff ends hsize hrange,
      serve_throughout_iff ends hsize⟩⟩

/-- Crates of which the cipher has no seal without a tag, and the compressor no stream of one
byte. -/
def Crates.ending : Crates :=
  { Crates.plain with
    decompress := fun compressed capacity =>
      if compressed.length = 1 then none else Crates.plain.decompress compressed capacity
    decrypt := fun key nonce aad sealed =>
      if sealed.length < Crypt.tag then none else Crates.plain.decrypt key nonce aad sealed }

theorem Crates.ends_ending : Crates.ending.Ends where
  decrypt := fun _ _ _ _ hshort => if_pos hshort
  nothing := fun _ => rfl
  byte := by
    intro b capacity h
    cases h

/-- A container of no bytes. -/
def noBytes : Bytes := Piece.container none 0 []

/-- A container of one byte, whose frame the index says is empty. -/
def emptyFrame : Bytes := Piece.container none 1 [⟨[], true⟩]

/-- **The two places differ**: at a read of no bytes, inside the object and at its end, at an
empty object kept as it is, at an empty object in a container, which does not open, and at a
container with an empty frame, which is an error from a file and the first byte of the index from a
bucket. -/
theorem places_differ :
    Reader.bucket [0x78] ⟨0, 0⟩ ≠ Reader.file [0x78] ⟨0, 0⟩ ∧
      Reader.bucket [] ⟨0, 0⟩ ≠ Reader.file [] ⟨0, 0⟩ ∧
      serve Crates.ending .file [] none Oid.zeros 0 0 = .ok (0, ⟨[[]], .ok ()⟩) ∧
      serve Crates.ending .bucket [] none Oid.zeros 0 0 = .error .notFound ∧
      Writer.write Crates.ending (some 3) none Oid.zeros [] = .ok noBytes ∧
      serve Crates.ending .file noBytes none Oid.zeros 0 0 = .ok (0, ⟨[], .ok ()⟩) ∧
      serve Crates.ending .bucket noBytes none Oid.zeros 0 0 = .error .notFound ∧
      emptyFrame.length = 36 ∧
      (∃ text, serve Crates.ending .file emptyFrame none Oid.zeros 0 1 =
        .ok (1, ⟨[], .error (.storage text)⟩)) ∧
      serve Crates.ending .bucket emptyFrame none Oid.zeros 0 1 = .ok (1, ⟨[[0]], .ok ()⟩) := by
  refine ⟨by decide, by decide, by rfl, by rfl, by rfl, by rfl, by rfl, by rfl, ⟨_, by rfl⟩,
    by rfl⟩

section Examples

variable {held : Bytes} {h : Header}

theorem not_hollow_of_header (hh : Container.header? held = some h) (hframes : h.frames ≠ 0)
    (keys : Option (Keyring Crates.ending)) : ¬ Hollow Crates.ending held keys := by
  rintro ⟨h', key, hh', hzero, -⟩
  cases hh.symm.trans hh'
  exact hframes hzero

theorem inside_of_ofBytes {keys : Option (Keyring Crates.ending)} {oid : Oid} {object : Object}
    {start length : Nat} (h : Object.ofBytes Crates.ending held keys oid = .ok object)
    (hrange : start + length ≤ object.size) :
    Inside Crates.ending held keys oid start length := by
  intro object' h'
  cases h.symm.trans h'
  exact hrange

end Examples

theorem ofBytes_oneByte : Object.ofBytes Crates.ending oneByte none Oid.zeros =
    .ok (.framed ⟨1, frame, 1, [32, 33], [true], none, Oid.zeros⟩) := by
  decide +kernel

theorem header?_emptyFrame : Container.header? emptyFrame = some ⟨vPlain, 1, frame, 1, 32⟩ := by
  decide

theorem ofBytes_emptyFrame : Object.ofBytes Crates.ending emptyFrame none Oid.zeros =
    .ok (.framed ⟨1, frame, 1, [32, 32], [true], none, Oid.zeros⟩) := by
  decide +kernel

/-- Three bytes kept as they are, one byte in a container, and a container with an empty frame:
of that the empty range is served alike, and its byte is not. -/
theorem places_agree_three :
    serve Crates.ending .bucket [1, 2, 3] none Oid.zeros 1 2 =
        serve Crates.ending .file [1, 2, 3] none Oid.zeros 1 2 ∧
      serve Crates.ending .bucket oneByte none Oid.zeros 0 1 =
        serve Crates.ending .file oneByte none Oid.zeros 0 1 ∧
      serve Crates.ending .bucket emptyFrame none Oid.zeros 0 0 =
        serve Crates.ending .file emptyFrame none Oid.zeros 0 0 ∧
      serve Crates.ending .bucket emptyFrame none Oid.zeros 0 1 ≠
        serve Crates.ending .file emptyFrame none Oid.zeros 0 1 := by
  obtain ⟨-, hserve⟩ := places_agree Crates.ending Crates.ends_ending
  obtain ⟨-, hthree, -⟩ := hserve [1, 2, 3] (by decide) none Oid.zeros
  obtain ⟨-, -, hone⟩ := hserve oneByte (by decide) none Oid.zeros
  obtain ⟨-, hempty, -⟩ := hserve emptyFrame (by decide) none Oid.zeros
  have hraw : Object.ofBytes Crates.ending [1, 2, 3] none Oid.zeros = .ok (.raw 3) := rfl
  refine ⟨(hthree 1 2 (inside_of_ofBytes hraw (by decide))).mpr ⟨?_, ?_, ?_⟩,
    hone.mpr ⟨?_, ?_, ?_⟩ 0 1 (inside_of_ofBytes ofBytes_oneByte (by decide)),
    (hempty 0 0 (inside_of_ofBytes ofBytes_emptyFrame (by decide))).mpr ⟨?_, ?_, ?_⟩,
    fun heq => ?_⟩
  · rintro ⟨h, key, hh, -⟩
    cases hh
  · intro size _
    decide
  · intro f hf
    cases hraw.symm.trans hf
  · exact not_hollow_of_header header?_oneByte one_ne_zero none
  · intro size hsize
    cases ofBytes_oneByte.symm.trans hsize
  · intro f hf _
    decide +kernel
  · exact not_hollow_of_header header?_emptyFrame one_ne_zero none
  · intro size hsize
    cases ofBytes_emptyFrame.symm.trans hsize
  · intro f hf _ k hcomes
    exact absurd rfl hcomes.wanted_ne_zero
  · have halike := (hempty 0 1 (inside_of_ofBytes ofBytes_emptyFrame (by decide))).mp heq
    exact halike.framed _ ofBytes_emptyFrame rfl 0 (.here one_ne_zero) (2 ^ 31) (by decide +kernel)
      (by decide)

end Lfsx.Storage
