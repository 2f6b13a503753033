import Lfsx.Storage.CodecReads

/-!
# Tampering

What an attacker who can write to the storage, and has no key, can make a reader
stream.  The cipher is ideal (`Crates.Ideal`): a sealed text opens only as one of
the frames that were sealed, under the key, the nonce and the associated data it
was sealed with.  The attacker has the frames of every `Version` ever sealed and
puts any bytes at all in the place of the file.

A frame that opens is the frame at that place of some version of the object under
the key of the header (`decode_sealed`).  That is not enough: the length of the
plaintext, the frame size and the stored flags are in the header and the index,
which nothing authenticates, and they say how many frames are read and how each is
unpacked.  A file that keeps them yields the object or an error (`Kept.detected`).
One that does not may yield less than the object: the header alone is accepted as
an empty object, so only the empty object is safe from every change
(`detected_iff`).
-/

namespace Lfsx.Storage

open Request Codec

/-! ## What was sealed -/

/-- An object as it was sealed at some time. -/
structure Version where
  key : ObjectKey
  level : Option Int
  oid : Oid
  plain : Bytes
  /-- A `u32` counts its frames. -/
  frames : divCeil plain.length frame < 2 ^ 32

/-- A frame of a version, packed: its body before the seal, and its stored flag. -/
def Version.Packs (crates : Crates) (v : Version) (index : Nat) (body : Bytes)
    (isStored : Bool) : Prop :=
  ∃ plain, (framesOf frame v.plain)[index]? = some plain ∧
    Writer.squeeze crates v.level plain = .ok (body, isStored)

/-- An ideal cipher, once some versions have been sealed: a sealed text opens only
as a frame of one of them, where it was sealed. -/
def Crates.Ideal (crates : Crates) (versions : List Version) : Prop :=
  ∀ cipher nonce aad sealed body, crates.decrypt cipher nonce aad sealed = some body →
    ∃ v ∈ versions, ∃ index isStored, v.Packs crates index body isStored ∧
      cipher = v.key.cipher ∧ nonce = Crypt.nonce index ∧
      aad = Crypt.associated index (index + 1 == (framesOf frame v.plain).length) v.oid ∧
      crates.encrypt cipher nonce aad body = some sealed

/-- Decompression undoes compression, within the capacity. -/
def Crates.Unpacks (crates : Crates) : Prop :=
  ∀ level plain compressed capacity, crates.compress level plain = some compressed →
    plain.length ≤ capacity → crates.decompress compressed capacity = some plain

namespace Crypt

theorem nonce_inj {i j : Nat} (hi : i < 2 ^ 32) (hj : j < 2 ^ 32) (h : nonce i = nonce j) :
    i = j := by
  rw [nonce, nonce, List.append_cancel_left_eq, List.reverse_inj] at h
  rw [← fromLe_leBytes (w := 4) (v := i) hi, h, fromLe_leBytes hj]

theorem associated_oid {i j : Nat} {last last' : Bool} {a b : Oid}
    (h : associated i last a = associated j last' b) : a = b := by
  simp only [associated, List.append_assoc] at h
  exact Oid.asBytes_inj (List.append_inj h (by simp)).1

end Crypt

/-! ## What opens -/

namespace Reader

/-- A reader that answers a read in full, if it answers it at all. -/
def Whole (held : Bytes) (reader : ReadAt → Except Error Bytes) : Prop :=
  ∀ r bytes, reader r = .ok bytes → 0 < r.length ∨ held.length ≤ r.offset →
    r.offset + r.length ≤ held.length → bytes = slice held r.offset r.length

theorem whole_file (held : Bytes) : Whole held (file held) := by
  intro r bytes h _ hle
  rw [file, if_pos (Or.inr hle)] at h
  exact (Except.ok.inj h).symm

theorem whole_bucket (held : Bytes) : Whole held (bucket held) := by
  intro r bytes h hsome hle
  rcases hsome with hpos | hend
  · have hread := bucket_of_le hpos hle
    exact Except.ok.inj (h.symm.trans hread)
  · rw [bucket, byteRange, if_neg (by omega)] at h
    cases h

end Reader

namespace Framed

variable {crates : Crates} {held : Bytes} {reader : ReadAt → Except Error Bytes}
  {keys : Option (Keyring crates)} {oid : Oid} {f : Framed}

theorem length_entries {bytes : Bytes} {n : Nat} (h : bytes.length = 4 * n) :
    (entries bytes).length = n := by
  induction n generalizing bytes with
  | zero =>
      rw [Nat.mul_zero, List.length_eq_zero_iff] at h
      rw [h]
      rfl
  | succ n ih =>
      match bytes, h with
      | a :: b :: c :: d :: rest, h =>
          rw [entries, List.length_cons, ih (by simp only [List.length_cons] at h; omega)]

/-- What the header of a file states, if it has one. -/
def stated (held : Bytes) : Header := Header.parse (prefixOf held)

/-- The stored flags in the index of a file. -/
def storedOf (held : Bytes) : List Bool :=
  (entries (slice held (stated held).index (stated held).indexed)).map isStored

/-- What `open` did when it opened a file: it accepted the header, had the key, and
took in the index. -/
theorem ofIndex_of_open (hsize : held.length < maxU64) (hwhole : Reader.Whole held reader)
    (h : (Framed.open crates held.length keys oid).run reader = .ok (some f)) :
    Container.header? held = some (stated held) ∧
      ∃ key, keyOf crates (stated held) (prefixOf held) keys = .ok key ∧
        ofIndex (stated held) key oid
          (slice held (stated held).index (stated held).indexed) = some f := by
  rw [run_open] at h
  split at h
  case isTrue => cases h
  case isFalse hlen =>
    have hlen' : 32 ≤ held.length := Nat.le_of_not_lt hlen
    have hbytes : (reader ⟨0, min sealedHeader held.length⟩).toOption.getD [] = prefixOf held ∨
        (reader ⟨0, min sealedHeader held.length⟩).toOption.getD [] = [] := by
      cases hread : reader ⟨0, min sealedHeader held.length⟩ with
      | error e => exact Or.inr rfl
      | ok bytes =>
          have hpos : 0 < min sealedHeader held.length := by
            rw [sealedHeader]
            omega
          exact Or.inl (hwhole _ _ hread (Or.inl hpos) (by simp))
    rcases hbytes with hbytes | hbytes
    · rw [hbytes, openAfter] at h
      cases haccept : Header.accept (prefixOf held) held.length with
      | none => rw [haccept] at h; cases h
      | some hd =>
          have hheader : Container.header? held = some hd := by
            rw [Container.header?, if_neg hlen, haccept]
          obtain ⟨-, hhd, -⟩ := Header.accept_eq_some haccept
          change hd = stated held at hhd
          subst hhd
          have hindex := Container.index_le hsize hheader
          rw [haccept] at h
          simp only at h
          cases hkey : keyOf crates (stated held) (prefixOf held) keys with
          | error e => rw [hkey] at h; cases h
          | ok key =>
              rw [hkey] at h
              cases hread : reader ⟨(stated held).index, (stated held).indexed⟩ with
              | error e => rw [hread] at h; cases h
              | ok lengths =>
                  have hlengths : lengths =
                      slice held (stated held).index (stated held).indexed :=
                    hwhole _ _ hread (by simp only; omega) (by simp only; omega)
                  rw [hread, hlengths] at h
                  simp only [Except.map, Except.ok.injEq] at h
                  exact ⟨hheader, key, rfl, h⟩
    · rw [hbytes] at h
      cases h

/-- An index that was taken in. -/
theorem ofIndex_eq_some {h : Header} {key : Option ObjectKey} {lengths : Bytes}
    (hof : ofIndex h key oid lengths = some f) :
    headerLen h.version + ((entries lengths).map lengthOf).sum = h.index ∧
      f = { plaintext := h.plaintext, frame := h.frame, frames := h.frames
            offsets := offsetsOf (headerLen h.version) (entries lengths)
            stored := (entries lengths).map isStored, key, oid } := by
  rw [ofIndex] at hof
  split at hof
  case isFalse => cases hof
  case isTrue hfilled => exact ⟨hfilled, (Option.some.inj hof).symm⟩

/-- The index of a container has a word for each frame. -/
theorem length_entries_of_header (hsize : held.length < maxU64)
    (hheader : Container.header? held = some (stated held)) :
    (entries (slice held (stated held).index (stated held).indexed)).length =
      (stated held).frames := by
  have hindex := Container.index_le hsize hheader
  have hindexed : (stated held).indexed = 4 * (stated held).frames :=
    Header.indexed_parse (prefixOf held)
  exact length_entries (by rw [length_slice_of_le (by omega), hindexed])

/-- What `open` reads, when it opens a file. -/
theorem open_eq_some (hsize : held.length < maxU64) (hwhole : Reader.Whole held reader)
    (h : (Framed.open crates held.length keys oid).run reader = .ok (some f)) :
    keyOf crates (stated held) (prefixOf held) keys = .ok f.key ∧
      f.plaintext = (stated held).plaintext ∧ f.frame = (stated held).frame ∧ f.oid = oid ∧
      (stated held).frames = divCeil (stated held).plaintext (stated held).frame ∧
      0 < (stated held).frame ∧ f.stored = storedOf held ∧
      f.offsets.length = (stated held).frames + 1 := by
  obtain ⟨hheader, key, hkey, hof⟩ := ofIndex_of_open hsize hwhole h
  obtain ⟨-, hagrees⟩ := Container.header?_eq_some hheader
  obtain ⟨-, -, hagrees⟩ := Header.accept_eq_some hagrees
  simp only [Header.agrees, isPlausible, Bool.and_eq_true, decide_eq_true_eq,
    beq_iff_eq] at hagrees
  have hframe : 0 < (stated held).frame := lt_of_lt_of_le (by decide) hagrees.1.1.1.1.1
  obtain ⟨-, rfl⟩ := ofIndex_eq_some hof
  refine ⟨hkey, rfl, rfl, rfl, hagrees.1.1.1.2, hframe, rfl, ?_⟩
  rw [length_offsetsOf, length_entries_of_header hsize hheader]

end Framed

/-! ## What decodes -/

section Sealed

variable {crates : Crates} {versions : List Version} {oid : Oid}

/-- **A frame that decodes was sealed for its place**, in a version of the object
under the key of the header. -/
theorem decode_sealed (ideal : crates.Ideal versions) {f : Framed} {key : ObjectKey}
    (hkey : f.key = some key) {i : Nat} (hi : i < 2 ^ 32) {body out : Bytes}
    (h : f.decode crates i body = .ok out) :
    ∃ v ∈ versions, v.oid = f.oid ∧ v.key.cipher = key.cipher ∧
      ∃ packed isStored, v.Packs crates i packed isStored ∧
        if f.stored.getD i false then out = packed
        else crates.decompress packed f.frame = some out := by
  unfold Framed.decode at h
  rw [Framed.unsealed, hkey] at h
  simp only [ObjectKey.openFrame] at h
  cases hopen : crates.decrypt key.cipher (Crypt.nonce i)
      (Crypt.associated i (i + 1 == f.frames) f.oid) body with
  | none => rw [hopen] at h; cases h
  | some packed =>
      obtain ⟨v, hv, j, isStored, hpacks, hcipher, hnonce, haad, -⟩ := ideal _ _ _ _ _ hopen
      have hj : j < 2 ^ 32 := by
        obtain ⟨plain, hplain, -⟩ := hpacks
        have hlt := (List.getElem?_eq_some_iff.mp hplain).1
        rw [length_framesOf (by decide)] at hlt
        exact lt_trans hlt v.frames
      obtain rfl := Crypt.nonce_inj hi hj hnonce
      refine ⟨v, hv, (Crypt.associated_oid haad).symm, hcipher.symm, packed, isStored, hpacks, ?_⟩
      rw [hopen] at h
      simp only [bind, Except.bind] at h
      split at h
      case isTrue hstored =>
        rw [if_pos hstored]
        exact (Except.ok.inj h).symm
      case isFalse hstored =>
        rw [if_neg hstored]
        cases hunpack : crates.decompress packed f.frame with
        | none => rw [hunpack] at h; cases h
        | some plain =>
            rw [hunpack] at h
            exact congrArg some (Except.ok.inj h)

/-- What a packed frame is, to a reader that takes it as it is or unpacks it. -/
theorem Version.Packs.unpack (unpacks : crates.Unpacks) {v : Version} {i : Nat} {packed : Bytes}
    {isStored : Bool} (h : v.Packs crates i packed isStored) :
    (isStored = true ∧ packed = slice v.plain (i * frame) frame) ∨
      (isStored = false ∧ packed.length < (slice v.plain (i * frame) frame).length ∧
        crates.decompress packed frame = some (slice v.plain (i * frame) frame)) := by
  obtain ⟨plain, hplain, hsqueeze⟩ := h
  have hslice : plain = slice v.plain (i * frame) frame := by
    have hget := getElem?_framesOf_of_lt (by decide) (List.getElem?_eq_some_iff.mp hplain).1
    rw [hplain] at hget
    exact Option.some.inj hget
  have hle : plain.length ≤ frame := by
    rw [hslice, length_slice]
    omega
  rw [← hslice]
  unfold Writer.squeeze at hsqueeze
  cases hlevel : v.level with
  | none =>
      rw [hlevel] at hsqueeze
      cases hsqueeze
      exact Or.inl ⟨rfl, rfl⟩
  | some level =>
      rw [hlevel] at hsqueeze
      simp only at hsqueeze
      cases hc : crates.compress level plain with
      | none => rw [hc] at hsqueeze; cases hsqueeze
      | some compressed =>
          rw [hc] at hsqueeze
          simp only at hsqueeze
          split at hsqueeze
          case isTrue =>
            cases hsqueeze
            exact Or.inl ⟨rfl, rfl⟩
          case isFalse hshort =>
            cases hsqueeze
            exact Or.inr ⟨rfl, by omega, unpacks level plain _ frame hc hle⟩

end Sealed

/-! ## What is detected -/

/-- A file in the place of a sealed object is detected: if it opens sealed and
streams to the end without an error, it streams the object. -/
def Detected (crates : Crates) (ring : Keyring crates) (oid : Oid) (plain : Bytes)
    (held : Bytes) (reader : ReadAt → Except Error Bytes) : Prop :=
  ∀ f, (Framed.open crates held.length (some ring) oid).run reader = .ok (some f) →
    f.key.isSome → ((f.stream crates 0 f.plaintext).run reader).outcome = .ok () →
    ((f.stream crates 0 f.plaintext).run reader).items.flatten = plain

/-- A file keeps what says how to read the object: the length of the plaintext,
the frame size, and the stored flag of each frame that was stored as it is, in
the versions of the object under the key of its header. -/
structure Kept (crates : Crates) (versions : List Version) (ring : Keyring crates) (oid : Oid)
    (plain held : Bytes) : Prop where
  plaintext : (Framed.stated held).plaintext = plain.length
  frame : (Framed.stated held).frame = Codec.frame
  stored : ∀ key, Framed.sealedKey crates (prefixOf held) (some ring) = .ok key →
    ∀ v ∈ versions, v.oid = oid → v.key.cipher = key.cipher →
    ∀ i body, v.Packs crates i body true → (Framed.storedOf held).getD i false = true

section Detected

variable {crates : Crates} {versions : List Version} {ring : Keyring crates} {oid : Oid}
  {plain held : Bytes} {reader : ReadAt → Except Error Bytes}

/-- The key of a file that opens sealed is the key of its header. -/
theorem sealedKey_of_keyOf {hd : Header} {bytes : Bytes} {keys : Option (Keyring crates)}
    {key : ObjectKey} (h : Framed.keyOf crates hd bytes keys = .ok (some key)) :
    Framed.sealedKey crates bytes keys = .ok key := by
  rw [Framed.keyOf] at h
  split at h
  case isFalse => cases h
  case isTrue =>
    cases hkey : Framed.sealedKey crates bytes keys with
    | error e => rw [hkey] at h; cases h
    | ok key' =>
        rw [hkey] at h
        cases h
        rfl

/-- **A file that keeps them is detected.** -/
theorem Kept.detected (unpacks : crates.Unpacks) (ideal : crates.Ideal versions)
    (honly : ∀ v ∈ versions, v.oid = oid → v.plain = plain) (hsize : held.length < maxU64)
    (hwhole : Reader.Whole held reader) (kept : Kept crates versions ring oid plain held) :
    Detected crates ring oid plain held reader := by
  intro f hopen hsealed hdone
  obtain ⟨key, hkey⟩ := Option.isSome_iff_exists.mp hsealed
  obtain ⟨hkeyOf, hplaintext, hframe, hoid, hframes, hpos, hstored, hoffsets⟩ :=
    Framed.open_eq_some hsize hwhole hopen
  rw [hkey] at hkeyOf
  rw [kept.plaintext] at hplaintext
  rw [kept.frame] at hframe
  rw [kept.plaintext, kept.frame] at hframes
  have hlt : (Framed.stated held).frames < 2 ^ 32 := Header.frames_parse_lt (prefixOf held)
  have hcover : plain.length ≤ (Framed.stated held).frames * f.frame := by
    rw [hframes, hframe]
    exact Piece.divCeil_le (by decide)
  rw [hplaintext] at hdone ⊢
  have hpos' : 0 < f.frame := by rwa [hframe, ← kept.frame]
  have hle : 0 + plain.length ≤ plain.length := by omega
  refine (Framed.stream_sound hpos' hoffsets hcover ?_ hle hdone).trans (slice_all plain)
  intro i lo hi body out hlo hhi _ hout
  have hi' : i < 2 ^ 32 := by
    have := (List.getElem?_eq_some_iff.mp hhi).1
    omega
  obtain ⟨v, hv, hvoid, hcipher, packed, isStored, hpacks, hread⟩ :=
    decode_sealed ideal hkey hi' hout
  rw [hoid] at hvoid
  have hunpack := hpacks.unpack unpacks
  rw [honly v hv hvoid] at hunpack
  rw [hframe]
  rcases hunpack with ⟨rfl, hpacked⟩ | ⟨rfl, hshort, hunpacked⟩
  · have hflag := kept.stored key (sealedKey_of_keyOf hkeyOf) v hv hvoid hcipher i packed hpacks
    rw [hstored, if_pos hflag] at hread
    exact Or.inl (hread.trans hpacked)
  · split at hread
    · exact Or.inr ⟨Nat.zero_add _, by rw [hread]; exact hshort⟩
    · rw [hframe, hunpacked] at hread
      exact Or.inl (Option.some.inj hread).symm

/-- An object of no bytes has no frame that could open. -/
theorem detected_nil (ideal : crates.Ideal versions)
    (honly : ∀ v ∈ versions, v.oid = oid → v.plain = []) (hsize : held.length < maxU64)
    (hwhole : Reader.Whole held reader) : Detected crates ring oid [] held reader := by
  intro f hopen hsealed hdone
  obtain ⟨key, hkey⟩ := Option.isSome_iff_exists.mp hsealed
  obtain ⟨-, hplaintext, hframe, hoid, hframes, hpos, -, hoffsets⟩ :=
    Framed.open_eq_some hsize hwhole hopen
  by_cases hzero : f.plaintext = 0
  · rw [hzero, Framed.stream, Framed.run_streamFrom_zero]
    rfl
  · have hone : 0 < (Framed.stated held).frames := by
      have hcover := Piece.divCeil_le (a := (Framed.stated held).plaintext) hpos
      rw [← hframes] at hcover
      by_contra hno
      have : (Framed.stated held).frames = 0 := by omega
      rw [this] at hcover
      omega
    obtain ⟨lo, hlo⟩ : ∃ lo, f.offsets[0 / f.frame]? = some lo :=
      ⟨_, List.getElem?_eq_getElem (by rw [Nat.zero_div]; omega)⟩
    obtain ⟨hi, hhi⟩ : ∃ hi, f.offsets[0 / f.frame + 1]? = some hi :=
      ⟨_, List.getElem?_eq_getElem (by rw [Nat.zero_div]; omega)⟩
    rw [Framed.run_stream_succ hzero hlo hhi] at hdone
    cases hread : reader ⟨lo, hi - lo⟩ with
    | error e => rw [hread] at hdone; cases hdone
    | ok body =>
        rw [hread] at hdone
        simp only [Except.bind] at hdone
        cases hitem : f.yield crates (0 / f.frame) 0 f.plaintext body with
        | error e => rw [hitem] at hdone; cases hdone
        | ok bytes =>
            obtain ⟨out, hout, -, -⟩ := Framed.yield_eq_ok hitem
            obtain ⟨v, hv, hvoid, -, packed, isStored, ⟨frame, hplain, -⟩, -⟩ :=
              decode_sealed ideal hkey (by rw [Nat.zero_div]; decide) hout
            rw [honly v hv (hvoid.trans hoid)] at hplain
            simp at hplain

/-- The header of an empty object, under a key of the ring, is a file of its own. -/
theorem header_streams_nothing (ring : Keyring crates) (oid : Oid) (salt : Salt) :
    let forged := Piece.container (some (ring.writing salt)) 0 []
    ∃ f, (Framed.open crates forged.length (some ring) oid).run (Reader.file forged) =
        .ok (some f) ∧ f.key.isSome ∧
      (f.stream crates 0 f.plaintext).run (Reader.file forged) = ⟨[], .ok ()⟩ := by
  obtain ⟨master, hholds, hwriting⟩ := ring.writing_eq salt
  have hreading := Keyring.reading_of_holds hholds salt
  refine ⟨Piece.framed 0 [] (some (ring.writing salt)) (some (ring.writing salt)) oid, ?_, rfl, ?_⟩
  · rw [Framed.open_container Piece.fits_nil, Framed.keyOf_container Piece.fits_nil]
    simp only [hwriting, ObjectKey.derive] at hreading ⊢
    rw [hreading]
    rfl
  · exact Framed.run_streamFrom_zero 0 0

/-- **What is detected.**  Once the versions of an object were sealed under an
ideal cipher, a file in its place that keeps the length of the plaintext, the
frame size and the stored flags is detected, and every file in its place is
detected if and only if the object is empty. -/
theorem detected_iff (unpacks : crates.Unpacks) (ideal : crates.Ideal versions)
    (ring : Keyring crates) (oid : Oid) (plain : Bytes)
    (honly : ∀ v ∈ versions, v.oid = oid → v.plain = plain) :
    (∀ held reader, held.length < maxU64 → Reader.Whole held reader →
      Kept crates versions ring oid plain held → Detected crates ring oid plain held reader) ∧
    ((∀ held reader, held.length < maxU64 → Reader.Whole held reader →
      Detected crates ring oid plain held reader) ↔ plain = []) := by
  refine ⟨fun held reader hsize hwhole kept => kept.detected unpacks ideal honly hsize hwhole, ?_⟩
  constructor
  · intro hall
    obtain ⟨f, hopen, hsealed, hstream⟩ :=
      header_streams_nothing ring oid ⟨List.replicate 16 0, rfl⟩
    have hnothing := hall _ _ (Piece.fits_nil.length_container_lt _) (Reader.whole_file _) f hopen
      hsealed (by rw [hstream])
    rw [hstream] at hnothing
    exact hnothing.symm
  · rintro rfl held reader hsize hwhole
    exact detected_nil ideal honly hsize hwhole

end Detected

/-! ## One byte, sealed -/

namespace OneByte

def master : MasterKey := ⟨List.replicate 32 7, by decide⟩

def salt : Salt := ⟨List.replicate 16 9, by decide⟩

/-- One byte, sealed under the key of `master` and `salt`. -/
def version : Version where
  key := ObjectKey.derive Crates.plain master (Crates.plain.identify master) salt
  level := none
  oid := Oid.zeros
  plain := [0x78]
  frames := by decide

/-- The seal of its frame. -/
def body : Bytes := 0x78 :: List.replicate Crypt.tag 0

/-- Crates whose cipher has sealed that frame and opens nothing else. -/
def crates : Crates :=
  { Crates.plain with
    decrypt := fun cipher nonce aad sealed =>
      if cipher = version.key.cipher ∧ nonce = Crypt.nonce 0 ∧
          aad = Crypt.associated 0 true Oid.zeros ∧ sealed = body then some [0x78]
      else none }

theorem framesOf_version : framesOf frame version.plain = [[0x78]] :=
  framesOf_of_le (by decide) (by decide)

theorem ideal : crates.Ideal [version] := by
  intro cipher nonce aad sealed body h
  simp only [crates, Option.ite_none_right_eq_some] at h
  obtain ⟨⟨rfl, rfl, rfl, rfl⟩, hbody⟩ := h
  cases hbody
  refine ⟨version, List.mem_singleton_self _, 0, true, ⟨[0x78], ?_, rfl⟩, rfl, rfl, ?_, rfl⟩
  · rw [framesOf_version]
    rfl
  · rw [framesOf_version]
    rfl

theorem unpacks : crates.Unpacks := Crates.lawful_plain.decompress_compress

/-- The file that was written for it. -/
def file : Bytes := Piece.container (some version.key) 1 [⟨body, true⟩]

theorem write_file :
    Writer.write crates none (some version.key) Oid.zeros [[0x78]] = .ok file := by
  have hframes : framesOf frame [[(0x78 : UInt8)]].flatten = [[0x78]] := framesOf_version
  rw [Writer.write_eq, hframes]
  rfl

def ring : Keyring crates := Keyring.single crates master

/-- The file with its sealed byte changed. -/
def changed : Bytes :=
  Piece.container (some version.key) 1 [⟨0x79 :: List.replicate Crypt.tag 0, true⟩]

theorem stored_kept {held : Bytes} (h : (Framed.storedOf held).getD 0 false = true) :
    ∀ key, Framed.sealedKey crates (prefixOf held) (some ring) = .ok key →
      ∀ v ∈ [version], v.oid = Oid.zeros → v.key.cipher = key.cipher →
      ∀ i body, v.Packs crates i body true → (Framed.storedOf held).getD i false = true := by
  intro key _ v hv _ _ i body hpacks
  obtain rfl := List.mem_singleton.mp hv
  obtain ⟨plain, hplain, -⟩ := hpacks
  rw [framesOf_version] at hplain
  obtain ⟨hi, -⟩ := List.getElem?_eq_some_iff.mp hplain
  obtain rfl : i = 0 := by simpa using hi
  exact h

/-- The file itself and one with its sealed byte changed keep everything, and are detected. -/
theorem detected_file :
    changed ≠ file ∧ Detected crates ring Oid.zeros [0x78] changed (Reader.file changed) ∧
      Detected crates ring Oid.zeros [0x78] file (Reader.file file) := by
  have hfits : Piece.Fits 1 [⟨body, true⟩] := ⟨by decide, by decide, by decide⟩
  have hfits' : Piece.Fits 1 [⟨0x79 :: List.replicate Crypt.tag 0, true⟩] :=
    ⟨by decide, by decide, by decide⟩
  have hkept := (detected_iff unpacks ideal ring Oid.zeros [0x78] (by simp [version])).1
  exact ⟨by decide, hkept changed _ (hfits'.length_container_lt _) (Reader.whole_file _)
      ⟨by decide, by decide, stored_kept (by decide)⟩,
    hkept file _ (hfits.length_container_lt _) (Reader.whole_file _)
      ⟨by decide, by decide, stored_kept (by decide)⟩⟩

/-- **The header alone is not detected**: cut off there and made to state an empty
object, the file streams nothing, and no error. -/
theorem header_not_detected :
    Writer.write crates none (some version.key) Oid.zeros [[0x78]] = .ok file ∧
      crates.Ideal [version] ∧
      let forged := Piece.container (some version.key) 0 []
      ¬ Detected crates ring Oid.zeros [0x78] forged (Reader.file forged) := by
  refine ⟨write_file, ideal, fun hdetected => ?_⟩
  obtain ⟨f, hopen, hsealed, hstream⟩ := header_streams_nothing ring Oid.zeros salt
  have hnothing := hdetected f hopen hsealed (by
    rw [show version.key = ring.writing salt from rfl, hstream])
  rw [show version.key = ring.writing salt from rfl, hstream] at hnothing
  cases hnothing

end OneByte

end Lfsx.Storage
