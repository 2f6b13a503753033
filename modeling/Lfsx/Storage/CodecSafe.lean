import Lfsx.Storage.Checked
import Lfsx.Storage.CodecTampering

/-!
# Hostile files

`Framed::open` and `Framed::stream` once more, with each step that could panic: a slice, an
index, an addition that overflows, a subtraction below zero, a division by zero, a read no
buffer is large enough for.  A checked function gives `none` where the code would panic, and
a checked stream also if it has not ended after as many items as there are bytes wanted.

On any bytes they give what the functions without the checks give (`open_checked`,
`stream_checked`), so none of the steps panics and every stream ends.
-/

namespace Lfsx.Storage

open Request Codec

/-! ## Steps that may panic -/

namespace Checked

/-- `&bytes[lo..hi]`. -/
def part (bytes : Bytes) (lo hi : Nat) : Option Bytes :=
  if lo ≤ hi ∧ hi ≤ bytes.length then some (slice bytes lo (hi - lo)) else none

/-- `u64::from_le_bytes(bytes[lo..lo + n].try_into().expect(..))`. -/
def word (bytes : Bytes) (lo n : Nat) : Option Nat :=
  match part bytes lo (lo + n) with
  | some field => if field.length = n then some (fromLe field) else none
  | none => none

/-- `copy_from_slice(&bytes[lo..lo + n])`, into an array of `n`. -/
def array (bytes : Bytes) (lo n : Nat) : Option (Fixed n) :=
  match part bytes lo (lo + n) with
  | some field => if h : field.length = n then some ⟨field, h⟩ else none
  | none => none

/-- A read: its last byte is computed, and a buffer is made for it. -/
def readAt (offset length : Nat) : Reading (Option (Except Error Bytes)) :=
  if offset + (length - 1) ≤ maxU64 ∧ length < 2 ^ 63 then do
    let answer ← Storage.readAt offset length
    pure (some answer)
  else pure none

theorem part_eq {bytes : Bytes} {lo n : Nat} (h : lo + n ≤ bytes.length) :
    part bytes lo (lo + n) = some (slice bytes lo n) := by
  rw [part, if_pos ⟨Nat.le_add_right _ _, h⟩, Nat.add_sub_cancel_left]

theorem word_eq {bytes : Bytes} {lo n : Nat} (h : lo + n ≤ bytes.length) :
    word bytes lo n = some (fromLe (slice bytes lo n)) := by
  rw [word, part_eq h]
  exact if_pos (length_slice_of_le h)

theorem array_eq {bytes : Bytes} {lo n : Nat} (h : lo + n ≤ bytes.length) :
    array bytes lo n = some (Framed.array bytes lo n) := by
  have hlength : (slice bytes lo n).length = n := length_slice_of_le h
  rw [array, part_eq h]
  dsimp only
  rw [dif_pos hlength, Option.some.injEq]
  apply Subtype.ext
  show slice bytes lo n = (slice bytes lo n ++ List.replicate n 0).take n
  rw [List.take_append_of_le_length hlength.ge, List.take_of_length_le hlength.le]

theorem run_readAt {reader : ReadAt → Except Error Bytes} {offset length : Nat}
    (h : offset + (length - 1) ≤ maxU64 ∧ length < 2 ^ 63) :
    (readAt offset length).run reader = some (reader ⟨offset, length⟩) := by
  rw [readAt, if_pos h]
  rfl

end Checked

/-! ## Opening -/

namespace Checked

def begins (bytes : Bytes) : Option Bool :=
  if bytes.length < header then some false
  else do
    let head ← part bytes 0 4
    if head ≠ magic then return false
    let version ← bytes[4]?
    return version == vPlain || version == vSealed

def parse (bytes : Bytes) : Option Header := do
  let version ← bytes[4]?
  let plaintext ← word bytes 8 8
  let frame ← word bytes 16 4
  let frames ← word bytes 20 4
  let index ← word bytes 24 8
  return { version, plaintext, frame, frames, index }

def isPlausible (plaintext frameSize frames : Nat) : Option Bool :=
  if frameMin ≤ frameSize && frameSize ≤ frameMax then
    if frameSize = 0 then none else some (frames == divCeil plaintext frameSize)
  else some false

def accept (bytes : Bytes) (onDisk : Nat) : Option (Option Header) := do
  if !(← begins bytes) then return none
  let h ← parse bytes
  if !(← isPlausible h.plaintext h.frame h.frames) then return none
  if headerLen h.version ≤ h.index && saturatingAdd h.index h.indexed == onDisk
      && headerLen h.version ≤ bytes.length then return some h
  return none

def keyOf (crates : Crates) (h : Header) (bytes : Bytes) (keys : Option (Keyring crates)) :
    Option (Except Error (Option ObjectKey)) :=
  if h.version = vSealed then
    match keys with
    | none => some (.error .notDecryptable)
    | some ring => do
        let id ← array bytes 32 Crypt.id
        let salt ← array bytes 36 Crypt.salt
        return (ring.reading id salt).map some
  else some (.ok none)

/-- Where each frame starts, and where the last one ends. -/
def offsetsFrom : Nat → List Nat → Option (List Nat)
  | start, [] => some [start]
  | start, entry :: rest => do
      let next ← add start (lengthOf entry)
      let offsets ← offsetsFrom next rest
      return start :: offsets

def ofIndex (h : Header) (key : Option ObjectKey) (oid : Oid) (lengths : Bytes) :
    Option (Option Framed) := do
  let _capacity ← add h.frames 1
  let offsets ← offsetsFrom (headerLen h.version) (Framed.entries lengths)
  if offsets.getLast? = some h.index then
    return some
      { plaintext := h.plaintext, frame := h.frame, frames := h.frames, offsets
        stored := (Framed.entries lengths).map isStored, key, oid }
  return none

def «open» (crates : Crates) (onDisk : Nat) (keys : Option (Keyring crates)) (oid : Oid) :
    Reading (Option (Except Error (Option Framed))) :=
  if onDisk < header then pure (some (.ok none))
  else do
    match ← readAt 0 (min sealedHeader onDisk) with
    | none => pure none
    | some answer =>
        let bytes := answer.toOption.getD []
        match accept bytes onDisk with
        | none => pure none
        | some none => pure (some (.ok none))
        | some (some h) =>
            match keyOf crates h bytes keys with
            | none => pure none
            | some (.error e) => pure (some (.error e))
            | some (.ok key) => do
                match ← readAt h.index h.indexed with
                | none => pure none
                | some (.error e) => pure (some (.error e))
                | some (.ok lengths) => pure ((ofIndex h key oid lengths).map .ok)

theorem begins_eq (bytes : Bytes) : begins bytes = some (Header.begins bytes) := by
  rw [begins, Header.begins]
  by_cases hlen : bytes.length < header
  · rw [if_pos hlen, decide_eq_false (Nat.not_le.mpr hlen)]
    rfl
  · have h32 : 32 ≤ bytes.length := Nat.not_lt.mp hlen
    have hhead : part bytes 0 4 = some (slice bytes 0 4) :=
      part_eq (show 0 + 4 ≤ bytes.length by omega)
    have hversion : bytes[4]? = some (bytes.getD 4 0) := by
      rw [List.getD_eq_getElem _ _ (by omega), List.getElem?_eq_getElem]
    rw [if_neg hlen, decide_eq_true (Nat.not_lt.mp hlen), hhead, hversion]
    by_cases hmagic : slice bytes 0 4 = magic
    · simp [hmagic]
    · simp [hmagic]

theorem parse_eq {bytes : Bytes} (h : header ≤ bytes.length) :
    parse bytes = some (Header.parse bytes) := by
  have h32 : 32 ≤ bytes.length := h
  have hversion : bytes[4]? = some (bytes.getD 4 0) := by
    rw [List.getD_eq_getElem _ _ (by omega), List.getElem?_eq_getElem]
  rw [parse, hversion, word_eq (show 8 + 8 ≤ bytes.length by omega),
    word_eq (show 16 + 4 ≤ bytes.length by omega),
    word_eq (show 20 + 4 ≤ bytes.length by omega),
    word_eq (show 24 + 8 ≤ bytes.length by omega)]
  rfl

theorem isPlausible_eq (plaintext frameSize frames : Nat) :
    isPlausible plaintext frameSize frames =
      some (Codec.isPlausible plaintext frameSize frames) := by
  rw [isPlausible, Codec.isPlausible]
  by_cases hframe : (frameMin ≤ frameSize && frameSize ≤ frameMax) = true
  · have hpos : frameSize ≠ 0 := by
      rw [Bool.and_eq_true, decide_eq_true_eq] at hframe
      have : 0 < frameMin := by decide
      omega
    rw [if_pos hframe, if_neg hpos, hframe, Bool.true_and]
  · rw [if_neg hframe, Bool.eq_false_iff.mpr hframe, Bool.false_and]

theorem accept_eq (bytes : Bytes) (onDisk : Nat) :
    accept bytes onDisk = some (Header.accept bytes onDisk) := by
  rw [accept, begins_eq, Header.accept]
  by_cases hbegins : Header.begins bytes = true
  · have hlen : header ≤ bytes.length := by
      simp only [Header.begins, Bool.and_eq_true, decide_eq_true_eq] at hbegins
      exact hbegins.1.1
    rw [hbegins, parse_eq hlen, Bool.true_and]
    simp only [Header.agrees, isPlausible_eq, Option.bind_eq_bind, Option.bind_some,
      Bool.not_true, Bool.false_eq_true, if_false]
    by_cases hlength : Codec.isPlausible (Header.parse bytes).plaintext
        (Header.parse bytes).frame (Header.parse bytes).frames = true
    · simp only [hlength, Bool.not_true, Bool.false_eq_true, if_false, Bool.true_and]
      split <;> rfl
    · rw [Bool.not_eq_true] at hlength
      simp only [hlength, Bool.not_false, if_true, Bool.false_and, Bool.false_eq_true, if_false]
      rfl
  · rw [Bool.eq_false_iff.mpr hbegins, Bool.false_and]
    rfl

theorem keyOf_eq {crates : Crates} {h : Header} {bytes : Bytes}
    (hlen : headerLen h.version ≤ bytes.length) (keys : Option (Keyring crates)) :
    keyOf crates h bytes keys = some (Framed.keyOf crates h bytes keys) := by
  unfold keyOf Framed.keyOf
  by_cases hsealed : h.version = vSealed
  · rw [headerLen, if_pos hsealed] at hlen
    have h64 : 64 ≤ bytes.length := hlen
    rw [if_pos hsealed, if_pos hsealed]
    cases keys with
    | none => rfl
    | some ring =>
        have hid : array bytes 32 Crypt.id = some (Framed.array bytes 32 Crypt.id) :=
          array_eq (show 32 + 4 ≤ bytes.length by omega)
        have hsalt : array bytes 36 Crypt.salt = some (Framed.array bytes 36 Crypt.salt) :=
          array_eq (show 36 + 16 ≤ bytes.length by omega)
        simp only [hid, hsalt]
        rfl
  · rw [if_neg hsealed, if_neg hsealed]

theorem offsetsFrom_eq (start : Nat) (words : List Nat)
    (h : start + (words.map lengthOf).sum ≤ maxU64) :
    offsetsFrom start words = some (Framed.offsetsOf start words) := by
  induction words generalizing start with
  | nil => rfl
  | cons word words ih =>
      rw [List.map_cons, List.sum_cons] at h
      rw [offsetsFrom, add_eq (by omega)]
      simp only [Option.bind_eq_bind, Option.bind_some]
      rw [ih _ (by omega), Framed.offsetsOf, Framed.offsetsOf, List.scanl_cons]
      rfl

/-- A length is at most `2 ^ 31 - 1`. -/
theorem sum_lengthOf_le (words : List Nat) :
    (words.map lengthOf).sum ≤ words.length * 2 ^ 31 := by
  induction words with
  | nil => simp
  | cons word words ih =>
      have hword : lengthOf word ≤ 2 ^ 31 - 1 := Nat.and_le_right
      rw [List.map_cons, List.sum_cons, List.length_cons]
      omega

theorem length_entries_le (bytes : Bytes) : 4 * (Framed.entries bytes).length ≤ bytes.length := by
  induction bytes using Framed.entries.induct with
  | case1 a b c d rest ih =>
      rw [Framed.entries]
      simp only [List.length_cons]
      omega
  | case2 bytes h =>
      rw [Framed.entries]
      · simp
      · exact h

theorem getLast?_offsetsOf (start : Nat) (words : List Nat) :
    (Framed.offsetsOf start words).getLast? = some (start + (words.map lengthOf).sum) := by
  rw [List.getLast?_eq_getElem?, Framed.length_offsetsOf, Nat.add_sub_cancel,
    Framed.getElem?_offsetsOf _ _ (le_refl _), List.take_length]

theorem ofIndex_eq {h : Header} {lengths : Bytes} (hframes : h.frames < 2 ^ 32)
    (hlengths : lengths.length ≤ 4 * 2 ^ 32) (key : Option ObjectKey) (oid : Oid) :
    ofIndex h key oid lengths = some (Framed.ofIndex h key oid lengths) := by
  have hwords : (Framed.entries lengths).length ≤ 2 ^ 32 := by
    have := length_entries_le lengths
    omega
  have hheader : headerLen h.version ≤ 64 := by
    rw [headerLen]
    split <;> decide
  have hsum : headerLen h.version + ((Framed.entries lengths).map lengthOf).sum ≤ maxU64 := by
    have hle := sum_lengthOf_le (Framed.entries lengths)
    rw [maxU64]
    omega
  have hcapacity : add h.frames 1 = some (h.frames + 1) := add_eq (by rw [maxU64]; omega)
  rw [ofIndex, hcapacity, offsetsFrom_eq _ _ hsum, Framed.ofIndex]
  simp only [Option.bind_eq_bind, Option.bind_some, getLast?_offsetsOf, Option.some.injEq]
  split <;> rfl

end Checked

/-- **No step of `open` panics.** -/
theorem Framed.open_checked {crates : Crates} {held : Bytes}
    {reader : ReadAt → Except Error Bytes} (hsize : held.length < maxU64)
    (hover : Reader.Over held reader) (keys : Option (Keyring crates)) (oid : Oid) :
    (Checked.open crates held.length keys oid).run reader =
      some ((Framed.open crates held.length keys oid).run reader) := by
  rw [run_open, Checked.open]
  by_cases hlen : held.length < header
  · rw [if_pos hlen, if_pos hlen]
    rfl
  · have hheader : 0 + (min sealedHeader held.length - 1) ≤ maxU64 ∧
        min sealedHeader held.length < 2 ^ 63 := by
      rw [sealedHeader, maxU64]
      omega
    rw [if_neg hlen, if_neg hlen, Reading.run_bind, Checked.run_readAt hheader]
    simp only [Checked.accept_eq]
    set bytes := (reader ⟨0, min sealedHeader held.length⟩).toOption.getD []
    rw [openAfter]
    cases haccept : Header.accept bytes held.length with
    | none => rfl
    | some h =>
        obtain ⟨-, hparse, hagrees⟩ := Header.accept_eq_some haccept
        have hframes : h.frames < 2 ^ 32 := hparse ▸ Header.frames_parse_lt bytes
        have hindexed : h.indexed = 4 * h.frames := hparse ▸ Header.indexed_parse bytes
        simp only [Header.agrees, Bool.and_eq_true, decide_eq_true_eq, beq_iff_eq,
          saturatingAdd] at hagrees
        obtain ⟨⟨-, hindex⟩, hread⟩ := hagrees
        simp only [Checked.keyOf_eq hread]
        cases hkey : keyOf crates h bytes keys with
        | error e => rfl
        | ok key =>
            have hrange : h.index + (h.indexed - 1) ≤ maxU64 ∧ h.indexed < 2 ^ 63 := by
              rw [maxU64] at hsize hindex ⊢
              omega
            simp only [Reading.run_bind, Checked.run_readAt hrange]
            cases hanswer : reader ⟨h.index, h.indexed⟩ with
            | error e => rfl
            | ok lengths =>
                have hlengths : lengths.length ≤ 4 * 2 ^ 32 := by
                  have hle := (hover _ _ hanswer).length_le
                  rw [length_slice] at hle
                  simp only at hle
                  omega
                simp only [Checked.ofIndex_eq hframes hlengths]
                rfl

/-! ## What is accepted -/

/-- What a container that was opened is like. -/
structure Framed.WellFormed (held : Bytes) (f : Framed) : Prop where
  frame : 64 * 1024 ≤ f.frame ∧ f.frame ≤ 16 * 1024 * 1024
  frames : f.frames = divCeil f.plaintext f.frame
  offsets : f.offsets.length = f.frames + 1
  /-- The frames begin where the header ends, -/
  first : f.offsets[0]? = some (if f.key.isSome then sealedHeader else header)
  rising : f.offsets.Pairwise (· ≤ ·)
  /-- and end where the index begins, which ends where the file does. -/
  last : ∃ index, f.offsets[f.frames]? = some index ∧ index + 4 * f.frames = held.length

namespace Framed

variable {crates : Crates} {held : Bytes} {reader : ReadAt → Except Error Bytes}
  {keys : Option (Keyring crates)} {oid : Oid} {f : Framed}

theorem le_of_mem_offsetsOf {start : Nat} {words : List Nat} {offset : Nat}
    (h : offset ∈ offsetsOf start words) : start ≤ offset := by
  induction words generalizing start with
  | nil => exact (List.mem_singleton.mp h).ge
  | cons word words ih =>
      rw [offsetsOf, List.scanl_cons, List.mem_cons] at h
      rcases h with rfl | h
      · exact le_refl _
      · exact le_trans (Nat.le_add_right _ _) (ih h)

theorem pairwise_offsetsOf (start : Nat) (words : List Nat) :
    (offsetsOf start words).Pairwise (· ≤ ·) := by
  induction words generalizing start with
  | nil => exact List.pairwise_singleton _ _
  | cons word words ih =>
      rw [offsetsOf, List.scanl_cons, List.pairwise_cons]
      refine ⟨fun offset h => ?_, ih _⟩
      exact le_trans (Nat.le_add_right _ _) (le_of_mem_offsetsOf h)

/-- A frame has less than `2 ^ 31` bytes on disk. -/
theorem offsetsOf_succ {start : Nat} {words : List Nat} {i lo hi : Nat}
    (hlo : (offsetsOf start words)[i]? = some lo)
    (hhi : (offsetsOf start words)[i + 1]? = some hi) : lo ≤ hi ∧ hi - lo < 2 ^ 31 := by
  obtain ⟨word, -, hstep⟩ := offsetsOf_step hlo hhi
  have hword : lengthOf word ≤ 2 ^ 31 - 1 := Nat.and_le_right
  omega

/-- The key of a container is there if the header says it is sealed. -/
theorem isSome_keyOf {h : Header} {bytes : Bytes} {key : Option ObjectKey}
    (hkey : keyOf crates h bytes keys = .ok key) : key.isSome = (h.version = vSealed) := by
  rw [keyOf] at hkey
  split at hkey
  case isTrue hsealed =>
    cases hopen : sealedKey crates bytes keys with
    | error e => rw [hopen] at hkey; cases hkey
    | ok key' =>
        rw [hopen] at hkey
        cases hkey
        simp [hsealed]
  case isFalse hsealed =>
    cases hkey
    simp [hsealed]

/-- **What `open` accepts.** -/
theorem wellFormed_of_open (hsize : held.length < maxU64) (hwhole : Reader.Whole held reader)
    (h : (Framed.open crates held.length keys oid).run reader = .ok (some f)) :
    WellFormed held f := by
  obtain ⟨hheader, key, hkey, hof⟩ := ofIndex_of_open hsize hwhole h
  have hindex := Container.index_le hsize hheader
  have hlength := length_entries_of_header hsize hheader
  have hindexed : (stated held).indexed = 4 * (stated held).frames :=
    Header.indexed_parse (prefixOf held)
  obtain ⟨-, haccept⟩ := Container.header?_eq_some hheader
  obtain ⟨-, -, hagrees⟩ := Header.accept_eq_some haccept
  simp only [Header.agrees, isPlausible, Bool.and_eq_true, decide_eq_true_eq,
    beq_iff_eq] at hagrees
  obtain ⟨⟨⟨⟨hframe, hframes⟩, -⟩, -⟩, -⟩ := hagrees
  obtain ⟨hfilled, rfl⟩ := ofIndex_eq_some hof
  refine ⟨hframe, hframes, ?_, ?_, pairwise_offsetsOf _ _, (stated held).index, ?_, ?_⟩
  · rw [length_offsetsOf, hlength]
  · have hsealed := isSome_keyOf hkey
    rw [getElem?_offsetsOf _ _ (Nat.zero_le _), List.take_zero]
    simp only [List.map_nil, List.sum_nil, Nat.add_zero, hsealed, headerLen]
  · rw [getElem?_offsetsOf _ _ hlength.ge, ← hlength, List.take_length, hfilled]
  · rw [← hindexed, hindex]

end Framed

/-! ## Streaming -/

namespace Checked

variable (crates : Crates)

/-- The counter of the frame is a `u32`, and so is the one after it. -/
def unsealed (f : Framed) (index : Nat) (body : Bytes) : Option (Except Error Bytes) :=
  match f.key with
  | some key =>
      if index % 2 ^ 32 + 1 < 2 ^ 32 then
        some (key.openFrame crates (index % 2 ^ 32) (index % 2 ^ 32 + 1 == f.frames) f.oid body)
      else none
  | none => some (.ok body)

def decode (f : Framed) (index : Nat) (body : Bytes) : Option (Except Error Bytes) :=
  match unsealed crates f index body with
  | none => none
  | some (.error e) => some (.error e)
  | some (.ok body) =>
      if f.stored.getD index false then some (.ok body)
      else
        match crates.decompress body f.frame with
        | some plain => some (.ok plain)
        | none => some (.error (.storage "zstd"))

def yield (f : Framed) (index pos wanted : Nat) (body : Bytes) : Option (Except Error Bytes) :=
  match decode crates f index body with
  | none => none
  | some (.error e) => some (.error e)
  | some (.ok plain) => do
      let skip ← rem pos f.frame
      let take := min wanted (plain.length - skip)
      if take = 0 then return .error (.storage (f.shortFrame index plain.length skip))
      let last ← add skip take
      let bytes ← part plain skip last
      return .ok bytes

/-- The stream from `pos`, which is to end within `fuel` items. -/
def streamFrom (f : Framed) : (fuel pos wanted : Nat) → Reading (Option Streamed)
  | 0, _, wanted => pure (if wanted = 0 then some ⟨[], .ok ()⟩ else none)
  | fuel + 1, pos, wanted =>
      if wanted = 0 then pure (some ⟨[], .ok ()⟩)
      else
        match div pos f.frame with
        | none => pure none
        | some index =>
            match add index 2 with
            | none => pure none
            | some _ =>
                match f.offsets[index]?, f.offsets[index + 1]? with
                | some lo, some hi =>
                    match sub hi lo with
                    | none => pure none
                    | some length => do
                        match ← readAt lo length with
                        | none => pure none
                        | some (.error e) => pure (some ⟨[], .error e⟩)
                        | some (.ok body) =>
                            match yield crates f index pos wanted body with
                            | none => pure none
                            | some (.error e) => pure (some ⟨[], .error e⟩)
                            | some (.ok bytes) =>
                                match add pos bytes.length, sub wanted bytes.length with
                                | some pos, some wanted => do
                                    let rest ← streamFrom f fuel pos wanted
                                    pure (rest.map fun r => ⟨bytes :: r.items, r.outcome⟩)
                                | _, _ => pure none
                | _, _ => pure (some ⟨[], .ok ()⟩)

def stream (f : Framed) (start length : Nat) : Reading (Option Streamed) :=
  streamFrom crates f length start length

variable {crates}

theorem unsealed_eq {f : Framed} {index : Nat} (h : index + 1 < 2 ^ 32) (body : Bytes) :
    unsealed crates f index body = some (f.unsealed crates index body) := by
  have hmod : index % 2 ^ 32 = index := Nat.mod_eq_of_lt (by omega)
  rw [unsealed, Framed.unsealed]
  cases f.key with
  | none => rfl
  | some key =>
      simp only [hmod]
      rw [if_pos h]

theorem decode_eq {f : Framed} {index : Nat} (h : index + 1 < 2 ^ 32) (body : Bytes) :
    decode crates f index body = some (f.decode crates index body) := by
  rw [decode, unsealed_eq h, Framed.decode]
  cases f.unsealed crates index body with
  | error e => rfl
  | ok plain =>
      simp only [bind, Except.bind]
      split
      · rfl
      · cases crates.decompress plain f.frame <;> rfl

theorem yield_eq {f : Framed} {index pos wanted : Nat} (h : index + 1 < 2 ^ 32)
    (hframe : 0 < f.frame) (hpos : pos + wanted ≤ maxU64) (body : Bytes) :
    yield crates f index pos wanted body = some (f.yield crates index pos wanted body) := by
  rw [yield, decode_eq h, Framed.yield]
  cases f.decode crates index body with
  | error e => rfl
  | ok plain =>
      have hskip : pos % f.frame ≤ pos := Nat.mod_le pos f.frame
      have hrem : rem pos f.frame = some (pos % f.frame) := rem_eq (by omega)
      simp only [hrem, bind, Option.bind, Except.bind]
      split
      · rfl
      case isFalse htake =>
        have hadd : add (pos % f.frame) (min wanted (plain.length - pos % f.frame)) =
            some (pos % f.frame + min wanted (plain.length - pos % f.frame)) :=
          add_eq (by omega)
        simp only [hadd]
        rw [part_eq (by omega)]
        rfl

/-- What the arithmetic of a stream needs of a container. -/
structure Bounded (f : Framed) : Prop where
  plaintext : f.plaintext ≤ maxU64
  frame : 64 * 1024 ≤ f.frame
  frames : f.frames < 2 ^ 32
  offsets : f.offsets.length = f.frames + 1
  body : ∀ i lo hi, f.offsets[i]? = some lo → f.offsets[i + 1]? = some hi →
    lo ≤ hi ∧ hi - lo < 2 ^ 31 ∧ hi ≤ maxU64

/-- By induction on the items it may still give: every frame that is read gives at least a
byte of what is wanted. -/
theorem run_streamFrom_eq {f : Framed} {reader : ReadAt → Except Error Bytes} (hf : Bounded f)
    {fuel pos wanted : Nat} (hfuel : wanted ≤ fuel) (hpos : pos + wanted ≤ f.plaintext) :
    (streamFrom crates f fuel pos wanted).run reader =
      some ((f.streamFrom crates fuel pos wanted).run reader) := by
  have hplaintext := hf.plaintext
  have hframe := hf.frame
  induction fuel generalizing pos wanted with
  | zero =>
      obtain rfl : wanted = 0 := by omega
      rfl
  | succ fuel ih =>
      by_cases hwanted : wanted = 0
      · rw [streamFrom, Framed.streamFrom, if_pos hwanted, if_pos hwanted]
        rfl
      · have hdiv : div pos f.frame = some (pos / f.frame) := div_eq (by omega)
        have hle : pos / f.frame ≤ pos / (64 * 1024) := Nat.div_le_div_left hframe (by omega)
        have hadd : add (pos / f.frame) 2 = some (pos / f.frame + 2) := by
          apply add_eq
          rw [maxU64] at hplaintext ⊢
          omega
        rw [streamFrom, if_neg hwanted, hdiv]
        simp only [hadd]
        cases hlo : f.offsets[pos / f.frame]? with
        | none =>
            rw [Framed.streamFrom, if_neg hwanted]
            simp only [hlo]
            rfl
        | some lo =>
            cases hhi : f.offsets[pos / f.frame + 1]? with
            | none =>
                rw [Framed.streamFrom, if_neg hwanted]
                simp only [hlo, hhi]
                rfl
            | some hi =>
                obtain ⟨hle, hbody, hend⟩ := hf.body _ _ _ hlo hhi
                have hlt : pos / f.frame + 1 < f.offsets.length :=
                  (List.getElem?_eq_some_iff.mp hhi).1
                have hcounter : pos / f.frame + 1 < 2 ^ 32 := by
                  have hframes := hf.frames
                  rw [hf.offsets] at hlt
                  omega
                have hread : lo + (hi - lo - 1) ≤ maxU64 ∧ hi - lo < 2 ^ 63 := by omega
                rw [Framed.run_streamFrom_succ hwanted hlo hhi]
                simp only [sub_eq hle, Reading.run_bind, run_readAt hread]
                cases hanswer : reader ⟨lo, hi - lo⟩ with
                | error e => rfl
                | ok body =>
                    simp only [yield_eq hcounter (show 0 < f.frame by omega)
                      (le_trans hpos hplaintext), Except.bind]
                    cases hitem : f.yield crates (pos / f.frame) pos wanted body with
                    | error e => rfl
                    | ok bytes =>
                        obtain ⟨hsome, htaken⟩ := Framed.length_yield hitem
                        have hnext : add pos bytes.length = some (pos + bytes.length) :=
                          add_eq (by omega)
                        simp only [hnext, sub_eq htaken, Reading.run_bind]
                        rw [ih (by omega) (by omega)]
                        rfl

end Checked

namespace Framed

variable {crates : Crates} {held : Bytes} {reader : ReadAt → Except Error Bytes}
  {keys : Option (Keyring crates)} {oid : Oid} {f : Framed}

theorem bounded_of_open (hsize : held.length < maxU64) (hwhole : Reader.Whole held reader)
    (h : (Framed.open crates held.length keys oid).run reader = .ok (some f)) :
    Checked.Bounded f := by
  have hwf := wellFormed_of_open hsize hwhole h
  obtain ⟨hheader, key, hkey, hof⟩ := ofIndex_of_open hsize hwhole h
  obtain ⟨index, hlast, hindex⟩ := hwf.last
  obtain ⟨-, hframed⟩ := ofIndex_eq_some hof
  have hframes : f.frames = (stated held).frames := by rw [hframed]
  have hoffsets : f.offsets = offsetsOf (headerLen (stated held).version)
      (entries (slice held (stated held).index (stated held).indexed)) := by rw [hframed]
  have hplaintext : f.plaintext = fromLe (slice (prefixOf held) 8 8) := by rw [hframed]; rfl
  refine ⟨?_, hwf.frame.1, hframes ▸ Header.frames_parse_lt _, hwf.offsets, ?_⟩
  · have hlt := fromLe_lt (slice (prefixOf held) 8 8)
    have hlength : (slice (prefixOf held) 8 8).length ≤ 8 := by
      rw [length_slice]
      omega
    have hpow := Nat.pow_le_pow_right (show 0 < 256 by decide) hlength
    rw [hplaintext, maxU64]
    omega
  · intro i lo hi hlo hhi
    have hspan : lo ≤ hi ∧ hi - lo < 2 ^ 31 := by
      rw [hoffsets] at hlo hhi
      exact offsetsOf_succ hlo hhi
    have hlt : i + 1 < f.offsets.length := (List.getElem?_eq_some_iff.mp hhi).1
    have hle : hi ≤ index := by
      rcases Nat.lt_or_ge (i + 1) f.frames with hbefore | hafter
      · obtain ⟨hi_lt, rfl⟩ := List.getElem?_eq_some_iff.mp hhi
        obtain ⟨hlast_lt, rfl⟩ := List.getElem?_eq_some_iff.mp hlast
        exact List.pairwise_iff_getElem.mp hwf.rising _ _ hi_lt hlast_lt hbefore
      · have hsame : i + 1 = f.frames := by
          have hlen := hwf.offsets
          omega
        rw [← hsame, hhi, Option.some.injEq] at hlast
        exact hlast.le
    omega

/-- **No step of a stream panics**, and it ends within as many items as it is asked for
bytes. -/
theorem stream_checked (hsize : held.length < maxU64) (hwhole : Reader.Whole held reader)
    (h : (Framed.open crates held.length keys oid).run reader = .ok (some f))
    {start length : Nat} (hrange : start + length ≤ f.plaintext) :
    (Checked.stream crates f start length).run reader =
      some ((f.stream crates start length).run reader) :=
  Checked.run_streamFrom_eq (bounded_of_open hsize hwhole h) (le_refl _) hrange

/-- Every item has a byte, and there are no more bytes than wanted. -/
theorem items_streamFrom (fuel pos wanted : Nat) :
    (∀ item ∈ ((f.streamFrom crates fuel pos wanted).run reader).items, item ≠ []) ∧
      ((f.streamFrom crates fuel pos wanted).run reader).items.flatten.length ≤ wanted := by
  induction fuel generalizing pos wanted with
  | zero => simp [streamFrom]
  | succ fuel ih =>
      by_cases hwanted : wanted = 0
      · rw [streamFrom, if_pos hwanted]
        simp
      · cases hlo : f.offsets[pos / f.frame]? with
        | none =>
            rw [streamFrom, if_neg hwanted]
            simp [hlo]
        | some lo =>
            cases hhi : f.offsets[pos / f.frame + 1]? with
            | none =>
                rw [streamFrom, if_neg hwanted]
                simp [hlo, hhi]
            | some hi =>
                rw [run_streamFrom_succ hwanted hlo hhi]
                cases hread : reader ⟨lo, hi - lo⟩ with
                | error e => simp [Except.bind]
                | ok body =>
                    simp only [Except.bind]
                    cases hitem : f.yield crates (pos / f.frame) pos wanted body with
                    | error e => simp
                    | ok bytes =>
                        obtain ⟨hsome, htaken⟩ := length_yield hitem
                        obtain ⟨hitems, htotal⟩ :=
                          ih (pos + bytes.length) (wanted - bytes.length)
                        refine ⟨?_, ?_⟩
                        · intro item hmem
                          rcases List.mem_cons.mp hmem with rfl | hmem
                          · exact List.ne_nil_of_length_pos hsome
                          · exact hitems item hmem
                        · simp only [List.flatten_cons, List.length_append]
                          omega

end Framed

/-! ## Any file -/

/-- A reader of a file or of a key of a bucket, any of whose reads may fail. -/
def Reader.Of (held : Bytes) (reader : ReadAt → Except Error Bytes) : Prop :=
  (∀ r, reader r = Reader.file held r ∨ ∃ e, reader r = .error e) ∨
    ∀ r, reader r = Reader.bucket held r ∨ ∃ e, reader r = .error e

namespace Reader

variable {held : Bytes} {reader : ReadAt → Except Error Bytes}

/-- What it answers is an answer of the file or of the bucket. -/
theorem Of.ok (hof : Of held reader) {r : ReadAt} {bytes : Bytes} (h : reader r = .ok bytes) :
    file held r = .ok bytes ∨ bucket held r = .ok bytes := by
  rcases hof with hfile | hbucket
  · rcases hfile r with heq | ⟨e, he⟩
    · exact Or.inl (heq ▸ h)
    · rw [he] at h
      cases h
  · rcases hbucket r with heq | ⟨e, he⟩
    · exact Or.inr (heq ▸ h)
    · rw [he] at h
      cases h

theorem Of.over (hof : Of held reader) : Over held reader := by
  intro r bytes h
  rcases hof.ok h with hfile | hbucket
  · exact over_file held r bytes hfile
  · exact over_bucket held r bytes hbucket

theorem Of.whole (hof : Of held reader) : Whole held reader := by
  intro r bytes h
  rcases hof.ok h with hfile | hbucket
  · exact whole_file held r bytes hfile
  · exact whole_bucket held r bytes hbucket

end Reader

/-- **Hostile files are safe.**  On any bytes, with any keys and whichever reads fail, no step
of `open` panics, what it accepts is well formed, and no step of a stream of it panics.  A
stream ends; each of its items has a byte, and together they are no more than was asked
for. -/
theorem hostile_safe {crates : Crates} {held : Bytes} {reader : ReadAt → Except Error Bytes}
    (hsize : held.length < maxU64) (hof : Reader.Of held reader)
    (keys : Option (Keyring crates)) (oid : Oid) :
    (Checked.open crates held.length keys oid).run reader =
        some ((Framed.open crates held.length keys oid).run reader) ∧
      ∀ f, (Framed.open crates held.length keys oid).run reader = .ok (some f) →
        f.WellFormed held ∧
        ∀ start length, start + length ≤ f.plaintext →
          let streamed := (f.stream crates start length).run reader
          (Checked.stream crates f start length).run reader = some streamed ∧
            (∀ item ∈ streamed.items, item ≠ []) ∧
            streamed.items.flatten.length ≤ length := by
  refine ⟨Framed.open_checked hsize hof.over keys oid, fun f hopen => ?_⟩
  refine ⟨Framed.wellFormed_of_open hsize hof.whole hopen, fun start length hrange => ?_⟩
  exact ⟨Framed.stream_checked hsize hof.whole hopen hrange,
    Framed.items_streamFrom length start length⟩

/-- A container of one byte whose index calls its frame compressed: it opens, and the frame is
decompressed. -/
def oneByteCompressed : Bytes := Piece.container none 1 [⟨[0x78], false⟩]

theorem hostile_safe_oneByte :
    ∃ f, (Framed.open Crates.plain oneByteCompressed.length none Oid.zeros).run
        (Reader.file oneByteCompressed) = .ok (some f) ∧
      f.WellFormed oneByteCompressed ∧
      (Checked.stream Crates.plain f 0 1).run (Reader.file oneByteCompressed) =
        some ((f.stream Crates.plain 0 1).run (Reader.file oneByteCompressed)) := by
  have hof : Reader.Of oneByteCompressed (Reader.file oneByteCompressed) :=
    Or.inl fun _ => Or.inl rfl
  obtain ⟨-, hopened⟩ := hostile_safe (by decide) hof (none : Option (Keyring Crates.plain))
    Oid.zeros
  have hopen : (Framed.open Crates.plain oneByteCompressed.length none Oid.zeros).run
      (Reader.file oneByteCompressed) =
        .ok (some ⟨1, frame, 1, [32, 33], [false], none, Oid.zeros⟩) := by decide +kernel
  obtain ⟨hwf, hstream⟩ := hopened _ hopen
  exact ⟨_, hopen, hwf, (hstream 0 1 (by decide)).1⟩

end Lfsx.Storage
