import Mathlib.Data.Fintype.Pigeonhole
import Mathlib.Data.Fintype.Card
import Lfsx.Storage.CodecStreamed

/-!
# Writing and reading back

A container written from any chunks is opened by `Framed.open` under any keyring
that still holds the key, and streams every range of the plaintext
(`round_trip`).

The proof meets in the middle.  `write_eq` says what the file is, a container of
encoded frames.  Each frame is found again by its offset (`slice_container`) and
decodes to itself (`decode_encode`), and the two stream rules do the rest.

The other half is the missing key.  A sealed file is never mistaken for a plain
object, whatever the keyring (`open_sealed_ne_none`), and a keyring that knows
no key under the file's id is refused (`open_sealed_error`).  A keyring that has
lost the key but knows another one under the same four bytes is not refused by
`open`: `id_collision` gives such a keyring for every hash function.
-/

namespace Lfsx.Storage

open Request Codec

/-! ## Encoded frames -/

section Encoded

variable {crates : Crates} {level : Option Int} {key : Option ObjectKey} {oid : Oid}

/-- What `squeeze` returns decompresses to the frame, and is no longer than it. -/
theorem squeeze_eq_ok (lawful : crates.Lawful) {plain body : Bytes} {isStored : Bool}
    (h : Writer.squeeze crates level plain = .ok (body, isStored)) :
    body.length ≤ plain.length ∧
      ((isStored = true ∧ body = plain) ∨
        (isStored = false ∧ ∀ capacity, plain.length ≤ capacity →
          crates.decompress body capacity = some plain)) := by
  unfold Writer.squeeze at h
  cases level with
  | none =>
      cases h
      exact ⟨le_refl _, Or.inl ⟨rfl, rfl⟩⟩
  | some level =>
      simp only at h
      cases hc : crates.compress level plain with
      | none => rw [hc] at h; cases h
      | some compressed =>
          rw [hc] at h
          simp only at h
          split at h
          case isTrue =>
            cases h
            exact ⟨le_refl _, Or.inl ⟨rfl, rfl⟩⟩
          case isFalse hshort =>
            cases h
            refine ⟨by omega, Or.inr ⟨rfl, fun capacity hle => ?_⟩⟩
            exact lawful.decompress_compress level plain _ capacity hc hle

/-- The two steps of `encode`. -/
theorem encode_eq_ok {index : Nat} {last : Bool} {plain : Bytes} {p : Piece}
    (h : Writer.encode crates level key oid index last plain = .ok p) :
    ∃ body, Writer.squeeze crates level plain = .ok (body, p.isStored) ∧
      match key with
      | none => p.body = body
      | some key => key.sealFrame crates index last oid body = .ok p.body := by
  unfold Writer.encode at h
  cases hs : Writer.squeeze crates level plain with
  | error e => rw [hs] at h; cases h
  | ok squeezed =>
      obtain ⟨body, isStored⟩ := squeezed
      rw [hs] at h
      cases key with
      | none =>
          cases h
          exact ⟨body, rfl, rfl⟩
      | some key =>
          simp only [bind, Except.bind] at h
          cases hseal : key.sealFrame crates index last oid body with
          | error e => rw [hseal] at h; cases h
          | ok sealed =>
              rw [hseal] at h
              cases h
              exact ⟨body, rfl, hseal⟩

theorem sealFrame_eq_ok {k : ObjectKey} {index : Nat} {last : Bool} {plain sealed : Bytes}
    (h : k.sealFrame crates index last oid plain = .ok sealed) :
    crates.encrypt k.cipher (Crypt.nonce index) (Crypt.associated index last oid) plain =
      some sealed := by
  rw [ObjectKey.sealFrame_eq] at h
  split at h
  case h_1 s hs => cases h; exact hs
  case h_2 => cases h

/-- An encoded frame is at most a tag longer than the frame. -/
theorem length_encode (lawful : crates.Lawful) {index : Nat} {last : Bool} {plain : Bytes}
    {p : Piece} (h : Writer.encode crates level key oid index last plain = .ok p) :
    p.body.length ≤ plain.length + Crypt.tag := by
  obtain ⟨body, hs, hkey⟩ := encode_eq_ok h
  have hle := (squeeze_eq_ok lawful hs).1
  cases key with
  | none =>
      simp only at hkey
      rw [hkey]
      omega
  | some key =>
      have hlen := lawful.length_encrypt _ _ _ _ _ (sealFrame_eq_ok hkey)
      omega

/-- Opening undoes sealing. -/
theorem openFrame_sealFrame (lawful : crates.Lawful) {k : ObjectKey} {index : Nat} {last : Bool}
    {plain sealed : Bytes} (h : k.sealFrame crates index last oid plain = .ok sealed) :
    k.openFrame crates index last oid sealed = .ok plain := by
  rw [ObjectKey.openFrame, lawful.decrypt_encrypt _ _ _ _ _ (sealFrame_eq_ok h)]

/-- **A frame decodes to itself**, in a container that has its key, its place, its
flag and room for it. -/
theorem decode_encode (lawful : crates.Lawful) {f : Framed} {index : Nat} {plain : Bytes}
    {p : Piece}
    (h : Writer.encode crates level key oid index (index + 1 == f.frames) plain = .ok p)
    (hkey : f.key = key) (hoid : f.oid = oid) (hstored : f.stored.getD index false = p.isStored)
    (hroom : plain.length ≤ f.frame) : f.decode crates index p.body = .ok plain := by
  obtain ⟨body, hs, hbody⟩ := encode_eq_ok h
  have hopen : f.unsealed crates index p.body = .ok body := by
    rw [Framed.unsealed, hkey, hoid]
    cases key with
    | none => exact congrArg Except.ok hbody
    | some key => exact openFrame_sealFrame lawful hbody
  unfold Framed.decode
  rw [hopen, hstored]
  obtain ⟨-, ⟨htrue, heq⟩ | ⟨hfalse, hdec⟩⟩ := squeeze_eq_ok lawful hs
  · rw [htrue, heq]
    rfl
  · rw [hfalse]
    simp only [bind, Except.bind, Bool.false_eq_true, if_false, hdec _ hroom]
    rfl

/-- The pieces of `encodeFrom` are the encoded frames, each at its own place. -/
theorem encodeFrom_eq_ok {index : Nat} {frames : List Bytes} {ps : List Piece}
    (h : Writer.encodeFrom crates level key oid index frames = .ok ps) :
    ps.length = frames.length ∧
      ∀ i plain p, frames[i]? = some plain → ps[i]? = some p →
        Writer.encode crates level key oid (index + i) (i + 1 == frames.length) plain = .ok p := by
  induction frames generalizing index ps with
  | nil =>
      cases h
      exact ⟨rfl, fun i plain p hf => by simp at hf⟩
  | cons plain rest ih =>
      rw [Writer.encodeFrom] at h
      cases hp : Writer.encode crates level key oid index rest.isEmpty plain with
      | error e => rw [hp] at h; cases h
      | ok p =>
          rw [hp] at h
          simp only [bind, Except.bind] at h
          cases hps : Writer.encodeFrom crates level key oid (index + 1) rest with
          | error e => rw [hps] at h; cases h
          | ok ps' =>
              rw [hps] at h
              cases h
              obtain ⟨hlen, hall⟩ := ih hps
              refine ⟨by rw [List.length_cons, List.length_cons, hlen], ?_⟩
              intro i plain' p' hf hp'
              cases i with
              | zero =>
                  cases hf
                  cases hp'
                  have hempty : (0 + 1 == (plain :: rest).length) = rest.isEmpty := by
                    cases rest <;> simp
                  rw [hempty, Nat.add_zero]
                  exact hp
              | succ i =>
                  have hi := hall i plain' p' (by simpa using hf) (by simpa using hp')
                  have hflag : (i + 1 + 1 == (plain :: rest).length) =
                      (i + 1 == rest.length) := by
                    rw [List.length_cons]
                    by_cases heq : i + 1 = rest.length <;> simp [heq]
                  rwa [hflag, ← Nat.add_assoc, Nat.add_right_comm]

/-- The pieces of a plaintext fit the format while their number fits a `u32`. -/
theorem fits_encodeFrom (lawful : crates.Lawful) {plain : Bytes} {ps : List Piece}
    (h : Writer.encodeFrom crates level key oid 0 (framesOf frame plain) = .ok ps)
    (hframes : divCeil plain.length frame < 2 ^ 32) : Piece.Fits plain.length ps := by
  obtain ⟨hlen, hall⟩ := encodeFrom_eq_ok h
  have hcount : ps.length = divCeil plain.length frame := by
    rw [hlen, length_framesOf (by decide)]
  refine ⟨fun p hp => ?_, hcount, by omega⟩
  obtain ⟨i, hi, hget⟩ := List.getElem_of_mem hp
  have hframe : (framesOf frame plain)[i]? = some (slice plain (i * frame) frame) :=
    getElem?_framesOf_of_lt (by decide) (by omega)
  have henc := hall i _ p hframe (by rw [List.getElem?_eq_getElem hi, hget])
  have hle := length_encode lawful henc
  have hslice := length_slice plain (i * frame) frame
  have htag : frame + Crypt.tag < 2 ^ 31 := by decide
  omega

end Encoded

/-! ## Finding a frame again -/

namespace Piece

/-- The body of a piece lies at its offset. -/
theorem Fits.slice_container {plaintext : Nat} {ps : List Piece} (h : Fits plaintext ps)
    (key : Option ObjectKey) {i : Nat} {p : Piece} (hp : ps[i]? = some p) :
    slice (container key plaintext ps)
      (headerLen (versionOf key) + (((ps.map word).take i).map lengthOf).sum) p.body.length =
      p.body := by
  obtain ⟨hi, hget⟩ := List.getElem?_eq_some_iff.mp hp
  have hsum : (((ps.map word).take i).map lengthOf).sum = (Piece.bodies (ps.take i)).length := by
    rw [← List.map_take, List.map_map]
    have hshort : ∀ q ∈ ps.take i, q.body.length < 2 ^ 31 := fun q hq =>
      h.short q (List.mem_of_mem_take hq)
    exact sum_words hshort
  have hsplit : ps = ps.take i ++ p :: ps.drop (i + 1) := by
    rw [← hget, List.getElem_cons_drop, List.take_append_drop]
  have hbodies : Piece.bodies ps =
      Piece.bodies (ps.take i) ++ p.body ++ Piece.bodies (ps.drop (i + 1)) := by
    conv_lhs => rw [hsplit]
    simp [Piece.bodies]
  have hhead : (fixedHeader (versionOf key) plaintext frame ps.length (indexAt key ps)
      ++ sealing key).length = headerLen (versionOf key) := by
    rw [List.length_append, length_fixedHeader, length_sealing]
  have hexact := slice_append_exact (fixedHeader (versionOf key) plaintext frame ps.length
    (indexAt key ps) ++ sealing key ++ Piece.bodies (ps.take i)) p.body
    (Piece.bodies (ps.drop (i + 1)) ++ Piece.index ps)
  rw [List.length_append, hhead] at hexact
  rw [hsum, container, hbodies]
  simpa only [List.append_assoc] using hexact

/-- The body of a piece is what a file has between its offsets. -/
theorem Fits.read_container {plaintext : Nat} {ps : List Piece} (h : Fits plaintext ps)
    (key opened : Option ObjectKey) (oid : Oid) {i : Nat} {p : Piece} (hp : ps[i]? = some p) :
    ∃ lo hi, (framed plaintext ps key opened oid).offsets[i]? = some lo ∧
      (framed plaintext ps key opened oid).offsets[i + 1]? = some hi ∧
      Reader.file (container key plaintext ps) ⟨lo, hi - lo⟩ = .ok p.body := by
  have hi : i < ps.length := (List.getElem?_eq_some_iff.mp hp).1
  have hword : (ps.map word)[i]? = some p.word := by rw [List.getElem?_map, hp]; rfl
  have hlength : lengthOf p.word = p.body.length :=
    lengthOf_word (h.short _ (List.mem_of_getElem? hp))
  refine ⟨_, _, Framed.getElem?_offsetsOf _ _ (by simp; omega),
    Framed.getElem?_offsetsOf _ _ (by simp; omega), ?_⟩
  have hsum : (((ps.map word).take (i + 1)).map lengthOf).sum =
      (((ps.map word).take i).map lengthOf).sum + p.body.length := by
    rw [List.take_add_one, hword]
    simp [hlength]
  have hread := h.slice_container key hp
  rw [hsum]
  have hdiff : ∀ a b c : Nat, a + (b + c) - (a + b) = c := by omega
  rw [hdiff, Reader.file]
  by_cases hempty : p.body.length = 0
  · rw [if_pos (Or.inl hempty)]
    exact congrArg Except.ok hread
  · have hinside : headerLen (versionOf key) + (((ps.map word).take i).map lengthOf).sum +
        p.body.length ≤ (container key plaintext ps).length := by
      have hslice := congrArg List.length hread
      rw [length_slice] at hslice
      omega
    rw [if_pos (Or.inr hinside)]
    exact congrArg Except.ok hread

end Piece

/-! ## The round trip -/

/-- The key of a sealing, if there is one: a master key and a salt. -/
def sealingKey (crates : Crates) (sealing : Option (MasterKey × Salt)) : Option ObjectKey :=
  sealing.map fun s => ObjectKey.derive crates s.1 (crates.identify s.1) s.2

section RoundTrip

variable {crates : Crates} {level : Option Int} {oid : Oid}

/-- A file that was written is the container of pieces that fit. -/
theorem write_eq_ok (lawful : crates.Lawful) {key : Option ObjectKey} {chunks : List Bytes}
    {file : Bytes} (hframes : divCeil chunks.flatten.length frame < 2 ^ 32)
    (h : Writer.write crates level key oid chunks = .ok file) :
    ∃ ps, Writer.encodeFrom crates level key oid 0 (framesOf frame chunks.flatten) = .ok ps ∧
      Piece.Fits chunks.flatten.length ps ∧
      file = Piece.container key chunks.flatten.length ps := by
  obtain ⟨ps, hps, rfl⟩ := Writer.pieces_of_write h
  exact ⟨ps, hps, fits_encodeFrom lawful hps hframes, rfl⟩

/-- A frame of the plaintext is found at its offset and decodes to itself. -/
theorem frame_of_container (lawful : crates.Lawful) {key : Option ObjectKey} {plain : Bytes}
    {ps : List Piece}
    (hps : Writer.encodeFrom crates level key oid 0 (framesOf frame plain) = .ok ps)
    (hfits : Piece.Fits plain.length ps) {i : Nat} (hi : i < ps.length) :
    ∃ lo hi body, (Piece.framed plain.length ps key key oid).offsets[i]? = some lo ∧
      (Piece.framed plain.length ps key key oid).offsets[i + 1]? = some hi ∧
      Reader.file (Piece.container key plain.length ps) ⟨lo, hi - lo⟩ = .ok body ∧
      (Piece.framed plain.length ps key key oid).decode crates i body =
        .ok (slice plain (i * frame) frame) := by
  obtain ⟨hcount, hall⟩ := encodeFrom_eq_ok hps
  have hp : ps[i]? = some ps[i] := List.getElem?_eq_getElem hi
  have hplain : (framesOf frame plain)[i]? = some (slice plain (i * frame) frame) :=
    getElem?_framesOf_of_lt (by decide) (by omega)
  obtain ⟨lo, hi', hlo, hhi, hread⟩ := hfits.read_container key key oid hp
  refine ⟨lo, hi', ps[i].body, hlo, hhi, hread, ?_⟩
  have hencoded := hall i _ _ hplain hp
  rw [Nat.zero_add, ← hcount] at hencoded
  refine decode_encode lawful hencoded rfl rfl ?_ ?_
  · show (ps.map Piece.isStored).getD i false = ps[i].isStored
    rw [List.getD_eq_getElem?_getD, List.getElem?_map, hp]
    rfl
  · show (slice plain (i * frame) frame).length ≤ frame
    rw [length_slice]
    omega

/-- A stream of any range of a container that was opened with its key. -/
theorem stream_container (lawful : crates.Lawful) {key : Option ObjectKey} {plain : Bytes}
    {ps : List Piece}
    (hps : Writer.encodeFrom crates level key oid 0 (framesOf frame plain) = .ok ps)
    (hfits : Piece.Fits plain.length ps) {start length : Nat}
    (hle : start + length ≤ plain.length) :
    let streamed := ((Piece.framed plain.length ps key key oid).stream crates start length).run
      (Reader.file (Piece.container key plain.length ps))
    streamed.outcome = .ok () ∧ streamed.items.flatten = slice plain start length := by
  have hcover : plain.length ≤ ps.length * frame := by
    rw [hfits.count]
    exact Piece.divCeil_le (by decide)
  have hframe : 0 < (Piece.framed plain.length ps key key oid).frame := by
    show 0 < Codec.frame
    decide
  have hoffsets : (Piece.framed plain.length ps key key oid).offsets.length = ps.length + 1 := by
    simp [Piece.framed, Framed.offsetsOf]
  have hdone := Framed.stream_complete hframe hcover
    (fun i hi => frame_of_container lawful hps hfits hi) hle
  refine ⟨hdone, Framed.stream_sound hframe hoffsets hcover ?_ hle hdone⟩
  intro i lo hi body out hlo hhi hread hout
  have hi' : i < ps.length := by
    have := (List.getElem?_eq_some_iff.mp hhi).1
    omega
  obtain ⟨lo', hi'', body', hlo', hhi', hread', hout'⟩ := frame_of_container lawful hps hfits hi'
  rw [hlo] at hlo'
  rw [hhi] at hhi'
  cases hlo'
  cases hhi'
  rw [hread] at hread'
  cases hread'
  exact Or.inl (Except.ok.inj (hout.symm.trans hout'))

/-- The crates never refuse. -/
structure Crates.Total (crates : Crates) : Prop where
  compress : ∀ level plain, (crates.compress level plain).isSome
  encrypt : ∀ key nonce aad plain, (crates.encrypt key nonce aad plain).isSome

theorem squeeze_total (total : crates.Total) (level : Option Int) (plain : Bytes) :
    ∃ body, Writer.squeeze crates level plain = .ok body := by
  cases level with
  | none => exact ⟨_, rfl⟩
  | some level =>
      obtain ⟨compressed, hc⟩ := Option.isSome_iff_exists.mp (total.compress level plain)
      simp only [Writer.squeeze, hc]
      split <;> exact ⟨_, rfl⟩

theorem encode_total (total : crates.Total) (level : Option Int) (key : Option ObjectKey)
    (oid : Oid) (index : Nat) (last : Bool) (plain : Bytes) :
    ∃ p, Writer.encode crates level key oid index last plain = .ok p := by
  obtain ⟨⟨body, isStored⟩, hs⟩ := squeeze_total total level plain
  cases key with
  | none => exact ⟨⟨body, isStored⟩, by rw [Writer.encode, hs]; rfl⟩
  | some key =>
      obtain ⟨sealed, he⟩ := Option.isSome_iff_exists.mp
        (total.encrypt key.cipher (Crypt.nonce index) (Crypt.associated index last oid) body)
      refine ⟨⟨sealed, isStored⟩, ?_⟩
      rw [Writer.encode, hs]
      simp only [bind, Except.bind, ObjectKey.sealFrame_eq, he]
      rfl

/-- A writer whose crates never refuse always finishes. -/
theorem write_total (total : crates.Total) (key : Option ObjectKey) (chunks : List Bytes) :
    ∃ file, Writer.write crates level key oid chunks = .ok file := by
  have hfrom : ∀ frames index, ∃ ps,
      Writer.encodeFrom crates level key oid index frames = .ok ps := by
    intro frames
    induction frames with
    | nil => exact fun index => ⟨[], rfl⟩
    | cons plain rest ih =>
        intro index
        obtain ⟨p, hp⟩ := encode_total total level key oid index rest.isEmpty plain
        obtain ⟨ps, hps⟩ := ih (index + 1)
        exact ⟨p :: ps, by rw [Writer.encodeFrom, hp]; simp only [bind, Except.bind, hps]; rfl⟩
  obtain ⟨ps, hps⟩ := hfrom (framesOf frame chunks.flatten) 0
  exact ⟨_, by rw [Writer.write_eq, hps]; rfl⟩

end RoundTrip

/-- **A container reads back.**  Whatever the chunks, the level and the sealing,
a writer whose crates never refuse finishes, and the file it leaves opens under
every keyring that still holds the master key, with the length of the plaintext
and streaming each of its ranges.  A sealed file is refused without a keyring,
is never taken for an object by a keyring that has lost the key, and is refused
by one that has no other key under the same id either. -/
theorem round_trip (crates : Crates) (lawful : crates.Lawful) (level : Option Int)
    (sealing : Option (MasterKey × Salt)) (oid : Oid) (chunks : List Bytes)
    (hframes : divCeil chunks.flatten.length frame < 2 ^ 32) :
    ((∀ level plain, (crates.compress level plain).isSome) →
      (∀ key nonce aad plain, (crates.encrypt key nonce aad plain).isSome) →
      ∃ file, Writer.write crates level (sealingKey crates sealing) oid chunks = .ok file) ∧
    ∀ file, Writer.write crates level (sealingKey crates sealing) oid chunks = .ok file →
      (∀ keys : Option (Keyring crates),
        (∀ master salt, sealing = some (master, salt) →
          ∃ ring, keys = some ring ∧ ring.Holds master) →
        ∃ framed,
          (Framed.open crates file.length keys oid).run (Reader.file file) = .ok (some framed) ∧
          framed.plaintext = chunks.flatten.length ∧
          ∀ start length, start + length ≤ chunks.flatten.length →
            let streamed := (framed.stream crates start length).run (Reader.file file)
            streamed.outcome = .ok () ∧
              streamed.items.flatten = slice chunks.flatten start length) ∧
      ∀ master salt, sealing = some (master, salt) →
        (∃ e, (Framed.open crates file.length none oid).run (Reader.file file) = .error e) ∧
        ∀ ring : Keyring crates, ¬ ring.Holds master →
          (Framed.open crates file.length (some ring) oid).run (Reader.file file) ≠ .ok none ∧
          (¬ ring.Knows (crates.identify master) →
            ∃ e, (Framed.open crates file.length (some ring) oid).run (Reader.file file) =
              .error e) := by
  refine ⟨fun hcompress hencrypt => write_total ⟨hcompress, hencrypt⟩ _ chunks, ?_⟩
  intro file hwrite
  obtain ⟨ps, hps, hfits, rfl⟩ := write_eq_ok lawful hframes hwrite
  set key := sealingKey crates sealing with hkey
  refine ⟨fun keys hkeys => ?_, fun master salt hsealing => ?_⟩
  · have hopened : Framed.keyOf crates (Piece.headerOf key chunks.flatten.length ps)
        (prefixOf (Piece.container key chunks.flatten.length ps)) keys = .ok key := by
      rw [Framed.keyOf_container hfits]
      cases sealing with
      | none => rw [hkey]; rfl
      | some s =>
          obtain ⟨ring, rfl, hholds⟩ := hkeys s.1 s.2 rfl
          rw [hkey]
          exact congrArg (Except.map some) (Keyring.reading_of_holds hholds s.2)
    refine ⟨Piece.framed chunks.flatten.length ps key key oid, ?_, rfl, fun start length hle => ?_⟩
    · rw [Framed.open_container hfits, hopened]
      rfl
    · exact stream_container lawful hps hfits hle
  · subst hsealing
    refine ⟨⟨.notDecryptable, ?_⟩, fun ring _ => ⟨?_, fun hunknown => ⟨.unknownKey, ?_⟩⟩⟩
    · rw [Framed.open_container hfits, Framed.keyOf_container hfits]
      rfl
    · rw [Framed.open_container hfits]
      cases Framed.keyOf crates (Piece.headerOf key chunks.flatten.length ps)
          (prefixOf (Piece.container key chunks.flatten.length ps)) (some ring) with
      | error e => exact fun h => by cases h
      | ok opened => exact fun h => by cases h
    · rw [Framed.open_container hfits, Framed.keyOf_container hfits]
      have hreading := Keyring.reading_of_not_knows hunknown salt
      simp only [hkey, sealingKey, Option.map_some, ObjectKey.derive, hreading]
      rfl

/-- Crates that change nothing: no compression, a tag of zeros, and a hash that
pads. -/
def Crates.plain : Crates where
  compress _ plain := some plain
  decompress compressed capacity := if compressed.length ≤ capacity then some compressed else none
  encrypt _ _ _ plain := some (plain ++ List.replicate Crypt.tag 0)
  decrypt _ _ _ sealed := some (sealed.take (sealed.length - Crypt.tag))
  hash bytes := ⟨(bytes ++ List.replicate 32 0).take 32, length_padded bytes⟩
  deriveKey _ material := material

theorem Crates.lawful_plain : Crates.plain.Lawful where
  decompress_compress := by
    intro level plain compressed capacity h hle
    cases h
    exact if_pos hle
  decrypt_encrypt := by
    intro key nonce aad plain sealed h
    cases h
    simp [Crates.plain]
  length_encrypt := by
    intro key nonce aad plain sealed h
    cases h
    simp

/-- A ring of one key. -/
def Keyring.single (crates : Crates) (master : MasterKey) : Keyring crates where
  keys := [(master, crates.identify master)]
  nonempty := by simp
  identified := by simp
  distinct := by simp

@[simp] theorem Keyring.holds_single {crates : Crates} {master other : MasterKey} :
    (Keyring.single crates master).Holds other ↔ other = master := by
  simp [Keyring.Holds, Keyring.single]

@[simp] theorem Keyring.knows_single {crates : Crates} {master : MasterKey} {id : KeyId} :
    (Keyring.single crates master).Knows id ↔ id = crates.identify master := by
  simp [Keyring.Knows, Keyring.single]

/-- A sealed object of three bytes, pushed in two chunks: read under its key, and
refused under another one and under none. -/
theorem round_trip_three :
    let crates := Crates.plain
    let master : MasterKey := ⟨List.replicate 32 7, by decide⟩
    let other : MasterKey := ⟨List.replicate 32 8, by decide⟩
    let salt : Salt := ⟨List.replicate 16 9, by decide⟩
    ∃ file,
      Writer.write crates (some 3) (sealingKey crates (some (master, salt))) Oid.zeros
        [[1, 2], [3]] = .ok file ∧
      (∃ framed,
        (Framed.open crates file.length (some (Keyring.single crates master)) Oid.zeros).run
          (Reader.file file) = .ok (some framed) ∧
        ((framed.stream crates 1 2).run (Reader.file file)).items.flatten = [2, 3]) ∧
      (∃ e, (Framed.open crates file.length none Oid.zeros).run (Reader.file file) = .error e) ∧
      ∃ e, (Framed.open crates file.length (some (Keyring.single crates other)) Oid.zeros).run
        (Reader.file file) = .error e := by
  intro crates master other salt
  have h := round_trip crates Crates.lawful_plain (some 3) (some (master, salt)) Oid.zeros
    [[1, 2], [3]] (by decide)
  obtain ⟨file, hfile⟩ := h.1 (fun _ _ => rfl) (fun _ _ _ _ => rfl)
  obtain ⟨hread, hrefused⟩ := h.2 file hfile
  obtain ⟨framed, hopen, -, hstream⟩ := hread (some (Keyring.single crates master)) (by
    intro m s hms
    cases hms
    exact ⟨_, rfl, Keyring.holds_single.mpr rfl⟩)
  obtain ⟨hnone, hlacking⟩ := hrefused master salt rfl
  refine ⟨file, hfile, ⟨framed, hopen, (hstream 1 2 (by decide)).2⟩, hnone, ?_⟩
  exact (hlacking (Keyring.single crates other) (by rw [Keyring.holds_single]; decide)).2
    (by rw [Keyring.knows_single]; decide)

/-! ## Ids that collide -/

/-- More master keys than ids: some two different keys answer to one id. -/
theorem exists_collision (crates : Crates) :
    ∃ a b : MasterKey, a ≠ b ∧ crates.identify a = crates.identify b := by
  let key : Fin (2 ^ 32 + 1) → MasterKey := fun i => ⟨leBytes 32 i.val, length_leBytes 32 _⟩
  let id : Fin (2 ^ 32 + 1) → Fin (2 ^ 32) := fun i =>
    ⟨fromLe (crates.identify (key i)).val, by
      have hlt := fromLe_lt (crates.identify (key i)).val
      rw [(crates.identify (key i)).property] at hlt
      exact hlt⟩
  obtain ⟨i, j, hne, hid⟩ := Fintype.exists_ne_map_eq_of_card_lt id (by simp)
  refine ⟨key i, key j, fun hkey => hne ?_, ?_⟩
  · have hbytes := congrArg (fun k : MasterKey => fromLe k.val) hkey
    simp only [key] at hbytes
    rw [fromLe_leBytes (by omega), fromLe_leBytes (by omega)] at hbytes
    exact Fin.ext hbytes
  · have hval := congrArg Fin.val hid
    apply Subtype.ext
    rw [← leBytes_fromLe (crates.identify (key i)).val,
      ← leBytes_fromLe (crates.identify (key j)).val,
      (crates.identify (key i)).property, (crates.identify (key j)).property]
    exact congrArg (leBytes Crypt.id) hval

/-- **A lost key is not always noticed by `open`**, whatever the hash function: a
ring that has lost the key of a sealed file and holds another one under the same
four bytes opens it. -/
theorem open_id_collision :
    ¬ ∃ crates : Crates, ∀ (level : Option Int) (master : MasterKey) (salt : Salt) (oid : Oid)
      (chunks : List Bytes) (file : Bytes),
      Writer.write crates level (sealingKey crates (some (master, salt))) oid chunks = .ok file →
      ∀ ring : Keyring crates, ¬ ring.Holds master →
        ∃ e, (Framed.open crates file.length (some ring) oid).run (Reader.file file) =
          .error e := by
  rintro ⟨crates, hclaim⟩
  obtain ⟨lost, other, hne, hid⟩ := exists_collision crates
  let salt : Salt := ⟨List.replicate 16 0, rfl⟩
  have hlost : ¬ (Keyring.single crates other).Holds lost := by
    rw [Keyring.holds_single]
    exact hne
  have hwrite : Writer.write crates none (sealingKey crates (some (lost, salt))) Oid.zeros [] =
      .ok (Piece.container (sealingKey crates (some (lost, salt))) 0 []) := by
    rw [Writer.write_eq]
    simp [Writer.encodeFrom, Except.map]
  obtain ⟨e, he⟩ := hclaim none lost salt Oid.zeros [] _ hwrite _ hlost
  have hholds : (Keyring.single crates other).Holds other := Keyring.holds_single.mpr rfl
  have hreading := Keyring.reading_of_holds hholds salt
  rw [← hid] at hreading
  rw [Framed.open_container Piece.fits_nil, Framed.keyOf_container Piece.fits_nil] at he
  simp only [sealingKey, Option.map_some, ObjectKey.derive, hreading] at he
  cases he

end Lfsx.Storage
