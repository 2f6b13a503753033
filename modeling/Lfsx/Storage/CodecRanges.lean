import Lfsx.Storage.CodecSafe
import Lfsx.Storage.Remote

/-!
# Ranges and the whole

A range is found by dividing its start by the frame size, and a stream moves on by what each frame
decoded to.  A frame that is not compressed may be longer than the frame size, in a file that is
damaged or made up: then the places of two frames overlap, a stream that comes from before reads
the first and one that starts later reads the second.

* `streamed_from`: a byte of a stream is a byte of a frame at its own place.
* `ranges_agree_iff`: where the whole is read, every range agrees with it exactly when the frames
  that decode agree where their places overlap (`Consistent`).
* `buffers_short_iff`: no frame beyond a size is ever in memory exactly when none decodes to more.
* `short_iff_modest`: none decodes to more than the largest exactly when the index says so, for
  zstd fills no more than it is given (`Crates.Sized`): no word of a frame that is kept as it is
  and that can be read is larger.

Frames that fit their places agree (`consistent_of_short`).
-/

namespace Lfsx.Storage

open Request Codec

/-- What `zstd::bulk::decompress` and ChaCha20-Poly1305 do to lengths: nothing is decompressed
past the capacity, and a seal is a tag longer than what is in it. -/
structure Crates.Sized (crates : Crates) : Prop where
  decompress : ∀ compressed capacity plain,
    crates.decompress compressed capacity = some plain → plain.length ≤ capacity
  decrypt : ∀ key nonce aad sealed plain,
    crates.decrypt key nonce aad sealed = some plain → plain.length = sealed.length - Crypt.tag

namespace Framed

/-! ## A stream with its buffers -/

/-- The frame at an index, read and decoded. -/
def frameAt (crates : Crates) (f : Framed) (reader : ReadAt → Except Error Bytes) (index : Nat) :
    Except Error Bytes :=
  match f.offsets[index]?, f.offsets[index + 1]? with
  | some lo, some hi => (reader ⟨lo, hi - lo⟩).bind (f.decode crates index)
  | _, _ => .error .notFound

/-- A stream, and the frames it had in memory. -/
structure Traced where
  streamed : Streamed
  buffers : List Bytes

/-- `streamFrom`, with the frames that were decoded on the way. -/
def traceFrom (crates : Crates) (f : Framed) : (fuel pos wanted : Nat) → Reading Traced
  | 0, _, _ => pure ⟨⟨[], .ok ()⟩, []⟩
  | fuel + 1, pos, wanted =>
      if wanted = 0 then pure ⟨⟨[], .ok ()⟩, []⟩
      else
        let index := pos / f.frame
        match f.offsets[index]?, f.offsets[index + 1]? with
        | some lo, some hi => do
            match ← readAt lo (hi - lo) with
            | .error e => pure ⟨⟨[], .error e⟩, []⟩
            | .ok body =>
                let buffer := (f.decode crates index body).toOption.toList
                match f.yield crates index pos wanted body with
                | .error e => pure ⟨⟨[], .error e⟩, buffer⟩
                | .ok bytes => do
                    let rest ← traceFrom crates f fuel (pos + bytes.length) (wanted - bytes.length)
                    pure ⟨⟨bytes :: rest.streamed.items, rest.streamed.outcome⟩,
                      buffer ++ rest.buffers⟩
        | _, _ => pure ⟨⟨[], .ok ()⟩, []⟩

variable {crates : Crates} {f : Framed} {reader : ReadAt → Except Error Bytes}

/-- What a frame decodes to is what is under its seal, or what that decompresses to. -/
theorem decode_eq_ok {k : Nat} {body b : Bytes} :
    f.decode crates k body = .ok b ↔ ∃ plain, f.unsealed crates k body = .ok plain ∧
      if f.stored.getD k false then plain = b else crates.decompress plain f.frame = some b := by
  rw [decode]
  cases f.unsealed crates k body with
  | error e =>
      constructor
      · intro h
        cases h
      · rintro ⟨plain, h, -⟩
        cases h
  | ok plain =>
      simp only [bind, Except.bind, Except.ok.injEq, exists_eq_left']
      cases f.stored.getD k false with
      | true =>
          rw [if_pos rfl, if_pos rfl]
          exact ⟨Except.ok.inj, congrArg Except.ok⟩
      | false =>
          simp only [Bool.false_eq_true, if_false]
          cases crates.decompress plain f.frame with
          | none =>
              constructor
              · intro h
                cases h
              · intro h
                cases h
          | some unpacked =>
              constructor
              · intro h
                cases h
                rfl
              · intro h
                cases h
                rfl

/-- A frame that can be had is in the index, can be read and decodes. -/
theorem frameAt_eq_ok {k : Nat} {b : Bytes} :
    f.frameAt crates reader k = .ok b ↔ ∃ lo hi body, f.offsets[k]? = some lo ∧
      f.offsets[k + 1]? = some hi ∧ reader ⟨lo, hi - lo⟩ = .ok body ∧
      f.decode crates k body = .ok b := by
  rw [frameAt]
  constructor
  · intro h
    cases hlo : f.offsets[k]? with
    | none =>
        rw [hlo] at h
        cases h
    | some lo =>
        cases hhi : f.offsets[k + 1]? with
        | none =>
            rw [hlo, hhi] at h
            cases h
        | some hi =>
            rw [hlo, hhi] at h
            cases hread : reader ⟨lo, hi - lo⟩ with
            | error e =>
                simp only [hread] at h
                cases h
            | ok body =>
                simp only [hread] at h
                exact ⟨lo, hi, body, rfl, rfl, hread, h⟩
  · rintro ⟨lo, hi, body, hlo, hhi, hread, hdecode⟩
    rw [hlo, hhi]
    simp only [hread]
    exact hdecode

/-- One frame of the trace. -/
theorem run_traceFrom_succ {fuel pos wanted lo hi : Nat} (hwanted : wanted ≠ 0)
    (hlo : f.offsets[pos / f.frame]? = some lo) (hhi : f.offsets[pos / f.frame + 1]? = some hi) :
    (f.traceFrom crates (fuel + 1) pos wanted).run reader =
      match reader ⟨lo, hi - lo⟩ with
      | .error e => ⟨⟨[], .error e⟩, []⟩
      | .ok body =>
          let buffer := (f.decode crates (pos / f.frame) body).toOption.toList
          match f.yield crates (pos / f.frame) pos wanted body with
          | .error e => ⟨⟨[], .error e⟩, buffer⟩
          | .ok bytes =>
              let rest := (f.traceFrom crates fuel (pos + bytes.length)
                (wanted - bytes.length)).run reader
              ⟨⟨bytes :: rest.streamed.items, rest.streamed.outcome⟩, buffer ++ rest.buffers⟩ := by
  rw [traceFrom, if_neg hwanted]
  simp only [hlo, hhi, Reading.run_bind, Reading.run_readAt]
  cases reader ⟨lo, hi - lo⟩ with
  | error e => rfl
  | ok body =>
      simp only
      cases f.yield crates (pos / f.frame) pos wanted body with
      | error e => rfl
      | ok bytes =>
          simp only [Reading.run_bind]
          rfl

/-- **The trace is of the stream.** -/
theorem streamed_traceFrom (fuel pos wanted : Nat) :
    ((f.traceFrom crates fuel pos wanted).run reader).streamed =
      (f.streamFrom crates fuel pos wanted).run reader := by
  induction fuel generalizing pos wanted with
  | zero => rfl
  | succ fuel ih =>
      by_cases hwanted : wanted = 0
      · rw [traceFrom, streamFrom, if_pos hwanted, if_pos hwanted]
        rfl
      · cases hlo : f.offsets[pos / f.frame]? with
        | none =>
            rw [traceFrom, streamFrom, if_neg hwanted, if_neg hwanted]
            simp only [hlo]
            rfl
        | some lo =>
            cases hhi : f.offsets[pos / f.frame + 1]? with
            | none =>
                rw [traceFrom, streamFrom, if_neg hwanted, if_neg hwanted]
                simp only [hlo, hhi]
                rfl
            | some hi =>
                rw [run_traceFrom_succ hwanted hlo hhi, run_streamFrom_succ hwanted hlo hhi]
                cases reader ⟨lo, hi - lo⟩ with
                | error e => rfl
                | ok body =>
                    simp only [Except.bind]
                    cases f.yield crates (pos / f.frame) pos wanted body with
                    | error e => rfl
                    | ok bytes => simp only [ih]

/-- The frames in memory while a range is streamed. -/
def buffers (crates : Crates) (f : Framed) (reader : ReadAt → Except Error Bytes)
    (start length : Nat) : List Bytes :=
  ((f.traceFrom crates length start length).run reader).buffers

/-- What is in memory is a frame. -/
theorem frameAt_of_mem_buffers {fuel pos wanted : Nat} {b : Bytes}
    (h : b ∈ ((f.traceFrom crates fuel pos wanted).run reader).buffers) :
    ∃ k, f.frameAt crates reader k = .ok b := by
  induction fuel generalizing pos wanted with
  | zero => cases h
  | succ fuel ih =>
      by_cases hwanted : wanted = 0
      · rw [traceFrom, if_pos hwanted] at h
        cases h
      · cases hlo : f.offsets[pos / f.frame]? with
        | none =>
            rw [traceFrom, if_neg hwanted] at h
            simp only [hlo] at h
            cases h
        | some lo =>
            cases hhi : f.offsets[pos / f.frame + 1]? with
            | none =>
                rw [traceFrom, if_neg hwanted] at h
                simp only [hlo, hhi] at h
                cases h
            | some hi =>
                rw [run_traceFrom_succ hwanted hlo hhi] at h
                cases hread : reader ⟨lo, hi - lo⟩ with
                | error e => rw [hread] at h; cases h
                | ok body =>
                    rw [hread] at h
                    simp only at h
                    have hbuffer : b ∈ (f.decode crates (pos / f.frame) body).toOption.toList →
                        ∃ k, f.frameAt crates reader k = .ok b := by
                      intro hb
                      refine ⟨pos / f.frame, frameAt_eq_ok.mpr ⟨lo, hi, body, hlo, hhi, hread, ?_⟩⟩
                      cases hdecode : f.decode crates (pos / f.frame) body with
                      | error e => rw [hdecode] at hb; cases hb
                      | ok plain =>
                          rw [hdecode] at hb
                          rw [List.mem_singleton.mp hb]
                    cases hitem : f.yield crates (pos / f.frame) pos wanted body with
                    | error e =>
                        rw [hitem] at h
                        exact hbuffer h
                    | ok bytes =>
                        rw [hitem] at h
                        rcases List.mem_append.mp h with h | h
                        · exact hbuffer h
                        · exact ih h

/-- A frame that decodes is in the index. -/
theorem lt_of_frameAt {k : Nat} {b : Bytes} (h : f.frameAt crates reader k = .ok b) :
    k + 1 < f.offsets.length := by
  obtain ⟨lo, hi, body, -, hhi, -, -⟩ := frameAt_eq_ok.mp h
  exact (List.getElem?_eq_some_iff.mp hhi).1

/-! ## Where the bytes of a stream come from -/

/-- **One frame of a stream.** -/
theorem run_stream_frame {pos wanted : Nat} (hwanted : wanted ≠ 0)
    (hindex : pos / f.frame + 1 < f.offsets.length) :
    (f.stream crates pos wanted).run reader =
      match f.frameAt crates reader (pos / f.frame) with
      | .error e => ⟨[], .error e⟩
      | .ok plain =>
          let skip := pos % f.frame
          let take := min wanted (plain.length - skip)
          if take = 0 then
            ⟨[], .error (.storage (f.shortFrame (pos / f.frame) plain.length skip))⟩
          else
            let rest := (f.stream crates (pos + take) (wanted - take)).run reader
            ⟨slice plain skip take :: rest.items, rest.outcome⟩ := by
  have hlo : f.offsets[pos / f.frame]? = some f.offsets[pos / f.frame] :=
    List.getElem?_eq_getElem (by omega)
  have hhi : f.offsets[pos / f.frame + 1]? = some f.offsets[pos / f.frame + 1] :=
    List.getElem?_eq_getElem hindex
  have hframe : f.frameAt crates reader (pos / f.frame) =
      (reader ⟨f.offsets[pos / f.frame],
        f.offsets[pos / f.frame + 1] - f.offsets[pos / f.frame]⟩).bind
          (f.decode crates (pos / f.frame)) := by
    rw [frameAt, hlo, hhi]
  rw [run_stream_succ hwanted hlo hhi, hframe]
  cases reader ⟨f.offsets[pos / f.frame],
    f.offsets[pos / f.frame + 1] - f.offsets[pos / f.frame]⟩ with
  | error e => rfl
  | ok body =>
      simp only [Except.bind, yield]
      cases hdecode : f.decode crates (pos / f.frame) body with
      | error e => rfl
      | ok plain =>
          simp only [bind, Except.bind]
          by_cases htake : min wanted (plain.length - pos % f.frame) = 0
          · rw [if_pos htake, if_pos htake]
            rfl
          · rw [if_neg htake, if_neg htake]
            have hlength : (slice plain (pos % f.frame)
                (min wanted (plain.length - pos % f.frame))).length =
                min wanted (plain.length - pos % f.frame) := length_slice_of_le (by omega)
            simp only [pure, Except.pure, hlength]

/-- The frames of a container reach over its plaintext, and each begins inside it. -/
structure Covers (f : Framed) : Prop where
  frame : 0 < f.frame
  offsets : ∀ pos, pos < f.plaintext → pos / f.frame + 1 < f.offsets.length
  starts : ∀ k, k + 1 < f.offsets.length → k * f.frame < f.plaintext

theorem WellFormed.covers {held : Bytes} (h : WellFormed held f) : Covers f := by
  have hframe : 0 < f.frame := lt_of_lt_of_le (by decide) h.frame.1
  refine ⟨hframe, fun pos hpos => ?_, fun k hk => ?_⟩
  · have hcover : f.plaintext ≤ f.frames * f.frame := by
      rw [h.frames]
      exact Piece.divCeil_le hframe
    have hlt : pos / f.frame < f.frames := (Nat.div_lt_iff_lt_mul hframe).mpr (by omega)
    rw [h.offsets]
    omega
  · rw [h.offsets, h.frames] at hk
    exact Piece.mul_lt_of_lt_divCeil (by omega)

/-- A stream that ends well gave all it was asked for. -/
theorem length_of_ok (hcovers : Covers f) {pos wanted : Nat} (hrange : pos + wanted ≤ f.plaintext)
    (hok : ((f.stream crates pos wanted).run reader).outcome = .ok ()) :
    ((f.stream crates pos wanted).run reader).items.flatten.length = wanted := by
  induction wanted using Nat.strong_induction_on generalizing pos with
  | _ wanted ih =>
      by_cases hwanted : wanted = 0
      · subst hwanted
        rw [stream, run_streamFrom_zero]
        rfl
      · rw [run_stream_frame hwanted (hcovers.offsets pos (by omega))] at hok ⊢
        cases hframe : f.frameAt crates reader (pos / f.frame) with
        | error e => rw [hframe] at hok; cases hok
        | ok plain =>
            rw [hframe] at hok
            simp only at hok ⊢
            by_cases htake : min wanted (plain.length - pos % f.frame) = 0
            · rw [if_pos htake] at hok
              cases hok
            · rw [if_neg htake] at hok ⊢
              have hrest := ih _ (by omega) (by omega) hok
              simp only [List.flatten_cons, List.length_append, hrest]
              rw [length_slice_of_le (by omega)]
              omega

/-- **A byte of a stream is a byte of a frame, at the place of that frame.** -/
theorem streamed_from (hcovers : Covers f) {pos wanted i : Nat} {byte : UInt8}
    (hrange : pos + wanted ≤ f.plaintext)
    (hbyte : ((f.stream crates pos wanted).run reader).items.flatten[i]? = some byte) :
    ∃ k plain, f.frameAt crates reader k = .ok plain ∧ k * f.frame ≤ pos + i ∧
      plain[pos + i - k * f.frame]? = some byte := by
  induction wanted using Nat.strong_induction_on generalizing pos i with
  | _ wanted ih =>
      by_cases hwanted : wanted = 0
      · subst hwanted
        rw [stream, run_streamFrom_zero] at hbyte
        simp at hbyte
      · rw [run_stream_frame hwanted (hcovers.offsets pos (by omega))] at hbyte
        cases hframe : f.frameAt crates reader (pos / f.frame) with
        | error e => rw [hframe] at hbyte; simp at hbyte
        | ok plain =>
            rw [hframe] at hbyte
            simp only at hbyte
            by_cases htake : min wanted (plain.length - pos % f.frame) = 0
            · rw [if_pos htake] at hbyte
              simp at hbyte
            · rw [if_neg htake, List.flatten_cons] at hbyte
              have hlength : (slice plain (pos % f.frame)
                  (min wanted (plain.length - pos % f.frame))).length =
                  min wanted (plain.length - pos % f.frame) := length_slice_of_le (by omega)
              by_cases hi : i < min wanted (plain.length - pos % f.frame)
              · -- The byte is of this frame, whose place is before `pos`.
                rw [List.getElem?_append_left (by omega), slice, List.getElem?_take_of_lt hi,
                  List.getElem?_drop] at hbyte
                obtain ⟨hplace, -⟩ := div_mul_add_mod hcovers.frame pos
                refine ⟨_, plain, hframe, by omega, ?_⟩
                rw [← hbyte]
                congr 1
                omega
              · rw [List.getElem?_append_right (by omega), hlength] at hbyte
                obtain ⟨k, plain', hframe', hle, hbyte'⟩ := ih _ (by omega) (by omega) hbyte
                refine ⟨k, plain', hframe', by omega, ?_⟩
                rw [← hbyte']
                congr 1
                omega

/-- The start of a frame is streamed by itself. -/
theorem stream_start (hcovers : Covers f) {k : Nat} {plain : Bytes}
    (hframe : f.frameAt crates reader k = .ok plain) (wanted : Nat) (hwanted : wanted ≠ 0)
    (hle : wanted ≤ plain.length) (hrange : k * f.frame + wanted ≤ f.plaintext) :
    (f.stream crates (k * f.frame) wanted).run reader = ⟨[plain.take wanted], .ok ()⟩ := by
  have hk : k * f.frame / f.frame = k := Nat.mul_div_cancel k hcovers.frame
  have hmod : k * f.frame % f.frame = 0 := Nat.mul_mod_left k f.frame
  rw [run_stream_frame hwanted (hcovers.offsets _ (by omega)), hk, hframe, hmod]
  simp only [Nat.sub_zero, Nat.min_eq_left hle, hwanted, if_false, Nat.sub_self]
  rw [stream, run_streamFrom_zero, slice, List.drop_zero]

/-- The frame at the start of a range is in memory for it. -/
theorem mem_buffers_start (hcovers : Covers f) {k : Nat} {b : Bytes}
    (h : f.frameAt crates reader k = .ok b) : b ∈ f.buffers crates reader (k * f.frame) 1 := by
  have hk : k * f.frame / f.frame = k := Nat.mul_div_cancel k hcovers.frame
  obtain ⟨lo, hi, body, hlo, hhi, hread, hdecode⟩ := frameAt_eq_ok.mp h
  rw [buffers, run_traceFrom_succ one_ne_zero (by rw [hk, hlo]) (by rw [hk, hhi]), hk, hread]
  simp only [hdecode, Except.toOption, Option.toList]
  cases f.yield crates k (k * f.frame) 1 body with
  | error e => exact List.mem_singleton.mpr rfl
  | ok bytes => exact List.mem_append_left _ (List.mem_singleton.mpr rfl)

/-! ## Frames that agree -/

/-- Frames that decode agree on the bytes that are in the places of both. -/
def Consistent (crates : Crates) (f : Framed) (reader : ReadAt → Except Error Bytes) : Prop :=
  ∀ j k b b' p, f.frameAt crates reader j = .ok b → f.frameAt crates reader k = .ok b' →
    p < f.plaintext → j * f.frame ≤ p → p < j * f.frame + b.length →
    k * f.frame ≤ p → p < k * f.frame + b'.length →
    b[p - j * f.frame]? = b'[p - k * f.frame]?

/-- The frames that decode have no more than `size` bytes. -/
def Short (crates : Crates) (f : Framed) (reader : ReadAt → Except Error Bytes) (size : Nat) :
    Prop :=
  ∀ k b, f.frameAt crates reader k = .ok b → b.length ≤ size

/-- The ranges that can be read are ranges of the whole. -/
def Agrees (crates : Crates) (f : Framed) (reader : ReadAt → Except Error Bytes) : Prop :=
  ∀ start length, start + length ≤ f.plaintext →
    ((f.stream crates start length).run reader).outcome = .ok () →
    ((f.stream crates start length).run reader).items.flatten =
      slice ((f.stream crates 0 f.plaintext).run reader).items.flatten start length

/-- A frame reads, from its start to any byte of it, what the whole has there. -/
theorem Agrees.frame (hagrees : f.Agrees crates reader) (hcovers : Covers f) {k p : Nat} {b : Bytes}
    (hframe : f.frameAt crates reader k = .ok b) (hp : p < f.plaintext) (hlo : k * f.frame ≤ p)
    (hhi : p < k * f.frame + b.length) :
    b[p - k * f.frame]? = ((f.stream crates 0 f.plaintext).run reader).items.flatten[p]? := by
  have hstart := stream_start hcovers hframe (p - k * f.frame + 1) (by omega) (by omega) (by omega)
  have heq := hagrees (k * f.frame) (p - k * f.frame + 1) (by omega) (by rw [hstart])
  rw [hstart] at heq
  simp only [List.flatten_cons, List.flatten_nil, List.append_nil] at heq
  have hbyte := congrArg (fun bytes => bytes[p - k * f.frame]?) heq
  simp only [slice, List.getElem?_take_of_lt (Nat.lt_succ_self _), List.getElem?_drop] at hbyte
  rw [hbyte]
  congr 1
  omega

/-- **Where the whole is read, the ranges agree with it exactly when the frames do with each
other.** -/
theorem ranges_agree_iff (hcovers : Covers f)
    (hok : ((f.stream crates 0 f.plaintext).run reader).outcome = .ok ()) :
    f.Agrees crates reader ↔ f.Consistent crates reader := by
  constructor
  · intro hagrees j k b c p hj hk hp hjlo hjhi hklo hkhi
    rw [hagrees.frame hcovers hj hp hjlo hjhi, hagrees.frame hcovers hk hp hklo hkhi]
  · intro hconsistent start length hrange hread
    have hwhole := length_of_ok hcovers (by omega) hok
    have hlength := length_of_ok hcovers hrange hread
    apply List.ext_getElem
    · rw [hlength, length_slice_of_le (by omega)]
    · intro i hi hi'
      -- The byte of the range and the byte of the whole come from frames, at one place.
      obtain ⟨j, b, hj, hjlo, hbyte⟩ := streamed_from hcovers hrange (List.getElem?_eq_getElem hi)
      have hslice := List.getElem?_eq_getElem hi'
      simp only [slice] at hslice
      rw [List.getElem?_take_of_lt (by omega), List.getElem?_drop] at hslice
      obtain ⟨k, c, hk, hklo, hbyte'⟩ := streamed_from hcovers (by omega) hslice
      rw [Nat.zero_add] at hklo hbyte'
      obtain ⟨hjhi, -⟩ := List.getElem?_eq_some_iff.mp hbyte
      obtain ⟨hkhi, -⟩ := List.getElem?_eq_some_iff.mp hbyte'
      have hsame := hconsistent j k b c (start + i) hj hk (by omega) hjlo (by omega) hklo
        (by omega)
      rw [hbyte, hbyte'] at hsame
      exact Option.some.inj hsame

/-- **No frame beyond a size is in memory exactly when none decodes to more.** -/
theorem buffers_short_iff (hcovers : Covers f) (size : Nat) :
    (∀ start length, start + length ≤ f.plaintext →
        ∀ b ∈ f.buffers crates reader start length, b.length ≤ size) ↔
      f.Short crates reader size := by
  constructor
  · intro hbuffers k b hframe
    have hk := hcovers.starts k (lt_of_frameAt hframe)
    apply hbuffers (k * f.frame) 1 (by omega)
    exact mem_buffers_start hcovers hframe
  · intro hshort start length _ b hb
    obtain ⟨k, hk⟩ := frameAt_of_mem_buffers hb
    exact hshort k b hk

/-- Frames that fit their places agree: no byte is in the places of two. -/
theorem consistent_of_short (hshort : f.Short crates reader f.frame) :
    f.Consistent crates reader := by
  intro j k b c p hj hk _ hjlo hjhi hklo hkhi
  have hb := hshort j b hj
  have hc := hshort k c hk
  have hjk : j = k := by
    rcases Nat.lt_trichotomy j k with hlt | heq | hlt
    · have := Nat.mul_le_mul_right f.frame hlt
      rw [Nat.succ_mul] at this
      omega
    · exact heq
    · have := Nat.mul_le_mul_right f.frame hlt
      rw [Nat.succ_mul] at this
      omega
  subst hjk
  cases hj.symm.trans hk
  rfl

/-! ## The index -/

/-- The words of the index of a file. -/
def wordsOf (held : Bytes) : List Nat :=
  entries (slice held (stated held).index (stated held).indexed)

/-- A frame that can be read and, if the container is sealed, whose seal is good. -/
def Opens (crates : Crates) (f : Framed) (reader : ReadAt → Except Error Bytes) (k : Nat) : Prop :=
  ∃ lo hi body, f.offsets[k]? = some lo ∧ f.offsets[k + 1]? = some hi ∧
    reader ⟨lo, hi - lo⟩ = .ok body ∧ (f.unsealed crates k body).isOk = true

/-- The largest frame, with its tag if the container is sealed. -/
def mostStored (f : Framed) : Nat := frameMax + if f.key.isSome then Crypt.tag else 0

/-- The index has no frame beyond the largest among those that are kept as they are and can be
read. -/
def Modest (crates : Crates) (held : Bytes) (f : Framed) (reader : ReadAt → Except Error Bytes) :
    Prop :=
  ∀ k word, (wordsOf held)[k]? = some word → isStored word = true → Opens crates f reader k →
    lengthOf word ≤ f.mostStored

variable {held : Bytes} {keys : Option (Keyring crates)} {oid : Oid}

/-- What was opened has the flags and the places of the index. -/
theorem indexed_of_open (hsize : held.length < maxU64) (hwhole : Reader.Whole held reader)
    (h : (Framed.open crates held.length keys oid).run reader = .ok (some f)) :
    f.stored = (wordsOf held).map isStored ∧
      f.offsets = offsetsOf (headerLen (stated held).version) (wordsOf held) := by
  obtain ⟨-, key, -, hof⟩ := ofIndex_of_open hsize hwhole h
  obtain ⟨-, rfl⟩ := ofIndex_eq_some hof
  exact ⟨rfl, rfl⟩

theorem getD_stored (hstored : f.stored = (wordsOf held).map isStored) {k word : Nat}
    (hword : (wordsOf held)[k]? = some word) : f.stored.getD k false = isStored word := by
  rw [hstored, List.getD_eq_getElem?_getD, List.getElem?_map, hword]
  rfl

/-- A frame ends before the file does, for the index is after it. -/
theorem WellFormed.lt_length (hwf : WellFormed held f) {k hi : Nat}
    (hhi : f.offsets[k + 1]? = some hi) : hi < held.length := by
  obtain ⟨index, hlast, hindex⟩ := hwf.last
  obtain ⟨hlt, rfl⟩ := List.getElem?_eq_some_iff.mp hhi
  obtain ⟨hlast_lt, rfl⟩ := List.getElem?_eq_some_iff.mp hlast
  have hoffsets := hwf.offsets
  have hle : f.offsets[k + 1] ≤ f.offsets[f.frames] := by
    rcases Nat.lt_or_ge (k + 1) f.frames with hbefore | hafter
    · exact List.pairwise_iff_getElem.mp hwf.rising _ _ hlt hlast_lt hbefore
    · have hsame : k + 1 = f.frames := by omega
      simp only [hsame, le_refl]
  omega

/-- Where the frame of a word is. -/
theorem place_of_word (hwf : WellFormed held f)
    (hoffsets : f.offsets = offsetsOf (headerLen (stated held).version) (wordsOf held))
    {k word : Nat} (hword : (wordsOf held)[k]? = some word) :
    ∃ lo, f.offsets[k]? = some lo ∧ f.offsets[k + 1]? = some (lo + lengthOf word) ∧
      lo + lengthOf word < held.length := by
  have hlt : k < (wordsOf held).length := (List.getElem?_eq_some_iff.mp hword).1
  have hlo := getElem?_offsetsOf (headerLen (stated held).version) (wordsOf held) hlt.le
  have hhi := getElem?_offsetsOf (headerLen (stated held).version) (wordsOf held) hlt
  rw [← hoffsets] at hlo hhi
  obtain ⟨word', hword', hstep⟩ := offsetsOf_step (hoffsets ▸ hlo) (hoffsets ▸ hhi)
  cases hword.symm.trans hword'
  rw [hstep] at hhi
  exact ⟨_, hlo, hhi, hwf.lt_length hhi⟩

/-- A frame is read with as many bytes as its word says, but for one that says none. -/
theorem length_body (hwf : WellFormed held f) (hof : Reader.Of held reader)
    {k lo hi word : Nat} {body : Bytes} (hhi : f.offsets[k + 1]? = some hi)
    (hstep : hi = lo + lengthOf word) (hread : reader ⟨lo, hi - lo⟩ = .ok body) :
    body.length = lengthOf word ∨ lengthOf word = 0 ∧ body.length ≤ 1 := by
  have hle := hwf.lt_length hhi
  have hlength : hi - lo = lengthOf word := by omega
  rw [hlength] at hread
  rcases Nat.eq_zero_or_pos (lengthOf word) with hzero | hpos
  · have hshort := (hof.over _ _ hread).length_le
    rw [length_slice, hzero] at hshort
    exact Or.inr ⟨hzero, hshort.trans (Nat.min_le_left _ _)⟩
  · have hinside : lo + lengthOf word ≤ held.length := by omega
    have hbody := hof.whole _ _ hread (Or.inl hpos) hinside
    rw [hbody]
    exact Or.inl (length_slice_of_le hinside)

/-- What is under a seal is a tag shorter. -/
theorem length_unsealed (sized : crates.Sized) {k : Nat} {body plain : Bytes}
    (h : f.unsealed crates k body = .ok plain) :
    plain.length = body.length - if f.key.isSome then Crypt.tag else 0 := by
  rw [unsealed] at h
  cases hkey : f.key with
  | none =>
      rw [hkey] at h
      cases h
      rfl
  | some key =>
      rw [hkey] at h
      simp only [ObjectKey.openFrame] at h
      split at h
      · next hdecrypt =>
          cases h
          exact sized.decrypt _ _ _ _ _ hdecrypt
      · cases h

/-- **None decodes to more than the largest exactly when the index has none that is larger.** -/
theorem short_iff_modest (sized : crates.Sized) (hsize : held.length < maxU64)
    (hof : Reader.Of held reader)
    (hopen : (Framed.open crates held.length keys oid).run reader = .ok (some f)) :
    f.Short crates reader frameMax ↔ f.Modest crates held reader := by
  have hwf := wellFormed_of_open hsize hof.whole hopen
  obtain ⟨hstored, hoffsets⟩ := indexed_of_open hsize hof.whole hopen
  constructor
  · rintro hshort k word hword hkept ⟨lo, hi, body, hlo, hhi, hread, hsealed⟩
    obtain ⟨word', hword', hstep⟩ := offsetsOf_step (hoffsets ▸ hlo) (hoffsets ▸ hhi)
    cases hword.symm.trans hword'
    cases hplain : f.unsealed crates k body with
    | error e =>
        rw [hplain] at hsealed
        cases hsealed
    | ok plain =>
        have hdecode : f.decode crates k body = .ok plain :=
          decode_eq_ok.mpr ⟨plain, hplain, by rw [getD_stored hstored hword, if_pos hkept]⟩
        have hle := hshort k plain (frameAt_eq_ok.mpr ⟨lo, hi, body, hlo, hhi, hread, hdecode⟩)
        have hlength := length_unsealed sized hplain
        rw [mostStored]
        rcases length_body hwf hof hhi hstep hread with hbody | ⟨hzero, -⟩ <;> omega
  · intro hmodest k b hframe
    obtain ⟨lo, hi, body, hlo, hhi, hread, hdecode⟩ := frameAt_eq_ok.mp hframe
    obtain ⟨plain, hplain, hkind⟩ := decode_eq_ok.mp hdecode
    obtain ⟨word, hword, hstep⟩ := offsetsOf_step (hoffsets ▸ hlo) (hoffsets ▸ hhi)
    rw [getD_stored hstored hword] at hkind
    split at hkind
    case isTrue hkept =>
      subst hkind
      have hle := hmodest k word hword hkept ⟨lo, hi, body, hlo, hhi, hread, by rw [hplain]; rfl⟩
      have hlength := length_unsealed sized hplain
      have hmax : 1 ≤ frameMax := by decide
      rw [mostStored] at hle
      rcases length_body hwf hof hhi hstep hread with hbody | ⟨-, hbody⟩ <;> omega
    case isFalse =>
      have hmax : f.frame ≤ frameMax := hwf.frame.2
      exact (sized.decompress _ _ _ hkind).trans hmax

/-- Every frame of a plain container can be read from its file. -/
theorem opens_file (hwf : WellFormed held f)
    (hoffsets : f.offsets = offsetsOf (headerLen (stated held).version) (wordsOf held))
    (hkey : f.key = none) {k word : Nat} (hword : (wordsOf held)[k]? = some word) :
    Opens crates f (Reader.file held) k := by
  obtain ⟨lo, hlo, hhi, hlt⟩ := place_of_word hwf hoffsets hword
  refine ⟨_, _, _, hlo, hhi, Reader.file_of_le ?_, ?_⟩
  · omega
  · rw [unsealed, hkey]
    rfl

theorem modest_iff_file (hsize : held.length < maxU64) (hkey : f.key = none)
    (hopen : (Framed.open crates held.length keys oid).run (Reader.file held) = .ok (some f)) :
    f.Modest crates held (Reader.file held) ↔
      ∀ word ∈ wordsOf held, isStored word = true → lengthOf word ≤ frameMax := by
  have hof : Reader.Of held (Reader.file held) := Or.inl fun _ => Or.inl rfl
  have hwf := wellFormed_of_open hsize hof.whole hopen
  obtain ⟨-, hoffsets⟩ := indexed_of_open hsize hof.whole hopen
  have hmost : f.mostStored = frameMax := by
    rw [mostStored, hkey]
    rfl
  rw [Modest, hmost]
  constructor
  · intro hmodest word hmem hkept
    obtain ⟨k, hk⟩ := List.mem_iff_getElem?.mp hmem
    exact hmodest k word hk hkept (opens_file hwf hoffsets hkey hk)
  · intro hwords k word hk hkept _
    exact hwords word (List.mem_of_getElem? hk) hkept

end Framed

/-- **Ranges and the whole.**  Of any file that opens, with any keys and whichever reads fail: where
the whole can be read, the ranges that can be read are ranges of it exactly when the frames that
decode agree on the places they share, and no frame beyond the largest is in memory exactly when
the index has none among those that are kept as they are and can be read; of a plain container
in a file, when it has none that is kept as it is.  What is in memory is what the stream itself
decodes. -/
theorem whole_and_ranges {crates : Crates} {held : Bytes} {reader : ReadAt → Except Error Bytes}
    (hsize : held.length < maxU64) (hof : Reader.Of held reader) (keys : Option (Keyring crates))
    (oid : Oid) {f : Framed}
    (hopen : (Framed.open crates held.length keys oid).run reader = .ok (some f)) :
    (((f.stream crates 0 f.plaintext).run reader).outcome = .ok () →
        (f.Agrees crates reader ↔ f.Consistent crates reader)) ∧
      (crates.Sized →
        ((∀ start length, start + length ≤ f.plaintext →
            ∀ b ∈ f.buffers crates reader start length, b.length ≤ frameMax) ↔
          f.Modest crates held reader) ∧
        (f.key = none → reader = Reader.file held →
          ((∀ start length, start + length ≤ f.plaintext →
              ∀ b ∈ f.buffers crates reader start length, b.length ≤ frameMax) ↔
            ∀ word ∈ Framed.wordsOf held, isStored word = true → lengthOf word ≤ frameMax))) ∧
      ∀ start length, ((f.traceFrom crates length start length).run reader).streamed =
        (f.stream crates start length).run reader := by
  have hcovers := (Framed.wellFormed_of_open hsize hof.whole hopen).covers
  have hshort : (∀ start length, start + length ≤ f.plaintext →
      ∀ b ∈ f.buffers crates reader start length, b.length ≤ frameMax) ↔
        f.Short crates reader frameMax := Framed.buffers_short_iff hcovers frameMax
  refine ⟨Framed.ranges_agree_iff hcovers, fun sized => ?_, fun start length => ?_⟩
  · have hmodest := hshort.trans (Framed.short_iff_modest sized hsize hof hopen)
    refine ⟨hmodest, fun hkey hfile => ?_⟩
    subst hfile
    exact hmodest.trans (Framed.modest_iff_file hsize hkey hopen)
  · exact Framed.streamed_traceFrom length start length

/-- A container of one byte, kept as it is. -/
def oneByteStored : Bytes := Piece.container none 1 [⟨[0x78], true⟩]

theorem Crates.sized_plain : Crates.plain.Sized where
  decompress := by
    intro compressed capacity plain h
    rw [Crates.plain] at h
    obtain ⟨hle, hsame⟩ := Option.ite_none_right_eq_some.mp h
    cases hsame
    exact hle
  decrypt := by
    intro key nonce aad sealed plain h
    cases h
    rw [List.length_take]
    exact Nat.min_eq_left (Nat.sub_le _ _)

theorem whole_and_ranges_oneByte :
    let f : Framed := ⟨1, frame, 1, [32, 33], [true], none, Oid.zeros⟩
    (f.Agrees Crates.plain (Reader.file oneByteStored) ↔
      f.Consistent Crates.plain (Reader.file oneByteStored)) ∧
    ∀ start length, start + length ≤ 1 →
      ∀ b ∈ f.buffers Crates.plain (Reader.file oneByteStored) start length,
        b.length ≤ frameMax := by
  have hof : Reader.Of oneByteStored (Reader.file oneByteStored) := Or.inl fun _ => Or.inl rfl
  have hopen : (Framed.open Crates.plain oneByteStored.length none Oid.zeros).run
      (Reader.file oneByteStored) =
        .ok (some ⟨1, frame, 1, [32, 33], [true], none, Oid.zeros⟩) := by decide +kernel
  obtain ⟨hranges, hmemory, -⟩ := whole_and_ranges (by decide) hof
    (none : Option (Keyring Crates.plain)) Oid.zeros hopen
  exact ⟨hranges (by decide +kernel),
    ((hmemory Crates.sized_plain).2 rfl rfl).mpr (by decide +kernel)⟩

/-! ## A frame that is too long -/

/-- A container of one byte more than a frame: its first frame, kept as it is, has more than the
largest, and is zero where the second frame is one. -/
def overlong : List Piece := [⟨List.replicate (frameMax + 1) 0, true⟩, ⟨[1], true⟩]

namespace Overlong

theorem fits : Piece.Fits (frame + 1) overlong := by
  refine ⟨fun p hp => ?_, rfl, by decide⟩
  rcases List.mem_cons.mp hp with rfl | hp
  · rw [List.length_replicate]
    decide
  · rw [List.mem_singleton.mp hp]
    decide

def held : Bytes := Piece.container none (frame + 1) overlong

def framed : Framed := Piece.framed (frame + 1) overlong none none Oid.zeros

variable {crates : Crates}

theorem opens : (Framed.open crates held.length none Oid.zeros).run (Reader.file held) =
    .ok (some framed) := by
  rw [held, Framed.open_container fits, Framed.keyOf_container fits]
  rfl

theorem frameAt {i : Nat} {p : Piece} (hp : overlong[i]? = some p) :
    framed.frameAt crates (Reader.file held) i = .ok p.body := by
  obtain ⟨lo, hi, hlo, hhi, hread⟩ := fits.read_container none none Oid.zeros hp
  have hstored : framed.stored.getD i false = true := by
    have hmem := List.mem_of_getElem? hp
    have hp' : p.isStored = true := by
      rcases List.mem_cons.mp hmem with rfl | hmem
      · rfl
      · rw [List.mem_singleton.mp hmem]
    rw [framed, Piece.framed, List.getD_eq_getElem?_getD, List.getElem?_map, hp]
    exact hp'
  rw [Framed.frameAt, framed, hlo, hhi]
  simp only [held, hread, Except.bind]
  rw [Framed.decode]
  exact if_pos hstored

theorem frameAt_zero : framed.frameAt crates (Reader.file held) 0 =
    .ok (List.replicate (frameMax + 1) 0) :=
  frameAt (p := ⟨List.replicate (frameMax + 1) 0, true⟩) rfl

theorem frameAt_one : framed.frameAt crates (Reader.file held) 1 = .ok [1] :=
  frameAt (p := ⟨[1], true⟩) rfl

theorem covers : framed.Covers := by
  have hopen : (Framed.open Crates.plain held.length none Oid.zeros).run (Reader.file held) =
      .ok (some framed) := opens
  exact (Framed.wellFormed_of_open (fits.length_container_lt none)
    (Reader.Of.whole (Or.inl fun _ => Or.inl rfl)) hopen).covers

/-- The whole is read, from the first frame alone. -/
theorem whole :
    ((framed.stream crates 0 framed.plaintext).run (Reader.file held)).outcome = .ok () := by
  have hwanted : framed.plaintext ≠ 0 := Nat.succ_ne_zero _
  have hfirst : framed.frameAt crates (Reader.file held) (0 / framed.frame) =
      .ok (List.replicate (frameMax + 1) 0) := by
    rw [Nat.zero_div]
    exact frameAt_zero
  have htake : min framed.plaintext ((List.replicate (frameMax + 1) (0 : UInt8)).length -
      0 % framed.frame) = framed.plaintext := by
    rw [List.length_replicate, Nat.zero_mod]
    decide
  rw [Framed.run_stream_frame hwanted (covers.offsets 0 (Nat.succ_pos _)), hfirst]
  simp only [htake, if_neg hwanted, Nat.sub_self]
  rw [Framed.stream, Framed.run_streamFrom_zero]

theorem not_consistent : ¬ framed.Consistent crates (Reader.file held) := by
  intro hconsistent
  have hplace : 1 * framed.frame = frame := Nat.one_mul _
  have hzero : 0 * framed.frame = 0 := Nat.zero_mul _
  have hsame := hconsistent 0 1 _ _ frame frameAt_zero frameAt_one
    (Nat.lt_succ_self _) (by rw [hzero]; exact Nat.zero_le _)
    (by rw [hzero, List.length_replicate]; decide) hplace.le (by rw [hplace]; decide)
  rw [hplace, hzero, Nat.sub_zero, Nat.sub_self, List.getElem?_replicate,
    if_pos (by decide)] at hsame
  cases hsame

theorem not_short : ¬ framed.Short crates (Reader.file held) frameMax := by
  intro hshort
  have hlength := hshort 0 _ frameAt_zero
  rw [List.length_replicate] at hlength
  exact absurd hlength (Nat.not_succ_le_self _)

end Overlong

/-- A range of it is not what the whole has there, and more than a frame is in memory. -/
theorem overlong_differs :
    let f := Overlong.framed
    let reader := Reader.file Overlong.held
    (Framed.open Crates.plain Overlong.held.length none Oid.zeros).run reader = .ok (some f) ∧
      ((f.stream Crates.plain 0 f.plaintext).run reader).outcome = .ok () ∧
      (¬ ∀ start length, start + length ≤ f.plaintext →
        ((f.stream Crates.plain start length).run reader).outcome = .ok () →
        ((f.stream Crates.plain start length).run reader).items.flatten =
          slice ((f.stream Crates.plain 0 f.plaintext).run reader).items.flatten start length) ∧
      ¬ ∀ start length, start + length ≤ f.plaintext →
        ∀ b ∈ f.buffers Crates.plain reader start length, b.length ≤ frameMax := by
  refine ⟨Overlong.opens, Overlong.whole, fun hagrees => ?_, fun hbuffers => ?_⟩
  · exact Overlong.not_consistent
      ((Framed.ranges_agree_iff Overlong.covers Overlong.whole).mp hagrees)
  · exact Overlong.not_short ((Framed.buffers_short_iff Overlong.covers frameMax).mp hbuffers)

end Lfsx.Storage
