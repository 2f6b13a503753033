import Lfsx.Storage.CodecOpened

/-!
# What a stream yields

`Framed.streamFrom` walks the frames a range touches and yields the wanted part
of each.  What it yields is decided by what the frames decode to, and the two
rules here say how, over any reader.

* `stream_sound`: if every frame that decodes at all decodes to its slice of a
  plaintext, a stream that ends without an error yielded the range.  If the range
  goes to the end of the plaintext, a frame may also decode to less than its
  slice: the stream asks for the rest of it, and stops (`stream_short`).
* `stream_complete`: if every frame is read and decodes to its slice, the stream
  ends without an error.

Both go by induction on what is still wanted, and one frame is one use of
`yield_of_decode`.
-/

namespace Lfsx.Storage.Framed

open Request Codec

variable {crates : Crates} {f : Framed} {reader : ReadAt → Except Error Bytes}

/-! ## Offsets -/

@[simp] theorem length_offsetsOf (start : Nat) (words : List Nat) :
    (offsetsOf start words).length = words.length + 1 := by
  rw [offsetsOf, List.length_scanl]

/-- A frame starts after the bodies of the frames before it. -/
theorem getElem?_offsetsOf (start : Nat) (words : List Nat) {i : Nat} (h : i ≤ words.length) :
    (offsetsOf start words)[i]? = some (start + ((words.take i).map lengthOf).sum) := by
  induction words generalizing start i with
  | nil =>
      have hi : i = 0 := by simpa using h
      subst hi
      simp [offsetsOf]
  | cons word words ih =>
      rw [offsetsOf, List.scanl_cons]
      cases i with
      | zero => simp
      | succ i =>
          have hi : i ≤ words.length := by simpa using h
          rw [List.getElem?_cons_succ, ← offsetsOf, ih _ hi]
          simp [Nat.add_assoc]

/-- A frame ends as many bytes after its start as its word says. -/
theorem offsetsOf_step {start : Nat} {words : List Nat} {i lo hi : Nat}
    (hlo : (offsetsOf start words)[i]? = some lo)
    (hhi : (offsetsOf start words)[i + 1]? = some hi) :
    ∃ word, words[i]? = some word ∧ hi = lo + lengthOf word := by
  have hlt : i + 1 < (offsetsOf start words).length := (List.getElem?_eq_some_iff.mp hhi).1
  rw [length_offsetsOf] at hlt
  have hi' : i < words.length := by omega
  refine ⟨words[i], List.getElem?_eq_getElem hi', ?_⟩
  rw [getElem?_offsetsOf _ _ (by omega), Option.some.injEq] at hlo hhi
  rw [List.take_succ_eq_append_getElem hi', List.map_append, List.sum_append] at hhi
  simp only [List.map_cons, List.map_nil, List.sum_cons, List.sum_nil] at hhi
  omega

/-! ## One frame -/

theorem yield_eq_ok {index pos wanted : Nat} {body bytes : Bytes}
    (h : f.yield crates index pos wanted body = .ok bytes) :
    ∃ plain, f.decode crates index body = .ok plain ∧
      0 < min wanted (plain.length - pos % f.frame) ∧
      bytes = slice plain (pos % f.frame) (min wanted (plain.length - pos % f.frame)) := by
  unfold yield at h
  cases hdecode : f.decode crates index body with
  | error e =>
      rw [hdecode] at h
      cases h
  | ok plain =>
      rw [hdecode] at h
      simp only [bind, Except.bind] at h
      split at h
      case isTrue => cases h
      case isFalse htake =>
        cases h
        exact ⟨plain, rfl, Nat.pos_of_ne_zero htake, rfl⟩

/-- No item is empty. -/
theorem length_yield {index pos wanted : Nat} {body bytes : Bytes}
    (h : f.yield crates index pos wanted body = .ok bytes) :
    0 < bytes.length ∧ bytes.length ≤ wanted := by
  obtain ⟨plain, -, hpos, rfl⟩ := yield_eq_ok h
  rw [length_slice_of_le (by omega)]
  omega

/-- How much of the frame at `pos` a stream takes. -/
def taken (f : Framed) (plaintext pos wanted : Nat) : Nat :=
  min wanted (min f.frame (plaintext - pos / f.frame * f.frame) - pos % f.frame)

theorem div_mul_add_mod (hframe : 0 < f.frame) (pos : Nat) :
    pos / f.frame * f.frame + pos % f.frame = pos ∧ pos % f.frame < f.frame :=
  ⟨by rw [Nat.mul_comm]; exact Nat.div_add_mod pos f.frame, Nat.mod_lt pos hframe⟩

/-- A frame that decodes to its slice of the plaintext yields the bytes at `pos`. -/
theorem yield_of_decode {plain body : Bytes} {pos wanted : Nat} (hframe : 0 < f.frame)
    (hpos : pos < plain.length) (hwanted : 0 < wanted)
    (hdecode : f.decode crates (pos / f.frame) body =
      .ok (slice plain (pos / f.frame * f.frame) f.frame)) :
    f.yield crates (pos / f.frame) pos wanted body =
        .ok (slice plain pos (f.taken plain.length pos wanted)) ∧
      0 < f.taken plain.length pos wanted ∧ f.taken plain.length pos wanted ≤ wanted ∧
      pos + f.taken plain.length pos wanted ≤ plain.length := by
  obtain ⟨hsplit, hmod⟩ := div_mul_add_mod hframe pos
  set base := pos / f.frame * f.frame with hbase
  set skip := pos % f.frame with hskip
  have htaken : f.taken plain.length pos wanted =
      min wanted (min f.frame (plain.length - base) - skip) := rfl
  have hlen : (slice plain base f.frame).length = min f.frame (plain.length - base) :=
    length_slice _ _ _
  have htake : 0 < min wanted (min f.frame (plain.length - base) - skip) := by omega
  refine ⟨?_, by omega, by omega, by omega⟩
  have hslice : slice (slice plain base f.frame) skip
      (min wanted (min f.frame (plain.length - base) - skip)) =
      slice plain pos (min wanted (min f.frame (plain.length - base) - skip)) := by
    rw [slice_slice (by omega), hsplit]
  unfold yield
  rw [hdecode]
  simp only [bind, Except.bind, ← hskip, hlen]
  rw [if_neg (by omega), hslice, htaken]
  rfl

/-! ## The walk -/

theorem run_streamFrom_zero (fuel pos : Nat) :
    (f.streamFrom crates fuel pos 0).run reader = ⟨[], .ok ()⟩ := by
  cases fuel with
  | zero => rfl
  | succ fuel => rw [streamFrom, if_pos rfl]; rfl

/-- One frame of the walk: read it, yield, go on after the item. -/
theorem run_streamFrom_succ {fuel pos wanted lo hi : Nat} (hwanted : wanted ≠ 0)
    (hlo : f.offsets[pos / f.frame]? = some lo) (hhi : f.offsets[pos / f.frame + 1]? = some hi) :
    (f.streamFrom crates (fuel + 1) pos wanted).run reader =
      match (reader ⟨lo, hi - lo⟩).bind (f.yield crates (pos / f.frame) pos wanted) with
      | .error e => ⟨[], .error e⟩
      | .ok bytes =>
          let rest := (f.streamFrom crates fuel (pos + bytes.length)
            (wanted - bytes.length)).run reader
          ⟨bytes :: rest.items, rest.outcome⟩ := by
  rw [streamFrom, if_neg hwanted]
  simp only [hlo, hhi, Reading.run_bind, Reading.run_readAt]
  cases reader ⟨lo, hi - lo⟩ with
  | error e => rfl
  | ok body =>
      simp only [Except.bind]
      cases f.yield crates (pos / f.frame) pos wanted body with
      | error e => rfl
      | ok bytes =>
          simp only [Reading.run_bind]
          rfl

/-- Fuel beyond what is wanted changes nothing. -/
theorem run_streamFrom_fuel {fuel pos wanted : Nat} (h : wanted ≤ fuel) :
    (f.streamFrom crates fuel pos wanted).run reader =
      (f.stream crates pos wanted).run reader := by
  suffices hall : ∀ n fuel fuel' pos wanted, wanted ≤ n → wanted ≤ fuel → wanted ≤ fuel' →
      (f.streamFrom crates fuel pos wanted).run reader =
        (f.streamFrom crates fuel' pos wanted).run reader from
    hall wanted fuel wanted pos wanted (le_refl _) h (le_refl _)
  intro n
  induction n with
  | zero =>
      intro fuel fuel' pos wanted hn _ _
      obtain rfl : wanted = 0 := by omega
      rw [run_streamFrom_zero, run_streamFrom_zero]
  | succ n ih =>
      intro fuel fuel' pos wanted hn hfuel hfuel'
      by_cases hwanted : wanted = 0
      · subst hwanted
        rw [run_streamFrom_zero, run_streamFrom_zero]
      · obtain ⟨k, rfl⟩ : ∃ k, fuel = k + 1 := ⟨fuel - 1, by omega⟩
        obtain ⟨k', rfl⟩ : ∃ k', fuel' = k' + 1 := ⟨fuel' - 1, by omega⟩
        cases hlo : f.offsets[pos / f.frame]? with
        | none => rw [streamFrom, streamFrom, if_neg hwanted, if_neg hwanted]; simp only [hlo]
        | some lo =>
            cases hhi : f.offsets[pos / f.frame + 1]? with
            | none =>
                rw [streamFrom, streamFrom, if_neg hwanted, if_neg hwanted]
                simp only [hlo, hhi]
            | some hi =>
                rw [run_streamFrom_succ hwanted hlo hhi, run_streamFrom_succ hwanted hlo hhi]
                cases hitem : (reader ⟨lo, hi - lo⟩).bind
                    (f.yield crates (pos / f.frame) pos wanted) with
                | error e => rfl
                | ok bytes =>
                    have hbytes : 0 < bytes.length ∧ bytes.length ≤ wanted := by
                      cases hread : reader ⟨lo, hi - lo⟩ with
                      | error e => rw [hread] at hitem; cases hitem
                      | ok body => rw [hread] at hitem; exact length_yield hitem
                    simp only
                    rw [ih k k' _ _ (by omega) (by omega) (by omega)]

/-- **The stream, without the fuel.** -/
theorem run_stream_succ {pos wanted lo hi : Nat} (hwanted : wanted ≠ 0)
    (hlo : f.offsets[pos / f.frame]? = some lo) (hhi : f.offsets[pos / f.frame + 1]? = some hi) :
    (f.stream crates pos wanted).run reader =
      match (reader ⟨lo, hi - lo⟩).bind (f.yield crates (pos / f.frame) pos wanted) with
      | .error e => ⟨[], .error e⟩
      | .ok bytes =>
          let rest := (f.stream crates (pos + bytes.length) (wanted - bytes.length)).run reader
          ⟨bytes :: rest.items, rest.outcome⟩ := by
  rw [← run_streamFrom_fuel (Nat.le_succ wanted), run_streamFrom_succ hwanted hlo hhi]
  cases (reader ⟨lo, hi - lo⟩).bind (f.yield crates (pos / f.frame) pos wanted) with
  | error e => rfl
  | ok bytes => simp only [run_streamFrom_fuel (Nat.sub_le wanted bytes.length)]

section Walk

variable {plain : Bytes} {n : Nat}

theorem index_lt (hframe : 0 < f.frame) (hcover : plain.length ≤ n * f.frame) {pos : Nat}
    (hpos : pos < plain.length) : pos / f.frame < n :=
  (Nat.div_lt_iff_lt_mul hframe).mpr (by omega)

/-- A frame that decodes to nothing from `pos` on is an error. -/
theorem yield_of_short {index pos : Nat} (wanted : Nat) {body out : Bytes}
    (hout : f.decode crates index body = .ok out) (hle : out.length ≤ pos % f.frame) :
    ∃ e, f.yield crates index pos wanted body = .error e := by
  unfold yield
  rw [hout]
  simp only [bind, Except.bind]
  rw [if_pos (by omega)]
  exact ⟨_, rfl⟩

/-- **A frame that decodes to less than its slice stops a stream that goes to the
end of the plaintext.** -/
theorem stream_short (hframe : 0 < f.frame) {pos wanted lo hi : Nat} {body out : Bytes}
    (hend : pos + wanted = plain.length) (hwanted : wanted ≠ 0)
    (hlo : f.offsets[pos / f.frame]? = some lo) (hhi : f.offsets[pos / f.frame + 1]? = some hi)
    (hread : reader ⟨lo, hi - lo⟩ = .ok body)
    (hout : f.decode crates (pos / f.frame) body = .ok out)
    (hshort : out.length < (slice plain (pos / f.frame * f.frame) f.frame).length) :
    ((f.stream crates pos wanted).run reader).outcome ≠ .ok () := by
  obtain ⟨hsplit, hmod⟩ := div_mul_add_mod hframe pos
  rw [length_slice] at hshort
  rw [run_stream_succ hwanted hlo hhi, hread]
  simp only [Except.bind]
  cases hitem : f.yield crates (pos / f.frame) pos wanted body with
  | error e => exact fun h => by cases h
  | ok bytes =>
      obtain ⟨out', hout', hpos, rfl⟩ := yield_eq_ok hitem
      rw [hout] at hout'
      cases hout'
      -- All of the frame is taken, and the next item is asked of the same frame.
      have htake : (slice out (pos % f.frame) (min wanted (out.length - pos % f.frame))).length =
          out.length - pos % f.frame := by
        rw [length_slice]
        omega
      have hnext : pos + (out.length - pos % f.frame) =
          pos / f.frame * f.frame + out.length := by omega
      have hlt : out.length < f.frame := by omega
      have hindex : (pos / f.frame * f.frame + out.length) / f.frame = pos / f.frame := by
        rw [Nat.mul_comm, Nat.mul_add_div hframe, Nat.div_eq_of_lt hlt, Nat.add_zero]
      have hskip : (pos / f.frame * f.frame + out.length) % f.frame = out.length := by
        rw [Nat.mul_comm, Nat.mul_add_mod, Nat.mod_eq_of_lt hlt]
      obtain ⟨e, he⟩ := yield_of_short (wanted - (out.length - pos % f.frame)) hout
        (le_of_eq hskip.symm)
      rw [← hindex] at hlo hhi
      simp only [htake, hnext]
      rw [run_stream_succ (by omega) hlo hhi, hindex, hread]
      simp only [Except.bind, he]
      exact fun h => by cases h

/-- **A stream that ends without an error yielded the range**, when every frame
that decodes at all decodes to its slice, or to less and the range goes to the end. -/
theorem stream_sound (hframe : 0 < f.frame) (hoffsets : f.offsets.length = n + 1)
    (hcover : plain.length ≤ n * f.frame) {pos wanted : Nat}
    (hdecode : ∀ i lo hi body out, f.offsets[i]? = some lo → f.offsets[i + 1]? = some hi →
      reader ⟨lo, hi - lo⟩ = .ok body → f.decode crates i body = .ok out →
      out = slice plain (i * f.frame) f.frame ∨
        pos + wanted = plain.length ∧ out.length < (slice plain (i * f.frame) f.frame).length)
    (hle : pos + wanted ≤ plain.length)
    (hdone : ((f.stream crates pos wanted).run reader).outcome = .ok ()) :
    ((f.stream crates pos wanted).run reader).items.flatten = slice plain pos wanted := by
  induction wanted using Nat.strong_induction_on generalizing pos with
  | _ wanted ih =>
      by_cases hwanted : wanted = 0
      · subst hwanted
        rw [stream, run_streamFrom_zero, slice_zero_length]
        rfl
      · have hindex := index_lt hframe hcover (show pos < plain.length by omega)
        obtain ⟨lo, hlo⟩ : ∃ lo, f.offsets[pos / f.frame]? = some lo :=
          ⟨_, List.getElem?_eq_getElem (by omega)⟩
        obtain ⟨hi, hhi⟩ : ∃ hi, f.offsets[pos / f.frame + 1]? = some hi :=
          ⟨_, List.getElem?_eq_getElem (by omega)⟩
        rw [run_stream_succ hwanted hlo hhi] at hdone ⊢
        cases hread : reader ⟨lo, hi - lo⟩ with
        | error e =>
            rw [hread] at hdone
            cases hdone
        | ok body =>
            rw [hread] at hdone
            simp only [Except.bind] at hdone ⊢
            cases hitem : f.yield crates (pos / f.frame) pos wanted body with
            | error e =>
                rw [hitem] at hdone
                cases hdone
            | ok bytes =>
                rw [hitem] at hdone
                simp only at hdone ⊢
                obtain ⟨out, hout, -, -⟩ := yield_eq_ok hitem
                have hslice : out = slice plain (pos / f.frame * f.frame) f.frame := by
                  rcases hdecode _ lo hi body out hlo hhi hread hout with hslice | ⟨hend, hshort⟩
                  · exact hslice
                  · refine absurd ?_ (stream_short hframe hend hwanted hlo hhi hread hout hshort)
                    rw [run_stream_succ hwanted hlo hhi, hread]
                    simp only [Except.bind, hitem]
                    exact hdone
                rw [hslice] at hout
                obtain ⟨hyield, htake, hltw, hltp⟩ := yield_of_decode hframe (by omega)
                  (Nat.pos_of_ne_zero hwanted) hout
                have hbytes : bytes = slice plain pos (f.taken plain.length pos wanted) :=
                  Except.ok.inj (hitem.symm.trans hyield)
                have hlen : bytes.length = f.taken plain.length pos wanted := by
                  rw [hbytes, length_slice_of_le hltp]
                have hsum : pos + bytes.length + (wanted - bytes.length) = pos + wanted := by omega
                have hrest := ih (wanted - bytes.length) (by omega) (by rwa [hsum]) (by omega) hdone
                have hsplit : wanted = bytes.length + (wanted - bytes.length) := by omega
                rw [List.flatten_cons, hrest]
                conv_rhs => rw [hsplit]
                rw [← slice_append_slice, hlen, ← hbytes]

/-- **A stream ends without an error** when every frame is there and decodes to
its slice. -/
theorem stream_complete (hframe : 0 < f.frame) (hcover : plain.length ≤ n * f.frame)
    (hdecode : ∀ i, i < n → ∃ lo hi body, f.offsets[i]? = some lo ∧ f.offsets[i + 1]? = some hi ∧
      reader ⟨lo, hi - lo⟩ = .ok body ∧
      f.decode crates i body = .ok (slice plain (i * f.frame) f.frame))
    {pos wanted : Nat} (hle : pos + wanted ≤ plain.length) :
    ((f.stream crates pos wanted).run reader).outcome = .ok () := by
  induction wanted using Nat.strong_induction_on generalizing pos with
  | _ wanted ih =>
      by_cases hwanted : wanted = 0
      · subst hwanted
        rw [stream, run_streamFrom_zero]
      · have hindex := index_lt hframe hcover (show pos < plain.length by omega)
        obtain ⟨lo, hi, body, hlo, hhi, hread, hout⟩ := hdecode _ hindex
        obtain ⟨hyield, htake, hltw, hltp⟩ := yield_of_decode hframe (by omega)
          (Nat.pos_of_ne_zero hwanted) hout
        rw [run_stream_succ hwanted hlo hhi, hread]
        simp only [Except.bind, hyield]
        rw [length_slice_of_le hltp]
        exact ih _ (by omega) (by omega)

end Walk

end Lfsx.Storage.Framed
