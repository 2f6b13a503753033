import Mathlib.Data.List.Basic
import Mathlib.Data.Nat.Bits
import Mathlib.Tactic.Linarith
import Mathlib.Tactic.Ring

/-!
# Byte strings

What a binary format is written with, over any format.

* *Little-endian words.*  `leBytes w v` is the `w` low bytes of `v`, least
  significant first, and `fromLe` reads a byte string of any length back.  They
  undo each other on values of `w` bytes (`fromLe_leBytes`).
* *Slices.*  `slice b offset length` is the part of `b` a positional read
  returns, cut short at the end of `b`.  The slice lemmas walk a slice across
  the pieces of a concatenation.
* *Frames.*  `cut size b` takes whole frames of `size` bytes off `b` while more
  than one frame is left, so what it leaves behind is empty only if `b` is.
  `framesOf size b` is the frames of `b` with that rest as the last one, and
  `getElem?_framesOf` says that they are the slices of `b` at the multiples of
  `size`.
-/

namespace Lfsx

/-- A byte string. -/
abbrev Bytes := List UInt8

/-- A byte array of a fixed length. -/
abbrev Fixed (n : Nat) := { b : Bytes // b.length = n }

/-- The start of a byte string, padded with zeros. -/
theorem length_padded (b : Bytes) : ((b ++ List.replicate 32 0).take 32).length = 32 := by
  rw [List.length_take, List.length_append, List.length_replicate]
  exact min_eq_left (Nat.le_add_left 32 b.length)

/-- The largest value of a `u64`. -/
def maxU64 : Nat := 2 ^ 64 - 1

/-- `u64::saturating_add`. -/
def saturatingAdd (a b : Nat) : Nat := min (a + b) maxU64

/-- `u64::saturating_mul`. -/
def saturatingMul (a b : Nat) : Nat := min (a * b) maxU64

/-- `u64::div_ceil`. -/
def divCeil (a b : Nat) : Nat := if a % b = 0 then a / b else a / b + 1

/-! ## Little-endian words -/

/-- The `w` low bytes of `v`, least significant first. -/
def leBytes : (w : Nat) → (v : Nat) → Bytes
  | 0, _ => []
  | w + 1, v => UInt8.ofNat v :: leBytes w (v / 256)

/-- The value of a little-endian byte string. -/
def fromLe : Bytes → Nat
  | [] => 0
  | b :: bs => b.toNat + 256 * fromLe bs

@[simp] theorem length_leBytes (w v : Nat) : (leBytes w v).length = w := by
  induction w generalizing v with
  | zero => rfl
  | succ w ih => simp [leBytes, ih]

theorem fromLe_leBytes_mod (w v : Nat) : fromLe (leBytes w v) = v % 256 ^ w := by
  induction w generalizing v with
  | zero => simp [leBytes, fromLe, Nat.mod_one]
  | succ w ih =>
      have hb : (UInt8.ofNat v).toNat = v % 256 := by simp
      rw [leBytes, fromLe, ih, hb, Nat.pow_succ', Nat.mod_mul]

theorem fromLe_leBytes {w v : Nat} (h : v < 256 ^ w) : fromLe (leBytes w v) = v := by
  rw [fromLe_leBytes_mod, Nat.mod_eq_of_lt h]

theorem fromLe_lt (b : Bytes) : fromLe b < 256 ^ b.length := by
  induction b with
  | nil => simp [fromLe]
  | cons x xs ih =>
      have hx : x.toNat < 256 := x.toNat_lt
      rw [fromLe, List.length_cons, Nat.pow_succ']
      omega

theorem leBytes_fromLe (b : Bytes) : leBytes b.length (fromLe b) = b := by
  induction b with
  | nil => rfl
  | cons x xs ih =>
      have hx : x.toNat < 256 := x.toNat_lt
      have hlow : UInt8.ofNat (x.toNat + 256 * fromLe xs) = x := by
        apply UInt8.toNat_inj.mp
        rw [UInt8.toNat_ofNat']
        omega
      have hhigh : (x.toNat + 256 * fromLe xs) / 256 = fromLe xs := by omega
      rw [List.length_cons, fromLe, leBytes, hlow, hhigh, ih]

/-! ## Slices -/

/-- The part of `b` a read of `length` bytes at `offset` returns. -/
def slice (b : Bytes) (offset length : Nat) : Bytes := (b.drop offset).take length

theorem length_slice (b : Bytes) (offset length : Nat) :
    (slice b offset length).length = min length (b.length - offset) := by
  simp [slice]

theorem length_slice_of_le {b : Bytes} {offset length : Nat} (h : offset + length ≤ b.length) :
    (slice b offset length).length = length := by
  rw [length_slice]
  omega

@[simp] theorem slice_zero_length (b : Bytes) (offset : Nat) : slice b offset 0 = [] := by
  simp [slice]

@[simp] theorem slice_all (b : Bytes) : slice b 0 b.length = b := by simp [slice]

/-- A slice of a slice that stays inside it. -/
theorem slice_slice {b : Bytes} {o n o' n' : Nat} (h : o' + n' ≤ n) :
    slice (slice b o n) o' n' = slice b (o + o') n' := by
  simp only [slice, List.drop_take, List.drop_drop, List.take_take]
  congr 1
  omega

/-- Adjacent slices join. -/
theorem slice_append_slice (b : Bytes) (o n m : Nat) :
    slice b o n ++ slice b (o + n) m = slice b o (n + m) := by
  simp only [slice, ← List.drop_drop, List.take_add]

theorem slice_append_left {a b : Bytes} {o n : Nat} (h : o + n ≤ a.length) :
    slice (a ++ b) o n = slice a o n := by
  rw [slice, slice, List.drop_append_of_le_length (by omega),
    List.take_append_of_le_length (by simp; omega)]

theorem slice_append_right (a b : Bytes) (o n : Nat) :
    slice (a ++ b) (a.length + o) n = slice b o n := by
  rw [slice, slice, ← List.drop_drop, List.drop_left]

theorem slice_append_exact (a b c : Bytes) : slice (a ++ b ++ c) a.length b.length = b := by
  rw [List.append_assoc]
  have h := slice_append_right a (b ++ c) 0 b.length
  rw [Nat.add_zero] at h
  rw [h, slice_append_left (by omega), slice_all]

/-! ## Frames -/

/-- Whole frames of `size` bytes, taken while more than one is left, and the rest. -/
def cut (size : Nat) (b : Bytes) : List Bytes × Bytes :=
  if 0 < size ∧ size < b.length then
    (b.take size :: (cut size (b.drop size)).1, (cut size (b.drop size)).2)
  else ([], b)
termination_by b.length
decreasing_by all_goals simp; omega

/-- The frames of `b`: all of `size` bytes but the last, which is not empty. -/
def framesOf (size : Nat) (b : Bytes) : List Bytes :=
  if (cut size b).2 = [] then (cut size b).1 else (cut size b).1 ++ [(cut size b).2]

section Frames

variable {size : Nat}

theorem cut_of_le {b : Bytes} (h : b.length ≤ size) : cut size b = ([], b) := by
  rw [cut, if_neg (by omega)]

theorem cut_of_lt {b : Bytes} (hsize : 0 < size) (h : size < b.length) :
    cut size b = (b.take size :: (cut size (b.drop size)).1, (cut size (b.drop size)).2) := by
  rw [cut, if_pos ⟨hsize, h⟩]

/-- Cutting a concatenation goes on from the rest of its first half. -/
theorem cut_append (b c : Bytes) :
    cut size (b ++ c) =
      ((cut size b).1 ++ (cut size ((cut size b).2 ++ c)).1,
        (cut size ((cut size b).2 ++ c)).2) := by
  induction b using cut.induct size with
  | case1 b h ih =>
      obtain ⟨hsize, hlen⟩ := h
      rw [cut_of_lt hsize hlen, cut_of_lt hsize (by simp; omega),
        List.take_append_of_le_length (by omega), List.drop_append_of_le_length (by omega), ih]
      rfl
  | case2 b h =>
      rw [show cut size b = ([], b) by rw [cut, if_neg h]]
      rfl

theorem cut_flatten (b : Bytes) : (cut size b).1.flatten ++ (cut size b).2 = b := by
  induction b using cut.induct size with
  | case1 b h ih =>
      rw [cut_of_lt h.1 h.2, List.flatten_cons, List.append_assoc, ih, List.take_append_drop]
  | case2 b h => rw [cut, if_neg h]; rfl

theorem cut_rest_le (hsize : 0 < size) (b : Bytes) : (cut size b).2.length ≤ size := by
  induction b using cut.induct size with
  | case1 b h ih => rw [cut_of_lt h.1 h.2]; exact ih
  | case2 b h =>
      rw [cut, if_neg h]
      exact Nat.le_of_not_lt fun hlt => h ⟨hsize, hlt⟩

theorem cut_rest_eq_nil {b : Bytes} (h : (cut size b).2 = []) : b = [] := by
  induction b using cut.induct size with
  | case1 b hb ih =>
      rw [cut_of_lt hb.1 hb.2] at h
      have hdrop := ih h
      have : (b.drop size).length = 0 := by rw [hdrop]; rfl
      rw [List.length_drop] at this
      omega
  | case2 b hb => rwa [cut, if_neg hb] at h

theorem cut_nil : cut size [] = ([], []) := cut_of_le (Nat.zero_le _)

@[simp] theorem framesOf_nil : framesOf size [] = [] := by simp [framesOf, cut_nil]

theorem framesOf_of_ne_nil {b : Bytes} (h : b ≠ []) :
    framesOf size b = (cut size b).1 ++ [(cut size b).2] := by
  rw [framesOf, if_neg fun hnil => h (cut_rest_eq_nil hnil)]

theorem framesOf_of_le {b : Bytes} (hne : b ≠ []) (h : b.length ≤ size) :
    framesOf size b = [b] := by
  rw [framesOf_of_ne_nil hne, cut_of_le h]
  rfl

theorem framesOf_of_lt {b : Bytes} (hsize : 0 < size) (h : size < b.length) :
    framesOf size b = b.take size :: framesOf size (b.drop size) := by
  have hb : b ≠ [] := by rintro rfl; simp at h
  have hd : b.drop size ≠ [] := by
    intro hnil
    have := congrArg List.length hnil
    simp only [List.length_drop, List.length_nil] at this
    omega
  rw [framesOf_of_ne_nil hb, framesOf_of_ne_nil hd, cut_of_lt hsize h]
  rfl

theorem flatten_framesOf (b : Bytes) : (framesOf size b).flatten = b := by
  by_cases hb : b = []
  · simp [hb]
  · rw [framesOf_of_ne_nil hb, List.flatten_append, List.flatten_singleton, cut_flatten]

/-- The frames are the slices at the multiples of the frame size. -/
theorem getElem?_framesOf (hsize : 0 < size) (b : Bytes) (i : Nat) :
    (framesOf size b)[i]? =
      if i * size < b.length then some (slice b (i * size) size) else none := by
  induction b using cut.induct size generalizing i with
  | case1 b h ih =>
      rw [framesOf_of_lt hsize h.2]
      cases i with
      | zero => simp [slice, show 0 < b.length by omega]
      | succ i =>
          rw [List.getElem?_cons_succ, ih, List.length_drop]
          have hiff : i * size < b.length - size ↔ (i + 1) * size < b.length := by
            rw [Nat.succ_mul]
            omega
          simp only [hiff, slice, List.drop_drop, Nat.succ_mul, Nat.add_comm]
  | case2 b h =>
      have hle : b.length ≤ size := Nat.le_of_not_lt fun hlt => h ⟨hsize, hlt⟩
      by_cases hb : b = []
      · simp [hb]
      · rw [framesOf_of_le hb hle]
        cases i with
        | zero =>
            have hpos : 0 < b.length := List.length_pos_iff.mpr hb
            simp [slice, hpos, List.take_of_length_le hle]
        | succ i =>
            have : ¬ (i + 1) * size < b.length := by
              rw [Nat.succ_mul]
              omega
            simp [this]

theorem getElem?_framesOf_of_lt (hsize : 0 < size) {b : Bytes} {i : Nat}
    (hi : i < (framesOf size b).length) :
    (framesOf size b)[i]? = some (slice b (i * size) size) := by
  have hget := getElem?_framesOf hsize b i
  rw [List.getElem?_eq_getElem hi] at hget ⊢
  split at hget
  · exact hget
  · cases hget

theorem length_framesOf (hsize : 0 < size) (b : Bytes) :
    (framesOf size b).length = divCeil b.length size := by
  induction b using cut.induct size with
  | case1 b h ih =>
      rw [framesOf_of_lt hsize h.2, List.length_cons, ih, List.length_drop]
      obtain ⟨k, hk⟩ : ∃ k, b.length = k + size := ⟨b.length - size, by omega⟩
      rw [hk, Nat.add_sub_cancel, divCeil, divCeil, Nat.add_mod_right, Nat.add_div_right _ hsize]
      split <;> rfl
  | case2 b h =>
      have hle : b.length ≤ size := Nat.le_of_not_lt fun hlt => h ⟨hsize, hlt⟩
      by_cases hb : b = []
      · simp [hb, divCeil]
      · have hpos : 0 < b.length := List.length_pos_iff.mpr hb
        rw [framesOf_of_le hb hle, divCeil]
        rcases Nat.lt_or_eq_of_le hle with hlt | heq
        · rw [Nat.mod_eq_of_lt hlt, Nat.div_eq_of_lt hlt, if_neg (by omega)]
          rfl
        · rw [heq, Nat.mod_self, Nat.div_self hsize, if_pos rfl]
          rfl

end Frames

end Lfsx
