import Lfsx.Bytes

/-!
# Tiling

A range of bytes in pieces of one size, the last of them what is left.  The pieces tile the
range (`tiles_spans`): each begins where the one before it ended, none is empty, and the last
ends where the range does.
-/

namespace Lfsx

/-- The bytes from `offset` on. -/
structure Span where
  offset : Nat
  length : Nat
deriving DecidableEq

/-- One after the other, from `start` to `stop`, and none of them empty. -/
def Tiles (stop : Nat) : (start : Nat) → List Span → Prop
  | start, [] => start = stop
  | start, span :: rest =>
      span.offset = start ∧ 0 < span.length ∧ Tiles stop (start + span.length) rest

/-- The piece at an index. -/
def spanAt (size length index : Nat) : Span := ⟨index * size, min size (length - index * size)⟩

/-- The pieces of `size` bytes of `length` bytes. -/
def spans (size length : Nat) : List Span :=
  (List.range (divCeil length size)).map (spanAt size length)

variable {size length index : Nat}

theorem lt_divCeil_iff (hsize : 0 < size) : index < divCeil length size ↔ index *
    size < length := by
  have hdiv : length = length / size * size + length % size := by
    rw [Nat.mul_comm]
    exact (Nat.div_add_mod length size).symm
  have hmod := Nat.mod_lt length hsize
  have hle : index < length / size ↔ index * size + size ≤ length / size * size := by
    rw [← Nat.succ_mul]
    exact ⟨fun h => Nat.mul_le_mul_right _ h, fun h => Nat.le_of_mul_le_mul_right h hsize⟩
  have heq : length / size ≤ index ↔ length / size * size ≤ index * size :=
    ⟨fun h => Nat.mul_le_mul_right _ h, fun h => Nat.le_of_mul_le_mul_right h hsize⟩
  rw [divCeil]
  split
  · omega
  · constructor
    · intro h
      rcases Nat.lt_or_ge index (length / size) with hlt | hge
      · have := hle.mp hlt
        omega
      · have hsame : index = length / size := by omega
        rw [hsame]
        omega
    · intro h
      by_contra hnot
      have hlarge : length / size + 1 ≤ index := by omega
      have hmul := Nat.mul_le_mul_right size hlarge
      rw [Nat.succ_mul] at hmul
      omega

@[simp] theorem length_spans : (spans size length).length = divCeil length size := by
  simp [spans]

theorem getElem?_spans (hsize : 0 < size) :
    (spans size length)[index]? =
      if index * size < length then some (spanAt size length index) else none := by
  rw [spans, List.getElem?_map]
  split
  case isTrue h =>
    rw [List.getElem?_range ((lt_divCeil_iff hsize).mpr h)]
    rfl
  case isFalse h =>
    rw [List.getElem?_eq_none]
    · rfl
    · rw [List.length_range]
      exact Nat.le_of_not_lt fun hlt => h ((lt_divCeil_iff hsize).mp hlt)

theorem tiles_from (hsize : 0 < size) {count : Nat} (h : index + count = divCeil length size) :
    Tiles length (min (index * size) length)
      ((List.range' index count).map (spanAt size length)) := by
  induction count generalizing index with
  | zero =>
      have hge : length ≤ index * size := by
        rw [← Nat.not_lt, ← lt_divCeil_iff hsize]
        omega
      exact Nat.min_eq_right hge
  | succ count ih =>
      have hlt : index * size < length := (lt_divCeil_iff hsize).mp (by omega)
      have hrest : Tiles length (min ((index + 1) * size) length)
          ((List.range' (index + 1) count).map (spanAt size length)) := ih (by omega)
      have hnext : min (index * size) length + min size (length - index * size) =
          min ((index + 1) * size) length := by
        rw [Nat.succ_mul]
        omega
      rw [List.range'_succ, List.map_cons]
      refine ⟨?_, ?_, ?_⟩
      · exact (Nat.min_eq_left hlt.le).symm
      · show 0 < min size (length - index * size)
        omega
      · show Tiles length (min (index * size) length + min size (length - index * size)) _
        rw [hnext]
        exact hrest

/-- **The pieces tile the range.** -/
theorem tiles_spans (hsize : 0 < size) : Tiles length 0 (spans size length) := by
  have hcount : 0 + divCeil length size = divCeil length size := Nat.zero_add _
  have h := tiles_from hsize hcount
  rwa [Nat.zero_mul, Nat.zero_min, ← List.range_eq_range'] at h

/-- **All but the last are full.** -/
theorem length_of_mem_dropLast (hsize : 0 < size) {span : Span}
    (h : span ∈ (spans size length).dropLast) : span.length = size := by
  obtain ⟨i, hi, heq⟩ := List.mem_iff_getElem.mp h
  rw [List.length_dropLast, length_spans] at hi
  have hnext : (i + 1) * size < length := (lt_divCeil_iff hsize).mp (by omega)
  have hget : (spans size length)[i]? = some span := by
    rw [← heq, List.getElem_dropLast]
    exact List.getElem?_eq_getElem _
  rw [getElem?_spans hsize] at hget
  split at hget
  case isTrue =>
    cases hget
    show min size (length - i * size) = size
    rw [Nat.succ_mul] at hnext
    omega
  case isFalse => cases hget

end Lfsx
