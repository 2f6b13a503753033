import Mathlib.Data.List.Infix
import Mathlib.Data.List.Basic

/-!
# Slash-separated texts

A key of a bucket is a text of segments with slashes between them.  The code
builds a key by formatting its segments and reads one by splitting it, by taking
its last segment, by testing how it starts and by searching it.  A segment is
*plain* when it has no slash, and on plain segments each way of reading finds the
segments again.

* `splitOn_joined`: splitting a key gives its segments.
* `under_joined`: a key starts with some segments and a slash if and only if they
  are its first segments and not all of them.
* `contains_joined`: a key contains a segment between slashes if and only if it is
  one of its segments, and neither the first nor the last.
-/

namespace Lfsx

/-- A string, as its characters. -/
abbrev Text := List Char

namespace Path

/-- A segment has no slash. -/
def Plain (t : Text) : Prop := '/' ∉ t

instance (t : Text) : Decidable (Plain t) := inferInstanceAs (Decidable ('/' ∉ t))

/-- Segments with slashes between them. -/
def joined (segments : List Text) : Text := ['/'].intercalate segments

/-- `key.split('/')`. -/
def segments (key : Text) : List Text := key.splitOn '/'

/-- `key.rsplit('/').next()`: there is always a last segment. -/
def last (key : Text) : Text := (segments key).getLast?.getD []

/-- Some segments with a slash after each. -/
def under (segments : List Text) : Text := segments.flatMap (· ++ ['/'])

/-- `key.contains("/segment/")`. -/
def containsSegment (segment key : Text) : Bool := decide ('/' :: segment ++ ['/'] <:+: key)

@[simp] theorem joined_singleton (s : Text) : joined [s] = s := List.intercalate_singleton

@[simp] theorem joined_cons (s t : Text) (ss : List Text) :
    joined (s :: t :: ss) = s ++ '/' :: joined (t :: ss) := by
  rw [joined, List.intercalate_cons_cons]
  simp [joined]

@[simp] theorem under_nil : under [] = [] := rfl

@[simp] theorem under_cons (s : Text) (ss : List Text) :
    under (s :: ss) = s ++ '/' :: under ss := by
  simp [under]

theorem segments_joined {ss : List Text} (hplain : ∀ s ∈ ss, Plain s) (hne : ss ≠ []) :
    segments (joined ss) = ss :=
  List.splitOn_intercalate '/' hplain hne

theorem last_joined {ss : List Text} (hplain : ∀ s ∈ ss, Plain s) (hne : ss ≠ []) :
    last (joined ss) = ss.getLast hne := by
  rw [last, segments_joined hplain hne, List.getLast?_eq_some_getLast hne]
  rfl

/-- Splitting a key gives plain segments. -/
theorem plain_of_mem_segments (key : Text) : ∀ s ∈ segments key, Plain s := by
  induction key with
  | nil => simp [segments, Plain]
  | cons c key ih =>
      intro s hs
      rw [segments, List.splitOn_cons_eq_if_modifyHead] at hs
      split at hs
      · rcases List.mem_cons.mp hs with rfl | hs
        · simp [Plain]
        · exact ih s hs
      case isFalse hc =>
        obtain ⟨first, rest, hsplit⟩ := List.exists_cons_of_ne_nil (List.splitOn_ne_nil '/' key)
        rw [hsplit, List.modifyHead_cons, List.mem_cons] at hs
        have hall : ∀ t ∈ first :: rest, Plain t := by
          rw [← hsplit]
          exact ih
        rcases hs with rfl | hs
        · have hfirst := hall first List.mem_cons_self
          have hne : '/' ≠ c := fun h => hc (by simp [h.symm])
          simp only [Plain, List.mem_cons, not_or]
          exact ⟨hne, hfirst⟩
        · exact hall s (List.mem_cons_of_mem _ hs)

/-- And joining them gives the key. -/
theorem joined_segments (key : Text) : joined (segments key) = key := List.intercalate_splitOn '/'

/-- Plain segments are read back from the key they make. -/
theorem joined_inj {ss ts : List Text} (hs : ∀ s ∈ ss, Plain s) (ht : ∀ t ∈ ts, Plain t)
    (hsne : ss ≠ []) (htne : ts ≠ []) (h : joined ss = joined ts) : ss = ts := by
  rw [← segments_joined hs hsne, h, segments_joined ht htne]

/-- What stands before the first slash of two texts agrees. -/
theorem slash_starts {p s x y : Text} (hp : Plain p) (hs : Plain s) :
    p ++ '/' :: x <+: s ++ '/' :: y ↔ p = s ∧ x <+: y := by
  induction p generalizing s with
  | nil =>
      cases s with
      | nil => simp
      | cons c s =>
          have hc : '/' ≠ c := fun h => hs (h ▸ List.mem_cons_self)
          simp [hc]
  | cons c p ih =>
      cases s with
      | nil =>
          have hc : c ≠ '/' := fun h => hp (h ▸ List.mem_cons_self)
          simp [hc]
      | cons d s =>
          have hp' : Plain p := fun h => hp (List.mem_cons_of_mem _ h)
          have hs' : Plain s := fun h => hs (List.mem_cons_of_mem _ h)
          simp only [List.cons_append, List.cons_prefix_cons, ih hp' hs', List.cons.injEq]
          exact and_assoc.symm

/-- A plain segment and a slash start no plain segment. -/
theorem not_slash_starts {p s x : Text} (hs : Plain s) : ¬ p ++ '/' :: x <+: s := by
  intro h
  exact hs (h.subset (by simp))

/-- **A key under some segments.** -/
theorem under_joined {ps ss : List Text} (hps : ∀ p ∈ ps, Plain p) (hss : ∀ s ∈ ss, Plain s) :
    under ps <+: joined ss ↔ ps = [] ∨ ∃ rest, rest ≠ [] ∧ ss = ps ++ rest := by
  induction ps generalizing ss with
  | nil => simp
  | cons p ps ih =>
      have hp : Plain p := hps p List.mem_cons_self
      have hps' : ∀ q ∈ ps, Plain q := fun q hq => hps q (List.mem_cons_of_mem _ hq)
      rw [under_cons]
      match ss, hss with
      | [], _ => simp [joined]
      | [s], hss =>
          have hs : Plain s := hss s List.mem_cons_self
          simp only [joined_singleton, not_slash_starts hs, false_iff, List.cons_append]
          rintro (h | ⟨rest, hrest, h⟩)
          · cases h
          · have hlen := congrArg List.length h
            have : rest.length ≠ 0 := by simpa using hrest
            simp only [List.length_cons, List.length_append, List.length_nil] at hlen
            omega
      | s :: t :: ts, hss =>
          have hs : Plain s := hss s List.mem_cons_self
          have hts : ∀ u ∈ t :: ts, Plain u := fun u hu => hss u (List.mem_cons_of_mem _ hu)
          rw [joined_cons, slash_starts hp hs, ih hps' hts]
          constructor
          · rintro ⟨rfl, rfl | ⟨rest, hrest, heq⟩⟩
            · exact Or.inr ⟨t :: ts, by simp, rfl⟩
            · exact Or.inr ⟨rest, hrest, by rw [heq, List.cons_append]⟩
          · rintro (h | ⟨rest, hrest, heq⟩)
            · cases h
            · rw [List.cons_append, List.cons.injEq] at heq
              exact ⟨heq.1.symm, Or.inr ⟨rest, hrest, heq.2⟩⟩

/-- A slash in a key stands before one of its segments after the first. -/
theorem slash_inside {ss : List Text} (hss : ∀ s ∈ ss, Plain s) {x : Text}
    (h : '/' :: x <:+: joined ss) :
    ∃ before after : List Text, before ≠ [] ∧ after ≠ [] ∧ ss = before ++ after ∧
      x <+: joined after := by
  induction ss with
  | nil =>
      have := h.subset List.mem_cons_self
      simp [joined] at this
  | cons s ss ih =>
      have hs : Plain s := hss s List.mem_cons_self
      match ss, hss, ih with
      | [], _, _ =>
          rw [joined_singleton] at h
          exact absurd (h.subset List.mem_cons_self) hs
      | t :: ts, hss, ih =>
          rw [joined_cons] at h
          obtain ⟨pre, post, heq⟩ := h
          rw [List.append_assoc, List.cons_append] at heq
          rcases List.append_eq_append_iff.mp heq with ⟨mid, hs', hmid⟩ | ⟨mid, hpre, hmid⟩
          · -- The slash stands at or after the end of the first segment.
            cases mid with
            | nil =>
                rw [List.nil_append, List.cons.injEq] at hmid
                exact ⟨[s], t :: ts, by simp, by simp, rfl, ⟨post, hmid.2⟩⟩
            | cons c mid =>
                rw [List.cons_append, List.cons.injEq] at hmid
                refine absurd ?_ hs
                rw [hs', ← hmid.1]
                simp
          · cases mid with
            | nil =>
                rw [List.nil_append, List.cons.injEq] at hmid
                exact ⟨[s], t :: ts, by simp, by simp, rfl, ⟨post, hmid.2.symm⟩⟩
            | cons c mid =>
                rw [List.cons_append, List.cons.injEq] at hmid
                have hts : ∀ u ∈ t :: ts, Plain u := fun u hu => hss u (List.mem_cons_of_mem _ hu)
                obtain ⟨before, after, hb, ha, hsplit, hx⟩ :=
                  ih hts ⟨mid, post, by rw [List.append_assoc, hmid.2]; rfl⟩
                exact ⟨s :: before, after, by simp, ha, by rw [hsplit, List.cons_append], hx⟩

/-- **A key that contains a segment.**  It has it after the first, and it goes on
after it. -/
theorem contains_joined {ss : List Text} (hss : ∀ s ∈ ss, Plain s) {p : Text} (hp : Plain p) :
    containsSegment p (joined ss) = true ↔
      ∃ before after : List Text, before ≠ [] ∧ after ≠ [] ∧ ss = before ++ p :: after := by
  rw [containsSegment, decide_eq_true_eq]
  constructor
  · intro h
    obtain ⟨before, after, hb, -, hsplit, hx⟩ := slash_inside hss h
    have hafter : ∀ s ∈ after, Plain s := fun s hs => hss s (by rw [hsplit]; simp [hs])
    have hone : under [p] <+: joined after := by rwa [under_cons, under_nil]
    rw [under_joined (by simpa using hp) hafter] at hone
    rcases hone with h | ⟨rest, hrest, heq⟩
    · cases h
    · exact ⟨before, rest, hb, hrest, by rw [hsplit, heq]; rfl⟩
  · rintro ⟨before, after, hb, ha, rfl⟩
    have hjoin : ∀ xs ys : List Text, xs ≠ [] → ys ≠ [] →
        joined (xs ++ ys) = joined xs ++ '/' :: joined ys := by
      intro xs ys hx hy
      induction xs with
      | nil => exact absurd rfl hx
      | cons x xs ih =>
          cases xs with
          | nil =>
              cases ys with
              | nil => exact absurd rfl hy
              | cons y ys => simp
          | cons x' xs => rw [List.cons_append, List.cons_append, joined_cons, ← List.cons_append,
              ih (by simp), joined_cons, List.append_assoc, List.cons_append]
    obtain ⟨a, as, rfl⟩ := List.exists_cons_of_ne_nil ha
    rw [hjoin _ _ hb (by simp), joined_cons]
    exact ⟨joined before, joined (a :: as), by simp⟩

end Path

end Lfsx
