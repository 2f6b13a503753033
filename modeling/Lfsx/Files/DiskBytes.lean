import Mathlib.Algebra.BigOperators.Group.Finset.Basic
import Lfsx.Files.DiskRules

/-!
# What a disk holds, and running alone on one

A file takes space as long as it has a name, and takes it once however many names it has
(`Disk.bytes`).  Removing a name frees the file if it was the last (`bytes_unname`).

A handler is `Still` if it answers as a disk does, in a moment: nobody else asks, and the clock
does not move.  What it answers is what a disk answers, except for the order of a listing.
-/

namespace Files

open Request

variable {Name : Type} [DecidableEq Name]

namespace Disk

/-- The length of a file. -/
def lengthOf (d : Disk Name) (i : Nat) : Nat := ((d.file i).map fun f => f.bytes.length).getD 0

/-- The length of the file a path names. -/
def lengthAt (d : Disk Name) (path : Path Name) : Nat := ((d.inode path).map d.lengthOf).getD 0

/-- The bytes of the files that have a name, each file once. -/
def bytes (d : Disk Name) : Nat :=
  ∑ i ∈ Finset.range d.files.length, if d.links i = 0 then 0 else d.lengthOf i

variable {d : Disk Name} {path : Path Name} {i j : Nat}

omit [DecidableEq Name] in
theorem lengthOf_of_file {f : File} (h : d.file i = some f) : d.lengthOf i = f.bytes.length := by
  rw [lengthOf, h]
  rfl

theorem lengthAt_of_inode (h : d.inode path = some i) : d.lengthAt path = d.lengthOf i := by
  rw [lengthAt, h]
  rfl

/-! ## Links -/

/-- The names of a file, once a path is no name any more. -/
theorem links_unname (path : Path Name) (j : Nat) :
    d.links j = (d.unname path).links j + if d.inode path = some j then 1 else 0 := by
  by_cases hkey : path ∈ d.names.keys
  · obtain ⟨i, before, after, hnot, hsplit, herase⟩ := List.exists_of_kerase hkey
    have hinode : d.inode path = some i := by
      rw [inode, AList.lookup, hsplit, List.dlookup_append]
      rw [List.dlookup_eq_none.mpr hnot, Option.none_or, List.dlookup_cons_eq]
    have hentries : (d.unname path).names.entries = before ++ after := herase
    rw [links, links, hsplit, hentries, List.filter_append, List.filter_append, List.filter_cons,
      hinode]
    by_cases hij : i = j
    · simp [hij, Nat.add_assoc]
    · simp [hij]
  · have hinode : d.inode path = none :=
      AList.lookup_eq_none.mpr fun h => hkey (AList.mem_keys.mp h)
    have hentries : (d.unname path).names.entries = d.names.entries :=
      List.kerase_of_notMem_keys hkey
    rw [links, links, hentries, hinode, if_neg (Option.some_ne_none j).symm, Nat.add_zero]

theorem links_pos (h : d.inode path = some i) : 0 < d.links i := by
  have hlinks := links_unname (d := d) path i
  rw [if_pos h] at hlinks
  omega

/-- A file frees its bytes with its last name. -/
theorem bytes_unname (h : d.inode path = some i) :
    d.bytes = (d.unname path).bytes + if d.links i = 1 then d.lengthOf i else 0 := by
  have hi : i ∈ Finset.range d.files.length := Finset.mem_range.mpr (inode_lt h)
  have hself := links_unname (d := d) path i
  rw [if_pos h] at hself
  have hfiles : (d.unname path).files = d.files := rfl
  rw [bytes, bytes, hfiles, ← Finset.add_sum_erase _ _ hi, ← Finset.add_sum_erase _ _ hi]
  have hrest : ∀ j ∈ (Finset.range d.files.length).erase i,
      (if d.links j = 0 then 0 else d.lengthOf j) =
        if (d.unname path).links j = 0 then 0 else (d.unname path).lengthOf j := by
    intro j hj
    have hlinks := links_unname (d := d) path j
    rw [h, if_neg, Nat.add_zero] at hlinks
    · rw [hlinks]
      rfl
    · rw [Option.some.injEq]
      exact (Finset.ne_of_mem_erase hj).symm
  have hlength : (d.unname path).lengthOf i = d.lengthOf i := rfl
  rw [Finset.sum_congr rfl hrest, hlength]
  split <;> split <;> split <;> omega

/-! ## Listings -/

theorem nodup_children (dir : Path Name) : (d.children dir).Nodup := List.nodup_dedup _

/-- What is in a directory is under it. -/
theorem mem_children_iff {dir : Path Name} :
    path ∈ d.children dir ↔ (∃ name, path = dir ++ [name]) ∧ d.There path := by
  constructor
  · exact fun h => ⟨mem_children h, there_of_mem_children h⟩
  · rintro ⟨⟨name, rfl⟩, rest, i, hi⟩
    rw [children, List.mem_dedup, List.mem_map]
    refine ⟨dir ++ [name] ++ rest, List.mem_filter.mpr ⟨?_, ?_⟩, ?_⟩
    · refine AList.mem_keys.mp (AList.lookup_isSome.mp ?_)
      rw [Option.isSome_iff_exists]
      exact ⟨i, hi⟩
    · rw [Bool.and_eq_true, List.isPrefixOf_iff_prefix, decide_eq_true_eq]
      refine ⟨⟨name :: rest, by simp⟩, ?_⟩
      simp only [List.length_append, List.length_cons, List.length_nil]
      omega
    · rw [List.take_append_of_le_length (by simp)]
      exact List.take_of_length_le (by simp)

/-- Two directories of one depth have nothing in common. -/
theorem disjoint_children {dir dir' : Path Name} (hne : dir ≠ dir') :
    (d.children dir).Disjoint (d.children dir') := by
  intro path h h'
  obtain ⟨name, rfl⟩ := mem_children h
  obtain ⟨name', heq⟩ := mem_children h'
  exact hne (List.append_inj_left' heq rfl)

end Disk

/-! ## Alone, in a moment -/

/-- A handler that answers as a disk does, while its clock stands still. -/
structure Still (handle : (r : Req Name) → Disk Name → Resp r × Disk Name) : Prop where
  answers : ∀ r d, Answers r d (handle r d).1 (handle r d).2
  clock : ∀ r d, (handle r d).2.clock = d.clock

theorem still_respond : Still (respond : (r : Req Name) → Disk Name → Resp r × Disk Name) := by
  refine ⟨respond_answers, fun r d => ?_⟩
  cases r with
  | create path =>
      simp only [respond]
      cases d.inode path <;> rfl
  | rename source target =>
      simp only [respond]
      cases d.inode source with
      | none => rfl
      | some i => exact Disk.clock_rename
  | link source target =>
      simp only [respond]
      cases hs : d.inode source with
      | none => rfl
      | some i =>
          cases d.inode target with
          | none => exact Disk.clock_link
          | some j => rfl
  | unlink path =>
      simp only [respond]
      cases d.inode path <;> rfl
  | _ => rfl

namespace Still

variable {handle : (r : Req Name) → Disk Name → Resp r × Disk Name} {d : Disk Name}
  {path : Path Name} {i : Nat}

theorem eval_metadata (h : Still handle) (path : Path Name) :
    (metadata path).run.eval handle d =
      (Refused.notFound.unless ((d.inode path).bind d.stat), d) := by
  obtain ⟨hanswer, hstate⟩ := h.answers (.metadata path) d
  exact Prod.ext hanswer hstate

theorem eval_unlink (h : Still handle) (hi : d.inode path = some i) :
    (removeFile path).run.eval handle d = (.ok (), d.unname path) := by
  have hanswers := h.answers (.unlink path) d
  rw [Answers] at hanswers
  rw [hi] at hanswers
  exact Prod.ext hanswers.1 hanswers.2

theorem eval_unlink_none (h : Still handle) (hi : d.inode path = none) :
    (removeFile path).run.eval handle d = (.error .notFound, d) := by
  have hanswers := h.answers (.unlink path) d
  rw [Answers] at hanswers
  rw [hi] at hanswers
  exact Prod.ext hanswers.1 hanswers.2

theorem eval_readDir (h : Still handle) (path : Path Name) :
    ∃ entries : List (Path Name), entries.Perm (d.children path) ∧
      (readDir path).run.eval handle d =
        (if d.children path = [] then .error .notFound else .ok (entries, true), d) := by
  obtain ⟨hanswer, hstate⟩ := h.answers (.readDir path) d
  by_cases hempty : d.children path = []
  · rw [if_pos hempty] at hanswer
    exact ⟨[], by rw [hempty], Prod.ext (by rw [if_pos hempty]; exact hanswer) hstate⟩
  · rw [if_neg hempty] at hanswer
    obtain ⟨entries, hanswer, hperm⟩ := hanswer
    exact ⟨entries, hperm, Prod.ext (by rw [if_neg hempty]; exact hanswer) hstate⟩

theorem handle_now (h : Still handle) : handle .now d = (d.clock, d) := by
  obtain ⟨-, hstate⟩ := h.answers .now d
  have hclock := h.clock .now d
  rw [hstate] at hclock
  have htime : (handle .now d).1 = d.clock := hclock
  exact Prod.ext htime (by rw [hstate, htime]; rfl)

end Still

end Files
