import Mathlib.Algebra.Order.BigOperators.Group.Finset
import Lfsx.Files.DiskBytes
import Lfsx.Storage.Cache

/-!
# The directory of a cache

What the directory of a cache holds: the cached objects are the files that are not skipped, and
`cachedBytes` is the sum of their lengths.  A directory of a cache is `Ordinary`, since the cache
makes neither directories nor links.
-/

namespace Lfsx.Storage

open Request Files

namespace Cache

abbrev Volume := Files.Disk Text

/-! ## The cached objects of a directory -/

/-- The path is that of a cached object. -/
def counts (path : LocalPath) : Bool := !skip (fileName path)

def cached (d : Volume) : Finset LocalPath := (d.names.keys.filter counts).toFinset

/-- The lengths of the cached objects. -/
def cachedBytes (d : Volume) : Nat := ∑ path ∈ cached d, d.lengthAt path

/-- A directory of ordinary files: nothing is below it, and no file has two names. -/
structure Ordinary (d : Volume) : Prop where
  flat : ∀ (path : LocalPath) (i : Nat), d.inode path = some i → ∃ name, path = [name]
  single : ∀ (p q : LocalPath) (i : Nat), d.inode p = some i → d.inode q = some i → p = q

section

variable {d d' : Volume} {path source target : LocalPath} {i time : Nat} {bytes : Files.Bytes}

theorem mem_cached : path ∈ cached d ↔ (d.inode path).isSome ∧ counts path = true := by
  rw [cached, List.mem_toFinset, List.mem_filter]
  exact and_congr_left' (AList.mem_keys.symm.trans AList.lookup_isSome.symm)

theorem lengthAt_none (h : d.inode path = none) : d.lengthAt path = 0 := by
  rw [Disk.lengthAt, h]
  rfl

/-- The sum, over more paths than there are. -/
theorem cachedBytes_eq {paths : Finset LocalPath} (hall : cached d ⊆ paths)
    (hcounts : ∀ path ∈ paths, counts path = true) :
    cachedBytes d = ∑ path ∈ paths, d.lengthAt path := by
  refine Finset.sum_subset hall fun path hpath hnot => lengthAt_none ?_
  rw [mem_cached] at hnot
  cases hinode : d.inode path with
  | none => rfl
  | some i => exact absurd ⟨by rw [hinode]; rfl, hcounts path hpath⟩ hnot

/-- When the length of one path changes. -/
theorem cachedBytes_update (d d' : Volume) (hpath : counts path = true)
    (h : ∀ p, p ≠ path → counts p = true → d'.lengthAt p = d.lengthAt p) :
    cachedBytes d' + d.lengthAt path = cachedBytes d + d'.lengthAt path := by
  have hmem : path ∈ insert path (cached d ∪ cached d') := Finset.mem_insert_self _ _
  have hcounts : ∀ p ∈ insert path (cached d ∪ cached d'), counts p = true := by
    intro p hp
    rcases Finset.mem_insert.mp hp with rfl | hp
    · exact hpath
    · rcases Finset.mem_union.mp hp with hp | hp
      · exact (mem_cached.mp hp).2
      · exact (mem_cached.mp hp).2
  rw [cachedBytes_eq (Finset.subset_insert_iff.mpr ((Finset.erase_subset _ _).trans
      Finset.subset_union_left)) hcounts,
    cachedBytes_eq (d := d') (Finset.subset_insert_iff.mpr ((Finset.erase_subset _ _).trans
      Finset.subset_union_right)) hcounts,
    ← Finset.add_sum_erase _ _ hmem, ← Finset.add_sum_erase _ _ hmem]
  have hrest : ∑ p ∈ (insert path (cached d ∪ cached d')).erase path, d'.lengthAt p =
      ∑ p ∈ (insert path (cached d ∪ cached d')).erase path, d.lengthAt p := by
    refine Finset.sum_congr rfl fun p hp => ?_
    exact h p (Finset.ne_of_mem_erase hp) (hcounts p (Finset.mem_of_mem_erase hp))
  omega

theorem cachedBytes_congr (h : ∀ p, counts p = true → d'.lengthAt p = d.lengthAt p) :
    cachedBytes d' = cachedBytes d := by
  have hcounts : ∀ p ∈ cached d ∪ cached d', counts p = true := by
    intro p hp
    rcases Finset.mem_union.mp hp with hp | hp
    · exact (mem_cached.mp hp).2
    · exact (mem_cached.mp hp).2
  rw [cachedBytes_eq Finset.subset_union_left hcounts,
    cachedBytes_eq (d := d') Finset.subset_union_right hcounts]
  exact Finset.sum_congr rfl fun p hp => h p (hcounts p hp)

/-- What counts is not what does not. -/
theorem counted_ne {p : LocalPath} (h : counts path = false) (hp : counts p = true) : path ≠ p := by
  rintro rfl
  rw [h] at hp
  cases hp

/-! ### The lengths, after a call -/

theorem lengthAt_congr (hinode : d'.inode path = d.inode path)
    (hfile : ∀ i, d.inode path = some i → d'.file i = d.file i) :
    d'.lengthAt path = d.lengthAt path := by
  rw [Disk.lengthAt, Disk.lengthAt, hinode]
  cases h : d.inode path with
  | none => rfl
  | some i => rw [Option.map_some, Option.map_some, Disk.lengthOf, Disk.lengthOf, hfile i h]

theorem lengthAt_unname {p : LocalPath} (h : p ≠ path) :
    (d.unname path).lengthAt p = d.lengthAt p :=
  lengthAt_congr (by rw [Disk.inode_unname, if_neg h]) fun _ _ => rfl

theorem lengthAt_unname_self : (d.unname path).lengthAt path = 0 :=
  lengthAt_none (by rw [Disk.inode_unname, if_pos rfl])

theorem lengthAt_fill {p : LocalPath} (h : d.inode p ≠ some i) :
    (d.fill i bytes time).lengthAt p = d.lengthAt p := by
  refine lengthAt_congr (Disk.inode_fill p) fun j hj => Disk.file_fill_ne ?_
  rintro rfl
  exact h hj

theorem lengthAt_add {p : LocalPath} (h : p ≠ path) :
    (d.add path time).lengthAt p = d.lengthAt p := by
  refine lengthAt_congr (by rw [Disk.inode_add, if_neg h]) fun j hj => ?_
  exact Disk.file_add_old (Disk.inode_lt hj)

theorem lengthAt_rename_target (h : d.inode source = some i)
    (hne : d.inode source ≠ d.inode target) :
    (d.rename source target).lengthAt target = d.lengthAt source := by
  have hpath : source ≠ target := by
    rintro rfl
    exact hne rfl
  rw [Disk.lengthAt, Disk.inode_rename h hne, if_neg hpath.symm, if_pos rfl,
    Disk.lengthAt_of_inode h, Option.map_some, Disk.lengthOf, Disk.file_rename]
  rfl

theorem lengthAt_rename_other {p : LocalPath} (h : d.inode source = some i)
    (hne : d.inode source ≠ d.inode target) (hsource : p ≠ source) (htarget : p ≠ target) :
    (d.rename source target).lengthAt p = d.lengthAt p := by
  refine lengthAt_congr ?_ fun j _ => Disk.file_rename j
  rw [Disk.inode_rename h hne, if_neg hsource, if_neg htarget]

/-! ### Ordinary directories -/

theorem ordinary_empty : Ordinary .empty := by
  constructor
  · intro path i hi
    cases hi
  · intro p q i hi
    cases hi

theorem Ordinary.congr (h : Ordinary d) (hinode : ∀ p, d'.inode p = d.inode p) : Ordinary d' := by
  refine ⟨fun p i hp => h.flat p i (by rw [← hinode, hp]), fun p q i hp hq => ?_⟩
  exact h.single p q i (by rw [← hinode, hp]) (by rw [← hinode, hq])

theorem Ordinary.unname (h : Ordinary d) : Ordinary (d.unname path) := by
  have hsome : ∀ p i, (d.unname path).inode p = some i → d.inode p = some i := by
    intro p i hp
    rw [Disk.inode_unname] at hp
    split at hp
    · cases hp
    · exact hp
  exact ⟨fun p i hp => h.flat p i (hsome p i hp),
    fun p q i hp hq => h.single p q i (hsome p i hp) (hsome q i hq)⟩

theorem Ordinary.add (h : Ordinary d) (name : Text) : Ordinary (d.add [name] time) := by
  have hcases : ∀ p i, (d.add [name] time).inode p = some i →
      p = [name] ∧ i = d.files.length ∨ d.inode p = some i := by
    intro p i hp
    rw [Disk.inode_add] at hp
    split at hp
    next heq => exact Or.inl ⟨heq, (Option.some.inj hp).symm⟩
    next => exact Or.inr hp
  refine ⟨fun p i hp => ?_, fun p q i hp hq => ?_⟩
  · rcases hcases p i hp with ⟨rfl, -⟩ | hp
    · exact ⟨name, rfl⟩
    · exact h.flat p i hp
  · rcases hcases p i hp with ⟨rfl, rfl⟩ | hp
    · rcases hcases q _ hq with ⟨rfl, -⟩ | hq
      · rfl
      · exact absurd (Disk.inode_lt hq) (lt_irrefl _)
    · rcases hcases q i hq with ⟨rfl, rfl⟩ | hq
      · exact absurd (Disk.inode_lt hp) (lt_irrefl _)
      · exact h.single p q i hp hq

theorem Ordinary.rename (h : Ordinary d) (name : Text) (hi : d.inode source = some i)
    (hne : d.inode source ≠ d.inode [name]) : Ordinary (d.rename source [name]) := by
  have hcases : ∀ p j, (d.rename source [name]).inode p = some j →
      p = [name] ∧ j = i ∨ p ≠ source ∧ p ≠ [name] ∧ d.inode p = some j := by
    intro p j hp
    rw [Disk.inode_rename hi hne] at hp
    split at hp
    next => cases hp
    next hsource =>
      split at hp
      next heq => exact Or.inl ⟨heq, (Option.some.inj hp).symm⟩
      next htarget => exact Or.inr ⟨hsource, htarget, hp⟩
  refine ⟨fun p j hp => ?_, fun p q j hp hq => ?_⟩
  · rcases hcases p j hp with ⟨rfl, -⟩ | ⟨-, -, hp⟩
    · exact ⟨name, rfl⟩
    · exact h.flat p j hp
  · rcases hcases p j hp with ⟨rfl, rfl⟩ | ⟨hsource, -, hp⟩
    · rcases hcases q _ hq with ⟨rfl, -⟩ | ⟨hsource, -, hq⟩
      · rfl
      · exact absurd (h.single q source _ hq hi) hsource
    · rcases hcases q j hq with ⟨rfl, rfl⟩ | ⟨-, -, hq⟩
      · exact absurd (h.single p source _ hp hi) hsource
      · exact h.single p q j hp hq

/-! ### Listings -/

theorem Ordinary.mem_children (h : Ordinary d) : path ∈ d.children [] ↔ (d.inode path).isSome := by
  rw [Disk.mem_children_iff, Option.isSome_iff_exists]
  constructor
  · rintro ⟨⟨name, rfl⟩, rest, i, hi⟩
    obtain ⟨name', hname⟩ := h.flat _ i hi
    cases rest with
    | nil => exact ⟨i, by rwa [List.append_nil] at hi⟩
    | cons first rest => cases hname
  · rintro ⟨i, hi⟩
    obtain ⟨name, rfl⟩ := h.flat path i hi
    exact ⟨⟨name, rfl⟩, [], i, by rwa [List.append_nil]⟩

/-- What a listing of the directory adds up to. -/
theorem cachedBytes_listing {listing : List LocalPath} (h : Ordinary d)
    (hlisting : listing.Perm (d.children [])) :
    cachedBytes d = ((listing.filter counts).map d.lengthAt).sum := by
  have hnodup : (listing.filter counts).Nodup :=
    (hlisting.nodup_iff.mpr (Disk.nodup_children [])).filter _
  have hcached : cached d = (listing.filter counts).toFinset := by
    ext path
    rw [mem_cached, List.mem_toFinset, List.mem_filter, hlisting.mem_iff, h.mem_children]
  rw [cachedBytes, hcached, List.sum_toFinset _ hnodup]

end

/-! ### The names of the cache -/

theorem skip_sidecar (name : Text) : skip (sidecar name) = true := by
  rw [skip, sidecar, Bool.or_eq_true, List.isSuffixOf_iff_suffix]
  exact Or.inl (List.suffix_append _ _)

theorem counts_digest (oid : Oid) : counts (digest oid) = false := by
  rw [counts, digest, fileName, List.getLast?_singleton, Option.getD_some, skip_sidecar]
  rfl

theorem counts_incoming (oid : Oid) : counts (incoming oid) = false := by
  have hskip : skip (incomingPrefix ++ oid.text) = true := by
    rw [skip, Bool.or_eq_true, List.isPrefixOf_iff_prefix]
    exact Or.inr (List.prefix_append _ _)
  rw [counts, incoming, fileName, List.getLast?_singleton, Option.getD_some, hskip]
  rfl

theorem counts_object (oid : Oid) : counts (object oid) = true := by
  have hdot : '.' ∉ oid.text := dot_not_mem_oid oid
  rw [counts, object, fileName, List.getLast?_singleton, Option.getD_some, skip]
  rw [Bool.not_eq_true', Bool.or_eq_false_iff]
  constructor
  · rw [Bool.eq_false_iff]
    intro h
    exact hdot ((List.isSuffixOf_iff_suffix.mp h).subset (by decide))
  · rw [Bool.eq_false_iff]
    intro h
    exact hdot ((List.isPrefixOf_iff_prefix.mp h).subset (by decide))

theorem object_inj {oid oid' : Oid} (h : object oid = object oid') : oid = oid' :=
  Oid.ext (List.cons.inj h).1

theorem digest_inj {oid oid' : Oid} (h : digest oid = digest oid') : oid = oid' :=
  Oid.ext (List.append_cancel_right (List.cons.inj h).1)

theorem incoming_inj {oid oid' : Oid} (h : incoming oid = incoming oid') : oid = oid' :=
  Oid.ext (List.append_cancel_left (List.cons.inj h).1)

theorem incoming_ne_digest (oid oid' : Oid) : incoming oid ≠ digest oid' := by
  intro heq
  have htext : incomingPrefix ++ oid.text = oid'.text ++ ".b3".toList := (List.cons.inj heq).1
  have hdot : '.' ∉ oid'.text := dot_not_mem_oid oid'
  cases htext' : oid'.text with
  | nil =>
      have hlength := oid'.length_text
      rw [htext'] at hlength
      cases hlength
  | cons c rest =>
      rw [htext'] at htext hdot
      refine hdot (List.mem_cons.mpr (Or.inl ?_))
      exact (List.cons.inj htext).1

/-! ## Steps that leave the directory alone -/

/-- The requests that change neither a name nor the bytes of a file nor the counter. -/
def Req.Still : Req → Prop
  | .disk r => r.Looks
  | .writeAt _ _ _ => False
  | .grow _ => False
  | .shrink _ => False
  | _ => True

/-- The names and the bytes of the files are the same. -/
structure Unmoved (d d' : Volume) : Prop where
  inode : ∀ path, d'.inode path = d.inode path
  file : ∀ i, (d'.file i).map File.bytes = (d.file i).map File.bytes
  length : d'.files.length = d.files.length

/-- The directory and the counter are the same. -/
structure Same (s s' : Shared) : Prop where
  disk : Unmoved s.disk s'.disk
  counter : s'.memory.bytes = s.memory.bytes

section

variable {may : Req → Prop} {s s' : Shared} {d d' : Volume}

theorem Unmoved.of_eq (h : d' = d) : Unmoved d d' :=
  ⟨fun path => by rw [h], fun i => by rw [h], by rw [h]⟩

theorem Unmoved.of_alike (h : d.Alike d') : Unmoved d d' :=
  ⟨h.inode, fun i => by rw [h.file], by rw [h.files]⟩

theorem Unmoved.lengthAt (h : Unmoved d d') (path : LocalPath) :
    d'.lengthAt path = d.lengthAt path := by
  have hlength : ∀ i, d'.lengthOf i = d.lengthOf i := by
    intro i
    have hfile := congrArg (Option.map List.length) (h.file i)
    rw [Option.map_map, Option.map_map] at hfile
    rw [Disk.lengthOf, Disk.lengthOf]
    exact congrArg (fun o => o.getD 0) hfile
  rw [Disk.lengthAt, Disk.lengthAt, h.inode]
  exact congrArg (fun o => o.getD 0) (Option.map_congr fun i _ => hlength i)

theorem unmoved_stamped (d : Volume) (handle time : Nat) : Unmoved d (stamped d handle time) := by
  rw [stamped]
  cases hfile : d.file handle with
  | none => exact .of_eq rfl
  | some f =>
      refine ⟨fun path => rfl, fun i => ?_, List.length_set⟩
      by_cases hi : i = handle
      · subst hi
        have hlt : i < d.files.length := (List.getElem?_eq_some_iff.mp hfile).1
        rw [hfile]
        dsimp only
        rw [Disk.file_fill_self hlt]
        rfl
      · dsimp only
        rw [Disk.file_fill_ne hi]

theorem still_same {r : Req} {answer : Resp r} (hr : r.Still) (h : Answers may r s answer s') :
    Same s s' := by
  cases r with
  | disk r => exact ⟨.of_alike (h.1.looks hr), by rw [h.2]⟩
  | writeAt handle offset bytes => cases hr
  | stamp handle =>
      obtain ⟨hmemory, hcases⟩ := h
      rcases hcases with ⟨-, time, -, hdisk⟩ | ⟨-, -, hdisk⟩
      · exact ⟨hdisk ▸ unmoved_stamped _ _ _, by rw [hmemory]⟩
      · exact ⟨.of_eq hdisk, by rw [hmemory]⟩
  | isVerified name =>
      obtain ⟨-, rfl⟩ := h
      exact ⟨.of_eq rfl, rfl⟩
  | startCheck name => exact ⟨.of_eq h.2.1, by rw [h.2.2]; rfl⟩
  | verify name => exact ⟨.of_eq h.1, by rw [h.2]; rfl⟩
  | unverify name => exact ⟨.of_eq h.1, by rw [h.2]; rfl⟩
  | endCheck name => exact ⟨.of_eq h.1, by rw [h.2]; rfl⟩
  | hit => exact ⟨.of_eq h.1, by rw [h.2]; rfl⟩
  | miss => exact ⟨.of_eq h.1, by rw [h.2]; rfl⟩
  | grow size => cases hr
  | shrink size => cases hr

/-! ### Writing on -/

theorem overwritten_end (old bytes : Bytes) : overwritten old old.length bytes = old ++ bytes := by
  rw [overwritten, Nat.sub_self, List.replicate_zero, List.append_nil, List.take_length,
    List.drop_eq_nil_of_le (Nat.le_add_right _ _), List.append_nil]

/-- A write at the end of a file. -/
theorem wroteAt_end {file time : Nat} {taken chunk : Bytes}
    (h : (d.file file).map File.bytes = some taken) :
    wroteAt d file taken.length chunk time = d.fill file (taken ++ chunk) time := by
  obtain ⟨f, hf, rfl⟩ := Option.map_eq_some_iff.mp h
  rw [wroteAt, hf]
  exact congrArg (d.fill file · time) (overwritten_end f.bytes chunk)

end

end Cache

end Lfsx.Storage
