import Lfsx.Files.DiskBytes
import Lfsx.Storage.LocalWalk

/-!
# What a walk finds while nothing changes

Alone on a volume, in a moment, `objectsOf` finds what the repository holds (`holding`), in some
order, and `otherRepositories` the directories of the others.  What is asked of an object answers
from the volume: `referencedElsewhere` is `referenced`.

A volume is `Orderly` for a repository if it is as the store leaves it: a file is of one object, and
the objects of the repository are where their digests put them.
-/

namespace Lfsx.Storage

open Request Files

namespace LocalStore

/-- Where a sweep of a repository finds an object and removes it. -/
def OfObject (ns : Namespace) (oid : Oid) (path : LocalPath) : Prop :=
  path = objectPath ns oid ∨ path = contentPath oid

theorem OfObject.entry {ns : Namespace} {oid : Oid} {path : LocalPath} (h : OfObject ns oid path) :
    Entry path oid := by
  rcases h with rfl | rfl
  · exact entry_objectPath ns oid
  · exact .content oid

/-- A volume as the store leaves it. -/
structure Orderly (ns : Namespace) (d : Volume) : Prop where
  flat : Flat d
  /-- An object is where its digest puts it, -/
  placed : ∀ (first second : Text) (oid : Oid),
    (d.inode [ns.storedOrg, ns.storedRepo, first, second, oid.text]).isSome →
      oid.fanout = (first, second)
  /-- and a file is of one object: what is linked or renamed are names of one. -/
  grouped : ∀ (path path' : LocalPath) (oid oid' : Oid) (i : Nat), OfObject ns oid path →
    OfObject ns oid' path' → d.inode path = some i → d.inode path' = some i → oid = oid'

/-- What a walk of a repository comes upon. -/
def objectsUnder (d : Volume) (ns : Namespace) : List Found :=
  (((d.children [ns.storedOrg, ns.storedRepo]).flatMap d.children).flatMap d.children).filterMap
    parsed

/-- What a repository holds. -/
def holding (d : Volume) (ns : Namespace) : List Oid := (objectsUnder d ns).map Found.oid

section

variable {d d' : Volume} {ns : Namespace} {found : Found} {oid : Oid} {path : LocalPath}

theorem nodup_flatMap_children {dirs : List LocalPath} (h : dirs.Nodup) :
    (dirs.flatMap d.children).Nodup :=
  List.nodup_flatMap.mpr
    ⟨fun dir _ => Disk.nodup_children dir, h.imp fun hne => Disk.disjoint_children hne⟩

theorem parsed_objectPath (ns : Namespace) (oid : Oid) :
    parsed (objectPath ns oid) = some ⟨objectPath ns oid, oid⟩ := by
  rw [parsed, (entry_objectPath ns oid).getLast?]
  simp

/-- What is under a name is under the directory it is in. -/
theorem There.of_append {dir : LocalPath} (rest : LocalPath) (h : d.There (dir ++ rest)) :
    d.There dir := by
  obtain ⟨more, i, hi⟩ := h
  exact ⟨rest ++ more, i, by rwa [← List.append_assoc]⟩

/-- **A walk comes upon the objects of the repository.** -/
theorem mem_objectsUnder (orderly : Orderly ns d) :
    found ∈ objectsUnder d ns ↔
      found.path = objectPath ns found.oid ∧ (d.inode found.path).isSome := by
  rw [objectsUnder, List.mem_filterMap]
  constructor
  · rintro ⟨path, hpath, hparsed⟩
    obtain ⟨hfound, hlast⟩ := parsed_eq_some hparsed
    obtain ⟨dir, hdir, hpath⟩ := List.mem_flatMap.mp hpath
    obtain ⟨top, htop, hdir⟩ := List.mem_flatMap.mp hdir
    obtain ⟨⟨first, rfl⟩, -⟩ := Disk.mem_children_iff.mp htop
    obtain ⟨⟨second, rfl⟩, -⟩ := Disk.mem_children_iff.mp hdir
    obtain ⟨⟨name, rfl⟩, hthere⟩ := Disk.mem_children_iff.mp hpath
    have hname : name = found.oid.text := by simpa using hlast
    subst hname
    have hentry : Entry found.path found.oid := by
      rw [hfound]
      exact .held _ _ _ _ _
    rw [← hfound] at hthere
    obtain ⟨i, hi⟩ := orderly.flat.found hentry hthere
    have hsome : (d.inode found.path).isSome := by rw [hi]; rfl
    have hplaced := orderly.placed first second found.oid (by rw [hfound] at hsome; exact hsome)
    refine ⟨?_, hsome⟩
    rw [hfound, objectPath, hplaced]
    rfl
  · rintro ⟨hpath, hsome⟩
    obtain ⟨i, hi⟩ := Option.isSome_iff_exists.mp hsome
    rw [hpath] at hi
    have hthere : d.There (objectPath ns found.oid) := ⟨[], i, by rwa [List.append_nil]⟩
    refine ⟨objectPath ns found.oid, ?_, ?_⟩
    · refine List.mem_flatMap.mpr ⟨[ns.storedOrg, ns.storedRepo, found.oid.fanout.1,
        found.oid.fanout.2], List.mem_flatMap.mpr ⟨[ns.storedOrg, ns.storedRepo,
        found.oid.fanout.1], ?_, ?_⟩, ?_⟩
      · exact Disk.mem_children_iff.mpr ⟨⟨_, rfl⟩,
          There.of_append [found.oid.fanout.2, found.oid.text] hthere⟩
      · exact Disk.mem_children_iff.mpr ⟨⟨_, rfl⟩,
          There.of_append [found.oid.text] hthere⟩
      · exact Disk.mem_children_iff.mpr ⟨⟨_, rfl⟩, hthere⟩
    · rw [parsed_objectPath, ← hpath]

/-- What a repository holds is what has a name in it. -/
theorem mem_holding (orderly : Orderly ns d) :
    oid ∈ holding d ns ↔ (d.inode (objectPath ns oid)).isSome := by
  rw [holding, List.mem_map]
  constructor
  · rintro ⟨found, hfound, rfl⟩
    obtain ⟨hpath, hsome⟩ := (mem_objectsUnder orderly).mp hfound
    rwa [← hpath]
  · exact fun h => ⟨⟨objectPath ns oid, oid⟩, (mem_objectsUnder orderly).mpr ⟨rfl, h⟩, rfl⟩

theorem nodup_holding (orderly : Orderly ns d) : (holding d ns).Nodup := by
  have hnodup : (objectsUnder d ns).Nodup := by
    refine List.Nodup.filterMap ?_
      (nodup_flatMap_children (nodup_flatMap_children (Disk.nodup_children _)))
    intro path path' found h h'
    rw [← (parsed_eq_some h).1, ← (parsed_eq_some h').1]
  refine List.Nodup.map_on (fun found hfound found' hfound' hoid => ?_) hnodup
  have hpath := ((mem_objectsUnder orderly).mp hfound).1
  have hpath' := ((mem_objectsUnder orderly).mp hfound').1
  cases found
  cases found'
  simp only at hoid hpath hpath'
  subst hoid
  rw [hpath, hpath']

end

/-! ## The walk -/

section

variable {handle : (r : Files.Req Text) → Volume → Files.Resp r × Volume} {d : Volume}
  {ns : Namespace} {oid : Oid}

theorem entries_returns (still : Still handle) (dir : LocalPath) :
    ∃ listed, (entries dir).Returns handle d listed d ∧
      (listed.1.getD []).Perm (d.children dir) ∧ (listed.1 = none → d.children dir = []) := by
  obtain ⟨found, hperm, heval⟩ := still.eval_readDir (d := d) dir
  by_cases hempty : d.children dir = []
  · rw [if_pos hempty] at heval
    exact ⟨(none, false), Fallible.Returns.caught heval Fallible.Returns.pure,
      by rw [hempty]; exact .nil, fun _ => hempty⟩
  · rw [if_neg hempty] at heval
    exact ⟨(some found, true), Fallible.Returns.caught heval Fallible.Returns.pure, hperm,
      by rintro ⟨⟩⟩

theorem objectsIn_returns (still : Still handle) (fanouts : List LocalPath) (walk : Walk) :
    ∃ walk', (objectsIn fanouts walk).Returns handle d walk' d ∧
      walk'.objects.Perm (walk.objects ++ (fanouts.flatMap d.children).filterMap parsed) := by
  induction fanouts generalizing walk with
  | nil => exact ⟨walk, Fallible.Returns.pure, by simp⟩
  | cons fanout rest ih =>
      obtain ⟨listed, hlisted, hperm, -⟩ := entries_returns (d := d) still fanout
      obtain ⟨walk', hwalk', hperm'⟩ := ih
        { objects := walk.objects ++ (listed.1.getD []).filterMap parsed
          complete := walk.complete && listed.2 }
      refine ⟨walk', Fallible.Returns.bind hlisted hwalk', hperm'.trans ?_⟩
      rw [List.flatMap_cons, List.filterMap_append, ← List.append_assoc]
      exact ((hperm.filterMap parsed).append_left _).append_right _

theorem fanoutsIn_returns (still : Still handle) (prefixes : List LocalPath) (walk : Walk) :
    ∃ walk', (fanoutsIn prefixes walk).Returns handle d walk' d ∧
      walk'.objects.Perm (walk.objects ++
        ((prefixes.flatMap d.children).flatMap d.children).filterMap parsed) := by
  induction prefixes generalizing walk with
  | nil => exact ⟨walk, Fallible.Returns.pure, by simp⟩
  | cons first rest ih =>
      obtain ⟨listed, hlisted, hperm, -⟩ := entries_returns (d := d) still first
      obtain ⟨walk₁, hwalk₁, hperm₁⟩ := objectsIn_returns (d := d) still (listed.1.getD [])
        { walk with complete := walk.complete && listed.2 }
      obtain ⟨walk', hwalk', hperm'⟩ := ih walk₁
      refine ⟨walk', hlisted.bind (hwalk₁.bind hwalk'), hperm'.trans ?_⟩
      rw [List.flatMap_cons, List.flatMap_append, List.filterMap_append, ← List.append_assoc]
      refine List.Perm.append_right _ (hperm₁.trans (List.Perm.append_left _ ?_))
      exact (hperm.flatMap_right d.children).filterMap parsed

theorem objectsOf_returns (still : Still handle) (ns : Namespace) :
    ∃ walk, (objectsOf ns).Returns handle d walk d ∧ walk.objects.Perm (objectsUnder d ns) := by
  obtain ⟨listed, hlisted, hperm, hnone⟩ :=
    entries_returns (d := d) still [ns.storedOrg, ns.storedRepo]
  obtain ⟨found, ended⟩ := listed
  cases found with
  | none =>
      refine ⟨⟨[], true⟩, hlisted.bind Fallible.Returns.pure, ?_⟩
      rw [objectsUnder, hnone rfl]
      exact .nil
  | some prefixes =>
      obtain ⟨walk, hwalk, hperm'⟩ := fanoutsIn_returns (d := d) still prefixes ⟨[], ended⟩
      refine ⟨walk, hlisted.bind hwalk, hperm'.trans ?_⟩
      exact ((hperm.flatMap_right d.children).flatMap_right d.children).filterMap parsed

/-! ## Other repositories -/

/-- A directory of a repository that is not the one being swept. -/
def Other (ns : Namespace) (repo : LocalPath) : Prop :=
  ∃ org name, repo = [org, name] ∧ org.head? ≠ some '.' ∧ repo ≠ [ns.storedOrg, ns.storedRepo]

theorem reposIn_returns (still : Still handle) (ns : Namespace) (names : List Text) :
    ∃ repos, (reposIn ns (names.map fun org => [org])).Returns handle d repos d ∧
      ∀ repo, repo ∈ repos ↔ Other ns repo ∧ d.There repo ∧ ∃ org ∈ names, [org] <+: repo := by
  induction names with
  | nil => exact ⟨[], Fallible.Returns.pure, by simp⟩
  | cons org rest ih =>
      obtain ⟨repos, hrepos, hmem⟩ := ih
      by_cases hdot : org.head? = some '.'
      · refine ⟨repos, ?_, fun repo => (hmem repo).trans ?_⟩
        · rw [List.map_cons, reposIn, if_pos (by simpa using hdot)]
          exact hrepos
        · constructor
          · rintro ⟨hother, hthere, org', hin, hprefix⟩
            exact ⟨hother, hthere, org', List.mem_cons_of_mem _ hin, hprefix⟩
          · rintro ⟨hother, hthere, org', hin, hprefix⟩
            refine ⟨hother, hthere, org', ?_, hprefix⟩
            rcases List.mem_cons.mp hin with rfl | hin
            · obtain ⟨org, name, rfl, hundotted, -⟩ := hother
              have heq : org' = org := by simpa using hprefix
              exact absurd (heq ▸ hdot) hundotted
            · exact hin
      · obtain ⟨found, hperm, heval⟩ := still.eval_readDir (d := d) [org]
        have hof : ∀ repo, repo ∈ d.children [org] ∧ repo ≠ [ns.storedOrg, ns.storedRepo] ↔
            Other ns repo ∧ d.There repo ∧ [org] <+: repo := by
          intro repo
          rw [Disk.mem_children_iff]
          constructor
          · rintro ⟨⟨⟨name, rfl⟩, hthere⟩, hne⟩
            exact ⟨⟨org, name, rfl, hdot, hne⟩, hthere, ⟨[name], rfl⟩⟩
          · rintro ⟨⟨org', name, rfl, -, hne⟩, hthere, hprefix⟩
            have heq : org = org' := by simpa using hprefix
            exact ⟨⟨⟨name, by rw [heq]; rfl⟩, hthere⟩, hne⟩
        refine ⟨(if d.children [org] = [] then [] else
          found.filter fun repo => repo ≠ [ns.storedOrg, ns.storedRepo]) ++ repos, ?_, ?_⟩
        · rw [List.map_cons, reposIn, if_neg (by simpa using hdot)]
          refine Fallible.Returns.caught heval (hrepos.bind ?_)
          by_cases hempty : d.children [org] = []
          · rw [if_pos hempty, if_pos hempty]
            exact Fallible.Returns.pure
          · rw [if_neg hempty, if_neg hempty]
            exact Fallible.Returns.pure
        · intro repo
          have hhere : repo ∈ (if d.children [org] = [] then [] else
              found.filter fun repo => repo ≠ [ns.storedOrg, ns.storedRepo]) ↔
                Other ns repo ∧ d.There repo ∧ [org] <+: repo := by
            rw [← hof]
            by_cases hempty : d.children [org] = []
            · simp [hempty]
            · rw [if_neg hempty, List.mem_filter, hperm.mem_iff]
              simp
          rw [List.mem_append, hhere, hmem]
          constructor
          · rintro (⟨hother, hthere, hprefix⟩ | ⟨hother, hthere, org', hin, hprefix⟩)
            · exact ⟨hother, hthere, org, List.mem_cons_self, hprefix⟩
            · exact ⟨hother, hthere, org', List.mem_cons_of_mem _ hin, hprefix⟩
          · rintro ⟨hother, hthere, org', hin, hprefix⟩
            rcases List.mem_cons.mp hin with rfl | hin
            · exact Or.inl ⟨hother, hthere, hprefix⟩
            · exact Or.inr ⟨hother, hthere, org', hin, hprefix⟩

/-- The directories of the other repositories. -/
theorem otherRepositories_returns (still : Still handle) (ns : Namespace) :
    ∃ repos, (otherRepositories ns).Returns handle d repos d ∧
      ∀ repo, repo ∈ repos ↔ Other ns repo ∧ d.There repo := by
  obtain ⟨found, hperm, heval⟩ := still.eval_readDir (d := d) []
  by_cases hempty : d.children [] = []
  · rw [if_pos hempty] at heval
    refine ⟨[], Fallible.Returns.caught heval Fallible.Returns.pure, fun repo => ?_⟩
    refine iff_of_false List.not_mem_nil ?_
    rintro ⟨⟨org, name, rfl, -⟩, hthere⟩
    have hmem : [org] ∈ d.children [] :=
      Disk.mem_children_iff.mpr ⟨⟨org, rfl⟩, There.of_append [name] hthere⟩
    rw [hempty] at hmem
    cases hmem
  · rw [if_neg hempty] at heval
    obtain ⟨names, hnames⟩ : ∃ names : List Text, found = names.map fun org => [org] := by
      refine ⟨found.map fun org => org.headD [], ?_⟩
      rw [List.map_map]
      refine (List.map_id found).symm.trans (List.map_congr_left fun org horg => ?_)
      obtain ⟨⟨name, rfl⟩, -⟩ := Disk.mem_children_iff.mp (hperm.mem_iff.mp horg)
      rfl
    obtain ⟨repos, hrepos, hmem⟩ := reposIn_returns (d := d) still ns names
    rw [← hnames] at hrepos
    refine ⟨repos, Fallible.Returns.caught heval hrepos, fun repo => (hmem repo).trans ?_⟩
    constructor
    · rintro ⟨hother, hthere, -⟩
      exact ⟨hother, hthere⟩
    · rintro ⟨hother, hthere⟩
      obtain ⟨org, name, rfl, -⟩ := id hother
      have hin : [org] ∈ found := hperm.mem_iff.mpr
        (Disk.mem_children_iff.mpr ⟨⟨org, rfl⟩, There.of_append [name] hthere⟩)
      rw [hnames, List.mem_map] at hin
      obtain ⟨org', hin, heq⟩ := hin
      cases heq
      exact ⟨hother, hthere, org, hin, ⟨[name], rfl⟩⟩

end

end LocalStore

end Lfsx.Storage
