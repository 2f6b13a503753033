import Lfsx.Storage.LocalMaintain
import Lfsx.Storage.LocalWrite

/-!
# What a walk finds

`objectsOf` and `otherRepositories` only look.  What a walk of a repository finds are paths
of that repository, with a file at them or under them (`objectsOf_looks`), and nothing is
under the path of an object on a volume that is `Flat`.  Then each object is visited
(`visitEach_alone`).

`Confined ns` is what an operation on a repository may do to names: it makes and removes
names of objects and of staging files of that repository, and names of content.
-/

namespace Lfsx.Storage

open Request Files

namespace LocalStore

/-- A listing of a directory holds paths in it that `There` holds of. -/
def Listed (There : LocalPath → Prop) : (r : Files.Req Text) → Files.Resp r → Prop
  | .readDir dir, answer =>
      ∀ found ended, answer = .ok (found, ended) →
        ∀ path ∈ found, (∃ name, path = dir ++ [name]) ∧ There path
  | _, _ => True

theorem faulty_listed {may : Files.Req Text → Prop} {There : LocalPath → Prop} {d d' : Volume}
    {r : Files.Req Text} {answer : Files.Resp r} (hthere : ∀ path, d.There path → There path)
    (h : Faulty may r d answer d') : Listed There r answer := by
  cases r with
  | readDir dir =>
      rintro found ended rfl path hpath
      have hmem : path ∈ d.children dir := by
        rcases h with ⟨h, -⟩ | ⟨-, h, -⟩
        · split at h
          · cases h
          · obtain ⟨entries, heq, hperm⟩ := h
            cases heq
            exact hperm.mem_iff.mp hpath
        · rcases h with h | ⟨entries, heq, hsub⟩
          · cases h
          · cases heq
            exact hsub hpath
      exact ⟨Disk.mem_children hmem, hthere path (Disk.there_of_mem_children hmem)⟩
  | _ => exact trivial

/-- An operation that only looks, and returns in `Q` with listings of what is there. -/
abbrev Looking {α : Type} (There : LocalPath → Prop) (Q : α → Prop) (op : Op α) : Prop :=
  op.Only Files.Req.Looks (Listed There) Q

/-- A path of a repository that stands for an object. -/
def HeldBy (ns : Namespace) (found : Found) : Prop :=
  ∃ first second, found.path = [ns.storedOrg, ns.storedRepo, first, second, found.oid.text]

theorem HeldBy.entry {ns : Namespace} {found : Found} (h : HeldBy ns found) :
    Entry found.path found.oid := by
  obtain ⟨first, second, hpath⟩ := h
  rw [hpath]
  exact .held _ _ _ _ _

theorem HeldBy.ne_content {ns : Namespace} {found : Found} (h : HeldBy ns found) (oid : Oid) :
    found.path ≠ contentPath oid := by
  obtain ⟨first, second, hpath⟩ := h
  rw [hpath]
  intro heq
  have := congrArg List.length heq
  simp [contentPath] at this

theorem parsed_eq_some {path : LocalPath} {found : Found} (h : parsed path = some found) :
    found.path = path ∧ path.getLast? = some found.oid.text := by
  rw [parsed] at h
  split at h
  · cases h
  · next name hlast =>
      split at h
      · next oid hparse =>
          cases h
          exact ⟨rfl, by rw [hlast, Oid.parse_eq_ok hparse]⟩
      · cases h

section

variable {There : LocalPath → Prop}

theorem entries_looks (dir : LocalPath) :
    Looking There (fun listed => ∀ found, listed.1 = some found →
      ∀ path ∈ found, (∃ name, path = dir ++ [name]) ∧ There path) (entries dir) := by
  refine Fallible.Only.caught trivial fun answer hlisted => ?_
  cases answer with
  | error e => exact Fallible.Only.pure (by rintro _ ⟨⟩)
  | ok listed =>
      refine Fallible.Only.pure ?_
      rintro _ ⟨⟩ path hpath
      exact hlisted _ _ rfl path hpath

theorem getD_mem {listed : Option (List LocalPath) × Bool} {P : LocalPath → Prop}
    (h : ∀ found, listed.1 = some found → ∀ path ∈ found, P path) :
    ∀ path ∈ listed.1.getD [], P path := by
  intro path hpath
  cases hlisted : listed.1 with
  | none =>
      rw [hlisted] at hpath
      cases hpath
  | some found =>
      rw [hlisted] at hpath
      exact h found hlisted path hpath

/-- What a walk has found so far. -/
def Walked (There : LocalPath → Prop) (ns : Namespace) (walk : Walk) : Prop :=
  ∀ found ∈ walk.objects, HeldBy ns found ∧ There found.path

theorem objectsIn_looks {ns : Namespace} (first : Text) {fanouts : List LocalPath} {walk : Walk}
    (hfanouts : ∀ fanout ∈ fanouts, ∃ second, fanout = [ns.storedOrg, ns.storedRepo, first, second])
    (hwalk : Walked There ns walk) : Looking There (Walked There ns) (objectsIn fanouts walk) := by
  induction fanouts generalizing walk with
  | nil => exact Fallible.Only.pure hwalk
  | cons fanout rest ih =>
      obtain ⟨second, rfl⟩ := hfanouts fanout List.mem_cons_self
      refine Fallible.Only.bind (entries_looks _) fun listed hlisted => ?_
      refine ih (fun fanout hfanout => hfanouts fanout (List.mem_cons_of_mem _ hfanout)) ?_
      intro found hfound
      rcases List.mem_append.mp hfound with hfound | hfound
      · exact hwalk found hfound
      · obtain ⟨path, hpath, hparsed⟩ := List.mem_filterMap.mp hfound
        obtain ⟨⟨name, rfl⟩, hthere⟩ := getD_mem hlisted path hpath
        obtain ⟨hsame, hlast⟩ := parsed_eq_some hparsed
        rw [List.getLast?_append, List.getLast?_singleton, Option.some_or, Option.some.injEq]
          at hlast
        exact ⟨⟨first, second, by rw [hsame, hlast]; rfl⟩, by rwa [hsame]⟩

theorem fanoutsIn_looks {ns : Namespace} {prefixes : List LocalPath} {walk : Walk}
    (hprefixes : ∀ path ∈ prefixes, ∃ first, path = [ns.storedOrg, ns.storedRepo, first])
    (hwalk : Walked There ns walk) :
    Looking There (Walked There ns) (fanoutsIn prefixes walk) := by
  induction prefixes generalizing walk with
  | nil => exact Fallible.Only.pure hwalk
  | cons path rest ih =>
      obtain ⟨first, rfl⟩ := hprefixes path List.mem_cons_self
      refine Fallible.Only.bind (entries_looks _) fun listed hlisted => ?_
      refine Fallible.Only.bind (objectsIn_looks first ?_ hwalk) fun walk hwalk => ?_
      · intro fanout hfanout
        obtain ⟨⟨second, rfl⟩, -⟩ := getD_mem hlisted fanout hfanout
        exact ⟨second, rfl⟩
      · exact ih (fun path hpath => hprefixes path (List.mem_cons_of_mem _ hpath)) hwalk

/-- **A walk finds paths of its repository.** -/
theorem objectsOf_looks (ns : Namespace) :
    Looking There (Walked There ns) (objectsOf ns) := by
  refine Fallible.Only.bind (entries_looks _) fun listed hlisted => ?_
  cases hfound : listed.1 with
  | none =>
      simp only
      exact Fallible.Only.pure (by simp [Walked])
  | some prefixes =>
      simp only
      refine fanoutsIn_looks (fun path hpath => ?_) (by simp [Walked])
      obtain ⟨⟨first, hfirst⟩, -⟩ := hlisted prefixes hfound path hpath
      exact ⟨first, hfirst⟩

theorem reposIn_looks (sweeping : Namespace) (orgs : List LocalPath) :
    Looking There (fun _ => True) (reposIn sweeping orgs) := by
  induction orgs with
  | nil => exact Fallible.Only.pure trivial
  | cons org rest ih =>
      rw [reposIn]
      split
      · exact ih
      · refine Fallible.Only.caught trivial fun answer _ => ?_
        refine Fallible.Only.bind ih fun out _ => ?_
        cases answer with
        | error e => exact Fallible.Only.pure trivial
        | ok listed => exact Fallible.Only.pure trivial

theorem otherRepositories_looks (sweeping : Namespace) :
    Looking There (fun _ => True) (otherRepositories sweeping) := by
  refine Fallible.Only.caught trivial fun answer _ => ?_
  cases answer with
  | error e => exact Fallible.Only.pure trivial
  | ok listed => exact reposIn_looks sweeping listed.1

end

/-! ## With nobody beside -/

section

variable {may : Files.Req Text → Prop} {G : Volume → Volume → Prop} {E : Volume → Prop}
  {d d' d'' : Volume}

/-- An operation that only looks leaves the disk as it was. -/
theorem Looking.alone {α : Type} {Q : α → Prop} {op : Op α} (hlooks : Looking d.There Q op)
    (hG : ∀ a b : Volume, a.Alike b → G a b) (hE : ∀ d', d.Alike d' → E d') :
    op.Alone (Clean may) G (fun a d' => d.Alike d' ∧ Q a) E d := by
  refine Fallible.Only.under hlooks Fallible.stable_never (fun r hr d₁ answer d₂ halike hexec => ?_)
    (Disk.Alike.refl d) hE
  have hstep := hexec.2.looks hr
  exact ⟨hG _ _ hstep, halike.trans hstep, faulty_listed (fun path => halike.there) hexec.2⟩

/-- Each visit keeps what the loop keeps. -/
theorem visitEach_alone {ρ : Type} {visit : Found → ρ → Op ρ} {J : ρ → Volume → Prop}
    {objects : List Found} {report : ρ}
    (hvisit : ∀ found ∈ objects, ∀ report d, J report d →
      (visit found report).Alone (Clean may) G J E d) (hinv : J report d) :
    (visitEach visit objects report).Alone (Clean may) G J E d := by
  induction objects generalizing report d with
  | nil => exact Fallible.Alone.pure hinv
  | cons found rest ih =>
      refine Fallible.Alone.bind ((hvisit found List.mem_cons_self report d hinv).mono ?_
        fun _ h => h)
      intro report' d' hinv'
      exact ih (fun found hfound => hvisit found (List.mem_cons_of_mem _ hfound)) hinv'

end

/-! ## Names -/

/-- Nothing is under the path of an object. -/
def Flat (d : Volume) : Prop :=
  ∀ path oid, Entry path oid → ∀ name rest, d.inode (path ++ name :: rest) = none

/-- Where an operation on a repository makes and removes names. -/
inductive Place (ns : Namespace) : LocalPath → Prop
  | object (first second : Text) (oid : Oid) :
      Place ns [ns.storedOrg, ns.storedRepo, first, second, oid.text]
  | staging (first second : Text) (oid : Oid) (ticket : Nat) :
      Place ns (part [ns.storedOrg, ns.storedRepo, first, second] oid ticket)
  | content (oid : Oid) : Place ns (contentPath oid)

/-- Every name that is not in its place is what it was. -/
def Confined (ns : Namespace) (d d' : Volume) : Prop :=
  ∀ path, ¬ Place ns path → d'.inode path = d.inode path

section

variable {ns : Namespace} {d d' d'' : Volume} {path source target : LocalPath} {i time : Nat}

theorem HeldBy.place {found : Found} (h : HeldBy ns found) : Place ns found.path := by
  obtain ⟨first, second, hpath⟩ := h
  rw [hpath]
  exact .object first second found.oid

/-- A staging file beside an object. -/
theorem HeldBy.staging {found : Found} (h : HeldBy ns found) (ticket : Nat) :
    Place ns (part (parent found.path) found.oid ticket) := by
  obtain ⟨first, second, hpath⟩ := h
  rw [hpath]
  exact .staging first second found.oid ticket

theorem Confined.refl (ns : Namespace) (d : Volume) : Confined ns d d := fun _ _ => rfl

theorem Confined.trans (h : Confined ns d d') (h' : Confined ns d' d'') : Confined ns d d'' :=
  fun path hpath => (h' path hpath).trans (h path hpath)

theorem confined_of_alike (h : d.Alike d') : Confined ns d d' := fun path _ => h.inode path

theorem confined_add (h : Place ns path) : Confined ns d (d.add path time) := by
  intro p hp
  rw [Disk.inode_add, if_neg]
  rintro rfl
  exact hp h

theorem confined_fill {bytes : Files.Bytes} : Confined ns d (d.fill i bytes time) := fun _ _ => rfl

theorem confined_link (h : Place ns target) (hi : d.inode source = some i) :
    Confined ns d (d.link source target) := by
  intro p hp
  rw [Disk.inode_link hi, if_neg]
  rintro rfl
  exact hp h

theorem confined_unname (h : Place ns path) : Confined ns d (d.unname path) := by
  intro p hp
  rw [Disk.inode_unname, if_neg]
  rintro rfl
  exact hp h

theorem confined_rename (hsource : Place ns source) (htarget : Place ns target)
    (hi : d.inode source = some i) : Confined ns d (d.rename source target) := by
  intro p hp
  by_cases hsame : d.inode source = d.inode target
  · rw [Disk.rename_same hsame]
  · rw [Disk.inode_rename hi hsame, if_neg, if_neg]
    · rintro rfl
      exact hp htarget
    · rintro rfl
      exact hp hsource

/-- No place is under the path of an object. -/
theorem Place.not_under (h : Place ns path) {entry : LocalPath} {oid : Oid}
    (hentry : Entry entry oid) (name : Text) (rest : LocalPath) : path ≠ entry ++ name :: rest := by
  have hdot : ns.storedOrg ≠ ".content".toList := by
    intro heq
    have hundotted := ns.undotted_storedOrg
    rw [heq] at hundotted
    exact hundotted rfl
  rintro rfl
  cases hentry with
  | held org repo first second oid =>
      have hlength :
          ([org, repo, first, second, oid.text] ++ name :: rest : LocalPath).length ≤ 5 := by
        generalize hlong : ([org, repo, first, second, oid.text] ++ name :: rest : LocalPath) = long
        rw [hlong] at h
        cases h <;> simp [part, contentPath]
      simp only [List.length_append, List.length_cons, List.length_nil] at hlength
      omega
  | content oid =>
      rw [contentPath] at h
      generalize hlong : ([".content".toList, oid.fanout.1, oid.fanout.2, oid.text] ++
        name :: rest :
        LocalPath) = long at h
      cases h with
      | object first second oid' =>
          exact hdot (List.cons.inj hlong).1.symm
      | staging first second oid' ticket =>
          exact hdot (List.cons.inj hlong).1.symm
      | content oid' =>
          have := congrArg List.length hlong
          simp [contentPath] at this

/-- An operation on a repository puts nothing under the path of an object. -/
theorem Confined.flat (h : Confined ns d d') (hflat : Flat d) : Flat d' := by
  intro path oid hentry name rest
  rw [h _ fun hplace => hplace.not_under hentry name rest rfl]
  exact hflat path oid hentry name rest

/-- What a walk found on a flat volume is there. -/
theorem Flat.found {path : LocalPath} {oid : Oid} (h : Flat d) (hentry : Entry path oid)
    (hthere : d.There path) : ∃ i, d.inode path = some i := by
  obtain ⟨rest, i, hi⟩ := hthere
  cases rest with
  | nil => exact ⟨i, by rwa [List.append_nil] at hi⟩
  | cons name rest =>
      rw [h path oid hentry name rest] at hi
      cases hi

end

end LocalStore

end Lfsx.Storage
