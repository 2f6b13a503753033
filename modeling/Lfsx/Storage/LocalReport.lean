import Lfsx.Storage.LocalMoment

/-!
# The report of a sweep

A dry run says what a sweep would free while the name of the repository is still there, and the
sweep itself once it is gone.  For an object whose file is the shared one they agree with each other
and with the disk.  For a file of its own, kept beside the shared one or without any, the sweep
frees the file and counts the shared one, or nothing.

Alone and in a moment, the two runs over a repository say what `promised` and `freed` say of the
volume before, and the disk loses what was `freed` and the files that had no other name (`ownLoss`).
`report_true_iff` is when all of it is the same.
-/

namespace Lfsx.Storage

open Request Files

namespace LocalStore

/-! ## One object -/

section

variable (d : Volume) (ns : Namespace) (oid : Oid)

/-- The bytes the repository holds of an object. -/
def heldBytes : Nat := d.lengthAt (objectPath ns oid)

/-- When the object was last touched. -/
def modified : Nat := ((d.find (objectPath ns oid)).map File.modified).getD 0

/-- Another repository has a name for it. -/
def elsewhere : Bool :=
  d.names.keys.any fun
    | [org, repo, first, second, name] =>
        (first, second) = oid.fanout && name = oid.text && org.head? ≠ some '.' &&
          [org, repo] ≠ [ns.storedOrg, ns.storedRepo]
    | _ => false

/-- What `referencedElsewhere` answers: by the links of the shared file, or by the names. -/
def referenced (ours : Nat) : Bool :=
  match d.inode (contentPath oid) with
  | some content => 1 + ours < d.links content
  | none => elsewhere d ns oid

/-- What a dry run counts for the object. -/
def promised : Nat := if referenced d ns oid 1 then 0 else heldBytes d ns oid

/-- The file of the repository is the shared one. -/
def Joined : Prop := d.inode (contentPath oid) = d.inode (objectPath ns oid)

instance : Decidable (Joined d ns oid) := inferInstanceAs (Decidable (_ = _))

/-- The shared file stays: there is none, or it has another name. -/
def sharedStays : Bool :=
  match d.inode (contentPath oid) with
  | some content => 1 < d.links content - if Joined d ns oid then 1 else 0
  | none => true

/-- What a sweep counts for the object: the shared file, if it goes. -/
def freed : Nat := if sharedStays d ns oid then 0 else d.lengthAt (contentPath oid)

/-- What the disk loses with the name of the repository. -/
def ownLoss : Nat :=
  match d.inode (objectPath ns oid) with
  | some own => if d.links own = 1 then d.lengthOf own else 0
  | none => 0

/-- What a sweep leaves of a volume when it collects an object. -/
def collected : Volume :=
  let named := d.unname (objectPath ns oid)
  if sharedStays d ns oid then named else named.unname (contentPath oid)

end

section

variable {d d' : Volume} {ns : Namespace} {oid oid' : Oid} {path : LocalPath} {i : Nat}

theorem elsewhere_eq_true :
    elsewhere d ns oid = true ↔ ∃ org repo, org.head? ≠ some '.' ∧
      [org, repo] ≠ [ns.storedOrg, ns.storedRepo] ∧
      (d.inode [org, repo, oid.fanout.1, oid.fanout.2, oid.text]).isSome := by
  rw [elsewhere, List.any_eq_true]
  constructor
  · rintro ⟨path, hkey, hpath⟩
    split at hpath
    · next org repo first second name =>
        simp only [Bool.and_eq_true, decide_eq_true_eq] at hpath
        obtain ⟨⟨⟨hfanout, rfl⟩, hdot⟩, hne⟩ := hpath
        refine ⟨org, repo, hdot, hne, ?_⟩
        rw [← hfanout]
        exact AList.lookup_isSome.mpr (AList.mem_keys.mpr hkey)
    · cases hpath
  · rintro ⟨org, repo, hdot, hne, hsome⟩
    refine ⟨_, AList.mem_keys.mp (AList.lookup_isSome.mp hsome), ?_⟩
    simp only [decide_true, Bool.true_and, Bool.and_eq_true, decide_eq_true_eq]
    exact ⟨hdot, hne⟩

/-! ### What another object is, one is collected -/

/-- All that is asked of an object answers as before. -/
structure Same (ns : Namespace) (oid : Oid) (d d' : Volume) : Prop where
  own : d'.inode (objectPath ns oid) = d.inode (objectPath ns oid)
  content : d'.inode (contentPath oid) = d.inode (contentPath oid)
  links : ∀ i, d.inode (objectPath ns oid) = some i ∨ d.inode (contentPath oid) = some i →
    d'.links i = d.links i
  file : ∀ i, d'.file i = d.file i
  clock : d'.clock = d.clock
  elsewhere : elsewhere d' ns oid = elsewhere d ns oid

theorem Same.refl : Same ns oid d d := ⟨rfl, rfl, fun _ _ => rfl, fun _ => rfl, rfl, rfl⟩

theorem Same.trans {d'' : Volume} (h : Same ns oid d d') (h' : Same ns oid d' d'') :
    Same ns oid d d'' := by
  refine ⟨h'.own.trans h.own, h'.content.trans h.content, fun i hi => ?_,
    fun i => (h'.file i).trans (h.file i), h'.clock.trans h.clock, h'.elsewhere.trans h.elsewhere⟩
  rw [h'.links i (by rwa [h.own, h.content]), h.links i hi]

theorem Same.lengthOf (h : Same ns oid d d') (i : Nat) : d'.lengthOf i = d.lengthOf i := by
  rw [Disk.lengthOf, Disk.lengthOf, h.file]

theorem Same.lengthAt (h : Same ns oid d d') (hpath : d'.inode path = d.inode path) :
    d'.lengthAt path = d.lengthAt path := by
  rw [Disk.lengthAt, Disk.lengthAt, hpath]
  cases d.inode path with
  | none => rfl
  | some own => exact h.lengthOf own

theorem Same.modified (h : Same ns oid d d') : modified d' ns oid = modified d ns oid := by
  rw [LocalStore.modified, LocalStore.modified, Disk.find, Disk.find, h.own]
  cases d.inode (objectPath ns oid) with
  | none => rfl
  | some own => rw [Option.bind_some, Option.bind_some, h.file]

theorem Same.sharedStays (h : Same ns oid d d') : sharedStays d' ns oid = sharedStays d ns oid := by
  rw [LocalStore.sharedStays, LocalStore.sharedStays, h.content]
  cases hcontent : d.inode (contentPath oid) with
  | none => rfl
  | some content =>
      have hjoined : Joined d' ns oid ↔ Joined d ns oid := by
        rw [Joined, Joined, h.own, h.content]
      simp only [h.links content (Or.inr hcontent), hjoined]

theorem Same.freed (h : Same ns oid d d') : freed d' ns oid = freed d ns oid := by
  rw [LocalStore.freed, LocalStore.freed, h.sharedStays, h.lengthAt h.content]

theorem Same.promised (h : Same ns oid d d') : promised d' ns oid = promised d ns oid := by
  have hreferenced : referenced d' ns oid 1 = referenced d ns oid 1 := by
    rw [referenced, referenced, h.content, h.elsewhere]
    cases hcontent : d.inode (contentPath oid) with
    | none => rfl
    | some content => simp only [h.links content (Or.inr hcontent)]
  rw [LocalStore.promised, LocalStore.promised, hreferenced, heldBytes, heldBytes, h.lengthAt h.own]

theorem Same.ownLoss (h : Same ns oid d d') : ownLoss d' ns oid = ownLoss d ns oid := by
  rw [LocalStore.ownLoss, LocalStore.ownLoss, h.own]
  cases hown : d.inode (objectPath ns oid) with
  | none => rfl
  | some own => simp only [h.links own (Or.inl hown), h.lengthOf]

/-- No other repository has a name there. -/
theorem elsewhere_unname (h : OfObject ns oid' path) :
    elsewhere (d.unname path) ns oid = elsewhere d ns oid := by
  have hpath : ∀ org repo, [org, repo] ≠ [ns.storedOrg, ns.storedRepo] →
      [org, repo, oid.fanout.1, oid.fanout.2, oid.text] ≠ path := by
    rintro org repo hne heq
    rcases h with rfl | rfl
    · rw [objectPath] at heq
      simp only [List.cons.injEq] at heq
      exact hne (by rw [heq.1, heq.2.1])
    · have := congrArg List.length heq
      simp [contentPath] at this
  rw [Bool.eq_iff_iff, elsewhere_eq_true, elsewhere_eq_true]
  constructor
  · rintro ⟨org, repo, hdot, hne, hsome⟩
    rw [Disk.inode_unname, if_neg (hpath org repo hne)] at hsome
    exact ⟨org, repo, hdot, hne, hsome⟩
  · rintro ⟨org, repo, hdot, hne, hsome⟩
    refine ⟨org, repo, hdot, hne, ?_⟩
    rwa [Disk.inode_unname, if_neg (hpath org repo hne)]

/-- **A name of one object is nothing to another.** -/
theorem same_unname (orderly : Orderly ns d) (hne : oid ≠ oid') (h : OfObject ns oid' path) :
    Same ns oid d (d.unname path) := by
  have hother : ∀ p, OfObject ns oid p → p ≠ path := by
    rintro p hp rfl
    exact hne (hp.entry.unique h.entry)
  refine ⟨?_, ?_, fun i hi => ?_, fun _ => rfl, rfl, elsewhere_unname h⟩
  · rw [Disk.inode_unname, if_neg (hother _ (Or.inl rfl))]
  · rw [Disk.inode_unname, if_neg (hother _ (Or.inr rfl))]
  · have hpath : d.inode path ≠ some i := by
      intro hpath
      rcases hi with hi | hi
      · exact hne (orderly.grouped _ _ _ _ _ (Or.inl rfl) h hi hpath)
      · exact hne (orderly.grouped _ _ _ _ _ (Or.inr rfl) h hi hpath)
    have hlinks := Disk.links_unname (d := d) path i
    rw [if_neg hpath, Nat.add_zero] at hlinks
    exact hlinks.symm

theorem Orderly.unname (orderly : Orderly ns d) : Orderly ns (d.unname path) := by
  have hnone : ∀ p, d.inode p = none → (d.unname path).inode p = none := by
    intro p hp
    rw [Disk.inode_unname, hp, ite_self]
  have hsome : ∀ p i, (d.unname path).inode p = some i → d.inode p = some i := by
    intro p i hp
    cases hd : d.inode p with
    | none => rw [hnone p hd] at hp; cases hp
    | some j =>
        rw [Disk.inode_unname] at hp
        split at hp
        · cases hp
        · rw [← hd, hp]
  refine ⟨fun p oid hentry name rest => hnone _ (orderly.flat p oid hentry name rest), ?_, ?_⟩
  · intro first second oid h
    obtain ⟨i, hi⟩ := Option.isSome_iff_exists.mp h
    exact orderly.placed first second oid (Option.isSome_iff_exists.mpr ⟨i, hsome _ i hi⟩)
  · intro p p' oid oid' i hof hof' hi hi'
    exact orderly.grouped p p' oid oid' i hof hof' (hsome p i hi) (hsome p' i hi')

/-! ### What a collected object leaves -/

theorem orderly_collected (orderly : Orderly ns d) : Orderly ns (collected d ns oid) := by
  rw [collected]
  split
  · exact orderly.unname
  · exact orderly.unname.unname

theorem same_collected (orderly : Orderly ns d) (hne : oid ≠ oid') :
    Same ns oid d (collected d ns oid') := by
  have hnamed := same_unname orderly hne (Or.inl rfl)
  rw [collected]
  split
  · exact hnamed
  · exact hnamed.trans (same_unname orderly.unname hne (Or.inr rfl))

/-- The names of the shared file, once that of the repository is gone. -/
theorem links_named {content : Nat} (hcontent : d.inode (contentPath oid) = some content) :
    (d.unname (objectPath ns oid)).links content =
      d.links content - if Joined d ns oid then 1 else 0 := by
  have hlinks := Disk.links_unname (d := d) (objectPath ns oid) content
  have hjoined : Joined d ns oid ↔ d.inode (objectPath ns oid) = some content := by
    rw [Joined, hcontent]
    exact eq_comm
  simp only [hjoined]
  omega

theorem inode_content_named :
    (d.unname (objectPath ns oid)).inode (contentPath oid) = d.inode (contentPath oid) := by
  rw [Disk.inode_unname, if_neg]
  exact (objectPath_ne_contentPath ns oid oid).symm

/-- **What the disk loses.** -/
theorem bytes_collected (h : d.inode (objectPath ns oid) = some i) :
    d.bytes = (collected d ns oid).bytes + ownLoss d ns oid + freed d ns oid := by
  have hown := Disk.bytes_unname h
  rw [collected, freed, ownLoss, h]
  cases hstays : sharedStays d ns oid with
  | true => simpa using hown
  | false =>
      rw [sharedStays] at hstays
      cases hcontent : d.inode (contentPath oid) with
      | none => rw [hcontent] at hstays; cases hstays
      | some content =>
          rw [hcontent] at hstays
          simp only [decide_eq_false_iff_not] at hstays
          rw [← links_named hcontent] at hstays
          have hnamed : (d.unname (objectPath ns oid)).inode (contentPath oid) = some content := by
            rw [inode_content_named, hcontent]
          have hlast : (d.unname (objectPath ns oid)).links content = 1 := by
            have := Disk.links_pos hnamed
            omega
          have hshared := Disk.bytes_unname hnamed
          rw [if_pos hlast] at hshared
          have hlength : (d.unname (objectPath ns oid)).lengthOf content = d.lengthOf content := rfl
          rw [Disk.lengthAt_of_inode hcontent]
          simp only [Bool.false_eq_true, if_false]
          omega

end

/-! ## A visit -/

section

variable {handle : (r : Files.Req Text) → Volume → Files.Resp r × Volume} {d d' : Volume}
  {ns : Namespace} {oid : Oid} {repos : List LocalPath} {report : SweepReport} {path : LocalPath}
  {i held : Nat}

theorem metadata_eval (still : Still handle) (h : d.inode path = some i) :
    ∃ f, d.file i = some f ∧ (metadata path).run.eval handle d =
      (.ok ⟨i, d.lengthOf i, f.modified, d.links i⟩, d) := by
  obtain ⟨f, hf⟩ := Disk.exists_file h
  refine ⟨f, hf, ?_⟩
  rw [still.eval_metadata, h, Option.bind_some, Disk.stat, hf, Disk.lengthOf_of_file hf]
  rfl

theorem metadata_eval_none (still : Still handle) (h : d.inode path = none) :
    (metadata path).run.eval handle d = (.error .notFound, d) := by
  rw [still.eval_metadata, h]
  rfl

theorem linksTo_returns (still : Still handle) (content : LocalPath) :
    (linksTo content).Returns handle d ((d.inode content).map d.links) d := by
  cases h : d.inode content with
  | none => exact Fallible.Returns.caught (metadata_eval_none still h) Fallible.Returns.pure
  | some i =>
      obtain ⟨f, -, heval⟩ := metadata_eval still h
      exact Fallible.Returns.caught heval Fallible.Returns.pure

theorem probeEach_returns (still : Still handle) (oid : Oid) (repos : List LocalPath) :
    (probeEach oid repos).Returns handle d (repos.any fun repo =>
      (d.inode (repo ++ [oid.fanout.1, oid.fanout.2, oid.text])).isSome) d := by
  induction repos with
  | nil => exact Fallible.Returns.pure
  | cons repo rest ih =>
      cases h : d.inode (repo ++ [oid.fanout.1, oid.fanout.2, oid.text]) with
      | none =>
          refine Fallible.Returns.caught (metadata_eval_none still h) ?_
          rw [List.any_cons, h]
          exact ih
      | some i =>
          obtain ⟨f, -, heval⟩ := metadata_eval still h
          refine Fallible.Returns.caught heval ?_
          rw [List.any_cons, h]
          exact Fallible.Returns.pure

/-- A list of the other repositories. -/
structure Lists (ns : Namespace) (d : Volume) (repos : List LocalPath) : Prop where
  other : ∀ repo ∈ repos, Other ns repo
  complete : ∀ repo, Other ns repo → d.There repo → repo ∈ repos

theorem Lists.unname (h : Lists ns d repos) : Lists ns (d.unname path) repos := by
  refine ⟨h.other, fun repo hother ⟨rest, i, hi⟩ => h.complete repo hother ⟨rest, i, ?_⟩⟩
  rw [Disk.inode_unname] at hi
  split at hi
  · cases hi
  · exact hi

theorem Lists.collected (h : Lists ns d repos) : Lists ns (collected d ns oid) repos := by
  rw [LocalStore.collected]
  split
  · exact h.unname
  · exact h.unname.unname

theorem Lists.any_eq (h : Lists ns d repos) :
    (repos.any fun repo => (d.inode (repo ++ [oid.fanout.1, oid.fanout.2, oid.text])).isSome) =
      elsewhere d ns oid := by
  rw [Bool.eq_iff_iff, elsewhere_eq_true, List.any_eq_true]
  constructor
  · rintro ⟨repo, hrepo, hsome⟩
    obtain ⟨org, name, rfl, hdot, hne⟩ := h.other repo hrepo
    exact ⟨org, name, hdot, hne, hsome⟩
  · rintro ⟨org, name, hdot, hne, hsome⟩
    obtain ⟨i, hi⟩ := Option.isSome_iff_exists.mp hsome
    exact ⟨[org, name], h.complete _ ⟨org, name, rfl, hdot, hne⟩ ⟨_, i, hi⟩, hsome⟩

theorem referencedElsewhere_returns (still : Still handle) (lists : Lists ns d repos)
    (oid : Oid) (ours : Nat) :
    (referencedElsewhere oid repos ours).Returns handle d (referenced d ns oid ours) d := by
  refine (linksTo_returns still _).bind ?_
  rw [referenced]
  cases d.inode (contentPath oid) with
  | some content => exact Fallible.Returns.pure
  | none =>
      rw [← lists.any_eq]
      exact probeEach_returns still oid repos

theorem removeUnlessGone_returns (still : Still handle) (h : d.inode path = some i) :
    (removeUnlessGone path).Returns handle d () (d.unname path) :=
  Fallible.Returns.caught (still.eval_unlink h) Fallible.Returns.pure

theorem freeContent_returns (still : Still handle) (oid : Oid) (held : Nat)
    (report : SweepReport) :
    match d.inode (contentPath oid) with
    | some content => (freeContent oid held report).Returns handle d
        { report with bytes := report.bytes + d.lengthOf content } (d.unname (contentPath oid))
    | none => (freeContent oid held report).Returns handle d report d := by
  cases h : d.inode (contentPath oid) with
  | none =>
      have hsize : (sizeOr (contentPath oid) held).Returns handle d held d :=
        Fallible.Returns.caught (metadata_eval_none still h) Fallible.Returns.pure
      exact hsize.bind (Fallible.Returns.caught (still.eval_unlink_none h) Fallible.Returns.pure)
  | some content =>
      obtain ⟨f, -, heval⟩ := metadata_eval still h
      have hsize : (sizeOr (contentPath oid) held).Returns handle d (d.lengthOf content) d :=
        Fallible.Returns.caught heval Fallible.Returns.pure
      exact hsize.bind (Fallible.Returns.caught (still.eval_unlink h) Fallible.Returns.pure)

/-- A dry run counts what is `promised`. -/
theorem collect_dry (still : Still handle) (lists : Lists ns d repos)
    (hdry : report.dryRun = true) :
    (collect path oid (heldBytes d ns oid) repos report).Returns handle d
      { report with bytes := report.bytes + promised d ns oid } d := by
  rw [collect, if_pos hdry]
  refine (referencedElsewhere_returns still lists oid 1).bind ?_
  rw [promised]
  cases referenced d ns oid 1 <;> exact Fallible.Returns.pure

/-- **A sweep counts what is `freed`.** -/
theorem collect_real (still : Still handle) (lists : Lists ns d repos)
    (h : d.inode (objectPath ns oid) = some i) (hdry : report.dryRun = false) :
    (collect (objectPath ns oid) oid held repos report).Returns handle d
      { report with bytes := report.bytes + freed d ns oid } (collected d ns oid) := by
  rw [collect, if_neg (by simp [hdry])]
  refine (removeUnlessGone_returns still h).bind ?_
  refine (referencedElsewhere_returns still lists.unname oid 0).bind ?_
  have hfree := freeContent_returns (d := d.unname (objectPath ns oid)) still oid held report
  rw [collected, freed, sharedStays, referenced, inode_content_named] at *
  cases hcontent : d.inode (contentPath oid) with
  | none =>
      simp only [hcontent] at hfree
      simp only [if_true]
      cases elsewhere (d.unname (objectPath ns oid)) ns oid with
      | true => exact Fallible.Returns.pure
      | false => exact hfree
  | some content =>
      simp only [hcontent] at hfree
      simp only [links_named hcontent, Nat.add_zero, Disk.lengthAt_of_inode hcontent]
      by_cases hmore : 1 < d.links content - if Joined d ns oid then 1 else 0
      · simp only [hmore, decide_true, if_true]
        exact Fallible.Returns.pure
      · simp only [hmore, decide_false, Bool.false_eq_true, if_false]
        exact hfree

end

/-! ## A run -/

/-- A sweep drops the object. -/
def Expires (d : Volume) (ns : Namespace) (retained : Finset Oid) (grace : Nat)
    (oid : Oid) : Prop :=
  oid ∉ retained ∧ grace ≤ d.clock - modified d ns oid

instance {d : Volume} {ns : Namespace} {retained : Finset Oid} {grace : Nat} {oid : Oid} :
    Decidable (Expires d ns retained grace oid) :=
  inferInstanceAs (Decidable (_ ∧ _))

/-- The object is not retained, and too young to be dropped. -/
def Young (d : Volume) (ns : Namespace) (retained : Finset Oid) (grace : Nat) (oid : Oid) : Prop :=
  oid ∉ retained ∧ d.clock - modified d ns oid < grace

instance {d : Volume} {ns : Namespace} {retained : Finset Oid} {grace : Nat} {oid : Oid} :
    Decidable (Young d ns retained grace oid) :=
  inferInstanceAs (Decidable (_ ∧ _))

section

variable {handle : (r : Files.Req Text) → Volume → Files.Resp r × Volume} {d d' : Volume}
  {ns : Namespace} {oid : Oid} {repos : List LocalPath} {report : SweepReport}
  {retained : Finset Oid} {grace : Nat} {oids : List Oid}

/-- What a run counts for an object it drops. -/
def counted (dryRun : Bool) (d : Volume) (ns : Namespace) (oid : Oid) : Nat :=
  if dryRun then promised d ns oid else freed d ns oid

/-- The report after an object. -/
def reportOne (d : Volume) (ns : Namespace) (retained : Finset Oid) (grace : Nat) (oid : Oid)
    (report : SweepReport) : SweepReport :=
  { report with
    swept := report.swept + if Expires d ns retained grace oid then 1 else 0
    bytes := report.bytes +
      if Expires d ns retained grace oid then counted report.dryRun d ns oid else 0
    withinGrace := report.withinGrace + if Young d ns retained grace oid then 1 else 0 }

/-- The volume after an object. -/
def leftOne (dryRun : Bool) (d : Volume) (ns : Namespace) (retained : Finset Oid) (grace : Nat)
    (oid : Oid) : Volume :=
  if Expires d ns retained grace oid ∧ dryRun = false then collected d ns oid else d

/-- **A visit.** -/
theorem sweepOne_returns (still : Still handle) (lists : Lists ns d repos)
    (h : (d.inode (objectPath ns oid)).isSome) (retained : Finset Oid) (grace : Nat)
    (report : SweepReport) :
    (sweepOne retained grace repos ⟨objectPath ns oid, oid⟩ report).Returns handle d
      (reportOne d ns retained grace oid report)
      (leftOne report.dryRun d ns retained grace oid) := by
  obtain ⟨i, hi⟩ := Option.isSome_iff_exists.mp h
  obtain ⟨f, hf, heval⟩ := metadata_eval still hi
  have hmodified : modified d ns oid = f.modified := by
    rw [modified, Disk.find_of_inode hi, hf]
    rfl
  have hheld : heldBytes d ns oid = d.lengthOf i := Disk.lengthAt_of_inode hi
  rw [sweepOne, reportOne, leftOne]
  by_cases hretained : oid ∈ retained
  · have hexpires : ¬ Expires d ns retained grace oid := fun h => h.1 hretained
    have hyoung : ¬ Young d ns retained grace oid := fun h => h.1 hretained
    simp only [hretained, hexpires, hyoung, if_true, if_false, false_and]
    exact Fallible.Returns.pure
  · rw [if_neg hretained]
    refine Fallible.Returns.caught heval ?_
    have hage : (age ⟨i, d.lengthOf i, f.modified, d.links i⟩).Returns handle d
        (d.clock - f.modified) d :=
      (Fallible.Returns.certain still.handle_now).bind Fallible.Returns.pure
    refine hage.bind ?_
    by_cases hgrace : d.clock - f.modified < grace
    · have hexpires : ¬ Expires d ns retained grace oid := by
        rintro ⟨-, hold⟩
        omega
      have hyoung : Young d ns retained grace oid := ⟨hretained, by rwa [hmodified]⟩
      simp only [hgrace, hexpires, hyoung, if_true, if_false, false_and]
      exact Fallible.Returns.pure
    · have hexpires : Expires d ns retained grace oid := ⟨hretained, by omega⟩
      have hyoung : ¬ Young d ns retained grace oid := by
        rintro ⟨-, hyoung⟩
        omega
      rw [← hheld]
      simp only [hgrace, hexpires, hyoung, if_true, if_false, true_and, counted]
      by_cases hdry : report.dryRun = true
      · rw [if_pos hdry, if_neg (by simp [hdry])]
        exact collect_dry still lists hdry
      · rw [if_neg hdry, if_pos (Bool.not_eq_true _ ▸ hdry)]
        exact collect_real still lists hi (Bool.not_eq_true _ ▸ hdry)

theorem Same.expires (h : Same ns oid d d') :
    Expires d' ns retained grace oid ↔ Expires d ns retained grace oid := by
  rw [Expires, Expires, h.clock, h.modified]

theorem Same.young (h : Same ns oid d d') :
    Young d' ns retained grace oid ↔ Young d ns retained grace oid := by
  rw [Young, Young, h.clock, h.modified]

theorem Same.counted {dryRun : Bool} (h : Same ns oid d d') :
    counted dryRun d' ns oid = counted dryRun d ns oid := by
  rw [LocalStore.counted, LocalStore.counted, h.promised, h.freed]

/-- Of some objects, those a sweep drops. -/
def dropping (d : Volume) (ns : Namespace) (retained : Finset Oid) (grace : Nat)
    (oids : List Oid) : List Oid :=
  oids.filter fun oid => Expires d ns retained grace oid

/-- Of some objects, those that are too young. -/
def waiting (d : Volume) (ns : Namespace) (retained : Finset Oid) (grace : Nat)
    (oids : List Oid) : List Oid :=
  oids.filter fun oid => Young d ns retained grace oid

theorem dropping_congr (h : ∀ oid ∈ oids, Same ns oid d d') :
    dropping d' ns retained grace oids = dropping d ns retained grace oids :=
  List.filter_congr fun oid hoid => by simp only [(h oid hoid).expires]

theorem waiting_congr (h : ∀ oid ∈ oids, Same ns oid d d') :
    waiting d' ns retained grace oids = waiting d ns retained grace oids :=
  List.filter_congr fun oid hoid => by simp only [(h oid hoid).young]

/-- What a run over some objects reports, from the volume before it. -/
def reportOf (d : Volume) (ns : Namespace) (retained : Finset Oid) (grace : Nat)
    (oids : List Oid) (report : SweepReport) : SweepReport :=
  { report with
    swept := report.swept + (dropping d ns retained grace oids).length
    bytes := report.bytes +
      ((dropping d ns retained grace oids).map (counted report.dryRun d ns)).sum
    withinGrace := report.withinGrace + (waiting d ns retained grace oids).length }

/-- What the disk loses in a run over some objects. -/
def loss (d : Volume) (ns : Namespace) (retained : Finset Oid) (grace : Nat) (oids : List Oid) :
    Nat :=
  ((dropping d ns retained grace oids).map fun oid => ownLoss d ns oid + freed d ns oid).sum

theorem reportOf_cons :
    reportOf d ns retained grace (oid :: oids) report =
      reportOf d ns retained grace oids (reportOne d ns retained grace oid report) := by
  rw [reportOf, reportOf, reportOne, dropping, waiting, List.filter_cons, List.filter_cons]
  simp only [decide_eq_true_eq, SweepReport.mk.injEq, and_true]
  refine ⟨?_, ?_, ?_⟩
  · split
    · rw [List.length_cons, dropping]
      omega
    · rfl
  · split
    · rw [List.map_cons, List.sum_cons, dropping]
      omega
    · rfl
  · split
    · rw [List.length_cons, waiting]
      omega
    · rfl

theorem loss_cons :
    loss d ns retained grace (oid :: oids) =
      (if Expires d ns retained grace oid then ownLoss d ns oid + freed d ns oid else 0) +
        loss d ns retained grace oids := by
  rw [loss, dropping, List.filter_cons]
  split
  next h =>
    rw [if_pos (of_decide_eq_true h), List.map_cons, List.sum_cons]
    rfl
  next h =>
    rw [if_neg (by simpa using h), Nat.zero_add]
    rfl

theorem reportOf_congr (h : ∀ oid ∈ oids, Same ns oid d d') :
    reportOf d' ns retained grace oids report = reportOf d ns retained grace oids report := by
  have hcounted : (dropping d ns retained grace oids).map (counted report.dryRun d' ns) =
      (dropping d ns retained grace oids).map (counted report.dryRun d ns) :=
    List.map_congr_left fun oid hoid => (h oid (List.mem_of_mem_filter hoid)).counted
  rw [reportOf, reportOf, dropping_congr h, waiting_congr h, hcounted]

theorem loss_congr (h : ∀ oid ∈ oids, Same ns oid d d') :
    loss d' ns retained grace oids = loss d ns retained grace oids := by
  rw [loss, loss, dropping_congr h]
  refine congrArg List.sum (List.map_congr_left fun oid hoid => ?_)
  rw [(h oid (List.mem_of_mem_filter hoid)).ownLoss, (h oid (List.mem_of_mem_filter hoid)).freed]

/-! ### The volume after an object -/

section LeftOne

variable {dryRun : Bool}

theorem orderly_leftOne (orderly : Orderly ns d) :
    Orderly ns (leftOne dryRun d ns retained grace oid) := by
  rw [leftOne]
  split
  · exact orderly_collected orderly
  · exact orderly

theorem lists_leftOne (lists : Lists ns d repos) :
    Lists ns (leftOne dryRun d ns retained grace oid) repos := by
  rw [leftOne]
  split
  · exact lists.collected
  · exact lists

theorem same_leftOne {oid' : Oid} (orderly : Orderly ns d) (hne : oid' ≠ oid) :
    Same ns oid' d (leftOne dryRun d ns retained grace oid) := by
  rw [leftOne]
  split
  · exact same_collected orderly hne
  · exact Same.refl

theorem leftOne_dry : leftOne true d ns retained grace oid = d := if_neg (by simp)

theorem bytes_leftOne (retained : Finset Oid) (grace : Nat)
    (h : (d.inode (objectPath ns oid)).isSome) :
    d.bytes = (leftOne false d ns retained grace oid).bytes +
      if Expires d ns retained grace oid then ownLoss d ns oid + freed d ns oid else 0 := by
  obtain ⟨i, hi⟩ := Option.isSome_iff_exists.mp h
  have hbytes := bytes_collected hi
  rw [leftOne]
  simp only [and_true]
  split
  · omega
  · rfl

end LeftOne

/-- **A run over some objects.**  By induction on them: what is asked of one answers as before
another was dropped. -/
theorem visits_return (still : Still handle) (orderly : Orderly ns d) (lists : Lists ns d repos)
    (retained : Finset Oid) (grace : Nat) (report : SweepReport)
    (hnodup : oids.Nodup) (hheld : ∀ oid ∈ oids, (d.inode (objectPath ns oid)).isSome) :
    ∃ d', (visitEach (sweepOne retained grace repos)
        (oids.map fun oid => ⟨objectPath ns oid, oid⟩) report).Returns handle d
          (reportOf d ns retained grace oids report) d' ∧
      (report.dryRun = true → d' = d) ∧
      (report.dryRun = false → d.bytes = d'.bytes + loss d ns retained grace oids) := by
  induction oids generalizing d report with
  | nil => exact ⟨d, Fallible.Returns.pure, fun _ => rfl, fun _ => rfl⟩
  | cons oid rest ih =>
      obtain ⟨hnot, hnodup⟩ := List.nodup_cons.mp hnodup
      have hoid := hheld oid List.mem_cons_self
      obtain ⟨d₁, hd₁⟩ : ∃ d₁, leftOne report.dryRun d ns retained grace oid = d₁ := ⟨_, rfl⟩
      have horderly₁ : Orderly ns d₁ := hd₁ ▸ orderly_leftOne orderly
      have hlists₁ : Lists ns d₁ repos := hd₁ ▸ lists_leftOne lists
      have hvisit := sweepOne_returns still lists hoid retained grace report
      rw [hd₁] at hvisit
      have hsame : ∀ o ∈ rest, Same ns o d d₁ := by
        intro o ho
        rw [← hd₁]
        refine same_leftOne orderly ?_
        rintro rfl
        exact hnot ho
      have hheld₁ : ∀ o ∈ rest, (d₁.inode (objectPath ns o)).isSome := by
        intro o ho
        rw [(hsame o ho).own]
        exact hheld o (List.mem_cons_of_mem _ ho)
      obtain ⟨d', hrest, hdry, hreal⟩ := ih horderly₁ hlists₁
        (reportOne d ns retained grace oid report) hnodup hheld₁
      rw [reportOf_congr hsame, ← reportOf_cons] at hrest
      refine ⟨d', hvisit.bind hrest, fun h => ?_, fun h => ?_⟩
      · rw [hdry h, ← hd₁, h, leftOne_dry]
      · have hbytes := bytes_leftOne retained grace hoid
        rw [← h, hd₁] at hbytes
        have hrest := hreal h
        rw [loss_congr hsame] at hrest
        rw [loss_cons]
        omega

/-! ## The two runs -/

/-- What a sweep of a repository reports. -/
def reported (d : Volume) (ns : Namespace) (retained : Finset Oid) (grace : Nat) (dryRun : Bool) :
    Nat × Nat × Nat :=
  ((dropping d ns retained grace (holding d ns)).length,
    ((dropping d ns retained grace (holding d ns)).map (counted dryRun d ns)).sum,
    (waiting d ns retained grace (holding d ns)).length)

theorem dropping_perm {oids' : List Oid} (h : oids.Perm oids') :
    (dropping d ns retained grace oids).Perm (dropping d ns retained grace oids') := h.filter _

theorem waiting_perm {oids' : List Oid} (h : oids.Perm oids') :
    (waiting d ns retained grace oids).Perm (waiting d ns retained grace oids') := h.filter _

/-- **A sweep of a repository**, alone and in a moment. -/
theorem sweep_returns (still : Still handle) (orderly : Orderly ns d) (retained : Finset Oid)
    (grace : Nat) (dryRun : Bool) :
    ∃ report d', (sweep ns retained grace dryRun).Returns handle d report d' ∧
      (report.swept, report.bytes, report.withinGrace) = reported d ns retained grace dryRun ∧
      (dryRun = true → d' = d) ∧
      (dryRun = false → d.bytes = d'.bytes + loss d ns retained grace (holding d ns)) := by
  obtain ⟨walk, hwalk, hperm⟩ := objectsOf_returns (d := d) still ns
  obtain ⟨repos, hrepos, hmem⟩ := otherRepositories_returns (d := d) still ns
  have hlists : Lists ns d repos :=
    ⟨fun repo h => ((hmem repo).mp h).1, fun repo hother hthere => (hmem repo).mpr ⟨hother, hthere⟩⟩
  have hobjects : walk.objects =
      (walk.objects.map Found.oid).map fun oid => ⟨objectPath ns oid, oid⟩ := by
    rw [List.map_map]
    refine (List.map_id _).symm.trans (List.map_congr_left fun found hfound => ?_)
    have hpath := ((mem_objectsUnder orderly).mp (hperm.mem_iff.mp hfound)).1
    simp only [id_eq, Function.comp_apply, ← hpath]
  have hoids : (walk.objects.map Found.oid).Perm (holding d ns) := hperm.map Found.oid
  obtain ⟨d', hvisits, hdry, hreal⟩ := visits_return still orderly hlists retained grace
    ⟨0, 0, 0, !walk.complete, dryRun⟩
    (hoids.nodup_iff.mpr (nodup_holding orderly))
    (fun oid hoid => (mem_holding orderly).mp (hoids.mem_iff.mp hoid))
  rw [← hobjects] at hvisits
  refine ⟨_, d', hwalk.bind (hrepos.bind hvisits), ?_, hdry, fun h => ?_⟩
  · rw [reportOf, reported, ← (dropping_perm hoids).length_eq, ← (waiting_perm hoids).length_eq,
      ← ((dropping_perm hoids).map (counted dryRun d ns)).sum_eq]
    simp only [Nat.zero_add]
  · rw [hreal h, loss, loss, ((dropping_perm hoids).map _).sum_eq]

/-! ## When the report is true -/

/-- Of the objects a sweep drops, those whose file is not the shared one. -/
def unjoined (d : Volume) (ns : Namespace) (retained : Finset Oid) (grace : Nat) : List Oid :=
  (dropping d ns retained grace (holding d ns)).filter fun oid => ¬ Joined d ns oid

/-- The length of a shared file that has no name in a repository. -/
def orphaned (d : Volume) (oid : Oid) : Nat :=
  match d.inode (contentPath oid) with
  | some content => if d.links content = 1 then d.lengthOf content else 0
  | none => 0

/-- For an object whose file is the shared one, the two runs agree. -/
theorem promised_of_joined (hjoined : Joined d ns oid)
    (h : (d.inode (objectPath ns oid)).isSome) : promised d ns oid = freed d ns oid := by
  obtain ⟨i, hi⟩ := Option.isSome_iff_exists.mp h
  have hcontent : d.inode (contentPath oid) = some i := hjoined.trans hi
  rw [promised, freed, referenced, sharedStays, hcontent]
  simp only [hjoined, if_true, heldBytes, Disk.lengthAt_of_inode hi,
    Disk.lengthAt_of_inode hcontent]
  have hiff : 1 + 1 < d.links i ↔ 1 < d.links i - 1 := by omega
  simp only [hiff]

theorem freed_of_unjoined (hjoined : ¬ Joined d ns oid) : freed d ns oid = orphaned d oid := by
  rw [freed, sharedStays, orphaned]
  cases hcontent : d.inode (contentPath oid) with
  | none => rfl
  | some content =>
      have hpos := Disk.links_pos hcontent
      simp only [hjoined, if_false, Nat.sub_zero, Disk.lengthAt_of_inode hcontent,
        decide_eq_true_eq]
      by_cases hone : d.links content = 1
      · rw [if_neg (by omega), if_pos hone]
      · rw [if_pos (by omega), if_neg hone]

/-- The two runs count the same bytes when they do for the files that are not shared. -/
theorem promised_eq_freed_iff (orderly : Orderly ns d) :
    ((dropping d ns retained grace (holding d ns)).map (promised d ns)).sum =
        ((dropping d ns retained grace (holding d ns)).map (freed d ns)).sum ↔
      ((unjoined d ns retained grace).map (promised d ns)).sum =
        ((unjoined d ns retained grace).map (orphaned d)).sum := by
  have hsplit : ∀ f : Oid → Nat, ((dropping d ns retained grace (holding d ns)).map f).sum =
      ((unjoined d ns retained grace).map f).sum +
        (((dropping d ns retained grace (holding d ns)).filter
          fun oid => !decide (¬ Joined d ns oid)).map f).sum := by
    intro f
    rw [unjoined, ← List.sum_append, ← List.map_append]
    exact ((List.filter_append_perm _ _).map f).sum_eq.symm
  have hjoined : ((dropping d ns retained grace (holding d ns)).filter
        fun oid => !decide (¬ Joined d ns oid)).map (promised d ns) =
      ((dropping d ns retained grace (holding d ns)).filter
        fun oid => !decide (¬ Joined d ns oid)).map (freed d ns) := by
    refine List.map_congr_left fun oid hoid => ?_
    obtain ⟨hdropping, hjoined⟩ := List.mem_filter.mp hoid
    have hheld := (mem_holding orderly).mp (List.mem_of_mem_filter hdropping)
    exact promised_of_joined (by simpa using hjoined) hheld
  have hunjoined : (unjoined d ns retained grace).map (freed d ns) =
      (unjoined d ns retained grace).map (orphaned d) := by
    refine List.map_congr_left fun oid hoid => freed_of_unjoined ?_
    simpa using (List.mem_filter.mp hoid).2
  rw [hsplit (promised d ns), hsplit (freed d ns), hjoined, ← hunjoined]
  exact Nat.add_right_cancel_iff

/-- No file that goes had its only name in the repository. -/
theorem ownLoss_eq_zero_iff (h : (d.inode (objectPath ns oid)).isSome) :
    ownLoss d ns oid = 0 ↔
      (∃ i, d.inode (objectPath ns oid) = some i ∧ d.links i ≠ 1) ∨ heldBytes d ns oid = 0 := by
  obtain ⟨i, hi⟩ := Option.isSome_iff_exists.mp h
  rw [ownLoss, hi, heldBytes, Disk.lengthAt_of_inode hi]
  simp only [Option.some.injEq, exists_eq_left']
  by_cases hone : d.links i = 1
  · simp [hone]
  · simp [hone]

end

/-- The reports of a dry run and of the sweep agree, and with what the disk has lost. -/
structure Truthful (planned done : SweepReport) (d d' : Volume) : Prop where
  swept : planned.swept = done.swept
  withinGrace : planned.withinGrace = done.withinGrace
  bytes : planned.bytes = done.bytes
  disk : d.bytes = d'.bytes + done.bytes

/-- **The report of a sweep.**  Alone and in a moment, a dry run and the sweep agree with each other
and with the disk exactly when every file that goes has another name or is empty, and, of the files
that are not the shared one, those the dry run counts have the bytes of the shared files nobody
else has. -/
theorem report_true_iff {d : Volume} {ns : Namespace} (orderly : Orderly ns d)
    {handle handle' : (r : Files.Req Text) → Volume → Files.Resp r × Volume}
    (still : Still handle) (still' : Still handle') (retained : Finset Oid) (grace : Nat) :
    ∃ planned done d',
      (sweep ns retained grace true).Returns handle d planned d ∧
      (sweep ns retained grace false).Returns handle' d done d' ∧
      (Truthful planned done d d' ↔
        (∀ oid ∈ dropping d ns retained grace (holding d ns),
          (∃ i, d.inode (objectPath ns oid) = some i ∧ d.links i ≠ 1) ∨ heldBytes d ns oid = 0) ∧
        ((unjoined d ns retained grace).map (promised d ns)).sum =
          ((unjoined d ns retained grace).map (orphaned d)).sum) := by
  obtain ⟨planned, d₁, hplanned, hreported, hdry, -⟩ :=
    sweep_returns still orderly retained grace true
  obtain ⟨done, d', hdone, hreported', -, hreal⟩ :=
    sweep_returns still' orderly retained grace false
  rw [hdry rfl] at hplanned
  refine ⟨planned, done, d', hplanned, hdone, ?_⟩
  rw [reported] at hreported hreported'
  simp only [Prod.mk.injEq] at hreported hreported'
  obtain ⟨hswept, hbytes, hwithin⟩ := hreported
  obtain ⟨hswept', hbytes', hwithin'⟩ := hreported'
  have hown : d.bytes = d'.bytes + done.bytes ↔
      ∀ oid ∈ dropping d ns retained grace (holding d ns),
        (∃ i, d.inode (objectPath ns oid) = some i ∧ d.links i ≠ 1) ∨ heldBytes d ns oid = 0 := by
    have hloss := hreal rfl
    have hcounted : done.bytes =
        ((dropping d ns retained grace (holding d ns)).map (freed d ns)).sum := hbytes'
    rw [loss, List.sum_map_add, ← hcounted] at hloss
    have hzero : d.bytes = d'.bytes + done.bytes ↔
        ((dropping d ns retained grace (holding d ns)).map (ownLoss d ns)).sum = 0 := by omega
    rw [hzero, List.sum_eq_zero_iff_forall_eq_nat, List.forall_mem_map]
    refine forall₂_congr fun oid hoid => ?_
    exact ownLoss_eq_zero_iff ((mem_holding orderly).mp (List.mem_of_mem_filter hoid))
  have hcount : planned.bytes = done.bytes ↔
      ((unjoined d ns retained grace).map (promised d ns)).sum =
        ((unjoined d ns retained grace).map (orphaned d)).sum := by
    rw [hbytes, hbytes', ← promised_eq_freed_iff orderly]
    exact Iff.rfl
  rw [← hown, ← hcount]
  constructor
  · exact fun h => ⟨h.disk, h.bytes⟩
  · exact fun ⟨hdisk, hbytes⟩ =>
      ⟨hswept.trans hswept'.symm, hwithin.trans hwithin'.symm, hbytes, hdisk⟩

/-! ### Shared, copied and loose -/

/-- A volume is orderly when each of its names is of the object its file is of. -/
theorem orderly_of_all {d : Volume} (holders : List Namespace) (owner : Nat → Oid)
    (hall : (d.names.entries.all fun e => e.1 == contentPath (owner e.2) ||
      holders.any fun holder => e.1 == objectPath holder (owner e.2)) = true) (ns : Namespace) :
    Orderly ns d := by
  have hnamed : ∀ {path i}, d.inode path = some i →
      ∃ holder, OfObject holder (owner i) path := by
    intro path i h
    have hcheck := List.all_eq_true.mp hall _ (AList.mem_lookup_iff.mp h)
    rw [Bool.or_eq_true, beq_iff_eq, List.any_eq_true] at hcheck
    rcases hcheck with hcontent | ⟨holder, -, hobject⟩
    · exact ⟨ns, .inr hcontent⟩
    · exact ⟨holder, .inl (beq_iff_eq.mp hobject)⟩
  refine ⟨fun path oid hentry name rest => ?_, fun first second oid h => ?_, ?_⟩
  · by_contra hsome
    obtain ⟨i, hi⟩ := Option.ne_none_iff_exists'.mp hsome
    obtain ⟨holder, hpath | hpath⟩ := hnamed hi
    · cases hentry with
      | held org repo first second oid =>
          exact absurd (congrArg List.length hpath) (by simp [objectPath])
      | content oid =>
          rw [contentPath, objectPath, List.cons_append, List.cons.injEq] at hpath
          exact holder.undotted_storedOrg (by rw [← hpath.1]; rfl)
    · cases hentry with
      | held org repo first second oid =>
          exact absurd (congrArg List.length hpath) (by simp [contentPath])
      | content oid => exact absurd (congrArg List.length hpath) (by simp [contentPath])
  · obtain ⟨i, hi⟩ := Option.isSome_iff_exists.mp h
    obtain ⟨holder, hpath | hpath⟩ := hnamed hi
    · rw [objectPath] at hpath
      simp only [List.cons.injEq] at hpath
      obtain ⟨-, -, hfirst, hsecond, htext, -⟩ := hpath
      have hoid : oid = owner i := Oid.ext htext
      rw [hfirst, hsecond, hoid]
    · exact absurd (congrArg List.length hpath) (by simp [contentPath])
  · intro path path' oid oid' i hof hof' hi hi'
    obtain ⟨holder, hpath⟩ := hnamed hi
    obtain ⟨holder', hpath'⟩ := hnamed hi'
    exact (hof.entry.unique hpath.entry).trans (hpath'.entry.unique hof'.entry)

/-- A volume with four objects of one repository: one shared with another repository, one that is
shared with nobody, one that was copied where it should have been linked, and one that has no name
under `.content`. -/
def mixed : Volume :=
  let shared := ((Disk.empty.add (objectPath .acme .zeros) 0).fill 0 [1, 2] 0)
    |>.link (objectPath .acme .zeros) (contentPath .zeros)
    |>.link (objectPath .acme .zeros) (objectPath .tools .zeros)
  let alone := ((shared.add (objectPath .acme .ones) 0).fill 1 [3, 3, 3] 0)
    |>.link (objectPath .acme .ones) (contentPath .ones)
  let copied := ((alone.add (objectPath .acme .twos) 0).fill 2 [5, 5, 5, 5] 0)
    |>.add (contentPath .twos) 0 |>.fill 3 [5, 5, 5, 5] 0
  (copied.add (objectPath .acme .threes) 0).fill 4 [7] 0

/-- The object a file of it is of. -/
def mixedOwner : Nat → Oid
  | 0 => .zeros
  | 1 => .ones
  | 2 => .twos
  | 3 => .twos
  | _ => .threes

theorem orderly_mixed : Orderly .acme mixed :=
  orderly_of_all [.acme, .tools] mixedOwner (by decide +kernel) .acme

/-- When the copied and the loose object stay, the report is true; when they go, it is not. -/
theorem report_true_iff_mixed :
    (∃ planned done d',
      (sweep .acme {.twos, .threes} 0 true).Returns respond mixed planned mixed ∧
      (sweep .acme {.twos, .threes} 0 false).Returns respond mixed done d' ∧
      Truthful planned done mixed d') ∧
    ∃ planned done d',
      (sweep .acme ∅ 0 true).Returns respond mixed planned mixed ∧
      (sweep .acme ∅ 0 false).Returns respond mixed done d' ∧
      ¬ Truthful planned done mixed d' := by
  constructor
  · obtain ⟨planned, done, d', hplanned, hdone, htrue⟩ :=
      report_true_iff orderly_mixed still_respond still_respond {.twos, .threes} 0
    refine ⟨planned, done, d', hplanned, hdone, htrue.mpr ⟨fun oid hoid => .inl ?_, ?_⟩⟩
    · have hdropping : dropping mixed .acme {.twos, .threes} 0 (holding mixed .acme) =
          [.ones, .zeros] := by decide +kernel
      rw [hdropping, List.mem_cons, List.mem_singleton] at hoid
      rcases hoid with rfl | rfl
      · exact ⟨1, by decide +kernel, by decide +kernel⟩
      · exact ⟨0, by decide +kernel, by decide +kernel⟩
    · decide +kernel
  · obtain ⟨planned, done, d', hplanned, hdone, htrue⟩ :=
      report_true_iff orderly_mixed still_respond still_respond ∅ 0
    refine ⟨planned, done, d', hplanned, hdone, fun h => ?_⟩
    exact absurd (htrue.mp h).2 (by decide +kernel)

/-! ### An object that was never shared -/

/-- A volume with one object of one byte, which has no name under `.content`. -/
def unshared : Volume := (Disk.empty.add (objectPath .acme .zeros) 0).fill 0 [0x78] 0

theorem orderly_unshared : Orderly .acme unshared :=
  orderly_of_all [.acme] (fun _ => .zeros) (by decide +kernel) .acme

/-- The dry run promises its byte, the sweep frees it, and reports that it freed none. -/
theorem unshared_misreported :
    Orderly .acme unshared ∧ ∃ planned done d',
      (sweep .acme ∅ 0 true).Returns respond unshared planned unshared ∧
      (sweep .acme ∅ 0 false).Returns respond unshared done d' ∧
      planned.bytes = 1 ∧ done.bytes = 0 ∧ unshared.bytes = d'.bytes + 1 := by
  obtain ⟨planned, d₁, hplanned, hreported, hdry, -⟩ :=
    sweep_returns still_respond orderly_unshared ∅ 0 true
  obtain ⟨done, d', hdone, hreported', -, hreal⟩ :=
    sweep_returns still_respond orderly_unshared ∅ 0 false
  rw [hdry rfl] at hplanned
  have hpromised : reported unshared .acme ∅ 0 true = (1, 1, 0) := by decide +kernel
  have hcounted : reported unshared .acme ∅ 0 false = (1, 0, 0) := by decide +kernel
  have hloss : loss unshared .acme ∅ 0 (holding unshared .acme) = 1 := by decide +kernel
  rw [hpromised] at hreported
  rw [hcounted] at hreported'
  rw [hloss] at hreal
  simp only [Prod.mk.injEq] at hreported hreported'
  exact ⟨orderly_unshared, planned, done, d', hplanned, hdone, hreported.2.1,
    hreported'.2.1, hreal rfl⟩

end LocalStore

end Lfsx.Storage
