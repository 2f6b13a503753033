import Lfsx.Storage.LocalWalk

/-!
# A volume that several operations work on

Any number of threads, each with an operation on a repository of its own, on one volume.
The state is the volume and what was done to it (`World`).  Nothing is locked: what keeps
the threads apart is that a number is handed out once, so that a staging file has one owner
(`Mine`), and that a file is filled before it gets any other name (`filling`).

`Allowed` lists what a thread may ask of the disk, and `Consistent` is what stays true as
long as every thread asks nothing else (`Consistent.step`): in particular every entry
decodes to its object.  A thread that made a file of a repository the content, and has not
linked it back yet, has a gap (`Gap`).  The content is there as long as the gap is, and the
next request of the thread closes it.
-/

namespace Lfsx.Storage

open Request Files
open Program (Stable)

namespace LocalStore

/-- What was done to a volume. -/
abbrev Past (ι : Type) := Log ι (Files.Req Text) Files.Resp

abbrev World (ι : Type) := Volume × Past ι

section

variable {ι : Type}

/-- A number was handed out to a thread. -/
def Owns (i : ι) (ticket : Nat) (past : Past ι) : Prop := ⟨i, .ticket, ticket⟩ ∈ past

/-- A staging path of a thread. -/
def Mine (i : ι) (p : LocalPath) (past : Past ι) : Prop :=
  ∃ dir oid ticket, p = part dir oid ticket ∧ Owns i ticket past

/-- A path was in a listing a thread has read. -/
def ListedBy (i : ι) (path : LocalPath) (past : Past ι) : Prop :=
  ∃ dir found ended, ⟨i, .readDir dir, .ok (found, ended)⟩ ∈ past ∧ path ∈ found

/-- A thread has filled a file. -/
def Sent (i : ι) (past : Past ι) : Prop := ∃ handle bytes, ⟨i, .write handle bytes, .ok ()⟩ ∈ past

/-- The file an event made, or that an event filled one. -/
def made : Event ι (Files.Req Text) Files.Resp → Option (Option Nat)
  | ⟨_, .create _, .ok handle⟩ => some (some handle)
  | ⟨_, .write _ _, _⟩ => some none
  | _ => none

variable [DecidableEq ι]

/-- The file a thread has made and not filled yet. -/
def filling (i : ι) (past : Past ι) : Option Nat :=
  (past.findSome? fun e => if e.thread = i then made e else none).join

/-- A thread has renamed a file of a repository to be the content. -/
def Gap (i : ι) (path : LocalPath) (oid : Oid) (past : Past ι) : Prop :=
  Entry path oid ∧ path ≠ contentPath oid ∧
    newest i past = some ⟨i, .rename path (contentPath oid), .ok ()⟩

end

section

variable {ι : Type} [DecidableEq ι] {i j : ι} {r : Files.Req Text} {answer : Files.Resp r}
  {past : Past ι} {p path : LocalPath} {oid : Oid} {t h : Nat}

omit [DecidableEq ι] in
theorem Mine.cons {e : Event ι (Files.Req Text) Files.Resp} (h : Mine i p past) :
    Mine i p (e :: past) := by
  obtain ⟨dir, oid, t, hp, howns⟩ := h
  exact ⟨dir, oid, t, hp, List.mem_cons_of_mem _ howns⟩

omit [DecidableEq ι] in
theorem ListedBy.cons {e : Event ι (Files.Req Text) Files.Resp} (h : ListedBy i path past) :
    ListedBy i path (e :: past) := by
  obtain ⟨dir, found, ended, he, hpath⟩ := h
  exact ⟨dir, found, ended, List.mem_cons_of_mem _ he, hpath⟩

omit [DecidableEq ι] in
theorem Sent.cons {e : Event ι (Files.Req Text) Files.Resp} (h : Sent i past) :
    Sent i (e :: past) := by
  obtain ⟨handle, bytes, he⟩ := h
  exact ⟨handle, bytes, List.mem_cons_of_mem _ he⟩

omit [DecidableEq ι] in
theorem Mine.ne_entry (h : Mine i p past) (hentry : Entry path oid) : path ≠ p := by
  obtain ⟨dir, oid', t, rfl, -⟩ := h
  exact hentry.ne_part dir oid' t

theorem filling_cons_other (hij : j ≠ i) : filling i (⟨j, r, answer⟩ :: past) = filling i past := by
  rw [filling, List.findSome?_cons, if_neg hij]
  rfl

theorem filling_cons (hr : made (⟨i, r, answer⟩ : Event ι (Files.Req Text) Files.Resp) = none) :
    filling i (⟨i, r, answer⟩ :: past) = filling i past := by
  rw [filling, List.findSome?_cons, if_pos rfl, hr]
  rfl

theorem filling_create : filling i (⟨i, .create p, .ok h⟩ :: past) = some h := by
  rw [filling, List.findSome?_cons, if_pos rfl]
  rfl

theorem filling_write {bytes : Files.Bytes} {answer : Except Refused Unit} :
    filling i (⟨i, .write h bytes, answer⟩ :: past) = none := by
  rw [filling, List.findSome?_cons, if_pos rfl]
  rfl

omit [DecidableEq ι] in
theorem made_eq_some {e : Event ι (Files.Req Text) Files.Resp} (he : made e = some (some h)) :
    ∃ p, e = ⟨e.thread, .create p, .ok h⟩ := by
  unfold made at he
  split at he
  · next i p h' =>
      cases he
      exact ⟨p, rfl⟩
  · cases he
  · cases he

/-- The file a thread is filling was made by its newest such request, or before it. -/
theorem filling_eq_some {e : Event ι (Files.Req Text) Files.Resp}
    (hfilling : filling i (e :: past) = some h) :
    filling i past = some h ∨ ∃ p, e = ⟨i, .create p, .ok h⟩ := by
  rw [filling, List.findSome?_cons] at hfilling
  by_cases hij : e.thread = i
  · rw [if_pos hij] at hfilling
    cases hmade : made e with
    | none =>
        rw [hmade] at hfilling
        exact Or.inl hfilling
    | some m =>
        rw [hmade] at hfilling
        have hm : m = some h := hfilling
        subst hm
        obtain ⟨p, he⟩ := made_eq_some hmade
        rw [hij] at he
        exact Or.inr ⟨p, he⟩
  · rw [if_neg hij] at hfilling
    exact Or.inl hfilling

theorem gap_cons_other (hij : j ≠ i) :
    Gap i path oid (⟨j, r, answer⟩ :: past) ↔ Gap i path oid past := by
  rw [Gap, Gap, newest_cons_ne hij]

/-- A rename that was refused leaves no gap. -/
theorem not_gap_of_refused {source target : LocalPath} {e : Refused} :
    ¬ Gap i path oid (⟨i, .rename source target, .error e⟩ :: past) := by
  rintro ⟨-, -, hnewest⟩
  rw [newest_cons_self, Option.some.injEq] at hnewest
  obtain ⟨rfl, rfl⟩ := Req.rename.inj (congrArg Event.req hnewest)
  cases hnewest

/-- A thread has at most one gap. -/
theorem Gap.unique {path' : LocalPath} {oid' : Oid} (h : Gap i path oid past)
    (h' : Gap i path' oid' past) : path = path' ∧ oid = oid' := by
  obtain ⟨hentry, -, hnewest⟩ := h
  obtain ⟨hentry', -, hnewest'⟩ := h'
  rw [hnewest, Option.some.injEq] at hnewest'
  have hpath : path = path' := (Req.rename.inj (congrArg Event.req hnewest')).1
  subst hpath
  exact ⟨rfl, hentry.unique hentry'⟩

end

/-! ## What a thread may ask -/

section

variable {ι : Type} [DecidableEq ι]

/-- A staging file of a thread that decodes to an object. -/
structure Complete (crates : Crates) (sha256 : Bytes → Text) (keys : Option (Keyring crates))
    (i : ι) (p : LocalPath) (oid : Oid) (w : World ι) : Prop where
  mine : Mine i p w.2
  filled : filling i w.2 = none
  decodes : ∃ f, w.1.find p = some f ∧ Decodes crates sha256 keys oid f.bytes

/-- What a thread may ask, where `home i` is its repository, and `gives i` are the objects it
was given the bytes of. -/
inductive Allowed (crates : Crates) (sha256 : Bytes → Text) (keys : Option (Keyring crates))
    (home : ι → Namespace) (gives : ι → Oid → Prop) (i : ι) (w : World ι) :
    Files.Req Text → Prop
  | look {r : Files.Req Text} : r.Looks → Allowed crates sha256 keys home gives i w r
  | create {p : LocalPath} : Mine i p w.2 → w.1.inode p = none →
      Allowed crates sha256 keys home gives i w (.create p)
  | fill {handle : Nat} {bytes : Files.Bytes} : filling i w.2 = some handle →
      Allowed crates sha256 keys home gives i w (.write handle bytes)
  | stage {p : LocalPath} {oid : Oid} : Mine i p w.2 → w.1.inode p = none →
      Allowed crates sha256 keys home gives i w (.link (contentPath oid) p)
  | share {p : LocalPath} {oid : Oid} : Complete crates sha256 keys i p oid w →
      Allowed crates sha256 keys home gives i w (.link p (contentPath oid))
  | give {oid : Oid} : gives i oid → Sent i w.2 →
      Allowed crates sha256 keys home gives i w (.link (contentPath oid) (objectPath (home i) oid))
  | giveBack {path : LocalPath} {oid : Oid} : Gap i path oid w.2 →
      Allowed crates sha256 keys home gives i w (.link (contentPath oid) path)
  | replace {p : LocalPath} {found : Found} : Complete crates sha256 keys i p found.oid w →
      HeldBy (home i) found → ListedBy i found.path w.2 →
      Allowed crates sha256 keys home gives i w (.rename p found.path)
  | swap {p : LocalPath} {oid : Oid} : Complete crates sha256 keys i p oid w →
      Allowed crates sha256 keys home gives i w (.rename p (contentPath oid))
  | promote {found : Found} : HeldBy (home i) found → ListedBy i found.path w.2 →
      Allowed crates sha256 keys home gives i w (.rename found.path (contentPath found.oid))
  | clean {p : LocalPath} : Mine i p w.2 → Allowed crates sha256 keys home gives i w (.unlink p)
  | drop {found : Found} : HeldBy (home i) found →
      Allowed crates sha256 keys home gives i w (.unlink found.path)
  | free {oid : Oid} : (∀ j path, ¬ Gap j path oid w.2) →
      Allowed crates sha256 keys home gives i w (.unlink (contentPath oid))

/-- What stays true of a volume and its past. -/
structure Consistent (crates : Crates) (sha256 : Bytes → Text) (keys : Option (Keyring crates))
    (w : World ι) : Prop where
  /-- Numbers are handed out in order, and a number once. -/
  issued : ∀ i t, Owns i t w.2 → t < w.1.ticket
  owner : ∀ i j t, Owns i t w.2 → Owns j t w.2 → i = j
  unused : ∀ dir oid t, w.1.ticket ≤ t → w.1.inode (part dir oid t) = none
  /-- A file that is being filled has no name but staging names of its owner. -/
  made : ∀ i h, filling i w.2 = some h → h < w.1.files.length
  own : ∀ i h path, filling i w.2 = some h → w.1.inode path = some h → Mine i path w.2
  sound : Sound crates sha256 keys w.1
  gaps : ∀ i path oid, Gap i path oid w.2 → ∃ h, w.1.inode (contentPath oid) = some h

end

section

variable {ι : Type} [DecidableEq ι] {crates : Crates} {sha256 : Bytes → Text}
  {keys : Option (Keyring crates)} {home : ι → Namespace} {gives : ι → Oid → Prop} {i j : ι}
  {w w' : World ι} {r : Files.Req Text} {p q : LocalPath} {oid : Oid} {t h : Nat}

theorem Consistent.owner_of_mine (hw : Consistent crates sha256 keys w) (hi : Mine i p w.2)
    (hj : Mine j p w.2) : i = j := by
  obtain ⟨dir, oid, t, hp, howns⟩ := hi
  obtain ⟨dir', oid', t', hp', howns'⟩ := hj
  rw [hp] at hp'
  obtain ⟨-, -, rfl⟩ := part_inj hp'
  exact hw.owner i j t howns howns'

/-- The file of an entry is not being filled. -/
theorem Consistent.settled (hw : Consistent crates sha256 keys w) (hentry : Entry q oid)
    (hq : w.1.inode q = some h) (i : ι) : filling i w.2 ≠ some h := by
  intro hfilling
  exact (hw.own i h q hfilling hq).ne_entry hentry rfl

/-- The names a thread may make or remove are its own staging paths and entries. -/
theorem Allowed.names (hallowed : Allowed crates sha256 keys home gives i w r)
    (hq : q ∈ r.names) : Mine i q w.2 ∨ ∃ oid, Entry q oid := by
  cases hallowed with
  | look hr => cases r <;> first | exact hr.elim | simp [Req.names] at hq
  | create hp _ =>
      obtain rfl : q = _ := by simpa [Req.names] using hq
      exact Or.inl hp
  | fill _ => simp [Req.names] at hq
  | stage hp _ =>
      obtain rfl : q = _ := by simpa [Req.names] using hq
      exact Or.inl hp
  | share _ =>
      obtain rfl : q = _ := by simpa [Req.names] using hq
      exact Or.inr ⟨_, .content _⟩
  | give _ _ =>
      obtain rfl : q = _ := by simpa [Req.names] using hq
      exact Or.inr ⟨_, entry_objectPath _ _⟩
  | giveBack hgap =>
      obtain rfl : q = _ := by simpa [Req.names] using hq
      exact Or.inr ⟨_, hgap.1⟩
  | replace hcomplete hheld _ =>
      obtain rfl | rfl : q = _ ∨ q = _ := by simpa [Req.names] using hq
      · exact Or.inl hcomplete.mine
      · exact Or.inr ⟨_, hheld.entry⟩
  | swap hcomplete =>
      obtain rfl | rfl : q = _ ∨ q = _ := by simpa [Req.names] using hq
      · exact Or.inl hcomplete.mine
      · exact Or.inr ⟨_, .content _⟩
  | promote hheld _ =>
      obtain rfl | rfl : q = _ ∨ q = _ := by simpa [Req.names] using hq
      · exact Or.inr ⟨_, hheld.entry⟩
      · exact Or.inr ⟨_, .content _⟩
  | clean hp =>
      obtain rfl : q = _ := by simpa [Req.names] using hq
      exact Or.inl hp
  | drop hheld =>
      obtain rfl : q = _ := by simpa [Req.names] using hq
      exact Or.inr ⟨_, hheld.entry⟩
  | free _ =>
      obtain rfl : q = _ := by simpa [Req.names] using hq
      exact Or.inr ⟨_, .content _⟩

/-- A file gets a name only from an entry or from a complete staging file of the thread, and
an entry only from one of its object. -/
theorem Allowed.source (hallowed : Allowed crates sha256 keys home gives i w r)
    (hw : Consistent crates sha256 keys w) (hr : r = .link p q ∨ r = .rename p q) :
    ((∃ oid, Entry p oid) ∨ Mine i p w.2 ∧ filling i w.2 = none) ∧
      ∀ oid f, Entry q oid → w.1.find p = some f → Decodes crates sha256 keys oid f.bytes := by
  have hentry : ∀ {p q oid'}, Entry p oid' → (∀ oid, Entry q oid → oid = oid') →
      ((∃ oid, Entry p oid) ∨ Mine i p w.2 ∧ filling i w.2 = none) ∧
        ∀ oid f, Entry q oid → w.1.find p = some f → Decodes crates sha256 keys oid f.bytes :=
    fun hp hq => ⟨Or.inl ⟨_, hp⟩, fun oid f hoid hf => hq oid hoid ▸ hw.sound _ _ f hp hf⟩
  have hcomplete : ∀ {p q oid'}, Complete crates sha256 keys i p oid' w →
      (∀ oid, Entry q oid → oid = oid') →
      ((∃ oid, Entry p oid) ∨ Mine i p w.2 ∧ filling i w.2 = none) ∧
        ∀ oid f, Entry q oid → w.1.find p = some f → Decodes crates sha256 keys oid f.bytes := by
    intro p q oid' hp hq
    refine ⟨Or.inr ⟨hp.mine, hp.filled⟩, fun oid f hoid hf => ?_⟩
    obtain ⟨g, hg, hdecodes⟩ := hp.decodes
    rw [hf, Option.some.injEq] at hg
    subst hg
    rw [hq oid hoid]
    exact hdecodes
  cases hallowed with
  | look hlooks =>
      rcases hr with rfl | rfl
      · exact hlooks.elim
      · exact hlooks.elim
  | create _ _ => rcases hr with hr | hr <;> cases hr
  | fill _ => rcases hr with hr | hr <;> cases hr
  | stage hp _ =>
      rcases hr with hr | hr <;> cases hr
      exact hentry (.content _) fun oid hoid => absurd rfl (hp.ne_entry hoid)
  | share h =>
      rcases hr with hr | hr <;> cases hr
      exact hcomplete h fun oid hoid => hoid.unique (.content _)
  | give _ _ =>
      rcases hr with hr | hr <;> cases hr
      exact hentry (.content _) fun oid hoid => hoid.unique (entry_objectPath _ _)
  | giveBack hgap =>
      rcases hr with hr | hr <;> cases hr
      exact hentry (.content _) fun oid hoid => hoid.unique hgap.1
  | replace h hheld _ =>
      rcases hr with hr | hr <;> cases hr
      exact hcomplete h fun oid hoid => hoid.unique hheld.entry
  | swap h =>
      rcases hr with hr | hr <;> cases hr
      exact hcomplete h fun oid hoid => hoid.unique (.content _)
  | promote hheld _ =>
      rcases hr with hr | hr <;> cases hr
      exact hentry hheld.entry fun oid hoid => hoid.unique (.content _)
  | clean _ => rcases hr with hr | hr <;> cases hr
  | drop _ => rcases hr with hr | hr <;> cases hr
  | free _ => rcases hr with hr | hr <;> cases hr

/-- What is created has a staging path of the thread that nobody had. -/
theorem Allowed.created (hallowed : Allowed crates sha256 keys home gives i w (.create p)) :
    Mine i p w.2 ∧ w.1.inode p = none := by
  cases hallowed with
  | look hr => exact hr.elim
  | create hp hnone => exact ⟨hp, hnone⟩

theorem Allowed.filled {bytes : Files.Bytes}
    (hallowed : Allowed crates sha256 keys home gives i w (.write h bytes)) :
    filling i w.2 = some h := by
  cases hallowed with
  | look hr => exact hr.elim
  | fill hfilling => exact hfilling

/-! ## What stays true -/

variable {may : Files.Req Text → Prop} {answer : Files.Resp r} {d' : Volume}

/-- A file that the thread is not filling keeps its bytes. -/
theorem Allowed.file_kept (hallowed : Allowed crates sha256 keys home gives i w r)
    (hstep : Faulty may r w.1 answer d') (hh : h < w.1.files.length)
    (hfilling : filling i w.2 ≠ some h) : d'.file h = w.1.file h := by
  refine hstep.file_kept hh (fun bytes hr => ?_) fun path hr => ?_
  · subst hr
    exact hfilling hallowed.filled
  · subst hr
    rw [hallowed.created.2]
    rintro ⟨⟩

/-- What the thread makes is a file nobody has. -/
theorem Allowed.new_file (hallowed : Allowed crates sha256 keys home gives i w r)
    (hstep : Faulty may r w.1 answer d')
    (he : (⟨i, r, answer⟩ : Event ι (Files.Req Text) Files.Resp) = ⟨j, .create p, .ok h⟩) :
    i = j ∧ r = .create p ∧ h = w.1.files.length ∧ ∃ time, d' = w.1.add p time := by
  cases he
  refine ⟨rfl, rfl, ?_⟩
  rcases hstep.create with ⟨k, time, hk, -, -, -⟩ | ⟨time, -, hok, -, hd'⟩ | ⟨-, hrefused, -⟩
  · rw [hallowed.created.2] at hk
    cases hk
  · cases hok
    exact ⟨rfl, time, hd'⟩
  · cases hrefused

theorem Consistent.issued_step (hw : Consistent crates sha256 keys w)
    (hstep : Faulty may r w.1 answer d') (howns : Owns j t (⟨i, r, answer⟩ :: w.2)) :
    t < d'.ticket ∧ (Owns j t w.2 ∨ j = i ∧ t = w.1.ticket) := by
  rcases List.mem_cons.mp howns with he | howns
  · cases he
    obtain ⟨hanswer, rfl⟩ := hstep.ticket
    exact ⟨by rw [hanswer]; exact Nat.lt_succ_self _, Or.inr ⟨rfl, hanswer⟩⟩
  · exact ⟨lt_of_lt_of_le (hw.issued j t howns) hstep.grows.2, Or.inl howns⟩

/-- A file that is being filled has no name of another. -/
theorem Consistent.own_step (hw : Consistent crates sha256 keys w)
    (hallowed : Allowed crates sha256 keys home gives i w r) (hstep : Faulty may r w.1 answer d')
    (hfilling : filling j (⟨i, r, answer⟩ :: w.2) = some h) (hq : d'.inode q = some h) :
    Mine j q (⟨i, r, answer⟩ :: w.2) := by
  rcases filling_eq_some hfilling with hold | ⟨p, he⟩
  · rcases hstep.named hq with hsame | ⟨p, hr, hp⟩ | ⟨-, -, hnew⟩
    · exact (hw.own j h q hold hsame).cons
    · -- Only an entry or a complete staging file gets a name, and neither is being filled.
      have hmine := hw.own j h p hold hp
      rcases (hallowed.source hw hr).1 with ⟨oid, hentry⟩ | ⟨hmine', hfilled⟩
      · exact absurd rfl (hmine.ne_entry hentry)
      · obtain rfl := hw.owner_of_mine hmine hmine'
        rw [hfilled] at hold
        cases hold
    · exact absurd (hw.made j h hold) (by rw [hnew]; exact lt_irrefl _)
  · obtain ⟨rfl, rfl, rfl, time, rfl⟩ := hallowed.new_file hstep he
    have hqp : q = p := by
      by_contra hne
      rw [Disk.inode_add, if_neg hne] at hq
      exact absurd (Disk.inode_lt hq) (lt_irrefl _)
    rw [hqp]
    exact hallowed.created.1.cons

/-- Every entry decodes to its object still. -/
theorem Consistent.sound_step (hw : Consistent crates sha256 keys w)
    (hallowed : Allowed crates sha256 keys home gives i w r)
    (hstep : Faulty may r w.1 answer d') : Sound crates sha256 keys d' := by
  intro path oid f hentry hfind
  obtain ⟨h, hpath, hfile⟩ := Disk.find_eq_some.mp hfind
  have hkept : ∀ q, w.1.inode q = some h → filling i w.2 ≠ some h → w.1.find q = some f := by
    intro q hq hfilling
    rw [Disk.find_of_inode hq, ← hallowed.file_kept hstep (Disk.inode_lt hq) hfilling, hfile]
  rcases hstep.named hpath with hsame | ⟨p, hr, hp⟩ | ⟨hr, -, -⟩
  · exact hw.sound path oid f hentry (hkept path hsame (hw.settled hentry hsame i))
  · obtain ⟨hsource, hdecodes⟩ := hallowed.source hw hr
    refine hdecodes oid f hentry (hkept p hp ?_)
    rcases hsource with ⟨oid', hentry'⟩ | ⟨-, hfilled⟩
    · exact hw.settled hentry' hp i
    · rw [hfilled]
      rintro ⟨⟩
  · subst hr
    exact absurd rfl (hallowed.created.1.ne_entry hentry)

/-- The content has its name as long as there is a gap. -/
theorem Consistent.gaps_step (hw : Consistent crates sha256 keys w)
    (hallowed : Allowed crates sha256 keys home gives i w r) (hstep : Faulty may r w.1 answer d')
    (hgap : Gap j p oid (⟨i, r, answer⟩ :: w.2)) : ∃ h, d'.inode (contentPath oid) = some h := by
  by_cases hij : i = j
  · subst hij
    obtain ⟨-, -, hnewest⟩ := hgap
    rw [newest_cons_self, Option.some.injEq] at hnewest
    cases hnewest
    rcases hstep.rename with ⟨k, hk, -, rfl⟩ | ⟨e, he, -, -⟩
    · obtain ⟨f, hf⟩ := Disk.exists_file hk
      have hfind : (w.1.rename p (contentPath oid)).find (contentPath oid) = some f := by
        rw [Disk.find_rename_target hk, hf]
      obtain ⟨l, hl, -⟩ := Disk.find_eq_some.mp hfind
      exact ⟨l, hl⟩
    · cases he
  · rw [gap_cons_other hij] at hgap
    obtain ⟨h, hcontent⟩ := hw.gaps j p oid hgap
    cases hafter : d'.inode (contentPath oid) with
    | some k => exact ⟨k, rfl⟩
    | none =>
        rcases hstep.lost hcontent hafter with hr | ⟨target, hr⟩
        · subst hr
          generalize hpath : contentPath oid = path at hallowed
          cases hallowed with
          | look hr => exact hr.elim
          | clean hp => exact absurd hpath (hp.ne_entry (.content oid))
          | drop hheld => exact absurd hpath.symm (hheld.ne_content oid)
          | @free oid' hnone =>
              have hentry : Entry (contentPath oid) oid' := by
                rw [hpath]
                exact .content oid'
              obtain rfl := hentry.unique (.content oid)
              exact absurd hgap (hnone j p)
        · subst hr
          generalize hpath : contentPath oid = path at hallowed
          cases hallowed with
          | look hr => exact hr.elim
          | replace hcomplete _ _ => exact absurd hpath (hcomplete.mine.ne_entry (.content oid))
          | swap hcomplete => exact absurd hpath (hcomplete.mine.ne_entry (.content oid))
          | promote hheld _ => exact absurd hpath.symm (hheld.ne_content oid)

/-- **What a thread may ask keeps the volume consistent.** -/
theorem Consistent.step (hw : Consistent crates sha256 keys w)
    (hallowed : Allowed crates sha256 keys home gives i w r)
    (hstep : Faulty may r w.1 answer d') :
    Consistent crates sha256 keys (d', ⟨i, r, answer⟩ :: w.2) where
  issued j t howns := (hw.issued_step hstep howns).1
  owner j k t hj hk := by
    rcases (hw.issued_step hstep hj).2 with hj | ⟨rfl, rfl⟩
    · rcases (hw.issued_step hstep hk).2 with hk | ⟨-, rfl⟩
      · exact hw.owner j k t hj hk
      · exact absurd (hw.issued j _ hj) (lt_irrefl _)
    · rcases (hw.issued_step hstep hk).2 with hk | ⟨rfl, -⟩
      · exact absurd (hw.issued k _ hk) (lt_irrefl _)
      · rfl
  unused dir oid t ht := by
    have hold := hw.unused dir oid t (hstep.grows.2.trans ht)
    have hnames : part dir oid t ∉ r.names := by
      intro hmem
      rcases hallowed.names hmem with ⟨dir', oid', t', hpart, howns⟩ | ⟨oid', hentry⟩
      · obtain ⟨-, -, rfl⟩ := part_inj hpart
        exact absurd (hw.issued i t howns) (not_lt.mpr (hstep.grows.2.trans ht))
      · exact hentry.ne_part dir oid t rfl
    exact (hstep.inode_other hnames).trans hold
  made j h hfilling := by
    rcases filling_eq_some hfilling with hold | ⟨p, he⟩
    · exact lt_of_lt_of_le (hw.made j h hold) hstep.grows.1
    · obtain ⟨rfl, rfl, rfl, time, rfl⟩ := hallowed.new_file hstep he
      simp [Disk.add]
  own j h path hfilling hpath := hw.own_step hallowed hstep hfilling hpath
  sound := hw.sound_step hallowed hstep
  gaps j path oid hgap := hw.gaps_step hallowed hstep hgap

end

end LocalStore

end Lfsx.Storage
