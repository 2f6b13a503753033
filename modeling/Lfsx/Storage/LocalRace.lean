import Lfsx.Storage.LocalKept
import Lfsx.Storage.LocalReplace

/-!
# A sweep beside other operations

Any number of writes, sweeps, dedupes and compressions at once, on one volume.  An object a
repository held at the start, or finished writing, and did not sweep itself is there at the
end and decodes, as long as no sweep frees content that a dedupe has just made of a
repository's only file (`nothing_is_lost`).  If one does, the object is gone from a
repository that nobody swept (`promoted_is_lost`).
-/

namespace Lfsx.Storage

open Request Files

namespace LocalStore

namespace Call

/-- The repository a call works on. -/
def ns : Call → Namespace
  | write ns _ _ _ _ => ns
  | sweep ns _ _ _ => ns
  | dedupe ns _ => ns
  | compress ns _ => ns

/-- A call brings the bytes of an object. -/
def Gives (sha256 : Bytes → Text) : Call → Oid → Prop
  | write _ oid _ _ chunks, oid' => oid = oid' ∧ sha256 (arriving chunks) = oid.text
  | _, _ => False

/-- What a call brings has no more frames than a container can count. -/
def Brings : Call → Prop
  | write _ _ _ _ chunks => Small (arriving chunks)
  | _ => True

end Call

section

variable {ι : Type} [DecidableEq ι] {crates : Crates}

/-- No content is freed while a thread has a gap on it, and what is read to its end has no
more frames than a container can count. -/
def Spares (_ : ι) (r : Files.Req Text) (w : World ι) : Prop :=
  (∀ oid, r = .unlink (contentPath oid) → ∀ j path, ¬ Gap j path oid w.2) ∧
    ∀ handle f, r = .readAll handle → w.1.file handle = some f → Small f.bytes

/-- What the threads of a server work with. -/
def serving (sha256 : Bytes → Text) (keys : Option (Keyring crates)) (calls : ι → Call)
    (may : Files.Req Text → Prop) (meets : ι → Files.Req Text → World ι → Prop) :
    Setting ι crates where
  sha256 := sha256
  keys := keys
  home i := (calls i).ns
  gives i := (calls i).Gives sha256
  may := may
  meets := meets

/-- The calls are made at once. -/
def start (sha256 : Bytes → Text) (store : LocalStore crates) (calls : ι → Call) (d : Volume) :
    Pool ι (Files.Req Text) Files.Resp (Except Error Unit) (World ι) :=
  ⟨fun i => ((calls i).op sha256 store).run, (d, [])⟩

/-- No staging name that is still to be given out is taken. -/
def Unused (d : Volume) : Prop := ∀ dir oid t, d.ticket ≤ t → d.inode (part dir oid t) = none

end

section

variable {ι : Type} [DecidableEq ι] {crates : Crates} {S : Setting ι crates} {i : ι}
  {sha256 : Bytes → Text} {store : LocalStore crates} {w w' : World ι} {d : Volume}
  {oid : Oid} {path : LocalPath}

theorem Consistent.start {keys : Option (Keyring crates)} (hsound : Sound crates sha256 keys d)
    (hunused : Unused d) : Consistent (ι := ι) crates sha256 keys (d, []) where
  issued _ _ howns := by cases howns
  owner _ _ _ howns := by cases howns
  unused := hunused
  made _ _ hfilling := by cases hfilling
  own _ _ _ hfilling := by cases hfilling
  sound := hsound
  gaps _ _ _ hgap := by cases hgap.2.2

theorem Setting.Fine.start (hsound : Sound crates S.sha256 S.keys d) (hunused : Unused d) :
    S.Fine i (d, []) :=
  ⟨.start hsound hunused, fun _ _ hgap => by cases hgap.2.2⟩

/-- **A call among others.**  A write that succeeded has linked to its object. -/
theorem call_among {call : Call} (lawful : crates.Lawful) (hkeys : store.keys = S.keys)
    (hhome : S.home i = call.ns) (hgives : ∀ oid, call.Gives S.sha256 oid → S.gives i oid)
    (hlinks : S.EntriesLink) (hfrees : S.FreesNoGap) (hreads : S.ReadsCountable)
    (hbrings : call.Brings) (hfine : S.Fine i w) (hfilled : filling i w.2 = none) :
    S.Among i (fun _ w' => ∀ ns oid, call.Writes ns oid → Linked i (objectPath ns oid) w'.2)
      (call.op S.sha256 store) w := by
  have hnone : ∀ {α : Type} {op : Op α} {Q : Unit → World ι → Prop}, (∀ w', Q () w') →
      S.Among i (fun _ _ => True) op w →
      S.Among i Q (do let _ ← op; return ()) w := fun hQ h =>
    Setting.Among.bind h fun _ w' hfine' _ =>
      Setting.Among.pure hfine' (fun _ w'' _ _ => hQ w'') (hQ w')
  cases call with
  | write ns oid expectedSize budget chunks =>
      have hwrite := Setting.write_among expectedSize budget lawful hkeys hlinks (fun hdigest =>
        hgives oid ⟨rfl, hdigest⟩) hbrings hfine hfilled
      rw [hhome] at hwrite
      refine Setting.Among.bind hwrite fun _ w' hfine' hlinked => ?_
      have hall : ∀ ns' oid', (Call.write ns oid expectedSize budget chunks).Writes ns' oid' →
          Linked i (objectPath ns' oid') w'.2 := by
        rintro ns' oid' ⟨⟨horg, hrepo⟩, rfl⟩
        rw [objectPath, ← horg, ← hrepo]
        exact hlinked
      refine Setting.Among.pure hfine' (fun w w' hpasses h ns' oid' hwrites => ?_) hall
      have hpast : S.Steady i fun w => Linked i (objectPath ns' oid') w.2 :=
        Setting.steady_past fun _ _ h => h.cons
      exact hpast w w' hpasses (h ns' oid' hwrites)
  | sweep ns retained grace dryRun =>
      have hsweep : S.Among i (fun _ _ => True) (LocalStore.sweep (S.home i) retained
          grace dryRun) w :=
        Setting.sweep_among hfrees hfine
      rw [hhome] at hsweep
      exact hnone (fun _ _ _ => False.elim) hsweep
  | dedupe ns dryRun =>
      have hdedupe : S.Among i (fun _ _ => True)
          (LocalStore.dedupe S.sha256 (S.home i) dryRun) w :=
        Setting.dedupe_among hlinks hfine hfilled
      rw [hhome] at hdedupe
      exact hnone (fun _ _ _ => False.elim) hdedupe
  | compress ns dryRun =>
      have hcompress : S.Among i (fun _ _ => True)
          (store.compress S.sha256 (S.home i) dryRun) w :=
        Setting.compress_among lawful hkeys hreads hfine hfilled
      rw [hhome] at hcompress
      exact hnone (fun _ _ _ => False.elim) hcompress

/-! ## What stays -/

/-- A repository's path that was named, or linked to, and that the repository has not swept
is named, or is about to be. -/
def Stays (S : Setting ι crates) (d₀ : Volume) (w : World ι) : Prop :=
  ∀ path oid, Entry path oid → path ≠ contentPath oid →
    (∃ h, d₀.inode path = some h) ∨ (∃ i, Linked i path w.2) →
    (∀ i found, HeldBy (S.home i) found → found.path = path → ⟨i, .unlink path, .ok ()⟩ ∉ w.2) →
    (∃ h, w.1.inode path = some h) ∨ ∃ i, Gap i path oid w.2

/-- What a thread may do to a repository's path: it unlinks it, if the path is of its own
repository, or makes it the content. -/
theorem Allowed.loses {keys : Option (Keyring crates)} {home : ι → Namespace}
    {gives : ι → Oid → Prop} {r : Files.Req Text}
    (hallowed : Allowed crates sha256 keys home gives i w r) (hentry : Entry path oid)
    (hne : path ≠ contentPath oid) (hr : r = .unlink path ∨ ∃ target, r = .rename path target) :
    (∃ found, HeldBy (home i) found ∧ found.path = path ∧ r = .unlink path) ∨
      r = .rename path (contentPath oid) := by
  have hcontent : ∀ oid', path ≠ contentPath oid' := by
    rintro oid' rfl
    exact hne (by rw [hentry.unique (.content oid')])
  rcases hr with rfl | ⟨target, rfl⟩
  · generalize hpath : path = p at hallowed
    cases hallowed with
    | look hr => exact hr.elim
    | clean hp => exact absurd hpath (hp.ne_entry hentry)
    | @drop found hheld => exact Or.inl ⟨found, hheld, rfl, rfl⟩
    | @free oid' _ => exact absurd hpath (hcontent oid')
  · generalize hpath : path = p at hallowed
    cases hallowed with
    | look hr => exact hr.elim
    | replace hcomplete _ _ => exact absurd hpath (hcomplete.mine.ne_entry hentry)
    | swap hcomplete => exact absurd hpath (hcomplete.mine.ne_entry hentry)
    | @promote found hheld _ =>
        have hsame := hheld.entry
        rw [← hpath] at hsame
        exact Or.inr (by rw [hentry.unique hsame])

theorem Stays.step {d₀ : Volume} (hlinks : S.EntriesLink) (hdoes : S.Does i w w')
    (hstays : Stays S d₀ w) : Stays S d₀ w' := by
  obtain ⟨hw, r, answer, hasks, hstep, hlog⟩ := hdoes
  obtain ⟨d', past⟩ := w'
  cases hlog
  intro path oid hentry hne hsince hspared
  have hbefore : (∃ h, w.1.inode path = some h) ∨ (∃ j, Gap j path oid w.2) ∨
      ∃ source answer', (⟨i, r, answer⟩ : Event ι (Files.Req Text) Files.Resp) =
        ⟨i, .link source path, answer'⟩ ∧
          (answer' = .ok () ∨ answer' = .error .alreadyExists) := by
    have hold : (∃ h, d₀.inode path = some h) ∨ (∃ j, Linked j path w.2) →
        (∃ h, w.1.inode path = some h) ∨ ∃ j, Gap j path oid w.2 := fun hsince =>
      hstays path oid hentry hne hsince fun j found hheld hpath hmem =>
        hspared j found hheld hpath (List.mem_cons_of_mem _ hmem)
    rcases hsince with hstart | ⟨j, source, answer', hmem, hanswer'⟩
    · exact (hold (Or.inl hstart)).imp_right Or.inl
    · rcases List.mem_cons.mp hmem with he | hmem
      · have hj : j = i := congrArg Event.thread he
        subst hj
        exact Or.inr (Or.inr ⟨source, answer', he.symm, hanswer'⟩)
      · exact (hold (Or.inr ⟨j, source, answer', hmem, hanswer'⟩)).imp_right Or.inl
  rcases hbefore with ⟨h, hpath⟩ | ⟨j, hgap⟩ | ⟨source, answer', he, hanswer'⟩
  · cases hafter : d'.inode path with
    | some k => exact Or.inl ⟨k, rfl⟩
    | none =>
        rcases hasks.allowed.loses hentry hne (hstep.lost hpath hafter) with
          ⟨found, hheld, hfound, rfl⟩ | rfl
        · rcases hstep.unlink with ⟨-, -, rfl, -⟩ | ⟨hnone, -⟩ | ⟨-, -, rfl⟩
          · exact absurd List.mem_cons_self (hspared i found hheld hfound)
          · rw [hpath] at hnone
            cases hnone
          · rw [hpath] at hafter
            cases hafter
        · rcases hstep.rename with ⟨-, -, rfl, -⟩ | ⟨-, -, rfl, -⟩
          · exact Or.inr ⟨i, hentry, hne, newest_cons_self⟩
          · rw [hpath] at hafter
            cases hafter
  · by_cases hij : i = j
    · subst hij
      obtain rfl := hasks.closes path oid hgap
      obtain ⟨h, hcontent⟩ := hw.gaps i path oid hgap
      rcases hstep.link with ⟨k, hk, -, -, rfl⟩ | ⟨-, k, -, hk, -, rfl⟩ | ⟨hnone, -⟩ | ⟨hrefused, -⟩
      · exact Or.inl ⟨k, by show (w.1.link _ _).inode _ = _; rw [Disk.inode_link hk, if_pos rfl]⟩
      · exact Or.inl ⟨k, hk⟩
      · rw [hcontent] at hnone
        cases hnone
      · exact absurd hrefused (hlinks _ _ oid hentry)
    · exact Or.inr ⟨j, (gap_cons_other hij).mpr hgap⟩
  · cases he
    rcases hstep.link with ⟨k, hk, -, -, rfl⟩ | ⟨-, k, -, hk, -, rfl⟩ | ⟨-, rfl, -⟩ |
      ⟨hrefused, -⟩
    · exact Or.inl ⟨k, by show (w.1.link _ _).inode _ = _; rw [Disk.inode_link hk, if_pos rfl]⟩
    · exact Or.inl ⟨k, hk⟩
    · rcases hanswer' with h | h <;> cases h
    · exact absurd hrefused (hlinks _ _ oid hentry)

end

/-- **Nothing is lost.**  What a repository held at the start, or finished writing, and has
not swept itself is there once all have finished, and decodes to its object. -/
theorem nothing_is_lost {ι : Type} [DecidableEq ι] {crates : Crates} (lawful : crates.Lawful)
    (sha256 : Bytes → Text) (store : LocalStore crates) (calls : ι → Call)
    (may : Files.Req Text → Prop) (d : Volume)
    (hlinks : ∀ source target oid, Entry target oid → ¬ may (.link source target))
    (hbrings : ∀ i, (calls i).Brings) (hsound : Sound crates sha256 store.keys d)
    (hunused : Unused d) {pool : Pool ι (Files.Req Text) Files.Resp (Except Error Unit) (World ι)}
    (hsteps : Pool.Steps (restricted Spares (recording fun _ => Faulty may))
      (start sha256 store calls d) pool) (hfinished : pool.Finished) :
    ∀ ns oid, Holds d ns oid ∨ (∃ i, (calls i).Writes ns oid ∧ pool.progs i = .pure (.ok ())) →
      (∀ i, (calls i).ns.Same ns → ⟨i, .unlink (objectPath ns oid), .ok ()⟩ ∉ pool.state.2) →
      ∃ f, pool.state.1.find (objectPath ns oid) = some f ∧
        Decodes crates sha256 store.keys oid f.bytes := by
  let S : Setting ι crates := serving sha256 store.keys calls may Spares
  have hfrees : S.FreesNoGap := fun i oid w hmeets => hmeets.1 oid rfl
  have hreads : S.ReadsCountable := fun i handle w f hmeets => hmeets.2 handle f rfl
  have hunder : (start sha256 store calls d).Under S.exec S.OthersDo S.Does fun i =>
      Fallible.Ends (fun _ w => S.Fine i w ∧ ∀ ns oid, (calls i).Writes ns oid →
        Linked i (objectPath ns oid) w.2) (S.Fine i) := fun i =>
    call_among (S := S) lawful rfl rfl (fun _ h => h) hlinks hfrees hreads (hbrings i)
      (.start hsound hunused) rfl
  have hrely : ∀ i j, i ≠ j → ∀ w w', S.Does i w w' → S.OthersDo j w w' :=
    fun i j hij w w' hdoes => ⟨i, hij, hdoes⟩
  obtain ⟨hconsistent, hstays⟩ : Consistent crates sha256 store.keys pool.state ∧
      Stays S d pool.state := by
    refine Pool.Steps.invariant hrely (I := fun w => Consistent crates sha256 store.keys w ∧
      Stays S d w) (fun i w w' hdoes h => ⟨hdoes.consistent, h.2.step hlinks hdoes⟩) hunder
      ⟨.start hsound hunused, ?_⟩ hsteps
    rintro path oid hentry hne (⟨h, hh⟩ | ⟨i, source, answer, hmem, hanswer⟩) -
    · exact Or.inl ⟨h, hh⟩
    · cases hmem
  have hend := Pool.Steps.under hrely hunder hsteps
  have hnogap : ∀ i path oid, ¬ Gap i path oid pool.state.2 := by
    intro i path oid
    obtain ⟨answer, hi⟩ := hfinished i
    have hpost := hend.post hi
    cases answer with
    | ok _ => exact hpost.1.noGap path oid
    | error e => exact hpost.noGap path oid
  intro ns oid hsince hspared
  have hentry := entry_objectPath ns oid
  have hnamed := hstays (objectPath ns oid) oid hentry (objectPath_ne_contentPath ns oid oid) ?_ ?_
  · rcases hnamed with ⟨h, hh⟩ | ⟨i, hgap⟩
    · obtain ⟨f, hf⟩ := Disk.exists_file hh
      have hfind : pool.state.1.find (objectPath ns oid) = some f := by
        rw [Disk.find_of_inode hh, hf]
      exact ⟨f, hfind, hconsistent.sound _ oid f hentry hfind⟩
    · exact absurd hgap (hnogap i _ _)
  · rcases hsince with ⟨f, hf⟩ | ⟨i, hwrites, hi⟩
    · obtain ⟨h, hh, -⟩ := Disk.find_eq_some.mp hf
      exact Or.inl ⟨h, hh⟩
    · exact Or.inr ⟨i, (hend.post hi).2 ns oid hwrites⟩
  · rintro i found ⟨first, second, hfound⟩ hpath
    refine hspared i ?_
    rw [hpath] at hfound
    obtain ⟨horg, hrest⟩ := List.cons.inj hfound
    exact ⟨horg.symm, (List.cons.inj hrest).1.symm⟩

/-! ## Runs -/

section

variable {ι : Type}

/-- A disk that answers at once, as long as `calm` allows, with what was done written down. -/
def noting (calm : ι → Files.Req Text → World ι → Bool) (i : ι) (r : Files.Req Text)
    (w : World ι) : Option (Files.Resp r × World ι) :=
  if calm i r w then some ((respond r w.1).1, (respond r w.1).2, ⟨i, r, (respond r w.1).1⟩ :: w.2)
  else none

theorem noting_exec {calm : ι → Files.Req Text → World ι → Bool}
    {meets : ι → Files.Req Text → World ι → Prop} {may : Files.Req Text → Prop}
    (hmeets : ∀ i r w, calm i r w = true → meets i r w) (i : ι) (r : Files.Req Text) (w : World ι)
    (answered : Files.Resp r × World ι) (h : noting calm i r w = some answered) :
    restricted meets (recording fun _ => Faulty may) i r w answered.1 answered.2 := by
  rw [noting] at h
  split at h
  · next hcalm =>
      cases h
      exact ⟨hmeets i r w hcalm, respond_faulty may r w.1, rfl⟩
  · cases h

theorem noting_all (may : Files.Req Text → Prop) (i : ι) (r : Files.Req Text) (w : World ι)
    (answered : Files.Resp r × World ι) (h : noting (fun _ _ _ => true) i r w = some answered) :
    recording (fun _ => Faulty may) i r w answered.1 answered.2 := by
  cases h
  exact ⟨respond_faulty may r w.1, rfl⟩

/-- No event unlinks a path. -/
def spared (path : LocalPath) (past : Past ι) : Bool :=
  past.all fun e => match e.req with
    | .unlink p => p != path
    | _ => true

theorem not_mem_of_spared {path : LocalPath} {past : Past ι} (h : spared path past = true) (i : ι) :
    ⟨i, .unlink path, .ok ()⟩ ∉ past := by
  intro hmem
  have hne := List.all_eq_true.mp h _ hmem
  simp at hne

theorem unused_of_names {d : Volume} (named : Oid)
    (h : ∀ e ∈ d.names.entries, e.1.getLast? = some named.text) : Unused d := by
  intro dir oid t _
  by_contra hne
  obtain ⟨i, hi⟩ := Option.ne_none_iff_exists'.mp hne
  have hlast := h ⟨part dir oid t, i⟩ (AList.mem_lookup_iff.mp hi)
  rw [part, List.getLast?_append, List.getLast?_singleton, Option.some_or, Option.some.injEq]
    at hlast
  exact partName_ne_text oid named t hlast

end

/-- `x` in two repositories, as files of their own, and no content. -/
def twice : Volume :=
  (((Disk.empty.add (objectPath .acme x) 0).fill 0 [0x78] 0).add (objectPath .tools x) 0).fill 1
    [0x78] 0

/-- One repository is swept, and the other is deduped. -/
def sweepAndDedupe : Bool → Call
  | true => .sweep .acme ∅ 0 false
  | false => .dedupe .tools false

/-- A check for `Spares`. -/
def sparing (_ : Bool) (r : Files.Req Text) (w : World Bool) : Bool :=
  match r with
  | .unlink path => [true, false].all fun j =>
      match newest j w.2 with
      | some ⟨_, .rename _ target, _⟩ => target != path
      | _ => true
  | .readAll handle =>
      match w.1.file handle with
      | some f => decide (Small f.bytes)
      | none => true
  | _ => true

theorem spares_of_sparing (i : Bool) (r : Files.Req Text) (w : World Bool)
    (h : sparing i r w = true) : Spares i r w := by
  constructor
  · rintro oid rfl j path ⟨-, -, hnewest⟩
    have hj := List.all_eq_true.mp h j (by cases j <;> simp)
    simp [hnewest] at hj
  · rintro handle f rfl hf
    simpa [sparing, hf] using h

theorem nothing_is_lost_twice :
    ∃ pool, Pool.play (noting sparing) (List.replicate 11 false ++ List.replicate 9 true)
        (start digests plain sweepAndDedupe twice) = some pool ∧
      ∃ f, pool.state.1.find (objectPath .tools x) = some f ∧
        Decodes Crates.plain digests none x f.bytes := by
  have hrun : ((Pool.play (noting sparing) (List.replicate 11 false ++ List.replicate 9 true)
      (start digests plain sweepAndDedupe twice)).any fun pool =>
        (pool.progs true).done && (pool.progs false).done &&
          spared (objectPath .tools x) pool.state.2) = true := by decide +kernel
  obtain ⟨pool, hplay, hcheck⟩ := (Option.any_eq_true _ _).mp hrun
  simp only [Bool.and_eq_true] at hcheck
  obtain ⟨⟨hsweep, hdedupe⟩, hspared⟩ := hcheck
  have hfinished : pool.Finished := by
    intro i
    cases i with
    | true => exact Program.eq_pure_of_done hsweep
    | false => exact Program.eq_pure_of_done hdedupe
  refine ⟨pool, hplay, nothing_is_lost Crates.lawful_plain digests plain sweepAndDedupe
    (fun _ => False) twice (fun _ _ _ _ => id) (fun i => by cases i <;> trivial)
    (sound_of_names (by decide +kernel)) (unused_of_names x (by decide +kernel))
    (Pool.play_steps (noting_exec spares_of_sparing) hplay) hfinished .tools x
    (Or.inl ⟨⟨[0x78], 0⟩, by decide +kernel⟩) fun i _ => not_mem_of_spared hspared i⟩

/-- **What a dedupe has just made the content is lost.**  The sweep of one repository frees
it, the link back fails, and the other repository, which nobody swept, has nothing. -/
theorem promoted_is_lost :
    ¬ ∀ (ι : Type) [DecidableEq ι] (crates : Crates) (_ : crates.Lawful) (sha256 : Bytes → Text)
      (store : LocalStore crates) (calls : ι → Call) (d : Volume)
      (pool : Pool ι (Files.Req Text) Files.Resp (Except Error Unit) (World ι)),
      (∀ i, (calls i).Brings) → Sound crates sha256 store.keys d → Unused d →
      Pool.Steps (recording fun _ => Faulty fun _ => False) (start sha256 store calls d) pool →
      pool.Finished →
      ∀ ns oid, Holds d ns oid →
        (∀ i, (calls i).ns.Same ns → ⟨i, .unlink (objectPath ns oid), .ok ()⟩ ∉ pool.state.2) →
        ∃ f, pool.state.1.find (objectPath ns oid) = some f ∧
          Decodes crates sha256 store.keys oid f.bytes := by
  intro hclaim
  have hrun : ((Pool.play (noting fun _ _ _ => true)
      (List.replicate 10 false ++ List.replicate 11 true ++ List.replicate 2 false)
      (start digests plain sweepAndDedupe twice)).any fun pool =>
        (pool.progs true).done && (pool.progs false).done &&
          spared (objectPath .tools x) pool.state.2 &&
          (pool.state.1.find (objectPath .tools x)).isNone) = true := by decide +kernel
  obtain ⟨pool, hplay, hcheck⟩ := (Option.any_eq_true _ _).mp hrun
  simp only [Bool.and_eq_true, Option.isNone_iff_eq_none] at hcheck
  obtain ⟨⟨⟨hsweep, hdedupe⟩, hspared⟩, hnone⟩ := hcheck
  have hfinished : pool.Finished := by
    intro i
    cases i with
    | true => exact Program.eq_pure_of_done hsweep
    | false => exact Program.eq_pure_of_done hdedupe
  have hsteps := Pool.play_steps (noting_all (fun _ => False)) hplay
  obtain ⟨f, hf, -⟩ := hclaim Bool Crates.plain Crates.lawful_plain digests plain sweepAndDedupe
    twice pool (fun i => by cases i <;> trivial) (sound_of_names (by decide +kernel))
    (unused_of_names x (by decide +kernel)) hsteps hfinished .tools x
    ⟨⟨[0x78], 0⟩, by decide +kernel⟩ fun i _ => not_mem_of_spared hspared i
  rw [hnone] at hf
  cases hf

end LocalStore

end Lfsx.Storage
