import Lfsx.Storage.LocalCompress
import Lfsx.Storage.LocalDedupe
import Lfsx.Storage.LocalSweep

/-!
# Maintenance keeps every object

Writes, sweeps, dedupe and compress, one after the other, with the server restarted and its
configuration changed in between as long as no key is lost.  On a volume that was sound
every entry decodes to its object after each of them (`maintenance_keeps`).  A repository
has an object more only by a write of its own, and one less only by a sweep of its own
that was not dry and found it expired.

A server that died may have left a staging file.  A link to its name is taken for made
(`link`), and dedupe then puts what it finds there in the place of a good file
(`dedupe_takes_leftover`).
-/

namespace Lfsx.Storage

open Request Files

namespace LocalStore

/-- What is asked of a store. -/
inductive Call where
  | write (ns : Namespace) (oid : Oid) (expectedSize : Option Nat) (budget : Option Budget)
      (chunks : List (Except String Bytes))
  | sweep (ns : Namespace) (retained : Finset Oid) (grace : Nat) (dryRun : Bool)
  | dedupe (ns : Namespace) (dryRun : Bool)
  | compress (ns : Namespace) (dryRun : Bool)

namespace Call

/-- The operation, without its report. -/
def op {crates : Crates} (sha256 : Bytes → Text) (store : LocalStore crates) : Call → Op Unit
  | write ns oid expectedSize budget chunks => do
      let _ ← store.write sha256 ns oid expectedSize budget chunks
      return ()
  | sweep ns retained grace dryRun => do
      let _ ← LocalStore.sweep ns retained grace dryRun
      return ()
  | dedupe ns dryRun => do
      let _ ← LocalStore.dedupe sha256 ns dryRun
      return ()
  | compress ns dryRun => do
      let _ ← store.compress sha256 ns dryRun
      return ()

def dryRun : Call → Bool
  | write _ _ _ _ _ => false
  | sweep _ _ _ dryRun => dryRun
  | dedupe _ dryRun => dryRun
  | compress _ dryRun => dryRun

/-- No file that is put in a container has more frames than a container can count. -/
def Fits : Call → Volume → Prop
  | write _ _ _ _ chunks, _ => Small (arriving chunks)
  | compress ns _, d => Countable ns d
  | _, _ => True

/-- The call is a write of an object to a repository. -/
def Writes : Call → Namespace → Oid → Prop
  | write ns oid _ _ _, ns', oid' => ns.Same ns' ∧ oid = oid'
  | _, _, _ => False

/-- The call is a sweep of a repository, and not a dry one, which may drop a file at a time. -/
def Drops : Call → Namespace → Oid → File → Nat → Prop
  | sweep ns retained grace dryRun, ns', oid, f, now =>
      ns.Same ns' ∧ dryRun = false ∧ Expired retained grace oid f now
  | _, _, _, _, _ => False

end Call

/-- A repository holds an object. -/
def Holds (d : Volume) (ns : Namespace) (oid : Oid) : Prop :=
  ∃ f, d.find (objectPath ns oid) = some f

section

variable {crates : Crates} (sha256 : Bytes → Text)

/-- A call that succeeded, with nothing beside it. -/
def Completed (store : LocalStore crates) (call : Call) (d d' : Volume) : Prop :=
  call.Fits d ∧ ∃ may, Program.Steps (Clean may) ((call.op sha256 store).run, d)
    (.pure (.ok ()), d')

/-- What may become of a volume: calls that succeed, and time and servers that go by. -/
inductive Reached (keys₀ : Option (Keyring crates)) (d₀ : Volume) :
    Option (Keyring crates) → Volume → Prop
  | start : Reached keys₀ d₀ keys₀ d₀
  | call {keys : Option (Keyring crates)} {d d' : Volume} (store : LocalStore crates)
    (call : Call) :
      Reached keys₀ d₀ keys d → Keeps keys store.keys → Completed sha256 store call d d' →
      Reached keys₀ d₀ store.keys d'
  | wait {keys : Option (Keyring crates)} {d : Volume} (time : Nat) :
      Reached keys₀ d₀ keys d → d.clock ≤ time → Reached keys₀ d₀ keys (d.tick time)
  | restart {keys : Option (Keyring crates)} {d : Volume} :
      Reached keys₀ d₀ keys d → Reached keys₀ d₀ keys { d with ticket := 0 }

/-- What a call leaves. -/
structure Kept (keys : Option (Keyring crates)) (call : Call) (d d' : Volume) : Prop where
  sound : Sound crates sha256 keys d'
  flat : Flat d'
  grown : ∀ ns oid, Holds d' ns oid → Holds d ns oid ∨ call.Writes ns oid
  shrunk : ∀ ns oid f, d.find (objectPath ns oid) = some f → Holds d' ns oid ∨
    ∃ now, d.clock ≤ now ∧ now ≤ d'.clock ∧ call.Drops ns oid f now
  untouched : call.dryRun = true → Untouched d d'

end

section

variable {crates : Crates} {sha256 : Bytes → Text} {store : LocalStore crates}
  {keys : Option (Keyring crates)} {may : Files.Req Text → Prop} {d d' : Volume}
  {ns ns' : Namespace} {oid oid' : Oid}

theorem Sound.keeps {keys' : Option (Keyring crates)} (h : Sound crates sha256 keys d)
    (hkeeps : Keeps keys keys') : Sound crates sha256 keys' d :=
  fun path oid f hentry hfind => (h path oid f hentry hfind).keeps hkeeps

theorem same_of_objectPath (h : objectPath ns oid = objectPath ns' oid') :
    ns.Same ns' ∧ oid = oid' := by
  have hlast := (entry_objectPath ns oid).getLast?
  rw [h, (entry_objectPath ns' oid').getLast?, Option.some.injEq] at hlast
  obtain ⟨horg, hrest⟩ := List.cons.inj h
  exact ⟨⟨horg, (List.cons.inj hrest).1⟩, (Oid.ext hlast).symm⟩

/-- A path that has the same file is held as it was. -/
theorem Holds.of_find (h : d'.find (objectPath ns oid) = d.find (objectPath ns oid))
    (hholds : Holds d' ns oid) : Holds d ns oid := by
  obtain ⟨f, hf⟩ := hholds
  exact ⟨f, by rw [← h, hf]⟩

theorem write_kept {expectedSize : Option Nat} {budget : Option Budget}
    {chunks : List (Except String Bytes)} (hsound : Sound crates sha256 store.keys d)
    (hflat : Flat d) (h : Wrote crates sha256 store.keys ns oid d d') :
    Kept sha256 store.keys (.write ns oid expectedSize budget chunks) d d' := by
  have hwithin : Confined ns d d' := by
    refine fun path hpath => h.others path ?_ ?_ ?_
    · rintro rfl
      exact hpath (.object _ _ oid)
    · rintro rfl
      exact hpath (.content oid)
    · rintro rfl
      exact hpath (.staging _ _ oid d.ticket)
  refine ⟨h.grown.sound hsound, hwithin.flat hflat, fun ns' oid' hholds => ?_,
    fun ns' oid' f hf => Or.inl ?_, fun hdry => by cases hdry⟩
  · by_cases hpath : objectPath ns oid = objectPath ns' oid'
    · exact Or.inr (same_of_objectPath hpath)
    · refine Or.inl (hholds.of_find (h.entries _ oid' (entry_objectPath ns' oid') ?_ ?_))
      · exact fun heq => hpath heq.symm
      · exact objectPath_ne_contentPath ns' oid' oid
  · rcases h.grown _ oid' (entry_objectPath ns' oid') with hsame | ⟨-, f', hf', -⟩
    · exact ⟨f, by rw [hsame, hf]⟩
    · exact ⟨f', hf'⟩

theorem sweep_kept {retained : Finset Oid} {grace : Nat} {dryRun : Bool}
    (hsound : Sound crates sha256 keys d) (hflat : Flat d)
    (h : Dropped ns retained grace dryRun d d') :
    Kept sha256 keys (.sweep ns retained grace dryRun) d d' := by
  refine ⟨h.sound hsound, h.within.flat hflat, fun ns' oid' hholds => Or.inl ?_,
    fun ns' oid' f hf => ?_, fun hdry => ?_⟩
  · rcases h.entries _ oid' (entry_objectPath ns' oid') with hsame | ⟨-, hnone, -⟩
    · exact hholds.of_find hsame
    · obtain ⟨f, hf⟩ := hholds
      rw [hnone] at hf
      cases hf
  · rcases h.entries _ oid' (entry_objectPath ns' oid') with hsame | ⟨hdry, -, hdropped⟩
    · exact Or.inl ⟨f, by rw [hsame, hf]⟩
    · rcases hdropped with hcontent | ⟨⟨first, second, hours⟩, g, now, hg, hle, hle', hexpired⟩
      · exact absurd hcontent (objectPath_ne_contentPath ns' oid' oid')
      · rw [hf, Option.some.injEq] at hg
        subst hg
        obtain ⟨horg, hrest⟩ := List.cons.inj hours
        exact Or.inr ⟨now, hle, hle', ⟨horg.symm, (List.cons.inj hrest).1.symm⟩, hdry, hexpired⟩
  · have hdry' : dryRun = true := hdry
    subst hdry'
    exact h.untouched

theorem dedupe_kept {dryRun : Bool} (hsound : Sound crates sha256 keys d) (hflat : Flat d)
    (h : Shuffled ns d d') (hdry : dryRun = true → Untouched d d') :
    Kept sha256 keys (.dedupe ns dryRun) d d' := by
  refine ⟨h.sound hsound, h.within.flat hflat, fun ns' oid' hholds => Or.inl ?_,
    fun ns' oid' f hf => Or.inl ?_, hdry⟩
  · rcases h.entries _ oid' (entry_objectPath ns' oid') with hsame | ⟨hthere | hcontent, -⟩
    · exact hholds.of_find hsame
    · obtain ⟨i, hi⟩ := hflat.found (entry_objectPath ns' oid') hthere
      obtain ⟨f, hf⟩ := Disk.exists_file hi
      exact ⟨f, by rw [Disk.find_of_inode hi, hf]⟩
    · exact absurd hcontent (objectPath_ne_contentPath ns' oid' oid')
  · rcases h.entries _ oid' (entry_objectPath ns' oid') with hsame | ⟨-, f', hf', -⟩
    · exact ⟨f, by rw [hsame, hf]⟩
    · exact ⟨f', hf'⟩

theorem compress_kept {dryRun : Bool} (hsound : Sound crates sha256 keys d) (hflat : Flat d)
    (h : Rewritten crates sha256 keys ns d d') (hdry : dryRun = true → Untouched d d') :
    Kept sha256 keys (.compress ns dryRun) d d' := by
  refine ⟨h.sound hsound, h.within.flat hflat, fun ns' oid' hholds => Or.inl ?_,
    fun ns' oid' f hf => Or.inl ?_, hdry⟩
  · rcases h.entries _ oid' (entry_objectPath ns' oid') with hsame | ⟨f, -, hf, -⟩
    · exact hholds.of_find hsame
    · exact ⟨f, hf⟩
  · rcases h.entries _ oid' (entry_objectPath ns' oid') with hsame | ⟨-, f', -, hf', -⟩
    · exact ⟨f, by rw [hsame, hf]⟩
    · exact ⟨f', hf'⟩

/-- What is left by an operation is left by it without its report. -/
theorem dropped_report {α : Type} {op : Op α} {Q : Volume → Prop}
    (h : Leaves may (fun _ => Q) op d) :
    Leaves may (fun _ => Q) (do let _ ← op; return ()) d :=
  Fallible.Alone.bind (h.mono (fun _ _ hQ => Fallible.Alone.pure hQ) fun _ h => h)

/-- **A call.** -/
theorem call_leaves (lawful : crates.Lawful) {call : Call} (hfits : call.Fits d)
    (hsound : Sound crates sha256 store.keys d) (hflat : Flat d) :
    Leaves may (fun _ d' => Kept sha256 store.keys call d d') (call.op sha256 store) d := by
  cases call with
  | write ns oid expectedSize budget chunks =>
      have hwrite : Leaves may (fun _ d' => Wrote crates sha256 store.keys ns oid d d')
          (store.write sha256 ns oid expectedSize budget chunks) d :=
        Fallible.Under.mono (Program.Under.weaken (fun _ _ _ => trivial)
          (write_runs lawful hfits hsound)) (fun _ _ h => h) fun _ _ => trivial
      exact dropped_report (hwrite.mono (fun _ _ h => write_kept hsound hflat h) fun _ h => h)
  | sweep ns retained grace dryRun =>
      exact dropped_report (sweep_leaves.mono (fun _ _ h => sweep_kept hsound hflat h) fun _ h => h)
  | dedupe ns dryRun =>
      have hdedupe : Leaves may (fun _ d' => Shuffled ns d d' ∧ (dryRun = true → Untouched d d'))
          (LocalStore.dedupe sha256 ns dryRun) d :=
        dedupe_alone (I := fun _ => True) (fun _ _ _ => trivial) (fun _ _ _ _ => trivial)
          (fun _ _ _ _ _ _ _ _ _ _ => trivial) trivial
      exact dropped_report
        (hdedupe.mono (fun _ _ h => dedupe_kept hsound hflat h.1 h.2) fun _ h => h)
  | compress ns dryRun =>
      exact dropped_report ((compress_leaves lawful hfits).mono
        (fun _ _ h => compress_kept hsound hflat h.1 h.2) fun _ h => h)

theorem Completed.kept (lawful : crates.Lawful) {call : Call}
    (h : Completed sha256 store call d d') (hsound : Sound crates sha256 store.keys d)
    (hflat : Flat d) : Kept sha256 store.keys call d d' := by
  obtain ⟨hfits, may, hsteps⟩ := h
  obtain ⟨-, hunder⟩ := Program.Under.alone (I := fun _ => True) (c := (_, d))
    (fun _ _ _ _ => trivial) (call_leaves lawful hfits hsound hflat) trivial hsteps
  exact hunder d' .refl

/-- Whatever may become of a sound volume is sound. -/
theorem Reached.kept (lawful : crates.Lawful) {keys₀ : Option (Keyring crates)} {d₀ : Volume}
    (h : Reached sha256 keys₀ d₀ keys d) (hsound : Sound crates sha256 keys₀ d₀)
    (hflat : Flat d₀) : Sound crates sha256 keys d ∧ Flat d := by
  induction h with
  | start => exact ⟨hsound, hflat⟩
  | call store call _ hkeeps hcompleted ih =>
      have hkept := hcompleted.kept lawful (ih.1.keeps hkeeps) ih.2
      exact ⟨hkept.sound, hkept.flat⟩
  | wait time _ _ ih => exact ih
  | restart _ ih => exact ih

end

/-- **Maintenance keeps every object.** -/
theorem maintenance_keeps {crates : Crates} (lawful : crates.Lawful) (sha256 : Bytes → Text)
    {keys₀ keys : Option (Keyring crates)} {d₀ d : Volume}
    (hsound : Sound crates sha256 keys₀ d₀) (hflat : Flat d₀)
    (hreached : Reached sha256 keys₀ d₀ keys d) :
    Sound crates sha256 keys d ∧
      ∀ (store : LocalStore crates) call d', Keeps keys store.keys →
        Completed sha256 store call d d' →
          Sound crates sha256 store.keys d' ∧
          (∀ ns oid, Holds d' ns oid → Holds d ns oid ∨ call.Writes ns oid) ∧
          (∀ ns oid f, d.find (objectPath ns oid) = some f → Holds d' ns oid ∨
            ∃ now, d.clock ≤ now ∧ now ≤ d'.clock ∧ call.Drops ns oid f now) ∧
          (call.dryRun = true → Untouched d d') := by
  obtain ⟨hsound', hflat'⟩ := hreached.kept lawful hsound hflat
  refine ⟨hsound', fun store call d' hkeeps hcompleted => ?_⟩
  have hkept := hcompleted.kept lawful (hsound'.keeps hkeeps) hflat'
  exact ⟨hkept.sound, hkept.grown, hkept.shrunk, hkept.untouched⟩

theorem flat_of_names {d : Volume} (h : ∀ e ∈ d.names.entries,
    e.1.length ≤ 5 ∧ (e.1.head? = some ".content".toList → e.1.length ≤ 4)) : Flat d := by
  intro path oid hentry name rest
  by_contra hne
  obtain ⟨i, hi⟩ := Option.ne_none_iff_exists'.mp hne
  obtain ⟨hlength, hcontent⟩ := h ⟨path ++ name :: rest, i⟩ (AList.mem_lookup_iff.mp hi)
  cases hentry with
  | held org repo first second oid =>
      simp only [List.length_append, List.length_cons, List.length_nil] at hlength
      omega
  | content oid =>
      have hshort := hcontent rfl
      simp only [contentPath, List.length_append, List.length_cons, List.length_nil] at hshort
      omega

/-- A call that was run and has succeeded. -/
theorem eq_ok_of_result {p : Program (Files.Req Text) Files.Resp (Except Error Unit)}
    (h : p.result.map Except.isOk = some true) : p = .pure (.ok ()) := by
  obtain ⟨answer, hanswer, hok⟩ := Option.map_eq_some_iff.mp h
  cases answer with
  | error e => cases hok
  | ok _ => exact Program.eq_pure_of_result hanswer

/-- What a call that succeeds leaves. -/
def ran (call : Call) (d : Volume) : Option Volume :=
  (Program.advance respondFree 60 ((call.op digests plain).run, d)).bind fun c =>
    if c.1.result.map Except.isOk = some true then some c.2 else none

theorem completed_of_ran {call : Call} {d d' : Volume} (hfits : call.Fits d)
    (h : ran call d = some d') : Completed digests plain call d d' := by
  obtain ⟨⟨p, d''⟩, hc, h⟩ := Option.bind_eq_some_iff.mp h
  obtain ⟨hok, hsame⟩ := Option.ite_none_right_eq_some.mp h
  have hp : p = .pure (.ok ()) := eq_ok_of_result hok
  obtain rfl := Option.some.inj hsame
  subst hp
  exact ⟨hfits, _, Program.advance_steps (respondFree_clean fun _ => False) hc⟩

/-- A dedupe of a repository, a push of its object by another one, and a sweep that drops it. -/
def oneByOne : Option Volume :=
  ((ran (.dedupe .acme false) apart).bind (ran (.write .tools x none none [.ok [0x78]]))).bind
    (ran (.sweep .acme ∅ 0 false))

/-- The repository that was swept holds the object no more, and the other one holds it whole. -/
theorem maintenance_keeps_shared :
    ∃ d, oneByOne = some d ∧ Sound Crates.plain digests none d ∧
      d.find (objectPath .acme x) = none ∧ d.find (objectPath .tools x) = some ⟨[0x78], 0⟩ := by
  have hsound : Sound Crates.plain digests none apart := sound_of_names (by decide +kernel)
  have hflat : Flat apart := flat_of_names (by decide +kernel)
  have hend : oneByOne.map (fun d => (d.find (objectPath .acme x), d.find (objectPath .tools x))) =
      some (none, some ⟨[0x78], 0⟩) := by decide +kernel
  obtain ⟨d, hd, hfound⟩ := Option.map_eq_some_iff.mp hend
  obtain ⟨hacme, htools⟩ := Prod.mk.inj hfound
  obtain ⟨d₂, hwrites, hsweeps⟩ := Option.bind_eq_some_iff.mp hd
  obtain ⟨d₁, hdedupes, hwrites⟩ := Option.bind_eq_some_iff.mp hwrites
  have hfits : (Call.write .tools x none none [.ok [0x78]]).Fits d₁ :=
    show Small (arriving [.ok [0x78]]) by decide
  have hdeduped : Completed digests plain _ apart d₁ := completed_of_ran (by trivial) hdedupes
  have hwritten : Completed digests plain _ d₁ d₂ := completed_of_ran hfits hwrites
  have hswept : Completed digests plain _ d₂ d := completed_of_ran (by trivial) hsweeps
  have hreached : Reached digests none apart none d₂ :=
    .call plain _ (.call plain _ .start (.refl _) hdeduped) (.refl _) hwritten
  have hkept := (maintenance_keeps Crates.lawful_plain digests hsound hflat hreached).2 plain _ d
    (.refl _) hswept
  exact ⟨d, hd, hkept.1, hacme, htools⟩

/-- `x` in a repository and as content, beside a staging file with `y` in it. -/
def beset : Volume := (apart.add (nextPart .empty .acme x) 0).fill 2 [0x79] 0

/-- **Dedupe takes a staging file that was left behind for a link to the content.**  The
repository had `x` and has `y`. -/
theorem dedupe_takes_leftover :
    Sound Crates.plain digests none beset ∧ Flat beset ∧
      ∃ d', Program.Steps (Faulty fun _ => False)
          (((Call.dedupe .acme false).op digests plain).run, beset) (.pure (.ok ()), d') ∧
        d'.find (objectPath .acme x) = some ⟨[0x79], 0⟩ ∧
        ¬ Sound Crates.plain digests none d' := by
  have hend : ((Program.advance (fun r d => some (respond r d)) 20
      (((Call.dedupe .acme false).op digests plain).run, beset)).map fun c =>
        (c.1.result.map Except.isOk, c.2.find (objectPath .acme x))) =
      some (some true, some ⟨[0x79], 0⟩) := by decide +kernel
  obtain ⟨⟨p, d'⟩, hc, hboth⟩ := Option.map_eq_some_iff.mp hend
  obtain ⟨hok, hfind⟩ := Prod.ext_iff.mp hboth
  have hsteps := Program.advance_steps (respond_some fun _ => False) hc
  have hp : p = .pure (.ok ()) := eq_ok_of_result hok
  subst hp
  refine ⟨sound_of_names (by decide +kernel), flat_of_names (by decide +kernel), d', hsteps, hfind,
    fun hsound => ?_⟩
  obtain ⟨bytes, hdigest, hopens⟩ := hsound _ x _ (entry_objectPath .acme x) hfind
  have hy : bytes = [0x79] :=
    hopens.raw (Framed.open_file_of_not_header (header?_of_not_collides rfl) none x)
  rw [hy] at hdigest
  exact absurd hdigest (by decide)

end LocalStore

end Lfsx.Storage
