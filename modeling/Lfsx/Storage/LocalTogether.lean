import Lfsx.Storage.LocalAmong
import Lfsx.Storage.LocalSweep

/-!
# Operations on a shared volume

What `write`, `sweep`, `dedupe` and `compress` ask of a volume that others work on is
`Allowed`, and each of them leaves no gap behind.  A write that succeeded has linked to the
path of its object (`Linked`).

Staging files are filled and named here as on a volume that nobody else works on, but what
is known of them is only what is `Steady`.
-/

namespace Lfsx.Storage

open Request Files
open Program (Stable)

namespace LocalStore

/-- A thread has linked to a path, or found a file there. -/
def Linked {ι : Type} (i : ι) (path : LocalPath) (past : Past ι) : Prop :=
  ∃ source answer, ⟨i, .link source path, answer⟩ ∈ past ∧
    (answer = .ok () ∨ answer = .error .alreadyExists)

theorem Linked.cons {ι : Type} {i : ι} {path : LocalPath} {past : Past ι}
    {e : Event ι (Files.Req Text) Files.Resp} (h : Linked i path past) :
    Linked i path (e :: past) := by
  obtain ⟨source, answer, he, hanswer⟩ := h
  exact ⟨source, answer, List.mem_cons_of_mem _ he, hanswer⟩

/-- What one thread knows of its staging file before it fills it. -/
structure Fresh {ι : Type} [DecidableEq ι] (i : ι) (p : LocalPath) (w : World ι) : Prop where
  mine : Mine i p w.2
  unnamed : w.1.inode p = none
  filled : filling i w.2 = none

/-- A staging file that its thread is filling. -/
structure Filling {ι : Type} [DecidableEq ι] (i : ι) (p : LocalPath) (handle : Nat)
    (w : World ι) : Prop where
  mine : Mine i p w.2
  named : w.1.inode p = some handle
  filling : filling i w.2 = some handle

/-- A staging file that its thread has filled. -/
structure Full {ι : Type} [DecidableEq ι] (i : ι) (p : LocalPath) (bytes : Files.Bytes)
    (w : World ι) : Prop where
  mine : Mine i p w.2
  filled : filling i w.2 = none
  holds : ∃ f, w.1.find p = some f ∧ f.bytes = bytes

namespace Setting

variable {ι : Type} [DecidableEq ι] {crates : Crates} {S : Setting ι crates} {i : ι}
  {w : World ι} {A B : World ι → Prop} {p path dir : LocalPath} {oid : Oid} {h : Nat}
  {ε β : Type} {Q : β → World ι → Prop}

theorem steady_fresh : S.Steady i (Fresh i p) := by
  rintro w w' hpasses ⟨hp, hnone, hfilled⟩
  obtain ⟨hp', hnone'⟩ := steady_unnamed w w' hpasses ⟨hp, hnone⟩
  exact ⟨hp', hnone', steady_filling w w' hpasses hfilled⟩

theorem steady_filling_file : S.Steady i (Filling i p h) := by
  rintro w w' hpasses ⟨hp, hh, hfilling⟩
  obtain ⟨hp', hh'⟩ := steady_named w w' hpasses ⟨hp, hh⟩
  exact ⟨hp', hh', steady_filling w w' hpasses hfilling⟩

theorem steady_full {bytes : Files.Bytes} : S.Steady i (Full i p bytes) := by
  rintro w w' hpasses ⟨hp, hfilled, f, hf, hbytes⟩
  obtain ⟨hp', hf'⟩ := steady_staged w w' hpasses ⟨hp, hf⟩
  exact ⟨hp', steady_filling w w' hpasses hfilled, f, hf', hbytes⟩

theorem steady_true : S.Steady i fun _ => True := fun _ _ _ _ => trivial

/-! ## Staging files -/

/-- A number is handed out, and nothing has the name that goes with it. -/
theorem stagingPath_among {f : LocalPath → Op β} (hfine : S.Fine i w)
    (hfilled : filling i w.2 = none) (hA : S.Steady i A) (ha : A w)
    (hf : ∀ t w', S.Fine i w' → Fresh i (part dir oid t) w' → A w' →
      S.Among i Q (f (part dir oid t)) w') :
    S.Among i Q (stagingPath dir oid >>= f) w := by
  rw [stagingPath, bind_assoc]
  refine Among.certain hfine (steady_filling.and hA) ⟨hfilled, ha⟩ (serves_looks (by trivial)
    (steady_filling.and hA) fun w answer d' hfine _ _ hstep hfine' ha' => ?_)
  obtain ⟨rfl, rfl⟩ := hstep.ticket
  refine hf _ _ hfine' ⟨⟨dir, oid, _, rfl, List.mem_cons_self⟩, ?_, ha'.1⟩ ha'.2
  exact hfine.consistent.unused dir oid _ (le_refl _)

/-- The staging file is created. -/
theorem serves_create {P : Except Refused Nat → World ι → Prop}
    (hA : ∀ w, A w → Fresh i p w ∧ B w)
    (hkept : ∀ w d' answer, S.Fine i w → B w →
      Allowed crates S.sha256 S.keys S.home S.gives i w (.create p) →
      Faulty S.may (.create p) w.1 answer d' → B (d', ⟨i, .create p, answer⟩ :: w.2))
    (hok : ∀ handle w', S.Fine i w' → Filling i p handle w' → B w' → P (.ok handle) w')
    (herror : ∀ e w', S.Fine i w' → Mine i p w'.2 → P (.error e) w') :
    S.Serves i A (.create p) P := by
  have hallowed : ∀ w, S.Fine i w → A w → S.meets i (.create p) w →
      Allowed crates S.sha256 S.keys S.home S.gives i w (.create p) :=
    fun w _ ha _ => .create (hA w ha).1.mine (hA w ha).1.unnamed
  refine serves_own hallowed (fun _ _ _ _ h => by cases h) fun w answer d' hfine ha hmeets hstep
    hfine' => ?_
  obtain ⟨hfresh, hb⟩ := hA w ha
  have hb' := hkept w d' answer hfine hb (hallowed w hfine ha hmeets) hstep
  rcases hstep.create with ⟨j, time, hj, -, -, -⟩ | ⟨time, -, rfl, -, rfl⟩ | ⟨-, rfl, rfl⟩
  · rw [hfresh.unnamed] at hj
    cases hj
  · refine hok _ _ hfine' ⟨hfresh.mine.cons, ?_, filling_create⟩ hb'
    show (w.1.add p time).inode p = _
    rw [Disk.inode_add, if_pos rfl]
  · exact herror _ _ hfine' hfresh.mine.cons

/-- The staging file is filled. -/
theorem serves_write {bytes : Files.Bytes} {P : Except Refused Unit → World ι → Prop}
    (hA : ∀ w, A w → Filling i p h w)
    (hok : ∀ w', S.Fine i w' → Full i p bytes w' → Sent i w'.2 → P (.ok ()) w')
    (herror : ∀ e w', S.Fine i w' → Mine i p w'.2 → P (.error e) w') :
    S.Serves i A (.write h bytes) P := by
  refine serves_own (fun w _ ha _ => .fill (hA w ha).filling) (fun _ _ _ _ h => by cases h)
    fun w answer d' hfine ha hmeets hstep hfine' => ?_
  obtain ⟨hmine, hnamed, -⟩ := hA w ha
  rcases hstep.write with ⟨rfl, time, -, rfl⟩ | ⟨-, rfl, -⟩
  · refine hok _ hfine' ⟨hmine.cons, filling_write, ⟨bytes, time⟩, ?_, rfl⟩ ?_
    · exact Disk.find_fill_self hnamed
    · exact ⟨h, bytes, List.mem_cons_self⟩
  · exact herror _ _ hfine' hmine.cons

/-- A staging file is removed, whatever comes of it. -/
theorem unlink_among {f : Except Refused Unit → Op β} (hfine : S.Fine i w) (hmine : Mine i p w.2)
    (hfilled : filling i w.2 = none)
    (hf : ∀ answer w', S.Fine i w' → filling i w'.2 = none → S.Among i Q (f answer) w') :
    S.Among i Q ((removeFile p).caught >>= f) w := by
  refine Acts.caught hfine (steady_mine.and steady_filling) ⟨hmine, hfilled⟩
    (serves_own (fun w _ ha _ => .clean ha.1) (fun _ _ _ _ h => by cases h)
      fun w answer d' _ ha _ _ hfine' => hf _ _ hfine' ?_)
  rw [filling_cons rfl, ha.2]

theorem giveUp_among {α : Type} {Q : α → World ι → Prop} {e : Error} (hfine : S.Fine i w)
    (hmine : Mine i p w.2) : S.Among i Q (giveUp p e) w :=
  Acts.caught hfine steady_mine hmine (serves_own (fun _ _ ha _ => .clean ha)
    (fun _ _ _ _ h => by cases h) fun _ _ _ _ _ _ _ hfine' => Among.throw hfine')

theorem discard_among {f : Unit → Op β} (hfine : S.Fine i w) (hmine : Mine i p w.2)
    (hfilled : filling i w.2 = none)
    (hf : ∀ w', S.Fine i w' → filling i w'.2 = none → S.Among i Q (f ()) w') :
    S.Among i Q (discard p >>= f) w := by
  rw [discard, bind_assoc]
  exact unlink_among hfine hmine hfilled fun _ w' hfine' hfilled' => hf w' hfine' hfilled'

/-! ## Links -/

/-- What is known of every answer is known of a value. -/
theorem Among.ofRuns {P : Except ε β → World ι → Prop} {op : Act ε β}
    (h : S.Acts i (fun answer w' => S.Fine i w' ∧ P answer w') op w)
    (hP : ∀ b w', S.Fine i w' ∧ P (.ok b) w' → Q b w') : S.Among i Q op w := by
  refine Program.Under.mono h fun answer w' hends => ?_
  cases answer with
  | ok b => exact ⟨hends.1, hP b w' hends⟩
  | error e => exact hends.1

/-- A link to an entry, where it is not refused, keeps what is steady. -/
theorem link_runs {source target : LocalPath} (hentry : Entry target oid)
    (hmay : ¬ S.may (.link source target)) (hfine : S.Fine i w) (hA : S.Steady i A) (ha : A w)
    (hallowed : ∀ w, S.Fine i w → A w →
      Allowed crates S.sha256 S.keys S.home S.gives i w (.link source target)) :
    S.Acts i (fun answer w' => S.Fine i w' ∧ A w' ∧ (answer = .ok () → Linked i target w'.2))
      (link source target) w := by
  have hpast : S.Steady i fun w => Linked i target w.2 := steady_past fun _ _ h => h.cons
  have hstable : ∀ answer : Except Refused Unit, Stable (S.OthersDo i) fun w' =>
      S.Fine i w' ∧ A w' ∧ (answer = .ok () → Linked i target w'.2) :=
    fun answer w w' hothers h => ⟨steady_fine.stable w w' hothers h.1,
      hA.stable w w' hothers h.2.1, fun hok => hpast.stable w w' hothers (h.2.2 hok)⟩
  refine Acts.caught hfine hA ha (serves_calm ⟨oid, hentry⟩ hA
    (fun w hfine ha _ => hallowed w hfine ha) fun w answer d' _ _ _ hstep hfine' ha' => ?_)
  rcases hstep.link with ⟨-, -, -, rfl, -⟩ | ⟨-, -, -, -, rfl, -⟩ | ⟨-, rfl, -⟩ | ⟨hrefused, -⟩
  · exact Program.Under.pure (hstable (.ok ())) ⟨hfine', ha',
      fun _ => ⟨source, _, List.mem_cons_self, Or.inl rfl⟩⟩
  · exact Program.Under.pure (hstable (.ok ())) ⟨hfine', ha',
      fun _ => ⟨source, _, List.mem_cons_self, Or.inr rfl⟩⟩
  · exact Program.Under.pure (hstable (.error .notFound)) ⟨hfine', ha', fun h => by cases h⟩
  · exact absurd hrefused hmay

/-- A copy of the content under a staging name. -/
theorem copy_among (hfine : S.Fine i w) (hfresh : Fresh i p w) :
    S.Among i (fun _ => Complete crates S.sha256 S.keys i p oid) (copy (contentPath oid) p) w := by
  rw [copy]
  refine Among.asked hfine steady_fresh hfresh (serves_looks (by trivial) steady_fresh
    fun w answer d' hfine _ _ hstep hfine' hfresh' => ⟨hfine', ?_⟩)
  rintro reader rfl
  obtain ⟨rfl, hcases⟩ := hstep.openFile
  rcases hcases with ⟨j, hj, heq⟩ | ⟨-, heq⟩ | ⟨-, heq⟩ <;> cases heq
  obtain ⟨f, hf⟩ := Disk.exists_file hj
  have hdecodes : Decodes crates S.sha256 S.keys oid f.bytes :=
    hfine.consistent.sound _ oid f (.content oid) (by rw [Disk.find_of_inode hj, hf])
  have hsettled : Settled reader f (w.1, ⟨i, .openFile (contentPath oid), .ok reader⟩ :: w.2) :=
    hfine'.consistent.settledEntry (.content oid) hj hf
  refine Among.asked hfine' (steady_fresh.and steady_settled) ⟨hfresh', hsettled⟩
    (serves_create (B := Settled reader f) (fun w ha => ha) ?_ (fun handle w' hfine' hfilling
      hsettled' => ⟨hfine', ?_⟩) fun e w' hfine' _ => ⟨hfine', by rintro _ ⟨⟩⟩)
  · exact fun w d' answer _ hsettled hallowed hstep => hsettled.step hallowed hstep
  rintro _ ⟨⟩
  refine Among.asked hfine' (steady_filling_file.and steady_settled) ⟨hfilling, hsettled'⟩
    (serves_looks (by trivial) (steady_filling_file.and steady_settled)
      fun w answer d' _ ha _ hstep hfine' ha' => ⟨hfine', ?_⟩)
  rintro bytes rfl
  obtain ⟨rfl, hcases⟩ := hstep.readAll
  have hbytes : bytes = f.bytes := by
    rcases hcases with ⟨g, hg, heq⟩ | heq <;> cases heq
    rw [ha.2.file, Option.some.injEq] at hg
    rw [hg]
  subst hbytes
  rw [← bind_pure (Files.write handle f.bytes)]
  refine Among.asked hfine' steady_filling_file ha'.1 (serves_write (fun w ha => ha)
    (fun w' hfine' hfull _ => ⟨hfine', ?_⟩) fun e w' hfine' _ => ⟨hfine', by rintro _ ⟨⟩⟩)
  rintro _ ⟨⟩
  obtain ⟨g, hg, hgbytes⟩ := hfull.holds
  exact Among.pure hfine' steady_complete
    ⟨hfull.mine, hfull.filled, g, hg, by rw [hgbytes]; exact hdecodes⟩

/-- The content under a staging name: a link to it, or a copy. -/
theorem linkStaged_among (oid : Oid) (hfine : S.Fine i w) (hfresh : Fresh i p w) :
    S.Among i (fun _ => Complete crates S.sha256 S.keys i p oid) (link (contentPath oid) p) w := by
  have hpromotes : ∀ path oid', Entry path oid' → path ≠ contentPath oid' →
      Files.Req.link (contentPath oid) p ≠ .rename path (contentPath oid') :=
    fun _ _ _ _ h => by cases h
  refine Acts.caught hfine steady_fresh hfresh (serves_own
    (fun w _ ha _ => .stage ha.mine ha.unnamed) hpromotes
    fun w answer d' hfine hfresh _ hstep hfine' => ?_)
  have hfilled : filling i (⟨i, .link (contentPath oid) p, answer⟩ :: w.2) = none := by
    rw [filling_cons rfl, hfresh.filled]
  rcases hstep.link with ⟨j, hj, -, rfl, rfl⟩ | ⟨-, k, -, hk, -, -⟩ | ⟨-, rfl, rfl⟩ |
    ⟨-, -, -, rfl, rfl⟩
  · obtain ⟨f, hf⟩ := Disk.exists_file hj
    refine Among.pure hfine' steady_complete ⟨hfresh.mine.cons, hfilled, f, ?_, ?_⟩
    · show (w.1.link (contentPath oid) p).find p = some f
      rw [Disk.find_link hj, if_pos rfl, hf]
    · exact hfine.consistent.sound _ oid f (.content oid) (by rw [Disk.find_of_inode hj, hf])
  · rw [hfresh.unnamed] at hk
    cases hk
  · exact Among.throw hfine'
  · exact copy_among hfine' ⟨hfresh.mine.cons, hfresh.unnamed, hfilled⟩

/-- A complete staging file over an entry. -/
theorem rename_among {K : Past ι → Prop} {target : LocalPath} {f : Unit → Op β}
    (hfine : S.Fine i w) (hA : S.Steady i A) (ha : A w)
    (hcomplete : ∀ w, A w → Complete crates S.sha256 S.keys i p oid w)
    (hallowed : ∀ w, A w → Allowed crates S.sha256 S.keys S.home S.gives i w (.rename p target))
    (hK : ∀ e past, K past → K (e :: past)) (hk : ∀ w, A w → K w.2)
    (hf : ∀ w', S.Fine i w' → filling i w'.2 = none → K w'.2 → S.Among i Q (f ()) w') :
    S.Among i Q (io (Files.rename p target) >>= f) w := by
  refine Among.mapped hfine hA ha (serves_own (fun w _ ha _ => hallowed w ha) ?_
    fun w answer d' _ ha _ _ hfine' => ⟨hfine', ?_⟩)
  · intro path oid' hentry _ heq
    have hp : path = p := (Req.rename.inj heq).1.symm
    exact (hcomplete w ha).mine.ne_entry hentry hp
  · rintro _ -
    refine hf _ hfine' ?_ (hK _ _ (hk w ha))
    rw [filling_cons rfl, (hcomplete w ha).filled]

/-! ## Writing -/

variable {store : LocalStore crates}

/-- A key to seal with, which the keyring holds. -/
theorem writingKey_among {f : Option ObjectKey → Op β} (hfine : S.Fine i w) (hA : S.Steady i A)
    (ha : A w)
    (hf : ∀ key w', S.Fine i w' → A w' → Unseals store.keys key → S.Among i Q (f key) w') :
    S.Among i Q (writingKey store.keys >>= f) w := by
  cases hkeys : store.keys with
  | none => exact hf none w hfine ha fun k hk => by cases hk
  | some ring =>
      rw [writingKey, bind_assoc]
      refine Among.certain hfine hA ha (serves_looks (by trivial) hA
        fun w salt d' _ _ _ _ hfine' ha' => hf _ _ hfine' ha' ?_)
      rw [hkeys]
      exact unseals_writing ring salt

/-- The sink of a transfer and the key it seals with. -/
theorem sinkFor_among {f : Sink → Op β} (hfine : S.Fine i w) (hA : S.Steady i A) (ha : A w)
    (hf : ∀ level key sink w', S.Fine i w' → A w' → Unseals store.keys key →
      Sink.Took crates level key oid [] sink →
        (∀ file, sink = .raw file → Codec.sniff ≤ file.length) →
      S.Among i Q (f sink) w') :
    S.Among i Q (store.sinkFor oid >>= f) w := by
  have hframed : S.Among i Q (do
      let key ← writingKey store.keys
      f (.framed (Writer.start store.compression key oid))) w :=
    writingKey_among hfine hA ha fun key w' hfine' ha' hkey =>
      hf store.compression key _ w' hfine' ha' hkey
        (.framed (show ([] : List Bytes).flatten = [] from rfl) rfl)
        fun file hfile => by cases hfile
  rw [sinkFor]
  cases hlevel : store.compression with
  | none =>
      rw [hlevel] at hframed
      cases hkeys : store.keys with
      | none =>
          refine hf none none _ w hfine ha (fun k hk => by cases hk)
            (.undecided rfl rfl (by decide)) ?_
          exact fun file hfile => by cases hfile
      | some ring =>
          rw [hkeys] at hframed
          exact hframed
  | some level =>
      rw [hlevel] at hframed
      cases hkeys : store.keys with
      | none =>
          rw [hkeys] at hframed
          exact hframed
      | some ring =>
          rw [hkeys] at hframed
          exact hframed

/-- What a transfer that went through leaves in its staging file. -/
structure Transferred (i : ι) (store : LocalStore crates) (oid : Oid) (plain : Bytes)
    (p : LocalPath) (answer : Text × Nat) (sha256 : Bytes → Text) (w : World ι) : Prop where
  full : ∃ bytes, Full i p bytes w ∧ Opens crates store.keys oid bytes plain
  digest : answer.1 = sha256 plain
  sent : Sent i w.2

theorem steady_transferred {plain : Bytes} {answer : Text × Nat} {sha256 : Bytes → Text} :
    S.Steady i (Transferred i store oid plain p answer sha256) := by
  rintro w w' hpasses ⟨⟨bytes, hfull, hopens⟩, hdigest, hsent⟩
  exact ⟨⟨bytes, steady_full w w' hpasses hfull, hopens⟩, hdigest,
    steady_sent w w' hpasses hsent⟩

theorem streamTo_among {chunks : List (Except String Bytes)} {budget : Option Budget}
    (lawful : crates.Lawful) (hsmall : Small (arriving chunks)) (hfine : S.Fine i w)
    (hfresh : Fresh i p w) :
    S.Among i (fun answer => Transferred i store oid (arriving chunks) p answer S.sha256)
      (store.streamTo S.sha256 p oid budget chunks) w := by
  rw [streamTo]
  refine Among.mapped hfine steady_fresh hfresh (serves_create (B := fun _ => True)
    (fun w ha => ⟨ha, trivial⟩) (fun _ _ _ _ _ _ _ => trivial)
    (fun handle w' hfine' hfilling _ => ⟨hfine', ?_⟩)
    fun e w' hfine' _ => ⟨hfine', by rintro _ ⟨⟩⟩)
  rintro _ ⟨⟩
  refine sinkFor_among hfine' steady_filling_file hfilling
    fun level key sink w' hfine' hfilling hkey htook hraw => ?_
  refine Fallible.Under.ofExcept steady_fine.stable (fun received hreceived => ?_)
    fun _ _ => hfine'
  obtain ⟨htaken, htook'⟩ := receive_eq_ok htook hraw hreceived
  rw [List.nil_append] at htaken
  refine Fallible.Under.ofExcept steady_fine.stable (fun bytes hbytes => ?_) fun _ _ => hfine'
  rw [htaken] at htook' ⊢
  have hopens := htook'.finish lawful hbytes hsmall hkey
  refine Among.mapped hfine' steady_filling_file hfilling (serves_write (fun w ha => ha)
    (fun w' hfine' hfull hsent => ⟨hfine', ?_⟩) fun e w' hfine' _ => ⟨hfine', by rintro _ ⟨⟩⟩)
  rintro _ -
  exact Among.pure hfine' steady_transferred ⟨⟨bytes, hfull, hopens⟩, rfl, hsent⟩

/-- What a transfer that was admitted leaves. -/
structure Checked (S : Setting ι crates) (i : ι) (ns : Namespace) (oid : Oid) (staged : Staged)
    (w : World ι) : Prop where
  complete : Complete crates S.sha256 S.keys i staged.path oid w
  destination : staged.destination = objectPath ns oid
  gives : S.gives i oid
  sent : Sent i w.2

theorem steady_checked {ns : Namespace} {staged : Staged} :
    S.Steady i (Checked S i ns oid staged) := by
  rintro w w' hpasses ⟨hcomplete, hdestination, hgives, hsent⟩
  exact ⟨steady_complete w w' hpasses hcomplete, hdestination, hgives,
    steady_sent w w' hpasses hsent⟩

theorem Transferred.complete {plain : Bytes} {answer : Text × Nat}
    (h : Transferred i store oid plain p answer S.sha256 w) (hkeys : store.keys = S.keys)
    (hdigest : answer.1 = oid.text) : Complete crates S.sha256 S.keys i p oid w := by
  obtain ⟨⟨bytes, ⟨hmine, hfilled, f, hf, rfl⟩, hopens⟩, hanswer, -⟩ := h
  rw [hkeys] at hopens
  exact ⟨hmine, hfilled, f, hf, plain, hanswer.symm.trans hdigest, hopens⟩

theorem agrees_eq_ok {expectedSize : Option Nat} {digest : Text} {written : Nat}
    (h : agrees oid expectedSize digest written = .ok ()) : digest = oid.text := by
  rw [agrees] at h
  split at h
  · cases h
  · split at h
    · next hdigest => exact hdigest
    · cases h

/-- **A transfer.** -/
theorem stage_among {ns : Namespace} {expectedSize : Option Nat} {budget : Option Budget}
    {chunks : List (Except String Bytes)} (lawful : crates.Lawful) (hkeys : store.keys = S.keys)
    (hgives : S.sha256 (arriving chunks) = oid.text → S.gives i oid)
    (hsmall : Small (arriving chunks)) (hfine : S.Fine i w) (hfilled : filling i w.2 = none) :
    S.Among i (Checked S i ns oid) (store.stage S.sha256 ns oid expectedSize budget chunks) w := by
  rw [stage]
  split
  · exact Among.throw hfine
  refine Among.mapped hfine steady_filling hfilled (serves_looks (by trivial) steady_filling
    fun w answer d' _ _ _ _ hfine' hfilled' => ⟨hfine', ?_⟩)
  rintro _ -
  refine Acts.caught hfine' steady_filling hfilled' (serves_looks (by trivial) steady_filling
    fun w answer d' _ _ _ _ hfine' hfilled' => ?_)
  refine stagingPath_among hfine' hfilled' steady_true trivial fun t w' hfine' hfresh _ => ?_
  refine Among.attempt (fun _ _ => Mine.cons) (streamTo_among lawful hsmall hfine' hfresh)
    hfresh.mine ?_ fun e w' hfine' hmine => giveUp_among hfine' hmine
  rintro ⟨digest, written⟩ w' hfine' htransferred hmine
  cases hagrees : agrees oid expectedSize digest written with
  | error e =>
      simp only [hagrees]
      exact giveUp_among hfine' hmine
  | ok _ =>
  simp only [hagrees]
  refine Among.mapped hfine' steady_transferred htransferred (serves_looks (by trivial)
    steady_transferred fun w answer d' _ _ _ _ hfine' htransferred => ⟨hfine', ?_⟩)
  rintro stored -
  have hdigest := agrees_eq_ok hagrees
  exact Among.pure hfine' steady_checked ⟨htransferred.complete hkeys hdigest, rfl,
    hgives (htransferred.digest.symm.trans hdigest), htransferred.sent⟩

/-- Links onto entries are not refused. -/
def EntriesLink (S : Setting ι crates) : Prop :=
  ∀ source target oid, Entry target oid → ¬ S.may (.link source target)

/-- A staged file that was linked to, and is there still. -/
structure Given (S : Setting ι crates) (i : ι) (oid : Oid) (staged : Staged) (w : World ι) :
    Prop where
  checked : Checked S i (S.home i) oid staged w
  linked : Linked i (objectPath (S.home i) oid) w.2

theorem steady_given {staged : Staged} : S.Steady i (Given S i oid staged) := by
  rintro w w' hpasses ⟨hchecked, hlinked⟩
  have hpast : S.Steady i fun w => Linked i (objectPath (S.home i) oid) w.2 :=
    steady_past fun _ _ h => h.cons
  exact ⟨steady_checked w w' hpasses hchecked, hpast w w' hpasses hlinked⟩

section

variable {staged : Staged}

/-- The staged file becomes the content. -/
theorem share_among (hlinks : S.EntriesLink) (hfine : S.Fine i w)
    (hchecked : Checked S i (S.home i) oid staged w) :
    S.Among i (fun _ => Checked S i (S.home i) oid staged)
      (link staged.path (contentPath oid)) w := by
  refine Among.ofRuns (link_runs (.content oid) (hlinks _ _ oid (.content oid)) hfine
    steady_checked hchecked fun w _ hchecked => .share hchecked.complete) fun _ _ h => h.2.1

/-- The repository gets the content. -/
theorem give_runs (hlinks : S.EntriesLink) (hfine : S.Fine i w)
    (hchecked : Checked S i (S.home i) oid staged w) :
    S.Acts i (fun answer w' => S.Fine i w' ∧ Checked S i (S.home i) oid staged w' ∧
        (answer = .ok () → Linked i (objectPath (S.home i) oid) w'.2))
      (link (contentPath oid) (objectPath (S.home i) oid)) w := by
  have hentry := entry_objectPath (S.home i) oid
  exact link_runs hentry (hlinks _ _ oid hentry) hfine steady_checked hchecked
    fun w _ hchecked => .give hchecked.gives hchecked.sent

theorem ensureContent_among (hlinks : S.EntriesLink) (hfine : S.Fine i w)
    (hchecked : Checked S i (S.home i) oid staged w) :
    S.Among i (fun _ => Checked S i (S.home i) oid staged)
      (ensureContent staged.path (contentPath oid)) w := by
  refine Acts.caught hfine steady_checked hchecked (serves_looks (by trivial) steady_checked
    fun w answer d' _ _ _ _ hfine' hchecked => ?_)
  cases answer with
  | ok _ => exact Among.pure hfine' steady_checked hchecked
  | error e => exact Among.io (share_among hlinks hfine' hchecked) fun _ => steady_checked

theorem nameContent_among (hlinks : S.EntriesLink) (hfine : S.Fine i w)
    (hchecked : Checked S i (S.home i) oid staged w) :
    S.Among i (fun _ => Given S i oid staged)
      (nameContent staged.path (contentPath oid) (objectPath (S.home i) oid)) w := by
  refine Fallible.Under.caught (Program.Under.mono (give_runs hlinks hfine hchecked) ?_)
  rintro answer w₁ ⟨hfine₁, hchecked₁, hlinked⟩
  match answer with
  | .ok () => exact Among.pure hfine₁ steady_given ⟨hchecked₁, hlinked rfl⟩
  | .error .notFound =>
      refine Among.ofCall (share_among hlinks hfine₁ hchecked₁) fun _ w₂ hfine₂ hchecked₂ => ?_
      refine Among.io (Among.ofRuns (give_runs hlinks hfine₂ hchecked₂) ?_)
        fun _ => steady_given
      exact fun _ w' h => ⟨h.2.1, h.2.2 rfl⟩
  | .error .alreadyExists => exact Among.throw hfine₁
  | .error .other => exact Among.throw hfine₁

/-- **The staged file gets its names.** -/
theorem linkOrMove_among (hlinks : S.EntriesLink) (hfine : S.Fine i w)
    (hchecked : Checked S i (S.home i) oid staged w) :
    S.Among i (fun _ w' => Linked i (objectPath (S.home i) oid) w'.2)
      (linkOrMove staged.path staged.destination oid) w := by
  rw [linkOrMove, hchecked.destination]
  refine Among.mapped hfine steady_checked hchecked (serves_looks (by trivial) steady_checked
    fun w answer d' _ _ _ _ hfine' hchecked => ⟨hfine', ?_⟩)
  rintro _ -
  refine Among.bind (ensureContent_among hlinks hfine' hchecked) fun _ w' hfine' hchecked => ?_
  refine Among.bind (nameContent_among hlinks hfine' hchecked) fun _ w' hfine' hgiven => ?_
  have hunlinked : S.Among i (fun _ _ => True)
      (do let _ ← (removeFile staged.path).caught; return () : Op Unit) w' :=
    unlink_among hfine' hgiven.checked.complete.mine hgiven.checked.complete.filled
      fun _ w' hfine' _ => Among.pure hfine' steady_true trivial
  exact (hunlinked.past (fun _ _ h => h.cons) hgiven.linked).mono fun _ _ h => h.2

end

/-- **A write.** -/
theorem write_among (expectedSize : Option Nat) (budget : Option Budget)
    {chunks : List (Except String Bytes)} (lawful : crates.Lawful) (hkeys : store.keys = S.keys)
    (hlinks : S.EntriesLink) (hgives : S.sha256 (arriving chunks) = oid.text → S.gives i oid)
    (hsmall : Small (arriving chunks)) (hfine : S.Fine i w) (hfilled : filling i w.2 = none) :
    S.Among i (fun _ w' => Linked i (objectPath (S.home i) oid) w'.2)
      (store.write S.sha256 (S.home i) oid expectedSize budget chunks) w := by
  have hlinked : S.Steady i fun w => Linked i (objectPath (S.home i) oid) w.2 :=
    steady_past fun _ _ h => h.cons
  rw [write]
  refine Among.bind (stage_among lawful hkeys hgives hsmall hfine hfilled)
    fun staged w' hfine' hchecked => ?_
  refine Among.bind (linkOrMove_among hlinks hfine' hchecked) fun _ w'' hfine'' h => ?_
  exact Among.pure hfine'' hlinked h

/-! ## Sweeping -/

/-- A run counts as long as no sweep frees content a thread has a gap on. -/
def FreesNoGap (S : Setting ι crates) : Prop :=
  ∀ i oid w, S.meets i (.unlink (contentPath oid)) w → ∀ j path, ¬ Gap j path oid w.2

section

variable {found : Found} {elsewhere : List LocalPath} {report : SweepReport}

theorem freeContent_among {held : Nat} (hfrees : S.FreesNoGap) (hfine : S.Fine i w) :
    S.Among i (fun _ _ => True) (freeContent oid held report) w := by
  refine Among.looked (fun _ => sizeOr_looks) hfine steady_true trivial
    fun size w' hfine' _ _ => ?_
  refine Acts.caught hfine' steady_true trivial (serves_calm ⟨oid, .content oid⟩ steady_true
    (fun w _ _ hmeets => .free (hfrees i oid w hmeets)) fun w answer d' _ _ _ _ hfine' _ => ?_)
  cases answer <;> exact Among.pure hfine' steady_true trivial

theorem collect_among {held : Nat} (hfrees : S.FreesNoGap) (hheld : HeldBy (S.home i) found)
    (hfine : S.Fine i w) :
    S.Among i (fun _ _ => True) (collect found.path found.oid held elsewhere report) w := by
  rw [collect]
  split
  · refine Among.looked (fun _ => referencedElsewhere_looks) hfine steady_true trivial
      fun referenced w' hfine' _ _ => ?_
    cases referenced <;> exact Among.pure hfine' steady_true trivial
  · have hrest : ∀ w, S.Fine i w → S.Among i (fun _ _ => True) (do
        if ← referencedElsewhere found.oid elsewhere 0 then return report
        else freeContent found.oid held report) w := by
      intro w hfine
      refine Among.looked (fun _ => referencedElsewhere_looks) hfine steady_true trivial
        fun referenced w' hfine' _ _ => ?_
      cases referenced with
      | true => exact Among.pure hfine' steady_true trivial
      | false => exact freeContent_among hfrees hfine'
    rw [removeUnlessGone, bind_assoc]
    refine Acts.caught hfine steady_true trivial (serves_calm ⟨_, hheld.entry⟩ steady_true
      (fun w _ _ _ => .drop hheld) fun w answer d' _ _ _ _ hfine' _ => ?_)
    cases answer with
    | ok _ => exact hrest _ hfine'
    | error e =>
        cases e with
        | notFound => exact hrest _ hfine'
        | alreadyExists => exact Among.throw hfine'
        | other => exact Among.throw hfine'

theorem sweepOne_among {retained : Finset Oid} {grace : Nat} (hfrees : S.FreesNoGap)
    (hheld : HeldBy (S.home i) found) (hfine : S.Fine i w) :
    S.Among i (fun _ _ => True) (sweepOne retained grace elsewhere found report) w := by
  rw [sweepOne]
  split
  · exact Among.pure hfine steady_true trivial
  refine Acts.caught hfine steady_true trivial (serves_looks (by trivial) steady_true
    fun w answer d' _ _ _ _ hfine' _ => ?_)
  cases answer with
  | error e =>
      cases e with
      | notFound => exact Among.pure hfine' steady_true trivial
      | alreadyExists => exact Among.throw hfine'
      | other => exact Among.throw hfine'
  | ok m =>
      show S.Among i _ (age m >>= _) _
      rw [age, bind_assoc]
      refine Among.certain hfine' steady_true trivial (serves_looks (by trivial) steady_true
        fun w now d' _ _ _ _ hfine' _ => ?_)
      show S.Among i _ (if now - m.modified < grace then _ else _) _
      split
      · exact Among.pure hfine' steady_true trivial
      · exact collect_among hfrees hheld hfine'

/-- **A sweep.** -/
theorem sweep_among {retained : Finset Oid} {grace : Nat} {dryRun : Bool} (hfrees : S.FreesNoGap)
    (hfine : S.Fine i w) :
    S.Among i (fun _ _ => True) (sweep (S.home i) retained grace dryRun) w := by
  rw [sweep]
  refine Among.looked (fun _ => objectsOf_looks (S.home i)) hfine steady_true trivial
    fun walk w' hfine' _ hwalked => ?_
  refine Among.looked (fun _ => otherRepositories_looks (S.home i)) hfine' steady_true trivial
    fun elsewhere w' hfine' _ _ => ?_
  exact visitEach_among steady_true
    (fun found hfound report w hfine _ => sweepOne_among hfrees (hwalked found hfound).1 hfine)
    hfine' trivial

end

end Setting

end LocalStore

end Lfsx.Storage
