import Lfsx.Storage.LocalShared

/-!
# An operation among others

`Among` judges an operation of one thread while the other threads ask what they may.  An
assertion that holds between two requests has to be `Steady`: the others do not break it,
and neither does the thread itself as long as it leaves its staging files alone (`Calm`).
A thread relies on what is its own, on its staging names and on files nobody fills, and on
nothing else.

There is one rule for each way an operation makes a request, and one for an operation that
only looks (`Among.looking`), which also says that what a walk found was listed.
-/

namespace Lfsx.Storage

open Request Files
open Program (Stable)

namespace LocalStore

/-- What the threads work with: the digests and the keys, the repository of each thread and
the objects it was given, the requests that may be refused, and the runs that count. -/
structure Setting (ι : Type) (crates : Crates) where
  sha256 : Bytes → Text
  keys : Option (Keyring crates)
  home : ι → Namespace
  gives : ι → Oid → Prop
  may : Files.Req Text → Prop
  meets : ι → Files.Req Text → World ι → Prop

/-- An operation of the store, or a call of the disk. -/
abbrev Act (ε α : Type) := Fallible ε (Files.Req Text) Files.Resp α

/-- A request that looks, or makes or removes one name of an object. -/
def Calm : Files.Req Text → Prop
  | .create _ => False
  | .write _ _ => False
  | .rename _ _ => False
  | .link _ target => ∃ oid, Entry target oid
  | .unlink path => ∃ oid, Entry path oid
  | _ => True

theorem calm_of_looks {r : Files.Req Text} (hr : r.Looks) : Calm r := by
  cases r <;> first | exact hr.elim | trivial

/-- The names a calm request makes or removes are entries. -/
theorem Calm.names {r : Files.Req Text} {q : LocalPath} (hr : Calm r) (hq : q ∈ r.names) :
    ∃ oid, Entry q oid := by
  cases r with
  | create path => exact hr.elim
  | rename source target => exact hr.elim
  | link source target =>
      obtain rfl : q = target := by simpa [Req.names] using hq
      exact hr
  | unlink path =>
      obtain rfl : q = path := by simpa [Req.names] using hq
      exact hr
  | _ => simp [Req.names] at hq

namespace Setting

variable {ι : Type} [DecidableEq ι] {crates : Crates} (S : Setting ι crates)

/-- Threads on a disk, with what they do written down. -/
abbrev exec : ι → Semantics (Files.Req Text) Files.Resp (World ι) :=
  restricted S.meets (recording fun _ => Faulty S.may)

/-- A thread asks what it may.  If it has a gap, that is to close it. -/
structure Asks (i : ι) (r : Files.Req Text) (w : World ι) : Prop where
  allowed : Allowed crates S.sha256 S.keys S.home S.gives i w r
  closes : ∀ path oid, Gap i path oid w.2 → r = .link (contentPath oid) path

/-- A step of a thread. -/
def Does (i : ι) (w w' : World ι) : Prop :=
  Consistent crates S.sha256 S.keys w ∧ ∃ r answer, S.Asks i r w ∧
    recording (fun _ => Faulty S.may) i r w answer w'

/-- A step of another thread. -/
def OthersDo (i : ι) (w w' : World ι) : Prop := ∃ j, j ≠ i ∧ S.Does j w w'

/-- A step that is not a thread's own, or that leaves its staging files alone. -/
def Passes (i : ι) (w w' : World ι) : Prop :=
  Consistent crates S.sha256 S.keys w ∧ ∃ j r answer, (j = i → Calm r) ∧
    Allowed crates S.sha256 S.keys S.home S.gives j w r ∧
    recording (fun _ => Faulty S.may) j r w answer w'

/-- An assertion that holds between two requests. -/
def Steady (i : ι) (A : World ι → Prop) : Prop := ∀ w w', S.Passes i w w' → A w → A w'

/-- The world a thread finds: consistent, and with no gap of its own. -/
structure Fine (i : ι) (w : World ι) : Prop where
  consistent : Consistent crates S.sha256 S.keys w
  noGap : ∀ path oid, ¬ Gap i path oid w.2

/-- An operation of a thread, with the others about: what it ends in. -/
abbrev Acts {ε α : Type} (i : ι) (P : Except ε α → World ι → Prop) (op : Act ε α) (w : World ι) :
    Prop :=
  op.run.Under (S.exec i) (S.OthersDo i) (S.Does i) P w

/-- An operation of a thread, with the others about: what it leaves if it succeeds. -/
abbrev Among {ε α : Type} (i : ι) (Q : α → World ι → Prop) (op : Act ε α) (w : World ι) : Prop :=
  S.Acts i (Fallible.Ends (fun a w => S.Fine i w ∧ Q a w) (S.Fine i)) op w

end Setting

section

variable {ι : Type} [DecidableEq ι] {crates : Crates} {S : Setting ι crates} {i : ι}
  {w w' : World ι} {p path : LocalPath} {oid : Oid} {h : Nat}

/-! ## Assertions -/

namespace Setting

theorem Does.consistent (hdoes : S.Does i w w') : Consistent crates S.sha256 S.keys w' := by
  obtain ⟨hw, r, answer, hasks, hstep, hlog⟩ := hdoes
  have hafter := hw.step hasks.allowed hstep
  rw [← hlog] at hafter
  exact hafter

theorem OthersDo.passes (hothers : S.OthersDo i w w') : S.Passes i w w' := by
  obtain ⟨j, hj, hw, r, answer, hasks, hstep⟩ := hothers
  exact ⟨hw, j, r, answer, fun h => absurd h hj, hasks.allowed, hstep⟩

theorem Steady.stable {A : World ι → Prop} (hA : S.Steady i A) : Stable (S.OthersDo i) A :=
  fun w w' hothers => hA w w' hothers.passes

theorem Steady.and {A B : World ι → Prop} (hA : S.Steady i A) (hB : S.Steady i B) :
    S.Steady i fun w => A w ∧ B w :=
  fun w w' hpasses h => ⟨hA w w' hpasses h.1, hB w w' hpasses h.2⟩

theorem Passes.consistent (hpasses : S.Passes i w w') :
    Consistent crates S.sha256 S.keys w' := by
  obtain ⟨hw, j, r, answer, -, hallowed, hstep, hlog⟩ := hpasses
  have hafter := hw.step hallowed hstep
  rw [← hlog] at hafter
  exact hafter

theorem steady_fine : S.Steady i (S.Fine i) := by
  rintro w w' hpasses hfine
  refine ⟨hpasses.consistent, fun path oid hgap => ?_⟩
  obtain ⟨-, j, r, answer, hown, -, -, hlog⟩ := hpasses
  rw [hlog] at hgap
  by_cases hj : j = i
  · subst hj
    obtain ⟨-, -, hnewest⟩ := hgap
    rw [newest_cons_self, Option.some.injEq] at hnewest
    have hr : r = .rename path (contentPath oid) := congrArg Event.req hnewest
    have hcalm := hown rfl
    rw [hr] at hcalm
    exact hcalm
  · exact hfine.noGap path oid ((gap_cons_other hj).mp hgap)

/-- A fact about the past that is not forgotten. -/
theorem steady_past {P : Past ι → Prop} (hcons : ∀ e past, P past → P (e :: past)) :
    S.Steady i fun w => P w.2 := by
  rintro w w' ⟨-, j, r, answer, -, -, -, hlog⟩ h
  rw [hlog]
  exact hcons _ _ h

theorem steady_mine : S.Steady i fun w => Mine i p w.2 := steady_past fun _ _ => Mine.cons

theorem steady_listed : S.Steady i fun w => ListedBy i path w.2 :=
  steady_past fun _ _ => ListedBy.cons

theorem steady_sent : S.Steady i fun w => Sent i w.2 := steady_past fun _ _ => Sent.cons

theorem steady_filling {o : Option Nat} : S.Steady i fun w => filling i w.2 = o := by
  rintro w w' ⟨-, j, r, answer, hown, -, -, hlog⟩ h
  show filling i w'.2 = o
  rw [hlog]
  by_cases hj : j = i
  · subst hj
    have hmade : made (⟨j, r, answer⟩ : Event ι (Files.Req Text) Files.Resp) = none := by
      have hr := hown rfl
      cases r <;> first | exact hr.elim | rfl
    rw [filling_cons hmade, h]
  · rw [filling_cons_other hj, h]

/-- Nobody else has anything to do with a thread's staging names. -/
theorem Passes.inode_mine (hpasses : S.Passes i w w') (hp : Mine i p w.2) :
    w'.1.inode p = w.1.inode p := by
  obtain ⟨hw, j, r, answer, hown, hallowed, hstep, -⟩ := hpasses
  refine hstep.inode_other fun hmem => ?_
  rcases hallowed.names hmem with hj | ⟨oid, hentry⟩
  · obtain rfl := hw.owner_of_mine hp hj
    obtain ⟨oid, hentry⟩ := (hown rfl).names hmem
    exact hp.ne_entry hentry rfl
  · exact hp.ne_entry hentry rfl

theorem Passes.file_kept (hpasses : S.Passes i w w') (hh : h < w.1.files.length)
    (hfilling : ∀ j, j ≠ i → filling j w.2 ≠ some h) : w'.1.file h = w.1.file h := by
  obtain ⟨hw, j, r, answer, hown, hallowed, hstep, -⟩ := hpasses
  by_cases hj : j = i
  · have hcalm := hown hj
    refine hstep.file_kept hh (fun bytes hr => ?_) fun path hr => ?_
    · rw [hr] at hcalm
      exact hcalm.elim
    · rw [hr] at hcalm
      exact hcalm.elim
  · exact hallowed.file_kept hstep hh (hfilling j hj)

theorem steady_unnamed : S.Steady i fun w => Mine i p w.2 ∧ w.1.inode p = none := by
  rintro w w' hpasses ⟨hp, hnone⟩
  exact ⟨steady_mine w w' hpasses hp, by rw [hpasses.inode_mine hp, hnone]⟩

theorem steady_named : S.Steady i fun w => Mine i p w.2 ∧ w.1.inode p = some h := by
  rintro w w' hpasses ⟨hp, hh⟩
  exact ⟨steady_mine w w' hpasses hp, by rw [hpasses.inode_mine hp, hh]⟩

/-- The bytes under a staging name of a thread. -/
theorem steady_staged {f : File} : S.Steady i fun w => Mine i p w.2 ∧ w.1.find p = some f := by
  rintro w w' hpasses ⟨hp, hf⟩
  obtain ⟨h, hh, hfile⟩ := Disk.find_eq_some.mp hf
  refine ⟨steady_mine w w' hpasses hp, Disk.find_eq_some.mpr ⟨h, ?_, ?_⟩⟩
  · rw [hpasses.inode_mine hp, hh]
  · rw [hpasses.file_kept (Disk.inode_lt hh), hfile]
    intro j hj hfilling
    exact hj (hpasses.1.owner_of_mine (hpasses.1.own j h p hfilling hh) hp)

theorem steady_complete :
    S.Steady i (Complete crates S.sha256 S.keys i p oid) := by
  rintro w w' hpasses ⟨hp, hfilled, f, hf, hdecodes⟩
  obtain ⟨hp', hf'⟩ := steady_staged w w' hpasses ⟨hp, hf⟩
  exact ⟨hp', steady_filling w w' hpasses hfilled, f, hf', hdecodes⟩

end Setting

/-- A file that nobody fills any more. -/
structure Settled (h : Nat) (f : File) (w : World ι) : Prop where
  file : w.1.file h = some f
  filled : ∀ j, filling j w.2 ≠ some h

/-- No thread fills it again. -/
theorem Settled.step {f : File} {sha256 : Bytes → Text} {keys : Option (Keyring crates)}
    {home : ι → Namespace} {gives : ι → Oid → Prop} {may : Files.Req Text → Prop}
    {r : Files.Req Text} {answer : Files.Resp r} {d' : Volume} (hsettled : Settled h f w)
    (hallowed : Allowed crates sha256 keys home gives i w r) (hstep : Faulty may r w.1 answer d') :
    Settled h f (d', ⟨i, r, answer⟩ :: w.2) := by
  have hh : h < w.1.files.length := (List.getElem?_eq_some_iff.mp hsettled.file).1
  refine ⟨?_, fun j hfilling => ?_⟩
  · show d'.file h = some f
    rw [hallowed.file_kept hstep hh (hsettled.filled i), hsettled.file]
  · rcases filling_eq_some hfilling with hold | ⟨q, he⟩
    · exact hsettled.filled j hold
    · obtain ⟨-, -, rfl, -⟩ := hallowed.new_file hstep he
      exact lt_irrefl _ hh

namespace Setting

theorem steady_settled {f : File} : S.Steady i (Settled h f) := by
  rintro w w' ⟨hw, j, r, answer, -, hallowed, hstep, hlog⟩ hsettled
  have hafter := hsettled.step hallowed hstep
  rw [← hlog] at hafter
  exact hafter

end Setting

/-- The file of an entry is settled. -/
theorem Consistent.settledEntry {f : File} (hw : Consistent crates S.sha256 S.keys w)
    (hentry : Entry path oid) (hpath : w.1.inode path = some h) (hf : w.1.file h = some f) :
    Settled h f w :=
  ⟨hf, hw.settled hentry hpath⟩

/-! ## Requests -/

namespace Setting

variable {A : World ι → Prop} {r : Files.Req Text} {P : Files.Resp r → World ι → Prop}

/-- A thread may ask `r` in `A`, and then `P` holds of the answer. -/
def Serves (S : Setting ι crates) (i : ι) (A : World ι → Prop) (r : Files.Req Text)
    (P : Files.Resp r → World ι → Prop) : Prop :=
  ∀ w answer d', S.Fine i w → A w → S.meets i r w → Faulty S.may r w.1 answer d' →
    S.Asks i r w ∧ P answer (d', ⟨i, r, answer⟩ :: w.2)

/-- A request that promotes nothing leaves the thread as it should be. -/
theorem Fine.step {answer : Files.Resp r} {d' : Volume} (hfine : S.Fine i w)
    (hallowed : Allowed crates S.sha256 S.keys S.home S.gives i w r)
    (hpromotes : ∀ path oid, Entry path oid → path ≠ contentPath oid →
      r ≠ .rename path (contentPath oid)) (hstep : Faulty S.may r w.1 answer d') :
    S.Fine i (d', ⟨i, r, answer⟩ :: w.2) := by
  refine ⟨hfine.consistent.step hallowed hstep, ?_⟩
  rintro path oid ⟨hentry, hne, hnewest⟩
  rw [newest_cons_self, Option.some.injEq] at hnewest
  exact hpromotes path oid hentry hne (congrArg Event.req hnewest)

theorem Fine.asks (hfine : S.Fine i w)
    (hallowed : Allowed crates S.sha256 S.keys S.home S.gives i w r) : S.Asks i r w :=
  ⟨hallowed, fun path oid hgap => absurd hgap (hfine.noGap path oid)⟩

theorem serves_own
    (hallowed : ∀ w, S.Fine i w → A w → S.meets i r w →
      Allowed crates S.sha256 S.keys S.home S.gives i w r)
    (hpromotes : ∀ path oid, Entry path oid → path ≠ contentPath oid →
      r ≠ .rename path (contentPath oid))
    (hP : ∀ w answer d', S.Fine i w → A w → S.meets i r w → Faulty S.may r w.1 answer d' →
      S.Fine i (d', ⟨i, r, answer⟩ :: w.2) → P answer (d', ⟨i, r, answer⟩ :: w.2)) :
    S.Serves i A r P := by
  intro w answer d' hfine ha hmeets hstep
  have h := hallowed w hfine ha hmeets
  exact ⟨hfine.asks h, hP w answer d' hfine ha hmeets hstep (hfine.step h hpromotes hstep)⟩

theorem serves_calm (hcalm : Calm r) (hA : S.Steady i A)
    (hallowed : ∀ w, S.Fine i w → A w → S.meets i r w →
      Allowed crates S.sha256 S.keys S.home S.gives i w r)
    (hP : ∀ w answer d', S.Fine i w → A w → S.meets i r w → Faulty S.may r w.1 answer d' →
      S.Fine i (d', ⟨i, r, answer⟩ :: w.2) → A (d', ⟨i, r, answer⟩ :: w.2) →
      P answer (d', ⟨i, r, answer⟩ :: w.2)) :
    S.Serves i A r P := by
  refine serves_own hallowed (fun path oid _ _ hr => ?_) fun w answer d' hfine ha hmeets hstep
    hfine' => ?_
  · rw [hr] at hcalm
    exact hcalm
  · refine hP w answer d' hfine ha hmeets hstep hfine' (hA w _ ⟨hfine.consistent, i, r, answer,
      fun _ => hcalm, hallowed w hfine ha hmeets, hstep, rfl⟩ ha)

theorem serves_looks (hr : r.Looks) (hA : S.Steady i A)
    (hP : ∀ w answer d', S.Fine i w → A w → S.meets i r w → Faulty S.may r w.1 answer d' →
      S.Fine i (d', ⟨i, r, answer⟩ :: w.2) → A (d', ⟨i, r, answer⟩ :: w.2) →
      P answer (d', ⟨i, r, answer⟩ :: w.2)) :
    S.Serves i A r P :=
  serves_calm (calm_of_looks hr) hA (fun _ _ _ _ => .look hr) hP

theorem Serves.triple (h : S.Serves i A r P) :
    Program.Triple (S.exec i) (S.Does i) (fun w => S.Fine i w ∧ A w) r P := by
  rintro w answer ⟨d', past⟩ ⟨hfine, ha⟩ ⟨hmeets, hstep, hlog⟩
  cases hlog
  obtain ⟨hasks, hP⟩ := h w answer d' hfine ha hmeets hstep
  exact ⟨⟨hfine.consistent, r, answer, hasks, hstep, rfl⟩, hP⟩

/-! ## Rules -/

variable {ε ε' α β : Type} {Q : β → World ι → Prop}

theorem Among.pure {b : β} (hfine : S.Fine i w) (hQ : S.Steady i (Q b)) (h : Q b w) :
    S.Among i Q (Pure.pure b : Act ε β) w :=
  Fallible.Under.pure (steady_fine.and hQ).stable ⟨hfine, h⟩

theorem Among.throw {e : ε} (hfine : S.Fine i w) : S.Among i Q (throw e : Act ε β) w :=
  Fallible.Under.throw steady_fine.stable hfine

theorem Among.bind {P : α → World ι → Prop} {op : Act ε α} {f : α → Act ε β}
    (h : S.Among i P op w) (hf : ∀ a w', S.Fine i w' → P a w' → S.Among i Q (f a) w') :
    S.Among i Q (op >>= f) w :=
  Fallible.Under.bind steady_fine.stable
    (Fallible.Under.mono h (fun a w' h => hf a w' h.1 h.2) fun _ h => h)

theorem Among.mono {Q' : β → World ι → Prop} {op : Act ε β} (h : S.Among i Q' op w)
    (hQ : ∀ b w', Q' b w' → Q b w') : S.Among i Q op w :=
  Fallible.Under.mono h (fun b w' h => ⟨h.1, hQ b w' h.2⟩) fun _ h => h

/-- One request whose error is taken for an answer, from an assertion the others keep. -/
theorem Acts.asked {I : World ι → Prop} {P : Except ε' β → World ι → Prop}
    {h : Files.Resp r = Except ε α} {f : Except ε α → Act ε' β} (hI : Stable (S.OthersDo i) I)
    (hi : I w) (htriple : Program.Triple (S.exec i) (S.Does i) I r
      fun answer => S.Acts i P (f (cast h answer))) :
    S.Acts i P ((Fallible.ask r h).caught >>= f) w := by
  rw [Acts, ExceptT.run_bind]
  refine Program.Under.bind (Program.Under.bind (Program.Under.request hI hi ?_))
  intro w₁ answer w₂ hw₁ hexec
  obtain ⟨hdoes, hnext⟩ := htriple w₁ answer w₂ hw₁ hexec
  have hstable : Stable (S.OthersDo i) (S.Acts i P (f (cast h answer))) :=
    fun _ _ hR h => Program.Under.rely h (.single hR)
  exact ⟨hdoes, Program.Under.pure (fun _ _ hR h => Program.Under.rely h (.single hR))
    (Program.Under.pure hstable hnext)⟩

theorem Acts.caught {P : Except ε' β → World ι → Prop} {h : Files.Resp r = Except ε α}
    {f : Except ε α → Act ε' β} (hfine : S.Fine i w) (hA : S.Steady i A) (ha : A w)
    (hserves : S.Serves i A r fun answer => S.Acts i P (f (cast h answer))) :
    S.Acts i P ((Fallible.ask r h).caught >>= f) w :=
  Acts.asked (steady_fine.and hA).stable ⟨hfine, ha⟩ hserves.triple

/-- One request whose error ends the operation. -/
theorem Among.ends {h : Files.Resp r = Except ε α} {g : ε → ε'} {f : α → Act ε' β}
    (hfine : S.Fine i w) (hA : S.Steady i A) (ha : A w)
    (hserves : S.Serves i A r fun answer =>
      Fallible.Ends (fun a => S.Among i Q (f a)) (S.Fine i) (cast h answer)) :
    S.Among i Q ((Fallible.ask r h).mapError g >>= f) w := by
  refine Fallible.Under.mapped steady_fine.stable
    (Program.Under.request (steady_fine.and hA).stable ⟨hfine, ha⟩ ?_)
  intro w₁ answer w₂ hw₁ hexec
  obtain ⟨hdoes, hends⟩ := hserves.triple w₁ answer w₂ hw₁ hexec
  refine ⟨hdoes, Program.Under.pure ?_ hends⟩
  cases cast h answer with
  | ok a => exact Fallible.Under.stable
  | error e => exact steady_fine.stable

theorem Among.mapped {h : Files.Resp r = Except ε α} {g : ε → ε'} {f : α → Act ε' β}
    (hfine : S.Fine i w) (hA : S.Steady i A) (ha : A w)
    (hserves : S.Serves i A r fun answer w' => S.Fine i w' ∧
      ∀ a, cast h answer = .ok a → S.Among i Q (f a) w') :
    S.Among i Q ((Fallible.ask r h).mapError g >>= f) w := by
  refine Among.ends hfine hA ha fun w answer d' hfine ha hmeets hstep => ?_
  obtain ⟨hasks, hfine', hnext⟩ := hserves w answer d' hfine ha hmeets hstep
  refine ⟨hasks, ?_⟩
  show Fallible.Ends _ _ (cast h answer) _
  cases hanswer : cast h answer with
  | ok a => exact hnext a hanswer
  | error e => exact hfine'

/-- One request that cannot fail. -/
theorem Among.certain {f : Files.Resp r → Act ε β} (hfine : S.Fine i w) (hA : S.Steady i A)
    (ha : A w) (hserves : S.Serves i A r fun answer => S.Among i Q (f answer)) :
    S.Among i Q ((Fallible.certain r : Act ε (Files.Resp r)) >>= f) w :=
  Fallible.Under.bind steady_fine.stable (Fallible.Under.certain (steady_fine.and hA).stable
    ⟨hfine, ha⟩ (fun _ => Fallible.Under.stable) hserves.triple)

/-- One request of a call. -/
theorem Among.asked {h : Files.Resp r = Except ε α} {f : α → Act ε β} (hfine : S.Fine i w)
    (hA : S.Steady i A) (ha : A w)
    (hserves : S.Serves i A r fun answer w' => S.Fine i w' ∧
      ∀ a, cast h answer = .ok a → S.Among i Q (f a) w') :
    S.Among i Q (Fallible.ask r h >>= f) w := by
  refine Fallible.Under.bind steady_fine.stable
    (Program.Under.request (steady_fine.and hA).stable ⟨hfine, ha⟩ ?_)
  intro w₁ answer w₂ hw₁ hexec
  obtain ⟨hdoes, hfine₂, hnext⟩ := hserves.triple w₁ answer w₂ hw₁ hexec
  refine ⟨hdoes, Program.Under.pure ?_ ?_⟩
  · cases cast h answer with
    | ok a => exact Fallible.Under.stable
    | error e => exact steady_fine.stable
  · cases hanswer : cast h answer with
    | ok a => exact hnext a hanswer
    | error e => exact hfine₂

/-- A call whose error ends the operation. -/
theorem Among.ofCall {P : α → World ι → Prop} {op : Act ε α} {g : ε → ε'} {f : α → Act ε' β}
    (h : S.Among i P op w) (hf : ∀ a w', S.Fine i w' → P a w' → S.Among i Q (f a) w') :
    S.Among i Q (op.mapError g >>= f) w :=
  Fallible.Under.mapped steady_fine.stable
    (Fallible.Under.mono h (fun a w' h => hf a w' h.1 h.2) fun _ h => h)

/-- A call whose error is taken for an answer. -/
theorem Among.answered {P : α → World ι → Prop} {op : Act ε α} {f : Except ε α → Act ε' β}
    (h : S.Among i P op w)
    (hf : ∀ answer w', S.Fine i w' → (∀ a, answer = .ok a → P a w') →
      S.Among i Q (f answer) w') : S.Among i Q (op.caught >>= f) w := by
  refine Fallible.Under.caught (Program.Under.mono h fun answer w' hends => ?_)
  cases answer with
  | ok a =>
      refine hf _ w' hends.1 ?_
      rintro _ ⟨⟩
      exact hends.2
  | error e =>
      refine hf _ w' hends ?_
      rintro _ ⟨⟩

/-- What the past is said to be stays said, whatever comes of the operation. -/
theorem Among.keeps {K : Past ι → Prop} {op : Act ε β} (hK : ∀ e past, K past → K (e :: past))
    (h : S.Among i Q op w) (hk : K w.2) :
    op.run.Under (S.exec i) (S.OthersDo i) (S.Does i) (fun answer w' =>
      Fallible.Ends (fun b w => S.Fine i w ∧ Q b w) (S.Fine i) answer w' ∧ K w'.2) w := by
  have hdoes : ∀ j, Stable (S.Does j) fun w => K w.2 := by
    rintro j w w' ⟨-, r, answer, -, -, hlog⟩ hk
    rw [hlog]
    exact hK _ _ hk
  refine Program.Under.keeps ?_ (hdoes i) h hk
  rintro w w' ⟨j, -, hj⟩ hk
  exact hdoes j w w' hj hk

/-- A call with nothing after it. -/
theorem Among.io {op : Act ε β} {g : ε → ε'} (h : S.Among i Q op w)
    (hQ : ∀ b, S.Steady i (Q b)) : S.Among i Q (op.mapError g) w := by
  rw [← bind_pure (op.mapError g)]
  exact Among.ofCall h fun b w' hfine' h => Among.pure hfine' (hQ b) h

theorem Among.past {K : Past ι → Prop} {op : Act ε β} (hK : ∀ e past, K past → K (e :: past))
    (h : S.Among i Q op w) (hk : K w.2) : S.Among i (fun b w' => Q b w' ∧ K w'.2) op w := by
  refine Program.Under.mono (h.keeps hK hk) ?_
  rintro answer w' ⟨hends, hk'⟩
  cases answer with
  | ok b => exact ⟨hends.1, hends.2, hk'⟩
  | error e => exact hends

/-- What is attempted does not end the operation. -/
theorem Among.attempt {K : Past ι → Prop} {P : α → World ι → Prop} {op : Act ε α}
    {f : Except ε α → Act ε β} (hK : ∀ e past, K past → K (e :: past)) (h : S.Among i P op w)
    (hk : K w.2) (hok : ∀ a w', S.Fine i w' → P a w' → K w'.2 → S.Among i Q (f (.ok a)) w')
    (herror : ∀ e w', S.Fine i w' → K w'.2 → S.Among i Q (f (.error e)) w') :
    S.Among i Q (op.attempt >>= f) w := by
  refine Fallible.Under.attempt (Program.Under.mono (h.keeps hK hk) ?_)
  rintro answer w' ⟨hends, hk'⟩
  cases answer with
  | ok a => exact hok a w' hends.1 hends.2 hk'
  | error e => exact fun e => herror e w' hends hk'

/-! ## Looking -/

/-- **An operation that only looks**, and what it found was listed. -/
theorem Among.looking {P : (LocalPath → Prop) → β → Prop} {op : Op β}
    (hlooks : ∀ There, Looking There (P There) op) (hfine : S.Fine i w) (hA : S.Steady i A)
    (ha : A w) :
    S.Among i (fun b w' => A w' ∧ P (fun path => ListedBy i path w'.2) b) op w := by
  -- The induction is for whatever holds of the paths that were listed up to now.
  have hall : ∀ (p : Program (Files.Req Text) Files.Resp (Except Error β)) (w : World ι),
      S.Fine i w ∧ A w →
      (∀ There : LocalPath → Prop, (∀ path, ListedBy i path w.2 → There path) →
        p.Only Files.Req.Looks (Listed There) fun answer => ∀ b, answer = .ok b → P There b) →
      p.Under (S.exec i) (S.OthersDo i) (S.Does i) (Fallible.Ends (fun b w' => S.Fine i w' ∧
        A w' ∧ P (fun path => ListedBy i path w'.2) b) (S.Fine i)) w := by
    intro p
    induction p with
    | pure answer =>
        intro w hw honly w₁ hstar
        obtain ⟨hfine₁, ha₁⟩ := (steady_fine.and hA).stable.star hstar hw
        cases answer with
        | error e => exact hfine₁
        | ok b =>
            refine ⟨hfine₁, ha₁, honly _ (fun path hpath => ?_) b rfl⟩
            exact steady_listed.stable.star hstar hpath
    | request r next ih =>
        intro w hw honly w₁ hstar answer w₂ hexec
        have hw₁ := (steady_fine.and hA).stable.star hstar hw
        have hr : r.Looks := (honly (fun _ => True) fun _ _ => trivial).1
        have hserves : S.Serves i A r fun answer w' => (S.Fine i w' ∧ A w') ∧
            Listed (fun _ => True) r answer := serves_looks hr hA
          fun w answer d' _ _ _ hstep hfine' ha' =>
            ⟨⟨hfine', ha'⟩, faulty_listed (fun _ _ => trivial) hstep⟩
        obtain ⟨hdoes, hw₂, hlisted⟩ := hserves.triple w₁ answer w₂ hw₁ hexec
        refine ⟨hdoes, ih answer w₂ hw₂ fun There hthere => ?_⟩
        obtain ⟨-, -, hlog⟩ := hexec
        have hbefore : ∀ path, ListedBy i path w.2 → There path := by
          intro path hpath
          refine hthere path ?_
          rw [hlog]
          exact (steady_listed.stable.star hstar hpath).cons
        refine (honly There hbefore).2 answer ?_
        cases r with
        | readDir dir =>
            rintro found ended rfl path hpath
            refine ⟨(hlisted found ended rfl path hpath).1, hthere path ?_⟩
            rw [hlog]
            exact ⟨dir, found, ended, List.mem_cons_self, hpath⟩
        | _ => exact trivial
  exact hall op.run w ⟨hfine, ha⟩ fun There _ => hlooks There

theorem Among.looked {P : (LocalPath → Prop) → α → Prop} {op : Op α} {f : α → Op β}
    (hlooks : ∀ There, Looking There (P There) op) (hfine : S.Fine i w) (hA : S.Steady i A)
    (ha : A w) (hf : ∀ a w', S.Fine i w' → A w' → P (fun path => ListedBy i path w'.2) a →
      S.Among i Q (f a) w') : S.Among i Q (op >>= f) w :=
  Among.bind (Among.looking hlooks hfine hA ha) fun a w' hfine' h => hf a w' hfine' h.1 h.2

/-- Each visit keeps what the loop keeps. -/
theorem visitEach_among {ρ : Type} {visit : Found → ρ → Op ρ} {objects : List Found} {report : ρ}
    (hA : S.Steady i A)
    (hvisit : ∀ found ∈ objects, ∀ report w, S.Fine i w → A w →
      S.Among i (fun _ => A) (visit found report) w) (hfine : S.Fine i w) (ha : A w) :
    S.Among i (fun _ => A) (visitEach visit objects report) w := by
  induction objects generalizing report w with
  | nil => exact Among.pure hfine hA ha
  | cons found rest ih =>
      refine Among.bind (hvisit found List.mem_cons_self report w hfine ha)
        fun report' w' hfine' ha' => ?_
      exact ih (fun found hfound => hvisit found (List.mem_cons_of_mem _ hfound)) hfine' ha'

end Setting

end

end LocalStore

end Lfsx.Storage
