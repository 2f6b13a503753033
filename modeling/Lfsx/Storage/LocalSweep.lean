import Lfsx.Storage.LocalParts

/-!
# A sweep drops what is old and not retained

A sweep removes names and nothing else: those of its repository that are not retained and
whose file is as old as the grace period, and the content of an object (`Dropped`).  A dry
run only looks.
-/

namespace Lfsx.Storage

open Request Files

namespace LocalStore

/-- A sweep may drop the file of a path of its repository. -/
def Expired (retained : Finset Oid) (grace : Nat) (oid : Oid) (f : File) (now : Nat) : Prop :=
  oid ∉ retained ∧ grace ≤ now - f.modified

/-- Every entry is what it was, or it was dropped. -/
structure Dropped (ns : Namespace) (retained : Finset Oid) (grace : Nat) (dryRun : Bool)
    (d d' : Volume) : Prop where
  clock : d.clock ≤ d'.clock
  within : Confined ns d d'
  entries : ∀ path oid, Entry path oid → d'.find path = d.find path ∨
    dryRun = false ∧ d'.find path = none ∧ (path = contentPath oid ∨
      (∃ first second, path = [ns.storedOrg, ns.storedRepo, first, second, oid.text]) ∧
        ∃ f now, d.find path = some f ∧ d.clock ≤ now ∧ now ≤ d'.clock ∧
          Expired retained grace oid f now)

section

variable {ns : Namespace} {retained : Finset Oid} {grace : Nat} {dryRun : Bool}
  {d d' d'' : Volume}

theorem Dropped.of_alike (h : d.Alike d') : Dropped ns retained grace dryRun d d' :=
  ⟨h.clock, confined_of_alike h, fun path _ _ => Or.inl (h.find path)⟩

theorem Dropped.trans (h : Dropped ns retained grace dryRun d d')
    (h' : Dropped ns retained grace dryRun d' d'') : Dropped ns retained grace dryRun d d'' := by
  refine ⟨h.clock.trans h'.clock, h.within.trans h'.within, fun path oid hentry => ?_⟩
  rcases h'.entries path oid hentry with hsame | ⟨hdry, hnone, hdropped⟩
  · rw [hsame]
    rcases h.entries path oid hentry with hsame | ⟨hdry, hnone, hdropped⟩
    · exact Or.inl hsame
    · refine Or.inr ⟨hdry, hnone, hdropped.imp_right ?_⟩
      rintro ⟨hours, f, now, hf, hle, hle', hexpired⟩
      exact ⟨hours, f, now, hf, hle, hle'.trans h'.clock, hexpired⟩
  · rcases h.entries path oid hentry with hsame | ⟨-, hnone', hdropped'⟩
    · refine Or.inr ⟨hdry, hnone, hdropped.imp_right ?_⟩
      rintro ⟨hours, f, now, hf, hle, hle', hexpired⟩
      exact ⟨hours, f, now, by rw [← hsame, hf], h.clock.trans hle, hle', hexpired⟩
    · refine Or.inr ⟨hdry, hnone, hdropped'.imp_right ?_⟩
      rintro ⟨hours, f, now, hf, hle, hle', hexpired⟩
      exact ⟨hours, f, now, hf, hle, hle'.trans h'.clock, hexpired⟩

theorem Dropped.content {oid : Oid} :
    Dropped ns retained grace false d (d.unname (contentPath oid)) := by
  refine ⟨le_refl _, confined_unname (.content oid), fun path oid' hentry => ?_⟩
  rw [Disk.find_unname]
  by_cases hpath : path = contentPath oid
  · subst hpath
    rw [if_pos rfl, hentry.unique (.content oid)]
    exact Or.inr ⟨rfl, rfl, Or.inl rfl⟩
  · rw [if_neg hpath]
    exact Or.inl rfl

theorem Dropped.own {found : Found} {f : File} (hheld : HeldBy ns found)
    (hf : d.find found.path = some f) (hexpired : Expired retained grace found.oid f d.clock) :
    Dropped ns retained grace false d (d.unname found.path) := by
  refine ⟨le_refl _, confined_unname hheld.place, fun path oid hentry => ?_⟩
  rw [Disk.find_unname]
  by_cases hpath : path = found.path
  · subst hpath
    rw [if_pos rfl, hentry.unique hheld.entry]
    exact Or.inr ⟨rfl, rfl, Or.inr ⟨hheld, f, d.clock, hf, le_refl _, le_refl _, hexpired⟩⟩
  · rw [if_neg hpath]
    exact Or.inl rfl

/-- A dry run drops nothing. -/
theorem Dropped.untouched (h : Dropped ns retained grace true d d') : Untouched d d' := by
  intro path oid hentry
  rcases h.entries path oid hentry with hsame | ⟨hdry, -⟩
  · exact hsame
  · cases hdry

theorem Dropped.sound {crates : Crates} {sha256 : Bytes → Text} {keys : Option (Keyring crates)}
    (h : Dropped ns retained grace dryRun d d') (hsound : Sound crates sha256 keys d) :
    Sound crates sha256 keys d' := by
  intro path oid f hentry hfind
  rcases h.entries path oid hentry with hsame | ⟨-, hnone, -⟩
  · exact hsound path oid f hentry (by rw [← hsame, hfind])
  · rw [hfind] at hnone
    cases hnone

end

/-! ## A visit -/

section

variable {ns : Namespace} {retained : Finset Oid} {grace : Nat} {may : Files.Req Text → Prop}
  {d d' : Volume} {found : Found} {report : SweepReport} {elsewhere : List LocalPath} {oid : Oid}

/-- What is only looked at. -/
theorem looks_leaves {α β : Type} {A : α → Prop} {Q : β → Volume → Prop} {op : Op α}
    {f : α → Op β} (hlooks : Looking d.There A op)
    (hf : ∀ a d', d.Alike d' → A a → Leaves may Q (f a) d') : Leaves may Q (op >>= f) d :=
  Fallible.Alone.bind ((hlooks.alone (fun _ _ _ => trivial) fun _ _ => trivial).mono
    (fun a d' h => hf a d' h.1 h.2) fun _ h => h)

theorem linksTo_looks {There : LocalPath → Prop} (content : LocalPath) :
    Looking There (fun _ => True) (linksTo content) := by
  refine Fallible.Only.caught trivial fun answer _ => ?_
  cases answer <;> exact Fallible.Only.pure trivial

theorem probeEach_looks {There : LocalPath → Prop} (repos : List LocalPath) :
    Looking There (fun _ => True) (probeEach oid repos) := by
  induction repos with
  | nil => exact Fallible.Only.pure trivial
  | cons repo rest ih =>
      refine Fallible.Only.caught trivial fun answer _ => ?_
      cases answer with
      | ok _ => exact Fallible.Only.pure trivial
      | error _ => exact ih

theorem referencedElsewhere_looks {There : LocalPath → Prop} {ours : Nat} :
    Looking There (fun _ => True) (referencedElsewhere oid elsewhere ours) := by
  refine Fallible.Only.bind (linksTo_looks _) fun links _ => ?_
  cases links with
  | some links => exact Fallible.Only.pure trivial
  | none => exact probeEach_looks elsewhere

theorem sizeOr_looks {There : LocalPath → Prop} {content : LocalPath} {held : Nat} :
    Looking There (fun _ => True) (sizeOr content held) := by
  refine Fallible.Only.caught trivial fun answer _ => ?_
  cases answer <;> exact Fallible.Only.pure trivial

/-- What a visit leaves. -/
structure Swept (ns : Namespace) (retained : Finset Oid) (grace : Nat) (report : SweepReport)
    (d : Volume) (report' : SweepReport) (d' : Volume) : Prop where
  dropped : Dropped ns retained grace report.dryRun d d'
  dryRun : report'.dryRun = report.dryRun

theorem Swept.trans {report' report'' : SweepReport} {d'' : Volume}
    (h : Swept ns retained grace report d report' d')
    (h' : Swept ns retained grace report' d' report'' d'') :
    Swept ns retained grace report d report'' d'' :=
  ⟨h.dropped.trans (h.dryRun ▸ h'.dropped), h'.dryRun.trans h.dryRun⟩

theorem freeContent_leaves {held : Nat} (hdry : report.dryRun = false) :
    Leaves may (Swept ns retained grace report d) (freeContent oid held report) d := by
  refine looks_leaves sizeOr_looks fun size d₁ halike _ => ?_
  refine Fallible.Alone.caught fun answer d₂ hexec => ⟨trivial, ?_⟩
  rcases hexec.2.unlink with ⟨i, -, rfl, rfl⟩ | ⟨-, rfl, rfl⟩ | ⟨-, rfl, rfl⟩
  · refine Fallible.Alone.pure ⟨?_, rfl⟩
    rw [hdry]
    exact (Dropped.of_alike halike).trans .content
  · exact Fallible.Alone.pure ⟨.of_alike halike, rfl⟩
  · exact Fallible.Alone.pure ⟨.of_alike halike, rfl⟩

/-- **An object that may be dropped.** -/
theorem collect_leaves {held : Nat} {f : File} (hheld : HeldBy ns found)
    (hf : d.find found.path = some f) (hexpired : Expired retained grace found.oid f d.clock) :
    Leaves may (Swept ns retained grace report d)
      (collect found.path found.oid held elsewhere report) d := by
  rw [collect]
  split
  · refine looks_leaves referencedElsewhere_looks fun referenced d₁ halike _ => ?_
    cases referenced <;> exact Fallible.Alone.pure ⟨.of_alike halike, rfl⟩
  next hdry =>
  rw [Bool.not_eq_true] at hdry
  have hrest : ∀ d₁, Dropped ns retained grace report.dryRun d d₁ →
      Leaves may (Swept ns retained grace report d) (do
        if ← referencedElsewhere found.oid elsewhere 0 then return report
        else freeContent found.oid held report) d₁ := by
    intro d₁ hdropped
    refine looks_leaves referencedElsewhere_looks fun referenced d₂ halike _ => ?_
    have hdropped₂ := hdropped.trans (.of_alike halike)
    cases referenced with
    | true => exact Fallible.Alone.pure ⟨hdropped₂, rfl⟩
    | false =>
        have hfree : Leaves may (Swept ns retained grace report d₂)
          (freeContent found.oid held report) d₂ := freeContent_leaves hdry
        refine Fallible.Under.mono hfree (fun report' d' h => ?_) fun _ h => h
        exact ⟨hdropped₂.trans h.dropped, h.dryRun⟩
  rw [removeUnlessGone, bind_assoc]
  refine Fallible.Alone.caught fun answer d₁ hexec => ⟨trivial, ?_⟩
  rcases hexec.2.unlink with ⟨i, -, rfl, rfl⟩ | ⟨-, rfl, rfl⟩ | ⟨-, rfl, rfl⟩
  · refine hrest _ ?_
    rw [hdry]
    exact .own hheld hf hexpired
  · exact hrest _ (.of_alike (.refl _))
  · exact Fallible.Alone.throw trivial

/-- **A visit.** -/
theorem sweepOne_leaves (hheld : HeldBy ns found) :
    Leaves may (Swept ns retained grace report d)
      (sweepOne retained grace elsewhere found report) d := by
  rw [sweepOne]
  split
  · exact Fallible.Alone.pure ⟨.of_alike (.refl _), rfl⟩
  next hretained =>
  refine Fallible.Alone.caught fun answer d₁ hexec => ⟨trivial, ?_⟩
  obtain ⟨rfl, hcases⟩ := hexec.2.metadata
  rcases hcases with ⟨i, f, hi, hf, rfl⟩ | ⟨-, rfl⟩ | ⟨-, rfl⟩
  · show Leaves may _ (age _ >>= _) d₁
    rw [age, bind_assoc]
    refine Fallible.Alone.certain fun now d₂ hexec => ⟨trivial, ?_⟩
    obtain ⟨hle, rfl⟩ : d₁.clock ≤ now ∧ d₂ = d₁.tick now := by
      rcases hexec.2 with h | h
      · exact h
      · exact absurd h.2 id
    have halike : d₁.Alike (d₁.tick now) := ⟨rfl, rfl, hle, le_refl _⟩
    show Leaves may _ (if now - f.modified < grace then _ else _) _
    split
    · exact Fallible.Alone.pure ⟨.of_alike halike, rfl⟩
    next hold =>
    have hfind : (d₁.tick now).find found.path = some f := by
      rw [Disk.find_tick, Disk.find_of_inode hi, hf]
    refine Fallible.Under.mono (collect_leaves hheld hfind ⟨hretained, not_lt.mp hold⟩) ?_
      fun _ h => h
    exact fun _ _ h => ⟨(Dropped.of_alike halike).trans h.dropped, h.dryRun⟩
  · exact Fallible.Alone.pure ⟨.of_alike (.refl _), rfl⟩
  · exact Fallible.Alone.throw trivial

/-- **A run.** -/
theorem sweep_leaves {dryRun : Bool} :
    Leaves may (fun _ d' => Dropped ns retained grace dryRun d d')
      (sweep ns retained grace dryRun) d := by
  rw [sweep]
  refine looks_leaves (objectsOf_looks ns) fun walk d₁ halike hwalked => ?_
  refine looks_leaves (otherRepositories_looks ns) fun elsewhere d₂ halike₂ _ => ?_
  have hlooked : Dropped ns retained grace dryRun d d₂ := .of_alike (halike.trans halike₂)
  refine Fallible.Under.mono (visitEach_alone
    (J := Swept ns retained grace ⟨0, 0, 0, !walk.complete, dryRun⟩ d₂)
    (fun found hfound report d₃ hswept => ?_) ⟨.of_alike (.refl _), rfl⟩) ?_ fun _ h => h
  · refine Fallible.Under.mono (sweepOne_leaves (hwalked found hfound).1) ?_ fun _ h => h
    exact fun _ _ h => hswept.trans h
  · exact fun _ _ h => hlooked.trans h.dropped

end

end LocalStore

end Lfsx.Storage
