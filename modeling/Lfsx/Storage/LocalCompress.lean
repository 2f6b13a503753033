import Lfsx.Storage.LocalParts

/-!
# Compression keeps every object

Compress reads the file of a repository to its end, writes a container of what it read
under a staging name (`rewrite_leaves`), and puts it in the place of the file only if the
bytes it read have the right digest and the container is shorter (`swapIn_leaves`).  So an
entry is what it was, or it is shorter and decodes to its object (`Rewritten`), whatever it
was before.
-/

namespace Lfsx.Storage

open Request Files Codec

namespace LocalStore

/-- Every entry is what it was, or it is a shorter file of its object. -/
structure Rewritten (crates : Crates) (sha256 : Bytes → Text) (keys : Option (Keyring crates))
    (ns : Namespace) (d d' : Volume) : Prop where
  within : Confined ns d d'
  entries : ∀ path oid, Entry path oid → d'.find path = d.find path ∨
    ∃ f f', d.find path = some f ∧ d'.find path = some f' ∧ f'.bytes.length < f.bytes.length ∧
      Decodes crates sha256 keys oid f'.bytes

/-- The files a repository holds have no more frames than a container can count. -/
def Countable (ns : Namespace) (d : Volume) : Prop :=
  ∀ found f, HeldBy ns found → d.find found.path = some f → Small f.bytes

theorem small_of_length_le {a b : Bytes} (h : Small b) (hle : a.length ≤ b.length) : Small a := by
  have hmono : divCeil a.length frame ≤ divCeil b.length frame := by
    rw [divCeil, divCeil, frame]
    split <;> split <;> omega
  exact lt_of_le_of_lt hmono h

section

variable {crates : Crates} {sha256 : Bytes → Text} {keys : Option (Keyring crates)}
  {ns : Namespace} {d d' d'' : Volume}

theorem Rewritten.of_untouched (h : Untouched d d') (hwithin : Confined ns d d') :
    Rewritten crates sha256 keys ns d d' :=
  ⟨hwithin, fun path oid hentry => Or.inl (h path oid hentry)⟩

theorem Rewritten.trans (h : Rewritten crates sha256 keys ns d d')
    (h' : Rewritten crates sha256 keys ns d' d'') : Rewritten crates sha256 keys ns d d'' := by
  refine ⟨h.within.trans h'.within, fun path oid hentry => ?_⟩
  rcases h'.entries path oid hentry with hsame | ⟨f', f'', hf', hf'', hshorter', hdecodes⟩
  · rw [hsame]
    exact h.entries path oid hentry
  · rcases h.entries path oid hentry with hsame | ⟨f, g, hf, hg, hshorter, -⟩
    · exact Or.inr ⟨f', f'', by rw [← hsame, hf'], hf'', hshorter', hdecodes⟩
    · rw [hf', Option.some.injEq] at hg
      subst hg
      exact Or.inr ⟨f, f'', hf, hf'', hshorter'.trans hshorter, hdecodes⟩

theorem Rewritten.sound (h : Rewritten crates sha256 keys ns d d')
    (hsound : Sound crates sha256 keys d) : Sound crates sha256 keys d' := by
  intro path oid f hentry hfind
  rcases h.entries path oid hentry with hsame | ⟨-, f', -, hf', -, hdecodes⟩
  · exact hsound path oid f hentry (by rw [← hsame, hfind])
  · rw [hfind, Option.some.injEq] at hf'
    subst hf'
    exact hdecodes

theorem Rewritten.countable (h : Rewritten crates sha256 keys ns d d')
    (hcountable : Countable ns d) : Countable ns d' := by
  intro found f hheld hfind
  rcases h.entries found.path found.oid hheld.entry with hsame | ⟨g, f', hg, hf', hshorter, -⟩
  · exact hcountable found f hheld (by rw [← hsame, hfind])
  · rw [hfind, Option.some.injEq] at hf'
    subst hf'
    exact small_of_length_le (hcountable found g hheld hg) hshorter.le

end

/-! ## The parts -/

section

variable {crates : Crates} {sha256 : Bytes → Text} {store : LocalStore crates}
  {may : Files.Req Text → Prop} {d d' : Volume} {oid : Oid} {t : Nat} {dir path : LocalPath}

theorem reading_leaves {α β : Type} {Q : β → Volume → Prop} {handle : Nat}
    {p : Reading (Except Error α)} {f : α → Op β} (hf : ∀ a, Leaves may Q (f a) d) :
    Leaves may Q (reading handle p >>= f) d := by
  refine Fallible.Under.bind Fallible.stable_never ?_
  rw [Fallible.Under, reading, ExceptT.run_mk]
  induction p with
  | pure answer =>
      cases answer with
      | ok a => exact Program.Under.pure Fallible.stable_never (hf a)
      | error e => exact Program.Under.pure Fallible.stable_never trivial
  | request r next ih =>
      intro d₁ h₁ answer d₂ hexec
      rw [Fallible.eq_of_never h₁] at hexec
      have hsame : d₂ = d := by rcases hexec.2 with h | h; exacts [h.2, h.2.2]
      rw [hsame]
      exact ⟨trivial, ih _⟩

theorem isFramed_leaves {β : Type} {Q : β → Volume → Prop} {onDisk : Nat} {f : Bool → Op β}
    (hf : ∀ framed, Leaves may Q (f framed) d) :
    Leaves may Q (store.isFramed path oid onDisk >>= f) d := by
  rw [isFramed, bind_assoc]
  refine Fallible.Alone.mapped fun answer d₁ hexec => ⟨trivial, ?_⟩
  obtain ⟨rfl, -⟩ := hexec.2.openFile
  cases answer with
  | error e => exact trivial
  | ok file =>
      show Leaves may Q ((reading file (Framed.open crates onDisk store.keys oid) >>=
        fun opened => pure opened.isSome) >>= f) d₁
      rw [bind_assoc]
      exact reading_leaves fun opened => hf opened.isSome

theorem rename_leaves {β : Type} {Q : β → Volume → Prop} {source target : LocalPath}
    {f : Unit → Op β}
    (hf : ∀ i, d.inode source = some i → Leaves may Q (f ()) (d.rename source target)) :
    Leaves may Q (io (Files.rename source target) >>= f) d :=
  rename_alone (fun _ => trivial) trivial fun i hi => ⟨trivial, hf i hi⟩

/-- A rename with nothing after it. -/
theorem rename_ends {Q : Unit → Volume → Prop} {source target : LocalPath}
    (hf : ∀ i, d.inode source = some i → Q () (d.rename source target)) :
    Leaves may Q (io (Files.rename source target)) d := by
  rw [← bind_pure (io _)]
  exact rename_leaves fun i hi => Fallible.Alone.pure (hf i hi)

/-- Whatever comes of a staging file that is given up. -/
theorem giveUp_leaves {α : Type} {Q : α → Volume → Prop} {staged : LocalPath} {e : Error} :
    Leaves may Q (giveUp staged e) d :=
  Fallible.Alone.caught fun _ _ _ => ⟨trivial, Fallible.Alone.throw trivial⟩

theorem discard_leaves {β : Type} {Q : β → Volume → Prop} {f : Unit → Op β}
    (hf : ∀ d', Beside (part dir oid t) d d' → Leaves may Q (f ()) d') :
    Leaves may Q (discard (part dir oid t) >>= f) d := by
  rw [discard, bind_assoc]
  refine Fallible.Alone.caught fun answer d₁ hexec => ⟨trivial, ?_⟩
  rcases hexec.2.unlink with ⟨i, -, -, rfl⟩ | ⟨-, -, rfl⟩ | ⟨-, -, rfl⟩
  · exact hf _ .unname
  · exact hf _ (.refl _ _)
  · exact hf _ (.refl _ _)

/-- What a rewrite made of a file: a container of its bytes, in a staging file. -/
structure Rewrote (crates : Crates) (sha256 : Bytes → Text) (keys : Option (Keyring crates))
    (oid : Oid) (f : File) (p : LocalPath) (d : Volume) (answer : Text × Nat) (d' : Volume) :
    Prop where
  beside : Beside p d d'
  digest : answer.1 = sha256 f.bytes
  file : ∃ g, d'.find p = some g ∧ answer.2 = g.bytes.length ∧ Opens crates keys oid g.bytes f.bytes

/-- **A rewrite** reads the file as it is, since no entry has the staging file. -/
theorem rewrite_leaves {level : Int} {f : File} (lawful : crates.Lawful) (hentry : Entry path oid)
    (hfind : d.find path = some f) (hsmall : Small f.bytes) :
    Leaves may (Rewrote crates sha256 store.keys oid f (part dir oid t) d)
      (store.rewrite sha256 path (part dir oid t) oid level) d := by
  obtain ⟨i, hi, hf⟩ := Disk.find_eq_some.mp hfind
  rw [rewrite]
  refine Fallible.Alone.mapped fun answer d₁ hexec => ⟨trivial, ?_⟩
  obtain ⟨rfl, hcases⟩ := hexec.2.openFile
  rcases hcases with ⟨j, hj, rfl⟩ | ⟨-, rfl⟩ | ⟨-, rfl⟩
  · rw [hi, Option.some.injEq] at hj
    subst hj
    have hwritten : ∀ d₂ h, Beside (part dir oid t) d₁ d₂ → d₂.file i = some f →
        d₂.inode (part dir oid t) = some h → Apart d₂ (part dir oid t) →
        Leaves may (Rewrote crates sha256 store.keys oid f (part dir oid t) d₁) (do
          let key ← writingKey store.keys
          let bytes ← io (readAll i)
          let container ←
            Fallible.ofExcept (Writer.write crates (some level) key oid (framesOf buffer bytes))
          io (Files.write h container)
          let compressed ← io (metadata (part dir oid t))
          return (sha256 bytes, compressed.length)) d₂ := by
      intro d₂ h hbeside hfile hh hapart
      refine writingKey_alone trivial fun key hkey => ?_
      refine Fallible.Alone.mapped fun answer d₃ hexec => ⟨trivial, ?_⟩
      obtain ⟨rfl, hcases⟩ := hexec.2.readAll
      rcases hcases with ⟨g, hg, rfl⟩ | rfl
      · rw [hfile, Option.some.injEq] at hg
        subst hg
        refine Fallible.Under.ofExcept Fallible.stable_never (fun container hcontainer => ?_)
          fun _ _ => trivial
        have hopens : Opens crates store.keys oid container f.bytes := by
          have hflatten : (framesOf buffer f.bytes).flatten = f.bytes := flatten_framesOf f.bytes
          have hopens := opens_container lawful (by rw [hflatten]; exact hsmall) hcontainer hkey
          rwa [hflatten] at hopens
        refine Fallible.Alone.mapped fun answer d₄ hexec => ⟨trivial, ?_⟩
        rcases hexec.2.write with ⟨rfl, time, -, rfl⟩ | ⟨-, rfl, -⟩
        · have hfilled : (d₃.fill h container time).find (part dir oid t) =
            some ⟨container, time⟩ :=
            Disk.find_fill_self hh
          refine Fallible.Alone.mapped fun answer d₅ hexec => ⟨trivial, ?_⟩
          obtain ⟨rfl, hcases⟩ := hexec.2.metadata
          rcases hcases with ⟨j, g, hj, hg, rfl⟩ | ⟨-, rfl⟩ | ⟨-, rfl⟩
          · rw [Disk.find_of_inode hj, hg, Option.some.injEq] at hfilled
            subst hfilled
            refine Fallible.Alone.pure ⟨hbeside.trans (.fill hh hapart), rfl, _, ?_, rfl, hopens⟩
            rw [Disk.find_of_inode hj, hg]
          · exact trivial
          · exact trivial
        · exact trivial
      · exact trivial
    refine Fallible.Alone.mapped fun answer d₂ hexec => ⟨trivial, ?_⟩
    rcases hexec.2.create with ⟨j, time, hj, rfl, -, rfl⟩ | ⟨time, -, rfl, -, rfl⟩ | ⟨-, rfl, rfl⟩
    · have hapart : Apart d₁ (part dir oid t) := hexec.1
      refine hwritten _ j (.fill hj hapart) ?_ hj hapart
      rw [Disk.file_fill_ne, hf]
      rintro rfl
      exact hapart i hj path oid hentry hi
    · refine hwritten _ _ .add ?_ (by rw [Disk.inode_add, if_pos rfl])
        (apart_add _ fun q oid' hq => hq.ne_part dir oid t)
      rw [Disk.file_add_old (Disk.inode_lt hi), hf]
    · exact trivial
  · exact trivial
  · exact trivial

end

/-! ## A visit -/

section

variable {crates : Crates} {sha256 : Bytes → Text} {store : LocalStore crates}
  {may : Files.Req Text → Prop} {d d' : Volume} {ns : Namespace} {found : Found} {t : Nat}
  {report report' : CompressReport} {f g : File}

/-- A shorter file in the place of an entry. -/
theorem Renewed.rewritten {keys : Option (Keyring crates)} {path p : LocalPath} {oid : Oid}
    {d₀ : Volume} (h : Renewed path p g d d') (hbefore : Untouched d₀ d)
    (hwithin : Confined ns d₀ d') (hentry : Entry path oid) (hf : d₀.find path = some f)
    (hshorter : g.bytes.length < f.bytes.length)
    (hdecodes : Decodes crates sha256 keys oid g.bytes) :
    Rewritten crates sha256 keys ns d₀ d' := by
  refine ⟨hwithin, fun q oid' hq => ?_⟩
  by_cases hpath : q = path
  · subst hpath
    rw [hq.unique hentry]
    exact Or.inr ⟨f, g, hf, h.target, hshorter, hdecodes⟩
  · exact Or.inl ((h.entries q oid' hq hpath).trans (hbefore q oid' hq))

/-- **The container in the place of the file**, and of the content if the file is that. -/
theorem swapIn_leaves {keys : Option (Keyring crates)} (hheld : HeldBy ns found)
    (hf : d.find found.path = some f)
    (hg : d.find (part (parent found.path) found.oid t) = some g)
    (hshorter : g.bytes.length < f.bytes.length)
    (hdecodes : Decodes crates sha256 keys found.oid g.bytes) :
    Leaves may (fun _ d' => Rewritten crates sha256 keys ns d d')
      (swapIn found.path (part (parent found.path) found.oid t) found.oid) d := by
  have hstaged := hheld.staging t
  rw [swapIn]
  refine sharesBytesWith_alone (fun _ _ _ => trivial) (fun i hi hcontent => ?_) ?_
  · have hshared : d.find (contentPath found.oid) = some f := by
      rw [Disk.find_of_inode hcontent, ← Disk.find_of_inode hi, hf]
    refine rename_leaves fun j hj => ?_
    have hrenewed : Renewed (contentPath found.oid) _ g d _ := renewed_rename hj hg
    have hcontent : Rewritten crates sha256 keys ns d _ := hrenewed.rewritten (.refl d)
      (confined_rename hstaged (.content found.oid) hj) (.content found.oid) hshared hshorter
      hdecodes
    have hnew := hrenewed.target
    have hold := hrenewed.entries _ _ hheld.entry (hheld.ne_content _)
    clear hrenewed
    generalize d.rename (part (parent found.path) found.oid t) (contentPath found.oid) = d₁
      at hcontent hnew hold ⊢
    refine stagingPath_alone (fun _ _ _ => trivial)
      (linkStaged_alone (fun _ _ _ => trivial) (fun _ => trivial) fun d₂ hstaging => ?_)
    obtain ⟨g₁, g', hg₁, hg', hbytes⟩ := hstaging.bytes
    rw [Disk.find_issue, hnew, Option.some.injEq] at hg₁
    subst hg₁
    refine rename_ends fun k hk => ?_
    have hrelink : Confined ns d₁ d₂ := fun q hq => hstaging.beside.names q fun heq =>
      hq (heq ▸ hheld.staging d₁.ticket)
    refine hcontent.trans ((renewed_rename hk hg').rewritten hstaging.beside.entries
      (hrelink.trans (confined_rename (hheld.staging _) hheld.place hk)) hheld.entry
      (hold.trans hf) ?_ ?_)
    · rw [hbytes]
      exact hshorter
    · rw [hbytes]
      exact hdecodes
  · refine rename_ends fun j hj => ?_
    exact (renewed_rename hj hg).rewritten (.refl d) (confined_rename hstaged hheld.place hj)
      hheld.entry hf hshorter hdecodes

/-- What a visit leaves, and a dry run leaves everything. -/
structure Compressed (crates : Crates) (sha256 : Bytes → Text) (keys : Option (Keyring crates))
    (ns : Namespace) (report : CompressReport) (d : Volume) (report' : CompressReport)
    (d' : Volume) : Prop where
  rewritten : Rewritten crates sha256 keys ns d d'
  dryRun : report'.dryRun = report.dryRun
  untouched : report.dryRun = true → Untouched d d'

theorem Compressed.refl {keys : Option (Keyring crates)} (hdry : report'.dryRun = report.dryRun) :
    Compressed crates sha256 keys ns report d report' d :=
  ⟨.of_untouched (.refl d) (.refl ns d), hdry, fun _ => .refl d⟩

theorem Compressed.trans {keys : Option (Keyring crates)} {report'' : CompressReport}
    {d'' : Volume} (h : Compressed crates sha256 keys ns report d report' d')
    (h' : Compressed crates sha256 keys ns report' d' report'' d'') :
    Compressed crates sha256 keys ns report d report'' d'' :=
  ⟨h.rewritten.trans h'.rewritten, h'.dryRun.trans h.dryRun,
    fun hdry => (h.untouched hdry).trans (h'.untouched (h.dryRun.trans hdry))⟩

theorem compressObject_leaves {level : Int} (lawful : crates.Lawful) (hheld : HeldBy ns found)
    (hf : d.find found.path = some f) (hsmall : Small f.bytes) :
    Leaves may (Compressed crates sha256 store.keys ns report d)
      (store.compressObject sha256 found.path found.oid f.bytes.length level report) d := by
  rw [compressObject]
  refine stagingPath_alone (fun _ _ _ => trivial) ?_
  refine Fallible.Under.attempt (Fallible.Under.mono
    (rewrite_leaves lawful hheld.entry ((Disk.find_issue _).trans hf) hsmall) ?_
    fun _ _ _ => giveUp_leaves)
  rintro ⟨digest, compressed⟩ d₁ ⟨hbeside, hdigest, g, hg, hlength, hopens⟩
  have hbefore : Untouched d d₁ := hbeside.entries
  have hwithin : ∀ d₂, Beside (part (parent found.path) found.oid d.ticket) d₁ d₂ →
      Confined ns d d₂ := by
    intro d₂ hafter q hq
    exact (hbeside.trans hafter).names q fun heq => hq (heq ▸ hheld.staging d.ticket)
  have hdiscarded : ∀ (report' : CompressReport), report'.dryRun = report.dryRun →
      Leaves may (Compressed crates sha256 store.keys ns report d) (do
        discard (part (parent found.path) found.oid d.ticket)
        return report') d₁ := by
    intro report' hdry
    refine discard_leaves fun d₂ hafter => Fallible.Alone.pure ⟨?_, hdry, fun _ => ?_⟩
    · exact .of_untouched (hbefore.trans hafter.entries) (hwithin d₂ hafter)
    · exact hbefore.trans hafter.entries
  show Leaves may _ (if digest ≠ found.oid.text then _ else _) d₁
  split
  · exact hdiscarded _ rfl
  split
  · exact hdiscarded _ rfl
  split
  · exact hdiscarded _ rfl
  next hmatches hlonger hdry =>
  have hshorter : g.bytes.length < f.bytes.length := by
    have : compressed = g.bytes.length := hlength
    omega
  have hdecodes : Decodes crates sha256 store.keys found.oid g.bytes :=
    ⟨f.bytes, hdigest.symm.trans (not_not.mp hmatches), hopens⟩
  refine Fallible.Alone.bind (Fallible.Under.mono (swapIn_leaves hheld
    ((hbefore _ _ hheld.entry).trans hf) hg hshorter hdecodes) ?_ fun _ h => h)
  intro _ d₂ hswapped
  refine Fallible.Alone.pure ⟨?_, rfl, fun h => absurd h hdry⟩
  exact (Rewritten.of_untouched hbefore (hwithin d₁ (.refl _ _))).trans hswapped

/-- **A visit.** -/
theorem compressOne_leaves {level : Int} (lawful : crates.Lawful) (hheld : HeldBy ns found)
    (hcountable : Countable ns d) :
    Leaves may (Compressed crates sha256 store.keys ns report d)
      (store.compressOne sha256 level found report) d := by
  rw [compressOne]
  refine Fallible.Alone.mapped fun answer d₁ hexec => ⟨trivial, ?_⟩
  obtain ⟨rfl, hcases⟩ := hexec.2.metadata
  rcases hcases with ⟨i, f, hi, hf, rfl⟩ | ⟨-, rfl⟩ | ⟨-, rfl⟩
  · have hfind : d₁.find found.path = some f := by rw [Disk.find_of_inode hi, hf]
    refine isFramed_leaves fun framed => ?_
    cases framed with
    | true => exact Fallible.Alone.pure (.refl rfl)
    | false =>
        refine Fallible.Under.mono (compressObject_leaves lawful hheld hfind
          (hcountable found f hheld hfind)) ?_ fun _ h => h
        exact fun _ _ h => ⟨h.rewritten, h.dryRun, h.untouched⟩
  · exact trivial
  · exact trivial

/-- **A run.** -/
theorem compress_leaves {dryRun : Bool} (lawful : crates.Lawful) (hcountable : Countable ns d) :
    Leaves may (fun _ d' => Rewritten crates sha256 store.keys ns d d' ∧
        (dryRun = true → Untouched d d'))
      (store.compress sha256 ns dryRun) d := by
  rw [compress]
  split
  · exact Fallible.Alone.throw trivial
  refine Fallible.Alone.bind (((objectsOf_looks ns).alone (fun _ _ _ => trivial)
    fun _ _ => trivial).mono ?_ fun _ h => h)
  rintro walk d₁ ⟨halike, hwalked⟩
  have huntouched : Untouched d d₁ := untouched_of_alike halike
  have hlooked : Rewritten crates sha256 store.keys ns d d₁ :=
    .of_untouched huntouched (confined_of_alike halike)
  refine Fallible.Under.mono (visitEach_alone
    (J := Compressed crates sha256 store.keys ns
      ⟨0, 0, 0, 0, 0, 0, 0, !walk.complete, dryRun⟩ d₁)
    (fun found hfound report d₂ hcompressed => ?_) (.refl rfl)) ?_ fun _ h => h
  · have hcountable₂ := (hlooked.trans hcompressed.rewritten).countable hcountable
    refine Fallible.Under.mono (compressOne_leaves lawful (hwalked found hfound).1 hcountable₂) ?_
      fun _ h => h
    exact fun _ _ h => hcompressed.trans h
  · exact fun _ _ h => ⟨hlooked.trans h.rewritten, fun hdry => huntouched.trans (h.untouched hdry)⟩

end

end LocalStore

end Lfsx.Storage
