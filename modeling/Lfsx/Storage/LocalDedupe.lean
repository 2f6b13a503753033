import Lfsx.Storage.LocalAtomic
import Lfsx.Storage.LocalParts

/-!
# Deduplication leaves no gap

Dedupe moves bytes between the entries of one object and makes none (`Shuffled`).  Where
the content is there already, it links to it under a staging name and renames the link
over the file of the repository, so that an entry has its file or the content at every
point of the run (`Adopted`).

Where it is not there, the file of the repository is renamed to be the content, and until
it is linked back the repository has nothing (`dedupe_gap`).  So a run leaves no gap if it
has nothing to promote (`Shareable`, `dedupe_no_gap`).  And the content is given to a
repository when its bytes have the right digest.  They are not the object if they begin as
a container does, so content has to be what it hashes to (`Faithful`).
-/

namespace Lfsx.Storage

open Request Files

namespace LocalStore

section

variable (crates : Crates) (sha256 : Bytes → Text) (keys : Option (Keyring crates))

/-- Every entry is what it was, or it has the bytes of the content, which have the right
digest. -/
def Adopted (d d' : Volume) : Prop :=
  ∀ path oid, Entry path oid → d'.find path = d.find path ∨
    ∃ g g', d.find (contentPath oid) = some g ∧ sha256 g.bytes = oid.text ∧
      d'.find path = some g' ∧ g'.bytes = g.bytes

/-- Every entry is what it was, or it has the bytes an entry of the same object had, and a
repository has it in the place of something. -/
structure Shuffled (ns : Namespace) (d d' : Volume) : Prop where
  within : Confined ns d d'
  entries : ∀ path oid, Entry path oid → d'.find path = d.find path ∨
    (d.There path ∨ path = contentPath oid) ∧
      ∃ f', d'.find path = some f' ∧ ∃ q f, Entry q oid ∧ d.find q = some f ∧ f'.bytes = f.bytes

/-- Content that hashes to its name is what it hashes to. -/
def Faithful (d : Volume) : Prop :=
  ∀ oid g, d.find (contentPath oid) = some g → sha256 g.bytes = oid.text →
    Decodes crates sha256 keys oid g.bytes

/-- What a repository holds under its digest is content already. -/
def Shareable (ns : Namespace) (d : Volume) : Prop :=
  ∀ found f, HeldBy ns found → d.find found.path = some f → sha256 f.bytes = found.oid.text →
    ∃ g, d.find (contentPath found.oid) = some g

end

section

variable {crates : Crates} {sha256 : Bytes → Text} {keys : Option (Keyring crates)}
  {d d' d'' : Volume}

theorem Untouched.adopted (h : Untouched d d') : Adopted sha256 d d' :=
  fun path oid hentry => Or.inl (h path oid hentry)

/-- The content before is the content after. -/
theorem Adopted.content {oid : Oid} {g : File} (h : Adopted sha256 d d')
    (hg : d'.find (contentPath oid) = some g) :
    ∃ g', d.find (contentPath oid) = some g' ∧ g.bytes = g'.bytes := by
  rcases h _ oid (.content oid) with hsame | ⟨g₁, g₂, hg₁, -, hg₂, hbytes⟩
  · exact ⟨g, by rw [← hsame, hg], rfl⟩
  · rw [hg, Option.some.injEq] at hg₂
    subst hg₂
    exact ⟨g₁, hg₁, hbytes⟩

theorem Adopted.trans (h : Adopted sha256 d d') (h' : Adopted sha256 d' d'') :
    Adopted sha256 d d'' := by
  intro path oid hentry
  rcases h' path oid hentry with hsame | ⟨g, g', hg, hdigest, hg', hbytes⟩
  · rw [hsame]
    exact h path oid hentry
  · obtain ⟨g₀, hg₀, hbytes₀⟩ := h.content hg
    exact Or.inr ⟨g₀, g', hg₀, by rw [← hbytes₀, hdigest], hg', hbytes.trans hbytes₀⟩

/-- An entry that decoded does so still. -/
theorem Adopted.decodes {path : LocalPath} {oid : Oid} {f : File} (h : Adopted sha256 d d')
    (hfaithful : Faithful crates sha256 keys d) (hentry : Entry path oid)
    (hfind : d.find path = some f) (hdecodes : Decodes crates sha256 keys oid f.bytes) :
    ∃ f', d'.find path = some f' ∧ Decodes crates sha256 keys oid f'.bytes := by
  rcases h path oid hentry with hsame | ⟨g, g', hg, hdigest, hg', hbytes⟩
  · exact ⟨f, by rw [hsame, hfind], hdecodes⟩
  · exact ⟨g', hg', by rw [hbytes]; exact hfaithful oid g hg hdigest⟩

/-- What has nothing to promote has nothing to promote later. -/
theorem Adopted.shareable {ns : Namespace} (h : Adopted sha256 d d')
    (hshareable : Shareable sha256 ns d) : Shareable sha256 ns d' := by
  intro found f hheld hfind hdigest
  have hcontent : ∀ g, d.find (contentPath found.oid) = some g →
      ∃ g', d'.find (contentPath found.oid) = some g' := by
    intro g hg
    rcases h _ found.oid (.content found.oid) with hsame | ⟨-, g', -, -, hg', -⟩
    · exact ⟨g, by rw [hsame, hg]⟩
    · exact ⟨g', hg'⟩
  rcases h _ found.oid hheld.entry with hsame | ⟨g, -, hg, -, -, -⟩
  · obtain ⟨g, hg⟩ := hshareable found f hheld (by rw [← hsame, hfind]) hdigest
    exact hcontent g hg
  · exact hcontent g hg

theorem Shuffled.refl (ns : Namespace) (d : Volume) : Shuffled ns d d :=
  ⟨.refl ns d, fun _ _ _ => Or.inl rfl⟩

/-- What is in the place of an entry was there, unless it is content. -/
theorem Shuffled.there_of {ns : Namespace} {path : LocalPath} {oid : Oid}
    (h : Shuffled ns d d') (hentry : Entry path oid) (hthere : d'.There path) :
    d.There path ∨ path = contentPath oid := by
  obtain ⟨rest, i, hi⟩ := hthere
  cases rest with
  | nil =>
      rw [List.append_nil] at hi
      rcases h.entries path oid hentry with hsame | ⟨hnew, -⟩
      · left
        obtain ⟨f, hf⟩ := Disk.exists_file hi
        rw [Disk.find_of_inode hi, hf, eq_comm, Disk.find_eq_some] at hsame
        obtain ⟨j, hj, -⟩ := hsame
        exact ⟨[], j, by rw [List.append_nil, hj]⟩
      · exact hnew
  | cons name rest =>
      rw [h.within _ fun hplace => hplace.not_under hentry name rest rfl] at hi
      exact Or.inl ⟨name :: rest, i, hi⟩

/-- What is in the place of an entry stays there. -/
theorem Shuffled.there {ns : Namespace} {path : LocalPath} {oid : Oid}
    (h : Shuffled ns d d') (hentry : Entry path oid) (hthere : d.There path) : d'.There path := by
  obtain ⟨rest, i, hi⟩ := hthere
  cases rest with
  | nil =>
      rw [List.append_nil] at hi
      obtain ⟨f, hf⟩ := Disk.exists_file hi
      have hfound : ∃ f', d'.find path = some f' := by
        rcases h.entries path oid hentry with hsame | ⟨-, f', hf', -⟩
        · exact ⟨f, by rw [hsame, Disk.find_of_inode hi, hf]⟩
        · exact ⟨f', hf'⟩
      obtain ⟨f', hf'⟩ := hfound
      obtain ⟨j, hj, -⟩ := Disk.find_eq_some.mp hf'
      exact ⟨[], j, by rw [List.append_nil, hj]⟩
  | cons name rest =>
      exact ⟨name :: rest, i, by
        rw [h.within _ fun hplace => hplace.not_under hentry name rest rfl, hi]⟩

theorem Shuffled.trans {ns : Namespace} (h : Shuffled ns d d') (h' : Shuffled ns d' d'') :
    Shuffled ns d d'' := by
  refine ⟨h.within.trans h'.within, fun path oid hentry => ?_⟩
  rcases h'.entries path oid hentry with hsame | ⟨hnew, f', hf', q, f, hq, hf, hbytes⟩
  · rw [hsame]
    exact h.entries path oid hentry
  · refine Or.inr ⟨hnew.elim (h.there_of hentry) Or.inr, f', hf', ?_⟩
    rcases h.entries q oid hq with hsame | ⟨-, g', hg', q', g, hq', hg, hbytes'⟩
    · exact ⟨q, f, hq, by rw [← hsame, hf], hbytes⟩
    · rw [hf, Option.some.injEq] at hg'
      subst hg'
      exact ⟨q', g, hq', hg, hbytes.trans hbytes'⟩

/-- What entries hold between them is what they held. -/
theorem Shuffled.sound {ns : Namespace} (h : Shuffled ns d d')
    (hsound : Sound crates sha256 keys d) : Sound crates sha256 keys d' := by
  intro path oid f hentry hfind
  rcases h.entries path oid hentry with hsame | ⟨-, f', hf', q, g, hq, hg, hbytes⟩
  · exact hsound path oid f hentry (by rw [← hsame, hfind])
  · rw [hfind, Option.some.injEq] at hf'
    subst hf'
    rw [hbytes]
    exact hsound q oid g hq hg

end

/-! ## A visit -/

/-- What a visit leaves, and a dry run leaves everything. -/
structure Deduped (ns : Namespace) (report : DedupeReport) (d : Volume) (report' : DedupeReport)
    (d' : Volume) : Prop where
  shuffled : Shuffled ns d d'
  dryRun : report'.dryRun = report.dryRun
  untouched : report.dryRun = true → Untouched d d'

section

variable {crates : Crates} {sha256 : Bytes → Text} {keys : Option (Keyring crates)}
  {may : Files.Req Text → Prop} {G : Volume → Volume → Prop} {d d' : Volume} {ns : Namespace}
  {found : Found} {report report' : DedupeReport} {size : Nat}

theorem Deduped.refl (hdry : report'.dryRun = report.dryRun) :
    Deduped ns report d report' d :=
  ⟨.refl ns d, hdry, fun _ => .refl d⟩

theorem Deduped.trans {report'' : DedupeReport} {d'' : Volume}
    (h : Deduped ns report d report' d') (h' : Deduped ns report' d' report'' d'') :
    Deduped ns report d report'' d'' :=
  ⟨h.shuffled.trans h'.shuffled, h'.dryRun.trans h.dryRun,
    fun hdry => (h.untouched hdry).trans (h'.untouched (h.dryRun.trans hdry))⟩

/-- The content takes the place of the file. -/
theorem Renewed.adopted {p : LocalPath} {d₁ d₂ : Volume} {g g' : File}
    (h : Renewed found.path p g' d₁ d₂) (hheld : HeldBy ns found) (hbefore : Untouched d d₁)
    (hg : d.find (contentPath found.oid) = some g) (hdigest : sha256 g.bytes = found.oid.text)
    (hbytes : g'.bytes = g.bytes) : Adopted sha256 d₁ d₂ := by
  intro q oid hentry
  by_cases hq : q = found.path
  · subst hq
    rw [hentry.unique hheld.entry]
    refine Or.inr ⟨g, g', ?_, hdigest, h.target, hbytes⟩
    rw [hbefore _ _ (.content found.oid), hg]
  · exact Or.inl (h.entries q oid hentry hq)

theorem Renewed.shuffled {p : LocalPath} {d₁ d₂ : Volume} {g g' : File}
    (h : Renewed found.path p g' d₁ d₂) (hheld : HeldBy ns found) (hbefore : Untouched d d₁)
    (hwithin : Confined ns d d₂) (hpath : d.There found.path)
    (hg : d.find (contentPath found.oid) = some g) (hbytes : g'.bytes = g.bytes) :
    Shuffled ns d d₂ := by
  refine ⟨hwithin, fun q oid hentry => ?_⟩
  by_cases hq : q = found.path
  · subst hq
    rw [hentry.unique hheld.entry]
    exact Or.inr ⟨Or.inl hpath, g', h.target, _, g, .content found.oid, hg, hbytes⟩
  · exact Or.inl ((h.entries q oid hentry hq).trans (hbefore q oid hentry))

/-- **The content in the place of the repository's file.** -/
theorem adopt_alone (hG : ∀ a b, Adopted sha256 a b → G a b) (hheld : HeldBy ns found)
    (hpath : d.There found.path) :
    (adopt sha256 found.path found.oid size report).Alone (Clean may) G (Deduped ns report d)
      (fun _ => True) d := by
  have hsame : ∀ a b, Untouched a b → G a b := fun a b h => hG a b h.adopted
  rw [adopt]
  split
  · exact Fallible.Alone.pure (.refl rfl)
  next hdry =>
  refine hashesTo_alone hsame (fun g hg hdigest => ?_) (Fallible.Alone.pure (.refl rfl))
  refine stagingPath_alone hsame (linkStaged_alone hsame (fun _ => trivial) fun d₁ hstaging => ?_)
  obtain ⟨g₁, g', hg₁, hg', hbytes⟩ := hstaging.bytes
  rw [Disk.find_issue, hg, Option.some.injEq] at hg₁
  subst hg₁
  have hbefore : Untouched d d₁ := hstaging.beside.entries
  refine rename_alone (fun _ => trivial) (hsame _ _ (.refl _)) fun j hj => ?_
  have hrenewed : Renewed found.path (part (parent found.path) found.oid d.ticket) g' d₁ _ :=
    renewed_rename hj hg'
  refine ⟨hG _ _ (hrenewed.adopted hheld hbefore hg hdigest hbytes), Fallible.Alone.pure ?_⟩
  have hstaged : Confined ns d d₁ := fun q hq => hstaging.beside.names q fun heq =>
    hq (heq ▸ hheld.staging d.ticket)
  have hwithin := hstaged.trans (confined_rename (hheld.staging d.ticket) hheld.place hj)
  exact ⟨hrenewed.shuffled hheld hbefore hwithin hpath hg hbytes, rfl, fun h => absurd h hdry⟩

/-- What a promotion leaves: the path and the content have the bytes the path had. -/
theorem shuffled_promoted {d₁ d₂ : Volume} {f f' : File} (hheld : HeldBy ns found)
    (hf : d.find found.path = some f)
    (hrename : d₁ = d.rename found.path (contentPath found.oid)) (hwithin : Confined ns d d₂)
    (hothers : ∀ q, q ≠ found.path → d₂.find q = d₁.find q)
    (hf' : d₂.find found.path = some f') (hbytes : f'.bytes = f.bytes) :
    Shuffled ns d d₂ := by
  obtain ⟨i, hi, hfile⟩ := Disk.find_eq_some.mp hf
  refine ⟨hwithin, fun q oid hentry => ?_⟩
  by_cases hq : q = found.path
  · subst hq
    have hthere : d.There found.path := ⟨[], i, by rw [List.append_nil, hi]⟩
    exact Or.inr ⟨Or.inl hthere, f', hf', _, f, hentry, hf, hbytes⟩
  · rw [hothers q hq, hrename]
    by_cases hcontent : q = contentPath found.oid
    · subst hcontent
      rw [hentry.unique (.content found.oid)]
      exact Or.inr ⟨Or.inr rfl, f, by rw [Disk.find_rename_target hi, hfile], _, f, hheld.entry,
        hf, rfl⟩
    · exact Or.inl (Disk.find_rename_other hi hq hcontent)

/-- **The repository's file becomes the content.**  No step is promised to be anything. -/
theorem promote_alone (hG : ∀ a b, Untouched a b → G a b)
    (hgap : ∀ f, d.find found.path = some f → sha256 f.bytes = found.oid.text → ∀ a b, G a b)
    (hheld : HeldBy ns found) :
    (promote sha256 found.path found.oid report).Alone (Clean may) G (Deduped ns report d)
      (fun _ => True) d := by
  rw [promote]
  split
  · exact Fallible.Alone.pure (.refl rfl)
  next hdry =>
  refine hashesTo_alone hG (fun f hf hdigest => ?_) (Fallible.Alone.pure (.refl rfl))
  have hany : ∀ a b, G a b := hgap f hf hdigest
  refine Fallible.Alone.mapped fun answer d₁ hexec => ⟨hany _ _, ?_⟩
  have hsame : d₁ = d := by rcases hexec.2 with h | h; exacts [h.2, h.2.2]
  subst hsame
  cases answer with
  | error e => exact trivial
  | ok _ =>
  refine rename_alone (fun _ => trivial) (hany _ _) fun i hi => ⟨hany _ _, ?_⟩
  have hwithin : Confined ns d₁ (d₁.rename found.path (contentPath found.oid)) :=
    confined_rename hheld.place (.content found.oid) hi
  have hfile : d₁.file i = some f := by rw [← hf, Disk.find_of_inode hi]
  have hcontent : (d₁.rename found.path (contentPath found.oid)).find (contentPath found.oid) =
      some f := by rw [Disk.find_rename_target hi, hfile]
  have hdone : ∀ d₂ f', Confined ns (d₁.rename found.path (contentPath found.oid)) d₂ →
      (∀ q, q ≠ found.path →
        d₂.find q = (d₁.rename found.path (contentPath found.oid)).find q) →
      d₂.find found.path = some f' → f'.bytes = f.bytes →
      Deduped ns report d₁ { report with adopted := report.adopted + 1 } d₂ :=
    fun d₂ f' hafter hothers hf' hbytes =>
      ⟨shuffled_promoted hheld hf rfl (hwithin.trans hafter) hothers hf' hbytes, rfl,
        fun h => absurd h hdry⟩
  have hback : ∀ e d', (do
      io (Files.rename (contentPath found.oid) found.path)
      throw (Error.ofRefused e) : Op DedupeReport).Alone (Clean may) G (Deduped ns report d₁)
        (fun _ => True) d' :=
    fun e d' => rename_alone (fun _ => trivial) (hany _ _)
      fun _ _ => ⟨hany _ _, Fallible.Alone.throw trivial⟩
  refine Fallible.Under.caught (link_ending (fun j hj htarget => ?_) (fun j k _ hj hk => ?_)
    (fun _ => ⟨hany _ _, hback _ _⟩) fun j g _ hj hg htarget => ?_)
  · refine ⟨hany _ _, Fallible.Alone.pure (hdone _ f (confined_link hheld.place hj) ?_ ?_ rfl)⟩
    · intro q hq
      rw [Disk.find_link hj, if_neg hq]
    · rw [Disk.find_link hj, if_pos rfl, ← Disk.find_of_inode hj, hcontent]
  · -- The path is there still, so both names were of one file and the rename did nothing.
    have hone : d₁.inode found.path = d₁.inode (contentPath found.oid) := by
      by_contra hne
      rw [Disk.inode_rename hi hne, if_pos rfl] at hk
      cases hk
    rw [Disk.rename_same hone] at hdone ⊢
    exact ⟨hany _ _, Fallible.Alone.pure (hdone _ f (.refl ns _) (fun _ _ => rfl) hf rfl)⟩
  · rw [Disk.find_of_inode hj, hg, Option.some.injEq] at hcontent
    subst hcontent
    refine ⟨hany _ _, copy_ending (fun _ _ _ _ h => h.2) hj hg htarget (fun _ => hany _ _)
      (fun _ => hany _ _) (fun _ _ _ => hany _ _) (fun time time' _ => ?_) fun _ => hback _ _⟩
    refine Fallible.Alone.pure (hdone _ ⟨g.bytes, time'⟩ ((confined_add hheld.place).trans
      confined_fill) ?_ (Disk.find_fill_self (by rw [Disk.inode_add, if_pos rfl])) rfl)
    intro q hq
    rw [Disk.find_fill, Disk.find_add hq]
    rw [Disk.inode_add, if_neg hq]
    exact fun h => absurd (Disk.inode_lt h) (lt_irrefl _)

/-- **A visit.** -/
theorem dedupeOne_alone (hG : ∀ a b, Adopted sha256 a b → G a b)
    (hgap : d.find (contentPath found.oid) = none ∨ may (.metadata (contentPath found.oid)) →
      ∀ f, d.find found.path = some f → sha256 f.bytes = found.oid.text → ∀ a b, G a b)
    (hheld : HeldBy ns found) (hpath : d.There found.path) :
    (dedupeOne sha256 found report).Alone (Clean may) G (Deduped ns report d)
      (fun _ => True) d := by
  have hsame : ∀ a b, Untouched a b → G a b := fun a b h => hG a b h.adopted
  rw [dedupeOne]
  refine sharesBytesWith_alone hsame (fun _ _ _ => Fallible.Alone.pure (.refl rfl)) ?_
  refine Fallible.Alone.caught fun answer d₁ hexec => ?_
  obtain ⟨rfl, hcases⟩ := hexec.2.metadata
  refine ⟨hsame _ _ (.refl _), ?_⟩
  have hreport : ∀ report' d', Deduped ns { report with inspected := report.inspected + 1 } d₁
      report' d' → Deduped ns report d₁ report' d' :=
    fun _ _ h => ⟨h.shuffled, h.dryRun, h.untouched⟩
  have hpromote : d₁.find (contentPath found.oid) = none ∨
      may (.metadata (contentPath found.oid)) → Fallible.Alone (Clean may) G (Deduped ns report d₁)
        (fun _ => True) (promote sha256 found.path found.oid
          { report with inspected := report.inspected + 1 }) d₁ :=
    fun hmissing => (promote_alone hsame (hgap hmissing) hheld).mono hreport fun _ h => h
  rcases hcases with ⟨j, g, hj, hg, rfl⟩ | ⟨hnone, rfl⟩ | ⟨hmay, rfl⟩
  · exact (adopt_alone hG hheld hpath).mono hreport fun _ h => h
  · exact hpromote (Or.inl (Disk.find_eq_none.mpr hnone))
  · exact hpromote (Or.inr hmay)

/-- **A run**, whose steps keep `I`. -/
theorem dedupe_alone {I : Volume → Prop} {dryRun : Bool} (hG : ∀ a b, Adopted sha256 a b → G a b)
    (hI : Program.Stable G I)
    (hgap : ∀ d found, I d → HeldBy ns found →
      d.find (contentPath found.oid) = none ∨ may (.metadata (contentPath found.oid)) →
        ∀ f, d.find found.path = some f → sha256 f.bytes = found.oid.text → ∀ a b, G a b)
    (hd : I d) :
    (dedupe sha256 ns dryRun).Alone (Clean may) G
      (fun _ d' => Shuffled ns d d' ∧ (dryRun = true → Untouched d d')) (fun _ => True) d := by
  have hsame : ∀ a b : Volume, a.Alike b → G a b :=
    fun a b h => hG a b (untouched_of_alike h).adopted
  rw [dedupe]
  refine Fallible.Alone.bind (((objectsOf_looks ns).alone hsame fun _ _ => trivial).mono ?_
    fun _ h => h)
  rintro walk d₁ ⟨halike, hwalked⟩
  have huntouched : Untouched d d₁ := untouched_of_alike halike
  have hlooked : Shuffled ns d d₁ :=
    ⟨confined_of_alike halike, fun path oid hentry => Or.inl (huntouched path oid hentry)⟩
  refine Fallible.Under.mono (visitEach_alone
    (J := fun report d' => Deduped ns ⟨0, 0, 0, 0, 0, 0, !walk.complete, dryRun⟩ d₁ report d' ∧
      I d') (fun found hfound report d₂ hinv => ?_) ⟨.refl rfl, hI _ _ (hsame _ _ halike) hd⟩)
    ?_ fun _ h => h
  · obtain ⟨hdeduped, hI₂⟩ := hinv
    obtain ⟨hheld, hthere⟩ := hwalked found hfound
    have hthere₂ := (hlooked.trans hdeduped.shuffled).there hheld.entry hthere
    refine Fallible.Under.mono (Fallible.Alone.keeps hI (dedupeOne_alone hG
      (hgap d₂ found hI₂ hheld) hheld hthere₂) hI₂) ?_ fun _ h => h
    rintro report' d₃ ⟨hvisit, hI₃⟩
    exact ⟨hdeduped.trans hvisit, hI₃⟩
  · rintro report d' ⟨hdeduped, -⟩
    exact ⟨hlooked.trans hdeduped.shuffled, fun hdry => huntouched.trans (hdeduped.untouched hdry)⟩

end

/-! ## Gaps -/

/-- **Dedupe leaves no gap where it has nothing to promote.**  At every point of every run,
an entry that decoded to its object before the run is there and decodes to it. -/
theorem dedupe_no_gap {crates : Crates} (sha256 : Bytes → Text) (keys : Option (Keyring crates))
    (ns : Namespace) (dryRun : Bool) (may : Files.Req Text → Prop) (d : Volume)
    (hlookups : ∀ oid, ¬ may (.metadata (contentPath oid)))
    (hfaithful : Faithful crates sha256 keys d) (hshareable : Shareable sha256 ns d)
    {c : Program (Files.Req Text) Files.Resp (Except Error DedupeReport) × Volume}
    (hsteps : Program.Steps (Clean may) ((dedupe sha256 ns dryRun).run, d) c) :
    ∀ path oid f, Entry path oid → d.find path = some f →
      Decodes crates sha256 keys oid f.bytes →
        ∃ f', c.2.find path = some f' ∧ Decodes crates sha256 keys oid f'.bytes := by
  have hI : Program.Stable (Adopted sha256) (Adopted sha256 d) := fun _ _ hstep h => h.trans hstep
  have hstart : Adopted sha256 d d := (Untouched.refl d).adopted
  have hruns : (dedupe sha256 ns dryRun).Alone (Clean may) (Adopted sha256) _ _ d :=
    dedupe_alone (fun _ _ h => h) hI (fun d' found hadopted hheld hmissing f hf hdigest => by
      obtain ⟨g, hg⟩ := hadopted.shareable hshareable found f hheld hf hdigest
      rcases hmissing with hnone | hmay
      · rw [hnone] at hg
        cases hg
      · exact absurd hmay (hlookups found.oid)) hstart
  obtain ⟨hadopted, -⟩ := Program.Under.alone (c := (_, d)) hI hruns hstart hsteps
  intro path oid f hentry hfind hdecodes
  exact hadopted.decodes hfaithful hentry hfind hdecodes

/-- `x` in a repository, and content that is a file of its own. -/
def apart : Volume :=
  (((Disk.empty.add (contentPath x) 0).fill 0 [0x78] 0).add (objectPath .acme x) 0).fill 1 [0x78] 0

theorem dedupe_no_gap_apart :
    ∃ c, Program.advance respondFree 20 ((dedupe digests .acme false).run, apart) = some c ∧
      ∃ f', c.2.find (objectPath .acme x) = some f' ∧
        Decodes Crates.plain digests none x f'.bytes := by
  have hsound : Sound Crates.plain digests none apart := sound_of_names (by decide +kernel)
  have hcontent : apart.find (contentPath x) = some ⟨[0x78], 0⟩ := by decide +kernel
  have hpath : apart.find (objectPath .acme x) = some ⟨[0x78], 0⟩ := by decide +kernel
  obtain ⟨c, hc⟩ := Option.isSome_iff_exists.mp (show (Program.advance respondFree 20
    ((dedupe digests .acme false).run, apart)).isSome = true by decide +kernel)
  refine ⟨c, hc, dedupe_no_gap digests none .acme false (fun _ => False) apart (fun _ => id)
    (fun oid g hg _ => hsound _ oid g (.content oid) hg) (fun found f hheld hf _ => ?_)
    (Program.advance_steps (respondFree_clean _) hc) _ x ⟨[0x78], 0⟩ (entry_objectPath _ _) hpath
    decodes_x⟩
  have honly : ∀ e ∈ apart.names.entries, e.1.getLast? = some x.text := by decide +kernel
  obtain ⟨i, hi, -⟩ := Disk.find_eq_some.mp hf
  have hlast := honly ⟨found.path, i⟩ (AList.mem_lookup_iff.mp hi)
  rw [hheld.entry.getLast?, Option.some.injEq] at hlast
  rw [Oid.ext hlast]
  exact ⟨_, hcontent⟩

/-- `x` in a repository, and no content. -/
def loose : Volume := (Disk.empty.add (objectPath .acme x) 0).fill 0 [0x78] 0

/-- **Where there is something to promote, there is a gap.**  The file of the repository has
been renamed, and is not linked back yet. -/
theorem dedupe_gap :
    Sound Crates.plain digests none loose ∧ loose.find (objectPath .acme x) = some ⟨[0x78], 0⟩ ∧
      ∃ c, Program.Steps (Faulty fun _ => False) ((dedupe digests .acme false).run, loose) c ∧
        c.2.find (objectPath .acme x) = none := by
  have hgap : ((Program.advance (fun r d => some (respond r d)) 10
      ((dedupe digests .acme false).run, loose)).map
        fun c => c.2.find (objectPath .acme x)) = some none := by decide +kernel
  obtain ⟨c, hc, hnone⟩ := Option.map_eq_some_iff.mp hgap
  refine ⟨sound_of_names (by decide +kernel), by decide +kernel, c,
    Program.advance_steps (respond_some _) hc, hnone⟩

end LocalStore

end Lfsx.Storage
