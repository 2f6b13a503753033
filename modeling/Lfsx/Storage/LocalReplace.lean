import Lfsx.Storage.LocalTogether
import Lfsx.Storage.LocalCompress

/-!
# Replacing files of a shared volume

`dedupe` and `compress` put a complete file in the place of an entry.  The entry was listed
before, by the thread itself, but what its file is by then is not known: the bytes that were
read may have been replaced meanwhile, and what replaces them is complete all the same.

A promotion has a gap between two requests.  The second finds the content where the first
put it (`giveBack_among`), so that the gap is closed whatever the others do.
-/

namespace Lfsx.Storage

open Request Files Codec
open Program (Stable)

namespace LocalStore

theorem hashesTo_looks {There : LocalPath → Prop} {sha256 : Bytes → Text} (path : LocalPath)
    (oid : Oid) : Looking There (fun _ => True) (hashesTo sha256 path oid) := by
  refine Fallible.Only.caught trivial fun answer _ => ?_
  cases answer with
  | error e => exact Fallible.Only.pure trivial
  | ok file =>
      refine Fallible.Only.caught trivial fun answer _ => ?_
      cases answer <;> exact Fallible.Only.pure trivial

theorem sharesBytesWith_looks {There : LocalPath → Prop} (path content : LocalPath) :
    Looking There (fun _ => True) (sharesBytesWith path content) := by
  refine Fallible.Only.caught trivial fun one _ => ?_
  refine Fallible.Only.caught trivial fun other _ => ?_
  cases one <;> cases other <;> exact Fallible.Only.pure trivial

theorem reading_looks {α : Type} {There : LocalPath → Prop} {handle : Nat}
    (p : Reading (Except Error α)) : Looking There (fun _ => True) (reading handle p) := by
  show (onHandle handle p).Only _ _ _
  induction p with
  | pure answer => exact fun _ _ => trivial
  | request r next ih => exact ⟨trivial, fun answer _ => ih _⟩

namespace Setting

variable {ι : Type} [DecidableEq ι] {crates : Crates} {S : Setting ι crates} {i : ι}
  {w : World ι} {A : World ι → Prop} {p path : LocalPath} {oid : Oid} {found : Found}
  {ε β : Type} {Q : β → World ι → Prop}

/-- What a visit knows of what it visits. -/
structure Visiting (S : Setting ι crates) (i : ι) (found : Found) (w : World ι) : Prop where
  held : HeldBy (S.home i) found
  listed : ListedBy i found.path w.2
  filled : filling i w.2 = none

theorem steady_visiting : S.Steady i (Visiting S i found) := by
  rintro w w' hpasses ⟨hheld, hlisted, hfilled⟩
  exact ⟨hheld, steady_listed w w' hpasses hlisted, steady_filling w w' hpasses hfilled⟩

/-- A complete staging file in the place of what is visited. -/
theorem replace_among {f : Unit → Op β} (hfine : S.Fine i w)
    (hcomplete : Complete crates S.sha256 S.keys i p found.oid w) (hheld : HeldBy (S.home i) found)
    (hlisted : ListedBy i found.path w.2)
    (hf : ∀ w', S.Fine i w' → filling i w'.2 = none → S.Among i Q (f ()) w') :
    S.Among i Q (io (Files.rename p found.path) >>= f) w :=
  rename_among (K := fun _ => True) hfine (steady_complete.and steady_listed)
    ⟨hcomplete, hlisted⟩ (fun _ h => h.1) (fun _ h => .replace h.1 hheld h.2) (fun _ _ h => h)
    (fun _ _ => trivial) fun w' hfine' hfilled _ => hf w' hfine' hfilled

/-! ## Deduplication -/

section

variable {report : DedupeReport}

theorem adopt_among {size : Nat} (hfine : S.Fine i w) (hvisiting : Visiting S i found w) :
    S.Among i (fun _ w' => filling i w'.2 = none)
      (adopt S.sha256 found.path found.oid size report) w := by
  rw [adopt]
  split
  · exact Among.pure hfine steady_filling hvisiting.filled
  refine Among.looked (fun _ => hashesTo_looks _ _) hfine steady_visiting hvisiting
    fun hashes w' hfine' hvisiting _ => ?_
  cases hashes with
  | false => exact Among.pure hfine' steady_filling hvisiting.filled
  | true =>
      refine stagingPath_among hfine' hvisiting.filled steady_visiting hvisiting
        fun t w' hfine' hfresh hvisiting => ?_
      refine Among.ofCall (Among.past (fun _ _ => ListedBy.cons)
        (linkStaged_among found.oid hfine' hfresh) hvisiting.listed) ?_
      rintro _ w' hfine' ⟨hcomplete, hlisted⟩
      exact replace_among hfine' hcomplete hvisiting.held hlisted
        fun w' hfine' hfilled => Among.pure hfine' steady_filling hfilled

/-- The content of a gap is linked back. -/
theorem giveBack_among {f : Except Refused Unit → Op β} (hlinks : S.EntriesLink)
    (hw : Consistent crates S.sha256 S.keys w) (hgap : Gap i path oid w.2)
    (hfilled : filling i w.2 = none)
    (hf : ∀ w', S.Fine i w' → filling i w'.2 = none → S.Among i Q (f (.ok ())) w') :
    S.Among i Q ((link (contentPath oid) path).caught >>= f) w := by
  have hstable : Stable (S.OthersDo i) fun w => Consistent crates S.sha256 S.keys w ∧
      Gap i path oid w.2 ∧ filling i w.2 = none := by
    rintro w w' hothers ⟨hw, hgap, hfilled⟩
    refine ⟨hothers.passes.consistent, ?_, steady_filling.stable w w' hothers hfilled⟩
    obtain ⟨j, hj, -, r, answer, -, -, hlog⟩ := hothers
    rw [hlog]
    exact (gap_cons_other hj).mpr hgap
  refine Fallible.Under.caught (Acts.asked hstable ⟨hw, hgap, hfilled⟩ ?_)
  rintro w₁ answer ⟨d₂, past₂⟩ ⟨hw₁, hgap₁, hfilled₁⟩ ⟨-, hstep, hlog⟩
  cases hlog
  have hallowed : Allowed crates S.sha256 S.keys S.home S.gives i w₁
      (.link (contentPath oid) path) :=
    .giveBack hgap₁
  have hasks : S.Asks i (.link (contentPath oid) path) w₁ := by
    refine ⟨hallowed, fun path' oid' hgap' => ?_⟩
    obtain ⟨rfl, rfl⟩ := hgap₁.unique hgap'
    rfl
  refine ⟨⟨hw₁, _, answer, hasks, hstep, rfl⟩, ?_⟩
  have hfine₂ : S.Fine i (d₂, ⟨i, .link (contentPath oid) path, answer⟩ :: w₁.2) := by
    refine ⟨hw₁.step hallowed hstep, ?_⟩
    rintro path' oid' ⟨-, -, hnewest⟩
    rw [newest_cons_self, Option.some.injEq] at hnewest
    cases congrArg Event.req hnewest
  have hfilled₂ : filling i (⟨i, .link (contentPath oid) path, answer⟩ :: w₁.2) = none := by
    rw [filling_cons rfl, hfilled₁]
  -- The content is there and the disk makes links, so the link is made or was there.
  obtain ⟨h, hcontent⟩ := hw₁.gaps i path oid hgap₁
  rcases hstep.link with ⟨-, -, -, rfl, -⟩ | ⟨-, -, -, -, rfl, -⟩ | ⟨hnone, -⟩ | ⟨hrefused, -⟩
  · exact Program.Under.pure Fallible.Under.stable (hf _ hfine₂ hfilled₂)
  · exact Program.Under.pure Fallible.Under.stable (hf _ hfine₂ hfilled₂)
  · rw [hcontent] at hnone
    cases hnone
  · exact absurd hrefused (hlinks _ _ oid hgap₁.1)

theorem promote_among (hlinks : S.EntriesLink) (hfine : S.Fine i w)
    (hvisiting : Visiting S i found w) :
    S.Among i (fun _ w' => filling i w'.2 = none)
      (promote S.sha256 found.path found.oid report) w := by
  rw [promote]
  split
  · exact Among.pure hfine steady_filling hvisiting.filled
  refine Among.looked (fun _ => hashesTo_looks _ _) hfine steady_visiting hvisiting
    fun hashes w' hfine' hvisiting _ => ?_
  cases hashes with
  | false => exact Among.pure hfine' steady_filling hvisiting.filled
  | true =>
  refine Among.mapped hfine' steady_visiting hvisiting (serves_looks (by trivial) steady_visiting
    fun w answer d' _ _ _ _ hfine' hvisiting => ⟨hfine', ?_⟩)
  rintro _ -
  refine Among.ends hfine' steady_visiting hvisiting
    fun w answer d' hfine hvisiting hmeets hstep => ?_
  have hallowed : Allowed crates S.sha256 S.keys S.home S.gives i w
      (.rename found.path (contentPath found.oid)) := .promote hvisiting.held hvisiting.listed
  have hconsistent := hfine.consistent.step hallowed hstep
  refine ⟨hfine.asks hallowed, ?_⟩
  cases answer with
  | error e => exact ⟨hconsistent, fun path oid => not_gap_of_refused⟩
  | ok _ =>
      have hgap : Gap i found.path found.oid
          (⟨i, .rename found.path (contentPath found.oid), .ok ()⟩ :: w.2) :=
        ⟨hvisiting.held.entry, hvisiting.held.ne_content _, newest_cons_self⟩
      have hfilled : filling i (⟨i, .rename found.path (contentPath found.oid), .ok ()⟩ :: w.2)
          = none := by
        rw [filling_cons rfl, hvisiting.filled]
      exact giveBack_among hlinks hconsistent hgap hfilled
        fun w' hfine' hfilled' => Among.pure hfine' steady_filling hfilled'

theorem dedupeOne_among (hlinks : S.EntriesLink) (hfine : S.Fine i w)
    (hvisiting : Visiting S i found w) :
    S.Among i (fun _ w' => filling i w'.2 = none) (dedupeOne S.sha256 found report) w := by
  rw [dedupeOne]
  refine Among.looked (fun _ => sharesBytesWith_looks _ _) hfine steady_visiting hvisiting
    fun shared w' hfine' hvisiting _ => ?_
  cases shared with
  | true => exact Among.pure hfine' steady_filling hvisiting.filled
  | false =>
      refine Acts.caught hfine' steady_visiting hvisiting (serves_looks (by trivial)
        steady_visiting fun w answer d' _ _ _ _ hfine' hvisiting => ?_)
      cases answer with
      | ok shared => exact adopt_among hfine' hvisiting
      | error e => exact promote_among hlinks hfine' hvisiting

end

/-- The objects of a walk are visited one after the other. -/
theorem visits_among {ρ : Type} {visit : Found → ρ → Op ρ} {walk : Walk} {report : ρ}
    (hvisit : ∀ found report w, S.Fine i w → Visiting S i found w →
      S.Among i (fun _ w' => filling i w'.2 = none) (visit found report) w)
    (hfine : S.Fine i w) (hfilled : filling i w.2 = none)
    (hwalked : Walked (fun path => ListedBy i path w.2) (S.home i) walk) :
    S.Among i (fun _ _ => True) (visitEach visit walk.objects report) w := by
  have hlisted : ∀ e past, (∀ found ∈ walk.objects, ListedBy i found.path past) →
      ∀ found ∈ walk.objects, ListedBy i found.path (e :: past) :=
    fun e past h found hfound => (h found hfound).cons
  refine Among.mono (visitEach_among (A := fun w' => filling i w'.2 = none ∧
    ∀ found ∈ walk.objects, ListedBy i found.path w'.2) (steady_filling.and (steady_past hlisted))
    (fun found hfound report w hfine ha => ?_) hfine ⟨hfilled, fun found hfound =>
      (hwalked found hfound).2⟩) fun _ _ _ => trivial
  have hvisiting : Visiting S i found w := ⟨(hwalked found hfound).1, ha.2 found hfound, ha.1⟩
  exact Among.past hlisted (hvisit found report w hfine hvisiting) ha.2

/-- **Dedupe.** -/
theorem dedupe_among {dryRun : Bool} (hlinks : S.EntriesLink) (hfine : S.Fine i w)
    (hfilled : filling i w.2 = none) :
    S.Among i (fun _ _ => True) (dedupe S.sha256 (S.home i) dryRun) w := by
  rw [dedupe]
  refine Among.looked (fun _ => objectsOf_looks (S.home i)) hfine steady_filling hfilled
    fun walk w' hfine' hfilled' hwalked => ?_
  exact visits_among (fun found report w hfine hvisiting =>
    dedupeOne_among hlinks hfine hvisiting) hfine' hfilled' hwalked

/-! ## Compression -/

/-- A run counts as long as what is read has no more frames than a container can count. -/
def ReadsCountable (S : Setting ι crates) : Prop :=
  ∀ i handle w f, S.meets i (.readAll handle) w → w.1.file handle = some f → Small f.bytes

section

variable {store : LocalStore crates} {report : CompressReport}

theorem isFramed_looks {There : LocalPath → Prop} (path : LocalPath) (oid : Oid) (onDisk : Nat) :
    Looking There (fun _ => True) (store.isFramed path oid onDisk) := by
  refine Fallible.Only.mapped trivial fun file => ?_
  exact Fallible.Only.bind (reading_looks _) fun opened _ => Fallible.Only.pure trivial

/-- **A rewrite** makes a container of whatever it read. -/
theorem rewrite_among {level : Int} (lawful : crates.Lawful) (hreads : S.ReadsCountable)
    (hfine : S.Fine i w) (hfresh : Fresh i p w) :
    S.Among i (fun answer w' => ∃ bytes, Transferred i store oid bytes p answer S.sha256 w')
      (store.rewrite S.sha256 path p oid level) w := by
  rw [rewrite]
  refine Among.mapped hfine steady_fresh hfresh (serves_looks (by trivial) steady_fresh
    fun w answer d' _ _ _ _ hfine' hfresh => ⟨hfine', ?_⟩)
  rintro source -
  refine Among.mapped hfine' steady_fresh hfresh (serves_create (B := fun _ => True)
    (fun w ha => ⟨ha, trivial⟩) (fun _ _ _ _ _ _ _ => trivial)
    (fun handle w' hfine' hfilling _ => ⟨hfine', ?_⟩)
    fun e w' hfine' _ => ⟨hfine', by rintro _ ⟨⟩⟩)
  rintro _ ⟨⟩
  refine writingKey_among hfine' steady_filling_file hfilling fun key w' hfine' hfilling hkey => ?_
  refine Among.mapped hfine' steady_filling_file hfilling (serves_looks (by trivial)
    steady_filling_file fun w answer d' _ _ hmeets hstep hfine' hfilling => ⟨hfine', ?_⟩)
  rintro bytes rfl
  have hsmall : Small bytes := by
    obtain ⟨-, ⟨g, hg, heq⟩ | heq⟩ := hstep.readAll <;> cases heq
    exact hreads i source w g hmeets hg
  refine Fallible.Under.ofExcept steady_fine.stable (fun container hcontainer => ?_)
    fun _ _ => hfine'
  have hopens : Opens crates store.keys oid container bytes := by
    have hflatten : (framesOf buffer bytes).flatten = bytes := flatten_framesOf bytes
    have hopens := opens_container lawful (by rw [hflatten]; exact hsmall) hcontainer hkey
    rwa [hflatten] at hopens
  refine Among.mapped hfine' steady_filling_file hfilling (serves_write (fun w ha => ha)
    (fun w' hfine' hfull hsent => ⟨hfine', ?_⟩) fun e w' hfine' _ => ⟨hfine', by rintro _ ⟨⟩⟩)
  rintro _ -
  have htransferred : Transferred i store oid bytes p (S.sha256 bytes, 0) S.sha256 w' :=
    ⟨⟨container, hfull, hopens⟩, rfl, hsent⟩
  refine Among.mapped hfine' steady_transferred htransferred (serves_looks (by trivial)
    steady_transferred fun w answer d' _ _ _ _ hfine' htransferred => ⟨hfine', ?_⟩)
  rintro compressed -
  have hsteady : S.Steady i fun w => ∃ plain, Transferred i store oid plain p
      (S.sha256 bytes, compressed.length) S.sha256 w := by
    rintro w w' hpasses ⟨plain, h⟩
    exact ⟨plain, steady_transferred w w' hpasses h⟩
  exact Among.pure hfine' hsteady ⟨bytes, htransferred.full, rfl, htransferred.sent⟩

/-- **The container in the place of the file**, and of the content if the file is that. -/
theorem swapIn_among {f : Unit → Op β} (hfine : S.Fine i w)
    (hcomplete : Complete crates S.sha256 S.keys i p found.oid w) (hheld : HeldBy (S.home i) found)
    (hlisted : ListedBy i found.path w.2)
    (hf : ∀ w', S.Fine i w' → filling i w'.2 = none → S.Among i Q (f ()) w') :
    S.Among i Q (swapIn found.path p found.oid >>= f) w := by
  rw [swapIn, bind_assoc]
  refine Among.looked (fun _ => sharesBytesWith_looks _ _) hfine
    (steady_complete.and steady_listed) ⟨hcomplete, hlisted⟩ fun shared w' hfine' h _ => ?_
  cases shared with
  | false =>
      exact replace_among hfine' h.1 hheld h.2 hf
  | true =>
      show S.Among i Q ((io (Files.rename p (contentPath found.oid)) >>= fun _ => do
        let relink ← stagingPath (parent found.path) found.oid
        io (link (contentPath found.oid) relink)
        io (Files.rename relink found.path)) >>= f) w'
      rw [bind_assoc]
      refine rename_among hfine' (steady_complete.and steady_listed) h (fun _ h => h.1)
        (fun _ h => .swap h.1) (fun _ _ => ListedBy.cons) (fun _ h => h.2)
        fun w' hfine' hfilled hlisted => ?_
      rw [bind_assoc]
      refine stagingPath_among hfine' hfilled steady_listed hlisted
        fun t w' hfine' hfresh hlisted => ?_
      rw [bind_assoc]
      refine Among.ofCall (Among.past (fun _ _ => ListedBy.cons)
        (linkStaged_among found.oid hfine' hfresh) hlisted) ?_
      rintro _ w' hfine' ⟨hcomplete, hlisted⟩
      exact replace_among hfine' hcomplete hheld hlisted hf

theorem compressObject_among {onDisk : Nat} {level : Int} (lawful : crates.Lawful)
    (hkeys : store.keys = S.keys) (hreads : S.ReadsCountable) (hfine : S.Fine i w)
    (hvisiting : Visiting S i found w) :
    S.Among i (fun _ w' => filling i w'.2 = none)
      (store.compressObject S.sha256 found.path found.oid onDisk level report) w := by
  rw [compressObject]
  refine stagingPath_among hfine hvisiting.filled steady_visiting hvisiting
    fun t w' hfine' hfresh hvisiting => ?_
  have hmine := hfresh.mine
  refine Among.attempt (K := fun past => Mine i _ past ∧ ListedBy i found.path past)
    (fun _ _ h => ⟨h.1.cons, h.2.cons⟩) (rewrite_among lawful hreads hfine' hfresh)
    ⟨hmine, hvisiting.listed⟩ ?_ fun e w' hfine' h => giveUp_among hfine' h.1
  rintro ⟨digest, compressed⟩ w' hfine' ⟨bytes, htransferred⟩ ⟨hmine, hlisted⟩
  obtain ⟨container, hfull, -⟩ := htransferred.full
  have hdiscarded : ∀ report' : CompressReport, S.Among i (fun _ w' => filling i w'.2 = none) (do
      discard (part (parent found.path) found.oid t)
      return report') w' := fun report' =>
    discard_among hfine' hmine hfull.filled
      fun w' hfine' hfilled => Among.pure hfine' steady_filling hfilled
  show S.Among i _ (if digest ≠ found.oid.text then _ else _) w'
  split
  · exact hdiscarded _
  split
  · exact hdiscarded _
  split
  · exact hdiscarded _
  next hmatches _ _ =>
  have hcomplete := htransferred.complete hkeys (not_not.mp hmatches)
  exact swapIn_among hfine' hcomplete hvisiting.held hlisted
    fun w' hfine' hfilled => Among.pure hfine' steady_filling hfilled

theorem compressOne_among {level : Int} (lawful : crates.Lawful) (hkeys : store.keys = S.keys)
    (hreads : S.ReadsCountable) (hfine : S.Fine i w) (hvisiting : Visiting S i found w) :
    S.Among i (fun _ w' => filling i w'.2 = none)
      (store.compressOne S.sha256 level found report) w := by
  rw [compressOne]
  refine Among.mapped hfine steady_visiting hvisiting (serves_looks (by trivial) steady_visiting
    fun w answer d' _ _ _ _ hfine' hvisiting => ⟨hfine', ?_⟩)
  rintro onDisk -
  refine Among.looked (fun _ => isFramed_looks _ _ _) hfine' steady_visiting hvisiting
    fun framed w' hfine' hvisiting _ => ?_
  cases framed with
  | true => exact Among.pure hfine' steady_filling hvisiting.filled
  | false => exact compressObject_among lawful hkeys hreads hfine' hvisiting

/-- **Compress.** -/
theorem compress_among {dryRun : Bool} (lawful : crates.Lawful) (hkeys : store.keys = S.keys)
    (hreads : S.ReadsCountable) (hfine : S.Fine i w) (hfilled : filling i w.2 = none) :
    S.Among i (fun _ _ => True) (store.compress S.sha256 (S.home i) dryRun) w := by
  rw [compress]
  split
  · exact Among.throw hfine
  refine Among.looked (fun _ => objectsOf_looks (S.home i)) hfine steady_filling hfilled
    fun walk w' hfine' hfilled' hwalked => ?_
  exact visits_among (fun found report w hfine hvisiting =>
    compressOne_among lawful hkeys hreads hfine hvisiting) hfine' hfilled' hwalked

end

end Setting

end LocalStore

end Lfsx.Storage
