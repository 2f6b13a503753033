import Lfsx.Storage.LocalNames

/-!
# A write, with nobody beside

What each part of `LocalStore::write` leaves, on a disk that may refuse any request.  The
staging file comes first (`stage_alone`): until it is complete and checked nothing else
changes, and a transfer that is not admitted takes it away again.  Then its file gets its
names (`linkOrMove_alone`).

A step is atomic where the disk makes hard links (`Atomic`).  Where it refuses them the
store copies, and a copy is there before it is complete.
-/

namespace Lfsx.Storage

open Request Files Codec

namespace LocalStore

/-- The disk makes hard links. -/
def LinksHold (may : Files.Req Text → Prop) : Prop := ∀ source target, ¬ may (.link source target)

/-- A step that leaves no entry half done, where the disk makes hard links. -/
def Atomic (crates : Crates) (sha256 : Bytes → Text) (keys : Option (Keyring crates))
    (may : Files.Req Text → Prop) (d d' : Volume) : Prop :=
  LinksHold may → Grown crates sha256 keys d d'

/-- No entry has the file that is under `p`, if there is one. -/
def Apart (d : Volume) (p : LocalPath) : Prop :=
  ∀ i, d.inode p = some i → ∀ q oid, Entry q oid → d.inode q ≠ some i

/-- A staging name is free for what it is used for: no entry has the file that is emptied,
and there is none where a link is to go. -/
def Free : Files.Req Text → Volume → Prop
  | .create p, d => Apart d p
  | .link _ target, d => ∀ dir oid ticket, target = part dir oid ticket → d.inode target = none
  | _, _ => True

/-- A disk that may refuse the requests in `may`, and on which staging names are free. -/
def Clean (may : Files.Req Text → Prop) : Semantics (Files.Req Text) Files.Resp Volume :=
  fun r d answer d' => Free r d ∧ Faulty may r d answer d'

/-- Nothing changed but the staging file `p`. -/
structure Beside (p : LocalPath) (d d' : Volume) : Prop where
  entries : Untouched d d'
  names : ∀ q, q ≠ p → d'.inode q = d.inode q
  ticket : d.ticket ≤ d'.ticket

theorem Beside.refl (p : LocalPath) (d : Volume) : Beside p d d :=
  ⟨.refl d, fun _ _ => rfl, le_refl _⟩

theorem Beside.trans {p : LocalPath} {d d' d'' : Volume} (h : Beside p d d')
    (h' : Beside p d' d'') : Beside p d d'' :=
  ⟨h.entries.trans h'.entries, fun q hq => (h'.names q hq).trans (h.names q hq),
    h.ticket.trans h'.ticket⟩

section

variable {crates : Crates} {sha256 : Bytes → Text} {keys : Option (Keyring crates)}
  {may : Files.Req Text → Prop} {d d' : Volume} {dir : LocalPath} {oid : Oid} {t : Nat}

theorem Beside.add {time : Nat} :
    Beside (part dir oid t) d (d.add (part dir oid t) time) :=
  ⟨untouched_add, fun q hq => by rw [Disk.inode_add, if_neg hq], le_refl _⟩

theorem Beside.fill {p : LocalPath} {i time : Nat} {bytes : Files.Bytes} (hi : d.inode p = some i)
    (hapart : Apart d p) : Beside p d (d.fill i bytes time) :=
  ⟨untouched_fill fun q oid hentry => hapart i hi q oid hentry, fun _ _ => rfl, le_refl _⟩

theorem Beside.unname : Beside (part dir oid t) d (d.unname (part dir oid t)) :=
  ⟨untouched_unname, fun q hq => by rw [Disk.inode_unname, if_neg hq], le_refl _⟩

theorem Beside.issue {p : LocalPath} : Beside p d d.issue :=
  ⟨.refl d, fun _ _ => rfl, Nat.le_succ _⟩

theorem Beside.atomic {p : LocalPath} (h : Beside p d d') : Atomic crates sha256 keys may d d' :=
  fun _ => h.entries.grown

theorem atomic_of_alike (h : d.Alike d') : Atomic crates sha256 keys may d d' :=
  fun _ => (untouched_of_alike h).grown

/-- A staging file that was created is no entry's. -/
theorem apart_add {time : Nat} (p : LocalPath) (hp : ∀ q oid, Entry q oid → q ≠ p) :
    Apart (d.add p time) p := by
  intro i hi q oid hentry
  rw [Disk.inode_add, if_pos rfl, Option.some.injEq] at hi
  subst hi
  rw [Disk.inode_add, if_neg (hp q oid hentry)]
  exact fun h => absurd (Disk.inode_lt h) (lt_irrefl _)

/-! ## Staging -/

variable {store : LocalStore crates}

/-- The judgement of this module: nobody beside, and atomic steps. -/
abbrev Runs (crates : Crates) (sha256 : Bytes → Text) (keys : Option (Keyring crates))
    (may : Files.Req Text → Prop) {α : Type} (Q : α → Volume → Prop) (E : Volume → Prop)
    (op : Op α) (d : Volume) : Prop :=
  op.Alone (Clean may) (Atomic crates sha256 keys may) Q E d

/-- A key to seal with, which the keyring holds. -/
theorem writingKey_alone {β : Type} {G : Volume → Volume → Prop} {Q : β → Volume → Prop}
    {E : Volume → Prop} {f : Option ObjectKey → Op β} (hG : G d d)
    (h : ∀ key, Unseals keys key → (f key).Alone (Clean may) G Q E d) :
    (writingKey keys >>= f).Alone (Clean may) G Q E d := by
  cases keys with
  | none => exact h none fun k hk => by cases hk
  | some ring =>
      rw [writingKey, bind_assoc]
      refine Fallible.Alone.certain fun salt s' hexec => ?_
      have hsame : s' = d := by
        rcases hexec.2 with hexec | hexec
        · exact hexec
        · exact absurd hexec.2 id
      subst hsame
      exact ⟨hG, h _ (unseals_writing ring salt)⟩

/-- The sink of a transfer and the key it seals with. -/
theorem sinkFor_runs {β : Type} {Q : β → Volume → Prop} {E : Volume → Prop} {f : Sink → Op β}
    (h : ∀ level key sink, Unseals store.keys key → Sink.Took crates level key oid [] sink →
      (∀ file, sink = .raw file → sniff ≤ file.length) →
      Runs crates sha256 keys may Q E (f sink) d) :
    Runs crates sha256 keys may Q E (store.sinkFor oid >>= f) d := by
  have hframed : Runs crates sha256 keys may Q E (do
      let key ← writingKey store.keys
      f (.framed (Writer.start store.compression key oid))) d :=
    writingKey_alone (atomic_of_alike (.refl _)) fun key hkey => h store.compression key _ hkey
      (.framed (show ([] : List Bytes).flatten = [] from rfl) rfl) fun file hfile => by cases hfile
  rw [sinkFor]
  cases hlevel : store.compression with
  | none =>
      rw [hlevel] at hframed
      cases hkeys : store.keys with
      | none =>
          refine h none none _ (fun k hk => by cases hk) (.undecided rfl rfl (by decide)) ?_
          exact fun file hfile => by cases hfile
      | some ring =>
          rw [hkeys] at hframed
          exact hframed
  | some level =>
      rw [hlevel] at hframed
      cases hkeys : store.keys with
      | none =>
          rw [hkeys] at hframed
          exact hframed
      | some ring =>
          rw [hkeys] at hframed
          exact hframed

/-- What the staging file is when a transfer went through. -/
structure Arrived (crates : Crates) (keys : Option (Keyring crates)) (oid : Oid) (plain : Bytes)
    (p : LocalPath) (d d' : Volume) : Prop where
  beside : Beside p d d'
  file : ∃ f, d'.find p = some f ∧ Opens crates keys oid f.bytes plain

/-- The end of `stream_to`: the bytes a sink finished are written. -/
theorem written_runs {chunks : List (Except String Bytes)} {budget : Option Budget} {h : Nat}
    {level : Option Int} {key : Option ObjectKey} {sink : Sink} {p : LocalPath} {d₀ : Volume}
    (lawful : crates.Lawful) (hsmall : Small (arriving chunks)) (hbeside : Beside p d₀ d)
    (hp : d.inode p = some h) (hapart : Apart d p) (hkey : Unseals store.keys key)
    (htook : Sink.Took crates level key oid [] sink)
    (hraw : ∀ file, sink = .raw file → sniff ≤ file.length) :
    Runs crates sha256 keys may
      (fun answer d' => Arrived crates store.keys oid (arriving chunks) p d₀ d' ∧
        answer = (sha256 (arriving chunks), (arriving chunks).length))
      (Beside p d₀) (do
        let received ← Fallible.ofExcept (store.receive budget chunks sink [])
        let bytes ← Fallible.ofExcept (received.1.finish crates)
        io (Files.write h bytes)
        return (sha256 received.2, received.2.length) : Op (Text × Nat)) d := by
  refine Fallible.Under.ofExcept Fallible.stable_never (fun received hreceived => ?_)
    fun _ _ => hbeside
  obtain ⟨htaken, htook'⟩ := receive_eq_ok htook hraw hreceived
  rw [List.nil_append] at htaken
  refine Fallible.Under.ofExcept Fallible.stable_never (fun bytes hbytes => ?_) fun _ _ => hbeside
  rw [htaken] at htook' ⊢
  have hopens := htook'.finish lawful hbytes hsmall hkey
  refine Fallible.Alone.mapped fun answer d' hexec => ?_
  rcases hexec.2.write with ⟨rfl, time, -, rfl⟩ | ⟨-, rfl, short, time, -, -, rfl⟩
  · have hfill : Beside p d (d.fill h bytes time) := .fill hp hapart
    refine ⟨hfill.atomic, Fallible.Alone.pure ⟨⟨hbeside.trans hfill, ?_⟩, rfl⟩⟩
    exact ⟨⟨bytes, time⟩, Disk.find_fill_self hp, hopens⟩
  · have hfill : Beside p d (d.fill h short time) := .fill hp hapart
    exact ⟨hfill.atomic, hbeside.trans hfill⟩

/-- **A transfer changes its staging file and nothing else.** -/
theorem streamTo_runs {chunks : List (Except String Bytes)} {budget : Option Budget}
    (lawful : crates.Lawful) (hsmall : Small (arriving chunks)) :
    Runs crates sha256 keys may
      (fun answer d' => Arrived crates store.keys oid (arriving chunks) (part dir oid t) d d' ∧
        answer = (sha256 (arriving chunks), (arriving chunks).length))
      (Beside (part dir oid t) d)
      (store.streamTo sha256 (part dir oid t) oid budget chunks) d := by
  rw [streamTo]
  refine Fallible.Alone.mapped fun answer d' hexec => ?_
  rcases hexec.2.create with ⟨i, time, hi, rfl, -, rfl⟩ | ⟨time, -, rfl, -, rfl⟩ | ⟨-, rfl, rfl⟩
  · have hapart : Apart d (part dir oid t) := hexec.1
    have hfill : Beside (part dir oid t) d (d.fill i [] time) := .fill hi hapart
    refine ⟨hfill.atomic, sinkFor_runs fun level key sink hkey htook hraw => ?_⟩
    exact written_runs lawful hsmall hfill hi hapart hkey htook hraw
  · have hadd : Beside (part dir oid t) d (d.add (part dir oid t) time) := .add
    refine ⟨hadd.atomic, sinkFor_runs fun level key sink hkey htook hraw => ?_⟩
    refine written_runs lawful hsmall hadd ?_ (apart_add _ fun q oid' hentry =>
      hentry.ne_part dir oid t) hkey htook hraw
    rw [Disk.inode_add, if_pos rfl]
  · exact ⟨atomic_of_alike (.refl _), .refl _ _⟩

/-- A staging file that was given up is gone, unless it cannot be removed. -/
theorem giveUp_runs {α : Type} {Q : α → Volume → Prop} {d₀ : Volume} {e : Error}
    (hbeside : Beside (part dir oid t) d₀ d) :
    Runs crates sha256 keys may Q
      (fun d' => Beside (part dir oid t) d₀ d' ∧
        (¬ may (.unlink (part dir oid t)) → d'.inode (part dir oid t) = none))
      (giveUp (part dir oid t) e) d := by
  refine Fallible.Alone.caught fun answer d' hexec => ?_
  rcases hexec.2.unlink with ⟨i, hi, -, rfl⟩ | ⟨hnone, -, rfl⟩ | ⟨hmay, -, rfl⟩
  · refine ⟨Beside.unname.atomic, Fallible.Alone.throw ⟨hbeside.trans .unname, fun _ => ?_⟩⟩
    rw [Disk.inode_unname, if_pos rfl]
  · exact ⟨atomic_of_alike (.refl _), Fallible.Alone.throw ⟨hbeside, fun _ => hnone⟩⟩
  · exact ⟨atomic_of_alike (.refl _), Fallible.Alone.throw ⟨hbeside, fun h => absurd hmay h⟩⟩

/-- A transfer that ended in an error left nothing behind: it was refused before it was
given a staging file, or the staging file is gone. -/
structure Rejected (may : Files.Req Text → Prop) (p : LocalPath) (d d' : Volume) : Prop where
  beside : Beside p d d'
  tidied : ¬ may (.unlink p) → ¬ may (.metadata p) → d'.ticket = d.ticket ∨ d'.inode p = none

/-- Where the next transfer of an object is staged. -/
def nextPart (d : Volume) (ns : Namespace) (oid : Oid) : LocalPath :=
  part (parent (objectPath ns oid)) oid d.ticket

/-- A transfer that was admitted: its staging file decodes to the object. -/
structure Admitted (crates : Crates) (sha256 : Bytes → Text) (keys : Option (Keyring crates))
    (ns : Namespace) (oid : Oid) (d : Volume) (staged : Staged) (d' : Volume) : Prop where
  path : staged.path = nextPart d ns oid
  destination : staged.destination = objectPath ns oid
  beside : Beside (nextPart d ns oid) d d'
  ticket : d.ticket < d'.ticket
  file : ∃ f, d'.find (nextPart d ns oid) = some f ∧ Decodes crates sha256 keys oid f.bytes

/-- **A transfer is admitted, or it leaves nothing behind.** -/
theorem stage_runs {ns : Namespace} {expectedSize : Option Nat} {budget : Option Budget}
    {chunks : List (Except String Bytes)} (lawful : crates.Lawful)
    (hsmall : Small (arriving chunks)) :
    Runs crates sha256 keys may
      (Admitted crates sha256 store.keys ns oid d)
      (Rejected may (nextPart d ns oid) d)
      (store.stage sha256 ns oid expectedSize budget chunks) d := by
  have hrejected : Rejected may (nextPart d ns oid) d d := ⟨.refl _ _, fun _ _ => Or.inl rfl⟩
  rw [stage]
  split
  · exact Fallible.Alone.throw hrejected
  refine Fallible.Alone.mapped fun answer d₁ hexec => ?_
  have hsame : d₁ = d := by rcases hexec.2 with h | h; exacts [h.2, h.2.2]
  subst hsame
  refine ⟨atomic_of_alike (.refl _), ?_⟩
  cases answer with
  | error e => exact hrejected
  | ok _ =>
  refine Fallible.Alone.caught fun answer d₂ hexec => ?_
  obtain ⟨rfl, -⟩ := hexec.2.metadata
  refine ⟨atomic_of_alike (.refl _), ?_⟩
  rw [stagingPath, bind_assoc]
  refine Fallible.Alone.certain fun ticket d₃ hexec => ?_
  obtain ⟨rfl, rfl⟩ := hexec.2.ticket
  have hissue : Beside (nextPart d₂ ns oid) d₂ d₂.issue := .issue
  refine ⟨hissue.atomic, ?_⟩
  have hgive : ∀ d' e, Beside (nextPart d₂ ns oid) d₂ d' →
      Runs crates sha256 keys may (Admitted crates sha256 store.keys ns oid d₂)
        (Rejected may (nextPart d₂ ns oid) d₂) (giveUp (nextPart d₂ ns oid) e) d' :=
    fun d' e hbeside => (giveUp_runs hbeside).mono (fun _ _ h => h)
      fun d'' h => ⟨h.1, fun hunlink _ => Or.inr (h.2 hunlink)⟩
  refine Fallible.Under.attempt (Fallible.Under.mono (streamTo_runs lawful hsmall) ?_ ?_)
  · rintro ⟨digest, written⟩ d₄ ⟨⟨hbeside, f, hf, hopens⟩, hanswer⟩
    have hafter := hissue.trans hbeside
    cases hagrees : agrees oid expectedSize digest written with
    | error e =>
        simp only [hagrees]
        exact hgive d₄ e hafter
    | ok _ =>
    simp only [hagrees]
    have hdecodes : Decodes crates sha256 store.keys oid f.bytes := by
      refine ⟨arriving chunks, ?_, hopens⟩
      rw [agrees] at hagrees
      split at hagrees
      · cases hagrees
      · split at hagrees
        · next hdigest =>
            cases hanswer
            exact hdigest
        · cases hagrees
    refine Fallible.Alone.mapped fun answer d₅ hexec => ?_
    obtain ⟨rfl, hcases⟩ := hexec.2.metadata
    refine ⟨atomic_of_alike (.refl _), ?_⟩
    rcases hcases with ⟨i, g, -, -, rfl⟩ | ⟨hnone, rfl⟩ | ⟨hmay, rfl⟩
    · exact Fallible.Alone.pure ⟨rfl, rfl, hafter, hbeside.ticket, f, hf, hdecodes⟩
    · exact ⟨hafter, fun _ _ => Or.inr hnone⟩
    · exact ⟨hafter, fun _ h => absurd hmay h⟩
  · exact fun d₄ hbeside e => hgive d₄ e (hissue.trans hbeside)

/-! ## Naming -/

/-- `target` is a name of the bytes under `source`, or of what it was before. -/
structure Named (source target : LocalPath) (d d' : Volume) : Prop where
  names : ∀ q, q ≠ target → d'.inode q = d.inode q
  finds : ∀ q, q ≠ target → d'.find q = d.find q
  target : (∃ f, d.find target = some f ∧ d'.find target = some f) ∨
    d.find target = none ∧ ∃ f f', d.find source = some f ∧ d'.find target = some f' ∧
      f'.bytes = f.bytes
  ticket : d'.ticket = d.ticket

theorem Named.link {source target : LocalPath} {i : Nat} (hi : d.inode source = some i)
    (htarget : d.inode target = none) : Named source target d (d.link source target) := by
  obtain ⟨f, hf⟩ := Disk.exists_file hi
  refine ⟨fun q hq => ?_, fun q hq => ?_, Or.inr ⟨Disk.find_eq_none.mpr htarget, f, f, ?_, ?_, rfl⟩,
    Disk.ticket_link⟩
  · rw [Disk.inode_link hi, if_neg hq]
  · rw [Disk.find_link hi, if_neg hq]
  · rw [Disk.find_of_inode hi, hf]
  · rw [Disk.find_link hi, if_pos rfl, hf]

theorem Named.exists {source target : LocalPath} {j : Nat} (hj : d.inode target = some j) :
    Named source target d d := by
  obtain ⟨f, hf⟩ := Disk.exists_file hj
  have hfind : d.find target = some f := by rw [Disk.find_of_inode hj, hf]
  exact ⟨fun _ _ => rfl, fun _ _ => rfl, Or.inl ⟨f, hfind, hfind⟩, rfl⟩

theorem Named.copied {source target : LocalPath} {i time time' : Nat} {f : File}
    (hi : d.inode source = some i) (hf : d.file i = some f) (htarget : d.inode target = none) :
    Named source target d ((d.add target time).fill d.files.length f.bytes time') := by
  have hnew : (d.add target time).inode target = some d.files.length := by
    rw [Disk.inode_add, if_pos rfl]
  have hold : ∀ q, q ≠ target → (d.add target time).inode q = d.inode q := by
    intro q hq
    rw [Disk.inode_add, if_neg hq]
  refine ⟨fun q hq => hold q hq, fun q hq => ?_, Or.inr ⟨Disk.find_eq_none.mpr htarget, f,
    ⟨f.bytes, time'⟩, ?_, Disk.find_fill_self hnew, rfl⟩, rfl⟩
  · rw [Disk.find_fill, Disk.find_add hq]
    rw [hold q hq]
    exact fun h => absurd (Disk.inode_lt h) (lt_irrefl _)
  · rw [Disk.find_of_inode hi, hf]

/-- `LocalStore::link`, with nobody beside. -/
theorem link_ending {source target : LocalPath} {G : Volume → Volume → Prop}
    {P : Except Refused Unit → Volume → Prop}
    (hlinked : ∀ i, d.inode source = some i → d.inode target = none →
      G d (d.link source target) ∧ P (.ok ()) (d.link source target))
    (hexists : ∀ i j, Free (.link source target) d → d.inode source = some i →
      d.inode target = some j → G d d ∧ P (.ok ()) d)
    (hmissing : d.inode source = none → G d d ∧ P (.error .notFound) d)
    (hcopied : ∀ i f, may (.link source target) → d.inode source = some i → d.file i = some f →
      d.inode target = none → G d d ∧ (copy source target).Ending (Clean may) G P d) :
    (link source target).Ending (Clean may) G P d := by
  refine Fallible.Ending.caught fun answer d' hexec => ?_
  rcases hexec.2.link with ⟨i, hi, htarget, rfl, rfl⟩ | ⟨i, j, hi, hj, rfl, rfl⟩ | ⟨hi, rfl, rfl⟩ |
    ⟨hmay, ⟨i, hi⟩, htarget, rfl, rfl⟩
  · obtain ⟨hG, hP⟩ := hlinked i hi htarget
    exact ⟨hG, Fallible.Ending.pure hP⟩
  · obtain ⟨hG, hP⟩ := hexists i j hexec.1 hi hj
    exact ⟨hG, Fallible.Ending.pure hP⟩
  · obtain ⟨hG, hP⟩ := hmissing hi
    exact ⟨hG, Fallible.Ending.throw hP⟩
  · obtain ⟨f, hf⟩ := Disk.exists_file hi
    exact hcopied i f hmay hi hf htarget

/-- A link to an entry from a complete file: it is made, or it is copied, and then a step
need not be atomic. -/
theorem link_entry_ending {source target : LocalPath} {f : File}
    (hsource : d.find source = some f) (hentry : Entry target oid)
    (hdecodes : Decodes crates sha256 keys oid f.bytes) :
    (link source target).Ending (Clean may) (Atomic crates sha256 keys may)
      (fun answer d' => match answer with
        | .ok () => Named source target d d'
        | .error e => e = .other ∧ ¬ LinksHold may) d := by
  obtain ⟨i, hi, hf⟩ := Disk.find_eq_some.mp hsource
  refine link_ending (fun j hj htarget => ⟨fun _ => ?_, .link hj htarget⟩)
    (fun _ j _ _ hj => ⟨atomic_of_alike (.refl _), .exists hj⟩) (fun hnone => ?_)
    fun j g hmay hj hg htarget => ?_
  · exact grown_link hi hf htarget hentry hdecodes
  · rw [hi] at hnone
    cases hnone
  · -- Where links are refused, no step is promised to be atomic.
    have hvacuous : ∀ a b, Atomic crates sha256 keys may a b :=
      fun _ _ hlinks => absurd hmay (hlinks source target)
    refine ⟨hvacuous _ _, copy_ending (fun _ _ _ _ h => h.2) hj hg htarget (fun _ => hvacuous _ _)
      (fun _ => hvacuous _ _) (fun _ _ _ => hvacuous _ _) (fun _ _ _ => .copied hj hg htarget) ?_⟩
    exact fun _ => ⟨rfl, fun hlinks => hlinks source target hmay⟩

/-- A name of a complete file is a complete entry. -/
theorem Named.grown {source target : LocalPath} {f : File} (h : Named source target d d')
    (hsource : d.find source = some f) (hentry : Entry target oid)
    (hdecodes : Decodes crates sha256 keys oid f.bytes) : Grown crates sha256 keys d d' := by
  intro path oid' hpath
  by_cases hp : path = target
  · subst hp
    rcases h.target with ⟨g, hbefore, hafter⟩ | ⟨hnone, g, g', hg, hg', hbytes⟩
    · exact Or.inl (by rw [hafter, hbefore])
    · rw [hsource, Option.some.injEq] at hg
      subst hg
      rw [hpath.unique hentry]
      exact Or.inr ⟨hnone, g', hg', by rw [hbytes]; exact hdecodes⟩
  · exact Or.inl (h.finds path hp)

/-- The target of a name has a complete file. -/
theorem Named.complete {source target : LocalPath} {f : File} (h : Named source target d d')
    (hsound : Sound crates sha256 keys d) (hsource : d.find source = some f)
    (hentry : Entry target oid) (hdecodes : Decodes crates sha256 keys oid f.bytes) :
    ∃ g, d'.find target = some g ∧ Decodes crates sha256 keys oid g.bytes := by
  rcases h.target with ⟨g, hbefore, hafter⟩ | ⟨-, g, g', hg, hg', hbytes⟩
  · exact ⟨g, hafter, hsound target oid g hentry hbefore⟩
  · rw [hsource, Option.some.injEq] at hg
    subst hg
    exact ⟨g', hg', by rw [hbytes]; exact hdecodes⟩

/-- What the naming of an object leaves. -/
structure Shared (crates : Crates) (sha256 : Bytes → Text) (keys : Option (Keyring crates))
    (ns : Namespace) (oid : Oid) (d d' : Volume) : Prop where
  grown : Grown crates sha256 keys d d'
  held : ∃ f, d'.find (objectPath ns oid) = some f
  others : ∀ q, q ≠ objectPath ns oid → q ≠ contentPath oid →
    d'.inode q = d.inode q ∧ d'.find q = d.find q
  ticket : d'.ticket = d.ticket

/-- `ensure_content` leaves a complete content. -/
theorem ensureContent_runs {p : LocalPath} {f : File} {E : Volume → Prop}
    (hsound : Sound crates sha256 keys d) (hp : d.find p = some f)
    (hdecodes : Decodes crates sha256 keys oid f.bytes) (hE : ¬ LinksHold may → ∀ d', E d') :
    Runs crates sha256 keys may
      (fun _ d' => Grown crates sha256 keys d d' ∧ (∀ q, q ≠ contentPath oid →
          d'.inode q = d.inode q ∧ d'.find q = d.find q) ∧
        d'.ticket = d.ticket ∧ ∃ g, d'.find (contentPath oid) = some g ∧
          Decodes crates sha256 keys oid g.bytes)
      E (ensureContent p (contentPath oid)) d := by
  refine Fallible.Alone.caught fun answer d₁ hexec => ?_
  obtain ⟨rfl, hcases⟩ := hexec.2.metadata
  refine ⟨atomic_of_alike (.refl _), ?_⟩
  have hlink : Runs crates sha256 keys may
      (fun _ d' => Grown crates sha256 keys d₁ d' ∧ (∀ q, q ≠ contentPath oid →
          d'.inode q = d₁.inode q ∧ d'.find q = d₁.find q) ∧
        d'.ticket = d₁.ticket ∧ ∃ g, d'.find (contentPath oid) = some g ∧
          Decodes crates sha256 keys oid g.bytes)
      E (io (link p (contentPath oid))) d₁ := by
    refine Program.Under.bind (Program.Under.mono (link_entry_ending hp (.content oid) hdecodes) ?_)
    intro answer d' hpost
    cases answer with
    | error e => exact Program.Under.pure Fallible.stable_never (hE hpost.2 d')
    | ok _ =>
        refine Program.Under.pure Fallible.stable_never ⟨hpost.grown hp (.content oid) hdecodes,
          fun q hq => ⟨hpost.names q hq, hpost.finds q hq⟩, hpost.ticket, ?_⟩
        exact hpost.complete hsound hp (.content oid) hdecodes
  rcases hcases with ⟨i, g, hi, hg, rfl⟩ | ⟨-, rfl⟩ | ⟨-, rfl⟩
  · have hfind : d₁.find (contentPath oid) = some g := by rw [Disk.find_of_inode hi, hg]
    exact Fallible.Alone.pure ⟨(Untouched.refl _).grown, fun _ _ => ⟨rfl, rfl⟩, rfl, g, hfind,
      hsound _ _ g (.content oid) hfind⟩
  · exact hlink
  · exact hlink

/-- **The staged file gets its names**, and only a refused request is in the way. -/
theorem linkOrMove_runs {ns : Namespace} {dir : LocalPath} {f : File}
    (hsound : Sound crates sha256 keys d) (hp : d.find (part dir oid t) = some f)
    (hdecodes : Decodes crates sha256 keys oid f.bytes) :
    Runs crates sha256 keys may
      (fun _ d' => ∃ d₁, Shared crates sha256 keys ns oid d d₁ ∧ Beside (part dir oid t) d₁ d')
      (fun _ => ¬ LinksHold may ∨ may (.createDirAll (parent (contentPath oid))))
      (linkOrMove (part dir oid t) (objectPath ns oid) oid) d := by
  rw [linkOrMove]
  refine Fallible.Alone.mapped fun answer d₁ hexec => ?_
  have hsame : d₁ = d := by rcases hexec.2 with h | h; exacts [h.2, h.2.2]
  subst hsame
  refine ⟨atomic_of_alike (.refl _), ?_⟩
  cases answer with
  | error e =>
      rcases hexec.2 with h | h
      · cases h.1
      · exact Or.inr h.1
  | ok _ =>
  refine Fallible.Alone.bind ((ensureContent_runs hsound hp hdecodes
    fun hlinks _ => Or.inl hlinks).mono ?_ fun _ h => h)
  rintro _ d₂ ⟨hgrown, hothers, hticket, g, hg, hgdecodes⟩
  have hcontent := entry_objectPath ns oid
  have hne := objectPath_ne_contentPath ns oid oid
  have hremove : ∀ d', Named (contentPath oid) (objectPath ns oid) d₂ d' →
      Runs crates sha256 keys may
        (fun _ d'' => ∃ d₃, Shared crates sha256 keys ns oid d₁ d₃ ∧ Beside (part dir oid t) d₃ d'')
        (fun _ => ¬ LinksHold may ∨ may (.createDirAll (parent (contentPath oid))))
        (do let _ ← (removeFile (part dir oid t)).caught; return ()) d' := by
    intro d' hnamed
    have hshared : Shared crates sha256 keys ns oid d₁ d' := by
      refine ⟨hgrown.trans (hnamed.grown hg hcontent hgdecodes), ?_, fun q hobject hq => ?_, ?_⟩
      · obtain ⟨f', hf', -⟩ := hnamed.complete (hgrown.sound hsound) hg hcontent hgdecodes
        exact ⟨f', hf'⟩
      · exact ⟨(hnamed.names q hobject).trans (hothers q hq).1,
          (hnamed.finds q hobject).trans (hothers q hq).2⟩
      · exact hnamed.ticket.trans hticket
    refine Fallible.Alone.caught fun answer d₄ hexec => ?_
    rcases hexec.2.unlink with ⟨i, hi, -, rfl⟩ | ⟨-, -, rfl⟩ | ⟨-, -, rfl⟩
    · exact ⟨Beside.unname.atomic, Fallible.Alone.pure ⟨d', hshared, .unname⟩⟩
    · exact ⟨atomic_of_alike (.refl _), Fallible.Alone.pure ⟨_, hshared, .refl _ _⟩⟩
    · exact ⟨atomic_of_alike (.refl _), Fallible.Alone.pure ⟨_, hshared, .refl _ _⟩⟩
  refine Fallible.Alone.bind (Fallible.Under.caught
    (Program.Under.mono (link_entry_ending hg hcontent hgdecodes) ?_))
  intro answer d₃ hpost
  cases answer with
  | ok _ => exact Fallible.Alone.pure (hremove d₃ hpost)
  | error e =>
      obtain ⟨rfl, hlinks⟩ := hpost
      exact Fallible.Alone.throw (Or.inl hlinks)

/-! ## Writing -/

/-- What a write that succeeded leaves. -/
structure Wrote (crates : Crates) (sha256 : Bytes → Text) (keys : Option (Keyring crates))
    (ns : Namespace) (oid : Oid) (d d' : Volume) : Prop where
  grown : Grown crates sha256 keys d d'
  held : ∃ f, d'.find (objectPath ns oid) = some f
  others : ∀ q, q ≠ objectPath ns oid → q ≠ contentPath oid → q ≠ nextPart d ns oid →
    d'.inode q = d.inode q
  entries : ∀ q oid', Entry q oid' → q ≠ objectPath ns oid → q ≠ contentPath oid →
    d'.find q = d.find q
  ticket : d.ticket < d'.ticket

/-- The requests whose refusal leaves the staging file of a write behind are not refused. -/
structure Tidy (may : Files.Req Text → Prop) (p : LocalPath) (oid : Oid) : Prop where
  links : LinksHold may
  unlink : ¬ may (.unlink p)
  metadata : ¬ may (.metadata p)
  createDirAll : ¬ may (.createDirAll (parent (contentPath oid)))

/-- **A write.**  It grows the volume and holds the object, or it leaves no staging file. -/
theorem write_runs {ns : Namespace} {expectedSize : Option Nat} {budget : Option Budget}
    {chunks : List (Except String Bytes)} (lawful : crates.Lawful)
    (hsmall : Small (arriving chunks)) (hsound : Sound crates sha256 store.keys d) :
    Runs crates sha256 store.keys may
      (fun _ d' => Wrote crates sha256 store.keys ns oid d d')
      (fun d' => Tidy may (nextPart d ns oid) oid →
        d'.ticket = d.ticket ∨ d'.inode (nextPart d ns oid) = none)
      (store.write sha256 ns oid expectedSize budget chunks) d := by
  rw [write]
  refine Fallible.Alone.bind ((stage_runs lawful hsmall).mono ?_
    fun d' h htidy => h.tidied htidy.unlink htidy.metadata)
  intro staged d₁ hadmitted
  obtain ⟨f, hf, hdecodes⟩ := hadmitted.file
  rw [hadmitted.path, hadmitted.destination]
  refine Fallible.Alone.bind ((linkOrMove_runs (hadmitted.beside.entries.sound hsound) hf
    hdecodes).mono ?_ ?_)
  · rintro _ d₃ ⟨d₂, hshared, hbeside⟩
    refine Fallible.Alone.pure ⟨?_, ?_, fun q hobject hcontent hpart => ?_,
      fun q oid' hentry hobject hcontent => ?_, ?_⟩
    · exact hadmitted.beside.entries.grown.trans (hshared.grown.trans hbeside.entries.grown)
    · obtain ⟨g, hg⟩ := hshared.held
      exact ⟨g, (hbeside.entries _ _ (entry_objectPath ns oid)).trans hg⟩
    · exact (hbeside.names q hpart).trans ((hshared.others q hobject hcontent).1.trans
        (hadmitted.beside.names q hpart))
    · exact (hbeside.entries q oid' hentry).trans ((hshared.others q hobject hcontent).2.trans
        (hadmitted.beside.entries q oid' hentry))
    · exact lt_of_lt_of_le hadmitted.ticket (hshared.ticket ▸ hbeside.ticket)
  · rintro d' (hlinks | hmay) htidy
    · exact absurd htidy.links hlinks
    · exact absurd hmay htidy.createDirAll

end

end LocalStore

end Lfsx.Storage
