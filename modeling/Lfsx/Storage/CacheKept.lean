import Lfsx.Storage.CacheCalls

/-!
# The files a fill writes

A file that a fill may still write has no name but the one it was made under, so it is never a
cached object (`Lent`).  When fills of one object do not overlap, this survives that the file is
renamed to be the object: by then nobody may write it (`Kept.step`).
-/

namespace Lfsx.Storage

open Request Files

namespace Cache

/-! ## Files that are lent -/

/-- Some files of an ordinary directory are lent, each under a name. -/
structure Lent (d : Volume) (held : Nat → LocalPath → Prop) : Prop where
  ordinary : Ordinary d
  there : ∀ file path, held file path → file < d.files.length
  named : ∀ file path p, held file path → d.inode p = some file → p = path
  apart : ∀ file path path', held file path → held file path' → path = path'

section

variable {d d' : Volume} {held held' : Nat → LocalPath → Prop} {path : LocalPath}

theorem Lent.mono (h : Lent d held) (hheld : ∀ file path, held' file path → held file path) :
    Lent d held' :=
  ⟨h.ordinary, fun file path hf => h.there file path (hheld file path hf),
    fun file path p hf => h.named file path p (hheld file path hf),
    fun file path path' hf hf' => h.apart file path path' (hheld _ _ hf) (hheld _ _ hf')⟩

theorem Lent.congr (h : Lent d held) (hinode : ∀ p, d'.inode p = d.inode p)
    (hlength : d'.files.length = d.files.length) : Lent d' held :=
  ⟨h.ordinary.congr hinode, fun file path hf => hlength ▸ h.there file path hf,
    fun file path p hf hp => h.named file path p hf (by rw [← hinode, hp]), h.apart⟩

theorem Lent.unname (h : Lent d held) : Lent (d.unname path) held := by
  refine ⟨h.ordinary.unname, h.there, fun file q p hf hp => ?_, h.apart⟩
  rw [Disk.inode_unname] at hp
  split at hp
  · cases hp
  · exact h.named file q p hf hp

/-- What `create` leaves of a file: a new one, or what there was, cut off. -/
def Created (d d' : Volume) (path : LocalPath) (file : Nat) : Prop :=
  ∃ time, d.inode path = some file ∧ d' = d.fill file [] time ∨
    file = d.files.length ∧ d' = d.add path time

/-- A file is created, or cut off, and lent. -/
theorem Lent.create {name : Text} {file : Nat} (h : Lent d held) (hd' : Created d d' [name] file) :
    Lent d' fun f p => held f p ∨ f = file ∧ p = [name] := by
  rcases hd' with ⟨time, ⟨hinode, rfl⟩ | ⟨rfl, rfl⟩⟩
  · have hnamed : ∀ q, held file q → q = [name] := fun q hq => (h.named file q _ hq hinode).symm
    refine ⟨h.ordinary.congr fun p => Disk.inode_fill p, ?_, ?_, ?_⟩
    · rintro f p (hf | ⟨rfl, -⟩)
      · exact (List.length_set).symm ▸ h.there f p hf
      · exact (List.length_set).symm ▸ Disk.inode_lt hinode
    · rintro f q p (hf | ⟨rfl, rfl⟩) hp
      · exact h.named f q p hf hp
      · exact h.ordinary.single p _ f hp hinode
    · rintro f q q' (hf | ⟨rfl, rfl⟩) (hf' | ⟨hfile, rfl⟩)
      · exact h.apart f q q' hf hf'
      · exact hnamed q (hfile ▸ hf)
      · exact (hnamed q' hf').symm
      · rfl
  · have hnew : ∀ q, ¬ held d.files.length q := fun q hq => lt_irrefl _ (h.there _ q hq)
    have hlength : (d.add [name] time).files.length = d.files.length + 1 := by simp [Disk.add]
    refine ⟨h.ordinary.add name, ?_, ?_, ?_⟩
    · rintro f p (hf | ⟨rfl, -⟩)
      · rw [hlength]
        exact Nat.lt_succ_of_lt (h.there f p hf)
      · rw [hlength]
        exact Nat.lt_succ_self _
    · rintro f q p (hf | ⟨rfl, rfl⟩) hp
      · rw [Disk.inode_add] at hp
        split at hp
        · cases hp
          exact absurd hf (hnew q)
        · exact h.named f q p hf hp
      · rw [Disk.inode_add] at hp
        split at hp
        next heq => exact heq
        next => exact absurd (Disk.inode_lt hp) (lt_irrefl _)
    · rintro f q q' (hf | ⟨rfl, rfl⟩) (hf' | ⟨hfile, rfl⟩)
      · exact h.apart f q q' hf hf'
      · exact absurd (hfile ▸ hf) (hnew q)
      · exact absurd hf' (hnew q')
      · rfl

/-- A file that is lent no more gets another name. -/
theorem Lent.rename {source : LocalPath} {name : Text} {file : Nat} (h : Lent d held)
    (hinode : d.inode source = some file) (hne : d.inode source ≠ d.inode [name])
    (hnone : ∀ f, ¬ held f source) : Lent (d.rename source [name]) held := by
  refine ⟨h.ordinary.rename name hinode hne, fun f p hf => ?_, fun f q p hf hp => ?_, h.apart⟩
  · rw [Disk.files_rename]
    exact h.there f p hf
  · rw [Disk.inode_rename hinode hne] at hp
    split at hp
    · cases hp
    · split at hp
      · cases hp
        have hq : source = q := h.named file q source hf hinode
        exact absurd (hq ▸ hf) (hnone file)
      · exact h.named f q p hf hp

end

/-! ## Phases -/

/-- The phase has no more than another: a fill has failed, or is over. -/
structure Phase.Less (p' p : Phase) : Prop where
  holds : ∀ oid e, e ∈ p'.holds oid → e ∈ p.holds oid
  file : p'.file? = none ∨ p'.file? = p.file?
  taken : p'.taken? = none ∨ p'.taken? = p.taken?

theorem Phase.Less.refl (p : Phase) : p.Less p := ⟨fun _ _ h => h, Or.inr rfl, Or.inr rfl⟩

theorem Phase.holds_eq_nil {p : Phase} (h : p.file? = none) (oid : Oid) : p.holds oid = [] := by
  cases p <;> first | rfl | cases h

theorem Phase.taken_eq_none {p : Phase} (h : p.file? = none) : p.taken? = none := by
  cases p <;> first | rfl | cases h

/-- A phase without a file has nothing. -/
theorem Phase.less_of_none {p p' : Phase} (h : p'.file? = none) : p'.Less p := by
  refine ⟨fun oid e he => ?_, Or.inl h, Or.inl (taken_eq_none h)⟩
  rw [holds_eq_nil h] at he
  cases he

theorem Phase.less_failed {p : Phase} {file : Nat} (h : p.file? = some file) :
    (Phase.failed file).Less p := by
  refine ⟨fun oid e he => ?_, Or.inr h.symm, Or.inl rfl⟩
  obtain rfl := List.mem_singleton.mp he
  cases p <;> first | (cases h; exact List.mem_cons_self) | cases h

theorem Phase.mem_holds {p : Phase} {file : Nat} (h : p.file? = some file) (oid : Oid) :
    (file, incoming oid) ∈ p.holds oid := by
  cases p <;> first | (cases h; exact List.mem_cons_self) | cases h

theorem Phase.file_of_taken {p : Phase} {file : Nat} {bytes : Bytes}
    (h : p.taken? = some (file, bytes)) : p.file? = some file := by
  cases p <;> first | (cases h; rfl) | cases h

/-- What is held under the name of a fill is the file of the fill. -/
theorem Phase.held_incoming {p : Phase} {oid oid' : Oid} {file : Nat}
    (h : (file, incoming oid') ∈ p.holds oid) : p.file? = some file ∧ oid' = oid := by
  have hone : ∀ f, (file, incoming oid') = (f, incoming oid) → some f = some file ∧ oid' = oid := by
    intro f heq
    exact ⟨congrArg some (congrArg Prod.fst heq).symm, incoming_inj (congrArg Prod.snd heq)⟩
  cases p with
  | staging f taken => exact hone f (List.mem_singleton.mp h)
  | noted f taken => exact hone f (List.mem_singleton.mp h)
  | failed f => exact hone f (List.mem_singleton.mp h)
  | noting f taken beside =>
      rcases List.mem_cons.mp h with heq | h
      · exact hone f heq
      · have heq := congrArg Prod.snd (List.mem_singleton.mp h)
        exact absurd heq (incoming_ne_digest oid' oid)
  | _ => cases h

section

variable {ι : Type} [DecidableEq ι] {cache : Cache} {calls : ι → Call} {i j : ι} {r : Req}
  {answer : Resp r} {past : Past ι} {file : Nat} {path : LocalPath}

theorem phase_self :
    phase cache i (⟨i, r, answer⟩ :: past) = next cache (phase cache i past) r answer :=
  trail_own r answer past

theorem phase_other (h : j ≠ i) :
    phase cache j (⟨i, r, answer⟩ :: past) = phase cache j past :=
  trail_other h.symm r answer past

/-- Who holds a file after a step: another, as before, or the one whose step it was. -/
theorem held_cons (h : Held cache calls (⟨i, r, answer⟩ :: past) file path) :
    (∃ j, j ≠ i ∧ (file, path) ∈ (phase cache j past).holds (calls j).oid) ∨
      (file, path) ∈ (next cache (phase cache i past) r answer).holds (calls i).oid := by
  obtain ⟨j, hj⟩ := h
  by_cases hij : j = i
  · subst hij
    rw [phase_self] at hj
    exact Or.inr hj
  · rw [phase_other hij] at hj
    exact Or.inl ⟨j, hij, hj⟩

theorem held_of_file (h : (phase cache i past).file? = some file) :
    Held cache calls past file (incoming (calls i).oid) :=
  ⟨i, Phase.mem_holds h _⟩

end

/-! ## What a step does -/

/-- What a request of a call on an object does to its phase and to the directory. -/
inductive Change (cache : Cache) (oid : Oid) (r : Req) (p p' : Phase) (d d' : Volume) : Prop where
  | same : p'.Less p → Unmoved d d' → Change cache oid r p p' d d'
  | lost {path : LocalPath} : p'.Less p → d' = d.unname path → Change cache oid r p p' d d'
  | began {file : Nat} : r = .disk (.create (incoming oid)) → p = .idle → p' = .staging file [] →
      Created d d' (incoming oid) file → Change cache oid r p p' d d'
  | sent {file time : Nat} {bytes : Bytes} : p.file? = some file →
      (p' = .staging file bytes ∨ p' = .failed file) → d' = d.fill file bytes time →
      Change cache oid r p p' d d'
  | noting {file beside : Nat} {taken : Bytes} : p = .staging file taken →
      p' = .noting file taken beside → Created d d' (digest oid) beside →
      Change cache oid r p p' d d'
  | recorded {file beside time : Nat} {taken bytes : Bytes} :
      r = .disk (.write beside (utf8Encode (cache.blake3 taken).text)) →
      p = .noting file taken beside → p'.Less p →
      bytes <+: utf8Encode (cache.blake3 taken).text → d' = d.fill beside bytes time →
      Change cache oid r p p' d d'
  | placed {file k : Nat} {taken : Bytes} : r = .disk (.rename (incoming oid) (object oid)) →
      p = .noted file taken → p' = .placed → d.inode (incoming oid) = some k →
      d' = d.rename (incoming oid) (object oid) → Change cache oid r p p' d d'

section

variable {cache : Cache} {oid : Oid} {p p' : Phase} {d d' : Volume}

theorem calm_unmoved {may : Req → Prop} {r : Req} {s s' : Shared} {answer : Resp r} (hr : r.Calm)
    (hexec : Answers may r s answer s') : Unmoved s.disk s'.disk := by
  cases r with
  | grow size => exact .of_eq hexec.1
  | shrink size => exact .of_eq hexec.1
  | disk r =>
      refine .of_alike (hexec.1.looks ?_)
      cases r <;> first | exact hr.elim | trivial
  | stamp handle => exact (still_same (by trivial) hexec).disk
  | endCheck name => exact .of_eq hexec.1
  | unverify name => exact .of_eq hexec.1
  | hit => exact .of_eq hexec.1
  | miss => exact .of_eq hexec.1
  | _ => exact hr.elim

/-- A request that is allowed makes one of the changes. -/
theorem Allowed.change {may : Req → Prop} {r : Req} {s s' : Shared} {answer : Resp r}
    (hallowed : Allowed cache oid p r) (hexec : Answers may r s answer s')
    (htaken : ∀ file bytes, p.taken? = some (file, bytes) →
      (s.disk.file file).map File.bytes = some bytes) :
    Change cache oid r p (next cache p r answer) s.disk s'.disk := by
  cases hallowed with
  | calm hr =>
      rw [next_calm hr]
      exact .same (.refl _) (calm_unmoved hr hexec)
  | remove =>
      have hless : (next cache p (.disk (.unlink _)) answer).Less p := by
        cases p <;> first | exact .refl _ | exact Phase.less_of_none rfl
      rcases hexec.1.unlink with ⟨i, -, -, hdisk⟩ | ⟨-, -, hdisk⟩ | ⟨-, -, hdisk⟩
      · exact .lost hless hdisk
      · exact .same hless (.of_eq hdisk)
      · exact .same hless (.of_eq hdisk)
  | «open» =>
      refine .same (Phase.less_of_none ?_) (.of_alike (hexec.1.looks (by trivial)))
      cases answer <;> rfl
  | trust =>
      refine .same (Phase.less_of_none ?_) (.of_eq (by rw [hexec.2]))
      cases answer <;> rfl
  | check =>
      refine .same (Phase.less_of_none ?_) (.of_eq hexec.2.1)
      cases answer <;> rfl
  | openDigest =>
      refine .same (Phase.less_of_none ?_) (.of_alike (hexec.1.looks (by trivial)))
      cases answer <;> rfl
  | readDigest =>
      refine .same (Phase.less_of_none ?_) (.of_alike (hexec.1.looks (by trivial)))
      match answer with
      | .error _ => rfl
      | .ok bytes =>
          rw [next]
          cases utf8Decode bytes <;> rfl
  | reopen =>
      refine .same (Phase.less_of_none ?_) (.of_alike (hexec.1.looks (by trivial)))
      cases answer <;> rfl
  | readObject =>
      refine .same (Phase.less_of_none ?_) (.of_alike (hexec.1.looks (by trivial)))
      match answer with
      | .error _ => rfl
      | .ok bytes =>
          rw [next]
          split <;> rfl
  | verify => exact .same (.refl _) (.of_eq hexec.1)
  | touch => exact .same (.refl _) (.of_alike (hexec.1.looks (by trivial)))
  | create =>
      rcases hexec.1.create with ⟨i, time, hi, rfl, -, hdisk⟩ | ⟨time, -, rfl, -, hdisk⟩ |
        ⟨-, rfl, hdisk⟩
      · exact .began rfl rfl rfl ⟨time, Or.inl ⟨hi, hdisk⟩⟩
      · exact .began rfl rfl rfl ⟨time, Or.inr ⟨rfl, hdisk⟩⟩
      · exact .same (.refl _) (.of_eq hdisk)
  | send =>
      have hbytes := htaken _ _ rfl
      obtain ⟨-, time, -, ⟨rfl, hdisk⟩ | ⟨-, rfl, short, -, hdisk⟩⟩ := hexec
      · exact .sent rfl (Or.inl rfl) (hdisk.trans (wroteAt_end hbytes))
      · exact .sent rfl (Or.inr rfl) (hdisk.trans (wroteAt_end hbytes))
  | note =>
      rcases hexec.1.create with ⟨i, time, hi, rfl, -, hdisk⟩ | ⟨time, -, rfl, -, hdisk⟩ |
        ⟨-, rfl, hdisk⟩
      · exact .noting rfl rfl ⟨time, Or.inl ⟨hi, hdisk⟩⟩
      · exact .noting rfl rfl ⟨time, Or.inr ⟨rfl, hdisk⟩⟩
      · exact .same (Phase.less_failed rfl) (.of_eq hdisk)
  | record =>
      rcases hexec.1.write with ⟨rfl, time, -, hdisk⟩ | ⟨-, rfl, short, time, hshort, -, hdisk⟩
      · refine .recorded rfl rfl ⟨fun oid e he => ?_, Or.inr rfl, Or.inr rfl⟩
          (List.prefix_refl _) hdisk
        exact List.mem_singleton.mp he ▸ List.mem_cons_self
      · exact .recorded rfl rfl (Phase.less_failed rfl) hshort hdisk
  | place =>
      rcases hexec.1.rename with ⟨k, hk, rfl, hdisk⟩ | ⟨e, rfl, hdisk, -⟩
      · exact .placed rfl rfl rfl hk hdisk
      · exact .same (Phase.less_failed rfl) (.of_eq hdisk)

end

/-! ## What stays true -/

section

variable {ι : Type} [DecidableEq ι] (cache : Cache) (calls : ι → Call)

/-- What fills of different objects keep among them. -/
structure Kept (w : World ι) : Prop where
  lent : Lent w.1.disk (Held cache calls w.2)
  alone : ∀ i j file file', (phase cache i w.2).file? = some file →
    (phase cache j w.2).file? = some file' → (calls i).oid = (calls j).oid → i = j
  staged : ∀ i file k, (phase cache i w.2).file? = some file →
    w.1.disk.inode (incoming (calls i).oid) = some k → k = file
  taken : ∀ i file bytes, (phase cache i w.2).taken? = some (file, bytes) →
    (w.1.disk.file file).map File.bytes = some bytes

end

section

variable {ι : Type} [DecidableEq ι] {cache : Cache} {calls : ι → Call} {i : ι} {r : Req}
  {answer : Resp r} {w : World ι} {s' : Shared}

/-- A thread that comes to hold no more, over a directory that lost at most names. -/
theorem Kept.less (h : Kept cache calls w)
    (hless : (next cache (phase cache i w.2) r answer).Less (phase cache i w.2))
    (hlent : Lent s'.disk (Held cache calls w.2))
    (hinode : ∀ p k, s'.disk.inode p = some k → w.1.disk.inode p = some k)
    (hfile : ∀ j k, (phase cache j w.2).file? = some k →
      (s'.disk.file k).map File.bytes = (w.1.disk.file k).map File.bytes) :
    Kept cache calls (s', ⟨i, r, answer⟩ :: w.2) := by
  have hfiles : ∀ j file, (phase cache j (⟨i, r, answer⟩ :: w.2)).file? = some file →
      (phase cache j w.2).file? = some file := by
    intro j file hj
    by_cases hij : j = i
    · subst hij
      rw [phase_self] at hj
      rcases hless.file with hnone | hsame
      · rw [hnone] at hj
        cases hj
      · rwa [hsame] at hj
    · rwa [phase_other hij] at hj
  refine ⟨hlent.mono fun file path hheld => ?_, ?_, ?_, ?_⟩
  · rcases held_cons hheld with ⟨j, -, hj⟩ | hi
    · exact ⟨j, hj⟩
    · exact ⟨i, hless.holds _ _ hi⟩
  · intro j k file file' hj hk
    exact h.alone j k file file' (hfiles j file hj) (hfiles k file' hk)
  · intro j file k hj hk
    exact h.staged j file k (hfiles j file hj) (hinode _ _ hk)
  · intro j file bytes hj
    rw [hfile j file (hfiles j file (Phase.file_of_taken hj))]
    by_cases hij : j = i
    · subst hij
      rw [phase_self] at hj
      rcases hless.taken with hnone | hsame
      · rw [hnone] at hj
        cases hj
      · rw [hsame] at hj
        exact h.taken _ _ _ hj
    · rw [phase_other hij] at hj
      exact h.taken _ _ _ hj

/-- The file of a fill is not one that is held elsewhere. -/
theorem Kept.file_ne {j : ι} {file file' : Nat} {path : LocalPath} (h : Kept cache calls w)
    (hj : (phase cache j w.2).file? = some file) (hheld : Held cache calls w.2 file' path)
    (hne : incoming (calls j).oid ≠ path) : file ≠ file' := by
  rintro rfl
  exact hne (h.lent.apart file _ _ (held_of_file hj) hheld)

/-- A fill begins, as the only one of its object. -/
theorem Kept.began {name : Text} {file : Nat} (h : Kept cache calls w)
    (hname : incoming (calls i).oid = [name])
    (hclaim : ∀ j, (calls j).oid = (calls i).oid → (phase cache j w.2).file? = none)
    (hphase : next cache (phase cache i w.2) r answer = .staging file [])
    (hdisk : Created w.1.disk s'.disk [name] file) :
    Kept cache calls (s', ⟨i, r, answer⟩ :: w.2) := by
  have hlent := h.lent.create hdisk
  have hothers : ∀ j f, j ≠ i → (phase cache j w.2).file? = some f →
      incoming (calls j).oid ≠ [name] := by
    intro j f hj hf heq
    rw [hclaim j (incoming_inj (heq.trans hname.symm))] at hf
    cases hf
  refine ⟨hlent.mono fun f path hheld => ?_, ?_, ?_, ?_⟩
  · rcases held_cons hheld with ⟨j, -, hj⟩ | hi
    · exact Or.inl ⟨j, hj⟩
    · rw [hphase] at hi
      have heq := List.mem_singleton.mp hi
      exact Or.inr ⟨congrArg Prod.fst heq, (congrArg Prod.snd heq).trans hname⟩
  · intro j k f f' hj hk hoid
    by_cases hji : j = i
    · by_cases hki : k = i
      · rw [hji, hki]
      · rw [phase_other hki] at hk
        rw [hclaim k (by rw [← hoid, hji])] at hk
        cases hk
    · rw [phase_other hji] at hj
      by_cases hki : k = i
      · rw [hclaim j (by rw [hoid, hki])] at hj
        cases hj
      · rw [phase_other hki] at hk
        exact h.alone j k f f' hj hk hoid
  · intro j f k hj hk
    by_cases hji : j = i
    · subst hji
      rw [phase_self, hphase] at hj
      cases hj
      rw [hname] at hk
      rcases hdisk with ⟨time, ⟨hinode, hdisk⟩ | ⟨rfl, hdisk⟩⟩
      · rw [hdisk, Disk.inode_fill, hinode] at hk
        exact (Option.some.inj hk).symm
      · rw [hdisk, Disk.inode_add, if_pos rfl] at hk
        exact (Option.some.inj hk).symm
    · rw [phase_other hji] at hj
      rcases hdisk with ⟨time, ⟨-, hdisk⟩ | ⟨-, hdisk⟩⟩
      · rw [hdisk, Disk.inode_fill] at hk
        exact h.staged j f k hj hk
      · rw [hdisk, Disk.inode_add, if_neg (hothers j f hji hj)] at hk
        exact h.staged j f k hj hk
  · intro j f bytes hj
    by_cases hji : j = i
    · subst hji
      rw [phase_self, hphase] at hj
      cases hj
      rcases hdisk with ⟨time, ⟨hinode, hdisk⟩ | ⟨rfl, hdisk⟩⟩
      · rw [hdisk, Disk.file_fill_self (Disk.inode_lt hinode)]
        rfl
      · rw [hdisk, Disk.file_add_new]
        rfl
    · rw [phase_other hji] at hj
      have hf := Phase.file_of_taken hj
      have hold := h.taken j f bytes hj
      rcases hdisk with ⟨time, ⟨hinode, hdisk⟩ | ⟨-, hdisk⟩⟩
      · have hne : f ≠ file := by
          rintro rfl
          exact hothers j f hji hf (h.lent.named f _ _ (held_of_file hf) hinode).symm
        rw [hdisk, Disk.file_fill_ne hne, hold]
      · rw [hdisk, Disk.file_add_old (h.lent.there f _ (held_of_file hf)), hold]

/-- A fill writes to its file. -/
theorem Kept.sent {file time : Nat} {bytes : Bytes} (h : Kept cache calls w)
    (hfile : (phase cache i w.2).file? = some file)
    (hphase : next cache (phase cache i w.2) r answer = .staging file bytes ∨
      next cache (phase cache i w.2) r answer = .failed file)
    (hdisk : s'.disk = w.1.disk.fill file bytes time) :
    Kept cache calls (s', ⟨i, r, answer⟩ :: w.2) := by
  have hlent : Lent s'.disk (Held cache calls w.2) := by
    refine h.lent.congr (fun p => by rw [hdisk, Disk.inode_fill]) ?_
    rw [hdisk]
    exact List.length_set
  have hholds : (next cache (phase cache i w.2) r answer).holds (calls i).oid =
      [(file, incoming (calls i).oid)] := by
    rcases hphase with heq | heq <;> rw [heq] <;> rfl
  have hfile' : (next cache (phase cache i w.2) r answer).file? = some file := by
    rcases hphase with heq | heq <;> rw [heq] <;> rfl
  have hfiles : ∀ j f, (phase cache j (⟨i, r, answer⟩ :: w.2)).file? = some f →
      (phase cache j w.2).file? = some f := by
    intro j f hj
    by_cases hij : j = i
    · subst hij
      rw [phase_self, hfile'] at hj
      rw [hfile, ← hj]
    · rwa [phase_other hij] at hj
  refine ⟨hlent.mono fun f path hheld => ?_, ?_, ?_, ?_⟩
  · rcases held_cons hheld with ⟨j, -, hj⟩ | hi
    · exact ⟨j, hj⟩
    · rw [hholds] at hi
      obtain ⟨rfl, rfl⟩ := Prod.mk.inj (List.mem_singleton.mp hi)
      exact held_of_file hfile
  · intro j k f f' hj hk
    exact h.alone j k f f' (hfiles j f hj) (hfiles k f' hk)
  · intro j f k hj hk
    rw [hdisk, Disk.inode_fill] at hk
    exact h.staged j f k (hfiles j f hj) hk
  · intro j f all hj
    have hf := hfiles j f (Phase.file_of_taken hj)
    by_cases hij : j = i
    · subst hij
      rw [phase_self] at hj
      rcases hphase with heq | heq
      · rw [heq] at hj
        cases hj
        rw [hdisk, Disk.file_fill_self (h.lent.there _ _ (held_of_file hf))]
        rfl
      · rw [heq] at hj
        cases hj
    · rw [phase_other hij] at hj
      have hne : f ≠ file := h.file_ne hf (held_of_file hfile) fun heq =>
        hij (h.alone j i f file hf hfile (incoming_inj heq))
      rw [hdisk, Disk.file_fill_ne hne]
      exact h.taken j f all hj

/-- A fill creates the digest. -/
theorem Kept.noting {name : Text} {file beside : Nat} {taken : Bytes} (h : Kept cache calls w)
    (hname : digest (calls i).oid = [name]) (hp : phase cache i w.2 = .staging file taken)
    (hphase : next cache (phase cache i w.2) r answer = .noting file taken beside)
    (hdisk : Created w.1.disk s'.disk [name] beside) :
    Kept cache calls (s', ⟨i, r, answer⟩ :: w.2) := by
  have hlent := h.lent.create hdisk
  have hne : ∀ o, incoming o ≠ [name] := fun o => hname ▸ incoming_ne_digest o _
  have hfiles : ∀ j f, (phase cache j (⟨i, r, answer⟩ :: w.2)).file? = some f →
      (phase cache j w.2).file? = some f := by
    intro j f hj
    by_cases hij : j = i
    · subst hij
      rw [phase_self, hphase] at hj
      rw [hp]
      exact hj
    · rwa [phase_other hij] at hj
  refine ⟨hlent.mono fun f path hheld => ?_, ?_, ?_, ?_⟩
  · rcases held_cons hheld with ⟨j, -, hj⟩ | hi
    · exact Or.inl ⟨j, hj⟩
    · rw [hphase] at hi
      rcases List.mem_cons.mp hi with heq | hi
      · obtain ⟨rfl, rfl⟩ := Prod.mk.inj heq
        exact Or.inl (held_of_file (by rw [hp]; rfl))
      · have heq := List.mem_singleton.mp hi
        exact Or.inr ⟨congrArg Prod.fst heq, (congrArg Prod.snd heq).trans hname⟩
  · intro j k f f' hj hk
    exact h.alone j k f f' (hfiles j f hj) (hfiles k f' hk)
  · intro j f k hj hk
    refine h.staged j f k (hfiles j f hj) ?_
    rcases hdisk with ⟨time, ⟨-, hdisk⟩ | ⟨-, hdisk⟩⟩
    · rwa [hdisk, Disk.inode_fill] at hk
    · rwa [hdisk, Disk.inode_add, if_neg (hne _)] at hk
  · intro j f bytes hj
    have hf := hfiles j f (Phase.file_of_taken hj)
    have hold : (w.1.disk.file f).map File.bytes = some bytes := by
      by_cases hij : j = i
      · subst hij
        rw [phase_self, hphase] at hj
        refine h.taken j f bytes ?_
        rw [hp]
        exact hj
      · rw [phase_other hij] at hj
        exact h.taken j f bytes hj
    have hfb : f ≠ beside := by
      rintro rfl
      exact hne _ (hlent.apart f _ _ (Or.inl (held_of_file hf)) (Or.inr ⟨rfl, rfl⟩))
    rcases hdisk with ⟨time, ⟨-, hdisk⟩ | ⟨-, hdisk⟩⟩
    · rw [hdisk, Disk.file_fill_ne hfb, hold]
    · rw [hdisk, Disk.file_add_old (h.lent.there f _ (held_of_file hf)), hold]

/-- A fill writes the digest. -/
theorem Kept.recorded {file beside time : Nat} {taken bytes : Bytes} (h : Kept cache calls w)
    (hp : phase cache i w.2 = .noting file taken beside)
    (hless : (next cache (phase cache i w.2) r answer).Less (phase cache i w.2))
    (hdisk : s'.disk = w.1.disk.fill beside bytes time) :
    Kept cache calls (s', ⟨i, r, answer⟩ :: w.2) := by
  have hbeside : Held cache calls w.2 beside (digest (calls i).oid) := by
    refine ⟨i, ?_⟩
    rw [hp]
    exact List.mem_cons_of_mem _ List.mem_cons_self
  refine h.less hless (h.lent.congr (fun p => by rw [hdisk, Disk.inode_fill]) ?_) ?_ ?_
  · rw [hdisk]
    exact List.length_set
  · intro p k hk
    rwa [hdisk, Disk.inode_fill] at hk
  · intro j k hj
    have hne : k ≠ beside := h.file_ne hj hbeside (incoming_ne_digest _ _)
    rw [hdisk, Disk.file_fill_ne hne]

/-- A fill puts its file in place, and may not write it any more. -/
theorem Kept.placed {file : Nat} {taken : Bytes} (h : Kept cache calls w)
    (hp : phase cache i w.2 = .noted file taken)
    (hphase : next cache (phase cache i w.2) r answer = .placed)
    (hinode : w.1.disk.inode (incoming (calls i).oid) = some file)
    (hdisk : s'.disk = w.1.disk.rename (incoming (calls i).oid) (object (calls i).oid)) :
    Kept cache calls (s', ⟨i, r, answer⟩ :: w.2) := by
  have hfile : (phase cache i w.2).file? = some file := by rw [hp]; rfl
  have hne : w.1.disk.inode (incoming (calls i).oid) ≠ w.1.disk.inode [(calls i).oid.text] := by
    intro heq
    exact counted_ne (counts_incoming _) (counts_object (calls i).oid)
      (h.lent.ordinary.single _ _ file hinode (heq ▸ hinode))
  have hthere : ∀ j f, (phase cache j (⟨i, r, answer⟩ :: w.2)).file? = some f →
      j ≠ i ∧ (phase cache j w.2).file? = some f := by
    intro j f hj
    by_cases hij : j = i
    · subst hij
      rw [phase_self, hphase] at hj
      cases hj
    · rw [phase_other hij] at hj
      exact ⟨hij, hj⟩
  have hheld : ∀ f path, Held cache calls (⟨i, r, answer⟩ :: w.2) f path →
      Held cache calls w.2 f path := by
    intro f path hheld
    rcases held_cons hheld with ⟨j, -, hj⟩ | hi
    · exact ⟨j, hj⟩
    · rw [hphase] at hi
      cases hi
  have hnone : ∀ f, ¬ Held cache calls (⟨i, r, answer⟩ :: w.2) f (incoming (calls i).oid) := by
    rintro f ⟨j, hj⟩
    obtain ⟨hj, hoid⟩ := Phase.held_incoming hj
    obtain ⟨hji, hj⟩ := hthere j f hj
    exact hji (h.alone j i f file hj hfile hoid.symm)
  refine ⟨hdisk ▸ (h.lent.mono hheld).rename hinode hne hnone, ?_, ?_, ?_⟩
  · intro j k f f' hj hk
    exact h.alone j k f f' (hthere j f hj).2 (hthere k f' hk).2
  · intro j f k hj hk
    obtain ⟨hji, hj⟩ := hthere j f hj
    refine h.staged j f k hj ?_
    have hsource : incoming (calls j).oid ≠ incoming (calls i).oid := fun heq =>
      hji (h.alone j i f file hj hfile (incoming_inj heq))
    have htarget : incoming (calls j).oid ≠ [(calls i).oid.text] :=
      counted_ne (counts_incoming _) (counts_object (calls i).oid)
    rw [hdisk] at hk
    rwa [object, Disk.inode_rename hinode hne, if_neg hsource, if_neg htarget] at hk
  · intro j f bytes hj
    obtain ⟨hji, -⟩ := hthere j f (Phase.file_of_taken hj)
    rw [phase_other hji] at hj
    rw [hdisk, Disk.file_rename]
    exact h.taken j f bytes hj

theorem Kept.change {may : Req → Prop} (h : Kept cache calls w)
    (hallowed : Allowed cache (calls i).oid (phase cache i w.2) r)
    (hexec : Answers may r w.1 answer s') :
    Change cache (calls i).oid r (phase cache i w.2) (next cache (phase cache i w.2) r answer)
      w.1.disk s'.disk :=
  hallowed.change hexec fun file bytes => h.taken i file bytes

/-! ## What a step leaves -/

theorem Phase.private_of_mem {p : Phase} {oid : Oid} {file : Nat} {path : LocalPath}
    (h : (file, path) ∈ p.holds oid) : path = incoming oid ∨ path = digest oid := by
  cases p with
  | staging f taken => exact Or.inl (Prod.mk.inj (List.mem_singleton.mp h)).2
  | noted f taken => exact Or.inl (Prod.mk.inj (List.mem_singleton.mp h)).2
  | failed f => exact Or.inl (Prod.mk.inj (List.mem_singleton.mp h)).2
  | noting f taken beside =>
      rcases List.mem_cons.mp h with heq | h
      · exact Or.inl (Prod.mk.inj heq).2
      · exact Or.inr (Prod.mk.inj (List.mem_singleton.mp h)).2
  | _ => cases h

theorem Held.private {file : Nat} {path : LocalPath} (h : Held cache calls w.2 file path) :
    ∃ oid, path = incoming oid ∨ path = digest oid := by
  obtain ⟨j, hj⟩ := h
  exact ⟨_, Phase.private_of_mem hj⟩

theorem not_counts_of_private {path : LocalPath} {oid : Oid}
    (h : path = incoming oid ∨ path = digest oid) : counts path = false := by
  rcases h with rfl | rfl
  · exact counts_incoming oid
  · exact counts_digest oid

section

variable {may : Req → Prop} {oid : Oid} {p p' : Phase} {d d' : Volume} {path : LocalPath} {k : Nat}

theorem Created.inode {file : Nat} (h : Created d d' path file) {q : LocalPath}
    (hk : d'.inode q = some k) : d.inode q = some k ∨
      q = path ∧ d.files.length ≤ k ∧ (d'.file k).map File.bytes = some [] := by
  rcases h with ⟨time, ⟨-, rfl⟩ | ⟨rfl, rfl⟩⟩
  · exact Or.inl hk
  · rw [Disk.inode_add] at hk
    split at hk
    · next heq =>
        cases hk
        exact Or.inr ⟨heq, le_refl _, by rw [Disk.file_add_new]; rfl⟩
    · exact Or.inl hk

theorem Created.length {file : Nat} (h : Created d d' path file) :
    d.files.length ≤ d'.files.length := by
  rcases h with ⟨time, ⟨-, rfl⟩ | ⟨rfl, rfl⟩⟩
  · exact (List.length_set).symm ▸ le_refl _
  · simp [Disk.add]

/-- Where a name comes from. -/
theorem Change.inode (h : Change cache oid r p p' d d') (hk : d'.inode path = some k) :
    d.inode path = some k ∨
      (path = incoming oid ∨ path = digest oid) ∧ d.files.length ≤ k ∧
        (d'.file k).map File.bytes = some [] ∨
      path = object oid ∧ d.inode (incoming oid) = some k ∧ p' = .placed ∧ p ≠ .placed := by
  rcases h with ⟨-, hsame⟩ | ⟨-, rfl⟩ | ⟨-, -, -, hcreated⟩ | ⟨-, -, rfl⟩ | ⟨-, -, hcreated⟩ |
    ⟨-, -, -, -, rfl⟩ | ⟨-, rfl, hphase, hinode, rfl⟩
  · rw [hsame.inode] at hk
    exact Or.inl hk
  · rw [Disk.inode_unname] at hk
    split at hk
    · cases hk
    · exact Or.inl hk
  · rcases hcreated.inode hk with hk | ⟨hpath, hnew⟩
    · exact Or.inl hk
    · exact Or.inr (Or.inl ⟨Or.inl hpath, hnew⟩)
  · exact Or.inl hk
  · rcases hcreated.inode hk with hk | ⟨hpath, hnew⟩
    · exact Or.inl hk
    · exact Or.inr (Or.inl ⟨Or.inr hpath, hnew⟩)
  · exact Or.inl hk
  · by_cases hsame : d.inode (incoming oid) = d.inode (object oid)
    · rw [Disk.rename_same hsame] at hk
      exact Or.inl hk
    · rw [Disk.inode_rename hinode hsame] at hk
      split at hk
      · cases hk
      · split at hk
        · next heq =>
            cases hk
            exact Or.inr (Or.inr ⟨heq, hinode, hphase, Phase.noConfusion⟩)
        · exact Or.inl hk

theorem Change.length (h : Change cache oid r p p' d d') : d.files.length ≤ d'.files.length := by
  rcases h with ⟨-, hsame⟩ | ⟨-, rfl⟩ | ⟨-, -, -, hcreated⟩ | ⟨-, -, rfl⟩ | ⟨-, -, hcreated⟩ |
    ⟨-, -, -, -, rfl⟩ | ⟨-, -, -, -, rfl⟩
  · exact hsame.length.symm ▸ le_refl _
  · exact le_refl _
  · exact hcreated.length
  · exact (List.length_set).symm ▸ le_refl _
  · exact hcreated.length
  · exact (List.length_set).symm ▸ le_refl _
  · rw [Disk.files_rename]

/-- Which files a step may write: the one of a fill, and its digest. -/
theorem Change.file (h : Change cache oid r p p' d d') (hk : k < d.files.length) :
    (d'.file k).map File.bytes = (d.file k).map File.bytes ∨
      (d.inode (incoming oid) = some k ∨ (k, incoming oid) ∈ p.holds oid) ∨
      (d.inode (digest oid) = some k ∨ (k, digest oid) ∈ p.holds oid) ∧
        ∃ bytes, (d'.file k).map File.bytes = some bytes ∧
          (bytes = [] ∨ ∃ x : Oid, bytes <+: utf8Encode x.text ∧
            r = .disk (.write k (utf8Encode x.text))) := by
  have hfill : ∀ {file time : Nat} {bytes : Bytes}, k ≠ file →
      ((d.fill file bytes time).file k).map File.bytes = (d.file k).map File.bytes := by
    intro file time bytes hne
    rw [Disk.file_fill_ne hne]
  rcases h with ⟨-, hsame⟩ | ⟨-, rfl⟩ | @⟨new, -, -, -, hcreated⟩ | @⟨file, -, -, hfile, -, rfl⟩ |
    @⟨-, beside, -, -, -, hcreated⟩ | @⟨-, beside, -, taken, bytes, rfl, rfl, -, hpart, rfl⟩ |
    ⟨-, -, -, -, rfl⟩
  · exact Or.inl (hsame.file k)
  · exact Or.inl rfl
  · rcases hcreated with ⟨time, ⟨hinode, rfl⟩ | ⟨rfl, rfl⟩⟩
    · by_cases hne : k = new
      · subst hne
        exact Or.inr (Or.inl (Or.inl hinode))
      · exact Or.inl (hfill hne)
    · exact Or.inl (by rw [Disk.file_add_old hk])
  · by_cases hne : k = file
    · subst hne
      exact Or.inr (Or.inl (Or.inr (Phase.mem_holds hfile oid)))
    · exact Or.inl (hfill hne)
  · rcases hcreated with ⟨time, ⟨hinode, rfl⟩ | ⟨rfl, rfl⟩⟩
    · by_cases hne : k = beside
      · subst hne
        refine Or.inr (Or.inr ⟨Or.inl hinode, [], ?_, Or.inl rfl⟩)
        rw [Disk.file_fill_self hk]
        rfl
      · exact Or.inl (hfill hne)
    · exact Or.inl (by rw [Disk.file_add_old hk])
  · by_cases hne : k = beside
    · subst hne
      refine Or.inr (Or.inr ⟨Or.inr (List.mem_cons_of_mem _ List.mem_cons_self), bytes, ?_,
        Or.inr ⟨_, hpart, rfl⟩⟩)
      rw [Disk.file_fill_self hk]
      rfl
    · exact Or.inl (hfill hne)
  · exact Or.inl (by rw [Disk.file_rename])

end

omit [DecidableEq ι] in
/-- A fill puts its object in place in one way. -/
theorem Allowed.placed {p : Phase} {oid : Oid} (h : Allowed cache oid p r)
    (hplaced : next cache p r answer = .placed) :
    p = .placed ∨ (∃ file taken, p = .noted file taken) ∧
      (⟨i, r, answer⟩ : Event ι Req Resp) =
        ⟨i, .disk (.rename (incoming oid) (object oid)), .ok ()⟩ := by
  cases h with
  | calm hr =>
      rw [next_calm hr] at hplaced
      exact Or.inl hplaced
  | remove => cases p <;> first | exact Or.inl rfl | cases hplaced
  | «open» => cases answer <;> cases hplaced
  | trust => cases answer <;> cases hplaced
  | check => cases answer <;> cases hplaced
  | openDigest => cases answer <;> cases hplaced
  | readDigest =>
      match answer with
      | .error _ => cases hplaced
      | .ok bytes =>
          rw [next] at hplaced
          cases hdecode : utf8Decode bytes with
          | none =>
              rw [hdecode] at hplaced
              cases hplaced
          | some recorded =>
              rw [hdecode] at hplaced
              cases hplaced
  | reopen => cases answer <;> cases hplaced
  | readObject =>
      match answer with
      | .error _ => cases hplaced
      | .ok bytes =>
          rw [next] at hplaced
          split at hplaced
          · cases hplaced
          · cases hplaced
  | verify => cases hplaced
  | touch => cases hplaced
  | create => cases answer <;> cases hplaced
  | send => cases answer <;> cases hplaced
  | note => cases answer <;> cases hplaced
  | record => cases answer <;> cases hplaced
  | place =>
      match answer with
      | .ok () => exact Or.inr ⟨⟨_, _, rfl⟩, rfl⟩
      | .error _ => cases hplaced

/-- Who may write a file after a step: those who might before, unless it is new. -/
theorem Kept.held_step {may : Req → Prop} {file : Nat} {path : LocalPath}
    (h : Kept cache calls w) (hallowed : Allowed cache (calls i).oid (phase cache i w.2) r)
    (hexec : Answers may r w.1 answer s')
    (hheld : Held cache calls (⟨i, r, answer⟩ :: w.2) file path) :
    Held cache calls w.2 file path ∨
      (path = incoming (calls i).oid ∨ path = digest (calls i).oid) ∧
        (w.1.disk.inode path = some file ∨ w.1.disk.files.length ≤ file) := by
  rcases held_cons hheld with ⟨j, -, hj⟩ | hi
  · exact Or.inl ⟨j, hj⟩
  have hcreated : ∀ {q f}, Created w.1.disk s'.disk q f →
      w.1.disk.inode q = some f ∨ w.1.disk.files.length ≤ f := by
    rintro q f ⟨time, ⟨hinode, -⟩ | ⟨rfl, -⟩⟩
    · exact Or.inl hinode
    · exact Or.inr (le_refl _)
  rcases h.change hallowed hexec with ⟨hless, -⟩ | ⟨hless, -⟩ | ⟨-, -, hphase, hnew⟩ |
    @⟨own, _, _, hfile, hphase, -⟩ | ⟨hp, hphase, hnew⟩ | ⟨-, -, hless, -, -⟩ | ⟨-, -, hphase, -, -⟩
  · exact Or.inl ⟨i, hless.holds _ _ hi⟩
  · exact Or.inl ⟨i, hless.holds _ _ hi⟩
  · rw [hphase] at hi
    obtain ⟨rfl, rfl⟩ := Prod.mk.inj (List.mem_singleton.mp hi)
    exact Or.inr ⟨Or.inl rfl, hcreated hnew⟩
  · have hone : (file, path) ∈ [(own, incoming (calls i).oid)] := by
      rcases hphase with heq | heq <;> rw [heq] at hi <;> exact hi
    obtain ⟨rfl, rfl⟩ := Prod.mk.inj (List.mem_singleton.mp hone)
    exact Or.inl (held_of_file hfile)
  · rw [hphase] at hi
    rcases List.mem_cons.mp hi with heq | hi
    · obtain ⟨rfl, rfl⟩ := Prod.mk.inj heq
      exact Or.inl (held_of_file (by rw [hp]; rfl))
    · obtain ⟨rfl, rfl⟩ := Prod.mk.inj (List.mem_singleton.mp hi)
      exact Or.inr ⟨Or.inr rfl, hcreated hnew⟩
  · exact Or.inl ⟨i, hless.holds _ _ hi⟩
  · rw [hphase] at hi
    cases hi

/-- **A step** of a run that is claimed. -/
theorem Kept.step {may : Req → Prop} (h : Kept cache calls w)
    (hclaimed : Claimed cache calls (⟨i, r, answer⟩ :: w.2))
    (hallowed : Allowed cache (calls i).oid (phase cache i w.2) r)
    (hexec : Answers may r w.1 answer s') : Kept cache calls (s', ⟨i, r, answer⟩ :: w.2) := by
  rcases h.change hallowed hexec with ⟨hless, hsame⟩ | ⟨hless, hdisk⟩ |
    ⟨hr, hp, hphase, hcreated⟩ | ⟨hfile, hphase, hdisk⟩ | ⟨hp, hphase, hcreated⟩ |
    ⟨-, hp, hless, -, hdisk⟩ | ⟨-, hp, hphase, hk, hdisk⟩
  · refine h.less hless (h.lent.congr hsame.inode hsame.length) ?_ fun _ k _ => hsame.file k
    intro p k hk
    rwa [hsame.inode] at hk
  · refine h.less hless (hdisk ▸ h.lent.unname) ?_ fun _ k _ => by rw [hdisk, Disk.file_unname]
    intro p k hk
    rw [hdisk, Disk.inode_unname] at hk
    split at hk
    · cases hk
    · exact hk
  · exact h.began rfl (hclaimed.2 hr) hphase hcreated
  · exact h.sent hfile hphase hdisk
  · exact h.noting rfl hp hphase hcreated
  · exact h.recorded hp hless hdisk
  · rename_i file k taken
    have hfile : (phase cache i w.2).file? = some file := by rw [hp]; rfl
    obtain rfl := h.staged i file k hfile hk
    exact h.placed hp hphase hk hdisk

end

end Cache

end Lfsx.Storage
