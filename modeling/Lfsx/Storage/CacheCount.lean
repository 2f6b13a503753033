import Lfsx.Storage.CacheDirectory

/-!
# The bytes a cache counts

The counter of the cache moves when a fill puts an object in place and when eviction removes one.
It does not move when a fill replaces an entry, and not when an entry that fails its check is
discarded.  So what it is ahead of the directory is the bytes that went in these two ways
(`Turn.slip`), and it is exact as long as there are none (`counter_exact_iff`).
-/

namespace Lfsx.Storage

open Request Files

namespace Cache

section

variable {may : Req → Prop} {s s' : Shared} {n : Nat}

/-! ## The counter and the directory -/

/-- The cached objects and the counter are the same, in an ordinary directory. -/
structure Beside (s s' : Shared) : Prop where
  ordinary : Ordinary s'.disk
  held : ∀ path, counts path = true → s'.disk.lengthAt path = s.disk.lengthAt path
  counter : s'.memory.bytes = s.memory.bytes

theorem Same.beside (h : Same s s') (hordinary : Ordinary s.disk) : Beside s s' :=
  ⟨hordinary.congr h.disk.inode, fun path _ => h.disk.lengthAt path, h.counter⟩

theorem Beside.trans {s'' : Shared} (h : Beside s s') (h' : Beside s' s'') : Beside s s'' :=
  ⟨h'.ordinary, fun path hpath => (h'.held path hpath).trans (h.held path hpath),
    h'.counter.trans h.counter⟩

/-- A file goes that is not counted. -/
theorem Beside.unname {path : LocalPath} (h : Ordinary s.disk) (hpath : counts path = false)
    (hdisk : s'.disk = s.disk.unname path) (hmemory : s'.memory = s.memory) : Beside s s' := by
  refine ⟨hdisk ▸ h.unname, fun p hp => ?_, by rw [hmemory]⟩
  rw [hdisk]
  exact lengthAt_unname (counted_ne hpath hp).symm

/-- A file comes that is not counted. -/
theorem Beside.add {name : Text} {time : Nat} (h : Ordinary s.disk) (hpath : counts [name] = false)
    (hdisk : s'.disk = s.disk.add [name] time) (hmemory : s'.memory = s.memory) : Beside s s' := by
  refine ⟨hdisk ▸ h.add name, fun p hp => ?_, by rw [hmemory]⟩
  rw [hdisk]
  exact lengthAt_add (counted_ne hpath hp).symm

/-- The bytes of a file that is not counted. -/
theorem Beside.fill {path : LocalPath} {i time : Nat} {bytes : Files.Bytes} (h : Ordinary s.disk)
    (hpath : counts path = false) (hi : s.disk.inode path = some i)
    (hdisk : s'.disk = s.disk.fill i bytes time) (hmemory : s'.memory = s.memory) :
    Beside s s' := by
  refine ⟨h.congr fun p => by rw [hdisk, Disk.inode_fill], fun p hp => ?_, by rw [hmemory]⟩
  rw [hdisk]
  refine lengthAt_fill fun hp' => ?_
  rw [h.single p path i hp' hi, hpath] at hp
  cases hp

/-- The counter is `n` bytes ahead of an ordinary directory. -/
structure Ahead (n : Nat) (s : Shared) : Prop where
  ordinary : Ordinary s.disk
  bytes : s.memory.bytes = cachedBytes s.disk + n

theorem Ahead.beside (h : Ahead n s) (hbeside : Beside s s') : Ahead n s' := by
  refine ⟨hbeside.ordinary, ?_⟩
  rw [hbeside.counter, h.bytes, cachedBytes_congr hbeside.held]

theorem Ahead.same (h : Ahead n s) (hsame : Same s s') : Ahead n s' :=
  h.beside (hsame.beside h.ordinary)

theorem Ahead.unname {path : LocalPath} (h : Ahead n s) (hpath : counts path = false)
    (hdisk : s'.disk = s.disk.unname path) (hmemory : s'.memory = s.memory) : Ahead n s' :=
  h.beside (.unname h.ordinary hpath hdisk hmemory)

/-- A cached object goes, and the counter stays. -/
theorem Ahead.lost {path : LocalPath} (h : Ahead n s) (hpath : counts path = true)
    (hdisk : s'.disk = s.disk.unname path) (hmemory : s'.memory = s.memory) :
    Ahead (n + s.disk.lengthAt path) s' := by
  refine ⟨hdisk ▸ h.ordinary.unname, ?_⟩
  have hupdate := cachedBytes_update s.disk (s.disk.unname path) hpath
    fun p hp _ => lengthAt_unname hp
  rw [lengthAt_unname_self] at hupdate
  rw [hmemory, h.bytes, hdisk]
  omega

/-- An object is put in place, and its bytes are added to the counter. -/
theorem Ahead.rename {oid : Oid} {i : Nat} (h : Ahead n s)
    (hi : s.disk.inode (incoming oid) = some i)
    (hdisk : s'.disk = s.disk.rename (incoming oid) (object oid))
    (hmemory : s'.memory = remembered (.grow (s.disk.lengthOf i)) s.memory) :
    Ahead (n + s.disk.lengthAt (object oid)) s' := by
  have hpath : incoming oid ≠ object oid := counted_ne (counts_incoming oid) (counts_object oid)
  have hne : s.disk.inode (incoming oid) ≠ s.disk.inode (object oid) := by
    intro heq
    exact hpath (h.ordinary.single _ _ i hi (heq ▸ hi))
  refine ⟨hdisk ▸ h.ordinary.rename oid.text hi hne, ?_⟩
  have hupdate := cachedBytes_update s.disk (s.disk.rename (incoming oid) (object oid))
    (counts_object oid) fun p hp hcounts =>
      lengthAt_rename_other hi hne (counted_ne (counts_incoming oid) hcounts).symm hp
  rw [lengthAt_rename_target hi hne, Disk.lengthAt_of_inode hi] at hupdate
  have hbytes := h.bytes
  rw [hmemory, hdisk, remembered]
  dsimp only
  omega

/-- The bytes that went are taken off the counter. -/
theorem Ahead.shrink {size : Nat} (h : Ahead (n + size) s) (hdisk : s'.disk = s.disk)
    (hmemory : s'.memory = remembered (.shrink size) s.memory) : Ahead n s' := by
  refine ⟨hdisk ▸ h.ordinary, ?_⟩
  have hbytes := h.bytes
  rw [hmemory, hdisk, remembered]
  dsimp only
  omega

end

/-! ## Serving -/

/-- What `open` asks: of the directory, at most that the two files of the entry go. -/
def Serves (oid : Oid) (r : Req) : Prop :=
  r.Still ∨ r = .disk (.unlink (object oid)) ∨ r = .disk (.unlink (digest oid))

section

variable {cache : Cache} {oid : Oid}

/-- What both readers of `intact` do. -/
def reading {α : Type} (path : LocalPath) (f : Bytes → Option α) : Op (Option α) := do
  match ← (call (.openFile path) (resp_openFile path) : Io Nat).caught with
  | .error _ => return none
  | .ok file => do
      match ← (call (.readAll file) (resp_readAll file) : Io Bytes).caught with
      | .error _ => return none
      | .ok bytes => return f bytes

theorem readToString_eq (path : LocalPath) : readToString path = reading path utf8Decode := rfl

theorem readBytes_eq (path : LocalPath) : readBytes path = reading path some := rfl

theorem still_serves {r : Req} (h : r.Still) : Serves oid r := Or.inl h

theorem reading_only {α : Type} {path : LocalPath} {f : Bytes → Option α} {p : Req → Prop}
    {A : (r : Req) → Resp r → Prop} (hp : ∀ r : Req, r.Still → p r) :
    (reading path f).Only p A fun _ => True := by
  refine Fallible.Only.caught (hp _ trivial) fun answer _ => ?_
  cases answer with
  | error e => exact Fallible.Only.pure trivial
  | ok file =>
      refine Fallible.Only.caught (hp _ trivial) fun answer _ => ?_
      cases answer with
      | error e => exact Fallible.Only.pure trivial
      | ok bytes => exact Fallible.Only.pure trivial

theorem intact_only {p : Req → Prop} {A : (r : Req) → Resp r → Prop}
    (hp : ∀ r : Req, r.Still → p r) : (cache.intact oid).Only p A fun _ => True := by
  refine Fallible.Only.bind (readToString_eq _ ▸ reading_only hp) fun recorded _ => ?_
  cases recorded with
  | none => exact Fallible.Only.pure trivial
  | some recorded =>
      refine Fallible.Only.bind (readBytes_eq _ ▸ reading_only hp) fun bytes _ => ?_
      cases bytes with
      | none => exact Fallible.Only.pure trivial
      | some bytes => exact Fallible.Only.pure trivial

theorem touch_only {p : Req → Prop} {A : (r : Req) → Resp r → Prop}
    (hp : ∀ r : Req, r.Still → p r) : (touch oid).Only p A fun _ => True := by
  refine Fallible.Only.caught (hp _ trivial) fun answer _ => ?_
  cases answer with
  | error e => exact Fallible.Only.pure trivial
  | ok file => exact Fallible.Only.caught (hp _ trivial) fun _ _ => Fallible.Only.pure trivial

theorem served_only {file : Nat} {p : Req → Prop} {A : (r : Req) → Resp r → Prop}
    (hp : ∀ r : Req, r.Still → p r) : (served oid file).Only p A fun _ => True := by
  refine Fallible.Only.bind (touch_only hp) fun _ _ => ?_
  exact Fallible.Only.certain (hp _ trivial) fun _ _ => Fallible.Only.pure trivial

theorem missed_only {p : Req → Prop} {A : (r : Req) → Resp r → Prop}
    (hp : ∀ r : Req, r.Still → p r) : missed.Only p A fun _ => True :=
  Fallible.Only.certain (hp _ trivial) fun _ _ => Fallible.Only.pure trivial

theorem discard_only {A : (r : Req) → Resp r → Prop} :
    (discard oid).Only (Serves oid) A fun _ => True := by
  refine Fallible.Only.caught (Or.inr (Or.inl rfl)) fun _ _ => ?_
  exact Fallible.Only.caught (Or.inr (Or.inr rfl)) fun _ _ => Fallible.Only.pure trivial

theorem open_only {A : (r : Req) → Resp r → Prop} :
    (cache.open oid).Only (Serves oid) A fun _ => True := by
  have hstill : ∀ r : Req, r.Still → Serves oid r := fun _ => still_serves
  refine Fallible.Only.caught (hstill _ trivial) fun answer _ => ?_
  cases answer with
  | error e => exact missed_only hstill
  | ok file =>
      refine Fallible.Only.certain (hstill _ trivial) fun verified _ => ?_
      split
      · exact served_only hstill
      · refine Fallible.Only.certain (hstill _ trivial) fun first _ => ?_
        split
        · refine Fallible.Only.bind (intact_only hstill) fun intact _ => ?_
          refine Fallible.Only.certain (hstill _ trivial) fun _ _ => ?_
          split
          · exact Fallible.Only.certain (hstill _ trivial) fun _ _ => served_only hstill
          · exact Fallible.Only.bind discard_only fun _ _ => missed_only hstill
        · exact missed_only hstill

/-- While an entry of `size` bytes is opened, the counter is that much further ahead if the
object is gone. -/
def Opening (oid : Oid) (n size : Nat) (s : Shared) : Prop :=
  s.disk.inode (object oid) = none ∧ Ahead (n + size) s ∨
    s.disk.inode (object oid) ≠ none ∧ s.disk.lengthAt (object oid) = size ∧ Ahead n s

theorem opening_step {may : Req → Prop} {n size : Nat} {r : Req} {s s' : Shared}
    {answer : Resp r} (hr : Serves oid r) (hexec : Answers may r s answer s')
    (h : Opening oid n size s) : Opening oid n size s' := by
  rcases hr with hr | rfl | rfl
  · have hsame := still_same hr hexec
    rcases h with ⟨hnone, h⟩ | ⟨hsome, hlength, h⟩
    · exact Or.inl ⟨(hsame.disk.inode _).trans hnone, h.same hsame⟩
    · exact Or.inr ⟨by rwa [hsame.disk.inode], (hsame.disk.lengthAt _).trans hlength, h.same hsame⟩
  · obtain ⟨hfaulty, hmemory⟩ := hexec
    rcases hfaulty.unlink with ⟨i, hi, -, hdisk⟩ | ⟨-, -, hdisk⟩ | ⟨-, -, hdisk⟩
    · rcases h with ⟨hnone, -⟩ | ⟨-, rfl, h⟩
      · rw [hnone] at hi
        cases hi
      · refine Or.inl ⟨?_, h.lost (counts_object oid) hdisk hmemory⟩
        rw [hdisk, Disk.inode_unname, if_pos rfl]
    · exact Shared.eq hdisk hmemory ▸ h
    · exact Shared.eq hdisk hmemory ▸ h
  · obtain ⟨hfaulty, hmemory⟩ := hexec
    have hne : object oid ≠ digest oid := (counted_ne (counts_digest oid) (counts_object oid)).symm
    rcases hfaulty.unlink with ⟨i, hi, -, hdisk⟩ | ⟨-, -, hdisk⟩ | ⟨-, -, hdisk⟩
    · rcases h with ⟨hnone, h⟩ | ⟨hsome, hlength, h⟩
      · refine Or.inl ⟨?_, h.unname (counts_digest oid) hdisk hmemory⟩
        rw [hdisk, Disk.inode_unname, if_neg hne, hnone]
      · refine Or.inr ⟨?_, ?_, h.unname (counts_digest oid) hdisk hmemory⟩
        · rwa [hdisk, Disk.inode_unname, if_neg hne]
        · rw [hdisk, lengthAt_unname hne, hlength]
    · exact Shared.eq hdisk hmemory ▸ h
    · exact Shared.eq hdisk hmemory ▸ h

end

/-! ## Eviction -/

section

variable {may : Req → Prop} {cache : Cache} {n : Nat} {s : Shared}

/-- No condition on the steps of an operation alone. -/
abbrev Any (_ _ : Shared) : Prop := True

/-- What eviction knows of an entry is so, unless it is gone. -/
def Found.Fair (s : Shared) (entry : Found) : Prop :=
  counts entry.path = true ∧
    (s.disk.inode entry.path ≠ none → s.disk.lengthAt entry.path = entry.size)

theorem Found.Fair.same {s' : Shared} {entry : Found} (h : entry.Fair s) (hsame : Same s s') :
    entry.Fair s' := by
  refine ⟨h.1, fun hne => ?_⟩
  rw [hsame.disk.inode] at hne
  rw [hsame.disk.lengthAt, h.2 hne]

theorem Found.Fair.unname {s' : Shared} {entry : Found} {path : LocalPath} (h : entry.Fair s)
    (hdisk : s'.disk = s.disk.unname path) : entry.Fair s' := by
  refine ⟨h.1, fun hne => ?_⟩
  rw [hdisk, Disk.inode_unname] at hne
  by_cases hpath : entry.path = path
  · rw [if_pos hpath] at hne
    exact absurd rfl hne
  · rw [if_neg hpath] at hne
    rw [hdisk, lengthAt_unname hpath, h.2 hne]

theorem survey_ending (listing : List LocalPath) {found : List Found}
    (hfound : ∀ entry ∈ found, entry.Fair s) :
    (survey listing found).Ending (Answers may) Any
      (fun answer s' => s' = s ∧ ∃ entries, answer = .ok entries ∧ ∀ entry ∈ entries, entry.Fair s)
      s := by
  induction listing generalizing found with
  | nil => exact Fallible.Ending.pure ⟨rfl, found, rfl, hfound⟩
  | cons path rest ih =>
      rw [survey]
      by_cases hskip : skip (fileName path) = true
      · rw [if_pos hskip]
        exact ih hfound
      · rw [if_neg hskip]
        have hcounts : counts path = true := by
          rw [counts, Bool.eq_false_iff.mpr hskip]
          rfl
        refine Fallible.Ending.caught fun answer s₁ hexec => ⟨trivial, ?_⟩
        obtain ⟨hsame, hcases⟩ := hexec.1.metadata
        obtain rfl : s₁ = s := Shared.eq hsame hexec.2
        rcases hcases with ⟨i, f, hi, hf, rfl⟩ | ⟨-, rfl⟩ | ⟨-, rfl⟩
        · refine Fallible.Ending.caught fun beside s₂ hexec => ⟨trivial, ?_⟩
          obtain rfl : s₂ = s₁ := Shared.eq hexec.1.metadata.1 hexec.2
          refine ih fun entry hentry => ?_
          rcases List.mem_append.mp hentry with hentry | hentry
          · exact hfound entry hentry
          · obtain rfl := List.mem_singleton.mp hentry
            refine ⟨hcounts, fun _ => ?_⟩
            rw [Disk.lengthAt_of_inode hi, Disk.lengthOf_of_file hf]
        · exact ih hfound
        · exact ih hfound

theorem removeOldest_ending (total : Nat) (found : List Found) (h : Ahead n s)
    (hfound : ∀ entry ∈ found, entry.Fair s) :
    (cache.removeOldest total found).Ending (Answers may) Any
      (fun answer s' => answer = .ok () ∧ Ahead n s') s := by
  induction found generalizing total s with
  | nil => exact Fallible.Ending.pure ⟨rfl, h⟩
  | cons entry rest ih =>
      obtain ⟨hentry, hrest⟩ := List.forall_mem_cons.mp hfound
      rw [removeOldest]
      by_cases hceiling : total ≤ cache.ceiling
      · rw [if_pos hceiling]
        exact Fallible.Ending.pure ⟨rfl, h⟩
      rw [if_neg hceiling]
      refine Fallible.Ending.caught fun answer s₁ hexec => ⟨trivial, ?_⟩
      obtain ⟨hfaulty, hmemory⟩ := hexec
      rcases hfaulty.unlink with ⟨i, hi, rfl, hdisk⟩ | ⟨-, rfl, hdisk⟩ | ⟨-, rfl, hdisk⟩
      · -- the object is gone: the counter is ahead by it until it is taken off
        have hsize : s.disk.lengthAt entry.path = entry.size := hentry.2 (by rw [hi]; rintro ⟨⟩)
        have h₁ : Ahead (n + entry.size) s₁ := hsize ▸ h.lost hentry.1 hdisk hmemory
        have hfair₁ : ∀ e ∈ rest, e.Fair s₁ := fun e he => (hrest e he).unname hdisk
        refine Fallible.Ending.caught fun answer s₂ hexec => ⟨trivial, ?_⟩
        have hbeside : counts [sidecar entry.name] = false := by
          rw [counts, fileName, List.getLast?_singleton, Option.getD_some, skip_sidecar]
          rfl
        have h₂ : Ahead (n + entry.size) s₂ ∧ ∀ e ∈ rest, e.Fair s₂ := by
          rcases hexec.1.unlink with ⟨j, -, -, hdisk⟩ | ⟨-, -, hdisk⟩ | ⟨-, -, hdisk⟩
          · exact ⟨h₁.unname hbeside hdisk hexec.2, fun e he => (hfair₁ e he).unname hdisk⟩
          · exact Shared.eq hdisk hexec.2 ▸ ⟨h₁, hfair₁⟩
          · exact Shared.eq hdisk hexec.2 ▸ ⟨h₁, hfair₁⟩
        refine Fallible.Ending.certain fun _ s₃ hexec => ⟨trivial, ?_⟩
        have h₃ : Ahead n s₃ := h₂.1.shrink hexec.1 hexec.2
        have hfair₃ : ∀ e ∈ rest, e.Fair s₃ := by
          intro e he
          rw [Found.Fair, hexec.1]
          exact h₂.2 e he
        refine Fallible.Ending.certain fun _ s₄ hexec => ⟨trivial, ?_⟩
        have hsame : Same s₃ s₄ := still_same (r := .unverify entry.name) trivial hexec
        exact ih _ (h₃.same hsame) fun e he => (hfair₃ e he).same hsame
      · exact ih _ (Shared.eq hdisk hmemory ▸ h) (Shared.eq hdisk hmemory ▸ hrest)
      · exact ih _ (Shared.eq hdisk hmemory ▸ h) (Shared.eq hdisk hmemory ▸ hrest)

theorem evict_ending (h : Ahead n s) :
    cache.evict.Ending (Answers may) Any (fun answer s' => answer = .ok () ∧ Ahead n s') s := by
  refine Fallible.Ending.caught fun answer s₁ hexec => ⟨trivial, ?_⟩
  have hsame : Same s s₁ := still_same (r := .disk (.readDir [])) trivial hexec
  have h₁ : Ahead n s₁ := h.same hsame
  match answer with
  | .error _ => exact Fallible.Ending.pure ⟨rfl, h₁⟩
  | .ok (listing, whole) =>
      refine Fallible.Ending.bind (Program.Under.mono (survey_ending listing ?_) ?_)
      · intro entry hentry
        cases hentry
      · rintro _ s₂ ⟨rfl, found, rfl, hfair⟩
        dsimp only
        split
        · exact Fallible.Ending.pure ⟨rfl, h₁⟩
        · refine removeOldest_ending _ _ h₁ fun entry hentry => hfair entry ?_
          exact (List.mem_insertionSort _).mp hentry

end

/-! ## Filling -/

/-- The path names the open file, which has these bytes. -/
def Holds (s : Shared) (path : LocalPath) (file : Nat) (bytes : Bytes) : Prop :=
  s.disk.inode path = some file ∧ (s.disk.file file).map File.bytes = some bytes

section

variable {may : Req → Prop} {cache : Cache} {oid : Oid} {n : Nat} {s s' : Shared}

theorem Holds.fill {path path' : LocalPath} {file i time : Nat} {bytes bytes' : Bytes}
    (h : Holds s path file bytes) (hordinary : Ordinary s.disk)
    (hi : s.disk.inode path' = some i) (hne : path ≠ path')
    (hdisk : s'.disk = s.disk.fill i bytes' time) : Holds s' path file bytes := by
  have hfile : file ≠ i := by
    rintro rfl
    exact hne (hordinary.single path path' file h.1 hi)
  rw [Holds, hdisk]
  exact ⟨h.1, by rw [Disk.file_fill_ne hfile, h.2]⟩

theorem Holds.add {path path' : LocalPath} {file time : Nat} {bytes : Bytes}
    (h : Holds s path file bytes) (hne : path ≠ path')
    (hdisk : s'.disk = s.disk.add path' time) : Holds s' path file bytes := by
  rw [Holds, hdisk]
  exact ⟨by rw [Disk.inode_add, if_neg hne, h.1],
    by rw [Disk.file_add_old (Disk.inode_lt h.1), h.2]⟩

/-- A file that is not counted is created, or what it had is cut off. -/
theorem create_beside {name : Text} {answer : Except Refused Nat} (h : Ordinary s.disk)
    (hname : counts [name] = false) (hexec : Answers may (.disk (.create [name])) s answer s') :
    Beside s s' ∧ (∀ file, answer = .ok file → Holds s' [name] file []) ∧
      ∀ path file bytes, path ≠ [name] → Holds s path file bytes → Holds s' path file bytes := by
  obtain ⟨hfaulty, hmemory⟩ := hexec
  rcases hfaulty.create with ⟨i, time, hi, rfl, -, hdisk⟩ |
    ⟨time, -, rfl, -, hdisk⟩ | ⟨-, rfl, hdisk⟩
  · refine ⟨.fill h hname hi hdisk hmemory, ?_, fun path file bytes hne hholds => ?_⟩
    · rintro _ ⟨⟩
      rw [Holds, hdisk]
      exact ⟨hi, by rw [Disk.file_fill_self (Disk.inode_lt hi)]; rfl⟩
    · exact hholds.fill h hi hne hdisk
  · refine ⟨.add h hname hdisk hmemory, ?_, fun path file bytes hne hholds => ?_⟩
    · rintro _ ⟨⟩
      rw [Holds, hdisk]
      exact ⟨by rw [Disk.inode_add, if_pos rfl], by rw [Disk.file_add_new]; rfl⟩
    · exact hholds.add hne hdisk
  · obtain rfl := Shared.eq hdisk hmemory
    refine ⟨⟨h, fun _ _ => rfl, rfl⟩, ?_, fun path file bytes _ hholds => hholds⟩
    rintro _ ⟨⟩

/-- A write at the end of a file that is not counted. -/
theorem writeAt_beside {path : LocalPath} {file : Nat} {taken chunk : Bytes}
    {answer : Except Refused Unit} (h : Ordinary s.disk) (hpath : counts path = false)
    (hholds : Holds s path file taken)
    (hexec : Answers may (.writeAt file taken.length chunk) s answer s') :
    Beside s s' ∧ (answer = .ok () → Holds s' path file (taken ++ chunk)) := by
  obtain ⟨hi, hbytes⟩ := hholds
  obtain ⟨hmemory, time, -, ⟨rfl, hdisk⟩ | ⟨-, rfl, short, -, hdisk⟩⟩ := hexec
  · rw [wroteAt_end hbytes] at hdisk
    refine ⟨.fill h hpath hi hdisk hmemory, fun _ => ?_⟩
    rw [Holds, hdisk]
    exact ⟨hi, by rw [Disk.file_fill_self (Disk.inode_lt hi)]; rfl⟩
  · rw [wroteAt_end hbytes] at hdisk
    refine ⟨.fill h hpath hi hdisk hmemory, ?_⟩
    rintro ⟨⟩

/-- All the bytes of a file that is not counted. -/
theorem write_beside {path path' : LocalPath} {file file' : Nat} {bytes bytes' taken : Bytes}
    {answer : Except Refused Unit} (h : Ordinary s.disk) (hpath : counts path = false)
    (hholds : Holds s path file bytes') (hne : path' ≠ path) (hholds' : Holds s path' file' taken)
    (hexec : Answers may (.disk (.write file bytes)) s answer s') :
    Beside s s' ∧ Holds s' path' file' taken := by
  obtain ⟨hfaulty, hmemory⟩ := hexec
  rcases hfaulty.write with ⟨-, time, -, hdisk⟩ | ⟨-, -, short, time, -, -, hdisk⟩
  · exact ⟨.fill h hpath hholds.1 hdisk hmemory, hholds'.fill h hholds.1 hne hdisk⟩
  · exact ⟨.fill h hpath hholds.1 hdisk hmemory, hholds'.fill h hholds.1 hne hdisk⟩

theorem receive_ending (oid : Oid) {file : Nat} (chunks : List (Except Error Bytes)) {taken : Bytes}
    (h : Ordinary s.disk) (hholds : Holds s (incoming oid) file taken) :
    (receive file chunks taken).Ending (Answers may) Any
      (fun answer s' => Beside s s' ∧
        ∀ bytes, answer = .ok bytes → Holds s' (incoming oid) file bytes) s := by
  induction chunks generalizing taken s with
  | nil =>
      refine Fallible.Ending.pure ⟨⟨h, fun _ _ => rfl, rfl⟩, ?_⟩
      rintro _ ⟨⟩
      exact hholds
  | cons chunk rest ih =>
      cases chunk with
      | error e =>
          refine Fallible.Ending.throw ⟨⟨h, fun _ _ => rfl, rfl⟩, ?_⟩
          rintro _ ⟨⟩
      | ok chunk =>
          refine Fallible.Ending.mapped fun answer s₁ hexec => ⟨trivial, ?_⟩
          obtain ⟨hbeside, hok⟩ := writeAt_beside h (counts_incoming oid) hholds hexec
          match answer with
          | .error e =>
              refine ⟨hbeside, ?_⟩
              rintro _ ⟨⟩
          | .ok () =>
              refine Program.Under.mono (ih hbeside.ordinary (hok rfl)) ?_
              rintro answer s₂ ⟨hrest, hholds⟩
              exact ⟨hbeside.trans hrest, hholds⟩

/-- The file of a fill was put in place, and nothing else of a cached object was touched. -/
structure Staged (oid : Oid) (s s' : Shared) (file : Nat) (before : Shared) : Prop where
  beside : Beside s before
  there : before.disk.inode (incoming oid) = some file
  disk : s'.disk = before.disk.rename (incoming oid) (object oid)
  memory : s'.memory = remembered (.grow (before.disk.lengthOf file)) before.memory

theorem Staged.ahead {file : Nat} {before : Shared} (h : Staged oid s s' file before)
    (hahead : Ahead n s) : Ahead (n + s.disk.lengthAt (object oid)) s' := by
  rw [← h.beside.held _ (counts_object oid)]
  exact (hahead.beside h.beside).rename h.there h.disk h.memory

theorem Staged.ordinary {file : Nat} {before : Shared} (h : Staged oid s s' file before) :
    Ordinary s'.disk := by
  have hpath : incoming oid ≠ object oid := counted_ne (counts_incoming oid) (counts_object oid)
  have hne : before.disk.inode (incoming oid) ≠ before.disk.inode (object oid) := by
    intro heq
    exact hpath (h.beside.ordinary.single _ _ file h.there (heq ▸ h.there))
  exact h.disk ▸ h.beside.ordinary.rename oid.text h.there hne

/-- What `stage` does. -/
theorem stage_staged (size : Nat) (chunks : List (Except Error Bytes)) (h : Ordinary s.disk) :
    (cache.stage oid size chunks).Ending (Answers may) Any
      (fun answer s' => match answer with
        | .ok () => ∃ file before, Staged oid s s' file before
        | .error _ => Beside s s') s := by
  refine Fallible.Ending.mapped fun answer s₁ hexec => ⟨trivial, ?_⟩
  obtain ⟨hbeside₁, hholds, -⟩ := create_beside h (counts_incoming oid) hexec
  match answer with
  | .error e => exact hbeside₁
  | .ok file =>
      refine Fallible.Ending.bind (Program.Under.mono
        (receive_ending oid chunks hbeside₁.ordinary (hholds file rfl)) ?_)
      rintro answer s₂ ⟨hbeside, hholds⟩
      have hbeside₂ : Beside s s₂ := hbeside₁.trans hbeside
      match answer with
      | .error e => exact hbeside₂
      | .ok taken =>
          dsimp only
          by_cases hsize : taken.length ≠ size
          · rw [if_pos hsize]
            exact Fallible.Ending.throw hbeside₂
          rw [if_neg hsize]
          obtain rfl := not_ne_iff.mp hsize
          have hpath : incoming oid ≠ digest oid := incoming_ne_digest oid oid
          refine Fallible.Ending.mapped fun answer s₃ hexec => ⟨trivial, ?_⟩
          obtain ⟨hbeside, hdigest, hkept⟩ :=
            create_beside hbeside₂.ordinary (counts_digest oid) hexec
          have hbeside₃ : Beside s s₃ := hbeside₂.trans hbeside
          have hholds₃ := hkept _ _ _ hpath (hholds taken rfl)
          match answer with
          | .error e => exact hbeside₃
          | .ok beside =>
              refine Fallible.Ending.mapped fun answer s₄ hexec => ⟨trivial, ?_⟩
              obtain ⟨hbeside, hholds₄⟩ := write_beside hbeside₃.ordinary (counts_digest oid)
                (hdigest beside rfl) hpath hholds₃ hexec
              have hbeside₄ : Beside s s₄ := hbeside₃.trans hbeside
              match answer with
              | .error e => exact hbeside₄
              | .ok () =>
                  refine Fallible.Ending.mapped fun answer s₅ hexec => ⟨trivial, ?_⟩
                  obtain ⟨hfaulty, hmemory⟩ := hexec
                  rcases hfaulty.rename with ⟨i, hi, rfl, hdisk⟩ | ⟨e, rfl, hdisk, -⟩
                  · refine Fallible.Ending.issue fun _ s₆ hexec => ⟨trivial, ?_⟩
                    obtain rfl : file = i := Option.some.inj (hholds₄.1.symm.trans hi)
                    obtain ⟨f, hf, rfl⟩ := Option.map_eq_some_iff.mp hholds₄.2
                    refine ⟨file, s₄, hbeside₄, hi, hexec.1.trans hdisk, ?_⟩
                    rw [hexec.2, hmemory, Disk.lengthOf_of_file hf]
                  · exact Shared.eq hdisk hmemory ▸ hbeside₄

/-- The counter after `stage`: an entry that is replaced stays in it. -/
theorem stage_ending (size : Nat) (chunks : List (Except Error Bytes)) (h : Ahead n s) :
    (cache.stage oid size chunks).Ending (Answers may) Any
      (fun answer s' => match answer with
        | .ok () => Ahead (n + s.disk.lengthAt (object oid)) s'
        | .error _ => Ahead n s') s := by
  refine Program.Under.mono (stage_staged size chunks h.ordinary) fun answer s' hstaged => ?_
  match answer with
  | .ok () =>
      obtain ⟨file, before, hstaged⟩ := hstaged
      exact hstaged.ahead h
  | .error e => exact h.beside hstaged

/-- The counter after `fill`. -/
theorem fill_ending (size : Nat) (chunks : List (Except Error Bytes)) (h : Ahead n s) :
    (cache.fill oid size chunks).Ending (Answers may) Any
      (fun answer s' => match answer with
        | .ok () => Ahead (n + s.disk.lengthAt (object oid)) s'
        | .error _ => Ahead n s') s := by
  refine Fallible.Ending.attempt (Program.Under.mono (stage_ending size chunks h) ?_)
  intro answer s₁ hstaged
  match answer with
  | .ok () =>
      refine Program.Under.mono (evict_ending hstaged) ?_
      rintro _ s₂ ⟨rfl, h₂⟩
      exact h₂
  | .error e =>
      refine Fallible.Ending.caught fun _ s₂ hexec => ⟨trivial, ?_⟩
      obtain ⟨hfaulty, hmemory⟩ := hexec
      have h₂ : Ahead n s₂ := by
        rcases hfaulty.unlink with ⟨i, -, -, hdisk⟩ | ⟨-, -, hdisk⟩ | ⟨-, -, hdisk⟩
        · exact Ahead.unname hstaged (counts_incoming oid) hdisk hmemory
        · exact Shared.eq hdisk hmemory ▸ hstaged
        · exact Shared.eq hdisk hmemory ▸ hstaged
      exact Fallible.Ending.throw h₂

end

/-! ## Starting -/

/-- What a start may be refused: not the calls that find out what there is. -/
def unlisted : Req → Prop
  | .disk (.readDir _) => False
  | .disk (.metadata _) => False
  | _ => True

section

variable {s : Shared}

theorem removeIncoming_ending (listing : List LocalPath) (h : Ordinary s.disk) :
    (removeIncoming listing).Ending (Answers unlisted) Any
      (fun answer s' => answer = .ok () ∧ Ordinary s'.disk) s := by
  induction listing generalizing s with
  | nil => exact Fallible.Ending.pure ⟨rfl, h⟩
  | cons path rest ih =>
      rw [removeIncoming]
      split
      · refine Fallible.Ending.caught fun _ s₁ hexec => ⟨trivial, ih ?_⟩
        rcases hexec.1.unlink with ⟨i, -, -, hdisk⟩ | ⟨-, -, hdisk⟩ | ⟨-, -, hdisk⟩
        · exact hdisk ▸ h.unname
        · exact hdisk ▸ h
        · exact hdisk ▸ h
      · exact ih h

theorem measure_ending (listing : List LocalPath) (held : Nat) :
    (measure listing held).Ending (Answers unlisted) Any
      (fun answer s' => s' = s ∧
        answer = .ok (held + ((listing.filter counts).map s.disk.lengthAt).sum)) s := by
  induction listing generalizing held with
  | nil => exact Fallible.Ending.pure ⟨rfl, rfl⟩
  | cons path rest ih =>
      rw [measure]
      by_cases hskip : skip (fileName path) = true
      · rw [if_pos hskip, List.filter_cons_of_neg (by rw [counts, hskip]; simp)]
        exact ih held
      · have hcounts : counts path = true := by
          rw [counts, Bool.eq_false_iff.mpr hskip]
          rfl
        rw [if_neg hskip, List.filter_cons_of_pos hcounts, List.map_cons, List.sum_cons]
        refine Fallible.Ending.caught fun answer s₁ hexec => ⟨trivial, ?_⟩
        obtain ⟨hsame, hcases⟩ := hexec.1.metadata
        obtain rfl : s₁ = s := Shared.eq hsame hexec.2
        rcases hcases with ⟨i, f, hi, hf, rfl⟩ | ⟨hnone, rfl⟩ | ⟨hmay, -⟩
        · rw [Disk.lengthAt_of_inode hi, Disk.lengthOf_of_file hf, ← Nat.add_assoc]
          exact ih _
        · rw [lengthAt_none hnone, Nat.zero_add]
          exact ih held
        · exact hmay.elim

/-- A start counts what it finds. -/
theorem new_ending (h : Ordinary s.disk) :
    new.Ending (Answers unlisted) Any (fun answer s' => ∀ memory, answer = .ok memory →
      Ordinary s'.disk ∧ memory.bytes = cachedBytes s'.disk) s := by
  refine Fallible.Ending.mapped fun answer s₁ hexec => ⟨trivial, ?_⟩
  have h₁ : Ordinary s₁.disk :=
    h.congr (still_same (r := .disk (.createDirAll [])) trivial hexec).disk.inode
  match answer with
  | .error e =>
      rintro _ ⟨⟩
  | .ok () =>
      have hsweep : sweepIncoming.Ending (Answers unlisted) Any
          (fun answer s' => answer = .ok () ∧ Ordinary s'.disk) s₁ := by
        refine Fallible.Ending.caught fun answer s₂ hexec => ⟨trivial, ?_⟩
        have h₂ : Ordinary s₂.disk :=
          h₁.congr (still_same (r := .disk (.readDir [])) trivial hexec).disk.inode
        match answer with
        | .error _ => exact Fallible.Ending.pure ⟨rfl, h₂⟩
        | .ok (listing, whole) => exact removeIncoming_ending listing h₂
      refine Fallible.Ending.bind (Program.Under.mono hsweep ?_)
      rintro _ s₂ ⟨rfl, h₂⟩
      refine Fallible.Ending.caught fun answer s₃ hexec => ⟨trivial, ?_⟩
      rcases hexec.1 with ⟨hanswer, hdisk⟩ | ⟨hmay, -⟩
      · obtain rfl : s₃ = s₂ := Shared.eq hdisk hexec.2
        by_cases hempty : s₃.disk.children [] = []
        · rw [if_pos hempty] at hanswer
          subst hanswer
          refine Fallible.Ending.pure ?_
          rintro _ ⟨⟩
          refine ⟨h₂, ?_⟩
          rw [cachedBytes_listing h₂ (.refl _), hempty]
          rfl
        · rw [if_neg hempty] at hanswer
          obtain ⟨listing, rfl, hperm⟩ := hanswer
          refine Fallible.Ending.bind (Program.Under.mono (measure_ending listing 0) ?_)
          rintro _ s₄ ⟨rfl, rfl⟩
          refine Fallible.Ending.pure ?_
          rintro _ ⟨⟩
          refine ⟨h₂, ?_⟩
          rw [cachedBytes_listing h₂ hperm, Nat.zero_add]
      · exact hmay.elim

end

/-! ## Histories -/

/-- A call that has returned. -/
structure Turn where
  call : Call
  before : Shared
  answer : Except Error (Option Nat)
  after : Shared

/-- The call ran with none beside it. -/
def Turn.Ran (may : Req → Prop) (cache : Cache) (turn : Turn) : Prop :=
  Program.Steps (Answers may) ((turn.call.op cache).run, turn.before)
    (.pure turn.answer, turn.after)

/-- The bytes that the counter did not see go: of an entry that a fill replaced, and of an entry
that was discarded. -/
def Turn.slip (turn : Turn) : Nat :=
  match turn.call, turn.answer with
  | .open oid, _ | .discard oid, _ =>
      if turn.after.disk.inode (object oid) = none then
        turn.before.disk.lengthAt (object oid)
      else 0
  | .fill oid _ _, .ok _ => turn.before.disk.lengthAt (object oid)
  | _, _ => 0

/-- The cache was started on a directory. -/
def Starts (d : Volume) (s : Shared) : Prop :=
  ∃ m m', Program.Steps (Answers unlisted) (new.run, ⟨d, m⟩) (.pure (.ok s.memory), ⟨s.disk, m'⟩)

/-- One call after the other since a start, the newest first. -/
inductive History (may : Req → Prop) (cache : Cache) (s₀ : Shared) : List Turn → Shared → Prop where
  | start : History may cache s₀ [] s₀
  | turn {turns : List Turn} {turn : Turn} : History may cache s₀ turns turn.before →
      turn.Ran may cache → History may cache s₀ (turn :: turns) turn.after

section

variable {may : Req → Prop} {cache : Cache} {n : Nat} {s s₀ : Shared} {d : Volume}

/-- How a call that ran alone ended. -/
theorem ending_steps {α : Type} {exec : Semantics Req Resp Shared} {op : Op α}
    {P : Except Error α → Shared → Prop} {s' : Shared} {answer : Except Error α}
    (h : op.Ending exec Any P s) (hsteps : Program.Steps exec (op.run, s) (.pure answer, s')) :
    P answer s' := by
  have hends := (Program.Under.alone (c := (op.run, s)) (I := fun _ => True)
    (fun _ _ _ _ => trivial) h trivial hsteps).2
  exact hends _ .refl

theorem starts_ahead (hd : Ordinary d) (h : Starts d s₀) : Ahead 0 s₀ := by
  obtain ⟨m, m', hsteps⟩ := h
  obtain ⟨hordinary, hbytes⟩ := ending_steps (new_ending (s := ⟨d, m⟩) hd) hsteps s₀.memory rfl
  exact ⟨hordinary, hbytes⟩

theorem opening {oid : Oid} (h : Ahead n s) :
    Opening oid n (s.disk.lengthAt (object oid)) s := by
  cases hinode : s.disk.inode (object oid) with
  | none =>
      refine Or.inl ⟨hinode, ?_⟩
      rwa [lengthAt_none hinode]
  | some i => exact Or.inr ⟨by rw [hinode]; rintro ⟨⟩, rfl, h⟩

/-- While an entry is opened, or discarded. -/
theorem opening_ending {α : Type} {op : Op α} {oid : Oid} {size : Nat}
    (honly : op.Only (Serves oid) (fun _ _ => True) fun _ => True) (h : Opening oid n size s) :
    op.Ending (Answers may) Any (fun _ => Opening oid n size) s := by
  refine Program.Under.mono (Program.Only.under honly Fallible.stable_never ?_ h) ?_
  · exact fun r hr s₁ answer s₂ hopening hexec =>
      ⟨trivial, opening_step hr hexec hopening, trivial⟩
  · exact fun _ _ hs => hs.1

theorem Opening.ahead {oid : Oid} {size : Nat} (h : Opening oid n size s) :
    Ahead (n + if s.disk.inode (object oid) = none then size else 0) s := by
  rcases h with ⟨hnone, h⟩ | ⟨hsome, -, h⟩
  · rwa [if_pos hnone]
  · rwa [if_neg hsome]

/-- A call puts the counter ahead by what slipped. -/
theorem Turn.Ran.ahead {turn : Turn} (hran : turn.Ran may cache) (h : Ahead n turn.before) :
    Ahead (n + turn.slip) turn.after := by
  obtain ⟨call, before, answer, after⟩ := turn
  cases call with
  | «open» oid =>
      have hends := ending_steps (opening_ending open_only (opening h)) hran
      cases answer <;> exact hends.ahead
  | discard oid =>
      have honly : ((Call.discard oid).op cache).Only (Serves oid) (fun _ _ => True)
          fun _ => True :=
        Fallible.Only.bind discard_only fun _ _ => Fallible.Only.pure trivial
      have hends := ending_steps (opening_ending honly (opening h)) hran
      cases answer <;> exact hends.ahead
  | fill oid size chunks =>
      have hfill : ((Call.fill oid size chunks).op cache).Ending (Answers may) Any
          (fun answer s' => match answer with
            | .ok _ => Ahead (n + before.disk.lengthAt (object oid)) s'
            | .error _ => Ahead n s') before := by
        refine Fallible.Ending.bind (Program.Under.mono (fill_ending size chunks h) ?_)
        intro answer s₁ hs
        cases answer with
        | ok a => exact Fallible.Ending.pure hs
        | error e => exact hs
      have hends := ending_steps hfill hran
      cases answer with
      | ok a => exact hends
      | error e => exact hends
  | evict =>
      have hevict : (Call.evict.op cache).Ending (Answers may) Any (fun _ => Ahead n) before := by
        refine Fallible.Ending.bind (Program.Under.mono (evict_ending h) ?_)
        rintro _ s₁ ⟨rfl, h₁⟩
        exact Fallible.Ending.pure h₁
      exact ending_steps hevict hran

theorem History.ahead {turns : List Turn} (h : History may cache s₀ turns s) (h₀ : Ahead 0 s₀) :
    Ahead (turns.map Turn.slip).sum s := by
  induction h with
  | start => exact h₀
  | turn _ hran ih =>
      rw [List.map_cons, List.sum_cons, Nat.add_comm]
      exact hran.ahead ih

/-- The counter is exact as long as nothing slipped: no fill replaced an entry of some bytes, and
no entry of some bytes was discarded. -/
theorem counter_exact_iff {turns : List Turn} (hd : Ordinary d) (hstart : Starts d s₀)
    (h : History may cache s₀ turns s) :
    s.memory.stats.bytes = cachedBytes s.disk ↔ ∀ turn ∈ turns, turn.slip = 0 := by
  have hahead := (h.ahead (starts_ahead hd hstart)).bytes
  have hslips : (turns.map Turn.slip).sum = 0 ↔ ∀ turn ∈ turns, turn.slip = 0 := by
    rw [List.sum_eq_zero_iff]
    exact List.forall_mem_map
  rw [← hslips]
  show s.memory.bytes = _ ↔ _
  omega

/-! ### Calls that are run -/

/-- A call against a disk that refuses nothing. -/
def turnOf (cache : Cache) (call : Call) (s : Shared) : Turn where
  call := call
  before := s
  answer := ((call.op cache).run.eval respond s).1
  after := ((call.op cache).run.eval respond s).2

theorem turnOf_ran (cache : Cache) (call : Call) (s : Shared) :
    (turnOf cache call s).Ran may cache :=
  Program.eval_steps (respond_answers may) _ s

/-! ### Two objects where there is room for one -/

def threeBytes : Cache := ⟨3, fun _ => .zeros⟩

/-- A directory with an object of two bytes, which was last used a while ago. -/
def stale : Volume :=
  { ((Files.Disk.empty.add (object .zeros) 0).fill 0 [7, 7] 0) with clock := 1 }

def restarted : Shared := ⟨stale, ⟨∅, ∅, 2, 0, 0⟩⟩

theorem ordinary_stale : Ordinary stale := by
  have hadded : Ordinary (Files.Disk.empty.add (object .zeros) 0) :=
    ordinary_empty.add Oid.zeros.text
  exact hadded.congr fun _ => rfl

theorem restarted_starts : Starts stale restarted :=
  ⟨restarted.memory, restarted.memory,
    Program.eval_steps (respond_answers unlisted) new.run restarted⟩

/-- The fill evicts the object that was there. -/
def filledNew : Turn := turnOf threeBytes (.fill Oid.ones 2 [.ok [8, 8]]) restarted

/-- That is not there to be discarded. -/
def discardedOld : Turn := turnOf threeBytes (.discard .zeros) filledNew.after

def discardedNew : Turn := turnOf threeBytes (.discard Oid.ones) discardedOld.after

theorem kept_history :
    History may threeBytes restarted [discardedOld, filledNew] discardedOld.after :=
  .turn (.turn .start (turnOf_ran _ _ _)) (turnOf_ran _ _ _)

/-- After an eviction the counter is exact, and not after an entry is discarded. -/
theorem counter_exact_evicted :
    discardedOld.after.disk.find (object .zeros) = none ∧
      discardedOld.after.memory.stats.bytes = cachedBytes discardedOld.after.disk ∧
      discardedNew.after.memory.stats.bytes ≠ cachedBytes discardedNew.after.disk := by
  refine ⟨by decide +kernel, ?_, ?_⟩
  · have hhistory : History (fun _ => False) threeBytes restarted [discardedOld, filledNew]
        discardedOld.after := kept_history
    exact (counter_exact_iff ordinary_stale restarted_starts hhistory).mpr (by decide +kernel)
  · have hhistory : History (fun _ => False) threeBytes restarted
        [discardedNew, discardedOld, filledNew] discardedNew.after :=
      .turn kept_history (turnOf_ran _ _ _)
    intro hexact
    have hslip := (counter_exact_iff ordinary_stale restarted_starts hhistory).mp hexact
      discardedNew List.mem_cons_self
    exact absurd hslip (by decide +kernel)

/-! ### One object, filled twice -/

/-- A cache of a hundred bytes. -/
def hundred : Cache := ⟨100, fun _ => .zeros⟩

def started : Shared := ⟨.empty, ⟨∅, ∅, 0, 0, 0⟩⟩

theorem started_starts : Starts .empty started :=
  ⟨started.memory, started.memory, Program.eval_steps (respond_answers unlisted) new.run started⟩

def firstFill : Turn := turnOf hundred (.fill .zeros 1 [.ok [7]]) started

def secondFill : Turn := turnOf hundred (.fill .zeros 1 [.ok [7]]) firstFill.after

theorem filled_history : History may hundred started [secondFill, firstFill] secondFill.after :=
  .turn (.turn .start (turnOf_ran _ _ _)) (turnOf_ran _ _ _)

/-- After two the counter has both, and the directory one. -/
theorem counter_twice : ¬ ∀ (cache : Cache) (d : Volume) (s₀ : Shared) (turns : List Turn)
    (s : Shared), Ordinary d → Starts d s₀ → History (fun _ => False) cache s₀ turns s →
      s.memory.stats.bytes = cachedBytes s.disk := by
  intro h
  have hexact := h hundred .empty started _ _ ordinary_empty started_starts filled_history
  exact absurd hexact (by decide +kernel)

end

end Cache

end Lfsx.Storage
