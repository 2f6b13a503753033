import Lfsx.Files.DiskRules
import Lfsx.Locks.Writing

/-!
# Locks on a volume

One process after the other works on a volume.  A process that is gone makes no request any
more, and the next one numbers its staging files from zero again, under its own number, which
may be the same.  A request that is given up in one process is a thread that does not go on, so
it is left open who holds a gate.

The file at the path of a lock is a lock, unless it was made in place and not written
(`Kept.whole`), provided that no staging file is made over one that is a lock too (`Spares`).
-/

namespace Lfsx.Locks

open Request
open Files (Disk Refused Bytes)
open Storage (LocalPath decimal)

/-- The requests to the processes that work on a volume. -/
structure Lives (ι : Type) where
  formats : Formats
  caseless : Bool
  /-- The process a request is made to, the first of them being zero. -/
  life : ι → Nat
  /-- The number of a process. -/
  process : Nat → Nat
  may : Files.Req Text → Prop
  store : ι → LockStore
  call : ι → Call
  backend : ∀ i, (store i).backend = .local caseless (process (life i))

/-- A volume, and the process that works on it. -/
structure Volume (ι : Type) where
  world : World Unit ι
  life : Nat

namespace Volume

variable {ι : Type}

/-- A volume nothing was written to. -/
def blank : Volume ι := ⟨⟨fun _ _ => none, .empty, .empty⟩, 0⟩

def disk (v : Volume ι) : Disk Text := v.world.disk

/-- Another process has begun, if it is a later one. -/
def begun (v : Volume ι) (life : Nat) : Volume ι :=
  if v.life < life then
    { world := { v.world with gates := fun _ _ => none, disk := { v.disk with ticket := 0 } },
      life }
  else v

end Volume

/-- A staging file is not made over a file that is a lock too. -/
def Spares (disk : Disk Text) (r : Req) : Prop :=
  ∀ path file, r = .disk (.create path) → disk.inode path = some file →
    ∀ lock, LockStore.isLockFile lock = true → disk.inode lock ≠ some file

namespace Lives

variable {ι : Type} (L : Lives ι)

/-- What a request to a process is answered, while no later process has begun. -/
def serves (i : ι) : Semantics Req Resp (Volume ι) := fun r v answer v' =>
  v.life ≤ L.life i ∧ ∃ gates w,
    Locks.serves (fun _ => ()) L.may i r { (v.begun (L.life i)).world with gates } answer w ∧
      v' = ⟨w, L.life i⟩

abbrev State (ι : Type) := Volume ι × Log ι Req Resp

/-- The runs in which no staging file is made over a lock. -/
def spared : ι → Semantics Req Resp (Volume ι) :=
  restricted (fun _ r v => Spares v.disk r) L.serves

/-- The order in which a thread writes. -/
def order (i : ι) : Protocol Req Resp Phase := writing L.formats L.caseless (L.process (L.life i))

end Lives

/-! ## What a request does -/

/-- The number of the staging file a request is with. -/
def Phase.number : Phase → Option Nat
  | .ticketed n => some n
  | .staged n _ _ => some n
  | .written n _ _ _ => some n
  | .linked n _ => some n
  | _ => none

/-- The names in a phase are what they are for. -/
def Phase.Fits : Phase → Prop
  | .staged n path _ => IsStaging n path
  | .written n path _ _ => IsStaging n path
  | .linked n path => IsStaging n path
  | .placed path _ => LockStore.isLockFile path = true
  | _ => True

/-- A request writes no file, and makes no lock in place. -/
def Quiet : (r : Req) → Resp r → Prop
  | .disk (.write _ _), _ => False
  | .createNew _, .ok _ => False
  | _, _ => True

/-- What an answered request does to a disk, and to the phase of its thread. -/
inductive Act (formats : Formats) (caseless : Bool) (d d' : Disk Text) :
    Phase → (r : Req) → Resp r → Phase → Prop where
  | looks {phase : Phase} {r : Req} {answer : Resp r} : d.Alike d' → Quiet r answer →
      Act formats caseless d d' phase r answer phase
  | failed {phase : Phase} {r : Req} {answer : Resp r} : d.Alike d' → Quiet r answer →
      Act formats caseless d d' phase r answer .idle
  | numbered : d' = d.issue →
      Act formats caseless d d' .idle (.disk .ticket) d.ticket (.ticketed d.ticket)
  | emptied {n : Nat} {path : LocalPath} {file time : Nat} : IsStaging n path →
      d.inode path = some file → d' = d.fill file [] time →
      Act formats caseless d d' (.ticketed n) (.disk (.create path)) (.ok file)
        (.staged n path file)
  | made {n : Nat} {path : LocalPath} {time : Nat} : IsStaging n path → d.inode path = none →
      d' = d.add path time →
      Act formats caseless d d' (.ticketed n) (.disk (.create path)) (.ok d.files.length)
        (.staged n path d.files.length)
  | wrote {n : Nat} {path : LocalPath} {file time : Nat} {encoded : Bytes} :
      d' = d.fill file encoded time →
      Act formats caseless d d' (.staged n path file) (.disk (.write file encoded)) (.ok ())
        (.written n path file encoded)
  | spoiled {n : Nat} {path : LocalPath} {file time : Nat} {encoded short : Bytes} {e : Refused} :
      d' = d.fill file short time →
      Act formats caseless d d' (.staged n path file) (.disk (.write file encoded)) (.error e) .idle
  | linked {n file : Nat} {source target : LocalPath} {encoded : Bytes} :
      d.inode source ≠ none → Complete formats caseless target encoded →
      LockStore.isLockFile target = true → d' = d.link source target →
      Act formats caseless d d' (.written n source file encoded) (.disk (.link source target))
        (.ok ()) (.linked n source)
  | unlinked {n file : Nat} {source target : LocalPath} {encoded : Bytes} {e : Refused} : d' = d →
      Act formats caseless d d' (.written n source file encoded) (.disk (.link source target))
        (.error e) (.linked n source)
  | removed {n : Nat} {path : LocalPath} : d' = d.unname path →
      Act formats caseless d d' (.linked n path) (.disk (.unlink path)) (.ok ()) .idle
  | freed {path : LocalPath} : LockStore.isLockFile path = true → d' = d.unname path →
      Act formats caseless d d' .idle (.disk (.unlink path)) (.ok ()) .idle
  | placed {path : LocalPath} {time : Nat} : LockStore.isLockFile path = true →
      d.inode path = none → d' = d.add path time →
      Act formats caseless d d' .idle (.createNew path) (.ok d.files.length)
        (.placed path d.files.length)
  | filled {path : LocalPath} {file time : Nat} {encoded : Bytes} :
      Complete formats caseless path encoded → d' = d.fill file encoded time →
      Act formats caseless d d' (.placed path file) (.disk (.write file encoded)) (.ok ()) .idle
  | broken {path : LocalPath} {file time : Nat} {encoded short : Bytes} {e : Refused} :
      d' = d.fill file short time →
      Act formats caseless d d' (.placed path file) (.disk (.write file encoded)) (.error e) .idle

theorem Complete.isLockFile {formats : Formats} {caseless : Bool} {path : LocalPath}
    {encoded : Bytes} (h : Complete formats caseless path encoded) :
    LockStore.isLockFile path = true := by
  obtain ⟨ns, lock, rfl, -⟩ := h
  exact isLockFile_pathIn caseless ns lock.id

/-- **What a request does that is in order.** -/
theorem Act.of_disk {formats : Formats} {caseless : Bool} {process : Nat} {phase : Phase}
    {may : Files.Req Text → Prop} {r : Files.Req Text} {answer : Files.Resp r} {d d' : Disk Text}
    (hmay : phase.may formats caseless process (.disk r)) (h : Files.Faulty may r d answer d') :
    Act formats caseless d d' phase (.disk r) answer (phase.next (.disk r) answer) := by
  have hlooks : d.Alike d' → Quiet (.disk r) answer → phase.next (.disk r) answer = phase →
      Act formats caseless d d' phase (.disk r) answer (phase.next (.disk r) answer) := by
    intro halike hquiet hnext
    rw [hnext]
    exact .looks halike hquiet
  cases r with
  | ticket =>
      obtain rfl : phase = .idle := hmay
      obtain ⟨rfl, rfl⟩ := h.ticket
      exact .numbered rfl
  | create path =>
      obtain ⟨ns, n, rfl, hpath⟩ := hmay
      have hstaging : IsStaging n path := ⟨ns, process, hpath⟩
      rcases h.create with ⟨file, time, hfile, rfl, -, rfl⟩ | ⟨time, hnone, rfl, -, rfl⟩ |
        ⟨-, rfl, rfl⟩
      · exact .emptied hstaging hfile rfl
      · exact .made hstaging hnone rfl
      · exact .failed (.refl _) trivial
  | write file encoded =>
      rcases hmay with ⟨n, path, rfl⟩ | ⟨path, rfl, hcomplete⟩
      · rcases h.write with ⟨rfl, time, -, rfl⟩ | ⟨-, rfl, short, time, -, -, rfl⟩
        · exact .wrote rfl
        · exact .spoiled rfl
      · rcases h.write with ⟨rfl, time, -, rfl⟩ | ⟨-, rfl, short, time, -, -, rfl⟩
        · exact .filled hcomplete rfl
        · exact .broken rfl
  | link source target =>
      obtain ⟨n, file, encoded, rfl, hcomplete⟩ := hmay
      rcases h.link with ⟨i, hi, -, rfl, rfl⟩ | ⟨i, j, -, -, rfl, rfl⟩ | ⟨-, rfl, rfl⟩ |
        ⟨-, -, -, rfl, rfl⟩
      · exact .linked (by rw [hi]; exact Option.some_ne_none i) hcomplete hcomplete.isLockFile rfl
      · exact .unlinked rfl
      · exact .unlinked rfl
      · exact .unlinked rfl
  | unlink path =>
      rcases hmay with ⟨n, rfl⟩ | ⟨rfl, hlock⟩
      · rcases h.unlink with ⟨i, -, rfl, rfl⟩ | ⟨-, rfl, rfl⟩ | ⟨-, rfl, rfl⟩
        · exact .removed rfl
        · exact .failed (.refl _) trivial
        · exact .failed (.refl _) trivial
      · rcases h.unlink with ⟨i, -, rfl, rfl⟩ | ⟨-, rfl, rfl⟩ | ⟨-, rfl, rfl⟩
        · exact .freed hlock rfl
        · exact .failed (.refl _) trivial
        · exact .failed (.refl _) trivial
  | rename source target => exact absurd hmay id
  | _ => exact hlooks (h.looks (by trivial)) trivial (by cases phase <;> rfl)

theorem Act.of_serves {ι : Type} {formats : Formats} {caseless : Bool} {process : Nat}
    {phase : Phase} {may : Files.Req Text → Prop} {i : ι} {r : Req} {answer : Resp r}
    {w w' : World Unit ι} (hmay : phase.may formats caseless process r)
    (h : serves (fun _ => ()) may i r w answer w') :
    Act formats caseless w.disk w'.disk phase r answer (phase.next r answer) := by
  have hlooks : w'.disk = w.disk → Quiet r answer → phase.next r answer = phase →
      Act formats caseless w.disk w'.disk phase r answer (phase.next r answer) := by
    intro hsame hquiet hnext
    rw [hnext, hsame]
    exact .looks (.refl _) hquiet
  cases r with
  | acquire slot =>
      obtain ⟨-, rfl⟩ := h
      exact hlooks rfl trivial (by cases phase <;> rfl)
  | drop slot =>
      cases h
      exact hlooks rfl trivial (by cases phase <;> rfl)
  | now =>
      cases h
      exact hlooks rfl trivial (by cases phase <;> rfl)
  | disk r =>
      obtain ⟨d, hd, rfl⟩ := h
      exact Act.of_disk hmay hd
  | createNew path =>
      obtain ⟨rfl, hlock⟩ := hmay
      rcases h with h | ⟨-, rfl, rfl⟩
      · split at h
        · next file hfile =>
            obtain ⟨rfl, rfl⟩ := h
            exact hlooks rfl trivial rfl
        · next hnone =>
            obtain ⟨rfl, time, -, rfl⟩ := h
            exact .placed hlock hnone rfl
      · exact hlooks rfl trivial rfl
  | bucket r =>
      obtain ⟨b, -, rfl⟩ := h
      exact hlooks rfl (by cases r <;> trivial) (by cases phase <;> rfl)

/-! ## What a request leaves alone -/

/-- A staging path and its file, which is no lock. -/
def Holds (d : Disk Text) (path : LocalPath) (file : Nat) : Prop :=
  d.inode path = some file ∧
    ∀ lock, LockStore.isLockFile lock = true → d.inode lock ≠ some file

/-- What a thread counts on in a phase. -/
def Phase.Owns (d : Disk Text) : Phase → Prop
  | .staged _ path file => Holds d path file
  | .written _ path file encoded =>
      Holds d path file ∧ (d.file file).map Files.File.bytes = some encoded
  | .placed path file => file < d.files.length ∧ ∀ other, d.inode other = some file → other = path
  | _ => True

/-- A file has one staging path. -/
def Apart (d : Disk Text) : Prop :=
  ∀ one other file, LockStore.isLockFile one = false → LockStore.isLockFile other = false →
    d.inode one = some file → d.inode other = some file → one = other

section

variable {formats : Formats} {caseless : Bool} {d d' : Disk Text} {phase next other : Phase}
  {r : Req} {answer : Resp r} {n n' file file' : Nat} {path path' : LocalPath}

theorem Act.fits (h : Act formats caseless d d' phase r answer next) (hfits : phase.Fits) :
    next.Fits := by
  cases h with
  | looks _ _ => exact hfits
  | failed _ _ => trivial
  | numbered _ => trivial
  | emptied hstaging _ _ => exact hstaging
  | made hstaging _ _ => exact hstaging
  | wrote _ => exact hfits
  | spoiled _ => trivial
  | linked _ _ _ _ => exact hfits
  | unlinked _ => exact hfits
  | removed _ => trivial
  | freed _ _ => trivial
  | placed hlock _ _ => exact hlock
  | filled _ _ => trivial
  | broken _ => trivial

/-- A number is handed out once. -/
theorem Act.number (h : Act formats caseless d d' phase r answer next) (hn : next.number = some n) :
    phase.number = some n ∨ n = d.ticket ∧ d'.ticket = n + 1 := by
  cases h with
  | looks _ _ => exact Or.inl hn
  | numbered hdisk =>
      cases hn
      exact Or.inr ⟨rfl, by rw [hdisk]; rfl⟩
  | emptied _ _ _ => exact Or.inl hn
  | made _ _ _ => exact Or.inl hn
  | wrote _ => exact Or.inl hn
  | linked _ _ _ _ => exact Or.inl hn
  | unlinked _ => exact Or.inl hn
  | _ => cases hn

theorem Act.grows (h : Act formats caseless d d' phase r answer next) :
    d.files.length ≤ d'.files.length ∧ d.ticket ≤ d'.ticket := by
  cases h with
  | looks halike _ => exact ⟨halike.files ▸ le_refl _, halike.ticket⟩
  | failed halike _ => exact ⟨halike.files ▸ le_refl _, halike.ticket⟩
  | numbered hdisk => exact hdisk ▸ ⟨le_refl _, Nat.le_succ _⟩
  | emptied _ _ hdisk => exact hdisk ▸ ⟨by simp [Disk.fill], le_refl _⟩
  | made _ _ hdisk => exact hdisk ▸ ⟨by simp [Disk.add], le_refl _⟩
  | wrote hdisk => exact hdisk ▸ ⟨by simp [Disk.fill], le_refl _⟩
  | spoiled hdisk => exact hdisk ▸ ⟨by simp [Disk.fill], le_refl _⟩
  | linked _ _ _ hdisk => exact hdisk ▸ ⟨by simp, by simp⟩
  | unlinked hdisk => exact hdisk ▸ ⟨le_refl _, le_refl _⟩
  | removed hdisk => exact hdisk ▸ ⟨le_refl _, le_refl _⟩
  | freed _ hdisk => exact hdisk ▸ ⟨le_refl _, le_refl _⟩
  | placed _ _ hdisk => exact hdisk ▸ ⟨by simp [Disk.add], le_refl _⟩
  | filled _ hdisk => exact hdisk ▸ ⟨by simp [Disk.fill], le_refl _⟩
  | broken hdisk => exact hdisk ▸ ⟨by simp [Disk.fill], le_refl _⟩

/-- Where a name comes from: it was there, or a file was made under it, or one was linked. -/
theorem Act.named (h : Act formats caseless d d' phase r answer next)
    (hname : d'.inode path = some file) :
    d.inode path = some file ∨
      file = d.files.length ∧ ((∃ n, next = .staged n path file) ∨ next = .placed path file) ∨
      ∃ n source own encoded, phase = .written n source own encoded ∧
        d.inode source = some file ∧ Complete formats caseless path encoded := by
  cases h with
  | looks halike _ => exact Or.inl (by rw [← halike.inode, hname])
  | failed halike _ => exact Or.inl (by rw [← halike.inode, hname])
  | @made n made time hstaging hnone hdisk =>
      rw [hdisk, Disk.inode_add] at hname
      split at hname
      · next heq =>
          cases hname
          exact Or.inr (Or.inl ⟨rfl, Or.inl ⟨n, by rw [heq]⟩⟩)
      · exact Or.inl hname
  | @placed made time hlock hnone hdisk =>
      rw [hdisk, Disk.inode_add] at hname
      split at hname
      · next heq =>
          cases hname
          exact Or.inr (Or.inl ⟨rfl, Or.inr (by rw [heq])⟩)
      · exact Or.inl hname
  | @linked n own source target encoded hsource hcomplete hlock hdisk =>
      obtain ⟨i, hi⟩ := Option.ne_none_iff_exists'.mp hsource
      rw [hdisk, Disk.inode_link hi] at hname
      split at hname
      · next heq =>
          cases hname
          exact Or.inr (Or.inr ⟨n, source, own, encoded, rfl, hi, heq ▸ hcomplete⟩)
      · exact Or.inl hname
  | removed hdisk =>
      rw [hdisk, Disk.inode_unname] at hname
      split at hname
      · cases hname
      · exact Or.inl hname
  | freed _ hdisk =>
      rw [hdisk, Disk.inode_unname] at hname
      split at hname
      · cases hname
      · exact Or.inl hname
  | numbered hdisk => exact Or.inl (by simpa [hdisk] using hname)
  | emptied _ _ hdisk => exact Or.inl (by simpa [hdisk] using hname)
  | wrote hdisk => exact Or.inl (by simpa [hdisk] using hname)
  | spoiled hdisk => exact Or.inl (by simpa [hdisk] using hname)
  | unlinked hdisk => exact Or.inl (by simpa [hdisk] using hname)
  | filled _ hdisk => exact Or.inl (by simpa [hdisk] using hname)
  | broken hdisk => exact Or.inl (by simpa [hdisk] using hname)

/-- How a name is lost: it is a lock's, or a staging file was linked. -/
theorem Act.kept (h : Act formats caseless d d' phase r answer next)
    (hname : d.inode path = some file) :
    d'.inode path = some file ∨ LockStore.isLockFile path = true ∨ ∃ n, phase = .linked n path := by
  cases h with
  | looks halike _ => exact Or.inl (by rw [halike.inode, hname])
  | failed halike _ => exact Or.inl (by rw [halike.inode, hname])
  | made _ hnone hdisk =>
      rw [hdisk, Disk.inode_add, if_neg]
      · exact Or.inl hname
      · rintro rfl
        rw [hname] at hnone
        cases hnone
  | placed _ hnone hdisk =>
      rw [hdisk, Disk.inode_add, if_neg]
      · exact Or.inl hname
      · rintro rfl
        rw [hname] at hnone
        cases hnone
  | @linked n own source target encoded hsource hcomplete hlock hdisk =>
      by_cases heq : path = target
      · exact Or.inr (Or.inl (heq ▸ hlock))
      · obtain ⟨i, hi⟩ := Option.ne_none_iff_exists'.mp hsource
        rw [hdisk, Disk.inode_link hi, if_neg heq]
        exact Or.inl hname
  | @removed n gone hdisk =>
      by_cases heq : path = gone
      · exact Or.inr (Or.inr ⟨n, by rw [heq]⟩)
      · rw [hdisk, Disk.inode_unname, if_neg heq]
        exact Or.inl hname
  | @freed gone hlock hdisk =>
      by_cases heq : path = gone
      · exact Or.inr (Or.inl (heq ▸ hlock))
      · rw [hdisk, Disk.inode_unname, if_neg heq]
        exact Or.inl hname
  | numbered hdisk => exact Or.inl (by simpa [hdisk] using hname)
  | emptied _ _ hdisk => exact Or.inl (by simpa [hdisk] using hname)
  | wrote hdisk => exact Or.inl (by simpa [hdisk] using hname)
  | spoiled hdisk => exact Or.inl (by simpa [hdisk] using hname)
  | unlinked hdisk => exact Or.inl (by simpa [hdisk] using hname)
  | filled _ hdisk => exact Or.inl (by simpa [hdisk] using hname)
  | broken hdisk => exact Or.inl (by simpa [hdisk] using hname)

/-- A file is emptied under its staging path, or written. -/
theorem Act.bytes (h : Act formats caseless d d' phase r answer next)
    (hfile : file < d.files.length) :
    d'.file file = d.file file ∨
      (∃ n path, phase = .ticketed n ∧ IsStaging n path ∧ r = .disk (.create path) ∧
        d.inode path = some file) ∨
      ∃ encoded, r = .disk (.write file encoded) := by
  cases h with
  | looks halike _ => exact Or.inl (halike.file file)
  | failed halike _ => exact Or.inl (halike.file file)
  | made _ _ hdisk => exact Or.inl (by rw [hdisk, Disk.file_add_old hfile])
  | placed _ _ hdisk => exact Or.inl (by rw [hdisk, Disk.file_add_old hfile])
  | @emptied n path own time hstaging hown hdisk =>
      by_cases heq : file = own
      · exact Or.inr (Or.inl ⟨n, path, rfl, hstaging, rfl, heq ▸ hown⟩)
      · exact Or.inl (by rw [hdisk, Disk.file_fill_ne heq])
  | @wrote n path own time encoded hdisk =>
      by_cases heq : file = own
      · exact Or.inr (Or.inr ⟨encoded, by rw [heq]⟩)
      · exact Or.inl (by rw [hdisk, Disk.file_fill_ne heq])
  | @spoiled n path own time encoded short e hdisk =>
      by_cases heq : file = own
      · exact Or.inr (Or.inr ⟨encoded, by rw [heq]⟩)
      · exact Or.inl (by rw [hdisk, Disk.file_fill_ne heq])
  | @filled path own time encoded _ hdisk =>
      by_cases heq : file = own
      · exact Or.inr (Or.inr ⟨encoded, by rw [heq]⟩)
      · exact Or.inl (by rw [hdisk, Disk.file_fill_ne heq])
  | @broken path own time encoded short e hdisk =>
      by_cases heq : file = own
      · exact Or.inr (Or.inr ⟨encoded, by rw [heq]⟩)
      · exact Or.inl (by rw [hdisk, Disk.file_fill_ne heq])
  | linked _ _ _ hdisk => exact Or.inl (by rw [hdisk, Disk.file_link])
  | numbered hdisk => exact Or.inl (by rw [hdisk, Disk.file_issue])
  | unlinked hdisk => exact Or.inl (by rw [hdisk])
  | removed hdisk => exact Or.inl (by rw [hdisk, Disk.file_unname])
  | freed _ hdisk => exact Or.inl (by rw [hdisk, Disk.file_unname])

/-- Who writes a file. -/
theorem Act.writes {encoded : Bytes} {answer : Except Refused Unit}
    (h : Act formats caseless d d' phase (.disk (.write file encoded)) answer next) :
    (∃ n path, phase = .staged n path file) ∨ ∃ path, phase = .placed path file := by
  cases h with
  | looks _ hquiet => exact absurd hquiet id
  | failed _ hquiet => exact absurd hquiet id
  | @wrote n path own time encoded hdisk => exact Or.inl ⟨n, path, rfl⟩
  | @spoiled n path own time encoded short e hdisk => exact Or.inl ⟨n, path, rfl⟩
  | @filled path own time encoded _ hdisk => exact Or.inr ⟨path, rfl⟩
  | @broken path own time encoded short e hdisk => exact Or.inr ⟨path, rfl⟩

/-- What is written to a lock that was made in place. -/
theorem Act.fills {encoded : Bytes} {answer : Except Refused Unit}
    (h : Act formats caseless d d' (.placed path file) (.disk (.write file encoded)) answer next) :
    (∃ e, answer = .error e) ∨
      answer = .ok () ∧ Complete formats caseless path encoded ∧
        ∃ time, d' = d.fill file encoded time := by
  cases h with
  | looks _ hquiet => exact absurd hquiet id
  | failed _ hquiet => exact absurd hquiet id
  | filled hcomplete hdisk => exact Or.inr ⟨rfl, hcomplete, _, hdisk⟩
  | broken hdisk => exact Or.inl ⟨_, rfl⟩

/-- When a lock is being made in place. -/
theorem Act.places {ι : Type} (i : ι)
    (h : Act formats caseless d d' phase r answer (.placed path file)) :
    (phase = .placed path file ∧ ∀ encoded, r ≠ .disk (.write file encoded)) ∨
      file = d.files.length ∧
        (⟨i, r, answer⟩ : Event ι Req Resp) = ⟨i, .createNew path, .ok file⟩ := by
  cases h with
  | looks _ hquiet =>
      refine Or.inl ⟨rfl, ?_⟩
      rintro encoded rfl
      exact hquiet
  | placed _ _ _ => exact Or.inr ⟨rfl, rfl⟩

theorem Act.apart (h : Act formats caseless d d' phase r answer next) (hapart : Apart d) :
    Apart d' := by
  have hfresh : ∀ {path file}, d.inode path = some file → file ≠ d.files.length :=
    fun hpath => (Disk.inode_lt hpath).ne
  intro one other file hone hother hfile hfile'
  rcases h.named hfile with hold | ⟨hnew, hmade⟩ | ⟨_, _, _, _, -, -, hcomplete⟩
  · rcases h.named hfile' with hold' | ⟨hnew', -⟩ | ⟨_, _, _, _, -, -, hcomplete⟩
    · exact hapart one other file hone hother hold hold'
    · exact absurd hnew' (hfresh hold)
    · rw [hcomplete.isLockFile] at hother
      cases hother
  · rcases h.named hfile' with hold' | ⟨-, hmade'⟩ | ⟨_, _, _, _, -, -, hcomplete⟩
    · exact absurd hnew (hfresh hold')
    · rcases hmade with ⟨n, hmade⟩ | hmade <;> rcases hmade' with ⟨n', hmade'⟩ | hmade' <;>
        (rw [hmade] at hmade'; cases hmade')
      · rfl
      · rfl
    · rw [hcomplete.isLockFile] at hother
      cases hother
  · rw [hcomplete.isLockFile] at hone
    cases hone

/-- Two numbers have two staging files. -/
theorem ne_of_staging (hapart : Apart d) (hne : n ≠ n') (hstaging : IsStaging n path)
    (hstaging' : IsStaging n' path') (hpath : d.inode path = some file)
    (hpath' : d.inode path' = some file') : file ≠ file' := by
  rintro rfl
  obtain rfl := hapart path path' file hstaging.not_lock hstaging'.not_lock hpath hpath'
  exact hne (hstaging.inj hstaging')

/-- **A staging file is its thread's alone.** -/
theorem Act.holds (h : Act formats caseless d d' phase r answer next) (hfits : phase.Fits)
    (howns : phase.Owns d) (hapart : Apart d) (hne : phase.number ≠ some n')
    (hstaging : IsStaging n' path') (hholds : Holds d path' file') :
    Holds d' path' file' ∧ d'.file file' = d.file file' := by
  obtain ⟨hpath, hlocks⟩ := hholds
  have hlt := Disk.inode_lt hpath
  refine ⟨⟨?_, fun lock hlock hname => ?_⟩, ?_⟩
  · rcases h.kept hpath with hkept | hlock | ⟨n, rfl⟩
    · exact hkept
    · rw [hstaging.not_lock] at hlock
      cases hlock
    · exact absurd (congrArg some (hfits.inj hstaging)) hne
  · rcases h.named hname with hold | ⟨hnew, -⟩ | ⟨n, source, own, encoded, rfl, hsource, -⟩
    · exact hlocks lock hlock hold
    · exact hlt.ne hnew
    · have hnumbers : n ≠ n' := fun heq => hne (congrArg some heq)
      exact ne_of_staging hapart hnumbers hfits hstaging hsource hpath rfl
  · rcases h.bytes hlt with hsame | ⟨n, path, rfl, hown, -, hname⟩ | ⟨encoded, rfl⟩
    · exact hsame
    · have hnumbers : n ≠ n' := fun heq => hne (congrArg some heq)
      exact absurd rfl (ne_of_staging hapart hnumbers hown hstaging hname hpath)
    · rcases h.writes with ⟨n, path, rfl⟩ | ⟨path, rfl⟩
      · have hnumbers : n ≠ n' := fun heq => hne (congrArg some heq)
        exact absurd rfl (ne_of_staging hapart hnumbers hfits hstaging howns.1 hpath)
      · have hlock : LockStore.isLockFile path' = true := howns.2 path' hpath ▸ hfits
        rw [hstaging.not_lock] at hlock
        cases hlock

/-- **What another thread counts on.** -/
theorem Act.others (h : Act formats caseless d d' phase r answer next) (hfits : phase.Fits)
    (howns : phase.Owns d) (hapart : Apart d)
    (hne : ∀ n, other.number = some n → phase.number ≠ some n) (hother : other.Fits)
    (hothers : other.Owns d) : other.Owns d' := by
  cases other with
  | staged n path file => exact (h.holds hfits howns hapart (hne n rfl) hother hothers).1
  | written n path file encoded =>
      obtain ⟨hholds, hsame⟩ := h.holds hfits howns hapart (hne n rfl) hother hothers.1
      exact ⟨hholds, by rw [hsame, hothers.2]⟩
  | placed path file =>
      refine ⟨hothers.1.trans_le h.grows.1, fun other hname => ?_⟩
      rcases h.named hname with hold | ⟨hnew, -⟩ | ⟨n, source, own, encoded, rfl, hsource, -⟩
      · exact hothers.2 other hold
      · exact absurd hnew hothers.1.ne
      · have hlock : LockStore.isLockFile source = true := hothers.2 source hsource ▸ hother
        rw [IsStaging.not_lock hfits] at hlock
        cases hlock
  | _ => trivial

/-- **And what the thread itself counts on then.** -/
theorem Act.owns (h : Act formats caseless d d' phase r answer next) (howns : phase.Owns d)
    (hspares : Spares d r) : next.Owns d' := by
  cases h with
  | looks halike _ =>
      cases phase with
      | staged n path file =>
          refine ⟨by rw [halike.inode, howns.1], fun lock hlock => ?_⟩
          rw [halike.inode]
          exact howns.2 lock hlock
      | written n path file encoded =>
          refine ⟨⟨by rw [halike.inode, howns.1.1], fun lock hlock => ?_⟩, ?_⟩
          · rw [halike.inode]
            exact howns.1.2 lock hlock
          · rw [halike.file, howns.2]
      | placed path file =>
          refine ⟨by rw [halike.files]; exact howns.1, fun other hname => ?_⟩
          rw [halike.inode] at hname
          exact howns.2 other hname
      | _ => trivial
  | @emptied n path file time hstaging hfile hdisk =>
      subst hdisk
      exact ⟨hfile, hspares path file rfl hfile⟩
  | @made n path time hstaging hnone hdisk =>
      subst hdisk
      refine ⟨by rw [Disk.inode_add, if_pos rfl], fun lock hlock hname => ?_⟩
      rw [Disk.inode_add] at hname
      split at hname
      · next heq =>
          rw [heq, hstaging.not_lock] at hlock
          cases hlock
      · exact (Disk.inode_lt hname).ne rfl
  | @wrote n path file time encoded hdisk =>
      subst hdisk
      refine ⟨howns, ?_⟩
      rw [Disk.file_fill_self (Disk.inode_lt howns.1)]
      rfl
  | @placed path time hlock hnone hdisk =>
      subst hdisk
      refine ⟨by simp [Disk.add], fun other hname => ?_⟩
      rw [Disk.inode_add] at hname
      split at hname
      · next heq => exact heq
      · exact absurd rfl (Disk.inode_lt hname).ne
  | _ => trivial

end

/-! ## The invariant -/

theorem Volume.life_begun {ι : Type} {v : Volume ι} {life : Nat} (h : v.life ≤ life) :
    (v.begun life).life = life := by
  rw [Volume.begun]
  split
  · rfl
  · omega

theorem Volume.inode_begun {ι : Type} (v : Volume ι) (life : Nat) (path : LocalPath) :
    (v.begun life).disk.inode path = v.disk.inode path := by
  rw [Volume.begun]
  split <;> rfl

namespace Lives

variable {ι : Type} (L : Lives ι)

/-- A file was made in place, and was not written. -/
def Unwritten (path : LocalPath) (file : Nat) (past : Log ι Req Resp) : Prop :=
  ∃ i, ⟨i, .createNew path, .ok file⟩ ∈ past ∧
    ∀ encoded, ⟨i, .disk (.write file encoded), .ok ()⟩ ∉ past

theorem Unwritten.cons {path : LocalPath} {file : Nat} {past : Log ι Req Resp}
    {e : Event ι Req Resp} (h : Unwritten path file past)
    (hother : ∀ encoded, e.req ≠ .disk (.write file encoded)) :
    Unwritten path file (e :: past) := by
  obtain ⟨i, hmade, hunwritten⟩ := h
  refine ⟨i, List.mem_cons_of_mem _ hmade, fun encoded hmem => ?_⟩
  rcases List.mem_cons.mp hmem with heq | hmem
  · exact hother encoded (congrArg Event.req heq).symm
  · exact hunwritten encoded hmem

variable [DecidableEq ι]

/-- How far a thread is. -/
def phase (i : ι) (past : Log ι Req Resp) : Phase := (L.order i).phase i past

/-- The threads of the process that works on the volume have numbers and files of their own,
and the file at the path of a lock is a lock, or was made in place and not written. -/
structure Kept (w : State ι) : Prop where
  past : ∀ e ∈ w.2, L.life e.thread ≤ w.1.life
  fits : ∀ i, (L.phase i w.2).Fits
  below : ∀ i n, L.life i = w.1.life → (L.phase i w.2).number = some n → n < w.1.disk.ticket
  distinct : ∀ i j n, L.life i = w.1.life → L.life j = w.1.life →
    (L.phase i w.2).number = some n → (L.phase j w.2).number = some n → i = j
  apart : Apart w.1.disk
  owns : ∀ i, L.life i = w.1.life → (L.phase i w.2).Owns w.1.disk
  placed : ∀ i path file, L.phase i w.2 = .placed path file →
    ⟨i, .createNew path, .ok file⟩ ∈ w.2 ∧
      ∀ encoded, ⟨i, .disk (.write file encoded), .ok ()⟩ ∉ w.2
  whole : ∀ path file, LockStore.isLockFile path = true → w.1.disk.inode path = some file →
    (∃ encoded, (w.1.disk.file file).map Files.File.bytes = some encoded ∧
      Complete L.formats L.caseless path encoded) ∨ Unwritten path file w.2
  old : ∀ i file encoded answer, ⟨i, .disk (.write file encoded), answer⟩ ∈ w.2 →
    file < w.1.disk.files.length

variable {L}

theorem kept_blank : L.Kept (.blank, []) where
  past _ he := absurd he List.not_mem_nil
  fits _ := trivial
  below _ _ _ hn := by cases hn
  distinct _ _ _ _ _ hn := by cases hn
  apart _ _ _ _ _ hname := by cases hname
  owns _ _ := trivial
  placed _ _ _ hplaced := by cases hplaced
  whole _ _ _ hname := by cases hname
  old _ _ _ _ he := absurd he List.not_mem_nil

/-- A process that begins finds the threads of the others gone. -/
theorem Kept.begun {v : Volume ι} {past : Log ι Req Resp} (h : L.Kept (v, past)) (life : Nat) :
    L.Kept (v.begun life, past) := by
  rw [Volume.begun]
  split
  case isFalse => exact h
  case isTrue hlt =>
    have hidle : ∀ i, L.life i = life → L.phase i past = .idle := by
      intro i hi
      apply Protocol.phase_first (P := L.order)
      rintro e he rfl
      have hgone := h.past e he
      simp only at hgone
      omega
    exact {
      past := fun e he => (h.past e he).trans hlt.le
      fits := h.fits
      below := fun i n hi hn => by
        rw [hidle i hi] at hn
        cases hn
      distinct := fun i j n hi _ hn _ => by
        rw [hidle i hi] at hn
        cases hn
      apart := h.apart
      owns := fun i hi => by
        rw [hidle i hi]
        trivial
      placed := h.placed
      whole := h.whole
      old := h.old }

section Step

variable {i : ι} {r : Req} {answer : Resp r} {v : Volume ι} {w : World Unit ι}
  {past : Log ι Req Resp} {next : Phase}

theorem Kept.whole_act (h : L.Kept (v, past)) (hlife : L.life i = v.life)
    (hspares : Spares v.disk r)
    (hact : Act L.formats L.caseless v.disk w.disk (L.phase i past) r answer next)
    {path : LocalPath} {file : Nat}
    (hlock : LockStore.isLockFile path = true) (hname : w.disk.inode path = some file) :
    (∃ encoded, (w.disk.file file).map Files.File.bytes = some encoded ∧
      Complete L.formats L.caseless path encoded) ∨
      Unwritten path file (⟨i, r, answer⟩ :: past) := by
  have howns := h.owns i hlife
  rcases hact.named hname with hold | ⟨hnew, hmade⟩ |
    ⟨n, source, own, encoded, hphase, hsource, hcomplete⟩
  · have hlt := Disk.inode_lt hold
    -- A thread that is staging has no lock, so this one was made in place.
    by_cases hwrites : ∃ encoded, r = .disk (.write file encoded)
    · obtain ⟨encoded, rfl⟩ := hwrites
      rcases hact.writes with ⟨n, source, hphase⟩ | ⟨made, hphase⟩
      · rw [hphase] at howns
        exact absurd hold (howns.2 path hlock)
      · rw [hphase] at howns hact
        obtain rfl := howns.2 path hold
        rcases hact.fills with ⟨e, rfl⟩ | ⟨rfl, hcomplete, time, hdisk⟩
        · obtain ⟨hmem, hunwritten⟩ := h.placed i path file hphase
          refine Or.inr ⟨i, List.mem_cons_of_mem _ hmem, fun encoded hmem => ?_⟩
          rcases List.mem_cons.mp hmem with heq | hmem
          · cases heq
          · exact hunwritten encoded hmem
        · refine Or.inl ⟨encoded, ?_, hcomplete⟩
          rw [hdisk, Disk.file_fill_self hlt]
          rfl
    · have hother : ∀ encoded, r ≠ .disk (.write file encoded) :=
        fun encoded heq => hwrites ⟨encoded, heq⟩
      rcases hact.bytes hlt with hsame | ⟨n, staging, -, -, rfl, hemptied⟩ | hwritten
      · rw [hsame]
        exact (h.whole path file hlock hold).imp_right fun hunwritten => hunwritten.cons hother
      · exact absurd hold (hspares staging file rfl hemptied path hlock)
      · exact absurd hwritten hwrites
  · rcases hmade with ⟨n, rfl⟩ | rfl
    · rw [IsStaging.not_lock (hact.fits (h.fits i))] at hlock
      cases hlock
    · rcases hact.places i with ⟨hphase, -⟩ | ⟨-, heq⟩
      · rw [hphase] at howns
        exact absurd hnew howns.1.ne
      · refine Or.inr ⟨i, heq ▸ List.mem_cons_self, fun encoded hmem => ?_⟩
        rcases List.mem_cons.mp hmem with hwritten | hmem
        · rw [heq] at hwritten
          cases hwritten
        · exact (h.old i file encoded _ hmem).ne hnew
  · rw [hphase] at howns
    obtain rfl : own = file := by
      have hown := howns.1.1
      rw [hsource] at hown
      exact (Option.some.inj hown).symm
    refine Or.inl ⟨encoded, ?_, hcomplete⟩
    rcases hact.bytes (Disk.inode_lt hsource) with hsame | ⟨n', _, hticketed, -⟩ | ⟨_, rfl⟩
    · rw [hsame, howns.2]
    · rw [hphase] at hticketed
      cases hticketed
    · rcases hact.writes with ⟨n', _, hstaged⟩ | ⟨_, hplaced⟩
      · rw [hphase] at hstaged
        cases hstaged
      · rw [hphase] at hplaced
        cases hplaced

/-- **What a request keeps that is in order.** -/
theorem Kept.act (h : L.Kept (v, past)) (hlife : L.life i = v.life) (hspares : Spares v.disk r)
    (hact : Act L.formats L.caseless v.disk w.disk (L.phase i past) r answer
      (L.phase i (⟨i, r, answer⟩ :: past))) :
    L.Kept (⟨w, v.life⟩, ⟨i, r, answer⟩ :: past) := by
  have howns := h.owns i hlife
  have hother : ∀ j, j ≠ i → L.phase j (⟨i, r, answer⟩ :: past) = L.phase j past :=
    fun j hj => Protocol.phase_other (P := L.order) (Ne.symm hj) r answer
  have hfresh : ∀ j n, j ≠ i → L.life j = v.life → (L.phase j past).number = some n →
      (L.phase i (⟨i, r, answer⟩ :: past)).number ≠ some n := by
    intro j n hj hlife' hn hown
    rcases hact.number hown with hold | ⟨rfl, -⟩
    · exact hj (h.distinct j i n hlife' hlife hn hold)
    · exact (h.below j _ hlife' hn).ne rfl
  refine ⟨fun e he => ?_, fun j => ?_, fun j n hj hn => ?_, fun j k n hj hk hn hn' => ?_,
    hact.apart h.apart, fun j hj => ?_, fun j path file hplaced => ?_,
    fun path file hlock hname => h.whole_act hlife hspares hact hlock hname,
    fun j file encoded written hmem => ?_⟩
  · rcases List.mem_cons.mp he with rfl | he
    · exact hlife.le
    · exact h.past e he
  · by_cases hj : j = i
    · subst hj
      exact hact.fits (h.fits j)
    · rw [hother j hj]
      exact h.fits j
  · by_cases heq : j = i
    · subst heq
      rcases hact.number hn with hold | ⟨rfl, hticket⟩
      · exact (h.below j n hlife hold).trans_le hact.grows.2
      · show v.disk.ticket < w.disk.ticket
        omega
    · rw [hother j heq] at hn
      exact (h.below j n hj hn).trans_le hact.grows.2
  · by_cases heq : j = i <;> by_cases heq' : k = i
    · rw [heq, heq']
    · subst heq
      rw [hother k heq'] at hn'
      exact absurd hn (hfresh k n heq' hk hn')
    · subst heq'
      rw [hother j heq] at hn
      exact absurd hn' (hfresh j n heq hj hn)
    · rw [hother j heq] at hn
      rw [hother k heq'] at hn'
      exact h.distinct j k n hj hk hn hn'
  · by_cases heq : j = i
    · subst heq
      exact hact.owns howns hspares
    · rw [hother j heq]
      refine hact.others (h.fits i) howns h.apart (fun n hn hown => ?_) (h.fits j) (h.owns j hj)
      exact heq (h.distinct j i n hj hlife hn hown)
  · have hkeeps : ⟨j, .createNew path, .ok file⟩ ∈ past ∧
        (∀ encoded, ⟨j, .disk (.write file encoded), .ok ()⟩ ∉ past) →
        (∀ encoded, j = i → r ≠ .disk (.write file encoded)) →
        ⟨j, .createNew path, .ok file⟩ ∈ (⟨i, r, answer⟩ :: past : Log ι Req Resp) ∧
          ∀ encoded, ⟨j, .disk (.write file encoded), .ok ()⟩ ∉
            (⟨i, r, answer⟩ :: past : Log ι Req Resp) := by
      rintro ⟨hmem, hunwritten⟩ hne
      refine ⟨List.mem_cons_of_mem _ hmem, fun encoded hwritten => ?_⟩
      rcases List.mem_cons.mp hwritten with heq | hold
      · exact hne encoded (congrArg Event.thread heq) (congrArg Event.req heq).symm
      · exact hunwritten encoded hold
    by_cases heq : j = i
    · subst heq
      rw [hplaced] at hact
      rcases hact.places j with ⟨hphase, hquiet⟩ | ⟨hnew, hevent⟩
      · exact hkeeps (h.placed j path file hphase) fun encoded _ => hquiet encoded
      · refine ⟨hevent ▸ List.mem_cons_self, fun encoded hmem => ?_⟩
        rcases List.mem_cons.mp hmem with hwritten | hold
        · rw [hevent] at hwritten
          cases hwritten
        · exact (h.old j file encoded _ hold).ne hnew
    · rw [hother j heq] at hplaced
      exact hkeeps (h.placed j path file hplaced) fun encoded hj => absurd hj heq
  · refine Nat.lt_of_lt_of_le ?_ hact.grows.1
    rcases List.mem_cons.mp hmem with heq | hold
    · cases heq
      rcases hact.writes with ⟨n, path, hphase⟩ | ⟨path, hphase⟩
      · rw [hphase] at howns
        exact Disk.inode_lt howns.1
      · rw [hphase] at howns
        exact howns.1
    · exact h.old j file encoded written hold

end Step

/-- **A lock's file is a lock, or was made in place and not written.** -/
theorem Kept.step {i : ι} {r : Req} {answer : Resp r} {w : State ι} {v' : Volume ι}
    (h : L.Kept w) (hmay : (L.order i).may (L.phase i w.2) r) (hspares : Spares w.1.disk r)
    (hserves : L.serves i r w.1 answer v') : L.Kept (v', ⟨i, r, answer⟩ :: w.2) := by
  obtain ⟨v, past⟩ := w
  obtain ⟨hle, gates, world, hworld, rfl⟩ := hserves
  have hlife := Volume.life_begun hle
  have hact : Act L.formats L.caseless (v.begun (L.life i)).disk world.disk (L.phase i past) r
      answer (L.phase i (⟨i, r, answer⟩ :: past)) := by
    have hnext : L.phase i (⟨i, r, answer⟩ :: past) = (L.phase i past).next r answer :=
      Protocol.phase_own (P := L.order) r answer
    have hdone := Act.of_serves hmay hworld
    rw [hnext]
    exact hdone
  have hspares' : Spares (v.begun (L.life i)).disk r := by
    intro path file hr hname lock hlock
    rw [Volume.inode_begun] at hname ⊢
    exact hspares path file hr hname lock hlock
  have hkept := (h.begun (L.life i)).act hlife.symm hspares' hact
  rwa [hlife] at hkept

end Lives

end Lfsx.Locks
