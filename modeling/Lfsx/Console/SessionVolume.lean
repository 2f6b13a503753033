import Lfsx.Console.Session
import Lfsx.Request.Ledger

/-!
# The session key on a volume

A key is written to a staged file and linked to its place, and what must not happen is that a
file is written again once it is the key.  A file is written under its staged name or by the
thread that created it, so the invariant (`Agreed`) says of every thread what it has on its
hands (`Phase`) and that this is not the key (`Working`).

Two threads stage under different names: in one process the counter tells them apart, and of
two processes with one number only one is still going.  A staged name that is left over may be
used again, but not for the key: whoever uses it found no key after the last process of that
number was heard of.
-/

namespace Lfsx.Console.Session

open Request
open Files (Disk)
open Meta (MetaError Backend Op Req Resp Process Deployment Cluster pathOf stagedPath served_disk
  served_answered)
open Storage (LocalPath)

/-- Where the key is. -/
def keyPath : LocalPath := pathOf keyName

/-- Where a process of this number stages a key. -/
abbrev stagedKey (number n : Nat) : LocalPath := stagedPath keyName number n

theorem stagedKey_ne_keyPath (number n : Nat) : stagedKey number n ≠ keyPath :=
  Meta.stagedPath_ne_pathOf keyName number n

/-! ## What a thread has on its hands -/

inductive Phase where
  | idle
  /-- It opened the key. -/
  | holding (file : Nat)
  | read (key : Bytes)
  /-- It found no key. -/
  | absent
  | numbered (n : Nat)
  | created (n file : Nat)
  | written (n file : Nat)
  /-- It has linked its file, or could not. -/
  | linked (n : Nat)
  | spent

namespace Phase

/-- The count it stages under. -/
def number? : Phase → Option Nat
  | numbered n => some n
  | created n _ => some n
  | written n _ => some n
  | linked n => some n
  | _ => none

/-- What a request leaves. -/
def next (phase : Phase) : (r : Req) → Resp r → Phase
  | .disk (.openFile _), .ok file => holding file
  | .disk (.openFile _), .error .notFound => absent
  | .disk (.openFile _), .error _ => spent
  | .disk (.readAll _), .ok key => read key
  | .disk (.readAll _), .error _ => spent
  | .staged, n => numbered n
  | .disk (.create _), .ok file =>
      match phase with
      | numbered n => created n file
      | _ => spent
  | .disk (.create _), .error _ => spent
  | .disk (.write _ _), .ok () =>
      match phase with
      | created n file => written n file
      | _ => spent
  | .disk (.write _ _), .error _ => spent
  | .disk (.link _ _), _ =>
      match phase with
      | written n _ => linked n
      | _ => spent
  | .disk (.unlink _), _ => spent
  | _, _ => phase

/-- What a thread of a process may ask. -/
def Allows (phase : Phase) (number : Nat) : Req → Prop
  | .disk (.openFile path) => path = keyPath
  | .disk (.readAll file) => phase = holding file
  | .disk (.random _) => True
  | .disk (.createDirAll _) => True
  | .staged => phase = absent
  | .disk (.create path) => ∃ n, phase = numbered n ∧ path = stagedKey number n
  | .disk (.write file key) => ∃ n, phase = created n file ∧ key.length = keyLength
  | .disk (.link source target) =>
      ∃ n file, phase = written n file ∧ source = stagedKey number n ∧ target = keyPath
  | .disk (.unlink path) => ∃ n, phase = linked n ∧ path = stagedKey number n
  | _ => False

/-- What it read is what the key is. -/
def Told (disk : Disk Text) : Phase → Prop
  | holding file => disk.inode keyPath = some file
  | read key => ∃ f, disk.find keyPath = some f ∧ f.bytes = key
  | _ => True

/-- What it has on its hands is not the key. -/
def Working (p : Process) (store : Meta.World Process) : Phase → Prop
  | absent => ∀ file n, store.disk.inode keyPath = some file →
      store.disk.inode (stagedKey p.number n) = some file → n < store.staged p
  | numbered n => ∀ file, store.disk.inode keyPath = some file →
      store.disk.inode (stagedKey p.number n) ≠ some file
  | created n file => store.disk.inode (stagedKey p.number n) = some file ∧
      store.disk.inode keyPath ≠ some file
  | written n file => store.disk.inode (stagedKey p.number n) = some file ∧
      store.disk.inode keyPath ≠ some file ∧
      ∃ f, store.disk.file file = some f ∧ f.bytes.length = keyLength
  | _ => True

end Phase

/-! ## What a request changes -/

/-- Every key is one, and every staged file has one name beside the key's. -/
structure Tidy (disk : Disk Text) : Prop where
  key : ∀ f, disk.find keyPath = some f → f.bytes.length = keyLength
  staged : ∀ number n path file, disk.inode (stagedKey number n) = some file →
    disk.inode path = some file → path = stagedKey number n ∨ path = keyPath

/-- What a thread does to the disk when it stages under a count. -/
inductive Change (staged : LocalPath) (d d' : Disk Text) : Prop where
  | looks (h : d.Alike d')
  | added {time : Nat} (hfree : d.inode staged = none) (h : d' = d.add staged time)
  | filled {file time : Nat} {bytes : Bytes} (hfile : d.inode staged = some file)
      (hkey : d.inode keyPath ≠ some file) (h : d' = d.fill file bytes time)
  | linked {file : Nat} {f : Files.File} (hfile : d.inode staged = some file)
      (hfree : d.inode keyPath = none) (hf : d.file file = some f)
      (hlength : f.bytes.length = keyLength) (h : d' = d.link staged keyPath)
  | unlinked (h : d' = d.unname staged)

namespace Change

variable {staged path : LocalPath} {d d' : Disk Text} {file : Nat} {f : Files.File}

/-- The key stays, or a staged file becomes it. -/
theorem inode_key (h : Change staged d d') (hne : staged ≠ keyPath)
    (hfile : d'.inode keyPath = some file) :
    d.inode keyPath = some file ∨ d.inode keyPath = none ∧ d.inode staged = some file := by
  cases h with
  | looks h => exact Or.inl (by rw [← h.inode, hfile])
  | added hfree h =>
      rw [h, Disk.inode_add, if_neg hne.symm] at hfile
      exact Or.inl hfile
  | filled hstaged hkey h =>
      rw [h, Disk.inode_fill] at hfile
      exact Or.inl hfile
  | linked hstaged hfree hf hlength h =>
      rw [h, Disk.inode_link hstaged, if_pos rfl, Option.some.injEq] at hfile
      exact Or.inr ⟨hfree, hfile ▸ hstaged⟩
  | unlinked h =>
      rw [h, Disk.inode_unname, if_neg hne.symm] at hfile
      exact Or.inl hfile

theorem inode_other (h : Change staged d d') (hstaged : path ≠ staged) (hkey : path ≠ keyPath) :
    d'.inode path = d.inode path := by
  cases h with
  | looks h => exact h.inode path
  | added hfree h => rw [h, Disk.inode_add, if_neg hstaged]
  | filled hfile hkey h => rw [h, Disk.inode_fill]
  | linked hfile hfree hf hlength h => rw [h, Disk.inode_link hfile, if_neg hkey]
  | unlinked h => rw [h, Disk.inode_unname, if_neg hstaged]

/-- A staged name stays as it is, or it goes, or it is the name of a new file. -/
theorem inode_staged (h : Change staged d d') (hne : staged ≠ keyPath)
    (hfile : d'.inode staged = some file) :
    d.inode staged = some file ∨ file = d.files.length ∧ ∀ path, path ≠ staged →
      d'.inode path = d.inode path := by
  cases h with
  | looks h => exact Or.inl (by rw [← h.inode, hfile])
  | added hfree h =>
      rw [h, Disk.inode_add, if_pos rfl, Option.some.injEq] at hfile
      exact Or.inr ⟨hfile.symm, fun path hpath => by rw [h, Disk.inode_add, if_neg hpath]⟩
  | filled hstaged hkey h =>
      rw [h, Disk.inode_fill] at hfile
      exact Or.inl hfile
  | linked hstaged hfree hf hlength h =>
      rw [h, Disk.inode_link hstaged, if_neg hne] at hfile
      exact Or.inl hfile
  | unlinked h =>
      rw [h, Disk.inode_unname, if_pos rfl] at hfile
      cases hfile

/-- A file is written under its staged name. -/
theorem file_kept (h : Change staged d d') (hstaged : d.inode staged ≠ some file)
    (hf : d.file file = some f) : d'.file file = some f := by
  cases h with
  | looks h => rw [h.file, hf]
  | added hfree h =>
      have hlt : file < d.files.length := (List.getElem?_eq_some_iff.mp hf).1
      rw [h, Disk.file_add_old hlt, hf]
  | @filled written time bytes hfile hkey h =>
      have hdiff : file ≠ written := fun heq => hstaged (heq ▸ hfile)
      rw [h, Disk.file_fill_ne hdiff, hf]
  | linked hfile hfree hf' hlength h => rw [h, Disk.file_link, hf]
  | unlinked h => rw [h, Disk.file_unname, hf]

theorem key_kept (h : Change staged d d') (hne : staged ≠ keyPath)
    (hfile : d.inode keyPath = some file) : d'.inode keyPath = some file := by
  cases h with
  | looks h => rw [h.inode, hfile]
  | added hfree h => rw [h, Disk.inode_add, if_neg hne.symm, hfile]
  | filled hstaged hkey h => rw [h, Disk.inode_fill, hfile]
  | linked hstaged hfree hf hlength h =>
      rw [hfile] at hfree
      cases hfree
  | unlinked h => rw [h, Disk.inode_unname, if_neg hne.symm, hfile]

/-- The key stays what it is. -/
theorem find_key (h : Change staged d d') (hne : staged ≠ keyPath)
    (hf : d.find keyPath = some f) : d'.find keyPath = some f := by
  obtain ⟨file, hfile, hf⟩ := Disk.find_eq_some.mp hf
  refine Disk.find_eq_some.mpr ⟨file, h.key_kept hne hfile, ?_⟩
  cases h with
  | looks h => rw [h.file, hf]
  | added hfree h => rw [h, Disk.file_add_old (Disk.inode_lt hfile), hf]
  | @filled written time bytes hstaged hkey h =>
      have hdiff : file ≠ written := fun heq => hkey (heq ▸ hfile)
      rw [h, Disk.file_fill_ne hdiff, hf]
  | linked hstaged hfree hf' hlength h => rw [h, Disk.file_link, hf]
  | unlinked h => rw [h, Disk.file_unname, hf]

end Change

section

variable {p : Process} {phase : Phase} {store store' : Meta.World Process} {staged : LocalPath}
  {d d' : Disk Text} {number n : Nat}

theorem Tidy.change (h : Tidy d) (hchange : Change (stagedKey number n) d d') : Tidy d' where
  key := by
    intro f hf
    have hne := stagedKey_ne_keyPath number n
    obtain ⟨file, hfile, hf⟩ := Disk.find_eq_some.mp hf
    rcases hchange.inode_key hne hfile with hold | ⟨hnone, hstaged⟩
    · obtain ⟨f', hf'⟩ := Disk.exists_file hold
      have hkept := hchange.find_key hne (Disk.find_eq_some.mpr ⟨file, hold, hf'⟩)
      rw [Disk.find_of_inode hfile, hf, Option.some.injEq] at hkept
      exact h.key f (hkept ▸ Disk.find_eq_some.mpr ⟨file, hold, hf'⟩)
    · cases hchange with
      | linked hfile' hfree hf' hlength hd =>
          rw [hstaged, Option.some.injEq] at hfile'
          rw [hd, Disk.file_link, hfile', hf', Option.some.injEq] at hf
          exact hf ▸ hlength
      | looks hd =>
          rw [hd.inode, hnone] at hfile
          cases hfile
      | added hfree hd =>
          rw [hstaged] at hfree
          cases hfree
      | filled hfile' hkey hd =>
          rw [hd, Disk.inode_fill, hnone] at hfile
          cases hfile
      | unlinked hd =>
          rw [hd, Disk.inode_unname, if_neg hne.symm, hnone] at hfile
          cases hfile
  staged := by
    intro number' n' path file hstaged hpath
    have hne := stagedKey_ne_keyPath number n
    by_cases hkey : path = keyPath
    · exact Or.inr hkey
    · left
      have hold : ∀ path, path ≠ keyPath → d'.inode path = some file →
          d.inode path = some file ∨ path = stagedKey number n ∧ file = d.files.length := by
        intro path hpath hinode
        by_cases heq : path = stagedKey number n
        · subst heq
          exact (hchange.inode_staged hne hinode).imp_right fun h => ⟨rfl, h.1⟩
        · exact Or.inl (by rw [← hchange.inode_other heq hpath, hinode])
      rcases hold _ (stagedKey_ne_keyPath number' n') hstaged with hs | ⟨hs, hfile⟩
      · rcases hold _ hkey hpath with hp | ⟨-, hfile⟩
        · exact (h.staged number' n' path file hs hp).resolve_right hkey
        · exact absurd (Disk.inode_lt hs) (by omega)
      · rcases hold _ hkey hpath with hp | ⟨hp, -⟩
        · exact absurd (Disk.inode_lt hp) (by omega)
        · exact hp.trans hs.symm

theorem Phase.Told.beside (h : phase.Told d) (hchange : Change staged d d')
    (hne : staged ≠ keyPath) : phase.Told d' := by
  cases phase with
  | holding file => exact hchange.key_kept hne h
  | read key =>
      obtain ⟨f, hf, hkey⟩ := h
      exact ⟨f, hchange.find_key hne hf, hkey⟩
  | _ => trivial

/-- What another thread stages is not what a thread has on its hands. -/
theorem Phase.Working.beside (h : phase.Working p store)
    (hchange : Change (stagedKey number n) store.disk store'.disk) (htidy : Tidy store.disk)
    (hcount : store.staged p ≤ store'.staged p)
    (hnumber : ∀ m, phase.number? = some m → stagedKey p.number m ≠ stagedKey number n)
    (hdrawn : ∀ m, stagedKey p.number m = stagedKey number n → m < store.staged p) :
    phase.Working p store' := by
  have hne := stagedKey_ne_keyPath number n
  have hapart : ∀ m file, stagedKey p.number m ≠ stagedKey number n →
      store.disk.inode (stagedKey p.number m) = some file →
      store.disk.inode (stagedKey number n) ≠ some file := by
    intro m file hm hfile hstaged
    rcases htidy.staged number n _ file hstaged hfile with heq | heq
    · exact hm heq
    · exact stagedKey_ne_keyPath _ _ heq
  have hkey : ∀ m file, stagedKey p.number m ≠ stagedKey number n →
      store.disk.inode (stagedKey p.number m) = some file →
      store'.disk.inode keyPath = some file → store.disk.inode keyPath = some file := by
    intro m file hm hfile hinode
    rcases hchange.inode_key hne hinode with hold | ⟨-, hstaged⟩
    · exact hold
    · exact absurd hstaged (hapart m file hm hfile)
  have hsame : ∀ m, stagedKey p.number m ≠ stagedKey number n →
      store'.disk.inode (stagedKey p.number m) = store.disk.inode (stagedKey p.number m) :=
    fun m hm => hchange.inode_other hm (stagedKey_ne_keyPath _ _)
  cases phase with
  | absent =>
      intro file m hinode hfile
      by_cases hm : stagedKey p.number m = stagedKey number n
      · exact (hdrawn m hm).trans_le hcount
      · rw [hsame m hm] at hfile
        exact (h file m (hkey m file hm hfile hinode) hfile).trans_le hcount
  | numbered m =>
      intro file hinode hfile
      have hm := hnumber m rfl
      rw [hsame m hm] at hfile
      exact h file (hkey m file hm hfile hinode) hfile
  | created m file =>
      have hm := hnumber m rfl
      exact ⟨(hsame m hm).trans h.1, fun hinode => h.2 (hkey m file hm h.1 hinode)⟩
  | written m file =>
      have hm := hnumber m rfl
      obtain ⟨hfile, hnot, f, hf, hlength⟩ := h
      exact ⟨(hsame m hm).trans hfile, fun hinode => hnot (hkey m file hm hfile hinode), f,
        hchange.file_kept (hapart m file hm hfile) hf, hlength⟩
  | _ => trivial

theorem Phase.Working.alike (h : phase.Working p store) (hlooks : store.disk.Alike store'.disk)
    (hcount : store.staged p ≤ store'.staged p) : phase.Working p store' := by
  cases phase with
  | absent =>
      intro file m hinode hfile
      rw [hlooks.inode] at hinode hfile
      exact (h file m hinode hfile).trans_le hcount
  | numbered m =>
      intro file hinode
      rw [hlooks.inode] at hinode ⊢
      exact h file hinode
  | created m file =>
      rw [Phase.Working, hlooks.inode, hlooks.inode]
      exact h
  | written m file =>
      rw [Phase.Working, hlooks.inode, hlooks.inode, hlooks.file]
      exact h
  | _ => trivial

/-- What a thread does with what it has on its hands. -/
theorem Phase.changes {r : Files.Req Text} {answer : Files.Resp r} (h : phase.Working p store)
    (hallows : phase.Allows p.number (.disk r))
    (hdisk : Files.Faulty (fun _ => True) r store.disk answer d') :
    store.disk.Alike d' ∨
      ∃ n, phase.number? = some n ∧ Change (stagedKey p.number n) store.disk d' := by
  cases r with
  | create path =>
      obtain ⟨n, rfl, rfl⟩ := hallows
      rcases hdisk.create with ⟨file, time, hfile, -, -, hd⟩ | ⟨time, hfree, -, -, hd⟩ | ⟨-, -, rfl⟩
      · exact Or.inr ⟨n, rfl, .filled hfile (fun hkey => h file hkey hfile) hd⟩
      · exact Or.inr ⟨n, rfl, .added hfree hd⟩
      · exact Or.inl (.refl _)
  | write file key =>
      obtain ⟨n, rfl, -⟩ := hallows
      rcases hdisk.write with ⟨-, time, -, hd⟩ | ⟨-, -, short, time, -, -, hd⟩
      · exact Or.inr ⟨n, rfl, .filled h.1 h.2 hd⟩
      · exact Or.inr ⟨n, rfl, .filled h.1 h.2 hd⟩
  | link source target =>
      obtain ⟨n, file, rfl, rfl, rfl⟩ := hallows
      obtain ⟨hfile, -, f, hf, hlength⟩ := h
      rcases hdisk.link with ⟨i, -, hfree, -, hd⟩ | ⟨_, _, -, -, -, rfl⟩ | ⟨-, -, rfl⟩ |
        ⟨-, -, -, -, rfl⟩
      · exact Or.inr ⟨n, rfl, .linked hfile hfree hf hlength hd⟩
      · exact Or.inl (.refl _)
      · exact Or.inl (.refl _)
      · exact Or.inl (.refl _)
  | unlink path =>
      obtain ⟨n, rfl, rfl⟩ := hallows
      rcases hdisk.unlink with ⟨i, -, -, hd⟩ | ⟨-, -, rfl⟩ | ⟨-, -, rfl⟩
      · exact Or.inr ⟨n, rfl, .unlinked hd⟩
      · exact Or.inl (.refl _)
      · exact Or.inl (.refl _)
  | openFile path => exact Or.inl (hdisk.looks (by trivial))
  | readAll file => exact Or.inl (hdisk.looks (by trivial))
  | random count => exact Or.inl (hdisk.looks (by trivial))
  | createDirAll path => exact Or.inl (hdisk.looks (by trivial))
  | _ => cases hallows

variable {ι : Type} {process : ι → Process} {i : ι}

/-- **What a request leaves a thread** with is not the key, or it is what the key is. -/
theorem Phase.next_spec {r : Req} {answer : Resp r} (hallows : phase.Allows (process i).number r)
    (hworking : phase.Working (process i) store) (htold : phase.Told store.disk)
    (h : Meta.serves process i r store answer store') :
    (phase.next r answer).Working (process i) store' ∧ (phase.next r answer).Told store'.disk ∧
      ∀ n, (phase.next r answer).number? = some n → phase.number? = some n ∨
        n = store.staged (process i) ∧ store'.staged (process i) = n + 1 := by
  cases r with
  | bucket r => cases hallows
  | put key bytes => cases hallows
  | delete key => cases hallows
  | staged =>
      obtain ⟨rfl, rfl⟩ := h
      obtain rfl : phase = .absent := hallows
      refine ⟨fun file hkey hfile => ?_, trivial, fun n hn => Or.inr ?_⟩
      · exact absurd (hworking file _ hkey hfile) (lt_irrefl _)
      · cases hn
        exact ⟨rfl, Function.update_self _ _ _⟩
  | disk r =>
      obtain ⟨hcount, -, answer', hdisk⟩ := served_disk h
      cases r with
      | openFile path =>
          obtain rfl : path = keyPath := hallows
          cases answer with
          | ok file =>
              refine ⟨trivial, ?_, fun n hn => by cases hn⟩
              obtain ⟨hd, ⟨j, hj, heq⟩ | ⟨-, heq⟩ | ⟨-, heq⟩⟩ :=
                (served_answered (by nofun) h).openFile
              · cases heq
                rw [hd]
                exact hj
              · cases heq
              · cases heq
          | error e =>
              cases e with
              | notFound =>
                  refine ⟨fun file n hkey => ?_, trivial, fun n hn => by cases hn⟩
                  obtain ⟨hd, ⟨j, -, heq⟩ | ⟨hnone, -⟩ | ⟨-, heq⟩⟩ :=
                    (served_answered (by nofun) h).openFile
                  · cases heq
                  · rw [hd, hnone] at hkey
                    cases hkey
                  · cases heq
              | alreadyExists => exact ⟨trivial, trivial, fun n hn => by cases hn⟩
              | other => exact ⟨trivial, trivial, fun n hn => by cases hn⟩
      | readAll file =>
          obtain rfl : phase = .holding file := hallows
          cases answer with
          | ok key =>
              refine ⟨trivial, ?_, fun n hn => by cases hn⟩
              obtain ⟨hd, ⟨f, hf, heq⟩ | heq⟩ := (served_answered (by nofun) h).readAll
              · cases heq
                rw [← hd] at htold hf
                exact ⟨f, Disk.find_eq_some.mpr ⟨file, htold, hf⟩, rfl⟩
              · cases heq
          | error e => exact ⟨trivial, trivial, fun n hn => by cases hn⟩
      | random count =>
          have hlooks := hdisk.looks (by trivial)
          exact ⟨hworking.alike hlooks (congrFun hcount _).ge,
            htold.beside (.looks hlooks) (stagedKey_ne_keyPath 0 0), fun n hn => Or.inl hn⟩
      | createDirAll path =>
          have hlooks := hdisk.looks (by trivial)
          exact ⟨hworking.alike hlooks (congrFun hcount _).ge,
            htold.beside (.looks hlooks) (stagedKey_ne_keyPath 0 0), fun n hn => Or.inl hn⟩
      | create path =>
          obtain ⟨n, rfl, rfl⟩ := hallows
          have hne := stagedKey_ne_keyPath (process i).number n
          cases answer with
          | error e => exact ⟨trivial, trivial, fun n hn => by cases hn⟩
          | ok file =>
              refine ⟨?_, trivial, fun n hn => Or.inl hn⟩
              rcases (served_answered (by nofun) h).create with
                ⟨j, time, hfile, heq, -, hd⟩ | ⟨time, hfree, heq, -, hd⟩ | ⟨-, heq, -⟩
              · cases heq
                rw [next, Working, hd, Disk.inode_fill, Disk.inode_fill]
                exact ⟨hfile, fun hkey => hworking file hkey hfile⟩
              · cases heq
                rw [next, Working, hd, Disk.inode_add, Disk.inode_add, if_pos rfl, if_neg hne.symm]
                exact ⟨rfl, fun hkey => absurd (Disk.inode_lt hkey) (lt_irrefl _)⟩
              · cases heq
      | write file key =>
          obtain ⟨n, rfl, hlength⟩ := hallows
          cases answer with
          | error e => exact ⟨trivial, trivial, fun n hn => by cases hn⟩
          | ok done =>
              refine ⟨?_, trivial, fun n hn => Or.inl hn⟩
              rcases (served_answered (by nofun) h).write with ⟨-, time, -, hd⟩ | ⟨-, heq, -⟩
              · rw [next, Working, hd, Disk.inode_fill, Disk.inode_fill,
                  Disk.file_fill_self (Disk.inode_lt hworking.1)]
                exact ⟨hworking.1, hworking.2, _, rfl, hlength⟩
              · cases heq
      | link source target =>
          obtain ⟨n, file, rfl, -, -⟩ := hallows
          exact ⟨trivial, trivial, fun n hn => Or.inl hn⟩
      | unlink path => exact ⟨trivial, trivial, fun n hn => by cases hn⟩
      | _ => cases hallows

end

/-! ## The invariant -/

abbrev Past (ι : Type) := Log ι Req Resp

section

variable {ι : Type} [DecidableEq ι]

/-- What a thread has on its hands. -/
def phaseOf (i : ι) : Past ι → Phase := trail Phase.next .idle i

theorem phaseOf_own (i : ι) (r : Req) (answer : Resp r) (past : Past ι) :
    phaseOf i (⟨i, r, answer⟩ :: past) = (phaseOf i past).next r answer :=
  trail_own r answer past

/-- What a thread that stages a key has on its hands. -/
def staging : Meta.Discipline Phase where
  Idle phase := phase = .idle
  number? := Phase.number?
  Working p store phase := phase.Working p store
  idle h := by rw [h]; trivial

/-- Nobody has the key on its hands, but to read it. -/
structure Agreed (process : ι → Process) (w : Cluster × Past ι) : Prop where
  tidy : Tidy w.1.store.disk
  kept : staging.Kept process w.1 fun i => phaseOf i w.2
  told : ∀ i, (phaseOf i w.2).Told w.1.store.disk

variable {process : ι → Process} {i : ι} {r : Req} {answer : Resp r} {w : Cluster × Past ι}
  {w' : Cluster}

omit [DecidableEq ι] in
/-- What a request does to the disk. -/
theorem served_changes {store store' : Meta.World Process} {phase : Phase}
    (hallows : phase.Allows (process i).number r) (hworking : phase.Working (process i) store)
    (h : Meta.serves process i r store answer store') :
    store.disk.Alike store'.disk ∨ ∃ n, phase.number? = some n ∧
      Change (stagedKey (process i).number n) store.disk store'.disk := by
  cases r with
  | bucket r => cases hallows
  | put key bytes => cases hallows
  | delete key => cases hallows
  | staged =>
      obtain ⟨-, rfl⟩ := h
      exact Or.inl (.refl _)
  | disk r =>
      obtain ⟨-, -, answer', hdisk⟩ := served_disk h
      exact Phase.changes hworking hallows hdisk

theorem Agreed.step (hw : Agreed process w) (hallows : (phaseOf i w.2).Allows (process i).number r)
    (hstep : Deployment.volume.serves process i r w.1 answer w') :
    Agreed process (w', ⟨i, r, answer⟩ :: w.2) := by
  have hown := hw.kept.own hstep
  obtain ⟨hworking, htold, hnumber⟩ := Phase.next_spec hallows hown (hw.told i) hstep.1
  have hchanges := served_changes hallows hown hstep.1
  constructor
  case tidy =>
    rcases hchanges with hlooks | ⟨n, -, hchange⟩
    · exact hw.tidy.change (Change.looks hlooks : Change (stagedKey 0 0) _ _)
    · exact hw.tidy.change hchange
  case kept =>
    have hcount := Meta.served_counts hstep.1
    have hkept := hw.kept.step hstep hworking hnumber fun j hjs hapart => by
      rcases hchanges with hlooks | ⟨n, hn, hchange⟩
      · exact Phase.Working.alike hjs hlooks (hcount _)
      · refine Phase.Working.beside hjs hchange hw.tidy (hcount _) (fun m hm heq => ?_)
          (fun m heq => ?_)
        · obtain ⟨hsame, rfl⟩ := Meta.stagedPath_inj heq
          exact hapart.distinct m m hm hn hsame rfl
        · obtain ⟨hsame, rfl⟩ := Meta.stagedPath_inj heq
          exact hapart.drawn m hn hsame
    have hphases : (fun j => phaseOf j (⟨i, r, answer⟩ :: w.2)) =
        Function.update (fun j => phaseOf j w.2) i ((phaseOf i w.2).next r answer) :=
      trail_cons i r answer w.2
    rw [hphases]
    exact hkept
  case told =>
    intro j
    by_cases hj : i = j
    · subst hj
      rw [phaseOf_own]
      exact htold
    · have hbeside : phaseOf j (⟨i, r, answer⟩ :: w.2) = phaseOf j w.2 :=
        trail_other hj r answer w.2
      rw [hbeside]
      rcases hchanges with hlooks | ⟨n, -, hchange⟩
      · exact (hw.told j).beside (.looks hlooks) (stagedKey_ne_keyPath 0 0)
      · exact (hw.told j).beside hchange (stagedKey_ne_keyPath _ _)

/-! ## Operations -/

variable (process) in
def onVolume : Ledger ι Req Resp Cluster (Event ι Req Resp) where
  exec := Deployment.volume.serves process
  entry i r _ answer := ⟨i, r, answer⟩
  Allowed i past r := (phaseOf i past).Allows (process i).number r
  Sound := Agreed process
  step hw hallowed hexec := hw.step hallowed hexec

theorem onVolume_logs : (onVolume process).Logs := fun _ _ _ _ => rfl

theorem stays_phase (p : Phase → Prop) : (onVolume process).Stays i fun past =>
    p (phaseOf i past) :=
  onVolume_logs.stays p

section Among

variable {w : Cluster × Past ι}

/-- What a thread has on its hands once it was answered. -/
theorem onDisk_among {α : Type} {r : Files.Req Text} {h : Files.Resp r = Except Files.Refused α}
    {phase : Phase} {Q : α → Phase → Prop} (hallows : phase.Allows (process i).number (.disk r))
    (hQ : ∀ a, Q a (phase.next (.disk r) (cast h.symm (.ok a))))
    (hw : Agreed process w) (hphase : phaseOf i w.2 = phase) :
    (onVolume process).Among i (fun a past => Q a (phaseOf i past))
      (Meta.io (Meta.onDisk r h)) w := by
  refine Ledger.Among.mapError (fun a => stays_phase (Q a))
    (Ledger.Among.trailing onVolume_logs ?_ hQ hw hphase)
  rintro past rfl
  exact hallows

/-- What opening the key tells. -/
def Phase.Opens (phase : Phase) : Except Files.Refused Nat → Prop
  | .ok file => phase = .holding file
  | .error .notFound => phase = .absent
  | .error _ => True

/-- What reading the key tells. -/
def Phase.Reads (phase : Phase) : Except Files.Refused Bytes → Prop
  | .ok key => phase = .read key
  | .error .notFound => phase = .absent
  | .error _ => True

theorem readFile_tells (hw : Agreed process w) :
    (onVolume process).Tells i (fun answer past => (phaseOf i past).Reads answer)
      (Meta.readFile keyPath) w := by
  refine Ledger.Tells.bind (P := fun answer past => (phaseOf i past).Opens answer)
    (Ledger.Tells.trailing (Q := fun answer (phase : Phase) => phase.Opens answer) onVolume_logs
      ?_ ?_ hw rfl) ?_ ?_ ?_
  · exact fun past _ => rfl
  · intro s answer s' h
    cases answer with
    | ok file => rfl
    | error e => cases e <;> first | rfl | trivial
  · intro file w hw hphase
    refine Ledger.Tells.trailing (Q := fun answer (phase : Phase) => phase.Reads answer)
      onVolume_logs ?_ ?_
      hw hphase
    · intro past hphase
      exact hphase
    · intro s answer s' h
      cases answer with
      | ok key => rfl
      | error e =>
          cases e with
          | notFound =>
              rcases (served_answered (by nofun) h.1).readAll with ⟨-, ⟨f, -, heq⟩ | heq⟩
              · cases heq
              · cases heq
          | alreadyExists => trivial
          | other => trivial
  · exact fun e => stays_phase fun phase => phase.Reads (.error e)
  · intro e past h
    cases e with
    | notFound => exact h
    | alreadyExists => trivial
    | other => trivial

/-- The key that was read, or that there is none. -/
def Phase.Finds (phase : Phase) : Option Bytes → Prop
  | some key => phase = .read key
  | none => phase = .absent

theorem readMeta_among (number : Nat) (hw : Agreed process w) :
    (onVolume process).Among i (fun found past => (phaseOf i past).Finds found)
      ((Backend.local number).readMeta keyName) w := by
  refine Ledger.Tells.caught (readFile_tells hw) fun answer w hw hreads => ?_
  cases answer with
  | ok key => exact Ledger.Among.pure (stays_phase (·.Finds (some key))) hw hreads
  | error e =>
      cases e with
      | notFound => exact Ledger.Among.pure (stays_phase (·.Finds none)) hw hreads
      | alreadyExists => exact Ledger.Among.throw hw
      | other => exact Ledger.Among.throw hw

theorem valid_among {key : Bytes} (hw : Agreed process w) (hread : phaseOf i w.2 = .read key) :
    (onVolume process).Among i
      (fun key past => phaseOf i past = .read key ∧ key.length = keyLength) (valid key) w := by
  rw [valid]
  split
  case isTrue hlength =>
    exact Ledger.Among.pure (stays_phase fun phase => phase = .read key ∧ key.length = keyLength)
      hw ⟨hread, hlength⟩
  case isFalse => exact Ledger.Among.throw hw

/-- A key is staged whole. -/
theorem stage_among {key : Bytes} (hlength : key.length = keyLength) (hw : Agreed process w)
    (habsent : phaseOf i w.2 = .absent) :
    (onVolume process).Among i
      (fun staged past => ∃ n file, phaseOf i past = .written n file ∧
        staged = stagedKey (process i).number n)
      (Meta.stage (process i).number keyName key) w := by
  refine Ledger.Among.bind (onDisk_among (Q := fun _ phase => phase = .absent) trivial
    (fun _ => rfl) hw habsent) fun _ w hw habsent => ?_
  refine Ledger.Among.bind (Ledger.Among.trailing_certain (Q := fun n phase => phase = .numbered n)
    onVolume_logs (fun _ h => h) (fun _ => rfl) hw habsent) fun n w hw hnumbered => ?_
  refine Ledger.Among.bind (onDisk_among (Q := fun file phase => phase = .created n file)
    ⟨n, rfl, rfl⟩ (fun _ => rfl) hw hnumbered) fun file w hw hcreated => ?_
  refine Ledger.Among.bind (onDisk_among (Q := fun _ phase => phase = .written n file)
    ⟨n, rfl, hlength⟩ (fun _ => rfl) hw hcreated) fun _ w hw hwritten => ?_
  exact Ledger.Among.pure (stays_phase fun phase => ∃ m file, phase = .written m file ∧
    stagedKey (process i).number n = stagedKey (process i).number m) hw ⟨n, file, hwritten, rfl⟩

theorem createMeta_among {key : Bytes} (hlength : key.length = keyLength) (hw : Agreed process w)
    (habsent : phaseOf i w.2 = .absent) :
    (onVolume process).Among i (fun _ _ => True)
      ((Backend.local (process i).number).createMeta keyName key) w := by
  refine Ledger.Among.bind (stage_among hlength hw habsent) fun staged w hw hstaged => ?_
  obtain ⟨n, file, hwritten, rfl⟩ := hstaged
  refine Ledger.Tells.caught (Ledger.Tells.trailing (Q := fun _ phase => phase = .linked n)
    onVolume_logs (fun _ h => ⟨n, file, h, rfl, rfl⟩) (fun _ _ _ _ => rfl) hw hwritten)
    fun linked w hw hlinked => ?_
  refine Ledger.Tells.caught (Ledger.Tells.trailing (Q := fun _ _ => True)
    onVolume_logs (fun _ h => ⟨n, h, rfl⟩) (fun _ _ _ _ => trivial) hw hlinked) fun _ w hw _ => ?_
  have hstays : ∀ made : Bool, (onVolume process).Stays i fun _ => True :=
    fun _ => stays_phase fun _ => True
  cases linked with
  | ok done => exact Ledger.Among.pure (hstays true) hw trivial
  | error e =>
      cases e with
      | alreadyExists => exact Ledger.Among.pure (hstays false) hw trivial
      | notFound => exact Ledger.Among.throw hw
      | other => exact Ledger.Among.throw hw

/-- **A key that is returned** is the key of the volume. -/
theorem keptKey_among (hw : Agreed process w) :
    (onVolume process).Among i
      (fun key past => phaseOf i past = .read key ∧ key.length = keyLength)
      (keptKey (.local (process i).number)) w := by
  refine Ledger.Among.bind (readMeta_among _ hw) fun found w hw hfound => ?_
  cases found with
  | some key => exact valid_among hw hfound
  | none =>
      refine Ledger.Among.bind (Ledger.Among.trailing_certain (Q := fun _ phase => phase = .absent)
        onVolume_logs (fun _ _ => trivial) (fun _ => rfl) hw hfound) fun fresh w hw habsent => ?_
      refine Ledger.Among.bind (createMeta_among fresh.2 hw habsent) fun _ w hw _ => ?_
      refine Ledger.Among.bind (readMeta_among _ hw) fun found w hw hfound => ?_
      cases found with
      | some key => exact valid_among hw hfound
      | none => exact Ledger.Among.throw hw

end Among

end

end Lfsx.Console.Session
