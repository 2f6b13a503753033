import Lfsx.Console.Tokens

/-!
# The list of tokens on a volume

A list is staged and renamed to its place.  What a thread has staged has one name (`Tidy`), so
it is not the list and nobody else's, and what is renamed is what the thread wrote
(`Hands.Working`).  So the list changes when it is renamed over, and then to what the thread
wants there (`Hands.changes`, `Change.find_list`).
-/

namespace Lfsx.Console.Tokens

open Request
open Files (Disk)
open Meta (MetaError Backend Req Resp Process Deployment Cluster Store pathOf keyOf stagedPath
  served_disk served_answered)
open Storage (LocalPath)

/-- Where the list is. -/
def listPath : LocalPath := pathOf fileName

/-- Where a process of this number stages a list. -/
abbrev stagedList (number n : Nat) : LocalPath := stagedPath fileName number n

theorem stagedList_ne_listPath (number n : Nat) : stagedList number n ≠ listPath :=
  Meta.stagedPath_ne_pathOf fileName number n

/-! ## What a thread has on its hands -/

inductive Hands where
  | free
  /-- It opened the list. -/
  | holding (file : Nat)
  | numbered (n : Nat)
  | created (n file : Nat)
  | written (n file : Nat) (bytes : Bytes)
  /-- The list is what it wrote. -/
  | wrote (bytes : Bytes)
  /-- A write was refused. -/
  | spent

namespace Hands

def number? : Hands → Option Nat
  | numbered n => some n
  | created n _ => some n
  | written n _ _ => some n
  | _ => none

def next (hands : Hands) : (r : Req) → Resp r → Hands
  | .disk (.openFile _), .ok file => holding file
  | .disk (.openFile _), .error _ => free
  | .disk (.readAll _), _ => free
  | .staged, n => numbered n
  | .disk (.create _), .ok file =>
      match hands with
      | numbered n => created n file
      | _ => spent
  | .disk (.create _), .error _ => spent
  | .disk (.write _ bytes), .ok () =>
      match hands with
      | created n file => written n file bytes
      | _ => spent
  | .disk (.write _ _), .error _ => spent
  | .disk (.rename _ _), .ok () =>
      match hands with
      | written _ _ bytes => wrote bytes
      | _ => spent
  | .disk (.rename _ _), .error _ => spent
  | .put _ bytes, .ok () => wrote bytes
  | .put _ _, .error _ => spent
  | _, _ => hands

/-- What is staged is not the list. -/
def Working (p : Process) (store : Meta.World Process) : Hands → Prop
  | created n file => store.disk.inode (stagedList p.number n) = some file
  | written n file bytes => store.disk.inode (stagedList p.number n) = some file ∧
      ∃ f, store.disk.file file = some f ∧ f.bytes = bytes
  | _ => True

/-- What a thread of a deployment may ask that wants to write `wants`. -/
def Allows (hands : Hands) (deployment : Deployment) (number : Nat) (wants : Bytes → Prop) :
    Req → Prop
  | .disk (.random _) => hands = free
  | .disk .now => hands = free
  | .disk (.createDirAll _) => hands = free
  | .bucket (.get key) => deployment = .bucket ∧ key = keyOf fileName ∧ hands = free
  | .put key bytes => deployment = .bucket ∧ key = keyOf fileName ∧ hands = free ∧ wants bytes
  | .disk (.openFile path) => deployment = .volume ∧ path = listPath ∧ hands = free
  | .disk (.readAll file) => hands = holding file
  | .staged => deployment = .volume ∧ hands = free
  | .disk (.create path) =>
      deployment = .volume ∧ ∃ n, hands = numbered n ∧ path = stagedList number n
  | .disk (.write file bytes) => deployment = .volume ∧ ∃ n, hands = created n file ∧ wants bytes
  | .disk (.rename source target) => deployment = .volume ∧ ∃ n file bytes,
      hands = written n file bytes ∧ wants bytes ∧ source = stagedList number n ∧ target = listPath
  | _ => False

end Hands

/-- What a thread that stages a list has on its hands. -/
def staging : Meta.Discipline Hands where
  Idle hands := hands.number? = none
  number? := Hands.number?
  Working p store hands := hands.Working p store
  idle := by
    intro p store hands h
    cases hands with
    | created n file => cases h
    | written n file bytes => cases h
    | _ => trivial

/-! ## What a request changes on a volume -/

/-- A staged file has one name. -/
def Tidy (disk : Disk Text) : Prop :=
  ∀ number n path file, disk.inode (stagedList number n) = some file →
    disk.inode path = some file → path = stagedList number n

/-- What a thread does to the disk when it stages under a count, and the list it puts in its
place. -/
inductive Change (staged : LocalPath) (d d' : Disk Text) : Option Bytes → Prop where
  | looks (h : d.Alike d') : Change staged d d' none
  | added {time : Nat} (hfree : d.inode staged = none) (h : d' = d.add staged time) :
      Change staged d d' none
  | filled {file time : Nat} {bytes : Bytes} (hfile : d.inode staged = some file)
      (h : d' = d.fill file bytes time) : Change staged d d' none
  | renamed {file : Nat} {f : Files.File} (hfile : d.inode staged = some file)
      (hf : d.file file = some f) (h : d' = d.rename staged listPath) :
      Change staged d d' (some f.bytes)

section

variable {p : Process} {hands : Hands} {store store' : Meta.World Process} {d d' : Disk Text}
  {number n : Nat} {placed : Option Bytes}

/-- The list is what it was, or what was placed. -/
theorem Change.find_list (h : Change (stagedList number n) d d' placed) (htidy : Tidy d) :
    (d'.find listPath).map Files.File.bytes =
      placed.or ((d.find listPath).map Files.File.bytes) := by
  have hne := stagedList_ne_listPath number n
  cases h with
  | looks h => rw [h.find, Option.none_or]
  | added hfree h => rw [h, Disk.find_add hne.symm, Option.none_or]
  | @filled file time bytes hfile h =>
      have hlist : d.inode listPath ≠ some file := fun hlist =>
        hne.symm (htidy number n listPath file hfile hlist)
      rw [h, Disk.find_fill hlist, Option.none_or]
  | renamed hfile hf h =>
      rw [h, Disk.find_rename_target hfile, hf]
      rfl

/-- Where a rename leaves a path that is not the list. -/
theorem Change.inode_renamed {file : Nat} {path : LocalPath} (htidy : Tidy d)
    (hfile : d.inode (stagedList number n) = some file) (hpath : path ≠ listPath) :
    (d.rename (stagedList number n) listPath).inode path =
      if path = stagedList number n then none else d.inode path := by
  have hdiffer : d.inode (stagedList number n) ≠ d.inode listPath := fun hsame =>
    stagedList_ne_listPath number n (htidy number n listPath file hfile (hsame ▸ hfile)).symm
  rw [Disk.inode_rename hfile hdiffer, if_neg hpath]

/-- Another name stays as it is. -/
theorem Change.inode_other {path : LocalPath} (h : Change (stagedList number n) d d' placed)
    (htidy : Tidy d) (hstaged : path ≠ stagedList number n) (hlist : path ≠ listPath) :
    d'.inode path = d.inode path := by
  cases h with
  | looks h => exact h.inode path
  | added hfree h => rw [h, Disk.inode_add, if_neg hstaged]
  | filled hfile h => rw [h, Disk.inode_fill]
  | renamed hfile hf h => rw [h, Change.inode_renamed htidy hfile hlist, if_neg hstaged]

/-- Another file stays as it is. -/
theorem Change.file_other {file : Nat} {f : Files.File}
    (h : Change (stagedList number n) d d' placed)
    (hstaged : d.inode (stagedList number n) ≠ some file) (hf : d.file file = some f) :
    d'.file file = some f := by
  cases h with
  | looks h => rw [h.file, hf]
  | added hfree h => rw [h, Disk.file_add_old (List.getElem?_eq_some_iff.mp hf).1, hf]
  | @filled other time bytes hfile h =>
      have hdiff : file ≠ other := fun heq => hstaged (heq ▸ hfile)
      rw [h, Disk.file_fill_ne hdiff, hf]
  | renamed hfile hf' h => rw [h, Disk.file_rename, hf]

/-- Where a name that is not the list's comes from. -/
theorem Change.inode_before {path : LocalPath} {file : Nat}
    (h : Change (stagedList number n) d d' placed) (htidy : Tidy d) (hlist : path ≠ listPath)
    (hfile : d'.inode path = some file) :
    d.inode path = some file ∨ path = stagedList number n ∧ file = d.files.length := by
  by_cases hstaged : path = stagedList number n
  · subst hstaged
    cases h with
    | looks h => exact Or.inl (by rw [← h.inode, hfile])
    | added hfree h =>
        rw [h, Disk.inode_add, if_pos rfl, Option.some.injEq] at hfile
        exact Or.inr ⟨rfl, hfile.symm⟩
    | filled hstaged h =>
        rw [h, Disk.inode_fill] at hfile
        exact Or.inl hfile
    | renamed hstaged hf h =>
        rw [h, Change.inode_renamed htidy hstaged hlist, if_pos rfl] at hfile
        cases hfile
  · exact Or.inl ((h.inode_other htidy hstaged hlist).symm.trans hfile)

/-- The list's name stays, or it is the name that was staged. -/
theorem Change.inode_list {file : Nat} (h : Change (stagedList number n) d d' placed)
    (htidy : Tidy d) (hfile : d'.inode listPath = some file) :
    d.inode listPath = some file ∨
      d.inode (stagedList number n) = some file ∧ d'.inode (stagedList number n) = none := by
  have hne := stagedList_ne_listPath number n
  cases h with
  | looks h => exact Or.inl (by rw [← h.inode, hfile])
  | added hfree h =>
      rw [h, Disk.inode_add, if_neg hne.symm] at hfile
      exact Or.inl hfile
  | filled hstaged h =>
      rw [h, Disk.inode_fill] at hfile
      exact Or.inl hfile
  | @renamed staged f hstaged hf h =>
      have hdiffer : d.inode (stagedList number n) ≠ d.inode listPath := fun hsame =>
        hne (htidy number n listPath staged hstaged (hsame ▸ hstaged)).symm
      rw [h, Disk.inode_rename hstaged hdiffer, if_neg hne.symm, if_pos rfl,
        Option.some.injEq] at hfile
      rw [h, Change.inode_renamed htidy hstaged hne, if_pos rfl]
      exact Or.inr ⟨hfile ▸ hstaged, rfl⟩

theorem Tidy.change (h : Tidy d) (hchange : Change (stagedList number n) d d' placed) :
    Tidy d' := by
  intro number' n' path file hstaged hpath
  have hne := stagedList_ne_listPath number' n'
  by_cases hlist : path = listPath
  · -- The list and a staged file have one name each.
    exfalso
    subst hlist
    rcases hchange.inode_before h hne hstaged with hs | ⟨-, rfl⟩
    · rcases hchange.inode_list h hpath with hp | ⟨hp, hgone⟩
      · exact hne (h number' n' _ file hs hp).symm
      · rw [h number' n' _ file hs hp, hstaged] at hgone
        cases hgone
    · rcases hchange.inode_list h hpath with hp | ⟨hp, -⟩
      · exact absurd (Disk.inode_lt hp) (lt_irrefl _)
      · exact absurd (Disk.inode_lt hp) (lt_irrefl _)
  · rcases hchange.inode_before h hne hstaged with hs | ⟨hs, rfl⟩
    · rcases hchange.inode_before h hlist hpath with hp | ⟨-, rfl⟩
      · exact h number' n' path file hs hp
      · exact absurd (Disk.inode_lt hs) (lt_irrefl _)
    · rcases hchange.inode_before h hlist hpath with hp | ⟨hp, -⟩
      · exact absurd (Disk.inode_lt hp) (lt_irrefl _)
      · exact hp.trans hs.symm

/-- What another thread stages leaves what a thread has staged alone. -/
theorem Hands.Working.beside (h : hands.Working p store)
    (hchange : Change (stagedList number n) store.disk store'.disk placed)
    (htidy : Tidy store.disk)
    (hnumber : ∀ m, hands.number? = some m → stagedList p.number m ≠ stagedList number n) :
    hands.Working p store' := by
  have hsame : ∀ m, hands.number? = some m →
      store'.disk.inode (stagedList p.number m) = store.disk.inode (stagedList p.number m) :=
    fun m hm => hchange.inode_other htidy (hnumber m hm) (stagedList_ne_listPath _ _)
  cases hands with
  | created m file => exact (hsame m rfl).trans h
  | written m file bytes =>
      obtain ⟨hfile, f, hf, hbytes⟩ := h
      refine ⟨(hsame m rfl).trans hfile, f, hchange.file_other (fun hstaged => ?_) hf, hbytes⟩
      exact hnumber m rfl (htidy number n _ file hstaged hfile)
  | _ => trivial

/-- **What a request does** on a volume: the disk changes under the count of the thread, and
what is placed is what the thread wants. -/
theorem Hands.changes {ι : Type} {process : ι → Process} {i : ι} {r : Req} {answer : Resp r}
    {wants : Bytes → Prop} (hallows : hands.Allows .volume (process i).number wants r)
    (hworking : hands.Working (process i) store)
    (h : Meta.serves process i r store answer store') :
    ∃ n placed, (store.disk.Alike store'.disk ∨ hands.number? = some n) ∧
      Change (stagedList (process i).number n) store.disk store'.disk placed ∧
      ∀ bytes, placed = some bytes → wants bytes ∧ Writes r := by
  have hlooks : ∀ hlooks : store.disk.Alike store'.disk, ∃ n placed,
      (store.disk.Alike store'.disk ∨ hands.number? = some n) ∧
        Change (stagedList (process i).number n) store.disk store'.disk placed ∧
        ∀ bytes, placed = some bytes → wants bytes ∧ Writes r :=
    fun h => ⟨0, none, Or.inl h, .looks h, fun _ hplaced => by cases hplaced⟩
  cases r with
  | bucket r => cases r <;> first | exact absurd hallows.1 (by decide) | cases hallows
  | put key bytes => exact absurd hallows.1 (by decide)
  | delete key => cases hallows
  | staged =>
      obtain ⟨-, rfl⟩ := h
      exact hlooks (.refl _)
  | disk r =>
      obtain ⟨-, -, answer', hdisk⟩ := served_disk h
      cases r with
      | create path =>
          obtain ⟨-, n, rfl, rfl⟩ := hallows
          rcases hdisk.create with ⟨file, time, hfile, -, -, hd⟩ | ⟨time, hfree, -, -, hd⟩ |
            ⟨-, -, hd⟩
          · exact ⟨n, none, Or.inr rfl, .filled hfile hd, fun _ hplaced => by cases hplaced⟩
          · exact ⟨n, none, Or.inr rfl, .added hfree hd, fun _ hplaced => by cases hplaced⟩
          · exact hlooks (hd ▸ .refl _)
      | write file bytes =>
          obtain ⟨-, n, rfl, -⟩ := hallows
          rcases hdisk.write with ⟨-, time, -, hd⟩ | ⟨-, -, short, time, -, -, hd⟩
          · exact ⟨n, none, Or.inr rfl, .filled hworking hd, fun _ hplaced => by cases hplaced⟩
          · exact ⟨n, none, Or.inr rfl, .filled hworking hd, fun _ hplaced => by cases hplaced⟩
      | rename source target =>
          obtain ⟨-, n, file, bytes, rfl, hwants, rfl, rfl⟩ := hallows
          obtain ⟨hfile, f, hf, rfl⟩ := hworking
          rcases hdisk.rename with ⟨_, -, -, hd⟩ | ⟨e, -, hd, -⟩
          · refine ⟨n, some f.bytes, Or.inr rfl, .renamed hfile hf hd, fun bytes hplaced => ?_⟩
            cases hplaced
            exact ⟨hwants, trivial⟩
          · exact hlooks (hd ▸ .refl _)
      | openFile path => exact hlooks (hdisk.looks (by trivial))
      | readAll file => exact hlooks (hdisk.looks (by trivial))
      | random count => exact hlooks (hdisk.looks (by trivial))
      | now => exact hlooks (hdisk.looks (by trivial))
      | createDirAll path => exact hlooks (hdisk.looks (by trivial))
      | _ => cases hallows

theorem Hands.Working.alike (h : hands.Working p store)
    (hlooks : store.disk.Alike store'.disk) : hands.Working p store' := by
  cases hands with
  | created m file => exact (hlooks.inode _).trans h
  | written m file bytes =>
      obtain ⟨hfile, f, hf, hbytes⟩ := h
      exact ⟨(hlooks.inode _).trans hfile, f, (hlooks.file _).trans hf, hbytes⟩
  | _ => trivial

/-- What a request leaves a thread with. -/
theorem Hands.next_spec {ι : Type} {process : ι → Process} {i : ι} {r : Req} {answer : Resp r}
    {wants : Bytes → Prop} (hallows : hands.Allows .volume (process i).number wants r)
    (hworking : hands.Working (process i) store)
    (h : Meta.serves process i r store answer store') :
    (hands.next r answer).Working (process i) store' ∧
      ∀ n, (hands.next r answer).number? = some n → hands.number? = some n ∨
        n = store.staged (process i) ∧ store'.staged (process i) = n + 1 := by
  cases r with
  | bucket r => cases r <;> first | exact absurd hallows.1 (by decide) | cases hallows
  | put key bytes => exact absurd hallows.1 (by decide)
  | delete key => cases hallows
  | staged =>
      obtain ⟨rfl, rfl⟩ := h
      refine ⟨trivial, fun n hn => Or.inr ?_⟩
      cases hn
      exact ⟨rfl, Function.update_self _ _ _⟩
  | disk r =>
      obtain ⟨-, -, answer', hdisk⟩ := served_disk h
      cases r with
      | openFile path => cases answer <;> exact ⟨trivial, fun n hn => by cases hn⟩
      | readAll file => exact ⟨trivial, fun n hn => by cases hn⟩
      | random count => exact ⟨hworking.alike (hdisk.looks (by trivial)), fun n hn => Or.inl hn⟩
      | now => exact ⟨hworking.alike (hdisk.looks (by trivial)), fun n hn => Or.inl hn⟩
      | createDirAll path =>
          exact ⟨hworking.alike (hdisk.looks (by trivial)), fun n hn => Or.inl hn⟩
      | create path =>
          obtain ⟨-, n, rfl, rfl⟩ := hallows
          cases answer with
          | error e => exact ⟨trivial, fun n hn => by cases hn⟩
          | ok file =>
              refine ⟨?_, fun n hn => Or.inl hn⟩
              rcases (served_answered (by nofun) h).create with
                ⟨j, time, hfile, heq, -, hd⟩ | ⟨time, hfree, heq, -, hd⟩ | ⟨-, heq, -⟩
              · cases heq
                rw [next, Working, hd, Disk.inode_fill, hfile]
              · cases heq
                rw [next, Working, hd, Disk.inode_add, if_pos rfl]
              · cases heq
      | write file bytes =>
          obtain ⟨-, n, rfl, -⟩ := hallows
          cases answer with
          | error e => exact ⟨trivial, fun n hn => by cases hn⟩
          | ok done =>
              refine ⟨?_, fun n hn => Or.inl hn⟩
              rcases (served_answered (by nofun) h).write with ⟨-, time, -, hd⟩ | ⟨-, heq, -⟩
              · rw [next, Working, hd, Disk.inode_fill,
                  Disk.file_fill_self (Disk.inode_lt hworking)]
                exact ⟨hworking, _, rfl, rfl⟩
              · cases heq
      | rename source target =>
          obtain ⟨-, n, file, bytes, rfl, -⟩ := hallows
          cases answer <;> exact ⟨trivial, fun n hn => by cases hn⟩
      | _ => cases hallows

end

end Lfsx.Console.Tokens
