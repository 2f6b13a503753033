import Lfsx.Request.Protocol
import Lfsx.Locks.Store

/-!
# How a lock is written

In what order the lock store makes its requests, whatever they are answered.  A staging file
is made under a number of its own, written whole, linked to the path of the lock, and removed.
Where it could not be linked, the lock is made in place and written then.  Nothing else writes
a file, and what is put in a bucket is a lock under the key of its id (`op_orderly`).
-/

namespace Lfsx.Locks

open Request
open Files (Bytes)
open Storage (LocalPath decimal)

/-- How far a request is with the file of a lock. -/
inductive Phase where
  | idle
  | ticketed (n : Nat)
  | staged (n : Nat) (path : LocalPath) (file : Nat)
  | written (n : Nat) (path : LocalPath) (file : Nat) (encoded : Bytes)
  | linked (n : Nat) (path : LocalPath)
  /-- A lock was made in place, with nothing in it. -/
  | placed (path : LocalPath) (file : Nat)

def Phase.next : Phase → (r : Req) → Resp r → Phase
  | .idle, .disk .ticket, n => .ticketed n
  | .idle, .createNew path, .ok file => .placed path file
  | .ticketed n, .disk (.create path), .ok file => .staged n path file
  | .ticketed _, .disk (.create _), .error _ => .idle
  | .staged n path file, .disk (.write _ encoded), .ok () => .written n path file encoded
  | .staged _ _ _, .disk (.write _ _), .error _ => .idle
  | .written n path _ _, .disk (.link _ _), _ => .linked n path
  | .linked _ _, .disk (.unlink _), _ => .idle
  | .placed _ _, .disk (.write _ _), _ => .idle
  | phase, _, _ => phase

/-- The bytes are a lock, and this is its path. -/
def Complete (formats : Formats) (caseless : Bool) (path : LocalPath) (encoded : Bytes) : Prop :=
  ∃ ns lock, path = LockStore.pathIn caseless ns lock.id ∧ formats.encode lock = some encoded ∧
    lock.id = LockStore.idOf formats lock.path

/-- The bytes are a lock, and this is its key. -/
def Keyed (formats : Formats) (key : Text) (encoded : Bytes) : Prop :=
  ∃ ns lock, key = LockStore.keyOf ns lock.id ∧ formats.encode lock = some encoded ∧
    lock.id = LockStore.idOf formats lock.path

def Phase.may (formats : Formats) (caseless : Bool) (process : Nat) (phase : Phase) : Req → Prop
  | .disk .ticket => phase = .idle
  | .disk (.create path) => ∃ ns n, phase = .ticketed n ∧
      path = LockStore.directory ns ++ [LockStore.stagedName process n]
  | .disk (.write file encoded) => (∃ n path, phase = .staged n path file) ∨
      ∃ path, phase = .placed path file ∧ Complete formats caseless path encoded
  | .disk (.link source target) => ∃ n file encoded, phase = .written n source file encoded ∧
      Complete formats caseless target encoded
  | .disk (.unlink path) => (∃ n, phase = .linked n path) ∨
      phase = .idle ∧ LockStore.isLockFile path = true
  | .disk (.rename _ _) => False
  | .createNew path => phase = .idle ∧ LockStore.isLockFile path = true
  | .bucket (.putIfAbsent key encoded) => Keyed formats key encoded
  | _ => True

/-- The order of writing. -/
def writing (formats : Formats) (caseless : Bool) (process : Nat) : Protocol Req Resp Phase where
  first := .idle
  may := Phase.may formats caseless process
  next := Phase.next

theorem isLockFile_pathIn (caseless : Bool) (ns : Namespace) (id : Text) :
    LockStore.isLockFile (LockStore.pathIn caseless ns id) = true := by
  have hjson : ".json".toList.isSuffixOf (LockStore.spelled caseless (id ++ ".json".toList)) := by
    rw [List.isSuffixOf_iff_suffix, LockStore.spelled]
    split
    · exact ⟨lower id, by rw [lower, lower, List.map_append]; rfl⟩
    · exact ⟨id, rfl⟩
  rw [LockStore.isLockFile, LockStore.pathIn, List.getLast?_append]
  exact hjson

/-! ## Staging paths -/

/-- A staging path that goes with a number. -/
def IsStaging (n : Nat) (path : LocalPath) : Prop :=
  ∃ ns process, path = LockStore.directory ns ++ [LockStore.stagedName process n]

theorem IsStaging.not_lock {n : Nat} {path : LocalPath} (h : IsStaging n path) :
    LockStore.isLockFile path = false := by
  obtain ⟨ns, process, rfl⟩ := h
  have hpart : LockStore.stagedName process n =
      ('.' :: (decimal process ++ '-' :: decimal n)) ++ ".part".toList := by
    simp [LockStore.stagedName]
  rw [LockStore.isLockFile, List.getLast?_append]
  show ".json".toList.isSuffixOf (LockStore.stagedName process n) = false
  rw [hpart, ← Bool.not_eq_true, List.isSuffixOf_iff_suffix]
  rintro ⟨front, hfront⟩
  have hsame := (List.append_inj' hfront rfl).2
  exact absurd hsame (by decide)

theorem dash_not_mem_decimal (n : Nat) : '-' ∉ decimal n := by
  intro hdash
  exact absurd (Nat.isDigit_of_mem_toDigits (by decide) (by decide) hdash) (by decide)

theorem IsStaging.inj {m n : Nat} {path : LocalPath} (hm : IsStaging m path)
    (hn : IsStaging n path) : m = n := by
  obtain ⟨ns, process, rfl⟩ := hm
  obtain ⟨ns', process', heq⟩ := hn
  have hname := List.cons.inj (List.append_inj' heq rfl).2
  have hrest := (List.cons.inj hname.1).2
  have hafter : '-' ∉ decimal m ++ ".part".toList := by
    rw [List.mem_append, not_or]
    exact ⟨dash_not_mem_decimal m, by decide⟩
  rw [List.append_cons_inj_of_notMem (dash_not_mem_decimal _) hafter] at hrest
  exact Storage.decimal_inj (List.append_cancel_right hrest.2.2)

/-! ## Operations -/

section

variable {ε ε' α β : Type} {formats : Formats} {caseless : Bool} {process : Nat}
  {store : LockStore} {ns : Namespace} {id path : Text} {lock : Lock} {encoded : Bytes}

/-- An operation that asks in that order, and is done with its files at the end. -/
abbrev Orderly (formats : Formats) (caseless : Bool) (process : Nat)
    (op : Fallible ε Req Resp α) : Prop :=
  op.Follows (writing formats caseless process) (fun _ phase => phase = .idle) .idle

theorem Orderly.pure {a : α} :
    Orderly formats caseless process (Pure.pure a : Fallible ε Req Resp α) := rfl

theorem Orderly.throw {e : ε} :
    Orderly formats caseless process (throw e : Fallible ε Req Resp α) := rfl

theorem Orderly.ofExcept {answer : Except ε α} :
    Orderly formats caseless process (Fallible.ofExcept answer : Fallible ε Req Resp α) := rfl

theorem Orderly.bind {op : Fallible ε Req Resp α} {f : α → Fallible ε Req Resp β}
    (h : Orderly formats caseless process op)
    (hf : ∀ a, Orderly formats caseless process (f a)) :
    Orderly formats caseless process (op >>= f) := by
  refine Fallible.Follows.bind h ?_ fun _ _ hidle => hidle
  rintro a phase rfl
  exact hf a

theorem Orderly.attempt {op : Fallible ε Req Resp α} {f : Except ε α → Fallible ε Req Resp β}
    (h : Orderly formats caseless process op)
    (hf : ∀ answer, Orderly formats caseless process (f answer)) :
    Orderly formats caseless process (op.attempt >>= f) := by
  refine Fallible.Follows.attempt h ?_
  rintro answer phase rfl
  exact hf answer

theorem Orderly.caught {op : Fallible ε Req Resp α} {f : Except ε α → Fallible ε' Req Resp β}
    (h : Orderly formats caseless process op)
    (hf : ∀ answer, Orderly formats caseless process (f answer)) :
    Orderly formats caseless process (op.caught >>= f) := by
  refine Fallible.Follows.caught h ?_
  rintro answer phase rfl
  exact hf answer

/-- A request that has no part in the writing. -/
theorem Orderly.inBucket {r : Shelves.Req Text Bytes Text}
    {h : Shelves.Resp Error r = Except Error α}
    (hmay : Phase.may formats caseless process .idle (.bucket r)) :
    Orderly formats caseless process (inBucket r h) :=
  Fallible.Follows.mapError (Fallible.Follows.ask hmay fun _ => rfl)

theorem Orderly.certain {r : Req} (hmay : Phase.may formats caseless process .idle r)
    (hnext : ∀ answer, Phase.next .idle r answer = .idle) :
    Orderly formats caseless process (Fallible.certain r : Fallible ε Req Resp (Resp r)) :=
  Fallible.Follows.certain hmay hnext

theorem readFile_orderly {file : LocalPath} :
    Orderly formats caseless process (LockStore.readFile file) :=
  Orderly.bind (Fallible.Follows.ask trivial fun _ => rfl)
    fun _ => Fallible.Follows.ask trivial fun _ => rfl

theorem readLocal_orderly {file : LocalPath} :
    Orderly formats caseless process (LockStore.readLocal formats file) := by
  refine Orderly.caught readFile_orderly fun answer => ?_
  cases answer with
  | ok encoded => exact Orderly.pure
  | error e =>
      cases e with
      | notFound => exact Orderly.pure
      | _ => exact Orderly.throw

theorem readBucket_orderly {key : Text} :
    Orderly formats caseless process (LockStore.readBucket formats key) := by
  refine Orderly.bind (Orderly.inBucket trivial) fun item? => ?_
  cases item? with
  | some _ => exact Orderly.pure
  | none => exact Orderly.pure

theorem read_orderly : Orderly formats caseless process (store.read formats ns id) := by
  rw [LockStore.read]
  split
  · exact Orderly.pure
  split
  · exact readLocal_orderly
  · exact readBucket_orderly

theorem get_orderly : Orderly formats caseless process (store.get formats ns id) :=
  Orderly.bind read_orderly fun _ => Orderly.pure

theorem count_orderly : Orderly formats caseless process (store.count ns) := by
  rw [LockStore.count]
  split
  · refine Orderly.caught (Fallible.Follows.ask trivial fun _ => rfl) fun answer => ?_
    cases answer with
    | error e => exact Orderly.pure
    | ok listed =>
        dsimp only
        split
        · exact Orderly.pure
        · exact Orderly.throw
  · exact Orderly.bind (Orderly.inBucket trivial) fun _ => Orderly.pure

theorem checkCapacity_orderly :
    Orderly formats caseless process (store.checkCapacity formats ns lock) := by
  refine Orderly.bind get_orderly fun found? => ?_
  cases found? with
  | some _ => exact Orderly.pure
  | none =>
      refine Orderly.bind count_orderly fun found => ?_
      split
      · exact Orderly.throw
      · exact Orderly.pure

theorem staleFor_orderly : Orderly formats caseless process (store.staleFor formats lock) := by
  rw [LockStore.staleFor]
  split
  · exact Orderly.bind (Orderly.certain trivial fun _ => rfl) fun _ => Orderly.pure
  · exact Orderly.pure

/-- A lock that is made in place is written next. -/
theorem createInPlace_orderly {file : LocalPath} (hlock : LockStore.isLockFile file = true)
    (hcomplete : Complete formats caseless file encoded) :
    Orderly formats caseless process (LockStore.createInPlace file encoded) := by
  refine Fallible.Follows.caught (R := fun answer phase => match answer with
    | .ok inode => phase = .placed file inode
    | .error _ => phase = .idle) (Fallible.Follows.ask ⟨rfl, hlock⟩ fun answer => ?_)
    fun answer phase hphase => ?_
  · cases answer with
    | ok inode => rfl
    | error e => rfl
  · cases answer with
    | ok inode =>
        subst hphase
        have hmay : (writing formats caseless process).may (.placed file inode)
            (.disk (.write inode encoded)) := Or.inr ⟨file, rfl, hcomplete⟩
        refine Fallible.Follows.bind (R := fun _ phase => phase = .idle)
          (Fallible.Follows.mapError (Fallible.Follows.ask hmay fun _ => rfl)) ?_
          fun _ _ hidle => hidle
        rintro _ phase rfl
        exact Orderly.pure
    | error e =>
        subst hphase
        cases e with
        | alreadyExists => exact Orderly.pure
        | _ => exact Orderly.throw

theorem writeLinked_orderly {file : LocalPath} (hlock : LockStore.isLockFile file = true)
    (hcomplete : Complete formats caseless file encoded) (answer : Except Files.Refused Unit) :
    Orderly formats caseless process (LockStore.writeLinked file encoded answer) := by
  cases answer with
  | ok _ => exact Orderly.pure
  | error e =>
      cases e with
      | alreadyExists => exact Orderly.pure
      | _ => exact createInPlace_orderly hlock hcomplete

/-- **A staging file is made, written, linked and removed.** -/
theorem writeNew_orderly {file : LocalPath} (hlock : LockStore.isLockFile file = true)
    (hcomplete : Complete formats caseless file encoded) :
    Orderly formats caseless process (LockStore.writeNew process ns file encoded) := by
  refine Orderly.bind (Fallible.Follows.mapError (Fallible.Follows.ask trivial fun _ => rfl))
    fun _ => ?_
  refine Fallible.Follows.bind (R := fun answer phase => ∃ n, answer = .ok n ∧ phase = .ticketed n)
    (Fallible.Follows.certain rfl fun n => ⟨n, rfl, rfl⟩) ?_ ?_
  rotate_left
  · rintro e phase ⟨n, hn, -⟩
    cases hn
  rintro n phase ⟨_, hn, rfl⟩
  cases hn
  have hcreate : (writing formats caseless process).may (.ticketed n)
      (.disk (.create (LockStore.directory ns ++ [LockStore.stagedName process n]))) :=
    ⟨ns, n, rfl, rfl⟩
  refine Fallible.Follows.bind (R := fun answer phase => match answer with
    | .ok inode => phase =
        .staged n (LockStore.directory ns ++ [LockStore.stagedName process n]) inode
    | .error _ => phase = .idle) (Fallible.Follows.mapError (Fallible.Follows.ask hcreate ?_)) ?_
    fun _ _ hidle => hidle
  · rintro (e | inode) <;> rfl
  rintro inode phase rfl
  refine Fallible.Follows.bind (R := fun answer phase => match answer with
    | .ok _ => phase =
        .written n (LockStore.directory ns ++ [LockStore.stagedName process n]) inode encoded
    | .error _ => phase = .idle)
    (Fallible.Follows.mapError (Fallible.Follows.ask (Or.inl ⟨n, _, rfl⟩) ?_)) ?_
    fun _ _ hidle => hidle
  · rintro (e | ⟨⟩) <;> rfl
  rintro _ phase rfl
  refine Fallible.Follows.caught (R := fun _ phase => phase =
    .linked n (LockStore.directory ns ++ [LockStore.stagedName process n]))
    (Fallible.Follows.ask ⟨n, inode, encoded, rfl, hcomplete⟩ fun _ => rfl) ?_
  rintro linked phase rfl
  refine Fallible.Follows.caught (R := fun _ phase => phase = .idle)
    (Fallible.Follows.ask (Or.inl ⟨n, rfl⟩) fun _ => rfl) ?_
  rintro _ phase rfl
  exact writeLinked_orderly hlock hcomplete linked

theorem take_orderly
    (hbackend : store.backend = .local caseless process ∨ store.backend = .bucket)
    (hencode : formats.encode lock = some encoded)
    (hid : lock.id = LockStore.idOf formats lock.path) :
    Orderly formats caseless process (store.take ns lock encoded) := by
  rw [LockStore.take]
  rcases hbackend with hlocal | hbucket
  · rw [hlocal]
    exact writeNew_orderly (isLockFile_pathIn caseless ns lock.id) ⟨ns, lock, rfl, hencode, hid⟩
  · rw [hbucket]
    dsimp only
    split
    · exact Orderly.throw
    · exact Orderly.bind (Orderly.inBucket ⟨ns, lock, rfl, hencode, hid⟩) fun _ => Orderly.pure

theorem removed_orderly {held : Held}
    (hbackend : store.backend = .local caseless process ∨ store.backend = .bucket) :
    Orderly formats caseless process (store.removed ns held) := by
  rw [LockStore.removed]
  rcases hbackend with hlocal | hbucket
  · rw [hlocal]
    have hmay : (writing formats caseless process).may .idle
        (.disk (.unlink (LockStore.pathIn caseless ns held.lock.id))) :=
      Or.inr ⟨rfl, isLockFile_pathIn caseless ns held.lock.id⟩
    refine Orderly.caught (Fallible.Follows.ask hmay fun _ => rfl) fun answer => ?_
    cases answer with
    | ok _ => exact Orderly.pure
    | error e =>
        cases e with
        | notFound => exact Orderly.pure
        | _ => exact Orderly.throw
  · rw [hbucket]
    cases held.version with
    | none => exact Orderly.pure
    | some version => exact Orderly.inBucket trivial

theorem release_orderly {held : Held}
    (hbackend : store.backend = .local caseless process ∨ store.backend = .bucket) :
    Orderly formats caseless process (store.release ns held) := by
  refine Orderly.bind (removed_orderly hbackend) fun removed => ?_
  split
  · exact Orderly.pure
  · exact Orderly.throw

theorem discard_orderly {held : Held}
    (hbackend : store.backend = .local caseless process ∨ store.backend = .bucket) :
    Orderly formats caseless process (store.discard ns held) := by
  refine Orderly.attempt (release_orderly hbackend) fun answer => ?_
  cases answer with
  | ok _ => exact Orderly.pure
  | error e =>
      cases e with
      | lockNotFound => exact Orderly.pure
      | _ => exact Orderly.throw

theorem takeOver_orderly
    (hbackend : store.backend = .local caseless process ∨ store.backend = .bucket)
    (hencode : formats.encode lock = some encoded)
    (hid : lock.id = LockStore.idOf formats lock.path) :
    Orderly formats caseless process (store.takeOver formats ns lock encoded) := by
  refine Orderly.bind read_orderly fun held? => ?_
  cases held? with
  | none => exact Orderly.throw
  | some held =>
      refine Orderly.bind staleFor_orderly fun age? => ?_
      cases age? with
      | none => exact Orderly.throw
      | some age =>
          refine Orderly.bind (discard_orderly hbackend) fun _ => ?_
          refine Orderly.bind (take_orderly hbackend hencode hid) fun taken => ?_
          split
          · exact Orderly.pure
          · refine Orderly.bind get_orderly fun other? => ?_
            cases other? with
            | some _ => exact Orderly.throw
            | none => exact Orderly.throw

theorem createGated_orderly {owner : Actor}
    (hbackend : store.backend = .local caseless process ∨ store.backend = .bucket) :
    Orderly formats caseless process (store.createGated formats ns path owner) := by
  refine Orderly.bind (Orderly.certain trivial fun _ => rfl) fun now => ?_
  dsimp only
  cases hencode : formats.encode (LockStore.asked formats path owner now) with
  | none => exact Orderly.throw
  | some encoded =>
      refine Orderly.bind checkCapacity_orderly fun _ => ?_
      refine Orderly.bind (take_orderly hbackend hencode rfl) fun taken => ?_
      split
      · exact Orderly.pure
      · exact takeOver_orderly hbackend hencode rfl

theorem exclusive_orderly {body : Op α} (h : Orderly formats caseless process body) :
    Orderly formats caseless process (LockStore.exclusive id body) := by
  refine Orderly.bind (Orderly.certain trivial fun _ => rfl) fun _ => ?_
  refine Orderly.attempt h fun answer => ?_
  exact Orderly.bind (Orderly.certain trivial fun _ => rfl) fun _ => Orderly.ofExcept

/-- **What a client asks is done in this order.** -/
theorem op_orderly (call : Call)
    (hbackend : store.backend = .local caseless process ∨ store.backend = .bucket) :
    Orderly formats caseless process (call.op formats store) := by
  cases call with
  | create permission ns path owner =>
      refine Orderly.bind Orderly.ofExcept fun _ => ?_
      rw [LockStore.create]
      split
      · exact Orderly.throw
      split
      · exact Orderly.throw
      · exact exclusive_orderly (createGated_orderly hbackend)
  | unlock permission ns id caller force =>
      refine Orderly.bind Orderly.ofExcept fun _ => exclusive_orderly ?_
      refine Orderly.bind read_orderly fun held? => ?_
      cases held? with
      | none => exact Orderly.throw
      | some held =>
          refine Orderly.bind Orderly.ofExcept fun _ => ?_
          exact Orderly.bind (release_orderly hbackend) fun _ => Orderly.pure

end

end Lfsx.Locks
