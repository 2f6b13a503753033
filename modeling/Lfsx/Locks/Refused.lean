import Lfsx.Locks.Writing

/-!
# A create that is refused

A create is refused with the lock that is held after it found that the path is taken, and has
not freed it since (`create_sights`).  So a create nobody is beside leaves the path taken.
-/

namespace Lfsx.Locks

open Request
open Files (Bytes)
open Storage (LocalPath)

/-- Where the lock of a path is, on a volume or in a bucket. -/
structure Place where
  path : Option LocalPath
  key : Option Text

def LockStore.placeOf (formats : Formats) (store : LockStore) (ns : Namespace) (path : Text) :
    Place :=
  match store.backend with
  | .local caseless _ => ⟨some (pathIn caseless ns (idOf formats path)), none⟩
  | .bucket => ⟨none, some (keyOf ns (idOf formats path))⟩

/-- Whether a place is known to be taken. -/
def Place.sees (place : Place) (seen : Bool) : (r : Req) → Resp r → Bool
  | .disk (.link _ target), .error .alreadyExists => seen || some target == place.path
  | .disk (.unlink path), _ => seen && some path != place.path
  | .disk (.rename _ _), _ => false
  | .createNew path, .error .alreadyExists => seen || some path == place.path
  | .bucket (.putIfAbsent key _), .ok none => seen || some key == place.key
  | .bucket (.deleteIf _ _), _ => false
  | _, _ => seen

/-- A bucket tells nothing of a path of a volume. -/
theorem Place.sees_bucket {path : LocalPath} {seen : Bool} {r : Shelves.Req Text Bytes Text}
    {answer : Shelves.Resp Error r}
    (h : Place.sees ⟨some path, none⟩ seen (.bucket r) answer = true) : seen = true := by
  cases r with
  | putIfAbsent key encoded =>
      match answer, h with
      | .ok none, h => exact (Bool.or_eq_true_iff.mp h).resolve_right nofun
      | .ok (some _), h => exact h
      | .error _, h => exact h
  | deleteIf key version => cases h
  | _ => exact h

/-- And nothing but a bucket tells of a key. -/
theorem Place.sees_other {key : Text} {seen : Bool} {r : Req} {answer : Resp r}
    (hother : ∀ r', r ≠ .bucket r') (h : Place.sees ⟨none, some key⟩ seen r answer = true) :
    seen = true := by
  cases r with
  | bucket r => exact absurd rfl (hother r)
  | createNew path =>
      match answer, h with
      | .error .alreadyExists, h => exact (Bool.or_eq_true_iff.mp h).resolve_right nofun
      | .error .notFound, h => exact h
      | .error .other, h => exact h
      | .ok _, h => exact h
  | disk r =>
      cases r with
      | link source target =>
          match answer, h with
          | .error .alreadyExists, h => exact (Bool.or_eq_true_iff.mp h).resolve_right nofun
          | .error .notFound, h => exact h
          | .error .other, h => exact h
          | .ok (), h => exact h
      | unlink path => exact (Bool.and_eq_true_iff.mp h).1
      | rename source target => cases h
      | _ => exact h
  | _ => exact h

def sighting (place : Place) : Protocol Req Resp Bool where
  first := false
  may _ _ := True
  next := place.sees

/-! ## Operations -/

section

variable {ε ε' α β : Type} {formats : Formats} {place : Place} {seen : Bool}
  {store : LockStore} {ns : Namespace} {id path : Text} {lock : Lock} {encoded : Bytes}

/-- The answer is not that a lock is held. -/
def NotHeld (answer : Except LockError α) : Prop := ∀ lock, answer ≠ .error (.lockHeld lock)

theorem notHeld_ok (a : α) : NotHeld (.ok a) := by
  intro lock heq
  cases heq

theorem NotHeld.error {e : LockError} (h : NotHeld (.error e : Except LockError α)) :
    NotHeld (.error e : Except LockError β) := by
  intro lock heq
  cases heq
  exact h lock rfl

/-- An operation that frees nothing, and does not answer that a lock is held. -/
abbrev Looks (place : Place) (seen : Bool) (op : Op α) : Prop :=
  op.Follows (sighting place) (fun answer phase => phase = seen ∧ NotHeld answer) seen

theorem Looks.pure {a : α} : Looks place seen (Pure.pure a : Op α) := ⟨rfl, notHeld_ok a⟩

theorem Looks.throw {e : LockError} (he : ∀ lock, e ≠ .lockHeld lock) :
    Looks place seen (throw e : Op α) :=
  ⟨rfl, fun lock heq => he lock (Except.error.inj heq)⟩

theorem Looks.bind {op : Op α} {f : α → Op β} (h : Looks place seen op)
    (hf : ∀ a, Looks place seen (f a)) : Looks place seen (op >>= f) := by
  refine Fallible.Follows.bind h ?_ ?_
  · rintro a phase ⟨rfl, -⟩
    exact hf a
  · rintro e phase ⟨rfl, hnot⟩
    exact ⟨rfl, hnot.error⟩

/-- A request of a volume whose error is taken for an answer. -/
theorem Looks.caught {op : Fallible Files.Refused Req Resp α} {f : Except Files.Refused α → Op β}
    (h : op.Follows (sighting place) (fun _ phase => phase = seen) seen)
    (hf : ∀ answer, Looks place seen (f answer)) : Looks place seen (op.caught >>= f) := by
  refine Fallible.Follows.caught h ?_
  rintro answer phase rfl
  exact hf answer

theorem Looks.inBucket {r : Shelves.Req Text Bytes Text}
    {h : Shelves.Resp Error r = Except Error α}
    (hsees : ∀ answer, place.sees seen (.bucket r) answer = seen) :
    Looks place seen (inBucket r h) := by
  refine Fallible.Follows.mapError (Fallible.Follows.ask trivial fun answer => ⟨hsees answer, ?_⟩)
  cases cast h answer with
  | ok a => exact nofun
  | error e => exact nofun

theorem readLocal_looks {file : LocalPath} :
    Looks place seen (LockStore.readLocal formats file) := by
  refine Looks.caught (Fallible.Follows.bind (R := fun _ phase => phase = seen)
    (Fallible.Follows.ask trivial fun _ => rfl) ?_ fun _ _ h => h) fun answer => ?_
  · rintro handle phase rfl
    exact Fallible.Follows.ask trivial fun _ => rfl
  · cases answer with
    | ok encoded => exact Looks.pure
    | error e =>
        cases e with
        | notFound => exact Looks.pure
        | _ => exact Looks.throw nofun

theorem read_looks : Looks place seen (store.read formats ns id) := by
  rw [LockStore.read]
  split
  · exact Looks.pure
  split
  · exact readLocal_looks
  · refine Looks.bind (Looks.inBucket fun _ => rfl) fun item? => ?_
    cases item? with
    | some _ => exact Looks.pure
    | none => exact Looks.pure

theorem get_looks : Looks place seen (store.get formats ns id) :=
  Looks.bind read_looks fun _ => Looks.pure

theorem checkCapacity_looks : Looks place seen (store.checkCapacity formats ns lock) := by
  have hcount : Looks place seen (store.count ns) := by
    rw [LockStore.count]
    split
    · refine Looks.caught (Fallible.Follows.ask trivial fun _ => rfl) fun answer => ?_
      cases answer with
      | error e => exact Looks.pure
      | ok listed =>
          dsimp only
          split
          · exact Looks.pure
          · exact Looks.throw fun _ heq => by cases heq
    · exact Looks.bind (Looks.inBucket fun _ => rfl) fun _ => Looks.pure
  refine Looks.bind get_looks fun found? => ?_
  cases found? with
  | some _ => exact Looks.pure
  | none =>
      refine Looks.bind hcount fun found => ?_
      split
      · exact Looks.throw fun _ heq => by cases heq
      · exact Looks.pure

theorem staleFor_looks : Looks place seen (store.staleFor formats lock) := by
  rw [LockStore.staleFor]
  split
  · exact Looks.bind (Fallible.Follows.certain trivial fun _ => ⟨rfl, notHeld_ok _⟩)
      fun _ => Looks.pure
  · exact Looks.pure

/-- An operation that answers that a lock is held only when it knows that its place is taken. -/
abbrev Sights (place : Place) (seen : Bool) (op : Op α) : Prop :=
  op.Follows (sighting place) (fun answer phase =>
    ∀ lock, answer = .error (.lockHeld lock) → phase = true) seen

theorem Sights.bind {op : Op α} {f : α → Op β} (h : Looks place seen op)
    (hf : ∀ a, Sights place seen (f a)) : Sights place seen (op >>= f) := by
  refine Fallible.Follows.bind h ?_ ?_
  · rintro a phase ⟨rfl, -⟩
    exact hf a
  · rintro e phase ⟨-, hnot⟩ lock heq
    exact absurd heq (hnot.error lock)

/-- A lock that was not taken is there. -/
abbrev Takes (place : Place) (op : Op Bool) (seen : Bool) : Prop :=
  op.Follows (sighting place) (fun answer phase =>
    (answer = .ok false → phase = true) ∧ NotHeld answer) seen

theorem Takes.bind {op : Op α} {f : α → Op Bool}
    (h : op.Follows (sighting place) (fun answer _ => NotHeld answer) seen)
    (hf : ∀ a seen, Takes place (f a) seen) : Takes place (op >>= f) seen := by
  refine Fallible.Follows.bind h (fun a phase _ => hf a phase) fun e phase hnot => ⟨nofun, ?_⟩
  exact hnot.error

theorem io_notHeld {r : Files.Req Text} {h : Files.Resp r = Except Files.Refused α} :
    (io (onDisk r h)).Follows (sighting place) (fun answer _ => NotHeld answer) seen := by
  refine Fallible.Follows.mapError (Fallible.Follows.ask trivial fun answer => ?_)
  cases cast h answer with
  | ok a => exact nofun
  | error e => exact nofun

theorem createInPlace_takes {file : LocalPath} (hfile : some file = place.path) :
    Takes place (LockStore.createInPlace file encoded) seen := by
  refine Fallible.Follows.caught
    (R := fun answer phase => answer = .error .alreadyExists → phase = true)
    (Fallible.Follows.ask trivial ?_) fun answer phase hphase => ?_
  · rintro answer heq
    cases (show answer = .error .alreadyExists from heq)
    show (seen || some file == place.path) = true
    rw [hfile, beq_self_eq_true, Bool.or_true]
  · cases answer with
    | ok inode => exact Takes.bind io_notHeld fun _ _ => ⟨nofun, nofun⟩
    | error e =>
        cases e with
        | alreadyExists => exact ⟨fun _ => hphase rfl, nofun⟩
        | notFound => exact ⟨nofun, nofun⟩
        | other => exact ⟨nofun, nofun⟩

theorem writeNew_takes {process : Nat} {file : LocalPath} (hfile : some file = place.path)
    (hlock : LockStore.isLockFile file = true) :
    Takes place (LockStore.writeNew process ns file encoded) seen := by
  refine Takes.bind io_notHeld fun _ seen => ?_
  refine Takes.bind (Fallible.Follows.certain trivial fun _ => nofun) fun n seen => ?_
  refine Takes.bind io_notHeld fun inode seen => ?_
  refine Takes.bind io_notHeld fun _ seen => ?_
  refine Fallible.Follows.caught
    (R := fun answer phase => answer = .error .alreadyExists → phase = true)
    (Fallible.Follows.ask trivial ?_) fun linked phase hlinked => ?_
  · rintro answer heq
    cases (show answer = .error .alreadyExists from heq)
    show (seen || some file == place.path) = true
    rw [hfile, beq_self_eq_true, Bool.or_true]
  have hstaged :
      (some (LockStore.directory ns ++ [LockStore.stagedName process n]) != place.path) = true := by
    rw [bne_iff_ne, ← hfile]
    intro heq
    cases heq
    rw [IsStaging.not_lock ⟨ns, process, rfl⟩] at hlock
    cases hlock
  refine Fallible.Follows.caught (R := fun _ seen => seen = phase)
    (Fallible.Follows.ask trivial fun _ => ?_) ?_
  · show (phase && _) = phase
    rw [hstaged, Bool.and_true]
  rintro _ phase rfl
  cases linked with
  | ok _ => exact ⟨nofun, nofun⟩
  | error e =>
      cases e with
      | alreadyExists => exact ⟨fun _ => hlinked rfl, nofun⟩
      | notFound => exact createInPlace_takes hfile
      | other => exact createInPlace_takes hfile

/-- **A lock that is not taken is known to be there.** -/
theorem take_takes (hid : lock.id = LockStore.idOf formats path)
    (hplace : place = store.placeOf formats ns path) :
    Takes place (store.take ns lock encoded) seen := by
  rw [LockStore.take]
  cases hbackend : store.backend with
  | «local» caseless process =>
      have hfile : some (LockStore.pathIn caseless ns lock.id) = place.path := by
        rw [hplace, LockStore.placeOf, hbackend, hid]
      exact writeNew_takes hfile (isLockFile_pathIn caseless ns lock.id)
  | bucket =>
      have hkey : some (LockStore.keyOf ns lock.id) = place.key := by
        rw [hplace, LockStore.placeOf, hbackend, hid]
      dsimp only
      split
      · exact ⟨fun heq => (by cases heq), fun _ heq => by cases heq⟩
      · refine Fallible.Follows.bind
          (R := fun answer phase => (answer = .ok none → phase = true) ∧ NotHeld answer)
          (Fallible.Follows.mapError (Fallible.Follows.ask trivial fun answer => ?_)) ?_ ?_
        · show (Except.mapError LockError.storage answer = .ok none → _) ∧
            NotHeld (Except.mapError LockError.storage answer)
          cases answer with
          | error e => exact ⟨fun heq => (by cases heq), fun _ heq => by cases heq⟩
          | ok version? =>
              refine ⟨fun heq => ?_, notHeld_ok _⟩
              cases heq
              show (seen || some (LockStore.keyOf ns lock.id) == place.key) = true
              rw [hkey, beq_self_eq_true, Bool.or_true]
        · rintro version? phase ⟨hnone, -⟩
          refine ⟨fun hfalse => hnone ?_, notHeld_ok _⟩
          cases version? with
          | none => rfl
          | some version => cases hfalse
        · rintro e phase ⟨-, hnot⟩
          exact ⟨fun heq => (by cases heq), hnot.error⟩

/-- What follows when a lock was not taken knows that it is there. -/
theorem Sights.take {op : Op Bool} {f : Bool → Op α} (h : Takes place op seen)
    (htrue : ∀ seen, Sights place seen (f true)) (hfalse : Sights place true (f false)) :
    Sights place seen (op >>= f) := by
  refine Fallible.Follows.bind h ?_ ?_
  · rintro (taken | taken) phase ⟨hseen, -⟩
    · rw [hseen rfl]
      exact hfalse
    · exact htrue phase
  · rintro e phase ⟨-, hnot⟩ lock heq
    exact absurd heq (hnot.error lock)

theorem discard_notHeld {held : Held} : (store.discard ns held).Follows (sighting place)
    (fun answer _ => NotHeld answer) seen := by
  have hremoved : (store.removed ns held).Follows (sighting place)
      (fun answer _ => NotHeld answer) seen := by
    rw [LockStore.removed]
    split
    · refine Fallible.Follows.caught (R := fun _ _ => True)
        (Fallible.Follows.ask trivial fun _ => trivial) fun answer phase _ => ?_
      cases answer with
      | ok _ => exact notHeld_ok _
      | error e =>
          cases e with
          | notFound => exact fun _ heq => by cases heq
          | alreadyExists => exact fun _ heq => by cases heq
          | other => exact fun _ heq => by cases heq
    · refine Fallible.Follows.mapError (Fallible.Follows.ask trivial fun answer => ?_)
      show NotHeld (Except.mapError LockError.storage answer)
      cases answer <;> exact fun _ heq => by cases heq
    · exact notHeld_ok _
  refine Fallible.Follows.attempt (R := fun answer _ => NotHeld answer) ?_
    fun answer phase hnot => ?_
  · refine Fallible.Follows.bind hremoved (fun removed phase _ => ?_) fun e phase hnot => ?_
    · cases removed with
      | true => exact notHeld_ok _
      | false => exact fun _ heq => by cases heq
    · exact hnot.error
  · cases answer with
    | ok _ => exact notHeld_ok _
    | error e =>
        cases e with
        | lockNotFound => exact notHeld_ok _
        | lockHeld lock => exact absurd rfl (hnot lock)
        | _ => exact fun _ heq => by cases heq

theorem takeOver_sights (hid : lock.id = LockStore.idOf formats path)
    (hplace : place = store.placeOf formats ns path) :
    Sights place true (store.takeOver formats ns lock encoded) := by
  refine Sights.bind read_looks fun held? => ?_
  cases held? with
  | none => exact fun _ _ => rfl
  | some held =>
      refine Sights.bind staleFor_looks fun age? => ?_
      cases age? with
      | none => exact fun _ _ => rfl
      | some age =>
          refine Fallible.Follows.bind discard_notHeld (fun _ seen _ => ?_) ?_
          · refine Sights.take (take_takes hid hplace) (fun _ => nofun) ?_
            refine Sights.bind get_looks fun other? => ?_
            cases other? with
            | some _ => exact fun _ _ => rfl
            | none => exact fun _ _ => rfl
          · rintro e phase hnot lock heq
            exact absurd heq (hnot.error lock)

/-- A path that a store may lock. -/
structure LockStore.Accepts (store : LockStore) (path : Text) : Prop where
  nonempty : path.isEmpty = false
  short : utf8Length path ≤ maxPathBytes
  supported : store.backend = .bucket → store.conditionalWrites = true

theorem createGated_sights {owner : Actor} (hplace : place = store.placeOf formats ns path) :
    Sights place seen (store.createGated formats ns path owner) := by
  refine Sights.bind (Fallible.Follows.certain trivial fun _ => ⟨rfl, nofun⟩) fun now => ?_
  dsimp only
  cases formats.encode (LockStore.asked formats path owner now) with
  | none => exact nofun
  | some encoded =>
      refine Sights.bind checkCapacity_looks fun _ => ?_
      exact Sights.take (take_takes rfl hplace) (fun _ => nofun) (takeOver_sights rfl hplace)

/-- A store that cannot arbitrate refuses before it looks at the lock. -/
theorem createGated_unsupported {owner : Actor} (hbucket : store.backend = .bucket)
    (hunsupported : store.conditionalWrites = false) :
    Looks place seen (store.createGated formats ns path owner) := by
  refine Looks.bind (Fallible.Follows.certain trivial fun _ => ⟨rfl, notHeld_ok _⟩) fun now => ?_
  dsimp only
  cases formats.encode (LockStore.asked formats path owner now) with
  | none => exact Looks.throw fun _ heq => by cases heq
  | some encoded =>
      refine Looks.bind checkCapacity_looks fun _ => ?_
      refine Fallible.Follows.bind
        (R := fun answer phase => phase = seen ∧ ∃ what, answer = .error (.unsupported what))
        ?_ ?_ ?_
      · rw [LockStore.take, hbucket]
        dsimp only
        rw [hunsupported]
        exact ⟨rfl, _, rfl⟩
      · rintro taken phase ⟨-, what, hanswer⟩
        cases hanswer
      · rintro e phase ⟨rfl, what, hanswer⟩
        cases hanswer
        exact ⟨rfl, fun _ heq => by cases heq⟩

/-- **A create answers that a lock is held when it knows that the path is taken.** -/
theorem create_sights {permission : Permission} {owner : Actor} :
    ((Call.create permission ns path owner).op formats store).Follows
      (sighting (store.placeOf formats ns path))
      (fun answer phase => ∀ lock, answer = .error (.lockHeld lock) →
        phase = true ∧ store.Accepts path) false := by
  refine Fallible.Follows.bind (R := fun answer phase => phase = false ∧ NotHeld answer) ?_ ?_ ?_
  · cases permission <;> exact ⟨rfl, fun _ heq => by cases heq⟩
  · rintro _ phase ⟨rfl, -⟩
    rw [LockStore.create]
    split
    · exact fun _ heq => by cases heq
    split
    · exact fun _ heq => by cases heq
    next hempty hlong =>
      have hgated : (store.createGated formats ns path owner).Follows
          (sighting (store.placeOf formats ns path))
          (fun answer phase => ∀ lock, answer = .error (.lockHeld lock) →
            phase = true ∧ store.Accepts path) false := by
        by_cases hsupported : store.backend = .bucket → store.conditionalWrites = true
        · refine Program.Follows.mono (createGated_sights rfl) fun answer phase hseen lock heq => ?_
          exact ⟨hseen lock heq, Bool.not_eq_true _ ▸ hempty, Nat.le_of_not_lt hlong, hsupported⟩
        · rw [Classical.not_imp, Bool.not_eq_true] at hsupported
          exact Program.Follows.mono (createGated_unsupported hsupported.1 hsupported.2)
            fun _ _ hlooks lock heq => absurd heq (hlooks.2 lock)
      refine Fallible.Follows.bind (R := fun answer phase => phase = false ∧ NotHeld answer)
        (Fallible.Follows.certain trivial fun _ => ⟨rfl, notHeld_ok _⟩) ?_ ?_
      · rintro _ phase ⟨rfl, -⟩
        refine Fallible.Follows.attempt hgated fun answer phase hanswer => ?_
        refine Fallible.Follows.bind (R := fun answer seen => answer = .ok () ∧ seen = phase)
          (Fallible.Follows.certain trivial fun _ => ⟨rfl, rfl⟩) ?_ fun _ _ h => by cases h.1
        rintro _ phase ⟨-, rfl⟩
        exact hanswer
      · rintro e phase ⟨-, hnot⟩ lock heq
        exact absurd heq (hnot.error lock)
  · rintro e phase ⟨-, hnot⟩ lock heq
    exact absurd heq (hnot.error lock)

/-- What a create that is made alone knows when it is refused for a lock. -/
theorem refused_taken {ι S : Type} [DecidableEq ι] {exec : ι → Semantics Req Resp S} {k : ι}
    {Taken : S → Prop} {permission : Permission} {owner : Actor} {w w' : S × Log ι Req Resp}
    (hstep : ∀ seen r s answer s', (seen = true → Taken s) → exec k r s answer s' →
      (store.placeOf formats ns path).sees seen r answer = true → Taken s')
    (hfresh : ∀ e ∈ w.2, e.thread ≠ k)
    (hsteps : Program.Steps (recording exec k)
      (((Call.create permission ns path owner).op formats store).run, w)
      (.pure (.error (.lockHeld lock)), w')) : store.Accepts path ∧ Taken w'.1 := by
  let P : ι → Protocol Req Resp Bool := fun _ => sighting (store.placeOf formats ns path)
  have hphase : (P k).phase k w.2 = false := Protocol.phase_first (P := P) hfresh
  have hstart : ((Call.create permission ns path owner).op formats store).run.Follows (P k)
      (fun answer phase => ∀ lock, answer = .error (.lockHeld lock) →
        phase = true ∧ store.Accepts path) ((P k).phase k w.2) := by
    rw [hphase]
    exact create_sights
  have hnot : (P k).phase k w.2 = true → Taken w.1 := by
    rw [hphase]
    exact nofun
  have hkeeps : ∀ r (w : S × Log ι Req Resp) answer s', ((P k).phase k w.2 = true → Taken w.1) →
      (P k).may ((P k).phase k w.2) r → exec k r w.1 answer s' →
      (P k).phase k (⟨k, r, answer⟩ :: w.2) = true → Taken s' := by
    intro r w answer s' hw _ hexec
    rw [Protocol.phase_own (P := P)]
    exact hstep _ r w.1 answer s' hw hexec
  obtain ⟨hseen, hanswer⟩ := Program.Steps.follows
    (I := fun w => (P k).phase k w.2 = true → Taken w.1) hkeeps hstart hnot hsteps
  obtain ⟨htrue, haccepts⟩ := hanswer lock rfl
  exact ⟨haccepts, hseen htrue⟩

end

end Lfsx.Locks
