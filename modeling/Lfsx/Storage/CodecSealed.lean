import Lfsx.Storage.CodecTampering

/-!
# The sealing sequence

The writer, with a log of what it flushes and of what it gives the cipher: the entry of a
sealing is made by the cipher that is called, out of its arguments (`Traced.encrypt`).  Without
the log it is the writer it was (`Traced.erases_write`).

Whether a frame is the last is known only when the stream ends, so a full frame is held back.
`Midway` is what holds between two pushes: what was flushed are full frames, none of them the
last, what is pending comes after them, and something is pending if anything was flushed.
So the log of a whole run is that of the frames of the plaintext (`leaves_write`), however it
was split into pushes, and a run that fails has logged the first of them.  The file of a run
that ends is the container of what the cipher made of the calls that were logged
(`sealing_canonical`).
-/

namespace Lfsx.Storage

open Codec

/-- A frame that is flushed. -/
structure Flush where
  index : Nat
  last : Bool
  plain : Bytes
deriving DecidableEq

/-- A call of the cipher: its key, the nonce, the associated data, and what it seals. -/
structure Sealing where
  cipher : Bytes
  nonce : Bytes
  aad : Bytes
  plain : Bytes
deriving DecidableEq

/-- An entry of the log. -/
inductive Logged where
  | flush (flush : Flush)
  | sealing (sealing : Sealing)
deriving DecidableEq

/-- What may fail, and keeps a log either way. -/
abbrev Traced (α : Type) := ExceptT Error (StateM (List Logged)) α

namespace Traced

variable {α β : Type}

/-- The answer and the log. -/
def runFrom (op : Traced α) (log : List Logged) : Except Error α × List Logged := op.run.run log

def note (entry : Logged) : Traced Unit := modify fun log => log ++ [entry]

/-- It leaves an answer and a log in `Q`, or an error and a log in `E`. -/
def Leaves (Q : α → List Logged → Prop) (E : List Logged → Prop) (op : Traced α)
    (log : List Logged) : Prop :=
  match op.runFrom log with
  | (.ok a, log') => Q a log'
  | (.error _, log') => E log'

/-- Without the log it is `answer`. -/
def Erases (op : Traced α) (answer : Except Error α) : Prop := ∀ log, (op.runFrom log).1 = answer

@[simp] theorem runFrom_pure (a : α) (log : List Logged) :
    (pure a : Traced α).runFrom log = (.ok a, log) := rfl

@[simp] theorem runFrom_note (entry : Logged) (log : List Logged) :
    (note entry).runFrom log = (.ok (), log ++ [entry]) := rfl

@[simp] theorem runFrom_ofExcept (answer : Except Error α) (log : List Logged) :
    (MonadExcept.ofExcept answer : Traced α).runFrom log = (answer, log) := by
  cases answer <;> rfl

theorem runFrom_bind (op : Traced α) (f : α → Traced β) (log : List Logged) :
    (op >>= f).runFrom log = match op.runFrom log with
      | (.ok a, log') => (f a).runFrom log'
      | (.error e, log') => (.error e, log') := by
  rw [runFrom, ExceptT.run_bind, StateT.run_bind]
  show _ = match op.run.run log with
    | (.ok a, log') => (f a).run.run log'
    | (.error e, log') => (.error e, log')
  rcases op.run.run log with ⟨answer, log'⟩
  cases answer with
  | ok a => rfl
  | error e => rfl

theorem Leaves.bind {Q : β → List Logged → Prop} {E : List Logged → Prop} {op : Traced α}
    {f : α → Traced β} {log : List Logged}
    (h : op.Leaves (fun a log' => (f a).Leaves Q E log') E log) : (op >>= f).Leaves Q E log := by
  rw [Leaves] at h
  rw [Leaves, runFrom_bind]
  cases hrun : op.runFrom log with
  | mk answer log' =>
      rw [hrun] at h
      cases answer with
      | ok a => exact h
      | error e => exact h

theorem Leaves.pure {Q : α → List Logged → Prop} {E : List Logged → Prop} {a : α}
    {log : List Logged} (h : Q a log) : (Pure.pure a : Traced α).Leaves Q E log := h

/-- What is noted comes first. -/
theorem Leaves.note {Q : α → List Logged → Prop} {E : List Logged → Prop} {entry : Logged}
    {op : Traced α} {log : List Logged} (h : op.Leaves Q E (log ++ [entry])) :
    (Traced.note entry >>= fun _ => op).Leaves Q E log := Leaves.bind h

theorem Leaves.ofExcept {Q : β → List Logged → Prop} {E : List Logged → Prop}
    {answer : Except Error α} {f : α → Traced β} {log : List Logged}
    (hok : ∀ a, answer = .ok a → (f a).Leaves Q E log) (herror : ∀ e, answer = .error e → E log) :
    ((MonadExcept.ofExcept answer : Traced α) >>= f).Leaves Q E log := by
  apply Leaves.bind
  rw [Leaves, runFrom_ofExcept]
  cases answer with
  | ok a => exact hok a rfl
  | error e => exact herror e rfl

theorem Leaves.mono {Q Q' : α → List Logged → Prop} {E E' : List Logged → Prop} {op : Traced α}
    {log : List Logged} (h : op.Leaves Q E log) (hQ : ∀ a log', Q a log' → Q' a log')
    (hE : ∀ log', E log' → E' log') : op.Leaves Q' E' log := by
  rw [Leaves] at h ⊢
  cases hrun : op.runFrom log with
  | mk answer log' =>
      rw [hrun] at h
      cases answer with
      | ok a => exact hQ a log' h
      | error e => exact hE log' h

theorem Erases.bind {op : Traced α} {answer : Except Error α} {f : α → Traced β}
    {g : α → Except Error β} (h : op.Erases answer) (hf : ∀ a, (f a).Erases (g a)) :
    (op >>= f).Erases (answer >>= g) := by
  intro log
  have hop := h log
  rw [runFrom_bind]
  cases hrun : op.runFrom log with
  | mk answer' log' =>
      rw [hrun] at hop
      cases hop
      cases answer' with
      | ok a => exact hf a log'
      | error e => rfl

theorem erases_ofExcept (answer : Except Error α) :
    (MonadExcept.ofExcept answer : Traced α).Erases (MonadExcept.ofExcept answer) := by
  intro log
  cases answer <;> rfl

theorem erases_pure (a : α) : (pure a : Traced α).Erases (.ok a) := fun _ => rfl

/-- What is noted is not seen. -/
theorem Erases.note {entry : Logged} {op : Traced α} {answer : Except Error α}
    (h : op.Erases answer) : (Traced.note entry >>= fun _ => op).Erases answer := by
  intro log
  rw [runFrom_bind, runFrom_note]
  exact h _

/-! ## The writer -/

variable (crates : Crates)

/-- The cipher, which logs what it is called with. -/
def encrypt (cipher nonce aad plain : Bytes) : Traced (Option Bytes) := do
  note (.sealing ⟨cipher, nonce, aad, plain⟩)
  return crates.encrypt cipher nonce aad plain

/-- A flush, which logs its frame, with that cipher. -/
def flush (w : Writer) (plain : Bytes) (last : Bool) : Traced Writer := do
  note (.flush ⟨w.lengths.length, last, plain⟩)
  Writing.flush crates (encrypt crates) w plain last

def write (level : Option Int) (key : Option ObjectKey) (oid : Oid) (chunks : List Bytes) :
    Traced Bytes :=
  Writing.write (flush crates) level key oid chunks

/-! ## Without the log -/

theorem erases_encrypt (cipher nonce aad plain : Bytes) :
    (encrypt crates cipher nonce aad plain).Erases (.ok (crates.encrypt cipher nonce aad plain)) :=
  Erases.note (erases_pure _)

theorem erases_sealWith (key : ObjectKey) (index : Nat) (last : Bool) (oid : Oid)
    (plain : Bytes) :
    (key.sealWith (encrypt crates) index last oid plain : Traced Bytes).Erases
      (key.sealFrame crates index last oid plain) := by
  refine (erases_encrypt crates _ _ _ _).bind fun sealed => ?_
  cases sealed with
  | some sealed => exact erases_pure sealed
  | none => exact fun _ => rfl

theorem erases_flush (w : Writer) (plain : Bytes) (last : Bool) :
    (flush crates w plain last).Erases (w.flush crates plain last) := by
  apply Erases.note
  apply (erases_ofExcept _).bind
  rintro ⟨body, isStored⟩
  cases hkey : w.key with
  | none => exact (erases_pure body).bind fun _ => erases_pure _
  | some key => exact (erases_sealWith crates key _ _ _ _).bind fun _ => erases_pure _

theorem erases_drain (w : Writer) :
    (Writing.drain (flush crates) w).Erases (Writing.drain (Writer.flush crates) w) := by
  induction w using Writing.drain.induct with
  | case1 w h ih =>
      rw [Writing.drain, if_pos h, Writing.drain, if_pos h]
      exact (erases_flush crates w _ _).bind fun w' => ih w'
  | case2 w h =>
      rw [Writing.drain, if_neg h, Writing.drain, if_neg h]
      exact erases_pure w

theorem erases_pushes (w : Writer) (chunks : List Bytes) :
    (chunks.foldlM (Writing.push (flush crates)) w).Erases
      (chunks.foldlM (Writer.push crates) w) := by
  induction chunks generalizing w with
  | nil => exact erases_pure w
  | cons chunk chunks ih =>
      rw [List.foldlM_cons, List.foldlM_cons]
      exact (erases_drain crates _).bind fun w' => ih w'

theorem erases_finish (w : Writer) :
    (Writing.finish (flush crates) w).Erases (w.finish crates) := by
  by_cases hpending : w.pending = []
  · rw [Writing.finish, if_pos hpending, Writer.finish_nil hpending]
    exact erases_pure _
  · rw [Writing.finish, if_neg hpending, Writer.finish_pending hpending]
    have hbind := (erases_flush crates w w.pending true).bind fun w' => erases_pure w'.closed
    intro log
    refine Eq.trans (hbind log) ?_
    cases w.flush crates w.pending true <;> rfl

/-- **Without the log it is the writer.** -/
theorem erases_write (level : Option Int) (key : Option ObjectKey) (oid : Oid)
    (chunks : List Bytes) :
    (write crates level key oid chunks).Erases (Writer.write crates level key oid chunks) :=
  (erases_pushes crates _ chunks).bind fun w => erases_finish crates w

/-! ## What is logged -/

/-- How a frame is sealed, if it can be squeezed. -/
def sealingOf (level : Option Int) (key : ObjectKey) (oid : Oid) (flush : Flush) :
    Option Sealing :=
  (Writer.squeeze crates level flush.plain).toOption.map fun squeezed =>
    ⟨key.cipher, Crypt.nonce flush.index, Crypt.associated flush.index flush.last oid, squeezed.1⟩

/-- What the flush of a frame logs. -/
def entriesOf (level : Option Int) (key : Option ObjectKey) (oid : Oid) (flush : Flush) :
    List Logged :=
  .flush flush :: ((key.bind fun key => sealingOf crates level key oid flush).map .sealing).toList

/-- What the flushes of some frames log, the last of them as the last if they are `closed`. -/
def entriesFrom (level : Option Int) (key : Option ObjectKey) (oid : Oid) (closed : Bool) :
    Nat → List Bytes → List Logged
  | _, [] => []
  | index, plain :: rest =>
      entriesOf crates level key oid ⟨index, closed && rest.isEmpty, plain⟩ ++
        entriesFrom level key oid closed (index + 1) rest

/-- The log of a whole plaintext. -/
def entries (level : Option Int) (key : Option ObjectKey) (oid : Oid) (plain : Bytes) :
    List Logged :=
  entriesFrom crates level key oid true 0 (framesOf frame plain)

variable {level : Option Int} {key : Option ObjectKey} {oid : Oid} {closed : Bool} {index : Nat}
  {frames done more : List Bytes} {plain rest : Bytes} {w : Writer} {log : List Logged}

/-- Frames that others follow are not the last. -/
theorem entriesFrom_append (hmore : more ≠ []) :
    entriesFrom crates level key oid closed index (done ++ more) =
      entriesFrom crates level key oid false index done ++
        entriesFrom crates level key oid closed (index + done.length) more := by
  induction done generalizing index with
  | nil => simp [entriesFrom]
  | cons f done ih =>
      have hne : (done ++ more).isEmpty = false := by simp [hmore]
      simp only [List.cons_append, entriesFrom, hne, Bool.and_false, Bool.false_and, ih,
        List.length_cons, List.append_assoc]
      rw [Nat.add_assoc, Nat.add_comm 1]

/-- Full frames with something after them are the first frames of the whole. -/
theorem framesOf_append (hdone : ∀ f ∈ done, f.length = frame) (hrest : rest ≠ []) :
    framesOf frame (done.flatten ++ rest) = done ++ framesOf frame rest := by
  induction done with
  | nil => simp
  | cons f done ih =>
      have hf := hdone f List.mem_cons_self
      have hpos : 0 < rest.length := List.length_pos_iff.mpr hrest
      rw [List.flatten_cons, List.append_assoc, framesOf_of_lt (by decide)]
      · rw [List.take_left' hf, List.drop_left' hf,
          ih fun g hg => hdone g (List.mem_cons_of_mem _ hg)]
        rfl
      · simp only [List.length_append]
        omega

theorem framesOf_ne_nil (h : rest ≠ []) : framesOf frame rest ≠ [] := by
  rw [framesOf_of_ne_nil h]
  simp

/-- **What was logged of full frames is the first of what the whole logs.** -/
theorem entries_append (hdone : ∀ f ∈ done, f.length = frame) (hrest : rest ≠ []) :
    entries crates level key oid (done.flatten ++ rest) =
      entriesFrom crates level key oid false 0 done ++
        entriesFrom crates level key oid true done.length (framesOf frame rest) := by
  rw [entries, framesOf_append hdone hrest, entriesFrom_append crates (framesOf_ne_nil hrest),
    Nat.zero_add]

theorem entriesFrom_singleton :
    entriesFrom crates level key oid closed index [plain] =
      entriesOf crates level key oid ⟨index, closed, plain⟩ := by
  simp [entriesFrom]

/-- A flush logs its frame, and it changes the file and the index only. -/
theorem leaves_flush (w : Writer) (plain : Bytes) (last : Bool) (log : List Logged) :
    (flush crates w plain last).Leaves
      (fun w' log' =>
        log' = log ++ entriesOf crates w.level w.key w.oid ⟨w.lengths.length, last, plain⟩ ∧
        w'.lengths.length = w.lengths.length + 1 ∧ w'.level = w.level ∧ w'.key = w.key ∧
        w'.oid = w.oid)
      (fun log' =>
        log' <+: log ++ entriesOf crates w.level w.key w.oid ⟨w.lengths.length, last, plain⟩)
      log := by
  apply Leaves.note
  apply Leaves.ofExcept
  · rintro ⟨body, isStored⟩ hsqueeze
    cases hkey : w.key with
    | none =>
        apply Leaves.pure
        simp [entriesOf]
    | some key =>
        apply Leaves.bind
        apply Leaves.bind
        apply Leaves.note
        apply Leaves.pure
        cases crates.encrypt key.cipher (Crypt.nonce w.lengths.length)
            (Crypt.associated w.lengths.length last w.oid) body with
        | none =>
            show _ <+: _
            simp [entriesOf, sealingOf, hsqueeze, Except.toOption]
        | some sealed =>
            apply Leaves.pure
            apply Leaves.pure
            simp [entriesOf, sealingOf, hsqueeze, Except.toOption]
  · intro e _
    exact List.prefix_append_right_inj log |>.mpr ⟨_, rfl⟩

/-- Between two pushes: the bytes `seen` are full frames that were flushed, none of them as the
last, and what is pending. -/
structure Midway (level : Option Int) (key : Option ObjectKey) (oid : Oid)
    (seen : Bytes) (w : Writer)
    (log : List Logged) : Prop where
  squeezed : w.level = level
  sealed : w.key = key
  named : w.oid = oid
  flushed : ∃ done : List Bytes, (∀ f ∈ done, f.length = frame) ∧
    w.lengths.length = done.length ∧ log = entriesFrom crates level key oid false 0 done ∧
    done.flatten ++ w.pending = seen ∧ (done ≠ [] → w.pending ≠ [])

/-- **The loop of a push holds the last full frame back.** -/
theorem leaves_drain {seen : Bytes} (later : Bytes) (h : Midway crates level key oid seen w log) :
    (Writing.drain (flush crates) w).Leaves
      (fun w' log' => Midway crates level key oid seen w' log' ∧ w'.pending.length ≤ frame)
      (fun log' => log' <+: entries crates level key oid (seen ++ later)) log := by
  induction w using Writing.drain.induct generalizing log with
  | case2 w hle =>
      rw [Writing.drain, if_neg hle]
      exact Leaves.pure ⟨h, Nat.le_of_not_lt hle⟩
  | case1 w hlt ih =>
      obtain ⟨hlevel, hkey, hoid, done, hfull, hlength, hlog, hseen, hheld⟩ := h
      rw [Writing.drain, if_pos hlt]
      apply Leaves.bind
      have htake : (w.pending.take frame).length = frame := by
        rw [List.length_take]
        omega
      have hdrop : w.pending.drop frame ≠ [] := by
        intro hnil
        have hzero := congrArg List.length hnil
        rw [List.length_drop, List.length_nil] at hzero
        omega
      have hfull' : ∀ f ∈ done ++ [w.pending.take frame], f.length = frame := by
        intro f hf
        rcases List.mem_append.mp hf with hf | hf
        · exact hfull f hf
        · rw [List.mem_singleton.mp hf, htake]
      have hlogged : log ++ entriesOf crates w.level w.key w.oid
            ⟨w.lengths.length, false, w.pending.take frame⟩ =
          entriesFrom crates level key oid false 0 (done ++ [w.pending.take frame]) := by
        rw [entriesFrom_append crates (by simp), entriesFrom_singleton, hlevel, hkey, hoid,
          hlength, hlog,
          Nat.zero_add]
      have hbytes : (done ++ [w.pending.take frame]).flatten ++ w.pending.drop frame = seen := by
        rw [List.flatten_append, List.flatten_singleton, List.append_assoc,
          List.take_append_drop, hseen]
      refine (leaves_flush crates w (w.pending.take frame) false log).mono ?_ ?_
      · rintro w' log' ⟨hlog', hcount, hlevel', hkey', hoid'⟩
        apply ih
        refine ⟨hlevel'.trans hlevel, hkey'.trans hkey, hoid'.trans hoid,
          done ++ [w.pending.take frame], hfull', ?_, ?_,
          hbytes, fun _ => hdrop⟩
        · show w'.lengths.length = _
          rw [hcount, hlength, List.length_append, List.length_singleton]
        · rw [hlog', hlogged]
      · intro log' hlog'
        rw [hlogged] at hlog'
        rw [← hbytes, List.append_assoc, entries_append crates hfull' (by simp [hdrop])]
        exact hlog'.trans (List.prefix_append _ _)

theorem leaves_pushes {seen : Bytes} (later : Bytes) (chunks : List Bytes)
    (h : Midway crates level key oid seen w log)
    (hpending : w.pending.length ≤ frame) :
    (chunks.foldlM (Writing.push (flush crates)) w).Leaves
      (fun w' log' => Midway crates level key oid (seen ++ chunks.flatten) w' log' ∧
        w'.pending.length ≤ frame)
      (fun log' => log' <+: entries crates level key oid (seen ++ chunks.flatten ++ later))
      log := by
  induction chunks generalizing seen w log with
  | nil =>
      apply Leaves.pure
      simpa using ⟨h, hpending⟩
  | cons chunk chunks ih =>
      obtain ⟨hlevel, hkey, hoid, done, hfull, hlength, hlog, hseen, hheld⟩ := h
      have hmid : Midway crates level key oid (seen ++ chunk)
          { w with plaintext := w.plaintext + chunk.length,
                   pending := w.pending ++ chunk } log := by
        refine ⟨hlevel, hkey, hoid, done, hfull, hlength, hlog, ?_, ?_⟩
        · rw [← hseen, List.append_assoc]
        · intro hne hnil
          exact hheld hne (List.append_eq_nil_iff.mp hnil).1
      rw [List.foldlM_cons]
      apply Leaves.bind
      have hall : seen ++ (chunk :: chunks).flatten = seen ++ chunk ++ chunks.flatten := by
        rw [List.flatten_cons, List.append_assoc]
      rw [hall]
      have hdrain := leaves_drain crates (chunks.flatten ++ later) hmid
      refine hdrain.mono ?_ ?_
      · rintro w' log' ⟨hmid', hle⟩
        exact ih hmid' hle
      · intro log' hlog'
        rw [List.append_assoc (seen ++ chunk)]
        exact hlog'

theorem leaves_finish {seen : Bytes} (h : Midway crates level key oid seen w log)
    (hpending : w.pending.length ≤ frame) :
    (Writing.finish (flush crates) w).Leaves
      (fun _ log' => log' = entries crates level key oid seen)
      (fun log' => log' <+: entries crates level key oid seen) log := by
  obtain ⟨hlevel, hkey, hoid, done, hfull, hlength, hlog, hseen, hheld⟩ := h
  by_cases hnil : w.pending = []
  · have hdone : done = [] := by
      by_contra hne
      exact hheld hne hnil
    subst hdone
    rw [hnil] at hseen
    rw [Writing.finish, if_pos hnil]
    apply Leaves.pure
    rw [hlog, ← hseen]
    simp [entries, entriesFrom]
  · have hlogged : log ++ entriesOf crates w.level w.key w.oid ⟨w.lengths.length, true, w.pending⟩ =
        entries crates level key oid seen := by
      rw [← hseen, entries_append crates hfull hnil, framesOf_of_le hnil hpending,
        entriesFrom_singleton,
        hlevel, hkey, hoid, hlength, hlog]
    rw [Writing.finish, if_neg hnil]
    apply Leaves.bind
    refine (leaves_flush crates w w.pending true log).mono ?_ ?_
    · rintro w' log' ⟨hlog', -⟩
      apply Leaves.pure
      rw [hlog', hlogged]
    · intro log' hlog'
      rwa [hlogged] at hlog'

/-- **A run logs the frames of the plaintext, and one that fails the first of them.** -/
theorem leaves_write (level : Option Int) (key : Option ObjectKey) (oid : Oid)
    (chunks : List Bytes) :
    (write crates level key oid chunks).Leaves
      (fun _ log' => log' = entries crates level key oid chunks.flatten)
      (fun log' => log' <+: entries crates level key oid chunks.flatten) [] := by
  have hstart : Midway crates level key oid [] (Writer.start level key oid) [] :=
    ⟨rfl, rfl, rfl, [], by simp, rfl, rfl, rfl, by simp⟩
  apply Leaves.bind
  have hpushes := leaves_pushes crates [] chunks hstart (by simp [Writer.start])
  refine hpushes.mono ?_ ?_
  · rintro w log ⟨hmid, hle⟩
    exact leaves_finish crates hmid hle
  · intro log hlog
    simpa using hlog

/-! ## The sequence -/

/-- The frames that were flushed, in order. -/
def flushes (log : List Logged) : List Flush :=
  log.filterMap fun
    | .flush flush => some flush
    | .sealing _ => none

/-- What was given to the cipher, in order. -/
def sealings (log : List Logged) : List Sealing :=
  log.filterMap fun
    | .flush _ => none
    | .sealing sealing => some sealing

theorem flushes_entriesOf {flush : Flush} :
    flushes (entriesOf crates level key oid flush) = [flush] := by
  rw [entriesOf]
  cases key.bind fun key => sealingOf crates level key oid flush <;> rfl

theorem sealings_entriesOf {flush : Flush} :
    sealings (entriesOf crates level key oid flush) =
      (key.bind fun key => sealingOf crates level key oid flush).toList := by
  rw [entriesOf]
  cases key.bind fun key => sealingOf crates level key oid flush <;> rfl

theorem flushes_append (log log' : List Logged) :
    flushes (log ++ log') = flushes log ++ flushes log' := List.filterMap_append

theorem sealings_append (log log' : List Logged) :
    sealings (log ++ log') = sealings log ++ sealings log' := List.filterMap_append

theorem getElem?_flushes (i : Nat) :
    (flushes (entriesFrom crates level key oid closed index frames))[i]? =
      frames[i]?.map fun plain => ⟨index + i, closed && i + 1 == frames.length, plain⟩ := by
  induction frames generalizing index i with
  | nil => simp [entriesFrom, flushes]
  | cons f frames ih =>
      rw [entriesFrom, flushes_append, flushes_entriesOf, List.singleton_append]
      cases i with
      | zero => cases frames <;> simp
      | succ i => simp [ih, Nat.add_assoc, Nat.add_comm 1]

theorem length_flushes :
    (flushes (entriesFrom crates level key oid closed index frames)).length = frames.length := by
  induction frames generalizing index with
  | nil => rfl
  | cons f frames ih =>
      rw [entriesFrom, flushes_append, flushes_entriesOf, List.singleton_append, List.length_cons,
        ih, List.length_cons]

theorem plains_flushes :
    (flushes (entriesFrom crates level key oid closed index frames)).map Flush.plain = frames := by
  induction frames generalizing index with
  | nil => rfl
  | cons f frames ih =>
      rw [entriesFrom, flushes_append, flushes_entriesOf, List.singleton_append, List.map_cons, ih]

theorem sealings_none :
    sealings (entriesFrom crates level none oid closed index frames) = [] := by
  induction frames generalizing index with
  | nil => rfl
  | cons f frames ih =>
      rw [entriesFrom, sealings_append, sealings_entriesOf, ih]
      rfl

/-- Frames that can be squeezed are sealed, one after the other. -/
theorem sealings_some {k : ObjectKey}
    (hsqueeze : ∀ f ∈ frames, ∃ squeezed, Writer.squeeze crates level f = .ok squeezed) :
    (sealings (entriesFrom crates level (some k) oid closed index frames)).map some =
      (flushes (entriesFrom crates level (some k) oid closed index frames)).map
        (sealingOf crates level k oid) := by
  induction frames generalizing index with
  | nil => rfl
  | cons f frames ih =>
      obtain ⟨squeezed, hf⟩ := hsqueeze f List.mem_cons_self
      rw [entriesFrom, flushes_append, flushes_entriesOf, sealings_append, sealings_entriesOf,
        Option.bind_some, List.map_append, List.map_append,
        ih fun g hg => hsqueeze g (List.mem_cons_of_mem _ hg)]
      congr 1
      rw [List.map_singleton, sealingOf, hf]
      rfl

/-- Every nonce is that of a frame that was flushed. -/
theorem nonces_sublist :
    ((sealings (entriesFrom crates level key oid closed index frames)).map
      Sealing.nonce).Sublist
      ((flushes (entriesFrom crates level key oid closed index frames)).map fun flush =>
        Crypt.nonce flush.index) := by
  induction frames generalizing index with
  | nil => exact List.Sublist.refl _
  | cons f frames ih =>
      rw [entriesFrom, flushes_append, flushes_entriesOf, sealings_append, sealings_entriesOf,
        List.map_append, List.map_append]
      refine List.Sublist.append ?_ ih
      cases key with
      | none => exact List.nil_sublist _
      | some k =>
          rw [Option.bind_some, sealingOf]
          cases Writer.squeeze crates level f with
          | error e => exact List.nil_sublist _
          | ok squeezed => exact List.Sublist.refl _

/-- Whatever is sealed is sealed under the key of the object. -/
theorem cipher_of_mem {sealing : Sealing}
    (h : sealing ∈ sealings (entriesFrom crates level key oid closed index frames)) :
    ∃ k, key = some k ∧ sealing.cipher = k.cipher := by
  induction frames generalizing index with
  | nil => cases h
  | cons f frames ih =>
      rw [entriesFrom, sealings_append, sealings_entriesOf, List.mem_append] at h
      rcases h with h | h
      · obtain ⟨k, rfl, hk⟩ := Option.bind_eq_some_iff.mp (Option.mem_toList.mp h)
        obtain ⟨squeezed, -, rfl⟩ := Option.map_eq_some_iff.mp hk
        exact ⟨k, rfl, rfl⟩
      · exact ih h

/-- **No nonce is used twice.** -/
theorem nodup_nonces (hframes : frames.length < 2 ^ 32) :
    ((sealings (entriesFrom crates level key oid closed 0 frames)).map Sealing.nonce).Nodup := by
  refine List.Nodup.sublist (nonces_sublist crates) ?_
  rw [List.nodup_iff_getElem?_ne_getElem?]
  intro i j hij hj heq
  rw [List.length_map, length_flushes] at hj
  have hi : i < frames.length := hij.trans hj
  simp only [List.getElem?_map, getElem?_flushes, List.getElem?_eq_getElem hi,
    List.getElem?_eq_getElem hj, Option.map_some, Nat.zero_add, Option.some.injEq] at heq
  have hsame := Crypt.nonce_inj (hi.trans hframes) (hj.trans hframes) heq
  omega

/-- What a frame is bound to tells its place, whether it is the last, and the object. -/
theorem associated_inj {i j : Nat} {last last' : Bool} {a b : Oid} (hi : i < 2 ^ 32)
    (hj : j < 2 ^ 32) (h : Crypt.associated i last a = Crypt.associated j last' b) :
    i = j ∧ last = last' ∧ a = b := by
  have hoid := Crypt.associated_oid h
  subst hoid
  rw [Crypt.associated, Crypt.associated, List.append_assoc, List.append_assoc,
    List.append_cancel_left_eq] at h
  obtain ⟨hindex, hlast⟩ := List.append_inj h (by simp)
  refine ⟨?_, ?_, rfl⟩
  · rw [← fromLe_leBytes (w := 4) (v := i) hi, hindex, fromLe_leBytes hj]
  · cases last <;> cases last' <;> simp_all

/-- A frame of a plaintext has at least a byte, and it is full unless it is the last. -/
theorem frame_size {i : Nat} {plain frame' : Bytes}
    (h : (framesOf frame plain)[i]? = some frame') :
    frame' ≠ [] ∧ frame'.length ≤ frame ∧
      (i + 1 < (framesOf frame plain).length → frame'.length = frame) := by
  have hget := getElem?_framesOf (by decide : 0 < frame) plain i
  rw [h] at hget
  split at hget
  case isFalse => cases hget
  case isTrue hlt =>
    cases hget
    have hlength := length_slice plain (i * frame) frame
    refine ⟨?_, ?_, ?_⟩
    · intro hnil
      have hpos : 0 < frame := by decide
      rw [hnil, List.length_nil] at hlength
      omega
    · omega
    · intro hnext
      have hget' := getElem?_framesOf (by decide : 0 < frame) plain (i + 1)
      rw [List.getElem?_eq_getElem hnext] at hget'
      split at hget'
      case isFalse => cases hget'
      case isTrue hlt' =>
        rw [Nat.succ_mul] at hlt'
        omega

/-- A file that was written is the container of the frames of the log, each squeezed and, if
there is a key, sealed by the call of the cipher that was logged at its place. -/
structure Records (level : Option Int) (key : Option ObjectKey) (oid : Oid) (log : List Logged)
    (ps : List Piece) : Prop where
  counted : ps.length = (flushes log).length
  unsealed : key = none → sealings log = []
  sealed : ∀ k, key = some k → (sealings log).length = (flushes log).length
  made : ∀ i flush p, (flushes log)[i]? = some flush → ps[i]? = some p →
    ∃ body, Writer.squeeze crates level flush.plain = .ok (body, p.isStored) ∧
      (key = none → p.body = body) ∧
      ∀ k, key = some k →
        (sealings log)[i]? =
          some ⟨k.cipher, Crypt.nonce i, Crypt.associated i flush.last oid, body⟩ ∧
        crates.encrypt k.cipher (Crypt.nonce i) (Crypt.associated i flush.last oid) body =
          some p.body

/-- The pieces of a plaintext are those of its log. -/
theorem records_entries {ps : List Piece}
    (hps : Writer.encodeFrom crates level key oid 0 (framesOf frame plain) = .ok ps) :
    Records crates level key oid (entries crates level key oid plain) ps := by
  obtain ⟨hlength, hpieces⟩ := encodeFrom_eq_ok hps
  have hencode : ∀ i f p, (framesOf frame plain)[i]? = some f → ps[i]? = some p →
      Writer.encode crates level key oid i (i + 1 == (framesOf frame plain).length) f = .ok p := by
    intro i f p hf hp
    have h := hpieces i f p hf hp
    rwa [Nat.zero_add] at h
  have hsqueeze : ∀ f ∈ framesOf frame plain,
      ∃ squeezed, Writer.squeeze crates level f = .ok squeezed := by
    intro f hf
    obtain ⟨i, hi, rfl⟩ := List.mem_iff_getElem.mp hf
    obtain ⟨body, hbody, -⟩ := encode_eq_ok (hencode i _ ps[i]
      (List.getElem?_eq_getElem hi) (List.getElem?_eq_getElem (hlength ▸ hi)))
    exact ⟨_, hbody⟩
  refine ⟨by rw [entries, length_flushes, hlength], ?_, ?_, ?_⟩
  · rintro rfl
    exact sealings_none crates
  · rintro k rfl
    have hsealed : (sealings (entries crates level (some k) oid plain)).map some =
        (flushes (entries crates level (some k) oid plain)).map (sealingOf crates level k oid) :=
      sealings_some crates hsqueeze
    have hlengths := congrArg List.length hsealed
    rwa [List.length_map, List.length_map] at hlengths
  · intro i flush p hflush hp
    rw [entries, getElem?_flushes, Option.map_eq_some_iff] at hflush
    obtain ⟨f, hf, rfl⟩ := hflush
    obtain ⟨body, hbody, hkey⟩ := encode_eq_ok (hencode i f p hf hp)
    refine ⟨body, hbody, ?_, ?_⟩
    · rintro rfl
      exact hkey
    · rintro k rfl
      refine ⟨?_, sealFrame_eq_ok hkey⟩
      have hsealed : (sealings (entries crates level (some k) oid plain)).map some =
          (flushes (entries crates level (some k) oid plain)).map (sealingOf crates level k oid) :=
        sealings_some crates hsqueeze
      have hmap := congrArg (·[i]?) hsealed
      rw [entries] at hmap
      simp only [List.getElem?_map, getElem?_flushes, hf, Option.map_some, sealingOf, hbody,
        Except.toOption, Nat.zero_add] at hmap
      obtain ⟨sealing, hsealing, heq⟩ := Option.map_eq_some_iff.mp hmap
      rw [entries, hsealing, Nat.zero_add]
      exact heq

/-- **The sealing sequence is canonical.**  However a plaintext of fewer than `2 ^ 32` frames is
split into pushes, a writer that ends has flushed the frames of it in order, all full but a
nonempty last one, and only that one as the last, and its file is made of them: each frame is
what the cipher made of it, in the one call that was made for it (`Records`).  Whether it ends
or not, everything was sealed under the key of the object, and no nonce was used twice.  What a
frame is bound to tells its place, whether it is the last, and the object. -/
theorem sealing_canonical (level : Option Int) (key : Option ObjectKey) (oid : Oid)
    (chunks : List Bytes) (hframes : divCeil chunks.flatten.length frame < 2 ^ 32) :
    ((write crates level key oid chunks).runFrom []).1 =
      Writer.write crates level key oid chunks ∧
    (∀ file log, (write crates level key oid chunks).runFrom [] = (.ok file, log) →
      (flushes log).length = divCeil chunks.flatten.length frame ∧
      ((flushes log).map Flush.plain).flatten = chunks.flatten ∧
      (∀ i flush, (flushes log)[i]? = some flush →
        flush.index = i ∧ (flush.last = true ↔ i + 1 = (flushes log).length) ∧
        flush.plain ≠ [] ∧ flush.plain.length ≤ frame ∧
        (i + 1 < (flushes log).length → flush.plain.length = frame)) ∧
      ∃ ps, file = Piece.container key chunks.flatten.length ps ∧
        Records crates level key oid log ps) ∧
    (∀ sealing ∈ sealings ((write crates level key oid chunks).runFrom []).2,
      ∃ k, key = some k ∧ sealing.cipher = k.cipher) ∧
    ((sealings ((write crates level key oid chunks).runFrom []).2).map Sealing.nonce).Nodup ∧
    ∀ (i j : Nat) (last last' : Bool) (a b : Oid), i < 2 ^ 32 → j < 2 ^ 32 →
      Crypt.associated i last a = Crypt.associated j last' b → i = j ∧ last = last' ∧ a = b := by
  have hlength : (framesOf frame chunks.flatten).length < 2 ^ 32 := by
    rwa [length_framesOf (by decide)]
  have hleaves := leaves_write crates level key oid chunks
  have herases := erases_write crates level key oid chunks []
  have hstart : ((write crates level key oid chunks).runFrom []).2 <+:
      entries crates level key oid chunks.flatten := by
    rw [Leaves] at hleaves
    cases hrun : (write crates level key oid chunks).runFrom [] with
    | mk answer log =>
        rw [hrun] at hleaves
        cases answer with
        | ok file =>
            have hlog : log = entries crates level key oid chunks.flatten := hleaves
            rw [hlog]
        | error e => exact hleaves
  have hsub : (sealings ((write crates level key oid chunks).runFrom []).2).Sublist
      (sealings (entries crates level key oid chunks.flatten)) := hstart.sublist.filterMap _
  refine ⟨herases, ?_, ?_, ?_, ?_⟩
  · intro file log hrun
    rw [hrun] at herases
    rw [Leaves, hrun] at hleaves
    have hlog : log = entries crates level key oid chunks.flatten := hleaves
    subst hlog
    obtain ⟨ps, hps, rfl⟩ := Writer.pieces_of_write herases.symm
    refine ⟨?_, ?_, ?_, ps, rfl, records_entries crates hps⟩
    · rw [entries, length_flushes, length_framesOf (by decide)]
    · rw [entries, plains_flushes, flatten_framesOf]
    · intro i flush hflush
      rw [entries, getElem?_flushes, Option.map_eq_some_iff] at hflush
      obtain ⟨plain, hplain, rfl⟩ := hflush
      obtain ⟨hne, hle, hfull⟩ := frame_size hplain
      rw [entries, length_flushes]
      exact ⟨Nat.zero_add i, by simp, hne, hle, hfull⟩
  · exact fun sealing hmem => cipher_of_mem crates (hsub.subset hmem)
  · exact (nodup_nonces crates hlength).sublist (hsub.map _)
  · intro i j last last' a b hi hj h
    exact associated_inj hi hj h

/-- The key of an object. -/
def sampleKey : ObjectKey := ⟨[7], ⟨[0, 0, 0, 0], rfl⟩, ⟨List.replicate 16 0, rfl⟩⟩

/-- A frame pushed in two parts, and sealed. -/
theorem sealing_canonical_two :
    ∃ log ps, (write Crates.plain none (some sampleKey) Oid.zeros [[1], [2, 3]]).runFrom [] =
        (.ok (Piece.container (some sampleKey) 3 ps), log) ∧
      flushes log = [⟨0, true, [1, 2, 3]⟩] ∧
      sealings log =
        [⟨[7], Crypt.nonce 0, Crypt.associated 0 true Oid.zeros, [1, 2, 3]⟩] ∧
      ps.map (fun p => some p.body) =
        [Crates.plain.encrypt [7] (Crypt.nonce 0) (Crypt.associated 0 true Oid.zeros) [1, 2, 3]] ∧
      ((sealings log).map Sealing.nonce).Nodup := by
  obtain ⟨herases, hended, -, hnodup, -⟩ :=
    sealing_canonical Crates.plain none (some sampleKey) Oid.zeros [[1], [2, 3]] (by decide)
  have hframes : framesOf frame [[1], [2, 3]].flatten = [[(1 : UInt8), 2, 3]] :=
    framesOf_of_le (by decide) (by decide)
  obtain ⟨file, hfile⟩ : ∃ file, Writer.write Crates.plain none (some sampleKey) Oid.zeros
      [[1], [2, 3]] = .ok file := by
    rw [Writer.write_eq, hframes]
    exact ⟨_, rfl⟩
  rw [hfile] at herases
  cases hrun : (write Crates.plain none (some sampleKey) Oid.zeros [[1], [2, 3]]).runFrom [] with
  | mk answer log =>
      rw [hrun] at herases hnodup
      obtain rfl : answer = .ok file := herases
      obtain ⟨hlength, hplain, hplaces, ps, rfl, hrecords⟩ := hended file log hrun
      obtain ⟨flush, hflush⟩ := List.length_eq_one_iff.mp hlength
      obtain ⟨p, rfl⟩ := List.length_eq_one_iff.mp (hrecords.counted.trans hlength)
      obtain ⟨sealing, hsealing⟩ :=
        List.length_eq_one_iff.mp ((hrecords.sealed sampleKey rfl).trans hlength)
      obtain ⟨hindex, hlast, -⟩ := hplaces 0 flush (by rw [hflush]; rfl)
      have heq : flush = ⟨0, true, [1, 2, 3]⟩ := by
        obtain ⟨index, last, plain⟩ := flush
        rw [hflush] at hplain hlast
        obtain rfl : index = 0 := hindex
        obtain rfl : last = true := hlast.mpr rfl
        obtain rfl : plain = [1, 2, 3] := by simpa using hplain
        rfl
      subst heq
      obtain ⟨body, hbody, -, hkey⟩ := hrecords.made 0 _ p (by rw [hflush]; rfl) rfl
      obtain rfl : [1, 2, 3] = body := congrArg Prod.fst (Except.ok.inj hbody)
      obtain ⟨hsealed, hencrypt⟩ := hkey sampleKey rfl
      rw [hsealing] at hsealed
      cases hsealed
      refine ⟨log, [p], rfl, hflush, hsealing, ?_, hnodup⟩
      rw [List.map_singleton, ← hencrypt]
      rfl

end Traced

end Lfsx.Storage
