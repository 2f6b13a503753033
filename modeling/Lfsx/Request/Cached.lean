import Lfsx.Request.Protocol
import Lfsx.Request.Within

/-!
# A value that is loaded now and then

A slot holds a value with the time it was loaded.  `Cached.get` takes the lock of the slot, and
answers the value if it is young enough.  Otherwise it loads another one, which takes requests
of its own, and keeps it before it gives the lock back.  `Cached.invalidate` empties the slot,
for which it waits for the lock too.

There is one slot in each place, and any number of tasks in a place.  A task may be dropped
wherever it waits, and then the lock it has is free, with the slot as it is.

What a task got was loaded after every `invalidate` of its place there had been when it began
(`Had.after`), and less than the time to live before it looked.  A task that loads follows its
load request by request (`protocol`), and as long as it does, nobody empties the slot.
-/

namespace Request

variable {ι ρ Req V S ε α : Type} {Resp : Req → Type}

namespace Cached

/-! ## The interface -/

inductive Ask (Req V : Type) where
  | outer (r : Req)
  /-- Wait for the lock, and look at the slot and the clock. -/
  | lock
  | keep (value : V)
  | unlock
  | clear

abbrev Reply (Resp : Req → Type) (V : Type) : Ask Req V → Type
  | .outer r => Resp r
  | .lock => Nat × Option (Nat × V)
  | .keep _ => Nat
  | .unlock => Unit
  | .clear => Unit

abbrev Op (ε : Type) (Resp : Req → Type) (V α : Type) := Fallible ε (Ask Req V) (Reply Resp V) α

/-- Requests for something else. -/
def outer (op : Fallible ε Req Resp α) : Op ε Resp V α := op.within .outer fun _ answer => answer

/-- The value that was found, if it was loaded less than `ttl` ago. -/
def fresh (ttl : Nat) (found : Nat × Option (Nat × V)) : Option V :=
  match found.2 with
  | some (loaded, value) => if found.1 - loaded < ttl then some value else none
  | none => none

def get (ttl : Nat) (load : Fallible ε Req Resp V) : Op ε Resp V V := do
  let found ← (Fallible.certain Ask.lock : Op ε Resp V (Nat × Option (Nat × V)))
  match fresh ttl found with
  | some value => do
      let _ ← (Fallible.certain Ask.unlock : Op ε Resp V Unit)
      return value
  | none => do
      match ← (outer load).attempt with
      | .ok value => do
          let _ ← (Fallible.certain (Ask.keep value) : Op ε Resp V Nat)
          return value
      | .error e => do
          let _ ← (Fallible.certain Ask.unlock : Op ε Resp V Unit)
          throw e

def invalidate : Op ε Resp V Unit :=
  (Fallible.certain Ask.clear : Op ε Resp V Unit)

/-! ## What is answered -/

/-- What a load asks, what else happens to it, and the clock. -/
structure Source (ι Req : Type) (Resp : Req → Type) (S : Type) where
  exec : ι → Semantics Req Resp S
  passes : S → S → Prop
  clock : S → Nat
  exec_clock : ∀ {i : ι} {r : Req} {s : S} {answer : Resp r} {s' : S},
    exec i r s answer s' → clock s ≤ clock s'
  passes_clock : ∀ {s s' : S}, passes s s' → clock s ≤ clock s'

structure Slot (ι V : Type) where
  value : Option (Nat × V)
  holder : Option ι
deriving DecidableEq

/-- A slot nobody has loaded anything into. -/
def Slot.empty : Slot ι V := ⟨none, none⟩

structure World (ι ρ V S : Type) where
  inner : S
  slots : ρ → Slot ι V
  /-- The tasks that were dropped. -/
  dropped : List ι

namespace World

variable [DecidableEq ρ] (w : World ι ρ V S)

def setSlot (p : ρ) (slot : Slot ι V) : World ι ρ V S :=
  { w with slots := Function.update w.slots p slot }

/-- Nobody has the lock, or who had it was dropped. -/
def Free (p : ρ) : Prop := ∀ j, (w.slots p).holder = some j → j ∈ w.dropped

@[simp] theorem setSlot_inner (p : ρ) (slot : Slot ι V) : (w.setSlot p slot).inner = w.inner := rfl

@[simp] theorem setSlot_dropped (p : ρ) (slot : Slot ι V) :
    (w.setSlot p slot).dropped = w.dropped := rfl

@[simp] theorem setSlot_self (p : ρ) (slot : Slot ι V) : (w.setSlot p slot).slots p = slot := by
  simp [setSlot]

@[simp] theorem setSlot_other {p q : ρ} (h : q ≠ p) (slot : Slot ι V) :
    (w.setSlot p slot).slots q = w.slots q := by
  simp [setSlot, h]

end World

section Serves

variable [DecidableEq ρ] (source : Source ι Req Resp S) (place : ι → ρ)

def Answers (i : ι) : Semantics (Ask Req V) (Reply Resp V) (World ι ρ V S)
  | .outer r, w, answer, w' =>
      ∃ s, source.exec i r w.inner answer s ∧ w' = { w with inner := s }
  | .lock, w, answer, w' =>
      w.Free (place i) ∧ answer = (source.clock w.inner, (w.slots (place i)).value) ∧
        w' = w.setSlot (place i) ⟨(w.slots (place i)).value, some i⟩
  | .keep value, w, answer, w' =>
      answer = source.clock w.inner ∧
        w' = w.setSlot (place i) ⟨some (source.clock w.inner, value), none⟩
  | .unlock, w, _, w' => w' = w.setSlot (place i) ⟨(w.slots (place i)).value, none⟩
  | .clear, w, _, w' => w.Free (place i) ∧ w' = w.setSlot (place i) .empty

/-- Time passes, and tasks are dropped. -/
structure Passes (w w' : World ι ρ V S) : Prop where
  inner : source.passes w.inner w'.inner
  slots : w'.slots = w.slots
  dropped : w.dropped ⊆ w'.dropped

/-- A task that was dropped is answered no more. -/
def serves (i : ι) : Semantics (Ask Req V) (Reply Resp V) (World ι ρ V S) :=
  fun r w answer w' =>
    ∃ w₁, Passes source w w₁ ∧ i ∉ w₁.dropped ∧ Answers source place i r w₁ answer w'

end Serves

/-! ## What a task does -/

abbrev Past (ι : Type) (Resp : Req → Type) (V : Type) := Log ι (Ask Req V) (Reply Resp V)

inductive Phase (Resp : Req → Type) where
  /-- The task has no lock. -/
  | idle
  /-- It has the lock, and was told this since. -/
  | locked (told : List (Answered Req Resp))

namespace Phase

variable (load : Fallible ε Req Resp V)

def may : Phase Resp → Ask Req V → Prop
  | .idle, .outer _ => True
  | .idle, .lock => True
  | .idle, .clear => True
  | .locked told, .outer r => ∃ next, load.run.Told told (.request r next)
  | .locked told, .keep value => load.Told told (.ok value)
  | .locked _, .unlock => True
  | _, _ => False

def next : Phase Resp → (r : Ask Req V) → Reply Resp V r → Phase Resp
  | .idle, .lock, _ => .locked []
  | .locked told, .outer r, answer => .locked (⟨r, answer⟩ :: told)
  | .locked _, .keep _, _ => .idle
  | .locked _, .unlock, _ => .idle
  | phase, _, _ => phase

end Phase

/-- With the lock of a slot, a task does what the load asks. -/
def protocol (load : Fallible ε Req Resp V) :
    Protocol (Ask Req V) (Reply Resp V) (Phase Resp) where
  first := .idle
  may := Phase.may load
  next := Phase.next

section Follows

variable {ttl : Nat} {load : Fallible ε Req Resp V}

/-- Without the lock, requests for something else are free. -/
theorem outer_follows {ε' : Type} (op : Fallible ε' Req Resp α) :
    (outer op : Op ε' Resp V α).Follows (protocol load) (fun _ phase => phase = .idle) .idle := by
  have hprogram : ∀ p : Program Req Resp (Except ε' α),
      (p.within .outer fun _ answer => answer : Program (Ask Req V) (Reply Resp V) _).Follows
        (protocol load)
        (fun _ phase => phase = .idle) .idle := by
    intro p
    induction p with
    | pure a => exact rfl
    | request r next ih => exact ⟨trivial, fun answer => ih answer⟩
  exact hprogram op.run

/-- With the lock, the load is what it is told. -/
theorem load_follows :
    (outer load : Op ε Resp V V).Follows (protocol load)
      (fun answer phase => ∃ told, phase = .locked told ∧ load.Told told answer) (.locked []) := by
  have hprogram : ∀ (p : Program Req Resp (Except ε V)) (told : List (Answered Req Resp)),
      load.run.Told told p →
      (p.within .outer fun _ answer => answer : Program (Ask Req V) (Reply Resp V) _).Follows
        (protocol load)
        (fun answer phase => ∃ told, phase = .locked told ∧ load.Told told answer)
        (.locked told) := by
    intro p
    induction p with
    | pure a => exact fun told htold => ⟨told, rfl, htold⟩
    | request r next ih =>
        exact fun told htold => ⟨⟨next, htold⟩, fun answer => ih answer _ (.cons htold)⟩
  exact hprogram load.run [] .nil

theorem get_follows :
    (get ttl load).Follows (protocol load) (fun _ phase => phase = .idle) .idle := by
  refine Fallible.Follows.issue trivial fun found => ?_
  cases fresh ttl found with
  | some value => exact Fallible.Follows.issue trivial fun _ => Fallible.Follows.pure rfl
  | none =>
      refine Fallible.Follows.attempt load_follows fun answer phase hphase => ?_
      obtain ⟨told, rfl, htold⟩ := hphase
      cases answer with
      | ok value => exact Fallible.Follows.issue htold fun _ => Fallible.Follows.pure rfl
      | error e => exact Fallible.Follows.issue trivial fun _ => Fallible.Follows.throw rfl

theorem invalidate_follows :
    (invalidate : Op ε Resp V Unit).Follows (protocol load) (fun _ phase => phase = .idle) .idle :=
  Fallible.Follows.certain trivial fun _ => rfl

/-- What a task that got a value found, or what it kept. -/
theorem get_told {value : V} {told : List (Answered (Ask Req V) (Reply Resp V))}
    (h : (get ttl load).Told told (.ok value)) :
    (∃ found, ⟨.lock, found⟩ ∈ told ∧ fresh ttl found = some value) ∨
      ∃ loaded, ⟨.keep value, loaded⟩ ∈ told := by
  obtain ⟨found, after, rfl, hafter⟩ := Fallible.Told.issue_inv h
  cases hfresh : fresh ttl found with
  | some value' =>
      rw [hfresh] at hafter
      obtain ⟨_, after', rfl, hafter'⟩ := Fallible.Told.issue_inv hafter
      obtain ⟨rfl, hvalue⟩ := Fallible.Told.pure_inv hafter'
      cases hvalue
      exact .inl ⟨found, by simp, hfresh⟩
  | none =>
      rw [hfresh] at hafter
      obtain ⟨result, before, after', rfl, -, hafter'⟩ := Fallible.Told.attempt_ok hafter
      cases result with
      | ok value' =>
          obtain ⟨loaded, after'', rfl, hafter''⟩ := Fallible.Told.issue_inv hafter'
          obtain ⟨rfl, hvalue⟩ := Fallible.Told.pure_inv hafter''
          cases hvalue
          exact .inr ⟨loaded, by simp⟩
      | error e =>
          obtain ⟨_, after'', rfl, hafter''⟩ := Fallible.Told.issue_inv hafter'
          cases (Fallible.Told.throw_inv hafter'').2

end Follows

/-! ## What a slot holds -/

section Sound

variable [DecidableEq ι] (place : ι → ρ) (load : Fallible ε Req Resp V)

/-- Nobody emptied the slot of a place. -/
def Uncleared (p : ρ) (span : Past ι Resp V) : Prop :=
  ∀ e ∈ span, e.req = .clear → place e.thread ≠ p

/-- What a task was told, of what it asked of something else. -/
def outers (j : ι) : Past ι Resp V → List (Answered Req Resp)
  | [] => []
  | ⟨k, .outer r, answer⟩ :: past => if k = j then ⟨r, answer⟩ :: outers j past else outers j past
  | _ :: past => outers j past

/-- A task took the lock and was told this since, and nobody emptied the slot meanwhile. -/
def Holds (j : ι) (told : List (Answered Req Resp)) (past : Past ι Resp V) : Prop :=
  ∃ during found before, past = during ++ ⟨j, .lock, found⟩ :: before ∧
    Uncleared place (place j) during ∧ outers j during = told

/-- A value was loaded, and nobody has emptied the slot since the load began. -/
def Loaded (p : ρ) (value : V) (loaded : Nat) (past : Past ι Resp V) : Prop :=
  ∃ after j told past', past = after ++ ⟨j, .keep value, loaded⟩ :: past' ∧ place j = p ∧
    Uncleared place p after ∧ Holds place j told past' ∧ load.Told told (.ok value)

/-- A task found a value that was young enough, or has loaded it. -/
inductive Had (ttl : Nat) (j : ι) (value : V) : Past ι Resp V → Prop where
  | found {later before : Past ι Resp V} {now loaded : Nat} :
      loaded ≤ now → now - loaded < ttl → Loaded place load (place j) value loaded before →
      Had ttl j value (later ++ ⟨j, .lock, (now, some (loaded, value))⟩ :: before)
  | loaded {later before : Past ι Resp V} {loaded : Nat} :
      Loaded place load (place j) value loaded (⟨j, .keep value, loaded⟩ :: before) →
      Had ttl j value (later ++ ⟨j, .keep value, loaded⟩ :: before)

variable {place load ttl} {i j : ι} {p : ρ} {answers : List (Answered Req Resp)} {value : V}
  {loaded : Nat} {past : Past ι Resp V} {e : Event ι (Ask Req V) (Reply Resp V)}

omit [DecidableEq ι] in
theorem Uncleared.nil : Uncleared place p ([] : Past ι Resp V) := fun _ he => by cases he

omit [DecidableEq ι] in
theorem Uncleared.cons (h : Uncleared place p past) (he : e.req = .clear → place e.thread ≠ p) :
    Uncleared place p (e :: past) := by
  intro e' he'
  rcases List.mem_cons.mp he' with rfl | he'
  · exact he
  · exact h e' he'

theorem outers_own {r : Req} {answer : Resp r} :
    outers j (⟨j, .outer r, answer⟩ :: past) = ⟨r, answer⟩ :: outers j past :=
  if_pos rfl

theorem outers_other (h : e.thread ≠ j) : outers j (e :: past) = outers j past := by
  obtain ⟨k, r, answer⟩ := e
  cases r with
  | outer r => exact if_neg h
  | lock => rfl
  | keep value => rfl
  | unlock => rfl
  | clear => rfl

theorem Holds.cons (h : Holds place j answers past) (hj : e.thread ≠ j)
    (he : e.req = .clear → place e.thread ≠ place j) : Holds place j answers (e :: past) := by
  obtain ⟨during, found, before, rfl, hkept, rfl⟩ := h
  exact ⟨e :: during, found, before, rfl, hkept.cons he, outers_other hj⟩

theorem Holds.told {r : Req} {answer : Resp r} (h : Holds place j answers past) :
    Holds place j (⟨r, answer⟩ :: answers) (⟨j, .outer r, answer⟩ :: past) := by
  obtain ⟨during, found, before, rfl, hkept, rfl⟩ := h
  exact ⟨_ :: during, found, before, rfl, hkept.cons (fun he => nomatch he), outers_own⟩

theorem Loaded.cons (h : Loaded place load p value loaded past)
    (he : e.req = .clear → place e.thread ≠ p) : Loaded place load p value loaded (e :: past) := by
  obtain ⟨after, j, told, past', rfl, hplace, hkept, hholds, htold⟩ := h
  exact ⟨e :: after, j, told, past', rfl, hplace, hkept.cons he, hholds, htold⟩

variable (source : Source ι Req Resp S) (place load)

/-- What the slots hold was loaded, and who has the lock is at the load.  So what was found was
loaded, and what was kept. -/
structure Sound (w : World ι ρ V S × Past ι Resp V) : Prop where
  value : ∀ p loaded value, (w.1.slots p).value = some (loaded, value) →
    loaded ≤ source.clock w.1.inner ∧ Loaded place load p value loaded w.2
  holds : ∀ j told, (protocol load).phase j w.2 = .locked told → j ∉ w.1.dropped →
    (w.1.slots (place j)).holder = some j ∧ Holds place j told w.2
  found : ∀ later before j now loaded value,
    w.2 = later ++ ⟨j, .lock, (now, some (loaded, value))⟩ :: before →
    loaded ≤ now ∧ Loaded place load (place j) value loaded before
  kept : ∀ later before j value loaded, w.2 = later ++ ⟨j, .keep value, loaded⟩ :: before →
    Loaded place load (place j) value loaded (⟨j, .keep value, loaded⟩ :: before)

variable {source place load} {ttl : Nat} {w : World ι ρ V S × Past ι Resp V}

/-- What a task got. -/
theorem Sound.had {told : List (Answered (Ask Req V) (Reply Resp V))}
    (hw : Sound place load source w) (h : (get ttl load).Told told (.ok value))
    (hmem : ∀ r answer, (⟨r, answer⟩ : Answered _ _) ∈ told → ⟨j, r, answer⟩ ∈ w.2) :
    Had place load ttl j value w.2 := by
  rcases get_told h with ⟨⟨now, held⟩, hfound, hfresh⟩ | ⟨loaded, hkept⟩
  · obtain ⟨later, before, hpast⟩ := List.append_of_mem (hmem _ _ hfound)
    rw [fresh] at hfresh
    split at hfresh
    case h_1 loaded value' hheld =>
      obtain ⟨hage, hsame⟩ := Option.ite_none_right_eq_some.mp hfresh
      obtain rfl := Option.some.inj hsame
      obtain rfl : held = some (loaded, value') := hheld
      obtain ⟨hle, hloaded⟩ := hw.found later before j now loaded value' hpast
      rw [hpast]
      exact .found hle hage hloaded
    case h_2 => cases hfresh
  · obtain ⟨later, before, hpast⟩ := List.append_of_mem (hmem _ _ hkept)
    rw [hpast]
    exact .loaded (hw.kept later before j value loaded hpast)

theorem Sound.passes {w₁ : World ι ρ V S} (hw : Sound place load source w)
    (h : Passes source w.1 w₁) : Sound place load source (w₁, w.2) where
  value := by
    intro p loaded value hvalue
    rw [h.slots] at hvalue
    obtain ⟨hle, hloaded⟩ := hw.value p loaded value hvalue
    exact ⟨Nat.le_trans hle (source.passes_clock h.inner), hloaded⟩
  holds := by
    intro j told hphase hj
    rw [h.slots]
    exact hw.holds j told hphase fun hdropped => hj (h.dropped hdropped)
  found := hw.found
  kept := hw.kept

/-- A request of one task: what it makes of the slots, and of its own phase. -/
theorem Sound.entered {r : Ask Req V} {answer : Reply Resp V r} {w' : World ι ρ V S}
    (hw : Sound place load source w) (hdropped : w'.dropped = w.1.dropped)
    (hvalue : ∀ p loaded value, (w'.slots p).value = some (loaded, value) →
      loaded ≤ source.clock w'.inner ∧
        Loaded place load p value loaded (⟨i, r, answer⟩ :: w.2))
    (hothers : ∀ j, j ≠ i → j ∉ w.1.dropped → (w.1.slots (place j)).holder = some j →
      (w'.slots (place j)).holder = some j ∧ (r = .clear → place i ≠ place j))
    (hlocked : ∀ told, ((protocol load).phase i w.2).next r answer = .locked told →
      i ∉ w.1.dropped → (w'.slots (place i)).holder = some i ∧
        Holds place i told (⟨i, r, answer⟩ :: w.2))
    (hfound : ∀ now loaded value, (⟨i, r, answer⟩ : Event ι (Ask Req V) (Reply Resp V)) =
      ⟨i, .lock, (now, some (loaded, value))⟩ →
      loaded ≤ now ∧ Loaded place load (place i) value loaded w.2)
    (hkept : ∀ value loaded, (⟨i, r, answer⟩ : Event ι (Ask Req V) (Reply Resp V)) =
      ⟨i, .keep value, loaded⟩ →
      Loaded place load (place i) value loaded (⟨i, .keep value, loaded⟩ :: w.2)) :
    Sound place load source (w', ⟨i, r, answer⟩ :: w.2) := by
  refine ⟨hvalue, ?_, ?_, ?_⟩
  · intro j told hphase hj
    rw [hdropped] at hj
    by_cases hij : j = i
    · subst hij
      exact hlocked told ((trail_own r answer w.2).symm.trans hphase) hj
    · have hother : (protocol load).phase j (⟨i, r, answer⟩ :: w.2) = (protocol load).phase j w.2 :=
        trail_other (Ne.symm hij) r answer w.2
      rw [hother] at hphase
      obtain ⟨hholder, hholds⟩ := hw.holds j told hphase hj
      obtain ⟨hholder', hclear⟩ := hothers j hij hj hholder
      exact ⟨hholder', hholds.cons (Ne.symm hij) hclear⟩
  · intro later before j now loaded value hpast
    cases later with
    | nil =>
        obtain ⟨hevent, rfl⟩ := List.cons.inj hpast
        obtain rfl : i = j := congrArg Event.thread hevent
        exact hfound now loaded value hevent
    | cons e later => exact hw.found later before j now loaded value (List.cons.inj hpast).2
  · intro later before j value loaded hpast
    cases later with
    | nil =>
        obtain ⟨hevent, rfl⟩ := List.cons.inj hpast
        obtain rfl : i = j := congrArg Event.thread hevent
        exact hkept value loaded hevent
    | cons e later => exact hw.kept later before j value loaded (List.cons.inj hpast).2

/-! ### One request -/

section Steps

variable [DecidableEq ρ] {w' : World ι ρ V S}

theorem Sound.outer {r : Req} {answer : Resp r} (hw : Sound place load source w)
    (h : Answers source place i (.outer r) w.1 answer w') :
    Sound place load source (w', ⟨i, .outer r, answer⟩ :: w.2) := by
  obtain ⟨s, hexec, rfl⟩ := h
  refine hw.entered rfl ?_ (fun _ _ _ hholder => ⟨hholder, fun he => nomatch he⟩) ?_
    (fun _ _ _ he => nomatch he) (fun _ _ he => nomatch he)
  · intro p loaded value hvalue
    obtain ⟨hle, hloaded⟩ := hw.value p loaded value hvalue
    exact ⟨Nat.le_trans hle (source.exec_clock hexec), hloaded.cons fun he => nomatch he⟩
  · intro told hnext hi
    cases hphase : (protocol load).phase i w.2 with
    | idle =>
        rw [hphase] at hnext
        cases hnext
    | locked told' =>
        rw [hphase] at hnext
        cases hnext
        obtain ⟨hholder, hholds⟩ := hw.holds i _ hphase hi
        exact ⟨hholder, hholds.told⟩

/-- A slot that keeps its value. -/
theorem Sound.value_kept {p' : ρ} {holder : Option ι} (hw : Sound place load source w)
    (he : e.req ≠ .clear) (p : ρ) (loaded : Nat) (value : V)
    (hvalue : ((w.1.setSlot p' ⟨(w.1.slots p').value, holder⟩).slots p).value =
      some (loaded, value)) :
    loaded ≤ source.clock w.1.inner ∧ Loaded place load p value loaded (e :: w.2) := by
  have hbefore : (w.1.slots p).value = some (loaded, value) := by
    by_cases hp : p = p'
    · subst hp
      rwa [World.setSlot_self] at hvalue
    · rwa [World.setSlot_other _ hp] at hvalue
  obtain ⟨hle, hloaded⟩ := hw.value p loaded value hbefore
  exact ⟨hle, hloaded.cons fun heq => absurd heq he⟩

omit [DecidableEq ι] [DecidableEq ρ] in
/-- Another task at its load is in another place, if the lock is free or ours. -/
theorem place_ne {w : World ι ρ V S} (hj : j ∉ w.dropped)
    (hfree : (w.slots (place i)).holder = some j → j ∈ w.dropped)
    (hholder : (w.slots (place j)).holder = some j) : place j ≠ place i := by
  intro heq
  rw [heq] at hholder
  exact hj (hfree hholder)

theorem Sound.lock {answer : Nat × Option (Nat × V)} (hw : Sound place load source w)
    (hmay : ((protocol load).phase i w.2).may load .lock)
    (h : Answers source place i .lock w.1 answer w') :
    Sound place load source (w', ⟨i, .lock, answer⟩ :: w.2) := by
  obtain ⟨hfree, rfl, rfl⟩ := h
  cases hphase : (protocol load).phase i w.2 with
  | locked told =>
      rw [hphase] at hmay
      exact hmay.elim
  | idle =>
      refine hw.entered rfl (hw.value_kept fun he => nomatch he) ?_ ?_ ?_
        (fun _ _ he => nomatch he)
      · intro j hj hdropped hholder
        rw [World.setSlot_other _ (place_ne hdropped (hfree j) hholder)]
        exact ⟨hholder, fun he => nomatch he⟩
      · intro told hnext _
        rw [hphase] at hnext
        cases hnext
        rw [World.setSlot_self]
        exact ⟨rfl, [], _, w.2, rfl, .nil, rfl⟩
      · intro now loaded value hevent
        injection hevent with _ _ hanswer
        injection hanswer with hnow hvalue
        obtain ⟨hle, hloaded⟩ := hw.value _ loaded value hvalue
        exact ⟨hnow ▸ hle, hloaded⟩

theorem Sound.keep {answer : Nat} (hw : Sound place load source w) (hi : i ∉ w.1.dropped)
    (hmay : ((protocol load).phase i w.2).may load (.keep value))
    (h : Answers source place i (.keep value) w.1 answer w') :
    Sound place load source (w', ⟨i, .keep value, answer⟩ :: w.2) := by
  obtain ⟨rfl, rfl⟩ := h
  cases hphase : (protocol load).phase i w.2 with
  | idle =>
      rw [hphase] at hmay
      exact hmay.elim
  | locked told =>
      rw [hphase] at hmay
      obtain ⟨hmine, hholds⟩ := hw.holds i told hphase hi
      have hloaded : Loaded place load (place i) value (source.clock w.1.inner)
          (⟨i, .keep value, source.clock w.1.inner⟩ :: w.2) :=
        ⟨[], i, told, w.2, rfl, rfl, .nil, hholds, hmay⟩
      refine hw.entered rfl ?_ ?_ ?_ (fun _ _ _ he => nomatch he) ?_
      · intro p loaded value' hvalue
        by_cases hp : p = place i
        · subst hp
          rw [World.setSlot_self] at hvalue
          cases hvalue
          exact ⟨Nat.le_refl _, hloaded⟩
        · rw [World.setSlot_other _ hp] at hvalue
          obtain ⟨hle, hbefore⟩ := hw.value p loaded value' hvalue
          exact ⟨hle, hbefore.cons fun he => nomatch he⟩
      · intro j hj hdropped hholder
        have hfree : (w.1.slots (place i)).holder = some j → j ∈ w.1.dropped :=
          fun h => absurd (Option.some.inj (hmine.symm.trans h)).symm hj
        rw [World.setSlot_other _ (place_ne hdropped hfree hholder)]
        exact ⟨hholder, fun he => nomatch he⟩
      · intro told' hnext
        rw [hphase] at hnext
        cases hnext
      · intro value' loaded hevent
        cases hevent
        exact hloaded

theorem Sound.unlock {answer : Unit} (hw : Sound place load source w) (hi : i ∉ w.1.dropped)
    (hmay : ((protocol load).phase i w.2).may load .unlock)
    (h : Answers source place i .unlock w.1 answer w') :
    Sound place load source (w', ⟨i, .unlock, answer⟩ :: w.2) := by
  obtain rfl := h
  cases hphase : (protocol load).phase i w.2 with
  | idle =>
      rw [hphase] at hmay
      exact hmay.elim
  | locked told =>
      obtain ⟨hmine, -⟩ := hw.holds i told hphase hi
      refine hw.entered rfl (hw.value_kept fun he => nomatch he) ?_ ?_
        (fun _ _ _ he => nomatch he) (fun _ _ he => nomatch he)
      · intro j hj hdropped hholder
        have hfree : (w.1.slots (place i)).holder = some j → j ∈ w.1.dropped :=
          fun h => absurd (Option.some.inj (hmine.symm.trans h)).symm hj
        rw [World.setSlot_other _ (place_ne hdropped hfree hholder)]
        exact ⟨hholder, fun he => nomatch he⟩
      · intro told' hnext
        rw [hphase] at hnext
        cases hnext

theorem Sound.clear {answer : Unit} (hw : Sound place load source w)
    (hmay : ((protocol load).phase i w.2).may load .clear)
    (h : Answers source place i .clear w.1 answer w') :
    Sound place load source (w', ⟨i, .clear, answer⟩ :: w.2) := by
  obtain ⟨hfree, rfl⟩ := h
  cases hphase : (protocol load).phase i w.2 with
  | locked told =>
      rw [hphase] at hmay
      exact hmay.elim
  | idle =>
      refine hw.entered rfl ?_ ?_ ?_ (fun _ _ _ he => nomatch he) (fun _ _ he => nomatch he)
      · intro p loaded value hvalue
        by_cases hp : p = place i
        · subst hp
          rw [World.setSlot_self] at hvalue
          cases hvalue
        · rw [World.setSlot_other _ hp] at hvalue
          obtain ⟨hle, hloaded⟩ := hw.value p loaded value hvalue
          exact ⟨hle, hloaded.cons fun _ heq => hp heq.symm⟩
      · intro j hj hdropped hholder
        have hplace := place_ne hdropped (hfree j) hholder
        rw [World.setSlot_other _ hplace]
        exact ⟨hholder, fun _ heq => hplace heq.symm⟩
      · intro told hnext
        rw [hphase] at hnext
        cases hnext

/-- **One step.** -/
theorem Sound.step {r : Ask Req V} {answer : Reply Resp V r} (hw : Sound place load source w)
    (hmay : (protocol load).may ((protocol load).phase i w.2) r)
    (h : serves source place i r w.1 answer w') :
    Sound place load source (w', ⟨i, r, answer⟩ :: w.2) := by
  obtain ⟨w₁, hpasses, hi, hanswers⟩ := h
  have hw₁ := hw.passes hpasses
  cases r with
  | outer r => exact hw₁.outer hanswers
  | lock => exact hw₁.lock hmay hanswers
  | keep value => exact hw₁.keep hi hmay hanswers
  | unlock => exact hw₁.unlock hi hmay hanswers
  | clear => exact hw₁.clear hmay hanswers

/-- **Every run**, of tasks that follow the load with the lock and ask freely without it. -/
theorem Sound.steps {Q : ι → α → Phase Resp → Prop}
    {pool pool' : Pool ι (Ask Req V) (Reply Resp V) α (World ι ρ V S × Past ι Resp V)}
    (hfollows : ∀ i, (pool.progs i).Follows (protocol load) (Q i)
      ((protocol load).phase i pool.state.2))
    (hw : Sound place load source pool.state)
    (hsteps : Pool.Steps (recording (serves source place)) pool pool') :
    Sound place load source pool'.state :=
  (Pool.Steps.follows (P := fun _ => protocol load)
    (fun _ _ _ _ _ hw hmay hserves => hw.step hmay hserves) hfollows hw hsteps).1

omit [DecidableEq ρ] in
/-- At the start nothing is loaded. -/
theorem Sound.start (inner : S) (dropped : List ι) :
    Sound place load source (⟨inner, fun _ => .empty, dropped⟩, []) where
  value := fun p loaded value hvalue => by cases hvalue
  holds := fun j told hphase => by cases hphase
  found := fun later before j now loaded value hpast => by simp at hpast
  kept := fun later before j value loaded hpast => by simp at hpast

end Steps

/-! ### What a task got -/

/-- A part of a list that begins with what is not at the end of it, and does not have the first
of that end. -/
theorem later_of_append {α : Type} {e c : α} {earlier middle rest later before : List α}
    (h : earlier ++ e :: middle ++ rest = later ++ c :: before) (he : e ∉ c :: before)
    (hc : c ∉ middle) : ∃ rest', later = earlier ++ e :: middle ++ rest' := by
  rcases List.append_eq_append_iff.mp h with ⟨rest', hlater, -⟩ | ⟨tail, htail, hbefore⟩
  · exact ⟨rest', hlater⟩
  · cases tail with
    | nil => exact ⟨[], by rw [List.append_nil, htail, List.append_nil]⟩
    | cons c' tail =>
        obtain ⟨rfl, hrest⟩ := List.cons.inj hbefore
        rcases List.append_eq_append_iff.mp htail with ⟨more, -, hmore⟩ | ⟨more, -, hmore⟩
        · cases more with
          | nil => exact absurd (List.cons.inj hmore).1 fun heq => he (heq ▸ List.mem_cons_self)
          | cons e' more =>
              have hmiddle := (List.cons.inj hmore).2
              exact absurd (hmiddle ▸ List.mem_append_right _ List.mem_cons_self) hc
        · have hmem : e ∈ c :: tail := hmore ▸ List.mem_append_right _ List.mem_cons_self
          refine absurd ?_ he
          rw [hbefore]
          exact List.mem_append_left _ hmem

/-- What a task got was loaded when it looked, or when it had loaded it. -/
theorem Had.looked (h : Had place load ttl j value past) :
    ∃ later e before loaded, past = later ++ e :: before ∧ e.thread = j ∧
      Loaded place load (place j) value loaded (e :: before) := by
  cases h with
  | found _ _ hloaded => exact ⟨_, _, _, _, rfl, rfl, hloaded.cons fun he => nomatch he⟩
  | loaded hloaded => exact ⟨_, _, _, _, rfl, rfl, hloaded⟩

/-- **What was got is newer than what was emptied.**  When a slot was emptied before a task began,
what the task got was loaded since, from the lock on. -/
theorem Had.after {k : ι} {later before : Past ι Resp V} (h : Had place load ttl j value past)
    (hpast : past = later ++ ⟨k, .clear, ()⟩ :: before) (hk : place k = place j)
    (hbegan : ∀ e ∈ (⟨k, .clear, ()⟩ :: before : Past ι Resp V), e.thread ≠ j) :
    ∃ i after during found rest loaded, place i = place j ∧
      load.run.Told (outers i during) (.pure (.ok value)) ∧
        later = after ++ ⟨i, .keep value, loaded⟩ :: (during ++ ⟨i, .lock, found⟩ :: rest) := by
  obtain ⟨later₀, e, before₀, loaded, hlooked, rfl, hloaded⟩ := h.looked
  obtain ⟨after, i, told, past', hspan, hplace, hafter, hholds, htold⟩ := hloaded
  obtain ⟨during, found, rest, rfl, hduring, rfl⟩ := hholds
  have huncleared : ∀ e' ∈ after ++ ⟨i, .keep value, loaded⟩ :: (during ++ [⟨i, .lock, found⟩]),
      e'.req = .clear → place e'.thread ≠ place e.thread := by
    intro e' he'
    rcases List.mem_append.mp he' with he' | he'
    · exact hafter e' he'
    · rcases List.mem_cons.mp he' with rfl | he'
      · exact fun h => nomatch h
      · rcases List.mem_append.mp he' with he' | he'
        · rw [← hplace]
          exact hduring e' he'
        · rw [List.mem_singleton.mp he']
          exact fun h => nomatch h
  obtain ⟨middle, hmiddle⟩ : ∃ middle,
      after ++ ⟨i, .keep value, loaded⟩ :: (during ++ [⟨i, .lock, found⟩]) = e :: middle := by
    cases after with
    | nil => exact ⟨_, congrArg (· :: _) (List.cons.inj hspan).1.symm⟩
    | cons e' after => exact ⟨_, congrArg (· :: _) (List.cons.inj hspan).1.symm⟩
  have hwhole : e :: before₀ = (e :: middle) ++ rest := by
    rw [hspan, ← hmiddle]
    simp
  have hparts : later₀ ++ e :: middle ++ rest = later ++ ⟨k, .clear, ()⟩ :: before := by
    rw [← hpast, hlooked, hwhole, List.append_assoc]
  have hnot : (⟨k, .clear, ()⟩ : Event ι (Ask Req V) (Reply Resp V)) ∉ middle := by
    intro hmem
    refine huncleared ⟨k, .clear, ()⟩ ?_ rfl hk
    rw [hmiddle]
    exact List.mem_cons_of_mem _ hmem
  obtain ⟨rest', hlater⟩ := later_of_append hparts (fun hmem => hbegan e hmem rfl) hnot
  refine ⟨i, later₀ ++ after, during, found, rest', loaded, hplace, htold, ?_⟩
  rw [hlater, ← hmiddle]
  simp

end Sound

/-! ## A slot that is served at once -/

section Respond

variable [DecidableEq ι] [DecidableEq ρ] {source : Source ι Req Resp S} {place : ι → ρ}
  {handle : ι → (r : Req) → S → Option (Resp r × S)}

/-- Nobody is dropped, and no time passes but what requests take. -/
def respond (source : Source ι Req Resp S) (place : ι → ρ)
    (handle : ι → (r : Req) → S → Option (Resp r × S)) (i : ι) (r : Ask Req V)
    (w : World ι ρ V S) : Option (Reply Resp V r × World ι ρ V S) :=
  if i ∈ w.dropped then none
  else
    match r with
    | .outer r => (handle i r w.inner).map fun answered =>
        (answered.1, { w with inner := answered.2 })
    | .lock =>
        if (w.slots (place i)).holder = none then
          some ((source.clock w.inner, (w.slots (place i)).value),
            w.setSlot (place i) ⟨(w.slots (place i)).value, some i⟩)
        else none
    | .keep value =>
        some (source.clock w.inner,
          w.setSlot (place i) ⟨some (source.clock w.inner, value), none⟩)
    | .unlock => some ((), w.setSlot (place i) ⟨(w.slots (place i)).value, none⟩)
    | .clear =>
        if (w.slots (place i)).holder = none then some ((), w.setSlot (place i) .empty) else none

theorem respond_serves (hwaits : ∀ s, source.passes s s)
    (hexec : ∀ i r s answered, handle i r s = some answered →
      source.exec i r s answered.1 answered.2)
    (i : ι) (r : Ask Req V) (w : World ι ρ V S) (answered : Reply Resp V r × World ι ρ V S)
    (h : respond source place handle i r w = some answered) :
    serves source place i r w answered.1 answered.2 := by
  unfold respond at h
  split at h
  case isTrue => cases h
  case isFalse hi =>
    refine ⟨w, ⟨hwaits w.inner, rfl, List.Subset.refl _⟩, hi, ?_⟩
    have hfree : (w.slots (place i)).holder = none → w.Free (place i) := by
      intro hnone j hholder
      rw [hnone] at hholder
      cases hholder
    cases r with
    | outer r =>
        obtain ⟨given, hgiven, rfl⟩ := Option.map_eq_some_iff.mp h
        exact ⟨given.2, hexec i r w.inner given hgiven, rfl⟩
    | lock =>
        obtain ⟨hnone, heq⟩ := Option.ite_none_right_eq_some.mp h
        cases heq
        exact ⟨hfree hnone, rfl, rfl⟩
    | keep value =>
        cases h
        exact ⟨rfl, rfl⟩
    | unlock =>
        cases h
        rfl
    | clear =>
        obtain ⟨hnone, heq⟩ := Option.ite_none_right_eq_some.mp h
        cases heq
        exact ⟨hfree hnone, rfl⟩

end Respond

end Cached

end Request
