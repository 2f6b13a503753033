import Lfsx.Auth.Permissions
import Lfsx.Console.Access

/-!
# Access settings converge

One replica's refreshes, beside any number of changes from its dashboard and whatever other
replicas do to the store.  What a change puts in force stays, but for later changes and for
refreshes that began after it, and once everything has finished, one more refresh puts in
force what the store holds (`access_converges`).

The settings in force are those that were put last (`Counted.access`).  Which refreshes can
have put them is a matter of counting: the revision is the number of changes, so a revision
that was read is the number of changes before (`Counted.read`), and settings are replaced only
while that number stands (`Counted.refreshed`).
-/

namespace Lfsx.Console.Settings

open Request
open Auth (Access Authorizer)
open Meta (MetaError)

/-- What a replica does, and what others do to the store. -/
inductive Job where
  | refresh
  | write (saved : Saved)
  | reset
  | elsewhere (r : Meta.Req)

def Job.op (formats : Formats) (target : Target) : Job → Op Unit
  | refresh => target.refreshOne formats
  | write saved => do
      let _ ← target.write formats saved
      return ()
  | reset => do
      let _ ← target.reset formats
      return ()
  | elsewhere r => do
      let _ ← (Fallible.certain (Req.store r) : Op (Meta.Resp r))
      return ()

/-- The settings a change from the dashboard is for. -/
def Job.wants (formats : Formats) (target : Target) : Job → Option Access
  | refresh => none
  | write saved => (saved.access formats.unicode).toOption
  | reset => some target.environment
  | elsewhere _ => none

/-! ## Counting -/

abbrev Past (ι : Type) := Log ι Req Resp

section

variable {ι : Type}

/-- A change from the dashboard. -/
def isSet (e : Event ι Req Resp) : Bool :=
  match e.req with
  | .auth (.setAccess _) => true
  | _ => false

/-- The settings an event puts in force. -/
def puts : Event ι Req Resp → Option Access
  | ⟨_, .auth (.setAccess access), _⟩ => some access
  | ⟨_, .auth (.refreshAccess _ access), replaced⟩ => bif replaced then some access else none
  | _ => none

/-- The settings in force after some events: those that were put last. -/
def inForce (first : Access) (past : Past ι) : Access := (past.findSome? puts).getD first

/-- A thread has begun a refresh: it has read the revision. -/
def Began (j : ι) (past : Past ι) : Prop := ∃ seen : Nat, ⟨j, .auth .revision, seen⟩ ∈ past

/-- How many changes there were. -/
def sets (past : Past ι) : Nat := past.countP isSet

variable [DecidableEq ι]

/-- The revision an event reads. -/
def revisionOf : Event ι Req Resp → Option Nat
  | ⟨_, .auth .revision, seen⟩ => some seen
  | _ => none

/-- The revisions a thread has read. -/
def revisions (i : ι) (past : Past ι) : List Nat :=
  (past.filter fun e => decide (e.thread = i)).filterMap revisionOf

omit [DecidableEq ι] in
theorem sets_cons (e : Event ι Req Resp) (past : Past ι) :
    sets (e :: past) = sets past + if isSet e then 1 else 0 := by
  rw [sets, List.countP_cons]
  rfl

omit [DecidableEq ι] in
theorem sets_append (later before : Past ι) : sets (later ++ before) = sets later + sets before :=
  List.countP_append

theorem revisions_cons_ne {i j : ι} {r : Req} {answer : Resp r} {past : Past ι} (h : j ≠ i) :
    revisions i (⟨j, r, answer⟩ :: past) = revisions i past := by
  simp [revisions, h]

theorem revisions_cons_other {i j : ι} {r : Req} {answer : Resp r} {past : Past ι}
    (h : r ≠ .auth .revision) : revisions i (⟨j, r, answer⟩ :: past) = revisions i past := by
  have hnone : revisionOf (⟨j, r, answer⟩ : Event ι Req Resp) = none := by
    cases r with
    | store r => rfl
    | auth r => cases r <;> first | rfl | exact absurd rfl h
  by_cases hj : j = i
  · simp [revisions, hj, hj ▸ hnone]
  · exact revisions_cons_ne hj

theorem mem_revisions {i : ι} {seen : Nat} {past : Past ι}
    (h : ⟨i, .auth .revision, seen⟩ ∈ past) : seen ∈ revisions i past :=
  List.mem_filterMap.mpr ⟨_, List.mem_filter.mpr ⟨h, by simp⟩, rfl⟩

/-! ## The invariant -/

/-- A revision is a number of changes, settings are replaced only at the revision that was
read, and a change puts in force what it is for. -/
structure Counted {ρ : Type} (first : Authorizer) (wants : ι → Option Access)
    (w : World ρ × Past ι) : Prop where
  revision : w.1.auth.revision = first.revision + sets w.2
  access : w.1.auth.access = inForce first.access w.2
  changed : ∀ i access, ⟨i, .auth (.setAccess access), ()⟩ ∈ w.2 → wants i = some access
  read : ∀ later before j seen, w.2 = later ++ ⟨j, .auth .revision, seen⟩ :: before →
    seen = first.revision + sets before
  refreshed : ∀ later before j seen access,
    w.2 = later ++ ⟨j, .auth (.refreshAccess seen access), true⟩ :: before →
    seen = first.revision + sets before ∧ revisions j before = [seen]

/-- Settings are replaced at the revision that was read, and changed to what is wanted. -/
def Allowed (wants : ι → Option Access) (i : ι) (past : Past ι) : Req → Prop
  | .auth (.refreshAccess seen _) => revisions i past = [seen]
  | .auth (.setAccess access) => wants i = some access
  | _ => True

variable {ρ : Type} [DecidableEq ρ] {sha256 : Bytes → Fixed 32} {process : ι → ρ}
  {first : Authorizer} {wants : ι → Option Access}

omit [DecidableEq ι] in
/-- What a request does to the revision. -/
theorem serves_revision {i : ι} {r : Req} {answer : Resp r} {w w' : World ρ}
    (h : serves sha256 process i r w answer w') :
    w'.auth.revision =
      w.auth.revision + if isSet (⟨i, r, answer⟩ : Event ι Req Resp) then 1 else 0 := by
  cases r with
  | store r =>
      obtain ⟨s, rfl, -⟩ := h
      rfl
  | auth r =>
      obtain ⟨a, rfl, ha⟩ := h
      cases r with
      | access =>
          obtain ⟨-, rfl⟩ := ha
          rfl
      | cached caller ns =>
          obtain ⟨-, rfl⟩ := ha
          rfl
      | afford =>
          obtain ⟨-, rfl⟩ := ha
          rfl
      | ask caller ns =>
          cases ha
          show (Authorizer.answered _ _ _).revision = _
          rw [Authorizer.answered]
          split <;> rfl
      | revision =>
          obtain ⟨-, rfl⟩ := ha
          rfl
      | setAccess replacement =>
          cases ha
          rfl
      | refreshAccess seen replacement =>
          have hsnd : a = (w.auth.refreshAccess seen replacement).2 := congrArg Prod.snd ha
          subst hsnd
          show (Authorizer.refreshAccess _ _ _).2.revision = _
          rw [Authorizer.refreshAccess]
          split <;> rfl
      | wait elapsed =>
          cases ha
          rfl

omit [DecidableEq ι] in
/-- What a request does to the settings in force. -/
theorem serves_access {i : ι} {r : Req} {answer : Resp r} {w w' : World ρ}
    (h : serves sha256 process i r w answer w') :
    w'.auth.access = (puts (⟨i, r, answer⟩ : Event ι Req Resp)).getD w.auth.access := by
  cases r with
  | store r =>
      obtain ⟨s, rfl, -⟩ := h
      rfl
  | auth r =>
      obtain ⟨a, rfl, ha⟩ := h
      cases r with
      | access =>
          obtain ⟨-, rfl⟩ := ha
          rfl
      | cached caller ns =>
          obtain ⟨-, rfl⟩ := ha
          rfl
      | afford =>
          obtain ⟨-, rfl⟩ := ha
          rfl
      | ask caller ns =>
          cases ha
          show (Authorizer.answered _ _ _).access = _
          rw [Authorizer.answered]
          split <;> rfl
      | revision =>
          obtain ⟨-, rfl⟩ := ha
          rfl
      | setAccess replacement =>
          cases ha
          rfl
      | refreshAccess seen replacement =>
          have hanswer : answer = (w.auth.refreshAccess seen replacement).1 := congrArg Prod.fst ha
          have hsnd : a = (w.auth.refreshAccess seen replacement).2 := congrArg Prod.snd ha
          subst hanswer hsnd
          show (Authorizer.refreshAccess _ _ _).2.access =
            (bif (Authorizer.refreshAccess _ _ _).1 then some replacement else none).getD _
          rw [Authorizer.refreshAccess]
          split <;> rfl
      | wait elapsed =>
          cases ha
          rfl

omit [DecidableEq ι] in
theorem inForce_cons (access : Access) (e : Event ι Req Resp) (past : Past ι) :
    inForce access (e :: past) = (puts e).getD (inForce access past) := by
  rw [inForce, List.findSome?_cons]
  cases puts e with
  | none => rfl
  | some put => rfl

omit [DecidableEq ι] in
theorem inForce_append (access : Access) (later before : Past ι) :
    inForce access (later ++ before) = inForce (inForce access before) later := by
  induction later with
  | nil => rfl
  | cons e later ih => rw [List.cons_append, inForce_cons, inForce_cons, ih]

omit [DecidableEq ι] in
/-- Only a change and a refresh put settings in force. -/
theorem eq_of_puts {e : Event ι Req Resp} {access : Access} (h : puts e = some access) :
    e = ⟨e.thread, .auth (.setAccess access), ()⟩ ∨
      ∃ seen, e = ⟨e.thread, .auth (.refreshAccess seen access), true⟩ := by
  obtain ⟨j, r, answer⟩ := e
  cases r with
  | store r => cases h
  | auth r =>
      cases r with
      | setAccess replacement =>
          cases h
          exact Or.inl rfl
      | refreshAccess seen replacement =>
          cases answer with
          | false => cases h
          | true =>
              cases h
              exact Or.inr ⟨seen, rfl⟩
      | access => cases h
      | cached caller ns => cases h
      | afford => cases h
      | ask caller ns => cases h
      | revision => cases h
      | wait elapsed => cases h

theorem Counted.step {i : ι} {r : Req} {answer : Resp r} {w : World ρ × Past ι} {w' : World ρ}
    (hw : Counted first wants w) (hallowed : Allowed wants i w.2 r)
    (hstep : serves sha256 process i r w.1 answer w') :
    Counted first wants (w', ⟨i, r, answer⟩ :: w.2) where
  revision := by
    rw [sets_cons, serves_revision hstep, hw.revision, Nat.add_assoc]
  access := by
    rw [inForce_cons, serves_access hstep, hw.access]
  changed := by
    intro j access hmem
    rcases List.mem_cons.mp hmem with he | hmem
    · cases he
      exact hallowed
    · exact hw.changed j access hmem
  read := by
    intro later before j seen hpast
    cases later with
    | nil =>
        rw [List.nil_append, List.cons.injEq] at hpast
        obtain ⟨he, rfl⟩ := hpast
        cases he
        obtain ⟨a, -, hseen, -⟩ := hstep
        exact hseen.trans hw.revision
    | cons e later =>
        rw [List.cons_append, List.cons.injEq] at hpast
        exact hw.read later before j seen hpast.2
  refreshed := by
    intro later before j seen access hpast
    cases later with
    | nil =>
        rw [List.nil_append, List.cons.injEq] at hpast
        obtain ⟨he, rfl⟩ := hpast
        cases he
        obtain ⟨a, -, hrefresh⟩ := hstep
        have htrue : true = (w.1.auth.refreshAccess seen access).1 := congrArg Prod.fst hrefresh
        rw [Authorizer.refreshAccess] at htrue
        split at htrue
        case isTrue hsame => exact ⟨hsame.symm.trans hw.revision, hallowed⟩
        case isFalse => cases htrue
    | cons e later =>
        rw [List.cons_append, List.cons.injEq] at hpast
        exact hw.refreshed later before j seen access hpast.2

omit [DecidableEq ρ] in
/-- A refresh that replaced the settings after a change began after it. -/
theorem Counted.not_began {w : World ρ × Past ι} (hw : Counted first wants w)
    {later before : Past ι} {i : ι} {access : Access}
    (hpast : w.2 = later ++ ⟨i, .auth (.setAccess access), ()⟩ :: before) {j : ι} {seen' : Nat}
    {access' : Access} (hmem : ⟨j, .auth (.refreshAccess seen' access'), true⟩ ∈ later) :
    ¬ Began j before := by
  rintro ⟨seen, hbegan⟩
  obtain ⟨after, between, rfl⟩ := List.append_of_mem hmem
  obtain ⟨old, older, rfl⟩ := List.append_of_mem hbegan
  have hrefreshed := hw.refreshed after (between ++ ⟨i, .auth (.setAccess access), ()⟩ ::
    (old ++ ⟨j, .auth .revision, seen⟩ :: older)) j seen' access' (by rw [hpast]; simp)
  have hread := hw.read (after ++ ⟨j, .auth (.refreshAccess seen' access'), true⟩ :: between ++
    ⟨i, .auth (.setAccess access), ()⟩ :: old) older j seen (by rw [hpast]; simp)
  have hseen : seen ∈ revisions j (between ++ ⟨i, .auth (.setAccess access), ()⟩ ::
      (old ++ ⟨j, .auth .revision, seen⟩ :: older)) := mem_revisions (by simp)
  rw [hrefreshed.2, List.mem_singleton] at hseen
  have hcount := hrefreshed.1
  rw [sets_append, sets_cons, sets_append, sets_cons] at hcount
  simp only [isSet] at hcount
  simp only [if_true] at hcount
  omega

omit [DecidableEq ρ] in
/-- **A refresh that began before a change does not replace it.**  What is in force later is
what the change put there, or what another change or a refresh that began after it did. -/
theorem Counted.change_stands {w : World ρ × Past ι} (hw : Counted first wants w)
    {later before : Past ι} {i : ι} {access : Access}
    (hpast : w.2 = later ++ ⟨i, .auth (.setAccess access), ()⟩ :: before) :
    w.1.auth.access = inForce access later ∧
      ∀ e ∈ later, puts e ≠ none → isSet e ∨ ¬ Began e.thread before := by
  constructor
  · rw [hw.access, hpast, inForce_append, inForce_cons]
    rfl
  · intro e hmem hputs
    obtain ⟨access', hputs⟩ := Option.ne_none_iff_exists'.mp hputs
    rcases eq_of_puts hputs with he | ⟨seen, he⟩
    · refine Or.inl ?_
      rw [he]
      rfl
    · rw [he] at hmem
      exact Or.inr (hw.not_began hpast hmem)

/-! ## Operations -/

variable (ι sha256 process first wants) in
def ledger : Ledger ι Req Resp (World ρ) (Event ι Req Resp) where
  exec := serves sha256 process
  entry i r _ answer := ⟨i, r, answer⟩
  Allowed := Allowed wants
  Sound := Counted first wants
  step hw hallowed hexec := hw.step hallowed hexec

section

variable {i : ι} {w : World ρ × Past ι} {seen : List Nat} {formats : Formats} {target : Target}

/-- A fact about the events that only a revision of the thread's own can change. -/
def Aside (i : ι) (K : Past ι → Prop) : Prop :=
  ∀ j r answer past, (j = i → r ≠ .auth .revision) → K past → K (⟨j, r, answer⟩ :: past)

theorem Aside.stays {K : Past ι → Prop} (hK : Aside i K) :
    (ledger ι sha256 process first wants).Stays i K :=
  fun j r _ answer past hj h => hK j r answer past (fun h => absurd h hj) h

omit [DecidableEq ι] in
theorem Aside.of_lasting {K : Past ι → Prop} (hK : Lasting K) : Aside i K :=
  fun _ _ _ past _ h => hK _ past h

theorem aside_revisions : Aside i fun past => revisions i past = seen := by
  intro j r answer past hr h
  by_cases hj : j = i
  · rw [revisions_cons_other (hr hj), h]
  · rw [revisions_cons_ne hj, h]

variable {K : Past ι → Prop}

/-- Nothing an operation of the store asks is a revision. -/
theorem inStore_among {α : Type} (op : Meta.Op α) (hK : Aside i K) (hw : Counted first wants w)
    (hk : K w.2) :
    (ledger ι sha256 process first wants).Among i (fun _ => K) (inStore op) w :=
  Ledger.Among.within op hK.stays (fun _ _ _ past h => hK i _ _ past (by simp) h)
    (fun _ _ _ => trivial) hw hk

/-- A request that is neither a revision nor a refresh. -/
theorem aside_among {r : Req} (hr : r ≠ .auth .revision)
    (hallowed : ∀ past, Allowed wants i past r) (hK : Aside i K) (hw : Counted first wants w)
    (hk : K w.2) :
    (ledger ι sha256 process first wants).Among i (fun _ => K)
      (Fallible.certain r : Op (Resp r)) w :=
  Ledger.Among.looking hK.stays (fun _ => hK.stays) (fun past _ => hallowed past)
    (fun _ past answer h => hK i r answer past (fun _ => hr) h) hw hk

theorem saved_among (hK : Aside i K) (hw : Counted first wants w) (hk : K w.2) :
    (ledger ι sha256 process first wants).Among i (fun _ => K) (target.saved formats) w := by
  rw [Target.saved]
  refine Ledger.Among.bind (inStore_among _ hK hw hk) fun found w hw hk => ?_
  cases found with
  | none => exact Ledger.Among.pure hK.stays hw hk
  | some bytes =>
      dsimp only
      split
      · exact Ledger.Among.pure hK.stays hw hk
      · exact Ledger.Among.throw hw

theorem shown_among (hK : Aside i K) (hw : Counted first wants w) (hk : K w.2) :
    (ledger ι sha256 process first wants).Among i (fun _ => K) (target.shown formats) w := by
  rw [Target.shown]
  refine Ledger.Among.bind (saved_among hK hw hk) fun found w hw hk => ?_
  refine Ledger.Among.bind (aside_among (by simp) (fun _ => trivial) hK hw hk)
    fun access w hw hk => ?_
  exact Ledger.Among.pure hK.stays hw hk

/-- A thread has put the settings it wants in force. -/
def Changed (i : ι) (access : Access) (past : Past ι) : Prop :=
  ⟨i, .auth (.setAccess access), ()⟩ ∈ past

omit [DecidableEq ι] in
theorem aside_changed {access : Access} : Aside i (Changed i access) :=
  .of_lasting (.mem _)

/-- A change puts in force what is wanted. -/
theorem setAccess_among {access : Access} (hwants : wants i = some access)
    (hw : Counted first wants w) :
    (ledger ι sha256 process first wants).Among i (fun _ => Changed i access)
      (Fallible.certain (Req.auth (.setAccess access)) : Op Unit) w :=
  Ledger.Among.looking (K := fun _ => True) (.of_lasting .always) (fun _ => aside_changed.stays)
    (fun _ _ => hwants) (fun _ _ _ _ => List.mem_cons_self) hw trivial

/-- A change that ends well has put in force what was saved. -/
theorem write_among {saved : Saved}
    (hwants : wants i = (saved.access formats.unicode).toOption) (hw : Counted first wants w) :
    (ledger ι sha256 process first wants).Among i
      (fun _ past => ∀ access, wants i = some access → Changed i access past)
      (target.write formats saved) w := by
  have htrue : Aside i fun _ : Past ι => True := .of_lasting .always
  have hchanged : Aside i fun past : Past ι =>
      ∀ access, wants i = some access → Changed i access past :=
    .of_lasting (.all fun _ _ => .mem _)
  rw [Target.write]
  cases haccess : saved.access formats.unicode with
  | error unreadable =>
      refine Ledger.Among.pure hchanged.stays hw fun access hsome => ?_
      rw [hwants, haccess] at hsome
      cases hsome
  | ok access =>
      rw [haccess] at hwants
      dsimp only
      refine Ledger.Among.bind (shown_among htrue hw trivial) fun _ w hw _ => ?_
      split
      · exact Ledger.Among.throw hw
      · refine Ledger.Among.bind (inStore_among _ htrue hw trivial) fun _ w hw _ => ?_
        refine Ledger.Among.bind (setAccess_among hwants hw) fun _ w hw hput => ?_
        refine Ledger.Among.bind (shown_among aside_changed hw hput) fun _ w hw hput => ?_
        refine Ledger.Among.pure hchanged.stays hw fun access' hsome => ?_
        cases hwants.symm.trans hsome
        exact hput

theorem reset_among (hwants : wants i = some target.environment) (hw : Counted first wants w) :
    (ledger ι sha256 process first wants).Among i (fun _ => Changed i target.environment)
      (target.reset formats) w := by
  have htrue : Aside i fun _ : Past ι => True := .of_lasting .always
  rw [Target.reset]
  refine Ledger.Among.bind (shown_among htrue hw trivial) fun _ w hw _ => ?_
  refine Ledger.Among.bind (inStore_among _ htrue hw trivial) fun _ w hw _ => ?_
  refine Ledger.Among.bind (setAccess_among hwants hw) fun _ w hw hput => ?_
  exact shown_among aside_changed hw hput

/-- A refresh replaces the settings at the one revision it read. -/
theorem refreshOne_among (hw : Counted first wants w) (hnone : revisions i w.2 = []) :
    (ledger ι sha256 process first wants).Among i (fun _ _ => True)
      (target.refreshOne formats) w := by
  have htrue : (ledger ι sha256 process first wants).Stays i fun _ => True :=
    fun _ _ _ _ _ _ h => h
  rw [Target.refreshOne]
  refine Ledger.Among.bind (P := fun seen past => revisions i past = [seen])
    (Ledger.Among.looking aside_revisions.stays (fun _ => aside_revisions.stays)
      (fun _ _ => trivial) (fun _ past seen hnone => ?_) hw hnone) fun seen w hw hseen => ?_
  · show revisions i (⟨i, .auth .revision, seen⟩ :: past) = [seen]
    have hcons : revisions i (⟨i, .auth .revision, seen⟩ :: past) = seen :: revisions i past := by
      simp [revisions, revisionOf]
    rw [hcons, hnone]
  · refine Ledger.Among.attempt (saved_among aside_revisions hw hseen)
      (fun found w hw hseen => ?_) fun e w hw => Ledger.Among.pure htrue hw trivial
    refine Ledger.Among.bind (aside_among (by simp) (fun _ => trivial) aside_revisions hw hseen)
      fun held w hw hseen => ?_
    split
    · refine Ledger.Among.bind (P := fun _ _ => True) (Ledger.Among.looking aside_revisions.stays
        (fun _ => htrue) (fun _ h => h) (fun _ _ _ _ => trivial) hw hseen) fun _ w hw _ => ?_
      exact Ledger.Among.pure htrue hw trivial
    · exact Ledger.Among.pure htrue hw trivial

/-- A job that has ended well has put in force what it wants. -/
theorem op_among (jobs : ι → Job) (hwants : wants = fun i => (jobs i).wants formats target)
    (hw : Counted first wants (w.1, ([] : Past ι))) :
    (ledger ι sha256 process first wants).Among i
      (fun _ past => ∀ access, wants i = some access → Changed i access past)
      ((jobs i).op formats target) (w.1, []) := by
  have hchanged : (ledger ι sha256 process first wants).Stays i fun past =>
      ∀ access, wants i = some access → Changed i access past :=
    (Aside.of_lasting (.all fun _ _ => .mem _)).stays
  have hi : wants i = (jobs i).wants formats target := congrFun hwants i
  cases hjob : jobs i with
  | refresh =>
      rw [hjob] at hi
      refine Ledger.Among.mono (refreshOne_among hw rfl) fun _ past _ access hsome => ?_
      cases hi.symm.trans hsome
  | write saved =>
      rw [hjob] at hi
      exact Ledger.Among.bind (write_among hi hw) fun _ w hw h => Ledger.Among.pure hchanged hw h
  | reset =>
      rw [hjob] at hi
      refine Ledger.Among.bind (reset_among hi hw) fun _ w hw hput =>
        Ledger.Among.pure hchanged hw fun access hsome => ?_
      cases hi.symm.trans hsome
      exact hput
  | elsewhere r =>
      rw [hjob] at hi
      refine Ledger.Among.bind (aside_among (by simp) (fun _ => trivial) (.of_lasting .always) hw
        trivial) fun _ w hw _ => Ledger.Among.pure hchanged hw fun access hsome => ?_
      cases hi.symm.trans hsome

end

/-! ## One refresh alone -/

section

variable {k : ι} {w w' : World ρ × Past ι} {formats : Formats} {target : Target}

/-- A request to the store was refused. -/
def Refused (e : Event ι Req Resp) : Prop :=
  match e with
  | ⟨_, .store r, answer⟩ => Meta.Refusal r answer
  | ⟨_, .auth _, _⟩ => False

/-- A thread was refused a request. -/
def WasRefused (k : ι) (past : Past ι) : Prop := ∃ e ∈ past, e.thread = k ∧ Refused e

/-- An answer that is right, or an error because a request was refused; the state is as it
was. -/
def Honest {ε α : Type} (k : ι) (w : World ρ × Past ι) (right : Except ε α) (answer : Except ε α)
    (w' : World ρ × Past ι) : Prop :=
  w'.1 = w.1 ∧ (answer = right ∨ (∃ e, answer = .error e) ∧ WasRefused k w'.2)

/-- A read of the store changes nothing. -/
theorem openFile_answers {path : Storage.LocalPath} {answer : Except Files.Refused Nat}
    (h : (ledger ι sha256 process first wants).entering k (.store (.disk (.openFile path)))
      w answer w') :
    w'.1 = w.1 ∧ (answer = Files.Refused.notFound.unless (w.1.store.disk.inode path) ∨
      answer = .error .other ∧ WasRefused k w'.2) := by
  obtain ⟨⟨s, hs, d, rfl, hd⟩, hlog⟩ := h
  have hrefused : answer = .error .other → WasRefused k w'.2 := by
    rintro rfl
    rw [hlog]
    exact ⟨_, List.mem_cons_self, rfl, rfl⟩
  rcases hd with (⟨hanswer, rfl⟩ | ⟨-, hanswer, rfl⟩) | ⟨hlost, answer', -, rfl⟩
  · exact ⟨hs, Or.inl hanswer⟩
  · exact ⟨hs, Or.inr ⟨hanswer, hrefused hanswer⟩⟩
  · exact ⟨hs, Or.inr ⟨hlost, hrefused hlost⟩⟩

theorem readAll_answers {handle : Nat} {answer : Except Files.Refused Bytes}
    (h : (ledger ι sha256 process first wants).entering k (.store (.disk (.readAll handle)))
      w answer w') :
    w'.1 = w.1 ∧ (answer = Files.Refused.other.unless
        ((w.1.store.disk.file handle).map Files.File.bytes) ∨
      answer = .error .other ∧ WasRefused k w'.2) := by
  obtain ⟨⟨s, hs, d, rfl, hd⟩, hlog⟩ := h
  have hrefused : answer = .error .other → WasRefused k w'.2 := by
    rintro rfl
    rw [hlog]
    exact ⟨_, List.mem_cons_self, rfl, rfl⟩
  rcases hd with (⟨hanswer, rfl⟩ | ⟨-, hanswer, rfl⟩) | ⟨hlost, answer', -, rfl⟩
  · exact ⟨hs, Or.inl hanswer⟩
  · exact ⟨hs, Or.inr ⟨hanswer, hrefused hanswer⟩⟩
  · exact ⟨hs, Or.inr ⟨hlost, hrefused hlost⟩⟩

theorem get_answers {key : Text} {answer : Except Error (Option (Shelves.Item Bytes Text))}
    (h : (ledger ι sha256 process first wants).entering k (.store (.bucket (.get key)))
      w answer w') :
    w'.1 = w.1 ∧ (answer = .ok (w.1.store.bucket.items key) ∨
      (∃ e, answer = .error e) ∧ WasRefused k w'.2) := by
  obtain ⟨⟨s, hs, b, rfl, hb⟩, hlog⟩ := h
  rcases hb with ⟨hanswer, rfl⟩ | ⟨⟨e, rfl⟩, hstate⟩
  · exact ⟨hs, Or.inl hanswer⟩
  · have hb : b = w.1.store.bucket := by
      rcases hstate with rfl | ⟨answer', -, rfl⟩ <;> rfl
    subst hb
    refine ⟨hs, Or.inr ⟨⟨e, rfl⟩, ?_⟩⟩
    rw [hlog]
    exact ⟨_, List.mem_cons_self, rfl, e, rfl⟩

theorem WasRefused.entering {r : Req} {answer : Resp r} (h : WasRefused k w.2)
    (hstep : (ledger ι sha256 process first wants).entering k r w answer w') :
      WasRefused k w'.2 := by
  obtain ⟨e, hmem, he⟩ := h
  rw [hstep.2]
  exact ⟨e, List.mem_cons_of_mem _ hmem, he⟩

/-- Reading a file gives what it holds. -/
theorem readMeta_alone (backend : Meta.Backend) (name : Text) :
    (inStore (backend.readMeta name)).Ending ((ledger ι sha256 process first wants).entering k)
      (fun _ _ => True) (Honest k w (.ok (backend.holds name w.1.store))) w := by
  have hends : ∀ {answer : Except MetaError (Option Bytes)} {w' : World ρ × Past ι},
      Honest k w (.ok (backend.holds name w.1.store)) answer w' →
      (Program.pure answer : Program Req Resp _).Under
        ((ledger ι sha256 process first wants).entering k)
        (fun _ _ => False) (fun _ _ => True)
        (Honest k w (.ok (backend.holds name w.1.store))) w' :=
    fun h => Program.Under.pure Fallible.stable_never h
  cases backend with
  | bucket =>
      intro w₁ h₁ answer w₂ hexec
      obtain rfl := Fallible.eq_of_never h₁
      refine ⟨trivial, ?_⟩
      obtain ⟨hsame, rfl | ⟨⟨e, rfl⟩, hrefused⟩⟩ := get_answers hexec
      · exact hends ⟨hsame, Or.inl rfl⟩
      · exact hends ⟨hsame, Or.inr ⟨⟨_, rfl⟩, hrefused⟩⟩
  | «local» number =>
      intro w₁ h₁ answer w₂ hexec
      obtain rfl := Fallible.eq_of_never h₁
      refine ⟨trivial, ?_⟩
      obtain ⟨hsame, rfl | ⟨rfl, hrefused⟩⟩ := openFile_answers hexec
      · cases hinode : w₁.1.store.disk.inode (Meta.pathOf name) with
        | none =>
            have hholds : Meta.Backend.holds (.local number) name w₁.1.store = none := by
              rw [Meta.Backend.holds, Files.Disk.find, hinode]
              rfl
            exact hends ⟨hsame, Or.inl (by rw [hholds])⟩
        | some handle =>
            obtain ⟨file, hfile⟩ := Files.Disk.exists_file hinode
            have hholds : Meta.Backend.holds (.local number) name w₁.1.store = some file.bytes := by
              rw [Meta.Backend.holds, Files.Disk.find, hinode, Option.bind_some, hfile]
              rfl
            intro w₃ h₃ answer w₄ hexec'
            obtain rfl := Fallible.eq_of_never h₃
            refine ⟨trivial, ?_⟩
            obtain ⟨hsame', hanswer⟩ := readAll_answers hexec'
            rw [hsame, hfile] at hanswer
            rcases hanswer with rfl | ⟨rfl, hrefused⟩
            · exact hends ⟨hsame'.trans hsame, Or.inl (by rw [hholds])⟩
            · exact hends ⟨hsame'.trans hsame, Or.inr ⟨⟨_, rfl⟩, hrefused⟩⟩
      · exact hends ⟨hsame, Or.inr ⟨⟨_, rfl⟩, hrefused⟩⟩

/-- Reading the saved settings gives what they are. -/
theorem saved_alone :
    (target.saved formats).Ending ((ledger ι sha256 process first wants).entering k)
      (fun _ _ => True)
      (Honest k w (target.truth formats w.1.store)) w := by
  rw [Target.saved, inStore, Meta.Store.readSigned, Fallible.within_bind]
  refine Fallible.Ending.bind (Fallible.Ending.bind (Program.Under.mono
    (readMeta_alone target.store.backend target.file) ?_))
  rintro answer w₁ ⟨hsame, rfl | ⟨⟨e, rfl⟩, hrefused⟩⟩
  · rw [Target.truth]
    cases hholds : target.store.backend.holds target.file w.1.store with
    | none => exact Fallible.Ending.pure (Fallible.Ending.pure ⟨hsame, Or.inl rfl⟩)
    | some bytes =>
        refine Fallible.Ending.pure ?_
        simp only [Option.bind_some]
        cases hverified : target.store.verified formats.signing target.file bytes with
        | none => exact Fallible.Ending.pure ⟨hsame, Or.inl rfl⟩
        | some payload =>
            dsimp only
            cases hdecode : formats.decode payload with
            | none => exact Fallible.Ending.throw ⟨hsame, Or.inl rfl⟩
            | some saved => exact Fallible.Ending.pure ⟨hsame, Or.inl rfl⟩
  · exact ⟨hsame, Or.inr ⟨⟨e, rfl⟩, hrefused⟩⟩

/-- **One refresh alone** puts in force what is due, unless a request is refused. -/
theorem refreshOne_alone :
    (target.refreshOne formats).Ending ((ledger ι sha256 process first wants).entering k)
      (fun _ _ => True) (fun _ w' => w'.1.auth.access = target.due formats w.1 ∨
        w'.1.auth.access = w.1.auth.access ∧ WasRefused k w'.2) w := by
  rw [Target.refreshOne]
  refine Fallible.Ending.certain fun seen w₁ hexec => ⟨trivial, ?_⟩
  obtain ⟨⟨a, hw₁, hseen, rfl⟩, -⟩ := hexec
  change w₁.1 = w.1 at hw₁
  refine Fallible.Ending.attempt (Program.Under.mono saved_alone ?_)
  rintro answer w₂ ⟨hw₂, hanswer⟩
  rw [hw₁] at hw₂ hanswer
  rcases hanswer with rfl | ⟨⟨e, rfl⟩, hrefused⟩
  · cases htruth : target.truth formats w.1.store with
    | error e =>
        have hdue : target.due formats w.1 = w.1.auth.access := by rw [Target.due, htruth]
        exact Fallible.Ending.pure (Or.inl (by rw [hw₂, hdue]))
    | ok found =>
        have hdue : target.due formats w.1 = target.asked formats found := by
          rw [Target.due, htruth]
        rw [hdue]
        refine Fallible.Ending.certain fun held w₃ hexec => ⟨trivial, ?_⟩
        obtain ⟨⟨a, hw₃, hheld, rfl⟩, -⟩ := hexec
        change w₃.1 = w₂.1 at hw₃
        rw [hw₂] at hw₃
        rw [hw₂] at hheld
        split
        case isTrue =>
          refine Fallible.Ending.certain fun replaced w₄ hexec => ⟨trivial, ?_⟩
          obtain ⟨⟨a, hw₄, hrefresh⟩, -⟩ := hexec
          refine Fallible.Ending.pure (Or.inl ?_)
          have hafter : a = (w.1.auth.refreshAccess seen (target.asked formats found)).2 := by
            rw [← hw₃]
            exact congrArg Prod.snd hrefresh
          rw [hw₄, hafter, Authorizer.refreshAccess, if_pos hseen.symm]
        case isFalse hsame =>
          refine Fallible.Ending.pure (Or.inl ?_)
          rw [hw₃, ← hheld]
          exact not_not.mp hsame
  · exact Fallible.Ending.pure (Or.inr ⟨by rw [hw₂], hrefused⟩)

end

/-! ## Every run -/

/-- A replica, and everything that will be done. -/
def start (formats : Formats) (target : Target) (jobs : ι → Job) (w : World ρ) :
    Pool ι Req Resp (Except MetaError Unit) (World ρ × Past ι) :=
  ⟨fun i => ((jobs i).op formats target).run, (w, [])⟩

/-- **Access settings converge and do not revert.**  A change puts in force what it saves, or
the environment's, and that stays: later the settings in force are what was put last, and
after the change only another change or a refresh that began after it puts any.  When
everything else has finished, one more refresh puts in force what the store holds, unless it
cannot read it. -/
theorem access_converges {formats : Formats} {target : Target} {jobs : ι → Job} {w : World ρ}
    {pool : Pool ι Req Resp (Except MetaError Unit) (World ρ × Past ι)}
    (hsteps : Pool.Steps
      (ledger ι sha256 process w.auth fun i => (jobs i).wants formats target).entering
      (start formats target jobs w) pool) :
    (∀ i, pool.progs i = .pure (.ok ()) → ∀ access, (jobs i).wants formats target = some access →
      ⟨i, .auth (.setAccess access), ()⟩ ∈ pool.state.2) ∧
    (∀ later before i access, pool.state.2 = later ++ ⟨i, .auth (.setAccess access), ()⟩ :: before →
      (jobs i).wants formats target = some access ∧
      pool.state.1.auth.access = inForce access later ∧
      ∀ e ∈ later, puts e ≠ none → isSet e ∨ ¬ Began e.thread before) ∧
    ∀ k, pool.progs k = (target.refreshOne formats).run →
      (∀ j, j ≠ k → ∃ a, pool.progs j = .pure a) →
      ∀ pool', Pool.Steps
          (ledger ι sha256 process w.auth fun i => (jobs i).wants formats target).entering
          pool pool' →
      ∀ a, pool'.progs k = .pure a →
        pool'.state.1.auth.access = target.due formats pool.state.1 ∨
          pool'.state.1.auth.access = pool.state.1.auth.access ∧ WasRefused k pool'.state.2 := by
  have hinit : Counted w.auth (fun i => (jobs i).wants formats target) (w, ([] : Past ι)) := by
    refine ⟨rfl, rfl, ?_, ?_, ?_⟩
    · intro i access hmem
      cases hmem
    · rintro later before j seen h
      cases later <;> cases h
    · rintro later before j seen access h
      cases later <;> cases h
  obtain ⟨hcounted, hended⟩ := Ledger.reached
    (L := ledger ι sha256 process w.auth fun i => (jobs i).wants formats target) hinit
    (fun i => op_among (w := (w, [])) jobs rfl hinit) hsteps
  refine ⟨fun i hi access hwants => hended i () hi access hwants,
    fun later before i access hpast => ?_, fun k hk hdone pool' hsteps' a ha => ?_⟩
  · obtain ⟨hforce, hlater⟩ := hcounted.change_stands hpast
    have hmem : ⟨i, .auth (.setAccess access), ()⟩ ∈ pool.state.2 := by
      rw [hpast]
      exact List.mem_append_right _ List.mem_cons_self
    exact ⟨hcounted.changed i access hmem, hforce, hlater⟩
  · obtain ⟨halone, -⟩ := hsteps'.alone hdone
    rw [hk, ha] at halone
    have hrefresh : (target.refreshOne formats).Ending
        ((ledger ι sha256 process w.auth fun i => (jobs i).wants formats target).entering k)
        (fun _ _ => True) _ pool.state := refreshOne_alone
    have hend := Program.Under.alone (I := fun _ => True) (fun _ _ _ h => h) hrefresh trivial halone
    exact hend.2 _ .refl

end

/-! ### A change, a reset and two refreshes -/

/-- Settings on their own, with nobody asking for permission. -/
def settled (a : Authorizer) : (r : Auth.Req) → Option (Auth.Resp r × Authorizer)
  | .access => some (a.access, a)
  | .revision => some (a.revision, a)
  | .setAccess replacement => some ((), a.setAccess replacement)
  | .refreshAccess seen replacement => some (a.refreshAccess seen replacement)
  | .cached _ _ => none
  | .afford => none
  | .ask _ _ => none
  | .wait _ => none

theorem settled_answers (sha256 : Bytes → Fixed 32) (a : Authorizer) (r : Auth.Req)
    (answered : Auth.Resp r × Authorizer) (h : settled a r = some answered) :
    Auth.Answers sha256 r a answered.1 answered.2 := by
  cases r with
  | access =>
      cases h
      exact ⟨rfl, rfl⟩
  | revision =>
      cases h
      exact ⟨rfl, rfl⟩
  | setAccess replacement =>
      cases h
      rfl
  | refreshAccess seen replacement =>
      cases h
      rfl
  | cached caller ns => cases h
  | afford => cases h
  | ask caller ns => cases h
  | wait elapsed => cases h

/-- Such a replica, over a store that refuses nothing. -/
def answering {ρ : Type} [DecidableEq ρ] (i : ρ) : (r : Req) → World ρ → Option (Resp r × World ρ)
  | .auth r, w => (settled w.auth r).map fun answered => (answered.1, { w with auth := answered.2 })
  | .store r, w => (Meta.respond id i r w.store).map fun answered =>
      (answered.1, { w with store := answered.2 })

theorem answering_serves {ρ : Type} [DecidableEq ρ] (sha256 : Bytes → Fixed 32) (i : ρ) (r : Req)
    (w : World ρ) (answered : Resp r × World ρ) (h : answering i r w = some answered) :
    serves sha256 id i r w answered.1 answered.2 := by
  cases r with
  | auth r =>
      obtain ⟨given, hgiven, rfl⟩ := Option.map_eq_some_iff.mp h
      exact ⟨given.2, rfl, settled_answers sha256 w.auth r given hgiven⟩
  | store r =>
      obtain ⟨given, hgiven, rfl⟩ := Option.map_eq_some_iff.mp h
      exact ⟨given.2, rfl, Meta.respond_serves _ i r w.store given hgiven⟩

/-- Settings in a bucket; the environment lets nobody read without a token. -/
def privately : Target where
  store := ⟨.bucket, none⟩
  file := "access.json".toList
  environment := ⟨false, [], none⟩

/-- What the dashboard saves: anybody may read, but for one organisation. -/
def opening : Saved := ⟨true, ["acme/*".toList], none⟩

/-- The settings this asks for. -/
def openly : Access := ⟨true, [⟨"acme".toList, .any⟩], none⟩

/-- How it is saved. -/
def openingJson : Bytes := Storage.utf8Encode
  ("\x7b\n  \"anonymous_read\": true,\n  \"restricted\": [\n    \"acme/*\"\n  ],\n".toList ++
    "  \"allowed\": null\n\x7d".toList)

/-- Formats of a server that saves nothing else. -/
def openingOnly : Formats where
  encode saved := if saved = opening then some openingJson else none
  decode bytes := if bytes = openingJson then some opening else none
  signing := ⟨fun _ => none, fun _ _ _ => [], fun _ _ => [], fun _ => none⟩
  unicode := ⟨id, id⟩

/-- Who is at the settings. -/
inductive Hand where
  | stale
  | writer
  | resetter
  | last
deriving DecidableEq

def Hand.job : Hand → Job
  | stale => .refresh
  | writer => .write opening
  | resetter => .reset
  | last => .refresh

/-- A replica with the environment's settings, and a bucket with nothing saved. -/
def fresh : World Hand where
  auth := ⟨privately.environment, 0, .new 300 30, 0⟩
  store := ⟨fun _ => 0, .empty, .empty⟩

/-- A refresh reads that nothing is saved, then a reset deletes that while a change is made.
The reset's settings stand, not the refresh's, though the change is what is saved. -/
def schedule : List Hand :=
  [.stale, .stale, .resetter, .resetter, .resetter, .writer, .writer, .writer, .writer, .stale,
    .resetter, .stale, .resetter, .resetter, .writer, .writer]

def overlapped : Option (Pool Hand Req Resp (Except MetaError Unit) (World Hand × Past Hand)) :=
  (start openingOnly privately Hand.job fresh).play
    ((ledger Hand Auth.sampleDigest id fresh.auth fun i =>
      i.job.wants openingOnly privately).noting answering) schedule

/-- The change was made while the first refresh was under way. -/
def amid : Past Hand → Bool
  | [] => false
  | e :: before =>
      (isSet e && decide (e.thread = .writer) && decide (puts e = some openly) &&
        before.any fun e => decide (e.thread = .stale) && (revisionOf e).isSome) || amid before

theorem eq_of_isSet {ι : Type} {e : Event ι Req Resp} {access : Access} (hset : isSet e)
    (hputs : puts e = some access) : e = ⟨e.thread, .auth (.setAccess access), ()⟩ := by
  rcases eq_of_puts hputs with he | ⟨seen, he⟩
  · exact he
  · rw [he] at hset
    cases hset

theorem eq_of_revisionOf {ι : Type} {e : Event ι Req Resp} {seen : Nat}
    (h : revisionOf e = some seen) : e = ⟨e.thread, .auth .revision, seen⟩ := by
  obtain ⟨j, r, answer⟩ := e
  cases r with
  | store r => cases h
  | auth r =>
      cases r with
      | revision =>
          cases h
          rfl
      | setAccess replacement => cases h
      | refreshAccess seen replacement => cases h
      | access => cases h
      | cached caller ns => cases h
      | afford => cases h
      | ask caller ns => cases h
      | wait elapsed => cases h

theorem eq_of_amid {past : Past Hand} (h : amid past = true) :
    ∃ later before, past = later ++ ⟨.writer, .auth (.setAccess openly), ()⟩ :: before ∧
      Began .stale before := by
  induction past with
  | nil => cases h
  | cons e past ih =>
      rcases (Bool.or_eq_true _ _).mp h with h | h
      · simp only [Bool.and_eq_true, decide_eq_true_eq] at h
        obtain ⟨⟨⟨hset, hthread⟩, hputs⟩, hbegan⟩ := h
        obtain ⟨r, hmem, hr⟩ := List.any_eq_true.mp hbegan
        simp only [Bool.and_eq_true, decide_eq_true_eq] at hr
        obtain ⟨seen, hseen⟩ := Option.isSome_iff_exists.mp hr.2
        refine ⟨[], past, ?_, seen, ?_⟩
        · rw [List.nil_append, ← hthread, ← eq_of_isSet hset hputs]
        · rw [← hr.1, ← eq_of_revisionOf hseen]
          exact hmem
      · obtain ⟨later, before, rfl, hbegan⟩ := ih h
        exact ⟨e :: later, before, rfl, hbegan⟩

/-- Once the first three are done, the reset's settings are in force. -/
def settledDown (pool : Pool Hand Req Resp (Except MetaError Unit) (World Hand × Past Hand)) :
    Bool :=
  amid pool.state.2 && decide (pool.state.1.auth.access = privately.environment) &&
    [Hand.stale, .writer, .resetter].all fun j => (pool.progs j).result = some (.ok ())

/-- The change overlaps a reset and a refresh; the last refresh puts it in force. -/
theorem access_converges_overlapped :
    ∃ pool pool' : Pool Hand Req Resp (Except MetaError Unit) (World Hand × Past Hand),
      Pool.Steps (ledger Hand Auth.sampleDigest id fresh.auth fun i =>
          i.job.wants openingOnly privately).entering
        (start openingOnly privately Hand.job fresh) pool ∧
      Pool.Steps (ledger Hand Auth.sampleDigest id fresh.auth fun i =>
        i.job.wants openingOnly privately).entering pool pool' ∧
      (∃ later before,
        pool.state.2 = later ++ ⟨.writer, .auth (.setAccess openly), ()⟩ :: before ∧
        Began .stale before ∧ pool.state.1.auth.access = inForce openly later ∧
        ∀ e ∈ later, puts e ≠ none → isSet e ∨ ¬ Began e.thread before) ∧
      ⟨.resetter, .auth (.setAccess privately.environment), ()⟩ ∈ pool.state.2 ∧
      pool.state.1.auth.access = privately.environment ∧
      (pool'.state.1.auth.access = privately.due openingOnly pool.state.1 ∨
        pool'.state.1.auth.access = pool.state.1.auth.access ∧ WasRefused .last pool'.state.2) ∧
      pool'.state.1.auth.access = openly := by
  have hplayed : overlapped.any (fun pool => settledDown pool &&
      (pool.play ((ledger Hand Auth.sampleDigest id fresh.auth fun i =>
          i.job.wants openingOnly privately).noting answering)
        [.last, .last, .last, .last]).any fun pool' =>
          decide ((pool'.progs .last).result = some (.ok ())) &&
            decide (pool'.state.1.auth.access = openly)) = true := by
    decide +kernel
  obtain ⟨pool, hplay, hpool⟩ := (Option.any_eq_true _ _).mp hplayed
  obtain ⟨hsettled, hlast⟩ := (Bool.and_eq_true _ _).mp hpool
  obtain ⟨pool', hplay', hpool'⟩ := (Option.any_eq_true _ _).mp hlast
  simp only [settledDown, Bool.and_eq_true, decide_eq_true_eq, List.all_eq_true] at hsettled
  simp only [Bool.and_eq_true, decide_eq_true_eq] at hpool'
  obtain ⟨⟨hamid, henvironment⟩, hdone⟩ := hsettled
  have hentering := Ledger.noting_entering
    (L := ledger Hand Auth.sampleDigest id fresh.auth fun i => i.job.wants openingOnly privately)
    (answering_serves Auth.sampleDigest)
  have hsteps := Pool.play_steps hentering hplay
  have hsteps' := Pool.play_steps hentering hplay'
  have hidle : pool.progs .last = (privately.refreshOne openingOnly).run :=
    Pool.play_idle (by decide) hplay
  obtain ⟨hput, hstands, hrefreshed⟩ := access_converges hsteps
  obtain ⟨later, before, hpast, hbegan⟩ := eq_of_amid hamid
  obtain ⟨-, hforce, hlater⟩ := hstands later before .writer openly hpast
  have hends : ∀ j, j ≠ Hand.last → ∃ a, pool.progs j = .pure a := by
    intro j hj
    have hresult : (pool.progs j).result = some (.ok ()) := by
      cases j with
      | last => exact absurd rfl hj
      | stale => exact hdone .stale (by decide)
      | writer => exact hdone .writer (by decide)
      | resetter => exact hdone .resetter (by decide)
    exact ⟨_, Program.eq_pure_of_result hresult⟩
  have hreset := Program.eq_pure_of_result (hdone .resetter (by decide))
  exact ⟨pool, pool', hsteps, hsteps', ⟨later, before, hpast, hbegan, hforce, hlater⟩,
    hput .resetter hreset _ rfl, henvironment,
    hrefreshed .last hidle hends pool' hsteps' _ (Program.eq_pure_of_result hpool'.1), hpool'.2⟩

end Lfsx.Console.Settings
