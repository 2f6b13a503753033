import Lfsx.Request.Fallible

/-!
# Protocols

What a program asks next depends on what it was answered so far.  A protocol sums that up in
a phase: `may` says what is asked in a phase, and `next` what phase an answer leads to.  A
program follows a protocol whatever it is answered (`Program.Follows`), so this is judged of
the program alone.

Programs that follow protocols keep, side by side, what every request keeps that the
protocols allow (`Pool.Steps.follows`).  So does a program that goes on alone
(`Program.Steps.follows`).

`Program.Told` is the protocol that leaves nothing out: what a program has come to is what it is
when its requests are answered so (`Pool.Steps.told`).
-/

namespace Request

/-- What may be asked, by what was answered. -/
structure Protocol (Req : Type) (Resp : Req → Type) (σ : Type) where
  first : σ
  may : σ → Req → Prop
  next : σ → (r : Req) → Resp r → σ

variable {ι Req : Type} {Resp : Req → Type} {S ε ε' α β σ : Type}

namespace Program

/-- `Follows P Q p phase`: from a phase on, every request of `p` is one the protocol allows,
and `p` ends in `Q`. -/
def Follows (P : Protocol Req Resp σ) (Q : α → σ → Prop) : Program Req Resp α → σ → Prop
  | .pure a, phase => Q a phase
  | .request r next, phase =>
      P.may phase r ∧ ∀ answer, (next answer).Follows P Q (P.next phase r answer)

variable {P : Protocol Req Resp σ} {phase : σ}

theorem Follows.mono {Q Q' : α → σ → Prop} {p : Program Req Resp α} (h : p.Follows P Q phase)
    (hQ : ∀ a phase, Q a phase → Q' a phase) : p.Follows P Q' phase := by
  induction p generalizing phase with
  | pure a => exact hQ a phase h
  | request r next ih => exact ⟨h.1, fun answer => ih answer (h.2 answer)⟩

theorem Follows.bind {Q : β → σ → Prop} {p : Program Req Resp α} {f : α → Program Req Resp β}
    (h : p.Follows P (fun a phase => (f a).Follows P Q phase) phase) :
    (p >>= f).Follows P Q phase := by
  induction p generalizing phase with
  | pure a => exact h
  | request r next ih => exact ⟨h.1, fun answer => ih answer (h.2 answer)⟩

/-- A program whose requests leave the phase as it is. -/
theorem Only.follows {q : Req → Prop} {Q : α → Prop} {p : Program Req Resp α}
    (h : p.Only q (fun _ _ => True) Q)
    (hq : ∀ r, q r → P.may phase r ∧ ∀ answer, P.next phase r answer = phase) :
    p.Follows P (fun a phase' => Q a ∧ phase' = phase) phase := by
  induction p with
  | pure a => exact ⟨h, rfl⟩
  | request r next ih =>
      obtain ⟨hmay, hnext⟩ := hq r h.1
      refine ⟨hmay, fun answer => ?_⟩
      rw [hnext answer]
      exact ih answer (h.2 answer trivial)

end Program

/-! ## Programs that can fail -/

namespace Fallible

/-- A fallible program follows a protocol, and its answer is in `Q`, an error or not. -/
abbrev Follows (P : Protocol Req Resp σ) (Q : Except ε α → σ → Prop) (op : Fallible ε Req Resp α)
    (phase : σ) : Prop :=
  op.run.Follows P Q phase

variable {P : Protocol Req Resp σ} {phase : σ} {R : Except ε α → σ → Prop}
  {Q : Except ε β → σ → Prop} {Q' : Except ε' β → σ → Prop}

theorem Follows.pure {b : β} (h : Q (.ok b) phase) :
    (Pure.pure b : Fallible ε Req Resp β).Follows P Q phase := h

theorem Follows.throw {e : ε} (h : Q (.error e) phase) :
    (throw e : Fallible ε Req Resp β).Follows P Q phase := h

theorem Follows.ofExcept {answer : Except ε β} (h : Q answer phase) :
    (Fallible.ofExcept answer : Fallible ε Req Resp β).Follows P Q phase := h

theorem Follows.bind {op : Fallible ε Req Resp α} {f : α → Fallible ε Req Resp β}
    (h : op.Follows P R phase) (hok : ∀ a phase, R (.ok a) phase → (f a).Follows P Q phase)
    (herror : ∀ e phase, R (.error e) phase → Q (.error e) phase) :
    (op >>= f).Follows P Q phase := by
  rw [Follows, ExceptT.run_bind]
  refine Program.Follows.bind (Program.Follows.mono h fun answer phase hanswer => ?_)
  cases answer with
  | ok a => exact hok a phase hanswer
  | error e => exact herror e phase hanswer

/-- An operation whose error is taken for an answer. -/
theorem Follows.attempt {op : Fallible ε Req Resp α} {f : Except ε α → Fallible ε Req Resp β}
    (h : op.Follows P R phase)
    (hf : ∀ answer phase, R answer phase → (f answer).Follows P Q phase) :
    (op.attempt >>= f).Follows P Q phase := by
  rw [Follows, ExceptT.run_bind]
  exact Program.Follows.bind (Program.Follows.bind (Program.Follows.mono h hf))

/-- An operation whose error is taken for an answer, among operations with other errors. -/
theorem Follows.caught {op : Fallible ε Req Resp α} {f : Except ε α → Fallible ε' Req Resp β}
    (h : op.Follows P R phase)
    (hf : ∀ answer phase, R answer phase → (f answer).Follows P Q' phase) :
    (op.caught >>= f).Follows P Q' phase := by
  rw [Follows, ExceptT.run_bind]
  exact Program.Follows.bind (Program.Follows.bind (Program.Follows.mono h hf))

/-- An operation whose error is another one to the caller. -/
theorem Follows.mapError {g : ε → ε'} {op : Fallible ε Req Resp β}
    (h : op.Follows P (fun answer phase => Q' (answer.mapError g) phase) phase) :
    (op.mapError g).Follows P Q' phase :=
  Program.Follows.bind h

theorem Follows.ask {r : Req} {h : Resp r = Except ε β} (hmay : P.may phase r)
    (hQ : ∀ answer, Q (cast h answer) (P.next phase r answer)) :
    (Fallible.ask r h).Follows P Q phase :=
  ⟨hmay, hQ⟩

theorem Follows.certain {r : Req} {Q : Except ε (Resp r) → σ → Prop} (hmay : P.may phase r)
    (hQ : ∀ answer, Q (.ok answer) (P.next phase r answer)) :
    (Fallible.certain r : Fallible ε Req Resp (Resp r)).Follows P Q phase :=
  ⟨hmay, hQ⟩

/-- One request that cannot fail, and what follows it. -/
theorem Follows.issue {r : Req} {f : Resp r → Fallible ε Req Resp β} (hmay : P.may phase r)
    (hf : ∀ answer, (f answer).Follows P Q (P.next phase r answer)) :
    ((Fallible.certain r : Fallible ε Req Resp (Resp r)) >>= f).Follows P Q phase := by
  rw [Follows, ExceptT.run_bind]
  exact ⟨hmay, hf⟩

end Fallible

/-! ## Side by side -/

section Steps

variable [DecidableEq ι]

/-- The phase a thread is in. -/
def Protocol.phase (P : Protocol Req Resp σ) (i : ι) (past : Log ι Req Resp) : σ :=
  trail P.next P.first i past

variable {P : ι → Protocol Req Resp σ} {i : ι} {past : Log ι Req Resp}

theorem Protocol.phase_own (r : Req) (answer : Resp r) :
    (P i).phase i (⟨i, r, answer⟩ :: past) = (P i).next ((P i).phase i past) r answer :=
  trail_own r answer past

theorem Protocol.phase_other {j : ι} (h : j ≠ i) (r : Req) (answer : Resp r) :
    (P i).phase i (⟨j, r, answer⟩ :: past) = (P i).phase i past :=
  trail_other h r answer past

/-- What a thread that no event is of has done. -/
theorem Protocol.phase_first (h : ∀ e ∈ past, e.thread ≠ i) : (P i).phase i past = (P i).first := by
  induction past with
  | nil => rfl
  | cons e past ih =>
      obtain ⟨j, r, answer⟩ := e
      rw [Protocol.phase_other (h _ List.mem_cons_self)]
      exact ih fun e he => h e (List.mem_cons_of_mem _ he)

variable {exec : ι → Semantics Req Resp S} {I : S × Log ι Req Resp → Prop}

/-- A thread that no event is of has not begun. -/
theorem Pool.Steps.waiting {pool pool' : Pool ι Req Resp α (S × Log ι Req Resp)}
    (hsteps : Pool.Steps (recording exec) pool pool')
    (hwaiting : ∀ e ∈ pool'.state.2, e.thread ≠ i) : pool'.progs i = pool.progs i := by
  induction hsteps with
  | refl => rfl
  | tail _ hstep ih =>
      cases hstep with
      | @request j r next answer w' hprog hexec =>
          obtain ⟨s', past'⟩ := w'
          obtain ⟨-, rfl⟩ := hexec
          have hj : j ≠ i := hwaiting _ List.mem_cons_self
          rw [← ih fun e he => hwaiting e (List.mem_cons_of_mem _ he)]
          exact Function.update_of_ne (Ne.symm hj) _ _

/-- **What the protocols allow is kept by the programs that follow them**, under any semantics that
writes the log. -/
theorem Pool.Steps.follows_logged {Q : ι → α → σ → Prop}
    {exec : ι → Semantics Req Resp (S × Log ι Req Resp)}
    {pool pool' : Pool ι Req Resp α (S × Log ι Req Resp)}
    (hlog : ∀ i r w answer w', exec i r w answer w' → w'.2 = ⟨i, r, answer⟩ :: w.2)
    (hI : ∀ i r w answer w', I w → (P i).may ((P i).phase i w.2) r → exec i r w answer w' → I w')
    (hfollows : ∀ i, (pool.progs i).Follows (P i) (Q i) ((P i).phase i pool.state.2))
    (hinit : I pool.state) (hsteps : Pool.Steps exec pool pool') :
    I pool'.state ∧ ∀ i, (pool'.progs i).Follows (P i) (Q i) ((P i).phase i pool'.state.2) := by
  induction hsteps with
  | refl => exact ⟨hinit, hfollows⟩
  | tail _ hstep ih =>
      obtain ⟨hinv, hfollows⟩ := ih
      cases hstep with
      | @request i r next answer w' hprog hexec =>
          have hi := hfollows i
          rw [hprog] at hi
          refine ⟨hI i r _ answer w' hinv hi.1 hexec, fun j => ?_⟩
          dsimp only
          rw [hlog i r _ answer w' hexec]
          by_cases hj : j = i
          · subst hj
            rw [Function.update_self, Protocol.phase_own]
            exact hi.2 answer
          · rw [Function.update_of_ne hj, Protocol.phase_other (Ne.symm hj)]
            exact hfollows j

theorem Pool.Steps.follows {Q : ι → α → σ → Prop}
    {pool pool' : Pool ι Req Resp α (S × Log ι Req Resp)}
    (hI : ∀ i r w answer s', I w → (P i).may ((P i).phase i w.2) r → exec i r w.1 answer s' →
      I (s', ⟨i, r, answer⟩ :: w.2))
    (hfollows : ∀ i, (pool.progs i).Follows (P i) (Q i) ((P i).phase i pool.state.2))
    (hinit : I pool.state) (hsteps : Pool.Steps (recording exec) pool pool') :
    I pool'.state ∧ ∀ i, (pool'.progs i).Follows (P i) (Q i) ((P i).phase i pool'.state.2) := by
  refine Pool.Steps.follows_logged (fun _ _ _ _ _ hexec => hexec.2) ?_ hfollows hinit hsteps
  rintro i r w answer ⟨s', past'⟩ hinv hmay ⟨hexec, rfl⟩
  exact hI i r w answer s' hinv hmay hexec

/-- And by one of them that goes on alone. -/
theorem Program.Steps.follows {Q : α → σ → Prop}
    {c c' : Program Req Resp α × (S × Log ι Req Resp)}
    (hI : ∀ r w answer s', I w → (P i).may ((P i).phase i w.2) r → exec i r w.1 answer s' →
      I (s', ⟨i, r, answer⟩ :: w.2))
    (hfollows : c.1.Follows (P i) Q ((P i).phase i c.2.2)) (hinit : I c.2)
    (hsteps : Program.Steps (recording exec i) c c') :
    I c'.2 ∧ c'.1.Follows (P i) Q ((P i).phase i c'.2.2) := by
  induction hsteps with
  | refl => exact ⟨hinit, hfollows⟩
  | tail _ hstep ih =>
      obtain ⟨hinv, hfollows⟩ := ih
      cases hstep with
      | @request r next w w' answer hexec =>
          obtain ⟨s', past'⟩ := w'
          obtain ⟨hexec, rfl⟩ := hexec
          refine ⟨hI r w answer s' hinv hfollows.1 hexec, ?_⟩
          rw [Protocol.phase_own]
          exact hfollows.2 answer

end Steps

/-! ## What was answered -/

/-- A request with its answer. -/
abbrev Answered (Req : Type) (Resp : Req → Type) := (r : Req) × Resp r

/-- What a program becomes when its requests are answered so, the newest answer first. -/
inductive Program.Told (p : Program Req Resp α) :
    List (Answered Req Resp) → Program Req Resp α → Prop where
  | nil : Told p [] p
  | cons {told : List (Answered Req Resp)} {r : Req} {next : Resp r → Program Req Resp α}
      {answer : Resp r} : Told p told (.request r next) → Told p (⟨r, answer⟩ :: told) (next answer)

namespace Program.Told

variable {told : List (Answered Req Resp)} {b : β}

theorem pure_inv {a a' : α} (h : (Program.pure a : Program Req Resp α).Told told (.pure a')) :
    told = [] ∧ a = a' := by
  have hstays : ∀ {told : List (Answered Req Resp)} {q : Program Req Resp α},
      (Program.pure a : Program Req Resp α).Told told q → told = [] ∧ q = .pure a := by
    intro told q h
    induction h with
    | nil => exact ⟨rfl, rfl⟩
    | cons _ ih => cases ih.2
  obtain ⟨hnil, hpure⟩ := hstays h
  cases hpure
  exact ⟨hnil, rfl⟩

/-- A program and what follows it: it is still at the first, or what follows has begun. -/
theorem bind_cases {p : Program Req Resp α} {f : α → Program Req Resp β} {q : Program Req Resp β}
    (h : (p >>= f).Told told q) :
    (∃ p', p.Told told p' ∧ q = p' >>= f) ∨
      ∃ a before after, told = after ++ before ∧ p.Told before (.pure a) ∧ (f a).Told after q := by
  induction h with
  | nil => exact .inl ⟨p, .nil, rfl⟩
  | @cons told r next answer _ ih =>
      rcases ih with ⟨p', hp', heq⟩ | ⟨a, before, after, rfl, hp, hf⟩
      · cases p' with
        | pure a =>
            have hnext : f a = .request r next := heq.symm
            refine .inr ⟨a, told, [⟨r, answer⟩], rfl, hp', .cons ?_⟩
            rw [hnext]
            exact .nil
        | request r' next' =>
            rw [request_bind] at heq
            cases heq
            exact .inl ⟨next' answer, .cons hp', rfl⟩
      · exact .inr ⟨a, before, ⟨r, answer⟩ :: after, rfl, hp, .cons hf⟩

theorem bind_inv {p : Program Req Resp α} {f : α → Program Req Resp β}
    (h : (p >>= f).Told told (.pure b)) :
    ∃ a before after, told = after ++ before ∧ p.Told before (.pure a) ∧
      (f a).Told after (.pure b) := by
  rcases bind_cases h with ⟨p', hp', heq⟩ | hparts
  · cases p' with
    | pure a =>
        refine ⟨a, told, [], rfl, hp', ?_⟩
        rw [show f a = .pure b from heq.symm]
        exact .nil
    | request r next => cases heq
  · exact hparts

theorem ask_inv {r : Req} {answer : Resp r}
    (h : (Program.ask r : Program Req Resp (Resp r)).Told told (.pure answer)) :
    told = [⟨r, answer⟩] := by
  have hstays : ∀ {told : List (Answered Req Resp)} {q : Program Req Resp (Resp r)},
      (Program.ask r : Program Req Resp (Resp r)).Told told q →
        (told = [] ∧ q = .request r .pure) ∨ ∃ a, told = [⟨r, a⟩] ∧ q = .pure a := by
    intro told q h
    induction h with
    | nil => exact .inl ⟨rfl, rfl⟩
    | @cons told r' next answer' _ ih =>
        rcases ih with ⟨rfl, heq⟩ | ⟨a, -, heq⟩
        · cases heq
          exact .inr ⟨answer', rfl, rfl⟩
        · cases heq
  rcases hstays h with ⟨-, heq⟩ | ⟨a, htold, heq⟩
  · cases heq
  · cases heq
    exact htold

/-- The first request, and what its answer leads to. -/
theorem request_inv {r : Req} {next : Resp r → Program Req Resp β}
    (h : (Program.request r next).Told told (.pure b)) :
    ∃ answer after, told = after ++ [⟨r, answer⟩] ∧ (next answer).Told after (.pure b) := by
  have hbind : (Program.ask r >>= next).Told told (.pure b) := h
  obtain ⟨answer, before, after, rfl, hbefore, hafter⟩ := bind_inv hbind
  rw [ask_inv hbefore]
  exact ⟨answer, after, rfl, hafter⟩

end Program.Told

namespace Fallible

/-- An operation has returned, and was told this. -/
abbrev Told (op : Fallible ε Req Resp α) (told : List (Answered Req Resp))
    (answer : Except ε α) : Prop :=
  op.run.Told told (.pure answer)

namespace Told

variable {told : List (Answered Req Resp)} {b : β} {answer : Except ε β}

theorem pure_inv (h : (Pure.pure b : Fallible ε Req Resp β).Told told answer) :
    told = [] ∧ answer = .ok b := by
  obtain ⟨hnil, heq⟩ := Program.Told.pure_inv h
  exact ⟨hnil, heq.symm⟩

theorem throw_inv {e : ε} (h : (throw e : Fallible ε Req Resp β).Told told answer) :
    told = [] ∧ answer = .error e := by
  obtain ⟨hnil, heq⟩ := Program.Told.pure_inv h
  exact ⟨hnil, heq.symm⟩

/-- An operation that succeeded, and what followed it. -/
theorem bind_ok {op : Fallible ε Req Resp α} {f : α → Fallible ε Req Resp β}
    (h : (op >>= f).Told told (.ok b)) :
    ∃ a before after, told = after ++ before ∧ op.Told before (.ok a) ∧
      (f a).Told after (.ok b) := by
  rw [Told, ExceptT.run_bind] at h
  obtain ⟨result, before, after, rfl, hbefore, hafter⟩ := Program.Told.bind_inv h
  cases result with
  | ok a => exact ⟨a, before, after, rfl, hbefore, hafter⟩
  | error e => cases (Program.Told.pure_inv hafter).2

/-- An operation whose value is answered in another form. -/
theorem returning {op : Fallible ε Req Resp α} {g : α → β}
    (h : (op >>= fun a => Pure.pure (g a)).Told told (.ok b)) :
    ∃ a, op.Told told (.ok a) ∧ b = g a := by
  obtain ⟨a, before, after, rfl, hbefore, hafter⟩ := bind_ok h
  obtain ⟨rfl, heq⟩ := pure_inv hafter
  exact ⟨a, hbefore, Except.ok.inj heq⟩

theorem attempt_ok {op : Fallible ε Req Resp α} {f : Except ε α → Fallible ε Req Resp β}
    (h : (op.attempt >>= f).Told told (.ok b)) :
    ∃ result before after, told = after ++ before ∧ op.Told before result ∧
      (f result).Told after (.ok b) := by
  obtain ⟨result, before, after, rfl, hbefore, hafter⟩ := bind_ok h
  obtain ⟨result', first, second, rfl, hfirst, hsecond⟩ := Program.Told.bind_inv hbefore
  obtain ⟨rfl, heq⟩ := Program.Told.pure_inv hsecond
  cases heq
  exact ⟨result, first, after, rfl, hfirst, hafter⟩

/-- An operation whose error was taken for an answer, among operations with other errors. -/
theorem caught_ok {op : Fallible ε Req Resp α} {f : Except ε α → Fallible ε' Req Resp β}
    (h : (op.caught >>= f).Told told (.ok b)) :
    ∃ result before after, told = after ++ before ∧ op.Told before result ∧
      (f result).Told after (.ok b) := by
  obtain ⟨result, before, after, rfl, hbefore, hafter⟩ := bind_ok h
  obtain ⟨result', first, second, rfl, hfirst, hsecond⟩ := Program.Told.bind_inv hbefore
  obtain ⟨rfl, heq⟩ := Program.Told.pure_inv hsecond
  cases heq
  exact ⟨result, first, after, rfl, hfirst, hafter⟩

/-- An operation that failed, or what followed it did. -/
theorem bind_error {op : Fallible ε Req Resp α} {f : α → Fallible ε Req Resp β} {e : ε}
    (h : (op >>= f).Told told (.error e)) :
    op.Told told (.error e) ∨ ∃ a before after, told = after ++ before ∧ op.Told before (.ok a) ∧
      (f a).Told after (.error e) := by
  rw [Told, ExceptT.run_bind] at h
  obtain ⟨result, before, after, rfl, hbefore, hafter⟩ := Program.Told.bind_inv h
  cases result with
  | ok a => exact .inr ⟨a, before, after, rfl, hbefore, hafter⟩
  | error e' =>
      obtain ⟨rfl, heq⟩ := Program.Told.pure_inv hafter
      cases heq
      exact .inl hbefore

theorem mapError_ok {g : ε → ε'} {op : Fallible ε Req Resp β}
    (h : (op.mapError g).Told told (.ok b)) : op.Told told (.ok b) := by
  obtain ⟨result, before, after, rfl, hbefore, hafter⟩ := Program.Told.bind_inv h
  obtain ⟨rfl, heq⟩ := Program.Told.pure_inv hafter
  cases result with
  | ok a =>
      cases heq
      exact hbefore
  | error e => cases heq

theorem ask_inv {r : Req} {h : Resp r = Except ε β}
    (htold : (Fallible.ask r h).Told told answer) :
    ∃ given, told = [⟨r, given⟩] ∧ cast h given = answer := by
  obtain ⟨given, after, rfl, hafter⟩ := Program.Told.request_inv htold
  obtain ⟨rfl, heq⟩ := Program.Told.pure_inv hafter
  exact ⟨given, rfl, heq⟩

/-- One request that cannot fail, and what followed it. -/
theorem issue_inv {r : Req} {f : Resp r → Fallible ε Req Resp β}
    (h : ((Fallible.certain r : Fallible ε Req Resp (Resp r)) >>= f).Told told answer) :
    ∃ given after, told = after ++ [⟨r, given⟩] ∧ (f given).Told after answer := by
  rw [Told, ExceptT.run_bind] at h
  exact Program.Told.request_inv h

end Told

end Fallible

/-- What a thread was answered, the newest first. -/
def own [DecidableEq ι] (i : ι) (log : Log ι Req Resp) : List (Answered Req Resp) :=
  log.filterMap fun e => if e.thread = i then some ⟨e.req, e.answer⟩ else none

section Own

variable [DecidableEq ι] {i : ι} {log : Log ι Req Resp} {r : Req} {answer : Resp r}

theorem own_own : own i (⟨i, r, answer⟩ :: log) = ⟨r, answer⟩ :: own i log :=
  List.filterMap_cons_some (if_pos rfl)

theorem own_other {j : ι} (h : j ≠ i) : own i (⟨j, r, answer⟩ :: log) = own i log :=
  List.filterMap_cons_none (if_neg h)

theorem mem_own :
    (⟨r, answer⟩ : Answered Req Resp) ∈ own i log ↔ (⟨i, r, answer⟩ : Event ι Req Resp) ∈ log := by
  induction log with
  | nil => simp [own]
  | cons e log ih =>
      obtain ⟨j, r', answer'⟩ := e
      by_cases hj : j = i
      · subst hj
        rw [own_own, List.mem_cons, List.mem_cons, ih]
        simp
      · rw [own_other hj, List.mem_cons, ih]
        simp [Ne.symm hj]

end Own

/-- Every thread has come to what it was told. -/
theorem Pool.Steps.told [DecidableEq ι] {exec : ι → Semantics Req Resp S}
    {pool pool' : Pool ι Req Resp α (S × Log ι Req Resp)} (hnew : pool.state.2 = [])
    (hsteps : Pool.Steps (recording exec) pool pool') (i : ι) :
    (pool.progs i).Told (own i pool'.state.2) (pool'.progs i) := by
  induction hsteps with
  | refl =>
      rw [hnew]
      exact .nil
  | tail _ hstep ih =>
      cases hstep with
      | @request j r next answer w' hprog hexec =>
          obtain ⟨s', past'⟩ := w'
          obtain ⟨-, rfl⟩ := hexec
          dsimp only
          by_cases hj : j = i
          · subst hj
            rw [hprog] at ih
            rw [Function.update_self, own_own]
            exact .cons ih
          · rw [Function.update_of_ne (Ne.symm hj), own_other hj]
            exact ih

/-- What was logged stays logged. -/
theorem Pool.Steps.logged [DecidableEq ι] {exec : ι → Semantics Req Resp S}
    {pool pool' : Pool ι Req Resp α (S × Log ι Req Resp)}
    (hsteps : Pool.Steps (recording exec) pool pool') :
    ∃ later, pool'.state.2 = later ++ pool.state.2 := by
  induction hsteps with
  | refl => exact ⟨[], rfl⟩
  | tail _ hstep ih =>
      obtain ⟨later, hlater⟩ := ih
      cases hstep with
      | @request j r next answer w' hprog hexec =>
          refine ⟨⟨j, r, answer⟩ :: later, ?_⟩
          rw [hexec.2, hlater, List.cons_append]

end Request
