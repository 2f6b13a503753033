import Lfsx.Request.Interference

/-!
# Programs that can fail

A fallible program ends in a value or in an error, and a sequence of them stops
at the first error: it is an `ExceptT` over `Program`.  `Fallible.Under` is the
judgement of `Lfsx.Request.Interference` with one postcondition for the value and
one for the error, and it has the same rules.
-/

namespace Request

/-- A program that returns a value or an error. -/
abbrev Fallible (ε Req : Type) (Resp : Req → Type) (α : Type) := ExceptT ε (Program Req Resp) α

namespace Fallible

variable {ε Req : Type} {Resp : Req → Type} {S α β : Type}

/-- Issue a request whose answer may be an error. -/
def ask (r : Req) (h : Resp r = Except ε α) : Fallible ε Req Resp α :=
  ExceptT.mk (.request r fun answer => .pure (cast h answer))

/-- Issue a request that cannot fail. -/
def certain (r : Req) : Fallible ε Req Resp (Resp r) :=
  ExceptT.mk (.request r fun answer => .pure (.ok answer))

/-- A value or an error that took no request. -/
def ofExcept (answer : Except ε α) : Fallible ε Req Resp α := ExceptT.mk (.pure answer)

/-- Take an error for an answer. -/
def attempt (op : Fallible ε Req Resp α) : Fallible ε Req Resp (Except ε α) :=
  ExceptT.mk (op.run >>= fun answer => .pure (.ok answer))

/-- Take an error for an answer, among operations with errors of another type. -/
def caught {ε' : Type} (op : Fallible ε Req Resp α) : Fallible ε' Req Resp (Except ε α) :=
  ExceptT.mk (op.run >>= fun answer => .pure (.ok answer))

/-- The error a caller sees. -/
def mapError {ε' : Type} (f : ε → ε') (op : Fallible ε Req Resp α) : Fallible ε' Req Resp α :=
  ExceptT.mk (op.run >>= fun answer => .pure (answer.mapError f))

/-- `Q` of a value, `E` of an error. -/
def Ends (Q : α → S → Prop) (E : S → Prop) : Except ε α → S → Prop
  | .ok a, s => Q a s
  | .error _, s => E s

/-- `Under exec R G Q E op s`: as for a program, with `Q` for a value and `E` for
an error. -/
def Under (exec : Semantics Req Resp S) (R G : S → S → Prop) (Q : α → S → Prop)
    (E : S → Prop) (op : Fallible ε Req Resp α) (s : S) : Prop :=
  op.run.Under exec R G (Ends Q E) s

/-! ## Running alone -/

/-- Alone against a handler, `op` returns `a` and leaves `s'`. -/
def Returns (handle : (r : Req) → S → Resp r × S) (op : Fallible ε Req Resp α) (s : S) (a : α)
    (s' : S) : Prop :=
  op.run.eval handle s = (.ok a, s')

section Returns

variable {handle : (r : Req) → S → Resp r × S} {s s' s'' : S}

theorem Returns.pure {a : α} : (Pure.pure a : Fallible ε Req Resp α).Returns handle s a s := rfl

theorem Returns.bind {a : α} {c : β} {op : Fallible ε Req Resp α} {f : α → Fallible ε Req Resp β}
    (h : op.Returns handle s a s') (hf : (f a).Returns handle s' c s'') :
    (op >>= f).Returns handle s c s'' := by
  rw [Returns, ExceptT.run_bind, Program.eval_bind, h]
  exact hf

theorem Returns.attempt {answer : Except ε α} {c : β} {op : Fallible ε Req Resp α}
    {f : Except ε α → Fallible ε Req Resp β} (h : op.run.eval handle s = (answer, s'))
    (hf : (f answer).Returns handle s' c s'') : (op.attempt >>= f).Returns handle s c s'' := by
  refine Returns.bind (a := answer) ?_ hf
  rw [Returns, Fallible.attempt, ExceptT.run_mk, Program.eval_bind, h]
  rfl

theorem Returns.caught {ε' : Type} {answer : Except ε α} {c : β} {op : Fallible ε Req Resp α}
    {f : Except ε α → Fallible ε' Req Resp β} (h : op.run.eval handle s = (answer, s'))
    (hf : (f answer).Returns handle s' c s'') : (op.caught >>= f).Returns handle s c s'' := by
  refine Returns.bind (a := answer) ?_ hf
  rw [Returns, Fallible.caught, ExceptT.run_mk, Program.eval_bind, h]
  rfl

theorem Returns.mapError {ε' : Type} {g : ε → ε'} {a : α} {op : Fallible ε Req Resp α}
    (h : op.Returns handle s a s') : (op.mapError g).Returns handle s a s' := by
  rw [Returns, Fallible.mapError, ExceptT.run_mk, Program.eval_bind, h]
  rfl

theorem Returns.ask {a : α} {r : Req} {h : Resp r = Except ε α}
    (hanswer : handle r s = (cast h.symm (.ok a), s')) :
    (Fallible.ask r h).Returns handle s a s' := by
  rw [Returns, Fallible.ask, ExceptT.run_mk, Program.eval, hanswer]
  simp

theorem Returns.certain {r : Req} {a : Resp r} (hanswer : handle r s = (a, s')) :
    (Fallible.certain r : Fallible ε Req Resp (Resp r)).Returns handle s a s' := by
  rw [Returns, Fallible.certain, ExceptT.run_mk, Program.eval, hanswer]
  rfl

end Returns

/-! ## Running among others -/

section Rules

open Program (Stable Triple)

variable {exec : Semantics Req Resp S} {R G : S → S → Prop} {E : S → Prop}

/-- A judgement no other thread can break. -/
theorem Under.stable {Q : α → S → Prop} {op : Fallible ε Req Resp α} :
    Stable R (op.Under exec R G Q E) :=
  fun _ _ hR h => h.rely (.single hR)

theorem Under.mono {Q Q' : α → S → Prop} {E' : S → Prop} {op : Fallible ε Req Resp α} {s : S}
    (h : op.Under exec R G Q E s) (hQ : ∀ a s, Q a s → Q' a s) (hE : ∀ s, E s → E' s) :
    op.Under exec R G Q' E' s := by
  refine Program.Under.mono h fun answer s' hs => ?_
  cases answer with
  | ok a => exact hQ a s' hs
  | error e => exact hE s' hs

theorem Under.pure {Q : α → S → Prop} {a : α} {s : S} (hst : Stable R (Q a)) (hQ : Q a s) :
    (Pure.pure a : Fallible ε Req Resp α).Under exec R G Q E s :=
  Program.Under.pure hst hQ

theorem Under.throw {Q : α → S → Prop} {e : ε} {s : S} (hst : Stable R E) (hE : E s) :
    (throw e : Fallible ε Req Resp α).Under exec R G Q E s :=
  Program.Under.pure hst hE

/-- The rule for sequencing: an error ends the sequence. -/
theorem Under.bind {Q : β → S → Prop} {op : Fallible ε Req Resp α}
    {f : α → Fallible ε Req Resp β} {s : S} (hst : Stable R E)
    (h : op.Under exec R G (fun a s' => (f a).Under exec R G Q E s') E s) :
    (op >>= f).Under exec R G Q E s := by
  rw [Under, ExceptT.run_bind]
  refine Program.Under.bind (Program.Under.mono h fun answer s' hs => ?_)
  cases answer with
  | ok a => exact hs
  | error e => exact Program.Under.pure hst hs

/-- What is attempted does not end the sequence. -/
theorem Under.attempt {Q : β → S → Prop} {op : Fallible ε Req Resp α}
    {f : Except ε α → Fallible ε Req Resp β} {s : S}
    (h : op.Under exec R G (fun a => (f (.ok a)).Under exec R G Q E)
      (fun s' => ∀ e, (f (.error e)).Under exec R G Q E s') s) :
    (op.attempt >>= f).Under exec R G Q E s := by
  rw [Under, ExceptT.run_bind]
  refine Program.Under.bind (Program.Under.bind (Program.Under.mono h fun answer s' hs => ?_))
  cases answer with
  | ok a => exact Program.Under.pure Under.stable hs
  | error e => exact Program.Under.pure Under.stable (hs e)

/-- The rule for one request, from a stable assertion. -/
theorem Under.ask {P : S → Prop} {Q : α → S → Prop} {r : Req} {h : Resp r = Except ε α} {s : S}
    (hst : Stable R P) (hP : P s) (hQ : ∀ a, Stable R (Q a)) (hE : Stable R E)
    (hstep : Triple exec G P r fun answer => Ends Q E (cast h answer)) :
    (Fallible.ask r h).Under exec R G Q E s := by
  refine Program.Under.request hst hP fun s₁ answer s₂ hs hexec => ?_
  obtain ⟨hG, hpost⟩ := hstep s₁ answer s₂ hs hexec
  refine ⟨hG, Program.Under.pure ?_ hpost⟩
  cases cast h answer with
  | ok a => exact hQ a
  | error e => exact hE

/-- The rule for an operation whose error is taken for an answer. -/
theorem Under.caught {ε' : Type} {Q : β → S → Prop} {op : Fallible ε Req Resp α}
    {f : Except ε α → Fallible ε' Req Resp β} {s : S}
    (h : op.run.Under exec R G (fun answer => (f answer).Under exec R G Q E) s) :
    (op.caught >>= f).Under exec R G Q E s := by
  rw [Under, ExceptT.run_bind]
  refine Program.Under.bind (Program.Under.bind (Program.Under.mono h fun answer s' hs => ?_))
  exact Program.Under.pure Under.stable hs

/-- The rule for an operation whose error ends the sequence, as another error. -/
theorem Under.mapped {ε' : Type} {Q : β → S → Prop} {op : Fallible ε Req Resp α} {g : ε → ε'}
    {f : α → Fallible ε' Req Resp β} {s : S} (hE : Stable R E)
    (h : op.Under exec R G (fun a => (f a).Under exec R G Q E) E s) :
    (op.mapError g >>= f).Under exec R G Q E s := by
  rw [Under, ExceptT.run_bind]
  refine Program.Under.bind (Program.Under.bind (Program.Under.mono h fun answer s' hs => ?_))
  cases answer with
  | ok a => exact Program.Under.pure Under.stable hs
  | error e =>
      exact Program.Under.pure (fun _ _ hR h => h.rely (.single hR)) (Program.Under.pure hE hs)

/-- The rule for one request that cannot fail. -/
theorem Under.certain {P : S → Prop} {r : Req} {Q : Resp r → S → Prop} {s : S}
    (hst : Stable R P) (hP : P s) (hQ : ∀ a, Stable R (Q a))
    (hstep : Triple exec G P r Q) :
    (Fallible.certain r : Fallible ε Req Resp (Resp r)).Under exec R G Q E s := by
  refine Program.Under.request hst hP fun s₁ answer s₂ hs hexec => ?_
  obtain ⟨hG, hpost⟩ := hstep s₁ answer s₂ hs hexec
  exact ⟨hG, Program.Under.pure (hQ answer) hpost⟩

/-- The rule for what took no request. -/
theorem Under.ofExcept {Q : β → S → Prop} {answer : Except ε α} {f : α → Fallible ε Req Resp β}
    {s : S} (hE : Stable R E) (hok : ∀ a, answer = .ok a → (f a).Under exec R G Q E s)
    (herror : ∀ e, answer = .error e → E s) :
    (Fallible.ofExcept answer >>= f).Under exec R G Q E s := by
  cases answer with
  | ok a => exact hok a rfl
  | error e => exact Program.Under.pure hE (herror e rfl)

end Rules

/-! ## What an operation may ask -/

/-- Every request is in `p`, and with answers in `A` a value is in `Q`. -/
def Only (p : Req → Prop) (A : (r : Req) → Resp r → Prop) (Q : α → Prop)
    (op : Fallible ε Req Resp α) : Prop :=
  op.run.Only p A fun answer => ∀ a, answer = .ok a → Q a

section Only

variable {p : Req → Prop} {A : (r : Req) → Resp r → Prop} {Q : α → Prop}

theorem Only.pure {a : α} (hQ : Q a) : (Pure.pure a : Fallible ε Req Resp α).Only p A Q := by
  rintro _ ⟨⟩
  exact hQ

theorem Only.throw {e : ε} : (throw e : Fallible ε Req Resp α).Only p A Q := by
  rintro _ ⟨⟩

theorem Only.bind {Q' : β → Prop} {op : Fallible ε Req Resp α} {f : α → Fallible ε Req Resp β}
    (h : op.Only p A Q) (hf : ∀ a, Q a → (f a).Only p A Q') : (op >>= f).Only p A Q' := by
  rw [Only, ExceptT.run_bind]
  refine Program.Only.bind h fun answer hanswer => ?_
  cases answer with
  | ok a => exact hf a (hanswer a rfl)
  | error e =>
      rintro _ ⟨⟩

theorem Only.ask {r : Req} {h : Resp r = Except ε α} (hr : p r)
    (hQ : ∀ answer, A r answer → ∀ a, cast h answer = .ok a → Q a) :
    (Fallible.ask r h : Fallible ε Req Resp α).Only p A Q :=
  ⟨hr, hQ⟩

theorem Only.attempt {Q' : β → Prop} {op : Fallible ε Req Resp α}
    {f : Except ε α → Fallible ε Req Resp β} (h : op.Only p A Q)
    (hf : ∀ answer, (f answer).Only p A Q') : (op.attempt >>= f).Only p A Q' := by
  have hends : op.attempt.run.Only p A fun answer => ∃ a, answer = .ok a :=
    Program.Only.bind h fun answer _ => ⟨answer, rfl⟩
  rw [Only, ExceptT.run_bind]
  refine Program.Only.bind hends ?_
  rintro _ ⟨answer, rfl⟩
  exact hf answer

theorem Only.caught {ε' : Type} {Q' : β → Prop} {r : Req} {h : Resp r = Except ε α}
    {f : Except ε α → Fallible ε' Req Resp β} (hr : p r)
    (hf : ∀ answer, A r answer → (f (cast h answer)).Only p A Q') :
    ((Fallible.ask r h).caught >>= f).Only p A Q' := by
  rw [Only, ExceptT.run_bind]
  exact ⟨hr, hf⟩

theorem Only.mapped {ε' : Type} {Q' : β → Prop} {r : Req} {h : Resp r = Except ε α}
    {g : ε → ε'} {f : α → Fallible ε' Req Resp β} (hr : p r)
    (hf : ∀ a, (f a).Only p A Q') :
    ((Fallible.ask r h).mapError g >>= f).Only p A Q' := by
  have hends : ∀ x : Except ε α, ((ExceptT.mk (.pure (x.mapError g)) >>= f :
      Fallible ε' Req Resp β)).Only p A Q' := by
    intro x
    cases x with
    | ok a => exact hf a
    | error e => exact Only.throw
  rw [Only, ExceptT.run_bind]
  exact ⟨hr, fun answer _ => hends (cast h answer)⟩

theorem Only.certain {Q' : β → Prop} {r : Req} {f : Resp r → Fallible ε Req Resp β} (hr : p r)
    (hf : ∀ answer, A r answer → (f answer).Only p A Q') :
    ((Fallible.certain r : Fallible ε Req Resp (Resp r)) >>= f).Only p A Q' := by
  rw [Only, ExceptT.run_bind]
  exact ⟨hr, hf⟩

/-- A stable assertion that the requests of an operation keep holds around it. -/
theorem Only.under {exec : Semantics Req Resp S} {R G : S → S → Prop} {P E : S → Prop}
    {op : Fallible ε Req Resp α} {s : S} (h : op.Only p A Q) (hst : Program.Stable R P)
    (hstep : ∀ r, p r → Program.Triple exec G P r fun answer s' => P s' ∧ A r answer)
    (hP : P s) (hE : ∀ s, P s → E s) : op.Under exec R G (fun a s' => P s' ∧ Q a) E s := by
  refine Program.Under.mono (Program.Only.under h hst hstep hP) ?_
  rintro answer s' ⟨hP', hQ⟩
  cases answer with
  | ok a => exact ⟨hP', hQ a rfl⟩
  | error e => exact hE s' hP'

end Only

/-! ## Running with nobody beside -/

/-- `Under`, when no other thread changes anything. -/
abbrev Alone (exec : Semantics Req Resp S) (G : S → S → Prop) (Q : α → S → Prop) (E : S → Prop)
    (op : Fallible ε Req Resp α) (s : S) : Prop :=
  op.Under exec (fun _ _ => False) G Q E s

section Alone

open Program (Stable)

variable {exec : Semantics Req Resp S} {G : S → S → Prop} {E : S → Prop}

theorem stable_never {P : S → Prop} : Stable (fun _ _ => False) P := fun _ _ h => h.elim

theorem eq_of_never {s s' : S} (h : Relation.ReflTransGen (fun _ _ : S => False) s s') :
    s' = s := by
  cases h with
  | refl => rfl
  | tail _ h => exact h.elim

theorem Alone.pure {Q : α → S → Prop} {a : α} {s : S} (hQ : Q a s) :
    (Pure.pure a : Fallible ε Req Resp α).Alone exec G Q E s :=
  Under.pure stable_never hQ

theorem Alone.throw {Q : α → S → Prop} {e : ε} {s : S} (hE : E s) :
    (throw e : Fallible ε Req Resp α).Alone exec G Q E s :=
  Under.throw stable_never hE

theorem Alone.bind {Q : β → S → Prop} {op : Fallible ε Req Resp α} {f : α → Fallible ε Req Resp β}
    {s : S} (h : op.Alone exec G (fun a => (f a).Alone exec G Q E) E s) :
    (op >>= f).Alone exec G Q E s :=
  Under.bind stable_never h

/-- A run of an operation, to its answer. -/
def Ran (exec : Semantics Req Resp S) (op : Fallible ε Req Resp α) (s : S) (answer : Except ε α)
    (s' : S) : Prop :=
  Program.Steps exec (op.run, s) (.pure answer, s')

theorem Ran.bind {op : Fallible ε Req Resp α} {f : α → Fallible ε Req Resp β} {s s' s'' : S} {a : α}
    {answer : Except ε β} (h : op.Ran exec s (.ok a) s') (hf : (f a).Ran exec s' answer s'') :
    (op >>= f).Ran exec s answer s'' := by
  rw [Ran, ExceptT.run_bind]
  exact Program.Steps.bind h hf

/-- What an operation does alone is a run of it. -/
theorem Alone.ran (op : Fallible ε Req Resp α) (s : S) :
    op.Alone exec (fun _ _ => True) (fun a s' => op.Ran exec s (.ok a) s')
      (fun s' => ∃ e, op.Ran exec s (.error e) s') s := by
  have hprogram : ∀ (p : Program Req Resp (Except ε α)) (s : S),
      p.Under exec (fun _ _ => False) (fun _ _ => True)
        (fun answer s' => Program.Steps exec (p, s) (.pure answer, s')) s := by
    intro p
    induction p with
    | pure answer => exact fun s => Program.Under.pure stable_never .refl
    | request r next ih =>
        intro s s₁ hsame answer s₂ hexec
        rw [eq_of_never hsame] at hexec
        exact ⟨trivial, (ih answer s₂).mono fun _ _ h => .head (.request hexec) h⟩
  refine (hprogram op.run s).mono fun answer s' h => ?_
  cases answer with
  | ok a => exact h
  | error e => exact ⟨e, h⟩

/-- What every step preserves holds at the end. -/
theorem Alone.keeps {I : S → Prop} {Q : α → S → Prop} {op : Fallible ε Req Resp α} {s : S}
    (hG : Stable G I) (h : op.Alone exec G Q E s) (hI : I s) :
    op.Alone exec G (fun a s' => Q a s' ∧ I s') E s := by
  refine Program.Under.mono (Program.Under.keeps stable_never hG h hI) ?_
  rintro answer s' ⟨hends, hI'⟩
  cases answer with
  | ok a => exact ⟨hends, hI'⟩
  | error e => exact hends

/-- One request. -/
theorem Alone.ask {Q : α → S → Prop} {r : Req} {h : Resp r = Except ε α} {s : S}
    (hstep : ∀ answer s', exec r s answer s' → G s s' ∧ Ends Q E (cast h answer) s') :
    (Fallible.ask r h).Alone exec G Q E s := by
  intro s₁ h₁ answer s₂ hexec
  rw [eq_of_never h₁] at hexec ⊢
  obtain ⟨hG, hpost⟩ := hstep answer s₂ hexec
  exact ⟨hG, fun s₃ h₃ => by rwa [eq_of_never h₃]⟩

/-- One request that cannot fail. -/
theorem Alone.certain {Q : β → S → Prop} {r : Req} {f : Resp r → Fallible ε Req Resp β} {s : S}
    (hstep : ∀ answer s', exec r s answer s' → G s s' ∧ (f answer).Alone exec G Q E s') :
    ((Fallible.certain r : Fallible ε Req Resp (Resp r)) >>= f).Alone exec G Q E s := by
  refine Alone.bind fun s₁ h₁ answer s₂ hexec => ?_
  rw [eq_of_never h₁] at hexec ⊢
  obtain ⟨hG, hpost⟩ := hstep answer s₂ hexec
  exact ⟨hG, fun s₃ h₃ => by rwa [eq_of_never h₃]⟩

/-- One request whose error is taken for an answer. -/
theorem Alone.caught {ε' : Type} {Q : β → S → Prop} {r : Req} {h : Resp r = Except ε α}
    {f : Except ε α → Fallible ε' Req Resp β} {s : S}
    (hstep : ∀ answer s', exec r s answer s' → G s s' ∧ (f (cast h answer)).Alone exec G Q E s') :
    ((Fallible.ask r h).caught >>= f).Alone exec G Q E s := by
  refine Under.caught fun s₁ h₁ answer s₂ hexec => ?_
  rw [eq_of_never h₁] at hexec ⊢
  obtain ⟨hG, hpost⟩ := hstep answer s₂ hexec
  exact ⟨hG, fun s₃ h₃ => by rwa [eq_of_never h₃]⟩

/-- One request whose error ends the sequence. -/
theorem Alone.mapped {ε' : Type} {Q : β → S → Prop} {r : Req} {h : Resp r = Except ε α}
    {g : ε → ε'} {f : α → Fallible ε' Req Resp β} {s : S}
    (hstep : ∀ answer s', exec r s answer s' →
      G s s' ∧ Ends (fun a => (f a).Alone exec G Q E) E (cast h answer) s') :
    ((Fallible.ask r h).mapError g >>= f).Alone exec G Q E s :=
  Under.mapped stable_never (Alone.ask hstep)

/-- `Alone`, with a postcondition that sees the error. -/
abbrev Ending (exec : Semantics Req Resp S) (G : S → S → Prop) (P : Except ε α → S → Prop)
    (op : Fallible ε Req Resp α) (s : S) : Prop :=
  op.run.Under exec (fun _ _ => False) G P s

theorem Ending.pure {P : Except ε α → S → Prop} {a : α} {s : S} (hP : P (.ok a) s) :
    (Pure.pure a : Fallible ε Req Resp α).Ending exec G P s :=
  Program.Under.pure stable_never hP

theorem Ending.throw {P : Except ε α → S → Prop} {e : ε} {s : S} (hP : P (.error e) s) :
    (throw e : Fallible ε Req Resp α).Ending exec G P s :=
  Program.Under.pure stable_never hP

theorem Ending.bind {P : Except ε β → S → Prop} {op : Fallible ε Req Resp α}
    {f : α → Fallible ε Req Resp β} {s : S}
    (h : op.Ending exec G (fun answer s' => match answer with
      | .ok a => (f a).Ending exec G P s'
      | .error e => P (.error e) s') s) : (op >>= f).Ending exec G P s := by
  rw [Ending, ExceptT.run_bind]
  refine Program.Under.bind (Program.Under.mono h fun answer s' hs => ?_)
  cases answer with
  | ok a => exact hs
  | error e => exact Program.Under.pure stable_never hs

/-- An operation whose error is taken for an answer. -/
theorem Ending.attempt {P : Except ε β → S → Prop} {op : Fallible ε Req Resp α}
    {f : Except ε α → Fallible ε Req Resp β} {s : S}
    (h : op.Ending exec G (fun answer s' => (f answer).Ending exec G P s') s) :
    (op.attempt >>= f).Ending exec G P s := by
  rw [Ending, ExceptT.run_bind]
  refine Program.Under.bind (Program.Under.bind (Program.Under.mono h fun answer s' hs => ?_))
  exact Program.Under.pure stable_never hs

/-- One request that cannot fail. -/
theorem Ending.certain {P : Except ε β → S → Prop} {r : Req} {f : Resp r → Fallible ε Req Resp β}
    {s : S}
    (hstep : ∀ answer s', exec r s answer s' → G s s' ∧ (f answer).Ending exec G P s') :
    ((Fallible.certain r : Fallible ε Req Resp (Resp r)) >>= f).Ending exec G P s := by
  rw [Ending, ExceptT.run_bind]
  refine Program.Under.bind fun s₁ h₁ answer s₂ hexec => ?_
  rw [eq_of_never h₁] at hexec ⊢
  obtain ⟨hG, hpost⟩ := hstep answer s₂ hexec
  refine ⟨hG, fun s₃ h₃ => ?_⟩
  rwa [eq_of_never h₃]

/-- One request that cannot fail, and nothing after it. -/
theorem Ending.issue {r : Req} {P : Except ε (Resp r) → S → Prop} {s : S}
    (hstep : ∀ answer s', exec r s answer s' → G s s' ∧ P (.ok answer) s') :
    (Fallible.certain r : Fallible ε Req Resp (Resp r)).Ending exec G P s := by
  intro s₁ h₁ answer s₂ hexec
  rw [eq_of_never h₁] at hexec ⊢
  obtain ⟨hG, hpost⟩ := hstep answer s₂ hexec
  exact ⟨hG, fun s₃ h₃ => by rwa [eq_of_never h₃]⟩

/-- One request, and nothing after it. -/
theorem Ending.ask {P : Except ε α → S → Prop} {r : Req} {h : Resp r = Except ε α} {s : S}
    (hstep : ∀ answer s', exec r s answer s' → G s s' ∧ P (cast h answer) s') :
    (Fallible.ask r h).Ending exec G P s := by
  intro s₁ h₁ answer s₂ hexec
  rw [eq_of_never h₁] at hexec ⊢
  obtain ⟨hG, hpost⟩ := hstep answer s₂ hexec
  exact ⟨hG, fun s₃ h₃ => by rwa [eq_of_never h₃]⟩

/-- One request whose error ends the sequence. -/
theorem Ending.step {P : Except ε β → S → Prop} {r : Req} {h : Resp r = Except ε α}
    {f : α → Fallible ε Req Resp β} {s : S}
    (hstep : ∀ answer s', exec r s answer s' → G s s' ∧
      match cast h answer with
      | .ok a => (f a).Ending exec G P s'
      | .error e => P (.error e) s') :
    (Fallible.ask r h >>= f).Ending exec G P s := by
  rw [Ending, ExceptT.run_bind]
  refine Program.Under.bind fun s₁ h₁ answer s₂ hexec => ?_
  rw [eq_of_never h₁] at hexec ⊢
  obtain ⟨hG, hpost⟩ := hstep answer s₂ hexec
  refine ⟨hG, fun s₃ h₃ => ?_⟩
  rw [eq_of_never h₃]
  cases hanswer : cast h answer with
  | ok a =>
      rw [hanswer] at hpost
      exact hpost
  | error e =>
      rw [hanswer] at hpost
      exact Program.Under.pure stable_never hpost

/-- One request whose error ends the sequence, as another error. -/
theorem Ending.mapped {ε' : Type} {P : Except ε' β → S → Prop} {r : Req} {h : Resp r = Except ε α}
    {g : ε → ε'} {f : α → Fallible ε' Req Resp β} {s : S}
    (hstep : ∀ answer s', exec r s answer s' → G s s' ∧
      match cast h answer with
      | .ok a => (f a).Ending exec G P s'
      | .error e => P (.error (g e)) s') :
    ((Fallible.ask r h).mapError g >>= f).Ending exec G P s := by
  rw [Ending, ExceptT.run_bind]
  refine Program.Under.bind fun s₁ h₁ answer s₂ hexec => ?_
  rw [eq_of_never h₁] at hexec ⊢
  obtain ⟨hG, hpost⟩ := hstep answer s₂ hexec
  refine ⟨hG, fun s₃ h₃ => ?_⟩
  rw [eq_of_never h₃]
  cases hanswer : cast h answer with
  | ok a =>
      rw [hanswer] at hpost
      exact hpost
  | error e =>
      rw [hanswer] at hpost
      exact Program.Under.pure stable_never hpost

/-- One request whose error is taken for an answer. -/
theorem Ending.caught {ε' : Type} {P : Except ε' β → S → Prop} {r : Req} {h : Resp r = Except ε α}
    {f : Except ε α → Fallible ε' Req Resp β} {s : S}
    (hstep : ∀ answer s', exec r s answer s' → G s s' ∧ (f (cast h answer)).Ending exec G P s') :
    ((Fallible.ask r h).caught >>= f).Ending exec G P s := by
  rw [Ending, ExceptT.run_bind]
  refine Program.Under.bind fun s₁ h₁ answer s₂ hexec => ?_
  rw [eq_of_never h₁] at hexec ⊢
  obtain ⟨hG, hpost⟩ := hstep answer s₂ hexec
  exact ⟨hG, fun s₃ h₃ => by rwa [eq_of_never h₃]⟩

end Alone

end Fallible

end Request
