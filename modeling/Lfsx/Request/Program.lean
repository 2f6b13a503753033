import Mathlib.Logic.Relation

/-!
# Programs that make requests

A program over an interface is a tree: it has returned, or it has issued one
request and says how to go on for every answer.  `Req` is the type of requests
and `Resp r` the type of answers to `r`.

A program is run in two ways.

* `Program.eval` runs it alone, against a handler that answers every request
  and moves the state.
* `Program.Step` runs it one request at a time, against a *semantics*: a
  relation that says which answers a request may get and which states it may
  leave behind.  A semantics may let a request fail, before or after it took
  effect, and a run may stop after any step, which is how a crash is a run.

The rules for the second are in `Lfsx.Request.Interference`, which has other
programs at work on the state as well.
-/

namespace Request

/-- A program that returns a value of `α` after some requests. -/
inductive Program (Req : Type) (Resp : Req → Type) (α : Type) where
  | pure (value : α)
  | request (r : Req) (next : Resp r → Program Req Resp α)

/-- Which answer a request may get in a state, and the state it may leave. -/
abbrev Semantics (Req : Type) (Resp : Req → Type) (S : Type) :=
  (r : Req) → S → Resp r → S → Prop

namespace Program

variable {Req : Type} {Resp : Req → Type} {S : Type} {α β γ : Type}

/-! ## The monad -/

/-- Run `f` on what `p` returns. -/
def bind : Program Req Resp α → (α → Program Req Resp β) → Program Req Resp β
  | .pure a, f => f a
  | .request r next, f => .request r fun answer => (next answer).bind f

instance : Monad (Program Req Resp) where
  pure := .pure
  bind := bind

@[simp] theorem pure_bind' (a : α) (f : α → Program Req Resp β) :
    (Program.pure a >>= f) = f a := rfl

@[simp] theorem request_bind (r : Req) (next : Resp r → Program Req Resp α)
    (f : α → Program Req Resp β) :
    (Program.request r next >>= f) = .request r fun answer => next answer >>= f := rfl

@[simp] theorem pure_eq (a : α) : (Pure.pure a : Program Req Resp α) = .pure a := rfl

theorem bind_pure' (p : Program Req Resp α) : (p >>= Program.pure) = p := by
  induction p with
  | pure a => rfl
  | request r next ih =>
      rw [request_bind]
      exact congrArg (Program.request r) (funext ih)

theorem bind_assoc' (p : Program Req Resp α) (f : α → Program Req Resp β)
    (g : β → Program Req Resp γ) : (p >>= f >>= g) = (p >>= fun a => f a >>= g) := by
  induction p with
  | pure a => rfl
  | request r next ih =>
      simp only [request_bind]
      exact congrArg (Program.request r) (funext ih)

instance : LawfulMonad (Program Req Resp) :=
  LawfulMonad.mk' _ bind_pure' (fun _ _ => rfl) bind_assoc'

/-- Issue one request and return its answer. -/
def ask (r : Req) : Program Req Resp (Resp r) := .request r .pure

/-! ## Running alone -/

/-- Run a program against a handler that answers every request. -/
def eval (handle : (r : Req) → S → Resp r × S) : Program Req Resp α → S → α × S
  | .pure a, s => (a, s)
  | .request r next, s => (next (handle r s).1).eval handle (handle r s).2

@[simp] theorem eval_pure (handle : (r : Req) → S → Resp r × S) (a : α) (s : S) :
    (Program.pure a : Program Req Resp α).eval handle s = (a, s) := rfl

@[simp] theorem eval_ask (handle : (r : Req) → S → Resp r × S) (r : Req) (s : S) :
    (ask r : Program Req Resp (Resp r)).eval handle s = handle r s := rfl

@[simp] theorem eval_bind (handle : (r : Req) → S → Resp r × S) (p : Program Req Resp α)
    (f : α → Program Req Resp β) (s : S) :
    (p >>= f).eval handle s = (f (p.eval handle s).1).eval handle (p.eval handle s).2 := by
  induction p generalizing s with
  | pure a => rfl
  | request r next ih => exact ih _ _

/-- The program has returned. -/
def done : Program Req Resp α → Bool
  | .pure _ => true
  | .request _ _ => false

theorem eq_pure_of_done {p : Program Req Resp α} (h : p.done = true) : ∃ a, p = .pure a := by
  cases p with
  | pure a => exact ⟨a, rfl⟩
  | request r next => cases h

/-- What the program has returned. -/
def result : Program Req Resp α → Option α
  | .pure a => some a
  | .request _ _ => none

theorem eq_pure_of_result {p : Program Req Resp α} {a : α} (h : p.result = some a) :
    p = .pure a := by
  cases p with
  | pure b =>
      cases h
      rfl
  | request r next => cases h

/-! ## Running one request at a time -/

/-- One request of a program is answered. -/
inductive Step (exec : Semantics Req Resp S) :
    Program Req Resp α × S → Program Req Resp α × S → Prop where
  | request {r : Req} {next : Resp r → Program Req Resp α} {s s' : S} {answer : Resp r} :
      exec r s answer s' → Step exec (.request r next, s) (next answer, s')

/-- Any number of requests of a program are answered. -/
abbrev Steps (exec : Semantics Req Resp S) :
    Program Req Resp α × S → Program Req Resp α × S → Prop :=
  Relation.ReflTransGen (Step exec)

/-- What a handler answers is a run. -/
theorem eval_steps {exec : Semantics Req Resp S} {handle : (r : Req) → S → Resp r × S}
    (h : ∀ r s, exec r s (handle r s).1 (handle r s).2) (p : Program Req Resp α) (s : S) :
    Steps exec (p, s) (.pure (p.eval handle s).1, (p.eval handle s).2) := by
  induction p generalizing s with
  | pure a => exact .refl
  | request r next ih => exact .head (.request (h r s)) (ih _ _)

/-- A run of a program, and one of what comes after it. -/
theorem Steps.bind {exec : Semantics Req Resp S} {p : Program Req Resp α}
    {f : α → Program Req Resp β} {a : α} {s s' : S} {c : Program Req Resp β × S}
    (h : Steps exec (p, s) (.pure a, s')) (hf : Steps exec (f a, s') c) :
    Steps exec (p >>= f, s) c := by
  induction p generalizing s with
  | pure b =>
      obtain heq | ⟨_, hstep, -⟩ := Relation.ReflTransGen.cases_head h
      · cases heq
        exact hf
      · cases hstep
  | request r next ih =>
      obtain heq | ⟨_, hstep, hrest⟩ := Relation.ReflTransGen.cases_head h
      · cases heq
      · cases hstep with
        | request hexec => exact .head (.request hexec) (ih _ hrest)

/-- The first requests of a program against a handler that may refuse to go on. -/
def advance (handle : (r : Req) → S → Option (Resp r × S)) :
    Nat → Program Req Resp α × S → Option (Program Req Resp α × S)
  | 0, c => some c
  | _ + 1, (.pure a, s) => some (.pure a, s)
  | n + 1, (.request r next, s) =>
      (handle r s).bind fun answered => advance handle n (next answered.1, answered.2)

/-- What a handler answers is a run, as far as it goes. -/
theorem advance_steps {exec : Semantics Req Resp S}
    {handle : (r : Req) → S → Option (Resp r × S)}
    (h : ∀ r s answered, handle r s = some answered → exec r s answered.1 answered.2) {n : Nat}
    {c c' : Program Req Resp α × S} (hadvance : advance handle n c = some c') :
    Steps exec c c' := by
  induction n generalizing c with
  | zero =>
      cases hadvance
      exact .refl
  | succ n ih =>
      obtain ⟨p, s⟩ := c
      cases p with
      | pure a =>
          cases hadvance
          exact .refl
      | request r next =>
          obtain ⟨answered, hanswered, hrest⟩ := Option.bind_eq_some_iff.mp hadvance
          exact .head (.request (h r s answered hanswered)) (ih hrest)

end Program

end Request
