import Lfsx.Request.Ledger
import Lfsx.Request.Protocol

/-!
# Programs within others

A program over one interface is part of a program over a larger one: `Program.within` gives
each of its requests its place there.  What it may do is what its requests may do, so an
operation within another is judged by them alone (`Ledger.Among.within`).

A thread whose neighbours have all returned runs as a program alone (`Pool.Steps.alone`).
-/

namespace Request

variable {ι Req Req' : Type} {Resp : Req → Type} {Resp' : Req' → Type} {S E ε α β : Type}

namespace Program

/-- A program whose requests have a place among others. -/
def within (place : Req → Req') (back : ∀ r, Resp' (place r) → Resp r) :
    Program Req Resp α → Program Req' Resp' α
  | .pure a => .pure a
  | .request r next => .request (place r) fun answer => (next (back r answer)).within place back

theorem within_bind {place : Req → Req'} {back : ∀ r, Resp' (place r) → Resp r}
    (p : Program Req Resp α) (f : α → Program Req Resp β) :
    (p >>= f).within place back = p.within place back >>= fun a => (f a).within place back := by
  induction p with
  | pure a => rfl
  | request r next ih => exact congrArg (Program.request (place r)) (funext fun answer => ih _)

/-- What a program does is judged by its own interface. -/
theorem Under.within {place : Req → Req'} {back : ∀ r, Resp' (place r) → Resp r}
    {exec : Semantics Req Resp S} {exec' : Semantics Req' Resp' S} {R G : S → S → Prop}
    {Q : α → S → Prop} {p : Program Req Resp α} {s : S}
    (hexec : ∀ r s answer s', exec' (place r) s answer s' → exec r s (back r answer) s')
    (h : p.Under exec R G Q s) : (p.within place back).Under exec' R G Q s := by
  induction p generalizing s with
  | pure a => exact h
  | request r next ih =>
      intro s₁ h₁ answer s₂ hanswer
      obtain ⟨hG, hnext⟩ := h s₁ h₁ (back r answer) s₂ (hexec r s₁ answer s₂ hanswer)
      exact ⟨hG, ih (back r answer) hnext⟩

/-- What a program within another was told, in its own interface. -/
theorem Told.within_inv {place : Req → Req'} {back : ∀ r, Resp' (place r) → Resp r}
    {p : Program Req Resp α} {told : List (Answered Req' Resp')} {a : α}
    (h : (p.within place back).Told told (.pure a)) :
    ∃ told', p.Told told' (.pure a) ∧ ∀ r answer, (⟨r, answer⟩ : Answered Req Resp) ∈ told' →
      ∃ answer', back r answer' = answer ∧ (⟨place r, answer'⟩ : Answered Req' Resp') ∈ told := by
  have hbegun : ∀ {told : List (Answered Req' Resp')} {q : Program Req' Resp' α},
      (p.within place back).Told told q → ∃ told' p', q = p'.within place back ∧ p.Told told' p' ∧
        ∀ r answer, (⟨r, answer⟩ : Answered Req Resp) ∈ told' →
          ∃ answer', back r answer' = answer ∧
            (⟨place r, answer'⟩ : Answered Req' Resp') ∈ told := by
    intro told q h
    induction h with
    | nil => exact ⟨[], p, rfl, .nil, fun r answer hmem => by cases hmem⟩
    | @cons told r next answer _ ih =>
        obtain ⟨told', p', heq, hp', hmem⟩ := ih
        cases p' with
        | pure a => cases heq
        | request r' next' =>
            cases heq
            refine ⟨⟨r', back r' answer⟩ :: told', next' (back r' answer), rfl, .cons hp', ?_⟩
            intro r'' answer'' hin
            rcases List.mem_cons.mp hin with heq | hin
            · cases heq
              exact ⟨answer, rfl, List.mem_cons_self⟩
            · obtain ⟨given, hgiven, hold⟩ := hmem r'' answer'' hin
              exact ⟨given, hgiven, List.mem_cons_of_mem _ hold⟩
  obtain ⟨told', p', heq, hp', hmem⟩ := hbegun h
  cases p' with
  | pure a' =>
      cases heq
      exact ⟨told', hp', hmem⟩
  | request r next => cases heq

end Program

namespace Fallible

/-- An operation whose requests have a place among others. -/
def within (place : Req → Req') (back : ∀ r, Resp' (place r) → Resp r)
    (op : Fallible ε Req Resp α) : Fallible ε Req' Resp' α :=
  ExceptT.mk (op.run.within place back)

theorem within_bind {place : Req → Req'} {back : ∀ r, Resp' (place r) → Resp r}
    (op : Fallible ε Req Resp α) (f : α → Fallible ε Req Resp β) :
    (op >>= f).within place back = op.within place back >>= fun a => (f a).within place back := by
  refine (Program.within_bind op.run _).trans (bind_congr fun answer => ?_)
  cases answer with
  | ok a => rfl
  | error e => rfl

end Fallible

namespace Ledger

variable {L : Ledger ι Req' Resp' S E} {i : ι} {w : S × List E} {K : List E → Prop}

/-- What all the requests of an operation keep holds after it. -/
theorem Among.within {place : Req → Req'} {back : ∀ r, Resp' (place r) → Resp r}
    (op : Fallible ε Req Resp α) (hK : L.Stays i K)
    (hown : ∀ r s answer past, K past → K (L.entry i (place r) s answer :: past))
    (hallowed : ∀ r past, K past → L.Allowed i past (place r)) (hw : L.Sound w) (hk : K w.2) :
    L.Among i (fun _ => K) (op.within place back) w := by
  have hprogram : ∀ (p : Program Req Resp (Except ε α)) (w : S × List E), L.Sound w → K w.2 →
      (p.within place back).Under (L.entering i) (L.Moves i) (L.Does i)
        (Fallible.Ends (fun _ w => L.Sound w ∧ K w.2) L.Sound) w := by
    intro p
    induction p with
    | pure answer =>
        intro w hw hk
        cases answer with
        | ok a => exact Program.Under.pure (stable_knows hK) ⟨hw, hk⟩
        | error e => exact Program.Under.pure stable_sound hw
    | request r next ih =>
        intro w hw hk
        refine Program.Under.request (stable_knows hK) ⟨hw, hk⟩ fun w₁ answer w₂ hw₁ hexec => ?_
        obtain ⟨hdoes, hw₂, hk₂⟩ := triple (L := L) (Q := fun _ => K) (hallowed r)
          (fun s past answer hk => hown r s answer past hk) w₁ answer w₂ hw₁ hexec
        exact ⟨hdoes, ih (back r answer) w₂ hw₂ hk₂⟩
  exact hprogram op.run w hw hk

end Ledger

/-- When every other thread has returned, a thread runs alone. -/
theorem Pool.Steps.alone [DecidableEq ι] {exec : ι → Semantics Req Resp S}
    {pool pool' : Pool ι Req Resp α S} {k : ι} (hsteps : Pool.Steps exec pool pool')
    (hdone : ∀ j, j ≠ k → ∃ a, pool.progs j = .pure a) :
    Program.Steps (exec k) (pool.progs k, pool.state) (pool'.progs k, pool'.state) ∧
      ∀ j, j ≠ k → ∃ a, pool'.progs j = .pure a := by
  induction hsteps with
  | refl => exact ⟨.refl, hdone⟩
  | tail _ hstep ih =>
      obtain ⟨hprogram, hothers⟩ := ih
      cases hstep with
      | @request i r next answer s' hprog hexec =>
          by_cases hi : i = k
          · subst hi
            refine ⟨hprogram.tail ?_, fun j hj => ?_⟩
            · simp only [Function.update_self, hprog]
              exact .request hexec
            · simp only [Function.update_of_ne hj]
              exact hothers j hj
          · obtain ⟨a, ha⟩ := hothers i hi
            rw [ha] at hprog
            cases hprog

/-- A program that runs alone ends in what it comes to. -/
theorem Program.Under.comes {exec : Semantics Req Resp S} {G : S → S → Prop} {Q : α → S → Prop}
    {p : Program Req Resp α} {s : S} (h : p.Under exec (fun _ _ => False) G Q s) :
    p.Under exec (fun _ _ => False) G
      (fun a s' => Q a s' ∧ Program.Steps exec (p, s) (.pure a, s')) s := by
  induction p generalizing s with
  | pure a => exact Program.Under.pure Fallible.stable_never ⟨h s .refl, .refl⟩
  | request r next ih =>
      intro s₁ h₁ answer s₂ hexec
      rw [Fallible.eq_of_never h₁] at hexec ⊢
      obtain ⟨hG, hnext⟩ := h s .refl answer s₂ hexec
      refine ⟨hG, Program.Under.mono (ih answer hnext) ?_⟩
      rintro a s' ⟨hQ, hsteps⟩
      exact ⟨hQ, .head (.request hexec) hsteps⟩

/-- A thread that goes on alone goes on among the others. -/
theorem Program.Steps.among [DecidableEq ι] {exec : ι → Semantics Req Resp S}
    {pool : Pool ι Req Resp α S} {k : ι} {c : Program Req Resp α × S}
    (hsteps : Program.Steps (exec k) (pool.progs k, pool.state) c) :
    Pool.Steps exec pool ⟨Function.update pool.progs k c.1, c.2⟩ := by
  induction hsteps with
  | refl => rw [Function.update_eq_self]
  | tail _ hstep ih =>
      cases hstep with
      | @request r next s s' answer hexec =>
          let among : Pool ι Req Resp α S := ⟨Function.update pool.progs k (.request r next), s⟩
          have hprog : among.progs k = .request r next := Function.update_self k _ pool.progs
          have hnext := Pool.Step.request k hprog hexec
          simp only [among, Function.update_idem] at hnext
          exact ih.tail hnext

end Request
