import Lfsx.Request.Within

/-!
# Two stores, one beside the other

A program may work on two stores, each with an interface of its own: a request of one leaves the
other as it is (`Semantics.beside`).  What an operation does on one of them, with nobody beside it,
it does as a part of such a program (`Fallible.Alone.first`, `Fallible.Alone.second`).
-/

namespace Request

variable {Req₁ Req₂ : Type} {Resp₁ : Req₁ → Type} {Resp₂ : Req₂ → Type} {S₁ S₂ ε α : Type}

/-- A request to one of two stores. -/
inductive Either (Req₁ Req₂ : Type) where
  | first (r : Req₁)
  | second (r : Req₂)

abbrev Either.Resp (Resp₁ : Req₁ → Type) (Resp₂ : Req₂ → Type) : Either Req₁ Req₂ → Type
  | .first r => Resp₁ r
  | .second r => Resp₂ r

/-- Each store answers its own requests. -/
def Semantics.beside (exec₁ : Semantics Req₁ Resp₁ S₁) (exec₂ : Semantics Req₂ Resp₂ S₂) :
    Semantics (Either Req₁ Req₂) (Either.Resp Resp₁ Resp₂) (S₁ × S₂)
  | .first r, s, answer, s' => exec₁ r s.1 answer s'.1 ∧ s'.2 = s.2
  | .second r, s, answer, s' => exec₂ r s.2 answer s'.2 ∧ s'.1 = s.1

/-- Two handlers that may refuse to go on, each for its own requests. -/
def answering (handle₁ : (r : Req₁) → S₁ → Option (Resp₁ r × S₁))
    (handle₂ : (r : Req₂) → S₂ → Option (Resp₂ r × S₂)) :
    (r : Either Req₁ Req₂) → S₁ × S₂ → Option (Either.Resp Resp₁ Resp₂ r × (S₁ × S₂))
  | .first r, s => (handle₁ r s.1).map fun answered => (answered.1, answered.2, s.2)
  | .second r, s => (handle₂ r s.2).map fun answered => (answered.1, s.1, answered.2)

theorem answering_beside {exec₁ : Semantics Req₁ Resp₁ S₁} {exec₂ : Semantics Req₂ Resp₂ S₂}
    {handle₁ : (r : Req₁) → S₁ → Option (Resp₁ r × S₁)}
    {handle₂ : (r : Req₂) → S₂ → Option (Resp₂ r × S₂)}
    (h₁ : ∀ r s answered, handle₁ r s = some answered → exec₁ r s answered.1 answered.2)
    (h₂ : ∀ r s answered, handle₂ r s = some answered → exec₂ r s answered.1 answered.2)
    (r : Either Req₁ Req₂) (s : S₁ × S₂) (answered : Either.Resp Resp₁ Resp₂ r × (S₁ × S₂))
    (h : answering handle₁ handle₂ r s = some answered) :
    exec₁.beside exec₂ r s answered.1 answered.2 := by
  cases r with
  | first r =>
      obtain ⟨answer, hanswer, rfl⟩ := Option.map_eq_some_iff.mp h
      exact ⟨h₁ r s.1 answer hanswer, rfl⟩
  | second r =>
      obtain ⟨answer, hanswer, rfl⟩ := Option.map_eq_some_iff.mp h
      exact ⟨h₂ r s.2 answer hanswer, rfl⟩

namespace Fallible

/-- An operation on the first of two stores. -/
def first (op : Fallible ε Req₁ Resp₁ α) :
    Fallible ε (Either Req₁ Req₂) (Either.Resp Resp₁ Resp₂) α :=
  op.within Either.first fun _ answer => answer

/-- An operation on the second of two stores. -/
def second (op : Fallible ε Req₂ Resp₂ α) :
    Fallible ε (Either Req₁ Req₂) (Either.Resp Resp₁ Resp₂) α :=
  op.within Either.second fun _ answer => answer

/-- What an operation does alone to what it sees, it does among others that leave it there and
keep the rest. -/
theorem Alone.within {Req Req' S S' T : Type} {Resp : Req → Type} {Resp' : Req' → Type}
    {place : Req → Req'} {back : ∀ r, Resp' (place r) → Resp r} {exec : Semantics Req Resp S}
    {exec' : Semantics Req' Resp' S'} {seen : S' → S} {rest : S' → T}
    (hexec : ∀ r s answer s', exec' (place r) s answer s' →
      exec r (seen s) (back r answer) (seen s') ∧ rest s' = rest s)
    {Q : α → S → Prop} {E : S → Prop} {op : Fallible ε Req Resp α} {s : S'}
    (h : op.Alone exec (fun _ _ => True) Q E (seen s)) :
    (op.within place back).Alone exec' (fun _ _ => True)
      (fun a s' => Q a (seen s') ∧ rest s' = rest s)
      (fun s' => E (seen s') ∧ rest s' = rest s) s := by
  have hprogram : ∀ (p : Program Req Resp (Except ε α)) (s : S'),
      p.Under exec (fun _ _ => False) (fun _ _ => True) (Ends Q E) (seen s) →
      (p.within place back).Under exec' (fun _ _ => False) (fun _ _ => True)
        (Ends (fun a s' => Q a (seen s') ∧ rest s' = rest s)
          fun s' => E (seen s') ∧ rest s' = rest s) s := by
    intro p
    induction p with
    | pure answer =>
        intro s hends
        refine Program.Under.pure stable_never ?_
        cases answer with
        | ok a => exact ⟨hends _ .refl, rfl⟩
        | error e => exact ⟨hends _ .refl, rfl⟩
    | request r next ih =>
        intro s hunder s₁ hsame answer s₂ hanswer
        rw [eq_of_never hsame] at hanswer ⊢
        obtain ⟨hseen, hrest⟩ := hexec r s answer s₂ hanswer
        refine ⟨trivial, ?_⟩
        rw [← hrest]
        exact ih (back r answer) s₂ (hunder (seen s) .refl (back r answer) (seen s₂) hseen).2
  exact hprogram op.run s h

variable {exec₁ : Semantics Req₁ Resp₁ S₁} {exec₂ : Semantics Req₂ Resp₂ S₂} {s : S₁ × S₂}

theorem Alone.first {Q : α → S₁ → Prop} {E : S₁ → Prop} {op : Fallible ε Req₁ Resp₁ α}
    (h : op.Alone exec₁ (fun _ _ => True) Q E s.1) :
    (op.first : Fallible ε (Either Req₁ Req₂) (Either.Resp Resp₁ Resp₂) α).Alone
      (exec₁.beside exec₂) (fun _ _ => True) (fun a s' => Q a s'.1 ∧ s'.2 = s.2)
      (fun s' => E s'.1 ∧ s'.2 = s.2) s :=
  Alone.within (fun _ _ _ _ h => h) h

theorem Alone.second {Q : α → S₂ → Prop} {E : S₂ → Prop} {op : Fallible ε Req₂ Resp₂ α}
    (h : op.Alone exec₂ (fun _ _ => True) Q E s.2) :
    (op.second : Fallible ε (Either Req₁ Req₂) (Either.Resp Resp₁ Resp₂) α).Alone
      (exec₁.beside exec₂) (fun _ _ => True) (fun a s' => Q a s'.2 ∧ s'.1 = s.1)
      (fun s' => E s'.2 ∧ s'.1 = s.1) s :=
  Alone.within (fun _ _ _ _ h => h) h

/-- An operation on the second of two stores runs there as it would without the first. -/
theorem Alone.ranSecond (op : Fallible ε Req₂ Resp₂ α) (s : S₁ × S₂) :
    (op.second : Fallible ε (Either Req₁ Req₂) (Either.Resp Resp₁ Resp₂) α).Alone
      (exec₁.beside exec₂) (fun _ _ => True)
      (fun a s' => op.Ran exec₂ s.2 (.ok a) s'.2 ∧ s'.1 = s.1) (fun _ => True) s :=
  (Alone.second (Alone.ran op s.2)).mono (fun _ _ h => h) fun _ _ => trivial

end Fallible

end Request
