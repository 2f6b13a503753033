import Lfsx.Request.Fallible

/-!
# Ledgers

A ledger enters every request that was answered, newest first, beside the state.  It comes
with an invariant of the state and the entries (`Sound`), and says what a thread may ask by
what is entered (`Allowed`); every request that is allowed keeps the invariant.

So an operation is judged by what it asks and by what it knows when it returns
(`Ledger.Among`).  What it knows is a fact about the entries that no entry of another thread
can change (`Ledger.Stays`); most such facts no entry at all can change (`Lasting`).
Operations judged one by one hold side by side (`Ledger.reached`).
-/

namespace Request

/-- A state with its entries, an invariant of both, and what keeps it. -/
structure Ledger (ι Req : Type) (Resp : Req → Type) (S E : Type) where
  exec : ι → Semantics Req Resp S
  /-- What is entered for a request that was made in a state. -/
  entry : ι → (r : Req) → S → Resp r → E
  Allowed : ι → List E → Req → Prop
  Sound : S × List E → Prop
  step : ∀ {i : ι} {r : Req} {w : S × List E} {answer : Resp r} {s' : S}, Sound w →
    Allowed i w.2 r → exec i r w.1 answer s' → Sound (s', entry i r w.1 answer :: w.2)

/-- A fact about the entries that no further entry changes. -/
def Lasting {E : Type} (K : List E → Prop) : Prop := ∀ e past, K past → K (e :: past)

namespace Lasting

variable {E : Type} {K K' : List E → Prop}

theorem always : Lasting fun _ : List E => True := fun _ _ h => h

theorem and (h : Lasting K) (h' : Lasting K') : Lasting fun past => K past ∧ K' past :=
  fun e past hk => ⟨h e past hk.1, h' e past hk.2⟩

theorem mem (e : E) : Lasting fun past => e ∈ past :=
  fun _ _ h => List.mem_cons_of_mem _ h

theorem any {σ : Type} {K : σ → List E → Prop} (h : ∀ a, Lasting (K a)) :
    Lasting fun past => ∃ a, K a past :=
  fun e past ⟨a, hk⟩ => ⟨a, h a e past hk⟩

theorem all {σ : Type} {p : σ → Prop} {K : σ → List E → Prop} (h : ∀ a, p a → Lasting (K a)) :
    Lasting fun past => ∀ a, p a → K a past :=
  fun e past hk a ha => h a ha e past (hk a ha)

theorem imp {p : Prop} (h : Lasting K) : Lasting fun past => p → K past :=
  fun e past hk hp => h e past (hk hp)

theorem const {p : Prop} : Lasting fun _ : List E => p := fun _ _ h => h

end Lasting

namespace Ledger

open Program (Stable)

variable {ι Req : Type} {Resp : Req → Type} {S E : Type} (L : Ledger ι Req Resp S E)

/-- The semantics that also enters what was answered. -/
def entering : ι → Semantics Req Resp (S × List E) :=
  fun i r w answer w' => L.exec i r w.1 answer w'.1 ∧ w'.2 = L.entry i r w.1 answer :: w.2

/-- A step of a thread. -/
def Does (i : ι) (w w' : S × List E) : Prop :=
  L.Sound w ∧ ∃ r answer, L.Allowed i w.2 r ∧ L.entering i r w answer w'

/-- A step of another thread. -/
def Moves (i : ι) (w w' : S × List E) : Prop := ∃ j, j ≠ i ∧ L.Does j w w'

/-- A fact about the entries that no entry of another thread changes. -/
def Stays (i : ι) (K : List E → Prop) : Prop :=
  ∀ j r s answer past, j ≠ i → K past → K (L.entry j r s answer :: past)

/-- An operation of a thread among the others: what it knows if it succeeds. -/
abbrev Among {ε α : Type} (i : ι) (Q : α → List E → Prop) (op : Fallible ε Req Resp α)
    (w : S × List E) : Prop :=
  op.Under (L.entering i) (L.Moves i) (L.Does i) (fun a w => L.Sound w ∧ Q a w.2) L.Sound w

variable {L}

theorem Stays.of_lasting {i : ι} {K : List E → Prop} (h : Lasting K) : L.Stays i K :=
  fun _ _ _ _ past _ hk => h _ past hk

theorem Does.step {i : ι} {w w' : S × List E} (h : L.Does i w w') :
    L.Sound w' ∧ ∃ r answer, w'.2 = L.entry i r w.1 answer :: w.2 := by
  obtain ⟨hw, r, answer, hallowed, hexec, hentry⟩ := h
  have hafter := L.step hw hallowed hexec
  rw [← hentry] at hafter
  exact ⟨hafter, r, answer, hentry⟩

theorem stable_sound {i : ι} : Stable (L.Moves i) L.Sound := by
  rintro w w' ⟨j, -, h⟩ -
  exact h.step.1

theorem stable_knows {i : ι} {K : List E → Prop} (hK : L.Stays i K) :
    Stable (L.Moves i) fun w => L.Sound w ∧ K w.2 := by
  rintro w w' ⟨j, hj, h⟩ ⟨-, hk⟩
  obtain ⟨hsound, r, answer, hentry⟩ := h.step
  rw [hentry]
  exact ⟨hsound, hK j r w.1 answer w.2 hj hk⟩

section Rules

variable {ε ε' α β : Type} {i : ι} {w : S × List E} {K : List E → Prop} {P : α → List E → Prop}
  {Q Q' : β → List E → Prop}

theorem Among.pure {b : β} (hQ : L.Stays i (Q b)) (hw : L.Sound w) (h : Q b w.2) :
    L.Among i Q (Pure.pure b : Fallible ε Req Resp β) w :=
  Fallible.Under.pure (stable_knows hQ) ⟨hw, h⟩

theorem Among.throw {e : ε} (hw : L.Sound w) :
    L.Among i Q (throw e : Fallible ε Req Resp β) w :=
  Fallible.Under.throw stable_sound hw

theorem Among.ofExcept {answer : Except ε β} (hw : L.Sound w)
    (h : ∀ b, answer = .ok b → L.Stays i (Q b) ∧ Q b w.2) :
    L.Among i Q (Fallible.ofExcept answer : Fallible ε Req Resp β) w := by
  cases answer with
  | ok b => exact Among.pure (h b rfl).1 hw (h b rfl).2
  | error e => exact Among.throw hw

theorem Among.mono {op : Fallible ε Req Resp β} (h : L.Among i Q op w)
    (hQ : ∀ b past, Q b past → Q' b past) : L.Among i Q' op w :=
  Fallible.Under.mono h (fun b _ hb => ⟨hb.1, hQ b _ hb.2⟩) fun _ hw => hw

theorem Among.bind {op : Fallible ε Req Resp α} {f : α → Fallible ε Req Resp β}
    (h : L.Among i P op w) (hf : ∀ a w, L.Sound w → P a w.2 → L.Among i Q (f a) w) :
    L.Among i Q (op >>= f) w :=
  Fallible.Under.bind stable_sound
    (Fallible.Under.mono h (fun a w ha => hf a w ha.1 ha.2) fun _ hw => hw)

/-- What was known before is known after. -/
theorem Among.keeping {op : Fallible ε Req Resp β} (hK : Lasting K) (hk : K w.2)
    (h : L.Among i Q op w) : L.Among i (fun b past => K past ∧ Q b past) op w := by
  have hstep : ∀ v v', L.Does i v v' → K v.2 → K v'.2 := by
    intro v v' hdoes hk
    obtain ⟨-, r, answer, hentry⟩ := hdoes.step
    rw [hentry]
    exact hK _ v.2 hk
  have hmoves : Stable (L.Moves i) fun w => K w.2 := by
    rintro v v' ⟨j, -, hdoes⟩ hk
    obtain ⟨-, r, answer, hentry⟩ := hdoes.step
    rw [hentry]
    exact hK _ v.2 hk
  refine Program.Under.mono (Program.Under.keeps hmoves hstep h hk) fun answer w' hends => ?_
  cases answer with
  | ok b => exact ⟨hends.1.1, hends.2, hends.1.2⟩
  | error e => exact hends.1

/-- An operation whose error is taken for an answer. -/
theorem Among.attempt {op : Fallible ε Req Resp α} {f : Except ε α → Fallible ε Req Resp β}
    (h : L.Among i P op w) (hok : ∀ a w, L.Sound w → P a w.2 → L.Among i Q (f (.ok a)) w)
    (herror : ∀ e w, L.Sound w → L.Among i Q (f (.error e)) w) :
    L.Among i Q (op.attempt >>= f) w :=
  Fallible.Under.attempt
    (Fallible.Under.mono h (fun a w ha => hok a w ha.1 ha.2) fun w hw e => herror e w hw)

/-- An operation whose error is taken for an answer, among operations with other errors. -/
theorem Among.caught {op : Fallible ε Req Resp α} {f : Except ε α → Fallible ε' Req Resp β}
    (h : L.Among i P op w) (hok : ∀ a w, L.Sound w → P a w.2 → L.Among i Q (f (.ok a)) w)
    (herror : ∀ e w, L.Sound w → L.Among i Q (f (.error e)) w) :
    L.Among i Q (op.caught >>= f) w := by
  refine Fallible.Under.caught (Program.Under.mono h fun answer w hends => ?_)
  cases answer with
  | ok a => exact hok a w hends.1 hends.2
  | error e => exact herror e w hends

/-- An operation whose error is another one to the caller. -/
theorem Among.mapError {g : ε → ε'} {op : Fallible ε Req Resp β} (hQ : ∀ b, L.Stays i (Q b))
    (h : L.Among i Q op w) : L.Among i Q (op.mapError g) w := by
  refine Program.Under.bind (Program.Under.mono h fun answer w' hends => ?_)
  cases answer with
  | ok b => exact Program.Under.pure (stable_knows (hQ b)) hends
  | error e => exact Program.Under.pure stable_sound hends

/-- What a request that is allowed leaves. -/
theorem triple {r : Req} {Q : Resp r → List E → Prop}
    (hallowed : ∀ past, K past → L.Allowed i past r)
    (hQ : ∀ s past answer, K past → Q answer (L.entry i r s answer :: past)) :
    Program.Triple (L.entering i) (L.Does i) (fun w => L.Sound w ∧ K w.2) r
      fun answer w' => L.Sound w' ∧ Q answer w'.2 := by
  rintro w answer w' ⟨hw, hk⟩ ⟨hexec, hentry⟩
  have hdoes : L.Does i w w' := ⟨hw, r, answer, hallowed _ hk, hexec, hentry⟩
  refine ⟨hdoes, hdoes.step.1, ?_⟩
  rw [hentry]
  exact hQ w.1 w.2 answer hk

/-- One request: it is allowed by what is known, and what is known then is kept by the
others. -/
theorem Among.asking {r : Req} {h : Resp r = Except ε β} (hK : L.Stays i K)
    (hQ : ∀ b, L.Stays i (Q b)) (hallowed : ∀ past, K past → L.Allowed i past r)
    (hstep : ∀ s past b, K past → Q b (L.entry i r s (cast h.symm (.ok b)) :: past))
    (hw : L.Sound w) (hk : K w.2) : L.Among i Q (Fallible.ask r h) w := by
  refine Fallible.Under.ask (stable_knows hK) ⟨hw, hk⟩ (fun b => stable_knows (hQ b)) stable_sound
    fun w₁ answer w₂ hw₁ hexec => ?_
  obtain ⟨hdoes, hw₂, hpost⟩ := triple (L := L)
    (Q := fun answer past => ∀ b, cast h answer = .ok b → Q b past) hallowed
    (fun s past answer hk b hb => by
      have := hstep s past b hk
      rwa [← hb, cast_cast, cast_eq] at this) w₁ answer w₂ hw₁ hexec
  have hends : ∀ result, cast h answer = result →
      Fallible.Ends (fun b w => L.Sound w ∧ Q b w.2) L.Sound result w₂ := by
    rintro result rfl
    cases hanswer : cast h answer with
    | ok b => exact ⟨hw₂, hpost b hanswer⟩
    | error e => exact hw₂
  exact ⟨hdoes, hends _ rfl⟩

/-- One request, with what is known for good: its answer is entered. -/
theorem Among.ask {r : Req} {h : Resp r = Except ε β} (hK : Lasting K)
    (hallowed : ∀ past, K past → L.Allowed i past r) (hw : L.Sound w) (hk : K w.2) :
    L.Among i (fun b past => K past ∧ ∃ s, L.entry i r s (cast h.symm (.ok b)) ∈ past)
      (Fallible.ask r h) w :=
  Among.asking (.of_lasting hK) (fun _ => .of_lasting (hK.and (.any fun _ => .mem _))) hallowed
    (fun s past _ hk => ⟨hK _ past hk, s, List.mem_cons_self⟩) hw hk

/-- One request that cannot fail. -/
theorem Among.looking {r : Req} {Q : Resp r → List E → Prop} (hK : L.Stays i K)
    (hQ : ∀ answer, L.Stays i (Q answer)) (hallowed : ∀ past, K past → L.Allowed i past r)
    (hstep : ∀ s past answer, K past → Q answer (L.entry i r s answer :: past))
    (hw : L.Sound w) (hk : K w.2) :
    L.Among i Q (Fallible.certain r : Fallible ε Req Resp (Resp r)) w :=
  Fallible.Under.certain (stable_knows hK) ⟨hw, hk⟩ (fun answer => stable_knows (hQ answer))
    (triple hallowed hstep)

/-- One request that cannot fail, with what is known for good. -/
theorem Among.certain {r : Req} (hK : Lasting K)
    (hallowed : ∀ past, K past → L.Allowed i past r) (hw : L.Sound w) (hk : K w.2) :
    L.Among i (fun answer past => K past ∧ ∃ s, L.entry i r s answer ∈ past)
      (Fallible.certain r : Fallible ε Req Resp (Resp r)) w :=
  Among.looking (.of_lasting hK) (fun _ => .of_lasting (hK.and (.any fun _ => .mem _))) hallowed
    (fun s past _ hk => ⟨hK _ past hk, s, List.mem_cons_self⟩) hw hk

end Rules

/-- Operations judged one by one are so side by side, and after any number of steps. -/
theorem under [DecidableEq ι] {ε α : Type} {ops : ι → Fallible ε Req Resp α}
    {Q : ι → α → List E → Prop} {w : S × List E}
    {pool : Pool ι Req Resp (Except ε α) (S × List E)} (hw : L.Sound w)
    (hops : ∀ i, L.Among i (Q i) (ops i) w)
    (hsteps : Pool.Steps L.entering ⟨fun i => (ops i).run, w⟩ pool) :
    L.Sound pool.state ∧ Pool.Under L.entering L.Moves L.Does
      (fun i => Fallible.Ends (fun a w => L.Sound w ∧ Q i a w.2) L.Sound) pool := by
  have hrely : ∀ i j, i ≠ j → ∀ w w', L.Does i w w' → L.Moves j w w' :=
    fun i _ hij _ _ h => ⟨i, hij, h⟩
  have hunder : Pool.Under L.entering L.Moves L.Does
      (fun i => Fallible.Ends (fun a w => L.Sound w ∧ Q i a w.2) L.Sound)
      ⟨fun i => (ops i).run, w⟩ := hops
  exact ⟨Pool.Steps.invariant hrely (fun _ _ _ h _ => h.step.1) hunder hw hsteps,
    Pool.Steps.under hrely hunder hsteps⟩

/-- **Side by side.**  In every state that is reached the invariant holds, and an operation
that has returned knows what it knows alone. -/
theorem reached [DecidableEq ι] {ε α : Type} {ops : ι → Fallible ε Req Resp α}
    {Q : ι → α → List E → Prop} {w : S × List E}
    {pool : Pool ι Req Resp (Except ε α) (S × List E)} (hw : L.Sound w)
    (hops : ∀ i, L.Among i (Q i) (ops i) w)
    (hsteps : Pool.Steps L.entering ⟨fun i => (ops i).run, w⟩ pool) :
    L.Sound pool.state ∧ ∀ i a, pool.progs i = .pure (.ok a) → Q i a pool.state.2 := by
  obtain ⟨hsound, hunder⟩ := under hw hops hsteps
  exact ⟨hsound, fun i a hi => (hunder.post hi).2⟩

/-- **What the next step is**: a request that is allowed, of one thread. -/
theorem next_step [DecidableEq ι] {ε α : Type} {ops : ι → Fallible ε Req Resp α}
    {Q : ι → α → List E → Prop} {w : S × List E}
    {pool pool' : Pool ι Req Resp (Except ε α) (S × List E)} (hw : L.Sound w)
    (hops : ∀ i, L.Among i (Q i) (ops i) w)
    (hsteps : Pool.Steps L.entering ⟨fun i => (ops i).run, w⟩ pool)
    (hstep : Pool.Step L.entering pool pool') :
    ∃ i r answer, L.Allowed i pool.state.2 r ∧
      L.entering i r pool.state answer pool'.state ∧ (∀ a, pool.progs i ≠ .pure a) ∧
        ∀ j, j ≠ i → pool'.progs j = pool.progs j := by
  obtain ⟨hsound, hunder⟩ := under hw hops hsteps
  cases hstep with
  | @request i r next answer s' hprog hexec =>
      have hi := hunder i
      rw [hprog] at hi
      obtain ⟨⟨-, r', answer', hallowed', hexec'⟩, -⟩ := hi _ .refl answer s' hexec
      refine ⟨i, r', answer', hallowed', hexec', fun a ha => ?_, fun j hj => ?_⟩
      · rw [ha] at hprog
        cases hprog
      · exact Function.update_of_ne hj _ _

/-- A step whose answer is entered. -/
theorem entered_step [DecidableEq ι] {α : Type} {pool pool' : Pool ι Req Resp α S} (past : List E)
    (hstep : Pool.Step L.exec pool pool') :
    ∃ entry, Pool.Step L.entering ⟨pool.progs, (pool.state, past)⟩
      ⟨pool'.progs, (pool'.state, entry :: past)⟩ := by
  cases hstep with
  | @request i r next answer s' hprog hexec =>
      have hentered : L.entering i r (pool.state, past) answer
          (s', L.entry i r pool.state answer :: past) := ⟨hexec, rfl⟩
      exact ⟨_, .request i hprog hentered⟩

/-- A run whose answers are entered as it goes. -/
theorem entered [DecidableEq ι] {α : Type} {pool pool' : Pool ι Req Resp α S} (past : List E)
    (hsteps : Pool.Steps L.exec pool pool') :
    ∃ past', Pool.Steps L.entering ⟨pool.progs, (pool.state, past)⟩
      ⟨pool'.progs, (pool'.state, past')⟩ := by
  induction hsteps with
  | refl => exact ⟨past, .refl⟩
  | tail _ hstep ih =>
      obtain ⟨entries, hentered⟩ := ih
      obtain ⟨entry, hlast⟩ := entered_step entries hstep
      exact ⟨_, hentered.tail hlast⟩

/-! ## What an error tells -/

variable (L) in
/-- An operation of a thread among the others: what it knows of its answer, an error or
not. -/
abbrev Tells {ε α : Type} (i : ι) (Q : Except ε α → List E → Prop) (op : Fallible ε Req Resp α)
    (w : S × List E) : Prop :=
  op.run.Under (L.entering i) (L.Moves i) (L.Does i) (fun answer w => L.Sound w ∧ Q answer w.2) w

section Tells

variable {ε ε' α β : Type} {i : ι} {w : S × List E} {K : List E → Prop}
  {P : Except ε α → List E → Prop} {Q : Except ε β → List E → Prop} {Q' : β → List E → Prop}

theorem Tells.asking {r : Req} {h : Resp r = Except ε β} (hK : L.Stays i K)
    (hQ : ∀ answer, L.Stays i (Q answer)) (hallowed : ∀ past, K past → L.Allowed i past r)
    (hstep : ∀ s past answer s', K past → L.exec i r s answer s' →
      Q (cast h answer) (L.entry i r s answer :: past))
    (hw : L.Sound w) (hk : K w.2) : L.Tells i Q (Fallible.ask r h) w := by
  refine Program.Under.request (stable_knows hK) ⟨hw, hk⟩ fun w₁ answer w₂ hw₁ hexec => ?_
  have hdoes : L.Does i w₁ w₂ := ⟨hw₁.1, r, answer, hallowed _ hw₁.2, hexec⟩
  refine ⟨hdoes, Program.Under.pure (stable_knows (hQ _)) ⟨hdoes.step.1, ?_⟩⟩
  rw [hexec.2]
  exact hstep w₁.1 w₁.2 answer w₂.1 hw₁.2 hexec.1

theorem Tells.bind {op : Fallible ε Req Resp α} {f : α → Fallible ε Req Resp β}
    (h : L.Tells i P op w) (hf : ∀ a w, L.Sound w → P (.ok a) w.2 → L.Tells i Q (f a) w)
    (hQ : ∀ e, L.Stays i (Q (.error e)))
    (herror : ∀ e past, P (.error e) past → Q (.error e) past) : L.Tells i Q (op >>= f) w := by
  rw [Tells, ExceptT.run_bind]
  refine Program.Under.bind (Program.Under.mono h fun answer w' hends => ?_)
  cases answer with
  | ok a => exact hf a w' hends.1 hends.2
  | error e => exact Program.Under.pure (stable_knows (hQ e)) ⟨hends.1, herror e _ hends.2⟩

/-- The error of an operation is taken for an answer, with what it tells. -/
theorem Tells.caught {op : Fallible ε Req Resp α} {f : Except ε α → Fallible ε' Req Resp β}
    (h : L.Tells i P op w) (hf : ∀ answer w, L.Sound w → P answer w.2 → L.Among i Q' (f answer) w) :
    L.Among i Q' (op.caught >>= f) w :=
  Fallible.Under.caught (Program.Under.mono h fun answer w' hends =>
    hf answer w' hends.1 hends.2)

end Tells

/-! ## Ledgers of events -/

section Trails

variable [DecidableEq ι] {ε ε' β σ : Type} {L : Ledger ι Req Resp S (Event ι Req Resp)}
  {next : σ → (r : Req) → Resp r → σ} {first known : σ} {i : ι} {r : Req}
  {w : S × List (Event ι Req Resp)}

variable (L) in
/-- Every entry is the event. -/
def Logs : Prop := ∀ i r s answer, L.entry i r s answer = ⟨i, r, answer⟩

/-- What a thread's own events come to is its own affair. -/
theorem Logs.stays (hlogs : L.Logs) (p : σ → Prop) :
    L.Stays i fun past => p (trail next first i past) := by
  intro j r s answer past hj h
  rw [hlogs, trail_other hj]
  exact h

/-- One request, allowed by what the thread's own events come to. -/
theorem Tells.trailing (hlogs : L.Logs) {h : Resp r = Except ε β} {Q : Except ε β → σ → Prop}
    (hallowed : ∀ past, trail next first i past = known → L.Allowed i past r)
    (hQ : ∀ s answer s', L.exec i r s answer s' → Q (cast h answer) (next known r answer))
    (hw : L.Sound w) (hk : trail next first i w.2 = known) :
    L.Tells i (fun answer past => Q answer (trail next first i past)) (Fallible.ask r h) w := by
  refine Tells.asking (hlogs.stays (· = known)) (fun answer => hlogs.stays (Q answer)) hallowed
    ?_ hw hk
  rintro s past answer s' rfl hexec
  rw [hlogs, trail_own]
  exact hQ s answer s' hexec

theorem Among.trailing (hlogs : L.Logs) {h : Resp r = Except ε β} {Q : β → σ → Prop}
    (hallowed : ∀ past, trail next first i past = known → L.Allowed i past r)
    (hQ : ∀ b, Q b (next known r (cast h.symm (.ok b))))
    (hw : L.Sound w) (hk : trail next first i w.2 = known) :
    L.Among i (fun b past => Q b (trail next first i past)) (Fallible.ask r h) w := by
  refine Among.asking (hlogs.stays (· = known)) (fun b => hlogs.stays (Q b)) hallowed ?_ hw hk
  rintro s past b rfl
  rw [hlogs, trail_own]
  exact hQ b

/-- One request that cannot fail. -/
theorem Among.trailing_certain (hlogs : L.Logs) {Q : Resp r → σ → Prop}
    (hallowed : ∀ past, trail next first i past = known → L.Allowed i past r)
    (hQ : ∀ answer, Q answer (next known r answer))
    (hw : L.Sound w) (hk : trail next first i w.2 = known) :
    L.Among i (fun answer past => Q answer (trail next first i past))
      (Fallible.certain r : Fallible ε Req Resp (Resp r)) w := by
  refine Among.looking (hlogs.stays (· = known)) (fun answer => hlogs.stays (Q answer)) hallowed
    ?_ hw hk
  rintro s past answer rfl
  rw [hlogs, trail_own]
  exact hQ answer

end Trails

/-! ## Schedules -/

variable (L) in
/-- A handler that also enters what it answers. -/
def noting (handle : ι → (r : Req) → S → Option (Resp r × S)) (i : ι) (r : Req)
    (w : S × List E) : Option (Resp r × (S × List E)) :=
  (handle i r w.1).map fun answered =>
    (answered.1, (answered.2, L.entry i r w.1 answered.1 :: w.2))

theorem noting_entering {handle : ι → (r : Req) → S → Option (Resp r × S)}
    (h : ∀ i r s answered, handle i r s = some answered → L.exec i r s answered.1 answered.2)
    (i : ι) (r : Req) (w : S × List E) (answered : Resp r × (S × List E))
    (hnoting : L.noting handle i r w = some answered) :
    L.entering i r w answered.1 answered.2 := by
  obtain ⟨given, hgiven, rfl⟩ := Option.map_eq_some_iff.mp hnoting
  exact ⟨h i r w.1 given hgiven, rfl⟩

end Ledger

end Request
