import Mathlib.Logic.Function.Basic
import Lfsx.Request.Program

/-!
# Programs side by side

A pool runs one program per thread over a shared state.  A step of the pool is
one request of one thread, so a run of the pool is an interleaving of its
programs, request by request.

A program is judged alone, against what the other threads may do.  The *rely*
`R` holds of every change another thread makes, and the *guarantee* `G` of
every change the program makes itself.  `Program.Under R G Q p s` says that from
`s`, with any number of changes in `R` before each request and at the end,
every request of `p` makes a change in `G`, and `p` ends in `Q`.  When every
guarantee is in the rely of every other thread, all of this stays true along
every run of the pool (`Pool.Steps.under`), and a property that every guarantee
preserves is an invariant of the pool (`Pool.Steps.invariant`).

What a run did is kept in a *log*, newest event first (`recording`), so that a
condition on the past is a condition on the state.  `restricted` keeps the
steps that meet such a condition.
-/

namespace Request

variable {ι Req : Type} {Resp : Req → Type} {S α β : Type}

/-! ## One program among others -/

namespace Program

/-- `Under exec R G Q p s`: from `s`, whatever `R` does in between, every
request of `p` makes a change in `G`, and `p` ends in `Q`. -/
def Under (exec : Semantics Req Resp S) (R G : S → S → Prop) (Q : α → S → Prop) :
    Program Req Resp α → S → Prop
  | .pure a, s => ∀ s₁, Relation.ReflTransGen R s s₁ → Q a s₁
  | .request r next, s =>
      ∀ s₁, Relation.ReflTransGen R s s₁ → ∀ answer s₂, exec r s₁ answer s₂ →
        G s₁ s₂ ∧ (next answer).Under exec R G Q s₂

/-- A property no other thread can break. -/
def Stable (R : S → S → Prop) (P : S → Prop) : Prop := ∀ s s', R s s' → P s → P s'

theorem Stable.star {R : S → S → Prop} {P : S → Prop} (h : Stable R P) {s s' : S}
    (hR : Relation.ReflTransGen R s s') (hP : P s) : P s' := by
  induction hR with
  | refl => exact hP
  | tail _ hstep ih => exact h _ _ hstep ih

theorem Stable.and {R : S → S → Prop} {P P' : S → Prop} (h : Stable R P) (h' : Stable R P') :
    Stable R fun s => P s ∧ P' s :=
  fun s s' hR hP => ⟨h s s' hR hP.1, h' s s' hR hP.2⟩

/-- Every answer to `r` in `P` makes a change in `G` and leaves `Q`. -/
def Triple (exec : Semantics Req Resp S) (G : S → S → Prop) (P : S → Prop) (r : Req)
    (Q : Resp r → S → Prop) : Prop :=
  ∀ s answer s', P s → exec r s answer s' → G s s' ∧ Q answer s'

section Under

variable {exec : Semantics Req Resp S} {R G : S → S → Prop}

theorem Under.rely {Q : α → S → Prop} {p : Program Req Resp α} {s s' : S}
    (h : p.Under exec R G Q s) (hR : Relation.ReflTransGen R s s') : p.Under exec R G Q s' := by
  cases p with
  | pure a => exact fun s₁ h₁ => h s₁ (hR.trans h₁)
  | request r next => exact fun s₁ h₁ => h s₁ (hR.trans h₁)

theorem Under.mono {Q Q' : α → S → Prop} {p : Program Req Resp α} {s : S}
    (h : p.Under exec R G Q s) (hQ : ∀ a s, Q a s → Q' a s) : p.Under exec R G Q' s := by
  induction p generalizing s with
  | pure a => exact fun s₁ h₁ => hQ a s₁ (h s₁ h₁)
  | request r next ih =>
      intro s₁ h₁ answer s₂ hexec
      obtain ⟨hG, hnext⟩ := h s₁ h₁ answer s₂ hexec
      exact ⟨hG, ih answer hnext⟩

/-- A weaker guarantee. -/
theorem Under.weaken {G' : S → S → Prop} {Q : α → S → Prop} {p : Program Req Resp α} {s : S}
    (hG : ∀ s s', G s s' → G' s s') (h : p.Under exec R G Q s) : p.Under exec R G' Q s := by
  induction p generalizing s with
  | pure a => exact h
  | request r next ih =>
      intro s₁ h₁ answer s₂ hexec
      obtain ⟨hstep, hnext⟩ := h s₁ h₁ answer s₂ hexec
      exact ⟨hG _ _ hstep, ih answer hnext⟩

/-- What the rely and the guarantee preserve holds at the end. -/
theorem Under.keeps {I : S → Prop} {Q : α → S → Prop} {p : Program Req Resp α} {s : S}
    (hR : Stable R I) (hG : Stable G I) (h : p.Under exec R G Q s) (hI : I s) :
    p.Under exec R G (fun a s' => Q a s' ∧ I s') s := by
  induction p generalizing s with
  | pure a => exact fun s₁ h₁ => ⟨h s₁ h₁, hR.star h₁ hI⟩
  | request r next ih =>
      intro s₁ h₁ answer s₂ hexec
      obtain ⟨hstep, hnext⟩ := h s₁ h₁ answer s₂ hexec
      exact ⟨hstep, ih answer hnext (hG _ _ hstep (hR.star h₁ hI))⟩

/-- The rule for sequencing. -/
theorem Under.bind {Q : β → S → Prop} {p : Program Req Resp α} {f : α → Program Req Resp β}
    {s : S} (h : p.Under exec R G (fun a s' => (f a).Under exec R G Q s') s) :
    (p >>= f).Under exec R G Q s := by
  induction p generalizing s with
  | pure a => exact h s .refl
  | request r next ih =>
      intro s₁ h₁ answer s₂ hexec
      obtain ⟨hG, hnext⟩ := h s₁ h₁ answer s₂ hexec
      exact ⟨hG, ih answer hnext⟩

theorem Under.pure {Q : α → S → Prop} {a : α} {s : S} (hst : Stable R (Q a)) (hQ : Q a s) :
    (Program.pure a : Program Req Resp α).Under exec R G Q s :=
  fun _ h₁ => hst.star h₁ hQ

/-- The rule for one request, between two stable assertions. -/
theorem Under.request {P : S → Prop} {Q : α → S → Prop} {r : Req}
    {next : Resp r → Program Req Resp α} {s : S} (hst : Stable R P) (hP : P s)
    (h : Triple exec G P r fun answer => (next answer).Under exec R G Q) :
    (Program.request r next).Under exec R G Q s :=
  fun _ h₁ answer _ hexec => h _ answer _ (hst.star h₁ hP) hexec

/-- A program with nobody beside it: what its requests preserve holds after any
number of them, whether it goes on or stops there. -/
theorem Under.alone {Q : α → S → Prop} {I : S → Prop} {c c' : Program Req Resp α × S}
    (hI : ∀ s s', G s s' → I s → I s') (h : c.1.Under exec (fun _ _ => False) G Q c.2)
    (hinit : I c.2) (hsteps : Steps exec c c') :
    I c'.2 ∧ c'.1.Under exec (fun _ _ => False) G Q c'.2 := by
  induction hsteps with
  | refl => exact ⟨hinit, h⟩
  | tail _ hstep ih =>
      obtain ⟨hinv, hunder⟩ := ih
      cases hstep with
      | request hexec =>
          obtain ⟨hG, hnext⟩ := hunder _ .refl _ _ hexec
          exact ⟨hI _ _ hG hinv, hnext⟩

end Under

/-! ### What a program may ask -/

/-- Every request of the program is in `p`, and with answers in `A` it returns in `Q`. -/
def Only (p : Req → Prop) (A : (r : Req) → Resp r → Prop) (Q : α → Prop) :
    Program Req Resp α → Prop
  | .pure a => Q a
  | .request r next => p r ∧ ∀ answer, A r answer → (next answer).Only p A Q

section Only

variable {p : Req → Prop} {A : (r : Req) → Resp r → Prop}

theorem Only.bind {Q : α → Prop} {Q' : β → Prop} {op : Program Req Resp α}
    {f : α → Program Req Resp β} (h : op.Only p A Q) (hf : ∀ a, Q a → (f a).Only p A Q') :
    (op >>= f).Only p A Q' := by
  induction op with
  | pure a => exact hf a h
  | request r next ih => exact ⟨h.1, fun answer hanswer => ih answer (h.2 answer hanswer)⟩

/-- A stable assertion that the requests of a program keep holds around the program. -/
theorem Only.under {exec : Semantics Req Resp S} {R G : S → S → Prop} {P : S → Prop}
    {Q : α → Prop} {op : Program Req Resp α} {s : S} (h : op.Only p A Q) (hst : Stable R P)
    (hstep : ∀ r, p r → Triple exec G P r fun answer s' => P s' ∧ A r answer) (hP : P s) :
    op.Under exec R G (fun a s' => P s' ∧ Q a) s := by
  induction op generalizing s with
  | pure a => exact fun s₁ h₁ => ⟨hst.star h₁ hP, h⟩
  | request r next ih =>
      intro s₁ h₁ answer s₂ hexec
      obtain ⟨hG, hP', hanswer⟩ := hstep r h.1 s₁ answer s₂ (hst.star h₁ hP) hexec
      exact ⟨hG, ih answer (h.2 answer hanswer) hP'⟩

end Only

end Program

/-! ## Pools -/

/-- One program per thread, over one state. -/
structure Pool (ι Req : Type) (Resp : Req → Type) (α S : Type) where
  progs : ι → Program Req Resp α
  state : S

namespace Pool

variable [DecidableEq ι]

/-- One request of one thread. -/
inductive Step (exec : ι → Semantics Req Resp S) :
    Pool ι Req Resp α S → Pool ι Req Resp α S → Prop where
  | request {pool : Pool ι Req Resp α S} (i : ι) {r : Req}
      {next : Resp r → Program Req Resp α} {answer : Resp r} {s' : S} :
      pool.progs i = .request r next → exec i r pool.state answer s' →
      Step exec pool ⟨Function.update pool.progs i (next answer), s'⟩

/-- An interleaving. -/
abbrev Steps (exec : ι → Semantics Req Resp S) :
    Pool ι Req Resp α S → Pool ι Req Resp α S → Prop :=
  Relation.ReflTransGen (Step exec)

/-- Every thread has returned. -/
def Finished (pool : Pool ι Req Resp α S) : Prop := ∀ i, ∃ a, pool.progs i = .pure a

/-- A thread that has returned stays so. -/
theorem Steps.returned {exec : ι → Semantics Req Resp S} {pool pool' : Pool ι Req Resp α S} {i : ι}
    {a : α} (hsteps : Steps exec pool pool') (hi : pool.progs i = .pure a) :
    pool'.progs i = .pure a := by
  induction hsteps with
  | refl => exact hi
  | tail _ hstep ih =>
      cases hstep with
      | @request j r next answer s' hprog hexec =>
          by_cases hj : i = j
          · subst hj
            rw [ih] at hprog
            cases hprog
          · exact (Function.update_of_ne hj _ _).trans ih

/-! ### Schedules -/

/-- One request of thread `i`, answered by a handler that may refuse to go on. -/
def turn (handle : ι → (r : Req) → S → Option (Resp r × S)) (i : ι)
    (pool : Pool ι Req Resp α S) : Option (Pool ι Req Resp α S) :=
  match pool.progs i with
  | .pure _ => none
  | .request r next =>
      (handle i r pool.state).map fun answered =>
        ⟨Function.update pool.progs i (next answered.1), answered.2⟩

/-- The interleaving a schedule describes. -/
def play (handle : ι → (r : Req) → S → Option (Resp r × S)) :
    List ι → Pool ι Req Resp α S → Option (Pool ι Req Resp α S)
  | [], pool => some pool
  | i :: rest, pool => (turn handle i pool).bind (play handle rest)

theorem turn_step {exec : ι → Semantics Req Resp S}
    {handle : ι → (r : Req) → S → Option (Resp r × S)}
    (h : ∀ i r s answered, handle i r s = some answered → exec i r s answered.1 answered.2)
    {i : ι} {pool pool' : Pool ι Req Resp α S} (hturn : turn handle i pool = some pool') :
    Step exec pool pool' := by
  rw [turn] at hturn
  cases hprog : pool.progs i with
  | pure a =>
      rw [hprog] at hturn
      cases hturn
  | request r next =>
      rw [hprog] at hturn
      obtain ⟨answered, hanswered, rfl⟩ := Option.map_eq_some_iff.mp hturn
      exact .request i hprog (h i r pool.state answered hanswered)

/-- A thread that is not scheduled is where it was. -/
theorem play_idle {handle : ι → (r : Req) → S → Option (Resp r × S)} {schedule : List ι}
    {pool pool' : Pool ι Req Resp α S} {i : ι} (hi : i ∉ schedule)
    (hplay : play handle schedule pool = some pool') : pool'.progs i = pool.progs i := by
  induction schedule generalizing pool with
  | nil =>
      cases hplay
      rfl
  | cons j rest ih =>
      obtain ⟨hj, hrest⟩ := List.ne_and_not_mem_of_not_mem_cons hi
      obtain ⟨mid, hturn, hplay⟩ := Option.bind_eq_some_iff.mp hplay
      rw [ih hrest hplay]
      rw [turn] at hturn
      cases hprog : pool.progs j with
      | pure a =>
          rw [hprog] at hturn
          cases hturn
      | request r next =>
          rw [hprog] at hturn
          obtain ⟨answered, -, rfl⟩ := Option.map_eq_some_iff.mp hturn
          exact Function.update_of_ne hj _ _

/-- A schedule that can be played is a run. -/
theorem play_steps {exec : ι → Semantics Req Resp S}
    {handle : ι → (r : Req) → S → Option (Resp r × S)}
    (h : ∀ i r s answered, handle i r s = some answered → exec i r s answered.1 answered.2)
    {schedule : List ι} {pool pool' : Pool ι Req Resp α S}
    (hplay : play handle schedule pool = some pool') : Steps exec pool pool' := by
  induction schedule generalizing pool with
  | nil =>
      cases hplay
      exact .refl
  | cons i rest ih =>
      obtain ⟨mid, hturn, hrest⟩ := Option.bind_eq_some_iff.mp hplay
      exact .head (turn_step h hturn) (ih hrest)

section Rules

variable {exec : ι → Semantics Req Resp S} {R G : ι → S → S → Prop} {Q : ι → α → S → Prop}

/-- Every thread keeps its guarantee and can still reach its end. -/
def Under (exec : ι → Semantics Req Resp S) (R G : ι → S → S → Prop)
    (Q : ι → α → S → Prop) (pool : Pool ι Req Resp α S) : Prop :=
  ∀ i, (pool.progs i).Under (exec i) (R i) (G i) (Q i) pool.state

theorem Step.under {pool pool' : Pool ι Req Resp α S}
    (hGR : ∀ i j, i ≠ j → ∀ s s', G i s s' → R j s s')
    (h : pool.Under exec R G Q) (hstep : Step exec pool pool') :
    (∃ i, G i pool.state pool'.state) ∧ pool'.Under exec R G Q := by
  cases hstep with
  | @request i r next answer s' hprog hexec =>
      have hi := h i
      rw [hprog] at hi
      obtain ⟨hG, hnext⟩ := hi _ .refl answer s' hexec
      refine ⟨⟨i, hG⟩, fun j => ?_⟩
      by_cases hj : j = i
      · subst hj
        simpa using hnext
      · have hR : R j pool.state s' := hGR i j (Ne.symm hj) _ _ hG
        simpa [Function.update_of_ne hj] using (h j).rely (.single hR)

/-- Each thread's judgement survives every interleaving. -/
theorem Steps.under {pool pool' : Pool ι Req Resp α S}
    (hGR : ∀ i j, i ≠ j → ∀ s s', G i s s' → R j s s')
    (h : pool.Under exec R G Q) (hsteps : Steps exec pool pool') : pool'.Under exec R G Q := by
  induction hsteps with
  | refl => exact h
  | tail _ hstep ih => exact (hstep.under hGR ih).2

/-- What every guarantee preserves holds in every state of every interleaving. -/
theorem Steps.invariant {I : S → Prop} {pool pool' : Pool ι Req Resp α S}
    (hGR : ∀ i j, i ≠ j → ∀ s s', G i s s' → R j s s')
    (hI : ∀ i s s', G i s s' → I s → I s')
    (h : pool.Under exec R G Q) (hinit : I pool.state) (hsteps : Steps exec pool pool') :
    I pool'.state := by
  induction hsteps with
  | refl => exact hinit
  | tail hsteps hstep ih =>
      obtain ⟨⟨i, hG⟩, -⟩ := hstep.under hGR (Steps.under hGR h hsteps)
      exact hI i _ _ hG ih

omit [DecidableEq ι] in
/-- A thread that has returned is in its postcondition. -/
theorem Under.post {pool : Pool ι Req Resp α S} (h : pool.Under exec R G Q) {i : ι} {a : α}
    (hi : pool.progs i = .pure a) : Q i a pool.state := by
  have hu := h i
  rw [hi] at hu
  exact hu _ .refl

/-- What every request keeps that the programs may make, they keep side by side. -/
theorem Steps.only {p : Req → Prop} {Q : ι → α → Prop} {I : S → Prop}
    {pool pool' : Pool ι Req Resp α S}
    (honly : ∀ i, (pool.progs i).Only p (fun _ _ => True) (Q i))
    (hI : ∀ i r s answer s', p r → exec i r s answer s' → I s → I s') (hinit : I pool.state)
    (hsteps : Steps exec pool pool') : I pool'.state := by
  have hboth : (∀ i, (pool'.progs i).Only p (fun _ _ => True) (Q i)) ∧ I pool'.state := by
    induction hsteps with
    | refl => exact ⟨honly, hinit⟩
    | tail hsteps hstep ih =>
        obtain ⟨honly, hinv⟩ := ih
        cases hstep with
        | @request i r next answer s' hprog hexec =>
            have hi := honly i
            rw [hprog] at hi
            refine ⟨fun j => ?_, hI i r _ answer s' hi.1 hexec hinv⟩
            by_cases hj : j = i
            · subst hj
              simpa using hi.2 answer trivial
            · simpa [Function.update_of_ne hj] using honly j
  exact hboth.2

end Rules

end Pool

/-! ## Logs -/

/-- One answered request, with the thread that made it. -/
structure Event (ι Req : Type) (Resp : Req → Type) where
  thread : ι
  req : Req
  answer : Resp req

/-- What a run did, newest event first. -/
abbrev Log (ι Req : Type) (Resp : Req → Type) := List (Event ι Req Resp)

/-- What a thread's own events come to, from the oldest on. -/
def trail [DecidableEq ι] {σ : Type} (next : σ → (r : Req) → Resp r → σ) (first : σ) (i : ι) :
    Log ι Req Resp → σ
  | [] => first
  | e :: past =>
      if e.thread = i then next (trail next first i past) e.req e.answer
      else trail next first i past

section Trail

variable [DecidableEq ι] {σ : Type} {next : σ → (r : Req) → Resp r → σ} {first : σ} {i j : ι}

theorem trail_own (r : Req) (answer : Resp r) (past : Log ι Req Resp) :
    trail next first i (⟨i, r, answer⟩ :: past) = next (trail next first i past) r answer :=
  if_pos rfl

theorem trail_other (h : j ≠ i) (r : Req) (answer : Resp r) (past : Log ι Req Resp) :
    trail next first i (⟨j, r, answer⟩ :: past) = trail next first i past :=
  if_neg h

theorem trail_cons (i : ι) (r : Req) (answer : Resp r) (past : Log ι Req Resp) :
    (fun j => trail next first j (⟨i, r, answer⟩ :: past)) =
      Function.update (fun j => trail next first j past) i
        (next (trail next first i past) r answer) := by
  funext j
  by_cases hj : i = j
  · subst hj
    rw [Function.update_self, trail_own]
  · rw [Function.update_of_ne (Ne.symm hj), trail_other hj]

end Trail

/-- The newest event of a thread. -/
def newest [DecidableEq ι] (i : ι) (log : Log ι Req Resp) : Option (Event ι Req Resp) :=
  log.find? fun e => decide (e.thread = i)

@[simp] theorem newest_cons_self [DecidableEq ι] {i : ι} {r : Req} {answer : Resp r}
    {log : Log ι Req Resp} : newest i (⟨i, r, answer⟩ :: log) = some ⟨i, r, answer⟩ := by
  simp [newest]

theorem newest_cons_ne [DecidableEq ι] {i j : ι} {r : Req} {answer : Resp r}
    {log : Log ι Req Resp} (h : j ≠ i) : newest i (⟨j, r, answer⟩ :: log) = newest i log := by
  simp [newest, h]

/-- The events after the newest one that `p` picks. -/
def since (p : Event ι Req Resp → Bool) (log : Log ι Req Resp) : Log ι Req Resp :=
  log.takeWhile fun e => !p e

theorem since_cons_of_not {p : Event ι Req Resp → Bool} {e : Event ι Req Resp}
    {log : Log ι Req Resp} (h : p e = false) : since p (e :: log) = e :: since p log := by
  simp [since, h]

/-- The semantics that also writes the log. -/
def recording (exec : ι → Semantics Req Resp S) : ι → Semantics Req Resp (S × Log ι Req Resp) :=
  fun i r s answer s' => exec i r s.1 answer s'.1 ∧ s'.2 = ⟨i, r, answer⟩ :: s.2

/-- The steps that meet a condition on the state they are taken in. -/
def restricted (meets : ι → Req → S → Prop) (exec : ι → Semantics Req Resp S) :
    ι → Semantics Req Resp S :=
  fun i r s answer s' => meets i r s ∧ exec i r s answer s'

end Request
