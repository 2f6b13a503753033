import Lfsx.Locks.Store

/-!
# Locks in a bucket

Any number of replicas take, take over, give back and force open locks in one bucket, at
once, request by request.  A lock whose taker was told it is his stays under its key until
it is asked for under its own version, by a thread that may: his own unlock, one that an
admin forces, or a create that saw it stale.  So no two takers of one path both have it
(`bucket_exclusion`).

The invariant ties the versions that were read and given to what the shelf gave them to
(`Consistent`).  It says of every lock that was put that it is there or was ended, so what
an operation has to show is that it removes a lock only if it may (`Allowed`).
-/

namespace Lfsx.Locks

open Request
open Shelves (Shelf Item)
open Program (Stable)

abbrev Past (ι : Type) := Log ι Req Resp

/-- The threads of some processes: what each is asked, and the store it works on. -/
structure Servers (ρ ι : Type) where
  formats : Formats
  process : ι → ρ
  may : Files.Req Text → Prop
  store : ι → LockStore
  call : ι → Call

/-- A state, with what was done. -/
abbrev State (ρ ι : Type) := World ρ ι × Past ι

namespace Servers

variable {ρ ι : Type} (V : Servers ρ ι)

/-- A thread may end a lock: its owner gives it back, an admin forces it open, or a create saw
it stale. -/
inductive Entitled (lock : Lock) (past : Past ι) (i : ι) : Prop where
  | released {permission : Permission} {ns : Namespace} {id : Text} {caller : Actor}
      {force : Bool} :
      V.call i = .unlock permission ns id caller force → lock.owner.is caller = true →
      Entitled lock past i
  | forced {ns : Namespace} {id : Text} {caller : Actor} :
      V.call i = .unlock .admin ns id caller true → Entitled lock past i
  | stale {permission : Permission} {ns : Namespace} {path : Text} {owner : Actor} {now : Time}
      {age : Nat} : V.call i = .create permission ns path owner → ⟨i, .now, now⟩ ∈ past →
      (V.store i).staleAt V.formats lock now = some age → Entitled lock past i

/-- A lock was asked for under its version by a thread that may end it. -/
def Ended (lock : Lock) (key version : Text) (past : Past ι) : Prop :=
  ∃ i answer, ⟨i, .bucket (.deleteIf key version), answer⟩ ∈ past ∧ answer ≠ .ok false ∧
    V.Entitled lock past i

/-- A thread has read a lock under a version. -/
def Saw (i : ι) (lock : Lock) (version : Text) (past : Past ι) : Prop :=
  ∃ key item, ⟨i, .bucket (.get key), .ok (some item)⟩ ∈ past ∧ item.version = version ∧
    V.formats.decode item.value = some lock

/-- What a thread may ask: it removes a lock it has read, if it may end it. -/
def Allowed (i : ι) (past : Past ι) : Req → Prop
  | .bucket (.deleteIf _ version) => ∃ lock, V.Saw i lock version past ∧ V.Entitled lock past i
  | _ => True

variable {V}

theorem Entitled.cons {lock : Lock} {past : Past ι} {i : ι} {e : Event ι Req Resp}
    (h : V.Entitled lock past i) : V.Entitled lock (e :: past) i := by
  cases h with
  | released hcall hown => exact .released hcall hown
  | forced hcall => exact .forced hcall
  | stale hcall hnow hage => exact .stale hcall (List.mem_cons_of_mem _ hnow) hage

theorem Ended.cons {lock : Lock} {key version : Text} {past : Past ι} {e : Event ι Req Resp}
    (h : V.Ended lock key version past) : V.Ended lock key version (e :: past) := by
  obtain ⟨i, answer, hmem, hanswer, hentitled⟩ := h
  exact ⟨i, answer, List.mem_cons_of_mem _ hmem, hanswer, hentitled.cons⟩

theorem Saw.cons {i : ι} {lock : Lock} {version : Text} {past : Past ι} {e : Event ι Req Resp}
    (h : V.Saw i lock version past) : V.Saw i lock version (e :: past) := by
  obtain ⟨key, item, hmem, hrest⟩ := h
  exact ⟨key, item, List.mem_cons_of_mem _ hmem, hrest⟩

/-! ## The invariant -/

variable (V) in
/-- What was read and what was put has its version from the shelf, and a lock that was put is
there or was ended. -/
structure Consistent (w : State ρ ι) : Prop where
  read : ∀ i key item, ⟨i, .bucket (.get key), .ok (some item)⟩ ∈ w.2 →
    ⟨item.version, key, item.value⟩ ∈ w.1.bucket.granted
  put : ∀ i key value version, ⟨i, .bucket (.putIfAbsent key value), .ok (some version)⟩ ∈ w.2 →
    ⟨version, key, value⟩ ∈ w.1.bucket.granted
  once : ∀ i j key key' value value' version,
    ⟨i, .bucket (.putIfAbsent key value), .ok (some version)⟩ ∈ w.2 →
    ⟨j, .bucket (.putIfAbsent key' value'), .ok (some version)⟩ ∈ w.2 → i = j
  kept : ∀ i key value version lock,
    ⟨i, .bucket (.putIfAbsent key value), .ok (some version)⟩ ∈ w.2 →
    V.formats.decode value = some lock →
    w.1.bucket.items key = some ⟨value, version⟩ ∨ V.Ended lock key version w.2

variable [DecidableEq ρ]

variable (V) in
abbrev exec : ι → Semantics Req Resp (State ρ ι) := recording (serves V.process V.may)

/-- What a request of a bucket does to it, and that no other request does anything to it. -/
theorem serves_bucket {i : ι} {r : Req} {w w' : World ρ ι} {answer : Resp r}
    (h : serves V.process V.may i r w answer w') :
    (∃ r' answer', (⟨i, r, answer⟩ : Event ι Req Resp) = ⟨i, .bucket r', answer'⟩ ∧
      Shelves.Faulty r' w.bucket answer' w'.bucket) ∨
    w'.bucket = w.bucket ∧ ∀ r', r ≠ .bucket r' := by
  cases r with
  | acquire slot =>
      obtain ⟨-, rfl⟩ := h
      exact Or.inr ⟨rfl, by simp⟩
  | drop slot =>
      cases h
      exact Or.inr ⟨rfl, by simp⟩
  | now =>
      cases h
      exact Or.inr ⟨rfl, by simp⟩
  | disk r =>
      obtain ⟨d, -, rfl⟩ := h
      exact Or.inr ⟨rfl, by simp⟩
  | createNew path =>
      refine Or.inr ⟨?_, by simp⟩
      rcases h with h | ⟨-, -, rfl⟩
      · split at h
        · rw [h.2]
        · obtain ⟨-, time, -, rfl⟩ := h
          rfl
      · rfl
  | bucket r =>
      obtain ⟨b, hb, rfl⟩ := h
      exact Or.inl ⟨r, answer, rfl, hb⟩

omit [DecidableEq ρ] in
/-- A lock stays, or a thread that may asks for it under its version. -/
theorem Consistent.kept_step {i : ι} {r : Shelves.Req Text Bytes Text}
    {answer : Shelves.Resp Error r} {w : State ρ ι} {b : Shelf Text Bytes Text} {key : Text}
    {value : Bytes} {version : Text} {lock : Lock} (hw : V.Consistent w)
    (hallowed : V.Allowed i w.2 (.bucket r)) (hstep : Shelves.Faulty r w.1.bucket answer b)
    (hgranted : ⟨version, key, value⟩ ∈ w.1.bucket.granted)
    (hdecode : V.formats.decode value = some lock)
    (hitem : w.1.bucket.items key = some ⟨value, version⟩) :
    b.items key = some ⟨value, version⟩ ∨
      V.Ended lock key version (⟨i, .bucket r, answer⟩ :: w.2) := by
  cases hstep.moves key with
  | stays hsame => exact Or.inl (hsame.trans hitem)
  | comes hnone =>
      rw [hitem] at hnone
      cases hnone
  | goes hitem' hanswer =>
      rw [hitem, Option.some.injEq] at hitem'
      subst hitem'
      obtain ⟨lock', ⟨key', item, hmem, hversion, hdecode'⟩, hentitled⟩ := hallowed
      have hread := hw.read i key' item hmem
      rw [hversion] at hread
      obtain ⟨-, hvalue⟩ := Shelf.eq_of_granted hread hgranted
      rw [hvalue, hdecode, Option.some.injEq] at hdecode'
      subst hdecode'
      exact Or.inr ⟨i, _, List.mem_cons_self, hanswer, hentitled.cons⟩

theorem Consistent.step {i : ι} {r : Req} {answer : Resp r} {w : State ρ ι} {w' : World ρ ι}
    (hw : V.Consistent w) (hallowed : V.Allowed i w.2 r)
    (hstep : serves V.process V.may i r w.1 answer w') :
    V.Consistent (w', ⟨i, r, answer⟩ :: w.2) := by
  rcases serves_bucket hstep with ⟨r, answer, he, hshelf⟩ | ⟨hsame, hother⟩
  · cases he
    refine ⟨fun j key item hmem => ?_, fun j key value version hmem => ?_,
      fun j k key key' value value' version hmem hmem' => ?_,
      fun j key value version lock hmem hdecode => ?_⟩
    · rcases List.mem_cons.mp hmem with he | hmem
      · cases he
        exact hshelf.read
      · exact hshelf.granted (hw.read j key item hmem)
    · rcases List.mem_cons.mp hmem with he | hmem
      · cases he
        exact w'.bucket.vouched key ⟨value, version⟩ hshelf.placed.2
      · exact hshelf.granted (hw.put j key value version hmem)
    · have hnew : ∀ {j : ι} {key : Text} {value : Bytes},
          ⟨j, .bucket (.putIfAbsent key value), .ok (some version)⟩ ∈ w.2 →
          ¬ w.1.bucket.Fresh version := fun hmem hfresh =>
        hfresh (List.mem_map_of_mem (hw.put _ _ _ _ hmem))
      rcases List.mem_cons.mp hmem with he | hold <;>
        rcases List.mem_cons.mp hmem' with he' | hold'
      · exact (congrArg Event.thread he).trans (congrArg Event.thread he').symm
      · cases he
        exact absurd hshelf.placed.1 (hnew hold')
      · cases he'
        exact absurd hshelf.placed.1 (hnew hold)
      · exact hw.once j k key key' value value' version hold hold'
    · rcases List.mem_cons.mp hmem with he | hmem
      · cases he
        exact Or.inl hshelf.placed.2
      · rcases hw.kept j key value version lock hmem hdecode with hitem | hended
        · exact hw.kept_step hallowed hshelf (hw.put j key value version hmem) hdecode hitem
        · exact Or.inr hended.cons
  · have hold : ∀ {j : ι} {r' : Shelves.Req Text Bytes Text} {answer' : Resp (.bucket r')},
        ⟨j, .bucket r', answer'⟩ ∈ (⟨i, r, answer⟩ :: w.2 : Past ι) →
        ⟨j, .bucket r', answer'⟩ ∈ w.2 := by
      intro j r' answer' hmem
      rcases List.mem_cons.mp hmem with he | hmem
      · exact absurd (congrArg Event.req he).symm (hother r')
      · exact hmem
    refine ⟨fun j key item hmem => ?_, fun j key value version hmem => ?_,
      fun j k key key' value value' version hmem hmem' => ?_,
      fun j key value version lock hmem hdecode => ?_⟩
    · show _ ∈ w'.bucket.granted
      rw [hsame]
      exact hw.read j key item (hold hmem)
    · show _ ∈ w'.bucket.granted
      rw [hsame]
      exact hw.put j key value version (hold hmem)
    · exact hw.once j k key key' value value' version (hold hmem) (hold hmem')
    · show w'.bucket.items key = _ ∨ _
      rw [hsame]
      exact (hw.kept j key value version lock (hold hmem) hdecode).imp_right Ended.cons

/-! ## Operations -/

variable (V) in
/-- A step of a thread. -/
def Does (i : ι) (w w' : State ρ ι) : Prop :=
  V.Consistent w ∧ ∃ r answer, V.Allowed i w.2 r ∧ V.exec i r w answer w'

variable (V) in
/-- A step of any thread. -/
def Moves (w w' : State ρ ι) : Prop := ∃ i, V.Does i w w'

/-- A fact about the past that is not forgotten. -/
def Lasting (K : Past ι → Prop) : Prop := ∀ e past, K past → K (e :: past)

omit [DecidableEq ρ] in
theorem Lasting.mem {K : Past ι → Prop} (hK : Lasting K) (e : Event ι Req Resp) :
    Lasting fun past => K past ∧ e ∈ past :=
  fun e' past h => ⟨hK e' past h.1, List.mem_cons_of_mem _ h.2⟩

variable (V) in
/-- An operation of a thread among the others: what it knows of the past if it succeeds. -/
abbrev Among {ε α : Type} (i : ι) (Q : α → Past ι → Prop) (op : Fallible ε Req Resp α)
    (w : State ρ ι) : Prop :=
  op.Under (V.exec i) V.Moves (V.Does i) (fun a w => V.Consistent w ∧ Q a w.2) V.Consistent w

section

variable {ε ε' α β : Type} {i : ι} {w w' : State ρ ι} {K : Past ι → Prop} {Q : β → Past ι → Prop}

theorem Does.step (hdoes : V.Does i w w') :
    V.Consistent w' ∧ ∃ r answer, w'.2 = ⟨i, r, answer⟩ :: w.2 := by
  obtain ⟨hw, r, answer, hallowed, hstep, hlog⟩ := hdoes
  have hafter := hw.step hallowed hstep
  rw [← hlog] at hafter
  exact ⟨hafter, r, answer, hlog⟩

theorem stable_consistent : Stable V.Moves V.Consistent := by
  rintro w w' ⟨i, hdoes⟩ -
  exact hdoes.step.1

theorem stable_knows (hK : Lasting K) : Stable V.Moves fun w => V.Consistent w ∧ K w.2 := by
  rintro w w' ⟨i, hdoes⟩ ⟨-, hk⟩
  obtain ⟨hafter, r, answer, hlog⟩ := hdoes.step
  rw [hlog]
  exact ⟨hafter, hK _ _ hk⟩

theorem Among.pure {b : β} (hQ : Lasting (Q b)) (hw : V.Consistent w) (h : Q b w.2) :
    V.Among i Q (Pure.pure b : Fallible ε Req Resp β) w :=
  Fallible.Under.pure (stable_knows hQ) ⟨hw, h⟩

theorem Among.throw {e : ε} (hw : V.Consistent w) :
    V.Among i Q (throw e : Fallible ε Req Resp β) w :=
  Fallible.Under.throw stable_consistent hw

theorem Among.bind {P : α → Past ι → Prop} {op : Fallible ε Req Resp α}
    {f : α → Fallible ε Req Resp β} (h : V.Among i P op w)
    (hf : ∀ a w, V.Consistent w → P a w.2 → V.Among i Q (f a) w) : V.Among i Q (op >>= f) w :=
  Fallible.Under.bind stable_consistent
    (Fallible.Under.mono h (fun a w h => hf a w h.1 h.2) fun _ h => h)

/-- An operation whose error is taken for an answer. -/
theorem Among.attempt {P : α → Past ι → Prop} {op : Fallible ε Req Resp α}
    {f : Except ε α → Fallible ε Req Resp β} (h : V.Among i P op w)
    (hok : ∀ a w, V.Consistent w → P a w.2 → V.Among i Q (f (.ok a)) w)
    (herror : ∀ e w, V.Consistent w → V.Among i Q (f (.error e)) w) :
    V.Among i Q (op.attempt >>= f) w :=
  Fallible.Under.attempt
    (Fallible.Under.mono h (fun a w h => hok a w h.1 h.2) fun w hw e => herror e w hw)

theorem Among.ofExcept {answer : Except ε β} (hw : V.Consistent w)
    (h : ∀ b, answer = .ok b → Lasting (Q b) ∧ Q b w.2) :
    V.Among i Q (Fallible.ofExcept answer : Fallible ε Req Resp β) w := by
  cases answer with
  | ok b => exact Among.pure (h b rfl).1 hw (h b rfl).2
  | error e => exact Among.throw hw

/-- A thread asks what it may, and knows the answer. -/
theorem triple {r : Req} (hK : Lasting K) (hallowed : ∀ past, K past → V.Allowed i past r) :
    Program.Triple (V.exec i) (V.Does i) (fun w => V.Consistent w ∧ K w.2) r
      fun answer w' => V.Consistent w' ∧ K w'.2 ∧ ⟨i, r, answer⟩ ∈ w'.2 := by
  rintro w answer w' ⟨hw, hk⟩ hexec
  have hdoes : V.Does i w w' := ⟨hw, r, answer, hallowed _ hk, hexec⟩
  refine ⟨hdoes, hdoes.step.1, ?_⟩
  rw [hexec.2]
  exact ⟨hK _ _ hk, List.mem_cons_self⟩

/-- One request, and nothing after it. -/
theorem Among.ask {r : Req} {h : Resp r = Except ε β} {g : ε → ε'} (hK : Lasting K)
    (hallowed : ∀ past, K past → V.Allowed i past r) (hw : V.Consistent w) (hk : K w.2) :
    V.Among i (fun b past => K past ∧ ⟨i, r, cast h.symm (.ok b)⟩ ∈ past)
      ((Fallible.ask r h).mapError g) w := by
  refine Program.Under.bind (Program.Under.request (stable_knows hK) ⟨hw, hk⟩ ?_)
  intro w₁ answer w₂ hw₁ hexec
  obtain ⟨hdoes, hw₂, hk₂, hmem⟩ := triple hK hallowed w₁ answer w₂ hw₁ hexec
  refine ⟨hdoes, Program.Under.pure (fun _ _ hR h => Program.Under.rely h (.single hR)) ?_⟩
  cases hanswer : cast h answer with
  | ok b =>
      have hasked : (⟨i, r, cast h.symm (.ok b)⟩ : Event ι Req Resp) ∈ w₂.2 := by
        rw [← hanswer, cast_cast, cast_eq]
        exact hmem
      exact Fallible.Under.pure (stable_knows (hK.mem _)) ⟨hw₂, hk₂, hasked⟩
  | error e => exact Program.Under.pure stable_consistent hw₂

theorem Among.certain {r : Req} (hK : Lasting K)
    (hallowed : ∀ past, K past → V.Allowed i past r) (hw : V.Consistent w) (hk : K w.2) :
    V.Among i (fun answer past => K past ∧ ⟨i, r, answer⟩ ∈ past)
      (Fallible.certain r : Fallible ε Req Resp (Resp r)) w :=
  Fallible.Under.certain (stable_knows hK) ⟨hw, hk⟩
    (fun _ => stable_knows (hK.mem _))
    (triple hK hallowed)

omit [DecidableEq ρ] in
theorem lasting_true : Lasting fun _ : Past ι => True := fun _ _ h => h

end

/-! ### The bucket backend -/

section

variable {i : ι} {w : State ρ ι} {ns : Namespace} {id key : Text} {lock : Lock} {held : Held}
  {encoded : Bytes} {K : Past ι → Prop}

variable (V) in
/-- A thread has read a lock, under the version it was given. -/
def Reads (i : ι) (held : Held) (past : Past ι) : Prop :=
  ∀ version, held.version = some version → V.Saw i held.lock version past

omit [DecidableEq ρ] in
theorem lasting_reads : Lasting (V.Reads i held) :=
  fun _ _ h version hversion => (h version hversion).cons

theorem readBucket_among (hw : V.Consistent w) :
    V.Among i (fun held? past => ∀ held, held? = some held → V.Reads i held past)
      (LockStore.readBucket V.formats key) w := by
  have hlasting : ∀ held? : Option Held,
      Lasting fun past => ∀ held, held? = some held → V.Reads i held past :=
    fun _ e past h held hheld => lasting_reads e past (h held hheld)
  rw [LockStore.readBucket]
  refine Among.bind (Among.ask lasting_true (fun _ _ => trivial) hw trivial)
    fun item? w hw hread => ?_
  cases item? with
  | none =>
      refine Among.pure (hlasting _) hw ?_
      rintro held ⟨⟩
  | some item =>
      refine Among.pure (hlasting _) hw ?_
      rintro held hheld version hversion
      obtain ⟨lock, hdecode, rfl⟩ := Option.map_eq_some_iff.mp hheld
      exact ⟨key, item, hread.2, Option.some.inj hversion, hdecode⟩

theorem read_among (hbucket : (V.store i).backend = .bucket) (hw : V.Consistent w) :
    V.Among i (fun held? past => ∀ held, held? = some held → V.Reads i held past)
      ((V.store i).read V.formats ns id) w := by
  rw [LockStore.read]
  split
  · refine Among.pure (fun e past h held hheld => lasting_reads e past (h held hheld)) hw ?_
    rintro held ⟨⟩
  · rw [hbucket]
    exact readBucket_among hw

theorem get_among (hbucket : (V.store i).backend = .bucket) (hw : V.Consistent w) :
    V.Among i (fun _ _ => True) ((V.store i).get V.formats ns id) w :=
  Among.bind (read_among hbucket hw) fun _ _ hw _ => Among.pure lasting_true hw trivial

theorem count_among (hbucket : (V.store i).backend = .bucket) (hw : V.Consistent w) :
    V.Among i (fun _ _ => True) ((V.store i).count ns) w := by
  rw [LockStore.count, hbucket]
  exact Among.bind (Among.ask lasting_true (fun _ _ => trivial) hw trivial)
    fun _ _ hw _ => Among.pure lasting_true hw trivial

theorem checkCapacity_among (hbucket : (V.store i).backend = .bucket) (hw : V.Consistent w) :
    V.Among i (fun _ _ => True) ((V.store i).checkCapacity V.formats ns lock) w := by
  rw [LockStore.checkCapacity]
  refine Among.bind (get_among hbucket hw) fun found? w hw _ => ?_
  cases found? with
  | some _ => exact Among.pure lasting_true hw trivial
  | none =>
      refine Among.bind (count_among hbucket hw) fun found w hw _ => ?_
      split
      · exact Among.throw hw
      · exact Among.pure lasting_true hw trivial

theorem staleFor_among (hK : Lasting K) (hw : V.Consistent w) (hk : K w.2) :
    V.Among i (fun age? past => K past ∧ ∀ age, age? = some age →
        ∃ now, ⟨i, .now, now⟩ ∈ past ∧ (V.store i).staleAt V.formats lock now = some age)
      ((V.store i).staleFor V.formats lock) w := by
  have hlasting : ∀ age? : Option Nat, Lasting fun past => K past ∧ ∀ age, age? = some age →
      ∃ now, ⟨i, .now, now⟩ ∈ past ∧ (V.store i).staleAt V.formats lock now = some age := by
    rintro age? e past ⟨hk, h⟩
    refine ⟨hK e past hk, fun age hage => ?_⟩
    obtain ⟨now, hmem, hstale⟩ := h age hage
    exact ⟨now, List.mem_cons_of_mem _ hmem, hstale⟩
  rw [LockStore.staleFor]
  split
  · next maxAge taken hmax htaken =>
      refine Among.bind (Among.certain hK (fun _ _ => trivial) hw hk) fun now w hw hnow => ?_
      refine Among.pure (hlasting _) hw ⟨hnow.1, fun age hage => ⟨now, hnow.2, ?_⟩⟩
      rw [LockStore.staleAt, hmax, htaken]
      exact hage
  · refine Among.pure (hlasting _) hw ⟨hk, ?_⟩
    rintro age ⟨⟩

/-- A lock that was taken was put under its key. -/
theorem take_among (hbucket : (V.store i).backend = .bucket) (hw : V.Consistent w) :
    V.Among i (fun taken past => taken = true → ∃ version,
        ⟨i, .bucket (.putIfAbsent (LockStore.keyOf ns lock.id) encoded), .ok (some version)⟩ ∈ past)
      ((V.store i).take ns lock encoded) w := by
  have hlasting : ∀ taken : Bool, Lasting fun past : Past ι => taken = true → ∃ version,
      ⟨i, .bucket (.putIfAbsent (LockStore.keyOf ns lock.id) encoded), .ok (some version)⟩ ∈
        past := by
    intro taken e past h htaken
    obtain ⟨version, hmem⟩ := h htaken
    exact ⟨version, List.mem_cons_of_mem _ hmem⟩
  rw [LockStore.take, hbucket]
  dsimp only
  split
  · exact Among.throw hw
  · refine Among.bind (Among.ask lasting_true (fun _ _ => trivial) hw trivial)
      fun version? w hw hput => ?_
    refine Among.pure (hlasting _) hw fun htaken => ?_
    obtain ⟨version, rfl⟩ := Option.isSome_iff_exists.mp htaken
    exact ⟨version, hput.2⟩

/-- A lock that was read is removed by a thread that may end it. -/
theorem release_among (hbucket : (V.store i).backend = .bucket) (hw : V.Consistent w)
    (hreads : V.Reads i held w.2) (hentitled : V.Entitled held.lock w.2 i) :
    V.Among i (fun _ _ => True) ((V.store i).release ns held) w := by
  rw [LockStore.release, LockStore.removed, hbucket]
  have hfinish : ∀ (removed : Bool) (w : State ρ ι), V.Consistent w →
      V.Among i (fun _ _ => True)
        (if removed = true then return () else throw .lockNotFound : Op Unit) w := by
    intro removed w hw
    split
    · exact Among.pure lasting_true hw trivial
    · exact Among.throw hw
  cases hversion : held.version with
  | none => exact hfinish false w hw
  | some version =>
      have hlasting : Lasting fun past =>
          V.Saw i held.lock version past ∧ V.Entitled held.lock past i :=
        fun _ _ h => ⟨h.1.cons, h.2.cons⟩
      exact Among.bind (Among.ask hlasting (fun past h => ⟨held.lock, h⟩) hw
        ⟨hreads version hversion, hentitled⟩) fun removed w hw _ => hfinish removed w hw

end

section

variable {α : Type} {i : ι} {w : State ρ ι} {ns : Namespace} {id path key : Text}
  {owner caller : Actor}
  {lock : Lock} {held : Held} {encoded : Bytes} {permission : Permission} {force : Bool}

theorem discard_among (hbucket : (V.store i).backend = .bucket) (hw : V.Consistent w)
    (hreads : V.Reads i held w.2) (hentitled : V.Entitled held.lock w.2 i) :
    V.Among i (fun _ _ => True) ((V.store i).discard ns held) w := by
  rw [LockStore.discard]
  refine Among.attempt (release_among hbucket hw hreads hentitled)
    (fun _ w hw _ => Among.pure lasting_true hw trivial) fun e w hw => ?_
  cases e with
  | lockNotFound => exact Among.pure lasting_true hw trivial
  | _ => exact Among.throw hw

variable (V) in
/-- A thread has put the lock it answers with. -/
def Took (i : ι) (ns : Namespace) (lock : Lock) (past : Past ι) : Prop :=
  ∃ encoded version, V.formats.encode lock = some encoded ∧
    ⟨i, .bucket (.putIfAbsent (LockStore.keyOf ns lock.id) encoded), .ok (some version)⟩ ∈ past

omit [DecidableEq ρ] in
theorem lasting_took : Lasting (V.Took i ns lock) := by
  rintro e past ⟨encoded, version, hencode, hmem⟩
  exact ⟨encoded, version, hencode, List.mem_cons_of_mem _ hmem⟩

/-- What `create` answers is the lock that was asked for, and it was put. -/
def Created (V : Servers ρ ι) (i : ι) (ns : Namespace) (lock : Lock) (answer : Lock)
    (past : Past ι) : Prop :=
  answer = lock ∧ V.Took i ns lock past

omit [DecidableEq ρ] in
theorem lasting_created {answer : Lock} : Lasting (V.Created i ns lock answer) :=
  fun e past h => ⟨h.1, lasting_took e past h.2⟩

theorem takeOver_among (hbucket : (V.store i).backend = .bucket)
    (hcall : V.call i = .create permission ns path owner)
    (hencode : V.formats.encode lock = some encoded) (hw : V.Consistent w) :
    V.Among i (V.Created i ns lock) ((V.store i).takeOver V.formats ns lock encoded) w := by
  rw [LockStore.takeOver]
  refine Among.bind (read_among hbucket hw) fun held? w hw hreads => ?_
  cases held? with
  | none => exact Among.throw hw
  | some held =>
      refine Among.bind (staleFor_among lasting_reads hw (hreads held rfl))
        fun age? w hw hstale => ?_
      cases age? with
      | none => exact Among.throw hw
      | some age =>
          obtain ⟨hreads, hstale⟩ := hstale
          obtain ⟨now, hnow, hage⟩ := hstale age rfl
          refine Among.bind (discard_among hbucket hw hreads (.stale hcall hnow hage))
            fun _ w hw _ => ?_
          refine Among.bind (take_among hbucket hw) fun taken w hw htaken => ?_
          split
          · next htrue =>
              obtain ⟨version, hput⟩ := htaken htrue
              exact Among.pure lasting_created hw ⟨rfl, encoded, version, hencode, hput⟩
          · refine Among.bind (get_among hbucket hw) fun other? w hw _ => ?_
            cases other? with
            | some _ => exact Among.throw hw
            | none => exact Among.throw hw

theorem createGated_among (hbucket : (V.store i).backend = .bucket)
    (hcall : V.call i = .create permission ns path owner) (hw : V.Consistent w) :
    V.Among i (fun answer past => ∃ now, V.Created i ns (LockStore.asked V.formats path owner now)
        answer past) ((V.store i).createGated V.formats ns path owner) w := by
  have hsome : ∀ (now : Time) {op : Op Lock} {w : State ρ ι},
      V.Among i (V.Created i ns (LockStore.asked V.formats path owner now)) op w →
      V.Among i (fun answer past => ∃ now,
        V.Created i ns (LockStore.asked V.formats path owner now) answer past) op w :=
    fun now _ _ h => Fallible.Under.mono h (fun _ _ h => ⟨h.1, now, h.2⟩) fun _ h => h
  rw [LockStore.createGated]
  refine Among.bind (Among.certain lasting_true (fun _ _ => trivial) hw trivial)
    fun now w hw _ => hsome now ?_
  dsimp only
  cases hencode : V.formats.encode (LockStore.asked V.formats path owner now) with
  | none => exact Among.throw hw
  | some encoded =>
      refine Among.bind (checkCapacity_among hbucket hw) fun _ w hw _ => ?_
      refine Among.bind (take_among hbucket hw) fun taken w hw htaken => ?_
      split
      · next htrue =>
          obtain ⟨version, hput⟩ := htaken htrue
          exact Among.pure lasting_created hw ⟨rfl, encoded, version, hencode, hput⟩
      · exact takeOver_among hbucket hcall hencode hw

/-- The gate of the process changes nothing in the bucket. -/
theorem exclusive_among {Q : α → Past ι → Prop} {body : Op α} (hQ : ∀ a, Lasting (Q a))
    (hbody : ∀ w, V.Consistent w → V.Among i Q body w) (hw : V.Consistent w) :
    V.Among i Q (LockStore.exclusive id body) w := by
  rw [LockStore.exclusive]
  refine Among.bind (Among.certain lasting_true (fun _ _ => trivial) hw trivial)
    fun _ w hw _ => ?_
  refine Among.attempt (hbody w hw) (fun a w hw h => ?_) fun e w hw => ?_
  · refine Among.bind (Among.certain (hQ a) (fun _ _ => trivial) hw h) fun _ w hw h => ?_
    exact Among.pure (hQ a) hw h.1
  · refine Among.bind (Among.certain lasting_true (fun _ _ => trivial) hw trivial)
      fun _ w hw _ => ?_
    exact Among.throw hw

theorem unlockGated_among (hbucket : (V.store i).backend = .bucket)
    (hcall : V.call i = .unlock permission ns id caller force) (hw : V.Consistent w) :
    V.Among i (fun _ _ => True)
      (unlockGated V.formats (V.store i) ns id caller permission force) w := by
  rw [unlockGated]
  refine Among.bind (read_among hbucket hw) fun held? w hw hreads => ?_
  cases held? with
  | none => exact Among.throw hw
  | some held =>
      have hmay : V.Among i (fun _ past => V.Reads i held past ∧ V.Entitled held.lock past i)
          (Fallible.ofExcept (mayUnlock held.lock caller permission force) : Op Unit) w := by
        refine Among.ofExcept hw fun _ hok =>
          ⟨fun e past h => ⟨lasting_reads e past h.1, h.2.cons⟩, hreads held rfl, ?_⟩
        rw [mayUnlock] at hok
        split at hok
        · next hown => exact .released hcall hown
        split at hok
        · cases hok
        · next hforce =>
            cases permission with
            | admin =>
                have htrue : force = true := by simpa using hforce
                subst htrue
                exact .forced hcall
            | read => cases hok
            | write => cases hok
      refine Among.bind hmay fun _ w hw h => ?_
      refine Among.bind (release_among hbucket hw h.1 h.2) fun _ w hw _ => ?_
      exact Among.pure lasting_true hw trivial

/-- **What a client asks.**  A create that succeeds has put the lock it answers with. -/
theorem op_among (hbucket : (V.store i).backend = .bucket) (hw : V.Consistent w) :
    V.Among i (fun answer past => ∀ permission ns path owner,
        V.call i = .create permission ns path owner →
        ∃ now, V.Created i ns (LockStore.asked V.formats path owner now) answer past)
      ((V.call i).op V.formats (V.store i)) w := by
  cases hcall : V.call i with
  | create permission ns path owner =>
      have hlasting : ∀ answer : Lock, Lasting fun past => ∃ now,
          V.Created i ns (LockStore.asked V.formats path owner now) answer past := by
        rintro answer e past ⟨now, h⟩
        exact ⟨now, lasting_created e past h⟩
      refine Among.bind (Among.ofExcept hw fun _ _ => ⟨lasting_true, trivial⟩) fun _ w hw _ => ?_
      have hcreate : V.Among i (fun answer past => ∃ now,
          V.Created i ns (LockStore.asked V.formats path owner now) answer past)
          ((V.store i).create V.formats ns path owner) w := by
        rw [LockStore.create]
        split
        · exact Among.throw hw
        split
        · exact Among.throw hw
        · exact exclusive_among hlasting (fun w hw => createGated_among hbucket hcall hw) hw
      refine Fallible.Under.mono hcreate (fun answer w h => ⟨h.1, ?_⟩) fun _ h => h
      rintro _ _ _ _ ⟨⟩
      exact h.2
  | unlock permission ns id caller force =>
      refine Among.bind (Among.ofExcept hw fun _ _ => ⟨lasting_true, trivial⟩) fun _ w hw _ => ?_
      have hunlock : V.Among i (fun _ _ => True) (LockStore.exclusive id
          (unlockGated V.formats (V.store i) ns id caller permission force)) w :=
        exclusive_among (fun _ => lasting_true) (fun w hw => unlockGated_among hbucket hcall hw) hw
      refine Fallible.Under.mono hunlock (fun answer w h => ⟨h.1, ?_⟩) fun _ h => h
      rintro _ _ _ _ ⟨⟩

end

/-! ## Exclusion -/

variable (V) in
/-- The calls are made at once. -/
def start (w : World ρ ι) : Pool ι Req Resp (Except LockError Lock) (State ρ ι) :=
  ⟨fun i => ((V.call i).op V.formats (V.store i)).run, (w, [])⟩

variable (V) in
/-- A create has answered with a lock, and what it put was not ended since. -/
structure Live (pool : Pool ι Req Resp (Except LockError Lock) (State ρ ι)) (ns : Namespace)
    (path : Text) (owner : Actor) (i : ι) (lock : Lock) : Prop where
  call : ∃ permission, V.call i = .create permission ns path owner
  granted : pool.progs i = .pure (.ok lock)
  unended : ∀ value version,
    ⟨i, .bucket (.putIfAbsent (LockStore.keyOf ns (LockStore.idOf V.formats path)) value),
      .ok (some version)⟩ ∈ pool.state.2 →
    ¬ V.Ended lock (LockStore.keyOf ns (LockStore.idOf V.formats path)) version pool.state.2

/-- **Locks in a bucket exclude each other.**  The lock of a create that succeeded is the one
stored for its path until it is ended, so two creates do not have one path at once. -/
theorem bucket_exclusion [DecidableEq ι] (lawful : V.formats.Lawful)
    (hbucket : ∀ i, (V.store i).backend = .bucket) (w : World ρ ι)
    {pool : Pool ι Req Resp (Except LockError Lock) (State ρ ι)}
    (hsteps : Pool.Steps V.exec (V.start w) pool) :
    (∀ ns path owner i lock, V.Live pool ns path owner i lock →
      lock.path = path ∧ lock.owner.is owner = true ∧
        ∃ item, pool.state.1.bucket.items (LockStore.keyOf ns (LockStore.idOf V.formats path)) =
            some item ∧ V.formats.decode item.value = some lock) ∧
      ∀ ns ns' path owner owner' i j lock lock', ns.Same ns' →
        V.Live pool ns path owner i lock → V.Live pool ns' path owner' j lock' → i = j := by
  have hconsistent : V.Consistent (w, []) := by
    refine ⟨?_, ?_, ?_, ?_⟩ <;> intros <;> contradiction
  have hunder : (V.start w).Under V.exec (fun _ => V.Moves) V.Does fun i =>
      Fallible.Ends (fun answer w => V.Consistent w ∧ ∀ permission ns path owner,
        V.call i = .create permission ns path owner →
        ∃ now, V.Created i ns (LockStore.asked V.formats path owner now) answer w.2)
        V.Consistent := fun i => op_among (hbucket i) hconsistent
  have hrely : ∀ i j, i ≠ j → ∀ w w', V.Does i w w' → V.Moves w w' :=
    fun i _ _ _ _ hdoes => ⟨i, hdoes⟩
  have hend := Pool.Steps.under hrely hunder hsteps
  have hpool : V.Consistent pool.state := Pool.Steps.invariant hrely
    (fun _ _ _ hdoes _ => hdoes.step.1) hunder hconsistent hsteps
  -- What a live create put is there, under a version of its own.
  have hplaced : ∀ ns path owner i lock, V.Live pool ns path owner i lock →
      lock.path = path ∧ lock.owner.is owner = true ∧ ∃ value version,
        ⟨i, .bucket (.putIfAbsent (LockStore.keyOf ns (LockStore.idOf V.formats path)) value),
          .ok (some version)⟩ ∈ pool.state.2 ∧
        V.formats.decode value = some lock ∧
        pool.state.1.bucket.items (LockStore.keyOf ns (LockStore.idOf V.formats path)) =
          some ⟨value, version⟩ := by
    intro ns path owner i lock hlive
    obtain ⟨permission, hcall⟩ := hlive.call
    obtain ⟨now, rfl, value, version, hencode, hput⟩ :=
      (hend.post hlive.granted).2 permission ns path owner hcall
    have hdecode := lawful.decode_encode _ _ hencode
    refine ⟨rfl, beq_self_eq_true _, value, version, hput, hdecode, ?_⟩
    exact (hpool.kept i _ value version _ hput hdecode).resolve_right
      (hlive.unended value version hput)
  refine ⟨fun ns path owner i lock hlive => ?_,
    fun ns ns' path owner owner' i j lock lock' hsame hi hj => ?_⟩
  · obtain ⟨hpath, howner, value, version, -, hdecode, hitem⟩ := hplaced ns path owner i lock hlive
    exact ⟨hpath, howner, ⟨value, version⟩, hitem, hdecode⟩
  · obtain ⟨-, -, value, version, hput, -, hitem⟩ := hplaced ns path owner i lock hi
    obtain ⟨-, -, value', version', hput', -, hitem'⟩ := hplaced ns' path owner' j lock' hj
    have hkey : LockStore.keyOf ns' = LockStore.keyOf ns := by
      funext id
      rw [LockStore.keyOf, LockStore.keyOf, hsame.1, hsame.2]
    rw [hkey, hitem, Option.some.injEq, Item.mk.injEq] at hitem'
    obtain ⟨-, rfl⟩ := hitem'
    exact hpool.once i j _ _ value value' version hput hput'

/-! ## A run -/

/-- A bucket that answers at once and numbers its versions, and has no listing. -/
def respond (b : Shelf Text Bytes Text) :
    (r : Shelves.Req Text Bytes Text) → Option (Shelves.Resp Error r × Shelf Text Bytes Text)
  | .get key => some (.ok (b.items key), b)
  | .putIfAbsent key value =>
      match b.items key with
      | some _ => some (.ok none, b)
      | none =>
          if hfresh : b.Fresh (Storage.decimal b.granted.length) then
            some (.ok (some (Storage.decimal b.granted.length)), b.put key value _ hfresh)
          else none
  | .deleteIf key version =>
      if (b.items key).map Item.version = some version then some (.ok true, b.remove key)
      else some (.ok false, b)
  | .keys _ => some (.ok [], b)

omit [DecidableEq ρ] in
theorem respond_faulty (b : Shelf Text Bytes Text) (r : Shelves.Req Text Bytes Text)
    (answered : Shelves.Resp Error r × Shelf Text Bytes Text) (h : respond b r = some answered) :
    Shelves.Faulty r b answered.1 answered.2 := by
  left
  cases r with
  | get key =>
      cases h
      exact ⟨rfl, rfl⟩
  | keys under =>
      cases h
      exact ⟨⟨[], rfl⟩, rfl⟩
  | putIfAbsent key value =>
      rw [respond] at h
      rw [Shelves.Answers]
      cases hitem : b.items key with
      | some item =>
          rw [hitem] at h
          cases h
          exact ⟨rfl, rfl⟩
      | none =>
          simp only [hitem] at h
          split at h
          · next hfresh =>
              cases h
              exact ⟨_, hfresh, rfl, rfl⟩
          · cases h
  | deleteIf key version =>
      rw [respond] at h
      rw [Shelves.Answers]
      split at h
      · next hversion =>
          cases h
          rw [if_pos hversion]
          exact ⟨rfl, rfl⟩
      · next hversion =>
          cases h
          rw [if_neg hversion]
          exact ⟨rfl, rfl⟩

variable (V) in
/-- Gates that open when they are free, clocks that stand still, and such a bucket. -/
def noting (i : ι) : (r : Req) → State ρ ι → Option (Resp r × State ρ ι)
  | .acquire slot, w =>
      if (w.1.gates (V.process i) slot).isNone then
        some ((), w.1.gate (V.process i) slot (some i), ⟨i, .acquire slot, ()⟩ :: w.2)
      else none
  | .drop slot, w =>
      some ((), w.1.gate (V.process i) slot none, ⟨i, .drop slot, ()⟩ :: w.2)
  | .now, w => some ((0 : Time), w.1, ⟨i, .now, (0 : Time)⟩ :: w.2)
  | .disk _, _ => none
  | .createNew _, _ => none
  | .bucket r, w => (respond w.1.bucket r).map fun answered =>
      (answered.1, { w.1 with bucket := answered.2 }, ⟨i, .bucket r, answered.1⟩ :: w.2)

theorem noting_exec (i : ι) (r : Req) (w : State ρ ι) (answered : Resp r × State ρ ι)
    (h : V.noting i r w = some answered) : V.exec i r w answered.1 answered.2 := by
  cases r with
  | acquire slot =>
      rw [noting] at h
      split at h
      · next hfree =>
          cases h
          exact ⟨⟨Option.isNone_iff_eq_none.mp hfree, rfl⟩, rfl⟩
      · cases h
  | drop slot =>
      cases h
      exact ⟨rfl, rfl⟩
  | now =>
      cases h
      exact ⟨rfl, rfl⟩
  | disk r => cases h
  | createNew path => cases h
  | bucket r =>
      obtain ⟨answer, hanswer, rfl⟩ := Option.map_eq_some_iff.mp h
      exact ⟨⟨answer.2, respond_faulty _ _ _ hanswer, rfl⟩, rfl⟩

end Servers

/-! ### Two people and one path -/

def jane : Actor := ⟨"jane".toList, "1".toList⟩

def marie : Actor := ⟨"marie".toList, "2".toList⟩

def scene : Text := "a".toList

def epoch : Text := "1970-01-01T00:00:00Z".toList

def sceneLock (owner : Actor) : Lock where
  id := "ca978112ca1bbdcafac231b39a23dc4d".toList
  path := scene
  lockedAt := epoch
  owner := ⟨owner.login, some owner.id⟩

/-- What `serde_json` makes of it. -/
def sceneJson (owner : Actor) : Bytes :=
  ("\x7b\"id\":\"ca978112ca1bbdcafac231b39a23dc4d\",\"path\":\"a\",".toList ++
    "\"locked_at\":\"1970-01-01T00:00:00Z\",\"owner\":\x7b\"name\":\"".toList ++ owner.login ++
    "\",\"id\":\"".toList ++ owner.id ++ "\"\x7d\x7d".toList).map fun c => UInt8.ofNat c.toNat

def sceneFormats : Formats where
  encode lock :=
    if lock = sceneLock jane then some (sceneJson jane)
    else if lock = sceneLock marie then some (sceneJson marie)
    else none
  decode encoded :=
    if encoded = sceneJson jane then some (sceneLock jane)
    else if encoded = sceneJson marie then some (sceneLock marie)
    else none
  digest _ := ⟨"ca978112ca1bbdcafac231b39a23dc4da786eff8147c4e72b9807785afee48bb".toList, by decide⟩
  format _ := some epoch
  parse t := if t = epoch then some 0 else none

theorem lawful_scene : sceneFormats.Lawful where
  decode_encode := by
    intro lock encoded h
    rw [sceneFormats] at h
    dsimp only at h
    split at h
    · next hjane =>
        cases h
        rw [hjane]
        rfl
    split at h
    · next hmarie =>
        cases h
        rw [hmarie]
        decide +kernel
    · cases h

/-- Two replicas are asked for the path at once. -/
def rivals : Servers Bool Bool where
  formats := sceneFormats
  process := id
  may _ := False
  store _ := ⟨.bucket, none, defaultCapacity, true⟩
  call
    | true => .create .write .acme scene jane
    | false => .create .write .acme scene marie

/-- Nothing is locked, and every gate is open. -/
def unlocked : World Bool Bool := ⟨fun _ _ => none, .empty, .empty⟩

/-- No event asks for a version. -/
def nothingEnded (past : Past Bool) : Bool :=
  past.all fun e => match e.req with
    | .bucket (.deleteIf _ _) => false
    | _ => true

/-- Both find the path free, and one of them gets it. -/
theorem bucket_exclusion_rivals :
    ∃ pool lock, Pool.play rivals.noting
        ([true, true, true, true, false, false, false, false, true, true] ++
          List.replicate 3 false) (rivals.start unlocked) = some pool ∧
      pool.progs true = .pure (.ok lock) ∧ lock.path = scene ∧ lock.owner.is jane = true ∧
      ∃ item, pool.state.1.bucket.items
          (LockStore.keyOf .acme (LockStore.idOf rivals.formats scene)) = some item ∧
        rivals.formats.decode item.value = some lock := by
  have hrun : ((Pool.play rivals.noting
      ([true, true, true, true, false, false, false, false, true, true] ++
        List.replicate 3 false) (rivals.start unlocked)).any fun pool =>
        (pool.progs true).result.any Except.isOk && nothingEnded pool.state.2) = true := by
    decide +kernel
  obtain ⟨pool, hplay, hcheck⟩ := (Option.any_eq_true _ _).mp hrun
  rw [Bool.and_eq_true] at hcheck
  obtain ⟨hok, hended⟩ := hcheck
  obtain ⟨answer, hresult, hok⟩ := (Option.any_eq_true _ _).mp hok
  cases answer with
  | error e => cases hok
  | ok lock =>
      have hanswer := Program.eq_pure_of_result hresult
      have hlive : rivals.Live pool .acme scene jane true lock := by
        refine ⟨⟨.write, rfl⟩, hanswer, ?_⟩
        rintro value version - ⟨i, answer, hmem, -, -⟩
        have hnone := List.all_eq_true.mp hended _ hmem
        simp at hnone
      exact ⟨pool, lock, hplay, hanswer, (Servers.bucket_exclusion lawful_scene (fun _ => rfl)
        unlocked (Pool.play_steps Servers.noting_exec hplay)).1 .acme scene jane true lock hlive⟩

end Lfsx.Locks
