import Lfsx.Auth.Permissions
import Lfsx.Console.TokensKept

/-!
# Dashboard tokens are kept

The laws of the dashboard's tokens, over all runs: a token stays until its name is revoked
(`Stay`), and one whose name was revoked does not come back (`Go`).  They hold of the runs in
which every list is written while it is still the one its call read (`tokens_kept`), and not of
all (`tokens_lost`).

A run is followed step by step (`Stepped`): the list stays, gains a token, or loses a name
(`Changed`).  A hash that was in the list belongs to a call that has written, and no call
writes twice, so it does not come back (`Settled`).
-/

namespace Lfsx.Console.Tokens

open Request
open Meta (MetaError Backend Req Resp Process Deployment Cluster Store pathOf keyOf)

section

variable (formats : Formats) (signing : Option (Fixed 32)) (deployment : Deployment)

/-- The list that is kept. -/
def listed (w : Cluster) : Option (List Issued) :=
  listOf formats ⟨.bucket, signing⟩ (deployment.holds fileName w)

/-- Who holds a token, once the list is loaded again. -/
def registered (w : Cluster) (token : Text) : Option Issued :=
  if start.isPrefixOf token then
    (listed formats signing deployment w).bind fun list => holderIn formats list token
  else none

def Authenticates (w : Cluster) (token : Text) : Prop :=
  (registered formats signing deployment w token).isSome

variable {formats signing deployment} {ι : Type} {process : ι → Process} {k : ι} {w : Cluster}

theorem issued_alone :
    (issued formats ⟨deployment.backend (process k), signing⟩).Alone (deployment.serves process k)
      (fun _ _ => True)
      (fun list w' => some list = listed formats signing deployment w ∧ w'.store = w.store)
      (fun _ => True) w := by
  refine Fallible.Alone.bind (Fallible.Alone.bind
    (Program.Under.mono (Meta.readMeta_alone fileName) ?_))
  rintro (e | bytes) w₁ hread
  · trivial
  · obtain ⟨rfl, hstore⟩ := hread
    rw [listed]
    cases hholds : deployment.holds fileName w with
    | none => exact Fallible.Alone.pure (Fallible.Alone.pure ⟨rfl, hstore⟩)
    | some bytes =>
        refine Fallible.Alone.pure ?_
        rw [listOf, Option.bind_some, Store.verified, Store.verified]
        split
        case h_1 payload hverified =>
          simp only [hverified]
          cases hdecode : formats.decode payload with
          | none => exact Fallible.Alone.throw trivial
          | some list => exact Fallible.Alone.pure ⟨rfl, hstore⟩
        case h_2 hverified =>
          simp only [hverified]
          exact Fallible.Alone.pure ⟨rfl, hstore⟩

/-- Who holds a token, asked of a server whose list is out of date. -/
theorem holder_alone (token : Text) :
    (holder formats ⟨deployment.backend (process k), signing⟩ none token).Alone
      (deployment.serves process k) (fun _ _ => True)
      (fun found w' => found = registered formats signing deployment w token ∧ w'.store = w.store)
      (fun _ => True) w := by
  rw [holder, registered]
  cases hstart : start.isPrefixOf token with
  | false => exact Fallible.Alone.pure ⟨rfl, rfl⟩
  | true =>
      refine Fallible.Alone.bind (Program.Under.mono issued_alone ?_)
      rintro (e | list) w₁ hlisted
      · trivial
      · obtain ⟨hlist, hstore⟩ := hlisted
        rw [← hlist]
        exact Fallible.Alone.pure ⟨rfl, hstore⟩

end

/-! ## The laws -/

section

variable {ι : Type} [DecidableEq ι]

abbrev Calls (ι : Type) := Pool ι Req Resp (Except Refusal (Option Text)) (Cluster × Past ι)

/-- The call of a thread has not returned. -/
def Running (calls : Calls ι) (i : ι) : Prop := ∀ a, calls.progs i ≠ .pure a

variable (formats : Formats) (signing : Option (Fixed 32)) (deployment : Deployment)
  (jobs : ι → Job) (exec : ι → Semantics Req Resp (Cluster × Past ι)) (first : Calls ι)

/-- A token that was created authenticates as long as nobody goes on to revoke its name. -/
def Stay : Prop :=
  ∀ before after i name token, jobs i = .create name →
    Pool.Steps exec first before → Running before i →
    Pool.Steps (restricted (fun j _ _ => jobs j ≠ .revoke name) exec) before after →
    after.progs i = .pure (.ok (some token)) →
      Authenticates formats signing deployment after.state.1 token

/-- A token whose name was revoked does not authenticate any more. -/
def Go : Prop :=
  ∀ before after i name token e, jobs i = .revoke name →
    Pool.Steps exec first before → Running before i →
    registered formats signing deployment before.state.1 token = some e → e.name = name →
    Pool.Steps exec before after → after.progs i = .pure (.ok none) →
      ¬ Authenticates formats signing deployment after.state.1 token

end

/-! ## One step -/

section

variable {ι : Type} [DecidableEq ι] (formats : Formats) (signing : Option (Fixed 32))
  (deployment : Deployment) (process : ι → Process) (known : List Text) (jobs : ι → Job)

/-- What the calls find: a list in which every hash is known and stands once, and, on a volume,
staged files with one name each. -/
structure Found (w : Cluster) : Prop where
  nodup : ∀ list, listed formats signing deployment w = some list →
    (list.map Issued.hash).Nodup
  known : ∀ list, listed formats signing deployment w = some list →
    ∀ e ∈ list, e.hash ∈ known
  tidy : deployment = .volume → Tidy w.store.disk

/-- A step of a thread. -/
structure Stepped (i : ι) (r : Req) (answer : Resp r) (before after : Calls ι) : Prop where
  orderly : Orderly formats deployment process (before.state, before.state.2)
  may : May formats signing deployment process jobs i before.state.2 r
  served : careful formats deployment process known i r before.state answer after.state
  running : Running before i
  others : ∀ j, j ≠ i → after.progs j = before.progs j
  done : ∀ a, after.progs i = .pure (.ok a) →
    Done formats signing (jobs i) (mindOf formats i after.state.2) a

variable {formats signing deployment process known jobs} {w : Cluster} {before after : Calls ι}
  {i : ι} {r : Req} {answer : Resp r}

theorem orderly_start (htidy : deployment = .volume → Tidy w.store.disk) :
    Orderly (ι := ι) formats deployment process ((w, []), []) where
  log := rfl
  tidy := htidy
  kept _ := {
    begun := fun i hidle => absurd rfl hidle
    drawn := fun i n hn => by cases hn
    distinct := fun i j n hsame hn => by cases hn
    working := fun i hgoing => trivial }

theorem stepped (htidy : deployment = .volume → Tidy w.store.disk)
    (hsteps : Pool.Steps (careful formats deployment process known)
      (calls formats signing deployment process jobs w) before)
    (hstep : Pool.Step (careful formats deployment process known) before after) :
    ∃ i r answer,
      Stepped formats signing deployment process known jobs i r answer before after := by
  have hstart : Orderly formats deployment process (((w, []), []) : (Cluster × Past ι) × Past ι) :=
    orderly_start htidy
  have hops : ∀ i, (ledger formats signing deployment process known jobs).Among i
      (fun answer past => Done formats signing (jobs i) (mindOf formats i past) answer)
      ((jobs i).op formats ⟨deployment.backend (process i), signing⟩) ((w, []), []) :=
    fun i => op_among hstart rfl
  obtain ⟨past, hentered⟩ := Ledger.entered
    (L := ledger formats signing deployment process known jobs) [] hsteps
  obtain ⟨entry, hlast⟩ := Ledger.entered_step
    (L := ledger formats signing deployment process known jobs) past hstep
  obtain ⟨hsound, -⟩ := Ledger.reached hstart hops hentered
  obtain ⟨hsound', hdone⟩ := Ledger.reached hstart hops (hentered.tail hlast)
  obtain ⟨i, r, answer, hallowed, ⟨hexec, hentry⟩, hrunning, hothers⟩ :=
    Ledger.next_step hstart hops hentered hlast
  have hlog : before.state.2 = past := hsound.log
  have hlog' : after.state.2 = entry :: past := hsound'.log
  subst hlog
  refine ⟨i, r, answer, hsound, hallowed, hexec, hrunning, hothers, fun a ha => ?_⟩
  rw [hlog']
  exact hdone i a ha

/-- What is kept for a list is that list. -/
theorem listOf_kept (hlawful : formats.Lawful) {store : Store} {list : List Issued} {bytes : Bytes}
    (h : kept formats store list = some bytes) : listOf formats store (some bytes) = some list := by
  obtain ⟨plain, hencode, hsigned⟩ := Option.bind_eq_some_iff.mp h
  rw [listOf, Option.bind_some, Store.verified]
  rw [Store.signed] at hsigned
  cases hsigning : store.signing with
  | none =>
      rw [hsigning] at hsigned
      cases hsigned
      exact hlawful.decode list _ hencode
  | some key =>
      rw [hsigning] at hsigned
      obtain ⟨payload, hcanonical, rfl⟩ := Option.map_eq_some_iff.mp hsigned
      simp only [hlawful.opened, if_true]
      exact hlawful.canonical list plain payload hencode hcanonical

/-- What a call that writes does to the list. -/
inductive Changed (job : Job) (mind : Mind) : Option (List Issued) →
    Option (List Issued) → Prop where
  | added {list : List Issued} {name : Text} {now : Nat} {hash : Text} :
      job = .create name → mind.drawn = some hash →
      Changed job mind (some list) (some (list ++ [⟨name, now, hash⟩]))
  | removed {list : List Issued} {name : Text} : job = .revoke name →
      Changed job mind (some list) (some (list.filter (·.name != name)))

/-- A list that was written while it was what the call read. -/
theorem changed_of_wants (hlawful : formats.Lawful) {job : Job} {mind : Mind} {bytes : Bytes}
    {w w' : Cluster} (hwants : Wants formats signing job mind bytes)
    (hread : mind.read = some (deployment.holds fileName w))
    (hholds : deployment.holds fileName w' = some bytes) :
    Changed job mind (listed formats signing deployment w)
      (listed formats signing deployment w') := by
  obtain ⟨c, list, hc, hlist, hjob⟩ := hwants
  rw [hread, Option.some.injEq] at hc
  have hbefore : listed formats signing deployment w = some list := by
    rw [listed, hc, hlist]
  rw [hbefore, listed, hholds]
  cases job with
  | create name =>
      obtain ⟨-, now, hash, hdrawn, hkept⟩ := hjob
      rw [listOf_kept hlawful hkept]
      exact .added rfl hdrawn
  | revoke name =>
      rw [listOf_kept hlawful hjob]
      exact .removed rfl

namespace Stepped

variable (h : Stepped formats signing deployment process known jobs i r answer before after)
include h

theorem log : after.state.2 = ⟨i, r, answer⟩ :: before.state.2 := h.served.2.1.2

theorem mind : mindOf formats i after.state.2 =
    (mindOf formats i before.state.2).next formats r answer := by
  rw [h.log]
  exact trail_own r answer before.state.2

theorem mind_other {j : ι} (hj : j ≠ i) :
    mindOf formats j after.state.2 = mindOf formats j before.state.2 := by
  rw [h.log]
  exact trail_other (Ne.symm hj) r answer before.state.2

/-- What a thread that writes has read is what the list is. -/
theorem current (hwrites : Writes r) : (mindOf formats i before.state.2).read =
    some (deployment.holds fileName before.state.1) :=
  (mindOf_read i before.state.2).trans (h.served.1 hwrites)

/-- **One step** leaves the list, or changes it as its call says. -/
theorem changed (hlawful : formats.Lawful) :
    listed formats signing deployment after.state.1 =
        listed formats signing deployment before.state.1 ∨
      Writes r ∧ Changed (jobs i) (mindOf formats i before.state.2)
        (listed formats signing deployment before.state.1)
        (listed formats signing deployment after.state.1) := by
  rcases h.orderly.writes h.may h.served.2 with hsame | ⟨bytes, hholds, hwrites, hwants⟩
  · exact Or.inl (by rw [listed, listed, hsame])
  · exact Or.inr ⟨hwrites, changed_of_wants hlawful hwants (h.current hwrites) hholds⟩

/-- What a call that returns wrote. -/
theorem returned {a : Option Text} (ha : after.progs i = .pure (.ok a)) :
    ∃ c list bytes, deployment.holds fileName before.state.1 = c ∧
      listOf formats ⟨.bucket, signing⟩ c = some list ∧
      deployment.holds fileName after.state.1 = some bytes ∧
      match jobs i with
      | .create name => ∃ now hash,
          kept formats ⟨.bucket, signing⟩ (list ++ [⟨name, now, hash⟩]) = some bytes ∧
            ∀ token, a = some token →
              start.isPrefixOf token = true ∧ hash = formats.digest token
      | .revoke name =>
          kept formats ⟨.bucket, signing⟩ (list.filter (·.name != name)) = some bytes := by
  obtain ⟨bytes, hhands, ⟨c, list, hread, hlist, hjob⟩, htoken⟩ := h.done a ha
  rw [h.log] at hhands hread hjob htoken
  obtain ⟨hholds, hwrites, hsame, -⟩ := h.orderly.wrote h.may h.served.2 hhands
  rw [hsame, h.current hwrites, Option.some.injEq] at hread
  refine ⟨c, list, bytes, hread, hlist, hholds, ?_⟩
  cases hcall : jobs i with
  | create name =>
      rw [hcall] at hjob
      obtain ⟨-, now, hash, hdrawn, hkept⟩ := hjob
      refine ⟨now, hash, hkept, fun token ha => ?_⟩
      obtain ⟨hstart, hdigest⟩ := htoken token ha
      rw [hdrawn, Option.some.injEq] at hdigest
      exact ⟨hstart, hdigest⟩
  | revoke name =>
      rw [hcall] at hjob
      exact hjob

/-- A token that is created is in the list. -/
theorem created (hlawful : formats.Lawful) {name token : Text} (hjob : jobs i = .create name)
    (ha : after.progs i = .pure (.ok (some token))) :
    start.isPrefixOf token = true ∧ ∃ list, listed formats signing deployment after.state.1 =
      some list ∧ ∃ e ∈ list, e.name = name ∧ e.hash = formats.digest token := by
  obtain ⟨c, list, bytes, -, -, hholds, hkept⟩ := h.returned ha
  rw [hjob] at hkept
  obtain ⟨now, hash, hkept, htoken⟩ := hkept
  obtain ⟨hstart, rfl⟩ := htoken token rfl
  refine ⟨hstart, list ++ [⟨name, now, formats.digest token⟩], ?_,
    ⟨name, now, formats.digest token⟩,
      List.mem_append_right _ (List.mem_singleton_self _), rfl, rfl⟩
  rw [listed, hholds, listOf_kept hlawful hkept]

/-- A name that is revoked is not in the list. -/
theorem revoked (hlawful : formats.Lawful) {name : Text} {a : Option Text}
    (hjob : jobs i = .revoke name) (ha : after.progs i = .pure (.ok a)) :
    ∃ list, listed formats signing deployment before.state.1 = some list ∧
      listed formats signing deployment after.state.1 =
        some (list.filter (·.name != name)) := by
  obtain ⟨c, list, bytes, hc, hlist, hholds, hkept⟩ := h.returned ha
  rw [hjob] at hkept
  exact ⟨list, by rw [listed, hc, hlist], by rw [listed, hholds, listOf_kept hlawful hkept]⟩

end Stepped

/-! ## A token stays -/

theorem authenticates_of_mem {token : Text} {list : List Issued} {e : Issued}
    (hstart : start.isPrefixOf token = true)
    (hlist : listed formats signing deployment w = some list) (he : e ∈ list)
    (hhash : e.hash = formats.digest token) :
    Authenticates formats signing deployment w token := by
  rw [Authenticates, registered, if_pos hstart, hlist, Option.bind_some, holderIn,
    List.find?_isSome]
  exact ⟨e, he, by simp [hhash]⟩

/-- A token of another name stays. -/
theorem Stepped.stays (hlawful : formats.Lawful)
    (h : Stepped formats signing deployment process known jobs i r answer before after)
    {list : List Issued} {e : Issued}
    (hlist : listed formats signing deployment before.state.1 = some list) (he : e ∈ list)
    (hname : jobs i ≠ .revoke e.name) :
    ∃ list', listed formats signing deployment after.state.1 = some list' ∧ e ∈ list' := by
  rcases h.changed hlawful with hsame | ⟨-, hchanged⟩
  · exact ⟨list, hsame.trans hlist, he⟩
  · rw [hlist] at hchanged
    generalize listed formats signing deployment after.state.1 = list' at hchanged
    cases hchanged with
    | added hjob hdrawn => exact ⟨_, rfl, List.mem_append_left _ he⟩
    | @removed _ name hjob =>
        refine ⟨_, rfl, List.mem_filter.mpr ⟨he, ?_⟩⟩
        rw [bne_iff_ne]
        rintro rfl
        exact hname hjob

/-- A step in which nobody goes on to revoke a name. -/
theorem Stepped.quiet {name : Text}
    (h : Stepped formats signing deployment process known jobs i r answer before after)
    (hstep : Pool.Step (restricted (fun j _ _ => jobs j ≠ .revoke name)
      (careful formats deployment process known)) before after) : jobs i ≠ .revoke name := by
  have hlog := h.log
  cases hstep with
  | @request j r' next answer' s' hprog hexec =>
      obtain ⟨hquiet, -, ⟨-, hlog'⟩, -⟩ := hexec
      have hthread : j = i := congrArg Event.thread (List.cons.inj (hlog'.symm.trans hlog)).1
      exact hthread ▸ hquiet

theorem step_of_quiet {name : Text}
    (h : Pool.Step (restricted (fun j _ _ => jobs j ≠ .revoke name)
      (careful formats deployment process known)) before after) :
    Pool.Step (careful formats deployment process known) before after := by
  cases h with
  | request j hprog hexec => exact .request j hprog hexec.2

/-- Once a call has returned, its token is in the list. -/
theorem stay_steps (hlawful : formats.Lawful)
    (hfound : Found formats signing deployment known w) {name token : Text}
    (hjob : jobs i = .create name)
    (hbefore : Pool.Steps (careful formats deployment process known)
      (calls formats signing deployment process jobs w) before)
    (hrunning : Running before i)
    (hsteps : Pool.Steps (restricted (fun j _ _ => jobs j ≠ .revoke name)
      (careful formats deployment process known)) before after)
    (hreturned : after.progs i = .pure (.ok (some token))) :
    start.isPrefixOf token = true ∧ ∃ list, listed formats signing deployment after.state.1 =
      some list ∧ ∃ e ∈ list, e.name = name ∧ e.hash = formats.digest token := by
  induction hsteps with
  | refl => exact absurd hreturned (hrunning _)
  | @tail mid last hsteps hstep ih =>
      have hreach := hbefore.trans
        (Relation.ReflTransGen.mono (fun _ _ => step_of_quiet) _ _ hsteps)
      obtain ⟨j, r, answer, hstepped⟩ := stepped hfound.tidy hreach (step_of_quiet hstep)
      by_cases hj : i = j
      · subst hj
        exact hstepped.created hlawful hjob hreturned
      · rw [hstepped.others i hj] at hreturned
        obtain ⟨hstart, list, hlist, e, he, hname, hhash⟩ := ih hreturned
        have hquiet : jobs j ≠ .revoke e.name := hname ▸ hstepped.quiet hstep
        obtain ⟨list', hlist', he'⟩ := hstepped.stays hlawful hlist he hquiet
        exact ⟨hstart, list', hlist', e, he', hname, hhash⟩

theorem stay (hlawful : formats.Lawful) (hfound : Found formats signing deployment known w) :
    Stay formats signing deployment jobs (careful formats deployment process known)
      (calls formats signing deployment process jobs w) := by
  intro before after i name token hjob hbefore hrunning hsteps hreturned
  obtain ⟨hstart, list, hlist, e, he, -, hhash⟩ :=
    stay_steps hlawful hfound hjob hbefore hrunning hsteps hreturned
  exact authenticates_of_mem hstart hlist he hhash

/-! ## A hash does not come back -/

/-- A thread that has written, or could not. -/
def Hands.Over : Hands → Prop
  | .wrote _ => True
  | .spent => True
  | _ => False

theorem Hands.Allows.not_over {hands : Hands} {number : Nat} {wants : Bytes → Prop}
    (h : hands.Allows deployment number wants r) : ¬ hands.Over := by
  intro hover
  cases r with
  | bucket r => cases r <;> first | (obtain ⟨-, -, rfl⟩ := h; exact hover) | exact h
  | staged =>
      obtain ⟨-, rfl⟩ := h
      exact hover
  | put key bytes =>
      obtain ⟨-, -, rfl, -⟩ := h
      exact hover
  | delete key => exact h
  | disk r =>
      cases r with
      | random count => exact absurd hover (by rw [show hands = .free from h]; exact id)
      | now => exact absurd hover (by rw [show hands = .free from h]; exact id)
      | createDirAll path => exact absurd hover (by rw [show hands = .free from h]; exact id)
      | openFile path =>
          obtain ⟨-, -, rfl⟩ := h
          exact hover
      | readAll file => exact absurd hover (by rw [show hands = .holding file from h]; exact id)
      | create path =>
          obtain ⟨-, n, rfl, -⟩ := h
          exact hover
      | write file bytes =>
          obtain ⟨-, n, rfl, -⟩ := h
          exact hover
      | rename source target =>
          obtain ⟨-, n, file, bytes, rfl, -⟩ := h
          exact hover
      | _ => exact h

/-- A write is the last a thread does. -/
theorem Hands.Allows.over {hands : Hands} {number : Nat} {wants : Bytes → Prop}
    (h : hands.Allows deployment number wants r) (hwrites : Writes r) :
    (hands.next r answer).Over := by
  cases r with
  | put key bytes => cases answer <;> trivial
  | disk r =>
      cases r with
      | rename source target =>
          obtain ⟨-, n, file, bytes, rfl, -⟩ := h
          cases answer <;> trivial
      | _ => cases hwrites
  | _ => cases hwrites

variable (formats known) in
/-- A hash that was known, or whose thread has written. -/
def Settled (hash : Text) (calls : Calls ι) : Prop :=
  (hash ∈ known ∨ hash ∈ drawn formats calls.state.2) ∧
    ∀ i, (mindOf formats i calls.state.2).drawn = some hash →
      (mindOf formats i calls.state.2).hands.Over

theorem mem_drawn {past : Past ι} {hash : Text} (h : (mindOf formats i past).drawn = some hash) :
    hash ∈ drawn formats past := by
  induction past with
  | nil => cases h
  | cons e past ih =>
      obtain ⟨j, r, answer⟩ := e
      have hcons : hash ∈ drawn formats past → hash ∈ drawn formats (⟨j, r, answer⟩ :: past) := by
        intro hmem
        rw [drawn, List.filterMap_cons]
        split
        · exact hmem
        · exact List.mem_cons_of_mem _ hmem
      by_cases hj : j = i
      · subst hj
        rw [mindOf, trail_own, Mind.next, Option.or_eq_some_iff] at h
        rcases h with hnew | ⟨-, hold⟩
        · exact List.mem_filterMap.mpr ⟨⟨j, r, answer⟩, List.mem_cons_self, hnew⟩
        · exact hcons (ih hold)
      · rw [mindOf, trail_other hj] at h
        exact hcons (ih h)

namespace Stepped

variable (h : Stepped formats signing deployment process known jobs i r answer before after)
include h

theorem drawn_mono {hash : Text} (hmem : hash ∈ drawn formats before.state.2) :
    hash ∈ drawn formats after.state.2 := by
  rw [h.log, drawn, List.filterMap_cons]
  split
  · exact hmem
  · exact List.mem_cons_of_mem _ hmem

/-- What is settled stays so: a draw is of another hash, and who has written asks no more. -/
theorem settled {hash : Text} (hsettled : Settled formats known hash before) :
    Settled formats known hash after := by
  obtain ⟨hknown, hover⟩ := hsettled
  refine ⟨hknown.imp_right h.drawn_mono, fun j hj => ?_⟩
  by_cases hij : j = i
  · subst hij
    exfalso
    rw [h.mind, Mind.next, Option.or_eq_some_iff] at hj
    rcases hj with hnew | ⟨-, hold⟩
    · obtain ⟨hnot, hnot'⟩ := h.served.2.2 hash hnew
      exact hknown.elim hnot hnot'
    · exact Hands.Allows.not_over h.may (hover j hold)
  · rw [h.mind_other hij] at hj ⊢
    exact hover j hj

/-- A hash that is added was not settled. -/
theorem not_settled {hash : Text} (hdrawn : (mindOf formats i before.state.2).drawn = some hash) :
    ¬ Settled formats known hash before :=
  fun hsettled => Hands.Allows.not_over h.may (hsettled.2 i hdrawn)

end Stepped

/-! ## The list is sane -/

variable (formats signing deployment known) in
/-- Every hash in the list stands once and is settled, and a hash is drawn by one thread. -/
structure Sane (calls : Calls ι) : Prop where
  nodup : ∀ list, listed formats signing deployment calls.state.1 = some list →
    (list.map Issued.hash).Nodup
  settled : ∀ list, listed formats signing deployment calls.state.1 = some list →
    ∀ e ∈ list, Settled formats known e.hash calls
  owner : ∀ i j hash, (mindOf formats i calls.state.2).drawn = some hash →
    (mindOf formats j calls.state.2).drawn = some hash → i = j

theorem drawnHash_of_writes (hwrites : Writes r) : drawnHash formats r answer = none := by
  cases r with
  | disk r => cases r <;> first | rfl | cases hwrites
  | _ => rfl

namespace Stepped

variable (h : Stepped formats signing deployment process known jobs i r answer before after)
include h

theorem owner (howner : ∀ a b hash, (mindOf formats a before.state.2).drawn = some hash →
      (mindOf formats b before.state.2).drawn = some hash → a = b) {a b : ι} {hash : Text}
    (ha : (mindOf formats a after.state.2).drawn = some hash)
    (hb : (mindOf formats b after.state.2).drawn = some hash) : a = b := by
  -- A hash that is drawn now was drawn by nobody before.
  have hnew : ∀ b, b ≠ i → (mindOf formats i after.state.2).drawn = some hash →
      (mindOf formats b before.state.2).drawn = some hash → i = b := by
    intro b hb hi hold
    rw [h.mind, Mind.next, Option.or_eq_some_iff] at hi
    rcases hi with hnew | ⟨-, hi⟩
    · exact absurd (mem_drawn hold) (h.served.2.2 hash hnew).2
    · exact howner i b hash hi hold
  by_cases hai : a = i
  · by_cases hbi : b = i
    · exact hai.trans hbi.symm
    · subst hai
      rw [h.mind_other hbi] at hb
      exact hnew b hbi ha hb
  · rw [h.mind_other hai] at ha
    by_cases hbi : b = i
    · subst hbi
      exact (hnew a hai hb ha).symm
    · rw [h.mind_other hbi] at hb
      exact howner a b hash ha hb

theorem sane (hlawful : formats.Lawful) (hsane : Sane formats signing deployment known before) :
    Sane formats signing deployment known after := by
  have howner : ∀ a b hash, (mindOf formats a after.state.2).drawn = some hash →
      (mindOf formats b after.state.2).drawn = some hash → a = b :=
    fun a b hash ha hb => h.owner hsane.owner ha hb
  rcases h.changed hlawful with hsame | ⟨hwrites, hchanged⟩
  · constructor
    case nodup =>
      rw [hsame]
      exact hsane.nodup
    case settled =>
      rw [hsame]
      exact fun list hlist e he => h.settled (hsane.settled list hlist e he)
    case owner => exact howner
  · have hnodup := hsane.nodup
    have hsettled := hsane.settled
    constructor
    case owner => exact howner
    case nodup =>
      intro list' hlist'
      rw [hlist'] at hchanged
      generalize listed formats signing deployment before.state.1 = list at hchanged hnodup hsettled
      cases hchanged with
      | @added list name now hash hjob hdrawn =>
          rw [List.map_append, List.nodup_append]
          refine ⟨hnodup list rfl, List.nodup_singleton _, ?_⟩
          rintro _ hmem _ hlast rfl
          obtain ⟨e, he, rfl⟩ := List.mem_map.mp hmem
          rw [List.map_singleton, List.mem_singleton] at hlast
          exact h.not_settled (hlast ▸ hdrawn) (hsettled list rfl e he)
      | removed hjob => exact (hnodup _ rfl).sublist (List.filter_sublist.map _)
    case settled =>
      intro list' hlist' e he
      rw [hlist'] at hchanged
      generalize listed formats signing deployment before.state.1 = list at hchanged hsettled
      cases hchanged with
      | @added list name now hash hjob hdrawn =>
          rcases List.mem_append.mp he with hold | hlast
          · exact h.settled (hsettled list rfl e hold)
          · rw [List.mem_singleton] at hlast
            subst hlast
            refine ⟨Or.inr (h.drawn_mono (mem_drawn hdrawn)), fun j hj => ?_⟩
            have hi : (mindOf formats i after.state.2).drawn = some hash := by
              rw [h.mind, Mind.next, drawnHash_of_writes hwrites, Option.none_or, hdrawn]
            obtain rfl := howner j i hash hj hi
            rw [h.mind]
            exact Hands.Allows.over h.may hwrites
      | removed hjob =>
          exact h.settled (hsettled _ rfl e (List.mem_of_mem_filter he))

end Stepped

theorem sane_start (hfound : Found formats signing deployment known w) :
    Sane formats signing deployment known (calls formats signing deployment process jobs w) where
  nodup := hfound.nodup
  settled list hlist e he := ⟨Or.inl (hfound.known list hlist e he), fun i hi => by cases hi⟩
  owner i j hash hi := by cases hi

theorem sane_steps (hlawful : formats.Lawful)
    (hfound : Found formats signing deployment known w)
    (hsteps : Pool.Steps (careful formats deployment process known)
      (calls formats signing deployment process jobs w) before) :
    Sane formats signing deployment known before := by
  induction hsteps with
  | refl => exact sane_start hfound
  | tail hsteps hstep ih =>
      obtain ⟨i, r, answer, h⟩ := stepped hfound.tidy hsteps hstep
      exact h.sane hlawful ih

/-! ## A token goes -/

/-- Once its name was revoked, a hash is gone. -/
theorem go_steps (hlawful : formats.Lawful) (hfound : Found formats signing deployment known w)
    {name : Text} {e : Issued} {list : List Issued} (hjob : jobs i = .revoke name)
    (hbefore : Pool.Steps (careful formats deployment process known)
      (calls formats signing deployment process jobs w) before)
    (hrunning : Running before i)
    (hlist : listed formats signing deployment before.state.1 = some list) (he : e ∈ list)
    (hname : e.name = name)
    (hsteps : Pool.Steps (careful formats deployment process known) before after) :
    Settled formats known e.hash after ∧
      ∀ list', listed formats signing deployment after.state.1 = some list' →
        ∀ e' ∈ list', e'.hash = e.hash →
          e'.name = name ∧ ∀ a, after.progs i ≠ .pure (.ok a) := by
  have hsane := sane_steps hlawful hfound hbefore
  induction hsteps with
  | refl =>
      refine ⟨hsane.settled list hlist e he, fun list' hlist' e' he' hhash => ?_⟩
      rw [hlist, Option.some.injEq] at hlist'
      subst hlist'
      have hsame := List.inj_on_of_nodup_map (hsane.nodup list hlist) he' he hhash
      exact ⟨hsame ▸ hname, fun a => hrunning _⟩
  | @tail mid last hsteps hstep ih =>
      obtain ⟨hsettled, hgone⟩ := ih
      obtain ⟨j, r, answer, h⟩ := stepped hfound.tidy (hbefore.trans hsteps) hstep
      refine ⟨h.settled hsettled, fun list' hlist' e' he' hhash => ?_⟩
      -- What has the hash was there before.
      have hold : ∃ list, listed formats signing deployment mid.state.1 = some list ∧
          e' ∈ list := by
        rcases h.changed hlawful with hsame | ⟨-, hchanged⟩
        · exact ⟨list', hsame.symm.trans hlist', he'⟩
        · rw [hlist'] at hchanged
          generalize listed formats signing deployment mid.state.1 = list at hchanged
          cases hchanged with
          | @added list name' now hash hjob' hdrawn =>
              rcases List.mem_append.mp he' with hold | hlast
              · exact ⟨list, rfl, hold⟩
              · rw [List.mem_singleton] at hlast
                subst hlast
                exact absurd hsettled (h.not_settled (hhash ▸ hdrawn))
          | removed hjob' => exact ⟨_, rfl, List.mem_of_mem_filter he'⟩
      obtain ⟨old, hold, he⟩ := hold
      obtain ⟨hname', hrunning'⟩ := hgone old hold e' he hhash
      refine ⟨hname', fun a ha => ?_⟩
      by_cases hij : i = j
      · subst hij
        obtain ⟨list, hlist, hrevoked⟩ := h.revoked hlawful hjob ha
        rw [hlist', Option.some.injEq] at hrevoked
        rw [hrevoked, List.mem_filter, bne_iff_ne] at he'
        exact he'.2 hname'
      · rw [h.others i hij] at ha
        exact hrunning' a ha

theorem go (hlawful : formats.Lawful) (hfound : Found formats signing deployment known w) :
    Go formats signing deployment jobs (careful formats deployment process known)
      (calls formats signing deployment process jobs w) := by
  intro before after i name token e hjob hbefore hrunning hregistered hname hsteps hreturned hafter
  rw [registered] at hregistered
  split at hregistered
  case isFalse => cases hregistered
  case isTrue hstart =>
    obtain ⟨list, hlist, hheld⟩ := Option.bind_eq_some_iff.mp hregistered
    have he := List.mem_of_find?_eq_some hheld
    have hhash : e.hash = formats.digest token := by simpa using List.find?_some hheld
    rw [Authenticates, registered, if_pos hstart] at hafter
    obtain ⟨e', hfind⟩ := Option.isSome_iff_exists.mp hafter
    obtain ⟨list', hlist', hheld'⟩ := Option.bind_eq_some_iff.mp hfind
    have he' := List.mem_of_find?_eq_some hheld'
    have hhash' : e'.hash = formats.digest token := by simpa using List.find?_some hheld'
    obtain ⟨-, hgone⟩ := go_steps hlawful hfound hjob hbefore hrunning hlist he hname hsteps
    exact (hgone list' hlist' e' he' (hhash'.trans hhash.symm)).2 none hreturned

/-- **Tokens are neither lost nor resurrected** as long as every call writes the list while the
store still holds what it read. -/
theorem tokens_kept (hlawful : formats.Lawful)
    (hfound : Found formats signing deployment known w) :
    Stay formats signing deployment jobs (careful formats deployment process known)
        (calls formats signing deployment process jobs w) ∧
      Go formats signing deployment jobs (careful formats deployment process known)
        (calls formats signing deployment process jobs w) :=
  ⟨stay hlawful hfound, go hlawful hfound⟩

end

/-! ### Two calls at once -/

/-- The secret of a token there was. -/
def older : Bytes := List.replicate 32 1

/-- The secret that is drawn next. -/
def newer : Bytes := List.replicate 32 0

def utf8 (text : Text) : Bytes := text.flatMap String.utf8EncodeChar

/-- The token of a secret, as the crate encodes it. -/
def sampleToken (secret : Bytes) : Text := start ++ Base64.encodeUrl secret

/-- SHA-256 of the two tokens, and the start of anything else. -/
def tokenDigest (bytes : Bytes) : Fixed 32 :=
  if bytes = utf8 (sampleToken newer) then
    ⟨[0xdb, 0x37, 0xe3, 0x8f, 0x3f, 0x0a, 0xa7, 0xf9, 0x3f, 0x9d, 0x0d,
      0xce, 0x0c, 0x08, 0xf6, 0x67, 0x22, 0x16, 0xac, 0xb1, 0x3c, 0x9c,
      0xaf, 0x3b, 0xfb, 0xc4, 0x7d, 0xf2, 0xb4, 0x6c, 0xa6, 0xf9], rfl⟩
  else if bytes = utf8 (sampleToken older) then
    ⟨[0xdc, 0xbe, 0x29, 0x4d, 0x80, 0x19, 0xd6, 0x13, 0xf0, 0x74, 0x94,
      0x6a, 0x2c, 0x57, 0x28, 0x28, 0xaf, 0xe3, 0xa9, 0xa7, 0x76, 0x4f,
      0x11, 0xad, 0xb9, 0x61, 0xfe, 0xeb, 0x93, 0x2d, 0x80, 0xd5], rfl⟩
  else ⟨(bytes ++ List.replicate 32 0).take 32, length_padded bytes⟩

/-- What `serde_json::to_vec_pretty` prints for a token. -/
def printedOne (e : Issued) : Text :=
  "  \x7b\n    \"name\": \"".toList ++ e.name ++ "\",\n    \"created\": ".toList ++
    Storage.decimal e.created ++ ",\n    \"hash\": \"".toList ++ e.hash ++ "\"\n  \x7d".toList

def printed : List Issued → Bytes
  | [] => utf8 "[]".toList
  | list => utf8 ("[\n".toList ++ List.intercalate ",\n".toList (list.map printedOne) ++
    "\n]".toList)

/-- A payload, with its length before it, and its MAC. -/
def sampleSigning : Meta.Signing where
  canonical := some
  mac _ _ payload := payload.take 32
  envelope payload signature :=
    List.replicate payload.length 1 ++ 0 :: (payload ++ signature)
  opened bytes :=
    let length := (bytes.takeWhile (· == 1)).length
    let rest := bytes.drop (length + 1)
    some (rest.take length, rest.drop length)

theorem opened_sampleSigning (payload signature : Bytes) :
    sampleSigning.opened (sampleSigning.envelope payload signature) =
      some (payload, signature) := by
  have htake : (sampleSigning.envelope payload signature).takeWhile (· == 1) =
      List.replicate payload.length 1 := by
    simp [sampleSigning]
  simp only [sampleSigning] at htake ⊢
  simp [htake, List.drop_append]

/-- What is printed of the lists in `listing`, read back. -/
def sampleFormats (listing : List (List Issued)) : Formats where
  encode list := if list ∈ listing then some (printed list) else none
  decode bytes := listing.find? (printed · == bytes)
  signing := sampleSigning
  sha256 := tokenDigest
  base64 := .unpadded

/-- A token there was, `old`, and one that is made, `new`. -/
def oldToken : Issued := ⟨"old".toList, 0, (sampleFormats []).digest (sampleToken older)⟩

def newToken : Issued := ⟨"new".toList, 0, (sampleFormats []).digest (sampleToken newer)⟩

def sample : Formats := sampleFormats [[oldToken], [oldToken, newToken], [newToken], []]

theorem lawful_sample : sample.Lawful := by
  have hdecode : ∀ list bytes, sample.encode list = some bytes →
      sample.decode bytes = some list := by
    intro list bytes hencode
    simp only [sample, sampleFormats, Option.ite_none_right_eq_some, Option.some.injEq] at hencode ⊢
    obtain ⟨hmem, rfl⟩ := hencode
    revert list
    decide +kernel
  exact {
    decode := hdecode
    canonical := by
      rintro list bytes payload hencode ⟨⟩
      exact hdecode list bytes hencode
    opened := opened_sampleSigning }

/-- A request that may change the list, decided. -/
def writes : Req → Bool
  | .disk (.rename _ _) => true
  | .put _ _ => true
  | _ => false

theorem writes_iff (r : Req) : writes r = true ↔ Writes r := by
  cases r with
  | disk r => cases r <;> simp [writes, Writes]
  | _ => simp [writes, Writes]

instance : DecidablePred Writes := fun r =>
  decidable_of_iff (writes r = true) (writes_iff r)

instance (deployment : Deployment) (i : Bool) (r : Req) (w : Cluster × Past Bool) :
    Decidable (Current deployment i r w) :=
  inferInstanceAs (Decidable (Writes r → _))

/-- One replica makes a token, and the other revokes the one there was. -/
def jobsOf (i : Bool) : Job := if i then .revoke "old".toList else .create "new".toList

def replicas (i : Bool) : Process := ⟨1, if i then 1 else 0⟩

/-- A bucket with the token there was. -/
def oneToken : Cluster :=
  ⟨⟨fun _ => 0, .empty, Shelves.Shelf.empty.put (keyOf fileName) (printed [oldToken]) "0".toList
    (List.not_mem_nil)⟩, fun _ => 0⟩

def scene : Calls Bool := calls sample none .bucket replicas jobsOf oneToken

theorem found_scene : Found sample none .bucket [oldToken.hash] oneToken := by
  have hlisted : listed sample none .bucket oneToken = some [oldToken] := by decide +kernel
  refine ⟨?_, ?_, fun h => nomatch h⟩
  · rw [hlisted]
    rintro _ ⟨⟩
    exact List.nodup_singleton _
  · rw [hlisted]
    rintro _ ⟨⟩ e he
    exact List.mem_map_of_mem he

/-- A bucket that refuses nothing. -/
def answering (i : Bool) (r : Req) (w : Cluster × Past Bool) :
    Option (Resp r × (Cluster × Past Bool)) :=
  (Meta.respond replicas i r w.1.store).bind fun answered =>
    if (drawnHash sample r answered.1).all fun hash =>
        decide (hash ∉ [oldToken.hash] ∧ hash ∉ drawn sample w.2) then
      some (answered.1, (⟨answered.2, w.1.lives⟩, ⟨i, r, answered.1⟩ :: w.2))
    else none

theorem answering_serves (i : Bool) (r : Req) (w : Cluster × Past Bool)
    (answered : Resp r × (Cluster × Past Bool)) (h : answering i r w = some answered) :
    serves sample .bucket replicas [oldToken.hash] i r w answered.1 answered.2 := by
  obtain ⟨given, hgiven, h⟩ := Option.bind_eq_some_iff.mp h
  split at h
  case isFalse => cases h
  case isTrue hfresh =>
    cases h
    refine ⟨⟨⟨Meta.respond_serves _ i r w.1.store given hgiven, rfl⟩, rfl⟩, fun hash hdrawn => ?_⟩
    rw [hdrawn, Option.all_some, decide_eq_true_eq] at hfresh
    exact hfresh

/-- The same, for calls that write the list while it is still what they read. -/
def mindful (i : Bool) (r : Req) (w : Cluster × Past Bool) :
    Option (Resp r × (Cluster × Past Bool)) :=
  if Current .bucket i r w then answering i r w else none

/-- One call after the other. -/
theorem tokens_kept_apart :
    ∃ pool, Pool.Steps (careful sample .bucket replicas [oldToken.hash]) scene pool ∧
      pool.progs false = .pure (.ok (some (sampleToken newer))) ∧
      Authenticates sample none .bucket pool.state.1 (sampleToken newer) ∧
      pool.progs true = .pure (.ok none) ∧
      ¬ Authenticates sample none .bucket pool.state.1 (sampleToken older) := by
  have hplayed : (scene.play mindful [false, false, false, false, true, true]).any
      (fun pool => (pool.progs false).result = some (.ok (some (sampleToken newer))) ∧
        (pool.progs true).result = some (.ok none)) = true := by
    decide +kernel
  obtain ⟨pool, hplay, hlast⟩ := (Option.any_eq_true _ _).mp hplayed
  obtain ⟨hcreated, hrevoked⟩ := of_decide_eq_true hlast
  have hexec : ∀ i r w answered, mindful i r w = some answered →
      restricted (fun j _ _ => jobsOf j ≠ .revoke "new".toList)
        (careful sample .bucket replicas [oldToken.hash]) i r w answered.1 answered.2 := by
    intro i r w answered h
    obtain ⟨hcurrent, h⟩ := Option.ite_none_right_eq_some.mp h
    exact ⟨by cases i <;> decide, hcurrent, answering_serves i r w answered h⟩
  have hsteps := Pool.play_steps hexec hplay
  have hall : Pool.Steps (careful sample .bucket replicas [oldToken.hash]) scene pool :=
    Relation.ReflTransGen.mono (fun _ _ => step_of_quiet) _ _ hsteps
  have hlaws : Stay sample none .bucket jobsOf (careful sample .bucket replicas [oldToken.hash])
      scene ∧
      Go sample none .bucket jobsOf (careful sample .bucket replicas [oldToken.hash]) scene :=
    tokens_kept lawful_sample found_scene
  obtain ⟨hstay, hgo⟩ := hlaws
  have hdone := Program.eq_pure_of_result hcreated
  have hdone' := Program.eq_pure_of_result hrevoked
  exact ⟨pool, hall, hdone,
    hstay scene pool false "new".toList (sampleToken newer) rfl .refl (by rintro _ ⟨⟩) hsteps hdone,
    hdone',
    hgo scene pool true "old".toList (sampleToken older) oldToken rfl .refl (by rintro _ ⟨⟩)
      (by decide +kernel) rfl hall hdone'⟩

/-- Both read the list before either writes it.  If the revocation writes last, the token that
was made is lost, and if it writes first, the one it revoked is back. -/
theorem tokens_lost :
    ¬ Stay sample none .bucket jobsOf (serves sample .bucket replicas [oldToken.hash]) scene ∧
      ¬ Go sample none .bucket jobsOf (serves sample .bucket replicas [oldToken.hash]) scene := by
  constructor
  · intro hstay
    have hplayed : (scene.play answering [false, true, false, false, false, true]).any
        (fun pool => (pool.progs false).result = some (.ok (some (sampleToken newer))) ∧
          registered sample none .bucket pool.state.1 (sampleToken newer) = none) = true := by
      decide +kernel
    obtain ⟨pool, hplay, hlast⟩ := (Option.any_eq_true _ _).mp hplayed
    obtain ⟨hreturned, hlost⟩ := of_decide_eq_true hlast
    have hexec : ∀ i r w answered, answering i r w = some answered →
        restricted (fun j _ _ => jobsOf j ≠ .revoke "new".toList)
          (serves sample .bucket replicas [oldToken.hash]) i r w answered.1 answered.2 :=
      fun i r w answered h => ⟨by cases i <;> decide, answering_serves i r w answered h⟩
    have hsteps := Pool.play_steps hexec hplay
    have hheld := hstay scene pool false "new".toList (sampleToken newer) rfl .refl
      (by rintro _ ⟨⟩) hsteps (Program.eq_pure_of_result hreturned)
    rw [Authenticates, hlost] at hheld
    cases hheld
  · intro hgo
    have hplayed : (scene.play answering [true, false, true, false, false, false]).any
        (fun pool => (pool.progs true).result = some (.ok none) ∧
          registered sample none .bucket pool.state.1 (sampleToken older) =
            some oldToken) = true := by
      decide +kernel
    obtain ⟨pool, hplay, hlast⟩ := (Option.any_eq_true _ _).mp hplayed
    obtain ⟨hreturned, hback⟩ := of_decide_eq_true hlast
    have hgone := hgo scene pool true "old".toList (sampleToken older) oldToken rfl .refl
      (by rintro _ ⟨⟩) (by decide +kernel) rfl (Pool.play_steps answering_serves hplay)
      (Program.eq_pure_of_result hreturned)
    rw [Authenticates, hback] at hgone
    exact hgone rfl

end Lfsx.Console.Tokens
