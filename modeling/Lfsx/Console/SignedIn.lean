import Lfsx.Console.SignIn

/-!
# What a sign-in rests on

Sign-ins, views, sign-outs, and tokens that are created and revoked, on any number of processes
and any number of them at once.  Requests may be refused, calls may be dropped wherever they
wait, and the forge may say anything.

What a call made of its answers is read off its program (`signIn_told`, `viewer_told`), and what
the answers rest on is kept by every request: a token of a session is the one it was opened for
(`Kept`).
-/

namespace Lfsx.Console.SignIn

open Request
open Meta (MetaError Process Deployment Cluster)
open Tokens (Issued Refusal)

/-! ## A deployment -/

/-- Servers over one store. -/
structure Setup where
  formats : Formats
  deployment : Deployment
  signing : Option (Fixed 32)
  admins : Option Namespace
  /-- The session key. -/
  key : Bytes

namespace Setup

variable (setup : Setup)

def server (p : Process) : Server where
  formats := setup.formats
  store := ⟨setup.deployment.backend p, setup.signing⟩
  admins := setup.admins

/-- The list is loaded alike in every process. -/
def load : Fallible Failed Req Resp (List Issued) := (setup.server ⟨0, 0⟩).load

theorem server_load (p : Process) : (setup.server p).load = setup.load := by
  rw [load, server, server]
  cases setup.deployment <;> rfl

end Setup

abbrev Asked := Cached.Ask Req (List Issued)

abbrev Told := Answered Asked (Cached.Reply Resp (List Issued))

variable {ι : Type} [DecidableEq ι]

abbrev World (ι : Type) := Cached.World ι Process (List Issued) Desk

abbrev Past (ι : Type) := Cached.Past ι Resp (List Issued)

/-- What a call of a process is answered, with everything written down. -/
def serves (setup : Setup) (process : ι → Process) :
    ι → Semantics Asked (Cached.Reply Resp (List Issued)) (World ι × Past ι) :=
  recording (Cached.serves (desk setup.formats.base64 setup.deployment process setup.key) process)

/-- Calls, on processes that have just started. -/
def start (setup : Setup) (process : ι → Process) (calls : ι → Call) (store : Cluster)
    (drawn : List Text) (clock : Nat) :
    Pool ι Asked (Cached.Reply Resp (List Issued)) (Except Failed Outcome) (World ι × Past ι) :=
  ⟨fun i => ((calls i).op (setup.server (process i))).run,
    (⟨⟨store, fun _ _ => none, drawn, clock⟩, fun _ => .empty, []⟩, [])⟩

/-! ## The lists -/

section Idle

variable {load : Fallible Failed Req Resp (List Issued)} {α β : Type}

/-- An operation that begins and ends without the lock of the list. -/
abbrev Idle (load : Fallible Failed Req Resp (List Issued)) (op : Op α) : Prop :=
  op.Follows (Cached.protocol load) (fun _ phase => phase = .idle) .idle

theorem Idle.bind {op : Op α} {f : α → Op β} (h : Idle load op) (hf : ∀ a, Idle load (f a)) :
    Idle load (op >>= f) := by
  refine Fallible.Follows.bind h ?_ fun _ _ hphase => hphase
  rintro a phase rfl
  exact hf a

theorem Idle.attempt {op : Op α} {f : Except Failed α → Op β} (h : Idle load op)
    (hf : ∀ answer, Idle load (f answer)) : Idle load (op.attempt >>= f) := by
  refine Fallible.Follows.attempt h ?_
  rintro answer phase rfl
  exact hf answer

theorem Idle.pure {a : α} : Idle load (Pure.pure a : Op α) := Fallible.Follows.pure rfl

theorem Idle.throw {e : Failed} : Idle load (throw e : Op α) := Fallible.Follows.throw rfl

theorem Idle.ofExcept {answer : Except Failed α} : Idle load (Fallible.ofExcept answer : Op α) :=
  Fallible.Follows.ofExcept rfl

theorem Idle.outer {op : Fallible Failed Req Resp α} : Idle load (Cached.outer op : Op α) :=
  Cached.outer_follows op

variable {server : Server}

theorem idle_holder (token : Text) : Idle server.load (server.holder token) := by
  rw [Server.holder]
  split
  · exact .pure
  · exact .bind Cached.get_follows fun _ => .pure

theorem idle_forgeAdmin (token : Text) : Idle load (server.forgeAdmin token) := by
  rw [Server.forgeAdmin]
  split
  · exact .throw
  · split
    · exact .throw
    · refine .bind .outer fun permission => ?_
      split
      · exact .throw
      · exact .bind .outer fun _ => .pure

theorem idle_stillAdmin (id : Text) (viewer : Viewer) :
    Idle load (server.stillAdmin id viewer) := by
  refine .bind .outer fun token => ?_
  split
  · exact .pure
  · refine .attempt (idle_forgeAdmin _) fun answer => ?_
    split
    · split
      · exact .pure
      · exact .bind .outer fun _ => .pure
    · exact .bind .outer fun _ => .pure
    · exact .bind .outer fun _ => .pure
    · exact .throw

theorem idle_openCookie (key : Bytes) (cookie : Text) :
    Idle load (server.openCookie key cookie) := by
  rw [Server.openCookie]
  split
  · exact .pure
  · exact .bind .outer fun _ => .pure

theorem idle_viewer (headers : List Bytes) : Idle server.load (server.viewer headers) := by
  rw [Server.viewer]
  split
  · exact .pure
  · refine .bind .outer fun key => .bind (idle_openCookie key _) fun claims => ?_
    split
    · exact .pure
    · rw [Server.stands]
      split
      · exact idle_stillAdmin _ _
      · exact .pure
      · refine .bind (.bind Cached.get_follows fun _ => .pure) fun still => ?_
        split
        · exact .pure
        · exact .pure
      · exact .pure

theorem idle_signIn (token : Text) : Idle server.load (server.signIn token) := by
  refine .bind (.bind (idle_holder _) fun held => ?_) fun admitted => ?_
  · split
    · exact .pure
    · exact .bind (idle_forgeAdmin _) fun _ => .bind .outer fun _ => .pure
  · refine .bind .outer fun key => .bind (.bind .outer fun now => ?_) fun _ => .pure
    split
    · exact .pure
    · exact .throw

theorem idle_signOut (headers : List Bytes) : Idle load (server.signOut headers) := by
  refine .attempt .outer fun key => ?_
  split
  · refine .bind (idle_openCookie _ _) fun claims => ?_
    split
    · exact .bind .outer fun _ => .pure
    · exact .pure
  · exact .pure

/-- Every call begins and ends without the lock. -/
theorem idle_call (call : Call) : Idle server.load (call.op server) := by
  cases call with
  | signIn token => exact .bind (idle_signIn token) fun _ => .pure
  | viewer headers => exact .bind (idle_viewer headers) fun _ => .pure
  | signOut headers => exact .bind (idle_signOut headers) fun _ => .pure
  | create name =>
      exact .bind (.attempt .outer fun _ => .bind Cached.invalidate_follows fun _ => .ofExcept)
        fun _ => .pure
  | revoke name =>
      exact .bind (.attempt .outer fun _ => .bind Cached.invalidate_follows fun _ => .ofExcept)
        fun _ => .pure

end Idle

/-! ## What a call was told -/

section Read

variable {told : List Told} {α β : Type}

/-- A request whose error is another one to the call. -/
theorem asked_told {ε : Type} {r : Req} {h : Resp r = Except ε α} {g : ε → Failed} {a : α}
    (htold : (Cached.outer ((Fallible.ask r h : Fallible ε Req Resp α).mapError g) : Op α).Told
      told (.ok a)) : told = [⟨.outer r, cast h.symm (.ok a)⟩] := by
  obtain ⟨given, after, rfl, hafter⟩ := Program.Told.request_inv htold
  obtain ⟨rfl, heq⟩ := Program.Told.pure_inv hafter
  have hgiven : cast h given = .ok a := by
    cases hcast : cast h given with
    | ok b =>
        rw [hcast] at heq
        cases heq
        rfl
    | error e =>
        rw [hcast] at heq
        cases heq
  rw [← hgiven, cast_cast, cast_eq]
  rfl

/-- One request, and what followed it. -/
theorem certain_told {r : Req} {f : Resp r → Op β} {b : β}
    (h : (certain r >>= f).Told told (.ok b)) :
    ∃ answer after, told = after ++ [⟨.outer r, answer⟩] ∧ (f answer).Told after (.ok b) :=
  Fallible.Told.issue_inv h

variable {server : Server} {token name : Text} {viewer : Viewer} {issued : Option Text}

/-- The forge calls a token an admin's. -/
structure Admin (token login : Text) (told : List Told) : Prop where
  permission : (⟨.outer (.permission token), .ok .admin⟩ : Told) ∈ told
  actor : (⟨.outer (.actor token), .ok login⟩ : Told) ∈ told

theorem forgeAdmin_told (h : (server.forgeAdmin token).Told told (.ok viewer)) :
    ∃ login, viewer = .forge login ∧ Admin token login told := by
  rw [Server.forgeAdmin] at h
  split at h
  · cases (Fallible.Told.throw_inv h).2
  · split at h
    · cases (Fallible.Told.throw_inv h).2
    · obtain ⟨permission, before, after, rfl, hbefore, hafter⟩ := Fallible.Told.bind_ok h
      obtain rfl := asked_told hbefore
      split at hafter
      · cases (Fallible.Told.throw_inv hafter).2
      · rename_i hadmin
        obtain rfl := not_not.mp hadmin
        obtain ⟨login, before', after', rfl, hbefore', hafter'⟩ := Fallible.Told.bind_ok hafter
        obtain rfl := asked_told hbefore'
        obtain ⟨rfl, hviewer⟩ := Fallible.Told.pure_inv hafter'
        cases hviewer
        exact ⟨login, rfl, by simp, by simp⟩

/-- A list that was got along the way. -/
def Got (server : Server) (list : List Issued) (told : List Told) : Prop :=
  ∃ told', told' ⊆ told ∧ server.all.Told told' (.ok list)

/-- What a token was let in by. -/
inductive Admitted (server : Server) (token : Text) (told : List Told) :
    Viewer → Option Text → Prop where
  | token {list : List Issued} {e : Issued} : Got server list told → e ∈ list →
      e.hash = server.formats.tokens.digest token →
      Admitted server token told (.token e.name) (some e.hash)
  | forge {login id : Text} : Admin token login told →
      (⟨.outer (.openSession token (nanoseconds lifetime)), id⟩ : Told) ∈ told →
      Admitted server token told (.forge login) (some id)

theorem Got.mono {list : List Issued} {told' : List Told} (h : Got server list told)
    (hsub : told ⊆ told') : Got server list told' := by
  obtain ⟨inner, hinner, htold⟩ := h
  exact ⟨inner, fun a ha => hsub (hinner ha), htold⟩

theorem Admin.mono {login : Text} {told' : List Told} (h : Admin token login told)
    (hsub : told ⊆ told') : Admin token login told' :=
  ⟨hsub h.permission, hsub h.actor⟩

theorem holder_told {held : Option Issued} (h : (server.holder token).Told told (.ok held)) :
    ∀ e, held = some e → ∃ list, Got server list told ∧ e ∈ list ∧
      e.hash = server.formats.tokens.digest token := by
  rintro e rfl
  rw [Server.holder] at h
  split at h
  · cases (Fallible.Told.pure_inv h).2
  · obtain ⟨list, before, after, rfl, hbefore, hafter⟩ := Fallible.Told.bind_ok h
    obtain ⟨rfl, heq⟩ := Fallible.Told.pure_inv hafter
    have hfind : Tokens.holderIn server.formats.tokens list token = some e :=
      (Except.ok.inj heq).symm
    refine ⟨list, ⟨before, by simp, hbefore⟩, List.mem_of_find?_eq_some hfind, ?_⟩
    simpa using List.find?_some hfind

theorem admitted_told (h : (server.admitted token).Told told (.ok (viewer, issued))) :
    Admitted server token told viewer issued := by
  obtain ⟨held, before, after, rfl, hbefore, hafter⟩ := Fallible.Told.bind_ok h
  cases held with
  | some e =>
      obtain ⟨rfl, heq⟩ := Fallible.Told.pure_inv hafter
      cases heq
      obtain ⟨list, hgot, he, hhash⟩ := holder_told hbefore e rfl
      exact .token (hgot.mono (by simp)) he hhash
  | none =>
      obtain ⟨who, middle, after', rfl, hmiddle, hafter'⟩ := Fallible.Told.bind_ok hafter
      obtain ⟨login, rfl, hadmin⟩ := forgeAdmin_told hmiddle
      obtain ⟨id, after'', rfl, hafter''⟩ := certain_told hafter'
      obtain ⟨rfl, heq⟩ := Fallible.Told.pure_inv hafter''
      cases heq
      exact .forge (hadmin.mono (by simp)) (by simp)

/-- What a cookie was sealed with. -/
structure SealedAs (server : Server) (token : Text) (told : List Told) (cookie : Text)
    (viewer : Viewer) (issued : Option Text) (now : Int) : Prop where
  admitted : Admitted server token told viewer issued
  signed : ∃ key printed, (⟨.outer .key, .ok key⟩ : Told) ∈ told ∧
    server.formats.encode ⟨viewer, issued, now + lifetime⟩ = some printed ∧
    cookie = server.formats.sealedText key printed
  when : (⟨.outer .now, now⟩ : Told) ∈ told

theorem signIn_told {cookie : Text} (h : (server.signIn token).Told told (.ok (cookie, viewer))) :
    ∃ issued now, SealedAs server (trim isBlank token) told cookie viewer issued now := by
  obtain ⟨⟨who, issued⟩, before, after, rfl, hbefore, hafter⟩ := Fallible.Told.bind_ok h
  have hadmitted := admitted_told hbefore
  obtain ⟨key, middle, after', rfl, hmiddle, hafter'⟩ := Fallible.Told.bind_ok hafter
  obtain rfl := asked_told hmiddle
  obtain ⟨text, first, second, rfl, hfirst, hsecond⟩ := Fallible.Told.bind_ok hafter'
  obtain ⟨rfl, heq⟩ := Fallible.Told.pure_inv hsecond
  cases heq
  obtain ⟨now, third, rfl, hthird⟩ := certain_told hfirst
  split at hthird
  · rename_i printed hprinted
    obtain ⟨rfl, heq⟩ := Fallible.Told.pure_inv hthird
    cases heq
    refine ⟨issued, now, ?_, ⟨key, printed, by simp, hprinted, rfl⟩, by simp⟩
    cases hadmitted with
    | token hgot he hhash => exact .token (hgot.mono (by simp)) he hhash
    | forge hadmin hopened => exact .forge (hadmin.mono (by simp)) (by simp [hopened])
  · cases (Fallible.Told.throw_inv hthird).2

/-- What claims stand on when they are let through. -/
inductive Stands (server : Server) (told : List Told) : Viewer → Option Text → Prop where
  | token {name hash : Text} {list : List Issued} {e : Issued} : Got server list told → e ∈ list →
      e.hash = hash → Stands server told (.token name) (some hash)
  | forge {login id token : Text} : (⟨.outer (.sessionToken id), some token⟩ : Told) ∈ told →
      Admin token login told → Stands server told (.forge login) (some id)

theorem Stands.mono {told' : List Told} (h : Stands server told viewer issued)
    (hsub : told ⊆ told') : Stands server told' viewer issued := by
  cases h with
  | token hgot he hhash => exact .token (hgot.mono hsub) he hhash
  | forge htoken hadmin => exact .forge (hsub htoken) (hadmin.mono hsub)

theorem stillAdmin_told {id : Text} {who : Viewer}
    (h : (server.stillAdmin id viewer).Told told (.ok (some who))) :
    who = viewer ∧ ∃ token login, (⟨.outer (.sessionToken id), some token⟩ : Told) ∈ told ∧
      viewer = .forge login ∧ Admin token login told := by
  obtain ⟨token, after, rfl, hafter⟩ := certain_told h
  split at hafter
  · cases (Fallible.Told.pure_inv hafter).2
  · rename_i token
    obtain ⟨answer, before, after', rfl, hbefore, hafter'⟩ := Fallible.Told.attempt_ok hafter
    split at hafter'
    · split at hafter'
      · rename_i hsame
        obtain ⟨rfl, heq⟩ := Fallible.Told.pure_inv hafter'
        cases heq
        obtain ⟨login, hlogin, hadmin⟩ := forgeAdmin_told hbefore
        exact ⟨rfl, token, login, by simp, hsame ▸ hlogin, hadmin.mono (by simp)⟩
      · obtain ⟨_, after'', rfl, hafter''⟩ := certain_told hafter'
        cases (Fallible.Told.pure_inv hafter'').2
    · obtain ⟨_, after'', rfl, hafter''⟩ := certain_told hafter'
      cases (Fallible.Told.pure_inv hafter'').2
    · obtain ⟨_, after'', rfl, hafter''⟩ := certain_told hafter'
      cases (Fallible.Told.pure_inv hafter'').2
    · cases (Fallible.Told.throw_inv hafter').2

theorem stands_told {claims : Claims} (h : (server.stands claims).Told told (.ok (some viewer))) :
    viewer = claims.viewer ∧ Stands server told claims.viewer claims.issued := by
  obtain ⟨who, issued, expires⟩ := claims
  cases who with
  | forge name =>
      cases issued with
      | none => cases (Fallible.Told.pure_inv h).2
      | some id =>
          obtain ⟨rfl, token, login, htoken, hlogin, hadmin⟩ := stillAdmin_told h
          cases hlogin
          exact ⟨rfl, .forge htoken hadmin⟩
  | token name =>
      cases issued with
      | none => cases (Fallible.Told.pure_inv h).2
      | some hash =>
          obtain ⟨still, before, after, rfl, hbefore, hafter⟩ := Fallible.Told.bind_ok h
          cases still with
          | false => cases (Fallible.Told.pure_inv hafter).2
          | true =>
              obtain ⟨rfl, hviewer⟩ := Fallible.Told.pure_inv hafter
              cases hviewer
              obtain ⟨list, first, second, rfl, hfirst, hsecond⟩ := Fallible.Told.bind_ok hbefore
              obtain ⟨rfl, hany⟩ := Fallible.Told.pure_inv hsecond
              obtain ⟨e, he, hhash⟩ := List.any_eq_true.mp (Except.ok.inj hany).symm
              exact ⟨rfl, .token ⟨first, by simp, hfirst⟩ he (by simpa using hhash)⟩

/-- A cookie that lets somebody through. -/
structure Opens (server : Server) (headers : List Bytes) (told : List Told) (viewer : Viewer)
    (cookie : Text) (key : Bytes) (claims : Claims) (now : Int) : Prop where
  shows : server.formats.presented headers = some cookie
  signed : (⟨.outer .key, .ok key⟩ : Told) ∈ told
  verified : server.formats.verified key cookie = some claims
  when : (⟨.outer .now, now⟩ : Told) ∈ told
  unexpired : now < claims.expires
  viewer : viewer = claims.viewer
  stands : Stands server told claims.viewer claims.issued

theorem viewer_told {headers : List Bytes}
    (h : (server.viewer headers).Told told (.ok (some viewer))) :
    ∃ cookie key claims now, Opens server headers told viewer cookie key claims now := by
  rw [Server.viewer] at h
  cases hpresented : server.formats.presented headers with
  | none =>
    rw [hpresented] at h
    cases (Fallible.Told.pure_inv h).2
  | some cookie =>
    rw [hpresented] at h
    obtain ⟨key, before, after, rfl, hbefore, hafter⟩ := Fallible.Told.bind_ok h
    obtain rfl := asked_told hbefore
    obtain ⟨opened, first, second, rfl, hfirst, hsecond⟩ := Fallible.Told.bind_ok hafter
    split at hsecond
    · cases (Fallible.Told.pure_inv hsecond).2
    · rename_i claims
      rw [Server.openCookie] at hfirst
      split at hfirst
      · cases (Fallible.Told.pure_inv hfirst).2
      · rename_i claims' hverified
        obtain ⟨now, third, rfl, hthird⟩ := certain_told hfirst
        obtain ⟨rfl, heq⟩ := Fallible.Told.pure_inv hthird
        obtain ⟨hlt, heq⟩ := Option.ite_none_right_eq_some.mp (Except.ok.inj heq).symm
        obtain rfl := Option.some.inj heq
        obtain ⟨hviewer, hstands⟩ := stands_told hsecond
        exact ⟨cookie, key, claims', now, hpresented, by simp, hverified, by simp, hlt, hviewer,
          hstands.mono (by simp)⟩

end Read

/-! ## The sessions -/

section Sessions

variable (setup : Setup) (process : ι → Process)

/-- A session was opened in a process for a token, and was not closed there since. -/
def Opened (p : Process) (id token : Text) (past : Past ι) : Prop :=
  ∃ later j lasts before,
    past = later ++ ⟨j, .outer (.openSession token lasts), id⟩ :: before ∧ process j = p ∧
      ∀ e ∈ later, e.req = .outer (.closeSession id) → process e.thread ≠ p

/-- What the processes keep was opened, under ids that were drawn once, and what a session was
asked for is what it was opened for. -/
structure Kept (w : World ι × Past ι) : Prop where
  session : ∀ p id held, w.1.inner.sessions p id = some held → Opened process p id held.token w.2
  drawn : ∀ j token lasts id, (⟨j, .outer (.openSession token lasts), id⟩ : Event ι _ _) ∈ w.2 →
    id ∈ w.1.inner.drawn
  once : ∀ later before j token lasts id,
    w.2 = later ++ ⟨j, .outer (.openSession token lasts), id⟩ :: before →
    ∀ k token' lasts', (⟨k, .outer (.openSession token' lasts'), id⟩ : Event ι _ _) ∉ before
  looked : ∀ later before j id token,
    w.2 = later ++ ⟨j, .outer (.sessionToken id), some token⟩ :: before →
    Opened process (process j) id token before
  key : ∀ j key, (⟨j, .outer .key, .ok key⟩ : Event ι _ _) ∈ w.2 → key = setup.key
  read : ∀ j handle, (⟨j, .outer (.store (.disk (.readAll handle))), .error .notFound⟩ :
    Event ι _ _) ∉ w.2

variable {setup process} {w : World ι × Past ι} {w' : World ι} {i : ι} {p : Process}
  {id token : Text} {past : Past ι}

omit [DecidableEq ι] in
theorem Opened.cons {e : Event ι Asked (Cached.Reply Resp (List Issued))}
    (h : Opened process p id token past)
    (he : e.req = .outer (.closeSession id) → process e.thread ≠ p) :
    Opened process p id token (e :: past) := by
  obtain ⟨later, j, lasts, before, rfl, hplace, hclosed⟩ := h
  refine ⟨e :: later, j, lasts, before, rfl, hplace, fun e' he' => ?_⟩
  rcases List.mem_cons.mp he' with rfl | he'
  · exact he
  · exact hclosed e' he'

omit [DecidableEq ι] in
/-- A request of one call: what it makes of the sessions, and what it was answered. -/
theorem Kept.entered {r : Asked} {answer : Cached.Reply Resp (List Issued) r}
    (hw : Kept setup process w)
    (hsession : ∀ p id held, w'.inner.sessions p id = some held →
      Opened process p id held.token (⟨i, r, answer⟩ :: w.2))
    (hdrawn : w.1.inner.drawn ⊆ w'.inner.drawn)
    (hopened : ∀ token lasts id, (⟨i, r, answer⟩ : Event ι _ _) =
      ⟨i, .outer (.openSession token lasts), id⟩ → id ∉ w.1.inner.drawn ∧ id ∈ w'.inner.drawn)
    (hlooked : ∀ id token, (⟨i, r, answer⟩ : Event ι _ _) =
      ⟨i, .outer (.sessionToken id), some token⟩ → Opened process (process i) id token w.2)
    (hkey : ∀ key, (⟨i, r, answer⟩ : Event ι _ _) = ⟨i, .outer .key, .ok key⟩ →
      key = setup.key)
    (hread : ∀ handle, (⟨i, r, answer⟩ : Event ι _ _) ≠
      ⟨i, .outer (.store (.disk (.readAll handle))), .error .notFound⟩) :
    Kept setup process (w', ⟨i, r, answer⟩ :: w.2) := by
  refine ⟨hsession, ?_, ?_, ?_, ?_, ?_⟩
  · intro j token lasts id hmem
    rcases List.mem_cons.mp hmem with he | hmem
    · obtain rfl : i = j := (congrArg Event.thread he).symm
      exact (hopened token lasts id he.symm).2
    · exact hdrawn (hw.drawn j token lasts id hmem)
  · intro later before j token lasts id hpast k token' lasts' hmem
    cases later with
    | nil =>
        obtain ⟨he, rfl⟩ := List.cons.inj hpast
        obtain rfl : i = j := congrArg Event.thread he
        exact (hopened token lasts id he).1 (hw.drawn k token' lasts' id hmem)
    | cons e later =>
        exact hw.once later before j token lasts id (List.cons.inj hpast).2 k token' lasts' hmem
  · intro later before j id token hpast
    cases later with
    | nil =>
        obtain ⟨he, rfl⟩ := List.cons.inj hpast
        obtain rfl : i = j := congrArg Event.thread he
        exact hlooked id token he
    | cons e later => exact hw.looked later before j id token (List.cons.inj hpast).2
  · intro j key hmem
    rcases List.mem_cons.mp hmem with he | hmem
    · obtain rfl : i = j := (congrArg Event.thread he).symm
      exact hkey key he.symm
    · exact hw.key j key hmem
  · intro j handle hmem
    rcases List.mem_cons.mp hmem with he | hmem
    · obtain rfl : i = j := (congrArg Event.thread he).symm
      exact hread handle he.symm
    · exact hw.read j handle hmem

omit [DecidableEq ι] in
/-- A request that leaves the sessions alone. -/
theorem Kept.aside {r : Asked} {answer : Cached.Reply Resp (List Issued) r}
    (hw : Kept setup process w) (hsessions : w'.inner.sessions = w.1.inner.sessions)
    (hdrawn : w'.inner.drawn = w.1.inner.drawn)
    (hopens : ∀ token lasts, r ≠ .outer (.openSession token lasts))
    (hlooks : ∀ id, r ≠ .outer (.sessionToken id)) (hcloses : ∀ id, r ≠ .outer (.closeSession id))
    (hkey : ∀ key, (⟨i, r, answer⟩ : Event ι _ _) = ⟨i, .outer .key, .ok key⟩ → key = setup.key)
    (hread : ∀ handle, (⟨i, r, answer⟩ : Event ι _ _) ≠
      ⟨i, .outer (.store (.disk (.readAll handle))), .error .notFound⟩) :
    Kept setup process (w', ⟨i, r, answer⟩ :: w.2) := by
  refine hw.entered ?_ (by rw [hdrawn]; exact List.Subset.refl _) ?_ ?_ hkey hread
  · intro p id held hheld
    rw [hsessions] at hheld
    exact (hw.session p id held hheld).cons fun he => absurd he (hcloses id)
  · intro token lasts id he
    exact absurd (congrArg Event.req he) (hopens token lasts)
  · intro id token he
    exact absurd (congrArg Event.req he) (hlooks id)

omit [DecidableEq ι] in
theorem Kept.opens {lasts : Nat} {answer : Text} (hw : Kept setup process w)
    (h : Answers setup.formats.base64 setup.deployment process setup.key i
      (.openSession token lasts) w.1.inner answer w'.inner) :
    Kept setup process (w', ⟨i, .outer (.openSession token lasts), answer⟩ :: w.2) := by
  obtain ⟨-, hfresh, hinner⟩ := h
  refine hw.entered ?_ ?_ ?_ (fun _ _ he => nomatch he) (fun _ he => nomatch he)
    (fun _ he => nomatch he)
  · intro p id held hheld
    rw [hinner] at hheld
    have hold : w.1.inner.sessions p id = some held →
        Opened process p id held.token (⟨i, .outer (.openSession token lasts), answer⟩ :: w.2) :=
      fun h => (hw.session p id held h).cons fun he => nomatch he
    by_cases hp : p = process i
    · subst hp
      dsimp only at hheld
      rw [Function.update_self, Sessions.opened] at hheld
      by_cases hid : id = answer
      · subst hid
        rw [Function.update_self] at hheld
        cases hheld
        exact ⟨[], i, lasts, w.2, rfl, rfl, fun e he => by cases he⟩
      · rw [Function.update_of_ne hid] at hheld
        exact hold (Option.filter_eq_some_iff.mp hheld).1
    · dsimp only at hheld
      rw [Function.update_of_ne hp] at hheld
      exact hold hheld
  · rw [hinner]
    exact fun id hid => List.mem_cons_of_mem _ hid
  · intro token' lasts' id he
    cases he
    rw [hinner]
    exact ⟨hfresh, List.mem_cons_self⟩

omit [DecidableEq ι] in
theorem Kept.looks {answer : Option Text} (hw : Kept setup process w)
    (h : Answers setup.formats.base64 setup.deployment process setup.key i (.sessionToken id)
      w.1.inner answer w'.inner) :
    Kept setup process (w', ⟨i, .outer (.sessionToken id), answer⟩ :: w.2) := by
  obtain ⟨hanswer, hinner⟩ := h
  refine hw.entered ?_ (by rw [hinner]; exact List.Subset.refl _) (fun _ _ _ he => nomatch he) ?_
    (fun _ he => nomatch he) (fun _ he => nomatch he)
  · intro p id held hheld
    rw [hinner] at hheld
    exact (hw.session p id held hheld).cons fun he => nomatch he
  · intro id' token he
    cases he
    obtain ⟨held, hheld, rfl⟩ := Option.map_eq_some_iff.mp hanswer.symm
    exact hw.session _ _ held (Option.filter_eq_some_iff.mp hheld).1

omit [DecidableEq ι] in
theorem Kept.closes {answer : Unit} (hw : Kept setup process w)
    (h : Answers setup.formats.base64 setup.deployment process setup.key i (.closeSession id)
      w.1.inner answer w'.inner) :
    Kept setup process (w', ⟨i, .outer (.closeSession id), answer⟩ :: w.2) := by
  have hinner : w'.inner = _ := h
  refine hw.entered ?_ (by rw [hinner]; exact List.Subset.refl _) (fun _ _ _ he => nomatch he)
    (fun _ _ he => nomatch he) (fun _ he => nomatch he) (fun _ he => nomatch he)
  intro p id' held hheld
  rw [hinner] at hheld
  dsimp only at hheld
  by_cases hp : p = process i
  · subst hp
    rw [Function.update_self, Sessions.closed] at hheld
    by_cases hid : id' = id
    · subst hid
      rw [Function.update_self] at hheld
      cases hheld
    · rw [Function.update_of_ne hid] at hheld
      refine (hw.session _ id' held hheld).cons fun he => absurd ?_ hid
      cases he
      rfl
  · rw [Function.update_of_ne hp] at hheld
    exact (hw.session _ id' held hheld).cons fun _ heq => hp heq.symm

omit [DecidableEq ι] in
/-- A request for something else than the list. -/
theorem Kept.asks {r : Req} {answer : Resp r} (hw : Kept setup process w)
    (h : Answers setup.formats.base64 setup.deployment process setup.key i r
      w.1.inner answer w'.inner) :
    Kept setup process (w', ⟨i, .outer r, answer⟩ :: w.2) := by
  have haside : w'.inner.sessions = w.1.inner.sessions → w'.inner.drawn = w.1.inner.drawn →
      (∀ token lasts, r ≠ .openSession token lasts) → (∀ id, r ≠ .sessionToken id) →
      (∀ id, r ≠ .closeSession id) →
      (∀ key, (⟨i, .outer r, answer⟩ : Event ι Asked (Cached.Reply Resp (List Issued))) =
        ⟨i, .outer .key, .ok key⟩ → key = setup.key) →
      (∀ handle, (⟨i, .outer r, answer⟩ : Event ι Asked (Cached.Reply Resp (List Issued))) ≠
        ⟨i, .outer (.store (.disk (.readAll handle))), .error .notFound⟩) →
      Kept setup process (w', ⟨i, .outer r, answer⟩ :: w.2) := by
    intro hsessions hdrawn hopens hlooks hcloses
    exact hw.aside hsessions hdrawn
      (fun token lasts he => hopens token lasts (Cached.Ask.outer.inj he))
      (fun id he => hlooks id (Cached.Ask.outer.inj he))
      (fun id he => hcloses id (Cached.Ask.outer.inj he))
  cases r with
  | store r =>
      obtain ⟨store, hserves, hinner⟩ := h
      refine haside (by rw [hinner]) (by rw [hinner]) (fun _ _ => nofun) (fun _ => nofun)
        (fun _ => nofun) (fun _ he => nomatch he) ?_
      intro handle he
      cases he
      obtain ⟨-, ⟨f, -, heq⟩ | heq⟩ := (Meta.served_answered (by nofun) hserves.1).readAll
      · cases heq
      · cases heq
  | key =>
      obtain ⟨hkey, hinner⟩ := h
      refine haside (congrArg Desk.sessions hinner) (congrArg Desk.drawn hinner) (fun _ _ => nofun)
        (fun _ => nofun) (fun _ => nofun) ?_ (fun _ he => nomatch he)
      intro key he
      cases he
      rcases hkey with hkey | ⟨e, hkey⟩
      · exact Except.ok.inj hkey
      · cases hkey
  | now =>
      exact haside (congrArg Desk.sessions h) (congrArg Desk.drawn h) (fun _ _ => nofun)
        (fun _ => nofun) (fun _ => nofun) (fun _ he => nomatch he) (fun _ he => nomatch he)
  | openSession token lasts => exact hw.opens h
  | sessionToken id => exact hw.looks h
  | closeSession id => exact hw.closes h
  | permission token =>
      exact haside (congrArg Desk.sessions h) (congrArg Desk.drawn h) (fun _ _ => nofun)
        (fun _ => nofun) (fun _ => nofun) (fun _ he => nomatch he) (fun _ he => nomatch he)
  | actor token =>
      exact haside (congrArg Desk.sessions h) (congrArg Desk.drawn h) (fun _ _ => nofun)
        (fun _ => nofun) (fun _ => nofun) (fun _ he => nomatch he) (fun _ he => nomatch he)

omit [DecidableEq ι] in
/-- **One step.** -/
theorem Kept.step {r : Asked} {answer : Cached.Reply Resp (List Issued) r}
    (hw : Kept setup process w)
    (h : Cached.serves (desk setup.formats.base64 setup.deployment process setup.key) process
      i r w.1 answer w') :
    Kept setup process (w', ⟨i, r, answer⟩ :: w.2) := by
  obtain ⟨w₁, hpasses, -, hanswers⟩ := h
  obtain ⟨clock, -, hinner⟩ := hpasses.inner
  have hw₁ : Kept setup process (w₁, w.2) := by
    refine ⟨fun p id held hheld => ?_, fun j token lasts id hmem => ?_, hw.once, hw.looked, hw.key,
      hw.read⟩
    · rw [hinner] at hheld
      exact hw.session p id held hheld
    · rw [hinner]
      exact hw.drawn j token lasts id hmem
  have haside : ∀ {w' : World ι} {r : Asked} {answer : Cached.Reply Resp (List Issued) r},
      w'.inner.sessions = w₁.inner.sessions → w'.inner.drawn = w₁.inner.drawn →
      (∀ r', r ≠ .outer r') → Kept setup process (w', ⟨i, r, answer⟩ :: w.2) := by
    intro w' r answer hsessions hdrawn hr
    exact hw₁.aside hsessions hdrawn (fun _ _ => hr _) (fun _ => hr _) (fun _ => hr _)
      (fun _ he => absurd (congrArg Event.req he) (hr _))
      (fun _ he => absurd (congrArg Event.req he) (hr _))
  cases r with
  | outer r =>
      obtain ⟨d, hexec, rfl⟩ := hanswers
      exact hw₁.asks hexec
  | lock =>
      obtain ⟨-, -, rfl⟩ := hanswers
      exact haside rfl rfl fun _ => nofun
  | keep value =>
      obtain ⟨-, rfl⟩ := hanswers
      exact haside rfl rfl fun _ => nofun
  | unlock =>
      obtain rfl := hanswers
      exact haside rfl rfl fun _ => nofun
  | clear =>
      obtain ⟨-, rfl⟩ := hanswers
      exact haside rfl rfl fun _ => nofun

omit [DecidableEq ι] in
/-- At the start there are no sessions. -/
theorem Kept.start (store : Cluster) (drawn : List Text) (clock : Nat) :
    Kept setup process
      ((⟨⟨store, fun _ _ => none, drawn, clock⟩, fun _ => .empty, []⟩, []) : World ι × Past ι) where
  session := fun _ _ _ h => by cases h
  drawn := fun _ _ _ _ h => by cases h
  once := fun _ _ _ _ _ _ h => by simp at h
  looked := fun _ _ _ _ _ h => by simp at h
  key := fun _ _ h => by cases h
  read := fun _ _ h => by cases h

end Sessions

end Lfsx.Console.SignIn
