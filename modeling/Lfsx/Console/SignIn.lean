import Lfsx.Auth.Authorizer
import Lfsx.Console.Tokens
import Lfsx.Header
import Lfsx.Request.Cached
import Lfsx.Trim

/-!
# Signing in to the dashboard

Who presents a dashboard token, or a forge token of an admin, is given a cookie: claims, and a
tag of them under the session key.  The claims of a dashboard token carry its hash, and those of
a forge token the id of a session, under which the process keeps the forge token.  A cookie is
as good as what it stands for: the hash must still be issued, and the forge must still call the
token an admin's, or the session is closed.

The list of tokens is a `Cached` of each process, that `create` and `revoke` empty when they are
done.  The sessions of a process are its own.
-/

namespace Lfsx.Console.SignIn

open Request
open Auth (AuthError)
open Locks (Permission)
open Meta (MetaError Process Deployment Cluster)
open Tokens (Issued Refusal)

/-! ## Claims -/

inductive Viewer where
  | token (name : Text)
  | forge (name : Text)
deriving DecidableEq

structure Claims where
  viewer : Viewer
  issued : Option Text
  expires : Int
deriving DecidableEq

/-- `LIFETIME`, in seconds. -/
def lifetime : Nat := 12 * 60 * 60

/-- Instants count nanoseconds. -/
def nanoseconds (seconds : Nat) : Nat := seconds * 1000000000

/-! ## Cookies -/

/-- What a cookie rests on: `serde_json` for claims, HMAC-SHA256, and the values of headers. -/
structure Formats where
  tokens : Tokens.Formats
  encode : Claims → Option Bytes
  decode : Bytes → Option Claims
  hmac : Bytes → Bytes → Fixed 32
  values : HeaderValues

/-- What is read back is what was written. -/
def Formats.Lawful (formats : Formats) : Prop :=
  ∀ claims bytes, formats.encode claims = some bytes → formats.decode bytes = some claims

def utf8Bytes (text : Text) : Bytes := text.flatMap String.utf8EncodeChar

namespace Formats

variable (formats : Formats) (key : Bytes)

/-- `URL_SAFE_NO_PAD`. -/
abbrev base64 : Base64.UrlSafe := formats.tokens.base64

/-- The tag of claims as they stand in a cookie. -/
def tag (claims : Text) : Fixed 32 := formats.hmac key (utf8Bytes claims)

/-- A cookie for claims that were printed. -/
def sealedText (printed : Bytes) : Text :=
  formats.base64.encode printed ++ '.' ::
    formats.base64.encode (formats.tag key (formats.base64.encode printed)).1

/-- The claims of a cookie with a good tag, as they stand there. -/
def tagged (cookie : Text) : Option Text := do
  let (claims, signature) ← splitOnce '.' cookie
  let presented ← formats.base64.decode signature
  if presented = (formats.tag key claims).1 then some claims else none

/-- The claims of a cookie with a good tag. -/
def verified (cookie : Text) : Option Claims := do
  let claims ← formats.tagged key cookie
  let printed ← formats.base64.decode claims
  formats.decode printed

end Formats

/-- `COOKIE_NAME`. -/
def cookieName : Text := "lfsx_session".toList

/-- The session cookie among the `Cookie` headers. -/
def Formats.presented (formats : Formats) (headers : List Bytes) : Option Text :=
  ((headers.filterMap formats.values.toStr).flatMap fun value => value.splitOn ';').findSome?
    fun pair => do
      let rest ← stripPrefix cookieName (trim isBlank pair)
      stripPrefix ['='] rest

/-- `cookie`: what `Set-Cookie` says, for a server that is reached over https or not.  A text that
is no header is a panic. -/
def Formats.setCookie (formats : Formats) (secure : Bool) (value : Text) (maxAge : Nat) :
    Option Text :=
  let text := cookieName ++ '=' :: value ++ "; Path=/-/; Max-Age=".toList ++
    Storage.decimal maxAge ++ "; HttpOnly; SameSite=Strict".toList ++
      if secure then "; Secure".toList else []
  if formats.values.fromStr text then some text else none

theorem isVisible_of_isUrlSafe {c : Char} (h : Base64.isUrlSafe c = true) : isVisible c = true := by
  rw [isVisible, Bool.and_eq_true, decide_eq_true_eq, decide_eq_true_eq]
  simp only [Base64.isUrlSafe, Bool.or_eq_true, Bool.and_eq_true, decide_eq_true_eq, beq_iff_eq,
    Char.le_def, UInt32.le_iff_toNat_le, Char.toNat_val, Char.reduceToNat, or_assoc] at h
  rcases h with hupper | hlower | hdigit | rfl | rfl
  · omega
  · omega
  · omega
  · decide
  · decide

/-- **A cookie is always a header**, the one that is sealed and the one that takes it back. -/
theorem Formats.isSome_setCookie (formats : Formats) (secure : Bool) {value : Text} (maxAge : Nat)
    (hvalue : value.all isVisible = true) : (formats.setCookie secure value maxAge).isSome := by
  have hsecure : (if secure then "; Secure".toList else []).all isVisible = true := by
    cases secure <;> decide
  rw [Formats.setCookie, if_pos]
  · rfl
  · refine formats.values.visible _ ?_
    simp only [List.all_append, List.all_cons, hvalue, all_isVisible_decimal, hsecure,
      Bool.and_true]
    decide

theorem Formats.isSome_setCookie_sealedText (formats : Formats) (key printed : Bytes)
    (secure : Bool) (maxAge : Nat) :
    (formats.setCookie secure (formats.sealedText key printed) maxAge).isSome := by
  have hencoded : ∀ bytes, (formats.base64.encode bytes).all isVisible = true := fun bytes =>
    List.all_eq_true.mpr fun c hc => isVisible_of_isUrlSafe (formats.base64.safe bytes c hc)
  refine formats.isSome_setCookie secure maxAge ?_
  rw [sealedText, List.all_append, List.all_cons, hencoded, hencoded]
  rfl

/-! ## Requests -/

inductive Failed where
  | auth (e : AuthError)
  | store (e : MetaError)
  | refused (e : Refusal)
deriving DecidableEq

inductive Req where
  | store (r : Meta.Req)
  /-- The session key of the process. -/
  | key
  /-- `OffsetDateTime::now_utc`, in seconds. -/
  | now
  /-- `ForgeSessions::open`. -/
  | openSession (token : Text) (lifetime : Nat)
  /-- `ForgeSessions::token`. -/
  | sessionToken (id : Text)
  /-- `ForgeSessions::close`. -/
  | closeSession (id : Text)
  /-- `Authorizer::forge_permission` of a bearer of a token, for the repository of the admins. -/
  | permission (token : Text)
  /-- `Authorizer::actor` of a bearer of a token: the login. -/
  | actor (token : Text)

abbrev Resp : Req → Type
  | .store r => Meta.Resp r
  | .key => Except MetaError Bytes
  | .now => Int
  | .openSession _ _ => Text
  | .sessionToken _ => Option Text
  | .closeSession _ => Unit
  | .permission _ => Except AuthError Permission
  | .actor _ => Except AuthError Text

/-- A session of the forge, and until when it is good. -/
structure Held where
  token : Text
  «until» : Nat
deriving DecidableEq

/-- The sessions of a process. -/
abbrev Sessions := Text → Option Held

namespace Sessions

variable (sessions : Sessions) (now : Nat)

/-- What has expired goes when a session is opened. -/
def opened (id : Text) (held : Held) : Sessions :=
  Function.update (fun id => (sessions id).filter fun held => decide (now < held.«until»)) id
    (some held)

def token (id : Text) : Option Text :=
  ((sessions id).filter fun held => decide (now < held.«until»)).map Held.token

def closed (id : Text) : Sessions := Function.update sessions id none

end Sessions

/-- What the processes share, and what each has of its own. -/
structure Desk where
  store : Cluster
  sessions : Process → Sessions
  /-- The ids that were drawn. -/
  drawn : List Text
  clock : Nat

section Answers

variable {ι : Type} (base64 : Base64.UrlSafe) (deployment : Deployment) (process : ι → Process)
  (key : Bytes)

/-- What a thread is answered.  Every process has the same session key, and an id that is drawn
was not drawn before. -/
def Answers (i : ι) : Semantics Req Resp Desk
  | .store r, d, answer, d' =>
      ∃ store, deployment.serves process i r d.store answer store ∧ d' = { d with store }
  | .key, d, answer, d' => (answer = .ok key ∨ ∃ e, answer = .error e) ∧ d' = d
  | .now, d, _, d' => d' = d
  | .openSession token lifetime, d, answer, d' =>
      (∃ raw : Fixed 32, answer = base64.encode raw.1) ∧ answer ∉ d.drawn ∧
        d' = { d with
          sessions := Function.update d.sessions (process i)
            ((d.sessions (process i)).opened d.clock answer ⟨token, d.clock + lifetime⟩)
          drawn := answer :: d.drawn }
  | .sessionToken id, d, answer, d' =>
      answer = (d.sessions (process i)).token d.clock id ∧ d' = d
  | .closeSession id, d, _, d' =>
      d' = { d with
        sessions := Function.update d.sessions (process i) ((d.sessions (process i)).closed id) }
  | .permission _, d, _, d' => d' = d
  | .actor _, d, _, d' => d' = d

/-- Time passes. -/
def Waits (d d' : Desk) : Prop := ∃ clock, d.clock ≤ clock ∧ d' = { d with clock }

/-- The processes, with a clock that every one of them reads. -/
def desk : Cached.Source ι Req Resp Desk where
  exec := Answers base64 deployment process key
  passes := Waits
  clock := Desk.clock
  exec_clock := by
    intro i r d answer d' h
    cases r with
    | store r =>
        obtain ⟨store, -, rfl⟩ := h
        exact le_refl _
    | key => exact le_of_eq (congrArg Desk.clock h.2).symm
    | now => exact le_of_eq (congrArg Desk.clock h).symm
    | openSession token lifetime => exact le_of_eq (congrArg Desk.clock h.2.2).symm
    | sessionToken id => exact le_of_eq (congrArg Desk.clock h.2).symm
    | closeSession id => exact le_of_eq (congrArg Desk.clock h).symm
    | permission token => exact le_of_eq (congrArg Desk.clock h).symm
    | actor token => exact le_of_eq (congrArg Desk.clock h).symm
  passes_clock := by
    rintro d d' ⟨clock, hle, rfl⟩
    exact hle

end Answers

/-! ## Operations -/

abbrev Op (α : Type) := Cached.Op Failed Resp (List Issued) α

/-- A request for something else than the list of tokens. -/
def certain (r : Req) : Op (Resp r) :=
  Cached.outer (Fallible.certain r : Fallible Failed Req Resp (Resp r))

/-- A request of the authorizer. -/
def authorized {α : Type} (r : Req) (h : Resp r = Except AuthError α) : Op α :=
  Cached.outer ((Fallible.ask r h : Fallible AuthError Req Resp α).mapError .auth)

/-- A server with a dashboard: where its lists are, and the repository whose admins may see it. -/
structure Server where
  formats : Formats
  store : Meta.Store
  /-- With a forge, and a repository of its admins. -/
  admins : Option Namespace

namespace Server

variable (server : Server)

/-- `key`. -/
def key : Op Bytes :=
  Cached.outer ((Fallible.ask .key rfl : Fallible MetaError Req Resp Bytes).mapError .store)

/-- `issued`. -/
def load : Fallible Failed Req Resp (List Issued) :=
  ((Tokens.issued server.formats.tokens server.store).mapError .store).within .store
    fun _ answer => answer

/-- `Registry::all`. -/
def all : Op (List Issued) := Cached.get (nanoseconds Tokens.every) server.load

/-- `Registry::holder`. -/
def holder (token : Text) : Op (Option Issued) :=
  if !Tokens.start.isPrefixOf token then return none
  else do
    let list ← server.all
    return Tokens.holderIn server.formats.tokens list token

/-- `Registry::still_issued`. -/
def stillIssued (hash : Text) : Op Bool := do
  let list ← server.all
  return list.any (·.hash == hash)

/-- `seal`. -/
def sealClaims (key : Bytes) (viewer : Viewer) (issued : Option Text) : Op Text := do
  let now ← certain .now
  match server.formats.encode ⟨viewer, issued, now + lifetime⟩ with
  | some printed => return server.formats.sealedText key printed
  | none => throw (.store .serialisation)

/-- `open`. -/
def openCookie (key : Bytes) (cookie : Text) : Op (Option Claims) :=
  match server.formats.verified key cookie with
  | none => return none
  | some claims => do
      let now ← certain .now
      return if now < claims.expires then some claims else none

/-- `forge_admin`. -/
def forgeAdmin (token : Text) : Op Viewer :=
  match server.admins with
  | none => throw (.auth .unauthenticated)
  | some _ =>
      if !server.formats.values.fromStr ("Bearer ".toList ++ token) then
        throw (.auth .unauthenticated)
      else do
        let permission ← authorized (.permission token) rfl
        if permission ≠ .admin then throw (.auth .forbidden)
        else do
          let login ← authorized (.actor token) rfl
          return .forge login

/-- `still_admin`. -/
def stillAdmin (id : Text) (viewer : Viewer) : Op (Option Viewer) := do
  match ← certain (.sessionToken id) with
  | none => return none
  | some token =>
      match ← (server.forgeAdmin token).attempt with
      | .ok current =>
          if current = viewer then return some viewer
          else do
            let _ ← certain (.closeSession id)
            return none
      | .error (.auth .forbidden) => do
          let _ ← certain (.closeSession id)
          return none
      | .error (.auth .unauthenticated) => do
          let _ ← certain (.closeSession id)
          return none
      | .error e => throw e

/-- What good claims come to. -/
def stands (claims : Claims) : Op (Option Viewer) :=
  match claims.viewer, claims.issued with
  | .forge _, some id => server.stillAdmin id claims.viewer
  | .forge _, none => return none
  | .token _, some hash => do
      if ← server.stillIssued hash then return some claims.viewer else return none
  | .token _, none => return none

/-- `viewer`. -/
def viewer (headers : List Bytes) : Op (Option Viewer) :=
  match server.formats.presented headers with
  | none => return none
  | some cookie => do
      let key ← key
      match ← server.openCookie key cookie with
      | none => return none
      | some claims => server.stands claims

/-- `admitted`. -/
def admitted (token : Text) : Op (Viewer × Option Text) := do
  match ← server.holder token with
  | some issued => return (.token issued.name, some issued.hash)
  | none => do
      let viewer ← server.forgeAdmin token
      let id ← certain (.openSession token (nanoseconds lifetime))
      return (viewer, some id)

/-- `sign_in`: the cookie, and who it is for. -/
def signIn (token : Text) : Op (Text × Viewer) := do
  let (viewer, issued) ← server.admitted (trim isBlank token)
  let key ← key
  let cookie ← server.sealClaims key viewer issued
  return (cookie, viewer)

/-- `sign_out`. -/
def signOut (headers : List Bytes) : Op Unit := do
  let key ← key.attempt
  match server.formats.presented headers, key with
  | some cookie, .ok key =>
      match ← server.openCookie key cookie with
      | some ⟨.forge _, some id, _⟩ => do
          let _ ← certain (.closeSession id)
          return ()
      | _ => return ()
  | _, _ => return ()

/-- `Registry::create`. -/
def create (name : Text) : Op Text := do
  let created ← (Cached.outer (((Tokens.create server.formats.tokens server.store name).mapError
    .refused).within .store fun _ answer => answer) : Op Text).attempt
  let _ ← (Cached.invalidate : Op Unit)
  Fallible.ofExcept created

/-- `Registry::revoke`. -/
def revoke (name : Text) : Op Unit := do
  let revoked ← (Cached.outer (((Tokens.revoke server.formats.tokens server.store name).mapError
    .refused).within .store fun _ answer => answer) : Op Unit).attempt
  let _ ← (Cached.invalidate : Op Unit)
  Fallible.ofExcept revoked

end Server

/-! ## Calls -/

inductive Call where
  | signIn (token : Text)
  | viewer (headers : List Bytes)
  | signOut (headers : List Bytes)
  | create (name : Text)
  | revoke (name : Text)
deriving DecidableEq

inductive Outcome where
  | signedIn (cookie : Text) (viewer : Viewer)
  | viewing (viewer : Option Viewer)
  | done
deriving DecidableEq

def Call.op (server : Server) : Call → Op Outcome
  | .signIn token => do
      let (cookie, who) ← server.signIn token
      return .signedIn cookie who
  | .viewer headers => do
      let who ← server.viewer headers
      return .viewing who
  | .signOut headers => do
      server.signOut headers
      return .done
  | .create name => do
      let _ ← server.create name
      return .done
  | .revoke name => do
      server.revoke name
      return .done

end Lfsx.Console.SignIn
