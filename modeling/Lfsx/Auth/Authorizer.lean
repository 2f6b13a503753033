import Lfsx.Auth.Namespaces
import Lfsx.Locks.Store
import Lfsx.Request.Ledger

/-!
# Permissions

`Authorizer::permission` answers what a caller may do to a repository.  It checks that the
repository is served, reads the access settings, and looks for an answer in a cache before
it asks the forge.  Whatever the forge answers that is a decision is kept in the cache,
under a digest of the caller and the name of the repository, until its time is over.

The forge may answer anything, and the budget for asking it may refuse.  When an answer
comes in, it is kept before anything else is waited for, so `ask` is one step: it is
answered and the cache has the answer.  Time passes with `wait`.
-/

namespace Lfsx.Auth

open Request
open Locks (Permission)

inductive AuthError where
  | unauthenticated
  | forbidden
  | notServed
  | lookupBudgetSpent (retryAfter : Nat)
  /-- The forge did not answer, or not with a decision. -/
  | forge (why : Text)
deriving DecidableEq

def requireWrite : Permission → Except AuthError Unit
  | .read => .error .forbidden
  | .write => .ok ()
  | .admin => .ok ()

/-- What decides who reaches which repository, beyond what the forge answers. -/
structure Access where
  anonymousRead : Bool
  restricted : Namespaces
  allowed : Option Namespaces
deriving DecidableEq

/-! ## The cache -/

inductive Decision where
  | granted (permission : Permission)
  | unauthenticated
  | forbidden
deriving DecidableEq

/-- The answers that are kept. -/
def Decision.of : Except AuthError Permission → Option Decision
  | .ok permission => some (.granted permission)
  | .error .unauthenticated => some .unauthenticated
  | .error .forbidden => some .forbidden
  | .error _ => none

def Decision.outcome : Decision → Except AuthError Permission
  | .granted permission => .ok permission
  | .unauthenticated => .error .unauthenticated
  | .forbidden => .error .forbidden

/-- Who is asking. -/
inductive Caller where
  | token (token : Bytes)
  | anonymous
deriving DecidableEq

/-- The caller of a request that carries a token, or none. -/
def Caller.of : Option Bytes → Caller
  | some t => .token t
  | none => .anonymous

/-- What a fingerprint is the digest of: `token:` and the token, or `anonymous`. -/
def Caller.input : Caller → Bytes
  | .token t => [0x74, 0x6f, 0x6b, 0x65, 0x6e, 0x3a] ++ t
  | .anonymous => [0x61, 0x6e, 0x6f, 0x6e, 0x79, 0x6d, 0x6f, 0x75, 0x73]

/-- A caller tagged as one is not the other. -/
theorem Caller.input_inj {a b : Caller} (h : a.input = b.input) : a = b := by
  cases a with
  | token s =>
      cases b with
      | token t => exact congrArg Caller.token (List.append_cancel_left h)
      | anonymous => simp [input] at h
  | anonymous =>
      cases b with
      | token t => simp [input] at h
      | anonymous => rfl

abbrev CacheKey := Fixed 32 × Text

structure CacheEntry where
  decision : Decision
  expiresAt : Nat
deriving DecidableEq

structure Cache where
  grantedTtl : Nat
  rejectedTtl : Nat
  entries : CacheKey → Option CacheEntry

namespace Cache

/-- A cache that was just made. -/
def new (grantedTtl rejectedTtl : Nat) : Cache where
  grantedTtl := grantedTtl
  rejectedTtl := rejectedTtl
  entries _ := none

/-- `key`. -/
def keyOf (sha256 : Bytes → Fixed 32) (caller : Caller) (ns : Namespace) : CacheKey :=
  (sha256 caller.input, ns.display)

/-- How long a decision is kept. -/
def ttl (cache : Cache) : Decision → Nat
  | .granted _ => cache.grantedTtl
  | .unauthenticated => cache.rejectedTtl
  | .forbidden => cache.rejectedTtl

def get (cache : Cache) (now : Nat) (key : CacheKey) : Option Decision :=
  match cache.entries key with
  | some entry => if now < entry.expiresAt then some entry.decision else none
  | none => none

/-- What has expired goes when something is put in. -/
def insert (cache : Cache) (now : Nat) (key : CacheKey) (decision : Decision) : Cache :=
  { cache with
    entries := Function.update
      (fun k => (cache.entries k).filter fun entry => decide (now < entry.expiresAt)) key
      (some ⟨decision, now + cache.ttl decision⟩) }

end Cache

/-! ## The authorizer -/

/-- `Authorizer::Forge`: what changes while it runs, and the time. -/
structure Authorizer where
  access : Access
  /-- Counts the changes somebody asked for. -/
  revision : Nat
  cache : Cache
  now : Nat

inductive Req where
  /-- Read the access settings. -/
  | access
  | cached (caller : Caller) (ns : Namespace)
  | afford
  /-- Ask the forge, and keep what it decides. -/
  | ask (caller : Caller) (ns : Namespace)
  | revision
  | setAccess (replacement : Access)
  | refreshAccess (seen : Nat) (replacement : Access)
  | wait (elapsed : Nat)

abbrev Resp : Req → Type
  | .access => Access
  | .cached _ _ => Option Decision
  | .afford => Except AuthError Unit
  | .ask _ _ => Except AuthError Permission
  | .revision => Nat
  | .setAccess _ => Unit
  | .refreshAccess _ _ => Bool
  | .wait _ => Unit

namespace Authorizer

def setAccess (a : Authorizer) (replacement : Access) : Authorizer :=
  { a with access := replacement, revision := a.revision + 1 }

def refreshAccess (a : Authorizer) (seen : Nat) (replacement : Access) : Bool × Authorizer :=
  if a.revision = seen then (true, { a with access := replacement }) else (false, a)

/-- The forge's answer comes in. -/
def answered (a : Authorizer) (key : CacheKey) (outcome : Except AuthError Permission) :
    Authorizer :=
  match Decision.of outcome with
  | some decision => { a with cache := a.cache.insert a.now key decision }
  | none => a

end Authorizer

/-- What is answered, and what it leaves. -/
def Answers (sha256 : Bytes → Fixed 32) : Semantics Req Resp Authorizer
  | .access, a, answer, a' => answer = a.access ∧ a' = a
  | .cached caller ns, a, answer, a' =>
      answer = a.cache.get a.now (Cache.keyOf sha256 caller ns) ∧ a' = a
  | .afford, a, answer, a' => (answer = .ok () ∨ ∃ s, answer = .error (.lookupBudgetSpent s)) ∧
      a' = a
  | .ask caller ns, a, answer, a' => a' = a.answered (Cache.keyOf sha256 caller ns) answer
  | .revision, a, answer, a' => answer = a.revision ∧ a' = a
  | .setAccess replacement, a, _, a' => a' = a.setAccess replacement
  | .refreshAccess seen replacement, a, answer, a' =>
      (answer, a') = a.refreshAccess seen replacement
  | .wait elapsed, a, _, a' => a' = { a with now := a.now + elapsed }

/-! ## Permission -/

abbrev Op (α : Type) := Fallible AuthError Req Resp α

def served (ns : Namespace) : Op Unit := do
  let access ← (Fallible.certain Req.access : Op Access)
  match access.allowed with
  | some allowed => if !allowed.covers ns then throw .notServed else return ()
  | none => return ()

/-- A repository that is restricted is for writers. -/
def decided (writersOnly : Bool) (outcome : Except AuthError Permission) :
    Except AuthError Permission :=
  if writersOnly then do
    let permission ← outcome
    requireWrite permission
    return permission
  else outcome

def forgePermission (token : Option Bytes) (ns : Namespace) : Op Permission := do
  let access ← (Fallible.certain Req.access : Op Access)
  let writersOnly := access.restricted.covers ns
  match token with
  | none =>
      if !access.anonymousRead || writersOnly then throw .unauthenticated
      else
        match ← (Fallible.certain (Req.cached .anonymous ns) : Op (Option Decision)) with
        | some decision => Fallible.ofExcept decision.outcome
        | none => do
            Fallible.ask .afford rfl
            Fallible.ask (.ask .anonymous ns) rfl
  | some token =>
      match ← (Fallible.certain (Req.cached (.token token) ns) : Op (Option Decision)) with
      | some decision => Fallible.ofExcept (decided writersOnly decision.outcome)
      | none => do
          Fallible.ask .afford rfl
          let outcome ← (Fallible.ask (.ask (.token token) ns) rfl : Op Permission).attempt
          Fallible.ofExcept (decided writersOnly outcome)

def permission (token : Option Bytes) (ns : Namespace) : Op Permission := do
  served ns
  forgePermission token ns

end Lfsx.Auth
