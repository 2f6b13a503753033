import Lfsx.Storage.Replicas

/-!
# The session key

Without one in its configuration, a replica signs sessions with a key it keeps in the store:
the first to find none makes one, and all of them use what the store then holds.
-/

namespace Lfsx.Console.Session

open Request
open Meta (MetaError Backend Op Req Resp Process Deployment Cluster pathOf keyOf stagedPath)

/-- `KEY`. -/
def keyName : Text := "session.key".toList

/-- `KEY_LENGTH`. -/
def keyLength : Nat := 32

def valid (key : Bytes) : Op Bytes :=
  if key.length = keyLength then return key
  else throw (.misconfigured
    "the stored session key is not 32 bytes; delete .lfsx/session.key to have a new one made")

def keptKey (backend : Backend) : Op Bytes := do
  match ← backend.readMeta keyName with
  | some key => valid key
  | none =>
      let fresh ← (Fallible.certain (Req.disk (.random keyLength)) : Op (Fixed keyLength))
      let _ ← backend.createMeta keyName fresh.1
      match ← backend.readMeta keyName with
      | none => throw (.misconfigured "the session key could not be kept in the store")
      | some key => valid key

/-- Every thread asks for the key. -/
def start {ι : Type} (deployment : Deployment) (process : ι → Process) (w : Cluster) :
    Pool ι Req Resp (Except MetaError Bytes) Cluster :=
  ⟨fun i => (keptKey (deployment.backend (process i))).run, w⟩

/-- What the replicas find: a key that is one or none at all, and, on a volume, what earlier
servers staged, each file under the name it was staged under and at most the key's. -/
structure Found (deployment : Deployment) (w : Cluster) : Prop where
  key : ∀ key, deployment.holds keyName w = some key → key.length = keyLength
  staged : deployment = .volume → ∀ number n path file,
    w.store.disk.inode (stagedPath keyName number n) = some file →
    w.store.disk.inode path = some file →
      path = stagedPath keyName number n ∨ path = pathOf keyName

end Lfsx.Console.Session
