import Lfsx.Request.Ledger
import Lfsx.Storage.CacheDirectory

/-!
# Calls of a cache, side by side

Any number of threads, each with one call of the cache.  What a thread has come to is read off
its own requests and their answers (`Phase`), and so is what it may ask next (`Allowed`).

Two fills of one object write to the same file, so their callers let one go on and the other
wait for nothing: `claim`.  A run is `Claimed` if no fill begins while another of its object is
under way.
-/

namespace Lfsx.Storage

open Request Files

namespace Cache

/-- What was asked of a cache. -/
abbrev Past (ι : Type) := Log ι Req Resp

abbrev World (ι : Type) := Shared × Past ι

/-- The object of a call; eviction has none, and opens and fills nothing. -/
def Call.oid : Call → Oid
  | .open oid => oid
  | .fill oid _ _ => oid
  | .evict => .zeros
  | .discard oid => oid

/-! ## Phases -/

/-- How far a call has come. -/
inductive Phase where
  | idle
  /-- The object is open. -/
  | opened (file : Nat)
  /-- The digest is open as well. -/
  | reading (file beside : Nat)
  | known (file : Nat) (recorded : Text)
  /-- The object is open once more. -/
  | again (file : Nat) (recorded : Text) (file' : Nat)
  /-- The file may be served. -/
  | passed (file : Nat)
  | staging (file : Nat) (taken : Bytes)
  /-- The digest is created. -/
  | noting (file : Nat) (taken : Bytes) (beside : Nat)
  | noted (file : Nat) (taken : Bytes)
  | failed (file : Nat)
  /-- The object is in place. -/
  | placed

namespace Phase

/-- The file a fill has under way. -/
def file? : Phase → Option Nat
  | .staging file _ => some file
  | .noting file _ _ => some file
  | .noted file _ => some file
  | .failed file => some file
  | _ => none

/-- The files that a fill may still write, and the names they were made under. -/
def holds (oid : Oid) : Phase → List (Nat × LocalPath)
  | .staging file _ => [(file, incoming oid)]
  | .noting file _ beside => [(file, incoming oid), (beside, digest oid)]
  | .noted file _ => [(file, incoming oid)]
  | .failed file => [(file, incoming oid)]
  | _ => []

/-- What a fill has written so far. -/
def taken? : Phase → Option (Nat × Bytes)
  | .staging file taken => some (file, taken)
  | .noting file taken _ => some (file, taken)
  | .noted file taken => some (file, taken)
  | _ => none

end Phase

section

variable (cache : Cache)

/-- How a call goes on after an answer. -/
def next : Phase → (r : Req) → Resp r → Phase
  | .idle, .disk (.openFile _), .ok file => .opened file
  | .opened file, .isVerified _, true => .passed file
  | .opened _, .startCheck _, false => .idle
  | .opened file, .disk (.openFile _), .ok beside => .reading file beside
  | .opened _, .disk (.openFile _), .error _ => .idle
  | .reading file _, .disk (.readAll _), .ok bytes =>
      match utf8Decode bytes with
      | some recorded => .known file recorded
      | none => .idle
  | .reading _ _, .disk (.readAll _), .error _ => .idle
  | .known file recorded, .disk (.openFile _), .ok file' => .again file recorded file'
  | .known _ _, .disk (.openFile _), .error _ => .idle
  | .again file recorded _, .disk (.readAll _), .ok bytes =>
      if (cache.blake3 bytes).text = trim isBlank recorded then .passed file else .idle
  | .again _ _ _, .disk (.readAll _), .error _ => .idle
  | .idle, .disk (.create _), .ok file => .staging file []
  | .staging file taken, .writeAt _ _ chunk, .ok () => .staging file (taken ++ chunk)
  | .staging file _, .writeAt _ _ _, .error _ => .failed file
  | .staging file taken, .disk (.create _), .ok beside => .noting file taken beside
  | .staging file _, .disk (.create _), .error _ => .failed file
  | .noting file taken _, .disk (.write _ _), .ok () => .noted file taken
  | .noting file _ _, .disk (.write _ _), .error _ => .failed file
  | .noted _ _, .disk (.rename _ _), .ok () => .placed
  | .noted file _, .disk (.rename _ _), .error _ => .failed file
  | .staging _ _, .disk (.unlink _), _ => .idle
  | .noting _ _ _, .disk (.unlink _), _ => .idle
  | .noted _ _, .disk (.unlink _), _ => .idle
  | .failed _, .disk (.unlink _), _ => .idle
  | phase, _, _ => phase

/-- The requests that any call may make at any time. -/
def Req.Calm : Req → Prop
  | .disk (.metadata _) => True
  | .disk (.readDir _) => True
  | .stamp _ => True
  | .endCheck _ => True
  | .unverify _ => True
  | .hit => True
  | .miss => True
  | .grow _ => True
  | .shrink _ => True
  | _ => False

/-- What a call on an object may ask in a phase. -/
inductive Allowed (oid : Oid) : Phase → Req → Prop where
  | calm {phase : Phase} {r : Req} : r.Calm → Allowed oid phase r
  | remove {phase : Phase} {path : LocalPath} : Allowed oid phase (.disk (.unlink path))
  | «open» : Allowed oid .idle (.disk (.openFile (object oid)))
  | trust {file : Nat} : Allowed oid (.opened file) (.isVerified oid.text)
  | check {file : Nat} : Allowed oid (.opened file) (.startCheck oid.text)
  | openDigest {file : Nat} : Allowed oid (.opened file) (.disk (.openFile (digest oid)))
  | readDigest {file beside : Nat} :
      Allowed oid (.reading file beside) (.disk (.readAll beside))
  | reopen {file : Nat} {recorded : Text} :
      Allowed oid (.known file recorded) (.disk (.openFile (object oid)))
  | readObject {file file' : Nat} {recorded : Text} :
      Allowed oid (.again file recorded file') (.disk (.readAll file'))
  | verify {file : Nat} : Allowed oid (.passed file) (.verify oid.text)
  | touch {file : Nat} : Allowed oid (.passed file) (.disk (.openFile (digest oid)))
  | create : Allowed oid .idle (.disk (.create (incoming oid)))
  | send {file : Nat} {taken chunk : Bytes} :
      Allowed oid (.staging file taken) (.writeAt file taken.length chunk)
  | note {file : Nat} {taken : Bytes} :
      Allowed oid (.staging file taken) (.disk (.create (digest oid)))
  | record {file beside : Nat} {taken : Bytes} : Allowed oid (.noting file taken beside)
      (.disk (.write beside (utf8Encode (cache.blake3 taken).text)))
  | place {file : Nat} {taken : Bytes} :
      Allowed oid (.noted file taken) (.disk (.rename (incoming oid) (object oid)))

end

theorem next_calm {cache : Cache} {phase : Phase} {r : Req} {answer : Resp r} (hr : r.Calm) :
    next cache phase r answer = phase := by
  cases r with
  | disk r => cases r <;> first | exact hr.elim | (cases phase <;> rfl)
  | writeAt handle offset bytes => exact hr.elim
  | isVerified name => exact hr.elim
  | startCheck name => exact hr.elim
  | verify name => exact hr.elim
  | _ => cases phase <;> rfl

/-! ## The phases of a run -/

section

variable {ι : Type} [DecidableEq ι] (cache : Cache) (calls : ι → Call)

def phase (i : ι) (past : Past ι) : Phase := trail (next cache) .idle i past

/-- A file that some fill may still write. -/
def Held (past : Past ι) (file : Nat) (path : LocalPath) : Prop :=
  ∃ i, (file, path) ∈ (phase cache i past).holds (calls i).oid

/-- No fill begins while another of its object is under way. -/
def Claimed : Past ι → Prop
  | [] => True
  | e :: past => Claimed past ∧
      (e.req = .disk (.create (incoming (calls e.thread).oid)) →
        ∀ j, (calls j).oid = (calls e.thread).oid → (phase cache j past).file? = none)

instance decidableClaimed [Fintype ι] (cache : Cache) (calls : ι → Call) :
    DecidablePred (Claimed cache calls)
  | [] => isTrue trivial
  | e :: past =>
      have := decidableClaimed cache calls past
      inferInstanceAs (Decidable (Claimed cache calls past ∧
        (e.req = .disk (.create (incoming (calls e.thread).oid)) →
          ∀ j, (calls j).oid = (calls e.thread).oid → (phase cache j past).file? = none)))

end

end Cache

end Lfsx.Storage
