import Lfsx.Routes.Upload
import Lfsx.Storage.Backend

/-!
# The negotiation

A client says what it has or wants, object by object, and is told where to send or fetch each:
here, or with a signature from the bucket.  `verify` is its report that an upload is there, and
the first this server sees of one that went straight to the bucket.

What the routes ask of the store is the same for a volume and for a bucket (`Backing`).  A limit
is looked at three times, when an upload is negotiated, when it comes and when it is reported, and
the three agree: what is granted is admitted (`granted_iff_admitted`).
-/

namespace Lfsx

open Storage Request Files LocalStore

/-! ## What is asked and answered -/

structure ObjectId where
  oid : Text
  size : Nat
deriving DecidableEq

/-- Where a transfer goes: to this server, or to the bucket with a signature. -/
inductive Href where
  | object (oid : Text)
  | verify
  | fetch (key : Text)
  | deposit (signed : Presigned)
deriving DecidableEq

structure Actions where
  upload : Option Href
  download : Option Href
  verify : Option Href
deriving DecidableEq

structure ObjectError where
  code : Nat
  message : Text
deriving DecidableEq

structure ObjectSpec where
  id : ObjectId
  /-- The address carries its own credentials. -/
  authenticated : Option Bool
  actions : Option Actions
  error : Option ObjectError
deriving DecidableEq

namespace ObjectSpec

def refused (id : ObjectId) (code : Nat) (message : Text) : ObjectSpec :=
  { id, authenticated := none, actions := none, error := some { code, message } }

def missing (id : ObjectId) : ObjectSpec := refused id 404 "object not found".toList

def malformed (id : ObjectId) : ObjectSpec :=
  refused id 422 "object id is not a lowercase hex sha256 digest".toList

def tooLarge (id : ObjectId) (limit : Nat) : ObjectSpec :=
  refused id 413 ("object is ".toList ++ decimal id.size ++ " bytes, over the ".toList ++
    decimal limit ++ " byte limit this server accepts".toList)

def overQuota (id : ObjectId) (used limit : Nat) : ObjectSpec :=
  refused id 507 ("this repository holds ".toList ++ decimal used ++ " bytes of its ".toList ++
    decimal limit ++ (" byte budget: collect what it no longer references, or ask for more " ++
    "room").toList)

/-- There is nothing to transfer. -/
def settled (id : ObjectId) : ObjectSpec :=
  { id, authenticated := none, actions := none, error := none }

end ObjectSpec

/-- What the routes ask of the store, about one repository. -/
structure Backing (Req : Type) (Resp : Req → Type) where
  held : Oid → Fallible Error Req Resp Bool
  redirect : Oid → Option Text
  presignedUpload : Oid → Nat → Option Presigned
  uploadedSize : Oid → Fallible Error Req Resp (Option Nat)
  adopt : Oid → Nat → Fallible Error Req Resp Unit

/-- A volume takes objects through this server alone. -/
def Storage.LocalStore.backing (ns : Namespace) : Backing (Files.Req Text) Files.Resp where
  held := exists' ns
  redirect _ := none
  presignedUpload _ _ := none
  uploadedSize _ := return none
  adopt _ _ := throw (.unsupported
    "objects are written through this server, so there is nothing to adopt")

def Storage.Store.backing {crates : Crates} (store : Store crates) (ns : Namespace) :
    Backing Keyspace.Req Keyspace.Resp where
  held := S3Store.exists' ns
  redirect := store.redirect
  presignedUpload := store.presignedUpload ns
  uploadedSize := Store.uploadedSize ns
  adopt := store.adopt ns

/-! ## The routes -/

section Routes

variable {Req : Type} {Resp : Req → Type} (s : Backing Req Resp)

def resolveDownload (id : ObjectId) : Fallible Error Req Resp ObjectSpec :=
  match Oid.parse id.oid with
  | .error _ => return .missing id
  | .ok oid => do
      if ← s.held oid then
        match s.redirect oid with
        | some signed =>
            return { id, authenticated := some true, error := none
                     actions := some ⟨none, some (.fetch signed), none⟩ }
        | none =>
            return { id, authenticated := none, error := none
                     actions := some ⟨none, some (.object id.oid), none⟩ }
      else return .missing id

/-- The addresses of an upload. -/
def granted (id : ObjectId) (oid : Oid) : ObjectSpec :=
  match s.presignedUpload oid id.size with
  | some signed =>
      { id, authenticated := some true, error := none
        actions := some ⟨some (.deposit signed), none, some .verify⟩ }
  | none =>
      { id, authenticated := none, error := none
        actions := some ⟨some (.object id.oid), none, some .verify⟩ }

def resolveUpload (ceiling : Option Nat) (budget : Option Budget) (id : ObjectId) :
    Fallible Error Req Resp ObjectSpec :=
  match ceiling.filter (· < id.size) with
  | some limit => return .tooLarge id limit
  | none =>
      match Oid.parse id.oid with
      | .error _ => return .malformed id
      | .ok oid => do
          if ← s.held oid then return .settled id
          else
            match budget.filter fun budget => budget.exceededBy id.size with
            | some budget => return .overQuota id budget.used budget.limit
            | none => return granted s id oid

inductive Operation where
  | upload
  | download
deriving DecidableEq

structure BatchRequest where
  operation : Operation
  transfers : List Text
  objects : List ObjectId
  hashAlgo : Option Text

structure BatchResponse where
  transfer : Text
  hashAlgo : Text
  objects : List ObjectSpec

inductive BatchRefusal where
  | unsupportedHashAlgo (algo : Text)
  | batchTooLarge (asked limit : Nat)
deriving DecidableEq

def hashAlgo : Text := "sha256".toList

def batchCeiling : Nat := 1000

/-- There is one adapter, whatever a client knows. -/
def negotiate (_ : List Text) : Text := "basic".toList

/-- `batch`: `used` is what `usage_of` answers.  The objects are resolved a few at a time, and
answered in the order they were asked for. -/
def batch (ceiling quota : Option Nat) (used : Nat) (request : BatchRequest) :
    Fallible Error Req Resp (Except BatchRefusal BatchResponse) :=
  match request.hashAlgo.filter (· ≠ hashAlgo) with
  | some algo => return .error (.unsupportedHashAlgo algo)
  | none =>
      if batchCeiling < request.objects.length then
        return .error (.batchTooLarge request.objects.length batchCeiling)
      else do
        let resolve := match request.operation with
          | .download => resolveDownload s
          | .upload => resolveUpload s ceiling (budgetOf quota used)
        let objects ← request.objects.mapM resolve
        return .ok { transfer := negotiate request.transfers, hashAlgo, objects }

/-- `verify`: `actor` is what the forge says of who is calling, for the trail. -/
def verify (ceiling quota : Option Nat) (used : Nat) (actor : Except Error Text) (id : ObjectId) :
    Fallible Error Req Resp Unit :=
  match Oid.parse id.oid with
  | .error e => throw e
  | .ok oid => do
      if ← s.held oid then return ()
      else
        match ← s.uploadedSize oid with
        | none => throw .notFound
        | some arrived =>
            if arrived ≠ id.size then throw (.sizeMismatch id.size arrived)
            else
              match ceiling.filter (· < arrived) with
              | some limit => throw (.tooLarge limit)
              | none =>
                  match (budgetOf quota used).filter (·.exceededBy arrived) with
                  | some budget => throw budget.refusal
                  | none => do
                      let _ ← (Fallible.ofExcept actor : Fallible Error Req Resp Text)
                      s.adopt oid arrived

end Routes

/-! ## What is granted is admitted -/

/-- There is an address to upload to. -/
def ObjectSpec.Uploads (spec : ObjectSpec) : Prop :=
  ∃ href, spec.actions.bind Actions.upload = some href

section Granted

variable {crates : Crates} {sha256 : Bytes → Text} {store : LocalStore crates} {ns : Namespace}
  {oid : Oid} {quota : Option Nat} {used : Nat} {chunks : List (Except String Bytes)}
  {id : ObjectId} {Req S : Type} {Resp : Req → Type} {exec : Semantics Req Resp S} {c c' : S}
  {s : Backing Req Resp}

theorem parse_oid (oid : Oid) : Oid.parse oid.text = .ok oid := dif_pos oid.checked

theorem uploads_granted : (granted s id oid).Uploads := by
  rw [granted]
  cases s.presignedUpload oid id.size <;> exact ⟨_, rfl⟩

/-- What is refused has no address. -/
theorem not_uploads {spec : ObjectSpec} (h : spec.actions = none) : ¬ spec.Uploads := by
  rintro ⟨href, huploads⟩
  rw [h] at huploads
  cases huploads

/-- The negotiation grants what is within the limits. -/
theorem resolveUpload_goes {ceiling : Option Nat} {budget : Option Budget}
    (hid : id.oid = oid.text)
    (hheld : Goes exec (fun answer _ => answer = false) False (s.held oid) c) :
    Goes exec (fun spec _ => spec.Uploads ↔ Within ceiling budget id.size) False
      (resolveUpload s ceiling budget id) c := by
  rw [within_iff, resolveUpload]
  cases hceiling : ceiling.filter (· < id.size) with
  | some limit =>
      refine Fallible.Alone.pure (iff_of_false (not_uploads rfl) ?_)
      rintro ⟨h, -⟩
      cases h
  | none =>
      simp only [hid, parse_oid]
      refine Fallible.Alone.bind (hheld.mono ?_ fun _ h => h)
      rintro answer c₁ rfl
      rw [if_neg Bool.false_ne_true]
      cases hbudget : budget.filter fun budget => budget.exceededBy id.size with
      | none => exact Fallible.Alone.pure (iff_of_true uploads_granted ⟨trivial, rfl⟩)
      | some exceeded =>
          refine Fallible.Alone.pure (iff_of_false (not_uploads rfl) ?_)
          rintro ⟨-, h⟩
          cases h

/-- An upload of an object of the declared size succeeds when the size is within the limits. -/
theorem admitted_of_steps {held : Fallible Error Req Resp Bool}
    {write : Option Budget → Fallible Error Req Resp Nat} {size : Nat} {answer : Except Error Nat}
    (htaken : Taken sha256 oid (some size) chunks)
    (hheld : Goes exec (fun answer _ => answer = false) False held c)
    (hwrite : ∀ budget c, Goes exec
      (fun n _ => n = (arriving chunks).length ∧ Taken sha256 oid (some size) chunks ∧
        (chunks = [] ∨ Within store.maxObjectSize budget (arriving chunks).length))
      (¬ (Taken sha256 oid (some size) chunks ∧ Fits store budget chunks)) (write budget) c)
    (hsteps : Program.Steps exec ((upload quota used held (some size) write).run, c)
      (.pure answer, c')) :
    answer.isOk = true ↔ Within store.maxObjectSize (budgetOf quota used) size := by
  rw [(upload_answers (upload_goes hheld hwrite) hsteps).1, admissible_iff]
  constructor
  · rintro ⟨-, -, hwithin⟩
    rwa [htaken.declared size rfl]
  · intro hwithin
    exact ⟨htaken, htaken.complete, by rwa [htaken.declared size rfl] at hwithin⟩

theorem granted_of_steps {ceiling : Option Nat} {budget : Option Budget} {spec : ObjectSpec}
    (hid : id.oid = oid.text)
    (hheld : Goes exec (fun answer _ => answer = false) False (s.held oid) c)
    (hsteps : Program.Steps exec ((resolveUpload s ceiling budget id).run, c)
      (.pure (.ok spec), c')) :
    spec.Uploads ↔ Within ceiling budget id.size := by
  obtain ⟨-, hpost⟩ := Program.Under.alone (I := fun _ => True) (c := (_, c))
    (fun _ _ _ _ => trivial) (resolveUpload_goes hid hheld) trivial hsteps
  exact hpost _ .refl

theorem held_goes {provider : Provider} {b : Bucket}
    (hnew : ¬ b.Has (S3Store.markerKey ns oid)) :
    Goes (Keyspace.Answers provider) (fun answer _ => answer = false) False
      (S3Store.exists' ns oid) b := by
  refine found_goes.mono ?_ fun _ h => h
  rintro answer b₁ rfl
  exact decide_eq_false hnew

end Granted

/-- **What is granted is admitted, and nothing else.**  For an object the repository does not
hold, the negotiation answers with an address to upload to if and only if the upload of exactly
that object that follows succeeds, on a volume and on a bucket, by the same limits and figures. -/
theorem granted_iff_admitted {crates : Crates} (total : crates.Total) (sha256 : Bytes → Text)
    (server : Store crates) (may : Files.Req Text → Prop) (hmay : Serving may)
    (ns : Namespace) (oid : Oid) (id : ObjectId) (quota : Option Nat) (used : Nat)
    (chunks : List (Except String Bytes)) (d d₁ d₂ : Volume) (b b₁ b₂ : Bucket)
    (spec : ObjectSpec) (answer : Except Error Nat) (hid : id.oid = oid.text)
    (htaken : Taken sha256 oid (some id.size) chunks) :
    (d.inode (objectPath ns oid) = none → d₁.inode (objectPath ns oid) = none →
      Program.Steps (Faulty may) ((resolveUpload (LocalStore.backing ns)
        server.staging.maxObjectSize (budgetOf quota used) id).run, d) (.pure (.ok spec), d₁) →
      Program.Steps (Faulty may) ((upload quota used (exists' ns oid) (some id.size)
        (writeLocal sha256 server.staging ns oid (some id.size) chunks)).run, d₁)
        (.pure answer, d₂) →
      (spec.Uploads ↔ answer.isOk = true)) ∧
    (¬ b.Has (S3Store.markerKey ns oid) → ¬ b₁.Has (S3Store.markerKey ns oid) →
      Program.Steps (Keyspace.Answers server.keys.provider) ((resolveUpload (server.backing ns)
        server.staging.maxObjectSize (budgetOf quota used) id).run, b) (.pure (.ok spec), b₁) →
      Program.Steps ((Faulty may).beside (Keyspace.Answers server.keys.provider))
        ((upload quota used (S3Store.exists' ns oid).second (some id.size)
          (writeBucket sha256 server.staging ns oid (some id.size) chunks)).run, (d₁, b₁))
        (.pure answer, (d₂, b₂)) →
      (spec.Uploads ↔ answer.isOk = true)) := by
  constructor
  · intro hnew hnew₁ hgrants huploads
    rw [granted_of_steps hid (exists_goes hmay hnew) hgrants]
    exact (admitted_of_steps htaken (exists_goes hmay hnew₁)
      (fun budget _ => writeLocal_goes hmay total budget) huploads).symm
  · intro hnew hnew₁ hgrants huploads
    rw [granted_of_steps hid (held_goes hnew) hgrants]
    exact (admitted_of_steps htaken (exists_goes_bucket hnew₁)
      (fun budget _ => writeBucket_goes hmay total budget) huploads).symm

/-- A server that keeps objects as they are, on a bucket of S3. -/
def keepingStore : Store Crates.plain := ⟨keeping, ⟨.s3, 1⟩, true, false⟩

/-- The upload of one byte that was announced, to a volume and to a bucket. -/
def announcedUpload (used : Nat) : LocalStore.Op Nat :=
  upload (some 5) used (exists' .acme Oid.zeros) (some 1)
    (writeLocal (fun _ => Oid.zeros.text) keeping .acme Oid.zeros (some 1) [.ok [0x78]])

def announcedToBucket (used : Nat) : Both Nat :=
  upload (some 5) used (S3Store.exists' .acme Oid.zeros).second (some 1)
    (writeBucket (fun _ => Oid.zeros.text) keeping .acme Oid.zeros (some 1) [.ok [0x78]])

/-- In the last place of a budget one byte is granted, and admitted when it comes, on a volume and
on a bucket; after it the bucket has no address for one byte more, and does not take it. -/
theorem granted_iff_admitted_one :
    (granted (LocalStore.backing .acme) ⟨Oid.zeros.text, 1⟩ Oid.zeros).Uploads ∧
      (granted (keepingStore.backing .acme) ⟨Oid.zeros.text, 1⟩ Oid.zeros).Uploads ∧
      ¬ (ObjectSpec.overQuota ⟨Oid.zeros.text, 1⟩ 5 5).Uploads := by
  have htaken : Taken (fun _ => Oid.zeros.text) Oid.zeros (some 1) [.ok [0x78]] :=
    ⟨by simp [Except.isOk, Except.toBool], rfl, fun _ h => (Option.some.inj h).symm⟩
  have hiff := fun used d b spec answer => granted_iff_admitted total_plain
    (fun _ => Oid.zeros.text) keepingStore (fun _ => False) (fun _ h => h.elim) .acme Oid.zeros
    ⟨Oid.zeros.text, 1⟩ (some 5) used [.ok [0x78]] Disk.empty Disk.empty d noObjects noObjects b
    spec answer rfl htaken
  obtain ⟨d₁, hvolume⟩ := steps_of_advance (respond_some fun _ => False) (announcedUpload 4)
    Disk.empty (by decide +kernel)
  obtain ⟨⟨d₂, b₂⟩, hbucket⟩ := steps_of_advance (answersBoth_some fun _ => False)
    (announcedToBucket 4) (Disk.empty, noObjects) (by decide +kernel)
  have hrefused : Program.Steps ((Faulty fun _ => False).beside (Keyspace.Answers .s3))
      ((announcedToBucket 5).run, (Disk.empty, noObjects))
      (.pure (.error (Budget.mk 5 5).refusal), (Disk.empty, noObjects)) :=
    Program.advance_steps (answersBoth_some fun _ => False) (n := 1) rfl
  have hgrants : Program.Steps (Faulty fun _ => False) ((resolveUpload (LocalStore.backing .acme)
      none (budgetOf (some 5) 4) ⟨Oid.zeros.text, 1⟩).run, (Disk.empty : Volume))
      (.pure (.ok (granted (LocalStore.backing .acme) ⟨Oid.zeros.text, 1⟩ Oid.zeros)),
        Disk.empty) :=
    Program.advance_steps (respond_some fun _ => False) (n := 1) rfl
  have hgrants' : Program.Steps (Keyspace.Answers .s3) ((resolveUpload
      (keepingStore.backing .acme) none (budgetOf (some 5) 4) ⟨Oid.zeros.text, 1⟩).run, noObjects)
      (.pure (.ok (granted (keepingStore.backing .acme) ⟨Oid.zeros.text, 1⟩ Oid.zeros)),
        noObjects) :=
    Program.advance_steps (fun _ _ _ h => Keyspace.plays_answers h) (n := 1) rfl
  have hfull : Program.Steps (Keyspace.Answers .s3) ((resolveUpload
      (keepingStore.backing .acme) none (budgetOf (some 5) 5) ⟨Oid.zeros.text, 1⟩).run, noObjects)
      (.pure (.ok (.overQuota ⟨Oid.zeros.text, 1⟩ 5 5)), noObjects) :=
    Program.advance_steps (fun _ _ _ h => Keyspace.plays_answers h) (n := 1) rfl
  refine ⟨((hiff 4 d₁ noObjects _ (.ok 1)).1 rfl rfl hgrants hvolume).mpr rfl,
    ((hiff 4 d₂ b₂ _ (.ok 1)).2 (by decide) (by decide) hgrants' hbucket).mpr rfl, fun h => ?_⟩
  cases ((hiff 5 Disk.empty noObjects _ _).2 (by decide) (by decide) hfull hrefused).mp h

end Lfsx
