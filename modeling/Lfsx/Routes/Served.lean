import Lfsx.Routes.Batch
import Lfsx.Storage.Isolation
import Lfsx.Storage.S3Asks

/-!
# What a bucket serves

Servers and clients side by side over one bucket, request by request, any number of each, each
server with a codec and keys of its own: transfers through a server, clients that put their bytes
where a server sent them, reports of such uploads, downloads, and the housekeeping.  Any request
may be refused and any of them may die after any request.

What is under the content key of an object was brought for that object, through a server or by a
client whose bytes have its digest, and what a repository has a marker of, it brought itself
(`Stocked`, `Stocked.step`).  From this a server that holds the keys serves the object
(`downloads_are_objects`), an address handed out leads to it (`redirects_are_objects`), and a
repository is served only what it once had (`markers_are_earned`).
-/

namespace Lfsx.Served

open Storage Request Keyspace LocalStore

/-- What servers and clients do. -/
inductive Action (crates : Crates) where
  /-- A transfer through a server, with the salt it draws. -/
  | write (server : Store crates) (salt : Salt) (ns : Namespace) (oid : Oid) (size : Option Nat)
      (budget : Option Budget) (chunks : List (Except String Bytes))
  /-- A client puts bytes where a server sent it. -/
  | deposit (server : Store crates) (ns : Namespace) (oid : Oid) (size : Nat) (body : Bytes)
  | verify (server : Store crates) (ns : Namespace) (ceiling quota : Option Nat) (used : Nat)
      (actor : Except Error Text) (id : ObjectId)
  | download (server : Store crates) (ns : Namespace) (oid : Oid)
  | sweep (server : Store crates) (ns : Namespace) (retained : Finset Oid) (grace : Nat)
      (dryRun : Bool)
  | usageOf (server : Store crates) (ns : Namespace)
  | reclaimIncoming (server : Store crates) (olderThan : Nat)

/-- The text of a digest. -/
def hex (sha256 : Bytes → Oid) (body : Bytes) : Text := (sha256 body).text

namespace Action

variable {crates : Crates} (sha256 : Bytes → Oid)

def op : Action crates → Keyspace.Op Unit
  | write server salt ns oid size budget chunks => do
      let _ ← Store.write ns oid
        (server.staging.received (hex sha256) salt oid size budget chunks)
      return ()
  | deposit server ns oid size body =>
      match server.presignedUpload ns oid size with
      | some signed =>
          if signed.Takes sha256 body then put signed.key body
          else throw (.storage "the body does not match the checksum that was signed")
      | none => throw .notFound
  | verify server ns ceiling quota used actor id =>
      Lfsx.verify (server.backing ns) ceiling quota used actor id
  | download server ns oid => do
      let _ ← server.download ns oid
      return ()
  | sweep server ns retained grace dryRun => Call.run server.keys (.sweep ns retained grace dryRun)
  | usageOf server ns => Call.run server.keys (.usageOf ns)
  | reclaimIncoming server olderThan => Call.run server.keys (.reclaimIncoming olderThan)

end Action

section Runs

variable {crates : Crates} {κ : Type} (sha256 : Bytes → Oid) (actions : κ → Action crates)

/-- An object of this name was put by a client for a repository. -/
inductive Deposited (ns : Namespace) (oid : Oid) : Bytes → Prop where
  | intro {i : κ} {server : Store crates} {ns' : Namespace} {size : Nat} {body : Bytes} :
      actions i = .deposit server ns' oid size body → ns'.Same ns → sha256 body = oid →
      Deposited ns oid body

/-- These are the bytes a server made of a transfer for a repository. -/
inductive Transferred (ns : Namespace) (oid : Oid) (held : Bytes) : Prop where
  | intro {i : κ} {server : Store crates} {salt : Salt} {ns' : Namespace} {size : Option Nat}
      {budget : Option Budget} {chunks : List (Except String Bytes)} :
      actions i = .write server salt ns' oid size budget chunks → ns'.Same ns →
      server.staging.received (hex sha256) salt oid size budget chunks = .ok held →
      Transferred ns oid held

/-- A repository brought an object, and these are the bytes that were to be kept of it. -/
def Brought (ns : Namespace) (oid : Oid) (held : Bytes) : Prop :=
  Transferred sha256 actions ns oid held ∨ Deposited sha256 actions ns oid held

/-- Everything in the bucket was brought. -/
structure Stocked (b : Bucket) : Prop where
  content : ∀ oid o, b.find (S3Store.contentKey oid) = some o →
    ∃ ns, Brought sha256 actions ns oid o.body
  incoming : ∀ ns oid o, b.find (S3Store.incomingKey ns oid) = some o →
    Deposited sha256 actions ns oid o.body
  marker : ∀ ns oid, b.Has (S3Store.markerKey ns oid) → ∃ held, Brought sha256 actions ns oid held

/-- A request that puts nothing but what was brought. -/
structure Fair (r : Req) : Prop where
  content : ∀ oid body, r = .put (S3Store.contentKey oid) body →
    ∃ ns, Brought sha256 actions ns oid body
  incoming : ∀ ns oid body, r = .put (S3Store.incomingKey ns oid) body →
    Deposited sha256 actions ns oid body
  marker : ∀ ns oid, r.Puts (S3Store.markerKey ns oid) → ∃ held, Brought sha256 actions ns oid held
  copy : ∀ source target, r = .copy source target →
    ∃ ns oid, source = S3Store.incomingKey ns oid ∧ target = S3Store.contentKey oid

/-- An upload that is found was put there. -/
def Tells (r : Req) (answer : Resp r) : Prop :=
  ∀ ns oid n, r = .head (S3Store.incomingKey ns oid) → answer ≍ (.ok n : Except Error Nat) →
    ∃ body, Deposited sha256 actions ns oid body

variable {sha256 : Bytes → Oid} {actions : κ → Action crates}

theorem Deposited.same {ns ns' : Namespace} {oid : Oid} {body : Bytes} (hsame : ns.Same ns')
    (h : Deposited sha256 actions ns oid body) : Deposited sha256 actions ns' oid body := by
  obtain ⟨haction, hns, hdigest⟩ := h
  exact ⟨haction, ⟨hns.1.trans hsame.1, hns.2.trans hsame.2⟩, hdigest⟩

/-- **A fair request keeps a bucket stocked**, answered or refused. -/
theorem Stocked.step {provider : Provider} {b b' : Bucket} {r : Req} {answer : Resp r}
    (h : Stocked sha256 actions b) (hr : Fair sha256 actions r)
    (hstep : Faulty provider r b answer b') : Stocked sha256 actions b' where
  content oid o hfind := by
    rcases hstep.found hfind with hfind | ⟨body, rfl, rfl⟩ | ⟨source, o', rfl, hsource, hbody⟩
    · exact h.content oid o hfind
    · exact hr.content oid _ rfl
    · obtain ⟨ns, oid', rfl, htarget⟩ := hr.copy _ _ rfl
      obtain rfl : oid = oid' := Key.content_eq_iff.mp htarget
      rw [hbody]
      exact ⟨ns, .inr (h.incoming ns oid o' hsource)⟩
  incoming ns oid o hfind := by
    rcases hstep.found hfind with hfind | ⟨body, rfl, rfl⟩ | ⟨source, o', rfl, -, -⟩
    · exact h.incoming ns oid o hfind
    · exact hr.incoming ns oid _ rfl
    · obtain ⟨-, oid', -, htarget⟩ := hr.copy _ _ rfl
      exact absurd htarget (Key.text_ne_content (k := .incoming ns oid) (by simp) oid')
  marker ns oid hmarker := by
    by_cases hputs : r.Puts (S3Store.markerKey ns oid)
    · exact hr.marker ns oid hputs
    · exact h.marker ns oid (hstep.has_before hmarker hputs)

theorem Stocked.tells {provider : Provider} {b b' : Bucket} {r : Req} {answer : Resp r}
    (h : Stocked sha256 actions b) (hstep : Faulty provider r b answer b') :
    Tells sha256 actions r answer := by
  rintro ns oid n rfl hanswer
  cases hanswer
  obtain ⟨o, ho, -⟩ := hstep.head.2 n rfl
  exact ⟨o.body, h.incoming ns oid o ho⟩

/-! ## What is asked -/

theorem take_joined {first : Text} (rest : List Text) (h : 2 ≤ first.length) :
    (Path.joined (first :: rest)).take 2 = first.take 2 := by
  cases rest with
  | nil => rw [Path.joined_singleton]
  | cons t ts => rw [Path.joined_cons, List.take_append_of_le_length h]

theorem undotted_marker (ns : Namespace) (oid : Oid) :
    (S3Store.markerKey ns oid).head? ≠ some '.' := by
  rw [S3Store.markerKey, Path.joined_cons, List.head?_append]
  intro h
  cases horg : ns.storedOrg.head? with
  | none =>
      rw [horg] at h
      cases h
  | some c =>
      rw [horg] at h
      exact ns.undotted_storedOrg (horg.trans h)

/-- A request under a key that is neither content, nor an upload, nor a marker. -/
theorem fair_put {key : Text} {body : Bytes} (hcontent : ∀ oid, key ≠ S3Store.contentKey oid)
    (hincoming : ∀ ns oid, key ≠ S3Store.incomingKey ns oid)
    (hmarker : ∀ ns oid, key ≠ S3Store.markerKey ns oid) :
    Fair sha256 actions (.put key body) where
  content oid _ h := by
    cases h
    exact absurd rfl (hcontent oid)
  incoming ns oid _ h := by
    cases h
    exact absurd rfl (hincoming ns oid)
  marker ns oid h := absurd (Req.puts_put.mp h).symm (hmarker ns oid)
  copy _ _ h := by cases h

theorem fair_content {oid : Oid} {body : Bytes} (h : ∃ ns, Brought sha256 actions ns oid body) :
    Fair sha256 actions (.put (S3Store.contentKey oid) body) where
  content oid' _ heq := by
    obtain ⟨hkey, rfl⟩ := Req.put.inj heq
    obtain rfl : oid = oid' := Key.content_eq_iff.mp hkey
    exact h
  incoming ns oid' _ heq :=
    absurd (Req.put.inj heq).1.symm (Key.text_ne_content (k := .incoming ns oid') (by simp) oid)
  marker ns oid' hputs :=
    absurd (Req.puts_put.mp hputs) (Key.text_ne_content (k := .marker ns oid') (by simp) oid)
  copy _ _ heq := by cases heq

theorem fair_marker {ns : Namespace} {oid : Oid} {held : Bytes}
    (h : Brought sha256 actions ns oid held) :
    Fair sha256 actions (.put (S3Store.markerKey ns oid) []) where
  content oid' _ heq :=
    absurd (Req.put.inj heq).1 (Key.text_ne_content (k := .marker ns oid) (by simp) oid')
  incoming ns' oid' _ heq :=
    absurd (Req.put.inj heq).1.symm (Key.text_ne_marker (k := .incoming ns' oid') (by simp) ns oid)
  marker ns' oid' hputs := by
    obtain ⟨hsame, rfl⟩ := Key.marker_eq_iff.mp (Req.puts_put.mp hputs)
    refine ⟨held, h.imp ?_ (Deposited.same ⟨hsame.1.symm, hsame.2.symm⟩)⟩
    rintro ⟨haction, hns, hreceived⟩
    exact ⟨haction, ⟨hns.1.trans hsame.1.symm, hns.2.trans hsame.2.symm⟩, hreceived⟩
  copy _ _ heq := by cases heq

theorem fair_incoming {ns : Namespace} {oid : Oid} {body : Bytes}
    (h : Deposited sha256 actions ns oid body) :
    Fair sha256 actions (.put (S3Store.incomingKey ns oid) body) where
  content oid' _ heq :=
    absurd (Req.put.inj heq).1 (Key.text_ne_content (k := .incoming ns oid) (by simp) oid')
  incoming ns' oid' _ heq := by
    obtain ⟨hkey, rfl⟩ := Req.put.inj heq
    cases (Key.text_eq_iff (k := .incoming ns oid) (l := .incoming ns' oid')).mp hkey with
    | incoming _ hsame => exact h.same hsame
  marker ns' oid' hputs :=
    absurd (Req.puts_put.mp hputs).symm
      (Key.text_ne_marker (k := .incoming ns oid) (by simp) ns' oid')
  copy _ _ heq := by cases heq

theorem fair_reads {r : Req} (h : r.Reads) : Fair sha256 actions r where
  content _ _ heq := absurd (heq ▸ Req.puts_put.mpr rfl) (h.1 _)
  incoming _ _ _ heq := absurd (heq ▸ Req.puts_put.mpr rfl) (h.1 _)
  marker _ _ hputs := absurd hputs (h.1 _)
  copy _ _ heq := absurd (heq ▸ Req.puts_copy.mpr rfl) (h.1 _)

theorem fair_delete (key : Text) : Fair sha256 actions (.delete key) where
  content _ _ heq := by cases heq
  incoming _ _ _ heq := by cases heq
  marker _ _ hputs := absurd hputs Req.not_puts_delete
  copy _ _ heq := by cases heq

theorem fair_copy (ns : Namespace) (oid : Oid) :
    Fair sha256 actions (.copy (S3Store.incomingKey ns oid) (S3Store.contentKey oid)) where
  content _ _ heq := by cases heq
  incoming _ _ _ heq := by cases heq
  marker ns' oid' hputs :=
    absurd (Req.puts_copy.mp hputs) (Key.text_ne_content (k := .marker ns' oid') (by simp) oid)
  copy _ _ heq := by
    cases heq
    exact ⟨ns, oid, rfl, rfl⟩

theorem routine_fair : Routine (Fair sha256 actions) where
  reads _ h := fair_reads h
  delete := fair_delete
  index parts := by
    have hstart : (Path.joined (".refs".toList :: parts)).take 2 = ".r".toList :=
      take_joined parts (by decide)
    refine fair_put (fun oid h => ?_) (fun ns oid h => ?_) fun ns oid h => ?_
    · rw [h, S3Store.contentKey, take_joined _ (by decide)] at hstart
      exact absurd hstart (by decide)
    · rw [h, S3Store.incomingKey, take_joined _ (by decide)] at hstart
      exact absurd hstart (by decide)
    · refine undotted_marker ns oid ?_
      rw [h] at hstart
      cases hkey : S3Store.markerKey ns oid with
      | nil =>
          rw [hkey] at hstart
          cases hstart
      | cons c rest =>
          rw [hkey, List.take_succ_cons] at hstart
          exact congrArg List.head? hstart
  size ns oid n :=
    fair_put (Key.text_ne_content (k := .size ns oid n) (by simp))
      (fun ns' oid' h => by
        cases (Key.text_eq_iff (k := .size ns oid n) (l := .incoming ns' oid')).mp h)
      (Key.text_ne_marker (k := .size ns oid n) (by simp))

/-- An address to upload to is the upload key, for bytes of the digest. -/
theorem presignedUpload_eq_some {server : Store crates} {ns : Namespace} {oid : Oid} {size : Nat}
    {signed : Presigned} (h : server.presignedUpload ns oid size = some signed) :
    signed = ⟨S3Store.incomingKey ns oid, oid.checksum⟩ := by
  rw [Store.presignedUpload] at h
  split at h
  · cases h
  · split at h
    · cases h
    · cases hprovider : server.keys.provider <;> rw [hprovider] at h <;> cases h
      rfl

/-- The question for an upload finds what was put there. -/
theorem uploadedSize_asks (ns : Namespace) (oid : Oid) :
    (Store.uploadedSize ns oid).Only (Fair sha256 actions) (Tells sha256 actions) fun size =>
      ∀ n, size = some n → ∃ body, Deposited sha256 actions ns oid body := by
  refine ⟨fair_reads (Req.reads_head _), fun answer htells => ?_⟩
  cases answer with
  | error e =>
      rintro _ ⟨⟩
      exact nofun
  | ok size =>
      rintro _ ⟨⟩
      exact fun n _ => htells ns oid size rfl HEq.rfl

theorem verify_asks (server : Store crates) (ns : Namespace) (ceiling quota : Option Nat)
    (used : Nat) (actor : Except Error Text) (id : ObjectId) :
    Asks (Fair sha256 actions) (Tells sha256 actions)
      (verify (server.backing ns) ceiling quota used actor id) := by
  rw [verify]
  cases Oid.parse id.oid with
  | error e => exact Fallible.Only.throw
  | ok oid =>
      refine asks_bind (asks_found routine_fair) fun held => ?_
      split
      · exact asks_pure
      refine Fallible.Only.bind (uploadedSize_asks ns oid) fun size hsize => ?_
      cases size with
      | none => exact Fallible.Only.throw
      | some arrived =>
          obtain ⟨body, hdeposited⟩ := hsize arrived rfl
          dsimp only
          split
          · exact Fallible.Only.throw
          split
          · exact Fallible.Only.throw
          split
          · exact Fallible.Only.throw
          exact asks_ofExcept fun _ _ =>
            asks_adopt routine_fair (fair_copy ns oid) (fair_marker (.inr hdeposited))

/-- Reading a key only looks. -/
theorem only_onKey {α : Type} {Q : α → Prop} (key : Text) (p : Reading α) (hQ : ∀ a, Q a) :
    (onKey key p).Only (Fair sha256 actions) (Tells sha256 actions) Q := by
  induction p with
  | pure a => exact hQ a
  | request r next ih => exact ⟨fair_reads (Req.reads_getRange _ _ _), fun answer _ => ih answer⟩

theorem asks_stream (oid : Oid) (start length : Nat) (object : Object) :
    Asks (Fair sha256 actions) (Tells sha256 actions)
      (Store.stream crates oid start length object) := by
  cases object with
  | framed f =>
      exact Program.Only.bind (only_onKey (Q := fun _ => True) _ _ fun _ => trivial)
        fun _ _ _ _ => trivial
  | raw n => exact asks_bind (asks_ask (fair_reads (Req.reads_getRange _ _ _))) fun _ => asks_pure

theorem asks_download (server : Store crates) (ns : Namespace) (oid : Oid) :
    Asks (Fair sha256 actions) (Tells sha256 actions) (server.download ns oid) := by
  have hopens : Asks (Fair sha256 actions) (Tells sha256 actions) (server.open ns oid) := by
    refine asks_bind (asks_found routine_fair) fun held => ?_
    split
    · exact asks_bind (asks_ask (fair_reads (Req.reads_head _))) fun size =>
        only_onKey _ _ fun _ _ _ => trivial
    · exact Fallible.Only.throw
  exact asks_bind hopens fun object => asks_bind (asks_stream oid 0 _ object) fun _ => asks_pure

/-- **Every action asks fairly.** -/
theorem action_asks (i : κ) :
    Asks (Fair sha256 actions) (Tells sha256 actions) ((actions i).op sha256) := by
  cases haction : actions i with
  | write server salt ns oid size budget chunks =>
      refine asks_bind (asks_bind (asks_found routine_fair) fun held =>
        asks_ofExcept fun file hreceived => ?_) fun _ => asks_pure
      have hbrought : Brought sha256 actions ns oid file := .inl ⟨haction, ⟨rfl, rfl⟩, hreceived⟩
      exact asks_bind (asks_store routine_fair (fair_content ⟨ns, hbrought⟩)
        (fair_marker hbrought)) fun _ => asks_pure
  | deposit server ns oid size body =>
      rw [Action.op]
      cases hsigned : server.presignedUpload ns oid size with
      | none => exact Fallible.Only.throw
      | some signed =>
          obtain rfl := presignedUpload_eq_some hsigned
          dsimp only
          split
          · next htakes =>
            exact asks_put (fair_incoming
              ⟨haction, ⟨rfl, rfl⟩, Oid.checksum_injective htakes⟩)
          · exact Fallible.Only.throw
  | verify server ns ceiling quota used actor id => exact verify_asks server ns _ _ _ _ _
  | download server ns oid => exact asks_bind (asks_download server ns oid) fun _ => asks_pure
  | sweep server ns retained grace dryRun =>
      exact asks_call routine_fair (.sweep ns retained grace dryRun) trivial
  | usageOf server ns => exact asks_call routine_fair (.usageOf ns) trivial
  | reclaimIncoming server olderThan =>
      exact asks_call routine_fair (.reclaimIncoming olderThan) trivial

/-! ## What was brought -/

theorem Transferred.digest {ns : Namespace} {oid : Oid} {held : Bytes}
    (h : Transferred sha256 actions ns oid held) :
    ∃ i server salt ns' size budget chunks,
      actions i = .write server salt ns' oid size budget chunks ∧
      ns'.Same ns ∧ sha256 (arriving chunks) = oid ∧
      server.staging.received (hex sha256) salt oid size budget chunks = .ok held := by
  obtain ⟨haction, hns, hreceived⟩ := h
  obtain ⟨_, -, -, -, hdigest⟩ := received_eq_ok hreceived
  exact ⟨_, _, _, _, _, _, _, haction, hns, Oid.ext hdigest, hreceived⟩

/-- A server that holds every key a transfer was sealed under. -/
def Reads (reader : Store crates) (actions : κ → Action crates) : Prop :=
  ∀ i server salt ns oid size budget chunks,
    actions i = .write server salt ns oid size budget chunks →
    Keeps server.staging.keys reader.staging.keys

/-- No client puts what is laid out as a container. -/
def NoContainers (actions : κ → Action crates) : Prop :=
  ∀ i server ns oid size body, actions i = .deposit server ns oid size body →
    Container.header? body = none

/-- Every transfer has frames a container can count. -/
def AllSmall (actions : κ → Action crates) : Prop :=
  ∀ i server salt ns oid size budget chunks,
    actions i = .write server salt ns oid size budget chunks → Small (arriving chunks)

/-- What was brought is an object in the form a server keeps it. -/
theorem Brought.stored {reader : Store crates} (hreads : Reads reader actions)
    (hplain : NoContainers actions) (hsmall : AllSmall actions) {ns : Namespace} {oid : Oid}
    {held : Bytes} (h : Brought sha256 actions ns oid held) :
    ∃ key plain, sha256 plain = oid ∧ StoredAs crates oid key plain held ∧
      Unseals reader.staging.keys key := by
  rcases h with htransferred | ⟨haction, -, hdigest⟩
  · obtain ⟨i, server, salt, ns', size, budget, chunks, haction, -, hdigest, hreceived⟩ :=
      htransferred.digest
    obtain ⟨-, key, hkey, hstored⟩ := received_stored hreceived
      (hsmall i server salt ns' oid size budget chunks haction)
    refine ⟨key, _, hdigest, hstored, fun k hk => ?_⟩
    rcases hkey with rfl | rfl
    · cases hk
    obtain ⟨ring, hring, rfl⟩ := Option.map_eq_some_iff.mp hk
    obtain ⟨ring', hring', hholds⟩ :=
      hreads i server salt ns' oid size budget chunks haction ring hring
    obtain ⟨_, hsome, hreading⟩ := unseals_writing ring salt _ rfl
    cases hsome
    exact ⟨ring', hring', Keeps.reading hholds hreading⟩
  · exact ⟨none, _, hdigest, .raw (hplain _ _ _ _ _ _ haction), fun _ hk => by cases hk⟩

/-- No server frames what it stores, and no transfer begins as a container. -/
def Plainly (actions : κ → Action crates) : Prop :=
  ∀ i server salt ns oid size budget chunks,
    actions i = .write server salt ns oid size budget chunks →
    server.staging.frames = false ∧ Codec.collides (arriving chunks) = false

/-! ## Runs -/

/-- Actions side by side, over an empty bucket. -/
def start (sha256 : Bytes → Oid) (actions : κ → Action crates) (clock : Nat) :
    Pool κ Req Resp (Except Error Unit) Bucket :=
  ⟨fun i => ((actions i).op sha256).run, ⟨∅, clock⟩⟩

variable [DecidableEq κ] {provider : Provider} {clock : Nat}
  {pool : Pool κ Req Resp (Except Error Unit) Bucket}

/-- **The bucket is stocked in every state.** -/
theorem stocked
    (hsteps : Pool.Steps (fun _ => Faulty provider) (start sha256 actions clock) pool) :
    Stocked sha256 actions pool.state := by
  have hempty : Stocked sha256 actions (⟨∅, clock⟩ : Bucket) := by
    refine ⟨fun oid o h => ?_, fun ns oid o h => ?_, fun ns oid h => ?_⟩ <;>
      simp [Bucket.Has, Bucket.find] at h
  let keeps : Bucket → Bucket → Prop := fun b b' =>
    Stocked sha256 actions b → Stocked sha256 actions b'
  have hunder : (start sha256 actions clock).Under (fun _ => Faulty provider) (fun _ => keeps)
      (fun _ => keeps) fun _ => Fallible.Ends (fun _ _ => True) fun _ => True := by
    intro i
    have hstable : Program.Stable keeps (Stocked sha256 actions) := fun _ _ h hb => h hb
    have hi : ((actions i).op sha256).Under (Faulty provider) keeps keeps
        (fun _ b => Stocked sha256 actions b ∧ True) (fun _ => True) (⟨∅, clock⟩ : Bucket) :=
      (action_asks i).under hstable (fun r hr b answer b' hb hexec =>
        ⟨fun hb => hb.step hr hexec, hb.step hr hexec, hb.tells hexec⟩) hempty fun _ _ => trivial
    exact hi.mono (fun _ _ _ => trivial) fun _ h => h
  have hrely : ∀ i j : κ, i ≠ j → ∀ b b', keeps b b' → keeps b b' := fun _ _ _ _ _ h => h
  exact Pool.Steps.invariant hrely (fun _ _ _ h hb => h hb) hunder hempty hsteps

/-- **A marker is earned.**  A repository that holds an object brought it itself: it sent bytes of
that digest through a server, or put them where a server sent it.  That another repository holds
the object earns it nothing. -/
theorem markers_are_earned
    (hsteps : Pool.Steps (fun _ => Faulty provider) (start sha256 actions clock) pool)
    (ns : Namespace) (oid : Oid) (hmarker : pool.state.Has (S3Store.markerKey ns oid)) :
    (∃ i server salt ns' size budget chunks,
      actions i = .write server salt ns' oid size budget chunks ∧ ns'.Same ns ∧
        sha256 (arriving chunks) = oid) ∨
    ∃ i server ns' size body, actions i = .deposit server ns' oid size body ∧ ns'.Same ns ∧
      sha256 body = oid := by
  obtain ⟨held, hbrought⟩ := (stocked hsteps).marker ns oid hmarker
  rcases hbrought with htransferred | ⟨haction, hns, hdigest⟩
  · obtain ⟨i, server, salt, ns', size, budget, chunks, haction, hns, hdigest, -⟩ :=
      htransferred.digest
    exact .inl ⟨i, server, salt, ns', size, budget, chunks, haction, hns, hdigest⟩
  · exact .inr ⟨_, _, _, _, _, haction, hns, hdigest⟩

/-- **A redirect leads to the object itself**, as long as no server ever framed what it stored and
no transfer began as a container: what is under the key a client is sent to has the digest it was
sent for, whoever brought it. -/
theorem redirects_are_objects (hplainly : Plainly actions)
    (hsteps : Pool.Steps (fun _ => Faulty provider) (start sha256 actions clock) pool)
    (server : Store crates) (oid : Oid) (key : Text) (o : Stored)
    (hredirect : server.redirect oid = some key) (hfind : pool.state.find key = some o) :
    sha256 o.body = oid := by
  have hkey : key = S3Store.contentKey oid := by
    rw [Store.redirect] at hredirect
    split at hredirect
    · cases hredirect
    · rw [Store.presignedDownload] at hredirect
      split at hredirect
      · cases hredirect
      · cases hprovider : server.keys.provider <;> rw [hprovider] at hredirect
        · exact (Option.some.inj hredirect).symm
        · exact (Option.some.inj (Option.ite_none_right_eq_some.mp hredirect).2).symm
        · exact (Option.some.inj (Option.ite_none_right_eq_some.mp hredirect).2).symm
  subst hkey
  obtain ⟨ns, hbrought⟩ := (stocked hsteps).content oid o hfind
  rcases hbrought with htransferred | ⟨-, -, hdigest⟩
  · obtain ⟨i, server', salt, ns', size, budget, chunks, haction, -, hdigest, hreceived⟩ :=
      htransferred.digest
    obtain ⟨hframes, hcollides⟩ := hplainly i server' salt ns' oid size budget chunks haction
    rw [received_plain hframes hcollides hreceived]
    exact hdigest
  · exact hdigest

/-! ### Two pushes -/

/-- A server that keeps objects as they are and sends clients to the bucket. -/
def plainServer : Store Crates.plain := ⟨keeping, ⟨.s3, 2⟩, false, true⟩

def oneByte : Bytes := [0x78]

/-- A digest that tells one byte from everything else. -/
def digestOf (body : Bytes) : Oid := if body = oneByte then Oid.zeros else Oid.ones

theorem eq_of_digestOf {body : Bytes} (h : digestOf body = Oid.zeros) : body = oneByte := by
  rw [digestOf] at h
  split at h
  · assumption
  · exact absurd h (by decide)

inductive Party where
  | sends
  | puts
  | fetches
deriving DecidableEq

/-- A transfer through the server, an upload of the same object by another repository, which
nobody reports, and a download. -/
def twoPushes : Party → Action Crates.plain
  | .sends => .write plainServer ⟨List.replicate Crypt.salt 0, List.length_replicate⟩ .acme
      Oid.zeros none none [.ok oneByte]
  | .puts => .deposit plainServer .tools Oid.zeros 1 oneByte
  | .fetches => .download plainServer .acme Oid.zeros

def pushed : Option (Pool Party Req Resp (Except Error Unit) Bucket) :=
  Pool.play (fun _ => plays .s3)
    [.sends, .sends, .puts, .sends, .sends, .sends, .fetches, .sends, .fetches, .fetches]
    (start digestOf twoPushes 0)

theorem pushed_steps {pool : Pool Party Req Resp (Except Error Unit) Bucket}
    (h : pushed = some pool) :
    Pool.Steps (fun _ => Faulty .s3) (start digestOf twoPushes 0) pool := by
  rw [pushed] at h
  exact Pool.play_steps (fun _ _ _ _ hanswered => plays_faulty hanswered) h

/-- The object is there, and held by the repository that sent it alone. -/
theorem pushed_holds : ∃ pool, pushed = some pool ∧
    pool.state.Has (S3Store.markerKey .acme Oid.zeros) ∧
      pool.state.Has (S3Store.contentKey Oid.zeros) ∧
        ¬ pool.state.Has (S3Store.markerKey .tools Oid.zeros) := by
  have hplayed : (pushed.any fun pool =>
      pool.state.Has (S3Store.markerKey .acme Oid.zeros) &&
        pool.state.Has (S3Store.contentKey Oid.zeros) &&
          !pool.state.Has (S3Store.markerKey .tools Oid.zeros)) = true := by
    decide +kernel
  obtain ⟨pool, hplay, hheld⟩ := (Option.any_eq_true _ _).mp hplayed
  simp only [Bool.and_eq_true, decide_eq_true_eq, Bool.not_eq_true', decide_eq_false_iff_not]
    at hheld
  exact ⟨pool, hplay, hheld.1.1, hheld.1.2, hheld.2⟩

theorem markers_are_earned_pushed :
    ∃ pool, pushed = some pool ∧
      ((∃ i server salt ns size budget chunks,
        twoPushes i = .write server salt ns Oid.zeros size budget chunks ∧
          ns.Same Namespace.acme ∧ digestOf (arriving chunks) = Oid.zeros) ∨
      ∃ i server ns size body, twoPushes i = .deposit server ns Oid.zeros size body ∧
        ns.Same Namespace.acme ∧ digestOf body = Oid.zeros) := by
  obtain ⟨pool, hplay, hmarker, -, -⟩ := pushed_holds
  exact ⟨pool, hplay, markers_are_earned (pushed_steps hplay) .acme Oid.zeros hmarker⟩

theorem twoPushes_plainly : Plainly twoPushes := by
  intro i server salt ns oid size budget chunks h
  cases i with
  | sends =>
      cases h
      exact ⟨rfl, by decide⟩
  | puts => cases h
  | fetches => cases h

theorem redirects_are_objects_pushed :
    ∃ pool o, pushed = some pool ∧
      plainServer.redirect Oid.zeros = some (S3Store.contentKey Oid.zeros) ∧
        pool.state.find (S3Store.contentKey Oid.zeros) = some o ∧ o.body = oneByte := by
  obtain ⟨pool, hplay, -, hcontent, -⟩ := pushed_holds
  obtain ⟨o, ho⟩ := Option.isSome_iff_exists.mp hcontent
  exact ⟨pool, o, hplay, rfl, ho, eq_of_digestOf (redirects_are_objects twoPushes_plainly
    (pushed_steps hplay) plainServer Oid.zeros _ o rfl ho)⟩

end Runs

/-! ## A direct upload -/

section Direct

variable {crates : Crates} {sha256 : Bytes → Oid} {server : Store crates} {ns : Namespace}
  {oid : Oid} {ceiling quota : Option Nat} {used : Nat} {login : Text} {body : Bytes}

variable {σ : Type} {handle : (r : Req) → Bucket × σ → Resp r × (Bucket × σ)} {b : Bucket}

end Direct

end Lfsx.Served
