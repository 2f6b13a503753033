import Lfsx.Base64
import Lfsx.Storage.KeyspaceAlone
import Lfsx.Storage.LocalWrite
import Lfsx.Storage.Multipart
import Lfsx.Storage.Remote
import Lfsx.Storage.S3

/-!
# The store on a bucket

`Store` over a bucket: a transfer is staged on a volume beside it, where it is framed if the
server compresses or seals, and what was staged goes up.  A download asks for the marker, then for
the size of the content, and reads the content through ranged requests.

With `redirect` a client is handed an address instead: for a download the content key, unless this
server frames what it stores, and for an upload a key of its own, under which the bucket takes
bytes of one digest alone, the one that was signed into the address.
-/

namespace Lfsx

namespace Oid

/-- The value of a digit. -/
def nibble (c : Char) : Nat :=
  if c.isDigit then c.toNat - '0'.toNat else c.toNat - 'a'.toNat + 10

/-- `hex::decode`, of digits. -/
def decodeHex : Text → Bytes
  | high :: low :: rest => UInt8.ofNat (16 * nibble high + nibble low) :: decodeHex rest
  | _ => []

theorem nibble_lt {c : Char} (h : isHexDigit c = true) : nibble c < 16 := by
  have hall : ∀ n < 128, isHexDigit (Char.ofNat n) = true → nibble (Char.ofNat n) < 16 := by
    decide +kernel
  have hc := hall c.toNat (toNat_lt_of_isHexDigit h)
  rw [Char.ofNat_toNat] at hc
  exact hc h

theorem nibble_inj {a b : Char} (ha : isHexDigit a = true) (hb : isHexDigit b = true)
    (h : nibble a = nibble b) : a = b := by
  have hall : ∀ m < 128, ∀ n < 128, isHexDigit (Char.ofNat m) = true →
      isHexDigit (Char.ofNat n) = true → nibble (Char.ofNat m) = nibble (Char.ofNat n) →
      Char.ofNat m = Char.ofNat n := by
    decide +kernel
  have heq := hall a.toNat (toNat_lt_of_isHexDigit ha) b.toNat (toNat_lt_of_isHexDigit hb)
  rw [Char.ofNat_toNat, Char.ofNat_toNat] at heq
  exact heq ha hb h

theorem decodeHex_inj : ∀ {a b : Text}, (∀ c ∈ a, isHexDigit c = true) →
    (∀ c ∈ b, isHexDigit c = true) → a.length = b.length → a.length % 2 = 0 →
    decodeHex a = decodeHex b → a = b
  | [], _, _, _, hlen, _, _ => (List.length_eq_zero_iff.mp hlen.symm).symm
  | [_], _, _, _, _, heven, _ => by cases heven
  | _ :: _ :: _, [], _, _, hlen, _, _ => by cases hlen
  | _ :: _ :: _, [_], _, _, hlen, _, _ => by cases hlen
  | high :: low :: rest, high' :: low' :: rest', ha, hb, hlen, heven, h => by
      simp only [List.forall_mem_cons] at ha hb
      simp only [List.length_cons] at hlen heven
      rw [decodeHex, decodeHex, List.cons.injEq] at h
      obtain ⟨hbyte, hrest⟩ := h
      have hhigh := nibble_lt ha.1
      have hlow := nibble_lt ha.2.1
      have hhigh' := nibble_lt hb.1
      have hlow' := nibble_lt hb.2.1
      have hvalue : 16 * nibble high + nibble low = 16 * nibble high' + nibble low' := by
        have hnat := congrArg UInt8.toNat hbyte
        rw [UInt8.toNat_ofNat_of_lt' (by simp only [UInt8.size]; omega),
          UInt8.toNat_ofNat_of_lt' (by simp only [UInt8.size]; omega)] at hnat
        exact hnat
      rw [nibble_inj ha.1 hb.1 (by omega), nibble_inj ha.2.1 hb.2.1 (by omega),
        decodeHex_inj ha.2.2 hb.2.2 (by omega) (by omega) hrest]

/-- The digest of a signed upload, as the store is told it. -/
def checksum (oid : Oid) : Text := Base64.encode (decodeHex oid.text)

theorem checksum_injective : Function.Injective checksum := by
  intro a b h
  refine ext (decodeHex_inj (fun c hc => isHexDigit_of_mem hc) (fun c hc => isHexDigit_of_mem hc)
    (by rw [length_text, length_text]) (by rw [length_text]) (Base64.encode_injective h))

end Oid

namespace Storage

open Request Codec Keyspace

/-! ## What is staged -/

namespace LocalStore

variable {crates : Crates} (sha256 : Bytes → Text) (store : LocalStore crates)

/-- Does this store write containers? -/
def frames : Bool := store.compression.isSome || store.keys.isSome

def encrypts : Bool := store.keys.isSome

/-- The sink of a transfer, with the salt that is drawn for it. -/
def sinkWith (salt : Salt) (oid : Oid) : Sink :=
  match store.compression, store.keys with
  | none, none => Sink.unsettled oid
  | level, keys => .framed (Writer.start level (keys.map fun ring => ring.writing salt) oid)

/-- The bytes a transfer leaves in its staging file, if it is taken. -/
def received (salt : Salt) (oid : Oid) (expectedSize : Option Nat) (budget : Option Budget)
    (chunks : List (Except String Bytes)) : Except Error Bytes := do
  let received ← store.receive budget chunks (store.sinkWith salt oid) []
  let bytes ← received.1.finish crates
  agrees oid expectedSize (sha256 received.2) received.2.length
  return bytes

section

variable {crates : Crates} {sha256 : Bytes → Text} {store : LocalStore crates} {oid : Oid}
  {budget : Option Budget} {chunks : List (Except String Bytes)} {may : Files.Req Text → Prop}
  {d : Volume}

/-- What a program leaves that works on the volume by itself, if it succeeds. -/
abbrev Yields {α : Type} (may : Files.Req Text → Prop) (Q : α → Volume → Prop)
    (op : LocalStore.Op α) (d : Volume) : Prop :=
  op.Alone (Files.Faulty may) (fun _ _ => True) Q (fun _ => True) d

theorem sinkFor_yields {α : Type} {Q : α → Volume → Prop} {f : Sink → LocalStore.Op α}
    (h : ∀ salt, Yields may Q (f (store.sinkWith salt oid)) d) :
    Yields may Q (store.sinkFor oid >>= f) d := by
  have hkey : ∀ (level : Option Int) (keys : Option (Keyring crates)),
      (∀ salt : Salt, Yields may Q
        (f (.framed (Writer.start level (keys.map fun ring => ring.writing salt) oid))) d) →
      Yields may Q ((writingKey keys >>= fun key =>
        (return .framed (Writer.start level key oid) : LocalStore.Op Sink)) >>= f) d := by
    intro level keys hkeys
    cases keys with
    | none => exact hkeys ⟨List.replicate Crypt.salt 0, List.length_replicate⟩
    | some ring =>
        rw [writingKey, bind_assoc, bind_assoc]
        refine Fallible.Alone.certain fun salt d' hexec => ⟨trivial, ?_⟩
        have hsame : d' = d := by
          rcases hexec with hexec | hexec
          · exact hexec
          · exact absurd hexec.2 id
        subst hsame
        exact hkeys salt
  rw [sinkFor]
  simp only [sinkWith] at h
  cases hlevel : store.compression with
  | none =>
      cases hkeys : store.keys with
      | none =>
          rw [hlevel, hkeys] at h
          exact h ⟨List.replicate Crypt.salt 0, List.length_replicate⟩
      | some ring =>
          rw [hlevel, hkeys] at h
          exact hkey none (some ring) h
  | some level =>
      cases hkeys : store.keys with
      | none =>
          rw [hlevel, hkeys] at h
          exact hkey (some level) none h
      | some ring =>
          rw [hlevel, hkeys] at h
          exact hkey (some level) (some ring) h

/-- The transfer so far: what the sink made of it is in the staging file. -/
structure Landed (sha256 : Bytes → Text) (store : LocalStore crates) (oid : Oid)
    (budget : Option Budget) (chunks : List (Except String Bytes)) (path : LocalPath)
    (answer : Text × Nat) (d : Volume) : Prop where
  file : ∃ salt received bytes f,
    store.receive budget chunks (store.sinkWith salt oid) [] = .ok received ∧
      received.1.finish crates = .ok bytes ∧ answer = (sha256 received.2, received.2.length) ∧
      d.find path = some f ∧ f.bytes = bytes

theorem streamTo_yields (path : LocalPath) :
    Yields may (Landed sha256 store oid budget chunks path)
      (store.streamTo sha256 path oid budget chunks) d := by
  have hstreams : ∀ d₁ file, d₁.inode path = some file →
      Yields may (Landed sha256 store oid budget chunks path) (do
        let sink ← store.sinkFor oid
        let received ← Fallible.ofExcept (store.receive budget chunks sink [])
        let bytes ← Fallible.ofExcept (received.1.finish crates)
        io (Files.write file bytes)
        return (sha256 received.2, received.2.length)) d₁ := by
    intro d₁ file hfile
    refine sinkFor_yields fun salt => ?_
    refine Fallible.Under.ofExcept Fallible.stable_never (fun received hreceived => ?_)
      fun _ _ => trivial
    refine Fallible.Under.ofExcept Fallible.stable_never (fun bytes hbytes => ?_) fun _ _ => trivial
    refine Fallible.Alone.mapped fun answer d₂ hexec => ⟨trivial, ?_⟩
    rcases hexec.write with ⟨rfl, time, -, rfl⟩ | ⟨-, rfl, short, time, -, -, rfl⟩
    · refine Fallible.Alone.pure
        ⟨salt, received, bytes, ⟨bytes, time⟩, hreceived, hbytes, rfl, ?_, rfl⟩
      exact Files.Disk.find_fill_self hfile
    · trivial
  rw [streamTo]
  refine Fallible.Alone.mapped fun answer d₁ hexec => ⟨trivial, ?_⟩
  rcases hexec.create with ⟨i, time, hi, rfl, -, rfl⟩ | ⟨time, -, rfl, -, rfl⟩ | ⟨-, rfl, rfl⟩
  · exact hstreams _ i hi
  · exact hstreams _ _ (by rw [Files.Disk.inode_add, if_pos rfl])
  · trivial

/-- **What a transfer leaves in its staging file**, when it is taken. -/
theorem stage_yields (ns : Namespace) (expectedSize : Option Nat) :
    Yields may (fun staged d' => ∃ salt bytes f,
      store.received sha256 salt oid expectedSize budget chunks = .ok bytes ∧
        d'.find staged.path = some f ∧ f.bytes = bytes)
      (store.stage sha256 ns oid expectedSize budget chunks) d := by
  rw [stage]
  split
  · exact Fallible.Alone.throw trivial
  refine Fallible.Alone.mapped fun answer d₁ hexec => ⟨trivial, ?_⟩
  cases answer with
  | error e => trivial
  | ok _ =>
  refine Fallible.Alone.caught fun answer d₂ hexec => ⟨trivial, ?_⟩
  rw [stagingPath, bind_assoc]
  refine Fallible.Alone.certain fun ticket d₃ hexec => ⟨trivial, ?_⟩
  have hgive : ∀ d' e, Yields may (fun (staged : Staged) d' => ∃ salt bytes f,
      store.received sha256 salt oid expectedSize budget chunks = .ok bytes ∧
        d'.find staged.path = some f ∧ f.bytes = bytes)
      (giveUp (parent (objectPath ns oid) ++ [partName oid ticket]) e) d' := by
    intro d' e
    exact Fallible.Alone.caught fun _ _ _ => ⟨trivial, Fallible.Alone.throw trivial⟩
  refine Fallible.Under.attempt
    (Fallible.Under.mono (streamTo_yields _) ?_ fun d' _ e => hgive d' e)
  rintro ⟨digest, written⟩ d₄ ⟨salt, received, bytes, f, hreceived, hbytes, hanswer, hf, hfile⟩
  obtain ⟨rfl, rfl⟩ := Prod.mk.inj hanswer
  cases hagrees : agrees oid expectedSize (sha256 received.2) received.2.length with
  | error e =>
      simp only [hagrees]
      exact hgive d₄ e
  | ok _ =>
  simp only [hagrees]
  refine Fallible.Alone.mapped fun answer d₅ hexec => ⟨trivial, ?_⟩
  obtain ⟨rfl, hcases⟩ := hexec.metadata
  rcases hcases with ⟨i, g, -, -, rfl⟩ | ⟨-, rfl⟩ | ⟨-, rfl⟩
  · refine Fallible.Alone.pure ⟨salt, bytes, f, ?_, hf, hfile⟩
    simp only [LocalStore.received, hreceived, hbytes, hagrees, bind, Except.bind]
    rfl
  · trivial
  · trivial

end

/-! ### What was received -/

section

variable {crates : Crates} {sha256 : Bytes → Text} {store : LocalStore crates} {salt : Salt}
  {oid : Oid} {size : Option Nat} {budget : Option Budget} {chunks : List (Except String Bytes)}
  {file : Bytes}

theorem sinkWith_took :
    Sink.Took crates store.compression (store.keys.map fun ring => ring.writing salt) oid []
      (store.sinkWith salt oid) := by
  rw [sinkWith]
  cases hlevel : store.compression with
  | none =>
      cases hkeys : store.keys with
      | none => exact .undecided rfl rfl (by decide)
      | some ring => exact .framed (show ([] : List Bytes).flatten = [] from rfl) rfl
  | some level => exact .framed (show ([] : List Bytes).flatten = [] from rfl) rfl

/-- Which bytes a transfer was received with, and how they were checked. -/
theorem received_eq_ok (h : store.received sha256 salt oid size budget chunks = .ok file) :
    ∃ sink, store.receive budget chunks (store.sinkWith salt oid) [] =
        .ok (sink, arriving chunks) ∧ sink.finish crates = .ok file ∧
      Sink.Took crates store.compression (store.keys.map fun ring => ring.writing salt) oid
        (arriving chunks) sink ∧ sha256 (arriving chunks) = oid.text := by
  rw [received] at h
  cases hreceive : store.receive budget chunks (store.sinkWith salt oid) [] with
  | error e => rw [hreceive] at h; cases h
  | ok received =>
      obtain ⟨sink, taken⟩ := received
      have hraw : ∀ file, store.sinkWith salt oid = .raw file → sniff ≤ file.length := by
        intro file hfile
        rw [sinkWith] at hfile
        split at hfile <;> cases hfile
      obtain ⟨rfl, htook⟩ := receive_eq_ok sinkWith_took hraw hreceive
      rw [hreceive] at h
      simp only [bind, Except.bind] at h
      cases hfinish : sink.finish crates with
      | error e => rw [hfinish] at h; cases h
      | ok bytes =>
          rw [hfinish] at h
          simp only at h
          cases hagrees : agrees oid size (sha256 ([] ++ arriving chunks))
              ([] ++ arriving chunks).length with
          | error e => rw [hagrees] at h; cases h
          | ok u =>
              rw [hagrees] at h
              cases h
              refine ⟨sink, rfl, hfinish, htook, ?_⟩
              rw [agrees] at hagrees
              split at hagrees
              · cases hagrees
              · split at hagrees
                · assumption
                · cases hagrees

/-- **What was received is stored**: in a container, sealed or not, or as it is. -/
theorem received_stored (h : store.received sha256 salt oid size budget chunks = .ok file)
    (small : Small (arriving chunks)) :
    sha256 (arriving chunks) = oid.text ∧
      ∃ key, (key = none ∨ key = store.keys.map fun ring => ring.writing salt) ∧
        StoredAs crates oid key (arriving chunks) file := by
  obtain ⟨sink, -, hfinish, htook, hdigest⟩ := received_eq_ok h
  refine ⟨hdigest, ?_⟩
  rw [Sink.finish] at hfinish
  cases hsettle : sink.settle crates with
  | error e => rw [hsettle] at hfinish; cases hfinish
  | ok settled =>
      rw [hsettle] at hfinish
      generalize htaken : arriving chunks = taken at *
      cases htook.settle hsettle with
      | undecided _ _ hshort =>
          cases hfinish
          exact ⟨none, .inl rfl, .raw (header?_of_not_collides (not_collides_of_short hshort))⟩
      | raw hraw =>
          cases hfinish
          exact ⟨none, .inl rfl, .raw (header?_of_not_collides hraw)⟩
      | @framed pushed writer hpushed hpushes =>
          subst hpushed
          have hwrite : Writer.write crates store.compression
              (store.keys.map fun ring => ring.writing salt) oid pushed = .ok file := by
            rw [Writer.write_bind, hpushes]
            exact hfinish
          exact ⟨_, .inr rfl, .framed small hwrite⟩

/-- A sink that frames nothing but what begins as a container. -/
inductive Unframed (taken : Bytes) : Sink → Prop where
  | undecided (named : Oid) : taken.length < sniff → Unframed taken (.undecided taken named)
  | raw : sniff ≤ taken.length → Unframed taken (.raw taken)
  | framed (writer : Writer) : sniff ≤ taken.length → collides taken = true →
      Unframed taken (.framed writer)

theorem Unframed.settle {taken : Bytes} {sink' : Sink} (hlong : sniff ≤ taken.length)
    (h : Sink.settle crates (.undecided taken oid) = .ok sink') : Unframed taken sink' := by
  rw [Sink.settle] at h
  split at h
  · next hcollides =>
      cases hpush : (Writer.start none none oid).push crates taken with
      | error e => rw [hpush] at h; cases h
      | ok writer =>
          rw [hpush] at h
          cases h
          exact .framed writer hlong hcollides
  · cases h
    exact .raw hlong

theorem Unframed.write {taken chunk : Bytes} {sink sink' : Sink} (h : Unframed taken sink)
    (hwrite : sink.write crates chunk = .ok sink') : Unframed (taken ++ chunk) sink' := by
  cases h with
  | undecided _ hshort =>
      rw [Sink.write] at hwrite
      split at hwrite
      · next hlong => exact .settle hlong hwrite
      · next hshort =>
          cases hwrite
          exact .undecided _ (by omega)
  | raw hlong =>
      cases hwrite
      exact .raw (by rw [List.length_append]; omega)
  | framed writer hlong hcollides =>
      cases hpush : writer.push crates chunk with
      | error e => rw [Sink.write, hpush] at hwrite; cases hwrite
      | ok writer' =>
          rw [Sink.write, hpush] at hwrite
          cases hwrite
          exact .framed writer' (by rw [List.length_append]; omega)
            (by rw [collides_append hlong, hcollides])

theorem Unframed.receive {taken taken' : Bytes} {sink sink' : Sink} (h : Unframed taken sink)
    (hreceive : store.receive budget chunks sink taken = .ok (sink', taken')) :
    Unframed taken' sink' := by
  induction chunks generalizing sink taken with
  | nil =>
      cases hreceive
      exact h
  | cons item rest ih =>
      cases item with
      | error e => cases hreceive
      | ok chunk =>
          simp only [LocalStore.receive] at hreceive
          split at hreceive
          · cases hreceive
          · split at hreceive
            · cases hreceive
            · cases hwrite : sink.write crates chunk with
              | error e => rw [hwrite] at hreceive; cases hreceive
              | ok next =>
                  rw [hwrite] at hreceive
                  exact ih (h.write hwrite) hreceive

/-- A server that frames nothing keeps what it received as it came, unless that begins as a
container. -/
theorem received_plain (hframes : store.frames = false)
    (hcollides : collides (arriving chunks) = false)
    (h : store.received sha256 salt oid size budget chunks = .ok file) :
    file = arriving chunks := by
  obtain ⟨sink, hreceive, hfinish, -, -⟩ := received_eq_ok h
  have hstart : Unframed [] (store.sinkWith salt oid) := by
    rw [frames, Bool.or_eq_false_iff, Option.isSome_eq_false_iff, Option.isNone_iff_eq_none,
      Option.isSome_eq_false_iff, Option.isNone_iff_eq_none] at hframes
    rw [sinkWith, hframes.1, hframes.2]
    exact .undecided _ (by decide)
  have hsink := hstart.receive hreceive
  rw [Sink.finish] at hfinish
  generalize arriving chunks = taken at *
  cases hsink with
  | undecided _ hshort =>
      rw [Sink.settle, if_neg (by rw [hcollides]; decide)] at hfinish
      cases hfinish
      rfl
  | raw hlong =>
      cases hfinish
      rfl
  | framed writer _ hframed =>
      rw [hcollides] at hframed
      cases hframed

end

end LocalStore

/-! ## The store -/

/-- Where a client puts an object, and the digest that was signed into the address. -/
structure Presigned where
  key : Text
  checksum : Text
deriving DecidableEq

/-- The bucket takes bytes of the signed digest alone. -/
def Presigned.Takes (sha256 : Bytes → Oid) (signed : Presigned) (body : Bytes) : Prop :=
  (sha256 body).checksum = signed.checksum

instance (sha256 : Bytes → Oid) (signed : Presigned) (body : Bytes) :
    Decidable (signed.Takes sha256 body) :=
  inferInstanceAs (Decidable (_ = _))

/-- A bucket, the volume that transfers are staged on, and what the operator asked for. -/
structure Store (crates : Crates) where
  staging : LocalStore crates
  keys : Keyspace
  /-- Only S3 signs a download with any credential. -/
  signs : Bool
  redirects : Bool

/-- A reading program on a key. -/
def onKey {α : Type} (key : Text) : Reading α → Program Keyspace.Req Keyspace.Resp α
  | .pure a => .pure a
  | .request r next =>
      .request (.getRange key r.offset r.length) fun answer => onKey key (next answer)

namespace Store

variable {crates : Crates} (store : Store crates)

/-- `S3Store::presigned_download`, as the key that was signed. -/
def presignedDownload (oid : Oid) : Option Text :=
  if !store.redirects then none
  else match store.keys.provider with
    | .s3 => some (S3Store.contentKey oid)
    | .azure => if store.signs then some (S3Store.contentKey oid) else none
    | .gcs => if store.signs then some (S3Store.contentKey oid) else none

/-- Where a client fetches an object from, when that is not this server. -/
def redirect (oid : Oid) : Option Text :=
  if store.staging.frames then none else store.presignedDownload oid

/-- Where a client puts an object, when that is not this server. -/
def presignedUpload (ns : Namespace) (oid : Oid) (size : Nat) : Option Presigned :=
  if store.staging.encrypts then none
  else if !store.redirects || decide (Multipart.S3.singlePutCeiling < size) then none
  else match store.keys.provider with
    | .s3 => some ⟨S3Store.incomingKey ns oid, oid.checksum⟩
    | .azure => none
    | .gcs => none

def uploadedSize (ns : Namespace) (oid : Oid) : Op (Option Nat) := do
  match ← (head (S3Store.incomingKey ns oid)).attempt with
  | .ok size => return some size
  | .error _ => return none

/-- `Store::write`, with what comes of staging the transfer: was it new to the repository? -/
def write (ns : Namespace) (oid : Oid) (staged : Except Error Bytes) : Op Bool := do
  let held ← S3Store.exists' ns oid
  let staged ← Fallible.ofExcept staged
  S3Store.store ns oid staged
  return !held

def adopt (ns : Namespace) (oid : Oid) (arrived : Nat) : Op Unit :=
  S3Store.adopt store.keys ns oid arrived

def «open» (ns : Namespace) (oid : Oid) : Op Object := do
  if ← S3Store.exists' ns oid then do
    let size ← S3Store.sizeOf oid
    ExceptT.mk (onKey (S3Store.contentKey oid) (Object.open crates size store.staging.keys oid))
  else throw .notFound

/-- `Object::stream`, of an object in a bucket. -/
def stream (crates : Crates) (oid : Oid) (start length : Nat) : Object → Op Streamed
  | .framed f => ExceptT.mk do
      let streamed ← onKey (S3Store.contentKey oid) (f.stream crates start length)
      return .ok streamed
  | .raw _ => do
      let bytes ← getRange (S3Store.contentKey oid) start length
      return ⟨[bytes], .ok ()⟩

/-- An object that is opened and streamed from the beginning, with its size. -/
def download (ns : Namespace) (oid : Oid) : Op (Nat × Streamed) := do
  let object ← store.open ns oid
  let streamed ← stream crates oid 0 object.size object
  return (object.size, streamed)

end Store

/-! ## Reading from a store that is well -/

section

variable {σ α : Type} {provider : Provider}
  {handle : (r : Req) → Bucket × σ → Resp r × (Bucket × σ)} {b : Bucket} {key : Text} {o : Stored}

end

end Storage

end Lfsx
