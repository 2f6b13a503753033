import Mathlib.Data.Fintype.EquivFin
import Lfsx.Files.DiskBytes
import Lfsx.Locks.Refused

/-!
# A lock nobody is at

What can be done with a lock when no other request is in progress and nothing fails.  A lock
whose file or value is whole is read and listed, its owner gives it back and an admin opens it by
force, and the path is taken again after that, if there is room (`opens_local`,
`opens_bucket`).
-/

namespace Lfsx.Locks

open Request
open Files (Disk Refused Bytes)
open Shelves (Shelf Item)
open Storage (LocalPath)

/-! ## Nobody beside -/

/-- The keys under a text that are taken. -/
def Listed (bucket : Shelf Text Bytes Text) (under : Text) (listed : List Text) : Prop :=
  listed.Nodup ∧ ∀ key, key ∈ listed ↔ under <+: key ∧ (bucket.items key).isSome

variable {ρ ι : Type} [DecidableEq ρ]

/-- What a request is answered that nobody is beside, and that does not fail. -/
def rests (process : ρ) (i : ι) : Semantics Req Resp (World ρ ι)
  | .bucket (.keys under), w, answer, w' =>
      (∃ listed, answer = .ok listed ∧ Listed w.bucket under listed) ∧ w' = w
  | .bucket r, w, answer, w' =>
      ∃ b, Shelves.Answers r w.bucket answer b ∧ w' = { w with bucket := b }
  | r, w, answer, w' => serves (fun _ => process) (fun _ => False) i r w answer w'

/-- A handler that answers a thread of a process so. -/
def Attends (process : ρ) (i : ι) (handle : (r : Req) → World ρ ι → Resp r × World ρ ι) : Prop :=
  ∀ r w, (∀ slot, r = .acquire slot → w.gates process slot = none) →
    rests process i r w (handle r w).1 (handle r w).2

/-- A shelf has a version left to give. -/
theorem exists_fresh (s : Shelf Text Bytes Text) : ∃ version, s.Fresh version := by
  obtain ⟨version, hfresh⟩ := Infinite.exists_notMem_finset
    (s.granted.map Shelves.Grant.version).toFinset
  exact ⟨version, fun hmem => hfresh (List.mem_toFinset.mpr hmem)⟩

theorem exists_listed (s : Shelf Text Bytes Text) (under : Text) :
    ∃ listed, Listed s under listed := by
  let taken : Text → Bool := fun key => under.isPrefixOf key && (s.items key).isSome
  refine ⟨((s.granted.map Shelves.Grant.key).filter taken).dedup, List.nodup_dedup _, fun key => ?_⟩
  rw [List.mem_dedup, List.mem_filter, Bool.and_eq_true, List.isPrefixOf_iff_prefix]
  constructor
  · exact And.right
  · intro h
    obtain ⟨item, hitem⟩ := Option.isSome_iff_exists.mp h.2
    exact ⟨List.mem_map_of_mem (s.vouched key item hitem), h⟩

/-- Every request can be answered so. -/
theorem exists_attends (process : ρ) (i : ι) : ∃ handle, Attends process i handle := by
  have htotal : ∀ r (w : World ρ ι), ∃ answered : Resp r × World ρ ι,
      (∀ slot, r = .acquire slot → w.gates process slot = none) →
        rests process i r w answered.1 answered.2 := by
    intro r w
    cases r with
    | acquire slot => exact ⟨((), _), fun hfree => ⟨hfree slot rfl, rfl⟩⟩
    | drop slot => exact ⟨((), _), fun _ => rfl⟩
    | now => exact ⟨((0 : Time), w), fun _ => rfl⟩
    | disk r =>
        exact ⟨((Files.respond r w.disk).1, { w with disk := (Files.respond r w.disk).2 }),
          fun _ => ⟨_, Or.inl (Files.respond_answers r w.disk), rfl⟩⟩
    | createNew path =>
        cases hpath : w.disk.inode path with
        | some file =>
            refine ⟨(.error .alreadyExists, w), fun _ => Or.inl ?_⟩
            rw [hpath]
            exact ⟨rfl, rfl⟩
        | none =>
            refine ⟨(.ok w.disk.files.length, { w with disk := w.disk.add path w.disk.clock }),
              fun _ => Or.inl ?_⟩
            rw [hpath]
            exact ⟨rfl, _, le_refl _, rfl⟩
    | bucket r =>
        cases r with
        | get key => exact ⟨(.ok (w.bucket.items key), w), fun _ => ⟨_, ⟨rfl, rfl⟩, rfl⟩⟩
        | keys under =>
            obtain ⟨listed, hlisted⟩ := exists_listed w.bucket under
            exact ⟨(.ok listed, w), fun _ => ⟨⟨listed, rfl, hlisted⟩, rfl⟩⟩
        | putIfAbsent key value =>
            obtain ⟨version, hfresh⟩ := exists_fresh w.bucket
            cases hitem : w.bucket.items key with
            | some item =>
                refine ⟨(.ok none, w), fun _ => ⟨w.bucket, ?_, rfl⟩⟩
                rw [Shelves.Answers, hitem]
                exact ⟨rfl, rfl⟩
            | none =>
                refine ⟨(.ok (some version),
                  { w with bucket := w.bucket.put key value version hfresh }),
                  fun _ => ⟨_, ?_, rfl⟩⟩
                rw [Shelves.Answers]
                simp only [hitem]
                exact ⟨version, hfresh, rfl, rfl⟩
        | deleteIf key version =>
            by_cases hversion : (w.bucket.items key).map Item.version = some version
            · refine ⟨(.ok true, { w with bucket := w.bucket.remove key }), fun _ => ⟨_, ?_, rfl⟩⟩
              rw [Shelves.Answers, if_pos hversion]
              exact ⟨rfl, rfl⟩
            · refine ⟨(.ok false, w), fun _ => ⟨w.bucket, ?_, rfl⟩⟩
              rw [Shelves.Answers, if_neg hversion]
              exact ⟨rfl, rfl⟩
  choose handle hhandle using htotal
  exact ⟨handle, hhandle⟩

/-- Every gate of a process is open. -/
def Rested (process : ρ) (w : World ρ ι) : Prop := ∀ slot, w.gates process slot = none

namespace Attends

variable {process : ρ} {i : ι} {handle : (r : Req) → World ρ ι → Resp r × World ρ ι}
  {w w' w'' : World ρ ι} {path source target : LocalPath} {file : Nat} {encoded : Bytes}

theorem pair {α β : Type} {p : α × β} {a : α} {b : β} (h₁ : p.1 = a) (h₂ : p.2 = b) :
    p = (a, b) := by
  rw [← h₁, ← h₂]

theorem disk (h : Attends process i handle) (r : Files.Req Text) (w : World ρ ι) :
    ∃ d, Files.Answers r w.disk (handle (.disk r) w).1 d ∧
      (handle (.disk r) w).2 = { w with disk := d } := by
  obtain ⟨d, hd | ⟨hnever, -⟩, hw⟩ := h (.disk r) w nofun
  · exact ⟨d, hd, hw⟩
  · exact absurd hnever id

theorem openFile (h : Attends process i handle) (path : LocalPath) (w : World ρ ι) :
    handle (.disk (.openFile path)) w = (Refused.notFound.unless (w.disk.inode path), w) := by
  obtain ⟨d, ⟨hanswer, rfl⟩, hw⟩ := h.disk (.openFile path) w
  exact pair hanswer hw

theorem readAll (h : Attends process i handle) (file : Nat) (w : World ρ ι) :
    handle (.disk (.readAll file)) w =
      (Refused.other.unless ((w.disk.file file).map Files.File.bytes), w) := by
  obtain ⟨d, ⟨hanswer, rfl⟩, hw⟩ := h.disk (.readAll file) w
  exact pair hanswer hw

theorem unlink (h : Attends process i handle) (hpath : w.disk.inode path = some file) :
    handle (.disk (.unlink path)) w = (.ok (), { w with disk := w.disk.unname path }) := by
  obtain ⟨d, hd, hw⟩ := h.disk (.unlink path) w
  rw [Files.Answers, hpath] at hd
  obtain ⟨hanswer, rfl⟩ := hd
  exact pair hanswer hw

theorem now (h : Attends process i handle) (w : World ρ ι) : ∃ time, handle .now w = (time, w) :=
  ⟨_, pair rfl (h .now w nofun)⟩

theorem get (h : Attends process i handle) (key : Text) (w : World ρ ι) :
    handle (.bucket (.get key)) w = (.ok (w.bucket.items key), w) := by
  obtain ⟨b, ⟨hanswer, rfl⟩, hw⟩ := h (.bucket (.get key)) w nofun
  exact pair hanswer hw

theorem keys (h : Attends process i handle) (under : Text) (w : World ρ ι) :
    ∃ listed, handle (.bucket (.keys under)) w = (.ok listed, w) ∧
      Listed w.bucket under listed := by
  obtain ⟨⟨listed, hanswer, hlisted⟩, hw⟩ := h (.bucket (.keys under)) w nofun
  exact ⟨listed, pair hanswer hw, hlisted⟩

/-- **The gate of an id is free before and after.** -/
theorem exclusive (h : Attends process i handle) {α : Type} {id : Text} {body : Op α} {a : α}
    (hrested : Rested process w)
    (hbody : body.Returns handle (w.gate process (slot id) (some i)) a w')
    (hgates : w'.gates = (w.gate process (slot id) (some i)).gates) :
    (LockStore.exclusive id body).Returns handle w a (w'.gate process (slot id) none) ∧
      Rested process (w'.gate process (slot id) none) := by
  have hacquire : handle (.acquire (slot id)) w = ((), w.gate process (slot id) (some i)) := by
    have hrests := h (.acquire (slot id)) w fun s _ => hrested s
    exact pair rfl hrests.2
  have hdrop : handle (.drop (slot id)) w' = ((), w'.gate process (slot id) none) :=
    pair rfl (h (.drop (slot id)) w' nofun)
  refine ⟨?_, fun s => ?_⟩
  · refine Fallible.Returns.bind (Fallible.Returns.certain hacquire) ?_
    refine Fallible.Returns.attempt hbody ?_
    exact Fallible.Returns.bind (Fallible.Returns.certain hdrop) Fallible.Returns.pure
  · simp only [World.gate, Function.update_self, hgates]
    by_cases hs : s = slot id
    · rw [hs, Function.update_self]
    · rw [Function.update_of_ne hs, Function.update_of_ne hs]
      exact hrested s

/-! ## Reading -/

/-- What reading a file answers. -/
def fileAt (d : Disk Text) (path : LocalPath) : Except Refused Bytes :=
  Refused.notFound.unless ((d.find path).map Files.File.bytes)

theorem fileAt_some {d : Disk Text} (hpath : d.inode path = some file)
    (hfile : (d.file file).map Files.File.bytes = some encoded) :
    fileAt d path = .ok encoded := by
  rw [fileAt, Disk.find_of_inode hpath, hfile]
  rfl

theorem fileAt_none {d : Disk Text} (hpath : d.inode path = none) :
    fileAt d path = .error .notFound := by
  rw [fileAt, Disk.find_eq_none.mpr hpath]
  rfl

theorem readFile (h : Attends process i handle) (path : LocalPath) (w : World ρ ι) :
    (LockStore.readFile path).run.eval handle w = (fileAt w.disk path, w) := by
  cases hpath : w.disk.inode path with
  | none =>
      have hopen : (onDisk (.openFile path) rfl : Fallible Refused Req Resp Nat).run.eval handle w =
          (.error .notFound, w) := by
        show ((handle (.disk (.openFile path)) w).1, (handle (.disk (.openFile path)) w).2) = _
        rw [h.openFile, hpath]
        rfl
      rw [fileAt_none hpath, LockStore.readFile, ExceptT.run_bind, Program.eval_bind, hopen]
      rfl
  | some file =>
      obtain ⟨f, hf⟩ := Disk.exists_file hpath
      have hfile : (w.disk.file file).map Files.File.bytes = some f.bytes := by rw [hf]; rfl
      have hopen : handle (.disk (.openFile path)) w = (.ok file, w) := by
        rw [h.openFile, hpath]
        rfl
      have hread : handle (.disk (.readAll file)) w = (.ok f.bytes, w) := by
        rw [h.readAll, hfile]
        rfl
      rw [fileAt_some hpath hfile]
      exact Fallible.Returns.bind (Fallible.Returns.ask hopen) (Fallible.Returns.ask hread)

section

variable {formats : Formats} {store : LockStore} {ns : Namespace} {id : Text} {lock : Lock}
  {caseless : Bool} {number : Nat} {item : Item Bytes Text}

theorem readLocal_lock (h : Attends process i handle) (hpath : w.disk.inode path = some file)
    (hfile : (w.disk.file file).map Files.File.bytes = some encoded)
    (hdecode : formats.decode encoded = some lock) :
    (LockStore.readLocal formats path).Returns handle w (some ⟨lock, none⟩) w := by
  refine Fallible.Returns.caught (h.readFile path w) ?_
  rw [fileAt_some hpath hfile]
  dsimp only
  rw [hdecode]
  exact Fallible.Returns.pure

theorem readLocal_none (h : Attends process i handle) (hpath : w.disk.inode path = none) :
    (LockStore.readLocal formats path).Returns handle w none w := by
  refine Fallible.Returns.caught (h.readFile path w) ?_
  rw [fileAt_none hpath]
  exact Fallible.Returns.pure

theorem readBucket_lock (h : Attends process i handle) {key : Text}
    (hitem : w.bucket.items key = some item) (hdecode : formats.decode item.value = some lock) :
    (LockStore.readBucket formats key).Returns handle w (some ⟨lock, some item.version⟩) w := by
  have hget : handle (.bucket (.get key)) w = (.ok (some item), w) := by rw [h.get, hitem]
  refine Fallible.Returns.bind (Fallible.Returns.mapError (Fallible.Returns.ask hget)) ?_
  dsimp only
  rw [hdecode]
  exact Fallible.Returns.pure

theorem readBucket_none (h : Attends process i handle) {key : Text}
    (hitem : w.bucket.items key = none) :
    (LockStore.readBucket formats key).Returns handle w none w := by
  have hget : handle (.bucket (.get key)) w = (.ok none, w) := by rw [h.get, hitem]
  exact Fallible.Returns.bind (Fallible.Returns.mapError (Fallible.Returns.ask hget))
    Fallible.Returns.pure

/-! ## Listing -/

/-- Whatever the other files are, a lock that is read is listed. -/
theorem listFiles_lists (h : Attends process i handle) (entries : List LocalPath) :
    ∃ locks, (LockStore.listFiles formats entries).Returns handle w locks w ∧
      ∀ path encoded lock, path ∈ entries → LockStore.isLockFile path = true →
        fileAt w.disk path = .ok encoded → formats.decode encoded = some lock → lock ∈ locks := by
  induction entries with
  | nil => exact ⟨[], Fallible.Returns.pure, fun _ _ _ hmem => absurd hmem List.not_mem_nil⟩
  | cons first rest ih =>
      obtain ⟨locks, hreturns, hlists⟩ := ih
      rw [LockStore.listFiles]
      split
      case isTrue hfirst =>
        have hread := h.readFile first w
        cases hfile : fileAt w.disk first with
        | ok bytes =>
            rw [hfile] at hread
            refine ⟨(formats.decode bytes).toList ++ locks, ?_, ?_⟩
            · exact Fallible.Returns.caught hread
                (Fallible.Returns.bind hreturns Fallible.Returns.pure)
            · intro path encoded lock hmem hlock hpath hdecode
              rcases List.mem_cons.mp hmem with rfl | hmem
              · rw [hfile] at hpath
                cases hpath
                exact List.mem_append_left _ (by simp [hdecode])
              · exact List.mem_append_right _ (hlists path encoded lock hmem hlock hpath hdecode)
        | error e =>
            rw [hfile] at hread
            refine ⟨locks, Fallible.Returns.caught hread hreturns, ?_⟩
            intro path encoded lock hmem hlock hpath hdecode
            rcases List.mem_cons.mp hmem with rfl | hmem
            · rw [hfile] at hpath
              cases hpath
            · exact hlists path encoded lock hmem hlock hpath hdecode
      case isFalse hfirst =>
        refine ⟨locks, hreturns, ?_⟩
        intro path encoded lock hmem hlock hpath hdecode
        rcases List.mem_cons.mp hmem with rfl | hmem
        · exact absurd hlock hfirst
        · exact hlists path encoded lock hmem hlock hpath hdecode

theorem listKeys_lists (h : Attends process i handle) (keys : List Text) :
    ∃ locks, (LockStore.listKeys formats keys).Returns handle w locks w ∧
      ∀ key item lock, key ∈ keys → w.bucket.items key = some item →
        formats.decode item.value = some lock → lock ∈ locks := by
  induction keys with
  | nil => exact ⟨[], Fallible.Returns.pure, fun _ _ _ hmem => absurd hmem List.not_mem_nil⟩
  | cons first rest ih =>
      obtain ⟨locks, hreturns, hlists⟩ := ih
      have hget := h.get first w
      cases hfirst : w.bucket.items first with
      | some found =>
          rw [hfirst] at hget
          refine ⟨(formats.decode found.value).toList ++ locks, ?_, ?_⟩
          · exact Fallible.Returns.bind (Fallible.Returns.mapError (Fallible.Returns.ask hget))
              (Fallible.Returns.bind hreturns Fallible.Returns.pure)
          · intro key item lock hmem hitem hdecode
            rcases List.mem_cons.mp hmem with rfl | hmem
            · rw [hfirst] at hitem
              cases hitem
              exact List.mem_append_left _ (by simp [hdecode])
            · exact List.mem_append_right _ (hlists key item lock hmem hitem hdecode)
      | none =>
          rw [hfirst] at hget
          refine ⟨locks, ?_, ?_⟩
          · exact Fallible.Returns.bind (Fallible.Returns.mapError (Fallible.Returns.ask hget))
              hreturns
          · intro key item lock hmem hitem hdecode
            rcases List.mem_cons.mp hmem with rfl | hmem
            · rw [hfirst] at hitem
              cases hitem
            · exact hlists key item lock hmem hitem hdecode

end

end Attends

/-! ## Taking and giving back -/

/-- A lock is where it belongs, whole. -/
def LockStore.Stores (formats : Formats) (store : LockStore) (ns : Namespace) (id : Text)
    (held : Held) (w : World ρ ι) : Prop :=
  match store.backend with
  | .local caseless _ => held.version = none ∧ ∃ file encoded,
      w.disk.inode (LockStore.pathIn caseless ns id) = some file ∧
      (w.disk.file file).map Files.File.bytes = some encoded ∧
      formats.decode encoded = some held.lock
  | .bucket => ∃ item, w.bucket.items (LockStore.keyOf ns id) = some item ∧
      held.version = some item.version ∧ formats.decode item.value = some held.lock

/-- Nothing is where a lock belongs. -/
def LockStore.Free (store : LockStore) (ns : Namespace) (id : Text) (w : World ρ ι) : Prop :=
  match store.backend with
  | .local caseless _ => w.disk.inode (LockStore.pathIn caseless ns id) = none
  | .bucket => w.bucket.items (LockStore.keyOf ns id) = none

/-- Fewer locks are counted than there may be. -/
def LockStore.Room (store : LockStore) (ns : Namespace) (w : World ρ ι) : Prop :=
  match store.backend with
  | .local _ _ =>
      ((w.disk.children (LockStore.directory ns)).filter LockStore.isLockFile).length <
        store.capacity
  | .bucket =>
      ∀ listed, Listed w.bucket (LockStore.keyPrefix ns) listed → listed.length < store.capacity

theorem isSome_hexDigit {c : Char} (h : Oid.isHexDigit c = true) : (hexDigit c).isSome = true := by
  rw [Oid.isHexDigit, Bool.or_eq_true, Bool.and_eq_true, decide_eq_true_eq,
    decide_eq_true_eq] at h
  rw [hexDigit]
  rcases h with hdigit | hletter
  · rw [if_pos hdigit]
    rfl
  · split
    · rfl
    · rfl

/-- The id of a path is one a client may name. -/
theorem isWellFormedId_idOf (formats : Formats) (path : Text) :
    isWellFormedId (LockStore.idOf formats path) = true := by
  rw [isWellFormedId, Bool.and_eq_true, beq_iff_eq, List.all_eq_true]
  refine ⟨by simp [LockStore.idOf], fun c hc => isSome_hexDigit ?_⟩
  exact Oid.isHexDigit_of_mem (List.mem_of_mem_take hc)

namespace Attends

variable {process : ρ} {i : ι} {handle : (r : Req) → World ρ ι → Resp r × World ρ ι}
  {w w' : World ρ ι} {formats : Formats} {store : LockStore} {ns : Namespace} {id path : Text}
  {lock : Lock} {held : Held} {encoded : Bytes}

theorem readDir_nil (h : Attends process i handle) {dir : LocalPath}
    (hnone : w.disk.children dir = []) :
    handle (.disk (.readDir dir)) w = (.error .notFound, w) := by
  obtain ⟨d, ⟨hanswer, rfl⟩, hw⟩ := h.disk (.readDir dir) w
  rw [if_pos hnone] at hanswer
  exact pair hanswer hw

theorem readDir_cons (h : Attends process i handle) {dir : LocalPath}
    (hsome : w.disk.children dir ≠ []) :
    ∃ entries, handle (.disk (.readDir dir)) w = (.ok (entries, true), w) ∧
      entries.Perm (w.disk.children dir) := by
  obtain ⟨d, ⟨hanswer, rfl⟩, hw⟩ := h.disk (.readDir dir) w
  rw [if_neg hsome] at hanswer
  obtain ⟨entries, hanswer, hperm⟩ := hanswer
  exact ⟨entries, pair hanswer hw, hperm⟩

theorem read_stores (h : Attends process i handle) (hid : isWellFormedId id = true)
    (hstores : store.Stores formats ns id held w) :
    (store.read formats ns id).Returns handle w (some held) w := by
  rw [LockStore.read, hid]
  rw [LockStore.Stores] at hstores
  obtain ⟨lock, version⟩ := held
  cases hbackend : store.backend with
  | «local» caseless number =>
      rw [hbackend] at hstores
      obtain ⟨hversion, file, encoded, hpath, hfile, hdecode⟩ := hstores
      cases hversion
      exact h.readLocal_lock hpath hfile hdecode
  | bucket =>
      rw [hbackend] at hstores
      obtain ⟨item, hitem, hversion, hdecode⟩ := hstores
      cases hversion
      exact h.readBucket_lock hitem hdecode

theorem get_free (h : Attends process i handle) (hid : isWellFormedId id = true)
    (hfree : store.Free ns id w) : (store.get formats ns id).Returns handle w none w := by
  have hread : (store.read formats ns id).Returns handle w none w := by
    rw [LockStore.read, hid]
    rw [LockStore.Free] at hfree
    cases hbackend : store.backend with
    | «local» caseless number =>
        rw [hbackend] at hfree
        exact h.readLocal_none hfree
    | bucket =>
        rw [hbackend] at hfree
        exact h.readBucket_none hfree
  exact Fallible.Returns.bind hread Fallible.Returns.pure

theorem list_stores (h : Attends process i handle) (hstores : store.Stores formats ns id held w) :
    ∃ locks, (store.list formats ns).Returns handle w locks w ∧ held.lock ∈ locks := by
  have hsorted : ∀ {op : Op (List Lock)} {locks : List Lock}, op.Returns handle w locks w →
      held.lock ∈ locks → ∃ locks, (op >>= fun locks => (pure (locks.insertionSort fun one other =>
        one.path ≤ other.path) : Op (List Lock))).Returns handle w locks w ∧ held.lock ∈ locks :=
    fun hreturns hmem => ⟨_, Fallible.Returns.bind hreturns Fallible.Returns.pure,
      (List.perm_insertionSort _ _).mem_iff.mpr hmem⟩
  rw [LockStore.Stores] at hstores
  rw [LockStore.list]
  cases hbackend : store.backend with
  | «local» caseless number =>
      rw [hbackend] at hstores
      obtain ⟨-, file, encoded, hpath, hfile, hdecode⟩ := hstores
      have hchild : LockStore.pathIn caseless ns id ∈
          w.disk.children (LockStore.directory ns) := by
        rw [Disk.mem_children_iff]
        exact ⟨⟨_, rfl⟩, [], file, by rw [List.append_nil, hpath]⟩
      obtain ⟨entries, hdir, hperm⟩ := h.readDir_cons (List.ne_nil_of_mem hchild)
      obtain ⟨locks, hreturns, hlists⟩ : ∃ locks,
          (LockStore.listFiles formats entries).Returns handle w locks w ∧ _ :=
        h.listFiles_lists entries
      have hread :
          (onDisk (.readDir (LockStore.directory ns)) rfl : Fallible Refused Req Resp _).Returns
            handle w (entries, true) w := Fallible.Returns.ask hdir
      have hlocal : (LockStore.listLocal formats (LockStore.directory ns)).Returns
          handle w locks w :=
        Fallible.Returns.caught hread (Fallible.Returns.bind hreturns Fallible.Returns.pure)
      exact hsorted hlocal (hlists _ encoded held.lock (hperm.mem_iff.mpr hchild)
        (isLockFile_pathIn caseless ns id) (fileAt_some hpath hfile) hdecode)
  | bucket =>
      rw [hbackend] at hstores
      obtain ⟨item, hitem, -, hdecode⟩ := hstores
      obtain ⟨listed, hkeys, -, hall⟩ := h.keys (LockStore.keyPrefix ns) w
      obtain ⟨locks, hreturns, hlists⟩ : ∃ locks,
          (LockStore.listKeys formats listed).Returns handle w locks w ∧ _ :=
        h.listKeys_lists listed
      have hunder : LockStore.keyOf ns id ∈ listed := by
        rw [hall]
        exact ⟨⟨id ++ ".json".toList, by simp [LockStore.keyPrefix, LockStore.keyOf]⟩,
          by rw [hitem]; rfl⟩
      have hbucket : (LockStore.listBucket formats ns).Returns handle w locks w :=
        Fallible.Returns.bind (Fallible.Returns.mapError (Fallible.Returns.ask hkeys)) hreturns
      exact hsorted hbucket (hlists _ item held.lock hunder hitem hdecode)

theorem count_room (h : Attends process i handle) (hroom : store.Room ns w) :
    ∃ n, (store.count ns).Returns handle w n w ∧ n < store.capacity := by
  rw [LockStore.Room] at hroom
  rw [LockStore.count]
  cases hbackend : store.backend with
  | «local» caseless number =>
      rw [hbackend] at hroom
      by_cases hnone : w.disk.children (LockStore.directory ns) = []
      · have hdir : (onDisk (.readDir (LockStore.directory ns)) rfl :
            Fallible Refused Req Resp (List LocalPath × Bool)).run.eval handle w =
            (.error .notFound, w) := by
          show ((handle (.disk (.readDir (LockStore.directory ns))) w).1,
            (handle (.disk (.readDir (LockStore.directory ns))) w).2) = _
          rw [h.readDir_nil hnone]
        exact ⟨0, Fallible.Returns.caught hdir Fallible.Returns.pure, Nat.zero_lt_of_lt hroom⟩
      · obtain ⟨entries, hdir, hperm⟩ := h.readDir_cons hnone
        have hread : (onDisk (.readDir (LockStore.directory ns)) rfl :
            Fallible Refused Req Resp (List LocalPath × Bool)).Returns handle w (entries, true) w :=
          Fallible.Returns.ask hdir
        refine ⟨(entries.filter LockStore.isLockFile).length,
          Fallible.Returns.caught hread Fallible.Returns.pure, ?_⟩
        rw [(hperm.filter _).length_eq]
        exact hroom
  | bucket =>
      rw [hbackend] at hroom
      obtain ⟨listed, hkeys, hlisted⟩ := h.keys (LockStore.keyPrefix ns) w
      exact ⟨listed.length, Fallible.Returns.bind
        (Fallible.Returns.mapError (Fallible.Returns.ask hkeys)) Fallible.Returns.pure,
        hroom listed hlisted⟩

theorem removed_stores (h : Attends process i handle) (hid : held.lock.id = id)
    (hstores : store.Stores formats ns id held w) :
    ∃ w', (store.removed ns held).Returns handle w true w' ∧ w'.gates = w.gates ∧
      store.Free ns id w' := by
  subst hid
  rw [LockStore.Stores] at hstores
  simp only [LockStore.removed, LockStore.Free]
  cases hbackend : store.backend with
  | «local» caseless number =>
      rw [hbackend] at hstores
      obtain ⟨-, file, encoded, hpath, -, -⟩ := hstores
      have hunlink := h.unlink hpath
      have hremove : (onDisk (.unlink (LockStore.pathIn caseless ns held.lock.id)) rfl :
          Fallible Refused Req Resp Unit).Returns handle w () _ := Fallible.Returns.ask hunlink
      refine ⟨_, Fallible.Returns.caught hremove Fallible.Returns.pure, rfl, ?_⟩
      show (w.disk.unname _).inode _ = none
      rw [Disk.inode_unname, if_pos rfl]
  | bucket =>
      rw [hbackend] at hstores
      obtain ⟨item, hitem, hversion, -⟩ := hstores
      rw [hversion]
      have hdelete : handle (.bucket (.deleteIf (LockStore.keyOf ns held.lock.id) item.version)) w =
          (.ok true, { w with bucket := w.bucket.remove (LockStore.keyOf ns held.lock.id) }) := by
        obtain ⟨b, hb, hw⟩ :=
          h (.bucket (.deleteIf (LockStore.keyOf ns held.lock.id) item.version)) w
            fun slot heq => by cases heq
        have hsame : (some item).map Item.version = some item.version := rfl
        rw [Shelves.Answers, hitem, if_pos hsame] at hb
        obtain ⟨hanswer, rfl⟩ := hb
        exact pair hanswer hw
      refine ⟨_, Fallible.Returns.mapError (Fallible.Returns.ask hdelete), rfl, ?_⟩
      exact Function.update_self _ _ _

/-- A staging file is made under a name no lock has. -/
theorem create_staging (h : Attends process i handle) (source : LocalPath) (w : World ρ ι) :
    ∃ file d, handle (.disk (.create source)) w = (.ok file, { w with disk := d }) ∧
      d.inode source = some file ∧
      ∀ other, other ≠ source → d.inode other = w.disk.inode other := by
  obtain ⟨d, ⟨time, -, hd⟩, hw⟩ := h.disk (.create source) w
  cases hsource : w.disk.inode source with
  | some file =>
      rw [hsource] at hd
      obtain ⟨hanswer, rfl⟩ := hd
      exact ⟨file, _, pair hanswer hw, hsource, fun _ _ => rfl⟩
  | none =>
      rw [hsource] at hd
      obtain ⟨hanswer, rfl⟩ := hd
      refine ⟨w.disk.files.length, _, pair hanswer hw, ?_, fun other hother => ?_⟩
      · rw [Disk.inode_add, if_pos rfl]
      · rw [Disk.inode_add, if_neg hother]

theorem writeNew_free (h : Attends process i handle) {number : Nat} {path : LocalPath}
    (hlock : LockStore.isLockFile path = true) (hfree : w.disk.inode path = none) :
    ∃ w', (LockStore.writeNew number ns path encoded).Returns handle w true w' ∧
      w'.gates = w.gates := by
  have hdir : handle (.disk (.createDirAll (LockStore.directory ns))) w = (.ok (), w) := by
    obtain ⟨d, ⟨hanswer, rfl⟩, hw⟩ := h.disk (.createDirAll (LockStore.directory ns)) w
    exact pair hanswer hw
  have hticket : handle (.disk .ticket) w =
      (w.disk.ticket, { w with disk := w.disk.issue }) := by
    obtain ⟨d, ⟨hanswer, rfl⟩, hw⟩ := h.disk .ticket w
    exact pair hanswer hw
  let source := LockStore.directory ns ++ [LockStore.stagedName number w.disk.ticket]
  have hsource : path ≠ source := by
    rintro rfl
    rw [IsStaging.not_lock ⟨ns, number, rfl⟩] at hlock
    cases hlock
  obtain ⟨file, made, hcreate, hmade, hothers⟩ :=
    h.create_staging source { w with disk := w.disk.issue }
  have hwrite : ∃ d, handle (.disk (.write file encoded)) { w with disk := made } =
      (.ok (), { w with disk := d }) ∧ d.inode = made.inode := by
    obtain ⟨d, ⟨hanswer, time, -, rfl⟩, hw⟩ :=
      h.disk (.write file encoded) { w with disk := made }
    exact ⟨_, pair hanswer hw, rfl⟩
  obtain ⟨written, hwrite, hwritten⟩ := hwrite
  have hlink : handle (.disk (.link source path)) { w with disk := written } =
      (.ok (), { w with disk := written.link source path }) := by
    obtain ⟨d, hd, hw⟩ := h.disk (.link source path) { w with disk := written }
    have hfrom : written.inode source = some file := by rw [hwritten, hmade]
    have hto : written.inode path = none := by
      rw [hwritten, hothers path hsource]
      exact hfree
    rw [Files.Answers] at hd
    simp only [hfrom, hto] at hd
    obtain ⟨hanswer, rfl⟩ := hd
    exact pair hanswer hw
  have hunlink := h.disk (.unlink source) { w with disk := written.link source path }
  obtain ⟨d, hd, hw⟩ := hunlink
  refine ⟨{ w with disk := d }, ?_, rfl⟩
  refine Fallible.Returns.bind (Fallible.Returns.mapError (Fallible.Returns.ask hdir)) ?_
  refine Fallible.Returns.bind (Fallible.Returns.certain hticket) ?_
  refine Fallible.Returns.bind (Fallible.Returns.mapError (Fallible.Returns.ask hcreate)) ?_
  refine Fallible.Returns.bind (Fallible.Returns.mapError (Fallible.Returns.ask hwrite)) ?_
  have hlinked : (onDisk (.link source path) rfl : Fallible Refused Req Resp Unit).Returns handle
      { w with disk := written } () { w with disk := written.link source path } :=
    Fallible.Returns.ask hlink
  refine Fallible.Returns.caught hlinked ?_
  have hunlinked : (onDisk (.unlink source) rfl : Fallible Refused Req Resp Unit).run.eval handle
      { w with disk := written.link source path } =
      ((handle (.disk (.unlink source)) { w with disk := written.link source path }).1,
        { w with disk := d }) := by
    rw [← hw]
    rfl
  exact Fallible.Returns.caught hunlinked Fallible.Returns.pure

theorem take_free (h : Attends process i handle) (hid : lock.id = id)
    (hsupported : store.backend = .bucket → store.conditionalWrites = true)
    (hfree : store.Free ns id w) :
    ∃ w', (store.take ns lock encoded).Returns handle w true w' ∧ w'.gates = w.gates := by
  subst hid
  rw [LockStore.Free] at hfree
  rw [LockStore.take]
  cases hbackend : store.backend with
  | «local» caseless number =>
      rw [hbackend] at hfree
      exact h.writeNew_free (isLockFile_pathIn caseless ns lock.id) hfree
  | bucket =>
      rw [hbackend] at hfree
      dsimp only
      rw [hsupported hbackend]
      have hput : ∃ version b,
        handle (.bucket (.putIfAbsent (LockStore.keyOf ns lock.id) encoded)) w =
          (.ok (some version), { w with bucket := b }) := by
        obtain ⟨b, hb, hw⟩ := h (.bucket (.putIfAbsent (LockStore.keyOf ns lock.id) encoded)) w
          fun slot heq => by cases heq
        rw [Shelves.Answers] at hb
        simp only [hfree] at hb
        obtain ⟨version, hfresh, hanswer, rfl⟩ := hb
        exact ⟨version, _, pair hanswer hw⟩
      obtain ⟨version, b, hput⟩ := hput
      exact ⟨{ w with bucket := b }, Fallible.Returns.bind
        (Fallible.Returns.mapError (Fallible.Returns.ask hput)) Fallible.Returns.pure, rfl⟩

/-- A path that is free is taken. -/
theorem create_free (h : Attends process i handle) {permission : Permission} {owner : Actor}
    (hrested : Rested process w) (haccepts : store.Accepts path) (hwrite : permission ≠ .read)
    (hfree : store.Free ns (LockStore.idOf formats path) w) (hroom : store.Room ns w)
    (hencode : ∀ now, (formats.encode (LockStore.asked formats path owner now)).isSome) :
    ∃ lock w', ((Call.create permission ns path owner).op formats store).Returns handle w lock w' ∧
      lock.path = path ∧ lock.owner = ⟨owner.login, some owner.id⟩ := by
  let id := LockStore.idOf formats path
  let w₁ := w.gate process (slot id) (some i)
  have hid := isWellFormedId_idOf formats path
  obtain ⟨time, hnow⟩ := h.now w₁
  obtain ⟨encoded, hencoded⟩ := Option.isSome_iff_exists.mp (hencode time)
  have hfree₁ : store.Free ns id w₁ := hfree
  have hroom₁ : store.Room ns w₁ := hroom
  obtain ⟨n, hcount, hn⟩ := h.count_room hroom₁
  obtain ⟨w₂, htake, hgates⟩ : ∃ w₂, (store.take ns (LockStore.asked formats path owner time)
      encoded).Returns handle w₁ true w₂ ∧ w₂.gates = w₁.gates :=
    h.take_free rfl haccepts.supported hfree₁
  have hgated : (store.createGated formats ns path owner).Returns handle w₁
      (LockStore.asked formats path owner time) w₂ := by
    refine Fallible.Returns.bind (Fallible.Returns.certain hnow) ?_
    dsimp only
    rw [hencoded]
    have hcapacity : (store.checkCapacity formats ns
        (LockStore.asked formats path owner time)).Returns handle w₁ () w₁ := by
      refine Fallible.Returns.bind (h.get_free hid hfree₁) (Fallible.Returns.bind hcount ?_)
      rw [if_neg (Nat.not_le_of_lt hn)]
      exact Fallible.Returns.pure
    exact Fallible.Returns.bind hcapacity (Fallible.Returns.bind htake Fallible.Returns.pure)
  obtain ⟨hreturns, -⟩ := h.exclusive hrested hgated hgates
  refine ⟨LockStore.asked formats path owner time, w₂.gate process (slot id) none, ?_, rfl, rfl⟩
  have hpermission : permission.requireWrite = .ok () := by
    cases permission with
    | read => exact absurd rfl hwrite
    | write => rfl
    | admin => rfl
  have hallowed : (Fallible.ofExcept permission.requireWrite : Op Unit).Returns handle w () w := by
    rw [hpermission]
    rfl
  refine Fallible.Returns.bind hallowed ?_
  rw [LockStore.create, haccepts.nonempty, if_neg Bool.false_ne_true,
    if_neg (Nat.not_lt_of_le haccepts.short)]
  exact hreturns

/-- A lock is given back by its owner, or opened by force. -/
theorem unlock_stores (h : Attends process i handle) {permission : Permission} {caller : Actor}
    {force : Bool} (hrested : Rested process w) (hwell : isWellFormedId id = true)
    (hid : held.lock.id = id) (hstores : store.Stores formats ns id held w)
    (hwrite : permission ≠ .read)
    (hmay : held.lock.owner.is caller = true ∨ permission = .admin ∧ force = true) :
    ∃ w', ((Call.unlock permission ns id caller force).op formats store).Returns handle w held.lock
        w' ∧ Rested process w' ∧ store.Free ns id w' := by
  let w₁ := w.gate process (slot id) (some i)
  have hstores₁ : store.Stores formats ns id held w₁ := hstores
  obtain ⟨w₂, hremoved, hgates, hfree⟩ := h.removed_stores hid hstores₁
  have hrelease : (store.release ns held).Returns handle w₁ () w₂ :=
    Fallible.Returns.bind hremoved Fallible.Returns.pure
  have hunlock : mayUnlock held.lock caller permission force = .ok () := by
    rw [mayUnlock]
    rcases hmay with hown | ⟨rfl, rfl⟩
    · rw [if_pos hown]
    · split <;> rfl
  have hgated : (unlockGated formats store ns id caller permission force).Returns handle w₁
      held.lock w₂ := by
    refine Fallible.Returns.bind (h.read_stores hwell hstores₁) ?_
    dsimp only
    rw [hunlock]
    exact Fallible.Returns.bind (Fallible.Returns.pure (a := ()))
      (Fallible.Returns.bind hrelease Fallible.Returns.pure)
  obtain ⟨hreturns, hrested'⟩ := h.exclusive hrested hgated hgates
  refine ⟨_, ?_, hrested', hfree⟩
  have hallowed : (Fallible.ofExcept permission.requireWrite : Op Unit).Returns handle w () w := by
    cases permission with
    | read => exact absurd rfl hwrite
    | write => rfl
    | admin => rfl
  exact Fallible.Returns.bind hallowed hreturns

end Attends

/-! ## What can be done with a lock -/

/-- A lock of a path is read and listed, its owner gives it back and an admin opens it by force,
and then the path is taken, if there is room. -/
def Opens (formats : Formats) (store : LockStore) (process : ρ) (i : ι) (ns : Namespace)
    (path : Text) (w : World ρ ι) : Prop :=
  ∃ held : Held, held.lock.id = LockStore.idOf formats path ∧
    LockStore.idOf formats held.lock.path = LockStore.idOf formats path ∧
    ∀ handle, Attends process i handle →
      (store.read formats ns (LockStore.idOf formats path)).Returns handle w (some held) w ∧
      (∃ locks, (store.list formats ns).Returns handle w locks w ∧ held.lock ∈ locks) ∧
      ∀ permission caller force, permission ≠ .read →
        (held.lock.owner.is caller = true ∨ permission = .admin ∧ force = true) →
        ∃ w', ((Call.unlock permission ns (LockStore.idOf formats path) caller force).op formats
            store).Returns handle w held.lock w' ∧
          ∀ permission owner, permission ≠ .read → store.Room ns w' →
            (∀ now, (formats.encode (LockStore.asked formats path owner now)).isSome) →
            ∃ lock w'', ((Call.create permission ns path owner).op formats store).Returns handle w'
                lock w'' ∧ lock.path = path ∧ lock.owner = ⟨owner.login, some owner.id⟩

/-- **A lock that is whole can be seen and opened.** -/
theorem opens_of_stores {process : ρ} {i : ι} {w : World ρ ι} {formats : Formats}
    {store : LockStore} {ns : Namespace} {path : Text} {held : Held} (hrested : Rested process w)
    (haccepts : store.Accepts path) (hid : held.lock.id = LockStore.idOf formats path)
    (hpath : held.lock.id = LockStore.idOf formats held.lock.path)
    (hstores : store.Stores formats ns (LockStore.idOf formats path) held w) :
    Opens formats store process i ns path w := by
  have hwell := isWellFormedId_idOf formats path
  refine ⟨held, hid, hpath.symm.trans hid, fun handle h => ?_⟩
  refine ⟨h.read_stores hwell hstores, h.list_stores hstores, ?_⟩
  intro permission caller force hwrite hmay
  obtain ⟨w', hreturns, hrested', hfree⟩ := h.unlock_stores hrested hwell hid hstores hwrite hmay
  exact ⟨w', hreturns, fun permission owner hwrite hroom hencode =>
    h.create_free hrested' haccepts hwrite hfree hroom hencode⟩

end Lfsx.Locks
