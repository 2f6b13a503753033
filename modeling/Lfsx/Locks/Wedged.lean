import Lfsx.Request.Within
import Lfsx.Locks.Bucket
import Lfsx.Locks.Rested
import Lfsx.Locks.Volume

/-!
# No path is wedged

A create that is refused because the path is locked, with no other request in progress, leaves
a lock that can be read, listed and opened (`refused_create_opens`), in a bucket always, and on
a volume unless a lock's file was left without the whole lock.  That comes about in two ways.
A lock that is made in place is there before it is written, so a process that stops in between,
or whose write fails, leaves a file that is no lock.  And a staging file that was linked and not
removed is the file of the lock, which a later process empties when it uses the name again.
`create_wedged` has a run of each.
-/

namespace Lfsx.Locks

open Request
open Files (Disk Refused Bytes)
open Shelves (Shelf Item)
open Storage (LocalPath)

/-- When no request is in progress, no gate is held. -/
def World.opened {ρ ι : Type} (w : World ρ ι) : World ρ ι := { w with gates := fun _ _ => none }

theorem rested_opened {ρ ι : Type} [DecidableEq ρ] (process : ρ) (w : World ρ ι) :
    Rested process w.opened := fun _ => rfl

/-- There is no lock of a path, or there is one that opens. -/
def Settled {ρ ι : Type} [DecidableEq ρ] (formats : Formats) (store : LockStore) (process : ρ)
    (ns : Namespace) (path : Text) (w : World ρ ι) : Prop :=
  store.Free ns (LockStore.idOf formats path) w ∨
    ∀ i, Opens formats store process i ns path w.opened

/-! ## Names of locks -/

theorem toLower_hexDigit {c : Char} (h : Oid.isHexDigit c = true) : c.toLower = c := by
  rw [Oid.isHexDigit, Bool.or_eq_true, Bool.and_eq_true, decide_eq_true_eq, decide_eq_true_eq] at h
  rcases Namespace.toLower_cases c with ⟨h65, h90, -⟩ | hsame
  · exfalso
    rcases h with hdigit | ⟨hletter, -⟩
    · have h57 : c.toNat ≤ 57 := by
        simp only [Char.isDigit, Bool.and_eq_true, decide_eq_true_eq] at hdigit
        simpa [UInt32.le_iff_toNat_le] using hdigit.2
      omega
    · have h97 : 97 ≤ c.toNat := hletter
      omega
  · exact hsame

/-- A volume that ignores the case of a name has the name of a lock as it is. -/
theorem spelled_idOf (formats : Formats) (caseless : Bool) (path : Text) :
    LockStore.spelled caseless (LockStore.idOf formats path ++ ".json".toList) =
      LockStore.idOf formats path ++ ".json".toList := by
  cases caseless with
  | false => rfl
  | true =>
      have hid : lower (LockStore.idOf formats path) = LockStore.idOf formats path := by
        rw [lower]
        refine (List.map_congr_left fun c hc => ?_).trans (List.map_id _)
        exact toLower_hexDigit (Oid.isHexDigit_of_mem (List.mem_of_mem_take hc))
      rw [LockStore.spelled, if_pos rfl, lower, List.map_append]
      exact congrArg (· ++ ".json".toList) hid

variable {formats : Formats} {caseless : Bool} {ns ns' : Namespace} {path path' : Text}

theorem idOf_of_pathIn (h : LockStore.pathIn caseless ns (LockStore.idOf formats path) =
    LockStore.pathIn caseless ns' (LockStore.idOf formats path')) :
    LockStore.idOf formats path = LockStore.idOf formats path' := by
  have hname := (List.cons.inj (List.append_inj' h rfl).2).1
  rw [spelled_idOf, spelled_idOf] at hname
  exact List.append_cancel_right hname

theorem idOf_of_keyOf (h : LockStore.keyOf ns (LockStore.idOf formats path) =
    LockStore.keyOf ns' (LockStore.idOf formats path')) :
    LockStore.idOf formats path = LockStore.idOf formats path' := by
  have hkey : ∀ ns path, LockStore.keyOf ns (LockStore.idOf formats path) =
      (".locks/".toList ++ ns.storedOrg ++ '/' :: ns.storedRepo ++ ['/']) ++
        (LockStore.idOf formats path ++ ".json".toList) := by
    intro ns path
    simp [LockStore.keyOf]
  rw [hkey, hkey] at h
  have hlength : (LockStore.idOf formats path ++ ".json".toList).length =
      (LockStore.idOf formats path' ++ ".json".toList).length := by
    simp [LockStore.idOf]
  exact List.append_cancel_right (List.append_inj' h hlength).2

/-! ## Every path -/

section

variable {ρ ι S : Type} [DecidableEq ρ] [DecidableEq ι]

/-- The requests are made at once. -/
def started (formats : Formats) (store : ι → LockStore) (call : ι → Call) (first : S) :
    Pool ι Req Resp (Except LockError Lock) (S × Log ι Req Resp) :=
  ⟨fun i => ((call i).op formats (store i)).run, (first, [])⟩

/-- In every run whose past is as it should be, a create that is made alone and refused for a lock
leaves one that opens. -/
def RefusedOpens (formats : Formats) (process : ι → ρ) (store : ι → LockStore) (call : ι → Call)
    (world : S → World ρ ι) (exec : ι → Semantics Req Resp S) (first : S)
    (Fine : Log ι Req Resp → Prop) : Prop :=
  ∀ pool, Pool.Steps (recording exec) (started formats store call first) pool →
    ∀ k permission ns path owner, call k = .create permission ns path owner →
      (∀ e ∈ pool.state.2, e.thread ≠ k) →
    ∀ lock w, Program.Steps (recording exec k) (pool.progs k, pool.state)
        (.pure (.error (.lockHeld lock)), w) →
      Fine w.2 → ∀ i, Opens formats (store k) (process k) i ns path (world w.1).opened

/-- And there is never a lock of a path but one that opens. -/
structure Unwedged (formats : Formats) (process : ι → ρ) (store : ι → LockStore) (call : ι → Call)
    (world : S → World ρ ι) (exec : ι → Semantics Req Resp S) (first : S)
    (Fine : Log ι Req Resp → Prop) : Prop where
  settled : ∀ pool, Pool.Steps (recording exec) (started formats store call first) pool →
    Fine pool.state.2 → ∀ i ns path, (store i).Accepts path →
      Settled formats (store i) (process i) ns path (world pool.state.1)
  refused : RefusedOpens formats process store call world exec first Fine

variable {process : ι → ρ} {store : ι → LockStore} {call : ι → Call} {world : S → World ρ ι}
  {exec : ι → Semantics Req Resp S} {first : S} {Fine : Log ι Req Resp → Prop}

/-- What has to be shown of what the requests are answered. -/
theorem Unwedged.of_steps
    (hsettled : ∀ pool, Pool.Steps (recording exec) (started formats store call first) pool →
      Fine pool.state.2 → ∀ i ns path, (store i).Accepts path →
        Settled formats (store i) (process i) ns path (world pool.state.1))
    (hstep : ∀ k ns path seen r s answer s',
      (seen = true → ¬ (store k).Free ns (LockStore.idOf formats path) (world s)) →
      exec k r s answer s' → ((store k).placeOf formats ns path).sees seen r answer = true →
      ¬ (store k).Free ns (LockStore.idOf formats path) (world s')) :
    Unwedged formats process store call world exec first Fine where
  settled := hsettled
  refused := by
    intro pool hpool k permission ns path owner hcall hfresh lock w hsteps hfine i
    have hafter := hsettled _ (hpool.trans hsteps.among) hfine k ns path
    have hprog : pool.progs k = ((call k).op formats (store k)).run := hpool.waiting hfresh
    rw [hprog, hcall] at hsteps
    obtain ⟨haccepts, htaken⟩ := refused_taken (hstep k ns path) hfresh hsteps
    exact (hafter haccepts).resolve_left htaken i

end

/-! ## On a volume -/

namespace Lives

variable {ι : Type} [DecidableEq ι] {L : Lives ι}

/-- Every lock that was made in place was written. -/
def Written (past : Log ι Req Resp) : Prop :=
  ∀ i path file, ⟨i, .createNew path, .ok file⟩ ∈ past →
    ∃ encoded, ⟨i, .disk (.write file encoded), .ok ()⟩ ∈ past

theorem Kept.settled {w : State ι} (hlawful : L.formats.Lawful) (h : L.Kept w)
    (hwritten : Written w.2) {i : ι} (haccepts : (L.store i).Accepts path) :
    Settled L.formats (L.store i) () ns path w.1.world := by
  have hbackend := L.backend i
  cases hname : w.1.disk.inode (LockStore.pathIn L.caseless ns (LockStore.idOf L.formats path)) with
  | none =>
      refine Or.inl ?_
      rw [LockStore.Free, hbackend]
      exact hname
  | some file =>
      refine Or.inr fun j => ?_
      rcases h.whole _ file (isLockFile_pathIn _ _ _) hname with
        ⟨encoded, hbytes, ns', lock, hpath, hencode, hid⟩ | ⟨j, hmade, hunwritten⟩
      · rw [hid] at hpath
        have hlock : lock.id = LockStore.idOf L.formats path :=
          hid.trans (idOf_of_pathIn hpath).symm
        have hstores : (L.store i).Stores L.formats ns (LockStore.idOf L.formats path) ⟨lock, none⟩
            w.1.world.opened := by
          rw [LockStore.Stores, hbackend]
          exact ⟨rfl, file, encoded, hname, hbytes, hlawful.decode_encode lock encoded hencode⟩
        exact opens_of_stores (rested_opened () _) haccepts hlock hid hstores
      · obtain ⟨encoded, hdone⟩ := hwritten j _ file hmade
        exact absurd hdone (hunwritten encoded)

/-- A path that is known to be taken is. -/
theorem seen_disk {place : LocalPath} {seen : Bool} {may : Files.Req Text → Prop}
    {r : Files.Req Text} {answer : Files.Resp r} {d d' : Disk Text}
    (hseen : seen = true → d.inode place ≠ none) (h : Files.Faulty may r d answer d')
    (hsees : Place.sees ⟨some place, none⟩ seen (.disk r) answer = true) :
    d'.inode place ≠ none := by
  -- A path that was taken stays so, unless it is unlinked or renamed.
  have hstays : seen = true → (∀ path, r = .unlink path → path ≠ place) →
      (∀ source target, r ≠ .rename source target) → d'.inode place ≠ none := by
    intro htrue hunlink hrename hlost
    obtain ⟨file, hfile⟩ := Option.ne_none_iff_exists'.mp (hseen htrue)
    rcases h.lost hfile hlost with rfl | ⟨target, rfl⟩
    · exact hunlink _ rfl rfl
    · exact hrename _ _ rfl
  cases r with
  | link source target =>
      rcases h.link with ⟨_, -, -, rfl, -⟩ | ⟨_, file, -, hfile, rfl, rfl⟩ | ⟨-, rfl, -⟩ |
        ⟨-, -, -, rfl, -⟩
      · exact hstays hsees nofun nofun
      · rcases Bool.or_eq_true_iff.mp hsees with hsees | htarget
        · exact hseen hsees
        · cases beq_iff_eq.mp htarget
          rw [hfile]
          exact Option.some_ne_none file
      · exact hstays hsees nofun nofun
      · exact hstays hsees nofun nofun
  | unlink path =>
      obtain ⟨hsees, hother⟩ := Bool.and_eq_true_iff.mp hsees
      refine hstays hsees (fun path' heq => ?_) nofun
      rintro rfl
      cases heq
      exact bne_iff_ne.mp hother rfl
  | rename source target => cases hsees
  | _ => exact hstays hsees nofun nofun

omit [DecidableEq ι] in
theorem seen_step {place : LocalPath} {i : ι} {r : Req} {answer : Resp r} {v v' : Volume ι}
    {seen : Bool} (hseen : seen = true → v.disk.inode place ≠ none)
    (hserves : L.serves i r v answer v')
    (hsees : Place.sees ⟨some place, none⟩ seen r answer = true) : v'.disk.inode place ≠ none := by
  obtain ⟨-, gates, w, hworld, rfl⟩ := hserves
  have hbegun : seen = true → (v.begun (L.life i)).disk.inode place ≠ none := by
    rw [Volume.inode_begun]
    exact hseen
  cases r with
  | acquire slot =>
      obtain ⟨-, rfl⟩ := hworld
      exact hbegun hsees
  | drop slot =>
      cases hworld
      exact hbegun hsees
  | now =>
      cases hworld
      exact hbegun hsees
  | bucket r =>
      obtain ⟨b, -, rfl⟩ := hworld
      exact hbegun (Place.sees_bucket hsees)
  | createNew path =>
      rcases hworld with h | ⟨-, rfl, rfl⟩
      · split at h
        · next file hfile =>
            obtain ⟨rfl, rfl⟩ := h
            rcases Bool.or_eq_true_iff.mp hsees with hsees | htarget
            · exact hbegun hsees
            · cases beq_iff_eq.mp htarget
              intro hnone
              cases hfile.symm.trans hnone
        · next hnone =>
            obtain ⟨rfl, time, -, rfl⟩ := h
            show (Disk.add _ _ _).inode place ≠ none
            rw [Disk.inode_add]
            split
            · exact Option.some_ne_none _
            · exact hbegun hsees
      · exact hbegun hsees
  | disk r =>
      obtain ⟨d, hd, rfl⟩ := hworld
      exact seen_disk hbegun hd hsees

variable (L) in
/-- **The runs in which every lock is written, and no staging file is made over one.** -/
theorem unwedged (hlawful : L.formats.Lawful) :
    Unwedged L.formats (fun _ => ()) L.store L.call Volume.world L.spared .blank Written := by
  refine Unwedged.of_steps (fun pool hsteps hwritten i ns path haccepts => ?_)
    fun k ns path seen r v answer v' hseen hexec hsees => ?_
  · have horderly : ∀ i, ((L.call i).op L.formats (L.store i)).run.Follows (L.order i)
        (fun _ phase => phase = .idle) .idle := fun i => op_orderly _ (Or.inl (L.backend i))
    have hkept : L.Kept pool.state := by
      refine (Pool.Steps.follows (P := L.order) ?_ horderly kept_blank hsteps).1
      intro i r w answer v' hw hmay hexec
      exact hw.step hmay hexec.1 hexec.2
    exact hkept.settled hlawful hwritten haccepts
  · simp only [LockStore.Free, LockStore.placeOf, L.backend k] at hseen hsees ⊢
    exact seen_step hseen hexec.2 hsees

end Lives

/-! ## In a bucket -/

namespace Servers

variable {ρ ι : Type} [DecidableEq ρ] (V : Servers ρ ι)

/-- A request that is given up lets go of its gate, so it is left open who holds one. -/
def ajar : ι → Semantics Req Resp (World ρ ι) := fun i r w answer w' =>
  ∃ gates, serves V.process V.may i r { w with gates } answer w'

/-- Nothing was locked. -/
def blank : World ρ ι := ⟨fun _ _ => none, .empty, .empty⟩

variable {V}

/-- What is in a bucket are locks. -/
def Stocked (formats : Formats) (bucket : Shelf Text Bytes Text) : Prop :=
  ∀ key item, bucket.items key = some item → Keyed formats key item.value

theorem stocked_step {i : ι} {r : Req} {answer : Resp r} {w w' : World ρ ι} {phase : Phase}
    (hstocked : Stocked V.formats w.bucket) (hmay : phase.may V.formats false 0 r)
    (h : V.ajar i r w answer w') : Stocked V.formats w'.bucket := by
  obtain ⟨gates, hserves⟩ := h
  intro key item hitem
  rcases serves_bucket hserves with ⟨r', answer', heq, hshelf⟩ | ⟨hsame, -⟩
  · cases heq
    rcases hshelf.items hitem with hold | rfl
    · exact hstocked key item hold
    · exact hmay
  · rw [hsame] at hitem
    exact hstocked key item hitem

theorem Stocked.settled {store : LockStore} {process : ρ} {w : World ρ ι}
    (hlawful : formats.Lawful) (h : Stocked formats w.bucket) (hbucket : store.backend = .bucket)
    (haccepts : store.Accepts path) : Settled formats store process ns path w := by
  cases hitem : w.bucket.items (LockStore.keyOf ns (LockStore.idOf formats path)) with
  | none =>
      refine Or.inl ?_
      rw [LockStore.Free, hbucket]
      exact hitem
  | some item =>
      refine Or.inr fun j => ?_
      obtain ⟨ns', lock, hkey, hencode, hid⟩ := h _ item hitem
      rw [hid] at hkey
      have hlock : lock.id = LockStore.idOf formats path := hid.trans (idOf_of_keyOf hkey).symm
      have hstores : store.Stores formats ns (LockStore.idOf formats path)
          ⟨lock, some item.version⟩ w.opened := by
        rw [LockStore.Stores, hbucket]
        exact ⟨item, hitem, rfl, hlawful.decode_encode lock item.value hencode⟩
      exact opens_of_stores (rested_opened process _) haccepts hlock hid hstores

/-- A key that is known to be taken is. -/
theorem seen_step {key : Text} {i : ι} {r : Req} {answer : Resp r} {w w' : World ρ ι} {seen : Bool}
    (hseen : seen = true → w.bucket.items key ≠ none) (h : V.ajar i r w answer w')
    (hsees : Place.sees ⟨none, some key⟩ seen r answer = true) : w'.bucket.items key ≠ none := by
  obtain ⟨gates, hserves⟩ := h
  rcases serves_bucket hserves with ⟨r', answer', heq, hshelf⟩ | ⟨hsame, hother⟩
  · cases heq
    cases r' with
    | putIfAbsent k encoded =>
        have hstays : seen = true → w'.bucket.items key ≠ none := by
          intro htrue
          cases hshelf.moves key with
          | stays hsame =>
              rw [hsame]
              exact hseen htrue
          | comes hnone => exact absurd hnone (hseen htrue)
        match answer', hsees, hshelf with
        | .ok none, hsees, hshelf =>
            rcases Bool.or_eq_true_iff.mp hsees with hkeeps | hkey
            · exact hstays hkeeps
            · cases beq_iff_eq.mp hkey
              exact hshelf.occupied
        | .ok (some _), hsees, _ => exact hstays hsees
        | .error _, hsees, _ => exact hstays hsees
    | deleteIf k version => cases hsees
    | get k =>
        cases hshelf.moves key with
        | stays hsame =>
            rw [hsame]
            exact hseen hsees
    | keys under =>
        cases hshelf.moves key with
        | stays hsame =>
            rw [hsame]
            exact hseen hsees
  · rw [hsame]
    exact hseen (Place.sees_other hother hsees)

variable (V) in
/-- **In a bucket, in every run.** -/
theorem unwedged [DecidableEq ι] (hlawful : V.formats.Lawful)
    (hbucket : ∀ i, (V.store i).backend = .bucket) :
    Unwedged V.formats V.process V.store V.call id V.ajar blank fun _ => True := by
  refine Unwedged.of_steps (fun pool hsteps _ i ns path haccepts => ?_)
    fun k ns path seen r v answer v' hseen hexec hsees => ?_
  · have horderly : ∀ i, ((V.call i).op V.formats (V.store i)).run.Follows
        (writing V.formats false 0) (fun _ phase => phase = .idle) .idle :=
      fun i => op_orderly _ (Or.inr (hbucket i))
    have hstocked : Stocked V.formats pool.state.1.bucket := by
      refine (Pool.Steps.follows (P := fun _ => writing V.formats false 0)
        (I := fun w => Stocked V.formats w.1.bucket) ?_ horderly ?_ hsteps).1
      · intro i r w answer w' hw hmay hexec
        exact stocked_step hw hmay hexec
      · intro key item hitem
        cases hitem
    exact hstocked.settled hlawful (hbucket i) haccepts
  · simp only [LockStore.Free, LockStore.placeOf, hbucket k] at hseen hsees ⊢
    exact seen_step hseen hexec hsees

end Servers

/-! ## Refused creates -/

/-- **A create that is refused for a lock leaves one that opens**, on a volume where every lock
that was made in place was written and no staging file is made over a lock, and in a bucket
always. -/
theorem refused_create_opens {ρ ι : Type} [DecidableEq ρ] [DecidableEq ι] :
    (∀ L : Lives ι, L.formats.Lawful →
      Unwedged L.formats (fun _ => ()) L.store L.call Volume.world L.spared .blank
        Lives.Written) ∧
    ∀ V : Servers ρ ι, V.formats.Lawful → (∀ i, (V.store i).backend = .bucket) →
      Unwedged V.formats V.process V.store V.call id V.ajar Servers.blank fun _ => True :=
  ⟨Lives.unwedged, fun V => V.unwedged⟩

/-! ### A process after another -/

/-- Jane asks one process for the path, and after it is gone Marie asks the next one, and then
Jane.  Both have the same number.  The volume may have no links. -/
def restarts (links : Bool) : Lives (Fin 3) where
  formats := sceneFormats
  caseless := false
  life i := if i = 0 then 0 else 1
  process _ := 7
  may r := links = false ∧ ∃ source target, r = .link source target
  store _ := ⟨.local false 7, none, defaultCapacity, true⟩
  call i := .create .write .acme scene (if i = 1 then marie else jane)
  backend _ := rfl

/-- What a request to the disk is answered. -/
def linking (links : Bool) (r : Files.Req Text) (d : Disk Text) : Files.Resp r × Disk Text :=
  match r with
  | .link source target =>
      if links = false ∧ (d.inode source).isSome ∧ d.inode target = none then (.error .other, d)
      else Files.respond (.link source target) d
  | r => Files.respond r d

/-- What a request is answered by a process, whose gates are open. -/
def answered (links : Bool) (i : Fin 3) :
    (r : Req) → World Unit (Fin 3) → Option (Resp r × World Unit (Fin 3))
  | .acquire slot, w => some ((), w.gate () slot (some i))
  | .drop slot, w => some ((), w.gate () slot none)
  | .now, w => some ((0 : Time), w)
  | .disk r, w =>
      some ((linking links r w.disk).1, { w with disk := (linking links r w.disk).2 })
  | .createNew path, w =>
      match w.disk.inode path with
      | some _ => some (.error .alreadyExists, w)
      | none =>
          some (.ok w.disk.files.length, { w with disk := w.disk.add path w.disk.clock })
  | .bucket _, _ => none

/-- A request makes no file over another. -/
def calm (d : Disk Text) : Req → Bool
  | .disk (.create path) => (d.inode path).isNone
  | _ => true

/-- And by the volume, which may be one that refuses to make a file over another. -/
def restarted (links spare : Bool) (i : Fin 3) (r : Req)
    (w : Volume (Fin 3) × Log (Fin 3) Req Resp) :
    Option (Resp r × Volume (Fin 3) × Log (Fin 3) Req Resp) :=
  let life := (restarts links).life i
  if w.1.life ≤ life ∧ (spare = true → calm w.1.disk r = true) then
    (answered links i r { (w.1.begun life).world with gates := fun _ _ => none }).map fun done =>
      (done.1, ⟨done.2, life⟩, ⟨i, r, done.1⟩ :: w.2)
  else none

theorem linking_faulty {links : Bool} (r : Files.Req Text) (d : Disk Text) :
    Files.Faulty (restarts links).may r d (linking links r d).1 (linking links r d).2 := by
  cases r with
  | link source target =>
      rw [linking]
      split
      · next h => exact Or.inr ⟨⟨h.1, source, target, rfl⟩, rfl, rfl, h.2⟩
      · exact Or.inl (Files.respond_answers _ d)
  | _ => exact Or.inl (Files.respond_answers _ d)

theorem answered_serves {links : Bool} {i : Fin 3} {r : Req} {w : World Unit (Fin 3)}
    {done : Resp r × World Unit (Fin 3)} (hopen : ∀ slot, w.gates () slot = none)
    (h : answered links i r w = some done) :
    serves (fun _ => ()) (restarts links).may i r w done.1 done.2 := by
  cases r with
  | acquire slot =>
      cases h
      exact ⟨hopen slot, rfl⟩
  | drop slot =>
      cases h
      exact rfl
  | now =>
      cases h
      exact rfl
  | disk r =>
      cases h
      exact ⟨_, linking_faulty r w.disk, rfl⟩
  | createNew path =>
      rw [answered] at h
      cases hpath : w.disk.inode path with
      | some file =>
          rw [hpath] at h
          cases h
          refine Or.inl ?_
          rw [hpath]
          exact ⟨rfl, rfl⟩
      | none =>
          rw [hpath] at h
          cases h
          refine Or.inl ?_
          rw [hpath]
          exact ⟨rfl, _, le_refl _, rfl⟩
  | bucket r => cases h

theorem restarted_exec {links spare : Bool} (i : Fin 3) (r : Req)
    (w : Volume (Fin 3) × Log (Fin 3) Req Resp)
    (done : Resp r × Volume (Fin 3) × Log (Fin 3) Req Resp)
    (h : restarted links spare i r w = some done) :
    recording (restarts links).serves i r w done.1 done.2 ∧
      (spare = true → recording (restarts links).spared i r w done.1 done.2) := by
  rw [restarted] at h
  split at h
  · next hcalm =>
      obtain ⟨hlife, hcalm⟩ := hcalm
      obtain ⟨done', hdone, rfl⟩ := Option.map_eq_some_iff.mp h
      have hserves := answered_serves (fun _ => rfl) hdone
      have hexec : (restarts links).serves i r w.1 done'.1 ⟨done'.2, (restarts links).life i⟩ :=
        ⟨hlife, _, _, hserves, rfl⟩
      refine ⟨⟨hexec, rfl⟩, fun hspare => ⟨⟨?_, hexec⟩, rfl⟩⟩
      rintro path file rfl hname
      have hnone := Option.isNone_iff_eq_none.mp (hcalm hspare)
      rw [hname] at hnone
      cases hnone
  · cases h

/-- A file that is no lock cannot be opened. -/
theorem not_opens {ι : Type} {w : World Unit ι} {formats : Formats} {store : LockStore}
    {ns : Namespace} {path : Text} {number file : Nat} {caseless : Bool} {encoded : Bytes} {i : ι}
    (hbackend : store.backend = .local caseless number)
    (hname : w.disk.inode (LockStore.pathIn caseless ns (LockStore.idOf formats path)) = some file)
    (hbytes : (w.disk.file file).map Files.File.bytes = some encoded)
    (hdecode : formats.decode encoded = none) : ¬ Opens formats store () i ns path w := by
  rintro ⟨held, -, -, hopens⟩
  obtain ⟨handle, hattends⟩ := exists_attends () i
  have hread := (hopens handle hattends).1
  rw [LockStore.read, isWellFormedId_idOf, hbackend] at hread
  have hfile : (LockStore.readFile (LockStore.pathIn caseless ns
      (LockStore.idOf formats path))).Returns handle w encoded w := by
    rw [Fallible.Returns, hattends.readFile, Attends.fileAt_some hname hbytes]
  have hnone : (LockStore.readLocal formats (LockStore.pathIn caseless ns
      (LockStore.idOf formats path))).Returns handle w none w := by
    refine Fallible.Returns.caught hfile ?_
    dsimp only
    rw [hdecode]
    exact Fallible.Returns.pure
  have hsame := (Prod.mk.inj (hnone.symm.trans hread)).1
  cases hsame

/-- The threads take turns, and then one goes on alone. -/
def alone (links spare : Bool) (schedule : List (Fin 3)) (k : Fin 3) :
    Option (Program Req Resp (Except LockError Lock) × Volume (Fin 3) × Log (Fin 3) Req Resp) :=
  (Pool.play (restarted links spare) schedule
    (started sceneFormats (restarts links).store (restarts links).call .blank)).bind fun pool =>
      if pool.state.2.all (fun e => e.thread != k) then
        Program.advance (restarted links spare k) 30 (pool.progs k, pool.state)
      else none

theorem alone_steps {links spare : Bool} {schedule : List (Fin 3)} {k : Fin 3}
    {c : Program Req Resp (Except LockError Lock) × Volume (Fin 3) × Log (Fin 3) Req Resp}
    {exec : Fin 3 → Semantics Req Resp (Volume (Fin 3))}
    (hexec : ∀ i r w done, restarted links spare i r w = some done →
      recording exec i r w done.1 done.2) (h : alone links spare schedule k = some c) :
    ∃ pool, Pool.Steps (recording exec)
        (started sceneFormats (restarts links).store (restarts links).call .blank) pool ∧
      (∀ e ∈ pool.state.2, e.thread ≠ k) ∧
      Program.Steps (recording exec k) (pool.progs k, pool.state) c := by
  obtain ⟨pool, hplay, hrest⟩ := Option.bind_eq_some_iff.mp h
  split at hrest
  · next hfresh =>
      refine ⟨pool, Pool.play_steps hexec hplay, fun e he => ?_,
        Program.advance_steps (hexec k) hrest⟩
      exact bne_iff_ne.mp (List.all_eq_true.mp hfresh e he)
  · cases hrest

/-- A create was refused for a lock. -/
def refusedFor : Program Req Resp (Except LockError Lock) → Option Lock
  | .pure (.error (.lockHeld lock)) => some lock
  | _ => none

theorem eq_of_refusedFor {p : Program Req Resp (Except LockError Lock)} {lock : Lock}
    (h : refusedFor p = some lock) : p = .pure (.error (.lockHeld lock)) := by
  unfold refusedFor at h
  split at h
  · cases h
    rfl
  · cases h

/-- Jane has the lock, and Marie is refused. -/
theorem refused_create_opens_scene :
    (∃ c lock, alone true true (List.replicate 11 0) 1 = some c ∧
      c.1 = .pure (.error (.lockHeld lock)) ∧ lock.owner.is jane = true ∧
      ∀ i, Opens sceneFormats ⟨.local false 7, none, defaultCapacity, true⟩ () i .acme scene
        c.2.1.world.opened) ∧
    Unwedged sceneFormats id rivals.store rivals.call id rivals.ajar Servers.blank
      fun _ => True := by
  have hrun : ((alone true true (List.replicate 11 0) 1).any fun c =>
      ((refusedFor c.1).any fun lock => lock.owner.is jane) && c.2.2.all fun e =>
        match e.req with
        | .createNew _ => false
        | _ => true) = true := by decide +kernel
  refine ⟨?_, refused_create_opens.2 rivals lawful_scene fun _ => rfl⟩
  obtain ⟨c, halone, hcheck⟩ := (Option.any_eq_true _ _).mp hrun
  obtain ⟨p, w⟩ := c
  obtain ⟨hrefused, hlinked⟩ := Bool.and_eq_true_iff.mp hcheck
  obtain ⟨lock, hlock, howner⟩ := (Option.any_eq_true _ _).mp hrefused
  obtain rfl := eq_of_refusedFor hlock
  have hwritten : Lives.Written w.2 := by
    intro i path file hmem
    cases List.all_eq_true.mp hlinked _ hmem
  obtain ⟨pool, hpool, hfresh, hsteps⟩ :=
    alone_steps (fun i r w done h => (restarted_exec i r w done h).2 rfl) halone
  refine ⟨_, lock, halone, rfl, howner, ?_⟩
  intro i
  have hunwedged : Unwedged sceneFormats (fun _ => ()) (restarts true).store (restarts true).call
      Volume.world (restarts true).spared .blank Lives.Written :=
    (refused_create_opens (ρ := Bool)).1 (restarts true) lawful_scene
  exact hunwedged.refused pool hpool 1 .write .acme scene marie rfl hfresh lock w hsteps hwritten i

def scenePath : LocalPath := LockStore.pathIn false .acme (LockStore.idOf sceneFormats scene)

/-- The file of the lock is empty. -/
def emptied (d : Disk Text) : Bool :=
  (d.inode scenePath).any fun file => (d.file file).map Files.File.bytes == some []

/-- A create that is made alone is refused for a lock, whose file is empty. -/
theorem not_refusedOpens {links : Bool} (schedule : List (Fin 3)) (k : Fin 3)
    {permission : Permission} {owner : Actor}
    (hcall : (restarts links).call k = .create permission .acme scene owner)
    (hrun : ((alone links false schedule k).any fun c =>
      (refusedFor c.1).isSome && emptied c.2.1.disk) = true) :
    ¬ RefusedOpens sceneFormats (fun _ => ()) (restarts links).store (restarts links).call
      Volume.world (restarts links).serves .blank fun _ => True := by
  intro hopens
  obtain ⟨⟨p, w⟩, halone, hcheck⟩ := (Option.any_eq_true _ _).mp hrun
  obtain ⟨hrefused, hemptied⟩ := Bool.and_eq_true_iff.mp hcheck
  obtain ⟨lock, hlock⟩ := Option.isSome_iff_exists.mp hrefused
  obtain rfl := eq_of_refusedFor hlock
  obtain ⟨file, hname, hbytes⟩ := (Option.any_eq_true _ _).mp hemptied
  obtain ⟨pool, hpool, hfresh, hsteps⟩ :=
    alone_steps (fun i r w done h => (restarted_exec i r w done h).1) halone
  have hdecode : sceneFormats.decode [] = none := by decide +kernel
  have hopened := hopens pool hpool k permission .acme scene owner hcall hfresh lock w
    hsteps trivial k
  have hclosed : ¬ Opens sceneFormats ((restarts links).store k) () k .acme scene
      w.1.world.opened :=
    not_opens rfl hname (beq_iff_eq.mp hbytes) hdecode
  exact hclosed hopened

/-- A process stops before it writes a lock that it made in place, or a process empties one under
the name of a staging file that was not removed.  No lock can be read then. -/
theorem create_wedged :
    (¬ RefusedOpens sceneFormats (fun _ => ()) (restarts false).store (restarts false).call
      Volume.world (restarts false).serves .blank fun _ => True) ∧
    ¬ RefusedOpens sceneFormats (fun _ => ()) (restarts true).store (restarts true).call
      Volume.world (restarts true).serves .blank fun _ => True := by
  constructor
  · exact not_refusedOpens (List.replicate 11 0) 1 rfl (by decide +kernel)
  · exact not_refusedOpens (List.replicate 9 0 ++ List.replicate 7 1) 2 rfl (by decide +kernel)

end Lfsx.Locks
