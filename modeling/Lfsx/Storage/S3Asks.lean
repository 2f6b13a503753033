import Lfsx.Storage.Collect
import Lfsx.Storage.KeyspaceRules

/-!
# What the calls ask for

The requests a call can make, whatever it is answered.  Sweeps, measurements and the reclaiming
of uploads look, delete, and write down references, sizes and that the index is complete
(`Routine`); a push puts the content and the marker beside these.  So what holds of such requests
holds of every request of a call (`asks_call`), and an invariant that such requests keep holds in
every run of calls side by side (`Pool.Steps.only`).
-/

namespace Lfsx.Storage

open Request Keyspace

/-- What holds of the requests of whoever pushes nothing. -/
structure Routine (p : Req → Prop) : Prop where
  reads : ∀ r, r.Reads → p r
  delete : ∀ key, p (.delete key)
  index : ∀ parts, p (.put (Path.joined (".refs".toList :: parts)) [])
  size : ∀ ns oid n, p (.put (Sizes.key ns oid n) [])

/-- Every request of an operation is as `p` says, as long as the answers are as `A` says. -/
abbrev Asks {α : Type} (p : Req → Prop) (A : (r : Req) → Resp r → Prop) (op : Op α) : Prop :=
  op.Only p A fun _ => True

section Asks

variable {α β : Type} {p : Req → Prop} {A : (r : Req) → Resp r → Prop} {keys : Keyspace}
  {ns : Namespace} {oid : Oid}

theorem asks_pure {a : α} : Asks p A (Pure.pure a : Op α) := Fallible.Only.pure trivial

theorem asks_bind {op : Op α} {f : α → Op β} (h : Asks p A op) (hf : ∀ a, Asks p A (f a)) :
    Asks p A (op >>= f) :=
  Fallible.Only.bind h fun a _ => hf a

theorem asks_attempt {op : Op α} {f : Except Error α → Op β} (h : Asks p A op)
    (hf : ∀ answer, Asks p A (f answer)) : Asks p A (op.attempt >>= f) :=
  Fallible.Only.attempt h hf

theorem asks_ask {r : Req} {h : Resp r = Except Error α} (hr : p r) :
    Asks p A (Fallible.ask r h : Op α) :=
  Fallible.Only.ask hr fun _ _ _ _ => trivial

theorem asks_certain {r : Req} {f : Resp r → Op β} (hr : p r) (hf : ∀ answer, Asks p A (f answer)) :
    Asks p A ((Fallible.certain r : Op (Resp r)) >>= f) :=
  Fallible.Only.certain hr fun answer _ => hf answer

theorem asks_ofExcept {answer : Except Error α} {f : α → Op β}
    (hf : ∀ a, answer = .ok a → Asks p A (f a)) : Asks p A (Fallible.ofExcept answer >>= f) := by
  cases answer with
  | error e => exact Fallible.Only.throw
  | ok a => exact hf a rfl

theorem asks_put {key : Text} {body : Bytes} (hr : p (.put key body)) :
    Asks p A (Keyspace.put key body) :=
  asks_ask hr

/-! ### Pushing -/

/-- A push writes the reference, the content unless it is there, the marker and the size. -/
theorem asks_store (h : Routine p) {staged : Bytes}
    (hcontent : p (.put (S3Store.contentKey oid) staged))
    (hmarker : p (.put (S3Store.markerKey ns oid) [])) :
    Asks p A (S3Store.store ns oid staged) := by
  refine asks_bind (asks_put (h.index _)) fun _ => asks_bind ?_ fun _ =>
    asks_bind (asks_put hmarker) fun _ => asks_put (h.size ns oid _)
  refine asks_bind (asks_attempt (asks_ask (h.reads _ (Req.reads_head _))) fun answer => ?_)
    fun there => ?_
  · cases answer <;> exact asks_pure
  · cases there with
    | true => exact asks_pure
    | false => exact asks_put hcontent

section Routine

variable (h : Routine p)

include h

theorem asks_found {key : Text} : Asks p A (found key) :=
  asks_attempt (asks_ask (h.reads _ (Req.reads_head key))) fun answer => by
    cases answer <;> exact asks_pure

theorem asks_delete {key : Text} : Asks p A (keys.delete key) := by
  have hask : Asks p A (Fallible.ask (.delete key) rfl : Op Bool) := asks_ask (h.delete key)
  rw [Keyspace.delete]
  cases keys.provider with
  | s3 => exact asks_bind (asks_found h) fun _ => asks_bind hask fun _ => asks_pure
  | azure => exact hask
  | gcs => exact hask

theorem asks_entriesFrom (pages : Nat) (under : Text) (after : Option Text) :
    Asks p A (entriesFrom pages under after) := by
  induction pages generalizing after with
  | zero => exact asks_ask (h.reads _ ⟨nofun, nofun⟩)
  | succ pages ih =>
      refine asks_bind (asks_ask (h.reads _ (Req.reads_page under after))) fun page => ?_
      cases page.2 with
      | none => exact asks_pure
      | some token => exact asks_bind (ih (some token)) fun _ => asks_pure

theorem asks_listKeys {under : Text} : Asks p A (keys.listKeys under) :=
  asks_bind (asks_entriesFrom h _ _ _) fun _ => asks_pure

theorem asks_listing {under : Text} : Asks p A (keys.listing under) :=
  asks_attempt (asks_entriesFrom h _ _ _) fun answer => by
    cases answer <;> exact asks_pure

theorem asks_age {e : Entry} {f : Option Nat → Op β} (hf : ∀ age, Asks p A (f age)) :
    Asks p A (e.age >>= f) := by
  refine asks_bind (asks_certain (h.reads _ Req.reads_now) fun now => ?_) hf
  cases e.modified with
  | none => exact asks_pure
  | some modified =>
      dsimp only
      split <;> exact asks_pure

/-- An upload that is taken over is copied to the content, if that is not there. -/
theorem asks_adopt {size : Nat}
    (hcontent : p (.copy (S3Store.incomingKey ns oid) (S3Store.contentKey oid)))
    (hmarker : p (.put (S3Store.markerKey ns oid) [])) :
    Asks p A (S3Store.adopt keys ns oid size) := by
  refine asks_bind (asks_put (h.index _)) fun _ => asks_bind ?_ fun _ =>
    asks_bind (asks_put hmarker) fun _ => asks_bind (asks_put (h.size ns oid _)) fun _ =>
      asks_attempt (asks_delete h) fun _ => asks_pure
  refine asks_bind (asks_found h) fun there => ?_
  cases there with
  | true => exact asks_pure
  | false =>
      change Asks p A (keys.copy _ _)
      rw [Keyspace.copy]
      cases keys.provider with
      | s3 => exact asks_ask hcontent
      | azure => exact Fallible.Only.throw
      | gcs => exact Fallible.Only.throw

/-! ### Measuring and reclaiming -/

theorem asks_sizeOrZero : Asks p A (S3Store.sizeOrZero oid) :=
  asks_attempt (asks_ask (h.reads _ (Req.reads_head _))) fun answer => by
    cases answer <;> exact asks_pure

theorem asks_measureEach (oids : List Oid) (held : Nat) :
    Asks p A (S3Store.measureEach ns oids held) := by
  induction oids generalizing held with
  | nil => exact asks_pure
  | cons oid oids ih =>
      exact asks_bind (asks_sizeOrZero h) fun _ =>
        asks_attempt (asks_put (h.size ns oid _)) fun _ => ih _

theorem asks_usageOf : Asks p A (S3Store.usageOf keys ns) := by
  refine asks_attempt (asks_listKeys h) fun answer => ?_
  cases answer with
  | error e => exact asks_pure
  | ok listed =>
      dsimp only
      split
      case isTrue => exact asks_pure
      case isFalse =>
        exact asks_bind (asks_certain (h.reads _ (Req.reads_unordered _)) fun _ =>
          asks_measureEach h _ _) fun _ => asks_pure

theorem asks_reclaimEach (olderThan : Nat) (entries : List Entry) (reclaimed : Reclaimed) :
    Asks p A (S3Store.reclaimEach keys olderThan entries reclaimed) := by
  induction entries generalizing reclaimed with
  | nil => exact asks_pure
  | cons e entries ih =>
      refine asks_age h fun age => ?_
      split
      case isTrue => exact ih _
      case isFalse =>
        refine asks_attempt (asks_delete h) fun answer => ?_
        cases answer <;> exact ih _

theorem asks_reclaimUnder (olderThan : Nat) (unders : List Text) (reclaimed : Reclaimed) :
    Asks p A (S3Store.reclaimUnder keys olderThan unders reclaimed) := by
  induction unders generalizing reclaimed with
  | nil => exact asks_pure
  | cons under unders ih =>
      exact asks_bind (asks_entriesFrom h _ _ _) fun _ =>
        asks_bind (asks_reclaimEach h _ _ _) fun _ => ih _

/-! ### Sweeping -/

theorem asks_claimedByAnother : Asks p A (Refs.claimedByAnother keys ns oid) :=
  asks_attempt (asks_listKeys h) fun answer => by
    cases answer <;> exact asks_pure

theorem asks_droppable {retained : Finset Oid} {grace : Nat} (mine : List (Entry × Oid))
    (report : SweepReport) : Asks p A (S3Store.droppable retained grace mine report) := by
  induction mine generalizing report with
  | nil => exact asks_pure
  | cons mark mine ih =>
      rw [S3Store.droppable]
      split
      case isTrue => exact ih _
      case isFalse =>
        refine asks_age h fun age => ?_
        split
        case isTrue => exact ih _
        case isFalse => exact asks_bind (ih _) fun _ => asks_pure

theorem asks_dropMarker {marker : Text} {sized : AList fun _ : Oid => Text} :
    Asks p A (S3Store.dropMarker keys ns oid marker sized) := by
  refine asks_bind (asks_delete h) fun _ => asks_attempt (asks_delete h) fun _ => ?_
  rw [S3Store.dropSize]
  cases sized.lookup oid with
  | none => exact asks_pure
  | some key => exact asks_attempt (asks_delete h) fun _ => asks_pure

theorem asks_freeContent {size : Nat} : Asks p A (S3Store.freeContent keys oid size) :=
  asks_bind (asks_delete h) fun gone => by
    cases gone <;> exact asks_pure

theorem asks_sweepOne {sized : AList fun _ : Oid => Text} {dryRun : Bool} {e : Entry} :
    Asks p A (S3Store.sweepOne keys ns sized dryRun e oid) := by
  refine asks_bind (asks_claimedByAnother h) fun claimed => ?_
  split
  case isTrue =>
    split
    case isTrue => exact asks_sizeOrZero h
    case isFalse => exact asks_pure
  case isFalse =>
    refine asks_bind (asks_dropMarker h) fun _ => ?_
    rw [S3Store.freeIndexed]
    split
    case isTrue =>
      refine asks_bind (asks_claimedByAnother h) fun again => ?_
      cases again with
      | true => exact asks_pure
      | false => exact asks_bind (asks_sizeOrZero h) fun _ => asks_freeContent h
    case isFalse => exact asks_pure

theorem asks_sweepOneListed {survey : Survey} {complete dryRun : Bool} {e : Entry} :
    Asks p A (S3Store.sweepOneListed keys ns survey complete dryRun e oid) := by
  rw [S3Store.sweepOneListed]
  split
  case isTrue => exact asks_pure
  case isFalse =>
    refine asks_bind (asks_dropMarker h) fun _ => ?_
    rw [S3Store.freeListed]
    split
    case isTrue =>
      refine asks_bind (asks_claimedByAnother h) fun again => ?_
      cases again with
      | true => exact asks_pure
      | false => exact asks_freeContent h
    case isFalse => exact asks_pure

omit h in
theorem asks_sweepEach {one : Entry → Oid → Op Nat} (hone : ∀ e oid, Asks p A (one e oid))
    (dropped : List (Entry × Oid)) (report : SweepReport) :
    Asks p A (S3Store.sweepEach one dropped report) := by
  induction dropped generalizing report with
  | nil => exact asks_pure
  | cons mark dropped ih => exact asks_bind (hone mark.1 mark.2) fun _ => ih _

omit h in
theorem fromMarker_hidden {marker key : Text} (h : Refs.fromMarker marker = some key) :
    ∃ parts, key = Path.joined (".refs".toList :: parts) := by
  rw [Refs.fromMarker] at h
  split at h
  case h_1 =>
    split at h
    case isTrue => cases h
    case isFalse =>
      split at h
      case isTrue =>
        cases h
        exact ⟨_, rfl⟩
      case isFalse => cases h
  case h_2 => cases h

theorem asks_putEach (refs : List Text)
    (hrefs : ∀ key ∈ refs, ∃ parts, key = Path.joined (".refs".toList :: parts)) :
    Asks p A (Refs.putEach refs) := by
  induction refs with
  | nil => exact asks_pure
  | cons key refs ih =>
      obtain ⟨parts, rfl⟩ := hrefs key List.mem_cons_self
      exact asks_bind (asks_put (h.index parts)) fun _ =>
        ih fun key hkey => hrefs key (List.mem_cons_of_mem _ hkey)

theorem asks_buildIndex {markers : List Text} {complete dryRun : Bool} :
    Asks p A (S3Store.buildIndex markers complete dryRun) := by
  rw [S3Store.buildIndex]
  split
  case isTrue =>
    refine asks_attempt (asks_certain (h.reads _ (Req.reads_unordered _)) fun order => ?_)
      fun _ => asks_pure
    refine asks_bind (asks_putEach h _ fun key hkey => ?_) fun _ => asks_put (h.index _)
    obtain ⟨i, -, hi⟩ := List.mem_filterMap.mp hkey
    obtain ⟨marker, -, hmarker⟩ := List.mem_filterMap.mp (List.mem_of_getElem? hi)
    exact fromMarker_hidden hmarker
  case isFalse => exact asks_pure

theorem asks_sweep {retained : Finset Oid} {grace : Nat} {dryRun : Bool} :
    Asks p A (S3Store.sweep keys ns retained grace dryRun) := by
  refine asks_bind (asks_found h) fun ready => ?_
  split
  case isTrue =>
    exact asks_bind (asks_listing h) fun _ => asks_bind (asks_droppable h _ _) fun _ =>
      asks_sweepEach (fun _ _ => asks_sweepOne h) _ _
  case isFalse =>
    exact asks_bind (asks_listing h) fun _ => asks_bind (asks_buildIndex h) fun _ =>
      asks_bind (asks_droppable h _ _) fun _ =>
        asks_sweepEach (fun _ _ => asks_sweepOneListed h) _ _

/-- What a push asks for beside what everybody does. -/
def Pushes (p : Req → Prop) : Call → Prop
  | .store ns oid staged =>
      p (.put (S3Store.contentKey oid) staged) ∧ p (.put (S3Store.markerKey ns oid) [])
  | .adopt ns oid _ =>
      p (.copy (S3Store.incomingKey ns oid) (S3Store.contentKey oid)) ∧
        p (.put (S3Store.markerKey ns oid) [])
  | _ => True

/-- **Every request of a call.** -/
theorem asks_call (call : Call) (hcall : Pushes p call) : Asks p A (call.run keys) := by
  cases call with
  | store ns oid staged => exact asks_store h hcall.1 hcall.2
  | adopt ns oid size => exact asks_adopt h hcall.1 hcall.2
  | sweep ns retained grace dryRun => exact asks_bind (asks_sweep h) fun _ => asks_pure
  | usageOf ns => exact asks_bind (asks_usageOf h) fun _ => asks_pure
  | reclaimIncoming olderThan =>
      exact asks_bind (asks_reclaimUnder h _ _ _) fun _ => asks_pure

end Routine

end Asks

end Lfsx.Storage
