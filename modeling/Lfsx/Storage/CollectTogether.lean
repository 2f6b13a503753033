import Lfsx.Storage.BucketSound
import Lfsx.Storage.KeyspaceAlone
import Lfsx.Storage.S3Rules

/-!
# Housekeeping side by side

Everything the server does with a bucket beside taking objects in: sweeps, of one repository or
of many, measurements, the reclaiming of uploads nobody came back for, and the uploads of clients
themselves, request by request, any number of each, with any request refused and any of them
dying after any request.

None of them puts a marker, so what a sweep saw of the markers of others stays true while it goes
on: a marker that was not there does not come.  This carries each sweep through, whatever the
others do (`Spares`, `Spared`).  A marker that is there when they are at work claims what it
claimed before (`claims_are_spared`), and one that is gone was dropped by a sweep of its own
repository, that did not retain the object and found it old enough (`markers_are_due`).
-/

namespace Lfsx.Storage.Together

open Request Keyspace

open Program (Stable Triple)

/-- What is done to a bucket beside pushes. -/
inductive Chore where
  | sweep (ns : Namespace) (retained : Finset Oid) (grace : Nat) (dryRun : Bool)
  | usageOf (ns : Namespace)
  | reclaimIncoming (olderThan : Nat)
  /-- A client puts an object under the key it was given. -/
  | upload (ns : Namespace) (oid : Oid) (body : Bytes)

def Chore.op (keys : Keyspace) : Chore → Op Unit
  | .sweep ns retained grace dryRun => Call.run keys (.sweep ns retained grace dryRun)
  | .usageOf ns => Call.run keys (.usageOf ns)
  | .reclaimIncoming olderThan => Call.run keys (.reclaimIncoming olderThan)
  | .upload ns oid body => put (S3Store.incomingKey ns oid) body

/-! ## What a chore may ask -/

/-- A harmless request that claims nothing, brings nothing, leaves the index complete and drops
the markers in `may` alone. -/
structure Spares (may : Text → Bucket → Prop) (b : Bucket) (r : Req) : Prop where
  harmless : Harmless b r
  marker : ∀ ns oid, ¬ r.Puts (Key.marker ns oid).text
  content : ∀ oid, ¬ r.Puts (Key.content oid).text
  complete : ¬ r.Deletes Key.complete.text
  drops : ∀ ns oid, r.Deletes (Key.marker ns oid).text → may (Key.marker ns oid).text b

/-- A step of a chore. -/
def Spared (provider : Provider) (may : Text → Bucket → Prop) (b b' : Bucket) : Prop :=
  ∃ r, ∃ answer : Resp r, Spares may b r ∧ Faulty provider r b answer b'

namespace Spares

variable {may : Text → Bucket → Prop} {b : Bucket} {r : Req} {k : Key} {body : Bytes}

theorem read (h : r.Reads) : Spares may b r where
  harmless := .read h
  marker _ _ := h.1 _
  content _ := h.1 _
  complete := h.2 _
  drops _ _ hdeletes := absurd hdeletes (h.2 _)

/-- A put of what is neither a marker nor content. -/
theorem put (hharmless : Harmless b (.put k.text body)) (hmarker : ∀ ns oid, k ≠ .marker ns oid)
    (hcontent : ∀ oid, k ≠ .content oid) : Spares may b (.put k.text body) where
  harmless := hharmless
  marker _ oid h := by
    obtain ⟨ns', hk, -⟩ := Key.eq_marker (Req.puts_put.mp h).symm
    exact hmarker ns' oid hk
  content oid h := hcontent oid (Key.eq_content (Req.puts_put.mp h).symm)
  complete := Req.not_deletes_put
  drops _ _ h := absurd h Req.not_deletes_put

theorem delete (hharmless : Harmless b (.delete k.text)) (hcomplete : k ≠ .complete)
    (hdrops : (∃ ns oid, k = .marker ns oid) → may k.text b) : Spares may b (.delete k.text) where
  harmless := hharmless
  marker _ _ := Req.not_puts_delete
  content _ := Req.not_puts_delete
  complete h := hcomplete (Key.eq_complete (Req.deletes_delete.mp h).symm)
  drops ns oid h := by
    rw [Req.deletes_delete] at h
    obtain ⟨ns', hk, -⟩ := Key.eq_marker h.symm
    rw [h]
    exact hdrops ⟨ns', oid, hk⟩

end Spares

section Rules

variable {provider : Provider} {may : Text → Bucket → Prop} {r : Req} {P E : Bucket → Prop}
  {b b' : Bucket}

theorem sound_stable : Stable (Spared provider may) Sound :=
  fun _ _ ⟨_, _, hr, hexec⟩ h => h.step hr.harmless hexec

theorem ready_stable : Stable (Spared provider may) fun b => b.Has Key.complete.text :=
  fun _ _ ⟨_, _, hr, hexec⟩ h => hexec.has h hr.complete

/-- No chore claims an object. -/
theorem unmarked_stable (ns : Namespace) (oid : Oid) :
    Stable (Spared provider may) fun b => ¬ b.Has (Key.marker ns oid).text :=
  fun _ _ ⟨_, _, hr, hexec⟩ h hmarker => h (hexec.has_before hmarker (hr.marker ns oid))

/-- The markers of `b` are markers of `b₀`. -/
def Unclaimed (b₀ b : Bucket) : Prop :=
  ∀ ns oid o, b.find (Key.marker ns oid).text = some o → b₀.find (Key.marker ns oid).text = some o

theorem unclaimed_stable (b₀ : Bucket) : Stable (Spared provider may) (Unclaimed b₀) := by
  rintro b b' ⟨r, answer, hr, hexec⟩ h ns oid o hfind
  by_cases hdeletes : r.Deletes (Key.marker ns oid).text
  · cases hdeletes with
    | delete =>
        rcases hexec.delete with rfl | ⟨rfl, -⟩
        · rw [Bucket.find_remove, if_pos rfl] at hfind
          cases hfind
        · exact h ns oid o hfind
  · rw [hexec.find_eq (hr.marker ns oid) hdeletes] at hfind
    exact h ns oid o hfind

/-- What the chores keep holds after a request of one of them. -/
theorem kept (hP : Stable (Spared provider may) P) (hr : ∀ b, P b → Spares may b r) :
    Triple (Faulty provider) (Spared provider may) P r fun _ => P :=
  fun b answer b' hb hexec =>
    ⟨⟨r, answer, hr b hb, hexec⟩, hP b b' ⟨r, answer, hr b hb, hexec⟩ hb⟩

theorem kept_read (hP : Stable (Spared provider may) P) (hr : r.Reads) :
    Triple (Faulty provider) (Spared provider may) P r fun _ => P :=
  kept hP fun _ _ => .read hr

theorem no_furtherPages {answer : Resp .furtherPages} :
    ¬ Faulty provider .furtherPages b answer b' := by
  rintro (h | ⟨h, -⟩) <;> exact h

theorem any_stable : Stable (Spared provider may) fun _ : Bucket => True := fun _ _ _ h => h

/-- A page: `A` of the keys it does not have, `B` of the entries it does. -/
theorem pages_kept {A : Text → Bucket → Prop} {B : Entry → Prop} {under : Text}
    (hP : Stable (Spared provider may) P) (hA : ∀ b key, P b → ¬ b.Has key → A key b)
    (hB : ∀ b e o, P b → b.find e.key = some o → e.modified = o.modified → B e) :
    Pages (Faulty provider) (Spared provider may) P P A (fun e _ => B e) under := by
  intro after b answer b' hb hexec
  obtain ⟨hspared, hb'⟩ := kept_read hP (Req.reads_page under after) b answer b' hb hexec
  refine ⟨hspared, ?_⟩
  obtain ⟨rfl, hpage⟩ := hexec.page
  cases answer with
  | error e => exact hb'
  | ok page =>
      refine ⟨hb', b', hpage page rfl, fun key _ => hA b' key hb', fun e he => ?_⟩
      obtain ⟨o, ho, hmodified, -⟩ := (hpage page rfl).stored e he
      exact hB b' e o hb' ho hmodified

theorem later_kept {A : Text → Bucket → Prop} {B : Entry → Prop} {under : Text} :
    Later (Faulty provider) A (fun e _ => B e) under := by
  intro token b answer b' hexec
  rw [hexec.page.1]
  exact ⟨fun _ h => h, fun _ h => h⟩

end Rules

/-! ## Sweeps -/

section Sweep

variable {provider : Provider} {may : Text → Bucket → Prop} {keys : Keyspace} {ns : Namespace}
  {oid : Oid} {b₀ b : Bucket} {X : Bucket → Prop} {frees dryRun : Bool}

/-- A sound bucket, with no marker that is new, in which `X` holds. -/
structure Looking (b₀ : Bucket) (X : Bucket → Prop) (b : Bucket) : Prop where
  sound : Sound b
  unclaimed : Unclaimed b₀ b
  fact : X b

theorem looking_stable (hX : Stable (Spared provider may) X) :
    Stable (Spared provider may) (Looking b₀ X) :=
  fun b b' hR h => ⟨sound_stable b b' hR h.sound, unclaimed_stable b₀ b b' hR h.unclaimed,
    hX b b' hR h.fact⟩

/-- While an object is dropped: if its content may go, nobody else has a marker of it. -/
def Dropping (b₀ : Bucket) (X : Bucket → Prop) (ns : Namespace) (oid : Oid) (frees : Bool)
    (b : Bucket) : Prop :=
  Looking b₀ X b ∧ (frees = true → ∀ ns' : Namespace, ¬ ns'.Same ns →
    ¬ b.Has (Key.marker ns' oid).text)

/-- And when its own marker is gone as well. -/
def Dropped (b₀ : Bucket) (X : Bucket → Prop) (ns : Namespace) (oid : Oid) (frees : Bool)
    (b : Bucket) : Prop :=
  Dropping b₀ X ns oid frees b ∧ ¬ b.Has (Key.marker ns oid).text

theorem dropping_stable (hX : Stable (Spared provider may) X) :
    Stable (Spared provider may) (Dropping b₀ X ns oid frees) :=
  (looking_stable hX).and fun b b' hR h hfrees ns' hne =>
    unmarked_stable ns' oid b b' hR (h hfrees ns' hne)

theorem dropped_stable (hX : Stable (Spared provider may) X) :
    Stable (Spared provider may) (Dropped b₀ X ns oid frees) :=
  (dropping_stable hX).and (unmarked_stable ns oid)

theorem dropMarker_kept {sized : AList fun _ : Oid => Text} (hX : Stable (Spared provider may) X)
    (hmay : ∀ b, X b → may (Key.marker ns oid).text b)
    (hsized : ∀ oid key, sized.lookup oid = some key → ∃ ns oid n, key = (Key.size ns oid n).text)
    (hb : Dropping b₀ X ns oid frees b) :
    (S3Store.dropMarker keys ns oid (Key.marker ns oid).text sized).Under (Faulty provider)
      (Spared provider may) (Spared provider may) (fun _ => Dropped b₀ X ns oid frees)
      (fun _ => True) b := by
  have hdropping : Stable (Spared provider may) (Dropping b₀ X ns oid frees) := dropping_stable hX
  have hdropped : Stable (Spared provider may) (Dropped b₀ X ns oid frees) := dropped_stable hX
  refine S3Store.dropMarker_under (Dropping b₀ X ns oid frees) (Dropped b₀ X ns oid frees)
    (Dropped b₀ X ns oid frees) hdropping hdropped hdropped any_stable
    (fun key => ⟨kept_read hdropping (Req.reads_head key), kept_read hdropped (Req.reads_head key),
      kept_read hdropped (Req.reads_head key)⟩) ?_ ?_ ?_ hb
  · intro b answer b' hb hexec
    obtain ⟨hspared, hb'⟩ := kept hdropping (fun b hb => .delete (.delete (by simp) (by simp))
      (by simp) fun _ => hmay b hb.1.fact) b answer b' hb hexec
    refine ⟨hspared, ?_⟩
    cases answer with
    | ok existed => exact ⟨hb', hexec.not_has_of_delete⟩
    | error e => trivial
  · exact kept hdropped fun b hb => .delete (.delete_reference hb.2) (by simp) (by simp)
  · intro key hkey
    obtain ⟨ns', oid', n, rfl⟩ := hsized oid key hkey
    exact kept hdropped fun _ _ => .delete (.delete (by simp) (by simp)) (by simp) (by simp)

/-- Whatever the index says to the question a sweep asks last. -/
theorem claimedSince_kept (hX : Stable (Spared provider may) X)
    (hb : Dropped b₀ X ns oid frees b) :
    (S3Store.claimedSince keys ns oid).Under (Faulty provider) (Spared provider may)
      (Spared provider may)
      (fun claimed b' => if claimed then Looking b₀ X b' else Dropped b₀ X ns oid frees b')
      (fun _ => True) b := by
  have hdropped : Stable (Spared provider may) (Dropped b₀ X ns oid frees) := dropped_stable hX
  have hkeeps : Pages (Faulty provider) (Spared provider may) (Dropped b₀ X ns oid frees)
      (Dropped b₀ X ns oid frees) (fun _ _ => True) (fun _ _ => True) (Refs.keyPrefix oid) :=
    pages_kept (B := fun _ => True) hdropped (fun _ _ _ _ => trivial) fun _ _ _ _ _ _ => trivial
  refine (claimedByAnother_under (A := fun _ _ => True) (T := Looking b₀ X) hdropped
    (looking_stable hX) (fun _ => any_stable) ?_ ?_ (fun _ _ _ => no_furtherPages) hb).mono ?_
    fun _ h => h
  · intro after b answer b' hb hexec
    obtain ⟨hspared, hends⟩ := hkeeps after b answer b' hb hexec
    refine ⟨hspared, ?_⟩
    cases answer with
    | error e => exact hends.1.1
    | ok page =>
        obtain ⟨hb', b₁, hpage, hA, -⟩ := hends
        exact ⟨hb', b₁, hpage, hA, fun _ _ _ => hb'.1.1⟩
  · intro token b answer b' hexec
    rw [hexec.page.1]
    exact ⟨fun _ h => h, fun _ h => h⟩
  · intro claimed b' h
    cases claimed with
    | true => exact h
    | false => exact h.1

/-- The content goes when nobody has a marker. -/
theorem delete_content_kept (hX : Stable (Spared provider may) X) :
    Triple (Faulty provider) (Spared provider may) (Dropped b₀ X ns oid true)
      (.delete (Key.content oid).text)
      (Fallible.Ends (fun _ => Looking b₀ X) fun _ => True) := by
  intro b answer b' hb hexec
  have hunheld : ∀ b, Dropped b₀ X ns oid true b → ∀ ns', ¬ b.Has (Key.marker ns' oid).text := by
    intro b hb ns' hmarker
    by_cases hsame : ns'.Same ns
    · rw [Key.marker_eq_iff.mpr ⟨hsame, rfl⟩] at hmarker
      exact hb.2 hmarker
    · exact hb.1.2 rfl ns' hsame hmarker
  obtain ⟨hspared, hb'⟩ := kept (dropped_stable hX) (fun b hb =>
    .delete (.delete_content (hunheld b hb)) (by simp) (by simp)) b answer b' hb hexec
  refine ⟨hspared, ?_⟩
  cases answer with
  | ok existed => exact hb'.1.1
  | error e => trivial

/-- The index misses no marker, so what it has no reference of has no marker. -/
def Unheld (key : Text) (b : Bucket) : Prop :=
  ∀ ns oid, key = (Key.reference ns oid).text → ¬ b.Has (Key.marker ns oid).text

theorem unheld_stable (key : Text) : Stable (Spared provider may) (Unheld key) :=
  fun b b' hR h ns oid hkey => unmarked_stable ns oid b b' hR (h ns oid hkey)

theorem sweepOne_kept {sized : AList fun _ : Oid => Text} {entry : Entry}
    (hX : Stable (Spared provider may) X) (hready : ∀ b, X b → b.Has Key.complete.text)
    (hmay : dryRun = false → ∀ b, X b → may (Key.marker ns oid).text b)
    (hsized : ∀ oid key, sized.lookup oid = some key → ∃ ns oid n, key = (Key.size ns oid n).text)
    (hentry : entry.key = (Key.marker ns oid).text) (hb : Looking b₀ X b) :
    (S3Store.sweepOne keys ns sized dryRun entry oid).Under (Faulty provider)
      (Spared provider may) (Spared provider may) (fun _ => Looking b₀ X) (fun _ => True) b := by
  have hlooking : Stable (Spared provider may) (Looking b₀ X) := looking_stable hX
  have hmissing : ∀ b key, Looking b₀ X b → ¬ b.Has key → Unheld key b := by
    rintro b _ hb hkey ns oid rfl hmarker
    exact hkey (hb.sound.reference (hready b hb.fact) ns oid hmarker)
  refine Fallible.Under.bind any_stable ((claimedByAnother_under
    (P := Looking b₀ X) (T := Looking b₀ X) (A := Unheld) hlooking hlooking unheld_stable ?_ ?_
    (fun _ _ _ => no_furtherPages) hb).mono (fun claimed b₁ h => ?_) fun _ h => h)
  · intro after b answer b' hb hexec
    obtain ⟨hspared, hends⟩ := pages_kept (A := Unheld) (B := fun _ => True) hlooking hmissing
      (fun _ _ _ _ _ _ => trivial) after b answer b' hb hexec
    refine ⟨hspared, ?_⟩
    cases answer with
    | error e => exact hends
    | ok page =>
        obtain ⟨hb', b₁, hpage, hA, -⟩ := hends
        exact ⟨hb', b₁, hpage, hA, fun _ _ _ => hb'⟩
  · intro token b answer b' hexec
    rw [hexec.page.1]
    exact ⟨fun _ h => h, fun _ h => h⟩
  have hdropping : Dropping b₀ X ns oid (!claimed) b₁ := by
    cases claimed with
    | true => exact ⟨h, nofun⟩
    | false => exact ⟨h.1, fun _ ns' hne => h.2 ns' hne ns' oid rfl⟩
  cases dryRun with
  | true =>
      rw [if_pos rfl]
      split
      · exact S3Store.sizeOrZero_under hlooking (kept_read hlooking (Req.reads_head _)) hdropping.1
      · exact Fallible.Under.pure hlooking hdropping.1
  | false =>
      rw [if_neg Bool.false_ne_true, hentry]
      refine Fallible.Under.bind any_stable ((dropMarker_kept hX (hmay rfl) hsized hdropping).mono
        (fun _ b₂ hb₂ => ?_) fun _ h => h)
      exact S3Store.freeIndexed_under (dropped_stable hX) hlooking any_stable
        (fun _ b h => h.1.1) (fun hfrees b h => claimedSince_kept hX (hfrees ▸ h))
        (kept_read (dropped_stable hX) (Req.reads_head _)) (delete_content_kept hX) hb₂

/-- The markers that are there are among those a listing found. -/
def Found (markers : List Text) (b : Bucket) : Prop :=
  ∀ ns oid, b.Has (Key.marker ns oid).text → (Key.marker ns oid).text ∈ markers

theorem found_stable (markers : List Text) : Stable (Spared provider may) (Found markers) :=
  fun _ _ ⟨_, _, hr, hexec⟩ h ns oid hmarker =>
    h ns oid (hexec.has_before hmarker (hr.marker ns oid))

theorem sweepOneListed_kept {survey : Survey} {markers : List Text} {complete : Bool}
    {entry : Entry} (hX : Stable (Spared provider may) X) (hfound : ∀ b, X b → Found markers b)
    (hmay : dryRun = false → ∀ b, X b → may (Key.marker ns oid).text b)
    (hsized : ∀ oid key, survey.sized.lookup oid = some key →
      ∃ ns oid n, key = (Key.size ns oid n).text)
    (hclaimed : oid ∉ survey.claimedElsewhere → ∀ ns', ¬ ns'.Same ns →
      (Key.marker ns' oid).text ∉ markers)
    (hentry : entry.key = (Key.marker ns oid).text) (hb : Looking b₀ X b) :
    (S3Store.sweepOneListed keys ns survey complete dryRun entry oid).Under (Faulty provider)
      (Spared provider may) (Spared provider may) (fun _ => Looking b₀ X) (fun _ => True) b := by
  have hdropping : Dropping b₀ X ns oid
      (complete && decide (oid ∉ survey.claimedElsewhere)) b := by
    refine ⟨hb, fun hfrees ns' hne hmarker => ?_⟩
    rw [Bool.and_eq_true, decide_eq_true_eq] at hfrees
    exact hclaimed hfrees.2 ns' hne (hfound b hb.fact ns' oid hmarker)
  rw [S3Store.sweepOneListed]
  cases dryRun with
  | true => exact Fallible.Under.pure (looking_stable hX) hb
  | false =>
      rw [if_neg Bool.false_ne_true, hentry]
      refine Fallible.Under.bind any_stable ((dropMarker_kept hX (hmay rfl) hsized hdropping).mono
        (fun _ b₁ hb₁ => ?_) fun _ h => h)
      exact S3Store.freeListed_under (dropped_stable hX) (looking_stable hX) any_stable
        (fun _ b h => h.1.1) (fun hfrees b h => claimedSince_kept hX (hfrees ▸ h))
        (kept_read (dropped_stable hX) (Req.reads_head _)) (delete_content_kept hX) hb₁

/-! ### What is due -/

/-- A sweep of the repository may drop what it listed, once that is old enough. -/
def Due (may : Text → Bucket → Prop) (retained : Finset Oid) (grace : Nat) (ns : Namespace)
    (e : Entry) : Prop :=
  ∀ oid, e.key = (Key.marker ns oid).text → oid ∉ retained →
    ∀ time b, e.modified = some time → time + grace ≤ b.clock → may e.key b

theorem clock_stable (time : Nat) : Stable (Spared provider may) fun b => time ≤ b.clock :=
  fun _ _ ⟨_, _, _, hexec⟩ h => h.trans hexec.clock_le

/-- An entry that is not too young has a time, and that was long enough ago. -/
theorem age_kept {P : Bucket → Prop} (grace : Nat) (hP : Stable (Spared provider may) P)
    (e : Entry) (hb : P b) :
    e.age.Under (Faulty provider) (Spared provider may) (Spared provider may)
      (fun age b' => P b' ∧ (tooYoung age grace = false →
        ∃ time, e.modified = some time ∧ time + grace ≤ b'.clock)) (fun _ => True) b := by
  obtain ⟨key, modified, size⟩ := e
  have hpost : ∀ age, Stable (Spared provider may) fun b' => P b' ∧
      (tooYoung age grace = false → ∃ time, modified = some time ∧ time + grace ≤ b'.clock) := by
    rintro age b b' hR ⟨hb, hold⟩
    refine ⟨hP b b' hR hb, fun hyoung => ?_⟩
    obtain ⟨time, rfl, hle⟩ := hold hyoung
    exact ⟨time, rfl, clock_stable _ b b' hR hle⟩
  refine Fallible.Under.bind any_stable (Fallible.Under.certain hP hb
    (fun _ => Fallible.Under.stable) fun b now b' hb hexec => ?_)
  obtain ⟨hspared, hb'⟩ := kept_read hP Req.reads_now b now b' hb hexec
  refine ⟨hspared, ?_⟩
  have hclock : b'.clock = now := by
    rcases hexec with ⟨-, rfl⟩ | ⟨h, -⟩
    · rfl
    · exact h.elim
  cases modified with
  | none => exact Fallible.Under.pure (hpost none) ⟨hb', nofun⟩
  | some time =>
      dsimp only
      split
      case isFalse => exact Fallible.Under.pure (hpost none) ⟨hb', nofun⟩
      case isTrue hle =>
        refine Fallible.Under.pure (hpost _) ⟨hb', fun hyoung => ⟨time, rfl, ?_⟩⟩
        simp only [tooYoung, Option.all_some, decide_eq_false_iff_not, not_lt] at hyoung
        omega

/-- What a sweep goes on to drop may be dropped by then. -/
theorem droppable_kept {P : Bucket → Prop} {retained : Finset Oid} {grace : Nat}
    (hP : Stable (Spared provider may) P) (hmay : ∀ key, Stable (Spared provider may) (may key))
    (mine : List (Entry × Oid)) (report : SweepReport)
    (hmine : ∀ p ∈ mine, p.1.key = (Key.marker ns p.2).text ∧ Due may retained grace ns p.1)
    (hb : P b) :
    (S3Store.droppable retained grace mine report).Under (Faulty provider) (Spared provider may)
      (Spared provider may)
      (fun dropped b' => P b' ∧ dropped.1 ⊆ mine ∧ ∀ p ∈ dropped.1, may p.1.key b')
      (fun _ => True) b := by
  have hpost : ∀ (P : Bucket → Prop) (dropped mine : List (Entry × Oid)),
      Stable (Spared provider may) P → Stable (Spared provider may)
        fun b' => P b' ∧ dropped ⊆ mine ∧ ∀ p ∈ dropped, may p.1.key b' :=
    fun P dropped mine hP b b' hR h => ⟨hP b b' hR h.1, h.2.1,
      fun p hp => hmay _ b b' hR (h.2.2 p hp)⟩
  induction mine generalizing report b P with
  | nil => exact Fallible.Under.pure (hpost P [] [] hP) ⟨hb, fun _ h => h, nofun⟩
  | cons p rest ih =>
      obtain ⟨entry, oid⟩ := p
      have hrest : ∀ p ∈ rest, p.1.key = (Key.marker ns p.2).text ∧ Due may retained grace ns p.1 :=
        fun p hp => hmine p (List.mem_cons_of_mem _ hp)
      have hskip : ∀ report b, P b → (S3Store.droppable retained grace rest report).Under
          (Faulty provider) (Spared provider may) (Spared provider may)
          (fun dropped b' => P b' ∧ dropped.1 ⊆ (entry, oid) :: rest ∧
            ∀ p ∈ dropped.1, may p.1.key b') (fun _ => True) b := by
        intro report b hb
        exact (ih hP report hrest hb).mono
          (fun _ _ h => ⟨h.1, List.subset_cons_of_subset _ h.2.1, h.2.2⟩) fun _ h => h
      rw [S3Store.droppable]
      split
      case isTrue => exact hskip report b hb
      case isFalse hretained =>
      refine Fallible.Under.bind any_stable ((age_kept grace hP entry hb).mono
        (fun age b₁ h => ?_) fun _ h => h)
      obtain ⟨hb₁, hold⟩ := h
      split
      case isTrue => exact hskip _ b₁ hb₁
      case isFalse hyoung =>
      obtain ⟨hkey, hdue⟩ := hmine (entry, oid) List.mem_cons_self
      obtain ⟨time, hmodified, hle⟩ := hold (Bool.not_eq_true _ ▸ hyoung)
      have hentry : may entry.key b₁ := hdue oid hkey hretained time b₁ hmodified hle
      refine Fallible.Under.bind any_stable ((ih (hP.and (hmay entry.key)) _ hrest
        ⟨hb₁, hentry⟩).mono (fun dropped b₂ h => ?_) fun _ h => h)
      obtain ⟨⟨hb₂, hentry⟩, hsub, hdropped⟩ := h
      refine Fallible.Under.pure (hpost P _ _ hP) ⟨hb₂, ?_, List.forall_mem_cons.mpr
        ⟨hentry, hdropped⟩⟩
      exact List.cons_subset_cons _ hsub

/-- What is listed of a marker is when it was put. -/
def Dated (b₀ : Bucket) (e : Entry) : Prop :=
  Key.Written e.key ∧ ∀ ns oid, e.key = (Key.marker ns oid).text →
    ∃ o, b₀.find e.key = some o ∧ e.modified = o.modified

theorem Looking.dated (hb : Looking b₀ X b) {e : Entry} {o : Stored}
    (hfind : b.find e.key = some o) (hmodified : e.modified = o.modified) : Dated b₀ e := by
  refine ⟨hb.sound.written e.key (by rw [Bucket.Has, hfind]; rfl), fun ns oid hkey => ⟨o, ?_,
    hmodified⟩⟩
  rw [hkey] at hfind ⊢
  exact hb.unclaimed ns oid o hfind

/-- What a sweep of `ns` may drop: the chores' `may`, of the markers it began with. -/
structure Sweeper (may : Text → Bucket → Prop) (b₀ : Bucket) (ns : Namespace)
    (retained : Finset Oid) (grace : Nat) (dryRun : Bool) : Prop where
  due : dryRun = false → ∀ oid o time b, b₀.find (Key.marker ns oid).text = some o →
    oid ∉ retained → o.modified = some time → time + grace ≤ b.clock →
    may (Key.marker ns oid).text b

theorem listing_kept {under : Text} {A : Text → Bucket → Prop}
    (hX : Stable (Spared provider may) X) (hA : ∀ key, Stable (Spared provider may) (A key))
    (hfresh : ∀ b key, Looking b₀ X b → ¬ b.Has key → A key b) (hb : Looking b₀ X b) :
    (keys.listing under).Under (Faulty provider) (Spared provider may) (Spared provider may)
      (fun listing b' =>
        (listing.complete = true ∧ Looking b₀ X b' ∧
          Listed under none (A · b') (Dated b₀) listing.entries) ∨
        (listing.complete = false ∧ listing.entries = [] ∧ Looking b₀ X b')) (fun _ => True) b :=
  listing_under (B := fun e _ => Dated b₀ e) (looking_stable hX) hA (fun _ _ _ _ h => h)
    (looking_stable hX) (pages_kept (looking_stable hX) hfresh fun _ _ _ hb hfind hmodified =>
      hb.dated hfind hmodified) later_kept (fun _ _ _ => no_furtherPages) hb

/-- The end of a sweep, from what it listed. -/
theorem dropped_kept {retained : Finset Oid} {grace : Nat} {entries : List Entry}
    {one : Entry → Oid → Op Nat} {report : SweepReport} (hX : Stable (Spared provider may) X)
    (hmay : ∀ key, Stable (Spared provider may) (may key))
    (hsweeper : Sweeper may b₀ ns retained grace dryRun)
    (hdated : ∀ e ∈ entries, Dated b₀ e)
    (hone : ∀ Y : Bucket → Prop, Stable (Spared provider may) Y → (∀ b, Y b → X b) →
      ∀ entry oid b, entry.key = (Key.marker ns oid).text →
      (dryRun = false → ∀ b, Y b → may (Key.marker ns oid).text b) → Looking b₀ Y b →
      (one entry oid).Under (Faulty provider) (Spared provider may) (Spared provider may)
        (fun _ => Looking b₀ Y) (fun _ => True) b)
    (hb : Looking b₀ X b) :
    (do
      let dropped ← S3Store.droppable retained grace
        (Survey.of entries (S3Store.ownPrefix ns)).mine report
      S3Store.sweepEach one dropped.1 dropped.2 : Op SweepReport).Under (Faulty provider)
      (Spared provider may) (Spared provider may) (fun _ => Sound) (fun _ => True) b := by
  have hmine : ∀ p ∈ (Survey.of entries (S3Store.ownPrefix ns)).mine,
      p.1 ∈ entries ∧ p.1.key = (Key.marker ns p.2).text :=
    Survey.of_mem_mine fun e he => (hdated e he).1
  have hpost : (S3Store.droppable retained grace
      (Survey.of entries (S3Store.ownPrefix ns)).mine report).Under (Faulty provider)
      (Spared provider may) (Spared provider may)
      (fun dropped b' => Looking b₀ X b' ∧
        dropped.1 ⊆ (Survey.of entries (S3Store.ownPrefix ns)).mine ∧
        (dryRun = false → ∀ p ∈ dropped.1, may p.1.key b')) (fun _ => True) b := by
    cases dryRun with
    | true =>
        exact (S3Store.droppable_under (looking_stable hX) any_stable
          (kept_read (looking_stable hX) Req.reads_now) _ report hb).mono
          (fun _ _ h => ⟨h.1, h.2.subset, nofun⟩) fun _ h => h
    | false =>
        have hdue : ∀ p ∈ (Survey.of entries (S3Store.ownPrefix ns)).mine,
            p.1.key = (Key.marker ns p.2).text ∧ Due may retained grace ns p.1 := by
          intro p hp
          obtain ⟨hentry, hkey⟩ := hmine p hp
          refine ⟨hkey, fun oid hkey' hretained time b hmodified hle => ?_⟩
          obtain ⟨o, ho, hdate⟩ := (hdated p.1 hentry).2 ns oid hkey'
          rw [hkey'] at ho ⊢
          exact hsweeper.due rfl oid o time b ho hretained (hdate ▸ hmodified) hle
        exact (droppable_kept (looking_stable hX) hmay _ report hdue hb).mono
          (fun _ _ h => ⟨h.1, h.2.1, fun _ => h.2.2⟩) fun _ h => h
  refine Fallible.Under.bind any_stable (hpost.mono (fun dropped b' h => ?_) fun _ h => h)
  obtain ⟨hb', hsub, hdropped⟩ := h
  let left (rest : List (Entry × Oid)) (b : Bucket) : Prop :=
    X b ∧ (dryRun = false → ∀ p ∈ rest, may p.1.key b)
  have hleft : ∀ rest, Stable (Spared provider may) (left rest) :=
    fun rest => hX.and fun b b' hR h hdry p hp => hmay _ b b' hR (h hdry p hp)
  refine (S3Store.sweepEach_under (L := fun rest => Looking b₀ (left rest))
    (looking_stable (hleft [])) any_stable dropped.1 dropped.2 ?_
    ⟨hb'.sound, hb'.unclaimed, hb'.fact, hdropped⟩).mono (fun _ _ h => h.sound) fun _ h => h
  intro before entry oid rest heq b hb
  have hmem : (entry, oid) ∈ dropped.1 := heq ▸ List.mem_append_right _ List.mem_cons_self
  have hkey := (hmine _ (hsub hmem)).2
  refine (hone (left ((entry, oid) :: rest)) (hleft _) (fun _ h => h.1) entry oid b hkey ?_
    hb).mono (fun _ b' h => ⟨h.sound, h.unclaimed, h.fact.1, ?_⟩) fun _ h => h
  · intro hdry b h
    exact hkey ▸ h.2 hdry (entry, oid) List.mem_cons_self
  · exact fun hdry p hp => h.fact.2 hdry p (List.mem_cons_of_mem _ hp)

/-- A sweep that could list nothing drops nothing. -/
theorem nothing_kept {retained : Finset Oid} {grace : Nat} {one : Entry → Oid → Op Nat}
    {report : SweepReport} {ours : Text} (hb : Sound b) :
    (do
      let dropped ← S3Store.droppable retained grace (Survey.of [] ours).mine report
      S3Store.sweepEach one dropped.1 dropped.2 : Op SweepReport).Under (Faulty provider)
      (Spared provider may) (Spared provider may) (fun _ => Sound) (fun _ => True) b :=
  Fallible.Under.pure sound_stable hb

variable {retained : Finset Oid} {grace : Nat}

theorem sweepIndexed_kept (hmay : ∀ key, Stable (Spared provider may) (may key))
    (hsweeper : Sweeper may b₀ ns retained grace dryRun)
    (hb : Looking b₀ (fun b => b.Has Key.complete.text) b) :
    (S3Store.sweepIndexed keys ns retained grace dryRun).Under (Faulty provider)
      (Spared provider may) (Spared provider may) (fun _ => Sound) (fun _ => True) b := by
  refine Fallible.Under.bind any_stable ((listing_kept (A := fun _ _ => True) ready_stable
    (fun _ => any_stable) (fun _ _ _ _ => trivial) hb).mono (fun listing b₁ h => ?_) fun _ h => h)
  rcases h with ⟨-, hb₁, hlisted⟩ | ⟨-, hentries, hb₁⟩
  · have hwritten : ∀ e ∈ listing.entries, Key.Written e.key := fun e he => (hlisted.present e he).1
    exact dropped_kept ready_stable hmay hsweeper hlisted.present
      (fun Y hY hready entry oid b hentry hmayY hb =>
        sweepOne_kept hY hready hmayY (Survey.of_lookup_sized hwritten) hentry hb) hb₁
  · rw [hentries]
    exact nothing_kept hb₁.sound

/-! ### Building the index -/

/-- A reference that was put stays while its marker does. -/
def Referenced (done : List Text) (b : Bucket) : Prop :=
  ∀ ns oid, (Key.reference ns oid).text ∈ done → b.Has (Key.marker ns oid).text →
    b.Has (Key.reference ns oid).text

theorem referenced_stable (done : List Text) : Stable (Spared provider may) (Referenced done) := by
  rintro b b' ⟨r, answer, hr, hexec⟩ h ns oid hdone hmarker
  have hbefore := hexec.has_before hmarker (hr.marker ns oid)
  exact hexec.has (h ns oid hdone hbefore) fun hdeletes =>
    hr.harmless.reference ns oid hdeletes hbefore

theorem buildIndex_kept {markers : List Text} {complete : Bool}
    (hmarkers : ∀ key ∈ markers, ∃ ns oid, key = (Key.marker ns oid).text)
    (hb : Looking b₀ (Found markers) b) :
    (S3Store.buildIndex markers complete dryRun).Under (Faulty provider) (Spared provider may)
      (Spared provider may) (fun _ => Looking b₀ (Found markers)) (fun _ => True) b := by
  have hlooking : Stable (Spared provider may) (Looking b₀ (Found markers)) :=
    looking_stable (found_stable markers)
  have hdone : ∀ done, Stable (Spared provider may)
      fun b => Looking b₀ (Found markers) b ∧ Referenced done b :=
    fun done => hlooking.and (referenced_stable done)
  refine S3Store.buildIndex_under (P := Looking b₀ (Found markers))
    (D := fun done b => Looking b₀ (Found markers) b ∧ Referenced done b) hlooking hdone
    (fun b hb => ⟨hb, by simp [Referenced]⟩) (fun n b order b' hb hexec => ?_)
    (fun done key hkey b answer b' hb hexec => ?_) (fun done hput b answer b' hb hexec => ?_) hb
  · obtain ⟨hspared, hb'⟩ := kept_read hlooking (Req.reads_unordered n) b order b' hb hexec
    refine ⟨hspared, ?_, hb'⟩
    rcases hexec with ⟨h, -⟩ | ⟨h, -⟩
    · exact h
    · exact h.elim
  · obtain ⟨marker, hmarker, href⟩ := List.mem_filterMap.mp hkey
    obtain ⟨ns, oid, rfl⟩ := hmarkers marker hmarker
    rw [Key.fromMarker_marker, Option.some.injEq] at href
    subst href
    obtain ⟨hspared, hb'⟩ := kept (hdone done) (fun b _ =>
      .put (.put (by simp) (by simp)) (by simp) (by simp)) b answer b' hb hexec
    refine ⟨hspared, ?_⟩
    cases answer with
    | error e => exact hb'.1
    | ok u =>
        refine ⟨hb'.1, fun ns' oid' hmem hmarker' => ?_⟩
        rcases List.mem_append.mp hmem with hmem | hmem
        · exact hb'.2 ns' oid' hmem hmarker'
        · rw [List.mem_singleton.mp hmem]
          exact hexec.has_of_put
  · have hr : Spares may b (.put Key.complete.text []) := by
      refine .put (.put_complete fun ns oid hmarker => hb.2 ns oid ?_ hmarker) (by simp) (by simp)
      exact hput _ (List.mem_filterMap.mpr
        ⟨_, hb.1.fact ns oid hmarker, Key.fromMarker_marker ns oid⟩)
    exact ⟨⟨_, answer, hr, hexec⟩, hlooking b b' ⟨_, answer, hr, hexec⟩ hb.1⟩

theorem sweepWholeBucket_kept (hmay : ∀ key, Stable (Spared provider may) (may key))
    (hsweeper : Sweeper may b₀ ns retained grace dryRun) (hb : Looking b₀ (fun _ => True) b) :
    (S3Store.sweepWholeBucket keys ns retained grace dryRun).Under (Faulty provider)
      (Spared provider may) (Spared provider may) (fun _ => Sound) (fun _ => True) b := by
  have hunmarked : ∀ key, Stable (Spared provider may) fun b =>
      ∀ ns oid, key = (Key.marker ns oid).text → ¬ b.Has (Key.marker ns oid).text :=
    fun key b b' hR h ns oid hkey => unmarked_stable ns oid b b' hR (h ns oid hkey)
  refine Fallible.Under.bind any_stable ((listing_kept any_stable hunmarked
    (fun b key _ hkey ns oid heq hmarker => hkey (heq ▸ hmarker)) hb).mono
    (fun listing b₁ h => ?_) fun _ h => h)
  rcases h with ⟨-, hb₁, hlisted⟩ | ⟨hcomplete, hentries, hb₁⟩
  · have hwritten : ∀ e ∈ listing.entries, Key.Written e.key := fun e he => (hlisted.present e he).1
    have hmarkers : ∀ key, key ∈ (Survey.of listing.entries (S3Store.ownPrefix ns)).markers ↔
        key ∈ listing.entries.map Entry.key ∧ ∃ ns' oid, key = (Key.marker ns' oid).text :=
      Survey.mem_markers hwritten
    have hfound : Found (Survey.of listing.entries (S3Store.ownPrefix ns)).markers b₁ := by
      intro ns' oid hmarker
      by_contra hnot
      refine hlisted.absent _ List.nil_prefix (by simp) (fun hmem => hnot ?_) ns' oid rfl hmarker
      exact (hmarkers _).mpr ⟨hmem, ns', oid, rfl⟩
    refine Fallible.Under.bind any_stable ((buildIndex_kept
      (fun key hkey => ((hmarkers key).mp hkey).2)
      ⟨hb₁.sound, hb₁.unclaimed, hfound⟩).mono (fun _ b₂ hb₂ => ?_) fun _ h => h)
    refine dropped_kept (found_stable _) hmay hsweeper hlisted.present
      (fun Y hY hfoundY entry oid b hentry hmayY hb => ?_) hb₂
    refine sweepOneListed_kept hY hfoundY hmayY (Survey.of_lookup_sized hwritten)
      (fun hclaimed ns' hne hmem => hclaimed ?_) hentry hb
    exact (Survey.mem_claimedElsewhere hwritten oid).mpr ⟨ns', hne, ((hmarkers _).mp hmem).1⟩
  · have hbuild : ∀ markers, S3Store.buildIndex markers false dryRun = pure () := by
      intro markers
      rw [S3Store.buildIndex, Bool.and_false]
      rfl
    refine Fallible.Under.bind any_stable ?_
    rw [hcomplete, hbuild, hentries]
    exact Fallible.Under.pure Fallible.Under.stable (nothing_kept hb₁.sound)

theorem sweep_kept (hmay : ∀ key, Stable (Spared provider may) (may key))
    (hsweeper : Sweeper may b₀ ns retained grace dryRun) (hb : Looking b₀ (fun _ => True) b) :
    (S3Store.sweep keys ns retained grace dryRun).Under (Faulty provider) (Spared provider may)
      (Spared provider may) (fun _ => Sound) (fun _ => True) b := by
  have hlooking : Stable (Spared provider may) (Looking b₀ fun _ => True) :=
    looking_stable any_stable
  refine Fallible.Under.bind any_stable (found_under hlooking
    (fun _ => Fallible.Under.stable) hb fun b answer b' hb hexec => ?_)
  obtain ⟨hspared, hb'⟩ := kept_read hlooking (Req.reads_head _) b answer b' hb hexec
  refine ⟨hspared, ?_⟩
  cases answer with
  | ok n =>
      have hready := hexec.has hexec.has_of_head ((Req.reads_head Key.complete.text).2 _)
      exact sweepIndexed_kept hmay hsweeper ⟨hb'.sound, hb'.unclaimed, hready⟩
  | error e => exact sweepWholeBucket_kept hmay hsweeper hb'

end Sweep

/-! ## The other chores -/

section Others

variable {provider : Provider} {may : Text → Bucket → Prop} {keys : Keyspace} {b : Bucket}

theorem size_kept (ns : Namespace) (oid : Oid) (size : Nat) :
    Triple (Faulty provider) (Spared provider may) Sound (.put (Sizes.key ns oid size) [])
      fun _ => Sound :=
  kept sound_stable fun _ _ => .put (k := .size ns oid size) (.put (by simp) (by simp)) (by simp)
    (by simp)

theorem entries_kept {under : Text} (hb : Sound b) :
    (keys.entries under).Under (Faulty provider) (Spared provider may) (Spared provider may)
      (fun entries b' => Sound b' ∧ ∀ e ∈ entries, Key.Written e.key ∧
        under <+: e.key) Sound b := by
  refine (entries_under (A := fun _ _ => True) (B := fun e _ => Key.Written e.key) sound_stable
    (fun _ => any_stable) (fun _ _ _ _ h => h) sound_stable (pages_kept sound_stable
      (fun _ _ _ _ => trivial) fun b e o hb hfind _ => ?_) later_kept (fun _ _ _ => no_furtherPages)
    hb).mono (fun entries b' h => ⟨h.1, fun e he => ⟨h.2.present e he, h.2.starts e he⟩⟩)
    fun _ h => h
  exact hb.written e.key (by rw [Bucket.Has, hfind]; rfl)

theorem usageOf_kept (ns : Namespace) (hb : Sound b) :
    (S3Store.usageOf keys ns).Under (Faulty provider) (Spared provider may) (Spared provider may)
      (fun _ => Sound) (fun _ => True) b :=
  S3Store.usageOf_under sound_stable (fun _ => kept_read sound_stable (Req.reads_head _))
    (size_kept ns) (fun _ => kept_read sound_stable (Req.reads_unordered _)) any_stable
    ((entries_kept hb).mono (fun _ _ h => h.1) fun _ h => h)

/-- An upload, or what a probe left behind. -/
def Passing (e : Entry) : Prop :=
  ∃ k : Key, e.key = k.text ∧ (k.dir = ".incoming".toList ∨ k.dir = ".probe".toList)

theorem passing_kept {e : Entry} (h : Passing e) :
    (Triple (Faulty provider) (Spared provider may) Sound (.head e.key) fun _ => Sound) ∧
      Triple (Faulty provider) (Spared provider may) Sound (.delete e.key) fun _ => Sound := by
  obtain ⟨k, hk, hdir⟩ := h
  have hne : ∀ l : Key, k = l → l.dir = ".incoming".toList ∨ l.dir = ".probe".toList := by
    rintro l rfl
    exact hdir
  rw [hk]
  refine ⟨kept_read sound_stable (Req.reads_head _), kept sound_stable fun _ _ =>
    .delete (.delete ?_ ?_) ?_ ?_⟩
  · exact fun oid heq => absurd (show ".content".toList = _ ∨ ".content".toList = _ from
      hne (.content oid) heq) (by decide)
  · exact fun ns oid heq => absurd (show ".refs".toList = _ ∨ ".refs".toList = _ from
      hne (.reference ns oid) heq) (by decide)
  · exact fun heq => absurd (show ".refs".toList = _ ∨ ".refs".toList = _ from
      hne .complete heq) (by decide)
  · rintro ⟨ns, oid, heq⟩
    rcases hne _ heq with h | h
    exacts [absurd h (Key.storedOrg_ne ns rfl), absurd h (Key.storedOrg_ne ns rfl)]

theorem reclaimIncoming_kept (olderThan : Nat) (hb : Sound b) :
    (S3Store.reclaimIncoming keys olderThan).Under (Faulty provider) (Spared provider may)
      (Spared provider may) (fun _ => Sound) (fun _ => True) b := by
  refine S3Store.reclaimUnder_under (D := Passing) sound_stable
    (kept_read sound_stable Req.reads_now) olderThan _ _ (fun under hunder b hb => ?_)
    (fun _ h => passing_kept h) any_stable hb
  refine (entries_kept hb).mono (fun entries b' h => ⟨h.1, fun e he => ?_⟩) fun _ _ => trivial
  obtain ⟨⟨k, hk⟩, hstarts⟩ := h.2 e he
  rw [hk] at hstarts
  rw [List.mem_cons, List.mem_singleton] at hunder
  rcases hunder with rfl | rfl
  · exact ⟨k, hk, .inl ((Key.dir_text (d := ".incoming".toList) (by decide)).mp hstarts)⟩
  · exact ⟨k, hk, .inr ((Key.dir_text (d := ".probe".toList) (by decide)).mp hstarts)⟩

theorem upload_kept (ns : Namespace) (oid : Oid) (body : Bytes) (hb : Sound b) :
    (put (S3Store.incomingKey ns oid) body).Under (Faulty provider) (Spared provider may)
      (Spared provider may) (fun _ => Sound) (fun _ => True) b := by
  refine put_under sound_stable sound_stable any_stable hb fun b answer b' hb hexec => ?_
  obtain ⟨hspared, hb'⟩ := kept sound_stable (fun _ _ => .put (k := .incoming ns oid)
    (.put (by simp) (by simp)) (by simp) (by simp)) b answer b' hb hexec
  refine ⟨hspared, ?_⟩
  cases answer with
  | ok _ => exact hb'
  | error _ => trivial

end Others

/-! ## Runs -/

section Runs

variable {κ : Type} {provider : Provider} {b : Bucket}

/-- Chores side by side, each following its listings for some pages. -/
def start (provider : Provider) (pages : κ → Nat) (chores : κ → Chore) (b : Bucket) :
    Pool κ Req Resp (Except Error Unit) Bucket :=
  ⟨fun i => ((chores i).op ⟨provider, pages i⟩).run, b⟩

/-- Some chore may drop a marker: a real sweep of its repository that does not retain the object,
and the marker is older than the grace. -/
def Droppable (b₀ : Bucket) (chores : κ → Chore) (key : Text) (b : Bucket) : Prop :=
  ∃ i ns oid retained grace o time, chores i = .sweep ns retained grace false ∧
    key = (Key.marker ns oid).text ∧ oid ∉ retained ∧ b₀.find key = some o ∧
    o.modified = some time ∧ time + grace ≤ b.clock

variable {chores : κ → Chore} {b₀ : Bucket}

theorem droppable_stable {may : Text → Bucket → Prop} (key : Text) :
    Stable (Spared provider may) (Droppable b₀ chores key) := by
  rintro b b' ⟨_, _, _, hexec⟩ ⟨i, ns, oid, retained, grace, o, time, hchore, hkey, hretained,
    hfind, hmodified, hle⟩
  exact ⟨i, ns, oid, retained, grace, o, time, hchore, hkey, hretained, hfind, hmodified,
    hle.trans hexec.clock_le⟩

/-- Every chore spares what it may not touch, up to wherever it got. -/
theorem chore_kept (keys : Keyspace) (hb : Sound b) (i : κ) :
    ((chores i).op keys).Under (Faulty provider) (Spared provider (Droppable b chores))
      (Spared provider (Droppable b chores)) (fun _ => Sound) (fun _ => True) b := by
  cases hchore : chores i with
  | sweep ns retained grace dryRun =>
      have hsweeper : Sweeper (Droppable b chores) b ns retained grace dryRun := by
        refine ⟨fun hdry oid o time b' hfind hretained hmodified hle => ?_⟩
        subst hdry
        exact ⟨i, ns, oid, retained, grace, o, time, hchore, rfl, hretained, hfind, hmodified, hle⟩
      exact Fallible.Under.bind any_stable ((sweep_kept droppable_stable hsweeper
        ⟨hb, fun _ _ _ h => h, trivial⟩).mono
        (fun _ _ h => Fallible.Under.pure sound_stable h) fun _ h => h)
  | usageOf ns =>
      exact Fallible.Under.bind any_stable ((usageOf_kept ns hb).mono
        (fun _ _ h => Fallible.Under.pure sound_stable h) fun _ h => h)
  | reclaimIncoming olderThan =>
      exact Fallible.Under.bind any_stable ((reclaimIncoming_kept olderThan hb).mono
        (fun _ _ h => Fallible.Under.pure sound_stable h) fun _ h => h)
  | upload ns oid body => exact upload_kept ns oid body hb

variable [DecidableEq κ] {pages : κ → Nat} {pool : Pool κ Req Resp (Except Error Unit) Bucket}

/-- What every step of every chore keeps holds in every state they reach. -/
theorem spared (hb : Sound b) {I : Bucket → Prop}
    (hI : Stable (Spared provider (Droppable b chores)) I) (hinit : I b)
    (hsteps : Pool.Steps (fun _ => Faulty provider) (start provider pages chores b) pool) :
    I pool.state :=
  have hunder : (start provider pages chores b).Under (fun _ => Faulty provider)
      (fun _ => Spared provider (Droppable b chores))
      (fun _ => Spared provider (Droppable b chores))
      fun _ => Fallible.Ends (fun _ => Sound) fun _ => True :=
    fun i => chore_kept ⟨provider, pages i⟩ hb i
  have hrely : ∀ i j : κ, i ≠ j → ∀ s s', Spared provider (Droppable b chores) s s' →
      Spared provider (Droppable b chores) s s' := fun _ _ _ _ _ h => h
  Pool.Steps.invariant hrely (fun _ s s' => hI s s') hunder hinit hsteps

end Runs

end Lfsx.Storage.Together
