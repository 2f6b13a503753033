import Lfsx.Storage.BucketSound
import Lfsx.Storage.KeyspaceAlone
import Lfsx.Storage.S3Rules

/-!
# Crash safety

One call after the other, with any request refused before or after it took effect
and any call dying after any request: the bucket stays sound, so content is never
deleted under a marker and the claim index, once it is marked complete, misses no
marker (`crash_safe`).  A call is also *prudent*: it deletes no content after a
listing it could not finish, or after an answer about that object that the index
refused.

Nothing runs beside a call, so the assertions of the rules are about the bucket as it
is, and no assertion has to survive anybody else (`alone_stable`).
-/

namespace Lfsx.Storage.Crash

open Request Keyspace

/-! ## Histories -/

/-- What one call did. -/
abbrev Trace := Log Unit Req Resp

/-- A store that may refuse any request, and the trace of the call. -/
abbrev faulty (provider : Provider) : Semantics Req Resp (Bucket × Trace) :=
  recording (fun _ => Faulty provider) ()

/-- A call, as far as it went. -/
def Session (provider : Provider) (b : Bucket) (trace : Trace) (b' : Bucket) : Prop :=
  ∃ (pages : Nat) (call : Call) (rest : Program Req Resp (Except Error Unit)),
    Program.Steps (faulty provider) ((call.run ⟨provider, pages⟩).run, (b, [])) (rest, (b', trace))

/-- What happens to a bucket: a call, an upload of a client, or nothing for a while. -/
inductive Between (provider : Provider) : Bucket → Bucket → Prop where
  | session {b b' : Bucket} {trace : Trace} : Session provider b trace b' → Between provider b b'
  | upload {b : Bucket} (ns : Namespace) (oid : Oid) (body : Bytes) {time : Nat} :
      b.clock ≤ time → Between provider b (b.write (S3Store.incomingKey ns oid) body time)
  | wait {b : Bucket} {time : Nat} : b.clock ≤ time → Between provider b (b.wait time)

/-- An answer that never came, about an object or about what there is at all. -/
def BlindTo (oid : Oid) (e : Event Unit Req Resp) : Prop :=
  Refusal e.req e.answer ∧ ∃ under after, e.req = .page under after ∧
    ∀ oid', under = Refs.keyPrefix oid' → oid' = oid

/-- No content was deleted after a listing, or an index of the object, that failed. -/
def Prudent : Trace → Prop
  | [] => True
  | e :: earlier =>
      (∀ oid, e.req.Deletes (Key.content oid).text → ∀ e' ∈ earlier, ¬ BlindTo oid e') ∧
        Prudent earlier

/-! ## One request -/

open Program (Stable Triple)

/-- Nobody else is there. -/
abbrev Nobody (_ _ : Bucket × Trace) : Prop := False

theorem alone_stable {P : Bucket × Trace → Prop} : Stable Nobody P := fun _ _ h => h.elim

/-- What every request of a call keeps. -/
def Careful (s s' : Bucket × Trace) : Prop :=
  Sound s.1 ∧ Prudent s.2 → Sound s'.1 ∧ Prudent s'.2

section Requests

variable {provider : Provider} {r : Req} {s s' : Bucket × Trace} {answer : Resp r}

theorem answered (hs : Sound s.1) (hr : Harmless s.1 r)
    (hexec : faulty provider r s answer s') : Sound s'.1 :=
  hs.step hr hexec.1

theorem careful (hr : Harmless s.1 r)
    (hsees : ∀ oid, r.Deletes (Key.content oid).text → ∀ e ∈ s.2, ¬ BlindTo oid e)
    (hexec : faulty provider r s answer s') : Careful s s' := by
  rintro ⟨hsound, hprudent⟩
  refine ⟨answered hsound hr hexec, ?_⟩
  rw [hexec.2]
  exact ⟨hsees, hprudent⟩

/-- A request that deletes no content needs only to be harmless. -/
theorem careful_of_keeps (hr : Harmless s.1 r) (hkeeps : ∀ oid, ¬ r.Deletes (Key.content oid).text)
    (hexec : faulty provider r s answer s') : Careful s s' :=
  careful hr (fun oid hdel => absurd hdel (hkeeps oid)) hexec

theorem careful_of_reads (hr : r.Reads) (hexec : faulty provider r s answer s') : Careful s s' :=
  careful_of_keeps (.read hr) (fun _ => hr.2 _) hexec

theorem no_furtherPages {answer : Resp .furtherPages} :
    ¬ faulty provider .furtherPages s answer s' := by
  rintro ⟨h | ⟨h, -⟩, -⟩ <;> exact h

end Requests

/-! ## Pushes -/

section Push

variable {provider : Provider} {keys : Keyspace} {ns : Namespace} {oid : Oid}
  {s : Bucket × Trace}

theorem push_sound : S3Store.Push (faulty provider) Nobody Careful ns oid
    (fun s => Sound s.1)
    (fun s => Sound s.1 ∧ s.1.Has (Key.reference ns oid).text)
    (fun s => Sound s.1 ∧ s.1.Has (Key.reference ns oid).text ∧ s.1.Has (Key.content oid).text)
    (fun s => Sound s.1) where
  stable₀ := alone_stable
  stable₁ := alone_stable
  stable₂ := alone_stable
  stable₃ := alone_stable
  reference s answer s' hs hexec := by
    have hr : Harmless s.1 (.put (Key.reference ns oid).text []) := .put (by simp) (by simp)
    refine ⟨careful_of_keeps hr (fun _ => Req.not_deletes_put) hexec, ?_⟩
    cases answer with
    | ok u => exact ⟨answered hs hr hexec, hexec.1.has_of_put⟩
    | error e => trivial
  looked s answer s' hs hexec := by
    have hr : (Req.head (Key.content oid).text).Reads := Req.reads_head _
    have hhas : ∀ key, s.1.Has key → s'.1.Has key := fun key h => hexec.1.has h (hr.2 _)
    refine ⟨careful_of_reads hr hexec, ?_⟩
    cases answer with
    | ok n => exact ⟨answered hs.1 (.read hr) hexec, hhas _ hs.2, hhas _ hexec.1.has_of_head⟩
    | error e => exact ⟨answered hs.1 (.read hr) hexec, hhas _ hs.2⟩
  marker s answer s' hs hexec := by
    have hr : Harmless s.1 (.put (Key.marker ns oid).text []) := .put_marker hs.2.2 hs.2.1
    refine ⟨careful_of_keeps hr (fun _ => Req.not_deletes_put) hexec, ?_⟩
    cases answer with
    | ok u => exact answered hs.1 hr hexec
    | error e => trivial
  size n s answer s' hs hexec := by
    have hr : Harmless s.1 (.put (Key.size ns oid n).text []) := .put (by simp) (by simp)
    exact ⟨careful_of_keeps hr (fun _ => Req.not_deletes_put) hexec, answered hs hr hexec⟩

theorem store_sound {staged : Bytes} (hs : Sound s.1) :
    (S3Store.store ns oid staged).Under (faulty provider) Nobody Careful (fun _ s => Sound s.1)
      (fun _ => True) s := by
  refine push_sound.store_under (fun s answer s' hs hexec => ?_) hs
  have hr : Harmless s.1 (.put (Key.content oid).text staged) := .put (by simp) (by simp)
  refine ⟨careful_of_keeps hr (fun _ => Req.not_deletes_put) hexec, ?_⟩
  cases answer with
  | ok u =>
      exact ⟨answered hs.1 hr hexec, hexec.1.has hs.2 Req.not_deletes_put, hexec.1.has_of_put⟩
  | error e => trivial

theorem adopt_sound {size : Nat} (hs : Sound s.1) :
    (S3Store.adopt keys ns oid size).Under (faulty provider) Nobody Careful
      (fun _ s => Sound s.1) (fun _ => True) s := by
  refine push_sound.adopt_under (fun s answer s' hs hexec => ?_)
    (fun s answer s' hs hexec => ?_) (fun s answer s' hs hexec => ?_) hs
  · have hr : Harmless s.1 (.copy (Key.incoming ns oid).text (Key.content oid).text) :=
      .copy_content
    refine ⟨careful_of_keeps hr (fun _ => Req.not_deletes_copy) hexec, ?_⟩
    cases answer with
    | ok u =>
        exact ⟨answered hs.1 hr hexec, hexec.1.has hs.2 Req.not_deletes_copy, hexec.1.has_of_copy⟩
    | error e => trivial
  · exact ⟨careful_of_reads (Req.reads_head _) hexec, answered hs (.read (Req.reads_head _)) hexec⟩
  · have hr : Harmless s.1 (.delete (Key.incoming ns oid).text) := .delete (by simp) (by simp)
    refine ⟨careful_of_keeps hr (fun oid' hdel => ?_) hexec, answered hs hr hexec⟩
    have hk := Key.eq_content (Req.deletes_delete.mp hdel).symm
    cases hk

end Push

/-! ## Listings -/

section Pages

variable {provider : Provider} {P E : Bucket × Trace → Prop} {under : Text}

/-- A page of a sound bucket, for an assertion that pages keep. -/
theorem pages_sound (hP : ∀ s, P s → Sound s.1)
    (hpage : ∀ after s answer s', P s → faulty provider (.page under after) s answer s' →
      Fallible.Ends (fun _ => P) E answer s') :
    Pages (faulty provider) Careful E P Absent (fun e _ => Key.Written e.key) under := by
  intro after s answer s' hs hexec
  refine ⟨careful_of_reads (Req.reads_page _ _) hexec, ?_⟩
  have hends := hpage after s answer s' hs hexec
  obtain ⟨hb, hlisted⟩ := hexec.1.page
  cases answer with
  | error e => exact hends
  | ok page =>
      refine ⟨hends, s.1, hlisted page rfl, fun key _ hkey => ?_, fun e he => ?_⟩
      · rwa [Absent, hb]
      · obtain ⟨o, ho, -⟩ := (hlisted page rfl).stored e he
        exact (hP s hs).written e.key (by rw [Bucket.Has, ho]; rfl)

theorem later_sound : Later (faulty provider) Absent (fun e _ => Key.Written e.key) under := by
  intro token s answer s' hexec
  refine ⟨fun key hkey => ?_, fun _ he => he⟩
  rwa [Absent, hexec.1.page.1]

end Pages

/-! ## Reclaiming and measuring -/

section Reclaim

variable {provider : Provider} {keys : Keyspace} {s : Bucket × Trace}

theorem keeps_sound {r : Req} (hr : ∀ s : Bucket × Trace, Sound s.1 → Harmless s.1 r)
    (hkeeps : ∀ oid, ¬ r.Deletes (Key.content oid).text) :
    Triple (faulty provider) Careful (fun s => Sound s.1) r fun _ s => Sound s.1 :=
  fun s _ _ hs hexec => ⟨careful_of_keeps (hr s hs) hkeeps hexec, answered hs (hr s hs) hexec⟩

theorem reads_sound {r : Req} (hr : r.Reads) :
    Triple (faulty provider) Careful (fun s => Sound s.1) r fun _ s => Sound s.1 :=
  keeps_sound (fun _ _ => .read hr) fun _ => hr.2 _

theorem entries_sound {under : Text} (hs : Sound s.1) :
    (keys.entries under).Under (faulty provider) Nobody Careful
      (fun entries s' => Sound s'.1 ∧
        ∀ e ∈ entries, Key.Written e.key ∧ under <+: e.key) (fun s => Sound s.1) s := by
  refine (entries_under alone_stable (fun _ => alone_stable) (fun _ => alone_stable) alone_stable
    (pages_sound (fun _ h => h) fun after s answer s' hs hexec => ?_) later_sound
    (fun _ _ _ => no_furtherPages) hs).mono ?_ fun _ h => h
  · have hs' := answered hs (.read (Req.reads_page _ _)) hexec
    cases answer <;> exact hs'
  · exact fun entries s' h => ⟨h.1, fun e he => ⟨h.2.present e he, h.2.starts e he⟩⟩

theorem reclaimEach_sound (olderThan : Nat) (entries : List Entry) (reclaimed : Reclaimed)
    (hentries : ∀ e ∈ entries, ∃ k : Key, e.key = k.text ∧
      k.dir ≠ ".content".toList ∧ k.dir ≠ ".refs".toList) (hs : Sound s.1) :
    (S3Store.reclaimEach keys olderThan entries reclaimed).Under (faulty provider) Nobody Careful
      (fun _ s => Sound s.1) (fun _ => True) s := by
  induction entries generalizing reclaimed s with
  | nil => exact Fallible.Under.pure alone_stable hs
  | cons e rest ih =>
      have hrest : ∀ e ∈ rest, ∃ k : Key, e.key = k.text ∧
          k.dir ≠ ".content".toList ∧ k.dir ≠ ".refs".toList :=
        fun e he => hentries e (List.mem_cons_of_mem _ he)
      obtain ⟨k, hk, hcontent, hrefs⟩ := hentries e List.mem_cons_self
      refine Fallible.Under.bind S3Store.any_stable ((S3Store.age_under alone_stable
        S3Store.any_stable (reads_sound Req.reads_now) e hs).mono (fun age s' hs' => ?_)
        fun _ h => h)
      have hcontent' : ∀ oid, k ≠ .content oid := by
        rintro oid rfl
        exact hcontent rfl
      have hrefs' : ∀ ns oid, k ≠ .reference ns oid := by
        rintro ns oid rfl
        exact hrefs rfl
      split
      · exact ih _ hrest hs'
      · refine Fallible.Under.attempt ((S3Store.attempted_under alone_stable alone_stable hs'
          (reads_sound (Req.reads_head _)) (keeps_sound (fun s _ => ?_) fun oid hdel => ?_)).mono
          (fun _ s'' hs'' => ih _ hrest hs'') fun s'' hs'' _ => ih _ hrest hs'')
        · rw [hk]
          exact .delete hcontent' hrefs'
        · rw [Req.deletes_delete, hk] at hdel
          exact hcontent' oid (Key.eq_content hdel.symm)

theorem reclaimUnder_sound (olderThan : Nat) (unders : List Text) (reclaimed : Reclaimed)
    (hunders : ∀ under ∈ unders, ∃ d, under = Path.under [d] ∧ Path.Plain d ∧
      d ≠ ".content".toList ∧ d ≠ ".refs".toList) (hs : Sound s.1) :
    (S3Store.reclaimUnder keys olderThan unders reclaimed).Under (faulty provider) Nobody Careful
      (fun _ s => Sound s.1) (fun _ => True) s := by
  induction unders generalizing reclaimed s with
  | nil => exact Fallible.Under.pure alone_stable hs
  | cons under rest ih =>
      obtain ⟨d, rfl, hplain, hcontent, hrefs⟩ := hunders under List.mem_cons_self
      refine Fallible.Under.bind S3Store.any_stable ((entries_sound hs).mono
        (fun entries s' hs' => ?_) fun _ _ => trivial)
      refine Fallible.Under.bind S3Store.any_stable ((reclaimEach_sound olderThan entries reclaimed
        (fun e he => ?_) hs'.1).mono (fun reclaimed s'' hs'' => ?_) fun _ h => h)
      · obtain ⟨⟨k, hk⟩, hstarts⟩ := hs'.2 e he
        rw [hk, Key.dir_text hplain] at hstarts
        exact ⟨k, hk, hstarts ▸ hcontent, hstarts ▸ hrefs⟩
      · exact ih _ (fun under h => hunders under (List.mem_cons_of_mem _ h)) hs''

theorem reclaimIncoming_sound (olderThan : Nat) (hs : Sound s.1) :
    (S3Store.reclaimIncoming keys olderThan).Under (faulty provider) Nobody Careful
      (fun _ s => Sound s.1) (fun _ => True) s := by
  refine reclaimUnder_sound olderThan _ _ (fun under hunder => ?_) hs
  rw [List.mem_cons, List.mem_singleton] at hunder
  rcases hunder with rfl | rfl
  · exact ⟨".incoming".toList, by decide, by decide, by decide, by decide⟩
  · exact ⟨".probe".toList, by decide, by decide, by decide, by decide⟩

theorem measureEach_sound (ns : Namespace) (oids : List Oid) (held : Nat) (hs : Sound s.1) :
    (S3Store.measureEach ns oids held).Under (faulty provider) Nobody Careful
      (fun _ s => Sound s.1) (fun _ => True) s := by
  induction oids generalizing held s with
  | nil => exact Fallible.Under.pure alone_stable hs
  | cons oid rest ih =>
      refine Fallible.Under.bind S3Store.any_stable ((S3Store.sizeOrZero_under alone_stable
        (reads_sound (Req.reads_head _)) hs).mono (fun size s' hs' => ?_) fun _ h => h)
      have hr : ∀ b : Bucket, Harmless b (.put (Key.size ns oid size).text []) :=
        fun _ => .put (by simp) (by simp)
      refine Fallible.Under.attempt ((put_under (P := fun s => Sound s.1)
        (Q := fun s => Sound s.1) (E := fun s => Sound s.1) alone_stable alone_stable alone_stable
        hs' fun s answer s' hs hexec => ?_).mono (fun _ s'' hs'' => ih _ hs'')
        fun s'' hs'' _ => ih _ hs'')
      obtain ⟨hG, hs'⟩ := keeps_sound (fun s _ => hr s.1) (fun _ => Req.not_deletes_put)
        s answer s' hs hexec
      cases answer <;> exact ⟨hG, hs'⟩

theorem usageOf_sound (ns : Namespace) (hs : Sound s.1) :
    (S3Store.usageOf keys ns).Under (faulty provider) Nobody Careful
      (fun _ s => Sound s.1) (fun _ => True) s := by
  refine Fallible.Under.attempt (Fallible.Under.bind alone_stable ((entries_sound hs).mono
    (fun entries s' hs' => ?_) fun s' hs' _ => ?_))
  · refine Fallible.Under.pure Fallible.Under.stable ?_
    simp only
    split
    · exact Fallible.Under.pure alone_stable hs'.1
    · refine Fallible.Under.bind S3Store.any_stable ?_
      refine Fallible.Under.bind S3Store.any_stable (Fallible.Under.certain (alone_stable (P :=
        fun s => Sound s.1)) hs'.1 (fun _ => Fallible.Under.stable) fun s order s' hs hexec => ?_)
      obtain ⟨hG, hs''⟩ := reads_sound (Req.reads_unordered _) s order s' hs hexec
      refine ⟨hG, (measureEach_sound ns _ 0 hs'').mono (fun _ s' hs' => ?_) fun _ h => h⟩
      exact Fallible.Under.pure alone_stable hs'
  · exact Fallible.Under.pure alone_stable hs'

end Reclaim

/-! ## Sweeps -/

section Sweep

variable {provider : Provider} {keys : Keyspace} {ns : Namespace} {oid : Oid}
  {s s' : Bucket × Trace} {r : Req} {answer : Resp r} {X : Bucket → Prop}

/-- A fact a sweep keeps: it puts no marker and does not delete the completion mark. -/
def Kept (provider : Provider) (X : Bucket → Prop) : Prop :=
  ∀ r b (answer : Resp r) b', Faulty provider r b answer b' →
    (∀ ns oid, ¬ r.Puts (Key.marker ns oid).text) → ¬ r.Deletes Key.complete.text → X b → X b'

/-- Nothing about an object was left unanswered. -/
def Sees (oid : Oid) (s : Bucket × Trace) : Prop := ∀ e ∈ s.2, ¬ BlindTo oid e

/-- A sound bucket in which a sweep still has to look at the objects of `rest`. -/
structure Sweeping (X : Bucket → Prop) (rest : List (Entry × Oid)) (s : Bucket × Trace) :
    Prop where
  sound : Sound s.1
  fact : X s.1
  sees : ∀ p ∈ rest, Sees p.2 s

/-- No other repository has a marker of the object, and nothing about it was left
unanswered. -/
structure Cleared (ns : Namespace) (oid : Oid) (s : Bucket × Trace) : Prop where
  sees : Sees oid s
  unheld : ∀ ns' : Namespace, ¬ ns'.Same ns → ¬ s.1.Has (Key.marker ns' oid).text

theorem not_blind (h : ∀ under after, r ≠ .page under after) (oid : Oid) :
    ¬ BlindTo oid ⟨(), r, answer⟩ := by
  rintro ⟨-, under, after, heq, -⟩
  exact h under after heq

theorem Sees.step (h : Sees oid s) (hr : ¬ BlindTo oid ⟨(), r, answer⟩)
    (hexec : faulty provider r s answer s') : Sees oid s' := by
  intro e he
  rw [hexec.2, List.mem_cons] at he
  rcases he with rfl | he
  · exact hr
  · exact h e he

theorem Sweeping.step {rest : List (Entry × Oid)} (hX : Kept provider X) (h : Sweeping X rest s)
    (hr : Harmless s.1 r) (hputs : ∀ ns oid, ¬ r.Puts (Key.marker ns oid).text)
    (hcomplete : ¬ r.Deletes Key.complete.text)
    (hsees : ∀ p ∈ rest, ¬ BlindTo p.2 ⟨(), r, answer⟩)
    (hexec : faulty provider r s answer s') : Sweeping X rest s' where
  sound := answered h.sound hr hexec
  fact := hX r s.1 answer s'.1 hexec.1 hputs hcomplete h.fact
  sees p hp := (h.sees p hp).step (hsees p hp) hexec

theorem Cleared.step (h : Cleared ns oid s) (hputs : ∀ ns oid, ¬ r.Puts (Key.marker ns oid).text)
    (hsees : ¬ BlindTo oid ⟨(), r, answer⟩) (hexec : faulty provider r s answer s') :
    Cleared ns oid s' where
  sees := h.sees.step hsees hexec
  unheld ns' hne hmarker := h.unheld ns' hne (hexec.1.has_before hmarker (hputs ns' oid))

/-- What is known while an object is dropped: `frees` says that it may go. -/
def Dropping (X : Bucket → Prop) (rest : List (Entry × Oid)) (ns : Namespace) (oid : Oid)
    (frees : Bool) (s : Bucket × Trace) : Prop :=
  Sweeping X rest s ∧ (frees = true → Cleared ns oid s)

def Dropped (X : Bucket → Prop) (rest : List (Entry × Oid)) (ns : Namespace) (oid : Oid)
    (frees : Bool) (s : Bucket × Trace) : Prop :=
  Dropping X rest ns oid frees s ∧ ¬ s.1.Has (Key.marker ns oid).text

variable {rest : List (Entry × Oid)} {frees : Bool}

theorem Dropping.step (hX : Kept provider X) (h : Dropping X rest ns oid frees s)
    (hr : Harmless s.1 r) (hputs : ∀ ns oid, ¬ r.Puts (Key.marker ns oid).text)
    (hcomplete : ¬ r.Deletes Key.complete.text) (hpage : ∀ under after, r ≠ .page under after)
    (hexec : faulty provider r s answer s') : Dropping X rest ns oid frees s' :=
  ⟨h.1.step hX hr hputs hcomplete (fun _ _ => not_blind hpage _) hexec,
    fun hf => (h.2 hf).step hputs (not_blind hpage _) hexec⟩

theorem Dropped.step (hX : Kept provider X) (h : Dropped X rest ns oid frees s)
    (hr : Harmless s.1 r) (hputs : ∀ ns oid, ¬ r.Puts (Key.marker ns oid).text)
    (hcomplete : ¬ r.Deletes Key.complete.text) (hpage : ∀ under after, r ≠ .page under after)
    (hexec : faulty provider r s answer s') : Dropped X rest ns oid frees s' :=
  ⟨h.1.step hX hr hputs hcomplete hpage hexec,
    fun hmarker => h.2 (hexec.1.has_before hmarker (hputs ns oid))⟩

theorem head_dropping (hX : Kept provider X) (key : Text) :
    Triple (faulty provider) Careful (Dropping X rest ns oid frees) (.head key)
      fun _ => Dropping X rest ns oid frees :=
  fun _ _ _ hs hexec => ⟨careful_of_reads (Req.reads_head _) hexec,
    hs.step hX (.read (Req.reads_head _)) (fun _ _ => (Req.reads_head _).1 _)
      ((Req.reads_head _).2 _) nofun hexec⟩

theorem head_dropped (hX : Kept provider X) (key : Text) :
    Triple (faulty provider) Careful (Dropped X rest ns oid frees) (.head key)
      fun _ => Dropped X rest ns oid frees :=
  fun _ _ _ hs hexec => ⟨careful_of_reads (Req.reads_head _) hexec,
    hs.step hX (.read (Req.reads_head _)) (fun _ _ => (Req.reads_head _).1 _)
      ((Req.reads_head _).2 _) nofun hexec⟩

/-- A delete of what is neither content nor a reference. -/
theorem careful_delete {k : Key} (hcontent : ∀ oid, k ≠ .content oid)
    (hreference : ∀ ns oid, k ≠ .reference ns oid) {answer : Resp (.delete k.text)}
    (hexec : faulty provider (.delete k.text) s answer s') : Careful s s' :=
  careful_of_keeps (.delete hcontent hreference)
    (fun oid hdel => hcontent oid (Key.eq_content (Req.deletes_delete.mp hdel).symm)) hexec

theorem dropMarker_sound {sized : AList fun _ : Oid => Text} (hX : Kept provider X)
    (hsized : ∀ oid key, sized.lookup oid = some key → ∃ ns oid n, key = (Key.size ns oid n).text)
    (hs : Dropping X rest ns oid frees s) :
    (S3Store.dropMarker keys ns oid (Key.marker ns oid).text sized).Under (faulty provider) Nobody
      Careful (fun _ => Dropped X rest ns oid frees) (fun _ => True) s := by
  refine S3Store.dropMarker_under (Dropping X rest ns oid frees) (Dropped X rest ns oid frees)
    (Dropped X rest ns oid frees) alone_stable alone_stable alone_stable S3Store.any_stable
    (fun key => ⟨head_dropping hX key, head_dropped hX key, head_dropped hX key⟩)
    (fun s answer s' hs hexec => ?_) (fun s answer s' hs hexec => ?_)
    (fun key hkey s answer s' hs hexec => ?_) hs
  · have hr : Harmless s.1 (.delete (Key.marker ns oid).text) := .delete (by simp) (by simp)
    have hcomplete : ¬ (Req.delete (Key.marker ns oid).text).Deletes Key.complete.text := by
      intro hdel
      have hk := Key.eq_complete (Req.deletes_delete.mp hdel).symm
      cases hk
    refine ⟨careful_delete (by simp) (by simp) hexec, ?_⟩
    cases answer with
    | ok existed =>
        exact ⟨hs.step hX hr (fun _ _ => Req.not_puts_delete) hcomplete nofun hexec,
          hexec.1.not_has_of_delete⟩
    | error e => trivial
  · have hr : Harmless s.1 (.delete (Key.reference ns oid).text) := .delete_reference hs.2
    have hcomplete : ¬ (Req.delete (Key.reference ns oid).text).Deletes Key.complete.text := by
      intro hdel
      have hk := Key.eq_complete (Req.deletes_delete.mp hdel).symm
      cases hk
    refine ⟨careful_of_keeps hr (fun oid' hdel => ?_) hexec,
      hs.step hX hr (fun _ _ => Req.not_puts_delete) hcomplete nofun hexec⟩
    have hk := Key.eq_content (Req.deletes_delete.mp hdel).symm
    cases hk
  · obtain ⟨ns', oid', n, rfl⟩ := hsized oid key hkey
    have hr : Harmless s.1 (.delete (Key.size ns' oid' n).text) := .delete (by simp) (by simp)
    have hcomplete : ¬ (Req.delete (Key.size ns' oid' n).text).Deletes Key.complete.text := by
      intro hdel
      have hk := Key.eq_complete (Req.deletes_delete.mp hdel).symm
      cases hk
    exact ⟨careful_delete (by simp) (by simp) hexec,
      hs.step hX hr (fun _ _ => Req.not_puts_delete) hcomplete nofun hexec⟩

/-- A page of the index of the object: an answer that never comes keeps `rest`, which
does not have the object. -/
theorem Sweeping.page (hX : Kept provider X) (hoid : ∀ p ∈ rest, p.2 ≠ oid)
    {after : Option Text} {answer : Resp (.page (Refs.keyPrefix oid) after)}
    (hs : Sweeping X rest s)
    (hexec : faulty provider (.page (Refs.keyPrefix oid) after) s answer s') :
    Sweeping X rest s' := by
  have hreads := Req.reads_page (Refs.keyPrefix oid) after
  refine hs.step hX (.read hreads) (fun _ _ => hreads.1 _) (hreads.2 _) ?_ hexec
  rintro p hp ⟨-, under, after, heq, hindex⟩
  cases heq
  exact hoid p hp (hindex oid rfl).symm

/-- An answer that came. -/
theorem not_blind_of_ok {under : Text} {after : Option Text} {page : List Entry × Option Text} :
    ¬ BlindTo oid ⟨(), .page under after, .ok page⟩ := by
  rintro ⟨⟨e, he⟩, -⟩
  cases he

/-- A question to the index, from an assertion that its pages keep. -/
theorem claimed_sound {P : Bucket × Trace → Prop} (hX : Kept provider X)
    (hoid : ∀ p ∈ rest, p.2 ≠ oid) (hP : ∀ s, P s → Sweeping X rest s)
    (hpage : ∀ after s page s', P s →
      faulty provider (.page (Refs.keyPrefix oid) after) s (.ok page) s' → P s') (hs : P s) :
    (Refs.claimedByAnother keys ns oid).Under (faulty provider) Nobody Careful
      (fun claimed s' => if claimed then Sweeping X rest s' else
        P s' ∧ ∀ ns' : Namespace, ¬ ns'.Same ns → Absent (Refs.key ns' oid) s')
      (fun _ => True) s := by
  refine claimedByAnother_under (T := Sweeping X rest) alone_stable alone_stable
    (fun _ => alone_stable) (fun after s answer s' hs hexec => ?_)
    (fun token s answer s' hexec => ⟨fun key hkey => ?_, fun e he hne => ?_⟩)
    (fun _ _ _ => no_furtherPages) hs
  · have hs' := (hP s hs).page hX hoid hexec
    obtain ⟨hb, hlisted⟩ := hexec.1.page
    refine ⟨careful_of_reads (Req.reads_page _ _) hexec, ?_⟩
    cases answer with
    | error e => exact hs'
    | ok page =>
        refine ⟨hpage after s page s' hs hexec, s.1, hlisted page rfl, fun key _ hkey => ?_,
          fun _ _ _ => hs'⟩
        rwa [Absent, hb]
  · rwa [Absent, hexec.1.page.1]
  · exact (he hne).page hX hoid hexec

theorem claimedSince_sound (hX : Kept provider X) (hoid : ∀ p ∈ rest, p.2 ≠ oid)
    (hs : Dropped X rest ns oid true s) :
    (S3Store.claimedSince keys ns oid).Under (faulty provider) Nobody Careful
      (fun claimed s' => if claimed then Sweeping X rest s' else Dropped X rest ns oid true s')
      (fun _ => True) s := by
  refine (claimed_sound (P := Dropped X rest ns oid true) hX hoid (fun s h => h.1.1)
    (fun after s page s' hs hexec => ?_) hs).mono (fun claimed s' h => ?_) fun _ h => h
  · have hreads := Req.reads_page (Refs.keyPrefix oid) after
    refine ⟨⟨hs.1.1.page hX hoid hexec, fun _ => ?_⟩, fun hmarker => ?_⟩
    · exact (hs.1.2 rfl).step (fun _ _ => hreads.1 _) not_blind_of_ok hexec
    · exact hs.2 (hexec.1.has_before hmarker (hreads.1 _))
  · cases claimed with
    | true => exact h
    | false => exact h.1

/-- The content goes when nobody has a marker. -/
theorem delete_content_sound (hX : Kept provider X) :
    Triple (faulty provider) Careful (Dropped X rest ns oid true) (.delete (Key.content oid).text)
      (Fallible.Ends (fun _ => Sweeping X rest) fun _ => True) := by
  intro s answer s' hs hexec
  have hunheld : ∀ ns', ¬ s.1.Has (Key.marker ns' oid).text := by
    intro ns' hmarker
    by_cases hsame : ns'.Same ns
    · rw [Key.marker_eq_iff.mpr ⟨hsame, rfl⟩] at hmarker
      exact hs.2 hmarker
    · exact (hs.1.2 rfl).unheld ns' hsame hmarker
  have hr : Harmless s.1 (.delete (Key.content oid).text) := .delete_content hunheld
  refine ⟨careful hr (fun oid' hdel => ?_) hexec, ?_⟩
  · rw [Key.content_eq_iff.mp (Req.deletes_delete.mp hdel)]
    exact (hs.1.2 rfl).sees
  · have hcomplete : ¬ (Req.delete (Key.content oid).text).Deletes Key.complete.text := by
      intro hdel
      have hk := Key.eq_complete (Req.deletes_delete.mp hdel).symm
      cases hk
    cases answer with
    | ok existed =>
        exact hs.1.1.step hX hr (fun _ _ => Req.not_puts_delete) hcomplete
          (fun _ _ => not_blind (r := .delete _) (by simp) _) hexec
    | error e => trivial

theorem sweepOne_sound {sized : AList fun _ : Oid => Text} {dryRun : Bool} {entry : Entry}
    (hX : Kept provider X) (hready : ∀ b, X b → b.Has Key.complete.text)
    (hsized : ∀ oid key, sized.lookup oid = some key → ∃ ns oid n, key = (Key.size ns oid n).text)
    (hentry : entry.key = (Key.marker ns oid).text) (hoid : ∀ p ∈ rest, p.2 ≠ oid)
    (hs : Sweeping X ((entry, oid) :: rest) s) :
    (S3Store.sweepOne keys ns sized dryRun entry oid).Under (faulty provider) Nobody Careful
      (fun _ => Sweeping X rest) (fun _ => True) s := by
  refine Fallible.Under.bind S3Store.any_stable ((claimed_sound
    (P := Sweeping X ((entry, oid) :: rest)) hX hoid (fun s h => ?_)
    (fun after s page s' hs hexec => ?_) hs).mono (fun claimed s' h => ?_) fun _ h => h)
  · exact ⟨h.sound, h.fact, fun p hp => h.sees p (List.mem_cons_of_mem _ hp)⟩
  · have hreads := Req.reads_page (Refs.keyPrefix oid) after
    exact hs.step hX (.read hreads) (fun _ _ => hreads.1 _) (hreads.2 _)
      (fun _ _ => not_blind_of_ok) hexec
  -- The index says that nobody else has a marker, since it misses none.
  have hdropping : Dropping X rest ns oid (!claimed) s' := by
    cases claimed with
    | true => exact ⟨h, fun hf => by cases hf⟩
    | false =>
        obtain ⟨hsweeping, habsent⟩ := h
        refine ⟨⟨hsweeping.sound, hsweeping.fact, fun p hp =>
          hsweeping.sees p (List.mem_cons_of_mem _ hp)⟩, fun _ => ⟨?_, fun ns' hne hmarker => ?_⟩⟩
        · exact hsweeping.sees (entry, oid) List.mem_cons_self
        · exact habsent ns' hne (hsweeping.sound.reference (hready _ hsweeping.fact)
            ns' oid hmarker)
  split
  · split
    · exact (S3Store.sizeOrZero_under alone_stable (head_dropping hX _) hdropping).mono
        (fun _ _ h => h.1) fun _ h => h
    · exact Fallible.Under.pure alone_stable hdropping.1
  · rw [hentry]
    refine Fallible.Under.bind S3Store.any_stable ((dropMarker_sound hX hsized hdropping).mono
      (fun _ s₁ hs₁ => ?_) fun _ h => h)
    exact S3Store.freeIndexed_under alone_stable alone_stable S3Store.any_stable
      (fun _ s h => h.1.1) (fun hf s h => claimedSince_sound hX hoid (hf ▸ h))
      (head_dropped hX _) (delete_content_sound hX) hs₁

theorem sweepOneListed_sound {survey : Survey} {complete dryRun : Bool} {entry : Entry}
    (hX : Kept provider X)
    (hsized : ∀ oid key, survey.sized.lookup oid = some key →
      ∃ ns oid n, key = (Key.size ns oid n).text)
    (hclaimed : complete = true → oid ∉ survey.claimedElsewhere → ∀ b, X b →
      ∀ ns', ¬ ns'.Same ns → ¬ b.Has (Key.marker ns' oid).text)
    (hentry : entry.key = (Key.marker ns oid).text) (hoid : ∀ p ∈ rest, p.2 ≠ oid)
    (hs : Sweeping X ((entry, oid) :: rest) s) :
    (S3Store.sweepOneListed keys ns survey complete dryRun entry oid).Under (faulty provider)
      Nobody Careful (fun _ => Sweeping X rest) (fun _ => True) s := by
  have hrest : Sweeping X rest s :=
    ⟨hs.sound, hs.fact, fun p hp => hs.sees p (List.mem_cons_of_mem _ hp)⟩
  have hdropping : Dropping X rest ns oid
      (complete && decide (oid ∉ survey.claimedElsewhere)) s := by
    refine ⟨hrest, fun hf => ⟨hs.sees (entry, oid) List.mem_cons_self, ?_⟩⟩
    rw [Bool.and_eq_true, decide_eq_true_eq] at hf
    exact hclaimed hf.1 hf.2 s.1 hs.fact
  rw [S3Store.sweepOneListed]
  split
  · exact Fallible.Under.pure alone_stable hrest
  · rw [hentry]
    refine Fallible.Under.bind S3Store.any_stable ((dropMarker_sound hX hsized hdropping).mono
      (fun _ s₁ hs₁ => ?_) fun _ h => h)
    exact S3Store.freeListed_under alone_stable alone_stable S3Store.any_stable
      (fun _ s h => h.1.1) (fun hf s h => claimedSince_sound hX hoid (hf ▸ h))
      (head_dropped hX _) (delete_content_sound hX) hs₁

/-- A sound bucket in which nothing was left unanswered. -/
structure Looking (X : Bucket → Prop) (s : Bucket × Trace) : Prop where
  sound : Sound s.1
  fact : X s.1
  sees : ∀ oid, Sees oid s

theorem Looking.step (hX : Kept provider X) (h : Looking X s) (hr : Harmless s.1 r)
    (hputs : ∀ ns oid, ¬ r.Puts (Key.marker ns oid).text)
    (hcomplete : ¬ r.Deletes Key.complete.text) (hsees : ∀ oid, ¬ BlindTo oid ⟨(), r, answer⟩)
    (hexec : faulty provider r s answer s') : Looking X s' where
  sound := answered h.sound hr hexec
  fact := hX r s.1 answer s'.1 hexec.1 hputs hcomplete h.fact
  sees oid := (h.sees oid).step (hsees oid) hexec

theorem Looking.reads (hX : Kept provider X) (h : Looking X s) (hr : r.Reads)
    (hsees : ∀ oid, ¬ BlindTo oid ⟨(), r, answer⟩) (hexec : faulty provider r s answer s') :
    Looking X s' :=
  h.step hX (.read hr) (fun _ _ => hr.1 _) (hr.2 _) hsees hexec

/-- The listing a sweep starts from: if it could not be finished, it is empty. -/
theorem listing_sound {under : Text} (hX : Kept provider X) (hs : Looking X s) :
    (keys.listing under).Under (faulty provider) Nobody Careful
      (fun listing s' =>
        (listing.complete = true ∧ Looking X s' ∧
          Listed under none (Absent · s') (fun e => Key.Written e.key) listing.entries) ∨
        (listing.complete = false ∧ listing.entries = [] ∧ Sound s'.1 ∧ X s'.1))
      (fun _ => True) s := by
  refine listing_under (A := Absent) (B := fun e _ => Key.Written e.key) alone_stable
    (fun _ => alone_stable) (fun _ => alone_stable) alone_stable
    (pages_sound (fun _ h => h.sound) fun after s answer s' hs hexec => ?_) later_sound
    (fun _ _ _ => no_furtherPages) hs
  have hreads := Req.reads_page under after
  cases answer with
  | ok page => exact hs.reads hX hreads (fun _ => not_blind_of_ok) hexec
  | error e =>
      exact ⟨answered hs.sound (.read hreads) hexec,
        hX _ _ _ _ hexec.1 (fun _ _ => hreads.1 _) (hreads.2 _) hs.fact⟩

/-- The end of a sweep, from what it listed. -/
theorem dropped_sound {retained : Finset Oid} {grace : Nat} {entries : List Entry}
    {one : Entry → Oid → Op Nat} {report : SweepReport} (hX : Kept provider X)
    (hwritten : ∀ e ∈ entries, Key.Written e.key)
    (hsorted : (entries.map Entry.key).Pairwise (· < ·))
    (hone : ∀ entry oid rest s, entry.key = (Key.marker ns oid).text → (∀ p ∈ rest, p.2 ≠ oid) →
      Sweeping X ((entry, oid) :: rest) s →
      (one entry oid).Under (faulty provider) Nobody Careful (fun _ => Sweeping X rest)
        (fun _ => True) s)
    (hs : Looking X s) :
    (do
      let dropped ← S3Store.droppable retained grace
        (Survey.of entries (S3Store.ownPrefix ns)).mine report
      S3Store.sweepEach one dropped.1 dropped.2 : Op SweepReport).Under (faulty provider) Nobody
      Careful (fun _ s' => Sound s'.1 ∧ X s'.1) (fun _ => True) s := by
  refine Fallible.Under.bind S3Store.any_stable ((S3Store.droppable_under (P := Looking X)
    alone_stable S3Store.any_stable (fun s now s' hs hexec => ?_) _ report hs).mono
    (fun dropped s' h => ?_) fun _ h => h)
  · exact ⟨careful_of_reads Req.reads_now hexec,
      hs.reads hX Req.reads_now (not_blind (by simp)) hexec⟩
  obtain ⟨hs', hsub⟩ := h
  refine (S3Store.sweepEach_under (L := Sweeping X) alone_stable S3Store.any_stable dropped.1
    dropped.2 (fun before entry oid rest heq s hs => ?_) ?_).mono (fun _ _ h => ⟨h.sound, h.fact⟩)
    fun _ h => h
  · rw [heq] at hsub
    obtain ⟨hentry, -, hrest⟩ := Survey.of_sublist_mine hwritten hsorted hsub
    exact hone entry oid rest s hentry hrest hs
  · exact ⟨hs'.sound, hs'.fact, fun p _ => hs'.sees p.2⟩

/-- A sweep that could list nothing drops nothing. -/
theorem nothing_sound {retained : Finset Oid} {grace : Nat} {one : Entry → Oid → Op Nat}
    {report : SweepReport} {ours : Text} (hs : Sound s.1) :
    (do
      let dropped ← S3Store.droppable retained grace (Survey.of [] ours).mine report
      S3Store.sweepEach one dropped.1 dropped.2 : Op SweepReport).Under (faulty provider) Nobody
      Careful (fun _ s' => Sound s'.1) (fun _ => True) s :=
  Fallible.Under.pure alone_stable hs

theorem kept_complete : Kept provider fun b => b.Has Key.complete.text :=
  fun _ _ _ _ h _ hdeletes hhas => h.has hhas hdeletes

theorem sweepIndexed_sound {retained : Finset Oid} {grace : Nat} {dryRun : Bool}
    (hs : Looking (fun b => b.Has Key.complete.text) s) :
    (S3Store.sweepIndexed keys ns retained grace dryRun).Under (faulty provider) Nobody Careful
      (fun _ s' => Sound s'.1) (fun _ => True) s := by
  refine Fallible.Under.bind S3Store.any_stable ((listing_sound kept_complete hs).mono
    (fun listing s' h => ?_) fun _ h => h)
  rcases h with ⟨-, hs', hlisted⟩ | ⟨-, hentries, hs', -⟩
  · refine (dropped_sound kept_complete hlisted.present hlisted.sorted
      (fun entry oid rest s hentry hrest hs => ?_) hs').mono (fun _ _ h => h.1) fun _ h => h
    exact sweepOne_sound kept_complete (fun _ h => h)
      (Survey.of_lookup_sized hlisted.present) hentry hrest hs
  · rw [hentries]
    exact nothing_sound hs'

/-! ### Building the index -/

/-- The markers of a listing that are still there are among those it found. -/
def Found (markers : List Text) (b : Bucket) : Prop :=
  ∀ ns oid, b.Has (Key.marker ns oid).text → (Key.marker ns oid).text ∈ markers

theorem kept_found (markers : List Text) : Kept provider (Found markers) :=
  fun _ _ _ _ h hputs _ hfound ns oid hmarker =>
    hfound ns oid (h.has_before hmarker (hputs ns oid))

theorem buildIndex_sound {markers : List Text} {complete dryRun : Bool}
    (hmarkers : ∀ key ∈ markers, ∃ ns oid, key = (Key.marker ns oid).text)
    (hs : Looking (Found markers) s) :
    (S3Store.buildIndex markers complete dryRun).Under (faulty provider) Nobody Careful
      (fun _ => Looking (Found markers)) (fun _ => True) s := by
  have hX : Kept provider (Found markers) := kept_found markers
  refine S3Store.buildIndex_under (D := fun done s => Looking (Found markers) s ∧
    ∀ key ∈ done, s.1.Has key) alone_stable (fun _ => alone_stable)
    (fun s hs => ⟨hs, by simp⟩) (fun n s order s' hs hexec => ?_)
    (fun done key hkey s answer s' hs hexec => ?_) (fun done hdone s answer s' hs hexec => ?_) hs
  · refine ⟨careful_of_reads (Req.reads_unordered _) hexec, ?_,
      hs.reads hX (Req.reads_unordered _) (not_blind (by simp)) hexec⟩
    rcases hexec.1 with ⟨h, -⟩ | ⟨h, -⟩
    · exact h
    · exact h.elim
  · obtain ⟨marker, hmarker, href⟩ := List.mem_filterMap.mp hkey
    obtain ⟨ns, oid, rfl⟩ := hmarkers marker hmarker
    rw [Key.fromMarker_marker, Option.some.injEq] at href
    subst href
    have hr : Harmless s.1 (.put (Key.reference ns oid).text []) := .put (by simp) (by simp)
    have hputs : ∀ ns' oid', ¬ (Req.put (Key.reference ns oid).text []).Puts
        (Key.marker ns' oid').text := by
      intro ns' oid' hputs
      obtain ⟨_, hk, -⟩ := Key.eq_marker (Req.puts_put.mp hputs).symm
      cases hk
    have hs' := hs.1.step hX hr hputs Req.not_deletes_put (not_blind (by simp)) hexec
    refine ⟨careful_of_keeps hr (fun _ => Req.not_deletes_put) hexec, ?_⟩
    cases answer with
    | error e => exact hs'
    | ok u =>
        refine ⟨hs', fun k hk => ?_⟩
        rcases List.mem_append.mp hk with hk | hk
        · exact hexec.1.has (hs.2 k hk) Req.not_deletes_put
        · rw [List.mem_singleton.mp hk]
          exact hexec.1.has_of_put
  · have hr : Harmless s.1 (.put Key.complete.text []) := by
      refine .put_complete fun ns oid hmarker => hs.2 _ (hdone _ ?_)
      exact List.mem_filterMap.mpr ⟨_, hs.1.fact ns oid hmarker, Key.fromMarker_marker ns oid⟩
    have hputs : ∀ ns oid, ¬ (Req.put Key.complete.text []).Puts (Key.marker ns oid).text := by
      intro ns oid hputs
      have hk := Key.eq_complete (Req.puts_put.mp hputs)
      cases hk
    exact ⟨careful_of_keeps hr (fun _ => Req.not_deletes_put) hexec,
      hs.1.step hX hr hputs Req.not_deletes_put (not_blind (by simp)) hexec⟩

theorem sweepWholeBucket_sound {retained : Finset Oid} {grace : Nat} {dryRun : Bool}
    (hs : Looking (fun _ => True) s) :
    (S3Store.sweepWholeBucket keys ns retained grace dryRun).Under (faulty provider) Nobody
      Careful (fun _ s' => Sound s'.1) (fun _ => True) s := by
  refine Fallible.Under.bind S3Store.any_stable ((listing_sound (fun _ _ _ _ _ _ _ h => h)
    hs).mono (fun listing s' h => ?_) fun _ h => h)
  rcases h with ⟨-, hs', hlisted⟩ | ⟨hcomplete, hentries, hs', -⟩
  · have hmarkers : ∀ key, key ∈ (Survey.of listing.entries (S3Store.ownPrefix ns)).markers ↔ _ :=
      Survey.mem_markers hlisted.present
    have hfound : Found (Survey.of listing.entries (S3Store.ownPrefix ns)).markers s'.1 := by
      intro ns' oid hmarker
      by_contra hnot
      refine hlisted.absent _ List.nil_prefix (by simp) (fun hmem => hnot ?_) hmarker
      exact (hmarkers _).mpr ⟨hmem, ns', oid, rfl⟩
    refine Fallible.Under.bind S3Store.any_stable ((buildIndex_sound
      (fun key hkey => ((hmarkers key).mp hkey).2) ⟨hs'.sound, hfound, hs'.sees⟩).mono
      (fun _ s₁ hs₁ => ?_) fun _ h => h)
    refine (dropped_sound (kept_found _) hlisted.present hlisted.sorted
      (fun entry oid rest s hentry hrest hs => ?_) hs₁).mono (fun _ _ h => h.1) fun _ h => h
    refine sweepOneListed_sound (kept_found _) (Survey.of_lookup_sized hlisted.present)
      (fun _ hclaimed b hb ns' hne hmarker => hclaimed ?_) hentry hrest hs
    exact (Survey.mem_claimedElsewhere hlisted.present oid).mpr
      ⟨ns', hne, ((hmarkers _).mp (hb ns' oid hmarker)).1⟩
  · have hbuild : ∀ markers, S3Store.buildIndex markers false dryRun = pure () := by
      intro markers
      rw [S3Store.buildIndex, Bool.and_false]
      rfl
    refine Fallible.Under.bind S3Store.any_stable ?_
    rw [hcomplete, hbuild, hentries]
    exact Fallible.Under.pure Fallible.Under.stable (nothing_sound hs')

theorem sweep_sound {retained : Finset Oid} {grace : Nat} {dryRun : Bool}
    (hs : Looking (fun _ => True) s) :
    (S3Store.sweep keys ns retained grace dryRun).Under (faulty provider) Nobody Careful
      (fun _ s' => Sound s'.1) (fun _ => True) s := by
  refine Fallible.Under.bind S3Store.any_stable (found_under alone_stable
    (fun _ => Fallible.Under.stable) hs fun s answer s' hs hexec => ?_)
  have hreads := Req.reads_head Key.complete.text
  have hs' := hs.reads (fun _ _ _ _ _ _ _ h => h) hreads (not_blind (by simp)) hexec
  refine ⟨careful_of_reads hreads hexec, ?_⟩
  cases answer with
  | ok n =>
      have hready : s'.1.Has Key.complete.text := hexec.1.has hexec.1.has_of_head (hreads.2 _)
      exact sweepIndexed_sound ⟨hs'.sound, hready, hs'.sees⟩
  | error e => exact sweepWholeBucket_sound hs'

end Sweep

/-! ## Runs -/

section Runs

variable {provider : Provider}

/-- Every call keeps a sound bucket sound, up to wherever it got. -/
theorem call_sound (keys : Keyspace) (call : Call) {b : Bucket} (hb : Sound b) :
    (call.run keys).Under (faulty provider) Nobody Careful (fun _ s => Sound s.1) (fun _ => True)
      (b, []) := by
  cases call with
  | store ns oid staged => exact store_sound hb
  | adopt ns oid size => exact adopt_sound hb
  | sweep ns retained grace dryRun =>
      exact Fallible.Under.bind S3Store.any_stable ((sweep_sound ⟨hb, trivial, by simp [Sees]⟩).mono
        (fun _ _ h => Fallible.Under.pure alone_stable h) fun _ h => h)
  | usageOf ns =>
      exact Fallible.Under.bind S3Store.any_stable ((usageOf_sound ns hb).mono
        (fun _ _ h => Fallible.Under.pure alone_stable h) fun _ h => h)
  | reclaimIncoming olderThan =>
      exact Fallible.Under.bind S3Store.any_stable ((reclaimIncoming_sound olderThan hb).mono
        (fun _ _ h => Fallible.Under.pure alone_stable h) fun _ h => h)

theorem Session.sound {b b' : Bucket} {trace : Trace} (hb : Sound b)
    (h : Session provider b trace b') : Sound b' ∧ Prudent trace := by
  obtain ⟨pages, call, rest, hsteps⟩ := h
  exact (Program.Under.alone (G := Careful) (I := fun s => Sound s.1 ∧ Prudent s.2)
    (c := ((call.run ⟨provider, pages⟩).run, (b, []))) (fun _ _ h => h) (call_sound _ call hb)
    ⟨hb, trivial⟩ hsteps).1

theorem Between.sound {b b' : Bucket} (hb : Sound b) (h : Between provider b b') : Sound b' := by
  cases h with
  | session h => exact (h.sound hb).1
  | @upload ns oid body time htime =>
      have hr : Harmless b (.put (Key.incoming ns oid).text body) := .put (by simp) (by simp)
      have hput : Faulty provider (.put (Key.incoming ns oid).text body) b (.ok ()) _ :=
        .of_answers ⟨rfl, time, htime, rfl⟩
      exact hb.step hr hput
  | wait htime => exact ⟨hb.written, hb.content, hb.reference⟩

/-- **Crash safety.**  From a sound bucket, whatever calls were made one after the other,
whatever requests were refused and wherever a call died: every marker has its content,
every marker has its reference once the claim index is marked complete, and no call
deletes content after a listing or an index that failed. -/
theorem crash_safe {b₀ b : Bucket} (h₀ : Sound b₀)
    (h : Relation.ReflTransGen (Between provider) b₀ b) :
    Sound b ∧ ∀ trace b', Session provider b trace b' → Sound b' ∧ Prudent trace := by
  have hb : Sound b := by
    induction h with
    | refl => exact h₀
    | tail _ hstep ih => exact hstep.sound ih
  exact ⟨hb, fun trace b' h => h.sound hb⟩

/-- A sweep whose second question about the one object is refused, and then the delete of the
marker of the other, once it is done: it ends there. -/
def sweptHalf : Option (Program Req Resp (Except Error Unit) × (Bucket × Trace)) :=
  Program.advance (failing .s3 [9] [12]) 40
    (((Call.sweep Namespace.acme ∅ 0 false).run ⟨.s3, 2⟩).run, (twoObjects, []))

/-- After it another repository pushes the object that lost its marker, and dies before the
size. -/
def pushedHalf : Option (Program Req Resp (Except Error Unit) × (Bucket × Trace)) :=
  sweptHalf.bind fun c => Program.advance (failing .s3 [] []) 3
    (((Call.store Namespace.tools Oid.ones [2]).run ⟨.s3, 2⟩).run, (c.2.1, []))

/-- What the sweep was not told of it left, and what the bucket holds is sound. -/
theorem crash_safe_half_swept :
    ∃ b, ¬ b.Has (S3Store.markerKey Namespace.acme Oid.zeros) ∧
      b.Has (S3Store.contentKey Oid.zeros) ∧
      ¬ b.Has (S3Store.markerKey Namespace.acme Oid.ones) ∧
      b.Has (S3Store.markerKey Namespace.tools Oid.ones) ∧
      Sound b ∧ ∀ trace b', Session .s3 b trace b' → Sound b' ∧ Prudent trace := by
  have hplayed : (pushedHalf.any fun c =>
      !decide (c.2.1.Has (S3Store.markerKey Namespace.acme Oid.zeros)) &&
        decide (c.2.1.Has (S3Store.contentKey Oid.zeros)) &&
        !decide (c.2.1.Has (S3Store.markerKey Namespace.acme Oid.ones)) &&
        decide (c.2.1.Has (S3Store.markerKey Namespace.tools Oid.ones))) = true := by
    decide +kernel
  obtain ⟨⟨rest, b, trace⟩, hpushed, hcheck⟩ := (Option.any_eq_true _ _).mp hplayed
  simp only [Bool.and_eq_true, decide_eq_true_eq, Bool.not_eq_true', decide_eq_false_iff_not]
    at hcheck
  obtain ⟨⟨rest₁, b₁, trace₁⟩, hswept, hpushes⟩ := Option.bind_eq_some_iff.mp hpushed
  have hfirst : Session .s3 twoObjects trace₁ b₁ :=
    ⟨2, _, rest₁, Program.advance_steps failing_exec hswept⟩
  have hsecond : Session .s3 b₁ trace b := ⟨2, _, rest, Program.advance_steps failing_exec hpushes⟩
  obtain ⟨hsound, hcalls⟩ :=
    crash_safe sound_twoObjects (.tail (.single (.session hfirst)) (.session hsecond))
  exact ⟨b, hcheck.1.1.1, hcheck.1.1.2, hcheck.1.2, hcheck.2, hsound, hcalls⟩

end Runs

end Lfsx.Storage.Crash
