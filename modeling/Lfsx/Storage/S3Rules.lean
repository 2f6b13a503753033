import Lfsx.Storage.KeyspaceRules
import Lfsx.Storage.Surveys

/-!
# Rules for pushes and sweeps

A push is the same in each of its proofs: the reference, the content if it is not
there, the marker, the size.  So is a sweep: a listing, a look at the clock for each
marker, and then, object by object, the marker, the reference and the size go, the
index is asked again, and the content goes.  The rules here give these outlines, with
the assertion between any two requests left to the proof that uses them.
-/

namespace Lfsx.Storage

open Request Keyspace

namespace S3Store

open Program (Stable Triple)

variable {S : Type} {exec : Semantics Req Resp S} {R G : S → S → Prop} {E : S → Prop} {s : S}
  {keys : Keyspace}

/-- An attempted delete, with one assertion for both ends. -/
theorem attempted_under {P Q : S → Prop} {key : Text} (hP : Stable R P) (hQ : Stable R Q)
    (hs : P s) (hhead : Triple exec G P (.head key) fun _ => P)
    (hdelete : Triple exec G P (.delete key) fun _ => Q) :
    (keys.delete key).Under exec R G (fun _ => Q) Q s := by
  refine delete_under hP hQ hQ hs hhead fun s₁ answer s₂ hs₁ hexec => ?_
  obtain ⟨hG, hs₂⟩ := hdelete s₁ answer s₂ hs₁ hexec
  refine ⟨hG, ?_⟩
  cases answer with
  | ok _ => exact hs₂
  | error _ => exact hs₂

/-- Asking the age of an entry looks at the clock. -/
theorem age_under {P : S → Prop} (hP : Stable R P) (hE : Stable R E)
    (hnow : Triple exec G P .now fun _ => P) (entry : Entry) (hs : P s) :
    entry.age.Under exec R G (fun _ => P) E s := by
  refine Fallible.Under.bind hE (Fallible.Under.certain hP hs
    (fun _ => Fallible.Under.stable) fun s₁ now s₂ hs₁ hexec => ?_)
  obtain ⟨hG, hs₂⟩ := hnow s₁ now s₂ hs₁ hexec
  refine ⟨hG, ?_⟩
  cases entry.modified with
  | none => exact Fallible.Under.pure hP hs₂
  | some modified =>
      simp only
      split <;> exact Fallible.Under.pure hP hs₂

/-- Reordering keeps what there is. -/
theorem mem_reordered {α : Type} {order : List Nat} {xs : List α}
    (h : order.Perm (List.range xs.length)) {x : α} : x ∈ reordered order xs ↔ x ∈ xs := by
  rw [reordered, List.mem_filterMap]
  constructor
  · rintro ⟨i, -, hi⟩
    exact List.mem_of_getElem? hi
  · intro hx
    obtain ⟨i, hi, rfl⟩ := List.getElem_of_mem hx
    exact ⟨i, h.mem_iff.mpr (List.mem_range.mpr hi), List.getElem?_eq_getElem hi⟩

/-! ## Pushes -/

section Push

variable {ns : Namespace} {oid : Oid} {P₀ P₁ P₂ P₃ : S → Prop}

/-- What is asked of the requests of a push, beside the one that brings the content:
`P₁` once the reference is there, `P₂` once the content is, `P₃` once the marker is. -/
structure Push (exec : Semantics Req Resp S) (R G : S → S → Prop) (ns : Namespace) (oid : Oid)
    (P₀ P₁ P₂ P₃ : S → Prop) : Prop where
  stable₀ : Stable R P₀
  stable₁ : Stable R P₁
  stable₂ : Stable R P₂
  stable₃ : Stable R P₃
  reference : Triple exec G P₀ (.put (Refs.key ns oid) [])
    (Fallible.Ends (fun _ => P₁) fun _ => True)
  looked : Triple exec G P₁ (.head (contentKey oid)) (Fallible.Ends (fun _ => P₂) P₁)
  marker : Triple exec G P₂ (.put (markerKey ns oid) [])
    (Fallible.Ends (fun _ => P₃) fun _ => True)
  size : ∀ size, Triple exec G P₃ (.put (Sizes.key ns oid size) []) fun _ => P₃

theorem any_stable : Stable R fun _ : S => True := fun _ _ _ h => h

variable (push : Push exec R G ns oid P₀ P₁ P₂ P₃)

include push

/-- `bring` is run if the content is not there. -/
theorem Push.content_under {bring : Op Unit}
    (hbring : ∀ s, P₁ s → bring.Under exec R G (fun _ => P₂) (fun _ => True) s) (hs : P₁ s) :
    (do if ← found (contentKey oid) then pure () else bring : Op Unit).Under exec R G
      (fun _ => P₂) (fun _ => True) s := by
  refine Fallible.Under.bind any_stable (found_under push.stable₁
    (fun _ => Fallible.Under.stable) hs fun s₁ answer s₂ hs₁ hexec => ?_)
  obtain ⟨hG, hs₂⟩ := push.looked s₁ answer s₂ hs₁ hexec
  refine ⟨hG, ?_⟩
  cases answer with
  | ok n => exact Fallible.Under.pure push.stable₂ hs₂
  | error e => exact hbring s₂ hs₂

theorem Push.claimed_under (size : Nat) (hs : P₂ s) :
    (do
      put (markerKey ns oid) []
      Sizes.write ns oid size : Op Unit).Under exec R G (fun _ => P₃) (fun _ => True) s := by
  refine Fallible.Under.bind any_stable ((put_under push.stable₂ push.stable₃ any_stable hs
    push.marker).mono (fun _ s₁ hs₁ => ?_) fun _ h => h)
  refine put_under push.stable₃ push.stable₃ any_stable hs₁ fun s₂ answer s₃ hs₂ hexec => ?_
  obtain ⟨hG, hs₃⟩ := push.size size s₂ answer s₃ hs₂ hexec
  refine ⟨hG, ?_⟩
  cases answer with
  | ok _ => exact hs₃
  | error _ => trivial

theorem Push.store_under {staged : Bytes}
    (hput : Triple exec G P₁ (.put (contentKey oid) staged)
      (Fallible.Ends (fun _ => P₂) fun _ => True)) (hs : P₀ s) :
    (store ns oid staged).Under exec R G (fun _ => P₃) (fun _ => True) s := by
  refine Fallible.Under.bind any_stable ((put_under push.stable₀ push.stable₁ any_stable hs
    push.reference).mono (fun _ s₁ hs₁ => ?_) fun _ h => h)
  refine Fallible.Under.bind any_stable ((push.content_under (fun s' hs' => ?_) hs₁).mono
    (fun _ s₂ hs₂ => push.claimed_under staged.length hs₂) fun _ h => h)
  exact put_under push.stable₁ push.stable₂ any_stable hs' hput

theorem Push.adopt_under {size : Nat}
    (hcopy : Triple exec G P₁ (.copy (incomingKey ns oid) (contentKey oid))
      (Fallible.Ends (fun _ => P₂) fun _ => True))
    (hhead : Triple exec G P₃ (.head (incomingKey ns oid)) fun _ => P₃)
    (hdelete : Triple exec G P₃ (.delete (incomingKey ns oid)) fun _ => P₃) (hs : P₀ s) :
    (adopt keys ns oid size).Under exec R G (fun _ => P₃) (fun _ => True) s := by
  have hcopied : ∀ s', P₁ s' → (keys.copy (incomingKey ns oid) (contentKey oid)).Under exec R G
      (fun _ => P₂) (fun _ => True) s' := by
    intro s' hs'
    rw [copy]
    cases keys.provider with
    | s3 => exact Fallible.Under.ask push.stable₁ hs' (fun _ => push.stable₂) any_stable hcopy
    | azure => exact Fallible.Under.throw any_stable trivial
    | gcs => exact Fallible.Under.throw any_stable trivial
  have hleft : ∀ s', P₃ s' → (do
      let _ ← (keys.delete (incomingKey ns oid)).attempt
      pure () : Op Unit).Under exec R G (fun _ => P₃) (fun _ => True) s' := by
    intro s' hs'
    refine Fallible.Under.attempt ((attempted_under push.stable₃ push.stable₃ hs' hhead
      hdelete).mono ?_ ?_)
    · exact fun _ _ h => Fallible.Under.pure push.stable₃ h
    · exact fun _ h _ => Fallible.Under.pure push.stable₃ h
  refine Fallible.Under.bind any_stable ((put_under push.stable₀ push.stable₁ any_stable hs
    push.reference).mono (fun _ s₁ hs₁ => ?_) fun _ h => h)
  refine Fallible.Under.bind any_stable ((push.content_under hcopied hs₁).mono
    (fun _ s₂ hs₂ => ?_) fun _ h => h)
  have hclaimed := push.claimed_under size hs₂
  rw [← bind_assoc]
  exact Fallible.Under.bind any_stable (hclaimed.mono (fun _ => hleft) fun _ h => h)

end Push

/-! ## Reclaiming and measuring -/

theorem sizeOrZero_under {P : S → Prop} {oid : Oid} (hP : Stable R P)
    (hhead : Triple exec G P (.head (contentKey oid)) fun _ => P) (hs : P s) :
    (sizeOrZero oid).Under exec R G (fun _ => P) E s := by
  refine Fallible.Under.attempt (head_under hP (fun _ => Fallible.Under.stable)
    (fun s₁ s₂ hR h e => Fallible.Under.stable s₁ s₂ hR (h e)) hs ?_)
  intro s₁ answer s₂ hs₁ hexec
  obtain ⟨hG, hs₂⟩ := hhead s₁ answer s₂ hs₁ hexec
  refine ⟨hG, ?_⟩
  cases answer with
  | ok n => exact Fallible.Under.pure hP hs₂
  | error e => exact fun _ => Fallible.Under.pure hP hs₂

/-- What the deletes of a reclaimer keep, beside its looks at the clock. -/
theorem reclaimEach_under {P : S → Prop} (hP : Stable R P)
    (hnow : Triple exec G P .now fun _ => P) (olderThan : Nat) (entries : List Entry)
    (reclaimed : Reclaimed)
    (hdelete : ∀ e ∈ entries, (Triple exec G P (.head e.key) fun _ => P) ∧
      Triple exec G P (.delete e.key) fun _ => P) (hE : Stable R E) (hs : P s) :
    (reclaimEach keys olderThan entries reclaimed).Under exec R G (fun _ => P) E s := by
  induction entries generalizing reclaimed s with
  | nil => exact Fallible.Under.pure hP hs
  | cons e rest ih =>
      have hrest : ∀ reclaimed s', P s' →
          (reclaimEach keys olderThan rest reclaimed).Under exec R G (fun _ => P) E s' :=
        fun reclaimed s' hs' => ih reclaimed
          (fun e he => hdelete e (List.mem_cons_of_mem _ he)) hs'
      obtain ⟨hhead, hgone⟩ := hdelete e List.mem_cons_self
      refine Fallible.Under.bind hE ((age_under hP hE hnow e hs).mono (fun age s' hs' => ?_)
        fun _ h => h)
      split
      · exact hrest _ s' hs'
      · exact Fallible.Under.attempt ((attempted_under hP hP hs' hhead hgone).mono
          (fun _ s'' hs'' => hrest _ s'' hs'') fun s'' hs'' _ => hrest _ s'' hs'')

/-- `D` of the entries that are listed under the directories a reclaimer looks into. -/
theorem reclaimUnder_under {P : S → Prop} {D : Entry → Prop} (hP : Stable R P)
    (hnow : Triple exec G P .now fun _ => P) (olderThan : Nat) (unders : List Text)
    (reclaimed : Reclaimed)
    (hlisted : ∀ under ∈ unders, ∀ s, P s → (keys.entries under).Under exec R G
      (fun entries s' => P s' ∧ ∀ e ∈ entries, D e) E s)
    (hdelete : ∀ e, D e → (Triple exec G P (.head e.key) fun _ => P) ∧
      Triple exec G P (.delete e.key) fun _ => P) (hE : Stable R E) (hs : P s) :
    (reclaimUnder keys olderThan unders reclaimed).Under exec R G (fun _ => P) E s := by
  induction unders generalizing reclaimed s with
  | nil => exact Fallible.Under.pure hP hs
  | cons under rest ih =>
      refine Fallible.Under.bind hE ((hlisted under List.mem_cons_self s hs).mono
        (fun entries s' h => ?_) fun _ h => h)
      obtain ⟨hs', hentries⟩ := h
      refine Fallible.Under.bind hE ((reclaimEach_under hP hnow olderThan entries reclaimed
        (fun e he => hdelete e (hentries e he)) hE hs').mono (fun reclaimed s'' hs'' => ?_)
        fun _ h => h)
      exact ih reclaimed (fun under h => hlisted under (List.mem_cons_of_mem _ h)) hs''

theorem measureEach_under {P : S → Prop} {ns : Namespace} (hP : Stable R P)
    (hhead : ∀ oid, Triple exec G P (.head (contentKey oid)) fun _ => P)
    (hput : ∀ oid size, Triple exec G P (.put (Sizes.key ns oid size) []) fun _ => P)
    (oids : List Oid) (held : Nat) (hE : Stable R E) (hs : P s) :
    (measureEach ns oids held).Under exec R G (fun _ => P) E s := by
  have hwritten : ∀ oid size s', P s' →
      (Sizes.write ns oid size).Under exec R G (fun _ => P) P s' := by
    intro oid size s' hs'
    refine put_under hP hP hP hs' fun s₁ answer s₂ hs₁ hexec => ?_
    obtain ⟨hG, hs₂⟩ := hput oid size s₁ answer s₂ hs₁ hexec
    cases answer <;> exact ⟨hG, hs₂⟩
  induction oids generalizing held s with
  | nil => exact Fallible.Under.pure hP hs
  | cons oid rest ih =>
      have hsized : ∀ size s', P s' → (do
          let _ ← (Sizes.write ns oid size).attempt
          measureEach ns rest (held + size) : Op Nat).Under exec R G (fun _ => P) E s' :=
        fun size s' hs' => Fallible.Under.attempt ((hwritten oid size s' hs').mono
          (fun _ s'' hs'' => ih _ hs'') fun s'' hs'' _ => ih _ hs'')
      exact Fallible.Under.bind hE ((sizeOrZero_under hP (hhead oid) hs).mono
        (fun size s' hs' => hsized size s' hs') fun _ h => h)

theorem usageOf_under {P : S → Prop} {ns : Namespace} (hP : Stable R P)
    (hhead : ∀ oid, Triple exec G P (.head (contentKey oid)) fun _ => P)
    (hput : ∀ oid size, Triple exec G P (.put (Sizes.key ns oid size) []) fun _ => P)
    (horder : ∀ n, Triple exec G P (.unordered n) fun _ => P) (hE : Stable R E)
    (hlisted : (keys.entries (ownPrefix ns)).Under exec R G (fun _ => P) P s) :
    (usageOf keys ns).Under exec R G (fun _ => P) E s := by
  refine Fallible.Under.attempt (Fallible.Under.bind (fun s₁ s₂ hR h e =>
    Fallible.Under.stable s₁ s₂ hR (h e)) (hlisted.mono (fun entries s' hs' => ?_)
    fun s' hs' _ => ?_))
  · refine Fallible.Under.pure Fallible.Under.stable ?_
    simp only
    split
    · exact Fallible.Under.pure hP hs'
    · refine Fallible.Under.bind hE ?_
      refine Fallible.Under.bind hE (Fallible.Under.certain hP hs' (fun _ => Fallible.Under.stable)
        fun s₁ order s₂ hs₁ hexec => ?_)
      obtain ⟨hG, hs₂⟩ := horder _ s₁ order s₂ hs₁ hexec
      refine ⟨hG, (measureEach_under hP hhead hput _ 0 hE hs₂).mono (fun _ s₃ hs₃ => ?_)
        fun _ h => h⟩
      exact Fallible.Under.pure hP hs₃
  · exact Fallible.Under.pure hP hs'

/-! ## Sweeps -/

/-- What a sweep may drop is some of the markers it has. -/
theorem droppable_under {P : S → Prop} {retained : Finset Oid} {grace : Nat} (hP : Stable R P)
    (hE : Stable R E) (hnow : Triple exec G P .now fun _ => P) (mine : List (Entry × Oid))
    (report : SweepReport) (hs : P s) :
    (droppable retained grace mine report).Under exec R G
      (fun dropped s' => P s' ∧ dropped.1.Sublist mine) E s := by
  have hpost : ∀ (dropped mine : List (Entry × Oid)),
      Stable R fun s' => P s' ∧ dropped.Sublist mine :=
    fun _ _ s₁ s₂ hR h => ⟨hP s₁ s₂ hR h.1, h.2⟩
  induction mine generalizing report s with
  | nil => exact Fallible.Under.pure (hpost [] []) ⟨hs, List.Sublist.slnil⟩
  | cons p rest ih =>
      obtain ⟨entry, oid⟩ := p
      have hskip : ∀ report s', P s' → (droppable retained grace rest report).Under exec R G
          (fun dropped s' => P s' ∧ dropped.1.Sublist ((entry, oid) :: rest)) E s' := by
        intro report s' hs'
        exact (ih report hs').mono (fun _ _ h => ⟨h.1, h.2.cons _⟩) fun _ h => h
      rw [droppable]
      split
      · exact hskip report s hs
      · refine Fallible.Under.bind hE ((age_under hP hE hnow entry hs).mono
          (fun age s' hs' => ?_) fun _ h => h)
        split
        · exact hskip _ s' hs'
        · refine Fallible.Under.bind hE ((ih _ hs').mono (fun dropped s₁ hs₁ => ?_) fun _ h => h)
          exact Fallible.Under.pure (hpost _ _) ⟨hs₁.1, hs₁.2.cons_cons _⟩

/-- The loop of a sweep, with what is known before each of the markers that are
left. -/
theorem sweepEach_under {L : List (Entry × Oid) → S → Prop} {one : Entry → Oid → Op Nat}
    (hL : Stable R (L [])) (hE : Stable R E) (dropped : List (Entry × Oid)) (report : SweepReport)
    (hone : ∀ before entry oid rest, dropped = before ++ (entry, oid) :: rest →
      ∀ s, L ((entry, oid) :: rest) s → (one entry oid).Under exec R G (fun _ => L rest) E s)
    (hs : L dropped s) :
    (sweepEach one dropped report).Under exec R G (fun _ => L []) E s := by
  induction dropped generalizing report s with
  | nil => exact Fallible.Under.pure hL hs
  | cons p rest ih =>
      obtain ⟨entry, oid⟩ := p
      refine Fallible.Under.bind hE ((hone [] entry oid rest rfl s hs).mono
        (fun freed s' hs' => ?_) fun _ h => h)
      refine ih _ (fun before entry' oid' rest' heq => ?_) hs'
      exact hone ((entry, oid) :: before) entry' oid' rest' (by rw [heq]; rfl)

/-! ### Building the index -/

theorem putEach_under {D : List Text → S → Prop} (hD : ∀ done, Stable R (D done))
    (hE : Stable R E) (refs done : List Text)
    (hput : ∀ done, ∀ key ∈ refs, Triple exec G (D done) (.put key [])
      (Fallible.Ends (fun _ => D (done ++ [key])) E)) (hs : D done s) :
    (Refs.putEach refs).Under exec R G (fun _ => D (done ++ refs)) E s := by
  induction refs generalizing done s with
  | nil => exact Fallible.Under.pure (hD _) (by rwa [List.append_nil])
  | cons key rest ih =>
      refine Fallible.Under.bind hE ((put_under (hD done) (hD _) hE hs
        (hput done key List.mem_cons_self)).mono (fun _ s' hs' => ?_) fun _ h => h)
      have hrest := ih (done ++ [key])
        (fun done k hk => hput done k (List.mem_cons_of_mem _ hk)) hs'
      rwa [List.append_assoc, List.singleton_append] at hrest

/-- `D done` is known once the references of `done` were put. -/
theorem buildIndex_under {P : S → Prop} {D : List Text → S → Prop} {markers : List Text}
    {complete dryRun : Bool} (hP : Stable R P) (hD : ∀ done, Stable R (D done))
    (hstart : ∀ s, P s → D [] s)
    (horder : ∀ n, Triple exec G P (.unordered n) fun order s => order.Perm (List.range n) ∧ P s)
    (hput : ∀ done, ∀ key ∈ markers.filterMap Refs.fromMarker,
      Triple exec G (D done) (.put key []) (Fallible.Ends (fun _ => D (done ++ [key])) P))
    (hcomplete : ∀ done, (∀ key ∈ markers.filterMap Refs.fromMarker, key ∈ done) →
      Triple exec G (D done) (.put Refs.complete []) fun _ => P) (hs : P s) :
    (buildIndex markers complete dryRun).Under exec R G (fun _ => P) E s := by
  rw [buildIndex]
  split
  case isFalse => exact Fallible.Under.pure hP hs
  have hbackfill : (Refs.backfill markers).Under exec R G (fun _ => P) P s := by
    refine Fallible.Under.bind hP (Fallible.Under.certain hP hs (fun _ => Fallible.Under.stable)
      fun s₁ order s₂ hs₁ hexec => ?_)
    obtain ⟨hG, hperm, hs₂⟩ := horder _ s₁ order s₂ hs₁ hexec
    refine ⟨hG, Fallible.Under.bind hP ((putEach_under hD hP _ [] (fun done key hkey =>
      hput done key ((mem_reordered hperm).mp hkey)) (hstart s₂ hs₂)).mono
      (fun _ s₃ hs₃ => ?_) fun _ h => h)⟩
    refine put_under (hD _) hP hP hs₃ fun s₄ answer s₅ hs₄ hexec => ?_
    obtain ⟨hG, hs₅⟩ := hcomplete _ (fun key hkey => by
      rw [List.nil_append]
      exact (mem_reordered hperm).mpr hkey) s₄ answer s₅ hs₄ hexec
    refine ⟨hG, ?_⟩
    cases answer <;> exact hs₅
  refine Fallible.Under.attempt (f := fun _ => pure ()) (hbackfill.mono ?_ ?_)
  · exact fun _ _ h => Fallible.Under.pure hP h
  · exact fun _ h _ => Fallible.Under.pure hP h

/-! ### One object -/

section One

variable {ns : Namespace} {oid : Oid} {marker : Text} {sized : AList fun _ : Oid => Text}

/-- The marker goes first, and the reference only when it is gone. -/
theorem dropMarker_under (P₀ P₁ P₂ : S → Prop) (h₀ : Stable R P₀) (h₁ : Stable R P₁)
    (h₂ : Stable R P₂) (hE : Stable R E)
    (hhead : ∀ key, (Triple exec G P₀ (.head key) fun _ => P₀) ∧
      (Triple exec G P₁ (.head key) fun _ => P₁) ∧ Triple exec G P₂ (.head key) fun _ => P₂)
    (hmarker : Triple exec G P₀ (.delete marker) (Fallible.Ends (fun _ => P₁) E))
    (href : Triple exec G P₁ (.delete (Refs.key ns oid)) fun _ => P₂)
    (hsize : ∀ key, sized.lookup oid = some key → Triple exec G P₂ (.delete key) fun _ => P₂)
    (hs : P₀ s) :
    (dropMarker keys ns oid marker sized).Under exec R G (fun _ => P₂) E s := by
  refine Fallible.Under.bind hE ((delete_under h₀ h₁ hE hs (hhead _).1 hmarker).mono
    (fun _ s₁ hs₁ => ?_) fun _ h => h)
  have hdropSize : ∀ s', P₂ s' → (dropSize keys sized oid).Under exec R G (fun _ => P₂) E s' := by
    intro s' hs'
    rw [dropSize]
    cases hkey : sized.lookup oid with
    | none => exact Fallible.Under.pure h₂ hs'
    | some key =>
        refine Fallible.Under.attempt ((attempted_under h₂ h₂ hs' (hhead _).2.2
          (hsize key hkey)).mono ?_ ?_)
        · exact fun _ _ h => Fallible.Under.pure h₂ h
        · exact fun _ h _ => Fallible.Under.pure h₂ h
  refine Fallible.Under.attempt ((attempted_under h₁ h₂ hs₁ (hhead _).2.1 href).mono ?_ ?_)
  · exact fun _ s' h => hdropSize s' h
  · exact fun s' h _ => hdropSize s' h

theorem freeContent_under {P Q : S → Prop} {size : Nat} (hP : Stable R P) (hQ : Stable R Q)
    (hE : Stable R E) (hhead : Triple exec G P (.head (contentKey oid)) fun _ => P)
    (hdelete : Triple exec G P (.delete (contentKey oid)) (Fallible.Ends (fun _ => Q) E))
    (hs : P s) : (freeContent keys oid size).Under exec R G (fun _ => Q) E s := by
  refine Fallible.Under.bind hE ((delete_under hP hQ hE hs hhead hdelete).mono
    (fun existed s' hs' => ?_) fun _ h => h)
  cases existed <;> exact Fallible.Under.pure hQ hs'

/-- What is left once the marker is gone: `N` if the index names nobody else, and then
the content goes. -/
theorem freeIndexed_under {P N D : S → Prop} {frees : Bool} (hN : Stable R N) (hD : Stable R D)
    (hE : Stable R E) (hkept : frees = false → ∀ s, P s → D s)
    (hclaimed : frees = true → ∀ s, P s → (claimedSince keys ns oid).Under exec R G
      (fun claimed s' => if claimed then D s' else N s') E s)
    (hhead : Triple exec G N (.head (contentKey oid)) fun _ => N)
    (hdelete : Triple exec G N (.delete (contentKey oid)) (Fallible.Ends (fun _ => D) E))
    (hs : P s) : (freeIndexed keys ns oid frees).Under exec R G (fun _ => D) E s := by
  cases frees with
  | false => exact Fallible.Under.pure hD (hkept rfl s hs)
  | true =>
      refine Fallible.Under.bind hE ((hclaimed rfl s hs).mono (fun claimed s' hs' => ?_)
        fun _ h => h)
      cases claimed with
      | true => exact Fallible.Under.pure hD hs'
      | false =>
          refine Fallible.Under.bind hE ((sizeOrZero_under hN hhead hs').mono
            (fun size s₁ hs₁ => ?_) fun _ h => h)
          exact freeContent_under hN hD hE hhead hdelete hs₁

/-- The same, with the size from the listing. -/
theorem freeListed_under {P N D : S → Prop} {frees : Bool} {size : Nat} (hN : Stable R N)
    (hD : Stable R D) (hE : Stable R E) (hkept : frees = false → ∀ s, P s → D s)
    (hclaimed : frees = true → ∀ s, P s → (claimedSince keys ns oid).Under exec R G
      (fun claimed s' => if claimed then D s' else N s') E s)
    (hhead : Triple exec G N (.head (contentKey oid)) fun _ => N)
    (hdelete : Triple exec G N (.delete (contentKey oid)) (Fallible.Ends (fun _ => D) E))
    (hs : P s) : (freeListed keys ns oid frees size).Under exec R G (fun _ => D) E s := by
  cases frees with
  | false => exact Fallible.Under.pure hD (hkept rfl s hs)
  | true =>
      refine Fallible.Under.bind hE ((hclaimed rfl s hs).mono (fun claimed s' hs' => ?_)
        fun _ h => h)
      cases claimed with
      | true => exact Fallible.Under.pure hD hs'
      | false => exact freeContent_under hN hD hE hhead hdelete hs'

end One

end S3Store

end Lfsx.Storage
