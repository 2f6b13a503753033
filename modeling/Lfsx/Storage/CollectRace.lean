import Lfsx.Storage.BucketSound
import Lfsx.Storage.KeyspaceAlone
import Lfsx.Storage.S3Rules

/-!
# A sweep against pushes

One sweep of a repository and any number of pushes, of any repositories, request by
request, with any request refused.  The order of the requests of a push is meant to
make a race harmless: the reference is written before the content is looked at, so a
sweep that asks the index once more before it deletes the content sees every claim.

That holds of the pushes of *other* repositories, as long as none writes its reference
after the sweep began to ask.  A push of the swept repository itself is not seen: the
sweep passes over its own reference, deletes that reference, and the push goes on to
put a marker that neither a reference nor the content is left for
(`own_push_is_lost`).  What it takes is that, when the sweep deletes the reference or
the content of an object, its repository has no marker of the object and no push of it
under way (`Meets`).  Then every marker has its reference and its content in every
state of every interleaving (`race_safe`).
-/

namespace Lfsx.Storage.Race

open Request Keyspace
open Program (Stable Triple)

/-! ## Pushes and the pool -/

/-- How the bytes of a push come in: through the server, or under the key of an upload. -/
inductive Way where
  | streamed (staged : Bytes)
  | uploaded (size : Nat)

structure Push where
  ns : Namespace
  oid : Oid
  way : Way

def Push.call (p : Push) : Call :=
  match p.way with
  | .streamed staged => .store p.ns p.oid staged
  | .uploaded size => .adopt p.ns p.oid size

variable {κ : Type}

/-- The sweep is the thread `none`, and `some i` is the push `i`. -/
abbrev History (κ : Type) := Log (Option κ) Req Resp

abbrev State (κ : Type) := Bucket × History κ

def race (keys : Keyspace) (sweep : Call) (pushes : κ → Push) (b : Bucket) :
    Pool (Option κ) Req Resp (Except Error Unit) (State κ) where
  progs
    | none => (sweep.run keys).run
    | some i => ((pushes i).call.run keys).run
  state := (b, [])

/-! ## The condition -/

/-- A push knows that the content is there. -/
inductive Push.Counts (p : Push) : Event (Option κ) Req Resp → Prop where
  | found (i : Option κ) (size : Nat) : Counts p ⟨i, .head (S3Store.contentKey p.oid), .ok size⟩
  | put (i : Option κ) (body : Bytes) :
      Counts p ⟨i, .put (S3Store.contentKey p.oid) body, .ok ()⟩
  | copy (i : Option κ) (source : Text) :
      Counts p ⟨i, .copy source (S3Store.contentKey p.oid), .ok ()⟩

/-- A push has written its reference and not its marker. -/
inductive Push.Pending (p : Push) : Event (Option κ) Req Resp → Prop where
  | reference (i : Option κ) : Pending p ⟨i, .put (Refs.key p.ns p.oid) [], .ok ()⟩
  | missing (i : Option κ) (e : Error) :
      Pending p ⟨i, .head (S3Store.contentKey p.oid), .error e⟩
  | counts {e : Event (Option κ) Req Resp} : p.Counts e → Pending p e

variable [DecidableEq κ]

/-- The repository has no marker of the object, and none of its pushes of the object is
at `stage`. -/
def Idle (ns : Namespace) (pushes : κ → Push) (stage : Push → Event (Option κ) Req Resp → Prop)
    (oid : Oid) (s : State κ) : Prop :=
  ¬ s.1.Has (S3Store.markerKey ns oid) ∧
    ∀ i, (pushes i).ns.Same ns → (pushes i).oid = oid →
      ∀ e, newest (some i) s.2 = some e → ¬ stage (pushes i) e

/-- The sweep began to ask the index for an object. -/
def asks (oid : Oid) (e : Event (Option κ) Req Resp) : Bool :=
  decide (e.thread = none ∧ e.req = .page (Refs.keyPrefix oid) none)

/-- No push wrote a reference of the object since the sweep last asked for it. -/
def Undisturbed (oid : Oid) (log : History κ) : Prop :=
  ∀ e ∈ since (asks oid) log, ∀ ns, e.req ≠ .put (Refs.key ns oid) []

/-- What is asked of the sweep of `ns` when it deletes a reference or content. -/
def Meets (ns : Namespace) (pushes : κ → Push) : Option κ → Req → State κ → Prop
  | some _, _, _ => True
  | none, r, s => ∀ oid,
      (r = .delete (Refs.key ns oid) → Idle ns pushes Push.Pending oid s) ∧
      (r = .delete (S3Store.contentKey oid) →
        Idle ns pushes Push.Counts oid s ∧ Undisturbed oid s.2)

/-- The runs that meet the condition, with any request refused. -/
abbrev racing (provider : Provider) (ns : Namespace) (pushes : κ → Push) :
    Option κ → Semantics Req Resp (State κ) :=
  restricted (Meets ns pushes) (recording fun _ => Faulty provider)

/-! ## What each thread guarantees -/

/-- Sound, with the claim index complete. -/
def Ready (b : Bucket) : Prop := Sound b ∧ b.Has Key.complete.text

/-- What a request may do beside the others. -/
structure Allowed (ns : Namespace) (pushes : κ → Push) (r : Req) (s : State κ) : Prop where
  harmless : Harmless s.1 r
  complete : ¬ r.Deletes Key.complete.text
  claims : ∀ ns' oid, r.Puts (Key.reference ns' oid).text → r = .put (Refs.key ns' oid) []
  reference : ∀ ns' oid, r.Deletes (Key.reference ns' oid).text →
    ns'.Same ns ∧ Idle ns pushes Push.Pending oid s
  content : ∀ oid, r.Deletes (Key.content oid).text →
    Idle ns pushes Push.Counts oid s ∧
      ∀ ns', ¬ ns'.Same ns → ¬ s.1.Has (Key.reference ns' oid).text

/-- An allowed request of one thread. -/
def Gives (provider : Provider) (ns : Namespace) (pushes : κ → Push) (i : Option κ)
    (s s' : State κ) : Prop :=
  ∃ r answer, recording (fun _ => Faulty provider) i r s answer s' ∧ Allowed ns pushes r s

/-- An allowed request of another thread. -/
def Relies (provider : Provider) (ns : Namespace) (pushes : κ → Push) (i : Option κ)
    (s s' : State κ) : Prop :=
  ∃ j, j ≠ i ∧ Gives provider ns pushes j s s'

section Requests

variable {provider : Provider} {ns : Namespace} {pushes : κ → Push} {i j : Option κ} {r : Req}
  {s s' : State κ} {answer : Resp r} {oid : Oid}

omit [DecidableEq κ] in
theorem Ready.step (h : Ready s.1) (hr : Harmless s.1 r)
    (hcomplete : ¬ r.Deletes Key.complete.text) (hstep : Faulty provider r s.1 answer s'.1) :
    Ready s'.1 :=
  ⟨h.1.step hr hstep, hstep.has h.2 hcomplete⟩

theorem ready_stable : Stable (Relies provider ns pushes i) fun s => Ready s.1 := by
  rintro s s' ⟨j, -, r, answer, hexec, hallowed⟩ h
  exact h.step hallowed.harmless hallowed.complete hexec.1

theorem Allowed.read (h : r.Reads) : Allowed ns pushes r s where
  harmless := .read h
  complete := h.2 _
  claims _ _ hputs := absurd hputs (h.1 _)
  reference _ _ hdel := absurd hdel (h.2 _)
  content _ hdel := absurd hdel (h.2 _)

/-- A put that is harmless. -/
theorem Allowed.put {k : Key} {body : Bytes} (hr : Harmless s.1 (.put k.text body))
    (hk : ∀ ns oid, k ≠ .reference ns oid) : Allowed ns pushes (.put k.text body) s where
  harmless := hr
  complete := Req.not_deletes_put
  claims _ _ hputs := by
    obtain ⟨_, h, -⟩ := Key.eq_reference (Req.puts_put.mp hputs).symm
    exact absurd h (hk _ _)
  reference _ _ hdel := absurd hdel Req.not_deletes_put
  content _ hdel := absurd hdel Req.not_deletes_put

theorem Allowed.put_reference {ns' : Namespace} :
    Allowed ns pushes (.put (Key.reference ns' oid).text []) s where
  harmless := .put (by simp) (by simp)
  complete := Req.not_deletes_put
  claims _ _ hputs := by rw [← Req.puts_put.mp hputs]; rfl
  reference _ _ hdel := absurd hdel Req.not_deletes_put
  content _ hdel := absurd hdel Req.not_deletes_put

theorem Allowed.copy {source : Text} :
    Allowed ns pushes (.copy source (Key.content oid).text) s where
  harmless := .copy_content
  complete := Req.not_deletes_copy
  claims _ _ hputs := by
    obtain ⟨_, h, -⟩ := Key.eq_reference (Req.puts_copy.mp hputs).symm
    cases h
  reference _ _ hdel := absurd hdel Req.not_deletes_copy
  content _ hdel := absurd hdel Req.not_deletes_copy

/-- A delete of what no marker stands on. -/
theorem Allowed.delete {k : Key} (hcomplete : k ≠ .complete) (hcontent : ∀ oid, k ≠ .content oid)
    (hreference : ∀ ns oid, k ≠ .reference ns oid) : Allowed ns pushes (.delete k.text) s where
  harmless := .delete hcontent hreference
  complete hdel := hcomplete (Key.eq_complete (Req.deletes_delete.mp hdel).symm)
  claims _ _ hputs := absurd hputs Req.not_puts_delete
  reference _ _ hdel := by
    obtain ⟨_, h, -⟩ := Key.eq_reference (Req.deletes_delete.mp hdel).symm
    exact absurd h (hreference _ _)
  content _ hdel := absurd (Key.eq_content (Req.deletes_delete.mp hdel).symm) (hcontent _)

/-- An allowed request that leaves the bucket ready. -/
theorem gives (hs : Ready s.1) (hallowed : Allowed ns pushes r s)
    (hexec : racing provider ns pushes i r s answer s') :
    Gives provider ns pushes i s s' ∧ Ready s'.1 :=
  ⟨⟨r, answer, hexec.2, hallowed⟩, hs.step hallowed.harmless hallowed.complete hexec.2.1⟩

theorem no_furtherPages {answer : Resp .furtherPages} :
    ¬ racing provider ns pushes i .furtherPages s answer s' := by
  rintro ⟨-, h | ⟨h, -⟩, -⟩ <;> exact h

theorem ready_triple (h : ∀ s, Ready s.1 → Allowed ns pushes r s) :
    Triple (racing provider ns pushes i) (Gives provider ns pushes i) (fun s => Ready s.1) r
      fun _ s => Ready s.1 :=
  fun s _ _ hs hexec => gives hs (h s hs) hexec

end Requests

/-! ## Pushes -/

section Pushes

variable {provider : Provider} {ns : Namespace} {pushes : κ → Push} {i : κ} {s s' : State κ}

/-- The reference of a push is there, and the sweep knows that it is on its way. -/
def Referenced (pushes : κ → Push) (i : κ) (s : State κ) : Prop :=
  Ready s.1 ∧ s.1.Has (Key.reference (pushes i).ns (pushes i).oid).text ∧
    ∃ e, newest (some i) s.2 = some e ∧ (pushes i).Pending e

/-- So is the content. -/
def Carried (pushes : κ → Push) (i : κ) (s : State κ) : Prop :=
  Ready s.1 ∧ s.1.Has (Key.reference (pushes i).ns (pushes i).oid).text ∧
    s.1.Has (Key.content (pushes i).oid).text ∧
    ∃ e, newest (some i) s.2 = some e ∧ (pushes i).Counts e

/-- Nobody deletes the reference of a push that is on its way. -/
theorem reference_kept {r : Req} {answer : Resp r} {e : Event (Option κ) Req Resp}
    (hexec : Faulty provider r s.1 answer s'.1) (hallowed : Allowed ns pushes r s)
    (hhas : s.1.Has (Key.reference (pushes i).ns (pushes i).oid).text)
    (hnewest : newest (some i) s.2 = some e) (hpending : (pushes i).Pending e) :
    s'.1.Has (Key.reference (pushes i).ns (pushes i).oid).text := by
  refine hexec.has hhas fun hdel => ?_
  obtain ⟨hsame, -, hidle⟩ := hallowed.reference _ _ hdel
  exact hidle i hsame rfl e hnewest hpending

/-- Nobody deletes the content a push counts on: a push of the swept repository is
waited for, and any other has its reference. -/
theorem content_kept {r : Req} {answer : Resp r} {e : Event (Option κ) Req Resp}
    (hexec : Faulty provider r s.1 answer s'.1) (hallowed : Allowed ns pushes r s)
    (hreference : s.1.Has (Key.reference (pushes i).ns (pushes i).oid).text)
    (hhas : s.1.Has (Key.content (pushes i).oid).text)
    (hnewest : newest (some i) s.2 = some e) (hcounts : (pushes i).Counts e) :
    s'.1.Has (Key.content (pushes i).oid).text := by
  refine hexec.has hhas fun hdel => ?_
  obtain ⟨⟨-, hidle⟩, hothers⟩ := hallowed.content _ hdel
  by_cases hsame : (pushes i).ns.Same ns
  · exact hidle i hsame rfl e hnewest hcounts
  · exact hothers _ hsame hreference

theorem newest_kept {j : Option κ} {r : Req} {answer : Resp r} (hj : j ≠ some i)
    (hexec : recording (fun _ => Faulty provider) j r s answer s') :
    newest (some i) s'.2 = newest (some i) s.2 := by
  rw [hexec.2, newest_cons_ne hj]

theorem referenced_stable : Stable (Relies provider ns pushes (some i)) (Referenced pushes i) := by
  rintro s s' ⟨j, hj, r, answer, hexec, hallowed⟩ ⟨hready, hhas, e, hnewest, hpending⟩
  refine ⟨hready.step hallowed.harmless hallowed.complete hexec.1,
    reference_kept hexec.1 hallowed hhas hnewest hpending, e, ?_, hpending⟩
  rw [newest_kept hj hexec, hnewest]

theorem carried_stable : Stable (Relies provider ns pushes (some i)) (Carried pushes i) := by
  rintro s s' ⟨j, hj, r, answer, hexec, hallowed⟩ ⟨hready, hhas, hcontent, e, hnewest, hcounts⟩
  refine ⟨hready.step hallowed.harmless hallowed.complete hexec.1,
    reference_kept hexec.1 hallowed hhas hnewest (.counts hcounts),
    content_kept hexec.1 hallowed hhas hcontent hnewest hcounts, e, ?_, hcounts⟩
  rw [newest_kept hj hexec, hnewest]

theorem newest_own {r : Req} {answer : Resp r}
    (hexec : racing provider ns pushes (some i) r s answer s') :
    newest (some i) s'.2 = some ⟨some i, r, answer⟩ := by
  rw [hexec.2.2, newest_cons_self]

theorem push_race : S3Store.Push (racing provider ns pushes (some i))
    (Relies provider ns pushes (some i)) (Gives provider ns pushes (some i)) (pushes i).ns
    (pushes i).oid (fun s => Ready s.1) (Referenced pushes i) (Carried pushes i)
    (fun s => Ready s.1) where
  stable₀ := ready_stable
  stable₁ := referenced_stable
  stable₂ := carried_stable
  stable₃ := ready_stable
  reference s answer s' hs hexec := by
    obtain ⟨hgives, hready⟩ := gives hs .put_reference hexec
    refine ⟨hgives, ?_⟩
    cases answer with
    | ok u => exact ⟨hready, hexec.2.1.has_of_put, _, newest_own hexec, .reference _⟩
    | error e => trivial
  looked s answer s' hs hexec := by
    obtain ⟨hgives, hready⟩ := gives hs.1 (.read (Req.reads_head _)) hexec
    refine ⟨hgives, ?_⟩
    have hkept := hexec.2.1.has hs.2.1 ((Req.reads_head _).2 _)
    cases answer with
    | ok size =>
        exact ⟨hready, hkept, hexec.2.1.has hexec.2.1.has_of_head ((Req.reads_head _).2 _), _,
          newest_own hexec, .found _ size⟩
    | error e => exact ⟨hready, hkept, _, newest_own hexec, .missing _ e⟩
  marker s answer s' hs hexec := by
    obtain ⟨hgives, hready⟩ := gives hs.1
      (.put (.put_marker hs.2.2.1 hs.2.1) (by simp)) hexec
    refine ⟨hgives, ?_⟩
    cases answer with
    | ok u => exact hready
    | error e => trivial
  size n s answer s' hs hexec :=
    gives hs (.put (k := .size _ _ n) (.put (by simp) (by simp)) (by simp)) hexec

theorem push_under (keys : Keyspace) (hs : Ready s.1) :
    ((pushes i).call.run keys).Under (racing provider ns pushes (some i))
      (Relies provider ns pushes (some i)) (Gives provider ns pushes (some i))
      (fun _ s => Ready s.1) (fun _ => True) s := by
  rw [Push.call]
  cases (pushes i).way with
  | streamed staged =>
      refine push_race.store_under (fun s answer s' hs hexec => ?_) hs
      obtain ⟨hgives, hready⟩ := gives hs.1 (.put (k := .content _) (.put (by simp) (by simp))
        (by simp)) hexec
      refine ⟨hgives, ?_⟩
      cases answer with
      | ok u =>
          exact ⟨hready, hexec.2.1.has hs.2.1 Req.not_deletes_put, hexec.2.1.has_of_put, _,
            newest_own hexec, .put _ staged⟩
      | error e => trivial
  | uploaded size =>
      refine push_race.adopt_under (fun s answer s' hs hexec => ?_)
        (ready_triple fun _ _ => .read (Req.reads_head _))
        (ready_triple fun _ _ => .delete (k := .incoming _ _) (by simp) (by simp) (by simp)) hs
      obtain ⟨hgives, hready⟩ := gives hs.1 .copy hexec
      refine ⟨hgives, ?_⟩
      cases answer with
      | ok u =>
          exact ⟨hready, hexec.2.1.has hs.2.1 Req.not_deletes_copy, hexec.2.1.has_of_copy, _,
            newest_own hexec, .copy _ _⟩
      | error e => trivial

end Pushes

/-! ## The sweep -/

section Sweep

variable {provider : Provider} {keys : Keyspace} {ns : Namespace} {pushes : κ → Push}
  {s s' : State κ} {oid : Oid}

/-- A reference was not there since the sweep began to ask, or came since. -/
def Unseen (oid : Oid) (key : Text) (s : State κ) : Prop :=
  (∃ e ∈ since (asks oid) s.2, ∃ ns, e.req = .put (Refs.key ns oid) []) ∨ ¬ s.1.Has key

omit [DecidableEq κ] in
/-- What the index did not show is not there if the sweep was not disturbed. -/
theorem Unseen.absent {key : Text} (h : Unseen oid key s) (hundisturbed : Undisturbed oid s.2) :
    ¬ s.1.Has key := by
  rcases h with ⟨e, he, ns, hreq⟩ | h
  · exact absurd hreq (hundisturbed e he ns)
  · exact h

omit [DecidableEq κ] in
/-- Only a push that is seen in the log makes an unseen reference appear. -/
theorem Unseen.step {j : Option κ} {r : Req} {answer : Resp r} {ns' : Namespace}
    (h : Unseen oid (Refs.key ns' oid) s)
    (hexec : recording (fun _ => Faulty provider) j r s answer s')
    (hclaims : r.Puts (Key.reference ns' oid).text → r = .put (Refs.key ns' oid) [])
    (hasks : asks oid ⟨j, r, answer⟩ = false) : Unseen oid (Refs.key ns' oid) s' := by
  rw [Unseen, hexec.2, since_cons_of_not hasks]
  rcases h with ⟨e, he, hreq⟩ | h
  · exact Or.inl ⟨e, List.mem_cons_of_mem _ he, hreq⟩
  · by_cases hputs : r.Puts (Key.reference ns' oid).text
    · exact Or.inl ⟨_, List.mem_cons_self, ns', hclaims hputs⟩
    · exact Or.inr fun hhas => h (hexec.1.has_before hhas hputs)

theorem unseen_stable (ns' : Namespace) :
    Stable (Relies provider ns pushes none) (Unseen oid (Refs.key ns' oid)) := by
  rintro s s' ⟨j, hj, r, answer, hexec, hallowed⟩ h
  refine h.step hexec (hallowed.claims ns' oid) ?_
  simp [asks, hj]

/-- No other repository has a reference that the sweep could have missed. -/
def Unclaimed (ns : Namespace) (oid : Oid) (s : State κ) : Prop :=
  Ready s.1 ∧ ∀ ns', ¬ ns'.Same ns → Unseen oid (Refs.key ns' oid) s

theorem unclaimed_stable : Stable (Relies provider ns pushes none) (Unclaimed ns oid) :=
  fun s s' hR h => ⟨ready_stable s s' hR h.1,
    fun ns' hne => unseen_stable ns' s s' hR (h.2 ns' hne)⟩

omit [DecidableEq κ] in
/-- A page of the index shows what is there. -/
theorem Unseen.page {after : Option Text} {answer : Resp (.page (Refs.keyPrefix oid) after)}
    {ns' : Namespace} (h : ¬ s.1.Has (Refs.key ns' oid))
    (hexec : recording (fun _ => Faulty provider) none (.page (Refs.keyPrefix oid) after) s answer
      s') : Unseen oid (Refs.key ns' oid) s' := by
  refine Or.inr ?_
  rwa [hexec.1.page.1]

theorem claimed_race (hs : Ready s.1) :
    (Refs.claimedByAnother keys ns oid).Under (racing provider ns pushes none)
      (Relies provider ns pushes none) (Gives provider ns pushes none)
      (fun claimed s' => if claimed then Ready s'.1 else Unclaimed ns oid s')
        (fun _ => True) s := by
  have hread : ∀ after, ∀ s : State κ, Allowed ns pushes (.page (Refs.keyPrefix oid) after) s :=
    fun after _ => .read (Req.reads_page _ _)
  refine (claimedByAnother_under (P := fun s => Ready s.1) (T := fun s => Ready s.1)
    (A := fun key s => ∀ ns', key = Refs.key ns' oid → Unseen oid key s) ready_stable ready_stable
    (fun key s s' hR h ns' heq => ?_) (fun after s answer s' hs hexec => ?_)
    (fun token s answer s' hexec => ⟨fun key h ns' heq => ?_, fun e he hne => ?_⟩)
    (fun _ _ _ => no_furtherPages) hs).mono (fun claimed s' h => ?_) fun _ h => h
  · subst heq
    exact unseen_stable ns' s s' hR (h ns' rfl)
  · obtain ⟨hgives, hready⟩ := gives hs (hread after s) hexec
    refine ⟨hgives, ?_⟩
    cases answer with
    | error e => exact hready
    | ok page =>
        refine ⟨hready, s.1, hexec.2.1.page.2 page rfl, fun key _ hkey ns' heq => ?_,
          fun _ _ _ => hready⟩
        subst heq
        exact Unseen.page hkey hexec.2
  · subst heq
    refine (h ns' rfl).step hexec.2 (fun hputs => absurd hputs ((Req.reads_page _ _).1 _)) ?_
    simp [asks]
  · have hsame := hexec.2.1.page.1
    change Ready s'.1
    rw [hsame]
    exact he hne
  · cases claimed with
    | true => exact h
    | false => exact ⟨h.1, fun ns' hne => h.2 ns' hne ns' rfl⟩

theorem head_unclaimed (key : Text) :
    Triple (racing provider ns pushes none) (Gives provider ns pushes none) (Unclaimed ns oid)
      (.head key) fun _ => Unclaimed ns oid := by
  intro s answer s' hs hexec
  obtain ⟨hgives, hready⟩ := gives hs.1 (.read (Req.reads_head key)) hexec
  refine ⟨hgives, hready, fun ns' hne => (hs.2 ns' hne).step hexec.2 ?_ (by simp [asks])⟩
  exact fun hputs => absurd hputs ((Req.reads_head key).1 _)

/-- The reference goes when no push of the repository is under way. -/
theorem delete_reference_race :
    Triple (racing provider ns pushes none) (Gives provider ns pushes none) (fun s => Ready s.1)
      (.delete (Refs.key ns oid)) fun _ s => Ready s.1 := by
  intro s answer s' hs hexec
  have hidle := (hexec.1 oid).1 rfl
  refine gives hs ?_ hexec
  refine ⟨.delete_reference hidle.1, fun hdel => ?_, fun _ _ h => absurd h Req.not_puts_delete,
    fun ns' oid' hdel => ?_, fun oid' hdel => ?_⟩
  · have hk := Key.eq_complete (k := .reference ns oid) (Req.deletes_delete.mp hdel).symm
    cases hk
  · obtain ⟨hsame, rfl⟩ := Key.reference_eq_iff.mp (Req.deletes_delete.mp hdel)
    exact ⟨hsame, hidle⟩
  · have hk := Key.eq_content (k := .reference ns oid) (Req.deletes_delete.mp hdel).symm
    cases hk

/-- The content goes when no other repository has a reference, and so no marker. -/
theorem delete_content_race :
    Triple (racing provider ns pushes none) (Gives provider ns pushes none) (Unclaimed ns oid)
      (.delete (S3Store.contentKey oid)) (Fallible.Ends (fun _ s => Ready s.1) fun _ => True) := by
  intro s answer s' hs hexec
  obtain ⟨hidle, hundisturbed⟩ := (hexec.1 oid).2 rfl
  have hothers : ∀ ns', ¬ ns'.Same ns → ¬ s.1.Has (Key.reference ns' oid).text :=
    fun ns' hne => (hs.2 ns' hne).absent hundisturbed
  have hunheld : ∀ ns', ¬ s.1.Has (Key.marker ns' oid).text := by
    intro ns' hmarker
    by_cases hsame : ns'.Same ns
    · rw [Key.marker_eq_iff.mpr ⟨hsame, rfl⟩] at hmarker
      exact hidle.1 hmarker
    · exact hothers ns' hsame (hs.1.1.reference hs.1.2 ns' oid hmarker)
  have hallowed : Allowed ns pushes (.delete (Key.content oid).text) s := by
    refine ⟨.delete_content hunheld, fun hdel => ?_, fun _ _ h => absurd h Req.not_puts_delete,
      fun ns' oid' hdel => ?_, fun oid' hdel => ?_⟩
    · have hk := Key.eq_complete (Req.deletes_delete.mp hdel).symm
      cases hk
    · obtain ⟨_, hk, -⟩ := Key.eq_reference (Req.deletes_delete.mp hdel).symm
      cases hk
    · rw [Key.content_eq_iff.mp (Req.deletes_delete.mp hdel)]
      exact ⟨hidle, hothers⟩
  obtain ⟨hgives, hready⟩ := gives hs.1 hallowed hexec
  refine ⟨hgives, ?_⟩
  cases answer with
  | ok existed => exact hready
  | error e => trivial

theorem claimedSince_race (hs : Ready s.1) :
    (S3Store.claimedSince keys ns oid).Under (racing provider ns pushes none)
      (Relies provider ns pushes none) (Gives provider ns pushes none)
      (fun claimed s' => if claimed then Ready s'.1 else Unclaimed ns oid s') (fun _ => True) s :=
  claimed_race hs

theorem dropMarker_race {sized : AList fun _ : Oid => Text}
    (hsized : ∀ oid key, sized.lookup oid = some key → ∃ ns oid n, key = (Key.size ns oid n).text)
    (hs : Ready s.1) :
    (S3Store.dropMarker keys ns oid (Key.marker ns oid).text sized).Under
      (racing provider ns pushes none) (Relies provider ns pushes none)
      (Gives provider ns pushes none) (fun _ s => Ready s.1) (fun _ => True) s := by
  have hhead : ∀ key, Triple (racing provider ns pushes none) (Gives provider ns pushes none)
      (fun s => Ready s.1) (.head key) fun _ s => Ready s.1 :=
    fun key => ready_triple fun _ _ => .read (Req.reads_head key)
  refine S3Store.dropMarker_under (fun s : State κ => Ready s.1) (fun s => Ready s.1)
    (fun s => Ready s.1) ready_stable ready_stable ready_stable S3Store.any_stable
    (fun key => ⟨hhead key, hhead key, hhead key⟩) (fun s answer s' hs hexec => ?_)
    delete_reference_race (fun key hkey => ?_) hs
  · obtain ⟨hgives, hready⟩ := gives hs (.delete (k := .marker ns oid) (by simp) (by simp)
      (by simp)) hexec
    refine ⟨hgives, ?_⟩
    cases answer with
    | ok existed => exact hready
    | error e => trivial
  · obtain ⟨ns', oid', n, rfl⟩ := hsized oid key hkey
    exact ready_triple fun _ _ => .delete (by simp) (by simp) (by simp)

theorem sweepOne_race {sized : AList fun _ : Oid => Text} {dryRun : Bool} {entry : Entry}
    (hsized : ∀ oid key, sized.lookup oid = some key → ∃ ns oid n, key = (Key.size ns oid n).text)
    (hentry : entry.key = (Key.marker ns oid).text) (hs : Ready s.1) :
    (S3Store.sweepOne keys ns sized dryRun entry oid).Under (racing provider ns pushes none)
      (Relies provider ns pushes none) (Gives provider ns pushes none) (fun _ s => Ready s.1)
      (fun _ => True) s := by
  refine Fallible.Under.bind S3Store.any_stable ((claimed_race hs).mono (fun claimed s' h => ?_)
    fun _ h => h)
  have hs' : Ready s'.1 := by
    cases claimed with
    | true => exact h
    | false => exact h.1
  split
  · split
    · exact S3Store.sizeOrZero_under ready_stable
        (ready_triple fun _ _ => .read (Req.reads_head _)) hs'
    · exact Fallible.Under.pure ready_stable hs'
  · rw [hentry]
    refine Fallible.Under.bind S3Store.any_stable ((dropMarker_race hsized hs').mono
      (fun _ s₁ hs₁ => ?_) fun _ h => h)
    exact S3Store.freeIndexed_under unclaimed_stable ready_stable S3Store.any_stable
      (fun _ _ h => h) (fun _ s h => claimedSince_race h) (head_unclaimed _) delete_content_race hs₁

theorem sweepOneListed_race {survey : Survey} {complete dryRun : Bool} {entry : Entry}
    (hsized : ∀ oid key, survey.sized.lookup oid = some key →
      ∃ ns oid n, key = (Key.size ns oid n).text)
    (hentry : entry.key = (Key.marker ns oid).text) (hs : Ready s.1) :
    (S3Store.sweepOneListed keys ns survey complete dryRun entry oid).Under
      (racing provider ns pushes none) (Relies provider ns pushes none)
      (Gives provider ns pushes none) (fun _ s => Ready s.1) (fun _ => True) s := by
  rw [S3Store.sweepOneListed]
  split
  · exact Fallible.Under.pure ready_stable hs
  · rw [hentry]
    refine Fallible.Under.bind S3Store.any_stable ((dropMarker_race hsized hs).mono
      (fun _ s₁ hs₁ => ?_) fun _ h => h)
    exact S3Store.freeListed_under unclaimed_stable ready_stable S3Store.any_stable
      (fun _ _ h => h) (fun _ s h => claimedSince_race h) (head_unclaimed _) delete_content_race hs₁

theorem listing_race {under : Text} (hs : Ready s.1) :
    (keys.listing under).Under (racing provider ns pushes none) (Relies provider ns pushes none)
      (Gives provider ns pushes none)
      (fun listing s' => Ready s'.1 ∧ (∀ e ∈ listing.entries, Key.Written e.key) ∧
        (listing.entries.map Entry.key).Pairwise (· < ·)) (fun _ => True) s := by
  refine (listing_under (P := fun s => Ready s.1) (F := fun s => Ready s.1)
    (A := fun _ _ => True) (B := fun e _ => Key.Written e.key)
    ready_stable (fun _ => S3Store.any_stable) (fun _ _ _ _ h => h) ready_stable
    (fun after s answer s' hs hexec => ?_) (fun _ _ _ _ _ => ⟨fun _ h => h, fun _ h => h⟩)
    (fun _ _ _ => no_furtherPages) hs).mono (fun listing s' h => ?_) fun _ h => h
  · obtain ⟨hgives, hready⟩ := gives hs (.read (Req.reads_page under after)) hexec
    refine ⟨hgives, ?_⟩
    cases answer with
    | error e => exact hready
    | ok page =>
        refine ⟨hready, s.1, hexec.2.1.page.2 page rfl, fun _ _ _ => trivial, fun e he => ?_⟩
        obtain ⟨o, ho, -⟩ := (hexec.2.1.page.2 page rfl).stored e he
        exact hs.1.written e.key (by rw [Bucket.Has, ho]; rfl)
  · rcases h with ⟨-, hready, hlisted⟩ | ⟨-, hentries, hready⟩
    · exact ⟨hready, hlisted.present, hlisted.sorted⟩
    · refine ⟨hready, ?_, ?_⟩ <;> simp [hentries]

/-- The end of a sweep, from what it listed. -/
theorem dropped_race {retained : Finset Oid} {grace : Nat} {entries : List Entry}
    {one : Entry → Oid → Op Nat} {report : SweepReport}
    (hwritten : ∀ e ∈ entries, Key.Written e.key)
    (hsorted : (entries.map Entry.key).Pairwise (· < ·))
    (hone : ∀ entry oid s, entry.key = (Key.marker ns oid).text → Ready s.1 →
      (one entry oid).Under (racing provider ns pushes none) (Relies provider ns pushes none)
        (Gives provider ns pushes none) (fun _ s => Ready s.1) (fun _ => True) s)
    (hs : Ready s.1) :
    (do
      let dropped ← S3Store.droppable retained grace
        (Survey.of entries (S3Store.ownPrefix ns)).mine report
      S3Store.sweepEach one dropped.1 dropped.2 : Op SweepReport).Under
      (racing provider ns pushes none) (Relies provider ns pushes none)
      (Gives provider ns pushes none) (fun _ s => Ready s.1) (fun _ => True) s := by
  refine Fallible.Under.bind S3Store.any_stable ((S3Store.droppable_under
    (P := fun s => Ready s.1) ready_stable S3Store.any_stable
    (ready_triple fun _ _ => .read Req.reads_now) _ report hs).mono (fun dropped s' h => ?_)
    fun _ h => h)
  obtain ⟨hs', hsub⟩ := h
  refine S3Store.sweepEach_under (L := fun _ (s : State κ) => Ready s.1) ready_stable
    S3Store.any_stable
    dropped.1 dropped.2 (fun before entry oid rest heq s hs => ?_) hs'
  rw [heq] at hsub
  exact hone entry oid s (Survey.of_sublist_mine hwritten hsorted hsub).1 hs

theorem sweepIndexed_race {retained : Finset Oid} {grace : Nat} {dryRun : Bool}
    (hs : Ready s.1) :
    (S3Store.sweepIndexed keys ns retained grace dryRun).Under (racing provider ns pushes none)
      (Relies provider ns pushes none) (Gives provider ns pushes none) (fun _ s => Ready s.1)
      (fun _ => True) s := by
  refine Fallible.Under.bind S3Store.any_stable ((listing_race hs).mono
    (fun listing s' h => ?_) fun _ h => h)
  obtain ⟨hs', hwritten, hsorted⟩ := h
  exact dropped_race hwritten hsorted (fun entry oid s hentry hs =>
    sweepOne_race (Survey.of_lookup_sized hwritten) hentry hs) hs'

/-- Building the index again changes nothing that is relied on. -/
theorem buildIndex_race {markers : List Text} {complete dryRun : Bool}
    (hmarkers : ∀ key ∈ markers, ∃ ns oid, key = (Key.marker ns oid).text) (hs : Ready s.1) :
    (S3Store.buildIndex markers complete dryRun).Under (racing provider ns pushes none)
      (Relies provider ns pushes none) (Gives provider ns pushes none) (fun _ s => Ready s.1)
      (fun _ => True) s := by
  refine S3Store.buildIndex_under (D := fun _ s => Ready s.1) ready_stable (fun _ => ready_stable)
    (fun _ h => h) (fun n s order s' hs hexec => ?_)
    (fun done key hkey s answer s' hs hexec => ?_) (fun done hdone s answer s' hs hexec => ?_) hs
  · obtain ⟨hgives, hready⟩ := gives hs (.read (Req.reads_unordered n)) hexec
    refine ⟨hgives, ?_, hready⟩
    rcases hexec.2.1 with ⟨h, -⟩ | ⟨h, -⟩
    · exact h
    · exact h.elim
  · obtain ⟨marker, hmarker, href⟩ := List.mem_filterMap.mp hkey
    obtain ⟨ns', oid, rfl⟩ := hmarkers marker hmarker
    rw [Key.fromMarker_marker, Option.some.injEq] at href
    subst href
    obtain ⟨hgives, hready⟩ := gives hs .put_reference hexec
    refine ⟨hgives, ?_⟩
    cases answer <;> exact hready
  · exact gives hs (.put (k := .complete) (.put_complete (hs.1.reference hs.2)) (by simp)) hexec

theorem sweepWholeBucket_race {retained : Finset Oid} {grace : Nat} {dryRun : Bool}
    (hs : Ready s.1) :
    (S3Store.sweepWholeBucket keys ns retained grace dryRun).Under (racing provider ns pushes none)
      (Relies provider ns pushes none) (Gives provider ns pushes none) (fun _ s => Ready s.1)
      (fun _ => True) s := by
  refine Fallible.Under.bind S3Store.any_stable ((listing_race hs).mono
    (fun listing s' h => ?_) fun _ h => h)
  obtain ⟨hs', hwritten, hsorted⟩ := h
  refine Fallible.Under.bind S3Store.any_stable ((buildIndex_race (fun key hkey =>
    ((Survey.mem_markers hwritten key).mp hkey).2) hs').mono (fun _ s₁ hs₁ => ?_) fun _ h => h)
  exact dropped_race hwritten hsorted (fun entry oid s hentry hs =>
    sweepOneListed_race (Survey.of_lookup_sized hwritten) hentry hs) hs₁

theorem sweep_race {retained : Finset Oid} {grace : Nat} {dryRun : Bool} (hs : Ready s.1) :
    (S3Store.sweep keys ns retained grace dryRun).Under (racing provider ns pushes none)
      (Relies provider ns pushes none) (Gives provider ns pushes none) (fun _ s => Ready s.1)
      (fun _ => True) s := by
  refine Fallible.Under.bind S3Store.any_stable (found_under ready_stable
    (fun _ => Fallible.Under.stable) hs fun s answer s' hs hexec => ?_)
  obtain ⟨hgives, hready⟩ := gives hs (.read (Req.reads_head _)) hexec
  refine ⟨hgives, ?_⟩
  cases answer with
  | ok n => exact sweepIndexed_race hready
  | error e => exact sweepWholeBucket_race hready

end Sweep

/-! ## Runs -/

section Runs

variable {provider : Provider} {pages : Nat} {ns : Namespace} {retained : Finset Oid}
  {grace : Nat} {dryRun : Bool} {pushes : κ → Push} {b : Bucket}

/-- **A sweep against pushes.**  When the repository that is swept has no push of its own
in the way, and no push writes a reference after the sweep began to ask for it, every
marker has its reference and its content, in every state of every interleaving. -/
theorem race_safe (hb : Sound b) (hready : b.Has Key.complete.text)
    {pool : Pool (Option κ) Req Resp (Except Error Unit) (State κ)}
    (hsteps : Pool.Steps (racing provider ns pushes)
      (race ⟨provider, pages⟩ (.sweep ns retained grace dryRun) pushes b) pool) :
    ∀ ns' oid, pool.state.1.Has (S3Store.markerKey ns' oid) →
      pool.state.1.Has (Refs.key ns' oid) ∧ pool.state.1.Has (S3Store.contentKey oid) := by
  have hunder : (race ⟨provider, pages⟩ (.sweep ns retained grace dryRun) pushes b).Under
      (racing provider ns pushes) (Relies provider ns pushes) (Gives provider ns pushes)
      (fun _ _ _ => True) := by
    intro i
    cases i with
    | none =>
        have hsweep : (S3Store.sweep ⟨provider, pages⟩ ns retained grace dryRun).Under
            (racing provider ns pushes none) (Relies provider ns pushes none)
            (Gives provider ns pushes none) (fun _ s => Ready s.1) (fun _ => True) (b, []) :=
          sweep_race ⟨hb, hready⟩
        have hcall : ((Call.sweep ns retained grace dryRun).run ⟨provider, pages⟩).Under
            (racing provider ns pushes none) (Relies provider ns pushes none)
            (Gives provider ns pushes none) (fun _ _ => True) (fun _ => True) (b, []) :=
          Fallible.Under.bind S3Store.any_stable (hsweep.mono
            (fun _ _ _ => Fallible.Under.pure S3Store.any_stable trivial) fun _ h => h)
        exact Program.Under.mono hcall fun _ _ _ => trivial
    | some i =>
        exact Program.Under.mono (push_under (i := i) ⟨provider, pages⟩ ⟨hb, hready⟩)
          fun _ _ _ => trivial
  have hstate : Ready pool.state.1 := by
    refine Pool.Steps.invariant (I := fun s => Ready s.1) (fun i j hij s s' h => ⟨i, hij, h⟩)
      (fun i s s' h hs => ?_) hunder ⟨hb, hready⟩ hsteps
    obtain ⟨r, answer, hexec, hallowed⟩ := h
    exact hs.step hallowed.harmless hallowed.complete hexec.1
  exact fun ns' oid hmarker =>
    ⟨hstate.1.reference hstate.2 ns' oid hmarker, hstate.1.content ns' oid hmarker⟩

/-! ### A run -/

/-- Two pushes of a repository that is not swept. -/
def otherPushes (i : Bool) : Push :=
  if i then ⟨Namespace.tools, Oid.zeros, .streamed [1]⟩
  else ⟨Namespace.tools, Oid.ones, .streamed [2]⟩

def isPut : Req → Bool
  | .put _ _ => true
  | _ => false

/-- A check for `Meets`, of an object that the repository that is swept may have held. -/
def freed (oid : Oid) (key : Text) (s : State Bool) : Bool :=
  !decide (s.1.Has (S3Store.markerKey Namespace.acme oid)) &&
    (key == Refs.key Namespace.acme oid ||
      key == S3Store.contentKey oid && (since (asks oid) s.2).all fun e => !isPut e.req)

/-- A check for `Meets`, in a bucket with two objects. -/
def unclaimed : Option Bool → Req → State Bool → Bool
  | none, .delete key, s =>
      !".content/".toList.isPrefixOf key && !".refs/".toList.isPrefixOf key ||
        freed Oid.zeros key s || freed Oid.ones key s
  | _, _, _ => true

theorem idle_others {stage : Push → Event (Option Bool) Req Resp → Prop} {oid : Oid}
    {s : State Bool} (h : ¬ s.1.Has (S3Store.markerKey Namespace.acme oid)) :
    Idle Namespace.acme otherPushes stage oid s := by
  refine ⟨h, fun i hsame => ?_⟩
  cases i with
  | true => exact absurd hsame (by decide)
  | false => exact absurd hsame (by decide)

theorem undisturbed_of_freed {oid oid' : Oid} {s : State Bool}
    (h : freed oid' (S3Store.contentKey oid) s = true) :
    ¬ s.1.Has (S3Store.markerKey Namespace.acme oid) ∧ Undisturbed oid s.2 := by
  rw [freed, Bool.and_eq_true, Bool.or_eq_true, Bool.and_eq_true, beq_iff_eq, beq_iff_eq,
    Bool.not_eq_true', decide_eq_false_iff_not, List.all_eq_true] at h
  obtain ⟨hmarker, hkey | ⟨hkey, hquiet⟩⟩ := h
  · exact absurd hkey (Key.text_ne_reference (k := .content oid) (by simp) _ _)
  · obtain rfl := Key.content_eq_iff.mp hkey
    refine ⟨hmarker, fun e he ns hreq => ?_⟩
    have hnot := hquiet e he
    rw [hreq] at hnot
    cases hnot

theorem unmarked_of_freed {oid oid' : Oid} {s : State Bool}
    (h : freed oid' (Refs.key Namespace.acme oid) s = true) :
    ¬ s.1.Has (S3Store.markerKey Namespace.acme oid) := by
  rw [freed, Bool.and_eq_true, Bool.or_eq_true, Bool.and_eq_true, beq_iff_eq, beq_iff_eq,
    Bool.not_eq_true', decide_eq_false_iff_not, List.all_eq_true] at h
  obtain ⟨hmarker, hkey | ⟨hkey, -⟩⟩ := h
  · obtain ⟨-, rfl⟩ := Key.reference_eq_iff.mp hkey
    exact hmarker
  · exact absurd hkey.symm (Key.text_ne_reference (k := .content oid') (by simp) _ _)

theorem meets_of_unclaimed (i : Option Bool) (r : Req) (s : State Bool)
    (h : unclaimed i r s = true) : Meets Namespace.acme otherPushes i r s := by
  cases i with
  | some i => trivial
  | none =>
      intro oid
      constructor
      · rintro rfl
        have hstarts : ".refs/".toList.isPrefixOf (Refs.key Namespace.acme oid) = true := by
          rw [List.isPrefixOf_iff_prefix]
          exact (Key.dir_text (k := .reference Namespace.acme oid) (d := ".refs".toList)
            (by decide)).mpr rfl
        rw [unclaimed, hstarts, Bool.not_true, Bool.and_false, Bool.false_or, Bool.or_eq_true] at h
        exact idle_others (h.elim unmarked_of_freed unmarked_of_freed)
      · rintro rfl
        have hstarts : ".content/".toList.isPrefixOf (S3Store.contentKey oid) = true := by
          rw [List.isPrefixOf_iff_prefix]
          exact (Key.dir_text (k := .content oid) (d := ".content".toList) (by decide)).mpr rfl
        rw [unclaimed, hstarts, Bool.not_true, Bool.false_and, Bool.false_or, Bool.or_eq_true] at h
        obtain ⟨hmarker, hquiet⟩ := h.elim undisturbed_of_freed undisturbed_of_freed
        exact ⟨idle_others hmarker, hquiet⟩

/-- The sweep drops the one object of a repository while another repository pushes it, and frees
the other, which is pushed anew. -/
def sharedSchedule : List (Option Bool) :=
  List.replicate 7 none ++ [some true] ++ List.replicate 2 none ++ List.replicate 2 (some true) ++
    [none, some true] ++ List.replicate 9 none ++ List.replicate 5 (some false)

/-- Everyone ends, the swept repository holds nothing any more, and the other one both objects. -/
theorem race_safe_shared :
    ∃ pool, Pool.play (answering .s3 unclaimed) sharedSchedule
        (race ⟨.s3, 2⟩ (.sweep Namespace.acme ∅ 0 false) otherPushes twoObjects) = some pool ∧
      (pool.progs none).done = true ∧ (∀ i, (pool.progs (some i)).done = true) ∧
      ¬ pool.state.1.Has (Refs.key Namespace.acme Oid.zeros) ∧
      pool.state.1.Has (Refs.key Namespace.tools Oid.zeros) ∧
        pool.state.1.Has (S3Store.contentKey Oid.zeros) := by
  have hplayed : ((Pool.play (answering .s3 unclaimed) sharedSchedule
      (race ⟨.s3, 2⟩ (.sweep Namespace.acme ∅ 0 false) otherPushes twoObjects)).any fun pool =>
        (pool.progs none).done && (pool.progs (some true)).done &&
          (pool.progs (some false)).done &&
          !decide (pool.state.1.Has (Refs.key Namespace.acme Oid.zeros)) &&
          decide (pool.state.1.Has (S3Store.markerKey Namespace.tools Oid.zeros))) = true := by
    decide +kernel
  obtain ⟨pool, hplay, hcheck⟩ := (Option.any_eq_true _ _).mp hplayed
  simp only [Bool.and_eq_true, decide_eq_true_eq, Bool.not_eq_true', decide_eq_false_iff_not]
    at hcheck
  obtain ⟨⟨⟨⟨hsweep, hfirst⟩, hsecond⟩, hgone⟩, hmarker⟩ := hcheck
  have hsteps : Pool.Steps (racing .s3 Namespace.acme otherPushes)
      (race ⟨.s3, 2⟩ (.sweep Namespace.acme ∅ 0 false) otherPushes twoObjects) pool := by
    refine Pool.play_steps (fun i r s answered h => ?_) hplay
    obtain ⟨hmeets, hanswers, hlog⟩ := answering_exec meets_of_unclaimed i r s answered h
    exact ⟨hmeets, Faulty.of_answers hanswers, hlog⟩
  have hpushes : ∀ i, (pool.progs (some i)).done = true := by
    intro i
    cases i with
    | true => exact hfirst
    | false => exact hsecond
  have hready : twoObjects.Has Key.complete.text := by decide
  obtain ⟨hreference, hcontent⟩ := race_safe sound_twoObjects hready hsteps Namespace.tools
    Oid.zeros hmarker
  exact ⟨pool, hplay, hsweep, hpushes, hgone, hreference, hcontent⟩

end Runs

/-! ## A push that is lost -/

section Lost

omit [DecidableEq κ] in
/-- No push writes a reference of an object between the last time the sweep asked for it
and the delete of its content. -/
def Waits : Option κ → Req → State κ → Prop
  | some _, _, _ => True
  | none, r, s => ∀ oid, r = .delete (S3Store.contentKey oid) → Undisturbed oid s.2

/-- A check for `Waits`, in a bucket with one object. -/
def calm : Option Unit → Req → State Unit → Bool
  | none, .delete key, s =>
      !".content/".toList.isPrefixOf key ||
        (key == S3Store.contentKey Oid.zeros &&
          (since (asks Oid.zeros) s.2).all fun e => !isPut e.req)
  | _, _, _ => true

theorem waits_of_calm (i : Option Unit) (r : Req) (s : State Unit) (h : calm i r s = true) :
    Waits i r s := by
  cases i with
  | some i => trivial
  | none =>
      rintro oid rfl
      have hstarts : ".content/".toList.isPrefixOf (S3Store.contentKey oid) = true := by
        rw [List.isPrefixOf_iff_prefix]
        exact (Key.dir_text (k := .content oid) (d := ".content".toList) (by decide)).mpr rfl
      rw [calm, hstarts, Bool.not_true, Bool.false_or, Bool.and_eq_true, beq_iff_eq,
        List.all_eq_true] at h
      obtain ⟨hkey, hquiet⟩ := h
      rw [Key.content_eq_iff.mp hkey]
      intro e he ns hreq
      have hnot := hquiet e he
      rw [hreq] at hnot
      cases hnot

/-- The sweep drops the marker, its repository pushes the object again and finds the
content, the sweep deletes the reference and the content, and the push goes on. -/
def lostSchedule : List (Option Unit) :=
  List.replicate 6 none ++ List.replicate 2 (some ()) ++ List.replicate 6 none ++
    List.replicate 2 (some ())

def lostPush (_ : Unit) : Push := ⟨Namespace.acme, Oid.zeros, .streamed [1]⟩

/-- **A push of the swept repository can be lost**, though no push writes a reference
after the sweep last asked for it: a marker is left without reference and content. -/
theorem own_push_is_lost :
    ¬ ∀ (κ : Type) [DecidableEq κ] (provider : Provider) (pages : Nat) (ns : Namespace)
      (retained : Finset Oid) (grace : Nat) (dryRun : Bool) (pushes : κ → Push) (b : Bucket)
      (pool : Pool (Option κ) Req Resp (Except Error Unit) (State κ)),
      Sound b → b.Has Refs.complete →
      (∀ ns' oid, b.Has (Refs.key ns' oid) ↔ b.Has (S3Store.markerKey ns' oid)) →
      Pool.Steps (restricted Waits (recording fun _ => Answers provider))
        (race ⟨provider, pages⟩ (.sweep ns retained grace dryRun) pushes b) pool →
      pool.Finished →
      ∀ ns' oid, pool.state.1.Has (S3Store.markerKey ns' oid) →
        pool.state.1.Has (Refs.key ns' oid) ∧ pool.state.1.Has (S3Store.contentKey oid) := by
  intro hclaim
  have hrun : ((Pool.play (answering .s3 calm) lostSchedule
      (race ⟨.s3, 2⟩ (.sweep Namespace.acme ∅ 0 false) lostPush
        (holding Oid.zeros [1] [Namespace.acme]))).any fun pool =>
      (pool.progs none).done && (pool.progs (some ())).done &&
        decide (pool.state.1.Has (S3Store.markerKey Namespace.acme Oid.zeros)) &&
        !decide (pool.state.1.Has (S3Store.contentKey Oid.zeros))) = true := by
    decide +kernel
  obtain ⟨pool, hplay, hcheck⟩ := (Option.any_eq_true _ _).mp hrun
  simp only [Bool.and_eq_true, decide_eq_true_eq, Bool.not_eq_true', decide_eq_false_iff_not]
    at hcheck
  obtain ⟨⟨⟨hsweep, hpush⟩, hmarker⟩, hcontent⟩ := hcheck
  have hsteps := Pool.play_steps (answering_exec waits_of_calm) hplay
  have hfinished : pool.Finished := by
    intro i
    cases i with
    | none => exact Program.eq_pure_of_done hsweep
    | some i => exact Program.eq_pure_of_done hpush
  exact hcontent (hclaim Unit .s3 2 Namespace.acme ∅ 0 false lostPush _ pool
    (sound_holding _ _ _) (ready_holding _ _ _)
    (fun ns' oid => reference_holding.trans marker_holding.symm) hsteps hfinished
    Namespace.acme Oid.zeros hmarker).2

end Lost

end Lfsx.Storage.Race
