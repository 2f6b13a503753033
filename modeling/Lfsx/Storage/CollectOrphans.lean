import Lfsx.Request.Protocol
import Lfsx.Storage.BucketSound
import Lfsx.Storage.KeyspaceAlone
import Lfsx.Storage.Surveys

/-!
# Sweeps beside sweeps

Any number of sweeps, each of a repository of its own, request by request, with no push beside
them.  Before a sweep drops its marker of an object it asks the index whether another repository
claims the object, and if one does it leaves the content there.  So two sweeps that drop the last
two markers can both ask before either has deleted its reference: each sees the claim of the
other, and neither deletes the content (`content_is_orphaned`).

What it takes is that a sweep that was told of a claim still has one to rely on when it comes to
delete its own reference: no other sweep deletes the last one before (`Meets`).  Then what has no
marker left has no content left either, once all sweeps have returned (`orphans_freed`).
-/

namespace Lfsx.Storage

open Request

/-! ## Listings and protocols -/

namespace Keyspace

section

variable {σ : Type} {P : Protocol Req Resp σ} {under : Text}
  {asked : List Entry → Option Text → σ} {Q : Except Error (List Entry) → σ → Prop}

/-- What a protocol has of a listing: the phase in which some entries were listed up to a key, and
what the last page or an error leads to. -/
structure Lists (P : Protocol Req Resp σ) (under : Text) (asked : List Entry → Option Text → σ)
    (Q : Except Error (List Entry) → σ → Prop) : Prop where
  page : ∀ before after, P.may (asked before after) (.page under after)
  more : ∀ before after entries token,
    P.next (asked before after) (.page under after) (.ok (entries, some token)) =
      asked (before ++ entries) (some token)
  last : ∀ before after entries, Q (.ok (before ++ entries))
    (P.next (asked before after) (.page under after) (.ok (entries, none)))
  error : ∀ before after e,
    Q (.error e) (P.next (asked before after) (.page under after) (.error e))
  further : ∀ before after, P.may (asked before after) .furtherPages
  endless : ∀ before after given answer, Q answer (P.next (asked before after) .furtherPages given)

theorem Lists.entriesFrom (h : Lists P under asked Q) (pages : Nat) (before : List Entry)
    (after : Option Text) : (entriesFrom pages under after).Follows P
      (fun answer phase => Q (answer.map (before ++ ·)) phase) (asked before after) := by
  induction pages generalizing before after with
  | zero => exact Fallible.Follows.ask (h.further before after) fun given => h.endless _ _ _ _
  | succ pages ih =>
      refine Fallible.Follows.bind (R := fun answer phase => match answer with
          | .ok (entries, some token) => phase = asked (before ++ entries) (some token)
          | .ok (entries, none) => Q (.ok (before ++ entries)) phase
          | .error e => Q (.error e) phase)
        (Fallible.Follows.ask (h.page before after) fun answer => ?_) ?_ fun _ _ herror => herror
      · match answer with
        | .ok (entries, some token) => exact h.more before after entries token
        | .ok (entries, none) => exact h.last before after entries
        | .error e => exact h.error before after e
      · rintro ⟨entries, token⟩ phase hpage
        match token with
        | none => exact hpage
        | some token =>
            obtain rfl := hpage
            refine Fallible.Follows.bind (ih (before ++ entries) (some token)) ?_
              fun _ _ herror => herror
            intro rest phase hrest
            rw [Except.map, List.append_assoc] at hrest
            exact hrest

theorem Lists.entries {keys : Keyspace} (h : Lists P under asked Q) :
    (keys.entries under).Follows P Q (asked [] none) := by
  refine Program.Follows.mono (h.entriesFrom keys.pages [] none) fun answer phase hanswer => ?_
  cases answer with
  | ok entries => exact hanswer
  | error e => exact hanswer

theorem Lists.listing {keys : Keyspace} {C : Listing → σ → Prop} (h : Lists P under asked Q)
    (hok : ∀ entries phase, Q (.ok entries) phase → C ⟨entries, true⟩ phase)
    (herror : ∀ e phase, Q (.error e) phase → C ⟨[], false⟩ phase) :
    (keys.listing under).Follows P (fun answer phase => ∃ listing, answer = .ok listing ∧
      C listing phase) (asked [] none) := by
  refine Fallible.Follows.attempt h.entries fun answer phase hanswer => ?_
  cases answer with
  | ok entries => exact ⟨_, rfl, hok entries phase hanswer⟩
  | error e => exact ⟨_, rfl, herror e phase hanswer⟩

/-- A question to the index: a listing that failed counts as yes. -/
theorem Lists.claimedByAnother {keys : Keyspace} {ns : Namespace} {oid : Oid} {C : Bool → σ → Prop}
    (h : Lists P (Refs.keyPrefix oid) asked Q)
    (hok : ∀ entries phase, Q (.ok entries) phase →
      C (entries.any fun e => e.key != Refs.key ns oid) phase)
    (herror : ∀ e phase, Q (.error e) phase → C true phase) :
    (Refs.claimedByAnother keys ns oid).Follows P
      (fun answer phase => ∃ claimed, answer = .ok claimed ∧ C claimed phase) (asked [] none) := by
  refine Fallible.Follows.attempt (R := fun answer phase =>
      (∀ listed, answer = .ok listed →
        C (listed.any fun holder => holder != Refs.key ns oid) phase) ∧
      ∀ e, answer = .error e → C true phase)
    (Fallible.Follows.bind h.entries ?_ ?_) fun answer phase hanswer => ?_
  · intro entries phase hentries
    refine Fallible.Follows.pure ⟨?_, fun e heq => by cases heq⟩
    rintro listed heq
    cases heq
    rw [List.any_map]
    exact hok entries phase hentries
  · exact fun e phase h => ⟨fun listed heq => (by cases heq), fun _ _ => herror e phase h⟩
  · cases answer with
    | ok listed => exact ⟨_, rfl, hanswer.1 listed rfl⟩
    | error e => exact ⟨_, rfl, hanswer.2 e rfl⟩

/-- A delete, which on S3 looks first. -/
theorem delete_follows {keys : Keyspace} {key : Text} {phase : σ}
    (hhead : P.may phase (.head key) ∧ ∀ answer, P.next phase (.head key) answer = phase)
    (hmay : P.may phase (.delete key)) :
    (keys.delete key).Follows P
      (fun _ phase' => ∃ answer, phase' = P.next phase (.delete key) answer) phase := by
  have hdelete : (Fallible.ask (.delete key) rfl : Op Bool).Follows P
      (fun _ phase' => ∃ answer, phase' = P.next phase (.delete key) answer) phase :=
    Fallible.Follows.ask hmay fun answer => ⟨answer, rfl⟩
  rw [delete]
  cases keys.provider with
  | azure => exact hdelete
  | gcs => exact hdelete
  | s3 =>
      refine Fallible.Follows.bind
        (R := fun answer phase' => (∃ a, answer = .ok a) ∧ phase' = phase)
        (Fallible.Follows.attempt (R := fun _ phase' => phase' = phase)
          (Fallible.Follows.ask hhead.1 hhead.2) ?_) ?_ ?_
      · rintro answer _ rfl
        cases answer with
        | ok n => exact ⟨⟨true, rfl⟩, rfl⟩
        | error e => exact ⟨⟨false, rfl⟩, rfl⟩
      · rintro existed _ ⟨-, rfl⟩
        exact Fallible.Follows.bind hdelete (fun _ _ h => h) fun _ _ h => h
      · rintro e _ ⟨⟨a, ha⟩, -⟩
        cases ha

end

end Keyspace

namespace Orphans

open Keyspace

/-! ## How far a sweep is with an object -/

/-- How far a sweep is with one object. -/
inductive Stage where
  | starting
  /-- The index was listed up to a key, or not at all, and showed another claim or none yet. -/
  | asking (claimed : Bool) (after : Option Text)
  | told (claimed : Bool)
  /-- The marker is gone. -/
  | unmarked (claimed : Bool)
  /-- The reference is gone, there was no other claim, and the index is asked once more. -/
  | freeing (claimed : Bool)
  | deleting
  /-- The index is not complete, or a listing does not end. -/
  | off
deriving DecidableEq

/-- Nothing is under way. -/
def Stage.rest : Stage := .asking false none

/-- Does a page show another claim? -/
def shows (ns : Namespace) (oid : Oid) (entries : List Entry) : Bool :=
  entries.any fun e => e.key != Refs.key ns oid

section

variable (ns : Namespace) (oid : Oid)

def Stage.next : Stage → (r : Req) → Resp r → Stage
  | _, .furtherPages, _ => .off
  | .starting, .head _, .ok _ => .rest
  | .starting, .head _, .error _ => .off
  | .asking claimed after, .page under _, answer =>
      if under = Refs.keyPrefix oid then
        match answer with
        | .ok (entries, some token) => .asking (claimed || shows ns oid entries) (some token)
        | .ok (entries, none) => .told (claimed || shows ns oid entries)
        | .error _ => .told true
      else .asking claimed after
  | .told claimed, .delete _, _ => .unmarked claimed
  | .unmarked claimed, .delete _, _ => if claimed then .rest else .freeing false
  | .freeing claimed, .page _ _, .ok (entries, some _) => .freeing (claimed || shows ns oid entries)
  | .freeing claimed, .page _ _, .ok (entries, none) =>
      if claimed || shows ns oid entries then .rest else .deleting
  | .freeing _, .page _ _, .error _ => .rest
  | .deleting, .delete _, _ => .rest
  | stage, _, _ => stage

/-- A key that the object or the index depends on, other than a marker. -/
def Backs (key : Text) : Prop :=
  Refs.keyPrefix oid <+: key ∨ key = S3Store.contentKey oid ∨ key = Refs.complete

/-- What may be deleted. -/
def Stage.MayDelete (key : Text) : Stage → Prop
  | .told _ => ¬ Backs oid key ∧ ∀ ns', key = S3Store.markerKey ns' oid → ns'.Same ns
  | .unmarked _ => key = Refs.key ns oid
  | .deleting => key = S3Store.contentKey oid
  | _ => ¬ Backs oid key ∧ ∀ ns', key ≠ S3Store.markerKey ns' oid

/-- What a sweep of a repository may ask in a stage. -/
structure Stage.May (stage : Stage) (r : Req) : Prop where
  puts : ∀ key, ¬ r.Puts key
  deletes : ∀ key, r = .delete key → stage.MayDelete ns oid key
  head : stage = .starting → r = .head Refs.complete
  page : ∀ claimed after after', stage = .asking claimed after →
    r = .page (Refs.keyPrefix oid) after' → after' = after
  pageAgain : ∀ claimed under after, stage = .freeing claimed → r = .page under after →
    under = Refs.keyPrefix oid

/-- A sweep with an index: whatever it does without one is not looked at. -/
def sweeping : Protocol Req Resp Stage where
  first := .starting
  may stage r := stage = .off ∨ stage.May ns oid r
  next := Stage.next ns oid

end

/-! ## A sweep keeps to it -/

section

variable {ns : Namespace} {oid : Oid} {keys : Keyspace} {stage : Stage} {key : Text}

theorem off_follows {α : Type} (op : Op α) :
    op.Follows (sweeping ns oid) (fun _ stage => stage = .off) .off := by
  have honly : ∀ {β : Type} (p : Program Req Resp β), p.Only (fun _ => True) (fun _ _ => True)
      fun _ => True := by
    intro β p
    induction p with
    | pure a => trivial
    | request r next ih => exact ⟨trivial, fun answer _ => ih answer⟩
  have hoff : op.Follows (sweeping ns oid) (fun _ stage => True ∧ stage = .off) .off := by
    refine Program.Only.follows (honly op.run) fun r _ => ⟨Or.inl rfl, fun answer => ?_⟩
    cases r <;> rfl
  exact Program.Follows.mono hoff fun _ _ h => h.2

/-- What is asked next if the listings end. -/
theorem bind_follows {α β : Type} {op : Op α} {f : α → Op β} {R : Except Error α → Stage → Prop}
    {Q : Except Error β → Stage → Prop}
    (h : op.Follows (sweeping ns oid) (fun answer stage => stage = .off ∨ R answer stage) stage)
    (hok : ∀ a stage, R (.ok a) stage →
      (f a).Follows (sweeping ns oid) (fun answer stage => stage = .off ∨ Q answer stage) stage)
    (herror : ∀ e stage, R (.error e) stage → Q (.error e) stage) :
    (op >>= f).Follows (sweeping ns oid) (fun answer stage => stage = .off ∨ Q answer stage)
      stage := by
  refine Fallible.Follows.bind h ?_ ?_
  · rintro a stage (rfl | ha)
    · exact Program.Follows.mono (off_follows (f a)) fun _ _ h => Or.inl h
    · exact hok a stage ha
  · exact fun e stage he => he.imp_right (herror e stage)

/-! ### Keys -/

theorem not_backs_of_filed (h : Survey.Filed key) : ¬ Backs oid key := by
  obtain ⟨hcontent, hskipped⟩ := h
  rintro (hunder | rfl | rfl)
  · have hrefs : ".refs/".toList.isPrefixOf key = true := by
      rw [List.isPrefixOf_iff_prefix]
      refine List.IsPrefix.trans ?_ hunder
      rw [Refs.keyPrefix, Path.under_cons]
      exact ⟨Path.under [oid.text], rfl⟩
    rw [List.any_eq_false] at hskipped
    exact hskipped _ (by decide) hrefs
  · have hdir := Survey.isContent_text (k := .content oid)
    exact Bool.false_ne_true (hcontent.symm.trans (hdir.mpr rfl))
  · have hdir := Survey.notMarkers_text (k := .complete)
    exact Bool.false_ne_true (hskipped.symm.trans (hdir.mpr (Or.inr (Or.inr (Or.inl rfl)))))

theorem marker_of_marks {oid' : Oid} {ns' : Namespace}
    (h : Survey.Marks (S3Store.ownPrefix ns) key oid') (hkey : key = S3Store.markerKey ns' oid) :
    ns'.Same ns ∧ oid' = oid := by
  subst hkey
  have hown : (S3Store.ownPrefix ns).isPrefixOf (Key.marker ns' oid).text = true := h.own
  have hnames : markerOid (Key.marker ns' oid).text = some oid' := h.names
  rw [Survey.ownPrefix_marker, decide_eq_true_eq] at hown
  rw [Key.markerOid_marker, Option.some.injEq] at hnames
  exact ⟨hown, hnames.symm⟩

/-- A key that the object does not depend on. -/
def Other (oid : Oid) (key : Text) : Prop := ¬ Backs oid key ∧ ∀ ns, key ≠ S3Store.markerKey ns oid

theorem other_of_marks {oid' : Oid} (h : Survey.Marks (S3Store.ownPrefix ns) key oid')
    (hne : oid' ≠ oid) : Other oid key :=
  ⟨not_backs_of_filed h.filed, fun _ hkey => hne (marker_of_marks h hkey).2⟩

theorem other_of_size (hfiled : Survey.Filed key) (hone : Sizes.isOne key = true) :
    Other oid key := by
  refine ⟨not_backs_of_filed hfiled, fun ns hkey => ?_⟩
  subst hkey
  exact Bool.false_ne_true ((Key.isOne_marker ns oid).symm.trans hone)

/-- A key of the server is another one if it is none of these. -/
theorem other_of_key {k : Key} (hreference : ∀ ns, k ≠ .reference ns oid)
    (hcontent : k ≠ .content oid) (hcomplete : k ≠ .complete)
    (hmarker : ∀ ns, k ≠ .marker ns oid) : Other oid k.text := by
  refine ⟨?_, fun ns hkey => ?_⟩
  · rintro (hunder | hkey | hkey)
    · obtain ⟨ns, hk⟩ := Key.keyPrefix_text.mp hunder
      exact hreference ns hk
    · exact hcontent (Key.eq_content hkey)
    · exact hcomplete (Key.eq_complete hkey)
  · obtain ⟨ns', hk, -⟩ := Key.eq_marker hkey
    exact hmarker ns' hk

theorem keyPrefix_ne {oid' : Oid} (hne : oid' ≠ oid) :
    Refs.keyPrefix oid' ≠ Refs.keyPrefix oid := by
  intro heq
  have hunder : Refs.keyPrefix oid <+: (Key.reference Namespace.acme oid).text :=
    Key.keyPrefix_text.mpr ⟨Namespace.acme, rfl⟩
  rw [← heq] at hunder
  obtain ⟨ns, hk⟩ := Key.keyPrefix_text.mp hunder
  cases hk
  exact hne rfl

theorem ownPrefix_ne : S3Store.ownPrefix ns ≠ Refs.keyPrefix oid := by
  intro heq
  have hunder : S3Store.ownPrefix ns <+: (Key.reference ns oid).text := by
    rw [heq]
    exact Key.keyPrefix_text.mpr ⟨ns, rfl⟩
  obtain ⟨ns', -, ⟨_, hk⟩ | ⟨_, _, hk⟩⟩ := Key.ownPrefix_text.mp hunder
  · cases hk
  · cases hk

/-! ### Requests -/

theorem head_follows (hstage : stage ≠ .starting) (key : Text) :
    (sweeping ns oid).may stage (.head key) ∧
      ∀ answer, (sweeping ns oid).next stage (.head key) answer = stage := by
  refine ⟨Or.inr ⟨nofun, nofun, fun h => absurd h hstage, nofun, nofun⟩, fun answer => ?_⟩
  cases stage <;> first | rfl | exact absurd rfl hstage

theorem now_follows (hstage : stage ≠ .starting) : (sweeping ns oid).may stage .now ∧
    ∀ answer, (sweeping ns oid).next stage .now answer = stage := by
  refine ⟨Or.inr ⟨nofun, nofun, fun h => absurd h hstage, nofun, nofun⟩, fun answer => ?_⟩
  cases stage <;> rfl

/-- A delete that the stage allows. -/
theorem deleted_follows (hstage : stage ≠ .starting) (hmay : stage.MayDelete ns oid key) :
    (keys.delete key).Follows (sweeping ns oid)
      (fun _ stage' => ∃ answer, stage' = stage.next ns oid (.delete key) answer) stage := by
  refine delete_follows (head_follows hstage key) (Or.inr ⟨nofun, ?_,
    fun h => absurd h hstage, nofun, nofun⟩)
  rintro key' ⟨⟩
  exact hmay

/-- A listing that is not of the index of the object. -/
theorem lists_other {under : Text} (hne : under ≠ Refs.keyPrefix oid) :
    Lists (sweeping ns oid) under (fun _ _ => .rest)
      fun _ stage => stage = .off ∨ stage = .rest where
  page before after := by
    refine Or.inr ⟨nofun, nofun, nofun, fun claimed token after' _ hpage => ?_, nofun⟩
    rw [Req.page.injEq] at hpage
    exact absurd hpage.1 hne
  more before after entries token := if_neg hne
  last before after entries := Or.inr (if_neg hne)
  error before after e := Or.inr (if_neg hne)
  further before after := Or.inr ⟨nofun, nofun, nofun, nofun, nofun⟩
  endless before after given answer := Or.inl rfl

theorem shows_append (before entries : List Entry) :
    shows ns oid (before ++ entries) = (shows ns oid before || shows ns oid entries) :=
  List.any_append

/-- The first question. -/
theorem lists_asking : Lists (sweeping ns oid) (Refs.keyPrefix oid)
    (fun before after => .asking (shows ns oid before) after)
    fun answer stage => stage = .off ∨ match answer with
      | .ok entries => stage = .told (shows ns oid entries)
      | .error _ => stage = .told true where
  page before after := by
    refine Or.inr ⟨nofun, nofun, nofun, fun claimed token after' hstage hpage => ?_, nofun⟩
    rw [Req.page.injEq] at hpage
    rw [Stage.asking.injEq] at hstage
    exact hpage.2.symm.trans hstage.2
  more before after entries token := by
    rw [shows_append]
    exact if_pos rfl
  last before after entries := by
    refine Or.inr ?_
    dsimp only
    rw [shows_append]
    exact if_pos rfl
  error before after e := Or.inr (if_pos rfl)
  further before after := Or.inr ⟨nofun, nofun, nofun, nofun, nofun⟩
  endless before after given answer := Or.inl rfl

/-- The last question. -/
theorem lists_freeing : Lists (sweeping ns oid) (Refs.keyPrefix oid)
    (fun before _ => .freeing (shows ns oid before))
    fun answer stage => stage = .off ∨ match answer with
      | .ok entries => stage = if shows ns oid entries then .rest else .deleting
      | .error _ => stage = .rest where
  page before after := by
    refine Or.inr ⟨nofun, nofun, nofun, nofun, fun claimed under token _ hpage => ?_⟩
    rw [Req.page.injEq] at hpage
    exact hpage.1.symm
  more before after entries token := by
    rw [shows_append]
    rfl
  last before after entries := by
    refine Or.inr ?_
    dsimp only
    rw [shows_append]
    rfl
  error before after e := Or.inr rfl
  further before after := Or.inr ⟨nofun, nofun, nofun, nofun, nofun⟩
  endless before after given answer := Or.inl rfl

/-! ### Operations -/

theorem rest_ne : Stage.rest ≠ .starting := nofun

/-- What comes back to rest if it succeeds. -/
abbrev Rests {α : Type} (ns : Namespace) (oid : Oid) (op : Op α) (stage : Stage) : Prop :=
  op.Follows (sweeping ns oid)
    (fun answer stage => stage = .off ∨ ∀ a, answer = .ok a → stage = .rest) stage

theorem rests_pure {α : Type} (a : α) : Rests ns oid (pure a) .rest :=
  Fallible.Follows.pure (Or.inr fun _ _ => rfl)

theorem Rests.bind {α β : Type} {op : Op α} {f : α → Op β} (h : Rests ns oid op stage)
    (hf : ∀ a, Rests ns oid (f a) .rest) : Rests ns oid (op >>= f) stage := by
  refine bind_follows h (fun a stage ha => ?_) fun e _ _ _ h => by cases h
  rw [ha a rfl]
  exact hf a

/-- An operation that looks and stays where it is. -/
theorem sizeOrZero_follows {oid' : Oid} (hstage : stage ≠ .starting) :
    (S3Store.sizeOrZero oid').Follows (sweeping ns oid)
      (fun answer stage' => (∃ n, answer = .ok n) ∧ stage' = stage) stage := by
  have hhead : (sweeping ns oid).may stage (.head (S3Store.contentKey oid')) ∧ ∀ answer,
      (sweeping ns oid).next stage (.head (S3Store.contentKey oid')) answer = stage :=
    head_follows hstage _
  refine Fallible.Follows.attempt (R := fun _ stage' => stage' = stage)
    (Fallible.Follows.ask hhead.1 hhead.2) ?_
  rintro answer _ rfl
  cases answer with
  | ok n => exact ⟨⟨n, rfl⟩, rfl⟩
  | error e => exact ⟨⟨0, rfl⟩, rfl⟩

/-- A delete of a key that the object does not depend on, whose failure is only logged. -/
theorem dropSize_follows {sized : AList fun _ : Oid => Text} {oid' : Oid}
    (hstage : stage = .rest ∨ stage = .freeing false)
    (hsized : ∀ oid key, sized.lookup oid = some key → Survey.Filed key ∧ Sizes.isOne key = true) :
    (S3Store.dropSize keys sized oid').Follows (sweeping ns oid) (fun _ stage' => stage' = stage)
      stage := by
  rw [S3Store.dropSize]
  cases hkey : sized.lookup oid' with
  | none => rfl
  | some key =>
      obtain ⟨hfiled, hone⟩ := hsized oid' key hkey
      have hother : Other oid key := other_of_size hfiled hone
      have hne : stage ≠ .starting := by
        rintro rfl
        rcases hstage with h | h <;> cases h
      have hmay : stage.MayDelete ns oid key := by
        rcases hstage with rfl | rfl <;> exact hother
      refine Fallible.Follows.attempt (deleted_follows hne hmay) ?_
      rintro _ _ ⟨given, rfl⟩
      refine Fallible.Follows.pure ?_
      rcases hstage with rfl | rfl <;> rfl

theorem other_reference {oid' : Oid} (hne : oid' ≠ oid) (ns : Namespace) :
    Other oid (Refs.key ns oid') :=
  other_of_key (k := .reference ns oid') (fun _ h => by cases h; exact hne rfl) nofun nofun
    fun _ => nofun

theorem other_content {oid' : Oid} (hne : oid' ≠ oid) : Other oid (S3Store.contentKey oid') :=
  other_of_key (k := .content oid') (fun _ => nofun) (fun h => by cases h; exact hne rfl) nofun
    fun _ => nofun

/-- What a sweep does with another object. -/
theorem sweepOther_rests {sized : AList fun _ : Oid => Text} {entry : Entry} {oid' : Oid}
    (hne : oid' ≠ oid) (hentry : Survey.Marks (S3Store.ownPrefix ns) entry.key oid')
    (hsized : ∀ oid key, sized.lookup oid = some key → Survey.Filed key ∧ Sizes.isOne key = true) :
    Rests ns oid (S3Store.sweepOne keys ns sized false entry oid') .rest := by
  have hquestion : Rests ns oid (Refs.claimedByAnother keys ns oid') .rest := by
    refine Program.Follows.mono ((lists_other (keyPrefix_ne hne)).claimedByAnother
      (C := fun _ stage => stage = .off ∨ stage = .rest) (fun _ _ h => h) fun _ _ h => h) ?_
    rintro _ stage ⟨claimed, rfl, rfl | rfl⟩
    · exact Or.inl rfl
    · exact Or.inr fun _ _ => rfl
  have hdelete : ∀ key, Other oid key → Rests ns oid (keys.delete key) .rest := by
    intro key hother
    refine Program.Follows.mono (deleted_follows rest_ne hother) ?_
    rintro answer _ ⟨given, rfl⟩
    exact Or.inr fun _ _ => rfl
  refine hquestion.bind fun claimed => Rests.bind ?_ fun _ => ?_
  · refine (hdelete _ (other_of_marks hentry hne)).bind fun _ => ?_
    refine Fallible.Follows.attempt (deleted_follows rest_ne (other_reference hne ns)) ?_
    rintro _ _ ⟨given, rfl⟩
    refine Program.Follows.mono (dropSize_follows (Or.inl rfl) hsized) ?_
    rintro _ _ rfl
    exact Or.inr fun _ _ => rfl
  · rw [S3Store.freeIndexed]
    split
    · refine hquestion.bind fun claimed => ?_
      split
      · exact rests_pure _
      · refine Rests.bind (Program.Follows.mono (sizeOrZero_follows rest_ne) ?_) fun size => ?_
        · rintro _ _ ⟨-, rfl⟩
          exact Or.inr fun _ _ => rfl
        · refine (hdelete _ (other_content hne)).bind fun existed => ?_
          split <;> exact rests_pure _
    · exact rests_pure _

/-- The marker and the reference go, and it is known whether another repository claims the
object. -/
theorem dropMarker_follows {sized : AList fun _ : Oid => Text} {claimed : Bool}
    (hkey : Survey.Marks (S3Store.ownPrefix ns) key oid)
    (hsized : ∀ oid key, sized.lookup oid = some key → Survey.Filed key ∧ Sizes.isOne key = true) :
    (S3Store.dropMarker keys ns oid key sized).Follows (sweeping ns oid)
      (fun answer stage => stage = .off ∨
        ∀ a, answer = .ok a → stage = if claimed then .rest else .freeing false)
      (.told claimed) := by
  have htold : Stage.told claimed ≠ .starting := nofun
  have hunmarked : Stage.unmarked claimed ≠ .starting := nofun
  have hmay : (Stage.told claimed).MayDelete ns oid key :=
    ⟨not_backs_of_filed hkey.filed, fun ns' hmarker => (marker_of_marks hkey hmarker).1⟩
  refine bind_follows (R := fun _ stage => stage = .unmarked claimed)
    (Program.Follows.mono (deleted_follows htold hmay) ?_) ?_ ?_
  · rintro _ _ ⟨given, rfl⟩
    exact Or.inr rfl
  · rintro _ _ rfl
    refine Fallible.Follows.attempt (deleted_follows hunmarked rfl) ?_
    rintro _ _ ⟨given, rfl⟩
    refine Program.Follows.mono (dropSize_follows ?_ hsized) ?_
    · cases claimed
      · exact Or.inr rfl
      · exact Or.inl rfl
    · rintro _ _ rfl
      exact Or.inr fun _ _ => rfl
  · rintro e _ rfl a ⟨⟩

/-- **What a sweep does with the object.** -/
theorem sweepOne_rests {sized : AList fun _ : Oid => Text} {entry : Entry}
    (hentry : Survey.Marks (S3Store.ownPrefix ns) entry.key oid)
    (hsized : ∀ oid key, sized.lookup oid = some key → Survey.Filed key ∧ Sizes.isOne key = true) :
    Rests ns oid (S3Store.sweepOne keys ns sized false entry oid) .rest := by
  refine bind_follows (R := fun answer stage => ∃ claimed, answer = .ok claimed ∧
      stage = .told claimed) (Program.Follows.mono (lists_asking.claimedByAnother
    (C := fun claimed stage => stage = .off ∨ stage = .told claimed) (fun _ _ h => h)
      fun _ _ h => h) ?_) ?_ ?_
  · rintro _ stage ⟨claimed, rfl, rfl | rfl⟩
    · exact Or.inl rfl
    · exact Or.inr ⟨claimed, rfl, rfl⟩
  · rintro claimed _ ⟨_, heq, rfl⟩
    obtain rfl := Except.ok.inj heq
    refine bind_follows (dropMarker_follows hentry hsized) ?_ fun e _ _ _ h => by cases h
    intro _ stage hstage
    rw [hstage () rfl, S3Store.freeIndexed]
    cases claimed with
    | true => exact rests_pure _
    | false =>
        refine bind_follows (R := fun answer stage => ∃ claimed, answer = .ok claimed ∧
            stage = if claimed then .rest else .deleting)
          (Program.Follows.mono (lists_freeing.claimedByAnother
            (C := fun claimed stage => stage = .off ∨ stage = if claimed then .rest else .deleting)
            (fun _ _ h => h) fun _ _ h => h) ?_) ?_ ?_
        · rintro _ stage ⟨claimed, rfl, rfl | rfl⟩
          · exact Or.inl rfl
          · exact Or.inr ⟨claimed, rfl, rfl⟩
        · rintro claimed _ ⟨_, heq, rfl⟩
          obtain rfl := Except.ok.inj heq
          cases claimed with
          | true => exact rests_pure _
          | false =>
              have hdeleting : Stage.deleting ≠ .starting := nofun
              refine bind_follows (R := fun _ stage => stage = .deleting)
                (Program.Follows.mono (sizeOrZero_follows hdeleting) fun _ _ h => Or.inr h.2) ?_ ?_
              · rintro size _ rfl
                refine Rests.bind (Program.Follows.mono (deleted_follows hdeleting rfl) ?_) ?_
                · rintro _ _ ⟨given, rfl⟩
                  exact Or.inr fun _ _ => rfl
                · intro existed
                  cases existed <;> exact rests_pure _
              · rintro e _ _ a ⟨⟩
        · rintro e _ ⟨claimed, heq, -⟩
          cases heq
  · rintro e _ ⟨claimed, heq, -⟩
    cases heq

theorem sweepEach_rests {one : Entry → Oid → Op Nat} (dropped : List (Entry × Oid))
    (report : SweepReport) (hone : ∀ p ∈ dropped, Rests ns oid (one p.1 p.2) .rest) :
    Rests ns oid (S3Store.sweepEach one dropped report) .rest := by
  induction dropped generalizing report with
  | nil => exact rests_pure _
  | cons p rest ih =>
      obtain ⟨hp, hrest⟩ := List.forall_mem_cons.mp hone
      exact hp.bind fun freed => ih _ hrest

theorem droppable_only {retained : Finset Oid} {grace : Nat} {mine : List (Entry × Oid)}
    (markers : List (Entry × Oid)) (report : SweepReport) (h : ∀ p ∈ markers, p ∈ mine) :
    (S3Store.droppable retained grace markers report).Only (· = .now) (fun _ _ => True)
      fun dropped => ∀ p ∈ dropped.1, p ∈ mine := by
  induction markers generalizing report with
  | nil => exact Fallible.Only.pure fun _ hp => absurd hp List.not_mem_nil
  | cons p rest ih =>
      obtain ⟨entry, oid'⟩ := p
      obtain ⟨hp, hrest⟩ := List.forall_mem_cons.mp h
      rw [S3Store.droppable]
      split
      · exact ih _ hrest
      · refine Fallible.Only.bind (Q := fun _ => True) ?_ fun age _ => ?_
        · refine Fallible.Only.certain rfl fun now _ => ?_
          split
          · exact Fallible.Only.pure trivial
          · split <;> exact Fallible.Only.pure trivial
        · split
          · exact ih _ hrest
          · refine Fallible.Only.bind (ih _ hrest) fun dropped hdropped => ?_
            exact Fallible.Only.pure (List.forall_mem_cons.mpr ⟨hp, hdropped⟩)

/-- A sweep that lists and drops. -/
theorem sweepIndexed_rests {retained : Finset Oid} {grace : Nat} :
    Rests ns oid (S3Store.sweepIndexed keys ns retained grace false) .rest := by
  refine bind_follows (R := fun _ stage => stage = .rest) (Program.Follows.mono
    ((lists_other ownPrefix_ne).listing (C := fun _ stage => stage = .off ∨ stage = .rest)
      (fun _ _ h => h) fun _ _ h => h) ?_) ?_ ?_
  · rintro _ stage ⟨listing, rfl, h⟩
    exact h
  · rintro listing _ rfl
    obtain ⟨hmine, hsized⟩ := Survey.of_adds listing.entries (S3Store.ownPrefix ns)
    refine Fallible.Follows.bind (Program.Only.follows (droppable_only _ _ fun _ hp => hp) ?_) ?_ ?_
    · rintro r rfl
      exact now_follows rest_ne
    · rintro dropped _ ⟨hsub, rfl⟩
      refine sweepEach_rests dropped.1 dropped.2 fun p hp => ?_
      have hmarks := hmine p (hsub dropped rfl p hp)
      by_cases hoid : p.2 = oid
      · rw [hoid] at hmarks ⊢
        exact sweepOne_rests hmarks hsized
      · exact sweepOther_rests hoid hmarks hsized
    · exact fun e _ _ => Or.inr fun a ha => by cases ha
  · rintro e _ rfl a ⟨⟩

/-- **A sweep** keeps to the stages. -/
theorem sweep_follows {retained : Finset Oid} {grace : Nat} :
    ((Call.sweep ns retained grace false).run keys).Follows (sweeping ns oid)
      (fun answer stage => stage = .off ∨ ∀ a, answer = .ok a → stage = .rest) .starting := by
  have hsweep : Rests ns oid (S3Store.sweep keys ns retained grace false) .starting := by
    refine bind_follows (R := fun answer stage => answer = .ok true ∧ stage = .rest)
      (Fallible.Follows.attempt (R := fun answer stage =>
        (∀ n, answer = .ok n → stage = .rest) ∧ ∀ e, answer = .error e → stage = .off)
        (Fallible.Follows.ask ?_ fun answer => ⟨?_, ?_⟩) ?_) ?_ ?_
    · exact Or.inr ⟨fun _ heq => (by cases heq), fun _ heq => (by cases heq), fun _ => rfl,
        fun _ _ _ heq => (by cases heq), fun _ _ _ heq => (by cases heq)⟩
    · rintro n rfl
      rfl
    · rintro e rfl
      rfl
    · intro answer stage h
      cases answer with
      | ok n => exact Or.inr ⟨rfl, h.1 n rfl⟩
      | error e => exact Or.inl (h.2 e rfl)
    · rintro _ _ ⟨heq, rfl⟩
      obtain rfl := Except.ok.inj heq
      exact sweepIndexed_rests
    · rintro e _ ⟨heq, -⟩
      cases heq
  exact hsweep.bind fun report => rests_pure _

end

/-! ## Runs -/

structure Sweep where
  ns : Namespace
  retained : Finset Oid
  grace : Nat

def Sweep.call (sweep : Sweep) : Call := .sweep sweep.ns sweep.retained sweep.grace false

abbrev State (κ : Type) := Bucket × Log κ Req Resp

def start {κ : Type} (keys : Keyspace) (sweeps : κ → Sweep) (b : Bucket) :
    Pool κ Req Resp (Except Error Unit) (State κ) where
  progs i := ((sweeps i).call.run keys).run
  state := (b, [])

/-- References mirror markers. -/
def Mirrored (b : Bucket) : Prop :=
  ∀ oid key, Refs.keyPrefix oid <+: key →
    (b.Has key ↔ ∃ ns, key = Refs.key ns oid ∧ b.Has (S3Store.markerKey ns oid))

/-- The sweep was told that another repository claims the object, and has its own reference yet. -/
def Stage.counts : Stage → Bool
  | .asking claimed _ => claimed
  | .told claimed => claimed
  | .unmarked claimed => claimed
  | _ => false

section

variable {κ : Type} [DecidableEq κ] (sweeps : κ → Sweep)

def stage (oid : Oid) (i : κ) (past : Log κ Req Resp) : Stage :=
  (sweeping (sweeps i).ns oid).phase i past

/-- What is asked of a sweep when it deletes its reference to an object: every other sweep that was
told of a claim is left one. -/
def Meets (i : κ) (r : Req) (s : State κ) : Prop :=
  ∀ oid, r = .delete (Refs.key (sweeps i).ns oid) → ∀ j, j ≠ i →
    (stage sweeps oid j s.2).counts = true →
      ∃ key, Refs.keyPrefix oid <+: key ∧ s.1.Has key ∧ key ≠ Refs.key (sweeps j).ns oid ∧
        key ≠ Refs.key (sweeps i).ns oid

/-- The runs that meet the condition, with no request refused. -/
abbrev sweepingAll (provider : Provider) : κ → Semantics Req Resp (State κ) :=
  restricted (Meets sweeps) (recording fun _ => Answers provider)

/-! ### What sweeps know -/

/-- What a sweep of a repository knows of the index. -/
def Stage.Sees (ns : Namespace) (oid : Oid) (b : Bucket) : Stage → Prop
  | .starting => True
  | .asking true _ => ∃ key, Refs.keyPrefix oid <+: key ∧ b.Has key ∧ key ≠ Refs.key ns oid
  | .asking false after => ∀ key, Refs.keyPrefix oid <+: key → b.Has key →
      (∃ a ∈ after, key ≤ a) → key = Refs.key ns oid
  | .told true => ∃ key, Refs.keyPrefix oid <+: key ∧ b.Has key ∧ key ≠ Refs.key ns oid
  | .told false => ∀ key, Refs.keyPrefix oid <+: key → b.Has key → key = Refs.key ns oid
  | .unmarked true => ∃ key, Refs.keyPrefix oid <+: key ∧ b.Has key ∧ key ≠ Refs.key ns oid
  | .unmarked false => ∀ key, Refs.keyPrefix oid <+: key → b.Has key → key = Refs.key ns oid
  | .freeing claimed => claimed = false ∧ ∀ key, Refs.keyPrefix oid <+: key → ¬ b.Has key
  | .deleting => ∀ key, Refs.keyPrefix oid <+: key → ¬ b.Has key
  | .off => False

/-- The sweep goes on to delete the content. -/
def Stage.Frees : Stage → Prop
  | .freeing _ => True
  | .deleting => True
  | _ => False

/-- What sweeps keep among them of an object. -/
structure Kept (oid : Oid) (s : State κ) : Prop where
  complete : s.1.Has Refs.complete
  mirrored : ∀ key, Refs.keyPrefix oid <+: key → s.1.Has key → ∃ ns, key = Refs.key ns oid ∧
    (s.1.Has (S3Store.markerKey ns oid) ∨
      ∃ i claimed, ns.Same (sweeps i).ns ∧ stage sweeps oid i s.2 = .unmarked claimed)
  sees : ∀ i, (stage sweeps oid i s.2).Sees (sweeps i).ns oid s.1
  content : s.1.Has (S3Store.contentKey oid) →
    (∃ key, Refs.keyPrefix oid <+: key ∧ s.1.Has key) ∨ ∃ i, (stage sweeps oid i s.2).Frees

end

section

variable {κ : Type} [DecidableEq κ] {sweeps : κ → Sweep} {provider : Provider} {oid : Oid}
  {ns : Namespace} {b b' : Bucket} {known known' : Stage} {s : State κ} {i : κ} {r : Req}
  {answer : Resp r} {key : Text}

theorem Stage.Sees.congr (h : known.Sees ns oid b) (hhas : ∀ key, b'.Has key ↔ b.Has key) :
    known.Sees ns oid b' := by
  unfold Stage.Sees at h ⊢
  simp only [hhas]
  exact h

/-- What a sweep knows when another key is deleted. -/
theorem Stage.Sees.remove (h : known.Sees ns oid b)
    (hcounts : known.counts = true → ∃ key', Refs.keyPrefix oid <+: key' ∧ b.Has key' ∧
      key' ≠ Refs.key ns oid ∧ key' ≠ key) : known.Sees ns oid (b.remove key) := by
  have hclaim : known.counts = true → ∃ key', Refs.keyPrefix oid <+: key' ∧
      (b.remove key).Has key' ∧ key' ≠ Refs.key ns oid := by
    intro htrue
    obtain ⟨key', hunder, hhas, hown, hne⟩ := hcounts htrue
    exact ⟨key', hunder, Bucket.has_remove.mpr ⟨hne, hhas⟩, hown⟩
  have hbefore : ∀ key', (b.remove key).Has key' → b.Has key' := fun _ hhas =>
    (Bucket.has_remove.mp hhas).2
  cases known with
  | starting => trivial
  | asking claimed after =>
      cases claimed with
      | true => exact hclaim rfl
      | false => exact fun key' hunder hhas => h key' hunder (hbefore key' hhas)
  | told claimed =>
      cases claimed with
      | true => exact hclaim rfl
      | false => exact fun key' hunder hhas => h key' hunder (hbefore key' hhas)
  | unmarked claimed =>
      cases claimed with
      | true => exact hclaim rfl
      | false => exact fun key' hunder hhas => h key' hunder (hbefore key' hhas)
  | freeing claimed => exact ⟨h.1, fun key' hunder hhas => h.2 key' hunder (hbefore key' hhas)⟩
  | deleting => exact fun key' hunder hhas => h key' hunder (hbefore key' hhas)
  | off => exact h

/-- A sweep that was told of a claim knows of one. -/
theorem Stage.Sees.claim (h : known.Sees ns oid b) (hcounts : known.counts = true) :
    ∃ key, Refs.keyPrefix oid <+: key ∧ b.Has key ∧ key ≠ Refs.key ns oid := by
  cases known with
  | asking claimed after => cases claimed <;> first | exact h | cases hcounts
  | told claimed => cases claimed <;> first | exact h | cases hcounts
  | unmarked claimed => cases claimed <;> first | exact h | cases hcounts
  | _ => cases hcounts

/-! ### Steps -/

theorem stage_own (past : Log κ Req Resp) : stage sweeps oid i (⟨i, r, answer⟩ :: past) =
    (stage sweeps oid i past).next (sweeps i).ns oid r answer :=
  trail_own r answer past

theorem stage_other {j : κ} (h : j ≠ i) (past : Log κ Req Resp) :
    stage sweeps oid j (⟨i, r, answer⟩ :: past) = stage sweeps oid j past :=
  trail_other h.symm r answer past

theorem Kept.on (h : Kept sweeps oid s) (i : κ) : stage sweeps oid i s.2 ≠ .off := by
  intro hoff
  have hsees := h.sees i
  rw [hoff] at hsees
  exact hsees

/-- A step that deletes nothing. -/
theorem Kept.look (h : Kept sweeps oid s) (hhas : ∀ key, b'.Has key ↔ s.1.Has key)
    (hsees : ((stage sweeps oid i s.2).next (sweeps i).ns oid r answer).Sees (sweeps i).ns oid b')
    (hfrees : (stage sweeps oid i s.2).Frees →
      ((stage sweeps oid i s.2).next (sweeps i).ns oid r answer).Frees)
    (hunmarked : ∀ claimed, stage sweeps oid i s.2 = .unmarked claimed →
      (stage sweeps oid i s.2).next (sweeps i).ns oid r answer = .unmarked claimed) :
    Kept sweeps oid (b', ⟨i, r, answer⟩ :: s.2) where
  complete := (hhas _).mpr h.complete
  mirrored key hunder hkey := by
    obtain ⟨ns, heq, hmarker⟩ := h.mirrored key hunder ((hhas key).mp hkey)
    refine ⟨ns, heq, hmarker.imp (hhas _).mpr ?_⟩
    rintro ⟨j, claimed, hsame, hj⟩
    refine ⟨j, claimed, hsame, ?_⟩
    by_cases hji : j = i
    · subst hji
      rw [stage_own]
      exact hunmarked claimed hj
    · rw [stage_other hji]
      exact hj
  sees j := by
    by_cases hji : j = i
    · subst hji
      rw [stage_own]
      exact hsees
    · rw [stage_other hji]
      exact (h.sees j).congr hhas
  content hcontent := by
    refine (h.content ((hhas _).mp hcontent)).imp ?_ ?_
    · rintro ⟨key, hunder, hkey⟩
      exact ⟨key, hunder, (hhas key).mpr hkey⟩
    · rintro ⟨j, hj⟩
      refine ⟨j, ?_⟩
      by_cases hji : j = i
      · subst hji
        rw [stage_own]
        exact hfrees hj
      · rw [stage_other hji]
        exact hj

/-- A step that deletes nothing and leaves the stage. -/
theorem Kept.stays (h : Kept sweeps oid s) (hhas : ∀ key, b'.Has key ↔ s.1.Has key)
    (hnext : (stage sweeps oid i s.2).next (sweeps i).ns oid r answer = stage sweeps oid i s.2) :
    Kept sweeps oid (b', ⟨i, r, answer⟩ :: s.2) := by
  refine h.look hhas ?_ ?_ ?_
  · rw [hnext]
    exact (h.sees i).congr hhas
  · rw [hnext]
    exact id
  · intro claimed hstage
    rw [hnext, hstage]

/-- What a page shows a sweep that asks. -/
theorem sees_asking {claimed : Bool} {after next : Option Text} {entries : List Entry}
    (h : (Stage.asking claimed after).Sees ns oid b)
    (hpage : Page b (Refs.keyPrefix oid) after entries next) :
    ((Stage.asking claimed after).next ns oid (.page (Refs.keyPrefix oid) after)
      (.ok (entries, next))).Sees ns oid b := by
  have hstage : (Stage.asking claimed after).next ns oid (.page (Refs.keyPrefix oid) after)
      (.ok (entries, next)) = next.elim (.told (claimed || shows ns oid entries)) fun token =>
        .asking (claimed || shows ns oid entries) (some token) := by
    cases next <;> exact if_pos rfl
  rw [hstage]
  cases hclaimed : claimed || shows ns oid entries with
  | true =>
      have hclaim : ∃ key, Refs.keyPrefix oid <+: key ∧ b.Has key ∧ key ≠ Refs.key ns oid := by
        rcases Bool.or_eq_true_iff.mp hclaimed with rfl | hshows
        · exact h
        · obtain ⟨e, he, hne⟩ := List.any_eq_true.mp hshows
          obtain ⟨o, ho, -⟩ := hpage.stored e he
          refine ⟨e.key, hpage.starts e he, ?_, bne_iff_ne.mp hne⟩
          rw [Bucket.Has, ho]
          rfl
      cases next <;> exact hclaim
  | false =>
      obtain ⟨rfl, hshows⟩ := Bool.or_eq_false_iff.mp hclaimed
      have hown : ∀ key, Refs.keyPrefix oid <+: key → b.Has key → (∀ n ∈ next, key ≤ n) →
          key = Refs.key ns oid := by
        intro key hunder hhas hnext
        by_cases hbefore : ∃ a ∈ after, key ≤ a
        · exact h key hunder hhas hbefore
        · have hmem := hpage.covers key hhas hunder
            (fun a ha => not_le.mp fun hle => hbefore ⟨a, ha, hle⟩) hnext
          obtain ⟨e, he, rfl⟩ := List.mem_map.mp hmem
          have hfalse := List.any_eq_false.mp hshows e he
          rwa [bne_iff_ne, ne_eq, Decidable.not_not] at hfalse
      cases next with
      | none => exact fun key hunder hhas => hown key hunder hhas fun n hn => by cases hn
      | some token =>
          rintro key hunder hhas ⟨a, ha, hle⟩
          exact hown key hunder hhas fun n hn => Option.some.inj (ha.symm.trans hn) ▸ hle

/-- The last question shows nothing. -/
theorem sees_freeing {claimed : Bool} {after next : Option Text} {entries : List Entry}
    (h : (Stage.freeing claimed).Sees ns oid b)
    (hpage : Page b (Refs.keyPrefix oid) after entries next) :
    (Stage.freeing claimed).next ns oid (.page (Refs.keyPrefix oid) after) (.ok (entries, next)) =
      match next with
        | some _ => .freeing false
        | none => .deleting := by
  obtain ⟨rfl, hnone⟩ := h
  have hempty : entries = [] := by
    refine List.eq_nil_iff_forall_not_mem.mpr fun e he => ?_
    obtain ⟨o, ho, -⟩ := hpage.stored e he
    refine hnone e.key (hpage.starts e he) ?_
    rw [Bucket.Has, ho]
    rfl
  subst hempty
  cases next <;> rfl

/-- A step that deletes a key. -/
theorem Kept.removes (h : Kept sweeps oid s) {next : Stage}
    (hnext : (stage sweeps oid i s.2).next (sweeps i).ns oid r answer = next)
    (hcomplete : key ≠ Refs.complete)
    (hmirrored : ∀ ns, (s.1.remove key).Has (Refs.key ns oid) →
      (key = S3Store.markerKey ns oid ∨
        ∃ claimed, ns.Same (sweeps i).ns ∧ stage sweeps oid i s.2 = .unmarked claimed) →
      (s.1.remove key).Has (S3Store.markerKey ns oid) ∨
        ∃ claimed, ns.Same (sweeps i).ns ∧ next = .unmarked claimed)
    (hothers : ∀ j, j ≠ i → (stage sweeps oid j s.2).counts = true →
      ∃ key', Refs.keyPrefix oid <+: key' ∧ s.1.Has key' ∧ key' ≠ Refs.key (sweeps j).ns oid ∧
        key' ≠ key)
    (hsees : next.Sees (sweeps i).ns oid (s.1.remove key))
    (hcontent : (s.1.remove key).Has (S3Store.contentKey oid) →
      (Refs.keyPrefix oid <+: key ∨ (stage sweeps oid i s.2).Frees) →
        (∃ key', Refs.keyPrefix oid <+: key' ∧ (s.1.remove key).Has key') ∨ next.Frees) :
    Kept sweeps oid (s.1.remove key, ⟨i, r, answer⟩ :: s.2) where
  complete := Bucket.has_remove.mpr ⟨hcomplete.symm, h.complete⟩
  mirrored key' hunder hkey' := by
    obtain ⟨ns, rfl, hmarker⟩ := h.mirrored key' hunder (Bucket.has_remove.mp hkey').2
    refine ⟨ns, rfl, ?_⟩
    have hown : (key = S3Store.markerKey ns oid ∨
        ∃ claimed, ns.Same (sweeps i).ns ∧ stage sweeps oid i s.2 = .unmarked claimed) →
        (s.1.remove key).Has (S3Store.markerKey ns oid) ∨ ∃ j claimed, ns.Same (sweeps j).ns ∧
          stage sweeps oid j (⟨i, r, answer⟩ :: s.2) = .unmarked claimed := by
      intro hor
      refine (hmirrored ns hkey' hor).imp id ?_
      rintro ⟨claimed, hsame, hunmarked⟩
      exact ⟨i, claimed, hsame, by rw [stage_own, hnext, hunmarked]⟩
    rcases hmarker with hmarker | ⟨j, claimed, hsame, hj⟩
    · by_cases heq : key = S3Store.markerKey ns oid
      · exact hown (Or.inl heq)
      · exact Or.inl (Bucket.has_remove.mpr ⟨Ne.symm heq, hmarker⟩)
    · by_cases hji : j = i
      · subst hji
        exact hown (Or.inr ⟨claimed, hsame, hj⟩)
      · exact Or.inr ⟨j, claimed, hsame, by rw [stage_other hji]; exact hj⟩
  sees j := by
    by_cases hji : j = i
    · subst hji
      rw [stage_own, hnext]
      exact hsees
    · rw [stage_other hji]
      exact (h.sees j).remove (hothers j hji)
  content hhas := by
    have hown : (Refs.keyPrefix oid <+: key ∨ (stage sweeps oid i s.2).Frees) →
        (∃ key', Refs.keyPrefix oid <+: key' ∧ (s.1.remove key).Has key') ∨
          ∃ j, (stage sweeps oid j (⟨i, r, answer⟩ :: s.2)).Frees := by
      intro hor
      refine (hcontent hhas hor).imp id fun hfrees => ⟨i, ?_⟩
      rw [stage_own, hnext]
      exact hfrees
    rcases h.content (Bucket.has_remove.mp hhas).2 with ⟨key', hunder, hkey'⟩ | ⟨j, hj⟩
    · by_cases heq : key' = key
      · exact hown (Or.inl (heq ▸ hunder))
      · exact Or.inl ⟨key', hunder, Bucket.has_remove.mpr ⟨heq, hkey'⟩⟩
    · by_cases hji : j = i
      · subst hji
        exact hown (Or.inr hj)
      · exact Or.inr ⟨j, by rw [stage_other hji]; exact hj⟩

/-- A delete of a key that is not of the index leaves every claim. -/
theorem Kept.claim_stays (h : Kept sweeps oid s) (hkey : ¬ Refs.keyPrefix oid <+: key) (j : κ)
    (hcounts : (stage sweeps oid j s.2).counts = true) :
    ∃ key', Refs.keyPrefix oid <+: key' ∧ s.1.Has key' ∧ key' ≠ Refs.key (sweeps j).ns oid ∧
      key' ≠ key := by
  obtain ⟨key', hunder, hhas, hown⟩ := (h.sees j).claim hcounts
  exact ⟨key', hunder, hhas, hown, fun heq => hkey (heq ▸ hunder)⟩

/-- The marker of the sweep goes, or something else that the object does not depend on. -/
theorem Kept.unmarks {claimed : Bool} (h : Kept sweeps oid s)
    (hstage : stage sweeps oid i s.2 = .told claimed) {answer : Resp (.delete key)}
    (hmay : (Stage.told claimed).MayDelete (sweeps i).ns oid key) :
    Kept sweeps oid (s.1.remove key, ⟨i, .delete key, answer⟩ :: s.2) := by
  obtain ⟨hbacks, hmarker⟩ := hmay
  have hunder : ¬ Refs.keyPrefix oid <+: key := fun h => hbacks (Or.inl h)
  have hsees := h.sees i
  rw [hstage] at hsees
  have hnext : (stage sweeps oid i s.2).next (sweeps i).ns oid (.delete key) answer =
      .unmarked claimed := by
    rw [hstage]
    rfl
  refine h.removes hnext (fun heq => hbacks (Or.inr (Or.inr heq))) ?_
    (fun j _ => h.claim_stays hunder j) ?_ ?_
  · rintro ns - (heq | ⟨_, hsame, -⟩)
    · exact Or.inr ⟨claimed, hmarker ns heq, rfl⟩
    · exact Or.inr ⟨claimed, hsame, rfl⟩
  · cases claimed with
    | true =>
        obtain ⟨key', hunder', hhas, hown⟩ := hsees
        exact ⟨key', hunder', Bucket.has_remove.mpr ⟨fun heq => hunder (heq ▸ hunder'), hhas⟩, hown⟩
    | false => exact fun key' hunder' hhas => hsees key' hunder' (Bucket.has_remove.mp hhas).2
  · rintro - (hkey | hfrees)
    · exact absurd hkey hunder
    · rw [hstage] at hfrees
      exact hfrees.elim

theorem keyPrefix_key : Refs.keyPrefix oid <+: Refs.key ns oid :=
  (Key.keyPrefix_text (k := .reference ns oid)).mpr ⟨ns, rfl⟩

/-- The reference of the sweep goes. -/
theorem Kept.unclaims {claimed : Bool} (h : Kept sweeps oid s)
    (hstage : stage sweeps oid i s.2 = .unmarked claimed)
    {answer : Resp (.delete (Refs.key (sweeps i).ns oid))}
    (hmeets : Meets sweeps i (.delete (Refs.key (sweeps i).ns oid)) s) :
    Kept sweeps oid (s.1.remove (Refs.key (sweeps i).ns oid),
      ⟨i, .delete (Refs.key (sweeps i).ns oid), answer⟩ :: s.2) := by
  have hsees := h.sees i
  rw [hstage] at hsees
  have hnext : (stage sweeps oid i s.2).next (sweeps i).ns oid (.delete _) answer =
      if claimed then .rest else .freeing false := by
    rw [hstage]
    rfl
  refine h.removes hnext ?_ ?_ (hmeets oid rfl) ?_ ?_
  · intro heq
    cases Key.eq_complete (k := .reference (sweeps i).ns oid) heq
  · rintro ns hhas hor
    have hne := (Bucket.has_remove.mp hhas).1
    rcases hor with heq | ⟨_, hsame, -⟩
    · obtain ⟨_, hk, -⟩ := Key.eq_marker (k := .reference (sweeps i).ns oid) heq
      cases hk
    · exact absurd (Key.reference_eq_iff.mpr ⟨hsame, rfl⟩) hne
  · cases claimed with
    | true => rintro key' - - ⟨a, ha, -⟩; cases ha
    | false =>
        refine ⟨rfl, fun key' hunder hhas => ?_⟩
        obtain ⟨hne, hhas⟩ := Bucket.has_remove.mp hhas
        exact hne (hsees key' hunder hhas)
  · intro _ _
    cases claimed with
    | true =>
        obtain ⟨key', hunder, hhas, hown⟩ := hsees
        exact Or.inl ⟨key', hunder, Bucket.has_remove.mpr ⟨hown, hhas⟩⟩
    | false => exact Or.inr trivial

/-- The content goes. -/
theorem Kept.frees (h : Kept sweeps oid s) (hstage : stage sweeps oid i s.2 = .deleting)
    {answer : Resp (.delete (S3Store.contentKey oid))} :
    Kept sweeps oid (s.1.remove (S3Store.contentKey oid),
      ⟨i, .delete (S3Store.contentKey oid), answer⟩ :: s.2) := by
  have hunder : ¬ Refs.keyPrefix oid <+: S3Store.contentKey oid := by
    intro hunder
    obtain ⟨ns, hk⟩ := Key.keyPrefix_text (k := .content oid).mp hunder
    cases hk
  have hsees := h.sees i
  rw [hstage] at hsees
  have hnext : (stage sweeps oid i s.2).next (sweeps i).ns oid (.delete _) answer = .rest := by
    rw [hstage]
    rfl
  refine h.removes hnext ?_ ?_ (fun j _ => h.claim_stays hunder j) ?_ ?_
  · intro heq
    cases Key.eq_complete (k := .content oid) heq
  · intro ns hhas _
    exact absurd (Bucket.has_remove.mp hhas).2 (hsees _ keyPrefix_key)
  · rintro key' - - ⟨a, ha, -⟩
    cases ha
  · intro hhas
    exact absurd rfl (Bucket.has_remove.mp hhas).1

/-- A delete of what the object does not depend on. -/
theorem Kept.drops (h : Kept sweeps oid s) {answer : Resp (.delete key)}
    (hnext : (stage sweeps oid i s.2).next (sweeps i).ns oid (.delete key) answer =
      stage sweeps oid i s.2) (hother : Other oid key) :
    Kept sweeps oid (s.1.remove key, ⟨i, .delete key, answer⟩ :: s.2) := by
  obtain ⟨hbacks, hmarker⟩ := hother
  have hunder : ¬ Refs.keyPrefix oid <+: key := fun h => hbacks (Or.inl h)
  refine h.removes hnext (fun heq => hbacks (Or.inr (Or.inr heq))) ?_
    (fun j _ => h.claim_stays hunder j) ((h.sees i).remove (h.claim_stays hunder i)) ?_
  · rintro ns - (heq | hclaimed)
    · exact absurd heq (hmarker ns)
    · exact Or.inr hclaimed
  · rintro - (hkey | hfrees)
    · exact absurd hkey hunder
    · exact Or.inr hfrees

/-- A delete that the stage allows. -/
theorem Kept.deletes (h : Kept sweeps oid s) {answer : Resp (.delete key)}
    (hmay : (stage sweeps oid i s.2).MayDelete (sweeps i).ns oid key)
    (hmeets : Meets sweeps i (.delete key) s) :
    Kept sweeps oid (s.1.remove key, ⟨i, .delete key, answer⟩ :: s.2) := by
  have hoff := h.on i
  cases hstage : stage sweeps oid i s.2 with
  | told claimed => exact h.unmarks hstage (hstage ▸ hmay)
  | unmarked claimed =>
      rw [hstage] at hmay
      obtain rfl : key = Refs.key (sweeps i).ns oid := hmay
      exact h.unclaims hstage hmeets
  | deleting =>
      rw [hstage] at hmay
      obtain rfl : key = S3Store.contentKey oid := hmay
      exact h.frees hstage
  | off => exact absurd hstage hoff
  | _ =>
      rw [hstage] at hmay
      exact h.drops (by rw [hstage]; rfl) hmay

/-- A page of a listing. -/
theorem Kept.pages (h : Kept sweeps oid s) {under : Text} {after next : Option Text}
    {entries : List Entry}
    (hmay : (stage sweeps oid i s.2).May (sweeps i).ns oid (.page under after))
    (hpage : Page s.1 under after entries next) :
    Kept sweeps oid (s.1, ⟨i, .page under after, .ok (entries, next)⟩ :: s.2) := by
  have hsees := h.sees i
  cases hstage : stage sweeps oid i s.2 with
  | asking claimed token =>
      by_cases hunder : under = Refs.keyPrefix oid
      · subst hunder
        obtain rfl := hmay.page claimed token after hstage rfl
        rw [hstage] at hsees
        refine h.look (fun _ => Iff.rfl) ?_ ?_ ?_
        · rw [hstage]
          exact sees_asking hsees hpage
        · rw [hstage]
          exact False.elim
        · rw [hstage]
          nofun
      · exact h.stays (fun _ => Iff.rfl) (by rw [hstage]; exact if_neg hunder)
  | freeing claimed =>
      obtain rfl := hmay.pageAgain claimed under after hstage rfl
      rw [hstage] at hsees
      have hnext := sees_freeing hsees hpage
      rw [← hstage] at hnext
      refine h.look (fun _ => Iff.rfl) ?_ ?_ ?_
      · rw [hnext]
        cases next with
        | none => exact hsees.2
        | some token => exact ⟨rfl, hsees.2⟩
      · rw [hnext]
        intro _
        cases next <;> trivial
      · rw [hstage]
        nofun
  | _ => exact h.stays (fun _ => Iff.rfl) (by rw [hstage]; rfl)

/-- **A step of any sweep.** -/
theorem Kept.step {s' : State κ} (h : Kept sweeps oid s)
    (hmay : (sweeping (sweeps i).ns oid).may (stage sweeps oid i s.2) r)
    (hexec : sweepingAll sweeps provider i r s answer s') : Kept sweeps oid s' := by
  obtain ⟨b', past⟩ := s'
  obtain ⟨hmeets, hanswers, rfl⟩ := hexec
  have hmay := hmay.resolve_left (h.on i)
  cases r with
  | head key =>
      obtain ⟨rfl, rfl⟩ := hanswers
      cases hstage : stage sweeps oid i s.2 with
      | starting =>
          obtain ⟨rfl⟩ := hmay.head hstage
          obtain ⟨o, ho⟩ := Option.isSome_iff_exists.mp h.complete
          refine h.look (fun _ => Iff.rfl) ?_ ?_ ?_
          · rw [hstage, ho]
            rintro key - - ⟨a, ha, -⟩
            cases ha
          · rw [hstage]
            exact False.elim
          · rw [hstage]
            nofun
      | _ => exact h.stays (fun _ => Iff.rfl) (by rw [hstage]; rfl)
  | put key body => exact absurd (.put key body) (hmay.puts key)
  | copy source key => exact absurd (.copy source key) (hmay.puts key)
  | delete key =>
      obtain ⟨-, rfl⟩ := hanswers
      exact h.deletes (hmay.deletes key rfl) hmeets
  | page under after =>
      obtain ⟨⟨entries, next, rfl, hpage⟩, rfl⟩ := hanswers
      exact h.pages hmay hpage
  | furtherPages => exact hanswers.elim
  | now =>
      obtain ⟨-, rfl⟩ := hanswers
      refine h.stays (fun _ => Bucket.has_wait) ?_
      cases stage sweeps oid i s.2 <;> rfl
  | getRange key start length =>
      obtain ⟨-, rfl⟩ := hanswers
      refine h.stays (fun _ => Iff.rfl) ?_
      cases stage sweeps oid i s.2 <;> rfl
  | unordered count =>
      obtain ⟨-, rfl⟩ := hanswers
      refine h.stays (fun _ => Iff.rfl) ?_
      cases stage sweeps oid i s.2 <;> rfl

/-! ### No content without a marker -/

theorem kept_start (hcomplete : b.Has Refs.complete) (hmirrored : Mirrored b)
    (hmarker : ∃ ns, b.Has (S3Store.markerKey ns oid)) : Kept sweeps oid (b, []) where
  complete := hcomplete
  mirrored key hunder hhas := by
    obtain ⟨ns, rfl, hmarker⟩ := (hmirrored oid key hunder).mp hhas
    exact ⟨ns, rfl, Or.inl hmarker⟩
  sees i := trivial
  content _ := by
    obtain ⟨ns, hhas⟩ := hmarker
    exact Or.inl ⟨Refs.key ns oid, keyPrefix_key,
      (hmirrored oid _ keyPrefix_key).mpr ⟨ns, rfl, hhas⟩⟩

/-- **No content is orphaned**, in any run in which no sweep deletes the last claim that another
one goes by. -/
theorem orphans_freed (keys : Keyspace) {pool : Pool κ Req Resp (Except Error Unit) (State κ)}
    (hcomplete : b.Has Refs.complete) (hmirrored : Mirrored b)
    (hsteps : Pool.Steps (sweepingAll sweeps keys.provider) (start keys sweeps b) pool)
    (hdone : ∀ i, pool.progs i = .pure (.ok ())) (hheld : ∃ ns, b.Has (S3Store.markerKey ns oid))
    (hdropped : ∀ ns, ¬ pool.state.1.Has (S3Store.markerKey ns oid)) :
    ¬ pool.state.1.Has (S3Store.contentKey oid) := by
  obtain ⟨hkept, hfollows⟩ := Pool.Steps.follows_logged (I := Kept sweeps oid)
    (P := fun i => sweeping (sweeps i).ns oid)
    (Q := fun _ answer stage => stage = .off ∨ ∀ a, answer = .ok a → stage = .rest)
    (fun _ _ _ _ _ hexec => hexec.2.2) (fun _ _ _ _ _ hkept hmay hexec => hkept.step hmay hexec)
    (fun i => sweep_follows) (kept_start hcomplete hmirrored hheld) hsteps
  have hrest : ∀ i, stage sweeps oid i pool.state.2 = .rest := by
    intro i
    have hi := hfollows i
    rw [hdone i] at hi
    exact (hi.resolve_left (hkept.on i)) () rfl
  intro hcontent
  rcases hkept.content hcontent with ⟨key, hunder, hkey⟩ | ⟨i, hfrees⟩
  · obtain ⟨ns, -, hmarker | ⟨i, claimed, -, hstage⟩⟩ := hkept.mirrored key hunder hkey
    · exact hdropped ns hmarker
    · rw [hrest i] at hstage
      cases hstage
  · rw [hrest i] at hfrees
    exact hfrees

end

/-! ### Two sweeps -/

/-- Two repositories hold an object, and both drop it. -/
def both : Bucket := holding Oid.zeros [1] [Namespace.acme, Namespace.tools]

def dropping (i : Bool) : Sweep := ⟨if i then Namespace.tools else Namespace.acme, ∅, 0⟩

theorem dropping_apart (i j : Bool) (h : i ≠ j) : ¬ (dropping i).ns.Same (dropping j).ns := by
  cases i <;> cases j <;> first | exact absurd rfl h | decide

theorem mirrored_both : Mirrored both := by
  intro oid key hunder
  constructor
  · intro hhas
    rcases has_holding.mp hhas with rfl | rfl | ⟨ns, hns, rfl | rfl⟩
    · obtain ⟨_, hk⟩ := Key.keyPrefix_text.mp hunder
      cases hk
    · obtain ⟨_, hk⟩ := Key.keyPrefix_text.mp hunder
      cases hk
    · obtain ⟨_, hk⟩ := Key.keyPrefix_text.mp hunder
      cases hk
      exact ⟨ns, rfl, marker_holding.mpr ⟨rfl, ns, hns, Namespace.Same.refl ns⟩⟩
    · obtain ⟨_, hk⟩ := Key.keyPrefix_text.mp hunder
      cases hk
  · rintro ⟨ns, rfl, hmarker⟩
    exact reference_holding.mpr (marker_holding.mp hmarker)

theorem held_both : ∃ ns, both.Has (S3Store.markerKey ns Oid.zeros) :=
  ⟨Namespace.acme, marker_holding.mpr
    ⟨rfl, Namespace.acme, List.mem_cons_self, Namespace.Same.refl _⟩⟩

/-- Every sweep has succeeded, and nothing of the object is left, or nothing but its content. -/
def leaves (content : Bool) (pool : Pool Bool Req Resp (Except Error Unit) (State Bool)) : Bool :=
  decide (∀ i, (pool.progs i).result = some (.ok ())) &&
    pool.state.1.objects.keys.all (fun key =>
      key == Refs.complete || key == S3Store.contentKey Oid.zeros) &&
    decide (pool.state.1.Has (S3Store.contentKey Oid.zeros)) == content

theorem of_leaves {content : Bool}
    {pool : Pool Bool Req Resp (Except Error Unit) (State Bool)} (h : leaves content pool = true) :
    (∀ i, pool.progs i = .pure (.ok ())) ∧
      (∀ ns, ¬ pool.state.1.Has (S3Store.markerKey ns Oid.zeros)) ∧
      decide (pool.state.1.Has (S3Store.contentKey Oid.zeros)) = content := by
  rw [leaves, Bool.and_eq_true, Bool.and_eq_true, decide_eq_true_eq, beq_iff_eq] at h
  obtain ⟨⟨hdone, hkeys⟩, hcontent⟩ := h
  refine ⟨fun i => Program.eq_pure_of_result (hdone i), fun ns hmarker => ?_, hcontent⟩
  have hkey := List.all_eq_true.mp hkeys _ (AList.lookup_isSome.mp hmarker)
  rw [Bool.or_eq_true, beq_iff_eq, beq_iff_eq] at hkey
  rcases hkey with hkey | hkey
  · cases Key.eq_complete (k := .marker ns Oid.zeros) hkey
  · cases Key.eq_content (k := .marker ns Oid.zeros) hkey

/-- A check for `Meets`, with one object. -/
def relied (i : Bool) (r : Req) (s : State Bool) : Bool :=
  match r with
  | .delete key => !".refs/".toList.isPrefixOf key ||
      (key == Refs.key (dropping i).ns Oid.zeros && !(stage dropping Oid.zeros (!i) s.2).counts)
  | _ => true

theorem meets_of_relied (i : Bool) (r : Req) (s : State Bool) (h : relied i r s = true) :
    Meets dropping i r s := by
  rintro oid rfl j hj hcounts
  have hstarts : ".refs/".toList.isPrefixOf (Refs.key (dropping i).ns oid) = true := by
    rw [List.isPrefixOf_iff_prefix]
    exact (Key.dir_text (k := .reference (dropping i).ns oid) (d := ".refs".toList)
      (by decide)).mpr rfl
  rw [relied, hstarts, Bool.not_true, Bool.false_or, Bool.and_eq_true, beq_iff_eq] at h
  obtain ⟨hkey, hnot⟩ := h
  obtain ⟨-, rfl⟩ := Key.reference_eq_iff.mp hkey
  rw [Bool.eq_not_of_ne hj] at hcounts
  rw [hcounts] at hnot
  cases hnot

/-- One sweep after the other. -/
def inTurn : List Bool := List.replicate 8 false ++ List.replicate 12 true

theorem orphans_freed_in_turn :
    ∃ pool, Pool.play (answering .s3 relied) inTurn (start ⟨.s3, 2⟩ dropping both) = some pool ∧
      ¬ pool.state.1.Has (S3Store.contentKey Oid.zeros) := by
  have hrun : ((Pool.play (answering .s3 relied) inTurn (start ⟨.s3, 2⟩ dropping both)).any
      (leaves false)) = true := by
    decide +kernel
  obtain ⟨pool, hplay, hleaves⟩ := (Option.any_eq_true _ _).mp hrun
  obtain ⟨hdone, hdropped, -⟩ := of_leaves hleaves
  have hsteps := Pool.play_steps (answering_exec meets_of_relied) hplay
  exact ⟨pool, hplay,
    orphans_freed ⟨.s3, 2⟩ (ready_holding _ _ _) mirrored_both hsteps hdone held_both hdropped⟩

/-- Both sweeps ask for other claims before either drops its own. -/
def atOnce : List Bool :=
  List.replicate 4 false ++ List.replicate 4 true ++ List.replicate 4 false ++
    List.replicate 4 true

/-- **Two sweeps can orphan content**: each leaves it to the other. -/
theorem content_is_orphaned :
    ¬ ∀ (κ : Type) [DecidableEq κ] (keys : Keyspace) (sweeps : κ → Sweep) (b : Bucket)
      (pool : Pool κ Req Resp (Except Error Unit) (State κ)),
      (∀ i j, i ≠ j → ¬ (sweeps i).ns.Same (sweeps j).ns) → b.Has Refs.complete → Mirrored b →
      Pool.Steps (recording fun _ => Answers keys.provider) (start keys sweeps b) pool →
      (∀ i, pool.progs i = .pure (.ok ())) →
      ∀ oid, (∃ ns, b.Has (S3Store.markerKey ns oid)) →
        (∀ ns, ¬ pool.state.1.Has (S3Store.markerKey ns oid)) →
        ¬ pool.state.1.Has (S3Store.contentKey oid) := by
  intro hclaim
  have hrun : ((Pool.play (answering .s3 fun _ _ _ => true) atOnce
      (start ⟨.s3, 2⟩ dropping both)).any (leaves true)) = true := by
    decide +kernel
  obtain ⟨pool, hplay, hleaves⟩ := (Option.any_eq_true _ _).mp hrun
  obtain ⟨hdone, hdropped, hcontent⟩ := of_leaves hleaves
  have hsteps : Pool.Steps (recording fun _ => Answers .s3) (start ⟨.s3, 2⟩ dropping both)
      pool := by
    refine Pool.play_steps (fun i r s answered h => ?_) hplay
    have hexec : restricted (fun _ _ _ => True) (recording fun _ => Answers .s3) i r s answered.1
        answered.2 := answering_exec (fun _ _ _ _ => trivial) i r s answered h
    exact hexec.2
  exact hclaim Bool ⟨.s3, 2⟩ dropping both pool dropping_apart (ready_holding _ _ _) mirrored_both
    hsteps hdone Oid.zeros held_both hdropped (decide_eq_true_eq.mp hcontent)

end Orphans

end Lfsx.Storage
