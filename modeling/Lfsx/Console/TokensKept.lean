import Lfsx.Console.TokensVolume
import Lfsx.Request.Ledger

/-!
# What a call writes

Whatever the calls do side by side, the list changes when a call writes what it wants there
(`Wants`): the list it read with a token more, or with those of a name left out.  What a thread
wants follows from what it read and drew (`Mind`), and a call that succeeded has written it
(`op_among`).
-/

namespace Lfsx.Console.Tokens

open Request
open Meta (MetaError Backend Req Resp Process Deployment Cluster Store pathOf keyOf)

/-! ## What a thread knows -/

/-- What a thread read last, the hash of what it drew, and what it has on its hands. -/
structure Mind where
  read : Option (Option Bytes)
  drawn : Option Text
  hands : Hands

namespace Mind

def first : Mind := ⟨none, none, .free⟩

def next (formats : Formats) (mind : Mind) (r : Req) (answer : Resp r) : Mind where
  read := lastRead mind.read r answer
  drawn := (drawnHash formats r answer).or mind.drawn
  hands := mind.hands.next r answer

end Mind

section

variable {ι : Type} [DecidableEq ι] (formats : Formats) (signing : Option (Fixed 32))

def mindOf (i : ι) : Past ι → Mind := trail (Mind.next formats) .first i

/-- What a call wants to write, by what its thread knows. -/
def Wants (job : Job) (mind : Mind) (bytes : Bytes) : Prop :=
  ∃ c list, mind.read = some c ∧ listOf formats ⟨.bucket, signing⟩ c = some list ∧
    match job with
    | .create name => (∀ e ∈ list, e.name ≠ name) ∧ ∃ now hash, mind.drawn = some hash ∧
        kept formats ⟨.bucket, signing⟩ (list ++ [⟨name, now, hash⟩]) = some bytes
    | .revoke name =>
        kept formats ⟨.bucket, signing⟩ (list.filter (·.name != name)) = some bytes

/-- What a call that succeeded has done. -/
def Done (job : Job) (mind : Mind) (answer : Option Text) : Prop :=
  ∃ bytes, mind.hands = .wrote bytes ∧ Wants formats signing job mind bytes ∧
    ∀ token, answer = some token →
      start.isPrefixOf token = true ∧ mind.drawn = some (formats.digest token)

variable {formats signing}

theorem mindOf_read (i : ι) (past : Past ι) :
    (mindOf formats i past).read = trail lastRead none i past := by
  induction past with
  | nil => rfl
  | cons e past ih =>
      by_cases he : e.thread = i
      · obtain ⟨j, r, answer⟩ := e
        cases he
        rw [mindOf, trail_own, trail_own, Mind.next]
        exact congrArg (lastRead · r answer) ih
      · obtain ⟨j, r, answer⟩ := e
        rw [mindOf, trail_other he, trail_other he]
        exact ih

end

/-! ## The ledger -/

section

variable {ι : Type} [DecidableEq ι] (formats : Formats) (signing : Option (Fixed 32))
  (deployment : Deployment) (process : ι → Process) (known : List Text) (jobs : ι → Job)

/-- What threads stage on a volume is theirs. -/
structure Orderly (w : (Cluster × Past ι) × Past ι) : Prop where
  log : w.1.2 = w.2
  tidy : deployment = .volume → Tidy w.1.1.store.disk
  kept : deployment = .volume → staging.Kept process w.1.1 fun i => (mindOf formats i w.2).hands

/-- What a thread may ask, by what it knows. -/
def May (i : ι) (past : Past ι) (r : Req) : Prop :=
  (mindOf formats i past).hands.Allows deployment (process i).number
    (Wants formats signing (jobs i) (mindOf formats i past)) r

/-- The calls, each writing the list while it is still what it read. -/
def careful : ι → Semantics Req Resp (Cluster × Past ι) :=
  restricted (Current deployment) (serves formats deployment process known)

variable {formats signing deployment process known jobs} {i : ι} {r : Req} {answer : Resp r}
  {w : (Cluster × Past ι) × Past ι} {w' : Cluster × Past ι}

theorem hands_cons (i : ι) (r : Req) (answer : Resp r) (past : Past ι) :
    (fun j => (mindOf formats j (⟨i, r, answer⟩ :: past)).hands) =
      Function.update (fun j => (mindOf formats j past).hands) i
        ((mindOf formats i past).hands.next r answer) := by
  have hminds : (fun j => mindOf formats j (⟨i, r, answer⟩ :: past)) =
      Function.update (fun j => mindOf formats j past) i
        ((mindOf formats i past).next formats r answer) := trail_cons i r answer past
  funext j
  have hj := congrFun hminds j
  by_cases hij : j = i
  · subst hij
    rw [Function.update_self] at hj ⊢
    exact congrArg Mind.hands hj
  · rw [Function.update_of_ne hij] at hj ⊢
    exact congrArg Mind.hands hj

/-- **What a request does to the list**: it stays, or it is what the thread wants. -/
theorem Orderly.writes (hw : Orderly formats deployment process w)
    (hmay : May formats signing deployment process jobs i w.2 r)
    (hstep : serves formats deployment process known i r w.1 answer w') :
    deployment.holds fileName w'.1 = deployment.holds fileName w.1.1 ∨
      ∃ bytes, deployment.holds fileName w'.1 = some bytes ∧ Writes r ∧
        Wants formats signing (jobs i) (mindOf formats i w.2) bytes := by
  obtain ⟨⟨⟨hserved, hlives⟩, -⟩, -⟩ := hstep
  cases deployment with
  | volume =>
      have hown := (hw.kept rfl).own ⟨hserved, hlives⟩
      obtain ⟨n, placed, -, hchange, hplaced⟩ := Hands.changes hmay hown hserved
      have hfind := hchange.find_list (hw.tidy rfl)
      cases placed with
      | none => exact Or.inl hfind
      | some bytes =>
          obtain ⟨hwants, hwrites⟩ := hplaced bytes rfl
          exact Or.inr ⟨bytes, hfind, hwrites, hwants⟩
  | bucket =>
      have hsame : w'.1.store.bucket = w.1.1.store.bucket →
          Deployment.holds .bucket fileName w'.1 = Deployment.holds .bucket fileName w.1.1 :=
        fun h => congrArg (fun b => (b.items (keyOf fileName)).map Shelves.Item.value) h
      cases r with
      | disk r =>
          obtain ⟨-, hbucket, -⟩ := Meta.served_disk hserved
          exact Or.inl (hsame hbucket)
      | staged =>
          obtain ⟨-, hstore⟩ := hserved
          exact Or.inl (hsame (by rw [hstore]))
      | bucket r =>
          obtain ⟨b, hstore, hshelf⟩ := hserved
          cases r with
          | get key =>
              refine Or.inl (hsame ?_)
              rw [hstore]
              rcases hshelf with ⟨-, rfl⟩ | ⟨-, rfl | ⟨_, -, rfl⟩⟩ <;> rfl
          | putIfAbsent key value => cases hmay
          | deleteIf key version => cases hmay
          | keys under => cases hmay
      | put key bytes =>
          obtain ⟨-, rfl, -, hwants⟩ := hmay
          rcases hserved with ⟨-, hstore⟩ | ⟨version, hfresh, hstore⟩
          · exact Or.inl (hsame (by rw [hstore]))
          · refine Or.inr ⟨bytes, ?_, trivial, hwants⟩
            have hitem : w'.1.store.bucket.items (keyOf fileName) = some ⟨bytes, version⟩ := by
              rw [hstore]
              simp [Shelves.Shelf.put]
            exact congrArg (Option.map Shelves.Item.value) hitem
      | delete key => cases hmay

omit [DecidableEq ι] in
/-- A write that was answered is what the list is. -/
theorem Mind.wrote {mind : Mind} {wants : Bytes → Prop} {bytes : Bytes}
    {store store' : Meta.World Process}
    (hallows : mind.hands.Allows deployment (process i).number wants r)
    (hworking : deployment = .volume → mind.hands.Working (process i) store)
    (hserved : Meta.serves process i r store answer store')
    (hwrote : (mind.next formats r answer).hands = .wrote bytes) :
    (deployment.backend ⟨0, 0⟩).holds fileName store' = some bytes ∧ Writes r ∧
      (mind.next formats r answer).read = mind.read ∧
      (mind.next formats r answer).drawn = mind.drawn := by
  obtain ⟨read, drawn, hands⟩ := mind
  have hfree : hands = .free → hands ≠ .wrote bytes := by
    rintro rfl heq
    cases heq
  cases r with
  | bucket r =>
      cases r with
      | get key => exact absurd hwrote (hfree hallows.2.2)
      | putIfAbsent key value => cases hallows
      | deleteIf key version => cases hallows
      | keys under => cases hallows
  | staged => cases hwrote
  | delete key => cases hallows
  | put key value =>
      obtain ⟨rfl, rfl, -, -⟩ := hallows
      cases answer with
      | error e => cases hwrote
      | ok done =>
          cases hwrote
          rcases hserved with ⟨⟨e, he⟩, -⟩ | ⟨version, hfresh, rfl⟩
          · cases he
          · have hitem : (store.bucket.put (keyOf fileName) bytes version hfresh).items
                (keyOf fileName) = some ⟨bytes, version⟩ := by simp [Shelves.Shelf.put]
            exact ⟨congrArg (Option.map Shelves.Item.value) hitem, trivial, rfl, rfl⟩
  | disk r =>
      cases r with
      | rename source target =>
          obtain ⟨rfl, n, file, value, rfl, -, rfl, rfl⟩ := hallows
          cases answer with
          | error e => cases hwrote
          | ok done =>
              cases hwrote
              obtain ⟨hfile, f, hf, rfl⟩ := hworking rfl
              refine ⟨?_, trivial, rfl, rfl⟩
              rcases (Meta.served_answered (fun heq => by cases heq) hserved).rename with
                ⟨_, -, -, hd⟩ | ⟨e, heq, -⟩
              · show (store'.disk.find listPath).map Files.File.bytes = some f.bytes
                rw [hd, Files.Disk.find_rename_target hfile, hf]
                rfl
              · cases heq
      | random count => exact absurd hwrote (hfree hallows)
      | now => exact absurd hwrote (hfree hallows)
      | createDirAll path => exact absurd hwrote (hfree hallows)
      | openFile path => cases answer <;> cases hwrote
      | readAll file => cases hwrote
      | create path =>
          obtain ⟨-, n, rfl, -⟩ := hallows
          cases answer <;> cases hwrote
      | write file value =>
          obtain ⟨-, n, rfl, -⟩ := hallows
          cases answer <;> cases hwrote
      | _ => cases hallows

/-- A call that wrote the list left it as it wanted. -/
theorem Orderly.wrote (hw : Orderly formats deployment process w)
    (hmay : May formats signing deployment process jobs i w.2 r)
    (hstep : serves formats deployment process known i r w.1 answer w') {bytes : Bytes}
    (hwrote : (mindOf formats i (⟨i, r, answer⟩ :: w.2)).hands = .wrote bytes) :
    deployment.holds fileName w'.1 = some bytes ∧ Writes r ∧
      (mindOf formats i (⟨i, r, answer⟩ :: w.2)).read = (mindOf formats i w.2).read ∧
      (mindOf formats i (⟨i, r, answer⟩ :: w.2)).drawn = (mindOf formats i w.2).drawn := by
  obtain ⟨⟨hrecorded, -⟩, -⟩ := hstep
  have hmind : mindOf formats i (⟨i, r, answer⟩ :: w.2) =
      (mindOf formats i w.2).next formats r answer := trail_own r answer w.2
  rw [hmind] at hwrote ⊢
  refine Mind.wrote hmay ?_ hrecorded.1 hwrote
  rintro rfl
  exact (hw.kept rfl).own hrecorded

theorem Orderly.step (hw : Orderly formats deployment process w)
    (hmay : May formats signing deployment process jobs i w.2 r)
    (hstep : careful formats deployment process known i r w.1 answer w') :
    Orderly formats deployment process (w', ⟨i, r, answer⟩ :: w.2) := by
  obtain ⟨-, ⟨hrecorded, hlog⟩, -⟩ := hstep
  constructor
  case log =>
    rw [hlog, hw.log]
  case tidy =>
    rintro rfl
    have hown := (hw.kept rfl).own hrecorded
    obtain ⟨n, placed, -, hchange, -⟩ := Hands.changes hmay hown hrecorded.1
    exact (hw.tidy rfl).change hchange
  case kept =>
    rintro rfl
    have hown := (hw.kept rfl).own hrecorded
    obtain ⟨n, placed, hn, hchange, -⟩ := Hands.changes hmay hown hrecorded.1
    obtain ⟨hworking, hnumber⟩ := Hands.next_spec hmay hown hrecorded.1
    rw [hands_cons]
    refine (hw.kept rfl).step hrecorded hworking hnumber fun j hjs hapart => ?_
    rcases hn with hlooks | hn
    · exact Hands.Working.alike hjs hlooks
    · refine Hands.Working.beside hjs hchange (hw.tidy rfl) fun m hm heq => ?_
      obtain ⟨hsame, rfl⟩ := Meta.stagedPath_inj heq
      exact hapart.distinct m m hm hn hsame rfl

variable (formats signing deployment process known jobs) in
def ledger : Ledger ι Req Resp (Cluster × Past ι) (Event ι Req Resp) where
  exec := careful formats deployment process known
  entry i r _ answer := ⟨i, r, answer⟩
  Allowed := May formats signing deployment process jobs
  Sound := Orderly formats deployment process
  step hw hallowed hexec := hw.step hallowed hexec

theorem ledger_logs : (ledger formats signing deployment process known jobs).Logs :=
  fun _ _ _ _ => rfl

/-! ## Operations -/

section Among

variable {w : (Cluster × Past ι) × Past ι} {mind : Mind}

theorem stays_mind (p : Mind → Prop) :
    (ledger formats signing deployment process known jobs).Stays i fun past =>
      p (mindOf formats i past) :=
  ledger_logs.stays p

theorem may_of {past : Past ι} {r : Req} (hpast : mindOf formats i past = mind)
    (hallows : mind.hands.Allows deployment (process i).number
      (Wants formats signing (jobs i) mind) r) :
    (ledger formats signing deployment process known jobs).Allowed i past r := by
  subst hpast
  exact hallows

theorem onDisk_among {α : Type} {r : Files.Req Text} {h : Files.Resp r = Except Files.Refused α}
    (mind : Mind) {Q : α → Mind → Prop}
    (hallows : mind.hands.Allows deployment (process i).number (Wants formats signing (jobs i) mind)
      (.disk r))
    (hQ : ∀ a, Q a (mind.next formats (.disk r) (cast h.symm (.ok a))))
    (hw : Orderly formats deployment process w) (hmind : mindOf formats i w.2 = mind) :
    (ledger formats signing deployment process known jobs).Among i
      (fun a past => Q a (mindOf formats i past)) (Meta.io (Meta.onDisk r h)) w := by
  exact Ledger.Among.mapError (fun a => stays_mind (Q a))
    (Ledger.Among.trailing ledger_logs (fun _ hpast => may_of hpast hallows) hQ hw hmind)

/-- What opening the list tells. -/
def Mind.Opens (mind after : Mind) : Except Files.Refused Nat → Prop
  | .ok file => after = { mind with hands := .holding file }
  | .error .notFound => after = { mind with read := some none }
  | .error _ => True

/-- What reading the list tells. -/
def Mind.Reads (mind after : Mind) : Except Files.Refused Bytes → Prop
  | .ok bytes => after = { mind with read := some (some bytes) }
  | .error .notFound => after = { mind with read := some none }
  | .error _ => True

theorem readFile_tells (hfree : mind.hands = .free) (hw : Orderly formats .volume process w)
    (hmind : mindOf formats i w.2 = mind) :
    (ledger formats signing .volume process known jobs).Tells i
      (fun answer past => mind.Reads (mindOf formats i past) answer)
        (Meta.readFile listPath) w := by
  obtain ⟨read, drawn, hands⟩ := mind
  cases hfree
  refine Ledger.Tells.bind
    (P := fun answer past => Mind.Opens ⟨read, drawn, .free⟩ (mindOf formats i past) answer)
    (Ledger.Tells.trailing (Q := fun answer (after : Mind) => Mind.Opens ⟨read, drawn, .free⟩ after
      answer) ledger_logs ?_ ?_ hw hmind) ?_ ?_ ?_
  · exact fun past hpast => may_of hpast ⟨rfl, rfl, rfl⟩
  · intro s answer s' h
    cases answer with
    | ok file => rfl
    | error e => cases e <;> first | rfl | trivial
  · intro file w hw hopened
    refine Ledger.Tells.trailing (Q := fun answer (after : Mind) => Mind.Reads ⟨read, drawn, .free⟩
      after answer) ledger_logs ?_ ?_ hw hopened
    · exact fun past hpast => may_of hpast rfl
    · intro s answer s' h
      cases answer with
      | ok bytes => rfl
      | error e =>
          cases e with
          | notFound =>
              rcases (Meta.served_answered (by nofun) h.2.1.1.1).readAll with ⟨-, ⟨f, -, heq⟩ | heq⟩
              · cases heq
              · cases heq
          | alreadyExists => trivial
          | other => trivial
  · exact fun e => stays_mind fun after => Mind.Reads ⟨read, drawn, .free⟩ after (.error e)
  · intro e past h
    cases e with
    | notFound => exact h
    | alreadyExists => trivial
    | other => trivial

/-- What was read is remembered. -/
theorem readMeta_among (hfree : mind.hands = .free) (hw : Orderly formats deployment process w)
    (hmind : mindOf formats i w.2 = mind) :
    (ledger formats signing deployment process known jobs).Among i
      (fun found past => mindOf formats i past = { mind with read := some found })
      ((deployment.backend (process i)).readMeta fileName) w := by
  cases deployment with
  | volume =>
      refine Ledger.Tells.caught (readFile_tells hfree hw hmind) fun answer w hw hreads => ?_
      cases answer with
      | ok bytes =>
          exact Ledger.Among.pure (stays_mind (· = { mind with read := some (some bytes) }))
            hw hreads
      | error e =>
          cases e with
          | notFound =>
              exact Ledger.Among.pure (stays_mind (· = { mind with read := some none })) hw hreads
          | alreadyExists => exact Ledger.Among.throw hw
          | other => exact Ledger.Among.throw hw
  | bucket =>
      have hread : (ledger formats signing .bucket process known jobs).Among i
          (fun item past => mindOf formats i past =
            { mind with read := some (item.map Shelves.Item.value) })
          (Meta.inBucket (.bucket (.get (keyOf fileName))) rfl) w := by
        exact Ledger.Among.mapError (fun item => stays_mind (· = _)) (Ledger.Among.trailing
          (Q := fun (item : Option (Shelves.Item Bytes Text)) (after : Mind) => after =
            { mind with read := some (item.map Shelves.Item.value) })
          ledger_logs (fun past hpast => may_of hpast ⟨rfl, rfl, hfree⟩) (fun item => rfl) hw hmind)
      refine Ledger.Among.bind hread fun item w hw hmind => ?_
      exact Ledger.Among.pure (stays_mind (· = _)) hw hmind

theorem issued_among (hfree : mind.hands = .free) (hw : Orderly formats deployment process w)
    (hmind : mindOf formats i w.2 = mind) :
    (ledger formats signing deployment process known jobs).Among i
      (fun list past => ∃ c, listOf formats ⟨.bucket, signing⟩ c = some list ∧
        mindOf formats i past = { mind with read := some c })
      (issued formats ⟨deployment.backend (process i), signing⟩) w := by
  have hstays : ∀ list, (ledger formats signing deployment process known jobs).Stays i fun past =>
      ∃ c, listOf formats ⟨.bucket, signing⟩ c = some list ∧
        mindOf formats i past = { mind with read := some c } :=
    fun list => stays_mind fun after =>
      ∃ c, listOf formats ⟨.bucket, signing⟩ c = some list ∧ after = { mind with read := some c }
  have hread : (ledger formats signing deployment process known jobs).Among i
      (fun payload past => ∃ c, c.bind
          ((⟨.bucket, signing⟩ : Store).verified formats.signing fileName) = payload ∧
        mindOf formats i past = { mind with read := some c })
      ((⟨deployment.backend (process i), signing⟩ : Store).readSigned formats.signing fileName)
      w := by
    have hstays' : ∀ payload, (ledger formats signing deployment process known jobs).Stays i
        fun past => ∃ c, c.bind
            ((⟨.bucket, signing⟩ : Store).verified formats.signing fileName) = payload ∧
          mindOf formats i past = { mind with read := some c } :=
      fun payload => stays_mind fun after => ∃ c, c.bind
          ((⟨.bucket, signing⟩ : Store).verified formats.signing fileName) = payload ∧
        after = { mind with read := some c }
    refine Ledger.Among.bind (readMeta_among hfree hw hmind) fun found w hw hmind => ?_
    cases found with
    | none => exact Ledger.Among.pure (hstays' none) hw ⟨none, rfl, hmind⟩
    | some bytes => exact Ledger.Among.pure (hstays' _) hw ⟨some bytes, rfl, hmind⟩
  refine Ledger.Among.bind hread fun payload w hw hread => ?_
  obtain ⟨c, rfl, hmind⟩ := hread
  cases hpayload : c.bind ((⟨.bucket, signing⟩ : Store).verified formats.signing fileName) with
  | none => exact Ledger.Among.pure (hstays []) hw ⟨c, by rw [listOf, hpayload], hmind⟩
  | some payload =>
      cases hdecode : formats.decode payload with
      | none =>
          simp only [hdecode]
          exact Ledger.Among.throw hw
      | some list =>
          simp only [hdecode]
          refine Ledger.Among.pure (hstays list) hw ⟨c, ?_, hmind⟩
          simp only [listOf, hpayload, hdecode]

/-- A list is staged whole. -/
theorem stage_among {bytes : Bytes} (hfree : mind.hands = .free)
    (hwants : Wants formats signing (jobs i) mind bytes) (hw : Orderly formats .volume process w)
    (hmind : mindOf formats i w.2 = mind) :
    (ledger formats signing .volume process known jobs).Among i
      (fun staged past => ∃ n file, mindOf formats i past =
        { mind with hands := .written n file bytes } ∧ staged = stagedList (process i).number n)
      (Meta.stage (process i).number fileName bytes) w := by
  obtain ⟨read, drawn, hands⟩ := mind
  cases hfree
  refine Ledger.Among.bind (onDisk_among ⟨read, drawn, .free⟩
    (Q := fun _ after => after = ⟨read, drawn, .free⟩) rfl (fun _ => rfl) hw hmind)
      fun _ w hw hmind => ?_
  refine Ledger.Among.bind (Ledger.Among.trailing_certain
    (Q := fun n after => after = ⟨read, drawn, .numbered n⟩) ledger_logs
    (fun _ hpast => may_of hpast ⟨rfl, rfl⟩) (fun _ => rfl) hw hmind) fun n w hw hmind => ?_
  refine Ledger.Among.bind (onDisk_among ⟨read, drawn, .numbered n⟩
    (Q := fun file after => after = ⟨read, drawn, .created n file⟩) ⟨rfl, n, rfl, rfl⟩
    (fun _ => rfl) hw hmind)
    fun file w hw hmind => ?_
  refine Ledger.Among.bind (onDisk_among ⟨read, drawn, .created n file⟩
    (Q := fun _ after => after = ⟨read, drawn, .written n file bytes⟩) ⟨rfl, n, rfl, hwants⟩
    (fun _ => rfl) hw hmind)
    fun _ w hw hmind => ?_
  exact Ledger.Among.pure (stays_mind fun after => ∃ m file, after =
      ⟨read, drawn, .written m file bytes⟩ ∧
        stagedList (process i).number n = stagedList (process i).number m)
    hw ⟨n, file, hmind, rfl⟩

theorem writeMeta_among {bytes : Bytes} (hfree : mind.hands = .free)
    (hwants : Wants formats signing (jobs i) mind bytes)
    (hw : Orderly formats deployment process w) (hmind : mindOf formats i w.2 = mind) :
    (ledger formats signing deployment process known jobs).Among i
      (fun _ past => mindOf formats i past = { mind with hands := .wrote bytes })
      ((deployment.backend (process i)).writeMeta fileName bytes) w := by
  cases deployment with
  | volume =>
      refine Ledger.Among.bind (stage_among hfree hwants hw hmind) fun staged w hw hstaged => ?_
      obtain ⟨n, file, hmind, rfl⟩ := hstaged
      exact onDisk_among { mind with hands := .written n file bytes }
        (Q := fun _ after => after = { mind with hands := .wrote bytes })
        ⟨rfl, n, file, bytes, rfl, hwants, rfl, rfl⟩ (fun _ => rfl) hw hmind
  | bucket =>
      exact Ledger.Among.mapError (fun _ => stays_mind (· = _)) (Ledger.Among.trailing
        (Q := fun _ (after : Mind) => after = { mind with hands := .wrote bytes }) ledger_logs
        (fun past hpast => may_of hpast ⟨rfl, rfl, hfree, hwants⟩) (fun _ => rfl) hw hmind)

theorem keep_among {list : List Issued} (hfree : mind.hands = .free)
    (hwants : ∀ bytes, kept formats ⟨.bucket, signing⟩ list = some bytes →
      Wants formats signing (jobs i) mind bytes)
    (hw : Orderly formats deployment process w) (hmind : mindOf formats i w.2 = mind) :
    (ledger formats signing deployment process known jobs).Among i
      (fun _ past => ∃ bytes, Wants formats signing (jobs i) mind bytes ∧
        mindOf formats i past = { mind with hands := .wrote bytes })
      ((keep formats ⟨deployment.backend (process i), signing⟩ list).mapError Refusal.store) w := by
  have hstays : ∀ done : Unit, (ledger formats signing deployment process known jobs).Stays i
      fun past => ∃ bytes, Wants formats signing (jobs i) mind bytes ∧
        mindOf formats i past = { mind with hands := .wrote bytes } :=
    fun _ => stays_mind fun after => ∃ bytes, Wants formats signing (jobs i) mind bytes ∧
      after = { mind with hands := .wrote bytes }
  refine Ledger.Among.mapError hstays ?_
  rw [keep]
  cases hencode : formats.encode list with
  | none => exact Ledger.Among.throw hw
  | some bytes =>
      simp only [Store.writeSigned]
      cases hsigned : (⟨deployment.backend (process i), signing⟩ : Store).signed formats.signing
          fileName bytes with
      | none => exact Ledger.Among.throw hw
      | some stored =>
          have hkept : kept formats ⟨.bucket, signing⟩ list = some stored := by
            rw [kept, hencode]
            exact hsigned
          have hstored := hwants stored hkept
          exact Ledger.Among.mono (writeMeta_among hfree hstored hw hmind)
            fun _ past hpast => ⟨stored, hstored, hpast⟩

theorem start_tokenOf (secret : Bytes) : start.isPrefixOf (formats.tokenOf secret) = true := by
  rw [Formats.tokenOf, List.isPrefixOf_iff_prefix]
  exact List.prefix_append _ _

theorem create_among {name : Text} (hjob : jobs i = .create name)
    (hw : Orderly formats deployment process w) (hmind : mindOf formats i w.2 = .first) :
    (ledger formats signing deployment process known jobs).Among i
      (fun token past => Done formats signing (jobs i) (mindOf formats i past) (some token))
      (create formats ⟨deployment.backend (process i), signing⟩ name) w := by
  have hthrow : ∀ {α : Type} {e : Refusal} {f : α → Op Text} {w : (Cluster × Past ι) × Past ι},
      Orderly formats deployment process w →
      (ledger formats signing deployment process known jobs).Among i
        (fun token past => Done formats signing (jobs i) (mindOf formats i past) (some token))
        ((throw e : Op α) >>= f) w :=
    fun hw => Ledger.Among.bind (P := fun _ _ => False) (Ledger.Among.throw hw)
      fun _ _ _ h => h.elim
  have hlist : ∀ list, (ledger formats signing deployment process known jobs).Stays i fun past =>
      ∃ c, listOf formats ⟨.bucket, signing⟩ c = some list ∧
        mindOf formats i past = ⟨some c, none, .free⟩ :=
    fun list => stays_mind fun after =>
      ∃ c, listOf formats ⟨.bucket, signing⟩ c = some list ∧ after = ⟨some c, none, .free⟩
  rw [create]
  split
  case isTrue => exact hthrow hw
  case isFalse =>
    dsimp only
    refine Ledger.Among.bind (Ledger.Among.mapError hlist (issued_among rfl hw hmind))
      fun list w hw hissued => ?_
    obtain ⟨c, hc, hmind⟩ := hissued
    split
    case isTrue => exact hthrow hw
    case isFalse hfree =>
      refine Ledger.Among.bind (Ledger.Among.trailing_certain (Q := fun secret after => after =
        ⟨some c, some (formats.digest (formats.tokenOf secret.1)), .free⟩) ledger_logs
        (fun _ hpast => may_of hpast (by exact rfl)) (fun _ => rfl) hw hmind)
          fun secret w hw hmind => ?_
      refine Ledger.Among.bind (Ledger.Among.trailing_certain (Q := fun _ after => after =
        ⟨some c, some (formats.digest (formats.tokenOf secret.1)), .free⟩) ledger_logs
        (fun _ hpast => may_of hpast (by exact rfl)) (fun _ => rfl) hw hmind)
          fun now w hw hmind => ?_
      refine Ledger.Among.bind (keep_among rfl (fun bytes hkept => ?_) hw hmind)
        fun _ w hw hwritten => ?_
      · rw [hjob]
        refine ⟨c, list, rfl, hc, fun e he hname => hfree ?_, now, _, rfl, hkept⟩
        exact List.any_eq_true.mpr ⟨e, he, by simp [hname]⟩
      · obtain ⟨bytes, hwants, hmind⟩ := hwritten
        refine Ledger.Among.pure (stays_mind fun after =>
          Done formats signing (jobs i) after (some (formats.tokenOf secret.1))) hw ?_
        rw [hmind]
        refine ⟨bytes, rfl, hwants, fun token htoken => ?_⟩
        cases htoken
        exact ⟨start_tokenOf secret.1, rfl⟩

theorem revoke_among {name : Text} (hjob : jobs i = .revoke name)
    (hw : Orderly formats deployment process w) (hmind : mindOf formats i w.2 = .first) :
    (ledger formats signing deployment process known jobs).Among i
      (fun _ past => Done formats signing (jobs i) (mindOf formats i past) none)
      (revoke formats ⟨deployment.backend (process i), signing⟩ name) w := by
  have hlist : ∀ list, (ledger formats signing deployment process known jobs).Stays i fun past =>
      ∃ c, listOf formats ⟨.bucket, signing⟩ c = some list ∧
        mindOf formats i past = ⟨some c, none, .free⟩ :=
    fun list => stays_mind fun after =>
      ∃ c, listOf formats ⟨.bucket, signing⟩ c = some list ∧ after = ⟨some c, none, .free⟩
  rw [revoke]
  refine Ledger.Among.bind (Ledger.Among.mapError hlist (issued_among rfl hw hmind))
    fun list w hw hissued => ?_
  obtain ⟨c, hc, hmind⟩ := hissued
  dsimp only
  split
  case isTrue =>
    exact Ledger.Among.bind (P := fun _ _ => False) (Ledger.Among.throw hw) fun _ _ _ h => h.elim
  case isFalse =>
    refine Ledger.Among.mono (keep_among rfl (fun bytes hkept => ?_) hw hmind)
      fun _ past hwritten => ?_
    · rw [hjob]
      exact ⟨c, list, rfl, hc, hkept⟩
    · obtain ⟨bytes, hwants, hmind⟩ := hwritten
      rw [hmind]
      exact ⟨bytes, rfl, hwants, fun token htoken => by cases htoken⟩

/-- **A call that succeeded** wrote what it wanted. -/
theorem op_among (hw : Orderly formats deployment process w)
    (hmind : mindOf formats i w.2 = .first) :
    (ledger formats signing deployment process known jobs).Among i
      (fun answer past => Done formats signing (jobs i) (mindOf formats i past) answer)
      ((jobs i).op formats ⟨deployment.backend (process i), signing⟩) w := by
  have hstays : ∀ answer, (ledger formats signing deployment process known jobs).Stays i fun past =>
      Done formats signing (jobs i) (mindOf formats i past) answer :=
    fun answer => stays_mind fun after => Done formats signing (jobs i) after answer
  cases hjob : jobs i with
  | create name =>
      refine Ledger.Among.bind (create_among hjob hw hmind) fun token w hw hdone => ?_
      rw [hjob] at hdone
      refine Ledger.Among.pure ?_ hw hdone
      rw [← hjob]
      exact hstays (some token)
  | revoke name =>
      refine Ledger.Among.bind (revoke_among hjob hw hmind) fun _ w hw hdone => ?_
      rw [hjob] at hdone
      refine Ledger.Among.pure ?_ hw hdone
      rw [← hjob]
      exact hstays none

end Among

end

end Lfsx.Console.Tokens
