import Lfsx.Auth.Authorizer

/-!
# What a permission rests on

Requests, changes of the access settings and the passing of time, in any order and any
number of them at once.  A permission that is given rests on settings the request has read,
and on an answer the forge gave for the same caller and the same repository: to this
request, or not longer ago than an answer is kept (`permission_sound`).

The invariant ties the cache to what the forge was asked (`Sound.kept`), and what was found
in it to the same (`Sound.hit`).  Every step that is not an answer of the forge leaves the
cache alone.
-/

namespace Lfsx.Auth

open Request
open Locks (Permission)

/-- What a server is asked, and what else happens to it. -/
inductive Job where
  | permission (token : Option Bytes) (ns : Namespace)
  /-- The dashboard asks the forge whoever is served. -/
  | forgePermission (token : Option Bytes) (ns : Namespace)
  | setAccess (replacement : Access)
  | refreshAccess (replacement : Access)
  | wait (elapsed : Nat)

namespace Job

/-- Who asks. -/
def caller : Job → Option Caller
  | permission token _ => some (.of token)
  | forgePermission token _ => some (.of token)
  | setAccess _ => none
  | refreshAccess _ => none
  | wait _ => none

def op : Job → Op (Option Permission)
  | permission token ns => do
      let given ← Auth.permission token ns
      return some given
  | forgePermission token ns => do
      let given ← Auth.forgePermission token ns
      return some given
  | setAccess replacement => do
      let _ ← (Fallible.certain (Req.setAccess replacement) : Op Unit)
      return none
  | refreshAccess replacement => do
      let seen ← (Fallible.certain Req.revision : Op Nat)
      let _ ← (Fallible.certain (Req.refreshAccess seen replacement) : Op Bool)
      return none
  | wait elapsed => do
      let _ ← (Fallible.certain (Req.wait elapsed) : Op Unit)
      return none

end Job

/-- A request that was answered, and when. -/
abbrev Moment (ι : Type) := Nat × Event ι Req Resp

variable {ι : Type} (sha256 : Bytes → Fixed 32) (jobs : ι → Job)

/-- The forge's answer to a question about a key was a decision. -/
def Decided (key : CacheKey) (decision : Decision) (t : Nat) (past : List (Moment ι)) : Prop :=
  ∃ j caller ns answer, (t, ⟨j, .ask caller ns, answer⟩) ∈ past ∧
    Cache.keyOf sha256 caller ns = key ∧ Decision.of answer = some decision

/-- What is in the cache was decided, and what was found there was, and was not too old. -/
structure Sound (grantedTtl : Nat) (w : Authorizer × List (Moment ι)) : Prop where
  ttl : w.1.cache.grantedTtl = grantedTtl
  past : ∀ e ∈ w.2, e.1 ≤ w.1.now
  own : ∀ t j caller ns answer, (t, ⟨j, .ask caller ns, answer⟩) ∈ w.2 →
    (jobs j).caller = some caller
  kept : ∀ key entry, w.1.cache.entries key = some entry →
    ∃ t, Decided sha256 key entry.decision t w.2 ∧
      entry.expiresAt = t + w.1.cache.ttl entry.decision
  hit : ∀ t j caller ns permission,
    (t, ⟨j, .cached caller ns, some (.granted permission)⟩) ∈ w.2 →
    ∃ t', Decided sha256 (Cache.keyOf sha256 caller ns) (.granted permission) t' w.2 ∧
      t' ≤ t ∧ t < t' + grantedTtl

/-- A question is asked for who asks it. -/
def Allowed (i : ι) : Req → Prop
  | .ask caller _ => (jobs i).caller = some caller
  | _ => True

variable {sha256 jobs} {grantedTtl : Nat}

theorem Decided.cons {key : CacheKey} {decision : Decision} {t : Nat} {past : List (Moment ι)}
    (h : Decided sha256 key decision t past) (e : Moment ι) :
    Decided sha256 key decision t (e :: past) := by
  obtain ⟨j, caller, ns, answer, hmem, hrest⟩ := h
  exact ⟨j, caller, ns, answer, List.mem_cons_of_mem _ hmem, hrest⟩

namespace Cache

theorem get_eq_some {cache : Cache} {now : Nat} {key : CacheKey} {decision : Decision}
    (h : cache.get now key = some decision) :
    ∃ entry, cache.entries key = some entry ∧ entry.decision = decision ∧
      now < entry.expiresAt := by
  rw [get] at h
  split at h
  case h_1 entry hentry =>
    split at h
    case isTrue hlt => exact ⟨entry, hentry, Option.some.inj h, hlt⟩
    case isFalse => cases h
  case h_2 => cases h

/-- What is in a cache after something was put in is that, or was there. -/
theorem entries_insert {cache : Cache} {now : Nat} {key k : CacheKey} {decision : Decision}
    {entry : CacheEntry} (h : (cache.insert now key decision).entries k = some entry) :
    (k = key ∧ entry = ⟨decision, now + cache.ttl decision⟩) ∨ cache.entries k = some entry := by
  rw [insert] at h
  dsimp only at h
  by_cases hk : k = key
  · subst hk
    rw [Function.update_self, Option.some.injEq] at h
    exact Or.inl ⟨rfl, h.symm⟩
  · rw [Function.update_of_ne hk] at h
    exact Or.inr (Option.filter_eq_some_iff.mp h).1

end Cache

namespace Sound

variable {i : ι} {w : Authorizer × List (Moment ι)} {a : Authorizer}

/-- A step that is no question and no look into the cache leaves the cache alone. -/
theorem aside {r : Req} {answer : Resp r} (hw : Sound sha256 jobs grantedTtl w)
    (hcache : a.cache = w.1.cache) (hnow : w.1.now ≤ a.now)
    (hask : ∀ caller ns, r ≠ .ask caller ns) (hcached : ∀ caller ns, r ≠ .cached caller ns) :
    Sound sha256 jobs grantedTtl (a, (w.1.now, ⟨i, r, answer⟩) :: w.2) where
  ttl := by rw [hcache]; exact hw.ttl
  past := by
    intro e he
    rcases List.mem_cons.mp he with rfl | he
    · exact hnow
    · exact le_trans (hw.past e he) hnow
  own := by
    intro t j caller ns answer' hmem
    rcases List.mem_cons.mp hmem with he | hmem
    · exact absurd (congrArg (fun e => e.2.req) he).symm (hask caller ns)
    · exact hw.own t j caller ns answer' hmem
  kept := by
    intro key entry hentry
    rw [hcache] at hentry ⊢
    obtain ⟨t, hdecided, hexpires⟩ := hw.kept key entry hentry
    exact ⟨t, hdecided.cons _, hexpires⟩
  hit := by
    intro t j caller ns permission hmem
    rcases List.mem_cons.mp hmem with he | hmem
    · exact absurd (congrArg (fun e => e.2.req) he).symm (hcached caller ns)
    · obtain ⟨t', hdecided, htimes⟩ := hw.hit t j caller ns permission hmem
      exact ⟨t', hdecided.cons _, htimes⟩

/-- What is found in the cache was decided. -/
theorem looked {caller : Caller} {ns : Namespace} {answer : Option Decision}
    (hw : Sound sha256 jobs grantedTtl w)
    (hanswer : answer = w.1.cache.get w.1.now (Cache.keyOf sha256 caller ns)) :
    Sound sha256 jobs grantedTtl (w.1, (w.1.now, ⟨i, .cached caller ns, answer⟩) :: w.2) where
  ttl := hw.ttl
  past := by
    intro e he
    rcases List.mem_cons.mp he with rfl | he
    · exact le_refl _
    · exact hw.past e he
  own := by
    intro t j caller' ns' answer' hmem
    rcases List.mem_cons.mp hmem with he | hmem
    · cases he
    · exact hw.own t j caller' ns' answer' hmem
  kept := by
    intro key entry hentry
    obtain ⟨t, hdecided, hexpires⟩ := hw.kept key entry hentry
    exact ⟨t, hdecided.cons _, hexpires⟩
  hit := by
    intro t j caller' ns' permission hmem
    rcases List.mem_cons.mp hmem with he | hmem
    · cases he
      obtain ⟨entry, hentry, hdecision, hlt⟩ := Cache.get_eq_some hanswer.symm
      obtain ⟨t', hdecided, hexpires⟩ := hw.kept _ entry hentry
      obtain ⟨j', _, _, _, hasked, -⟩ := id hdecided
      have hpast := hw.past _ hasked
      rw [hdecision] at hdecided hexpires
      rw [Cache.ttl, hw.ttl] at hexpires
      exact ⟨t', hdecided.cons _, hpast, hexpires ▸ hlt⟩
    · obtain ⟨t', hdecided, htimes⟩ := hw.hit t j caller' ns' permission hmem
      exact ⟨t', hdecided.cons _, htimes⟩

/-- An answer of the forge is kept as what it decides. -/
theorem answered {caller : Caller} {ns : Namespace} {answer : Except AuthError Permission}
    (hw : Sound sha256 jobs grantedTtl w) (hcaller : (jobs i).caller = some caller) :
    Sound sha256 jobs grantedTtl (w.1.answered (Cache.keyOf sha256 caller ns) answer,
      (w.1.now, ⟨i, .ask caller ns, answer⟩) :: w.2) := by
  have hnow : (w.1.answered (Cache.keyOf sha256 caller ns) answer).now = w.1.now := by
    rw [Authorizer.answered]
    split <;> rfl
  have httl : ∀ decision, (w.1.answered (Cache.keyOf sha256 caller ns) answer).cache.ttl decision =
      w.1.cache.ttl decision := by
    intro decision
    rw [Authorizer.answered]
    split <;> cases decision <;> rfl
  refine ⟨?_, ?_, ?_, ?_, ?_⟩
  · exact (httl (.granted .read)).trans hw.ttl
  · intro e he
    rw [hnow]
    rcases List.mem_cons.mp he with rfl | he
    · exact le_refl _
    · exact hw.past e he
  · intro t j caller' ns' answer' hmem
    rcases List.mem_cons.mp hmem with he | hmem
    · cases he
      exact hcaller
    · exact hw.own t j caller' ns' answer' hmem
  · intro key entry hentry
    simp only [httl]
    have hold : w.1.cache.entries key = some entry → ∃ t,
        Decided sha256 key entry.decision t ((w.1.now, ⟨i, .ask caller ns, answer⟩) :: w.2) ∧
          entry.expiresAt = t + w.1.cache.ttl entry.decision := by
      intro h
      obtain ⟨t, hdecided, hexpires⟩ := hw.kept key entry h
      exact ⟨t, hdecided.cons _, hexpires⟩
    simp only [Authorizer.answered] at hentry
    split at hentry
    case h_1 decision hdecision =>
      rcases Cache.entries_insert hentry with ⟨rfl, rfl⟩ | h
      · exact ⟨w.1.now, ⟨i, caller, ns, answer, List.mem_cons_self, rfl, hdecision⟩, rfl⟩
      · exact hold h
    case h_2 => exact hold hentry
  · intro t j caller' ns' permission hmem
    rcases List.mem_cons.mp hmem with he | hmem
    · cases he
    · obtain ⟨t', hdecided, htimes⟩ := hw.hit t j caller' ns' permission hmem
      exact ⟨t', hdecided.cons _, htimes⟩

theorem step {r : Req} {answer : Resp r} (hw : Sound sha256 jobs grantedTtl w)
    (hallowed : Allowed jobs i r) (hexec : Answers sha256 r w.1 answer a) :
    Sound sha256 jobs grantedTtl (a, (w.1.now, ⟨i, r, answer⟩) :: w.2) := by
  cases r with
  | access =>
      obtain ⟨-, rfl⟩ := hexec
      exact hw.aside rfl (le_refl _) (by simp) (by simp)
  | cached caller ns =>
      obtain ⟨hanswer, rfl⟩ := hexec
      exact hw.looked hanswer
  | afford =>
      obtain ⟨-, rfl⟩ := hexec
      exact hw.aside rfl (le_refl _) (by simp) (by simp)
  | ask caller ns =>
      cases hexec
      exact hw.answered hallowed
  | revision =>
      obtain ⟨-, rfl⟩ := hexec
      exact hw.aside rfl (le_refl _) (by simp) (by simp)
  | setAccess replacement =>
      cases hexec
      exact hw.aside rfl (le_refl _) (by simp) (by simp)
  | refreshAccess seen replacement =>
      have ha : a = (w.1.refreshAccess seen replacement).2 := congrArg Prod.snd hexec
      subst ha
      rw [Authorizer.refreshAccess]
      split
      · exact hw.aside rfl (le_refl _) (by simp) (by simp)
      · exact hw.aside rfl (le_refl _) (by simp) (by simp)
  | wait elapsed =>
      cases hexec
      exact hw.aside rfl (Nat.le_add_right _ _) (by simp) (by simp)

end Sound

variable (sha256 jobs grantedTtl) in
/-- Every request is entered with its time. -/
def ledger : Ledger ι Req Resp Authorizer (Moment ι) where
  exec _ := Answers sha256
  entry i r a answer := (a.now, ⟨i, r, answer⟩)
  Allowed i _ r := Allowed jobs i r
  Sound := Sound sha256 jobs grantedTtl
  step hw hallowed hexec := hw.step hallowed hexec

/-! ## Operations -/

/-- A request has read settings that have its repository served. -/
def Served (i : ι) (ns : Namespace) (past : List (Moment ι)) : Prop :=
  ∃ t access, (t, ⟨i, .access, access⟩) ∈ past ∧
    ∀ allowed, access.allowed = some allowed → allowed.covers ns = true

/-- A request has read settings that let its caller have a permission. -/
def Admitted (i : ι) (token : Option Bytes) (ns : Namespace) (permission : Permission)
    (past : List (Moment ι)) : Prop :=
  ∃ t access, (t, ⟨i, .access, access⟩) ∈ past ∧
    (access.restricted.covers ns = true → permission = .write ∨ permission = .admin) ∧
    (token = none → access.anonymousRead = true ∧ access.restricted.covers ns = false)

/-- A request was given a permission by the forge, or found it in the cache. -/
def Told (i : ι) (token : Option Bytes) (ns : Namespace) (permission : Permission)
    (past : List (Moment ι)) : Prop :=
  (∃ t, (t, ⟨i, .ask (.of token) ns, .ok permission⟩) ∈ past) ∨
    ∃ t, (t, ⟨i, .cached (.of token) ns, some (.granted permission)⟩) ∈ past

section

variable {i : ι} {token : Option Bytes} {ns : Namespace} {permission : Permission}

theorem lasting_served : Lasting (Served i ns) :=
  .any fun _ => .any fun _ => (Lasting.mem _).and .const

theorem lasting_admitted : Lasting (Admitted i token ns permission) :=
  .any fun _ => .any fun _ => (Lasting.mem _).and .const

theorem lasting_told : Lasting (Told i token ns permission) := by
  rintro e past (⟨t, h⟩ | ⟨t, h⟩)
  · exact Or.inl ⟨t, List.mem_cons_of_mem _ h⟩
  · exact Or.inr ⟨t, List.mem_cons_of_mem _ h⟩

theorem decided_eq_ok {writersOnly : Bool} {outcome : Except AuthError Permission}
    (h : decided writersOnly outcome = .ok permission) :
    outcome = .ok permission ∧
      (writersOnly = true → permission = .write ∨ permission = .admin) := by
  rw [decided] at h
  split at h
  case isTrue =>
    cases outcome with
    | error e => cases h
    | ok given =>
        cases given with
        | read => cases h
        | write =>
            cases h
            exact ⟨rfl, fun _ => Or.inl rfl⟩
        | admin =>
            cases h
            exact ⟨rfl, fun _ => Or.inr rfl⟩
  case isFalse hnot => exact ⟨h, fun htrue => absurd htrue hnot⟩

theorem outcome_eq_ok {decision : Decision} (h : decision.outcome = .ok permission) :
    decision = .granted permission := by
  cases decision with
  | granted given =>
      cases h
      rfl
  | unauthenticated => cases h
  | forbidden => cases h

variable {w : Authorizer × List (Moment ι)}

theorem served_among (hw : Sound sha256 jobs grantedTtl w) :
    (ledger sha256 jobs grantedTtl).Among i (fun _ => Served i ns) (served ns) w := by
  rw [served]
  refine Ledger.Among.bind (Ledger.Among.certain .always (fun _ _ => trivial) hw trivial)
    fun access w hw haccess => ?_
  obtain ⟨-, s, hmem⟩ := haccess
  cases hallowed : access.allowed with
  | none =>
      refine Ledger.Among.pure (.of_lasting lasting_served) hw ⟨_, access, hmem, ?_⟩
      rw [hallowed]
      rintro _ ⟨⟩
  | some allowed =>
      dsimp only
      split
      case isTrue => exact Ledger.Among.throw hw
      case isFalse hcovers =>
        refine Ledger.Among.pure (.of_lasting lasting_served) hw ⟨_, access, hmem, ?_⟩
        rw [hallowed]
        rintro _ ⟨⟩
        simpa using hcovers

/-- What a request knows when it was given a permission. -/
abbrev Given (i : ι) (token : Option Bytes) (ns : Namespace) (permission : Permission)
    (past : List (Moment ι)) : Prop :=
  Admitted i token ns permission past ∧ Told i token ns permission past

/-- A decision that was found in the cache. -/
theorem found_among {writersOnly : Bool} {decision : Decision} {t : Nat} {access : Access}
    (hw : Sound sha256 jobs grantedTtl w) (haccess : (t, ⟨i, .access, access⟩) ∈ w.2)
    (hwriters : access.restricted.covers ns = writersOnly)
    (hanonymous : token = none → access.anonymousRead = true ∧ access.restricted.covers ns = false)
    {t' : Nat} (hfound : (t', ⟨i, .cached (.of token) ns, some decision⟩) ∈ w.2) :
    (ledger sha256 jobs grantedTtl).Among i (Given i token ns)
      (Fallible.ofExcept (decided writersOnly decision.outcome) : Op Permission) w := by
  refine Ledger.Among.ofExcept hw fun permission hok => ?_
  obtain ⟨hgranted, hwrite⟩ := decided_eq_ok hok
  rw [outcome_eq_ok hgranted] at hfound
  refine ⟨Ledger.Stays.of_lasting (lasting_admitted.and lasting_told),
    ⟨t, access, haccess, ?_, hanonymous⟩,
    Or.inr ⟨t', hfound⟩⟩
  rw [hwriters]
  exact hwrite

/-- Nobody anonymous is asked about a restricted repository. -/
theorem anonymous_among (hcaller : (jobs i).caller = some .anonymous)
    (hw : Sound sha256 jobs grantedTtl w) :
    (ledger sha256 jobs grantedTtl).Among i (Given i none ns) (forgePermission none ns) w := by
  rw [forgePermission]
  refine Ledger.Among.bind (Ledger.Among.certain .always (fun _ _ => trivial) hw trivial)
    fun access w hw haccess => ?_
  obtain ⟨-, s, haccess⟩ := haccess
  dsimp only
  split
  case isTrue => exact Ledger.Among.throw hw
  case isFalse hopen =>
    simp only [Bool.or_eq_true, not_or, Bool.not_eq_true, Bool.not_eq_false'] at hopen
    have hK : Lasting fun past : List (Moment ι) => (s.now, ⟨i, .access, access⟩) ∈ past := .mem _
    refine Ledger.Among.bind (Ledger.Among.certain hK (fun _ _ => trivial) hw haccess)
      fun found w hw hfound => ?_
    obtain ⟨haccess, s', hfound⟩ := hfound
    cases found with
    | some decision => exact found_among hw haccess hopen.2 (fun _ => hopen) hfound
    | none =>
        refine Ledger.Among.bind (Ledger.Among.ask hK (fun _ _ => trivial) hw haccess)
          fun _ w hw hafford => ?_
        refine Ledger.Among.mono (Ledger.Among.ask (L := ledger sha256 jobs grantedTtl) hK
          (fun _ _ => hcaller) hw hafford.1) fun given past h => ?_
        obtain ⟨haccess, s'', hasked⟩ := h
        refine ⟨⟨_, access, haccess, ?_, fun _ => hopen⟩, Or.inl ⟨_, hasked⟩⟩
        rw [hopen.2]
        simp

theorem token_among {t : Bytes} (hcaller : (jobs i).caller = some (.token t))
    (hw : Sound sha256 jobs grantedTtl w) :
    (ledger sha256 jobs grantedTtl).Among i (Given i (some t) ns) (forgePermission (some t) ns)
      w := by
  rw [forgePermission]
  refine Ledger.Among.bind (Ledger.Among.certain .always (fun _ _ => trivial) hw trivial)
    fun access w hw haccess => ?_
  obtain ⟨-, s, haccess⟩ := haccess
  have hK : Lasting fun past : List (Moment ι) => (s.now, ⟨i, .access, access⟩) ∈ past := .mem _
  refine Ledger.Among.bind (Ledger.Among.certain hK (fun _ _ => trivial) hw haccess)
    fun found w hw hfound => ?_
  obtain ⟨haccess, s', hfound⟩ := hfound
  cases found with
  | some decision => exact found_among hw haccess rfl (by rintro ⟨⟩) hfound
  | none =>
      refine Ledger.Among.bind (Ledger.Among.ask hK (fun _ _ => trivial) hw haccess)
        fun _ w hw hafford => ?_
      refine Ledger.Among.attempt (Ledger.Among.ask (L := ledger sha256 jobs grantedTtl) hK
        (fun _ _ => hcaller) hw hafford.1) (fun given w hw hasked => ?_) fun e w hw => ?_
      · obtain ⟨haccess, s'', hasked⟩ := hasked
        refine Ledger.Among.ofExcept hw fun permission hok => ?_
        obtain ⟨hgiven, hwrite⟩ := decided_eq_ok hok
        cases hgiven
        exact ⟨Ledger.Stays.of_lasting (lasting_admitted.and lasting_told),
          ⟨_, access, haccess, hwrite, by rintro ⟨⟩⟩,
          Or.inl ⟨_, hasked⟩⟩
      · refine Ledger.Among.ofExcept hw fun permission hok => ?_
        obtain ⟨herror, -⟩ := decided_eq_ok hok
        cases herror

theorem forgePermission_among (hcaller : (jobs i).caller = some (.of token))
    (hw : Sound sha256 jobs grantedTtl w) :
    (ledger sha256 jobs grantedTtl).Among i (Given i token ns) (forgePermission token ns) w := by
  cases token with
  | none => exact anonymous_among hcaller hw
  | some t => exact token_among hcaller hw

theorem permission_among (hcaller : (jobs i).caller = some (.of token))
    (hw : Sound sha256 jobs grantedTtl w) :
    (ledger sha256 jobs grantedTtl).Among i
      (fun permission past => Served i ns past ∧ Given i token ns permission past)
      (Auth.permission token ns) w := by
  rw [Auth.permission]
  exact Ledger.Among.bind (served_among hw) fun _ w hw hserved =>
    Ledger.Among.keeping lasting_served hserved (forgePermission_among hcaller hw)

variable (jobs) in
/-- What a job knows when it has returned. -/
def Knows (i : ι) (given : Option Permission) (past : List (Moment ι)) : Prop :=
  ∀ token ns permission, jobs i = .permission token ns → given = some permission →
    Served i ns past ∧ Given i token ns permission past

/-- Nothing was given. -/
theorem none_among (hw : Sound sha256 jobs grantedTtl w) :
    (ledger sha256 jobs grantedTtl).Among i (Knows jobs i)
      (Pure.pure none : Op (Option Permission)) w := by
  have hnone : ∀ past, Knows jobs i none past := by rintro past token ns permission - ⟨⟩
  exact Ledger.Among.pure (fun _ _ _ _ _ _ _ => hnone _) hw (hnone _)

theorem op_among (i : ι) (hw : Sound sha256 jobs grantedTtl w) :
    (ledger sha256 jobs grantedTtl).Among i (Knows jobs i) (jobs i).op w := by
  cases hjob : jobs i with
  | permission token ns =>
      refine Ledger.Among.bind (permission_among (by rw [hjob]; rfl) hw) fun given w hw h => ?_
      refine Ledger.Among.pure (.of_lasting ?_) hw ?_
      · intro e past hk token' ns' permission hsame hgiven
        exact (lasting_served.and (lasting_admitted.and lasting_told)) e past
          (hk token' ns' permission hsame hgiven)
      · intro token' ns' permission hsame hgiven
        rw [hjob] at hsame
        cases hsame
        cases hgiven
        exact h
  | forgePermission token ns =>
      refine Ledger.Among.bind (forgePermission_among (by rw [hjob]; rfl) hw) fun given w hw _ => ?_
      have hother : ∀ past, Knows jobs i (some given) past := by
        intro past token' ns' permission hsame
        rw [hjob] at hsame
        cases hsame
      exact Ledger.Among.pure (fun _ _ _ _ _ _ _ => hother _) hw (hother _)
  | setAccess replacement =>
      exact Ledger.Among.bind (Ledger.Among.certain .always (fun _ _ => trivial) hw trivial)
        fun _ w hw _ => none_among hw
  | refreshAccess replacement =>
      refine Ledger.Among.bind (Ledger.Among.certain .always (fun _ _ => trivial) hw trivial)
        fun _ w hw _ => ?_
      exact Ledger.Among.bind (Ledger.Among.certain .always (fun _ _ => trivial) hw trivial)
        fun _ w hw _ => none_among hw
  | wait elapsed =>
      exact Ledger.Among.bind (Ledger.Among.certain .always (fun _ _ => trivial) hw trivial)
        fun _ w hw _ => none_among hw

end

/-! ## Every run -/

/-- A server that was just started, and everything that will happen to it. -/
def start (jobs : ι → Job) (access : Access) (grantedTtl rejectedTtl now : Nat) :
    Pool ι Req Resp (Except AuthError (Option Permission)) (Authorizer × List (Moment ι)) :=
  ⟨fun i => (jobs i).op.run, (⟨access, 0, .new grantedTtl rejectedTtl, now⟩, [])⟩

/-- No two of the callers have one digest. -/
def Separates (sha256 : Bytes → Fixed 32) (jobs : ι → Job) : Prop :=
  ∀ i j a b, (jobs i).caller = some a → (jobs j).caller = some b →
    sha256 a.input = sha256 b.input → a.input = b.input

/-- **What a permission rests on.**  Among any requests, changes and the passing of time, a
request that is given a permission has read settings by which its repository is served, and
settings by which its caller may have that permission.  The forge gave this very permission
to the same caller for the same repository: to the request itself, or less than the time to
live before the request looked into the cache. -/
theorem permission_sound [DecidableEq ι] (hsha : Separates sha256 jobs) {access : Access}
    {rejectedTtl now : Nat}
    {pool : Pool ι Req Resp (Except AuthError (Option Permission)) (Authorizer × List (Moment ι))}
    (hsteps : Pool.Steps (ledger sha256 jobs grantedTtl).entering
      (start jobs access grantedTtl rejectedTtl now) pool)
    {i : ι} {token : Option Bytes} {ns : Namespace} {permission : Permission}
    (hjob : jobs i = .permission token ns) (hdone : pool.progs i = .pure (.ok (some permission))) :
    (∃ t access, (t, ⟨i, .access, access⟩) ∈ pool.state.2 ∧
      ∀ allowed, access.allowed = some allowed → allowed.covers ns = true) ∧
    (∃ t access, (t, ⟨i, .access, access⟩) ∈ pool.state.2 ∧
      (access.restricted.covers ns = true → permission = .write ∨ permission = .admin) ∧
      (token = none → access.anonymousRead = true ∧ access.restricted.covers ns = false)) ∧
    ∃ t j ns', (t, ⟨j, .ask (.of token) ns', .ok permission⟩) ∈ pool.state.2 ∧ ns'.Same ns ∧
      (j = i ∨ ∃ t', (t', ⟨i, .cached (.of token) ns, some (.granted permission)⟩) ∈ pool.state.2 ∧
        t ≤ t' ∧ t' < t + grantedTtl) := by
  have hinit : Sound sha256 jobs grantedTtl
      (⟨access, 0, .new grantedTtl rejectedTtl, now⟩, ([] : List (Moment ι))) := by
    refine ⟨rfl, ?_, ?_, ?_, ?_⟩ <;> intros <;> contradiction
  obtain ⟨hsound, hend⟩ := Ledger.reached (L := ledger sha256 jobs grantedTtl) hinit
    (fun i => op_among i hinit) hsteps
  obtain ⟨hserved, hadmitted, htold⟩ := hend i _ hdone token ns permission hjob rfl
  refine ⟨hserved, hadmitted, ?_⟩
  rcases htold with ⟨t, hasked⟩ | ⟨t', hfound⟩
  · exact ⟨t, i, ns, hasked, .refl ns, Or.inl rfl⟩
  · obtain ⟨t, ⟨j, caller, ns', answer, hasked, hkey, hdecision⟩, htimes⟩ :=
      hsound.hit t' i _ ns permission hfound
    -- The key names the caller and the repository.
    have hcaller : caller = .of token :=
      Caller.input_inj (hsha j i caller (.of token) (hsound.own t j caller ns' answer hasked)
        (by rw [hjob]; rfl) (congrArg Prod.fst hkey))
    have hsame : ns'.Same ns := Namespace.display_eq_iff.mp (congrArg Prod.snd hkey)
    have hanswer : answer = .ok permission := by
      cases answer with
      | ok given =>
          cases hdecision
          rfl
      | error e => cases e <;> cases hdecision
    subst hcaller hanswer
    exact ⟨t, j, ns', hasked, hsame, Or.inr ⟨t', hfound, htimes⟩⟩

/-- SHA-256 of `anonymous`, and the start of anything else. -/
def sampleDigest (bytes : Bytes) : Fixed 32 :=
  if bytes = Caller.anonymous.input then
    ⟨[0x2f, 0x18, 0x3a, 0x4e, 0x64, 0x49, 0x3a, 0xf3, 0xf3, 0x77, 0xf7,
      0x45, 0xed, 0xa5, 0x02, 0x36, 0x3c, 0xd3, 0xe7, 0xef, 0x6e, 0x4d,
      0x26, 0x6d, 0x44, 0x47, 0x58, 0xde, 0x0a, 0x85, 0xfc, 0xc8], rfl⟩
  else ⟨(bytes ++ List.replicate 32 0).take 32, length_padded bytes⟩

/-- A forge that lets anybody read. -/
def publicForge (a : Authorizer) : (r : Req) → Option (Resp r × Authorizer)
  | .access => some (a.access, a)
  | .cached caller ns => some (a.cache.get a.now (Cache.keyOf sampleDigest caller ns), a)
  | .afford => some (.ok (), a)
  | .ask caller ns => some (.ok .read, a.answered (Cache.keyOf sampleDigest caller ns) (.ok .read))
  | .revision => some (a.revision, a)
  | .setAccess replacement => some ((), a.setAccess replacement)
  | .refreshAccess seen replacement => some (a.refreshAccess seen replacement)
  | .wait elapsed => some ((), { a with now := a.now + elapsed })

theorem publicForge_answers (a : Authorizer) (r : Req) (answered : Resp r × Authorizer)
    (h : publicForge a r = some answered) : Answers sampleDigest r a answered.1 answered.2 := by
  cases r <;> cases h
  case afford => exact ⟨Or.inl rfl, rfl⟩
  all_goals first | exact ⟨rfl, rfl⟩ | rfl

/-- Two clients without a token read one repository, one after the other. -/
theorem permission_sound_anonymous :
    ∃ pool, Pool.Steps
        (ledger sampleDigest (fun _ : Bool => .permission none .acme) 300).entering
        (start (fun _ : Bool => .permission none .acme) ⟨true, [], none⟩ 300 30 0) pool ∧
      pool.progs true = .pure (.ok (some .read)) ∧
      ∃ t j ns', (t, ⟨j, .ask .anonymous ns', .ok .read⟩) ∈ pool.state.2 ∧ ns'.Same .acme ∧
        (j = true ∨ ∃ t', (t', ⟨true, .cached .anonymous .acme, some (.granted .read)⟩) ∈
            pool.state.2 ∧ t ≤ t' ∧ t' < t + 300) := by
  have hplayed : ((start (fun _ : Bool => .permission none .acme) ⟨true, [], none⟩ 300 30 0).play
      ((ledger sampleDigest (fun _ : Bool => .permission none .acme) 300).noting
        fun _ r a => publicForge a r)
      [false, false, false, false, false, true, true, true]).any
      (fun pool => (pool.progs true).result = some (.ok (some .read))) = true := by
    decide +kernel
  obtain ⟨pool, hplay, hresult⟩ := (Option.any_eq_true _ _).mp hplayed
  have hsteps := Pool.play_steps
    (Ledger.noting_entering fun _ r a answered h => publicForge_answers a r answered h) hplay
  have hdone := Program.eq_pure_of_result (of_decide_eq_true hresult)
  have hsha : Separates sampleDigest fun _ : Bool => Job.permission none .acme := by
    rintro i j a b ⟨⟩ ⟨⟩ -
    rfl
  exact ⟨pool, hsteps, hdone, (permission_sound hsha hsteps rfl hdone).2.2⟩

end Lfsx.Auth
