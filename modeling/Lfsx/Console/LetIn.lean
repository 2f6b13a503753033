import Lfsx.Console.SignedIn
import Lfsx.Console.TokensLaws
import Mathlib.Tactic.FinCases

/-!
# Who is let in

Whoever a cookie lets through is who signed in, and what let them in then still stands
(`viewers_are_admitted`).  A session that was closed stays closed
(`closed_sessions_stay_closed`), and a process that has changed the list of tokens goes by lists
it read since (`lists_are_fresh`).
-/

namespace Lfsx.Console.SignIn

open Request
open Meta (MetaError Process Deployment Cluster)
open Tokens (Issued Refusal)

variable {ι : Type} [DecidableEq ι]

/-! ## Runs -/

section Runs

variable {setup : Setup} {process : ι → Process} {calls : ι → Call} {store : Cluster}
  {drawn : List Text} {clock : Nat}
  {pool pool₁ pool₂ : Pool ι Asked (Cached.Reply Resp (List Issued)) (Except Failed Outcome)
    (World ι × Past ι)}
  {i : ι}

/-- How long a list of tokens is gone by. -/
def patience : Nat := nanoseconds Tokens.every

/-- **What holds in every run.** -/
theorem reached
    (hsteps : Pool.Steps (serves setup process) (start setup process calls store drawn clock)
      pool) :
    Cached.Sound process setup.load
        (desk setup.formats.base64 setup.deployment process setup.key) pool.state ∧
      Kept setup process pool.state := by
  have hidle : ∀ i, ((calls i).op (setup.server (process i))).run.Follows
      (Cached.protocol setup.load) (fun _ phase => phase = .idle) .idle := by
    intro i
    rw [← setup.server_load (process i)]
    exact idle_call (calls i)
  refine ⟨Cached.Sound.steps hidle (Cached.Sound.start _ _) hsteps, ?_⟩
  refine (Pool.Steps.follows_logged (P := fun _ => Cached.protocol setup.load)
    (I := Kept setup process) (fun _ _ _ _ _ h => h.2) ?_ hidle ?_ hsteps).1
  · rintro i r w answer ⟨w', past'⟩ hw - ⟨hserves, rfl⟩
    exact hw.step hserves
  · exact Kept.start store drawn clock

/-- What a call that has returned was told. -/
theorem call_told
    (hsteps : Pool.Steps (serves setup process) (start setup process calls store drawn clock) pool)
    {answer : Except Failed Outcome} (hreturned : pool.progs i = .pure answer) :
    ((calls i).op (setup.server (process i))).Told (own i pool.state.2) answer := by
  have htold := Pool.Steps.told rfl hsteps i
  rw [hreturned] at htold
  exact htold

/-- A list that was got was young enough. -/
theorem had_of_got {list : List Issued} (hsound : Cached.Sound process setup.load
      (desk setup.formats.base64 setup.deployment process setup.key) pool.state)
    (hgot : Got (setup.server (process i)) list (own i pool.state.2)) :
    Cached.Had process setup.load patience i list pool.state.2 := by
  obtain ⟨told, hsub, htold⟩ := hgot
  rw [Server.all, setup.server_load] at htold
  exact hsound.had htold fun r answer hmem => mem_own.mp (hsub hmem)

omit [DecidableEq ι] in
/-- The id of a session is drawn once. -/
theorem Kept.opened_once {w : World ι × Past ι} (hw : Kept setup process w) {j k : ι}
    {id token token' : Text} {lasts lasts' : Nat}
    (hj : (⟨j, .outer (.openSession token lasts), id⟩ : Event ι _ _) ∈ w.2)
    (hk : (⟨k, .outer (.openSession token' lasts'), id⟩ : Event ι _ _) ∈ w.2) :
    j = k ∧ token = token' := by
  obtain ⟨later, before, hpast⟩ := List.append_of_mem hj
  rw [hpast] at hk
  rcases List.mem_append.mp hk with hk | hk
  · obtain ⟨first, rest, rfl⟩ := List.append_of_mem hk
    rw [List.append_assoc, List.cons_append] at hpast
    exact absurd (List.mem_append_right _ List.mem_cons_self)
      (hw.once first _ k token' lasts' id hpast j token lasts)
  · rcases List.mem_cons.mp hk with heq | hk
    · cases heq
      exact ⟨rfl, rfl⟩
    · exact absurd hk (hw.once later before j token lasts id hpast k token' lasts')

/-! ### Cookies -/

theorem signedIn_told
    (hsteps : Pool.Steps (serves setup process) (start setup process calls store drawn clock) pool)
    {token cookie : Text} {viewer : Viewer} (hcall : calls i = .signIn token)
    (hreturned : pool.progs i = .pure (.ok (.signedIn cookie viewer))) :
    ∃ issued now, SealedAs (setup.server (process i)) (trim isBlank token) (own i pool.state.2)
      cookie viewer issued now := by
  have htold := call_told hsteps hreturned
  rw [hcall] at htold
  obtain ⟨⟨cookie', who⟩, hsigned, heq⟩ := Fallible.Told.returning htold
  cases heq
  exact signIn_told hsigned

theorem viewing_told
    (hsteps : Pool.Steps (serves setup process) (start setup process calls store drawn clock) pool)
    {headers : List Bytes} {viewer : Viewer} (hcall : calls i = .viewer headers)
    (hreturned : pool.progs i = .pure (.ok (.viewing (some viewer)))) :
    ∃ cookie claims now, Opens (setup.server (process i)) headers (own i pool.state.2) viewer cookie
      setup.key claims now := by
  have htold := call_told hsteps hreturned
  rw [hcall] at htold
  obtain ⟨who, hviewed, heq⟩ := Fallible.Told.returning htold
  cases heq
  obtain ⟨cookie, key, claims, now, hopens⟩ := viewer_told hviewed
  obtain rfl := (reached hsteps).2.key i key (mem_own.mp hopens.signed)
  exact ⟨cookie, claims, now, hopens⟩

/-- The claims of whoever signs in with `hello`, in the first session there is. -/
def forgeClaims : Claims :=
  ⟨.forge "ada".toList, some (Base64.encodeUrl (List.replicate 32 0)), 1700043200⟩

/-- The claims of whoever signs in with the token that is made. -/
def tokenClaims : Claims := ⟨.token "new".toList, some Tokens.newToken.hash, 1700043200⟩

def printedViewer : Viewer → Text
  | .token name => "\x7b\"via\":\"token\",\"name\":\"".toList ++ name ++ "\"\x7d".toList
  | .forge name => "\x7b\"via\":\"forge\",\"name\":\"".toList ++ name ++ "\"\x7d".toList

/-- What `serde_json::to_vec` prints. -/
def printedClaims (claims : Claims) : Bytes :=
  utf8Bytes ("\x7b\"viewer\":".toList ++ printedViewer claims.viewer ++ ",\"issued\":\"".toList ++
    claims.issued.getD [] ++ "\",\"expires\":".toList ++ Storage.decimal claims.expires.toNat ++
    "\x7d".toList)

/-- HMAC-SHA256 of the two claims under `sampleKey`, and the start of anything else. -/
def sampleMac (text : Bytes) : Fixed 32 :=
  if text = utf8Bytes (Base64.encodeUrl (printedClaims forgeClaims)) then
    ⟨[0x09, 0x9c, 0x65, 0x1a, 0xcd, 0xc9, 0x3f, 0xda, 0x1a, 0x98, 0xa9,
      0x63, 0x6c, 0xa9, 0xb8, 0x16, 0x0d, 0xb5, 0x4a, 0x03, 0x51, 0x7e,
      0x11, 0xdd, 0x2a, 0xdc, 0x86, 0xfa, 0x8f, 0x92, 0x99, 0x03], rfl⟩
  else if text = utf8Bytes (Base64.encodeUrl (printedClaims tokenClaims)) then
    ⟨[0xd6, 0x46, 0xfb, 0x4a, 0x39, 0x29, 0x46, 0xc0, 0x6d, 0x94, 0xf7,
      0xdd, 0x40, 0x7e, 0x1a, 0x27, 0xf3, 0xa0, 0x7f, 0x94, 0x90, 0x07,
      0x3c, 0xff, 0x12, 0xd3, 0x13, 0x15, 0xbe, 0x8c, 0x98, 0xc4], rfl⟩
  else ⟨(text ++ List.replicate 32 0).take 32, length_padded text⟩

def sampleKey : Bytes := List.replicate 32 7

def sampleSetup : Setup where
  formats := {
    tokens := Tokens.sample
    encode := fun claims =>
      if claims ∈ [forgeClaims, tokenClaims] then some (printedClaims claims) else none
    decode := fun bytes => [forgeClaims, tokenClaims].find? (printedClaims · == bytes)
    hmac := fun _ text => sampleMac text
    values := .ascii }
  deployment := .bucket
  signing := none
  admins := some .acme
  key := sampleKey

/-- One process, with a forge where everybody is `ada`, and an admin. -/
def alone (_ : ι) : Process := ⟨1, 0⟩

/-- A store that refuses nothing. -/
def attend (i : ι) : (r : Req) → Desk → Option (Resp r × Desk)
  | .store r, d => (Meta.respond alone i r d.store.store).map fun answered =>
      (answered.1, { d with store := ⟨answered.2, d.store.lives⟩ })
  | .key, d => some (.ok sampleKey, d)
  | .now, d => some (1700000000, d)
  | .openSession token lifetime, d =>
      if d.drawn.contains (Base64.encodeUrl (List.replicate 32 0)) then none
      else some (Base64.encodeUrl (List.replicate 32 0), { d with
        sessions := Function.update d.sessions ⟨1, 0⟩ ((d.sessions ⟨1, 0⟩).opened d.clock
          (Base64.encodeUrl (List.replicate 32 0)) ⟨token, d.clock + lifetime⟩)
        drawn := Base64.encodeUrl (List.replicate 32 0) :: d.drawn })
  | .sessionToken id, d => some ((d.sessions ⟨1, 0⟩).token d.clock id, d)
  | .closeSession id, d => some ((), { d with
      sessions := Function.update d.sessions ⟨1, 0⟩ ((d.sessions ⟨1, 0⟩).closed id) })
  | .permission _, d => some (.ok .admin, d)
  | .actor _, d => some (.ok "ada".toList, d)

omit [DecidableEq ι] in
theorem attend_answers (i : ι) (r : Req) (d : Desk) (answered : Resp r × Desk)
    (h : attend i r d = some answered) :
    Answers .unpadded .bucket alone sampleKey i r d answered.1 answered.2 := by
  cases r with
  | store r =>
      obtain ⟨given, hgiven, rfl⟩ := Option.map_eq_some_iff.mp h
      exact ⟨⟨given.2, d.store.lives⟩, ⟨Meta.respond_serves _ i r _ given hgiven, rfl⟩, rfl⟩
  | key =>
      cases h
      exact ⟨.inl rfl, rfl⟩
  | openSession token lifetime =>
      obtain ⟨hnew, heq⟩ := Option.ite_none_left_eq_some.mp h
      cases heq
      exact ⟨⟨⟨List.replicate 32 0, rfl⟩, rfl⟩,
        fun hdrawn => hnew (List.contains_iff_mem.mpr hdrawn), rfl⟩
  | now | sessionToken id | permission token | actor token =>
      cases h
      first | exact rfl | exact ⟨rfl, rfl⟩
  | closeSession id =>
      cases h
      exact rfl

/-- What a call is answered, written down. -/
def attending (i : ι) (r : Asked) (w : World ι × Past ι) :
    Option (Cached.Reply Resp (List Issued) r × (World ι × Past ι)) :=
  (Cached.respond (desk .unpadded .bucket alone sampleKey) alone attend i r w.1).map fun answered =>
    (answered.1, (answered.2, ⟨i, r, answered.1⟩ :: w.2))

theorem attending_serves (i : ι) (r : Asked) (w : World ι × Past ι)
    (answered : Cached.Reply Resp (List Issued) r × (World ι × Past ι))
    (h : attending i r w = some answered) :
    serves sampleSetup alone i r w answered.1 answered.2 := by
  obtain ⟨given, hgiven, rfl⟩ := Option.map_eq_some_iff.mp h
  have hwaits : ∀ d : Desk, Waits d d := fun d => ⟨d.clock, Nat.le_refl _, rfl⟩
  exact ⟨Cached.respond_serves hwaits attend_answers i r w.1 given hgiven, rfl⟩

/-- The cookie of whoever signs in with `hello`. -/
def helloCookie : Text := sampleSetup.formats.sealedText sampleKey (printedClaims forgeClaims)

/-- What a browser with the cookie says. -/
def withCookie : List Bytes := [utf8Bytes ("theme=dark; lfsx_session=".toList ++ helloCookie)]

/-- Somebody signs in, looks, and signs out. -/
def visit : Fin 3 → Call
  | 0 => .signIn " hello ".toList
  | 1 => .viewer withCookie
  | 2 => .signOut withCookie

def visiting := start sampleSetup alone visit Tokens.oneToken [] 0

theorem presented_withCookie : sampleSetup.formats.presented withCookie = some helloCookie := by
  decide +kernel

/-- What stands before an item that a list has once. -/
theorem before_unique {α : Type} {e e' : α} {a b c d : List α} (h : a ++ e :: b = c ++ e' :: d)
    (he : e ∉ d) (he' : e' ∉ b) : a = c := by
  rcases List.append_eq_append_iff.mp h with ⟨more, rfl, hmore⟩ | ⟨more, rfl, hmore⟩
  · cases more with
    | nil => rw [List.append_nil]
    | cons x more =>
        refine absurd ?_ he'
        rw [(List.cons.inj hmore).2]
        exact List.mem_append_right _ List.mem_cons_self
  · cases more with
    | nil => rw [List.append_nil]
    | cons x more =>
        refine absurd ?_ he
        rw [(List.cons.inj hmore).2]
        exact List.mem_append_right _ List.mem_cons_self

omit [DecidableEq ι] in
/-- A session that was opened and then closed is not open. -/
theorem Kept.not_opened {w : World ι × Past ι} (hw : Kept setup process w)
    {later before rest rest' : Past ι} {j k : ι} {id token token' : Text} {lasts : Nat}
    {p : Process} (hpast : w.2 = rest ++ before)
    (hbefore : before = later ++ ⟨k, .outer (.closeSession id), ()⟩ :: rest')
    (hopened : (⟨j, .outer (.openSession token lasts), id⟩ : Event ι _ _) ∈ rest')
    (hk : process k = p) : ¬ Opened process p id token' before := by
  rintro ⟨later', i, lasts', before', hbefore', -, hclosed⟩
  obtain ⟨first, last, rfl⟩ := List.append_of_mem hopened
  have hwhole : w.2 = (rest ++ later ++ ⟨k, .outer (.closeSession id), ()⟩ :: first) ++
      ⟨j, .outer (.openSession token lasts), id⟩ :: last := by
    rw [hpast, hbefore]
    simp
  have hwhole' : w.2 = (rest ++ later') ++
      ⟨i, .outer (.openSession token' lasts'), id⟩ :: before' := by
    rw [hpast, hbefore']
    simp
  have hsame := before_unique (hwhole.symm.trans hwhole')
    (hw.once _ _ _ _ _ _ hwhole' j token lasts) (hw.once _ _ _ _ _ _ hwhole i token' lasts')
  rw [List.append_assoc] at hsame
  have hlater := List.append_cancel_left hsame
  refine hclosed ⟨k, .outer (.closeSession id), ()⟩ ?_ rfl hk
  rw [← hlater]
  simp

/-- **A session that was closed stays closed.**  Once somebody signed out of a session, or a view
has found that the forge no longer calls the token an admin's, no view that begins after that lets
the cookie through again. -/
theorem closed_sessions_stay_closed
    (hsteps₁ : Pool.Steps (serves setup process)
      (start setup process calls store drawn clock) pool₁)
    (hsteps₂ : Pool.Steps (serves setup process) pool₁ pool₂) {j k : ι} {id token : Text}
    {lasts : Nat} {later before : Past ι}
    (hclosed : pool₁.state.2 = later ++ ⟨k, .outer (.closeSession id), ()⟩ :: before)
    (hopened : (⟨j, .outer (.openSession token lasts), id⟩ : Event ι _ _) ∈ before)
    (hprocess : process k = process j) (hnew : ∀ e ∈ pool₁.state.2, e.thread ≠ i)
    {headers : List Bytes} {cookie login : Text} {expires : Int} (hcall : calls i = .viewer headers)
    (hpresented : setup.formats.presented headers = some cookie)
    (hverified : setup.formats.verified setup.key cookie = some ⟨.forge login, some id, expires⟩)
    {answer : Option Viewer} (hreturned : pool₂.progs i = .pure (.ok (.viewing answer))) :
    answer = none := by
  have hsteps := hsteps₁.trans hsteps₂
  obtain ⟨-, hkept⟩ := reached hsteps
  cases answer with
  | none => rfl
  | some viewer =>
      exfalso
      obtain ⟨cookie', claims, now, hopens⟩ := viewing_told hsteps hcall hreturned
      obtain rfl := Option.some.inj (hopens.shows.symm.trans hpresented)
      obtain rfl := Option.some.inj (hopens.verified.symm.trans hverified)
      have hstands := hopens.stands
      cases hstands with
      | @forge login id token' hlooked hadmin =>
          obtain ⟨more, hmore⟩ := Pool.Steps.logged hsteps₂
          have hlooked' := mem_own.mp hlooked
          rw [hmore] at hlooked'
          rcases List.mem_append.mp hlooked' with hin | hin
          · obtain ⟨first, last, rfl⟩ := List.append_of_mem hin
            have hpast : pool₂.state.2 = first ++
                ⟨i, .outer (.sessionToken id), some token'⟩ :: (last ++ pool₁.state.2) := by
              rw [hmore]
              simp
            have hstill := hkept.looked first _ i id token' hpast
            obtain ⟨_, k', lasts', _, hbefore, hprocess', -⟩ := hstill
            have hopening : (⟨k', .outer (.openSession token' lasts'), id⟩ : Event ι _ _) ∈
                pool₂.state.2 := by
              rw [hpast, hbefore]
              simp
            have hopening' : (⟨j, .outer (.openSession token lasts), id⟩ : Event ι _ _) ∈
                pool₂.state.2 := by
              rw [hmore, hclosed]
              simp [hopened]
            obtain ⟨rfl, rfl⟩ := hkept.opened_once hopening' hopening
            have hfirst : pool₂.state.2 = (first ++ [⟨i, .outer (.sessionToken id), some token⟩]) ++
                (last ++ pool₁.state.2) := by
              rw [hpast]
              simp
            have hlast : last ++ pool₁.state.2 =
                (last ++ later) ++ ⟨k, .outer (.closeSession id), ()⟩ :: before := by
              rw [hclosed]
              simp
            exact hkept.not_opened hfirst hlast hopened (hprocess.trans hprocess')
              (hkept.looked first _ i id token hpast)
          · exact hnew _ hin rfl

/-- The session of the cookie is closed. -/
def closes : Event (Fin 3) Asked (Cached.Reply Resp (List Issued)) → Bool
  | ⟨k, .outer (.closeSession id), _⟩ => k.val = 2 ∧ id = Base64.encodeUrl (List.replicate 32 0)
  | _ => false

/-- The session of the cookie is opened. -/
def opens : Event (Fin 3) Asked (Cached.Reply Resp (List Issued)) → Bool
  | ⟨k, .outer (.openSession token lasts), id⟩ => k.val = 0 ∧ token = "hello".toList ∧
      lasts = nanoseconds lifetime ∧ id = Base64.encodeUrl (List.replicate 32 0)
  | _ => false

theorem eq_of_closes {e : Event (Fin 3) Asked (Cached.Reply Resp (List Issued))}
    (h : closes e = true) :
    e = ⟨2, .outer (.closeSession (Base64.encodeUrl (List.replicate 32 0))), ()⟩ := by
  unfold closes at h
  split at h
  · obtain ⟨hthread, rfl⟩ := of_decide_eq_true h
    obtain rfl : _ = (2 : Fin 3) := Fin.ext hthread
    rfl
  · cases h

theorem eq_of_opens {e : Event (Fin 3) Asked (Cached.Reply Resp (List Issued))}
    (h : opens e = true) :
    e = ⟨0, .outer (.openSession "hello".toList (nanoseconds lifetime)),
      Base64.encodeUrl (List.replicate 32 0)⟩ := by
  unfold opens at h
  split at h
  · obtain ⟨hthread, rfl, rfl, rfl⟩ := of_decide_eq_true h
    obtain rfl : _ = (0 : Fin 3) := Fin.ext hthread
    rfl
  · cases h

theorem closed_sessions_stay_closed_visiting :
    ∃ pool₁ pool₂, visiting.play attending [0, 0, 0, 0, 0, 2, 2, 2] = some pool₁ ∧
      pool₁.play attending [1, 1, 1] = some pool₂ ∧
      ∃ answer, pool₂.progs 1 = .pure (.ok (.viewing answer)) ∧ answer = none := by
  have hplayed : (visiting.play attending [0, 0, 0, 0, 0, 2, 2, 2]).any (fun pool₁ =>
      ((∃ e ∈ pool₁.state.2.head?, closes e) ∧ (∃ e ∈ pool₁.state.2.tail, opens e) ∧
        ∀ e ∈ pool₁.state.2, e.thread ≠ 1) ∧
      (pool₁.play attending [1, 1, 1]).any (fun pool₂ =>
        decide ((pool₂.progs 1).result = some (.ok (.viewing none)))) = true) = true := by
    decide +kernel
  obtain ⟨pool₁, hplay₁, hlast⟩ := (Option.any_eq_true _ _).mp hplayed
  obtain ⟨⟨⟨e, hhead, hcloses⟩, ⟨e', hmem, hopens⟩, hnew⟩, hplayed⟩ := of_decide_eq_true hlast
  obtain ⟨pool₂, hplay₂, hlast⟩ := (Option.any_eq_true _ _).mp hplayed
  have hviewed := Program.eq_pure_of_result (of_decide_eq_true hlast)
  obtain rfl := eq_of_closes hcloses
  obtain rfl := eq_of_opens hopens
  have hclosed : pool₁.state.2 = [] ++
      ⟨2, .outer (.closeSession (Base64.encodeUrl (List.replicate 32 0))), ()⟩ ::
        pool₁.state.2.tail :=
    (List.cons_head?_tail hhead).symm
  have hverified : sampleSetup.formats.verified sampleKey helloCookie = some forgeClaims := by
    decide +kernel
  exact ⟨pool₁, pool₂, hplay₁, hplay₂, none, hviewed, closed_sessions_stay_closed
    (Pool.play_steps attending_serves hplay₁) (Pool.play_steps attending_serves hplay₂) hclosed hmem
    rfl hnew rfl presented_withCookie hverified hviewed⟩

/-! ### Lists that were emptied -/

/-- An operation that empties the list whatever comes of it. -/
theorem cleared_told {α β : Type} {op : Op α} {f : Except Failed α → Op β} {told : List Told}
    {answer : Except Failed β}
    (h : (op.attempt >>= fun done => (Cached.invalidate : Op Unit) >>= fun _ => f done).Told told
      answer) : (⟨.clear, ()⟩ : Told) ∈ told := by
  rw [Fallible.Told, ExceptT.run_bind] at h
  obtain ⟨result, before, after, rfl, hbefore, hafter⟩ := Program.Told.bind_inv h
  obtain ⟨result', first, second, rfl, -, hsecond⟩ := Program.Told.bind_inv hbefore
  obtain ⟨rfl, heq⟩ := Program.Told.pure_inv hsecond
  cases heq
  obtain ⟨_, rest, rfl, -⟩ := Fallible.Told.issue_inv hafter
  simp

/-- A list is what a request has read. -/
def ReadIn (setup : Setup) (list : List Issued) (span : Past ι) : Prop :=
  ∃ j r answer kept, (⟨j, .outer (.store r), answer⟩ : Event ι _ _) ∈ span ∧
    Tokens.lastRead none r answer = some kept ∧
      Tokens.listOf setup.formats.tokens (setup.server ⟨0, 0⟩).store kept = some list

theorem readMeta_told {backend : Meta.Backend} {name : Text}
    {told : List (Answered Meta.Req Meta.Resp)} {kept : Option Bytes}
    (hread : ∀ handle, (⟨.disk (.readAll handle), .error .notFound⟩ : Answered _ _) ∉ told)
    (h : (backend.readMeta name).Told told (.ok kept)) :
    ∃ r answer, (⟨r, answer⟩ : Answered _ _) ∈ told ∧
      Tokens.lastRead none r answer = some kept := by
  cases backend with
  | bucket =>
      obtain ⟨item, before, after, rfl, hbefore, hafter⟩ := Fallible.Told.bind_ok h
      obtain ⟨rfl, heq⟩ := Fallible.Told.pure_inv hafter
      obtain ⟨given, rfl, hgiven⟩ := Fallible.Told.ask_inv (Fallible.Told.mapError_ok hbefore)
      obtain rfl : given = .ok item := hgiven
      cases heq
      exact ⟨_, _, List.mem_singleton_self _, rfl⟩
  | «local» number =>
      obtain ⟨result, before, after, rfl, hbefore, hafter⟩ := Fallible.Told.caught_ok h
      cases result with
      | ok bytes =>
          obtain ⟨rfl, heq⟩ := Fallible.Told.pure_inv hafter
          cases heq
          obtain ⟨handle, first, second, rfl, -, hsecond⟩ := Fallible.Told.bind_ok hbefore
          obtain ⟨given, rfl, hgiven⟩ := Fallible.Told.ask_inv hsecond
          obtain rfl : given = .ok bytes := hgiven
          exact ⟨.disk (.readAll handle), .ok bytes, by simp, rfl⟩
      | error e =>
          cases e with
          | notFound =>
              obtain ⟨rfl, heq⟩ := Fallible.Told.pure_inv hafter
              cases heq
              rcases Fallible.Told.bind_error hbefore with
                hopen | ⟨handle, first, second, rfl, -, hlast⟩
              · obtain ⟨given, rfl, hgiven⟩ := Fallible.Told.ask_inv hopen
                obtain rfl : given = .error .notFound := hgiven
                exact ⟨.disk (.openFile (Meta.pathOf name)), .error .notFound, by simp, rfl⟩
              · obtain ⟨given, rfl, hgiven⟩ := Fallible.Told.ask_inv hlast
                obtain rfl : given = .error .notFound := hgiven
                exact absurd (by simp) (hread handle)
          | alreadyExists => cases (Fallible.Told.throw_inv hafter).2
          | other => cases (Fallible.Told.throw_inv hafter).2

/-- What was loaded was read. -/
theorem load_told {told : List (Answered Req Resp)} {list : List Issued}
    (hread : ∀ handle, (⟨.store (.disk (.readAll handle)), .error .notFound⟩ : Answered _ _) ∉ told)
    (h : setup.load.Told told (.ok list)) :
    ∃ r answer kept, (⟨.store r, answer⟩ : Answered Req Resp) ∈ told ∧
      Tokens.lastRead none r answer = some kept ∧
        Tokens.listOf setup.formats.tokens (setup.server ⟨0, 0⟩).store kept = some list := by
  obtain ⟨told', htold', hmem⟩ := Program.Told.within_inv h
  have hissued : (Tokens.issued setup.formats.tokens (setup.server ⟨0, 0⟩).store).Told told'
      (.ok list) := Fallible.Told.mapError_ok htold'
  obtain ⟨payload, before, after, rfl, hbefore, hafter⟩ := Fallible.Told.bind_ok hissued
  obtain ⟨kept, first, second, rfl, hfirst, hsecond⟩ := Fallible.Told.bind_ok hbefore
  have hnone : ∀ handle, (⟨.disk (.readAll handle), .error .notFound⟩ : Answered _ _) ∉ first := by
    intro handle hin
    obtain ⟨answer', rfl, hin'⟩ := hmem _ _ (List.mem_append_right _ (List.mem_append_right _ hin))
    exact hread handle hin'
  obtain ⟨r, answer, hin, hlast⟩ := readMeta_told hnone hfirst
  obtain ⟨answer', rfl, hin'⟩ := hmem r answer (by simp [hin])
  refine ⟨r, answer', kept, hin', hlast, ?_⟩
  have hpayload : payload = kept.bind ((setup.server ⟨0, 0⟩).store.verified
      setup.formats.tokens.signing Tokens.fileName) := by
    cases kept with
    | none => exact Except.ok.inj (Fallible.Told.pure_inv hsecond).2
    | some bytes => exact Except.ok.inj (Fallible.Told.pure_inv hsecond).2
  rw [Tokens.listOf, ← hpayload]
  cases payload with
  | none => exact congrArg some (Except.ok.inj (Fallible.Told.pure_inv hafter).2).symm
  | some bytes =>
      dsimp only at hafter ⊢
      split at hafter
      · rename_i list' hdecode
        obtain ⟨-, heq⟩ := Fallible.Told.pure_inv hafter
        cases heq
        exact hdecode
      · cases (Fallible.Told.throw_inv hafter).2

/-- The hash of the dashboard token a call goes by. -/
def Call.hash (setup : Setup) : Call → Option Text
  | .signIn token => some (setup.formats.tokens.digest (trim isBlank token))
  | .viewer headers => (setup.formats.presented headers).bind fun cookie =>
      (setup.formats.verified setup.key cookie).bind Claims.issued
  | _ => none

/-- Who a call has let in. -/
def Outcome.viewer : Outcome → Option Viewer
  | .signedIn _ viewer => some viewer
  | .viewing viewer => viewer
  | .done => none

/-- Who is let in by a dashboard token is in a list the call has got. -/
theorem let_in_told
    (hsteps : Pool.Steps (serves setup process) (start setup process calls store drawn clock) pool)
    {outcome : Outcome} {name : Text} (hreturned : pool.progs i = .pure (.ok outcome))
    (hviewer : outcome.viewer = some (.token name)) :
    ∃ list e, Got (setup.server (process i)) list (own i pool.state.2) ∧ e ∈ list ∧
      (calls i).hash setup = some e.hash := by
  have htold := call_told hsteps hreturned
  cases hcall : calls i with
  | signIn token =>
      rw [hcall] at htold
      obtain ⟨⟨cookie, who⟩, -, rfl⟩ := Fallible.Told.returning htold
      cases hviewer
      obtain ⟨issued, now, hsealed⟩ := signedIn_told hsteps hcall hreturned
      have hadmitted := hsealed.admitted
      cases hadmitted with
      | token hgot he hhash => exact ⟨_, _, hgot, he, congrArg some hhash.symm⟩
  | viewer headers =>
      rw [hcall] at htold
      obtain ⟨who, -, rfl⟩ := Fallible.Told.returning htold
      obtain rfl : who = some (.token name) := hviewer
      obtain ⟨cookie, claims, now, hopens⟩ := viewing_told hsteps hcall hreturned
      have hverified : setup.formats.verified setup.key cookie = some claims := hopens.verified
      have hshows : setup.formats.presented headers = some cookie := hopens.shows
      have hhash : Call.hash setup (.viewer headers) = claims.issued := by
        rw [Call.hash, hshows, Option.bind_some, hverified, Option.bind_some]
      have hstands := hopens.stands
      rw [← hopens.viewer] at hstands
      rw [hhash]
      generalize claims.issued = issued at hstands ⊢
      cases hstands with
      | token hgot he hhash => exact ⟨_, _, hgot, he, congrArg some hhash.symm⟩
  | signOut headers =>
      rw [hcall] at htold
      obtain ⟨_, -, rfl⟩ := Fallible.Told.returning htold
      cases hviewer
  | create name =>
      rw [hcall] at htold
      obtain ⟨_, -, rfl⟩ := Fallible.Told.returning htold
      cases hviewer
  | revoke name =>
      rw [hcall] at htold
      obtain ⟨_, -, rfl⟩ := Fallible.Told.returning htold
      cases hviewer

/-- A call that has created or revoked a token, or tried to, has emptied the list. -/
theorem emptied
    (hsteps : Pool.Steps (serves setup process) (start setup process calls store drawn clock) pool)
    {name : Text} (hcall : calls i = .create name ∨ calls i = .revoke name)
    {answer : Except Failed Outcome} (hreturned : pool.progs i = .pure answer) :
    (⟨i, .clear, ()⟩ : Event ι Asked (Cached.Reply Resp (List Issued))) ∈ pool.state.2 := by
  have htold := call_told hsteps hreturned
  rcases hcall with hcall | hcall
  · rw [hcall] at htold
    obtain ⟨result, before, after, hown, hbefore, -⟩ := Program.Told.bind_inv htold
    refine mem_own.mp ?_
    rw [hown]
    exact List.mem_append_right _ (cleared_told hbefore)
  · rw [hcall] at htold
    obtain ⟨result, before, after, hown, hbefore, -⟩ := Program.Told.bind_inv htold
    refine mem_own.mp ?_
    rw [hown]
    exact List.mem_append_right _ (cleared_told hbefore)

theorem mem_outers {during : Past ι} {j : ι} {r : Req} {answer : Resp r}
    (h : (⟨r, answer⟩ : Answered Req Resp) ∈ Cached.outers j during) :
    (⟨j, .outer r, answer⟩ : Event ι Asked (Cached.Reply Resp (List Issued))) ∈ during := by
  induction during with
  | nil => cases h
  | cons e during ih =>
      obtain ⟨k, r', answer'⟩ := e
      by_cases hk : k = j
      · subst hk
        cases r' with
        | outer r' =>
            rw [Cached.outers_own] at h
            rcases List.mem_cons.mp h with heq | h
            · cases heq
              exact List.mem_cons_self
            · exact List.mem_cons_of_mem _ (ih h)
        | lock => exact List.mem_cons_of_mem _ (ih h)
        | keep value => exact List.mem_cons_of_mem _ (ih h)
        | unlock => exact List.mem_cons_of_mem _ (ih h)
        | clear => exact List.mem_cons_of_mem _ (ih h)
      · rw [Cached.outers_other hk] at h
        exact List.mem_cons_of_mem _ (ih h)

/-- **A process goes by lists it read since it changed them.**  Once a call that creates or revokes
a token is over, whatever came of it, everybody who begins after that in the same process and is let
in by a dashboard token is in a list that was read since, and not longer before than a list is gone
by. -/
theorem lists_are_fresh
    (hsteps₁ : Pool.Steps (serves setup process)
      (start setup process calls store drawn clock) pool₁)
    (hsteps₂ : Pool.Steps (serves setup process) pool₁ pool₂) {k : ι} {name : Text}
    (hcall : calls k = .create name ∨ calls k = .revoke name) {answer : Except Failed Outcome}
    (hover : pool₁.progs k = .pure answer) (hprocess : process k = process i)
    (hnew : ∀ e ∈ pool₁.state.2, e.thread ≠ i) {outcome : Outcome} {name' : Text}
    (hreturned : pool₂.progs i = .pure (.ok outcome))
    (hviewer : outcome.viewer = some (.token name')) :
    ∃ list e later before, e ∈ list ∧ (calls i).hash setup = some e.hash ∧
      Cached.Had process setup.load patience i list pool₂.state.2 ∧
      pool₂.state.2 = later ++ ⟨k, .clear, ()⟩ :: before ∧ ReadIn setup list later := by
  have hsteps := hsteps₁.trans hsteps₂
  obtain ⟨hsound, hkept⟩ := reached hsteps
  obtain ⟨list, e, hgot, he, hhash⟩ := let_in_told hsteps hreturned hviewer
  have hhad := had_of_got hsound hgot
  obtain ⟨more, hmore⟩ := Pool.Steps.logged hsteps₂
  obtain ⟨since, before, hsince⟩ := List.append_of_mem (emptied hsteps₁ hcall hover)
  have hpast : pool₂.state.2 = (more ++ since) ++ ⟨k, .clear, ()⟩ :: before := by
    rw [hmore, hsince, List.append_assoc]
  have hbegan : ∀ e ∈ (⟨k, .clear, ()⟩ :: before : Past ι), e.thread ≠ i := by
    intro e he
    refine hnew e ?_
    rw [hsince]
    exact List.mem_append_right _ he
  obtain ⟨j, after, during, found, rest, loaded, -, htold, hspan⟩ :=
    hhad.after hpast hprocess hbegan
  have hduring : ∀ e ∈ during, e ∈ more ++ since := by
    intro e he
    rw [hspan]
    simp [he]
  have hread : ∀ handle,
      (⟨.store (.disk (.readAll handle)), .error .notFound⟩ : Answered Req Resp) ∉
        Cached.outers j during := by
    intro handle hin
    refine hkept.read j handle ?_
    rw [hpast]
    exact List.mem_append_left _ (hduring _ (mem_outers hin))
  obtain ⟨r, reply, kept, hin, hlast, hlist⟩ := load_told hread htold
  exact ⟨list, e, more ++ since, before, he, hhash, hhad, hpast, j, r, reply, kept,
    hduring _ (mem_outers hin), hlast, hlist⟩

/-- Somebody makes a token, and somebody signs in with it. -/
def making : Bool → Call
  | false => .create "new".toList
  | true => .signIn (Tokens.sampleToken Tokens.newer)

/-- The cookie of whoever signs in with it. -/
def newCookie : Text := sampleSetup.formats.sealedText sampleKey (printedClaims tokenClaims)

theorem lists_are_fresh_making :
    ∃ pool₁ pool₂, (start sampleSetup alone making Tokens.oneToken [] 0).play attending
        (List.replicate 5 false) = some pool₁ ∧
      pool₁.play attending (List.replicate 5 true) = some pool₂ ∧
      ∃ list e later before, e ∈ list ∧ (making true).hash sampleSetup = some e.hash ∧
        Cached.Had alone sampleSetup.load patience true list pool₂.state.2 ∧
        pool₂.state.2 = later ++ ⟨false, .clear, ()⟩ :: before ∧
          ReadIn sampleSetup list later := by
  have hplayed : ((start sampleSetup alone making Tokens.oneToken [] 0).play attending
      (List.replicate 5 false)).any (fun pool₁ =>
        ((pool₁.progs false).result = some (.ok .done) ∧
          ∀ e ∈ pool₁.state.2, e.thread ≠ true) ∧
        (pool₁.play attending (List.replicate 5 true)).any (fun pool₂ =>
          decide ((pool₂.progs true).result = some (.ok (.signedIn newCookie
            (.token "new".toList))))) = true) = true := by
    decide +kernel
  obtain ⟨pool₁, hplay₁, hlast⟩ := (Option.any_eq_true _ _).mp hplayed
  obtain ⟨⟨hover, hnew⟩, hplayed⟩ := of_decide_eq_true hlast
  obtain ⟨pool₂, hplay₂, hlast⟩ := (Option.any_eq_true _ _).mp hplayed
  have hmade := Program.eq_pure_of_result hover
  have hsigned := Program.eq_pure_of_result (of_decide_eq_true hlast)
  exact ⟨pool₁, pool₂, hplay₁, hplay₂, lists_are_fresh (Pool.play_steps attending_serves hplay₁)
    (Pool.play_steps attending_serves hplay₂) (.inl rfl) hmade rfl hnew hsigned rfl⟩

end Runs

end Lfsx.Console.SignIn
