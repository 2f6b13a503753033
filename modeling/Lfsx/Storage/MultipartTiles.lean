import Lfsx.Storage.Multipart

/-!
# Uploads tile the file

What an upload sends is the first of the pieces of the file, whatever it is answered and
wherever it stops, and all of them if it ends well (`Sends`).  It neither panics nor loops, and
it ends well if everything it asks is answered well (`Uploads.finishes`).

The sizes are such that S3 gets at most as many parts as it takes, of which all but the last
are large enough, and Google chunks of a multiple of 256 KiB.  Azure takes fewer than the
longest files need; those are refused before anything is sent.
-/

namespace Lfsx.Storage.Multipart

open Request

/-! ## Runs -/

/-- A request and what it was answered. -/
structure Exchange (Req : Type) (Resp : Req → Type) where
  request : Req
  answer : Resp request

/-- A request may be answered anything; what was asked and answered is kept. -/
def anything {Req : Type} {Resp : Req → Type} : Semantics Req Resp (List (Exchange Req Resp)) :=
  fun r log answer log' => log' = log ++ [⟨r, answer⟩]

/-- What was sent, of requests some of which carry a piece. -/
def sentOf {Req γ : Type} {Resp : Req → Type} (piece : Req → Option γ)
    (log : List (Exchange Req Resp)) : List γ :=
  log.filterMap fun exchange => piece exchange.request

/-- Something was not answered well. -/
def Ill {Req : Type} {Resp : Req → Type} (Well : (r : Req) → Resp r → Prop)
    (log : List (Exchange Req Resp)) : Prop :=
  ∃ exchange ∈ log, ¬ Well exchange.request exchange.answer

/-- Of the pieces of a file, an upload has sent the first.  If it has ended, it has sent them
all, or it was not answered well. -/
structure Sends {Req γ : Type} {Resp : Req → Type} (piece : Req → Option γ)
    (Well : (r : Req) → Resp r → Prop) (all : List γ)
    (p : Program Req Resp (Except Failure Unit)) (log : List (Exchange Req Resp)) : Prop where
  first : sentOf piece log <+: all
  whole : p = .pure (.ok ()) → sentOf piece log = all
  sound : p ≠ .pure (.error .panicked)
  ends : p ≠ .pure (.error .endless)
  answered : ∀ failure, p = .pure (.error failure) → Ill Well log

/-- The ending of an upload: it sent every piece, or it was refused, having sent the first and
having been answered badly. -/
def Through {Req γ α : Type} {Resp : Req → Type} (piece : Req → Option γ)
    (Well : (r : Req) → Resp r → Prop) (all : List γ) :
    Except Failure α → List (Exchange Req Resp) → Prop
  | .ok _, log => sentOf piece log = all
  | .error failure, log =>
      sentOf piece log <+: all ∧ Ill Well log ∧ ∃ e, failure = .refused e

section Rules

variable {Req : Type} {Resp : Req → Type} {α β γ : Type}
  {G : List (Exchange Req Resp) → List (Exchange Req Resp) → Prop}
  {P : Except Failure β → List (Exchange Req Resp) → Prop} {log : List (Exchange Req Resp)}
  {all : List γ} {piece : Req → Option γ} {Well : (r : Req) → Resp r → Prop}

theorem sentOf_append (log : List (Exchange Req Resp)) (exchange : Exchange Req Resp) :
    sentOf piece (log ++ [exchange]) = sentOf piece log ++ (piece exchange.request).toList := by
  rw [sentOf, List.filterMap_append]
  congr 1

theorem Ill.last {r : Req} {answer : Resp r} (h : ¬ Well r answer) :
    Ill Well (log ++ [⟨r, answer⟩]) := ⟨_, List.mem_append_right _ List.mem_cons_self, h⟩

theorem Ill.append {later : List (Exchange Req Resp)} (h : Ill Well log) :
    Ill Well (log ++ later) := by
  obtain ⟨exchange, hmem, hill⟩ := h
  exact ⟨exchange, List.mem_append_left _ hmem, hill⟩

@[simp] theorem checked_some (a : α) (f : α → Fallible Failure Req Resp β) :
    (checked (some a) >>= f) = f a := by
  rw [checked, pure_bind]

theorem ending_sent {r : Req} {h : Resp r = Except Error α}
    {f : α → Fallible Failure Req Resp β} (hG : ∀ answer, G log (log ++ [⟨r, answer⟩]))
    (hok : ∀ answer a, cast h answer = .ok a →
      (f a).Ending anything G P (log ++ [⟨r, answer⟩]))
    (herror : ∀ answer e, cast h answer = .error e →
      P (.error (.refused e)) (log ++ [⟨r, answer⟩])) :
    (sent r h >>= f).Ending anything G P log := by
  apply Fallible.Ending.mapped
  intro answer log' hlog
  have hlog' : log' = log ++ [⟨r, answer⟩] := hlog
  subst hlog'
  refine ⟨hG answer, ?_⟩
  cases hanswer : cast h answer with
  | ok a => exact hok answer a hanswer
  | error e => exact herror answer e hanswer

theorem ending_last {r : Req} {h : Resp r = Except Error β}
    (hG : ∀ answer, G log (log ++ [⟨r, answer⟩]))
    (hok : ∀ answer a, cast h answer = .ok a → P (.ok a) (log ++ [⟨r, answer⟩]))
    (herror : ∀ answer e, cast h answer = .error e →
      P (.error (.refused e)) (log ++ [⟨r, answer⟩])) :
    (sent r h).Ending anything G P log := by
  rw [← bind_pure (sent r h)]
  exact ending_sent hG (fun answer a ha => Fallible.Ending.pure (hok answer a ha)) herror

theorem ending_refuse {what : String} (h : ∀ e, P (.error (.refused e)) log) :
    (refuse what : Fallible Failure Req Resp β).Ending anything G P log :=
  Fallible.Ending.throw (h _)

theorem through_refused (h : sentOf piece log <+: all) (hill : Ill Well log) (e : Error) :
    Through piece Well all (.error (.refused e) : Except Failure α) log := ⟨h, hill, e, rfl⟩

/-- An upload, request by request. -/
abbrev Uploads (piece : Req → Option γ) (Well : (r : Req) → Resp r → Prop) (all : List γ)
    (op : Fallible Failure Req Resp α) (log : List (Exchange Req Resp)) : Prop :=
  op.Ending anything (fun _ log' => sentOf piece log' <+: all) (Through piece Well all) log

/-- One request of an upload: what it carries is the next of the pieces, and only a bad answer
makes it fail. -/
theorem uploads_sent {r : Req} {h : Resp r = Except Error α}
    {f : α → Fallible Failure Req Resp β} {gone : List γ}
    (hgone : sentOf piece log ++ (piece r).toList = gone) (hfirst : gone <+: all)
    (hill : ∀ answer e, cast h answer = .error e → ¬ Well r answer)
    (hok : ∀ answer a, cast h answer = .ok a → sentOf piece (log ++ [⟨r, answer⟩]) = gone →
      Uploads piece Well all (f a) (log ++ [⟨r, answer⟩])) :
    Uploads piece Well all (sent r h >>= f) log := by
  have hsent : ∀ answer, sentOf piece (log ++ [⟨r, answer⟩]) = gone := by
    intro answer
    rw [sentOf_append, hgone]
  apply ending_sent
  · intro answer
    rwa [hsent]
  · intro answer a ha
    exact hok answer a ha (hsent answer)
  · intro answer e he
    exact through_refused (by rwa [hsent]) (.last (hill answer e he)) e

/-- The last request of an upload. -/
theorem uploads_last {r : Req} {h : Resp r = Except Error β}
    (hgone : sentOf piece log ++ (piece r).toList = all)
    (hill : ∀ answer e, cast h answer = .error e → ¬ Well r answer) :
    Uploads piece Well all (sent r h) log := by
  rw [← bind_pure (sent r h)]
  exact uploads_sent hgone List.prefix_rfl hill fun _ _ _ hsent => Fallible.Ending.pure hsent

/-- **From what an upload does to what any run of it sends.** -/
theorem Uploads.sends {op : Fallible Failure Req Resp Unit}
    {c : Program Req Resp (Except Failure Unit) × List (Exchange Req Resp)}
    (h : Uploads piece Well all op []) (hsteps : Program.Steps anything (op.run, []) c) :
    Sends piece Well all c.1 c.2 := by
  have hstart : sentOf piece ([] : List (Exchange Req Resp)) <+: all := List.nil_prefix
  obtain ⟨hfirst, hunder⟩ := Program.Under.alone (I := fun log => sentOf piece log <+: all)
    (fun _ _ hG _ => hG) h hstart hsteps
  obtain ⟨p, log⟩ := c
  refine ⟨hfirst, ?_, ?_, ?_, ?_⟩
  · rintro rfl
    exact hunder _ .refl
  · rintro rfl
    obtain ⟨-, -, e, he⟩ := hunder _ .refl
    cases he
  · rintro rfl
    obtain ⟨-, -, e, he⟩ := hunder _ .refl
    cases he
  · rintro failure rfl
    obtain ⟨-, hill, -⟩ := hunder _ .refl
    exact hill

/-- A handler that answers by what was asked and answered before. -/
def answering (respond : (r : Req) → List (Exchange Req Resp) → Resp r) (r : Req)
    (log : List (Exchange Req Resp)) : Resp r × List (Exchange Req Resp) :=
  (respond r log, log ++ [⟨r, respond r log⟩])

/-- Nothing is answered badly by one who answers well. -/
theorem not_ill_eval {respond : (r : Req) → List (Exchange Req Resp) → Resp r}
    (hwell : ∀ r log, Well r (respond r log)) (p : Program Req Resp α) (h : ¬ Ill Well log) :
    ¬ Ill Well (p.eval (answering respond) log).2 := by
  induction p generalizing log with
  | pure a => exact h
  | request r next ih =>
      apply ih
      rintro ⟨exchange, hmem, hill⟩
      rcases List.mem_append.mp hmem with hmem | hmem
      · exact h ⟨exchange, hmem, hill⟩
      · cases List.mem_singleton.mp hmem
        exact hill (hwell r log)

/-- **An upload that is answered well ends well.** -/
theorem Uploads.finishes {op : Fallible Failure Req Resp Unit}
    {respond : (r : Req) → List (Exchange Req Resp) → Resp r} (h : Uploads piece Well all op [])
    (hwell : ∀ r log, Well r (respond r log)) :
    ∃ log, op.run.eval (answering respond) [] = (.ok (), log) ∧
      Program.Steps anything (op.run, []) (.pure (.ok ()), log) := by
  have hsteps : Program.Steps anything (op.run, []) (.pure (op.run.eval (answering respond) []).1,
      (op.run.eval (answering respond) []).2) :=
    Program.eval_steps (fun _ _ => rfl) op.run []
  have hnot : ¬ Ill Well (op.run.eval (answering respond) []).2 :=
    not_ill_eval hwell op.run (by simp [Ill])
  have hsends := h.sends hsteps
  cases heval : op.run.eval (answering respond) [] with
  | mk answer log =>
      rw [heval] at hsteps hnot hsends
      cases answer with
      | error failure => exact absurd (hsends.answered failure rfl) hnot
      | ok a => exact ⟨log, rfl, hsteps⟩

end Rules

variable {length size : Nat}

/-- The first pieces, each made of its index. -/
def firsts {γ : Type} (piece : Nat → γ) (count : Nat) : List γ := (List.range count).map piece

theorem firsts_succ {γ : Type} (piece : Nat → γ) (count : Nat) :
    firsts piece (count + 1) = firsts piece count ++ [piece count] := by
  simp [firsts, List.range_succ]

theorem firsts_le {γ : Type} {piece : Nat → γ} {m n : Nat} (h : m ≤ n) :
    firsts piece m <+: firsts piece n := by
  obtain ⟨k, rfl⟩ := Nat.exists_eq_add_of_le h
  rw [firsts, firsts, List.range_add, List.map_append]
  exact List.prefix_append _ _

/-- The offset and the length of a piece overflow nothing. -/
theorem spanAt_checked {index : Nat} (hlength : length ≤ maxU64) (hlt : index * size < length) :
    Checked.mul index size = some (index * size) ∧
      Checked.sub length (index * size) = some (length - index * size) :=
  ⟨Checked.mul_eq (hlt.le.trans hlength), Checked.sub_eq hlt.le⟩

/-! ## Parts -/

namespace S3

/-- The number and the place of the part a request carries. -/
def partOf : Req → Option (Nat × Span)
  | .part _ number span => some (number, span)
  | _ => none

/-- S3 does what it is asked, and tags every part. -/
def Well : (r : Req) → Resp r → Prop
  | .put _, answer => answer = .ok ()
  | .create, answer => ∃ upload, answer = .ok upload
  | .source _, answer => answer = .ok ()
  | .part _ _ _, answer => ∃ etag, answer = .ok (some etag)
  | .complete _ _, answer => answer = .ok ()
  | .abort _, answer => answer = .ok ()

/-- A part, numbered from one. -/
def placed (size length index : Nat) : Nat × Span := (index + 1, spanAt size length index)

/-- The parts of a file. -/
def numbered (size length : Nat) : List (Nat × Span) :=
  firsts (placed size length) (divCeil length size)

theorem partsFrom_uploads {upload : Text} {left index : Nat} {etags : List Text}
    {log : List (Exchange Req Resp)} (hsize : 0 < size) (hlength : length ≤ maxU64)
    (hcount : divCeil length size < 2 ^ 16) (hleft : index + left = divCeil length size)
    (hlog : sentOf partOf log = firsts (placed size length) index) :
    Uploads partOf Well (numbered size length)
      (partsFrom upload length size left index etags) log := by
  induction left generalizing index etags log with
  | zero =>
      apply Fallible.Ending.pure
      show sentOf partOf log = numbered size length
      rw [hlog, numbered, ← hleft, Nat.add_zero]
  | succ left ih =>
      have hlt : index * size < length := (lt_divCeil_iff hsize).mp (by omega)
      obtain ⟨hmul, hsub⟩ := spanAt_checked hlength hlt
      have hnumber : u16 (index + 1) = some (index + 1) := if_pos (by omega)
      have hfirst : firsts (placed size length) index <+: numbered size length :=
        firsts_le (by omega)
      have hnext : firsts (placed size length) (index + 1) <+: numbered size length :=
        firsts_le (by omega)
      rw [partsFrom, hmul, checked_some, hsub, checked_some]
      apply uploads_sent (by rw [hlog]; exact List.append_nil _) hfirst
      · intro answer e hanswer hok
        cases hanswer.symm.trans hok
      · intro answer _ _ hsource
        rw [hnumber, checked_some]
        apply uploads_sent (by rw [hsource, firsts_succ]; rfl) hnext
        · rintro answer' e hanswer ⟨etag, hetag⟩
          cases hanswer.symm.trans hetag
        · intro answer' etag hanswer hpart
          cases etag with
          | none =>
              refine ending_refuse (through_refused (by rwa [hpart]) (.last ?_))
              rintro ⟨etag, hetag⟩
              cases hanswer.symm.trans hetag
          | some etag => exact ih (by omega) hpart

/-- **Parts go up in order, whatever they are answered.** -/
theorem putInParts_uploads (hsize : 0 < size) (hlength : length ≤ maxU64)
    (hcount : divCeil length size < 2 ^ 16) :
    Uploads partOf Well (numbered size length) (putInParts length size) [] := by
  have hfirst : firsts (placed size length) 0 <+: numbered size length :=
    firsts_le (Nat.zero_le _)
  apply uploads_sent (by rfl) hfirst
  · rintro answer e hanswer ⟨upload, hok⟩
    cases hanswer.symm.trans hok
  · intro answer upload _ hcreate
    have hparts : Uploads partOf Well (numbered size length) (parts upload length size)
        ([] ++ [⟨.create, answer⟩]) := by
      have hu16 : u16 (divCeil length size) = some (divCeil length size) := if_pos hcount
      rw [Uploads, parts, Checked.ceilDiv_eq (by omega), checked_some, hu16]
      exact partsFrom_uploads hsize hlength hcount (Nat.zero_add _) hcreate
    apply Fallible.Ending.attempt
    refine Program.Under.mono hparts ?_
    intro answer log hthrough
    cases answer with
    | ok etags =>
        have hall : sentOf partOf log = numbered size length := hthrough
        apply uploads_last (by rw [hall]; exact List.append_nil _)
        intro answer e hanswer hok
        cases hanswer.symm.trans hok
    | error failure =>
        obtain ⟨hsent, hill, e, rfl⟩ := hthrough
        have habort : ∀ answer, sentOf partOf (log ++ [⟨.abort upload, answer⟩]) <+:
            numbered size length := by
          intro answer
          rw [sentOf_append]
          simpa [partOf] using hsent
        apply Fallible.Ending.attempt
        apply ending_last habort
        · intro answer _ _
          exact Fallible.Ending.throw (through_refused (habort answer) hill.append e)
        · intro answer _ _
          exact Fallible.Ending.throw (through_refused (habort answer) hill.append e)

end S3

/-! ## Blocks -/

theorem utf8Size_digitChar {n : Nat} (h : n < 16) : (Nat.digitChar n).utf8Size = 1 := by
  have hall : ∀ n < 16, (Nat.digitChar n).utf8Size = 1 := by decide
  exact hall n h

/-- Digits are one byte each. -/
theorem utf8Size_of_mem_toDigits {b n : Nat} {c : Char} (hb : 1 < b) (hle : b ≤ 16)
    (h : c ∈ Nat.toDigits b n) : c.utf8Size = 1 := by
  induction n using Nat.strongRecOn with
  | ind n ih =>
      rw [Nat.toDigits_eq_if hb] at h
      split at h
      case isTrue hlt =>
        rw [List.mem_singleton.mp h]
        exact utf8Size_digitChar (by omega)
      case isFalse hge =>
        rcases List.mem_append.mp h with hmem | hmem
        · exact ih (n / b) (Nat.div_lt_self (by omega) hb) hmem
        · rw [List.mem_singleton.mp hmem]
          exact utf8Size_digitChar ((Nat.mod_lt n (by omega)).trans_le hle)

theorem length_utf8Encode {text : Text} (h : ∀ c ∈ text, c.utf8Size = 1) :
    (utf8Encode text).length = text.length := by
  induction text with
  | nil => rfl
  | cons c text ih =>
      have hhead := h c List.mem_cons_self
      have htail := ih fun d hd => h d (List.mem_cons_of_mem c hd)
      rw [utf8Encode] at htail ⊢
      rw [List.flatMap_cons, List.length_append, String.length_utf8EncodeChar, htail, hhead,
        List.length_cons, Nat.add_comm]

theorem utf8Encode_injective : Function.Injective utf8Encode := by
  intro x y h
  have hx := utf8Decode_utf8Encode x
  rw [h, utf8Decode_utf8Encode] at hx
  exact (Option.some.inj hx).symm

namespace Azure

variable {engine : Base64.Engine} {upload : UInt64}

theorem length_padded {width : Nat} {digits : Text} (h : digits.length ≤ width) :
    (padded width digits).length = width := by
  rw [padded, List.length_append, List.length_replicate]
  omega

theorem utf8Size_of_mem_padded {width : Nat} {digits : Text} {c : Char}
    (h : ∀ d ∈ digits, d.utf8Size = 1) (hmem : c ∈ padded width digits) : c.utf8Size = 1 := by
  rcases List.mem_append.mp hmem with hzero | hdigit
  · rw [List.eq_of_mem_replicate hzero]
    rfl
  · exact h c hdigit

/-- Zeros before a number do not change it. -/
theorem padded_decimal_inj {width m n : Nat}
    (h : padded width (decimal m) = padded width (decimal n)) : m = n := by
  have hread := congrArg (Nat.ofDigitChars 10 · 0) h
  simpa [padded, decimal, Nat.ofDigitChars_append, Nat.ofDigitChars_replicate_zero] using hread

/-- **Ids are distinct.** -/
theorem blockId_inj {i j : Nat} (h : blockId engine upload i = blockId engine upload j) :
    i = j := by
  have htext := utf8Encode_injective (engine.injective h)
  exact padded_decimal_inj (List.append_cancel_left htext)

/-- **And of equal length.** -/
theorem length_blockId {index : Nat} (h : index < 10 ^ 8) :
    (blockId engine upload index).length = 32 := by
  have hhex : (Nat.toDigits 16 upload.toNat).length ≤ 16 := by
    rw [Nat.length_toDigits_le_iff (by decide) (by decide)]
    exact upload.toNat_lt
  have hdecimal : (decimal index).length ≤ 8 := by
    rw [decimal, Nat.length_toDigits_le_iff (by decide) (by decide)]
    exact h
  have hsize : ∀ c ∈ padded 16 (Nat.toDigits 16 upload.toNat) ++ padded 8 (decimal index),
      c.utf8Size = 1 := by
    intro c hc
    rcases List.mem_append.mp hc with hc | hc
    · exact utf8Size_of_mem_padded (fun _ => utf8Size_of_mem_toDigits (by decide) (by decide)) hc
    · exact utf8Size_of_mem_padded (fun _ => utf8Size_of_mem_toDigits (by decide) (by decide)) hc
  rw [blockId, engine.length_encode, length_utf8Encode hsize, List.length_append,
    length_padded hhex, length_padded hdecimal]

/-- The id and the place of the block a request carries. -/
def blockOf : Req → Option (Text × Span)
  | .block id span => some (id, span)
  | _ => none

/-- Azure does what it is asked. -/
def Well : (r : Req) → Resp r → Prop
  | .put _, answer => answer = .ok ()
  | .source _, answer => answer = .ok ()
  | .block _ _, answer => answer = .ok ()
  | .blockList _, answer => answer = .ok ()

/-- A block, under its id. -/
def placed (engine : Base64.Engine) (upload : UInt64) (size length index : Nat) : Text × Span :=
  (blockId engine upload index, spanAt size length index)

/-- The blocks of a file. -/
def named (engine : Base64.Engine) (upload : UInt64) (size length : Nat) : List (Text × Span) :=
  firsts (placed engine upload size length) (divCeil length size)

theorem blocksFrom_uploads {left index : Nat} {ids : List Text}
    {log : List (Exchange Req Resp)} {f : List Text → Op Unit} (hsize : 0 < size)
    (hlength : length ≤ maxU64) (hleft : index + left = divCeil length size)
    (hlog : sentOf blockOf log = firsts (placed engine upload size length) index)
    (hrest : ∀ ids log, sentOf blockOf log = named engine upload size length →
      Uploads blockOf Well (named engine upload size length) (f ids) log) :
    Uploads blockOf Well (named engine upload size length)
      (blocksFrom engine upload length size left index ids >>= f) log := by
  induction left generalizing index ids log with
  | zero =>
      rw [blocksFrom, pure_bind]
      apply hrest
      rw [hlog, named, ← hleft, Nat.add_zero]
  | succ left ih =>
      have hlt : index * size < length := (lt_divCeil_iff hsize).mp (by omega)
      obtain ⟨hmul, hsub⟩ := spanAt_checked hlength hlt
      have hfirst : firsts (placed engine upload size length) index <+:
          named engine upload size length := firsts_le (by omega)
      have hnext : firsts (placed engine upload size length) (index + 1) <+:
          named engine upload size length := firsts_le (by omega)
      rw [blocksFrom, hmul, checked_some, hsub, checked_some]
      simp only [bind_assoc]
      apply uploads_sent (by rw [hlog]; exact List.append_nil _) hfirst
      · intro answer e hanswer hok
        cases hanswer.symm.trans hok
      · intro answer _ _ hsource
        apply uploads_sent (by rw [hsource, firsts_succ]; rfl) hnext
        · intro answer' e hanswer hok
          cases hanswer.symm.trans hok
        · intro answer' _ _ hblock
          exact ih (by omega) hblock

/-- **Blocks go up in order, whatever they are answered.** -/
theorem putInBlocks_uploads (hsize : 0 < size) (hlength : length ≤ maxU64)
    (hcount : divCeil length size ≤ mostBlocks) :
    Uploads blockOf Well (named engine upload size length)
      (putInBlocks engine upload length size) [] := by
  rw [Uploads, putInBlocks, Checked.ceilDiv_eq (by omega), checked_some, if_neg (by omega)]
  apply blocksFrom_uploads hsize hlength (Nat.zero_add _) rfl
  intro ids log hlog
  apply uploads_last (by rw [hlog]; exact List.append_nil _)
  intro answer e hanswer hok
  cases hanswer.symm.trans hok

/-- Too many blocks are refused before the first. -/
theorem putInBlocks_refused (hsize : 0 < size) (hcount : mostBlocks < divCeil length size) :
    putInBlocks engine upload length size =
      refuse "this object needs more blocks than one blob may have" := by
  rw [putInBlocks, Checked.ceilDiv_eq (by omega), checked_some, if_pos hcount]

end Azure

/-! ## Chunks -/

namespace Gcs

variable {join : Text → Option Text} {chunk : Nat}

/-- The range and the place of the chunk a request carries. -/
def chunkOf : Req → Option (Text × Span)
  | .chunk _ range span => some (range, span)
  | _ => none

/-- Google does what it is asked: it names a session that can be reached, wants more after
every chunk but the last, and has the object after that. -/
def Well (join : Text → Option Text) (length : Nat) : (r : Req) → Resp r → Prop
  | .put _, answer => answer = .ok ()
  | .session _, answer => ∃ session url, answer = .ok (some session) ∧ join session = some url
  | .source _, answer => answer = .ok ()
  | .chunk _ _ span, answer => ∃ status : Status, answer = .ok status ∧
      if span.offset + span.length = length then 200 ≤ status.code ∧ status.code < 300
      else status.code = resumeIncomplete

/-- The range that tells the store where a chunk is. -/
def rangeOf (length : Nat) (span : Span) : Text :=
  contentRange span.offset (span.offset + span.length - 1) length

/-- A chunk, under its range. -/
def placed (chunk length index : Nat) : Text × Span :=
  (rangeOf length (spanAt chunk length index), spanAt chunk length index)

/-- The chunks of a file. -/
def ranged (chunk length : Nat) : List (Text × Span) :=
  firsts (placed chunk length) (divCeil length chunk)

theorem ending_expectSuccess {what : String} {status : Status} {f : Unit → Op Unit}
    {G : List (Exchange Req Resp) → List (Exchange Req Resp) → Prop}
    {P : Except Failure Unit → List (Exchange Req Resp) → Prop} {log : List (Exchange Req Resp)}
    (hok : (f ()).Ending anything G P log)
    (herror : ¬ (200 ≤ status.code ∧ status.code < 300) → ∀ e, P (.error (.refused e)) log) :
    (Fallible.ofExcept (expectSuccess what status) >>= f).Ending anything G P log := by
  rw [expectSuccess]
  split
  case isTrue => exact hok
  case isFalse hnot => exact Fallible.Ending.throw (herror hnot _)

/-- After a chunk the upload goes on, or the answer was not one Google gives. -/
theorem answered_uploads {session : Text} {fuel stop : Nat} {status : Status}
    {log : List (Exchange Req Resp)} (hsent : sentOf chunkOf log <+: ranged chunk length)
    (hill : ¬ (if stop = length then 200 ≤ status.code ∧ status.code < 300
      else status.code = resumeIncomplete) → Ill (Well join length) log)
    (hrest : Uploads chunkOf (Well join length) (ranged chunk length)
      (chunksFrom join session length chunk fuel stop) log) :
    Uploads chunkOf (Well join length) (ranged chunk length)
      (if status.code = resumeIncomplete ∧ stop ≠ length then
        chunksFrom join session length chunk fuel stop
      else if stop = length then do
        Fallible.ofExcept (expectSuccess "finish a resumable upload" status)
        chunksFrom join session length chunk fuel stop
      else do
        Fallible.ofExcept (expectSuccess "write a chunk" status)
        refuse "the object store finished an upload before it had every chunk") log := by
  split
  case isTrue => exact hrest
  case isFalse hstatus =>
    split
    case isTrue hend =>
      rw [if_pos hend] at hill
      exact ending_expectSuccess hrest fun hnot => through_refused hsent (hill hnot)
    case isFalse hend =>
      rw [if_neg hend] at hill
      have hbad : Ill (Well join length) log := hill fun hcode => hstatus ⟨hcode, hend⟩
      exact ending_expectSuccess (ending_refuse (through_refused hsent hbad)) fun _ =>
        through_refused hsent hbad

/-- The loop is at a chunk, or at the end. -/
theorem chunksFrom_uploads {session : Text} {fuel index offset : Nat}
    {log : List (Exchange Req Resp)} (hchunk : 0 < chunk) (hlength : length ≤ maxU64)
    (hurl : (join session).isSome ∨ Ill (Well join length) log)
    (hoffset : offset = min (index * chunk) length) (hindex : index ≤ divCeil length chunk)
    (hfuel : length - offset < fuel)
    (hlog : sentOf chunkOf log = firsts (placed chunk length) index) :
    Uploads chunkOf (Well join length) (ranged chunk length)
      (chunksFrom join session length chunk fuel offset) log := by
  induction fuel generalizing index offset log with
  | zero => omega
  | succ fuel ih =>
      rw [chunksFrom]
      split
      case isTrue hlt =>
        have hat : offset = index * chunk := by omega
        have hbelow : index < divCeil length chunk := (lt_divCeil_iff hchunk).mpr (by omega)
        have hstop : offset + min chunk (length - offset) = min ((index + 1) * chunk) length := by
          rw [Nat.succ_mul]
          omega
        have hsub : Checked.sub length offset = some (length - offset) :=
          Checked.sub_eq (by omega)
        have hadd : Checked.add offset (min chunk (length - offset)) =
            some (offset + min chunk (length - offset)) := Checked.add_eq (by omega)
        have hlast : Checked.sub (offset + min chunk (length - offset)) 1 =
            some (offset + min chunk (length - offset) - 1) := Checked.sub_eq (by omega)
        have hfirst : firsts (placed chunk length) index <+: ranged chunk length :=
          firsts_le (by omega)
        have hnext : firsts (placed chunk length) (index + 1) <+: ranged chunk length :=
          firsts_le (by omega)
        rw [hsub, checked_some]
        apply uploads_sent (by rw [hlog]; exact List.append_nil _) hfirst
        · intro answer e hanswer hok
          cases hanswer.symm.trans hok
        · intro answer _ _ hsource
          cases hjoin : join session with
          | none =>
              have hill : Ill (Well join length) log := by
                rcases hurl with hsome | hill
                · rw [hjoin] at hsome
                  cases hsome
                · exact hill
              exact ending_refuse (through_refused (by rwa [hsource]) hill.append)
          | some url =>
              simp only [hadd, hlast, checked_some]
              apply uploads_sent (by rw [hsource, firsts_succ, hat]; rfl) hnext
              · rintro answer' e hanswer ⟨status, hok, -⟩
                cases hanswer.symm.trans hok
              · intro answer' status hanswer hpiece
                apply answered_uploads (by rwa [hpiece])
                · refine fun hnot => .last ?_
                  rintro ⟨status', hok, hstatus⟩
                  cases hanswer.symm.trans hok
                  exact hnot hstatus
                · exact ih (hurl.imp_right fun hill => hill.append.append) hstop hbelow (by omega)
                    hpiece
      case isFalse hge =>
        have hall : ¬ index < divCeil length chunk := by
          rw [lt_divCeil_iff hchunk]
          omega
        apply Fallible.Ending.pure
        show sentOf chunkOf log = ranged chunk length
        rw [hlog, ranged, Nat.le_antisymm hindex (Nat.le_of_not_lt hall)]

/-- **Chunks go up in order, whatever they are answered.** -/
theorem putResumable_uploads (hchunk : 0 < chunk) (hlength : length ≤ maxU64) :
    Uploads chunkOf (Well join length) (ranged chunk length) (putResumable join length chunk)
      [] := by
  have hfirst : firsts (placed chunk length) 0 <+: ranged chunk length :=
    firsts_le (Nat.zero_le _)
  apply uploads_sent (by rfl) hfirst
  · rintro answer e hanswer ⟨session, url, hok, -⟩
    cases hanswer.symm.trans hok
  · intro answer named hanswer hstart
    cases named with
    | none =>
        refine ending_refuse (through_refused (by rwa [hstart]) (.last ?_))
        rintro ⟨session, url, hok, -⟩
        cases hanswer.symm.trans hok
    | some session =>
        have hurl : (join session).isSome ∨
            Ill (Well join length) ([] ++ [⟨.session length, answer⟩]) := by
          cases hjoin : join session with
          | some url => exact .inl rfl
          | none =>
              refine .inr (.last ?_)
              rintro ⟨session', url, hok, hurl⟩
              cases hanswer.symm.trans hok
              cases hjoin.symm.trans hurl
        exact chunksFrom_uploads hchunk hlength hurl (by omega) (Nat.zero_le _) (by omega) hstart

end Gcs

/-! ## The sizes -/

theorem map_firsts {γ δ : Type} (f : γ → δ) (piece : Nat → γ) (count : Nat) :
    (firsts piece count).map f = firsts (fun i => f (piece i)) count := by
  simp [firsts]

@[simp] theorem length_firsts {γ : Type} (piece : Nat → γ) (count : Nat) :
    (firsts piece count).length = count := by
  simp [firsts]

theorem divCeil_le {a b c : Nat} (hb : 0 < b) (h : a ≤ c * b) : divCeil a b ≤ c := by
  by_contra hnot
  have hlt : c * b < a := (lt_divCeil_iff hb).mp (by omega)
  omega

theorem le_divCeil_mul {a b : Nat} (hb : 0 < b) : a ≤ divCeil a b * b := by
  by_contra hnot
  exact Nat.lt_irrefl _ ((lt_divCeil_iff hb).mpr (Nat.lt_of_not_le hnot))

theorem S3.partSize_pos (length : Nat) : 0 < S3.partSize length := by
  have hsmallest : 0 < S3.smallestPart := by decide
  exact hsmallest.trans_le (Nat.le_max_right _ _)

/-- **S3 takes as many parts as there are.** -/
theorem S3.count_le (length : Nat) : divCeil length (S3.partSize length) ≤ S3.mostParts := by
  have hgrown : divCeil length S3.mostParts ≤ S3.partSize length :=
    (Nat.le_max_right _ _).trans (Nat.le_max_left _ _)
  apply divCeil_le (S3.partSize_pos length)
  calc length ≤ divCeil length S3.mostParts * S3.mostParts := le_divCeil_mul (by decide)
    _ ≤ S3.partSize length * S3.mostParts := Nat.mul_le_mul_right _ hgrown
    _ = S3.mostParts * S3.partSize length := Nat.mul_comm _ _

theorem Azure.blockSize_pos (length : Nat) : 0 < Azure.blockSize length := by
  have hblock : 0 < max Azure.block (divCeil length Azure.mostBlocks) :=
    Nat.lt_of_lt_of_le (by decide) (Nat.le_max_left _ _)
  have hlargest : 0 < Azure.largestBlock := by decide
  exact Nat.lt_min.mpr ⟨hblock, hlargest⟩

/-- **Azure takes fewer blocks than the longest files need.** -/
theorem Azure.count_le_iff {length : Nat} :
    divCeil length (Azure.blockSize length) ≤ Azure.mostBlocks ↔
      length ≤ Azure.mostBlocks * Azure.largestBlock := by
  constructor
  · intro hcount
    calc length ≤ divCeil length (Azure.blockSize length) * Azure.blockSize length :=
          le_divCeil_mul (Azure.blockSize_pos length)
      _ ≤ Azure.mostBlocks * Azure.largestBlock :=
          Nat.mul_le_mul hcount (Nat.min_le_right _ _)
  · intro hlength
    have hgrown : divCeil length Azure.mostBlocks ≤ Azure.blockSize length := by
      refine Nat.le_min.mpr ⟨Nat.le_max_right _ _, ?_⟩
      exact divCeil_le (by decide) (hlength.trans_eq (Nat.mul_comm _ _))
    apply divCeil_le (Azure.blockSize_pos length)
    calc length ≤ divCeil length Azure.mostBlocks * Azure.mostBlocks := le_divCeil_mul (by decide)
      _ ≤ Azure.blockSize length * Azure.mostBlocks := Nat.mul_le_mul_right _ hgrown
      _ = Azure.mostBlocks * Azure.blockSize length := Nat.mul_comm _ _

/-- S3 has been sent the first parts of a file: at most as many as it takes, and all but the
last as large as it takes them. -/
def S3.Tiled (length : Nat)
    (c : Program S3.Req S3.Resp (Except Failure Unit) × List (Exchange S3.Req S3.Resp)) : Prop :=
  ∃ parts, Sends S3.partOf S3.Well parts c.1 c.2 ∧ Tiles length 0 (parts.map Prod.snd) ∧
    parts.map Prod.fst = List.range' 1 parts.length ∧ parts.length ≤ S3.mostParts ∧
    ∀ span ∈ (parts.map Prod.snd).dropLast, S3.smallestPart ≤ span.length

/-- Azure has been sent the first blocks of a file, under ids of one length that are distinct,
or the file is longer than all the blocks it takes and was refused before the first. -/
def Azure.Tiled (length : Nat)
    (c : Program Azure.Req Azure.Resp (Except Failure Unit) ×
      List (Exchange Azure.Req Azure.Resp)) : Prop :=
  (Azure.mostBlocks * Azure.largestBlock < length ∧ c.2 = [] ∧
      ∃ e, c.1 = .pure (.error (.refused e))) ∨
    length ≤ Azure.mostBlocks * Azure.largestBlock ∧
    ∃ blocks, Sends Azure.blockOf Azure.Well blocks c.1 c.2 ∧
      Tiles length 0 (blocks.map Prod.snd) ∧ blocks.length ≤ Azure.mostBlocks ∧
      (blocks.map Prod.fst).Nodup ∧ ∀ id ∈ blocks.map Prod.fst, id.length = 32

/-- Google has been sent the first chunks of a file, under their ranges, and all but the last
are a multiple of 256 KiB. -/
def Gcs.Tiled (join : Text → Option Text) (length : Nat)
    (c : Program Gcs.Req Gcs.Resp (Except Failure Unit) × List (Exchange Gcs.Req Gcs.Resp)) :
    Prop :=
  ∃ chunks, Sends Gcs.chunkOf (Gcs.Well join length) chunks c.1 c.2 ∧
    Tiles length 0 (chunks.map Prod.snd) ∧
    (∀ chunk ∈ chunks, chunk.1 = Gcs.rangeOf length chunk.2) ∧
    ∀ span ∈ (chunks.map Prod.snd).dropLast, 256 * 1024 ∣ span.length

theorem S3.tiled {length : Nat}
    {c : Program S3.Req S3.Resp (Except Failure Unit) × List (Exchange S3.Req S3.Resp)}
    (hsends : Sends S3.partOf S3.Well (S3.numbered (S3.partSize length) length) c.1 c.2) :
    S3.Tiled length c := by
  have hsize := S3.partSize_pos length
  have hspans : (S3.numbered (S3.partSize length) length).map Prod.snd =
      spans (S3.partSize length) length := map_firsts _ _ _
  refine ⟨_, hsends, ?_, ?_, ?_, ?_⟩
  · rw [hspans]
    exact tiles_spans hsize
  · rw [S3.numbered, map_firsts, length_firsts, List.range'_eq_map_range]
    exact List.map_congr_left fun i _ => Nat.add_comm i 1
  · rw [S3.numbered, length_firsts]
    exact S3.count_le length
  · intro span hspan
    rw [hspans] at hspan
    rw [length_of_mem_dropLast hsize hspan]
    exact Nat.le_max_right _ _

theorem Azure.tiled {engine : Base64.Engine} {upload : UInt64} {length : Nat}
    {c : Program Azure.Req Azure.Resp (Except Failure Unit) ×
      List (Exchange Azure.Req Azure.Resp)}
    (hfits : length ≤ Azure.mostBlocks * Azure.largestBlock)
    (hsends : Sends Azure.blockOf Azure.Well
      (Azure.named engine upload (Azure.blockSize length) length) c.1 c.2) :
    Azure.Tiled length c := by
  have hsize := Azure.blockSize_pos length
  have hfew := Azure.count_le_iff.mpr hfits
  have hspans : (Azure.named engine upload (Azure.blockSize length) length).map Prod.snd =
      spans (Azure.blockSize length) length := map_firsts _ _ _
  refine .inr ⟨hfits, _, hsends, ?_, ?_, ?_, ?_⟩
  · rw [hspans]
    exact tiles_spans hsize
  · rw [Azure.named, length_firsts]
    exact hfew
  · rw [Azure.named, map_firsts]
    have hne : ∀ i j, i ≠ j → Azure.blockId engine upload i ≠ Azure.blockId engine upload j :=
      fun i j hij h => hij (Azure.blockId_inj h)
    exact List.Pairwise.map _ hne List.nodup_range
  · intro id hid
    rw [Azure.named, map_firsts] at hid
    obtain ⟨i, hi, rfl⟩ := List.mem_map.mp hid
    have hlarge : Azure.mostBlocks < 10 ^ 8 := by decide
    exact Azure.length_blockId (((List.mem_range.mp hi).trans_le hfew).trans hlarge)

theorem Gcs.tiled {join : Text → Option Text} {length : Nat}
    {c : Program Gcs.Req Gcs.Resp (Except Failure Unit) × List (Exchange Gcs.Req Gcs.Resp)}
    (hsends : Sends Gcs.chunkOf (Gcs.Well join length) (Gcs.ranged Gcs.chunk length) c.1 c.2) :
    Gcs.Tiled join length c := by
  have hchunk : 0 < Gcs.chunk := by decide
  have hspans : (Gcs.ranged Gcs.chunk length).map Prod.snd = spans Gcs.chunk length :=
    map_firsts _ _ _
  refine ⟨_, hsends, ?_, ?_, ?_⟩
  · rw [hspans]
    exact tiles_spans hchunk
  · intro chunk hmem
    obtain ⟨i, -, rfl⟩ := List.mem_map.mp hmem
    rfl
  · intro span hspan
    rw [hspans] at hspan
    rw [length_of_mem_dropLast hchunk hspan]
    decide

/-- Every run of an upload is in `P`, and one that is answered well ends well there. -/
def Lands {Req : Type} {Resp : Req → Type} (Well : (r : Req) → Resp r → Prop)
    (op : Fallible Failure Req Resp Unit)
    (P : Program Req Resp (Except Failure Unit) × List (Exchange Req Resp) → Prop) : Prop :=
  (∀ c, Program.Steps anything (op.run, []) c → P c) ∧
    ∀ respond : (r : Req) → List (Exchange Req Resp) → Resp r,
      (∀ r log, Well r (respond r log)) →
      ∃ log, op.run.eval (answering respond) [] = (.ok (), log) ∧ P (.pure (.ok ()), log)

theorem Uploads.lands {Req γ : Type} {Resp : Req → Type} {piece : Req → Option γ}
    {Well : (r : Req) → Resp r → Prop} {all : List γ} {op : Fallible Failure Req Resp Unit}
    {P : Program Req Resp (Except Failure Unit) × List (Exchange Req Resp) → Prop}
    (h : Uploads piece Well all op []) (hP : ∀ c, Sends piece Well all c.1 c.2 → P c) :
    Lands Well op P := by
  refine ⟨fun c hsteps => hP c (h.sends hsteps), fun respond hwell => ?_⟩
  obtain ⟨log, heval, hsteps⟩ := h.finishes hwell
  exact ⟨log, heval, hP _ (h.sends hsteps)⟩

/-- **Uploads tile the file**, and one that is answered well sends all of it. -/
theorem uploads_tile (engine : Base64.Engine) (upload : UInt64) (join : Text → Option Text)
    {length : Nat} (hlength : length ≤ maxU64) :
    (S3.singlePutCeiling < length → Lands S3.Well (S3.putFile length) (S3.Tiled length)) ∧
    (Azure.singlePutCeiling < length →
      (∀ c, Program.Steps anything ((Azure.putFile engine upload length).run, []) c →
        Azure.Tiled length c) ∧
      (length ≤ Azure.mostBlocks * Azure.largestBlock →
        Lands Azure.Well (Azure.putFile engine upload length) (Azure.Tiled length))) ∧
    (Gcs.singlePutCeiling < length →
      Lands (Gcs.Well join length) (Gcs.putFile join length) (Gcs.Tiled join length)) := by
  refine ⟨?_, ?_, ?_⟩
  · intro hceiling
    have hsmall : S3.mostParts < 2 ^ 16 := by decide
    rw [S3.putFile, if_pos hceiling]
    exact (S3.putInParts_uploads (S3.partSize_pos length) hlength
      ((S3.count_le length).trans_lt hsmall)).lands fun _ => S3.tiled
  · intro hceiling
    have hsize := Azure.blockSize_pos length
    rw [Azure.putFile, if_pos hceiling]
    have hlands : length ≤ Azure.mostBlocks * Azure.largestBlock →
        Lands Azure.Well (Azure.putInBlocks engine upload length (Azure.blockSize length))
          (Azure.Tiled length) := fun hfits =>
      (Azure.putInBlocks_uploads hsize hlength (Azure.count_le_iff.mpr hfits)).lands
        fun _ => Azure.tiled hfits
    refine ⟨fun c hsteps => ?_, hlands⟩
    rcases Nat.lt_or_ge (Azure.mostBlocks * Azure.largestBlock) length with hlong | hfits
    · have hmany : Azure.mostBlocks < divCeil length (Azure.blockSize length) :=
        Nat.lt_of_not_le fun hcount =>
          Nat.lt_irrefl _ (hlong.trans_le (Azure.count_le_iff.mp hcount))
      rw [Azure.putInBlocks_refused hsize hmany] at hsteps
      rcases Relation.ReflTransGen.cases_head hsteps with rfl | ⟨_, hstep, _⟩
      · exact .inl ⟨hlong, rfl, _, rfl⟩
      · cases hstep
    · exact (hlands hfits).1 c hsteps
  · intro hceiling
    rw [Gcs.putFile, if_pos hceiling]
    exact (Gcs.putResumable_uploads (by decide) hlength).lands fun _ => Gcs.tiled

/-! ### A file of 6 GiB -/

def S3.granting : (r : S3.Req) → List (Exchange S3.Req S3.Resp) → S3.Resp r
  | .put _, _ => .ok ()
  | .create, _ => .ok "upload".toList
  | .source _, _ => .ok ()
  | .part _ number _, _ => .ok (some (decimal number))
  | .complete _ _, _ => .ok ()
  | .abort _, _ => .ok ()

theorem S3.well_granting (r : S3.Req) (log : List (Exchange S3.Req S3.Resp)) :
    S3.Well r (S3.granting r log) := by
  cases r with
  | create => exact ⟨_, rfl⟩
  | part upload number span => exact ⟨_, rfl⟩
  | put length => rfl
  | source offset => rfl
  | complete upload etags => rfl
  | abort upload => rfl

def Azure.granting : (r : Azure.Req) → List (Exchange Azure.Req Azure.Resp) → Azure.Resp r
  | .put _, _ => .ok ()
  | .source _, _ => .ok ()
  | .block _ _, _ => .ok ()
  | .blockList _, _ => .ok ()

theorem Azure.well_granting (r : Azure.Req) (log : List (Exchange Azure.Req Azure.Resp)) :
    Azure.Well r (Azure.granting r log) := by
  cases r <;> rfl

def Gcs.granting (length : Nat) :
    (r : Gcs.Req) → List (Exchange Gcs.Req Gcs.Resp) → Gcs.Resp r
  | .put _, _ => .ok ()
  | .session _, _ => .ok (some "session".toList)
  | .source _, _ => .ok ()
  | .chunk _ _ span, _ =>
      if span.offset + span.length = length then .ok ⟨200, "200 OK", ""⟩
      else .ok ⟨308, "308 Permanent Redirect", ""⟩

theorem Gcs.well_granting (length : Nat) (r : Gcs.Req) (log : List (Exchange Gcs.Req Gcs.Resp)) :
    Gcs.Well some length r (Gcs.granting length r log) := by
  cases r with
  | put length => rfl
  | session length => exact ⟨_, _, rfl, rfl⟩
  | source offset => rfl
  | chunk session range span =>
      by_cases hend : span.offset + span.length = length
      · refine ⟨⟨200, "200 OK", ""⟩, ?_, ?_⟩
        · rw [Gcs.granting, if_pos hend]
        · rw [if_pos hend]
          decide
      · refine ⟨⟨308, "308 Permanent Redirect", ""⟩, ?_, ?_⟩
        · rw [Gcs.granting, if_neg hend]
        · rw [if_neg hend]
          rfl

/-- A file of 6 GiB is over every ceiling, and goes up whole. -/
theorem uploads_tile_six :
    (∃ log, (S3.putFile (6 * 2 ^ 30)).run.eval (answering S3.granting) [] = (.ok (), log) ∧
      Tiles (6 * 2 ^ 30) 0 ((sentOf S3.partOf log).map Prod.snd)) ∧
    (∃ log, (Azure.putFile Base64.standard 7 (6 * 2 ^ 30)).run.eval
        (answering Azure.granting) [] = (.ok (), log) ∧
      Tiles (6 * 2 ^ 30) 0 ((sentOf Azure.blockOf log).map Prod.snd)) ∧
    ∃ log, (Gcs.putFile some (6 * 2 ^ 30)).run.eval
        (answering (Gcs.granting (6 * 2 ^ 30))) [] = (.ok (), log) ∧
      Tiles (6 * 2 ^ 30) 0 ((sentOf Gcs.chunkOf log).map Prod.snd) := by
  have hlength : 6 * 2 ^ 30 ≤ maxU64 := by decide
  obtain ⟨hs3, hazure, hgcs⟩ := uploads_tile Base64.standard 7 some hlength
  refine ⟨?_, ?_, ?_⟩
  · obtain ⟨log, heval, parts, hsends, htiles, -⟩ :=
      (hs3 (by decide)).2 S3.granting S3.well_granting
    exact ⟨log, heval, by rwa [hsends.whole rfl]⟩
  · obtain ⟨log, heval, ⟨-, -, e, he⟩ | ⟨-, blocks, hsends, htiles, -⟩⟩ :=
      ((hazure (by decide)).2 (by decide)).2 Azure.granting Azure.well_granting
    · cases he
    · exact ⟨log, heval, by rwa [hsends.whole rfl]⟩
  · obtain ⟨log, heval, chunks, hsends, htiles, -⟩ :=
      (hgcs (by decide)).2 (Gcs.granting (6 * 2 ^ 30)) (Gcs.well_granting (6 * 2 ^ 30))
    exact ⟨log, heval, by rwa [hsends.whole rfl]⟩

end Lfsx.Storage.Multipart
