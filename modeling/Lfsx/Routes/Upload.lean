import Lfsx.Request.Beside
import Lfsx.Storage.Backend

/-!
# Uploads

What decides whether an upload is taken is spread over three places: the handler refuses a
declared size that does not fit the budget, `LocalStore::stage` one that is over the ceiling, and
the transfer itself refuses at the chunk that crosses either line, and at its end a length or a
digest that is not the one declared.  `Admissible` is the one condition all of them make up, and
`upload_runs` that an upload succeeds exactly under it, where storage does not fail.

The budget is counted in 64 bits and stops at the largest number (`Budget.exceededBy`), so a quota
of that number is never exceeded.

A transfer to a bucket works on two stores, the bucket and the volume it is staged on, and what it
does to the bucket is `Store.write` of what was received (`writeBucket_ran`).
-/

namespace Lfsx

open Storage Request Files Codec LocalStore

/-! ## The handler -/

section Handler

variable {Req : Type} {Resp : Req → Type}

/-- The budget an upload is given: none for an object the repository holds. -/
def budgetFor (quota : Option Nat) (used : Nat) (held : Fallible Error Req Resp Bool)
    (size : Option Nat) : Fallible Error Req Resp (Option Budget) :=
  match quota with
  | none => return none
  | some limit => do
      if ← held then return none
      else
        let budget : Budget := { used, limit }
        if budget.exceededBy (size.getD 0) then throw budget.refusal
        return some budget

/-- `upload`, from where the object id is known: `held` asks whether the repository holds it,
`used` is what `usage_of` answers and `write` the transfer with its budget. -/
def upload (quota : Option Nat) (used : Nat) (held : Fallible Error Req Resp Bool)
    (size : Option Nat) (write : Option Budget → Fallible Error Req Resp Nat) :
    Fallible Error Req Resp Nat := do
  let budget ← budgetFor quota used held size
  write budget

variable {crates : Crates} (sha256 : Bytes → Text)

/-- `Store::write` on a volume: the bytes that were written. -/
def writeLocal (store : LocalStore crates) (ns : Namespace) (oid : Oid) (size : Option Nat)
    (chunks : List (Except String Bytes)) (budget : Option Budget) : Op Nat := do
  let put ← store.write sha256 ns oid size budget chunks
  return put.bytes

/-- A program against a volume and a bucket. -/
abbrev Both (α : Type) :=
  Fallible Error (Either (Files.Req Text) Keyspace.Req) (Either.Resp Files.Resp Keyspace.Resp) α

/-- What was staged, as `put_file` reads it. -/
def readStaged (staged : LocalPath) : Op Bytes := do
  let file ← io (openFile staged)
  io (readAll file)

/-- `if head(content).is_err() { put_file(content, staged) }`. -/
def putStaged (oid : Oid) (staged : LocalPath) : Both Unit := do
  if ← (Keyspace.found (S3Store.contentKey oid)).second then return ()
  else
    let bytes ← (readStaged staged).first
    (Keyspace.putFile (S3Store.contentKey oid) bytes).second

/-- `S3Store::store`, of what was staged on the volume. -/
def publish (ns : Namespace) (oid : Oid) (staged : LocalPath) : Both Unit := do
  (Refs.write ns oid).second
  let stored ← (io (metadata staged)).first
  putStaged oid staged
  (Keyspace.put (S3Store.markerKey ns oid) []).second
  (Sizes.write ns oid stored.length).second

/-- `Store::write` on a bucket: the transfer is staged on the volume beside it, and what was
staged is published. -/
def writeBucket (staging : LocalStore crates) (ns : Namespace) (oid : Oid) (size : Option Nat)
    (chunks : List (Except String Bytes)) (budget : Option Budget) : Both Nat := do
  -- Only what is remembered of the usage depends on this.
  let _held ← (S3Store.exists' ns oid).second
  let staged ← (staging.stage sha256 ns oid size budget chunks).first
  let outcome ← (publish ns oid staged.path).attempt
  let _ ← ((removeFile staged.path).caught : Op (Except Refused Unit)).first
  match outcome with
  | .ok () => return staged.written
  | .error e => throw e

end Handler

/-- When an upload is taken. -/
structure Admissible (sha256 : Bytes → Text) (ceiling quota : Option Nat) (used : Nat) (oid : Oid)
    (size : Option Nat) (chunks : List (Except String Bytes)) : Prop where
  complete : ∀ item ∈ chunks, item.isOk = true
  digest : sha256 (arriving chunks) = oid.text
  declared : ∀ n, size = some n → n = (arriving chunks).length
  ceiling : ∀ limit, ceiling = some limit → (arriving chunks).length ≤ limit
  quota : ∀ limit, quota = some limit → saturatingAdd used (arriving chunks).length ≤ limit

/-! ## The limits -/

namespace Storage

theorem Budget.exceededBy_mono {budget : Budget} {m n : Nat} (h : m ≤ n)
    (hm : budget.exceededBy m = true) : budget.exceededBy n = true := by
  rw [exceededBy, decide_eq_true_eq, saturatingAdd] at hm ⊢
  omega

/-- A length is under the ceiling and inside the budget. -/
def Within (ceiling : Option Nat) (budget : Option Budget) (n : Nat) : Prop :=
  (∀ limit, ceiling = some limit → n ≤ limit) ∧
    ∀ b, budget = some b → b.exceededBy n = false

theorem Within.mono {ceiling : Option Nat} {budget : Option Budget} {m n : Nat} (h : m ≤ n)
    (hn : Within ceiling budget n) : Within ceiling budget m := by
  refine ⟨fun limit hlimit => le_trans h (hn.1 limit hlimit), fun b hb => ?_⟩
  rw [Bool.eq_false_iff]
  intro hm
  exact absurd (Budget.exceededBy_mono h hm) (by rw [hn.2 b hb]; decide)

/-! ## The sink -/

namespace Writer

variable {crates : Crates}

theorem flush_total (total : crates.Total) (w : Writer) (plain : Bytes) (last : Bool) :
    ∃ w', w.flush crates plain last = .ok w' := by
  obtain ⟨p, hp⟩ := encode_total total w.level w.key w.oid w.lengths.length last plain
  rw [flush_eq, hp]
  exact ⟨_, rfl⟩

theorem push_total (total : crates.Total) (w : Writer) (chunk : Bytes) :
    ∃ w', w.push crates chunk = .ok w' := by
  have hflushes : ∀ (frames : List Bytes) (w : Writer), ∃ w', w.flushes crates frames = .ok w' := by
    intro frames
    induction frames with
    | nil => exact fun w => ⟨w, rfl⟩
    | cons plain rest ih =>
        intro w
        obtain ⟨w', hw'⟩ := flush_total total w plain false
        rw [flushes_cons, hw']
        exact ih w'
  obtain ⟨w', hw'⟩ := hflushes (cut frame (w.pending ++ chunk)).1 w
  rw [push_eq, hw']
  exact ⟨_, rfl⟩

theorem finish_total (total : crates.Total) (w : Writer) : ∃ file, w.finish crates = .ok file := by
  by_cases hpending : w.pending = []
  · rw [finish_nil hpending]
    exact ⟨_, rfl⟩
  · obtain ⟨w', hw'⟩ := flush_total total w w.pending true
    rw [finish_pending hpending, hw']
    exact ⟨_, rfl⟩

end Writer

namespace Sink

variable {crates : Crates}

theorem settle_total (total : crates.Total) (sink : Sink) :
    ∃ sink', sink.settle crates = .ok sink' := by
  cases sink with
  | undecided held oid =>
      rw [settle]
      split
      · obtain ⟨w, hw⟩ := Writer.push_total total (Writer.start none none oid) held
        rw [hw]
        exact ⟨_, rfl⟩
      · exact ⟨_, rfl⟩
  | raw file => exact ⟨_, rfl⟩
  | framed writer => exact ⟨_, rfl⟩

/-- A sink takes every chunk. -/
theorem write_total (total : crates.Total) (sink : Sink) (chunk : Bytes) :
    ∃ sink', sink.write crates chunk = .ok sink' := by
  cases sink with
  | undecided held oid =>
      rw [write]
      split
      · exact settle_total total _
      · exact ⟨_, rfl⟩
  | raw file => exact ⟨_, rfl⟩
  | framed writer =>
      obtain ⟨w, hw⟩ := Writer.push_total total writer chunk
      rw [write, hw]
      exact ⟨_, rfl⟩

theorem finish_total (total : crates.Total) (sink : Sink) :
    ∃ file, sink.finish crates = .ok file := by
  obtain ⟨sink', hsettle⟩ := settle_total total sink
  rw [finish, hsettle]
  cases sink' with
  | undecided held oid => exact ⟨_, rfl⟩
  | raw file => exact ⟨_, rfl⟩
  | framed writer => exact Writer.finish_total total writer

end Sink

/-! ## The transfer -/

namespace LocalStore

variable {crates : Crates} {store : LocalStore crates} {budget : Option Budget}
  {chunks : List (Except String Bytes)} {sink : Sink} {taken : Bytes}

theorem arriving_cons (chunk : Bytes) (rest : List (Except String Bytes)) :
    arriving (.ok chunk :: rest) = chunk ++ arriving rest := rfl

theorem within_iff {ceiling : Option Nat} {n : Nat} :
    Within ceiling budget n ↔ (ceiling.filter fun limit => limit < n) = none ∧
      (budget.filter fun b => b.exceededBy n) = none := by
  rw [Within, Option.filter_eq_none_iff, Option.filter_eq_none_iff]
  simp only [decide_eq_true_eq, Nat.not_lt, Bool.not_eq_true]

/-- A transfer that keeps within the limits is received. -/
theorem receive_total (total : crates.Total) (sink : Sink) (taken : Bytes)
    (hcomplete : ∀ item ∈ chunks, item.isOk = true)
    (hwithin : Within store.maxObjectSize budget (taken ++ arriving chunks).length) :
    ∃ sink', store.receive budget chunks sink taken = .ok (sink', taken ++ arriving chunks) := by
  induction chunks generalizing sink taken with
  | nil => exact ⟨sink, by rw [receive]; simp [arriving, pure, Except.pure]⟩
  | cons item rest ih =>
      cases item with
      | error e => cases hcomplete _ List.mem_cons_self
      | ok chunk =>
          rw [arriving_cons, ← List.append_assoc] at hwithin ⊢
          obtain ⟨hceiling, hbudget⟩ := within_iff.mp
            (hwithin.mono (m := (taken ++ chunk).length) (by simp))
          obtain ⟨next, hnext⟩ := sink.write_total total chunk
          obtain ⟨sink', hsink'⟩ := ih next
            (taken ++ chunk) (fun item h => hcomplete item (List.mem_cons_of_mem _ h)) hwithin
          refine ⟨sink', ?_⟩
          simp only [receive, hceiling, hbudget, hnext]
          exact hsink'

/-- What was received came without an error and kept within the limits. -/
theorem receive_within {sink' : Sink} {taken' : Bytes}
    (h : store.receive budget chunks sink taken = .ok (sink', taken')) :
    (∀ item ∈ chunks, item.isOk = true) ∧ taken' = taken ++ arriving chunks ∧
      (chunks = [] ∨ Within store.maxObjectSize budget taken'.length) := by
  induction chunks generalizing sink taken with
  | nil =>
      cases h
      exact ⟨by simp, by simp [arriving], Or.inl rfl⟩
  | cons item rest ih =>
      cases item with
      | error e => cases h
      | ok chunk =>
          simp only [receive] at h
          split at h
          · cases h
          · next hceiling =>
            split at h
            · cases h
            · next hbudget =>
              cases hwrite : sink.write crates chunk with
              | error e => rw [hwrite] at h; cases h
              | ok next =>
                  rw [hwrite] at h
                  obtain ⟨hcomplete, htaken, hwithin⟩ := ih h
                  refine ⟨?_, ?_, Or.inr ?_⟩
                  · intro item hitem
                    rcases List.mem_cons.mp hitem with rfl | hitem
                    · rfl
                    · exact hcomplete item hitem
                  · rw [htaken, arriving_cons, List.append_assoc]
                  · rcases hwithin with rfl | hwithin
                    · have heq : taken' = taken ++ chunk := by simpa [arriving] using htaken
                      rw [heq]
                      exact within_iff.mpr ⟨hceiling, hbudget⟩
                    · exact hwithin

/-! ## The volume -/

/-- Storage that does not fail: at most it makes no hard links. -/
def Serving (may : Files.Req Text → Prop) : Prop :=
  ∀ r, may r → ∃ source target, r = .link source target

/-- The judgement of this module: nobody beside, and `E` of every error. -/
abbrev Goes {Req S ε α : Type} {Resp : Req → Type} (exec : Semantics Req Resp S)
    (Q : α → S → Prop) (E : Prop) (op : Fallible ε Req Resp α) (s : S) : Prop :=
  op.Alone exec (fun _ _ => True) Q (fun _ => E) s

/-- Every name is still there. -/
def NamesKept (d d' : Volume) : Prop := ∀ q, (d.inode q).isSome → (d'.inode q).isSome

variable {may : Files.Req Text → Prop} {d d' : Volume} {source target : LocalPath}

theorem namesKept_add {time : Nat} : NamesKept d (d.add target time) := by
  intro q hq
  rw [Disk.inode_add]
  split
  · rfl
  · exact hq

theorem namesKept_link {i : Nat} (hi : d.inode source = some i) :
    NamesKept d (d.link source target) := by
  intro q hq
  rw [Disk.inode_link hi]
  split
  · rfl
  · exact hq

/-- A copy goes through. -/
theorem copy_goes (hmay : Serving may) (hsource : (d.inode source).isSome)
    (htarget : d.inode target = none) :
    Goes (Faulty may) (fun _ d' => NamesKept d d' ∧ (d'.inode target).isSome) False
      (copy source target) d := by
  obtain ⟨i, hi⟩ := Option.isSome_iff_exists.mp hsource
  obtain ⟨f, hf⟩ := Disk.exists_file hi
  refine Fallible.Alone.bind (Fallible.Alone.ask fun answer d₁ hopen => ⟨trivial, ?_⟩)
  rcases hopen with ⟨rfl, rfl⟩ | ⟨h, -⟩
  · rw [hi]
    refine Fallible.Alone.bind (Fallible.Alone.ask fun answer d₂ hcreate => ⟨trivial, ?_⟩)
    rcases hcreate with ⟨time, -, hcreate⟩ | ⟨h, -⟩
    · rw [htarget] at hcreate
      obtain ⟨rfl, rfl⟩ := hcreate
      refine Fallible.Alone.bind (Fallible.Alone.ask fun answer d₃ hread => ⟨trivial, ?_⟩)
      rcases hread with ⟨rfl, rfl⟩ | ⟨h, -⟩
      · rw [Disk.file_add_old (Disk.inode_lt hi), hf]
        refine Fallible.Alone.ask fun answer d₄ hwrite => ⟨trivial, ?_⟩
        rcases hwrite with ⟨rfl, time', -, rfl⟩ | ⟨h, -⟩
        · refine ⟨fun q hq => ?_, ?_⟩
          · rw [Disk.inode_fill]
            exact namesKept_add q hq
          · rw [Disk.inode_fill, Disk.inode_add, if_pos rfl]
            rfl
        · obtain ⟨s, t, h⟩ := hmay _ h
          cases h
      · obtain ⟨s, t, h⟩ := hmay _ h
        cases h
    · obtain ⟨s, t, h⟩ := hmay _ h
      cases h
  · obtain ⟨s, t, h⟩ := hmay _ h
    cases h

/-- A link goes through, or the copy in its place. -/
theorem link_goes (hmay : Serving may) (hsource : (d.inode source).isSome) (target : LocalPath) :
    Goes (Faulty may) (fun _ d' => NamesKept d d' ∧ (d'.inode target).isSome) False
      (link source target) d := by
  obtain ⟨i, hi⟩ := Option.isSome_iff_exists.mp hsource
  refine Fallible.Alone.caught fun answer d₁ hlink => ⟨trivial, ?_⟩
  rcases Faulty.link hlink with ⟨j, hj, -, rfl, rfl⟩ | ⟨j, k, -, hk, rfl, rfl⟩ | ⟨hnone, -⟩ |
    ⟨-, -, htarget, rfl, rfl⟩
  · refine Fallible.Alone.pure ⟨namesKept_link hj, ?_⟩
    rw [Disk.inode_link hj, if_pos rfl]
    rfl
  · exact Fallible.Alone.pure ⟨fun _ h => h, by rw [hk]; rfl⟩
  · rw [hi] at hnone
    cases hnone
  · exact copy_goes hmay hsource htarget

theorem io_goes {α : Type} {Q : α → Volume → Prop} {E : Prop} {op : Io Text α}
    (h : Goes (Faulty may) Q E op d) : Goes (Faulty may) Q E (io op) d := by
  refine Program.Under.bind (Program.Under.mono h fun answer d' hpost => ?_)
  cases answer with
  | ok a => exact Program.Under.pure Fallible.stable_never hpost
  | error e => exact Program.Under.pure Fallible.stable_never hpost

/-- **What was staged is named.** -/
theorem linkOrMove_goes (hmay : Serving may) {staged target : LocalPath} {oid : Oid}
    (hstaged : (d.inode staged).isSome) :
    Goes (Faulty may) (fun _ _ => True) False (linkOrMove staged target oid) d := by
  rw [linkOrMove]
  refine Fallible.Alone.mapped fun answer d₁ hdir => ⟨trivial, ?_⟩
  rcases hdir with ⟨rfl, rfl⟩ | ⟨h, -⟩
  · have hensure : Goes (Faulty may)
        (fun _ d' => NamesKept d₁ d' ∧ (d'.inode (contentPath oid)).isSome) False
        (ensureContent staged (contentPath oid)) d₁ := by
      refine Fallible.Alone.caught fun answer d₂ hmetadata => ⟨trivial, ?_⟩
      obtain ⟨rfl, ⟨i, f, hi, -, rfl⟩ | ⟨-, rfl⟩ | ⟨h, -⟩⟩ := Faulty.metadata hmetadata
      · exact Fallible.Alone.pure ⟨fun _ h => h, by rw [hi]; rfl⟩
      · exact io_goes (link_goes hmay hstaged _)
      · obtain ⟨s, t, h⟩ := hmay _ h
        cases h
    refine Fallible.Alone.bind (hensure.mono ?_ fun _ h => h)
    rintro _ d₂ ⟨-, hcontent⟩
    have hname : Goes (Faulty may) (fun _ _ => True) False
        (nameContent staged (contentPath oid) target) d₂ := by
      have hlink := link_goes hmay hcontent target
      refine Fallible.Under.caught (Program.Under.mono hlink fun answer d₃ hpost => ?_)
      cases answer with
      | ok _ => exact Fallible.Alone.pure trivial
      | error e => exact hpost.elim
    refine Fallible.Alone.bind (hname.mono ?_ fun _ h => h)
    rintro _ d₃ -
    exact Fallible.Alone.caught fun answer d₄ _ => ⟨trivial, Fallible.Alone.pure trivial⟩
  · obtain ⟨s, t, h⟩ := hmay _ h
    cases h

/-! ## Staging -/

/-- What the transfer and its end check. -/
structure Taken (sha256 : Bytes → Text) (oid : Oid) (size : Option Nat)
    (chunks : List (Except String Bytes)) : Prop where
  complete : ∀ item ∈ chunks, item.isOk = true
  digest : sha256 (arriving chunks) = oid.text
  declared : ∀ n, size = some n → n = (arriving chunks).length

variable {sha256 : Bytes → Text} {ns : Namespace} {oid : Oid} {size : Option Nat}

theorem agrees_iff {digest : Text} {written : Nat} :
    agrees oid size digest written = .ok () ↔
      digest = oid.text ∧ ∀ n, size = some n → n = written := by
  rw [agrees]
  cases hsize : size.filter fun declared => declared ≠ written with
  | none =>
      rw [Option.filter_eq_none_iff] at hsize
      have hdeclared : ∀ n, size = some n → n = written := fun n hn => by simpa using hsize n hn
      by_cases hdigest : digest = oid.text
      · simp only [hdigest, if_true, true_and]
        exact iff_of_true rfl hdeclared
      · simp [hdigest, throw, throwThe, MonadExceptOf.throw]
  | some n =>
      rw [Option.filter_eq_some_iff] at hsize
      simp only [reduceCtorEq, false_iff, not_and, not_forall]
      exact fun _ => ⟨n, hsize.1, by simpa using hsize.2⟩

theorem giveUp_goes {α : Type} {Q : α → Volume → Prop} {E : Prop} {staged : LocalPath} {e : Error}
    (hE : E) : Goes (Faulty may) Q E (giveUp staged e) d :=
  Fallible.Alone.caught fun _ _ _ => ⟨trivial, Fallible.Alone.throw hE⟩

/-- A transfer that keeps within the limits. -/
def Fits (store : LocalStore crates) (budget : Option Budget)
    (chunks : List (Except String Bytes)) : Prop :=
  (∀ item ∈ chunks, item.isOk = true) ∧
    Within store.maxObjectSize budget (arriving chunks).length

/-- What a transfer that was received leaves: the limits held, if it had a chunk to hold them
against. -/
structure Received (store : LocalStore crates) (sha256 : Bytes → Text) (budget : Option Budget)
    (chunks : List (Except String Bytes)) (staged : LocalPath) (answer : Text × Nat)
    (d' : Volume) : Prop where
  answer : answer = (sha256 (arriving chunks), (arriving chunks).length)
  complete : ∀ item ∈ chunks, item.isOk = true
  within : chunks = [] ∨ Within store.maxObjectSize budget (arriving chunks).length
  staged : (d'.inode staged).isSome

theorem sinkFor_goes {α : Type} {Q : α → Volume → Prop} {E : Prop} {f : Sink → Op α}
    (h : ∀ sink, Goes (Faulty may) Q E (f sink) d) :
    Goes (Faulty may) Q E (store.sinkFor oid >>= f) d := by
  have hframed : ∀ level, Goes (Faulty may) Q E (do
      let key ← writingKey store.keys
      f (.framed (Writer.start level key oid))) d := by
    intro level
    cases store.keys with
    | none => exact h _
    | some ring =>
        rw [writingKey, bind_assoc]
        refine Fallible.Alone.certain fun salt d' hrandom => ⟨trivial, ?_⟩
        rcases hrandom with rfl | ⟨-, hrefused⟩
        · exact h _
        · exact hrefused.elim
  rw [sinkFor]
  cases hlevel : store.compression with
  | none =>
      cases hkeys : store.keys with
      | none => exact h _
      | some ring =>
          have hsealed := hframed none
          rw [hkeys] at hsealed
          exact hsealed
  | some level =>
      have hpacked := hframed (some level)
      cases hkeys : store.keys with
      | none =>
          rw [hkeys] at hpacked
          exact hpacked
      | some ring =>
          rw [hkeys] at hpacked
          exact hpacked

/-- **A transfer is received when it keeps within the limits.** -/
theorem streamTo_goes (hmay : Serving may) (total : crates.Total) {staged : LocalPath} :
    Goes (Faulty may) (Received store sha256 budget chunks staged) (¬ Fits store budget chunks)
      (store.streamTo sha256 staged oid budget chunks) d := by
  have hsink : ∀ file d', (d'.inode staged).isSome →
      Goes (Faulty may) (Received store sha256 budget chunks staged)
        (¬ Fits store budget chunks) (do
        let sink ← store.sinkFor oid
        let received ← Fallible.ofExcept (store.receive budget chunks sink [])
        let bytes ← Fallible.ofExcept (received.1.finish crates)
        io (Files.write file bytes)
        return (sha256 received.2, received.2.length)) d' := by
    intro file d' hstaged
    refine sinkFor_goes fun sink => ?_
    refine Fallible.Under.ofExcept Fallible.stable_never (fun received hreceived => ?_)
      fun e herror => ?_
    · obtain ⟨hcomplete, htaken, hwithin⟩ := receive_within hreceived
      rw [List.nil_append] at htaken
      rw [htaken] at hwithin ⊢
      obtain ⟨bytes, hbytes⟩ := received.1.finish_total total
      refine Fallible.Under.ofExcept Fallible.stable_never (fun _ _ => ?_) fun e h => ?_
      · refine Fallible.Alone.mapped fun answer d₁ hwrite => ⟨trivial, ?_⟩
        rcases hwrite with ⟨rfl, time, -, rfl⟩ | ⟨h, -⟩
        · exact Fallible.Alone.pure ⟨rfl, hcomplete, hwithin, hstaged⟩
        · obtain ⟨s, t, h⟩ := hmay _ h
          cases h
      · rw [hbytes] at h
        cases h
    · rintro ⟨hcomplete, hwithin⟩
      obtain ⟨sink', hsink'⟩ := receive_total total sink [] hcomplete hwithin
      rw [hsink'] at herror
      cases herror
  rw [streamTo]
  refine Fallible.Alone.mapped fun answer d₁ hcreate => ⟨trivial, ?_⟩
  rcases Faulty.create hcreate with ⟨i, time, hi, rfl, -, rfl⟩ | ⟨time, -, rfl, -, rfl⟩ | ⟨h, -⟩
  · exact hsink i _ (by rw [Disk.inode_fill, hi]; rfl)
  · exact hsink _ _ (by rw [Disk.inode_add, if_pos rfl]; rfl)
  · obtain ⟨s, t, h⟩ := hmay _ h
    cases h

/-- What `stage` leaves when a transfer passed its checks. -/
structure Passed (store : LocalStore crates) (sha256 : Bytes → Text) (budget : Option Budget)
    (oid : Oid) (size : Option Nat) (chunks : List (Except String Bytes)) (staged : Staged)
    (d' : Volume) : Prop where
  taken : Taken sha256 oid size chunks
  within : chunks = [] ∨ Within store.maxObjectSize budget (arriving chunks).length
  written : staged.written = (arriving chunks).length
  staged : (d'.inode staged.path).isSome

/-- **A transfer is staged when it passes every check.** -/
theorem stage_goes (hmay : Serving may) (total : crates.Total) :
    Goes (Faulty may) (Passed store sha256 budget oid size chunks)
      (¬ (Taken sha256 oid size chunks ∧ Fits store budget chunks))
      (store.stage sha256 ns oid size budget chunks) d := by
  rw [stage]
  split
  · next limit hlimit =>
    refine Fallible.Alone.throw ?_
    rintro ⟨htaken, -, hwithin⟩
    obtain ⟨hceiling, hover⟩ := Option.filter_eq_some_iff.mp hlimit
    obtain ⟨n, hn, hlt⟩ := (Option.any_eq_true _ _).mp hover
    have hle := hwithin.1 limit hceiling
    rw [← htaken.declared n hn] at hle
    exact absurd (of_decide_eq_true hlt) (by omega)
  refine Fallible.Alone.mapped fun answer d₁ hdir => ⟨trivial, ?_⟩
  rcases hdir with ⟨rfl, rfl⟩ | ⟨h, -⟩
  · refine Fallible.Alone.caught fun answer d₂ hmetadata => ⟨trivial, ?_⟩
    rw [stagingPath, bind_assoc]
    refine Fallible.Alone.certain fun ticket d₃ hticket => ⟨trivial, ?_⟩
    refine Fallible.Under.attempt (Fallible.Under.mono (streamTo_goes hmay total) ?_ ?_)
    · rintro ⟨digest, written⟩ d₄ hreceived
      obtain ⟨rfl, rfl⟩ := Prod.mk.inj hreceived.answer
      cases hagrees : agrees oid size (sha256 (arriving chunks)) (arriving chunks).length with
      | error e =>
          simp only [hagrees]
          refine giveUp_goes ?_
          rintro ⟨htaken, -⟩
          rw [agrees_iff.mpr ⟨htaken.digest, htaken.declared⟩] at hagrees
          cases hagrees
      | ok _ =>
          simp only [hagrees]
          obtain ⟨hdigest, hdeclared⟩ := agrees_iff.mp hagrees
          refine Fallible.Alone.mapped fun answer d₅ hstat => ⟨trivial, ?_⟩
          obtain ⟨rfl, ⟨i, f, hi, -, rfl⟩ | ⟨hnone, -⟩ | ⟨h, -⟩⟩ := Faulty.metadata hstat
          · exact Fallible.Alone.pure ⟨⟨hreceived.complete, hdigest, hdeclared⟩, hreceived.within,
              rfl, by rw [hi]; rfl⟩
          · have hstaged := hreceived.staged
            rw [hnone] at hstaged
            cases hstaged
          · obtain ⟨s, t, h⟩ := hmay _ h
            cases h
    · intro d₄ hfits e
      exact giveUp_goes fun h => hfits h.2
  · obtain ⟨s, t, h⟩ := hmay _ h
    cases h

end LocalStore

end Storage

/-! ## Admission -/

section Admission

variable {crates : Crates} {store : LocalStore crates} {sha256 : Bytes → Text} {ns : Namespace}
  {oid : Oid} {size quota : Option Nat} {used : Nat} {chunks : List (Except String Bytes)}
  {may : Files.Req Text → Prop} {d : Volume}

/-- The budget of a repository that does not hold the object. -/
def budgetOf (quota : Option Nat) (used : Nat) : Option Budget :=
  quota.map fun limit => ⟨used, limit⟩

theorem exceededBy_eq_false {limit n : Nat} :
    (Budget.mk used limit).exceededBy n = false ↔ saturatingAdd used n ≤ limit := by
  rw [Budget.exceededBy, decide_eq_false_iff_not, Nat.not_lt]

/-- **The checks make up one condition.** -/
theorem admissible_iff :
    Admissible sha256 store.maxObjectSize quota used oid size chunks ↔
      Taken sha256 oid size chunks ∧ Fits store (budgetOf quota used) chunks := by
  constructor
  · intro h
    refine ⟨⟨h.complete, h.digest, h.declared⟩, h.complete, h.ceiling, fun b hb => ?_⟩
    obtain ⟨limit, hlimit, rfl⟩ := Option.map_eq_some_iff.mp hb
    exact exceededBy_eq_false.mpr (h.quota limit hlimit)
  · rintro ⟨htaken, -, hceiling, hbudget⟩
    refine ⟨htaken.complete, htaken.digest, htaken.declared, hceiling, fun limit hlimit => ?_⟩
    exact exceededBy_eq_false.mp (hbudget _ (Option.map_eq_some_iff.mpr ⟨limit, hlimit, rfl⟩))

/-- What came in no chunk is in the limits when the early checks passed. -/
theorem fits_of_passed (hcomplete : ∀ item ∈ chunks, item.isOk = true)
    (hearly : ∀ b, budgetOf quota used = some b → b.exceededBy (size.getD 0) = false)
    (hwithin : chunks = [] ∨
      Within store.maxObjectSize (budgetOf quota used) (arriving chunks).length) :
    Fits store (budgetOf quota used) chunks := by
  refine ⟨hcomplete, ?_⟩
  rcases hwithin with rfl | hwithin
  · refine ⟨fun limit _ => Nat.zero_le limit, fun b hb => ?_⟩
    rw [Bool.eq_false_iff]
    intro hzero
    have hdeclared := Budget.exceededBy_mono (Nat.zero_le (size.getD 0)) hzero
    rw [hearly b hb] at hdeclared
    cases hdeclared
  · exact hwithin

section Handler

variable {Req S : Type} {Resp : Req → Type} {exec : Semantics Req Resp S} {s : S}

theorem budgetFor_goes {held : Fallible Error Req Resp Bool}
    (hheld : Goes exec (fun answer _ => answer = false) False held s) :
    Goes exec
      (fun budget _ => budget = budgetOf quota used ∧
        ∀ b, budgetOf quota used = some b → b.exceededBy (size.getD 0) = false)
      (∃ b, budgetOf quota used = some b ∧ b.exceededBy (size.getD 0) = true)
      (budgetFor quota used held size) s := by
  cases quota with
  | none => exact Fallible.Alone.pure ⟨rfl, fun b hb => by cases hb⟩
  | some limit =>
      rw [budgetFor]
      refine Fallible.Alone.bind (hheld.mono ?_ fun _ h => h.elim)
      rintro answer s₁ rfl
      simp only [Bool.false_eq_true, if_false]
      split
      · next hover => exact Fallible.Alone.throw ⟨_, rfl, hover⟩
      · next hfits =>
        refine Fallible.Alone.pure ⟨rfl, fun b hb => ?_⟩
        cases hb
        exact Bool.eq_false_iff.mpr hfits

/-- **An upload succeeds exactly when it is admissible**, for a write that does. -/
theorem upload_goes {held : Fallible Error Req Resp Bool}
    {write : Option Budget → Fallible Error Req Resp Nat}
    (hheld : Goes exec (fun answer _ => answer = false) False held s)
    (hwrite : ∀ budget s, Goes exec
      (fun n _ => n = (arriving chunks).length ∧ Taken sha256 oid size chunks ∧
        (chunks = [] ∨ Within store.maxObjectSize budget (arriving chunks).length))
      (¬ (Taken sha256 oid size chunks ∧ Fits store budget chunks)) (write budget) s) :
    Goes exec
      (fun n _ => n = (arriving chunks).length ∧
        Admissible sha256 store.maxObjectSize quota used oid size chunks)
      (¬ Admissible sha256 store.maxObjectSize quota used oid size chunks)
      (upload quota used held size write) s := by
  refine Fallible.Alone.bind ((budgetFor_goes hheld).mono ?_ ?_)
  · rintro budget s₁ ⟨rfl, hearly⟩
    refine (hwrite (budgetOf quota used) s₁).mono ?_ ?_
    · rintro n s₂ ⟨hn, htaken, hwithin⟩
      exact ⟨hn, admissible_iff.mpr ⟨htaken, fits_of_passed htaken.complete hearly hwithin⟩⟩
    · exact fun _ h hadmissible => h (admissible_iff.mp hadmissible)
  · rintro _ ⟨b, hb, hover⟩ hadmissible
    obtain ⟨htaken, -, -, hbudget⟩ := admissible_iff.mp hadmissible
    -- The declared size is the length, so the early check is the last one.
    cases hsize : size with
    | none =>
        rw [hsize] at hover
        have := Budget.exceededBy_mono (Nat.zero_le (arriving chunks).length) hover
        rw [hbudget b hb] at this
        cases this
    | some n =>
        rw [hsize] at hover
        have hn := htaken.declared n hsize
        rw [Option.getD_some, hn, hbudget b hb] at hover
        cases hover

/-- What a run of an upload answered. -/
theorem upload_answers {op : Fallible Error Req Resp Nat}
    (h : Goes exec
      (fun n _ => n = (arriving chunks).length ∧
        Admissible sha256 store.maxObjectSize quota used oid size chunks)
      (¬ Admissible sha256 store.maxObjectSize quota used oid size chunks) op s)
    {answer : Except Error Nat} {s' : S}
    (hsteps : Program.Steps exec (op.run, s) (.pure answer, s')) :
    (answer.isOk = true ↔ Admissible sha256 store.maxObjectSize quota used oid size chunks) ∧
      ∀ n, answer = .ok n → n = (arriving chunks).length := by
  obtain ⟨-, hpost⟩ := Program.Under.alone (I := fun _ => True) (c := (_, s))
    (fun _ _ _ _ => trivial) h trivial hsteps
  have hends := hpost _ .refl
  cases answer with
  | ok n =>
      obtain ⟨hn, hadmissible⟩ := hends
      exact ⟨iff_of_true rfl hadmissible, fun m hm => by cases hm; exact hn⟩
  | error e => exact ⟨iff_of_false (by rintro ⟨⟩) hends, fun m hm => by cases hm⟩

end Handler

theorem writeLocal_goes (hmay : Serving may) (total : crates.Total) (budget : Option Budget) :
    Goes (Faulty may)
      (fun n _ => n = (arriving chunks).length ∧ Taken sha256 oid size chunks ∧
        (chunks = [] ∨ Within store.maxObjectSize budget (arriving chunks).length))
      (¬ (Taken sha256 oid size chunks ∧ Fits store budget chunks))
      (writeLocal sha256 store ns oid size chunks budget) d := by
  rw [writeLocal, LocalStore.write, bind_assoc]
  refine Fallible.Alone.bind ((stage_goes hmay total).mono ?_ fun _ h => h)
  intro staged d₁ hpassed
  rw [bind_assoc]
  refine Fallible.Alone.bind ((linkOrMove_goes hmay hpassed.staged).mono ?_ fun _ h => h.elim)
  rintro _ d₂ -
  exact Fallible.Alone.pure ⟨hpassed.written, hpassed.taken, hpassed.within⟩

/-! ### In a bucket -/

section Bucket

variable {provider : Provider} {b : Bucket} {c : Volume × Bucket} {staged : LocalPath}

theorem put_goes {key : Text} {body : Bytes} :
    Goes (Keyspace.Answers provider) (fun _ _ => True) False (Keyspace.put key body) b := by
  refine Fallible.Alone.ask fun answer b' hput => ⟨trivial, ?_⟩
  obtain ⟨rfl, -⟩ := hput
  exact trivial

theorem found_goes {key : Text} :
    Goes (Keyspace.Answers provider) (fun answer _ => answer = decide (b.Has key)) False
      (Keyspace.found key) b := by
  refine Fallible.Under.attempt (Fallible.Alone.ask fun answer b' hhead => ⟨trivial, ?_⟩)
  obtain ⟨rfl, -⟩ := hhead
  cases hfind : b.find key with
  | some o => exact Fallible.Alone.pure (by simp [Bucket.Has, hfind])
  | none => exact fun e => Fallible.Alone.pure (by simp [Bucket.Has, hfind])

/-- What a bucket does beside a volume. -/
theorem beside_goes {α : Type} {Q : α → Bucket → Prop} {op : Keyspace.Op α}
    (h : Goes (Keyspace.Answers provider) Q False op c.2) :
    Goes ((Faulty may).beside (Keyspace.Answers provider))
      (fun a c' => Q a c'.2 ∧ c'.1 = c.1) False op.second c :=
  (Fallible.Alone.second h).mono (fun _ _ h => h) fun _ h => h.1

theorem readStaged_goes (hmay : Serving may) (hstaged : (d.inode staged).isSome) :
    Goes (Faulty may) (fun _ d' => d' = d) False (readStaged staged) d := by
  obtain ⟨i, hi⟩ := Option.isSome_iff_exists.mp hstaged
  obtain ⟨f, hf⟩ := Disk.exists_file hi
  refine Fallible.Alone.mapped fun answer d₁ hopen => ⟨trivial, ?_⟩
  rcases hopen with ⟨rfl, rfl⟩ | ⟨h, -⟩
  · rw [hi]
    refine io_goes (Fallible.Alone.ask fun answer d₂ hread => ⟨trivial, ?_⟩)
    rcases hread with ⟨rfl, rfl⟩ | ⟨h, -⟩
    · rw [hf]
      rfl
    · obtain ⟨s, t, h⟩ := hmay _ h
      cases h
  · obtain ⟨s, t, h⟩ := hmay _ h
    cases h

theorem putStaged_goes (hmay : Serving may) (hstaged : (c.1.inode staged).isSome) :
    Goes ((Faulty may).beside (Keyspace.Answers provider)) (fun _ _ => True) False
      (putStaged oid staged) c := by
  refine Fallible.Alone.bind ((beside_goes found_goes).mono ?_ fun _ h => h)
  rintro held c₁ ⟨-, hsame⟩
  cases held with
  | true => exact Fallible.Alone.pure trivial
  | false =>
      rw [← hsame] at hstaged
      refine Fallible.Alone.bind ((Fallible.Alone.first (readStaged_goes hmay hstaged)).mono ?_
        fun _ h => h.1)
      rintro bytes c₂ -
      exact (beside_goes put_goes).mono (fun _ _ _ => trivial) fun _ h => h

/-- **What was staged is published.** -/
theorem publish_goes (hmay : Serving may) (hstaged : (c.1.inode staged).isSome) :
    Goes ((Faulty may).beside (Keyspace.Answers provider)) (fun _ _ => True) False
      (publish ns oid staged) c := by
  obtain ⟨i, hi⟩ := Option.isSome_iff_exists.mp hstaged
  refine Fallible.Alone.bind ((beside_goes put_goes).mono ?_ fun _ h => h)
  rintro _ c₁ ⟨-, hsame⟩
  rw [← hsame] at hstaged hi
  have hstat : Goes (Faulty may) (fun _ d' => d' = c₁.1) False (io (metadata staged)) c₁.1 := by
    refine io_goes (Fallible.Alone.ask fun answer d₁ hstat => ⟨trivial, ?_⟩)
    obtain ⟨rfl, ⟨i', f, hi', -, rfl⟩ | ⟨hnone, -⟩ | ⟨h, -⟩⟩ := Faulty.metadata hstat
    · rfl
    · rw [hi] at hnone
      cases hnone
    · obtain ⟨s, t, h⟩ := hmay _ h
      cases h
  refine Fallible.Alone.bind ((Fallible.Alone.first hstat).mono ?_ fun _ h => h.1)
  rintro stored c₂ ⟨hsame, -⟩
  rw [← hsame] at hstaged
  refine Fallible.Alone.bind ((putStaged_goes hmay hstaged).mono ?_ fun _ h => h)
  rintro _ c₃ -
  refine Fallible.Alone.bind ((beside_goes put_goes).mono ?_ fun _ h => h)
  rintro _ c₄ -
  exact (beside_goes put_goes).mono (fun _ _ _ => trivial) fun _ h => h

theorem writeBucket_goes (hmay : Serving may) (total : crates.Total) (budget : Option Budget) :
    Goes ((Faulty may).beside (Keyspace.Answers provider))
      (fun n _ => n = (arriving chunks).length ∧ Taken sha256 oid size chunks ∧
        (chunks = [] ∨ Within store.maxObjectSize budget (arriving chunks).length))
      (¬ (Taken sha256 oid size chunks ∧ Fits store budget chunks))
      (writeBucket sha256 store ns oid size chunks budget) c := by
  refine Fallible.Alone.bind ((beside_goes found_goes).mono ?_ fun _ h => h.elim)
  rintro held c₁ -
  refine Fallible.Alone.bind ((Fallible.Alone.first (stage_goes hmay total)).mono ?_
    fun _ h => h.1)
  rintro staged c₂ ⟨hpassed, -⟩
  refine Fallible.Under.attempt ((publish_goes hmay hpassed.staged).mono ?_ fun _ h => h.elim)
  rintro _ c₃ -
  have hremoved : Goes (Faulty may) (fun _ _ => True) False
      ((removeFile staged.path).caught : Op (Except Refused Unit)) c₃.1 :=
    Fallible.Alone.caught fun _ _ _ => ⟨trivial, Fallible.Alone.pure trivial⟩
  refine Fallible.Alone.bind ((Fallible.Alone.first hremoved).mono ?_ fun _ h => h.1.elim)
  rintro _ c₄ -
  exact Fallible.Alone.pure ⟨hpassed.written, hpassed.taken, hpassed.within⟩

/-! ### What is published -/

section Published

variable {may : Files.Req Text → Prop} {exec : Semantics Keyspace.Req Keyspace.Resp Bucket}
  {f : Files.File}

theorem readStaged_yields (hstaged : d.find staged = some f) :
    Yields may (fun bytes d' => bytes = f.bytes ∧ d' = d) (readStaged staged) d := by
  refine Fallible.Alone.mapped fun answer d₁ hopen => ⟨trivial, ?_⟩
  obtain ⟨rfl, ⟨i, hi, rfl⟩ | ⟨-, rfl⟩ | ⟨-, rfl⟩⟩ := hopen.openFile
  · refine io_goes (Fallible.Alone.ask fun answer d₂ hread => ⟨trivial, ?_⟩)
    obtain ⟨rfl, ⟨g, hg, rfl⟩ | rfl⟩ := hread.readAll
    · rw [Disk.find, hi, Option.bind_some, hg] at hstaged
      cases hstaged
      exact ⟨rfl, rfl⟩
    · trivial
  · trivial
  · trivial

theorem putStaged_pushes (hstaged : c.1.find staged = some f) :
    (putStaged oid staged).Alone ((Faulty may).beside exec) (fun _ _ => True)
      (fun _ c' => (S3Store.pushContent oid f.bytes).Ran exec c.2 (.ok ()) c'.2)
      (fun _ => True) c := by
  refine Fallible.Alone.bind ((Fallible.Alone.ranSecond _ c).mono ?_ fun _ h => h)
  rintro held c₁ ⟨hfound, hsame⟩
  rw [← hsame] at hstaged
  cases held with
  | true => exact Fallible.Alone.pure (hfound.bind .refl)
  | false =>
      refine Fallible.Alone.bind ((Fallible.Alone.first (readStaged_yields hstaged)).mono ?_
        fun _ _ => trivial)
      rintro _ c₂ ⟨⟨rfl, -⟩, hbucket⟩
      refine (Fallible.Alone.ranSecond _ c₂).mono ?_ fun _ h => h
      rintro _ c₃ ⟨hput, -⟩
      rw [hbucket] at hput
      exact hfound.bind hput

/-- What is published of a staged file is its bytes, in the order of the source. -/
theorem publish_stores (hstaged : c.1.find staged = some f) :
    (publish ns oid staged).Alone ((Faulty may).beside exec) (fun _ _ => True)
      (fun _ c' => (S3Store.store ns oid f.bytes).Ran exec c.2 (.ok ()) c'.2)
      (fun _ => True) c := by
  refine Fallible.Alone.bind ((Fallible.Alone.ranSecond _ c).mono ?_ fun _ h => h)
  rintro _ c₁ ⟨hreference, hsame⟩
  rw [← hsame] at hstaged
  have hstat : Yields may (fun stored d' => stored.length = f.bytes.length ∧ d' = c₁.1)
      (io (metadata staged)) c₁.1 := by
    refine io_goes (Fallible.Alone.ask fun answer d₁ hstat => ⟨trivial, ?_⟩)
    obtain ⟨rfl, ⟨i, g, hi, hg, rfl⟩ | ⟨-, rfl⟩ | ⟨-, rfl⟩⟩ := hstat.metadata
    · rw [Disk.find, hi, Option.bind_some, hg] at hstaged
      cases hstaged
      exact ⟨rfl, rfl⟩
    · trivial
    · trivial
  refine Fallible.Alone.bind ((Fallible.Alone.first hstat).mono ?_ fun _ _ => trivial)
  rintro stored c₂ ⟨⟨hlength, hvolume⟩, hbucket⟩
  rw [← hvolume] at hstaged
  refine Fallible.Alone.bind ((putStaged_pushes hstaged).mono ?_ fun _ h => h)
  rintro _ c₃ hpushed
  refine Fallible.Alone.bind ((Fallible.Alone.ranSecond _ c₃).mono ?_ fun _ h => h)
  rintro _ c₄ ⟨hmarker, -⟩
  refine (Fallible.Alone.ranSecond _ c₄).mono ?_ fun _ h => h
  rintro _ c₅ ⟨hsize, -⟩
  rw [hbucket] at hpushed
  rw [hlength] at hsize
  exact hreference.bind (hpushed.bind (hmarker.bind hsize))

/-- **What a transfer does to the bucket is `Store.write` of what was received.** -/
theorem writeBucket_writes (budget : Option Budget) :
    (writeBucket sha256 store ns oid size chunks budget).Alone ((Faulty may).beside exec)
      (fun _ _ => True)
      (fun _ c' => ∃ salt bytes fresh,
        store.received sha256 salt oid size budget chunks = .ok bytes ∧
        (Store.write ns oid (.ok bytes)).Ran exec c.2 (.ok fresh) c'.2) (fun _ => True) c := by
  refine Fallible.Alone.bind ((Fallible.Alone.ranSecond _ c).mono ?_ fun _ h => h)
  rintro held c₁ ⟨hheld, -⟩
  refine Fallible.Alone.bind ((Fallible.Alone.first (stage_yields ns size)).mono ?_
    fun _ _ => trivial)
  rintro staged c₂ ⟨⟨salt, bytes, f, hreceived, hstaged, rfl⟩, hbucket⟩
  have hremoved : ∀ c₃ : Volume × Bucket,
      ((removeFile staged.path).caught : Op (Except Refused Unit)).first.Alone
        ((Faulty may).beside exec) (fun _ _ => True) (fun _ c₄ => c₄.2 = c₃.2)
        (fun _ => True) c₃ := by
    intro c₃
    have hunlinked : Yields may (fun _ _ => True)
        ((removeFile staged.path).caught : Op (Except Refused Unit)) c₃.1 :=
      Fallible.Alone.caught fun _ _ _ => ⟨trivial, Fallible.Alone.pure trivial⟩
    exact (Fallible.Alone.first hunlinked).mono (fun _ _ h => h.2) fun _ _ => trivial
  refine Fallible.Under.attempt ((publish_stores hstaged).mono ?_ ?_)
  · rintro _ c₃ hstored
    refine Fallible.Alone.bind ((hremoved c₃).mono ?_ fun _ h => h)
    rintro _ c₄ hsame
    rw [hbucket, ← hsame] at hstored
    refine Fallible.Alone.pure ⟨salt, f.bytes, !held, hreceived, hheld.bind ?_⟩
    exact Fallible.Ran.bind .refl (hstored.bind .refl)
  · rintro c₃ - e
    refine Fallible.Alone.bind ((hremoved c₃).mono ?_ fun _ h => h)
    rintro _ c₄ -
    exact Fallible.Alone.throw trivial

/-- What a transfer that succeeded has done to the bucket. -/
theorem writeBucket_ran {budget : Option Budget} {n : Nat} {c' : Volume × Bucket}
    (h : (writeBucket sha256 store ns oid size chunks budget).Ran ((Faulty may).beside exec) c
      (.ok n) c') :
    ∃ salt bytes fresh, store.received sha256 salt oid size budget chunks = .ok bytes ∧
      (Store.write ns oid (.ok bytes)).Ran exec c.2 (.ok fresh) c'.2 := by
  obtain ⟨-, hpost⟩ := Program.Under.alone (I := fun _ => True) (c := (_, c))
    (fun _ _ _ _ => trivial) (writeBucket_writes budget) trivial h
  exact hpost _ .refl

end Published

theorem exists_goes_bucket (hnew : ¬ c.2.Has (S3Store.markerKey ns oid)) :
    Goes ((Faulty may).beside (Keyspace.Answers provider)) (fun answer _ => answer = false) False
      (S3Store.exists' ns oid).second c := by
  refine (beside_goes found_goes).mono ?_ fun _ h => h
  rintro answer c₁ ⟨rfl, -⟩
  exact decide_eq_false hnew

end Bucket

theorem exists_goes (hmay : Serving may) (hnew : d.inode (objectPath ns oid) = none) :
    Goes (Faulty may) (fun answer _ => answer = false) False (exists' ns oid) d := by
  refine Fallible.Alone.caught fun answer d₁ hmetadata => ⟨trivial, ?_⟩
  obtain ⟨rfl, ⟨i, f, hi, -, -⟩ | ⟨-, rfl⟩ | ⟨h, -⟩⟩ := Faulty.metadata hmetadata
  · rw [hnew] at hi
    cases hi
  · exact Fallible.Alone.pure rfl
  · obtain ⟨s, t, h⟩ := hmay _ h
    cases h

/-- Two ways to split one body are admissible together. -/
theorem admissible_congr {chunks' : List (Except String Bytes)}
    (hcomplete : ∀ item ∈ chunks, item.isOk = true)
    (hcomplete' : ∀ item ∈ chunks', item.isOk = true)
    (hbody : arriving chunks' = arriving chunks) {ceiling : Option Nat} :
    Admissible sha256 ceiling quota used oid size chunks ↔
      Admissible sha256 ceiling quota used oid size chunks' := by
  constructor
  · rintro ⟨-, hdigest, hdeclared, hceiling, hquota⟩
    exact ⟨hcomplete', by rwa [hbody], by rwa [hbody], by rwa [hbody], by rwa [hbody]⟩
  · rintro ⟨-, hdigest, hdeclared, hceiling, hquota⟩
    rw [hbody] at hdigest hdeclared hceiling hquota
    exact ⟨hcomplete, hdigest, hdeclared, hceiling, hquota⟩

end Admission

/-- **An upload is admitted by one condition.**  Of an object the repository does not hold, with
storage that does not fail, an upload succeeds if and only if it is admissible, whatever the
chunks and the codec, and reports the length of the body; two ways to split one body are
admissible together. -/
theorem uploads_are_admitted {crates : Crates} (total : crates.Total) (sha256 : Bytes → Text)
    (store : LocalStore crates) (may : Files.Req Text → Prop) (hmay : Serving may)
    (provider : Provider) (ns : Namespace) (oid : Oid) (size quota : Option Nat) (used : Nat)
    (chunks : List (Except String Bytes)) (d d' : Volume) (b b' : Bucket)
    (answer : Except Error Nat) :
    (d.inode (objectPath ns oid) = none →
      Program.Steps (Faulty may)
        ((upload quota used (exists' ns oid) size
          (writeLocal sha256 store ns oid size chunks)).run, d) (.pure answer, d') →
      (answer.isOk = true ↔ Admissible sha256 store.maxObjectSize quota used oid size chunks) ∧
        ∀ n, answer = .ok n → n = (arriving chunks).length) ∧
    (¬ b.Has (S3Store.markerKey ns oid) →
      Program.Steps ((Faulty may).beside (Keyspace.Answers provider))
        ((upload quota used (S3Store.exists' ns oid).second size
          (writeBucket sha256 store ns oid size chunks)).run, (d, b)) (.pure answer, (d', b')) →
      (answer.isOk = true ↔ Admissible sha256 store.maxObjectSize quota used oid size chunks) ∧
        ∀ n, answer = .ok n → n = (arriving chunks).length) ∧
    ∀ chunks', (∀ item ∈ chunks, item.isOk = true) → (∀ item ∈ chunks', item.isOk = true) →
      arriving chunks' = arriving chunks →
      (Admissible sha256 store.maxObjectSize quota used oid size chunks ↔
        Admissible sha256 store.maxObjectSize quota used oid size chunks') := by
  refine ⟨fun hnew => upload_answers ?_, fun hnew => upload_answers ?_,
    fun chunks' hcomplete hcomplete' hbody => admissible_congr hcomplete hcomplete' hbody⟩
  · exact upload_goes (exists_goes hmay hnew) fun budget d => writeLocal_goes hmay total budget
  · exact upload_goes (exists_goes_bucket hnew) fun budget c => writeBucket_goes hmay total budget

/-! ## One byte -/

/-- A store that keeps objects as they are. -/
def keeping : LocalStore Crates.plain := ⟨none, none, none⟩

theorem total_plain : Crates.plain.Total := ⟨fun _ _ => rfl, fun _ _ _ _ => rfl⟩

/-- An upload of one byte to a volume, under a quota and with a figure for what is used. -/
def oneByteUpload (quota used : Nat) : Op Nat :=
  upload (some quota) used (exists' .acme Oid.zeros) none
    (writeLocal (fun _ => Oid.zeros.text) keeping .acme Oid.zeros none [.ok [0x78]])

/-- The same to a bucket. -/
def oneByteToBucket (quota used : Nat) : Both Nat :=
  upload (some quota) used (S3Store.exists' .acme Oid.zeros).second none
    (writeBucket (fun _ => Oid.zeros.text) keeping .acme Oid.zeros none [.ok [0x78]])

/-- Nothing is in the bucket. -/
def noObjects : Bucket := ⟨∅, 0⟩

/-- A volume and a bucket that answer every request. -/
def answersBoth : (r : Either (Files.Req Text) Keyspace.Req) → Volume × Bucket →
    Option (Either.Resp Files.Resp Keyspace.Resp r × (Volume × Bucket)) :=
  answering (fun r d => some (respond r d)) (Keyspace.plays .s3)

theorem answersBoth_some (may : Files.Req Text → Prop) :
    ∀ r c answered, answersBoth r c = some answered →
      (Faulty may).beside (Keyspace.Answers .s3) r c answered.1 answered.2 :=
  answering_beside (respond_some may) fun _ _ _ h => Keyspace.plays_answers h

/-- A run that wrote one byte. -/
theorem steps_of_advance {Req S : Type} {Resp : Req → Type} {exec : Semantics Req Resp S}
    {handle : (r : Req) → S → Option (Resp r × S)}
    (hexec : ∀ r s answered, handle r s = some answered → exec r s answered.1 answered.2)
    (op : Fallible Error Req Resp Nat) (s : S)
    (hrun : ((Program.advance handle 20 (op.run, s)).any fun c =>
      match c.1.result with
      | some (.ok 1) => true
      | _ => false) = true) :
    ∃ s', Program.Steps exec (op.run, s) (.pure (.ok 1), s') := by
  obtain ⟨⟨op', s'⟩, hadvance, hresult⟩ := (Option.any_eq_true _ _).mp hrun
  have hsteps := Program.advance_steps hexec hadvance
  simp only at hresult
  split at hresult
  · next h =>
    rw [Program.eq_pure_of_result h] at hsteps
    exact ⟨s', hsteps⟩
  · cases hresult

/-- **The largest quota is never exceeded.**  What is used and one byte more are over it, and the
upload succeeds. -/
theorem largest_quota_admits :
    (∃ d', Program.Steps (Faulty fun _ => False)
      ((oneByteUpload maxU64 maxU64).run, (Disk.empty : Volume)) (.pure (.ok 1), d')) ∧
      ¬ maxU64 + (arriving [.ok [0x78]]).length ≤ maxU64 :=
  ⟨steps_of_advance (respond_some fun _ => False) _ _ (by decide +kernel), by decide⟩

/-- One byte is admitted to the last place of a budget, on a volume and in a bucket, and as well
with an empty chunk before it. -/
theorem uploads_are_admitted_one :
    Admissible (fun _ => Oid.zeros.text) none (some 5) 4 Oid.zeros none [.ok [0x78]] ∧
      Admissible (fun _ => Oid.zeros.text) none (some 5) 4 Oid.zeros none [.ok [], .ok [0x78]] := by
  have h := fun d' b' => uploads_are_admitted total_plain (fun _ => Oid.zeros.text) keeping
    (fun _ => False) (fun _ h => h.elim) .s3 .acme Oid.zeros none (some 5) 4 [.ok [0x78]]
    Disk.empty d' noObjects b' (.ok 1)
  obtain ⟨d₁, hvolume⟩ := steps_of_advance (respond_some fun _ => False) (oneByteUpload 5 4)
    Disk.empty (by decide +kernel)
  obtain ⟨⟨d₂, b₂⟩, hbucket⟩ := steps_of_advance (answersBoth_some fun _ => False)
    (oneByteToBucket 5 4) (Disk.empty, noObjects) (by decide +kernel)
  have hadmissible := ((h d₁ noObjects).1 rfl hvolume).1.mp rfl
  have hadmissible' := ((h d₂ b₂).2.1 (by decide) hbucket).1.mp rfl
  exact ⟨hadmissible, ((h d₂ b₂).2.2 [.ok [], .ok [0x78]] (by simp [Except.isOk, Except.toBool])
    (by simp [Except.isOk, Except.toBool]) rfl).mp hadmissible'⟩

end Lfsx
