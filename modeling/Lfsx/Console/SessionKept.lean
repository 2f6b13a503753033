import Lfsx.Console.SessionVolume

/-!
# Replicas agree on the session key

In a bucket a key is put if there is none, and nobody takes it away, so what was read once is
what is there (`InBucket`).  On a volume the invariant is `Agreed`.  Either way a replica that
returns a key returns the one the store holds, and so do all that return one
(`session_key_agrees`).
-/

namespace Lfsx.Console.Session

open Request
open Meta (MetaError Backend Op Req Resp Process Deployment Cluster keyOf)

/-! ## In a bucket -/

section

variable {ι : Type} {process : ι → Process} {i : ι} {r : Req} {answer : Resp r}
  {w : Cluster × Past ι} {w' : Cluster}

/-- The key is one, and it is what was read. -/
structure InBucket (w : Cluster × Past ι) : Prop where
  key : ∀ item, w.1.store.bucket.items (keyOf keyName) = some item → item.value.length = keyLength
  read : ∀ i item, ⟨i, .bucket (.get (keyOf keyName)), .ok (some item)⟩ ∈ w.2 →
    w.1.store.bucket.items (keyOf keyName) = some item

/-- What a replica asks of a bucket. -/
def AsksBucket : Req → Prop
  | .bucket (.get key) => key = keyOf keyName
  | .bucket (.putIfAbsent key value) => key = keyOf keyName ∧ value.length = keyLength
  | .disk (.random _) => True
  | _ => False

theorem InBucket.step (hw : InBucket w) (hasks : AsksBucket r)
    (hstep : Deployment.bucket.serves process i r w.1 answer w') :
    InBucket (w', ⟨i, r, answer⟩ :: w.2) := by
  -- The key is what it was, or it was put just now.
  have hkey : w'.store.bucket.items (keyOf keyName) = w.1.store.bucket.items (keyOf keyName) ∨
      w.1.store.bucket.items (keyOf keyName) = none ∧ ∃ item,
        w'.store.bucket.items (keyOf keyName) = some item ∧ item.value.length = keyLength := by
    obtain ⟨hserved, -⟩ := hstep
    cases r with
    | disk r =>
        obtain ⟨d, hd, -⟩ := hserved
        exact Or.inl (by rw [hd])
    | bucket r =>
        obtain ⟨b, hb, hshelf⟩ := hserved
        rw [hb]
        cases r with
        | get key =>
            rcases hshelf with ⟨-, rfl⟩ | ⟨-, rfl | ⟨_, -, rfl⟩⟩
            · exact Or.inl rfl
            · exact Or.inl rfl
            · exact Or.inl rfl
        | putIfAbsent key value =>
            obtain ⟨rfl, hlength⟩ := hasks
            rcases hshelf.fills with hsame | ⟨hnone, version, hitem⟩
            · exact Or.inl hsame
            · exact Or.inr ⟨hnone, _, hitem, hlength⟩
        | deleteIf key version => cases hasks
        | keys under => cases hasks
    | staged => cases hasks
    | put key bytes => cases hasks
    | delete key => cases hasks
  constructor
  case key =>
    intro item hitem
    rcases hkey with hsame | ⟨-, item', hitem', hlength⟩
    · exact hw.key item (hsame ▸ hitem)
    · rw [hitem', Option.some.injEq] at hitem
      exact hitem ▸ hlength
  case read =>
    intro j item hmem
    rcases List.mem_cons.mp hmem with heq | hold
    · cases heq
      obtain ⟨⟨b, hb, hshelf⟩, -⟩ := hstep
      rw [hb]
      rcases hshelf with ⟨hanswer, rfl⟩ | ⟨⟨e, he⟩, -⟩
      · exact (Except.ok.inj hanswer).symm
      · cases he
    · have hread := hw.read j item hold
      rcases hkey with hsame | ⟨hnone, -⟩
      · exact hsame.trans hread
      · rw [hnone] at hread
        cases hread

variable (process) in
def inBucket : Ledger ι Req Resp Cluster (Event ι Req Resp) where
  exec := Deployment.bucket.serves process
  entry i r _ answer := ⟨i, r, answer⟩
  Allowed _ _ := AsksBucket
  Sound := InBucket
  step hw hallowed hexec := hw.step hallowed hexec

/-- A thread has read a key. -/
def HasRead (i : ι) (key : Bytes) (past : Past ι) : Prop :=
  ∃ item, ⟨i, .bucket (.get (keyOf keyName)), .ok (some item)⟩ ∈ past ∧ item.value = key

theorem lasting_read (i : ι) (key : Bytes) : Lasting (HasRead i key) :=
  fun _ _ ⟨item, hmem, hkey⟩ => ⟨item, List.mem_cons_of_mem _ hmem, hkey⟩

theorem lasting_found (i : ι) (found : Option Bytes) :
    Lasting fun past : Past ι => ∀ key, found = some key → HasRead i key past :=
  fun e past h key hfound => lasting_read i key e past (h key hfound)

theorem readBucket_among (hw : InBucket w) :
    (inBucket process).Among i (fun found past => ∀ key, found = some key → HasRead i key past)
      (Backend.bucket.readMeta keyName) w := by
  have hlasting : ∀ item : Option (Shelves.Item Bytes Text), Lasting fun past : Past ι => True ∧
      ∃ _ : Cluster, ⟨i, .bucket (.get (keyOf keyName)), .ok item⟩ ∈ past :=
    fun item => Lasting.always.and (.any fun _ => .mem _)
  refine Ledger.Among.bind (Ledger.Among.mapError (fun item => .of_lasting (hlasting item))
    (Ledger.Among.ask .always (fun _ _ => rfl) hw trivial)) fun item w hw hread => ?_
  refine Ledger.Among.pure (.of_lasting (lasting_found i _)) hw fun key hkey => ?_
  obtain ⟨-, -, hmem⟩ := hread
  obtain ⟨held, rfl, rfl⟩ := Option.map_eq_some_iff.mp hkey
  exact ⟨held, hmem, rfl⟩

theorem valid_bucket {key : Bytes} (hw : InBucket w) (hread : HasRead i key w.2) :
    (inBucket process).Among i (fun key past => HasRead i key past ∧ key.length = keyLength)
      (valid key) w := by
  rw [valid]
  split
  case isTrue hlength =>
    exact Ledger.Among.pure (.of_lasting ((lasting_read i key).and .const)) hw ⟨hread, hlength⟩
  case isFalse => exact Ledger.Among.throw hw

theorem createBucket_among {key : Bytes} (hlength : key.length = keyLength) (hw : InBucket w) :
    (inBucket process).Among i (fun _ _ => True) (Backend.bucket.createMeta keyName key) w := by
  refine Ledger.Among.bind (P := fun _ _ => True) (Ledger.Among.mapError
    (fun _ => .of_lasting .always) (Ledger.Among.mono (Ledger.Among.ask .always
      (fun _ _ => ⟨rfl, hlength⟩) hw trivial) fun _ _ _ => trivial)) fun version w hw _ => ?_
  exact Ledger.Among.pure (.of_lasting .always) hw trivial

theorem keptBucket_among (hw : InBucket w) :
    (inBucket process).Among i (fun key past => HasRead i key past ∧ key.length = keyLength)
      (keptKey .bucket) w := by
  refine Ledger.Among.bind (readBucket_among hw) fun found w hw hfound => ?_
  cases found with
  | some key => exact valid_bucket hw (hfound key rfl)
  | none =>
      refine Ledger.Among.bind (Ledger.Among.certain .always (fun _ _ => trivial) hw trivial)
        fun fresh w hw _ => ?_
      refine Ledger.Among.bind (createBucket_among fresh.2 hw) fun _ w hw _ => ?_
      refine Ledger.Among.bind (readBucket_among hw) fun found w hw hfound => ?_
      cases found with
      | some key => exact valid_bucket hw (hfound key rfl)
      | none => exact Ledger.Among.throw hw

end

/-! ## Agreement -/

section

variable {ι : Type} [DecidableEq ι] {deployment : Deployment} {process : ι → Process} {w : Cluster}
  {pool : Pool ι Req Resp (Except MetaError Bytes) Cluster} {i : ι} {key : Bytes}

/-- What is found is in order. -/
theorem agreed_start (hfound : Found .volume w) : Agreed process (w, []) where
  tidy := {
    key := fun f hf => hfound.key f.bytes (by
      show (w.store.disk.find keyPath).map Files.File.bytes = some f.bytes
      rw [hf]
      rfl)
    staged := hfound.staged rfl }
  kept := {
    begun := fun i hidle => absurd rfl hidle
    drawn := fun i n hn => by cases hn
    distinct := fun i j n hsame hn => by cases hn
    working := fun i hgoing => trivial }
  told i := trivial

omit [DecidableEq ι] in
theorem inBucket_start (hfound : Found .bucket w) :
    InBucket ((w, []) : Cluster × Past ι) where
  key item hitem := hfound.key item.value (by
    show (w.store.bucket.items (keyOf keyName)).map Shelves.Item.value = some item.value
    rw [hitem]
    rfl)
  read i item hmem := by cases hmem

/-- **A key that was returned** is one, and the store holds it. -/
theorem returned_holds (hfound : Found deployment w)
    (hsteps : Pool.Steps (deployment.serves process) (start deployment process w) pool)
    (hi : pool.progs i = .pure (.ok key)) :
    key.length = keyLength ∧
      deployment.holds keyName pool.state = some key := by
  cases deployment with
  | volume =>
      obtain ⟨past, hentered⟩ := Ledger.entered (L := onVolume process) [] hsteps
      obtain ⟨hsound, hreturned⟩ := Ledger.reached (L := onVolume process) (agreed_start hfound)
        (fun i => keptKey_among (agreed_start hfound)) hentered
      obtain ⟨hread, hlength⟩ := hreturned i key hi
      have htold := hsound.told i
      rw [hread] at htold
      obtain ⟨f, hf, rfl⟩ := htold
      refine ⟨hlength, ?_⟩
      show (pool.state.store.disk.find keyPath).map Files.File.bytes = some f.bytes
      rw [hf]
      rfl
  | bucket =>
      obtain ⟨past, hentered⟩ := Ledger.entered (L := inBucket process) [] hsteps
      obtain ⟨hsound, hreturned⟩ := Ledger.reached (L := inBucket process) (inBucket_start hfound)
        (fun i => keptBucket_among (inBucket_start hfound)) hentered
      obtain ⟨⟨item, hmem, rfl⟩, hlength⟩ := hreturned i key hi
      refine ⟨hlength, ?_⟩
      show (pool.state.store.bucket.items (keyOf keyName)).map Shelves.Item.value = some item.value
      rw [hsound.read i item hmem]
      rfl

/-- **Replicas agree on the session key.**  A key that is returned is 32 bytes, the store
holds it from then on, and every other that is returned is the same. -/
theorem session_key_agrees (hfound : Found deployment w)
    (hsteps : Pool.Steps (deployment.serves process) (start deployment process w) pool)
    (hi : pool.progs i = .pure (.ok key)) :
    key.length = keyLength ∧
      (∀ pool', Pool.Steps (deployment.serves process) pool pool' →
        deployment.holds keyName pool'.state = some key) ∧
      ∀ j key', pool.progs j = .pure (.ok key') → key' = key := by
  obtain ⟨hlength, hholds⟩ := returned_holds hfound hsteps hi
  refine ⟨hlength, fun pool' hlater => ?_, fun j key' hj => ?_⟩
  · exact (returned_holds hfound (hsteps.trans hlater) (hlater.returned hi)).2
  · obtain ⟨-, hholds'⟩ := returned_holds hfound hsteps hj
    exact Option.some.inj (hholds'.symm.trans hholds)

end

/-! ### A server and the one after it -/

/-- Two servers of one volume, both number 1. -/
def oneAfterAnother (i : Bool) : Process := if i then ⟨1, 1⟩ else ⟨1, 0⟩

/-- A volume that refuses nothing. -/
def answering (i : Bool) (r : Req) (w : Cluster) : Option (Resp r × Cluster) :=
  if w.lives (oneAfterAnother i).number ≤ (oneAfterAnother i).life then
    (Meta.respond oneAfterAnother i r w.store).map fun answered =>
      (answered.1, ⟨answered.2,
        Function.update w.lives (oneAfterAnother i).number (oneAfterAnother i).life⟩)
  else none

theorem answering_serves (i : Bool) (r : Req) (w : Cluster) (answered : Resp r × Cluster)
    (h : answering i r w = some answered) :
    Deployment.volume.serves oneAfterAnother i r w answered.1 answered.2 := by
  rw [answering] at h
  split at h
  case isFalse => cases h
  case isTrue hle =>
    obtain ⟨given, hgiven, rfl⟩ := Option.map_eq_some_iff.mp h
    exact ⟨Meta.respond_serves _ i r w.store given hgiven, hle, rfl⟩

/-- An empty volume. -/
def blank : Cluster := ⟨⟨fun _ => 0, .empty, .empty⟩, fun _ => 0⟩

theorem found_blank : Found .volume blank where
  key key h := by cases h
  staged _ number n path file h := by cases h

/-- The first server dies once its key is linked, and the second, which stages under the same
name, finds that key. -/
theorem session_key_agrees_after :
    ∃ pool : Pool Bool Req Resp (Except MetaError Bytes) Cluster,
      Pool.Steps (Deployment.volume.serves oneAfterAnother)
        (start .volume oneAfterAnother blank) pool ∧
      pool.progs true = .pure (.ok (List.replicate 32 0)) ∧
      (List.replicate 32 0 : Bytes).length = keyLength := by
  have hplayed : ((start .volume oneAfterAnother blank).play answering
      [false, false, false, false, false, false, false, true, true]).any
      (fun pool => (pool.progs true).result = some (.ok (List.replicate 32 0))) = true := by
    decide +kernel
  obtain ⟨pool, hplay, hresult⟩ := (Option.any_eq_true _ _).mp hplayed
  have hsteps := Pool.play_steps answering_serves hplay
  have hdone := Program.eq_pure_of_result (of_decide_eq_true hresult)
  exact ⟨pool, hsteps, hdone, (session_key_agrees found_blank hsteps hdone).1⟩

end Lfsx.Console.Session
