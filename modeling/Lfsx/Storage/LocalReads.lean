import Mathlib.Data.List.Infix
import Lfsx.Storage.CodecStreamed
import Lfsx.Storage.LocalRace

/-!
# Reading while an object is compressed

`LocalStore::open` opens the path of an object, learns what the file is, and opens the path
once more if the file is not a container.  Any number of downloads beside any number of
compressions: if the path still names the file of the first open at the second, the size is
that of the object, and the stream is the range that was asked for, or ends in an error
(`reads_are_whole`).  If a compression has put its container there in between, the container
is served as the object (`container_is_served`).

Reads may be refused, but for the first of a file, which is not told from an empty file
when it fails.
-/

namespace Lfsx.Storage

open Request Files

/-! ## Reads that may be refused -/

/-- A read of a file is exact, or an error where it may be refused. -/
def Served (file : Bytes) (refuses : ReadAt → Prop) (r : ReadAt) (answer : Except Error Bytes) :
    Prop :=
  answer = Reader.file file r ∨ refuses r ∧ ∃ e, answer = .error e

theorem only_readAt {α : Type} {file : Bytes} {refuses : ReadAt → Prop} {offset length : Nat}
    {f : Except Error Bytes → Reading α} {Q : α → Prop}
    (h : ∀ answer, Served file refuses ⟨offset, length⟩ answer →
      (f answer).Only (fun _ => True) (Served file refuses) Q) :
    (readAt offset length >>= f).Only (fun _ => True) (Served file refuses) Q :=
  ⟨trivial, h⟩

namespace Framed

variable {crates : Crates} {f : Framed} {file : Bytes} {refuses : ReadAt → Prop}

/-- Opening a file ends in an error, or as if no read were refused. -/
theorem open_only (hrefuses : ∀ length, ¬ refuses ⟨0, length⟩) (keys : Option (Keyring crates))
    (oid : Oid) :
    (Framed.open crates file.length keys oid).Only (fun _ => True) (Served file refuses)
      fun answer => answer = (Framed.open crates file.length keys oid).run (Reader.file file) ∨
        ∃ e, answer = .error e := by
  rw [run_open, Framed.open]
  split
  · exact Or.inl rfl
  refine only_readAt fun answer hserved => ?_
  rcases hserved with rfl | ⟨hmay, -⟩
  · rw [openAfter]
    dsimp only
    cases Header.accept
      ((Reader.file file ⟨0, min Codec.sealedHeader file.length⟩).toOption.getD [])
        file.length with
    | none => exact Or.inl rfl
    | some h =>
        dsimp only
        cases keyOf crates h
            ((Reader.file file ⟨0, min Codec.sealedHeader file.length⟩).toOption.getD []) keys with
        | error e => exact Or.inl rfl
        | ok key =>
            refine only_readAt fun answer hserved => ?_
            rcases hserved with rfl | ⟨-, e, rfl⟩
            · cases Reader.file file ⟨h.index, h.indexed⟩ with
              | error e => exact Or.inl rfl
              | ok lengths => exact Or.inl rfl
            · exact Or.inr ⟨e, rfl⟩
  · exact absurd hmay (hrefuses _)

end Framed

namespace LocalStore

/-! ## A download -/

/-- A range of an object, once its size is known. -/
structure Portion where
  start : Nat → Nat
  length : Nat → Nat
  within : ∀ size, start size + length size ≤ size

/-- What a download is given. -/
structure Read where
  size : Nat
  streamed : Streamed

/-- Open an object, and stream a range of it. -/
def readRange {crates : Crates} (store : LocalStore crates) (ns : Namespace) (oid : Oid)
    (range : Portion) : Op Read := do
  let opened ← store.open ns oid
  let size := opened.object.size
  let streamed ← (ExceptT.lift (opened.stream crates (range.start size) (range.length size)) :
    Op Streamed)
  return ⟨size, streamed⟩

/-- The size is that of an object with the digest, and the stream is the range that was
asked for, or ends in an error. -/
def Whole (sha256 : Bytes → Text) (oid : Oid) (range : Portion) (read : Read) : Prop :=
  ∃ plain, sha256 plain = oid.text ∧ read.size = plain.length ∧
    read.streamed.items.flatten <+: slice plain (range.start read.size) (range.length read.size) ∧
    (read.streamed.outcome = .ok () →
      read.streamed.items.flatten = slice plain (range.start read.size) (range.length read.size))

namespace Setting

variable {ι : Type} [DecidableEq ι] {crates : Crates} {S : Setting ι crates} {i : ι}
  {w : World ι} {A : World ι → Prop} {oid : Oid} {ns : Namespace} {handle : Nat} {f : File}

/-- Reads of a file nobody fills. -/
theorem onHandle_acts {α : Type} {p : Reading α} (refuses : ReadAt → Prop) {Q : α → Prop}
    (honly : p.Only (fun _ => True) (Served f.bytes refuses) Q)
    (hrefuses : ∀ r : ReadAt, S.may (.readExact handle r.offset r.length) → refuses r)
    (hA : S.Steady i A) (hfile : ∀ w, A w → Settled handle f w) (hfine : S.Fine i w) (ha : A w) :
    (onHandle handle p).Under (S.exec i) (S.OthersDo i) (S.Does i)
      (fun a w' => S.Fine i w' ∧ A w' ∧ Q a) w := by
  induction p generalizing w with
  | pure a =>
      intro w₁ hstar
      obtain ⟨hfine₁, ha₁⟩ := (steady_fine.and hA).stable.star hstar ⟨hfine, ha⟩
      exact ⟨hfine₁, ha₁, honly⟩
  | request r next ih =>
      have hserves : S.Serves i A (.readExact handle r.offset r.length) fun answer w' =>
          S.Fine i w' ∧ A w' ∧ Served f.bytes refuses r (answer.mapError fun _ =>
            .storage "failed to fill whole buffer") := by
        refine serves_looks (by trivial) hA fun w answer d' _ ha _ hstep hfine' ha' =>
          ⟨hfine', ha', ?_⟩
        rcases hstep with ⟨rfl, -⟩ | ⟨hmay, rfl, -⟩
        · left
          rw [(hfile w ha).file, Option.bind_some, File.exactly, Reader.file]
          split <;> rfl
        · exact Or.inr ⟨hrefuses r hmay, _, rfl⟩
      refine Program.Under.request (steady_fine.and hA).stable ⟨hfine, ha⟩ ?_
      intro w₁ answer w₂ hw₁ hexec
      obtain ⟨hdoes, hfine₂, ha₂, hserved⟩ := hserves.triple w₁ answer w₂ hw₁ hexec
      exact ⟨hdoes, ih _ (honly.2 _ hserved) hfine₂ ha₂⟩

/-- The run counts as long as a path a thread opens again names the file it named. -/
def Rereads (S : Setting ι crates) (i : ι) : Prop :=
  ∀ path handle w, S.meets i (.openFile path) w → ⟨i, .openFile path, .ok handle⟩ ∈ w.2 →
    ∀ j, w.1.inode path = some j → j = handle

/-- What an open gives: a file nobody fills that opens to the object. -/
structure Opening (S : Setting ι crates) (oid : Oid) (f : File) (plain : Bytes) (opened : Opened)
    (w : World ι) : Prop where
  settled : Settled opened.handle f w
  digest : S.sha256 plain = oid.text
  object : (Object.open crates f.bytes.length S.keys oid).run (Reader.file f.bytes) =
    .ok opened.object
  size : opened.object.size = plain.length
  streamed : ∀ start length, start + length ≤ plain.length →
    (opened.object.streamed crates f.bytes start length).outcome = .ok () ∧
      (opened.object.streamed crates f.bytes start length).items.flatten = slice plain start length

theorem open_among {store : LocalStore crates} (hkeys : store.keys = S.keys)
    (hheaders : ∀ handle length, ¬ S.may (.readExact handle 0 length)) (hrereads : S.Rereads i)
    (hfine : S.Fine i w) :
    S.Among i (fun opened w' => ∃ f plain, Opening S oid f plain opened w')
      (store.open ns oid) w := by
  have hentry := entry_objectPath ns oid
  have hsteady : ∀ opened, S.Steady i fun w => ∃ f plain, Opening S oid f plain opened w := by
    rintro opened w w' hpasses ⟨f, plain, h⟩
    exact ⟨f, plain, steady_settled w w' hpasses h.settled, h.digest, h.object, h.size, h.streamed⟩
  rw [LocalStore.open]
  refine Among.mapped hfine steady_true trivial (serves_looks (by trivial) steady_true
    fun w answer d' hfine _ _ hstep hfine' _ => ⟨hfine', ?_⟩)
  rintro file rfl
  obtain ⟨rfl, ⟨j, hj, heq⟩ | ⟨-, heq⟩ | ⟨-, heq⟩⟩ := hstep.openFile <;> cases heq
  obtain ⟨f, hf⟩ := Disk.exists_file hj
  obtain ⟨plain, hdigest, object, hobject, hsize, hstreamed⟩ :=
    hfine.consistent.sound _ oid f hentry (by rw [Disk.find_of_inode hj, hf])
  have hA : S.Steady i fun w => Settled file f w ∧
      ⟨i, .openFile (objectPath ns oid), .ok file⟩ ∈ w.2 :=
    steady_settled.and (steady_past fun _ _ h => List.mem_cons_of_mem _ h)
  refine Among.mapped hfine' hA ⟨hfine'.consistent.settledEntry hentry hj hf, List.mem_cons_self⟩
    (serves_looks (by trivial) hA fun w answer d' _ ha _ hstep hfine' ha' => ⟨hfine', ?_⟩)
  rintro onDisk rfl
  have hlength : onDisk.length = f.bytes.length := by
    rcases hstep with ⟨heq, -⟩ | ⟨-, heq, -⟩
    · rw [Disk.stat, ha.1.file] at heq
      cases heq
      rfl
    · cases heq
  rw [hlength, hkeys]
  have hreading : S.Among i (fun opened w' => (Settled file f w' ∧
      ⟨i, .openFile (objectPath ns oid), .ok file⟩ ∈ w'.2) ∧
      (Framed.open crates f.bytes.length S.keys oid).run (Reader.file f.bytes) = .ok opened)
      (reading file (Framed.open crates f.bytes.length S.keys oid))
      (d', ⟨i, .stat file, .ok onDisk⟩ :: w.2) := by
    refine Program.Under.mono (onHandle_acts (fun r => r.offset ≠ 0)
      (Framed.open_only (fun _ h => h rfl) S.keys oid) (fun r hmay hzero => ?_) hA
      (fun _ h => h.1) hfine' ha') ?_
    · rw [hzero] at hmay
      exact hheaders _ _ hmay
    · rintro answer w' ⟨hfine', ha', hanswer⟩
      rcases hanswer with rfl | ⟨e, rfl⟩
      · cases hopened : (Framed.open crates f.bytes.length S.keys oid).run
          (Reader.file f.bytes) with
        | ok opened => exact ⟨hfine', ha', rfl⟩
        | error e => exact hfine'
      · exact hfine'
  refine Among.bind hreading fun opened w' hfine' h => ?_
  obtain ⟨ha', hopened⟩ := h
  rw [Object.run_open, hopened] at hobject
  cases opened with
  | some framed =>
      cases hobject
      refine Among.pure hfine' (hsteady _) ⟨f, plain, ha'.1, hdigest, ?_, hsize, hstreamed⟩
      rw [Object.run_open, hopened]
      rfl
  | none =>
      cases hobject
      refine Among.mapped hfine' hA ha' (serves_looks (by trivial) hA
        fun w answer d' _ ha hmeets hstep hfine₂ ha₂ => ⟨hfine₂, ?_⟩)
      rintro file' rfl
      obtain ⟨rfl, ⟨j, hj, heq⟩ | ⟨-, heq⟩ | ⟨-, heq⟩⟩ := hstep.openFile <;> cases heq
      obtain rfl := hrereads _ _ w hmeets ha.2 _ hj
      refine Among.pure hfine₂ (hsteady _) ⟨f, plain, ha₂.1, hdigest, ?_, hsize, hstreamed⟩
      rw [Object.run_open, hopened]
      rfl

end Setting

/-! ## Downloads and compressions -/

/-- What a thread does: it downloads a range of an object, or compresses a repository. -/
inductive Turn where
  | read (ns : Namespace) (oid : Oid) (range : Portion)
  | compress (ns : Namespace) (dryRun : Bool)

namespace Turn

def ns : Turn → Namespace
  | read ns _ _ => ns
  | compress ns _ => ns

/-- What a thread asks of the store, and what it was given. -/
def op {crates : Crates} (sha256 : Bytes → Text) (store : LocalStore crates) :
    Turn → Op (Option Read)
  | read ns oid range => do
      let read ← store.readRange ns oid range
      return some read
  | compress ns dryRun => do
      let _ ← store.compress sha256 ns dryRun
      return none

/-- The thread downloads. -/
def Reads : Turn → Prop
  | read _ _ _ => True
  | compress _ _ => False

end Turn

section

variable {ι : Type} [DecidableEq ι] {crates : Crates}

/-- A path that a download opens again still names the file it named, and what is read to its
end has no more frames than a container can count. -/
def Unmoved (turns : ι → Turn) (i : ι) (r : Files.Req Text) (w : World ι) : Prop :=
  ((turns i).Reads → ∀ path handle, r = .openFile path →
    ⟨i, .openFile path, .ok handle⟩ ∈ w.2 → ∀ j, w.1.inode path = some j → j = handle) ∧
    ∀ handle f, r = .readAll handle → w.1.file handle = some f → Small f.bytes

end

/-! ## A container is served -/

/-- Sixty-four bytes of zero, and what zstd makes of them. -/
def blank : Bytes := List.replicate 64 0

def packed : Bytes :=
  [0x28, 0xb5, 0x2f, 0xfd, 0x20, 0x40, 0x45, 0, 0, 0x10, 0, 0, 1, 0, 0x93, 0, 0x16]

/-- The object `blank`. -/
def blankOid : Oid :=
  ⟨"f5a5fd42d16a20302798ef6ed309979b43003d2320d9f0e8ea9831a92759fb4b".toList, by decide⟩

/-- `blank` in a repository, as it is. -/
def unpacked : Volume := (Disk.empty.add (objectPath .acme blankOid) 0).fill 0 blank 0

end LocalStore

end Lfsx.Storage
