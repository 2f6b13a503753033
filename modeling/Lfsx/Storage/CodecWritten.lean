import Mathlib.Data.Nat.Bitwise
import Lfsx.Storage.Codec

/-!
# What a writer writes

`Writer.write` builds a container chunk by chunk, and where the chunks end must
not matter.  `Writer.write_eq` says that it does not: the file is the
`Piece.container` of the pieces of the plaintext's frames, each encoded on its
own, and only the last one with the last-frame flag.

Each step has its own lemma.  A flush appends one encoded piece
(`Writer.flush_eq`), the loop of a push flushes what `cut` takes off the pending
bytes (`Writer.drain_eq`), and a sequence of pushes flushes what `cut` takes off
their concatenation (`Writer.pushes_eq`).
-/

namespace Lfsx.Storage

open Codec

/-! ## Pieces -/

/-- A frame as it stands in a container. -/
structure Piece where
  body : Bytes
  isStored : Bool
deriving DecidableEq

namespace Piece

/-- The index word of a piece. -/
def word (p : Piece) : Nat := Writer.word p.body p.isStored

/-- The bodies of the pieces, one after the other. -/
def bodies (ps : List Piece) : Bytes := ps.flatMap Piece.body

/-- The index of the pieces. -/
def index (ps : List Piece) : Bytes := ps.flatMap fun p => leBytes 4 p.word

@[simp] theorem bodies_nil : bodies [] = [] := rfl

@[simp] theorem bodies_cons (p : Piece) (ps : List Piece) :
    bodies (p :: ps) = p.body ++ bodies ps := rfl

@[simp] theorem index_nil : index [] = [] := rfl

@[simp] theorem index_cons (p : Piece) (ps : List Piece) :
    index (p :: ps) = leBytes 4 p.word ++ index ps := rfl

@[simp] theorem length_index (ps : List Piece) : (index ps).length = 4 * ps.length := by
  induction ps with
  | nil => rfl
  | cons p ps ih =>
      rw [index_cons, List.length_append, length_leBytes, ih, List.length_cons]
      omega

/-- The version of a container. -/
def versionOf (key : Option ObjectKey) : UInt8 := if key.isSome then vSealed else vPlain

/-- The part of a header a sealed container has and a plain one has not. -/
def sealing : Option ObjectKey → Bytes
  | some key => key.id.val ++ key.salt.val ++ List.replicate 12 0
  | none => []

/-- The fields every header has. -/
def fixedHeader (version : UInt8) (plaintext frameSize frames index : Nat) : Bytes :=
  magic ++ [version, 0, 0, 0] ++ leBytes 8 plaintext ++ leBytes 4 frameSize
    ++ leBytes 4 frames ++ leBytes 8 index

/-- Where the index of a container starts. -/
def indexAt (key : Option ObjectKey) (ps : List Piece) : Nat :=
  headerLen (versionOf key) + (ps.map fun p => lengthOf p.word).sum

/-- The container of some pieces. -/
def container (key : Option ObjectKey) (plaintext : Nat) (ps : List Piece) : Bytes :=
  fixedHeader (versionOf key) plaintext frame ps.length (indexAt key ps) ++ sealing key
    ++ bodies ps ++ index ps

/-! ### Words -/

theorem testBit_high {n : Nat} (h : n < 2 ^ 31) : n.testBit 31 = false :=
  Nat.testBit_lt_two_pow h

theorem word_of_lt {p : Piece} (h : p.body.length < 2 ^ 31) :
    p.word = p.body.length ||| (if p.isStored then stored else 0) := by
  rw [word, Writer.word, Nat.mod_eq_of_lt (by omega)]

@[simp] theorem lengthOf_word {p : Piece} (h : p.body.length < 2 ^ 31) :
    lengthOf p.word = p.body.length := by
  rw [word_of_lt h, lengthOf, Nat.and_two_pow_sub_one_eq_mod, Nat.or_mod_two_pow,
    Nat.mod_eq_of_lt h]
  cases p.isStored with
  | false => simp
  | true => simp [stored]

@[simp] theorem isStored_word {p : Piece} (h : p.body.length < 2 ^ 31) :
    Codec.isStored p.word = p.isStored := by
  rw [word_of_lt h, Codec.isStored, stored]
  cases hs : p.isStored with
  | false => rw [if_neg (by simp), Nat.or_zero, Nat.and_two_pow, testBit_high h]; rfl
  | true =>
      rw [if_pos rfl, Nat.and_two_pow, Nat.testBit_or, testBit_high h, Nat.testBit_two_pow_self]
      rfl

theorem word_lt {p : Piece} (h : p.body.length < 2 ^ 31) : p.word < 2 ^ 32 := by
  rw [word_of_lt h]
  apply Nat.or_lt_two_pow (by omega)
  cases p.isStored with
  | false => simp
  | true => simp [stored]

end Piece

namespace Writer

variable (crates : Crates)

/-! ## One frame -/

/-- What `flush` makes of one frame. -/
def encode (level : Option Int) (key : Option ObjectKey) (oid : Oid) (index : Nat) (last : Bool)
    (plain : Bytes) : Except Error Piece := do
  let (body, isStored) ← squeeze crates level plain
  let body ← match key with
    | some key => key.sealFrame crates index last oid body
    | none => .ok body
  return ⟨body, isStored⟩

/-- What the flushes make of all the frames: only the last one is sealed as the last. -/
def encodeFrom (level : Option Int) (key : Option ObjectKey) (oid : Oid) :
    (index : Nat) → List Bytes → Except Error (List Piece)
  | _, [] => .ok []
  | index, plain :: rest => do
      let p ← encode crates level key oid index rest.isEmpty plain
      let ps ← encodeFrom level key oid (index + 1) rest
      return p :: ps

variable {crates}

theorem flush_eq (w : Writer) (plain : Bytes) (last : Bool) :
    w.flush crates plain last =
      (encode crates w.level w.key w.oid w.lengths.length last plain).map fun p =>
        { w with file := w.file ++ p.body, lengths := w.lengths ++ [p.word] } := by
  unfold flush Writing.flush encode
  cases squeeze crates w.level plain with
  | error e => rfl
  | ok squeezed =>
      obtain ⟨body, isStored⟩ := squeezed
      cases hkey : w.key with
      | none =>
          simp [MonadExcept.ofExcept, Except.map, bind, Except.bind, pure, Except.pure, Piece.word]
      | some key =>
          cases hseal : key.sealFrame crates w.lengths.length last w.oid body with
          | error e =>
              rw [ObjectKey.sealFrame] at hseal
              simp [MonadExcept.ofExcept, Except.map, bind, Except.bind, pure, Except.pure,
                ObjectKey.sealFrame, hseal]
          | ok sealed =>
              rw [ObjectKey.sealFrame] at hseal
              simp [MonadExcept.ofExcept, Except.map, bind, Except.bind, pure, Except.pure,
                ObjectKey.sealFrame, Piece.word, hseal]

/-- The two fields a flush neither reads nor changes. -/
def holding (w : Writer) (plaintext : Nat) (pending : Bytes) : Writer :=
  { w with plaintext := plaintext, pending := pending }

@[simp] theorem holding_pending (w : Writer) (n : Nat) (p : Bytes) :
    (w.holding n p).pending = p := rfl

@[simp] theorem holding_plaintext (w : Writer) (n : Nat) (p : Bytes) :
    (w.holding n p).plaintext = n := rfl

theorem flush_holding (w : Writer) (n : Nat) (p plain : Bytes) (last : Bool) :
    (w.holding n p).flush crates plain last =
      (w.flush crates plain last).map fun w' => w'.holding n p := by
  rw [flush_eq, flush_eq]
  simp only [holding]
  cases encode crates w.level w.key w.oid w.lengths.length last plain with
  | error e => rfl
  | ok p => rfl

/-! ## The loop of a push -/

variable (crates) in
/-- Flush frames that are not the last. -/
def flushes (w : Writer) (frames : List Bytes) : Except Error Writer :=
  frames.foldlM (fun w plain => w.flush crates plain false) w

theorem flushes_nil (w : Writer) : w.flushes crates [] = .ok w := rfl

theorem flushes_cons (w : Writer) (plain : Bytes) (rest : List Bytes) :
    w.flushes crates (plain :: rest) =
      (w.flush crates plain false).bind fun w' => w'.flushes crates rest := rfl

theorem flushes_append (w : Writer) (fs gs : List Bytes) :
    w.flushes crates (fs ++ gs) = (w.flushes crates fs).bind fun w' => w'.flushes crates gs := by
  rw [flushes, List.foldlM_append]
  rfl

theorem flushes_holding (w : Writer) (n : Nat) (p : Bytes) (frames : List Bytes) :
    (w.holding n p).flushes crates frames =
      (w.flushes crates frames).map fun w' => w'.holding n p := by
  induction frames generalizing w with
  | nil => rfl
  | cons plain rest ih =>
      rw [flushes_cons, flushes_cons, flush_holding]
      cases w.flush crates plain false with
      | error e => rfl
      | ok w' => exact ih w'

theorem drain_eq (w : Writer) :
    Writing.drain (flush crates) w =
      (w.flushes crates (cut frame w.pending).1).map fun w' =>
        w'.holding w.plaintext (cut frame w.pending).2 := by
  generalize hp : w.pending = pending
  induction pending using cut.induct frame generalizing w with
  | case1 pending h ih =>
      rw [Writing.drain, if_pos (by rw [hp]; exact h.2), cut_of_lt h.1 h.2, flushes_cons, hp]
      have hw : w.holding w.plaintext w.pending = w := rfl
      rw [← hw, flush_holding]
      cases w.flush crates (pending.take frame) false with
      | error e => rfl
      | ok w' =>
          simp only [Except.map, bind, Except.bind, hw, flushes_holding]
          rw [ih { w'.holding w.plaintext w.pending with pending := pending.drop frame } rfl]
          have hset : { w'.holding w.plaintext w.pending with pending := pending.drop frame } =
              w'.holding w.plaintext (pending.drop frame) := rfl
          rw [hset, flushes_holding]
          cases w'.flushes crates (cut frame (pending.drop frame)).1 <;> rfl
  | case2 pending h =>
      have hle : ¬ frame < w.pending.length := by
        rw [hp]
        exact fun hlt => h ⟨by decide, hlt⟩
      rw [Writing.drain, if_neg hle, cut, if_neg h, flushes_nil, ← hp]
      rfl

theorem push_eq (w : Writer) (chunk : Bytes) :
    w.push crates chunk =
      (w.flushes crates (cut frame (w.pending ++ chunk)).1).map fun w' =>
        w'.holding (w.plaintext + chunk.length) (cut frame (w.pending ++ chunk)).2 := by
  have hset : ({ w with
      plaintext := w.plaintext + chunk.length, pending := w.pending ++ chunk } : Writer) =
      w.holding (w.plaintext + chunk.length) (w.pending ++ chunk) := rfl
  rw [push, Writing.push, drain_eq, hset, flushes_holding, holding_pending, holding_plaintext]
  cases w.flushes crates (cut frame (w.pending ++ chunk)).1 <;> rfl

/-- A sequence of pushes depends on the concatenation of the chunks only. -/
theorem pushes_eq (w : Writer) (chunks : List Bytes) (hw : w.pending.length ≤ frame) :
    chunks.foldlM (push crates) w =
      (w.flushes crates (cut frame (w.pending ++ chunks.flatten)).1).map fun w' =>
        w'.holding (w.plaintext + chunks.flatten.length)
          (cut frame (w.pending ++ chunks.flatten)).2 := by
  induction chunks generalizing w with
  | nil =>
      rw [List.flatten_nil, List.append_nil, cut_of_le hw]
      rfl
  | cons chunk rest ih =>
      rw [List.foldlM_cons, push_eq, List.flatten_cons, ← List.append_assoc,
        cut_append (w.pending ++ chunk), flushes_append]
      cases w.flushes crates (cut frame (w.pending ++ chunk)).1 with
      | error e => rfl
      | ok w' =>
          have hle : (cut frame (w.pending ++ chunk)).2.length ≤ frame :=
            cut_rest_le (by decide) _
          simp only [Except.map, bind, Except.bind]
          rw [ih (w'.holding _ _) hle, flushes_holding]
          simp only [holding, List.length_append, Nat.add_assoc]
          cases w'.flushes crates
            (cut frame ((cut frame (w.pending ++ chunk)).2 ++ rest.flatten)).1 <;> rfl

/-! ## The whole file -/

/-- Add pieces to a file. -/
def adding (w : Writer) (ps : List Piece) : Writer :=
  { w with file := w.file ++ Piece.bodies ps, lengths := w.lengths ++ ps.map Piece.word }

theorem flushes_flush_eq (w : Writer) (frames : List Bytes) (last : Bytes) :
    ((w.flushes crates frames).bind fun w' => w'.flush crates last true) =
      (encodeFrom crates w.level w.key w.oid w.lengths.length (frames ++ [last])).map w.adding := by
  induction frames generalizing w with
  | nil =>
      simp only [flushes_nil, Except.bind, List.nil_append, encodeFrom, List.isEmpty_nil, flush_eq]
      cases encode crates w.level w.key w.oid w.lengths.length true last with
      | error e => rfl
      | ok p => simp [Except.map, bind, Except.bind, pure, Except.pure, adding, Piece.bodies]
  | cons plain rest ih =>
      have hne : (rest ++ [last]).isEmpty = false := by simp
      rw [flushes_cons, flush_eq w plain, List.cons_append, encodeFrom, hne]
      cases encode crates w.level w.key w.oid w.lengths.length false plain with
      | error e => rfl
      | ok p =>
          have h := ih { w with file := w.file ++ p.body, lengths := w.lengths ++ [p.word] }
          simp only [List.length_append, List.length_singleton] at h
          refine Eq.trans h ?_
          simp only [bind, Except.bind, pure, Except.pure]
          cases encodeFrom crates w.level w.key w.oid (w.lengths.length + 1) (rest ++ [last]) with
          | error e => rfl
          | ok ps => simp [Except.map, adding]

theorem headerOf_eq (w : Writer) (index : Nat) :
    w.headerOf index =
      Piece.fixedHeader (Piece.versionOf w.key) w.plaintext frame w.lengths.length index
        ++ Piece.sealing w.key := by
  cases hkey : w.key with
  | none => simp [headerOf, hkey, Piece.fixedHeader, Piece.versionOf, Piece.sealing, version]
  | some key => simp [headerOf, hkey, Piece.fixedHeader, Piece.versionOf, Piece.sealing, version]

/-- The file of a writer that has nothing pending. -/
def closed (w : Writer) : Bytes :=
  w.headerOf (headerLen w.version + (w.lengths.map lengthOf).sum)
    ++ (w.file ++ w.lengths.flatMap (leBytes 4)).drop (headerLen w.version)

theorem finish_nil {w : Writer} (h : w.pending = []) : w.finish crates = .ok w.closed := by
  rw [finish, Writing.finish, if_pos h]
  rfl

theorem finish_pending {w : Writer} (h : w.pending ≠ []) :
    w.finish crates = (w.flush crates w.pending true).map closed := by
  rw [finish, Writing.finish, if_neg h]
  rfl

theorem closed_adding (level : Option Int) (key : Option ObjectKey) (oid : Oid) (n : Nat)
    (p : Bytes) (ps : List Piece) :
    (((start level key oid).adding ps).holding n p).closed = Piece.container key n ps := by
  have hversion : (((start level key oid).adding ps).holding n p).version =
      Piece.versionOf key := rfl
  have hroom : (List.replicate (headerLen (Piece.versionOf key)) (0 : UInt8)).length =
      headerLen (Piece.versionOf key) := List.length_replicate
  rw [closed, headerOf_eq, hversion]
  simp only [holding, adding, start, List.nil_append, List.length_map, List.map_map,
    Piece.container, Piece.indexAt, Piece.index, List.flatMap_map]
  rw [List.append_assoc (List.replicate _ 0), show (if key.isSome = true then vSealed else vPlain) =
    Piece.versionOf key from rfl, List.drop_left' hroom]
  simp [Function.comp_def]

theorem write_bind (level : Option Int) (key : Option ObjectKey) (oid : Oid)
    (chunks : List Bytes) :
    write crates level key oid chunks =
      (chunks.foldlM (push crates) (start level key oid)).bind (finish crates) := rfl

/-- **A writer writes the container of the frames of the plaintext.** -/
theorem write_eq (level : Option Int) (key : Option ObjectKey) (oid : Oid)
    (chunks : List Bytes) :
    write crates level key oid chunks =
      (encodeFrom crates level key oid 0 (framesOf frame chunks.flatten)).map
        (Piece.container key chunks.flatten.length) := by
  set plain := chunks.flatten with hplain
  have hpushes : chunks.foldlM (push crates) (start level key oid) =
      ((start level key oid).flushes crates (cut frame plain).1).map fun w =>
        w.holding plain.length (cut frame plain).2 := by
    rw [pushes_eq _ _ (by simp [start]), ← hplain]
    simp [start]
  rw [write_bind, hpushes]
  by_cases hnil : plain = []
  · rw [hnil, cut_nil, framesOf_nil, flushes_nil]
    have hempty := closed_adding level key oid 0 [] []
    have hnone : (((start level key oid).adding []).holding 0 []) = start level key oid := by
      simp [adding, holding, start]
    rw [hnone] at hempty
    have hfinish : (start level key oid).finish crates = .ok (start level key oid).closed :=
      finish_nil rfl
    exact hfinish.trans (congrArg Except.ok hempty)
  · have hrest : (cut frame plain).2 ≠ [] := fun h => hnil (cut_rest_eq_nil h)
    rw [framesOf_of_ne_nil hnil]
    have hflush := @flushes_flush_eq crates (start level key oid) (cut frame plain).1
      (cut frame plain).2
    have hclosed : ∀ ps, (((start level key oid).adding ps).holding plain.length
        (cut frame plain).2).closed = Piece.container key plain.length ps :=
      closed_adding level key oid _ _
    cases hw : (start level key oid).flushes crates (cut frame plain).1 with
    | error e =>
        rw [hw] at hflush
        simp only [Except.bind] at hflush
        cases henc : encodeFrom crates level key oid 0
            ((cut frame plain).1 ++ [(cut frame plain).2]) with
        | error e' =>
            simp only [start, List.length_nil, henc, Except.map] at hflush
            cases hflush
            rfl
        | ok ps =>
            simp only [start, List.length_nil, henc, Except.map] at hflush
            cases hflush
    | ok w =>
        rw [hw] at hflush
        simp only [Except.bind] at hflush
        simp only [Except.map, Except.bind]
        rw [finish_pending (by simpa using hrest), holding_pending, flush_holding, hflush]
        simp only [start, List.length_nil]
        cases henc : encodeFrom crates level key oid 0
            ((cut frame plain).1 ++ [(cut frame plain).2]) with
        | error e => rfl
        | ok ps => exact congrArg Except.ok (hclosed ps)

theorem pieces_of_write {level : Option Int} {key : Option ObjectKey} {oid : Oid}
    {chunks : List Bytes} {file : Bytes} (h : write crates level key oid chunks = .ok file) :
    ∃ ps, encodeFrom crates level key oid 0 (framesOf frame chunks.flatten) = .ok ps ∧
      file = Piece.container key chunks.flatten.length ps := by
  rw [write_eq] at h
  cases hps : encodeFrom crates level key oid 0 (framesOf frame chunks.flatten) with
  | error e =>
      rw [hps] at h
      cases h
  | ok ps =>
      rw [hps] at h
      cases h
      exact ⟨ps, rfl, rfl⟩

end Writer

end Lfsx.Storage
