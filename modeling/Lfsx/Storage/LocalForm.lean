import Lfsx.Storage.Local

/-!
# The stored form of an object

What a file holds for an object: the bytes of the object, or a container of them.
`Opens` says that a file opens to some bytes, with their length for its size and every
range of them in its stream.  `Decodes` says that they are the bytes an object id names.

A sink turns the chunks of a transfer into a stored form of their concatenation
(`Sink.finish_opens`).  Bytes that begin as a container does are put into one even by a
store that keeps objects as they are, so that a file is never taken for the wrong thing
(`opens_raw`, `opens_container`).  A file still opens when keys are added
(`Opens.keeps`).
-/

namespace Lfsx.Storage

open Request Codec

/-! ## Opening a file -/

section

variable {crates : Crates}

/-- What `Object::stream` gives of a file, for an object it was opened to. -/
def Object.streamed (crates : Crates) (file : Bytes) (start length : Nat) : Object → Streamed
  | .framed f => (f.stream crates start length).run (Reader.file file)
  | .raw _ => ⟨[slice file start length], .ok ()⟩

/-- A file opens to `plain`. -/
def Opens (crates : Crates) (keys : Option (Keyring crates)) (oid : Oid) (file plain : Bytes) :
    Prop :=
  ∃ object, (Object.open crates file.length keys oid).run (Reader.file file) = .ok object ∧
    object.size = plain.length ∧ ∀ start length, start + length ≤ plain.length →
      (object.streamed crates file start length).outcome = .ok () ∧
        (object.streamed crates file start length).items.flatten = slice plain start length

/-- A plaintext whose frames a container can count. -/
def Small (plain : Bytes) : Prop := divCeil plain.length frame < 2 ^ 32

instance (plain : Bytes) : Decidable (Small plain) := inferInstanceAs (Decidable (_ < _))

/-- A file opens to the bytes an object id names. -/
def Decodes (crates : Crates) (sha256 : Bytes → Text) (keys : Option (Keyring crates)) (oid : Oid)
    (file : Bytes) : Prop :=
  ∃ plain, sha256 plain = oid.text ∧ Opens crates keys oid file plain

/-- Bytes that do not begin as a container are not one. -/
theorem header?_of_not_collides {file : Bytes} (h : collides file = false) :
    Container.header? file = none := by
  cases hheader : Container.header? file with
  | none => rfl
  | some hd =>
      obtain ⟨hlen, haccept⟩ := Container.header?_eq_some hheader
      obtain ⟨hbegins, -, -⟩ := Header.accept_eq_some haccept
      simp only [Header.begins, Bool.and_eq_true, beq_iff_eq] at hbegins
      have hmagic : slice (prefixOf file) 0 4 = magic := hbegins.1.2
      have h32 : 32 ≤ file.length := hlen
      have hfour : magic = file.take 4 := by
        rw [← hmagic, prefixOf, slice, slice, List.drop_zero, List.drop_zero, List.take_take,
          Nat.min_eq_left (by rw [sealedHeader]; omega)]
      have hprefix : magic.isPrefixOf file = true := by
        rw [List.isPrefixOf_iff_prefix, hfour]
        exact List.take_prefix 4 file
      rw [collides, hprefix] at h
      cases h

/-- **An object kept as it is.** -/
theorem opens_raw {file : Bytes} (h : collides file = false) (keys : Option (Keyring crates))
    (oid : Oid) : Opens crates keys oid file file := by
  refine ⟨.raw file.length, ?_, rfl, fun start length hle => ⟨rfl, by simp [Object.streamed]⟩⟩
  rw [Object.run_open, Framed.open_file_of_not_header (header?_of_not_collides h)]
  rfl

/-- The keyring holds the key a file was sealed under. -/
def Unseals (keys : Option (Keyring crates)) (key : Option ObjectKey) : Prop :=
  ∀ k, key = some k → ∃ ring, keys = some ring ∧ ring.reading k.id k.salt = .ok k

theorem unseals_writing (ring : Keyring crates) (salt : Salt) :
    Unseals (some ring) (some (ring.writing salt)) := by
  intro k hk
  cases hk
  obtain ⟨master, hholds, hwriting⟩ := ring.writing_eq salt
  refine ⟨ring, rfl, ?_⟩
  rw [hwriting]
  exact Keyring.reading_of_holds hholds salt

/-- **An object in a container.** -/
theorem opens_container (lawful : crates.Lawful) {level : Option Int} {key : Option ObjectKey}
    {oid : Oid} {chunks : List Bytes} {file : Bytes} (hsmall : Small chunks.flatten)
    (hwrite : Writer.write crates level key oid chunks = .ok file)
    {keys : Option (Keyring crates)} (hkeys : Unseals keys key) :
    Opens crates keys oid file chunks.flatten := by
  obtain ⟨ps, hps, hfits, rfl⟩ := write_eq_ok lawful hsmall hwrite
  have hopened : Framed.keyOf crates (Piece.headerOf key chunks.flatten.length ps)
      (prefixOf (Piece.container key chunks.flatten.length ps)) keys = .ok key := by
    rw [Framed.keyOf_container hfits]
    cases key with
    | none => rfl
    | some k =>
        obtain ⟨ring, rfl, hreading⟩ := hkeys k rfl
        exact congrArg (Except.map some) hreading
  refine ⟨.framed (Piece.framed chunks.flatten.length ps key key oid), ?_, rfl,
    fun start length hle => stream_container lawful hps hfits hle⟩
  rw [Object.run_open, Framed.open_container hfits, hopened]
  rfl

/-! ## Keys -/

/-- The configuration was changed and no key was lost. -/
def Keeps (keys keys' : Option (Keyring crates)) : Prop :=
  ∀ ring, keys = some ring →
    ∃ ring', keys' = some ring' ∧ ∀ master, ring.Holds master → ring'.Holds master

theorem Keeps.refl (keys : Option (Keyring crates)) : Keeps keys keys :=
  fun ring h => ⟨ring, h, fun _ hm => hm⟩

theorem Keeps.trans {keys keys' keys'' : Option (Keyring crates)} (h : Keeps keys keys')
    (h' : Keeps keys' keys'') : Keeps keys keys'' := by
  intro ring hring
  obtain ⟨ring', hring', hholds⟩ := h ring hring
  obtain ⟨ring'', hring'', hholds'⟩ := h' ring' hring'
  exact ⟨ring'', hring'', fun master hm => hholds' master (hholds master hm)⟩

theorem Keeps.reading {ring ring' : Keyring crates}
    (h : ∀ master, ring.Holds master → ring'.Holds master) {id : KeyId} {salt : Salt}
    {key : ObjectKey} (hkey : ring.reading id salt = .ok key) :
    ring'.reading id salt = .ok key := by
  obtain ⟨master, hholds, rfl, rfl⟩ := Keyring.reading_eq_ok hkey
  exact Keyring.reading_of_holds (h master hholds) salt

theorem Keeps.keyOf {keys keys' : Option (Keyring crates)} (h : Keeps keys keys') {hd : Header}
    {bytes : Bytes} {key : Option ObjectKey} (hkey : Framed.keyOf crates hd bytes keys = .ok key) :
    Framed.keyOf crates hd bytes keys' = .ok key := by
  rw [Framed.keyOf] at hkey ⊢
  by_cases hsealed : hd.version = vSealed
  · rw [if_pos hsealed] at hkey ⊢
    cases keys with
    | none => cases hkey
    | some ring =>
        obtain ⟨ring', rfl, hholds⟩ := h ring rfl
        simp only [Framed.sealedKey] at hkey ⊢
        cases hreading : ring.reading (Framed.array bytes 32 Crypt.id)
            (Framed.array bytes 36 Crypt.salt) with
        | error e =>
            rw [hreading] at hkey
            cases hkey
        | ok k =>
            rw [Keeps.reading hholds hreading]
            rwa [hreading] at hkey
  · rw [if_neg hsealed] at hkey ⊢
    exact hkey

/-- **A file opens as it did when keys were added.** -/
theorem Opens.keeps {keys keys' : Option (Keyring crates)} {oid : Oid} {file plain : Bytes}
    (h : Opens crates keys oid file plain) (hkeeps : Keeps keys keys') :
    Opens crates keys' oid file plain := by
  obtain ⟨object, hopen, hobject⟩ := h
  refine ⟨object, ?_, hobject⟩
  rw [Object.run_open, Framed.open_file] at hopen ⊢
  cases hheader : Container.header? file with
  | none => rwa [hheader] at hopen
  | some hd =>
      rw [hheader] at hopen
      cases hkey : Framed.keyOf crates hd (prefixOf file) keys with
      | error e =>
          simp only [hkey] at hopen
          cases hopen
      | ok key =>
          simp only [hkey] at hopen
          simpa only [hkeeps.keyOf hkey] using hopen

theorem Decodes.keeps {sha256 : Bytes → Text} {keys keys' : Option (Keyring crates)} {oid : Oid}
    {file : Bytes} (h : Decodes crates sha256 keys oid file) (hkeeps : Keeps keys keys') :
    Decodes crates sha256 keys' oid file := by
  obtain ⟨plain, hdigest, hopens⟩ := h
  exact ⟨plain, hdigest, hopens.keeps hkeeps⟩

/-- A file that is not a container opens to its own bytes. -/
theorem Opens.raw {keys : Option (Keyring crates)} {oid : Oid} {file plain : Bytes}
    (h : Opens crates keys oid file plain)
    (hraw : (Framed.open crates file.length keys oid).run (Reader.file file) = .ok none) :
    plain = file := by
  obtain ⟨object, hopen, hsize, hstream⟩ := h
  rw [Object.run_open, hraw] at hopen
  cases hopen
  have hlength : file.length = plain.length := hsize
  obtain ⟨-, hall⟩ := hstream 0 plain.length (by omega)
  simp only [Object.streamed, List.flatten_singleton, slice, List.drop_zero] at hall
  rw [List.take_of_length_le (by omega), List.take_of_length_le (by omega)] at hall
  exact hall.symm

end

/-! ## Sinks -/

/-- A sink that took `taken`, for a writer with a level and a key. -/
inductive Sink.Took (crates : Crates) (level : Option Int) (key : Option ObjectKey) (oid : Oid)
    (taken : Bytes) : Sink → Prop
  | undecided : level = none → key = none → taken.length < sniff →
      Took crates level key oid taken (.undecided taken oid)
  | raw : collides taken = false → Took crates level key oid taken (.raw taken)
  | framed {chunks : List Bytes} {writer : Writer} : chunks.flatten = taken →
      chunks.foldlM (Writer.push crates) (Writer.start level key oid) = .ok writer →
      Took crates level key oid taken (.framed writer)

theorem collides_append {head : Bytes} (hlen : sniff ≤ head.length) (rest : Bytes) :
    collides (head ++ rest) = collides head := by
  rw [Bool.eq_iff_iff, collides, collides, List.isPrefixOf_iff_prefix, List.isPrefixOf_iff_prefix]
  constructor
  · intro h
    exact List.prefix_of_prefix_length_le h (List.prefix_append head rest) hlen
  · intro h
    exact h.trans (List.prefix_append head rest)

/-- Too few bytes for the magic. -/
theorem not_collides_of_short {taken : Bytes} (h : taken.length < sniff) :
    collides taken = false := by
  rw [collides, Bool.eq_false_iff, ne_eq, List.isPrefixOf_iff_prefix]
  intro hprefix
  have := hprefix.length_le
  rw [sniff] at h
  omega

namespace Sink

variable {crates : Crates} {level : Option Int} {key : Option ObjectKey} {oid : Oid}
  {taken : Bytes}

theorem settle_undecided {sink' : Sink} (hlevel : level = none) (hkey : key = none)
    (h : settle crates (.undecided taken oid) = .ok sink') :
    Took crates level key oid taken sink' := by
  subst hlevel
  subst hkey
  rw [settle] at h
  split at h
  · cases hpush : (Writer.start none none oid).push crates taken with
    | error e => rw [hpush] at h; cases h
    | ok writer =>
        rw [hpush] at h
        cases h
        refine .framed (show [taken].flatten = taken by simp) ?_
        rw [List.foldlM_cons, hpush]
        rfl
  · next hcollides =>
      cases h
      exact .raw (by simpa using hcollides)

/-- A settled sink took what the sink before it took. -/
theorem Took.settle {sink sink' : Sink} (h : Took crates level key oid taken sink)
    (hsettle : sink.settle crates = .ok sink') : Took crates level key oid taken sink' := by
  cases h with
  | undecided hlevel hkey _ => exact settle_undecided hlevel hkey hsettle
  | raw hraw =>
      cases hsettle
      exact .raw hraw
  | framed hchunks hpushes =>
      cases hsettle
      exact .framed hchunks hpushes

/-- One chunk more. -/
theorem Took.write {sink sink' : Sink} {chunk : Bytes} (h : Took crates level key oid taken sink)
    (hraw : ∀ file, sink = .raw file → sniff ≤ file.length)
    (hwrite : sink.write crates chunk = .ok sink') :
    Took crates level key oid (taken ++ chunk) sink' ∧
      ∀ file, sink' = .raw file → sniff ≤ file.length := by
  cases h with
  | undecided hlevel hkey hshort =>
      rw [Sink.write] at hwrite
      split at hwrite
      · next hlong =>
          have htook := settle_undecided hlevel hkey hwrite
          refine ⟨htook, fun file hfile => ?_⟩
          subst hfile
          cases htook with
          | raw _ => exact hlong
      · next hshort' =>
          cases hwrite
          exact ⟨.undecided hlevel hkey (by omega), fun file hfile => by cases hfile⟩
  | raw hcollides =>
      cases hwrite
      have hlong := hraw taken rfl
      refine ⟨.raw ?_, fun file hfile => ?_⟩
      · rw [collides_append hlong, hcollides]
      · cases hfile
        rw [List.length_append]
        omega
  | @framed chunks writer hchunks hpushes =>
      cases hpush : writer.push crates chunk with
      | error e => rw [Sink.write, hpush] at hwrite; cases hwrite
      | ok writer' =>
          rw [Sink.write, hpush] at hwrite
          cases hwrite
          refine ⟨.framed (show (chunks ++ [chunk]).flatten = taken ++ chunk by simp [hchunks]) ?_,
            fun file hfile => by cases hfile⟩
          rw [List.foldlM_append, hpushes]
          show List.foldlM (Writer.push crates) writer [chunk] = _
          rw [List.foldlM_cons, hpush]
          rfl

/-- **A file a sink finished opens to what the sink took.** -/
theorem Took.finish {sink : Sink} {file : Bytes} (lawful : crates.Lawful)
    (h : Took crates level key oid taken sink) (hfinish : sink.finish crates = .ok file)
    (hsmall : Small taken) {keys : Option (Keyring crates)} (hkeys : Unseals keys key) :
    Opens crates keys oid file taken := by
  rw [Sink.finish] at hfinish
  cases hsettle : sink.settle crates with
  | error e => rw [hsettle] at hfinish; cases hfinish
  | ok sink' =>
      rw [hsettle] at hfinish
      cases h.settle hsettle with
      | undecided _ _ hshort =>
          cases hfinish
          exact opens_raw (not_collides_of_short hshort) keys oid
      | raw hraw =>
          cases hfinish
          exact opens_raw hraw keys oid
      | @framed chunks writer hchunks hpushes =>
          subst hchunks
          have hwrite : Writer.write crates level key oid chunks = .ok file := by
            rw [Writer.write_bind, hpushes]
            exact hfinish
          exact opens_container lawful hsmall hwrite hkeys

end Sink

namespace LocalStore

variable {crates : Crates} {store : LocalStore crates} {level : Option Int}
  {key : Option ObjectKey} {oid : Oid} {budget : Option Budget}

/-- The bytes a transfer brings, as far as it goes. -/
def arriving (chunks : List (Except String Bytes)) : Bytes :=
  (chunks.filterMap Except.toOption).flatten

/-- What `receive` answers is a sink that took the whole transfer. -/
theorem receive_eq_ok {chunks : List (Except String Bytes)} {sink sink' : Sink}
    {taken taken' : Bytes} (h : Sink.Took crates level key oid taken sink)
    (hraw : ∀ file, sink = .raw file → sniff ≤ file.length)
    (hreceive : store.receive budget chunks sink taken = .ok (sink', taken')) :
    taken' = taken ++ arriving chunks ∧ Sink.Took crates level key oid taken' sink' := by
  induction chunks generalizing sink taken with
  | nil =>
      cases hreceive
      exact ⟨by simp [arriving], h⟩
  | cons item rest ih =>
      cases item with
      | error e => cases hreceive
      | ok chunk =>
          simp only [receive] at hreceive
          split at hreceive
          · cases hreceive
          · split at hreceive
            · cases hreceive
            · cases hwrite : sink.write crates chunk with
              | error e => rw [hwrite] at hreceive; cases hreceive
              | ok next =>
                  rw [hwrite] at hreceive
                  obtain ⟨hnext, hraw'⟩ := h.write hraw hwrite
                  obtain ⟨htaken, htook⟩ := ih hnext hraw' hreceive
                  refine ⟨?_, htook⟩
                  rw [htaken, List.append_assoc]
                  rfl

end LocalStore

end Lfsx.Storage
