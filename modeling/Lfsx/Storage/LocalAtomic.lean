import Lfsx.Storage.LocalWrite

/-!
# Writes are atomic where links are

A write may fail at any request, and the server may die between any two.  Where the disk
makes hard links, every entry is then what it was, or new and complete, and a write that
ends in an error has taken its staging file away (`write_atomic`).

Where a link is refused the store copies, and the copy is an entry before it has its bytes
(`write_half_copied`).  A staging file may also be there already, left by a server that
died before it removed one it had linked.  A new server counts its staging files from zero
again, and empties the file if it is given the same name.  `Apart` says that it is not, and
`write_over_leftover` shows what happens then.
-/

namespace Lfsx.Storage

open Request Files

namespace LocalStore

/-- **Writes are atomic.**  At every point of every run, every entry is what it was or new
and complete, and a write that ended in an error leaves no staging file of its own. -/
theorem write_atomic {crates : Crates} (lawful : crates.Lawful) (sha256 : Bytes → Text)
    (store : LocalStore crates) (ns : Namespace) (oid : Oid) (expectedSize : Option Nat)
    (budget : Option Budget) (chunks : List (Except String Bytes))
    (may : Files.Req Text → Prop) (d : Volume) (hsound : Sound crates sha256 store.keys d)
    (hsmall : Small (arriving chunks))
    {c : Program (Files.Req Text) Files.Resp (Except Error Put) × Volume}
    (hsteps : Program.Steps (Clean may)
      ((store.write sha256 ns oid expectedSize budget chunks).run, d) c) :
    (LinksHold may → Grown crates sha256 store.keys d c.2) ∧
      ∀ e, c.1 = .pure (.error e) → Tidy may (nextPart d ns oid) oid →
        c.2.ticket = d.ticket ∨ c.2.inode (nextPart d ns oid) = none := by
  have hkeep : ∀ a b, Atomic crates sha256 store.keys may a b →
      (LinksHold may → Grown crates sha256 store.keys d a) →
      LinksHold may → Grown crates sha256 store.keys d b :=
    fun a b hstep h hlinks => (h hlinks).trans (hstep hlinks)
  have hruns : Runs crates sha256 store.keys may _ _
      (store.write sha256 ns oid expectedSize budget chunks) d :=
    write_runs lawful hsmall hsound
  obtain ⟨hgrown, hunder⟩ := Program.Under.alone (c := (_, d)) hkeep hruns
    (fun _ => (Untouched.refl d).grown) hsteps
  refine ⟨hgrown, fun e he htidy => ?_⟩
  rw [he] at hunder
  exact hunder c.2 .refl htidy

/-- The object `x`. -/
def x : Oid :=
  ⟨"2d711642b726b04401627ca9fbac32f5c8530fb1903cc4db02258717921a4881".toList, by decide⟩

/-- The object `y`. -/
def y : Oid :=
  ⟨"a1fce4363854ff888cff4b8e7875d600c2682390412a8cf79b37d0b11148b0fa".toList, by decide⟩

/-- What SHA-256 makes of `x`, of `y` and of nothing. -/
def digests (bytes : Bytes) : Text :=
  if bytes = [] then "e3b0c44298fc1c149afbf4c8996fb92427ae41e4649b934ca495991b7852b855".toList
  else if bytes = [0x79] then y.text
  else x.text

/-- A store that keeps objects as they are. -/
def plain : LocalStore Crates.plain := ⟨none, none, none⟩

theorem sound_empty {crates : Crates} {sha256 : Bytes → Text} {keys : Option (Keyring crates)} :
    Sound crates sha256 keys .empty := by
  intro path oid f _ hfind
  cases hfind

theorem decodes_x : Decodes Crates.plain digests none x [0x78] :=
  ⟨[0x78], rfl, opens_raw rfl none x⟩

/-- A volume on which every file is `x`, but for a staging file. -/
theorem sound_of_names {d : Volume} (h : ∀ e ∈ d.names.entries,
    e.1.getLast? = some x.text ∧ (d.file e.2).map File.bytes = some [0x78] ∨
      e.1.getLast? = some (partName x 0)) : Sound Crates.plain digests none d := by
  intro path oid f hentry hfind
  obtain ⟨i, hi, hf⟩ := Disk.find_eq_some.mp hfind
  have hlast := hentry.getLast?
  rcases h ⟨path, i⟩ (AList.mem_lookup_iff.mp hi) with ⟨hx, hbytes⟩ | hpart
  · rw [hlast, Option.some.injEq] at hx
    rw [hf, Option.map_some, Option.some.injEq] at hbytes
    rw [Oid.ext hx, hbytes]
    exact decodes_x
  · rw [hlast, Option.some.injEq] at hpart
    exact absurd hpart.symm (partName_ne_text x oid 0)

/-- `x`, pushed to a store that keeps objects as they are. -/
def pushOfX : Op Put := plain.write digests .acme x none none [.ok [0x78]]

/-- A disk that answers at once, while every name it is given to make is free. -/
def respondFree (r : Files.Req Text) (d : Volume) : Option (Files.Resp r × Volume) :=
  match r with
  | .create path => if d.inode path = none then some (respond (.create path) d) else none
  | .link source target =>
      if d.inode target = none then some (respond (.link source target) d) else none
  | r => some (respond r d)

theorem respondFree_clean (may : Files.Req Text → Prop) (r : Files.Req Text) (d : Volume)
    (answered : Files.Resp r × Volume) (h : respondFree r d = some answered) :
    Clean may r d answered.1 answered.2 := by
  have hclean : Free r d → respond r d = answered → Clean may r d answered.1 answered.2 :=
    fun hfree heq => ⟨hfree, heq ▸ respond_faulty may r d⟩
  cases r with
  | create path =>
      rw [respondFree] at h
      split at h
      · next hnone =>
          refine hclean (fun i hi => ?_) (Option.some.inj h)
          rw [hnone] at hi
          cases hi
      · cases h
  | link source target =>
      rw [respondFree] at h
      split at h
      · next hnone => exact hclean (fun _ _ _ _ => hnone) (Option.some.inj h)
      · cases h
  | _ => exact hclean trivial (Option.some.inj h)

/-- `x` in a repository. -/
def shared : Volume :=
  ((Disk.empty.add (contentPath x) 0).fill 0 [0x78] 0).link (contentPath x) (objectPath .acme x)

/-- `y`, pushed by another repository. -/
def pushOfY : Op Put := plain.write digests .tools y none none [.ok [0x79]]

/-- The server dies between the two links: the content is there and whole, the repository does not
hold it yet, and the other object is what it was. -/
theorem write_atomic_between :
    ∃ c, Program.advance respondFree 9 (pushOfY.run, shared) = some c ∧
      c.2.find (contentPath y) = some ⟨[0x79], 0⟩ ∧ c.2.find (objectPath .tools y) = none ∧
      Grown Crates.plain digests none shared c.2 := by
  have hdied : ((Program.advance respondFree 9 (pushOfY.run, shared)).map fun c =>
      (c.2.find (contentPath y), c.2.find (objectPath .tools y))) =
        some (some ⟨[0x79], 0⟩, none) := by
    decide +kernel
  obtain ⟨c, hc, hfound⟩ := Option.map_eq_some_iff.mp hdied
  obtain ⟨hcontent, hobject⟩ := Prod.mk.inj hfound
  exact ⟨c, hc, hcontent, hobject, (write_atomic Crates.lawful_plain digests plain .tools y none
    none [.ok [0x79]] (fun _ => False) shared (sound_of_names (by decide +kernel)) (by decide)
    (Program.advance_steps (respondFree_clean _) hc)).1 fun _ _ => id⟩

/-! ## Where they are not -/

/-- A disk without hard links. -/
def Unlinked : Files.Req Text → Prop
  | .link _ _ => True
  | _ => False

def unlinked : (r : Files.Req Text) → Volume → Files.Resp r × Volume
  | .link source target, d =>
      if (d.inode source).isSome ∧ d.inode target = none then (.error .other, d)
      else respond (.link source target) d
  | r, d => respond r d

theorem unlinked_faulty (r : Files.Req Text) (d : Volume) (answered : Files.Resp r × Volume)
    (h : some (unlinked r d) = some answered) : Faulty Unlinked r d answered.1 answered.2 := by
  cases h
  cases r with
  | link source target =>
      rw [unlinked]
      split
      · next h => exact Or.inr ⟨trivial, rfl, rfl, h⟩
      · exact Or.inl (respond_answers _ d)
  | _ => exact Or.inl (respond_answers _ d)

/-- A file without a byte opens to nothing but the empty object. -/
theorem not_decodes_nil : ¬ Decodes Crates.plain digests none x [] := by
  rintro ⟨bytes, hdigest, hopens⟩
  have hnil : bytes = [] :=
    hopens.raw (Framed.open_file_of_not_header (header?_of_not_collides rfl) none x)
  rw [hnil] at hdigest
  exact absurd hdigest (by decide)

/-- **A write that copies is not atomic.**  The server dies when it has made the file of the
content and not copied its byte yet, and the entry stays. -/
theorem write_half_copied :
    Sound Crates.plain digests none .empty ∧
      ∃ c, Program.Steps (Faulty Unlinked) (pushOfX.run, .empty) c ∧
        ¬ Grown Crates.plain digests none .empty c.2 := by
  have hfind : ((Program.advance (fun r d => some (unlinked r d)) 11 (pushOfX.run, .empty)).bind
      fun c => c.2.find (contentPath x)) = some ⟨[], 0⟩ := by decide +kernel
  obtain ⟨c, hc, hfile⟩ := Option.bind_eq_some_iff.mp hfind
  refine ⟨sound_empty, c, Program.advance_steps unlinked_faulty hc, fun hgrown => ?_⟩
  rcases hgrown (contentPath x) x (.content x) with hsame | ⟨-, f, hf, hdecodes⟩
  · rw [hfile] at hsame
    cases hsame
  · rw [hfile, Option.some.injEq] at hf
    subst hf
    exact not_decodes_nil hdecodes

/-- `x` in a repository, beside a staging file of it that was linked and never removed. -/
def leftover : Volume :=
  let placed := (Disk.empty.add (contentPath x) 0).fill 0 [0x78] 0
  (placed.link (contentPath x) (objectPath .acme x)).link (contentPath x) (nextPart .empty .acme x)

/-- **A write that is given the name of a staging file left behind empties what it names.**
A push of `y` under the id of `x` is over, and `y` is the content. -/
theorem write_over_leftover :
    let write := plain.write digests .acme x none none [.ok [0x79]]
    leftover.find (contentPath x) = some ⟨[0x78], 0⟩ ∧
      ∃ c, Program.Steps (Faulty fun _ => False) (write.run, leftover) c ∧ c.1.done = true ∧
        c.2.find (contentPath x) = some ⟨[0x79], 0⟩ := by
  intro write
  have hend : ((Program.advance (fun r d => some (respond r d)) 20 (write.run, leftover)).map
      fun c => (c.1.done, c.2.find (contentPath x))) = some (true, some ⟨[0x79], 0⟩) := by
    decide +kernel
  obtain ⟨c, hc, hfile⟩ := Option.map_eq_some_iff.mp hend
  obtain ⟨hdone, hfind⟩ := Prod.ext_iff.mp hfile
  refine ⟨by decide +kernel, c, Program.advance_steps (respond_some _) hc, hdone, hfind⟩

end LocalStore

end Lfsx.Storage
