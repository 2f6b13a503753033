import Lfsx.Storage.CacheKept

/-!
# What a cache serves

An open is served the file it opened at first, and the check reads the object and the digest again.
So what it serves is what was checked only if nobody put a file in place meanwhile, and what was
checked is what a fill recorded only if the digest was not of a fill that had yet to put its object
in place.  A run is `Careful` if neither happens, and `Claimed` if fills of one object do not
overlap.  In such a run every file that is served reads as what a completed fill recorded
(`served_recorded`).  It is not so in every run (`served_unrecorded`).
-/

namespace Lfsx.Storage

open Request Files

namespace Cache

/-! ## Digests in a file -/

theorem isBlank_of_isHexDigit {c : Char} (h : Oid.isHexDigit c = true) : isBlank c = false := by
  have hdigits : ('0'.toNat ≤ c.toNat ∧ c.toNat ≤ '9'.toNat) ∨
      ('a'.toNat ≤ c.toNat ∧ c.toNat ≤ 'f'.toNat) := by
    rw [Oid.isHexDigit, Bool.or_eq_true, Bool.and_eq_true, decide_eq_true_eq,
      decide_eq_true_eq] at h
    rcases h with hdigit | ⟨hge, hle⟩
    · simp only [Char.isDigit, Bool.and_eq_true, decide_eq_true_eq,
        UInt32.le_iff_toNat_le] at hdigit
      exact Or.inl hdigit
    · rw [Char.le_def, UInt32.le_iff_toNat_le] at hge hle
      exact Or.inr ⟨hge, hle⟩
  have hnumbers : (48 ≤ c.toNat ∧ c.toNat ≤ 57) ∨ (97 ≤ c.toNat ∧ c.toNat ≤ 102) := hdigits
  simp only [isBlank, Bool.or_eq_false_iff, Bool.and_eq_false_iff, decide_eq_false_iff_not,
    beq_eq_false_iff_ne]
  omega

theorem trim_digits {text : Text} (h : ∀ c ∈ text, Oid.isHexDigit c = true) :
    trim isBlank text = text := by
  have hnone : Blanks isBlank ([] : Text) := fun c hc => by cases hc
  have htrim := trim_between hnone (fun c hc => isBlank_of_isHexDigit (h c hc)) hnone
  rwa [List.nil_append, List.append_nil] at htrim

/-- Every digit is one byte. -/
theorem take_utf8Encode {text : Text} (h : ∀ c ∈ text, Oid.isHexDigit c = true) (n : Nat) :
    (utf8Encode text).take n = utf8Encode (text.take n) := by
  induction text generalizing n with
  | nil => rw [List.take_nil]; exact List.take_nil
  | cons c text ih =>
      obtain ⟨hc, htext⟩ := List.forall_mem_cons.mp h
      have hlength : (String.utf8EncodeChar c).length = 1 := by
        rw [String.length_utf8EncodeChar, Oid.utf8Size_of_isHexDigit hc]
      obtain ⟨b, hb⟩ := List.length_eq_one_iff.mp hlength
      cases n with
      | zero => rfl
      | succ n =>
          rw [List.take_succ_cons]
          show (String.utf8EncodeChar c ++ utf8Encode text).take (n + 1) =
            String.utf8EncodeChar c ++ utf8Encode (text.take n)
          rw [hb, List.singleton_append, List.take_succ_cons, ih htext]
          rfl

/-- What reads as a digest, of what there is of another, is all of it. -/
theorem prefix_digest {x y : Oid} {bytes : Bytes} {recorded : Text}
    (hpart : bytes <+: utf8Encode y.text) (hdecode : utf8Decode bytes = some recorded)
    (htrim : trim isBlank recorded = x.text) : x = y ∧ bytes = utf8Encode x.text := by
  have hy : ∀ c ∈ y.text, Oid.isHexDigit c = true := fun c hc => Oid.isHexDigit_of_mem hc
  have hbytes : bytes = utf8Encode (y.text.take bytes.length) := by
    rw [← take_utf8Encode hy]
    exact List.prefix_iff_eq_take.mp hpart
  rw [hbytes, utf8Decode_utf8Encode, Option.some.injEq] at hdecode
  have hdigits : ∀ c ∈ recorded, Oid.isHexDigit c = true := by
    rw [← hdecode]
    exact fun c hc => hy c (List.mem_of_mem_take hc)
  rw [trim_digits hdigits] at htrim
  refine ⟨Oid.ext ?_, by rw [hbytes, hdecode, htrim]⟩
  have hlength : (y.text.take bytes.length).length = y.text.length := by
    rw [hdecode, htrim, Oid.length_text, Oid.length_text]
  rw [← htrim, ← hdecode]
  exact (List.take_sublist _ _).eq_of_length hlength

/-! ## What was recorded -/

section

variable {ι : Type} [DecidableEq ι] (cache : Cache) (calls : ι → Call) (s₀ : Shared)

/-- A fill of the object began to write a digest. -/
def Wrote (oid : Oid) (bytes : Bytes) (past : Past ι) : Prop :=
  ∃ k beside answer, (calls k).oid = oid ∧ ⟨k, .disk (.write beside bytes), answer⟩ ∈ past

/-- A fill of the object wrote a digest and put its object in place. -/
def Finished (oid : Oid) (bytes : Bytes) (past : Past ι) : Prop :=
  ∃ k beside, (calls k).oid = oid ∧ ⟨k, .disk (.write beside bytes), .ok ()⟩ ∈ past ∧
    ⟨k, .disk (.rename (incoming oid) (object oid)), .ok ()⟩ ∈ past

/-- The digest was recorded for the object: by a completed fill of the run, or before it. -/
def Recorded (oid : Oid) (past : Past ι) (x : Oid) : Prop :=
  (∃ f recorded, s₀.disk.find (digest oid) = some f ∧ utf8Decode f.bytes = some recorded ∧
      trim isBlank recorded = x.text) ∨
    Finished calls oid (utf8Encode x.text) past

/-- A file was put in place of the object. -/
def Replaced (oid : Oid) (past : Past ι) : Prop :=
  ∃ k, (calls k).oid = oid ∧ phase cache k past = .placed

/-- The object is open, and was not opened again to be checked. -/
def Phase.unchecked : Phase → Bool
  | .opened _ => true
  | .reading _ _ => true
  | .known _ _ => true
  | _ => false

/-- No file is put in place between an open and its check, and no check reads a digest that
only fills have written that did not put their object in place. -/
def Careful : Past ι → Prop
  | [] => True
  | e :: past => Careful past ∧ match e with
      | ⟨i, .disk (.rename _ _), .ok ()⟩ =>
          ∀ j, (calls j).oid = (calls i).oid → (phase cache j past).unchecked = false
      | ⟨i, .disk (.readAll _), .ok bytes⟩ =>
          (∃ file beside, phase cache i past = .reading file beside) →
            Wrote calls (calls i).oid bytes past → Finished calls (calls i).oid bytes past
      | _ => True

/-! ## What stays true -/

/-- The object that was there at first. -/
def First (oid : Oid) (file : Nat) : Prop := s₀.disk.inode (object oid) = some file

/-- A fill may write the file, or cut it off. -/
def Writable (d : Volume) (past : Past ι) (file : Nat) : Prop :=
  (∃ oid path, (path = incoming oid ∨ path = digest oid) ∧ d.inode path = some file) ∨
    ∃ path, Held cache calls past file path

/-- Nobody may write the file, and its digest was recorded. -/
def Good (oid : Oid) (w : World ι) (file : Nat) : Prop :=
  ¬ Writable cache calls w.1.disk w.2 file ∧
    ∃ f, w.1.disk.file file = some f ∧ Recorded calls s₀ oid w.2 (cache.blake3 f.bytes)

/-- The file was the object: the first one, or one that was put in place. -/
def Been (oid : Oid) (w : World ι) (file : Nat) : Prop :=
  First s₀ oid file ∧ ¬ Replaced cache calls oid w.2 ∨
    Good cache calls s₀ oid w file ∧ Replaced cache calls oid w.2

/-- The bytes of a digest: what was there at first, or what a fill has come to write. -/
def Stated (oid : Oid) (past : Past ι) (bytes : Bytes) : Prop :=
  (∃ f, s₀.disk.find (digest oid) = some f ∧ f.bytes = bytes) ∨ bytes = [] ∨
    ∃ x : Oid, bytes <+: utf8Encode x.text ∧ Wrote calls oid (utf8Encode x.text) past

/-- The file of a digest. -/
structure DigestFile (oid : Oid) (w : World ι) (file : Nat) : Prop where
  named : ∀ path, w.1.disk.inode path = some file → path = digest oid
  held : ∀ path, Held cache calls w.2 file path → path = digest oid
  stated : ∃ f, w.1.disk.file file = some f ∧ Stated calls s₀ oid w.2 f.bytes

/-- What a call knows. -/
def Knows (i : ι) (w : World ι) : Phase → Prop
  | .opened file => Been cache calls s₀ (calls i).oid w file
  | .reading file beside => Been cache calls s₀ (calls i).oid w file ∧
      DigestFile cache calls s₀ (calls i).oid w beside
  | .known file recorded => Been cache calls s₀ (calls i).oid w file ∧
      ∀ x : Oid, trim isBlank recorded = x.text → Recorded calls s₀ (calls i).oid w.2 x
  | .again file recorded file' =>
      (Good cache calls s₀ (calls i).oid w file ∧ Replaced cache calls (calls i).oid w.2 ∨
        First s₀ (calls i).oid file ∧ file' = file) ∧
      ∀ x : Oid, trim isBlank recorded = x.text → Recorded calls s₀ (calls i).oid w.2 x
  | .passed file => Good cache calls s₀ (calls i).oid w file ∧
      (First s₀ (calls i).oid file ∨ Replaced cache calls (calls i).oid w.2)
  | .noted _ taken => ∃ beside,
      ⟨i, .disk (.write beside (utf8Encode (cache.blake3 taken).text)), .ok ()⟩ ∈ w.2
  | _ => True

/-- What keeps every file good that is served. -/
structure Served (w : World ι) : Prop where
  first : ∀ oid file, First s₀ oid file →
    file < w.1.disk.files.length ∧ ¬ Writable cache calls w.1.disk w.2 file
  object : ∀ oid file, w.1.disk.inode (object oid) = some file → Been cache calls s₀ oid w file
  verified : ∀ oid : Oid, oid.text ∈ w.1.memory.verified → Replaced cache calls oid w.2 ∨
    ∃ file, First s₀ oid file ∧ Good cache calls s₀ oid w file
  digest : ∀ oid file, w.1.disk.inode (digest oid) = some file →
    ∃ f, w.1.disk.file file = some f ∧ Stated calls s₀ oid w.2 f.bytes
  knows : ∀ i, Knows cache calls s₀ i w (phase cache i w.2)

end

/-! ## What a step keeps -/

section

variable {ι : Type} {calls : ι → Call} {s₀ : Shared} {oid : Oid}

theorem Wrote.cons {bytes : Bytes} {past : Past ι} (e : Event ι Req Resp)
    (h : Wrote calls oid bytes past) : Wrote calls oid bytes (e :: past) := by
  obtain ⟨k, beside, answer, hk, he⟩ := h
  exact ⟨k, beside, answer, hk, List.mem_cons_of_mem _ he⟩

theorem Finished.cons {bytes : Bytes} {past : Past ι} (e : Event ι Req Resp)
    (h : Finished calls oid bytes past) : Finished calls oid bytes (e :: past) := by
  obtain ⟨k, beside, hk, hwrite, hrename⟩ := h
  exact ⟨k, beside, hk, List.mem_cons_of_mem _ hwrite, List.mem_cons_of_mem _ hrename⟩

theorem Recorded.cons {x : Oid} {past : Past ι} (e : Event ι Req Resp)
    (h : Recorded calls s₀ oid past x) : Recorded calls s₀ oid (e :: past) x :=
  h.imp_right (Finished.cons e)

theorem Stated.cons {bytes : Bytes} {past : Past ι} (e : Event ι Req Resp)
    (h : Stated calls s₀ oid past bytes) : Stated calls s₀ oid (e :: past) bytes := by
  rcases h with h | h | ⟨x, hpart, hx⟩
  · exact Or.inl h
  · exact Or.inr (Or.inl h)
  · exact Or.inr (Or.inr ⟨x, hpart, hx.cons e⟩)

end

section

variable {ι : Type} [DecidableEq ι] {cache : Cache} {calls : ι → Call} {s₀ : Shared} {i j : ι}
  {r : Req} {answer : Resp r} {w : World ι} {s' : Shared} {may : Req → Prop} {oid : Oid}
  {file : Nat}

theorem next_placed : next cache .placed r answer = .placed := by
  cases r with
  | disk r => cases r <;> rfl
  | _ => rfl

theorem Replaced.cons {past : Past ι} (h : Replaced cache calls oid past) :
    Replaced cache calls oid (⟨i, r, answer⟩ :: past) := by
  obtain ⟨k, hk, hplaced⟩ := h
  refine ⟨k, hk, ?_⟩
  by_cases hki : k = i
  · subst hki
    rw [phase_self, hplaced, next_placed]
  · rw [phase_other hki, hplaced]

/-- Only a thread that puts its file in place replaces its object. -/
theorem replaced_cons {past : Past ι} (h : Replaced cache calls oid (⟨i, r, answer⟩ :: past)) :
    Replaced cache calls oid past ∨
      oid = (calls i).oid ∧ next cache (phase cache i past) r answer = .placed := by
  obtain ⟨k, hk, hplaced⟩ := h
  by_cases hki : k = i
  · subst hki
    rw [phase_self] at hplaced
    exact Or.inr ⟨hk.symm, hplaced⟩
  · rw [phase_other hki] at hplaced
    exact Or.inl ⟨k, hk, hplaced⟩

section

variable (h : Kept cache calls w) (hallowed : Allowed cache (calls i).oid (phase cache i w.2) r)
  (hexec : Answers may r w.1 answer s')

include h hallowed hexec

/-- A file that may be written could be written before, or is new. -/
theorem writable_step (hfile : file < w.1.disk.files.length)
    (hwritable : Writable cache calls s'.disk (⟨i, r, answer⟩ :: w.2) file) :
    Writable cache calls w.1.disk w.2 file := by
  rcases hwritable with ⟨o, path, hpath, hinode⟩ | ⟨path, hheld⟩
  · rcases (h.change hallowed hexec).inode hinode with hinode | ⟨-, hnew, -⟩ | ⟨rfl, -⟩
    · exact Or.inl ⟨o, path, hpath, hinode⟩
    · exact absurd hfile (not_lt.mpr hnew)
    · have hcounts := not_counts_of_private hpath
      rw [counts_object] at hcounts
      cases hcounts
  · rcases h.held_step hallowed hexec hheld with hheld | ⟨hpath, hinode | hnew⟩
    · exact Or.inr ⟨path, hheld⟩
    · exact Or.inl ⟨_, path, hpath, hinode⟩
    · exact absurd hfile (not_lt.mpr hnew)

theorem Good.step (hgood : Good cache calls s₀ oid w file) :
    Good cache calls s₀ oid (s', ⟨i, r, answer⟩ :: w.2) file := by
  obtain ⟨hwritable, f, hf, hrecorded⟩ := hgood
  have hlt : file < w.1.disk.files.length := (List.getElem?_eq_some_iff.mp hf).1
  refine ⟨fun hw => hwritable (writable_step h hallowed hexec hlt hw), ?_⟩
  rcases (h.change hallowed hexec).file hlt with hsame | hfill | ⟨hdigest, -⟩
  · rw [hf] at hsame
    obtain ⟨f', hf', hbytes⟩ := Option.map_eq_some_iff.mp hsame
    refine ⟨f', hf', ?_⟩
    rw [hbytes]
    exact hrecorded.cons _
  · refine absurd ?_ hwritable
    rcases hfill with hinode | hheld
    · exact Or.inl ⟨_, _, Or.inl rfl, hinode⟩
    · exact Or.inr ⟨_, i, hheld⟩
  · refine absurd ?_ hwritable
    rcases hdigest with hinode | hheld
    · exact Or.inl ⟨_, _, Or.inr rfl, hinode⟩
    · exact Or.inr ⟨_, i, hheld⟩

/-- The file of a digest stays one. -/
theorem DigestFile.step (hbeside : DigestFile cache calls s₀ oid w file) :
    DigestFile cache calls s₀ oid (s', ⟨i, r, answer⟩ :: w.2) file := by
  obtain ⟨f, hf, hstated⟩ := hbeside.stated
  have hlt : file < w.1.disk.files.length := (List.getElem?_eq_some_iff.mp hf).1
  have hincoming : ¬ (w.1.disk.inode (incoming (calls i).oid) = some file ∨
      (file, incoming (calls i).oid) ∈ (phase cache i w.2).holds (calls i).oid) := by
    rintro (hinode | hheld)
    · exact incoming_ne_digest _ _ (hbeside.named _ hinode)
    · exact incoming_ne_digest _ _ (hbeside.held _ ⟨i, hheld⟩)
  refine ⟨fun path hinode => ?_, fun path hheld => ?_, ?_⟩
  · rcases (h.change hallowed hexec).inode hinode with hinode | ⟨-, hnew, -⟩ | ⟨-, hinode, -⟩
    · exact hbeside.named path hinode
    · exact absurd hlt (not_lt.mpr hnew)
    · exact absurd (Or.inl hinode) hincoming
  · rcases h.held_step hallowed hexec hheld with hheld | ⟨-, hinode | hnew⟩
    · exact hbeside.held path hheld
    · exact hbeside.named path hinode
    · exact absurd hlt (not_lt.mpr hnew)
  · rcases (h.change hallowed hexec).file hlt with hsame | hfill | ⟨hdigest, bytes, hbytes, hcases⟩
    · rw [hf] at hsame
      obtain ⟨f', hf', hbytes⟩ := Option.map_eq_some_iff.mp hsame
      exact ⟨f', hf', hbytes ▸ hstated.cons _⟩
    · exact absurd hfill hincoming
    · obtain ⟨f', hf', rfl⟩ := Option.map_eq_some_iff.mp hbytes
      refine ⟨f', hf', ?_⟩
      have hoid : (calls i).oid = oid := by
        rcases hdigest with hinode | hheld
        · exact digest_inj (hbeside.named _ hinode)
        · exact digest_inj (hbeside.held _ ⟨i, hheld⟩)
      rcases hcases with hnil | ⟨x, hpart, rfl⟩
      · exact Or.inr (Or.inl hnil)
      · exact Or.inr (Or.inr ⟨x, hpart, i, file, answer, hoid, List.mem_cons_self⟩)

/-- An object stays what it was, unless a file is put in its place. -/
theorem Been.step (hbeen : Been cache calls s₀ oid w file)
    (hplaced : oid = (calls i).oid → next cache (phase cache i w.2) r answer = .placed →
      Replaced cache calls oid w.2) :
    Been cache calls s₀ oid (s', ⟨i, r, answer⟩ :: w.2) file := by
  rcases hbeen with ⟨hfirst, hnot⟩ | ⟨hgood, hreplaced⟩
  · refine Or.inl ⟨hfirst, fun hreplaced => ?_⟩
    rcases replaced_cons hreplaced with hreplaced | ⟨hoid, hnext⟩
    · exact hnot hreplaced
    · exact hnot (hplaced hoid hnext)
  · exact Or.inr ⟨hgood.step h hallowed hexec, hreplaced.cons⟩

/-- What another call knows, or this one if it does not go on. -/
theorem Knows.step {p : Phase} (hknows : Knows cache calls s₀ j w p)
    (hplaced : p.unchecked = true → (calls j).oid = (calls i).oid →
      next cache (phase cache i w.2) r answer = .placed → Replaced cache calls (calls j).oid w.2) :
    Knows cache calls s₀ j (s', ⟨i, r, answer⟩ :: w.2) p := by
  cases p with
  | opened file => exact Been.step h hallowed hexec hknows (hplaced rfl)
  | reading file beside =>
      exact ⟨hknows.1.step h hallowed hexec (hplaced rfl), hknows.2.step h hallowed hexec⟩
  | known file recorded =>
      exact ⟨hknows.1.step h hallowed hexec (hplaced rfl), fun x hx => (hknows.2 x hx).cons _⟩
  | again file recorded file' =>
      refine ⟨?_, fun x hx => (hknows.2 x hx).cons _⟩
      rcases hknows.1 with ⟨hgood, hreplaced⟩ | hfirst
      · exact Or.inl ⟨hgood.step h hallowed hexec, hreplaced.cons⟩
      · exact Or.inr hfirst
  | passed file =>
      exact ⟨hknows.1.step h hallowed hexec, hknows.2.imp_right fun hreplaced => hreplaced.cons⟩
  | noted file taken =>
      obtain ⟨beside, he⟩ := hknows
      exact ⟨beside, List.mem_cons_of_mem _ he⟩
  | _ => trivial

omit h hexec in
/-- No file is put in place of an object that was opened and not checked. -/
theorem Careful.placing (hcareful : Careful cache calls (⟨i, r, answer⟩ :: w.2))
    (hunchecked : (phase cache j w.2).unchecked = true) (hoid : (calls j).oid = (calls i).oid)
    (hnext : next cache (phase cache i w.2) r answer = .placed) :
    Replaced cache calls (calls j).oid w.2 := by
  rcases hallowed.placed (i := i) hnext with hplaced | ⟨-, he⟩
  · exact ⟨i, hoid.symm, hplaced⟩
  · rw [he] at hcareful
    have hchecked := hcareful.2 j hoid
    rw [hunchecked] at hchecked
    cases hchecked

omit hallowed hexec in
/-- What is at the path of a digest. -/
theorem Served.digestFile (hserved : Served cache calls s₀ w)
    (hinode : w.1.disk.inode (Cache.digest oid) = some file) :
    DigestFile cache calls s₀ oid w file :=
  ⟨fun path hpath => h.lent.ordinary.single path _ file hpath hinode,
    fun _ hheld => (h.lent.named file _ _ hheld hinode).symm, hserved.digest oid file hinode⟩

omit h hallowed hexec in
/-- What the check reads in the file of a digest was recorded. -/
theorem DigestFile.tells {f : File} {recorded : Text}
    (hbeside : DigestFile cache calls s₀ oid w file)
    (hf : w.1.disk.file file = some f) (hdecode : utf8Decode f.bytes = some recorded)
    (hfinished : Wrote calls oid f.bytes w.2 → Finished calls oid f.bytes w.2) {x : Oid}
    (htrim : trim isBlank recorded = x.text) : Recorded calls s₀ oid w.2 x := by
  obtain ⟨f', hf', hstated⟩ := hbeside.stated
  rw [hf, Option.some.injEq] at hf'
  subst hf'
  rcases hstated with ⟨f₀, hfind, hbytes⟩ | hnil | ⟨y, hpart, hwrote⟩
  · exact Or.inl ⟨f₀, recorded, hfind, by rw [hbytes, hdecode], htrim⟩
  · have hempty : utf8Decode [] = some [] := utf8Decode_utf8Encode []
    rw [hnil, hempty, Option.some.injEq] at hdecode
    have hlength := x.length_text
    rw [← htrim, ← hdecode] at hlength
    cases hlength
  · obtain ⟨rfl, hbytes⟩ := prefix_digest hpart hdecode htrim
    rw [hbytes] at hfinished
    exact Or.inr (hfinished hwrote)

omit h in
/-- What a call learns by a request, of the state it was made in. -/
theorem Served.learns (hserved : Served cache calls s₀ w) (h : Kept cache calls w)
    (hcareful : Careful cache calls (⟨i, r, answer⟩ :: w.2)) :
    Knows cache calls s₀ i w (next cache (phase cache i w.2) r answer) ∨
      ∃ file taken beside, next cache (phase cache i w.2) r answer = .noted file taken ∧
        (⟨i, r, answer⟩ : Event ι Req Resp) =
          ⟨i, .disk (.write beside (utf8Encode (cache.blake3 taken).text)), .ok ()⟩ := by
  have hknows := hserved.knows i
  generalize hp : phase cache i w.2 = p at hallowed hknows
  cases hallowed with
  | calm hr =>
      rw [next_calm hr]
      exact Or.inl hknows
  | remove => cases p <;> first | exact Or.inl hknows | exact Or.inl trivial
  | «open» =>
      obtain ⟨-, ⟨k, hk, rfl⟩ | ⟨-, rfl⟩ | ⟨-, rfl⟩⟩ := hexec.1.openFile
      · exact Or.inl (hserved.object _ _ hk)
      · exact Or.inl trivial
      · exact Or.inl trivial
  | trust =>
      obtain ⟨rfl, -⟩ := hexec
      by_cases hmem : (calls i).oid.text ∈ w.1.memory.verified
      · rw [decide_eq_true hmem]
        refine Or.inl ?_
        rcases hknows with ⟨hfirst, hnot⟩ | ⟨hgood, hreplaced⟩
        · rcases hserved.verified _ hmem with hreplaced | ⟨file', hfirst', hgood⟩
          · exact absurd hreplaced hnot
          · obtain rfl := Option.some.inj (hfirst.symm.trans hfirst')
            exact ⟨hgood, Or.inl hfirst⟩
        · exact ⟨hgood, Or.inr hreplaced⟩
      · rw [decide_eq_false hmem]
        exact Or.inl hknows
  | check =>
      cases answer with
      | true => exact Or.inl hknows
      | false => exact Or.inl trivial
  | openDigest =>
      obtain ⟨-, ⟨k, hk, rfl⟩ | ⟨-, rfl⟩ | ⟨-, rfl⟩⟩ := hexec.1.openFile
      · exact Or.inl ⟨hknows, hserved.digestFile h hk⟩
      · exact Or.inl trivial
      · exact Or.inl trivial
  | readDigest =>
      obtain ⟨-, ⟨f, hf, rfl⟩ | rfl⟩ := hexec.1.readAll
      · rw [next]
        cases hdecode : utf8Decode f.bytes with
        | none => exact Or.inl trivial
        | some recorded =>
            refine Or.inl ⟨hknows.1, fun x hx => hknows.2.tells hf hdecode ?_ hx⟩
            exact hcareful.2 ⟨_, _, hp⟩
      · exact Or.inl trivial
  | reopen =>
      obtain ⟨-, ⟨k, hk, rfl⟩ | ⟨-, rfl⟩ | ⟨-, rfl⟩⟩ := hexec.1.openFile
      · refine Or.inl ⟨?_, hknows.2⟩
        rcases hknows.1 with ⟨hfirst, hnot⟩ | hgood
        · rcases hserved.object _ _ hk with ⟨hfirst', -⟩ | ⟨-, hreplaced⟩
          · exact Or.inr ⟨hfirst, Option.some.inj (hfirst'.symm.trans hfirst)⟩
          · exact absurd hreplaced hnot
        · exact Or.inl hgood
      · exact Or.inl trivial
      · exact Or.inl trivial
  | readObject =>
      obtain ⟨-, ⟨f, hf, rfl⟩ | rfl⟩ := hexec.1.readAll
      · rw [next]
        split
        · next hmatch =>
            have hrecorded := hknows.2 _ hmatch.symm
            rcases hknows.1 with ⟨hgood, hreplaced⟩ | ⟨hfirst, rfl⟩
            · exact Or.inl ⟨hgood, Or.inr hreplaced⟩
            · exact Or.inl ⟨⟨(hserved.first _ _ hfirst).2, f, hf, hrecorded⟩, Or.inl hfirst⟩
        · exact Or.inl trivial
      · exact Or.inl trivial
  | verify => exact Or.inl hknows
  | touch => exact Or.inl hknows
  | create => cases answer <;> exact Or.inl trivial
  | send => cases answer <;> exact Or.inl trivial
  | note => cases answer <;> exact Or.inl trivial
  | record =>
      cases answer with
      | ok _ => exact Or.inr ⟨_, _, _, rfl, rfl⟩
      | error e => exact Or.inl trivial
  | place => cases answer <;> exact Or.inl trivial

omit [DecidableEq ι] h hallowed in
/-- Only `verify` makes an object verified. -/
theorem verified_step {name : Text} (hmem : name ∈ s'.memory.verified) :
    name ∈ w.1.memory.verified ∨ r = .verify name := by
  cases r with
  | disk r => exact Or.inl (hexec.2 ▸ hmem)
  | writeAt handle offset bytes => exact Or.inl (hexec.1 ▸ hmem)
  | stamp handle => exact Or.inl (hexec.1 ▸ hmem)
  | isVerified name => exact Or.inl (hexec.2 ▸ hmem)
  | startCheck name =>
      rw [hexec.2.2] at hmem
      exact Or.inl hmem
  | verify name =>
      rw [hexec.2] at hmem
      rcases Finset.mem_insert.mp hmem with rfl | hmem
      · exact Or.inr rfl
      · exact Or.inl hmem
  | unverify name =>
      rw [hexec.2] at hmem
      exact Or.inl (Finset.mem_of_mem_erase hmem)
  | endCheck name => rw [hexec.2] at hmem; exact Or.inl hmem
  | hit => rw [hexec.2] at hmem; exact Or.inl hmem
  | miss => rw [hexec.2] at hmem; exact Or.inl hmem
  | grow size => rw [hexec.2] at hmem; exact Or.inl hmem
  | shrink size => rw [hexec.2] at hmem; exact Or.inl hmem

omit h hallowed hexec in
theorem Allowed.verified {p : Phase} {name : Text} (h : Allowed cache oid p (.verify name)) :
    name = oid.text ∧ ∃ file, p = .passed file := by
  cases h with
  | calm hr => exact hr.elim
  | verify => exact ⟨rfl, _, rfl⟩

/-- A file that is put in place is good, and the only one that is there. -/
theorem Served.placed (hserved : Served cache calls s₀ w)
    (hclaimed : Claimed cache calls (⟨i, r, answer⟩ :: w.2)) {taken : Bytes} {k : Nat}
    (hp : phase cache i w.2 = .noted file taken)
    (he : (⟨i, r, answer⟩ : Event ι Req Resp) =
      ⟨i, .disk (.rename (incoming (calls i).oid) (Cache.object (calls i).oid)), .ok ()⟩)
    (hk : s'.disk.inode (Cache.object (calls i).oid) = some k) :
    Good cache calls s₀ (calls i).oid (s', ⟨i, r, answer⟩ :: w.2) k := by
  have hkept : Kept cache calls (s', ⟨i, r, answer⟩ :: w.2) := h.step hclaimed hallowed hexec
  have hfile : (phase cache i w.2).file? = some file := by rw [hp]; rfl
  have hknows := hserved.knows i
  rw [hp] at hknows
  obtain ⟨beside, hwrite⟩ := hknows
  cases he
  rcases hexec.1.rename with ⟨source, hsource, -, hdisk⟩ | ⟨e, hrefused, -⟩
  · obtain rfl := h.staged i file source hfile hsource
    have htarget : s'.disk.find (Cache.object (calls i).oid) = w.1.disk.file source := by
      rw [hdisk, Disk.find_rename_target hsource]
    obtain ⟨f, hf, rfl⟩ := Option.map_eq_some_iff.mp (h.taken i source taken (by rw [hp]; rfl))
    have hkf : s'.disk.file k = some f := by
      rw [← Disk.find_of_inode hk, htarget, hf]
    refine ⟨?_, f, hkf, Or.inr ⟨i, beside, rfl, List.mem_cons_of_mem _ hwrite, List.mem_cons_self⟩⟩
    rintro (⟨o, path, hpath, hinode⟩ | ⟨path, hheld⟩)
    · have hsame := hkept.lent.ordinary.single _ _ k hinode hk
      exact counted_ne (not_counts_of_private hpath) (counts_object _) hsame
    · obtain ⟨o, hpath⟩ := hheld.private
      have hsame := hkept.lent.named k path _ hheld hk
      exact counted_ne (not_counts_of_private hpath) (counts_object _) hsame.symm
  · cases hrefused

/-- **A step** of a run that is claimed and careful. -/
theorem Served.step (hserved : Served cache calls s₀ w)
    (hclaimed : Claimed cache calls (⟨i, r, answer⟩ :: w.2))
    (hcareful : Careful cache calls (⟨i, r, answer⟩ :: w.2)) :
    Served cache calls s₀ (s', ⟨i, r, answer⟩ :: w.2) := by
  have hchange := h.change hallowed hexec
  refine ⟨fun oid file hfirst => ?_, fun oid file hinode => ?_, fun oid hmem => ?_,
    fun oid file hinode => ?_, fun j => ?_⟩
  · obtain ⟨hlt, hnot⟩ := hserved.first oid file hfirst
    exact ⟨lt_of_lt_of_le hlt hchange.length,
      fun hwritable => hnot (writable_step h hallowed hexec hlt hwritable)⟩
  · by_cases hnew : oid = (calls i).oid ∧
        next cache (phase cache i w.2) r answer = .placed ∧ phase cache i w.2 ≠ .placed
    · obtain ⟨rfl, hnext, hne⟩ := hnew
      rcases hallowed.placed (i := i) hnext with hplaced | ⟨⟨file', taken, hp⟩, he⟩
      · exact absurd hplaced hne
      · refine Or.inr ⟨hserved.placed h hallowed hexec hclaimed hp he hinode, i, rfl, ?_⟩
        rw [phase_self, hnext]
    · rcases hchange.inode hinode with hinode | ⟨hpath, -⟩ | ⟨hpath, -, hnext, hne⟩
      · refine (hserved.object oid file hinode).step h hallowed hexec fun hoid hnext => ?_
        exact ⟨i, hoid.symm, not_not.mp fun hne => hnew ⟨hoid, hnext, hne⟩⟩
      · exact absurd rfl (counted_ne (not_counts_of_private hpath) (counts_object oid))
      · exact absurd ⟨object_inj hpath, hnext, hne⟩ hnew
  · rcases verified_step hexec hmem with hmem | rfl
    · rcases hserved.verified oid hmem with hreplaced | ⟨file, hfirst, hgood⟩
      · exact Or.inl hreplaced.cons
      · exact Or.inr ⟨file, hfirst, hgood.step h hallowed hexec⟩
    · obtain ⟨htext, file, hp⟩ := hallowed.verified
      obtain rfl := Oid.ext htext
      have hknows := hserved.knows i
      rw [hp] at hknows
      obtain ⟨hgood, hfirst | hreplaced⟩ := hknows
      · exact Or.inr ⟨file, hfirst, hgood.step h hallowed hexec⟩
      · exact Or.inl hreplaced.cons
  · rcases hchange.inode hinode with hinode | ⟨-, -, hnil⟩ | ⟨hpath, -⟩
    · exact ((hserved.digestFile h hinode).step h hallowed hexec).stated
    · obtain ⟨f, hf, hbytes⟩ := Option.map_eq_some_iff.mp hnil
      exact ⟨f, hf, Or.inr (Or.inl hbytes)⟩
    · exact absurd hpath (counted_ne (counts_digest oid) (counts_object _))
  · by_cases hji : j = i
    · subst hji
      rw [phase_self]
      rcases hserved.learns hallowed hexec h hcareful with hknows | ⟨file, taken, beside, hnext, he⟩
      · refine hknows.step h hallowed hexec fun hunchecked _ hnext => ?_
        rw [hnext] at hunchecked
        cases hunchecked
      · rw [hnext, he]
        exact ⟨beside, List.mem_cons_self⟩
    · rw [phase_other hji]
      exact (hserved.knows j).step h hallowed hexec fun hunchecked hoid hnext =>
        hcareful.placing hallowed hunchecked hoid hnext

end

end

/-! ## Calls among others -/

section

variable {ι : Type} [DecidableEq ι] (cache : Cache) (calls : ι → Call) (s₀ : Shared)
  (may : Req → Prop)

/-- The ledger of a cache: every event, and what holds if the run is claimed and careful. -/
def ledger : Ledger ι Req Resp Shared (Event ι Req Resp) where
  exec := fun _ => Answers may
  entry i r _ answer := ⟨i, r, answer⟩
  Allowed i past r := Allowed cache (calls i).oid (phase cache i past) r
  Sound w := Claimed cache calls w.2 →
    Kept cache calls w ∧ (Careful cache calls w.2 → Served cache calls s₀ w)
  step := by
    intro i r w answer s' hsound hallowed hexec hclaimed
    obtain ⟨hkept, hserved⟩ := hsound hclaimed.1
    exact ⟨hkept.step hclaimed hallowed hexec, fun hcareful =>
      (hserved hcareful.1).step hkept hallowed hexec hclaimed hcareful⟩

end

section

variable {ι : Type} [DecidableEq ι] {cache : Cache} {calls : ι → Call} {s₀ : Shared}
  {may : Req → Prop} {i : ι} {w : World ι} {α β ε : Type} {known : Phase}

/-- A request that is allowed, whose error is taken for an answer. -/
theorem caught_among {r : Req} {h : Resp r = Except ε α} {f : Except ε α → Op β}
    {Q : β → Past ι → Prop} (hallowed : Allowed cache (calls i).oid known r)
    (hw : (ledger cache calls s₀ may).Sound w) (hk : phase cache i w.2 = known)
    (hf : ∀ answer w, (ledger cache calls s₀ may).Sound w →
      phase cache i w.2 = next cache known r answer →
      (ledger cache calls s₀ may).Among i Q (f (cast h answer)) w) :
    (ledger cache calls s₀ may).Among i Q ((Fallible.ask r h : Fallible ε Req Resp α).caught >>= f)
      w := by
  have hlogs : (ledger cache calls s₀ may).Logs := fun _ _ _ _ => rfl
  refine Ledger.Tells.caught (P := fun answer past => ∃ a, answer = cast h a ∧
    phase cache i past = next cache known r a) ?_ ?_
  · exact Ledger.Tells.trailing hlogs
      (Q := fun answer p => ∃ a, answer = cast h a ∧ p = next cache known r a)
      (fun past hpast => by subst hpast; exact hallowed)
      (fun _ answer _ _ => ⟨answer, rfl, rfl⟩) hw hk
  · rintro _ w hw ⟨answer, rfl, hphase⟩
    exact hf answer w hw hphase

/-- A request that is allowed, whose error is the error of the call. -/
theorem mapped_among {r : Req} {h : Resp r = Except Refused α} {f : α → Op β}
    {Q : β → Past ι → Prop} (hallowed : Allowed cache (calls i).oid known r)
    (hw : (ledger cache calls s₀ may).Sound w) (hk : phase cache i w.2 = known)
    (hf : ∀ a w, (ledger cache calls s₀ may).Sound w →
      phase cache i w.2 = next cache known r (cast h.symm (.ok a)) →
      (ledger cache calls s₀ may).Among i Q (f a) w) :
    (ledger cache calls s₀ may).Among i Q (io (Fallible.ask r h) >>= f) w := by
  have hlogs : (ledger cache calls s₀ may).Logs := fun _ _ _ _ => rfl
  refine Ledger.Among.bind (P := fun a past =>
    phase cache i past = next cache known r (cast h.symm (.ok a))) ?_ hf
  refine Ledger.Among.mapError (fun a => hlogs.stays (· = _)) ?_
  exact Ledger.Among.trailing hlogs
    (Q := fun a p => p = next cache known r (cast h.symm (.ok a)))
    (fun past hpast => by subst hpast; exact hallowed) (fun _ => rfl) hw hk

/-- A step on a field. -/
theorem step_among {r : Req} {f : Resp r → Op β} {Q : β → Past ι → Prop}
    (hallowed : Allowed cache (calls i).oid known r)
    (hw : (ledger cache calls s₀ may).Sound w) (hk : phase cache i w.2 = known)
    (hf : ∀ answer w, (ledger cache calls s₀ may).Sound w →
      phase cache i w.2 = next cache known r answer →
      (ledger cache calls s₀ may).Among i Q (f answer) w) :
    (ledger cache calls s₀ may).Among i Q (step r >>= f) w := by
  have hlogs : (ledger cache calls s₀ may).Logs := fun _ _ _ _ => rfl
  refine Ledger.Among.bind (P := fun answer past =>
    phase cache i past = next cache known r answer) ?_ hf
  exact Ledger.Among.trailing_certain hlogs (Q := fun answer p => p = next cache known r answer)
    (fun past hpast => by subst hpast; exact hallowed) (fun _ => rfl) hw hk

/-- What an open knows of the file it serves. -/
def Passed (cache : Cache) (i : ι) (answer : Option Nat) (past : Past ι) : Prop :=
  ∀ file, answer = some file → phase cache i past = .passed file

theorem stays_passed (answer : Option Nat) :
    (ledger cache calls s₀ may).Stays i (Passed cache i answer) := by
  intro j r s given past hj hpassed file hfile
  exact (phase_other hj.symm).trans (hpassed file hfile)

theorem missed_among (hw : (ledger cache calls s₀ may).Sound w) :
    (ledger cache calls s₀ may).Among i (Passed cache i) missed w := by
  refine step_among (.calm trivial) hw rfl fun _ w hw _ => ?_
  refine Ledger.Among.pure (stays_passed none) hw ?_
  rintro _ ⟨⟩

theorem served_among {oid : Oid} {file : Nat} (hoid : (calls i).oid = oid)
    (hw : (ledger cache calls s₀ may).Sound w) (hk : phase cache i w.2 = .passed file) :
    (ledger cache calls s₀ may).Among i (Passed cache i) (served oid file) w := by
  subst hoid
  have hlogs : (ledger cache calls s₀ may).Logs := fun _ _ _ _ => rfl
  have hhit : ∀ w, (ledger cache calls s₀ may).Sound w → phase cache i w.2 = .passed file →
      (ledger cache calls s₀ may).Among i (Passed cache i)
        (do step .hit; return some file) w := by
    intro w hw hk
    refine step_among (.calm trivial) hw hk fun _ w hw hk => ?_
    refine Ledger.Among.pure (stays_passed _) hw ?_
    rintro _ ⟨⟩
    exact hk
  refine Ledger.Among.bind (P := fun _ past => phase cache i past = .passed file) ?_
    fun _ w hw hk => hhit w hw hk
  refine caught_among .touch hw hk fun answer w hw hk => ?_
  cases answer with
  | error e => exact Ledger.Among.pure (hlogs.stays (· = _)) hw hk
  | ok beside =>
      refine caught_among (.calm trivial) hw hk fun _ w hw hk => ?_
      exact Ledger.Among.pure (hlogs.stays (· = _)) hw (hk.trans (next_calm trivial))

/-! ### Requests that any call may make -/

/-- The requests of a call that is not reading and not filling. -/
def Req.Free (r : Req) : Prop := r.Calm ∨ ∃ path, r = .disk (.unlink path)

theorem free_among {op : Op α} (h : op.Only Req.Free (fun _ _ => True) fun _ => True)
    (hw : (ledger cache calls s₀ may).Sound w) :
    (ledger cache calls s₀ may).Among i (fun _ _ => True) op w := by
  refine Fallible.Under.mono (Fallible.Only.under (P := (ledger cache calls s₀ may).Sound) h
    Ledger.stable_sound ?_ hw fun _ hs => hs) (fun _ _ hs => ⟨hs.1, trivial⟩) fun _ hs => hs
  intro r hr w answer w' hw hexec
  have hallowed : (ledger cache calls s₀ may).Allowed i w.2 r := by
    rcases hr with hr | ⟨path, rfl⟩
    · exact .calm hr
    · exact .remove
  have hdoes : (ledger cache calls s₀ may).Does i w w' := ⟨hw, r, answer, hallowed, hexec⟩
  exact ⟨hdoes, hdoes.step.1, trivial⟩

theorem discard_free (oid : Oid) : (discard oid).Only Req.Free (fun _ _ => True) fun _ => True := by
  refine Fallible.Only.caught (Or.inr ⟨_, rfl⟩) fun _ _ => ?_
  exact Fallible.Only.caught (Or.inr ⟨_, rfl⟩) fun _ _ => Fallible.Only.pure trivial

theorem survey_free (listing : List LocalPath) (found : List Found) :
    (survey listing found).Only Req.Free (fun _ _ => True) fun _ => True := by
  induction listing generalizing found with
  | nil => exact Fallible.Only.pure trivial
  | cons path rest ih =>
      rw [survey]
      split
      · exact ih found
      · refine Fallible.Only.caught (Or.inl trivial) fun answer _ => ?_
        cases answer with
        | error e => exact ih found
        | ok m => exact Fallible.Only.caught (Or.inl trivial) fun _ _ => ih _

theorem removeOldest_free (total : Nat) (found : List Found) :
    (cache.removeOldest total found).Only Req.Free (fun _ _ => True) fun _ => True := by
  induction found generalizing total with
  | nil => exact Fallible.Only.pure trivial
  | cons entry rest ih =>
      rw [removeOldest]
      split
      · exact Fallible.Only.pure trivial
      · refine Fallible.Only.caught (Or.inr ⟨_, rfl⟩) fun answer _ => ?_
        cases answer with
        | error e => exact ih total
        | ok _ =>
            refine Fallible.Only.caught (Or.inr ⟨_, rfl⟩) fun _ _ => ?_
            refine Fallible.Only.certain (Or.inl trivial) fun _ _ => ?_
            exact Fallible.Only.certain (Or.inl trivial) fun _ _ => ih _

theorem evict_free : cache.evict.Only Req.Free (fun _ _ => True) fun _ => True := by
  refine Fallible.Only.caught (Or.inl trivial) fun answer _ => ?_
  match answer with
  | .error _ => exact Fallible.Only.pure trivial
  | .ok (listing, whole) =>
      refine Fallible.Only.bind (survey_free listing []) fun found _ => ?_
      split
      · exact Fallible.Only.pure trivial
      · exact removeOldest_free _ _

/-! ### Opening -/

/-- The end of a check that failed. -/
theorem discarded_among {oid : Oid} (hw : (ledger cache calls s₀ may).Sound w) :
    (ledger cache calls s₀ may).Among i (Passed cache i) (do discard oid; missed) w :=
  Ledger.Among.bind (free_among (discard_free oid) hw) fun _ _ hw _ => missed_among hw

theorem readDigest_among {file : Nat} (hw : (ledger cache calls s₀ may).Sound w)
    (hk : phase cache i w.2 = .opened file) :
    (ledger cache calls s₀ may).Among i
      (fun recorded past => ∀ text, recorded = some text → phase cache i past = .known file text)
      (readToString (digest (calls i).oid)) w := by
  have hstays : ∀ recorded : Option Text, (ledger cache calls s₀ may).Stays i
      fun past => ∀ text, recorded = some text → phase cache i past = .known file text := by
    intro recorded j r s given past hj hknown text htext
    exact (phase_other hj.symm).trans (hknown text htext)
  refine caught_among .openDigest hw hk fun answer w hw hk => ?_
  match answer with
  | .error e =>
      refine Ledger.Among.pure (hstays none) hw ?_
      rintro _ ⟨⟩
  | .ok beside =>
      refine caught_among .readDigest hw hk fun answer w hw hk => ?_
      match answer with
      | .error e =>
          refine Ledger.Among.pure (hstays none) hw ?_
          rintro _ ⟨⟩
      | .ok bytes =>
          refine Ledger.Among.pure (hstays _) hw fun text htext => ?_
          rw [next, htext] at hk
          exact hk

theorem readObject_among {file : Nat} {recorded : Text}
    (hw : (ledger cache calls s₀ may).Sound w)
    (hk : phase cache i w.2 = .known file recorded) :
    (ledger cache calls s₀ may).Among i
      (fun content past => ∀ bytes, content = some bytes →
        (cache.blake3 bytes).text = trim isBlank recorded → phase cache i past = .passed file)
      (readBytes (object (calls i).oid)) w := by
  have hstays : ∀ content : Option Bytes, (ledger cache calls s₀ may).Stays i
      fun past => ∀ bytes, content = some bytes →
        (cache.blake3 bytes).text = trim isBlank recorded → phase cache i past = .passed file := by
    intro content j r s given past hj hpassed bytes hbytes hmatch
    exact (phase_other hj.symm).trans (hpassed bytes hbytes hmatch)
  refine caught_among .reopen hw hk fun answer w hw hk => ?_
  match answer with
  | .error e =>
      refine Ledger.Among.pure (hstays none) hw ?_
      rintro _ ⟨⟩
  | .ok file' =>
      refine caught_among .readObject hw hk fun answer w hw hk => ?_
      match answer with
      | .error e =>
          refine Ledger.Among.pure (hstays none) hw ?_
          rintro _ ⟨⟩
      | .ok bytes =>
          refine Ledger.Among.pure (hstays _) hw ?_
          rintro _ ⟨⟩ hmatch
          rw [next, if_pos hmatch] at hk
          exact hk

/-- The check knows that the file it was begun for may be served, or it fails. -/
theorem intact_among {file : Nat} (hw : (ledger cache calls s₀ may).Sound w)
    (hk : phase cache i w.2 = .opened file) :
    (ledger cache calls s₀ may).Among i
      (fun intact past => intact = true → phase cache i past = .passed file)
      (cache.intact (calls i).oid) w := by
  have hstays : ∀ intact : Bool, (ledger cache calls s₀ may).Stays i
      fun past => intact = true → phase cache i past = .passed file := by
    intro intact j r s given past hj hpassed hintact
    exact (phase_other hj.symm).trans (hpassed hintact)
  have hfailed : ∀ w, (ledger cache calls s₀ may).Sound w →
      (ledger cache calls s₀ may).Among i
        (fun intact past => intact = true → phase cache i past = .passed file)
        (return false : Op Bool) w := by
    intro w hw
    refine Ledger.Among.pure (hstays false) hw ?_
    rintro ⟨⟩
  refine Ledger.Among.bind (readDigest_among hw hk) fun recorded w hw hknown => ?_
  cases recorded with
  | none => exact hfailed w hw
  | some recorded =>
      refine Ledger.Among.bind (readObject_among hw (hknown recorded rfl))
        fun content w hw hmatch => ?_
      cases content with
      | none => exact hfailed w hw
      | some bytes =>
          refine Ledger.Among.pure (hstays _) hw fun hintact => ?_
          exact hmatch bytes rfl (of_decide_eq_true hintact)

theorem open_among (hw : (ledger cache calls s₀ may).Sound w)
    (hk : phase cache i w.2 = .idle) :
    (ledger cache calls s₀ may).Among i (Passed cache i) (cache.open (calls i).oid) w := by
  refine caught_among .open hw hk fun answer w hw hk => ?_
  match answer with
  | .error e => exact missed_among hw
  | .ok file =>
      refine step_among .trust hw hk fun verified w hw hk => ?_
      cases verified with
      | true => exact served_among rfl hw hk
      | false =>
          refine step_among .check hw hk fun first w hw hk => ?_
          cases first with
          | false => exact missed_among hw
          | true =>
              refine Ledger.Among.bind (intact_among hw hk) fun intact w hw hpassed => ?_
              cases intact with
              | false =>
                  exact step_among (.calm trivial) hw rfl fun _ w hw _ => discarded_among hw
              | true =>
                  refine step_among (.calm trivial) hw (hpassed rfl) fun _ w hw hk => ?_
                  refine step_among .verify hw (hk.trans (next_calm trivial)) fun _ w hw hk => ?_
                  exact served_among rfl hw hk

/-! ### Filling -/

theorem receive_among {file : Nat} (chunks : List (Except Error Bytes)) {taken : Bytes}
    (hw : (ledger cache calls s₀ may).Sound w)
    (hk : phase cache i w.2 = .staging file taken) :
    (ledger cache calls s₀ may).Among i
      (fun all past => phase cache i past = .staging file all) (receive file chunks taken) w := by
  have hlogs : (ledger cache calls s₀ may).Logs := fun _ _ _ _ => rfl
  induction chunks generalizing taken w with
  | nil => exact Ledger.Among.pure (hlogs.stays (· = _)) hw hk
  | cons chunk rest ih =>
      cases chunk with
      | error e => exact Ledger.Among.throw hw
      | ok chunk => exact mapped_among .send hw hk fun _ w hw hk => ih hw hk

theorem stage_among (size : Nat) (chunks : List (Except Error Bytes))
    (hw : (ledger cache calls s₀ may).Sound w) (hk : phase cache i w.2 = .idle) :
    (ledger cache calls s₀ may).Among i (fun _ past => phase cache i past = .placed)
      (cache.stage (calls i).oid size chunks) w := by
  have hlogs : (ledger cache calls s₀ may).Logs := fun _ _ _ _ => rfl
  refine mapped_among .create hw hk fun file w hw hk => ?_
  refine Ledger.Among.bind (receive_among chunks hw hk) fun taken w hw hk => ?_
  split
  · exact Ledger.Among.throw hw
  · refine mapped_among .note hw hk fun beside w hw hk => ?_
    refine mapped_among .record hw hk fun _ w hw hk => ?_
    refine mapped_among .place hw hk fun _ w hw hk => ?_
    refine Ledger.Among.trailing_certain hlogs (Q := fun _ p => p = .placed) ?_ ?_ hw hk
    · intro past _
      exact .calm trivial
    · intro _
      exact next_calm trivial

theorem fill_among (size : Nat) (chunks : List (Except Error Bytes))
    (hw : (ledger cache calls s₀ may).Sound w) (hk : phase cache i w.2 = .idle) :
    (ledger cache calls s₀ may).Among i (fun _ _ => True)
      (cache.fill (calls i).oid size chunks) w := by
  refine Ledger.Among.attempt (stage_among size chunks hw hk) (fun _ w hw _ => ?_)
    fun e w hw => ?_
  · exact free_among evict_free hw
  · exact caught_among .remove hw rfl fun _ w hw _ => Ledger.Among.throw hw

/-- Every call keeps to the ledger, and an open to what it knows. -/
theorem call_among {call : Call} (hcall : calls i = call)
    (hw : (ledger cache calls s₀ may).Sound w) (hk : phase cache i w.2 = .idle) :
    (ledger cache calls s₀ may).Among i
      (fun answer past => (∃ oid, call = .open oid) → Passed cache i answer past)
      (call.op cache) w := by
  have hstays : ∀ answer, (ledger cache calls s₀ may).Stays i
      fun past => (∃ oid, call = .open oid) → Passed cache i answer past := by
    intro answer j r s given past hj hpassed hopen file hfile
    exact (phase_other hj.symm).trans (hpassed hopen file hfile)
  have hother : ∀ w, (ledger cache calls s₀ may).Sound w → (∀ oid, call ≠ .open oid) →
      (ledger cache calls s₀ may).Among i
        (fun answer past => (∃ oid, call = .open oid) → Passed cache i answer past)
        (return none : Op (Option Nat)) w := by
    intro w hw hne
    refine Ledger.Among.pure (hstays none) hw ?_
    rintro ⟨oid, hoid⟩
    exact absurd hoid (hne oid)
  have hoid : (calls i).oid = call.oid := congrArg Call.oid hcall
  cases call with
  | «open» oid =>
      have hopen := open_among hw hk
      rw [hoid] at hopen
      exact Ledger.Among.mono hopen fun _ _ hpassed _ => hpassed
  | fill oid size chunks =>
      have hfill := fill_among size chunks hw hk
      rw [hoid] at hfill
      exact Ledger.Among.bind hfill fun _ w hw _ => hother w hw fun _ => Call.noConfusion
  | evict =>
      exact Ledger.Among.bind (free_among evict_free hw) fun _ w hw _ =>
        hother w hw fun _ => Call.noConfusion
  | discard oid =>
      exact Ledger.Among.bind (free_among (discard_free oid) hw) fun _ w hw _ =>
        hother w hw fun _ => Call.noConfusion

/-! ## Every file that is served -/

/-- A process that has just been started, on an ordinary directory. -/
structure Fresh (s : Shared) : Prop where
  ordinary : Ordinary s.disk
  verified : s.memory.verified = ∅

theorem fresh_sound (hfresh : Fresh s₀) : (ledger cache calls s₀ may).Sound (s₀, []) := by
  have hnone : ∀ file path, ¬ Held cache calls ([] : Past ι) file path := by
    rintro file path ⟨i, hi⟩
    cases hi
  have hreplaced : ∀ oid, ¬ Replaced cache calls oid ([] : Past ι) := by
    rintro oid ⟨k, -, hk⟩
    cases hk
  intro _
  refine ⟨⟨⟨hfresh.ordinary, ?_, ?_, ?_⟩, ?_, ?_, ?_⟩, fun _ => ⟨?_, ?_, ?_, ?_, ?_⟩⟩
  · exact fun file path hheld => absurd hheld (hnone file path)
  · exact fun file path p hheld => absurd hheld (hnone file path)
  · exact fun file path path' hheld => absurd hheld (hnone file path)
  · rintro i j file file' ⟨⟩
  · rintro i file k ⟨⟩
  · rintro i file bytes ⟨⟩
  · refine fun oid file hfirst => ⟨Disk.inode_lt hfirst, ?_⟩
    rintro (⟨o, path, hpath, hinode⟩ | ⟨path, hheld⟩)
    · exact counted_ne (not_counts_of_private hpath) (counts_object oid)
        (hfresh.ordinary.single _ _ file hinode hfirst)
    · exact hnone file path hheld
  · exact fun oid file hinode => Or.inl ⟨hinode, hreplaced oid⟩
  · intro oid hmem
    rw [hfresh.verified] at hmem
    cases hmem
  · intro oid file hinode
    obtain ⟨f, hf⟩ := Disk.exists_file hinode
    exact ⟨f, hf, Or.inl ⟨f, Disk.find_eq_some.mpr ⟨file, hinode, hf⟩, rfl⟩⟩
  · exact fun i => trivial

/-- **What is served was recorded.**  In every run that is claimed and careful, a file that an
open has returned reads as what a completed fill recorded for the object. -/
theorem served_recorded {pool : Pool ι Req Resp (Except Error (Option Nat)) (World ι)}
    {oid : Oid} {file : Nat} (hfresh : Fresh s₀)
    (hsteps : Pool.Steps (recording fun _ => Answers may)
      ⟨fun i => ((calls i).op cache).run, (s₀, [])⟩ pool)
    (hclaimed : Claimed cache calls pool.state.2) (hcareful : Careful cache calls pool.state.2)
    (hcall : calls i = .open oid) (hserved : pool.progs i = .pure (.ok (some file))) :
    ∃ f, pool.state.1.disk.file file = some f ∧
      Recorded calls s₀ oid pool.state.2 (cache.blake3 f.bytes) := by
  have hsound : (ledger cache calls s₀ may).Sound (s₀, []) := fresh_sound hfresh
  obtain ⟨hreached, hends⟩ := Ledger.reached hsound
    (fun i => call_among rfl hsound rfl) hsteps
  have hpassed := hends i _ hserved ⟨oid, hcall⟩ file rfl
  have hknows := ((hreached hclaimed).2 hcareful).knows i
  rw [hpassed] at hknows
  obtain ⟨-, f, hf, hrecorded⟩ := hknows.1
  rw [congrArg Call.oid hcall] at hrecorded
  exact ⟨f, hf, hrecorded⟩

end

/-! ## Two runs -/

section

variable {ι : Type}

/-- A disk that refuses nothing, with what was done written down. -/
def playing (i : ι) (r : Req) (w : World ι) : Option (Resp r × World ι) :=
  some ((respond r w.1).1, (respond r w.1).2, ⟨i, r, (respond r w.1).1⟩ :: w.2)

theorem playing_answers (may : Req → Prop) (i : ι) (r : Req) (w : World ι)
    (answered : Resp r × World ι) (h : playing i r w = some answered) :
    recording (fun _ => Answers may) i r w answered.1 answered.2 := by
  cases h
  exact ⟨respond_answers may r w.1, rfl⟩

/-- The call has returned this. -/
def returned (file? : Option Nat) (prog : Program Req Resp (Except Error (Option Nat))) : Bool :=
  prog.result.any fun answer => answer.toOption == some file?

theorem eq_of_returned {file? : Option Nat}
    {prog : Program Req Resp (Except Error (Option Nat))} (h : returned file? prog = true) :
    prog = .pure (.ok file?) := by
  obtain ⟨answer, hresult, hanswer⟩ := (Option.any_eq_true _ _).mp h
  cases answer with
  | error e => cases hanswer
  | ok file =>
      obtain rfl : file = file? := Option.some.inj (beq_iff_eq.mp hanswer)
      exact Program.eq_pure_of_result hresult

/-- The digests that were written. -/
def written (past : Past ι) : List Bytes :=
  past.filterMap fun e => match e.req with
    | .disk (.write _ bytes) => some bytes
    | _ => none

theorem Finished.mem_written {calls : ι → Call} {oid : Oid} {bytes : Bytes} {past : Past ι}
    (h : Finished calls oid bytes past) : bytes ∈ written past := by
  obtain ⟨k, beside, -, hwrite, -⟩ := h
  exact List.mem_filterMap.mpr ⟨_, hwrite, rfl⟩

variable [DecidableEq ι]

/-- The event is a write of these bytes for the object. -/
def writes (calls : ι → Call) (oid : Oid) (bytes : Bytes) : Event ι Req Resp → Bool
  | ⟨k, .disk (.write _ given), _⟩ => (calls k).oid == oid && given == bytes
  | _ => false

/-- The event is a write of these bytes by the thread, which the disk did. -/
def wroteWell (k : ι) (bytes : Bytes) : Event ι Req Resp → Bool
  | ⟨i, .disk (.write _ given), .ok ()⟩ => i == k && given == bytes
  | _ => false

/-- The thread put the object in place. -/
def placedWell (k : ι) (oid : Oid) : Event ι Req Resp → Bool
  | ⟨i, .disk (.rename source target), .ok ()⟩ =>
      i == k && source == incoming oid && target == object oid
  | _ => false

omit [DecidableEq ι] in
theorem Wrote.any {calls : ι → Call} {oid : Oid} {bytes : Bytes} {past : Past ι}
    (h : Wrote calls oid bytes past) : past.any (writes calls oid bytes) = true := by
  obtain ⟨k, beside, answer, hk, he⟩ := h
  refine List.any_eq_true.mpr ⟨_, he, ?_⟩
  simp only [writes, hk, beq_self_eq_true, Bool.and_self]

theorem finished_of_any {calls : ι → Call} {oid : Oid} {bytes : Bytes} {past : Past ι} {k : ι}
    (hk : (calls k).oid = oid) (hwrote : past.any (wroteWell k bytes) = true)
    (hplaced : past.any (placedWell k oid) = true) : Finished calls oid bytes past := by
  obtain ⟨e, he, hwrite⟩ := List.any_eq_true.mp hwrote
  obtain ⟨e', he', hplace⟩ := List.any_eq_true.mp hplaced
  unfold wroteWell at hwrite
  unfold placedWell at hplace
  split at hwrite
  case h_2 => cases hwrite
  case h_1 i beside given =>
    split at hplace
    case h_2 => cases hplace
    case h_1 i' source target =>
      simp only [Bool.and_eq_true, beq_iff_eq] at hwrite hplace
      obtain ⟨rfl, rfl⟩ := hwrite
      obtain ⟨⟨rfl, rfl⟩, rfl⟩ := hplace
      exact ⟨_, beside, hk, he, he'⟩

/-- The phase of a call that has its digest open. -/
def Phase.isReading : Phase → Bool
  | .reading _ _ => true
  | _ => false

/-- A step of a `Careful` run. -/
def isMindful [Fintype ι] (cache : Cache) (calls : ι → Call) (past : Past ι) :
    Event ι Req Resp → Bool
  | ⟨i, .disk (.rename _ _), .ok ()⟩ =>
      decide (∀ j, (calls j).oid = (calls i).oid → (phase cache j past).unchecked = false)
  | ⟨i, .disk (.readAll _), .ok bytes⟩ =>
      !(phase cache i past).isReading || !past.any (writes calls (calls i).oid bytes) ||
        decide (∃ k, (calls k).oid = (calls i).oid ∧ past.any (wroteWell k bytes) = true ∧
          past.any (placedWell k (calls i).oid) = true)
  | _ => true

/-- `Careful`, read off a run of the threads there are. -/
def isCareful [Fintype ι] (cache : Cache) (calls : ι → Call) : Past ι → Bool
  | [] => true
  | e :: past => isCareful cache calls past && isMindful cache calls past e

theorem careful_of_isCareful [Fintype ι] {cache : Cache} {calls : ι → Call} {past : Past ι}
    (h : isCareful cache calls past = true) : Careful cache calls past := by
  induction past with
  | nil => trivial
  | cons e past ih =>
      rw [isCareful, Bool.and_eq_true] at h
      obtain ⟨hpast, he⟩ := h
      refine ⟨ih hpast, ?_⟩
      unfold isMindful at he
      split at he
      case h_1 i source target => exact of_decide_eq_true he
      case h_2 i file bytes =>
        rintro ⟨file, beside, hreading⟩ hwrote
        rw [hreading, hwrote.any, Bool.or_eq_true, decide_eq_true_eq] at he
        obtain ⟨k, hk, hwrite, hplace⟩ := he.resolve_left Bool.false_ne_true
        exact finished_of_any hk hwrite hplace
      case h_3 => trivial

end

/-- A digest of its own for one byte. -/
def oneByte : Cache := ⟨100, fun bytes => if bytes = [1] then .zeros else Oid.ones⟩

/-- An object of one byte, beside the digest of `[1]`. -/
def stored (byte : UInt8) : Shared where
  disk := (((Disk.empty.add (object .zeros) 0).fill 0 [byte] 0).add (digest .zeros) 0).fill 1
    (utf8Encode Oid.zeros.text) 0
  memory := ⟨∅, ∅, 1, 0, 0⟩

theorem fresh_stored (byte : UInt8) : Fresh (stored byte) := by
  have hobject : Ordinary ((Disk.empty.add (object .zeros) 0).fill 0 [byte] 0) :=
    (ordinary_empty.add Oid.zeros.text).congr fun path => Disk.inode_fill path
  exact ⟨(hobject.add (sidecar Oid.zeros.text)).congr fun path => Disk.inode_fill path, rfl⟩

/-- One thread opens the object, and the other fills it. -/
def openAndFill : Bool → Call
  | true => .open .zeros
  | false => .fill .zeros 1 [.ok [1]]

/-- Two opens of an object, one before and one after it is filled, and beside them an eviction and
a discard. -/
inductive Party where
  | early
  | filler
  | late
  | evictor
  | remover
deriving DecidableEq

def parties : List Party := [.early, .filler, .late, .evictor, .remover]

theorem mem_parties (party : Party) : party ∈ parties := by
  cases party <;> decide

instance : Fintype Party := .ofList parties mem_parties

def callOf : Party → Call
  | .early => .open .zeros
  | .filler => .fill .zeros 1 [.ok [1]]
  | .late => .open .zeros
  | .evictor => .evict
  | .remover => .discard .zeros

/-- A cache with room for nothing. -/
def roomless : Cache := { oneByte with ceiling := 0 }

/-- The first open finds the object rotted while it is being filled, and removes it.  The second
has checked what was filled when an eviction and a discard remove that. -/
def oneAfterTheOther : List Party :=
  [.filler, .early, .early, .filler, .early, .evictor] ++ List.replicate 8 .early ++
    [.filler, .filler, .filler, .late, .filler, .late, .late, .evictor, .late, .filler] ++
    [.late, .late, .late, .evictor, .evictor, .remover, .evictor, .remover, .late, .evictor] ++
    [.late, .late, .evictor, .late, .filler]

/-- What the second open serves was recorded, and is not under its name any more. -/
theorem served_recorded_beside :
    ∃ pool, Pool.play playing oneAfterTheOther
        ⟨fun i => ((callOf i).op roomless).run, (stored 9, [])⟩ = some pool ∧
      (∀ party, (pool.progs party).result.isSome = true) ∧
      pool.state.1.disk.find (object .zeros) = none ∧
      ∃ f, pool.state.1.disk.file 2 = some f ∧
        Recorded callOf (stored 9) .zeros pool.state.2 (roomless.blake3 f.bytes) := by
  have hrun : ((Pool.play playing oneAfterTheOther
      ⟨fun i => ((callOf i).op roomless).run, (stored 9, [])⟩).any fun pool =>
        decide (Claimed roomless callOf pool.state.2) && isCareful roomless callOf pool.state.2 &&
          returned (some 2) (pool.progs .late) &&
          decide (∀ party, (pool.progs party).result.isSome = true) &&
          pool.state.1.disk.find (object .zeros) == none) = true := by decide +kernel
  obtain ⟨pool, hplay, hcheck⟩ := (Option.any_eq_true _ _).mp hrun
  simp only [Bool.and_eq_true, decide_eq_true_eq, beq_iff_eq] at hcheck
  obtain ⟨⟨⟨⟨hclaimed, hcareful⟩, hserved⟩, hreturned⟩, hgone⟩ := hcheck
  exact ⟨pool, hplay, hreturned, hgone, served_recorded (fresh_stored 9)
    (Pool.play_steps (playing_answers fun _ => False) hplay) hclaimed
    (careful_of_isCareful hcareful) (show callOf .late = _ from rfl) (eq_of_returned hserved)⟩

/-- **What rotted is served.**  The open has the rotted file when the fill puts a good one in
place, and the check reads the good one. -/
theorem served_unrecorded :
    ¬ ∀ (ι : Type) [DecidableEq ι] (cache : Cache) (calls : ι → Call) (s₀ : Shared)
      (pool : Pool ι Req Resp (Except Error (Option Nat)) (World ι)), Fresh s₀ →
      Pool.Steps (recording fun _ => Answers fun _ => False)
        ⟨fun i => ((calls i).op cache).run, (s₀, [])⟩ pool →
      ∀ i oid file, calls i = .open oid → pool.progs i = .pure (.ok (some file)) →
        ∃ f, pool.state.1.disk.file file = some f ∧
          Recorded calls s₀ oid pool.state.2 (cache.blake3 f.bytes) := by
  intro hclaim
  have hrun : ((Pool.play playing (true :: List.replicate 5 false ++ List.replicate 11 true)
      ⟨fun i => ((openAndFill i).op oneByte).run, (stored 9, [])⟩).any fun pool =>
        (pool.state.1.disk.file 0 == some ⟨[9], 0⟩ &&
          written pool.state.2 == [utf8Encode Oid.zeros.text]) &&
          returned (some 0) (pool.progs true)) = true := by decide +kernel
  obtain ⟨pool, hplay, hcheck⟩ := (Option.any_eq_true _ _).mp hrun
  rw [Bool.and_eq_true, Bool.and_eq_true, beq_iff_eq, beq_iff_eq] at hcheck
  obtain ⟨⟨hbytes, hwritten⟩, hcheck⟩ := hcheck
  have hsteps := Pool.play_steps (playing_answers fun _ => False) hplay
  obtain ⟨f, hf, hrecorded⟩ := hclaim Bool oneByte openAndFill (stored 9) pool (fresh_stored 9)
    hsteps true .zeros 0 rfl (eq_of_returned hcheck)
  rw [hbytes, Option.some.injEq] at hf
  subst hf
  rcases hrecorded with ⟨g, recorded, hg, hdecode, htrim⟩ | hfinished
  · have hfind : (stored 9).disk.find (digest .zeros) =
        some ⟨utf8Encode Oid.zeros.text, 0⟩ := by decide +kernel
    rw [hfind, Option.some.injEq] at hg
    subst hg
    rw [utf8Decode_utf8Encode, Option.some.injEq] at hdecode
    subst hdecode
    rw [trim_digits fun c hc => Oid.isHexDigit_of_mem hc] at htrim
    exact absurd htrim (by decide +kernel)
  · have hmem := hfinished.mem_written
    rw [hwritten, List.mem_singleton] at hmem
    exact absurd hmem (by decide +kernel)

end Cache

end Lfsx.Storage
