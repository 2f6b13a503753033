import Lfsx.Storage.LocalWalk

/-!
# The parts of maintenance

Rules for the calls that dedupe and compress are made of, with nobody beside: comparing two
files, checking a digest, handing out a staging name, linking to it, and renaming it over an
entry.  Each leaves what its rule says, and whatever the rest of the operation makes of that
is its own business.
-/

namespace Lfsx.Storage

open Request Files

namespace LocalStore

/-- An operation leaves `Q` if it succeeds. -/
abbrev Leaves {α : Type} (may : Files.Req Text → Prop) (Q : α → Volume → Prop) (op : Op α)
    (d : Volume) : Prop :=
  op.Alone (Clean may) (fun _ _ => True) Q (fun _ => True) d

section

variable {crates : Crates} {sha256 : Bytes → Text} {keys : Option (Keyring crates)}
  {may : Files.Req Text → Prop} {G : Volume → Volume → Prop} {E : Volume → Prop} {d d' : Volume}
  {β : Type} {Q : β → Volume → Prop} {path content : LocalPath} {oid : Oid} {t : Nat}

/-- What `shares_bytes_with` found out. -/
theorem sharesBytesWith_alone {f : Bool → Op β} (hG : ∀ a b, Untouched a b → G a b)
    (htrue : ∀ i, d.inode path = some i → d.inode content = some i →
      (f true).Alone (Clean may) G Q E d)
    (hfalse : (f false).Alone (Clean may) G Q E d) :
    (sharesBytesWith path content >>= f).Alone (Clean may) G Q E d := by
  rw [sharesBytesWith, bind_assoc]
  refine Fallible.Alone.caught fun one d₁ hexec => ?_
  obtain ⟨rfl, hone⟩ := hexec.2.metadata
  refine ⟨hG _ _ (.refl _), ?_⟩
  rw [bind_assoc]
  refine Fallible.Alone.caught fun other d₂ hexec => ?_
  obtain ⟨rfl, hother⟩ := hexec.2.metadata
  refine ⟨hG _ _ (.refl _), ?_⟩
  rcases hone with ⟨i, g, hi, -, rfl⟩ | ⟨-, rfl⟩ | ⟨-, rfl⟩
  · rcases hother with ⟨j, g', hj, -, rfl⟩ | ⟨-, rfl⟩ | ⟨-, rfl⟩
    · show (f (i == j)).Alone _ _ _ _ _
      cases hsame : i == j with
      | true => exact htrue i hi (by rw [hj, beq_iff_eq.mp hsame])
      | false => exact hfalse
    · exact hfalse
    · exact hfalse
  · exact hfalse
  · exact hfalse

/-- What `hashes_to` found out. -/
theorem hashesTo_alone {f : Bool → Op β} (hG : ∀ a b, Untouched a b → G a b)
    (htrue : ∀ g, d.find path = some g → sha256 g.bytes = oid.text →
      (f true).Alone (Clean may) G Q E d)
    (hfalse : (f false).Alone (Clean may) G Q E d) :
    (hashesTo sha256 path oid >>= f).Alone (Clean may) G Q E d := by
  rw [hashesTo, bind_assoc]
  refine Fallible.Alone.caught fun answer d₁ hexec => ?_
  obtain ⟨rfl, hopened⟩ := hexec.2.openFile
  refine ⟨hG _ _ (.refl _), ?_⟩
  cases answer with
  | error e => exact hfalse
  | ok file =>
      show (((readAll file).caught >>= fun answer => _) >>= f).Alone _ _ _ _ _
      rw [bind_assoc]
      refine Fallible.Alone.caught fun answer d₂ hexec => ?_
      obtain ⟨rfl, hread⟩ := hexec.2.readAll
      refine ⟨hG _ _ (.refl _), ?_⟩
      cases answer with
      | error e => exact hfalse
      | ok bytes =>
          obtain ⟨i, hi, hfile⟩ : ∃ i, d₂.inode path = some i ∧ file = i := by
            rcases hopened with ⟨i, hi, heq⟩ | ⟨-, heq⟩ | ⟨-, heq⟩ <;> cases heq
            exact ⟨_, hi, rfl⟩
          subst hfile
          obtain ⟨g, hg, rfl⟩ : ∃ g, d₂.file file = some g ∧ bytes = g.bytes := by
            rcases hread with ⟨g, hg, heq⟩ | heq <;> cases heq
            exact ⟨g, hg, rfl⟩
          show (f (sha256 g.bytes == oid.text)).Alone _ _ _ _ _
          cases hdigest : sha256 g.bytes == oid.text with
          | true =>
              exact htrue g (by rw [Disk.find_of_inode hi, hg]) (beq_iff_eq.mp hdigest)
          | false => exact hfalse

/-- A staging file that has the bytes of `source`. -/
structure Staging (source p : LocalPath) (d d' : Volume) : Prop where
  beside : Beside p d d'
  bytes : ∃ g g', d.find source = some g ∧ d'.find p = some g' ∧ g'.bytes = g.bytes

/-- A link to a staging name that is free, or a copy. -/
theorem linkStaged_alone {dir : LocalPath} {f : Unit → Op β}
    (hG : ∀ a b, Untouched a b → G a b) (hE : ∀ d, E d)
    (hf : ∀ d', Staging content (part dir oid t) d d' → (f ()).Alone (Clean may) G Q E d') :
    (io (link content (part dir oid t)) >>= f).Alone (Clean may) G Q E d := by
  refine Fallible.Under.mapped Fallible.stable_never
    (link_ending (fun i hi _ => ?_) (fun i j hfree hi hj => ?_) (fun _ => ?_)
      fun i g _ hi hg htarget => ?_)
  · obtain ⟨g, hg⟩ := Disk.exists_file hi
    refine ⟨hG _ _ (untouched_link hi), hf _
      ⟨⟨untouched_link hi, fun q hq => ?_, ?_⟩, g, g, ?_, ?_, rfl⟩⟩
    · rw [Disk.inode_link hi, if_neg hq]
    · rw [Disk.ticket_link]
    · rw [Disk.find_of_inode hi, hg]
    · rw [Disk.find_link hi, if_pos rfl, hg]
  · rw [hfree dir oid t rfl] at hj
    cases hj
  · exact ⟨hG _ _ (.refl _), hE _⟩
  · have hfill : ∀ time time' bytes,
        Beside (part dir oid t) (d.add (part dir oid t) time)
          ((d.add (part dir oid t) time).fill d.files.length bytes time') := fun time time' bytes =>
      .fill (by rw [Disk.inode_add, if_pos rfl])
        (apart_add _ fun q oid' hentry => hentry.ne_part dir oid t)
    refine ⟨hG _ _ (.refl _), copy_ending (fun _ _ _ _ h => h.2) hi hg htarget
      (fun _ => hG _ _ (.refl _)) (fun _ => hG _ _ untouched_add)
      (fun time time' bytes => hG _ _ (hfill time time' bytes).entries) (fun time time' _ => ?_)
      fun _ => hE _⟩
    refine hf _ ⟨Beside.add.trans (hfill time time' g.bytes), g, ⟨g.bytes, time'⟩, ?_, ?_, rfl⟩
    · rw [Disk.find_of_inode hi, hg]
    · exact Disk.find_fill_self (by rw [Disk.inode_add, if_pos rfl])

/-- A rename of one file over another, or nothing. -/
theorem rename_alone {source target : LocalPath} {f : Unit → Op β} (hE : ∀ d, E d)
    (hG : G d d)
    (hf : ∀ i, d.inode source = some i → G d (d.rename source target) ∧
      (f ()).Alone (Clean may) G Q E (d.rename source target)) :
    (io (Files.rename source target) >>= f).Alone (Clean may) G Q E d := by
  refine Fallible.Alone.mapped fun answer d₁ hexec => ?_
  rcases hexec.2.rename with ⟨i, hi, rfl, rfl⟩ | ⟨e, rfl, rfl, -⟩
  · exact hf i hi
  · exact ⟨hG, hE _⟩

/-- What a staging file that was renamed over an entry leaves. -/
structure Renewed (path p : LocalPath) (g : File) (d d' : Volume) : Prop where
  entries : ∀ q oid, Entry q oid → q ≠ path → d'.find q = d.find q
  target : d'.find path = some g

theorem renewed_rename {dir : LocalPath} {i : Nat} {g : File}
    (hi : d.inode (part dir oid t) = some i) (hg : d.find (part dir oid t) = some g) :
    Renewed path (part dir oid t) g d (d.rename (part dir oid t) path) := by
  constructor
  · intro q oid' hentry hq
    exact Disk.find_rename_other hi (hentry.ne_part dir oid t) hq
  · rw [Disk.find_rename_target hi, ← hg, Disk.find_of_inode hi]

/-- The number of a staging file is handed out. -/
theorem stagingPath_alone {dir : LocalPath} {f : LocalPath → Op β}
    (hG : ∀ a b, Untouched a b → G a b)
    (hf : (f (part dir oid d.ticket)).Alone (Clean may) G Q E d.issue) :
    (stagingPath dir oid >>= f).Alone (Clean may) G Q E d := by
  rw [stagingPath, bind_assoc]
  refine Fallible.Alone.certain fun ticket d₁ hexec => ?_
  obtain ⟨rfl, rfl⟩ := hexec.2.ticket
  exact ⟨hG _ _ (.refl _), hf⟩

end

end LocalStore

end Lfsx.Storage
