import Lfsx.Files.Disk

/-!
# What a call changes

The lemmas of a disk and its calls: what each operation on a disk does to the names and
to the files, and for each request, whether it is answered or refused, what it left
behind.  A request that `Looks` changes neither (`Faulty.looks`).  Only `create` and
`write` change a file, and each changes one.
-/

namespace Files

open Request

variable {Name : Type} [DecidableEq Name]

namespace Disk

variable {d : Disk Name} {path source target : Path Name} {i time : Nat} {bytes : Bytes}

/-! ## Operations -/

@[simp] theorem inode_tick (p : Path Name) : (d.tick time).inode p = d.inode p := rfl

omit [DecidableEq Name] in
@[simp] theorem file_tick (j : Nat) : (d.tick time).file j = d.file j := rfl

@[simp] theorem inode_issue (p : Path Name) : d.issue.inode p = d.inode p := rfl

omit [DecidableEq Name] in
@[simp] theorem file_issue (j : Nat) : d.issue.file j = d.file j := rfl

@[simp] theorem inode_add (p : Path Name) :
    (d.add path time).inode p = if p = path then some d.files.length else d.inode p := by
  by_cases h : p = path
  · subst h
    rw [if_pos rfl]
    exact AList.lookup_insert _
  · rw [if_neg h]
    exact AList.lookup_insert_ne h

theorem file_add_new : (d.add path time).file d.files.length = some ⟨[], time⟩ := by
  simp [file, add]

theorem file_add_old {j : Nat} (h : j < d.files.length) :
    (d.add path time).file j = d.file j := by
  simp only [file, add]
  exact List.getElem?_append_left h

@[simp] theorem inode_fill (p : Path Name) : (d.fill i bytes time).inode p = d.inode p := rfl

omit [DecidableEq Name] in
theorem file_fill_self (h : i < d.files.length) :
    (d.fill i bytes time).file i = some ⟨bytes, time⟩ := by
  simp only [file, fill]
  rw [List.getElem?_set_self h]

omit [DecidableEq Name] in
theorem file_fill_ne {j : Nat} (h : j ≠ i) : (d.fill i bytes time).file j = d.file j := by
  simp only [file, fill]
  exact List.getElem?_set_ne (Ne.symm h)

theorem inode_link (h : d.inode source = some i) (p : Path Name) :
    (d.link source target).inode p = if p = target then some i else d.inode p := by
  have hnames : (d.link source target).names = d.names.insert target i := by
    rw [link]
    split
    · next hnone => rw [h] at hnone; cases hnone
    · next j hj =>
        rw [h] at hj
        cases hj
        rfl
  rw [inode, hnames]
  by_cases hp : p = target
  · subst hp
    rw [if_pos rfl]
    exact AList.lookup_insert _
  · rw [if_neg hp]
    exact AList.lookup_insert_ne hp

@[simp] theorem files_link : (d.link source target).files = d.files := by
  rw [link]
  split <;> rfl

@[simp] theorem clock_link : (d.link source target).clock = d.clock := by
  rw [link]
  split <;> rfl

@[simp] theorem ticket_link : (d.link source target).ticket = d.ticket := by
  rw [link]
  split <;> rfl

@[simp] theorem file_link (j : Nat) : (d.link source target).file j = d.file j := by
  rw [file, files_link]
  rfl

@[simp] theorem inode_unname (p : Path Name) :
    (d.unname path).inode p = if p = path then none else d.inode p := by
  by_cases h : p = path
  · subst h
    rw [if_pos rfl]
    exact AList.lookup_erase _ _
  · rw [if_neg h]
    exact AList.lookup_erase_ne h

@[simp] theorem file_unname (j : Nat) : (d.unname path).file j = d.file j := rfl

theorem rename_same (h : d.inode source = d.inode target) : d.rename source target = d :=
  if_pos h

theorem inode_rename (h : d.inode source = some i) (hne : d.inode source ≠ d.inode target)
    (p : Path Name) :
    (d.rename source target).inode p =
      if p = source then none else if p = target then some i else d.inode p := by
  rw [rename, if_neg hne, inode_unname, inode_link h]

@[simp] theorem files_rename : (d.rename source target).files = d.files := by
  rw [rename]
  split
  · rfl
  · exact files_link

@[simp] theorem clock_rename : (d.rename source target).clock = d.clock := by
  rw [rename]
  split
  · rfl
  · exact clock_link

@[simp] theorem ticket_rename : (d.rename source target).ticket = d.ticket := by
  rw [rename]
  split
  · rfl
  · exact ticket_link

@[simp] theorem file_rename (j : Nat) : (d.rename source target).file j = d.file j := by
  rw [file, files_rename]
  rfl

theorem mem_children {dir : Path Name} (h : path ∈ d.children dir) :
    ∃ name, path = dir ++ [name] := by
  rw [children, List.mem_dedup, List.mem_map] at h
  obtain ⟨long, hlong, rfl⟩ := h
  rw [List.mem_filter, Bool.and_eq_true, List.isPrefixOf_iff_prefix, decide_eq_true_eq] at hlong
  obtain ⟨-, ⟨rest, rfl⟩, hlength⟩ := hlong
  cases rest with
  | nil =>
      rw [List.append_nil] at hlength
      exact absurd hlength (lt_irrefl _)
  | cons name rest =>
      refine ⟨name, ?_⟩
      rw [List.take_append, List.take_of_length_le (Nat.le_succ _), Nat.add_sub_cancel_left]
      rfl

/-- A file is at the path, or under it. -/
def There (d : Disk Name) (path : Path Name) : Prop := ∃ rest i, d.inode (path ++ rest) = some i

theorem there_of_mem_children {dir : Path Name} (h : path ∈ d.children dir) : d.There path := by
  rw [children, List.mem_dedup, List.mem_map] at h
  obtain ⟨long, hlong, rfl⟩ := h
  have hkey : long ∈ d.names := AList.mem_keys.mp (List.mem_of_mem_filter hlong)
  obtain ⟨i, hi⟩ := Option.isSome_iff_exists.mp (AList.lookup_isSome.mpr hkey)
  exact ⟨long.drop (dir.length + 1), i, by rwa [List.take_append_drop]⟩

theorem find_eq_some {f : File} :
    d.find path = some f ↔ ∃ i, d.inode path = some i ∧ d.file i = some f :=
  Option.bind_eq_some_iff

theorem find_of_inode (h : d.inode path = some i) : d.find path = d.file i := by
  rw [find, h]
  rfl

theorem find_eq_none : d.find path = none ↔ d.inode path = none := by
  constructor
  · intro h
    cases hinode : d.inode path with
    | none => rfl
    | some i =>
        obtain ⟨f, hf⟩ := exists_file hinode
        rw [find_of_inode hinode, hf] at h
        cases h
  · intro h
    rw [find, h]
    rfl

theorem find_add {p : Path Name} (h : p ≠ path) : (d.add path time).find p = d.find p := by
  rw [find, inode_add, if_neg h, find]
  exact Option.bind_congr fun j hj => file_add_old (inode_lt hj)

theorem find_fill {p : Path Name} (h : d.inode p ≠ some i) :
    (d.fill i bytes time).find p = d.find p := by
  rw [find, inode_fill, find]
  exact Option.bind_congr fun j hj => file_fill_ne fun heq => h (by rw [hj, heq])

theorem find_fill_self (h : d.inode path = some i) :
    (d.fill i bytes time).find path = some ⟨bytes, time⟩ := by
  rw [find, inode_fill, h]
  exact file_fill_self (inode_lt h)

theorem find_link (h : d.inode source = some i) (p : Path Name) :
    (d.link source target).find p = if p = target then d.file i else d.find p := by
  have hfile : (d.link source target).file = d.file := funext fun j => file_link j
  rw [find, inode_link h, hfile]
  split <;> rfl

@[simp] theorem find_unname (p : Path Name) :
    (d.unname path).find p = if p = path then none else d.find p := by
  rw [find, inode_unname]
  split <;> rfl

theorem find_rename (h : d.inode source = some i) (hne : d.inode source ≠ d.inode target)
    (p : Path Name) :
    (d.rename source target).find p =
      if p = source then none else if p = target then d.file i else d.find p := by
  rw [rename, if_neg hne, find_unname, find_link h]

/-- The target of a rename has the file of the source, even if it had it before. -/
theorem find_rename_target (h : d.inode source = some i) :
    (d.rename source target).find target = d.file i := by
  by_cases hsame : d.inode source = d.inode target
  · rw [rename_same hsame, find_of_inode (hsame.symm.trans h)]
  · rw [find_rename h hsame, if_neg (fun heq => hsame (by rw [heq])), if_pos rfl]

theorem find_rename_other (h : d.inode source = some i) {p : Path Name} (hsource : p ≠ source)
    (htarget : p ≠ target) : (d.rename source target).find p = d.find p := by
  by_cases hsame : d.inode source = d.inode target
  · rw [rename_same hsame]
  · rw [find_rename h hsame, if_neg hsource, if_neg htarget]

@[simp] theorem find_issue (p : Path Name) : d.issue.find p = d.find p := rfl

@[simp] theorem find_tick (p : Path Name) : (d.tick time).find p = d.find p := rfl

end Disk

/-! ## Requests -/

/-- The requests that leave the names and the files alone. -/
def Req.Looks : Req Name → Prop
  | .create _ => False
  | .write _ _ => False
  | .rename _ _ => False
  | .link _ _ => False
  | .unlink _ => False
  | _ => True

/-- The disk is the same, but for the time and the numbers it handed out. -/
structure Disk.Alike (d d' : Disk Name) : Prop where
  names : d'.names = d.names
  files : d'.files = d.files
  clock : d.clock ≤ d'.clock
  ticket : d.ticket ≤ d'.ticket

namespace Disk.Alike

variable {d d' : Disk Name}

omit [DecidableEq Name] in
theorem refl (d : Disk Name) : d.Alike d := ⟨rfl, rfl, le_refl _, le_refl _⟩

theorem inode (h : d.Alike d') (path : Path Name) : d'.inode path = d.inode path := by
  rw [Disk.inode, h.names]
  rfl

omit [DecidableEq Name] in
theorem file (h : d.Alike d') (i : Nat) : d'.file i = d.file i := by
  rw [Disk.file, h.files]
  rfl

theorem find (h : d.Alike d') (path : Path Name) : d'.find path = d.find path := by
  rw [Disk.find, h.inode]
  exact Option.bind_congr fun i _ => h.file i

theorem there (h : d.Alike d') {path : Path Name} (hthere : d'.There path) : d.There path := by
  obtain ⟨rest, i, hi⟩ := hthere
  exact ⟨rest, i, by rw [← h.inode, hi]⟩

omit [DecidableEq Name] in
theorem trans {d'' : Disk Name} (h : d.Alike d') (h' : d'.Alike d'') : d.Alike d'' :=
  ⟨h'.names.trans h.names, h'.files.trans h.files, h.clock.trans h'.clock,
    h.ticket.trans h'.ticket⟩

end Disk.Alike

section

variable {may : Req Name → Prop} {d d' : Disk Name} {path source target : Path Name}

theorem Faulty.looks {r : Req Name} {answer : Resp r} (hr : r.Looks)
    (h : Faulty may r d answer d') : d.Alike d' := by
  have hsame : d' = d → d.Alike d' := fun heq => heq ▸ .refl d
  cases r with
  | create path => cases hr
  | write handle bytes => cases hr
  | rename source target => cases hr
  | link source target => cases hr
  | unlink path => cases hr
  | now =>
      rcases h with h | h
      · obtain ⟨hle, rfl⟩ := h
        exact ⟨rfl, rfl, hle, le_refl _⟩
      · exact absurd h.2 id
  | ticket =>
      rcases h with h | h
      · obtain ⟨-, rfl⟩ := h
        exact ⟨rfl, rfl, le_refl _, Nat.le_succ _⟩
      · exact absurd h.2 id
  | random count =>
      rcases h with h | h
      · exact hsame h
      · exact absurd h.2 id
  | metadata path => rcases h with h | h; exacts [hsame h.2, hsame h.2.2]
  | openFile path => rcases h with h | h; exacts [hsame h.2, hsame h.2.2]
  | stat handle => rcases h with h | h; exacts [hsame h.2, hsame h.2.2]
  | readExact handle offset length => rcases h with h | h; exacts [hsame h.2, hsame h.2.2]
  | read handle offset length => rcases h with h | h; exacts [hsame h.2, hsame h.2.2]
  | readAll handle => rcases h with h | h; exacts [hsame h.2, hsame h.2.2]
  | createDirAll path => rcases h with h | h; exacts [hsame h.2, hsame h.2.2]
  | readDir path => rcases h with h | h; exacts [hsame h.2, hsame h.2.2]

/-- A path that is looked up. -/
theorem Faulty.metadata {answer : Except Refused Metadata}
    (h : Faulty may (.metadata path) d answer d') :
    d' = d ∧ ((∃ i f, d.inode path = some i ∧ d.file i = some f ∧
        answer = .ok ⟨i, f.bytes.length, f.modified, d.links i⟩) ∨
      d.inode path = none ∧ answer = .error .notFound ∨
      may (.metadata path) ∧ answer = .error .other) := by
  rcases h with ⟨rfl, rfl⟩ | ⟨hmay, rfl, rfl⟩
  · refine ⟨rfl, ?_⟩
    cases hinode : d'.inode path with
    | none => exact Or.inr (Or.inl ⟨rfl, rfl⟩)
    | some i =>
        obtain ⟨f, hf⟩ := Disk.exists_file hinode
        refine Or.inl ⟨i, f, rfl, hf, ?_⟩
        simp [Disk.stat, hf, Refused.unless]
  · exact ⟨rfl, Or.inr (Or.inr ⟨hmay, rfl⟩)⟩

theorem Faulty.openFile {answer : Except Refused Nat}
    (h : Faulty may (.openFile path) d answer d') :
    d' = d ∧ ((∃ i, d.inode path = some i ∧ answer = .ok i) ∨
      d.inode path = none ∧ answer = .error .notFound ∨
      may (.openFile path) ∧ answer = .error .other) := by
  rcases h with ⟨rfl, rfl⟩ | ⟨hmay, rfl, rfl⟩
  · refine ⟨rfl, ?_⟩
    cases hinode : d'.inode path with
    | none => exact Or.inr (Or.inl ⟨rfl, rfl⟩)
    | some i => exact Or.inl ⟨i, rfl, rfl⟩
  · exact ⟨rfl, Or.inr (Or.inr ⟨hmay, rfl⟩)⟩

theorem Faulty.readAll {handle : Nat} {answer : Except Refused Bytes}
    (h : Faulty may (.readAll handle) d answer d') :
    d' = d ∧ ((∃ f, d.file handle = some f ∧ answer = .ok f.bytes) ∨
      answer = .error .other) := by
  rcases h with ⟨rfl, rfl⟩ | ⟨hmay, rfl, rfl⟩
  · refine ⟨rfl, ?_⟩
    cases hfile : d'.file handle with
    | none => exact Or.inr rfl
    | some f => exact Or.inl ⟨f, rfl, rfl⟩
  · exact ⟨rfl, Or.inr rfl⟩

theorem Faulty.create {answer : Except Refused Nat} (h : Faulty may (.create path) d answer d') :
    (∃ i time, d.inode path = some i ∧ answer = .ok i ∧ d.clock ≤ time ∧ d' = d.fill i [] time) ∨
      (∃ time, d.inode path = none ∧ answer = .ok d.files.length ∧ d.clock ≤ time ∧
        d' = d.add path time) ∨
      may (.create path) ∧ answer = .error .other ∧ d' = d := by
  rcases h with ⟨time, hle, h⟩ | ⟨hmay, h⟩
  · cases hinode : d.inode path with
    | some i =>
        rw [hinode] at h
        exact Or.inl ⟨i, time, rfl, h.1, hle, h.2⟩
    | none =>
        rw [hinode] at h
        exact Or.inr (Or.inl ⟨time, rfl, h.1, hle, h.2⟩)
  · exact Or.inr (Or.inr ⟨hmay, h⟩)

theorem Faulty.write {handle : Nat} {bytes : Bytes} {answer : Except Refused Unit}
    (h : Faulty may (.write handle bytes) d answer d') :
    (answer = .ok () ∧ ∃ time, d.clock ≤ time ∧ d' = d.fill handle bytes time) ∨
      may (.write handle bytes) ∧ answer = .error .other ∧
        ∃ short time, short <+: bytes ∧ d.clock ≤ time ∧ d' = d.fill handle short time :=
  h

theorem Faulty.rename {answer : Except Refused Unit}
    (h : Faulty may (.rename source target) d answer d') :
    (∃ i, d.inode source = some i ∧ answer = .ok () ∧ d' = d.rename source target) ∨
      (∃ e, answer = .error e ∧ d' = d ∧ (e = .notFound → d.inode source = none) ∧
        (d.inode source ≠ none → may (.rename source target))) := by
  rcases h with h | ⟨hmay, h⟩
  · simp only [Answers] at h
    cases hinode : d.inode source with
    | some i =>
        rw [hinode] at h
        exact Or.inl ⟨i, rfl, h⟩
    | none =>
        rw [hinode] at h
        exact Or.inr ⟨_, h.1, h.2, fun _ => rfl, fun hne => absurd rfl hne⟩
  · obtain ⟨rfl, rfl⟩ := h
    exact Or.inr ⟨.other, rfl, rfl, (by rintro ⟨⟩), fun _ => hmay⟩

theorem Faulty.link {answer : Except Refused Unit}
    (h : Faulty may (.link source target) d answer d') :
    (∃ i, d.inode source = some i ∧ d.inode target = none ∧ answer = .ok () ∧
        d' = d.link source target) ∨
      (∃ i j, d.inode source = some i ∧ d.inode target = some j ∧
        answer = .error .alreadyExists ∧ d' = d) ∨
      d.inode source = none ∧ answer = .error .notFound ∧ d' = d ∨
      may (.link source target) ∧ (∃ i, d.inode source = some i) ∧ d.inode target = none ∧
        answer = .error .other ∧ d' = d := by
  rcases h with h | ⟨hmay, h⟩
  · simp only [Answers] at h
    cases hsource : d.inode source with
    | none =>
        rw [hsource] at h
        exact Or.inr (Or.inr (Or.inl ⟨rfl, h⟩))
    | some i =>
        rw [hsource] at h
        cases htarget : d.inode target with
        | none =>
            rw [htarget] at h
            exact Or.inl ⟨i, rfl, rfl, h⟩
        | some j =>
            rw [htarget] at h
            exact Or.inr (Or.inl ⟨i, j, rfl, rfl, h⟩)
  · obtain ⟨hanswer, hsame, hsource, htarget⟩ := h
    exact Or.inr (Or.inr (Or.inr
      ⟨hmay, Option.isSome_iff_exists.mp hsource, htarget, hanswer, hsame⟩))

theorem Faulty.unlink {answer : Except Refused Unit} (h : Faulty may (.unlink path) d answer d') :
    (∃ i, d.inode path = some i ∧ answer = .ok () ∧ d' = d.unname path) ∨
      d.inode path = none ∧ answer = .error .notFound ∧ d' = d ∨
      may (.unlink path) ∧ answer = .error .other ∧ d' = d := by
  rcases h with h | ⟨hmay, h⟩
  · simp only [Answers] at h
    cases hinode : d.inode path with
    | some i =>
        rw [hinode] at h
        exact Or.inl ⟨i, rfl, h⟩
    | none =>
        rw [hinode] at h
        exact Or.inr (Or.inl ⟨rfl, h⟩)
  · exact Or.inr (Or.inr ⟨hmay, h⟩)

theorem Faulty.ticket {answer : Nat} (h : Faulty may .ticket d answer d') :
    answer = d.ticket ∧ d' = d.issue := by
  rcases h with h | h
  · exact h
  · exact absurd h.2 id

/-! ## What a request may change -/

/-- The names a request may make or remove. -/
def Req.names : Req Name → List (Path Name)
  | .create path => [path]
  | .rename source target => [source, target]
  | .link _ target => [target]
  | .unlink path => [path]
  | _ => []

theorem Faulty.inode_other {r : Req Name} {answer : Resp r} {q : Path Name}
    (h : Faulty may r d answer d') (hq : q ∉ r.names) : d'.inode q = d.inode q := by
  cases r with
  | create path =>
      have hne : q ≠ path := fun heq => hq (by simp [Req.names, heq])
      rcases h.create with ⟨i, time, -, -, -, rfl⟩ | ⟨time, -, -, -, rfl⟩ | ⟨-, -, rfl⟩
      · rfl
      · rw [Disk.inode_add, if_neg hne]
      · rfl
  | write handle bytes =>
      rcases h.write with ⟨-, time, -, rfl⟩ | ⟨-, -, short, time, -, -, rfl⟩
      · rfl
      · rfl
  | rename source target =>
      have hsource : q ≠ source := fun heq => hq (by simp [Req.names, heq])
      have htarget : q ≠ target := fun heq => hq (by simp [Req.names, heq])
      rcases h.rename with ⟨i, hi, -, rfl⟩ | ⟨e, -, rfl, -⟩
      · by_cases hsame : d.inode source = d.inode target
        · rw [Disk.rename_same hsame]
        · rw [Disk.inode_rename hi hsame, if_neg hsource, if_neg htarget]
      · rfl
  | link source target =>
      have hne : q ≠ target := fun heq => hq (by simp [Req.names, heq])
      rcases h.link with ⟨i, hi, -, -, rfl⟩ | ⟨i, j, -, -, -, rfl⟩ | ⟨-, -, rfl⟩ | ⟨-, -, -, -, rfl⟩
      · rw [Disk.inode_link hi, if_neg hne]
      · rfl
      · rfl
      · rfl
  | unlink path =>
      have hne : q ≠ path := fun heq => hq (by simp [Req.names, heq])
      rcases h.unlink with ⟨i, -, -, rfl⟩ | ⟨-, -, rfl⟩ | ⟨-, -, rfl⟩
      · rw [Disk.inode_unname, if_neg hne]
      · rfl
      · rfl
  | _ => exact (h.looks (by trivial)).inode q

/-- Where a name comes from. -/
theorem Faulty.named {r : Req Name} {answer : Resp r} {q : Path Name} {i : Nat}
    (h : Faulty may r d answer d') (hi : d'.inode q = some i) :
    d.inode q = some i ∨ (∃ p, (r = .link p q ∨ r = .rename p q) ∧ d.inode p = some i) ∨
      r = .create q ∧ d.inode q = none ∧ i = d.files.length := by
  by_cases hq : q ∈ r.names
  · cases r with
    | create path =>
        obtain rfl : q = path := by simpa [Req.names] using hq
        rcases h.create with ⟨j, time, -, -, -, rfl⟩ | ⟨time, hnone, -, -, rfl⟩ | ⟨-, -, rfl⟩
        · exact Or.inl hi
        · rw [Disk.inode_add, if_pos rfl, Option.some.injEq] at hi
          exact Or.inr (Or.inr ⟨rfl, hnone, hi.symm⟩)
        · exact Or.inl hi
    | rename source target =>
        rcases h.rename with ⟨j, hj, -, rfl⟩ | ⟨e, -, rfl, -⟩
        · by_cases hsame : d.inode source = d.inode target
          · rw [Disk.rename_same hsame] at hi
            exact Or.inl hi
          · rw [Disk.inode_rename hj hsame] at hi
            split at hi
            · cases hi
            · split at hi
              · next htarget =>
                  subst htarget
                  exact Or.inr (Or.inl ⟨source, Or.inr rfl, by rw [hj, hi]⟩)
              · exact Or.inl hi
        · exact Or.inl hi
    | link source target =>
        obtain rfl : q = target := by simpa [Req.names] using hq
        rcases h.link with ⟨j, hj, -, -, rfl⟩ | ⟨j, k, -, -, -, rfl⟩ | ⟨-, -, rfl⟩ |
          ⟨-, -, -, -, rfl⟩
        · rw [Disk.inode_link hj, if_pos rfl, Option.some.injEq] at hi
          exact Or.inr (Or.inl ⟨source, Or.inl rfl, by rw [hj, hi]⟩)
        · exact Or.inl hi
        · exact Or.inl hi
        · exact Or.inl hi
    | unlink path =>
        obtain rfl : q = path := by simpa [Req.names] using hq
        rcases h.unlink with ⟨j, -, -, rfl⟩ | ⟨-, -, rfl⟩ | ⟨-, -, rfl⟩
        · rw [Disk.inode_unname, if_pos rfl] at hi
          cases hi
        · exact Or.inl hi
        · exact Or.inl hi
    | _ => simp [Req.names] at hq
  · rw [h.inode_other hq] at hi
    exact Or.inl hi

/-- How a name is lost. -/
theorem Faulty.lost {r : Req Name} {answer : Resp r} {q : Path Name} {i : Nat}
    (h : Faulty may r d answer d') (hi : d.inode q = some i) (hlost : d'.inode q = none) :
    r = .unlink q ∨ ∃ target, r = .rename q target := by
  have hsame : d'.inode q ≠ d.inode q := by
    rw [hi, hlost]
    rintro ⟨⟩
  have hq : q ∈ r.names := by
    by_contra hq
    exact hsame (h.inode_other hq)
  cases r with
  | create path =>
      obtain rfl : q = path := by simpa [Req.names] using hq
      rcases h.create with ⟨j, time, -, -, -, rfl⟩ | ⟨time, hnone, -, -, -⟩ | ⟨-, -, rfl⟩
      · exact absurd rfl hsame
      · rw [hi] at hnone
        cases hnone
      · exact absurd rfl hsame
  | rename source target =>
      rcases h.rename with ⟨j, hj, -, rfl⟩ | ⟨e, -, rfl, -⟩
      · by_cases hone : d.inode source = d.inode target
        · rw [Disk.rename_same hone] at hsame
          exact absurd rfl hsame
        · rw [Disk.inode_rename hj hone] at hlost
          split at hlost
          · next hsource =>
              subst hsource
              exact Or.inr ⟨target, rfl⟩
          · split at hlost
            · cases hlost
            · rw [hi] at hlost
              cases hlost
      · exact absurd rfl hsame
  | link source target =>
      obtain rfl : q = target := by simpa [Req.names] using hq
      rcases h.link with ⟨j, -, hnone, -, -⟩ | ⟨j, k, -, -, -, rfl⟩ | ⟨-, -, rfl⟩ |
        ⟨-, -, -, -, rfl⟩
      · rw [hi] at hnone
        cases hnone
      · exact absurd rfl hsame
      · exact absurd rfl hsame
      · exact absurd rfl hsame
  | unlink path =>
      obtain rfl : q = path := by simpa [Req.names] using hq
      exact Or.inl rfl
  | _ => simp [Req.names] at hq

/-- A file that is not written keeps its bytes. -/
theorem Faulty.file_kept {r : Req Name} {answer : Resp r} {i : Nat}
    (h : Faulty may r d answer d') (hi : i < d.files.length) (hwrite : ∀ bytes, r ≠ .write i bytes)
    (hcreate : ∀ path, r = .create path → d.inode path ≠ some i) : d'.file i = d.file i := by
  cases r with
  | create path =>
      rcases h.create with ⟨j, time, hj, -, -, rfl⟩ | ⟨time, -, -, -, rfl⟩ | ⟨-, -, rfl⟩
      · exact Disk.file_fill_ne fun heq => hcreate path rfl (by rw [hj, heq])
      · exact Disk.file_add_old hi
      · rfl
  | write handle bytes =>
      have hne : i ≠ handle := fun heq => hwrite bytes (by rw [heq])
      rcases h.write with ⟨-, time, -, rfl⟩ | ⟨-, -, short, time, -, -, rfl⟩
      · exact Disk.file_fill_ne hne
      · exact Disk.file_fill_ne hne
  | rename source target =>
      rcases h.rename with ⟨j, -, -, rfl⟩ | ⟨e, -, rfl, -⟩
      · exact Disk.file_rename i
      · rfl
  | link source target =>
      rcases h.link with ⟨j, -, -, -, rfl⟩ | ⟨j, k, -, -, -, rfl⟩ | ⟨-, -, rfl⟩ | ⟨-, -, -, -, rfl⟩
      · exact Disk.file_link i
      · rfl
      · rfl
      · rfl
  | unlink path =>
      rcases h.unlink with ⟨j, -, -, rfl⟩ | ⟨-, -, rfl⟩ | ⟨-, -, rfl⟩
      · exact Disk.file_unname i
      · rfl
      · rfl
  | _ => exact (h.looks (by trivial)).file i

/-- Files stay in the table, and numbers are handed out once. -/
theorem Faulty.grows {r : Req Name} {answer : Resp r} (h : Faulty may r d answer d') :
    d.files.length ≤ d'.files.length ∧ d.ticket ≤ d'.ticket := by
  cases r with
  | create path =>
      rcases h.create with ⟨j, time, -, -, -, rfl⟩ | ⟨time, -, -, -, rfl⟩ | ⟨-, -, rfl⟩
      · exact ⟨by simp [Disk.fill], le_refl _⟩
      · exact ⟨by simp [Disk.add], le_refl _⟩
      · exact ⟨le_refl _, le_refl _⟩
  | write handle bytes =>
      rcases h.write with ⟨-, time, -, rfl⟩ | ⟨-, -, short, time, -, -, rfl⟩
      · exact ⟨by simp [Disk.fill], le_refl _⟩
      · exact ⟨by simp [Disk.fill], le_refl _⟩
  | rename source target =>
      rcases h.rename with ⟨j, -, -, rfl⟩ | ⟨e, -, rfl, -⟩
      · exact ⟨by rw [Disk.files_rename], by rw [Disk.ticket_rename]⟩
      · exact ⟨le_refl _, le_refl _⟩
  | link source target =>
      rcases h.link with ⟨j, -, -, -, rfl⟩ | ⟨j, k, -, -, -, rfl⟩ | ⟨-, -, rfl⟩ | ⟨-, -, -, -, rfl⟩
      · exact ⟨by rw [Disk.files_link], by rw [Disk.ticket_link]⟩
      · exact ⟨le_refl _, le_refl _⟩
      · exact ⟨le_refl _, le_refl _⟩
      · exact ⟨le_refl _, le_refl _⟩
  | unlink path =>
      rcases h.unlink with ⟨j, -, -, rfl⟩ | ⟨-, -, rfl⟩ | ⟨-, -, rfl⟩
      · exact ⟨le_refl _, le_refl _⟩
      · exact ⟨le_refl _, le_refl _⟩
      · exact ⟨le_refl _, le_refl _⟩
  | _ =>
      have halike := h.looks (by trivial)
      exact ⟨by rw [halike.files], halike.ticket⟩

/-- A copy to a name that is free, with nobody beside: a file of its own with the bytes. -/
theorem copy_ending {exec : Semantics (Req Name) Resp (Disk Name)}
    (hexec : ∀ r d answer d', exec r d answer d' → Faulty may r d answer d') {i : Nat} {f : File}
    {G : Disk Name → Disk Name → Prop}
    {P : Except Refused Unit → Disk Name → Prop} (hi : d.inode source = some i)
    (hf : d.file i = some f) (htarget : d.inode target = none) (hsame : ∀ d, G d d)
    (hadd : ∀ time, G d (d.add target time))
    (hfill : ∀ time time' short,
      G (d.add target time) ((d.add target time).fill d.files.length short time'))
    (hok : ∀ time time', d.clock ≤ time →
      P (.ok ()) ((d.add target time).fill d.files.length f.bytes time'))
    (herror : ∀ d', P (.error .other) d') :
    (copy source target).Ending exec G P d := by
  refine Fallible.Ending.step fun answer d₁ hopen => ?_
  obtain ⟨rfl, hcases⟩ := (hexec _ _ _ _ hopen).openFile
  refine ⟨hsame _, ?_⟩
  rcases hcases with ⟨j, hj, rfl⟩ | ⟨hnone, -⟩ | ⟨-, rfl⟩
  · rw [hi, Option.some.injEq] at hj
    subst hj
    refine Fallible.Ending.step fun answer d₂ hcreate => ?_
    rcases (hexec _ _ _ _ hcreate).create with ⟨j, time, hj, -, -, -⟩ |
      ⟨time, -, rfl, hle, rfl⟩ | ⟨-, rfl, rfl⟩
    · rw [htarget] at hj
      cases hj
    · refine ⟨hadd time, ?_⟩
      refine Fallible.Ending.step fun answer d₃ hread => ?_
      obtain ⟨rfl, hcases⟩ := (hexec _ _ _ _ hread).readAll
      refine ⟨hsame _, ?_⟩
      rcases hcases with ⟨g, hg, rfl⟩ | rfl
      · rw [Disk.file_add_old (Disk.inode_lt hi), hf, Option.some.injEq] at hg
        subst hg
        refine Fallible.Ending.ask fun answer d₄ hwrite => ?_
        rcases (hexec _ _ _ _ hwrite).write with ⟨rfl, time', -, rfl⟩ |
          ⟨-, rfl, short, time', -, -, rfl⟩
        · exact ⟨hfill time time' f.bytes, hok time time' hle⟩
        · exact ⟨hfill time time' short, herror _⟩
      · exact herror _
    · exact ⟨hsame _, herror _⟩
  · rw [hi] at hnone
    cases hnone
  · exact herror _

end

end Files
