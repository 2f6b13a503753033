import Lfsx.Request.Protocol
import Lfsx.Storage.CacheCount
import Lfsx.Storage.CacheServed

/-!
# What eviction leaves

A fill puts its object in place and then evicts.  Alone, it removes the shortest prefix of the
cached objects, in order of last use, that brings them to the ceiling (`fill_evicts`).

Side by side, each eviction works from what it listed.  The last fill to put an object in place
lists all that is there then, and nothing comes after that, so what it listed and did not find
gone is all there is when it ends, and that is within the ceiling (`fills_within`).  This needs
that a cached object is not written any more, so that it has the length that was listed:
`fills_outgrow` is a run of two fills of one object, one of which writes on into the file that
the other has put in place.
-/

namespace Lfsx.Storage

open Request Files

namespace Cache

/-- Nothing that lists or removes files is refused. -/
structure Lists (may : Req → Prop) : Prop where
  readDir : ∀ path, ¬ may (.disk (.readDir path))
  metadata : ∀ path, ¬ may (.disk (.metadata path))
  unlink : ∀ path, ¬ may (.disk (.unlink path))

/-! ## The order of eviction -/

/-- When what is at a path was changed. -/
def changed (d : Volume) (path : LocalPath) : Option Nat := (d.find path).map File.modified

/-- When a cached object was last used: its digest is stamped then. -/
def lastUse (d : Volume) (path : LocalPath) : Nat :=
  match changed d [sidecar (fileName path)] with
  | some time => time
  | none => (changed d path).getD 0

/-- The cached objects of a directory, in order of last use. -/
structure Ranked (d : Volume) (order : List LocalPath) : Prop where
  nodup : order.Nodup
  each : ∀ path, path ∈ order ↔ path ∈ cached d
  sorted : order.Pairwise fun one other => lastUse d one ≤ lastUse d other

/-- The lengths of some objects. -/
def bytesOf (d : Volume) (paths : List LocalPath) : Nat := (paths.map d.lengthAt).sum

/-- The first `n` objects are gone and nothing else is, and no fewer bring the rest to the
ceiling. -/
structure Evicts (ceiling : Nat) (d d' : Volume) (order : List LocalPath) (n : Nat) : Prop where
  shortest : ∀ k, bytesOf d (order.drop k) ≤ ceiling ↔ n ≤ k
  gone : ∀ path, counts path = true →
    d'.inode path = if path ∈ order.take n then none else d.inode path
  files : d'.files = d.files

section

variable {may : Req → Prop} {cache : Cache} {s s' : Shared} {d d' : Volume} {path : LocalPath}

theorem bytesOf_cons (path : LocalPath) (rest : List LocalPath) :
    bytesOf d (path :: rest) = d.lengthAt path + bytesOf d rest := by
  rw [bytesOf, bytesOf, List.map_cons, List.sum_cons]

theorem bytesOf_drop_le (paths : List LocalPath) (k : Nat) :
    bytesOf d (paths.drop k) ≤ bytesOf d paths :=
  ((List.drop_sublist k paths).map d.lengthAt).sum_le_sum fun _ _ => Nat.zero_le _

/-- Nothing has to go. -/
theorem Evicts.none {ceiling : Nat} {order : List LocalPath} (h : bytesOf d order ≤ ceiling) :
    Evicts ceiling d d order 0 where
  shortest k := iff_of_true ((bytesOf_drop_le order k).trans h) (Nat.zero_le k)
  gone path _ := by rw [List.take_zero, if_neg List.not_mem_nil]
  files := rfl

/-- What a survey finds of an object. -/
def entryOf (d : Volume) (path : LocalPath) : Found :=
  ⟨lastUse d path, d.lengthAt path, path, fileName path⟩

/-- What is looked up is there, with its length and its time, or it is not there. -/
theorem metadata_answers {answer : Except Refused Metadata} (hmay : Lists may)
    (hexec : Answers may (.disk (.metadata path)) s answer s') :
    s' = s ∧ ((∃ i m, s.disk.inode path = some i ∧ answer = .ok m ∧
        m.length = s.disk.lengthAt path ∧ some m.modified = changed s.disk path) ∨
      s.disk.inode path = none ∧ answer = .error .notFound) := by
  obtain ⟨hdisk, hcases⟩ := hexec.1.metadata
  refine ⟨Shared.eq hdisk hexec.2, ?_⟩
  rcases hcases with ⟨i, f, hi, hf, rfl⟩ | hnone | ⟨hrefused, -⟩
  · refine Or.inl ⟨i, _, hi, rfl, ?_, ?_⟩
    · rw [Disk.lengthAt_of_inode hi, Disk.lengthOf_of_file hf]
    · rw [changed, Disk.find_of_inode hi, hf]
      rfl
  · exact Or.inr hnone
  · exact absurd hrefused (hmay.metadata path)

theorem survey_finds (hmay : Lists may) (listing : List LocalPath) {found : List Found}
    (hthere : ∀ path ∈ listing, s.disk.inode path ≠ none) :
    (survey listing found).Ending (Answers may) Any
      (fun answer s' => s' = s ∧
        answer = .ok (found ++ (listing.filter counts).map (entryOf s.disk))) s := by
  induction listing generalizing found with
  | nil => exact Fallible.Ending.pure ⟨rfl, by rw [List.filter_nil, List.map_nil, List.append_nil]⟩
  | cons path rest ih =>
      obtain ⟨hpath, hrest⟩ := List.forall_mem_cons.mp hthere
      rw [survey]
      by_cases hskip : skip (fileName path) = true
      · have hcounts : counts path = false := by rw [counts, hskip]; rfl
        rw [if_pos hskip, List.filter_cons_of_neg (by rw [hcounts]; exact Bool.false_ne_true)]
        exact ih hrest
      · have hcounts : counts path = true := by
          rw [counts, Bool.eq_false_iff.mpr hskip]
          rfl
        rw [if_neg hskip, List.filter_cons_of_pos hcounts, List.map_cons]
        refine Fallible.Ending.caught fun answer s₁ hexec => ⟨trivial, ?_⟩
        obtain ⟨rfl, ⟨i, m, hi, rfl, hlength, hmodified⟩ | ⟨hnone, -⟩⟩ :=
          metadata_answers hmay hexec
        · refine Fallible.Ending.caught fun beside s₂ hexec => ⟨trivial, ?_⟩
          obtain ⟨rfl, hbeside⟩ := metadata_answers hmay hexec
          rw [List.append_cons]
          rcases hbeside with ⟨j, b, -, rfl, -, htime⟩ | ⟨hnone, rfl⟩
          · have hentry : entryOf s₂.disk path = ⟨b.modified, m.length, path, fileName path⟩ := by
              rw [entryOf, hlength, lastUse, ← htime]
            rw [hentry]
            exact ih hrest
          · have hentry : entryOf s₂.disk path = ⟨m.modified, m.length, path, fileName path⟩ := by
              have hbare : changed s₂.disk [sidecar (fileName path)] = none := by
                rw [changed, Disk.find_eq_none.mpr hnone, Option.map_none]
              rw [entryOf, hlength, lastUse, hbare, ← hmodified]
              rfl
            rw [hentry]
            exact ih hrest
        · exact absurd hnone hpath

/-- What is unlinked is gone. -/
theorem unlink_answers {answer : Except Refused Unit} (hmay : Lists may)
    (hexec : Answers may (.disk (.unlink path)) s answer s') :
    s'.disk.files = s.disk.files ∧
      (∀ p, s'.disk.inode p = if p = path then none else s.disk.inode p) ∧
      (s.disk.inode path ≠ none → answer = .ok ()) := by
  have hnone : s.disk.inode path = none → s'.disk = s.disk → s'.disk.files = s.disk.files ∧
      (∀ p, s'.disk.inode p = if p = path then none else s.disk.inode p) := by
    intro hnone hdisk
    refine ⟨by rw [hdisk], fun p => ?_⟩
    split
    · next heq => rw [heq, hdisk, hnone]
    · rw [hdisk]
  rcases hexec.1.unlink with ⟨i, hi, rfl, hdisk⟩ | ⟨hi, rfl, hdisk⟩ | ⟨hrefused, -, -⟩
  · rw [hdisk]
    exact ⟨rfl, fun p => Disk.inode_unname p, fun _ => rfl⟩
  · exact ⟨(hnone hi hdisk).1, (hnone hi hdisk).2, fun hne => absurd hi hne⟩
  · exact absurd hrefused (hmay.unlink path)

theorem counts_sidecar (name : Text) : counts [sidecar name] = false := by
  rw [counts, fileName, List.getLast?_singleton, Option.getD_some, skip_sidecar]
  rfl

/-- The oldest go until the rest fits. -/
theorem removeOldest_evicts (hmay : Lists may) (order : List LocalPath) (hnodup : order.Nodup)
    (hthere : ∀ path ∈ order, counts path = true ∧ s.disk.inode path ≠ none) :
    (cache.removeOldest (bytesOf d order) (order.map (entryOf d))).Ending (Answers may) Any
      (fun answer s' => answer = .ok () ∧ ∃ n,
        (∀ k, bytesOf d (order.drop k) ≤ cache.ceiling ↔ n ≤ k) ∧
        (∀ path, counts path = true →
          s'.disk.inode path = if path ∈ order.take n then none else s.disk.inode path) ∧
        s'.disk.files = s.disk.files) s := by
  induction order generalizing s with
  | nil =>
      refine Fallible.Ending.pure ⟨rfl, 0, fun k => ?_, fun p _ => ?_, rfl⟩
      · rw [List.drop_nil]
        exact iff_of_true (Nat.zero_le _) (Nat.zero_le k)
      · rw [List.take_nil, if_neg List.not_mem_nil]
  | cons path rest ih =>
      obtain ⟨⟨hcounts, hpath⟩, hrest⟩ := List.forall_mem_cons.mp hthere
      obtain ⟨hnew, hnodup⟩ := List.nodup_cons.mp hnodup
      rw [List.map_cons, removeOldest]
      by_cases hceiling : bytesOf d (path :: rest) ≤ cache.ceiling
      · rw [if_pos hceiling]
        have hnone : Evicts cache.ceiling d d (path :: rest) 0 := .none hceiling
        refine Fallible.Ending.pure ⟨rfl, 0, hnone.shortest, fun p _ => ?_, rfl⟩
        rw [List.take_zero, if_neg List.not_mem_nil]
      rw [if_neg hceiling]
      refine Fallible.Ending.caught fun answer s₁ hexec => ⟨trivial, ?_⟩
      obtain ⟨hfiles₁, hgone₁, hok⟩ := unlink_answers hmay hexec
      obtain rfl := hok hpath
      refine Fallible.Ending.caught fun _ s₂ hexec => ⟨trivial, ?_⟩
      obtain ⟨hfiles₂, hgone₂, -⟩ := unlink_answers hmay hexec
      refine Fallible.Ending.certain fun _ s₃ hexec₃ => ⟨trivial, ?_⟩
      refine Fallible.Ending.certain fun _ s₄ hexec₄ => ⟨trivial, ?_⟩
      have hdisk : s₄.disk = s₂.disk := hexec₄.1.trans hexec₃.1
      -- Of the cached objects, only the oldest is gone so far.
      have hgone : ∀ p, counts p = true →
          s₄.disk.inode p = if p = path then none else s.disk.inode p := by
        intro p hp
        rw [hdisk, hgone₂, if_neg (counted_ne (counts_sidecar _) hp).symm, hgone₁]
        rfl
      have hthere : ∀ p ∈ rest, counts p = true ∧ s₄.disk.inode p ≠ none := by
        intro p hp
        have hne : p ≠ path := by
          rintro rfl
          exact hnew hp
        rw [hgone p (hrest p hp).1, if_neg hne]
        exact hrest p hp
      have hleft : bytesOf d (path :: rest) - (entryOf d path).size = bytesOf d rest := by
        rw [bytesOf_cons]
        exact Nat.add_sub_cancel_left _ _
      rw [hleft]
      refine Program.Under.mono (ih hnodup hthere) ?_
      rintro answer s' ⟨hanswer, n, hshortest, hafter, hfiles⟩
      refine ⟨hanswer, n + 1, fun k => ?_, fun p hp => ?_, ?_⟩
      · cases k with
        | zero => exact iff_of_false hceiling (Nat.not_succ_le_zero n)
        | succ k =>
            rw [List.drop_succ_cons, hshortest]
            exact Nat.succ_le_succ_iff.symm
      · rw [hafter p hp, hgone p hp, List.take_succ_cons]
        by_cases hp' : p = path
        · subst hp'
          rw [if_pos rfl, if_pos List.mem_cons_self, ite_self]
        · have hmem : p ∈ path :: rest.take n ↔ p ∈ rest.take n := by simp [hp']
          simp only [hmem, hp', if_false]
      · rw [hfiles, hdisk, hfiles₂, hfiles₁]

/-- A listing of the directory, in order of use, ranks what is cached. -/
theorem ranked_listing {d : Volume} (h : Ordinary d) {listing : List LocalPath}
    (hperm : listing.Perm (d.children [])) :
    Ranked d ((listing.filter counts).insertionSort fun one other =>
      lastUse d one ≤ lastUse d other) := by
  refine ⟨?_, fun path => ?_, ?_⟩
  · exact (List.perm_insertionSort _ _).nodup_iff.mpr
      ((hperm.nodup_iff.mpr (Disk.nodup_children [])).filter _)
  · rw [List.mem_insertionSort, List.mem_filter, mem_cached, hperm.mem_iff, h.mem_children]
  · have htrans : IsTrans LocalPath fun one other => lastUse d one ≤ lastUse d other :=
      ⟨fun _ _ _ => le_trans⟩
    have htotal : Std.Total fun one other : LocalPath => lastUse d one ≤ lastUse d other :=
      ⟨fun one other => le_total (lastUse d one) (lastUse d other)⟩
    exact List.pairwise_insertionSort _ _

/-- **Eviction that is alone** removes the shortest prefix, in order of last use. -/
theorem evict_evicts (hmay : Lists may) (h : Ordinary s.disk) :
    cache.evict.Ending (Answers may) Any
      (fun answer s' => answer = .ok () ∧ ∃ order n, Ranked s.disk order ∧
        Evicts cache.ceiling s.disk s'.disk order n) s := by
  refine Fallible.Ending.caught fun answer s₁ hexec => ⟨trivial, ?_⟩
  obtain ⟨hlisting | ⟨hrefused, -⟩, hmemory⟩ := hexec
  case inr => exact absurd hrefused (hmay.readDir [])
  obtain ⟨hlisting, hdisk⟩ := hlisting
  obtain rfl : s₁ = s := Shared.eq hdisk hmemory
  split at hlisting
  · next hempty =>
      subst hlisting
      have hnone : cached s₁.disk = ∅ := by
        ext path
        rw [mem_cached, ← h.mem_children, hempty]
        simp
      have hranked : Ranked s₁.disk [] := ⟨List.nodup_nil, by simp [hnone], .nil⟩
      exact Fallible.Ending.pure ⟨rfl, [], 0, hranked, .none (Nat.zero_le _)⟩
  · obtain ⟨listing, rfl, hperm⟩ := hlisting
    have hthere : ∀ path ∈ listing, s₁.disk.inode path ≠ none := by
      intro path hpath
      exact Option.isSome_iff_ne_none.mp (h.mem_children.mp (hperm.mem_iff.mp hpath))
    refine Fallible.Ending.bind (Program.Under.mono (survey_finds hmay listing hthere) ?_)
    rintro _ s₂ ⟨rfl, rfl⟩
    dsimp only
    rw [List.nil_append]
    let le : LocalPath → LocalPath → Prop := fun one other =>
      lastUse s₂.disk one ≤ lastUse s₂.disk other
    let order := (listing.filter counts).insertionSort le
    have hsorted : byUse ((listing.filter counts).map (entryOf s₂.disk)) =
        order.map (entryOf s₂.disk) := by
      symm
      apply List.map_insertionSort
      intro one _ other _
      exact Iff.rfl
    have htotal : total ((listing.filter counts).map (entryOf s₂.disk)) =
        bytesOf s₂.disk order := by
      rw [total, List.map_map, bytesOf]
      exact ((List.perm_insertionSort le _).map s₂.disk.lengthAt).sum_eq.symm
    have hranked : Ranked s₂.disk order := ranked_listing h hperm
    rw [htotal, hsorted]
    split
    · next hfits => exact Fallible.Ending.pure ⟨rfl, order, 0, hranked, .none hfits⟩
    · refine Program.Under.mono (removeOldest_evicts hmay order hranked.nodup
        fun path hpath => ?_) ?_
      · obtain ⟨hsome, hcounts⟩ := mem_cached.mp ((hranked.each path).mp hpath)
        exact ⟨hcounts, Option.isSome_iff_ne_none.mp hsome⟩
      · rintro answer s' ⟨hanswer, n, hshortest, hgone, hfiles⟩
        exact ⟨hanswer, order, n, hranked, hshortest, hgone, hfiles⟩

/-- **A fill that is alone** evicts the shortest prefix, in order of last use, of what is cached
when its object is in place. -/
theorem fill_evicts {oid : Oid} {size : Nat} {chunks : List (Except Error Bytes)} (hmay : Lists may)
    (h : Ordinary s.disk)
    (hsteps : Program.Steps (Answers may) ((cache.fill oid size chunks).run, s)
      (.pure (.ok ()), s')) :
    ∃ s₁ order n, Program.Steps (Answers may) ((cache.stage oid size chunks).run, s)
        (.pure (.ok ()), s₁) ∧
      Ranked s₁.disk order ∧ Evicts cache.ceiling s₁.disk s'.disk order n := by
  have hfill : (cache.fill oid size chunks).Ending (Answers may) Any
      (fun answer s' => answer = .ok () → ∃ s₁ order n,
        Program.Steps (Answers may) ((cache.stage oid size chunks).run, s) (.pure (.ok ()), s₁) ∧
          Ranked s₁.disk order ∧ Evicts cache.ceiling s₁.disk s'.disk order n) s := by
    refine Fallible.Ending.attempt (Program.Under.mono (stage_staged size chunks h).comes ?_)
    rintro answer s₁ ⟨hstaged, hsteps⟩
    match answer with
    | .ok () =>
        obtain ⟨file, before, hstaged⟩ := hstaged
        refine Program.Under.mono (evict_evicts hmay hstaged.ordinary) ?_
        rintro _ s' ⟨-, order, n, hranked, hevicts⟩ -
        exact ⟨s₁, order, n, hsteps, hranked, hevicts⟩
    | .error e =>
        exact Fallible.Ending.caught fun _ s₂ _ => ⟨trivial, Fallible.Ending.throw nofun⟩
  exact ending_steps hfill hsteps rfl

end

/-! ## Sweeps -/

/-- How far a fill is with its eviction: what it has listed and not looked up yet, and what it has
found and not removed, with the length. -/
inductive Sweep where
  | idle
  /-- The object is in place. -/
  | placed
  | sweeping (left : List LocalPath) (found : List (LocalPath × Nat))

def Sweep.next : Sweep → (r : Req) → Resp r → Sweep
  | _, .disk (.rename _ _), .ok () => .placed
  | .placed, .disk (.readDir []), .ok (listing, _) => .sweeping listing []
  | .placed, .disk (.readDir []), .error _ => .sweeping [] []
  | .sweeping left found, .disk (.metadata path), .ok m =>
      if counts path then .sweeping (left.filter (· ≠ path)) (found ++ [(path, m.length)])
      else .sweeping left found
  | .sweeping left found, .disk (.metadata path), .error _ =>
      .sweeping (left.filter (· ≠ path)) found
  | .sweeping left found, .disk (.unlink path), _ =>
      .sweeping (left.filter (· ≠ path)) (found.filter (·.1 ≠ path))
  | phase, _, _ => phase

def Call.fills : Call → Prop
  | .fill _ _ _ => True
  | _ => False

/-- Only a fill puts an object in place. -/
def sweeping (call : Call) : Protocol Req Resp Sweep where
  first := .idle
  may _ r := ∀ source target, r = .disk (.rename source target) → call.fills
  next := Sweep.next

/-- What was listed was found or is gone, and what was found and not removed is within the
ceiling. -/
def Swept (cache : Cache) (phase : Sweep) : Prop :=
  ∃ left found, phase = .sweeping left found ∧ (∀ path ∈ left, counts path = false) ∧
    (found.map Prod.snd).sum ≤ cache.ceiling

def Found.pair (entry : Found) : LocalPath × Nat := (entry.path, entry.size)

section

variable {cache : Cache} {call : Call} {left : List LocalPath} {found : List (LocalPath × Nat)}

theorem survey_follows (listing : List LocalPath) (entries : List Found)
    (hleft : ∀ path ∈ left, counts path = true → path ∈ listing) :
    (survey listing entries).Follows (sweeping call)
      (fun answer phase => ∃ entries left, answer = .ok entries ∧
        phase = .sweeping left (entries.map Found.pair) ∧ ∀ path ∈ left, counts path = false)
      (.sweeping left (entries.map Found.pair)) := by
  induction listing generalizing left entries with
  | nil =>
      refine ⟨entries, left, rfl, rfl, fun path hpath => ?_⟩
      rw [Bool.eq_false_iff]
      exact fun hcounts => List.not_mem_nil (hleft path hpath hcounts)
  | cons path rest ih =>
      rw [survey]
      by_cases hskip : skip (fileName path) = true
      · rw [if_pos hskip]
        refine ih entries fun p hp hcounts => ?_
        rcases List.mem_cons.mp (hleft p hp hcounts) with rfl | hrest
        · rw [counts, hskip] at hcounts
          cases hcounts
        · exact hrest
      · have hcounts : counts path = true := by
          rw [counts, Bool.eq_false_iff.mpr hskip]
          rfl
        have hrest : ∀ p ∈ left.filter (· ≠ path), counts p = true → p ∈ rest := by
          intro p hp hcounts
          obtain ⟨hp, hne⟩ := List.mem_filter.mp hp
          exact (List.mem_cons.mp (hleft p hp hcounts)).resolve_left (of_decide_eq_true hne)
        rw [if_neg hskip]
        refine Fallible.Follows.caught (R := fun answer phase =>
            (∀ m, answer = .ok m → phase = .sweeping (left.filter (· ≠ path))
              (entries.map Found.pair ++ [(path, m.length)])) ∧
            ∀ e, answer = .error e →
              phase = .sweeping (left.filter (· ≠ path)) (entries.map Found.pair))
          (Fallible.Follows.ask (fun _ _ heq => by cases heq) fun answer => ⟨?_, ?_⟩) ?_
        · rintro m rfl
          exact if_pos hcounts
        · rintro e rfl
          rfl
        rintro answer phase ⟨hok, herror⟩
        cases answer with
        | error e =>
            rw [herror e rfl]
            exact ih entries hrest
        | ok m =>
            rw [hok m rfl]
            refine Fallible.Follows.caught (R := fun _ phase => ∃ left, phase = .sweeping left
                (entries.map Found.pair ++ [(path, m.length)]) ∧
                ∀ p ∈ left, counts p = true → p ∈ rest)
              (Fallible.Follows.ask (fun _ _ heq => by cases heq) fun answer => ?_) ?_
            · cases answer with
              | ok b =>
                  refine ⟨_, if_neg ?_, hrest⟩
                  rw [counts_sidecar]
                  exact Bool.false_ne_true
              | error e =>
                  exact ⟨_, rfl, fun p hp => hrest p (List.mem_filter.mp hp).1⟩
            rintro beside phase ⟨left, rfl, hleft⟩
            dsimp only
            have hentries : ∀ entry : Found, entry.pair = (path, m.length) →
                entries.map Found.pair ++ [(path, m.length)] =
                  (entries ++ [entry]).map Found.pair := by
              intro entry hentry
              rw [List.map_append, List.map_singleton, hentry]
            rw [hentries ⟨_, m.length, path, fileName path⟩ rfl]
            exact ih _ hleft

theorem sum_le_of_subperm {others : List (LocalPath × Nat)} (h : found.Subperm others) :
    (found.map Prod.snd).sum ≤ (others.map Prod.snd).sum := by
  obtain ⟨same, hperm, hsublist⟩ := h
  calc (found.map Prod.snd).sum = (same.map Prod.snd).sum := (hperm.map Prod.snd).sum_eq.symm
    _ ≤ (others.map Prod.snd).sum := (hsublist.map Prod.snd).sum_le_sum fun _ _ => Nat.zero_le _

theorem sum_pair (entries : List Found) :
    ((entries.map Found.pair).map Prod.snd).sum = (entries.map Found.size).sum := by
  rw [List.map_map]
  rfl

/-- What is left when an entry is gone. -/
theorem subperm_gone {entry : Found} {rest : List Found}
    (h : found.Subperm ((entry :: rest).map Found.pair)) :
    (found.filter (·.1 ≠ entry.path)).Subperm (rest.map Found.pair) := by
  have hfilter := h.filter (·.1 ≠ entry.path)
  rw [List.map_cons, List.filter_cons_of_neg (by simp [Found.pair])] at hfilter
  exact hfilter.trans List.filter_sublist.subperm

theorem removeOldest_follows (total : Nat) (rest : List Found)
    (hleft : ∀ path ∈ left, counts path = false) (hfound : found.Subperm (rest.map Found.pair))
    (htotal : (rest.map Found.size).sum ≤ total) :
    (cache.removeOldest total rest).Follows (sweeping call)
      (fun answer phase => answer = .ok () ∧ Swept cache phase) (.sweeping left found) := by
  induction rest generalizing total left found with
  | nil =>
      refine ⟨rfl, left, found, rfl, hleft, ?_⟩
      exact (sum_le_of_subperm hfound).trans (Nat.zero_le _)
  | cons entry rest ih =>
      have hleft' : ∀ path : LocalPath, ∀ p ∈ left.filter (· ≠ path), counts p = false :=
        fun path p hp => hleft p (List.mem_filter.mp hp).1
      have hrest := subperm_gone hfound
      rw [List.map_cons, List.sum_cons] at htotal
      rw [removeOldest]
      by_cases hceiling : total ≤ cache.ceiling
      · rw [if_pos hceiling]
        refine ⟨rfl, left, found, rfl, hleft, (sum_le_of_subperm hfound).trans ?_⟩
        rw [sum_pair, List.map_cons, List.sum_cons]
        exact htotal.trans hceiling
      rw [if_neg hceiling]
      refine Fallible.Follows.caught (R := fun _ phase => phase =
          .sweeping (left.filter (· ≠ entry.path)) (found.filter (·.1 ≠ entry.path)))
        (Fallible.Follows.ask (fun _ _ heq => by cases heq) fun answer => by
          cases answer <;> rfl) ?_
      rintro answer phase rfl
      cases answer with
      | error e => exact ih total (hleft' _) hrest (by omega)
      | ok _ =>
          refine Fallible.Follows.caught (R := fun _ phase => ∃ left found', phase =
              .sweeping left found' ∧ (∀ p ∈ left, counts p = false) ∧
              found'.Subperm (rest.map Found.pair))
            (Fallible.Follows.ask (fun _ _ heq => by cases heq) fun answer => ?_) ?_
          · refine ⟨_, _, by cases answer <;> rfl, fun p hp => ?_,
              List.filter_sublist.subperm.trans hrest⟩
            exact hleft' _ p (List.mem_filter.mp hp).1
          rintro _ phase ⟨left, found', rfl, hleft, hfound⟩
          refine Fallible.Follows.issue (fun _ _ heq => by cases heq) fun _ =>
            Fallible.Follows.issue (fun _ _ heq => by cases heq) fun _ => ?_
          exact ih (total - entry.size) hleft hfound (by omega)

theorem evict_follows : cache.evict.Follows (sweeping call)
    (fun answer phase => answer = .ok () ∧ Swept cache phase) .placed := by
  refine Fallible.Follows.caught (R := fun answer phase => phase = match answer with
      | .ok (listing, _) => .sweeping listing []
      | .error _ => .sweeping [] [])
    (Fallible.Follows.ask nofun fun answer => by cases answer <;> rfl) ?_
  rintro answer phase rfl
  match answer with
  | .error e =>
      exact ⟨rfl, [], [], rfl, fun _ hpath => absurd hpath List.not_mem_nil, Nat.zero_le _⟩
  | .ok (listing, whole) =>
      refine Fallible.Follows.bind (survey_follows listing [] fun _ hpath _ => hpath) ?_ ?_
      · rintro found phase ⟨entries, left, heq, rfl, hleft⟩
        obtain rfl : found = entries := Except.ok.inj heq
        split
        · next hfits =>
            exact ⟨rfl, left, _, rfl, hleft, le_of_eq_of_le (sum_pair found) hfits⟩
        · have hperm := List.perm_insertionSort (fun a b : Found => a.used ≤ b.used) found
          refine removeOldest_follows _ _ hleft ?_ ?_
          · exact (hperm.map Found.pair).symm.subperm
          · exact ((hperm.map Found.size).sum_eq).le
      · rintro e phase ⟨entries, left, heq, -⟩
        cases heq

theorem next_idle {r : Req} {answer : Resp r}
    (h : ∀ source target, r ≠ .disk (.rename source target)) :
    Sweep.idle.next r answer = .idle := by
  cases r with
  | disk r =>
      cases r with
      | rename source target => exact absurd rfl (h source target)
      | readDir dir => cases dir <;> rfl
      | _ => rfl
  | _ => rfl

/-- An operation that puts nothing in place does not begin. -/
theorem idle_follows {α : Type} {p : Req → Prop} {op : Op α}
    (h : op.Only p (fun _ _ => True) fun _ => True)
    (hp : ∀ r, p r → ∀ source target, r ≠ .disk (.rename source target)) :
    op.Follows (sweeping call) (fun _ phase => phase = .idle) .idle := by
  have hprogram : ∀ {β : Type} {Q : β → Prop} (op : Program Req Resp β),
      op.Only p (fun _ _ => True) Q →
      op.Follows (sweeping call) (fun _ phase => phase = .idle) .idle := by
    intro β Q op honly
    induction op with
    | pure a => rfl
    | request r next ih =>
        refine ⟨fun source target heq => absurd heq (hp r honly.1 source target), fun answer => ?_⟩
        show (next answer).Follows _ _ (Sweep.idle.next r answer)
        rw [next_idle (hp r honly.1)]
        exact ih answer (honly.2 answer trivial)
  exact hprogram op.run h

theorem io_follows {α : Type} {r : Req} {h : Resp r = Except Refused α}
    (hr : ∀ source target, r ≠ .disk (.rename source target)) :
    (io (Fallible.ask r h)).Follows (sweeping call) (fun _ phase => phase = .idle) .idle := by
  refine Fallible.Follows.mapError (Fallible.Follows.ask ?_ fun _ => next_idle hr)
  exact fun source target heq => absurd heq (hr source target)

theorem receive_follows (file : Nat) (chunks : List (Except Error Bytes)) (taken : Bytes) :
    (receive file chunks taken).Follows (sweeping call) (fun _ phase => phase = .idle) .idle := by
  induction chunks generalizing taken with
  | nil => rfl
  | cons chunk rest ih =>
      cases chunk with
      | error e => rfl
      | ok chunk =>
          refine Fallible.Follows.bind (io_follows nofun) ?_ fun _ _ h => h
          rintro _ phase rfl
          exact ih _

theorem stage_follows (oid : Oid) (size : Nat) (chunks : List (Except Error Bytes))
    (hcall : call.fills) : (cache.stage oid size chunks).Follows (sweeping call)
      (fun answer phase => match answer with
        | .ok () => phase = .placed
        | .error _ => phase = .idle) .idle := by
  refine Fallible.Follows.bind (io_follows fun _ _ heq => by cases heq) ?_ fun _ _ h => h
  rintro file phase rfl
  refine Fallible.Follows.bind (receive_follows file chunks []) ?_ fun _ _ h => h
  rintro taken phase rfl
  split
  · rfl
  refine Fallible.Follows.bind (io_follows fun _ _ heq => by cases heq) ?_ fun _ _ h => h
  rintro beside phase rfl
  refine Fallible.Follows.bind (io_follows fun _ _ heq => by cases heq) ?_ fun _ _ h => h
  rintro _ phase rfl
  refine Fallible.Follows.bind (R := fun answer phase => match answer with
      | .ok () => phase = .placed
      | .error _ => phase = .idle)
    (Fallible.Follows.mapError (Fallible.Follows.ask (fun _ _ _ => hcall) ?_)) ?_ fun _ _ h => h
  · intro answer
    cases answer with
    | ok _ => rfl
    | error e => rfl
  · rintro _ phase rfl
    exact Fallible.Follows.certain (fun _ _ heq => by cases heq) fun _ => rfl

theorem fill_follows (oid : Oid) (size : Nat) (chunks : List (Except Error Bytes))
    (hcall : call.fills) : (cache.fill oid size chunks).Follows (sweeping call)
      (fun answer phase => match answer with
        | .ok () => Swept cache phase
        | .error _ => phase = .idle) .idle := by
  refine Fallible.Follows.attempt (stage_follows oid size chunks hcall) fun answer phase h => ?_
  match answer with
  | .ok () =>
      obtain rfl := h
      refine Program.Follows.mono evict_follows ?_
      rintro _ phase ⟨rfl, hswept⟩
      exact hswept
  | .error e =>
      obtain rfl := h
      refine Fallible.Follows.caught (R := fun _ phase => phase = .idle)
        (Fallible.Follows.ask nofun fun _ => rfl) ?_
      rintro _ phase rfl
      rfl

/-- A call that has returned has put nothing in place, or its eviction is over. -/
def Over (cache : Cache) (call : Call) (answer : Except Error (Option Nat))
    (phase : Sweep) : Prop :=
  phase = .idle ∧ (call.fills → ∀ file, answer ≠ .ok file) ∨ Swept cache phase

theorem call_follows :
    (call.op cache).Follows (sweeping call) (Over cache call) .idle := by
  have hidle : ∀ {α : Type} {p : Req → Prop} {op : Op α} {f : α → Op (Option Nat)},
      (∀ a, f a = return none) → ¬ call.fills → op.Only p (fun _ _ => True) (fun _ => True) →
      (∀ r, p r → ∀ source target, r ≠ .disk (.rename source target)) →
      (op >>= f).Follows (sweeping call) (Over cache call) .idle := by
    intro α p op f hf hcall honly hp
    refine Fallible.Follows.bind (idle_follows honly hp) ?_ ?_
    · rintro a phase rfl
      rw [hf]
      exact Or.inl ⟨rfl, fun hfills => absurd hfills hcall⟩
    · rintro e phase rfl
      exact Or.inl ⟨rfl, fun hfills => absurd hfills hcall⟩
  have hfree : ∀ r : Req, r.Free → ∀ source target, r ≠ .disk (.rename source target) := by
    rintro r (hcalm | ⟨path, rfl⟩) source target heq
    · rw [heq] at hcalm
      exact hcalm
    · cases heq
  cases call with
  | «open» oid =>
      have honly : (cache.open oid).Only (Serves oid) (fun _ _ => True) fun _ => True := open_only
      refine Program.Follows.mono (idle_follows honly ?_) ?_
      · rintro r (hstill | rfl | rfl) source target heq
        · rw [heq] at hstill
          exact hstill
        · cases heq
        · cases heq
      · rintro answer phase rfl
        exact Or.inl ⟨rfl, fun hfills => hfills.elim⟩
  | fill oid size chunks =>
      refine Fallible.Follows.bind (fill_follows oid size chunks trivial) ?_ ?_
      · exact fun _ phase hswept => Or.inr hswept
      · rintro e phase rfl
        exact Or.inl ⟨rfl, fun _ _ => nofun⟩
  | evict => exact hidle (fun _ => rfl) id evict_free hfree
  | discard oid => exact hidle (fun _ => rfl) id (discard_free oid) hfree

end

/-! ## Sweeps side by side -/

/-- Every cached object is yet to be looked up, or was found with its length. -/
def Covers (d : Volume) : Sweep → Prop
  | .sweeping left found => ∀ path, counts path = true → d.inode path ≠ none →
      path ∈ left ∨ (path, d.lengthAt path) ∈ found
  | _ => True

/-- No cached object came or was written. -/
def Dwindled (d d' : Volume) : Prop :=
  ∀ path, counts path = true → d'.inode path ≠ none →
    d.inode path ≠ none ∧ d'.lengthAt path = d.lengthAt path

section

variable {may : Req → Prop} {r : Req} {answer : Resp r} {s s' : Shared} {d d' : Volume}
  {phase : Sweep}

theorem Covers.dwindled (h : Covers d phase) (hdwindled : Dwindled d d') : Covers d' phase := by
  cases phase with
  | sweeping left found =>
      intro path hcounts hpath
      obtain ⟨hbefore, hlength⟩ := hdwindled path hcounts hpath
      rw [hlength]
      exact h path hcounts hbefore
  | _ => trivial

/-- A listing of the directory has all that is cached. -/
theorem readDir_covers {answer : Except Refused (List LocalPath × Bool)} (hmay : Lists may)
    (hordinary : Ordinary s.disk) (hexec : Answers may (.disk (.readDir [])) s answer s') :
    s' = s ∧ Covers s.disk (Sweep.placed.next (.disk (.readDir [])) answer) := by
  obtain ⟨hlisting | ⟨hrefused, -⟩, hmemory⟩ := hexec
  case inr => exact absurd hrefused (hmay.readDir [])
  obtain ⟨hlisting, hdisk⟩ := hlisting
  refine ⟨Shared.eq hdisk hmemory, ?_⟩
  have hthere : ∀ path, s.disk.inode path ≠ none → path ∈ s.disk.children [] := fun path hpath =>
    hordinary.mem_children.mpr (Option.isSome_iff_ne_none.mpr hpath)
  split at hlisting
  · next hempty =>
      subst hlisting
      intro path _ hpath
      exact absurd (hempty ▸ hthere path hpath) List.not_mem_nil
  · obtain ⟨listing, rfl, hperm⟩ := hlisting
    intro path _ hpath
    exact Or.inl (hperm.mem_iff.mpr (hthere path hpath))

/-- What is left to look up, or was found, when a path is gone or found. -/
theorem metadata_covers {path : LocalPath} {left : List LocalPath}
    {found : List (LocalPath × Nat)} {answer : Except Refused Metadata} (hmay : Lists may)
    (hexec : Answers may (.disk (.metadata path)) s answer s')
    (h : Covers s.disk (.sweeping left found)) :
    s' = s ∧ Covers s.disk ((Sweep.sweeping left found).next (.disk (.metadata path)) answer) := by
  have hleft : ∀ {p : LocalPath}, p ≠ path → p ∈ left → p ∈ left.filter (· ≠ path) := fun hne hp =>
    List.mem_filter.mpr ⟨hp, decide_eq_true hne⟩
  obtain ⟨rfl, ⟨i, m, hi, rfl, hlength, -⟩ | ⟨hnone, rfl⟩⟩ := metadata_answers hmay hexec
  · refine ⟨rfl, ?_⟩
    rw [Sweep.next]
    split
    · intro p hcounts hp
      by_cases heq : p = path
      · subst heq
        rw [← hlength]
        exact Or.inr (List.mem_append_right _ List.mem_cons_self)
      · exact (h p hcounts hp).imp (hleft heq) (List.mem_append_left _)
    · exact h
  · refine ⟨rfl, fun p hcounts hp => (h p hcounts hp).imp_left (hleft ?_)⟩
    rintro rfl
    exact hp hnone

theorem unlink_covers {path : LocalPath} {left : List LocalPath} {found : List (LocalPath × Nat)}
    {answer : Except Refused Unit} (hmay : Lists may)
    (hexec : Answers may (.disk (.unlink path)) s answer s') (hdwindled : Dwindled s.disk s'.disk)
    (h : Covers s.disk (.sweeping left found)) :
    Covers s'.disk ((Sweep.sweeping left found).next (.disk (.unlink path)) answer) := by
  obtain ⟨-, hgone, -⟩ := unlink_answers hmay hexec
  have hnext : (Sweep.sweeping left found).next (.disk (.unlink path)) answer =
      .sweeping (left.filter (· ≠ path)) (found.filter (·.1 ≠ path)) := by
    cases answer <;> rfl
  rw [hnext]
  intro p hcounts hp
  have hne : p ≠ path := by
    rintro rfl
    rw [hgone, if_pos rfl] at hp
    exact hp rfl
  obtain ⟨hbefore, hlength⟩ := hdwindled p hcounts hp
  rw [hlength]
  refine (h p hcounts hbefore).imp (fun hleft => ?_) fun hfound => ?_
  · exact List.mem_filter.mpr ⟨hleft, decide_eq_true hne⟩
  · exact List.mem_filter.mpr ⟨hfound, decide_eq_true hne⟩

/-- **A step of a sweep** when nothing is put in place. -/
theorem Covers.next (hmay : Lists may) (hordinary : Ordinary s.disk)
    (hexec : Answers may r s answer s') (hdwindled : Dwindled s.disk s'.disk)
    (h : Covers s.disk phase) : Covers s'.disk (phase.next r answer) := by
  have hsame : phase.next r answer = phase → Covers s'.disk (phase.next r answer) := by
    intro hphase
    rw [hphase]
    exact h.dwindled hdwindled
  cases r with
  | disk r =>
      cases r with
      | rename source target =>
          match answer with
          | .ok () => cases phase <;> trivial
          | .error e => exact hsame (by cases phase <;> rfl)
      | readDir dir =>
          match dir, phase, answer, hexec with
          | [], .placed, answer, hexec =>
              obtain ⟨rfl, hcovers⟩ := readDir_covers hmay hordinary hexec
              exact hcovers
          | [], .idle, _, _ => trivial
          | [], .sweeping left found, _, _ => exact hsame rfl
          | _ :: _, phase, _, _ => exact hsame (by cases phase <;> rfl)
      | metadata path =>
          match phase, answer, hexec with
          | .sweeping left found, answer, hexec =>
              obtain ⟨rfl, hcovers⟩ := metadata_covers hmay hexec h
              exact hcovers
          | .idle, _, _ => exact hsame rfl
          | .placed, _, _ => exact hsame rfl
      | unlink path =>
          match phase, answer, hexec with
          | .sweeping left found, answer, hexec => exact unlink_covers hmay hexec hdwindled h
          | .idle, _, _ => exact hsame rfl
          | .placed, _, _ => exact hsame rfl
      | _ => exact hsame (by cases phase <;> rfl)
  | _ => exact hsame (by cases phase <;> rfl)

end

section

variable {ι : Type} [DecidableEq ι]

def sweep (i : ι) (past : Past ι) : Sweep := trail Sweep.next .idle i past

/-- Whether an event put an object in place. -/
def places : Event ι Req Resp → Bool
  | ⟨_, .disk (.rename _ _), .ok ()⟩ => true
  | _ => false

/-- Whose object was put in place last. -/
def placer (past : Past ι) : Option ι := (past.find? places).map Event.thread

/-- What the last sweep that has begun may yet find. -/
def Covered (w : World ι) : Prop := ∀ i, placer w.2 = some i → Covers w.1.disk (sweep i w.2)

variable {cache : Cache} {calls : ι → Call} {may : Req → Prop} {i : ι} {r : Req}
  {answer : Resp r} {w : World ι} {s' : Shared}

/-- Nothing but a rename puts an object in place, and nobody writes one that is in place. -/
theorem Kept.dwindled (h : Kept cache calls w)
    (hallowed : Allowed cache (calls i).oid (phase cache i w.2) r)
    (hexec : Answers may r w.1 answer s')
    (hplaces : places (⟨i, r, answer⟩ : Event ι Req Resp) = false) :
    Dwindled w.1.disk s'.disk := by
  intro path hcounts hpath
  obtain ⟨k, hk⟩ := Option.ne_none_iff_exists'.mp hpath
  have hchange := h.change hallowed hexec
  have hbefore : w.1.disk.inode path = some k := by
    rcases hchange.inode hk with hbefore | ⟨hprivate, -⟩ | ⟨-, -, hplaced, hne⟩
    · exact hbefore
    · rw [not_counts_of_private hprivate] at hcounts
      cases hcounts
    · rcases hallowed.placed (i := i) hplaced with heq | ⟨-, hevent⟩
      · exact absurd heq hne
      · rw [hevent] at hplaces
        cases hplaces
  have hother : ∀ q, counts q = false → ¬ (w.1.disk.inode q = some k ∨
      (k, q) ∈ (phase cache i w.2).holds (calls i).oid) := by
    rintro q hq (hinode | hheld)
    · exact counted_ne hq hcounts (h.lent.ordinary.single _ _ k hinode hbefore)
    · exact counted_ne hq hcounts (h.lent.named k q path ⟨i, hheld⟩ hbefore).symm
  refine ⟨by rw [hbefore]; exact Option.some_ne_none k, ?_⟩
  rcases hchange.file (Disk.inode_lt hbefore) with hsame | hfill | ⟨hfill, -⟩
  · have hlength := congrArg (Option.map List.length) hsame
    rw [Option.map_map, Option.map_map] at hlength
    rw [Disk.lengthAt_of_inode hk, Disk.lengthAt_of_inode hbefore, Disk.lengthOf, Disk.lengthOf]
    exact congrArg (fun o => o.getD 0) hlength
  · exact absurd hfill (hother _ (counts_incoming _))
  · exact absurd hfill (hother _ (counts_digest _))

omit [DecidableEq ι] in
theorem placer_cons_of {past : Past ι} (h : places ⟨i, r, answer⟩ = true) :
    placer (⟨i, r, answer⟩ :: past) = some i := by
  rw [placer, List.find?_cons_of_pos h]
  rfl

omit [DecidableEq ι] in
theorem placer_cons_of_not {past : Past ι} (h : places ⟨i, r, answer⟩ = false) :
    placer (⟨i, r, answer⟩ :: past) = placer past := by
  rw [placer, List.find?_cons_of_neg (by rw [h]; exact Bool.false_ne_true)]
  rfl

omit [DecidableEq ι] in
theorem next_places {phase : Sweep} (h : places (⟨i, r, answer⟩ : Event ι Req Resp) = true) :
    phase.next r answer = .placed := by
  unfold places at h
  split at h
  · next heq =>
      cases heq
      cases phase <;> rfl
  · cases h

/-- **A step of any thread.** -/
theorem Covered.step (h : Covered w) (hmay : Lists may) (hkept : Kept cache calls w)
    (hallowed : Allowed cache (calls i).oid (phase cache i w.2) r)
    (hexec : Answers may r w.1 answer s') : Covered (s', ⟨i, r, answer⟩ :: w.2) := by
  intro j hj
  cases hplaces : places (⟨i, r, answer⟩ : Event ι Req Resp) with
  | true =>
      rw [placer_cons_of hplaces, Option.some.injEq] at hj
      subst hj
      rw [sweep, trail_own, next_places hplaces]
      trivial
  | false =>
      rw [placer_cons_of_not hplaces] at hj
      have hdwindled := hkept.dwindled hallowed hexec hplaces
      by_cases hij : i = j
      · subst hij
        rw [sweep, trail_own]
        exact (h i hj).next hmay hkept.lent.ordinary hexec hdwindled
      · rw [sweep, trail_other hij]
        exact (h j hj).dwindled hdwindled

omit [DecidableEq ι] in
theorem next_idle_iff {phase : Sweep} : phase.next r answer = .idle ↔
    phase = .idle ∧ places (⟨i, r, answer⟩ : Event ι Req Resp) = false := by
  unfold Sweep.next
  split
  · exact iff_of_false nofun fun h => nomatch h.2
  · exact iff_of_false nofun fun h => nomatch h.1
  · exact iff_of_false nofun fun h => nomatch h.1
  · refine iff_of_false ?_ fun h => nomatch h.1
    split <;> exact nofun
  · exact iff_of_false nofun fun h => nomatch h.1
  · exact iff_of_false nofun fun h => nomatch h.1
  · next hplaces _ _ _ _ _ =>
      refine (and_iff_left ?_).symm
      unfold places
      split
      · next heq =>
          cases heq
          exact (hplaces _ _ rfl HEq.rfl).elim
      · rfl

/-- A sweep is idle until its thread has put an object in place. -/
theorem sweep_idle_iff {past : Past ι} :
    sweep i past = .idle ↔ ∀ e ∈ past, e.thread = i → places e = false := by
  induction past with
  | nil => exact iff_of_true rfl fun e he => absurd he List.not_mem_nil
  | cons e past ih =>
      obtain ⟨j, r, answer⟩ := e
      rw [List.forall_mem_cons, ← ih]
      by_cases hj : j = i
      · subst hj
        rw [sweep, trail_own, next_idle_iff (i := j), and_comm]
        exact and_congr_left' (by simp)
      · rw [sweep, trail_other hj]
        exact (and_iff_right fun heq => absurd heq hj).symm

/-- What is found is no less than what is cached. -/
theorem cachedBytes_le {d : Volume} {found : List (LocalPath × Nat)}
    (h : ∀ path ∈ cached d, (path, d.lengthAt path) ∈ found) :
    cachedBytes d ≤ (found.map Prod.snd).sum := by
  let entry : LocalPath → LocalPath × Nat := fun path => (path, d.lengthAt path)
  have hnodup : ((cached d).toList.map entry).Nodup :=
    (Finset.nodup_toList _).map fun one other heq => congrArg Prod.fst heq
  have hsubset : (cached d).toList.map entry ⊆ found := by
    intro e he
    obtain ⟨path, hpath, rfl⟩ := List.mem_map.mp he
    exact h path (Finset.mem_toList.mp hpath)
  calc cachedBytes d = ((cached d).toList.map d.lengthAt).sum := (Finset.sum_map_toList _ _).symm
    _ = (((cached d).toList.map entry).map Prod.snd).sum := by rw [List.map_map]; rfl
    _ ≤ (found.map Prod.snd).sum := sum_le_of_subperm (List.subperm_of_subset hnodup hsubset)

variable {s₀ : Shared} {pool : Pool ι Req Resp (Except Error (Option Nat)) (World ι)}

/-- Only fills put objects in place, and what every call has come to. -/
theorem swept (hsteps : Pool.Steps (recording fun _ => Answers may)
      ⟨fun i => ((calls i).op cache).run, (s₀, [])⟩ pool) :
    (∀ e ∈ pool.state.2, places e = true → (calls e.thread).fills) ∧
      ∀ i, (pool.progs i).Follows (sweeping (calls i)) (Over cache (calls i))
        (sweep i pool.state.2) := by
  refine Pool.Steps.follows (P := fun i => sweeping (calls i))
    (I := fun w => ∀ e ∈ w.2, places e = true → (calls e.thread).fills) ?_
    (fun i => call_follows) (fun e he => absurd he List.not_mem_nil) hsteps
  intro i r w answer s' hfills hmay _
  refine List.forall_mem_cons.mpr ⟨fun hplaces => ?_, hfills⟩
  unfold places at hplaces
  split at hplaces
  · next source target heq =>
      cases heq
      exact hmay source target rfl
  · cases hplaces

theorem covered (hfresh : Fresh s₀) (hmay : Lists may)
    (hsteps : Pool.Steps (recording fun _ => Answers may)
      ⟨fun i => ((calls i).op cache).run, (s₀, [])⟩ pool)
    (hclaimed : Claimed cache calls pool.state.2) : Covered pool.state := by
  have hsound : (ledger cache calls s₀ may).Sound (s₀, []) := fresh_sound hfresh
  have hrely : ∀ i j, i ≠ j → ∀ w w', (ledger cache calls s₀ may).Does i w w' →
      (ledger cache calls s₀ may).Moves j w w' := fun i _ hij _ _ h => ⟨i, hij, h⟩
  have hunder : Pool.Under (ledger cache calls s₀ may).entering (ledger cache calls s₀ may).Moves
      (ledger cache calls s₀ may).Does _ ⟨fun i => ((calls i).op cache).run, (s₀, [])⟩ :=
    fun i => call_among rfl hsound rfl
  refine Pool.Steps.invariant (I := fun w => Claimed cache calls w.2 → Covered w) hrely ?_ hunder
    ?_ hsteps hclaimed
  · rintro i w ⟨s', past'⟩ ⟨hsound, r, answer, hallowed, hexec, rfl⟩ hcovered hclaimed
    exact (hcovered hclaimed.1).step hmay (hsound hclaimed.1).1 hallowed hexec
  · intro _ i hi
    cases hi

/-- Every fill that has begun has returned. -/
def Quiet (calls : ι → Call) (pool : Pool ι Req Resp (Except Error (Option Nat)) (World ι)) :
    Prop :=
  ∀ e ∈ pool.state.2, (calls e.thread).fills → ∃ answer, pool.progs e.thread = .pure answer

/-- **What is cached is within the ceiling** when every fill has returned and one has filled. -/
theorem fills_within (hfresh : Fresh s₀) (hmay : Lists may)
    (hsteps : Pool.Steps (recording fun _ => Answers may)
      ⟨fun i => ((calls i).op cache).run, (s₀, [])⟩ pool)
    (hclaimed : Claimed cache calls pool.state.2)
    (hquiet : Quiet calls pool) {file : Option Nat} (hfills : (calls i).fills)
    (hfilled : pool.progs i = .pure (.ok file)) :
    cachedBytes pool.state.1.disk ≤ cache.ceiling := by
  obtain ⟨hplaces, hfollows⟩ := swept hsteps
  have hover : ∀ j answer, pool.progs j = .pure answer →
      Over cache (calls j) answer (sweep j pool.state.2) := by
    intro j answer hj
    have hover := hfollows j
    rw [hj] at hover
    exact hover
  have hbegun : sweep i pool.state.2 ≠ .idle := by
    intro hidle
    rcases hover i _ hfilled with ⟨-, hanswer⟩ | ⟨left, found, hsweep, -⟩
    · exact hanswer hfills file rfl
    · rw [hidle] at hsweep
      cases hsweep
  have hplaced : ∃ e ∈ pool.state.2, places e = true := by
    by_contra hnone
    refine hbegun (sweep_idle_iff.mpr fun e he _ => Bool.eq_false_iff.mpr fun hplaces => ?_)
    exact hnone ⟨e, he, hplaces⟩
  obtain ⟨e, hfind⟩ := Option.isSome_iff_exists.mp (List.find?_isSome.mpr hplaced)
  have hmem : e ∈ pool.state.2 := List.mem_of_find?_eq_some hfind
  have hlast : places e = true := List.find?_some hfind
  have hcovers : Covers pool.state.1.disk (sweep e.thread pool.state.2) := by
    apply covered hfresh hmay hsteps hclaimed
    rw [placer, hfind]
    rfl
  obtain ⟨answer, hanswer⟩ := hquiet e hmem (hplaces e hmem hlast)
  rcases hover e.thread answer hanswer with ⟨hidle, -⟩ | ⟨left, found, hsweep, hleft, hfound⟩
  · rw [sweep_idle_iff.mp hidle e hmem rfl] at hlast
    cases hlast
  · rw [hsweep] at hcovers
    refine (cachedBytes_le fun path hpath => ?_).trans hfound
    obtain ⟨hthere, hcounts⟩ := mem_cached.mp hpath
    refine (hcovers path hcounts (Option.isSome_iff_ne_none.mp hthere)).resolve_left fun hmem => ?_
    rw [hleft path hmem] at hcounts
    cases hcounts

/-- **Eviction respects the ceiling and the order of use**, if fills of one object do not
overlap. -/
theorem evicted_to_ceiling (hfresh : Fresh s₀) (hmay : Lists may) :
    (∀ pool : Pool ι Req Resp (Except Error (Option Nat)) (World ι),
      Pool.Steps (recording fun _ => Answers may)
        ⟨fun i => ((calls i).op cache).run, (s₀, [])⟩ pool →
      Claimed cache calls pool.state.2 → Quiet calls pool →
      (∃ i file, (calls i).fills ∧ pool.progs i = .pure (.ok file)) →
      cachedBytes pool.state.1.disk ≤ cache.ceiling) ∧
    ∀ (oid : Oid) (size : Nat) (chunks : List (Except Error Bytes)) (s s' : Shared),
      Ordinary s.disk →
      Program.Steps (Answers may) ((cache.fill oid size chunks).run, s) (.pure (.ok ()), s') →
      ∃ s₁ order n, Program.Steps (Answers may) ((cache.stage oid size chunks).run, s)
          (.pure (.ok ()), s₁) ∧
        Ranked s₁.disk order ∧ Evicts cache.ceiling s₁.disk s'.disk order n := by
  refine ⟨fun pool hsteps hclaimed hquiet => ?_, fun oid size chunks s s' hordinary hsteps => ?_⟩
  · rintro ⟨i, file, hfills, hfilled⟩
    exact fills_within hfresh hmay hsteps hclaimed hquiet hfills hfilled
  · exact fill_evicts hmay hordinary hsteps

end

/-! ### Fills of two objects -/

/-- Two objects, which are as much as there is room for. -/
def crowded : Shared where
  disk :=
    { (((Disk.empty.add (object Oid.ones) 0).fill 0 [7, 7] 0).add
        (object Oid.threes) 0).fill 1 [9] 1 with
      clock := 2 }
  memory := ⟨∅, ∅, 3, 0, 0⟩

theorem fresh_crowded : Fresh crowded := by
  have hones : Ordinary ((Disk.empty.add (object Oid.ones) 0).fill 0 [7, 7] 0) :=
    (ordinary_empty.add Oid.ones.text).congr fun _ => Disk.inode_fill _
  have hthrees : Ordinary
      ((((Disk.empty.add (object Oid.ones) 0).fill 0 [7, 7] 0).add
        (object Oid.threes) 0).fill 1 [9] 1) :=
    (hones.add Oid.threes.text).congr fun _ => Disk.inode_fill _
  exact ⟨hthrees.congr fun _ => rfl, rfl⟩

/-- Fills of two bytes and of one. -/
def apart : Bool → Call
  | true => .fill .zeros 2 [.ok [1, 2]]
  | false => .fill Oid.twos 1 [.ok [3]]

/-- Both are staged before one is in place, and each evicts an object while the other looks. -/
def inTurns : List Bool :=
  (List.replicate 4 [true, false]).flatten ++ [true, true, true, false, false, false] ++
    (List.replicate 10 [true, false]).flatten ++ [false]

/-- Two fills of a full cache that evict side by side, and one that is alone. -/
theorem evicted_to_ceiling_crowded :
    (∃ pool, Pool.play playing inTurns
        ⟨fun i => ((apart i).op threeBytes).run, (crowded, [])⟩ = some pool ∧
      pool.state.1.disk.find (object Oid.ones) = none ∧
      pool.state.1.disk.find (object Oid.threes) = none ∧
      cachedBytes pool.state.1.disk ≤ 3) ∧
    ((threeBytes.fill .zeros 2 [.ok [1, 2]]).run.eval respond crowded).2.disk.find
      (object Oid.ones) =
        none ∧
      ∃ s₁ order n, Program.Steps (Answers fun _ => False)
          ((threeBytes.stage .zeros 2 [.ok [1, 2]]).run, crowded) (.pure (.ok ()), s₁) ∧
        Ranked s₁.disk order ∧ Evicts 3 s₁.disk
          ((threeBytes.fill .zeros 2 [.ok [1, 2]]).run.eval respond crowded).2.disk order n := by
  have hlists : Lists fun _ => False := ⟨fun _ => id, fun _ => id, fun _ => id⟩
  have hevicted := @evicted_to_ceiling Bool _ threeBytes apart _ crowded fresh_crowded hlists
  refine ⟨?_, ?_, ?_⟩
  · have hrun : ((Pool.play playing inTurns
        ⟨fun i => ((apart i).op threeBytes).run, (crowded, [])⟩).any fun pool =>
          decide (Claimed threeBytes apart pool.state.2) &&
            decide (∀ i, returned none (pool.progs i) = true) &&
            pool.state.1.disk.find (object Oid.ones) == none &&
            pool.state.1.disk.find (object Oid.threes) == none) = true := by
      decide +kernel
    obtain ⟨pool, hplay, hcheck⟩ := (Option.any_eq_true _ _).mp hrun
    simp only [Bool.and_eq_true, decide_eq_true_eq, beq_iff_eq] at hcheck
    obtain ⟨⟨⟨hclaimed, hreturned⟩, hones⟩, hthrees⟩ := hcheck
    have hfilled : ∀ i, pool.progs i = .pure (.ok none) := fun i => eq_of_returned (hreturned i)
    exact ⟨pool, hplay, hones, hthrees, hevicted.1 pool (Pool.play_steps (playing_answers _) hplay)
      hclaimed (fun e _ _ => ⟨_, hfilled e.thread⟩) ⟨true, none, trivial, hfilled true⟩⟩
  · decide +kernel
  · have hanswer : ((threeBytes.fill .zeros 2 [.ok [1, 2]]).run.eval respond crowded).1.toBool =
        true := by decide +kernel
    have hsteps := Program.eval_steps (respond_answers fun _ => False)
      (threeBytes.fill .zeros 2 [.ok [1, 2]]).run crowded
    cases hok : ((threeBytes.fill .zeros 2 [.ok [1, 2]]).run.eval respond crowded).1 with
    | error e =>
        rw [hok] at hanswer
        cases hanswer
    | ok _ =>
        rw [hok] at hsteps
        exact hevicted.2 .zeros 2 [.ok [1, 2]] crowded _ fresh_crowded.ordinary hsteps

/-! ### Fills of one object -/

def twoBytes : Cache := ⟨2, fun _ => .zeros⟩

/-- A fill of two bytes. -/
def onceFilled (_ : Bool) : Call := .fill .zeros 2 [.ok [1, 2]]

/-- Another object of two bytes. -/
def full : Shared where
  disk := (Disk.empty.add (object Oid.ones) 0).fill 0 [7, 7] 0
  memory := ⟨∅, ∅, 2, 0, 0⟩

theorem fresh_full : Fresh full :=
  ⟨(ordinary_empty.add Oid.ones.text).congr fun _ => Disk.inode_fill _, rfl⟩

/-- **Two fills of one object outgrow the ceiling.**  One has put the object in place and found no
byte of it, for the other had cut it off, and then the other writes. -/
theorem fills_outgrow :
    ¬ ∀ (ι : Type) [DecidableEq ι] (cache : Cache) (calls : ι → Call) (s₀ : Shared)
      (pool : Pool ι Req Resp (Except Error (Option Nat)) (World ι)), (∀ i, (calls i).fills) →
      Fresh s₀ →
      Pool.Steps (recording fun _ => Answers fun _ => False)
        ⟨fun i => ((calls i).op cache).run, (s₀, [])⟩ pool →
      Quiet calls pool → (∃ i file, (calls i).fills ∧ pool.progs i = .pure (.ok file)) →
      cachedBytes pool.state.1.disk ≤ cache.ceiling := by
  intro hclaim
  have hrun : ((Pool.play playing (List.replicate 4 true ++ [false] ++ List.replicate 7 true ++
        List.replicate 5 false)
      ⟨fun i => ((onceFilled i).op twoBytes).run, (full, [])⟩).any fun pool =>
        (cachedBytes pool.state.1.disk == 4 && (pool.progs false).result.isSome) &&
          returned none (pool.progs true)) = true := by decide +kernel
  obtain ⟨pool, hplay, hcheck⟩ := (Option.any_eq_true _ _).mp hrun
  rw [Bool.and_eq_true, Bool.and_eq_true, beq_iff_eq] at hcheck
  obtain ⟨⟨hbytes, hother⟩, hcheck⟩ := hcheck
  obtain ⟨answer, hother⟩ := Option.isSome_iff_exists.mp hother
  have hfilled := eq_of_returned hcheck
  have hquiet : Quiet onceFilled pool := by
    rintro ⟨i, r, given⟩ - -
    cases i with
    | true => exact ⟨_, hfilled⟩
    | false => exact ⟨answer, Program.eq_pure_of_result hother⟩
  have hle := hclaim Bool twoBytes onceFilled full pool (fun _ => trivial) fresh_full
    (Pool.play_steps (playing_answers _) hplay) hquiet ⟨true, none, trivial, hfilled⟩
  rw [hbytes] at hle
  exact absurd hle (by decide)

end Cache

end Lfsx.Storage
