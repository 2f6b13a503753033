import Lfsx.Storage.CollectAgree
import Lfsx.Storage.Isolation
import Lfsx.Storage.S3Asks

/-!
# What a repository weighs in a bucket

A repository weighs what the contents of the objects it has markers of weigh (`Weighs`).  The
size index beside the markers says so in names of keys, and a measurement adds them up and
asks for what is missing.  It is right if the sizes of what is held are those of the contents
(`Exact`, `usageOf_weighs`).

The sizes are written from what was staged, from what arrived, or from what a HEAD said, and
they are believed from then on.  They stay exact as long as each is that of the content when
it is written, no marker is written beside one that is not, and no content changes under one
(`Apt`, `usage_exact`).  Nothing in the code sees to any of this: a push that finds the content
of an earlier push writes the length of what it staged itself (`usage_wrong`).
-/

namespace Lfsx.Storage.Usage

open Request Keyspace
open Agree (weight)

/-- What a repository weighs: how many objects it has markers of, and their bytes. -/
def Weighs (b : Bucket) (ns : Namespace) (usage : Nat × Nat) : Prop :=
  ∃ oids : List Oid, oids.Nodup ∧ (∀ oid, oid ∈ oids ↔ b.Has (S3Store.markerKey ns oid)) ∧
    usage = (oids.length, (oids.map (weight b)).sum)

/-- Under the segments of a repository there are its markers and its sizes. -/
def Named (b : Bucket) : Prop :=
  ∀ ns key, b.Has key → S3Store.ownPrefix ns <+: key →
    (∃ oid, key = S3Store.markerKey ns oid) ∨ ∃ oid n, key = Sizes.key ns oid n

/-- The sizes of what is held are those of the contents. -/
def Exact (b : Bucket) : Prop :=
  ∀ ns oid n, b.Has (S3Store.markerKey ns oid) → b.Has (Sizes.key ns oid n) → n = weight b oid

/-! ## Reading the keys of a repository -/

theorem read_oid {key : Text} {oid : Oid} (h : Path.last key = oid.text) :
    Sizes.read key = none := by
  rw [Sizes.read, h, rsplitOnce, if_neg (dot_not_mem_oid oid)]

theorem read_marker (ns : Namespace) (oid : Oid) : Sizes.read (S3Store.markerKey ns oid) = none :=
  read_oid (Key.last_text (.marker ns oid))

theorem last_size (ns : Namespace) (oid : Oid) (n : Nat) :
    Path.last (Sizes.key ns oid n) = oid.text ++ '.' :: decimal n := by
  change Path.last (Key.size ns oid n).text = _
  rw [Key.last_text]
  rfl

theorem markerOid_size (ns : Namespace) (oid : Oid) (n : Nat) :
    markerOid (Sizes.key ns oid n) = none := by
  have hnot : Oid.wellFormed (oid.text ++ '.' :: decimal n) = false := by
    rw [Oid.wellFormed, Bool.and_eq_false_iff]
    right
    rw [List.all_append, List.all_cons]
    simp [show Oid.isHexDigit '.' = false by decide]
  rw [markerOid, last_size, Oid.parse, dif_neg (by simp [hnot])]
  rfl

/-- What is read of a size is what was written. -/
theorem read_size {ns : Namespace} {oid oid' : Oid} {n m : Nat}
    (h : Sizes.read (Sizes.key ns oid n) = some (oid', m)) : oid' = oid ∧ m = n := by
  by_cases hfits : n ≤ maxU64
  · rw [Sizes.read_key ns oid hfits, Option.some.injEq, Prod.mk.injEq] at h
    exact ⟨h.1.symm, h.2.symm⟩
  · have hvalue : (decimal n).foldl (fun v c => 10 * v + (c.toNat - 48)) 0 = n :=
      Nat.ofDigitChars_ten_toDigits
    have hplus : (decimal n).head? ≠ some '+' := by
      intro hhead
      exact absurd (Nat.isDigit_of_mem_toDigits (by decide) (by decide) (List.mem_of_head? hhead))
        (by decide)
    have hparse : parseU64 (decimal n) = none := by
      rw [parseU64, if_neg hplus]
      simp only [hvalue, if_neg hfits, ite_self]
    rw [Sizes.read, last_size, rsplitOnce_append (dot_not_mem_decimal n)] at h
    simp [hparse] at h

/-- The object a key of a listing is counted for. -/
def counted (key : Text) : Option Oid :=
  match Sizes.read key with
  | some _ => none
  | none => markerOid key

theorem file_held (keys : List Text) (m : S3Store.Measured) :
    (keys.foldl S3Store.Measured.file m).held = m.held ++ keys.filterMap counted := by
  induction keys generalizing m with
  | nil => simp
  | cons key keys ih =>
      rw [List.foldl_cons, ih, List.filterMap_cons, S3Store.Measured.file, counted]
      cases Sizes.read key with
      | some p => rfl
      | none => cases markerOid key <;> simp

theorem file_indexed {keys : List Text} {m : S3Store.Measured} {oid : Oid} {n : Nat}
    (h : (keys.foldl S3Store.Measured.file m).indexed.lookup oid = some n) :
    m.indexed.lookup oid = some n ∨ ∃ key ∈ keys, Sizes.read key = some (oid, n) := by
  induction keys generalizing m with
  | nil => exact Or.inl h
  | cons key keys ih =>
      rw [List.foldl_cons] at h
      rcases ih h with hfiled | ⟨key', hmem, hread⟩
      · rw [S3Store.Measured.file] at hfiled
        cases hkey : Sizes.read key with
        | none =>
            rw [hkey] at hfiled
            cases hmarker : markerOid key <;> rw [hmarker] at hfiled <;> exact Or.inl hfiled
        | some p =>
            rw [hkey] at hfiled
            dsimp only at hfiled
            by_cases hoid : oid = p.1
            · rw [hoid, AList.lookup_insert, Option.some.injEq] at hfiled
              refine Or.inr ⟨key, List.mem_cons_self, ?_⟩
              rw [hkey, hoid, ← hfiled]
            · rw [AList.lookup_insert_ne hoid] at hfiled
              exact Or.inl hfiled
      · exact Or.inr ⟨key', List.mem_cons_of_mem _ hmem, hread⟩

section Listed

variable {b : Bucket} {ns : Namespace}

/-- The keys a measurement lists. -/
def keysOf (b : Bucket) (ns : Namespace) : List Text :=
  (b.listed (S3Store.ownPrefix ns)).map Entry.key

theorem has_of_mem_keysOf {key : Text} (h : key ∈ keysOf b ns) :
    b.Has key ∧ S3Store.ownPrefix ns <+: key := by
  obtain ⟨e, he, rfl⟩ := List.mem_map.mp h
  obtain ⟨hunder, o, ho, -⟩ := mem_listed.mp he
  refine ⟨?_, hunder⟩
  rw [Bucket.Has, ho]
  rfl

theorem mem_keysOf {key : Text} (h : b.Has key) (hunder : S3Store.ownPrefix ns <+: key) :
    key ∈ keysOf b ns := by
  obtain ⟨o, ho⟩ := Option.isSome_iff_exists.mp h
  exact List.mem_map.mpr ⟨⟨key, o.modified, o.body.length⟩,
    mem_listed.mpr ⟨hunder, o, ho, rfl, rfl⟩, rfl⟩

theorem mem_counted (hnamed : Named b) {oid : Oid} :
    oid ∈ (keysOf b ns).filterMap counted ↔ b.Has (S3Store.markerKey ns oid) := by
  rw [List.mem_filterMap]
  constructor
  · rintro ⟨key, hkey, hcounted⟩
    obtain ⟨hhas, hunder⟩ := has_of_mem_keysOf hkey
    rcases hnamed ns key hhas hunder with ⟨oid', rfl⟩ | ⟨oid', n, rfl⟩
    · rw [counted, read_marker] at hcounted
      change markerOid (Key.marker ns oid').text = some oid at hcounted
      rw [Key.markerOid_marker, Option.some.injEq] at hcounted
      exact hcounted ▸ hhas
    · rw [counted, markerOid_size] at hcounted
      cases hread : Sizes.read (Sizes.key ns oid' n) <;> rw [hread] at hcounted <;> cases hcounted
  · intro hhas
    refine ⟨S3Store.markerKey ns oid, mem_keysOf hhas ?_, ?_⟩
    · exact Key.ownPrefix_text.mpr ⟨ns, ⟨rfl, rfl⟩, Or.inl ⟨oid, rfl⟩⟩
    · rw [counted, read_marker]
      exact Key.markerOid_marker ns oid

theorem nodup_counted (hnamed : Named b) : ((keysOf b ns).filterMap counted).Nodup := by
  have hmarker : ∀ key ∈ keysOf b ns, ∀ oid ∈ counted key, key = S3Store.markerKey ns oid := by
    intro key hkey oid hcounted
    obtain ⟨hhas, hunder⟩ := has_of_mem_keysOf hkey
    rcases hnamed ns key hhas hunder with ⟨oid', rfl⟩ | ⟨oid', n, rfl⟩
    · rw [Option.mem_def, counted, read_marker] at hcounted
      change markerOid (Key.marker ns oid').text = some oid at hcounted
      rw [Key.markerOid_marker, Option.some.injEq] at hcounted
      rw [hcounted]
    · rw [Option.mem_def, counted, markerOid_size] at hcounted
      cases hread : Sizes.read (Sizes.key ns oid' n) <;> rw [hread] at hcounted <;> cases hcounted
  rw [List.Nodup, List.pairwise_filterMap]
  refine List.Pairwise.imp_of_mem ?_ (sorted_listed b (S3Store.ownPrefix ns))
  rintro key key' hkey hkey' hlt oid hoid oid' hoid' rfl
  rw [hmarker key hkey oid hoid, ← hmarker key' hkey' oid hoid'] at hlt
  exact lt_irrefl _ hlt

/-- What the index says of an object that is held is what it weighs. -/
theorem indexed_weight (hnamed : Named b) (hexact : Exact b) {oid : Oid} {n : Nat}
    (hheld : b.Has (S3Store.markerKey ns oid))
    (h : ((keysOf b ns).foldl S3Store.Measured.file ⟨∅, []⟩).indexed.lookup oid = some n) :
    n = weight b oid := by
  rcases file_indexed h with hnone | ⟨key, hkey, hread⟩
  · rw [AList.lookup_empty] at hnone
    cases hnone
  · obtain ⟨hhas, hunder⟩ := has_of_mem_keysOf hkey
    rcases hnamed ns key hhas hunder with ⟨oid', rfl⟩ | ⟨oid', m, rfl⟩
    · rw [read_marker] at hread
      cases hread
    · obtain ⟨rfl, rfl⟩ := read_size hread
      exact hexact ns oid n hheld hhas

end Listed

/-! ## Measuring -/

/-- What the index knows and what it does not are all there is. -/
theorem sum_known {known : Oid → Option Nat} {weight : Oid → Nat} (oids : List Oid)
    (h : ∀ oid ∈ oids, ∀ n, known oid = some n → n = weight oid) :
    (oids.filterMap known).sum + ((oids.filter fun oid => (known oid).isNone).map weight).sum =
      (oids.map weight).sum := by
  induction oids with
  | nil => rfl
  | cons oid oids ih =>
      have ih := ih fun oid' hmem => h oid' (List.mem_cons_of_mem _ hmem)
      cases hknown : known oid with
      | none =>
          simp only [List.filterMap_cons, hknown, List.filter_cons, Option.isNone_none, if_true,
            List.map_cons, List.sum_cons]
          omega
      | some n =>
          have hn := h oid List.mem_cons_self n hknown
          simp only [List.filterMap_cons, hknown, List.filter_cons, Option.isNone_some,
            Bool.false_eq_true, if_false, List.map_cons, List.sum_cons]
          omega

theorem reordered_perm {α : Type} {order : List Nat} {xs : List α}
    (h : order.Perm (List.range xs.length)) : (reordered order xs).Perm xs := by
  have hall : ∀ ys : List α, (List.range ys.length).filterMap (fun i => ys[i]?) = ys := by
    intro ys
    induction ys with
    | nil => rfl
    | cons y ys ih =>
        rw [List.length_cons, List.range_succ_eq_map, List.filterMap_cons, List.filterMap_map]
        simpa using ih
  have hperm := h.filterMap fun i => xs[i]?
  rwa [hall] at hperm

section Measured

variable {σ : Type} {handle : (r : Req) → Bucket × σ → Resp r × (Bucket × σ)} {keys : Keyspace}
  {ns : Namespace}

/-- A size is not a content. -/
theorem weight_write_size (b : Bucket) (oid : Oid) (n time : Nat) (oid' : Oid) :
    weight (b.write (Sizes.key ns oid n) [] time) oid' = weight b oid' := by
  have hne : (Key.content oid').text ≠ Sizes.key ns oid n :=
    fun h => Key.text_ne_content (k := .size ns oid n) (by simp) oid' h.symm
  rw [weight, weight, Bucket.find_write, if_neg hne]

theorem measureEach_weighs (hquiet : Quiet keys.provider handle) (oids : List Oid) (held : Nat)
    (b : Bucket) :
    Ensures handle (S3Store.measureEach ns oids held) b fun bytes _ =>
      bytes = held + (oids.map (weight b)).sum := by
  induction oids generalizing held b with
  | nil => exact (Computes.pure).ensures rfl
  | cons oid oids ih =>
      have hsize : Ensures handle (S3Store.sizeOrZero oid) b fun size b' =>
          size = weight b oid ∧ b' = b :=
        (Agree.sizeOrZero_computes hquiet).ensures ⟨rfl, rfl⟩
      refine hsize.bind fun size b' hsize => ?_
      obtain ⟨rfl, rfl⟩ := hsize
      have hput : Ensures handle (Sizes.write ns oid (weight b' oid)) b' fun _ b'' =>
          b'' = b'.write (Sizes.key ns oid (weight b' oid)) [] b'.clock :=
        (put_computes hquiet).ensures rfl
      refine hput.attempt ?_
      rintro _ _ rfl
      intro t
      obtain ⟨bytes, b'', t', hreturns, rfl⟩ := ih (held + weight b' oid) _ t
      refine ⟨_, b'', t', hreturns, ?_⟩
      have hsame : weight (b'.write (Sizes.key ns oid (weight b' oid)) [] b'.clock) = weight b' :=
        funext (weight_write_size b' oid _ _)
      rw [hsame, List.map_cons, List.sum_cons, Nat.add_assoc]

/-- **A measurement is right**, if the sizes are. -/
theorem usageOf_weighs {b : Bucket} (hquiet : Quiet keys.provider handle) (hnamed : Named b)
    (hexact : Exact b) (hpages : b.objects.entries.length < keys.pages) :
    Ensures handle (S3Store.usageOf keys ns) b fun usage _ => Weighs b ns usage := by
  have hlisted : Computes handle (keys.listKeys (S3Store.ownPrefix ns)) b (keysOf b ns) b :=
    (entries_computes hquiet _ hpages).bind .pure
  have hkeys : Ensures handle (keys.listKeys (S3Store.ownPrefix ns)) b fun listed b' =>
      listed = keysOf b ns ∧ b' = b := hlisted.ensures ⟨rfl, rfl⟩
  refine hkeys.attempt fun listed b' hlisted => ?_
  obtain ⟨rfl, rfl⟩ := hlisted
  dsimp only
  generalize hmeasured : (keysOf b' ns).foldl S3Store.Measured.file ⟨∅, []⟩ = measured
  have hheld : measured.held = (keysOf b' ns).filterMap counted := by
    rw [← hmeasured, file_held, List.nil_append]
  have hknown : ∀ oid ∈ measured.held, ∀ n, measured.indexed.lookup oid = some n →
      n = weight b' oid := by
    intro oid hoid n hn
    rw [hheld] at hoid
    rw [← hmeasured] at hn
    exact indexed_weight hnamed hexact ((mem_counted hnamed).mp hoid) hn
  have hsum := sum_known measured.held hknown
  have hweighs : ∀ bytes, bytes = (measured.held.map (weight b')).sum →
      Weighs b' ns (measured.held.length, bytes) := by
    rintro bytes rfl
    refine ⟨measured.held, ?_, fun oid => ?_, rfl⟩
    · rw [hheld]
      exact nodup_counted hnamed
    · rw [hheld]
      exact mem_counted hnamed
  split
  case isTrue hall =>
    rw [List.isEmpty_iff] at hall
    rw [hall] at hsum
    exact (Computes.pure).ensures (hweighs _ hsum)
  case isFalse =>
    have hmore : Ensures handle (S3Store.measureAndIndex ns
        (measured.held.filter fun oid => (measured.indexed.lookup oid).isNone)) b' fun more _ =>
        more = ((measured.held.filter fun oid => (measured.indexed.lookup oid).isNone).map
          (weight b')).sum := by
      refine (unordered_ensures hquiet).bind ?_
      intro order b'' hperm
      obtain ⟨hperm, rfl⟩ := hperm
      intro t
      obtain ⟨bytes, b₁, t', hreturns, rfl⟩ := measureEach_weighs hquiet (reordered order _) 0 b'' t
      refine ⟨_, b₁, t', hreturns, ?_⟩
      rw [Nat.zero_add]
      exact ((reordered_perm hperm).map (weight b'')).sum_nat
    refine hmore.bind ?_
    rintro _ b₁ rfl
    exact (Computes.pure).ensures (hweighs _ hsum)

end Measured

/-! ## What keeps the sizes exact -/

/-- No repository that holds an object has a size for it. -/
def Unsized (b : Bucket) (oid : Oid) : Prop :=
  ∀ ns n, b.Has (S3Store.markerKey ns oid) → ¬ b.Has (Sizes.key ns oid n)

/-- A request that writes the size that is, and changes no content under a size. -/
structure Apt (provider : Provider) (r : Req) (b : Bucket) : Prop where
  size : ∀ ns oid n, r.Puts (Sizes.key ns oid n) → b.Has (S3Store.markerKey ns oid) →
    n = weight b oid
  marker : ∀ ns oid n, r.Puts (S3Store.markerKey ns oid) → b.Has (Sizes.key ns oid n) →
    n = weight b oid
  content : ∀ oid, Unsized b oid ∨
    ∀ answer b', Faulty provider r b answer b' → weight b' oid = weight b oid

section Step

variable {provider : Provider} {r : Req} {answer : Resp r} {b b' : Bucket}

theorem weight_eq {k : Key} {oid : Oid} (h : Faulty provider r b answer b') (hputs : r.Puts k.text)
    (hk : ∀ oid, k ≠ .content oid) : weight b' oid = weight b oid := by
  have hne : k.text ≠ (Key.content oid).text := Key.text_ne_content hk oid
  rw [weight, weight, h.find_eq (fun hcontent => hne (hputs.unique hcontent))
    (hputs.not_deletes _)]

/-- **An apt request keeps the sizes exact.** -/
theorem Exact.step (hexact : Exact b) (hapt : Apt provider r b)
    (h : Faulty provider r b answer b') : Exact b' := by
  intro ns oid n hmarker hsize
  by_cases hputsMarker : r.Puts (S3Store.markerKey ns oid)
  · have hnot : ¬ r.Puts (Sizes.key ns oid n) := fun hputsSize =>
      Key.text_ne_marker (k := .size ns oid n) (by simp) ns oid (hputsSize.unique hputsMarker)
    rw [weight_eq (k := .marker ns oid) h hputsMarker (by simp)]
    exact hapt.marker ns oid n hputsMarker (h.has_before hsize hnot)
  · have hheld := h.has_before hmarker hputsMarker
    by_cases hputsSize : r.Puts (Sizes.key ns oid n)
    · rw [weight_eq (k := .size ns oid n) h hputsSize (by simp)]
      exact hapt.size ns oid n hputsSize hheld
    · have hsized := h.has_before hsize hputsSize
      rcases hapt.content oid with hunsized | hsame
      · exact absurd hsized (hunsized ns n hheld)
      · rw [hsame answer b' h]
        exact hexact ns oid n hheld hsized

/-- A key that is under no repository, or a marker, or a size. -/
inductive Fits : Text → Prop where
  | hidden {key : Text} : key.head? = some '.' → Fits key
  | marker (ns : Namespace) (oid : Oid) : Fits (S3Store.markerKey ns oid)
  | size (ns : Namespace) (oid : Oid) (n : Nat) : Fits (Sizes.key ns oid n)

theorem not_hidden_ownPrefix {ns : Namespace} {key : Text} (h : S3Store.ownPrefix ns <+: key) :
    key.head? ≠ some '.' := by
  obtain ⟨rest, rfl⟩ := h
  intro hdot
  rw [S3Store.ownPrefix, Path.under_cons, List.append_assoc, List.head?_append] at hdot
  cases hhead : ns.storedOrg.head? with
  | none =>
      rw [hhead] at hdot
      cases hdot
  | some c =>
      rw [hhead] at hdot
      exact ns.undotted_storedOrg (hhead.trans hdot)

theorem Fits.named {ns : Namespace} {key : Text} (h : Fits key)
    (hunder : S3Store.ownPrefix ns <+: key) :
    (∃ oid, key = S3Store.markerKey ns oid) ∨ ∃ oid n, key = Sizes.key ns oid n := by
  cases h with
  | hidden hdot => exact absurd hdot (not_hidden_ownPrefix hunder)
  | marker ns' oid =>
      obtain ⟨ns'', ⟨horg, hrepo⟩, ⟨oid', h⟩ | ⟨oid', n, h⟩⟩ :=
        (Key.ownPrefix_text (k := .marker ns' oid)).mp hunder
      · cases h
        exact Or.inl ⟨oid, by rw [S3Store.markerKey, S3Store.markerKey, horg, hrepo]⟩
      · cases h
  | size ns' oid n =>
      obtain ⟨ns'', ⟨horg, hrepo⟩, ⟨oid', h⟩ | ⟨oid', n', h⟩⟩ :=
        (Key.ownPrefix_text (k := .size ns' oid n)).mp hunder
      · cases h
      · cases h
        exact Or.inr ⟨oid, n, by rw [Sizes.key, Sizes.key, horg, hrepo]⟩

theorem Named.step (hnamed : Named b) (hfits : ∀ key, r.Puts key → Fits key)
    (h : Faulty provider r b answer b') : Named b' := by
  intro ns key hkey hunder
  by_cases hputs : r.Puts key
  · exact (hfits key hputs).named hunder
  · exact hnamed ns key (h.has_before hkey hputs) hunder

end Step

/-! ## What the calls write -/

/-- An operation that writes markers, sizes and what is under no repository. -/
def Tame {α : Type} (op : Op α) : Prop :=
  op.Only (fun r => ∀ key, r.Puts key → Fits key) (fun _ _ => True) fun _ => True

theorem hidden_joined (s : Text) (ss : List Text) (h : s.head? = some '.') :
    Fits (Path.joined (s :: ss)) := by
  refine .hidden ?_
  cases ss with
  | nil => rwa [Path.joined_singleton]
  | cons t ts =>
      rw [Path.joined_cons, List.head?_append, h]
      rfl

theorem routine_fits : Routine fun r => ∀ key, r.Puts key → Fits key where
  reads _ hr key hputs := absurd hputs (hr.1 key)
  delete _ _ hputs := absurd hputs Req.not_puts_delete
  index _ _ hputs := Req.puts_put.mp hputs ▸ hidden_joined _ _ rfl
  size ns oid n _ hputs := Req.puts_put.mp hputs ▸ .size ns oid n

theorem tame_call {keys : Keyspace} (call : Call) : Tame (call.run keys) := by
  have hcontent : ∀ oid, Fits (S3Store.contentKey oid) := fun oid => hidden_joined _ _ rfl
  refine asks_call routine_fits call ?_
  cases call with
  | store ns oid staged =>
      exact ⟨fun _ hputs => Req.puts_put.mp hputs ▸ hcontent oid,
        fun _ hputs => Req.puts_put.mp hputs ▸ .marker ns oid⟩
  | adopt ns oid size =>
      exact ⟨fun _ hputs => Req.puts_copy.mp hputs ▸ hcontent oid,
        fun _ hputs => Req.puts_put.mp hputs ▸ .marker ns oid⟩
  | _ => trivial

/-! ## Every run -/

/-- Calls side by side. -/
def start {ι : Type} (keys : Keyspace) (calls : ι → Call) (b : Bucket) :
    Pool ι Req Resp (Except Error Unit) Bucket :=
  ⟨fun i => ((calls i).run keys).run, b⟩

/-- Once requests succeed again, every repository is told what it weighs. -/
def Truthful (provider : Provider) (b : Bucket) : Prop :=
  ∀ (σ : Type) (handle : (r : Req) → Bucket × σ → Resp r × (Bucket × σ)) (pages : Nat)
    (ns : Namespace), Quiet provider handle → b.objects.entries.length < pages →
    Ensures handle (S3Store.usageOf ⟨provider, pages⟩ ns) b fun usage _ => Weighs b ns usage

/-- **Usage tells the truth** in every run in which the sizes that are written are those of the
contents, and no content changes under a size. -/
theorem usage_exact {ι : Type} [DecidableEq ι] {provider : Provider} {pages : Nat}
    {calls : ι → Call} {b : Bucket} {pool : Pool ι Req Resp (Except Error Unit) Bucket}
    (hnamed : Named b) (hexact : Exact b)
    (hsteps : Pool.Steps (restricted (fun _ => Apt provider) fun _ => Faulty provider)
      (start ⟨provider, pages⟩ calls b) pool) : Truthful provider pool.state := by
  have hstate : Named pool.state ∧ Exact pool.state := by
    have htame : ∀ i, ((start ⟨provider, pages⟩ calls b).progs i).Only
      (fun r => ∀ key, r.Puts key → Fits key)
        (fun _ _ => True) fun answer => ∀ a, answer = .ok a → True := fun i => tame_call (calls i)
    refine Pool.Steps.only (I := fun b => Named b ∧ Exact b) htame ?_ ⟨hnamed, hexact⟩ hsteps
    rintro i r s answer s' hfits ⟨hapt, hstep⟩ ⟨hnamed, hexact⟩
    exact ⟨hnamed.step hfits hstep, hexact.step hapt hstep⟩
  exact fun σ handle pages ns hquiet hpages =>
    usageOf_weighs hquiet hstate.1 hstate.2 hpages

/-! ### Pushes and a sweep -/

/-- Every size that is kept is right, and none is of the object whose content is under this key. -/
def settled (b : Bucket) (key : Text) : Bool :=
  b.objects.entries.all fun o =>
    match Sizes.read o.1 with
    | some (oid, n) => key != S3Store.contentKey oid && n == weight b oid
    | none => !Sizes.isOne o.1

/-- A check for `Apt`. -/
def aptly (b : Bucket) : Req → Bool
  | .put key _ =>
      match Sizes.read key with
      | some (oid, n) => n == weight b oid
      | none => !Sizes.isOne key && settled b key
  | .copy _ _ => false
  | .delete key => settled b key
  | _ => true

theorem size_of_settled {b : Bucket} {key : Text} (h : settled b key = true) {ns : Namespace}
    {oid : Oid} {n : Nat} (hhas : b.Has (Sizes.key ns oid n)) :
    key ≠ S3Store.contentKey oid ∧ n = weight b oid := by
  obtain ⟨o, ho⟩ := Option.isSome_iff_exists.mp hhas
  have hcheck := List.all_eq_true.mp h ⟨_, o⟩ (AList.mem_lookup_iff.mp ho)
  cases hread : Sizes.read (Sizes.key ns oid n) with
  | some p =>
      obtain ⟨rfl, rfl⟩ := read_size hread
      simp only [hread, Bool.and_eq_true, bne_iff_ne, beq_iff_eq] at hcheck
      exact hcheck
  | none =>
      simp only [hread, Bool.not_eq_true'] at hcheck
      have hone := Key.isOne_size ns oid n
      rw [show (Key.size ns oid n).text = Sizes.key ns oid n from rfl, hcheck] at hone
      cases hone

/-- A request that only touches one key, where the sizes are settled, changes no content under a
size. -/
theorem content_of_settled {provider : Provider} {r : Req} {b : Bucket} {key : Text}
    (h : settled b key = true) (hputs : ∀ k, r.Puts k → k = key)
    (hdeletes : ∀ k, r.Deletes k → k = key) (oid : Oid) :
    Unsized b oid ∨ ∀ answer b', Faulty provider r b answer b' → weight b' oid = weight b oid := by
  by_cases hkey : key = S3Store.contentKey oid
  · exact .inl fun ns n _ hhas => (size_of_settled h hhas).1 hkey
  · refine .inr fun answer b' hstep => ?_
    have hsame : b'.find (Key.content oid).text = b.find (Key.content oid).text :=
      hstep.find_eq (fun hput => hkey (hputs _ hput).symm)
        fun hdelete => hkey (hdeletes _ hdelete).symm
    rw [weight, weight, hsame]

theorem apt_of_reads {provider : Provider} {r : Req} {b : Bucket} (h : r.Reads) :
    Apt provider r b where
  size ns oid n hputs := absurd hputs (h.1 _)
  marker ns oid n hputs := absurd hputs (h.1 _)
  content oid := Or.inr fun answer b' hstep => by
    rw [weight, weight, hstep.find_eq (h.1 _) (h.2 _)]

theorem apt_of_aptly {provider : Provider} {r : Req} {b : Bucket} (h : aptly b r = true) :
    Apt provider r b := by
  cases r with
  | put key body =>
      rw [aptly] at h
      cases hread : Sizes.read key with
      | some p =>
          obtain ⟨oid, n⟩ := p
          rw [hread] at h
          constructor
          case size =>
            rintro ns oid' m hputs -
            rw [← Req.puts_put.mp hputs] at hread
            obtain ⟨rfl, rfl⟩ := read_size hread
            exact beq_iff_eq.mp h
          case marker =>
            intro ns oid' m hputs
            rw [← Req.puts_put.mp hputs, read_marker] at hread
            cases hread
          case content =>
            refine fun oid' => Or.inr fun answer b' hstep => ?_
            have hne : ¬ (Req.put key body).Puts (Key.content oid').text := by
              intro hputs
              rw [← Req.puts_put.mp hputs, read_oid (Key.last_text (.content oid'))] at hread
              cases hread
            rw [weight, weight, hstep.find_eq hne Req.not_deletes_put]
      | none =>
          rw [hread] at h
          simp only [Bool.and_eq_true, Bool.not_eq_true'] at h
          constructor
          case size =>
            rintro ns oid n hputs -
            rw [← Req.puts_put.mp hputs] at h
            exact absurd (Key.isOne_size ns oid n) (by simp [Key.text_formatted ns oid n, h.1])
          case marker => exact fun ns oid n _ hhas => (size_of_settled h.2 hhas).2
          case content =>
            exact content_of_settled h.2 (fun _ hputs => Req.puts_put.mp hputs)
              fun _ hdeletes => absurd hdeletes Req.not_deletes_put
  | copy source target => cases h
  | delete key =>
      constructor
      case size => exact fun ns oid n hputs => absurd hputs Req.not_puts_delete
      case marker => exact fun ns oid n hputs => absurd hputs Req.not_puts_delete
      case content =>
        exact content_of_settled h (fun _ hputs => absurd hputs Req.not_puts_delete)
          fun _ hdeletes => Req.deletes_delete.mp hdeletes
  | head key => exact apt_of_reads (Req.reads_head key)
  | page under after => exact apt_of_reads (Req.reads_page under after)
  | now => exact apt_of_reads Req.reads_now
  | unordered count => exact apt_of_reads (Req.reads_unordered count)
  | getRange key start length => exact apt_of_reads (Req.reads_getRange key start length)
  | furtherPages => exact apt_of_reads ⟨fun _ h => (by cases h), fun _ h => by cases h⟩

def nothing : Bucket := ⟨∅, 0⟩

theorem named_nothing : Named nothing :=
  fun ns key h => by simp [nothing, Bucket.Has, Bucket.find] at h

theorem exact_nothing : Exact nothing :=
  fun ns oid n h => by simp [nothing, Bucket.Has, Bucket.find] at h

inductive Party where
  | first
  | second
  | third
  | sweeper
deriving DecidableEq

/-- Two repositories push one object, one of them another as well, and it drops both. -/
def shares : Party → Call
  | .first => .store Namespace.acme Oid.zeros [1, 2]
  | .second => .store Namespace.tools Oid.zeros [1, 2]
  | .third => .store Namespace.acme Oid.ones [3]
  | .sweeper => .sweep Namespace.acme ∅ 0 false

/-- The two pushes of one object by turns, and then the others. -/
def byTurns : List Party :=
  (List.replicate 5 [.first, .second]).flatten ++ List.replicate 5 .third ++
    List.replicate 24 .sweeper

/-- Everyone ends, and the repository that was not swept is told of its object. -/
theorem usage_exact_swept :
    ∃ pool, Pool.Steps (restricted (fun _ => Apt .s3) fun _ => Faulty .s3)
        (start ⟨.s3, 2⟩ shares nothing) pool ∧ pool.Finished ∧
      pool.state.Has (S3Store.markerKey Namespace.tools Oid.zeros) ∧
      ¬ pool.state.Has (S3Store.markerKey Namespace.acme Oid.zeros) ∧
      Truthful .s3 pool.state := by
  have hplayed : ((start ⟨.s3, 2⟩ shares nothing).play
      (fun _ r b => if aptly b r then plays .s3 r b else none) byTurns).any
      (fun pool => (pool.progs .first).done && (pool.progs .second).done &&
        (pool.progs .third).done && (pool.progs .sweeper).done &&
        decide (pool.state.Has (S3Store.markerKey Namespace.tools Oid.zeros)) &&
        !decide (pool.state.Has (S3Store.markerKey Namespace.acme Oid.zeros))) = true := by
    decide +kernel
  obtain ⟨pool, hplay, hcheck⟩ := (Option.any_eq_true _ _).mp hplayed
  simp only [Bool.and_eq_true, decide_eq_true_eq, Bool.not_eq_true', decide_eq_false_iff_not]
    at hcheck
  obtain ⟨⟨⟨⟨⟨hfirst, hsecond⟩, hthird⟩, hsweeper⟩, htools⟩, hacme⟩ := hcheck
  have hexec : ∀ (i : Party) r b answered,
      (if aptly b r then plays .s3 r b else none) = some answered →
      restricted (fun _ => Apt .s3) (fun _ => Faulty .s3) i r b answered.1 answered.2 := by
    intro i r b answered h
    obtain ⟨hapt, h⟩ := Option.ite_none_right_eq_some.mp h
    exact ⟨apt_of_aptly hapt, plays_faulty h⟩
  have hsteps := Pool.play_steps hexec hplay
  have hfinished : pool.Finished := by
    intro i
    cases i with
    | first => exact Program.eq_pure_of_done hfirst
    | second => exact Program.eq_pure_of_done hsecond
    | third => exact Program.eq_pure_of_done hthird
    | sweeper => exact Program.eq_pure_of_done hsweeper
  exact ⟨pool, hsteps, hfinished, htools, hacme, usage_exact named_nothing exact_nothing hsteps⟩

/-! ### Two lengths of one object -/

/-- Two repositories push one object, and what they stage is not of one length. -/
def pushes (i : Bool) : Call :=
  if i then .store Namespace.tools Oid.zeros [1] else .store Namespace.acme Oid.zeros [1, 2]

/-- The second repository is told what it staged, though the content is that of the first. -/
theorem usage_wrong :
    ¬ ∀ pool, Pool.Steps (fun _ => Answers .s3) (start ⟨.s3, 2⟩ pushes nothing) pool →
      Truthful .s3 pool.state := by
  intro hclaim
  have hplayed : ((start ⟨.s3, 2⟩ pushes nothing).play (fun _ => plays .s3)
      [false, false, false, false, false, true, true, true, true]).any
      (fun pool =>
        ((S3Store.usageOf ⟨.s3, 10⟩ Namespace.tools).run.eval (respondAlone .s3 1000)
          (pool.state, ())).1 = .ok (1, 1) ∧
        pool.state.objects.entries.length < 10 ∧
        pool.state.Has (S3Store.markerKey Namespace.tools Oid.zeros) ∧
        weight pool.state Oid.zeros = 2) = true := by
    decide +kernel
  obtain ⟨pool, hplay, hlast⟩ := (Option.any_eq_true _ _).mp hplayed
  obtain ⟨htold, hpages, hheld, hweight⟩ := of_decide_eq_true hlast
  have hsteps : Pool.Steps (fun _ => Answers .s3) (start ⟨.s3, 2⟩ pushes nothing) pool :=
    Pool.play_steps (fun _ _ _ _ h => plays_answers h) hplay
  obtain ⟨usage, b', t', hreturns, oids, -, hmem, rfl⟩ := hclaim pool hsteps Unit
    (respondAlone .s3 1000) 10 Namespace.tools (respondAlone_quiet (by decide)) hpages ()
  rw [Fallible.Returns] at hreturns
  rw [hreturns, Except.ok.injEq, Prod.mk.injEq] at htold
  obtain ⟨oid, rfl⟩ := List.length_eq_one_iff.mp htold.1
  rw [List.mem_singleton.mp ((hmem Oid.zeros).mpr hheld)] at hweight
  simp [hweight] at htold

end Lfsx.Storage.Usage
