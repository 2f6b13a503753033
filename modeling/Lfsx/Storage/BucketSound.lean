import Lfsx.Storage.KeyspaceRules

/-!
# Sound buckets

A bucket is *sound* when the server wrote all of it, when every marker has its
content, and when, once the claim index is marked complete, every marker has its
reference.  A request is *harmless* in a bucket when it cannot break this: it puts
no marker before its content and reference, no completion mark before the
references, and deletes no content or reference that a marker stands on
(`Sound.step`).  Soundness of a run is then a matter of what each request is.
-/

namespace Lfsx.Storage

open Request Keyspace

structure Sound (b : Bucket) : Prop where
  written : ∀ key, b.Has key → Key.Written key
  content : ∀ ns oid, b.Has (Key.marker ns oid).text → b.Has (Key.content oid).text
  reference : b.Has Key.complete.text → ∀ ns oid,
    b.Has (Key.marker ns oid).text → b.Has (Key.reference ns oid).text

/-- Nothing a request may do breaks a sound bucket. -/
structure Harmless (b : Bucket) (r : Req) : Prop where
  written : ∀ key, r.Puts key → Key.Written key
  marker : ∀ ns oid, r.Puts (Key.marker ns oid).text → b.Has (Key.content oid).text ∧
    (b.Has Key.complete.text → b.Has (Key.reference ns oid).text)
  complete : r.Puts Key.complete.text → ∀ ns oid,
    b.Has (Key.marker ns oid).text → b.Has (Key.reference ns oid).text
  content : ∀ oid, r.Deletes (Key.content oid).text → ∀ ns, ¬ b.Has (Key.marker ns oid).text
  reference : ∀ ns oid, r.Deletes (Key.reference ns oid).text → ¬ b.Has (Key.marker ns oid).text

/-- An empty bucket is sound. -/
theorem Sound.empty (clock : Nat) : Sound ⟨∅, clock⟩ where
  written key h := by simp [Bucket.Has, Bucket.find] at h
  content ns oid h := by simp [Bucket.Has, Bucket.find] at h
  reference _ ns oid h := by simp [Bucket.Has, Bucket.find] at h

/-- **A harmless request keeps a bucket sound**, answered or refused. -/
theorem Sound.step {provider : Provider} {b b' : Bucket} {r : Req} {answer : Resp r}
    (h : Sound b) (hr : Harmless b r) (hstep : Faulty provider r b answer b') : Sound b' where
  written key hkey := by
    by_cases hputs : r.Puts key
    · exact hr.written key hputs
    · exact h.written key (hstep.has_before hkey hputs)
  content ns oid hmarker := by
    by_cases hputs : r.Puts (Key.marker ns oid).text
    · exact hstep.has (hr.marker ns oid hputs).1 (hputs.not_deletes _)
    · have hbefore := hstep.has_before hmarker hputs
      exact hstep.has (h.content ns oid hbefore) fun hdel => hr.content oid hdel ns hbefore
  reference hcomplete ns oid hmarker := by
    by_cases hputs : r.Puts (Key.marker ns oid).text
    · have hcbefore : b.Has Key.complete.text := by
        refine hstep.has_before hcomplete fun hc => ?_
        have hkey := Key.eq_complete (hputs.unique hc)
        cases hkey
      exact hstep.has ((hr.marker ns oid hputs).2 hcbefore) (hputs.not_deletes _)
    · have hbefore := hstep.has_before hmarker hputs
      have href : b.Has (Key.reference ns oid).text := by
        by_cases hc : r.Puts Key.complete.text
        · exact hr.complete hc ns oid hbefore
        · exact h.reference (hstep.has_before hcomplete hc) ns oid hbefore
      exact hstep.has href fun hdel => hr.reference ns oid hdel hbefore

namespace Harmless

variable {b : Bucket} {r : Req} {ns : Namespace} {oid : Oid} {body : Bytes}

/-- Reading is harmless. -/
theorem read (h : r.Reads) : Harmless b r where
  written _ hputs := absurd hputs (h.1 _)
  marker _ _ hputs := absurd hputs (h.1 _)
  complete hputs := absurd hputs (h.1 _)
  content _ hdeletes := absurd hdeletes (h.2 _)
  reference _ _ hdeletes := absurd hdeletes (h.2 _)

/-- So is putting anything but a marker or the completion mark. -/
theorem puts {k : Key} (hputs : ∀ key, r.Puts key → key = k.text)
    (hdeletes : ∀ key, ¬ r.Deletes key) (hmarker : ∀ ns oid, k ≠ .marker ns oid)
    (hcomplete : k ≠ .complete) : Harmless b r where
  written key h := ⟨k, hputs key h⟩
  marker _ oid h := by
    obtain ⟨ns', hk, -⟩ := Key.eq_marker (hputs _ h).symm
    exact absurd hk (hmarker ns' oid)
  complete h := absurd (Key.eq_complete (hputs _ h).symm) hcomplete
  content _ h := absurd h (hdeletes _)
  reference _ _ h := absurd h (hdeletes _)

theorem put {k : Key} (hmarker : ∀ ns oid, k ≠ .marker ns oid) (hcomplete : k ≠ .complete) :
    Harmless b (.put k.text body) :=
  puts (fun _ h => Req.puts_put.mp h) (fun _ => Req.not_deletes_put) hmarker hcomplete

theorem copy_content {source : Text} : Harmless b (.copy source (Key.content oid).text) :=
  puts (k := .content oid) (fun _ h => Req.puts_copy.mp h) (fun _ => Req.not_deletes_copy)
    (by simp) (by simp)

/-- A marker, after what it stands on. -/
theorem put_marker (hcontent : b.Has (Key.content oid).text)
    (hreference : b.Has (Key.reference ns oid).text) :
    Harmless b (.put (Key.marker ns oid).text body) where
  written _ h := ⟨_, Req.puts_put.mp h⟩
  marker ns' oid' h := by
    obtain ⟨hsame, rfl⟩ := Key.marker_eq_iff.mp (Req.puts_put.mp h)
    exact ⟨hcontent, fun _ => by rwa [Key.reference_eq_iff.mpr ⟨hsame, rfl⟩]⟩
  complete h := by
    have hk := Key.eq_complete (Req.puts_put.mp h).symm
    cases hk
  content _ h := absurd h Req.not_deletes_put
  reference _ _ h := absurd h Req.not_deletes_put

/-- The completion mark, after every reference. -/
theorem put_complete (h : ∀ ns oid, b.Has (Key.marker ns oid).text →
    b.Has (Key.reference ns oid).text) : Harmless b (.put Key.complete.text body) where
  written _ h := ⟨_, Req.puts_put.mp h⟩
  marker _ _ h := by
    have hk := Key.eq_complete (Req.puts_put.mp h)
    cases hk
  complete _ := h
  content _ h := absurd h Req.not_deletes_put
  reference _ _ h := absurd h Req.not_deletes_put

/-- Deleting anything but content or a reference. -/
theorem delete {k : Key} (hcontent : ∀ oid, k ≠ .content oid)
    (hreference : ∀ ns oid, k ≠ .reference ns oid) : Harmless b (.delete k.text) where
  written _ h := absurd h Req.not_puts_delete
  marker _ _ h := absurd h Req.not_puts_delete
  complete h := absurd h Req.not_puts_delete
  content _ h := absurd (Key.eq_content (Req.deletes_delete.mp h).symm) (hcontent _)
  reference _ _ h := by
    obtain ⟨ns', hk, -⟩ := Key.eq_reference (Req.deletes_delete.mp h).symm
    exact absurd hk (hreference ns' _)

/-- Content that no marker stands on. -/
theorem delete_content (h : ∀ ns, ¬ b.Has (Key.marker ns oid).text) :
    Harmless b (.delete (Key.content oid).text) where
  written _ h := absurd h Req.not_puts_delete
  marker _ _ h := absurd h Req.not_puts_delete
  complete h := absurd h Req.not_puts_delete
  content oid' hdel ns := by
    rw [Key.content_eq_iff.mp (Req.deletes_delete.mp hdel)]
    exact h ns
  reference _ _ hdel := by
    obtain ⟨_, hk, -⟩ := Key.eq_reference (Req.deletes_delete.mp hdel).symm
    cases hk

/-- A reference whose marker is gone. -/
theorem delete_reference (h : ¬ b.Has (Key.marker ns oid).text) :
    Harmless b (.delete (Key.reference ns oid).text) where
  written _ h := absurd h Req.not_puts_delete
  marker _ _ h := absurd h Req.not_puts_delete
  complete h := absurd h Req.not_puts_delete
  content _ hdel := by
    have hk := Key.eq_content (Req.deletes_delete.mp hdel).symm
    cases hk
  reference ns' oid' hdel := by
    obtain ⟨hsame, rfl⟩ := Key.reference_eq_iff.mp (Req.deletes_delete.mp hdel)
    rwa [Key.marker_eq_iff.mpr ⟨hsame, rfl⟩]

end Harmless

/-! ## A small bucket -/

/-- An indexed bucket with one object, held by some repositories. -/
def holding (oid : Oid) (body : Bytes) : List Namespace → Bucket
  | [] => ((⟨∅, 0⟩ : Bucket).write Refs.complete [] 0).write (S3Store.contentKey oid) body 0
  | ns :: rest =>
      ((holding oid body rest).write (Refs.key ns oid) [] 0).write (S3Store.markerKey ns oid) [] 0

theorem has_holding {oid : Oid} {body : Bytes} {holders : List Namespace} {key : Text} :
    (holding oid body holders).Has key ↔
      key = Key.complete.text ∨ key = (Key.content oid).text ∨
        ∃ ns ∈ holders, key = (Key.reference ns oid).text ∨ key = (Key.marker ns oid).text := by
  induction holders with
  | nil =>
      have hempty : ¬ (⟨∅, 0⟩ : Bucket).Has key := by simp [Bucket.Has, Bucket.find]
      rw [holding, Bucket.has_write, Bucket.has_write]
      simp only [hempty, or_false, List.not_mem_nil, false_and, exists_false]
      exact or_comm
  | cons ns rest ih =>
      rw [holding, Bucket.has_write, Bucket.has_write, ih]
      simp only [List.mem_cons, exists_eq_or_imp]
      constructor
      · rintro (h | h | h | h | h)
        exacts [.inr (.inr (.inl (.inr h))), .inr (.inr (.inl (.inl h))), .inl h, .inr (.inl h),
          .inr (.inr (.inr h))]
      · rintro (h | h | (h | h) | h)
        exacts [.inr (.inr (.inl h)), .inr (.inr (.inr (.inl h))), .inr (.inl h), .inl h,
          .inr (.inr (.inr (.inr h)))]

theorem marker_holding {oid oid' : Oid} {body : Bytes} {holders : List Namespace}
    {ns : Namespace} : (holding oid body holders).Has (Key.marker ns oid').text ↔
      oid' = oid ∧ ∃ ns' ∈ holders, ns.Same ns' := by
  rw [has_holding]
  constructor
  · rintro (h | h | ⟨ns', hns', h | h⟩)
    · cases Key.eq_complete h
    · cases Key.eq_content h
    · obtain ⟨_, hk, -⟩ := Key.eq_reference h
      cases hk
    · obtain ⟨hsame, rfl⟩ := Key.marker_eq_iff.mp h
      exact ⟨rfl, ns', hns', hsame⟩
  · rintro ⟨rfl, ns', hns', hsame⟩
    exact .inr (.inr ⟨ns', hns', .inr (Key.marker_eq_iff.mpr ⟨hsame, rfl⟩)⟩)

theorem reference_holding {oid oid' : Oid} {body : Bytes} {holders : List Namespace}
    {ns : Namespace} : (holding oid body holders).Has (Key.reference ns oid').text ↔
      oid' = oid ∧ ∃ ns' ∈ holders, ns.Same ns' := by
  rw [has_holding]
  constructor
  · rintro (h | h | ⟨ns', hns', h | h⟩)
    · cases Key.eq_complete h
    · cases Key.eq_content h
    · obtain ⟨hsame, rfl⟩ := Key.reference_eq_iff.mp h
      exact ⟨rfl, ns', hns', hsame⟩
    · obtain ⟨_, hk, -⟩ := Key.eq_marker h
      cases hk
  · rintro ⟨rfl, ns', hns', hsame⟩
    exact .inr (.inr ⟨ns', hns', .inl (Key.reference_eq_iff.mpr ⟨hsame, rfl⟩)⟩)

theorem ready_holding (oid : Oid) (body : Bytes) (holders : List Namespace) :
    (holding oid body holders).Has Key.complete.text :=
  has_holding.mpr (.inl rfl)

theorem sound_holding (oid : Oid) (body : Bytes) (holders : List Namespace) :
    Sound (holding oid body holders) where
  written key hkey := by
    rcases has_holding.mp hkey with h | h | ⟨ns, -, h | h⟩
    exacts [⟨_, h⟩, ⟨_, h⟩, ⟨_, h⟩, ⟨_, h⟩]
  content ns oid' hmarker := by
    rw [(marker_holding.mp hmarker).1]
    exact has_holding.mpr (.inr (.inl rfl))
  reference _ ns oid' hmarker := reference_holding.mpr (marker_holding.mp hmarker)

/-- A bucket in which a repository holds one object more. -/
def Bucket.withObject (b : Bucket) (ns : Namespace) (oid : Oid) (body : Bytes) : Bucket :=
  ((b.write (Refs.key ns oid) [] b.clock).write (S3Store.contentKey oid) body b.clock).write
    (S3Store.markerKey ns oid) [] b.clock

theorem Sound.withObject {b : Bucket} (h : Sound b) (ns : Namespace) (oid : Oid) (body : Bytes) :
    Sound (b.withObject ns oid body) := by
  have hput : ∀ {b : Bucket} {key : Text} {body : Bytes}, Sound b → Harmless b (.put key body) →
      Sound (b.write key body b.clock) := fun hb hr =>
    hb.step hr (Faulty.of_answers ⟨rfl, _, le_refl _, rfl⟩ : Faulty .s3 (.put _ _) _ (.ok ()) _)
  have hreference : Sound (b.write (Refs.key ns oid) [] b.clock) :=
    hput h (Harmless.put (by simp) (by simp) : Harmless b (.put (Key.reference ns oid).text []))
  have hcontent := hput hreference
    (Harmless.put (by simp) (by simp) : Harmless _ (.put (Key.content oid).text body))
  refine hput hcontent (.put_marker ?_ ?_)
  · exact Bucket.has_write.mpr (.inl rfl)
  · exact Bucket.has_write.mpr (.inr (Bucket.has_write.mpr (.inl rfl)))

/-- An indexed bucket with two objects of one repository. -/
def twoObjects : Bucket :=
  (holding Oid.zeros [1] [Namespace.acme]).withObject Namespace.acme Oid.ones [2]

theorem sound_twoObjects : Sound twoObjects := (sound_holding _ _ _).withObject _ _ _

end Lfsx.Storage
