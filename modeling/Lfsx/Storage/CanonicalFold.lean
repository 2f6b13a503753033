import Lfsx.Storage.Canonical
import Lfsx.Storage.KeyspaceAlone

/-!
# The fold of a bucket

A run of the fold may die after any request (`Run`), and the next start runs it again
(`Starts`).  What a bucket keeps on the way is said against the bucket there was before the
first start (`Folding`): what is under a canonical key stays, what is under a variant stays or
goes, and a variant goes only once there is something under its canonical key.

* *Moves.*  `Moves` is all that the requests of one move do to a bucket.  Each move stays
  within it whatever the other moves do meanwhile, and ends with its key gone (`move_under`).
* *Runs.*  Every run keeps `Folding`, and a bucket is marked only when no variant is left
  (`Run.sound`).
* *The fold.*  After a run that ended the keys are the folded ones (`fold_converges`).
-/

namespace Lfsx.Storage.Canonical

open Request Lfsx.Path
open Program (Stable Triple)

/-! ## Requests -/

inductive Req where
  | keyspace (r : Keyspace.Req)
  | getBytes (key : Text)
  | putIfAbsent (key : Text) (body : Bytes)

abbrev Resp : Req → Type
  | .keyspace r => Keyspace.Resp r
  | .getBytes _ => Except Error (Option Bytes)
  | .putIfAbsent _ _ => Except Error Bool

/-- What a store answers that honours a conditional put. -/
def Answers (provider : Provider) : Semantics Req Resp Bucket
  | .keyspace r, b, answer, b' => Keyspace.Answers provider r b answer b'
  | .getBytes key, b, answer, b' => answer = .ok ((b.find key).map Stored.body) ∧ b' = b
  | .putIfAbsent key body, b, answer, b' =>
      if b.Has key then answer = .ok false ∧ b' = b
      else answer = .ok true ∧ ∃ time, b.clock ≤ time ∧ b' = b.write key body time

def Refusal : (r : Req) → Resp r → Prop
  | .keyspace r, answer => Keyspace.Refusal r answer
  | .getBytes _, answer => ∃ e, answer = .error e
  | .putIfAbsent _ _, answer => ∃ e, answer = .error e

/-- A store that may refuse any request, before or after it took effect. -/
def Faulty (provider : Provider) : Semantics Req Resp Bucket := fun r b answer b' =>
  Answers provider r b answer b' ∨
    Refusal r answer ∧ (b' = b ∨ ∃ answer', Answers provider r b answer' b')

/-! ## The fold -/

abbrev Op (α : Type) := Fallible Error Req Resp α

def ofKeyspace {α : Type} (op : Keyspace.Op α) : Op α :=
  op.within Req.keyspace fun _ answer => answer

def getBytes (key : Text) : Op (Option Bytes) := Fallible.ask (.getBytes key) rfl

def putIfAbsent (key : Text) (body : Bytes) : Op Bool := Fallible.ask (.putIfAbsent key body) rfl

/-- The keys that are not where they are looked up, each with where it is. -/
def movesOf (listed : List Text) : List (Text × Text) :=
  listed.filterMap fun key => (canonicalKey key).map fun canonical => (key, canonical)

variable (keys : Keyspace)

/-- What there is to move, or nothing if the bucket was folded before. -/
def plan : Op (Option (List (Text × Text))) := do
  match ← getBytes done with
  | some _ => return none
  | none => do
      let listed ← ofKeyspace (keys.listKeys [])
      return some (movesOf listed)

def move (source target : Text) : Op Unit := do
  let body ← getBytes source
  let _ ← putIfAbsent target (body.getD [])
  let _ ← ofKeyspace (keys.delete source)
  return ()

def mark : Op Unit := ofKeyspace (Keyspace.put done [])

/-- The moves, before the first request of any. -/
def moving (moves : List (Text × Text)) (b : Bucket) :
    Pool (Fin moves.length) Req Resp (Except Error Unit) Bucket :=
  ⟨fun i => (move keys (moves.get i).1 (moves.get i).2).run, b⟩

/-- A run of `fold_bucket` takes a bucket to another.  It returns a count, or it died on the
way or returned an error. -/
inductive Run : Bucket → Option Nat → Bucket → Prop where
  | planning {b b' : Bucket} {p : Program Req Resp (Except Error (Option (List (Text × Text))))} :
      Program.Steps (Faulty keys.provider) ((plan keys).run, b) (p, b') → Run b none b'
  | already {b b' : Bucket} :
      Program.Steps (Faulty keys.provider) ((plan keys).run, b) (.pure (.ok none), b') →
      Run b (some 0) b'
  | moving {b b₁ : Bucket} {moves : List (Text × Text)}
      {pool : Pool (Fin moves.length) Req Resp (Except Error Unit) Bucket} :
      Program.Steps (Faulty keys.provider) ((plan keys).run, b) (.pure (.ok (some moves)), b₁) →
      Pool.Steps (fun _ => Faulty keys.provider) (moving keys moves b₁) pool →
      Run b none pool.state
  | marking {b b₁ b' : Bucket} {moves : List (Text × Text)}
      {pool : Pool (Fin moves.length) Req Resp (Except Error Unit) Bucket}
      {p : Program Req Resp (Except Error Unit)} :
      Program.Steps (Faulty keys.provider) ((plan keys).run, b) (.pure (.ok (some moves)), b₁) →
      Pool.Steps (fun _ => Faulty keys.provider) (moving keys moves b₁) pool →
      (∀ i, pool.progs i = .pure (.ok ())) →
      Program.Steps (Faulty keys.provider) (mark.run, pool.state) (p, b') → Run b none b'
  | ended {b b₁ b' : Bucket} {moves : List (Text × Text)}
      {pool : Pool (Fin moves.length) Req Resp (Except Error Unit) Bucket} :
      Program.Steps (Faulty keys.provider) ((plan keys).run, b) (.pure (.ok (some moves)), b₁) →
      Pool.Steps (fun _ => Faulty keys.provider) (moving keys moves b₁) pool →
      (∀ i, pool.progs i = .pure (.ok ())) →
      Program.Steps (Faulty keys.provider) (mark.run, pool.state) (.pure (.ok ()), b') →
      Run b (some moves.length) b'

/-- Any number of starts, with the server dying in each. -/
inductive Starts : Bucket → Bucket → Prop where
  | none (b : Bucket) : Starts b b
  | died {b b₁ b₂ : Bucket} : Starts b b₁ → Run keys b₁ none b₂ → Starts b b₂

/-! ## What requests do -/

section Faulty

variable {keys} {provider : Provider} {key : Text} {b b' : Bucket}

theorem Faulty.getBytes {answer : Resp (.getBytes key)}
    (h : Faulty provider (.getBytes key) b answer b') :
    b' = b ∧ ∀ body, answer = .ok body → body = (b.find key).map Stored.body := by
  rcases h with ⟨rfl, rfl⟩ | ⟨⟨e, rfl⟩, rfl | ⟨_, -, rfl⟩⟩
  · refine ⟨rfl, fun body hbody => ?_⟩
    cases hbody
    rfl
  · exact ⟨rfl, fun _ hbody => by cases hbody⟩
  · exact ⟨rfl, fun _ hbody => by cases hbody⟩

theorem Faulty.putIfAbsent {body : Bytes} {answer : Resp (.putIfAbsent key body)}
    (h : Faulty provider (.putIfAbsent key body) b answer b') :
    (b' = b ∧ ∀ put, answer = .ok put → b.Has key) ∨
      ¬ b.Has key ∧ ∃ time, b' = b.write key body time := by
  have hanswers : ∀ answer', Answers provider (.putIfAbsent key body) b answer' b' →
      (b' = b ∧ b.Has key) ∨ ¬ b.Has key ∧ ∃ time, b' = b.write key body time := by
    intro answer' h
    simp only [Answers] at h
    split at h
    case isTrue hhas => exact Or.inl ⟨h.2, hhas⟩
    case isFalse hhas =>
      obtain ⟨-, time, -, rfl⟩ := h
      exact Or.inr ⟨hhas, time, rfl⟩
  rcases h with h | ⟨⟨e, rfl⟩, rfl | ⟨answer', h⟩⟩
  · rcases hanswers answer h with ⟨rfl, hhas⟩ | hput
    · exact Or.inl ⟨rfl, fun _ _ => hhas⟩
    · exact Or.inr hput
  · exact Or.inl ⟨rfl, fun _ hput => by cases hput⟩
  · rcases hanswers answer' h with ⟨rfl, -⟩ | hput
    · exact Or.inl ⟨rfl, fun _ hput => by cases hput⟩
    · exact Or.inr hput

/-- An operation of the keyspace is judged by the rules of the keyspace. -/
theorem ofKeyspace_under {α : Type} {R G : Bucket → Bucket → Prop} {Q : α → Bucket → Prop}
    {E : Bucket → Prop} {op : Keyspace.Op α}
    (h : op.Under (Keyspace.Faulty provider) R G Q E b) :
    (ofKeyspace op).Under (Faulty provider) R G Q E b :=
  Program.Under.within (fun _ _ _ _ hexec => hexec) h

theorem stable_true {R : Bucket → Bucket → Prop} : Stable R fun _ => True :=
  fun _ _ _ _ => trivial

end Faulty

/-! ## A move among others -/

/-- A key that is not where it is looked up. -/
def Variant (key : Text) : Prop := canonicalKey key ≠ none

/-- All that a move does to a bucket. -/
inductive Moves (source target : Text) : Bucket → Bucket → Prop where
  | same (b : Bucket) : Moves source target b b
  | put (b : Bucket) (o : Stored) (time : Nat) : ¬ b.Has target → b.find source = some o →
      Moves source target b (b.write target o.body time)
  | gone (b : Bucket) : b.Has target → Moves source target b (b.remove source)

section Moves

variable {keys} {source target key : Text} {b b' : Bucket}

theorem variant_iff : Variant key ↔ folded key ≠ key := not_iff_not.mpr canonicalKey_eq_none

theorem not_variant_iff : ¬ Variant key ↔ folded key = key := by
  rw [variant_iff, not_not]

/-- Where a key is moved to is no variant. -/
theorem not_variant_of_canonicalKey (h : canonicalKey source = some target) : ¬ Variant target := by
  rw [not_variant_iff, ← canonicalKey_eq_some h, folded_folded]

theorem variant_of_canonicalKey (h : canonicalKey source = some target) : Variant source := by
  rw [Variant, h]
  exact Option.some_ne_none target

theorem not_variant_done : ¬ Variant done := not_variant_iff.mpr (folded_eq_done.mpr rfl)

theorem ne_done_of_canonicalKey (h : canonicalKey source = some target) : target ≠ done := by
  intro hdone
  rw [← canonicalKey_eq_some h, folded_eq_done] at hdone
  exact not_variant_done (hdone ▸ variant_of_canonicalKey h)

theorem Moves.find_eq (h : Moves source target b b') (hsource : key ≠ source)
    (htarget : key ≠ target) : b'.find key = b.find key := by
  cases h with
  | same => rfl
  | put o time => rw [Bucket.find_write, if_neg htarget]
  | gone => rw [Bucket.find_remove, if_neg hsource]

/-- A move keeps everything but what it moves. -/
theorem Moves.has (h : Moves source target b b') (hkey : b.Has key) (hsource : key ≠ source) :
    b'.Has key := by
  cases h with
  | same => exact hkey
  | put o time => exact Bucket.has_write.mpr (Or.inr hkey)
  | gone => exact Bucket.has_remove.mpr ⟨hsource, hkey⟩

/-- And it changes nothing that is there. -/
theorem Moves.kept (h : Moves source target b b') (hkey : b.Has key) (hsource : key ≠ source) :
    b'.find key = b.find key := by
  cases h with
  | same => rfl
  | put o time hfree =>
      have htarget : key ≠ target := by
        rintro rfl
        exact hfree hkey
      rw [Bucket.find_write, if_neg htarget]
  | gone => rw [Bucket.find_remove, if_neg hsource]

/-- **One move among others.**  The others leave its key alone and remove nothing from its
place. -/
theorem move_under {R : Bucket → Bucket → Prop} {o : Stored}
    (hsource : Stable R fun b => b.find source = some o) (hgone : Stable R fun b => ¬ b.Has source)
    (htarget : Stable R fun b => b.Has target) (hb : b.find source = some o) :
    (move keys source target).Under (Faulty keys.provider) R (Moves source target)
      (fun _ b => ¬ b.Has source) (fun _ => True) b := by
  refine Fallible.Under.bind stable_true (Fallible.Under.ask hsource hb
    (fun _ => Fallible.Under.stable) stable_true fun b₁ answer b₂ h₁ hexec => ?_)
  obtain ⟨rfl, hbody⟩ := hexec.getBytes
  refine ⟨.same _, ?_⟩
  cases answer with
  | error e => exact trivial
  | ok body =>
      rw [hbody body rfl, h₁]
      refine Fallible.Under.bind stable_true (Fallible.Under.ask hsource h₁
        (fun _ => Fallible.Under.stable) stable_true fun b₃ answer b₄ h₃ hexec => ?_)
      have hput : Moves source target b₃ b₄ ∧ ∀ put, answer = .ok put → b₄.Has target := by
        rcases hexec.putIfAbsent with ⟨rfl, hhas⟩ | ⟨hfree, time, rfl⟩
        · exact ⟨.same _, hhas⟩
        · exact ⟨.put b₃ o time hfree h₃, fun _ _ => Bucket.has_write.mpr (Or.inl rfl)⟩
      refine ⟨hput.1, ?_⟩
      cases answer with
      | error e => exact trivial
      | ok put =>
          have hdelete : (keys.delete source).Under (Keyspace.Faulty keys.provider) R
              (Moves source target) (fun _ b => ¬ b.Has source) (fun _ => True) b₄ := by
            refine Keyspace.delete_under htarget hgone stable_true (hput.2 put rfl) ?_ ?_
            · intro b₅ answer b₆ h₅ hexec
              rw [hexec.head.1]
              exact ⟨.same _, h₅⟩
            · intro b₅ answer b₆ h₅ hexec
              refine ⟨?_, ?_⟩
              · rcases hexec.delete with rfl | ⟨rfl, -⟩
                · exact .gone b₅ h₅
                · exact .same _
              · cases answer with
                | error e => exact trivial
                | ok existed => exact hexec.not_has_of_delete
          refine Fallible.Under.bind stable_true ((ofKeyspace_under hdelete).mono ?_ fun _ h => h)
          exact fun _ b₆ h₆ => Fallible.Under.pure hgone h₆

end Moves

/-! ## What there is to move -/

/-- The moves of a bucket: one for each variant. -/
structure Planned (b : Bucket) (moves : List (Text × Text)) : Prop where
  canonical : ∀ m ∈ moves, canonicalKey m.1 = some m.2
  stored : ∀ m ∈ moves, b.Has m.1
  apart : (moves.map Prod.fst).Nodup
  covers : ∀ key, b.Has key → Variant key → key ∈ moves.map Prod.fst

section Planned

variable {keys} {b b' : Bucket}

theorem mem_movesOf {listed : List Text} {m : Text × Text} :
    m ∈ movesOf listed ↔ m.1 ∈ listed ∧ canonicalKey m.1 = some m.2 := by
  obtain ⟨source, target⟩ := m
  simp only [movesOf, List.mem_filterMap, Option.map_eq_some_iff, Prod.mk.injEq]
  constructor
  · rintro ⟨key, hkey, canonical, hcanonical, rfl, rfl⟩
    exact ⟨hkey, hcanonical⟩
  · rintro ⟨hkey, hcanonical⟩
    exact ⟨source, hkey, target, hcanonical, rfl, rfl⟩

theorem sources_sublist (listed : List Text) : ((movesOf listed).map Prod.fst).Sublist listed := by
  induction listed with
  | nil => exact .slnil
  | cons key listed ih =>
      rw [movesOf, List.filterMap_cons]
      cases canonicalKey key with
      | none => exact ih.cons key
      | some canonical => exact ih.cons_cons key

/-- A listing of the bucket plans its moves. -/
theorem planned_of_listed {listed : List Text} (hnodup : listed.Nodup)
    (hmem : ∀ key, key ∈ listed ↔ b.Has key) : Planned b (movesOf listed) where
  canonical m hm := (mem_movesOf.mp hm).2
  stored m hm := (hmem m.1).mp (mem_movesOf.mp hm).1
  apart := hnodup.sublist (sources_sublist listed)
  covers key hhas hvariant := by
    obtain ⟨canonical, hcanonical⟩ := Option.ne_none_iff_exists'.mp hvariant
    have hm : (key, canonical) ∈ movesOf listed := mem_movesOf.mpr ⟨(hmem key).mpr hhas, hcanonical⟩
    exact List.mem_map_of_mem hm

/-- A listing with nobody beside is the keys of the bucket. -/
theorem listKeys_under :
    (keys.listKeys []).Under (Keyspace.Faulty keys.provider) (fun _ _ => False)
      (fun b b' => b' = b)
      (fun listed b' => b' = b ∧ listed.Nodup ∧ ∀ key, key ∈ listed ↔ b.Has key)
      (fun _ => True) b := by
  have hpages : Keyspace.Pages (Keyspace.Faulty keys.provider) (fun b b' => b' = b) (fun _ => True)
      (fun b' => b' = b) (fun key b' => ¬ b'.Has key) (fun e b' => b'.Has e.key) [] := by
    rintro after b₁ answer b₂ rfl hexec
    obtain ⟨rfl, hpage⟩ := hexec.page
    refine ⟨rfl, ?_⟩
    cases answer with
    | error e => exact trivial
    | ok page =>
        refine ⟨rfl, b₂, hpage page rfl, fun key _ hkey => hkey, fun e he => ?_⟩
        obtain ⟨o, ho, -⟩ := (hpage page rfl).stored e he
        rw [Bucket.Has, ho]
        rfl
  have hlater : Keyspace.Later (Keyspace.Faulty keys.provider) (fun key b' => ¬ b'.Has key)
      (fun e b' => b'.Has e.key) [] := by
    intro token b₁ answer b₂ hexec
    rw [hexec.page.1]
    exact ⟨fun _ h => h, fun _ h => h⟩
  have hend : ∀ b₁ answer b₂, ¬ Keyspace.Faulty keys.provider .furtherPages b₁ answer b₂ := by
    rintro b₁ answer b₂ (h | ⟨h, -⟩) <;> exact h
  refine Fallible.Under.bind stable_true ((Keyspace.entries_under (P := fun b' => b' = b)
    Fallible.stable_never (fun _ => Fallible.stable_never) (fun _ => Fallible.stable_never)
    stable_true hpages hlater hend rfl).mono ?_ fun _ h => h)
  rintro entries b' ⟨rfl, hlisted⟩
  refine Fallible.Under.pure Fallible.stable_never
    ⟨rfl, ?_, fun key => ⟨fun hkey => ?_, fun hhas => ?_⟩⟩
  · exact hlisted.sorted.imp fun hlt => ne_of_lt hlt
  · obtain ⟨e, he, rfl⟩ := List.mem_map.mp hkey
    exact hlisted.present e he
  · by_contra hkey
    exact hlisted.absent key List.nil_prefix (by simp) hkey hhas

/-- **The plan.** -/
theorem plan_under :
    (plan keys).Under (Faulty keys.provider) (fun _ _ => False) (fun b b' => b' = b)
      (fun planned b' => b' = b ∧ match planned with
        | none => b.Has done
        | some moves => ¬ b.Has done ∧ Planned b moves) (fun _ => True) b := by
  refine Fallible.Under.bind stable_true (Fallible.Under.ask (P := fun b' => b' = b)
    Fallible.stable_never rfl (fun _ => Fallible.stable_never) stable_true ?_)
  rintro b₁ answer b₂ rfl hexec
  obtain ⟨rfl, hbody⟩ := hexec.getBytes
  refine ⟨rfl, ?_⟩
  cases answer with
  | error e => exact trivial
  | ok body =>
      have hfind := hbody body rfl
      cases body with
      | some body =>
          have hdone : b₂.Has done := by
            obtain ⟨o, ho, -⟩ := Option.map_eq_some_iff.mp hfind.symm
            rw [Bucket.Has, ho]
            rfl
          exact Fallible.Under.pure Fallible.stable_never ⟨rfl, hdone⟩
      | none =>
          have hdone : ¬ b₂.Has done := by
            rw [Bucket.Has, Option.map_eq_none_iff.mp hfind.symm]
            simp
          refine Fallible.Under.bind stable_true
            ((ofKeyspace_under listKeys_under).mono ?_ fun _ h => h)
          rintro listed b₃ ⟨rfl, hnodup, hmem⟩
          exact Fallible.Under.pure Fallible.stable_never
            ⟨rfl, hdone, planned_of_listed hnodup hmem⟩

end Planned

/-! ## What a bucket keeps -/

/-- A bucket on the way, against the bucket there was before the first start. -/
structure Folding (b₀ b : Bucket) : Prop where
  kept : ∀ key, key ≠ done → ¬ Variant key → b₀.Has key → b.find key = b₀.find key
  left : ∀ key, Variant key → b.Has key → b.find key = b₀.find key
  moved : ∀ key o, key ≠ done → ¬ Variant key → b.find key = some o →
    ∃ source o₀, folded source = key ∧ b₀.find source = some o₀ ∧ o₀.body = o.body
  safe : ∀ key, b₀.Has key → b.Has key ∨ b.Has (folded key)

/-- No variant is left. -/
def Settled (b : Bucket) : Prop := ∀ key, Variant key → ¬ b.Has key

/-- A marked bucket has no variant left. -/
def Marked (b : Bucket) : Prop := b.Has done → Settled b

structure Sound (b₀ b : Bucket) : Prop where
  folding : Folding b₀ b
  marked : Marked b

section Folding

variable {b₀ b b' : Bucket} {source target : Text}

theorem Folding.refl (b : Bucket) : Folding b b where
  kept _ _ _ _ := rfl
  left _ _ _ := rfl
  moved key o _ hvariant ho := ⟨key, o, not_variant_iff.mp hvariant, ho, rfl⟩
  safe _ hhas := Or.inl hhas

/-- A move leaves what it copied, or what it found. -/
theorem Moves.found {key : Text} {o : Stored} (h : Moves source target b b')
    (ho : b'.find key = some o) : b.find key = some o ∨
      key = target ∧ ∃ o', b.find source = some o' ∧ o'.body = o.body := by
  cases h with
  | same => exact Or.inl ho
  | put o' time hfree hsource =>
      rw [Bucket.find_write] at ho
      split at ho
      case isTrue heq =>
        cases ho
        exact Or.inr ⟨heq, o', hsource, rfl⟩
      case isFalse => exact Or.inl ho
  | gone =>
      rw [Bucket.find_remove] at ho
      split at ho
      case isTrue => cases ho
      case isFalse => exact Or.inl ho

theorem Moves.has_before {key : Text} (h : Moves source target b b') (htarget : key ≠ target)
    (hkey : b'.Has key) : b.Has key := by
  obtain ⟨o, ho⟩ := Option.isSome_iff_exists.mp hkey
  rcases h.found ho with ho | ⟨heq, -⟩
  · rw [Bucket.Has, ho]
    rfl
  · exact absurd heq htarget

/-- **One request of a move.** -/
theorem Folding.step (h : Folding b₀ b) (hcanonical : canonicalKey source = some target)
    (hmoves : Moves source target b b') : Folding b₀ b' := by
  have hsource := variant_of_canonicalKey hcanonical
  have htarget := not_variant_of_canonicalKey hcanonical
  have hne : ∀ key, ¬ Variant key → key ≠ source := by
    rintro key hkey rfl
    exact hkey hsource
  constructor
  · intro key hdone hvariant hhas
    have hkept := h.kept key hdone hvariant hhas
    have hb : b.Has key := by rwa [Bucket.Has, hkept]
    rw [hmoves.kept hb (hne key hvariant), hkept]
  · intro key hvariant hhas
    have htarget' : key ≠ target := by
      rintro rfl
      exact htarget hvariant
    have hb := hmoves.has_before htarget' hhas
    rw [← h.left key hvariant hb]
    cases hmoves with
    | same => rfl
    | put o time => rw [Bucket.find_write, if_neg htarget']
    | gone => rw [Bucket.find_remove, if_neg (Bucket.has_remove.mp hhas).1]
  · intro key o hdone hvariant ho
    rcases hmoves.found ho with ho | ⟨rfl, o', ho', hbody⟩
    · exact h.moved key o hdone hvariant ho
    · have hhas : b.Has source := by
        rw [Bucket.Has, ho']
        rfl
      rw [h.left source hsource hhas] at ho'
      exact ⟨source, o', canonicalKey_eq_some hcanonical, ho', hbody⟩
  · intro key hhas
    have hfolded : ∀ key, b.Has (folded key) → b'.Has (folded key) := fun key hfolded =>
      hmoves.has hfolded (hne _ (not_variant_iff.mpr (folded_folded key)))
    rcases h.safe key hhas with hb | hb
    · by_cases hkey : key = source
      · subst hkey
        cases hmoves with
        | same => exact Or.inl hb
        | put o time => exact Or.inl (Bucket.has_write.mpr (Or.inr hb))
        | gone htaken =>
            rw [canonicalKey_eq_some hcanonical]
            exact Or.inr (Bucket.has_remove.mpr ⟨hne _ htarget, htaken⟩)
      · exact Or.inl (hmoves.has hb hkey)
    · exact Or.inr (hfolded key hb)

/-- The mark. -/
theorem Folding.write_done (h : Folding b₀ b) (time : Nat) : Folding b₀ (b.write done [] time) := by
  have hfind : ∀ key, key ≠ done → (b.write done [] time).find key = b.find key := by
    intro key hkey
    rw [Bucket.find_write, if_neg hkey]
  have hvariant : ∀ key, Variant key → key ≠ done := by
    rintro key hkey rfl
    exact not_variant_done hkey
  constructor
  · intro key hdone hnot hhas
    rw [hfind key hdone, h.kept key hdone hnot hhas]
  · intro key hkey hhas
    rw [Bucket.Has, hfind key (hvariant key hkey)] at hhas
    rw [hfind key (hvariant key hkey), h.left key hkey hhas]
  · intro key o hdone hnot ho
    rw [hfind key hdone] at ho
    exact h.moved key o hdone hnot ho
  · intro key hhas
    exact (h.safe key hhas).imp (fun hb => Bucket.has_write.mpr (Or.inr hb))
      fun hb => Bucket.has_write.mpr (Or.inr hb)

theorem Settled.write_done (h : Settled b) (time : Nat) : Settled (b.write done [] time) := by
  intro key hvariant hhas
  rcases Bucket.has_write.mp hhas with rfl | hhas
  · exact not_variant_done hvariant
  · exact h key hvariant hhas

end Folding

/-! ## The moves side by side -/

section Side

variable {keys} {b₀ b : Bucket} {moves : List (Text × Text)}

/-- What the other moves do. -/
def Others (moves : List (Text × Text)) (i : Fin moves.length) (b b' : Bucket) : Prop :=
  ∃ j, j ≠ i ∧ Moves (moves.get j).1 (moves.get j).2 b b'

theorem Planned.source_ne (h : Planned b moves) {i j : Fin moves.length} (hne : j ≠ i) :
    (moves.get j).1 ≠ (moves.get i).1 := by
  intro heq
  have hget : moves.get j = moves.get i :=
    List.inj_on_of_nodup_map h.apart (List.get_mem _ _) (List.get_mem _ _) heq
  exact hne (h.apart.of_map.injective_get hget)

/-- **Each move does its part**, whatever the others do meanwhile. -/
theorem Planned.under (h : Planned b moves) :
    (moving keys moves b).Under (fun _ => Faulty keys.provider) (Others moves)
      (fun i => Moves (moves.get i).1 (moves.get i).2)
      (fun i => Fallible.Ends (fun _ b => ¬ b.Has (moves.get i).1) fun _ => True) := by
  intro i
  have hmem : ∀ j, moves.get j ∈ moves := fun j => List.get_mem _ _
  have hvariant := variant_of_canonicalKey (h.canonical _ (hmem i))
  have htarget := fun j => not_variant_of_canonicalKey (h.canonical _ (hmem j))
  have hne : ∀ j, (moves.get i).1 ≠ (moves.get j).2 := fun j heq => htarget j (heq ▸ hvariant)
  obtain ⟨o, ho⟩ := Option.isSome_iff_exists.mp (h.stored _ (hmem i))
  refine move_under (o := o) ?_ ?_ ?_ ho
  · rintro b₁ b₂ ⟨j, hj, hmoves⟩ h₁
    rw [hmoves.find_eq (h.source_ne hj).symm (hne j), h₁]
  · rintro b₁ b₂ ⟨j, hj, hmoves⟩ h₁ h₂
    exact h₁ (hmoves.has_before (hne j) h₂)
  · rintro b₁ b₂ ⟨j, hj, hmoves⟩ h₁
    refine hmoves.has h₁ fun heq => htarget i ?_
    rw [heq]
    exact variant_of_canonicalKey (h.canonical _ (hmem j))

/-- **Every interleaving of the moves.** -/
theorem Planned.steps (h : Planned b moves) (hfolding : Folding b₀ b) (hdone : ¬ b.Has done)
    {pool : Pool (Fin moves.length) Req Resp (Except Error Unit) Bucket}
    (hsteps : Pool.Steps (fun _ => Faulty keys.provider) (moving keys moves b) pool) :
    Folding b₀ pool.state ∧ ¬ pool.state.Has done ∧
      ((∀ i, pool.progs i = .pure (.ok ())) → Settled pool.state) := by
  have hGR : ∀ i j : Fin moves.length, i ≠ j → ∀ b₁ b₂,
      Moves (moves.get i).1 (moves.get i).2 b₁ b₂ → Others moves j b₁ b₂ :=
    fun i j hij b₁ b₂ hmoves => ⟨i, hij, hmoves⟩
  obtain ⟨hfolding, hdone, hcovers⟩ : Folding b₀ pool.state ∧ ¬ pool.state.Has done ∧
      ∀ key, pool.state.Has key → Variant key → key ∈ moves.map Prod.fst := by
    refine Pool.Steps.invariant (I := fun b => Folding b₀ b ∧ ¬ b.Has done ∧
      ∀ key, b.Has key → Variant key → key ∈ moves.map Prod.fst) hGR ?_ h.under
      ⟨hfolding, hdone, h.covers⟩ hsteps
    rintro i b₁ b₂ hmoves ⟨hfolding, hdone, hcovers⟩
    have hcanonical := h.canonical _ (List.get_mem moves i)
    refine ⟨hfolding.step hcanonical hmoves, fun hhas => ?_, fun key hhas hvariant => ?_⟩
    · exact hdone (hmoves.has_before (ne_done_of_canonicalKey hcanonical).symm hhas)
    · refine hcovers key (hmoves.has_before ?_ hhas) hvariant
      rintro rfl
      exact not_variant_of_canonicalKey hcanonical hvariant
  refine ⟨hfolding, hdone, fun hreturned key hvariant hhas => ?_⟩
  obtain ⟨m, hm, rfl⟩ := List.mem_map.mp (hcovers key hhas hvariant)
  obtain ⟨i, rfl⟩ := List.get_of_mem hm
  exact (Pool.Steps.under hGR h.under hsteps).post (hreturned i) hhas

end Side

/-! ## Runs -/

section Runs

variable {keys} {b₀ b b' : Bucket} {out : Option Nat}

/-- Whether it goes on or dies, a plan changes nothing. -/
theorem plan_steps {p : Program Req Resp (Except Error (Option (List (Text × Text))))}
    (hsteps : Program.Steps (Faulty keys.provider) ((plan keys).run, b) (p, b')) :
    b' = b ∧ p.Under (Faulty keys.provider) (fun _ _ => False) (fun b b' => b' = b)
      (Fallible.Ends (fun planned b' => b' = b ∧ match planned with
        | none => b.Has done
        | some moves => ¬ b.Has done ∧ Planned b moves) fun _ => True) b' := by
  have hkeeps : ∀ b₁ b₂ : Bucket, b₂ = b₁ → b₁ = b → b₂ = b := fun _ _ h₁ h₂ => h₁.trans h₂
  exact Program.Under.alone (c := (_, b)) hkeeps plan_under rfl hsteps

theorem planned_steps {moves : List (Text × Text)}
    (hsteps : Program.Steps (Faulty keys.provider) ((plan keys).run, b)
      (.pure (.ok (some moves)), b')) : b' = b ∧ ¬ b.Has done ∧ Planned b moves := by
  obtain ⟨-, hends⟩ := plan_steps hsteps
  exact hends b' .refl

/-- The mark is put when all is done. -/
theorem mark_steps {p : Program Req Resp (Except Error Unit)} (hfolding : Folding b₀ b)
    (hsettled : Settled b)
    (hsteps : Program.Steps (Faulty keys.provider) (mark.run, b) (p, b')) :
    (Folding b₀ b' ∧ Settled b') ∧ (p = .pure (.ok ()) → b'.Has done) := by
  have hmark : mark.Under (Faulty keys.provider) (fun _ _ => False)
      (fun b b' => b' = b ∨ ∃ time, b' = b.write done [] time) (fun _ b' => b'.Has done)
      (fun _ => True) b := by
    refine ofKeyspace_under (Keyspace.put_under (P := fun _ => True) Fallible.stable_never
      Fallible.stable_never stable_true trivial fun b₁ answer b₂ _ hexec => ⟨?_, ?_⟩)
    · exact hexec.put.symm.imp And.left id
    · cases answer with
      | error e => exact trivial
      | ok u => exact hexec.has_of_put
  have hkeeps : ∀ b₁ b₂ : Bucket, (b₂ = b₁ ∨ ∃ time, b₂ = b₁.write done [] time) →
      Folding b₀ b₁ ∧ Settled b₁ → Folding b₀ b₂ ∧ Settled b₂ := by
    rintro b₁ b₂ (rfl | ⟨time, rfl⟩) h₁
    · exact h₁
    · exact ⟨h₁.1.write_done time, h₁.2.write_done time⟩
  obtain ⟨hkept, hends⟩ := Program.Under.alone (c := (_, b)) hkeeps hmark
    ⟨hfolding, hsettled⟩ hsteps
  refine ⟨hkept, ?_⟩
  rintro rfl
  exact hends b' .refl

/-- **One run**, to its end or not. -/
theorem Run.sound (hrun : Run keys b out b') (h : Sound b₀ b) :
    Sound b₀ b' ∧ (∀ n, out = some n → b'.Has done) := by
  cases hrun with
  | planning hsteps =>
      rw [(plan_steps hsteps).1]
      exact ⟨h, fun n hn => by cases hn⟩
  | already hsteps =>
      obtain ⟨rfl, hends⟩ := plan_steps hsteps
      exact ⟨h, fun _ _ => (hends b' .refl).2⟩
  | moving hplan hmoving =>
      obtain ⟨rfl, hdone, hplanned⟩ := planned_steps hplan
      obtain ⟨hfolding, hnot, -⟩ := hplanned.steps h.folding hdone hmoving
      exact ⟨⟨hfolding, fun hhas => absurd hhas hnot⟩, fun n hn => by cases hn⟩
  | marking hplan hmoving hmoved hsteps =>
      obtain ⟨rfl, hdone, hplanned⟩ := planned_steps hplan
      obtain ⟨hfolding, -, hsettled⟩ := hplanned.steps h.folding hdone hmoving
      obtain ⟨⟨hfolding, hsettled⟩, -⟩ := mark_steps hfolding (hsettled hmoved) hsteps
      exact ⟨⟨hfolding, fun _ => hsettled⟩, fun n hn => by cases hn⟩
  | ended hplan hmoving hmoved hsteps =>
      obtain ⟨rfl, hdone, hplanned⟩ := planned_steps hplan
      obtain ⟨hfolding, -, hsettled⟩ := hplanned.steps h.folding hdone hmoving
      obtain ⟨⟨hfolding, hsettled⟩, hhas⟩ := mark_steps hfolding (hsettled hmoved) hsteps
      exact ⟨⟨hfolding, fun _ => hsettled⟩, fun _ _ => hhas rfl⟩

/-- **Any number of starts.** -/
theorem Starts.sound (hstarts : Starts keys b₀ b) (hmarked : Marked b₀) : Sound b₀ b := by
  induction hstarts with
  | none => exact ⟨.refl _, hmarked⟩
  | died _ hrun ih => exact (hrun.sound ih).1

/-- **A marked bucket is left as it is.** -/
theorem Run.unchanged (hrun : Run keys b out b') (hdone : b.Has done) : b' = b := by
  cases hrun with
  | planning hsteps => exact (plan_steps hsteps).1
  | already hsteps => exact (plan_steps hsteps).1
  | moving hplan => exact absurd hdone (planned_steps hplan).2.1
  | marking hplan => exact absurd hdone (planned_steps hplan).2.1
  | ended hplan => exact absurd hdone (planned_steps hplan).2.1

/-- **The fold converges.**  However often the server died in it, once a run has ended the keys
are the folded ones, what was under a folded key is what it was, every other folded key has the
body of a key that was folded to it, and a further run changes nothing. -/
theorem fold_converges {n : Nat} (hmarked : Marked b₀) (hstarts : Starts keys b₀ b)
    (hrun : Run keys b (some n) b') :
    (∀ key, key ≠ done → (b'.Has key ↔ ∃ source, b₀.Has source ∧ folded source = key)) ∧
    (∀ ns c, folded (spelled ns c) = c.key ns ∧ (b₀.Has (spelled ns c) → b'.Has (c.key ns))) ∧
    (∀ key, key ≠ done → folded key = key → b₀.Has key → b'.find key = b₀.find key) ∧
    (∀ key, key ≠ done → b₀.Has key → ∃ source o₀ o, folded source = folded key ∧
      b₀.find source = some o₀ ∧ b'.find (folded key) = some o ∧ o.body = o₀.body) ∧
    ∀ out b'', Run keys b' out b'' → b'' = b' := by
  obtain ⟨⟨hfolding, hmarked'⟩, hended⟩ := hrun.sound (hstarts.sound hmarked)
  have hdone := hended n rfl
  have hsettled := hmarked' hdone
  have hmoved : ∀ key, b₀.Has key → b'.Has (folded key) := by
    intro key hhas
    rcases hfolding.safe key hhas with hb | hb
    · have hfolded : folded key = key := not_variant_iff.mp fun hvariant => hsettled key hvariant hb
      rwa [hfolded]
    · exact hb
  refine ⟨fun key hkey => ⟨fun hhas => ?_, ?_⟩, fun ns c => ⟨folded_spelled ns c, fun hhas => ?_⟩,
    fun key hkey hfolded hhas => ?_, fun key hkey hhas => ?_, fun out b'' hrun =>
      hrun.unchanged hdone⟩
  · obtain ⟨o, ho⟩ := Option.isSome_iff_exists.mp hhas
    obtain ⟨source, o₀, hfolded, hsource, -⟩ :=
      hfolding.moved key o hkey (fun hvariant => hsettled key hvariant hhas) ho
    exact ⟨source, by rw [Bucket.Has, hsource]; rfl, hfolded⟩
  · rintro ⟨source, hhas, rfl⟩
    exact hmoved source hhas
  · rw [← folded_spelled ns c]
    exact hmoved _ hhas
  · exact hfolding.kept key hkey (not_variant_iff.mpr hfolded) hhas
  · obtain ⟨o, ho⟩ := Option.isSome_iff_exists.mp (hmoved key hhas)
    have hne : folded key ≠ done := fun hfolded => hkey (folded_eq_done.mp hfolded)
    obtain ⟨source, o₀, hsource, hfind, hbody⟩ :=
      hfolding.moved _ o hne (not_variant_iff.mpr (folded_folded key)) ho
    exact ⟨source, o₀, o, hsource, hfind, ho, hbody.symm⟩

end Runs

/-! ### A lock under two spellings -/

/-- A store that refuses nothing. -/
def answering : (r : Req) → Bucket → Option (Resp r × Bucket)
  | .keyspace r, b => if r ≠ .furtherPages then some (Keyspace.respond .s3 1000 r b) else none
  | .getBytes key, b => some (.ok ((b.find key).map Stored.body), b)
  | .putIfAbsent key body, b =>
      if b.Has key then some (.ok false, b) else some (.ok true, b.write key body b.clock)

theorem answering_answers (r : Req) (b : Bucket) (answered : Resp r × Bucket)
    (h : answering r b = some answered) : Answers .s3 r b answered.1 answered.2 := by
  cases r with
  | keyspace r =>
      obtain ⟨hr, h⟩ := Option.ite_none_right_eq_some.mp h
      cases h
      exact Keyspace.respond_answers (by decide) r hr b
  | getBytes key =>
      cases h
      exact ⟨rfl, rfl⟩
  | putIfAbsent key body =>
      rw [answering] at h
      by_cases hhas : b.Has key
      · rw [if_pos hhas] at h
        cases h
        exact (if_pos hhas).mpr ⟨rfl, rfl⟩
      · rw [if_neg hhas] at h
        cases h
        exact (if_neg hhas).mpr ⟨rfl, b.clock, le_refl _, rfl⟩

theorem answering_faulty (r : Req) (b : Bucket) (answered : Resp r × Bucket)
    (h : answering r b = some answered) : Faulty .s3 r b answered.1 answered.2 :=
  Or.inl (answering_answers r b answered h)

def lockOf (org : String) : Text :=
  joined [".locks".toList, org.toList, "game".toList, "a.json".toList]

/-- A lock under a spelling, in a bucket with the mark or without it. -/
def spread (marked : Bool) : Bucket :=
  let b : Bucket := (⟨∅, 0⟩ : Bucket).write (lockOf "Acme") [1] 0
  if marked then b.write done [] 0 else b

/-- What there is to move. -/
def lockMoves : List (Text × Text) := [(lockOf "Acme", lockOf "acme")]

theorem plan_played {b : Bucket}
    (h : (Program.advance answering 2 ((plan ⟨.s3, 2⟩).run, b)).any
      (fun c => c.1.result = some (.ok (some lockMoves))) = true) :
    Program.Steps (Faulty .s3) ((plan ⟨.s3, 2⟩).run, b) (.pure (.ok (some lockMoves)), b) := by
  obtain ⟨⟨p, b₁⟩, hadvance, hresult⟩ := (Option.any_eq_true _ _).mp h
  have hsteps := Program.advance_steps answering_faulty hadvance
  obtain rfl := Program.eq_pure_of_result (of_decide_eq_true hresult)
  have hplan : b₁ = b := (@plan_steps ⟨.s3, 2⟩ _ _ _ hsteps).1
  subst hplan
  exact hsteps

/-- The server dies once the lock is in its place, and the next start removes the other. -/
theorem fold_converges_spread :
    ∃ b b', Starts ⟨.s3, 2⟩ (spread false) b ∧ b.Has (lockOf "Acme") ∧
      Run ⟨.s3, 2⟩ b (some 1) b' ∧
      ∀ key, key ≠ done →
        (b'.Has key ↔ ∃ source, (spread false).Has source ∧ folded source = key) := by
  let turns (n : Nat) : List (Fin lockMoves.length) := List.replicate n ⟨0, by decide⟩
  have hplayed : (Program.advance answering 2 ((plan ⟨.s3, 2⟩).run, spread false)).any
      (fun c => c.1.result = some (.ok (some lockMoves))) ∧
      ((moving ⟨.s3, 2⟩ lockMoves (spread false)).play (fun _ => answering) (turns 2)).any
        fun half =>
        half.state.Has (lockOf "Acme") ∧
        (Program.advance answering 2 ((plan ⟨.s3, 2⟩).run, half.state)).any
          (fun c => c.1.result = some (.ok (some lockMoves))) ∧
        ((moving ⟨.s3, 2⟩ lockMoves half.state).play (fun _ => answering) (turns 4)).any fun all =>
          (∀ i, (all.progs i).result = some (.ok ())) ∧
          (Program.advance answering 1 (mark.run, all.state)).any fun last =>
            last.1.result = some (.ok ()) := by
    decide +kernel
  obtain ⟨hfirst, hplayed⟩ := hplayed
  obtain ⟨half, hhalf, hplayed⟩ := (Option.any_eq_true _ _).mp hplayed
  obtain ⟨hhas, hsecond, hplayed⟩ := of_decide_eq_true hplayed
  obtain ⟨all, hall, hplayed⟩ := (Option.any_eq_true _ _).mp hplayed
  obtain ⟨hreturned, hlast⟩ := of_decide_eq_true hplayed
  obtain ⟨⟨p, b'⟩, hmark, hresult⟩ := (Option.any_eq_true _ _).mp hlast
  have hmarked := Program.advance_steps answering_faulty hmark
  obtain rfl := Program.eq_pure_of_result (of_decide_eq_true hresult)
  have hstarts : Starts ⟨.s3, 2⟩ (spread false) half.state :=
    .died (.none _)
      (.moving (plan_played hfirst) (Pool.play_steps (fun _ => answering_faulty) hhalf))
  have hrun : Run ⟨.s3, 2⟩ half.state (some 1) b' :=
    .ended (plan_played hsecond) (Pool.play_steps (fun _ => answering_faulty) hall)
      (fun i => Program.eq_pure_of_result (hreturned i)) hmarked
  have hunmarked : Marked (spread false) := fun hdone => absurd hdone (by decide)
  exact ⟨half.state, b', hstarts, hhas, hrun, (fold_converges hunmarked hstarts hrun).1⟩

/-- A bucket with the mark is left as it is, with its variants. -/
theorem fold_marked :
    ¬ ∀ b b' n, Starts ⟨.s3, 2⟩ (spread true) b → Run ⟨.s3, 2⟩ b (some n) b' →
      ∀ key, key ≠ done →
        (b'.Has key ↔ ∃ source, (spread true).Has source ∧ folded source = key) := by
  intro hclaim
  have hread : Program.advance answering 1 ((plan ⟨.s3, 2⟩).run, spread true) =
      some (.pure (.ok none), spread true) := rfl
  have hrun : Run ⟨.s3, 2⟩ (spread true) (some 0) (spread true) :=
    .already (Program.advance_steps answering_faulty hread)
  obtain ⟨source, -, hfolded⟩ :=
    (hclaim _ _ 0 (.none _) hrun (lockOf "Acme") (by decide)).mp (by decide)
  have htwice := folded_folded source
  rw [hfolded] at htwice
  exact absurd htwice (by decide)

end Lfsx.Storage.Canonical
