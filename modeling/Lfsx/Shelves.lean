import Mathlib.Data.List.Nodup
import Lfsx.Request.Interference

/-!
# Shelves

A shelf holds values under keys, and gives every value it takes a version of its own.  A
value is put under a key that is free (`putIfAbsent`), and taken away under the version it
was given (`deleteIf`).  The shelf keeps what it gave each version to, and never gives one
again, so that a version names one value.

`Faulty` is a shelf that may refuse any request, before or after it took effect.  Whatever
it does, a value leaves a shelf only when its own version is asked for (`Faulty.moves`).
-/

namespace Shelves

open Request

variable {Key Value Version ε : Type}

/-- A value under its version. -/
structure Item (Value Version : Type) where
  value : Value
  version : Version
deriving DecidableEq

/-- What a version was given to. -/
structure Grant (Key Value Version : Type) where
  version : Version
  key : Key
  value : Value

/-- Items under keys. -/
structure Shelf (Key Value Version : Type) where
  items : Key → Option (Item Value Version)
  granted : List (Grant Key Value Version)
  /-- A version is given once. -/
  distinct : (granted.map Grant.version).Nodup
  /-- Every item was given its version. -/
  vouched : ∀ key item, items key = some item → ⟨item.version, key, item.value⟩ ∈ granted

namespace Shelf

/-- A shelf with nothing on it. -/
def empty : Shelf Key Value Version where
  items _ := none
  granted := []
  distinct := List.nodup_nil
  vouched _ _ h := by cases h

/-- A version the shelf has not given. -/
def Fresh (s : Shelf Key Value Version) (version : Version) : Prop :=
  version ∉ s.granted.map Grant.version

instance [DecidableEq Version] (s : Shelf Key Value Version) (version : Version) :
    Decidable (s.Fresh version) :=
  inferInstanceAs (Decidable (_ ∉ _))

/-- A version names one value, under one key. -/
theorem eq_of_granted {s : Shelf Key Value Version} {version : Version} {key key' : Key}
    {value value' : Value} (h : ⟨version, key, value⟩ ∈ s.granted)
    (h' : ⟨version, key', value'⟩ ∈ s.granted) : key = key' ∧ value = value' := by
  have heq := List.inj_on_of_nodup_map s.distinct h h' rfl
  cases heq
  exact ⟨rfl, rfl⟩

variable [DecidableEq Key]

/-- A value under a key, with a version that was not given before. -/
def put (s : Shelf Key Value Version) (key : Key) (value : Value) (version : Version)
    (hfresh : s.Fresh version) : Shelf Key Value Version where
  items := Function.update s.items key (some ⟨value, version⟩)
  granted := ⟨version, key, value⟩ :: s.granted
  distinct := List.nodup_cons.mpr ⟨hfresh, s.distinct⟩
  vouched := by
    intro k item h
    by_cases hk : k = key
    · subst hk
      rw [Function.update_self, Option.some.injEq] at h
      subst h
      exact List.mem_cons_self
    · rw [Function.update_of_ne hk] at h
      exact List.mem_cons_of_mem _ (s.vouched k item h)

def remove (s : Shelf Key Value Version) (key : Key) : Shelf Key Value Version where
  items := Function.update s.items key none
  granted := s.granted
  distinct := s.distinct
  vouched := by
    intro k item h
    by_cases hk : k = key
    · subst hk
      rw [Function.update_self] at h
      cases h
    · rw [Function.update_of_ne hk] at h
      exact s.vouched k item h

end Shelf

/-! ## Requests -/

inductive Req (Key Value Version : Type) where
  | get (key : Key)
  | putIfAbsent (key : Key) (value : Value)
  | deleteIf (key : Key) (version : Version)
  | keys (under : Key)

/-- A put answers the version it gave, or nothing if the key was taken. -/
abbrev Resp (ε : Type) : Req Key Value Version → Type
  | .get _ => Except ε (Option (Item Value Version))
  | .putIfAbsent _ _ => Except ε (Option Version)
  | .deleteIf _ _ => Except ε Bool
  | .keys _ => Except ε (List Key)

variable [DecidableEq Key] [DecidableEq Version]

/-- What a shelf that is well answers, and what it leaves.  A listing takes a while, and
what it says of a shelf that changes meanwhile is left open. -/
def Answers : Semantics (Req Key Value Version) (Resp ε) (Shelf Key Value Version)
  | .get key, s, answer, s' => answer = .ok (s.items key) ∧ s' = s
  | .putIfAbsent key value, s, answer, s' =>
      match s.items key with
      | some _ => answer = .ok none ∧ s' = s
      | none => ∃ version, ∃ hfresh : s.Fresh version,
          answer = .ok (some version) ∧ s' = s.put key value version hfresh
  | .deleteIf key version, s, answer, s' =>
      if (s.items key).map Item.version = some version then answer = .ok true ∧ s' = s.remove key
      else answer = .ok false ∧ s' = s
  | .keys _, s, answer, s' => (∃ listed, answer = .ok listed) ∧ s' = s

/-- The answers that refuse a request. -/
def Refusal : (r : Req Key Value Version) → Resp ε r → Prop
  | .get _, answer => ∃ e, answer = .error e
  | .putIfAbsent _ _, answer => ∃ e, answer = .error e
  | .deleteIf _ _, answer => ∃ e, answer = .error e
  | .keys _, answer => ∃ e, answer = .error e

/-- A shelf that may refuse any request, before or after it took effect. -/
def Faulty : Semantics (Req Key Value Version) (Resp ε) (Shelf Key Value Version) :=
  fun r s answer s' =>
    Answers r s answer s' ∨ Refusal r answer ∧ (s' = s ∨ ∃ answer' : Resp ε r,
      Answers r s answer' s')

/-! ## What a request changes -/

section

variable {s s' : Shelf Key Value Version} {r : Req Key Value Version} {answer : Resp ε r}
  {key : Key} {value : Value} {version : Version}

/-- A key was free and is taken, or its item was asked for and is gone, or it is as it was. -/
inductive Moves (key : Key) (s s' : Shelf Key Value Version) :
    (r : Req Key Value Version) → Resp ε r → Prop where
  | stays {r : Req Key Value Version} {answer : Resp ε r} :
      s'.items key = s.items key → Moves key s s' r answer
  | comes {value : Value} {answer : Except ε (Option Version)} :
      s.items key = none → Moves key s s' (.putIfAbsent key value) answer
  | goes {item : Item Value Version} {answer : Except ε Bool} : s.items key = some item →
      answer ≠ .ok false → Moves key s s' (.deleteIf key item.version) answer

theorem Answers.moves (h : Answers r s answer s') (key : Key) : Moves key s s' r answer := by
  cases r with
  | get k =>
      obtain ⟨-, rfl⟩ := h
      exact .stays rfl
  | keys under =>
      obtain ⟨-, rfl⟩ := h
      exact .stays rfl
  | putIfAbsent k value =>
      rw [Answers] at h
      by_cases hk : key = k
      · subst hk
        cases hitem : s.items key with
        | none => exact .comes hitem
        | some item =>
            rw [hitem] at h
            obtain ⟨-, rfl⟩ := h
            exact .stays rfl
      · refine .stays ?_
        split at h
        · obtain ⟨-, rfl⟩ := h
          rfl
        · obtain ⟨version, hfresh, -, rfl⟩ := h
          exact Function.update_of_ne hk _ _
  | deleteIf k version =>
      rw [Answers] at h
      split at h
      · next hversion =>
          obtain ⟨rfl, rfl⟩ := h
          by_cases hk : key = k
          · subst hk
            obtain ⟨item, hitem, rfl⟩ := Option.map_eq_some_iff.mp hversion
            exact .goes hitem (by simp)
          · exact .stays (Function.update_of_ne hk _ _)
      · obtain ⟨-, rfl⟩ := h
        exact .stays rfl

omit [DecidableEq Key] [DecidableEq Version] in
/-- An answer that was lost moves what the answer moved. -/
theorem Moves.refused {answer' : Resp ε r} (h : Moves key s s' r answer')
    (hrefusal : Refusal r answer) : Moves key s s' r answer := by
  cases h with
  | stays h => exact .stays h
  | comes h => exact .comes h
  | goes h _ =>
      obtain ⟨e, rfl⟩ := hrefusal
      exact .goes h (by simp)

/-- **A value leaves when its own version is asked for.** -/
theorem Faulty.moves (h : Faulty r s answer s') (key : Key) : Moves key s s' r answer := by
  rcases h with h | ⟨hrefusal, rfl | ⟨answer', h⟩⟩
  · exact h.moves key
  · exact .stays rfl
  · exact (h.moves key).refused hrefusal

theorem Answers.granted (h : Answers r s answer s') : s.granted ⊆ s'.granted := by
  cases r with
  | get k =>
      obtain ⟨-, rfl⟩ := h
      exact List.Subset.refl _
  | keys under =>
      obtain ⟨-, rfl⟩ := h
      exact List.Subset.refl _
  | putIfAbsent k value =>
      rw [Answers] at h
      split at h
      · obtain ⟨-, rfl⟩ := h
        exact List.Subset.refl _
      · obtain ⟨version, hfresh, -, rfl⟩ := h
        exact List.subset_cons_self _ _
  | deleteIf k version =>
      rw [Answers] at h
      split at h <;> obtain ⟨-, rfl⟩ := h <;> exact List.Subset.refl _

/-- What was given stays given. -/
theorem Faulty.granted (h : Faulty r s answer s') : s.granted ⊆ s'.granted := by
  rcases h with h | ⟨-, rfl | ⟨answer', h⟩⟩
  · exact h.granted
  · exact List.Subset.refl _
  · exact h.granted

/-- A version that was read names what it was read with. -/
theorem Faulty.read {item : Item Value Version}
    (h : Faulty (.get key) s (.ok (some item) : Except ε _) s') :
    ⟨item.version, key, item.value⟩ ∈ s'.granted := by
  rcases h with ⟨hitem, rfl⟩ | ⟨⟨e, he⟩, -⟩
  · exact s'.vouched key item (Except.ok.inj hitem).symm
  · cases he

/-- A put, refused or not, fills its key or leaves it. -/
theorem Faulty.fills {answer : Except ε (Option Version)}
    (h : Faulty (.putIfAbsent key value) s answer s') :
    s'.items key = s.items key ∨
      s.items key = none ∧ ∃ version, s'.items key = some ⟨value, version⟩ := by
  have hanswers : ∀ answer' : Resp ε (.putIfAbsent key value : Req Key Value Version),
      Answers (.putIfAbsent key value) s answer' s' → s'.items key = s.items key ∨
        s.items key = none ∧ ∃ version, s'.items key = some ⟨value, version⟩ := by
    intro answer' h
    rw [Answers] at h
    cases hitem : s.items key with
    | some item =>
        rw [hitem] at h
        obtain ⟨-, rfl⟩ := h
        exact Or.inl hitem
    | none =>
        rw [hitem] at h
        obtain ⟨version, hfresh, -, rfl⟩ := h
        exact Or.inr ⟨rfl, version, Function.update_self _ _ _⟩
  rcases h with h | ⟨-, rfl | ⟨answer', h⟩⟩
  · exact hanswers _ h
  · exact Or.inl rfl
  · exact hanswers _ h

/-- What was put is there, under a version that was not given before. -/
theorem Faulty.placed
    (h : Faulty (.putIfAbsent key value) s (.ok (some version) : Except ε _) s') :
    s.Fresh version ∧ s'.items key = some ⟨value, version⟩ := by
  rcases h with h | ⟨⟨e, he⟩, -⟩
  · rw [Answers] at h
    cases hitem : s.items key with
    | some item =>
        rw [hitem] at h
        cases h.1
    | none =>
        rw [hitem] at h
        obtain ⟨version', hfresh, heq, rfl⟩ := h
        cases heq
        exact ⟨hfresh, Function.update_self _ _ _⟩
  · cases he

/-- What was not put found its key taken. -/
theorem Faulty.occupied (h : Faulty (.putIfAbsent key value) s (.ok none : Except ε _) s') :
    s'.items key ≠ none := by
  rcases h with h | ⟨⟨e, he⟩, -⟩
  · rw [Answers] at h
    cases hitem : s.items key with
    | some item =>
        rw [hitem] at h
        obtain ⟨-, rfl⟩ := h
        rw [hitem]
        exact Option.some_ne_none item
    | none =>
        rw [hitem] at h
        obtain ⟨version, hfresh, heq, -⟩ := h
        cases heq
  · cases he

theorem Answers.items {item : Item Value Version} (h : Answers r s answer s')
    (hitem : s'.items key = some item) :
    s.items key = some item ∨ r = .putIfAbsent key item.value := by
  cases r with
  | get k =>
      obtain ⟨-, rfl⟩ := h
      exact Or.inl hitem
  | keys under =>
      obtain ⟨-, rfl⟩ := h
      exact Or.inl hitem
  | putIfAbsent k value =>
      rw [Answers] at h
      split at h
      · obtain ⟨-, rfl⟩ := h
        exact Or.inl hitem
      · obtain ⟨version, hfresh, -, rfl⟩ := h
        by_cases hk : key = k
        · subst hk
          simp only [Shelf.put, Function.update_self] at hitem
          cases hitem
          exact Or.inr rfl
        · simp only [Shelf.put, Function.update_of_ne hk] at hitem
          exact Or.inl hitem
  | deleteIf k version =>
      rw [Answers] at h
      split at h
      · obtain ⟨-, rfl⟩ := h
        by_cases hk : key = k
        · subst hk
          simp only [Shelf.remove, Function.update_self] at hitem
          cases hitem
        · simp only [Shelf.remove, Function.update_of_ne hk] at hitem
          exact Or.inl hitem
      · obtain ⟨-, rfl⟩ := h
        exact Or.inl hitem

/-- Where an item comes from. -/
theorem Faulty.items {item : Item Value Version} (h : Faulty r s answer s')
    (hitem : s'.items key = some item) :
    s.items key = some item ∨ r = .putIfAbsent key item.value := by
  rcases h with h | ⟨-, rfl | ⟨answer', h⟩⟩
  · exact h.items hitem
  · exact Or.inl hitem
  · exact h.items hitem

end

end Shelves
