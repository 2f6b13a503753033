import Mathlib.Data.Char
import Mathlib.Data.List.AList
import Mathlib.Data.List.Lex
import Lfsx.Request.Fallible
import Lfsx.Storage.Codec

/-!
# The keyspace

A bucket holds whole values under text keys.  `Req` is what the code can ask of
it, one HTTP request each, beside a look at the clock and the order in which
concurrent requests are answered.  `Answers` is what a store answers that is well,
and `Faulty` adds that any request may be refused, before or after it took effect.

A listing comes in pages, and each page is a request of its own: it returns keys in
order, from where the last one ended, and a token if there are more (`Page`).
`entriesFrom` follows the tokens.  A program is a finite tree, so it is given the
number of pages it follows, and a listing that goes on after them is one that has
not ended (`furtherPages` is never answered).  Every run of the code is a run for
some number of pages.

S3 answers a DELETE alike whether the key was there or not, so `delete` asks with a
HEAD first, and only S3 copies inside the store.
-/

namespace Lfsx.Storage

open Request

/-! ## Buckets -/

/-- A value and when it was written, if the store's timestamp can be read. -/
structure Stored where
  body : Bytes
  modified : Option Nat
deriving DecidableEq

structure Bucket where
  objects : AList fun _ : Text => Stored
  clock : Nat

namespace Bucket

def find (b : Bucket) (key : Text) : Option Stored := b.objects.lookup key

/-- There is a value under a key. -/
def Has (b : Bucket) (key : Text) : Prop := (b.find key).isSome

instance (b : Bucket) (key : Text) : Decidable (b.Has key) :=
  inferInstanceAs (Decidable ((b.find key).isSome = true))

def write (b : Bucket) (key : Text) (body : Bytes) (time : Nat) : Bucket :=
  { objects := b.objects.insert key ⟨body, some time⟩, clock := time }

def remove (b : Bucket) (key : Text) : Bucket := { b with objects := b.objects.erase key }

def wait (b : Bucket) (time : Nat) : Bucket := { b with clock := time }

@[simp] theorem find_write (b : Bucket) (key : Text) (body : Bytes) (time : Nat) (k : Text) :
    (b.write key body time).find k = if k = key then some ⟨body, some time⟩ else b.find k := by
  by_cases h : k = key
  · subst h
    rw [if_pos rfl]
    exact AList.lookup_insert _
  · rw [if_neg h]
    exact AList.lookup_insert_ne h

@[simp] theorem find_remove (b : Bucket) (key k : Text) :
    (b.remove key).find k = if k = key then none else b.find k := by
  by_cases h : k = key
  · subst h
    rw [if_pos rfl]
    exact AList.lookup_erase _ _
  · rw [if_neg h]
    exact AList.lookup_erase_ne h

@[simp] theorem find_wait (b : Bucket) (time : Nat) (k : Text) : (b.wait time).find k = b.find k :=
  rfl

@[simp] theorem has_write {b : Bucket} {key k : Text} {body : Bytes} {time : Nat} :
    (b.write key body time).Has k ↔ k = key ∨ b.Has k := by
  rw [Has, find_write]
  by_cases h : k = key <;> simp [h, Has]

@[simp] theorem has_remove {b : Bucket} {key k : Text} :
    (b.remove key).Has k ↔ k ≠ key ∧ b.Has k := by
  rw [Has, find_remove]
  by_cases h : k = key <;> simp [h, Has]

@[simp] theorem has_wait {b : Bucket} {time : Nat} {k : Text} : (b.wait time).Has k ↔ b.Has k :=
  Iff.rfl

end Bucket

/-- What a listing says of a key. -/
structure Entry where
  key : Text
  modified : Option Nat
  size : Nat
deriving DecidableEq

/-! ## Requests -/

inductive Provider where
  | s3
  | azure
  | gcs
deriving DecidableEq

/-- A keyspace: whose it is, and the number of pages a listing is followed for. -/
structure Keyspace where
  provider : Provider
  pages : Nat

namespace Keyspace

inductive Req where
  | head (key : Text)
  | put (key : Text) (body : Bytes)
  | copy (source target : Text)
  | getRange (key : Text) (start length : Nat)
  | delete (key : Text)
  | page (under : Text) (after : Option Text)
  | furtherPages
  | now
  | unordered (count : Nat)
deriving DecidableEq

abbrev Resp : Req → Type
  | .head _ => Except Error Nat
  | .put _ _ => Except Error Unit
  | .copy _ _ => Except Error Unit
  | .getRange _ _ _ => Except Error Bytes
  | .delete _ => Except Error Bool
  | .page _ _ => Except Error (List Entry × Option Text)
  | .furtherPages => Except Error (List Entry)
  | .now => Nat
  | .unordered _ => List Nat

/-- A program against a bucket. -/
abbrev Op (α : Type) := Fallible Error Req Resp α

/-! ## What a store answers -/

/-- A page of the keys under `under`, after `after`: in order, with every key up to
the token, which is the last of the page, and with every key if there is none. -/
structure Page (b : Bucket) (under : Text) (after : Option Text) (entries : List Entry)
    (next : Option Text) : Prop where
  stored : ∀ e ∈ entries, ∃ o, b.find e.key = some o ∧ e.modified = o.modified ∧
    e.size = o.body.length
  starts : ∀ e ∈ entries, under <+: e.key
  later : ∀ e ∈ entries, ∀ a ∈ after, a < e.key
  sorted : (entries.map Entry.key).Pairwise (· < ·)
  covers : ∀ key, b.Has key → under <+: key → (∀ a ∈ after, a < key) → (∀ n ∈ next, key ≤ n) →
    key ∈ entries.map Entry.key
  token : ∀ n ∈ next, n ∈ entries.map Entry.key ∧ ∀ e ∈ entries, e.key ≤ n

/-- What a store that is well answers to a request, and what it leaves. -/
def Answers (provider : Provider) : Semantics Req Resp Bucket
  | .head key, b, answer, b' =>
      answer = (match b.find key with
        | some o => .ok o.body.length
        | none => .error .notFound) ∧ b' = b
  | .put key body, b, answer, b' =>
      answer = .ok () ∧ ∃ time, b.clock ≤ time ∧ b' = b.write key body time
  | .copy source target, b, answer, b' =>
      match b.find source with
      | some o => answer = .ok () ∧ ∃ time, b.clock ≤ time ∧ b' = b.write target o.body time
      | none => (∃ e, answer = .error e) ∧ b' = b
  | .getRange key start length, b, answer, b' =>
      answer = (match b.find key with
        | some o => Reader.byteRange o.body start (start + (length - 1))
        | none => .error .notFound) ∧ b' = b
  | .delete key, b, answer, b' =>
      answer = .ok (decide (provider = .s3 ∨ b.Has key)) ∧ b' = b.remove key
  | .page under after, b, answer, b' =>
      (∃ entries next, answer = .ok (entries, next) ∧ Page b under after entries next) ∧ b' = b
  | .furtherPages, _, _, _ => False
  | .now, b, time, b' => b.clock ≤ time ∧ b' = b.wait time
  | .unordered count, b, answer, b' => answer.Perm (List.range count) ∧ b' = b

/-- The answers that refuse a request. -/
def Refusal : (r : Req) → Resp r → Prop
  | .head _, answer => ∃ e, answer = .error e
  | .put _ _, answer => ∃ e, answer = .error e
  | .copy _ _, answer => ∃ e, answer = .error e
  | .getRange _ _ _, answer => ∃ e, answer = .error e
  | .delete _, answer => ∃ e, answer = .error e
  | .page _ _, answer => ∃ e, answer = .error e
  | .furtherPages, _ => False
  | .now, _ => False
  | .unordered _, _ => False

/-- A store that may refuse any request, before or after it took effect. -/
def Faulty (provider : Provider) : Semantics Req Resp Bucket := fun r b answer b' =>
  Answers provider r b answer b' ∨
    Refusal r answer ∧ (b' = b ∨ ∃ answer', Answers provider r b answer' b')

/-! ## Operations -/

def head (key : Text) : Op Nat := Fallible.ask (.head key) rfl

/-- `head(key).is_ok()`. -/
def found (key : Text) : Op Bool := do
  match ← (head key).attempt with
  | .ok _ => pure true
  | .error _ => pure false

def put (key : Text) (body : Bytes) : Op Unit := Fallible.ask (.put key body) rfl

/-- The bytes of a staging file.  Above the ceiling of one request they go up in
parts, which the store puts under the key when it has them all. -/
def putFile (key : Text) (staged : Bytes) : Op Unit := put key staged

def getRange (key : Text) (start length : Nat) : Op Bytes :=
  Fallible.ask (.getRange key start length) rfl

variable (keys : Keyspace)

def copy (source target : Text) : Op Unit :=
  match keys.provider with
  | .s3 => Fallible.ask (.copy source target) rfl
  | .azure =>
      throw (.storage "this object store takes no client uploads, so it has nothing to copy")
  | .gcs =>
      throw (.storage "this object store takes no client uploads, so it has nothing to copy")

def delete (key : Text) : Op Bool :=
  match keys.provider with
  | .s3 => do
      let existed ← found key
      let _ ← (Fallible.ask (.delete key) rfl : Op Bool)
      pure existed
  | .azure => Fallible.ask (.delete key) rfl
  | .gcs => Fallible.ask (.delete key) rfl

/-- The pages from `after` on, one after the other. -/
def entriesFrom : (pages : Nat) → (under : Text) → (after : Option Text) → Op (List Entry)
  | 0, _, _ => Fallible.ask .furtherPages rfl
  | pages + 1, under, after => do
      let page ← (Fallible.ask (.page under after) rfl : Op (List Entry × Option Text))
      match page.2 with
      | none => pure page.1
      | some token => do
          let rest ← entriesFrom pages under (some token)
          pure (page.1 ++ rest)

def entries (under : Text) : Op (List Entry) := entriesFrom keys.pages under none

/-- `Keyspace::keys`. -/
def listKeys (under : Text) : Op (List Text) := do
  let listed ← keys.entries under
  pure (listed.map Entry.key)

/-- A listing that says whether it finished. -/
structure Listing where
  entries : List Entry
  complete : Bool

def listing (under : Text) : Op Listing := do
  match ← (keys.entries under).attempt with
  | .ok listed => pure ⟨listed, true⟩
  | .error _ => pure ⟨[], false⟩

end Keyspace

/-- `Entry::age`: none for a timestamp that cannot be read, or that is ahead of the
clock. -/
def Entry.age (e : Entry) : Keyspace.Op (Option Nat) := do
  let now ← (Fallible.certain Keyspace.Req.now : Keyspace.Op Nat)
  match e.modified with
  | none => pure none
  | some modified => if modified ≤ now then pure (some (now - modified)) else pure none

end Lfsx.Storage
