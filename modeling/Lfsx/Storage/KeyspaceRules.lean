import Mathlib.Data.List.Pairwise
import Lfsx.Storage.S3

/-!
# Rules for the requests of a keyspace

What one request can do to a bucket is said here once: it changes the key it names
and no other (`Req.Puts`, `Req.Deletes`), and an answer that is not an error is the
answer of a store that is well.  Everything that is proved of a bucket under
interference follows from these.

The operations of the keyspace have rules for `Fallible.Under`, from what is known
of each request.  The rule for a listing has two families of facts, since its pages
are answered one by one: what holds of a key once it was missing from its page, and
what holds of an entry once it was on one.
-/

namespace Lfsx.Storage

open Request

namespace Keyspace

/-! ## What a request changes -/

/-- A request that may leave a value under a key. -/
inductive Req.Puts : Req → Text → Prop where
  | put (key : Text) (body : Bytes) : Puts (.put key body) key
  | copy (source target : Text) : Puts (.copy source target) target

/-- A request that may leave nothing under a key. -/
inductive Req.Deletes : Req → Text → Prop where
  | delete (key : Text) : Deletes (.delete key) key

@[simp] theorem Req.puts_put {key k : Text} {body : Bytes} : (put key body).Puts k ↔ k = key :=
  ⟨fun h => by cases h; rfl, fun h => h ▸ .put _ _⟩

@[simp] theorem Req.puts_copy {source key k : Text} : (copy source key).Puts k ↔ k = key :=
  ⟨fun h => by cases h; rfl, fun h => h ▸ .copy _ _⟩

@[simp] theorem Req.deletes_delete {key k : Text} : (delete key).Deletes k ↔ k = key :=
  ⟨fun h => by cases h; rfl, fun h => h ▸ .delete _⟩

@[simp] theorem Req.not_deletes_put {key k : Text} {body : Bytes} : ¬ (put key body).Deletes k :=
  fun h => by cases h

@[simp] theorem Req.not_deletes_copy {source key k : Text} : ¬ (copy source key).Deletes k :=
  fun h => by cases h

@[simp] theorem Req.not_puts_delete {key k : Text} : ¬ (delete key).Puts k :=
  fun h => by cases h

/-- A request that changes nothing. -/
def Req.Reads (r : Req) : Prop := (∀ key, ¬ r.Puts key) ∧ ∀ key, ¬ r.Deletes key

theorem Req.reads_head (key : Text) : (head key).Reads := ⟨nofun, nofun⟩

theorem Req.reads_page (under : Text) (after : Option Text) : (page under after).Reads :=
  ⟨nofun, nofun⟩

theorem Req.reads_getRange (key : Text) (start length : Nat) :
    (getRange key start length).Reads := ⟨nofun, nofun⟩

theorem Req.reads_now : now.Reads := ⟨nofun, nofun⟩

theorem Req.reads_unordered (count : Nat) : (unordered count).Reads := ⟨nofun, nofun⟩

variable {provider : Provider} {r : Req} {b b' : Bucket} {key : Text}

theorem Req.Puts.not_deletes (h : r.Puts key) (k : Text) : ¬ r.Deletes k := by
  rintro ⟨⟩
  cases h

theorem Req.Puts.unique {k : Text} (h : r.Puts key) (h' : r.Puts k) : key = k := by
  cases h <;> cases h' <;> rfl

section Faulty

theorem Faulty.of_answers {answer : Resp r} (h : Answers provider r b answer b') :
    Faulty provider r b answer b' :=
  Or.inl h

theorem Faulty.head {answer : Resp (.head key)} (h : Faulty provider (.head key) b answer b') :
    b' = b ∧ ∀ n, answer = .ok n → ∃ o, b.find key = some o ∧ n = o.body.length := by
  have hread : ∀ answer' : Resp (.head key), Answers provider (.head key) b answer' b' → b' = b :=
    fun _ h => h.2
  rcases h with ⟨rfl, rfl⟩ | ⟨⟨e, rfl⟩, rfl | ⟨answer', h⟩⟩
  · refine ⟨rfl, fun n hn => ?_⟩
    cases hfind : b'.find key with
    | none => rw [hfind] at hn; cases hn
    | some o => rw [hfind] at hn; cases hn; exact ⟨o, rfl, rfl⟩
  · exact ⟨rfl, fun _ hn => by cases hn⟩
  · exact ⟨hread answer' h, fun _ hn => by cases hn⟩

theorem Faulty.put {body : Bytes} {answer : Resp (.put key body)}
    (h : Faulty provider (.put key body) b answer b') :
    (∃ time, b' = b.write key body time) ∨ (b' = b ∧ ∃ e, answer = .error e) := by
  rcases h with ⟨-, time, -, rfl⟩ | ⟨⟨e, rfl⟩, rfl | ⟨_, -, time, -, rfl⟩⟩
  · exact Or.inl ⟨time, rfl⟩
  · exact Or.inr ⟨rfl, e, rfl⟩
  · exact Or.inl ⟨time, rfl⟩

theorem Faulty.copy {source : Text} {answer : Resp (.copy source key)}
    (h : Faulty provider (.copy source key) b answer b') :
    (∃ o time, b.find source = some o ∧ b' = b.write key o.body time) ∨
      (b' = b ∧ ∃ e, answer = .error e) := by
  have hcopy : ∀ answer' : Resp (.copy source key),
      Answers provider (.copy source key) b answer' b' →
      (∃ o time, b.find source = some o ∧ b' = b.write key o.body time) ∨
        (b' = b ∧ ∃ e, answer' = .error e) := by
    intro answer' h
    simp only [Answers] at h
    cases hfind : b.find source with
    | none =>
        rw [hfind] at h
        exact Or.inr ⟨h.2, h.1⟩
    | some o =>
        rw [hfind] at h
        obtain ⟨-, time, -, rfl⟩ := h
        exact Or.inl ⟨o, time, rfl, rfl⟩
  rcases h with h | ⟨⟨e, rfl⟩, rfl | ⟨answer', h⟩⟩
  · exact hcopy answer h
  · exact Or.inr ⟨rfl, e, rfl⟩
  · rcases hcopy answer' h with hput | ⟨rfl, -⟩
    · exact Or.inl hput
    · exact Or.inr ⟨rfl, e, rfl⟩

theorem Faulty.delete {answer : Resp (.delete key)}
    (h : Faulty provider (.delete key) b answer b') :
    b' = b.remove key ∨ (b' = b ∧ ∃ e, answer = .error e) := by
  rcases h with ⟨-, rfl⟩ | ⟨⟨e, rfl⟩, rfl | ⟨_, -, rfl⟩⟩
  · exact Or.inl rfl
  · exact Or.inr ⟨rfl, e, rfl⟩
  · exact Or.inl rfl

theorem Faulty.page {under : Text} {after : Option Text} {answer : Resp (.page under after)}
    (h : Faulty provider (.page under after) b answer b') :
    b' = b ∧ ∀ page, answer = .ok page → Page b under after page.1 page.2 := by
  have hread : ∀ answer' : Resp (.page under after),
      Answers provider (.page under after) b answer' b' → b' = b :=
    fun _ h => h.2
  rcases h with ⟨⟨entries, next, rfl, hpage⟩, rfl⟩ | ⟨⟨e, rfl⟩, rfl | ⟨answer', h⟩⟩
  · exact ⟨rfl, fun page heq => by cases heq; exact hpage⟩
  · exact ⟨rfl, fun _ heq => by cases heq⟩
  · exact ⟨hread answer' h, fun _ heq => by cases heq⟩

/-- **A request changes the key it names and no other.** -/
theorem Faulty.find_eq {answer : Resp r} (h : Faulty provider r b answer b')
    (hputs : ¬ r.Puts key) (hdeletes : ¬ r.Deletes key) : b'.find key = b.find key := by
  cases r with
  | head k => rw [h.head.1]
  | put k body =>
      rcases h.put with ⟨time, rfl⟩ | ⟨rfl, -⟩
      · have hne : key ≠ k := by rintro rfl; exact hputs (.put _ _)
        rw [Bucket.find_write, if_neg hne]
      · rfl
  | copy source k =>
      rcases h.copy with ⟨o, time, -, rfl⟩ | ⟨rfl, -⟩
      · have hne : key ≠ k := by rintro rfl; exact hputs (.copy _ _)
        rw [Bucket.find_write, if_neg hne]
      · rfl
  | getRange k start length =>
      have hread : b' = b := by
        rcases h with ⟨-, h⟩ | ⟨-, h | ⟨_, -, h⟩⟩ <;> exact h
      rw [hread]
  | delete k =>
      rcases h.delete with rfl | ⟨rfl, -⟩
      · have hne : key ≠ k := by rintro rfl; exact hdeletes (.delete _)
        rw [Bucket.find_remove, if_neg hne]
      · rfl
  | page under after => rw [h.page.1]
  | furtherPages =>
      rcases h with h | ⟨h, -⟩ <;> exact h.elim
  | now =>
      rcases h with ⟨-, rfl⟩ | ⟨h, -⟩
      · rfl
      · exact h.elim
  | unordered count =>
      rcases h with ⟨-, rfl⟩ | ⟨h, -⟩
      · rfl
      · exact h.elim

/-- **What is under a key** was there before, or was put there by the request. -/
theorem Faulty.found {answer : Resp r} {o : Stored} (h : Faulty provider r b answer b')
    (hfind : b'.find key = some o) :
    b.find key = some o ∨ (∃ body, r = .put key body ∧ body = o.body) ∨
      ∃ source o', r = .copy source key ∧ b.find source = some o' ∧ o.body = o'.body := by
  by_cases hputs : r.Puts key
  · cases hputs with
    | put _ body =>
        rcases h.put with ⟨time, rfl⟩ | ⟨rfl, -⟩
        · rw [Bucket.find_write, if_pos rfl] at hfind
          cases hfind
          exact .inr (.inl ⟨body, rfl, rfl⟩)
        · exact .inl hfind
    | copy source _ =>
        rcases h.copy with ⟨o', time, ho', rfl⟩ | ⟨rfl, -⟩
        · rw [Bucket.find_write, if_pos rfl] at hfind
          cases hfind
          exact .inr (.inr ⟨source, o', rfl, ho', rfl⟩)
        · exact .inl hfind
  · by_cases hdeletes : r.Deletes key
    · cases hdeletes with
      | delete =>
          rcases h.delete with rfl | ⟨rfl, -⟩
          · rw [Bucket.find_remove, if_pos rfl] at hfind
            cases hfind
          · exact .inl hfind
    · rw [h.find_eq hputs hdeletes] at hfind
      exact .inl hfind

/-- What is there stays, unless it is deleted. -/
theorem Faulty.has {answer : Resp r} (h : Faulty provider r b answer b') (hkey : b.Has key)
    (hdeletes : ¬ r.Deletes key) : b'.Has key := by
  by_cases hputs : r.Puts key
  · cases hputs with
    | put _ body =>
        rcases h.put with ⟨time, rfl⟩ | ⟨rfl, -⟩
        · exact Bucket.has_write.mpr (Or.inl rfl)
        · exact hkey
    | copy source _ =>
        rcases h.copy with ⟨o, time, -, rfl⟩ | ⟨rfl, -⟩
        · exact Bucket.has_write.mpr (Or.inl rfl)
        · exact hkey
  · rw [Bucket.Has, h.find_eq hputs hdeletes]
    exact hkey

/-- What is there was there, unless it was put. -/
theorem Faulty.has_before {answer : Resp r} (h : Faulty provider r b answer b')
    (hkey : b'.Has key) (hputs : ¬ r.Puts key) : b.Has key := by
  by_cases hdeletes : r.Deletes key
  · cases hdeletes with
    | delete =>
        rcases h.delete with rfl | ⟨rfl, -⟩
        · exact (Bucket.has_remove.mp hkey).2
        · exact hkey
  · rw [Bucket.Has, ← h.find_eq hputs hdeletes]
    exact hkey

/-- A put that was not refused has put. -/
theorem Faulty.has_of_put {body : Bytes} {u : Unit}
    (h : Faulty provider (.put key body) b (.ok u) b') : b'.Has key := by
  rcases h.put with ⟨time, rfl⟩ | ⟨-, e, he⟩
  · exact Bucket.has_write.mpr (Or.inl rfl)
  · cases he

theorem Faulty.has_of_copy {source : Text} {u : Unit}
    (h : Faulty provider (.copy source key) b (.ok u) b') : b'.Has key := by
  rcases h.copy with ⟨o, time, -, rfl⟩ | ⟨-, e, he⟩
  · exact Bucket.has_write.mpr (Or.inl rfl)
  · cases he

/-- A delete that was not refused has deleted. -/
theorem Faulty.not_has_of_delete {existed : Bool}
    (h : Faulty provider (.delete key) b (.ok existed) b') : ¬ b'.Has key := by
  rcases h.delete with rfl | ⟨-, e, he⟩
  · exact fun hkey => (Bucket.has_remove.mp hkey).1 rfl
  · cases he

/-- A HEAD that was answered found something. -/
theorem Faulty.has_of_head {n : Nat} (h : Faulty provider (.head key) b (.ok n) b') :
    b.Has key := by
  obtain ⟨o, ho, -⟩ := h.head.2 n rfl
  rw [Bucket.Has, ho]
  rfl

/-- The clock does not go back. -/
theorem Faulty.clock_le {answer : Resp r} (h : Faulty provider r b answer b') :
    b.clock ≤ b'.clock := by
  have hread : b' = b → b.clock ≤ b'.clock := fun heq => heq ▸ le_refl _
  have hanswers : ∀ answer : Resp r, Answers provider r b answer b' → b.clock ≤ b'.clock := by
    intro answer h
    cases r with
    | head key => exact hread h.2
    | put key body =>
        obtain ⟨-, time, hle, rfl⟩ := h
        exact hle
    | copy source target =>
        simp only [Answers] at h
        split at h
        · obtain ⟨-, time, hle, rfl⟩ := h
          exact hle
        · exact hread h.2
    | getRange key start length => exact hread h.2
    | delete key =>
        obtain ⟨-, rfl⟩ := h
        exact le_refl _
    | page under after => exact hread h.2
    | furtherPages => exact h.elim
    | now =>
        obtain ⟨hle, rfl⟩ := h
        exact hle
    | unordered count => exact hread h.2
  rcases h with h | ⟨-, h | ⟨answer', h⟩⟩
  · exact hanswers answer h
  · exact hread h
  · exact hanswers answer' h

end Faulty

/-! ## Rules for the operations -/

section Rules

open Program (Stable Triple)

variable {S : Type} {exec : Semantics Req Resp S} {R G : S → S → Prop} {E : S → Prop} {s : S}

theorem head_under {P : S → Prop} {Q : Nat → S → Prop} (hP : Stable R P)
    (hQ : ∀ n, Stable R (Q n)) (hE : Stable R E) (hs : P s)
    (hstep : Triple exec G P (.head key) (Fallible.Ends Q E)) :
    (head key).Under exec R G Q E s :=
  Fallible.Under.ask hP hs hQ hE hstep

theorem found_under {P : S → Prop} {Q : Bool → S → Prop} (hP : Stable R P)
    (hQ : ∀ answer, Stable R (Q answer)) (hs : P s)
    (hstep : Triple exec G P (.head key) fun answer => Q answer.toBool) :
    (found key).Under exec R G Q E s := by
  refine Fallible.Under.attempt (head_under hP (fun n => Fallible.Under.stable)
    (fun s₁ s₂ hR h e => Fallible.Under.stable s₁ s₂ hR (h e)) hs ?_)
  intro s₁ answer s₂ hs₁ hexec
  obtain ⟨hG, hpost⟩ := hstep s₁ answer s₂ hs₁ hexec
  refine ⟨hG, ?_⟩
  cases answer with
  | ok n => exact Fallible.Under.pure (hQ true) hpost
  | error e => exact fun _ => Fallible.Under.pure (hQ false) hpost

theorem put_under {P Q : S → Prop} {body : Bytes} (hP : Stable R P) (hQ : Stable R Q)
    (hE : Stable R E) (hs : P s)
    (hstep : Triple exec G P (.put key body) (Fallible.Ends (fun _ => Q) E)) :
    (put key body).Under exec R G (fun _ => Q) E s :=
  Fallible.Under.ask hP hs (fun _ => hQ) hE hstep

theorem delete_under {keys : Keyspace} {P Q : S → Prop} (hP : Stable R P) (hQ : Stable R Q)
    (hE : Stable R E) (hs : P s)
    (hhead : Triple exec G P (.head key) fun _ => P)
    (hdelete : Triple exec G P (.delete key) (Fallible.Ends (fun _ => Q) E)) :
    (keys.delete key).Under exec R G (fun _ => Q) E s := by
  have hask : ∀ s', P s' →
      (Fallible.ask (.delete key) rfl : Op Bool).Under exec R G (fun _ => Q) E s' :=
    fun s' hs' => Fallible.Under.ask hP hs' (fun _ => hQ) hE hdelete
  rw [delete]
  cases keys.provider with
  | s3 =>
      refine Fallible.Under.bind hE ?_
      refine found_under hP (fun _ => Fallible.Under.stable) hs fun s₁ answer s₂ hs₁ hexec => ?_
      obtain ⟨hG, hs₂⟩ := hhead s₁ answer s₂ hs₁ hexec
      refine ⟨hG, Fallible.Under.bind hE ((hask s₂ hs₂).mono ?_ fun _ h => h)⟩
      exact fun _ s' hs' => Fallible.Under.pure hQ hs'
  | azure => exact hask s hs
  | gcs => exact hask s hs

/-! ### Listings -/

/-- There is nothing under a key. -/
def Absent {L : Type} (key : Text) (s : Bucket × L) : Prop := ¬ s.1.Has key

/-- The facts of a listing: `A` of every key it did not return, `B` of every entry
it did. -/
structure Listed (under : Text) (after : Option Text) (A : Text → Prop) (B : Entry → Prop)
    (entries : List Entry) : Prop where
  absent : ∀ key, under <+: key → (∀ a ∈ after, a < key) → key ∉ entries.map Entry.key → A key
  present : ∀ e ∈ entries, B e
  starts : ∀ e ∈ entries, under <+: e.key
  later : ∀ e ∈ entries, ∀ a ∈ after, a < e.key
  sorted : (entries.map Entry.key).Pairwise (· < ·)

theorem Listed.mono {under : Text} {after : Option Text} {A A' : Text → Prop}
    {B B' : Entry → Prop} {entries : List Entry} (h : Listed under after A B entries)
    (hA : ∀ key, A key → A' key) (hB : ∀ e, B e → B' e) : Listed under after A' B' entries where
  absent key h₁ h₂ h₃ := hA key (h.absent key h₁ h₂ h₃)
  present e he := hB e (h.present e he)
  starts := h.starts
  later := h.later
  sorted := h.sorted

theorem Listed.stable {under : Text} {after : Option Text} {A : Text → S → Prop}
    {B : Entry → S → Prop} {entries : List Entry} (hA : ∀ key, Stable R (A key))
    (hB : ∀ e, Stable R (B e)) :
    Stable R fun s => Listed under after (A · s) (B · s) entries :=
  fun s s' hR h => h.mono (fun key => hA key s s' hR) (fun e => hB e s s' hR)

/-- A page that is the last. -/
theorem Page.listed {b : Bucket} {under : Text} {after : Option Text} {entries : List Entry}
    {A : Text → Prop} {B : Entry → Prop} (h : Page b under after entries none)
    (hA : ∀ key, under <+: key → ¬ b.Has key → A key) (hB : ∀ e ∈ entries, B e) :
    Listed under after A B entries where
  absent key hunder hafter hkey :=
    hA key hunder fun hhas => hkey (h.covers key hhas hunder hafter (by simp))
  present := hB
  starts := h.starts
  later := h.later
  sorted := h.sorted

/-- A page and the listing of what comes after it. -/
theorem Page.listed_append {b : Bucket} {under token : Text} {after : Option Text}
    {entries rest : List Entry} {A : Text → Prop} {B : Entry → Prop}
    (h : Page b under after entries (some token))
    (hA : ∀ key, under <+: key → ¬ b.Has key → A key)
    (hB : ∀ e ∈ entries, B e) (hrest : Listed under (some token) A B rest) :
    Listed under after A B (entries ++ rest) := by
  have htoken := h.token token rfl
  obtain ⟨last, hlast, hkey⟩ := List.mem_map.mp htoken.1
  have hafter : ∀ a ∈ after, a < token := by
    intro a ha
    rw [← hkey]
    exact h.later last hlast a ha
  refine ⟨?_, ?_, ?_, ?_, ?_⟩
  · intro key hunder hlater hnot
    rw [List.map_append, List.mem_append, not_or] at hnot
    rcases le_or_gt key token with hle | hgt
    · refine hA key hunder fun hhas => hnot.1 (h.covers key hhas hunder hlater ?_)
      intro n hn
      cases hn
      exact hle
    · refine hrest.absent key hunder ?_ hnot.2
      intro a ha
      cases ha
      exact hgt
  · intro e he
    rcases List.mem_append.mp he with he | he
    · exact hB e he
    · exact hrest.present e he
  · intro e he
    rcases List.mem_append.mp he with he | he
    · exact h.starts e he
    · exact hrest.starts e he
  · intro e he a ha
    rcases List.mem_append.mp he with he | he
    · exact h.later e he a ha
    · exact lt_trans (hafter a ha) (hrest.later e he token rfl)
  · rw [List.map_append, List.pairwise_append]
    refine ⟨h.sorted, hrest.sorted, ?_⟩
    intro k hk k' hk'
    obtain ⟨e, he, rfl⟩ := List.mem_map.mp hk
    obtain ⟨e', he', rfl⟩ := List.mem_map.mp hk'
    exact lt_of_le_of_lt (htoken.2 e he) (hrest.later e' he' token rfl)

section Entries

variable {P : S → Prop} {A : Text → S → Prop} {B : Entry → S → Prop} {under : Text}

/-- What is asked of a page: it keeps `P` and gives the facts of its keys. -/
def Pages (exec : Semantics Req Resp S) (G : S → S → Prop) (E P : S → Prop)
    (A : Text → S → Prop) (B : Entry → S → Prop) (under : Text) : Prop :=
  ∀ after, Triple exec G P (.page under after)
    (Fallible.Ends (fun page s' => P s' ∧ ∃ b, Page b under after page.1 page.2 ∧
      (∀ key, under <+: key → ¬ b.Has key → A key s') ∧ ∀ e ∈ page.1, B e s') E)

/-- What is asked of the pages after the first: they keep the facts there are. -/
def Later (exec : Semantics Req Resp S) (A : Text → S → Prop) (B : Entry → S → Prop)
    (under : Text) : Prop :=
  ∀ token s₁ answer s₂, exec (.page under (some token)) s₁ answer s₂ →
    (∀ key, A key s₁ → A key s₂) ∧ ∀ e, B e s₁ → B e s₂

/-- The rule for the pages from `after` on, with facts `F` of the pages before. -/
theorem entriesFrom_under (hP : Stable R P) (hA : ∀ key, Stable R (A key))
    (hB : ∀ e, Stable R (B e)) (hE : Stable R E) (hpage : Pages exec G E P A B under)
    (hlater : Later exec A B under) (hend : ∀ s₁ answer s₂, ¬ exec .furtherPages s₁ answer s₂)
    (pages : Nat) {after : Option Text} {F : S → Prop} (hF : Stable R F)
    (hafter : ∀ s₁ answer s₂, exec (.page under after) s₁ answer s₂ → F s₁ → F s₂)
    (htokens : ∀ token s₁ answer s₂, exec (.page under (some token)) s₁ answer s₂ → F s₁ → F s₂)
    (hs : P s) (hFs : F s) :
    (entriesFrom pages under after).Under exec R G
      (fun entries s' => P s' ∧ F s' ∧ Listed under after (A · s') (B · s') entries) E s := by
  induction pages generalizing after F s with
  | zero =>
      refine Program.Under.request hP hs fun s₁ answer s₂ _ hexec => ?_
      exact absurd hexec (hend s₁ answer s₂)
  | succ pages ih =>
      refine Fallible.Under.bind hE (Fallible.Under.ask (hP.and hF) ⟨hs, hFs⟩
        (fun _ => Fallible.Under.stable) hE fun s₁ answer s₂ hs₁ hexec => ?_)
      obtain ⟨hG, hends⟩ := hpage after s₁ answer s₂ hs₁.1 hexec
      have hFs₂ := hafter s₁ answer s₂ hexec hs₁.2
      refine ⟨hG, ?_⟩
      cases answer with
      | error e => exact hends
      | ok page =>
          obtain ⟨entries, next⟩ := page
          obtain ⟨hPs₂, b, hlisted, hAs₂, hBs₂⟩ := hends
          cases next with
          | none =>
              exact Fallible.Under.pure (hP.and (hF.and (Listed.stable hA hB)))
                ⟨hPs₂, hFs₂, hlisted.listed hAs₂ hBs₂⟩
          | some token =>
              -- The facts of this page are kept by the pages that follow.
              let F' : S → Prop := fun s' => F s' ∧
                (∀ key, under <+: key → ¬ b.Has key → A key s') ∧ ∀ e ∈ entries, B e s'
              have hF' : Stable R F' := fun s s' hR ⟨h₁, h₂, h₃⟩ =>
                ⟨hF s s' hR h₁, fun key hu hk => hA key s s' hR (h₂ key hu hk),
                  fun e he => hB e s s' hR (h₃ e he)⟩
              have htokens' : ∀ token s₁ answer s₂, exec (.page under (some token)) s₁ answer s₂ →
                  F' s₁ → F' s₂ := by
                intro token s₁ answer s₂ hexec ⟨h₁, h₂, h₃⟩
                obtain ⟨hkA, hkB⟩ := hlater token s₁ answer s₂ hexec
                exact ⟨htokens token s₁ answer s₂ hexec h₁, fun key hu hk => hkA key (h₂ key hu hk),
                  fun e he => hkB e (h₃ e he)⟩
              refine Fallible.Under.bind hE ((ih hF' (htokens' token) htokens' hPs₂
                ⟨hFs₂, hAs₂, hBs₂⟩).mono ?_ fun _ h => h)
              rintro rest s' ⟨hPs', ⟨hFs', hAs', hBs'⟩, hrest⟩
              exact Fallible.Under.pure (hP.and (hF.and (Listed.stable hA hB)))
                ⟨hPs', hFs', hlisted.listed_append hAs' hBs' hrest⟩

variable {keys : Keyspace}

theorem entries_under (hP : Stable R P) (hA : ∀ key, Stable R (A key))
    (hB : ∀ e, Stable R (B e)) (hE : Stable R E) (hpage : Pages exec G E P A B under)
    (hlater : Later exec A B under) (hend : ∀ s₁ answer s₂, ¬ exec .furtherPages s₁ answer s₂)
    (hs : P s) :
    (keys.entries under).Under exec R G
      (fun entries s' => P s' ∧ Listed under none (A · s') (B · s') entries) E s := by
  refine (entriesFrom_under hP hA hB hE hpage hlater hend keys.pages (F := fun _ => True)
    (fun _ _ _ h => h) (fun _ _ _ _ h => h) (fun _ _ _ _ _ h => h) hs trivial).mono ?_ fun _ h => h
  exact fun _ _ ⟨hPs, _, hlisted⟩ => ⟨hPs, hlisted⟩

/-- The rule for a listing that says whether it finished. -/
theorem listing_under (hP : Stable R P) (hA : ∀ key, Stable R (A key))
    (hB : ∀ e, Stable R (B e)) {F : S → Prop} (hF : Stable R F)
    (hpage : Pages exec G F P A B under)
    (hlater : Later exec A B under) (hend : ∀ s₁ answer s₂, ¬ exec .furtherPages s₁ answer s₂)
    (hs : P s) :
    (keys.listing under).Under exec R G
      (fun listing s' =>
        (listing.complete = true ∧ P s' ∧ Listed under none (A · s') (B · s') listing.entries) ∨
        (listing.complete = false ∧ listing.entries = [] ∧ F s')) E s := by
  have hstable : ∀ listing : Listing, Stable R fun s' =>
      (listing.complete = true ∧ P s' ∧ Listed under none (A · s') (B · s') listing.entries) ∨
      (listing.complete = false ∧ listing.entries = [] ∧ F s') := by
    rintro listing s s' hR (⟨hc, hPs, hl⟩ | ⟨hc, hl, hEs⟩)
    · exact Or.inl ⟨hc, hP s s' hR hPs, Listed.stable hA hB s s' hR hl⟩
    · exact Or.inr ⟨hc, hl, hF s s' hR hEs⟩
  refine Fallible.Under.attempt ((entries_under hP hA hB hF hpage hlater hend hs).mono ?_ ?_)
  · rintro entries s' ⟨hPs, hlisted⟩
    exact Fallible.Under.pure (hstable _) (Or.inl ⟨rfl, hPs, hlisted⟩)
  · exact fun s' hEs _ => Fallible.Under.pure (hstable _) (Or.inr ⟨rfl, rfl, hEs⟩)

end Entries

/-- The rule for a question to the claim index: `T` if the answer is yes, and what a
listing says of the references of the others if it is no. -/
theorem claimedByAnother_under {keys : Keyspace} {ns : Namespace} {oid : Oid}
    {P T : S → Prop} {A : Text → S → Prop} (hP : Stable R P) (hT : Stable R T)
    (hA : ∀ key, Stable R (A key))
    (hpage : Pages exec G T P A (fun e s' => e.key ≠ Refs.key ns oid → T s') (Refs.keyPrefix oid))
    (hlater : Later exec A (fun e s' => e.key ≠ Refs.key ns oid → T s') (Refs.keyPrefix oid))
    (hend : ∀ s₁ answer s₂, ¬ exec .furtherPages s₁ answer s₂) (hs : P s) :
    (Refs.claimedByAnother keys ns oid).Under exec R G
      (fun claimed s' => if claimed then T s' else
        P s' ∧ ∀ ns' : Namespace, ¬ ns'.Same ns → A (Refs.key ns' oid) s') E s := by
  have hstable : ∀ claimed : Bool, Stable R fun s' => if claimed then T s' else
      P s' ∧ ∀ ns' : Namespace, ¬ ns'.Same ns → A (Refs.key ns' oid) s' := by
    intro claimed
    cases claimed with
    | true => exact hT
    | false => exact hP.and fun s s' hR h ns' hne => hA _ s s' hR (h ns' hne)
  have hB : ∀ e : Entry, Stable R fun s' => e.key ≠ Refs.key ns oid → T s' :=
    fun e s s' hR h hne => hT s s' hR (h hne)
  refine Fallible.Under.attempt (Fallible.Under.bind (fun s₁ s₂ hR h e => ?_)
    ((entries_under hP hA hB hT hpage hlater hend hs).mono ?_ ?_))
  · exact Fallible.Under.stable s₁ s₂ hR (h e)
  · rintro entries s' ⟨hPs, hlisted⟩
    refine Fallible.Under.pure Fallible.Under.stable (Fallible.Under.pure (hstable _) ?_)
    cases hclaimed : (entries.map Entry.key).any fun holder => holder != Refs.key ns oid with
    | true =>
        obtain ⟨key, hkey, hne⟩ := List.any_eq_true.mp hclaimed
        obtain ⟨e, he, rfl⟩ := List.mem_map.mp hkey
        exact hlisted.present e he (by simpa using hne)
    | false =>
        refine ⟨hPs, fun ns' hne => hlisted.absent _ ?_ (by simp) fun hmem => ?_⟩
        · exact Key.keyPrefix_text.mpr ⟨ns', rfl⟩
        · have hown := List.any_eq_false.mp hclaimed _ hmem
          rw [bne_iff_ne, ne_eq, Decidable.not_not] at hown
          exact hne (Key.reference_eq_iff.mp hown).1
  · exact fun s' hTs _ => Fallible.Under.pure (hstable true) hTs

end Rules

end Keyspace

end Lfsx.Storage
