import Mathlib.Data.List.Sort
import Lfsx.Storage.KeyspaceRules

/-!
# A store that is well, with nobody beside

`respond` answers every request as a store does that refuses nothing and whose clock
stands still, in pages of at most `most` entries.  It is one of the stores of
`Answers` (`respond_answers`), so what is computed with it is a run.

`Quiet` are all the stores of `Answers` whose clock stands still.  With nobody beside it
an operation computes the same against any of them (`Computes`), or the same but for the
order of what ran side by side (`Ensures`): a listing that is
followed for enough pages, whatever is in a page, returns everything there is, in order
(`entries_computes`).
-/

namespace Lfsx.Storage

open Request

/-- What is under some segments, in order. -/
def Bucket.listed (b : Bucket) (under : Text) : List Entry :=
  ((b.objects.entries.filter fun o => under.isPrefixOf o.1).map fun o =>
    (⟨o.1, o.2.modified, o.2.body.length⟩ : Entry)).insertionSort fun e e' => e.key ≤ e'.key

namespace Keyspace

/-- The page after `after`, and the token of the next if there is one. -/
def pageOf (most : Nat) (entries : List Entry) : List Entry × Option Text :=
  if entries.length ≤ most then (entries, none)
  else (entries.take most, ((entries.take most).getLast?).map Entry.key)

/-- The entries after `after`. -/
def laterThan (after : Option Text) (entries : List Entry) : List Entry :=
  entries.filter fun e => after.all fun a => a < e.key

def respond (provider : Provider) (most : Nat) : (r : Req) → Bucket → Resp r × Bucket
  | .head key, b =>
      (match b.find key with
        | some o => .ok o.body.length
        | none => .error .notFound, b)
  | .put key body, b => (.ok (), b.write key body b.clock)
  | .copy source target, b =>
      match b.find source with
      | some o => (.ok (), b.write target o.body b.clock)
      | none => (.error .notFound, b)
  | .getRange key start length, b =>
      (match b.find key with
        | some o => Reader.byteRange o.body start (start + (length - 1))
        | none => .error .notFound, b)
  | .delete key, b => (.ok (decide (provider = .s3 ∨ b.Has key)), b.remove key)
  | .page under after, b =>
      (.ok (pageOf most (laterThan after (b.listed under))), b)
  | .furtherPages, b => (.error (.storage "there are more pages"), b)
  | .now, b => (b.clock, b)
  | .unordered count, b => (List.range count, b)

/-! ## Listings -/

theorem mem_listed {b : Bucket} {under : Text} {e : Entry} :
    e ∈ b.listed under ↔ under <+: e.key ∧
      ∃ o, b.find e.key = some o ∧ e.modified = o.modified ∧ e.size = o.body.length := by
  rw [Bucket.listed, List.mem_insertionSort]
  simp only [List.mem_map, List.mem_filter, List.isPrefixOf_iff_prefix]
  constructor
  · rintro ⟨⟨key, o⟩, ⟨hmem, hunder⟩, rfl⟩
    exact ⟨hunder, o, AList.mem_lookup_iff.mpr hmem, rfl, rfl⟩
  · rintro ⟨hunder, o, hfind, hmodified, hsize⟩
    refine ⟨⟨e.key, o⟩, ⟨AList.mem_lookup_iff.mp hfind, hunder⟩, ?_⟩
    cases e
    cases hmodified
    cases hsize
    rfl

theorem sorted_listed (b : Bucket) (under : Text) :
    ((b.listed under).map Entry.key).Pairwise (· < ·) := by
  have hnodup : ((b.listed under).map Entry.key).Nodup := by
    have hperm : ((b.listed under).map Entry.key).Perm
        ((b.objects.entries.filter fun o => under.isPrefixOf o.1).map Sigma.fst) := by
      refine ((List.perm_insertionSort _ _).map Entry.key).trans ?_
      rw [List.map_map]
      exact .refl _
    rw [hperm.nodup_iff]
    exact b.objects.nodupKeys.sublist List.filter_sublist
  have hsorted : ((b.listed under).map Entry.key).Pairwise (· ≤ ·) :=
    List.pairwise_map.mpr (List.pairwise_insertionSort _ _)
  exact hsorted.imp₂ (fun _ _ hle hne => lt_of_le_of_ne hle hne) hnodup

theorem mem_laterThan {after : Option Text} {entries : List Entry} {e : Entry} :
    e ∈ laterThan after entries ↔ e ∈ entries ∧ ∀ a ∈ after, a < e.key := by
  rw [laterThan, List.mem_filter]
  cases after <;> simp

/-- A page and the entries after it. -/
structure Paged (entries page : List Entry) (token : Text) (rest : List Entry) : Prop where
  split : entries = page ++ rest
  among : token ∈ page.map Entry.key
  upTo : ∀ e ∈ page, e.key ≤ token
  beyond : ∀ e ∈ rest, token < e.key

/-- A page that is not the last ends in its token, and the rest is after it. -/
theorem paged_of_not_last {most : Nat} (hmost : 0 < most) {entries : List Entry}
    (hsorted : (entries.map Entry.key).Pairwise (· < ·)) (hlength : ¬ entries.length ≤ most) :
    ∃ token, pageOf most entries = (entries.take most, some token) ∧
      Paged entries (entries.take most) token (entries.drop most) := by
  have hne : entries.take most ≠ [] := by
    intro h
    have := congrArg List.length h
    rw [List.length_take, List.length_nil] at this
    omega
  have hlast : (entries.take most).getLast? = some ((entries.take most).getLast hne) :=
    List.getLast?_eq_some_getLast hne
  refine ⟨((entries.take most).getLast hne).key, ?_, ?_⟩
  · rw [pageOf, if_neg hlength, hlast]
    rfl
  have hsplit : entries = entries.take most ++ entries.drop most := (List.take_append_drop _ _).symm
  have hpage : entries.take most =
      (entries.take most).dropLast ++ [(entries.take most).getLast hne] :=
    (List.dropLast_append_getLast hne).symm
  have hpairs := hsorted
  rw [hsplit, List.map_append, List.pairwise_append] at hpairs
  refine ⟨hsplit, List.mem_map_of_mem (List.getLast_mem hne), fun e he => ?_, fun e he => ?_⟩
  · have hpairs' := hpairs.1
    rw [hpage, List.map_append, List.pairwise_append] at hpairs'
    rw [hpage, List.mem_append, List.mem_singleton] at he
    rcases he with he | rfl
    · exact le_of_lt (hpairs'.2.2 _ (List.mem_map_of_mem he) _ (by simp))
    · exact le_refl _
  · exact hpairs.2.2 _ (List.mem_map_of_mem (List.getLast_mem hne)) _ (List.mem_map_of_mem he)

theorem page_listed {most : Nat} (hmost : 0 < most) (b : Bucket) (under : Text)
    (after : Option Text) :
    Page b under after (pageOf most (laterThan after (b.listed under))).1
      (pageOf most (laterThan after (b.listed under))).2 := by
  have hmem : ∀ e, e ∈ laterThan after (b.listed under) ↔
      (under <+: e.key ∧ ∃ o, b.find e.key = some o ∧ e.modified = o.modified ∧
        e.size = o.body.length) ∧ ∀ a ∈ after, a < e.key := by
    intro e
    rw [mem_laterThan, mem_listed]
  have hsorted : ((laterThan after (b.listed under)).map Entry.key).Pairwise (· < ·) :=
    (sorted_listed b under).sublist (List.filter_sublist.map _)
  have hcovers : ∀ key, b.Has key → under <+: key → (∀ a ∈ after, a < key) →
      ∃ e ∈ laterThan after (b.listed under), e.key = key := by
    intro key hhas hunder hafter
    obtain ⟨o, ho⟩ := Option.isSome_iff_exists.mp hhas
    exact ⟨⟨key, o.modified, o.body.length⟩, (hmem _).mpr ⟨⟨hunder, o, ho, rfl, rfl⟩, hafter⟩, rfl⟩
  by_cases hlength : (laterThan after (b.listed under)).length ≤ most
  · rw [pageOf, if_pos hlength]
    refine ⟨fun e he => ((hmem e).mp he).1.2, fun e he => ((hmem e).mp he).1.1,
      fun e he => ((hmem e).mp he).2, hsorted, fun key hhas hunder hafter _ => ?_, by simp⟩
    obtain ⟨e, he, rfl⟩ := hcovers key hhas hunder hafter
    exact List.mem_map_of_mem he
  · obtain ⟨token, hpage, hpaged⟩ := paged_of_not_last hmost hsorted hlength
    rw [hpage]
    have hsub : ∀ e ∈ (laterThan after (b.listed under)).take most,
        e ∈ laterThan after (b.listed under) := fun e he => List.mem_of_mem_take he
    refine ⟨fun e he => ((hmem e).mp (hsub e he)).1.2,
      fun e he => ((hmem e).mp (hsub e he)).1.1, fun e he => ((hmem e).mp (hsub e he)).2,
      hsorted.sublist ((List.take_sublist _ _).map _),
      fun key hhas hunder hafter htoken => ?_, fun n hn => ?_⟩
    · obtain ⟨e, he, rfl⟩ := hcovers key hhas hunder hafter
      rw [hpaged.split, List.mem_append] at he
      rcases he with he | he
      · exact List.mem_map_of_mem he
      · exact absurd (hpaged.beyond e he) (not_lt_of_ge (htoken token rfl))
    · cases hn
      exact ⟨hpaged.among, hpaged.upTo⟩

/-- **The store that answers at once is a store that is well.** -/
theorem respond_answers {provider : Provider} {most : Nat} (hmost : 0 < most) (r : Req)
    (hr : r ≠ .furtherPages) (b : Bucket) :
    Answers provider r b (respond provider most r b).1 (respond provider most r b).2 := by
  cases r with
  | head key => exact ⟨rfl, rfl⟩
  | put key body => exact ⟨rfl, b.clock, le_refl _, rfl⟩
  | copy source target =>
      simp only [Answers, respond]
      cases b.find source with
      | none => exact ⟨⟨_, rfl⟩, rfl⟩
      | some o => exact ⟨rfl, b.clock, le_refl _, rfl⟩
  | getRange key start length => exact ⟨rfl, rfl⟩
  | delete key => exact ⟨rfl, rfl⟩
  | page under after => exact ⟨⟨_, _, rfl, page_listed hmost b under after⟩, rfl⟩
  | furtherPages => exact absurd rfl hr
  | now => exact ⟨le_refl _, rfl⟩
  | unordered count => exact ⟨.refl _, rfl⟩

/-! ## Operations -/

/-- Two listings in order are the same if they hold the same entries. -/
theorem eq_of_sorted {entries entries' : List Entry}
    (h : (entries.map Entry.key).Pairwise (· < ·))
    (h' : (entries'.map Entry.key).Pairwise (· < ·))
    (hmem : ∀ e, e ∈ entries ↔ e ∈ entries') : entries = entries' := by
  rw [List.pairwise_map] at h h'
  have hne : ∀ {e e' : Entry}, e.key < e'.key → e ≠ e' :=
    fun hlt heq => ne_of_lt hlt (congrArg Entry.key heq)
  have hperm : entries.Perm entries' :=
    (List.perm_ext_iff_of_nodup (h.imp hne) (h'.imp hne)).mpr hmem
  exact hperm.eq_of_pairwise (fun _ _ _ _ hlt hgt => absurd hlt (lt_asymm hgt)) h h'

theorem sorted_laterThan (b : Bucket) (under : Text) (after : Option Text) :
    ((laterThan after (b.listed under)).map Entry.key).Pairwise (· < ·) :=
  (sorted_listed b under).sublist (List.filter_sublist.map _)

/-- What is under some segments is what is under them of everything. -/
theorem listed_eq_filter (b : Bucket) (under : Text) :
    b.listed under = (b.listed []).filter fun e => under.isPrefixOf e.key := by
  refine eq_of_sorted (sorted_listed b under)
    ((sorted_listed b []).sublist (List.filter_sublist.map _)) fun e => ?_
  rw [List.mem_filter, mem_listed, mem_listed, List.isPrefixOf_iff_prefix]
  exact ⟨fun h => ⟨⟨List.nil_prefix, h.2⟩, h.1⟩, fun h => ⟨h.2, h.1.2⟩⟩

/-- What a page holds: every entry up to its token. -/
theorem Page.mem_iff {b : Bucket} {under : Text} {after next : Option Text}
    {entries : List Entry} (h : Page b under after entries next) (e : Entry) :
    e ∈ entries ↔ e ∈ laterThan after (b.listed under) ∧ ∀ n ∈ next, e.key ≤ n := by
  rw [mem_laterThan, mem_listed]
  constructor
  · intro he
    exact ⟨⟨⟨h.starts e he, h.stored e he⟩, h.later e he⟩, fun n hn => (h.token n hn).2 e he⟩
  · rintro ⟨⟨⟨hunder, o, hfind, hmodified, hsize⟩, hafter⟩, hnext⟩
    have hhas : b.Has e.key := by
      rw [Bucket.Has, hfind]
      rfl
    obtain ⟨e', he', hkey⟩ := List.mem_map.mp (h.covers e.key hhas hunder hafter hnext)
    obtain ⟨o', hfind', hmodified', hsize'⟩ := h.stored e' he'
    rw [hkey, hfind, Option.some.injEq] at hfind'
    subst hfind'
    have heq : e' = e := by
      cases e
      cases e'
      simp_all
    rwa [← heq]

/-- The last page is all there is. -/
theorem Page.eq_of_last {b : Bucket} {under : Text} {after : Option Text}
    {entries : List Entry} (h : Page b under after entries none) :
    entries = laterThan after (b.listed under) :=
  eq_of_sorted h.sorted (sorted_laterThan b under after) fun e => by simp [h.mem_iff e]

/-- A page before the last, and what comes after it. -/
theorem Page.append_eq {b : Bucket} {under token : Text} {after : Option Text}
    {entries : List Entry} (h : Page b under after entries (some token)) :
    laterThan after (b.listed under) = entries ++ laterThan (some token) (b.listed under) := by
  obtain ⟨hamong, hupTo⟩ := h.token token rfl
  obtain ⟨last, hlast, hkey⟩ := List.mem_map.mp hamong
  have hafter : ∀ a ∈ after, a < token := by
    intro a ha
    rw [← hkey]
    exact h.later last hlast a ha
  refine eq_of_sorted (sorted_laterThan b under after) ?_ fun e => ?_
  · rw [List.map_append, List.pairwise_append]
    refine ⟨h.sorted, sorted_laterThan b under _, fun k hk k' hk' => ?_⟩
    obtain ⟨e, he, rfl⟩ := List.mem_map.mp hk
    obtain ⟨e', he', rfl⟩ := List.mem_map.mp hk'
    exact lt_of_le_of_lt (hupTo e he) ((mem_laterThan.mp he').2 token rfl)
  · rw [List.mem_append, h.mem_iff e, mem_laterThan, mem_laterThan]
    constructor
    · rintro ⟨hlisted, hlater⟩
      rcases le_or_gt e.key token with hle | hlt
      · exact .inl ⟨⟨hlisted, hlater⟩, by simpa using hle⟩
      · exact .inr ⟨hlisted, by simpa using hlt⟩
    · rintro (⟨h, -⟩ | ⟨hlisted, hlt⟩)
      · exact h
      · exact ⟨hlisted, fun a ha => lt_trans (hafter a ha) (hlt token rfl)⟩

/-- A store that is well and whose clock stands still.  Besides the bucket it may keep
whatever it likes, and answer as that tells it: what is in a page, say. -/
structure Quiet {σ : Type} (provider : Provider)
    (handle : (r : Req) → Bucket × σ → Resp r × (Bucket × σ)) : Prop where
  answers : ∀ r s, r ≠ .furtherPages → Answers provider r s.1 (handle r s).1 (handle r s).2.1
  clock : ∀ r s, r ≠ .furtherPages → (handle r s).2.1.clock = s.1.clock

/-- `op` returns `a` and leaves `b'`, whatever else the store keeps. -/
def Computes {σ α : Type} (handle : (r : Req) → Bucket × σ → Resp r × (Bucket × σ)) (op : Op α)
    (b : Bucket) (a : α) (b' : Bucket) : Prop :=
  ∀ t, ∃ t', op.Returns handle (b, t) a (b', t')

/-- `op` returns and what it leaves is in `Q`, whatever else the store keeps. -/
def Ensures {σ α : Type} (handle : (r : Req) → Bucket × σ → Resp r × (Bucket × σ)) (op : Op α)
    (b : Bucket) (Q : α → Bucket → Prop) : Prop :=
  ∀ t, ∃ a b' t', op.Returns handle (b, t) a (b', t') ∧ Q a b'

section Computes

variable {σ α β : Type} {provider : Provider}
  {handle : (r : Req) → Bucket × σ → Resp r × (Bucket × σ)} {b b' b'' : Bucket}

theorem Computes.pure {a : α} : Computes handle (Pure.pure a : Op α) b a b :=
  fun t => ⟨t, Fallible.Returns.pure⟩

theorem Computes.bind {a : α} {c : β} {op : Op α} {f : α → Op β} (h : Computes handle op b a b')
    (hf : Computes handle (f a) b' c b'') : Computes handle (op >>= f) b c b'' := by
  intro t
  obtain ⟨t', ht'⟩ := h t
  obtain ⟨t'', ht''⟩ := hf t'
  exact ⟨t'', ht'.bind ht''⟩

theorem Computes.attempt {a : α} {c : β} {op : Op α} {f : Except Error α → Op β}
    (h : Computes handle op b a b') (hf : Computes handle (f (.ok a)) b' c b'') :
    Computes handle (op.attempt >>= f) b c b'' := by
  intro t
  obtain ⟨t', ht'⟩ := h t
  obtain ⟨t'', ht''⟩ := hf t'
  exact ⟨t'', Fallible.Returns.attempt ht' ht''⟩

theorem Computes.ensures {a : α} {op : Op α} {Q : α → Bucket → Prop}
    (h : Computes handle op b a b') (hQ : Q a b') : Ensures handle op b Q := by
  intro t
  obtain ⟨t', ht'⟩ := h t
  exact ⟨a, b', t', ht', hQ⟩

theorem Ensures.bind {op : Op α} {f : α → Op β} {P : α → Bucket → Prop} {Q : β → Bucket → Prop}
    (h : Ensures handle op b P) (hf : ∀ a b', P a b' → Ensures handle (f a) b' Q) :
    Ensures handle (op >>= f) b Q := by
  intro t
  obtain ⟨a, b', t', ht', hP⟩ := h t
  obtain ⟨c, b'', t'', ht'', hQ⟩ := hf a b' hP t'
  exact ⟨c, b'', t'', ht'.bind ht'', hQ⟩

theorem Ensures.attempt {op : Op α} {f : Except Error α → Op β} {P : α → Bucket → Prop}
    {Q : β → Bucket → Prop} (h : Ensures handle op b P)
    (hf : ∀ a b', P a b' → Ensures handle (f (.ok a)) b' Q) :
    Ensures handle (op.attempt >>= f) b Q := by
  intro t
  obtain ⟨a, b', t', ht', hP⟩ := h t
  obtain ⟨c, b'', t'', ht'', hQ⟩ := hf a b' hP t'
  exact ⟨c, b'', t'', Fallible.Returns.attempt ht' ht'', hQ⟩

variable (hquiet : Quiet provider handle)
include hquiet

theorem head_computes {c : β} {key : Text} {f : Except Error Nat → Op β}
    (hf : Computes handle (f (match b.find key with
      | some o => .ok o.body.length
      | none => .error .notFound)) b c b') : Computes handle ((head key).attempt >>= f) b c b' := by
  intro t
  obtain ⟨hanswer, hbucket⟩ := hquiet.answers (.head key) (b, t) nofun
  obtain ⟨t', ht'⟩ := hf (handle (.head key) (b, t)).2.2
  refine ⟨t', Fallible.Returns.attempt ?_ ht'⟩
  rw [head, Fallible.ask, ExceptT.run_mk, Program.eval, Program.eval_pure, cast_eq, hanswer]
  exact Prod.ext rfl (Prod.ext hbucket rfl)

theorem found_computes {key : Text} : Computes handle (found key) b (decide (b.Has key)) b := by
  have hhas : decide (b.Has key) = (b.find key).isSome := by
    rw [Bool.eq_iff_iff, decide_eq_true_eq]
    rfl
  refine head_computes hquiet ?_
  rw [hhas]
  cases b.find key <;> exact .pure

theorem put_computes {key : Text} {body : Bytes} :
    Computes handle (put key body) b () (b.write key body b.clock) := by
  intro t
  obtain ⟨hanswer, time, -, hbucket⟩ := hquiet.answers (.put key body) (b, t) nofun
  have hclock := hquiet.clock (.put key body) (b, t) nofun
  rw [hbucket] at hclock
  change time = b.clock at hclock
  subst hclock
  exact ⟨_, Fallible.Returns.ask (Prod.ext hanswer (Prod.ext hbucket rfl))⟩

theorem now_computes : Computes handle (Fallible.certain Req.now : Op Nat) b b.clock b := by
  intro t
  obtain ⟨-, hbucket⟩ := hquiet.answers .now (b, t) nofun
  have hclock := hquiet.clock .now (b, t) nofun
  rw [hbucket] at hclock
  change (handle .now (b, t)).1 = b.clock at hclock
  refine ⟨_, Fallible.Returns.certain (Prod.ext hclock (Prod.ext ?_ rfl))⟩
  rw [hbucket, hclock]
  rfl

theorem unordered_ensures {count : Nat} :
    Ensures handle (Fallible.certain (Req.unordered count) : Op (List Nat)) b
      fun order b' => order.Perm (List.range count) ∧ b' = b := by
  intro t
  obtain ⟨hperm, hbucket⟩ := hquiet.answers (.unordered count) (b, t) nofun
  exact ⟨_, _, _, Fallible.Returns.certain rfl, hperm, hbucket⟩

theorem delete_computes {keys : Keyspace} {key : Text} (hkeys : keys.provider = provider) :
    Computes handle (keys.delete key) b (decide (b.Has key)) (b.remove key) := by
  have hask : Computes handle (Fallible.ask (.delete key) rfl : Op Bool) b
      (decide (provider = .s3 ∨ b.Has key)) (b.remove key) := by
    intro t
    obtain ⟨hanswer, hbucket⟩ := hquiet.answers (.delete key) (b, t) nofun
    exact ⟨_, Fallible.Returns.ask (Prod.ext hanswer (Prod.ext hbucket rfl))⟩
  rw [delete, hkeys]
  cases provider with
  | s3 => exact (found_computes hquiet).bind (hask.bind .pure)
  | azure => simpa using hask
  | gcs => simpa using hask

/-- The pages from `after` on are everything after `after`, if they are followed for long
enough. -/
theorem entriesFrom_computes (under : Text) (pages : Nat) (after : Option Text)
    (hpages : (laterThan after (b.listed under)).length < pages) :
    Computes handle (entriesFrom pages under after) b (laterThan after (b.listed under)) b := by
  induction pages generalizing after with
  | zero => cases hpages
  | succ pages ih =>
      intro t
      obtain ⟨⟨entries, next, hanswer, hpage⟩, hbucket⟩ :=
        hquiet.answers (.page under after) (b, t) nofun
      have hask : (Fallible.ask (.page under after) rfl : Op _).Returns handle (b, t)
          (entries, next) (b, (handle (.page under after) (b, t)).2.2) :=
        Fallible.Returns.ask (Prod.ext hanswer (Prod.ext hbucket rfl))
      cases next with
      | none =>
          rw [← hpage.eq_of_last]
          exact ⟨_, hask.bind Fallible.Returns.pure⟩
      | some token =>
          have happend : laterThan after (b.listed under) =
              entries ++ laterThan (some token) (b.listed under) := hpage.append_eq
          have hne : entries ≠ [] := by
            rintro rfl
            exact absurd (hpage.token token rfl).1 (by simp)
          have hshorter : (laterThan (some token) (b.listed under)).length < pages := by
            have hlength := congrArg List.length happend
            have hpos := List.length_pos_of_ne_nil hne
            rw [List.length_append] at hlength
            omega
          obtain ⟨t', ht'⟩ := ih (some token) hshorter (handle (.page under after) (b, t)).2.2
          rw [happend]
          exact ⟨t', hask.bind (ht'.bind Fallible.Returns.pure)⟩

/-- **A listing returns everything**, if it is followed for enough pages. -/
theorem entries_computes {keys : Keyspace} (under : Text)
    (hpages : b.objects.entries.length < keys.pages) :
    Computes handle (keys.entries under) b (b.listed under) b := by
  have hall : laterThan none (b.listed under) = b.listed under := by
    rw [laterThan, List.filter_eq_self]
    simp
  have hlength : (b.listed under).length ≤ b.objects.entries.length := by
    rw [Bucket.listed, List.length_insertionSort, List.length_map]
    exact List.length_filter_le _ _
  have hfew : (laterThan none (b.listed under)).length < keys.pages := by
    rw [hall]
    omega
  have hfrom := entriesFrom_computes hquiet under keys.pages none hfew
  rwa [hall] at hfrom

theorem listing_computes {keys : Keyspace} (under : Text)
    (hpages : b.objects.entries.length < keys.pages) :
    Computes handle (keys.listing under) b ⟨b.listed under, true⟩ b :=
  (entries_computes hquiet under hpages).attempt .pure

end Computes

/-- The store that answers at once, in pages of `most`. -/
def respondAlone (provider : Provider) (most : Nat) (r : Req) (s : Bucket × Unit) :
    Resp r × (Bucket × Unit) :=
  ((respond provider most r s.1).1, (respond provider most r s.1).2, ())

theorem respondAlone_quiet {provider : Provider} {most : Nat} (hmost : 0 < most) :
    Quiet provider (respondAlone provider most) where
  answers r s hr := respond_answers hmost r hr s.1
  clock r s hr := by
    cases r with
    | copy source target =>
        simp only [respondAlone, respond]
        cases s.1.find source <;> rfl
    | furtherPages => exact absurd rfl hr
    | _ => rfl

/-! ## Schedules -/

section Schedules

variable {ι : Type} {provider : Provider} {calm : ι → Req → Bucket × Log ι Req Resp → Bool}

/-- The store, for a schedule: it goes on while the requests are `calm`. -/
def answering (provider : Provider) (calm : ι → Req → Bucket × Log ι Req Resp → Bool) (i : ι)
    (r : Req) (s : Bucket × Log ι Req Resp) : Option (Resp r × (Bucket × Log ι Req Resp)) :=
  if calm i r s && decide (r ≠ .furtherPages) then
    let answered := respond provider 1000 r s.1
    some (answered.1, (answered.2, ⟨i, r, answered.1⟩ :: s.2))
  else none

/-- A schedule that can be played is a run of a store that is well, as long as calm
requests meet what is asked of the runs. -/
theorem answering_exec {meets : ι → Req → Bucket × Log ι Req Resp → Prop}
    (hcalm : ∀ i r s, calm i r s = true → meets i r s) :
    ∀ i r s answered, answering provider calm i r s = some answered →
      restricted meets (recording fun _ => Answers provider) i r s answered.1 answered.2 := by
  intro i r s answered h
  rw [answering] at h
  split at h
  case isFalse => cases h
  case isTrue hgo =>
    rw [Bool.and_eq_true, decide_eq_true_eq] at hgo
    cases h
    exact ⟨hcalm i r s hgo.1, respond_answers (by decide) r hgo.2 s.1, rfl⟩

/-- The store on the bucket alone, for a schedule. -/
def plays (provider : Provider) (r : Req) (b : Bucket) : Option (Resp r × Bucket) :=
  if r ≠ .furtherPages then some (respond provider 1000 r b) else none

theorem plays_answers {r : Req} {b : Bucket} {answered : Resp r × Bucket}
    (h : plays provider r b = some answered) : Answers provider r b answered.1 answered.2 := by
  obtain ⟨hr, h⟩ := Option.ite_none_right_eq_some.mp h
  cases h
  exact respond_answers (by decide) r hr b

theorem plays_faulty {r : Req} {b : Bucket} {answered : Resp r × Bucket}
    (h : plays provider r b = some answered) : Faulty provider r b answered.1 answered.2 :=
  Faulty.of_answers (plays_answers h)

/-- The refusal of a request that can be refused. -/
def refused : (r : Req) → Option (Resp r)
  | .head _ => some (.error (.storage "unavailable"))
  | .put _ _ => some (.error (.storage "unavailable"))
  | .copy _ _ => some (.error (.storage "unavailable"))
  | .getRange _ _ _ => some (.error (.storage "unavailable"))
  | .delete _ => some (.error (.storage "unavailable"))
  | .page _ _ => some (.error (.storage "unavailable"))
  | .furtherPages => none
  | .now => none
  | .unordered _ => none

theorem refusal_of_refused {r : Req} {answer : Resp r} (h : refused r = some answer) :
    Refusal r answer := by
  cases r <;> cases h <;> exact ⟨_, rfl⟩

/-- The store for a schedule that refuses some requests: which are refused before they take
effect, and which after, goes by how many there were. -/
def failing (provider : Provider) (before after : List Nat) (r : Req)
    (s : Bucket × Log Unit Req Resp) : Option (Resp r × (Bucket × Log Unit Req Resp)) :=
  if before.contains s.2.length then
    (refused r).map fun answer => (answer, (s.1, ⟨(), r, answer⟩ :: s.2))
  else (plays provider r s.1).bind fun answered =>
    if after.contains s.2.length then
      (refused r).map fun answer => (answer, (answered.2, ⟨(), r, answer⟩ :: s.2))
    else some (answered.1, (answered.2, ⟨(), r, answered.1⟩ :: s.2))

theorem failing_exec {before after : List Nat} (r : Req) (s : Bucket × Log Unit Req Resp)
    (answered : Resp r × (Bucket × Log Unit Req Resp))
    (h : failing provider before after r s = some answered) :
    recording (fun _ => Faulty provider) () r s answered.1 answered.2 := by
  rw [failing] at h
  split at h
  · obtain ⟨answer, hrefused, rfl⟩ := Option.map_eq_some_iff.mp h
    exact ⟨.inr ⟨refusal_of_refused hrefused, .inl rfl⟩, rfl⟩
  · obtain ⟨answer, hplays, h⟩ := Option.bind_eq_some_iff.mp h
    split at h
    · obtain ⟨given, hrefused, rfl⟩ := Option.map_eq_some_iff.mp h
      exact ⟨.inr ⟨refusal_of_refused hrefused, .inr ⟨answer.1, plays_answers hplays⟩⟩, rfl⟩
    · cases h
      exact ⟨plays_faulty hplays, rfl⟩

end Schedules

end Keyspace

end Lfsx.Storage
