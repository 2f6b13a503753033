import Mathlib.Data.Char
import Mathlib.Data.List.Lex
import Lfsx.Locks.Store
import Lfsx.Paging

/-!
# Pages of locks

The routes that list locks answer a page at a time.  `paginate` sorts what was listed by id and
resumes after a cursor, which is the id of the last lock a client was given.  It is the page of
`Lfsx.Paging` with an empty cursor for none (`paginate_eq`), as long as no id is empty, and so a
client that follows the cursor walks the locks as it says there (`walk_visits_once`).

A request is answered from the locks that are stored then.  What `LockStore::list` returned is
given here, in any order.
-/

namespace Lfsx.Locks

/-! ## The code -/

/-- `page::DEFAULT`. -/
def pageDefault : Nat := 100

/-- `page::MAX`. -/
def pageMax : Nat := 1000

structure Page where
  locks : List Lock
  nextCursor : Text
deriving DecidableEq

/-- `limit.unwrap_or(DEFAULT).clamp(1, MAX)`. -/
def pageLimit (limit : Option Nat) : Nat := max 1 (min (limit.getD pageDefault) pageMax)

/-- Where to resume: the first lock after the cursor. -/
def resumeAt (sorted : List Lock) : Option Text → Nat
  | some cursor => sorted.findIdx fun lock => cursor < lock.id
  | none => 0

def paginate (locks : List Lock) (cursor : Option Text) (limit : Option Nat) : Page :=
  let sorted := locks.insertionSort fun one other => one.id ≤ other.id
  let page := (sorted.drop (resumeAt sorted cursor)).take (pageLimit limit + 1)
  if pageLimit limit < page.length then
    let page := page.take (pageLimit limit)
    ⟨page, (page.getLast?.map Lock.id).getD []⟩
  else ⟨page, []⟩

structure ListLocksQuery where
  path : Option Text
  id : Option Text
  cursor : Option Text
  limit : Option Nat

/-- The filters of a query. -/
def ListLocksQuery.matching (query : ListLocksQuery) (lock : Lock) : Bool :=
  (query.path.all fun path => path == lock.path) && query.id.all fun id => id == lock.id

def listLocks (stored : List Lock) (query : ListLocksQuery) : Page :=
  paginate (stored.filter query.matching) query.cursor query.limit

structure VerifyLocksResponse where
  ours : List Lock
  theirs : List Lock
  nextCursor : Text

def verifyLocks (stored : List Lock) (cursor : Option Text) (limit : Option Nat) (caller : Actor) :
    VerifyLocksResponse :=
  let page := paginate stored cursor limit
  let split := page.locks.partition fun lock => lock.owner.is caller
  ⟨split.1, split.2, page.nextCursor⟩

/-! ## One page -/

/-- After a cursor is beyond it. -/
theorem drop_findIdx {locks : List Lock} {cursor : Text}
    (h : locks.Pairwise fun one other => one.id ≤ other.id) :
    locks.drop (locks.findIdx fun lock => cursor < lock.id) =
      locks.filter fun lock => cursor < lock.id := by
  induction locks with
  | nil => rfl
  | cons lock locks ih =>
      obtain ⟨hle, hrest⟩ := List.pairwise_cons.mp h
      by_cases hlt : cursor < lock.id
      · have hall : ∀ other ∈ locks, cursor < other.id :=
          fun other hother => lt_of_lt_of_le hlt (hle other hother)
        have hfilter : locks.filter (fun lock => cursor < lock.id) = locks :=
          List.filter_eq_self.mpr (by simpa using hall)
        simp [List.findIdx_cons, hlt, hfilter]
      · simp [List.findIdx_cons, hlt, ih hrest]

/-- A page as the code has it: an empty cursor is none. -/
def ofPage (p : Paging.Page Lock Text) : Page := ⟨p.items, p.next.getD []⟩

/-- **The page of the code is the page.** -/
theorem paginate_eq (locks : List Lock) (cursor : Option Text) (limit : Option Nat) :
    paginate locks cursor limit =
      ofPage (Paging.page Lock.id locks cursor (pageLimit limit)) := by
  have hsorted : (locks.insertionSort fun one other => one.id ≤ other.id).Pairwise
      fun one other => one.id ≤ other.id := List.pairwise_insertionSort _ locks
  have hrest : (locks.insertionSort fun one other => one.id ≤ other.id).drop
      (resumeAt (locks.insertionSort fun one other => one.id ≤ other.id) cursor) =
        Paging.rest Lock.id locks cursor := by
    rw [Paging.rest, Paging.ordered]
    cases cursor with
    | none => simp [resumeAt]
    | some cursor => simpa [resumeAt] using drop_findIdx hsorted
  rw [paginate, hrest, Paging.page]
  by_cases hlength : (Paging.rest Lock.id locks cursor).length ≤ pageLimit limit
  · have htake : (Paging.rest Lock.id locks cursor).take (pageLimit limit + 1) =
        Paging.rest Lock.id locks cursor := List.take_of_length_le (by omega)
    rw [htake, if_neg (by omega), if_pos hlength]
    rfl
  · have htake : ((Paging.rest Lock.id locks cursor).take (pageLimit limit + 1)).length =
        pageLimit limit + 1 := by
      rw [List.length_take]
      omega
    rw [htake, if_pos (by omega), if_neg hlength, List.take_take, min_eq_left (by omega)]
    rfl

/-! ## Following the cursor -/

/-- One request of a walk: the locks stored then, and the limit it gives. -/
abbrev Asked := List Lock × Option Nat

/-- The answers to a client that follows the cursor of each, until it is empty. -/
def follow {ρ : Type} (next : ρ → Text) (ask : List Lock → Option Text → Option Nat → ρ) :
    List Asked → Option Text → List ρ
  | [], _ => []
  | (stored, limit) :: asked, cursor =>
      let answer := ask stored cursor limit
      if next answer = [] then [answer] else answer :: follow next ask asked (some (next answer))

/-- The last answer has an empty cursor. -/
def Over {ρ : Type} (next : ρ → Text) : List ρ → Prop
  | [] => False
  | [last] => next last = []
  | _ :: answers => Over next answers

instance decidableOver {ρ : Type} (next : ρ → Text) : (answers : List ρ) →
    Decidable (Over next answers)
  | [] => inferInstanceAs (Decidable False)
  | [last] => inferInstanceAs (Decidable (next last = []))
  | _ :: answer :: answers => decidableOver next (answer :: answers)

/-- A walk over the locks with a path or an id. -/
def listWalk (path id : Option Text) : List Asked → List Page :=
  fun asked => follow Page.nextCursor
    (fun stored cursor limit => listLocks stored ⟨path, id, cursor, limit⟩) asked none

def verifyWalk (caller : Actor) : List Asked → List VerifyLocksResponse :=
  fun asked => follow VerifyLocksResponse.nextCursor
    (fun stored cursor limit => verifyLocks stored cursor limit caller) asked none

/-- The locks of a walk, with the filters of its query. -/
def Matches (path id : Option Text) (lock : Lock) : Bool :=
  ListLocksQuery.matching ⟨path, id, none, none⟩ lock

section Walks

variable {asked : List Asked}

/-- An answer made of another is followed as it is. -/
theorem follow_map {ρ σ : Type} {next : ρ → Text} {next' : σ → Text} {f : ρ → σ}
    {ask : List Lock → Option Text → Option Nat → ρ}
    (hnext : ∀ answer, next' (f answer) = next answer)
    (cursor : Option Text) :
    follow next' (fun stored cursor limit => f (ask stored cursor limit)) asked cursor =
      (follow next ask asked cursor).map f := by
  induction asked generalizing cursor with
  | nil => rfl
  | cons request asked ih =>
      obtain ⟨stored, limit⟩ := request
      simp only [follow, hnext]
      split
      · rfl
      · rw [ih, List.map_cons]

theorem over_map {ρ σ : Type} {next : ρ → Text} {next' : σ → Text} {f : ρ → σ}
    (hnext : ∀ answer, next' (f answer) = next answer) (answers : List ρ) :
    Over next' (answers.map f) ↔ Over next answers := by
  induction answers with
  | nil => exact Iff.rfl
  | cons answer answers ih =>
      cases answers with
      | nil => simp [Over, hnext]
      | cons _ _ => exact ih

/-- Locks with distinct ids, none of them empty. -/
def Named (asked : List Asked) : Prop :=
  ∀ request ∈ asked, (request.1.map Lock.id).Nodup ∧ ∀ lock ∈ request.1, lock.id ≠ []

/-- The requests of a walk, as the library has them. -/
def asPaging (matching : Lock → Bool) (asked : List Asked) : List (List Lock × Nat) :=
  asked.map fun request => (request.1.filter matching, pageLimit request.2)

theorem Named.askable (h : Named asked) (matching : Lock → Bool) :
    Paging.Askable Lock.id (asPaging matching asked) := by
  intro request hrequest
  obtain ⟨⟨stored, limit⟩, hmem, rfl⟩ := List.mem_map.mp hrequest
  refine ⟨(h _ hmem).1.sublist (List.filter_sublist.map _), ?_⟩
  simp [pageLimit]

/-- **A client that follows the cursor walks the locks.** -/
theorem follow_eq_walk (h : Named asked) (matching : Lock → Bool) (cursor : Option Text) :
    follow Page.nextCursor (fun stored cursor limit =>
      paginate (stored.filter matching) cursor limit)
        asked cursor =
      (Paging.walk Lock.id (asPaging matching asked) cursor).map ofPage := by
  induction asked generalizing cursor with
  | nil => rfl
  | cons request asked ih =>
      obtain ⟨stored, limit⟩ := request
      have hhead := h _ List.mem_cons_self
      have htail : Named asked := fun b hb => h b (List.mem_cons_of_mem _ hb)
      have hpage := (h.askable matching).head cursor
      simp only [asPaging, List.map_cons, follow, Paging.walk, paginate_eq]
      cases hnext :
        (Paging.page Lock.id (stored.filter matching) cursor (pageLimit limit)).next with
      | none => simp [ofPage, hnext]
      | some next =>
          -- A cursor is the id of a lock, so it is not the empty one.
          have hne : next ≠ [] := by
            obtain ⟨lock, hlock, rfl⟩ := hpage.among next hnext
            exact hhead.2 lock (List.mem_filter.mp (hpage.stored lock hlock)).1
          have hcursor : (ofPage (Paging.page Lock.id (stored.filter matching) cursor
              (pageLimit limit))).nextCursor = next := by
            simp [ofPage, hnext]
          rw [hcursor, if_neg hne, List.map_cons]
          have hrest := ih htail (some next)
          simp only [paginate_eq] at hrest
          rw [hrest]
          rfl

/-- A walk is over when its pages have ended. -/
theorem over_iff_ended {pages : List (Paging.Page Lock Text)}
    (h : ∀ page ∈ pages, ∀ next ∈ page.next, next ≠ []) :
    Over Page.nextCursor (pages.map ofPage) ↔ Paging.Ended pages := by
  induction pages with
  | nil => exact Iff.rfl
  | cons page pages ih =>
      cases pages with
      | nil =>
          cases hnext : page.next with
          | none => simp [Over, Paging.Ended, ofPage, hnext]
          | some next =>
              have hne := h page List.mem_cons_self next hnext
              simp [Over, Paging.Ended, ofPage, hnext, hne]
      | cons _ _ => exact ih fun q hq => h q (List.mem_cons_of_mem _ hq)

theorem Named.over_walk (h : Named asked) (matching : Lock → Bool) :
    Over Page.nextCursor ((Paging.walk Lock.id (asPaging matching asked) none).map ofPage) ↔
      Paging.Ended (Paging.walk Lock.id (asPaging matching asked) none) := by
  refine over_iff_ended fun page hpage next hnext => ?_
  obtain ⟨ask, hask, _, hof⟩ := Paging.of_walk (h.askable matching) page hpage
  obtain ⟨lock, hlock, rfl⟩ := hof.among next hnext
  obtain ⟨request, hrequest, rfl⟩ := List.mem_map.mp hask
  exact (h request hrequest).2 lock (List.mem_filter.mp (hof.stored lock hlock)).1

theorem listWalk_eq (h : Named asked) (path id : Option Text) :
    listWalk path id asked =
      (Paging.walk Lock.id (asPaging (Matches path id) asked) none).map ofPage :=
  follow_eq_walk h (Matches path id) none

theorem flatMap_ofPage (pages : List (Paging.Page Lock Text)) :
    (pages.map ofPage).flatMap Page.locks = pages.flatMap Paging.Page.items := by
  rw [List.flatMap_map]
  rfl

/-- **A walk visits every lock once**, whatever is locked and released between its pages. -/
theorem listWalk_visits (h : Named asked) (path id : Option Text) :
    ((listWalk path id asked).flatMap Page.locks).Pairwise (fun a b => a.id < b.id) ∧
    (Over Page.nextCursor (listWalk path id asked) → ∀ lock, Matches path id lock = true →
      (∀ request ∈ asked.take (listWalk path id asked).length, lock ∈ request.1) →
      ((listWalk path id asked).flatMap Page.locks).count lock = 1) := by
  have haskable := h.askable (Matches path id)
  rw [listWalk_eq h, flatMap_ofPage, h.over_walk, List.length_map]
  have hsorted : ((Paging.walk Lock.id (asPaging (Matches path id) asked) none).flatMap
      Paging.Page.items).Pairwise fun a b => a.id < b.id := Paging.pairwise_walk haskable
  refine ⟨hsorted, fun hended lock hmatches hthere => ?_⟩
  have hmem := Paging.mem_walk haskable hended (Paging.beyond_none lock.id) fun ask hask => by
    rw [asPaging, ← List.map_take] at hask
    obtain ⟨request, hrequest, rfl⟩ := List.mem_map.mp hask
    exact List.mem_filter.mpr ⟨hthere request hrequest, hmatches⟩
  have hnodup : ((Paging.walk Lock.id (asPaging (Matches path id) asked) none).flatMap
      Paging.Page.items).Nodup :=
    hsorted.imp fun hlt heq => ne_of_lt hlt (congrArg Lock.id heq)
  exact List.count_eq_one_of_mem hnodup hmem

/-- **A walk over locks that stay ends with all of them, in order.** -/
theorem listWalk_same (h : Named asked) (path id : Option Text) {locks : List Lock}
    (hsame : ∀ request ∈ asked, request.1 = locks) (hlength : locks.length < asked.length) :
    Over Page.nextCursor (listWalk path id asked) ∧
      ((listWalk path id asked).flatMap Page.locks).Perm (locks.filter (Matches path id)) := by
  have hasked : ∀ ask ∈ asPaging (Matches path id) asked,
      ask.1 = locks.filter (Matches path id) := by
    intro ask hask
    obtain ⟨request, hrequest, rfl⟩ := List.mem_map.mp hask
    rw [hsame request hrequest]
  have hmany : (locks.filter (Matches path id)).length <
      (asPaging (Matches path id) asked).length := by
    have hfilter := List.length_filter_le (Matches path id) locks
    rw [asPaging, List.length_map]
    omega
  obtain ⟨hended, hitems⟩ := Paging.walk_same (h.askable (Matches path id)) hasked hmany
  rw [listWalk_eq h, flatMap_ofPage, h.over_walk, hitems]
  exact ⟨hended, List.perm_insertionSort _ _⟩

/-- A page of the locks to verify is a page of the list, split by owner. -/
def split (caller : Actor) (page : Page) : VerifyLocksResponse :=
  ⟨page.locks.filter fun lock => lock.owner.is caller,
    page.locks.filter fun lock => !lock.owner.is caller, page.nextCursor⟩

theorem verifyWalk_eq (caller : Actor) :
    verifyWalk caller asked = (listWalk none none asked).map (split caller) := by
  have hask : (fun stored cursor limit => verifyLocks stored cursor limit caller) =
      fun stored cursor limit => split caller (listLocks stored ⟨none, none, cursor, limit⟩) := by
    funext stored cursor limit
    simp only [verifyLocks, listLocks, split, List.partition_eq_filter_filter]
    have hall : stored.filter (ListLocksQuery.matching ⟨none, none, cursor, limit⟩) = stored :=
      List.filter_eq_self.mpr fun _ _ => rfl
    rw [hall]
    rfl
  rw [verifyWalk, hask]
  exact follow_map (fun _ => rfl) none

/-- **A pagination walk visits every lock once.**  The locks come in increasing order of their
ids, a lock that matches and is there for every page of a walk that is over comes once, a walk
over locks that stay is over after at most one page for each and has all that match, and a walk
of the locks to verify is that of the list, split by owner. -/
theorem walk_visits_once (h : Named asked) (path id : Option Text) (caller : Actor) :
    ((listWalk path id asked).flatMap Page.locks).Pairwise (fun a b => a.id < b.id) ∧
    (Over Page.nextCursor (listWalk path id asked) → ∀ lock, Matches path id lock = true →
      (∀ request ∈ asked.take (listWalk path id asked).length, lock ∈ request.1) →
      ((listWalk path id asked).flatMap Page.locks).count lock = 1) ∧
    (∀ locks, (∀ request ∈ asked, request.1 = locks) → locks.length < asked.length →
      Over Page.nextCursor (listWalk path id asked) ∧
        ((listWalk path id asked).flatMap Page.locks).Perm (locks.filter (Matches path id))) ∧
    ((verifyWalk caller asked).flatMap VerifyLocksResponse.ours =
      ((listWalk none none asked).flatMap Page.locks).filter fun lock => lock.owner.is caller) ∧
    ((verifyWalk caller asked).flatMap VerifyLocksResponse.theirs =
      ((listWalk none none asked).flatMap Page.locks).filter fun lock => !lock.owner.is caller) ∧
    (Over VerifyLocksResponse.nextCursor (verifyWalk caller asked) ↔
      Over Page.nextCursor (listWalk none none asked)) := by
  obtain ⟨hsorted, hvisits⟩ := listWalk_visits h path id
  refine ⟨hsorted, hvisits, fun locks => listWalk_same h path id, ?_, ?_, ?_⟩
  · rw [verifyWalk_eq, List.flatMap_map, List.filter_flatMap]
    rfl
  · rw [verifyWalk_eq, List.flatMap_map, List.filter_flatMap]
    rfl
  · rw [verifyWalk_eq]
    exact over_map (fun _ => rfl) _

end Walks

/-! ### Two locks -/

def lockNamed (id : String) : Lock := ⟨id.toList, [], [], ⟨[], none⟩⟩

/-- A lock is released and another taken between two pages, and one stays. -/
theorem walk_visits_once_changed :
    ((listWalk none none [([lockNamed "b", lockNamed "a"], some 1),
      ([lockNamed "c", lockNamed "b"], none)]).flatMap Page.locks).count (lockNamed "b") = 1 := by
  have hnamed : Named [([lockNamed "b", lockNamed "a"], some 1),
      ([lockNamed "c", lockNamed "b"], none)] := by
    simp [Named, lockNamed]
  exact (walk_visits_once hnamed none none ⟨[], []⟩).2.1 (by decide +kernel)
    (lockNamed "b") (by decide)
    (by decide +kernel)

/-- A cursor that is the empty id ends the walk. -/
theorem walk_ends_at_empty_id :
    ¬ ∀ (locks : List Lock) (limits : List (Option Nat)), (locks.map Lock.id).Nodup →
      locks.length < limits.length →
      ((listWalk none none (limits.map fun limit => (locks, limit))).flatMap Page.locks).Perm
        locks := by
  intro hclaim
  have hwalk := hclaim [lockNamed "", lockNamed "a"] [some 1, some 1, some 1]
    (by decide) (by decide)
  exact absurd hwalk.length_eq (by decide +kernel)

end Lfsx.Locks
