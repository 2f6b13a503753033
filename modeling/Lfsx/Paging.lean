import Mathlib.Data.List.Sort

/-!
# Walking an ordered list in pages

A page holds the first items beyond a cursor, in the order of their keys, and the key of its
last item if there are more.  A walk asks for one page after the other, each of the items there
are then and under a limit of its own.

* *Pages.*  `Page.Of` says what a page holds.
* *Walks.*  The items of a walk come in increasing order of their keys, whatever the items do
  between the pages (`pairwise_walk`), and an item that was there for every page of a walk that
  ended is in it (`mem_walk`).  A walk over items that stay ends, and its items are the items in
  order (`walk_same`).
-/

namespace Paging

variable {α κ : Type} [LinearOrder κ] (key : α → κ)

/-- The items in the order of their keys. -/
def ordered (items : List α) : List α := items.insertionSort fun a b => key a ≤ key b

/-- A key is beyond a cursor.  Every key is beyond none. -/
def Beyond (cursor : Option κ) (k : κ) : Prop := ∀ c ∈ cursor, c < k

instance (cursor : Option κ) (k : κ) : Decidable (Beyond cursor k) :=
  inferInstanceAs (Decidable (∀ c ∈ cursor, c < k))

/-- The items beyond a cursor, in order. -/
def rest (items : List α) (cursor : Option κ) : List α :=
  (ordered key items).filter fun a => Beyond cursor (key a)

structure Page (α κ : Type) where
  items : List α
  next : Option κ

def page (items : List α) (cursor : Option κ) (limit : Nat) : Page α κ :=
  let found := rest key items cursor
  if found.length ≤ limit then ⟨found, none⟩
  else ⟨found.take limit, (found.take limit).getLast?.map key⟩

/-- The pages of a walk. -/
def walk : List (List α × Nat) → Option κ → List (Page α κ)
  | [], _ => []
  | (items, limit) :: asked, cursor =>
      let first := page key items cursor limit
      match first.next with
      | none => [first]
      | some next => first :: walk asked (some next)

/-- The last page says that there are no more. -/
def Ended : List (Page α κ) → Prop
  | [] => False
  | [last] => last.next = none
  | _ :: pages => Ended pages

/-! ## Order -/

section Order

variable {key} {items : List α} {cursor : Option κ}

@[simp] theorem beyond_none (k : κ) : Beyond none k := by
  simp [Beyond]

@[simp] theorem beyond_some {c k : κ} : Beyond (some c) k ↔ c < k := by
  simp [Beyond]

theorem mem_ordered {a : α} : a ∈ ordered key items ↔ a ∈ items := by
  simp [ordered]

/-- Items with distinct keys are in strict order. -/
theorem pairwise_ordered (h : (items.map key).Nodup) :
    (ordered key items).Pairwise fun a b => key a < key b := by
  have hle : (ordered key items).Pairwise fun a b => key a ≤ key b :=
    List.pairwise_insertionSort _ items
  have hne : (ordered key items).Pairwise fun a b => key a ≠ key b := by
    have hperm : ((ordered key items).map key).Perm (items.map key) :=
      (List.perm_insertionSort _ items).map key
    exact List.pairwise_map.mp (hperm.nodup_iff.mpr h)
  exact hle.imp₂ (fun a b hle hne => lt_of_le_of_ne hle hne) hne

theorem mem_rest {a : α} : a ∈ rest key items cursor ↔ a ∈ items ∧ Beyond cursor (key a) := by
  simp [rest, mem_ordered]

theorem pairwise_rest (h : (items.map key).Nodup) (cursor : Option κ) :
    (rest key items cursor).Pairwise fun a b => key a < key b :=
  (pairwise_ordered h).sublist List.filter_sublist

/-- Items in strict order are known from which they are. -/
theorem eq_of_pairwise {xs ys : List α} (hx : xs.Pairwise fun a b => key a < key b)
    (hy : ys.Pairwise fun a b => key a < key b) (h : ∀ a, a ∈ xs ↔ a ∈ ys) : xs = ys := by
  have hne : ∀ {a b : α}, key a < key b → a ≠ b := fun hlt heq => ne_of_lt hlt (congrArg key heq)
  have hperm : xs.Perm ys := (List.perm_ext_iff_of_nodup (hx.imp hne) (hy.imp hne)).mpr h
  exact hperm.eq_of_pairwise (fun _ _ _ _ hlt hgt => absurd hlt (lt_asymm hgt)) hx hy

end Order

/-! ## One page -/

section Page

variable {key} {items : List α} {cursor : Option κ} {limit : Nat}

/-- A page of some items, beyond a cursor. -/
structure Page.Of (key : α → κ) (items : List α) (cursor : Option κ) (p : Page α κ) : Prop where
  sorted : p.items.Pairwise fun a b => key a < key b
  stored : ∀ a ∈ p.items, a ∈ items
  beyond : ∀ a ∈ p.items, Beyond cursor (key a)
  upTo : ∀ next ∈ p.next, ∀ a ∈ p.items, key a ≤ next
  covers : ∀ a ∈ items, Beyond cursor (key a) → (∀ next ∈ p.next, key a ≤ next) → a ∈ p.items
  among : ∀ next ∈ p.next, ∃ a ∈ p.items, key a = next

theorem page_of (h : (items.map key).Nodup) (hlimit : 0 < limit) :
    (page key items cursor limit).Of key items cursor := by
  have hsorted := pairwise_rest h cursor
  by_cases hlength : (rest key items cursor).length ≤ limit
  · rw [page, if_pos hlength]
    exact {
      sorted := hsorted
      stored := fun a ha => (mem_rest.mp ha).1
      beyond := fun a ha => (mem_rest.mp ha).2
      upTo := by simp
      covers := fun a ha hbeyond _ => mem_rest.mpr ⟨ha, hbeyond⟩
      among := by simp }
  · rw [page, if_neg hlength]
    have hne : (rest key items cursor).take limit ≠ [] := by
      intro hnil
      have hzero := congrArg List.length hnil
      simp only [List.length_take, List.length_nil] at hzero
      omega
    have hlast : ((rest key items cursor).take limit).getLast? =
        some (((rest key items cursor).take limit).getLast hne) := List.getLast?_eq_some_getLast hne
    rw [hlast, Option.map_some]
    have htaken := hsorted.sublist (List.take_sublist limit _)
    have hupTo : ∀ a ∈ (rest key items cursor).take limit,
        key a ≤ key (((rest key items cursor).take limit).getLast hne) := by
      intro a ha
      rw [← List.dropLast_append_getLast hne] at ha htaken
      rcases List.mem_append.mp ha with ha | ha
      · exact le_of_lt ((List.pairwise_append.mp htaken).2.2 a ha _ (by simp))
      · rw [List.mem_singleton.mp ha]
    have hmem : ∀ a ∈ (rest key items cursor).take limit, a ∈ rest key items cursor :=
      fun a ha => List.mem_of_mem_take ha
    exact {
      sorted := htaken
      stored := fun a ha => (mem_rest.mp (hmem a ha)).1
      beyond := fun a ha => (mem_rest.mp (hmem a ha)).2
      upTo := fun next hnext a ha => by
        cases hnext
        exact hupTo a ha
      covers := fun a ha hbeyond hle => by
        have hrest := mem_rest.mpr ⟨ha, hbeyond⟩
        rw [← List.take_append_drop limit (rest key items cursor)] at hrest hsorted
        rcases List.mem_append.mp hrest with ha | ha
        · exact ha
        · -- What is not taken is after the last that is.
          have hlt := (List.pairwise_append.mp hsorted).2.2 _ (List.getLast_mem hne) a ha
          exact absurd hlt (not_lt_of_ge (hle _ rfl))
      among := fun next hnext => by
        cases hnext
        exact ⟨_, List.getLast_mem hne, rfl⟩ }

end Page

/-! ## Walks -/

section Walk

variable {key} {asked : List (List α × Nat)} {cursor : Option κ}

/-- What is asked of each page: items with distinct keys, and at least one of them. -/
def Askable (key : α → κ) (asked : List (List α × Nat)) : Prop :=
  ∀ a ∈ asked, (a.1.map key).Nodup ∧ 0 < a.2

theorem Askable.head {items : List α} {limit : Nat} (h : Askable key ((items, limit) :: asked))
    (cursor : Option κ) :
    (page key items cursor limit).Of key items cursor :=
  page_of (h _ List.mem_cons_self).1 (h _ List.mem_cons_self).2

omit [LinearOrder κ] in
theorem Askable.tail {a : List α × Nat} (h : Askable key (a :: asked)) : Askable key asked :=
  fun b hb => h b (List.mem_cons_of_mem _ hb)

omit [LinearOrder κ] in
/-- A page with a cursor is not the last. -/
theorem ended_cons {p : Page α κ} {pages : List (Page α κ)} {next : κ}
    (hnext : p.next = some next) :
    Ended (p :: pages) ↔ Ended pages := by
  cases pages with
  | nil => simp [Ended, hnext]
  | cons q pages => exact Iff.rfl

/-- The items of a walk are beyond its cursor. -/
theorem beyond_walk (h : Askable key asked) :
    ∀ p ∈ walk key asked cursor, ∀ a ∈ p.items, Beyond cursor (key a) := by
  induction asked generalizing cursor with
  | nil => simp [walk]
  | cons ask asked ih =>
      obtain ⟨items, limit⟩ := ask
      have hpage := h.head cursor
      intro p hp a ha
      rw [walk] at hp
      cases hnext : (page key items cursor limit).next with
      | none =>
          simp only [hnext, List.mem_singleton] at hp
          subst hp
          exact hpage.beyond a ha
      | some next =>
          simp only [hnext, List.mem_cons] at hp
          rcases hp with rfl | hp
          · exact hpage.beyond a ha
          · obtain ⟨b, hb, hkey⟩ := hpage.among next hnext
            have hlt : next < key a := beyond_some.mp (ih h.tail p hp a ha)
            intro c hc
            exact lt_trans (hkey ▸ hpage.beyond b hb c hc) hlt

/-- **The items of a walk come in increasing order**, so none comes twice. -/
theorem pairwise_walk (h : Askable key asked) :
    ((walk key asked cursor).flatMap Page.items).Pairwise fun a b => key a < key b := by
  induction asked generalizing cursor with
  | nil => simp [walk]
  | cons ask asked ih =>
      obtain ⟨items, limit⟩ := ask
      have hpage := h.head cursor
      rw [walk]
      cases hnext : (page key items cursor limit).next with
      | none => simpa [hnext] using hpage.sorted
      | some next =>
          rw [List.flatMap_cons, List.pairwise_append]
          refine ⟨hpage.sorted, ih h.tail, fun a ha b hb => ?_⟩
          obtain ⟨p, hp, hb⟩ := List.mem_flatMap.mp hb
          have hlt : next < key b := beyond_some.mp (beyond_walk h.tail p hp b hb)
          exact lt_of_le_of_lt (hpage.upTo next hnext a ha) hlt

/-- **An item that was there for every page of a walk that ended is in it.** -/
theorem mem_walk (h : Askable key asked) (hended : Ended (walk key asked cursor)) {a : α}
    (hbeyond : Beyond cursor (key a))
    (hthere : ∀ ask ∈ asked.take (walk key asked cursor).length, a ∈ ask.1) :
    a ∈ (walk key asked cursor).flatMap Page.items := by
  induction asked generalizing cursor with
  | nil => simp [walk, Ended] at hended
  | cons ask asked ih =>
      obtain ⟨items, limit⟩ := ask
      have hpage := h.head cursor
      rw [walk] at hended hthere ⊢
      cases hnext : (page key items cursor limit).next with
      | none =>
          simp only [hnext, List.length_singleton, List.take_succ_cons, List.take_zero,
            List.mem_singleton, forall_eq] at hthere
          have hmem := hpage.covers a hthere hbeyond (by simp [hnext])
          simpa [hnext] using hmem
      | some next =>
          simp only [hnext, List.length_cons, List.take_succ_cons, List.mem_cons, forall_eq_or_imp]
            at hthere hended ⊢
          rw [List.flatMap_cons, List.mem_append]
          rcases le_or_gt (key a) next with hle | hgt
          · refine Or.inl (hpage.covers a hthere.1 hbeyond ?_)
            intro n hn
            rw [hnext, Option.mem_some_iff] at hn
            exact hn ▸ hle
          · exact Or.inr (ih h.tail ((ended_cons hnext).mp hended) (beyond_some.mpr hgt) hthere.2)

/-- Each page of a walk is a page of the items there were for it. -/
theorem of_walk (h : Askable key asked) :
    ∀ p ∈ walk key asked cursor, ∃ ask ∈ asked, ∃ resumed, p.Of key ask.1 resumed := by
  induction asked generalizing cursor with
  | nil => simp [walk]
  | cons ask asked ih =>
      obtain ⟨items, limit⟩ := ask
      have hpage := h.head cursor
      intro p hp
      rw [walk] at hp
      cases hnext : (page key items cursor limit).next with
      | none =>
          simp only [hnext, List.mem_singleton] at hp
          subst hp
          exact ⟨_, List.mem_cons_self, cursor, hpage⟩
      | some next =>
          simp only [hnext, List.mem_cons] at hp
          rcases hp with rfl | hp
          · exact ⟨_, List.mem_cons_self, cursor, hpage⟩
          · obtain ⟨ask, hask, hpage⟩ := ih h.tail p hp
            exact ⟨ask, List.mem_cons_of_mem _ hask, hpage⟩

/-- A page that is not the last takes something from what is left. -/
theorem length_rest_lt {items : List α} {p : Page α κ} (hpage : p.Of key items cursor) {next : κ}
    (hnext : p.next = some next) :
    (rest key items (some next)).length < (rest key items cursor).length := by
  obtain ⟨a, ha, hkey⟩ := hpage.among next hnext
  have hbefore : ∀ b, Beyond (some next) (key b) → Beyond cursor (key b) := by
    intro b hb c hc
    exact lt_trans (hkey ▸ hpage.beyond a ha c hc) (beyond_some.mp hb)
  have hsplit : rest key items (some next) =
      (rest key items cursor).filter fun b => Beyond (some next) (key b) := by
    rw [rest, rest, List.filter_filter]
    refine List.filter_congr fun b _ => ?_
    rw [← Bool.decide_and, decide_eq_decide]
    exact ⟨fun hb => ⟨hb, hbefore b hb⟩, And.left⟩
  rw [hsplit]
  refine List.length_filter_lt_length_iff_exists.mpr
    ⟨a, mem_rest.mpr ⟨hpage.stored a ha, hpage.beyond a ha⟩, ?_⟩
  simp [hkey]

/-- **A walk over items that stay ends.** -/
theorem ended_walk {items : List α} (h : Askable key asked) (hsame : ∀ ask ∈ asked, ask.1 = items)
    (hlength : (rest key items cursor).length < asked.length) : Ended (walk key asked cursor) := by
  induction asked generalizing cursor with
  | nil => simp at hlength
  | cons ask asked ih =>
      obtain ⟨items', limit⟩ := ask
      have hpage := h.head cursor
      obtain rfl : items' = items := hsame _ List.mem_cons_self
      rw [walk]
      cases hnext : (page key items' cursor limit).next with
      | none => exact hnext
      | some next =>
          have hless := length_rest_lt hpage hnext
          rw [List.length_cons] at hlength
          have hended : Ended (walk key asked (some next)) :=
            ih h.tail (fun b hb => hsame b (List.mem_cons_of_mem _ hb)) (by omega)
          exact (ended_cons hnext).mpr hended

/-- **And its items are the items, in order.** -/
theorem walk_same {items : List α} (h : Askable key asked) (hsame : ∀ ask ∈ asked, ask.1 = items)
    (hlength : items.length < asked.length) :
    Ended (walk key asked none) ∧
      (walk key asked none).flatMap Page.items = ordered key items := by
  have hrest : (rest key items (none : Option κ)).length ≤ items.length := by
    refine (List.length_filter_le _ _).trans ?_
    simp [ordered]
  have hended : Ended (walk key asked none) := ended_walk h hsame (by omega)
  refine ⟨hended, ?_⟩
  have hdistinct : (items.map key).Nodup := by
    cases asked with
    | nil => simp at hlength
    | cons ask asked =>
        rw [← hsame ask List.mem_cons_self]
        exact (h ask List.mem_cons_self).1
  refine eq_of_pairwise (pairwise_walk h) (pairwise_ordered hdistinct) fun a => ?_
  rw [mem_ordered]
  constructor
  · intro ha
    obtain ⟨p, hp, ha⟩ := List.mem_flatMap.mp ha
    obtain ⟨ask, hask, _, hpage⟩ := of_walk h p hp
    rw [← hsame ask hask]
    exact hpage.stored a ha
  · intro ha
    refine mem_walk h hended (beyond_none _) fun ask hask => ?_
    rwa [hsame ask (List.mem_of_mem_take hask)]

end Walk

end Paging
