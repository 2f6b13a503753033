import Mathlib.Algebra.Order.Floor.Ring
import Mathlib.Data.Rat.Floor
import Mathlib.Tactic.Linarith
import Mathlib.Tactic.FieldSimp
import Mathlib.Tactic.Ring

/-!
# The forge lookup budget

A bucket of lookups.  It holds at most a minute's worth, it is refilled whenever a lookup is
asked for, by what the time since the last call earned, and a lookup takes one out of it.  A
caller that finds less than one is told how many seconds to wait.

*The step.*  What a call leaves, with the one it took, is what the refill made of the bucket
(`spend_add`): at most what was there with what was earned, and at most the capacity.

*The window.*  From any moment on, the lookups afforded are at most what the bucket holds and
what it earns meanwhile (`affordedIn_le`), by induction on the calls.  A window begins with a
call that finds the bucket full at best.

Instants are rational numbers of seconds and the allowance is exact.
-/

namespace Lfsx.Auth

structure Budget.State where
  allowance : ℚ
  refilledAt : ℚ
deriving DecidableEq

structure Budget where
  perMinute : Option UInt32
  state : Budget.State
deriving DecidableEq

namespace Budget

/-- `Budget::new`, at an instant. -/
def new (perMinute : Option UInt32) (now : ℚ) : Budget where
  perMinute
  state := { allowance := (perMinute.getD 0).toNat, refilledAt := now }

/-- What is in the bucket when a call comes: a minute earns the capacity. -/
def refilled (state : State) (capacity now : ℚ) : ℚ :=
  let earned := max 0 (now - state.refilledAt) * capacity / 60
  min (state.allowance + earned) capacity

/-- `wait.ceil() as u64`, which saturates. -/
def ceilU64 (wait : ℚ) : Nat := min ⌈wait⌉.toNat (2 ^ 64 - 1)

/-- Nothing when there was room, and otherwise in how many seconds there is. -/
def spend (budget : Budget) (now : ℚ) : Option Nat × Budget :=
  match budget.perMinute with
  | none => (none, budget)
  | some perMinute =>
      let capacity : ℚ := perMinute.toNat
      let allowance := refilled budget.state capacity now
      if 1 ≤ allowance then
        (none, { budget with state := { allowance := allowance - 1, refilledAt := now } })
      else
        let wait := (1 - allowance) * 60 / capacity
        (some (max (ceilU64 wait) 1), { budget with state := { allowance, refilledAt := now } })

/-- What each call was answered. -/
def spends (budget : Budget) : List ℚ → List (ℚ × Option Nat)
  | [] => []
  | now :: times => (now, (budget.spend now).1) :: spends (budget.spend now).2 times

/-- The budget after the calls. -/
def after (budget : Budget) (times : List ℚ) : Budget :=
  times.foldl (fun budget now => (budget.spend now).2) budget

/-- How many of the calls from `start` to `stop` were afforded. -/
def affordedIn (start stop : ℚ) (answers : List (ℚ × Option Nat)) : Nat :=
  answers.countP fun call => decide (start ≤ call.1 ∧ call.1 ≤ stop) && call.2.isNone

/-! ## One call -/

/-- What is in the bucket is neither less than nothing nor more than a minute's worth. -/
structure Within (capacity : ℚ) (state : State) : Prop where
  nonneg : 0 ≤ state.allowance
  le_capacity : state.allowance ≤ capacity

/-- What a call took. -/
def taken (answer : Option Nat) : ℚ := if answer.isNone then 1 else 0

variable {budget : Budget} {perMinute : UInt32} {now later start stop : ℚ} {times : List ℚ}

theorem refilled_nonneg {state : State} {capacity : ℚ} (h : 0 ≤ state.allowance)
    (hcapacity : 0 ≤ capacity) : 0 ≤ refilled state capacity now := by
  have hearned : 0 ≤ max 0 (now - state.refilledAt) * capacity / 60 := by positivity
  exact le_min (by linarith) hcapacity

theorem refilled_le_capacity {state : State} {capacity : ℚ} :
    refilled state capacity now ≤ capacity := min_le_right _ _

theorem refilled_le {state : State} (capacity : ℚ) (h : state.refilledAt ≤ now) :
    refilled state capacity now ≤ state.allowance + (now - state.refilledAt) * capacity / 60 := by
  have hmax : max 0 (now - state.refilledAt) = now - state.refilledAt := max_eq_right (by linarith)
  rw [refilled, hmax]
  exact min_le_left _ _

/-- **What a call leaves, with what it took, is what the refill made of the bucket.** -/
theorem spend_add (now : ℚ) (hlimit : budget.perMinute = some perMinute) :
    (budget.spend now).2.state.allowance + taken (budget.spend now).1 =
      refilled budget.state perMinute.toNat now := by
  simp only [spend, hlimit]
  split <;> simp [taken]

@[simp] theorem spend_perMinute : (budget.spend now).2.perMinute = budget.perMinute := by
  cases hlimit : budget.perMinute with
  | none => simp [spend, hlimit]
  | some perMinute =>
      simp only [spend, hlimit]
      split <;> rfl

theorem spend_refilledAt (now : ℚ) (hlimit : budget.perMinute = some perMinute) :
    (budget.spend now).2.state.refilledAt = now := by
  simp only [spend, hlimit]
  split <;> rfl

theorem Within.spend (now : ℚ) (hlimit : budget.perMinute = some perMinute)
    (h : Within perMinute.toNat budget.state) :
    Within perMinute.toNat (budget.spend now).2.state := by
  have hnonneg : 0 ≤ refilled budget.state perMinute.toNat now :=
    refilled_nonneg h.nonneg (Nat.cast_nonneg _)
  have hle : refilled budget.state perMinute.toNat now ≤ perMinute.toNat := refilled_le_capacity
  simp only [Budget.spend, hlimit]
  split
  · exact ⟨by simp only; linarith, by simp only; linarith⟩
  · exact ⟨hnonneg, hle⟩

/-! ## Runs -/

theorem after_cons : budget.after (now :: times) = (budget.spend now).2.after times := rfl

@[simp] theorem after_perMinute : (budget.after times).perMinute = budget.perMinute := by
  induction times generalizing budget with
  | nil => rfl
  | cons now times ih => simp [after_cons, ih]

theorem Within.after (hlimit : budget.perMinute = some perMinute)
    (h : Within perMinute.toNat budget.state) :
    Within perMinute.toNat (budget.after times).state := by
  induction times generalizing budget with
  | nil => exact h
  | cons now times ih =>
      rw [after_cons]
      exact ih (by simp [hlimit]) (h.spend now hlimit)

theorem within_new (perMinute : UInt32) (now : ℚ) :
    Within perMinute.toNat (new (some perMinute) now).state := by
  constructor <;> simp [new]

theorem affordedIn_cons {call : ℚ × Option Nat} {answers : List (ℚ × Option Nat)} :
    affordedIn start stop (call :: answers) =
      affordedIn start stop answers +
        if (start ≤ call.1 ∧ call.1 ≤ stop) ∧ call.2.isNone then 1 else 0 := by
  simp [affordedIn, List.countP_cons]

/-- Calls after the window are not in it. -/
theorem affordedIn_later (h : ∀ time ∈ times, stop < time) :
    affordedIn start stop (budget.spends times) = 0 := by
  induction times generalizing budget with
  | nil => rfl
  | cons now times ih =>
      have hnow := h now List.mem_cons_self
      have hrest : affordedIn start stop ((budget.spend now).2.spends times) = 0 :=
        ih fun t ht => h t (List.mem_cons_of_mem _ ht)
      rw [spends, affordedIn_cons, hrest, if_neg]
      rintro ⟨⟨-, hle⟩, -⟩
      linarith

theorem affordedIn_cons_later (hsorted : (now :: times).Pairwise (· ≤ ·)) (h : stop < now) :
    affordedIn start stop (budget.spends (now :: times)) = 0 := by
  apply affordedIn_later
  intro time htime
  rcases List.mem_cons.mp htime with rfl | htime
  · exact h
  · have hle := (List.pairwise_cons.mp hsorted).1 time htime
    linarith

theorem affordedIn_spends_le (start stop now : ℚ) (budget : Budget) (times : List ℚ) :
    (affordedIn start stop (budget.spends (now :: times)) : ℚ) ≤
      affordedIn start stop ((budget.spend now).2.spends times) + taken (budget.spend now).1 := by
  rw [spends, affordedIn_cons, taken]
  split <;> split <;> simp_all

/-- **What is afforded until `stop` is in the bucket or is earned until then.** -/
theorem affordedIn_le (hlimit : budget.perMinute = some perMinute)
    (h : Within perMinute.toNat budget.state) (hstop : budget.state.refilledAt ≤ stop)
    (hsorted : (budget.state.refilledAt :: times).Pairwise (· ≤ ·)) :
    (affordedIn start stop (budget.spends times) : ℚ) ≤
      budget.state.allowance + (stop - budget.state.refilledAt) * perMinute.toNat / 60 := by
  induction times generalizing budget with
  | nil =>
      have hearned : 0 ≤ (stop - budget.state.refilledAt) * perMinute.toNat / 60 := by
        have := sub_nonneg.mpr hstop
        positivity
      have hnonneg := h.nonneg
      simp only [spends, affordedIn, List.countP_nil, Nat.cast_zero]
      linarith
  | cons now times ih =>
      obtain ⟨hfirst, hrest⟩ := List.pairwise_cons.mp hsorted
      have hnow := hfirst now List.mem_cons_self
      by_cases hin : now ≤ stop
      · have hat := spend_refilledAt now hlimit
        have hsum := spend_add now hlimit
        have hrefilled := refilled_le perMinute.toNat hnow
        have hlimit' : (budget.spend now).2.perMinute = some perMinute := by simp [hlimit]
        have htail := ih hlimit' (h.spend now hlimit) (by rw [hat]; exact hin)
          (by rw [hat]; exact hrest)
        rw [hat] at htail
        have hcons := affordedIn_spends_le start stop now budget times
        have hsplit : (stop - now) * perMinute.toNat / 60 +
            (now - budget.state.refilledAt) * perMinute.toNat / 60 =
            (stop - budget.state.refilledAt) * perMinute.toNat / 60 := by ring
        linarith
      · -- Time went on past the window, and nothing more of it is left.
        have hearned : 0 ≤ (stop - budget.state.refilledAt) * perMinute.toNat / 60 := by
          have := sub_nonneg.mpr hstop
          positivity
        have hnonneg := h.nonneg
        rw [affordedIn_cons_later hrest (not_le.mp hin), Nat.cast_zero]
        linarith

/-- **A window affords a minute's worth and what it earns.**  Its first call finds the bucket
full at best. -/
theorem affordedIn_window {T : ℚ} (hlimit : budget.perMinute = some perMinute)
    (h : Within perMinute.toNat budget.state) (hlength : 0 ≤ T)
    (hsorted : (budget.state.refilledAt :: times).Pairwise (· ≤ ·)) :
    (affordedIn start (start + T) (budget.spends times) : ℚ) ≤ perMinute.toNat * (1 + T / 60) := by
  induction times generalizing budget with
  | nil =>
      simp only [spends, affordedIn, List.countP_nil, Nat.cast_zero]
      positivity
  | cons now times ih =>
      have hrest := (List.pairwise_cons.mp hsorted).2
      have hat := spend_refilledAt now hlimit
      have hspend := h.spend now hlimit
      rcases lt_or_ge now start with hbefore | hstart
      · rw [spends, affordedIn_cons, if_neg, add_zero]
        · exact ih (by simp [hlimit]) hspend (by rw [hat]; exact hrest)
        · rintro ⟨⟨hle, -⟩, -⟩
          exact absurd hle (not_le.mpr hbefore)
      · rcases lt_or_ge (start + T) now with hlater | hin
        · rw [affordedIn_cons_later hrest hlater, Nat.cast_zero]
          positivity
        · have hlimit' : (budget.spend now).2.perMinute = some perMinute := by simp [hlimit]
          have htail : (affordedIn start (start + T) ((budget.spend now).2.spends times) : ℚ) ≤ _ :=
            affordedIn_le hlimit' hspend (by rw [hat]; exact hin) (by rw [hat]; exact hrest)
          have hcons := affordedIn_spends_le start (start + T) now budget times
          have hsum := spend_add now hlimit
          have hfull : refilled budget.state perMinute.toNat now ≤ perMinute.toNat :=
            refilled_le_capacity
          have hearned : (start + T - now) * perMinute.toNat / 60 ≤ T * perMinute.toNat / 60 := by
            have hle : start + T - now ≤ T := by linarith
            gcongr
          have hbound : (perMinute.toNat : ℚ) * (1 + T / 60) =
              perMinute.toNat + T * perMinute.toNat / 60 := by ring
          rw [hat] at htail
          rw [hbound]
          linarith

/-! ## How long to wait -/

/-- A wait of a minute at most is rounded up. -/
theorem le_ceilU64 {wait : ℚ} (h : wait ≤ 60) : wait ≤ ceilU64 wait := by
  have hceil : ⌈wait⌉ ≤ 60 := Int.ceil_le.mpr (by exact_mod_cast h)
  have hround : wait ≤ (⌈wait⌉.toNat : ℚ) := by
    have hle : wait ≤ (⌈wait⌉ : ℚ) := Int.le_ceil wait
    have hself : (⌈wait⌉ : ℚ) ≤ ((⌈wait⌉.toNat : Int) : ℚ) := by exact_mod_cast Int.self_le_toNat _
    exact hle.trans (by exact_mod_cast hself)
  have hmin : ceilU64 wait = ⌈wait⌉.toNat := min_eq_left (by omega)
  rw [hmin]
  exact hround

/-- **A caller that waits as long as it was told is afforded its lookup.** -/
theorem spend_wait {wait : Nat} (hlimit : budget.perMinute = some perMinute)
    (hpos : 1 ≤ perMinute) (h : Within perMinute.toNat budget.state)
    (hwait : (budget.spend now).1 = some wait) (hlater : now + wait ≤ later) :
    ((budget.spend now).2.spend later).1 = none := by
  have hcapacity : (1 : ℚ) ≤ perMinute.toNat := by
    exact_mod_cast UInt32.le_iff_toNat_le.mp hpos
  have hnonneg : 0 ≤ refilled budget.state perMinute.toNat now :=
    refilled_nonneg h.nonneg (Nat.cast_nonneg _)
  have hat := spend_refilledAt now hlimit
  have hsum := spend_add now hlimit
  rw [hwait] at hsum
  simp only [taken, Option.isNone_some, Bool.false_eq_true, if_false, add_zero] at hsum
  simp only [spend, hlimit] at hwait
  split at hwait
  · simp at hwait
  · -- What is missing is earned in the wait, and the wait was rounded up.
    have hminute : (1 - refilled budget.state perMinute.toNat now) * 60 / perMinute.toNat ≤ 60 := by
      rw [div_le_iff₀ (by linarith)]
      nlinarith
    have hround := le_ceilU64 hminute
    have hmax : max (ceilU64 ((1 - refilled budget.state perMinute.toNat now) * 60 /
        perMinute.toNat)) 1 = wait := Option.some.inj hwait
    have hle : (1 - refilled budget.state perMinute.toNat now) * 60 / perMinute.toNat ≤ wait := by
      rw [← hmax]
      exact hround.trans (by exact_mod_cast le_max_left _ _)
    have hmissing : 1 - refilled budget.state perMinute.toNat now ≤
        (later - now) * perMinute.toNat / 60 := by
      rw [div_le_iff₀ (by linarith)] at hle
      have hwaited : (wait : ℚ) * perMinute.toNat ≤ (later - now) * perMinute.toNat := by
        have : (wait : ℚ) ≤ later - now := by linarith
        gcongr
      linarith
    have hone : 1 ≤ refilled (budget.spend now).2.state perMinute.toNat later := by
      have hmax : later - now ≤ max 0 (later - now) := le_max_right _ _
      have hearned : (later - now) * perMinute.toNat / 60 ≤
          max 0 (later - now) * perMinute.toNat / 60 := by gcongr
      rw [refilled, hat, hsum]
      exact le_min (by linarith) hcapacity
    have hlimit' : (budget.spend now).2.perMinute = some perMinute := by simp [hlimit]
    rw [spend.eq_def (budget.spend now).2, hlimit']
    simp [hone]

theorem one_le_wait {wait : Nat} (hwait : (budget.spend now).1 = some wait) : 1 ≤ wait := by
  unfold spend at hwait
  cases hlimit : budget.perMinute with
  | none => simp [hlimit] at hwait
  | some perMinute =>
      simp only [hlimit] at hwait
      split at hwait
      · simp at hwait
      · have hmax := Option.some.inj hwait
        omega

/-! ## The claim of the budget -/

/-- **The rate is bounded and the hints are honest.**  Whatever the calls, a window of `T`
seconds affords a minute's worth and what `T` seconds earn, and a caller told to wait that
waits, while nobody else asks, is afforded its lookup. -/
theorem budget_bounds (perMinute : UInt32) (hpos : 1 ≤ perMinute) (opened : ℚ) (times : List ℚ)
    (hsorted : (opened :: times).Pairwise (· ≤ ·)) :
    (∀ start T : ℚ, 0 ≤ T →
      (affordedIn start (start + T) ((new (some perMinute) opened).spends times) : ℚ) ≤
        perMinute.toNat * (1 + T / 60)) ∧
    ∀ (now : ℚ) (wait : Nat),
      (((new (some perMinute) opened).after times).spend now).1 = some wait →
        1 ≤ wait ∧ ∀ later, now + wait ≤ later →
          ((((new (some perMinute) opened).after times).spend now).2.spend later).1 = none := by
  have hlimit : (new (some perMinute) opened).perMinute = some perMinute := rfl
  have hnew := within_new perMinute opened
  constructor
  · intro start T hlength
    exact affordedIn_window hlimit hnew hlength hsorted
  · intro now wait hwait
    have hafter : ((new (some perMinute) opened).after times).perMinute = some perMinute := by
      simp [hlimit]
    refine ⟨one_le_wait hwait, ?_⟩
    intro later hlater
    exact spend_wait hafter hpos (hnew.after hlimit) hwait hlater

/-- Two a minute, asked for three times at once. -/
theorem budget_bounds_two :
    (affordedIn 0 (0 + 0) ((new (some 2) 0).spends [0, 0, 0]) : ℚ) ≤
      (2 : UInt32).toNat * (1 + 0 / 60) ∧
    ((((new (some 2) 0).after [0, 0]).spend 0).2.spend 30).1 = none := by
  constructor
  · exact (budget_bounds 2 (by decide) 0 [0, 0, 0] (by decide +kernel)).1 0 0 le_rfl
  · exact ((budget_bounds 2 (by decide) 0 [0, 0] (by decide +kernel)).2 0 30
      (by decide +kernel)).2 30 (by norm_num)

end Budget

end Lfsx.Auth
