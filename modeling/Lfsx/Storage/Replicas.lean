import Lfsx.Files.DiskRules
import Lfsx.Storage.Keys
import Lfsx.Storage.Meta

/-!
# Replicas

The servers that share what is kept under `.lfsx`.  A bucket serves any number of them at once.
A volume is one pod's: its server may be replaced by another with the same process number (in
a container every server is number 1), but not while the first still runs.  So a process is a
number and how many had it before, and on a volume a process is not heard of again once a later
one of its number was (`Deployment.serves`).

A thread stages a file under a count it drew, and what it has on its hands until the file is
in its place is its own.  `Discipline` says what that is for one kind of file, and
`Discipline.Kept.step` what a step of one thread leaves the others: two that stage the same file
are one process and drew one count (`stagedPath_inj`).
-/

namespace Lfsx.Meta

open Request
open Files (Disk)
open Storage (LocalPath decimal)

/-- A process, by its number and how many had the number before it. -/
structure Process where
  number : Nat
  life : Nat
deriving DecidableEq

inductive Deployment where
  | volume
  | bucket
deriving DecidableEq

/-- What a process of a deployment keeps its files in. -/
def Deployment.backend (deployment : Deployment) (p : Process) : Backend :=
  match deployment with
  | volume => .local p.number
  | bucket => .bucket

/-- What the replicas share, and which life of each number was last heard of. -/
structure Cluster where
  store : World Process
  lives : Nat → Nat

/-- What a file holds for all of them. -/
def Deployment.holds (deployment : Deployment) (name : Text) (w : Cluster) : Option Bytes :=
  (deployment.backend ⟨0, 0⟩).holds name w.store

variable {ι : Type}

/-- On a volume, a process is heard of as long as no later one of its number was. -/
def Deployment.serves (deployment : Deployment) (process : ι → Process) (i : ι) :
    Semantics Req Resp Cluster :=
  fun r w answer w' =>
    Meta.serves process i r w.store answer w'.store ∧
      match deployment with
      | volume => w.lives (process i).number ≤ (process i).life ∧
          w'.lives = Function.update w.lives (process i).number (process i).life
      | bucket => w'.lives = w.lives

/-! ## Staged files -/

/-- Where a process of this number stages a file. -/
def stagedPath (name : Text) (number n : Nat) : LocalPath := pathOf (stagedName name number n)

theorem stagedPath_ne_pathOf (name : Text) (number n : Nat) :
    stagedPath name number n ≠ pathOf name := by
  intro h
  have hlength := congrArg (fun path => path.flatten.length) h
  simp [stagedPath, pathOf, stagedName] at hlength

/-- What stands before the first dot, and what stands after it. -/
theorem append_dot_inj {a b x y : Text} (ha : '.' ∉ a) (hb : '.' ∉ b)
    (h : a ++ '.' :: x = b ++ '.' :: y) : a = b ∧ x = y := by
  rcases List.append_eq_append_iff.mp h with ⟨c, rfl, hc⟩ | ⟨c, rfl, hc⟩
  · cases c with
    | nil => simpa using hc
    | cons d c =>
        rw [List.cons_append, List.cons.injEq] at hc
        exact absurd (by simp [← hc.1]) hb
  · cases c with
    | nil => simpa using hc.symm
    | cons d c =>
        rw [List.cons_append, List.cons.injEq] at hc
        exact absurd (by simp [← hc.1]) ha

/-- A staged name is of one number and one count. -/
theorem stagedPath_inj {name : Text} {number number' n n' : Nat}
    (h : stagedPath name number n = stagedPath name number' n') : number = number' ∧ n = n' := by
  simp only [stagedPath, pathOf, stagedName, List.cons.injEq, List.append_cancel_left_eq, true_and,
    and_true] at h
  obtain ⟨hnumber, hn⟩ :=
    append_dot_inj (Storage.dot_not_mem_decimal _) (Storage.dot_not_mem_decimal _) h
  exact ⟨Storage.decimal_inj hnumber, Storage.decimal_inj (List.append_cancel_right hn)⟩

/-! ## What is served -/

section

variable {ρ : Type} [DecidableEq ρ] {process : ι → ρ} {i : ι} {store store' : World ρ}
  {r : Files.Req Text} {answer : Files.Resp r}

/-- The disk changes as if every request was answered, lost or not. -/
theorem served_disk (h : serves process i (.disk r) store answer store') :
    store'.staged = store.staged ∧ store'.bucket = store.bucket ∧
      ∃ answer', Files.Faulty (fun _ => True) r store.disk answer' store'.disk := by
  obtain ⟨d, rfl, hdisk | ⟨-, answer', hdisk⟩⟩ := h
  · exact ⟨rfl, rfl, answer, hdisk⟩
  · exact ⟨rfl, rfl, answer', Or.inl hdisk⟩

/-- An answer that was not lost. -/
theorem served_answered (hanswered : ¬ Lost r answer)
    (h : serves process i (.disk r) store answer store') :
    Files.Faulty (fun _ => True) r store.disk answer store'.disk := by
  obtain ⟨d, rfl, hdisk | ⟨hlost, -⟩⟩ := h
  · exact hdisk
  · exact absurd hlost hanswered

omit [DecidableEq ρ] in
/-- Counts only go up. -/
theorem served_counts [DecidableEq ρ] {r : Req} {answer : Resp r}
    (h : serves process i r store answer store') (p : ρ) : store.staged p ≤ store'.staged p := by
  cases r with
  | disk r => exact (congrFun (served_disk h).1 p).ge
  | staged =>
      obtain ⟨-, rfl⟩ := h
      dsimp only
      by_cases hp : p = process i
      · rw [hp, Function.update_self]
        exact Nat.le_succ _
      · rw [Function.update_of_ne hp]
  | bucket r =>
      obtain ⟨b, rfl, -⟩ := h
      rfl
  | put key bytes =>
      rcases h with ⟨-, rfl⟩ | ⟨version, hfresh, rfl⟩
      · rfl
      · rfl
  | delete key =>
      rcases h with ⟨-, rfl⟩ | rfl
      · rfl
      · rfl

end

/-! ## A read -/

section

variable {ι : Type} {deployment : Deployment} {process : ι → Process} {k : ι} {w : Cluster}

/-- A read gives what the file holds, and leaves everything. -/
theorem readMeta_alone (name : Text) :
    ((deployment.backend (process k)).readMeta name).Alone (deployment.serves process k)
      (fun _ _ => True) (fun bytes w' => bytes = deployment.holds name w ∧ w'.store = w.store)
      (fun _ => True) w := by
  cases deployment with
  | bucket =>
      intro w₁ h₁ answer w₂ hexec
      obtain rfl := Fallible.eq_of_never h₁
      obtain ⟨⟨b, hstore, hb⟩, -⟩ := hexec
      rcases hb with ⟨rfl, rfl⟩ | ⟨⟨e, rfl⟩, -⟩
      · exact ⟨trivial, Fallible.Alone.pure ⟨rfl, hstore⟩⟩
      · exact ⟨trivial, Fallible.Alone.throw trivial⟩
  | volume =>
      intro w₁ h₁ answer w₂ hexec
      obtain rfl := Fallible.eq_of_never h₁
      refine ⟨trivial, ?_⟩
      obtain ⟨⟨d, hstore, hopened⟩, -⟩ := hexec
      rcases hopened with (⟨rfl, rfl⟩ | ⟨-, rfl, rfl⟩) | ⟨rfl, -⟩
      · cases hinode : w₁.store.disk.inode (pathOf name) with
        | none =>
            refine Fallible.Alone.pure ⟨?_, hstore⟩
            show none = (w₁.store.disk.find (pathOf name)).map Files.File.bytes
            rw [Files.Disk.find, hinode]
            rfl
        | some handle =>
            intro w₃ h₃ answer w₄ hexec'
            obtain rfl := Fallible.eq_of_never h₃
            refine ⟨trivial, ?_⟩
            obtain ⟨⟨d', hstore', hread⟩, -⟩ := hexec'
            obtain ⟨file, hfile⟩ := Files.Disk.exists_file hinode
            rcases hread with (⟨rfl, rfl⟩ | ⟨-, rfl, rfl⟩) | ⟨rfl, -⟩
            · rw [hstore] at hstore' ⊢
              rw [hfile]
              refine Fallible.Alone.pure ⟨?_, hstore'⟩
              show some file.bytes = (w₁.store.disk.find (pathOf name)).map Files.File.bytes
              rw [Files.Disk.find, hinode, Option.bind_some, hfile]
              rfl
            · exact Fallible.Alone.throw trivial
            · exact Fallible.Alone.throw trivial
      · exact Fallible.Alone.throw trivial
      · exact Fallible.Alone.throw trivial

end

/-! ## Threads that stage -/

/-- What a thread that stages a file has on its hands. -/
structure Discipline (σ : Type) where
  /-- Nothing yet. -/
  Idle : σ → Prop
  /-- The count it stages under. -/
  number? : σ → Option Nat
  /-- What holds of it as long as its process is still going. -/
  Working : Process → World Process → σ → Prop
  idle : ∀ {p store hands}, Idle hands → Working p store hands

/-- What the threads have on their hands is theirs. -/
structure Discipline.Kept {σ : Type} (D : Discipline σ) (process : ι → Process) (w : Cluster)
    (hands : ι → σ) : Prop where
  begun : ∀ i, ¬ D.Idle (hands i) → (process i).life ≤ w.lives (process i).number
  drawn : ∀ i n, D.number? (hands i) = some n → n < w.store.staged (process i)
  /-- A count is drawn once. -/
  distinct : ∀ i j n, process i = process j → D.number? (hands i) = some n →
    D.number? (hands j) = some n → i = j
  working : ∀ i, w.lives (process i).number = (process i).life →
    D.Working (process i) w.store (hands i)

/-- Nothing one thread has on its hands is staged under what another one stages under. -/
structure Discipline.Apart {σ : Type} (D : Discipline σ) (p q : Process) (store : World Process)
    (mine theirs : σ) : Prop where
  distinct : ∀ m n, D.number? mine = some m → D.number? theirs = some n →
    p.number = q.number → m ≠ n
  drawn : ∀ n, D.number? theirs = some n → p.number = q.number → n < store.staged p

namespace Discipline.Kept

variable {σ : Type} {D : Discipline σ} {process : ι → Process} {w w' : Cluster} {hands : ι → σ}
  {i : ι} {r : Req} {answer : Resp r}

/-- A thread that is answered is still going. -/
theorem own (hw : D.Kept process w hands)
    (hstep : Deployment.volume.serves process i r w answer w') :
    D.Working (process i) w.store (hands i) := by
  by_cases hidle : D.Idle (hands i)
  · exact D.idle hidle
  · exact hw.working i (le_antisymm hstep.2.1 (hw.begun i hidle))

/-- One that is still going after another was answered was so before, and of two with one
number that are, both are one process. -/
theorem going (hw : D.Kept process w hands)
    (hstep : Deployment.volume.serves process i r w answer w') {j : ι}
    (hidle : ¬ D.Idle (hands j)) (hgoing : w'.lives (process j).number = (process j).life) :
    w.lives (process j).number = (process j).life ∧
      ((process j).number = (process i).number → process j = process i) := by
  obtain ⟨-, hle, hlives⟩ := hstep
  rw [hlives] at hgoing
  by_cases hnumber : (process j).number = (process i).number
  · rw [hnumber, Function.update_self] at hgoing
    have hsame : process j = process i := by
      cases hj : process j
      cases hi : process i
      simp_all
    have hbegun := hw.begun j hidle
    rw [hsame] at hbegun ⊢
    exact ⟨le_antisymm hle hbegun, fun _ => rfl⟩
  · rw [Function.update_of_ne hnumber] at hgoing
    exact ⟨hgoing, fun h => absurd h hnumber⟩

/-- **One step.**  The thread keeps its own, and the others keep theirs of any step that keeps
apart. -/
theorem step [DecidableEq ι] (hw : D.Kept process w hands)
    (hstep : Deployment.volume.serves process i r w answer w') {after : σ}
    (hworking : D.Working (process i) w'.store after)
    (hnumber : ∀ n, D.number? after = some n → D.number? (hands i) = some n ∨
      n = w.store.staged (process i) ∧ w'.store.staged (process i) = n + 1)
    (hbeside : ∀ j, D.Working (process j) w.store (hands j) →
      D.Apart (process j) (process i) w.store (hands j) (hands i) →
        D.Working (process j) w'.store (hands j)) :
    D.Kept process w' (Function.update hands i after) := by
  have hcount := served_counts hstep.1
  constructor
  case begun =>
    intro j hidle
    obtain ⟨-, hle, hlives⟩ := hstep
    rw [hlives]
    by_cases hj : j = i
    · rw [hj, Function.update_self]
    · rw [Function.update_of_ne hj] at hidle
      by_cases hsame : (process j).number = (process i).number
      · rw [hsame, Function.update_self]
        exact (hw.begun j hidle).trans (hsame ▸ hle)
      · rw [Function.update_of_ne hsame]
        exact hw.begun j hidle
  case drawn =>
    intro j n hn
    by_cases hj : j = i
    · subst hj
      rw [Function.update_self] at hn
      rcases hnumber n hn with hold | ⟨rfl, hnew⟩
      · exact (hw.drawn j n hold).trans_le (hcount _)
      · exact Nat.lt_of_succ_le hnew.ge
    · rw [Function.update_of_ne hj] at hn
      exact (hw.drawn j n hn).trans_le (hcount _)
  case distinct =>
    -- A count that was just drawn is past every count that was drawn before.
    have hfresh : ∀ j n, process i = process j → D.number? after = some n →
        D.number? (hands j) = some n → D.number? (hands i) = some n := by
      intro j n hsame hi hn
      rcases hnumber n hi with hold | ⟨rfl, -⟩
      · exact hold
      · exact absurd (hsame ▸ hw.drawn j _ hn) (lt_irrefl _)
    intro j k n hsame hj hk
    by_cases hij : j = i
    · by_cases hik : k = i
      · exact hij.trans hik.symm
      · subst hij
        rw [Function.update_self] at hj
        rw [Function.update_of_ne hik] at hk
        exact hw.distinct j k n hsame (hfresh k n hsame hj hk) hk
    · rw [Function.update_of_ne hij] at hj
      by_cases hik : k = i
      · subst hik
        rw [Function.update_self] at hk
        exact hw.distinct j k n hsame hj (hfresh j n hsame.symm hk hj)
      · rw [Function.update_of_ne hik] at hk
        exact hw.distinct j k n hsame hj hk
  case working =>
    intro j hgoing
    by_cases hj : j = i
    · subst hj
      rw [Function.update_self]
      exact hworking
    · rw [Function.update_of_ne hj]
      by_cases hidle : D.Idle (hands j)
      · exact D.idle hidle
      · obtain ⟨hwas, hone⟩ := hw.going hstep hidle hgoing
        refine hbeside j (hw.working j hwas) ⟨fun m n hm hn hsame heq => ?_, fun n hn hsame => ?_⟩
        · subst heq
          exact hj (hw.distinct j i m (hone hsame) hm hn)
        · rw [hone hsame]
          exact hw.drawn i n hn

end Discipline.Kept

end Lfsx.Meta
