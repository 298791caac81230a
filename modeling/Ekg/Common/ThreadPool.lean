import Mathlib.Data.List.Perm.Basic
import Ekg.Lib.Steps

/-!
# The thread pool

`BS::thread_pool` has one queue and a fixed number of threads.  `push_task` appends a task to the
queue; an idle thread takes the task at the front, under the lock of the queue, and runs it without
the lock.  So tasks start in the order in which they were pushed, but how long each of them is
under way is for the scheduler of the operating system to say.

Three facts are proved about every complete run: every task is run exactly once
(`ThreadPool.perm_of_run`); a single thread runs the tasks in order (`ThreadPool.done_of_one`); and
with two threads or more, any task can be the last to finish (`ThreadPool.exists_run_delayed`).
-/

set_option autoImplicit false

namespace Ekg

open Steps

universe u

/-- A pool, and the tasks that are still to be pushed. -/
structure ThreadPool (α : Type u) where
  /-- What will be pushed, in this order. -/
  incoming : List α
  /-- `tasks`: the queue. -/
  tasks : List α := []
  /-- The tasks that a thread has taken and not finished. -/
  busy : List α := []
  /-- The finished tasks, in the order in which they finished. -/
  done : List α := []
  deriving DecidableEq, Repr

namespace ThreadPool

/-- What can happen next. -/
inductive Action
  /-- `push_task`. -/
  | push
  /-- A thread takes the task at the front of the queue. -/
  | take
  /-- The `k`-th of the tasks that are under way is finished. -/
  | finish (k : ℕ)
  deriving DecidableEq, Repr

/-- `determine_thread_count`, on a machine that reports `hardwareConcurrency`. -/
def determineThreadCount (hardwareConcurrency threadCount : ℕ) : ℕ :=
  if threadCount > 0 then threadCount
  else if hardwareConcurrency > 0 then hardwareConcurrency
  else 1

variable {α : Type u}

/-- One action of a pool of `threadCount` threads. -/
def step (threadCount : ℕ) (p : ThreadPool α) : Action → Option (ThreadPool α)
  | .push =>
    match p.incoming with
    | [] => none
    | t :: incoming => some { p with incoming, tasks := p.tasks ++ [t] }
  | .take =>
    match p.tasks with
    | [] => none
    | t :: tasks =>
      if p.busy.length < threadCount then some { p with tasks, busy := p.busy ++ [t] } else none
  | .finish k =>
    (p.busy[k]?).map fun t ↦ { p with busy := p.busy.eraseIdx k, done := p.done ++ [t] }

/-- All the tasks have been pushed and are finished. -/
def Idle (p : ThreadPool α) : Prop := p.incoming = [] ∧ p.tasks = [] ∧ p.busy = []

/-- All the tasks there are, those that have got furthest first. -/
def all (p : ThreadPool α) : List α := p.done ++ p.busy ++ p.tasks ++ p.incoming

theorem Idle.all {p : ThreadPool α} (h : p.Idle) : p.all = p.done := by
  rw [ThreadPool.all, h.1, h.2.1, h.2.2]
  simp

variable {threadCount : ℕ} {p q : ThreadPool α} {a : Action}

/-- **What an action does.** -/
theorem step_cases (h : step threadCount p a = some q) :
    (∃ t incoming, p.incoming = t :: incoming ∧
      q = { p with incoming, tasks := p.tasks ++ [t] }) ∨
    (∃ t tasks, p.tasks = t :: tasks ∧ p.busy.length < threadCount ∧
      q = { p with tasks, busy := p.busy ++ [t] }) ∨
    ∃ k t, p.busy[k]? = some t ∧
      q = { p with busy := p.busy.eraseIdx k, done := p.done ++ [t] } := by
  cases a with
  | push =>
    simp only [step] at h
    split at h
    · cases h
    · rename_i t incoming hin
      cases h
      exact Or.inl ⟨t, incoming, hin, rfl⟩
  | take =>
    simp only [step] at h
    split at h
    · cases h
    · rename_i t tasks htasks
      split at h
      · rename_i hlt
        cases h
        exact Or.inr (Or.inl ⟨t, tasks, htasks, hlt, rfl⟩)
      · cases h
  | finish k =>
    obtain ⟨t, ht, rfl⟩ := Option.map_eq_some_iff.mp h
    exact Or.inr (Or.inr ⟨k, t, ht, rfl⟩)

theorem perm_all_step (h : step threadCount p a = some q) : q.all.Perm p.all := by
  rcases step_cases h with ⟨t, incoming, hin, rfl⟩ | ⟨t, tasks, htasks, -, rfl⟩ | ⟨k, t, hk, rfl⟩
  · simp [all, hin]
  · simp [all, htasks]
  · -- the finished task moves from the middle of `busy` to the end of `done`
    have hbusy : (t :: p.busy.eraseIdx k).Perm p.busy := by
      obtain ⟨hlt, rfl⟩ := List.getElem?_eq_some_iff.mp hk
      exact List.getElem_cons_eraseIdx_perm hlt
    simpa [all] using (hbusy.append_right (p.tasks ++ p.incoming)).append_left p.done

/-- Every task is run exactly once. -/
theorem perm_of_run {tasks : List α} {acts : List Action}
    (h : run (step threadCount) { incoming := tasks } acts = some q) (hidle : q.Idle) :
    q.done.Perm tasks := by
  have hall := run_invariant (P := fun r ↦ r.all.Perm tasks)
    (fun r a r' hr hP ↦ (perm_all_step hr).trans hP) h (List.Perm.refl _)
  rwa [hidle.all] at hall

/-- A single thread finishes what it has taken before it takes anything else. -/
theorem all_step_of_one (h : step 1 p a = some q) (hp : p.busy.length ≤ 1) :
    q.all = p.all ∧ q.busy.length ≤ 1 := by
  rcases step_cases h with ⟨t, incoming, hin, rfl⟩ | ⟨t, tasks, htasks, hlt, rfl⟩ | ⟨k, t, hk, rfl⟩
  · exact ⟨by simp [all, hin], hp⟩
  · have hbusy : p.busy = [] := List.eq_nil_of_length_eq_zero (Nat.lt_one_iff.mp hlt)
    simp [all, htasks, hbusy]
  · obtain ⟨hlt, rfl⟩ := List.getElem?_eq_some_iff.mp hk
    obtain ⟨x, hx⟩ := List.length_eq_one_iff.mp (Nat.le_antisymm hp (by omega))
    have hk0 : k = 0 := by omega
    subst hk0
    simp [all, hx]

/-- **A single thread runs the tasks in the order in which they were pushed.** -/
theorem done_of_one {tasks : List α} {acts : List Action}
    (h : run (step 1) { incoming := tasks } acts = some q) (hidle : q.Idle) : q.done = tasks := by
  have hall := run_invariant (P := fun r ↦ r.all = tasks ∧ r.busy.length ≤ 1)
    (fun r a r' hr hP ↦ by
      obtain ⟨heq, hle⟩ := all_step_of_one hr hP.2
      exact ⟨heq.trans hP.1, hle⟩) h ⟨rfl, by simp⟩
  rw [← hidle.all, hall.1]

/-! ## A task that is delayed -/

theorem run_push (threadCount : ℕ) (new tasks busy done : List α) :
    run (step threadCount) ⟨new, tasks, busy, done⟩ (new.map fun _ ↦ .push) =
      some ⟨[], tasks ++ new, busy, done⟩ := by
  induction new generalizing tasks with
  | nil => simp
  | cons t new ih =>
    rw [List.map_cons, run_cons]
    refine (ih (tasks ++ [t])).trans ?_
    simp

/-- One free thread is enough to run tasks from the queue, whatever the other threads hold. -/
theorem run_through (busy : List α) (hfree : busy.length < threadCount)
    (new tasks done : List α) :
    run (step threadCount) ⟨[], new ++ tasks, busy, done⟩
        (new.flatMap fun _ ↦ [.take, .finish busy.length]) =
      some ⟨[], tasks, busy, done ++ new⟩ := by
  induction new generalizing done with
  | nil => simp
  | cons t new ih =>
    have htake : step threadCount ⟨[], t :: (new ++ tasks), busy, done⟩ .take =
        some ⟨[], new ++ tasks, busy ++ [t], done⟩ := by simp [step, hfree]
    have hfinish : step threadCount ⟨[], new ++ tasks, busy ++ [t], done⟩
        (.finish busy.length) = some ⟨[], new ++ tasks, busy, done ++ [t]⟩ := by
      simp [step, List.eraseIdx_append_of_length_le]
    rw [List.flatMap_cons, List.cons_append, List.cons_append, List.cons_append, run_cons, htake,
      Option.bind_some, run_cons, hfinish, Option.bind_some, List.nil_append, ih]
    simp

/-- **With two threads, any task can be the last to finish**: one thread holds it while the other
runs all the rest. -/
theorem exists_run_delayed (hthreads : 2 ≤ threadCount) (before after : List α) (t : α) :
    ∃ acts q, run (step threadCount) { incoming := before ++ t :: after } acts = some q ∧
      q.Idle ∧ q.done = before ++ after ++ [t] := by
  have hfree : 0 < threadCount := Nat.lt_of_lt_of_le Nat.zero_lt_two hthreads
  have htake : step threadCount ⟨[], t :: after, [], before⟩ .take =
      some ⟨[], after, [t], before⟩ := by
    simp [step, hfree]
  have hfinish : step threadCount ⟨[], [], [t], before ++ after⟩ (.finish 0) =
      some ⟨[], [], [], before ++ after ++ [t]⟩ := by
    simp [step]
  have hpush := run_push threadCount (before ++ t :: after) [] [] []
  have hbefore := run_through [] hfree before (t :: after) []
  have hafter := run_through [t] hthreads after [] before
  rw [List.append_nil] at hafter
  refine ⟨(before ++ t :: after).map (fun _ ↦ .push) ++
    (before.flatMap (fun _ ↦ [.take, .finish 0]) ++
      .take :: (after.flatMap (fun _ ↦ [.take, .finish 1]) ++ [.finish 0])),
    ⟨[], [], [], before ++ after ++ [t]⟩, ?_, ⟨rfl, rfl, rfl⟩, rfl⟩
  calc run (step threadCount) { incoming := before ++ t :: after } _
    _ = run (step threadCount) ⟨[], before ++ t :: after, [], []⟩ _ :=
      run_append_of_eq_some hpush
    _ = run (step threadCount) ⟨[], t :: after, [], before⟩ _ := run_append_of_eq_some hbefore
    _ = run (step threadCount) ⟨[], after, [t], before⟩ _ := by
      rw [run_cons, htake, Option.bind_some]
      rfl
    _ = run (step threadCount) ⟨[], [], [t], before ++ after⟩ [.finish 0] :=
      run_append_of_eq_some hafter
    _ = some ⟨[], [], [], before ++ after ++ [t]⟩ := by
      rw [run_cons, hfinish, Option.bind_some, run_nil]

end ThreadPool

end Ekg
