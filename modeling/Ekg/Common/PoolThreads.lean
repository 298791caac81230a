import Ekg.Common.ThreadPool
import Ekg.Lib.ListSet
import Ekg.Lib.Mutex

/-!
# The threads of the thread pool

`ThreadPool` says what a pool is for.  Here is `BS::thread_pool` as it is written, one access to
what the threads share after the other: the queue under `tasks_mutex`, the counter `tasks_total` and
the three flags, which are atomic, and the two condition variables.

Four kinds of threads take part.  The workers run `worker`.  A thread that pushes a task is a pusher
for as long as `push_task` takes; there may be any number of them at a time.  One thread, the
manager, constructs the pool, waits for its tasks, resets it and destroys it.  And anybody may set
and clear `paused` at any time.  A wait may end without a notification, as the standard allows, but
such a step has a name of its own, so that one can ask what happens without it.

The tasks are taken to return.  `tasks_total` is an integer here; it is the difference of two
counters, and does go below zero.  The predicate of `wait_for_tasks` compares it with what `paused`
selects, and the two are read one after the other.
-/

set_option autoImplicit false

namespace Ekg

open Steps

universe u

/-- Where a thread is in `worker`. -/
inductive WorkerPoint (α : Type u)
  /-- Before the condition of the loop. -/
  | looping
  /-- Before the lock of `tasks_mutex`. -/
  | locking
  /-- Before a look at the predicate of the wait. -/
  | testing
  /-- The predicate was false: before the wait gives `tasks_mutex` up. -/
  | releasing
  /-- In the wait, without `tasks_mutex`. -/
  | blocked (notified : Bool)
  /-- The predicate was true: before the look at `running`. -/
  | woken
  /-- Before the look at `paused`. -/
  | permitted
  /-- Before `tasks.front()`. -/
  | taking
  | executing (task : α)
  /-- The task has returned: before the lock of `tasks_mutex`. -/
  | relocking
  /-- Before `--tasks_total`. -/
  | counting
  /-- Before the look at `waiting`. -/
  | reporting
  | ended
  /-- `front` was called on an empty queue. -/
  | undefined
  deriving DecidableEq, Repr

namespace WorkerPoint

variable {α : Type u}

/-- At this point a worker holds `tasks_mutex`. -/
def holds : WorkerPoint α → Bool
  | testing | releasing | woken | permitted | taking | counting | reporting | undefined => true
  | _ => false

/-- At this point a worker waits, and nobody has notified it. -/
def asleep : WorkerPoint α → Bool
  | blocked notified => !notified
  | _ => false

theorem eq_of_asleep {point : WorkerPoint α} (h : point.asleep = true) :
    point = .blocked false := by
  cases point with
  | blocked notified => simpa [asleep] using h
  | _ => cases h

/-- At this point a worker is through. -/
def isEnded : WorkerPoint α → Bool
  | ended => true
  | _ => false

theorem eq_of_isEnded {point : WorkerPoint α} (h : point.isEnded = true) : point = .ended := by
  cases point with
  | ended => rfl
  | _ => cases h

/-- The task that a worker has taken and not finished. -/
def task? : WorkerPoint α → Option α
  | executing task => some task
  | _ => none

/-- At this point a worker has taken a task that it has not counted as finished. -/
def uncounted : WorkerPoint α → Bool
  | executing _ | relocking | counting => true
  | _ => false

end WorkerPoint

/-- Where a thread is in `push_task`. -/
inductive PusherPoint (α : Type u)
  /-- Before the lock of `tasks_mutex`. -/
  | locking (task : α)
  /-- Before `tasks.push`. -/
  | pushing (task : α)
  /-- Before `++tasks_total`. -/
  | counting
  /-- Before `notify_one`. -/
  | notifying
  | returned
  deriving DecidableEq, Repr

namespace PusherPoint

variable {α : Type u}

/-- At this point a pusher holds `tasks_mutex`. -/
def holds : PusherPoint α → Bool
  | pushing _ => true
  | _ => false

/-- The task that a pusher has still to push. -/
def task? : PusherPoint α → Option α
  | locking task | pushing task => some task
  | _ => none

/-- At this point a pusher has pushed its task, and has not counted it. -/
def uncounted : PusherPoint α → Bool
  | counting => true
  | _ => false

/-- At this point a pusher has pushed its task, and has not notified a worker. -/
def pending : PusherPoint α → Bool
  | counting | notifying => true
  | _ => false

end PusherPoint

/-- What the manager does after `wait_for_tasks` and `destroy_threads`. -/
inductive PoolEnding
  /-- `reset`, with its argument, and with what `paused` was before. -/
  | resetting (threadCount : ℕ) (wasPaused : Bool)
  /-- The destructor. -/
  | destructing
  deriving DecidableEq, Repr

def PoolEnding.isResetting : PoolEnding → Bool
  | resetting _ _ => true
  | destructing => false

/-- Where the manager is. -/
inductive ManagerPoint
  | idle
  /-- In `reset`, which has looked at `paused`, before `paused = true`. -/
  | pausing (threadCount : ℕ) (wasPaused : Bool)
  /-- In `wait_for_tasks`, before `waiting = true`. -/
  | waitEntering (next : Option PoolEnding)
  /-- Before the lock of `tasks_mutex`. -/
  | waitLocking (next : Option PoolEnding)
  /-- Before a look at the predicate of the wait, which reads `tasks_total` first. -/
  | waitTesting (next : Option PoolEnding)
  /-- Before the look at `paused`, after which the predicate is known. -/
  | waitComparing (tasksTotal : ℤ) (next : Option PoolEnding)
  /-- The predicate was false: before the wait gives `tasks_mutex` up. -/
  | waitReleasing (next : Option PoolEnding)
  /-- In the wait, without `tasks_mutex`. -/
  | waitBlocked (notified : Bool) (next : Option PoolEnding)
  /-- The predicate was true: before `waiting = false`. -/
  | waitLeaving (next : Option PoolEnding)
  /-- In `destroy_threads`, before `running = false`. -/
  | stopping (next : PoolEnding)
  /-- Before `notify_all`. -/
  | notifying (next : PoolEnding)
  /-- Before all the threads are joined. -/
  | joining (next : PoolEnding)
  /-- In `reset`, before `paused = was_paused`. -/
  | restoring (wasPaused : Bool)
  /-- In `create_threads`, before `running = true`. -/
  | starting
  /-- Before the condition of the loop that creates the threads, the next one being `threads[i]`. -/
  | creating (i : ℕ)
  | destroyed
  deriving DecidableEq, Repr

/-- At this point the manager holds `tasks_mutex`. -/
def ManagerPoint.holds : ManagerPoint → Bool
  | waitTesting _ | waitComparing _ _ | waitReleasing _ | waitLeaving _ => true
  | _ => false

/-- At this point the manager is in `wait_for_tasks`. -/
def ManagerPoint.waits : ManagerPoint → Bool
  | waitEntering _ | waitLocking _ | waitTesting _ | waitComparing _ _ | waitReleasing _
  | waitBlocked _ _ | waitLeaving _ => true
  | _ => false

/-- At this point the threads of the pool are to run. -/
def ManagerPoint.up : ManagerPoint → Bool
  | notifying _ | joining _ | restoring _ | starting | destroyed => false
  | _ => true

/-- What is still to come of the call that the manager is in. -/
def ManagerPoint.next? : ManagerPoint → Option PoolEnding
  | waitEntering next | waitLocking next | waitTesting next | waitComparing _ next
  | waitReleasing next | waitBlocked _ next | waitLeaving next => next
  | pausing threadCount wasPaused => some (.resetting threadCount wasPaused)
  | stopping next | notifying next | joining next => some next
  | _ => none

/-- `reset` is under way, and has not come to `create_threads`. -/
def ManagerPoint.resets : ManagerPoint → Bool
  | restoring _ => true
  | point => point.next?.any PoolEnding.isResetting

/-- `task_done_cv.notify_one()`: it is lost, unless the manager is in the wait. -/
def ManagerPoint.notify : ManagerPoint → ManagerPoint
  | waitBlocked _ next => waitBlocked true next
  | point => point

/-- A thread that may hold `tasks_mutex`. -/
inductive PoolThread
  | worker (i : ℕ)
  | pusher (i : ℕ)
  | manager
  deriving DecidableEq, Repr

/-- A `BS::thread_pool`, and the threads that are at it. -/
structure PoolThreads (α : Type u) where
  threadCount : ℕ
  tasks : List α := []
  tasksTotal : ℤ := 0
  paused : Bool := false
  running : Bool := false
  waiting : Bool := false
  /-- The thread that holds `tasks_mutex`. -/
  owner : Option PoolThread := none
  workers : List (WorkerPoint α) := []
  pushers : List (PusherPoint α) := []
  manager : ManagerPoint
  /-- The tasks that were pushed, in this order. -/
  pushed : List α := []
  /-- The tasks that were taken from the queue, in this order. -/
  taken : List α := []
  /-- The tasks that have returned, in this order. -/
  done : List α := []
  deriving DecidableEq, Repr

/-- What the manager may call. -/
inductive PoolCall
  | waitForTasks
  | reset (threadCount : ℕ)
  | destruct
  deriving DecidableEq, Repr

/-- Something happens. -/
inductive PoolAction (α : Type u)
  /-- Worker `i` goes on. -/
  | worker (i : ℕ)
  /-- The wait of worker `i` ends, though nobody has notified it. -/
  | wakeWorker (i : ℕ)
  /-- Some thread calls `push_task`. -/
  | pushTask (task : α)
  /-- Pusher `i` goes on; if it notifies a worker, then it is the worker `woken`. -/
  | pusher (i woken : ℕ)
  /-- `pause` or `unpause`. -/
  | setPaused (paused : Bool)
  | call (call : PoolCall)
  /-- The manager goes on. -/
  | manager
  /-- The wait of the manager ends, though nobody has notified it. -/
  | wakeManager
  deriving DecidableEq, Repr

/-- The task that is passed to `push_task`. -/
def PoolAction.task? {α : Type u} : PoolAction α → Option α
  | pushTask task => some task
  | _ => none

namespace PoolThreads

variable {α : Type u}

/-- The constructor, on a machine that reports `hardwareConcurrency`, before it creates threads. -/
def construct (hardwareConcurrency threadCount : ℕ) : PoolThreads α where
  threadCount := ThreadPool.determineThreadCount hardwareConcurrency threadCount
  manager := .starting

/-- The predicate of the wait in `worker`. -/
def taskAvailable (s : PoolThreads α) : Bool := s.tasks.length != 0 || !s.running

/-- The predicate of the wait in `wait_for_tasks`, after `tasks_total` was read. -/
def tasksDone (s : PoolThreads α) (tasksTotal : ℤ) : Bool :=
  tasksTotal == (if s.paused then s.tasks.length else 0 : ℕ)

/-- `task_available_cv.notify_one()`: it wakes some worker that is in the wait, if there is one. -/
def notifyWorker (woken : ℕ) (s : PoolThreads α) : Option (PoolThreads α) :=
  if s.workers.any WorkerPoint.asleep then
    if (s.workers[woken]?).any WorkerPoint.asleep then
      some { s with workers := s.workers.set woken (.blocked true) }
    else none
  else some s

/-- `task_available_cv.notify_all()`, for one worker. -/
def wakeUp : WorkerPoint α → WorkerPoint α
  | .blocked _ => .blocked true
  | point => point

/-- The next step of worker `i`, if it is not through and does not have to wait. -/
def advanceWorker (i : ℕ) (s : PoolThreads α) :
    WorkerPoint α → Option (WorkerPoint α × PoolThreads α)
  | .looping => some (if s.running then .locking else .ended, s)
  | .locking =>
    if s.owner = none then some (.testing, { s with owner := some (.worker i) }) else none
  | .testing => some (if s.taskAvailable then .woken else .releasing, s)
  | .releasing => some (.blocked false, { s with owner := none })
  | .blocked notified => if notified then some (.locking, s) else none
  | .woken => if s.running then some (.permitted, s) else some (.looping, { s with owner := none })
  | .permitted => if s.paused then some (.looping, { s with owner := none }) else some (.taking, s)
  | .taking =>
    match s.tasks with
    | [] => some (.undefined, s)
    | task :: tasks =>
      some (.executing task, { s with tasks, taken := s.taken ++ [task], owner := none })
  | .executing task => some (.relocking, { s with done := s.done ++ [task] })
  | .relocking =>
    if s.owner = none then some (.counting, { s with owner := some (.worker i) }) else none
  | .counting => some (.reporting, { s with tasksTotal := s.tasksTotal - 1 })
  | .reporting =>
    some (.looping,
      { s with manager := if s.waiting then s.manager.notify else s.manager, owner := none })
  | .ended => none
  | .undefined => none

/-- The next step of pusher `i`, if it is not through and does not have to wait. -/
def advancePusher (i woken : ℕ) (s : PoolThreads α) :
    PusherPoint α → Option (PusherPoint α × PoolThreads α)
  | .locking task =>
    if s.owner = none then some (.pushing task, { s with owner := some (.pusher i) }) else none
  | .pushing task =>
    some (.counting,
      { s with tasks := s.tasks ++ [task], pushed := s.pushed ++ [task], owner := none })
  | .counting => some (.notifying, { s with tasksTotal := s.tasksTotal + 1 })
  | .notifying => (s.notifyWorker woken).map fun s ↦ (.returned, s)
  | .returned => none

/-- The next step of the manager, if it is in a call and does not have to wait. -/
def advanceManager (hardwareConcurrency : ℕ) (s : PoolThreads α) : Option (PoolThreads α) :=
  match s.manager with
  | .idle => none
  | .pausing threadCount wasPaused =>
    some { s with
      paused := true
      manager := .waitEntering (some (.resetting threadCount wasPaused)) }
  | .waitEntering next => some { s with waiting := true, manager := .waitLocking next }
  | .waitLocking next =>
    if s.owner = none then some { s with owner := some .manager, manager := .waitTesting next }
    else none
  | .waitTesting next => some { s with manager := .waitComparing s.tasksTotal next }
  | .waitComparing tasksTotal next =>
    some { s with
      manager := if s.tasksDone tasksTotal then .waitLeaving next else .waitReleasing next }
  | .waitReleasing next => some { s with owner := none, manager := .waitBlocked false next }
  | .waitBlocked notified next => if notified then some { s with manager := .waitLocking next }
    else none
  | .waitLeaving next =>
    some { s with
      waiting := false
      owner := none
      manager := match next with
        | none => .idle
        | some next => .stopping next }
  | .stopping next => some { s with running := false, manager := .notifying next }
  | .notifying next => some { s with workers := s.workers.map wakeUp, manager := .joining next }
  | .joining next =>
    if s.workers.all WorkerPoint.isEnded then
      match next with
      | .resetting threadCount wasPaused =>
        some { s with
          threadCount := ThreadPool.determineThreadCount hardwareConcurrency threadCount
          workers := []
          manager := .restoring wasPaused }
      | .destructing => some { s with workers := [], manager := .destroyed }
    else none
  | .restoring wasPaused => some { s with paused := wasPaused, manager := .starting }
  | .starting => some { s with running := true, manager := .creating 0 }
  | .creating i =>
    if i < s.threadCount then
      some { s with workers := s.workers ++ [.looping], manager := .creating (i + 1) }
    else some { s with manager := .idle }
  | .destroyed => none

/-- The start of a call of the manager. -/
def beginCall (s : PoolThreads α) : PoolCall → PoolThreads α
  | .waitForTasks => { s with manager := .waitEntering none }
  | .reset threadCount => { s with manager := .pausing threadCount s.paused }
  | .destruct => { s with manager := .waitEntering (some .destructing) }

/-- One step. -/
def step (hardwareConcurrency : ℕ) (s : PoolThreads α) : PoolAction α → Option (PoolThreads α)
  | .worker i => (s.workers[i]?).bind fun point ↦ (advanceWorker i s point).map fun r ↦
      { r.2 with workers := r.2.workers.set i r.1 }
  | .wakeWorker i =>
    if (s.workers[i]?).any WorkerPoint.asleep then
      some { s with workers := s.workers.set i .locking }
    else none
  | .pushTask task => some { s with pushers := s.pushers ++ [.locking task] }
  | .pusher i woken => (s.pushers[i]?).bind fun point ↦ (advancePusher i woken s point).map fun r ↦
      { r.2 with pushers := r.2.pushers.set i r.1 }
  | .setPaused paused => some { s with paused }
  | .call call => if s.manager = .idle then some (s.beginCall call) else none
  | .manager => s.advanceManager hardwareConcurrency
  | .wakeManager =>
    match s.manager with
    | .waitBlocked false next => some { s with manager := .waitLocking next }
    | _ => none

variable {hardwareConcurrency threadCount i woken : ℕ} {s r t : PoolThreads α}
  {point point' : WorkerPoint α} {place place' : PusherPoint α} {a : PoolAction α}
  {sched : List (PoolAction α)}

/-! ## One step -/

theorem step_worker_eq_some :
    step hardwareConcurrency s (.worker i) = some t ↔
      ∃ point point' r, s.workers[i]? = some point ∧
        advanceWorker i s point = some (point', r) ∧
        t = { r with workers := r.workers.set i point' } := by
  simp only [step, Option.bind_eq_some_iff, Option.map_eq_some_iff, Prod.exists]
  constructor
  · rintro ⟨point, hpoint, point', r, hadv, rfl⟩
    exact ⟨point, point', r, hpoint, hadv, rfl⟩
  · rintro ⟨point, point', r, hpoint, hadv, rfl⟩
    exact ⟨point, hpoint, point', r, hadv, rfl⟩

theorem step_pusher_eq_some :
    step hardwareConcurrency s (.pusher i woken) = some t ↔
      ∃ place place' r, s.pushers[i]? = some place ∧
        advancePusher i woken s place = some (place', r) ∧
        t = { r with pushers := r.pushers.set i place' } := by
  simp only [step, Option.bind_eq_some_iff, Option.map_eq_some_iff, Prod.exists]
  constructor
  · rintro ⟨place, hpusher, place', r, hadv, rfl⟩
    exact ⟨place, place', r, hpusher, hadv, rfl⟩
  · rintro ⟨place, place', r, hpusher, hadv, rfl⟩
    exact ⟨place, hpusher, place', r, hadv, rfl⟩

theorem any_asleep : (s.workers[i]?).any WorkerPoint.asleep = true ↔
    s.workers[i]? = some (.blocked false) := by
  rw [Option.any_eq_true]
  constructor
  · rintro ⟨point, hpoint, hasleep⟩
    rw [hpoint, WorkerPoint.eq_of_asleep hasleep]
  · exact fun hpoint ↦ ⟨_, hpoint, rfl⟩

/-- `notify_one` wakes a worker that is asleep, or there is none. -/
theorem notifyWorker_cases (h : notifyWorker woken s = some t) :
    (s.workers[woken]? = some (.blocked false) ∧
      t = { s with workers := s.workers.set woken (.blocked true) }) ∨
    ((∀ point ∈ s.workers, point.asleep = false) ∧ t = s) := by
  rw [notifyWorker] at h
  split at h
  · obtain ⟨hasleep, heq⟩ := Option.ite_none_right_eq_some.mp h
    exact Or.inl ⟨any_asleep.mp hasleep, (Option.some_inj.mp heq).symm⟩
  · rename_i hnone
    exact Or.inr ⟨by simpa using hnone, (Option.some_inj.mp h).symm⟩

/-- What a worker leaves alone, wherever it is: it may only notify the manager. -/
theorem advanceWorker_frame (h : advanceWorker i s point = some (point', r)) :
    r.workers = s.workers ∧ r.pushers = s.pushers ∧ r.threadCount = s.threadCount ∧
      r.paused = s.paused ∧ r.running = s.running ∧ r.waiting = s.waiting ∧ r.pushed = s.pushed ∧
      (r.manager = s.manager ∨
        point = .reporting ∧ s.waiting = true ∧ r.manager = s.manager.notify) := by
  cases point with
  | locking | relocking =>
    obtain ⟨-, heq⟩ := Option.ite_none_right_eq_some.mp h
    cases heq
    exact ⟨rfl, rfl, rfl, rfl, rfl, rfl, rfl, Or.inl rfl⟩
  | blocked notified =>
    obtain ⟨-, heq⟩ := Option.ite_none_right_eq_some.mp h
    cases heq
    exact ⟨rfl, rfl, rfl, rfl, rfl, rfl, rfl, Or.inl rfl⟩
  | woken | permitted | taking =>
    rw [advanceWorker] at h
    split at h <;> cases h <;> exact ⟨rfl, rfl, rfl, rfl, rfl, rfl, rfl, Or.inl rfl⟩
  | reporting =>
    cases h
    refine ⟨rfl, rfl, rfl, rfl, rfl, rfl, rfl, ?_⟩
    by_cases hwaiting : s.waiting = true
    · exact Or.inr ⟨rfl, hwaiting, if_pos hwaiting⟩
    · exact Or.inl (if_neg hwaiting)
  | ended | undefined => cases h
  | _ =>
    cases h
    exact ⟨rfl, rfl, rfl, rfl, rfl, rfl, rfl, Or.inl rfl⟩

/-- How a worker takes `tasks_mutex` and gives it up. -/
theorem advanceWorker_owner (h : advanceWorker i s point = some (point', r)) :
    (r.owner = s.owner ∧ point'.holds = point.holds) ∨
      (s.owner = none ∧ r.owner = some (.worker i) ∧ point'.holds = true) ∨
      (point.holds = true ∧ r.owner = none ∧ point'.holds = false) := by
  cases point with
  | locking | relocking =>
    obtain ⟨hfree, heq⟩ := Option.ite_none_right_eq_some.mp h
    cases heq
    exact Or.inr (Or.inl ⟨hfree, rfl, rfl⟩)
  | blocked notified =>
    obtain ⟨-, heq⟩ := Option.ite_none_right_eq_some.mp h
    cases heq
    exact Or.inl ⟨rfl, rfl⟩
  | looping =>
    cases h
    cases s.running <;> exact Or.inl ⟨rfl, rfl⟩
  | testing =>
    cases h
    cases s.taskAvailable <;> exact Or.inl ⟨rfl, rfl⟩
  | woken | permitted =>
    rw [advanceWorker] at h
    split at h
    all_goals
      cases h
      first
      | exact Or.inl ⟨rfl, rfl⟩
      | exact Or.inr (Or.inr ⟨rfl, rfl, rfl⟩)
  | taking =>
    rw [advanceWorker] at h
    split at h
    · cases h
      exact Or.inl ⟨rfl, rfl⟩
    · cases h
      exact Or.inr (Or.inr ⟨rfl, rfl, rfl⟩)
  | releasing | reporting =>
    cases h
    exact Or.inr (Or.inr ⟨rfl, rfl, rfl⟩)
  | executing task | counting =>
    cases h
    exact Or.inl ⟨rfl, rfl⟩
  | ended | undefined => cases h

/-- What a pusher leaves alone, wherever it is. -/
theorem advancePusher_frame (h : advancePusher i woken s place = some (place', r)) :
    r.pushers = s.pushers ∧ r.threadCount = s.threadCount ∧ r.paused = s.paused ∧
      r.running = s.running ∧ r.waiting = s.waiting ∧ r.manager = s.manager ∧
      r.taken = s.taken ∧ r.done = s.done := by
  cases place with
  | locking task =>
    obtain ⟨-, heq⟩ := Option.ite_none_right_eq_some.mp h
    cases heq
    exact ⟨rfl, rfl, rfl, rfl, rfl, rfl, rfl, rfl⟩
  | notifying =>
    obtain ⟨r', hr', heq⟩ := Option.map_eq_some_iff.mp h
    cases heq
    rcases notifyWorker_cases hr' with ⟨-, rfl⟩ | ⟨-, rfl⟩ <;>
      exact ⟨rfl, rfl, rfl, rfl, rfl, rfl, rfl, rfl⟩
  | returned => cases h
  | _ =>
    cases h
    exact ⟨rfl, rfl, rfl, rfl, rfl, rfl, rfl, rfl⟩

/-- How a pusher takes `tasks_mutex` and gives it up. -/
theorem advancePusher_owner (h : advancePusher i woken s place = some (place', r)) :
    (r.owner = s.owner ∧ place'.holds = place.holds) ∨
      (s.owner = none ∧ r.owner = some (.pusher i) ∧ place'.holds = true) ∨
      (place.holds = true ∧ r.owner = none ∧ place'.holds = false) := by
  cases place with
  | locking task =>
    obtain ⟨hfree, heq⟩ := Option.ite_none_right_eq_some.mp h
    cases heq
    exact Or.inr (Or.inl ⟨hfree, rfl, rfl⟩)
  | pushing task =>
    cases h
    exact Or.inr (Or.inr ⟨rfl, rfl, rfl⟩)
  | counting =>
    cases h
    exact Or.inl ⟨rfl, rfl⟩
  | notifying =>
    obtain ⟨r', hr', heq⟩ := Option.map_eq_some_iff.mp h
    cases heq
    rcases notifyWorker_cases hr' with ⟨-, rfl⟩ | ⟨-, rfl⟩ <;> exact Or.inl ⟨rfl, rfl⟩
  | returned => cases h

/-- What the manager does, the moves in `wait_for_tasks` taken together. -/
inductive ManagerMove (hardwareConcurrency : ℕ) (s : PoolThreads α) : PoolThreads α → Prop
  | wait (waiting : Bool) (owner : Option PoolThread) (manager : ManagerPoint)
      (hs : s.manager.waits = true) (hup : manager.up = true)
      (hnext : manager.next? = s.manager.next?)
      (ht : manager.waits = true ∨ manager = .idle ∨ ∃ next, manager = .stopping next) :
      ManagerMove hardwareConcurrency s { s with waiting, owner, manager }
  | pause (threadCount : ℕ) (wasPaused : Bool) (hs : s.manager = .pausing threadCount wasPaused) :
      ManagerMove hardwareConcurrency s
        { s with
          paused := true
          manager := .waitEntering (some (.resetting threadCount wasPaused)) }
  | stop (next : PoolEnding) (hs : s.manager = .stopping next) :
      ManagerMove hardwareConcurrency s { s with running := false, manager := .notifying next }
  | notify (next : PoolEnding) (hs : s.manager = .notifying next) :
      ManagerMove hardwareConcurrency s
        { s with workers := s.workers.map wakeUp, manager := .joining next }
  | rejoin (threadCount : ℕ) (wasPaused : Bool)
      (hs : s.manager = .joining (.resetting threadCount wasPaused))
      (hended : s.workers.all WorkerPoint.isEnded = true) :
      ManagerMove hardwareConcurrency s
        { s with
          threadCount := ThreadPool.determineThreadCount hardwareConcurrency threadCount
          workers := []
          manager := .restoring wasPaused }
  | destroy (hs : s.manager = .joining .destructing)
      (hended : s.workers.all WorkerPoint.isEnded = true) :
      ManagerMove hardwareConcurrency s { s with workers := [], manager := .destroyed }
  | restore (wasPaused : Bool) (hs : s.manager = .restoring wasPaused) :
      ManagerMove hardwareConcurrency s { s with paused := wasPaused, manager := .starting }
  | start (hs : s.manager = .starting) :
      ManagerMove hardwareConcurrency s { s with running := true, manager := .creating 0 }
  | create (i : ℕ) (hs : s.manager = .creating i) (hi : i < s.threadCount) :
      ManagerMove hardwareConcurrency s
        { s with workers := s.workers ++ [.looping], manager := .creating (i + 1) }
  | created (i : ℕ) (hs : s.manager = .creating i) (hi : s.threadCount ≤ i) :
      ManagerMove hardwareConcurrency s { s with manager := .idle }

theorem managerMove_of_step (h : s.advanceManager hardwareConcurrency = some t) :
    ManagerMove hardwareConcurrency s t := by
  rw [advanceManager] at h
  cases hmanager : s.manager with
  | idle | destroyed => simp [hmanager] at h
  | waitEntering next | waitTesting next | waitReleasing next =>
    rw [hmanager] at h
    cases h
    exact .wait _ _ _ (by rw [hmanager]; rfl) rfl (by rw [hmanager]; rfl) (Or.inl rfl)
  | waitLocking next =>
    rw [hmanager] at h
    obtain ⟨-, heq⟩ := Option.ite_none_right_eq_some.mp h
    cases heq
    exact .wait _ _ _ (by rw [hmanager]; rfl) rfl (by rw [hmanager]; rfl) (Or.inl rfl)
  | waitComparing tasksTotal next =>
    simp only [hmanager, Option.some.injEq] at h
    subst h
    refine .wait _ _ _ (by rw [hmanager]; rfl) ?_ ?_ (Or.inl ?_)
    · split <;> rfl
    · rw [hmanager]
      split <;> rfl
    · split <;> rfl
  | waitBlocked notified next =>
    rw [hmanager] at h
    obtain ⟨-, heq⟩ := Option.ite_none_right_eq_some.mp h
    cases heq
    exact .wait _ _ _ (by rw [hmanager]; rfl) rfl (by rw [hmanager]; rfl) (Or.inl rfl)
  | waitLeaving next =>
    rw [hmanager] at h
    cases h
    cases next with
    | none =>
      exact .wait _ _ _ (by rw [hmanager]; rfl) rfl (by rw [hmanager]; rfl) (Or.inr (Or.inl rfl))
    | some next =>
      exact .wait _ _ _ (by rw [hmanager]; rfl) rfl (by rw [hmanager]; rfl)
        (Or.inr (Or.inr ⟨next, rfl⟩))
  | pausing threadCount wasPaused =>
    rw [hmanager] at h
    cases h
    exact .pause threadCount wasPaused hmanager
  | stopping next =>
    rw [hmanager] at h
    cases h
    exact .stop next hmanager
  | notifying next =>
    rw [hmanager] at h
    cases h
    exact .notify next hmanager
  | joining next =>
    rw [hmanager] at h
    obtain ⟨hended, heq⟩ := Option.ite_none_right_eq_some.mp h
    cases next with
    | resetting threadCount wasPaused =>
      cases heq
      exact .rejoin threadCount wasPaused hmanager hended
    | destructing =>
      cases heq
      exact .destroy hmanager hended
  | restoring wasPaused =>
    rw [hmanager] at h
    cases h
    exact .restore wasPaused hmanager
  | starting =>
    rw [hmanager] at h
    cases h
    exact .start hmanager
  | creating i =>
    simp only [hmanager] at h
    split at h
    · rename_i hi
      cases h
      exact .create i hmanager hi
    · rename_i hi
      cases h
      exact .created i hmanager (Nat.le_of_not_lt hi)

/-! ## Who holds `tasks_mutex` -/

/-- The thread is at a point where it holds `tasks_mutex`. -/
def Holds (s : PoolThreads α) : PoolThread → Prop
  | .worker i => (s.workers[i]?).any WorkerPoint.holds = true
  | .pusher i => (s.pushers[i]?).any PusherPoint.holds = true
  | .manager => s.manager.holds = true

/-- The owner of `tasks_mutex` is the one thread that is at a point where it holds it. -/
def Locked (s : PoolThreads α) : Prop := Mutex.OwnedBy s.owner s.Holds

@[simp] theorem holds_notify (point : ManagerPoint) : point.notify.holds = point.holds := by
  cases point <;> rfl

@[simp] theorem holds_wakeUp (point : WorkerPoint α) : (wakeUp point).holds = point.holds := by
  cases point <;> rfl

/-- The points of the workers change in one place. -/
theorem getElem?_set_worker (hpoint : s.workers[i]? = some point) (j : ℕ) :
    (s.workers.set i point')[j]? = if i = j then some point' else s.workers[j]? := by
  by_cases hij : i = j
  · subst hij
    rw [List.getElem?_set_self (List.getElem?_eq_some_iff.mp hpoint).1, if_pos rfl]
  · rw [List.getElem?_set_ne hij, if_neg hij]

/-- The points of the workers change in one place, and not as to the mutex. -/
theorem any_holds_set (hpoint : s.workers[i]? = some point) (point' : WorkerPoint α)
    (hholds : point'.holds = point.holds) (j : ℕ) :
    ((s.workers.set i point')[j]?).any WorkerPoint.holds =
      (s.workers[j]?).any WorkerPoint.holds := by
  rw [getElem?_set_worker hpoint]
  split
  · rename_i hij
    subst hij
    simp [hpoint, hholds]
  · rfl

/-- A pusher may only wake a worker. -/
theorem any_holds_advancePusher (h : advancePusher i woken s place = some (place', r)) (j : ℕ) :
    (r.workers[j]?).any WorkerPoint.holds = (s.workers[j]?).any WorkerPoint.holds := by
  cases place with
  | locking task =>
    obtain ⟨-, heq⟩ := Option.ite_none_right_eq_some.mp h
    cases heq
    rfl
  | notifying =>
    obtain ⟨r', hr', heq⟩ := Option.map_eq_some_iff.mp h
    cases heq
    rcases notifyWorker_cases hr' with ⟨hpoint, rfl⟩ | ⟨-, rfl⟩
    · exact any_holds_set hpoint (.blocked true) rfl j
    · rfl
  | returned => cases h
  | _ =>
    cases h
    rfl

/-- A step that does not concern the mutex. -/
theorem Locked.of_eq (hs : s.Locked) (howner : t.owner = s.owner)
    (hworkers : ∀ j : ℕ, (t.workers[j]?).any WorkerPoint.holds =
      (s.workers[j]?).any WorkerPoint.holds)
    (hpushers : ∀ j : ℕ, (t.pushers[j]?).any PusherPoint.holds =
      (s.pushers[j]?).any PusherPoint.holds)
    (hmanager : t.manager.holds = s.manager.holds) : t.Locked := by
  intro u
  rw [howner, hs u]
  cases u with
  | worker j => rw [Holds, Holds, hworkers j]
  | pusher j => rw [Holds, Holds, hpushers j]
  | manager => rw [Holds, Holds, hmanager]

theorem Locked.worker (hs : s.Locked) (hstep : step hardwareConcurrency s (.worker i) = some t) :
    t.Locked := by
  obtain ⟨point, point', r, hpoint, hadv, rfl⟩ := step_worker_eq_some.mp hstep
  obtain ⟨hworkers, hpushers, -, -, -, -, -, hmanager⟩ := advanceWorker_frame hadv
  rw [hworkers]
  have hself : Holds { r with workers := s.workers.set i point' } (.worker i) ↔
      point'.holds = true := by
    simp [Holds, getElem?_set_worker hpoint]
  have hold : s.Holds (.worker i) ↔ point.holds = true := by simp [Holds, hpoint]
  refine hs.of_step (t := .worker i) (fun u hu ↦ ?_) ?_
  · cases u with
    | worker j =>
      have hij : i ≠ j := fun hij ↦ hu (congrArg PoolThread.worker hij.symm)
      simp [Holds, getElem?_set_worker hpoint, hij]
    | pusher j => rw [Holds, Holds, hpushers]
    | manager =>
      rw [Holds, Holds]
      rcases hmanager with hmanager | ⟨-, -, hmanager⟩ <;> rw [hmanager]
      rw [holds_notify]
  · rw [hself, hold]
    rcases advanceWorker_owner hadv with ⟨howner, hholds⟩ | ⟨hfree, howner, hholds⟩ |
      ⟨hholding, howner, hholds⟩
    · exact Or.inl ⟨howner, by rw [hholds]⟩
    · exact Or.inr (Or.inl ⟨hfree, howner, hholds⟩)
    · exact Or.inr (Or.inr ⟨hholding, howner, by simp [hholds]⟩)

theorem Locked.pusher (hs : s.Locked)
    (hstep : step hardwareConcurrency s (.pusher i woken) = some t) : t.Locked := by
  obtain ⟨place, place', r, hpusher, hadv, rfl⟩ := step_pusher_eq_some.mp hstep
  obtain ⟨hpushers, -, -, -, -, hmanager, -⟩ := advancePusher_frame hadv
  rw [hpushers]
  have hi : i < s.pushers.length := (List.getElem?_eq_some_iff.mp hpusher).1
  have hself : Holds { r with pushers := s.pushers.set i place' } (.pusher i) ↔
      place'.holds = true := by
    simp [Holds, List.getElem?_set_self hi]
  have hold : s.Holds (.pusher i) ↔ place.holds = true := by simp [Holds, hpusher]
  refine hs.of_step (t := .pusher i) (fun u hu ↦ ?_) ?_
  · cases u with
    | worker j => rw [Holds, Holds, any_holds_advancePusher hadv]
    | pusher j =>
      have hij : i ≠ j := fun hij ↦ hu (congrArg PoolThread.pusher hij.symm)
      simp [Holds, List.getElem?_set_ne hij]
    | manager => rw [Holds, Holds, hmanager]
  · rw [hself, hold]
    rcases advancePusher_owner hadv with ⟨howner, hholds⟩ | ⟨hfree, howner, hholds⟩ |
      ⟨hholding, howner, hholds⟩
    · exact Or.inl ⟨howner, by rw [hholds]⟩
    · exact Or.inr (Or.inl ⟨hfree, howner, hholds⟩)
    · exact Or.inr (Or.inr ⟨hholding, howner, by simp [hholds]⟩)

/-- How the manager takes `tasks_mutex` and gives it up, and that it leaves the points of the others
as they are, as far as the mutex goes. -/
theorem advanceManager_owner (h : s.advanceManager hardwareConcurrency = some t) :
    t.pushers = s.pushers ∧
      (∀ j : ℕ, (t.workers[j]?).any WorkerPoint.holds = (s.workers[j]?).any WorkerPoint.holds) ∧
      ((t.owner = s.owner ∧ t.manager.holds = s.manager.holds) ∨
        (s.owner = none ∧ t.owner = some .manager ∧ t.manager.holds = true) ∨
        (s.manager.holds = true ∧ t.owner = none ∧ t.manager.holds = false)) := by
  rw [advanceManager] at h
  cases hmanager : s.manager with
  | idle | destroyed => simp [hmanager] at h
  | pausing threadCount wasPaused | waitEntering next | waitTesting next | stopping next
  | restoring wasPaused | starting =>
    rw [hmanager] at h
    cases h
    exact ⟨rfl, fun _ ↦ rfl, Or.inl ⟨rfl, rfl⟩⟩
  | waitLocking next =>
    rw [hmanager] at h
    obtain ⟨hfree, heq⟩ := Option.ite_none_right_eq_some.mp h
    cases heq
    exact ⟨rfl, fun _ ↦ rfl, Or.inr (Or.inl ⟨hfree, rfl, rfl⟩)⟩
  | waitComparing tasksTotal next =>
    rw [hmanager] at h
    cases h
    refine ⟨rfl, fun _ ↦ rfl, Or.inl ⟨rfl, ?_⟩⟩
    dsimp only
    split <;> rfl
  | waitReleasing next =>
    rw [hmanager] at h
    cases h
    exact ⟨rfl, fun _ ↦ rfl, Or.inr (Or.inr ⟨rfl, rfl, rfl⟩)⟩
  | waitBlocked notified next =>
    rw [hmanager] at h
    obtain ⟨-, heq⟩ := Option.ite_none_right_eq_some.mp h
    cases heq
    exact ⟨rfl, fun _ ↦ rfl, Or.inl ⟨rfl, rfl⟩⟩
  | waitLeaving next =>
    rw [hmanager] at h
    cases h
    cases next <;> exact ⟨rfl, fun _ ↦ rfl, Or.inr (Or.inr ⟨rfl, rfl, rfl⟩)⟩
  | notifying next =>
    rw [hmanager] at h
    cases h
    refine ⟨rfl, fun j ↦ ?_, Or.inl ⟨rfl, rfl⟩⟩
    cases hpoint : s.workers[j]? <;> simp [hpoint]
  | joining next =>
    rw [hmanager] at h
    obtain ⟨hended, heq⟩ := Option.ite_none_right_eq_some.mp h
    have hworkers : ∀ j : ℕ, (s.workers[j]?).any WorkerPoint.holds = false := fun j ↦ by
      cases hpoint : s.workers[j]? with
      | none => rfl
      | some point =>
        have hpointEnded := List.all_eq_true.mp hended point (List.mem_of_getElem? hpoint)
        rw [WorkerPoint.eq_of_isEnded hpointEnded]
        rfl
    cases next <;> cases heq <;>
      exact ⟨rfl, fun j ↦ by simp [hworkers], Or.inl ⟨rfl, rfl⟩⟩
  | creating i =>
    simp only [hmanager] at h
    split at h
    · cases h
      exact ⟨rfl, ListSet.any_getElem?_concat rfl, Or.inl ⟨rfl, rfl⟩⟩
    · cases h
      exact ⟨rfl, fun _ ↦ rfl, Or.inl ⟨rfl, rfl⟩⟩

theorem Locked.manager (hs : s.Locked) (h : s.advanceManager hardwareConcurrency = some t) :
    t.Locked := by
  obtain ⟨hpushers, hworkers, howner⟩ := advanceManager_owner h
  refine hs.of_step (t := .manager) (fun u hu ↦ ?_) ?_
  · cases u with
    | worker j => rw [Holds, Holds, hworkers]
    | pusher j => rw [Holds, Holds, hpushers]
    | manager => exact absurd rfl hu
  · rw [Holds, Holds]
    rcases howner with ⟨howner, hholds⟩ | ⟨hfree, howner, hholds⟩ | ⟨hholding, howner, hholds⟩
    · exact Or.inl ⟨howner, by rw [hholds]⟩
    · exact Or.inr (Or.inl ⟨hfree, howner, hholds⟩)
    · exact Or.inr (Or.inr ⟨hholding, howner, by simp [hholds]⟩)

theorem Locked.step (hs : s.Locked) (h : step hardwareConcurrency s a = some t) : t.Locked := by
  cases a with
  | worker i => exact hs.worker h
  | pusher i woken => exact hs.pusher h
  | manager => exact hs.manager h
  | wakeWorker i =>
    obtain ⟨hasleep, heq⟩ := Option.ite_none_right_eq_some.mp h
    cases heq
    exact hs.of_eq rfl (any_holds_set (any_asleep.mp hasleep) .locking rfl) (fun _ ↦ rfl) rfl
  | pushTask task =>
    cases h
    exact hs.of_eq rfl (fun _ ↦ rfl) (ListSet.any_getElem?_concat rfl) rfl
  | setPaused paused =>
    cases h
    exact hs.of_eq rfl (fun _ ↦ rfl) (fun _ ↦ rfl) rfl
  | call call =>
    obtain ⟨hidle, heq⟩ := Option.ite_none_right_eq_some.mp h
    cases heq
    cases call <;> exact hs.of_eq rfl (fun _ ↦ rfl) (fun _ ↦ rfl) (by rw [hidle]; rfl)
  | wakeManager =>
    rw [PoolThreads.step] at h
    split at h
    · rename_i next hblocked
      cases h
      exact hs.of_eq rfl (fun _ ↦ rfl) (fun _ ↦ rfl) (by rw [hblocked]; rfl)
    · cases h

theorem locked_construct (hardwareConcurrency threadCount : ℕ) :
    (construct hardwareConcurrency threadCount : PoolThreads α).Locked := by
  intro u
  cases u <;> simp [construct, Holds, ManagerPoint.holds]

/-- **`tasks_mutex` is a mutex**: in every state of a pool its owner is the one thread that is at a
point where it holds it. -/
theorem locked_of_run
    (h : run (step hardwareConcurrency) (construct hardwareConcurrency threadCount) sched =
      some s) :
    s.Locked :=
  run_invariant (fun _ _ _ hstep hs ↦ Locked.step hs hstep) h (locked_construct _ _)

end PoolThreads

end Ekg
