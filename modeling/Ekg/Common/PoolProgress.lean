import Ekg.Common.PoolTasks
import Mathlib.Algebra.Order.BigOperators.Group.List
import Mathlib.Algebra.Order.Group.Nat

/-!
# What a pool gets done

A worker that finds no task sleeps until `push_task` notifies it, and `push_task` notifies one
worker for each task.  `attended_of_run` says why that is enough: while anybody sleeps, every task
in the queue has a worker of its own on the way to it, or a notification that is still to be sent.

The rest is about runs in which nothing new happens: no task is pushed, nothing is paused, and no
call begins.  Every step of such a run makes `measure` smaller, so it ends; and where it ends,
everything that was pushed is done.
-/

set_option autoImplicit false

namespace Ekg

open Steps

universe u

namespace PoolThreads

variable {α : Type u} {hardwareConcurrency threadCount i woken : ℕ} {s r t : PoolThreads α}
  {point point' : WorkerPoint α} {place place' : PusherPoint α} {a : PoolAction α}
  {sched rest : List (PoolAction α)}

/-! ## Nobody sleeps while a task waits -/

/-- At this point a worker is going to look at the queue, and has no task. -/
def comes : WorkerPoint α → Bool
  | .looping | .locking | .testing | .woken | .permitted | .taking => true
  | .blocked notified => notified
  | _ => false

/-- While a worker is asleep, somebody is coming for every task. -/
def Attended (s : PoolThreads α) : Prop :=
  s.running = true → s.workers.any WorkerPoint.asleep = true →
    s.tasks.length ≤ s.workers.countP comes + s.pushers.countP PusherPoint.pending

/-- A worker that is not asleep afterwards was not what kept anybody asleep. -/
theorem any_asleep_of_set (hpoint' : point'.asleep = false)
    (h : (s.workers.set i point').any WorkerPoint.asleep = true) :
    s.workers.any WorkerPoint.asleep = true := by
  obtain ⟨point, hmem, hasleep⟩ := List.any_eq_true.mp h
  rcases List.mem_or_eq_of_mem_set hmem with hold | rfl
  · exact List.any_eq_true.mpr ⟨point, hold, hasleep⟩
  · exact absurd (hpoint'.symm.trans hasleep) Bool.false_ne_true

/-- A worker that goes to sleep has seen that there is no task; any other that is no longer coming
has taken one. -/
theorem comes_advanceWorker (hadv : advanceWorker i s point = some (point', r))
    (hsound : PointSound s.tasks s.running point) (hrunning : s.running = true) :
    r.tasks = [] ∨ point'.asleep = false ∧
      r.tasks.length + (comes point).toNat ≤ s.tasks.length + (comes point').toNat := by
  cases point with
  | looping =>
    cases hadv
    rw [if_pos hrunning]
    exact Or.inr ⟨rfl, Nat.le_refl _⟩
  | testing =>
    cases hadv
    cases havailable : s.taskAvailable
    · simp only [taskAvailable, Bool.or_eq_false_iff, bne_eq_false_iff_eq,
        List.length_eq_zero_iff] at havailable
      exact Or.inl havailable.1
    · exact Or.inr ⟨rfl, Nat.le_refl _⟩
  | releasing =>
    cases hadv
    exact Or.inl hsound
  | locking | relocking =>
    obtain ⟨-, heq⟩ := Option.ite_none_right_eq_some.mp hadv
    cases heq
    exact Or.inr ⟨rfl, Nat.le_refl _⟩
  | blocked notified =>
    obtain ⟨hnotified, heq⟩ := Option.ite_none_right_eq_some.mp hadv
    cases heq
    rw [hnotified]
    exact Or.inr ⟨rfl, Nat.le_refl _⟩
  | woken | permitted =>
    rw [advanceWorker] at hadv
    split at hadv <;> cases hadv <;> exact Or.inr ⟨rfl, Nat.le_refl _⟩
  | taking =>
    rw [advanceWorker] at hadv
    split at hadv
    · rename_i htasks
      exact absurd htasks hsound
    · rename_i task tasks htasks
      cases hadv
      exact Or.inr ⟨rfl, by rw [htasks]; exact Nat.le_refl _⟩
  | reporting =>
    cases hadv
    exact Or.inr ⟨rfl, Nat.le_succ _⟩
  | executing task | counting =>
    cases hadv
    exact Or.inr ⟨rfl, Nat.le_refl _⟩
  | ended | undefined => cases hadv

theorem Attended.worker (hs : s.Attended) (hsound : s.Sound)
    (h : step hardwareConcurrency s (.worker i) = some t) : t.Attended := by
  obtain ⟨point, point', r, hpoint, hadv, rfl⟩ := step_worker_eq_some.mp h
  obtain ⟨hworkers, hpushers, -, -, hrunning, -⟩ := advanceWorker_frame hadv
  intro hrunning' hasleep
  dsimp only at hrunning' hasleep ⊢
  rw [hworkers] at hasleep ⊢
  rw [hpushers]
  rw [hrunning] at hrunning'
  have hcount := ListSet.countP_set hpoint point' comes
  rcases comes_advanceWorker hadv (hsound i point hpoint) hrunning' with hnil | ⟨hawake, hle⟩
  · rw [hnil]
    exact Nat.zero_le _
  · have hold := hs hrunning' (any_asleep_of_set hawake hasleep)
    omega

theorem Attended.pusher (hs : s.Attended)
    (h : step hardwareConcurrency s (.pusher i woken) = some t) : t.Attended := by
  obtain ⟨place, place', r, hplace, hadv, rfl⟩ := step_pusher_eq_some.mp h
  have hcount := ListSet.countP_set hplace place' PusherPoint.pending
  intro hrunning hasleep
  cases place with
  | locking task =>
    obtain ⟨-, heq⟩ := Option.ite_none_right_eq_some.mp hadv
    cases heq
    have hold := hs hrunning hasleep
    simp only [PusherPoint.pending, Bool.toNat_false] at hcount
    dsimp only
    omega
  | pushing task =>
    cases hadv
    have hold := hs hrunning hasleep
    simp only [PusherPoint.pending, Bool.toNat_false, Bool.toNat_true] at hcount
    simp only [List.length_append, List.length_singleton]
    omega
  | counting =>
    cases hadv
    have hold := hs hrunning hasleep
    simp only [PusherPoint.pending, Bool.toNat_true] at hcount
    dsimp only
    omega
  | notifying =>
    obtain ⟨r', hr', heq⟩ := Option.map_eq_some_iff.mp hadv
    cases heq
    simp only [PusherPoint.pending, Bool.toNat_false, Bool.toNat_true] at hcount
    rcases notifyWorker_cases hr' with ⟨hpoint, rfl⟩ | ⟨hnone, rfl⟩
    · -- the worker that was notified comes for the task
      have hcomes := ListSet.countP_set hpoint (.blocked true) comes
      simp only [comes, Bool.toNat_false, Bool.toNat_true] at hcomes
      have hold := hs hrunning (any_asleep_of_set rfl hasleep)
      dsimp only
      omega
    · obtain ⟨point, hmem, hpoint⟩ := List.any_eq_true.mp hasleep
      exact absurd ((hnone point hmem).symm.trans hpoint) Bool.false_ne_true
  | returned => cases hadv

theorem Attended.manager (hs : s.Attended) (hmanned : s.Manned)
    (h : ManagerMove hardwareConcurrency s t) : t.Attended := by
  cases h with
  | wait | pause | created => exact hs
  | stop next hmanager => exact fun hrunning ↦ absurd hrunning Bool.false_ne_true
  | notify next hmanager | rejoin _ _ hmanager | destroy hmanager | restore _ hmanager =>
    intro hrunning
    rw [hmanned.running, hmanager] at hrunning
    cases hrunning
  | start hmanager =>
    have hlength := hmanned.length
    rw [hmanager] at hlength
    intro _ hasleep
    rw [List.eq_nil_of_length_eq_zero hlength] at hasleep
    cases hasleep
  | create i hmanager hi =>
    intro hrunning hasleep
    have hasleep' : s.workers.any WorkerPoint.asleep = true := by
      simpa [WorkerPoint.asleep] using hasleep
    have hold := hs hrunning hasleep'
    rw [List.countP_append]
    dsimp only
    omega

theorem Attended.step (hs : s.Attended) (hproper : s.Proper)
    (h : step hardwareConcurrency s a = some t) : t.Attended := by
  cases a with
  | worker i => exact hs.worker hproper.sound h
  | pusher i woken => exact hs.pusher h
  | manager => exact hs.manager hproper.manned (managerMove_of_step h)
  | wakeWorker i =>
    obtain ⟨hasleep, heq⟩ := Option.ite_none_right_eq_some.mp h
    cases heq
    intro hrunning hasleep'
    have hold := hs hrunning (any_asleep_of_set rfl hasleep')
    have hcomes := ListSet.countP_set (any_asleep.mp hasleep) .locking comes
    simp only [comes, Bool.toNat_false, Bool.toNat_true] at hcomes
    dsimp only
    omega
  | pushTask task =>
    cases h
    intro hrunning hasleep
    have hold := hs hrunning hasleep
    rw [List.countP_append]
    dsimp only
    omega
  | setPaused paused =>
    cases h
    exact hs
  | call call =>
    obtain ⟨-, heq⟩ := Option.ite_none_right_eq_some.mp h
    cases heq
    cases call <;> exact hs
  | wakeManager =>
    rw [PoolThreads.step] at h
    split at h
    · cases h
      exact hs
    · cases h

theorem proper_attended_of_run
    (h : run (step hardwareConcurrency) (construct hardwareConcurrency threadCount) sched =
      some s) :
    s.Proper ∧ s.Attended := by
  refine run_invariant (P := fun s ↦ s.Proper ∧ s.Attended) (fun s a t hstep hs ↦ ?_) h
    ⟨proper_construct _ _, ?_⟩
  · exact ⟨hs.1.step hstep, hs.2.step hs.1 hstep⟩
  · exact fun hrunning ↦ absurd hrunning Bool.false_ne_true

/-- **No wakeup of a worker is lost.**  While the pool runs and a worker is asleep, every task in
the queue has a worker on the way to it, or a push that will still notify one. -/
theorem attended_of_run
    (h : run (step hardwareConcurrency) (construct hardwareConcurrency threadCount) sched =
      some s) :
    s.Attended :=
  (proper_attended_of_run h).2

theorem attended_notifying : Attended {
    threadCount := 1
    tasks := [7]
    tasksTotal := 1
    running := true
    workers := [.blocked false]
    pushers := [.notifying]
    manager := .idle
    pushed := [7] } :=
  attended_of_run
    (show run (step 1) (construct 1 0)
        [.manager, .manager, .manager, .worker 0, .worker 0, .worker 0, .worker 0, .pushTask 7,
          .pusher 0 0, .pusher 0 0, .pusher 0 0] = _ from rfl)

/-! ## Nothing goes on for ever -/

/-- How many steps a worker can make before it takes a task, at most, or how many it takes to be
done with the one it has. -/
def workerRank (running : Bool) : WorkerPoint α → ℕ
  | .looping => if running then 6 else 1
  | .locking => 5
  | .testing => 4
  | .releasing => 1
  | .blocked notified => if notified then 6 else 0
  | .woken => 3
  | .permitted => 2
  | .taking => 1
  -- with the steps of the manager after a notification
  | .executing _ => 15
  | .relocking => 14
  | .counting => 13
  | .reporting => 12
  | .ended | .undefined => 0

/-- How many steps a pusher can still cause. -/
def pusherRank : PusherPoint α → ℕ
  | .locking _ => 25
  -- the task is one for a worker from here on
  | .pushing _ => 24
  | .counting => 8
  -- with the steps of the worker that is notified
  | .notifying => 7
  | .returned => 0

/-- How many steps the destruction of the pool can still cause. -/
def endingRank (threadCount : ℕ) : Option PoolEnding → ℕ
  | none => 0
  | some _ => 6 * threadCount + 3

/-- How many steps the manager can still cause, unless it is in `reset`. -/
def managerRank (threadCount : ℕ) : ManagerPoint → ℕ
  | .idle | .pausing _ _ | .destroyed => 0
  | .waitEntering next => endingRank threadCount next + 7
  | .waitLocking next => endingRank threadCount next + 6
  | .waitTesting next => endingRank threadCount next + 5
  | .waitComparing _ next => endingRank threadCount next + 4
  | .waitReleasing next => endingRank threadCount next + 3
  | .waitBlocked notified next => endingRank threadCount next + if notified then 7 else 2
  | .waitLeaving next => endingRank threadCount next + 1
  | .stopping _ => 6 * threadCount + 3
  -- with the steps of the workers that are notified
  | .notifying _ => 6 * threadCount + 2
  | .joining _ => 1
  | .restoring _ | .starting => 7 * threadCount + 2
  | .creating i => 7 * (threadCount - i) + 1

/-- How many steps can still be made, at most, if nothing new happens. -/
def measure (s : PoolThreads α) : ℕ :=
  15 * s.tasks.length + (s.workers.map (workerRank s.running)).sum +
    (s.pushers.map pusherRank).sum + managerRank s.threadCount s.manager

/-- A thread that is at the pool goes on. -/
def Works : PoolAction α → Prop
  | .worker _ | .pusher _ _ | .manager => True
  | _ => False

/-- A worker goes on. -/
def IsWorker : PoolAction α → Prop
  | .worker _ => True
  | _ => False

theorem managerRank_notify_le (threadCount : ℕ) (point : ManagerPoint) :
    managerRank threadCount point.notify ≤ managerRank threadCount point + 5 := by
  cases point with
  | waitBlocked notified next =>
    cases notified
    · exact Nat.le_refl _
    · exact Nat.le_add_right _ _
  | _ => exact Nat.le_add_right _ _

/-- A worker that does not spin gets on. -/
theorem rank_advanceWorker (hadv : advanceWorker i s point = some (point', r))
    (hspin : s.paused = false ∨ s.running = false) (threadCount : ℕ) :
    15 * r.tasks.length + workerRank s.running point' + managerRank threadCount r.manager <
      15 * s.tasks.length + workerRank s.running point + managerRank threadCount s.manager := by
  cases point with
  | looping =>
    cases hadv
    cases s.running <;> simp [workerRank]
  | testing =>
    cases hadv
    cases s.taskAvailable <;> simp [workerRank]
  | locking | relocking =>
    obtain ⟨-, heq⟩ := Option.ite_none_right_eq_some.mp hadv
    cases heq
    simp [workerRank]
  | blocked notified =>
    obtain ⟨hnotified, heq⟩ := Option.ite_none_right_eq_some.mp hadv
    cases heq
    simp [workerRank, hnotified]
  | woken =>
    rw [advanceWorker] at hadv
    split at hadv
    · cases hadv
      simp [workerRank]
    · rename_i hrunning
      cases hadv
      simp [workerRank, hrunning]
  | permitted =>
    rw [advanceWorker] at hadv
    split at hadv
    · rename_i hpaused
      cases hadv
      have hrunning : s.running = false := hspin.resolve_left (by simp [hpaused])
      simp [workerRank, hrunning]
    · cases hadv
      simp [workerRank]
  | taking =>
    rw [advanceWorker] at hadv
    split at hadv
    · cases hadv
      simp [workerRank]
    · rename_i task tasks htasks
      cases hadv
      simp only [workerRank, htasks, List.length_cons]
      omega
  | releasing | executing | counting =>
    cases hadv
    simp [workerRank]
  | reporting =>
    cases hadv
    have hnotify : managerRank threadCount (if s.waiting then s.manager.notify else s.manager) ≤
        managerRank threadCount s.manager + 5 := by
      split
      · exact managerRank_notify_le threadCount s.manager
      · exact Nat.le_add_right _ _
    have hloop : (if s.running then 6 else 1) ≤ 6 := by split <;> omega
    simp only [workerRank]
    omega
  | ended | undefined => cases hadv

theorem measure_worker (hspin : s.paused = false ∨ s.running = false)
    (h : step hardwareConcurrency s (.worker i) = some t) : t.measure < s.measure := by
  obtain ⟨point, point', r, hpoint, hadv, rfl⟩ := step_worker_eq_some.mp h
  obtain ⟨hworkers, hpushers, hcount, -, hrunning, -⟩ := advanceWorker_frame hadv
  have hrank := rank_advanceWorker hadv hspin s.threadCount
  have hsum := ListSet.sum_map_set hpoint point' (workerRank s.running)
  simp only [measure, hworkers, hpushers, hcount, hrunning]
  omega

theorem measure_pusher (h : step hardwareConcurrency s (.pusher i woken) = some t) :
    t.measure < s.measure := by
  obtain ⟨place, place', r, hplace, hadv, rfl⟩ := step_pusher_eq_some.mp h
  have hsum := ListSet.sum_map_set hplace place' pusherRank
  cases place with
  | locking task =>
    obtain ⟨-, heq⟩ := Option.ite_none_right_eq_some.mp hadv
    cases heq
    simp only [pusherRank] at hsum
    simp only [measure]
    omega
  | pushing task =>
    cases hadv
    simp only [pusherRank] at hsum
    simp only [measure, List.length_append, List.length_singleton]
    omega
  | counting =>
    cases hadv
    simp only [pusherRank] at hsum
    simp only [measure]
    omega
  | notifying =>
    obtain ⟨r', hr', heq⟩ := Option.map_eq_some_iff.mp hadv
    cases heq
    simp only [pusherRank] at hsum
    rcases notifyWorker_cases hr' with ⟨hpoint, rfl⟩ | ⟨-, rfl⟩
    · have hwoken := ListSet.sum_map_set hpoint (.blocked true) (workerRank s.running)
      simp only [workerRank, if_true, Bool.false_eq_true, if_false] at hwoken
      simp only [measure]
      omega
    · simp only [measure]
      omega
  | returned => cases hadv

theorem workerRank_false_le (point : WorkerPoint α) (running : Bool) :
    workerRank false point ≤ workerRank running point := by
  cases running with
  | false => exact Nat.le_refl _
  | true => cases point <;> simp [workerRank]

theorem workerRank_wakeUp_le (point : WorkerPoint α) (running : Bool) :
    workerRank running (wakeUp point) ≤ workerRank running point + 6 := by
  cases point <;> simp [workerRank, wakeUp]

/-- Waking all the workers. -/
theorem sum_workerRank_wakeUp_le (workers : List (WorkerPoint α)) (running : Bool) :
    ((workers.map wakeUp).map (workerRank running)).sum ≤
      (workers.map (workerRank running)).sum + 6 * workers.length := by
  induction workers with
  | nil => exact Nat.le_refl _
  | cons point workers ih =>
    have hpoint := workerRank_wakeUp_le point running
    simp only [List.map_cons, List.sum_cons, List.length_cons]
    omega

theorem measure_manager (hs : s.Manned) (hresets : s.manager.resets = false)
    (h : s.advanceManager hardwareConcurrency = some t) : t.measure < s.measure := by
  have hlength := hs.length
  have hrunning := hs.running
  rw [advanceManager] at h
  cases hmanager : s.manager with
  | idle | destroyed => simp [hmanager] at h
  | pausing threadCount wasPaused =>
    simp [hmanager, ManagerPoint.resets, ManagerPoint.next?, PoolEnding.isResetting] at hresets
  | restoring wasPaused => simp [hmanager, ManagerPoint.resets] at hresets
  | waitEntering next | waitTesting next | waitReleasing next =>
    rw [hmanager] at h
    cases h
    simp [measure, hmanager, managerRank]
  | waitLocking next =>
    rw [hmanager] at h
    obtain ⟨-, heq⟩ := Option.ite_none_right_eq_some.mp h
    cases heq
    simp [measure, hmanager, managerRank]
  | waitComparing tasksTotal next =>
    simp only [hmanager, Option.some.injEq] at h
    subst h
    simp only [measure, hmanager]
    split <;> simp [managerRank]
  | waitBlocked notified next =>
    rw [hmanager] at h
    obtain ⟨hnotified, heq⟩ := Option.ite_none_right_eq_some.mp h
    cases heq
    simp [measure, hmanager, managerRank, hnotified]
  | waitLeaving next =>
    rw [hmanager] at h
    cases h
    cases next <;> simp [measure, hmanager, managerRank, endingRank]
  | stopping next =>
    rw [hmanager] at h
    cases h
    have hsum : (s.workers.map (workerRank false)).sum ≤
        (s.workers.map (workerRank s.running)).sum :=
      List.sum_le_sum fun point _ ↦ workerRank_false_le point s.running
    simp only [measure, hmanager, managerRank]
    omega
  | notifying next =>
    rw [hmanager] at h hlength
    cases h
    have hsum := sum_workerRank_wakeUp_le s.workers s.running
    rw [hlength] at hsum
    simp only [measure, hmanager, managerRank]
    simp only [crewSize] at hsum
    omega
  | joining next =>
    rw [hmanager] at h
    obtain ⟨-, heq⟩ := Option.ite_none_right_eq_some.mp h
    cases next with
    | resetting threadCount wasPaused =>
      simp [hmanager, ManagerPoint.resets, ManagerPoint.next?, PoolEnding.isResetting] at hresets
    | destructing =>
      cases heq
      simp only [measure, hmanager, managerRank, List.map_nil, List.sum_nil]
      omega
  | starting =>
    rw [hmanager] at h hlength
    cases h
    have hworkers : s.workers = [] := List.eq_nil_of_length_eq_zero hlength
    simp only [measure, hmanager, managerRank, hworkers]
    simp
  | creating i =>
    simp only [hmanager] at h hrunning
    split at h
    · rename_i hi
      cases h
      simp only [measure, hmanager, managerRank, hrunning, List.map_append, List.sum_append]
      simp only [ManagerPoint.up, workerRank, List.map_cons, List.map_nil, List.sum_cons,
        List.sum_nil, if_true]
      omega
    · cases h
      simp only [measure, hmanager, managerRank]
      omega

/-- Nothing is paused, and nothing is going to be. -/
structure Calm (s : PoolThreads α) : Prop where
  proper : s.Proper
  attended : s.Attended
  unpaused : s.paused = false
  resets : s.manager.resets = false

theorem calm_of_run
    (h : run (step hardwareConcurrency) (construct hardwareConcurrency threadCount) sched = some s)
    (hpaused : s.paused = false) (hresets : s.manager.resets = false) : s.Calm :=
  ⟨(proper_attended_of_run h).1, (proper_attended_of_run h).2, hpaused, hresets⟩

theorem resets_notify (point : ManagerPoint) : point.notify.resets = point.resets := by
  cases point <;> rfl

theorem next?_notify (point : ManagerPoint) : point.notify.next? = point.next? := by
  cases point <;> rfl

theorem resets_of_waits {point : ManagerPoint} (h : point.waits = true) :
    point.resets = point.next?.any PoolEnding.isResetting := by
  cases point <;> first | rfl | cases h

theorem resets_of_next?_eq_none {point : ManagerPoint} (hup : point.up = true)
    (hnext : point.next? = none) : point.resets = false := by
  cases point <;> first | exact congrArg (Option.any PoolEnding.isResetting) hnext | cases hup

/-- A call that is not `reset` does not become one, nor does it pause anything. -/
theorem resets_managerMove (h : ManagerMove hardwareConcurrency s t)
    (hs : s.manager.resets = false) : t.manager.resets = false ∧ t.paused = s.paused := by
  cases h with
  | wait waiting owner manager hwaits hup hnext ht =>
    refine ⟨?_, rfl⟩
    rw [resets_of_waits hwaits] at hs
    rcases ht with ht | rfl | ⟨next, rfl⟩
    · rw [resets_of_waits ht, hnext, hs]
    · rfl
    · rw [← hnext] at hs
      exact hs
  | stop next hmanager | notify next hmanager =>
    rw [hmanager] at hs
    exact ⟨hs, rfl⟩
  | pause _ _ hmanager | rejoin _ _ hmanager | restore _ hmanager =>
    rw [hmanager] at hs
    cases hs
  | destroy | start | create | created => exact ⟨rfl, rfl⟩

theorem Calm.step (hs : s.Calm) (ha : Works a) (h : step hardwareConcurrency s a = some t) :
    t.Calm ∧ t.measure < s.measure := by
  have hproper := hs.proper.step h
  have hattended := hs.attended.step hs.proper h
  cases a with
  | worker i =>
    obtain ⟨point, point', r, -, hadv, rfl⟩ := step_worker_eq_some.mp h
    obtain ⟨-, -, -, hpaused, -, -, -, hmanager⟩ := advanceWorker_frame hadv
    refine ⟨⟨hproper, hattended, hpaused.trans hs.unpaused, ?_⟩,
      measure_worker (Or.inl hs.unpaused) h⟩
    rcases hmanager with hmanager | ⟨-, -, hmanager⟩
    · exact (congrArg _ hmanager).trans hs.resets
    · exact (congrArg _ hmanager).trans ((resets_notify _).trans hs.resets)
  | pusher i woken =>
    obtain ⟨place, place', r, -, hadv, rfl⟩ := step_pusher_eq_some.mp h
    obtain ⟨-, -, hpaused, -, -, hmanager, -⟩ := advancePusher_frame hadv
    exact ⟨⟨hproper, hattended, hpaused.trans hs.unpaused,
      (congrArg _ hmanager).trans hs.resets⟩, measure_pusher h⟩
  | manager =>
    obtain ⟨hresets, hpaused⟩ := resets_managerMove (managerMove_of_step h) hs.resets
    exact ⟨⟨hproper, hattended, hpaused.trans hs.unpaused, hresets⟩,
      measure_manager hs.proper.manned hs.resets h⟩
  | _ => exact ha.elim

/-! ## Where it ends -/

/-- A worker that cannot go on waits for the mutex, sleeps or is through. -/
theorem advanceWorker_eq_none (h : advanceWorker i s point = none) :
    (s.owner ≠ none ∧ point.holds = false) ∨ point = .blocked false ∨ point = .ended ∨
      point = .undefined := by
  cases point with
  | locking | relocking => exact Or.inl ⟨fun hfree ↦ by simp [advanceWorker, hfree] at h, rfl⟩
  | blocked notified =>
    cases notified with
    | false => exact Or.inr (Or.inl rfl)
    | true => cases h
  | woken | permitted | taking =>
    rw [advanceWorker] at h
    split at h <;> cases h
  | ended => exact Or.inr (Or.inr (Or.inl rfl))
  | undefined => exact Or.inr (Or.inr (Or.inr rfl))
  | _ => cases h

/-- A pusher that cannot go on waits for the mutex, or is through: if it has somebody to notify, it
can. -/
theorem advancePusher_eq_none (h : ∀ woken, advancePusher i woken s place = none) :
    (s.owner ≠ none ∧ place.holds = false) ∨ place = .returned := by
  cases place with
  | locking task => exact Or.inl ⟨fun hfree ↦ by simpa [advancePusher, hfree] using h 0, rfl⟩
  | pushing task | counting => exact absurd (h 0) (by simp [advancePusher])
  | notifying =>
    exfalso
    by_cases hasleep : s.workers.any WorkerPoint.asleep = true
    · obtain ⟨point, hmem, hpoint⟩ := List.any_eq_true.mp hasleep
      obtain ⟨woken, hwoken⟩ := List.mem_iff_getElem?.mp hmem
      have hnone := h woken
      simp [advancePusher, notifyWorker, hasleep, hwoken, hpoint] at hnone
    · have hnone := h 0
      simp [advancePusher, notifyWorker, hasleep] at hnone
  | returned => exact Or.inr rfl

/-- A manager that cannot go on waits for the mutex, for a notification or for the workers, or is
in no call. -/
theorem advanceManager_eq_none (h : s.advanceManager hardwareConcurrency = none) :
    (s.owner ≠ none ∧ s.manager.holds = false) ∨ s.manager = .idle ∨ s.manager = .destroyed ∨
      (∃ next, s.manager = .waitBlocked false next) ∨ ∃ next, s.manager = .joining next := by
  rw [advanceManager] at h
  cases hmanager : s.manager with
  | waitLocking next =>
    exact Or.inl ⟨fun hfree ↦ by simp [hmanager, hfree] at h, rfl⟩
  | idle => exact Or.inr (Or.inl rfl)
  | destroyed => exact Or.inr (Or.inr (Or.inl rfl))
  | waitBlocked notified next =>
    cases notified with
    | false => exact Or.inr (Or.inr (Or.inr (Or.inl ⟨next, rfl⟩)))
    | true => simp [hmanager] at h
  | joining next => exact Or.inr (Or.inr (Or.inr (Or.inr ⟨next, rfl⟩)))
  | creating i =>
    simp only [hmanager] at h
    split at h <;> cases h
  | _ => simp [hmanager] at h

/-- Where no worker can go on, and nobody else holds the mutex, all the workers sleep or are
through. -/
theorem free_of_stuck (hs : s.Proper) (hstuck : Stuck (step hardwareConcurrency) IsWorker s)
    (hpushers : ∀ place ∈ s.pushers, place.holds = false) (hmanager : s.manager.holds = false) :
    s.owner = none ∧ ∀ point ∈ s.workers, point = .blocked false ∨ point = .ended := by
  have hadv (i : ℕ) (point : WorkerPoint α) (hpoint : s.workers[i]? = some point) :
      advanceWorker i s point = none := by
    have hnone := hstuck (.worker i) trivial
    simpa [PoolThreads.step, hpoint] using hnone
  have hfree : s.owner = none := by
    by_contra howner
    obtain ⟨u, hu⟩ := Option.ne_none_iff_exists'.mp howner
    have hholds : s.Holds u := (hs.locked u).mp hu
    cases u with
    | worker i =>
      obtain ⟨point, hpoint, hholds⟩ := (Option.any_eq_true _ _).mp hholds
      rcases advanceWorker_eq_none (hadv i point hpoint) with ⟨-, hnot⟩ | rfl | rfl | rfl
      · exact absurd (hnot.symm.trans hholds) Bool.false_ne_true
      · cases hholds
      · cases hholds
      · exact hs.sound i _ hpoint
    | pusher i =>
      obtain ⟨place, hplace, hholds⟩ := (Option.any_eq_true _ _).mp hholds
      exact absurd ((hpushers place (List.mem_of_getElem? hplace)).symm.trans hholds)
        Bool.false_ne_true
    | manager => exact absurd (hmanager.symm.trans hholds) Bool.false_ne_true
  refine ⟨hfree, fun point hmem ↦ ?_⟩
  obtain ⟨i, hpoint⟩ := List.mem_iff_getElem?.mp hmem
  rcases advanceWorker_eq_none (hadv i point hpoint) with ⟨howner, -⟩ | hasleep | hended | rfl
  · exact absurd hfree howner
  · exact Or.inl hasleep
  · exact Or.inr hended
  · exact (hs.sound i _ hpoint).elim

/-- Where nobody can go on. -/
theorem cases_of_stuck (hs : s.Proper) (hstuck : Stuck (step hardwareConcurrency) Works s) :
    (∀ point ∈ s.workers, point = .blocked false ∨ point = .ended) ∧
      (∀ place ∈ s.pushers, place = .returned) ∧
      (s.manager = .idle ∨ s.manager = .destroyed ∨
        (∃ next, s.manager = .waitBlocked false next) ∨ ∃ next, s.manager = .joining next) := by
  have hadv (i : ℕ) (place : PusherPoint α) (hplace : s.pushers[i]? = some place) :
      (s.owner ≠ none ∧ place.holds = false) ∨ place = .returned := by
    refine advancePusher_eq_none (i := i) fun woken ↦ ?_
    have hnone := hstuck (.pusher i woken) trivial
    simpa [PoolThreads.step, hplace] using hnone
  have hmanager := advanceManager_eq_none (hstuck .manager trivial)
  have hpushers : ∀ place ∈ s.pushers, place.holds = false := by
    intro place hmem
    obtain ⟨i, hplace⟩ := List.mem_iff_getElem?.mp hmem
    rcases hadv i place hplace with ⟨-, hholds⟩ | rfl
    · exact hholds
    · rfl
  have hholds : s.manager.holds = false := by
    rcases hmanager with ⟨-, hholds⟩ | heq | heq | ⟨next, heq⟩ | ⟨next, heq⟩
    · exact hholds
    all_goals rw [heq]; rfl
  obtain ⟨hfree, hworkers⟩ := free_of_stuck hs
    (fun a ha ↦ hstuck a (by cases a <;> trivial)) hpushers hholds
  refine ⟨hworkers, fun place hmem ↦ ?_, hmanager.resolve_left fun h ↦ h.1 hfree⟩
  obtain ⟨i, hplace⟩ := List.mem_iff_getElem?.mp hmem
  exact (hadv i place hplace).resolve_left fun h ↦ h.1 hfree

/-- All that was passed to `push_task` so far. -/
def submitted (s : PoolThreads α) : Multiset α :=
  ↑s.pushed + ↑(s.pushers.filterMap PusherPoint.task?)

/-- A task that is pushed goes from the pusher to the queue. -/
theorem submitted_pusher (h : step hardwareConcurrency s (.pusher i woken) = some t) :
    t.submitted = s.submitted := by
  obtain ⟨place, place', r, hplace, hadv, rfl⟩ := step_pusher_eq_some.mp h
  have hleft := ListSet.coe_filterMap_set hplace place' PusherPoint.task?
  cases place with
  | locking task =>
    obtain ⟨-, heq⟩ := Option.ite_none_right_eq_some.mp hadv
    cases heq
    simp only [submitted, add_right_cancel hleft]
  | pushing task =>
    cases hadv
    have hleft' : (↑(s.pushers.filterMap PusherPoint.task?) : Multiset α) =
        {task} + ↑((s.pushers.set i .counting).filterMap PusherPoint.task?) := by
      simpa [PusherPoint.task?, add_comm] using hleft.symm
    simp only [submitted, hleft', ← Multiset.coe_add, Multiset.coe_singleton, add_assoc]
  | counting =>
    cases hadv
    simp only [submitted, add_right_cancel hleft]
  | notifying =>
    obtain ⟨r', hr', heq⟩ := Option.map_eq_some_iff.mp hadv
    cases heq
    rcases notifyWorker_cases hr' with ⟨-, rfl⟩ | ⟨-, rfl⟩ <;>
      simp only [submitted, add_right_cancel hleft]
  | returned => cases hadv

theorem submitted_step (h : step hardwareConcurrency s a = some t) :
    t.submitted = s.submitted + ↑a.task?.toList := by
  cases a with
  | worker i =>
    obtain ⟨point, point', r, -, hadv, rfl⟩ := step_worker_eq_some.mp h
    obtain ⟨-, hpushers, -, -, -, -, hpushed, -⟩ := advanceWorker_frame hadv
    simp only [submitted, hpushers, hpushed]
    exact (add_zero _).symm
  | pusher i woken => exact (submitted_pusher h).trans (add_zero _).symm
  | manager =>
    have hmove := managerMove_of_step h
    cases hmove <;> exact (add_zero _).symm
  | wakeWorker i =>
    obtain ⟨-, heq⟩ := Option.ite_none_right_eq_some.mp h
    cases heq
    exact (add_zero _).symm
  | pushTask task =>
    cases h
    have hleft : (s.pushers ++ [PusherPoint.locking task]).filterMap PusherPoint.task? =
        s.pushers.filterMap PusherPoint.task? ++ [task] := List.filterMap_append
    simp only [submitted, hleft, ← Multiset.coe_add]
    exact (add_assoc _ _ _).symm
  | setPaused paused =>
    cases h
    exact (add_zero _).symm
  | call call =>
    obtain ⟨-, heq⟩ := Option.ite_none_right_eq_some.mp h
    cases heq
    cases call <;> exact (add_zero _).symm
  | wakeManager =>
    rw [PoolThreads.step] at h
    split at h
    · cases h
      exact (add_zero _).symm
    · cases h

/-- What was submitted is what the calls of `push_task` were given. -/
theorem submitted_of_run
    (h : run (step hardwareConcurrency) (construct hardwareConcurrency threadCount) sched =
      some s) :
    s.submitted = ↑(sched.filterMap PoolAction.task?) := by
  refine run_induction (P := fun sched s ↦ s.submitted = ↑(sched.filterMap PoolAction.task?)) rfl
    (fun done a m t _ hm hstep ↦ ?_) h
  rw [submitted_step hstep, hm, List.filterMap_append, ← Multiset.coe_add]
  cases a <;> rfl

theorem filterMap_task?_of_works (hrest : ∀ a ∈ rest, Works a) :
    rest.filterMap PoolAction.task? = [] :=
  List.filterMap_eq_nil_iff.mpr fun a ha ↦ by
    have hworks := hrest a ha
    cases a <;> first | rfl | exact hworks.elim

/-- **Where an unpaused pool comes to rest, everything is done.** -/
theorem done_of_stuck (hs : s.Calm) (hstuck : Stuck (step hardwareConcurrency) Works s)
    (hup : s.manager.up = true) :
    s.tasks = [] ∧ (∀ point ∈ s.workers, point = .blocked false) ∧
      (s.done : Multiset α) = s.submitted := by
  obtain ⟨hworkers, hpushers, hmanager⟩ := cases_of_stuck hs.proper hstuck
  have hmanned := hs.proper.manned
  have hrunning : s.running = true := hmanned.running.trans hup
  have hasleep : ∀ point ∈ s.workers, point = .blocked false := by
    intro point hmem
    refine (hworkers point hmem).resolve_right fun hended ↦ ?_
    subst hended
    obtain ⟨i, hi⟩ := List.mem_iff_getElem?.mp hmem
    have hstopped : s.running = false := hs.proper.sound i _ hi
    exact absurd (hstopped.symm.trans hrunning) Bool.false_ne_true
  have hsize : crewSize s.threadCount s.manager = s.threadCount := by
    rcases hmanager with heq | heq | ⟨next, heq⟩ | ⟨next, heq⟩ <;> rw [heq] at hup ⊢ <;>
      first | rfl | cases hup
  have hsomebody : s.workers.any WorkerPoint.asleep = true := by
    have hpos : 0 < s.workers.length := by
      rw [hmanned.length, hsize]
      exact hmanned.pos
    obtain ⟨point, hmem⟩ := List.exists_mem_of_length_pos hpos
    exact List.any_eq_true.mpr ⟨point, hmem, by rw [hasleep point hmem]; rfl⟩
  have hcomes : s.workers.countP comes = 0 :=
    List.countP_eq_zero.mpr fun point hmem ↦ by rw [hasleep point hmem]; exact Bool.false_ne_true
  have hpending : s.pushers.countP PusherPoint.pending = 0 :=
    List.countP_eq_zero.mpr fun place hmem ↦ by rw [hpushers place hmem]; exact Bool.false_ne_true
  have htasks : s.tasks = [] := by
    have hle := hs.attended hrunning hsomebody
    rw [hcomes, hpending] at hle
    exact List.eq_nil_of_length_eq_zero (Nat.le_zero.mp hle)
  refine ⟨htasks, hasleep, ?_⟩
  have hway : s.workers.filterMap WorkerPoint.task? = [] :=
    List.filterMap_eq_nil_iff.mpr fun point hmem ↦ by rw [hasleep point hmem]; rfl
  have hleft : s.pushers.filterMap PusherPoint.task? = [] :=
    List.filterMap_eq_nil_iff.mpr fun place hmem ↦ by rw [hpushers place hmem]; rfl
  have htaken := hs.proper.balanced.taken
  have hpushed := hs.proper.balanced.pushed
  simp only [account, hway, htasks, List.append_nil, Multiset.coe_nil, add_zero] at htaken hpushed
  rw [submitted, hleft, hpushed, htaken, Multiset.coe_nil, add_zero]

theorem up_of_step (ha : Works a) (hs : s.manager.up = true) (hnext : s.manager.next? = none)
    (h : step hardwareConcurrency s a = some t) :
    t.manager.up = true ∧ t.manager.next? = none := by
  cases a with
  | worker i =>
    obtain ⟨point, point', r, -, hadv, rfl⟩ := step_worker_eq_some.mp h
    obtain ⟨-, -, -, -, -, -, -, hmanager⟩ := advanceWorker_frame hadv
    rcases hmanager with hmanager | ⟨-, -, hmanager⟩ <;> dsimp only <;> rw [hmanager]
    · exact ⟨hs, hnext⟩
    · exact ⟨(up_notify _).trans hs, (next?_notify _).trans hnext⟩
  | pusher i woken =>
    obtain ⟨place, place', r, -, hadv, rfl⟩ := step_pusher_eq_some.mp h
    obtain ⟨-, -, -, -, -, hmanager, -⟩ := advancePusher_frame hadv
    dsimp only
    rw [hmanager]
    exact ⟨hs, hnext⟩
  | manager =>
    have hmove := managerMove_of_step h
    cases hmove with
    | wait waiting owner manager hwaits hup hsame ht => exact ⟨hup, hsame.trans hnext⟩
    | pause _ _ hmanager | stop _ hmanager =>
      rw [hmanager] at hnext
      cases hnext
    | notify _ hmanager | rejoin _ _ hmanager | destroy hmanager | restore _ hmanager =>
      rw [hmanager] at hs
      cases hs
    | start | create | created => exact ⟨rfl, rfl⟩
  | _ => exact ha.elim

/-- **An unpaused pool runs everything that it is given.**  If no new call begins, then no more than
`measure` steps are made; and where they end, the tasks of all the calls of `push_task` are done,
each of them once. -/
theorem drains
    (h : run (step hardwareConcurrency) (construct hardwareConcurrency threadCount) sched = some s)
    (hpaused : s.paused = false) (hup : s.manager.up = true) (hnext : s.manager.next? = none)
    (hrest : ∀ a ∈ rest, Works a) (hrun : run (step hardwareConcurrency) s rest = some t) :
    rest.length ≤ s.measure ∧ (Stuck (step hardwareConcurrency) Works t →
      t.tasks = [] ∧ t.done.Perm (sched.filterMap PoolAction.task?)) := by
  have hcalm := calm_of_run h hpaused (resets_of_next?_eq_none hup hnext)
  obtain ⟨hcalm', hle⟩ := length_add_le_of_run (fun _ _ _ hs ha hstep ↦ Calm.step hs ha hstep) hrun
    hrest hcalm
  refine ⟨(Nat.le_add_right _ _).trans hle, fun hstuck ↦ ?_⟩
  have hup' : t.manager.up = true ∧ t.manager.next? = none :=
    run_invariant_of_mem (P := fun s ↦ s.manager.up = true ∧ s.manager.next? = none)
      (fun a ha s t hstep hs ↦ up_of_step (hrest a ha) hs.1 hs.2 hstep) hrun ⟨hup, hnext⟩
  obtain ⟨htasks, -, hdone⟩ := done_of_stuck hcalm' hstuck hup'.1
  have hall := submitted_of_run (run_append_eq_some.mpr ⟨s, h, hrun⟩)
  rw [List.filterMap_append, filterMap_task?_of_works hrest, List.append_nil] at hall
  exact ⟨htasks, Multiset.coe_eq_coe.mp (hdone.trans hall)⟩

theorem drains_one :
    (List.replicate 4 (PoolAction.pusher 0 0 : PoolAction ℕ) ++
        List.replicate 14 (PoolAction.worker 0)).length ≤
        measure { threadCount := 1, running := true, workers := [.looping],
                  pushers := [.locking 7], manager := .idle } ∧
      (Stuck (step 1) Works
          { threadCount := 1, running := true, workers := [.blocked false],
            pushers := [.returned], manager := .idle, pushed := [7], taken := [7], done := [7] } →
        ([] : List ℕ) = [] ∧ [7].Perm [7]) :=
  drains
    (show run (step 1) (construct 1 0) [.manager, .manager, .manager, .pushTask 7] = _ from rfl)
    rfl rfl rfl (fun a ha ↦ by
      rcases List.mem_append.mp ha with h | h <;> rw [List.eq_of_mem_replicate h] <;> trivial) rfl

end PoolThreads

end Ekg
