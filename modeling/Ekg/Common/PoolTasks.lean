import Ekg.Common.PoolThreads
import Mathlib.Algebra.Order.Group.Multiset

/-!
# What becomes of the tasks of a pool

Of all that the threads of a pool do, few steps concern its tasks: a task is pushed, and counted; it
is taken, it returns, and it is counted again.  `PoolAccount` is the pool as far as its tasks go,
and `account_step` says that every step of the threads is one of these, or none.  What holds of the
tasks is proved there, where nothing is left of the mutex and of the condition variables:

* the tasks are taken in the order in which they were pushed, and each of them once;
* `tasks_total` is off by the pushes that have not counted their task yet, and by nothing else.

What the threads are needed for is that `front` is never called on an empty queue, and that no
worker sleeps while a task waits that nobody is coming for.
-/

set_option autoImplicit false

namespace Ekg

open Steps

universe u

/-- A pool, as far as its tasks go. -/
structure PoolAccount (α : Type u) where
  tasks : List α
  tasksTotal : ℤ
  pushed : List α
  taken : List α
  done : List α
  /-- The tasks that were taken and have not returned. -/
  underWay : Multiset α
  /-- How many tasks were taken, and not counted as finished. -/
  unfinished : ℕ
  /-- How many tasks were pushed, and not counted as pushed. -/
  uncounted : ℕ

namespace PoolAccount

variable {α : Type u}

/-- What can happen to the tasks. -/
inductive Step (c : PoolAccount α) : PoolAccount α → Prop
  | none : Step c c
  | push (task : α) :
      Step c { c with
        tasks := c.tasks ++ [task]
        pushed := c.pushed ++ [task]
        uncounted := c.uncounted + 1 }
  | countPush (uncounted : ℕ) (h : c.uncounted = uncounted + 1) :
      Step c { c with tasksTotal := c.tasksTotal + 1, uncounted }
  | take (task : α) (tasks : List α) (h : c.tasks = task :: tasks) :
      Step c { c with
        tasks
        taken := c.taken ++ [task]
        underWay := task ::ₘ c.underWay
        unfinished := c.unfinished + 1 }
  | finish (task : α) (underWay : Multiset α) (h : c.underWay = task ::ₘ underWay) :
      Step c { c with underWay, done := c.done ++ [task] }
  | countTask (unfinished : ℕ) (h : c.unfinished = unfinished + 1) :
      Step c { c with tasksTotal := c.tasksTotal - 1, unfinished }

/-- Every task that was pushed is in one place, and `tasks_total` counts those that are not done. -/
structure Balanced (c : PoolAccount α) : Prop where
  pushed : c.pushed = c.taken ++ c.tasks
  taken : (c.taken : Multiset α) = c.done + c.underWay
  total : c.tasksTotal + c.uncounted = c.tasks.length + c.unfinished

variable {c d : PoolAccount α}

theorem Balanced.step (hc : c.Balanced) (h : Step c d) : d.Balanced := by
  obtain ⟨hpushed, htaken, htotal⟩ := hc
  cases h with
  | none => exact ⟨hpushed, htaken, htotal⟩
  | push task =>
    refine ⟨by simp [hpushed], htaken, ?_⟩
    simp only [List.length_append, List.length_singleton]
    omega
  | countPush uncounted h =>
    refine ⟨hpushed, htaken, ?_⟩
    dsimp only
    omega
  | take task tasks h =>
    refine ⟨by simp [hpushed, h], ?_, ?_⟩
    · rw [← Multiset.coe_add, htaken, Multiset.coe_singleton, add_assoc, add_comm c.underWay,
        Multiset.singleton_add]
    · rw [h, List.length_cons] at htotal
      dsimp only
      omega
  | finish task underWay h =>
    refine ⟨hpushed, ?_, htotal⟩
    rw [htaken, h, ← Multiset.coe_add, Multiset.coe_singleton, add_assoc, Multiset.singleton_add]
  | countTask unfinished h =>
    refine ⟨hpushed, htaken, ?_⟩
    dsimp only
    omega

/-- The pool of `ThreadPool`, with `threadCount` threads, can get there, whatever will be pushed
later. -/
def Realised (threadCount : ℕ) (c : PoolAccount α) : Prop :=
  ∀ future, ∃ acts p,
    run (ThreadPool.step threadCount) { incoming := c.pushed ++ future } acts = some p ∧
      p.incoming = future ∧ p.tasks = c.tasks ∧ (p.busy : Multiset α) = c.underWay ∧
      p.done = c.done

theorem Realised.step {threadCount : ℕ} (hc : c.Realised threadCount) (h : Step c d)
    (hfree : d.underWay.card ≤ threadCount) : d.Realised threadCount := by
  intro future
  cases h with
  | none | countPush | countTask => exact hc future
  | push task =>
    obtain ⟨acts, p, hrun, hin, htasks, hbusy, hdone⟩ := hc (task :: future)
    refine ⟨acts ++ [.push], { p with incoming := future, tasks := p.tasks ++ [task] }, ?_, rfl,
      by rw [htasks], hbusy, hdone⟩
    rw [List.append_assoc, List.singleton_append]
    exact run_concat_eq_some.mpr ⟨p, hrun, by simp [ThreadPool.step, hin]⟩
  | take task tasks h =>
    obtain ⟨acts, p, hrun, hin, htasks, hbusy, hdone⟩ := hc future
    refine ⟨acts ++ [.take], { p with tasks, busy := p.busy ++ [task] }, ?_, hin, rfl, ?_, hdone⟩
    · have hlt : p.busy.length < threadCount := by
        rw [← Multiset.coe_card, hbusy]
        simpa [Nat.succ_le_iff] using hfree
      exact run_concat_eq_some.mpr ⟨p, hrun, by simp [ThreadPool.step, htasks, h, hlt]⟩
    · rw [← Multiset.coe_add, hbusy, Multiset.coe_singleton, add_comm, Multiset.singleton_add]
  | finish task underWay h =>
    obtain ⟨acts, p, hrun, hin, htasks, hbusy, hdone⟩ := hc future
    have hmem : task ∈ p.busy := by
      rw [← Multiset.mem_coe, hbusy, h]
      exact Multiset.mem_cons_self task underWay
    obtain ⟨k, hk⟩ := List.mem_iff_getElem?.mp hmem
    obtain ⟨hlt, hget⟩ := List.getElem?_eq_some_iff.mp hk
    refine ⟨acts ++ [.finish k],
      { p with busy := p.busy.eraseIdx k, done := p.done ++ [task] }, ?_, hin, htasks, ?_,
      by rw [hdone]⟩
    · exact run_concat_eq_some.mpr ⟨p, hrun, by simp [ThreadPool.step, hk]⟩
    · have hperm := List.getElem_cons_eraseIdx_perm hlt
      rw [hget] at hperm
      have hcons := Multiset.coe_eq_coe.mpr hperm
      rw [hbusy, h, ← Multiset.cons_coe] at hcons
      exact (Multiset.cons_inj_right task).mp hcons

end PoolAccount

namespace PoolThreads

variable {α : Type u} {hardwareConcurrency threadCount i woken : ℕ} {s r t : PoolThreads α}
  {point point' : WorkerPoint α} {place place' : PusherPoint α} {a : PoolAction α}
  {sched : List (PoolAction α)}

/-- What the threads are doing to the tasks. -/
def account (s : PoolThreads α) : PoolAccount α where
  tasks := s.tasks
  tasksTotal := s.tasksTotal
  pushed := s.pushed
  taken := s.taken
  done := s.done
  underWay := ↑(s.workers.filterMap WorkerPoint.task?)
  unfinished := s.workers.countP WorkerPoint.uncounted
  uncounted := s.pushers.countP PusherPoint.uncounted

/-- A worker that stays away from the tasks. -/
theorem underWay_set_of_eq (hpoint : s.workers[i]? = some point) (point' : WorkerPoint α)
    (htask : point'.task? = point.task?) :
    (↑((s.workers.set i point').filterMap WorkerPoint.task?) : Multiset α) =
      ↑(s.workers.filterMap WorkerPoint.task?) := by
  have hway := ListSet.coe_filterMap_set hpoint point' WorkerPoint.task?
  rw [htask] at hway
  exact add_right_cancel hway

theorem unfinished_set_of_eq (hpoint : s.workers[i]? = some point) (point' : WorkerPoint α)
    (huncounted : point'.uncounted = point.uncounted) :
    (s.workers.set i point').countP WorkerPoint.uncounted =
      s.workers.countP WorkerPoint.uncounted := by
  have hcount := ListSet.countP_set hpoint point' WorkerPoint.uncounted
  rw [huncounted] at hcount
  exact Nat.add_right_cancel hcount

/-- What a worker does to the tasks. -/
theorem account_worker (hstep : step hardwareConcurrency s (.worker i) = some t) :
    PoolAccount.Step s.account t.account := by
  obtain ⟨point, point', r, hpoint, hadv, rfl⟩ := step_worker_eq_some.mp hstep
  have hquiet (htask : point'.task? = point.task?)
      (huncounted : point'.uncounted = point.uncounted)
      (hr : r.account = s.account) (hworkers : r.workers = s.workers) :
      account { r with workers := r.workers.set i point' } = s.account := by
    rw [← hr]
    simp only [account, hworkers, underWay_set_of_eq hpoint point' htask,
      unfinished_set_of_eq hpoint point' huncounted]
  have hway := ListSet.coe_filterMap_set hpoint point' WorkerPoint.task?
  have hcount := ListSet.countP_set hpoint point' WorkerPoint.uncounted
  cases point with
  | taking =>
    rw [advanceWorker] at hadv
    split at hadv
    · cases hadv
      rw [hquiet rfl rfl rfl rfl]
      exact .none
    · rename_i task tasks htasks
      cases hadv
      have hway' : (↑((s.workers.set i (.executing task)).filterMap WorkerPoint.task?) :
          Multiset α) = task ::ₘ ↑(s.workers.filterMap WorkerPoint.task?) := by
        simpa [WorkerPoint.task?, add_comm] using hway
      have hcount' : (s.workers.set i (.executing task)).countP WorkerPoint.uncounted =
          s.workers.countP WorkerPoint.uncounted + 1 := hcount
      simp only [account, hway', hcount']
      exact .take task tasks htasks
  | executing task =>
    cases hadv
    have hway' : (↑(s.workers.filterMap WorkerPoint.task?) : Multiset α) =
        task ::ₘ ↑((s.workers.set i .relocking).filterMap WorkerPoint.task?) := by
      simpa [WorkerPoint.task?, add_comm] using hway.symm
    simp only [account, unfinished_set_of_eq hpoint .relocking rfl]
    exact .finish task _ hway'
  | counting =>
    cases hadv
    simp only [account, underWay_set_of_eq hpoint .reporting rfl]
    exact .countTask _ hcount.symm
  | ended | undefined => cases hadv
  | locking | relocking | blocked =>
    obtain ⟨-, heq⟩ := Option.ite_none_right_eq_some.mp hadv
    cases heq
    rw [hquiet rfl rfl rfl rfl]
    exact .none
  | woken | permitted =>
    rw [advanceWorker] at hadv
    split at hadv <;> cases hadv <;>
    · rw [hquiet rfl rfl rfl rfl]
      exact .none
  | looping | testing =>
    cases hadv
    rw [hquiet (by split <;> rfl) (by split <;> rfl) rfl rfl]
    exact .none
  | releasing | reporting =>
    cases hadv
    rw [hquiet rfl rfl rfl rfl]
    exact .none

/-- A worker that is woken goes on with what it had. -/
theorem underWay_map_wakeUp (workers : List (WorkerPoint α)) :
    (workers.map wakeUp).filterMap WorkerPoint.task? = workers.filterMap WorkerPoint.task? := by
  rw [List.filterMap_map]
  congr
  funext point
  cases point <;> rfl

theorem countP_map_wakeUp (workers : List (WorkerPoint α)) :
    (workers.map wakeUp).countP WorkerPoint.uncounted = workers.countP WorkerPoint.uncounted := by
  rw [List.countP_map]
  congr
  funext point
  cases point <;> rfl

/-- `notify_one` does nothing to the tasks. -/
theorem account_notifyWorker (h : notifyWorker woken s = some r) : r.account = s.account := by
  rcases notifyWorker_cases h with ⟨hpoint, rfl⟩ | ⟨-, rfl⟩
  · simp only [account, underWay_set_of_eq hpoint (.blocked true) rfl,
      unfinished_set_of_eq hpoint (.blocked true) rfl]
  · rfl

/-- A pusher hires nobody. -/
theorem length_advancePusher (h : advancePusher i woken s place = some (place', r)) :
    r.workers.length = s.workers.length := by
  cases place with
  | locking task =>
    obtain ⟨-, heq⟩ := Option.ite_none_right_eq_some.mp h
    cases heq
    rfl
  | notifying =>
    obtain ⟨r', hr', heq⟩ := Option.map_eq_some_iff.mp h
    cases heq
    rcases notifyWorker_cases hr' with ⟨-, rfl⟩ | ⟨-, rfl⟩
    · exact List.length_set
    · rfl
  | returned => cases h
  | _ =>
    cases h
    rfl

/-- What a pusher does to the tasks. -/
theorem account_pusher (hstep : step hardwareConcurrency s (.pusher i woken) = some t) :
    PoolAccount.Step s.account t.account := by
  obtain ⟨place, place', r, hplace, hadv, rfl⟩ := step_pusher_eq_some.mp hstep
  have hcount := ListSet.countP_set hplace place' PusherPoint.uncounted
  cases place with
  | locking task =>
    obtain ⟨-, heq⟩ := Option.ite_none_right_eq_some.mp hadv
    cases heq
    simp only [account, Nat.add_right_cancel hcount]
    exact .none
  | pushing task =>
    cases hadv
    have hcount' : (s.pushers.set i .counting).countP PusherPoint.uncounted =
        s.pushers.countP PusherPoint.uncounted + 1 := hcount
    simp only [account, hcount']
    exact .push task
  | counting =>
    cases hadv
    exact .countPush _ hcount.symm
  | notifying =>
    obtain ⟨r', hr', heq⟩ := Option.map_eq_some_iff.mp hadv
    cases heq
    have hpushers : r.pushers = s.pushers := (advancePusher_frame hadv).1
    have haccount : account { r with pushers := r.pushers.set i .returned } = s.account := by
      rw [← account_notifyWorker hr']
      simp only [account, hpushers, Nat.add_right_cancel hcount]
    rw [haccount]
    exact .none
  | returned => cases hadv

/-- The manager does nothing to the tasks. -/
theorem account_manager (h : ManagerMove hardwareConcurrency s t) : t.account = s.account := by
  cases h with
  | wait | pause | stop | restore | start | created => rfl
  | notify next hs => simp only [account, underWay_map_wakeUp, countP_map_wakeUp]
  | rejoin _ _ _ hended | destroy _ hended =>
    have hworkers : ∀ point ∈ s.workers, point = .ended := fun point hpoint ↦
      WorkerPoint.eq_of_isEnded (List.all_eq_true.mp hended point hpoint)
    have hway : s.workers.filterMap WorkerPoint.task? = [] :=
      List.filterMap_eq_nil_iff.mpr fun point hpoint ↦ by rw [hworkers point hpoint]; rfl
    have hcount : s.workers.countP WorkerPoint.uncounted = 0 :=
      List.countP_eq_zero.mpr fun point hpoint ↦ by
        rw [hworkers point hpoint]
        exact Bool.false_ne_true
    simp only [account, hway, hcount, List.filterMap_nil, List.countP_nil]
  | create i hs hi =>
    have hway : (s.workers ++ [WorkerPoint.looping]).filterMap WorkerPoint.task? =
        s.workers.filterMap WorkerPoint.task? := by
      rw [List.filterMap_append]
      exact List.append_nil _
    have hcount : (s.workers ++ [WorkerPoint.looping]).countP WorkerPoint.uncounted =
        s.workers.countP WorkerPoint.uncounted := List.countP_append
    simp only [account, hway, hcount]

/-- **What a step of the threads means for the tasks.** -/
theorem account_step (h : step hardwareConcurrency s a = some t) :
    PoolAccount.Step s.account t.account := by
  cases a with
  | worker i => exact account_worker h
  | pusher i woken => exact account_pusher h
  | manager =>
    rw [account_manager (managerMove_of_step h)]
    exact .none
  | wakeWorker i =>
    obtain ⟨hasleep, heq⟩ := Option.ite_none_right_eq_some.mp h
    cases heq
    have hpoint := any_asleep.mp hasleep
    simp only [account, underWay_set_of_eq hpoint .locking rfl,
      unfinished_set_of_eq hpoint .locking rfl]
    exact .none
  | pushTask task =>
    cases h
    simp only [account, List.countP_append, List.countP_singleton, PusherPoint.uncounted]
    exact .none
  | setPaused paused =>
    cases h
    exact .none
  | call call =>
    obtain ⟨hidle, heq⟩ := Option.ite_none_right_eq_some.mp h
    cases heq
    cases call <;> exact .none
  | wakeManager =>
    rw [PoolThreads.step] at h
    split at h
    · cases h
      exact .none
    · cases h

/-! ## The crew -/

/-- How many threads the manager has created and not joined. -/
def crewSize (threadCount : ℕ) : ManagerPoint → ℕ
  | .restoring _ | .starting | .destroyed => 0
  | .creating i => i
  | _ => threadCount

/-- The workers are those that the manager has created, and `running` is set while they are to
run. -/
structure Manned (s : PoolThreads α) : Prop where
  length : s.workers.length = crewSize s.threadCount s.manager
  le : s.workers.length ≤ s.threadCount
  running : s.running = s.manager.up
  pos : 0 < s.threadCount

theorem determineThreadCount_pos (hardwareConcurrency threadCount : ℕ) :
    0 < ThreadPool.determineThreadCount hardwareConcurrency threadCount := by
  rw [ThreadPool.determineThreadCount]
  split
  · assumption
  · split
    · assumption
    · exact Nat.one_pos

theorem Manned.of_eq (hs : s.Manned) (hworkers : t.workers.length = s.workers.length)
    (hcount : t.threadCount = s.threadCount) (hrunning : t.running = s.running)
    (hsize : crewSize s.threadCount t.manager = crewSize s.threadCount s.manager)
    (hup : t.manager.up = s.manager.up) : t.Manned where
  length := by rw [hworkers, hcount, hsize, hs.length]
  le := by rw [hworkers, hcount]; exact hs.le
  running := by rw [hrunning, hup, hs.running]
  pos := by rw [hcount]; exact hs.pos

theorem crewSize_notify (threadCount : ℕ) (point : ManagerPoint) :
    crewSize threadCount point.notify = crewSize threadCount point := by
  cases point <;> rfl

theorem up_notify (point : ManagerPoint) : point.notify.up = point.up := by
  cases point <;> rfl

theorem crewSize_of_waits {point : ManagerPoint} (h : point.waits = true) (threadCount : ℕ) :
    crewSize threadCount point = threadCount := by
  cases point <;> first | rfl | cases h

theorem up_of_waits {point : ManagerPoint} (h : point.waits = true) : point.up = true := by
  cases point <;> first | rfl | cases h

theorem Manned.manager (hs : s.Manned) (h : ManagerMove hardwareConcurrency s t) : t.Manned := by
  obtain ⟨hlength, hle, hrunning, hpos⟩ := hs
  cases h with
  | wait waiting owner manager hwaits hup hnext ht =>
    rw [crewSize_of_waits hwaits] at hlength
    rw [up_of_waits hwaits] at hrunning
    refine ⟨?_, hle, hrunning.trans hup.symm, hpos⟩
    rcases ht with ht | rfl | ⟨next, rfl⟩
    · rw [crewSize_of_waits ht]
      exact hlength
    · exact hlength
    · exact hlength
  | pause threadCount wasPaused hmanager =>
    rw [hmanager] at hlength hrunning
    exact ⟨hlength, hle, hrunning, hpos⟩
  | stop next hmanager =>
    rw [hmanager] at hlength
    exact ⟨hlength, hle, rfl, hpos⟩
  | notify next hmanager =>
    rw [hmanager] at hlength hrunning
    exact ⟨(List.length_map _).trans hlength, by rwa [List.length_map], hrunning, hpos⟩
  | rejoin threadCount wasPaused hmanager =>
    rw [hmanager] at hrunning
    exact ⟨rfl, Nat.zero_le _, hrunning, determineThreadCount_pos _ _⟩
  | destroy hmanager =>
    rw [hmanager] at hrunning
    exact ⟨rfl, Nat.zero_le _, hrunning, hpos⟩
  | restore wasPaused hmanager =>
    rw [hmanager] at hlength hrunning
    exact ⟨hlength, hle, hrunning, hpos⟩
  | start hmanager =>
    rw [hmanager] at hlength
    exact ⟨hlength, hle, rfl, hpos⟩
  | create i hmanager hi =>
    rw [hmanager] at hlength hrunning
    have hlength' : (s.workers ++ [WorkerPoint.looping]).length = i + 1 := by
      rw [List.length_append, hlength]
      rfl
    refine ⟨hlength', ?_, hrunning, hpos⟩
    rw [hlength']
    exact hi
  | created i hmanager hi =>
    rw [hmanager] at hlength hrunning
    exact ⟨Nat.le_antisymm hle (hi.trans_eq hlength.symm), hle, hrunning, hpos⟩

theorem Manned.step (hs : s.Manned) (h : step hardwareConcurrency s a = some t) : t.Manned := by
  cases a with
  | worker i =>
    obtain ⟨point, point', r, -, hadv, rfl⟩ := step_worker_eq_some.mp h
    obtain ⟨hworkers, -, hcount, -, hrunning, -, -, hmanager⟩ := advanceWorker_frame hadv
    refine hs.of_eq (by rw [List.length_set, hworkers]) hcount hrunning ?_ ?_
    · rcases hmanager with hmanager | ⟨-, -, hmanager⟩
      · exact congrArg _ hmanager
      · exact (congrArg _ hmanager).trans (crewSize_notify _ _)
    · rcases hmanager with hmanager | ⟨-, -, hmanager⟩
      · exact congrArg _ hmanager
      · exact (congrArg _ hmanager).trans (up_notify _)
  | pusher i woken =>
    obtain ⟨place, place', r, -, hadv, rfl⟩ := step_pusher_eq_some.mp h
    obtain ⟨-, hcount, -, hrunning, -, hmanager, -⟩ := advancePusher_frame hadv
    have hlength := length_advancePusher hadv
    exact hs.of_eq hlength hcount hrunning (congrArg _ hmanager) (congrArg _ hmanager)
  | manager => exact hs.manager (managerMove_of_step h)
  | wakeWorker i =>
    obtain ⟨-, heq⟩ := Option.ite_none_right_eq_some.mp h
    cases heq
    exact hs.of_eq List.length_set rfl rfl rfl rfl
  | pushTask task | setPaused paused =>
    cases h
    exact hs.of_eq rfl rfl rfl rfl rfl
  | call call =>
    obtain ⟨hidle, heq⟩ := Option.ite_none_right_eq_some.mp h
    cases heq
    cases call <;> exact hs.of_eq rfl rfl rfl (by rw [hidle]; rfl) (by rw [hidle]; rfl)
  | wakeManager =>
    rw [PoolThreads.step] at h
    split at h
    · rename_i next hblocked
      cases h
      exact hs.of_eq rfl rfl rfl (by rw [hblocked]; rfl) (by rw [hblocked]; rfl)
    · cases h

/-! ## The queue is not empty when a task is taken -/

/-- What a worker may rely on at each point.  It is about the queue only where the worker holds
`tasks_mutex`. -/
def PointSound (tasks : List α) (running : Bool) : WorkerPoint α → Prop
  | .releasing => tasks = []
  | .woken => tasks ≠ [] ∨ running = false
  | .permitted | .taking => tasks ≠ []
  | .ended => running = false
  | .undefined => False
  | _ => True

theorem PointSound.of_not_holds {tasks tasks' : List α} {running : Bool}
    (h : PointSound tasks running point) (hholds : point.holds = false) :
    PointSound tasks' running point := by
  cases point <;> first | exact h | cases hholds

/-- Every worker may rely on what it does rely on. -/
def Sound (s : PoolThreads α) : Prop :=
  ∀ (i : ℕ) point, s.workers[i]? = some point → PointSound s.tasks s.running point

/-- The point that a worker gets to is sound. -/
theorem pointSound_advanceWorker (hadv : advanceWorker i s point = some (point', r))
    (h : PointSound s.tasks s.running point) : PointSound r.tasks r.running point' := by
  cases point with
  | looping =>
    cases hadv
    cases hrunning : s.running
    · rfl
    · trivial
  | testing =>
    cases hadv
    cases havailable : s.taskAvailable
    · simp only [taskAvailable, Bool.or_eq_false_iff, bne_eq_false_iff_eq,
        List.length_eq_zero_iff] at havailable
      exact havailable.1
    · have hor : s.tasks ≠ [] ∨ s.running = false := by simpa [taskAvailable] using havailable
      exact hor
  | woken =>
    rw [advanceWorker] at hadv
    split at hadv
    · rename_i hrunning
      cases hadv
      exact h.resolve_right (by simp [hrunning])
    · cases hadv
      trivial
  | permitted =>
    rw [advanceWorker] at hadv
    split at hadv <;> cases hadv
    · trivial
    · exact h
  | taking =>
    rw [advanceWorker] at hadv
    split at hadv
    · rename_i htasks
      exact absurd htasks h
    · cases hadv
      trivial
  | locking | relocking | blocked =>
    obtain ⟨-, heq⟩ := Option.ite_none_right_eq_some.mp hadv
    cases heq
    trivial
  | ended | undefined => cases hadv
  | _ =>
    cases hadv
    trivial

/-- A worker changes the queue only while it holds `tasks_mutex`. -/
theorem tasks_advanceWorker (hadv : advanceWorker i s point = some (point', r)) :
    r.tasks = s.tasks ∨ point.holds = true := by
  cases point with
  | locking | relocking | blocked =>
    obtain ⟨-, heq⟩ := Option.ite_none_right_eq_some.mp hadv
    cases heq
    exact Or.inl rfl
  | ended | undefined => cases hadv
  | looping | executing =>
    cases hadv
    exact Or.inl rfl
  | _ => exact Or.inr rfl

/-- So does a pusher. -/
theorem tasks_advancePusher (hadv : advancePusher i woken s place = some (place', r)) :
    r.tasks = s.tasks ∨ place.holds = true := by
  cases place with
  | locking task =>
    obtain ⟨-, heq⟩ := Option.ite_none_right_eq_some.mp hadv
    cases heq
    exact Or.inl rfl
  | pushing task => exact Or.inr rfl
  | counting =>
    cases hadv
    exact Or.inl rfl
  | notifying =>
    obtain ⟨r', hr', heq⟩ := Option.map_eq_some_iff.mp hadv
    cases heq
    rcases notifyWorker_cases hr' with ⟨-, rfl⟩ | ⟨-, rfl⟩ <;> exact Or.inl rfl
  | returned => cases hadv

/-- A worker that somebody else notifies. -/
theorem getElem?_advancePusher (hadv : advancePusher i woken s place = some (place', r)) (j : ℕ) :
    r.workers[j]? = s.workers[j]? ∨ r.workers[j]? = some (.blocked true) := by
  cases place with
  | locking task =>
    obtain ⟨-, heq⟩ := Option.ite_none_right_eq_some.mp hadv
    cases heq
    exact Or.inl rfl
  | notifying =>
    obtain ⟨r', hr', heq⟩ := Option.map_eq_some_iff.mp hadv
    cases heq
    rcases notifyWorker_cases hr' with ⟨hpoint, rfl⟩ | ⟨-, rfl⟩
    · rw [getElem?_set_worker hpoint]
      split
      · exact Or.inr rfl
      · exact Or.inl rfl
    · exact Or.inl rfl
  | returned => cases hadv
  | _ =>
    cases hadv
    exact Or.inl rfl

theorem Sound.worker (hs : s.Sound) (hlocked : s.Locked)
    (h : step hardwareConcurrency s (.worker i) = some t) : t.Sound := by
  obtain ⟨point, point', r, hpoint, hadv, rfl⟩ := step_worker_eq_some.mp h
  obtain ⟨hworkers, -, -, -, hrunning, -⟩ := advanceWorker_frame hadv
  intro j q hq
  dsimp only at hq ⊢
  rw [hworkers, getElem?_set_worker hpoint] at hq
  split at hq
  · cases hq
    exact pointSound_advanceWorker hadv (hs i point hpoint)
  · rename_i hij
    rw [hrunning]
    rcases tasks_advanceWorker hadv with htasks | hholds
    · rw [htasks]
      exact hs j q hq
    · -- worker `i` holds the mutex, so worker `j` does not
      refine (hs j q hq).of_not_holds (Bool.eq_false_iff.mpr fun hholds' ↦ hij ?_)
      have hi : s.Holds (.worker i) := by simpa [Holds, hpoint] using hholds
      have hj : s.Holds (.worker j) := by simpa [Holds, hq] using hholds'
      exact PoolThread.worker.inj (Mutex.OwnedBy.eq hlocked hi hj)

theorem Sound.pusher (hs : s.Sound) (hlocked : s.Locked)
    (h : step hardwareConcurrency s (.pusher i woken) = some t) : t.Sound := by
  obtain ⟨place, place', r, hplace, hadv, rfl⟩ := step_pusher_eq_some.mp h
  obtain ⟨-, -, -, hrunning, -⟩ := advancePusher_frame hadv
  intro j q hq
  dsimp only at hq ⊢
  rw [hrunning]
  rcases getElem?_advancePusher hadv j with hsame | hwoken
  · rw [hsame] at hq
    rcases tasks_advancePusher hadv with htasks | hholds
    · rw [htasks]
      exact hs j q hq
    · refine (hs j q hq).of_not_holds (Bool.eq_false_iff.mpr fun hholds' ↦ ?_)
      have hi : s.Holds (.pusher i) := by simpa [Holds, hplace] using hholds
      have hj : s.Holds (.worker j) := by simpa [Holds, hq] using hholds'
      exact PoolThread.noConfusion (Mutex.OwnedBy.eq hlocked hi hj)
  · cases hwoken.symm.trans hq
    trivial

theorem Sound.manager (hs : s.Sound) (hmanned : s.Manned)
    (h : ManagerMove hardwareConcurrency s t) : t.Sound := by
  cases h with
  | wait | pause | created | restore => exact hs
  | stop next hmanager =>
    intro j q hq
    have hq' := hs j q hq
    cases q with
    | woken => exact Or.inr rfl
    | ended => rfl
    | _ => exact hq'
  | notify next hmanager =>
    intro j q hq
    obtain ⟨p, hp, rfl⟩ := Option.map_eq_some_iff.mp (List.getElem?_map ▸ hq)
    have hp' := hs j p hp
    cases p <;> exact hp'
  | rejoin | destroy =>
    intro j q hq
    cases hq
  | start hmanager =>
    have hlength := hmanned.length
    rw [hmanager] at hlength
    intro j q hq
    rw [List.eq_nil_of_length_eq_zero hlength] at hq
    cases hq
  | create i hmanager hi =>
    intro j q hq
    rcases List.mem_append.mp (List.mem_of_getElem? hq) with hold | hnew
    · obtain ⟨k, hk⟩ := List.mem_iff_getElem?.mp hold
      exact hs k q hk
    · cases List.mem_singleton.mp hnew
      trivial

theorem Sound.step (hs : s.Sound) (hlocked : s.Locked) (hmanned : s.Manned)
    (h : step hardwareConcurrency s a = some t) : t.Sound := by
  cases a with
  | worker i => exact hs.worker hlocked h
  | pusher i woken => exact hs.pusher hlocked h
  | manager => exact hs.manager hmanned (managerMove_of_step h)
  | wakeWorker i =>
    obtain ⟨hasleep, heq⟩ := Option.ite_none_right_eq_some.mp h
    cases heq
    intro j q hq
    dsimp only at hq
    rw [getElem?_set_worker (any_asleep.mp hasleep)] at hq
    split at hq
    · cases hq
      trivial
    · exact hs j q hq
  | pushTask task | setPaused paused =>
    cases h
    exact hs
  | call call =>
    obtain ⟨-, heq⟩ := Option.ite_none_right_eq_some.mp h
    cases heq
    cases call <;> exact hs
  | wakeManager =>
    rw [PoolThreads.step] at h
    split at h
    · cases h
      exact hs
    · cases h

/-- What holds of a pool in every state. -/
structure Proper (s : PoolThreads α) : Prop where
  locked : s.Locked
  manned : s.Manned
  sound : s.Sound
  balanced : s.account.Balanced

theorem Proper.step (hs : s.Proper) (h : step hardwareConcurrency s a = some t) : t.Proper where
  locked := hs.locked.step h
  manned := hs.manned.step h
  sound := hs.sound.step hs.locked hs.manned h
  balanced := hs.balanced.step (account_step h)

theorem proper_construct (hardwareConcurrency threadCount : ℕ) :
    (construct hardwareConcurrency threadCount : PoolThreads α).Proper where
  locked := locked_construct _ _
  manned := ⟨rfl, Nat.zero_le _, rfl, determineThreadCount_pos _ _⟩
  sound := fun _ _ h ↦ by cases h
  balanced := ⟨rfl, rfl, rfl⟩

theorem proper_of_run
    (h : run (step hardwareConcurrency) (construct hardwareConcurrency threadCount) sched =
      some s) :
    s.Proper :=
  run_invariant (fun _ _ _ hstep hs ↦ Proper.step hs hstep) h (proper_construct _ _)

/-- **`front` is never called on an empty queue**, whoever pushes, resets and pauses when. -/
theorem undefined_notMem_of_run
    (h : run (step hardwareConcurrency) (construct hardwareConcurrency threadCount) sched =
      some s) :
    .undefined ∉ s.workers := by
  intro hmem
  obtain ⟨i, hi⟩ := List.mem_iff_getElem?.mp hmem
  exact (proper_of_run h).sound i .undefined hi

theorem undefined_notMem_taking : WorkerPoint.undefined ∉ [(WorkerPoint.taking : WorkerPoint ℕ)] :=
  undefined_notMem_of_run
    (show run (step 1) (construct 1 0)
        [.manager, .manager, .manager, .pushTask 7, .pusher 0 0, .pusher 0 0, .worker 0, .worker 0,
          .worker 0, .worker 0, .worker 0] =
      some {
        threadCount := 1
        tasks := [7]
        running := true
        owner := some (.worker 0)
        workers := [.taking]
        pushers := [.counting]
        manager := .idle
        pushed := [7] } from rfl)

/-! ## The pool that the threads make up -/

/-- No more than `bound` threads are wanted, now or after a reset that has been called. -/
structure Within (hardwareConcurrency bound : ℕ) (s : PoolThreads α) : Prop where
  now : s.threadCount ≤ bound
  next : ∀ threadCount wasPaused, s.manager.next? = some (.resetting threadCount wasPaused) →
    ThreadPool.determineThreadCount hardwareConcurrency threadCount ≤ bound

theorem Within.of_eq {bound : ℕ} (hs : s.Within hardwareConcurrency bound)
    (hcount : t.threadCount = s.threadCount) (hnext : t.manager.next? = s.manager.next?) :
    t.Within hardwareConcurrency bound where
  now := by rw [hcount]; exact hs.now
  next := by rw [hnext]; exact hs.next

theorem Within.manager {bound : ℕ} (hs : s.Within hardwareConcurrency bound)
    (h : ManagerMove hardwareConcurrency s t) : t.Within hardwareConcurrency bound := by
  cases h with
  | wait waiting owner manager _ _ hnext _ => exact hs.of_eq rfl hnext
  | pause _ _ hmanager | stop _ hmanager | notify _ hmanager =>
    exact hs.of_eq rfl (by rw [hmanager]; rfl)
  | rejoin threadCount wasPaused hmanager =>
    exact ⟨hs.next threadCount wasPaused (by rw [hmanager]; rfl), fun _ _ h ↦ by cases h⟩
  | destroy | restore | start | create | created => exact ⟨hs.now, fun _ _ h ↦ by cases h⟩

theorem Within.step {bound : ℕ} (hs : s.Within hardwareConcurrency bound)
    (ha : ∀ threadCount, a = .call (.reset threadCount) →
      ThreadPool.determineThreadCount hardwareConcurrency threadCount ≤ bound)
    (h : step hardwareConcurrency s a = some t) : t.Within hardwareConcurrency bound := by
  cases a with
  | worker i =>
    obtain ⟨point, point', r, -, hadv, rfl⟩ := step_worker_eq_some.mp h
    obtain ⟨-, -, hcount, -, -, -, -, hmanager⟩ := advanceWorker_frame hadv
    refine hs.of_eq hcount ?_
    rcases hmanager with hmanager | ⟨-, -, hmanager⟩
    · exact congrArg _ hmanager
    · refine (congrArg _ hmanager).trans ?_
      cases s.manager <;> rfl
  | pusher i woken =>
    obtain ⟨place, place', r, -, hadv, rfl⟩ := step_pusher_eq_some.mp h
    obtain ⟨-, hcount, -, -, -, hmanager, -⟩ := advancePusher_frame hadv
    exact hs.of_eq hcount (congrArg _ hmanager)
  | manager => exact hs.manager (managerMove_of_step h)
  | wakeWorker i =>
    obtain ⟨-, heq⟩ := Option.ite_none_right_eq_some.mp h
    cases heq
    exact hs.of_eq rfl rfl
  | pushTask task | setPaused paused =>
    cases h
    exact hs.of_eq rfl rfl
  | call call =>
    obtain ⟨-, heq⟩ := Option.ite_none_right_eq_some.mp h
    cases heq
    cases call with
    | waitForTasks | destruct => exact ⟨hs.now, fun _ _ h ↦ by cases h⟩
    | reset threadCount =>
      refine ⟨hs.now, fun threadCount' wasPaused h ↦ ?_⟩
      cases h
      exact ha threadCount rfl
  | wakeManager =>
    rw [PoolThreads.step] at h
    split at h
    · rename_i next hblocked
      cases h
      exact hs.of_eq rfl (by rw [hblocked]; rfl)
    · cases h

/-- A task is under way with a worker that does nothing else. -/
theorem card_underWay_le (s : PoolThreads α) : s.account.underWay.card ≤ s.workers.length :=
  List.length_filterMap_le _ _

theorem realised_of_run {bound : ℕ}
    (h : run (step hardwareConcurrency) (construct hardwareConcurrency threadCount) sched = some s)
    (hbound : ThreadPool.determineThreadCount hardwareConcurrency threadCount ≤ bound)
    (hreset : ∀ threadCount, .call (.reset threadCount) ∈ sched →
      ThreadPool.determineThreadCount hardwareConcurrency threadCount ≤ bound) :
    s.account.Realised bound := by
  have hinv : s.Proper ∧ s.Within hardwareConcurrency bound ∧ s.account.Realised bound := by
    refine run_invariant_of_mem (P := fun s ↦ s.Proper ∧ s.Within hardwareConcurrency bound ∧
      s.account.Realised bound) ?_ h ?_
    · rintro a ha s t hstep ⟨hproper, hwithin, hreal⟩
      have hproper' := hproper.step hstep
      have hwithin' := hwithin.step (fun threadCount heq ↦ hreset threadCount (heq ▸ ha)) hstep
      refine ⟨hproper', hwithin', hreal.step (account_step hstep) ?_⟩
      exact (card_underWay_le t).trans (hproper'.manned.le.trans hwithin'.now)
    · refine ⟨proper_construct _ _, ⟨hbound, fun _ _ h ↦ by cases h⟩, fun future ↦ ?_⟩
      exact ⟨[], _, rfl, rfl, rfl, rfl, rfl⟩
  exact hinv.2.2

/-- **The threads make up the pool of `ThreadPool`.**  Whatever the threads do with the mutex and
the condition variables, the tasks are where a pool of at most `bound` threads could have brought
them that only pushes, takes and finishes. -/
theorem refines_of_run {bound : ℕ}
    (h : run (step hardwareConcurrency) (construct hardwareConcurrency threadCount) sched = some s)
    (hbound : ThreadPool.determineThreadCount hardwareConcurrency threadCount ≤ bound)
    (hreset : ∀ threadCount, .call (.reset threadCount) ∈ sched →
      ThreadPool.determineThreadCount hardwareConcurrency threadCount ≤ bound) :
    ∃ acts p, run (ThreadPool.step bound) { incoming := s.pushed } acts = some p ∧
      p.incoming = [] ∧ p.tasks = s.tasks ∧
      p.busy.Perm (s.workers.filterMap WorkerPoint.task?) ∧ p.done = s.done := by
  obtain ⟨acts, p, hrun, hin, htasks, hbusy, hdone⟩ := realised_of_run h hbound hreset []
  rw [List.append_nil] at hrun
  exact ⟨acts, p, hrun, hin, htasks, Multiset.coe_eq_coe.mp hbusy, hdone⟩

theorem refines_executing :
    ∃ acts p, run (ThreadPool.step 1) { incoming := [7] } acts = some p ∧ p.incoming = [] ∧
      p.tasks = [] ∧ p.busy.Perm [7] ∧ p.done = [] :=
  refines_of_run
    (show run (step 1) (construct 1 0)
        [.manager, .manager, .manager, .pushTask 7, .pusher 0 0, .pusher 0 0, .worker 0, .worker 0,
          .worker 0, .worker 0, .worker 0, .worker 0] =
      some {
        threadCount := 1
        running := true
        workers := [.executing 7]
        pushers := [.counting]
        manager := .idle
        pushed := [7]
        taken := [7] } from rfl)
    (by decide) (by simp)

/-! ## What the pool says about itself -/

/-- `get_tasks_running`, which has to wait for `tasks_mutex`, as a number of 64 bits. -/
def getTasksRunning (s : PoolThreads α) : Option ℕ :=
  if s.owner = none then some ((s.tasksTotal - s.tasks.length) % 2 ^ 64).toNat else none

/-- **`get_tasks_running` is right exactly while no push is between its two halves.**  Otherwise it
is too small, or wraps around. -/
theorem getTasksRunning_eq_iff
    (h : run (step hardwareConcurrency) (construct hardwareConcurrency threadCount) sched = some s)
    (hfree : s.owner = none) (hworkers : s.workers.length < 2 ^ 64)
    (hpushers : s.pushers.length < 2 ^ 64) :
    s.getTasksRunning = some (s.workers.countP WorkerPoint.uncounted) ↔ .counting ∉ s.pushers := by
  have htotal : s.tasksTotal + s.pushers.countP PusherPoint.uncounted =
      s.tasks.length + s.workers.countP WorkerPoint.uncounted := (proper_of_run h).balanced.total
  have hunfinished : s.workers.countP WorkerPoint.uncounted ≤ s.workers.length :=
    List.countP_le_length
  have huncounted : s.pushers.countP PusherPoint.uncounted ≤ s.pushers.length :=
    List.countP_le_length
  have hnone : .counting ∉ s.pushers ↔ s.pushers.countP PusherPoint.uncounted = 0 := by
    rw [List.countP_eq_zero]
    constructor
    · intro hcounting place hplace huncounted
      cases place with
      | counting => exact hcounting hplace
      | _ => cases huncounted
    · exact fun hall hcounting ↦ hall _ hcounting rfl
  rw [hnone, getTasksRunning, if_pos hfree, Option.some_inj]
  omega

/-- One task is being executed, and `get_tasks_running` says 0. -/
theorem getTasksRunning_counting :
    getTasksRunning {
        threadCount := 1
        running := true
        workers := [.executing 7]
        pushers := [.counting]
        manager := .idle
        pushed := [7]
        taken := [7] } = some 1 ↔
      (PusherPoint.counting : PusherPoint ℕ) ∉ [PusherPoint.counting] :=
  getTasksRunning_eq_iff
    (show run (step 1) (construct 1 0)
        [.manager, .manager, .manager, .pushTask 7, .pusher 0 0, .pusher 0 0, .worker 0, .worker 0,
          .worker 0, .worker 0, .worker 0, .worker 0] = _ from rfl)
    rfl (by decide) (by decide)

end PoolThreads

end Ekg
