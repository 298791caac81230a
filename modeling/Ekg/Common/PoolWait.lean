import Ekg.Common.PoolProgress

/-!
# Waiting for a pool, pausing it and destroying it

`wait_for_tasks` waits on a condition variable, and so depends on being notified.  It is, by the
worker that makes `tasks_total` zero, as long as nobody else does: `wait_returns` is about a wait
during which no task is being pushed, and `exists_wait_stuck` about one during which a push is on
its way from the queue to the counter.  `taken_of_paused` is what `pause` promises.

`destroy_threads` clears `running` and notifies all the workers without taking `tasks_mutex`.  A
worker that has looked at `running` before and goes to sleep after that is not woken:
`joins_iff` says that this is the one way in which the threads cannot be joined.
-/

set_option autoImplicit false

namespace Ekg

open Steps

universe u

namespace PoolThreads

variable {α : Type u} {hardwareConcurrency threadCount i woken : ℕ} {s r t : PoolThreads α}
  {point point' : WorkerPoint α} {place place' : PusherPoint α} {a : PoolAction α}
  {sched rest : List (PoolAction α)} {next : Option PoolEnding}

/-! ## `wait_for_tasks` -/

/-- At this point a worker has taken a task, and has not looked at `waiting` after it. -/
def occupied : WorkerPoint α → Bool
  | .executing _ | .relocking | .counting | .reporting => true
  | _ => false

/-- There is something to do, after which a worker is going to look at `waiting`. -/
def Busy (s : PoolThreads α) : Prop := s.tasks ≠ [] ∨ s.workers.any occupied = true

/-- Nothing is left to do. -/
def Finished (s : PoolThreads α) : Prop :=
  s.account.tasks = [] ∧ s.account.unfinished = 0

/-- What is known of a wait that has got to some point, and after the wait. -/
def WaitFact (s : PoolThreads α) : ManagerPoint → Prop
  | .waitEntering _ => True
  | .waitLocking _ | .waitTesting _ | .waitBlocked true _ => s.waiting = true
  | .waitComparing tasksTotal _ => s.waiting = true ∧ tasksTotal = s.tasksTotal
  | .waitReleasing _ | .waitBlocked false _ => s.waiting = true ∧ s.Busy
  | _ => s.Finished

/-- A wait during which nobody pushes. -/
structure Waiting (s : PoolThreads α) : Prop where
  calm : s.Calm
  pushers : ∀ place ∈ s.pushers, place = .returned
  fact : s.WaitFact s.manager

theorem waitFact_of_not_waits (hs : s.Finished) {manager : ManagerPoint}
    (hmanager : manager.waits = false) : s.WaitFact manager := by
  cases manager <;> first | exact hs | cases hmanager

/-- A worker keeps the pool busy, or looks at `waiting`. -/
theorem occupied_advanceWorker (hadv : advanceWorker i s point = some (point', r)) :
    point = .reporting ∨ occupied point' = true ∨ occupied point = false ∧ r.tasks = s.tasks := by
  cases point with
  | locking | relocking | blocked =>
    obtain ⟨-, heq⟩ := Option.ite_none_right_eq_some.mp hadv
    cases heq
    simp [occupied]
  | woken | permitted | taking =>
    rw [advanceWorker] at hadv
    split at hadv <;> cases hadv <;> simp [occupied]
  | ended | undefined => cases hadv
  | _ =>
    cases hadv
    simp [occupied]

theorem busy_of_worker (hpoint : s.workers[i]? = some point)
    (hadv : advanceWorker i s point = some (point', r)) (hs : s.Busy) :
    point = .reporting ∨ Busy { r with workers := s.workers.set i point' } := by
  rcases occupied_advanceWorker hadv with hreporting | hoccupied | ⟨hfree, htasks⟩
  · exact Or.inl hreporting
  · have hi : i < s.workers.length := (List.getElem?_eq_some_iff.mp hpoint).1
    exact Or.inr (Or.inr (List.any_eq_true.mpr ⟨point', List.mem_set hi point', hoccupied⟩))
  · refine Or.inr (hs.imp (fun hne ↦ by rwa [htasks]) fun hany ↦ ?_)
    obtain ⟨other, hmem, hother⟩ := List.any_eq_true.mp hany
    obtain ⟨j, hj⟩ := List.mem_iff_getElem?.mp hmem
    have hij : i ≠ j := by
      rintro rfl
      cases hpoint.symm.trans hj
      exact absurd (hfree.symm.trans hother) Bool.false_ne_true
    have hj' : (s.workers.set i point')[j]? = some other := by rwa [List.getElem?_set_ne hij]
    exact List.any_eq_true.mpr ⟨other, List.mem_of_getElem? hj', hother⟩

/-- A worker changes `tasks_total` only while it holds `tasks_mutex`. -/
theorem tasksTotal_advanceWorker (hadv : advanceWorker i s point = some (point', r)) :
    r.tasksTotal = s.tasksTotal ∨ point.holds = true := by
  cases point with
  | locking | relocking | blocked =>
    obtain ⟨-, heq⟩ := Option.ite_none_right_eq_some.mp hadv
    cases heq
    exact Or.inl rfl
  | ended | undefined => cases hadv
  | looping | executing =>
    cases hadv
    exact Or.inl rfl
  | _ => exact Or.inr rfl

/-- What is finished stays finished, unless somebody pushes. -/
theorem Finished.worker (hs : s.Finished) (h : step hardwareConcurrency s (.worker i) = some t) :
    t.Finished := by
  obtain ⟨htasks, hunfinished⟩ := hs
  have hpushed : t.account.pushed = s.account.pushed := by
    obtain ⟨point, point', r, -, hadv, rfl⟩ := step_worker_eq_some.mp h
    exact (advanceWorker_frame hadv).2.2.2.2.2.2.1
  have haccount := account_worker h
  rw [Finished]
  generalize t.account = d at haccount hpushed
  cases haccount with
  | none | countPush | finish => exact ⟨htasks, hunfinished⟩
  | push task => simp at hpushed
  | take task tasks hcons => cases htasks.symm.trans hcons
  | countTask unfinished hsucc => cases hunfinished.symm.trans hsucc

/-- Where the manager holds the mutex, no worker does. -/
theorem holds_worker_eq_false (hlocked : s.Locked) (hmanager : s.manager.holds = true)
    (hpoint : s.workers[i]? = some point) : point.holds = false := by
  refine Bool.eq_false_iff.mpr fun hholds ↦ ?_
  have hi : s.Holds (.worker i) := by simpa [Holds, hpoint] using hholds
  have hm : s.Holds .manager := hmanager
  exact PoolThread.noConfusion (Mutex.OwnedBy.eq hlocked hi hm)

/-- A worker that looks at `waiting` notifies the manager, if that waits. -/
theorem WaitFact.report (hs : s.WaitFact s.manager) (hlocked : s.Locked)
    (hpoint : s.workers[i]? = some .reporting)
    (h : step hardwareConcurrency s (.worker i) = some t) : t.WaitFact t.manager := by
  have hfinished (hs : s.Finished) : t.Finished := hs.worker h
  have hnot (hholds : s.manager.holds = true) : False :=
    Bool.false_ne_true (holds_worker_eq_false hlocked hholds hpoint).symm
  obtain ⟨point, point', r, hpoint', hadv, rfl⟩ := step_worker_eq_some.mp h
  cases hpoint.symm.trans hpoint'
  cases hadv
  cases hmanager : s.manager with
  | waitTesting | waitComparing | waitReleasing | waitLeaving =>
    exact (hnot (by rw [hmanager]; rfl)).elim
  | waitEntering next => simp [ManagerPoint.notify, WaitFact]
  | waitLocking next =>
    rw [hmanager] at hs
    have hwaiting : s.waiting = true := hs
    simp [hwaiting, ManagerPoint.notify, WaitFact]
  | waitBlocked notified next =>
    rw [hmanager] at hs
    have hwaiting : s.waiting = true := by
      cases notified with
      | true => exact hs
      | false => exact hs.1
    simp [hwaiting, ManagerPoint.notify, WaitFact]
  | _ =>
    rw [hmanager] at hs
    refine waitFact_of_not_waits (hfinished hs) ?_
    dsimp only
    split <;> rfl

theorem WaitFact.worker (hs : s.WaitFact s.manager) (hlocked : s.Locked)
    (h : step hardwareConcurrency s (.worker i) = some t) : t.WaitFact t.manager := by
  have hfinished (hs : s.Finished) : t.Finished := hs.worker h
  obtain ⟨point, point', r, hpoint, hadv, rfl⟩ := step_worker_eq_some.mp h
  obtain ⟨hworkers, -, -, -, -, hwaiting, -, hmanager⟩ := advanceWorker_frame hadv
  by_cases hreporting : point = .reporting
  · subst hreporting
    exact hs.report hlocked hpoint h
  have hmanager : r.manager = s.manager := hmanager.resolve_right fun h ↦ hreporting h.1
  have hbusy (hs : s.Busy) : Busy { r with workers := r.workers.set i point' } := by
    rw [hworkers]
    exact (busy_of_worker hpoint hadv hs).resolve_left hreporting
  have htotal := tasksTotal_advanceWorker hadv
  have hnot (hholds : s.manager.holds = true) := holds_worker_eq_false hlocked hholds hpoint
  dsimp only
  rw [hmanager]
  cases hwait : s.manager with
  | waitEntering next => trivial
  | waitLocking next | waitTesting next =>
    rw [hwait] at hs
    exact hwaiting.trans hs
  | waitComparing tasksTotal next =>
    rw [hwait] at hs hnot
    have hsame := htotal.resolve_right fun hholds ↦
      Bool.false_ne_true ((hnot rfl).symm.trans hholds)
    exact ⟨hwaiting.trans hs.1, hs.2.trans hsame.symm⟩
  | waitReleasing next =>
    rw [hwait] at hs
    exact ⟨hwaiting.trans hs.1, hbusy hs.2⟩
  | waitBlocked notified next =>
    rw [hwait] at hs
    cases notified with
    | true => exact hwaiting.trans hs
    | false => exact ⟨hwaiting.trans hs.1, hbusy hs.2⟩
  | _ =>
    rw [hwait] at hs
    exact hfinished hs

/-- Without a push on its way, `tasks_total` is what is left to do. -/
theorem tasksTotal_eq (hs : s.account.Balanced)
    (hpushers : ∀ place ∈ s.pushers, place = .returned) :
    s.tasksTotal = s.account.tasks.length + s.account.unfinished := by
  have hcount : s.account.uncounted = 0 :=
    List.countP_eq_zero.mpr fun place hmem ↦ by
      rw [hpushers place hmem]
      exact Bool.false_ne_true
  have htotal : s.tasksTotal + s.account.uncounted =
      s.account.tasks.length + s.account.unfinished := hs.total
  omega

theorem busy_of_ne_zero (h : (s.account.tasks.length + s.account.unfinished : ℤ) ≠ 0) : s.Busy := by
  by_cases htasks : s.tasks = []
  · right
    have hpos : 0 < s.workers.countP WorkerPoint.uncounted := by
      simp only [account, htasks, List.length_nil] at h
      omega
    obtain ⟨point, hmem, huncounted⟩ := List.countP_pos_iff.mp hpos
    refine List.any_eq_true.mpr ⟨point, hmem, ?_⟩
    cases point <;> first | rfl | cases huncounted
  · exact Or.inl htasks

theorem WaitFact.manager (hs : s.Waiting) (h : s.advanceManager hardwareConcurrency = some t) :
    t.WaitFact t.manager := by
  have hfact := hs.fact
  have hmove := managerMove_of_step h
  have haccount := account_manager hmove
  have hfinished (hs : s.Finished) : t.Finished := by rwa [Finished, haccount]
  have htotal := tasksTotal_eq hs.calm.proper.balanced hs.pushers
  rw [advanceManager] at h
  cases hmanager : s.manager with
  | idle | destroyed => simp [hmanager] at h
  | pausing threadCount wasPaused =>
    rw [hmanager] at h
    cases h
    trivial
  | waitEntering next =>
    rw [hmanager] at h
    cases h
    rfl
  | waitLocking next =>
    rw [hmanager] at h hfact
    obtain ⟨-, heq⟩ := Option.ite_none_right_eq_some.mp h
    cases heq
    exact hfact
  | waitTesting next =>
    rw [hmanager] at h hfact
    cases h
    exact ⟨hfact, rfl⟩
  | waitComparing tasksTotal next =>
    rw [hmanager] at hfact
    obtain ⟨hwaiting, rfl⟩ := hfact
    simp only [hmanager, Option.some.injEq] at h
    subst h
    cases hdone : s.tasksDone s.tasksTotal with
    | true =>
      have hzero : s.tasksTotal = 0 := by simpa [tasksDone, hs.calm.unpaused] using hdone
      have hfin : s.Finished := by
        refine ⟨List.eq_nil_of_length_eq_zero ?_, ?_⟩ <;> omega
      exact hfin
    | false =>
      have hne : s.tasksTotal ≠ 0 := by simpa [tasksDone, hs.calm.unpaused] using hdone
      have hbusy : s.Busy := busy_of_ne_zero (htotal ▸ hne)
      exact ⟨hwaiting, hbusy⟩
  | waitReleasing next =>
    rw [hmanager] at h hfact
    cases h
    exact hfact
  | waitBlocked notified next =>
    rw [hmanager] at h hfact
    obtain ⟨hnotified, heq⟩ := Option.ite_none_right_eq_some.mp h
    subst hnotified
    cases heq
    exact hfact
  | waitLeaving next =>
    rw [hmanager] at h hfact
    cases h
    cases next <;> exact hfinished hfact
  | _ =>
    rw [hmanager] at hfact
    refine waitFact_of_not_waits (hfinished hfact) ?_
    cases hmove with
    | wait _ _ _ hwaits =>
      rw [hmanager] at hwaits
      cases hwaits
    | pause _ _ hpausing => cases hmanager.symm.trans hpausing
    | _ => rfl

theorem Waiting.step (hs : s.Waiting) (ha : Works a) (h : step hardwareConcurrency s a = some t) :
    t.Waiting := by
  have hcalm := (hs.calm.step ha h).1
  cases a with
  | worker i =>
    refine ⟨hcalm, ?_, hs.fact.worker hs.calm.proper.locked h⟩
    obtain ⟨point, point', r, -, hadv, rfl⟩ := step_worker_eq_some.mp h
    rw [(advanceWorker_frame hadv).2.1]
    exact hs.pushers
  | pusher i woken =>
    obtain ⟨place, place', r, hplace, hadv, -⟩ := step_pusher_eq_some.mp h
    rw [hs.pushers place (List.mem_of_getElem? hplace)] at hadv
    cases hadv
  | manager =>
    refine ⟨hcalm, ?_, WaitFact.manager hs h⟩
    rw [(advanceManager_owner h).1]
    exact hs.pushers
  | _ => exact ha.elim

/-- What is finished is all that was submitted, if nobody is pushing. -/
theorem Finished.done_eq (hs : s.Finished) (hbalanced : s.account.Balanced)
    (hpushers : ∀ place ∈ s.pushers, place = .returned) :
    s.tasks = [] ∧ (s.done : Multiset α) = s.submitted := by
  obtain ⟨htasks, hunfinished⟩ := hs
  have hway : s.account.underWay = 0 := by
    have hnone := List.countP_eq_zero.mp hunfinished
    have hnil : s.workers.filterMap WorkerPoint.task? = [] :=
      List.filterMap_eq_nil_iff.mpr fun point hmem ↦ by
        have huncounted := hnone point hmem
        cases point <;> first | rfl | exact absurd rfl huncounted
    simp only [account, hnil, Multiset.coe_nil]
  have hleft : s.pushers.filterMap PusherPoint.task? = [] :=
    List.filterMap_eq_nil_iff.mpr fun place hmem ↦ by rw [hpushers place hmem]; rfl
  have htaken : (s.taken : Multiset α) = s.done + s.account.underWay := hbalanced.taken
  have hpushed : s.pushed = s.taken ++ s.account.tasks := hbalanced.pushed
  rw [htasks, List.append_nil] at hpushed
  rw [hway, add_zero] at htaken
  refine ⟨htasks, ?_⟩
  rw [submitted, hleft, hpushed, htaken, Multiset.coe_nil, add_zero]

/-- A wait that begins while nobody is pushing. -/
theorem waiting_of_entering
    (h : run (step hardwareConcurrency) (construct hardwareConcurrency threadCount) sched = some s)
    (hpaused : s.paused = false) (hcall : s.manager = .waitEntering next)
    (hnext : next.any PoolEnding.isResetting = false)
    (hpushers : ∀ place ∈ s.pushers, place = .returned) : s.Waiting :=
  ⟨calm_of_run h hpaused (by rw [hcall]; exact hnext), hpushers, by rw [hcall]; trivial⟩

/-- When the wait is over, all that was submitted is done. -/
theorem done_perm_of_waiting (ht : t.Waiting) (hwaits : t.manager.waits = false)
    (h : run (step hardwareConcurrency) (construct hardwareConcurrency threadCount) sched =
      some t) :
    t.tasks = [] ∧ t.done.Perm (sched.filterMap PoolAction.task?) := by
  have hfinished : t.Finished := by
    have hfact := ht.fact
    cases hmanager : t.manager <;> rw [hmanager] at hfact hwaits <;>
      first | exact hfact | cases hwaits
  obtain ⟨htasks, hdone⟩ := hfinished.done_eq ht.calm.proper.balanced ht.pushers
  exact ⟨htasks, Multiset.coe_eq_coe.mp (hdone.trans (submitted_of_run h))⟩

/-- **`wait_for_tasks` returns, and not before everything is done**, if no task is being pushed when
it is called and none is pushed until it returns, and the pool is not paused.  So it is with the
destructor, as far as it waits. -/
theorem wait_returns
    (h : run (step hardwareConcurrency) (construct hardwareConcurrency threadCount) sched = some s)
    (hpaused : s.paused = false) (hcall : s.manager = .waitEntering next)
    (hnext : next.any PoolEnding.isResetting = false)
    (hpushers : ∀ place ∈ s.pushers, place = .returned)
    (hrest : ∀ a ∈ rest, Works a) (hrun : run (step hardwareConcurrency) s rest = some t) :
    rest.length ≤ s.measure ∧
      (Stuck (step hardwareConcurrency) Works t → t.manager.waits = false) ∧
      (t.manager.waits = false →
        t.tasks = [] ∧ t.done.Perm (sched.filterMap PoolAction.task?)) := by
  have hcalm := calm_of_run h hpaused (by rw [hcall]; exact hnext)
  have hwaiting : t.Waiting :=
    run_invariant_of_mem (fun a ha s t hstep hs ↦ Waiting.step hs (hrest a ha) hstep) hrun
      (waiting_of_entering h hpaused hcall hnext hpushers)
  obtain ⟨-, hle⟩ := length_add_le_of_run (fun _ _ _ hs ha hstep ↦ Calm.step hs ha hstep) hrun
    hrest hcalm
  refine ⟨(Nat.le_add_right _ _).trans hle, fun hstuck ↦ ?_, fun hwaits ↦ ?_⟩
  swap
  · have hdone := done_perm_of_waiting hwaiting hwaits (run_append_eq_some.mpr ⟨s, h, hrun⟩)
    rwa [List.filterMap_append, filterMap_task?_of_works hrest, List.append_nil] at hdone
  obtain ⟨-, -, heq | heq | ⟨next, heq⟩ | ⟨next, heq⟩⟩ :=
    cases_of_stuck hwaiting.calm.proper hstuck
  · rw [heq]; rfl
  · rw [heq]; rfl
  · -- somebody would have to be busy, but everybody sleeps
    exfalso
    have hfact := hwaiting.fact
    obtain ⟨htasks, hasleep, -⟩ :=
      done_of_stuck hwaiting.calm hstuck (by rw [heq]; rfl)
    rw [heq] at hfact
    rcases hfact.2 with hne | hany
    · exact hne htasks
    · obtain ⟨point, hmem, hoccupied⟩ := List.any_eq_true.mp hany
      rw [hasleep point hmem] at hoccupied
      cases hoccupied
  · rw [heq]; rfl

theorem wait_returns_one :
    (List.replicate 10 (PoolAction.worker 0 : PoolAction ℕ) ++
        List.replicate 5 PoolAction.manager).length ≤
        measure { threadCount := 1, tasks := [7], tasksTotal := 1, running := true,
                  workers := [.looping], pushers := [.returned], manager := .waitEntering none,
                  pushed := [7] } ∧
      (Stuck (step 1) Works
          { threadCount := 1, running := true, workers := [.looping], pushers := [.returned],
            manager := .idle, pushed := [7], taken := [7], done := [7] } →
        ManagerPoint.idle.waits = false) ∧
      (ManagerPoint.idle.waits = false → ([] : List ℕ) = [] ∧ [7].Perm [7]) :=
  wait_returns
    (show run (step 1) (construct 1 0)
        ([.manager, .manager, .manager, .pushTask 7] ++ List.replicate 4 (.pusher 0 0) ++
          [.call .waitForTasks]) = _ from rfl)
    rfl rfl rfl (by decide) (fun a ha ↦ by
      rcases List.mem_append.mp ha with h | h <;> rw [List.eq_of_mem_replicate h] <;> trivial) rfl

/-! ## A wait that misses its end -/

/-- The manager creates its threads. -/
theorem run_create (hs : s.manager = .creating i) (k : ℕ) (hk : i + k ≤ s.threadCount) :
    run (step hardwareConcurrency) s (List.replicate k .manager) =
      some { s with
        workers := s.workers ++ List.replicate k .looping
        manager := .creating (i + k) } := by
  induction k generalizing s i with
  | zero =>
    rw [List.replicate_zero, run_nil, List.replicate_zero, List.append_nil, Nat.add_zero, ← hs]
  | succ k ih =>
    have hi : i < s.threadCount := by omega
    have hcreate : step hardwareConcurrency s .manager =
        some { s with workers := s.workers ++ [.looping], manager := .creating (i + 1) } := by
      simp [PoolThreads.step, advanceManager, hs, hi]
    rw [List.replicate_succ, run_cons, hcreate, Option.bind_some]
    refine (ih (s := { s with workers := s.workers ++ [.looping], manager := .creating (i + 1) })
      rfl (by dsimp only; omega)).trans ?_
    rw [List.append_assoc, List.singleton_append, ← List.replicate_succ, Nat.add_right_comm,
      Nat.add_assoc]

/-- A wait that is not going to end: nothing is left to do, and nobody is going to look at
`waiting`. -/
structure Missed (s : PoolThreads α) : Prop where
  calm : s.Calm
  tasks : s.tasks = []
  workers : ∀ point ∈ s.workers, occupied point = false
  pushers : ∀ place ∈ s.pushers, place.task? = none
  manager : s.manager = .waitBlocked false none

/-- Without a task a worker stays unoccupied. -/
theorem unoccupied_advanceWorker (hadv : advanceWorker i s point = some (point', r))
    (htasks : s.tasks = []) (hpoint : occupied point = false) :
    occupied point' = false ∧ r.tasks = [] ∧ r.done = s.done ∧ r.manager = s.manager := by
  cases point with
  | taking =>
    rw [advanceWorker, htasks] at hadv
    cases hadv
    exact ⟨rfl, htasks, rfl, rfl⟩
  | looping | testing =>
    cases hadv
    refine ⟨?_, htasks, rfl, rfl⟩
    split <;> rfl
  | locking | blocked =>
    obtain ⟨-, heq⟩ := Option.ite_none_right_eq_some.mp hadv
    cases heq
    exact ⟨rfl, htasks, rfl, rfl⟩
  | woken | permitted =>
    rw [advanceWorker] at hadv
    split at hadv <;> cases hadv <;> exact ⟨rfl, htasks, rfl, rfl⟩
  | releasing =>
    cases hadv
    exact ⟨rfl, htasks, rfl, rfl⟩
  | ended | undefined => cases hadv
  | executing | relocking | counting | reporting => cases hpoint

theorem Missed.step (hs : s.Missed) (ha : Works a) (h : step hardwareConcurrency s a = some t) :
    t.Missed ∧ t.done = s.done := by
  have hcalm := (hs.calm.step ha h).1
  cases a with
  | worker i =>
    obtain ⟨point, point', r, hpoint, hadv, rfl⟩ := step_worker_eq_some.mp h
    obtain ⟨hworkers, hpushers, -⟩ := advanceWorker_frame hadv
    obtain ⟨hpoint', htasks, hdone, hmanager⟩ := unoccupied_advanceWorker hadv hs.tasks
      (hs.workers point (List.mem_of_getElem? hpoint))
    refine ⟨⟨hcalm, htasks, ?_, ?_, hmanager.trans hs.manager⟩, hdone⟩
    · rw [hworkers]
      exact ListSet.forall_mem_set hs.workers hpoint'
    · rw [hpushers]
      exact hs.pushers
  | pusher i woken =>
    obtain ⟨place, place', r, hplace, hadv, rfl⟩ := step_pusher_eq_some.mp h
    obtain ⟨hpushers, -, -, -, -, hmanager, -, hdone⟩ := advancePusher_frame hadv
    have hleft := hs.pushers place (List.mem_of_getElem? hplace)
    have hplace' : place'.task? = none ∧ r.tasks = s.tasks := by
      cases place with
      | locking | pushing => cases hleft
      | counting =>
        cases hadv
        exact ⟨rfl, rfl⟩
      | notifying =>
        have htasks := tasks_advancePusher hadv
        obtain ⟨r', -, heq⟩ := Option.map_eq_some_iff.mp hadv
        cases heq
        exact ⟨rfl, htasks.resolve_right Bool.false_ne_true⟩
      | returned => cases hadv
    refine ⟨⟨hcalm, hplace'.2.trans hs.tasks, fun point hmem ↦ ?_, ?_, hmanager.trans hs.manager⟩,
      hdone⟩
    · obtain ⟨j, hj⟩ := List.mem_iff_getElem?.mp hmem
      rcases getElem?_advancePusher hadv j with hsame | hwoken
      · exact hs.workers point (List.mem_of_getElem? (hsame.symm.trans hj))
      · cases hwoken.symm.trans hj
        rfl
    · rw [hpushers]
      exact ListSet.forall_mem_set hs.pushers hplace'.1
  | manager =>
    have hnone : s.advanceManager hardwareConcurrency = none := by
      simp [advanceManager, hs.manager]
    cases hnone.symm.trans h
  | _ => exact ha.elim

/-- A new pool. -/
theorem exists_run_idle (hardwareConcurrency threadCount : ℕ) :
    ∃ k, run (step hardwareConcurrency) (construct hardwareConcurrency threadCount)
      (.manager :: (List.replicate (k + 1) .manager ++ [.manager])) =
        some (α := PoolThreads α) {
          threadCount := k + 1
          running := true
          workers := .looping :: List.replicate k .looping
          manager := .idle } := by
  obtain ⟨k, hk⟩ := Nat.exists_eq_succ_of_ne_zero
    (determineThreadCount_pos hardwareConcurrency threadCount).ne'
  refine ⟨k, run_cons_eq_some.mpr
    ⟨{ threadCount := k + 1, running := true, manager := .creating 0 }, ?_, ?_⟩⟩
  · rw [construct, hk]
    rfl
  · rw [run_concat_eq_some]
    refine ⟨_, run_create rfl (k + 1) (Nat.zero_add _).le, ?_⟩
    simp [PoolThreads.step, advanceManager, List.replicate_succ]

/-- One task is pushed, one call of `wait_for_tasks` is made, and otherwise the threads go on. -/
def PushesAndWaits (task : α) (a : PoolAction α) : Prop :=
  Works a ∨ a = .pushTask task ∨ a = .call .waitForTasks

/-- A worker is done with a task before `push_task` has counted it, and `wait_for_tasks` looks at
`tasks_total` in between. -/
theorem exists_run_missed (hardwareConcurrency threadCount : ℕ) (task : α) :
    ∃ sched s, run (step hardwareConcurrency) (construct hardwareConcurrency threadCount) sched =
        some s ∧ (∀ a ∈ sched, PushesAndWaits task a) ∧ s.Missed ∧ s.done = [task] ∧
      sched.filterMap PoolAction.task? = [task] := by
  obtain ⟨k, hidle⟩ := exists_run_idle (α := α) hardwareConcurrency threadCount
  set create : List (PoolAction α) := .manager :: (List.replicate (k + 1) .manager ++ [.manager])
  set wait : List (PoolAction α) :=
    [.pushTask task, .pusher 0 0, .pusher 0 0] ++ List.replicate 10 (.worker 0) ++
      (.call .waitForTasks :: List.replicate 5 .manager)
  set missed : PoolThreads α := {
    threadCount := k + 1
    tasksTotal := -1
    running := true
    waiting := true
    workers := .looping :: List.replicate k .looping
    pushers := [.counting]
    manager := .waitBlocked false none
    pushed := [task]
    taken := [task]
    done := [task] }
  have hwait : run (step hardwareConcurrency) (construct hardwareConcurrency threadCount)
      (create ++ wait) = some missed := by
    rw [run_append_of_eq_some hidle]
    rfl
  have hcreate : ∀ a ∈ create, a = .manager := fun a ha ↦ by simpa [create] using ha
  have hnone : create.filterMap PoolAction.task? = [] :=
    List.filterMap_eq_nil_iff.mpr fun a ha ↦ by rw [hcreate a ha]; rfl
  refine ⟨create ++ wait, missed, hwait, fun a ha ↦ ?_, ?_, rfl, ?_⟩
  · rcases List.mem_append.mp ha with hmem | hmem
    · rw [hcreate a hmem]
      exact Or.inl trivial
    · simp only [wait, List.mem_append, List.mem_cons, List.mem_replicate, List.not_mem_nil,
        or_false] at hmem
      rcases hmem with ((rfl | rfl | rfl) | ⟨-, rfl⟩) | rfl | ⟨-, rfl⟩
      · exact Or.inr (Or.inl rfl)
      · exact Or.inl trivial
      · exact Or.inl trivial
      · exact Or.inl trivial
      · exact Or.inr (Or.inr rfl)
      · exact Or.inl trivial
  · refine ⟨calm_of_run hwait rfl rfl, rfl, fun point hmem ↦ ?_, fun place hmem ↦ ?_, rfl⟩
    · rcases List.mem_cons.mp hmem with hlooping | hrest
      · rw [hlooping]
        rfl
      · rw [List.eq_of_mem_replicate hrest]
        rfl
    · rw [List.mem_singleton.mp hmem]
      rfl
  · rw [List.filterMap_append, hnone]
    rfl

/-- **`wait_for_tasks` can miss its end**, in a pool of any size, without `pause` and though no wait
ends by itself: every push has returned, the task is done, all the workers sleep, and the call waits
for ever. -/
theorem exists_wait_stuck (hardwareConcurrency threadCount : ℕ) (task : α) :
    ∃ sched s, run (step hardwareConcurrency) (construct hardwareConcurrency threadCount) sched =
        some s ∧ (∀ a ∈ sched, PushesAndWaits task a) ∧
      sched.filterMap PoolAction.task? = [task] ∧
      Stuck (step hardwareConcurrency) Works s ∧ s.manager = .waitBlocked false none ∧
      s.done = [task] ∧ (∀ place ∈ s.pushers, place = .returned) ∧
      ∀ point ∈ s.workers, point = .blocked false := by
  obtain ⟨sched, s, hrun, honly, hmissed, hdone, htask⟩ :=
    exists_run_missed hardwareConcurrency threadCount task
  obtain ⟨rest, t, hrest, hrun', hstuck⟩ :=
    exists_run_stuck (fun _ _ _ hs ha hstep ↦ Calm.step hs ha hstep) hmissed.calm
  have hend : t.Missed ∧ t.done = [task] :=
    run_invariant_of_mem (P := fun s ↦ s.Missed ∧ s.done = [task])
      (fun a ha s t hstep hs ↦ by
        obtain ⟨hmissed', hsame⟩ := hs.1.step (hrest a ha) hstep
        exact ⟨hmissed', hsame.trans hs.2⟩) hrun' ⟨hmissed, hdone⟩
  have hmanager := hend.1.manager
  obtain ⟨-, hasleep, -⟩ := done_of_stuck hend.1.calm hstuck (by rw [hmanager]; rfl)
  refine ⟨sched ++ rest, t, run_append_eq_some.mpr ⟨s, hrun, hrun'⟩, fun a ha ↦ ?_, ?_, hstuck,
    hmanager, hend.2, (cases_of_stuck hend.1.calm.proper hstuck).2.1, hasleep⟩
  · exact (List.mem_append.mp ha).elim (honly a) fun hmem ↦ Or.inl (hrest a hmem)
  · rw [List.filterMap_append, filterMap_task?_of_works hrest, List.append_nil, htask]

/-! ## `destroy_threads` -/

/-- The workers alone get nowhere else than to where all of them are joined. -/
def Joins (hardwareConcurrency : ℕ) (s : PoolThreads α) : Prop :=
  ∃ bound, ∀ rest t, (∀ a ∈ rest, IsWorker a) →
    run (step hardwareConcurrency) s (.manager :: rest) = some t →
      rest.length ≤ bound ∧ (Stuck (step hardwareConcurrency) IsWorker t →
        ∀ point ∈ t.workers, point = .ended)

/-- While the threads are being joined, and nobody pushes. -/
structure Joining (next : PoolEnding) (s : PoolThreads α) : Prop where
  proper : s.Proper
  pushers : ∀ place ∈ s.pushers, place = .returned
  manager : s.manager = .joining next

theorem Joining.step {next : PoolEnding} (hs : s.Joining next) (ha : IsWorker a)
    (h : step hardwareConcurrency s a = some t) : t.Joining next ∧ t.measure < s.measure := by
  have hproper := hs.proper.step h
  have hrunning := hs.proper.manned.running
  rw [hs.manager] at hrunning
  cases a with
  | worker i =>
    refine ⟨⟨hproper, ?_, ?_⟩, measure_worker (Or.inr hrunning) h⟩
    all_goals obtain ⟨point, point', r, -, hadv, rfl⟩ := step_worker_eq_some.mp h
    · rw [(advanceWorker_frame hadv).2.1]
      exact hs.pushers
    · obtain ⟨-, -, -, -, -, -, -, hmanager | ⟨-, -, hmanager⟩⟩ := advanceWorker_frame hadv
      · exact hmanager.trans hs.manager
      · rw [hs.manager] at hmanager
        exact hmanager
  | _ => exact ha.elim

/-- Nobody sleeps, or is about to. -/
def Awake (s : PoolThreads α) : Prop :=
  .releasing ∉ s.workers ∧ .blocked false ∉ s.workers

/-- Once `running` is cleared, nobody goes to sleep any more. -/
theorem Awake.worker (hs : s.Awake) (hrunning : s.running = false)
    (h : PoolThreads.step hardwareConcurrency s (.worker i) = some t) : t.Awake := by
  obtain ⟨point, point', r, hpoint, hadv, rfl⟩ := step_worker_eq_some.mp h
  have hworkers := (advanceWorker_frame hadv).1
  have hpoint' : point' ≠ .releasing ∧ point' ≠ .blocked false := by
    cases point with
    | releasing => exact absurd (List.mem_of_getElem? hpoint) hs.1
    | testing =>
      cases hadv
      simp [taskAvailable, hrunning]
    | looping =>
      cases hadv
      simp [hrunning]
    | locking | relocking | blocked =>
      obtain ⟨-, heq⟩ := Option.ite_none_right_eq_some.mp hadv
      cases heq
      simp
    | woken | permitted | taking =>
      rw [advanceWorker] at hadv
      split at hadv <;> cases hadv <;> simp
    | ended | undefined => cases hadv
    | _ =>
      cases hadv
      simp
  rw [hworkers]
  constructor
  · intro hmem
    rcases List.mem_or_eq_of_mem_set hmem with hold | hnew
    · exact hs.1 hold
    · exact hpoint'.1 hnew.symm
  · intro hmem
    rcases List.mem_or_eq_of_mem_set hmem with hold | hnew
    · exact hs.2 hold
    · exact hpoint'.2 hnew.symm

/-- A worker that sleeps is not woken by the others. -/
theorem asleep_of_worker (hpoint : s.workers[i]? = some (.blocked false)) (ha : IsWorker a)
    (h : PoolThreads.step hardwareConcurrency s a = some t) :
    t.workers[i]? = some (.blocked false) := by
  cases a with
  | worker j =>
    obtain ⟨point, point', r, hj, hadv, rfl⟩ := step_worker_eq_some.mp h
    rw [(advanceWorker_frame hadv).1, getElem?_set_worker hj]
    split
    · rename_i hji
      subst hji
      cases hpoint.symm.trans hj
      cases hadv
    · exact hpoint
  | _ => exact ha.elim

/-- `notify_all`. -/
theorem joining_of_notifying {next : PoolEnding} (hs : s.Proper)
    (hcall : s.manager = .notifying next)
    (hpushers : ∀ place ∈ s.pushers, place = .returned) :
    ∃ m, step hardwareConcurrency s .manager = some m ∧ m.Joining next ∧
      m.workers = s.workers.map wakeUp := by
  have hnotify : step hardwareConcurrency s .manager =
      some { s with workers := s.workers.map wakeUp, manager := .joining next } := by
    simp [PoolThreads.step, advanceManager, hcall]
  exact ⟨_, hnotify, ⟨hs.step hnotify, hpushers, rfl⟩, rfl⟩

theorem Joining.running {next : PoolEnding} (hs : s.Joining next) : s.running = false := by
  rw [hs.proper.manned.running, hs.manager]
  rfl

/-- Where nobody sleeps, the workers stop only when they have ended. -/
theorem Joining.ended {next : PoolEnding} (hs : s.Joining next) (hawake : s.Awake)
    (hstuck : Stuck (PoolThreads.step hardwareConcurrency) IsWorker s) :
    ∀ point ∈ s.workers, point = .ended := by
  intro point hmem
  have hpushers : ∀ place ∈ s.pushers, place.holds = false := fun place hplace ↦ by
    rw [hs.pushers place hplace]
    rfl
  have hmanager : s.manager.holds = false := by rw [hs.manager]; rfl
  obtain ⟨-, hworkers⟩ := free_of_stuck hs.proper hstuck hpushers hmanager
  refine (hworkers point hmem).resolve_left ?_
  rintro rfl
  exact hawake.2 hmem

/-- **When the threads of a pool can be joined.**  If nobody pushes while `destroy_threads` notifies
the workers, then all of them end after so many steps, unless one of them has looked at `running`
before it was cleared and has not begun to wait yet: that one sleeps for ever. -/
theorem joins_iff {next : PoolEnding}
    (h : run (step hardwareConcurrency) (construct hardwareConcurrency threadCount) sched = some s)
    (hcall : s.manager = .notifying next) (hpushers : ∀ place ∈ s.pushers, place = .returned) :
    s.Joins hardwareConcurrency ↔ .releasing ∉ s.workers := by
  obtain ⟨m, hnotify, hjoining, hworkers⟩ :=
    joining_of_notifying (proper_of_run h) hcall hpushers
  have hprogress : ∀ (s : PoolThreads α) a t, s.Joining next → IsWorker a →
      step hardwareConcurrency s a = some t → t.Joining next ∧ t.measure < s.measure :=
    fun _ _ _ hs ha hstep ↦ hs.step ha hstep
  constructor
  · rintro ⟨bound, hbound⟩ hmem
    obtain ⟨i, hi⟩ := List.mem_iff_getElem?.mp hmem
    have hi' : m.workers[i]? = some .releasing := by
      rw [hworkers, List.getElem?_map, hi]
      rfl
    -- the worker goes to sleep after it was notified, and then the others end
    have hsleep : step hardwareConcurrency m (.worker i) =
        some { m with workers := m.workers.set i (.blocked false), owner := none } :=
      step_worker_eq_some.mpr ⟨_, _, _, hi', rfl, rfl⟩
    have hasleep : (m.workers.set i (.blocked false))[i]? = some (.blocked false) := by
      rw [getElem?_set_worker hi', if_pos rfl]
    obtain ⟨rest, t, hrest, hrun, hstuck⟩ :=
      exists_run_stuck hprogress (hprogress m (.worker i) _ hjoining trivial hsleep).1
    have hended := (hbound (.worker i :: rest) t
      (List.forall_mem_cons.mpr ⟨trivial, hrest⟩)
      (run_cons_eq_some.mpr ⟨m, hnotify, run_cons_eq_some.mpr ⟨_, hsleep, hrun⟩⟩)).2 hstuck
    have hstill : t.workers[i]? = some (.blocked false) :=
      run_invariant_of_mem (P := fun s ↦ s.workers[i]? = some (.blocked false))
        (fun a ha s t hstep hs ↦ asleep_of_worker hs (hrest a ha) hstep) hrun hasleep
    cases hended _ (List.mem_of_getElem? hstill)
  · intro hreleasing
    have hawake : m.Awake := by
      rw [Awake, hworkers]
      constructor
      · intro hmem
        obtain ⟨point, hpoint, heq⟩ := List.mem_map.mp hmem
        cases point <;> first | exact hreleasing hpoint | cases heq
      · intro hmem
        obtain ⟨point, -, heq⟩ := List.mem_map.mp hmem
        cases point <;> cases heq
    refine ⟨m.measure, fun rest t hrest hrun ↦ ?_⟩
    obtain ⟨m', hm', hrun⟩ := run_cons_eq_some.mp hrun
    cases hnotify.symm.trans hm'
    obtain ⟨-, hle⟩ := length_add_le_of_run hprogress hrun hrest hjoining
    refine ⟨(Nat.le_add_right _ _).trans hle, ?_⟩
    have hboth : t.Joining next ∧ t.Awake := by
      refine run_invariant_of_mem (P := fun s ↦ s.Joining next ∧ s.Awake)
        (fun a ha s t hstep hs ↦ ⟨(hs.1.step (hrest a ha) hstep).1, ?_⟩) hrun ⟨hjoining, hawake⟩
      have hworker := hrest a ha
      cases a with
      | worker i => exact hs.2.worker hs.1.running hstep
      | _ => exact hworker.elim
    exact hboth.1.ended hboth.2

/-- Of two workers one sleeps for ever. -/
theorem joins_releasing :
    Joins (α := ℕ) 2 {
        threadCount := 2
        owner := some (.worker 0)
        workers := [.releasing, .looping]
        manager := .notifying .destructing } ↔
      WorkerPoint.releasing ∉ [(WorkerPoint.releasing : WorkerPoint ℕ), .looping] :=
  joins_iff
    (show run (step 2) (construct 2 0)
        (List.replicate 4 .manager ++ .call .destruct :: List.replicate 5 .manager ++
          [.worker 0, .worker 0, .worker 0, .manager]) = _ from rfl)
    rfl (by decide)

/-! ## `pause` -/

/-- At this point a worker has seen that the pool is not paused. -/
def takes : WorkerPoint α → Bool
  | .taking => true
  | _ => false

/-- The pool is paused, and no `reset` is going to restore anything else. -/
structure Paused (s : PoolThreads α) : Prop where
  paused : s.paused = true
  next : ∀ threadCount, s.manager.next? ≠ some (.resetting threadCount false)
  manager : s.manager ≠ .restoring false

theorem Paused.of_eq (hs : s.Paused) (hpaused : t.paused = s.paused)
    (hnext : t.manager.next? = s.manager.next?) (hmanager : t.manager ≠ .restoring false) :
    t.Paused :=
  ⟨hpaused.trans hs.paused, fun threadCount ↦ by rw [hnext]; exact hs.next threadCount, hmanager⟩

theorem Paused.managerMove (hs : s.Paused) (h : ManagerMove hardwareConcurrency s t) :
    t.Paused := by
  cases h with
  | wait waiting owner manager hwaits hup hnext ht =>
    exact hs.of_eq rfl hnext (by rintro rfl; cases hup)
  | pause threadCount wasPaused hmanager =>
    refine ⟨rfl, fun threadCount' heq ↦ hs.next threadCount' ?_, by simp⟩
    rw [hmanager]
    exact heq
  | stop next hmanager | notify next hmanager =>
    exact hs.of_eq rfl (by rw [hmanager]; rfl) (by simp)
  | rejoin threadCount wasPaused hmanager =>
    refine ⟨hs.paused, fun _ ↦ by simp [ManagerPoint.next?], ?_⟩
    rintro heq
    cases heq
    exact hs.next threadCount (by rw [hmanager]; rfl)
  | restore wasPaused hmanager =>
    have hwas : wasPaused = true := by
      refine Bool.eq_true_of_not_eq_false ?_
      rintro rfl
      exact hs.manager hmanager
    exact ⟨hwas, fun _ ↦ by simp [ManagerPoint.next?], by simp⟩
  | destroy | start | create | created =>
    exact ⟨hs.paused, fun _ ↦ by simp [ManagerPoint.next?], by simp⟩

theorem Paused.step (hs : s.Paused) (ha : a ≠ .setPaused false)
    (h : step hardwareConcurrency s a = some t) : t.Paused := by
  cases a with
  | worker i =>
    obtain ⟨point, point', r, -, hadv, rfl⟩ := step_worker_eq_some.mp h
    obtain ⟨-, -, -, hpaused, -, -, -, hmanager⟩ := advanceWorker_frame hadv
    rcases hmanager with hmanager | ⟨-, -, hmanager⟩
    · exact hs.of_eq hpaused (congrArg _ hmanager) (hmanager ▸ hs.manager)
    · refine hs.of_eq hpaused ((congrArg _ hmanager).trans (next?_notify _)) ?_
      dsimp only
      rw [hmanager]
      have hnot := hs.manager
      cases hpoint : s.manager <;> rw [hpoint] at hnot <;>
        first | exact hnot | simp [ManagerPoint.notify]
  | pusher i woken =>
    obtain ⟨place, place', r, -, hadv, rfl⟩ := step_pusher_eq_some.mp h
    obtain ⟨-, -, hpaused, -, -, hmanager, -⟩ := advancePusher_frame hadv
    exact hs.of_eq hpaused (congrArg _ hmanager) (hmanager ▸ hs.manager)
  | manager => exact hs.managerMove (managerMove_of_step h)
  | wakeWorker i =>
    obtain ⟨-, heq⟩ := Option.ite_none_right_eq_some.mp h
    cases heq
    exact hs.of_eq rfl rfl hs.manager
  | pushTask task =>
    cases h
    exact hs.of_eq rfl rfl hs.manager
  | setPaused paused =>
    cases h
    cases paused with
    | true => exact ⟨rfl, hs.next, hs.manager⟩
    | false => exact absurd rfl ha
  | call call =>
    obtain ⟨-, heq⟩ := Option.ite_none_right_eq_some.mp h
    cases heq
    cases call with
    | waitForTasks | destruct =>
      exact ⟨hs.paused, fun _ ↦ by simp [beginCall, ManagerPoint.next?], by simp [beginCall]⟩
    | reset threadCount =>
      exact ⟨hs.paused, fun _ ↦ by simp [beginCall, ManagerPoint.next?, hs.paused],
        by simp [beginCall]⟩
  | wakeManager =>
    rw [PoolThreads.step] at h
    split at h
    · rename_i next hblocked
      cases h
      exact hs.of_eq rfl (by rw [hblocked]; rfl) (by simp)
    · cases h

theorem takes_advanceWorker (hadv : advanceWorker i s point = some (point', r))
    (hpaused : s.paused = true) :
    r.taken.length + (takes point').toNat ≤ s.taken.length + (takes point).toNat := by
  cases point with
  | taking =>
    rw [advanceWorker] at hadv
    split at hadv
    · cases hadv
      exact Nat.le_add_right _ _
    · cases hadv
      rw [List.length_append]
      exact Nat.le_refl _
  | permitted =>
    rw [advanceWorker, if_pos hpaused] at hadv
    cases hadv
    exact Nat.le_refl _
  | woken =>
    rw [advanceWorker] at hadv
    split at hadv <;> cases hadv <;> exact Nat.le_refl _
  | looping | testing =>
    cases hadv
    split <;> exact Nat.le_refl _
  | locking | relocking | blocked =>
    obtain ⟨-, heq⟩ := Option.ite_none_right_eq_some.mp hadv
    cases heq
    exact Nat.le_refl _
  | ended | undefined => cases hadv
  | _ =>
    cases hadv
    exact Nat.le_refl _

/-- In a paused pool a worker takes a task only if it had looked before. -/
theorem takes_step (hs : s.Paused) (h : step hardwareConcurrency s a = some t) :
    t.taken.length + t.workers.countP takes ≤ s.taken.length + s.workers.countP takes := by
  cases a with
  | worker i =>
    obtain ⟨point, point', r, hpoint, hadv, rfl⟩ := step_worker_eq_some.mp h
    have hcount := ListSet.countP_set hpoint point' takes
    have hle := takes_advanceWorker hadv hs.paused
    rw [(advanceWorker_frame hadv).1]
    dsimp only
    omega
  | pusher i woken =>
    obtain ⟨place, place', r, -, hadv, rfl⟩ := step_pusher_eq_some.mp h
    obtain ⟨-, -, -, -, -, -, htaken, -⟩ := advancePusher_frame hadv
    have hcount : r.workers.countP takes = s.workers.countP takes := by
      cases place with
      | locking task =>
        obtain ⟨-, heq⟩ := Option.ite_none_right_eq_some.mp hadv
        cases heq
        rfl
      | notifying =>
        obtain ⟨r', hr', heq⟩ := Option.map_eq_some_iff.mp hadv
        cases heq
        rcases notifyWorker_cases hr' with ⟨hpoint, rfl⟩ | ⟨-, rfl⟩
        · exact Nat.add_right_cancel (ListSet.countP_set hpoint (.blocked true) takes)
        · rfl
      | returned => cases hadv
      | _ =>
        cases hadv
        rfl
    exact (congrArg₂ (· + ·) (congrArg List.length htaken) hcount).le
  | manager =>
    have hmove := managerMove_of_step h
    cases hmove with
    | notify next hmanager =>
      have hcount : (s.workers.map wakeUp).countP takes = s.workers.countP takes := by
        rw [List.countP_map]
        congr
        funext point
        cases point <;> rfl
      exact (congrArg (s.taken.length + ·) hcount).le
    | rejoin | destroy => exact Nat.le_add_right _ _
    | create i hmanager hi =>
      have hcount : (s.workers ++ [WorkerPoint.looping]).countP takes = s.workers.countP takes :=
        List.countP_append
      exact (congrArg (s.taken.length + ·) hcount).le
    | _ => exact Nat.le_refl _
  | wakeWorker i =>
    obtain ⟨hasleep, heq⟩ := Option.ite_none_right_eq_some.mp h
    cases heq
    have hcount := Nat.add_right_cancel (ListSet.countP_set (any_asleep.mp hasleep) .locking takes)
    exact (congrArg (s.taken.length + ·) hcount).le
  | pushTask task | setPaused paused =>
    cases h
    exact Nat.le_refl _
  | call call =>
    obtain ⟨-, heq⟩ := Option.ite_none_right_eq_some.mp h
    cases heq
    cases call <;> exact Nat.le_refl _
  | wakeManager =>
    rw [PoolThreads.step] at h
    split at h
    · cases h
      exact Nat.le_refl _
    · cases h

/-- Only one worker at a time has looked and not taken its task. -/
theorem countP_takes_le_one (hlocked : s.Locked) : s.workers.countP takes ≤ 1 := by
  refine ListSet.countP_le_one fun i j p q hi hj hp hq ↦ ?_
  have holds_of_takes (point : WorkerPoint α) (h : takes point = true) : point.holds = true := by
    cases point <;> first | rfl | cases h
  have hi' : s.Holds (.worker i) := by simpa [Holds, hi] using holds_of_takes p hp
  have hj' : s.Holds (.worker j) := by simpa [Holds, hj] using holds_of_takes q hq
  exact PoolThread.worker.inj (Mutex.OwnedBy.eq hlocked hi' hj')

/-- What was taken stays taken. -/
theorem taken_prefix (h : step hardwareConcurrency s a = some t) : s.taken <+: t.taken := by
  have haccount := account_step h
  have hpre : s.account.taken <+: t.account.taken := by
    generalize t.account = d at haccount
    cases haccount with
    | take task tasks _ => exact List.prefix_append _ _
    | _ => exact List.prefix_refl _
  exact hpre

/-- **A pool that is paused takes at most one task more**, and none if no worker has just looked. -/
theorem taken_of_paused
    (h : run (step hardwareConcurrency) (construct hardwareConcurrency threadCount) sched = some s)
    (hs : s.Paused) (hrest : .setPaused false ∉ rest)
    (hrun : run (step hardwareConcurrency) s rest = some t) :
    t.taken.length ≤ s.taken.length + 1 ∧ (.taking ∉ s.workers → t.taken = s.taken) := by
  have hinv : t.Paused ∧ t.taken.length + t.workers.countP takes ≤
      s.taken.length + s.workers.countP takes := by
    refine run_invariant_of_mem (P := fun t ↦ t.Paused ∧ t.taken.length + t.workers.countP takes ≤
      s.taken.length + s.workers.countP takes) ?_ hrun ⟨hs, Nat.le_refl _⟩
    rintro a ha m m' hstep ⟨hm, hle⟩
    refine ⟨hm.step ?_ hstep, (takes_step hm hstep).trans hle⟩
    rintro rfl
    exact hrest ha
  have hone := countP_takes_le_one (locked_of_run h)
  refine ⟨by omega, fun hnone ↦ ?_⟩
  have hzero : s.workers.countP takes = 0 := by
    refine List.countP_eq_zero.mpr fun point hmem htakes ↦ hnone ?_
    cases point <;> first | exact hmem | cases htakes
  have hpre : s.taken <+: t.taken := log_prefix_of_run taken (fun _ _ _ ↦ taken_prefix) hrun
  exact (hpre.eq_of_length_le (by omega)).symm

theorem taken_of_paused_taking :
    [7].length ≤ ([] : List ℕ).length + 1 ∧
      (.taking ∉ [(WorkerPoint.taking : WorkerPoint ℕ)] → [7] = []) :=
  taken_of_paused
    (s := {
      threadCount := 1
      tasks := [7, 8]
      tasksTotal := 0
      paused := true
      running := true
      owner := some (.worker 0)
      workers := [.taking]
      pushers := [.counting, .counting]
      manager := .idle
      pushed := [7, 8] })
    (show run (step 1) (construct 1 0)
        [.manager, .manager, .manager, .pushTask 7, .pushTask 8, .pusher 0 0, .pusher 0 0,
          .pusher 1 0, .pusher 1 0, .worker 0, .worker 0, .worker 0, .worker 0, .worker 0,
          .setPaused true] = _ from rfl)
    ⟨rfl, fun _ ↦ by simp [ManagerPoint.next?], by simp⟩ (by simp)
    (show run (step 1) _ (List.replicate 9 (.worker 0)) = some {
      threadCount := 1
      tasks := [8]
      tasksTotal := -1
      paused := true
      running := true
      owner := some (.worker 0)
      workers := [.permitted]
      pushers := [.counting, .counting]
      manager := .idle
      pushed := [7, 8]
      taken := [7]
      done := [7] } from rfl)

end PoolThreads

end Ekg
