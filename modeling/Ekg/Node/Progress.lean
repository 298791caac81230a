import Ekg.Lib.Mutex
import Ekg.Node.Threads

/-!
# The threads of a node do not deadlock

The scheduler takes `channel_map_mtx`, shared, while it holds `channel_map_mutex`.  A task takes the
two as well, but one after the other, and it makes no step that may block while it holds either.

So the owner of a mutex is known from the points that the threads are at (`Locked`): whoever holds
`channel_map_mutex` is the scheduler in a scan or a task in `monitorChannel`, and whoever holds
`channel_map_mtx` alone is a task before its `push_back` or `erase`.  `progress_of_run` follows: a
thread that waits, waits for one that can go on.
-/

set_option autoImplicit false

namespace Ekg

open Steps

/-- At this point a task holds `channel_map_mutex`. -/
def TaskPoint.inManager : TaskPoint → Bool
  | .monitoring _ => true
  | _ => false

/-- At this point a task holds `channel_map_mtx` alone. -/
def TaskPoint.inWorker : TaskPoint → Bool
  | .pushing => true
  | .erasing _ => true
  | _ => false

/-- At this point the scheduler holds `channel_map_mutex`. -/
def ScanPoint.inScan : ScanPoint → Bool
  | .sleeping => false
  | _ => true

/-- At this point the scheduler holds `channel_map_mtx` shared. -/
def ScanPoint.inHandler : ScanPoint → Bool
  | .handling _ _ _ => true
  | _ => false

namespace Threads

variable {platform : Platform} {σ τ : Threads} {i j : ℕ} {command : AquireCommand}
  {failure : Option SetupFailure} {alive : ℕ → Bool} {s s' : Shared} {point point' : TaskPoint}
  {scan scan' : ScanPoint} {keptOut : Bool}

/-! ## Who holds the mutexes -/

/-- The thread is at a point where it holds `channel_map_mutex`. -/
def HoldsManager (σ : Threads) : ThreadId → Prop
  | .scheduler => σ.scan.inScan = true
  | .task i => (σ.point? i).any TaskPoint.inManager = true

/-- The thread is at a point where it holds `channel_map_mtx` alone. -/
def HoldsWorker (σ : Threads) : ThreadId → Prop
  | .scheduler => False
  | .task i => (σ.point? i).any TaskPoint.inWorker = true

/-- The mutexes are held by the threads that are at a point where they hold them. -/
structure Locked (σ : Threads) : Prop where
  manager : Mutex.OwnedBy σ.shared.channelMapMutex σ.HoldsManager
  worker : Mutex.OwnedBy σ.shared.channelMapMtx.writer σ.HoldsWorker
  readers : σ.shared.channelMapMtx.readers = if σ.scan.inHandler then 1 else 0

/-- What a step of a task does to the mutexes. -/
theorem locks_advanceTask (h : advanceTask platform i command failure s point = some (point', s')) :
    ((s'.channelMapMutex = s.channelMapMutex ∧ point'.inManager = point.inManager) ∨
      (s.channelMapMutex = none ∧ s'.channelMapMutex = some (.task i) ∧ point'.inManager = true) ∨
      (point.inManager = true ∧ s'.channelMapMutex = none ∧ point'.inManager = false)) ∧
    ((s'.channelMapMtx.writer = s.channelMapMtx.writer ∧ point'.inWorker = point.inWorker) ∨
      (s.channelMapMtx.writer = none ∧ s'.channelMapMtx.writer = some (.task i) ∧
        point'.inWorker = true) ∨
      (point.inWorker = true ∧ s'.channelMapMtx.writer = none ∧ point'.inWorker = false)) ∧
    s'.channelMapMtx.readers = s.channelMapMtx.readers := by
  cases point with
  | queued =>
    cases h
    refine ⟨Or.inl ⟨rfl, ?_⟩, Or.inl ⟨rfl, ?_⟩, rfl⟩ <;> repeat' split
    all_goals rfl
  | absent | present itr =>
    obtain ⟨mtx, hlock, heq⟩ := Option.map_eq_some_iff.mp h
    cases heq
    simp only [SharedMutex.lock, Option.ite_none_right_eq_some, Option.some_inj] at hlock
    obtain ⟨hfree, rfl⟩ := hlock
    exact ⟨Or.inl ⟨rfl, rfl⟩, Or.inr (Or.inl ⟨hfree.1, rfl, rfl⟩), rfl⟩
  | pushing | erasing itr =>
    cases h
    exact ⟨Or.inl ⟨rfl, rfl⟩, Or.inr (Or.inr ⟨rfl, rfl, rfl⟩), rfl⟩
  | updated =>
    cases h
    exact ⟨Or.inl ⟨rfl, rfl⟩, Or.inl ⟨rfl, rfl⟩, rfl⟩
  | decided activate =>
    simp only [advanceTask, Option.ite_none_right_eq_some, Option.some_inj, Prod.mk.injEq] at h
    obtain ⟨hfree, rfl, rfl⟩ := h
    exact ⟨Or.inr (Or.inl ⟨hfree, rfl, rfl⟩), Or.inl ⟨rfl, rfl⟩, rfl⟩
  | monitoring activate =>
    cases h
    exact ⟨Or.inr (Or.inr ⟨rfl, rfl, rfl⟩), Or.inl ⟨rfl, rfl⟩, rfl⟩
  | finished => cases h

/-- What a step of the scheduler does to the mutexes. -/
theorem locks_advanceScan (h : advanceScan platform keptOut alive s scan = some (scan', s')) :
    ((s'.channelMapMutex = s.channelMapMutex ∧ scan'.inScan = scan.inScan) ∨
      (s.channelMapMutex = none ∧ s'.channelMapMutex = some .scheduler ∧ scan'.inScan = true) ∨
      (scan.inScan = true ∧ s'.channelMapMutex = none ∧ scan'.inScan = false)) ∧
    s'.channelMapMtx.writer = s.channelMapMtx.writer ∧
    ((s'.channelMapMtx.readers = s.channelMapMtx.readers ∧ scan'.inHandler = scan.inHandler) ∨
      (s'.channelMapMtx.readers = s.channelMapMtx.readers + 1 ∧ scan.inHandler = false ∧
        scan'.inHandler = true) ∨
      (s'.channelMapMtx.readers = s.channelMapMtx.readers - 1 ∧ scan.inHandler = true ∧
        scan'.inHandler = false)) := by
  cases scan with
  | sleeping =>
    simp only [advanceScan, Option.ite_none_right_eq_some, Option.some_inj, Prod.mk.injEq] at h
    obtain ⟨hfree, rfl, rfl⟩ := h
    exact ⟨Or.inr (Or.inl ⟨hfree, rfl, rfl⟩), rfl, Or.inl ⟨rfl, rfl⟩⟩
  | scanning rest =>
    cases rest with
    | nil =>
      cases h
      exact ⟨Or.inr (Or.inr ⟨rfl, rfl, rfl⟩), rfl, Or.inl ⟨rfl, rfl⟩⟩
    | cons name rest =>
      simp only [advanceScan] at h
      split at h
      · cases h
        exact ⟨Or.inl ⟨rfl, rfl⟩, rfl, Or.inl ⟨rfl, rfl⟩⟩
      · split at h <;> cases h
        · exact ⟨Or.inl ⟨rfl, rfl⟩, rfl, Or.inl ⟨rfl, rfl⟩⟩
        · exact ⟨Or.inl ⟨rfl, rfl⟩, rfl, Or.inl ⟨rfl, rfl⟩⟩
  | calling eventData targets rest =>
    cases targets with
    | nil =>
      cases h
      exact ⟨Or.inl ⟨rfl, rfl⟩, rfl, Or.inl ⟨rfl, rfl⟩⟩
    | cons wp targets =>
      simp only [advanceScan] at h
      split at h
      · split at h
        · obtain ⟨mtx, hlock, heq⟩ := Option.map_eq_some_iff.mp h
          cases heq
          simp only [SharedMutex.lockShared, Option.ite_none_right_eq_some, Option.some_inj]
            at hlock
          obtain ⟨-, rfl⟩ := hlock
          exact ⟨Or.inl ⟨rfl, rfl⟩, rfl, Or.inr (Or.inl ⟨rfl, rfl, rfl⟩)⟩
        · cases h
          exact ⟨Or.inl ⟨rfl, rfl⟩, rfl, Or.inl ⟨rfl, rfl⟩⟩
      · cases h
        exact ⟨Or.inl ⟨rfl, rfl⟩, rfl, Or.inl ⟨rfl, rfl⟩⟩
  | handling eventData targets rest =>
    cases h
    exact ⟨Or.inl ⟨rfl, rfl⟩, rfl, Or.inr (Or.inr ⟨rfl, rfl, rfl⟩)⟩

theorem locked_start (manager : EpicsServiceManager) (commands : List AquireCommand) :
    (start manager commands).Locked := by
  have hqueued : ∀ i, (start manager commands).point? i = none ∨
      (start manager commands).point? i = some .queued := by
    intro i
    simp only [point?, start, List.getElem?_map]
    cases commands[i]? with
    | none => exact Or.inl rfl
    | some command => exact Or.inr rfl
  refine ⟨Mutex.ownedBy_none_iff.mpr fun t ↦ ?_, Mutex.ownedBy_none_iff.mpr fun t ↦ ?_, rfl⟩ <;>
    cases t with
    | scheduler => simp [HoldsManager, HoldsWorker, start, ScanPoint.inScan]
    | task i => rcases hqueued i with h | h <;> simp [HoldsManager, HoldsWorker, h,
        TaskPoint.inManager, TaskPoint.inWorker]

theorem locked_step {a : ThreadStep} (h : step platform σ a = some τ) (hσ : σ.Locked) :
    τ.Locked := by
  cases a with
  | task i failure =>
    obtain ⟨command, point, point', s, htask, hadv, rfl⟩ := step_task_eq_some.mp h
    obtain ⟨hmanager, hworker, hreaders⟩ := locks_advanceTask hadv
    have hi : σ.point? i = some point := by rw [point?, htask]; rfl
    refine ⟨hσ.manager.of_step (t := .task i) (fun u hu ↦ ?_) ?_,
      hσ.worker.of_step (t := .task i) (fun u hu ↦ ?_) ?_, hreaders.trans hσ.readers⟩
    · cases u with
      | scheduler => rfl
      | task j =>
        have hij : i ≠ j := fun hij ↦ hu (hij ▸ rfl)
        rw [HoldsManager, point?_set htask, if_neg hij]
        rfl
    · simpa only [HoldsManager, point?_set htask, if_true, hi, Option.any_some, Bool.coe_iff_coe,
        Bool.not_eq_true] using hmanager
    · cases u with
      | scheduler => rfl
      | task j =>
        have hij : i ≠ j := fun hij ↦ hu (hij ▸ rfl)
        rw [HoldsWorker, point?_set htask, if_neg hij]
        rfl
    · simpa only [HoldsWorker, point?_set htask, if_true, hi, Option.any_some, Bool.coe_iff_coe,
        Bool.not_eq_true] using hworker
  | scheduler alive =>
    obtain ⟨scan, s, hadv, rfl⟩ := step_scheduler_eq_some.mp h
    obtain ⟨hmanager, hworker, hreaders⟩ := locks_advanceScan hadv
    refine ⟨hσ.manager.of_step (t := .scheduler) (fun u hu ↦ ?_) ?_, ?_, ?_⟩
    · cases u with
      | scheduler => exact absurd rfl hu
      | task j => rfl
    · simpa only [HoldsManager, Bool.coe_iff_coe, Bool.not_eq_true] using hmanager
    · intro t
      rw [hworker]
      exact hσ.worker t
    · show s.channelMapMtx.readers = if scan.inHandler then 1 else 0
      rcases hreaders with ⟨hr, hscan⟩ | ⟨hr, hscan, hscan'⟩ | ⟨hr, hscan, hscan'⟩
      · rw [hr, hσ.readers, hscan]
      · rw [hr, hσ.readers, hscan, hscan']
        rfl
      · rw [hr, hσ.readers, hscan, hscan']
        rfl
  | arrive channelName mon =>
    cases h
    exact ⟨hσ.manager, hσ.worker, hσ.readers⟩

/-! ## Progress -/

/-- The thread is in a task or in a scan. -/
def Unfinished (σ : Threads) : ThreadId → Prop
  | .scheduler => σ.scan.inScan = true
  | .task i => ∃ task, σ.tasks[i]? = some task ∧ task.2 ≠ .finished

/-- The thread can make a step, whatever comes from the outside. -/
def CanGo (platform : Platform) (σ : Threads) : ThreadId → Prop
  | .scheduler => ∀ alive, (step platform σ (.scheduler alive)).isSome
  | .task i => ∀ failure, (step platform σ (.task i failure)).isSome

theorem canGo_task (h : σ.tasks[i]? = some (command, point))
    (hadv : ∀ failure, (advanceTask platform i command failure σ.shared point).isSome) :
    σ.CanGo platform (.task i) := by
  intro failure
  rw [step, h, Option.bind_some, Option.isSome_map]
  exact hadv failure

/-- A task that holds a mutex can go on. -/
theorem canGo_of_holds (h : σ.tasks[i]? = some (command, point))
    (hpoint : point.inManager = true ∨ point.inWorker = true) :
    σ.Unfinished (.task i) ∧ σ.CanGo platform (.task i) := by
  refine ⟨⟨_, h, ?_⟩, canGo_task h fun failure ↦ ?_⟩ <;> cases point <;>
    simp_all [TaskPoint.inManager, TaskPoint.inWorker, advanceTask]

/-- A task that waits for `channel_map_mtx` can go on when no one holds it. -/
theorem canGo_of_free (h : σ.tasks[i]? = some (command, point)) (hpoint : point ≠ .finished)
    (hwriter : σ.shared.channelMapMtx.writer = none) (hreaders : σ.shared.channelMapMtx.readers = 0)
    (hmutex : point.waits = true ∨ σ.shared.channelMapMutex = none) :
    σ.Unfinished (.task i) ∧ σ.CanGo platform (.task i) := by
  refine ⟨⟨_, h, hpoint⟩, canGo_task h fun failure ↦ ?_⟩
  cases point with
  | absent | present itr => simp [advanceTask, SharedMutex.lock, hwriter, hreaders]
  | decided activate =>
    have hfree : σ.shared.channelMapMutex = none := hmutex.resolve_left Bool.false_ne_true
    simp [advanceTask, hfree]
  | finished => exact absurd rfl hpoint
  | _ => rfl

/-- The scheduler waits in a scan for `channel_map_mtx` only, for a task that holds it or, if the
library prefers writers, for one that waits for it as well. -/
theorem canGo_scheduler_or (hscan : σ.scan.inScan = true)
    (hwriter : σ.shared.channelMapMtx.writer = none) :
    σ.CanGo platform .scheduler ∨ (σ.scan.inHandler = false ∧ σ.writerWaits = true) := by
  rcases σ with ⟨tasks, scan, s⟩
  cases scan with
  | sleeping => cases hscan
  | scanning rest =>
    refine Or.inl fun alive ↦ ?_
    cases rest with
    | nil => rfl
    | cons name rest =>
      simp only [step, advanceScan, Option.isSome_map]
      repeat' split
      all_goals rfl
  | handling eventData targets rest => exact Or.inl fun alive ↦ rfl
  | calling eventData targets rest =>
    by_cases hwaits : writerWaits ⟨tasks, .calling eventData targets rest, s⟩ = true
    · exact Or.inr ⟨rfl, hwaits⟩
    · refine Or.inl fun alive ↦ ?_
      cases targets with
      | nil => rfl
      | cons wp targets =>
        have hfree : s.channelMapMtx.writer = none := hwriter
        simp only [step, advanceScan, Option.isSome_map, hwaits, Bool.and_false,
          SharedMutex.lockShared, hfree, and_self, if_true]
        repeat' split
        all_goals rfl

/-- A task that waits for `channel_map_mtx`. -/
theorem exists_of_writerWaits (h : σ.writerWaits = true) :
    ∃ (i : ℕ) (command : AquireCommand) (point : TaskPoint),
      σ.tasks[i]? = some (command, point) ∧ point.waits = true := by
  obtain ⟨⟨command, point⟩, hmem, hpoint⟩ := List.any_eq_true.mp h
  obtain ⟨i, hi⟩ := List.getElem?_of_mem hmem
  exact ⟨i, command, point, hi, hpoint⟩

/-- **No deadlock**: whatever the tasks and the scheduler have done so far, as long as one of them
is in a task or in a scan, one of those that are can make a step. -/
theorem progress_of_run {manager : EpicsServiceManager} {commands : List AquireCommand}
    {sched : List ThreadStep} (h : run (step platform) (start manager commands) sched = some σ)
    (hunfinished : ∃ t, σ.Unfinished t) : ∃ t, σ.Unfinished t ∧ σ.CanGo platform t := by
  have hlocked : σ.Locked :=
    run_invariant (P := Locked) (fun _ _ _ ↦ locked_step) h (locked_start manager commands)
  -- a task that holds a mutex is where the search for a thread that can go on ends
  by_cases hholds : ∃ i, σ.HoldsManager (.task i) ∨ σ.HoldsWorker (.task i)
  · obtain ⟨i, hi⟩ := hholds
    rcases htask : σ.tasks[i]? with _ | ⟨command, point⟩
    · simp [HoldsManager, HoldsWorker, point?, htask] at hi
    · exact ⟨.task i, canGo_of_holds htask (by
        simpa [HoldsManager, HoldsWorker, point?, htask] using hi)⟩
  · simp only [not_exists, not_or] at hholds
    have hwriter : σ.shared.channelMapMtx.writer = none := by
      rcases hw : σ.shared.channelMapMtx.writer with _ | t
      · rfl
      · have ht := (hlocked.worker t).mp hw
        cases t with
        | scheduler => exact absurd ht id
        | task i => exact absurd ht (hholds i).2
    by_cases hscan : σ.scan.inScan = true
    · have hgo : σ.CanGo platform .scheduler ∨ _ := canGo_scheduler_or hscan hwriter
      rcases hgo with hgo | ⟨hhandler, hwaits⟩
      · exact ⟨.scheduler, hscan, hgo⟩
      · obtain ⟨i, command, point, htask, hpoint⟩ := exists_of_writerWaits hwaits
        have hreaders := hlocked.readers
        rw [hhandler] at hreaders
        refine ⟨.task i, canGo_of_free htask ?_ hwriter hreaders (Or.inl hpoint)⟩
        rintro rfl
        cases hpoint
    · -- between two scans both mutexes are free
      have hfree : σ.shared.channelMapMutex = none := by
        rcases hm : σ.shared.channelMapMutex with _ | t
        · rfl
        · have ht := (hlocked.manager t).mp hm
          cases t with
          | scheduler => exact absurd ht hscan
          | task i => exact absurd ht (hholds i).1
      have hreaders : σ.shared.channelMapMtx.readers = 0 := by
        rw [hlocked.readers]
        cases hs : σ.scan <;> simp [hs, ScanPoint.inScan, ScanPoint.inHandler] at hscan ⊢
      obtain ⟨t, ht⟩ := hunfinished
      cases t with
      | scheduler => exact absurd ht hscan
      | task i =>
        obtain ⟨⟨command, point⟩, htask, hpoint⟩ := ht
        exact ⟨.task i, canGo_of_free htask hpoint hwriter hreaders (Or.inr hfree)⟩

/-- A task that waits for the end of a scan. -/
theorem progress_of_run_scanning :
    ∃ σ, run (step ⟨fun _ ↦ true, fun vec _ ↦ vec, true, fun _ ↦ 0, 0⟩)
        (start .empty [⟨"pva", "channel:ramp:ramp", true, "acquire_comad_in"⟩])
        [.scheduler fun _ ↦ true, .task 0 none, .task 0 none, .task 0 none, .task 0 none] =
          some σ ∧
      step ⟨fun _ ↦ true, fun vec _ ↦ vec, true, fun _ ↦ 0, 0⟩ σ (.task 0 none) = none ∧
      ∃ t, σ.Unfinished t ∧ σ.CanGo ⟨fun _ ↦ true, fun vec _ ↦ vec, true, fun _ ↦ 0, 0⟩ t := by
  obtain ⟨σ, h, htask, hblocked⟩ : ∃ σ,
      run (step ⟨fun _ ↦ true, fun vec _ ↦ vec, true, fun _ ↦ 0, 0⟩)
        (start .empty [⟨"pva", "channel:ramp:ramp", true, "acquire_comad_in"⟩])
        [.scheduler fun _ ↦ true, .task 0 none, .task 0 none, .task 0 none, .task 0 none] =
          some σ ∧
      σ.tasks[0]? = some (⟨"pva", "channel:ramp:ramp", true, "acquire_comad_in"⟩, .decided true) ∧
      step ⟨fun _ ↦ true, fun vec _ ↦ vec, true, fun _ ↦ 0, 0⟩ σ (.task 0 none) = none :=
    ⟨_, rfl, rfl, rfl⟩
  exact ⟨σ, h, hblocked, progress_of_run h ⟨.task 0, _, htask, nofun⟩⟩

end Threads

end Ekg
