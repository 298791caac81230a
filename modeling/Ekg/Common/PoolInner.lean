import Ekg.Common.PoolWait

/-!
# A pool that is not called

Between two calls a pool has only itself to move it: its workers, a pusher that has not returned,
and the manager inside its call.  A program that uses the pool interleaves its own steps with these.
Here is what such a step leaves alone, and what it brings the manager closer to.
-/

set_option autoImplicit false

namespace Ekg

open Steps

universe u

/-- A step of a thread that is in the pool already. -/
def PoolAction.inner {α : Type u} : PoolAction α → Bool
  | .worker _ | .wakeWorker _ | .pusher _ _ | .manager | .wakeManager => true
  | _ => false

namespace PoolThreads

variable {α : Type u} {hardwareConcurrency i : ℕ} {s t : PoolThreads α} {a : PoolAction α}

/-- Inside the pool a thread works, or a wait ends without a notification. -/
theorem works_of_inner (ha : a.inner = true) :
    Works a ∨ (∃ i, a = .wakeWorker i) ∨ a = .wakeManager := by
  cases a with
  | worker | pusher | manager => exact Or.inl trivial
  | wakeWorker i => exact Or.inr (Or.inl ⟨i, rfl⟩)
  | wakeManager => exact Or.inr (Or.inr rfl)
  | _ => cases ha

/-- A wait of a worker that ends without a notification. -/
theorem wakeWorker_eq_some (h : step hardwareConcurrency s (.wakeWorker i) = some t) :
    s.workers[i]? = some (.blocked false) ∧ t = { s with workers := s.workers.set i .locking } := by
  obtain ⟨hasleep, heq⟩ := Option.ite_none_right_eq_some.mp h
  exact ⟨any_asleep.mp hasleep, (Option.some_inj.mp heq).symm⟩

/-- A wait of the manager that ends without a notification. -/
theorem wakeManager_eq_some (h : step hardwareConcurrency s .wakeManager = some t) :
    ∃ next, s.manager = .waitBlocked false next ∧ t = { s with manager := .waitLocking next } := by
  rw [PoolThreads.step] at h
  split at h
  · rename_i next hblocked
    exact ⟨next, hblocked, (Option.some_inj.mp h).symm⟩
  · cases h

/-- Inside the pool nobody calls `push_task`, and who has returned from it stays there. -/
theorem pushers_inner (ha : a.inner = true) (h : step hardwareConcurrency s a = some t) :
    t.pushers.length = s.pushers.length ∧
      ∀ j : ℕ, s.pushers[j]? = some .returned → t.pushers[j]? = some .returned := by
  cases a with
  | worker i =>
    obtain ⟨point, point', r, -, hadv, rfl⟩ := step_worker_eq_some.mp h
    rw [(advanceWorker_frame hadv).2.1]
    exact ⟨rfl, fun j hj ↦ hj⟩
  | pusher i woken =>
    obtain ⟨place, place', r, hplace, hadv, rfl⟩ := step_pusher_eq_some.mp h
    rw [(advancePusher_frame hadv).1]
    refine ⟨List.length_set, fun j hj ↦ ?_⟩
    have hij : i ≠ j := by
      rintro rfl
      cases hplace.symm.trans hj
      cases hadv
    rwa [List.getElem?_set_ne hij]
  | manager =>
    rw [(advanceManager_owner h).1]
    exact ⟨rfl, fun j hj ↦ hj⟩
  | wakeWorker i =>
    obtain ⟨-, rfl⟩ := wakeWorker_eq_some h
    exact ⟨rfl, fun j hj ↦ hj⟩
  | wakeManager =>
    obtain ⟨next, -, rfl⟩ := wakeManager_eq_some h
    exact ⟨rfl, fun j hj ↦ hj⟩
  | _ => cases ha

theorem Calm.inner (hs : s.Calm) (ha : a.inner = true)
    (h : PoolThreads.step hardwareConcurrency s a = some t) : t.Calm := by
  have hproper := hs.proper.step h
  have hattended := hs.attended.step hs.proper h
  rcases works_of_inner ha with hworks | ⟨i, rfl⟩ | rfl
  · exact (hs.step hworks h).1
  · obtain ⟨-, rfl⟩ := wakeWorker_eq_some h
    exact ⟨hproper, hattended, hs.unpaused, hs.resets⟩
  · obtain ⟨next, hblocked, rfl⟩ := wakeManager_eq_some h
    refine ⟨hproper, hattended, hs.unpaused, ?_⟩
    have hresets := hs.resets
    rw [hblocked] at hresets
    exact hresets

/-- A wait that ends without a notification finds out less than one that ends with it. -/
theorem Waiting.inner (hs : s.Waiting) (ha : a.inner = true)
    (h : PoolThreads.step hardwareConcurrency s a = some t) : t.Waiting := by
  have hcalm := hs.calm.inner ha h
  rcases works_of_inner ha with hworks | ⟨i, rfl⟩ | rfl
  · exact hs.step hworks h
  · obtain ⟨hpoint, rfl⟩ := wakeWorker_eq_some h
    refine ⟨hcalm, hs.pushers, ?_⟩
    have hfact := hs.fact
    have hfinished (hs : s.Finished) :
        Finished { s with workers := s.workers.set i .locking } := by
      rw [Finished] at hs ⊢
      simp only [account, unfinished_set_of_eq hpoint .locking rfl]
      exact hs
    have hbusy (hs : s.Busy) : Busy { s with workers := s.workers.set i .locking } := by
      refine hs.imp id fun hany ↦ ?_
      obtain ⟨point, hmem, hoccupied⟩ := List.any_eq_true.mp hany
      obtain ⟨j, hj⟩ := List.mem_iff_getElem?.mp hmem
      have hij : i ≠ j := by
        rintro rfl
        cases hpoint.symm.trans hj
        cases hoccupied
      have hj' : (s.workers.set i .locking)[j]? = some point := by
        rwa [List.getElem?_set_ne hij]
      exact List.any_eq_true.mpr ⟨point, List.mem_of_getElem? hj', hoccupied⟩
    dsimp only at hfact ⊢
    cases hmanager : s.manager with
    | waitEntering next => trivial
    | waitLocking next | waitTesting next =>
      rw [hmanager] at hfact
      exact hfact
    | waitComparing tasksTotal next =>
      rw [hmanager] at hfact
      exact hfact
    | waitReleasing next =>
      rw [hmanager] at hfact
      exact ⟨hfact.1, hbusy hfact.2⟩
    | waitBlocked notified next =>
      rw [hmanager] at hfact
      cases notified with
      | true => exact hfact
      | false => exact ⟨hfact.1, hbusy hfact.2⟩
    | _ =>
      rw [hmanager] at hfact
      exact hfinished hfact
  · obtain ⟨next, hblocked, rfl⟩ := wakeManager_eq_some h
    refine ⟨hcalm, hs.pushers, ?_⟩
    have hfact := hs.fact
    rw [hblocked] at hfact
    exact hfact.1

/-- What is finished stays finished, if nobody is pushing. -/
theorem Finished.inner (hs : s.Finished) (ha : a.inner = true)
    (hpushers : ∀ place ∈ s.pushers, place = .returned)
    (h : step hardwareConcurrency s a = some t) : t.Finished := by
  cases a with
  | worker i => exact hs.worker h
  | pusher i woken =>
    obtain ⟨place, place', r, hplace, hadv, -⟩ := step_pusher_eq_some.mp h
    rw [hpushers place (List.mem_of_getElem? hplace)] at hadv
    cases hadv
  | manager =>
    rw [Finished, account_manager (managerMove_of_step h)]
    exact hs
  | wakeWorker i =>
    obtain ⟨hpoint, rfl⟩ := wakeWorker_eq_some h
    rw [Finished] at hs ⊢
    simp only [account, unfinished_set_of_eq hpoint .locking rfl]
    exact hs
  | wakeManager =>
    obtain ⟨next, -, rfl⟩ := wakeManager_eq_some h
    exact hs
  | _ => cases ha

/-- How the point of the manager changes inside the pool. -/
theorem manager_inner (ha : a.inner = true) (h : step hardwareConcurrency s a = some t) :
    t.manager = s.manager ∨ t.manager = s.manager.notify ∨
      s.advanceManager hardwareConcurrency = some t ∨
      ∃ next, s.manager = .waitBlocked false next ∧ t.manager = .waitLocking next := by
  cases a with
  | worker i =>
    obtain ⟨point, point', r, -, hadv, rfl⟩ := step_worker_eq_some.mp h
    rcases (advanceWorker_frame hadv).2.2.2.2.2.2.2 with hmanager | ⟨-, -, hmanager⟩
    · exact Or.inl hmanager
    · exact Or.inr (Or.inl hmanager)
  | pusher i woken =>
    obtain ⟨place, place', r, -, hadv, rfl⟩ := step_pusher_eq_some.mp h
    exact Or.inl (advancePusher_frame hadv).2.2.2.2.2.1
  | manager => exact Or.inr (Or.inr (Or.inl h))
  | wakeWorker i =>
    obtain ⟨-, rfl⟩ := wakeWorker_eq_some h
    exact Or.inl rfl
  | wakeManager =>
    obtain ⟨next, hblocked, rfl⟩ := wakeManager_eq_some h
    exact Or.inr (Or.inr (Or.inr ⟨next, hblocked, rfl⟩))
  | _ => cases ha

/-- A manager that is in no call begins none. -/
theorem idle_inner (ha : a.inner = true) (h : step hardwareConcurrency s a = some t)
    (hs : s.manager = .idle) : t.manager = .idle := by
  rcases manager_inner ha h with heq | heq | hadv | ⟨next, hblocked, -⟩
  · exact heq.trans hs
  · rw [heq, hs]
    rfl
  · rw [advanceManager, hs] at hadv
    cases hadv
  · cases hs.symm.trans hblocked

theorem destroyed_inner (ha : a.inner = true) (h : step hardwareConcurrency s a = some t)
    (hs : s.manager = .destroyed) : t.manager = .destroyed := by
  rcases manager_inner ha h with heq | heq | hadv | ⟨next, hblocked, -⟩
  · exact heq.trans hs
  · rw [heq, hs]
    rfl
  · rw [advanceManager, hs] at hadv
    cases hadv
  · cases hs.symm.trans hblocked

/-- The manager is in the constructor, or through with it. -/
def Creates (s : PoolThreads α) : Prop :=
  s.manager = .starting ∨ (∃ i, s.manager = .creating i) ∨ s.manager = .idle

theorem Creates.inner (hs : s.Creates) (ha : a.inner = true)
    (h : step hardwareConcurrency s a = some t) : t.Creates := by
  rcases manager_inner ha h with heq | heq | hadv | ⟨next, hblocked, -⟩
  · rwa [Creates, heq]
  · rcases hs with hs | ⟨i, hs⟩ | hs <;> rw [hs] at heq
    · exact Or.inl heq
    · exact Or.inr (Or.inl ⟨i, heq⟩)
    · exact Or.inr (Or.inr heq)
  · rcases hs with hs | ⟨i, hs⟩ | hs <;> rw [advanceManager, hs] at hadv
    · cases hadv
      exact Or.inr (Or.inl ⟨0, rfl⟩)
    · dsimp only at hadv
      split at hadv <;> cases hadv
      · exact Or.inr (Or.inl ⟨i + 1, rfl⟩)
      · exact Or.inr (Or.inr rfl)
    · cases hadv
  · rcases hs with hs | ⟨i, hs⟩ | hs <;> cases hs.symm.trans hblocked

/-- The manager is in `wait_for_tasks`, or through with it. -/
def WaitsOnly (s : PoolThreads α) : Prop := s.manager.up = true ∧ s.manager.next? = none

theorem WaitsOnly.inner (hs : s.WaitsOnly) (ha : a.inner = true)
    (h : step hardwareConcurrency s a = some t) : t.WaitsOnly := by
  rcases works_of_inner ha with hworks | ⟨i, rfl⟩ | rfl
  · exact up_of_step hworks hs.1 hs.2 h
  · obtain ⟨-, rfl⟩ := wakeWorker_eq_some h
    exact hs
  · obtain ⟨next, hblocked, rfl⟩ := wakeManager_eq_some h
    rw [WaitsOnly, hblocked] at hs
    exact hs

/-- The manager is in the destructor, or through with it. -/
def Destructs (s : PoolThreads α) : Prop :=
  s.manager.next? = some .destructing ∨ s.manager = .destroyed

theorem Destructs.managerMove (hs : s.manager.next? = some .destructing)
    (h : ManagerMove hardwareConcurrency s t) : t.Destructs := by
  cases h with
  | wait waiting owner manager hwaits hup hnext ht => exact Or.inl (hnext.trans hs)
  | stop next hmanager | notify next hmanager =>
    rw [hmanager] at hs
    exact Or.inl hs
  | destroy hmanager => exact Or.inr rfl
  | pause _ _ hmanager | rejoin _ _ hmanager | restore _ hmanager | start hmanager
  | create _ hmanager | created _ hmanager =>
    rw [hmanager] at hs
    cases hs

theorem Destructs.inner (hs : s.Destructs) (ha : a.inner = true)
    (h : step hardwareConcurrency s a = some t) : t.Destructs := by
  rcases hs with hs | hs
  · rcases manager_inner ha h with heq | heq | hadv | ⟨next, hblocked, hlocking⟩
    · exact Or.inl ((congrArg _ heq).trans hs)
    · exact Or.inl ((congrArg _ heq).trans ((next?_notify _).trans hs))
    · exact .managerMove hs (managerMove_of_step hadv)
    · rw [hblocked] at hs
      exact Or.inl ((congrArg _ hlocking).trans hs)
  · exact Or.inr (destroyed_inner ha h hs)

/-- Inside the pool nobody calls `push_task`. -/
theorem task?_of_inner (ha : a.inner = true) : a.task? = none := by
  cases a <;> first | rfl | cases ha

/-- Inside the pool no task is added, and none is lost. -/
theorem submitted_inner (ha : a.inner = true) (h : step hardwareConcurrency s a = some t) :
    t.submitted = s.submitted := by
  rw [submitted_step h, task?_of_inner ha]
  exact add_zero _

/-- Where nothing is left to do, nothing is executed. -/
theorem Finished.not_executing (hs : s.Finished) (task : α) : .executing task ∉ s.workers :=
  fun hmem ↦ absurd rfl (List.countP_eq_zero.mp hs.2 _ hmem)

end PoolThreads

end Ekg
