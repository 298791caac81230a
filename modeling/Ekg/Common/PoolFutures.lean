import Mathlib.Data.Multiset.Range
import Ekg.Common.PoolLoops
import Ekg.Lib.Promise

/-!
# Futures of the thread pool

`submit` gives the pool a lambda that calls a function and keeps what it returns, or throws, in a
promise; the caller gets the future.  `parallelize_loop` submits the blocks of a loop, and
`multi_future::get` asks the futures for their values, in the order of the blocks.

The pool here is that of `PoolThreads`, and any number of threads submit functions to it and ask for
the results, while others push tasks, pause the pool, reset it and destroy it.  What a function does
when it is called is part of its task.  A pool that is destroyed is not used any more; the tasks
that are still in its queue are destroyed with it, and so are their promises.

The results come in the order of the submissions (`get_eq_mapM`), and those of the blocks of a loop
are what the plain loop has (`get_eq_loop`); every client of an unpaused pool gets its results
(`gets_return`); and the promises that break are those of the tasks that are left over
(`ready_of_destroyed`).
-/

set_option autoImplicit false

namespace Ekg

open Promise Steps

universe u v

/-- A task of the pool. -/
inductive Job (ε : Type u) (ρ : Type v)
  /-- A task that was passed to `push_task`. -/
  | pushed (id : ℕ)
  /-- The lambda of `submit`, with the number of its promise, and with what its function does. -/
  | submitted (promise : ℕ) (outcome : Except ε ρ)
  deriving DecidableEq, Repr

namespace Job

variable {ε : Type u} {ρ : Type v}

def promise? : Job ε ρ → Option ℕ
  | pushed _ => none
  | submitted promise _ => some promise

/-- The lambda, as far as its promise goes: the function was called, and what it returned or threw
is kept.  The outer `catch` is there for the function, but it also gets what `set_value` throws. -/
def keep (outcome : Except ε ρ) (state : SharedState ε ρ) : SharedState ε ρ :=
  match outcome with
  | .ok value =>
    match satisfy (.ok value) state with
    | .ok state => state
    | .error e => rescue e state
  | .error e => rescue (.thrown e) state
where
  /-- The outer `catch`, with the inner one. -/
  rescue (e : FutureError ε) (state : SharedState ε ρ) : SharedState ε ρ :=
    match satisfy (.error e) state with
    | .ok state => state
    | .error _ => state

/-- The task is called. -/
def run (states : List (SharedState ε ρ)) : Job ε ρ → List (SharedState ε ρ)
  | pushed _ => states
  | submitted promise outcome => states.modify promise (keep outcome)

/-- The task is destroyed, and was not called. -/
def drop (states : List (SharedState ε ρ)) : Job ε ρ → List (SharedState ε ρ)
  | pushed _ => states
  | submitted promise _ => states.modify promise abandon

end Job

/-- Where a thread is that submits functions and asks for their results. -/
inductive ClientPoint (ε : Type u) (ρ : Type v)
  /-- Before the next function is submitted. -/
  | submitting (calls : List (Except ε ρ)) (futures : List ℕ)
  /-- In `push_task`, where it is pusher `k`. -/
  | pushing (k : ℕ) (calls : List (Except ε ρ)) (futures : List ℕ)
  /-- In `multi_future::get`, before `get` of the next future. -/
  | getting (futures : List ℕ) (results : List ρ)
  | ended (outcome : Except (FutureError ε) (List ρ))
  deriving DecidableEq

/-- A thread that submits functions, of which `calls` says what they do, and asks for their
results. -/
structure Client (ε : Type u) (ρ : Type v) where
  calls : List (Except ε ρ)
  point : ClientPoint ε ρ
  deriving DecidableEq

/-- A pool, and the promises of its tasks. -/
structure Futures (ε : Type u) (ρ : Type v) where
  pool : PoolThreads (Job ε ρ)
  states : List (SharedState ε ρ) := []
  clients : List (Client ε ρ) := []

/-- Something happens. -/
inductive FuturesAction (ε : Type u) (ρ : Type v)
  /-- The pool goes on, or somebody else uses it. -/
  | pool (a : PoolAction (Job ε ρ))
  /-- A thread begins to submit functions. -/
  | call (calls : List (Except ε ρ))
  /-- Client `i` goes on. -/
  | client (i : ℕ)
  deriving DecidableEq

/-- At this point a pusher is through. -/
def PusherPoint.isReturned {α : Type u} : PusherPoint α → Bool
  | returned => true
  | _ => false

/-- Only the clients submit. -/
def PoolAction.submits {ε : Type u} {ρ : Type v} : PoolAction (Job ε ρ) → Bool
  | pushTask (.submitted _ _) => true
  | _ => false

namespace PoolThreads

variable {α : Type u} {hardwareConcurrency i woken : ℕ} {s r t : PoolThreads α}
  {point point' : WorkerPoint α} {a : PoolAction α}

/-- The task that returns in a step. -/
def returning? (s : PoolThreads α) : PoolAction α → Option α
  | .worker i => (s.workers[i]?).bind WorkerPoint.task?
  | _ => none

theorem done_advanceWorker (hadv : advanceWorker i s point = some (point', r)) :
    r.done = s.done ++ point.task?.toList := by
  cases point with
  | locking | relocking | blocked =>
    obtain ⟨-, heq⟩ := Option.ite_none_right_eq_some.mp hadv
    cases heq
    exact (List.append_nil _).symm
  | woken | permitted | taking =>
    rw [advanceWorker] at hadv
    split at hadv <;> cases hadv <;> exact (List.append_nil _).symm
  | executing task =>
    cases hadv
    rfl
  | ended | undefined => cases hadv
  | _ =>
    cases hadv
    exact (List.append_nil _).symm

/-- What is done after a step. -/
theorem done_step (h : step hardwareConcurrency s a = some t) :
    t.done = s.done ++ (s.returning? a).toList := by
  cases a with
  | worker i =>
    obtain ⟨point, point', r, hpoint, hadv, rfl⟩ := step_worker_eq_some.mp h
    have hdone := done_advanceWorker hadv
    rw [returning?, hpoint, Option.bind_some]
    exact hdone
  | pusher i woken =>
    obtain ⟨place, place', r, -, hadv, rfl⟩ := step_pusher_eq_some.mp h
    obtain ⟨-, -, -, -, -, -, -, hdone⟩ := advancePusher_frame hadv
    exact hdone.trans (List.append_nil _).symm
  | manager =>
    have haccount := congrArg PoolAccount.done (account_manager (managerMove_of_step h))
    exact haccount.trans (List.append_nil _).symm
  | wakeWorker i =>
    obtain ⟨-, rfl⟩ := wakeWorker_eq_some h
    exact (List.append_nil _).symm
  | pushTask task | setPaused paused =>
    cases h
    exact (List.append_nil _).symm
  | call call =>
    obtain ⟨-, heq⟩ := Option.ite_none_right_eq_some.mp h
    cases heq
    cases call <;> exact (List.append_nil _).symm
  | wakeManager =>
    obtain ⟨next, -, rfl⟩ := wakeManager_eq_some h
    exact (List.append_nil _).symm

/-- A pool is destroyed by its manager. -/
theorem eq_manager_of_destroyed (h : step hardwareConcurrency s a = some t)
    (hs : s.manager ≠ .destroyed) (ht : t.manager = .destroyed) : a = .manager := by
  cases a with
  | manager => rfl
  | worker i =>
    obtain ⟨point, point', r, -, hadv, rfl⟩ := step_worker_eq_some.mp h
    obtain ⟨-, -, -, -, -, -, -, hmanager⟩ := advanceWorker_frame hadv
    refine absurd ?_ hs
    rcases hmanager with hmanager | ⟨-, -, hmanager⟩
    · exact hmanager.symm.trans ht
    · cases heq : s.manager with
      | destroyed => rfl
      | _ =>
        rw [heq] at hmanager
        cases hmanager.symm.trans ht
  | pusher i woken =>
    obtain ⟨place, place', r, -, hadv, rfl⟩ := step_pusher_eq_some.mp h
    obtain ⟨-, -, -, -, -, hmanager, -⟩ := advancePusher_frame hadv
    exact absurd (hmanager.symm.trans ht) hs
  | wakeWorker i =>
    obtain ⟨-, rfl⟩ := wakeWorker_eq_some h
    exact absurd ht hs
  | pushTask task | setPaused paused =>
    cases h
    exact absurd ht hs
  | call call =>
    obtain ⟨-, heq⟩ := Option.ite_none_right_eq_some.mp h
    cases heq
    cases call <;> cases ht
  | wakeManager =>
    obtain ⟨next, -, rfl⟩ := wakeManager_eq_some h
    cases ht

/-- Nobody forgets a pusher. -/
theorem length_pushers_le (h : step hardwareConcurrency s a = some t) :
    s.pushers.length ≤ t.pushers.length := by
  cases a with
  | worker i =>
    obtain ⟨point, point', r, -, hadv, rfl⟩ := step_worker_eq_some.mp h
    exact (congrArg List.length (advanceWorker_frame hadv).2.1).ge
  | pusher i woken =>
    obtain ⟨place, place', r, -, hadv, rfl⟩ := step_pusher_eq_some.mp h
    dsimp only
    rw [List.length_set, (advancePusher_frame hadv).1]
  | manager =>
    have hmove := managerMove_of_step h
    cases hmove <;> exact Nat.le_refl _
  | pushTask task =>
    cases h
    dsimp only
    rw [List.length_append]
    exact Nat.le_add_right _ _
  | wakeWorker i =>
    obtain ⟨-, rfl⟩ := wakeWorker_eq_some h
    exact Nat.le_refl _
  | setPaused paused =>
    cases h
    exact Nat.le_refl _
  | call call =>
    obtain ⟨-, heq⟩ := Option.ite_none_right_eq_some.mp h
    cases heq
    cases call <;> exact Nat.le_refl _
  | wakeManager =>
    obtain ⟨next, -, rfl⟩ := wakeManager_eq_some h
    exact Nat.le_refl _

/-- Where the tasks are that were submitted. -/
theorem submitted_eq (hs : s.account.Balanced) :
    s.submitted = ↑s.done + (↑(s.workers.filterMap WorkerPoint.task?) +
      (↑s.tasks + ↑(s.pushers.filterMap PusherPoint.task?))) := by
  have hpushed : s.pushed = s.taken ++ s.tasks := hs.pushed
  have htaken : (s.taken : Multiset α) = s.done + ↑(s.workers.filterMap WorkerPoint.task?) :=
    hs.taken
  rw [submitted, hpushed, ← Multiset.coe_add, htaken, add_assoc, add_assoc]

end PoolThreads

namespace Futures

variable {ε : Type u} {ρ : Type v}

/-- A pool that has just been made. -/
def construct (hardwareConcurrency threadCount : ℕ) : Futures ε ρ where
  pool := PoolThreads.construct hardwareConcurrency threadCount

/-- The promises after a step that makes `pool` of the pool: a worker has called a task, or the
queue is destroyed. -/
def statesAfter (s : Futures ε ρ) (a : PoolAction (Job ε ρ)) (pool : PoolThreads (Job ε ρ)) :
    List (SharedState ε ρ) :=
  match s.pool.returning? a with
  | some job => job.run s.states
  | none =>
    if pool.manager = .destroyed then pool.tasks.foldl Job.drop s.states else s.states

/-- The next step of a client, if it is not through and does not have to wait. -/
def advanceClient (hardwareConcurrency : ℕ) (s : Futures ε ρ) :
    ClientPoint ε ρ → Option (ClientPoint ε ρ × Futures ε ρ)
  | .submitting [] futures => some (.getting futures [], s)
  | .submitting (outcome :: calls) futures =>
    if s.pool.manager = .destroyed then none
    else
      (PoolThreads.step hardwareConcurrency s.pool
        (.pushTask (.submitted s.states.length outcome))).map fun pool ↦
          (.pushing s.pool.pushers.length calls (futures ++ [s.states.length]),
            { s with pool, states := s.states ++ [none] })
  | .pushing k calls futures =>
    if (s.pool.pushers[k]?).any PusherPoint.isReturned then some (.submitting calls futures, s)
    else none
  | .getting [] results => some (.ended (.ok results), s)
  | .getting (promise :: futures) results =>
    match s.states[promise]? with
    | some (some (.ok value)) => some (.getting futures (results ++ [value]), s)
    | some (some (.error e)) => some (.ended (.error e), s)
    | _ => none
  | .ended _ => none

/-- One step. -/
def step (hardwareConcurrency : ℕ) (s : Futures ε ρ) : FuturesAction ε ρ → Option (Futures ε ρ)
  | .pool a =>
    if s.pool.manager = .destroyed ∨ a.submits then none
    else
      (PoolThreads.step hardwareConcurrency s.pool a).map fun pool ↦
        { s with pool, states := s.statesAfter a pool }
  | .call calls => some { s with clients := s.clients ++ [⟨calls, .submitting calls []⟩] }
  | .client i => (s.clients[i]?).bind fun c ↦
      (s.advanceClient hardwareConcurrency c.point).map fun r ↦
        { r.2 with clients := r.2.clients.set i { c with point := r.1 } }

variable {hardwareConcurrency threadCount i : ℕ} {s r t : Futures ε ρ} {a : FuturesAction ε ρ}
  {sched rest : List (FuturesAction ε ρ)} {point point' : ClientPoint ε ρ} {c : Client ε ρ}

/-! ## One step -/

theorem step_pool_eq_some {b : PoolAction (Job ε ρ)} :
    step hardwareConcurrency s (.pool b) = some t ↔
      s.pool.manager ≠ .destroyed ∧ b.submits = false ∧
        ∃ pool, PoolThreads.step hardwareConcurrency s.pool b = some pool ∧
          t = { s with pool, states := s.statesAfter b pool } := by
  simp only [step, Option.ite_none_left_eq_some, not_or, Bool.not_eq_true, Option.map_eq_some_iff,
    and_assoc, eq_comm (a := t)]

theorem step_client_eq_some :
    step hardwareConcurrency s (.client i) = some t ↔
      ∃ c point r, s.clients[i]? = some c ∧
        s.advanceClient hardwareConcurrency c.point = some (point, r) ∧
        t = { r with clients := r.clients.set i { c with point } } := by
  simp only [step, Option.bind_eq_some_iff, Option.map_eq_some_iff, Prod.exists]
  constructor
  · rintro ⟨c, hc, point, r, hadv, rfl⟩
    exact ⟨c, point, r, hc, hadv, rfl⟩
  · rintro ⟨c, point, r, hc, hadv, rfl⟩
    exact ⟨c, hc, point, r, hadv, rfl⟩

/-- A function was submitted: there is a promise more, and a thread is in `push_task` with the
lambda. -/
def afterSubmit (s : Futures ε ρ) (outcome : Except ε ρ) : Futures ε ρ :=
  { s with
    pool := { s.pool with
      pushers := s.pool.pushers ++ [.locking (.submitted s.states.length outcome)] }
    states := s.states ++ [none] }

/-- A step of a client submits a function, or leaves everything as it is. -/
theorem advanceClient_cases
    (h : s.advanceClient hardwareConcurrency point = some (point', r)) :
    (r = s ∧ ∀ outcome calls futures, point ≠ .submitting (outcome :: calls) futures) ∨
      s.pool.manager ≠ .destroyed ∧ ∃ outcome calls futures,
        point = .submitting (outcome :: calls) futures ∧
          point' = .pushing s.pool.pushers.length calls (futures ++ [s.states.length]) ∧
          r = s.afterSubmit outcome := by
  cases point with
  | submitting calls futures =>
    cases calls with
    | nil =>
      cases h
      exact Or.inl ⟨rfl, fun _ _ _ hpoint ↦ by cases hpoint⟩
    | cons outcome calls =>
      obtain ⟨hfree, heq⟩ := Option.ite_none_left_eq_some.mp h
      cases heq
      exact Or.inr ⟨hfree, outcome, calls, futures, rfl, rfl, rfl⟩
  | pushing k calls futures =>
    obtain ⟨-, heq⟩ := Option.ite_none_right_eq_some.mp h
    cases heq
    exact Or.inl ⟨rfl, fun _ _ _ hpoint ↦ by cases hpoint⟩
  | getting futures results =>
    cases futures with
    | nil =>
      cases h
      exact Or.inl ⟨rfl, fun _ _ _ hpoint ↦ by cases hpoint⟩
    | cons promise futures =>
      rw [advanceClient] at h
      split at h <;> cases h <;>
        exact Or.inl ⟨rfl, fun _ _ _ hpoint ↦ by cases hpoint⟩
  | ended outcome => cases h

/-! ## The promises -/

theorem keep_none (outcome : Except ε ρ) :
    Job.keep outcome none = some (outcome.mapError .thrown) := by
  cases outcome <;> rfl

theorem length_run (states : List (SharedState ε ρ)) (job : Job ε ρ) :
    (job.run states).length = states.length := by
  cases job with
  | pushed id => rfl
  | submitted promise outcome => exact List.length_modify _ _ _

theorem length_foldl_drop (tasks : List (Job ε ρ)) (states : List (SharedState ε ρ)) :
    (tasks.foldl Job.drop states).length = states.length := by
  induction tasks generalizing states with
  | nil => rfl
  | cons job tasks ih =>
    rw [List.foldl_cons, ih]
    cases job with
    | pushed id => rfl
    | submitted promise outcome => exact List.length_modify _ _ _

/-- The promises that break when a queue is destroyed. -/
theorem getElem?_foldl_drop (tasks : List (Job ε ρ)) (states : List (SharedState ε ρ)) (p : ℕ) :
    (tasks.foldl Job.drop states)[p]? =
      if p ∈ tasks.filterMap Job.promise? then (states[p]?).map abandon else states[p]? := by
  induction tasks generalizing states with
  | nil => rfl
  | cons job tasks ih =>
    rw [List.foldl_cons, ih]
    cases job with
    | pushed id => rfl
    | submitted promise outcome =>
      have hcons : (Job.submitted promise outcome :: tasks).filterMap Job.promise? =
          promise :: tasks.filterMap Job.promise? := rfl
      have hidem : abandon ∘ abandon = (abandon : SharedState ε ρ → SharedState ε ρ) := by
        funext state
        cases state <;> rfl
      rw [hcons, Job.drop, List.getElem?_modify]
      by_cases hp : promise = p
      · subst hp
        simp [hidem]
      · simp [hp, Ne.symm hp]

/-- What is known of the promises: every submitted function has one of its own, which is ready when
the function was called, or when the pool was destroyed before that. -/
structure Coherent (s : Futures ε ρ) : Prop where
  proper : s.pool.Proper
  numbers : s.pool.submitted.filterMap Job.promise? = Multiset.range s.states.length
  done : ∀ p outcome, .submitted p outcome ∈ s.pool.done →
    s.states[p]? = some (some (outcome.mapError .thrown))
  ready : ∀ p result, s.states[p]? = some (some result) →
    (∃ outcome, .submitted p outcome ∈ s.pool.done) ∨
      s.pool.manager = .destroyed ∧ result = .error .brokenPromise ∧
        ∃ outcome, .submitted p outcome ∈ s.pool.tasks
  broken : s.pool.manager = .destroyed → ∀ p outcome, .submitted p outcome ∈ s.pool.tasks →
    s.states[p]? = some (some (.error .brokenPromise))

theorem Coherent.of_eq (hs : s.Coherent) (hpool : t.pool = s.pool) (hstates : t.states = s.states) :
    t.Coherent := by
  obtain ⟨hproper, hnumbers, hdone, hready, hbroken⟩ := hs
  rw [← hpool] at hproper hnumbers hdone hready hbroken
  rw [← hstates] at hnumbers hdone hready hbroken
  exact ⟨hproper, hnumbers, hdone, hready, hbroken⟩

theorem Coherent.lt (hs : s.Coherent) {p : ℕ} {outcome : Except ε ρ}
    (h : .submitted p outcome ∈ s.pool.submitted) : p < s.states.length := by
  rw [← Multiset.mem_range, ← hs.numbers]
  exact (Multiset.mem_filterMap _ _).mpr ⟨_, h, rfl⟩

theorem Coherent.nodup (hs : s.Coherent) : (s.pool.submitted.filterMap Job.promise?).Nodup := by
  rw [hs.numbers]
  exact Multiset.nodup_range _

theorem mem_of_returning? {pool : PoolThreads (Job ε ρ)} {b : PoolAction (Job ε ρ)} {job : Job ε ρ}
    (h : pool.returning? b = some job) : job ∈ pool.workers.filterMap WorkerPoint.task? := by
  cases b with
  | worker i =>
    obtain ⟨point, hpoint, htask⟩ := Option.bind_eq_some_iff.mp h
    exact List.mem_filterMap.mpr ⟨point, List.mem_of_getElem? hpoint, htask⟩
  | _ => cases h

/-- The promise of a task that was not called is empty, as long as the pool lives. -/
theorem Coherent.empty_of_pending (hs : s.Coherent) (hfree : s.pool.manager ≠ .destroyed) {p : ℕ}
    {outcome : Except ε ρ} {pending : Multiset (Job ε ρ)}
    (hsubmitted : s.pool.submitted = ↑s.pool.done + pending)
    (h : .submitted p outcome ∈ pending) :
    s.states[p]? = some none ∧ ∀ called, .submitted p called ∉ s.pool.done := by
  have hnodup := hs.nodup
  rw [hsubmitted] at hnodup
  have hnew : ∀ called, .submitted p called ∉ s.pool.done := fun called hdone ↦
    ne_of_nodup_add hnodup (Multiset.mem_coe.mpr hdone) h
      (show Job.promise? (.submitted p called) = some p from rfl) rfl rfl
  have hmem : .submitted p outcome ∈ s.pool.submitted := by
    rw [hsubmitted]
    exact Multiset.mem_add.mpr (Or.inr h)
  have hlt : p < s.states.length := hs.lt hmem
  refine ⟨?_, hnew⟩
  rw [List.getElem?_eq_getElem hlt, Option.some_inj]
  by_contra hne
  obtain ⟨result, hresult⟩ := Option.ne_none_iff_exists'.mp hne
  rcases hs.ready p result (by rw [List.getElem?_eq_getElem hlt, hresult]) with
    ⟨called, hdone⟩ | ⟨hdestroyed, -⟩
  · exact hnew called hdone
  · exact hfree hdestroyed

/-- **A promise is empty when its function is called**: nobody has called it before. -/
theorem Coherent.empty_of_returning (hs : s.Coherent) (hfree : s.pool.manager ≠ .destroyed)
    {b : PoolAction (Job ε ρ)} {p : ℕ} {outcome : Except ε ρ}
    (h : s.pool.returning? b = some (.submitted p outcome)) :
    s.states[p]? = some none ∧ ∀ called, .submitted p called ∉ s.pool.done :=
  hs.empty_of_pending hfree (PoolThreads.submitted_eq hs.proper.balanced)
    (Multiset.mem_add.mpr (Or.inl (Multiset.mem_coe.mpr (mem_of_returning? h))))

theorem Coherent.empty_of_tasks (hs : s.Coherent) (hfree : s.pool.manager ≠ .destroyed)
    {p : ℕ} {outcome : Except ε ρ} (h : .submitted p outcome ∈ s.pool.tasks) :
    s.states[p]? = some none :=
  (hs.empty_of_pending hfree (PoolThreads.submitted_eq hs.proper.balanced)
    (Multiset.mem_add.mpr (Or.inr (Multiset.mem_add.mpr (Or.inl (Multiset.mem_coe.mpr h)))))).1

/-- As long as the pool lives, a promise is ready because its function was called. -/
theorem Coherent.exists_done (hs : s.Coherent) (hfree : s.pool.manager ≠ .destroyed) {p : ℕ}
    {result : Except (FutureError ε) ρ} (h : s.states[p]? = some (some result)) :
    ∃ outcome, .submitted p outcome ∈ s.pool.done :=
  (hs.ready p result h).resolve_right fun hbroken ↦ hfree hbroken.1

section Pool

variable {pool : PoolThreads (Job ε ρ)} {b : PoolAction (Job ε ρ)} {p : ℕ}

/-- No submitted function returns in the step. -/
theorem Coherent.quiet (hs : s.Coherent) (hfree : s.pool.manager ≠ .destroyed)
    (hlives : pool.manager ≠ .destroyed) (hproper : pool.Proper)
    (hnumbers : pool.submitted.filterMap Job.promise? = Multiset.range s.states.length)
    (hdone : ∀ p outcome, .submitted p outcome ∈ pool.done ↔ .submitted p outcome ∈ s.pool.done) :
    Coherent { s with pool } := by
  refine ⟨hproper, hnumbers, fun p outcome hmem ↦ hs.done p outcome ((hdone p outcome).mp hmem),
    fun p result hresult ↦ Or.inl ?_, fun ht ↦ absurd ht hlives⟩
  obtain ⟨outcome, hold⟩ := hs.exists_done hfree hresult
  exact ⟨outcome, (hdone p outcome).mpr hold⟩

/-- A submitted function returns in the step: its promise is empty, and gets what it did. -/
theorem Coherent.called (hs : s.Coherent) (hfree : s.pool.manager ≠ .destroyed)
    (hlives : pool.manager ≠ .destroyed) (hproper : pool.Proper)
    (hnumbers : pool.submitted.filterMap Job.promise? = Multiset.range s.states.length)
    {called : Except ε ρ} (hreturning : s.pool.returning? b = some (.submitted p called))
    (hdone : pool.done = s.pool.done ++ [.submitted p called]) :
    Coherent { s with pool, states := Job.run s.states (.submitted p called) } := by
  obtain ⟨hempty, hnew⟩ := hs.empty_of_returning hfree hreturning
  have hstate (q : ℕ) : (Job.run s.states (.submitted p called))[q]? =
      if p = q then some (some (called.mapError .thrown)) else s.states[q]? := by
    rw [Job.run, List.getElem?_modify]
    split
    · rename_i hq
      rw [← hq, hempty, ← keep_none]
      rfl
    · exact id_map _
  have hmem_done (q : ℕ) (outcome : Except ε ρ) : .submitted q outcome ∈ pool.done ↔
      .submitted q outcome ∈ s.pool.done ∨ p = q ∧ called = outcome := by
    simp [hdone, eq_comm]
  refine ⟨hproper, ?_, fun q outcome hmem ↦ ?_, fun q result hresult ↦ Or.inl ?_,
    fun ht ↦ absurd ht hlives⟩
  · rw [length_run]
    exact hnumbers
  · dsimp only at hmem
    rw [hstate]
    rcases (hmem_done q outcome).mp hmem with hold | ⟨rfl, rfl⟩
    · rw [if_neg fun hq : p = q ↦ hnew outcome (hq ▸ hold)]
      exact hs.done q outcome hold
    · exact if_pos rfl
  · dsimp only at hresult
    rw [hstate] at hresult
    split at hresult
    · rename_i hq
      exact ⟨called, (hmem_done q called).mpr (Or.inr ⟨hq, rfl⟩)⟩
    · obtain ⟨outcome, hold⟩ := hs.exists_done hfree hresult
      exact ⟨outcome, (hmem_done q outcome).mpr (Or.inl hold)⟩

/-- The pool is destroyed in the step, with what is left in its queue. -/
theorem Coherent.destroyed (hs : s.Coherent) (hfree : s.pool.manager ≠ .destroyed)
    (ht : pool.manager = .destroyed) (hproper : pool.Proper)
    (hnumbers : pool.submitted.filterMap Job.promise? = Multiset.range s.states.length)
    (hdone : pool.done = s.pool.done) (htasks : pool.tasks = s.pool.tasks) :
    Coherent { s with pool, states := pool.tasks.foldl Job.drop s.states } := by
  refine ⟨hproper, ?_, fun p outcome hmem ↦ ?_, fun p result hresult ↦ ?_,
    fun _ p outcome hleft ↦ ?_⟩
  · rw [length_foldl_drop]
    exact hnumbers
  · dsimp only at hmem ⊢
    rw [getElem?_foldl_drop, hs.done p outcome (hdone ▸ hmem)]
    split <;> rfl
  · dsimp only at hresult ⊢
    rw [getElem?_foldl_drop] at hresult
    rw [hdone]
    split at hresult
    · -- the promise of a task that is left over
      rename_i hleft
      obtain ⟨job, hjob, hp⟩ := List.mem_filterMap.mp hleft
      obtain ⟨state, hstate, habandon⟩ := Option.map_eq_some_iff.mp hresult
      cases state with
      | some old =>
        cases habandon
        exact Or.inl (hs.exists_done hfree hstate)
      | none =>
        cases habandon
        cases job with
        | pushed id => cases hp
        | submitted promise outcome =>
          cases hp
          exact Or.inr ⟨ht, rfl, outcome, hjob⟩
    · exact Or.inl (hs.exists_done hfree hresult)
  · have hmem : p ∈ pool.tasks.filterMap Job.promise? := List.mem_filterMap.mpr ⟨_, hleft, rfl⟩
    have hempty : s.states[p]? = some none := hs.empty_of_tasks hfree (htasks ▸ hleft)
    dsimp only
    rw [getElem?_foldl_drop, if_pos hmem, hempty]
    rfl

/-- A step of the pool that is not a submission gives out no numbers. -/
theorem Coherent.numbers_step (hs : s.Coherent) (hsubmits : b.submits = false)
    (h : PoolThreads.step hardwareConcurrency s.pool b = some pool) :
    pool.submitted.filterMap Job.promise? = Multiset.range s.states.length := by
  have hnone : (↑b.task?.toList : Multiset (Job ε ρ)).filterMap Job.promise? = 0 := by
    cases b with
    | pushTask job =>
      cases job with
      | pushed id => rfl
      | submitted promise outcome => cases hsubmits
    | _ => rfl
  rw [PoolThreads.submitted_step h, Multiset.filterMap_add, hnone, add_zero, hs.numbers]

/-- **A pool that goes on keeps its promises.** -/
theorem Coherent.step_pool (hs : s.Coherent) (hfree : s.pool.manager ≠ .destroyed)
    (hsubmits : b.submits = false)
    (h : PoolThreads.step hardwareConcurrency s.pool b = some pool) :
    Coherent { s with pool, states := s.statesAfter b pool } := by
  have hproper := hs.proper.step h
  have hnumbers := hs.numbers_step hsubmits h
  have hdone := PoolThreads.done_step h
  rw [statesAfter]
  cases hreturning : s.pool.returning? b with
  | some job =>
    have hlives : pool.manager ≠ .destroyed := fun ht ↦ by
      rw [PoolThreads.eq_manager_of_destroyed h hfree ht] at hreturning
      cases hreturning
    rw [hreturning] at hdone
    cases job with
    | pushed id =>
      refine hs.quiet hfree hlives hproper hnumbers fun p outcome ↦ ?_
      simp [hdone]
    | submitted p called => exact hs.called hfree hlives hproper hnumbers hreturning hdone
  | none =>
    rw [hreturning, Option.toList_none, List.append_nil] at hdone
    dsimp only
    split
    · rename_i ht
      refine hs.destroyed hfree ht hproper hnumbers hdone ?_
      obtain rfl := PoolThreads.eq_manager_of_destroyed h hfree ht
      exact congrArg PoolAccount.tasks
        (PoolThreads.account_manager (PoolThreads.managerMove_of_step h))
    · rename_i hlives
      exact hs.quiet hfree hlives hproper hnumbers fun p outcome ↦ by rw [hdone]

end Pool

/-- A function that is submitted gets a promise of its own. -/
theorem step_afterSubmit (hardwareConcurrency : ℕ) (s : Futures ε ρ) (outcome : Except ε ρ) :
    PoolThreads.step hardwareConcurrency s.pool (.pushTask (.submitted s.states.length outcome)) =
      some (s.afterSubmit outcome).pool := rfl

theorem Coherent.submit (hs : s.Coherent) (outcome : Except ε ρ) :
    (s.afterSubmit outcome).Coherent := by
  have hstep := step_afterSubmit 0 s outcome
  refine ⟨hs.proper.step hstep, ?_, fun p called hmem ↦ ?_, fun p result hresult ↦ ?_,
    fun hdestroyed p called hleft ↦ ?_⟩
  · rw [PoolThreads.submitted_step hstep, Multiset.filterMap_add, hs.numbers, afterSubmit,
      List.length_append, List.length_singleton, Multiset.range_succ, add_comm]
    rfl
  · have hold := hs.done p called hmem
    rw [afterSubmit, List.getElem?_append_left (List.getElem?_eq_some_iff.mp hold).1]
    exact hold
  · refine hs.ready p result ?_
    rw [afterSubmit] at hresult
    rcases Nat.lt_or_ge p s.states.length with hlt | hge
    · rwa [List.getElem?_append_left hlt] at hresult
    · rw [List.getElem?_append_right hge] at hresult
      have hmem := List.mem_of_getElem? hresult
      simp at hmem
  · have hold := hs.broken hdestroyed p called hleft
    rw [afterSubmit, List.getElem?_append_left (List.getElem?_eq_some_iff.mp hold).1]
    exact hold

/-! ## The clients -/

/-- The promise `p` is that of a function that does `outcome`. -/
def Promised (s : Futures ε ρ) (p : ℕ) (outcome : Except ε ρ) : Prop :=
  .submitted p outcome ∈ s.pool.submitted

theorem promised_afterSubmit {outcome called : Except ε ρ} {p : ℕ} :
    (s.afterSubmit outcome).Promised p called ↔
      s.Promised p called ∨ p = s.states.length ∧ called = outcome := by
  rw [Promised, PoolThreads.submitted_step (step_afterSubmit 0 s outcome),
    Multiset.mem_add]
  refine or_congr_right ?_
  simp [PoolAction.task?]

/-- The pool was destroyed before one of the functions was called. -/
def Broken (s : Futures ε ρ) (calls : List (Except ε ρ)) : Prop :=
  s.pool.manager = .destroyed ∧ ∃ p, ∃ called ∈ calls, .submitted p called ∈ s.pool.tasks

/-- **What a future gives** is what the function did that was submitted, unless the pool was
destroyed with the function in its queue. -/
theorem Coherent.result_cases (hs : s.Coherent) {p : ℕ} {outcome : Except ε ρ}
    {result : Except (FutureError ε) ρ} (hp : s.Promised p outcome)
    (h : s.states[p]? = some (some result)) :
    result = outcome.mapError .thrown ∨
      s.pool.manager = .destroyed ∧ result = .error .brokenPromise ∧
        .submitted p outcome ∈ s.pool.tasks := by
  have hsubmitted := PoolThreads.submitted_eq hs.proper.balanced
  have heq {called : Except ε ρ} (hcalled : .submitted p called ∈ s.pool.submitted) :
      called = outcome :=
    (Job.submitted.inj (eq_of_nodup hs.nodup hcalled hp rfl rfl)).2
  rcases hs.ready p result h with ⟨called, hdone⟩ | ⟨hdestroyed, hresult, called, htask⟩
  · have hmem : .submitted p called ∈ s.pool.submitted := by
      rw [hsubmitted]
      exact Multiset.mem_add.mpr (Or.inl (Multiset.mem_coe.mpr hdone))
    obtain rfl := heq hmem
    have hstate := h.symm.trans (hs.done p called hdone)
    exact Or.inl (Option.some_inj.mp (Option.some_inj.mp hstate))
  · have hmem : .submitted p called ∈ s.pool.submitted := by
      rw [hsubmitted]
      simp only [Multiset.mem_add, Multiset.mem_coe]
      exact Or.inr (Or.inr (Or.inl htask))
    obtain rfl := heq hmem
    exact Or.inr ⟨hdestroyed, hresult, htask⟩

/-- What a client with the functions `calls` can say at each point. -/
def ClientLaw (s : Futures ε ρ) (calls : List (Except ε ρ)) : ClientPoint ε ρ → Prop
  | .submitting left futures =>
    ∃ before, calls = before ++ left ∧ List.Forall₂ s.Promised futures before
  | .pushing k left futures =>
    k < s.pool.pushers.length ∧
      ∃ before, calls = before ++ left ∧ List.Forall₂ s.Promised futures before
  | .getting futures results =>
    ∃ left, calls = results.map Except.ok ++ left ∧ List.Forall₂ s.Promised futures left
  | .ended outcome =>
    outcome = (calls.mapM id).mapError .thrown ∨
      outcome = .error .brokenPromise ∧ s.Broken calls

/-- What a client can say stays true. -/
theorem ClientLaw.mono {calls : List (Except ε ρ)} (h : s.ClientLaw calls point)
    (hpromised : ∀ p outcome, s.Promised p outcome → t.Promised p outcome)
    (hpushers : s.pool.pushers.length ≤ t.pool.pushers.length)
    (hdestroyed : s.pool.manager = .destroyed → t.pool = s.pool) : t.ClientLaw calls point := by
  cases point with
  | submitting left futures =>
    obtain ⟨before, hcalls, hfutures⟩ := h
    exact ⟨before, hcalls, hfutures.imp hpromised⟩
  | pushing k left futures =>
    obtain ⟨hk, before, hcalls, hfutures⟩ := h
    exact ⟨hk.trans_le hpushers, before, hcalls, hfutures.imp hpromised⟩
  | getting futures results =>
    obtain ⟨left, hcalls, hfutures⟩ := h
    exact ⟨left, hcalls, hfutures.imp hpromised⟩
  | ended outcome =>
    refine h.imp_right fun hbroken ↦ ⟨hbroken.1, ?_⟩
    rw [Broken, hdestroyed hbroken.2.1]
    exact hbroken.2

/-- A client that submits nothing gets on as it should. -/
theorem ClientLaw.advance {calls : List (Except ε ρ)} (hs : s.Coherent)
    (h : s.ClientLaw calls point)
    (hadv : s.advanceClient hardwareConcurrency point = some (point', s))
    (hpoint : ∀ outcome left futures, point ≠ .submitting (outcome :: left) futures) :
    s.ClientLaw calls point' := by
  cases point with
  | submitting left futures =>
    cases left with
    | nil =>
      cases hadv
      obtain ⟨before, hcalls, hfutures⟩ := h
      exact ⟨before, by rw [hcalls, List.append_nil]; rfl, hfutures⟩
    | cons outcome left => exact absurd rfl (hpoint outcome left futures)
  | pushing k left futures =>
    obtain ⟨-, heq⟩ := Option.ite_none_right_eq_some.mp hadv
    cases heq
    exact h.2
  | getting futures results =>
    obtain ⟨left, hcalls, hfutures⟩ := h
    cases hfutures with
    | nil =>
      cases hadv
      refine Or.inl ?_
      rw [hcalls, List.append_nil, mapM_id_map_ok]
      rfl
    | cons hpromised hfutures =>
      rename_i p outcome futures left
      rw [advanceClient] at hadv
      split at hadv
      · rename_i value hstate
        cases hadv
        rcases hs.result_cases hpromised hstate with hresult | ⟨-, hresult, -⟩
        · cases outcome with
          | error e => cases hresult
          | ok v =>
            cases hresult
            exact ⟨left, by rw [hcalls]; simp, hfutures⟩
        · cases hresult
      · rename_i e hstate
        cases hadv
        rcases hs.result_cases hpromised hstate with hresult | ⟨hdestroyed, hresult, htask⟩
        · cases outcome with
          | ok v => cases hresult
          | error e =>
            cases hresult
            refine Or.inl ?_
            rw [hcalls, mapM_id_error]
            rfl
        · cases hresult
          refine Or.inr ⟨rfl, hdestroyed, p, outcome, ?_, htask⟩
          rw [hcalls]
          exact List.mem_append_right _ List.mem_cons_self
      · cases hadv
  | ended outcome => cases hadv

/-- All is in order with the promises and the clients. -/
structure Lawful (s : Futures ε ρ) : Prop where
  coherent : s.Coherent
  attended : s.pool.Attended
  clients : ∀ c ∈ s.clients, s.ClientLaw c.calls c.point

theorem Lawful.step (hs : s.Lawful) (h : step hardwareConcurrency s a = some t) : t.Lawful := by
  obtain ⟨hcoherent, hattended, hclients⟩ := hs
  cases a with
  | pool b =>
    obtain ⟨hfree, hsubmits, pool, hstep, rfl⟩ := step_pool_eq_some.mp h
    refine ⟨hcoherent.step_pool hfree hsubmits hstep, hattended.step hcoherent.proper hstep,
      fun c hmem ↦ (hclients c hmem).mono ?_ (PoolThreads.length_pushers_le hstep)
        fun hdestroyed ↦ absurd hdestroyed hfree⟩
    intro p outcome hp
    have hsubmitted := PoolThreads.submitted_step hstep
    rw [Promised, hsubmitted]
    exact Multiset.mem_add.mpr (Or.inl hp)
  | call calls =>
    cases h
    refine ⟨hcoherent.of_eq rfl rfl, hattended,
      fun c hmem ↦ ?_⟩
    rcases List.mem_append.mp hmem with hold | hnew
    · exact (hclients c hold).mono (fun _ _ hp ↦ hp) (Nat.le_refl _) fun _ ↦ rfl
    · rw [List.mem_singleton.mp hnew]
      exact ⟨[], rfl, .nil⟩
  | client i =>
    obtain ⟨c, point, r, hc, hadv, rfl⟩ := step_client_eq_some.mp h
    have hlaw := hclients c (List.mem_of_getElem? hc)
    rcases advanceClient_cases hadv with ⟨rfl, hpoint⟩ |
      ⟨hfree, outcome, left, futures, hpoint, rfl, rfl⟩
    · refine ⟨hcoherent.of_eq rfl rfl, hattended,
        fun d hmem ↦ ?_⟩
      refine ClientLaw.mono (s := r) ?_ (fun _ _ hp ↦ hp) (Nat.le_refl _) fun _ ↦ rfl
      rcases List.mem_or_eq_of_mem_set hmem with hold | rfl
      · exact hclients d hold
      · exact hlaw.advance hcoherent hadv hpoint
    · have hnew := hcoherent.submit outcome
      refine ⟨hnew.of_eq rfl rfl, hattended.step hcoherent.proper (step_afterSubmit 0 s outcome),
        fun d hmem ↦ ?_⟩
      refine ClientLaw.mono (s := s.afterSubmit outcome) ?_ (fun _ _ hp ↦ hp) (Nat.le_refl _)
        fun _ ↦ rfl
      have hold (p : ℕ) (called : Except ε ρ) (hp : s.Promised p called) :
          (s.afterSubmit outcome).Promised p called := promised_afterSubmit.mpr (Or.inl hp)
      rcases List.mem_or_eq_of_mem_set hmem with hmem | rfl
      · exact (hclients d hmem).mono hold
          (PoolThreads.length_pushers_le (step_afterSubmit 0 s outcome))
          fun hdestroyed ↦ absurd hdestroyed hfree
      · rw [hpoint] at hlaw
        obtain ⟨before, hcalls, hfutures⟩ := hlaw
        refine ⟨by simp [afterSubmit], before ++ [outcome], by simp [hcalls], ?_⟩
        exact List.rel_append (hfutures.imp hold)
          (.cons (promised_afterSubmit.mpr (Or.inr ⟨rfl, rfl⟩)) .nil)

theorem lawful_of_run
    (h : run (step hardwareConcurrency) (construct hardwareConcurrency threadCount) sched =
      some s) : s.Lawful := by
  refine run_invariant (fun _ _ _ hstep hs ↦ Lawful.step hs hstep) h
    ⟨⟨PoolThreads.proper_construct _ _, rfl, ?_, ?_, ?_⟩, ?_, ?_⟩
  · exact fun p outcome hmem ↦ by cases hmem
  · exact fun p result hresult ↦ by cases hresult
  · exact fun hdestroyed ↦ by cases hdestroyed
  · exact fun hrunning ↦ absurd hrunning Bool.false_ne_true
  · exact fun c hmem ↦ by cases hmem

/-- **`multi_future::get` gives what the functions did**, in the order in which they were submitted:
all that they returned, or what the first of them threw.  Only the destruction of the pool may come
in between. -/
theorem get_eq_mapM {calls : List (Except ε ρ)} {outcome : Except (FutureError ε) (List ρ)}
    (h : run (step hardwareConcurrency) (construct hardwareConcurrency threadCount) sched = some s)
    (hclient : ⟨calls, .ended outcome⟩ ∈ s.clients) :
    outcome = (calls.mapM id).mapError .thrown ∨
      outcome = .error .brokenPromise ∧ s.Broken calls :=
  (lawful_of_run h).clients _ hclient

/-- Two threads, two functions, and the second function is the first to return. -/
def overtaking (calls : List (Except ε ρ)) : List (FuturesAction ε ρ) :=
  List.flatten [
    List.replicate 4 (.pool .manager), [.call calls],
    [.client 0], List.replicate 4 (.pool (.pusher 0 0)), [.client 0],
    [.client 0], List.replicate 4 (.pool (.pusher 1 0)), [.client 0],
    [.client 0], List.replicate 6 (.pool (.worker 0)), List.replicate 7 (.pool (.worker 1)),
    [.pool (.worker 0)]]

/-- Where that ends, with the client at `point`. -/
def overtaken (first second : Except ε ρ) (point : ClientPoint ε ρ) : Futures ε ρ where
  pool := {
    threadCount := 2
    tasksTotal := 2
    running := true
    workers := [.relocking, .relocking]
    pushers := [.returned, .returned]
    manager := .idle
    pushed := [.submitted 0 first, .submitted 1 second]
    taken := [.submitted 0 first, .submitted 1 second]
    done := [.submitted 1 second, .submitted 0 first] }
  states := [some (first.mapError .thrown), some (second.mapError .thrown)]
  clients := [⟨[first, second], point⟩]

theorem get_eq_mapM_overtaking :
    (.error (.thrown 7) : Except (FutureError ℕ) (List ℕ)) =
        ([Except.error 7, Except.ok 1].mapM id).mapError .thrown ∨
      (.error (.thrown 7) : Except (FutureError ℕ) (List ℕ)) = .error .brokenPromise ∧
        (overtaken (.error 7) (.ok 1) (.ended (.error (.thrown 7)))).Broken [.error 7, .ok 1] :=
  get_eq_mapM
    (show run (step 2) (construct 2 0) (overtaking [.error 7, .ok 1] ++ [.client 0]) =
      some (overtaken (.error 7) (.ok 1) (.ended (.error (.thrown 7)))) from rfl)
    (List.mem_singleton_self _)

/-! ## Loops -/

section Loops

universe w

variable {φ : Type w} {β : Type v}

/-- What the blocks of a loop do.  `std::forward` hands the loop to the first block, and what it
leaves behind to the next: the loop itself, if it was passed as an lvalue. -/
def outcomes (forwarded : φ → φ) (invoke : φ → ℤ → ℤ → Except ε ρ) :
    φ → List (ℤ × ℤ) → List (Except ε ρ)
  | _, [] => []
  | loop, block :: blocks =>
    invoke loop block.1 block.2 :: outcomes forwarded invoke (forwarded loop) blocks

/-- `parallelize_loop`: what the functions do that it submits, in this order. -/
def parallelizeLoop (forwarded : φ → φ) (invoke : φ → ℤ → ℤ → Except ε ρ) (loop : φ)
    (c : LoopCall) : Option (List (Except ε ρ)) :=
  c.pushLoop.map (outcomes forwarded invoke loop)

theorem outcomes_id (invoke : φ → ℤ → ℤ → Except ε ρ) (loop : φ) (blocks : List (ℤ × ℤ)) :
    outcomes id invoke loop blocks = blocks.map fun block ↦ invoke loop block.1 block.2 := by
  induction blocks with
  | nil => rfl
  | cons block blocks ih =>
    rw [List.map_cons, ← ih]
    rfl

/-- **A loop in the pool does what the plain loop does.**  If every block collects what its turns
return, until one of them throws, then the blocks together have what the turns of the whole range
return; or the exception is the one that the plain loop would have ended with, whichever block was
the first to throw. -/
theorem get_eq_loop {call : LoopCall} {calls : List (Except ε (List β))}
    {invoke : φ → ℤ → ℤ → Except ε (List β)} {loop : φ} {turn : ℤ → Except ε β}
    {outcome : Except (FutureError ε) (List (List β))} {s : Futures ε (List β)}
    {sched : List (FuturesAction ε (List β))}
    (h : run (step hardwareConcurrency) (construct hardwareConcurrency threadCount) sched = some s)
    (hcalls : parallelizeLoop id invoke loop call = some calls)
    (hinvoke : ∀ first last, invoke loop first last = (Int.range first last).mapM turn)
    (hclient : ⟨calls, .ended outcome⟩ ∈ s.clients) (hlives : s.pool.manager ≠ .destroyed) :
    outcome.map List.flatten = (call.indices.mapM turn).mapError .thrown := by
  obtain ⟨blocks, hblocks, rfl⟩ := Option.map_eq_some_iff.mp hcalls
  have houtcome := (get_eq_mapM h hclient).resolve_right fun hbroken ↦ hlives hbroken.2.1
  have hparts : (outcomes id invoke loop blocks).mapM id =
      blocks.mapM fun block ↦ (Int.range block.1 block.2).mapM turn := by
    rw [outcomes_id, List.mapM_map]
    simp only [hinvoke, Function.comp_def, id_eq]
  rw [houtcome, hparts, ← LoopCall.flatMap_pushLoop hblocks, mapM_flatMap]
  cases blocks.mapM fun block ↦ (Int.range block.1 block.2).mapM turn <;> rfl

theorem get_eq_loop_overtaking :
    (.ok [[0], [10, 20]] : Except (FutureError ℕ) (List (List ℤ))).map List.flatten =
      ((⟨2, .int, .int, 0, 3, 0⟩ : LoopCall).indices.mapM fun i ↦
        (.ok (10 * i) : Except ℕ ℤ)).mapError .thrown :=
  get_eq_loop
    (show run (step 2) (construct 2 0)
        (overtaking [.ok [0], .ok [10, 20]] ++ List.replicate 3 (.client 0)) =
      some (overtaken (.ok [0]) (.ok [10, 20]) (.ended (.ok [[0], [10, 20]]))) from rfl)
    (show parallelizeLoop id (fun _ first last ↦ (Int.range first last).mapM fun i ↦
      (.ok (10 * i) : Except ℕ ℤ)) () ⟨2, .int, .int, 0, 3, 0⟩ = _ from rfl)
    (fun _ _ ↦ rfl) (List.mem_singleton_self _) (by decide)

end Loops

/-! ## Every future becomes ready -/

/-- How many steps a client can still cause. -/
def clientRank : ClientPoint ε ρ → ℕ
  -- with the steps that each push causes
  | .submitting calls futures => 28 * calls.length + futures.length + 3
  | .pushing _ calls futures => 28 * calls.length + futures.length + 4
  | .getting futures _ => futures.length + 1
  | .ended _ => 0

/-- How many steps can still be made, at most, if nothing new is begun. -/
def measure (s : Futures ε ρ) : ℕ :=
  s.pool.measure + (s.clients.map fun c ↦ clientRank c.point).sum

/-- A thread goes on. -/
def GoesOn : FuturesAction ε ρ → Prop
  | .pool a => PoolThreads.Works a
  | .client _ => True
  | .call _ => False

/-- The pool is not paused, nor is it reset or destroyed. -/
structure Calm (s : Futures ε ρ) : Prop where
  calm : s.pool.Calm
  up : s.pool.manager.up = true
  next : s.pool.manager.next? = none

theorem Calm.lives (hs : s.Calm) : s.pool.manager ≠ .destroyed := by
  intro hdestroyed
  have hup := hs.up
  rw [hdestroyed] at hup
  cases hup

theorem submits_of_works {b : PoolAction (Job ε ρ)} (h : PoolThreads.Works b) :
    b.submits = false := by
  cases b <;> first | rfl | exact h.elim

/-- A client that submits nothing has a step less to make. -/
theorem clientRank_lt (hadv : s.advanceClient hardwareConcurrency point = some (point', s))
    (hpoint : ∀ outcome left futures, point ≠ .submitting (outcome :: left) futures) :
    clientRank point' < clientRank point := by
  cases point with
  | submitting left futures =>
    cases left with
    | nil =>
      cases hadv
      simp only [clientRank, List.length_nil]
      omega
    | cons outcome left => exact absurd rfl (hpoint outcome left futures)
  | pushing k left futures =>
    obtain ⟨-, heq⟩ := Option.ite_none_right_eq_some.mp hadv
    cases heq
    simp only [clientRank]
    omega
  | getting futures results =>
    cases futures with
    | nil =>
      cases hadv
      exact Nat.one_pos
    | cons promise futures =>
      rw [advanceClient] at hadv
      split at hadv <;> cases hadv <;> simp only [clientRank, List.length_cons] <;> omega
  | ended outcome => cases hadv

theorem Calm.step (hs : s.Calm) (ha : GoesOn a) (h : step hardwareConcurrency s a = some t) :
    t.Calm ∧ t.measure < s.measure := by
  cases a with
  | pool b =>
    obtain ⟨-, -, pool, hstep, rfl⟩ := step_pool_eq_some.mp h
    obtain ⟨hcalm, hlt⟩ := hs.calm.step ha hstep
    obtain ⟨hup, hnext⟩ := PoolThreads.up_of_step ha hs.up hs.next hstep
    refine ⟨⟨hcalm, hup, hnext⟩, ?_⟩
    simp only [measure]
    omega
  | call calls => exact ha.elim
  | client i =>
    obtain ⟨c, point, r, hc, hadv, rfl⟩ := step_client_eq_some.mp h
    have hsum := ListSet.sum_map_set hc { c with point } fun c ↦ clientRank c.point
    dsimp only at hsum
    rcases advanceClient_cases hadv with ⟨rfl, hpoint⟩ |
      ⟨-, outcome, left, futures, hpoint, rfl, rfl⟩
    · have hlt := clientRank_lt hadv hpoint
      refine ⟨⟨hs.calm, hs.up, hs.next⟩, ?_⟩
      simp only [measure]
      omega
    · have hstep := step_afterSubmit 0 s outcome
      have hpool : (s.afterSubmit outcome).pool.measure = s.pool.measure + 25 := by
        simp only [afterSubmit, PoolThreads.measure, List.map_append, List.sum_append,
          List.map_cons, List.map_nil, List.sum_cons, List.sum_nil, PoolThreads.pusherRank]
        omega
      refine ⟨⟨⟨hs.calm.proper.step hstep, hs.calm.attended.step hs.calm.proper hstep,
        hs.calm.unpaused, hs.calm.resets⟩, hs.up, hs.next⟩, ?_⟩
      have hbefore : clientRank c.point = 28 * (left.length + 1) + futures.length + 3 := by
        rw [hpoint]
        rfl
      have hafter : clientRank (.pushing s.pool.pushers.length left
          (futures ++ [s.states.length]) : ClientPoint ε ρ) =
          28 * left.length + (futures.length + 1) + 4 := by
        rw [clientRank, List.length_append, List.length_singleton]
      rw [hbefore, hafter] at hsum
      have hclients : (s.afterSubmit outcome).clients = s.clients := rfl
      simp only [measure, hpool, hclients]
      omega

/-- **A client that cannot go on is through**, if the pool is at rest. -/
theorem Lawful.ended_of_stuck (hs : s.Lawful) (hcalm : s.Calm)
    (hstuck : Stuck (Futures.step hardwareConcurrency) GoesOn s) (hc : c ∈ s.clients) :
    c.point = .ended ((c.calls.mapM id).mapError .thrown) := by
  obtain ⟨i, hi⟩ := List.mem_iff_getElem?.mp hc
  have hpool : Stuck (PoolThreads.step hardwareConcurrency) PoolThreads.Works s.pool := by
    intro b hb
    have hnone := hstuck (.pool b) hb
    simpa [Futures.step, hcalm.lives, submits_of_works hb] using hnone
  have hclient : s.advanceClient hardwareConcurrency c.point = none := by
    have hnone := hstuck (.client i) trivial
    simpa [Futures.step, hi] using hnone
  obtain ⟨-, hpushers, -⟩ := PoolThreads.cases_of_stuck hcalm.calm.proper hpool
  obtain ⟨-, -, hdone⟩ := PoolThreads.done_of_stuck hcalm.calm hpool hcalm.up
  have hlaw := hs.clients c hc
  cases hpoint : c.point with
  | submitting left futures =>
    rw [hpoint] at hclient
    cases left with
    | nil => cases hclient
    | cons outcome left =>
      rw [advanceClient, if_neg hcalm.lives] at hclient
      cases hclient
  | pushing k left futures =>
    rw [hpoint] at hclient hlaw
    have hreturned : (s.pool.pushers[k]?).any PusherPoint.isReturned = true := by
      rw [List.getElem?_eq_getElem hlaw.1, hpushers _ (List.getElem_mem hlaw.1)]
      rfl
    rw [advanceClient, if_pos hreturned] at hclient
    cases hclient
  | getting futures results =>
    rw [hpoint] at hclient hlaw
    obtain ⟨left, -, hfutures⟩ := hlaw
    cases hfutures with
    | nil => cases hclient
    | cons hpromised hfutures =>
      rename_i p outcome futures left
      have hmem : .submitted p outcome ∈ s.pool.done := by
        rw [Promised, ← hdone] at hpromised
        exact Multiset.mem_coe.mp hpromised
      have hstate := hs.coherent.done p outcome hmem
      cases outcome <;>
      · rw [advanceClient, hstate] at hclient
        cases hclient
  | ended outcome =>
    rw [hpoint] at hlaw
    rw [hlaw.resolve_right fun hbroken ↦ hcalm.lives hbroken.2.1]

/-- **Every client of an unpaused pool gets its results.**  If nothing new is begun, then no more
than `measure` steps are made; and where they end, every client has got what its functions did. -/
theorem gets_return
    (h : run (step hardwareConcurrency) (construct hardwareConcurrency threadCount) sched = some s)
    (hpaused : s.pool.paused = false) (hup : s.pool.manager.up = true)
    (hnext : s.pool.manager.next? = none) (hrest : ∀ a ∈ rest, GoesOn a)
    (hrun : run (step hardwareConcurrency) s rest = some t) :
    rest.length ≤ s.measure ∧ (Stuck (step hardwareConcurrency) GoesOn t →
      ∀ c ∈ t.clients, c.point = .ended ((c.calls.mapM id).mapError .thrown)) := by
  have hlawful := lawful_of_run h
  have hcalm : s.Calm := ⟨⟨hlawful.coherent.proper, hlawful.attended, hpaused,
    PoolThreads.resets_of_next?_eq_none hup hnext⟩, hup, hnext⟩
  obtain ⟨hcalm', hle⟩ := length_add_le_of_run (fun _ _ _ hs ha hstep ↦ Calm.step hs ha hstep) hrun
    hrest hcalm
  have hlawful' := lawful_of_run (run_append_eq_some.mpr ⟨s, h, hrun⟩)
  exact ⟨(Nat.le_add_right _ _).trans hle, fun hstuck c hc ↦
    hlawful'.ended_of_stuck hcalm' hstuck hc⟩

theorem gets_return_overtaking :
    (List.replicate 3 (.client 0 : FuturesAction ℕ ℕ)).length ≤
        (overtaken (.ok 1) (.ok 2) (.getting [0, 1] []) : Futures ℕ ℕ).measure ∧
      (Stuck (step 2) GoesOn (overtaken (.ok 1) (.ok 2) (.ended (.ok [1, 2])) : Futures ℕ ℕ) →
        ∀ c ∈ (overtaken (.ok 1) (.ok 2) (.ended (.ok [1, 2])) : Futures ℕ ℕ).clients,
          c.point = .ended ((c.calls.mapM id).mapError .thrown)) :=
  gets_return
    (show run (step 2) (construct 2 0) (overtaking [.ok 1, .ok 2]) =
      some (overtaken (.ok 1) (.ok 2) (.getting [0, 1] [])) from rfl)
    rfl rfl rfl (fun a ha ↦ by rw [List.eq_of_mem_replicate ha]; trivial) rfl

/-! ## The end of the pool -/

/-- **No future outlives the pool unready.**  When the pool has been destroyed, and no push was
under way, every promise was kept or is broken; and it is broken if its task is left over. -/
theorem ready_of_destroyed
    (h : run (step hardwareConcurrency) (construct hardwareConcurrency threadCount) sched = some s)
    (hdestroyed : s.pool.manager = .destroyed)
    (hpushers : ∀ place ∈ s.pool.pushers, place = .returned) {p : ℕ} (hp : p < s.states.length) :
    ∃ outcome,
      .submitted p outcome ∈ s.pool.done ∧
        s.states[p]? = some (some (outcome.mapError .thrown)) ∨
      .submitted p outcome ∈ s.pool.tasks ∧
        s.states[p]? = some (some (.error .brokenPromise)) := by
  have hs := (lawful_of_run h).coherent
  rw [← Multiset.mem_range, ← hs.numbers] at hp
  obtain ⟨job, hmem, hjob⟩ := (Multiset.mem_filterMap _ _).mp hp
  have hnobody : s.pool.workers = [] := by
    have hlength := hs.proper.manned.length
    rw [hdestroyed] at hlength
    exact List.eq_nil_of_length_eq_zero hlength
  have hnone : s.pool.pushers.filterMap PusherPoint.task? = [] :=
    List.filterMap_eq_nil_iff.mpr fun place hplace ↦ by rw [hpushers place hplace]; rfl
  rw [PoolThreads.submitted_eq hs.proper.balanced, hnobody, hnone, List.filterMap_nil] at hmem
  cases job with
  | pushed id => cases hjob
  | submitted promise outcome =>
    cases hjob
    refine ⟨outcome, ?_⟩
    rcases Multiset.mem_add.mp hmem with hdone | hrest
    · exact Or.inl ⟨Multiset.mem_coe.mp hdone, hs.done _ _ (Multiset.mem_coe.mp hdone)⟩
    · have hleft : .submitted p outcome ∈ s.pool.tasks := by simpa using hrest
      exact Or.inr ⟨hleft, hs.broken hdestroyed _ _ hleft⟩

/-- A pool that is paused, and destroyed with a task in its queue. -/
theorem ready_of_destroyed_paused :
    ∃ outcome : Except ℕ ℕ,
      .submitted 0 outcome ∈ ([] : List (Job ℕ ℕ)) ∧
        ([some (.error .brokenPromise)] : List (SharedState ℕ ℕ))[0]? =
          some (some (outcome.mapError .thrown)) ∨
      .submitted 0 outcome ∈ [Job.submitted 0 (.ok 5 : Except ℕ ℕ)] ∧
        ([some (.error .brokenPromise)] : List (SharedState ℕ ℕ))[0]? =
          some (some (.error .brokenPromise)) :=
  ready_of_destroyed
    (show run (step 1) (construct 1 0)
        (List.replicate 3 (.pool .manager) ++ [.pool (.setPaused true), .call [.ok 5], .client 0] ++
          List.replicate 4 (.pool (.pusher 0 0)) ++ [.pool (.call .destruct)] ++
          List.replicate 7 (.pool .manager) ++ [.pool (.worker 0), .pool .manager]) =
      some {
        pool := {
          threadCount := 1
          tasks := [.submitted 0 (.ok 5)]
          tasksTotal := 1
          paused := true
          manager := .destroyed
          pushers := [.returned]
          pushed := [.submitted 0 (.ok 5)] }
        states := [some (.error .brokenPromise)]
        clients := [⟨[.ok 5], .pushing 0 [] [0]⟩] } from rfl)
    rfl (by decide) (by decide)

end Futures

end Ekg
