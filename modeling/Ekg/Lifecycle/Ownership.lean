import Mathlib.Logic.Function.Basic
import Ekg.Lib.SharedPtr
import Ekg.Lifecycle.Stop
import Ekg.Node.NodeController

/-!
# Who owns the services

`setup` registers the subscriber, the publisher and the EPICS service manager, each in the static
slot of its `ServiceResolver`.  The controllers and the workers take copies of the pointers.  At the
end `setup` destroys the controllers, and calls `resolve().reset()` for each of the services.

`resolve` returns a copy, and `reset` drops that copy and nothing else.  So whatever the commands
have done in between, each service has its slot as an owner when `setup` is through, and no other
(`owners_of_run`): the Kafka consumer is not closed by then, and the scheduler not joined.

What the thread of `setup` does to the pointers is a list of operations (`SetupStep.ops`), statement
by statement.  The thread that consumes the commands and the pool run in between.
-/

set_option autoImplicit false

namespace Ekg

open Steps

/-- The services, as far as they are looked at here. -/
inductive Service
  | subscriber | publisher | epicsServiceManager
  deriving DecidableEq, Repr

/-- Who may own a shared pointer to a service. -/
inductive ServiceOwner
  /-- `ServiceResolver::registered_instance`. -/
  | slot
  /-- The parameter of a function. -/
  | parameter
  /-- What `resolve` has returned. -/
  | temporary
  | cmdController | acquireCommandWorker | getCommandWorker
  deriving DecidableEq, Repr

/-- Who may own a shared pointer to a worker. -/
inductive WorkerOwner
  /-- `WorkerResolver::typed_instances`. -/
  | resolver
  | parameter
  /-- The variable `worker` of `submitCommand`, on the thread that consumes the commands. -/
  | consumer
  deriving DecidableEq, Repr

/-- What the thread of `setup` does to shared pointers, and what it waits for. -/
inductive PtrOp
  | copy (service : Service) (owner : ServiceOwner)
  | move (service : Service) (source target : ServiceOwner)
  | reset (service : Service) (owner : ServiceOwner)
  | copyWorker (worker : Worker) (owner : WorkerOwner)
  /-- The worker is destroyed, with its members, if this was the last pointer to it. -/
  | resetWorker (worker : Worker) (owner : WorkerOwner)
  /-- `CMDController::start`. -/
  | startConsumer
  /-- `CMDController::stop`. -/
  | joinConsumer
  /-- `cv.wait`. -/
  | awaitQuit
  | waitForTasks
  | setTerminated
  deriving DecidableEq, Repr

/-- `ServiceResolver::registerService`. -/
def registerService (service : Service) : List PtrOp :=
  [.copy service .parameter, .copy service .slot, .reset service .parameter]

/-- `WorkerResolver::registerService`. -/
def registerWorker (worker : Worker) : List PtrOp :=
  [.copyWorker worker .parameter, .copyWorker worker .resolver, .resetWorker worker .parameter]

/-- `ServiceResolver::resolve().reset()`. -/
def resolveReset (service : Service) : List PtrOp :=
  [.copy service .temporary, .reset service .temporary]

/-- What a statement of `setup` does to the pointers. -/
def SetupStep.ops : SetupStep → List PtrOp
  | .registerEpicsServiceManager => registerService .epicsServiceManager
  | .registerPublisher => registerService .publisher
  | .registerSubscriber => registerService .subscriber
  | .createNodeController =>
    -- the constructor of `AcquireCommandWorker`
    [.copy .epicsServiceManager .temporary, .move .epicsServiceManager .temporary .parameter,
      .copy .epicsServiceManager .acquireCommandWorker, .copy .publisher .temporary,
      .move .publisher .temporary .acquireCommandWorker,
      .reset .epicsServiceManager .parameter] ++ registerWorker .acquireCommandWorker ++
    -- the constructor of `GetCommandWorker`
    [.copy .epicsServiceManager .temporary, .move .epicsServiceManager .temporary .parameter,
      .copy .epicsServiceManager .getCommandWorker, .reset .epicsServiceManager .parameter] ++
    registerWorker .getCommandWorker
  | .createCmdController =>
    [.copy .subscriber .temporary, .move .subscriber .temporary .cmdController, .startConsumer]
  | .resetCmdController => [.joinConsumer, .reset .subscriber .cmdController]
  -- the member `epics_service_manager` of the controller is an object of its own
  | .resetNodeController =>
    [.waitForTasks, .resetWorker .acquireCommandWorker .resolver,
      .resetWorker .getCommandWorker .resolver]
  | .resetSubscriber => resolveReset .subscriber
  | .resetPublisher => resolveReset .publisher
  | .resetEpicsServiceManager => resolveReset .epicsServiceManager
  | .setTerminated => [.setTerminated]
  | .parse | .helpOption | .registerLogger | .resetLogger => []

/-- `EKGateway::setup`, without an exception. -/
def setupOps : List PtrOp :=
  SetupStep.startUp.flatMap SetupStep.ops ++ .awaitQuit ::
    SetupStep.tearDown.flatMap SetupStep.ops

/-- The owners of everything. -/
structure Owners where
  services : Service → SharedPtr ServiceOwner
  workers : Worker → SharedPtr WorkerOwner

namespace Owners

/-- Nothing is registered. -/
def nobody : Owners := ⟨fun _ ↦ .null, fun _ ↦ .null⟩

/-- The owners of one service change. -/
def withService (service : Service) (f : SharedPtr ServiceOwner → SharedPtr ServiceOwner)
    (o : Owners) : Owners :=
  { o with services := Function.update o.services service (f (o.services service)) }

/-- The owners of one worker change. -/
def withWorker (worker : Worker) (f : SharedPtr WorkerOwner → SharedPtr WorkerOwner)
    (o : Owners) : Owners :=
  { o with workers := Function.update o.workers worker (f (o.workers worker)) }

/-- The destructor of a worker gives back what its members hold. -/
def destroyWorker (o : Owners) : Worker → Owners
  | .acquireCommandWorker =>
    (o.withService .epicsServiceManager (.reset .acquireCommandWorker)).withService .publisher
      (.reset .acquireCommandWorker)
  | .getCommandWorker => o.withService .epicsServiceManager (.reset .getCommandWorker)

/-- What an operation does to the owners. -/
def exec (o : Owners) : PtrOp → Owners
  | .copy service owner => o.withService service (.copy owner)
  | .move service source target =>
    o.withService service fun p ↦ (p.reset source).copy target
  | .reset service owner => o.withService service (.reset owner)
  | .copyWorker worker owner => o.withWorker worker (.copy owner)
  | .resetWorker worker owner =>
    let o := o.withWorker worker (.reset owner)
    if (o.workers worker).expired then o.destroyWorker worker else o
  | _ => o

end Owners

/-- The thread that consumes the commands. -/
inductive Consumer
  | absent
  /-- Not in `submitCommand`. -/
  | waiting
  /-- In `submitCommand`, with the pointer to the worker of a command. -/
  | submitting (worker : Worker) (command : Command)
  | joined
  deriving DecidableEq, Repr

/-- A run of `setup`, with the threads that it starts. -/
structure SetupRun where
  owners : Owners
  consumer : Consumer
  /-- How many tasks the pool has. -/
  tasks : ℕ
  quit : Bool
  terminated : Bool
  /-- What `setup` has still to do. -/
  rest : List PtrOp

/-- Something happens during `setup`. -/
inductive RunStep
  /-- `setup` goes on. -/
  | setup
  /-- `submitCommand` asks for the worker of a command. -/
  | resolveWorker (command : Command)
  /-- `submitCommand` has passed the command to the worker. -/
  | submit
  /-- A task of the pool is through. -/
  | task
  /-- `stop` sets `quit`. -/
  | stop
  deriving DecidableEq, Repr

namespace SetupRun

/-- Before `setup`. -/
def start : SetupRun where
  owners := .nobody
  consumer := .absent
  tasks := 0
  quit := false
  terminated := false
  rest := setupOps

/-- `setup` does not have to wait. -/
def ready (s : SetupRun) : PtrOp → Bool
  | .awaitQuit => s.quit
  | .joinConsumer => s.consumer = .waiting
  | .waitForTasks => s.tasks = 0
  | _ => true

/-- The thread that consumes the commands, after an operation of `setup`. -/
def consumerAfter (s : SetupRun) : PtrOp → Consumer
  | .startConsumer => .waiting
  | .joinConsumer => .joined
  | _ => s.consumer

/-- One step. -/
def step (s : SetupRun) : RunStep → Option SetupRun
  | .setup =>
    match s.rest with
    | [] => none
    | op :: rest =>
      if s.ready op then
        some { s with
          owners := s.owners.exec op
          consumer := s.consumerAfter op
          terminated := s.terminated || decide (op = .setTerminated)
          rest }
      else none
  | .resolveWorker command =>
    if s.consumer = .waiting then
      match resolveWorker command.type with
      | none => some s
      | some worker =>
        if (s.owners.workers worker).expired then some s
        else some { s with
          owners := s.owners.withWorker worker (.copy .consumer)
          consumer := .submitting worker command }
    else none
  | .submit =>
    match s.consumer with
    | .submitting worker command => some { s with
        owners := s.owners.withWorker worker (.reset .consumer)
        consumer := .waiting
        tasks := s.tasks + (tasksOf command).length }
    | _ => none
  | .task => if 0 < s.tasks then some { s with tasks := s.tasks - 1 } else none
  | .stop => some { s with quit := true }

/-- No owner of a service is left. -/
def Released (s : SetupRun) : Prop := ∀ service, (s.owners.services service).useCount = 0

end SetupRun

/-! ## The order of the operations -/

/-- The operation is about a pointer to a worker. -/
def PtrOp.touchesWorker : PtrOp → Bool
  | .copyWorker _ _ => true
  | .resetWorker _ _ => true
  | _ => false

section Order

variable {done rest : List PtrOp} {op : PtrOp}

/-- The workers are made before the commands come in, and destroyed after no more come in. -/
theorem setupOps_order (h : setupOps = done ++ op :: rest) :
    (op = .startConsumer → .startConsumer ∉ done ∧ .joinConsumer ∉ done) ∧
      (op.touchesWorker = true → .startConsumer ∈ done → .joinConsumer ∈ done) := by
  have hall : ∀ k ∈ List.range setupOps.length, ∀ op ∈ setupOps[k]?,
      (op = .startConsumer → .startConsumer ∉ setupOps.take k ∧
        .joinConsumer ∉ setupOps.take k) ∧
        (op.touchesWorker = true → .startConsumer ∈ setupOps.take k →
          .joinConsumer ∈ setupOps.take k) := by
    decide
  have hk := hall done.length (by simp [h]) op (by simp [h])
  simpa [h] using hk

/-- The last operation of all. -/
theorem rest_eq_nil (h : setupOps = done ++ rest) (hdone : .setTerminated ∈ done) : rest = [] := by
  have hall : ∀ k ∈ List.range setupOps.length, .setTerminated ∉ setupOps.take k := by
    decide
  by_contra hrest
  have hlt : done.length < setupOps.length := by
    rw [h, List.length_append]
    exact Nat.lt_add_of_pos_right (List.length_pos_of_ne_nil hrest)
  have hk := hall done.length (List.mem_range.mpr hlt)
  simp [h, hdone] at hk

end Order

namespace Owners

variable {o o' : Owners} {op : PtrOp}

/-- Other operations leave the workers alone, and do not look at them. -/
theorem exec_of_not_touchesWorker (hop : op.touchesWorker = false)
    (h : o.services = o'.services) :
    (o.exec op).workers = o.workers ∧ (o.exec op).services = (o'.exec op).services := by
  rcases op with _ | _ | _ | _ | _ | _ | _ | _ | _ | _
  case copyWorker | resetWorker => cases hop
  all_goals exact ⟨rfl, by simp [exec, withService, h]⟩

end Owners

/-- The owners after some operations, if no commands come in. -/
def ownersAfter (done : List PtrOp) : Owners := done.foldl Owners.exec .nobody

theorem ownersAfter_concat (done : List PtrOp) (op : PtrOp) :
    ownersAfter (done ++ [op]) = (ownersAfter done).exec op := by
  simp [ownersAfter]

/-- The commands may come in. -/
def Consumer.running : Consumer → Bool
  | .waiting => true
  | .submitting _ _ => true
  | _ => false

/-- The pointer to a worker that the thread holds. -/
def Consumer.holds (worker : Worker) : Consumer → List WorkerOwner
  | .submitting w _ => if w = worker then [.consumer] else []
  | _ => []

theorem Consumer.holds_of_not_running {consumer : Consumer} (h : consumer.running = false)
    (worker : Worker) : consumer.holds worker = [] := by
  rcases consumer with _ | _ | _ | _
  case submitting => cases h
  all_goals rfl

namespace SetupRun

variable {s t : SetupRun} {a : RunStep} {sched : List RunStep} {done : List PtrOp}

/-- After the operations `done`, the owners are those of a `setup` to which no commands come in, but
for a worker to which the thread that consumes them holds a pointer. -/
structure Follows (s : SetupRun) (done : List PtrOp) : Prop where
  ops : setupOps = done ++ s.rest
  services : s.owners.services = (ownersAfter done).services
  workers : ∀ worker, (s.owners.workers worker).owners =
    s.consumer.holds worker ++ ((ownersAfter done).workers worker).owners
  running : s.consumer.running = true → .startConsumer ∈ done ∧ .joinConsumer ∉ done
  terminated : s.terminated = true → .setTerminated ∈ done

theorem follows_start : Follows start [] :=
  ⟨rfl, rfl, fun _ ↦ rfl, nofun, nofun⟩

/-- While no thread holds a pointer to a worker, the owners are those of the operations alone. -/
theorem Follows.owners_eq (hs : s.Follows done) (hconsumer : s.consumer.running = false) :
    s.owners = ownersAfter done := by
  have hworkers : s.owners.workers = (ownersAfter done).workers := by
    funext worker
    have hw := hs.workers worker
    rw [Consumer.holds_of_not_running hconsumer, List.nil_append] at hw
    exact congrArg SharedPtr.mk hw
  rcases hs' : s.owners with ⟨services, workers⟩
  have hservices := hs.services
  rw [hs'] at hservices hworkers
  subst hservices hworkers
  rfl

/-- Which operations are about the thread that consumes the commands. -/
theorem consumerAfter_cases (s : SetupRun) (op : PtrOp) :
    op = .startConsumer ∨ op = .joinConsumer ∨
      (op ≠ .startConsumer ∧ op ≠ .joinConsumer ∧ s.consumerAfter op = s.consumer) := by
  rcases op with _ | _ | _ | _ | _ | _ | _ | _ | _ | _ <;> simp [consumerAfter]

theorem Follows.setup {op : PtrOp} {rest : List PtrOp} (hs : s.Follows done)
    (hrest : s.rest = op :: rest) (hready : s.ready op = true) :
    Follows { s with
      owners := s.owners.exec op
      consumer := s.consumerAfter op
      terminated := s.terminated || decide (op = .setTerminated)
      rest } (done ++ [op]) := by
  have hops := hs.ops
  rw [hrest] at hops
  obtain ⟨hstart, htouches⟩ := setupOps_order hops
  have hidle : op.touchesWorker = true → s.consumer.running = false := by
    intro hop
    by_contra hrunning
    obtain ⟨hstarted, hjoined⟩ := hs.running (eq_true_of_ne_false hrunning)
    exact hjoined (htouches hop hstarted)
  -- what the thread holds is not affected
  have hholds : ∀ worker, (s.consumerAfter op).holds worker = s.consumer.holds worker := by
    intro worker
    rcases consumerAfter_cases s op with rfl | rfl | ⟨-, -, hsame⟩
    · have hrunning : s.consumer.running = false := by
        by_contra hrunning
        exact (hstart rfl).1 (hs.running (eq_true_of_ne_false hrunning)).1
      rw [Consumer.holds_of_not_running hrunning]
      rfl
    · have hwaiting : s.consumer = .waiting := of_decide_eq_true hready
      rw [hwaiting]
      rfl
    · rw [hsame]
  refine ⟨by simp [hops], ?_, fun worker ↦ ?_, fun hrunning ↦ ?_, ?_⟩
  · rw [ownersAfter_concat]
    by_cases hop : op.touchesWorker = true
    · rw [hs.owners_eq (hidle hop)]
    · exact (Owners.exec_of_not_touchesWorker (eq_false_of_ne_true hop) hs.services).2
  · rw [hholds, ownersAfter_concat]
    by_cases hop : op.touchesWorker = true
    · rw [hs.owners_eq (hidle hop), Consumer.holds_of_not_running (hidle hop), List.nil_append]
    · have hop' := eq_false_of_ne_true hop
      rw [(Owners.exec_of_not_touchesWorker hop' hs.services).1,
        (Owners.exec_of_not_touchesWorker hop' rfl).1]
      exact hs.workers worker
  · rcases consumerAfter_cases s op with rfl | rfl | ⟨-, hne, hsame⟩
    · exact ⟨by simp, by simp [(hstart rfl).2]⟩
    · cases hrunning
    · rw [hsame] at hrunning
      obtain ⟨hstarted, hjoined⟩ := hs.running hrunning
      exact ⟨List.mem_append_left _ hstarted, by simp [hjoined, Ne.symm hne]⟩
  · intro hterminated
    rcases Bool.or_eq_true_iff.mp hterminated with hbefore | hnow
    · exact List.mem_append_left _ (hs.terminated hbefore)
    · rw [of_decide_eq_true hnow]
      exact List.mem_append_right _ (List.mem_singleton_self _)

theorem Follows.of_step (hs : s.Follows done) (h : step s a = some t) :
    ∃ done', t.Follows done' := by
  rcases a with _ | command | _ | _ | _
  case setup =>
    rw [step] at h
    split at h
    · cases h
    · rename_i op rest hrest
      obtain ⟨hready, heq⟩ := Option.ite_none_right_eq_some.mp h
      cases heq
      exact ⟨done ++ [op], hs.setup hrest hready⟩
  case resolveWorker =>
    obtain ⟨hwaiting, heq⟩ := Option.ite_none_right_eq_some.mp h
    split at heq
    · cases heq
      exact ⟨done, hs⟩
    · rename_i worker _
      split at heq <;> cases heq
      · exact ⟨done, hs⟩
      refine ⟨done, hs.ops, hs.services, fun w ↦ ?_, fun _ ↦ hs.running (by rw [hwaiting]; rfl),
        hs.terminated⟩
      have hw := hs.workers w
      rw [hwaiting] at hw
      by_cases hww : worker = w
      · subst hww
        simpa [Owners.withWorker, SharedPtr.copy, Consumer.holds] using hw
      · simpa [Owners.withWorker, Function.update_of_ne (Ne.symm hww), Consumer.holds, hww] using hw
  case submit =>
    rw [step] at h
    split at h
    · rename_i worker command hsubmitting
      cases h
      refine ⟨done, hs.ops, hs.services, fun w ↦ ?_, fun _ ↦ hs.running (by rw [hsubmitting]; rfl),
        hs.terminated⟩
      have hw := hs.workers w
      rw [hsubmitting] at hw
      by_cases hww : worker = w
      · subst hww
        rw [Consumer.holds, if_pos rfl] at hw
        simp [Owners.withWorker, SharedPtr.reset, Consumer.holds, hw]
      · simpa [Owners.withWorker, Function.update_of_ne (Ne.symm hww), Consumer.holds, hww] using hw
    · cases h
  case task =>
    obtain ⟨-, heq⟩ := Option.ite_none_right_eq_some.mp h
    cases heq
    exact ⟨done, hs.ops, hs.services, hs.workers, hs.running, hs.terminated⟩
  case stop =>
    cases h
    exact ⟨done, hs.ops, hs.services, hs.workers, hs.running, hs.terminated⟩

/-- **When `setup` is through, every service has its slot as an owner, and no other.** -/
theorem owners_of_run (h : run step start sched = some s) (hterminated : s.terminated = true)
    (service : Service) : (s.owners.services service).owners = [.slot] := by
  obtain ⟨done, hdone⟩ : ∃ done, s.Follows done :=
    run_invariant (P := fun m ↦ ∃ done, m.Follows done)
      (fun _ _ _ hstep hm ↦ hm.choose_spec.of_step hstep) h ⟨[], follows_start⟩
  have hops := hdone.ops
  rw [rest_eq_nil hops (hdone.terminated hterminated), List.append_nil] at hops
  rw [hdone.services, ← hops]
  rcases service with _ | _ | _ <;> decide

/-- **The services are never released**: in every run of `setup` that comes to its end, whatever the
commands, there is an owner left of each of them. -/
theorem not_released_of_run (h : run step start sched = some s)
    (hterminated : s.terminated = true) :
    ¬ s.Released ∧ ∀ service, (s.owners.services service).useCount = 1 := by
  have hcount : ∀ service, (s.owners.services service).useCount = 1 := fun service ↦ by
    rw [SharedPtr.useCount, owners_of_run h hterminated]
    rfl
  refine ⟨fun hreleased ↦ ?_, hcount⟩
  cases (hreleased .subscriber).symm.trans (hcount .subscriber)

/-- A command that activates a channel comes in before the stop, and its task runs. -/
theorem not_released_of_run_command :
    ∃ s, run step start (List.replicate 28 .setup ++
        [.resolveWorker (.monitor ⟨"pva", "channel:ramp:ramp", true, "acquire_comad_in"⟩), .submit,
          .stop, .task] ++ List.replicate 13 .setup) = some s ∧
      s.terminated = true ∧ ¬ s.Released ∧
      ∀ service, (s.owners.services service).useCount = 1 := by
  obtain ⟨s, h, hterminated⟩ : ∃ s, run step start (List.replicate 28 .setup ++
        [.resolveWorker (.monitor ⟨"pva", "channel:ramp:ramp", true, "acquire_comad_in"⟩), .submit,
          .stop, .task] ++ List.replicate 13 .setup) = some s ∧
      s.terminated = true := ⟨_, rfl, rfl⟩
  exact ⟨s, h, hterminated, not_released_of_run h hterminated⟩

/-- No command comes in between the start and the stop. -/
theorem not_released_stopped :
    ∃ s, run step start (.stop :: List.replicate 41 .setup) = some s ∧ s.terminated = true ∧
      ¬ s.Released :=
  ⟨_, rfl, rfl, fun h ↦ by cases h .subscriber⟩

end SetupRun

end Ekg
