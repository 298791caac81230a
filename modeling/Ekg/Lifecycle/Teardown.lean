import Ekg.Common.PoolInner
import Ekg.Node.NodeController

/-!
# The controllers are taken down

`setup` builds the node controller, with its pool and its workers, and then the command controller,
whose thread hands every batch of commands to the node controller.  At the end it destroys them the
other way round: it stops that thread and joins it; the destructor of the node controller waits for
the tasks of the pool; then the workers are destroyed, and the pool with its threads.

A task holds nothing but the address of its worker, and the thread of the command controller nothing
but that of the gateway.  So everything depends on this order, and on what `wait_for_tasks` makes
sure of.  Here are the three kinds of threads together: that of `setup`, that of the command
controller, and those of the pool, as in `PoolThreads`.

An exception in `setup` leaves the rest to the destructor of the gateway, which destroys its members
in the order opposite to that of their declaration: the node controller first.

The flag `run` of the command controller is not atomic; a write to it is seen at once here.
-/

set_option autoImplicit false

namespace Ekg

open Steps

/-! ## The threads -/

/-- What is done to the controllers. -/
inductive TeardownOp
  /-- The call of the pool that is under way returns. -/
  | awaitPool (manager : ManagerPoint)
  /-- What the constructor of `NodeController` does after it has constructed the pool. -/
  | createNode
  /-- The constructor of `CMDController`, which starts the thread. -/
  | createCmd
  /-- Anything else that `setup` does: the wait for `quit`, the messages to the logger. -/
  | statement
  /-- In `CMDController::stop`, `run = false`. -/
  | stopConsumer
  | joinConsumer
  /-- The destructor of `NodeController` begins. -/
  | destroyNode
  | callPool (call : PoolCall)
  /-- The member `worker_resolver` of the node controller is destroyed. -/
  | destroyWorkers
  deriving DecidableEq, Repr

namespace TeardownOp

/-- An exception may come out of this one; those of the destructors would end the process. -/
def mayThrow : TeardownOp → Bool
  | createNode | createCmd | statement => true
  | _ => false

/-- The members of the node controller are destroyed, the pool last. -/
def dismissNode : List TeardownOp :=
  [destroyWorkers, callPool .destruct, awaitPool .destroyed]

/-- `~NodeController`. -/
def dismantleNode : List TeardownOp :=
  [destroyNode, callPool .waitForTasks, awaitPool .idle] ++ dismissNode

/-- `~CMDController`. -/
def dismantleCmd : List TeardownOp := [stopConsumer, joinConsumer]

/-- `setup`, from the construction of the pool on. -/
def setup : List TeardownOp :=
  [awaitPool .idle, createNode, createCmd, statement] ++ dismantleCmd ++ [statement] ++
    dismantleNode

end TeardownOp

/-- Where the thread of the command controller is in `consume`.  Of the commands of its batch, those
`given` have been passed to their workers. -/
inductive DispatchPoint
  | absent
  /-- Before the condition of the loop. -/
  | testing
  /-- In `getMsg`. -/
  | fetching
  /-- In `NodeController::submitCommand`. -/
  | dispatching (given rest : List Command)
  /-- In `push_task`, as pusher `i` of the pool. -/
  | pushing (i : ℕ) (given rest : List Command)
  /-- Before `commit`. -/
  | committing (given : List Command)
  | sleeping
  /-- The thread is through. -/
  | exited
  | joined
  deriving DecidableEq, Repr

namespace DispatchPoint

/-- There is such a thread. -/
def active : DispatchPoint → Bool
  | absent | joined => false
  | _ => true

/-- The thread is in the handler of the commands. -/
def inHandler : DispatchPoint → Bool
  | dispatching _ _ | pushing _ _ _ => true
  | _ => false

/-- The commands of the batch that have been passed to their workers. -/
def given : DispatchPoint → List Command
  | dispatching given _ | pushing _ given _ | committing given => given
  | _ => []

/-- The thread is this pusher of the pool. -/
def pusher? : DispatchPoint → Option ℕ
  | pushing i _ _ => some i
  | _ => none

end DispatchPoint

/-- The gateway, as far as its controllers go. -/
structure Teardown where
  /-- What the thread of `setup`, or the destructor of the gateway, has still to do. -/
  rest : List TeardownOp
  /-- There is a node controller, and its destructor has not begun. -/
  node : Bool
  /-- There are workers. -/
  workers : Bool
  /-- `CMDController::run`. -/
  run : Bool
  consumer : DispatchPoint
  pool : PoolThreads AquireCommand
  /-- The commands of the batches whose offsets were committed. -/
  committed : List Command

/-- Something happens. -/
inductive TeardownStep
  | setup
  /-- The next statement of `setup` throws. -/
  | throw
  /-- `getMsg` returns: there were no messages, or there were some, from which these commands have
  been decoded. -/
  | fetch (received : Option (List Command))
  /-- The thread of the command controller goes on; it may have an exception to catch. -/
  | consumer (throws : Bool)
  /-- A thread of the pool goes on, or one that has called it. -/
  | pool (a : PoolAction AquireCommand)

/-- A thread goes on: nothing throws, and no wait ends without a notification. -/
def TeardownStep.Goes : TeardownStep → Prop
  | throw => False
  | pool a => PoolThreads.Works a
  | _ => True

def TeardownStep.isFetch : TeardownStep → Bool
  | fetch _ => true
  | _ => false

namespace Teardown

/-- The pool of the node controller is being constructed. -/
def start (hardwareConcurrency : ℕ) : Teardown where
  rest := TeardownOp.setup
  node := false
  workers := false
  run := false
  consumer := .absent
  pool := .construct hardwareConcurrency 0
  committed := []

/-- An operation, if it does not have to wait. -/
def exec (hardwareConcurrency : ℕ) (s : Teardown) : TeardownOp → Option Teardown
  | .awaitPool manager => if s.pool.manager = manager then some s else none
  | .createNode => some { s with node := true, workers := true }
  | .createCmd => some { s with run := true, consumer := .testing }
  | .statement => some s
  | .stopConsumer => some { s with run := false }
  | .joinConsumer => if s.consumer = .exited then some { s with consumer := .joined } else none
  | .destroyNode => some { s with node := false }
  | .callPool call => (s.pool.step hardwareConcurrency (.call call)).map fun pool ↦ { s with pool }
  | .destroyWorkers => some { s with workers := false }

/-- What is destroyed after an exception in `setup`. -/
def unwind (s : Teardown) : List TeardownOp :=
  if s.node then
    TeardownOp.dismantleNode ++ if s.consumer.active then TeardownOp.dismantleCmd else []
  else TeardownOp.dismissNode

/-- The next step of the thread of the command controller, if it does not have to wait. -/
def advanceConsumer (hardwareConcurrency : ℕ) (throws : Bool) (s : Teardown) : Option Teardown :=
  match s.consumer with
  | .testing => some { s with consumer := if s.run then .fetching else .exited }
  | .dispatching given [] => some { s with consumer := .committing given }
  | .dispatching given (command :: rest) =>
    if throws then some { s with consumer := .sleeping }
    else match tasksOf command with
      | [] => some { s with consumer := .dispatching (given ++ [command]) rest }
      | task :: _ => (s.pool.step hardwareConcurrency (.pushTask task)).map fun pool ↦
          { s with pool, consumer := .pushing s.pool.pushers.length (given ++ [command]) rest }
  | .pushing i given rest =>
    if s.pool.pushers[i]? = some .returned then some { s with consumer := .dispatching given rest }
    else none
  | .committing given =>
    some { s with
      consumer := .sleeping
      committed := if throws then s.committed else s.committed ++ given }
  | .sleeping => some { s with consumer := .testing }
  | _ => none

/-- The thread of the command controller after `getMsg`: without a command there is nothing to
handle. -/
def afterFetch : Option (List Command) → DispatchPoint
  | none => .sleeping
  | some [] => .committing []
  | some (command :: rest) => .dispatching [] (command :: rest)

/-- One step. -/
def step (hardwareConcurrency : ℕ) (s : Teardown) : TeardownStep → Option Teardown
  | .setup =>
    match s.rest with
    | [] => none
    | op :: rest => (s.exec hardwareConcurrency op).map fun s ↦ { s with rest }
  | .throw =>
    match s.rest with
    | [] => none
    | op :: _ => if op.mayThrow then some { s with rest := s.unwind } else none
  | .fetch received =>
    if s.consumer = .fetching then some { s with consumer := afterFetch received } else none
  | .consumer throws => s.advanceConsumer hardwareConcurrency throws
  | .pool a =>
    if a.inner then (s.pool.step hardwareConcurrency a).map fun pool ↦ { s with pool } else none

/-- Something is used that has been destroyed. -/
def UsesDestroyed (s : Teardown) : Prop :=
  (s.consumer.inHandler = true ∧ s.node = false) ∨
    (s.workers = false ∧ ∃ task, .executing task ∈ s.pool.workers)

/-- No statement of `setup` throws while there is a thread of the command controller. -/
def NoThrow (hardwareConcurrency : ℕ) (sched : List TeardownStep) : Prop :=
  ∀ done rest ρ, sched = done ++ .throw :: rest →
    Steps.run (step hardwareConcurrency) (start hardwareConcurrency) done = some ρ →
    ρ.consumer.active = false

end Teardown

/-! ## The phases -/

/-- How far the controllers are. -/
inductive TeardownPhase
  /-- The pool is being constructed. -/
  | creating
  | created
  /-- There is a node controller, and no command controller yet. -/
  | standing
  /-- There are both. -/
  | consuming
  /-- The thread of the command controller has been told to stop. -/
  | stopping
  /-- It has been joined. -/
  | alone
  /-- The destructor of the node controller has begun. -/
  | doomed
  | waiting
  /-- The tasks have been waited for. -/
  | drained
  /-- The workers have been destroyed. -/
  | bare
  | dismantling
  | gone
  deriving DecidableEq, Repr

namespace TeardownPhase

/-- The operations in their order. -/
inductive Next : TeardownPhase → TeardownOp → TeardownPhase → Prop
  | construct : Next creating (.awaitPool .idle) created
  | createNode : Next created .createNode standing
  | createCmd : Next standing .createCmd consuming
  | consume : Next consuming .statement consuming
  | stop : Next consuming .stopConsumer stopping
  | join : Next stopping .joinConsumer alone
  | goOn : Next alone .statement alone
  | destroyStanding : Next standing .destroyNode doomed
  | destroyAlone : Next alone .destroyNode doomed
  | wait : Next doomed (.callPool .waitForTasks) waiting
  | waited : Next waiting (.awaitPool .idle) drained
  | discard : Next created .destroyWorkers bare
  | destroyWorkers : Next drained .destroyWorkers bare
  | destruct : Next bare (.callPool .destruct) dismantling
  | destructed : Next dismantling (.awaitPool .destroyed) gone

/-- From this phase on, the operations come in their order. -/
inductive Admits : TeardownPhase → List TeardownOp → Prop
  | nil (phase : TeardownPhase) : Admits phase []
  | cons {phase phase' : TeardownPhase} {op : TeardownOp} {rest : List TeardownOp}
      (hnext : Next phase op phase') (hrest : Admits phase' rest) : Admits phase (op :: rest)

theorem admits_setup : creating.Admits TeardownOp.setup := by
  repeat constructor

theorem admits_dismissNode : created.Admits TeardownOp.dismissNode := by
  repeat constructor

theorem admits_dismantleNode_standing : standing.Admits TeardownOp.dismantleNode := by
  repeat constructor

theorem admits_dismantleNode_alone : alone.Admits TeardownOp.dismantleNode := by
  repeat constructor

/-- There is a thread of the command controller. -/
def consumes : TeardownPhase → Bool
  | consuming | stopping => true
  | _ => false

def hasNode : TeardownPhase → Bool
  | standing | consuming | stopping | alone => true
  | _ => false

theorem hasNode_of_consumes {phase : TeardownPhase} (h : phase.consumes = true) :
    phase.hasNode = true := by
  cases phase <;> first | rfl | cases h

def hasWorkers : TeardownPhase → Bool
  | standing | consuming | stopping | alone | doomed | waiting | drained => true
  | _ => false

/-- What is known of the pool in this phase. -/
def Fact : TeardownPhase → PoolThreads AquireCommand → Prop
  | creating, pool => pool.Creates ∧ pool.Finished
  | created, pool | standing, pool | drained, pool | bare, pool =>
    pool.manager = .idle ∧ pool.Finished
  | consuming, pool | stopping, pool | alone, pool | doomed, pool => pool.manager = .idle
  | waiting, pool => pool.WaitsOnly ∧ pool.WaitFact pool.manager
  | dismantling, pool => (pool.Destructs ∧ pool.WaitFact pool.manager) ∧ pool.Finished
  | gone, pool => pool.manager = .destroyed ∧ pool.Finished

end TeardownPhase

namespace Teardown

variable {hardwareConcurrency : ℕ} {s t ρ : Teardown} {a : TeardownStep}
  {sched : List TeardownStep} {phase phase' : TeardownPhase}

/-- A step of the thread of `setup`. -/
theorem setup_eq_some (h : step hardwareConcurrency s .setup = some t) :
    ∃ op rest r, s.rest = op :: rest ∧ exec hardwareConcurrency s op = some r ∧
      t = { r with rest } := by
  cases hrest : s.rest with
  | nil => simp [step, hrest] at h
  | cons op rest =>
    simp only [step, hrest] at h
    obtain ⟨r, hexec, rfl⟩ := Option.map_eq_some_iff.mp h
    exact ⟨op, rest, r, rfl, hexec, rfl⟩

/-- An exception. -/
theorem throw_eq_some (h : step hardwareConcurrency s .throw = some t) :
    ∃ op rest, s.rest = op :: rest ∧ op.mayThrow = true ∧ t = { s with rest := s.unwind } := by
  cases hrest : s.rest with
  | nil => simp [step, hrest] at h
  | cons op rest =>
    simp only [step, hrest] at h
    obtain ⟨hthrows, heq⟩ := Option.ite_none_right_eq_some.mp h
    exact ⟨op, rest, rfl, hthrows, (Option.some_inj.mp heq).symm⟩

/-- What is true of the gateway in a phase. -/
structure Inv (phase : TeardownPhase) (s : Teardown) : Prop where
  admits : phase.Admits s.rest
  calm : s.pool.Calm
  fact : phase.Fact s.pool
  active : s.consumer.active = phase.consumes
  node : s.node = phase.hasNode
  workers : s.workers = phase.hasWorkers
  stopping : phase = .stopping → s.run = false
  /-- Nobody but the thread of the command controller pushes. -/
  pushers : ∀ i < s.pool.pushers.length,
    s.pool.pushers[i]? = some .returned ∨ s.consumer.pusher? = some i
  pushing : ∀ i, s.consumer.pusher? = some i → i < s.pool.pushers.length
  /-- What was committed has been given to the pool. -/
  tasks : (↑((s.committed ++ s.consumer.given).flatMap tasksOf) : Multiset AquireCommand) ≤
    s.pool.submitted

theorem inv_start (hardwareConcurrency : ℕ) : Inv .creating (start hardwareConcurrency) where
  admits := TeardownPhase.admits_setup
  calm := ⟨PoolThreads.proper_construct _ _, fun hrunning ↦ absurd hrunning Bool.false_ne_true,
    rfl, rfl⟩
  fact := ⟨Or.inl rfl, rfl, rfl⟩
  active := rfl
  node := rfl
  workers := rfl
  stopping := nofun
  pushers := fun i hi ↦ absurd hi (Nat.not_lt_zero i)
  pushing := nofun
  tasks := le_rfl

/-- Without a thread of the command controller nobody pushes. -/
theorem Inv.returned (hs : Inv phase s) (hconsumes : phase.consumes = false) :
    ∀ place ∈ s.pool.pushers, place = .returned := by
  intro place hmem
  obtain ⟨i, hplace⟩ := List.mem_iff_getElem?.mp hmem
  rcases hs.pushers i (List.getElem?_eq_some_iff.mp hplace).1 with hreturned | hpusher
  · exact (Option.some_inj.mp (hreturned.symm.trans hplace)).symm
  · have hactive := hs.active.trans hconsumes
    cases hconsumer : s.consumer with
    | pushing =>
      rw [hconsumer] at hactive
      cases hactive
    | _ =>
      rw [hconsumer] at hpusher
      cases hpusher

/-- What the pool does for itself. -/
theorem Inv.pool {action : PoolAction AquireCommand} (hs : Inv phase s)
    (h : step hardwareConcurrency s (.pool action) = some t) : Inv phase t := by
  obtain ⟨hinner, heq⟩ := Option.ite_none_right_eq_some.mp h
  obtain ⟨pool, hstep, rfl⟩ := Option.map_eq_some_iff.mp heq
  obtain ⟨hlength, hkeeps⟩ := PoolThreads.pushers_inner hinner hstep
  have hcalm := hs.calm.inner hinner hstep
  have hidle (hfact : s.pool.manager = .idle) : pool.manager = .idle :=
    PoolThreads.idle_inner hinner hstep hfact
  have hfinished (hconsumes : phase.consumes = false) (hfact : s.pool.Finished) : pool.Finished :=
    hfact.inner hinner (hs.returned hconsumes) hstep
  refine ⟨hs.admits, hcalm, ?_, hs.active, hs.node, hs.workers, hs.stopping, fun i hi ↦ ?_,
    fun i hi ↦ ?_, ?_⟩
  · have hfact := hs.fact
    cases phase with
    | creating => exact ⟨hfact.1.inner hinner hstep, hfinished rfl hfact.2⟩
    | created | standing | drained | bare => exact ⟨hidle hfact.1, hfinished rfl hfact.2⟩
    | consuming | stopping | alone | doomed => exact hidle hfact
    | waiting =>
      have hwaiting : s.pool.Waiting := ⟨hs.calm, hs.returned rfl, hfact.2⟩
      exact ⟨hfact.1.inner hinner hstep, (hwaiting.inner hinner hstep).fact⟩
    | dismantling =>
      have hwaiting : s.pool.Waiting := ⟨hs.calm, hs.returned rfl, hfact.1.2⟩
      exact ⟨⟨hfact.1.1.inner hinner hstep, (hwaiting.inner hinner hstep).fact⟩,
        hfinished rfl hfact.2⟩
    | gone =>
      exact ⟨PoolThreads.destroyed_inner hinner hstep hfact.1, hfinished rfl hfact.2⟩
  · exact (hs.pushers i (hlength ▸ hi)).imp_left (hkeeps i)
  · exact (hs.pushing i hi).trans_eq hlength.symm
  · dsimp only
    rw [PoolThreads.submitted_inner hinner hstep]
    exact hs.tasks

theorem given_of_not_active {point : DispatchPoint} (h : point.active = false) :
    point.given = [] ∧ point.pusher? = none := by
  cases point <;> first | exact ⟨rfl, rfl⟩ | cases h

/-- A call of the manager, which is in none. -/
theorem call_eq_some {pool : PoolThreads AquireCommand} {call : PoolCall}
    (h : s.pool.step hardwareConcurrency (.call call) = some pool) :
    s.pool.manager = .idle ∧ pool = s.pool.beginCall call := by
  obtain ⟨hidle, heq⟩ := Option.ite_none_right_eq_some.mp h
  exact ⟨hidle, (Option.some_inj.mp heq).symm⟩

/-- **An operation leads to the next phase.** -/
theorem Inv.setup (hs : Inv phase s) (h : step hardwareConcurrency s .setup = some t) :
    ∃ phase', Inv phase' t := by
  obtain ⟨hadmits, hcalm, hfact, hactive, hnode, hworkers, hstopping, hpushers, hpushing,
    htasks⟩ := hs
  obtain ⟨op, rest, r, hrest, hexec, rfl⟩ := setup_eq_some h
  rw [hrest] at hadmits
  cases hadmits with
  | cons hnext hadmits =>
    cases hnext with
    | construct =>
      obtain ⟨hidle, heq⟩ := Option.ite_none_right_eq_some.mp hexec
      cases heq
      exact ⟨.created, hadmits, hcalm, ⟨hidle, hfact.2⟩, hactive, hnode, hworkers, nofun, hpushers,
        hpushing, htasks⟩
    | createNode =>
      cases hexec
      exact ⟨.standing, hadmits, hcalm, hfact, hactive, rfl, rfl, nofun, hpushers, hpushing,
        htasks⟩
    | createCmd =>
      cases hexec
      obtain ⟨hgiven, hpusher⟩ := given_of_not_active hactive
      rw [hgiven] at htasks
      rw [hpusher] at hpushers
      exact ⟨.consuming, hadmits, hcalm, hfact.1, rfl, hnode, hworkers, nofun,
        hpushers, nofun, htasks⟩
    | consume =>
      cases hexec
      exact ⟨.consuming, hadmits, hcalm, hfact, hactive, hnode, hworkers, nofun, hpushers,
        hpushing, htasks⟩
    | stop =>
      cases hexec
      exact ⟨.stopping, hadmits, hcalm, hfact, hactive, hnode, hworkers, fun _ ↦ rfl, hpushers,
        hpushing, htasks⟩
    | join =>
      obtain ⟨hexited, heq⟩ := Option.ite_none_right_eq_some.mp hexec
      cases heq
      rw [hexited] at hpushers htasks
      exact ⟨.alone, hadmits, hcalm, hfact, rfl, hnode, hworkers, nofun, hpushers, nofun, htasks⟩
    | goOn =>
      cases hexec
      exact ⟨.alone, hadmits, hcalm, hfact, hactive, hnode, hworkers, nofun, hpushers, hpushing,
        htasks⟩
    | destroyStanding =>
      cases hexec
      exact ⟨.doomed, hadmits, hcalm, hfact.1, hactive, rfl, hworkers, nofun, hpushers, hpushing,
        htasks⟩
    | destroyAlone =>
      cases hexec
      exact ⟨.doomed, hadmits, hcalm, hfact, hactive, rfl, hworkers, nofun, hpushers, hpushing,
        htasks⟩
    | wait =>
      obtain ⟨pool, hstep, rfl⟩ := Option.map_eq_some_iff.mp hexec
      have hproper := hcalm.proper.step hstep
      have hattended := hcalm.attended.step hcalm.proper hstep
      obtain ⟨hidle, rfl⟩ := call_eq_some hstep
      exact ⟨.waiting, hadmits, ⟨hproper, hattended, hcalm.unpaused, rfl⟩, ⟨⟨rfl, rfl⟩, trivial⟩,
        hactive, hnode, hworkers, nofun, hpushers, hpushing, htasks⟩
    | waited =>
      obtain ⟨hidle, heq⟩ := Option.ite_none_right_eq_some.mp hexec
      cases heq
      have hfinished : s.pool.Finished := by
        have hwait : s.pool.WaitFact s.pool.manager := hfact.2
        rwa [hidle] at hwait
      exact ⟨.drained, hadmits, hcalm, ⟨hidle, hfinished⟩, hactive, hnode, hworkers, nofun,
        hpushers, hpushing, htasks⟩
    | discard | destroyWorkers =>
      cases hexec
      exact ⟨.bare, hadmits, hcalm, hfact, hactive, hnode, rfl, nofun, hpushers, hpushing, htasks⟩
    | destruct =>
      obtain ⟨pool, hstep, rfl⟩ := Option.map_eq_some_iff.mp hexec
      have hproper := hcalm.proper.step hstep
      have hattended := hcalm.attended.step hcalm.proper hstep
      obtain ⟨hidle, rfl⟩ := call_eq_some hstep
      exact ⟨.dismantling, hadmits, ⟨hproper, hattended, hcalm.unpaused, rfl⟩,
        ⟨⟨Or.inl rfl, trivial⟩, hfact.2⟩, hactive, hnode, hworkers, nofun, hpushers, hpushing,
        htasks⟩
    | destructed =>
      obtain ⟨hdestroyed, heq⟩ := Option.ite_none_right_eq_some.mp hexec
      cases heq
      exact ⟨.gone, hadmits, hcalm, ⟨hdestroyed, hfact.2⟩, hactive, hnode, hworkers, nofun,
        hpushers, hpushing, htasks⟩

/-- After an exception the destructors come in their order, if there is no thread of the command
controller. -/
theorem Inv.throw (hs : Inv phase s) (hinactive : s.consumer.active = false)
    (h : step hardwareConcurrency s .throw = some t) : Inv phase t := by
  have hadmits := hs.admits
  obtain ⟨op, rest, hrest, hthrows, rfl⟩ := throw_eq_some h
  refine { hs with admits := ?_ }
  have hunwind : s.unwind =
      if phase.hasNode then TeardownOp.dismantleNode else TeardownOp.dismissNode := by
    rw [unwind, hs.node, hinactive, if_neg Bool.false_ne_true, List.append_nil]
  rw [hrest] at hadmits
  dsimp only
  rw [hunwind]
  cases hadmits with
  | cons hnext hadmits =>
    cases hnext with
    | createNode => exact TeardownPhase.admits_dismissNode
    | createCmd => exact TeardownPhase.admits_dismantleNode_standing
    | goOn => exact TeardownPhase.admits_dismantleNode_alone
    | consume => exact absurd (hinactive.symm.trans hs.active) Bool.false_ne_true
    | _ => cases hthrows

/-- What has been given to the pool stays given when the batch is given up. -/
theorem tasks_le_of_append {committed given given' : List Command}
    {submitted : Multiset AquireCommand} (hpre : given' <+: given)
    (h : (↑((committed ++ given).flatMap tasksOf) : Multiset AquireCommand) ≤ submitted) :
    (↑((committed ++ given').flatMap tasksOf) : Multiset AquireCommand) ≤ submitted := by
  obtain ⟨left, rfl⟩ := hpre
  refine (Multiset.le_add_right _ ↑(left.flatMap tasksOf)).trans (le_trans (le_of_eq ?_) h)
  rw [Multiset.coe_add, ← List.flatMap_append, List.append_assoc]

/-- The thread of the command controller is at another point, and has given nothing more. -/
theorem Inv.moved {consumer : DispatchPoint} {committed : List Command} (hs : Inv phase s)
    (hactive : consumer.active = s.consumer.active)
    (hpushers : ∀ i, s.consumer.pusher? = some i → s.pool.pushers[i]? = some .returned)
    (hpusher : consumer.pusher? = none)
    (htasks : (↑((committed ++ consumer.given).flatMap tasksOf) : Multiset AquireCommand) ≤
      s.pool.submitted) :
    Inv phase { s with consumer, committed } where
  admits := hs.admits
  calm := hs.calm
  fact := hs.fact
  active := hactive.trans hs.active
  node := hs.node
  workers := hs.workers
  stopping := hs.stopping
  pushers := fun i hi ↦ Or.inl ((hs.pushers i hi).elim id fun h ↦ hpushers i h)
  pushing := fun i hi ↦ by rw [hpusher] at hi; cases hi
  tasks := htasks

/-- A batch is received. -/
theorem Inv.fetch {received : Option (List Command)} (hs : Inv phase s)
    (h : step hardwareConcurrency s (.fetch received) = some t) : Inv phase t := by
  obtain ⟨hfetching, heq⟩ := Option.ite_none_right_eq_some.mp h
  cases heq
  have htasks := hs.tasks
  rw [hfetching] at htasks
  have hafter : (afterFetch received).active = true ∧ (afterFetch received).pusher? = none ∧
      (afterFetch received).given = [] := by
    match received with
    | none | some [] | some (_ :: _) => exact ⟨rfl, rfl, rfl⟩
  refine hs.moved (hafter.1.trans (by rw [hfetching]; rfl)) (fun i hi ↦ ?_) hafter.2.1 ?_
  · rw [hfetching] at hi
    cases hi
  · rwa [hafter.2.2]

/-- A task is passed to `push_task`. -/
theorem Inv.push {pool : PoolThreads AquireCommand} {task : AquireCommand} {command : Command}
    {given rest : List Command} (hs : Inv phase s)
    (hconsumer : s.consumer = .dispatching given (command :: rest))
    (htask : tasksOf command = [task])
    (h : s.pool.step hardwareConcurrency (.pushTask task) = some pool) :
    Inv phase { s with
      pool, consumer := .pushing s.pool.pushers.length (given ++ [command]) rest } := by
  have hproper := hs.calm.proper.step h
  have hattended := hs.calm.attended.step hs.calm.proper h
  have hsubmitted := PoolThreads.submitted_step h
  have hactive : phase.consumes = true := hs.active.symm.trans (by rw [hconsumer]; rfl)
  have hpushers := hs.pushers
  have htasks := hs.tasks
  rw [hconsumer] at hpushers htasks
  cases h
  refine ⟨hs.admits, ⟨hproper, hattended, hs.calm.unpaused, hs.calm.resets⟩, ?_, hactive.symm,
    hs.node, hs.workers, hs.stopping, fun i hi ↦ ?_, fun i hi ↦ ?_, ?_⟩
  · have hfact := hs.fact
    cases phase with
    | consuming | stopping => exact hfact
    | _ => cases hactive
  · rw [List.length_append, List.length_singleton] at hi
    rcases Nat.lt_succ_iff_lt_or_eq.mp hi with hlt | rfl
    · refine Or.inl ?_
      dsimp only
      rw [List.getElem?_append_left hlt]
      exact (hpushers i hlt).resolve_right nofun
    · exact Or.inr rfl
  · cases hi
    rw [List.length_append]
    exact Nat.lt_succ_self _
  · rw [hsubmitted, DispatchPoint.given, ← List.append_assoc, List.flatMap_append,
      List.flatMap_singleton, htask, ← Multiset.coe_add]
    exact add_le_add_left htasks _

/-- A command has one task, or none. -/
theorem tasksOf_cons {command : Command} {task : AquireCommand} {tasks : List AquireCommand}
    (h : tasksOf command = task :: tasks) : tasks = [] := by
  rw [tasksOf_eq] at h
  cases hmonitor : command.monitor? <;> rw [hmonitor] at h <;> cases h
  rfl

/-- What the thread of the command controller does. -/
theorem Inv.consumer {throws : Bool} (hs : Inv phase s)
    (h : step hardwareConcurrency s (.consumer throws) = some t) : Inv phase t := by
  have htasks := hs.tasks
  simp only [step, advanceConsumer] at h
  cases hconsumer : s.consumer with
  | testing =>
    rw [hconsumer] at h htasks
    cases h
    have hnobody : ∀ i, s.consumer.pusher? = some i → s.pool.pushers[i]? = some .returned := by
      simp [hconsumer, DispatchPoint.pusher?]
    have hactive : s.consumer.active = true := by rw [hconsumer]; rfl
    refine hs.moved ?_ hnobody ?_ ?_
    all_goals cases s.run <;> first | exact hactive.symm | rfl | exact htasks
  | dispatching given rest =>
    rw [hconsumer] at h htasks
    have hnobody : ∀ i, s.consumer.pusher? = some i → s.pool.pushers[i]? = some .returned := by
      simp [hconsumer, DispatchPoint.pusher?]
    have hactive : s.consumer.active = true := by rw [hconsumer]; rfl
    cases rest with
    | nil =>
      cases h
      exact hs.moved hactive.symm hnobody rfl htasks
    | cons command rest =>
      cases throws with
      | true =>
        cases h
        exact hs.moved hactive.symm hnobody rfl (tasks_le_of_append List.nil_prefix htasks)
      | false =>
        simp only [Bool.false_eq_true, if_false] at h
        split at h
        · rename_i hnil
          cases h
          refine hs.moved hactive.symm hnobody rfl ?_
          rw [DispatchPoint.given, ← List.append_assoc, List.flatMap_append, List.flatMap_singleton,
            hnil, List.append_nil]
          exact htasks
        · rename_i task tasks hcons
          obtain ⟨pool, hstep, rfl⟩ := Option.map_eq_some_iff.mp h
          rw [tasksOf_cons hcons] at hcons
          exact hs.push hconsumer hcons hstep
  | pushing i given rest =>
    simp only [hconsumer] at h htasks
    obtain ⟨hreturned, heq⟩ := Option.ite_none_right_eq_some.mp h
    cases heq
    refine hs.moved (by rw [hconsumer]; rfl) (fun j hj ↦ ?_) rfl htasks
    rw [hconsumer] at hj
    cases hj
    exact hreturned
  | committing given =>
    rw [hconsumer] at h htasks
    cases h
    refine hs.moved (by rw [hconsumer]; rfl) (by simp [hconsumer, DispatchPoint.pusher?]) rfl ?_
    rw [show DispatchPoint.sleeping.given = [] from rfl, List.append_nil]
    cases throws with
    | true =>
      have hle := tasks_le_of_append List.nil_prefix htasks
      rwa [List.append_nil] at hle
    | false => exact htasks
  | sleeping =>
    rw [hconsumer] at h htasks
    cases h
    exact hs.moved (by rw [hconsumer]; rfl) (by simp [hconsumer, DispatchPoint.pusher?]) rfl htasks
  | absent | fetching | exited | joined => simp [hconsumer] at h

theorem Inv.of_step (hs : Inv phase s) (hthrow : a = .throw → s.consumer.active = false)
    (h : step hardwareConcurrency s a = some t) : ∃ phase', Inv phase' t := by
  cases a with
  | setup => exact hs.setup h
  | throw => exact ⟨phase, hs.throw (hthrow rfl) h⟩
  | fetch received => exact ⟨phase, hs.fetch h⟩
  | consumer throws => exact ⟨phase, hs.consumer h⟩
  | pool action => exact ⟨phase, hs.pool h⟩

theorem inv_of_run
    (h : Steps.run (step hardwareConcurrency) (start hardwareConcurrency) sched =
      some s)
    (hthrow : NoThrow hardwareConcurrency sched) : ∃ phase, Inv phase s := by
  refine run_invariant_of_meets (P := fun s ↦ ∃ phase, Inv phase s)
    (C := fun s a ↦ a = TeardownStep.throw → s.consumer.active = false) ?_ h ?_
    ⟨.creating, inv_start _⟩
  · rintro s a t hstep hmeets ⟨phase, hs⟩
    exact hs.of_step hmeets hstep
  · rintro done a rest ρ hsched hρ rfl
    exact hthrow done rest ρ hsched hρ

/-! ## Nothing is used after its destructor -/

theorem Inv.not_usesDestroyed (hs : Inv phase s) : ¬ s.UsesDestroyed := by
  rintro (⟨hhandler, hnode⟩ | ⟨hworkers, task, hmem⟩)
  · have hactive : s.consumer.active = true := by
      cases hconsumer : s.consumer <;> rw [hconsumer] at hhandler <;> first | rfl | cases hhandler
    have hnode' := TeardownPhase.hasNode_of_consumes (hs.active.symm.trans hactive)
    exact absurd (hnode.symm.trans (hs.node.trans hnode')) Bool.false_ne_true
  · have hgone := hs.workers.symm.trans hworkers
    have hfact := hs.fact
    cases phase with
    | creating | created | bare | dismantling | gone => exact hfact.2.not_executing task hmem
    | _ => cases hgone

/-- What the pool does for itself, the gateway can do. -/
theorem run_pool {acts : List (PoolAction AquireCommand)} {pool : PoolThreads AquireCommand}
    (hacts : ∀ a ∈ acts, a.inner = true)
    (h : Steps.run (PoolThreads.step hardwareConcurrency) s.pool acts = some pool) :
    Steps.run (step hardwareConcurrency) s (acts.map .pool) = some { s with pool } := by
  induction acts generalizing s with
  | nil =>
    cases h
    rfl
  | cons a acts ih =>
    obtain ⟨pool', hstep, hrest⟩ := run_cons_eq_some.mp h
    have hinner := hacts a List.mem_cons_self
    refine run_cons_eq_some.mpr ⟨{ s with pool := pool' }, ?_, ?_⟩
    · rw [step, if_pos hinner, hstep]
      rfl
    · exact ih (fun b hb ↦ hacts b (List.mem_cons_of_mem a hb)) hrest

/-- **The order of the destructors is right, and an exception reverses it.**  Unless a statement of
`setup` throws while there is a thread of the command controller, no command is handed to a node
controller whose destructor has begun, and no task is executed for a worker that has been destroyed.
An exception there does lead to such a use. -/
theorem usesDestroyed_only_thrown (hardwareConcurrency : ℕ) :
    (∀ sched s, Steps.run (step hardwareConcurrency) (start hardwareConcurrency) sched = some s →
      NoThrow hardwareConcurrency sched → ¬ s.UsesDestroyed) ∧
    ∃ sched s, Steps.run (step hardwareConcurrency) (start hardwareConcurrency) sched = some s ∧
      s.UsesDestroyed := by
  refine ⟨fun sched s h hthrow ↦ ?_, ?_⟩
  · obtain ⟨phase, hs⟩ := inv_of_run h hthrow
    exact hs.not_usesDestroyed
  · obtain ⟨k, hidle⟩ :=
      PoolThreads.exists_run_idle (α := AquireCommand) hardwareConcurrency 0
    have hcreate := run_pool (s := start hardwareConcurrency) (fun a ha ↦ by
      have hmanager : a = .manager := by simpa using ha
      rw [hmanager]
      rfl) hidle
    refine ⟨_ ++ [.setup, .setup, .setup, .consumer false,
      .fetch (some [.monitor ⟨"pva", "channel:ramp:ramp", true, "acquire_comad_in"⟩]),
      .throw, .setup], _, (run_append_of_eq_some hcreate).trans rfl, Or.inl ⟨rfl, rfl⟩⟩

/-! ## What was committed is done -/

/-- Where the pool has been destroyed, nothing was left to do. -/
theorem Inv.finished (hs : Inv phase s) (hgone : s.pool.manager = .destroyed) :
    s.pool.Finished ∧ phase.consumes = false := by
  have hfact := hs.fact
  cases phase with
  | creating | created | standing | drained | bare | dismantling | gone => exact ⟨hfact.2, rfl⟩
  | consuming | stopping | alone | doomed => cases hgone.symm.trans hfact
  | waiting =>
    have hwait : s.pool.WaitFact s.pool.manager := hfact.2
    rw [hgone] at hwait
    exact ⟨hwait, rfl⟩

/-- **Every command of a committed batch has been executed when the pool is gone**, and the threads
of the pool have been joined, unless a statement of `setup` throws at the wrong time. -/
theorem executed_of_run
    (h : Steps.run (step hardwareConcurrency) (start hardwareConcurrency) sched = some s)
    (hthrow : NoThrow hardwareConcurrency sched) (hgone : s.pool.manager = .destroyed) :
    s.pool.workers = [] ∧ s.pool.tasks = [] ∧
      (s.committed.flatMap tasksOf).Subperm s.pool.done := by
  obtain ⟨phase, hs⟩ := inv_of_run h hthrow
  obtain ⟨hfinished, hconsumes⟩ := hs.finished hgone
  obtain ⟨htasks, hdone⟩ :=
    hfinished.done_eq hs.calm.proper.balanced (hs.returned hconsumes)
  refine ⟨List.eq_nil_of_length_eq_zero ?_, htasks, ?_⟩
  · rw [hs.calm.proper.manned.length, hgone]
    rfl
  · have hle := hs.tasks
    rw [(given_of_not_active (hs.active.trans hconsumes)).1, List.append_nil, ← hdone] at hle
    exact Multiset.coe_le.mp hle

/-- An activation is received, committed and executed, and the pool has been waited for. -/
def rampDrained : List TeardownStep :=
  List.flatten [
    List.replicate 3 (.pool .manager), List.replicate 3 .setup,
    [.consumer false,
      .fetch (some [.monitor ⟨"pva", "channel:ramp:ramp", true, "acquire_comad_in"⟩]),
      .consumer false],
    List.replicate 4 (.pool (.pusher 0 0)), List.replicate 4 (.consumer false),
    [.setup, .setup, .consumer false], List.replicate 4 .setup,
    List.replicate 10 (.pool (.worker 0)), List.replicate 5 (.pool .manager),
    List.replicate 3 .setup, List.replicate 5 (.pool .manager)]

theorem executed_of_run_ramp :
    ∃ s, Steps.run (step 1) (start 1)
        (rampDrained ++ [.pool .manager, .pool .manager, .pool (.worker 0), .pool .manager]) =
          some s ∧
      (s.committed.flatMap tasksOf).Subperm s.pool.done ∧
      s.pool.done = [⟨"pva", "channel:ramp:ramp", true, "acquire_comad_in"⟩] := by
  refine ⟨_, rfl, (executed_of_run (show Steps.run (step 1) (start 1)
    (rampDrained ++ [.pool .manager, .pool .manager, .pool (.worker 0), .pool .manager]) = _ from
      rfl) (fun done rest ρ hsched _ ↦ ?_) rfl).2.2, rfl⟩
  have hmem : TeardownStep.throw ∈ done ++ .throw :: rest := by simp
  rw [← hsched] at hmem
  simp [rampDrained] at hmem

/-! ## Where the shutdown gets stuck -/

/-- A thread of the command controller that cannot go on is through, if nobody is in `push_task`. -/
theorem Inv.exited (hs : Inv phase s) (hactive : s.consumer.active = true)
    (hstuck : Stuck (step hardwareConcurrency) TeardownStep.Goes s)
    (hpushers : ∀ place ∈ s.pool.pushers, place = .returned) : s.consumer = .exited := by
  have hnone := hstuck (.consumer true) trivial
  simp only [step, advanceConsumer] at hnone
  cases hconsumer : s.consumer with
  | exited => rfl
  | absent | joined =>
    rw [hconsumer] at hactive
    cases hactive
  | fetching =>
    have hfetch := hstuck (.fetch none) trivial
    simp [step, hconsumer] at hfetch
  | pushing i given rest =>
    have hi := hs.pushing i (by rw [hconsumer]; rfl)
    have hreturned : s.pool.pushers[i]? = some .returned := by
      rw [List.getElem?_eq_getElem hi, hpushers _ (List.getElem_mem hi)]
    simp [hconsumer, hreturned] at hnone
  | dispatching given rest => cases rest <;> simp [hconsumer] at hnone
  | testing | committing | sleeping => simp [hconsumer] at hnone

/-- **The shutdown gets stuck in one place only.**  Where no thread can go on, everything has been
destroyed, or the threads of the pool are being joined and one of them sleeps: it has missed
`notify_all`. -/
theorem rest_eq_nil_or_joining
    (h : Steps.run (step hardwareConcurrency) (start hardwareConcurrency) sched = some s)
    (hthrow : NoThrow hardwareConcurrency sched)
    (hstuck : Stuck (step hardwareConcurrency) TeardownStep.Goes s) :
    s.rest = [] ∨
      s.pool.manager = .joining .destructing ∧ .blocked false ∈ s.pool.workers := by
  obtain ⟨phase, hs⟩ := inv_of_run h hthrow
  have hpool : Stuck (PoolThreads.step hardwareConcurrency) PoolThreads.Works s.pool := by
    intro a ha
    have hnone := hstuck (.pool a) ha
    cases a <;> first | exact ha.elim | simpa [step, PoolAction.inner] using hnone
  obtain ⟨hworkers, hpushers, hmanager⟩ := PoolThreads.cases_of_stuck hs.calm.proper hpool
  -- a wait that sleeps has somebody to wait for
  have hawake (next : Option PoolEnding) (hblocked : s.pool.manager = .waitBlocked false next) :
      ¬ s.pool.WaitFact s.pool.manager := by
    intro hfact
    obtain ⟨htasks, hasleep, -⟩ :=
      PoolThreads.done_of_stuck hs.calm hpool (by rw [hblocked]; rfl)
    rw [hblocked] at hfact
    rcases hfact.2 with hne | hany
    · exact hne htasks
    · obtain ⟨point, hmem, hoccupied⟩ := List.any_eq_true.mp hany
      rw [hasleep point hmem] at hoccupied
      cases hoccupied
  have hsetup := hstuck .setup trivial
  have hadmits := hs.admits
  have hfact := hs.fact
  cases hrest : s.rest with
  | nil => exact Or.inl rfl
  | cons op rest =>
    refine Or.inr ?_
    simp only [step, hrest, Option.map_eq_none_iff] at hsetup
    rw [hrest] at hadmits
    cases hadmits with
    | cons hnext hadmits =>
      cases hnext with
      | construct =>
        have hidle : s.pool.manager ≠ .idle := by simpa [exec] using hsetup
        rcases hfact.1 with heq | ⟨i, heq⟩ | heq
        · rw [heq] at hmanager
          simp at hmanager
        · rw [heq] at hmanager
          simp at hmanager
        · exact absurd heq hidle
      | join =>
        have hexited := hs.exited hs.active hstuck hpushers
        simp [exec, hexited] at hsetup
      | wait | destruct =>
        have hidle : s.pool.manager = .idle := by first | exact hfact | exact hfact.1
        simp [exec, PoolThreads.step, hidle] at hsetup
      | waited =>
        have hidle : s.pool.manager ≠ .idle := by simpa [exec] using hsetup
        obtain ⟨⟨hup, -⟩, hwait⟩ := hfact
        rcases hmanager with heq | heq | ⟨next, heq⟩ | ⟨next, heq⟩
        · exact absurd heq hidle
        · rw [heq] at hup
          cases hup
        · exact absurd hwait (hawake next heq)
        · rw [heq] at hup
          cases hup
      | destructed =>
        have hdestroyed : s.pool.manager ≠ .destroyed := by simpa [exec] using hsetup
        obtain ⟨⟨hdestructs, hwait⟩, -⟩ := hfact
        have hnext' := hdestructs.resolve_right hdestroyed
        rcases hmanager with heq | heq | ⟨next, heq⟩ | ⟨next, heq⟩
        · rw [heq] at hnext'
          cases hnext'
        · exact absurd heq hdestroyed
        · exact absurd hwait (hawake next heq)
        · rw [heq] at hnext'
          cases hnext'
          refine ⟨heq, ?_⟩
          -- a thread that is not through is asleep
          by_contra hnone
          have hended : s.pool.workers.all WorkerPoint.isEnded = true := by
            refine List.all_eq_true.mpr fun point hmem ↦ ?_
            rcases hworkers point hmem with rfl | rfl
            · exact absurd hmem hnone
            · rfl
          have hjoin := hpool .manager trivial
          simp [PoolThreads.step, PoolThreads.advanceManager, heq, hended] at hjoin
      | _ => simp [exec] at hsetup

/-- The only worker of the pool is about to sleep when it is to be notified. -/
theorem rest_eq_nil_or_joining_missed :
    ∃ s, Steps.run (step 1) (start 1)
        (rampDrained ++ List.replicate 3 (.pool (.worker 0)) ++ List.replicate 2 (.pool .manager) ++
          [.pool (.worker 0)]) = some s ∧
      (s.rest = [] ∨
        s.pool.manager = .joining .destructing ∧ .blocked false ∈ s.pool.workers) := by
  refine ⟨_, rfl, rest_eq_nil_or_joining (show Steps.run (step 1) (start 1)
    (rampDrained ++ List.replicate 3 (.pool (.worker 0)) ++ List.replicate 2 (.pool .manager) ++
      [.pool (.worker 0)]) = _ from rfl) (fun done rest ρ hsched _ ↦ ?_) fun a ha ↦ ?_⟩
  · have hmem : TeardownStep.throw ∈ done ++ .throw :: rest := by simp
    rw [← hsched] at hmem
    simp [rampDrained] at hmem
  · match a with
    | .setup | .fetch _ | .consumer _ => rfl
    | .pool (.worker 0) | .pool (.worker (_ + 1)) | .pool .manager => rfl
    | .pool (.pusher 0 _) | .pool (.pusher (_ + 1) _) => rfl

/-! ## After the stop -/

/-- What an operation does to the command controller. -/
theorem exec_frame {op : TeardownOp} (h : exec hardwareConcurrency s op = some t) :
    t.rest = s.rest ∧ (op = .stopConsumer → t.run = false) ∧
      (op ≠ .createCmd → (s.run = false → t.run = false) ∧
        (t.consumer = .fetching → s.consumer = .fetching)) := by
  cases op with
  | awaitPool manager =>
    obtain ⟨-, heq⟩ := Option.ite_none_right_eq_some.mp h
    cases heq
    exact ⟨rfl, nofun, fun _ ↦ ⟨id, id⟩⟩
  | joinConsumer =>
    obtain ⟨-, heq⟩ := Option.ite_none_right_eq_some.mp h
    cases heq
    exact ⟨rfl, nofun, fun _ ↦ ⟨id, nofun⟩⟩
  | callPool call =>
    obtain ⟨pool, -, rfl⟩ := Option.map_eq_some_iff.mp h
    exact ⟨rfl, nofun, fun _ ↦ ⟨id, id⟩⟩
  | createCmd =>
    cases h
    exact ⟨rfl, nofun, fun hne ↦ absurd rfl hne⟩
  | stopConsumer =>
    cases h
    exact ⟨rfl, fun _ ↦ rfl, fun _ ↦ ⟨fun _ ↦ rfl, id⟩⟩
  | createNode | statement | destroyNode | destroyWorkers =>
    cases h
    exact ⟨rfl, nofun, fun _ ↦ ⟨id, id⟩⟩

/-- The thread of the command controller looks at `run` before it receives a batch, and changes
nothing of what `setup` has to do. -/
theorem advanceConsumer_frame {throws : Bool}
    (h : advanceConsumer hardwareConcurrency throws s = some t) :
    t.rest = s.rest ∧ t.run = s.run ∧ (t.consumer = .fetching → s.run = true) := by
  rw [advanceConsumer] at h
  cases hconsumer : s.consumer with
  | testing =>
    rw [hconsumer] at h
    cases h
    refine ⟨rfl, rfl, fun hfetching ↦ ?_⟩
    by_contra hrun
    dsimp only at hfetching
    rw [if_neg hrun] at hfetching
    cases hfetching
  | dispatching given rest =>
    rw [hconsumer] at h
    cases rest with
    | nil =>
      cases h
      exact ⟨rfl, rfl, nofun⟩
    | cons command rest =>
      dsimp only at h
      split at h
      · cases h
        exact ⟨rfl, rfl, nofun⟩
      · split at h
        · cases h
          exact ⟨rfl, rfl, nofun⟩
        · obtain ⟨pool, -, rfl⟩ := Option.map_eq_some_iff.mp h
          exact ⟨rfl, rfl, nofun⟩
  | pushing i given rest =>
    simp only [hconsumer] at h
    obtain ⟨-, heq⟩ := Option.ite_none_right_eq_some.mp h
    cases heq
    exact ⟨rfl, rfl, nofun⟩
  | committing | sleeping =>
    rw [hconsumer] at h
    cases h
    exact ⟨rfl, rfl, nofun⟩
  | absent | fetching | exited | joined => simp [hconsumer] at h

/-- What is left to do gets less, or starts over with the destructors. -/
theorem rest_of_step (h : step hardwareConcurrency s a = some t) :
    t.rest <:+ s.rest ∨ t.rest = s.unwind := by
  cases a with
  | setup =>
    obtain ⟨op, rest, r, hrest, -, rfl⟩ := setup_eq_some h
    rw [hrest]
    exact Or.inl (List.suffix_cons op rest)
  | throw =>
    obtain ⟨op, rest, -, -, rfl⟩ := throw_eq_some h
    exact Or.inr rfl
  | fetch received =>
    obtain ⟨-, heq⟩ := Option.ite_none_right_eq_some.mp h
    cases heq
    exact Or.inl List.suffix_rfl
  | consumer throws =>
    rw [(advanceConsumer_frame h).1]
    exact Or.inl List.suffix_rfl
  | pool action =>
    obtain ⟨-, heq⟩ := Option.ite_none_right_eq_some.mp h
    obtain ⟨pool, -, rfl⟩ := Option.map_eq_some_iff.mp heq
    exact Or.inl List.suffix_rfl

/-- The thread of the command controller has been told to stop. -/
structure Stopped (s : Teardown) : Prop where
  run : s.run = false
  rest : .createCmd ∉ s.rest

/-- How many batches the thread of the command controller will still receive, once it has been told
to stop. -/
def batchesLeft (s : Teardown) : ℕ := if s.consumer = .fetching then 1 else 0

theorem batchesLeft_le (h : t.consumer = .fetching → s.consumer = .fetching) :
    t.batchesLeft ≤ s.batchesLeft := by
  rw [batchesLeft, batchesLeft]
  split
  · rw [if_pos (h ‹_›)]
  · exact Nat.zero_le _

theorem Stopped.of_step (hs : s.Stopped) (h : step hardwareConcurrency s a = some t) :
    t.Stopped ∧ t.batchesLeft + a.isFetch.toNat ≤ s.batchesLeft := by
  have hrest : .createCmd ∉ t.rest := by
    rcases rest_of_step h with hsuffix | heq
    · exact fun hmem ↦ hs.rest (hsuffix.mem hmem)
    · rw [heq, unwind]
      cases s.node <;> cases s.consumer.active <;> decide
  cases a with
  | setup =>
    obtain ⟨op, rest, r, hop, hexec, rfl⟩ := setup_eq_some h
    have hne : op ≠ .createCmd := by
      rintro rfl
      exact hs.rest (hop ▸ List.mem_cons_self)
    obtain ⟨-, -, hframe⟩ := exec_frame hexec
    exact ⟨⟨(hframe hne).1 hs.run, hrest⟩, batchesLeft_le (hframe hne).2⟩
  | throw =>
    obtain ⟨op, rest, -, -, rfl⟩ := throw_eq_some h
    exact ⟨⟨hs.run, hrest⟩, le_rfl⟩
  | fetch received =>
    obtain ⟨hfetching, heq⟩ := Option.ite_none_right_eq_some.mp h
    cases heq
    refine ⟨⟨hs.run, hs.rest⟩, ?_⟩
    have hleft : s.batchesLeft = 1 := if_pos hfetching
    rw [hleft]
    match received with
    | none | some [] | some (_ :: _) => exact le_rfl
  | consumer throws =>
    obtain ⟨-, hrun, hfetching⟩ := advanceConsumer_frame h
    refine ⟨⟨hrun.trans hs.run, hrest⟩, batchesLeft_le fun hconsumer ↦ ?_⟩
    exact absurd (hs.run.symm.trans (hfetching hconsumer)) Bool.false_ne_true
  | pool action =>
    obtain ⟨-, heq⟩ := Option.ite_none_right_eq_some.mp h
    obtain ⟨pool, -, rfl⟩ := Option.map_eq_some_iff.mp heq
    exact ⟨⟨hs.run, hs.rest⟩, le_rfl⟩

theorem Stopped.countP_isFetch_le (hs : s.Stopped)
    (h : Steps.run (step hardwareConcurrency) s sched = some t) :
    sched.countP TeardownStep.isFetch ≤ s.batchesLeft := by
  induction sched generalizing s with
  | nil => exact Nat.zero_le _
  | cons a sched ih =>
    obtain ⟨r, hstep, hrest⟩ := run_cons_eq_some.mp h
    obtain ⟨hr, hleft⟩ := hs.of_step hstep
    have hle := ih hr hrest
    rw [List.countP_cons]
    cases hfetch : a.isFetch with
    | true =>
      rw [hfetch, Bool.toNat_true] at hleft
      exact (Nat.add_le_add_right hle 1).trans hleft
    | false =>
      rw [hfetch, Bool.toNat_false] at hleft
      exact hle.trans hleft

/-- A command controller that has been told to stop is the last one. -/
theorem createCmd_of_run
    (h : Steps.run (step hardwareConcurrency) (start hardwareConcurrency) sched = some s) :
    s.rest.Pairwise fun op later ↦ op = .stopConsumer → later ≠ .createCmd := by
  refine run_invariant (P := fun s : Teardown ↦
    s.rest.Pairwise fun op later ↦ op = .stopConsumer → later ≠ .createCmd) ?_ h
    (show TeardownOp.setup.Pairwise _ by decide)
  intro s a t hstep hs
  rcases rest_of_step hstep with hsuffix | heq
  · exact hs.sublist hsuffix.sublist
  · rw [heq, unwind]
    cases s.node <;> cases s.consumer.active <;> decide

/-- **At most one more batch is handled after the stop**, the one that `getMsg` is about to return:
whatever the threads do after `run = false`, and whatever is thrown. -/
theorem countP_isFetch_le_one {after : List TeardownStep} {rest : List TeardownOp}
    (h : Steps.run (step hardwareConcurrency) (start hardwareConcurrency) sched = some s)
    (hstop : s.rest = .stopConsumer :: rest)
    (hrun : Steps.run (step hardwareConcurrency) s (.setup :: after) = some t) :
    after.countP TeardownStep.isFetch ≤ if s.consumer = .fetching then 1 else 0 := by
  have hlast := createCmd_of_run h
  obtain ⟨r, hstep, hafter⟩ := run_cons_eq_some.mp hrun
  obtain ⟨op, rest', r, hop, hexec, rfl⟩ := setup_eq_some hstep
  rw [hstop] at hlast hop
  cases hop
  obtain ⟨-, hstopped, hframe⟩ := exec_frame hexec
  have hr : Stopped { r with rest } :=
    ⟨hstopped rfl, fun hmem ↦ (List.pairwise_cons.mp hlast).1 _ hmem rfl rfl⟩
  exact (hr.countP_isFetch_le hafter).trans (batchesLeft_le (hframe nofun).2)

/-- It is in `getMsg` when it is told to stop, and receives a batch. -/
theorem countP_isFetch_le_one_fetching :
    ∃ s t, Steps.run (step 1) (start 1)
        (List.replicate 3 (.pool .manager) ++ List.replicate 3 .setup ++
          [.consumer false, .setup]) = some s ∧
      Steps.run (step 1) s (.setup :: [.fetch (some []), .consumer false, .consumer false,
        .consumer false]) = some t ∧ t.consumer = .exited ∧
      [.fetch (some []), .consumer false, .consumer false, .consumer false].countP
        TeardownStep.isFetch ≤ if s.consumer = .fetching then 1 else 0 :=
  ⟨_, _, rfl, rfl, rfl, countP_isFetch_le_one
    (show Steps.run (step 1) (start 1) (List.replicate 3 (.pool .manager) ++
      List.replicate 3 .setup ++ [.consumer false, .setup]) = _ from rfl) rfl rfl⟩

end Teardown

end Ekg
