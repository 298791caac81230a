import Ekg.Lib.Steps
import Ekg.Node.MonitorEvents
import Ekg.Node.NodeController

/-!
# The threads of a node

Two kinds of threads work on the channels: the tasks of the pool, which execute `acquireManagement`,
and the scheduler of the service manager, which scans the channels and calls the handler of the
acquire worker.  They share the topic lists and the channel map, under two mutexes:
`channel_map_mtx` of the worker, which a task holds alone while it changes a list and the handler
holds shared while it publishes, and `channel_map_mutex` of the service manager, which a task holds
while it adds or removes a channel and the scheduler holds for a whole scan.

A task looks its topic up before it takes the first mutex, and reads the size of the list after it
has released it.  Both mutexes, both kinds of threads and every point at which one may be
interrupted are part of the state here, and a log records what happened in which order.  A task that
is not interrupted is `acquireManagement` (`run_task`).
-/

set_option autoImplicit false

namespace Ekg

open Steps

/-- A thread that may hold a mutex. -/
inductive ThreadId
  | scheduler
  | task (i : ℕ)
  deriving DecidableEq, Repr

/-- A `std::shared_mutex`. -/
structure SharedMutex where
  /-- The thread that holds it alone. -/
  writer : Option ThreadId := none
  /-- How many threads hold it shared. -/
  readers : ℕ := 0
  deriving DecidableEq, Repr

namespace SharedMutex

/-- `lock`: nothing, while the caller has to wait. -/
def lock (t : ThreadId) (mtx : SharedMutex) : Option SharedMutex :=
  if mtx.writer = none ∧ mtx.readers = 0 then some { mtx with writer := some t } else none

/-- `unlock`. -/
def unlock (mtx : SharedMutex) : SharedMutex := { mtx with writer := none }

/-- `lock_shared`.  Whether a writer that waits keeps readers out is up to the library. -/
def lockShared (keptOut : Bool) (mtx : SharedMutex) : Option SharedMutex :=
  if mtx.writer = none ∧ keptOut = false then some { mtx with readers := mtx.readers + 1 }
  else none

/-- `unlock_shared`. -/
def unlockShared (mtx : SharedMutex) : SharedMutex := { mtx with readers := mtx.readers - 1 }

end SharedMutex

/-- A change of a `std::vector`, as far as its iterators are concerned. -/
inductive VectorChange
  | pushBack (reallocates : Bool)
  | erase (position : ℕ)
  deriving DecidableEq, Repr

/-- The change leaves the iterators to a position valid. -/
def VectorChange.keeps (position : ℕ) : VectorChange → Bool
  | .pushBack reallocates => !reallocates
  | .erase p => decide (position < p)

/-- An iterator: where it points to, and how many changes of the vector it was made after. -/
structure VectorIterator where
  position : ℕ
  made : ℕ
  deriving DecidableEq, Repr

/-- The iterator is still valid after these changes of its vector. -/
def VectorIterator.valid (itr : VectorIterator) (changes : List VectorChange) : Bool :=
  (changes.drop itr.made).all (VectorChange.keeps itr.position)

/-- How far a task is in `acquireManagement`. -/
inductive TaskPoint
  | queued
  /-- The topic of an activation was not found: before the lock of `channel_map_mtx`. -/
  | absent
  /-- The topic of a deactivation was found: before the lock of `channel_map_mtx`. -/
  | present (itr : VectorIterator)
  /-- Before `push_back`, with `channel_map_mtx` held. -/
  | pushing
  /-- Before `erase`, with `channel_map_mtx` held. -/
  | erasing (itr : VectorIterator)
  /-- Before the read of the size. -/
  | updated
  /-- Before the lock of `channel_map_mutex`. -/
  | decided (activate : Bool)
  /-- In `addChannel` or `removeChannel`, with `channel_map_mutex` held. -/
  | monitoring (activate : Bool)
  | finished
  deriving DecidableEq, Repr

/-- At this point a task waits for `channel_map_mtx`. -/
def TaskPoint.waits : TaskPoint → Bool
  | .absent => true
  | .present _ => true
  | _ => false

/-- At this point a task waits for a mutex or reads the size of a list, or it is through. -/
def TaskPoint.readsOnly : TaskPoint → Bool
  | .absent => true
  | .present _ => true
  | .updated => true
  | .decided _ => true
  | .finished => true
  | _ => false

/-- How far the scheduler is in `task`. -/
inductive ScanPoint
  /-- Between two scans. -/
  | sleeping
  /-- In the loop over the channels, with `channel_map_mutex` held and these channels to come. -/
  | scanning (rest : List String)
  /-- In the loop of `broadcast`, with these targets to come. -/
  | calling (eventData : List MonitorEvent) (targets : List ℕ) (rest : List String)
  /-- In `epicsMonitorEvent`, with `channel_map_mtx` held shared. -/
  | handling (eventData : List MonitorEvent) (targets : List ℕ) (rest : List String)

/-- What has happened. -/
inductive ThreadEvent
  /-- A task has looked its topic up. -/
  | lookup (i : ℕ) (command : AquireCommand) (found : Bool)
  | pushBack (i : ℕ) (command : AquireCommand)
  /-- A task has erased what its iterator points to; whether the iterator was still valid. -/
  | erase (i : ℕ) (command : AquireCommand) (valid : Bool)
  /-- A task is through. -/
  | complete (i : ℕ) (command : AquireCommand)
  /-- `addChannel` has made a channel. -/
  | added (channelName : String)
  /-- `removeChannel` has returned. -/
  | removed (channelName : String)
  /-- A handler is called. -/
  | handled (wp : ℕ) (eventData : List MonitorEvent)
  /-- The worker has pushed a message. -/
  | published (message : PublishMessage)
  deriving DecidableEq

/-- What all the threads share. -/
structure Shared where
  state : AcquireState
  /-- The changes of the list of a channel so far, oldest first. -/
  changes : String → List VectorChange
  /-- The thread that holds `channel_map_mutex`. -/
  channelMapMutex : Option ThreadId
  channelMapMtx : SharedMutex
  log : List ThreadEvent

/-- What the source leaves to the platform. -/
structure Platform where
  /-- The `push_back` after these changes of a vector has to reallocate. -/
  reallocates : List VectorChange → Bool
  /-- What an `erase` through an iterator that is not valid any more leaves of the list. -/
  undefinedErase : List String → ℕ → List String
  /-- A writer that waits for `channel_map_mtx` keeps readers out. -/
  prefersWriters : Bool
  /-- What the publisher answers. -/
  reply : PublishMessage → ℤ
  /-- The registration of the worker's handler. -/
  worker : ℕ

/-- The topics that are subscribed for a channel. -/
def Shared.topics (s : Shared) (channelName : String) : List String := s.state.topics channelName

/-- The list of a channel is changed. -/
def Shared.setTopics (channelName : String) (vec : List String) (change : VectorChange)
    (s : Shared) : Shared :=
  { s with
    state := { s.state with
      channelTopicsMap := s.state.channelTopicsMap.insert channelName vec }
    changes := fun c ↦ if channelName = c then s.changes c ++ [change] else s.changes c }

/-- Something is written to the log. -/
def Shared.record (events : List ThreadEvent) (s : Shared) : Shared :=
  { s with log := s.log ++ events }

@[simp] theorem Shared.topics_setTopics (channelName : String) (vec : List String)
    (change : VectorChange) (s : Shared) (c : String) :
    (s.setTopics channelName vec change).topics c =
      if channelName = c then vec else s.topics c :=
  ChannelTopicsMap.topics_insert s.state.channelTopicsMap channelName vec

theorem Shared.topics_congr {s s' : Shared} (hstate : s'.state = s.state) :
    s'.topics = s.topics := by
  funext c
  rw [Shared.topics, hstate]
  rfl

@[simp] theorem Shared.topics_record (events : List ThreadEvent) (s : Shared) :
    (s.record events).topics = s.topics := rfl

/-- A publisher that writes to the log what it is given. -/
def logPublisher (reply : PublishMessage → ℤ) : IPublisher (List ThreadEvent) where
  pushMessage message log := (log ++ [.published message], reply message)

theorem pushAll_logPublisher (reply : PublishMessage → ℤ) (messages : List PublishMessage)
    (log : List ThreadEvent) :
    (logPublisher reply).pushAll messages log = log ++ messages.map .published := by
  induction messages generalizing log with
  | nil => simp
  | cons message messages ih =>
    rw [IPublisher.pushAll_cons, ih]
    simp [logPublisher]

/-- What `monitorChannel` does, as far as others can tell. -/
def monitorRecord (channelName : String) (activate : Bool) (before after : EpicsServiceManager) :
    List ThreadEvent :=
  if activate then
    if channelName ∉ before.channelMap ∧ channelName ∈ after.channelMap then [.added channelName]
    else []
  else [.removed channelName]

/-- The next step of task `i`, if it is not finished and does not have to wait. -/
def advanceTask (platform : Platform) (i : ℕ) (command : AquireCommand)
    (failure : Option SetupFailure) (s : Shared) : TaskPoint → Option (TaskPoint × Shared)
  | .queued =>
    let channelTopicsMap := s.state.channelTopicsMap.lookup command.channelName
    let vec := channelTopicsMap.topics command.channelName
    let found := decide (command.destinationTopic ∈ vec)
    let point :=
      if command.activate then
        if found then .updated else .absent
      else
        if found then
          .present ⟨vec.idxOf command.destinationTopic, (s.changes command.channelName).length⟩
        else .updated
    some (point,
      { s with state := { s.state with channelTopicsMap } }.record [.lookup i command found])
  | .absent => (s.channelMapMtx.lock (.task i)).map fun mtx ↦
    (.pushing, { s with channelMapMtx := mtx })
  | .present itr => (s.channelMapMtx.lock (.task i)).map fun mtx ↦
    (.erasing itr, { s with channelMapMtx := mtx })
  | .pushing =>
    let vec := s.topics command.channelName ++ [command.destinationTopic]
    let change := VectorChange.pushBack (platform.reallocates (s.changes command.channelName))
    some (.updated,
      ({ s with channelMapMtx := s.channelMapMtx.unlock }.setTopics command.channelName vec
        change).record [.pushBack i command])
  | .erasing itr =>
    let valid := itr.valid (s.changes command.channelName)
    let vec := s.topics command.channelName
    let vec :=
      if valid then vec.eraseIdx itr.position else platform.undefinedErase vec itr.position
    some (.updated,
      ({ s with channelMapMtx := s.channelMapMtx.unlock }.setTopics command.channelName vec
        (.erase itr.position)).record [.erase i command valid])
  | .updated =>
    some (.decided (s.state.channelTopicsMap.needed command.channelName), s)
  | .decided activate =>
    if s.channelMapMutex = none then
      some (.monitoring activate, { s with channelMapMutex := some (.task i) })
    else none
  | .monitoring activate =>
    let r := s.state.manager.monitorChannel failure command.channelName activate
    some (.finished,
      { s with
        state := { s.state with manager := r.1 }
        channelMapMutex := none }.record
          (monitorRecord command.channelName activate s.state.manager r.1 ++
            [ThreadEvent.complete i command]))
  | .finished => none

/-- The next step of the scheduler, if it does not have to wait. -/
def advanceScan (platform : Platform) (keptOut : Bool) (alive : ℕ → Bool) (s : Shared) :
    ScanPoint → Option (ScanPoint × Shared)
  | .sleeping =>
    if s.channelMapMutex = none then
      some (.scanning s.state.manager.channelMap.keys,
        { s with channelMapMutex := some .scheduler })
    else none
  | .scanning [] => some (.sleeping, { s with channelMapMutex := none })
  | .scanning (name :: rest) =>
    match s.state.manager.channelMap[name]? with
    | none => some (.scanning rest, s)
    | some ch =>
      let receivedEvent := ch.monitor.1
      let m := s.state.manager.monitored name
      if receivedEvent.length = 0 ∨ m.handlerBroadcaster.targets.length = 0 then
        some (.scanning rest, { s with state := { s.state with manager := m } })
      else
        let b := m.handlerBroadcaster.purge alive
        some (.calling receivedEvent b.targets rest,
          { s with state := { s.state with manager := { m with handlerBroadcaster := b } } })
  | .calling _ [] rest => some (.scanning rest, s)
  | .calling eventData (wp :: targets) rest =>
    if alive wp then
      if wp = platform.worker then
        (s.channelMapMtx.lockShared keptOut).map fun mtx ↦
          (.handling eventData targets rest,
            { s with channelMapMtx := mtx }.record [.handled wp eventData])
      else some (.calling eventData targets rest, s.record [.handled wp eventData])
    else some (.calling eventData targets rest, s)
  | .handling eventData targets rest =>
    let r := epicsMonitorEvent (logPublisher platform.reply) eventData
      ⟨s.state.channelTopicsMap, s.log⟩
    some (.calling eventData targets rest,
      { s with
        state := { s.state with channelTopicsMap := r.channelTopicsMap }
        channelMapMtx := s.channelMapMtx.unlockShared
        log := r.publisher })

/-- The threads, and what they share. -/
structure Threads where
  tasks : List (AquireCommand × TaskPoint)
  scan : ScanPoint
  shared : Shared

/-- A step of a thread, or of the client library. -/
inductive ThreadStep
  /-- Task `i` goes on; `failure` is what fails if it sets a channel up. -/
  | task (i : ℕ) (failure : Option SetupFailure)
  /-- The scheduler goes on; `alive` are the handlers whose token is still held. -/
  | scheduler (alive : ℕ → Bool)
  /-- There is something to report on a channel. -/
  | arrive (channelName : String) (mon : MonitorSync)

namespace Threads

/-- None of the tasks has started, and the scheduler sleeps. -/
def start (manager : EpicsServiceManager) (commands : List AquireCommand) : Threads where
  tasks := commands.map fun command ↦ (command, .queued)
  scan := .sleeping
  shared := { state := { manager }, changes := fun _ ↦ [], channelMapMutex := none,
              channelMapMtx := {}, log := [] }

/-- A task waits for `channel_map_mtx`. -/
def writerWaits (σ : Threads) : Bool := σ.tasks.any fun task ↦ task.2.waits

/-- One step. -/
def step (platform : Platform) (σ : Threads) : ThreadStep → Option Threads
  | .task i failure =>
    (σ.tasks[i]?).bind fun task ↦
      (advanceTask platform i task.1 failure σ.shared task.2).map fun r ↦
        { σ with tasks := σ.tasks.set i (task.1, r.1), shared := r.2 }
  | .scheduler alive =>
    (advanceScan platform (platform.prefersWriters && σ.writerWaits) alive σ.shared σ.scan).map
      fun r ↦ { σ with scan := r.1, shared := r.2 }
  | .arrive channelName mon =>
    some { σ with shared := { σ.shared with
      state := { σ.shared.state with
        manager := σ.shared.state.manager.announce channelName mon } } }

variable {platform : Platform} {σ τ : Threads} {i j : ℕ} {command : AquireCommand}
  {failure : Option SetupFailure} {alive : ℕ → Bool} {s s' : Shared} {point point' : TaskPoint}
  {scan scan' : ScanPoint} {keptOut : Bool}

/-! ## One step -/

theorem step_task_eq_some :
    step platform σ (.task i failure) = some τ ↔
      ∃ command point point' s, σ.tasks[i]? = some (command, point) ∧
        advanceTask platform i command failure σ.shared point = some (point', s) ∧
        τ = { σ with tasks := σ.tasks.set i (command, point'), shared := s } := by
  simp only [step, Option.bind_eq_some_iff, Option.map_eq_some_iff, Prod.exists]
  constructor
  · rintro ⟨command, point, htask, point', s, hadv, rfl⟩
    exact ⟨command, point, point', s, htask, hadv, rfl⟩
  · rintro ⟨command, point, point', s, htask, hadv, rfl⟩
    exact ⟨command, point, htask, point', s, hadv, rfl⟩

theorem step_scheduler_eq_some :
    step platform σ (.scheduler alive) = some τ ↔
      ∃ scan s, advanceScan platform (platform.prefersWriters && σ.writerWaits) alive σ.shared
          σ.scan = some (scan, s) ∧
        τ = { σ with scan, shared := s } := by
  simp only [step, Option.map_eq_some_iff, Prod.exists]
  constructor
  · rintro ⟨scan, s, hadv, rfl⟩
    exact ⟨scan, s, hadv, rfl⟩
  · rintro ⟨scan, s, hadv, rfl⟩
    exact ⟨scan, s, hadv, rfl⟩

/-- The lookup at the start of a task. -/
theorem advanceTask_queued (platform : Platform) (i : ℕ) (command : AquireCommand)
    (failure : Option SetupFailure) (s : Shared) :
    advanceTask platform i command failure s .queued =
      some (if command.activate then
          if command.destinationTopic ∈ s.topics command.channelName then .updated else .absent
        else
          if command.destinationTopic ∈ s.topics command.channelName then
            .present ⟨(s.topics command.channelName).idxOf command.destinationTopic,
              (s.changes command.channelName).length⟩
          else .updated,
        { s with
          state := { s.state with
            channelTopicsMap := s.state.channelTopicsMap.lookup command.channelName }
          log := s.log ++ [.lookup i command
            (decide (command.destinationTopic ∈ s.topics command.channelName))] }) := by
  simp only [advanceTask, ChannelTopicsMap.topics_lookup, decide_eq_true_eq]
  rfl

/-- Where a task only takes a mutex or reads a size, nothing but the mutexes changes. -/
theorem shared_advanceTask (h : advanceTask platform i command failure s point = some (point', s'))
    (hpoint : point.readsOnly = true) :
    s'.state = s.state ∧ s'.changes = s.changes ∧ s'.log = s.log := by
  cases point with
  | absent | present itr =>
    obtain ⟨mtx, -, heq⟩ := Option.map_eq_some_iff.mp h
    cases heq
    exact ⟨rfl, rfl, rfl⟩
  | updated =>
    cases h
    exact ⟨rfl, rfl, rfl⟩
  | decided activate =>
    simp only [advanceTask, Option.ite_none_right_eq_some, Option.some_inj, Prod.mk.injEq] at h
    obtain ⟨-, -, rfl⟩ := h
    exact ⟨rfl, rfl, rfl⟩
  | finished => cases h
  | _ => cases hpoint

/-- What a step of the scheduler at a point of its scan does, with the entries `events` that it
makes in the log: the topic lists and the set of the channels stay, handlers are called with what
the scan has at hand, and a message is pushed for a topic that is subscribed. -/
structure ScanEffect (scan : ScanPoint) (s s' : Shared) (events : List ThreadEvent) : Prop where
  topics : s'.topics = s.topics
  changes : s'.changes = s.changes
  mem_channelMap : ∀ c, c ∈ s'.state.manager.channelMap ↔ c ∈ s.state.manager.channelMap
  log : s'.log = s.log ++ events
  mem_events : ∀ e ∈ events,
    (∃ wp eventData targets rest, scan = .calling eventData (wp :: targets) rest ∧
      e = .handled wp eventData) ∨
    ∃ message, e = .published message ∧ message.queue ∈ s.topics message.distributionKey

theorem ScanEffect.of_state_eq (scan : ScanPoint) {s s' : Shared} (hstate : s'.state = s.state)
    (hchanges : s'.changes = s.changes) (hlog : s'.log = s.log) : ScanEffect scan s s' [] where
  topics := Shared.topics_congr hstate
  changes := hchanges
  mem_channelMap c := by rw [hstate]
  log := by rw [hlog, List.append_nil]
  mem_events := by simp

/-- The messages of an event go to topics that are subscribed for its channel. -/
theorem queue_mem_of_mem_eventMessages {topics : String → List String} {e : MonitorEvent}
    {message : PublishMessage} (h : message ∈ eventMessages topics e) :
    message.queue ∈ topics message.distributionKey := by
  rw [eventMessages] at h
  split at h
  · obtain ⟨topic, htopic, rfl⟩ := List.mem_map.mp h
    exact htopic
  · cases h

theorem exists_scanEffect (h : advanceScan platform keptOut alive s scan = some (scan', s')) :
    ∃ events, ScanEffect scan s s' events := by
  cases scan with
  | sleeping =>
    simp only [advanceScan, Option.ite_none_right_eq_some, Option.some_inj, Prod.mk.injEq] at h
    obtain ⟨-, -, rfl⟩ := h
    exact ⟨[], .of_state_eq _ rfl rfl rfl⟩
  | scanning rest =>
    cases rest with
    | nil =>
      cases h
      exact ⟨[], .of_state_eq _ rfl rfl rfl⟩
    | cons name rest =>
      simp only [advanceScan] at h
      split at h
      · cases h
        exact ⟨[], .of_state_eq _ rfl rfl rfl⟩
      · split at h <;> cases h <;>
          exact ⟨[], rfl, rfl, EpicsServiceManager.mem_withMon _ _ _, (List.append_nil _).symm,
            by simp⟩
  | calling eventData targets rest =>
    cases targets with
    | nil =>
      cases h
      exact ⟨[], .of_state_eq _ rfl rfl rfl⟩
    | cons wp targets =>
      simp only [advanceScan] at h
      split at h
      · split at h
        · obtain ⟨mtx, -, heq⟩ := Option.map_eq_some_iff.mp h
          cases heq
          exact ⟨[.handled wp eventData], rfl, rfl, fun _ ↦ Iff.rfl, rfl, by simp⟩
        · cases h
          exact ⟨[.handled wp eventData], rfl, rfl, fun _ ↦ Iff.rfl, rfl, by simp⟩
      · cases h
        exact ⟨[], .of_state_eq _ rfl rfl rfl⟩
  | handling eventData targets rest =>
    cases h
    obtain ⟨hpublisher, htopics⟩ := epicsMonitorEvent_spec (logPublisher platform.reply) eventData
      ⟨s.state.channelTopicsMap, s.log⟩
    refine ⟨(eventData.flatMap (eventMessages s.topics)).map .published, htopics, rfl,
      fun _ ↦ Iff.rfl, hpublisher.trans (pushAll_logPublisher _ _ _), fun e he ↦ Or.inr ?_⟩
    obtain ⟨message, hmessage, rfl⟩ := List.mem_map.mp he
    obtain ⟨_, -, hmem⟩ := List.mem_flatMap.mp hmessage
    exact ⟨message, rfl, queue_mem_of_mem_eventMessages hmem⟩

/-- Every step extends the log. -/
theorem log_prefix_of_step (a : ThreadStep) (h : step platform σ a = some τ) :
    σ.shared.log <+: τ.shared.log := by
  cases a with
  | task i failure =>
    obtain ⟨command, point, point', s, -, hadv, rfl⟩ := step_task_eq_some.mp h
    cases point with
    | absent | present itr | updated | decided activate | finished =>
      obtain ⟨-, -, hlog⟩ := shared_advanceTask hadv rfl
      exact ⟨[], by rw [List.append_nil, hlog]⟩
    | _ =>
      cases hadv
      exact List.prefix_append _ _
  | scheduler alive =>
    obtain ⟨scan, s, hadv, rfl⟩ := step_scheduler_eq_some.mp h
    obtain ⟨events, heffect⟩ := exists_scanEffect hadv
    exact ⟨events, heffect.log.symm⟩
  | arrive channelName mon =>
    cases h
    exact List.prefix_refl _

/-- The point that task `i` is at. -/
def point? (σ : Threads) (i : ℕ) : Option TaskPoint := (σ.tasks[i]?).map Prod.snd

theorem point?_set (h : σ.tasks[i]? = some (command, point)) (scan : ScanPoint) (s : Shared)
    (j : ℕ) :
    point? ⟨σ.tasks.set i (command, point'), scan, s⟩ j =
      if i = j then some point' else σ.point? j := by
  have hi := (List.getElem?_eq_some_iff.mp h).1
  simp only [point?, List.getElem?_set, hi, if_true]
  split <;> rfl

/-! ## A task without interruption -/

section Uninterrupted

variable {tasks : List (AquireCommand × TaskPoint)} {sched : List ThreadStep}

theorem run_cons_task (hi : i < tasks.length)
    (hadv : advanceTask platform i command failure s point = some (point', s')) :
    run (step platform) ⟨tasks.set i (command, point), scan, s⟩ (.task i failure :: sched) =
      run (step platform) ⟨tasks.set i (command, point'), scan, s'⟩ sched := by
  have htask : (tasks.set i (command, point))[i]? = some (command, point) :=
    List.getElem?_set_self hi
  rw [run_cons, step, htask, Option.bind_some, hadv, Option.map_some, Option.bind_some,
    List.set_set]

variable (platform command failure scan)

/-- From the read of the size to the end. -/
theorem run_updated (hi : i < tasks.length) (hmutex : s.channelMapMutex = none) :
    ∃ s', run (step platform) ⟨tasks.set i (command, .updated), scan, s⟩
        (List.replicate 3 (.task i failure)) =
          some ⟨tasks.set i (command, .finished), scan, s'⟩ ∧
      s'.state = { s.state with
        manager := (s.state.manager.monitorChannel failure command.channelName
          (s.state.channelTopicsMap.needed command.channelName)).1 } := by
  have hdecided : ∀ activate, advanceTask platform i command failure s (.decided activate) =
      some (.monitoring activate, { s with channelMapMutex := some (.task i) }) :=
    fun activate ↦ if_pos hmutex
  exact ⟨_, (run_cons_task hi rfl).trans ((run_cons_task hi (hdecided _)).trans
    ((run_cons_task hi rfl).trans rfl)), rfl⟩

/-- From the lock to the `push_back`. -/
theorem run_absent (hi : i < tasks.length) (hmtx : s.channelMapMtx = {}) :
    ∃ s', run (step platform) ⟨tasks.set i (command, .absent), scan, s⟩
        (List.replicate 2 (.task i failure)) =
          some ⟨tasks.set i (command, .updated), scan, s'⟩ ∧
      s'.state = { s.state with
        channelTopicsMap := s.state.channelTopicsMap.insert command.channelName
          (s.topics command.channelName ++ [command.destinationTopic]) } ∧
      s'.channelMapMutex = s.channelMapMutex := by
  have hlock : advanceTask platform i command failure s .absent =
      some (.pushing, { s with channelMapMtx := { writer := some (.task i) } }) := by
    rw [advanceTask, hmtx]
    rfl
  obtain ⟨s', hs', hpush⟩ : ∃ s', s' = _ ∧ advanceTask platform i command failure
      { s with channelMapMtx := { writer := some (.task i) } } .pushing = some (.updated, s') :=
    ⟨_, rfl, rfl⟩
  refine ⟨s', (run_cons_task hi hlock).trans (run_cons_task hi hpush), ?_, ?_⟩ <;> rw [hs'] <;> rfl

/-- From the lock to the `erase`. -/
theorem run_present {itr : VectorIterator} (hi : i < tasks.length) (hmtx : s.channelMapMtx = {})
    (hvalid : itr.valid (s.changes command.channelName) = true) :
    ∃ s', run (step platform) ⟨tasks.set i (command, .present itr), scan, s⟩
        (List.replicate 2 (.task i failure)) =
          some ⟨tasks.set i (command, .updated), scan, s'⟩ ∧
      s'.state = { s.state with
        channelTopicsMap := s.state.channelTopicsMap.insert command.channelName
          ((s.topics command.channelName).eraseIdx itr.position) } ∧
      s'.channelMapMutex = s.channelMapMutex := by
  have hlock : advanceTask platform i command failure s (.present itr) =
      some (.erasing itr, { s with channelMapMtx := { writer := some (.task i) } }) := by
    rw [advanceTask, hmtx]
    rfl
  obtain ⟨s', hs', herase⟩ : ∃ s', s' = _ ∧ advanceTask platform i command failure
      { s with channelMapMtx := { writer := some (.task i) } } (.erasing itr) =
        some (.updated, s') :=
    ⟨_, rfl, rfl⟩
  refine ⟨s', (run_cons_task hi hlock).trans (run_cons_task hi herase), ?_, ?_⟩
  · rw [hs']
    simp only [hvalid, if_true]
    rfl
  · rw [hs']
    rfl

/-- From the lookup to the read of the size. -/
theorem run_queued (hi : i < tasks.length) (hmtx : s.channelMapMtx = {}) :
    ∃ n s', run (step platform) ⟨tasks.set i (command, .queued), scan, s⟩
        (List.replicate n (.task i failure)) =
          some ⟨tasks.set i (command, .updated), scan, s'⟩ ∧
      s'.state = { s.state with channelTopicsMap := s.state.channelTopicsMap.update command } ∧
      s'.channelMapMutex = s.channelMapMutex := by
  have hlookup : ∀ c, (s.state.channelTopicsMap.lookup command.channelName).topics c =
      s.topics c := fun c ↦ ChannelTopicsMap.topics_lookup _ _
  have hqueued := advanceTask_queued platform i command failure s
  generalize hs₁ : Shared.mk _ _ _ _ _ = s₁ at hqueued
  have hmtx₁ : s₁.channelMapMtx = {} := by rw [← hs₁]; exact hmtx
  have htopics : s₁.topics command.channelName = s.topics command.channelName := by
    rw [← hs₁]
    exact hlookup _
  simp only [ChannelTopicsMap.update, hlookup]
  split at hqueued <;> split at hqueued <;> rename_i hactivate hmem
  · rw [if_pos hactivate, if_pos hmem]
    exact ⟨1, s₁, run_cons_task hi hqueued, by rw [← hs₁], by rw [← hs₁]⟩
  · rw [if_pos hactivate, if_neg hmem]
    obtain ⟨s', hrun, hstate, hmutex⟩ := run_absent platform command failure scan hi hmtx₁
    refine ⟨3, s', (run_cons_task hi hqueued).trans hrun, ?_, ?_⟩
    · rw [hstate, htopics, ← hs₁]
    · rw [hmutex, ← hs₁]
  · rw [if_neg hactivate, if_pos hmem]
    generalize hitr : VectorIterator.mk _ _ = itr at hqueued
    have hvalid : itr.valid (s₁.changes command.channelName) = true := by
      rw [← hitr, ← hs₁]
      simp [VectorIterator.valid]
    obtain ⟨s', hrun, hstate, hmutex⟩ :=
      run_present platform command failure scan hi hmtx₁ hvalid
    refine ⟨3, s', (run_cons_task hi hqueued).trans hrun, ?_, ?_⟩
    · rw [hstate, htopics, ← hitr, ← hs₁, List.erase_eq_eraseIdx_of_idxOf rfl]
    · rw [hmutex, ← hs₁]
  · rw [if_neg hactivate, if_neg hmem]
    exact ⟨1, s₁, run_cons_task hi hqueued, by rw [← hs₁], by rw [← hs₁]⟩

end Uninterrupted

/-- **A task that is not interrupted is `acquireManagement`.** -/
theorem run_task (htask : σ.tasks[i]? = some (command, .queued))
    (hmutex : σ.shared.channelMapMutex = none) (hmtx : σ.shared.channelMapMtx = {}) :
    ∃ n s, run (step platform) σ (List.replicate n (.task i failure)) =
        some { σ with tasks := σ.tasks.set i (command, .finished), shared := s } ∧
      s.state = (acquireManagement failure command σ.shared.state).1 := by
  obtain ⟨hi, hget⟩ := List.getElem?_eq_some_iff.mp htask
  obtain ⟨n, s, hrun, hstate, hmutex'⟩ := run_queued platform command failure σ.scan hi hmtx
  obtain ⟨s', hrun', hstate'⟩ :=
    run_updated platform command failure σ.scan hi (hmutex'.trans hmutex)
  refine ⟨n + 3, s', ?_, ?_⟩
  · rw [← hget, List.set_getElem_self] at hrun
    rw [List.replicate_add, run_append, hrun, Option.bind_some, hrun']
  · rw [hstate', hstate]
    rfl

end Threads

end Ekg
