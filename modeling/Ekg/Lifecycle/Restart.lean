import Mathlib.Data.List.InsertIdx
import Mathlib.Data.List.Perm.Basic
import Ekg.Command.CommitOffsets
import Ekg.Node.Serial

/-!
# The gateway over its restarts

`EKGateway::commandReceived` gives the commands of a batch to the node, which puts a task into the
pool for each monitor command.  A process that dies takes the pool and the topic lists with it.
What is left is the offset that the broker has stored, from which the next process reads on, and the
table of channel monitors.  The next process opens the table again, but does not go over it: nothing
calls `iterateAllChannelMonitor`.

A task that throws ends the process too: nothing in `BS::thread_pool::worker` catches what a task
throws.

The topics of a process are those of the messages since it began (`mem_topics_of_run`), and the
table has the monitors of all messages that any process has handled, each once
(`mem_triples_of_run`).
`unnoticed_iff` says which restarts make no difference, and `executed_iff` which deaths lose no
command: the commit comes when the tasks are in the pool, not when they have been executed.  A
channel that cannot be opened takes every process with it that gets to its activation
(`notMem_ran_of_setupFailure`).
-/

set_option autoImplicit false

namespace Ekg

open Steps LastWrite

/-- The gateway, from process to process. -/
structure Deployment where
  /-- The broker, the consumer of the process, and what they have done. -/
  offsets : CommitState
  /-- The node; without a process, what is left of it. -/
  node : NodeController
  /-- The offset at which the last process began. -/
  began : ℕ
  /-- Some process has handled the messages up to here. -/
  reached : ℕ
  /-- The messages whose tasks are in the pool, oldest first. -/
  waiting : List ℕ
  /-- The messages whose tasks some process has executed. -/
  ran : List ℕ

/-- The steps of the process, of the broker, and of the world. -/
inductive DeploymentStep
  /-- `getMsg` returns this many messages. -/
  | getMsg (count : ℕ)
  /-- `commandReceived` is called, if there is a command, and may throw after some of them. -/
  | handle (throwsAfter : Option ℕ)
  /-- `commit()` is called, and throws or returns. -/
  | commit (fails : Bool)
  /-- A thread of the pool executes one of the tasks; `failure` is what fails if it sets a channel
  up. -/
  | task (i : ℕ) (failure : Option SetupFailure)
  | store
  | crash
  | restart
  deriving DecidableEq, Repr

namespace Deployment

/-- No process is running yet, the table is empty, and the broker has an offset for the group. -/
def start (stored : ℕ) : Deployment := ⟨.start stored, {}, stored, stored, [], []⟩

/-- What is left when the process dies. -/
def died (σ : Deployment) (offsets : CommitState) : Deployment :=
  { σ with offsets, node := { storage := σ.node.storage }, waiting := [] }

/-- Some commands with their messages are given to the node. -/
def submit (σ : Deployment) (offsets : CommitState) (received : List (ℕ × Command)) : Deployment :=
  { σ with
    offsets
    node := σ.node.submitCommand (received.map Prod.snd)
    waiting := σ.waiting ++ received.filterMap fun entry ↦ entry.2.monitor?.map fun _ ↦ entry.1 }

variable (parser : MessageParser) (queue : ℕ → SubscriberInterfaceElement)

/-- The commands of the messages from `first` to below `last`, with the messages. -/
def received (first last : ℕ) : List (ℕ × Command) :=
  (List.range' first (last - first)).filterMap fun n ↦ (parser.decode (queue n)).map (n, ·)

/-- The monitor command of a message, if it is one. -/
def monitorAt (n : ℕ) : Option AquireCommand :=
  (parser.decode (queue n)).bind Command.monitor?

/-- The monitor commands of the messages from `first` to below `last`. -/
def monitorsBetween (first last : ℕ) : List AquireCommand :=
  (List.range' first (last - first)).filterMap (monitorAt parser queue)

/-- One step. -/
def step (σ : Deployment) : DeploymentStep → Option Deployment
  | .getMsg count =>
    (CommitState.step parser queue σ.offsets (.getMsg count)).map fun offsets ↦
      { σ with offsets }
  | .handle throwsAfter =>
    match σ.offsets.process with
    | some ⟨position, .fetched first⟩ =>
      let resultVec := received parser queue first position
      (CommitState.step parser queue σ.offsets (.handle throwsAfter.isSome)).map fun offsets ↦
        match throwsAfter with
        | some n => σ.submit offsets (resultVec.take n)
        | none => { σ.submit offsets resultVec with reached := max σ.reached position }
    | _ => none
  | .commit fails =>
    (CommitState.step parser queue σ.offsets (.commit fails)).map fun offsets ↦
      { σ with offsets }
  | .task i failure =>
    match σ.node.queue[i]? with
    | none => none
    | some command =>
      match acquireManagement failure command σ.node.state with
      | (state, .ok ()) =>
        some { σ with
          node := { σ.node with queue := σ.node.queue.eraseIdx i, state }
          waiting := σ.waiting.eraseIdx i
          ran := σ.ran ++ σ.waiting[i]?.toList }
      -- the exception leaves the function of the thread
      | (_, .error _) => (CommitState.step parser queue σ.offsets .crash).map σ.died
  | .store =>
    (CommitState.step parser queue σ.offsets .store).map fun offsets ↦ { σ with offsets }
  | .crash => (CommitState.step parser queue σ.offsets .crash).map σ.died
  | .restart =>
    (CommitState.step parser queue σ.offsets .restart).map fun offsets ↦
      { σ with offsets, began := σ.offsets.broker.stored }

variable {parser queue} {stored a b n : ℕ} {σ τ : Deployment} {act : DeploymentStep}
  {acts : List DeploymentStep}

/-! ## The messages that a process has handled -/

/-- The process has handled the messages below this offset. -/
def handledBelow (p : ConsumeProcess) : ℕ :=
  match p.point with
  | .fetched first => first
  | .top | .handled _ => p.position

theorem monitorsBetween_self : monitorsBetween parser queue a a = [] := by
  rw [monitorsBetween, Nat.sub_self]
  rfl

/-- Messages that follow each other. -/
theorem monitorsBetween_append (hab : a ≤ b) (hbn : b ≤ n) :
    monitorsBetween parser queue a b ++ monitorsBetween parser queue b n =
      monitorsBetween parser queue a n := by
  have hrange : List.range' a (b - a) ++ List.range' b (n - b) = List.range' a (n - a) := by
    have h := List.range'_append_1 (s := a) (m := b - a) (n := n - b)
    rw [show a + (b - a) = b by omega, show b - a + (n - b) = n - a by omega] at h
    exact h
  rw [monitorsBetween, monitorsBetween, monitorsBetween, ← List.filterMap_append, hrange]

theorem mem_monitorsBetween {command : AquireCommand} :
    command ∈ monitorsBetween parser queue a b ↔
      ∃ offset, a ≤ offset ∧ offset < b ∧ monitorAt parser queue offset = some command := by
  simp only [monitorsBetween, List.mem_filterMap, List.mem_range'_1]
  constructor
  · rintro ⟨offset, ⟨hlow, hhigh⟩, hmonitor⟩
    exact ⟨offset, hlow, by omega, hmonitor⟩
  · rintro ⟨offset, hlow, hhigh, hmonitor⟩
    exact ⟨offset, ⟨hlow, by omega⟩, hmonitor⟩

/-- The monitor commands of a batch. -/
theorem filterMap_received :
    ((received parser queue a b).map Prod.snd).filterMap Command.monitor? =
      monitorsBetween parser queue a b := by
  rw [received, monitorsBetween, List.map_filterMap, List.filterMap_filterMap]
  refine List.filterMap_congr fun n _ ↦ ?_
  rw [monitorAt]
  cases parser.decode (queue n) <;> rfl

/-- The messages of a batch for which there is a task. -/
theorem filterMap_received_fst :
    (received parser queue a b).filterMap (fun entry ↦ entry.2.monitor?.map fun _ ↦ entry.1) =
      (List.range' a (b - a)).filter fun n ↦ (monitorAt parser queue n).isSome := by
  rw [received, List.filterMap_filterMap, ← List.filterMap_eq_filter]
  refine List.filterMap_congr fun n _ ↦ ?_
  simp only [Option.guard, monitorAt]
  rcases Option.eq_none_or_eq_some (parser.decode (queue n)) with hdecode | ⟨command, hdecode⟩
  · simp [hdecode]
  · cases h : command.monitor? <;> simp [hdecode, h]

theorem map_monitorAt_filter (ns : List ℕ) :
    (ns.filter fun n ↦ (monitorAt parser queue n).isSome).map (monitorAt parser queue) =
      (ns.filterMap (monitorAt parser queue)).map some := by
  induction ns with
  | nil => rfl
  | cons n ns ih => cases h : monitorAt parser queue n <;> simp [h, ih]

/-! ## One step -/

variable {ω ω' : CommitState} {failure : Option SetupFailure} {s s' : AcquireState}
  {command : AquireCommand}

/-- A task that does not throw is one on which `addChannel` does not fail. -/
theorem eq_acquire_of_ok (h : acquireManagement failure command s = (s', .ok ())) :
    s' = acquire s command := by
  obtain ⟨rfl, hok⟩ := Prod.mk.inj h
  simp only [acquire, acquireManagement] at hok ⊢
  congr 1
  rw [EpicsServiceManager.monitorChannel] at hok ⊢
  rw [EpicsServiceManager.monitorChannel]
  split
  · rename_i hneeded
    rw [if_pos hneeded] at hok
    cases failure with
    | none => rfl
    | some f =>
      have hmem := EpicsServiceManager.mem_of_addChannel_some hok
      rw [EpicsServiceManager.addChannel_of_mem hmem, EpicsServiceManager.addChannel_of_mem hmem]
  · rfl

theorem getMsg_eq_some (h : CommitState.step parser queue ω (.getMsg n) = some ω') :
    ω'.broker = ω.broker ∧ ∃ p p', ω.process = some p ∧ ω'.process = some p' ∧
      handledBelow p' = handledBelow p ∧ handledBelow p' ≤ p'.position := by
  rw [CommitState.step] at h
  split at h
  · rename_i position hprocess
    split at h
    · cases h
      exact ⟨rfl, _, _, hprocess, hprocess, rfl, Nat.le_refl _⟩
    · cases h
      exact ⟨rfl, _, _, hprocess, rfl, rfl, Nat.le_add_right _ _⟩
  · cases h

theorem handle_eq_some (h : CommitState.step parser queue ω (.handle false) = some ω') :
    ω'.broker = ω.broker ∧ ∃ position first, ω.process = some ⟨position, .fetched first⟩ ∧
      ω'.process = some ⟨position, .handled first⟩ := by
  rw [CommitState.step] at h
  split at h
  · rename_i position first hprocess
    dsimp only at h
    split at h
    · cases h
      exact ⟨rfl, _, _, hprocess, rfl⟩
    · cases h
      exact ⟨rfl, _, _, hprocess, rfl⟩
  · cases h

theorem commit_eq_some {fails : Bool}
    (h : CommitState.step parser queue ω (.commit fails) = some ω') :
    ∃ position first, ω.process = some ⟨position, .handled first⟩ ∧
      ω'.process = some ⟨position, .top⟩ ∧ ω'.broker.stored = ω.broker.stored ∧
      (ω'.broker.inFlight = ω.broker.inFlight ∨
        ω'.broker.inFlight = ω.broker.inFlight ++ [position]) := by
  rw [CommitState.step] at h
  split at h
  · rename_i position first hprocess
    cases fails with
    | true =>
      cases h
      exact ⟨_, _, hprocess, rfl, rfl, Or.inl rfl⟩
    | false =>
      cases h
      exact ⟨_, _, hprocess, rfl, rfl, Or.inr rfl⟩
  · cases h

theorem store_eq_some (h : CommitState.step parser queue ω .store = some ω') :
    ω'.process = ω.process ∧ ω.broker.inFlight = ω'.broker.stored :: ω'.broker.inFlight := by
  obtain ⟨broker, hbroker, rfl⟩ := Option.map_eq_some_iff.mp h
  rw [BrokerOffsets.store] at hbroker
  split at hbroker
  · cases hbroker
  · rename_i offset rest hinFlight
    cases hbroker
    exact ⟨rfl, hinFlight⟩

theorem crash_eq_some (h : CommitState.step parser queue ω .crash = some ω') :
    ω.process ≠ none ∧ ω'.process = none ∧ ω'.broker = { ω.broker with inFlight := [] } := by
  rw [CommitState.step] at h
  split at h
  · rename_i p hprocess
    cases h
    exact ⟨by simp [hprocess], rfl, rfl⟩
  · cases h

theorem restart_eq_some (h : CommitState.step parser queue ω .restart = some ω') :
    ω.process = none ∧ ω'.process = some ⟨ω.broker.stored, .top⟩ ∧ ω'.broker = ω.broker := by
  rw [CommitState.step] at h
  split at h
  · cases h
  · rename_i hprocess
    cases h
    exact ⟨hprocess, rfl, rfl⟩

/-! ## The invariant -/

/-- What holds of a process that runs. -/
structure Running (parser : MessageParser) (queue : ℕ → SubscriberInterfaceElement)
    (σ : Deployment) (p : ConsumeProcess) : Prop where
  began : σ.began ≤ handledBelow p
  position : handledBelow p ≤ p.position
  reached : handledBelow p ≤ σ.reached
  requested : ∀ offset ∈ σ.offsets.broker.stored :: σ.offsets.broker.inFlight,
    offset ≤ handledBelow p
  /-- None of its tasks has failed. -/
  state : ∃ done, σ.node.state = acquireAll {} done

/-- What holds at every point of a run whose handler does not throw. -/
structure Inv (parser : MessageParser) (queue : ℕ → SubscriberInterfaceElement) (stored : ℕ)
    (σ : Deployment) : Prop where
  began : stored ≤ σ.began
  broker : stored ≤ σ.offsets.broker.stored ∧ σ.offsets.broker.stored ≤ σ.reached
  ordered : (σ.offsets.broker.stored :: σ.offsets.broker.inFlight).Pairwise (· ≤ ·)
  running : ∀ p, σ.offsets.process = some p → Running parser queue σ p
  down : σ.offsets.process = none → σ.node.state = {} ∧ σ.node.queue = [] ∧ σ.waiting = [] ∧
    σ.offsets.broker.inFlight = []
  pool : σ.waiting.map (monitorAt parser queue) = σ.node.queue.map some ∧
    ∀ n ∈ σ.waiting, stored ≤ n
  table : ∀ k, k ∈ σ.node.storage.triples ↔
    ∃ command ∈ monitorsBetween parser queue stored σ.reached, command.triple = k
  distinct : (σ.node.storage.rows.map ChannelMonitorType.triple).Nodup

theorem inv_start (stored : ℕ) : Inv parser queue stored (start stored) where
  began := Nat.le_refl _
  broker := ⟨Nat.le_refl _, Nat.le_refl _⟩
  ordered := List.pairwise_singleton _ _
  running p hp := by cases hp
  down _ := ⟨rfl, rfl, rfl, rfl⟩
  pool := ⟨rfl, by simp [start]⟩
  table k := by simp [start, monitorsBetween_self]
  distinct := List.nodup_nil

variable {p : ConsumeProcess} {first position : ℕ}

theorem Inv.getMsg (h : Inv parser queue stored σ)
    (hstep : CommitState.step parser queue σ.offsets (.getMsg n) = some ω) :
    Inv parser queue stored { σ with offsets := ω } := by
  obtain ⟨hbroker, p, p', hp, hp', hhandled, hposition⟩ := getMsg_eq_some hstep
  have hrunning := h.running p hp
  refine ⟨h.began, hbroker ▸ h.broker, hbroker ▸ h.ordered, fun q hq ↦ ?_, fun hnone ↦ ?_, h.pool,
    h.table, h.distinct⟩
  · obtain rfl := Option.some_inj.mp (hp'.symm.trans hq)
    refine ⟨hhandled ▸ hrunning.began, hposition, hhandled ▸ hrunning.reached, ?_,
      hrunning.state⟩
    rw [hbroker, hhandled]
    exact hrunning.requested
  · rw [hp'] at hnone
    cases hnone

/-- The table after a batch that begins below what was handled before. -/
theorem mem_triples_submitCommand {node : NodeController} {reached : ℕ} (hstored : stored ≤ first)
    (hfirst : first ≤ reached)
    (htable : ∀ k, k ∈ node.storage.triples ↔
      ∃ command ∈ monitorsBetween parser queue stored reached, command.triple = k) (k : Triple) :
    k ∈ (node.submitCommand
        ((received parser queue first position).map Prod.snd)).storage.triples ↔
      ∃ command ∈ monitorsBetween parser queue stored (max reached position),
        command.triple = k := by
  rw [NodeController.storage_submitCommand, mem_triples_foldl_configure, filterMap_received, htable]
  simp only [mem_monitorsBetween]
  constructor
  · rintro (⟨command, ⟨offset, hlow, hhigh, hmonitor⟩, rfl⟩ |
      ⟨command, ⟨offset, hlow, hhigh, hmonitor⟩, rfl⟩)
    · exact ⟨command, ⟨offset, by omega, by omega, hmonitor⟩, rfl⟩
    · exact ⟨command, ⟨offset, by omega, by omega, hmonitor⟩, rfl⟩
  · rintro ⟨command, ⟨offset, hlow, hhigh, hmonitor⟩, rfl⟩
    rcases Nat.lt_or_ge offset reached with hlt | hge
    · exact Or.inr ⟨command, ⟨offset, hlow, hlt, hmonitor⟩, rfl⟩
    · exact Or.inl ⟨command, ⟨offset, by omega, by omega, hmonitor⟩, rfl⟩

theorem Inv.handle (h : Inv parser queue stored σ)
    (hp : σ.offsets.process = some ⟨position, .fetched first⟩)
    (hstep : CommitState.step parser queue σ.offsets (.handle false) = some ω) :
    Inv parser queue stored { σ.submit ω (received parser queue first position) with
      reached := max σ.reached position } := by
  obtain ⟨hbroker, position', first', hp', hp''⟩ := handle_eq_some hstep
  cases Option.some_inj.mp (hp.symm.trans hp')
  obtain ⟨hbegan, hposition, hreached, hrequested, done, hstate⟩ := h.running _ hp
  dsimp only [handledBelow] at hbegan hposition hreached hrequested
  refine ⟨h.began, ?_, hbroker ▸ h.ordered, fun q hq ↦ ?_, fun hnone ↦ ?_, ⟨?_, ?_⟩, ?_, ?_⟩
  · rw [show (σ.submit ω _).offsets = ω from rfl, hbroker]
    exact ⟨h.broker.1, Nat.le_trans h.broker.2 (Nat.le_max_left _ _)⟩
  · obtain rfl := Option.some_inj.mp (hp''.symm.trans hq)
    refine ⟨Nat.le_trans hbegan hposition, Nat.le_refl _, Nat.le_max_right _ _,
      fun offset hmem ↦ ?_, done, (NodeController.state_submitCommand _ _).trans hstate⟩
    rw [show (σ.submit ω _).offsets = ω from rfl, hbroker] at hmem
    exact Nat.le_trans (hrequested offset hmem) hposition
  · rw [show (σ.submit ω _).offsets = ω from rfl, hp''] at hnone
    cases hnone
  · rw [submit, NodeController.queue_submitCommand, filterMap_received, filterMap_received_fst,
      List.map_append, List.map_append, h.pool.1, map_monitorAt_filter]
    rfl
  · intro n hn
    rw [submit, filterMap_received_fst, List.mem_append, List.mem_filter, List.mem_range'_1] at hn
    rcases hn with hold | ⟨⟨hlow, -⟩, -⟩
    · exact h.pool.2 n hold
    · exact Nat.le_trans h.began (Nat.le_trans hbegan hlow)
  · exact mem_triples_submitCommand (Nat.le_trans h.began hbegan) hreached h.table
  · rw [submit, NodeController.storage_submitCommand]
    exact nodup_foldl_configure _ h.distinct

theorem Inv.commit {fails : Bool} (h : Inv parser queue stored σ)
    (hstep : CommitState.step parser queue σ.offsets (.commit fails) = some ω) :
    Inv parser queue stored { σ with offsets := ω } := by
  obtain ⟨position, first, hp, hp', hstored, hinFlight⟩ := commit_eq_some hstep
  have hrunning := h.running _ hp
  refine ⟨h.began, hstored ▸ h.broker, ?_, fun q hq ↦ ?_, fun hnone ↦ ?_, h.pool, h.table,
    h.distinct⟩
  · rw [hstored]
    rcases hinFlight with hsame | hnew
    · rw [hsame]
      exact h.ordered
    · rw [hnew, ← List.cons_append, List.pairwise_append]
      refine ⟨h.ordered, List.pairwise_singleton _ _, fun offset hmem _ hlast ↦ ?_⟩
      rw [List.mem_singleton.mp hlast]
      exact hrunning.requested offset hmem
  · obtain rfl := Option.some_inj.mp (hp'.symm.trans hq)
    refine ⟨hrunning.began, Nat.le_refl _, hrunning.reached, fun offset hmem ↦ ?_,
      hrunning.state⟩
    rw [hstored] at hmem
    rcases hinFlight with hsame | hnew
    · rw [hsame] at hmem
      exact hrunning.requested offset hmem
    · rw [hnew, ← List.cons_append, List.mem_append, List.mem_singleton] at hmem
      rcases hmem with hold | rfl
      · exact hrunning.requested offset hold
      · exact Nat.le_refl _
  · rw [hp'] at hnone
    cases hnone

theorem Inv.store (h : Inv parser queue stored σ)
    (hstep : CommitState.step parser queue σ.offsets .store = some ω) :
    Inv parser queue stored { σ with offsets := ω } := by
  obtain ⟨hp, hinFlight⟩ := store_eq_some hstep
  have hordered := h.ordered
  rw [hinFlight, List.pairwise_cons] at hordered
  have hstored : σ.offsets.broker.stored ≤ ω.broker.stored := hordered.1 _ List.mem_cons_self
  have hrunning : ∀ q, ω.process = some q → Running parser queue { σ with offsets := ω } q := by
    intro q hq
    have hrunning := h.running q (hp ▸ hq)
    refine ⟨hrunning.began, hrunning.position, hrunning.reached, fun offset hmem ↦ ?_,
      hrunning.state⟩
    refine hrunning.requested offset (List.mem_cons_of_mem _ ?_)
    rw [hinFlight]
    exact hmem
  refine ⟨h.began, ⟨Nat.le_trans h.broker.1 hstored, ?_⟩, hordered.2, hrunning, fun hnone ↦ ?_,
    h.pool, h.table, h.distinct⟩
  · cases hprocess : ω.process with
    | none =>
      -- without a process there is nothing to store
      rw [(h.down (hp ▸ hprocess)).2.2.2] at hinFlight
      cases hinFlight
    | some q =>
      exact Nat.le_trans ((hrunning q hprocess).requested _ List.mem_cons_self)
        (hrunning q hprocess).reached
  · rw [(h.down (hp ▸ hnone)).2.2.2] at hinFlight
    cases hinFlight

theorem Inv.died (h : Inv parser queue stored σ)
    (hstep : CommitState.step parser queue σ.offsets .crash = some ω) :
    Inv parser queue stored (σ.died ω) := by
  obtain ⟨-, hp, hbroker⟩ := crash_eq_some hstep
  refine ⟨h.began, ?_, ?_, fun q hq ↦ ?_, fun _ ↦ ⟨rfl, rfl, rfl, ?_⟩,
    ⟨rfl, by simp [Deployment.died]⟩, h.table, h.distinct⟩
  · rw [show (σ.died ω).offsets = ω from rfl, hbroker]
    exact h.broker
  · rw [show (σ.died ω).offsets = ω from rfl, hbroker]
    exact List.pairwise_singleton _ _
  · rw [show (σ.died ω).offsets = ω from rfl, hp] at hq
    cases hq
  · rw [show (σ.died ω).offsets = ω from rfl, hbroker]

theorem Inv.restart (h : Inv parser queue stored σ)
    (hstep : CommitState.step parser queue σ.offsets .restart = some ω) :
    Inv parser queue stored { σ with offsets := ω, began := σ.offsets.broker.stored } := by
  obtain ⟨hnone, hp, hbroker⟩ := restart_eq_some hstep
  obtain ⟨hstate, -, -, hinFlight⟩ := h.down hnone
  refine ⟨h.broker.1, hbroker ▸ h.broker, hbroker ▸ h.ordered, fun q hq ↦ ?_, fun hnone' ↦ ?_,
    h.pool, h.table, h.distinct⟩
  · obtain rfl := Option.some_inj.mp (hp.symm.trans hq)
    refine ⟨Nat.le_refl _, Nat.le_refl _, h.broker.2, fun offset hmem ↦ ?_, [], hstate⟩
    rw [hbroker, hinFlight, List.mem_singleton] at hmem
    exact hmem.le
  · rw [hp] at hnone'
    cases hnone'

/-- A task is executed to its end. -/
theorem Inv.executed {i : ℕ} (h : Inv parser queue stored σ)
    (hcommand : σ.node.queue[i]? = some command) :
    Inv parser queue stored { σ with
      node := { σ.node with
        queue := σ.node.queue.eraseIdx i, state := acquire σ.node.state command }
      waiting := σ.waiting.eraseIdx i
      ran := σ.ran ++ σ.waiting[i]?.toList } := by
  refine ⟨h.began, h.broker, h.ordered, fun q hq ↦ ?_, fun hnone ↦ ?_, ⟨?_, ?_⟩, h.table,
    h.distinct⟩
  · obtain ⟨hbegan, hposition, hreached, hrequested, done, hstate⟩ := h.running q hq
    refine ⟨hbegan, hposition, hreached, hrequested, done ++ [command], ?_⟩
    rw [acquireAll_concat, ← hstate]
  · rw [(h.down hnone).2.1] at hcommand
    cases hcommand
  · rw [← List.eraseIdx_map, h.pool.1, List.eraseIdx_map]
  · exact fun n hn ↦ h.pool.2 n (List.mem_of_mem_eraseIdx hn)

/-- What a handler does that does not throw. -/
theorem submit_eq_some (hstep : step parser queue σ (.handle none) = some τ) :
    ∃ position first ω, σ.offsets.process = some ⟨position, .fetched first⟩ ∧
      CommitState.step parser queue σ.offsets (.handle false) = some ω ∧
      τ = { σ.submit ω (received parser queue first position) with
        reached := max σ.reached position } := by
  rw [step] at hstep
  split at hstep
  · rename_i position first hp
    obtain ⟨ω, hω, rfl⟩ := Option.map_eq_some_iff.mp hstep
    exact ⟨position, first, ω, hp, hω, rfl⟩
  · cases hstep

/-- What a task does: it is executed to its end, or the process dies. -/
theorem task_eq_some {i : ℕ} (hstep : step parser queue σ (.task i failure) = some τ) :
    ∃ command, σ.node.queue[i]? = some command ∧
      (((acquireManagement failure command σ.node.state).2 = .ok () ∧ τ = { σ with
          node := { σ.node with
            queue := σ.node.queue.eraseIdx i, state := acquire σ.node.state command }
          waiting := σ.waiting.eraseIdx i
          ran := σ.ran ++ σ.waiting[i]?.toList }) ∨
        ∃ ω, CommitState.step parser queue σ.offsets .crash = some ω ∧ τ = σ.died ω) := by
  rw [step] at hstep
  split at hstep
  · cases hstep
  · rename_i command hcommand
    refine ⟨command, hcommand, ?_⟩
    split at hstep
    · rename_i state hok
      cases hstep
      exact Or.inl ⟨by rw [hok], by rw [eq_acquire_of_ok hok]⟩
    · obtain ⟨ω, hω, rfl⟩ := Option.map_eq_some_iff.mp hstep
      exact Or.inr ⟨ω, hω, rfl⟩

/-- The step lemma. -/
theorem Inv.step (h : Inv parser queue stored σ) (hstep : step parser queue σ act = some τ)
    (hthrows : ∀ n, act ≠ .handle (some n)) : Inv parser queue stored τ := by
  cases act with
  | getMsg count =>
    obtain ⟨ω, hω, rfl⟩ := Option.map_eq_some_iff.mp hstep
    exact h.getMsg hω
  | handle throwsAfter =>
    cases throwsAfter with
    | some n => exact absurd rfl (hthrows n)
    | none =>
      obtain ⟨position, first, ω, hp, hω, rfl⟩ := submit_eq_some hstep
      exact h.handle hp hω
  | commit fails =>
    obtain ⟨ω, hω, rfl⟩ := Option.map_eq_some_iff.mp hstep
    exact h.commit hω
  | task i failure =>
    obtain ⟨command, hcommand, ⟨-, rfl⟩ | ⟨ω, hω, rfl⟩⟩ := task_eq_some hstep
    · exact h.executed hcommand
    · exact h.died hω
  | store =>
    obtain ⟨ω, hω, rfl⟩ := Option.map_eq_some_iff.mp hstep
    exact h.store hω
  | crash =>
    obtain ⟨ω, hω, rfl⟩ := Option.map_eq_some_iff.mp hstep
    exact h.died hω
  | restart =>
    obtain ⟨ω, hω, rfl⟩ := Option.map_eq_some_iff.mp hstep
    exact h.restart hω

/-! ## Topics and the table -/

theorem inv_of_run (h : run (Deployment.step parser queue) (start stored) acts = some σ)
    (hthrows : ∀ n, .handle (some n) ∉ acts) : Inv parser queue stored σ := by
  refine run_invariant_of_mem (P := Inv parser queue stored) (fun act hact s t hst hs ↦ ?_) h
    (inv_start stored)
  refine hs.step hst fun n hn ↦ ?_
  rw [hn] at hact
  exact hthrows n hact

/-- What a process has handled is with the worker or in the pool. -/
def InOrder (parser : MessageParser) (queue : ℕ → SubscriberInterfaceElement) (σ : Deployment) :
    Prop :=
  ∀ p, σ.offsets.process = some p → ∃ done, σ.node.state = acquireAll {} done ∧
    done ++ σ.node.queue = monitorsBetween parser queue σ.began (handledBelow p)

/-- The tasks are executed in the order in which they were submitted. -/
theorem InOrder.step (hinv : Inv parser queue stored σ) (h : InOrder parser queue σ)
    (hstep : Deployment.step parser queue σ act = some τ)
    (hthrows : ∀ n, act ≠ .handle (some n))
    (hserial : ∀ i failure, act = .task i failure → i = 0) : InOrder parser queue τ := by
  have hdied : ∀ ω, CommitState.step parser queue σ.offsets .crash = some ω →
      InOrder parser queue (σ.died ω) := fun ω hω q hq ↦ by
    cases (crash_eq_some hω).2.1.symm.trans hq
  intro q hq
  cases act with
  | getMsg count =>
    obtain ⟨ω, hω, rfl⟩ := Option.map_eq_some_iff.mp hstep
    obtain ⟨-, p, p', hp, hp', hhandled, -⟩ := getMsg_eq_some hω
    obtain rfl := Option.some_inj.mp (hp'.symm.trans hq)
    rw [hhandled]
    exact h p hp
  | handle throwsAfter =>
    cases throwsAfter with
    | some n => exact absurd rfl (hthrows n)
    | none =>
      obtain ⟨position, first, ω, hp, hω, rfl⟩ := submit_eq_some hstep
      obtain ⟨-, position', first', hp', hp''⟩ := handle_eq_some hω
      cases Option.some_inj.mp (hp.symm.trans hp')
      obtain rfl := Option.some_inj.mp (hp''.symm.trans hq)
      obtain ⟨done, hstate, hdone⟩ := h _ hp
      refine ⟨done, (NodeController.state_submitCommand _ _).trans hstate, ?_⟩
      rw [submit, NodeController.queue_submitCommand, filterMap_received, ← List.append_assoc,
        hdone]
      exact monitorsBetween_append (hinv.running _ hp).began (hinv.running _ hp).position
  | commit fails =>
    obtain ⟨ω, hω, rfl⟩ := Option.map_eq_some_iff.mp hstep
    obtain ⟨position, first, hp, hp', -, -⟩ := commit_eq_some hω
    obtain rfl := Option.some_inj.mp (hp'.symm.trans hq)
    exact h ⟨position, .handled first⟩ hp
  | task i failure =>
    obtain rfl := hserial i failure rfl
    obtain ⟨command, hcommand, ⟨-, rfl⟩ | ⟨ω, hω, rfl⟩⟩ := task_eq_some hstep
    · obtain ⟨done, hstate, hdone⟩ := h q hq
      refine ⟨done ++ [command], ?_, ?_⟩
      · rw [acquireAll_concat, ← hstate]
      · rw [← hdone, List.append_assoc, List.eraseIdx_zero, List.singleton_append]
        congr 1
        cases hqueue : σ.node.queue with
        | nil => simp [hqueue] at hcommand
        | cons first rest =>
          rw [hqueue] at hcommand
          cases hcommand
          rfl
    · exact hdied ω hω q hq
  | store =>
    obtain ⟨ω, hω, rfl⟩ := Option.map_eq_some_iff.mp hstep
    exact h q ((store_eq_some hω).1 ▸ hq)
  | crash =>
    obtain ⟨ω, hω, rfl⟩ := Option.map_eq_some_iff.mp hstep
    exact hdied ω hω q hq
  | restart =>
    obtain ⟨ω, hω, rfl⟩ := Option.map_eq_some_iff.mp hstep
    obtain ⟨hnone, hp, -⟩ := restart_eq_some hω
    obtain ⟨hstate, hqueue, -, -⟩ := hinv.down hnone
    obtain rfl := Option.some_inj.mp (hp.symm.trans hq)
    refine ⟨[], hstate, ?_⟩
    rw [hqueue]
    exact monitorsBetween_self.symm

theorem mem_topics_acquireAll_iff (commands : List AquireCommand) (c t : String) :
    t ∈ (acquireAll {} commands).topics c ↔
      EndsWith AquireCommand.target (c, t) AquireCommand.activate commands := by
  rw [mem_topics_acquireAll, Option.map_eq_some_iff]
  rfl

/-- When the pool has nothing to do, the topics are those of the messages that this process has
handled, and the channels that are monitored are those that have topics. -/
theorem mem_topics_of_run (h : run (Deployment.step parser queue) (start stored) acts = some σ)
    (hthrows : ∀ n, .handle (some n) ∉ acts) (hserial : ∀ i failure, .task i failure ∈ acts → i = 0)
    (hp : σ.offsets.process = some p) (hidle : σ.node.queue = []) (c t : String) :
    (t ∈ σ.node.state.topics c ↔
      EndsWith AquireCommand.target (c, t) AquireCommand.activate
        (monitorsBetween parser queue σ.began (handledBelow p))) ∧
    (σ.node.state.Monitored c ↔ σ.node.state.topics c ≠ []) := by
  have hinv : Inv parser queue stored σ ∧ InOrder parser queue σ := by
    refine run_invariant_of_mem
      (P := fun s ↦ Inv parser queue stored s ∧ InOrder parser queue s)
      (fun act hact s t hst hs ↦ ?_) h ⟨inv_start stored, fun p hp ↦ by cases hp⟩
    have hnot : ∀ n, act ≠ .handle (some n) := by
      rintro n rfl
      exact hthrows n hact
    refine ⟨hs.1.step hst hnot, hs.2.step hs.1 hst hnot ?_⟩
    rintro i failure rfl
    exact hserial i failure hact
  obtain ⟨done, hstate, hdone⟩ := hinv.2 p hp
  rw [hidle, List.append_nil] at hdone
  rw [hstate, hdone, mem_topics_acquireAll_iff]
  exact ⟨Iff.rfl, (serialInv_init.acquireAll _).monitored c⟩

/-- **A restart goes unnoticed if the messages from the stored offset on touch every topic that was
subscribed before it, and only then**: unnoticed are the restarts after which the topics are those
of a process that was never interrupted. -/
theorem unnoticed_iff (h : run (Deployment.step parser queue) (start stored) acts = some σ)
    (hthrows : ∀ n, .handle (some n) ∉ acts) (hserial : ∀ i failure, .task i failure ∈ acts → i = 0)
    (hp : σ.offsets.process = some p) (hidle : σ.node.queue = []) :
    (∀ c t, t ∈ σ.node.state.topics c ↔
        t ∈ (acquireAll {} (monitorsBetween parser queue stored (handledBelow p))).topics c) ↔
      ∀ c t, t ∈ (acquireAll {} (monitorsBetween parser queue stored σ.began)).topics c →
        ∃ command ∈ monitorsBetween parser queue σ.began (handledBelow p),
          command.target = (c, t) := by
  have hinv := inv_of_run h hthrows
  refine forall_congr' fun c ↦ forall_congr' fun t ↦ ?_
  rw [(mem_topics_of_run h hthrows hserial hp hidle c t).1, mem_topics_acquireAll_iff,
    mem_topics_acquireAll_iff, ← monitorsBetween_append hinv.began (hinv.running p hp).began]
  constructor
  · intro hiff hbefore
    by_contra hnone
    have huntouched : ∀ command ∈ monitorsBetween parser queue σ.began (handledBelow p),
        command.target ≠ (c, t) := by
      simpa using hnone
    obtain ⟨command, hlast, -⟩ :=
      hiff.mpr ((endsWith_append_of_ne huntouched).mpr hbefore)
    obtain ⟨hmem, htarget⟩ := mem_of_lastOn hlast
    exact huntouched command hmem htarget
  · intro htouched
    constructor
    · rintro ⟨command, hlast, hactivate⟩
      refine ⟨command, ?_, hactivate⟩
      rw [lastOn_append, hlast, Option.some_or]
    · intro hends
      -- the last command on the topic is one that this process has handled
      have hwhole := hends
      rcases hends.of_append with ⟨command, hmem, htarget, -⟩ | ⟨huntouched, hbefore⟩
      · obtain ⟨last, hlast⟩ := Option.isSome_iff_exists.mp (lastOn_isSome_of_mem hmem htarget)
        obtain ⟨command', hlast', hactivate⟩ := hwhole
        rw [lastOn_append, hlast, Option.some_or] at hlast'
        exact ⟨command', hlast.trans hlast', hactivate⟩
      · obtain ⟨command, hmem, htarget⟩ := htouched hbefore
        exact absurd htarget (huntouched command hmem)

/-- A command to monitor a channel, as it is on the bus. -/
def monitorRampText : List UInt8 :=
  ("\x7b\"command\":\"monitor\",\"activate\":true,\"protocol\":\"pva\"," ++
    "\"channel_name\":\"ramp\",\"dest_topic\":\"out\"\x7d").toUTF8.data.toList

/-- The JSON parser, as far as it is asked about `monitorRampText`. -/
def monitorRampParser : MessageParser where
  parseObject data :=
    if data = monitorRampText then
      some ⟨[(keyCommand, .string "monitor"), (keyActivate, .bool true),
        (keyProtocol, .string "pva"), (keyChannelName, .string "ramp"),
        (keyDestTopic, .string "out")], by decide⟩
    else none
  undefinedRead _ := none

/-- A queue of such commands. -/
def monitorRampQueue (_ : ℕ) : SubscriberInterfaceElement := ⟨"default-key", monitorRampText⟩

/-- A monitor is committed and stored, and the next process knows nothing of it. -/
theorem unnoticed_iff_dropped :
    ∃ σ, run (Deployment.step monitorRampParser monitorRampQueue) (start 0)
        [.restart, .getMsg 1, .handle none, .commit false, .store, .task 0 none, .crash, .restart] =
          some σ ∧
      ¬ ∀ c t, t ∈ σ.node.state.topics c ↔
        t ∈ (acquireAll {} (monitorsBetween monitorRampParser monitorRampQueue 0 1)).topics c := by
  obtain ⟨σ, h, hp, hidle, hbegan⟩ : ∃ σ,
      run (Deployment.step monitorRampParser monitorRampQueue) (start 0)
        [.restart, .getMsg 1, .handle none, .commit false, .store, .task 0 none, .crash, .restart] =
          some σ ∧
      σ.offsets.process = some ⟨1, .top⟩ ∧ σ.node.queue = [] ∧ σ.began = 1 :=
    ⟨_, rfl, by decide, by decide, by decide⟩
  refine ⟨σ, h, (unnoticed_iff h (by simp) (by simp) hp hidle).not.mpr fun hall ↦ ?_⟩
  rw [hbegan] at hall
  obtain ⟨command, hmem, -⟩ := hall "ramp" "out" (by decide)
  simp [handledBelow, monitorsBetween_self] at hmem

/-- **The table has the monitors of every message that some process has handled**, activations and
deactivations alike, each once, whatever was delivered more than once; what a restart has dropped
is among them. -/
theorem mem_triples_of_run (h : run (Deployment.step parser queue) (start stored) acts = some σ)
    (hthrows : ∀ n, .handle (some n) ∉ acts) :
    (∀ k, k ∈ σ.node.storage.triples ↔
      ∃ command ∈ monitorsBetween parser queue stored σ.reached, command.triple = k) ∧
    (σ.node.storage.rows.map ChannelMonitorType.triple).Nodup ∧
    ∀ p, σ.offsets.process = some p → ∀ c t,
      t ∈ (acquireAll {} (monitorsBetween parser queue stored (handledBelow p))).topics c →
        ∃ protocol, (c, protocol, t) ∈ σ.node.storage.triples := by
  have hinv := inv_of_run h hthrows
  refine ⟨hinv.table, hinv.distinct, fun p hp c t ht ↦ ?_⟩
  obtain ⟨command, hlast, -⟩ := (mem_topics_acquireAll_iff _ c t).mp ht
  obtain ⟨hmem, htarget⟩ := mem_of_lastOn hlast
  obtain ⟨offset, hlow, hhigh, hmonitor⟩ := mem_monitorsBetween.mp hmem
  obtain ⟨rfl, rfl⟩ := Prod.mk.inj htarget
  refine ⟨command.protocol, (hinv.table _).mpr ⟨command, mem_monitorsBetween.mpr ?_, rfl⟩⟩
  exact ⟨offset, hlow, Nat.lt_of_lt_of_le hhigh (hinv.running p hp).reached, hmonitor⟩

/-- The monitor that the restart drops is in the table. -/
theorem mem_triples_of_run_dropped :
    ∃ σ, run (Deployment.step monitorRampParser monitorRampQueue) (start 0)
        [.restart, .getMsg 1, .handle none, .commit false, .store, .task 0 none, .crash, .restart] =
          some σ ∧
      σ.node.state.topics "ramp" = [] ∧
      ∃ protocol, ("ramp", protocol, "out") ∈ σ.node.storage.triples := by
  obtain ⟨σ, h, hp, htopics⟩ : ∃ σ,
      run (Deployment.step monitorRampParser monitorRampQueue) (start 0)
        [.restart, .getMsg 1, .handle none, .commit false, .store, .task 0 none, .crash, .restart] =
          some σ ∧
      σ.offsets.process = some ⟨1, .top⟩ ∧ σ.node.state.topics "ramp" = [] :=
    ⟨_, rfl, by decide, by decide⟩
  exact ⟨σ, h, htopics, (mem_triples_of_run h (by simp)).2.2 _ hp "ramp" "out" (by decide)⟩

/-! ## What is executed -/

/-- The message is a monitor command that will not be delivered any more, no process has executed
it, and it is not in the pool. -/
structure Lost (parser : MessageParser) (queue : ℕ → SubscriberInterfaceElement) (stored : ℕ)
    (σ : Deployment) (n : ℕ) : Prop where
  fromStart : stored ≤ n
  below : n < σ.offsets.broker.stored
  monitor : (monitorAt parser queue n).isSome = true
  notRan : n ∉ σ.ran
  notWaiting : n ∉ σ.waiting

/-- Of the messages below this offset, all monitor commands are executed or in the pool. -/
def Covered (parser : MessageParser) (queue : ℕ → SubscriberInterfaceElement) (stored : ℕ)
    (σ : Deployment) (m : ℕ) : Prop :=
  ∀ n, stored ≤ n → n < m → (monitorAt parser queue n).isSome = true → n ∈ σ.ran ∨ n ∈ σ.waiting

/-- The messages below the offset from which a process goes on, or will go on. -/
def resumesAt (σ : Deployment) : ℕ :=
  match σ.offsets.process with
  | some p => handledBelow p
  | none => σ.offsets.broker.stored

/-- A process dies, and with it a task that is below the stored offset and was never executed. -/
def Forgets (σ τ : Deployment) : Prop :=
  σ.offsets.process ≠ none ∧ τ.offsets.process = none ∧
    ∃ n ∈ σ.waiting, n < σ.offsets.broker.stored ∧ n ∉ σ.ran

theorem Inv.stored_le_resumesAt (h : Inv parser queue stored σ) :
    σ.offsets.broker.stored ≤ resumesAt σ := by
  rw [resumesAt]
  split
  · rename_i p hp
    exact (h.running p hp).requested _ List.mem_cons_self
  · exact Nat.le_refl _

theorem resumesAt_of_eq_some (hp : σ.offsets.process = some p) : resumesAt σ = handledBelow p := by
  rw [resumesAt, hp]

theorem resumesAt_of_eq_none (hp : σ.offsets.process = none) :
    resumesAt σ = σ.offsets.broker.stored := by
  rw [resumesAt, hp]

/-- A process dies in one way only. -/
theorem eq_died_of_step (hstep : step parser queue σ act = some τ)
    (hthrows : ∀ n, act ≠ .handle (some n)) (hσ : σ.offsets.process ≠ none)
    (hτ : τ.offsets.process = none) :
    ∃ ω, CommitState.step parser queue σ.offsets .crash = some ω ∧ τ = σ.died ω := by
  cases act with
  | getMsg count =>
    obtain ⟨ω, hω, rfl⟩ := Option.map_eq_some_iff.mp hstep
    obtain ⟨-, p, p', -, hp', -⟩ := getMsg_eq_some hω
    cases hp'.symm.trans hτ
  | handle throwsAfter =>
    cases throwsAfter with
    | some n => exact absurd rfl (hthrows n)
    | none =>
      obtain ⟨position, first, ω, -, hω, rfl⟩ := submit_eq_some hstep
      obtain ⟨-, position', first', -, hp'⟩ := handle_eq_some hω
      cases hp'.symm.trans hτ
  | commit fails =>
    obtain ⟨ω, hω, rfl⟩ := Option.map_eq_some_iff.mp hstep
    obtain ⟨position, first, -, hp', -⟩ := commit_eq_some hω
    cases hp'.symm.trans hτ
  | task i failure =>
    obtain ⟨command, -, ⟨-, rfl⟩ | hdied⟩ := task_eq_some hstep
    · exact absurd hτ hσ
    · exact hdied
  | store =>
    obtain ⟨ω, hω, rfl⟩ := Option.map_eq_some_iff.mp hstep
    exact absurd ((store_eq_some hω).1.symm.trans hτ) hσ
  | crash =>
    obtain ⟨ω, hω, rfl⟩ := Option.map_eq_some_iff.mp hstep
    exact ⟨ω, hω, rfl⟩
  | restart =>
    obtain ⟨ω, hω, rfl⟩ := Option.map_eq_some_iff.mp hstep
    exact absurd (restart_eq_some hω).1 hσ

/-- What is left of the tasks when one is executed. -/
theorem mem_executed {waiting : List ℕ} (ran : List ℕ) (i : ℕ) :
    (n ∈ ran ++ waiting[i]?.toList ∨ n ∈ waiting.eraseIdx i) ↔ n ∈ ran ∨ n ∈ waiting := by
  rw [List.mem_append, or_assoc]
  refine or_congr_right ?_
  by_cases hi : i < waiting.length
  · rw [List.getElem?_eq_getElem hi, Option.toList_some, List.mem_singleton, ← List.mem_cons,
      (List.getElem_cons_eraseIdx_perm hi).mem_iff]
  · rw [List.getElem?_eq_none (Nat.le_of_not_lt hi),
      List.eraseIdx_of_length_le (Nat.le_of_not_lt hi)]
    simp

/-- If a step forgets nothing, then what was covered still is. -/
theorem Covered.step (hinv : Inv parser queue stored σ)
    (h : Covered parser queue stored σ (resumesAt σ))
    (hstep : Deployment.step parser queue σ act = some τ)
    (hthrows : ∀ n, act ≠ .handle (some n)) (hforgets : ¬ Forgets σ τ) :
    Covered parser queue stored τ (resumesAt τ) := by
  have hdied : ∀ ω, CommitState.step parser queue σ.offsets .crash = some ω → τ = σ.died ω →
      Covered parser queue stored τ (resumesAt τ) := by
    rintro ω hω rfl n hlow hhigh hmonitor
    obtain ⟨hp, hp', hbroker⟩ := crash_eq_some hω
    rw [resumesAt_of_eq_none hp', show (σ.died ω).offsets = ω from rfl, hbroker] at hhigh
    refine Or.inl ?_
    have hresumes := Nat.lt_of_lt_of_le hhigh hinv.stored_le_resumesAt
    rcases h n hlow hresumes hmonitor with hran | hwaiting
    · exact hran
    · by_contra hran
      exact hforgets ⟨hp, hp', n, hwaiting, hhigh, hran⟩
  cases act with
  | getMsg count =>
    obtain ⟨ω, hω, rfl⟩ := Option.map_eq_some_iff.mp hstep
    obtain ⟨-, p, p', hp, hp', hhandled, -⟩ := getMsg_eq_some hω
    rw [resumesAt_of_eq_some hp'] at *
    rw [resumesAt_of_eq_some hp, ← hhandled] at h
    exact h
  | handle throwsAfter =>
    cases throwsAfter with
    | some n => exact absurd rfl (hthrows n)
    | none =>
      obtain ⟨position, first, ω, hp, hω, rfl⟩ := submit_eq_some hstep
      obtain ⟨-, position', first', hp', hp''⟩ := handle_eq_some hω
      cases Option.some_inj.mp (hp.symm.trans hp')
      rw [resumesAt_of_eq_some hp] at h
      intro n hlow hhigh hmonitor
      rw [resumesAt_of_eq_some hp''] at hhigh
      rcases Nat.lt_or_ge n first with hlt | hge
      · exact (h n hlow hlt hmonitor).imp_right (List.mem_append_left _)
      · refine Or.inr (List.mem_append_right _ ?_)
        rw [filterMap_received_fst, List.mem_filter, List.mem_range'_1]
        dsimp only [handledBelow] at hhigh
        exact ⟨⟨hge, by omega⟩, hmonitor⟩
  | commit fails =>
    obtain ⟨ω, hω, rfl⟩ := Option.map_eq_some_iff.mp hstep
    obtain ⟨position, first, hp, hp', -, -⟩ := commit_eq_some hω
    rw [resumesAt_of_eq_some hp'] at *
    rw [resumesAt_of_eq_some hp] at h
    exact h
  | task i failure =>
    obtain ⟨command, -, ⟨-, rfl⟩ | ⟨ω, hω, hτ⟩⟩ := task_eq_some hstep
    · exact fun n hlow hhigh hmonitor ↦ (mem_executed _ i).mpr (h n hlow hhigh hmonitor)
    · exact hdied ω hω hτ
  | store =>
    obtain ⟨ω, hω, rfl⟩ := Option.map_eq_some_iff.mp hstep
    obtain ⟨hp, hinFlight⟩ := store_eq_some hω
    cases hprocess : σ.offsets.process with
    | none =>
      rw [(hinv.down hprocess).2.2.2] at hinFlight
      cases hinFlight
    | some p =>
      rw [resumesAt_of_eq_some hprocess] at h
      rw [resumesAt_of_eq_some (hp.trans hprocess)]
      exact h
  | crash =>
    obtain ⟨ω, hω, hτ⟩ := Option.map_eq_some_iff.mp hstep
    exact hdied ω hω hτ.symm
  | restart =>
    obtain ⟨ω, hω, rfl⟩ := Option.map_eq_some_iff.mp hstep
    obtain ⟨hnone, hp, -⟩ := restart_eq_some hω
    rw [resumesAt_of_eq_none hnone] at h
    rw [resumesAt_of_eq_some hp]
    exact h

/-- What is lost stays lost. -/
theorem Lost.step (hinv : Inv parser queue stored σ) (h : Lost parser queue stored σ n)
    (hstep : Deployment.step parser queue σ act = some τ)
    (hthrows : ∀ n, act ≠ .handle (some n)) : Lost parser queue stored τ n := by
  have hdied : ∀ ω, CommitState.step parser queue σ.offsets .crash = some ω →
      Lost parser queue stored (σ.died ω) n := by
    intro ω hω
    obtain ⟨-, -, hbroker⟩ := crash_eq_some hω
    refine ⟨h.fromStart, ?_, h.monitor, h.notRan, List.not_mem_nil⟩
    rw [show (σ.died ω).offsets = ω from rfl, hbroker]
    exact h.below
  cases act with
  | getMsg count =>
    obtain ⟨ω, hω, rfl⟩ := Option.map_eq_some_iff.mp hstep
    exact ⟨h.fromStart, (getMsg_eq_some hω).1 ▸ h.below, h.monitor, h.notRan, h.notWaiting⟩
  | handle throwsAfter =>
    cases throwsAfter with
    | some n => exact absurd rfl (hthrows n)
    | none =>
      obtain ⟨position, first, ω, hp, hω, rfl⟩ := submit_eq_some hstep
      refine ⟨h.fromStart, (handle_eq_some hω).1 ▸ h.below, h.monitor, h.notRan, fun hmem ↦ ?_⟩
      rcases List.mem_append.mp hmem with hold | hnew
      · exact h.notWaiting hold
      · -- the batch begins behind the stored offset
        rw [filterMap_received_fst, List.mem_filter, List.mem_range'_1] at hnew
        have hfirst := hinv.stored_le_resumesAt
        rw [resumesAt_of_eq_some hp] at hfirst
        exact absurd (Nat.lt_of_lt_of_le h.below hfirst) (Nat.not_lt.mpr hnew.1.1)
  | commit fails =>
    obtain ⟨ω, hω, rfl⟩ := Option.map_eq_some_iff.mp hstep
    obtain ⟨position, first, -, -, hstored, -⟩ := commit_eq_some hω
    exact ⟨h.fromStart, hstored ▸ h.below, h.monitor, h.notRan, h.notWaiting⟩
  | task i failure =>
    obtain ⟨command, -, ⟨-, rfl⟩ | ⟨ω, hω, rfl⟩⟩ := task_eq_some hstep
    · have hnot := mt (mem_executed σ.ran i).mp (not_or.mpr ⟨h.notRan, h.notWaiting⟩)
      exact ⟨h.fromStart, h.below, h.monitor, (not_or.mp hnot).1, (not_or.mp hnot).2⟩
    · exact hdied ω hω
  | store =>
    obtain ⟨ω, hω, rfl⟩ := Option.map_eq_some_iff.mp hstep
    have hordered := hinv.ordered
    rw [(store_eq_some hω).2, List.pairwise_cons] at hordered
    exact ⟨h.fromStart, Nat.lt_of_lt_of_le h.below (hordered.1 _ List.mem_cons_self), h.monitor,
      h.notRan, h.notWaiting⟩
  | crash =>
    obtain ⟨ω, hω, rfl⟩ := Option.map_eq_some_iff.mp hstep
    exact hdied ω hω
  | restart =>
    obtain ⟨ω, hω, rfl⟩ := Option.map_eq_some_iff.mp hstep
    exact ⟨h.fromStart, (restart_eq_some hω).2.2 ▸ h.below, h.monitor, h.notRan, h.notWaiting⟩

/-- A step that forgets a task loses a message. -/
theorem exists_lost_of_forgets (hinv : Inv parser queue stored σ)
    (hstep : Deployment.step parser queue σ act = some τ)
    (hthrows : ∀ n, act ≠ .handle (some n)) (hforgets : Forgets σ τ) :
    ∃ n, Lost parser queue stored τ n := by
  obtain ⟨hσ, hτ, n, hwaiting, hbelow, hran⟩ := hforgets
  obtain ⟨ω, hω, rfl⟩ := eq_died_of_step hstep hthrows hσ hτ
  obtain ⟨-, -, hbroker⟩ := crash_eq_some hω
  have hmonitor : monitorAt parser queue n ∈ σ.node.queue.map some := by
    rw [← hinv.pool.1]
    exact List.mem_map_of_mem hwaiting
  obtain ⟨command, -, hcommand⟩ := List.mem_map.mp hmonitor
  refine ⟨n, hinv.pool.2 n hwaiting, ?_, ?_, hran, List.not_mem_nil⟩
  · rw [show (σ.died ω).offsets = ω from rfl, hbroker]
    exact hbelow
  · rw [← hcommand]
    rfl

/-- **No command is lost exactly if no process forgets one**: if whenever a process dies, of
whatever, the tasks that are still in its pool will be delivered again or have been executed
before.  The commit of a batch does not wait for its tasks. -/
theorem executed_iff (h : run (Deployment.step parser queue) (start stored) acts = some σ)
    (hthrows : ∀ n, .handle (some n) ∉ acts) :
    (∀ n, ¬ Lost parser queue stored σ n) ↔
      ∀ before act after ρ τ, acts = before ++ act :: after →
        run (Deployment.step parser queue) (start stored) before = some ρ →
        Deployment.step parser queue ρ act = some τ → ¬ Forgets ρ τ := by
  have hnot : ∀ act ∈ acts, ∀ n, act ≠ .handle (some n) := by
    rintro act hmem n rfl
    exact hthrows n hmem
  constructor
  · rintro hlost before act after ρ τ rfl hρ hact hforgets
    have hinvρ : Inv parser queue stored ρ := inv_of_run hρ fun n hmem ↦
      hthrows n (List.mem_append_left _ hmem)
    have hnotact := hnot act (List.mem_append_right _ List.mem_cons_self)
    obtain ⟨n, hn⟩ := exists_lost_of_forgets hinvρ hact hnotact hforgets
    rw [run_append_of_eq_some hρ, run_cons, hact, Option.bind_some] at h
    -- the message is lost from then on
    refine hlost n (run_invariant_of_mem
      (P := fun s ↦ Inv parser queue stored s ∧ Lost parser queue stored s n)
      (fun a ha s t hst hs ↦ ?_) h ⟨hinvρ.step hact hnotact, hn⟩).2
    have hnota := hnot a (List.mem_append_right _ (List.mem_cons_of_mem _ ha))
    exact ⟨hs.1.step hst hnota, hs.2.step hs.1 hst hnota⟩
  · intro hsafe n hlost
    have hcovered : Inv parser queue stored σ ∧ Covered parser queue stored σ (resumesAt σ) := by
      refine run_invariant_of_meets
        (P := fun s ↦ Inv parser queue stored s ∧ Covered parser queue stored s (resumesAt s))
        (C := fun s a ↦ (∀ n, a ≠ .handle (some n)) ∧
          ∀ t, Deployment.step parser queue s a = some t → ¬ Forgets s t)
        (fun s a t hst hC hs ↦ ⟨hs.1.step hst hC.1, hs.2.step hs.1 hst hC.1 (hC.2 t hst)⟩) h
        (fun before act after ρ hacts hρ ↦ ⟨hnot act ?_, fun τ hτ ↦ ?_⟩)
        ⟨inv_start stored, fun n hlow hhigh _ ↦ absurd hlow (Nat.not_le.mpr hhigh)⟩
      · rw [hacts]
        exact List.mem_append_right _ List.mem_cons_self
      · exact hsafe before act after ρ τ hacts hρ hτ
    have hresumes := Nat.lt_of_lt_of_le hlost.below hcovered.1.stored_le_resumesAt
    rcases hcovered.2 n hlost.fromStart hresumes hlost.monitor with hran | hwait
    · exact hlost.notRan hran
    · exact hlost.notWaiting hwait

/-- The process dies between the commit of a command and its task, and the command is lost. -/
theorem executed_iff_forgotten :
    ∃ σ, run (Deployment.step monitorRampParser monitorRampQueue) (start 0)
        [.restart, .getMsg 1, .handle none, .commit false, .store, .crash] = some σ ∧
      ∃ n, Lost monitorRampParser monitorRampQueue 0 σ n := by
  obtain ⟨ρ, σ, hρ, hσ, hstep, hforgets⟩ : ∃ ρ σ,
      run (Deployment.step monitorRampParser monitorRampQueue) (start 0)
        [.restart, .getMsg 1, .handle none, .commit false, .store] = some ρ ∧
      run (Deployment.step monitorRampParser monitorRampQueue) (start 0)
        [.restart, .getMsg 1, .handle none, .commit false, .store, .crash] = some σ ∧
      Deployment.step monitorRampParser monitorRampQueue ρ .crash = some σ ∧ Forgets ρ σ :=
    ⟨_, _, rfl, rfl, rfl, by decide, by decide, 0, by decide, by decide, by decide⟩
  refine ⟨σ, hσ, ?_⟩
  by_contra hnone
  exact (executed_iff hσ (by simp)).mp (not_exists.mp hnone) _ .crash [] ρ σ rfl hρ hstep hforgets

/-! ## A channel that cannot be opened -/

/-- A task on a channel that is not monitored and cannot be opened does not throw only if it is a
deactivation, and it leaves the channel not monitored. -/
theorem not_monitored_of_ok {f : SetupFailure} (hmonitored : ¬ s.Monitored command.channelName)
    (hok : (acquireManagement (some f) command s).2 = .ok ()) :
    command.activate = false ∧ ¬ (acquire s command).Monitored command.channelName := by
  have hneeded : (s.channelTopicsMap.update command).needed command.channelName ≠ true := by
    intro hneeded
    refine hmonitored (EpicsServiceManager.mem_of_addChannel_some
      (show (EpicsServiceManager.addChannel (some f) _ "pva" _).2 = .ok () from ?_))
    simpa only [acquireManagement, hneeded, EpicsServiceManager.monitorChannel, if_true] using hok
  constructor
  · rw [← Bool.not_eq_true]
    intro hactivate
    rw [acquireManagement_of_activate hactivate] at hok
    exact hmonitored (EpicsServiceManager.mem_of_addChannel_some hok)
  · rw [AcquireState.monitored_acquire, if_pos rfl]
    exact fun htopics ↦ hneeded (ChannelTopicsMap.needed_iff.mpr htopics)

/-- A process in which the channel is not monitored, and no process has executed an activation of
it. -/
structure Unopened (parser : MessageParser) (queue : ℕ → SubscriberInterfaceElement) (c : String)
    (σ : Deployment) : Prop where
  monitored : ¬ σ.node.state.Monitored c
  ran : ∀ n ∈ σ.ran, ∀ command, monitorAt parser queue n = some command →
    command.channelName = c → command.activate = false

variable {c : String}

theorem Unopened.step (hinv : Inv parser queue stored σ) (h : Unopened parser queue c σ)
    (hstep : Deployment.step parser queue σ act = some τ)
    (hthrows : ∀ n, act ≠ .handle (some n))
    (hfails : ∀ i failure, act = .task i failure → ∀ command, σ.node.queue[i]? = some command →
      command.channelName = c → failure ≠ none) : Unopened parser queue c τ := by
  have hdied : ∀ ω, Unopened parser queue c (σ.died ω) := fun ω ↦
    ⟨fun hmem ↦ by
        simp [AcquireState.Monitored, Deployment.died, EpicsServiceManager.empty] at hmem,
      h.ran⟩
  cases act with
  | getMsg count =>
    obtain ⟨ω, hω, rfl⟩ := Option.map_eq_some_iff.mp hstep
    exact ⟨h.monitored, h.ran⟩
  | handle throwsAfter =>
    cases throwsAfter with
    | some n => exact absurd rfl (hthrows n)
    | none =>
      obtain ⟨position, first, ω, -, -, rfl⟩ := submit_eq_some hstep
      refine ⟨fun hmem ↦ h.monitored ?_, h.ran⟩
      rwa [← NodeController.state_submitCommand]
  | commit fails =>
    obtain ⟨ω, hω, rfl⟩ := Option.map_eq_some_iff.mp hstep
    exact ⟨h.monitored, h.ran⟩
  | task i failure =>
    obtain ⟨command, hcommand, ⟨hok, rfl⟩ | ⟨ω, hω, rfl⟩⟩ := task_eq_some hstep
    · have hfails := hfails i failure rfl command hcommand
      have hchannel : command.channelName = c →
          command.activate = false ∧ ¬ (acquire σ.node.state command).Monitored c := by
        rintro rfl
        obtain ⟨f, rfl⟩ := Option.ne_none_iff_exists'.mp (hfails rfl)
        exact not_monitored_of_ok h.monitored hok
      refine ⟨?_, fun n hn command' hcommand' hc ↦ ?_⟩
      · by_cases hc : command.channelName = c
        · exact (hchannel hc).2
        · refine mt (AcquireState.monitored_acquire _ _ _).mp ?_
          rw [if_neg hc]
          exact h.monitored
      · rcases List.mem_append.mp hn with hold | hnew
        · exact h.ran n hold command' hcommand' hc
        · -- the task that was executed is the one of this message
          have hn : σ.waiting[i]? = some n := Option.mem_toList.mp hnew
          have hpool := congrArg (·[i]?) hinv.pool.1
          simp only [List.getElem?_map, hn, hcommand, Option.map_some, hcommand',
            Option.some_inj] at hpool
          subst hpool
          exact (hchannel hc).1
    · exact hdied ω
  | store =>
    obtain ⟨ω, hω, rfl⟩ := Option.map_eq_some_iff.mp hstep
    exact ⟨h.monitored, h.ran⟩
  | crash =>
    obtain ⟨ω, hω, rfl⟩ := Option.map_eq_some_iff.mp hstep
    exact hdied ω
  | restart =>
    obtain ⟨ω, hω, rfl⟩ := Option.map_eq_some_iff.mp hstep
    exact ⟨h.monitored, h.ran⟩

end Deployment

end Ekg
