import Ekg.Data.ChannelRepository
import Ekg.Lib.LastWrite
import Ekg.Node.AcquireWorker

/-!
# The node controller

`NodeController::submitCommand` goes over a batch of commands.  For a monitor command it first
changes the stored configuration, there and then, and then every command is handed to the worker
of its type.  The acquire worker does not act on the command: it pushes a task onto the processing
pool.  So the configuration is always the one of the commands submitted so far, while the topic
lists and the EPICS channels are those of the tasks that have been run.
-/

set_option autoImplicit false

namespace Ekg

/-- The channel and the topic that a monitor command is about. -/
def AquireCommand.target (command : AquireCommand) : String × String :=
  (command.channelName, command.destinationTopic)

/-- The row that a monitor command is about. -/
def AquireCommand.toChannelMonitor (command : AquireCommand) : ChannelMonitorType where
  channelName := command.channelName
  channelProtocol := command.protocol
  channelDestination := command.destinationTopic

/-- The triple that a monitor command is about. -/
def AquireCommand.triple (command : AquireCommand) : Triple := command.toChannelMonitor.triple

namespace NodeConfiguration

/-- `NodeConfiguration::addChannelMonitor`. -/
def addChannelMonitor (descriptions : List ChannelMonitorType) (s : Storage) : Storage :=
  descriptions.foldl (fun s description ↦ ChannelRepository.insert description s) s

/-- `NodeConfiguration::removeChannelMonitor`; its body is that of `addChannelMonitor`. -/
def removeChannelMonitor (descriptions : List ChannelMonitorType) (s : Storage) : Storage :=
  descriptions.foldl (fun s description ↦ ChannelRepository.insert description s) s

end NodeConfiguration

/-- The monitor command behind a command, if it is one. -/
def Command.monitor? : Command → Option AquireCommand
  | .monitor c => some c
  | _ => none

/-- The `switch` of `submitCommand`: what a command does to the stored configuration. -/
def configure (s : Storage) (command : Command) : Storage :=
  match command with
  | .monitor c =>
    if c.activate then NodeConfiguration.addChannelMonitor [c.toChannelMonitor] s
    else NodeConfiguration.removeChannelMonitor [c.toChannelMonitor] s
  | _ => s

/-- The workers that the constructor registers. -/
inductive Worker
  | acquireCommandWorker | getCommandWorker
  deriving DecidableEq, Repr

/-- `worker_resolver.resolve`, over the workers that the constructor registers. -/
def resolveWorker : CommandType → Option Worker
  | .monitor => some .acquireCommandWorker
  | .get => some .getCommandWorker
  | _ => none

/-- The tasks that handing a command to its worker pushes onto the pool. -/
def tasksOf (command : Command) : List AquireCommand :=
  match resolveWorker command.type with
  | some .acquireCommandWorker => command.monitor?.toList
  | some .getCommandWorker => []
  | none => []

/-- The node: the stored configuration, the tasks that wait in the pool, and what the tasks that
were run have left. -/
structure NodeController where
  storage : Storage := .empty
  queue : List AquireCommand := []
  state : AcquireState := {}

namespace NodeController

/-- The body of the loop of `submitCommand`. -/
def submitOne (node : NodeController) (command : Command) : NodeController :=
  { node with
    storage := configure node.storage command
    queue := node.queue ++ tasksOf command }

/-- `NodeController::submitCommand`. -/
def submitCommand (node : NodeController) (commands : List Command) : NodeController :=
  commands.foldl submitOne node

/-- Run the tasks that wait in the pool, one at a time and in order. -/
def runTasks (node : NodeController) : NodeController :=
  { node with queue := [], state := acquireAll node.state node.queue }

/-- A batch whose commands are executed one at a time. -/
def process (node : NodeController) (commands : List Command) : NodeController :=
  (node.submitCommand commands).runTasks

end NodeController

/-! ## The stored configuration -/

theorem mem_triples_configure {s : Storage} {k : Triple} (command : AquireCommand) :
    k ∈ (configure s (.monitor command)).triples ↔ k = command.triple ∨ k ∈ s.triples := by
  rw [configure]
  split <;> exact ChannelRepository.mem_triples_insert

theorem configure_of_monitor?_eq_none {s : Storage} {command : Command}
    (h : command.monitor? = none) : configure s command = s := by
  cases command with
  | monitor c => cases h
  | get c => rfl
  | put c => rfl
  | info c => rfl

theorem tasksOf_eq (command : Command) : tasksOf command = command.monitor?.toList := by
  cases command <;> rfl

/-- **The configuration is a record of everything that was ever mentioned**: a batch adds the
triples of its monitor commands, activations and deactivations alike. -/
theorem mem_triples_foldl_configure (commands : List Command) (s : Storage) (k : Triple) :
    k ∈ (commands.foldl configure s).triples ↔
      (∃ c ∈ commands.filterMap Command.monitor?, c.triple = k) ∨ k ∈ s.triples := by
  induction commands generalizing s with
  | nil => simp
  | cons command commands ih =>
    rw [List.foldl_cons, ih]
    cases hm : command.monitor? with
    | none => rw [configure_of_monitor?_eq_none hm, List.filterMap_cons_none hm]
    | some c =>
      have hc : command = .monitor c := by
        cases command <;> cases hm
        rfl
      rw [hc, mem_triples_configure, List.filterMap_cons_some (by rfl)]
      simp only [List.mem_cons, exists_eq_or_imp, or_assoc, eq_comm (a := k)]
      exact or_left_comm

theorem nodup_foldl_configure (commands : List Command) {s : Storage}
    (h : (s.rows.map ChannelMonitorType.triple).Nodup) :
    ((commands.foldl configure s).rows.map ChannelMonitorType.triple).Nodup := by
  induction commands generalizing s with
  | nil => exact h
  | cons command commands ih =>
    refine ih ?_
    cases command with
    | monitor c =>
      rw [configure]
      split <;> exact ChannelRepository.nodup_insert h
    | get c => exact h
    | put c => exact h
    | info c => exact h

namespace NodeController

theorem storage_submitCommand (node : NodeController) (commands : List Command) :
    (node.submitCommand commands).storage = commands.foldl configure node.storage := by
  induction commands generalizing node with
  | nil => rfl
  | cons c commands ih => exact ih (node.submitOne c)

theorem queue_submitCommand (node : NodeController) (commands : List Command) :
    (node.submitCommand commands).queue =
      node.queue ++ commands.filterMap Command.monitor? := by
  induction commands generalizing node with
  | nil => simp [submitCommand]
  | cons c commands ih =>
    refine (ih (node.submitOne c)).trans ?_
    rw [submitOne, tasksOf_eq]
    cases hm : c.monitor? with
    | none => rw [List.filterMap_cons_none hm]; simp
    | some a => rw [List.filterMap_cons_some hm]; simp

theorem state_submitCommand (node : NodeController) (commands : List Command) :
    (node.submitCommand commands).state = node.state := by
  induction commands generalizing node with
  | nil => rfl
  | cons c commands ih => exact ih (node.submitOne c)

/-- Batches submitted one after the other are one batch. -/
theorem foldl_submitCommand (node : NodeController) (batches : List (List Command)) :
    batches.foldl submitCommand node = node.submitCommand batches.flatten := by
  induction batches generalizing node with
  | nil => rfl
  | cons batch batches ih =>
    rw [List.foldl_cons, ih, List.flatten_cons, submitCommand, submitCommand, submitCommand,
      List.foldl_append]

/-- The node after the batches `done` and the first commands `part` of the next one. -/
def submitted (done : List (List Command)) (part : List Command) : NodeController :=
  (done.foldl submitCommand {}).submitCommand part

theorem mem_triples_submitted (done : List (List Command)) (part : List Command) (k : Triple) :
    k ∈ (submitted done part).storage.triples ↔
      ∃ c ∈ (done.flatten ++ part).filterMap Command.monitor?, c.triple = k := by
  have h : submitted done part = submitCommand {} (done.flatten ++ part) := by
    rw [submitted, foldl_submitCommand, submitCommand, submitCommand, submitCommand,
      List.foldl_append]
  rw [h, storage_submitCommand, mem_triples_foldl_configure]
  simp

end NodeController

/-- The last command on the triple activated it. -/
def Active (commands : List AquireCommand) (k : Triple) : Prop :=
  (LastWrite.lastOn AquireCommand.triple k commands).map AquireCommand.activate = some true

theorem not_active_nil (k : Triple) : ¬ Active [] k := nofun

theorem active_concat (commands : List AquireCommand) (command : AquireCommand) (k : Triple) :
    Active (commands ++ [command]) k ↔
      if command.triple = k then command.activate = true else Active commands k := by
  rw [Active, LastWrite.lastOn_concat]
  split
  · rw [Option.map_some, Option.some_inj]
  · rfl

/-- The triples that are active. -/
def activeTriples (commands : List Command) : Set Triple :=
  {k | Active (commands.filterMap Command.monitor?) k}

/-- The stored triples are the active ones after every command of the batches. -/
def StoredAreActive (batches : List (List Command)) : Prop :=
  ∀ done part rest later, batches = done ++ (part ++ rest) :: later →
    (NodeController.submitted done part).storage.triples = activeTriples (done.flatten ++ part)

/-- **The configuration is the set of active monitors only as long as nothing is deactivated.** -/
theorem storedAreActive_iff (batches : List (List Command)) :
    StoredAreActive batches ↔
      ∀ c ∈ batches.flatten.filterMap Command.monitor?, c.activate = true := by
  constructor
  · intro h c hc
    -- cut the run right after the command: its triple is stored, so it has to be active
    obtain ⟨command, hcommand, hmonitor⟩ := List.mem_filterMap.mp hc
    obtain ⟨batch, hbatch, hcb⟩ := List.mem_flatten.mp hcommand
    obtain ⟨done, later, rfl⟩ := List.append_of_mem hbatch
    obtain ⟨before, rest, rfl⟩ := List.append_of_mem hcb
    have hset := h done (before ++ [command]) rest later (by simp)
    have hlist : (done.flatten ++ (before ++ [command])).filterMap Command.monitor? =
        (done.flatten ++ before).filterMap Command.monitor? ++ [c] := by
      simp [List.filterMap_append, hmonitor]
    have hstored : c.triple ∈
        (NodeController.submitted done (before ++ [command])).storage.triples := by
      rw [NodeController.mem_triples_submitted, hlist]
      exact ⟨c, by simp, rfl⟩
    rw [hset, activeTriples, Set.mem_ofPred_eq, hlist, active_concat, if_pos rfl] at hstored
    exact hstored
  · intro h done part rest later hb
    have hall : ∀ c ∈ (done.flatten ++ part).filterMap Command.monitor?, c.activate = true := by
      intro c hc
      refine h c ((List.Sublist.filterMap _ ?_).subset hc)
      rw [hb]
      simp only [List.flatten_append, List.flatten_cons, List.append_assoc]
      exact (List.sublist_append_left _ _).append_left _
    ext k
    rw [NodeController.mem_triples_submitted, activeTriples, Set.mem_ofPred_eq]
    constructor
    · rintro ⟨c, hc, hk⟩
      obtain ⟨d, hd⟩ := Option.isSome_iff_exists.mp (LastWrite.lastOn_isSome_of_mem hc hk)
      rw [Active, hd, Option.map_some, hall d (LastWrite.mem_of_lastOn hd).1]
    · intro hk
      obtain ⟨c, hc, -⟩ := Option.map_eq_some_iff.mp hk
      obtain ⟨hmem, hkey⟩ := LastWrite.mem_of_lastOn hc
      exact ⟨c, hmem, hkey⟩

/-- A monitor that is activated and then deactivated stays in the configuration. -/
theorem not_storedAreActive_deactivated :
    ¬ StoredAreActive
      [[.monitor ⟨"pva", "channel:ramp:ramp", true, "acquire_comad_in"⟩],
        [.monitor ⟨"pva", "channel:ramp:ramp", false, "acquire_comad_in"⟩]] := by
  intro h
  have hset := h [[.monitor ⟨"pva", "channel:ramp:ramp", true, "acquire_comad_in"⟩]]
    [.monitor ⟨"pva", "channel:ramp:ramp", false, "acquire_comad_in"⟩] [] [] rfl
  have hstored : ("channel:ramp:ramp", "pva", "acquire_comad_in") ∈
      (NodeController.submitted
        [[.monitor ⟨"pva", "channel:ramp:ramp", true, "acquire_comad_in"⟩]]
        [.monitor ⟨"pva", "channel:ramp:ramp", false, "acquire_comad_in"⟩]).storage.triples :=
    ⟨⟨1, "channel:ramp:ramp", "pva", "acquire_comad_in"⟩, by decide, rfl⟩
  rw [hset, activeTriples, Set.mem_ofPred_eq, Active] at hstored
  exact absurd hstored (by decide)

end Ekg
