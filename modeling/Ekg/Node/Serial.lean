import Ekg.Node.NodeController

/-!
# Commands executed one at a time

When the tasks of the acquire worker run one after the other, the worker is a last-writer-wins
store: whether a topic is subscribed for a channel is decided by the last command on the two
(`writes_acquire`).  All this needs of the state is that no topic list has a duplicate, because the
deactivation of a topic erases one occurrence of it.

If in addition every task so far succeeded, the service manager monitors exactly the channels whose
list is not empty; `SerialInv` is the two together.

From this follows what a history of commands leaves (`acquireAll_serial`).
-/

set_option autoImplicit false

namespace Ekg

open LastWrite

/-- No topic list contains a topic twice. -/
def AcquireState.NodupTopics (s : AcquireState) : Prop := ∀ c, (s.topics c).Nodup

theorem nodupTopics_init : AcquireState.NodupTopics {} :=
  fun c ↦ by simp [AcquireState.topics]

theorem AcquireState.NodupTopics.acquireManagement {s : AcquireState} (h : s.NodupTopics)
    (failure : Option SetupFailure) (command : AquireCommand) :
    (acquireManagement failure command s).1.NodupTopics := by
  intro c
  -- whether the setup of the channel fails is decided after the list is updated
  refine (congrArg List.Nodup (AcquireState.topics_acquire s command c)).mpr ?_
  split
  · exact ChannelTopicsMap.nodup_updated (h c)
  · exact h c

/-- A command decides about its own channel and topic, and about nothing else. -/
theorem AcquireState.NodupTopics.mem_topics_acquire {s : AcquireState} (h : s.NodupTopics)
    (command : AquireCommand) (c t : String) :
    t ∈ (acquire s command).topics c ↔
      if command.target = (c, t) then command.activate = true else t ∈ s.topics c := by
  rw [AcquireState.topics_acquire]
  by_cases hc : command.channelName = c
  · rw [if_pos hc, ChannelTopicsMap.mem_updated (h c)]
    simp [AquireCommand.target, hc]
  · simp [AquireCommand.target, hc]

/-- The topic is subscribed for the channel. -/
def subscribed (s : AcquireState) (target : String × String) : Bool :=
  decide (target.2 ∈ s.topics target.1)

/-- **One command writes one (channel, topic) pair.** -/
theorem writes_acquire :
    Writes acquire subscribed AquireCommand.target AquireCommand.activate
      AcquireState.NodupTopics where
  keeps _ command h := h.acquireManagement none command
  obs_step s command k h := by
    rw [Bool.eq_iff_iff, subscribed, decide_eq_true_iff, h.mem_topics_acquire]
    split <;> simp [subscribed]

/-- What a history of commands that all succeed keeps. -/
structure SerialInv (s : AcquireState) : Prop where
  /-- No list contains a topic twice. -/
  nodup : s.NodupTopics
  /-- The monitored channels are those that have topics. -/
  monitored : ∀ c, s.Monitored c ↔ s.topics c ≠ []

theorem serialInv_init : SerialInv {} :=
  ⟨nodupTopics_init, fun c ↦ by
    simp [AcquireState.topics, AcquireState.Monitored, EpicsServiceManager.empty]⟩

theorem SerialInv.acquire {s : AcquireState} (h : SerialInv s) (command : AquireCommand) :
    SerialInv (acquire s command) := by
  refine ⟨h.nodup.acquireManagement none command, fun c ↦ ?_⟩
  rw [AcquireState.monitored_acquire]
  split
  · rfl
  · rename_i hc
    rw [h.monitored, AcquireState.topics_acquire, if_neg hc]

theorem SerialInv.acquireAll {s : AcquireState} (h : SerialInv s) (commands : List AquireCommand) :
    SerialInv (acquireAll s commands) := by
  induction commands generalizing s with
  | nil => exact h
  | cons command commands ih => exact ih (h.acquire command)

/-- The last command on a channel and a topic decides whether the topic is subscribed. -/
theorem mem_topics_acquireAll (commands : List AquireCommand) (c t : String) :
    t ∈ (acquireAll {} commands).topics c ↔
      (lastOn AquireCommand.target (c, t) commands).map AquireCommand.activate = some true := by
  have h := writes_acquire.obs_foldl nodupTopics_init commands (c, t)
  rw [← decide_eq_true_iff (p := t ∈ _)]
  refine (Eq.congr_left h).trans ?_
  cases (lastOn AquireCommand.target (c, t) commands).map AquireCommand.activate with
  | none => simp [subscribed, AcquireState.topics]
  | some b => simp

/-- **Serial semantics of the acquire worker.** -/
theorem acquireAll_serial (commands : List AquireCommand) :
    (∀ c t, t ∈ (acquireAll {} commands).topics c ↔
      (lastOn AquireCommand.target (c, t) commands).map AquireCommand.activate = some true) ∧
    (∀ c, ((acquireAll {} commands).topics c).Nodup) ∧
    (∀ c, (acquireAll {} commands).Monitored c ↔ (acquireAll {} commands).topics c ≠ []) ∧
    ∀ command c, c ≠ AquireCommand.channelName command →
      (acquire (acquireAll {} commands) command).topics c = (acquireAll {} commands).topics c ∧
      (acquire (acquireAll {} commands) command).channel? c =
        (acquireAll {} commands).channel? c := by
  have hinv := serialInv_init.acquireAll commands
  refine ⟨mem_topics_acquireAll commands, hinv.nodup, hinv.monitored, ?_⟩
  intro command c hc
  rw [AcquireState.topics_acquire, AcquireState.channel?_acquire, if_neg hc.symm, if_neg hc.symm]
  exact ⟨rfl, rfl⟩

/-! ## A batch at a time -/

theorem filterMap_monitor? (batch : List AquireCommand) :
    (batch.map Command.monitor).filterMap Command.monitor? = batch := by
  rw [List.filterMap_map]
  exact List.filterMap_some

namespace NodeController

theorem state_process (node : NodeController) (batch : List AquireCommand) :
    (node.process (batch.map .monitor)).state = acquireAll node.runTasks.state batch := by
  rw [process, runTasks, runTasks, state_submitCommand, queue_submitCommand, filterMap_monitor?,
    acquireAll, acquireAll, acquireAll, List.foldl_append]

theorem mem_triples_process (node : NodeController) (batch : List AquireCommand) (k : Triple) :
    k ∈ (node.process (batch.map .monitor)).storage.triples ↔
      (∃ c ∈ batch, c.triple = k) ∨ k ∈ node.storage.triples := by
  rw [process, runTasks, storage_submitCommand, mem_triples_foldl_configure, filterMap_monitor?]

end NodeController

end Ekg
